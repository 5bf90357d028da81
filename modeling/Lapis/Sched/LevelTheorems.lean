/-
Lapis.Sched.LevelTheorems — one level of a run queue is a FIFO list.

`mlfq_push`, `mlfq_pop` and `mlfq_remove` run beside a reference list: a push appends, a pop takes the
first thread and a removal deletes the thread wherever it stands.
-/
import Lapis.Lib.Run
import Lapis.Sched.SchedBoot

namespace Lapis.Sched.SchedState

open Function List Option Lib

variable {n : Nat} {T : Type} [DecidableEq T]

/-! ## Removal -/

section Remove

variable {s : SchedState n T} {t : T} {c : Fin n} {l : Fin 8}

/-- A thread without a predecessor is the first of its level, one without a successor the last. -/
theorem queues_mlfqRemove (hself : (s.threads t).rqPrev ≠ some t)
    (hhead : (s.threads t).rqPrev = none → ((s.rqs c).levels l).head = some t)
    (htail : (s.threads t).rqNext = none → ((s.rqs c).levels l).tail = some t) :
    (s.mlfqRemove c l t).queues = s.queues.unlink (c, l) t ∧
      (s.mlfqRemove c l t).counts = update s.counts (c, l) (s.counts (c, l) - 1) := by
  have hlinks : s.queues.prev t = (s.threads t).rqPrev ∧ s.queues.next t = (s.threads t).rqNext := ⟨rfl, rfl⟩
  have hends : ((s.rqs c).levels l).head = s.queues.head (c, l) ∧
    ((s.rqs c).levels l).tail = s.queues.tail (c, l) := ⟨rfl, rfl⟩
  have hthread : ∀ (s : SchedState n T) u f, (s.modThread u f).counts = s.counts := fun _ _ _ => rfl
  unfold mlfqRemove LinkQueues.unlink
  rw [hlinks.1, hlinks.2]
  cases hp : (s.threads t).rqPrev with
  | none =>
    cases hn : (s.threads t).rqNext with
    | none =>
      simp [hp, hn, hhead hp, htail hn, queues_modLevel, queues_setLinks, counts_modLevel, hthread, counts]
    | some u =>
      simp [hp, hn, hhead hp, hends, queues_modLevel, queues_setLinks, queues_setPrev, counts_modLevel,
        hthread, counts]
  | some p =>
    have hkeep : ∀ f, (s.modThread p f).threads t = s.threads t := by
      intro f
      refine update_of_ne ?_ ..
      rintro rfl
      exact hself hp
    cases hn : (s.threads t).rqNext with
    | none =>
      simp [hp, hn, hkeep, htail hn, hends, queues_modLevel, queues_setLinks, queues_setNext,
        counts_modLevel, hthread, counts]
    | some u =>
      simp [hp, hn, hkeep, hends, queues_modLevel, queues_setLinks, queues_setNext, queues_setPrev,
        counts_modLevel, hthread, counts]

theorem Counted.remove {L : Fin n × Fin 8 → List T} {A B : List T} (h : s.Counted L)
    (hL : L (c, l) = A ++ t :: B) : (s.mlfqRemove c l t).Counted (update L (c, l) (A ++ B)) := by
  obtain ⟨hprev, hnext⟩ := h.holds.spells (c, l) A t B hL
  have hnodup := hL ▸ h.holds.nodup (c, l)
  obtain ⟨hqueues, hcounts⟩ : (s.mlfqRemove c l t).queues = s.queues.unlink (c, l) t ∧
      (s.mlfqRemove c l t).counts = update s.counts (c, l) (s.counts (c, l) - 1) := by
    refine queues_mlfqRemove (fun hself => ?_) (fun hnone => ?_) fun hnone => ?_
    · have hmem : t ∈ A := List.mem_of_getLast? (hprev.symm.trans hself)
      exact (nodup_append.mp hnodup).2.2 t hmem t mem_cons_self rfl
    · have hA : A = [] := List.getLast?_eq_none_iff.mp (hprev.symm.trans hnone)
      exact h.holds.head_eq_some_iff.mpr ⟨B, by rw [hL, hA]; rfl⟩
    · have hB : B = [] := List.head?_eq_none_iff.mp (hnext.symm.trans hnone)
      exact (h.holds.tail (c, l)).trans (by simp [hL, hB])
  refine ⟨hqueues ▸ h.holds.unlink hL, ?_⟩
  rw [hcounts, h.counts, hL, funext h.counts]
  intro i
  rw [update_apply, update_apply]
  split
  · simp [← Nat.add_assoc]
  · rfl

end Remove

/-! ## Runs -/

inductive LevelOp (T : Type) where
  | push (t : T)
  | pop
  | remove (t : T)

/-- One call on a level, beside the list it stands for. There is no step for the push of a thread that
is in the level or the removal of one that is not. -/
def levelStep (c : Fin n) (l : Fin 8) (_ : Nat) (op : LevelOp T) (x : SchedState n T × List T) :
    Option (SchedState n T × List T) :=
  match op with
  | .push t => if t ∈ x.2 then none else some (x.1.mlfqPush c l t, x.2 ++ [t])
  | .pop => some ((x.1.mlfqPop c l).2, x.2.tail)
  | .remove t => if t ∈ x.2 then some (x.1.mlfqRemove c l t, x.2.erase t) else none

/-- The level is the list, all other levels are empty, and a pop returns the first thread. -/
def IsList (c : Fin n) (l : Fin 8) (x : SchedState n T × List T) : Prop :=
  x.1.Counted (update (fun _ => []) (c, l) x.2) ∧ (x.1.mlfqPop c l).1 = x.2.head?

section Runs

variable {c : Fin n} {l : Fin 8} {s : SchedState n T} {ts : List T}

theorem isList_of_counted (h : s.Counted (update (fun _ => []) (c, l) ts)) : IsList c l (s, ts) := by
  refine ⟨h, ?_⟩
  cases ts with
  | nil => rw [h.pop_nil (by simp)]; rfl
  | cons t ts => exact (h.pop (update_self ..)).1

theorem IsList.step {fuel : Nat} {op : LevelOp T} {x y : SchedState n T × List T} (h : IsList c l x)
    (hstep : levelStep c l fuel op x = some y) : IsList c l y := by
  obtain ⟨s, ts⟩ := x
  have hlist : s.Counted (update (fun _ => []) (c, l) ts) := h.1
  have hself : update (fun _ => []) (c, l) ts (c, l) = ts := update_self ..
  cases op with
  | push t =>
    simp only [levelStep, ite_none_left_eq_some, some.injEq] at hstep
    obtain ⟨hnew, rfl⟩ := hstep
    have hnone : ∀ i, t ∉ update (fun _ => []) (c, l) ts i := by
      intro i
      by_cases hi : i = (c, l) <;> simp [hi, hnew]
    have hpush := hlist.push (c := c) (l := l) hnone
    rw [hself, update_idem] at hpush
    exact isList_of_counted hpush
  | pop =>
    simp only [levelStep, some.injEq] at hstep
    subst hstep
    cases ts with
    | nil =>
      rw [hlist.pop_nil hself]
      exact isList_of_counted hlist
    | cons t ts =>
      have hpop := (hlist.pop hself).2
      rw [update_idem] at hpop
      exact isList_of_counted hpop
  | remove t =>
    simp only [levelStep, ite_none_right_eq_some, some.injEq] at hstep
    obtain ⟨hmem, rfl⟩ := hstep
    obtain ⟨A, B, hA, rfl, herase⟩ := exists_erase_eq hmem
    have hremove := hlist.remove hself
    rw [update_idem] at hremove
    simp only [herase]
    exact isList_of_counted hremove

/-- From empty levels, a level is the list that its pushes, pops and removals make. -/
theorem level_refines_list {s₀ : SchedState n T} (hlevel : ∀ d m, (s₀.rqs d).levels m = ⟨none, none, 0⟩)
    (hlinks : ∀ t, (s₀.threads t).rqNext = none ∧ (s₀.threads t).rqPrev = none)
    (hrun : Lib.Run (levelStep c l) (fun _ _ => True) (s₀, []) (s, ts)) : IsList c l (s, ts) := by
  have hempty : update (fun _ => []) (c, l) [] = fun _ => ([] : List T) := update_eq_self (c, l) _
  refine hrun.invariant (isList_of_counted ?_) fun _ _ _ _ h _ hstep => h.step hstep
  rw [hempty]
  exact (represents_iff.mp (represents_empty hlevel hlinks)).1

end Runs

/-- Three threads are queued, the second is taken out and the first is popped. -/
theorem level_refines_list_four : ∃ x,
    Lib.Run (levelStep 0 2) (fun _ _ => True) (unbooted 1 (0 : Fin 4), []) x ∧ x.2 = [3] ∧ IsList 0 2 x := by
  refine Lib.Run.exists_of_exec 0 [.push 1, .push 2, .push 3, .remove 2, .pop] (fun x => x.2 = [3])
    (by decide) fun x hrun hx => ⟨hx, ?_⟩
  exact level_refines_list (fun _ _ => rfl) (fun _ => ⟨rfl, rfl⟩) hrun

end Lapis.Sched.SchedState
