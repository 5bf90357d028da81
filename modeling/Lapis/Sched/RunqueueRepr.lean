/-
Lapis.Sched.RunqueueRepr — which lists the run queues in memory are.

`Represents s L` says that the levels of all run queues, as linked in memory, are the lists
`L` and that every level's `count` is the length of its list. `view s L` is the abstract
state: the ready list of a CPU is the concatenation of its levels in the order in which
`mlfq_pick_next` visits them. The operations on a level are those of `Lib/LinkQueue` on the
links of the threads, and nothing else of the view.

The lemmas about counts need that fewer than 2^32 threads exist: the counters are `uint32_t`.
-/
import Lapis.Lib.LinkQueue
import Lapis.Sched.AbsSched
import Mathlib.Algebra.Group.Int.Defs
import Mathlib.Algebra.Group.Nat.Defs
import Mathlib.Data.Fintype.Card

namespace Lapis.Sched

open Function List Lib

variable {n : Nat} {T : Type}

/-! ## Levels as lists -/

/-- The threads of CPU `c` in the order in which they will be picked. -/
def flat (L : Fin n × Fin 8 → List T) (c : Fin n) : List T :=
  (List.finRange 8).flatMap fun l => L (c, l)

/-- Those of them on levels before `l`. -/
def before (L : Fin n × Fin 8 → List T) (c : Fin n) (l : Fin 8) : List T :=
  ((List.finRange 8).take l).flatMap fun l => L (c, l)

/-- Those of them on levels after `l`. -/
def behind (L : Fin n × Fin 8 → List T) (c : Fin n) (l : Fin 8) : List T :=
  ((List.finRange 8).drop (l + 1)).flatMap fun l => L (c, l)

variable {t : T}

section Lists

variable {L : Fin n × Fin 8 → List T} {c : Fin n} {l : Fin 8}

theorem levels_split (l : Fin 8) :
    List.finRange 8 = (List.finRange 8).take l ++ l :: (List.finRange 8).drop (l + 1) := by
  conv_lhs => rw [← take_append_drop l (List.finRange 8)]
  rw [drop_eq_getElem_cons (by simp), getElem_finRange]
  simp

theorem flat_eq (L : Fin n × Fin 8 → List T) (c : Fin n) (l : Fin 8) :
    flat L c = before L c l ++ (L (c, l) ++ behind L c l) := by
  rw [flat, levels_split l, flatMap_append, flatMap_cons, before, behind]

theorem mem_flat : t ∈ flat L c ↔ ∃ l, t ∈ L (c, l) := by
  simp [flat]

theorem flat_eq_nil : flat L c = [] ↔ ∀ l, L (c, l) = [] := by
  simp [flat]

theorem flat_empty (c : Fin n) : flat (fun _ => ([] : List T)) c = [] :=
  flat_eq_nil.mpr fun _ => rfl

theorem mem_before : t ∈ before L c l ↔ ∃ m < l, t ∈ L (c, m) := by
  simp only [before, mem_flatMap, mem_take_iff_getElem, getElem_finRange]
  constructor
  · rintro ⟨m, ⟨i, hi, rfl⟩, ht⟩
    exact ⟨_, by simp [Fin.lt_def]; omega, ht⟩
  · rintro ⟨m, hm, ht⟩
    exact ⟨m, ⟨m, by simp; omega, by simp⟩, ht⟩

theorem flat_update_of_ne {d : Fin n} (h : d ≠ c) (xs : List T) : flat (update L (c, l) xs) d = flat L d := by
  unfold flat
  congr 1
  funext m
  rw [update_of_ne]
  simp [h]

theorem flat_update (xs : List T) : flat (update L (c, l) xs) c = before L c l ++ (xs ++ behind L c l) := by
  have hnd := levels_split l ▸ nodup_finRange 8
  have hsame : ∀ ms : List (Fin 8), l ∉ ms →
      (ms.flatMap fun m => update L (c, l) xs (c, m)) = ms.flatMap fun m => L (c, m) := by
    intro ms hl
    refine flatMap_congr fun m hm => update_of_ne ?_ _ _
    rintro h
    exact hl ((Prod.mk.inj h).2 ▸ hm)
  rw [flat_eq _ c l, update_self, before, behind, hsame, hsame, ← before, ← behind]
  · exact (nodup_cons.mp (nodup_append.mp hnd).2.1).1
  · intro hl
    exact (nodup_append.mp hnd).2.2 l hl l (by simp) rfl

end Lists

/-! ## What the memory represents -/

namespace SchedState

/-- The levels of all run queues as one family of linked queues. -/
def queues (s : SchedState n T) : LinkQueues (Fin n × Fin 8) T where
  next t := (s.threads t).rqNext
  prev t := (s.threads t).rqPrev
  head i := ((s.rqs i.1).levels i.2).head
  tail i := ((s.rqs i.1).levels i.2).tail

def counts (s : SchedState n T) (i : Fin n × Fin 8) : UInt32 := ((s.rqs i.1).levels i.2).count

/-- The levels are the lists `L`, and every count is the length of its list. -/
structure Represents (s : SchedState n T) (L : Fin n × Fin 8 → List T) : Prop where
  holds : s.queues.Holds L
  counts : ∀ i, (s.counts i).toNat = (L i).length

/-- The abstract state; its ready lists come from `L`. -/
def view (s : SchedState n T) (L : Fin n × Fin 8 → List T) : AbsSched n T where
  ready := flat L
  state t := (s.threads t).state
  lastCpu t := (s.threads t).lastCpu
  pinnedCpu t := (s.threads t).pinnedCpu
  nrRunning c := (s.rqs c).nrRunning
  current c := s.current c
  idle c := (s.rqs c).idle

/-! ### Single updates -/

section Updates

variable (s : SchedState n T) (t : T) (c : Fin n) (l : Fin 8)
  (f : Thread T → Thread T) (g : Runqueue T → Runqueue T) (k : MlfqQueue T → MlfqQueue T)
  (m : Cpu T → Cpu T)

@[simp] theorem modRq_threads : (s.modRq c g).threads = s.threads := rfl
@[simp] theorem modRq_cpus : (s.modRq c g).cpus = s.cpus := rfl
@[simp] theorem modRq_rqs_self : (s.modRq c g).rqs c = g (s.rqs c) := by simp [modRq]
@[simp] theorem modLevel_threads : (s.modLevel c l k).threads = s.threads := rfl
@[simp] theorem modLevel_cpus : (s.modLevel c l k).cpus = s.cpus := rfl
@[simp] theorem modLevel_levels_self :
    ((s.modLevel c l k).rqs c).levels l = k ((s.rqs c).levels l) := by simp [modLevel]
@[simp] theorem modCpu_threads : (s.modCpu c m).threads = s.threads := rfl
@[simp] theorem modCpu_rqs : (s.modCpu c m).rqs = s.rqs := rfl

variable [DecidableEq T]

@[simp] theorem modThread_rqs : (s.modThread t f).rqs = s.rqs := rfl
@[simp] theorem modThread_cpus : (s.modThread t f).cpus = s.cpus := rfl
@[simp] theorem modThread_threads_self : (s.modThread t f).threads t = f (s.threads t) := by
  simp [modThread]

end Updates

/-! ### Updates that touch no link -/

variable {f : Thread T → Thread T}

section Frame

variable (s : SchedState n T) (L : Fin n × Fin 8 → List T) (t : T) (c : Fin n)

theorem queues_modRq {f : Runqueue T → Runqueue T} (hf : ∀ rq, (f rq).levels = rq.levels) :
    (s.modRq c f).queues = s.queues := by
  refine LinkQueues.ext rfl rfl ?_ ?_ <;> funext i <;> by_cases hi : i.1 = c <;> simp [queues, modRq, hi, hf]

theorem counts_modRq {f : Runqueue T → Runqueue T} (hf : ∀ rq, (f rq).levels = rq.levels) :
    (s.modRq c f).counts = s.counts := by
  funext i
  by_cases hi : i.1 = c <;> simp [counts, modRq, hi, hf]

theorem view_modRq {f : Runqueue T → Runqueue T} (hf : ∀ rq, (f rq).idle = rq.idle) :
    (s.modRq c f).view L =
      { s.view L with
        nrRunning := update (s.view L).nrRunning c (f (s.rqs c)).nrRunning } := by
  ext d : 2 <;> try rfl
  all_goals by_cases hd : d = c <;> simp [view, modRq, hd, hf]

/-- A run-queue update the abstract state does not see. -/
theorem view_modRq_same {f : Runqueue T → Runqueue T}
    (hf : ∀ rq, (f rq).idle = rq.idle ∧ (f rq).nrRunning = rq.nrRunning) :
    (s.modRq c f).view L = s.view L := by
  rw [view_modRq s L c fun rq => (hf rq).1, (hf _).2]
  exact AbsSched.ext rfl rfl rfl rfl (update_eq_self ..) rfl rfl

theorem view_modCpu {f : Cpu T → Cpu T} :
    (s.modCpu c f).view L =
      { s.view L with current := update (s.view L).current c (f (s.cpus c)).currentThread } := by
  ext d : 2 <;> try rfl
  by_cases hd : d = c <;> simp [view, current, modCpu, hd]

theorem view_modCpu_same {f : Cpu T → Cpu T} (hf : ∀ cpu, (f cpu).currentThread = cpu.currentThread) :
    (s.modCpu c f).view L = s.view L := by
  rw [view_modCpu s L c, hf]
  exact AbsSched.ext rfl rfl rfl rfl rfl (update_eq_self ..) rfl

theorem view_incRunning :
    (s.modRq c fun rq => { rq with nrRunning := rq.nrRunning + 1 }).view L =
      { s.view L with
        nrRunning := update (s.view L).nrRunning c ((s.view L).nrRunning c + 1) } :=
  view_modRq s L c fun _ => rfl

theorem view_decRunning :
    (s.modRq c fun rq => { rq with nrRunning := rq.nrRunning - 1 }).view L =
      { s.view L with
        nrRunning := update (s.view L).nrRunning c ((s.view L).nrRunning c - 1) } :=
  view_modRq s L c fun _ => rfl

variable [DecidableEq T]

theorem queues_modThread (hf : ∀ th, (f th).rqNext = th.rqNext ∧ (f th).rqPrev = th.rqPrev) :
    (s.modThread t f).queues = s.queues := by
  refine LinkQueues.ext ?_ ?_ rfl rfl <;> funext u <;> by_cases hu : u = t <;>
    simp [queues, modThread, hu, hf]

theorem view_modThread (hf : ∀ th, (f th).pinnedCpu = th.pinnedCpu) :
    (s.modThread t f).view L =
      { s.view L with
        state := update (s.view L).state t (f (s.threads t)).state
        lastCpu := update (s.view L).lastCpu t (f (s.threads t)).lastCpu } := by
  ext u : 2 <;> try rfl
  all_goals by_cases hu : u = t <;> simp [view, modThread, hu, hf]

/-- A thread update the abstract state does not see. -/
theorem view_modThread_same (hf : ∀ th, (f th).state = th.state ∧ (f th).lastCpu = th.lastCpu ∧
      (f th).pinnedCpu = th.pinnedCpu) : (s.modThread t f).view L = s.view L := by
  rw [view_modThread s L t fun th => (hf th).2.2, (hf _).1, (hf _).2.1]
  exact AbsSched.ext rfl (update_eq_self ..) (update_eq_self ..) rfl rfl rfl rfl

theorem view_modThread_state {x : ThreadState}
    (hf : ∀ th, (f th).state = x ∧ (f th).lastCpu = th.lastCpu ∧ (f th).pinnedCpu = th.pinnedCpu) :
    (s.modThread t f).view L = { s.view L with state := update (s.view L).state t x } := by
  rw [view_modThread s L t fun th => (hf th).2.2, (hf _).1, (hf _).2.1]
  exact AbsSched.ext rfl rfl (update_eq_self ..) rfl rfl rfl rfl

theorem view_setState (x : ThreadState) :
    (s.modThread t fun th => { th with state := x }).view L =
      { s.view L with state := update (s.view L).state t x } :=
  view_modThread_state s L t fun _ => ⟨rfl, rfl, rfl⟩

theorem view_setLastCpu (x : Int) :
    (s.modThread t fun th => { th with lastCpu := x }).view L =
      { s.view L with lastCpu := update (s.view L).lastCpu t x } := by
  refine (view_modThread s L t ?_).trans ?_
  · exact fun _ => rfl
  · exact AbsSched.ext rfl (update_eq_self ..) rfl rfl rfl rfl rfl

end Frame

variable {c : Fin n} {l : Fin 8}

namespace Represents

variable {s : SchedState n T} {L : Fin n × Fin 8 → List T}

section

variable (h : s.Represents L)

include h

theorem modRq {f : Runqueue T → Runqueue T}
    (hf : ∀ rq, (f rq).levels = rq.levels) : (s.modRq c f).Represents L :=
  ⟨s.queues_modRq c hf ▸ h.holds, s.counts_modRq c hf ▸ h.counts⟩

theorem incRunning : (s.modRq c fun rq => { rq with nrRunning := rq.nrRunning + 1 }).Represents L :=
  h.modRq fun _ => rfl

theorem decRunning : (s.modRq c fun rq => { rq with nrRunning := rq.nrRunning - 1 }).Represents L :=
  h.modRq fun _ => rfl

theorem modCpu {f : Cpu T → Cpu T} : (s.modCpu c f).Represents L :=
  ⟨h.holds, h.counts⟩

theorem count_pos : 0 < ((s.rqs c).levels l).count ↔ L (c, l) ≠ [] := by
  have hc := h.counts (c, l)
  rw [UInt32.lt_iff_toNat_lt, ← length_pos_iff, ← hc]
  rfl

theorem one_lt_count : 1 < ((s.rqs c).levels l).count ↔ 1 < (L (c, l)).length := by
  rw [UInt32.lt_iff_toNat_lt, ← h.counts (c, l)]
  rfl

variable [DecidableEq T]

theorem modThread (hf : ∀ th, (f th).rqNext = th.rqNext ∧ (f th).rqPrev = th.rqPrev) :
    (s.modThread t f).Represents L :=
  ⟨s.queues_modThread t hf ▸ h.holds, h.counts⟩

theorem setState {x : ThreadState} :
    (s.modThread t fun th => { th with state := x }).Represents L :=
  h.modThread fun _ => ⟨rfl, rfl⟩

theorem setLastCpu {x : Int} : (s.modThread t fun th => { th with lastCpu := x }).Represents L :=
  h.modThread fun _ => ⟨rfl, rfl⟩

end

end Represents

/-! ### Updates outside of the abstract state -/

/-- `s'` differs from `s` only in fields that neither the lists nor the abstract state see. -/
structure Unseen (s s' : SchedState n T) : Prop where
  queues : s'.queues = s.queues
  counts : s'.counts = s.counts
  view : ∀ L, s'.view L = s.view L

namespace Unseen

variable {s s' s'' : SchedState n T} {L : Fin n × Fin 8 → List T}

theorem refl (s : SchedState n T) : Unseen s s := ⟨rfl, rfl, fun _ => rfl⟩

section

variable (h : Unseen s s')

include h

theorem trans (h' : Unseen s' s'') : Unseen s s'' :=
  ⟨h'.queues.trans h.queues, h'.counts.trans h.counts, fun L => (h'.view L).trans (h.view L)⟩

theorem represents (hs : s.Represents L) : s'.Represents L :=
  ⟨h.queues ▸ hs.holds, h.counts ▸ hs.counts⟩

theorem modRq {f : Runqueue T → Runqueue T} (hlevels : ∀ rq, (f rq).levels = rq.levels)
    (hview : ∀ rq, (f rq).idle = rq.idle ∧ (f rq).nrRunning = rq.nrRunning) : Unseen s (s'.modRq c f) :=
  h.trans ⟨s'.queues_modRq c hlevels, s'.counts_modRq c hlevels, fun L => view_modRq_same s' L c hview⟩

theorem modCpu {f : Cpu T → Cpu T}
    (hview : ∀ cpu, (f cpu).currentThread = cpu.currentThread) : Unseen s (s'.modCpu c f) :=
  h.trans ⟨rfl, rfl, fun L => view_modCpu_same s' L c hview⟩

theorem modThread [DecidableEq T] (hlinks : ∀ th, (f th).rqNext = th.rqNext ∧ (f th).rqPrev = th.rqPrev)
    (hview : ∀ th, (f th).state = th.state ∧ (f th).lastCpu = th.lastCpu ∧
      (f th).pinnedCpu = th.pinnedCpu) : Unseen s (s'.modThread t f) :=
  h.trans ⟨s'.queues_modThread t hlinks, rfl, fun L => view_modThread_same s' L t hview⟩

end

end Unseen

/-! ## The operations on a level -/

section Levels

variable (s : SchedState n T) (L : Fin n × Fin 8 → List T) (t : T) (c : Fin n) (l : Fin 8)

theorem view_modLevel {f : MlfqQueue T → MlfqQueue T} : (s.modLevel c l f).view L = s.view L :=
  view_modRq_same s L c fun _ => ⟨rfl, rfl⟩

theorem levels_modLevel {f : MlfqQueue T → MlfqQueue T} (i : Fin n × Fin 8) :
    ((s.modLevel c l f).rqs i.1).levels i.2 =
      if i = (c, l) then f ((s.rqs c).levels l) else (s.rqs i.1).levels i.2 := by
  by_cases hi : i = (c, l)
  · simp [modLevel, modRq, hi]
  · by_cases hc : i.1 = c
    · have hl : i.2 ≠ l := fun hl => hi (Prod.ext hc hl)
      simp [modLevel, modRq, hc, hl, hi]
    · simp [modLevel, modRq, hc, hi]

theorem counts_modLevel {f : MlfqQueue T → MlfqQueue T} :
    (s.modLevel c l f).counts = update s.counts (c, l) (f ((s.rqs c).levels l)).count := by
  funext i
  rw [counts, levels_modLevel, update_apply]
  exact apply_ite MlfqQueue.count ..

theorem queues_modLevel {f : MlfqQueue T → MlfqQueue T} :
    (s.modLevel c l f).queues =
      { s.queues with
        head := update s.queues.head (c, l) (f ((s.rqs c).levels l)).head
        tail := update s.queues.tail (c, l) (f ((s.rqs c).levels l)).tail } := by
  refine LinkQueues.ext rfl rfl ?_ ?_ <;> funext i <;>
    simp only [queues, levels_modLevel, update_apply]
  · exact apply_ite MlfqQueue.head ..
  · exact apply_ite MlfqQueue.tail ..

variable [DecidableEq T]

theorem queues_setLinks (x y : Option T) :
    (s.modThread t fun th => { th with rqNext := x, rqPrev := y }).queues =
      { s.queues with next := update s.queues.next t x, prev := update s.queues.prev t y } := by
  refine LinkQueues.ext ?_ ?_ rfl rfl <;> funext u <;> by_cases hu : u = t <;> simp [queues, modThread, hu]

theorem queues_setNext (x : Option T) :
    (s.modThread t fun th => { th with rqNext := x }).queues =
      { s.queues with next := update s.queues.next t x } := by
  refine LinkQueues.ext ?_ ?_ rfl rfl <;> funext u <;> by_cases hu : u = t <;> simp [queues, modThread, hu]

theorem queues_setPrev (x : Option T) :
    (s.modThread t fun th => { th with rqPrev := x }).queues =
      { s.queues with prev := update s.queues.prev t x } := by
  refine LinkQueues.ext ?_ ?_ rfl rfl <;> funext u <;> by_cases hu : u = t <;> simp [queues, modThread, hu]

theorem queues_mlfqPush : (s.mlfqPush c l t).queues = s.queues.pushBack (c, l) t := by
  unfold mlfqPush LinkQueues.pushBack
  have htail : s.queues.tail (c, l) = ((s.rqs c).levels l).tail := rfl
  rw [htail]
  cases ht : ((s.rqs c).levels l).tail with
  | none => simp [queues_modLevel, queues_setLinks]
  | some u =>
    have hhead : update s.queues.head (c, l) ((s.rqs c).levels l).head = s.queues.head :=
      update_eq_self ..
    simp [queues_modLevel, queues_setLinks, queues_setNext, hhead]

theorem queues_mlfqPop (h : ((s.rqs c).levels l).head = some t) :
    (s.mlfqPop c l).1 = some t ∧ (s.mlfqPop c l).2.queues = s.queues.dropFront (c, l) t := by
  unfold mlfqPop LinkQueues.dropFront
  have hnext : s.queues.next t = (s.threads t).rqNext := rfl
  rw [h, hnext]
  refine ⟨rfl, ?_⟩
  cases hn : (s.threads t).rqNext with
  | none =>
    simp [queues_modLevel, queues_setLinks, hn]
  | some u =>
    have htail : update s.queues.tail (c, l) ((s.rqs c).levels l).tail = s.queues.tail :=
      update_eq_self ..
    simp [queues_modLevel, queues_setLinks, queues_setPrev, htail, hn]

theorem counts_mlfqPush : (s.mlfqPush c l t).counts = update s.counts (c, l) (s.counts (c, l) + 1) := by
  have hthread : ∀ (s : SchedState n T) u f, (s.modThread u f).counts = s.counts :=
    fun _ _ _ => rfl
  unfold mlfqPush
  cases ht : ((s.rqs c).levels l).tail <;> simp [counts_modLevel, hthread, counts]

theorem counts_mlfqPop (h : ((s.rqs c).levels l).head = some t) :
    (s.mlfqPop c l).2.counts = update s.counts (c, l) (s.counts (c, l) - 1) := by
  have hthread : ∀ (s : SchedState n T) u f, (s.modThread u f).counts = s.counts :=
    fun _ _ _ => rfl
  unfold mlfqPop
  rw [h]
  cases hn : (s.threads t).rqNext <;> simp [counts_modLevel, hthread, counts, hn]

theorem view_mlfqPush : (s.mlfqPush c l t).view L = s.view L := by
  unfold mlfqPush
  cases ht : ((s.rqs c).levels l).tail <;> simp [view_modLevel, view_modThread_same]

theorem view_mlfqPop : (s.mlfqPop c l).2.view L = s.view L := by
  unfold mlfqPop
  cases hh : ((s.rqs c).levels l).head with
  | none => rfl
  | some t =>
    cases hn : (s.threads t).rqNext <;> simp [view_modLevel, view_modThread_same, hn]

end Levels

/-- The same memory read with another list for one level. -/
theorem view_update (s : SchedState n T) (L : Fin n × Fin 8 → List T) (c : Fin n) (l : Fin 8)
    (xs : List T) :
    s.view (update L (c, l) xs) =
      { s.view L with
        ready := update (flat L) c (before L c l ++ (xs ++ behind L c l)) } := by
  refine AbsSched.ext ?_ rfl rfl rfl rfl rfl rfl
  funext d
  by_cases hd : d = c
  · subst hd
    simp [view, flat_update]
  · simp [view, flat_update_of_ne hd, hd]

/-! ## Specifications of the level operations -/

section Spec

variable {s s' : SchedState n T} {L : Fin n × Fin 8 → List T} {c : Fin n} {l : Fin 8} {t : T}

/-- The levels are the lists `L`, and every count is the length of its list as a `uint32_t`. -/
structure Counted (s : SchedState n T) (L : Fin n × Fin 8 → List T) : Prop where
  holds : s.queues.Holds L
  counts : ∀ i, s.counts i = UInt32.ofNat (L i).length

theorem represents_iff : s.Represents L ↔ s.Counted L ∧ ∀ i, (L i).length < 2 ^ 32 := by
  constructor
  · rintro ⟨hholds, hcounts⟩
    refine ⟨⟨hholds, fun i => ?_⟩, fun i => ?_⟩ <;> rw [← hcounts i]
    · exact UInt32.ofNat_toNat.symm
    · exact (s.counts i).toNat_lt
  · rintro ⟨⟨hholds, hcounts⟩, hfit⟩
    refine ⟨hholds, fun i => ?_⟩
    rw [hcounts i]
    exact UInt32.toNat_ofNat_of_lt (hfit i)

theorem Unseen.counted (h : Unseen s s') (hs : s.Counted L) : s'.Counted L :=
  ⟨h.queues ▸ hs.holds, h.counts ▸ hs.counts⟩

/-- No list has duplicates, so all lengths are of type `uint32_t` when there are few threads. -/
theorem Counted.represents [Fintype T] (hT : Fintype.card T < 2 ^ 32) (h : s.Counted L) : s.Represents L :=
  represents_iff.mpr ⟨h, fun i => Nat.lt_of_le_of_lt (h.holds.nodup i).length_le_card hT⟩

variable [DecidableEq T]

theorem Counted.push (h : s.Counted L) (ht : ∀ i, t ∉ L i) :
    (s.mlfqPush c l t).Counted (update L (c, l) (L (c, l) ++ [t])) := by
  refine ⟨queues_mlfqPush s t c l ▸ h.holds.pushBack ht, ?_⟩
  rw [counts_mlfqPush, h.counts, funext h.counts]
  intro i
  rw [update_apply, update_apply]
  split
  · rw [length_append, UInt32.ofNat_add]
    rfl
  · rfl

theorem Counted.pop {ts : List T} (h : s.Counted L) (hL : L (c, l) = t :: ts) :
    (s.mlfqPop c l).1 = some t ∧ (s.mlfqPop c l).2.Counted (update L (c, l) ts) := by
  have hhead : ((s.rqs c).levels l).head = some t := h.holds.head_eq_some_iff.mpr ⟨ts, hL⟩
  obtain ⟨hfst, hqueues⟩ := queues_mlfqPop s t c l hhead
  refine ⟨hfst, hqueues ▸ h.holds.dropFront hL, ?_⟩
  rw [counts_mlfqPop s t c l hhead, h.counts, hL, funext h.counts]
  intro i
  rw [update_apply, update_apply]
  split
  · rw [length_cons, UInt32.ofNat_add]
    exact UInt32.add_sub_cancel ..
  · rfl

theorem Counted.pop_nil (h : s.Counted L) (hL : L (c, l) = []) : s.mlfqPop c l = (none, s) := by
  have hhead : ((s.rqs c).levels l).head = none := h.holds.head_eq_none_iff.mpr hL
  simp [mlfqPop, hhead]

theorem Represents.push [Fintype T] (hT : Fintype.card T < 2 ^ 32) (h : s.Represents L)
    (ht : ∀ i, t ∉ L i) : (s.mlfqPush c l t).Represents (update L (c, l) (L (c, l) ++ [t])) :=
  ((represents_iff.mp h).1.push ht).represents hT

theorem Represents.pop {ts : List T} (h : s.Represents L) (hL : L (c, l) = t :: ts) :
    (s.mlfqPop c l).1 = some t ∧ (s.mlfqPop c l).2.Represents (update L (c, l) ts) := by
  obtain ⟨hcounted, hfit⟩ := represents_iff.mp h
  obtain ⟨hfst, hpop⟩ := hcounted.pop hL
  refine ⟨hfst, represents_iff.mpr ⟨hpop, fun i => ?_⟩⟩
  have hlen := hfit i
  rw [update_apply]
  split
  · case _ hi =>
    rw [hi, hL] at hlen
    exact Nat.lt_of_succ_lt hlen
  · exact hlen

end Spec

/-! ## Picking from the local queue -/

section Pick

variable [DecidableEq T] {s : SchedState n T} {L : Fin n × Fin 8 → List T} {c : Fin n}

theorem find_level_some {p : Fin 8 → Bool} (h : (List.finRange 8).find? p = some l) :
    p l = true ∧ ∀ m < l, p m = false := by
  rw [List.find?_eq_some_iff_getElem] at h
  obtain ⟨hl, i, hi, hget, hbefore⟩ := h
  refine ⟨hl, fun m hm => ?_⟩
  have hil : i = l.val := by
    rw [← hget]
    simp
  have := hbefore m.val (by omega)
  simpa using this

theorem mlfqPickNext_nil (h : s.Represents L) (hL : flat L c = []) : s.mlfqPickNext c = (none, s) := by
  have hnone : (List.finRange 8).find? (fun l => decide (0 < ((s.rqs c).levels l).count))
      = none := by
    rw [List.find?_eq_none]
    intro l _
    rw [decide_eq_true_eq, h.count_pos]
    exact not_not.mpr (flat_eq_nil.mp hL l)
  simp [mlfqPickNext, hnone]

theorem mlfqPickNext_cons (h : s.Represents L) {ts : List T} (hL : flat L c = t :: ts) :
    ∃ L', (s.mlfqPickNext c).1 = some t ∧ (s.mlfqPickNext c).2.Represents L' ∧ (s.mlfqPickNext c).2.view L' =
        { s.view L with ready := update (flat L) c ts } ∧
      ∀ d ≠ c, ∀ l, L' (d, l) = L (d, l) := by
  unfold mlfqPickNext
  cases hfind : (List.finRange 8).find? (fun l => decide (0 < ((s.rqs c).levels l).count)) with
  | none =>
    have hempty : flat L c = [] := by
      rw [flat_eq_nil]
      intro l
      have := List.find?_eq_none.mp hfind l (mem_finRange l)
      rwa [decide_eq_true_eq, h.count_pos, not_not] at this
    simp [hempty] at hL
  | some l =>
  obtain ⟨hl, hlower⟩ := find_level_some hfind
  rw [decide_eq_true_eq, h.count_pos] at hl
  have hbefore : before L c l = [] := by
    rw [eq_nil_iff_forall_not_mem]
    intro u hu
    obtain ⟨m, hm, hu⟩ := mem_before.mp hu
    have := hlower m hm
    rw [decide_eq_false_iff_not, h.count_pos, not_not] at this
    simp [this] at hu
  obtain ⟨t', ts', hlevel⟩ := exists_cons_of_ne_nil hl
  rw [flat_eq L c l, hbefore, hlevel, nil_append, cons_append, List.cons.injEq] at hL
  obtain ⟨rfl, rfl⟩ := hL
  obtain ⟨hfst, hrep⟩ := h.pop hlevel
  refine ⟨_, hfst, hrep, ?_, fun d hd m => ?_⟩
  · rw [view_mlfqPop, view_update, hbefore, nil_append]
  · rw [update_of_ne]
    simp [hd]

end Pick

end SchedState

end Lapis.Sched
