/-
Lapis.Sched.WaitExitTheorems — the window between the scan of `proc_wait` and its wait.

The scan and the link-and-block are under different locks. A child whose `proc_exit` sets its state and
wakes the queue between them is not seen by the scan and wakes nobody, and the parent then blocks
(`lost_wakeup`). `Pending` is what holds as long as no matching child wakes the queue in that window: behind
its scan, the parent's matching zombies still have to wake it.
-/
import Lapis.Lib.Run
import Lapis.Sched.WaitExit

namespace Lapis.Sched.WaitExit

open Function Option Lib

variable {κ : Type} {s s' : State κ} {isInit : Bool}

/-- The parent is blocked though a matching child is a zombie and every `proc_exit` has done its wake of
the parent. -/
def LostWakeup (s : State κ) : Prop :=
  s.blocked = true ∧ (∃ pid, s.pc = .waiting pid ∧ ∃ c ∈ s.children, s.Matches pid c ∧ s.Zombie c) ∧
    ∀ c, (s.child c).phase ≠ .zombie

/-- Behind its scan the parent has no matching child that is a zombie and has woken it. -/
structure Pending (s : State κ) : Prop where
  linked : s.linked = s.blocked
  waiting : s.blocked = true → ∃ pid, s.pc = .waiting pid
  zombie : ∀ pid, s.pc = .linking pid ∨ s.pc = .waiting pid ∧ s.blocked = true → ∀ c ∈ s.children,
    s.Matches pid c → s.Zombie c → (s.child c).phase = .zombie

theorem Pending.not_lostWakeup (h : Pending s) : ¬ LostWakeup s := by
  rintro ⟨hblocked, ⟨pid, hpc, c, hc, hmatch, hzombie⟩, hall⟩
  exact hall c (h.zombie pid (.inr ⟨hpc, hblocked⟩) c hc hmatch hzombie)

/-- A child that matches does not wake the queue between the scan and the link-and-block. -/
def noWakeInWindow (op : Op κ) (s : State κ) : Prop :=
  match op, s.pc with
  | .wakeParent c, .linking pid => c ∈ s.children → ¬ s.Matches pid c
  | _, _ => True

/-- The parent is neither blocked nor about to be. -/
theorem pending_of_free (hblocked : s.blocked = false) (hlinked : s.linked = false)
    (hpc : ∀ pid, s.pc ≠ .linking pid) : Pending s := by
  refine ⟨hlinked.trans hblocked.symm, fun h => ?_, fun pid h => ?_⟩
  · simp [hblocked] at h
  · rcases h with h | ⟨-, h⟩
    · exact absurd h (hpc pid)
    · simp [hblocked] at h

/-- The parent is blocked only while it waits. -/
theorem Pending.blocked_eq_false (h : Pending s) (hpc : ∀ pid, s.pc ≠ .waiting pid) : s.blocked = false := by
  cases hb : s.blocked with
  | false => rfl
  | true =>
    obtain ⟨pid, hwait⟩ := h.waiting hb
    exact absurd hwait (hpc pid)

/-- A child that has woken the parent is no matching child behind the parent's scan. -/
theorem Pending.not_zombie (h : Pending s) {pid : Int} {c : κ} {phase : ExitPhase}
    (hpc : s.pc = .linking pid ∨ s.pc = .waiting pid ∧ s.blocked = true)
    (hphase : (s.child c).phase = .wokeParent) : c ∈ s.children → s.Matches pid c → phase = .zombie := by
  intro hc hmatch
  have hzombie := h.zombie pid hpc c hc hmatch (by rw [State.Zombie, hphase]; decide)
  simp [hphase] at hzombie

/-- A queue that was woken leaves nobody blocked. -/
theorem pending_wakeAll (hlinked : s.linked = s.blocked)
    (hwaiting : s.blocked = true → ∃ pid, s.pc = .waiting pid)
    (hzombie : ∀ pid, s.pc = .linking pid → ∀ c ∈ s.children, s.Matches pid c → s.Zombie c →
      (s.child c).phase = .zombie) : Pending s.wakeAll := by
  unfold State.wakeAll
  cases hl : s.linked with
  | true =>
    obtain ⟨pid, hpc⟩ := hwaiting (hlinked.symm.trans hl)
    refine ⟨rfl, nofun, fun pid' h => ?_⟩
    rcases h with h | ⟨-, h⟩
    · simp [show s.pc = .linking pid' from h] at hpc
    · cases h
  | false =>
  have hblocked : s.blocked = false := hlinked.symm.trans hl
  refine ⟨hlinked, hwaiting, fun pid h => ?_⟩
  rcases h with h | ⟨-, h⟩
  · exact hzombie pid h
  · simp [show s.blocked = true from h] at hblocked

variable [DecidableEq κ] {op : Op κ} {fuel : Nat} {c : κ} {phase : ExitPhase}

theorem setPhase_child_self (s : State κ) (c : κ) (phase : ExitPhase) :
    (s.setPhase c phase).child c = { s.child c with phase := phase } := update_self ..

theorem setPhase_child_of_ne {x : κ} (hx : x ≠ c) (s : State κ) (phase : ExitPhase) :
    (s.setPhase c phase).child x = s.child x := update_of_ne hx ..

theorem setPhase_matches {x : κ} {pid : Int} :
    (s.setPhase c phase).Matches pid x ↔ s.Matches pid x := by
  unfold State.Matches
  by_cases hx : x = c
  · rw [hx, setPhase_child_self]
  · rw [setPhase_child_of_ne hx]

/-- The matching zombies when the child `c` goes on in `proc_exit`. -/
theorem setPhase_zombies {pid : Int}
    (h : ∀ x ∈ s.children, s.Matches pid x → s.Zombie x → (s.child x).phase = .zombie)
    (hc : c ∈ s.children → s.Matches pid c → phase = .zombie) :
    ∀ x ∈ (s.setPhase c phase).children, (s.setPhase c phase).Matches pid x →
      (s.setPhase c phase).Zombie x → ((s.setPhase c phase).child x).phase = .zombie := by
  intro x hx hmatch hzombie
  rw [setPhase_matches] at hmatch
  by_cases hxc : x = c
  · subst hxc
    rw [setPhase_child_self]
    exact hc hx hmatch
  · unfold State.Zombie at hzombie
    rw [setPhase_child_of_ne hxc] at hzombie ⊢
    exact h x hx hmatch hzombie

theorem Pending.step (h : Pending s) (hok : noWakeInWindow op s)
    (hstep : step isInit fuel op s = some s') : Pending s' := by
  cases op with
  | callWait pid =>
    obtain ⟨hpc, hs'⟩ := ite_none_right_eq_some.mp hstep
    cases hs'
    have hblocked := h.blocked_eq_false fun pid => by rw [hpc]; nofun
    exact pending_of_free hblocked (h.linked.trans hblocked) nofun
  | scan =>
    change s.scan = some s' at hstep
    unfold State.scan at hstep
    split at hstep
    · case _ pid hpc =>
      have hblocked := h.blocked_eq_false fun pid => by rw [hpc]; nofun
      have hlinked := h.linked.trans hblocked
      split at hstep
      · cases hstep
        exact pending_of_free hblocked hlinked nofun
      · case _ hfind =>
        split at hstep <;> cases hstep
        · -- the scan has found no zombie
          refine ⟨h.linked, fun hb => ?_, fun pid' hpc' c hc hmatch hzombie => ?_⟩
          · simp [show s.blocked = true from hb] at hblocked
          · rcases hpc' with hpc' | ⟨hpc', -⟩ <;> cases hpc'
            have hnone := List.find?_eq_none.mp hfind c hc
            exact absurd (decide_eq_true ⟨hmatch, hzombie⟩) hnone
        · exact pending_of_free hblocked hlinked nofun
    · cases hstep
  | linkAndBlock =>
    change s.linkAndBlock = some s' at hstep
    unfold State.linkAndBlock at hstep
    split at hstep
    · case _ pid hpc =>
      cases hstep
      refine ⟨rfl, fun _ => ⟨pid, rfl⟩, fun pid' hpc' => ?_⟩
      rcases hpc' with hpc' | ⟨hpc', -⟩ <;> cases hpc'
      exact h.zombie pid (.inl hpc)
    · cases hstep
  | resume =>
    change s.resume = some s' at hstep
    unfold State.resume at hstep
    split at hstep
    · split at hstep <;> cases hstep
      case _ hblocked =>
      have hblocked : s.blocked = false := eq_false_of_ne_true hblocked
      refine pending_of_free hblocked ?_ nofun
      rw [h.linked, hblocked]
      rfl
    · cases hstep
  | exit c =>
    obtain ⟨-, hs'⟩ := ite_none_right_eq_some.mp hstep
    cases hs'
    exact ⟨h.linked, h.waiting, fun pid hpc => setPhase_zombies (h.zombie pid hpc) fun _ _ => rfl⟩
  | wakeParent c =>
    obtain ⟨-, hs'⟩ := ite_none_right_eq_some.mp hstep
    cases hs'
    refine pending_wakeAll h.linked h.waiting fun pid hpc => ?_
    have hnot : c ∈ s.children → ¬ s.Matches pid c := by
      unfold noWakeInWindow at hok
      rwa [show s.pc = .linking pid from hpc] at hok
    exact setPhase_zombies (h.zombie pid (.inl hpc)) fun hc hmatch => absurd hmatch (hnot hc)
  | wakeInit c =>
  obtain ⟨hphase, hs'⟩ := ite_none_right_eq_some.mp hstep
  cases hs'
  cases isInit with
  | true =>
    refine pending_wakeAll h.linked h.waiting fun pid hpc => ?_
    exact setPhase_zombies (h.zombie pid (.inl hpc)) (h.not_zombie (.inl hpc) hphase)
  | false =>
    exact ⟨h.linked, h.waiting, fun pid hpc =>
      setPhase_zombies (h.zombie pid hpc) (h.not_zombie hpc hphase)⟩

/-- In every run in which no matching child wakes the queue between a scan of the parent and its
link-and-block, no wakeup is lost. -/
theorem wait_exit_no_lost_wakeup {children : List κ} {child : κ → Child}
    (hrun : Run (step isInit) noWakeInWindow (init children child) s) : ¬ LostWakeup s := by
  have hpending : Pending s := by
    induction hrun with
    | init => exact pending_of_free rfl rfl nofun
    | next _ hok hstep ih => exact ih.step hok hstep
  exact hpending.not_lostWakeup

instance (op : Op κ) (s : State κ) : Decidable (noWakeInWindow op s) := by
  unfold noWakeInWindow
  split <;> infer_instance

/-- The parent waits, and the child that exits wakes it. -/
theorem wait_exit_no_lost_wakeup_one :
    ∃ s, Run (step false) noWakeInWindow (init [()] fun _ => ⟨1, .running⟩) s ∧
      s.pc = .waiting (-1) ∧ s.woken = true ∧ ¬ LostWakeup s := by
  refine Run.exists_of_exec 0 [.callWait (-1), .scan, .linkAndBlock, .exit (), .wakeParent ()]
    (fun s => s.pc = .waiting (-1) ∧ s.woken = true) (by decide) fun s hrun hs => ?_
  exact ⟨hs.1, hs.2, wait_exit_no_lost_wakeup hrun⟩

/-- The child sets its state and wakes the queue between the parent's scan and its link-and-block. -/
theorem lost_wakeup :
    ∃ s, Run (step false) (fun _ _ => True) (init [()] fun _ => ⟨1, .running⟩) s ∧ LostWakeup s := by
  refine Run.exists_of_exec 0 [.callWait (-1), .scan, .exit (), .wakeParent (), .linkAndBlock] (fun s =>
      s.blocked = true ∧ s.pc = .waiting (-1) ∧ s.children = [()] ∧ (s.child ()).phase = .wokeParent)
    (by decide) fun s _ hs => ?_
  obtain ⟨hblocked, hpc, hchildren, hphase⟩ := hs
  refine ⟨hblocked, ⟨-1, hpc, (), ?_, .inl rfl, ?_⟩, fun c => ?_⟩
  · rw [hchildren]
    exact List.mem_singleton_self ()
  · rw [State.Zombie, hphase]
    decide
  · rw [hphase]
    decide

end Lapis.Sched.WaitExit
