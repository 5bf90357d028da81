/-
Lapis.Util.SpinlockTheorems — who holds a spinlock, and which flags it gives back.

`HeldBy` is the invariant of all runs: the lock is set exactly when a CPU is between its compare-and-swap
and its store, which is one CPU only, and the owner is the CPU that has set it. The flags are another
matter: they are saved in the lock before it is won, so a CPU that waits overwrites those of the CPU that
holds it. `SameFlag` is kept as long as all CPUs at the lock came with the same interrupt flag.
-/
import Lapis.Lib.Run
import Lapis.Util.Spinlock

namespace Lapis.Util.Spinlock

open Function Option Lib

variable {κ : Type} {s s' : State κ} {c : κ} {holder : Option κ}

/-! ## Mutual exclusion -/

/-- A CPU is between its successful compare-and-swap and its store of 0. -/
def Pc.Inside (pc : Pc) : Prop := pc = .won ∨ pc = .holding ∨ pc = .cleared

instance (pc : Pc) : Decidable pc.Inside := inferInstanceAs (Decidable (_ ∨ _ ∨ _))

/-- The CPU inside, if there is one. -/
structure HeldBy (s : State κ) (holder : Option κ) : Prop where
  locked : s.locked = holder.isSome
  inside : ∀ c, (s.cpus c).pc.Inside ↔ holder = some c
  owner : ∀ c, s.owner = some c ↔ (s.cpus c).pc = .holding

/-- At most one CPU is inside. -/
theorem HeldBy.one (h : HeldBy s holder) {c c' : κ} (hc : (s.cpus c).pc.Inside)
    (hc' : (s.cpus c').pc.Inside) : c = c' :=
  some.inj (((h.inside c).mp hc).symm.trans ((h.inside c').mp hc'))

theorem heldBy_init (rflags : κ → BitVec 64) : HeldBy (init rflags) none where
  locked := rfl
  inside _ := iff_of_false (show ¬ Pc.idle.Inside by decide) nofun
  owner _ := iff_of_false nofun nofun

variable [DecidableEq κ] {op : Op κ} {fuel : Nat}

variable {k : Cpu}

/-- One CPU makes a step; the others are where they were. -/
theorem HeldBy.move (h : HeldBy s holder) {holder' : Option κ}
    (hcpus : s'.cpus = update s.cpus c k) (hlocked : s'.locked = holder'.isSome)
    (hself : k.pc.Inside ↔ holder' = some c) (hother : ∀ x, x ≠ c → (holder' = some x ↔ holder = some x))
    (howner : s'.owner = some c ↔ k.pc = .holding)
    (howner' : ∀ x, x ≠ c → (s'.owner = some x ↔ s.owner = some x)) : HeldBy s' holder' := by
  refine ⟨hlocked, fun x => ?_, fun x => ?_⟩ <;> rw [hcpus] <;> by_cases hx : x = c
  · rw [hx, update_self, hself]
  · rw [update_of_ne hx, h.inside, hother x hx]
  · rw [hx, update_self, howner]
  · rw [update_of_ne hx, ← h.owner, howner' x hx]

/-- A CPU that is not inside stays outside. -/
theorem HeldBy.outside (h : HeldBy s holder) {pc pc' : Pc} (hpc : (s.cpus c).pc = pc)
    (hcpus : s'.cpus = update s.cpus c k) (hk : k.pc = pc') (hlocked : s'.locked = s.locked)
    (howner : s'.owner = s.owner) (hout : pc = pc' ∨ ¬ pc.Inside ∧ ¬ pc'.Inside) : HeldBy s' holder := by
  have hself : k.pc.Inside ↔ holder = some c := by
    rw [← h.inside, hk, hpc]
    rcases hout with rfl | ⟨hout, hout'⟩
    · rfl
    · exact iff_of_false hout' hout
  have hholding : s'.owner = some c ↔ k.pc = .holding := by
    rw [howner, h.owner, hk, hpc]
    rcases hout with rfl | ⟨hout, hout'⟩
    · rfl
    · exact iff_of_false (fun hc => hout (.inr (.inl hc))) fun hc => hout' (.inr (.inl hc))
  exact h.move hcpus (hlocked.trans h.locked) hself (fun _ _ => .rfl) hholding fun _ _ => by rw [howner]

/-- The CPU inside goes on to `pc`; nobody else is the holder or the owner. -/
theorem HeldBy.advance (h : HeldBy s holder) {pc : Pc} {holder' : Option κ}
    (hin : (s.cpus c).pc.Inside) (hcpus : s'.cpus = update s.cpus c k) (hk : k.pc = pc)
    (hlocked : s'.locked = holder'.isSome) (hself : pc.Inside ↔ holder' = some c)
    (hother : ∀ x, holder' = some x → x = c) (howner : s'.owner = some c ↔ pc = .holding)
    (howner' : ∀ x, s'.owner = some x → x = c) : HeldBy s' holder' := by
  have hc : holder = some c := (h.inside c).mp hin
  refine h.move hcpus hlocked (hk ▸ hself) (fun x hx => ?_) (hk ▸ howner) fun x hx => ?_
  · rw [hc]
    exact iff_of_false (fun hx' => hx (hother x hx')) fun hx' => hx (some.inj hx').symm
  · refine iff_of_false (fun hx' => hx (howner' x hx')) fun hx' => hx ?_
    exact h.one (.inr (.inl ((h.owner x).mp hx'))) hin

theorem HeldBy.step (h : HeldBy s holder) (hstep : step fuel op s = some s') :
    ∃ holder', HeldBy s' holder' := by
  cases op with
  | setRflags c rflags =>
    obtain ⟨-, hs'⟩ := ite_none_right_eq_some.mp hstep
    cases hs'
    exact ⟨holder, h.outside rfl rfl rfl rfl rfl (.inl rfl)⟩
  | save c | cli c | check c | restore c =>
    obtain ⟨hpc, hs'⟩ := ite_none_right_eq_some.mp hstep
    cases hs'
    exact ⟨holder, h.outside hpc rfl rfl rfl rfl (by simp [Pc.Inside])⟩
  | compareExchange c =>
    obtain ⟨hpc, hs'⟩ := ite_none_right_eq_some.mp hstep
    split at hs' <;> cases hs'
    · exact ⟨holder, h⟩
    · case _ hfree =>
      have hnone : holder = none := by
        rw [h.locked] at hfree
        exact not_isSome_iff_eq_none.mp hfree
      have hown : s.owner ≠ some c := by
        rw [ne_eq, h.owner, hpc]
        decide
      refine ⟨some c, h.move (c := c) rfl rfl (iff_of_true (.inl rfl) rfl) (fun x hx => ?_)
        (iff_of_false hown nofun) fun _ _ => .rfl⟩
      rw [hnone]
      exact iff_of_false (fun hx' => hx (some.inj hx').symm) nofun
  | setOwner c =>
    obtain ⟨hpc, hs'⟩ := ite_none_right_eq_some.mp hstep
    cases hs'
    have hin : (s.cpus c).pc.Inside := .inl hpc
    have hlocked : s.locked = true := by rw [h.locked, (h.inside c).mp hin]; rfl
    exact ⟨some c, h.advance hin rfl rfl hlocked (by simp [Pc.Inside]) (by simp [eq_comm]) (by simp)
      (by simp [eq_comm])⟩
  | clearOwner c =>
    obtain ⟨hpc, hs'⟩ := ite_none_right_eq_some.mp hstep
    cases hs'
    have hin : (s.cpus c).pc.Inside := .inr (.inl hpc)
    have hlocked : s.locked = true := by rw [h.locked, (h.inside c).mp hin]; rfl
    exact ⟨some c, h.advance hin rfl rfl hlocked (by simp [Pc.Inside]) (by simp [eq_comm]) (by simp)
      nofun⟩
  | store c =>
  obtain ⟨hpc, hs'⟩ := ite_none_right_eq_some.mp hstep
  cases hs'
  have hin : (s.cpus c).pc.Inside := .inr (.inr hpc)
  have hown : ∀ x, s.owner ≠ some x := by
    intro x hx
    have hholding := (h.owner x).mp hx
    obtain rfl := h.one (.inr (.inl hholding)) hin
    simp [hpc] at hholding
  exact ⟨none, h.advance hin rfl rfl rfl (by simp [Pc.Inside]) nofun (iff_of_false (hown c) nofun)
    fun x hx => absurd hx (hown x)⟩

variable {rflags : κ → BitVec 64}

/-- In every run at most one CPU is inside. -/
theorem heldBy_run {ok : Op κ → State κ → Prop}
    (hrun : Run step ok (init rflags) s) : ∃ holder, HeldBy s holder := by
  induction hrun with
  | init => exact ⟨none, heldBy_init rflags⟩
  | next _ _ hstep ih =>
    obtain ⟨holder, h⟩ := ih
    exact h.step hstep

/-! ## The checks of the owner -/

/-- The check of `spinlock_acquire` finds no recursive deadlock, and that of `spinlock_release` finds the
lock owned by the CPU that releases it. -/
theorem owner_checks {ok : Op κ → State κ → Prop} (hrun : Run step ok (init rflags) s) (c : κ) :
    ((s.cpus c).pc = .masked → s.owner ≠ some c) ∧ ((s.cpus c).pc = .holding → s.owner = some c) := by
  obtain ⟨holder, h⟩ := heldBy_run hrun
  refine ⟨fun hpc hown => ?_, (h.owner c).mpr⟩
  simp [h.owner, hpc] at hown

theorem owner_checks_two : ∃ s, Run step (fun _ _ => True) (init fun _ : Fin 2 => 0) s ∧
    (s.cpus 1).pc = .masked ∧ s.owner = some 0 ∧ s.owner ≠ some 1 := by
  refine Run.exists_of_exec 0 [.save 0, .cli 0, .check 0, .compareExchange 0, .setOwner 0, .save 1, .cli 1]
    (fun s => (s.cpus 0).pc = .holding ∧ (s.cpus 1).pc = .masked) (by decide) fun s hrun hpc => ?_
  exact ⟨hpc.2, (owner_checks hrun 0).2 hpc.1, (owner_checks hrun 1).1 hpc.2⟩

/-! ## The interrupt flag -/

/-- All CPUs at the lock came with the interrupt flag that is saved in it. -/
def SameFlag (s : State κ) : Prop :=
  ∀ c, (s.cpus c).pc ≠ .idle → interruptFlag (s.cpus c).entry = interruptFlag s.rflags

/-- A CPU comes to the lock with the interrupt flag with which the CPUs that are at the lock came. -/
def comesWithSameFlag (op : Op κ) (s : State κ) : Prop :=
  match op with
  | .save c => ∀ c', c' ≠ c → (s.cpus c').pc ≠ .idle →
      interruptFlag (s.cpus c').entry = interruptFlag (s.cpus c).rflags
  | _ => True

/-- A CPU that is at the lock goes on, with what it came with. -/
theorem SameFlag.move (h : SameFlag s) (hcpus : s'.cpus = update s.cpus c k)
    (hrflags : s'.rflags = s.rflags) (hpc : k.pc ≠ .idle → (s.cpus c).pc ≠ .idle)
    (hentry : k.entry = (s.cpus c).entry) : SameFlag s' := by
  intro x hx
  rw [hcpus] at hx ⊢
  rw [hrflags]
  by_cases hxc : x = c
  · rw [hxc, update_self] at hx ⊢
    rw [hentry]
    exact h c (hpc hx)
  · rw [update_of_ne hxc] at hx ⊢
    exact h x hx

theorem SameFlag.step (h : SameFlag s) (hok : comesWithSameFlag op s)
    (hstep : step fuel op s = some s') : SameFlag s' := by
  cases op with
  | setRflags c rflags =>
    obtain ⟨-, hs'⟩ := ite_none_right_eq_some.mp hstep
    cases hs'
    exact h.move rfl rfl id rfl
  | save c =>
    obtain ⟨hpc, hs'⟩ := ite_none_right_eq_some.mp hstep
    cases hs'
    intro x hx
    by_cases hxc : x = c
    · subst hxc
      dsimp only
      rw [update_self]
    · dsimp only at hx ⊢
      rw [update_of_ne hxc] at hx ⊢
      exact hok x hxc hx
  | cli c | check c | setOwner c | clearOwner c | store c =>
    obtain ⟨hpc, hs'⟩ := ite_none_right_eq_some.mp hstep
    cases hs'
    exact h.move rfl rfl (fun _ => by rw [hpc]; decide) rfl
  | compareExchange c =>
    obtain ⟨hpc, hs'⟩ := ite_none_right_eq_some.mp hstep
    split at hs' <;> cases hs'
    · exact h
    · exact h.move rfl rfl (fun _ => by rw [hpc]; decide) rfl
  | restore c =>
    obtain ⟨hpc, hs'⟩ := ite_none_right_eq_some.mp hstep
    cases hs'
    exact h.move rfl rfl (fun hc => absurd rfl hc) rfl

theorem sameFlag_run (hrun : Run step comesWithSameFlag (init rflags) s) : SameFlag s := by
  induction hrun with
  | init => exact fun c hc => absurd rfl hc
  | next _ hok hstep ih => exact ih.step hok hstep

/-- The last step of `spinlock_release` gives the CPU the interrupt flag it had before it acquired the
lock. -/
def GivesBackFlag (s : State κ) : Prop :=
  ∀ c fuel s', step fuel (.restore c) s = some s' →
    interruptFlag (s'.cpus c).rflags = interruptFlag (s.cpus c).entry

/-- In every run in which the CPUs at the lock come with the same interrupt flag, each gets back the flag
it came with, and at most one is inside. -/
theorem spinlock_restores_interrupts {rflags : κ → BitVec 64}
    (hrun : Run step comesWithSameFlag (init rflags) s) :
    GivesBackFlag s ∧ ∀ c c', (s.cpus c).pc.Inside → (s.cpus c').pc.Inside → c = c' := by
  obtain ⟨holder, h⟩ := heldBy_run hrun
  have hsame := sameFlag_run hrun
  refine ⟨fun c fuel s' hstep => ?_, fun c c' => h.one⟩
  obtain ⟨hpc, hs'⟩ := ite_none_right_eq_some.mp hstep
  cases hs'
  dsimp only
  rw [update_self]
  exact (hsame c (by rw [hpc]; decide)).symm

instance [Fintype κ] (op : Op κ) (s : State κ) : Decidable (comesWithSameFlag op s) := by
  unfold comesWithSameFlag
  split <;> infer_instance

/-- Two CPUs with interrupts on: the second waits while the first holds the lock and releases it. -/
theorem spinlock_restores_interrupts_two :
    ∃ s, Run step comesWithSameFlag (init fun _ : Fin 2 => 0x200#64) s ∧
      (s.cpus 0).pc = .stored ∧ (s.cpus 1).pc = .spinning ∧ GivesBackFlag s := by
  refine Run.exists_of_exec 0 [.save 0, .cli 0, .check 0, .compareExchange 0, .setOwner 0, .save 1, .cli 1,
      .check 1, .compareExchange 1, .clearOwner 0, .store 0]
    (fun s => (s.cpus 0).pc = .stored ∧ (s.cpus 1).pc = .spinning) (by decide) fun s hrun hpc => ?_
  exact ⟨hpc.1, hpc.2, (spinlock_restores_interrupts hrun).1⟩

/-- A CPU with interrupts off waits for the lock while another one, which came with interrupts on, holds
it: the other one leaves with interrupts off. -/
theorem spinlock_loses_interrupts :
    ∃ s, Run step (fun _ _ => True) (init fun c : Fin 2 => if c = 0 then 0x200#64 else 0) s ∧
      ¬ GivesBackFlag s := by
  refine Run.exists_of_exec 0 [.save 0, .cli 0, .check 0, .compareExchange 0, .setOwner 0, .save 1,
      .clearOwner 0, .store 0] (fun s => (step 0 (.restore 0) s).map (fun s' =>
        (interruptFlag (s'.cpus 0).rflags, interruptFlag (s.cpus 0).entry)) = some (false, true))
    (by decide) fun s _ hrestore h => ?_
  obtain ⟨s', hstep, hflags⟩ := map_eq_some_iff.mp hrestore
  have heq := h 0 0 s' hstep
  simp [(Prod.mk.inj hflags).1, (Prod.mk.inj hflags).2] at heq

end Lapis.Util.Spinlock
