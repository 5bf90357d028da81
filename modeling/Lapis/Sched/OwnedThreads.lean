/-
Lapis.Sched.OwnedThreads — several CPUs: which CPU a thread belongs to.

Between two steps a CPU runs its current thread, or has marked it blocked and not called
`schedule` yet, or has chosen the next thread and not reached `do_switch` (`Phase`). A CPU
executes on the stack of its current thread until `do_switch`.

`Owned` is the invariant: a thread that is current, chosen or queued on CPU `c` has
`last_cpu = c`, so it is so on no other CPU. `sched_enqueue` and `sched_wake` keep it because
they queue a thread where it ran last, even while it is still switching away there; taking a
thread from another CPU's queue keeps it exactly when the thread is neither pinned there nor
still running there.
-/
import Lapis.Sched.AbsSched
import Mathlib.Algebra.Group.Int.Defs
import Mathlib.Algebra.Group.Nat.Defs
import Mathlib.Data.Fintype.Card

namespace Lapis.Sched

open Function List

/-- Where a CPU is between two steps. -/
inductive Phase (T : Type) where
  | running
  | blocking
  | switching (next : T)
  deriving DecidableEq

/-- A thread that some queue or CPU holds. -/
def ThreadState.Settled (x : ThreadState) : Prop := x = .ready ∨ x = .running

namespace AbsSched

variable {n : Nat} {T : Type}

structure Owned (a : AbsSched n T) (ph : Fin n → Phase T) : Prop where
  nodup : ∀ c, (a.ready c).Nodup
  ready : ∀ c t, t ∈ a.ready c → a.state t = .ready ∧ a.lastCpu t = c.val
  current : ∀ c, a.lastCpu (a.current c) = c.val
  pending : ∀ c t, ph c = .switching t →
    a.lastCpu t = c.val ∧ t ≠ a.current c ∧ t ∉ a.ready c ∧ (a.state t).Settled
  resting : ∀ c, ph c = .running → a.current c ∉ a.ready c ∧ (a.state (a.current c)).Settled
  idle : ∀ c, a.pinnedCpu (a.idle c) = c.val ∧ a.lastCpu (a.idle c) = c.val ∧
    (a.state (a.idle c)).Settled
  pinned : ∀ t, 0 ≤ a.pinnedCpu t → ∃ c, t = a.idle c
  fresh : ∀ t, a.state t = .new → a.lastCpu t < 0
  waiting : ∀ t, a.state t = .blocked ∨ a.state t = .sleeping →
    ∃ c : Fin n, a.lastCpu t = c.val

variable {P S : List T}

namespace Owned

variable {a a' a₁ : AbsSched n T} {ph : Fin n → Phase T} {c d : Fin n} {t next : T}

theorem owner_unique (hc : a.lastCpu t = c.val) (hd : a.lastCpu t = d.val) : c = d := by
  apply Fin.ext
  rw [hc] at hd
  exact_mod_cast hd

theorem mem_insert {R : Fin n → List T} (hR : R d = P ++ S) {u : T} :
    u ∈ update R d (P ++ t :: S) c ↔ u ∈ R c ∨ (c = d ∧ u = t) := by
  by_cases hc : c = d
  · subst hc
    simp [hR]
    tauto
  · simp [hc]

theorem nodup_insert {R : Fin n → List T} (hR : R d = P ++ S)
    (hnd : ∀ c, (R c).Nodup) (ht : t ∉ R d) (c : Fin n) : (update R d (P ++ t :: S) c).Nodup := by
  by_cases hc : c = d
  · subst hc
    rw [update_self, nodup_middle, nodup_cons, ← hR]
    exact ⟨ht, hnd c⟩
  · rw [update_of_ne hc]
    exact hnd c

/-- A ready thread of CPU `d`, which neither runs it nor has chosen it, joins its queue. -/
theorem join (h : Owned a ph) (hready : a.ready d = P ++ S) (hs : a.state t = .ready)
    (hlast : a.lastCpu t = d.val) (hout : t ∉ a.ready d)
    (hrest : ph d = .running → a.current d ≠ t) (hpend : ph d ≠ .switching t)
    {r : Fin n → UInt32} :
    Owned { a with ready := update a.ready d (P ++ t :: S), nrRunning := r } ph := by
  refine { h with nodup := nodup_insert hready h.nodup hout, ready := ?_, pending := ?_, resting := ?_ }
  · intro c u hu
    rcases (mem_insert hready).mp hu with hu | ⟨rfl, rfl⟩
    · exact h.ready c u hu
    · exact ⟨hs, hlast⟩
  · intro c u hu
    obtain ⟨hlast, hcur, hq, hs⟩ := h.pending c u hu
    refine ⟨hlast, hcur, fun hin => ?_, hs⟩
    rcases (mem_insert hready).mp hin with hin | ⟨rfl, rfl⟩
    · exact hq hin
    · exact hpend hu
  · intro c hc
    refine ⟨fun hin => ?_, (h.resting c hc).2⟩
    rcases (mem_insert hready).mp hin with hin | ⟨rfl, he⟩
    · exact (h.resting c hc).1 hin
    · exact hrest hc he

/-- CPU `c` goes on to a phase that fits its threads. -/
theorem setPhase (h : Owned a ph) {x : Phase T} (hpend : ∀ t, x = .switching t →
      a.lastCpu t = c.val ∧ t ≠ a.current c ∧ t ∉ a.ready c ∧ (a.state t).Settled)
    (hrest : x = .running → a.current c ∉ a.ready c ∧ (a.state (a.current c)).Settled) :
    Owned a (update ph c x) := by
  refine { h with pending := ?_, resting := ?_ }
  · intro d
    by_cases hd : d = c
    · subst hd
      simpa using hpend
    · simpa [hd] using h.pending d
  · intro d
    by_cases hd : d = c
    · subst hd
      simpa using hrest
    · simpa [hd] using h.resting d

/-- Nothing is asked of the thread of a CPU in the middle of `schedule`. -/
theorem blocking (h : Owned a ph) (c : Fin n) : Owned a (update ph c .blocking) :=
  h.setPhase nofun nofun

/-- CPU `c` has chosen a thread that belongs to it and is in none of its queues. -/
theorem chosen (h : Owned a ph) (hlast : a.lastCpu next = c.val)
    (hout : next ∉ a.ready c) (hs : (a.state next).Settled) :
    (next = a.current c → Owned a (update ph c .running)) ∧
      (next ≠ a.current c → Owned a (update ph c (.switching next))) := by
  constructor
  · rintro rfl
    exact h.setPhase nofun fun _ => ⟨hout, hs⟩
  · intro hne
    refine h.setPhase (fun u hu => ?_) nofun
    obtain rfl := Phase.switching.inj hu
    exact ⟨hlast, hne, hout, hs⟩

/-- A thread leaves a queue. -/
theorem take (h : Owned a ph) {v : Fin n} (hready : a.ready v = P ++ t :: S) {r : Fin n → UInt32} :
    Owned { a with ready := update a.ready v (P ++ S), nrRunning := r } ph ∧ t ∉ P ++ S := by
  have hnd := h.nodup v
  rw [hready, nodup_middle, nodup_cons] at hnd
  have hsub : ∀ d u, u ∈ update a.ready v (P ++ S) d → u ∈ a.ready d := by
    intro d u hu
    by_cases hd : d = v
    · subst hd
      rw [hready]
      simp at hu ⊢
      tauto
    · simpa [hd] using hu
  refine ⟨{ h with nodup := ?_, ready := ?_, pending := ?_, resting := ?_ }, hnd.1⟩
  · intro d
    by_cases hd : d = v
    · simpa [hd] using hnd.2
    · simpa [hd] using h.nodup d
  · exact fun d u hu => h.ready d u (hsub d u hu)
  · intro d u hu
    obtain ⟨hlast, hcur, hq, hs⟩ := h.pending d u hu
    exact ⟨hlast, hcur, fun hu => hq (hsub d u hu), hs⟩
  · intro d hd
    obtain ⟨hq, hs⟩ := h.resting d hd
    exact ⟨fun hu => hq (hsub d _ hu), hs⟩

variable [DecidableEq T]

theorem settled_update {f : T → ThreadState} {x : ThreadState} {u : T} (hu : (f u).Settled)
    (hx : u = t → x.Settled) : (update f t x u).Settled := by
  by_cases hut : u = t
  · simpa [hut] using hx hut
  · simpa [hut] using hu

section

variable (h : Owned a ph)

include h

/-- A thread takes a state that fits the place where it is. -/
theorem setState {x : ThreadState} (hready : ∀ d, t ∈ a.ready d → x = .ready)
    (hpend : ∀ d, ph d = .switching t → x.Settled)
    (hrest : ∀ d, ph d = .running → a.current d = t → x.Settled)
    (hidle : ∀ d, a.idle d = t → x.Settled) (hnew : x ≠ .new)
    (hwait : x = .blocked ∨ x = .sleeping → ∃ d : Fin n, a.lastCpu t = d.val) :
    Owned { a with state := update a.state t x } ph := by
  refine { h with ready := ?_, pending := ?_, resting := ?_, idle := ?_, fresh := ?_, waiting := ?_ }
  · intro d u hu
    by_cases hut : u = t
    · simpa [hut, hready d (hut ▸ hu)] using hut ▸ (h.ready d u hu).2
    · simpa [hut] using h.ready d u hu
  · intro d u hu
    obtain ⟨hlast, hcur, hq, hs⟩ := h.pending d u hu
    exact ⟨hlast, hcur, hq, settled_update hs fun he => hpend d (he ▸ hu)⟩
  · intro d hd
    exact ⟨(h.resting d hd).1, settled_update (h.resting d hd).2 (hrest d hd)⟩
  · intro d
    obtain ⟨hpin, hlast, hs⟩ := h.idle d
    exact ⟨hpin, hlast, settled_update hs (hidle d)⟩
  · intro u hu
    by_cases hut : u = t
    · simp [hut, hnew] at hu
    · exact h.fresh u (by simpa [hut] using hu)
  · intro u hu
    by_cases hut : u = t
    · exact hut ▸ hwait (by simpa [hut] using hu)
    · exact h.waiting u (by simpa [hut] using hu)

/-- A thread moves to CPU `c`, which is the only one that may hold it. -/
theorem migrate (hqueue : ∀ d, t ∈ a.ready d → c = d)
    (hcur : ∀ d, a.current d = t → c = d) (hpend : ∀ d, ph d = .switching t → c = d)
    (hidle : ∀ d, a.idle d = t → c = d) (hs : a.state t = .ready) :
    Owned { a with lastCpu := update a.lastCpu t c.val } ph := by
  have hlast : ∀ {d u}, a.lastCpu u = d.val → (u = t → c = d) →
      update a.lastCpu t (c.val : Int) u = d.val := by
    intro d u hu hd
    by_cases hut : u = t
    · simp [hut, hd hut]
    · simpa [hut] using hu
  refine { h with ready := ?_, current := ?_, pending := ?_, idle := ?_, fresh := ?_, waiting := ?_ }
  · intro d u hu
    exact ⟨(h.ready d u hu).1, hlast (h.ready d u hu).2 fun he => hqueue d (he ▸ hu)⟩
  · exact fun d => hlast (h.current d) (hcur d)
  · intro d u hu
    exact ⟨hlast (h.pending d u hu).1 fun he => hpend d (he ▸ hu), (h.pending d u hu).2⟩
  · exact fun d => ⟨(h.idle d).1, hlast (h.idle d).2.1 (hidle d), (h.idle d).2.2⟩
  · intro u (hu : a.state u = .new)
    have hut : u ≠ t := by
      rintro rfl
      simp [hs] at hu
    simpa [hut] using h.fresh u hu
  · intro u (hu : a.state u = .blocked ∨ a.state u = .sleeping)
    obtain ⟨d, hd⟩ := h.waiting u hu
    exact ⟨d, hlast hd (by rintro rfl; simp [hs] at hu)⟩

theorem setReady (t : T) : Owned { a with state := update a.state t .ready } ph :=
  h.setState (fun _ _ => rfl) (fun _ _ => .inl rfl) (fun _ _ _ => .inl rfl) (fun _ _ => .inl rfl)
    nofun (by simp)

theorem enqueue (ht : ¬ (a.state t).Settled)
    (hd : ∀ c : Fin n, a.lastCpu t = c.val → d = c) (he : Enqueue d t a a') : Owned a' ph := by
  cases he with
  | @mk P S hready =>
  have hmoved := (h.setReady t).migrate (c := d) (t := t) (fun c hc => hd c (h.ready c t hc).2)
    (fun c hc => hd c (hc ▸ h.current c)) (fun c hc => hd c (h.pending c t hc).1)
    (fun c hc => hd c (hc ▸ (h.idle c).2.1)) (update_self ..)
  refine hmoved.join hready (update_self ..) (update_self ..) ?_ ?_ ?_
  · exact fun hc => ht (.inl (h.ready d t hc).1)
  · exact fun hc he => ht (he ▸ (h.resting d hc).2)
  · exact fun hc => ht (h.pending d t hc).2.2.2

/-- The running thread goes back to its queue. -/
theorem requeue (hph : ph c = .blocking) (hr : Requeue c P a a') : Owned a' ph := by
  cases hr with
  | stay => exact h
  | @back S hrun hready =>
  refine (h.setReady (a.current c)).join hready (update_self ..) (h.current c) ?_ ?_ ?_
  · intro hq
    have := (h.ready c _ hq).1
    simp [hrun] at this
  · simp [hph]
  · simp [hph]

theorem choose {steal : Fin n → T → Prop}
    (hsafe : a.ready c = [] → ∀ v t, v ≠ c → 1 < a.nrRunning v → steal v t →
      a.pinnedCpu t < 0 ∧ t ≠ a.current v) (hc : Choose steal c a next a') :
    (next = a.current c → Owned a' (update ph c .running)) ∧
      (next ≠ a.current c → Owned a' (update ph c (.switching next))) := by
  cases hc with
  | @own _ ts hready =>
    obtain ⟨hs, hlast⟩ := h.ready c next (by simp [hready])
    obtain ⟨htake, hout⟩ := h.take (P := []) hready
    exact htake.chosen hlast (by simpa using hout) (.inl hs)
  | @stolen v _ P S hempty hv hmany hst hready =>
    obtain ⟨hs, hlast⟩ := h.ready v next (by simp [hready])
    obtain ⟨hpin, hcurv⟩ := hsafe hempty v next hv hmany hst
    obtain ⟨htake, hout⟩ := h.take (r := update (update a.nrRunning v (a.nrRunning v - 1)) c
      (a.nrRunning c - 1)) hready
    -- the thread belonged to `v` alone, and `v` neither runs it nor has chosen it
    have hqueue : ∀ d, next ∉ update a.ready v (P ++ S) d := by
      intro d hq
      by_cases hd : d = v
      · subst hd
        exact hout (by simpa using hq)
      · rw [update_of_ne hd] at hq
        exact hd (owner_unique (h.ready d next hq).2 hlast)
    have hcur : ∀ d, next ≠ a.current d := by
      intro d hd
      obtain rfl := owner_unique hlast (hd ▸ h.current d)
      exact hcurv hd
    have hpend : ∀ d, ph d ≠ .switching next := by
      intro d hd
      obtain ⟨hlast', -, hq, -⟩ := h.pending d next hd
      obtain rfl := owner_unique hlast hlast'
      exact hq (by simp [hready])
    have hidle : ∀ d, next ≠ a.idle d := by
      rintro d rfl
      have := (h.idle d).1
      omega
    have hmove := htake.migrate (c := c) (fun d hd => absurd hd (hqueue d))
      (fun d hd => absurd hd.symm (hcur d)) (fun d hd => absurd hd (hpend d))
      (fun d hd => absurd hd.symm (hidle d)) hs
    exact hmove.chosen (by simp) (hqueue c) (.inl hs)
  | idle hempty =>
    obtain ⟨-, hlast, hs⟩ := h.idle c
    exact h.chosen hlast (by simp [hempty]) hs

/-- `do_switch`: the chosen thread becomes the current one. -/
theorem switch (hph : ph c = .switching t) : Owned (a.switch c t) (update ph c .running) := by
  obtain ⟨hlast, hne, hq, hs⟩ := h.pending c t hph
  have hqueue : ∀ d, t ∉ a.ready d := by
    intro d hd
    obtain rfl := owner_unique hlast (h.ready d t hd).2
    exact hq hd
  have hrun := h.setState (x := .running) (fun d hd => absurd hd (hqueue d))
    (fun _ _ => .inr rfl) (fun _ _ _ => .inr rfl) (fun _ _ => .inr rfl) nofun (by simp)
  refine { hrun with current := ?_, pending := ?_, resting := ?_ }
  · intro d
    by_cases hd : d = c
    · simp [AbsSched.switch, hd, hlast]
    · simpa [AbsSched.switch, hd] using h.current d
  · intro d u hu
    have hd : d ≠ c := by rintro rfl; simp at hu
    simpa [AbsSched.switch, hd] using hrun.pending d u (by simpa [hd] using hu)
  · intro d hd
    by_cases hdc : d = c
    · subst hdc
      simpa [AbsSched.switch, ThreadState.Settled] using hq
    · simpa [AbsSched.switch, hdc] using hrun.resting d (by simpa [hdc] using hd)

/-- `sched_mark_blocked` by a thread that is not an idle thread. -/
theorem block (hph : ph c = .running) (hidle : a.current c ≠ a.idle c) :
    Owned (a.block (a.current c)) (update ph c .blocking) := by
  have howner : ∀ d, a.lastCpu (a.current c) = d.val → d = c :=
    fun d hd => owner_unique hd (h.current c)
  refine (h.blocking c).setState ?_ ?_ ?_ ?_ nofun fun _ => ⟨c, h.current c⟩
  · intro d hd
    obtain rfl := howner d (h.ready d _ hd).2
    exact absurd hd (h.resting d hph).1
  · intro d hd
    obtain rfl := howner d ((h.blocking c).pending d _ hd).1
    simp at hd
  · intro d hd he
    obtain rfl := howner d (he ▸ h.current d)
    simp at hd
  · intro d he
    obtain rfl := howner d (he ▸ (h.idle d).2.1)
    exact absurd he.symm hidle

end

end Owned

variable {c : Fin n} {a a' : AbsSched n T}

/-- `nr_running` is the number of ready threads. -/
def Accounted (a : AbsSched n T) : Prop := ∀ c, (a.nrRunning c).toNat = (a.ready c).length

/-- The counter follows a list that grows by one, as long as the list is shorter than 2^32. -/
theorem Accounted.insert (h : Accounted a) {t : T}
    (hready : a.ready c = P ++ S) (hlen : (P ++ t :: S).length < 2 ^ 32) (d : Fin n) :
    (update a.nrRunning c (a.nrRunning c + 1) d).toNat = (update a.ready c (P ++ t :: S) d).length := by
  by_cases hd : d = c
  · subst hd
    have hd := h d
    rw [hready] at hd
    simp only [length_append, length_cons] at hd hlen
    simp only [update_self, UInt32.toNat_add, length_append, length_cons, hd]
    rw [Nat.mod_eq_of_lt] <;> simp <;> omega
  · simpa [hd] using h d

/-- The counter follows a list that loses its first element. -/
theorem Accounted.tail (h : Accounted a) {t : T} {ts : List T} (hready : a.ready c = t :: ts) (d : Fin n) :
    (update a.nrRunning c (a.nrRunning c - 1) d).toNat = (update a.ready c ts d).length := by
  by_cases hd : d = c
  · subst hd
    have hd := h d
    rw [hready, length_cons] at hd
    rw [update_self, update_self, UInt32.toNat_sub_of_le]
    · rw [hd]
      rfl
    · rw [UInt32.le_iff_toNat_le, hd]
      exact Nat.le_add_left 1 ts.length
  · simpa [hd] using h d

variable [DecidableEq T]

/-! ## Steps of the system -/

/-- One step of some CPU. `Q a v t` restricts what may be stolen: thread `t` of CPU `v`. -/
inductive Step (Q : AbsSched n T → Fin n → T → Prop) (a : AbsSched n T) (ph : Fin n → Phase T) :
    AbsSched n T → (Fin n → Phase T) → Prop
  | same : Step Q a ph a ph
  | enqueue {d : Fin n} {t : T} {a' : AbsSched n T} : ¬ (a.state t).Settled →
      (∀ c : Fin n, a.lastCpu t = c.val → d = c) → Enqueue d t a a' → Step Q a ph a' ph
  | block {c : Fin n} : ph c = .running → a.current c ≠ a.idle c →
      Step Q a ph (a.block (a.current c)) (update ph c .blocking)
  | pick {c : Fin n} {P : List T} {steal : Fin n → T → Prop} {next : T} {a₁ a' : AbsSched n T} :
      Requeue c P a a₁ → Choose steal c a₁ next a' →
      (a₁.ready c = [] → ∀ v t, v ≠ c → 1 < a₁.nrRunning v → steal v t → Q a₁ v t) →
      Step Q a ph a' (update ph c (if next = a.current c then .running else .switching next))
  | switch {c : Fin n} {t : T} : ph c = .switching t →
      Step Q a ph (a.switch c t) (update ph c .running)

theorem Requeue.current_eq (h : Requeue c P a a') : a'.current = a.current := by
  cases h <;> rfl

/-- Every step keeps every thread with one CPU, if only threads that are neither pinned nor
still running are stolen. -/
theorem Owned.step {Q : AbsSched n T → Fin n → T → Prop}
    (hQ : ∀ a v t, Q a v t → a.pinnedCpu t < 0 ∧ t ≠ a.current v) {ph ph' : Fin n → Phase T} (h : Owned a ph)
    (hstep : Step Q a ph a' ph') : Owned a' ph' := by
  cases hstep with
  | same => exact h
  | enqueue ht hd he => exact h.enqueue ht hd he
  | block hph hidle => exact h.block hph hidle
  | @pick c P steal next a₁ _ hr hc hsteal =>
    have hown := (h.blocking c).requeue (by simp) hr
    obtain ⟨hstay, hswitch⟩ := hown.choose
      (fun hempty v t hv hmany hst => hQ _ _ _ (hsteal hempty v t hv hmany hst)) hc
    rw [hr.current_eq] at hstay hswitch
    simp only [update_idem] at hstay hswitch
    by_cases hne : next = a.current c
    · rw [if_pos hne]
      exact hstay hne
    · rw [if_neg hne]
      exact hswitch hne
  | switch hph => exact h.switch hph

/-- Every step keeps the counters, if nothing is stolen. -/
theorem Accounted.step [Fintype T] (hT : Fintype.card T < 2 ^ 32)
    {Q : AbsSched n T → Fin n → T → Prop} (hQ : ∀ a v t, ¬ Q a v t)
    {ph ph' : Fin n → Phase T} (h : Accounted a) (hown : Owned a ph)
    (hstep : Step Q a ph a' ph') : Accounted a' := by
  have hshort : ∀ xs : List T, xs.Nodup → xs.length < 2 ^ 32 :=
    fun xs hnd => Nat.lt_of_le_of_lt hnd.length_le_card hT
  cases hstep with
  | same => exact h
  | @enqueue d t _ ht hd he =>
    have hnd := (hown.enqueue ht hd he).nodup d
    cases he with
    | mk hready =>
      simp only [update_self] at hnd
      exact h.insert hready (hshort _ hnd)
  | block => exact h
  | @pick c P steal next a₁ _ hr hc hsteal =>
    have hnd := ((hown.blocking c).requeue (by simp) hr).nodup c
    have h1 : Accounted a₁ := by
      cases hr with
      | stay => exact h
      | back hrun hready =>
        simp only [update_self] at hnd
        exact h.insert hready (hshort _ hnd)
    cases hc with
    | own hready => exact h1.tail hready
    | stolen hempty hv hmany hst => exact absurd (hsteal hempty _ _ hv hmany hst) (hQ _ _ _)
    | idle => exact h1
  | switch => exact h

end AbsSched

end Lapis.Sched
