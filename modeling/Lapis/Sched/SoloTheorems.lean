/-
Lapis.Sched.SoloTheorems — one CPU: is a runnable thread ever lost?

The operations are those of one CPU between interrupts: `schedule` (a yield), `sched_tick` and
the `sched_check_resched` on the way out of the interrupt, `sched_enqueue` of a new thread, a
thread that blocks (`sched_mark_blocked` on itself and then `schedule`), and `sched_wake`.

On the abstract state the argument has two halves. `Parked` says that exactly the ready threads
are in the ready list; putting the current thread back, or blocking it, establishes it, and
switching to the chosen thread turns it into `Solo`, where moreover the current thread is
running. The half that fails in the source is in between: when the thread chosen is the one
that has just been put back, `schedule` returns before `do_switch`, and the thread stays
`THREAD_READY` without being queued. `solo_run_loses_thread` is that run; `Yields` is the
condition that excludes it.
-/
import Lapis.Sched.SchedBoot
import Lapis.Sched.SchedRefinement

namespace Lapis.Sched

open Function List Option Lib

variable {T : Type}

/-! ## The argument on the abstract state -/

namespace AbsSched

/-- Exactly the ready threads are queued, each once. -/
structure Parked (a : AbsSched 1 T) : Prop where
  ready_iff : ∀ t, a.state t = .ready ↔ t ∈ a.ready 0
  nodup : (a.ready 0).Nodup

/-- The CPU's thread is running and exactly the ready threads are queued. -/
structure Solo (a : AbsSched 1 T) : Prop extends Parked a where
  running : a.state (a.current 0) = .running

variable {a a₁ a₂ : AbsSched 1 T} {t next : T} {P : List T} {steal : Fin 1 → T → Prop}

variable [DecidableEq T]

theorem Parked.insert (h : Parked a) {P S : List T} (ht : a.state t ≠ .ready) (hready : a.ready 0 = P ++ S) :
    (P ++ t :: S).Nodup ∧ ∀ u, update a.state t .ready u = .ready ↔ u ∈ P ++ t :: S := by
  have hout : t ∉ P ++ S := by
    rwa [← hready, ← h.ready_iff]
  constructor
  · rw [nodup_middle, nodup_cons, ← hready]
    exact ⟨hready ▸ hout, h.nodup⟩
  intro u
  have hu := h.ready_iff u
  rw [hready] at hu
  by_cases hut : u = t
  · simp [hut]
  · simp_all

/-- Switching to the chosen thread: it leaves the list and runs. -/
theorem Parked.switch (h : Parked a) (hchoose : Choose steal 0 a next a₁) : Solo (a₁.switch 0 next) := by
  cases hchoose with
  | @own _ ts hready =>
    have hnd := hready ▸ h.nodup
    refine ⟨⟨fun u => ?_, ?_⟩, ?_⟩
    · have hu := h.ready_iff u
      rw [hready] at hu
      by_cases hun : u = next
      · simp [AbsSched.switch, hun, (nodup_cons.mp hnd).1]
      · simp_all [AbsSched.switch]
    · simpa [AbsSched.switch] using (nodup_cons.mp hnd).2
    · simp [AbsSched.switch]
  | stolen _ hv => exact absurd (Subsingleton.elim _ _) hv
  | idle hready =>
  refine ⟨⟨fun u => ?_, ?_⟩, ?_⟩
  · have hu := h.ready_iff u
    by_cases hun : u = a.idle 0
    · simp [AbsSched.switch, hun, hready]
    · simp_all [AbsSched.switch]
  · simp [AbsSched.switch, hready]
  · simp [AbsSched.switch]

theorem Solo.enqueue (h : Solo a) (ht : a.state t ≠ .ready) (htrun : a.state t ≠ .running)
    {c : Fin 1} (he : Enqueue c t a a₁) : Solo a₁ := by
  obtain rfl : c = 0 := Subsingleton.elim _ _
  cases he with
  | mk hready =>
    obtain ⟨hnd, hiff⟩ := h.toParked.insert ht hready
    have hcur : a.current 0 ≠ t := fun hc => htrun (hc ▸ h.running)
    exact ⟨⟨by simpa using hiff, by simpa using hnd⟩, by simpa [hcur] using h.running⟩

/-- A yield with another thread ahead: the one put back is not the one chosen. -/
theorem Solo.yield (h : Solo a) (hP : P ≠ []) (hrequeue : Requeue 0 P a a₁)
    (hchoose : Choose steal 0 a₁ next a₂) : next ≠ a.current 0 ∧ Solo (a₂.switch 0 next) := by
  cases hrequeue with
  | stay hrun => exact absurd h.running hrun
  | @back S hrun hready =>
  have hcur : a.state (a.current 0) ≠ .ready := by simp [h.running]
  obtain ⟨hnd, hiff⟩ := h.toParked.insert hcur hready
  have hparked : Parked { a with
      ready := update a.ready 0 (P ++ a.current 0 :: S)
      state := update a.state (a.current 0) .ready
      nrRunning := update a.nrRunning 0 (a.nrRunning 0 + 1) } :=
    ⟨by simpa using hiff, by simpa using hnd⟩
  refine ⟨?_, hparked.switch hchoose⟩
  obtain ⟨p, P, rfl⟩ := exists_cons_of_ne_nil hP
  have hp : a.state p = .ready := by
    rw [h.ready_iff, hready]
    simp
  cases hchoose with
  | own htake =>
    rintro rfl
    simp only [update_self, cons_append, List.cons.injEq] at htake
    exact hcur (htake.1 ▸ hp)
  | stolen hempty => simp at hempty
  | idle hempty => simp at hempty

/-- Blocking: some other thread is chosen, unless the idle thread blocks on an empty queue. -/
theorem Solo.block (h : Solo a) (hidle : a.current 0 = a.idle 0 → a.ready 0 ≠ [])
    (hrequeue : Requeue 0 P (a.block (a.current 0)) a₁) (hchoose : Choose steal 0 a₁ next a₂) :
    next ≠ a.current 0 ∧ Solo (a₂.switch 0 next) := by
  have hcur : a.current 0 ∉ a.ready 0 := by
    rw [← h.ready_iff, h.running]
    simp
  cases hrequeue with
  | back hrun => simp [AbsSched.block] at hrun
  | stay =>
  have hparked : Parked (a.block (a.current 0)) := by
    refine ⟨fun u => ?_, h.nodup⟩
    by_cases hu : u = a.current 0
    · simp [AbsSched.block, hu, hcur]
    · simpa [AbsSched.block, hu] using h.ready_iff u
  refine ⟨?_, hparked.switch hchoose⟩
  cases hchoose with
  | @own _ ts htake =>
    rintro rfl
    have htake : a.ready 0 = a.current 0 :: ts := htake
    simp [htake] at hcur
  | stolen _ hv => exact absurd (Subsingleton.elim _ _) hv
  | idle hempty => exact fun hc => hidle hc.symm hempty

end AbsSched

/-! ## Operations of one CPU -/

inductive SoloOp (T : Type) where
  | schedule (now tsc : UInt64)
  | enqueue (t : T)
  | block (now tsc : UInt64)
  | wake (t : T)
  | tick (freq now : UInt64)
  | checkResched (now tsc : UInt64)

namespace SchedState

/-- Another thread is queued on the level of the current thread or on one before it. -/
def Yields (s : SchedState 1 T) : Prop :=
  ∃ l : Fin 8, l ≤ (s.threads (s.current 0)).priorityLevel ∧ ((s.rqs 0).levels l).head.isSome

/-- The condition on an operation: whoever gives up the CPU leaves another thread to run. -/
def soloOk : SoloOp T → SchedState 1 T → Prop
  | .schedule _ _, s => s.Yields
  | .checkResched _ _, s => (s.cpus 0).needResched = true → s.Yields
  | .block _ _, s => s.current 0 = (s.rqs 0).idle → ∃ l : Fin 8, ((s.rqs 0).levels l).head.isSome
  | _, _ => True

instance (s : SchedState 1 T) : Decidable s.Yields :=
  inferInstanceAs (Decidable (∃ _ : Fin 8, _))

variable {s s' : SchedState 1 T} {L : Fin 1 × Fin 8 → List T} {t : T}

/-- The invariant of a run on one CPU. -/
def SoloInv (s : SchedState 1 T) : Prop := ∃ L, s.Represents L ∧ (s.view L).Solo

/-- A queued thread is in the ready list of the only CPU. -/
theorem mem_ready {i : Fin 1 × Fin 8} (ht : t ∈ L i) : t ∈ flat L 0 := by
  obtain ⟨c, l⟩ := i
  obtain rfl : c = 0 := Subsingleton.elim _ _
  exact mem_flat.mpr ⟨l, ht⟩

theorem not_queued (hsolo : (s.view L).Solo) (ht : (s.threads t).state ≠ .ready)
    (i : Fin 1 × Fin 8) : t ∉ L i :=
  fun hi => ht ((hsolo.ready_iff t).mpr (mem_ready hi))

theorem aheadOfCurrent_ne_nil (h : s.Represents L) (hyields : s.Yields) : s.aheadOfCurrent L 0 ≠ [] := by
  obtain ⟨l, hle, hhead⟩ := hyields
  obtain ⟨t, ht⟩ := isSome_iff_exists.mp hhead
  obtain ⟨ts, hlevel⟩ := (h.holds.head_eq_some_iff (i := (0, l))).mp ht
  apply ne_nil_of_mem (a := t)
  rw [aheadOfCurrent, mem_append]
  rcases lt_or_eq_of_le hle with hlt | rfl
  · exact .inl (mem_before.mpr ⟨l, hlt, by simp [hlevel]⟩)
  · exact .inr (by simp [hlevel])

theorem SoloInv.unseen (hinv : SoloInv s) (h : Unseen s s') : SoloInv s' := by
  obtain ⟨L, hrep, hsolo⟩ := hinv
  exact ⟨L, h.represents hrep, h.view L ▸ hsolo⟩

variable [DecidableEq T]

def soloStep (fuel : Nat) : SoloOp T → SchedState 1 T → Option (SchedState 1 T)
  | .schedule now tsc, s => schedule fuel now tsc 0 s
  | .enqueue t, s => if (s.threads t).state = .new then some (s.schedEnqueue 0 t) else none
  | .block now tsc, s => schedule fuel now tsc 0 (s.schedMarkBlocked (s.current 0))
  | .wake t, s => some (s.schedWake 0 t)
  | .tick freq now, s => some (schedTick freq now 0 s)
  | .checkResched now tsc, s => schedCheckResched fuel now tsc 0 s

instance (op : SoloOp T) (s : SchedState 1 T) : Decidable (soloOk op s) :=
  match op with
  | .schedule _ _ => inferInstanceAs (Decidable s.Yields)
  | .checkResched _ _ => inferInstanceAs (Decidable (_ → s.Yields))
  | .block _ _ => inferInstanceAs (Decidable (_ → _))
  | .enqueue _ | .wake _ | .tick _ _ => inferInstanceAs (Decidable True)

/-! ## What every operation keeps -/

theorem soloInv_boot {base : SchedState 1 T} (hfresh : ∀ t, (base.threads t).Fresh) (idle : T) :
    SoloInv (base.boot fun _ => idle) := by
  have hidle : Function.Injective (fun _ : Fin 1 => idle) := fun c d _ => Subsingleton.elim c d
  have hboot := booted_boot base hidle
  refine ⟨fun _ => [], represents_boot hfresh hidle, ⟨fun t => ?_, ?_⟩, ?_⟩
  · have hstate : ((base.boot fun _ => idle).threads t).state ≠ .ready := by
      by_cases ht : t = idle
      · have := (hboot.idles 0 (by simp)).1
        simp [ht, this]
      · have := hboot.others t fun _ _ => ht
        simp [this, (hfresh t).state]
    simpa [view, flat_empty] using hstate
  · simp [view, flat_empty]
  · have hcur := hboot.current 0 (by simp)
    have := (hboot.idles 0 (by simp)).1
    simpa [view, hcur] using this

variable [Fintype T]

variable {fuel : Nat} {now tsc : UInt64}

section

variable (hT : Fintype.card T < 2 ^ 32) (hinv : SoloInv s)

include hT hinv

theorem SoloInv.schedule (hyields : s.Yields) (hs : schedule fuel now tsc 0 s = some s') : SoloInv s' := by
  obtain ⟨L, hrep, hsolo⟩ := hinv
  have hcur : (s.threads (s.current 0)).state = .running → ∀ i, s.current 0 ∉ L i :=
    fun hrun => not_queued hsolo (by simp [hrun])
  obtain ⟨next, a, a', L', hrep', hrequeue, hchoose, hview⟩ := schedule_spec hT hrep hcur hs
  obtain ⟨hne, hsolo'⟩ := hsolo.yield (aheadOfCurrent_ne_nil hrep hyields) hrequeue hchoose
  rw [if_neg (show next ≠ s.current 0 from hne)] at hview
  exact ⟨L', hrep', hview ▸ hsolo'⟩

theorem SoloInv.block
    (hidle : s.current 0 = (s.rqs 0).idle → ∃ l : Fin 8, ((s.rqs 0).levels l).head.isSome)
    (hs : SchedState.schedule fuel now tsc 0 (s.schedMarkBlocked (s.current 0)) = some s') :
    SoloInv s' := by
  obtain ⟨L, hrep, hsolo⟩ := hinv
  obtain ⟨hrep1, hview1⟩ := schedMarkBlocked_spec hrep (s.current 0)
  have hblocked : ((s.schedMarkBlocked (s.current 0)).threads (s.current 0)).state = .blocked := by
    simp [schedMarkBlocked]
  have hcur : ((s.schedMarkBlocked (s.current 0)).threads
      ((s.schedMarkBlocked (s.current 0)).current 0)).state = .running →
      ∀ i, (s.schedMarkBlocked (s.current 0)).current 0 ∉ L i := by
    intro hrun
    have hrun : ((s.schedMarkBlocked (s.current 0)).threads (s.current 0)).state = .running := hrun
    simp [hblocked] at hrun
  obtain ⟨next, a, a', L', hrep', hrequeue, hchoose, hview⟩ := schedule_spec hT hrep1 hcur hs
  have hempty : (s.view L).current 0 = (s.view L).idle 0 → (s.view L).ready 0 ≠ [] := by
    intro hc
    obtain ⟨l, hhead⟩ := hidle hc
    obtain ⟨t, ht⟩ := isSome_iff_exists.mp hhead
    obtain ⟨ts, hlevel⟩ := (hrep.holds.head_eq_some_iff (i := (0, l))).mp ht
    exact ne_nil_of_mem (mem_flat.mpr ⟨l, by simp [hlevel]⟩ : t ∈ flat L 0)
  rw [hview1] at hrequeue
  obtain ⟨hne, hsolo'⟩ := hsolo.block hempty hrequeue hchoose
  rw [if_neg (show next ≠ (s.schedMarkBlocked (s.current 0)).current 0 from hne)] at hview
  exact ⟨L', hrep', hview ▸ hsolo'⟩

theorem SoloInv.enqueue (ht : (s.threads t).state = .new) : SoloInv (s.schedEnqueue 0 t) := by
  obtain ⟨L, hrep, hsolo⟩ := hinv
  have hready : (s.threads t).state ≠ .ready := by simp [ht]
  have hrunning : (s.threads t).state ≠ .running := by simp [ht]
  obtain ⟨L', hrep', henq⟩ := schedEnqueue_spec hT hrep (not_queued hsolo hready) 0
  exact ⟨L', hrep', hsolo.enqueue hready hrunning henq⟩

theorem SoloInv.wake (t : T) : SoloInv (s.schedWake 0 t) := by
  obtain ⟨L, hrep, hsolo⟩ := hinv
  have hwait : (s.threads t).state = .blocked ∨ (s.threads t).state = .sleeping →
      (s.threads t).state ≠ .ready ∧ (s.threads t).state ≠ .running := by
    rintro (h | h) <;> simp [h]
  obtain ⟨L', hrep', ⟨-, -, hview⟩ | ⟨hw, henq⟩⟩ :=
    schedWake_spec hT hrep (fun hw => not_queued hsolo (hwait hw).1) 0
  · exact ⟨L', hrep', hview ▸ hsolo⟩
  · exact ⟨L', hrep', hsolo.enqueue (hwait hw).1 (hwait hw).2 henq⟩

end

theorem SoloInv.checkResched (hT : Fintype.card T < 2 ^ 32) (hinv : SoloInv s)
    (hyields : (s.cpus 0).needResched = true → s.Yields)
    (hs : schedCheckResched fuel now tsc 0 s = some s') : SoloInv s' := by
  unfold schedCheckResched at hs
  by_cases hneed : (s.cpus 0).needResched = true
  · rw [if_pos hneed] at hs
    have hclear : Unseen s (s.modCpu 0 fun cpu => { cpu with needResched := false }) :=
      .modCpu (.refl s) fun _ => rfl
    refine (hinv.unseen hclear).schedule hT ?_ hs
    obtain ⟨l, hle, hhead⟩ := hyields hneed
    exact ⟨l, by simpa [current, modCpu] using hle, hhead⟩
  · rw [if_neg hneed, some.injEq] at hs
    exact hs ▸ hinv

theorem SoloInv.step (hT : Fintype.card T < 2 ^ 32) (hinv : SoloInv s) {op : SoloOp T}
    (hok : soloOk op s) (hs : soloStep fuel op s = some s') : SoloInv s' := by
  cases op with
  | schedule now tsc => exact hinv.schedule hT hok hs
  | enqueue t =>
    by_cases ht : (s.threads t).state = .new
    · simp only [soloStep, ht, if_true, some.injEq] at hs
      exact hs ▸ hinv.enqueue hT ht
    · simp [soloStep, ht] at hs
  | block now tsc => exact hinv.block hT hok hs
  | wake t => exact some.inj hs ▸ hinv.wake hT t
  | tick freq now => exact some.inj hs ▸ hinv.unseen (unseen_schedTick s freq now 0)
  | checkResched now tsc => exact hinv.checkResched hT hok hs

/-! ## Runs -/

/-- No runnable thread is lost in a run in which whoever gives up the CPU leaves another thread
to run: the current thread is running, every ready thread is linked in exactly one level, and
`schedule` returns. -/
theorem solo_run_keeps_ready_threads (hT : Fintype.card T < 2 ^ 32) {base : SchedState 1 T}
    (hfresh : ∀ t, (base.threads t).Fresh) (idle : T) {s : SchedState 1 T}
    (hrun : Run soloStep soloOk (base.boot fun _ => idle) s) : (s.threads (s.current 0)).state = .running ∧
      (∀ t, (s.threads t).state = .ready → ∃! i : Fin 1 × Fin 8, s.queues.Linked i t) ∧
      ∀ now tsc, ∃ fuel s', SchedState.schedule fuel now tsc 0 s = some s' := by
  have hinv : SoloInv s := hrun.invariant (soloInv_boot hfresh idle)
    fun _ _ _ _ hinv hok hs => hinv.step hT hok hs
  obtain ⟨L, hrep, hsolo⟩ := hinv
  refine ⟨hsolo.running, fun t ht => ?_, fun now tsc => ?_⟩
  · obtain ⟨l, hl⟩ := mem_flat.mp ((hsolo.ready_iff t).mp ht)
    refine ⟨(0, l), hrep.holds.linked_iff.mpr hl, fun i hi => ?_⟩
    exact hrep.holds.disjoint i (0, l) t (hrep.holds.linked_iff.mp hi) hl
  · exact schedule_returns hT hrep (fun hr => not_queued hsolo (by simp [hr])) now tsc

/-- Two threads and the idle thread take turns, one of them blocks and is woken. -/
theorem solo_run_keeps_ready_threads_turns :
    ∃ s, Run soloStep soloOk ((unbooted 1 (0 : Fin 3)).boot fun _ => 0) s ∧
      s.current 0 = 2 ∧ (s.threads 1).state = .ready ∧ ∃! i : Fin 1 × Fin 8, s.queues.Linked i 1 := by
  refine Run.exists_of_exec 4 [.enqueue 1, .enqueue 2, .schedule 1 1, .block 2 2, .wake 1]
    (fun s => s.current 0 = 2 ∧ (s.threads 1).state = .ready) (by decide +kernel) fun s hrun hs => ?_
  exact ⟨hs.1, hs.2, (solo_run_keeps_ready_threads (by decide) (unbooted_fresh 1 0) 0 hrun).2.1 1 hs.2⟩

/-- Without the condition: the idle thread yields with an empty queue and is chosen again, so
it is ready without being queued. Then thread 1 runs, yields alone, is ready without being
queued as well, and the next `schedule` leaves it for thread 2: it is in no queue for good. -/
theorem solo_run_loses_thread :
    ∃ s, Run soloStep (fun _ _ => True) ((unbooted 1 (0 : Fin 3)).boot fun _ => 0) s ∧
      (s.threads 1).state = .ready ∧ s.current 0 ≠ 1 ∧ ∀ i : Fin 1 × Fin 8, ¬ s.queues.Linked i 1 := by
  refine Run.exists_of_exec 4 [.schedule 1 1, .enqueue 1, .schedule 2 2, .schedule 3 3, .enqueue 2,
      .schedule 4 4] (fun s => (s.threads 1).state = .ready ∧ s.current 0 ≠ 1 ∧
        ∀ l, s.queues.head (0, l) = none) (by decide +kernel) fun s _ hs => ?_
  refine ⟨hs.1, hs.2.1, ?_⟩
  rintro ⟨c, l⟩ ⟨xs, hwalk, hmem⟩
  obtain rfl : c = 0 := Subsingleton.elim _ _
  rw [hs.2.2 l] at hwalk
  have hnil : xs = [] := by simpa [Lapis.Lib.LinkQueues.Walk] using hwalk
  simp [hnil] at hmem

end SchedState

end Lapis.Sched
