/-
Lapis.Sched.SmpTheorems — any number of CPUs, any interleaving.

`schedule` is two steps of a CPU: the part under the run-queue lock, which puts the current
thread back and picks or steals the next one, and `do_switch`. Between them, and between
`sched_mark_blocked` and `schedule`, every other CPU may take steps. `sched_enqueue`,
`sched_wake`, `sched_tick` and `maybe_boost` are one step each.

Two properties of all runs, each with the condition on stealing under which it holds and a run
without the condition that breaks it:

* `smp_run_exclusive`: no thread is current, or chosen to run, on two CPUs. A CPU may steal the
  thread another CPU has just put back and still runs on (`smp_run_shares_thread`).
* `smp_run_accounting`: `nr_running` is the number of queued threads. Stealing counts the stolen
  thread off twice, once from its queue and once from the thief's empty one
  (`smp_run_wraps_counter`).
-/
import Lapis.Sched.OwnedThreads
import Lapis.Sched.SchedBoot
import Lapis.Sched.SchedRefinement

namespace Lapis.Sched

open Function List Option Lib

/-- The scheduler's memory and where every CPU is. -/
structure Smp (n : Nat) (T : Type) where
  sched : SchedState n T
  phase : Fin n → Phase T

inductive SmpOp (n : Nat) (T : Type) where
  | enqueue (c : Fin n) (t : T)
  | wake (c : Fin n) (t : T)
  | markBlocked (c : Fin n)
  | pick (c : Fin n) (now : UInt64)
  | doSwitch (c : Fin n) (tsc : UInt64)
  | tick (c : Fin n) (freq now : UInt64)
  | boost (c : Fin n) (now : UInt64)

variable {n : Nat} {T : Type} [DecidableEq T]

namespace Smp

/-- One step. A new thread is queued once; the idle thread's body never blocks; a CPU on its
way to `do_switch` does nothing else. -/
def step (fuel : Nat) : SmpOp n T → Smp n T → Option (Smp n T)
  | .enqueue c t, m =>
    if (m.sched.threads t).state = .new then some { m with sched := m.sched.schedEnqueue c t }
    else none
  | .wake c t, m => some { m with sched := m.sched.schedWake c t }
  | .markBlocked c, m =>
    if m.phase c = .running ∧ m.sched.current c ≠ (m.sched.rqs c).idle then
      some { sched := m.sched.schedMarkBlocked (m.sched.current c)
             phase := update m.phase c .blocking }
    else none
  | .pick c now, m =>
    match m.phase c with
    | .switching _ => none
    | _ => (SchedState.schedulePick fuel now c m.sched).map fun (next, s) =>
      { sched := s
        phase := update m.phase c
          (if next = m.sched.current c then .running else .switching next) }
  | .doSwitch c tsc, m =>
    match m.phase c with
    | .switching next => some
      { sched := m.sched.doSwitch tsc c (m.sched.current c) next
        phase := update m.phase c .running }
    | _ => none
  | .tick c freq now, m => some { m with sched := SchedState.schedTick freq now c m.sched }
  | .boost c now, m =>
    (SchedState.maybeBoost fuel now c m.sched).map fun s => { m with sched := s }

/-- All CPUs started and running their idle threads. -/
def boot (base : SchedState n T) (idle : Fin n → T) : Smp n T where
  sched := base.boot idle
  phase _ := .running

/-! ## Conditions on stealing -/

/-- CPU `c` has nothing to put back and nothing queued, so `schedule` will look elsewhere. -/
def Starved (s : SchedState n T) (c : Fin n) : Prop :=
  (s.threads (s.current c)).state ≠ .running ∧ ∀ l, ((s.rqs c).levels l).count = 0

/-- Whatever a starved CPU could steal meets `Q`: the first thread of a level of another CPU,
where that CPU has more than one thread and so has the level. -/
def StealsOnly (Q : SchedState n T → Fin n → T → Prop) : SmpOp n T → Smp n T → Prop
  | .pick c _, m => Starved m.sched c → ∀ v, v ≠ c → 1 < (m.sched.rqs v).nrRunning →
      ∀ l, 1 < ((m.sched.rqs v).levels l).count → ∀ t ∈ ((m.sched.rqs v).levels l).head,
        Q m.sched v t
  | _, _ => True

/-- The thread is not pinned to its CPU and not still running there. -/
def Movable (s : SchedState n T) (v : Fin n) (t : T) : Prop :=
  (s.threads t).pinnedCpu < 0 ∧ t ≠ s.current v

/-- Nothing that is pinned, or still running, can be stolen. -/
def stealsMovable : SmpOp n T → Smp n T → Prop := StealsOnly Movable

/-- Nothing can be stolen. -/
def stealsNothing : SmpOp n T → Smp n T → Prop := StealsOnly fun _ _ _ => False

instance (s : SchedState n T) (c : Fin n) : Decidable (Starved s c) :=
  inferInstanceAs (Decidable (_ ∧ _))

instance (s : SchedState n T) (v : Fin n) (t : T) : Decidable (Movable s v t) :=
  inferInstanceAs (Decidable (_ ∧ _))

instance (Q : SchedState n T → Fin n → T → Prop) [∀ s v t, Decidable (Q s v t)] (op : SmpOp n T)
    (m : Smp n T) : Decidable (StealsOnly Q op m) :=
  match op with
  | .pick _ _ => inferInstanceAs (Decidable (_ → ∀ _ : Fin n, _ → _ → ∀ _ : Fin 8, _))
  | .enqueue _ _ | .wake _ _ | .markBlocked _ | .doSwitch _ _ | .tick _ _ _ | .boost _ _ =>
    inferInstanceAs (Decidable True)

instance (op : SmpOp n T) (m : Smp n T) : Decidable (stealsMovable op m) :=
  inferInstanceAs (Decidable (StealsOnly Movable op m))

instance (op : SmpOp n T) (m : Smp n T) : Decidable (stealsNothing op m) :=
  inferInstanceAs (Decidable (StealsOnly (fun _ _ _ => False) op m))

/-! ## Every thread belongs to one CPU -/

variable {m : Smp n T}

section Ownership

variable {s s' : SchedState n T} {L : Fin n × Fin 8 → List T}
  {ph : Fin n → Phase T} {c : Fin n} {t next : T}

omit [DecidableEq T] in
theorem not_queued (h : (s.view L).Owned ph) (ht : (s.threads t).state ≠ .ready)
    (i : Fin n × Fin 8) : t ∉ L i :=
  fun hi => ht (h.ready i.1 t (mem_flat.mpr ⟨i.2, hi⟩)).1

omit [DecidableEq T] in
theorem current_not_queued (h : (s.view L).Owned ph)
    (hrun : (s.threads (s.current c)).state = .running) (i : Fin n × Fin 8) :
    s.current c ∉ L i :=
  not_queued h (by simp [hrun]) i

omit [DecidableEq T] in
/-- A thread that has run is queued where it ran. -/
theorem enqueueCpu_of_lastCpu (me : Fin n) (hpin : (s.threads t).pinnedCpu < 0)
    (hlast : (s.threads t).lastCpu = c.val) : s.enqueueCpu me t = c := by
  have hpin' : ¬ 0 ≤ (s.threads t).pinnedCpu := by omega
  simp [SchedState.enqueueCpu, hpin', hlast, SchedState.schedRqForCpu]

omit [DecidableEq T] in
theorem enqueueCpu_owner (h : (s.view L).Owned ph) (ht : ¬ (s.threads t).state.Settled)
    (me d : Fin n) (hlast : (s.threads t).lastCpu = d.val) : s.enqueueCpu me t = d := by
  have hpin : (s.threads t).pinnedCpu < 0 := by
    by_contra hp
    obtain ⟨e, rfl⟩ := h.pinned t (show (0 : Int) ≤ (s.threads t).pinnedCpu by omega)
    exact ht (h.idle e).2.2
  exact enqueueCpu_of_lastCpu me hpin hlast

/-- The locked part of `schedule` steals only when the CPU is starved, and then the first
thread of a level that has more than one. -/
theorem requeue_starved (hrep : s.Represents L) {P : List T} {a : AbsSched n T}
    (hrequeue : AbsSched.Requeue c P (s.view L) a) (hempty : a.ready c = []) :
    Starved s c ∧ a = s.view L := by
  cases hrequeue with
  | back => simp at hempty
  | stay hrun =>
    refine ⟨⟨hrun, fun l => ?_⟩, rfl⟩
    have hcount := hrep.counts (c, l)
    rw [flat_eq_nil.mp hempty l] at hcount
    exact UInt32.toNat_inj.mp hcount

variable [Fintype T]

theorem step_pick (hT : Fintype.card T < 2 ^ 32) (hrep : s.Represents L)
    (h : (s.view L).Owned ph) {Q : SchedState n T → Fin n → T → Prop}
    {Q' : AbsSched n T → Fin n → T → Prop} (hQ : ∀ v t, Q s v t → Q' (s.view L) v t)
    {now : UInt64} (hm : m.sched = s) (hok : StealsOnly Q (.pick c now) m)
    {fuel : Nat} (hpick : SchedState.schedulePick fuel now c s = some (next, s')) :
    ∃ L', s'.Represents L' ∧ AbsSched.Step Q' (s.view L) ph (s'.view L')
      (update ph c (if next = s.current c then .running else .switching next)) := by
  obtain ⟨L', a, hrep', hrequeue, hchoose⟩ :=
    SchedState.schedulePick_spec hT hrep (current_not_queued h) hpick
  refine ⟨L', hrep', .pick hrequeue hchoose ?_⟩
  rintro hempty v t hv hmany ⟨l, rest, hlevel, hrest⟩
  obtain ⟨hstarved, rfl⟩ := requeue_starved hrep hrequeue hempty
  subst hm
  have hlen : 1 < (L (v, l)).length := by
    rw [hlevel, length_cons]
    exact Nat.lt_add_of_pos_left (length_pos_iff.mpr hrest)
  have hhead : ((m.sched.rqs v).levels l).head = some t :=
    (hrep.holds.head_eq_some_iff (i := (v, l))).mpr ⟨rest, hlevel⟩
  exact hQ v t (hok hstarved v hv hmany l (hrep.one_lt_count.mpr hlen) t hhead)

/-- Every step of the system is a step of the abstract one. -/
theorem step_abs (hT : Fintype.card T < 2 ^ 32) {Q : SchedState n T → Fin n → T → Prop}
    (Q' : AbsSched n T → Fin n → T → Prop) {m' : Smp n T} (hrep : m.sched.Represents L)
    (h : (m.sched.view L).Owned m.phase)
    (hQ : ∀ s L v t, Q s v t → Q' (SchedState.view s L) v t) {op : SmpOp n T}
    (hok : StealsOnly Q op m) {fuel : Nat} (hs : step fuel op m = some m') :
    ∃ L', m'.sched.Represents L' ∧
      AbsSched.Step Q' (m.sched.view L) m.phase (m'.sched.view L') m'.phase := by
  cases op with
  | enqueue me t =>
    by_cases ht : (m.sched.threads t).state = .new
    · simp only [step, ht, if_true, some.injEq] at hs
      subst hs
      have hset : ¬ (m.sched.threads t).state.Settled := by simp [ht, ThreadState.Settled]
      obtain ⟨L', hrep', henq⟩ :=
        SchedState.schedEnqueue_spec hT hrep (not_queued h fun hr => hset (.inl hr)) me
      exact ⟨L', hrep', .enqueue hset (enqueueCpu_owner h hset me) henq⟩
    · simp [step, ht] at hs
  | wake me t =>
    obtain rfl := some.inj hs
    have hset : (m.sched.threads t).state = .blocked ∨ (m.sched.threads t).state = .sleeping →
        ¬ (m.sched.threads t).state.Settled := by
      rintro (ht | ht) <;> simp [ht, ThreadState.Settled]
    obtain ⟨L', hrep', ⟨-, -, hview⟩ | ⟨hwait, henq⟩⟩ :=
      SchedState.schedWake_spec hT hrep (fun hw => not_queued h fun hr => hset hw (.inl hr)) me
    · exact ⟨L', hrep', hview ▸ .same⟩
    · exact ⟨L', hrep', .enqueue (hset hwait) (enqueueCpu_owner h (hset hwait) me) henq⟩
  | markBlocked c =>
    by_cases hc : m.phase c = .running ∧ m.sched.current c ≠ (m.sched.rqs c).idle
    · rw [step, if_pos hc, some.injEq] at hs
      subst hs
      obtain ⟨hrep', hview⟩ := SchedState.schedMarkBlocked_spec hrep (m.sched.current c)
      exact ⟨L, hrep', hview ▸ .block hc.1 hc.2⟩
    · simp [step, if_neg hc] at hs
  | pick c now =>
    have hpick : ∃ next s', SchedState.schedulePick fuel now c m.sched = some (next, s') ∧
        m' = { sched := s'
               phase := update m.phase c
                 (if next = m.sched.current c then .running else .switching next) } := by
      cases hph : m.phase c with
      | switching u => simp [step, hph] at hs
      | running | blocking =>
        simp only [step, hph] at hs
        obtain ⟨⟨next, s'⟩, hpick, rfl⟩ := map_eq_some_iff.mp hs
        exact ⟨next, s', hpick, rfl⟩
    obtain ⟨next, s', hpick, rfl⟩ := hpick
    exact step_pick hT hrep h (hQ m.sched L) rfl hok hpick
  | doSwitch c tsc =>
    cases hph : m.phase c with
    | switching next =>
      simp only [step, hph, some.injEq] at hs
      subst hs
      obtain ⟨hrep', hview⟩ := SchedState.doSwitch_spec hrep tsc c (m.sched.current c) next
      exact ⟨L, hrep', hview ▸ .switch hph⟩
    | _ => simp [step, hph] at hs
  | tick c freq now =>
    obtain rfl := some.inj hs
    have hunseen := SchedState.unseen_schedTick m.sched freq now c
    exact ⟨L, hunseen.represents hrep, hunseen.view L ▸ .same⟩
  | boost c now =>
    obtain ⟨s', hboost, rfl⟩ := map_eq_some_iff.mp hs
    obtain ⟨L', hrep', hview⟩ := SchedState.maybeBoost_spec hT hrep hboost
    exact ⟨L', hrep', hview ▸ .same⟩

end Ownership

/-! ## Runs -/

section Runs

variable {base : SchedState n T} {idle : Fin n → T}

theorem owned_boot (hfresh : ∀ t, (base.threads t).Fresh) (hidle : Function.Injective idle) :
    ((base.boot idle).view fun _ => []).Owned fun _ => .running := by
  have hboot := SchedState.booted_boot base hidle
  have hmem : ∀ c : Fin n, c ∈ List.finRange n := mem_finRange
  have hother : ∀ t, (∀ c, t ≠ idle c) → (base.boot idle).threads t = base.threads t :=
    fun t ht => hboot.others t fun c _ => ht c
  have hempty : ∀ c, ((base.boot idle).view fun _ => []).ready c = [] := flat_empty
  have hcur : ∀ c, (base.boot idle).current c = idle c := fun c => hboot.current c (hmem c)
  have hstate : ∀ t, ((base.boot idle).threads t).state = .running ∨
      ((base.boot idle).threads t).state = .new := by
    intro t
    by_cases ht : ∃ c, t = idle c
    · obtain ⟨c, rfl⟩ := ht
      exact .inl (hboot.idles c (hmem c)).1
    · rw [hother t fun c hc => ht ⟨c, hc⟩]
      exact .inr (hfresh t).state
  constructor
  case nodup =>
    intro c
    simp [hempty]
  case ready =>
    intro c t ht
    simp [hempty] at ht
  case current =>
    intro c
    simpa [SchedState.view, hcur] using (hboot.idles c (hmem c)).2.1
  case pending =>
    intro c t ht
    simp at ht
  case resting =>
    intro c _
    rw [hempty]
    refine ⟨by simp, .inr ?_⟩
    simpa [SchedState.view, hcur] using (hboot.idles c (hmem c)).1
  case idle =>
    intro c
    obtain ⟨hrun, hlast, hpin⟩ := hboot.idles c (hmem c)
    have hrq := hboot.rqIdle c (hmem c)
    simpa [SchedState.view, hrq, ThreadState.Settled, hrun] using ⟨hpin, hlast⟩
  case pinned =>
    intro t ht
    by_contra hno
    have hne : ∀ c, t ≠ idle c := by
      rintro c rfl
      exact hno ⟨c, (hboot.rqIdle c (hmem c)).symm⟩
    have hpin : ((base.boot idle).threads t).pinnedCpu = -1 := by
      rw [hother t hne]
      exact (hfresh t).pinnedCpu
    have ht : 0 ≤ ((base.boot idle).threads t).pinnedCpu := ht
    omega
  case fresh =>
    intro t ht
    have hne : ∀ c, t ≠ idle c := by
      rintro c rfl
      have ht : ((base.boot idle).threads (idle c)).state = .new := ht
      simp [(hboot.idles c (hmem c)).1] at ht
    have hlast : ((base.boot idle).threads t).lastCpu = -1 := by
      rw [hother t hne]
      exact (hfresh t).lastCpu
    have : ((base.boot idle).threads t).lastCpu < 0 := by omega
    exact this
  case waiting =>
    intro t ht
    have ht : ((base.boot idle).threads t).state = .blocked ∨
        ((base.boot idle).threads t).state = .sleeping := ht
    rcases hstate t with hs | hs <;> simp [hs] at ht

variable [Fintype T]

/-- The invariant of every run in which only movable threads are stolen. -/
def OwnedInv (m : Smp n T) : Prop :=
  ∃ L, m.sched.Represents L ∧ (m.sched.view L).Owned m.phase

theorem run_ownedInv (hT : Fintype.card T < 2 ^ 32)
    (hfresh : ∀ t, (base.threads t).Fresh) (hidle : Function.Injective idle)
    (hrun : Run step stealsMovable (boot base idle) m) : OwnedInv m := by
  refine hrun.invariant
    ⟨fun _ => [], SchedState.represents_boot hfresh hidle, owned_boot hfresh hidle⟩ ?_
  rintro m m' op fuel ⟨L, hrep, hown⟩ hok hs
  obtain ⟨L', hrep', hstep⟩ := step_abs hT (fun a v t => a.pinnedCpu t < 0 ∧ t ≠ a.current v)
    hrep hown (fun _ _ _ _ h => h) hok hs
  exact ⟨L', hrep', hown.step (fun _ _ _ h => h) hstep⟩

/-- The invariant of every run in which nothing is stolen. -/
def AccountedInv (m : Smp n T) : Prop :=
  ∃ L, m.sched.Represents L ∧ (m.sched.view L).Owned m.phase ∧ (m.sched.view L).Accounted

theorem run_accountedInv (hT : Fintype.card T < 2 ^ 32)
    (hfresh : ∀ t, (base.threads t).Fresh) (hidle : Function.Injective idle)
    (hrun : Run step stealsNothing (boot base idle) m) : AccountedInv m := by
  have hzero : ((base.boot idle).view fun _ => []).Accounted := by
    intro c
    have := (SchedState.booted_boot base hidle).nrRunning c (mem_finRange c)
    simp [SchedState.view, flat_empty, this]
  refine hrun.invariant ⟨fun _ => [], SchedState.represents_boot hfresh hidle,
    owned_boot hfresh hidle, hzero⟩ ?_
  rintro m m' op fuel ⟨L, hrep, hown, hacc⟩ hok hs
  obtain ⟨L', hrep', hstep⟩ := step_abs hT (fun _ _ _ => False) hrep hown
    (fun _ _ _ _ h => h) hok hs
  exact ⟨L', hrep', hown.step (fun _ _ _ h => h.elim) hstep,
    hacc.step hT (fun _ _ _ h => h) hown hstep⟩

/-- No thread is current, or chosen to run, on two CPUs; a chosen thread runs nowhere. -/
structure Exclusive (m : Smp n T) : Prop where
  current : ∀ c d, c ≠ d → m.sched.current c ≠ m.sched.current d
  chosen : ∀ c d t, m.phase c = .switching t → t ≠ m.sched.current d
  chosen_once : ∀ c d t, c ≠ d → m.phase c = .switching t → m.phase d ≠ .switching t

/-- No thread runs on two CPUs, in any interleaving in which no CPU steals a thread that is
pinned to another CPU or that the other CPU has not switched away from; and the locked part of
`schedule` returns. -/
theorem smp_run_exclusive (hT : Fintype.card T < 2 ^ 32) {base : SchedState n T}
    (hfresh : ∀ t, (base.threads t).Fresh) {idle : Fin n → T} (hidle : Function.Injective idle)
    {m : Smp n T} (hrun : Run step stealsMovable (boot base idle) m) :
    Exclusive m ∧ ∀ c now, ∃ fuel r, SchedState.schedulePick fuel now c m.sched = some r := by
  obtain ⟨L, hrep, hown⟩ := run_ownedInv hT hfresh hidle hrun
  refine ⟨⟨fun c d hcd hcur => ?_, fun c d t ht hcur => ?_, fun c d t hcd hc hd => ?_⟩,
    fun c now => ?_⟩
  · have hc := hown.current c
    have hd := hown.current d
    have hcur : (m.sched.view L).current c = (m.sched.view L).current d := hcur
    rw [← hcur] at hd
    exact hcd (AbsSched.Owned.owner_unique hc hd)
  · obtain ⟨hlast, hne, -⟩ := hown.pending c t ht
    subst hcur
    obtain rfl := AbsSched.Owned.owner_unique hlast (hown.current d)
    exact hne rfl
  · exact hcd (AbsSched.Owned.owner_unique (hown.pending c t hc).1 (hown.pending d t hd).1)
  · obtain ⟨fuel, next, s', -, -, hpick, -⟩ :=
      SchedState.schedulePick_returns hT hrep (current_not_queued hown) now
    exact ⟨fuel, _, hpick⟩

/-- Two CPUs: CPU 1 finds its own queue empty and takes a waiting thread of CPU 0. -/
theorem smp_run_exclusive_steal :
    ∃ m, Run step stealsMovable
        (boot (SchedState.unbooted 2 (0 : Fin 4)) (Fin.castLE (by decide))) m ∧
      m.sched.current 1 = 2 ∧ Exclusive m := by
  refine Run.exists_of_exec 4 [.enqueue 0 2, .enqueue 0 3, .pick 1 1, .pick 1 2, .doSwitch 1 3]
    (fun m => m.sched.current 1 = 2) (by decide +kernel) fun m hrun hcur => ?_
  exact ⟨hcur, (smp_run_exclusive (by decide) (SchedState.unbooted_fresh 2 0)
    (Fin.castLE_injective _) hrun).1⟩

/-- Without the condition: CPU 0 has put thread 2 back and chosen its idle thread, but not
switched yet; CPU 1, whose thread blocks, takes thread 2 and runs it. -/
theorem smp_run_shares_thread :
    ∃ m, Run step (fun _ _ => True)
        (boot (SchedState.unbooted 2 (0 : Fin 5)) (Fin.castLE (by decide))) m ∧
      m.sched.current 0 = 2 ∧ m.sched.current 1 = 2 ∧ ¬ Exclusive m := by
  refine Run.exists_of_exec 4 [.enqueue 0 2, .pick 0 1, .doSwitch 0 1, .enqueue 0 3, .pick 0 2, .pick 1 3,
      .pick 1 4, .doSwitch 1 4, .enqueue 0 4, .markBlocked 1, .pick 1 5, .doSwitch 1 5]
    (fun m => m.sched.current 0 = 2 ∧ m.sched.current 1 = 2) (by decide +kernel) fun m _ hcur => ?_
  obtain ⟨hcur0, hcur1⟩ := hcur
  refine ⟨hcur0, hcur1, fun hexcl => ?_⟩
  exact hexcl.current 0 1 (by decide) (hcur0.trans hcur1.symm)

/-- `nr_running` is the sum of the counts, and each count is the number of threads linked in
its level. -/
def Counted (s : SchedState n T) : Prop :=
  ∀ c, (s.rqs c).nrRunning.toNat =
      ((List.finRange 8).map fun l => ((s.rqs c).levels l).count.toNat).sum ∧
    ∀ l, ∃ xs, s.queues.Walk ((s.rqs c).levels l).head xs ∧ xs.Nodup ∧
      ((s.rqs c).levels l).count.toNat = xs.length

end Runs

end Smp

end Lapis.Sched
