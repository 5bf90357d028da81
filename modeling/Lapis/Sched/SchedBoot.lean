/-
Lapis.Sched.SchedBoot — the state after `sched_init` and `sched_init_ap`.

Every CPU runs its idle thread, which is pinned to it; all levels are empty; every other
thread is as `thread_create` or `thread_fork_from_syscall` leaves it.
-/
import Lapis.Sched.RunqueueRepr

namespace Lapis.Sched

open Function List

variable {n : Nat} {T : Type} [DecidableEq T]

/-- A thread that has been created and not queued yet. -/
structure Thread.Fresh (th : Thread T) : Prop where
  state : th.state = .new
  lastCpu : th.lastCpu = -1
  pinnedCpu : th.pinnedCpu = -1
  rqNext : th.rqNext = none
  rqPrev : th.rqPrev = none

namespace SchedState

/-- What booting the CPUs of `cs` has done to every thread, run queue and CPU. -/
structure Booted (base : SchedState n T) (idle : Fin n → T) (cs : List (Fin n))
    (s : SchedState n T) : Prop where
  levels : ∀ c ∈ cs, ∀ l, (s.rqs c).levels l = ⟨none, none, 0⟩
  nrRunning : ∀ c ∈ cs, (s.rqs c).nrRunning = 0
  rqIdle : ∀ c ∈ cs, (s.rqs c).idle = idle c
  current : ∀ c ∈ cs, s.current c = idle c
  links : ∀ t, (s.threads t).rqNext = (base.threads t).rqNext ∧
    (s.threads t).rqPrev = (base.threads t).rqPrev
  idles : ∀ c ∈ cs, (s.threads (idle c)).state = .running ∧
    (s.threads (idle c)).lastCpu = c.val ∧ (s.threads (idle c)).pinnedCpu = c.val
  others : ∀ t, (∀ c ∈ cs, t ≠ idle c) → s.threads t = base.threads t

theorem booted_foldl (base : SchedState n T) {idle : Fin n → T}
    (hidle : Function.Injective idle) (cs : List (Fin n)) :
    Booted base idle cs (cs.foldl (fun s c => s.schedInitCpu c (idle c)) base) := by
  induction cs using List.reverseRecOn with
  | nil => exact ⟨by simp, by simp, by simp, by simp, fun _ => ⟨rfl, rfl⟩, by simp, fun _ _ => rfl⟩
  | append_singleton cs c ih =>
    rw [foldl_append, foldl_cons, foldl_nil]
    generalize cs.foldl (fun s c => s.schedInitCpu c (idle c)) base = s at ih
    have hmem : ∀ d, d ∈ cs ++ [c] → d ≠ c → d ∈ cs := by
      intro d hd hdc
      simpa [hdc] using hd
    constructor
    case levels =>
      intro d hd l
      by_cases hdc : d = c
      · simp [schedInitCpu, runqueueInitOne, modRq, hdc]
      · simp [schedInitCpu, runqueueInitOne, modRq, hdc, ih.levels d (hmem d hd hdc)]
    case nrRunning =>
      intro d hd
      by_cases hdc : d = c
      · simp [schedInitCpu, runqueueInitOne, modRq, hdc]
      · simp [schedInitCpu, runqueueInitOne, modRq, hdc, ih.nrRunning d (hmem d hd hdc)]
    case rqIdle =>
      intro d hd
      by_cases hdc : d = c
      · simp [schedInitCpu, runqueueInitOne, modRq, hdc]
      · simp [schedInitCpu, runqueueInitOne, modRq, hdc, ih.rqIdle d (hmem d hd hdc)]
    case current =>
      intro d hd
      by_cases hdc : d = c
      · simp [schedInitCpu, current, modCpu, hdc]
      · have := ih.current d (hmem d hd hdc)
        simp_all [schedInitCpu, runqueueInitOne, current, modCpu]
    case links =>
      intro t
      by_cases ht : t = idle c
      · subst ht
        simpa [schedInitCpu, runqueueInitOne, modThread] using ih.links (idle c)
      · simpa [schedInitCpu, runqueueInitOne, modThread, ht] using ih.links t
    case idles =>
      intro d hd
      by_cases hdc : d = c
      · simp [schedInitCpu, runqueueInitOne, modThread, hdc]
      · have hne : idle d ≠ idle c := fun h => hdc (hidle h)
        simpa [schedInitCpu, runqueueInitOne, modThread, hne] using ih.idles d (hmem d hd hdc)
    case others =>
      intro t ht
      have htc : t ≠ idle c := ht c (by simp)
      have := ih.others t fun d hd => ht d (by simp [hd])
      simpa [schedInitCpu, runqueueInitOne, modThread, htc] using this

theorem booted_boot (base : SchedState n T) {idle : Fin n → T} (hidle : Function.Injective idle) :
    Booted base idle (List.finRange n) (base.boot idle) :=
  booted_foldl base hidle (List.finRange n)

omit [DecidableEq T] in
/-- Empty levels, and no thread with a link. -/
theorem represents_empty {s : SchedState n T} (hlevel : ∀ c l, (s.rqs c).levels l = ⟨none, none, 0⟩)
    (hlinks : ∀ t, (s.threads t).rqNext = none ∧ (s.threads t).rqPrev = none) :
    s.Represents fun _ => [] := by
  refine ⟨⟨⟨by simp, by simp⟩, ?_, ?_, ?_, fun t _ => hlinks t⟩, ?_⟩
  · intro i
    simp [queues, hlevel]
  · intro i
    simp [queues, hlevel]
  · intro i A x B hsplit
    simp at hsplit
  · intro i
    simp [counts, hlevel]

/-- After booting, no thread is queued anywhere. -/
theorem represents_boot {base : SchedState n T} (hfresh : ∀ t, (base.threads t).Fresh)
    {idle : Fin n → T} (hidle : Function.Injective idle) : (base.boot idle).Represents fun _ => [] := by
  have hboot := booted_boot base hidle
  refine represents_empty (fun c => hboot.levels c (mem_finRange c)) fun t => ?_
  rw [(hboot.links t).1, (hboot.links t).2]
  exact ⟨(hfresh t).rqNext, (hfresh t).rqPrev⟩

/-! ## A concrete start -/

/-- A thread as `thread_create` leaves it, with an unused FPU. -/
def freshThread : Thread T where
  state := .new
  priorityLevel := 0
  timeInLevelNs := 0
  lastRunTsc := 0
  totalRuntimeNs := 0
  lastCpu := -1
  pinnedCpu := -1
  kstackBase := 0
  kstackSize := 0
  kernelRsp := 0
  fpu := { region := fun _ => 0, used := false, dirty := false }
  rqNext := none
  rqPrev := none
  freed := false

/-- Memory before the scheduler starts; `t₀` stands in for the pointers not set yet. -/
def unbooted (n : Nat) (t₀ : T) : SchedState n T where
  threads _ := freshThread
  rqs _ :=
    { levels := fun _ => ⟨none, none, 0⟩, nrRunning := 0, idle := t₀, current := t₀
      lastBoostNs := 0, needsResched := false }
  cpus _ :=
    { idleThread := t₀, currentThread := t₀, zombieToReap := none, needResched := false
      tssRsp0 := 0, sysretKernelRsp := 0, rsp := 0, cr0 := 0, fpuRegs := fun _ => 0 }

omit [DecidableEq T] in
theorem unbooted_fresh (n : Nat) (t0 t : T) : ((unbooted n t0).threads t).Fresh :=
  ⟨rfl, rfl, rfl, rfl, rfl⟩

end SchedState

end Lapis.Sched
