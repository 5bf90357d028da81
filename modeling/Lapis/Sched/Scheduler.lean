/-
Lapis.Sched.Scheduler — the multi-level feedback scheduler of `sched/sched.c`.

Every CPU has a run queue of eight FIFO levels. The queues are intrusive: a thread carries
its own `rq_next` and `rq_prev`, a level only its two ends and a count. `SchedState n T` is the
memory the scheduler works on, for `n` started CPUs and thread control blocks named by `T`;
the functions below take and return it, in the order in which the source assigns.

Counters and clocks keep the source's widths (`uint32_t`, `uint64_t`), so they wrap as they
do there. A level is `Fin 8`: `sched_set_priority` clamps, `sched_tick` tests before it adds,
and a new thread starts at level 0 or at its parent's, so no other value is ever stored.

Locks do not appear: a function is the body of its critical section. Where a caller may see
the state between two sections of one function (`schedule` before `do_switch`), the two parts
are separate definitions. `fuel` bounds the one loop whose end the links decide, the drain of
a level in `maybe_boost`; `none` means that it did not end within the bound.
-/
import Mathlib.Algebra.Ring.Nat
import Mathlib.Logic.Function.Basic

namespace Lapis.Sched

open Function

/-! ## Threads, run queues, CPUs -/

inductive ThreadState where
  | new | ready | running | blocked | sleeping | zombie | dead
  deriving DecidableEq, Repr

/-- The image `fxsave` writes and `fxrstor` reads. -/
abbrev FpuRegion := Fin 512 → UInt8

structure FpuState where
  region : FpuRegion
  used : Bool
  dirty : Bool

structure Thread (T : Type) where
  state : ThreadState
  priorityLevel : Fin 8
  timeInLevelNs : UInt64
  lastRunTsc : UInt64
  totalRuntimeNs : UInt64
  lastCpu : Int
  pinnedCpu : Int
  kstackBase : UInt64
  kstackSize : UInt64
  kernelRsp : UInt64
  fpu : FpuState
  rqNext : Option T
  rqPrev : Option T
  /-- Set once `thread_free_resources` has given the stack and the block back. -/
  freed : Bool

structure MlfqQueue (T : Type) where
  head : Option T
  tail : Option T
  count : UInt32

structure Runqueue (T : Type) where
  levels : Fin 8 → MlfqQueue T
  nrRunning : UInt32
  idle : T
  current : T
  lastBoostNs : UInt64
  needsResched : Bool

structure Cpu (T : Type) where
  idleThread : T
  currentThread : T
  zombieToReap : Option T
  needResched : Bool
  tssRsp0 : UInt64
  sysretKernelRsp : UInt64
  rsp : UInt64
  cr0 : UInt64
  fpuRegs : FpuRegion

/-- The scheduler's memory; CPU `c` owns run queue `c`. -/
structure SchedState (n : Nat) (T : Type) where
  threads : T → Thread T
  rqs : Fin n → Runqueue T
  cpus : Fin n → Cpu T

scoped instance cpuNeZero : NeZero 1 := ⟨by decide⟩

variable {n : Nat} {T : Type} [DecidableEq T]

namespace SchedState

def modThread (s : SchedState n T) (t : T) (f : Thread T → Thread T) : SchedState n T :=
  { s with threads := update s.threads t (f (s.threads t)) }

def modRq (s : SchedState n T) (c : Fin n) (f : Runqueue T → Runqueue T) : SchedState n T :=
  { s with rqs := update s.rqs c (f (s.rqs c)) }

def modLevel (s : SchedState n T) (c : Fin n) (l : Fin 8) (f : MlfqQueue T → MlfqQueue T) :
    SchedState n T :=
  s.modRq c fun rq => { rq with levels := update rq.levels l (f (rq.levels l)) }

def modCpu (s : SchedState n T) (c : Fin n) (f : Cpu T → Cpu T) : SchedState n T :=
  { s with cpus := update s.cpus c (f (s.cpus c)) }

/-- `get_current_cpu()->current_thread` on CPU `c`. -/
def current (s : SchedState n T) (c : Fin n) : T := (s.cpus c).currentThread

/-! ## The levels of a run queue -/

def mlfqPush (s : SchedState n T) (c : Fin n) (l : Fin 8) (t : T) : SchedState n T :=
  let tail := ((s.rqs c).levels l).tail
  let s := s.modThread t fun th => { th with rqNext := none, rqPrev := tail }
  let s := match tail with
    | some u => s.modThread u fun th => { th with rqNext := some t }
    | none => s.modLevel c l fun q => { q with head := some t }
  s.modLevel c l fun q => { q with tail := some t, count := q.count + 1 }

def mlfqPop (s : SchedState n T) (c : Fin n) (l : Fin 8) : Option T × SchedState n T :=
  match ((s.rqs c).levels l).head with
  | none => (none, s)
  | some t =>
    let next := (s.threads t).rqNext
    let s := s.modLevel c l fun q => { q with head := next }
    let s := match next with
      | some u => s.modThread u fun th => { th with rqPrev := none }
      | none => s.modLevel c l fun q => { q with tail := none }
    let s := s.modThread t fun th => { th with rqNext := none, rqPrev := none }
    (some t, s.modLevel c l fun q => { q with count := q.count - 1 })

def mlfqRemove (s : SchedState n T) (c : Fin n) (l : Fin 8) (t : T) : SchedState n T :=
  let s := match (s.threads t).rqPrev with
    | some p => s.modThread p fun th => { th with rqNext := (s.threads t).rqNext }
    | none =>
      if ((s.rqs c).levels l).head = some t then
        s.modLevel c l fun q => { q with head := (s.threads t).rqNext }
      else s
  let s := match (s.threads t).rqNext with
    | some u => s.modThread u fun th => { th with rqPrev := (s.threads t).rqPrev }
    | none =>
      if ((s.rqs c).levels l).tail = some t then
        s.modLevel c l fun q => { q with tail := (s.threads t).rqPrev }
      else s
  let s := s.modThread t fun th => { th with rqNext := none, rqPrev := none }
  s.modLevel c l fun q => { q with count := q.count - 1 }

/-! ## Starting a CPU -/

/-- `sched_rq_for_cpu`: the index of the run queue, `NULL` for a CPU that is not started. -/
def schedRqForCpu (n : Nat) (cpu : Int) : Option (Fin n) :=
  if h : 0 ≤ cpu ∧ cpu < n then some ⟨cpu.toNat, by omega⟩ else none

/-- `runqueue_init_one` for CPU `c`; `idle` is the thread it has just created. -/
def runqueueInitOne (s : SchedState n T) (c : Fin n) (idle : T) : SchedState n T :=
  let s := s.modThread idle fun th =>
    { th with state := .running, pinnedCpu := c.val, lastCpu := c.val }
  s.modRq c fun _ =>
    { levels := fun _ => { head := none, tail := none, count := 0 }
      nrRunning := 0, idle := idle, current := idle, lastBoostNs := 0, needsResched := false }

def cr0Ts : UInt64 := (1 : UInt64) <<< 3

/-- `sched_init` (for the boot CPU) and `sched_init_ap` (for the others): after both, the CPU
runs its own idle thread. -/
def schedInitCpu (s : SchedState n T) (c : Fin n) (idle : T) : SchedState n T :=
  (s.runqueueInitOne c idle).modCpu c fun cpu =>
    { cpu with idleThread := idle, currentThread := idle
               cr0 := (cpu.cr0 ||| cr0Ts) &&& ~~~((1 : UInt64) <<< 2) }

/-- All CPUs started, CPU `c` with the idle thread `idle c`. -/
def boot (s : SchedState n T) (idle : Fin n → T) : SchedState n T :=
  (List.finRange n).foldl (fun s c => s.schedInitCpu c (idle c)) s

/-! ## Queueing threads -/

scoped instance levelsNeZero : NeZero 8 := ⟨by decide⟩

def clampLevel (level : Int) : Fin 8 :=
  if level < 0 then 0 else if h : level < 8 then ⟨level.toNat, by omega⟩ else 7

def schedSetPriority (s : SchedState n T) (t : T) (level : Int) : SchedState n T :=
  s.modThread t fun th => { th with priorityLevel := clampLevel level, timeInLevelNs := 0 }

/-- The CPU on which `sched_enqueue`, called on CPU `me`, queues `t`. -/
def enqueueCpu (s : SchedState n T) (me : Fin n) (t : T) : Fin n :=
  let th := s.threads t
  let cpu : Int :=
    if 0 ≤ th.pinnedCpu then th.pinnedCpu else if 0 ≤ th.lastCpu then th.lastCpu else me.val
  (schedRqForCpu n cpu).getD me

def schedEnqueue (s : SchedState n T) (me : Fin n) (t : T) : SchedState n T :=
  let c := s.enqueueCpu me t
  let s := s.modThread t fun th => { th with state := .ready, lastCpu := c.val }
  let s := s.mlfqPush c (s.threads t).priorityLevel t
  s.modRq c fun rq => { rq with nrRunning := rq.nrRunning + 1 }

/-! ## Work stealing -/

def stealFrom (s : SchedState n T) (victim : Fin n) : Option T × SchedState n T :=
  if (s.rqs victim).nrRunning = 0 then (none, s)
  else
    -- from level 7 down to level 0
    match (List.finRange 8).reverse.find? (fun l => 1 < ((s.rqs victim).levels l).count) with
    | none => (none, s)
    | some l =>
      let (t, s) := s.mlfqPop victim l
      (t, s.modRq victim fun rq => { rq with nrRunning := rq.nrRunning - 1 })

def tryStealFrom (s : SchedState n T) (me : Fin n) : List (Fin n) → Option T × SchedState n T
  | [] => (none, s)
  | i :: is =>
    if i = me then s.tryStealFrom me is
    else if (s.rqs i).nrRunning ≤ 1 then s.tryStealFrom me is
    else
      match s.stealFrom i with
      | (some t, s) => (some t, s.modThread t fun th => { th with lastCpu := me.val })
      | (none, s) => s.tryStealFrom me is

def trySteal (s : SchedState n T) (me : Fin n) : Option T × SchedState n T :=
  s.tryStealFrom me (List.finRange n)

/-! ## Choosing the next thread -/

def mlfqPickNext (s : SchedState n T) (c : Fin n) : Option T × SchedState n T :=
  match (List.finRange 8).find? (fun l => 0 < ((s.rqs c).levels l).count) with
  | some l => s.mlfqPop c l
  | none => (none, s)

/-- `PRIORITY_BOOST_INTERVAL_NS` -/
def priorityBoostIntervalNs : UInt64 := 200 * 1000000

/-- The `while` loop of `maybe_boost` for one level. -/
def boostLevel (c : Fin n) (l : Fin 8) : Nat → SchedState n T → Option (SchedState n T)
  | 0, _ => none
  | fuel + 1, s =>
    match s.mlfqPop c l with
    | (none, s) => some s
    | (some t, s) =>
      let s := s.modThread t fun th => { th with priorityLevel := 0, timeInLevelNs := 0 }
      boostLevel c l fuel (s.mlfqPush c 0 t)

def maybeBoost (fuel : Nat) (now : UInt64) (c : Fin n) (s : SchedState n T) : Option (SchedState n T) :=
  if (s.rqs c).lastBoostNs = 0 then
    some (s.modRq c fun rq => { rq with lastBoostNs := now })
  else if now - (s.rqs c).lastBoostNs < priorityBoostIntervalNs then some s
  else
    -- levels 1 to 7
    (List.finRange 8).tail.foldlM (fun s l => boostLevel c l fuel s)
      (s.modRq c fun rq => { rq with lastBoostNs := now })

/-! ## Switching threads -/

def fpuSave (s : SchedState n T) (c : Fin n) (t : T) : SchedState n T :=
  if (s.threads t).fpu.dirty then
    s.modThread t fun th =>
      { th with fpu := { th.fpu with region := (s.cpus c).fpuRegs, dirty := false } }
  else s

def fpuLazyDisable (s : SchedState n T) (c : Fin n) : SchedState n T :=
  s.modCpu c fun cpu => { cpu with cr0 := cpu.cr0 ||| cr0Ts }

def kstackTop (th : Thread T) : UInt64 := th.kstackBase + th.kstackSize

def switchTss (s : SchedState n T) (c : Fin n) (next : T) : SchedState n T :=
  s.modCpu c fun cpu => { cpu with tssRsp0 := kstackTop (s.threads next) }

/-- `context_switch(&prev->kernel_rsp, next->kernel_rsp)` -/
def contextSwitch (s : SchedState n T) (c : Fin n) (prev next : T) : SchedState n T :=
  let rsp := (s.threads next).kernelRsp
  let s := s.modThread prev fun th => { th with kernelRsp := (s.cpus c).rsp }
  s.modCpu c fun cpu => { cpu with rsp := rsp }

def doSwitch (tsc : UInt64) (s : SchedState n T) (c : Fin n) (prev next : T) : SchedState n T :=
  let s := (s.fpuSave c prev).fpuLazyDisable c
  let s := s.modCpu c fun cpu => { cpu with currentThread := next }
  let s := s.modRq c fun rq => { rq with current := next }
  let s := s.modThread next fun th => { th with state := .running, lastRunTsc := tsc }
  let s := s.switchTss c next
  let s := s.modCpu c fun cpu => { cpu with sysretKernelRsp := kstackTop (s.threads next) }
  s.contextSwitch c prev next

def threadFreeResources (s : SchedState n T) (t : T) : SchedState n T :=
  s.modThread t fun th => { th with freed := true }

def reapPendingZombie (s : SchedState n T) (c : Fin n) : SchedState n T :=
  match (s.cpus c).zombieToReap with
  | none => s
  | some z => (s.modCpu c fun cpu => { cpu with zombieToReap := none }).threadFreeResources z

/-- The start of the locked part of `schedule`: a thread that is still running goes back to
the end of its level. -/
def requeuePrev (s : SchedState n T) (c : Fin n) : SchedState n T :=
  let prev := s.current c
  if (s.threads prev).state = .running then
    let s := s.schedSetPriority prev (s.threads prev).priorityLevel.val
    let s := s.mlfqPush c (s.threads prev).priorityLevel prev
    let s := s.modThread prev fun th => { th with state := .ready }
    s.modRq c fun rq => { rq with nrRunning := rq.nrRunning + 1 }
  else s

/-- The rest of the locked part: the thread to run next, taken from the local queue, then from
another CPU, then the idle thread. The local counter goes down for a stolen thread as well. -/
def chooseNext (s : SchedState n T) (c : Fin n) : T × SchedState n T :=
  let (next, s) := s.mlfqPickNext c
  let s := s.modRq c fun rq => { rq with needsResched := false }
  let (next, s) := match next with
    | some t => (some t, s)
    | none => s.trySteal c
  match next with
  | none => ((s.rqs c).idle, s)
  | some t => (t, s.modRq c fun rq => { rq with nrRunning := rq.nrRunning - 1 })

/-- `schedule` on CPU `c` up to the release of the run-queue lock: the thread to run next. -/
def schedulePick (fuel : Nat) (now : UInt64) (c : Fin n) (s : SchedState n T) :
    Option (T × SchedState n T) :=
  ((s.reapPendingZombie c).requeuePrev c |> maybeBoost fuel now c).map fun s => s.chooseNext c

/-- `schedule` on CPU `c`; when the thread picked is the one that runs, it returns at once. -/
def schedule (fuel : Nat) (now tsc : UInt64) (c : Fin n) (s : SchedState n T) : Option (SchedState n T) :=
  let prev := s.current c
  (schedulePick fuel now c s).map fun (next, s) =>
    if next = prev then s else s.doSwitch tsc c prev next

/-! ## Ticks, blocking, waking -/

def levelQuantumMs : Fin 8 → UInt64
  | 0 => 5 | 1 => 10 | 2 => 20 | 3 => 40 | 4 => 80 | 5 => 120 | 6 => 160 | 7 => 200

/-- `sched_tick` at time-stamp `now`, with `freq` ticks a second. -/
def schedTick (freq now : UInt64) (c : Fin n) (s : SchedState n T) : SchedState n T :=
  let cur := s.current c
  if cur = (s.cpus c).idleThread then s.modCpu c fun cpu => { cpu with needResched := true }
  else
    let delta := (now - (s.threads cur).lastRunTsc) * 1000000000 / (if freq = 0 then 1 else freq)
    let s := s.modThread cur fun th =>
      { th with timeInLevelNs := th.timeInLevelNs + delta
                totalRuntimeNs := th.totalRuntimeNs + delta }
    let th := s.threads cur
    if levelQuantumMs th.priorityLevel * 1000000 ≤ th.timeInLevelNs then
      let s := s.modThread cur fun th =>
        { th with timeInLevelNs := 0
                  priorityLevel := if th.priorityLevel < 7 then th.priorityLevel + 1
                                   else th.priorityLevel }
      s.modCpu c fun cpu => { cpu with needResched := true }
    else s

def schedCheckResched (fuel : Nat) (now tsc : UInt64) (c : Fin n) (s : SchedState n T) :
    Option (SchedState n T) :=
  if (s.cpus c).needResched then
    schedule fuel now tsc c (s.modCpu c fun cpu => { cpu with needResched := false })
  else some s

def schedMarkBlocked (s : SchedState n T) (t : T) : SchedState n T :=
  s.modThread t fun th => { th with state := .blocked }

def schedWake (s : SchedState n T) (me : Fin n) (t : T) : SchedState n T :=
  if (s.threads t).state = .blocked ∨ (s.threads t).state = .sleeping then
    (s.modThread t fun th => { th with state := .ready }).schedEnqueue me t
  else s

end SchedState

end Lapis.Sched
