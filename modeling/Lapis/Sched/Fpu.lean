/-
Lapis.Sched.Fpu — the FPU registers of a CPU and the threads that share them.

`fpuSave` and `fpuLazyDisable` are parts of `doSwitch` in `Lapis.Sched.Scheduler`; here are the other
two places that touch `thread->fpu`: the handler of the trap a thread takes when it uses the FPU while
`CR0.TS` is set, and `thread_fork_from_syscall`, which copies the whole `fpu_state_t` of the parent.

An FPU instruction is a function on the registers. A run takes place on one CPU. Beside the state of
the kernel it carries the registers each thread should see, as if it had an FPU of its own:
they start at zero, or with those of the parent, and change only by the thread's own instructions.
Allocations succeed; a call that fails changes neither.
-/
import Lapis.Lib.Run
import Lapis.Sched.SchedBoot

namespace Lapis.Sched

open Function

variable {n : Nat} {T : Type} [DecidableEq T]

namespace SchedState

/-! ## The trap -/

def zeroRegion : FpuRegion := fun _ => 0

/-- `CR0.TS` -/
def taskSwitched (s : SchedState n T) (c : Fin n) : Bool := (s.cpus c).cr0 &&& cr0Ts ≠ 0

def setFpu (s : SchedState n T) (t : T) (f : FpuState → FpuState) : SchedState n T :=
  s.modThread t fun th => { th with fpu := f th.fpu }

/-- `fxrstor (t->fpu.region)` -/
def fxrstor (s : SchedState n T) (c : Fin n) (t : T) : SchedState n T :=
  s.modCpu c fun cpu => { cpu with fpuRegs := (s.threads t).fpu.region }

def nmHandler (s : SchedState n T) (c : Fin n) : SchedState n T :=
  let s := s.modCpu c fun cpu => { cpu with cr0 := cpu.cr0 &&& ~~~cr0Ts }
  let cur := s.current c
  let s :=
    if !(s.threads cur).fpu.used then
      (s.setFpu cur fun f => { f with used := true, region := zeroRegion }).fxrstor c cur
    else s.fxrstor c cur
  s.setFpu cur fun f => { f with dirty := true }

/-- The state in which an FPU instruction is executed: the trap has been taken if `TS` was set. -/
def fpuReady (s : SchedState n T) (c : Fin n) : SchedState n T :=
  if s.taskSwitched c then s.nmHandler c else s

def fpuInstr (f : FpuRegion → FpuRegion) (s : SchedState n T) (c : Fin n) : SchedState n T :=
  (s.fpuReady c).modCpu c fun cpu => { cpu with fpuRegs := f cpu.fpuRegs }

/-! ## New threads -/

def kstackSize : UInt64 := 64 * 0x1000

/-- What `build_bootstrap_frame` returns: eight words below the top. -/
def bootstrapFrame (top : UInt64) : UInt64 := top - 64

/-- `thread_create` in the block `t`, with a stack at `kstack`. -/
def threadCreate (s : SchedState n T) (t : T) (kstack : UInt64) : SchedState n T :=
  s.modThread t fun _ =>
    { state := .new
      priorityLevel := 0
      timeInLevelNs := 0
      lastRunTsc := 0
      totalRuntimeNs := 0
      lastCpu := -1
      pinnedCpu := -1
      kstackBase := kstack
      kstackSize := kstackSize
      kernelRsp := bootstrapFrame ((kstack + kstackSize) &&& ~~~0xF)
      fpu := ⟨zeroRegion, false, false⟩
      rqNext := none
      rqPrev := none
      freed := false }

def sizeofContext : UInt64 := 27 * 8

def threadForkFromSyscall (s : SchedState n T) (parent child : T) (kstack : UInt64) : SchedState n T :=
  s.modThread child fun _ =>
    { state := .new
      priorityLevel := (s.threads parent).priorityLevel
      timeInLevelNs := 0
      lastRunTsc := 0
      totalRuntimeNs := 0
      lastCpu := -1
      pinnedCpu := -1
      kstackBase := kstack
      kstackSize := kstackSize
      kernelRsp := bootstrapFrame (kstack + kstackSize - sizeofContext)
      fpu := (s.threads parent).fpu
      rqNext := none
      rqPrev := none
      freed := false }

end SchedState

/-! ## Runs -/

inductive FpuOp (T : Type) where
  | create (t : T) (kstack : UInt64)
  | fork (parent child : T) (kstack : UInt64)
  | switch (tsc : UInt64) (next : T)
  | instr (f : FpuRegion → FpuRegion)

structure FpuRun (n : Nat) (T : Type) where
  sched : SchedState n T
  /-- The threads there are. -/
  live : T → Bool
  /-- The registers a thread should see. -/
  view : T → FpuRegion

namespace FpuRun

def step (c : Fin n) (_ : Nat) (op : FpuOp T) (r : FpuRun n T) : Option (FpuRun n T) :=
  match op with
  | .create t kstack => some
    { sched := r.sched.threadCreate t kstack
      live := update r.live t true
      view := update r.view t SchedState.zeroRegion }
  | .fork parent child kstack => some
    { sched := r.sched.threadForkFromSyscall parent child kstack
      live := update r.live child true
      view := update r.view child (r.view parent) }
  | .switch tsc next => some { r with sched := r.sched.doSwitch tsc c (r.sched.current c) next }
  | .instr f => some
    { r with
      sched := r.sched.fpuInstr f c
      view := update r.view (r.sched.current c) (f (r.view (r.sched.current c))) }

/-- A block that is allocated is not in use, and a switch is to another thread there is. -/
def Possible (c : Fin n) (op : FpuOp T) (r : FpuRun n T) : Prop :=
  match op with
  | .create t _ => r.live t = false
  | .fork parent child _ => r.live parent = true ∧ r.live child = false
  | .switch _ next => r.live next = true ∧ next ≠ r.sched.current c
  | .instr _ => True

/-- The parent has not used the FPU since it was switched to. -/
def ForksSaved (op : FpuOp T) (r : FpuRun n T) : Prop :=
  match op with
  | .fork parent _ _ => (r.sched.threads parent).fpu.dirty = false
  | _ => True

/-- The registers an FPU instruction of the current thread finds. -/
def found (c : Fin n) (r : FpuRun n T) : FpuRegion := ((r.sched.fpuReady c).cpus c).fpuRegs

/-- The state after `sched_fpu_init`, with one thread, which runs. -/
structure Start (c : Fin n) (r : FpuRun n T) : Prop where
  taskSwitched : r.sched.taskSwitched c = true
  live : ∀ t, r.live t = true ↔ t = r.sched.current c
  fpu : (r.sched.threads (r.sched.current c)).fpu = ⟨SchedState.zeroRegion, false, false⟩
  view : r.view (r.sched.current c) = SchedState.zeroRegion

end FpuRun

end Lapis.Sched
