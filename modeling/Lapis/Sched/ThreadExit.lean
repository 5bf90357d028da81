/-
Lapis.Sched.ThreadExit — threads, wait queues and processes, and how a thread ends (task.c, waitqueue.c).

The wait node of a thread lies in the thread, so a node is named by its thread and a wait queue is a pair
of ends. The threads of a process are linked through `proc_next`. The run queues are those of
`Lapis.Sched.Scheduler`. A block of memory for a thread is `freed` while it is not allocated, before its
first thread and after `thread_free_resources`.

A function is one step, except that a thread which blocks or exits first takes the steps up to its call of
`schedule`; its CPU is then in the phase `blocking`, and `schedule` is a step of its own. The rest of
`waitqueue_wait` is a step of the thread when it runs again; `waitsIn` remembers the queue of a thread that
has that rest before it. `freedTwice` records that memory was freed which was not allocated.

The list of children that `proc_exit` gives to the init process is in `Lapis.Sched.Proc`. Locks are left
out, and so are `tid` and the name, the arguments and the files of a process, which nothing here reads.
`fuel` bounds the loops whose end the links decide.
-/
import Lapis.Sched.Fpu
import Lapis.Sched.Proc
import Lapis.Sched.SmpTheorems

namespace Lapis.Sched

open Function

/-! ## State -/

/-- `wait_node_t`; `node->thread` is the thread the node lies in. -/
structure WaitNode (T : Type) where
  next : Option T
  prev : Option T
  woken : Bool

/-- `waitqueue_t`. -/
structure WaitQueue (T : Type) where
  head : Option T
  tail : Option T

/-- What `proc_t` knows of the threads. -/
structure ProcThreads (T P : Type) where
  threads : Option T
  threadCount : UInt32
  liveThreadCount : UInt32
  state : ProcState
  exitCode : Int
  parent : Option P

structure Tasks (n : Nat) (T P Q : Type) where
  sched : SchedState n T
  phase : Fin n → Phase T
  nodes : T → WaitNode T
  blockedOn : T → Option Q
  wqs : Q → WaitQueue T
  proc : T → P
  procNext : T → Option T
  exitCode : T → Int
  procs : P → ProcThreads T P
  /-- `&proc->wait_children` -/
  waitChildren : P → Q
  initProc : Option P
  waitsIn : T → Option Q
  freedTwice : Bool

variable {n : Nat} {T P Q : Type} [DecidableEq T] [DecidableEq P] [DecidableEq Q]

namespace Tasks

def modNode (s : Tasks n T P Q) (t : T) (f : WaitNode T → WaitNode T) : Tasks n T P Q :=
  { s with nodes := update s.nodes t (f (s.nodes t)) }

def modWq (s : Tasks n T P Q) (q : Q) (f : WaitQueue T → WaitQueue T) : Tasks n T P Q :=
  { s with wqs := update s.wqs q (f (s.wqs q)) }

def modProc (s : Tasks n T P Q) (p : P) (f : ProcThreads T P → ProcThreads T P) : Tasks n T P Q :=
  { s with procs := update s.procs p (f (s.procs p)) }

/-! ## Wait queues -/

def wqLink (s : Tasks n T P Q) (q : Q) (t : T) : Tasks n T P Q :=
  let tail := (s.wqs q).tail
  let s := s.modNode t fun _ => ⟨none, tail, false⟩
  let s := match tail with
    | some u => s.modNode u fun w => { w with next := some t }
    | none => s.modWq q fun w => { w with head := some t }
  s.modWq q fun w => { w with tail := some t }

def wqUnlink (s : Tasks n T P Q) (q : Q) (t : T) : Tasks n T P Q :=
  let prev := (s.nodes t).prev
  let next := (s.nodes t).next
  let s := match prev with
    | some u => s.modNode u fun w => { w with next := next }
    | none => s.modWq q fun w => { w with head := next }
  let s := match next with
    | some u => s.modNode u fun w => { w with prev := prev }
    | none => s.modWq q fun w => { w with tail := prev }
  s.modNode t fun w => { w with next := none, prev := none }

/-- `waitqueue_wait` of the current thread of CPU `c`, up to the call of `schedule`. -/
def waitqueueWait (s : Tasks n T P Q) (c : Fin n) (q : Q) : Tasks n T P Q :=
  let self := s.sched.current c
  let s := s.wqLink q self
  { s with
    blockedOn := update s.blockedOn self (some q)
    sched := s.sched.schedMarkBlocked self
    phase := update s.phase c .blocking
    waitsIn := update s.waitsIn self (some q) }

/-- The rest of `waitqueue_wait`. -/
def waitqueueReturn (s : Tasks n T P Q) (c : Fin n) : Option (Tasks n T P Q) :=
  let self := s.sched.current c
  (s.waitsIn self).map fun q =>
    let s := if (s.nodes self).woken then s else s.wqUnlink q self
    { s with
      blockedOn := update s.blockedOn self none
      waitsIn := update s.waitsIn self none }

def schedWake (s : Tasks n T P Q) (me : Fin n) (t : T) : Tasks n T P Q :=
  { s with sched := s.sched.schedWake me t }

def waitqueueWakeOne (s : Tasks n T P Q) (me : Fin n) (q : Q) : Tasks n T P Q :=
  match (s.wqs q).head with
  | none => s
  | some t => ((s.wqUnlink q t).modNode t fun w => { w with woken := true }).schedWake me t

/-- The loop of `waitqueue_wake_all`. -/
def wakeLoop (me : Fin n) : Nat → Option T → Tasks n T P Q → Option (Tasks n T P Q)
  | 0, _, _ => none
  | _ + 1, none, s => some s
  | fuel + 1, some t, s =>
    wakeLoop me fuel (s.nodes t).next ((s.modNode t fun _ => ⟨none, none, true⟩).schedWake me t)

def waitqueueWakeAll (fuel : Nat) (s : Tasks n T P Q) (me : Fin n) (q : Q) : Option (Tasks n T P Q) :=
  wakeLoop me fuel (s.wqs q).head (s.modWq q fun _ => ⟨none, none⟩)

/-! ## Threads of a process -/

/-- `thread_create` in the block `t`, which `kzalloc` has cleared, with `thread_link_to_proc`. -/
def threadCreate (s : Tasks n T P Q) (p : P) (t : T) (kstack : UInt64) : Tasks n T P Q :=
  let s :=
    { s with
      sched := s.sched.threadCreate t kstack
      nodes := update s.nodes t ⟨none, none, false⟩
      blockedOn := update s.blockedOn t none
      proc := update s.proc t p
      exitCode := update s.exitCode t 0
      waitsIn := update s.waitsIn t none
      procNext := update s.procNext t (s.procs p).threads }
  s.modProc p fun g =>
    { g with threads := some t, threadCount := g.threadCount + 1
             liveThreadCount := g.liveThreadCount + 1 }

/-- `*pp = v`, where `pp` is `&prev->proc_next`, or `&proc->threads` for no `prev`. -/
def setProcLink (s : Tasks n T P Q) (p : P) (prev : Option T) (v : Option T) : Tasks n T P Q :=
  match prev with
  | none => s.modProc p fun g => { g with threads := v }
  | some u => { s with procNext := update s.procNext u v }

/-- The loop of `proc_unlink_thread`, where `*pp` is `cur`. -/
def unlinkLoop (s : Tasks n T P Q) (p : P) (t : T) : Nat → Option T → Option T → Option (Tasks n T P Q)
  | 0, _, _ => none
  | _ + 1, _, none => some s
  | fuel + 1, prev, some u =>
    if u = t then some (s.setProcLink p prev (s.procNext t))
    else unlinkLoop s p t fuel (some u) (s.procNext u)

def procUnlinkThread (fuel : Nat) (s : Tasks n T P Q) (p : P) (t : T) : Option (Tasks n T P Q) :=
  s.unlinkLoop p t fuel none (s.procs p).threads

/-! ## Exit -/

/-- `waitqueue_wake_all` on the queue of a process, if there is one. -/
def wakeParent (fuel : Nat) (s : Tasks n T P Q) (me : Fin n) : Option P → Option (Tasks n T P Q)
  | none => some s
  | some p => s.waitqueueWakeAll fuel me (s.waitChildren p)

def procExit (fuel : Nat) (s : Tasks n T P Q) (me : Fin n) (p : P) (code : Int) : Option (Tasks n T P Q) :=
  if (s.procs p).state = .zombie ∨ (s.procs p).state = .dead then some s
  else
    let s := s.modProc p fun g => { g with state := .zombie, exitCode := code }
    (s.wakeParent fuel me (s.procs p).parent).bind fun s => s.wakeParent fuel me s.initProc

def threadFreeResources (s : Tasks n T P Q) (t : T) : Tasks n T P Q :=
  { s with
    freedTwice := s.freedTwice || (s.sched.threads t).freed
    sched := s.sched.threadFreeResources t }

def setState (s : Tasks n T P Q) (t : T) (x : ThreadState) : Tasks n T P Q :=
  { s with sched := s.sched.modThread t fun th => { th with state := x } }

/-- `sched_exit_current` up to the call of `schedule`. -/
def schedExitCurrent (s : Tasks n T P Q) (c : Fin n) (self : T) (code : Int) : Tasks n T P Q :=
  let s := { s with exitCode := update s.exitCode self code }.setState self .zombie
  { s with
    sched := s.sched.modCpu c fun cpu => { cpu with zombieToReap := some self }
    phase := update s.phase c .blocking }

/-- The start of `thread_exit`: the thread is a zombie and its process has one live thread less. -/
def threadMarkExit (s : Tasks n T P Q) (t : T) (code : Int) : Tasks n T P Q :=
  ({ s with exitCode := update s.exitCode t code }.setState t .zombie).modProc (s.proc t) fun g =>
    if 0 < g.liveThreadCount then { g with liveThreadCount := g.liveThreadCount - 1 } else g

/-- `proc_exit` after the last thread. -/
def procExitLast (fuel : Nat) (s : Tasks n T P Q) (me : Fin n) (p : P) (code : Int) :
    Option (Tasks n T P Q) :=
  if (s.procs p).liveThreadCount = 0 then s.procExit fuel me p code else some s

/-- The part of `thread_exit` that is the same for every thread. -/
def threadLeave (fuel : Nat) (s : Tasks n T P Q) (me : Fin n) (t : T) (code : Int) :
    Option (Tasks n T P Q) :=
  ((s.threadMarkExit t code).procExitLast fuel me (s.proc t) code).bind fun s' =>
    s'.procUnlinkThread fuel (s.proc t) t

/-- `thread_exit` on CPU `c`, for the current thread up to the call of `schedule`. Another thread never
returns to `waitqueue_wait`. -/
def threadExit (fuel : Nat) (s : Tasks n T P Q) (c : Fin n) (t : T) (code : Int) :
    Option (Tasks n T P Q) :=
  (s.threadLeave fuel c t code).map fun s' =>
    if t = s.sched.current c then s'.schedExitCurrent c t code
    else { s'.threadFreeResources t with waitsIn := update s'.waitsIn t none }

/-! ## schedule -/

def schedule (fuel : Nat) (now tsc : UInt64) (c : Fin n) (s : Tasks n T P Q) : Option (Tasks n T P Q) :=
  (SchedState.schedule fuel now tsc c s.sched).map fun sched =>
    { s with
      sched := sched
      phase := update s.phase c .running
      freedTwice := s.freedTwice ||
        ((s.sched.cpus c).zombieToReap.map fun z => (s.sched.threads z).freed).getD false }

end Tasks

/-! ## Runs -/

inductive TaskOp (n : Nat) (T P Q : Type) where
  | create (p : P) (t : T) (kstack : UInt64)
  | enqueue (c : Fin n) (t : T)
  | schedule (c : Fin n) (now tsc : UInt64)
  | wait (c : Fin n) (q : Q)
  | waitReturn (c : Fin n)
  | wakeOne (c : Fin n) (q : Q)
  | wakeAll (c : Fin n) (q : Q)
  | exit (c : Fin n) (t : T) (code : Int)

namespace Tasks

def step (fuel : Nat) (op : TaskOp n T P Q) (s : Tasks n T P Q) : Option (Tasks n T P Q) :=
  match op with
  | .create p t kstack => some (s.threadCreate p t kstack)
  | .enqueue c t => some { s with sched := s.sched.schedEnqueue c t }
  | .schedule c now tsc => schedule fuel now tsc c s
  | .wait c q => some (s.waitqueueWait c q)
  | .waitReturn c => s.waitqueueReturn c
  | .wakeOne c q => some (s.waitqueueWakeOne c q)
  | .wakeAll c q => s.waitqueueWakeAll fuel c q
  | .exit c t code => s.threadExit fuel c t code

/-- The thread has memory that is not freed. -/
def Allocated (s : Tasks n T P Q) (t : T) : Prop := (s.sched.threads t).freed = false

/-- What callers do: the allocator gives out memory that is not in use, only threads that neither run nor
are queued are queued, and a function is called by the thread a CPU runs, which is not an idle thread if it
blocks or exits and is not in the middle of `waitqueue_wait`. -/
def callOk (op : TaskOp n T P Q) (s : Tasks n T P Q) : Prop :=
  match op with
  | .create _ t _ => ¬ s.Allocated t
  | .enqueue _ t => s.Allocated t ∧ ((s.sched.threads t).state = .new ∨
      (s.sched.threads t).state = .blocked ∨ (s.sched.threads t).state = .sleeping)
  | .schedule _ _ _ => True
  | .wait c _ => s.phase c = .running ∧ s.sched.current c ≠ (s.sched.rqs c).idle ∧
      s.waitsIn (s.sched.current c) = none
  | .waitReturn c => s.phase c = .running ∧ s.waitsIn (s.sched.current c) ≠ none
  | .wakeOne _ _ | .wakeAll _ _ => True
  | .exit c t _ => s.phase c = .running ∧ s.waitsIn (s.sched.current c) = none ∧ s.Allocated t ∧
      ∀ d, t ≠ (s.sched.rqs d).idle

/-- The ends and links of the wait queues. -/
def waitQueues (s : Tasks n T P Q) : Lib.LinkQueues Q T where
  next t := (s.nodes t).next
  prev t := (s.nodes t).prev
  head q := (s.wqs q).head
  tail q := (s.wqs q).tail

/-- The thread is in the list of the threads of the process. -/
def InProc (s : Tasks n T P Q) (p : P) (t : T) : Prop :=
  ∃ ts, Lib.Spine s.procNext (s.procs p).threads ts ∧ t ∈ ts

/-- No queue has the thread and no CPU runs it. -/
structure Loose (s : Tasks n T P Q) (t : T) : Prop where
  levels : ∀ i, ¬ s.sched.queues.Linked i t
  waits : ∀ q, ¬ s.waitQueues.Linked q t
  current : ∀ d, s.sched.current d ≠ t

/-- A thread other than the current one exits only while no queue has it and no CPU runs it, and a CPU
that steals a thread finds only threads that are not pinned and not running. -/
def safeOp (op : TaskOp n T P Q) (s : Tasks n T P Q) : Prop :=
  match op with
  | .exit c t _ => t = s.sched.current c ∨ s.Loose t
  | .schedule c now _ => Smp.stealsMovable (.pick c now) ⟨s.sched, s.phase⟩
  | _ => True

end Tasks

end Lapis.Sched
