/-
Lapis.Sched.WaitExit — a parent in `proc_wait` and its exiting children (task.c, waitqueue.c).

The steps are those between two locks: the scan of the children under `parent->lock`, the link-and-block
of `waitqueue_wait` under the lock of the wait queue, its way out after it was woken, the state change of
`proc_exit` under the lock of the child, and each `waitqueue_wake_all`. The parent is the only thread that
waits on its queue. `proc_exit` wakes the queue of the parent, and then that of the init process, which is
the same one when the parent is init.
-/
import Mathlib.Logic.Function.Basic

namespace Lapis.Sched.WaitExit

open Function

/-- How far a child is in `proc_exit`. -/
inductive ExitPhase
  | running
  | zombie
  | wokeParent
  | wokeInit
  deriving DecidableEq

structure Child where
  pid : Int
  phase : ExitPhase

/-- Where the parent is; `pid` is the argument `child_pid`. `linking` is between the scan and
`waitqueue_wait`, `waiting` between the link-and-block and the second part of `waitqueue_wait`. -/
inductive ParentPc
  | outside
  | scanning (pid : Int)
  | linking (pid : Int)
  | waiting (pid : Int)
  deriving DecidableEq

/-- `linked` says whether the wait node of the parent is in the queue, `woken` is its field, and
`blocked` is the state THREAD_BLOCKED of the parent's thread. -/
structure State (κ : Type) where
  children : List κ
  child : κ → Child
  pc : ParentPc
  linked : Bool
  woken : Bool
  blocked : Bool

inductive Op (κ : Type)
  | callWait (pid : Int)
  | scan
  | linkAndBlock
  | resume
  | exit (c : κ)
  | wakeParent (c : κ)
  | wakeInit (c : κ)

variable {κ : Type}

def State.Matches (s : State κ) (pid : Int) (c : κ) : Prop := pid = -1 ∨ (s.child c).pid = pid

instance (s : State κ) (pid : Int) (c : κ) : Decidable (s.Matches pid c) :=
  inferInstanceAs (Decidable (_ ∨ _))

/-- PROC_ZOMBIE. -/
def State.Zombie (s : State κ) (c : κ) : Prop := (s.child c).phase ≠ .running

instance (s : State κ) (c : κ) : Decidable (s.Zombie c) := inferInstanceAs (Decidable (_ ≠ _))

/-- `waitqueue_wake_all` on the queue of the parent. -/
def State.wakeAll (s : State κ) : State κ :=
  if s.linked then { s with linked := false, woken := true, blocked := false } else s

variable [DecidableEq κ]

def State.setPhase (s : State κ) (c : κ) (phase : ExitPhase) : State κ :=
  { s with child := update s.child c { s.child c with phase := phase } }

/-- The children at the start, the parent outside `proc_wait`. -/
def init (children : List κ) (child : κ → Child) : State κ :=
  ⟨children, child, .outside, false, false, false⟩

/-- The scan of `proc_wait` under `parent->lock`. -/
def State.scan (s : State κ) : Option (State κ) :=
  match s.pc with
  | .scanning pid =>
    match s.children.find? fun c => decide (s.Matches pid c ∧ s.Zombie c) with
    -- the child is unlinked and its pid returned
    | some c => some { s with children := s.children.erase c, pc := .outside }
    | none =>
      if ∃ c ∈ s.children, s.Matches pid c then some { s with pc := .linking pid }
      else some { s with pc := .outside }
  | _ => none

/-- `waitqueue_wait` up to the release of the lock. -/
def State.linkAndBlock (s : State κ) : Option (State κ) :=
  match s.pc with
  | .linking pid => some { s with pc := .waiting pid, linked := true, woken := false, blocked := true }
  | _ => none

/-- The rest of `waitqueue_wait`, when the thread runs again. -/
def State.resume (s : State κ) : Option (State κ) :=
  match s.pc with
  | .waiting pid =>
    if s.blocked then none
    else some { s with pc := .scanning pid, linked := s.linked && s.woken }
  | _ => none

/-- A step; `isInit` says whether the parent is the init process. -/
def step (isInit : Bool) (_ : Nat) (op : Op κ) (s : State κ) : Option (State κ) :=
  match op with
  | .callWait pid => if s.pc = .outside then some { s with pc := .scanning pid } else none
  | .scan => s.scan
  | .linkAndBlock => s.linkAndBlock
  | .resume => s.resume
  | .exit c => if (s.child c).phase = .running then some (s.setPhase c .zombie) else none
  | .wakeParent c =>
    if (s.child c).phase = .zombie then some (s.setPhase c .wokeParent).wakeAll else none
  | .wakeInit c =>
    if (s.child c).phase = .wokeParent then
      some (if isInit then (s.setPhase c .wokeInit).wakeAll else s.setPhase c .wokeInit)
    else none

end Lapis.Sched.WaitExit
