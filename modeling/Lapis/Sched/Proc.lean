/-
Lapis.Sched.Proc — processes, their children and their exit codes (task.c).

A process is at an address, NULL is 0, and memory that was freed holds none. The children of a process are
linked through `sibling_next`. Loops over them need more rounds than the fuel when they do not end.
A process also has an `id`, which is not in the source: pids are given out again once `next_pid`, an
`int32_t`, has wrapped, and addresses when their memory was freed. `forker` is the `id` of the process that
forked it, `exits` has the code with which each process called `proc_exit` first, and `reaped` what
`proc_wait` delivered.
-/
import Lapis.Fs.Errno
import Lapis.Lib.Chain

namespace Lapis.Sched

open Function Fs

inductive ProcState
  | running
  | zombie
  | dead
  deriving DecidableEq

/-- `proc_t`; the memory, the files, the threads and the arguments of a process are left out. -/
structure Proc where
  pid : Int
  state : ProcState
  parent : Nat
  children : Nat
  siblingNext : Nat
  exitCode : Int
  refcount : Nat
  id : Nat
  forker : Nat
  deriving DecidableEq

structure Procs where
  procs : Nat → Option Proc
  procList : List Nat
  nextPid : Int
  initProc : Nat
  born : Nat
  exits : Nat → Option Int
  reaped : List (Nat × Int)

namespace Procs

def set (s : Procs) (a : Nat) (p : Proc) : Procs := { s with procs := update s.procs a (some p) }

/-- The link of a process to the next child of its parent. -/
def next (s : Procs) (a : Nat) : Nat := ((s.procs a).map Proc.siblingNext).getD 0

/-! ## Allocation -/

/-- `next_pid++` on an `int32_t`. -/
def allocPid (s : Procs) : Int × Procs :=
  (s.nextPid, { s with nextPid := (s.nextPid + 1).bmod (2 ^ 32) })

/-- `proc_alloc` at `a`. -/
def procAlloc (s : Procs) (a forker : Nat) : Procs :=
  let (pid, s) := s.allocPid
  { s.set a ⟨pid, .running, 0, 0, 0, 0, 1, s.born, forker⟩ with procList := a :: s.procList }

def procUnref (s : Procs) (a : Nat) : Option Procs :=
  if a = 0 then some s
  else do
    let p ← s.procs a
    let remaining := (p.refcount + (2 ^ 32 - 1)) % 2 ^ 32
    if remaining = 0 then
      some { s with procs := update s.procs a none, procList := s.procList.erase a }
    else some (s.set a { p with refcount := remaining })

/-! ## Lists of children -/

def procAddChild (s : Procs) (parent child : Nat) : Option Procs := do
  let p ← s.procs parent
  let c ← s.procs child
  let s := s.set child { c with siblingNext := p.children }
  let p ← s.procs parent
  some (s.set parent { p with children := child })

/-- `*pp = v`, where `pp` is `&prev->sibling_next`, or `&parent->children` when `prev` is NULL. -/
def setLink (s : Procs) (parent prev v : Nat) : Option Procs :=
  if prev = 0 then do
    let p ← s.procs parent
    some (s.set parent { p with children := v })
  else do
    let q ← s.procs prev
    some (s.set prev { q with siblingNext := v })

/-- The loop of `proc_remove_child`, where `*pp` is `cur`. -/
def removeLoop (s : Procs) (parent child : Nat) : Nat → Nat → Nat → Option Procs
  | 0, _, _ => none
  | fuel + 1, prev, cur =>
    if cur = 0 then some s
    else do
      let p ← s.procs cur
      if cur = child then s.setLink parent prev p.siblingNext
      else removeLoop s parent child fuel cur p.siblingNext

def procRemoveChild (fuel : Nat) (s : Procs) (parent child : Nat) : Option Procs := do
  let p ← s.procs parent
  s.removeLoop parent child fuel 0 p.children

/-! ## Fork -/

/-- The allocation in `proc_fork` that fails first: of the process, of its address space, of its table of
files or of its thread. -/
inductive ForkFailure
  | proc
  | vmm
  | fdtable
  | thread
  deriving DecidableEq

def procFork (fuel : Nat) (s : Procs) (parent child : Nat) (failure : Option ForkFailure) :
    Option (Int × Procs) :=
  if parent = 0 then some (-EINVAL, s)
  else if failure = some .proc then some (-ENOMEM, s)
  else do
    let p ← s.procs parent
    let s := s.procAlloc child p.id
    if failure = some .vmm ∨ failure = some .fdtable then do
      let s ← s.procUnref child
      some (-ENOMEM, s)
    else do
      let c ← s.procs child
      let s ← (s.set child { c with parent := parent }).procAddChild parent child
      if failure = some .thread then do
        let s ← s.procRemoveChild fuel parent child
        let s ← s.procUnref child
        some (-ENOMEM, s)
      else some (c.pid, { s with born := s.born + 1 })

/-! ## Exit -/

/-- The loop of `proc_exit`: the children go to the init process. -/
def exitLoop : Nat → Procs → Nat → Option Procs
  | 0, _, _ => none
  | fuel + 1, s, child =>
    if child = 0 then some s
    else do
      let c ← s.procs child
      let s := s.set child { c with parent := s.initProc }
      let added := if s.initProc ≠ 0 then s.procAddChild s.initProc child else some s
      let s ← added
      exitLoop fuel s c.siblingNext

/-- `waitqueue_wake_all` on the queue `wait_children` of a process. -/
def wakeWaiters (s : Procs) (a : Nat) : Option Procs :=
  if a = 0 then some s
  else do
    let _ ← s.procs a
    some s

def procExit (fuel : Nat) (s : Procs) (a : Nat) (code : Int) : Option Procs := do
  let p ← s.procs a
  if p.state = .zombie ∨ p.state = .dead then some s
  else do
    let s := { s.set a { p with state := .zombie, exitCode := code } with
      exits := update s.exits p.id (some code) }
    let s ← exitLoop fuel s p.children
    let p ← s.procs a
    let s := s.set a { p with children := 0 }
    let s ← s.wakeWaiters p.parent
    s.wakeWaiters s.initProc

/-! ## Wait -/

inductive WaitResult
  | returned (ret : Int) (status : Option Int)
  | blocked
  deriving DecidableEq

def Matches (pid : Int) (p : Proc) : Prop := pid = -1 ∨ p.pid = pid

instance (pid : Int) (p : Proc) : Decidable (Matches pid p) := inferInstanceAs (Decidable (_ ∨ _))

/-- The first loop of `proc_wait`: a zombie that matches, and the child before it. -/
def findLoop (s : Procs) (pid : Int) : Nat → Nat → Nat → Option (Option (Nat × Nat))
  | 0, _, _ => none
  | fuel + 1, prev, iter =>
    if iter = 0 then some none
    else do
      let p ← s.procs iter
      if Matches pid p ∧ p.state = .zombie then some (some (prev, iter))
      else findLoop s pid fuel iter p.siblingNext

/-- The second loop of `proc_wait`: whether a child matches. -/
def matchLoop (s : Procs) (pid : Int) : Nat → Nat → Option Bool
  | 0, _ => none
  | fuel + 1, iter =>
    if iter = 0 then some false
    else do
      let p ← s.procs iter
      if Matches pid p then some true else matchLoop s pid fuel p.siblingNext

/-- One pass of `proc_wait`, up to where it would wait on the queue. -/
def procWait (fuel : Nat) (s : Procs) (parent : Nat) (pid : Int) : Option (WaitResult × Procs) := do
  let p ← s.procs parent
  let found ← s.findLoop pid fuel 0 p.children
  match found with
  | some (prev, a) => do
    let c ← s.procs a
    let s ← s.setLink parent prev c.siblingNext
    let c ← s.procs a
    let s ← ({ s.set a { c with state := .dead } with
      reaped := (c.id, c.exitCode) :: s.reaped } : Procs).procUnref a
    some (.returned c.pid (some c.exitCode), s)
  | none => do
    let hasMatchingChild ← s.matchLoop pid fuel p.children
    if hasMatchingChild then some (.blocked, s) else some (.returned (-ECHILD) none, s)

/-! ## Runs -/

end Procs

inductive ProcOp
  | fork (parent child : Nat) (failure : Option Procs.ForkFailure)
  | exit (a : Nat) (code : Int)
  | wait (parent : Nat) (pid : Int)

namespace Procs

/-- Nothing but the init process. -/
def start (a : Nat) (pid : Int) : Procs where
  procs := update (fun _ => none) a (some ⟨pid, .running, 0, 0, 0, 0, 1, 0, 0⟩)
  procList := [a]
  nextPid := pid + 1
  initProc := a
  born := 1
  exits := fun _ => none
  reaped := []

def step (fuel : Nat) (op : ProcOp) (s : Procs) : Option Procs :=
  match op with
  | .fork parent child failure => (s.procFork fuel parent child failure).map (·.2)
  | .exit a code => s.procExit fuel a code
  | .wait parent pid => (s.procWait fuel parent pid).map (·.2)

end Procs

end Lapis.Sched
