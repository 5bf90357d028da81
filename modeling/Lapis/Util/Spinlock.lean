/-
Lapis.Util.Spinlock — a spinlock that masks interrupts (spinlock.c), step by step.

Any number of CPUs acquire and release one lock with `irq_lock` set. Every access to the lock or to the
flags of a CPU is a step of its own, and the steps of the CPUs interleave freely. The two checks of the
owner only write to the log. `entry` is not in the source: it keeps the flags a CPU had when it began to
acquire the lock.
-/
import Mathlib.Data.Fintype.Basic
import Mathlib.Logic.Function.Basic

namespace Lapis.Util.Spinlock

open Function

/-- Bit 9 of `rflags`. -/
def interruptFlag (rflags : BitVec 64) : Bool := rflags.getLsbD 9

/-- `_cli`. -/
def cli (rflags : BitVec 64) : BitVec 64 := rflags &&& ~~~ 0x200#64

/-- What a CPU has done last: nothing with the lock, then the steps of `spinlock_acquire` and those of
`spinlock_release`. -/
inductive Pc
  | idle
  | saved
  | masked
  | spinning
  | won
  | holding
  | cleared
  | stored
  deriving DecidableEq

structure Cpu where
  pc : Pc
  rflags : BitVec 64
  entry : BitVec 64

/-- The lock and the CPUs; an owner of -1 is `none`. -/
structure State (κ : Type) where
  locked : Bool
  owner : Option κ
  rflags : BitVec 64
  cpus : κ → Cpu

/-- A step of a CPU. `setRflags` is code outside `spinlock_acquire` and `spinlock_release`. -/
inductive Op (κ : Type)
  | setRflags (c : κ) (rflags : BitVec 64)
  | save (c : κ)
  | cli (c : κ)
  | check (c : κ)
  | compareExchange (c : κ)
  | setOwner (c : κ)
  | clearOwner (c : κ)
  | store (c : κ)
  | restore (c : κ)

variable {κ : Type} [DecidableEq κ]

/-- All CPUs are away from the lock. -/
def init (rflags : κ → BitVec 64) : State κ := ⟨false, none, 0, fun c => ⟨.idle, rflags c, 0⟩⟩

/-- A CPU goes on. -/
def State.moveTo (s : State κ) (c : κ) (pc : Pc) : State κ :=
  { s with cpus := update s.cpus c { s.cpus c with pc := pc } }

def step (_ : Nat) (op : Op κ) (s : State κ) : Option (State κ) :=
  match op with
  | .setRflags c rflags =>
    -- the interrupt flag is left alone while the lock is acquired, held and released
    if (s.cpus c).pc = .idle ∨ interruptFlag rflags = interruptFlag (s.cpus c).rflags then
      some { s with cpus := update s.cpus c { s.cpus c with rflags := rflags } }
    else none
  | .save c =>
    if (s.cpus c).pc = .idle then
      some { s with
        rflags := (s.cpus c).rflags
        cpus := update s.cpus c ⟨.saved, (s.cpus c).rflags, (s.cpus c).rflags⟩ }
    else none
  | .cli c =>
    if (s.cpus c).pc = .saved then
      some { s with
        cpus := update s.cpus c { s.cpus c with pc := .masked, rflags := cli (s.cpus c).rflags } }
    else none
  | .check c => if (s.cpus c).pc = .masked then some (s.moveTo c .spinning) else none
  | .compareExchange c =>
    if (s.cpus c).pc = .spinning then
      if s.locked then some s else some { s.moveTo c .won with locked := true }
    else none
  | .setOwner c =>
    if (s.cpus c).pc = .won then some { s.moveTo c .holding with owner := some c } else none
  | .clearOwner c =>
    if (s.cpus c).pc = .holding then some { s.moveTo c .cleared with owner := none } else none
  | .store c =>
    if (s.cpus c).pc = .cleared then some { s.moveTo c .stored with locked := false } else none
  | .restore c =>
    if (s.cpus c).pc = .stored then
      some { s with cpus := update s.cpus c { s.cpus c with pc := .idle, rflags := s.rflags } }
    else none

end Lapis.Util.Spinlock
