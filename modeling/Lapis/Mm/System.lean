/-
Lapis.Mm.System — the memory manager as a system that takes one operation after another.

An operation is a call of an entry point of vmm.c or an access of a program to its memory. An
access is what the processor does with it: a walk of the page table, the check of the leaf, the
load or store, and on a fault a call of `vmm_pf_handler` after which the access is made once
more. The walk checks the leaf only: the entries above it always allow writing, and leaving the
user bit out admits more accesses, those the kernel makes in a program's name. Memory is read and
written a word at a time; a program that stores a byte stores a word that differs in that byte.
-/
import Lapis.Lib.Run
import Lapis.Mm.Vmm

namespace Lapis.Mm

open Function Lib

namespace Phys

/-- The leaf entry the processor finds for an address. -/
def translate (s : Phys) (pt : Pfn) (vaddr : Nat) : Option (BitVec 64) :=
  match s.leafEntry pt vaddr 0 with
  | (none, _) => none
  | (some (table, i), s) =>
    if has (s.mem table i) pflagPresent then some (s.mem table i) else none

end Phys

/-- The frame a leaf entry points to. -/
def leafFrame (entry : BitVec 64) : Pfn := frameOf (entry &&& pageFrameMask)

/-- The word of its page an address lies in. -/
def wordIndex (vaddr : Nat) : Fin 512 := Fin.ofNat 512 (vaddr >>> 3)

namespace MmState

/-- The leaf entry of an address in an address space. -/
def entryAt (s : MmState) (id vaddr : Nat) : Option (BitVec 64) :=
  (s.vmms id).bind fun vmm => s.phys.translate vmm.pml4 vaddr

/-- A load, if the page is mapped. -/
def load (s : MmState) (id vaddr : Nat) : Option (BitVec 64) :=
  (s.entryAt id vaddr).map fun e => s.phys.mem (leafFrame e) (wordIndex vaddr)

/-- A store, if the page is mapped writable. -/
def store (s : MmState) (id vaddr : Nat) (value : BitVec 64) : Option MmState :=
  match s.entryAt id vaddr with
  | none => none
  | some e =>
    if has e pflagWrite then
      some (s.modPhys fun phys => phys.writeEntry (leafFrame e) (wordIndex vaddr) value)
    else none

/-- A load with the fault it may cause: the word read, `none` if the fault is fatal. The error
code is that of a read by the kernel. -/
def read (s : MmState) (id vaddr : Nat) : Option (BitVec 64) × MmState :=
  match s.load id vaddr with
  | some w => (some w, s)
  | none =>
    match s.vmmPfHandler id vaddr 0 with
    | (err, s) => if err = eok then (s.load id vaddr, s) else (none, s)

/-- A store with the fault it may cause. -/
def write (s : MmState) (id vaddr : Nat) (value : BitVec 64) : MmState :=
  match s.store id vaddr value with
  | some s => s
  | none =>
    let code := pfWrite ||| pfUser ||| (if (s.entryAt id vaddr).isSome then pfPresent else 0)
    match s.vmmPfHandler id vaddr code with
    | (err, s) => if err = eok then (s.store id vaddr value).getD s else s

end MmState

/-- The operations. Bases, sizes and addresses are 64-bit values. -/
inductive MmOp
  | create
  | map (id : Nat) (base size : UInt64) (flags : BitVec 32)
  | unmap (id : Nat) (base size : UInt64)
  | protect (id : Nat) (base size : UInt64) (flags : BitVec 32)
  | fork (id : Nat)
  | fault (id : Nat) (addr : UInt64) (code : BitVec 64)
  | write (id : Nat) (addr : UInt64) (value : BitVec 64)
  | destroy (id : Nat)
  deriving DecidableEq

namespace MmState

/-- The state after an operation, `none` if the operation does not return. -/
def step (s : MmState) : MmOp → Option MmState
  | .create => some s.vmmCreate.2
  | .map id base size flags => (s.vmmMap id base.toNat size.toNat flags).map (·.2)
  | .unmap id base size => some (s.vmmUnmap id base.toNat size.toNat).2
  | .protect id base size flags => (s.vmmProtect id base.toNat size.toNat flags).map (·.2)
  | .fork id => some (s.vmmFork id).2
  | .fault id addr code => some (s.vmmPfHandler id addr.toNat code).2
  | .write id addr value => some (s.write id addr.toNat value)
  | .destroy id => some (s.vmmDestroy id)

end MmState

/-- No condition on the operations. -/
def AnyOp (_ : MmOp) (_ : MmState) : Prop := True

instance (op : MmOp) (s : MmState) : Decidable (AnyOp op s) := .isTrue trivial

/-- The states reached from `s₀` by operations that meet the condition `ok`. -/
abbrev Reaches (ok : MmOp → MmState → Prop) (s₀ : MmState) : MmState → Prop :=
  Lapis.Lib.Run (fun _ op s => s.step op) ok s₀

/-- Executes a list of operations, checking the condition of each. -/
def perform (ok : MmOp → MmState → Prop) [∀ op s, Decidable (ok op s)] (ops : List MmOp)
    (s : MmState) : Option MmState :=
  Lapis.Lib.exec (fun _ op s => s.step op) ok 0 ops s

theorem Reaches.of_perform {ok : MmOp → MmState → Prop} [∀ op s, Decidable (ok op s)]
    {ops : List MmOp} {s0 s : MmState} (h : perform ok ops s0 = some s) : Reaches ok s0 s :=
  Lapis.Lib.Run.of_exec .init h

/-- What a computed execution shows of the state it ends in. -/
theorem Reaches.exists_of_perform {α : Type} (ok : MmOp → MmState → Prop)
    [∀ op s, Decidable (ok op s)] (ops : List MmOp) {s0 : MmState} (view : MmState → α) {a : α}
    (h : (perform ok ops s0).map view = some a) : ∃ s, Reaches ok s0 s ∧ view s = a := by
  obtain ⟨s, hs, hview⟩ := Option.map_eq_some_iff.mp h
  exact ⟨s, .of_perform hs, hview⟩

end Lapis.Mm
