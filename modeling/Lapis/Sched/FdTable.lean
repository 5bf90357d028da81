/-
Lapis.Sched.FdTable — tables of file descriptors (fd.c).

Tables and entries are at addresses, and NULL is 0; a slot of a table is `none` or the address of an
entry. The counts of references are `uint32_t`. Whether an allocation succeeds, and where, is an argument.
`held` and `tableHeld`, `opened` and `closed` are not in the source: how many references to an entry or to
a table the callers hold, how often an entry was made at an address, and how often the file or the
directory of one was closed.
-/
import Lapis.Fs.Errno
import Mathlib.Logic.Function.Basic

namespace Lapis.Sched.Fd

open Function Fs

def FD_TABLE_INITIAL : Nat := 16
def FD_TABLE_MAX : Nat := 4096

inductive FdType
  | none
  | file
  | dir
  deriving DecidableEq

/-- `fd_entry_t`, without what `fd_readdir` keeps in it. -/
structure FdEntry where
  type : FdType
  file : Nat
  dirVnode : Nat
  refcount : Nat

/-- `fd_table_t`; the capacity is the number of slots. -/
structure FdTable where
  entries : List (Option Nat)
  refcount : Nat

structure FdState where
  entries : Nat → Option FdEntry
  tables : Nat → Option FdTable
  held : Nat → Nat
  tableHeld : Nat → Nat
  opened : Nat → Nat
  closed : Nat → Nat

/-- The entry has a file or a directory to close. -/
def FdEntry.isOpen (n : FdEntry) : Bool :=
  (n.type = .file ∧ n.file ≠ 0) ∨ (n.type = .dir ∧ n.dirVnode ≠ 0)

def FdTable.slot (table : FdTable) (fd : Nat) : Option Nat := table.entries[fd]?.join

def FdTable.setSlot (table : FdTable) (fd : Nat) (x : Option Nat) : FdTable :=
  { table with entries := table.entries.set fd x }

namespace FdState

def empty : FdState :=
  ⟨fun _ => none, fun _ => none, fun _ => 0, fun _ => 0, fun _ => 0, fun _ => 0⟩

def setTable (s : FdState) (t : Nat) (table : FdTable) : FdState :=
  { s with tables := update s.tables t (some table) }

def setEntry (s : FdState) (e : Nat) (n : FdEntry) : FdState :=
  { s with entries := update s.entries e (some n) }

/-! ## References -/

def fdEntryRef (s : FdState) (e : Nat) : Option FdState :=
  if e = 0 then some s
  else do
    let n ← s.entries e
    some (s.setEntry e { n with refcount := (n.refcount + 1) % 2 ^ 32 })

/-- `fd_entry_unref`; the last one closes the file or the directory and frees the entry. -/
def fdEntryUnref (s : FdState) (e : Nat) : Option FdState :=
  if e = 0 then some s
  else do
    let n ← s.entries e
    let remaining := (n.refcount + (2 ^ 32 - 1)) % 2 ^ 32
    if 0 < remaining then some (s.setEntry e { n with refcount := remaining })
    else some { s with
      entries := update s.entries e none
      closed := if n.isOpen then update s.closed e (s.closed e + 1) else s.closed }

def fdtableRef (s : FdState) (t : Nat) : Option FdState :=
  if t = 0 then some s
  else do
    let table ← s.tables t
    some (s.setTable t { table with refcount := (table.refcount + 1) % 2 ^ 32 })

/-- The loop of `fdtable_unref`. -/
def unrefSlots : List (Option Nat) → FdState → Option FdState
  | [], s => some s
  | none :: rest, s => unrefSlots rest s
  | some e :: rest, s => do
    let s ← s.fdEntryUnref e
    unrefSlots rest s

def fdtableUnref (s : FdState) (t : Nat) : Option FdState :=
  if t = 0 then some s
  else do
    let table ← s.tables t
    let remaining := (table.refcount + (2 ^ 32 - 1)) % 2 ^ 32
    if 0 < remaining then some (s.setTable t { table with refcount := remaining })
    else do
      let s ← unrefSlots table.entries s
      some { s with tables := update s.tables t none }

/-! ## Slots -/

/-- The capacity that `fdtable_grow` chooses. -/
def newCapacity (capacity minCapacity : Nat) : Nat :=
  let twice := if capacity * 2 < minCapacity then minCapacity else capacity * 2
  if FD_TABLE_MAX < twice then FD_TABLE_MAX else twice

def fdtableGrow (table : FdTable) (minCapacity : Nat) (mem : Bool) : Except Int FdTable :=
  if FD_TABLE_MAX < minCapacity then .error (-EMFILE)
  else if ¬ mem then .error (-ENOMEM)
  else
    let capacity := newCapacity table.entries.length minCapacity
    .ok { table with
      entries := table.entries ++ List.replicate (capacity - table.entries.length) none }

/-- An entry is put into a free slot of a table. -/
def put (s : FdState) (t : Nat) (table : FdTable) (fd e : Nat) : Option (Int × FdState) := do
  let s ← (s.setTable t (table.setSlot fd (some e))).fdEntryRef e
  some (fd, s)

def fdtableInstallAt (s : FdState) (t : Nat) (fd : Int) (e : Nat) (mem : Bool) :
    Option (Int × FdState) :=
  if t = 0 ∨ fd < 0 ∨ e = 0 then some (-EINVAL, s)
  else do
    let table ← s.tables t
    let grown := if table.entries.length ≤ fd.toNat then fdtableGrow table (fd.toNat + 1) mem
      else .ok table
    match grown with
    | .error err => some (err, s)
    | .ok table =>
      if table.slot fd.toNat ≠ none then some (-EBUSY, s.setTable t table)
      else s.put t table fd.toNat e

def fdtableInstall (s : FdState) (t e : Nat) (mem : Bool) : Option (Int × FdState) :=
  if t = 0 ∨ e = 0 then some (-EINVAL, s)
  else do
    let table ← s.tables t
    match table.entries.findIdx? (· = none) with
    | some fd => s.put t table fd e
    | none =>
      match fdtableGrow table (table.entries.length + 1) mem with
      | .error err => some (err, s)
      | .ok grown => s.put t grown table.entries.length e

/-- `fdtable_get`: the entry, with a new reference, or NULL. -/
def fdtableGet (s : FdState) (t : Nat) (fd : Int) : Option (Nat × FdState) :=
  if t = 0 ∨ fd < 0 then some (0, s)
  else do
    let table ← s.tables t
    match table.slot fd.toNat with
    | none => some (0, s)
    | some e => do
      let s ← s.fdEntryRef e
      some (e, s)

def fdtableClose (s : FdState) (t : Nat) (fd : Int) : Option (Int × FdState) :=
  if t = 0 ∨ fd < 0 then some (-EINVAL, s)
  else do
    let table ← s.tables t
    match table.slot fd.toNat with
    | none => some (-EBADF, s)
    | some e => do
      let s ← (s.setTable t (table.setSlot fd.toNat none)).fdEntryUnref e
      some (EOK, s)

def fdtableDup (s : FdState) (t : Nat) (oldfd : Int) (mem : Bool) : Option (Int × FdState) := do
  let (e, s) ← s.fdtableGet t oldfd
  if e = 0 then some (-EBADF, s)
  else do
    let (newfd, s) ← s.fdtableInstall t e mem
    let s ← s.fdEntryUnref e
    some (newfd, s)

def fdtableDup2 (s : FdState) (t : Nat) (oldfd newfd : Int) (mem : Bool) : Option (Int × FdState) :=
  if newfd < 0 then some (-EINVAL, s)
  else do
    let (e, s) ← s.fdtableGet t oldfd
    if e = 0 then some (-EBADF, s)
    else if oldfd = newfd then do
      let s ← s.fdEntryUnref e
      some (newfd, s)
    else do
      let (_, s) ← s.fdtableClose t newfd
      let (ret, s) ← s.fdtableInstallAt t newfd e mem
      let s ← s.fdEntryUnref e
      some (if ret < 0 then ret else newfd, s)

/-! ## New tables -/

/-- `fdtable_create`; `table` is where the table goes, `mem` whether there is room for its slots. -/
def fdtableCreate (s : FdState) (table : Option Nat) (mem : Bool) : Nat × FdState :=
  match table with
  | none => (0, s)
  | some t =>
    if ¬ mem then (0, s) else (t, s.setTable t ⟨List.replicate FD_TABLE_INITIAL none, 1⟩)

/-- The loop of `fdtable_clone`, from a slot on. -/
def cloneSlots (t : Nat) : Nat → List (Option Nat) → FdState → Option FdState
  | _, [], s => some s
  | fd, none :: rest, s => cloneSlots t (fd + 1) rest s
  | fd, some e :: rest, s => do
    let table ← s.tables t
    let s ← (s.setTable t (table.setSlot fd (some e))).fdEntryRef e
    cloneSlots t (fd + 1) rest s

def fdtableClone (s : FdState) (src : Nat) (table : Option Nat) (mem : Bool) : Option (Nat × FdState) :=
  if src = 0 then some (s.fdtableCreate table mem)
  else
    match table with
    | none => some (0, s)
    | some t => do
      let source ← s.tables src
      if ¬ mem then some (0, s)
      else do
        let slots := source.entries
        let s ← cloneSlots t 0 slots (s.setTable t ⟨List.replicate slots.length none, 1⟩)
        some (t, s)

/-! ## Calls -/

end FdState

inductive FdOp
  | create (table : Option Nat) (mem : Bool)
  | openEntry (e : Nat) (n : FdEntry)
  | install (t e : Nat) (mem : Bool)
  | installAt (t : Nat) (fd : Int) (e : Nat) (mem : Bool)
  | get (t : Nat) (fd : Int)
  | close (t : Nat) (fd : Int)
  | dup (t : Nat) (oldfd : Int) (mem : Bool)
  | dup2 (t : Nat) (oldfd newfd : Int) (mem : Bool)
  | clone (src : Nat) (table : Option Nat) (mem : Bool)
  | tableRef (t : Nat)
  | tableUnref (t : Nat)
  | entryRef (e : Nat)
  | entryUnref (e : Nat)

namespace FdState

/-- A caller takes a reference to an entry; NULL is none. -/
def hold (s : FdState) (e : Nat) : FdState :=
  if e = 0 then s else { s with held := update s.held e (s.held e + 1) }

/-- A caller gives a reference to an entry back. -/
def drop (s : FdState) (e : Nat) : FdState :=
  if e = 0 then s else { s with held := update s.held e (s.held e - 1) }

/-- A caller takes a reference to a table; NULL is none. -/
def holdTable (s : FdState) (t : Nat) : FdState :=
  if t = 0 then s else { s with tableHeld := update s.tableHeld t (s.tableHeld t + 1) }

/-- A caller gives a reference to a table back. -/
def dropTable (s : FdState) (t : Nat) : FdState :=
  if t = 0 then s else { s with tableHeld := update s.tableHeld t (s.tableHeld t - 1) }

/-- A call: what it returns, and the state. `fd_open` makes an entry with one reference, its caller's. -/
def call (s : FdState) : FdOp → Option (Int × FdState)
  | .create table mem =>
    let (t, s) := s.fdtableCreate table mem
    some (t, s.holdTable t)
  | .openEntry e n =>
    some (e, ({ s.setEntry e { n with refcount := 1 } with
      opened := update s.opened e (s.opened e + 1) } : FdState).hold e)
  | .install t e mem => s.fdtableInstall t e mem
  | .installAt t fd e mem => s.fdtableInstallAt t fd e mem
  | .get t fd => do
    let (e, s) ← s.fdtableGet t fd
    some (e, s.hold e)
  | .close t fd => s.fdtableClose t fd
  | .dup t oldfd mem => s.fdtableDup t oldfd mem
  | .dup2 t oldfd newfd mem => s.fdtableDup2 t oldfd newfd mem
  | .clone src table mem => do
    let (t, s) ← s.fdtableClone src table mem
    some (t, s.holdTable t)
  | .tableRef t => do
    let s ← s.fdtableRef t
    some (0, s.holdTable t)
  | .tableUnref t => do
    let s ← s.fdtableUnref t
    some (0, s.dropTable t)
  | .entryRef e => do
    let s ← s.fdEntryRef e
    some (0, s.hold e)
  | .entryUnref e => do
    let s ← s.fdEntryUnref e
    some (0, s.drop e)

def step (_ : Nat) (op : FdOp) (s : FdState) : Option FdState := (s.call op).map (·.2)

end FdState

end Lapis.Sched.Fd
