/-
Lapis.Sched.FdTableTheorems — what the functions of fd.c do to the tables and the counts.

A table is seen as the map from its descriptors to entries (`maps`). `Counted s cnt` says that the entries
that are live have `cnt` references each and the others none, and that whatever was opened is closed when
its entry is gone; it does not say where the references are, so that it also holds in the middle of a
function that has one in its hand. Every function is described by how it changes the maps and `cnt`.
-/
import Lapis.Lib.RefCount
import Lapis.Sched.FdTable

namespace Lapis.Sched.Fd

open Function List Option Fs Lib

/-! ## Slots of a table -/

section Table

variable {table grown : FdTable} {fd : Nat} {x : Option Nat} {mem : Bool}

theorem slot_of_le (h : table.entries.length ≤ fd) : table.slot fd = none := by
  rw [FdTable.slot, List.getElem?_eq_none h]
  rfl

theorem lt_of_slot {e : Nat} (h : table.slot fd = some e) : fd < table.entries.length := by
  by_contra hle
  simp [slot_of_le (Nat.le_of_not_lt hle)] at h

theorem slot_setSlot (h : fd < table.entries.length) (x : Option Nat) :
    (table.setSlot fd x).slot = update table.slot fd x := by
  funext j
  by_cases hj : j = fd
  · rw [hj, update_self, FdTable.slot, FdTable.setSlot, List.getElem?_set_self h]
    rfl
  · rw [update_of_ne hj, FdTable.slot, FdTable.setSlot, List.getElem?_set_ne (fun h => hj h.symm)]
    rfl

/-- Slots that are added are free. -/
theorem slot_append_replicate (table : FdTable) (k : Nat) :
    ({ table with entries := table.entries ++ List.replicate k none } : FdTable).slot = table.slot := by
  funext j
  by_cases hj : j < table.entries.length
  · rw [FdTable.slot, List.getElem?_append_left hj]
    rfl
  · have hle := Nat.le_of_not_lt hj
    rw [slot_of_le hle, FdTable.slot, List.getElem?_append_right hle]
    cases hget : (List.replicate k (none : Option Nat))[j - table.entries.length]? with
    | none => rfl
    | some y => rw [(mem_replicate.mp (List.mem_of_getElem? hget)).2]; rfl

theorem newCapacity_bounds (capacity : Nat) {minCapacity : Nat} (hmin : minCapacity ≤ FD_TABLE_MAX) :
    minCapacity ≤ FdState.newCapacity capacity minCapacity ∧
      FdState.newCapacity capacity minCapacity ≤ FD_TABLE_MAX := by
  unfold FdState.newCapacity
  dsimp only
  split <;> split <;> omega

theorem fdtableGrow_ok {minCapacity : Nat} (hlt : table.entries.length < minCapacity)
    (h : FdState.fdtableGrow table minCapacity mem = .ok grown) :
    grown.slot = table.slot ∧ minCapacity ≤ grown.entries.length ∧
      grown.entries.length ≤ FD_TABLE_MAX ∧ grown.refcount = table.refcount := by
  unfold FdState.fdtableGrow at h
  split at h
  · cases h
  · case _ hmax =>
    split at h
    · cases h
    · cases h
      obtain ⟨hmin, hle⟩ := newCapacity_bounds table.entries.length
        (Nat.le_of_not_lt hmax)
      refine ⟨slot_append_replicate table _, ?_, ?_, rfl⟩ <;>
        rw [length_append, length_replicate] <;> omega

theorem fdtableGrow_error {minCapacity : Nat} {err : Int}
    (h : FdState.fdtableGrow table minCapacity mem = .error err) :
    err = -EMFILE ∧ FD_TABLE_MAX < minCapacity ∨
      err = -ENOMEM ∧ mem = false ∧ minCapacity ≤ FD_TABLE_MAX := by
  unfold FdState.fdtableGrow at h
  split at h
  · case _ hmax =>
    cases h
    exact .inl ⟨rfl, hmax⟩
  · case _ hmax =>
    split at h
    · case _ hmem =>
      cases h
      exact .inr ⟨rfl, eq_false_of_ne_true hmem, Nat.le_of_not_lt hmax⟩
    · cases h

theorem slot_eq_getElem (h : fd < table.entries.length) : table.slot fd = table.entries[fd] := by
  rw [FdTable.slot, List.getElem?_eq_getElem h]
  rfl

/-- The slot that `fdtable_install` finds is the first free one. -/
theorem findIdx_some (h : table.entries.findIdx? (· = none) = some fd) :
    fd < table.entries.length ∧ table.slot fd = none ∧ ∀ j, j < fd → table.slot j ≠ none := by
  obtain ⟨hlt, hfree, hbefore⟩ := List.findIdx?_eq_some_iff_getElem.mp h
  refine ⟨hlt, ?_, fun j hj => ?_⟩
  · rw [slot_eq_getElem hlt]
    exact of_decide_eq_true hfree
  · rw [slot_eq_getElem (Nat.lt_trans hj hlt)]
    exact fun hnone => hbefore j hj (decide_eq_true hnone)

theorem findIdx_none (h : table.entries.findIdx? (· = none) = none) {j : Nat}
    (hj : j < table.entries.length) : table.slot j ≠ none := by
  rw [slot_eq_getElem hj]
  exact of_decide_eq_false (List.findIdx?_eq_none_iff.mp h _ (getElem_mem hj))

end Table

namespace FdState

variable {s s' : FdState} {cnt : Nat → Nat} {t e fd : Nat} {table : FdTable}

/-! ## Maps -/

/-- The tables as maps. -/
def maps (s : FdState) (t : Nat) : Option (Nat → Option Nat) := (s.tables t).map FdTable.slot

/-- All slots. -/
def slots (s : FdState) (k : Nat × Nat) : Option Nat := (s.maps k.1).bind (· k.2)

theorem maps_eq (h : s.tables t = some table) : s.maps t = some table.slot := by rw [maps, h]; rfl

theorem setTable_self (s : FdState) (t : Nat) (table : FdTable) :
    (s.setTable t table).tables t = some table := update_self ..

theorem maps_update {v : Option FdTable} (h : s'.tables = update s.tables t v) :
    s'.maps = update s.maps t (v.map FdTable.slot) := by
  have hcomp := comp_update (Option.map FdTable.slot) s.tables t v
  rwa [← h] at hcomp

theorem slots_congr (h : s'.maps = s.maps) : s'.slots = s.slots := by
  unfold slots
  rw [h]

/-- One slot of one map is all that changes. -/
theorem slots_update {m : Nat → Option Nat} {x : Option Nat} (hm : s.maps t = some m)
    (h : s'.maps = update s.maps t (some (update m fd x))) : s'.slots = update s.slots (t, fd) x := by
  funext ⟨t', j⟩
  unfold slots
  rw [h]
  by_cases ht : t' = t
  · subst ht
    by_cases hj : j = fd
    · subst hj
      simp
    · rw [update_of_ne (fun hc => hj (Prod.mk.inj hc).2)]
      simp [hj, hm]
  · rw [update_of_ne (fun hc => ht (Prod.mk.inj hc).1)]
    simp [ht]

/-! ## Counts -/

structure Counted (s : FdState) (cnt : Nat → Nat) : Prop where
  live : ∀ e n, s.entries e = some n →
    n.refcount = cnt e ∧ 0 < cnt e ∧ cnt e < 2 ^ 32 ∧ n.isOpen = true ∧ e ≠ 0
  dead : ∀ e, s.entries e = none → cnt e = 0
  closed : ∀ e, s.opened e = s.closed e + if (s.entries e).isSome then 1 else 0

/-- What holds the references is the same. -/
def SameHolders (s s' : FdState) : Prop :=
  s'.tables = s.tables ∧ s'.held = s.held ∧ s'.tableHeld = s.tableHeld

section

variable (h : s.Counted cnt)

include h

theorem Counted.congr (hentries : s'.entries = s.entries)
    (hopened : s'.opened = s.opened) (hclosed : s'.closed = s.closed) : s'.Counted cnt := by
  refine ⟨?_, ?_, ?_⟩
  · rw [hentries]
    exact h.live
  · rw [hentries]
    exact h.dead
  · rw [hentries, hopened, hclosed]
    exact h.closed

theorem Counted.entry (hpos : 0 < cnt e) : ∃ n, s.entries e = some n := by
  cases hn : s.entries e with
  | none =>
    simp [h.dead e hn] at hpos
  | some n => exact ⟨n, rfl⟩

/-- One entry changes, is made or goes. -/
theorem Counted.set {x : Option FdEntry} {c : Nat} (hentries : s'.entries = update s.entries e x)
    (hsome : ∀ n, x = some n → n.refcount = c ∧ 0 < c ∧ c < 2 ^ 32 ∧ n.isOpen = true ∧ e ≠ 0)
    (hnone : x = none → c = 0) (hself : s'.opened e = s'.closed e + if x.isSome then 1 else 0)
    (hother : ∀ e', e' ≠ e → s'.opened e' = s.opened e' ∧ s'.closed e' = s.closed e') :
    s'.Counted (update cnt e c) := by
  refine ⟨fun e' n hn => ?_, fun e' hn => ?_, fun e' => ?_⟩ <;> by_cases he : e' = e
  · subst he
    rw [hentries, update_self] at hn
    rw [update_self]
    exact hsome n hn
  · rw [hentries, update_of_ne he] at hn
    rw [update_of_ne he]
    exact h.live e' n hn
  · subst he
    rw [hentries, update_self] at hn
    rw [update_self]
    exact hnone hn
  · rw [hentries, update_of_ne he] at hn
    rw [update_of_ne he]
    exact h.dead e' hn
  · subst he
    rwa [hentries, update_self]
  · rw [hentries, update_of_ne he, (hother e' he).1, (hother e' he).2]
    exact h.closed e'

/-- A new reference. -/
theorem Counted.ref (hpos : 0 < cnt e) (hroom : cnt e + 1 < 2 ^ 32) :
    ∃ s', s.fdEntryRef e = some s' ∧ s.SameHolders s' ∧ s'.Counted (update cnt e (cnt e + 1)) := by
  obtain ⟨n, hn⟩ := h.entry hpos
  obtain ⟨hcount, -, -, hopen, hne⟩ := h.live e n hn
  have hclosed := h.closed e
  rw [hn] at hclosed
  unfold fdEntryRef
  rw [if_neg hne, hn, bind_eq_bind, bind_some, hcount, Nat.mod_eq_of_lt hroom]
  refine ⟨_, rfl, ⟨rfl, rfl, rfl⟩, h.set rfl (fun n' hn' => ?_) nofun hclosed fun _ _ => ⟨rfl, rfl⟩⟩
  cases hn'
  exact ⟨rfl, Nat.succ_pos _, hroom, hopen, hne⟩

/-- A reference is given back; with the last one the file or directory is closed. -/
theorem Counted.unref (hpos : 0 < cnt e) :
    ∃ s', s.fdEntryUnref e = some s' ∧ s.SameHolders s' ∧ s'.Counted (update cnt e (cnt e - 1)) := by
  obtain ⟨n, hn⟩ := h.entry hpos
  obtain ⟨hcount, -, hlt, hopen, hne⟩ := h.live e n hn
  have hclosed := h.closed e
  rw [hn] at hclosed
  have hremaining : (n.refcount + (2 ^ 32 - 1)) % 2 ^ 32 = cnt e - 1 := by omega
  unfold fdEntryUnref
  rw [if_neg hne, hn, bind_eq_bind, bind_some, hremaining]
  dsimp only
  by_cases hmore : 0 < cnt e - 1
  · rw [if_pos hmore]
    refine ⟨_, rfl, ⟨rfl, rfl, rfl⟩, h.set rfl (fun n' hn' => ?_) nofun hclosed fun _ _ => ⟨rfl, rfl⟩⟩
    cases hn'
    exact ⟨rfl, hmore, by omega, hopen, hne⟩
  · rw [if_neg hmore, if_pos hopen]
    refine ⟨_, rfl, ⟨rfl, rfl, rfl⟩, h.set rfl nofun (fun _ => by omega) ?_ fun e' he => ?_⟩
    · dsimp only
      rw [update_self]
      exact hclosed
    · exact ⟨rfl, update_of_ne he ..⟩

theorem Counted.of_eq {cnt' : Nat → Nat} (heq : ∀ v, cnt v = cnt' v) :
    s.Counted cnt' := funext heq ▸ h

end

/-! ## Tables -/

structure Wf (s : FdState) : Prop where
  table : ∀ t table, s.tables t = some table → t ≠ 0 ∧ table.entries.length ≤ FD_TABLE_MAX ∧
    table.refcount = s.tableHeld t ∧ 0 < table.refcount ∧ table.refcount < 2 ^ 32
  free : ∀ t, s.tables t = none → s.tableHeld t = 0
  finite : Finitary s.slots

theorem Wf.congr (h : s.Wf) (htables : s'.tables = s.tables) (hheld : s'.tableHeld = s.tableHeld) :
    s'.Wf := by
  have hmaps : s'.maps = s.maps := by
    unfold maps
    rw [htables]
  refine ⟨?_, ?_, ?_⟩
  · rw [htables, hheld]
    exact h.table
  · rw [htables, hheld]
    exact h.free
  · rw [slots_congr hmaps]
    exact h.finite

/-- One table and its holders are replaced. -/
theorem Wf.replace {v : Option FdTable} {k : Nat} (h : s.Wf) (htables : s'.tables = update s.tables t v)
    (hheld : s'.tableHeld = update s.tableHeld t k)
    (htable : ∀ table, v = some table → t ≠ 0 ∧ table.entries.length ≤ FD_TABLE_MAX ∧
      table.refcount = k ∧ 0 < table.refcount ∧ table.refcount < 2 ^ 32)
    (hfree : v = none → k = 0) (hfinite : Finitary s'.slots) : s'.Wf := by
  refine ⟨fun t' table' ht' => ?_, fun t' ht' => ?_, hfinite⟩
  all_goals
    rw [htables] at ht'
    rw [hheld]
    by_cases htt : t' = t
  · subst htt
    rw [update_self] at ht' ⊢
    exact htable table' ht'
  · rw [update_of_ne htt] at ht' ⊢
    exact h.table t' table' ht'
  · subst htt
    rw [update_self] at ht' ⊢
    exact hfree ht'
  · rw [update_of_ne htt] at ht' ⊢
    exact h.free t' ht'

/-- Descriptors are below FD_TABLE_MAX. -/
theorem Wf.lt_max (h : s.Wf) (ht : s.tables t = some table) (he : table.slot fd = some e) :
    fd < FD_TABLE_MAX := Nat.lt_of_lt_of_le (lt_of_slot he) (h.table t table ht).2.1

/-- One slot of one table is changed, and nothing else but the entries. -/
structure Stores (s s' : FdState) (t fd : Nat) (x : Option Nat) : Prop where
  maps : ∃ m, s.maps t = some m ∧ s'.maps = update s.maps t (some (update m fd x))
  wf : s'.Wf
  held : s'.held = s.held
  tableHeld : s'.tableHeld = s.tableHeld

/-- A slot of a table, which may have grown, is set. -/
theorem Wf.stores (h : s.Wf) {grown : FdTable} (ht : s.tables t = some table)
    (hslot : grown.slot = table.slot) (href : grown.refcount = table.refcount)
    (hlen : grown.entries.length ≤ FD_TABLE_MAX) (hfd : fd < grown.entries.length) (x : Option Nat)
    (htables : s'.tables = (s.setTable t (grown.setSlot fd x)).tables) (hheld : s'.held = s.held)
    (htableHeld : s'.tableHeld = s.tableHeld) : s.Stores s' t fd x := by
  have hmaps : s'.maps = update s.maps t (some (update table.slot fd x)) := by
    rw [← hslot, ← slot_setSlot hfd]
    exact maps_update htables
  obtain ⟨hne, -, hcount, hpos, hlt⟩ := h.table t table ht
  have hfinite : Finitary s'.slots := by
    rw [slots_update (maps_eq ht) hmaps]
    exact h.finite.update
  refine ⟨⟨_, maps_eq ht, hmaps⟩, ?_, hheld, htableHeld⟩
  refine h.replace htables (htableHeld.trans (update_eq_self t _).symm) ?_ nofun hfinite
  rintro _ ⟨⟩
  refine ⟨hne, ?_, href.trans hcount, href.symm ▸ hpos, href.symm ▸ hlt⟩
  rwa [FdTable.setSlot, length_set]

/-- What the slots of all tables count for an entry. -/
theorem Stores.refs {x : Option Nat} (h : s.Stores s' t fd x) (hwf : s.Wf) {m : Nat → Option Nat}
    (hm : s.maps t = some m) (v : Nat) :
    refs s'.slots v + (if m fd = some v then 1 else 0) = refs s.slots v + if x = some v then 1 else 0 := by
  obtain ⟨m', hm', hmaps⟩ := h.maps
  cases hm.symm.trans hm'
  have hslot : s.slots (t, fd) = m fd := by
    unfold slots
    rw [hm]
    rfl
  rw [slots_update hm hmaps, ← hslot]
  exact refs_update hwf.finite

/-! ## Single functions -/

theorem put_spec {grown : FdTable} (hwf : s.Wf) (hc : s.Counted cnt) (ht : s.tables t = some table)
    (hslot : grown.slot = table.slot) (href : grown.refcount = table.refcount)
    (hlen : grown.entries.length ≤ FD_TABLE_MAX) (hfd : fd < grown.entries.length) (hpos : 0 < cnt e)
    (hroom : cnt e + 1 < 2 ^ 32) :
    ∃ s', s.put t grown fd e = some ((fd : Int), s') ∧ s.Stores s' t fd (some e) ∧
      s'.Counted (update cnt e (cnt e + 1)) := by
  have hc1 : (s.setTable t (grown.setSlot fd (some e))).Counted cnt := hc.congr rfl rfl rfl
  obtain ⟨s', href', ⟨htables, hheld, htableHeld⟩, hc'⟩ := hc1.ref hpos hroom
  refine ⟨s', ?_, hwf.stores ht hslot href hlen hfd _ htables hheld htableHeld, hc'⟩
  unfold put
  rw [href']
  rfl

theorem install_spec (mem : Bool) (hwf : s.Wf) (hc : s.Counted cnt) (ht : s.tables t = some table)
    (hpos : 0 < cnt e) (hroom : cnt e + 1 < 2 ^ 32) : ∃ ret s', s.fdtableInstall t e mem = some (ret, s') ∧
      ((∃ fd : Nat, fd < FD_TABLE_MAX ∧ table.slot fd = none ∧ (∀ j, j < fd → table.slot j ≠ none) ∧
          ret = fd ∧ s.Stores s' t fd (some e) ∧ s'.Counted (update cnt e (cnt e + 1))) ∨
        s' = s ∧ (ret = -EMFILE ∧ (∀ j, j < FD_TABLE_MAX → table.slot j ≠ none) ∨
          ret = -ENOMEM ∧ mem = false)) := by
  obtain ⟨n, hn⟩ := hc.entry hpos
  obtain ⟨hne, hlen, -⟩ := hwf.table t table ht
  unfold fdtableInstall
  rw [if_neg (not_or.mpr ⟨hne, (hc.live e n hn).2.2.2.2⟩), ht, bind_eq_bind, bind_some]
  cases hfind : table.entries.findIdx? (· = none) with
  | some fd =>
    obtain ⟨hlt, hfree, hbefore⟩ := findIdx_some hfind
    obtain ⟨s', hput, hstores, hc'⟩ := put_spec hwf hc ht rfl rfl hlen hlt hpos hroom
    exact ⟨fd, s', hput, .inl ⟨fd, Nat.lt_of_lt_of_le hlt hlen, hfree, hbefore, rfl, hstores, hc'⟩⟩
  | none =>
  dsimp only
  cases hgrow : fdtableGrow table (table.entries.length + 1) mem with
  | error err =>
    refine ⟨err, s, rfl, .inr ⟨rfl, ?_⟩⟩
    rcases fdtableGrow_error hgrow with ⟨rfl, hmax⟩ | ⟨rfl, hmem, -⟩
    · exact .inl ⟨rfl, fun j hj => findIdx_none hfind (by omega)⟩
    · exact .inr ⟨rfl, hmem⟩
  | ok grown =>
    obtain ⟨hslot, hmin, hmax, href⟩ := fdtableGrow_ok (Nat.lt_succ_self _) hgrow
    obtain ⟨s', hput, hstores, hc'⟩ := put_spec hwf hc ht hslot href hmax hmin hpos hroom
    exact ⟨_, s', hput, .inl ⟨table.entries.length, Nat.lt_of_lt_of_le hmin hmax,
      slot_of_le (Nat.le_refl _), fun j hj => findIdx_none hfind hj, rfl, hstores, hc'⟩⟩

theorem installAt_spec (fd : Nat) (mem : Bool) (hwf : s.Wf) (hc : s.Counted cnt) (ht : s.tables t = some table)
    (hpos : 0 < cnt e) (hroom : cnt e + 1 < 2 ^ 32) :
    ∃ ret s', s.fdtableInstallAt t fd e mem = some (ret, s') ∧
      (fd < FD_TABLE_MAX ∧ table.slot fd = none ∧ ret = fd ∧ s.Stores s' t fd (some e) ∧
          s'.Counted (update cnt e (cnt e + 1)) ∨ s' = s ∧ (ret = -EBUSY ∧ table.slot fd ≠ none ∨
          ret = -EMFILE ∧ FD_TABLE_MAX ≤ fd ∨ ret = -ENOMEM ∧ mem = false ∧ table.entries.length ≤ fd)) := by
  obtain ⟨n, hn⟩ := hc.entry hpos
  obtain ⟨hne, hlen, -⟩ := hwf.table t table ht
  unfold fdtableInstallAt
  rw [if_neg (not_or.mpr ⟨hne, not_or.mpr ⟨Int.not_lt.mpr (Int.natCast_nonneg fd),
    (hc.live e n hn).2.2.2.2⟩⟩), ht, bind_eq_bind, bind_some, Int.toNat_natCast]
  dsimp only
  by_cases hcap : table.entries.length ≤ fd
  · rw [if_pos hcap]
    have hfree := slot_of_le hcap
    cases hgrow : fdtableGrow table (fd + 1) mem with
    | error err =>
      refine ⟨err, s, rfl, .inr ⟨rfl, ?_⟩⟩
      rcases fdtableGrow_error hgrow with ⟨rfl, hmax⟩ | ⟨rfl, hmem, -⟩
      · exact .inr (.inl ⟨rfl, Nat.le_of_lt_succ hmax⟩)
      · exact .inr (.inr ⟨rfl, hmem, hcap⟩)
    | ok grown =>
      obtain ⟨hslot, hmin, hmax, href⟩ := fdtableGrow_ok (Nat.lt_succ_of_le hcap) hgrow
      obtain ⟨s', hput, hstores, hc'⟩ := put_spec hwf hc ht hslot href hmax hmin hpos hroom
      dsimp only
      rw [if_neg (by rw [hslot, hfree]; exact not_not_intro rfl), hput]
      exact ⟨_, s', rfl, .inl ⟨Nat.lt_of_lt_of_le hmin hmax, hfree, rfl, hstores, hc'⟩⟩
  · rw [if_neg hcap]
    dsimp only
    by_cases hfree : table.slot fd = none
    · obtain ⟨s', hput, hstores, hc'⟩ := put_spec hwf hc ht rfl rfl hlen (Nat.lt_of_not_le hcap) hpos hroom
      rw [if_neg (not_not_intro hfree), hput]
      exact ⟨_, s', rfl, .inl ⟨by omega, hfree, rfl, hstores, hc'⟩⟩
    · rw [if_pos hfree]
      refine ⟨_, _, rfl, .inr ⟨?_, .inl ⟨rfl, hfree⟩⟩⟩
      rw [setTable, ← ht, update_eq_self]

section

variable (fd : Nat) (hwf : s.Wf) (hc : s.Counted cnt) (ht : s.tables t = some table)

include hwf hc ht

theorem get_spec (hpos : ∀ e, table.slot fd = some e → 0 < cnt e ∧ cnt e + 1 < 2 ^ 32) :
    table.slot fd = none ∧ s.fdtableGet t fd = some (0, s) ∨
    ∃ e s', table.slot fd = some e ∧ s.fdtableGet t fd = some (e, s') ∧ e ≠ 0 ∧ s.SameHolders s' ∧
      s'.Counted (update cnt e (cnt e + 1)) := by
  unfold fdtableGet
  rw [if_neg (not_or.mpr ⟨(hwf.table t table ht).1, Int.not_lt.mpr (Int.natCast_nonneg fd)⟩), ht,
    bind_eq_bind, bind_some, Int.toNat_natCast]
  cases he : table.slot fd with
  | none => exact .inl ⟨rfl, rfl⟩
  | some e =>
  obtain ⟨hpos, hroom⟩ := hpos e he
  obtain ⟨n, hn⟩ := hc.entry hpos
  obtain ⟨s', href, hsame, hc'⟩ := hc.ref hpos hroom
  dsimp only
  rw [href]
  exact .inr ⟨e, s', rfl, rfl, (hc.live e n hn).2.2.2.2, hsame, hc'⟩

theorem close_spec (hpos : ∀ e, table.slot fd = some e → 0 < cnt e) :
    table.slot fd = none ∧ s.fdtableClose t fd = some (-EBADF, s) ∨
    ∃ e s', table.slot fd = some e ∧ s.fdtableClose t fd = some (EOK, s') ∧ s.Stores s' t fd none ∧
      s'.tables t = some (table.setSlot fd none) ∧ s'.Counted (update cnt e (cnt e - 1)) := by
  obtain ⟨hne, hlen, -⟩ := hwf.table t table ht
  unfold fdtableClose
  rw [if_neg (not_or.mpr ⟨hne, Int.not_lt.mpr (Int.natCast_nonneg fd)⟩), ht, bind_eq_bind,
    bind_some, Int.toNat_natCast]
  cases he : table.slot fd with
  | none => exact .inl ⟨rfl, rfl⟩
  | some e =>
  have hc1 : (s.setTable t (table.setSlot fd none)).Counted cnt := hc.congr rfl rfl rfl
  obtain ⟨s', hunref, ⟨htables, hheld, htableHeld⟩, hc'⟩ := hc1.unref (hpos e he)
  dsimp only
  rw [hunref]
  exact .inr ⟨e, s', rfl, rfl, hwf.stores ht rfl rfl hlen (lt_of_slot he) none htables hheld htableHeld,
    by rw [htables, setTable_self], hc'⟩

end

/-! ## Whole tables -/

theorem bump (cnt : Nat → Nat) (e v : Nat) :
    update cnt e (cnt e + 1) v = cnt v + if some e = some v then 1 else 0 := by
  by_cases hv : v = e
  · subst hv
    simp
  · rw [update_of_ne hv, if_neg (fun h => hv (some.inj h).symm), Nat.add_zero]

theorem bump_pos (cnt : Nat → Nat) (e : Nat) : 0 < update cnt e (cnt e + 1) e := by
  rw [update_self]
  exact Nat.succ_pos _

theorem shed (hpos : 0 < cnt e) (v : Nat) :
    update cnt e (cnt e - 1) v + (if some e = some v then 1 else 0) = cnt v := by
  by_cases hv : v = e
  · subst hv
    rw [update_self, if_pos rfl]
    omega
  · rw [update_of_ne hv, if_neg (fun h => hv (some.inj h).symm), Nat.add_zero]

theorem count_cons_some (rest : List (Option Nat)) (e v : Nat) : (some e :: rest).count (some v) =
    rest.count (some v) + if some e = some v then 1 else 0 := by
  rw [count_cons]
  exact congrArg _ (if_congr beq_iff_eq rfl rfl)

/-- The loop gives back one reference for every slot that names an entry. -/
theorem unrefSlots_spec (rest : List (Option Nat)) (hc : s.Counted cnt)
    (hle : ∀ v, rest.count (some v) ≤ cnt v) : ∃ s', unrefSlots rest s = some s' ∧ s.SameHolders s' ∧
      s'.Counted (fun v => cnt v - rest.count (some v)) := by
  induction rest generalizing s cnt with
  | nil => exact ⟨s, rfl, ⟨rfl, rfl, rfl⟩, hc⟩
  | cons x rest ih =>
    cases x with
    | none =>
      obtain ⟨s', hloop, hsame, hc'⟩ := ih hc fun v => by simpa using hle v
      exact ⟨s', hloop, hsame, hc'.of_eq fun v => by simp⟩
    | some e =>
    have hhead := hle e
    rw [count_cons_self] at hhead
    have hshed := shed (Nat.lt_of_lt_of_le (Nat.succ_pos _) hhead)
    obtain ⟨s1, hunref, hsame1, hc1⟩ := hc.unref (Nat.lt_of_lt_of_le (Nat.succ_pos _) hhead)
    obtain ⟨s', hloop, hsame, hc'⟩ := ih hc1 fun v => by
      have hv := hle v
      rw [count_cons_some, ← hshed v] at hv
      exact Nat.le_of_add_le_add_right hv
    refine ⟨s', ?_, ⟨hsame.1.trans hsame1.1, hsame.2.1.trans hsame1.2.1,
      hsame.2.2.trans hsame1.2.2⟩, hc'.of_eq fun v => ?_⟩
    · rwa [unrefSlots, hunref]
    · rw [count_cons_some, ← hshed v, Nat.add_sub_add_right]

/-- The loop fills the free slots in order, and takes a reference for every one that names an entry. -/
theorem cloneSlots_spec {done : List (Option Nat)} {refcount : Nat} (rest : List (Option Nat))
    (hc : s.Counted cnt) (ht : s.tables t = some ⟨done ++ List.replicate rest.length none, refcount⟩)
    (hroom : ∀ v, 0 < rest.count (some v) → 0 < cnt v ∧ cnt v + rest.count (some v) < 2 ^ 32) :
    ∃ s', cloneSlots t done.length rest s = some s' ∧
      s'.tables = update s.tables t (some ⟨done ++ rest, refcount⟩) ∧ s'.held = s.held ∧
      s'.tableHeld = s.tableHeld ∧ s'.Counted (fun v => cnt v + rest.count (some v)) := by
  induction rest generalizing s cnt done with
  | nil =>
    refine ⟨s, rfl, ?_, rfl, rfl, hc⟩
    rw [length_nil, replicate_zero] at ht
    rw [← ht, update_eq_self]
  | cons x rest ih =>
    have happend : done ++ x :: rest = (done ++ [x]) ++ rest := append_cons ..
    have hlen : (done ++ [x]).length = done.length + 1 := length_append
    cases x with
    | none =>
      rw [length_cons, replicate_succ, append_cons] at ht
      obtain ⟨s', hloop, htables, hheld, htableHeld, hc'⟩ := ih hc ht fun v hv => by
        simpa using hroom v (by simpa using hv)
      rw [hlen] at hloop
      exact ⟨s', hloop, happend ▸ htables, hheld, htableHeld, hc'.of_eq fun v => by simp⟩
    | some e =>
    obtain ⟨hpos, hlt⟩ := hroom e (by simp)
    rw [count_cons_self] at hlt
    have hset : FdTable.setSlot ⟨done ++ List.replicate (rest.length + 1) none, refcount⟩ done.length
        (some e) = ⟨done ++ [some e] ++ List.replicate rest.length none, refcount⟩ := by
      simp [FdTable.setSlot, replicate_succ]
    obtain ⟨s1, href, ⟨htables1, hheld1, htableHeld1⟩, hc1⟩ :=
      (show (s.setTable t ⟨done ++ [some e] ++ List.replicate rest.length none, refcount⟩).Counted cnt
        from hc.congr rfl rfl rfl).ref hpos (by omega)
    obtain ⟨s', hloop, htables, hheld, htableHeld, hc'⟩ := ih hc1
      (by rw [htables1, setTable_self]) fun v hv => by
        have hv' := hroom v (by rw [count_cons]; omega)
        rw [count_cons_some] at hv'
        rw [bump]
        omega
    refine ⟨s', ?_, ?_, hheld.trans hheld1, htableHeld.trans htableHeld1, hc'.of_eq fun v => ?_⟩
    · rw [cloneSlots, ht, bind_eq_bind, bind_some, length_cons, hset, href]
      rwa [hlen] at hloop
    · rw [htables, htables1, happend, setTable, update_idem]
    · rw [count_cons_some, bump, Nat.add_right_comm, Nat.add_assoc]

/-- A table is a row of the slots. -/
theorem slots_eq_row (ht : s.tables t = none) (htables : s'.tables = update s.tables t (some table)) :
    s'.slots = Lapis.Lib.row s.slots t table.entries := by
  funext ⟨t', j⟩
  unfold slots maps Lapis.Lib.row
  rw [htables]
  by_cases htt : t' = t
  · subst htt
    simp [FdTable.slot]
  · simp [htt]

theorem slots_of_none (ht : s.tables t = none) (j : Nat) : s.slots (t, j) = none := by
  unfold slots maps
  rw [ht]
  rfl

/-- A new table, which its maker holds. -/
theorem Wf.newTable (s' : FdState) (h : s.Wf) (hne : t ≠ 0) (ht : s.tables t = none)
    (hlen : table.entries.length ≤ FD_TABLE_MAX) (hcount : table.refcount = 1)
    (htables : s'.tables = update s.tables t (some table))
    (hheld : s'.tableHeld = update s.tableHeld t (s.tableHeld t + 1)) :
    s'.Wf ∧ s'.maps = update s.maps t (some table.slot) ∧
      ∀ v, Lapis.Lib.refs s'.slots v = Lapis.Lib.refs s.slots v + table.entries.count (some v) := by
  have hslots := slots_eq_row ht htables
  have hfree := slots_of_none ht
  have hfinite : Finitary s'.slots := by
    rw [hslots]
    exact h.finite.row hfree
  refine ⟨h.replace htables hheld ?_ nofun hfinite, maps_update htables, fun v => ?_⟩
  · rintro _ ⟨⟩
    rw [h.free t ht, hcount]
    exact ⟨hne, hlen, rfl, Nat.one_pos, by decide⟩
  · rw [hslots]
    exact Lapis.Lib.refs_row h.finite hfree

/-- A table that nobody holds any more is gone. -/
theorem Wf.freeTable (s' : FdState) (h : s.Wf) (ht : s.tables t = some table)
    (htables : s'.tables = update s.tables t none) (hheld : s'.tableHeld = update s.tableHeld t 0) :
    s'.Wf ∧ s'.maps = update s.maps t none ∧
      ∀ v, Lapis.Lib.refs s.slots v = Lapis.Lib.refs s'.slots v + table.entries.count (some v) := by
  have hnone : s'.tables t = none := by rw [htables, update_self]
  have hback : s.tables = update s'.tables t (some table) := by
    rw [htables, update_idem, ← ht, update_eq_self]
  have hfree := slots_of_none hnone
  have hfinite : Finitary s'.slots := h.finite.mono fun k hk => by
    unfold slots maps at hk ⊢
    rw [htables] at hk
    by_cases htt : k.1 = t
    · rw [htt, update_self] at hk
      exact absurd rfl hk
    · rwa [update_of_ne htt] at hk
  refine ⟨h.replace htables hheld nofun (fun _ => rfl) hfinite, maps_update htables, fun v => ?_⟩
  rw [slots_eq_row hnone hback]
  exact Lapis.Lib.refs_row hfinite hfree

end FdState

end Lapis.Sched.Fd
