/-
Lapis.Mm.PfnDb — the page database at boot (`pfn_db_init` of pfn_db.c).

The input is the memory map of the boot loader. `pfn_db_init` finds the largest frame, takes the
room for `mem_map` from the first usable region that is large enough, marks every page reserved
and then the pages of the usable regions free; frame 0 stays reserved. A machine without such a
region halts, which is `none`. The array is not cleared, so what a page record holds in `u2` is
arbitrary. `pfnDbInit_fresh` is what `pmm_init` relies on.
-/
import Lapis.Mm.PmmTheorems

namespace Lapis.Mm

open Function Option Lib

/-- An entry of the memory map; `usable` is the test of its type. -/
structure MemmapEntry where
  base : UInt64
  length : UInt64
  usable : Bool
  deriving DecidableEq

namespace PfnDb

/-- `_pfn_db_calc_max_pfn`. -/
def pfnDbCalcMaxPfn (mmap : List MemmapEntry) : Nat :=
  mmap.foldl (fun maxPfn e =>
    if e.usable then
      let last := (e.base + e.length + 0x1000 - 1).toNat / pageSize
      if maxPfn < last then last else maxPfn
    else maxPfn) 0

/-- The number of bytes `_pfn_db_reserve` takes: the array in whole pages. -/
def dbSize (maxPfn : Nat) : UInt64 :=
  (UInt64.ofNat ((maxPfn + 1) * Pmm.sizeofPage) + 0x1000 - 1) &&& ~~~(0x1000 - 1)

/-- `_pfn_db_reserve`: the physical address of the array and the memory map without its room. -/
def pfnDbReserve (size : UInt64) : List MemmapEntry → Option (UInt64 × List MemmapEntry)
  | [] => none
  | e :: mmap =>
    if e.usable && !(e.length < size) then
      some (e.base, { e with base := e.base + size, length := e.length - size } :: mmap)
    else (pfnDbReserve size mmap).map fun (phys, mmap) => (phys, e :: mmap)

/-- The flags of a page of a usable region. -/
def usableFlags (flags : BitVec 64) : BitVec 64 :=
  flags &&& ~~~(pageReserved ||| pageAllocated) ||| pageFree

/-- The pages of one entry of the memory map are marked free. -/
def markUsable (maxPfn : Nat) (pages : Pfn → Page) (e : MemmapEntry) : Pfn → Page := fun p =>
  if e.usable ∧ e.base.toNat / pageSize ≤ p ∧ p < (e.base + e.length).toNat / pageSize ∧
      p ≤ maxPfn then
    { pages p with flags := usableFlags (pages p).flags }
  else pages p

/-- The array after the first loop; `junk` is what its memory held in `u2`. -/
def reservedPages (maxPfn : Nat) (junk : Pfn → Nat) (p : Pfn) : Page where
  next := if p < maxPfn then some (p + 1) else none
  u2 := junk p
  flags := pageReserved
  refcount := 0

/-- The array after `pfn_db_init`. -/
def initPages (maxPfn : Nat) (junk : Pfn → Nat) (mmap : List MemmapEntry) : Pfn → Page :=
  let pages := mmap.foldl (markUsable maxPfn) (reservedPages maxPfn junk)
  update pages 0 { pages 0 with flags := pageReserved, refcount := 0 }

/-- `pfn_db_init`; `hhdmOffset` is where physical memory is mapped. -/
def pfnDbInit (mmap : List MemmapEntry) (hhdmOffset : UInt64) (junk : Pfn → Nat) : Option Pmm :=
  let maxPfn := pfnDbCalcMaxPfn mmap
  (pfnDbReserve (dbSize maxPfn) mmap).bind fun (phys, mmap) =>
    let memMap := (phys + hhdmOffset).toNat
    if memMap = 0 then none
    else some
      { memMap := memMap, maxPfn := maxPfn, pages := initPages maxPfn junk mmap, freeList := none,
        freePages := 0, refused := 0 }

/-! ## What it leaves -/

/-- A page as `pfn_db_init` leaves it. -/
def Untouched (maxPfn : Nat) (p : Pfn) (g : Page) : Prop :=
  g.refcount = 0 ∧ (g.flags = pageReserved ∨ g.flags = pageFree ∧ p ≤ maxPfn)

/-- The loop over the entry `e` reaches the page `p`. -/
def Marks (maxPfn : Nat) (e : MemmapEntry) (p : Nat) : Prop :=
  e.usable = true ∧ e.base.toNat / pageSize ≤ p ∧ p < (e.base + e.length).toNat / pageSize ∧
    p ≤ maxPfn

instance (maxPfn : Nat) (e : MemmapEntry) (p : Nat) : Decidable (Marks maxPfn e p) :=
  inferInstanceAs (Decidable (_ ∧ _))

section

variable {maxPfn : Nat} {p : Pfn}

theorem usableFlags_idem (flags : BitVec 64) : usableFlags (usableFlags flags) = usableFlags flags := by
  unfold usableFlags
  grind

theorem markUsable_of_not {pages : Pfn → Page} {e : MemmapEntry} (h : ¬ Marks maxPfn e p) :
    markUsable maxPfn pages e p = pages p :=
  if_neg h

/-- What the entries do to a record depends on that record only. -/
theorem foldl_markUsable (mmap : List MemmapEntry) (pages : Pfn → Page) :
    mmap.foldl (markUsable maxPfn) pages p = if ∃ e ∈ mmap, Marks maxPfn e p then
      { pages p with flags := usableFlags (pages p).flags } else pages p := by
  induction mmap generalizing pages with
  | nil => simp
  | cons e mmap ih =>
    rw [List.foldl_cons, ih]
    by_cases he : Marks maxPfn e p
    · have hpage : markUsable maxPfn pages e p =
          { pages p with flags := usableFlags (pages p).flags } := if_pos he
      simp [hpage, he, usableFlags_idem]
    · simp [markUsable_of_not he, he]

theorem initPages_eq (junk : Pfn → Nat) (mmap : List MemmapEntry) (hp : p ≠ 0) :
    initPages maxPfn junk mmap p = if ∃ e ∈ mmap, Marks maxPfn e p then
      { reservedPages maxPfn junk p with flags := pageFree } else reservedPages maxPfn junk p := by
  have hflags : usableFlags pageReserved = pageFree := by decide
  unfold initPages
  dsimp only
  rw [update_of_ne hp, foldl_markUsable, ← hflags]
  rfl

end

theorem untouched_initPages (maxPfn : Nat) (junk : Pfn → Nat) (mmap : List MemmapEntry) (p : Pfn) :
    Untouched maxPfn p (initPages maxPfn junk mmap p) := by
  by_cases hp : p = 0
  · subst hp
    unfold initPages
    rw [update_self]
    exact ⟨rfl, .inl rfl⟩
  · rw [initPages_eq junk mmap hp]
    split
    case isTrue hmark =>
      obtain ⟨e, -, he⟩ := hmark
      exact ⟨rfl, .inr ⟨rfl, he.2.2.2⟩⟩
    case isFalse => exact ⟨rfl, .inl rfl⟩

theorem initPages_zero (maxPfn : Nat) (junk : Pfn → Nat) (mmap : List MemmapEntry) :
    (initPages maxPfn junk mmap 0).flags = pageReserved := by
  simp [initPages]

/-- The database a machine boots with is what `pmm_init` expects. -/
theorem pfnDbInit_fresh {mmap : List MemmapEntry} {hhdmOffset : UInt64} {junk : Pfn → Nat}
    {m : Pmm} (h : pfnDbInit mmap hhdmOffset junk = some m) : m.Fresh := by
  unfold pfnDbInit at h
  obtain ⟨⟨phys, mmap'⟩, -, h⟩ := bind_eq_some_iff.mp h
  dsimp only at h
  split at h
  case isTrue => cases h
  case isFalse hmap =>
  obtain rfl := some.inj h
  have hpage := untouched_initPages (pfnDbCalcMaxPfn mmap) junk mmap'
  refine ⟨fun p hp => ?_, fun p hp => ?_, fun p hp hres => ?_, ⟨?_, ?_⟩, fun p => ?_, Nat.pos_of_ne_zero hmap⟩
  · rw [Page.isPageFree_eq] at hp
    obtain ⟨hcount, hf | ⟨-, hle⟩⟩ := hpage p
    · simp [hf, pageReserved] at hp
    · exact ⟨hle, hcount⟩
  · rw [Page.isPageFree_eq] at hp
    obtain ⟨-, hf | ⟨hf, -⟩⟩ := hpage p
    · simp [hf, pageReserved] at hp
    · rw [Page.isPageAllocated_eq, Page.isPageShared_eq]
      simp [hf, pageFree]
  · rw [Page.isPageFree_eq] at hp
    rw [Page.isPageReserved_eq] at hres
    obtain ⟨-, hf | ⟨hf, -⟩⟩ := hpage p
    · simp [hf, pageReserved] at hres
    · simp [hf, pageFree] at hp
  · rw [Page.isPageFree_eq]
    simp [initPages_zero, pageReserved]
  · rw [Page.isPageReserved_eq]
    simp [initPages_zero, pageReserved]
  · rw [Page.isPageDirty_eq]
    obtain ⟨-, hf | ⟨hf, -⟩⟩ := hpage p <;> simp [hf, pageReserved, pageFree]

end PfnDb

end Lapis.Mm
