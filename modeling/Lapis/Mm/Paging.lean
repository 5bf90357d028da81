/-
Lapis.Mm.Paging — four-level page tables (paging.c).

The memory a page table lives in is `mem`: 512 words for every frame. A pointer that the
source gets with `PHYS_TO_VIRT` is the number of the frame it points into, and the address of
an entry is a frame with an index. A `pte_t *`, which the source keeps as the physical address
of the top table, is the number of that table's frame; the NULL checks on page tables and pages
are left out, because no caller in the model passes NULL. `invlpg` and the locks are left out.
-/
import Lapis.Mm.Pmm

namespace Lapis.Mm

open Function Lib

/-! ## page.h and paging.h -/

/-- `ALIGN_DOWN(x, PAGE_SIZE)`. -/
def alignDown (x : Nat) : Nat := x / pageSize * pageSize

/-- `ALIGN_UP(x, PAGE_SIZE)`: the sum in `DIV_ROUND_UP` is a 64-bit sum. -/
def alignUp (x : Nat) : Nat := (x + (pageSize - 1)) % 2 ^ 64 / pageSize * pageSize

def pflagPresent : BitVec 64 := .twoPow 64 0
def pflagWrite : BitVec 64 := .twoPow 64 1
def pflagUser : BitVec 64 := .twoPow 64 2
def pflagPwt : BitVec 64 := .twoPow 64 3
def pflagPcd : BitVec 64 := .twoPow 64 4
def pflagHuge : BitVec 64 := .twoPow 64 7
def pflagNx : BitVec 64 := .twoPow 64 63

def pflagMmio : BitVec 64 :=
  pflagPresent ||| pflagWrite ||| pflagPcd ||| pflagPwt ||| pflagNx

def pageFrameMask : BitVec 64 := 0x000FFFFFFFFFF000#64

scoped instance tableNeZero : NeZero 512 := ⟨by decide⟩

def pml1Index (v : Nat) : Fin 512 := Fin.ofNat 512 (v >>> 12)
def pml2Index (v : Nat) : Fin 512 := Fin.ofNat 512 (v >>> 21)
def pml3Index (v : Nat) : Fin 512 := Fin.ofNat 512 (v >>> 30)
def pml4Index (v : Nat) : Fin 512 := Fin.ofNat 512 (v >>> 39)

/-- The physical address of a frame. -/
def physOf (p : Pfn) : BitVec 64 := BitVec.ofNat 64 (p * pageSize)

/-- The frame a physical address lies in, which stands for the pointer `PHYS_TO_VIRT` gives. -/
def frameOf (phys : BitVec 64) : Pfn := phys.toNat / pageSize

structure MmioRegion where
  vaddr : Nat
  paddr : Nat
  npages : Nat
  deriving DecidableEq, Repr

/-- Physical memory with its manager, and what the kernel maps everywhere. -/
structure Phys where
  pmm : Pmm
  mem : Pfn → Fin 512 → BitVec 64
  kernelPt : Option Pfn
  mmioRegions : List MmioRegion

namespace Phys

/-! ## Access to memory and pages -/

def modPmm (s : Phys) (f : Pmm → Pmm) : Phys := { s with pmm := f s.pmm }

def writeEntry (s : Phys) (t : Pfn) (i : Fin 512) (e : BitVec 64) : Phys :=
  { s with mem := update s.mem t (update (s.mem t) i e) }

/-- `memset(PHYS_TO_VIRT(phys), 0, PAGE_SIZE)`. -/
def zeroPage (s : Phys) (p : Pfn) : Phys := { s with mem := update s.mem p fun _ => 0 }

def pmmAllocPage (s : Phys) : Option Pfn × Phys :=
  match s.pmm.pmmAllocPage with
  | (r, m) => (r, { s with pmm := m })

/-- `pmm_page_unshare` and `pmm_page_release` on the page of a mapped frame, if it has one. -/
def dropMapped (s : Phys) (phys : BitVec 64) : Phys :=
  match s.pmm.pfnDbPhysToPage phys with
  | some p => s.modPmm fun m => (m.pmmPageUnshare p).pmmPageRelease p
  | none => s

/-! ## Tables -/

def allocPte (s : Phys) : BitVec 64 × Phys :=
  match s.pmmAllocPage with
  | (none, s) => (0, s)
  | (some p, s) =>
    let phys := s.pmm.pfnDbPageToPhys p
    (phys, s.zeroPage (frameOf phys))

def freePte (s : Phys) (phys : BitVec 64) : Phys :=
  match s.pmm.pfnDbPhysToPage phys with
  | some p => s.modPmm (·.pmmPageRelease p)
  | none => s

def pteNext (s : Phys) (table : Pfn) (index : Fin 512) (flags : BitVec 64) : Option Pfn × Phys :=
  let entry := s.mem table index
  if has entry pflagPresent then (some (frameOf (entry &&& pageFrameMask)), s)
  else if flags = 0 then (none, s)
  else
    match s.allocPte with
    | (phys, s) =>
      if phys = 0 then (none, s)
      else (some (frameOf phys), s.writeEntry table index (phys ||| flags))

def leafEntry (s : Phys) (pml4 : Pfn) (vaddr : Nat) (flags : BitVec 64) :
    Option (Pfn × Fin 512) × Phys :=
  match s.pteNext pml4 (pml4Index vaddr) flags with
  | (none, s) => (none, s)
  | (some pml3, s) =>
    match s.pteNext pml3 (pml3Index vaddr) flags with
    | (none, s) => (none, s)
    | (some pml2, s) =>
      match s.pteNext pml2 (pml2Index vaddr) flags with
      | (none, s) => (none, s)
      | (some pml1, s) => (some (pml1, pml1Index vaddr), s)

/-- One entry of the loop of `_pte_free_level` at depth 1. -/
def freeLeaf (table : Pfn) (s : Phys) (i : Fin 512) : Phys :=
  let entry := s.mem table i
  if has entry pflagPresent then s.dropMapped (entry &&& pageFrameMask) else s

/-- One entry of the loops that free the tables below a table; `free` is the recursive call. -/
def freeChild (free : Phys → Pfn → Phys) (table : Pfn) (s : Phys) (i : Fin 512) : Phys :=
  let entry := s.mem table i
  if has entry pflagPresent then
    if has entry pflagHuge then s else free s (frameOf (entry &&& pageFrameMask))
  else s

/-- `_pte_free_level`; the source never calls it with depth 0. -/
def pteFreeLevel : Nat → Phys → Pfn → Phys
  | 0, s, _ => s
  | 1, s, table => ((List.finRange 512).foldl (freeLeaf table) s).freePte (physOf table)
  | depth + 2, s, table =>
    ((List.finRange 512).foldl (freeChild (pteFreeLevel (depth + 1)) table) s).freePte
      (physOf table)

def tableEmpty (s : Phys) (table : Pfn) : Bool :=
  (List.finRange 512).all fun i => !has (s.mem table i) pflagPresent

/-- Frees the table that entry `i` of `table` points to and clears the entry. -/
def freeEntry (s : Phys) (table : Pfn) (i : Fin 512) : Phys :=
  (s.freePte (s.mem table i &&& pageFrameMask)).writeEntry table i 0

/-- `__u_pte_free_empty`. -/
def uPteFreeEmpty (s : Phys) (pml4 : Pfn) (vaddr : Nat) : Phys :=
  let i4 := pml4Index vaddr
  if has (s.mem pml4 i4) pflagPresent then
    let pml3 := frameOf (s.mem pml4 i4 &&& pageFrameMask)
    let i3 := pml3Index vaddr
    if has (s.mem pml3 i3) pflagPresent then
      let pml2 := frameOf (s.mem pml3 i3 &&& pageFrameMask)
      let i2 := pml2Index vaddr
      if has (s.mem pml2 i2) pflagPresent then
        let pml1 := frameOf (s.mem pml2 i2 &&& pageFrameMask)
        if s.tableEmpty pml1 then
          let s := s.freeEntry pml2 i2
          if s.tableEmpty pml2 then
            let s := s.freeEntry pml3 i3
            if s.tableEmpty pml3 then s.freeEntry pml4 i4 else s
          else s
        else s
      else s
    else s
  else s

/-! ## Mapping -/

def tableFlags (flags : BitVec 64) : BitVec 64 :=
  pflagPresent ||| pflagWrite ||| (if has flags pflagUser then pflagUser else 0)

def mapPage (s : Phys) (pt : Pfn) (vaddr : Nat) (page : Pfn) (flags : BitVec 64) : Phys :=
  let vaddr := alignDown vaddr
  let phys := s.pmm.pfnDbPageToPhys page
  match s.leafEntry pt vaddr (tableFlags flags) with
  | (none, s) => s
  | (some (table, i), s) =>
    let s :=
      if has (s.mem table i) pflagPresent then s.dropMapped (s.mem table i &&& pageFrameMask)
      else s
    let s := s.writeEntry table i (phys ||| (flags &&& ~~~pageFrameMask) ||| pflagPresent)
    s.modPmm fun m => (m.pmmPageShare page).pmmPageRetain page

/-- Like `map_page`, but no reference to the page is taken. -/
def mapPaddr (s : Phys) (pt : Pfn) (vaddr paddr : Nat) (flags : BitVec 64) : Phys :=
  let vaddr := alignDown vaddr
  let paddr := alignDown paddr
  match s.leafEntry pt vaddr (tableFlags flags) with
  | (none, s) => s
  | (some (table, i), s) =>
    let s :=
      if has (s.mem table i) pflagPresent then s.dropMapped (s.mem table i &&& pageFrameMask)
      else s
    s.writeEntry table i
      (BitVec.ofNat 64 paddr ||| (flags &&& ~~~pageFrameMask) ||| pflagPresent)

/-- `map_paddr_range` on the first `pnum` pages. -/
def mapPaddrRange (pt : Pfn) (vaddr paddr : Nat) (flags : BitVec 64) : Nat → Phys → Phys
  | 0, s => s
  | pnum + 1, s =>
    (mapPaddrRange pt vaddr paddr flags pnum s).mapPaddr pt
      ((vaddr + pnum * pageSize) % 2 ^ 64) ((paddr + pnum * pageSize) % 2 ^ 64) flags

def unmapPage (s : Phys) (pt : Pfn) (vaddr : Nat) : Phys :=
  let vaddr := alignDown vaddr
  match s.leafEntry pt vaddr 0 with
  | (none, s) => s
  | (some (table, i), s) =>
    if has (s.mem table i) pflagPresent then
      let s := s.dropMapped (s.mem table i &&& pageFrameMask)
      (s.writeEntry table i 0).uPteFreeEmpty pt vaddr
    else s

def getPaddr (s : Phys) (pt : Pfn) (vaddr : Nat) : BitVec 64 :=
  match s.leafEntry pt vaddr 0 with
  | (none, _) => 0
  | (some (table, i), s) =>
    if has (s.mem table i) pflagPresent then s.mem table i &&& pageFrameMask else 0

def getPflags (s : Phys) (pt : Pfn) (vaddr : Nat) : BitVec 64 :=
  match s.leafEntry pt vaddr 0 with
  | (none, _) => 0
  | (some (table, i), s) =>
    if has (s.mem table i) pflagPresent then s.mem table i &&& ~~~pageFrameMask else 0

/-! ## Whole page tables -/

/-- The loop of `map_mmio` from page `i` on, for `n` more pages. -/
def mapMmioFrom (pt : Pfn) (vaddr paddr : Nat) : Nat → Nat → Phys → Phys
  | _, 0, s => s
  | i, n + 1, s =>
    match s.leafEntry pt ((vaddr + i * pageSize) % 2 ^ 64) (pflagPresent ||| pflagWrite) with
    | (none, s) => s
    | (some (table, j), s) =>
      mapMmioFrom pt vaddr paddr (i + 1) n
        (s.writeEntry table j (BitVec.ofNat 64 (paddr + i * pageSize) ||| pflagMmio))

def mapMmio (s : Phys) (pt : Pfn) (vaddr paddr npages : Nat) : Phys :=
  mapMmioFrom pt (alignDown vaddr) (alignDown paddr) 0 npages s

/-- The top table `pte_alloc` starts with: the kernel's upper half over an empty lower half. -/
def kernelHalf (s : Phys) (i : Fin 512) : BitVec 64 :=
  match s.kernelPt with
  | some k => if 256 ≤ i.val then s.mem k i else 0
  | none => 0

def pteAlloc (s : Phys) : Option Pfn × Phys :=
  match s.pmmAllocPage with
  | (none, s) => (none, s)
  | (some p, s) =>
    let s := s.zeroPage p
    let s := { s with mem := update s.mem p s.kernelHalf }
    (some p, s.mmioRegions.foldl (fun s r => s.mapMmio p r.vaddr r.paddr r.npages) s)

def pteFree (s : Phys) (pt : Pfn) : Phys :=
  if s.kernelPt = some pt then s
  else
    (((List.finRange 512).filter (·.val < 256)).foldl (freeChild (pteFreeLevel 3) pt) s).freePte
      (physOf pt)

end Phys

end Lapis.Mm
