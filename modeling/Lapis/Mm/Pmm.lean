/-
Lapis.Mm.Pmm — the physical memory manager (pmm.c over the page database of pfn_db.c).

A `page_t *` is the number of its frame, the index into `mem_map`; a pointer that may be NULL
is an `Option`. The union `u2` of `page_t` is one word: the free list reads it as the pointer
`prev` and everybody else as `sharecount`, so the model stores the word and converts pointers
with `ptr` and `unptr`. Counters that never wrap in the properties of this development are
natural numbers. Locks are left out: the functions are atomic.

`refused` is not in the source. It counts the calls of `pmm_alloc_page` that returned NULL, so
that a statement can say that no allocation failed.
-/
import Lapis.Lib.BitFlags
import Lapis.Lib.LinkList

namespace Lapis.Mm

open Function Lib

/-- A page frame number. -/
abbrev Pfn := Nat

/-! ## page.h -/

def pageSize : Nat := 0x1000

def pageFree : BitVec 64 := .twoPow 64 0
def pageAllocated : BitVec 64 := .twoPow 64 1
def pageReserved : BitVec 64 := .twoPow 64 2
def pageShared : BitVec 64 := .twoPow 64 3
def pageCow : BitVec 64 := .twoPow 64 4
def pageDirty : BitVec 64 := .twoPow 64 5

/-- `page_t`. -/
structure Page where
  next : Option Pfn
  u2 : Nat
  flags : BitVec 64
  refcount : Nat
  deriving DecidableEq, Repr

namespace Page

def isPageFree (g : Page) : Bool := has g.flags pageFree
def isPageAllocated (g : Page) : Bool := has g.flags pageAllocated
def isPageReserved (g : Page) : Bool := has g.flags pageReserved
def isPageShared (g : Page) : Bool := has g.flags pageShared
def isPageCow (g : Page) : Bool := has g.flags pageCow
def isPageDirty (g : Page) : Bool := has g.flags pageDirty

end Page

/-- The page database and the free list. `memMap` is the address of `mem_map[0]`. -/
structure Pmm where
  memMap : Nat
  maxPfn : Nat
  pages : Pfn → Page
  freeList : Option Pfn
  freePages : Nat
  refused : Nat

namespace Pmm

/-! ## pfn_db.c: frames, physical addresses and pointers -/

/-- `sizeof(page_t)`, which is aligned to 64 bytes. -/
def sizeofPage : Nat := 64

/-- The bits of a `page_t *`. -/
def ptr (memMap : Nat) : Option Pfn → Nat
  | none => 0
  | some p => memMap + sizeofPage * p

/-- The `page_t *` with the given bits. -/
def unptr (memMap w : Nat) : Option Pfn :=
  if w = 0 then none else some ((w - memMap) / sizeofPage)

def pfnDbPageToPhys (m : Pmm) (p : Pfn) : BitVec 64 :=
  if m.maxPfn < p then 0 else BitVec.ofNat 64 (p * pageSize)

def pfnDbPhysToPage (m : Pmm) (phys : BitVec 64) : Option Pfn :=
  let pfn := phys.toNat / pageSize
  if m.maxPfn < pfn then none else some pfn

/-! ## The free list -/

def modPage (m : Pmm) (p : Pfn) (f : Page → Page) : Pmm :=
  { m with pages := update m.pages p (f (m.pages p)) }

def setNext (m : Pmm) (p : Pfn) (x : Option Pfn) : Pmm :=
  m.modPage p fun g => { g with next := x }

def setPrev (m : Pmm) (p : Pfn) (x : Option Pfn) : Pmm :=
  m.modPage p fun g => { g with u2 := ptr m.memMap x }

def freeListRemove (m : Pmm) (p : Pfn) : Pmm :=
  let prev := unptr m.memMap (m.pages p).u2
  let next := (m.pages p).next
  let m := match prev with
    | some q => m.setNext q next
    | none => { m with freeList := next }
  let m := match next with
    | some q => m.setPrev q prev
    | none => m
  (m.setNext p none).setPrev p none

def freeListPush (m : Pmm) (p : Pfn) : Pmm :=
  let m := (m.setPrev p none).setNext p m.freeList
  let m := match m.freeList with
    | some q => m.setPrev q (some p)
    | none => m
  { m with freeList := some p }

/-- `if (free_pages > 0) free_pages--`. -/
def decFreePages (m : Pmm) : Pmm :=
  if 0 < m.freePages then { m with freePages := m.freePages - 1 } else m

/-- One page of the loop of `pmm_init`. -/
def initPage (m : Pmm) (p : Pfn) : Pmm :=
  let m := (m.setNext p none).setPrev p none
  if (m.pages p).isPageFree then
    let m := m.freeListPush p
    { m with freePages := m.freePages + 1 }
  else m

def pmmInit (m : Pmm) : Pmm :=
  (List.range (m.maxPfn + 1)).foldl initPage { m with freeList := none, freePages := 0 }

/-! ## Allocation and reference counts -/

/-- The flags of a page that `pmm_alloc_page` hands out. -/
def allocFlags (flags : BitVec 64) : BitVec 64 :=
  flags &&& ~~~(pageFree ||| pageReserved ||| pageShared ||| pageCow) ||| pageAllocated

def pmmAllocPage (m : Pmm) : Option Pfn × Pmm :=
  match m.freeList with
  | none => (none, { m with refused := m.refused + 1 })
  | some p =>
    let m := (m.freeListRemove p).decFreePages
    (some p, m.modPage p fun g =>
      { g with flags := allocFlags g.flags, refcount := 1, u2 := 1 })

/-- The flags of a free page that `pmm_page_retain` takes off the free list. -/
def retainFlags (flags : BitVec 64) : BitVec 64 :=
  flags &&& ~~~(pageFree ||| pageReserved) ||| pageAllocated

def pmmPageRetain (m : Pmm) (p : Pfn) : Pmm :=
  let m :=
    if (m.pages p).isPageFree then
      (m.freeListRemove p).decFreePages.modPage p fun g =>
        { g with flags := retainFlags g.flags }
    else m
  let m := m.modPage p fun g => { g with refcount := g.refcount + 1 }
  if (m.pages p).refcount = 1 then m.modPage p fun g => { g with u2 := 1 } else m

/-- The flags of a page whose last reference `pmm_page_release` drops. -/
def freeFlags (flags : BitVec 64) : BitVec 64 :=
  flags &&& ~~~(pageAllocated ||| pageShared ||| pageCow) ||| pageFree

def pmmPageRelease (m : Pmm) (p : Pfn) : Pmm :=
  if (m.pages p).refcount = 0 then m
  else
    let m := m.modPage p fun g => { g with refcount := g.refcount - 1 }
    if 0 < (m.pages p).refcount then m
    else if (m.pages p).isPageReserved then m
    else
      let m := m.modPage p fun g => { g with flags := freeFlags g.flags, u2 := 0 }
      if (m.pages p).isPageDirty then m
      else
        let m := m.freeListPush p
        { m with freePages := m.freePages + 1 }

def pmmPageShare (m : Pmm) (p : Pfn) : Pmm :=
  let m :=
    if (m.pages p).isPageShared then m
    else
      let m := m.modPage p fun g => { g with flags := g.flags ||| pageShared }
      if (m.pages p).u2 = 0 then m.modPage p fun g => { g with u2 := 1 } else m
  m.modPage p fun g => { g with u2 := g.u2 + 1 }

def pmmPageUnshare (m : Pmm) (p : Pfn) : Pmm :=
  if (m.pages p).isPageShared then
    let m :=
      if 0 < (m.pages p).u2 then m.modPage p fun g => { g with u2 := g.u2 - 1 } else m
    if (m.pages p).u2 ≤ 1 then
      m.modPage p fun g => { g with flags := g.flags &&& ~~~pageShared }
    else m
  else m

/-! ## Contiguous pages -/

/-- The first page of a run of `count` pages from `i` on that is not free, as an offset. -/
def firstBusy (m : Pmm) (i count : Nat) : Option Nat :=
  (List.range count).find? fun j => !(m.pages (i + j)).isPageFree

/-- The search of `pmm_alloc_pages` from `i` on. Every round moves `i` up and no round is made
beyond `max_pfn`, so `max_pfn + 1` rounds are enough; `i + count` cannot wrap, because the first
round fails for a count above `max_pfn + 1`. -/
def findRun (m : Pmm) (count : Nat) : Nat → Nat → Option Pfn
  | 0, _ => none
  | rounds + 1, i =>
    if i + count - 1 ≤ m.maxPfn then
      match m.firstBusy i count with
      | some j => findRun m count rounds (i + j + 1)
      | none => some i
    else none

/-- Page `j` of the run that `pmm_alloc_pages` hands out. -/
def takePage (m : Pmm) (p : Pfn) : Pmm :=
  (m.freeListRemove p).decFreePages.modPage p fun g =>
    { g with flags := allocFlags g.flags, refcount := 1, u2 := 1 }

/-- The first `n` pages from `i` on are taken. -/
def takeRun (m : Pmm) (i : Pfn) : Nat → Pmm
  | 0 => m
  | n + 1 => (takeRun m i n).takePage (i + n)

def pmmAllocPages (m : Pmm) (count : Nat) : Option Pfn × Pmm :=
  if count = 0 then (none, m)
  else if count = 1 then m.pmmAllocPage
  else
    match m.findRun count (m.maxPfn + 1) 0 with
    | none => (none, m)
    | some i => (some i, m.takeRun i count)

def pmmPagesRelease (m : Pmm) (p : Pfn) : Nat → Pmm
  | 0 => m
  | n + 1 => (pmmPagesRelease m p n).pmmPageRelease (p + n)

/-! ## Copy-on-write marks -/

def pmmPageMarkCow (m : Pmm) (p : Pfn) : Pmm :=
  m.modPage p fun g => { g with flags := g.flags ||| pageCow }

def pmmPageClearCow (m : Pmm) (p : Pfn) : Pmm :=
  m.modPage p fun g => { g with flags := g.flags &&& ~~~pageCow }

end Pmm

end Lapis.Mm
