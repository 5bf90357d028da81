/-
Lapis.Mm.PmmTheorems — what the operations of the physical memory manager do.

The abstract page is `PageInfo`: its reference count, its flags and, for a page that is not
free, its share count. `Ok m` says that the free list is well formed: the links spell a list
of exactly the pages with `PAGE_FREE`, those have no references, and `free_pages` counts them.
Each operation keeps `Ok` and changes the information of one page only, by a function on
`PageInfo`. Everything above this layer uses these specifications and never the links.
-/
import Lapis.Mm.Pmm
import Mathlib.Data.Bool.Basic
import Mathlib.Data.List.Nodup

namespace Lapis.Mm

open Function List Lib

/-! ## Flags as bits -/

namespace Page

theorem isPageFree_eq (g : Page) : g.isPageFree = g.flags.getLsbD 0 := has_twoPow _ _
theorem isPageAllocated_eq (g : Page) : g.isPageAllocated = g.flags.getLsbD 1 := has_twoPow _ _
theorem isPageReserved_eq (g : Page) : g.isPageReserved = g.flags.getLsbD 2 := has_twoPow _ _
theorem isPageShared_eq (g : Page) : g.isPageShared = g.flags.getLsbD 3 := has_twoPow _ _
theorem isPageDirty_eq (g : Page) : g.isPageDirty = g.flags.getLsbD 5 := has_twoPow _ _

end Page

namespace Pmm

variable {i : Nat}

theorem getLsbD_allocFlags (w : BitVec 64) (hi : i < 64) :
    (allocFlags w).getLsbD i = (i == 1 || w.getLsbD i && !(i == 0 || i == 2 || i == 3 || i == 4)) := by
  simp only [allocFlags, pageFree, pageReserved, pageShared, pageCow, pageAllocated,
    BitVec.getLsbD_or, BitVec.getLsbD_and, BitVec.getLsbD_not, BitVec.getLsbD_twoPow, hi]
  grind

theorem getLsbD_retainFlags (w : BitVec 64) (hi : i < 64) :
    (retainFlags w).getLsbD i = (i == 1 || w.getLsbD i && !(i == 0 || i == 2)) := by
  simp only [retainFlags, pageFree, pageReserved, pageAllocated,
    BitVec.getLsbD_or, BitVec.getLsbD_and, BitVec.getLsbD_not, BitVec.getLsbD_twoPow, hi]
  grind

theorem getLsbD_freeFlags (w : BitVec 64) (hi : i < 64) :
    (freeFlags w).getLsbD i = (i == 0 || w.getLsbD i && !(i == 1 || i == 3 || i == 4)) := by
  simp only [freeFlags, pageFree, pageShared, pageCow, pageAllocated,
    BitVec.getLsbD_or, BitVec.getLsbD_and, BitVec.getLsbD_not, BitVec.getLsbD_twoPow, hi]
  grind

end Pmm

/-! ## The abstract page -/

/-- What a page is to the rest of the kernel. -/
@[ext]
structure PageInfo where
  refcount : Nat
  flags : BitVec 64
  share : Nat

namespace PageInfo

def free (i : PageInfo) : Bool := has i.flags pageFree
def reserved (i : PageInfo) : Bool := has i.flags pageReserved
def shared (i : PageInfo) : Bool := has i.flags pageShared

theorem free_eq (i : PageInfo) : i.free = i.flags.getLsbD 0 := has_twoPow _ _
theorem reserved_eq (i : PageInfo) : i.reserved = i.flags.getLsbD 2 := has_twoPow _ _

/-- A page as `pmm_alloc_page` hands it out. -/
def alloc (i : PageInfo) : PageInfo := ⟨1, Pmm.allocFlags i.flags, 1⟩

theorem free_alloc (i : PageInfo) : i.alloc.free = false := by
  rw [free_eq, alloc, Pmm.getLsbD_allocFlags _ (by decide)]
  simp

theorem reserved_alloc (i : PageInfo) : i.alloc.reserved = false := by
  rw [reserved_eq, alloc, Pmm.getLsbD_allocFlags _ (by decide)]
  simp

def retain (i : PageInfo) : PageInfo where
  refcount := i.refcount + 1
  flags := if i.free then Pmm.retainFlags i.flags else i.flags
  share := if i.refcount = 0 then 1 else i.share

def release (i : PageInfo) : PageInfo :=
  if 1 < i.refcount then { i with refcount := i.refcount - 1 }
  else if i.refcount = 0 then i
  else if i.reserved then { i with refcount := 0 }
  else ⟨0, Pmm.freeFlags i.flags, 0⟩

theorem free_release {i : PageInfo} (hcount : i.refcount = 1) (hres : i.reserved = false) :
    i.release.free = true := by
  have hrel : i.release = ⟨0, Pmm.freeFlags i.flags, 0⟩ := by simp [release, hcount, hres]
  rw [hrel, free_eq, Pmm.getLsbD_freeFlags _ (by decide)]
  rfl

def doShare (i : PageInfo) : PageInfo where
  refcount := i.refcount
  flags := if i.shared then i.flags else i.flags ||| pageShared
  share := if i.shared = false ∧ i.share = 0 then 2 else i.share + 1

def unshare (i : PageInfo) : PageInfo :=
  if i.shared then
    { i with
      share := i.share - 1
      flags := if i.share - 1 ≤ 1 then i.flags &&& ~~~pageShared else i.flags }
  else i

end PageInfo

/-- A page as the rest of the kernel sees it: the word `u2` of a free page is a link. -/
def Page.info (g : Page) : PageInfo := ⟨g.refcount, g.flags, bif g.isPageFree then 0 else g.u2⟩

theorem Page.info_free (g : Page) : g.info.free = g.isPageFree := rfl

theorem Page.info_of_held {g : Page} (h : g.isPageFree = false) : g.info = ⟨g.refcount, g.flags, g.u2⟩ := by
  simp [Page.info, h]

/-- What the list operations leave of a page. -/
def Page.mark (g : Page) : BitVec 64 × Nat := (g.flags, g.refcount)

namespace Pmm

variable {m : Pmm} {p : Pfn}

def info (m : Pmm) (p : Pfn) : PageInfo := (m.pages p).info

def links (m : Pmm) : LinkList Pfn where
  next p := (m.pages p).next
  prev p := unptr m.memMap (m.pages p).u2
  head := m.freeList

/-- The free list is `fl`. -/
structure Valid (m : Pmm) (fl : List Pfn) : Prop where
  links : m.links.Holds fl
  mem_iff : ∀ p, p ∈ fl ↔ (m.pages p).isPageFree = true
  free_le : ∀ p ∈ fl, p ≤ m.maxPfn
  free_zero : ∀ p ∈ fl, (m.pages p).refcount = 0
  clean : ∀ p, (m.pages p).isPageDirty = false
  count : m.freePages = fl.length
  memMap_pos : 0 < m.memMap
  zero : 0 ∉ fl ∧ (m.pages 0).isPageReserved = true
  plain : ∀ p ∈ fl, (m.pages p).isPageAllocated = false ∧ (m.pages p).isPageShared = false
  counted : ∀ p, p ∉ fl → (m.pages p).isPageReserved = false → 0 < (m.pages p).refcount

/-- The free list is well formed. -/
def Ok (m : Pmm) : Prop := ∃ fl, m.Valid fl

theorem unptr_ptr {memMap : Nat} (h : 0 < memMap) (x : Option Pfn) : unptr memMap (ptr memMap x) = x := by
  cases x with
  | none => rfl
  | some p =>
    have hne : memMap + sizeofPage * p ≠ 0 := by omega
    unfold unptr ptr
    rw [if_neg hne, Nat.add_sub_cancel_left, Nat.mul_div_cancel_left p (by decide)]

theorem unptr_zero (memMap : Nat) : unptr memMap 0 = none := rfl

theorem ptr_none (memMap : Nat) : ptr memMap none = 0 := rfl

/-! ## Changing a page that is not free -/

@[simp]
theorem pages_modPage (m : Pmm) (p : Pfn) (f : Page → Page) :
    (m.modPage p f).pages = update m.pages p (f (m.pages p)) := rfl

theorem info_modPage (m : Pmm) (p : Pfn) (f : Page → Page) :
    (m.modPage p f).info = update m.info p (f (m.pages p)).info := by
  funext q
  by_cases hq : q = p
  · subst hq
    simp [info]
  · simp [info, hq]

variable {fl : List Pfn} {f : Page → Page}

/-- What a free list says of one page. -/
def PageOk (fl : List Pfn) (maxPfn : Nat) (p : Pfn) (g : Page) : Prop :=
  (p ∈ fl ↔ g.isPageFree = true) ∧ g.isPageDirty = false ∧
    (p = 0 → p ∉ fl ∧ g.isPageReserved = true) ∧
    (p ∈ fl → p ≤ maxPfn ∧ g.refcount = 0 ∧ g.isPageAllocated = false ∧ g.isPageShared = false) ∧
    (p ∉ fl → g.isPageReserved = false → 0 < g.refcount)

theorem Valid.pageOk (h : m.Valid fl) (p : Pfn) : PageOk fl m.maxPfn p (m.pages p) :=
  ⟨h.mem_iff p, h.clean p, by rintro rfl; exact h.zero,
    fun hp => ⟨h.free_le p hp, h.free_zero p hp, h.plain p hp⟩, h.counted p⟩

theorem PageOk.congr {n : Nat} {g g' : Page} (h : PageOk fl n p g) (hmark : g'.mark = g.mark) :
    PageOk fl n p g' := by
  obtain ⟨hflags, hrefs⟩ := Prod.mk.inj hmark
  simp only [PageOk, Page.isPageFree, Page.isPageDirty, Page.isPageReserved, Page.isPageAllocated,
    Page.isPageShared] at h ⊢
  rwa [hflags, hrefs]

theorem valid_of_pageOk (hlinks : m.links.Holds fl) (hcount : m.freePages = fl.length)
    (hmap : 0 < m.memMap) (hpages : ∀ p, PageOk fl m.maxPfn p (m.pages p)) : m.Valid fl :=
  ⟨hlinks, fun q => (hpages q).1, fun q hq => ((hpages q).2.2.2.1 hq).1,
    fun q hq => ((hpages q).2.2.2.1 hq).2.1, fun q => (hpages q).2.1, hcount, hmap,
    (hpages 0).2.2.1 rfl, fun q hq => ((hpages q).2.2.2.1 hq).2.2, fun q => (hpages q).2.2.2.2⟩

/-- The list and one page change. -/
theorem Valid.relist (h : m.Valid fl) {m' : Pmm} {fl' : List Pfn} (hlinks : m'.links.Holds fl')
    (hcount : m'.freePages = fl'.length) (hmap : m'.memMap = m.memMap) (hmax : m'.maxPfn = m.maxPfn)
    (hother : ∀ q, q ≠ p → (q ∈ fl' ↔ q ∈ fl) ∧ (m'.pages q).mark = (m.pages q).mark)
    (hp : PageOk fl' m.maxPfn p (m'.pages p)) : m'.Valid fl' := by
  refine valid_of_pageOk hlinks hcount (hmap ▸ h.memMap_pos) fun q => ?_
  rw [hmax]
  by_cases hq : q = p
  · exact hq ▸ hp
  · obtain ⟨hmem, hmark⟩ := hother q hq
    have hok := (h.pageOk q).congr hmark
    rwa [PageOk, ← hmem] at hok

theorem links_modPage (h : m.links.Holds fl) (hp : p ∉ fl) : (m.modPage p f).links.Holds fl := by
  have hother : ∀ q ∈ fl, (m.modPage p f).pages q = m.pages q := by
    intro q hq
    have hne : q ≠ p := by rintro rfl; exact hp hq
    simp [hne]
  refine h.congr rfl ?_ ?_
  · intro q hq
    exact congrArg Page.next (hother q hq)
  · intro q hq
    exact congrArg (fun g => unptr m.memMap g.u2) (hother q hq)

theorem Valid.modPage (h : m.Valid fl) (hp : p ∉ fl)
    (hfree : (f (m.pages p)).isPageFree = false) (hclean : (f (m.pages p)).isPageDirty = false)
    (hres : (f (m.pages p)).isPageReserved = (m.pages p).isPageReserved)
    (hpos : (m.pages p).isPageReserved = false → 0 < (f (m.pages p)).refcount) :
    (m.modPage p f).Valid fl := by
  refine h.relist (p := p) (links_modPage h.links hp) h.count rfl rfl (fun q hq => by simp [hq]) ?_
  rw [pages_modPage, update_self, PageOk, hres]
  exact ⟨iff_of_false hp (by simp [hfree]), hclean, (h.pageOk p).2.2.1, fun hin => absurd hin hp,
    fun _ => hpos⟩

theorem Valid.held_iff (h : m.Valid fl) : p ∉ fl ↔ (m.pages p).isPageFree = false := by
  rw [h.mem_iff, Bool.not_eq_true]

/-! ## The free list operations -/

section Links

variable (m : Pmm) (p q : Pfn) (x : Option Pfn)

@[simp] theorem mark_setNext : ((m.setNext p x).pages q).mark = (m.pages q).mark := by
  by_cases hq : q = p <;> simp [setNext, hq, Page.mark]

@[simp] theorem u2_setNext : ((m.setNext p x).pages q).u2 = (m.pages q).u2 := by
  by_cases hq : q = p <;> simp [setNext, hq]

@[simp] theorem mark_setPrev : ((m.setPrev p x).pages q).mark = (m.pages q).mark := by
  by_cases hq : q = p <;> simp [setPrev, hq, Page.mark]

@[simp] theorem next_setPrev : ((m.setPrev p x).pages q).next = (m.pages q).next := by
  by_cases hq : q = p <;> simp [setPrev, hq]

theorem next_setNext : ((m.setNext p x).pages q).next = if q = p then x else (m.pages q).next := by
  by_cases hq : q = p <;> simp [setNext, hq]

theorem u2_setPrev : ((m.setPrev p x).pages q).u2 = if q = p then ptr m.memMap x else (m.pages q).u2 := by
  by_cases hq : q = p <;> simp [setPrev, hq]

@[simp] theorem memMap_setNext : (m.setNext p x).memMap = m.memMap := rfl
@[simp] theorem memMap_setPrev : (m.setPrev p x).memMap = m.memMap := rfl
@[simp] theorem freeList_setNext : (m.setNext p x).freeList = m.freeList := rfl
@[simp] theorem freeList_setPrev : (m.setPrev p x).freeList = m.freeList := rfl

theorem mark_freeListRemove : ((m.freeListRemove p).pages q).mark = (m.pages q).mark := by
  unfold freeListRemove
  dsimp only
  split <;> split <;> simp

theorem u2_freeListRemove : ((m.freeListRemove p).pages q).u2 = if q = p then 0
      else if (m.pages p).next = some q then ptr m.memMap (unptr m.memMap (m.pages p).u2)
      else (m.pages q).u2 := by
  unfold freeListRemove
  dsimp only
  split <;> split <;> grind [u2_setPrev, u2_setNext, memMap_setPrev, memMap_setNext, ptr_none]

theorem next_freeListRemove : ((m.freeListRemove p).pages q).next = if q = p then none
      else if unptr m.memMap (m.pages p).u2 = some q then (m.pages p).next else (m.pages q).next := by
  unfold freeListRemove
  dsimp only
  split <;> split <;> grind [next_setPrev, next_setNext]

theorem mark_freeListPush : ((m.freeListPush p).pages q).mark = (m.pages q).mark := by
  unfold freeListPush
  dsimp only
  split <;> simp

theorem u2_freeListPush : ((m.freeListPush p).pages q).u2 = if m.freeList = some q then ptr m.memMap (some p)
      else if q = p then 0 else (m.pages q).u2 := by
  unfold freeListPush
  dsimp only
  split <;> grind [u2_setPrev, u2_setNext, memMap_setPrev, memMap_setNext, freeList_setPrev,
    freeList_setNext, ptr_none]

theorem next_freeListPush :
    ((m.freeListPush p).pages q).next = if q = p then m.freeList else (m.pages q).next := by
  unfold freeListPush
  dsimp only
  split <;> grind [next_setPrev, next_setNext, freeList_setPrev, freeList_setNext]

@[simp] theorem memMap_freeListRemove : (m.freeListRemove p).memMap = m.memMap := by
  unfold freeListRemove
  dsimp only
  split <;> split <;> rfl

theorem freeList_freeListRemove : (m.freeListRemove p).freeList =
      if unptr m.memMap (m.pages p).u2 = none then (m.pages p).next else m.freeList := by
  unfold freeListRemove
  dsimp only
  split <;> split <;> simp_all

/-- The counters, which the list operations leave alone. -/
def counters (m : Pmm) : Nat × Nat × Nat := (m.maxPfn, m.freePages, m.refused)

@[simp] theorem counters_freeListRemove : (m.freeListRemove p).counters = m.counters := by
  unfold freeListRemove
  dsimp only
  split <;> split <;> rfl

@[simp] theorem memMap_freeListPush : (m.freeListPush p).memMap = m.memMap := by
  unfold freeListPush
  dsimp only
  split <;> rfl

@[simp] theorem counters_freeListPush : (m.freeListPush p).counters = m.counters := by
  unfold freeListPush
  dsimp only
  split <;> rfl

end Links

theorem links_freeListRemove (h : 0 < m.memMap) : (m.freeListRemove p).links = m.links.unlink p := by
  ext1
  · funext q
    simp only [links, next_freeListRemove, LinkList.unlink]
    cases unptr m.memMap (m.pages p).u2 <;> grind [update_apply]
  · funext q
    simp only [links, u2_freeListRemove, memMap_freeListRemove, LinkList.unlink]
    cases (m.pages p).next <;> grind [update_apply, unptr_ptr, unptr_zero]
  · simp only [links, freeList_freeListRemove, LinkList.unlink]
    cases unptr m.memMap (m.pages p).u2 <;> simp

theorem links_freeListPush (h : 0 < m.memMap) (hp : m.freeList ≠ some p) :
    (m.freeListPush p).links = m.links.pushFront p := by
  ext1
  · funext q
    simp only [links, next_freeListPush, LinkList.pushFront, update_apply]
  · funext q
    simp only [links, u2_freeListPush, memMap_freeListPush, LinkList.pushFront]
    cases hhead : m.freeList <;> grind [update_apply, unptr_ptr, unptr_zero]
  · rfl

theorem links_push (h : m.links.Holds fl) (hp : p ∉ fl) (hpos : 0 < m.memMap) :
    (m.freeListPush p).links.Holds (p :: fl) := by
  have hnot : m.freeList ≠ some p := by
    intro hhead
    obtain ⟨ys, hys⟩ := h.head_eq_some_iff.mp hhead
    exact hp (by rw [hys]; simp)
  exact links_freeListPush hpos hnot ▸ h.pushFront hp

/-! ## Taking a page off the free list and putting it back -/

/-- The page `p` with its links cleared. -/
def unlinked (m : Pmm) (p : Pfn) : Page := { m.pages p with next := none, u2 := 0 }

theorem freeListRemove_self (m : Pmm) (p : Pfn) : (m.freeListRemove p).pages p = m.unlinked p := by
  rcases hg : (m.freeListRemove p).pages p with ⟨next, u2, flags, refcount⟩
  have hmark := mark_freeListRemove m p p
  have hnext := next_freeListRemove m p p
  have hu2 := u2_freeListRemove m p p
  simp_all [unlinked, Page.mark]

/-- The page database after `p` was taken off the free list and changed by `f`. -/
def takeOff (m : Pmm) (p : Pfn) (f : Page → Page) : Pmm :=
  (m.freeListRemove p).decFreePages.modPage p f

theorem decFreePages_eq (m : Pmm) : m.decFreePages = { m with freePages := m.freePages - 1 } := by
  unfold decFreePages
  split
  · rfl
  · have : m.freePages - 1 = m.freePages := by omega
    rw [this]

section TakeOff

variable {A B : List Pfn} {f : Page → Page}

theorem takeOff_self (m : Pmm) (p : Pfn) (f : Page → Page) : (m.takeOff p f).pages p = f (m.unlinked p) := by
  simp [takeOff, decFreePages_eq, freeListRemove_self]

theorem takeOff_other {q : Pfn} (hq : q ≠ p) : (m.takeOff p f).pages q = (m.freeListRemove p).pages q := by
  simp [takeOff, decFreePages_eq, hq]

@[simp] theorem memMap_takeOff : (m.takeOff p f).memMap = m.memMap := by
  rw [← memMap_freeListRemove m p, takeOff, decFreePages_eq]
  rfl

@[simp] theorem freeList_takeOff : (m.takeOff p f).freeList = (m.freeListRemove p).freeList := by
  rw [takeOff, decFreePages_eq]
  rfl

theorem counters_takeOff : (m.takeOff p f).maxPfn = m.maxPfn ∧
    (m.takeOff p f).freePages = m.freePages - 1 ∧ (m.takeOff p f).refused = m.refused := by
  have h := counters_freeListRemove m p
  simp only [counters, Prod.mk.injEq] at h
  simp only [takeOff, decFreePages_eq, modPage, h.1, h.2.1, h.2.2, and_self]

theorem links_takeOff (h : m.links.Holds (A ++ p :: B)) (hpos : 0 < m.memMap) :
    (m.takeOff p f).links.Holds (A ++ B) := by
  have hne : ∀ q ∈ A ++ B, q ≠ p := by
    rintro q hq rfl
    exact (nodup_middle.mp h.nodup).notMem hq
  have hlinks : (m.freeListRemove p).links.Holds (A ++ B) := links_freeListRemove hpos ▸ h.unlink
  refine hlinks.congr (freeList_takeOff (f := f)) ?_ ?_
  · intro q hq
    exact congrArg Page.next (takeOff_other (hne q hq))
  · intro q hq
    simp only [Pmm.links, takeOff_other (hne q hq), memMap_takeOff, memMap_freeListRemove]

theorem Valid.takeOff (h : m.Valid (A ++ p :: B)) (hfree : (f (m.unlinked p)).isPageFree = false)
    (hclean : (f (m.unlinked p)).isPageDirty = false)
    (hpos : 0 < (f (m.unlinked p)).refcount) : (m.takeOff p f).Valid (A ++ B) := by
  have hp := (nodup_middle.mp h.links.nodup).notMem
  obtain ⟨hmax, hcount, -⟩ := counters_takeOff (m := m) (p := p) (f := f)
  refine h.relist (p := p) (links_takeOff h.links h.memMap_pos) ?_ memMap_takeOff hmax (fun q hq => ?_) ?_
  · have hlen := h.count
    simp only [length_append, length_cons] at hlen
    rw [hcount, length_append]
    omega
  · rw [takeOff_other hq, mark_freeListRemove]
    simp [hq]
  · rw [takeOff_self]
    exact ⟨iff_of_false hp (by simp [hfree]), hclean, fun h0 => absurd (h0 ▸ h.zero.1) (by simp),
      fun hin => absurd hin hp, fun _ _ => hpos⟩

/-- No other page changes, as far as the rest of the kernel can see. -/
theorem Valid.info_takeOff (h : m.Valid (A ++ p :: B)) :
    (m.takeOff p f).info = update m.info p (f (m.unlinked p)).info := by
  funext q
  by_cases hq : q = p
  · subst hq
    simp [info, takeOff_self]
  obtain ⟨hflags, hcount⟩ := Prod.mk.inj (mark_freeListRemove m p q)
  rw [update_of_ne hq]
  simp only [info, Page.info, takeOff_other hq, hcount, hflags, Page.isPageFree]
  cases hfree : has (m.pages q).flags pageFree with
  | true => rfl
  | false =>
  -- only the successor of `p` gets a new word, and it is free
  have hnext : (m.pages p).next ≠ some q := by
    intro hnext
    have hmem : q ∈ B := List.mem_of_head? ((h.links.spells A p B rfl).2 ▸ hnext)
    exact Bool.false_ne_true (hfree.symm.trans ((h.mem_iff q).mp (by simp [hmem])))
  have hu2 := u2_freeListRemove m p q
  rw [if_neg hq, if_neg hnext] at hu2
  rw [hu2]

end TakeOff

/-- The page database after `p` was changed by `f` and put on the free list. -/
def putBack (m : Pmm) (p : Pfn) (f : Page → Page) : Pmm :=
  let m := (m.modPage p f).freeListPush p
  { m with freePages := m.freePages + 1 }

section PutBack

variable {fl : List Pfn} {f : Page → Page}

theorem mark_putBack (m : Pmm) (p q : Pfn) (f : Page → Page) :
    ((m.putBack p f).pages q).mark = (update m.pages p (f (m.pages p)) q).mark :=
  mark_freeListPush _ _ _

theorem counters_putBack (m : Pmm) (p : Pfn) (f : Page → Page) : (m.putBack p f).maxPfn = m.maxPfn ∧
    (m.putBack p f).freePages = m.freePages + 1 ∧ (m.putBack p f).refused = m.refused := by
  have h := counters_freeListPush (m.modPage p f) p
  simp only [counters, Prod.mk.injEq] at h
  simp only [putBack, h.1, h.2.1, h.2.2]
  exact ⟨rfl, rfl, rfl⟩

theorem links_putBack (h : m.links.Holds fl) (hp : p ∉ fl) (hpos : 0 < m.memMap) :
    (m.putBack p f).links.Holds (p :: fl) :=
  (links_push (links_modPage h hp) hp hpos).congr rfl (fun _ _ => rfl) (fun _ _ => rfl)

theorem Valid.putBack (h : m.Valid fl) (hp : p ∉ fl)
    (hfree : (f (m.pages p)).isPageFree = true) (hclean : (f (m.pages p)).isPageDirty = false)
    (hcount : (f (m.pages p)).refcount = 0) (hle : p ≤ m.maxPfn) (hp0 : p ≠ 0)
    (hplain : (f (m.pages p)).isPageAllocated = false ∧ (f (m.pages p)).isPageShared = false) :
    (m.putBack p f).Valid (p :: fl) := by
  obtain ⟨hmax, hpages, -⟩ := counters_putBack m p f
  refine h.relist (p := p) (links_putBack h.links hp h.memMap_pos)
    (by rw [hpages, h.count, length_cons]) (memMap_freeListPush _ _) hmax (fun q hq => ?_) ?_
  · rw [mark_putBack, update_of_ne hq]
    simp [hq]
  have hmark := mark_putBack m p p f
  rw [update_self] at hmark
  exact PageOk.congr ⟨iff_of_true mem_cons_self hfree, hclean, fun h0 => absurd h0 hp0,
    fun _ => ⟨hle, hcount, hplain⟩, fun hin => absurd mem_cons_self hin⟩ hmark

theorem Valid.info_putBack (h : m.Valid fl) (hfree : (f (m.pages p)).isPageFree = true) :
    (m.putBack p f).info = update m.info p (f (m.pages p)).info := by
  have hinfo : ∀ q, (m.putBack p f).info q =
      ⟨(update m.pages p (f (m.pages p)) q).refcount, (update m.pages p (f (m.pages p)) q).flags,
        bif has (update m.pages p (f (m.pages p)) q).flags pageFree then 0
        else ((m.putBack p f).pages q).u2⟩ := by
    intro q
    obtain ⟨hflags, hcount⟩ := Prod.mk.inj (mark_putBack m p q f)
    simp only [info, Page.info, Page.isPageFree, hcount, hflags]
  funext q
  rw [hinfo]
  by_cases hq : q = p
  · subst hq
    have hfree' : has (f (m.pages q)).flags pageFree = true := hfree
    simp [Page.info, hfree', Page.isPageFree]
  simp only [update_of_ne hq, info, Page.info, Page.isPageFree]
  cases hfq : has (m.pages q).flags pageFree with
  | true => rfl
  | false =>
  -- only the old head of the list gets a new word, and it is free
  have hhead : m.freeList ≠ some q := by
    intro hhead
    obtain ⟨ys, hys⟩ := h.links.head_eq_some_iff.mp hhead
    exact Bool.false_ne_true (hfq.symm.trans ((h.mem_iff q).mp (by rw [hys]; simp)))
  have hu2 : ((m.putBack p f).pages q).u2 = (m.pages q).u2 := by
    have hpush := u2_freeListPush (m.modPage p f) p q
    have hhead' : (m.modPage p f).freeList ≠ some q := hhead
    rwa [if_neg hhead', if_neg hq, pages_modPage, update_of_ne hq] at hpush
  rw [hu2]

end PutBack

/-! ## The operations -/

/-- What every operation keeps. -/
structure Keeps (m m' : Pmm) : Prop where
  ok : m'.Ok
  maxPfn : m'.maxPfn = m.maxPfn
  refused : m'.refused = m.refused

section

variable (h : m.Ok)

include h

/-- Taking one free page out of the list. -/
theorem takeOff_spec (hp : (m.info p).free = true)
    (hfree : (f (m.unlinked p)).flags.getLsbD 0 = false)
    (hclean : (f (m.unlinked p)).flags.getLsbD 5 = (m.pages p).flags.getLsbD 5)
    (hpos : 0 < (f (m.unlinked p)).refcount) :
    m.Keeps (m.takeOff p f) ∧ (m.takeOff p f).info = update m.info p
      ⟨(f (m.unlinked p)).refcount, (f (m.unlinked p)).flags, (f (m.unlinked p)).u2⟩ := by
  obtain ⟨fl, hfl⟩ := h
  obtain ⟨A, B, rfl⟩ := append_of_mem ((hfl.mem_iff p).mpr hp)
  rw [← Page.isPageFree_eq] at hfree
  rw [← Page.isPageDirty_eq, ← Page.isPageDirty_eq, hfl.clean] at hclean
  have hcounters := counters_takeOff (m := m) (p := p) (f := f)
  refine ⟨⟨⟨_, hfl.takeOff hfree hclean hpos⟩, hcounters.1, hcounters.2.2⟩, ?_⟩
  rw [hfl.info_takeOff, Page.info_of_held hfree]

theorem takePage_spec (hp : (m.info p).free = true) :
    m.Keeps (m.takePage p) ∧ (m.takePage p).info = update m.info p (m.info p).alloc := by
  refine takeOff_spec h hp ?_ ?_ Nat.one_pos
  · rw [getLsbD_allocFlags _ (by decide)]
    simp
  · rw [getLsbD_allocFlags _ (by decide)]
    simp [unlinked]

/-- `pmm_alloc_page` fails only when no page is free, and otherwise hands out a free page. -/
theorem pmmAllocPage_spec : (m.pmmAllocPage = (none, { m with refused := m.refused + 1 }) ∧
        ∀ p, (m.info p).free = false) ∨
      ∃ p m', m.pmmAllocPage = (some p, m') ∧ (m.info p).free = true ∧ p ≤ m.maxPfn ∧ p ≠ 0 ∧
        m.Keeps m' ∧ m'.info = update m.info p (m.info p).alloc := by
  obtain ⟨fl, hfl⟩ := h
  cases hhead : m.freeList with
  | none =>
    left
    have hnil := hfl.links.head_eq_none_iff.mp hhead
    refine ⟨by simp [pmmAllocPage, hhead], fun p => ?_⟩
    exact hfl.held_iff.mp (by simp [hnil])
  | some p =>
  right
  obtain ⟨ys, rfl⟩ := hfl.links.head_eq_some_iff.mp hhead
  have hmem : p ∈ p :: ys := by simp
  have hfree := (hfl.mem_iff p).mp hmem
  obtain ⟨hkeeps, hinfo⟩ := takePage_spec ⟨_, hfl⟩ hfree
  refine ⟨p, m.takePage p, ?_, hfree, hfl.free_le p hmem, ?_, hkeeps, hinfo⟩
  · simp only [pmmAllocPage, hhead]
    rfl
  · rintro rfl
    exact hfl.zero.1 hmem

/-- A refused allocation is counted, and that is all. -/
theorem Ok.refuse : Ok { m with refused := m.refused + 1 } := by
  obtain ⟨fl, hfl⟩ := h
  exact ⟨fl, hfl.links, hfl.mem_iff, hfl.free_le, hfl.free_zero, hfl.clean, hfl.count,
    hfl.memMap_pos, hfl.zero, hfl.plain, hfl.counted⟩

theorem Ok.clean (p : Pfn) : (m.pages p).flags.getLsbD 5 = false := by
  obtain ⟨fl, hfl⟩ := h
  rw [← Page.isPageDirty_eq]
  exact hfl.clean p

theorem Ok.counted (hp : (m.info p).free = false)
    (hres : (m.pages p).isPageReserved = false) : 0 < (m.pages p).refcount := by
  obtain ⟨fl, hfl⟩ := h
  exact hfl.counted p (hfl.held_iff.mpr hp) hres

theorem Ok.reserved_zero : (m.pages 0).isPageReserved = true := by
  obtain ⟨fl, hfl⟩ := h
  exact hfl.zero.2

theorem Ok.free_refcount (hp : (m.info p).free = true) : (m.info p).refcount = 0 := by
  obtain ⟨fl, hfl⟩ := h
  exact hfl.free_zero p ((hfl.mem_iff p).mpr hp)

/-- An operation that only changes the fields of a page that is not free. -/
theorem modPage_spec (hp : (m.info p).free = false) (hfree : (f (m.pages p)).flags.getLsbD 0 = false)
    (hclean : (f (m.pages p)).flags.getLsbD 5 = (m.pages p).flags.getLsbD 5)
    (hres : (f (m.pages p)).flags.getLsbD 2 = (m.pages p).flags.getLsbD 2)
    (hpos : (m.pages p).isPageReserved = false → 0 < (f (m.pages p)).refcount) :
    m.Keeps (m.modPage p f) ∧ (m.modPage p f).info = update m.info p
      ⟨(f (m.pages p)).refcount, (f (m.pages p)).flags, (f (m.pages p)).u2⟩ := by
  have hheld : (f (m.pages p)).isPageFree = false := by rw [Page.isPageFree_eq, hfree]
  have hnotDirty : (f (m.pages p)).isPageDirty = false := by
    rw [Page.isPageDirty_eq, hclean, h.clean]
  obtain ⟨fl, hfl⟩ := h
  refine ⟨⟨⟨fl, hfl.modPage (hfl.held_iff.mpr hp) hheld hnotDirty ?_ hpos⟩, rfl, rfl⟩, ?_⟩
  · rw [Page.isPageReserved_eq, Page.isPageReserved_eq, hres]
  · rw [info_modPage, Page.info_of_held hheld]

end

theorem Keeps.trans {m1 m2 m3 : Pmm} (h : m1.Keeps m2) (h' : m2.Keeps m3) : m1.Keeps m3 :=
  ⟨h'.ok, h'.maxPfn.trans h.maxPfn, h'.refused.trans h.refused⟩

theorem modPage_modPage (m : Pmm) (p : Pfn) (f g : Page → Page) :
    (m.modPage p f).modPage p g = m.modPage p (g ∘ f) := by
  simp [modPage]

section Held

variable (h : m.Ok) (hp : (m.info p).free = false)

include hp in
theorem info_eq_of_held : m.info p = ⟨(m.pages p).refcount, (m.pages p).flags, (m.pages p).u2⟩ :=
  Page.info_of_held hp

include hp in
theorem freeBit_of_held : (m.pages p).flags.getLsbD 0 = false := by
  rwa [← Page.isPageFree_eq]

include h hp

theorem pmmPageShare_spec : m.Keeps (m.pmmPageShare p) ∧
      (m.pmmPageShare p).info = update m.info p (m.info p).doShare := by
  have hbit := freeBit_of_held hp
  rw [info_eq_of_held hp]
  unfold pmmPageShare PageInfo.doShare PageInfo.shared
  dsimp only
  by_cases hs : has (m.pages p).flags pageShared
  · rw [if_pos (show (m.pages p).isPageShared = true from hs)]
    simp only [hs, if_true, Bool.true_eq_false, false_and, if_false]
    exact modPage_spec h hp hbit rfl rfl (h.counted hp)
  rw [if_neg (show ¬ (m.pages p).isPageShared = true from hs)]
  simp only [Bool.not_eq_true] at hs
  simp only [hs, Bool.false_eq_true, if_false, true_and, pages_modPage, update_self]
  by_cases hzero : (m.pages p).u2 = 0
  · rw [if_pos hzero, if_pos hzero, modPage_modPage, modPage_modPage]
    refine modPage_spec h hp ?_ ?_ ?_ (h.counted hp)
    · simpa [pageShared] using hbit
    · simp [pageShared]
    · simp [pageShared]
  · rw [if_neg hzero, if_neg hzero, modPage_modPage]
    refine modPage_spec h hp ?_ ?_ ?_ (h.counted hp)
    · simpa [pageShared] using hbit
    · simp [pageShared]
    · simp [pageShared]

theorem pmmPageUnshare_spec : m.Keeps (m.pmmPageUnshare p) ∧
      (m.pmmPageUnshare p).info = update m.info p (m.info p).unshare := by
  have hbit := freeBit_of_held hp
  rw [info_eq_of_held hp]
  unfold pmmPageUnshare PageInfo.unshare PageInfo.shared
  dsimp only
  by_cases hs : has (m.pages p).flags pageShared
  · rw [if_pos (show (m.pages p).isPageShared = true from hs), if_pos hs]
    have hdec : (if 0 < (m.pages p).u2 then m.modPage p fun g => { g with u2 := g.u2 - 1 } else m)
        = m.modPage p fun g => { g with u2 := g.u2 - 1 } := by
      split
      · rfl
      · have hzero : (m.pages p).u2 - 1 = (m.pages p).u2 := by omega
        simp [modPage, hzero]
    rw [hdec]
    simp only [pages_modPage, update_self]
    by_cases hone : (m.pages p).u2 - 1 ≤ 1
    · rw [if_pos hone, if_pos hone, modPage_modPage]
      refine modPage_spec h hp ?_ ?_ ?_ (h.counted hp)
      · exact (BitVec.getLsbD_and ..).trans (by rw [hbit, Bool.false_and])
      · simp [pageShared]
      · simp [pageShared]
    · rw [if_neg hone, if_neg hone]
      exact modPage_spec h hp hbit rfl rfl (h.counted hp)
  · rw [if_neg (show ¬ (m.pages p).isPageShared = true from hs), if_neg hs,
      ← info_eq_of_held hp, update_eq_self]
    exact ⟨⟨h, rfl, rfl⟩, rfl⟩

end Held

/-- `pmm_page_retain` also takes a free page off the list. -/
theorem pmmPageRetain_spec (h : m.Ok) : m.Keeps (m.pmmPageRetain p) ∧
      (m.pmmPageRetain p).info = update m.info p (m.info p).retain := by
  cases hp : (m.info p).free with
  | false =>
    have hbit := freeBit_of_held hp
    have hheld : ¬ (m.pages p).isPageFree = true := by
      rw [Page.isPageFree_eq, hbit]
      exact Bool.false_ne_true
    unfold pmmPageRetain PageInfo.retain
    dsimp only
    rw [if_neg hheld, hp, info_eq_of_held hp]
    simp only [pages_modPage, update_self, Bool.false_eq_true, if_false]
    by_cases hone : (m.pages p).refcount = 0
    · rw [if_pos (by omega), if_pos hone, modPage_modPage]
      exact modPage_spec h hp hbit rfl rfl fun _ => Nat.succ_pos _
    · rw [if_neg (by omega), if_neg hone]
      exact modPage_spec h hp hbit rfl rfl fun _ => Nat.succ_pos _
  | true =>
  have hcount := h.free_refcount hp
  have hflag : (m.pages p).isPageFree = true := hp
  set f : Page → Page := fun g => ⟨g.next, 1, retainFlags g.flags, 1⟩
  have heq : m.pmmPageRetain p = m.takeOff p f := by
    have hcount' : ((m.freeListRemove p).decFreePages.pages p).refcount = 0 := by
      rw [decFreePages_eq]
      exact (Prod.mk.inj (mark_freeListRemove m p p)).2.trans hcount
    unfold pmmPageRetain takeOff
    dsimp only
    rw [if_pos hflag, modPage_modPage]
    simp only [pages_modPage, update_self, comp_apply, hcount']
    rw [if_pos trivial, modPage_modPage]
    simp [modPage, hcount', f]
  rw [heq, PageInfo.retain, hp, hcount]
  refine takeOff_spec h hp ?_ ?_ Nat.one_pos
  · rw [getLsbD_retainFlags _ (by decide)]
    simp
  · rw [getLsbD_retainFlags _ (by decide)]
    simp [unlinked]

/-- `pmm_page_release` frees the page when it drops the last reference. -/
theorem pmmPageRelease_spec (h : m.Ok) (hle : p ≤ m.maxPfn) : m.Keeps (m.pmmPageRelease p) ∧
      (m.pmmPageRelease p).info = update m.info p (m.info p).release := by
  by_cases hzero : (m.pages p).refcount = 0
  · have hsame : (m.info p).release = m.info p := by
      have hzero' : (m.info p).refcount = 0 := hzero
      simp [PageInfo.release, hzero']
    rw [hsame, update_eq_self, pmmPageRelease, if_pos hzero]
    exact ⟨⟨h, rfl, rfl⟩, rfl⟩
  · have hp : (m.info p).free = false := by
      rw [← Bool.not_eq_true]
      exact fun hfree => hzero (h.free_refcount hfree)
    have hbit := freeBit_of_held hp
    have hclean := h.clean p
    rw [info_eq_of_held hp]
    unfold pmmPageRelease PageInfo.release PageInfo.reserved
    dsimp only
    rw [if_neg hzero, if_neg hzero]
    simp only [pages_modPage, update_self]
    by_cases hone : 1 < (m.pages p).refcount
    · rw [if_pos (by omega), if_pos hone]
      refine modPage_spec h hp hbit rfl rfl fun _ => ?_
      exact Nat.sub_pos_of_lt hone
    have hlast : (m.pages p).refcount - 1 = 0 := by omega
    rw [if_neg (by omega), if_neg hone]
    by_cases hres : has (m.pages p).flags pageReserved
    · rw [if_pos (by exact hres), if_pos hres, ← hlast]
      refine modPage_spec h hp hbit rfl rfl fun hnot => ?_
      exact absurd (show (m.pages p).isPageReserved = true from hres) (by rw [hnot]; decide)
    set f : Page → Page := fun g => ⟨g.next, 0, freeFlags g.flags, g.refcount - 1⟩
    have hclean' : (f (m.pages p)).isPageDirty = false := by
      rw [Page.isPageDirty_eq, getLsbD_freeFlags _ (by decide)]
      simpa using hclean
    have hfree : (f (m.pages p)).isPageFree = true := by
      rw [Page.isPageFree_eq, getLsbD_freeFlags _ (by decide)]
      simp
    have hplain : (f (m.pages p)).isPageAllocated = false ∧ (f (m.pages p)).isPageShared = false := by
      rw [Page.isPageAllocated_eq, Page.isPageShared_eq, getLsbD_freeFlags _ (by decide),
        getLsbD_freeFlags _ (by decide)]
      simp
    have hp0 : p ≠ 0 := by
      rintro rfl
      exact hres h.reserved_zero
    obtain ⟨fl, hfl⟩ := h
    have hvalid :=
      hfl.putBack (f := f) (hfl.held_iff.mpr hp) hfree hclean' hlast hle hp0 hplain
    have hinfo := hfl.info_putBack (p := p) hfree
    have hcounters := counters_putBack m p f
    rw [if_neg (by exact hres), if_neg hres, modPage_modPage]
    have hclean'' : ¬ ((m.modPage p f).pages p).isPageDirty = true := by
      rw [pages_modPage, update_self, hclean']
      exact Bool.false_ne_true
    rw [if_neg (by simpa only [pages_modPage, update_self] using hclean'')]
    refine ⟨⟨⟨_, hvalid⟩, hcounters.1, hcounters.2.2⟩, hinfo.trans ?_⟩
    have hpage : (f (m.pages p)).info = ⟨0, freeFlags (m.pages p).flags, 0⟩ := by
      rw [Page.info, hfree, cond_true]
      simp only [f, hlast]
    rw [hpage]

/-! ## Initialisation -/

/-- A page database as `pfn_db_init` leaves it: a free page exists, has no references and no
other flag that counts, frame 0 is reserved, and no page is dirty. -/
structure Fresh (m : Pmm) : Prop where
  free : ∀ p, (m.pages p).isPageFree = true → p ≤ m.maxPfn ∧ (m.pages p).refcount = 0
  plain : ∀ p, (m.pages p).isPageFree = true →
    (m.pages p).isPageAllocated = false ∧ (m.pages p).isPageShared = false
  counted : ∀ p, (m.pages p).isPageFree = false → (m.pages p).isPageReserved = false →
    0 < (m.pages p).refcount
  zero : (m.pages 0).isPageFree = false ∧ (m.pages 0).isPageReserved = true
  clean : ∀ p, (m.pages p).isPageDirty = false
  memMap_pos : 0 < m.memMap

/-- The database `m` after the loop of `pmm_init` over the pages below `n` of `m₀`. -/
structure InitTo (m₀ m : Pmm) (n : Nat) (fl : List Pfn) : Prop where
  links : m.links.Holds fl
  mem_iff : ∀ p : Nat, p ∈ fl ↔ p < n ∧ (m₀.pages p).isPageFree = true
  flags : ∀ p, (m.pages p).flags = (m₀.pages p).flags
  refcount : ∀ p, (m.pages p).refcount = (m₀.pages p).refcount
  count : m.freePages = fl.length
  memMap : m.memMap = m₀.memMap
  maxPfn : m.maxPfn = m₀.maxPfn
  refused : m.refused = m₀.refused

theorem InitTo.step {m₀ : Pmm} {n : Nat} (h0 : m₀.Fresh) (h : InitTo m₀ m n fl) :
    ∃ fl', InitTo m₀ (m.initPage n) (n + 1) fl' := by
  have hn : n ∉ fl := fun hmem => Nat.lt_irrefl n ((h.mem_iff n).mp hmem).1
  have hpos : 0 < m.memMap := by
    rw [h.memMap]
    exact h0.memMap_pos
  -- clearing the links of a page that is not on the list
  set t := (m.setNext n none).setPrev n none with ht
  have hmark : ∀ p, (t.pages p).mark = (m.pages p).mark := by simp [ht]
  have hcleared : InitTo m₀ t n fl := by
    refine ⟨?_, h.mem_iff, fun p => ?_, fun p => ?_, h.count, h.memMap, h.maxPfn, h.refused⟩
    · exact links_modPage (links_modPage h.links hn) hn
    · exact (Prod.mk.inj (hmark p)).1.trans (h.flags p)
    · exact (Prod.mk.inj (hmark p)).2.trans (h.refcount p)
  have hflag : (t.pages n).isPageFree = (m₀.pages n).isPageFree := by
    rw [Page.isPageFree, Page.isPageFree, hcleared.flags]
  unfold initPage
  rw [← ht]
  dsimp only
  cases hfree : (m₀.pages n).isPageFree with
  | false =>
    rw [if_neg (by rw [hflag, hfree]; exact Bool.false_ne_true)]
    refine ⟨fl, hcleared.links, fun p => ?_, hcleared.flags, hcleared.refcount, hcleared.count,
      hcleared.memMap, hcleared.maxPfn, hcleared.refused⟩
    rw [h.mem_iff]
    constructor
    · rintro ⟨hp, hpf⟩
      exact ⟨Nat.lt_succ_of_lt hp, hpf⟩
    · rintro ⟨hp, hpf⟩
      refine ⟨Nat.lt_of_le_of_ne (Nat.le_of_lt_succ hp) ?_, hpf⟩
      rintro rfl
      simp [hfree] at hpf
  | true =>
  rw [if_pos (by rw [hflag, hfree])]
  have hcounters := counters_freeListPush t n
  simp only [counters, Prod.mk.injEq] at hcounters
  refine ⟨n :: fl, ?_, fun p => ?_, fun p => ?_, fun p => ?_, ?_, ?_, ?_, ?_⟩
  · exact (links_push hcleared.links hn hpos).congr rfl (fun _ _ => rfl) (fun _ _ => rfl)
  · rw [mem_cons, h.mem_iff]
    constructor
    · rintro (rfl | ⟨hp, hpf⟩)
      · exact ⟨Nat.lt_succ_self _, hfree⟩
      · exact ⟨Nat.lt_succ_of_lt hp, hpf⟩
    · rintro ⟨hp, hpf⟩
      rcases Nat.lt_or_eq_of_le (Nat.le_of_lt_succ hp) with hlt | heq
      · exact .inr ⟨hlt, hpf⟩
      · exact .inl heq
  · exact (Prod.mk.inj (mark_freeListPush t n p)).1.trans (hcleared.flags p)
  · exact (Prod.mk.inj (mark_freeListPush t n p)).2.trans (hcleared.refcount p)
  · simp only [hcounters.2.1, hcleared.count, length_cons]
  · exact (memMap_freeListPush t n).trans hcleared.memMap
  · exact hcounters.1.trans hcleared.maxPfn
  · exact hcounters.2.2.trans hcleared.refused

/-- `pmm_init` builds the free list of exactly the free pages. -/
theorem pmmInit_spec (h0 : m.Fresh) : m.pmmInit.Ok ∧ m.pmmInit.maxPfn = m.maxPfn ∧
      ∀ p, (m.pmmInit.pages p).flags = (m.pages p).flags ∧
        (m.pmmInit.pages p).refcount = (m.pages p).refcount := by
  have hloop : ∀ n, ∃ fl, InitTo m
      ((List.range n).foldl initPage { m with freeList := none, freePages := 0 }) n fl := by
    intro n
    induction n with
    | zero =>
      exact ⟨[], ⟨rfl, by simp, by simp⟩, by simp, fun _ => rfl, fun _ => rfl, rfl, rfl, rfl, rfl⟩
    | succ n ih =>
      obtain ⟨fl, hfl⟩ := ih
      obtain ⟨fl', hfl'⟩ := hfl.step h0
      rw [range_succ, foldl_append]
      exact ⟨fl', hfl'⟩
  obtain ⟨fl, hfl⟩ := hloop (m.maxPfn + 1)
  have hall : ∀ p, p ∈ fl ↔ (m.pages p).isPageFree = true := by
    intro p
    rw [hfl.mem_iff]
    constructor
    · exact fun h => h.2
    · intro hp
      exact ⟨Nat.lt_succ_of_le (h0.free p hp).1, hp⟩
  refine ⟨⟨fl, valid_of_pageOk hfl.links hfl.count ?_ fun p => ?_⟩, hfl.maxPfn,
    fun p => ⟨hfl.flags p, hfl.refcount p⟩⟩
  · exact hfl.memMap ▸ h0.memMap_pos
  rw [pmmInit, hfl.maxPfn]
  refine PageOk.congr ⟨hall p, h0.clean p, ?_, fun hp => ?_, fun hp => ?_⟩
    (Prod.ext (hfl.flags p) (hfl.refcount p))
  · rintro rfl
    rw [hall, h0.zero.1]
    exact ⟨Bool.false_ne_true, h0.zero.2⟩
  · have hfree := (hall p).mp hp
    exact ⟨(h0.free p hfree).1, (h0.free p hfree).2, h0.plain p hfree⟩
  · rw [hall, Bool.not_eq_true] at hp
    exact h0.counted p hp

end Pmm

end Lapis.Mm
