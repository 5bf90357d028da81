/-
Lapis.Mm.PmmRunTheorems — the free list over whole runs of the physical memory manager.

The specifications of `PmmTheorems` are about pages in use; here the remaining cases are added
that a run can meet: `pmm_page_unshare` and the copy-on-write marks on a free page, and the
contiguous allocator, which takes pages out of the middle of the list. The word that holds
`sharecount` is the link `prev` of a free page, so the operations that write it must not hit a
linked page: a free page is never marked shared, and `pmm_page_share` is the one operation whose
caller has to know that the page is in use.
-/
import Lapis.Lib.Run
import Lapis.Mm.PfnDb

namespace Lapis.Mm

open Function List Option Lib

namespace Pmm

variable {m : Pmm} {p : Pfn} {fl : List Pfn}

/-! ## Marks on any page -/

/-- Only the copy-on-write bit of a page changes: the list does not. -/
theorem Valid.mark (h : m.Valid fl) {f : BitVec 64 → BitVec 64}
    (hf : ∀ w i, i ≠ 4 → (f w).getLsbD i = w.getLsbD i) :
    (m.modPage p fun g => { g with flags := f g.flags }).Valid fl := by
  set m' := m.modPage p fun g => { g with flags := f g.flags } with hm'
  have hflag : ∀ q i, i ≠ 4 → (m'.pages q).flags.getLsbD i = (m.pages q).flags.getLsbD i := by
    intro q i hi
    by_cases hq : q = p
    · subst hq
      rw [hm', pages_modPage, update_self]
      exact hf _ i hi
    · rw [hm', pages_modPage, update_of_ne hq]
  have hlink : ∀ q, (m'.pages q).next = (m.pages q).next ∧ (m'.pages q).u2 = (m.pages q).u2 ∧
      (m'.pages q).refcount = (m.pages q).refcount := by
    intro q
    by_cases hq : q = p
    · subst hq
      simp [hm']
    · simp [hm', hq]
  refine ⟨?_, fun q => ?_, h.free_le, fun q hq => ?_, fun q => ?_, h.count, h.memMap_pos,
    ⟨h.zero.1, ?_⟩, fun q hq => ?_, fun q hq hres => ?_⟩
  · refine h.links.congr rfl (fun q _ => (hlink q).1) fun q _ => ?_
    exact congrArg (unptr m.memMap) (hlink q).2.1
  · rw [Page.isPageFree_eq, hflag q 0 (by decide), ← Page.isPageFree_eq]
    exact h.mem_iff q
  · rw [(hlink q).2.2]
    exact h.free_zero q hq
  · rw [Page.isPageDirty_eq, hflag q 5 (by decide), ← Page.isPageDirty_eq]
    exact h.clean q
  · rw [Page.isPageReserved_eq, hflag 0 2 (by decide), ← Page.isPageReserved_eq]
    exact h.zero.2
  · rw [Page.isPageAllocated_eq, Page.isPageShared_eq, hflag q 1 (by decide),
      hflag q 3 (by decide), ← Page.isPageAllocated_eq, ← Page.isPageShared_eq]
    exact h.plain q hq
  · rw [Page.isPageReserved_eq, hflag q 2 (by decide), ← Page.isPageReserved_eq] at hres
    rw [(hlink q).2.2]
    exact h.counted q hq hres

theorem Ok.markCow (h : m.Ok) : (m.pmmPageMarkCow p).Ok := by
  obtain ⟨fl, hfl⟩ := h
  refine ⟨fl, hfl.mark (f := (· ||| pageCow)) fun w i hi => ?_⟩
  simp [pageCow, BitVec.getLsbD_twoPow, hi.symm]

theorem Ok.clearCow (h : m.Ok) : (m.pmmPageClearCow p).Ok := by
  obtain ⟨fl, hfl⟩ := h
  refine ⟨fl, hfl.mark (f := (· &&& ~~~pageCow)) fun w i hi => ?_⟩
  rw [BitVec.getLsbD_and, BitVec.getLsbD_not, pageCow, BitVec.getLsbD_twoPow]
  by_cases hlt : i < 64
  · simp [hi.symm, hlt]
  · rw [BitVec.getLsbD_of_ge w i (Nat.le_of_not_lt hlt), Bool.false_and]

theorem Ok.unshare (h : m.Ok) : (m.pmmPageUnshare p).Ok := by
  cases hp : (m.info p).free with
  | false => exact (pmmPageUnshare_spec h hp).1.ok
  | true =>
  -- a free page is not marked shared
  have hsame : m.pmmPageUnshare p = m := by
    obtain ⟨fl, hfl⟩ := h
    have hshared := (hfl.plain p ((hfl.mem_iff p).mpr hp)).2
    rw [pmmPageUnshare, hshared]
    rfl
  rwa [hsame]

/-! ## Contiguous pages -/

theorem takeRun_spec (h : m.Ok) {i : Nat} (n : Nat) (hfree : ∀ j < n, (m.info (i + j)).free = true) :
    m.Keeps (m.takeRun i n) ∧ ∀ q : Nat, ¬ (i ≤ q ∧ q < i + n) → (m.takeRun i n).info q = m.info q := by
  induction n with
  | zero => exact ⟨⟨h, rfl, rfl⟩, fun _ _ => rfl⟩
  | succ n ih =>
    obtain ⟨hkeeps, hother⟩ := ih fun j hj => hfree j (Nat.lt_succ_of_lt hj)
    have hlast : ((m.takeRun i n).info (i + n)).free = true := by
      rw [hother (i + n) fun hin => Nat.lt_irrefl _ hin.2]
      exact hfree n (Nat.lt_succ_self n)
    obtain ⟨hkeeps', hinfo⟩ := takePage_spec hkeeps.ok hlast
    refine ⟨hkeeps.trans hkeeps', fun q hq => ?_⟩
    have hne : q ≠ i + n := by
      rintro rfl
      exact hq ⟨Nat.le_add_right i n, Nat.lt_succ_self _⟩
    rw [takeRun, hinfo, update_of_ne hne]
    exact hother q fun hin => hq ⟨hin.1, Nat.lt_succ_of_lt hin.2⟩

theorem firstBusy_spec {i count j : Nat} (h : m.firstBusy i count = some j) :
    (m.pages (i + j)).isPageFree = false ∧ j < count :=
  ⟨by simpa using List.find?_some h, mem_range.mp (List.mem_of_find?_eq_some h)⟩

/-- The search returns a run of free pages of the database. -/
theorem findRun_spec {count rounds i r : Nat} (h : m.findRun count rounds i = some r) :
    r + count - 1 ≤ m.maxPfn ∧ ∀ j < count, (m.info (r + j)).free = true := by
  induction rounds generalizing i with
  | zero => cases h
  | succ rounds ih =>
    rw [findRun] at h
    split at h
    case isFalse => cases h
    case isTrue hle =>
    cases hbusy : m.firstBusy i count with
    | some j =>
      rw [hbusy] at h
      exact ih h
    | none =>
    rw [hbusy] at h
    obtain rfl := some.inj h
    refine ⟨hle, fun j hj => ?_⟩
    have hnone := List.find?_eq_none.mp hbusy j (mem_range.mpr hj)
    have hpage : (m.pages (i + j)).isPageFree = true := by simpa using hnone
    exact hpage

/-- The search misses no run: it fails only when no `count` consecutive pages are free. -/
theorem findRun_eq_none {count rounds i : Nat} (hcount : 0 < count)
    (h : m.findRun count rounds i = none) (hrounds : m.maxPfn < i + rounds) {r : Nat}
    (hr : i ≤ r) (hmax : r + count - 1 ≤ m.maxPfn) : ∃ j < count, (m.info (r + j)).free = false := by
  induction rounds generalizing i with
  | zero => omega
  | succ rounds ih =>
    rw [findRun, if_pos (by omega)] at h
    cases hbusy : m.firstBusy i count with
    | none =>
      simp [hbusy] at h
    | some j =>
    rw [hbusy] at h
    obtain ⟨hj, hjc⟩ := firstBusy_spec hbusy
    by_cases hlt : i + j + 1 ≤ r
    · exact ih h (by omega) hlt
    · -- the busy page lies in the run from `r` on
      refine ⟨i + j - r, by omega, ?_⟩
      have heq : r + (i + j - r) = i + j := by omega
      rwa [heq]

/-- `pmm_alloc_pages` keeps the list, and the pages it returns were free. -/
theorem pmmAllocPages_spec (h : m.Ok) (count : Nat) :
    (m.pmmAllocPages count).2.Ok ∧ (m.pmmAllocPages count).2.maxPfn = m.maxPfn ∧
      ∀ r, (m.pmmAllocPages count).1 = some r → ∀ j < count, (m.info (r + j)).free = true := by
  unfold pmmAllocPages
  by_cases h0 : count = 0
  · rw [if_pos h0]
    exact ⟨h, rfl, fun r hr => by cases hr⟩
  rw [if_neg h0]
  by_cases h1 : count = 1
  · rw [if_pos h1]
    rcases pmmAllocPage_spec h with ⟨heq, -⟩ | ⟨p, m', heq, hfree, -, -, hkeeps, -⟩
    · rw [heq]
      exact ⟨h.refuse, rfl, fun r hr => by cases hr⟩
    · rw [heq]
      refine ⟨hkeeps.ok, hkeeps.maxPfn, fun r hr j hj => ?_⟩
      obtain rfl := some.inj hr
      obtain rfl : j = 0 := by omega
      exact hfree
  rw [if_neg h1]
  cases hrun : m.findRun count (m.maxPfn + 1) 0 with
  | none => exact ⟨h, rfl, fun r hr => by cases hr⟩
  | some i =>
    obtain ⟨-, hfree⟩ := findRun_spec hrun
    obtain ⟨hkeeps, -⟩ := takeRun_spec h count hfree
    refine ⟨hkeeps.ok, hkeeps.maxPfn, fun r hr => ?_⟩
    obtain rfl := some.inj hr
    exact hfree

theorem pmmPagesRelease_keeps (h : m.Ok) {p : Nat} (n : Nat) (hle : ∀ j < n, p + j ≤ m.maxPfn) :
    m.Keeps (m.pmmPagesRelease p n) := by
  induction n with
  | zero => exact ⟨h, rfl, rfl⟩
  | succ n ih =>
    have hkeeps := ih fun j hj => hle j (Nat.lt_succ_of_lt hj)
    refine hkeeps.trans (pmmPageRelease_spec hkeeps.ok ?_).1
    rw [hkeeps.maxPfn]
    exact hle n (Nat.lt_succ_self n)

end Pmm

/-! ## Runs -/

/-- The operations of pmm.h on pages of the database. -/
inductive PmmOp
  | allocPage
  | allocPages (count : UInt64)
  | retain (p : Pfn)
  | release (p : Pfn)
  | pagesRelease (p : Pfn) (count : UInt64)
  | share (p : Pfn)
  | unshare (p : Pfn)
  | markCow (p : Pfn)
  | clearCow (p : Pfn)
  deriving DecidableEq

namespace Pmm

def step (m : Pmm) : PmmOp → Pmm
  | .allocPage => m.pmmAllocPage.2
  | .allocPages count => (m.pmmAllocPages count.toNat).2
  | .retain p => m.pmmPageRetain p
  | .release p => m.pmmPageRelease p
  | .pagesRelease p count => m.pmmPagesRelease p count.toNat
  | .share p => m.pmmPageShare p
  | .unshare p => m.pmmPageUnshare p
  | .markCow p => m.pmmPageMarkCow p
  | .clearCow p => m.pmmPageClearCow p

/-- What a caller owes: pointers to pages of the database, no `refcount` that wraps in 32 bits,
and no `pmm_page_share` on a free page. -/
def callOk (op : PmmOp) (m : Pmm) : Prop :=
  match op with
  | .allocPage | .allocPages _ => True
  | .retain p => p ≤ m.maxPfn ∧ (m.pages p).refcount + 1 < 2 ^ 32
  | .release p | .unshare p | .markCow p | .clearCow p => p ≤ m.maxPfn
  | .pagesRelease p count => ∀ j < count.toNat, p + j ≤ m.maxPfn
  | .share p => p ≤ m.maxPfn ∧ (m.pages p).isPageFree = false

/-- The states of a run from `m₀`. -/
abbrev Reaches (m₀ : Pmm) : Pmm → Prop :=
  Lapis.Lib.Run (fun _ op m => some (m.step op)) callOk m₀

theorem Reaches.step {m0 m : Pmm} (h : Reaches m0 m) {op : PmmOp} (hop : callOk op m) :
    Reaches m0 (m.step op) :=
  @Lapis.Lib.Run.next _ _ _ _ _ _ _ op 0 h hop rfl

theorem Ok.step {m : Pmm} (h : m.Ok) {op : PmmOp} (hop : callOk op m) : (m.step op).Ok := by
  cases op with
  | allocPage => exact (pmmAllocPages_spec h 1).1
  | allocPages count => exact (pmmAllocPages_spec h count.toNat).1
  | retain p => exact (pmmPageRetain_spec h).1.ok
  | release p => exact (pmmPageRelease_spec h hop).1.ok
  | pagesRelease p count => exact (pmmPagesRelease_keeps h count.toNat hop).ok
  | share p => exact (pmmPageShare_spec h hop.2).1.ok
  | unshare p => exact h.unshare
  | markCow p => exact h.markCow
  | clearCow p => exact h.clearCow

/-- The list from `free_list` is the doubly linked list `fl` of exactly the free pages. -/
structure FreeListIs (m : Pmm) (fl : List Pfn) : Prop where
  links : m.links.Holds fl
  mem_iff : ∀ p, p ∈ fl ↔ (m.pages p).isPageFree = true
  refcount : ∀ p ∈ fl, (m.pages p).refcount = 0
  notAllocated : ∀ p ∈ fl, (m.pages p).isPageAllocated = false
  freePages : m.freePages = fl.length

theorem Valid.freeListIs {m : Pmm} {fl : List Pfn} (h : m.Valid fl) : m.FreeListIs fl :=
  ⟨h.links, h.mem_iff, h.free_zero, fun p hp => (h.plain p hp).1, h.count⟩

/-- In every state of every run from `pmm_init` the free list is well formed, and a page that an
allocation would return has no reference. -/
theorem pmm_run_free_list {mmap : List MemmapEntry} {hhdmOffset : UInt64} {junk : Pfn → Nat}
    {m₀ m : Pmm} (hboot : PfnDb.pfnDbInit mmap hhdmOffset junk = some m₀) (hrun : Reaches m₀.pmmInit m) :
    (∃ fl, m.FreeListIs fl) ∧ (∀ p m', m.pmmAllocPage = (some p, m') → (m.pages p).refcount = 0) ∧
      ∀ count p m', m.pmmAllocPages count = (some p, m') → ∀ j < count, (m.pages (p + j)).refcount = 0 := by
  have hok : m.Ok := by
    refine Lapis.Lib.Run.invariant ?_ (fun m1 m2 op _ h hop hstep => ?_) hrun
    · exact (pmmInit_spec (PfnDb.pfnDbInit_fresh hboot)).1
    · obtain rfl := some.inj hstep
      exact h.step hop
  have hpages : ∀ count p m', m.pmmAllocPages count = (some p, m') →
      ∀ j < count, (m.pages (p + j)).refcount = 0 := by
    intro count p m' heq j hj
    have hfree := (pmmAllocPages_spec hok count).2.2 p (by rw [heq]) j hj
    exact hok.free_refcount hfree
  refine ⟨?_, fun p m' heq => hpages 1 p m' heq 0 Nat.one_pos, hpages⟩
  obtain ⟨fl, hfl⟩ := hok
  exact ⟨fl, hfl.freeListIs⟩

/-- A memory map with sixteen usable pages, two of which are handed out and one marked. -/
theorem pmm_run_free_list_boot :
    ∃ m₀, PfnDb.pfnDbInit [⟨0, 0x10000, true⟩] 0xffff800000000000 (fun _ => 7) = some m₀ ∧
      ∃ fl, ((m₀.pmmInit.step (.allocPages 2)).step (.markCow 5)).FreeListIs fl := by
  obtain ⟨m₀, hboot, hmax⟩ : ∃ m₀,
      PfnDb.pfnDbInit [⟨0, 0x10000, true⟩] 0xffff800000000000 (fun _ => 7) = some m₀ ∧
        m₀.maxPfn = 16 := ⟨_, rfl, rfl⟩
  obtain ⟨hok, hmax', -⟩ := pmmInit_spec (PfnDb.pfnDbInit_fresh hboot)
  have hfive : 5 ≤ (m₀.pmmInit.step (.allocPages 2)).maxPfn := by
    rw [step, (pmmAllocPages_spec hok _).2.1, hmax', hmax]
    decide
  have hrun : Reaches m₀.pmmInit (m₀.pmmInit.step (.allocPages 2)) :=
    Reaches.step .init (show callOk (.allocPages 2) m₀.pmmInit from trivial)
  have hrun' : Reaches m₀.pmmInit ((m₀.pmmInit.step (.allocPages 2)).step (.markCow 5)) :=
    hrun.step hfive
  exact ⟨m₀, hboot, (pmm_run_free_list hboot hrun').1⟩

end Pmm

end Lapis.Mm
