/-
Lapis.Mm.PmmAllocTheorems — what allocation does to the free list as a list.

`PmmTheorems` says what the rest of the kernel sees of an allocation; here the list itself is
followed. `FreeListIs.takePage` is the one step: a page leaves the list from wherever it stands
and the others keep their order. The contiguous allocator is that step for every page of the
lowest run of free pages, and `pmm_alloc_page`, called until it returns NULL, is that step for
the head of the list until the list is empty.

A page with PAGE_DIRTY set does not come back to the list when its last reference is dropped.
No function of the kernel sets that flag and `Valid` carries that through every run, so the
refill of the list is stated for free pages that are not dirty.
-/
import Lapis.Mm.Boot
import Lapis.Mm.PmmRunTheorems

namespace Lapis.Mm

open Function List

namespace Pmm

variable {m m' m'' : Pmm} {p : Pfn} {fl A B : List Pfn}

/-! ## One page leaves the list -/

/-- `m'` is `m` with the pages `ps` handed out, as far as flags and references go. -/
structure HandsOut (m m' : Pmm) (ps : List Pfn) : Prop where
  memMap : m'.memMap = m.memMap
  maxPfn : m'.maxPfn = m.maxPfn
  taken : ∀ p ∈ ps, (m'.pages p).flags = allocFlags (m.pages p).flags ∧ (m'.pages p).refcount = 1
  other : ∀ p, p ∉ ps →
    (m'.pages p).flags = (m.pages p).flags ∧ (m'.pages p).refcount = (m.pages p).refcount

theorem HandsOut.nil (m : Pmm) : HandsOut m m [] :=
  ⟨rfl, rfl, by simp, fun _ _ => ⟨rfl, rfl⟩⟩

theorem HandsOut.append {ps qs : List Pfn} (h : HandsOut m m' ps) (h' : HandsOut m' m'' qs)
    (hdisj : ∀ p ∈ ps, p ∉ qs) : HandsOut m m'' (ps ++ qs) := by
  refine ⟨h'.memMap.trans h.memMap, h'.maxPfn.trans h.maxPfn, fun p hp => ?_, fun p hp => ?_⟩
  · rcases mem_append.mp hp with hps | hqs
    · obtain ⟨hflags, hcount⟩ := h'.other p (hdisj p hps)
      rw [hflags, hcount]
      exact h.taken p hps
    · have hps : p ∉ ps := fun hin => hdisj p hin hqs
      rw [← (h.other p hps).1]
      exact h'.taken p hqs
  · obtain ⟨hps, hqs⟩ : p ∉ ps ∧ p ∉ qs := by simpa using hp
    obtain ⟨hflags, hcount⟩ := h'.other p hqs
    rw [hflags, hcount]
    exact h.other p hps

theorem handsOut_takePage (m : Pmm) (p : Pfn) : HandsOut m (m.takePage p) [p] := by
  set f : Page → Page := fun g => { g with flags := allocFlags g.flags, refcount := 1, u2 := 1 }
  have hcounters := counters_takeOff (m := m) (p := p) (f := f)
  refine ⟨memMap_takeOff (f := f), hcounters.1, fun q hq => ?_, fun q hq => ?_⟩
  · obtain rfl := mem_singleton.mp hq
    have hself := takeOff_self m q f
    change (m.takePage q).pages q = _ at hself
    rw [hself]
    exact ⟨rfl, rfl⟩
  · have hne : q ≠ p := fun heq => hq (heq ▸ mem_singleton_self q)
    have hother := takeOff_other (m := m) (f := f) hne
    change (m.takePage p).pages q = _ at hother
    rw [hother]
    exact Prod.mk.inj (mark_freeListRemove m p q)

theorem isPageFree_of_flags {g g' : Page} (h : g'.flags = g.flags) : g'.isPageFree = g.isPageFree := by
  rw [Page.isPageFree, Page.isPageFree, h]

theorem isPageFree_of_allocFlags {g : Page} {w : BitVec 64} (h : g.flags = allocFlags w) :
    g.isPageFree = false := by
  rw [Page.isPageFree_eq, h, getLsbD_allocFlags _ (by decide)]
  simp

/-- The list and one page change. -/
theorem FreeListIs.relist {fl' : List Pfn} (h : m.FreeListIs fl) (hlinks : m'.links.Holds fl')
    (hcount : m'.freePages = fl'.length)
    (hother : ∀ q, q ≠ p → (q ∈ fl' ↔ q ∈ fl) ∧ (m'.pages q).mark = (m.pages q).mark)
    (hfree : p ∈ fl' ↔ (m'.pages p).isPageFree = true)
    (hp : p ∈ fl' → (m'.pages p).refcount = 0 ∧ (m'.pages p).isPageAllocated = false) :
    m'.FreeListIs fl' := by
  refine ⟨hlinks, fun q => ?_, fun q hq => ?_, fun q hq => ?_, hcount⟩ <;> by_cases hqp : q = p
  · exact hqp ▸ hfree
  · obtain ⟨hmem, hmark⟩ := hother q hqp
    rw [hmem, h.mem_iff, isPageFree_of_flags (Prod.mk.inj hmark).1]
  · exact hqp ▸ (hp (hqp ▸ hq)).1
  · obtain ⟨hmem, hmark⟩ := hother q hqp
    exact (Prod.mk.inj hmark).2.trans (h.refcount q (hmem.mp hq))
  · exact hqp ▸ (hp (hqp ▸ hq)).2
  · obtain ⟨hmem, hmark⟩ := hother q hqp
    rw [Page.isPageAllocated, (Prod.mk.inj hmark).1]
    exact h.notAllocated q (hmem.mp hq)

/-- A page taken from the middle of the list leaves the others in their order. -/
theorem FreeListIs.takePage (h : m.FreeListIs (A ++ p :: B)) (hpos : 0 < m.memMap) :
    (m.takePage p).FreeListIs (A ++ B) := by
  set f : Page → Page := fun g => { g with flags := allocFlags g.flags, refcount := 1, u2 := 1 }
  have heffect := handsOut_takePage m p
  have hp := (nodup_middle.mp h.links.nodup).notMem
  have hlinks : (m.takeOff p f).links.Holds (A ++ B) := links_takeOff h.links hpos
  refine h.relist (p := p) hlinks ?_ (fun q hq => ?_) ?_ fun hin => absurd hin hp
  · have hcount : (m.takePage p).freePages = m.freePages - 1 := (counters_takeOff (f := f)).2.1
    rw [hcount, h.freePages]
    simp only [length_append, length_cons]
    omega
  · obtain ⟨hflags, hcount⟩ := heffect.other q (by simpa using hq)
    exact ⟨by simp [hq], Prod.ext hflags hcount⟩
  · rw [isPageFree_of_allocFlags (heffect.taken p (by simp)).1]
    exact iff_of_false hp Bool.false_ne_true

/-! ## Contiguous pages: the lowest run -/

/-- The `count` frames from `r` on are free. -/
def FreeRun (m : Pmm) (r count : Nat) : Prop := ∀ j < count, (m.pages (r + j)).isPageFree = true

theorem filter_not_mem_append (fl ps : List Pfn) (p : Pfn) :
    fl.filter (· ∉ ps ++ [p]) = (fl.filter (· ∉ ps)).filter (· ≠ p) := by
  rw [filter_filter]
  refine filter_congr fun q _ => ?_
  simp only [mem_append, mem_singleton, not_or, ne_eq, Bool.decide_and, and_comm]

theorem filter_ne_middle (hp : p ∉ A ++ B) : (A ++ p :: B).filter (· ≠ p) = A ++ B := by
  have hne : ∀ q ∈ A ++ B, decide (q ≠ p) = true := by
    intro q hq
    exact decide_eq_true fun heq => hp (heq ▸ hq)
  rw [filter_append, filter_cons_of_neg (by simp), ← filter_append]
  exact filter_eq_self.mpr hne

/-- The loop of `pmm_alloc_pages` over the run it found. -/
theorem FreeListIs.takeRun (h : m.FreeListIs fl) (hpos : 0 < m.memMap) {i : Nat} (n : Nat)
    (hfree : m.FreeRun i n) : HandsOut m (m.takeRun i n) (List.range' i n) ∧
      (m.takeRun i n).FreeListIs (fl.filter (· ∉ List.range' i n)) ∧
      (m.takeRun i n).freePages + n = m.freePages := by
  induction n with
  | zero =>
    have hall : fl.filter (· ∉ List.range' i 0) = fl := by simp
    rw [hall]
    exact ⟨.nil m, h, rfl⟩
  | succ n ih =>
    obtain ⟨heffect, hlist, hcount⟩ := ih fun j hj => hfree j (Nat.lt_succ_of_lt hj)
    have hnew : i + n ∉ List.range' i n := by simp [mem_range'_1]
    -- the last page of the run is still on the list
    have hmem : i + n ∈ fl.filter (· ∉ List.range' i n) := by
      rw [mem_filter]
      exact ⟨(h.mem_iff _).mpr (hfree n (Nat.lt_succ_self n)), decide_eq_true hnew⟩
    obtain ⟨A, B, hsplit⟩ := append_of_mem hmem
    rw [hsplit] at hlist
    have hstep := hlist.takePage (heffect.memMap ▸ hpos)
    rw [List.range'_1_concat, filter_not_mem_append, hsplit, filter_ne_middle
      (nodup_middle.mp hlist.links.nodup).notMem]
    refine ⟨heffect.append (handsOut_takePage _ _) fun q hq => ?_, hstep, ?_⟩
    · exact fun hin => hnew (mem_singleton.mp hin ▸ hq)
    · have hbefore := hlist.freePages
      have hafter := hstep.freePages
      simp only [length_append, length_cons] at hbefore hafter
      rw [Pmm.takeRun]
      omega

/-- The search skips no run: every run of free pages starts at the result or above it. -/
theorem findRun_least {count rounds i r : Nat} (h : m.findRun count rounds i = some r) {r' : Nat}
    (hi : i ≤ r') (hfree : m.FreeRun r' count) : r ≤ r' := by
  induction rounds generalizing i with
  | zero => cases h
  | succ rounds ih =>
    rw [findRun] at h
    split at h
    case isFalse => cases h
    case isTrue hle =>
    cases hbusy : m.firstBusy i count with
    | none =>
      rw [hbusy] at h
      exact Option.some.inj h ▸ hi
    | some j =>
    rw [hbusy] at h
    obtain ⟨hj, hjc⟩ := firstBusy_spec hbusy
    refine ih h ?_
    -- otherwise the busy page would lie in the run from `r'` on
    by_contra hlt
    have hin := hfree (i + j - r') (by omega)
    rw [show r' + (i + j - r') = i + j by omega, hj] at hin
    exact Bool.false_ne_true hin

/-- After `max_pfn + 1` rounds the search is over: more rounds change nothing. -/
theorem findRun_rounds {count rounds i : Nat} (hcount : 0 < count) (h : m.maxPfn < i + rounds)
    (more : Nat) : m.findRun count (rounds + more) i = m.findRun count rounds i := by
  induction rounds generalizing i with
  | zero =>
    cases more with
    | zero => rfl
    | succ more =>
      have hover : ¬ i + count - 1 ≤ m.maxPfn := by omega
      rw [Nat.zero_add]
      exact if_neg hover
  | succ rounds ih =>
    rw [Nat.succ_add, findRun, findRun]
    split
    · cases hbusy : m.firstBusy i count with
      | none => rfl
      | some j => exact ih (by omega)
    · rfl

theorem pmmAllocPages_of_none {count : Nat} (hcount : 2 ≤ count)
    (h : m.findRun count (m.maxPfn + 1) 0 = none) : m.pmmAllocPages count = (none, m) := by
  rw [pmmAllocPages, if_neg (by omega), if_neg (by omega), h]

theorem pmmAllocPages_of_some {count r : Nat} (hcount : 2 ≤ count)
    (h : m.findRun count (m.maxPfn + 1) 0 = some r) :
    m.pmmAllocPages count = (some r, m.takeRun r count) := by
  rw [pmmAllocPages, if_neg (by omega), if_neg (by omega), h]

/-- `pmm_alloc_pages` is first fit: it hands out the lowest run of `count` free frames, and it
returns NULL and changes nothing exactly when there is none. The search needs no more than
`max_pfn + 1` rounds. -/
theorem pmmAllocPages_first_fit (h : m.FreeListIs fl) (hle : ∀ p ∈ fl, p ≤ m.maxPfn)
    (hpos : 0 < m.memMap) (count : UInt64) (hcount : 2 ≤ count) :
    (∀ more, m.findRun count.toNat (m.maxPfn + 1 + more) 0 = m.findRun count.toNat (m.maxPfn + 1) 0) ∧
      ((∃ r, m.FreeRun r count.toNat) →
        ∃ r m', m.pmmAllocPages count.toNat = (some r, m') ∧ m.FreeRun r count.toNat ∧
          (∀ r', m.FreeRun r' count.toNat → r ≤ r') ∧
          (∀ p : Nat, r ≤ p ∧ p < r + count.toNat → (m'.pages p).isPageAllocated = true ∧
            (m'.pages p).isPageFree = false ∧ (m'.pages p).refcount = 1) ∧
          m'.FreeListIs (fl.filter fun p : Nat => ¬ (r ≤ p ∧ p < r + count.toNat)) ∧
          m'.freePages + count.toNat = m.freePages ∧ ∀ p : Nat, ¬ (r ≤ p ∧ p < r + count.toNat) →
            (m'.pages p).flags = (m.pages p).flags ∧ (m'.pages p).refcount = (m.pages p).refcount) ∧
      ((¬ ∃ r, m.FreeRun r count.toNat) → m.pmmAllocPages count.toNat = (none, m)) := by
  have htwo : 2 ≤ count.toNat := by simpa [UInt64.le_iff_toNat_le] using hcount
  refine ⟨fun more => findRun_rounds (by omega) (by omega) more, fun hrun => ?_, fun hnone => ?_⟩
  · obtain ⟨r0, hr0⟩ := hrun
    -- a run of free frames lies inside the database, so the search cannot miss it
    have hlast : r0 + (count.toNat - 1) ≤ m.maxPfn :=
      hle _ ((h.mem_iff _).mpr (hr0 (count.toNat - 1) (by omega)))
    cases hfind : m.findRun count.toNat (m.maxPfn + 1) 0 with
    | none =>
      obtain ⟨j, hj, hbusy⟩ :=
        findRun_eq_none (r := r0) (by omega) hfind (by omega) (Nat.zero_le _) (by omega)
      exact absurd (hr0 j hj) (by rw [← Page.info_free]; exact ne_true_of_eq_false hbusy)
    | some r =>
    have hfree : m.FreeRun r count.toNat := (findRun_spec hfind).2
    obtain ⟨heffect, hlist, hpages⟩ := h.takeRun hpos count.toNat hfree
    have hin : ∀ p : Nat, p ∈ List.range' r count.toNat ↔ r ≤ p ∧ p < r + count.toNat :=
      fun p => mem_range'_1
    simp only [hin] at hlist
    refine ⟨r, m.takeRun r count.toNat, pmmAllocPages_of_some htwo hfind, hfree,
      fun r' hr' => findRun_least hfind (Nat.zero_le _) hr', fun p hp => ?_, hlist, hpages,
      fun p hp => heffect.other p (mt (hin p).mp hp)⟩
    obtain ⟨hflags, hcount⟩ := heffect.taken p ((hin p).mpr hp)
    refine ⟨?_, isPageFree_of_allocFlags hflags, hcount⟩
    rw [Page.isPageAllocated_eq, hflags, getLsbD_allocFlags _ (by decide)]
    simp
  · cases hfind : m.findRun count.toNat (m.maxPfn + 1) 0 with
    | none => exact pmmAllocPages_of_none htwo hfind
    | some r => exact absurd ⟨r, (findRun_spec hfind).2⟩ hnone

/-- On a machine with the free frames 2 to 5 two frames are to be had. -/
theorem pmmAllocPages_first_fit_small : ∃ r m', (smallPmm 5).pmmAllocPages 2 = (some r, m') ∧
      ∀ r', (smallPmm 5).FreeRun r' 2 → r ≤ r' := by
  obtain ⟨fl, hfl⟩ := smallPmm_ok 5
  have hrun : (smallPmm 5).FreeRun 2 2 := by
    unfold FreeRun
    decide +kernel
  obtain ⟨-, hfit, -⟩ :=
    pmmAllocPages_first_fit hfl.freeListIs hfl.free_le hfl.memMap_pos 2 (by decide)
  obtain ⟨r, m', heq, -, hleast, -⟩ := hfit ⟨2, hrun⟩
  exact ⟨r, m', heq, hleast⟩

/-! ## Exhausting the list and filling it again -/

/-- `pmm_alloc_page` called until it returns NULL, in at most `calls` calls. The caller writes
`junk p` into the link of every page `p` it gets. -/
def allocUntilNull (junk : Pfn → Option Pfn) (m : Pmm) : Nat → Option (List Pfn × Pmm)
  | 0 => none
  | calls + 1 =>
    match m.pmmAllocPage with
    | (none, m') => some ([], m')
    | (some p, m') =>
      (allocUntilNull junk (m'.setNext p (junk p)) calls).map fun r => (p :: r.1, r.2)

/-- The pages are released one after the other; the caller writes their links before. -/
def releaseAll (junk : Pfn → Option Pfn) (m : Pmm) : List Pfn → Pmm
  | [] => m
  | p :: ps => releaseAll junk ((m.setNext p (junk p)).pmmPageRelease p) ps

/-- The link of a page that is not on the list belongs to its owner. -/
theorem FreeListIs.setNext (h : m.FreeListIs fl) (hp : p ∉ fl) (x : Option Pfn) :
    (m.setNext p x).FreeListIs fl := by
  refine h.relist (p := p) (links_modPage h.links hp) h.freePages (fun q hq => by simp) ?_
    fun hin => absurd hin hp
  rw [h.mem_iff, isPageFree_of_flags (Prod.mk.inj (mark_setNext m p p x)).1]

theorem handsOut_setNext (m : Pmm) (p : Pfn) (x : Option Pfn) : HandsOut m (m.setNext p x) [] :=
  ⟨rfl, rfl, by simp, fun q _ => Prod.mk.inj (mark_setNext m p q x)⟩

theorem pmmAllocPage_of_nil (h : m.FreeListIs []) :
    m.pmmAllocPage = (none, { m with refused := m.refused + 1 }) := by
  have hhead : m.freeList = none := h.links.head_eq_none_iff.mpr rfl
  simp [pmmAllocPage, hhead]

theorem pmmAllocPage_of_cons (h : m.FreeListIs (p :: fl)) : m.pmmAllocPage = (some p, m.takePage p) := by
  have hhead : m.freeList = some p := h.links.head_eq_some_iff.mpr ⟨fl, rfl⟩
  simp only [pmmAllocPage, hhead]
  rfl

/-- The pages come out in the order of the list, one for each call, and the call after the last
page returns NULL. -/
theorem allocUntilNull_spec (junk : Pfn → Option Pfn) (h : m.FreeListIs fl) (hpos : 0 < m.memMap) :
    ∃ m', (∀ calls, fl.length < calls → m.allocUntilNull junk calls = some (fl, m')) ∧
      m'.FreeListIs [] ∧ HandsOut m m' fl := by
  induction fl generalizing m with
  | nil =>
    refine ⟨{ m with refused := m.refused + 1 }, fun calls hcalls => ?_,
      ⟨h.links.congr rfl (fun _ _ => rfl) fun _ _ => rfl, h.mem_iff, h.refcount, h.notAllocated,
        h.freePages⟩, rfl, rfl, by simp, fun _ _ => ⟨rfl, rfl⟩⟩
    obtain ⟨calls, rfl⟩ := Nat.exists_eq_succ_of_ne_zero (Nat.ne_of_gt hcalls)
    rw [allocUntilNull, pmmAllocPage_of_nil h]
  | cons p fl ih =>
    have hp : p ∉ fl := (nodup_cons.mp h.links.nodup).1
    have hstep := (FreeListIs.takePage (A := []) h hpos).setNext hp (junk p)
    have heffect := (handsOut_takePage m p).append (handsOut_setNext _ p (junk p)) (by simp)
    obtain ⟨m', hcalls, hempty, hrest⟩ := ih hstep (heffect.memMap ▸ hpos)
    refine ⟨m', fun calls hlt => ?_, hempty, heffect.append hrest fun q hq => ?_⟩
    · obtain ⟨calls, rfl⟩ := Nat.exists_eq_succ_of_ne_zero (Nat.ne_of_gt (Nat.zero_lt_of_lt hlt))
      rw [allocUntilNull, pmmAllocPage_of_cons h]
      dsimp only
      rw [hcalls calls (Nat.lt_of_succ_lt_succ hlt)]
      rfl
    · obtain rfl : q = p := by simpa using hq
      exact hp

/-- A page that `pmm_page_release` puts back on the list when one reference is left. -/
structure Lent (m : Pmm) (p : Pfn) : Prop where
  held : (m.pages p).isPageFree = false
  refcount : (m.pages p).refcount = 1
  notReserved : (m.pages p).isPageReserved = false
  clean : (m.pages p).isPageDirty = false

theorem HandsOut.lent {ps : List Pfn} (h : HandsOut m m' ps) (hp : p ∈ ps)
    (hclean : (m.pages p).isPageDirty = false) : m'.Lent p := by
  obtain ⟨hflags, hcount⟩ := h.taken p hp
  refine ⟨isPageFree_of_allocFlags hflags, hcount, ?_, ?_⟩
  · rw [Page.isPageReserved_eq, hflags, getLsbD_allocFlags _ (by decide)]
    simp
  · rw [Page.isPageDirty_eq] at hclean ⊢
    rw [hflags, getLsbD_allocFlags _ (by decide)]
    simpa using hclean

/-- The change of a page whose last reference is dropped. -/
def freed (g : Page) : Page := ⟨g.next, 0, freeFlags g.flags, g.refcount - 1⟩

theorem Lent.pmmPageRelease_eq (h : m.Lent p) : m.pmmPageRelease p = m.putBack p freed := by
  have hclean : (freed (m.pages p)).isPageDirty = false := by
    have hold := h.clean
    rw [Page.isPageDirty_eq] at hold ⊢
    rw [freed, getLsbD_freeFlags _ (by decide)]
    simpa using hold
  unfold pmmPageRelease
  rw [if_neg (by rw [h.refcount]; exact Nat.one_ne_zero)]
  dsimp only
  simp only [pages_modPage, update_self]
  rw [if_neg (by rw [h.refcount]; exact Nat.lt_irrefl 0), if_neg (by
    rw [Bool.not_eq_true]
    exact h.notReserved), modPage_modPage]
  exact if_neg (by rw [Bool.not_eq_true]; exact hclean)

theorem FreeListIs.putBack (h : m.FreeListIs fl) (hpos : 0 < m.memMap) (hp : m.Lent p) :
    (m.putBack p freed).FreeListIs (p :: fl) := by
  have hnew : p ∉ fl := by
    rw [h.mem_iff, hp.held]
    exact Bool.false_ne_true
  obtain ⟨hflags, hcount⟩ := Prod.mk.inj (mark_putBack m p p freed)
  rw [update_self] at hflags hcount
  refine h.relist (p := p) (links_putBack h.links hnew hpos) ?_ (fun q hq => ?_) ?_ fun _ => ⟨?_, ?_⟩
  · rw [(counters_putBack m p freed).2.1, h.freePages, length_cons]
  · rw [mark_putBack, update_of_ne hq]
    simp [hq]
  · rw [isPageFree_of_flags hflags, Page.isPageFree_eq, freed, getLsbD_freeFlags _ (by decide)]
    simp
  · simp [hcount, freed, hp.refcount]
  · rw [Page.isPageAllocated, hflags, ← Page.isPageAllocated, Page.isPageAllocated_eq, freed,
      getLsbD_freeFlags _ (by decide)]
    simp

/-- A page of which flags and references stay as they are is still lent. -/
theorem Lent.congr (h : m.Lent p) (hmark : (m'.pages p).mark = (m.pages p).mark) : m'.Lent p := by
  obtain ⟨hheld, href, hres, hclean⟩ := h
  obtain ⟨hflags, hcount⟩ := Prod.mk.inj hmark
  refine ⟨?_, hcount.trans href, ?_, ?_⟩
  · rwa [isPageFree_of_flags hflags]
  · rwa [Page.isPageReserved, hflags]
  · rwa [Page.isPageDirty, hflags]

/-- Every page released stands on the list afterwards, whatever its owner wrote into its link. -/
theorem releaseAll_spec (junk : Pfn → Option Pfn) {ps : List Pfn} (h : m.FreeListIs fl)
    (hpos : 0 < m.memMap) (hnd : ps.Nodup) (hlent : ∀ p ∈ ps, m.Lent p) :
    (m.releaseAll junk ps).FreeListIs (ps.reverse ++ fl) := by
  induction ps generalizing m fl with
  | nil => exact h
  | cons p ps ih =>
    obtain ⟨hnew, hnd⟩ := nodup_cons.mp hnd
    set t := m.setNext p (junk p) with ht
    have hp : p ∉ fl := by
      rw [h.mem_iff, (hlent p (by simp)).held]
      exact Bool.false_ne_true
    have hlent' : ∀ q ∈ p :: ps, t.Lent q := by
      intro q hq
      exact (hlent q hq).congr (by simp [ht])
    have hput := (h.setNext hp (junk p)).putBack hpos (hlent' p (by simp))
    have hmemMap : (t.putBack p freed).memMap = t.memMap := memMap_freeListPush _ _
    rw [releaseAll, (hlent' p (by simp)).pmmPageRelease_eq, reverse_cons, append_assoc,
      singleton_append]
    refine ih hput (hmemMap ▸ hpos) hnd fun q hq => ?_
    have hne : q ≠ p := fun heq => hnew (heq ▸ hq)
    refine (hlent' q (mem_cons_of_mem _ hq)).congr ?_
    rw [mark_putBack, update_of_ne hne]

/-- Calling `pmm_alloc_page` until it returns NULL gives every free page once; releasing the pages
in any order gives the same free pages again. -/
theorem pmm_exhaust_refill (h : m.FreeListIs fl) (hpos : 0 < m.memMap)
    (hclean : ∀ p ∈ fl, (m.pages p).isPageDirty = false) (junk junk' : Pfn → Option Pfn) :
    ∃ ps m', (∀ calls, m.freePages < calls → m.allocUntilNull junk calls = some (ps, m')) ∧
      ps.length = m.freePages ∧ ps.Nodup ∧ m'.freePages = 0 ∧
      ∀ order, order.Perm ps → (m'.releaseAll junk' order).freePages = m.freePages ∧
        (∀ p, ((m'.releaseAll junk' order).pages p).isPageFree = (m.pages p).isPageFree) ∧
        ∃ fl', (m'.releaseAll junk' order).FreeListIs fl' ∧ ∀ p, p ∈ fl' ↔ p ∈ fl := by
  obtain ⟨m', hcalls, hempty, heffect⟩ := allocUntilNull_spec junk h hpos
  refine ⟨fl, m', ?_, h.freePages.symm, h.links.nodup, hempty.freePages, fun order horder => ?_⟩
  · rwa [h.freePages]
  have hlent : ∀ p ∈ order, m'.Lent p := by
    intro p hp
    have hmem := horder.mem_iff.mp hp
    exact heffect.lent hmem (hclean p hmem)
  have hlist := releaseAll_spec junk' hempty (heffect.memMap ▸ hpos)
    (horder.nodup_iff.mpr h.links.nodup) hlent
  rw [append_nil] at hlist
  have hmem : ∀ p, p ∈ order.reverse ↔ p ∈ fl := fun p => by rw [mem_reverse, horder.mem_iff]
  refine ⟨?_, fun p => ?_, order.reverse, hlist, hmem⟩
  · rw [hlist.freePages, h.freePages, length_reverse, horder.length_eq]
  · rw [Bool.eq_iff_iff, ← hlist.mem_iff, ← h.mem_iff, hmem]

/-- The four free frames of a small machine, released in the opposite order. -/
theorem pmm_exhaust_refill_small : ∃ ps m', (smallPmm 5).allocUntilNull (fun _ => some 3) 5 = some (ps, m') ∧
      (m'.releaseAll (fun _ => none) ps.reverse).freePages = 4 := by
  obtain ⟨fl, hfl⟩ := smallPmm_ok 5
  obtain ⟨ps, m', hcalls, -, -, -, hrefill⟩ :=
    pmm_exhaust_refill hfl.freeListIs hfl.memMap_pos (fun p _ => hfl.clean p) (fun _ => some 3)
      fun _ => none
  have hfour : (smallPmm 5).freePages = 4 := by decide +kernel
  refine ⟨ps, m', hcalls 5 (by rw [hfour]; decide), ?_⟩
  rw [(hrefill ps.reverse (reverse_perm ps)).1, hfour]

end Pmm

end Lapis.Mm
