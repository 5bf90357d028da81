/-
Lapis.Mm.FrameTheorems — tables, held frames, and what a step may do to them.

`Tables` says that the forest of tables is separated and that no table is a free frame. A frame
that is neither free nor a table is `Held`, by a mapping, by the kernel or by the heap. A `Step`
touches held frames only as its effect `f` on their counts says; the free frames and the tables
are a pool it may shuffle. A step that changes no leaf and no held frame is `Quiet`.
-/
import Lapis.Mm.PageForest

namespace Lapis.Mm

open Function (update update_idem update_of_ne update_self)
open Lib

/-! ## Dropping and taking a reference -/

namespace PageInfo

/-- `pmm_page_unshare` and `pmm_page_release`. -/
def dropped (i : PageInfo) : PageInfo := i.unshare.release

/-- `pmm_page_share` and `pmm_page_retain`. -/
def taken (i : PageInfo) : PageInfo := i.doShare.retain

theorem free_unshare (i : PageInfo) : i.unshare.free = i.free := by
  rw [free_eq, free_eq]
  unfold unshare
  split
  · dsimp only
    split
    · simp [pageShared]
    · rfl
  · rfl

theorem free_doShare (i : PageInfo) : i.doShare.free = i.free := by
  rw [free_eq, free_eq]
  unfold doShare
  dsimp only
  split
  · rfl
  · simp [pageShared]

variable {i : PageInfo}

theorem free_retain (h : i.free = false) : i.retain.free = false := by
  have hflags : i.retain.flags = i.flags := if_neg (by rw [h]; decide)
  rwa [free, hflags]

theorem free_taken (h : i.free = false) : i.taken.free = false :=
  free_retain ((free_doShare i).trans h)

theorem refcount_unshare (i : PageInfo) : i.unshare.refcount = i.refcount := by
  unfold unshare
  split <;> rfl

theorem reserved_unshare (i : PageInfo) : i.unshare.reserved = i.reserved := by
  rw [reserved_eq, reserved_eq]
  unfold unshare
  split
  · dsimp only
    split
    · simp [pageShared]
    · rfl
  · rfl

theorem refcount_dropped (i : PageInfo) : i.dropped.refcount = i.refcount - 1 := by
  rw [dropped, ← refcount_unshare i]
  generalize i.unshare = j
  unfold release
  split_ifs
  · rfl
  · omega
  · change 0 = j.refcount - 1
    omega
  · change 0 = j.refcount - 1
    omega

/-- A drop that is not the last one keeps the page. -/
theorem free_dropped (h : i.free = false)
    (hkeep : i.reserved = true ∨ 2 ≤ i.refcount) : i.dropped.free = false := by
  rw [← free_unshare] at h
  rw [← reserved_unshare, ← refcount_unshare] at hkeep
  rw [dropped]
  generalize i.unshare = j at h hkeep
  unfold release
  split_ifs with h1 h2 h3
  · exact h
  · exact h
  · exact h
  · rcases hkeep with hres | htwo
    · exact absurd hres h3
    · omega

theorem reserved_dropped (h : i.reserved = true) : i.dropped.reserved = true := by
  rw [← reserved_unshare] at h
  rw [dropped]
  generalize i.unshare = j at h
  unfold release
  split_ifs with h1 h2
  · exact h
  · exact h
  · exact h

theorem refcount_taken (i : PageInfo) : i.taken.refcount = i.refcount + 1 := rfl

theorem reserved_taken (hfree : i.free = false) : i.taken.reserved = i.reserved := by
  have hflags : i.taken.flags = i.doShare.flags :=
    if_neg (by rw [free_doShare, hfree]; decide)
  rw [reserved_eq, hflags, reserved_eq]
  unfold doShare
  dsimp only
  split
  · rfl
  · simp [pageShared]

end PageInfo

namespace Pmm

variable {m : Pmm} {p : Pfn}

theorem drop_spec (h : m.Ok) (hp : (m.info p).free = false) (hle : p ≤ m.maxPfn) :
    m.Keeps ((m.pmmPageUnshare p).pmmPageRelease p) ∧
      ((m.pmmPageUnshare p).pmmPageRelease p).info = update m.info p (m.info p).dropped := by
  obtain ⟨hk1, hi1⟩ := pmmPageUnshare_spec h hp
  obtain ⟨hk2, hi2⟩ := pmmPageRelease_spec hk1.ok (hk1.maxPfn ▸ hle)
  refine ⟨hk1.trans hk2, ?_⟩
  rw [hi2, hi1, update_idem, update_self]
  rfl

/-- A free page has no reference to drop, and it is not marked shared. -/
theorem drop_of_free (h : m.Ok) (hp : (m.info p).free = true) :
    (m.pmmPageUnshare p).pmmPageRelease p = m := by
  have hcount := h.free_refcount hp
  obtain ⟨fl, hfl⟩ := h
  have hshared := (hfl.plain p ((hfl.mem_iff p).mpr hp)).2
  have hsame : m.pmmPageUnshare p = m := by
    rw [pmmPageUnshare, hshared]
    rfl
  rw [hsame, pmmPageRelease]
  exact if_pos hcount

theorem take_spec (h : m.Ok) (hp : (m.info p).free = false) : m.Keeps ((m.pmmPageShare p).pmmPageRetain p) ∧
      ((m.pmmPageShare p).pmmPageRetain p).info = update m.info p (m.info p).taken := by
  obtain ⟨hk1, hi1⟩ := pmmPageShare_spec h hp
  obtain ⟨hk2, hi2⟩ := pmmPageRetain_spec hk1.ok
  refine ⟨hk1.trans hk2, ?_⟩
  rw [hi2, hi1, update_idem, update_self]
  rfl

end Pmm

/-! ## Tables and held frames -/

namespace Phys

/-- The forest of tables is separated, and no table is a free frame. -/
structure Tables (V : Spaces) (s : Phys) : Prop where
  ok : s.pmm.Ok
  small : s.pmm.maxPfn < 2 ^ 40
  separated : (forest V s.mem).Separated (inner V.top)
  table : ∀ t, Table V s.mem t → (s.pmm.info t).free = false

/-- A frame that is neither free nor a table. -/
def Held (V : Spaces) (s : Phys) (q : Pfn) : Prop :=
  (s.pmm.info q).free = false ∧ ¬ Table V s.mem q

/-- `f` applied to the counts of one frame. -/
def on (x : Option Pfn) (f : PageInfo → PageInfo) (q : Pfn) (i : PageInfo) : PageInfo :=
  if x = some q then f i else i

theorem on_self (q : Pfn) (f : PageInfo → PageInfo) (i : PageInfo) : on (some q) f q i = f i :=
  if_pos rfl

variable {q : Pfn}

theorem on_of_ne {x : Option Pfn} (h : x ≠ some q) (f : PageInfo → PageInfo)
    (i : PageInfo) : on x f q i = i :=
  if_neg h

/-- The counts of held frames change by `f`, and one that `f` does not free stays held with its
contents. -/
structure Step (V : Spaces) (s s' : Phys) (f : Pfn → PageInfo → PageInfo) : Prop where
  tables : Tables V s'
  keep : ∀ q, Held V s q → (f q (s.pmm.info q)).free = false →
    Held V s' q ∧ s'.pmm.info q = f q (s.pmm.info q) ∧ s'.mem q = s.mem q
  maxPfn : s'.pmm.maxPfn = s.pmm.maxPfn
  kernelPt : s'.kernelPt = s.kernelPt
  mmioRegions : s'.mmioRegions = s.mmioRegions
  refused : s.pmm.refused ≤ s'.pmm.refused

/-- No held frame and no leaf changes. -/
structure Quiet (V : Spaces) (s s' : Phys) : Prop where
  step : Step V s s' fun _ i => i
  leaf : ∀ k n, Below V.top n → leaf V s'.mem k n = leaf V s.mem k n

variable {V : Spaces} {s s₁ s₂ : Phys} {f g : Pfn → PageInfo → PageInfo}

theorem not_table_of_free (h : Tables V s) (hq : (s.pmm.info q).free = true) : ¬ Table V s.mem q := by
  intro ht
  rw [h.table q ht] at hq
  exact absurd hq (by decide)

theorem Step.trans (h1 : Step V s s₁ f) (h2 : Step V s₁ s₂ g)
    (hfg : ∀ q, Held V s q → (g q (f q (s.pmm.info q))).free = false → (f q (s.pmm.info q)).free = false) :
    Step V s s₂ fun q i => g q (f q i) where
  tables := h2.tables
  keep := by
    intro q hq hfree
    obtain ⟨hq1, hi1, hm1⟩ := h1.keep q hq (hfg q hq hfree)
    obtain ⟨hq2, hi2, hm2⟩ := h2.keep q hq1 (hi1 ▸ hfree)
    exact ⟨hq2, by rw [hi2, hi1], by rw [hm2, hm1]⟩
  maxPfn := h2.maxPfn.trans h1.maxPfn
  kernelPt := h2.kernelPt.trans h1.kernelPt
  mmioRegions := h2.mmioRegions.trans h1.mmioRegions
  refused := h1.refused.trans h2.refused

theorem Quiet.refl (h : Tables V s) : Quiet V s s :=
  ⟨⟨h, fun _ hq _ => ⟨hq, rfl, rfl⟩, rfl, rfl, rfl, Nat.le_refl _⟩, fun _ _ _ => rfl⟩

theorem Quiet.trans (h1 : Quiet V s s₁) (h2 : Quiet V s₁ s₂) : Quiet V s s₂ :=
  ⟨h1.step.trans h2.step fun _ _ h => h, fun k n hn => (h2.leaf k n hn).trans (h1.leaf k n hn)⟩

theorem Quiet.held (h : Quiet V s s₁) (hq : Held V s q) : Held V s₁ q :=
  (h.step.keep q hq hq.1).1

/-- The physical memory manager changes the counts of one frame that is no table. -/
theorem Step.of_pmm (h : Tables V s) {m : Pmm} (hm : s.pmm.Keeps m) {p : Pfn}
    (hp : ¬ Table V s.mem p) {f : PageInfo → PageInfo}
    (hinfo : m.info = update s.pmm.info p (f (s.pmm.info p))) :
    Step V s { s with pmm := m } (on (some p) f) where
  tables := by
    refine ⟨hm.ok, hm.maxPfn ▸ h.small, h.separated, fun t ht => ?_⟩
    have hne : t ≠ p := by rintro rfl; exact hp ht
    dsimp only
    rw [hinfo, update_of_ne hne]
    exact h.table t ht
  keep := by
    intro q hq hfree
    have hi : m.info q = on (some p) f q (s.pmm.info q) := by
      rw [hinfo]
      by_cases hqp : q = p
      · subst hqp
        rw [update_self, on_self]
      · rw [update_of_ne hqp, on_of_ne fun h => hqp (Option.some.inj h).symm]
    exact ⟨⟨by rw [← hi] at hfree; exact hfree, hq.2⟩, hi, rfl⟩
  maxPfn := hm.maxPfn
  kernelPt := rfl
  mmioRegions := rfl
  refused := hm.refused.symm.le

/-! ## Allocation -/

theorem mem_writeEntry (s : Phys) (t : Pfn) (i : Fin 512) (e : BitVec 64) :
    (s.writeEntry t i e).mem = update s.mem t (update (s.mem t) i e) := rfl

/-- A free frame `p` is handed out and filled with `x`; nothing else changes. -/
structure Allocates (V : Spaces) (s s' : Phys) (p : Pfn)
    (x : Fin 512 → BitVec 64) : Prop where
  tables : Tables V s'
  free : (s.pmm.info p).free = true
  ne_zero : p ≠ 0
  le_maxPfn : p ≤ s.pmm.maxPfn
  held : ∀ q, Held V s' q ↔ Held V s q ∨ q = p
  info : s'.pmm.info = update s.pmm.info p (s.pmm.info p).alloc
  mem : s'.mem = update s.mem p x
  leaf : ∀ k n, Below V.top n → leaf V s'.mem k n = leaf V s.mem k n
  node : ∀ k q, inner V.top q → (forest V s'.mem).node k q = (forest V s.mem).node k q
  table : ∀ t, Table V s'.mem t ↔ Table V s.mem t
  maxPfn : s'.pmm.maxPfn = s.pmm.maxPfn
  kernelPt : s'.kernelPt = s.kernelPt
  mmioRegions : s'.mmioRegions = s.mmioRegions
  refused : s'.pmm.refused = s.pmm.refused

theorem Allocates.of_pmm (h : Tables V s) {m : Pmm} (hm : s.pmm.Keeps m) {p : Pfn}
    (hp : (s.pmm.info p).free = true) (hp0 : p ≠ 0) (hle : p ≤ s.pmm.maxPfn)
    (hinfo : m.info = update s.pmm.info p (s.pmm.info p).alloc) (x : Fin 512 → BitVec 64) :
    Allocates V s { s with pmm := m, mem := update s.mem p x } p x := by
  have hnot := not_table_of_free h hp
  have hmem : ∀ t, Table V s.mem t → update s.mem p x t = s.mem t := by
    intro t ht
    exact update_of_ne (by rintro rfl; exact hnot ht) _ _
  have htable := table_congr_tables hmem
  refine ⟨⟨hm.ok, hm.maxPfn ▸ h.small, separated_congr_tables hmem h.separated, ?_⟩, hp, hp0, hle,
    ?_, hinfo, rfl, fun k n hn => leaf_congr_tables hmem hn,
    fun k q hq => node_congr_tables hmem ((inner_closed V.top).dropLast hq), htable, hm.maxPfn, rfl,
    rfl, hm.refused⟩
  · intro t ht
    rw [htable] at ht
    have hne : t ≠ p := by rintro rfl; exact hnot ht
    dsimp only
    rw [hinfo, update_of_ne hne]
    exact h.table t ht
  · intro q
    unfold Held
    dsimp only
    rw [hinfo, htable]
    by_cases hqp : q = p
    · subst hqp
      simp [hnot, PageInfo.free_alloc]
    · rw [update_of_ne hqp]
      simp [hqp]

/-- A refused allocation is counted, and that is all. -/
theorem Quiet.of_refused (h : Tables V s) :
    Quiet V s { s with pmm := { s.pmm with refused := s.pmm.refused + 1 } } :=
  ⟨⟨⟨h.ok.refuse, h.small, h.separated, h.table⟩, fun _ hq _ => ⟨hq, rfl, rfl⟩, rfl,
    rfl, rfl, Nat.le_succ _⟩, fun _ _ _ => rfl⟩

theorem pmmAllocPage_cases (h : Tables V s) :
    (∃ s', s.pmmAllocPage = (none, s') ∧ Quiet V s s' ∧ s'.mem = s.mem ∧ s'.pmm.refused = s.pmm.refused + 1) ∨
      ∃ p m, s.pmmAllocPage = (some p, { s with pmm := m }) ∧
        ∀ x, Allocates V s { s with pmm := m, mem := update s.mem p x } p x := by
  unfold Phys.pmmAllocPage
  rcases Pmm.pmmAllocPage_spec h.ok with ⟨heq, -⟩ | ⟨p, m, heq, hp, hle, hp0, hm, hinfo⟩
  · left
    rw [heq]
    exact ⟨_, rfl, Quiet.of_refused h, rfl, rfl⟩
  · right
    rw [heq]
    exact ⟨p, m, rfl, fun x => Allocates.of_pmm h hm hp hp0 hle hinfo x⟩

end Phys

end Lapis.Mm
