/-
Lapis.Mm.BootMapTheorems — from the boot loader's memory map to the free frames.

A memory map is well formed when its usable entries are whole pages, are disjoint, and are all
reached by the direct map of physical memory (`hhdmOffset`). From such a map `pfn_db_init` and
`pmm_init` build the free list of the frames inside the usable entries, without frame 0 and
without the frames the database itself takes.

`initPages` gives every page record a value. The loops of the source write records up to
`max_pfn` only; `initMemory` is those loops over the memory the array is built in, and
`initMemory_eq` says that the two agree up to `max_pfn` and that nothing is written above it.
-/
import Lapis.Mm.PmmRunTheorems

namespace Lapis.Mm

open Function List Option

/-! ## Memory maps -/

namespace MemmapEntry

/-- The address after the last byte of an entry. -/
def limit (e : MemmapEntry) : Nat := e.base.toNat + e.length.toNat

/-- The whole frame `p` lies inside the usable entry `e`. -/
def Contains (e : MemmapEntry) (p : Nat) : Prop :=
  e.usable = true ∧ e.base.toNat ≤ p * pageSize ∧ (p + 1) * pageSize ≤ e.limit

/-- The entry `e` without the `size` bytes at its front. -/
def shrink (e : MemmapEntry) (size : UInt64) : MemmapEntry :=
  { e with base := e.base + size, length := e.length - size }

end MemmapEntry

namespace PfnDb

variable {mmap mmap' : List MemmapEntry} {hhdmOffset phys : UInt64} {maxPfn : Nat} {p : Pfn}

/-- What the boot loader guarantees of the usable entries. -/
structure WellFormed (mmap : List MemmapEntry) (hhdmOffset : UInt64) : Prop where
  aligned : ∀ e ∈ mmap, e.usable = true → pageSize ∣ e.base.toNat ∧ pageSize ∣ e.length.toNat
  disjoint : mmap.Pairwise fun e e' => e.usable = true → e'.usable = true →
    e.limit ≤ e'.base.toNat ∨ e'.limit ≤ e.base.toNat
  mapped : ∀ e ∈ mmap, e.usable = true → hhdmOffset.toNat + e.limit ≤ 2 ^ 64
  offset_pos : 0 < hhdmOffset.toNat

/-- The frame `p` holds a byte of the page database of `m`. -/
def Occupies (m : Pmm) (hhdmOffset : UInt64) (p : Pfn) : Prop :=
  ∃ b < (m.maxPfn + 1) * Pmm.sizeofPage, (m.memMap - hhdmOffset.toNat + b) / pageSize = p

namespace WellFormed

variable (h : WellFormed mmap hhdmOffset) {e : MemmapEntry} (he : e ∈ mmap)
  (husable : e.usable = true)

include h he husable

theorem limit_lt : e.limit < 2 ^ 64 := by
  have hmapped := h.mapped e he husable
  have hpos := h.offset_pos
  omega

theorem limit_dvd : pageSize ∣ e.limit := by
  obtain ⟨hbase, hlength⟩ := h.aligned e he husable
  exact Nat.dvd_add hbase hlength

/-- The end of an entry as the loops compute it. -/
theorem toNat_add : (e.base + e.length).toNat = e.limit := by
  rw [UInt64.toNat_add]
  exact Nat.mod_eq_of_lt (h.limit_lt he husable)

end WellFormed

/-! ## The largest frame -/

/-- One round of `_pfn_db_calc_max_pfn`. -/
def maxPfnStep (maxPfn : Nat) (e : MemmapEntry) : Nat :=
  if e.usable then
    let last := (e.base + e.length + 0x1000 - 1).toNat / pageSize
    if maxPfn < last then last else maxPfn
  else maxPfn

theorem pfnDbCalcMaxPfn_eq (mmap : List MemmapEntry) :
    pfnDbCalcMaxPfn mmap = mmap.foldl maxPfnStep 0 := rfl

theorem maxPfnStep_spec (n : Nat) (e : MemmapEntry) : n ≤ maxPfnStep n e ∧
      (e.usable = true → (e.base + e.length + 0x1000 - 1).toNat / pageSize ≤ maxPfnStep n e) ∧
      (n < 2 ^ 52 → maxPfnStep n e < 2 ^ 52) := by
  have hlast : (e.base + e.length + 0x1000 - 1).toNat / pageSize < 2 ^ 52 := by
    have hlt := (e.base + e.length + 0x1000 - 1).toNat_lt
    rw [pageSize]
    omega
  unfold maxPfnStep
  dsimp only
  split
  case isTrue => split <;> omega
  case isFalse husable => exact ⟨Nat.le_refl n, fun h => absurd h husable, id⟩

theorem foldl_maxPfnStep_spec (mmap : List MemmapEntry) (n : Nat) : n ≤ mmap.foldl maxPfnStep n ∧
      (∀ e ∈ mmap, e.usable = true →
        (e.base + e.length + 0x1000 - 1).toNat / pageSize ≤ mmap.foldl maxPfnStep n) ∧
      (n < 2 ^ 52 → mmap.foldl maxPfnStep n < 2 ^ 52) := by
  induction mmap generalizing n with
  | nil => exact ⟨Nat.le_refl n, nofun, id⟩
  | cons a mmap ih =>
    obtain ⟨hle, hlast, hlt⟩ := maxPfnStep_spec n a
    obtain ⟨hle', hlast', hlt'⟩ := ih (maxPfnStep n a)
    refine ⟨Nat.le_trans hle hle', fun e he husable => ?_, fun hn => hlt' (hlt hn)⟩
    rcases mem_cons.mp he with rfl | he
    · exact Nat.le_trans (hlast husable) hle'
    · exact hlast' e he husable

theorem pfnDbCalcMaxPfn_lt (mmap : List MemmapEntry) : pfnDbCalcMaxPfn mmap < 2 ^ 52 :=
  (foldl_maxPfnStep_spec mmap 0).2.2 (by decide)

/-- No frame of a usable entry lies above `max_pfn`. -/
theorem WellFormed.limit_le (h : WellFormed mmap hhdmOffset) {e : MemmapEntry} (he : e ∈ mmap)
    (husable : e.usable = true) : e.limit ≤ pfnDbCalcMaxPfn mmap * pageSize := by
  have hlast := (foldl_maxPfnStep_spec mmap 0).2.1 e he husable
  rw [← pfnDbCalcMaxPfn_eq] at hlast
  have hlimit := h.limit_lt he husable
  obtain ⟨k, hk⟩ := h.limit_dvd he husable
  -- the sum is a multiple of the page size below 2^64, so rounding it up does not wrap
  have hsum : (e.base + e.length + 0x1000 - 1).toNat = e.limit + (pageSize - 1) := by
    rw [UInt64.toNat_sub, UInt64.toNat_add _ 0x1000, h.toNat_add he husable]
    simp only [pageSize, UInt64.reduceToNat] at hk ⊢
    omega
  rw [hsum] at hlast
  simp only [pageSize] at hlast hk ⊢
  omega

/-! ## The room for the database -/

theorem toNat_maskPage (x : BitVec 64) :
    (x &&& ~~~(0x1000 - 1 : BitVec 64)).toNat = x.toNat / pageSize * pageSize := by
  have hshift : x &&& ~~~(0x1000 - 1 : BitVec 64) = (x >>> 12) <<< 12 := by
    apply BitVec.eq_of_getLsbD_eq
    intro i hi
    have hmask : (0x1000 - 1 : BitVec 64) = BitVec.ofNat 64 (2 ^ 12 - 1) := rfl
    rw [hmask]
    simp only [BitVec.getLsbD_and, BitVec.getLsbD_not, BitVec.getLsbD_ofNat,
      Nat.testBit_two_pow_sub_one, BitVec.getLsbD_shiftLeft, BitVec.getLsbD_ushiftRight]
    by_cases h : i < 12
    · simp [h]
    · simp [h, hi, show 12 + (i - 12) = i by omega]
  have hlt := x.isLt
  rw [hshift, BitVec.toNat_shiftLeft, BitVec.toNat_ushiftRight, Nat.shiftLeft_eq,
    Nat.shiftRight_eq_div_pow, Nat.mod_eq_of_lt]
  · rfl
  · omega

/-- The room is the array in whole pages: the computation of its size cannot wrap. -/
theorem toNat_dbSize (h : maxPfn < 2 ^ 52) : (dbSize maxPfn).toNat =
      ((maxPfn + 1) * Pmm.sizeofPage + (pageSize - 1)) / pageSize * pageSize := by
  have hsum : (UInt64.ofNat ((maxPfn + 1) * Pmm.sizeofPage) + 0x1000 - 1).toNat =
      (maxPfn + 1) * Pmm.sizeofPage + (pageSize - 1) := by
    simp [UInt64.toNat_sub, UInt64.toNat_add, Pmm.sizeofPage, pageSize]
    omega
  rw [← hsum]
  exact toNat_maskPage _

/-- The room is taken from the front of the first usable entry that has it. -/
theorem pfnDbReserve_spec {size : UInt64} (h : ∃ e ∈ mmap, e.usable = true ∧ size ≤ e.length) :
    ∃ A e B, mmap = A ++ e :: B ∧ e.usable = true ∧ size ≤ e.length ∧
      pfnDbReserve size mmap = some (e.base, A ++ e.shrink size :: B) := by
  induction mmap with
  | nil =>
    obtain ⟨e, he, -⟩ := h
    cases he
  | cons a mmap ih =>
    by_cases ha : a.usable = true ∧ size ≤ a.length
    · refine ⟨[], a, mmap, rfl, ha.1, ha.2, ?_⟩
      have htest : (a.usable && !decide (a.length < size)) = true := by
        simpa [ha.1, UInt64.not_lt] using ha.2
      rw [pfnDbReserve, if_pos htest]
      rfl
    · have htest : ¬ (a.usable && !decide (a.length < size)) = true := by
        simpa [UInt64.not_lt] using ha
      obtain ⟨e, he, husable, hsize⟩ := h
      have hrest : ∃ e ∈ mmap, e.usable = true ∧ size ≤ e.length := by
        rcases mem_cons.mp he with rfl | he
        · exact absurd ⟨husable, hsize⟩ ha
        · exact ⟨e, he, husable, hsize⟩
      obtain ⟨A, e', B, rfl, husable', hsize', heq⟩ := ih hrest
      refine ⟨a :: A, e', B, rfl, husable', hsize', ?_⟩
      rw [pfnDbReserve, if_neg htest, heq]
      rfl

/-! ## The pages that are marked free -/

/-- A page is free after `pfn_db_init` when a usable entry reaches it, and reserved otherwise. -/
theorem flags_initPages (maxPfn : Nat) (junk : Pfn → Nat) (mmap : List MemmapEntry) (p : Pfn) :
    ((initPages maxPfn junk mmap p).flags = pageFree ↔ p ≠ 0 ∧ ∃ e ∈ mmap, Marks maxPfn e p) ∧
      ((initPages maxPfn junk mmap p).flags ≠ pageFree →
        (initPages maxPfn junk mmap p).flags = pageReserved) := by
  have hdiff : pageReserved ≠ pageFree := by decide
  by_cases hp : p = 0
  · subst hp
    rw [initPages_zero]
    exact ⟨iff_of_false hdiff fun h => h.1 rfl, fun _ => rfl⟩
  rw [initPages_eq junk mmap hp]
  by_cases hmark : ∃ e ∈ mmap, Marks maxPfn e p
  · rw [if_pos hmark]
    exact ⟨iff_of_true rfl ⟨hp, hmark⟩, fun hnot => absurd rfl hnot⟩
  · rw [if_neg hmark]
    exact ⟨iff_of_false hdiff fun h => hmark h.2, fun _ => rfl⟩

/-- The loop over an entry of whole pages marks exactly the frames inside it. -/
theorem marks_iff_contains {e : MemmapEntry} (hbase : pageSize ∣ e.base.toNat)
    (hlimit : pageSize ∣ e.limit) (hsum : (e.base + e.length).toNat = e.limit)
    (hmax : e.limit ≤ maxPfn * pageSize) : Marks maxPfn e p ↔ e.Contains p := by
  obtain ⟨k, hk⟩ := hbase
  obtain ⟨l, hl⟩ := hlimit
  rw [Marks, MemmapEntry.Contains, hsum]
  refine and_congr_right fun _ => ?_
  simp only [pageSize] at hk hl hmax ⊢
  rw [hl] at hmax ⊢
  rw [hk, Nat.mul_div_cancel_left k (by decide), Nat.mul_div_cancel_left l (by decide)]
  omega

section Room

/-- The first frames of `e`, which the database takes. -/
def Room (e : MemmapEntry) (size : UInt64) (p : Nat) : Prop :=
  e.base.toNat ≤ p * pageSize ∧ p * pageSize < e.base.toNat + size.toNat

theorem mem_middle {α : Type} {A B : List α} {a x : α} : x ∈ A ++ a :: B ↔ (x ∈ A ∨ x ∈ B) ∨ x = a := by
  simp only [mem_append, mem_cons]
  tauto

variable {A B : List MemmapEntry} {e : MemmapEntry} {size : UInt64}
  (h : WellFormed (A ++ e :: B) hhdmOffset) (he : e.usable = true) (hsize : size ≤ e.length)

include h he hsize

theorem WellFormed.shrink_toNat : (e.shrink size).base.toNat = e.base.toNat + size.toNat ∧
      (e.shrink size).limit = e.limit := by
  have hlimit := h.limit_lt (by simp) he
  have hle : size.toNat ≤ e.length.toNat := UInt64.le_iff_toNat_le.mp hsize
  have hbase : (e.base + size).toNat = e.base.toNat + size.toNat := by
    rw [UInt64.toNat_add]
    refine Nat.mod_eq_of_lt ?_
    rw [MemmapEntry.limit] at hlimit
    omega
  refine ⟨hbase, ?_⟩
  change (e.base + size).toNat + (e.length - size).toNat = _
  rw [hbase, UInt64.toNat_sub_of_le _ _ hsize, MemmapEntry.limit]
  omega

/-- A frame of another entry is not in the room, because the entries are disjoint. -/
theorem WellFormed.contains_other {x : MemmapEntry} (hx : x ∈ A ∨ x ∈ B) (hp : x.Contains p) :
    ¬ Room e size p := by
  have hle : size.toNat ≤ e.length.toNat := UInt64.le_iff_toNat_le.mp hsize
  obtain ⟨-, htail, hacross⟩ := pairwise_append.mp h.disjoint
  have hapart : x.limit ≤ e.base.toNat ∨ e.limit ≤ x.base.toNat := by
    rcases hx with hx | hx
    · exact hacross x hx e (by simp) hp.1 he
    · exact ((pairwise_cons.mp htail).1 x hx he hp.1).symm
  obtain ⟨-, hlo, hhi⟩ := hp
  rw [Room]
  simp only [MemmapEntry.limit, pageSize] at hapart hlo hhi ⊢
  omega

/-- The pages marked are the frames of the usable entries outside the room of the database. -/
theorem WellFormed.marks_iff (hdvd : pageSize ∣ size.toNat) :
    (∃ x ∈ A ++ e.shrink size :: B, Marks (pfnDbCalcMaxPfn (A ++ e :: B)) x p) ↔
      (∃ x ∈ A ++ e :: B, x.Contains p) ∧ ¬ Room e size p := by
  obtain ⟨hbase, hlimit⟩ := h.shrink_toNat he hsize
  obtain ⟨hedvd, -⟩ := h.aligned e (by simp) he
  have hold : ∀ x ∈ A ++ e :: B, x.usable = true →
      (Marks (pfnDbCalcMaxPfn (A ++ e :: B)) x p ↔ x.Contains p) := fun x hx hux =>
    marks_iff_contains (h.aligned x hx hux).1 (h.limit_dvd hx hux) (h.toNat_add hx hux)
      (h.limit_le hx hux)
  have hnew : Marks (pfnDbCalcMaxPfn (A ++ e :: B)) (e.shrink size) p ↔ e.Contains p ∧ ¬ Room e size p := by
    have hsum : ((e.shrink size).base + (e.shrink size).length).toNat = (e.shrink size).limit := by
      rw [UInt64.toNat_add]
      refine Nat.mod_eq_of_lt ?_
      change (e.shrink size).limit < _
      rw [hlimit]
      exact h.limit_lt (by simp) he
    rw [marks_iff_contains (hbase ▸ Nat.dvd_add hedvd hdvd) (hlimit ▸ h.limit_dvd (by simp) he)
      hsum (hlimit ▸ h.limit_le (by simp) he)]
    rw [MemmapEntry.Contains, MemmapEntry.Contains, hbase, hlimit, Room]
    obtain ⟨k, hk⟩ := hdvd
    obtain ⟨l, hl⟩ := hedvd
    change e.usable = true ∧ _ ↔ _
    rw [hk, hl]
    simp only [he, true_and]
    omega
  have hother : ∀ x, x ∈ A ∨ x ∈ B → x.Contains p → ¬ Room e size p :=
    fun x hx => h.contains_other he hsize hx
  constructor
  · rintro ⟨x, hx, hmarks⟩
    rcases mem_middle.mp hx with hx | rfl
    · have hmem : x ∈ A ++ e :: B := mem_middle.mpr (.inl hx)
      have hcontains := (hold x hmem hmarks.1).mp hmarks
      exact ⟨⟨x, hmem, hcontains⟩, hother x hx hcontains⟩
    · obtain ⟨hcontains, hroom⟩ := hnew.mp hmarks
      exact ⟨⟨e, by simp, hcontains⟩, hroom⟩
  · rintro ⟨⟨x, hx, hcontains⟩, hroom⟩
    rcases mem_middle.mp hx with hx' | rfl
    · exact ⟨x, mem_middle.mpr (.inl hx'), (hold x hx hcontains.1).mpr hcontains⟩
    · exact ⟨_, by simp, hnew.mpr ⟨hcontains, hroom⟩⟩

end Room

/-! ## The records that are written -/

/-- A loop that changes the records `l` of an array, each once. -/
theorem foldl_update_apply {α β : Type} [DecidableEq α] (f : α → β → β) {l : List α}
    (hnd : l.Nodup) (mem : α → β) (a : α) : l.foldl (fun mem i => update mem i (f i (mem i))) mem a =
      if a ∈ l then f a (mem a) else mem a := by
  induction l generalizing mem with
  | nil => simp
  | cons i l ih =>
    obtain ⟨hi, hnd⟩ := nodup_cons.mp hnd
    rw [foldl_cons, ih hnd]
    by_cases ha : a = i
    · subst ha
      simp [hi]
    · simp [ha]

/-- The record `i` after its round of the first loop of `pfn_db_init`. -/
def reserve (maxPfn : Nat) (i : Nat) (g : Page) : Page :=
  { g with flags := pageReserved, refcount := 0, next := if i < maxPfn then some (i + 1) else none }

/-- The loop of `pfn_db_init` over one entry of the memory map. -/
def markLoop (maxPfn : Nat) (mem : Pfn → Page) (e : MemmapEntry) : Pfn → Page :=
  let start := e.base.toNat / pageSize
  let last := (e.base + e.length).toNat / pageSize
  if e.usable then
    (List.range' start (min last (maxPfn + 1) - start)).foldl
      (fun mem pfn => update mem pfn { mem pfn with flags := usableFlags (mem pfn).flags }) mem
  else mem

/-- The loops of `pfn_db_init` over the memory `mem` in which the array is built. -/
def initMemory (maxPfn : Nat) (mem : Pfn → Page) (mmap : List MemmapEntry) : Pfn → Page :=
  let mem := (List.range (maxPfn + 1)).foldl
    (fun mem i => update mem i (reserve maxPfn i (mem i))) mem
  let mem := mmap.foldl (markLoop maxPfn) mem
  update mem 0 { mem 0 with flags := pageReserved, refcount := 0 }

theorem markLoop_apply (maxPfn : Nat) (mem : Pfn → Page) (e : MemmapEntry) (p : Nat) :
    markLoop maxPfn mem e p = markUsable maxPfn mem e p := by
  by_cases he : e.usable = true
  · have hloop := foldl_update_apply (fun _ (g : Page) => { g with flags := usableFlags g.flags })
      (nodup_range' (s := e.base.toNat / pageSize)
        (n := min ((e.base + e.length).toNat / pageSize) (maxPfn + 1) - e.base.toNat / pageSize))
      mem p
    rw [markLoop, if_pos he, hloop]
    refine if_congr ?_ rfl rfl
    have hbounds : ∀ start last : Nat, start ≤ p ∧ p < start + (min last (maxPfn + 1) - start) ↔
        start ≤ p ∧ p < last ∧ p ≤ maxPfn := by omega
    rw [mem_range'_1, hbounds]
    simp only [he, true_and]
  · rw [markLoop, if_neg he, markUsable_of_not fun h => he h.1]

theorem foldl_markLoop (maxPfn : Nat) (mem : Pfn → Page) (mmap : List MemmapEntry) :
    mmap.foldl (markLoop maxPfn) mem = mmap.foldl (markUsable maxPfn) mem := by
  induction mmap generalizing mem with
  | nil => rfl
  | cons e mmap ih =>
    have hround : markLoop maxPfn mem e = markUsable maxPfn mem e :=
      funext (markLoop_apply maxPfn mem e)
    rw [foldl_cons, foldl_cons, hround, ih]

/-- The loops build the records `initPages` up to `max_pfn` and write nothing above it. -/
theorem initMemory_eq (maxPfn : Nat) (mem : Pfn → Page) (mmap : List MemmapEntry) (p : Nat) :
    initMemory maxPfn mem mmap p =
      if p ≤ maxPfn then initPages maxPfn (fun q => (mem q).u2) mmap p else mem p := by
  have hfirst : ∀ q : Nat, (List.range (maxPfn + 1)).foldl
      (fun mem i => update mem i (reserve maxPfn i (mem i))) mem q =
        if q ≤ maxPfn then reservedPages maxPfn (fun q => (mem q).u2) q else mem q := by
    intro q
    rw [foldl_update_apply (reserve maxPfn) nodup_range mem q]
    simp only [mem_range, Nat.lt_succ_iff]
    rfl
  have hmarked : ∀ q : Nat, mmap.foldl (markLoop maxPfn) ((List.range (maxPfn + 1)).foldl
      (fun mem i => update mem i (reserve maxPfn i (mem i))) mem) q = if q ≤ maxPfn then
          mmap.foldl (markUsable maxPfn) (reservedPages maxPfn fun q => (mem q).u2) q
        else mem q := by
    intro q
    rw [foldl_markLoop, foldl_markUsable, foldl_markUsable, hfirst]
    by_cases hq : q ≤ maxPfn
    · rw [if_pos hq, if_pos hq]
    · have hnone : ¬ ∃ e ∈ mmap, Marks maxPfn e q := fun ⟨_, _, he⟩ => hq he.2.2.2
      rw [if_neg hnone, if_neg hq, if_neg hq]
  unfold initMemory initPages
  dsimp only
  by_cases hp : p = 0
  · subst hp
    rw [update_self, update_self, if_pos (Nat.zero_le _), hmarked, if_pos (Nat.zero_le _)]
  · rw [update_of_ne hp, update_of_ne hp, hmarked]

end PfnDb

namespace Pmm

/-- A round of `pmm_init` writes its own record and the head of the list. -/
theorem pages_initPage_other {m : Pmm} {n q : Pfn} (hq : q ≠ n) (hhead : m.freeList ≠ some q) :
    (m.initPage n).pages q = m.pages q := by
  set t := (m.setNext n none).setPrev n none with ht
  have hsame : t.pages q = m.pages q := by simp [ht, setNext, setPrev, hq]
  unfold initPage
  rw [← ht]
  dsimp only
  split
  · have hhead' : t.freeList ≠ some q := hhead
    rw [← hsame]
    unfold freeListPush
    dsimp only
    split
    case h_1 x hx =>
      have hne : q ≠ x := by
        rintro rfl
        exact hhead' hx
      simp [setNext, setPrev, hq, hne]
    case h_2 => simp [setNext, setPrev, hq]
  · exact hsame

theorem freeList_initPage (m : Pmm) (n : Pfn) :
    (m.initPage n).freeList = m.freeList ∨ (m.initPage n).freeList = some n := by
  unfold initPage
  dsimp only
  split
  · exact .inr rfl
  · exact .inl rfl

/-- `pmm_init` writes no record above `max_pfn`. -/
theorem pages_pmmInit_above (m : Pmm) {p : Nat} (hp : m.maxPfn < p) : m.pmmInit.pages p = m.pages p := by
  have hloop : ∀ n, (∀ q : Nat, n ≤ q →
      ((List.range n).foldl initPage { m with freeList := none, freePages := 0 }).pages q = m.pages q) ∧
      ∀ q : Nat, ((List.range n).foldl initPage
        { m with freeList := none, freePages := 0 }).freeList = some q → q < n := by
    intro n
    induction n with
    | zero => exact ⟨fun q _ => rfl, fun q hq => by cases hq⟩
    | succ n ih =>
      obtain ⟨hpages, hhead⟩ := ih
      rw [range_succ, foldl_append, foldl_cons, foldl_nil]
      set t := (List.range n).foldl initPage { m with freeList := none, freePages := 0 }
      refine ⟨fun q hq => ?_, fun q hq => ?_⟩
      · have hother : q ≠ n := by omega
        have hnothead : t.freeList ≠ some q := fun h => by
          have := hhead q h
          omega
        rw [← hpages q (by omega)]
        exact pages_initPage_other hother hnothead
      · rcases freeList_initPage t n with h | h
        · rw [h] at hq
          exact Nat.lt_succ_of_lt (hhead q hq)
        · cases h.symm.trans hq
          exact Nat.lt_succ_self n
  exact (hloop (m.maxPfn + 1)).1 p hp

end Pmm

namespace PfnDb

variable {mmap : List MemmapEntry} {hhdmOffset : UInt64}

/-! ## The free list after boot -/

/-- The room of the database is the frames its records lie in. -/
theorem room_iff_occupied {base n size p : Nat} (hbase : pageSize ∣ base)
    (hsize : size = (n + (pageSize - 1)) / pageSize * pageSize) :
    base ≤ p * pageSize ∧ p * pageSize < base + size ↔ ∃ b < n, (base + b) / pageSize = p := by
  obtain ⟨k, rfl⟩ := hbase
  simp only [pageSize, Nat.reduceSub] at hsize ⊢
  constructor
  · rintro ⟨hlo, hhi⟩
    obtain ⟨j, rfl⟩ : ∃ j, p = k + j := ⟨p - k, by omega⟩
    rw [Nat.add_mul, Nat.mul_comm k] at hhi
    have hroom : j * 4096 < size := Nat.lt_of_add_lt_add_left hhi
    clear hlo hhi
    have hlt : j * 4096 < n := by omega
    have hframe : (4096 * k + j * 4096) / 4096 = k + j := by omega
    exact ⟨j * 4096, hlt, hframe⟩
  · rintro ⟨b, hb, rfl⟩
    omega

/-- `pfn_db_init` on a map with room for the database. -/
theorem pfnDbInit_eq {A B : List MemmapEntry} {e : MemmapEntry}
    (hmap : WellFormed (A ++ e :: B) hhdmOffset) (he : e.usable = true)
    (hsize : dbSize (pfnDbCalcMaxPfn (A ++ e :: B)) ≤ e.length)
    (hpos : 0 < (dbSize (pfnDbCalcMaxPfn (A ++ e :: B))).toNat) {mmap' : List MemmapEntry}
    (heq : pfnDbReserve (dbSize (pfnDbCalcMaxPfn (A ++ e :: B))) (A ++ e :: B) =
      some (e.base, mmap')) (junk : Pfn → Nat) : ∃ m, pfnDbInit (A ++ e :: B) hhdmOffset junk = some m ∧
      m.memMap = e.base.toNat + hhdmOffset.toNat ∧ m.maxPfn = pfnDbCalcMaxPfn (A ++ e :: B) ∧
      m.pages = initPages (pfnDbCalcMaxPfn (A ++ e :: B)) junk mmap' := by
  have hmemMap : (e.base + hhdmOffset).toNat = e.base.toNat + hhdmOffset.toNat := by
    have hmapped := hmap.mapped e (by simp) he
    have hle := UInt64.le_iff_toNat_le.mp hsize
    rw [MemmapEntry.limit] at hmapped
    rw [UInt64.toNat_add]
    refine Nat.mod_eq_of_lt ?_
    omega
  have hne : (e.base + hhdmOffset).toNat ≠ 0 := by
    have := hmap.offset_pos
    omega
  refine ⟨⟨(e.base + hhdmOffset).toNat, pfnDbCalcMaxPfn (A ++ e :: B),
    initPages (pfnDbCalcMaxPfn (A ++ e :: B)) junk mmap', none, 0, 0⟩, ?_, hmemMap, rfl, rfl⟩
  simp only [pfnDbInit, heq, bind_some, if_neg hne]

/-- After `pfn_db_init` and `pmm_init` the free frames are the frames inside the usable entries,
except frame 0 and the frames of the database; every other frame is reserved and without
references. The loops write no record above `max_pfn`. -/
theorem boot_free_frames (hmap : WellFormed mmap hhdmOffset) (hlarge : ∃ e ∈ mmap, e.usable = true ∧
      (pfnDbCalcMaxPfn mmap + 1) * Pmm.sizeofPage ≤ e.length.toNat) (mem : Pfn → Page) :
    ∃ m, pfnDbInit mmap hhdmOffset (fun p => (mem p).u2) = some m ∧ (∃ fl, m.pmmInit.FreeListIs fl ∧
        (∀ p, p ∈ fl ↔ (∃ e ∈ mmap, e.Contains p) ∧ p ≠ 0 ∧ ¬ Occupies m hhdmOffset p) ∧
        (∀ p ∈ fl, p ≤ m.maxPfn) ∧ ∀ p, p ∉ fl → (m.pmmInit.pages p).flags = pageReserved ∧
          (m.pmmInit.pages p).refcount = 0) ∧
      (∃ phys mmap', pfnDbReserve (dbSize m.maxPfn) mmap = some (phys, mmap') ∧
        (∀ p ≤ m.maxPfn, initMemory m.maxPfn mem mmap' p = m.pages p) ∧
        ∀ p, m.maxPfn < p → initMemory m.maxPfn mem mmap' p = mem p) ∧
      ∀ p, m.maxPfn < p → m.pmmInit.pages p = m.pages p := by
  have hmax := pfnDbCalcMaxPfn_lt mmap
  have hdb := toNat_dbSize hmax
  have hroom : ∃ e ∈ mmap, e.usable = true ∧ dbSize (pfnDbCalcMaxPfn mmap) ≤ e.length := by
    obtain ⟨e, he, husable, hlen⟩ := hlarge
    refine ⟨e, he, husable, ?_⟩
    obtain ⟨k, hk⟩ := (hmap.aligned e he husable).2
    rw [UInt64.le_iff_toNat_le, hdb]
    simp only [pageSize] at hk ⊢
    omega
  obtain ⟨A, e, B, rfl, husable, hsize, hreserve⟩ := pfnDbReserve_spec hroom
  have hpos : 0 < (dbSize (pfnDbCalcMaxPfn (A ++ e :: B))).toNat := by
    rw [hdb]
    simp only [pageSize, Pmm.sizeofPage]
    omega
  obtain ⟨m, hinit, hmemMap, hmaxPfn, hpages⟩ :=
    pfnDbInit_eq hmap husable hsize hpos hreserve fun p => (mem p).u2
  obtain ⟨⟨fl, hfl⟩, hinitMax, hkept⟩ := Pmm.pmmInit_spec (pfnDbInit_fresh hinit)
  have hoccupied : ∀ p, Occupies m hhdmOffset p ↔ Room e (dbSize (pfnDbCalcMaxPfn (A ++ e :: B))) p := by
    intro p
    rw [Occupies, hmaxPfn, hmemMap, Nat.add_sub_cancel]
    exact (room_iff_occupied (hmap.aligned e (by simp) husable).1 hdb).symm
  have hflags : ∀ p, _ := flags_initPages (pfnDbCalcMaxPfn (A ++ e :: B)) (fun p => (mem p).u2)
    (A ++ e.shrink (dbSize (pfnDbCalcMaxPfn (A ++ e :: B))) :: B)
  rw [← hpages] at hflags
  have hmem : ∀ p, p ∈ fl ↔ (m.pages p).flags = pageFree := by
    intro p
    rw [hfl.mem_iff, Page.isPageFree_eq, (hkept p).1]
    constructor
    · intro hbit
      by_contra hnot
      rw [(hflags p).2 hnot] at hbit
      simp [pageReserved] at hbit
    · intro heq
      simp [heq, pageFree]
  refine ⟨m, hinit, ⟨fl, hfl.freeListIs, fun p => ?_, fun p hp => ?_, fun p hp => ?_⟩,
    ⟨_, _, by rw [hmaxPfn, hreserve], fun p hp => ?_, fun p hp => ?_⟩,
    fun p hp => m.pages_pmmInit_above hp⟩
  · rw [hmem, (hflags p).1, hmap.marks_iff husable hsize (hdb ▸ Nat.dvd_mul_left _ _), hoccupied]
    tauto
  · rw [← hinitMax]
    exact hfl.free_le p hp
  · rw [(hkept p).1, (hkept p).2]
    refine ⟨(hflags p).2 (mt (hmem p).mpr hp), ?_⟩
    rw [hpages]
    exact (untouched_initPages _ _ _ p).1
  · rw [initMemory_eq, if_pos hp, hpages, hmaxPfn]
  · rw [initMemory_eq, if_neg (Nat.not_le.mpr hp)]

/-- Two usable regions; the database goes to the front of the first one. -/
def twoRegions : List MemmapEntry :=
  [⟨0x1000, 0x10000, true⟩, ⟨0x11000, 0x800, false⟩, ⟨0x20000, 0x3000, true⟩]

theorem boot_free_frames_two : ∃ m, pfnDbInit twoRegions 0xffff800000000000 (fun _ => 7) = some m ∧
      ∃ fl, m.pmmInit.FreeListIs fl ∧ 0x22 ∈ fl ∧ 1 ∉ fl := by
  have hmap : WellFormed twoRegions 0xffff800000000000 :=
    ⟨by decide, by decide, by decide, by decide⟩
  have hlarge : ∃ e ∈ twoRegions, e.usable = true ∧
      (pfnDbCalcMaxPfn twoRegions + 1) * Pmm.sizeofPage ≤ e.length.toNat :=
    ⟨⟨0x1000, 0x10000, true⟩, by decide, by decide, by decide⟩
  obtain ⟨m, hinit, ⟨fl, hfl, hmem, -, -⟩, -⟩ :=
    boot_free_frames hmap hlarge fun _ => ⟨none, 7, 0, 0⟩
  obtain ⟨m', hinit', hroom⟩ :
      ∃ m', pfnDbInit twoRegions 0xffff800000000000 (fun _ => 7) = some m' ∧
        m'.maxPfn = 35 ∧ m'.memMap = 0xffff800000001000 := ⟨_, rfl, rfl, rfl⟩
  obtain rfl : m' = m := some.inj (hinit'.symm.trans hinit)
  refine ⟨m', hinit, fl, hfl, (hmem _).mpr ⟨?_, by decide, ?_⟩, fun h => ?_⟩
  · exact ⟨⟨0x20000, 0x3000, true⟩, by decide, rfl, by decide, by decide⟩
  · rintro ⟨b, hb, hframe⟩
    rw [hroom.1] at hb
    rw [hroom.2] at hframe
    simp only [Pmm.sizeofPage, pageSize, UInt64.reduceToNat] at hb hframe
    omega
  · refine ((hmem 1).mp h).2.2 ⟨0, by rw [hroom.1]; decide, ?_⟩
    rw [hroom.2]
    decide

end PfnDb

end Lapis.Mm
