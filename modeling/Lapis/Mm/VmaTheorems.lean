/-
Lapis.Mm.VmaTheorems — the tree of VMAs of an address space.

`Tidy` is the shape every lookup relies on: the VMAs are page aligned, not empty, do not reach
the end of the 64-bit range and stand in order without overlapping. On a tidy list the search
of `_find_vma` is exact, an insertion of a range that meets no VMA succeeds, and splitting,
shrinking and removing keep the list tidy; each lemma also says which VMAs the result has.
-/
import Lapis.Mm.Vmm
import Mathlib.Data.Finset.Card
import Mathlib.Data.Finset.Range
import Mathlib.Data.List.Pairwise
import Mathlib.Data.List.TakeWhile

namespace Lapis.Mm

open List Option
open VmaTree

/-! ## Shape of a VMA -/

variable {addr : Nat}

namespace Vma

/-- Page aligned, not empty, and the end is a 64-bit address. -/
structure Shaped (v : Vma) : Prop where
  base : pageSize ∣ v.base
  size : pageSize ∣ v.size
  pos : 0 < v.size
  bound : v.base + v.size < 2 ^ 64

/-- The address lies in the VMA. -/
def Has (v : Vma) (addr : Nat) : Prop := v.base ≤ addr ∧ addr < v.base + v.size

instance (v : Vma) (addr : Nat) : Decidable (v.Has addr) :=
  inferInstanceAs (Decidable (_ ∧ _))

/-- The two VMAs have no address in common. -/
def Apart (u v : Vma) : Prop := ∀ addr, ¬ (u.Has addr ∧ v.Has addr)

variable {u v : Vma}

theorem limit_eq (h : v.base + v.size < 2 ^ 64) : v.limit = v.base + v.size :=
  Nat.mod_eq_of_lt h

theorem Shaped.limit_eq (h : v.Shaped) : v.limit = v.base + v.size := Vma.limit_eq h.bound

theorem Shaped.covers_iff (h : v.Shaped) : v.covers addr = true ↔ v.Has addr := by
  simp [covers, Has, h.limit_eq]

theorem Shaped.has_base (h : v.Shaped) : v.Has v.base := by
  have := h.pos
  constructor <;> omega

theorem apart_iff (hu : 0 < u.size) (hv : 0 < v.size) :
    u.Apart v ↔ u.base + u.size ≤ v.base ∨ v.base + v.size ≤ u.base := by
  constructor
  · intro h
    by_contra hne
    have := h (max u.base v.base)
    apply this
    simp only [Has]
    omega
  · intro h addr
    simp only [Has]
    omega

end Vma

/-! ## Lists in order -/

/-- The order of the tree. -/
def Ascending (vmas : List Vma) : Prop := vmas.Pairwise fun u v => u.base < v.base

variable {vmas : List Vma}

/-- A key cuts the list in two. -/
theorem Ascending.cut (h : Ascending vmas) (addr : Nat) :
    ∃ L R, vmas = L ++ R ∧ (∀ u ∈ L, u.base < addr) ∧ ∀ u ∈ R, addr ≤ u.base := by
  induction vmas with
  | nil => exact ⟨[], [], rfl, by simp, by simp⟩
  | cons w vmas ih =>
    obtain ⟨hle, hrest⟩ := pairwise_cons.mp h
    by_cases hlt : w.base < addr
    · obtain ⟨L, R, rfl, hL, hR⟩ := ih hrest
      exact ⟨w :: L, R, rfl, forall_mem_cons.mpr ⟨hlt, hL⟩, hR⟩
    · refine ⟨[], w :: vmas, rfl, by simp, forall_mem_cons.mpr ⟨by omega, fun u hu => ?_⟩⟩
      have := hle u hu
      omega

/-- In order and without overlap; a VMA may be empty or reach the end of the 64-bit range. -/
def Laid (vmas : List Vma) : Prop :=
  vmas.Pairwise fun u v => u.base < v.base ∧ u.base + u.size ≤ v.base

theorem Laid.ascending (h : Laid vmas) : Ascending vmas := h.imp And.left

/-! ## Tidy lists -/

/-- In order and without overlap. -/
structure Tidy (vmas : List Vma) : Prop where
  ordered : vmas.Pairwise fun u v => u.base + u.size ≤ v.base
  shaped : ∀ v ∈ vmas, v.Shaped

variable {v u : Vma}

/-- Two VMAs with an address in common are the same. -/
theorem eq_of_has_of_ordered (h : vmas.Pairwise fun u v => u.base + u.size ≤ v.base) (hu : u ∈ vmas)
    (hv : v ∈ vmas) (hau : u.Has addr) (hav : v.Has addr) : u = v := by
  induction vmas with
  | nil => simp at hu
  | cons w vmas ih =>
    obtain ⟨hle, hrest⟩ := pairwise_cons.mp h
    simp only [Vma.Has] at hau hav
    rcases mem_cons.mp hu with rfl | hu' <;> rcases mem_cons.mp hv with rfl | hv'
    · rfl
    · have := hle v hv'
      omega
    · have := hle u hu'
      omega
    · exact ih hrest hu' hv'

namespace Tidy

variable {vmas : List Vma}

theorem nil : Tidy [] := ⟨.nil, by simp⟩

theorem cons_iff : Tidy (v :: vmas) ↔ v.Shaped ∧ (∀ u ∈ vmas, v.base + v.size ≤ u.base) ∧ Tidy vmas := by
  constructor
  · intro h
    refine ⟨h.shaped v (by simp), (pairwise_cons.mp h.ordered).1,
      (pairwise_cons.mp h.ordered).2, fun u hu => h.shaped u (by simp [hu])⟩
  rintro ⟨hv, hle, hrest⟩
  refine ⟨pairwise_cons.mpr ⟨hle, hrest.ordered⟩, ?_⟩
  intro u hu
  rcases mem_cons.mp hu with rfl | hu
  · exact hv
  · exact hrest.shaped u hu

section

variable (h : Tidy vmas)

include h

theorem sublist {us : List Vma} (hsub : us.Sublist vmas) : Tidy us :=
  ⟨h.ordered.sublist hsub, fun v hv => h.shaped v (hsub.subset hv)⟩

theorem eq_of_has (hu : u ∈ vmas) (hv : v ∈ vmas)
    (hau : u.Has addr) (hav : v.Has addr) : u = v := eq_of_has_of_ordered h.ordered hu hv hau hav

theorem eq_of_base (hu : u ∈ vmas) (hv : v ∈ vmas) (hbase : u.base = v.base) : u = v :=
  h.eq_of_has hu hv (h.shaped u hu).has_base
    (hbase ▸ (h.shaped v hv).has_base)

theorem bases_ordered : (vmas.map Vma.base).Pairwise (· < ·) := by
  rw [pairwise_map]
  have hpos : ∀ u ∈ vmas, 0 < u.size := fun u hu => (h.shaped u hu).pos
  refine List.Pairwise.imp_of_mem ?_ h.ordered
  intro u v hu _ huv
  have := hpos u hu
  omega

/-- There are fewer VMAs than addresses, so the count does not wrap. -/
theorem length_lt : vmas.length < 2 ^ 64 := by
  have hnd : (vmas.map Vma.base).Nodup := h.bases_ordered.imp (fun hlt => by omega)
  have hsub : (vmas.map Vma.base).toFinset ⊆ Finset.range (2 ^ 64 - 1) := by
    intro b hb
    obtain ⟨v, hv, rfl⟩ := by simpa using hb
    have hs := h.shaped v hv
    have hpos := hs.pos
    have hbound := hs.bound
    rw [Finset.mem_range]
    omega
  have hcard := Finset.card_le_card hsub
  rw [toFinset_card_of_nodup hnd, length_map, Finset.card_range] at hcard
  omega

theorem apart : vmas.Pairwise Vma.Apart := by
  refine List.Pairwise.imp_of_mem ?_ h.ordered
  intro u v hu hv huv
  exact (Vma.apart_iff (h.shaped u hu).pos (h.shaped v hv).pos).mpr (.inl huv)

theorem laid : Laid vmas := by
  refine List.Pairwise.imp_of_mem ?_ h.ordered
  intro u v hu _ huv
  have := (h.shaped u hu).pos
  omega

end

end Tidy

/-! ## Lookup -/

section Lookup

variable {L R : List Vma} {addr : Nat}

section

variable (hL : ∀ u ∈ L, u.base < addr)

include hL

theorem rbLowerBound_append (hR : ∀ u ∈ R, addr ≤ u.base) : rbLowerBound (L ++ R) addr = R.head? := by
  have hnone : L.find? (fun u => decide (addr ≤ u.base)) = none := by
    rw [List.find?_eq_none]
    intro u hu
    have := hL u hu
    simp only [decide_eq_true_eq]
    omega
  rw [rbLowerBound, List.find?_append, hnone, none_or]
  cases R with
  | nil => rfl
  | cons w R => rw [List.find?_cons_of_pos (by simpa using hR w (by simp)), List.head?_cons]

theorem rbPrev_append {w : Vma} (hw : addr ≤ w.base) : rbPrev (L ++ w :: R) w = L.getLast? := by
  have htake : (L ++ w :: R).takeWhile (fun u => decide (u.base < w.base)) = L := by
    rw [takeWhile_append_of_pos, takeWhile_cons_of_neg, append_nil]
    · simp
    · intro u hu
      have := hL u hu
      simp only [decide_eq_true_eq]
      omega
  rw [rbPrev, htake]

/-- `_find_vma` tries the first VMA at or above the key and the last one below it. -/
theorem findVma_append (hR : ∀ u ∈ R, addr ≤ u.base) : findVma (L ++ R) addr =
      (R.head?.filter (·.covers addr)).or (L.getLast?.filter (·.covers addr)) := by
  unfold findVma
  rw [rbLowerBound_append hL hR]
  cases R with
  | nil =>
    rw [append_nil]
    cases L.getLast? with
    | none => rfl
    | some u => cases hu : u.covers addr <;> simp [hu, Option.filter]
  | cons w R =>
  rw [List.head?_cons]
  dsimp only
  rw [rbPrev_append hL (hR w (by simp))]
  cases hw : w.covers addr with
  | true => simp [hw, Option.filter]
  | false =>
    cases L.getLast? with
    | none => simp [hw, Option.filter]
    | some u => cases hu : u.covers addr <;> simp [hw, hu, Option.filter]

end

/-- A VMA that `_find_vma` finds passes its test. -/
theorem findVma_covers (h : Ascending vmas)
    (hfound : findVma vmas addr = some v) : v ∈ vmas ∧ v.base ≤ addr ∧ addr < v.limit := by
  obtain ⟨L, R, rfl, hL, hR⟩ := h.cut addr
  rw [findVma_append hL hR] at hfound
  have hmem : v ∈ L ++ R ∧ v.covers addr = true := by
    rcases or_eq_some_iff.mp hfound with hv | ⟨-, hv⟩
    · obtain ⟨hhead, hcov⟩ := filter_eq_some_iff.mp hv
      exact ⟨mem_append_right L (List.mem_of_head? hhead), hcov⟩
    · obtain ⟨hlast, hcov⟩ := filter_eq_some_iff.mp hv
      exact ⟨mem_append_left R (List.mem_of_getLast? hlast), hcov⟩
  simpa [Vma.covers] using hmem

theorem Vma.limit_le (v : Vma) : v.limit ≤ v.base + v.size := Nat.mod_le _ _

theorem Vma.covers_eq_true : v.covers addr = true ↔ v.base ≤ addr ∧ addr < v.limit := by
  simp [Vma.covers]

/-- Without overlap `_find_vma` finds the VMA that passes its test, if there is one. -/
theorem Laid.findVma_eq_some_iff (h : Laid vmas) :
    findVma vmas addr = some v ↔ v ∈ vmas ∧ v.covers addr = true := by
  constructor
  · intro hfound
    obtain ⟨hmem, hcov⟩ := findVma_covers h.ascending hfound
    exact ⟨hmem, Vma.covers_eq_true.mpr hcov⟩
  rintro ⟨hmem, hcov⟩
  obtain ⟨hlo, hhi⟩ := Vma.covers_eq_true.mp hcov
  have hend := v.limit_le
  obtain ⟨A, B, rfl⟩ := append_of_mem hmem
  obtain ⟨-, hright, hleft⟩ := pairwise_append.mp h
  have hA : ∀ w ∈ A, w.base < v.base := fun w hw => (hleft w hw v mem_cons_self).1
  have hB : ∀ w ∈ B, addr < w.base := by
    intro w hw
    have := ((pairwise_cons.mp hright).1 w hw).2
    omega
  by_cases hbase : v.base < addr
  · -- below the key: it is the last one there, and the first one at the key lies behind it
    have hL : ∀ w ∈ A ++ [v], w.base < addr := by
      intro w hw
      rcases mem_append.mp hw with hw | hw
      · have := hA w hw
        omega
      · rwa [mem_singleton.mp hw]
    have hnone : B.head?.filter (·.covers addr) = none := by
      rw [filter_eq_none_iff]
      intro w hw hwcov
      have := hB w (List.mem_of_head? hw)
      have := (Vma.covers_eq_true.mp hwcov).1
      omega
    have hsplit : A ++ v :: B = (A ++ [v]) ++ B := by simp
    rw [hsplit, findVma_append hL fun w hw => (hB w hw).le]
    simp [hnone, hcov]
  · -- at the key: it is the first one there
    have hR : ∀ w ∈ v :: B, addr ≤ w.base := by
      intro w hw
      rcases mem_cons.mp hw with rfl | hw
      · omega
      · exact (hB w hw).le
    have hL : ∀ w ∈ A, w.base < addr := by
      intro w hw
      have := hA w hw
      omega
    rw [findVma_append hL hR]
    simp [hcov]

/-- On a tidy list `_find_vma` finds the VMA that has the address, if there is one. -/
theorem Tidy.findVma_eq_some_iff (h : Tidy vmas) : findVma vmas addr = some v ↔ v ∈ vmas ∧ v.Has addr := by
  rw [h.laid.findVma_eq_some_iff]
  exact and_congr_right fun hmem => (h.shaped v hmem).covers_iff

theorem Tidy.findVma_eq_none_iff (h : Tidy vmas) : findVma vmas addr = none ↔ ∀ v ∈ vmas, ¬ v.Has addr := by
  rw [eq_none_iff_forall_ne_some]
  constructor
  · intro hnone v hv hhas
    exact hnone v (h.findVma_eq_some_iff.mpr ⟨hv, hhas⟩)
  · intro hnone v hfound
    obtain ⟨hv, hhas⟩ := h.findVma_eq_some_iff.mp hfound
    exact hnone v hv hhas

end Lookup

/-! ## Insertion, split and removal -/

/-- A VMA behind all others goes to the end. -/
theorem rbInsert_last (h : ∀ u ∈ vmas, u.base < v.base) : VmaTree.rbInsert v vmas = some (vmas ++ [v]) := by
  induction vmas with
  | nil => rfl
  | cons u us ih =>
    have hu := h u (by simp)
    have hge : ¬ v.base < u.base := by omega
    have hne : v.base ≠ u.base := by omega
    simp [VmaTree.rbInsert, hge, hne, ih fun w hw => h w (by simp [hw])]

namespace Tidy

variable {vmas : List Vma} {v : Vma}

/-- A range that meets no VMA is inserted. -/
theorem rbInsert (h : Tidy vmas) (hv : v.Shaped) (hapart : ∀ u ∈ vmas, u.Apart v) :
    ∃ vmas', VmaTree.rbInsert v vmas = some vmas' ∧ Tidy vmas' ∧ vmas'.Perm (v :: vmas) := by
  induction vmas with
  | nil => exact ⟨[v], rfl, cons_iff.mpr ⟨hv, by simp, nil⟩, .refl _⟩
  | cons u us ih =>
    obtain ⟨hu, hle, hrest⟩ := cons_iff.mp h
    have hpos := hv.pos
    have hupos := hu.pos
    have huv := (Vma.apart_iff hu.pos hv.pos).mp (hapart u (by simp))
    by_cases hlt : v.base < u.base
    · refine ⟨v :: u :: us, by simp [VmaTree.rbInsert, hlt], ?_, .refl _⟩
      refine cons_iff.mpr ⟨hv, ?_, h⟩
      intro w hw
      rcases mem_cons.mp hw with rfl | hw
      · omega
      · have := hle w hw
        omega
    · obtain ⟨us', hins, htidy, hperm⟩ := ih hrest fun w hw => hapart w (by simp [hw])
      have hne : v.base ≠ u.base := by omega
      refine ⟨u :: us', by simp [VmaTree.rbInsert, hlt, hne, hins], ?_, (hperm.cons u).trans (.swap v u us)⟩
      refine cons_iff.mpr ⟨hu, ?_, htidy⟩
      intro w hw
      rcases mem_cons.mp (hperm.mem_iff.mp hw) with rfl | hw
      · omega
      · exact hle w hw

/-- A write through the pointer to one VMA. -/
theorem assign_eq {A B : List Vma} (h : Tidy (A ++ v :: B)) (f : Vma → Vma) :
    assign (A ++ v :: B) v.base f = A ++ f v :: B := by
  have hother : ∀ w ∈ A ++ B, w.base ≠ v.base := by
    intro w hw hbase
    have hmem : w ∈ A ++ v :: B := by
      rcases mem_append.mp hw with hw | hw <;> simp [hw]
    have heq := h.eq_of_base hmem (by simp) hbase
    have hnd : (A ++ v :: B).Nodup :=
      List.Nodup.of_map Vma.base (h.bases_ordered.imp fun hlt => by omega)
    rw [nodup_middle, nodup_cons] at hnd
    exact hnd.1 (heq ▸ hw)
  have hsame : ∀ C : List Vma, (∀ w ∈ C, w.base ≠ v.base) → assign C v.base f = C := by
    intro C hC
    unfold assign
    conv_rhs => rw [← map_id C]
    refine map_congr_left fun w hw => ?_
    rw [if_neg (hC w hw), id]
  have happ : assign (A ++ v :: B) v.base f = assign A v.base f ++ f v :: assign B v.base f := by
    simp [assign]
  rw [happ, hsame A fun w hw => hother w (by simp [hw]), hsame B fun w hw => hother w (by simp [hw])]

/-- Another VMA in the place of one, within its range. -/
theorem replace {A B : List Vma} (h : Tidy (A ++ v :: B)) (hu : u.Shaped)
    (hlo : v.base ≤ u.base) (hhi : u.base + u.size ≤ v.base + v.size) : Tidy (A ++ u :: B) := by
  have hord := h.ordered
  rw [pairwise_append, pairwise_cons] at hord
  obtain ⟨hA, ⟨hvB, hB⟩, hAvB⟩ := hord
  refine ⟨?_, ?_⟩
  · rw [pairwise_append, pairwise_cons]
    refine ⟨hA, ⟨fun w hw => ?_, hB⟩, fun x hx w hw => ?_⟩
    · have := hvB w hw
      omega
    · rcases mem_cons.mp hw with rfl | hw
      · have := hAvB x hx v (by simp)
        omega
      · exact hAvB x hx w (by simp [hw])
  · intro w hw
    rcases mem_append.mp hw with hw | hw
    · exact h.shaped w (by simp [hw])
    · rcases mem_cons.mp hw with rfl | hw
      · exact hu
      · exact h.shaped w (by simp [hw])

end Tidy

/-- The part of a VMA below an address. -/
def Vma.lower (v : Vma) (addr : Nat) : Vma := { v with size := addr - v.base }

/-- The part of a VMA from an address on. -/
def Vma.upper (v : Vma) (addr : Nat) : Vma := ⟨addr, v.base + v.size - addr, v.flags⟩

theorem Vma.Shaped.lower (h : v.Shaped) (hd : pageSize ∣ addr)
    (hlo : v.base < addr) (hhi : addr < v.base + v.size) : (v.lower addr).Shaped := by
  refine ⟨h.base, Nat.dvd_sub hd h.base, ?_, ?_⟩ <;> simp only [Vma.lower] <;> have := h.bound <;> omega

theorem Vma.Shaped.upper (h : v.Shaped) (hd : pageSize ∣ addr)
    (hhi : addr < v.base + v.size) : (v.upper addr).Shaped := by
  refine ⟨hd, Nat.dvd_sub (Nat.dvd_add h.base h.size) hd, ?_, ?_⟩ <;> simp only [Vma.upper] <;>
    have := h.bound <;> omega

namespace Tidy

variable {vmas : List Vma} {v : Vma}

/-- `_vma_split` puts the two parts in the place of the VMA. -/
theorem split (h : Tidy vmas) (hv : v ∈ vmas) (hd : pageSize ∣ addr)
    (hlo : v.base < addr) (hhi : addr < v.base + v.size) :
    ∃ vmas', VmaTree.rbInsert (v.upper addr)
        (assign vmas v.base fun w => { w with size := addr - v.base }) = some vmas' ∧
      Tidy vmas' ∧ vmas'.length = vmas.length + 1 ∧
      ∀ w, w ∈ vmas' ↔ (w ∈ vmas ∧ w ≠ v) ∨ w = v.lower addr ∨ w = v.upper addr := by
  have hshape := h.shaped v hv
  have hlow := hshape.lower hd hlo hhi
  have hup := hshape.upper hd hhi
  obtain ⟨A, B, rfl⟩ := append_of_mem hv
  have hmod := h.assign_eq fun w => { w with size := addr - v.base }
  have htidy : Tidy (A ++ v.lower addr :: B) := h.replace hlow (le_refl _) (by
    simp only [Vma.lower]
    omega)
  have hnd : (A ++ v :: B).Nodup :=
    List.Nodup.of_map Vma.base (h.bases_ordered.imp fun hlt => by omega)
  have hvAB : v ∉ A ++ B := by
    rw [nodup_middle, nodup_cons] at hnd
    exact hnd.1
  have hapart : ∀ u ∈ A ++ v.lower addr :: B, u.Apart (v.upper addr) := by
    intro u hu a ⟨hua, hva⟩
    simp only [Vma.Has, Vma.upper] at hva
    by_cases hlower : u = v.lower addr
    · rw [hlower] at hua
      simp only [Vma.Has, Vma.lower] at hua
      omega
    · have hmem : u ∈ A ++ B := by simpa [hlower] using hu
      have heq := h.eq_of_has (u := u) (v := v) (by simp at hmem ⊢; tauto) (by simp) hua
        ⟨by omega, by omega⟩
      exact hvAB (heq ▸ hmem)
  obtain ⟨vmas', hins, htidy', hperm⟩ := htidy.rbInsert hup hapart
  refine ⟨vmas', ?_, htidy', ?_, ?_⟩
  · rwa [hmod]
  · rw [hperm.length_eq]
    simp
  intro w
  rw [hperm.mem_iff]
  have hne : ∀ x ∈ A ++ B, x ≠ v := by
    rintro x hx rfl
    exact hvAB hx
  have hA : ∀ x ∈ A, x ≠ v := fun x hx => hne x (by simp [hx])
  have hB : ∀ x ∈ B, x ≠ v := fun x hx => hne x (by simp [hx])
  simp only [mem_cons, mem_append]
  grind

/-- `rb_remove` of one VMA. -/
theorem rbRemove (h : Tidy vmas) (hv : v ∈ vmas) : Tidy (VmaTree.rbRemove vmas v.base) ∧
      (VmaTree.rbRemove vmas v.base).length + 1 = vmas.length ∧
      ∀ w, w ∈ VmaTree.rbRemove vmas v.base ↔ w ∈ vmas ∧ w ≠ v := by
  have hmem : ∀ w, w ∈ VmaTree.rbRemove vmas v.base ↔ w ∈ vmas ∧ w ≠ v := by
    intro w
    simp only [VmaTree.rbRemove, mem_filter, decide_eq_true_eq]
    constructor
    · rintro ⟨hw, hbase⟩
      exact ⟨hw, by rintro rfl; exact hbase rfl⟩
    · rintro ⟨hw, hne⟩
      exact ⟨hw, fun hbase => hne (h.eq_of_base hw hv hbase)⟩
  refine ⟨h.sublist filter_sublist, ?_, hmem⟩
  have hnd : vmas.Nodup := List.Nodup.of_map Vma.base (h.bases_ordered.imp fun hlt => by omega)
  have hperm : vmas.Perm (v :: VmaTree.rbRemove vmas v.base) := by
    rw [perm_ext_iff_of_nodup hnd]
    · intro w
      rw [mem_cons, hmem]
      grind
    · rw [nodup_cons, hmem]
      exact ⟨fun hself => hself.2 rfl, hnd.sublist filter_sublist⟩
  rw [hperm.length_eq, length_cons]

end Tidy

/-! ## Rounding -/

theorem alignDown_dvd (x : Nat) : pageSize ∣ alignDown x := Nat.dvd_mul_left _ _

theorem alignDown_le (x : Nat) : alignDown x ≤ x := Nat.div_mul_le_self x pageSize

theorem alignDown_of_dvd {x : Nat} (h : pageSize ∣ x) : alignDown x = x := Nat.div_mul_cancel h

theorem alignUp_dvd (x : Nat) : pageSize ∣ alignUp x := Nat.dvd_mul_left _ _

theorem add64_eq {a b : Nat} (h : a + b < 2 ^ 64) : add64 a b = a + b := Nat.mod_eq_of_lt h

theorem sub64_eq {a b : Nat} (h : b ≤ a) (ha : a < 2 ^ 64) : sub64 a b = a - b := by
  unfold sub64
  have : a + 2 ^ 64 - b = (a - b) + 2 ^ 64 := by omega
  rw [this, Nat.add_mod_right, Nat.mod_eq_of_lt (by omega)]

/-! ## Gap search -/

section Gap

variable {vmas : List Vma} {size : Nat}

/-- No VMA has the candidate and none begins inside the range. -/
theorem Tidy.apart_candidate (h : Tidy vmas) (hpos : 0 < size) {c : Nat} (hfirst : findVma vmas c = none)
    (hnext : ∀ w, findVmaNext vmas c = some w → c + size ≤ w.base) (flags : BitVec 32) :
    ∀ u ∈ vmas, u.Apart ⟨c, size, flags⟩ := by
  intro u hu
  rw [Vma.apart_iff (h.shaped u hu).pos hpos]
  dsimp only
  have hc := h.findVma_eq_none_iff.mp hfirst u hu
  simp only [Vma.Has] at hc
  by_cases hbelow : u.base < c
  · omega
  -- the first VMA at or above `c` is the lower bound
  obtain ⟨L, R, rfl, hL, hR⟩ := h.laid.ascending.cut c
  have huR : u ∈ R := by
    rcases mem_append.mp hu with hu | hu
    · exact absurd (hL u hu) hbelow
    · exact hu
  cases R with
  | nil => simp at huR
  | cons w R =>
  have hw : findVmaNext (L ++ w :: R) c = some w := rbLowerBound_append hL hR
  have hcw := hnext w hw
  have hwu : w.base ≤ u.base := by
    rcases mem_cons.mp huR with rfl | huR
    · exact le_refl _
    · have htail := h.sublist (sublist_append_right L (w :: R))
      have := (Tidy.cons_iff.mp htail).2.1 u huR
      omega
  omega

/-- The VMA in the way of a candidate. -/
def obstacle (vmas : List Vma) (size cand : Nat) : Option Vma :=
  ((findVma vmas cand).or (findVma vmas (sub64 (add64 cand size) 1))).or
    ((findVmaNext vmas cand).filter fun w => w.base < add64 cand size)

theorem findFreeGapFrom_succ (vmas : List Vma) (size rounds hint : Nat) :
    VmaTree.findFreeGapFrom vmas size (rounds + 1) hint =
      if hint < add64 vmmUserStart size ∨ alignDown (sub64 hint size) < vmmUserStart then some 0
      else match obstacle vmas size (alignDown (sub64 hint size)) with
        | some u => VmaTree.findFreeGapFrom vmas size rounds u.base
        | none => some (alignDown (sub64 hint size)) := by
  rw [VmaTree.findFreeGapFrom, obstacle]
  dsimp only
  generalize alignDown (sub64 hint size) = cand
  by_cases hlow : hint < add64 vmmUserStart size
  · simp [hlow]
  by_cases hstart : cand < vmmUserStart
  · simp [hstart]
  rw [if_neg hlow, if_neg hstart, if_neg (by tauto)]
  cases (findVma vmas cand).or (findVma vmas (sub64 (add64 cand size) 1)) with
  | some u => rfl
  | none =>
  cases findVmaNext vmas cand with
  | none => rfl
  | some w =>
    by_cases hw : w.base < add64 cand size
    · simp [Option.filter, hw, Nat.not_le.mpr hw]
    · simp [Option.filter, hw, Nat.le_of_not_lt hw]

theorem findVmaNext_spec {addr : Nat} {v : Vma} (h : findVmaNext vmas addr = some v) :
    v ∈ vmas ∧ addr ≤ v.base :=
  ⟨List.mem_of_find?_eq_some h, by simpa using List.find?_some h⟩

/-- A round without a carry: there is no room, the candidate is free, or the search goes on below the
VMA in its way. -/
theorem findFreeGapFrom_round (h : Ascending vmas) (hpos : 0 < size)
    (hfit : vmmUserStart + size < 2 ^ 64) {rounds hint cand : Nat} (hhint : hint < 2 ^ 64)
    (hcand : alignDown (hint - size) = cand) : (VmaTree.findFreeGapFrom vmas size (rounds + 1) hint = some 0 ∧
      (hint < vmmUserStart + size ∨ cand < vmmUserStart)) ∨ vmmUserStart ≤ cand ∧ cand + size ≤ hint ∧
      (VmaTree.findFreeGapFrom vmas size (rounds + 1) hint = some cand ∧ findVma vmas cand = none ∧
        (∀ w, findVmaNext vmas cand = some w → cand + size ≤ w.base) ∨
      ∃ u ∈ vmas, u.base < cand + size ∧ (cand < u.limit ∨ cand ≤ u.base) ∧
        VmaTree.findFreeGapFrom vmas size (rounds + 1) hint =
          VmaTree.findFreeGapFrom vmas size rounds u.base) := by
  rw [findFreeGapFrom_succ, add64_eq hfit]
  by_cases hlow : hint < vmmUserStart + size
  · exact .inl ⟨if_pos (.inl hlow), .inl hlow⟩
  have hle := alignDown_le (hint - size)
  rw [sub64_eq (by omega) hhint, hcand]
  rw [hcand] at hle
  by_cases hstart : cand < vmmUserStart
  · exact .inl ⟨if_pos (.inr hstart), .inr hstart⟩
  refine .inr ⟨by omega, by omega, ?_⟩
  rw [if_neg (by omega), obstacle, add64_eq (by omega), sub64_eq (by omega) (by omega)]
  cases hover : ((findVma vmas cand).or (findVma vmas (cand + size - 1))).or
      ((findVmaNext vmas cand).filter fun w => w.base < cand + size) with
  | none =>
    obtain ⟨hfind, hnext⟩ := or_eq_none_iff.mp hover
    refine .inl ⟨rfl, (or_eq_none_iff.mp hfind).1, fun w hw => ?_⟩
    simpa [hw] using hnext
  | some u =>
    refine .inr ⟨u, ?_⟩
    rcases or_eq_some_iff.mp hover with hu | ⟨-, hu⟩
    · rcases or_eq_some_iff.mp hu with hu | ⟨-, hu⟩ <;>
      · obtain ⟨hmem, hlo, hhi⟩ := findVma_covers h hu
        exact ⟨hmem, by omega, by omega, rfl⟩
    · obtain ⟨hnext, hbase⟩ := filter_eq_some_iff.mp hu
      obtain ⟨hmem, habove⟩ := findVmaNext_spec hnext
      exact ⟨hmem, of_decide_eq_true hbase, .inr habove, rfl⟩

/-- `_find_free_gap` finds a range below the hint that meets no VMA. -/
theorem Tidy.findFreeGapFrom (h : Tidy vmas) (hpos : 0 < size)
    (hfit : vmmUserStart + size < 2 ^ 64) {rounds hint c : Nat} (hhint : hint < 2 ^ 64)
    (hfound : VmaTree.findFreeGapFrom vmas size rounds hint = some c) (hc : c ≠ 0) :
    pageSize ∣ c ∧ vmmUserStart ≤ c ∧ c + size ≤ hint ∧ ∀ flags, ∀ u ∈ vmas, u.Apart ⟨c, size, flags⟩ := by
  induction rounds generalizing hint with
  | zero => simp [VmaTree.findFreeGapFrom] at hfound
  | succ rounds ih =>
    rcases findFreeGapFrom_round h.laid.ascending hpos hfit hhint rfl with
      ⟨heq, -⟩ | ⟨hstart, hle, ⟨heq, hfirst, hnext⟩ | ⟨u, -, hbase, -, heq⟩⟩
    · exact absurd (some.inj (hfound.symm.trans heq)) hc
    · obtain rfl := some.inj (heq.symm.trans hfound)
      exact ⟨alignDown_dvd _, hstart, hle, h.apart_candidate hpos hfirst hnext⟩
    · obtain ⟨hd, hs, hl, hap⟩ := ih (by omega) (heq.symm.trans hfound)
      exact ⟨hd, hs, by omega, hap⟩

end Gap

end Lapis.Mm
