/-
Lapis.Mm.PageForest — page tables as a forest of tables (for `Lapis.Mm.Paging`).

The tables of all address spaces together are a `Forest`: an entry with the present bit points to
the frame in its address bits. A `Spaces` says which top tables are looked at and how many of their
entries count: the first 256 for the lower half of address spaces, all of them for the kernel's
table. The paths that count then have at most three indices; the number of a page is such a path of
three indices and a slot of the table there, and `leaf` is the entry a walk finds in that slot.
`leaf_replace` and `leaf_setLeaf` say what a write to one entry does to the leaves of all address
spaces.
-/
import Lapis.Lib.Forest
import Lapis.Mm.PmmTheorems
import Lapis.Mm.System

namespace Lapis.Mm

open Function List Option Lib

/-! ## Entries -/

variable {i : Nat}

theorem getLsbD_pageFrameMask (hi : i < 64) : pageFrameMask.getLsbD i = decide (12 ≤ i ∧ i < 52) := by
  have h : ∀ j : Fin 64, pageFrameMask.getLsbD j = decide (12 ≤ j.val ∧ j.val < 52) := by decide
  exact h ⟨i, hi⟩

variable {p : Nat}

theorem getLsbD_physOf (hi : i < 64) : (physOf p).getLsbD i = (decide (12 ≤ i) && p.testBit (i - 12)) := by
  unfold physOf pageSize
  rw [BitVec.getLsbD_ofNat, show p * 0x1000 = 2 ^ 12 * p by omega, Nat.testBit_two_pow_mul]
  simp [hi]

theorem frameOf_physOf (hp : p < 2 ^ 40) : frameOf (physOf p) = p := by
  unfold frameOf physOf pageSize
  rw [BitVec.toNat_ofNat, Nat.mod_eq_of_lt (by omega)]
  exact Nat.mul_div_cancel p (by decide)

theorem physOf_ne_zero (h0 : p ≠ 0) (hp : p < 2 ^ 40) : physOf p ≠ 0 := by
  intro h
  have := frameOf_physOf hp
  rw [h] at this
  exact h0 this.symm

/-- The address bits of an entry that was made from a frame and flags outside the mask. -/
theorem physOf_or_and_mask (hp : p < 2 ^ 40) {flags : BitVec 64}
    (hflags : flags &&& pageFrameMask = 0) : (physOf p ||| flags) &&& pageFrameMask = physOf p := by
  apply BitVec.eq_of_getLsbD_eq
  intro i hi
  have hf : (flags &&& pageFrameMask).getLsbD i = false := by rw [hflags]; simp
  rw [BitVec.getLsbD_and, getLsbD_pageFrameMask hi] at hf
  rw [BitVec.getLsbD_and, BitVec.getLsbD_or, getLsbD_pageFrameMask hi, getLsbD_physOf hi]
  by_cases h52 : i < 52
  · by_cases h12 : 12 ≤ i
    · have hflag : flags.getLsbD i = false := by simpa [h12, h52] using hf
      rw [hflag]
      simp [h12, h52]
    · simp [h12]
  · have hbit : p.testBit (i - 12) = false :=
      Nat.testBit_lt_two_pow (Nat.lt_of_lt_of_le hp (Nat.pow_le_pow_right (by omega) (by omega)))
    simp [h52, hbit]

theorem leafFrame_or (hp : p < 2 ^ 40) {flags : BitVec 64}
    (hflags : flags &&& pageFrameMask = 0) : leafFrame (physOf p ||| flags) = p := by
  rw [leafFrame, physOf_or_and_mask hp hflags, frameOf_physOf hp]

/-- The address bits of an entry are the address of its frame. -/
theorem physOf_leafFrame (e : BitVec 64) : physOf (leafFrame e) = e &&& pageFrameMask := by
  have hdvd : pageSize ∣ (e &&& pageFrameMask).toNat := by
    have hlow : ∀ i < 12, (e &&& pageFrameMask).toNat.testBit i = false := by
      intro i hi
      rw [BitVec.testBit_toNat, BitVec.getLsbD_and, getLsbD_pageFrameMask (by omega)]
      simp [show ¬ 12 ≤ i by omega]
    have hmod : (e &&& pageFrameMask).toNat % 2 ^ 12 = 0 := by
      apply Nat.eq_of_testBit_eq
      intro i
      rw [Nat.testBit_mod_two_pow, Nat.zero_testBit]
      by_cases hi : i < 12
      · rw [hlow i hi, Bool.and_false]
      · simp [hi]
    exact Nat.dvd_of_mod_eq_zero hmod
  unfold physOf leafFrame frameOf
  rw [Nat.div_mul_cancel hdvd, BitVec.ofNat_toNat, BitVec.setWidth_eq]

/-- The entry `map_page` writes. -/
def leafOf (page : Pfn) (flags : BitVec 64) : BitVec 64 :=
  physOf page ||| (flags &&& ~~~pageFrameMask) ||| pflagPresent

theorem has_present_leafOf (page : Pfn) (flags : BitVec 64) :
    has (leafOf page flags) pflagPresent = true := by
  rw [pflagPresent, has_twoPow, leafOf, BitVec.getLsbD_or]
  simp [pflagPresent]

theorem leafFrame_leafOf {page : Nat} (hp : page < 2 ^ 40) (flags : BitVec 64) :
    leafFrame (leafOf page flags) = page := by
  rw [leafOf, BitVec.or_assoc]
  apply leafFrame_or hp
  apply BitVec.eq_of_getLsbD_eq
  intro i hi
  simp only [BitVec.getLsbD_and, BitVec.getLsbD_or, BitVec.getLsbD_not, pflagPresent,
    BitVec.getLsbD_twoPow, getLsbD_pageFrameMask hi]
  grind

/-- An address has no bits outside the mask. -/
theorem getLsbD_physOf_out (hp : p < 2 ^ 40) (hi : i < 64)
    (hout : i < 12 ∨ 52 ≤ i) : (physOf p).getLsbD i = false := by
  rw [getLsbD_physOf hi]
  rcases hout with hlow | hhigh
  · simp [show ¬ 12 ≤ i by omega]
  · have hlt : p < 2 ^ (i - 12) :=
      Nat.lt_of_lt_of_le hp (Nat.pow_le_pow_right (by omega) (by omega))
    simp [Nat.testBit_lt_two_pow hlt]

/-- Bits outside the address are those of the flags. -/
theorem getLsbD_leafOf {page : Nat} (hp : page < 2 ^ 40) (flags : BitVec 64)
    (hi : i < 64) (hpos : 0 < i) (hout : i < 12 ∨ 52 ≤ i) :
    (leafOf page flags).getLsbD i = flags.getLsbD i := by
  simp only [leafOf, BitVec.getLsbD_and, BitVec.getLsbD_or, BitVec.getLsbD_not, pflagPresent,
    BitVec.getLsbD_twoPow, getLsbD_pageFrameMask hi, getLsbD_physOf_out hp hi hout]
  grind

/-! ## Paths -/

/-- The number of the page an address lies in, as a walk sees it: the bits above the index of the
top table do not count. -/
def pageNo (v : Nat) : Nat := v / pageSize % 2 ^ 36

/-- The page lies below one of the first `top` entries of a top table. -/
def Below (top n : Nat) : Prop := n < 2 ^ 36 ∧ n / 2 ^ 27 < top

/-- The indices of the three upper tables on the way to a page. -/
def path (n : Nat) : List (Fin 512) :=
  [Fin.ofNat 512 (n >>> 27), Fin.ofNat 512 (n >>> 18), Fin.ofNat 512 (n >>> 9)]

/-- The index of a page in the top table. -/
def topSlot (n : Nat) : Fin 512 := Fin.ofNat 512 (n >>> 27)

/-- The index of a page in its last table. -/
def slot (n : Nat) : Fin 512 := Fin.ofNat 512 n

/-- The paths of tables below the first `top` entries of a top table. -/
def inner (top : Nat) (p : List (Fin 512)) : Prop := p.length ≤ 3 ∧ ∀ i ∈ p.head?, i.val < top

theorem inner_closed (top : Nat) : Forest.Closed (inner top) := by
  refine ⟨⟨Nat.zero_le _, nofun⟩, fun p i h => ⟨?_, ?_⟩⟩
  · have := h.1
    rw [length_append] at this
    omega
  · intro j hj
    apply h.2 j
    rw [List.head?_append, mem_def.mp hj]
    rfl

variable {n : Nat}

theorem inner_path {top : Nat} (hn : Below top n) : inner top (path n) := by
  refine ⟨Nat.le_refl 3, fun i hi => ?_⟩
  obtain rfl : Fin.ofNat 512 (n >>> 27) = i := by simpa [path] using hi
  simp only [Fin.ofNat, Nat.shiftRight_eq_div_pow]
  exact Nat.lt_of_le_of_lt (Nat.mod_le _ _) hn.2

variable {n' : Nat}

/-- A page number is told by its path and its slot. -/
theorem page_ext (hn : n < 2 ^ 36) (hn' : n' < 2 ^ 36) (hpath : path n = path n')
    (hslot : slot n = slot n') : n = n' := by
  simp only [path, slot, Fin.ofNat, List.cons.injEq, Fin.mk.injEq, and_true,
    Nat.shiftRight_eq_div_pow] at hpath hslot
  omega

theorem index_eq (v : Nat) :
    [pml4Index v, pml3Index v, pml2Index v] = path (pageNo v) ∧ pml1Index v = slot (pageNo v) := by
  unfold pageNo path slot pml4Index pml3Index pml2Index pml1Index Fin.ofNat pageSize
  simp only [Nat.shiftRight_eq_div_pow, List.cons.injEq, Fin.mk.injEq, and_true]
  omega

theorem pml4Index_eq (v : Nat) : pml4Index v = topSlot (pageNo v) :=
  (List.cons.inj (index_eq v).1).1

theorem pageNo_of_lt {v : Nat} (hv : v < 2 ^ 47) : pageNo v = v / pageSize := by
  unfold pageNo pageSize
  omega

/-- The lower half. -/
theorem below_of_lt {v : Nat} (hv : v < 2 ^ 47) : Below 256 (pageNo v) := by
  unfold Below pageNo pageSize
  omega

theorem pageNo_alignDown (v : Nat) : pageNo (alignDown v) = pageNo v := by
  rw [pageNo, alignDown, Nat.mul_div_cancel _ (by decide), pageNo]

/-! ## The forest of tables -/

/-- An entry with its present bit set. -/
def present (e : BitVec 64) : Option (BitVec 64) := if has e pflagPresent then some e else none

theorem present_zero : present 0 = none := rfl

variable {e : BitVec 64}

theorem present_of_has (h : has e pflagPresent = true) : present e = some e :=
  if_pos h

theorem present_of_not_has (h : has e pflagPresent = false) : present e = none := by
  simp [present, h]

theorem present_eq_some_iff {e' : BitVec 64} : present e = some e' ↔ has e pflagPresent = true ∧ e = e' := by
  unfold present
  split <;> simp_all

abbrev Memory := Pfn → Fin 512 → BitVec 64

/-- The page tables looked at: a top table for each, of which the first `top` entries count. -/
structure Spaces where
  root : Nat → Option Pfn
  top : Nat

/-- The tables below the given top tables. -/
def forest (V : Spaces) (mem : Memory) : Forest Nat Pfn (Fin 512) where
  root := V.root
  child t i := (present (mem t i)).map leafFrame

/-- The frame is a table of the lower half of some address space. -/
def Table (V : Spaces) (mem : Memory) (t : Pfn) : Prop :=
  ∃ k p, inner V.top p ∧ (forest V mem).node k p = some t

/-- The leaf entry of a page of an address space. -/
def leaf (V : Spaces) (mem : Memory) (k n : Nat) : Option (BitVec 64) :=
  ((forest V mem).node k (path n)).bind fun t => present (mem t (slot n))

section Forest

variable {V : Spaces} {mem : Memory}

theorem forest_child (t : Pfn) (i : Fin 512) :
    (forest V mem).child t i = (present (mem t i)).map leafFrame := rfl

theorem forest_child_eq_none_iff {t : Pfn} {i : Fin 512} :
    (forest V mem).child t i = none ↔ present (mem t i) = none := map_eq_none_iff

theorem forest_update (t : Pfn) (i : Fin 512) (e : BitVec 64) : forest V (update mem t (update (mem t) i e)) =
      (forest V mem).setChild t i ((present e).map leafFrame) := by
  unfold forest Forest.setChild
  congr 1
  funext u j
  by_cases hu : u = t
  · subst hu
    by_cases hj : j = i
    · subst hj
      simp
    · simp [hj]
  · simp [hu]

variable {mem' : Memory} {k : Nat}

section

variable (hmem : ∀ t, Table V mem t → mem' t = mem t)

include hmem

/-- The contents of frames that are no tables do not matter. -/
theorem node_congr_tables {q : List (Fin 512)}
    (hq : inner V.top q.dropLast) : (forest V mem').node k q = (forest V mem).node k q := by
  refine Forest.node_congr (inner_closed V.top) ?_ (fun p i t hp ht => ?_) hq
  · rfl
  · rw [forest_child, forest_child, hmem t ⟨k, p, hp, ht⟩]

theorem leaf_congr_tables (hn : Below V.top n) : leaf V mem' k n = leaf V mem k n := by
  have hp := inner_path hn
  rw [leaf, leaf, node_congr_tables hmem ((inner_closed V.top).dropLast hp)]
  cases ht : (forest V mem).node k (path n) with
  | none => rfl
  | some t => rw [bind_some, bind_some, hmem t ⟨k, path n, hp, ht⟩]

theorem table_congr_tables (t : Pfn) : Table V mem' t ↔ Table V mem t := by
  constructor
  · rintro ⟨k, p, hp, ht⟩
    exact ⟨k, p, hp, by rw [← ht, node_congr_tables hmem ((inner_closed V.top).dropLast hp)]⟩
  · rintro ⟨k, p, hp, ht⟩
    exact ⟨k, p, hp, by rw [← ht, node_congr_tables hmem ((inner_closed V.top).dropLast hp)]⟩

theorem separated_congr_tables
    (hsep : (forest V mem).Separated (inner V.top)) : (forest V mem').Separated (inner V.top) := by
  intro k p k' p' t hp hp' ht ht'
  rw [node_congr_tables hmem ((inner_closed V.top).dropLast hp)] at ht
  rw [node_congr_tables hmem ((inner_closed V.top).dropLast hp')] at ht'
  exact hsep k p k' p' t hp hp' ht ht'

end

/-- One page table without entries has one table. -/
theorem node_of_empty {pt : Pfn} (hroot : V.root = fun k => if k = 0 then some pt else none)
    (hempty : ∀ i : Fin 512, i.val < V.top → mem pt i = 0) {p : List (Fin 512)} {t : Pfn}
    (hp : inner V.top p) (ht : (forest V mem).node k p = some t) : k = 0 ∧ p = [] ∧ t = pt := by
  have hk : V.root k = some pt ∧ k = 0 := by
    by_cases hk : k = 0
    · exact ⟨by rw [hroot]; exact if_pos hk, hk⟩
    · have hnone : V.root k = none := by rw [hroot]; exact if_neg hk
      rw [Forest.node] at ht
      change (V.root k).bind _ = _ at ht
      simp [hnone] at ht
  refine ⟨hk.2, ?_⟩
  rw [Forest.node] at ht
  change (V.root k).bind _ = _ at ht
  rw [hk.1, bind_some] at ht
  cases p with
  | nil => exact ⟨rfl, (some.inj ht).symm⟩
  | cons i p =>
    have hchild : (forest V mem).child pt i = none := by
      rw [forest_child, hempty i (hp.2 i rfl), present_zero, map_none]
    simp [Forest.descend, hchild] at ht

theorem separated_of_empty {pt : Pfn} (hroot : V.root = fun k => if k = 0 then some pt else none)
    (hempty : ∀ i : Fin 512, i.val < V.top → mem pt i = 0) : (forest V mem).Separated (inner V.top) := by
  intro k p k' p' t hp hp' ht ht'
  obtain ⟨rfl, rfl, -⟩ := node_of_empty hroot hempty hp ht
  obtain ⟨rfl, rfl, -⟩ := node_of_empty hroot hempty hp' ht'
  exact ⟨rfl, rfl⟩

variable {k n : Nat} {p : List (Fin 512)} {t : Pfn} {i : Fin 512} {e : BitVec 64}

variable {k' : Nat}

/-- An entry of an upper table changes, and neither the old nor the new table below it has an
entry: no leaf changes. -/
theorem leaf_replace (hsep : (forest V mem).Separated (inner V.top)) (hp : inner V.top p)
    (hlen : p.length ≤ 2) (ht : (forest V mem).node k p = some t)
    (hold : ∀ m, (forest V mem).child t i = some m → ∀ j, (forest V mem).child m j = none)
    (hnew : ∀ m, (present e).map leafFrame = some m →
      m ≠ t ∧ ∀ j, (forest V mem).child m j = none) (hn' : Below V.top n') :
    leaf V (update mem t (update (mem t) i e)) k' n' = leaf V mem k' n' := by
  have hp' := inner_path hn'
  unfold leaf
  rw [forest_update]
  by_cases heq : k' = k ∧ path n' = p ++ [i]
  · rw [heq.1, heq.2, Forest.node_setChild_self (inner_closed V.top) hsep hp ht, Forest.node_concat, ht,
      bind_some]
    have hnone : ((present e).map leafFrame).bind
        (fun u => present (update mem t (update (mem t) i e) u (slot n'))) = none := by
      cases hm : (present e).map leafFrame with
      | none => rfl
      | some m =>
        obtain ⟨hne, hempty⟩ := hnew m hm
        rw [bind_some, update_of_ne hne]
        exact forest_child_eq_none_iff.mp (hempty _)
    rw [hnone]
    cases hc : (forest V mem).child t i with
    | none => rfl
    | some m => exact (forest_child_eq_none_iff.mp (hold m hc _)).symm
  · rw [Forest.node_replace (inner_closed V.top) hsep hp ht hold hnew ((inner_closed V.top).dropLast hp') heq]
    cases hu : (forest V mem).node k' (path n') with
    | none => rfl
    | some u =>
    have hne : u ≠ t := by
      rintro rfl
      have := (hsep k' (path n') k p u hp' hp hu ht).2
      rw [← this] at hlen
      exact absurd hlen (Nat.not_succ_le_self 2)
    rw [bind_some, bind_some, update_of_ne hne]

/-- The tables after an entry of an upper table was changed in this way. -/
theorem table_replace (hsep : (forest V mem).Separated (inner V.top)) (hp : inner V.top p)
    (hpi : inner V.top (p ++ [i])) (ht : (forest V mem).node k p = some t)
    (hold : ∀ m, (forest V mem).child t i = some m → ∀ j, (forest V mem).child m j = none)
    (hnew : ∀ m, (present e).map leafFrame = some m →
      m ≠ t ∧ ∀ j, (forest V mem).child m j = none) (u : Pfn) :
    Table V (update mem t (update (mem t) i e)) u ↔ (present e).map leafFrame = some u ∨
        (Table V mem u ∧ (forest V mem).child t i ≠ some u) := by
  have hself := Forest.node_setChild_self (i := i) (x := (present e).map leafFrame)
    (inner_closed V.top) hsep hp ht
  unfold Table
  rw [forest_update]
  constructor
  · rintro ⟨k', q, hq, hu⟩
    by_cases heq : k' = k ∧ q = p ++ [i]
    · rw [heq.1, heq.2, hself] at hu
      exact .inl hu
    · rw [Forest.node_replace (inner_closed V.top) hsep hp ht hold hnew ((inner_closed V.top).dropLast hq) heq] at hu
      refine .inr ⟨⟨k', q, hq, hu⟩, fun hc => heq ?_⟩
      refine hsep k' q k (p ++ [i]) u hq hpi hu ?_
      rwa [Forest.node_concat, ht]
  · rintro (hu | ⟨⟨k', q, hq, hu⟩, hc⟩)
    · exact ⟨k, p ++ [i], hpi, hself.trans hu⟩
    have heq : ¬ (k' = k ∧ q = p ++ [i]) := by
      rintro ⟨rfl, rfl⟩
      rw [Forest.node_concat, ht] at hu
      exact hc hu
    refine ⟨k', q, hq, ?_⟩
    rwa [Forest.node_replace (inner_closed V.top) hsep hp ht hold hnew ((inner_closed V.top).dropLast hq) heq]

section

variable (hsep : (forest V mem).Separated (inner V.top)) (hn : Below V.top n)
  (ht : (forest V mem).node k (path n) = some t)

include hsep hn ht

/-- A leaf entry changes: no table does. -/
theorem node_setLeaf {q : List (Fin 512)}
    (hq : inner V.top q) : (forest V (update mem t (update (mem t) i e))).node k' q =
      (forest V mem).node k' q := by
  rw [forest_update]
  refine Forest.node_setChild (inner_closed V.top) hsep (inner_path hn) ht ((inner_closed V.top).dropLast hq) ?_
  intro _ hpre
  have hlen := hpre.length_le
  have := hq.1
  simp only [path, length_append, length_cons, length_nil] at hlen
  omega

theorem leaf_setLeaf (hn' : Below V.top n') : leaf V (update mem t (update (mem t) (slot n) e)) k' n' =
      if k' = k ∧ n' = n then present e else leaf V mem k' n' := by
  unfold leaf
  rw [node_setLeaf hsep hn ht (inner_path hn')]
  by_cases heq : k' = k ∧ n' = n
  · rw [if_pos heq, heq.1, heq.2, ht, bind_some, update_self, update_self]
  rw [if_neg heq]
  cases hu : (forest V mem).node k' (path n') with
  | none => rfl
  | some u =>
  rw [bind_some, bind_some]
  by_cases hut : u = t
  · subst hut
    obtain ⟨rfl, hpath⟩ :=
      hsep k' (path n') k (path n) u (inner_path hn') (inner_path hn) hu ht
    have hslot : slot n' ≠ slot n := fun h => heq ⟨rfl, page_ext hn'.1 hn.1 hpath h⟩
    rw [update_self, update_of_ne hslot]
  · rw [update_of_ne hut]

theorem table_setLeaf (u : Pfn) : Table V (update mem t (update (mem t) i e)) u ↔ Table V mem u := by
  constructor <;> rintro ⟨k', q, hq, hu⟩ <;> refine ⟨k', q, hq, ?_⟩
  · rwa [node_setLeaf hsep hn ht hq] at hu
  · rwa [node_setLeaf hsep hn ht hq]

end

end Forest

end Lapis.Mm
