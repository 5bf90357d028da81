/-
Lapis.Mm.SearchTheorems — when the loops of vmm.c end.

Nothing is assumed here but what the tree of VMAs gives: the bases ascend, and they and the sizes are
multiples of a page. VMAs may overlap, wrap around or be empty.

`vmm_protect` always ends, since its address grows in every round. `_find_free_gap` ends for every
size that leaves `VMM_USER_START + size` without a carry, since its hint falls in every round. Two
rounded sizes are left. For 0 a VMA at the candidate is met again and again. For the largest one the
candidate is the page behind the hint, and the search goes back and forth between neighbours.
-/
import Lapis.Mm.SpaceTheorems

namespace Lapis.Mm

open Function List Option Lib
open VmaTree

/-! ## Lists in order -/

section Ascending

variable {vmas : List Vma} {u v : Vma} {addr : Nat}

variable {A B : List Vma}

/-- The list around one of its VMAs. -/
theorem Ascending.around (h : Ascending (A ++ v :: B)) :
    (∀ w ∈ A, w.base < v.base) ∧ ∀ w ∈ B, v.base < w.base := by
  obtain ⟨-, hright, hleft⟩ := pairwise_append.mp h
  exact ⟨fun w hw => hleft w hw v mem_cons_self, (pairwise_cons.mp hright).1⟩

/-- A VMA that is not empty is found at its base. -/
theorem findVma_base (h : Ascending vmas) (hv : v ∈ vmas) (hne : v.base < v.limit) :
    findVma vmas v.base = some v := by
  obtain ⟨A, B, rfl⟩ := append_of_mem hv
  obtain ⟨hA, hB⟩ := h.around
  rw [findVma_append hA (forall_mem_cons.mpr ⟨Nat.le_refl _, fun w hw => (hB w hw).le⟩)]
  simp [Vma.covers, hne, Option.filter]

theorem Vma.covers_eq_false : v.covers addr = false ↔ v.base ≤ addr → v.limit ≤ addr := by
  simp [Vma.covers]

/-- Between two neighbours only the first of them can be found. -/
theorem findVma_between (h : Ascending (A ++ u :: v :: B))
    (hu : u.base < addr) (hv : addr ≤ v.base) (hnot : v.covers addr = false) :
    findVma (A ++ u :: v :: B) addr = if u.covers addr then some u else none := by
  have hsplit : A ++ u :: v :: B = (A ++ [u]) ++ v :: B := by simp
  rw [hsplit] at h ⊢
  obtain ⟨hA, hB⟩ := h.around
  have hAu : ∀ w ∈ A ++ [u], w.base < addr := by
    intro w hw
    rcases mem_append.mp hw with hw | hw
    · have := (pairwise_append.mp (pairwise_append.mp h).1).2.2 w hw u (by simp)
      omega
    · rwa [mem_singleton.mp hw]
  rw [findVma_append hAu (forall_mem_cons.mpr ⟨hv, fun w hw => hv.trans (hB w hw).le⟩)]
  cases hcov : u.covers addr <;> simp [hnot, hcov, Option.filter]

/-- Behind the base of the last VMA only that one can be found. -/
theorem findVma_last (h : Ascending (A ++ [v])) (hv : v.base < addr) :
    findVma (A ++ [v]) addr = if v.covers addr then some v else none := by
  have hA : ∀ w ∈ A ++ [v], w.base < addr := by
    intro w hw
    rcases mem_append.mp hw with hw | hw
    · exact (h.around.1 w hw).trans hv
    · rwa [mem_singleton.mp hw]
  have hcut := findVma_append hA (R := []) (by simp)
  rw [append_nil] at hcut
  rw [hcut]
  cases hcov : v.covers addr <;> simp [hcov, Option.filter]

/-- Before the first VMA nothing is found. -/
theorem findVma_before (h : Ascending (v :: B)) (hv : addr < v.base) : findVma (v :: B) addr = none := by
  have hB : ∀ w ∈ v :: B, addr ≤ w.base :=
    forall_mem_cons.mpr ⟨hv.le, fun w hw => hv.le.trans ((pairwise_cons.mp h).1 w hw).le⟩
  have hcut := findVma_append (L := []) (by simp) hB
  rw [nil_append] at hcut
  rw [hcut]
  have hnot : ¬ v.base ≤ addr := by omega
  simp [Vma.covers, hnot, Option.filter]

end Ascending

/-! ## The gap search -/

/-- A VMA as `vmm_map` makes it. -/
def Vma.Aligned (v : Vma) : Prop := pageSize ∣ v.base ∧ pageSize ∣ v.size

variable {addr : Nat}

section Gap

variable {vmas : List Vma} {size hint : Nat} {v w : Vma}

/-- The VMA at one of the ends of the candidate below a hint. -/
def blocker (vmas : List Vma) (size hint : Nat) : Option Vma :=
  let candidate := alignDown (sub64 hint size)
  (findVma vmas candidate).or (findVma vmas (sub64 (add64 candidate size) 1))

theorem blocker_covers (h : Ascending vmas) (hv : blocker vmas size hint = some v) :
    v ∈ vmas ∧ v.base < v.limit := by
  rcases or_eq_some_iff.mp hv with hv | ⟨-, hv⟩ <;>
  · obtain ⟨hmem, hlo, hhi⟩ := findVma_covers h hv
    exact ⟨hmem, by omega⟩

/-- Without a carry every round lowers the hint. -/
theorem findFreeGapFrom_of_lt (h : Ascending vmas) (hpos : 0 < size)
    (hfit : vmmUserStart + size < 2 ^ 64) {rounds : Nat} (hrounds : hint < rounds)
    (hhint : hint < 2 ^ 64) : findFreeGapFrom vmas size rounds hint ≠ none := by
  induction rounds generalizing hint with
  | zero => omega
  | succ rounds ih =>
    rcases findFreeGapFrom_round h hpos hfit hhint rfl with
      ⟨heq, -⟩ | ⟨-, hle, ⟨heq, -⟩ | ⟨u, -, hbase, -, heq⟩⟩
    · exact heq ▸ some_ne_none 0
    · exact heq ▸ some_ne_none _
    · exact heq ▸ ih (by omega) (by omega)

/-- Where the range ends before the candidate, only a VMA at one of its ends is in the way. -/
theorem obstacle_eq (hwrap : add64 (alignDown (sub64 hint size)) size ≤ alignDown (sub64 hint size)) :
    obstacle vmas size (alignDown (sub64 hint size)) = blocker vmas size hint := by
  have hnone : (findVmaNext vmas (alignDown (sub64 hint size))).filter
      (fun w => w.base < add64 (alignDown (sub64 hint size)) size) = none := by
    rw [filter_eq_none_iff]
    intro w hw
    have := (findVmaNext_spec hw).2
    simp only [decide_eq_true_eq]
    omega
  rw [obstacle, hnone, or_none, blocker]

/-- A round with the size 0. -/
theorem findFreeGapFrom_zero (rounds : Nat) (hhint : hint < 2 ^ 64) :
    findFreeGapFrom vmas 0 (rounds + 1) hint = if hint < vmmUserStart then some 0
      else match blocker vmas 0 hint with
        | some v => findFreeGapFrom vmas 0 rounds v.base
        | none => some (alignDown hint) := by
  have hsub : sub64 hint 0 = hint := by
    unfold sub64
    omega
  have hstart : add64 vmmUserStart 0 = vmmUserStart := add64_eq (by decide)
  have hadd : add64 (alignDown (sub64 hint 0)) 0 ≤ alignDown (sub64 hint 0) := by
    unfold add64
    omega
  have hcand : hint < vmmUserStart ∨ alignDown hint < vmmUserStart ↔ hint < vmmUserStart := by
    unfold alignDown vmmUserStart pageSize
    omega
  have hround := findFreeGapFrom_succ vmas 0 rounds hint
  rw [obstacle_eq hadd, hsub, hstart] at hround
  simp only [hcand] at hround
  exact hround

/-- With the size 0 a VMA in the way is met in every round. -/
theorem findFreeGapFrom_zero_endless (h : Ascending vmas) (hv : v ∈ vmas)
    (haligned : pageSize ∣ v.base) (hne : v.base < v.limit) (hstart : vmmUserStart ≤ v.base)
    (rounds : Nat) : findFreeGapFrom vmas 0 rounds v.base = none := by
  have hbound : v.limit < 2 ^ 64 := Nat.mod_lt _ (by decide)
  have hblocker : blocker vmas 0 v.base = some v := by
    have hsub : sub64 v.base 0 = v.base := by
      unfold sub64
      omega
    unfold blocker
    rw [hsub, alignDown_of_dvd haligned]
    dsimp only
    rw [findVma_base h hv hne, some_or]
  induction rounds with
  | zero => rfl
  | succ rounds ih =>
    rwa [findFreeGapFrom_zero rounds (by omega), if_neg (by omega), hblocker]

/-- The search ends where it ends after the first VMA in the way. -/
theorem ends_iff_of_round {stop : Prop} [Decidable stop] {total rounds last : Nat} {Q : Vma → Prop}
    (hround : findFreeGapFrom vmas size total hint = if stop then some 0
      else match blocker vmas size hint with
        | some v => findFreeGapFrom vmas size rounds v.base
        | none => some last)
    (hnext : ∀ v, blocker vmas size hint = some v → (findFreeGapFrom vmas size rounds v.base ≠ none ↔ Q v)) :
    findFreeGapFrom vmas size total hint ≠ none ↔ stop ∨ ∀ v, blocker vmas size hint = some v → Q v := by
  rw [hround]
  by_cases hstop : stop
  · simp [hstop]
  rw [if_neg hstop, or_iff_right hstop]
  cases hblocker : blocker vmas size hint with
  | none => simp
  | some v => simpa using hnext v hblocker

theorem findFreeGapFrom_zero_ends_iff (h : Ascending vmas) (haligned : ∀ v ∈ vmas, v.Aligned)
    (hhint : hint < 2 ^ 64) : findFreeGapFrom vmas 0 (2 ^ 64) hint ≠ none ↔
      (hint < vmmUserStart ∨ ∀ v, blocker vmas 0 hint = some v → v.base < vmmUserStart) := by
  have hrounds : (2 ^ 64 : Nat) = (2 ^ 64 - 2) + 1 + 1 := by decide
  rw [hrounds]
  refine ends_iff_of_round (findFreeGapFrom_zero _ hhint) fun v hv => ?_
  obtain ⟨hmem, hne⟩ := blocker_covers h hv
  have hbound : v.limit < 2 ^ 64 := Nat.mod_lt _ (by decide)
  by_cases hstart : v.base < vmmUserStart
  · rw [findFreeGapFrom_zero _ (by omega), if_pos hstart]
    exact iff_of_true (some_ne_none 0) hstart
  · rw [findFreeGapFrom_zero_endless h hmem (haligned v hmem).1 hne (by omega)]
    exact iff_of_false (fun hc => hc rfl) hstart

/-- The largest size rounding can give. -/
def hugeSize : Nat := 2 ^ 64 - pageSize

/-- The candidate of the largest size is the page behind the hint, and its range ends where the page
of the hint begins. -/
theorem huge_ends (hhint : hint < hugeSize) : alignDown (sub64 hint hugeSize) = alignDown hint + pageSize ∧
      add64 (alignDown hint + pageSize) hugeSize = alignDown hint := by
  simp only [alignDown, sub64, add64, hugeSize, pageSize] at hhint ⊢
  omega

theorem blocker_huge (hhint : hint < hugeSize) : blocker vmas hugeSize hint =
      (findVma vmas (alignDown hint + pageSize)).or (findVma vmas (sub64 (alignDown hint) 1)) := by
  rw [blocker, (huge_ends hhint).1, (huge_ends hhint).2]

/-- A round with the largest size. -/
theorem findFreeGapFrom_huge (rounds : Nat) (hhint : hint < 2 ^ 64) :
    findFreeGapFrom vmas hugeSize (rounds + 1) hint = if hugeSize ≤ hint then some 0
      else match blocker vmas hugeSize hint with
        | some v => findFreeGapFrom vmas hugeSize rounds v.base
        | none => some (alignDown hint + pageSize) := by
  have hcarry : add64 vmmUserStart hugeSize = 0 := by decide
  have hcand : hint < 0 ∨ alignDown (sub64 hint hugeSize) < vmmUserStart ↔ hugeSize ≤ hint := by
    simp only [alignDown, sub64, hugeSize, pageSize, vmmUserStart]
    omega
  have hround := findFreeGapFrom_succ vmas hugeSize rounds hint
  rw [hcarry] at hround
  by_cases hhigh : hugeSize ≤ hint
  · rw [hround, if_pos hhigh, if_pos (hcand.mpr hhigh)]
  obtain ⟨hpage, hlast⟩ := huge_ends (Nat.lt_of_not_le hhigh)
  rw [if_neg (mt hcand.mp hhigh), obstacle_eq (by rw [hpage, hlast]; omega), hpage] at hround
  rw [if_neg hhigh]
  exact hround

theorem Vma.Aligned.limit_le (h : v.Aligned) (hne : v.base < v.limit) :
    v.base + pageSize ≤ v.limit ∧ v.limit ≤ hugeSize := by
  have hdvd : pageSize ∣ v.limit := MmState.add64_dvd h.1 h.2
  have hbound : v.limit < 2 ^ 64 := Nat.mod_lt _ (by decide)
  obtain ⟨⟨a, ha⟩, -⟩ := h
  obtain ⟨b, hb⟩ := hdvd
  simp only [hugeSize, pageSize] at *
  omega

theorem Vma.Aligned.base_add_le (hv : v.Aligned) (hw : w.Aligned) (hlt : v.base < w.base) :
    v.base + pageSize ≤ w.base := by
  obtain ⟨⟨a, ha⟩, -⟩ := hv
  obtain ⟨⟨b, hb⟩, -⟩ := hw
  simp only [pageSize] at *
  omega

section

variable (h : Ascending vmas) (haligned : ∀ v ∈ vmas, v.Aligned) (hv : v ∈ vmas)
  (hne : v.base < v.limit)

include h haligned hv hne

/-- A VMA found on the page behind the base of `v` is `v` itself, or it begins there and `v` is
found before it. -/
theorem findVma_behind (hw : findVma vmas (v.base + pageSize) = some w) :
    w = v ∨ findVma vmas (sub64 w.base 1) = some v := by
  have hlimit := (haligned v hv).limit_le hne
  have hpage : 0 < pageSize := by decide
  obtain ⟨A, B, rfl⟩ := append_of_mem hv
  rcases B with _ | ⟨x, B⟩
  · rw [findVma_last h (by omega)] at hw
    exact .inl (by grind)
  have hx : v.base < x.base := h.around.2 x (by simp)
  have hxle := (haligned v hv).base_add_le (haligned x (by simp)) hx
  cases hcov : x.covers (v.base + pageSize) with
  | false =>
    rw [findVma_between h (by omega) hxle hcov] at hw
    exact .inl (by grind)
  | true =>
  have hxcov := Vma.covers_eq_true.mp hcov
  have hxbase : v.base + pageSize = x.base := by omega
  rw [hxbase, findVma_base h (by simp) (by omega), some.injEq] at hw
  subst hw
  have hxbound : x.limit < 2 ^ 64 := Nat.mod_lt _ (by decide)
  have hnot : x.covers (x.base - 1) = false := Vma.covers_eq_false.mpr (by omega)
  have hcovers : v.covers (x.base - 1) = true := Vma.covers_eq_true.mpr (by omega)
  right
  rw [sub64_eq (by omega) (by omega),
    findVma_between h (by simp only [pageSize] at hxbase; omega) (by omega) hnot, if_pos hcovers]

/-- A VMA found before the base of `v` has another one, or itself, on the page behind its base. -/
theorem findVma_ahead (hw : findVma vmas (sub64 v.base 1) = some w) :
    findVma vmas (w.base + pageSize) ≠ none := by
  have hbound : v.limit < 2 ^ 64 := Nat.mod_lt _ (by decide)
  have hpage : 0 < pageSize := by decide
  obtain ⟨hwmem, hlo, hhi⟩ := findVma_covers h hw
  have hpos : 1 ≤ v.base := by
    refine Nat.pos_of_ne_zero fun hzero => ?_
    have hwbound : w.limit < 2 ^ 64 := Nat.mod_lt _ (by decide)
    rw [hzero] at hhi
    change 2 ^ 64 - 1 < w.limit at hhi
    omega
  rw [sub64_eq hpos (by omega)] at hw hlo hhi
  obtain ⟨A, B, rfl⟩ := append_of_mem hv
  rcases eq_nil_or_concat A with rfl | ⟨A, u, rfl⟩
  · rw [nil_append, findVma_before h (by omega)] at hw
    cases hw
  rw [concat_eq_append, append_assoc, singleton_append] at *
  have hu : u.base < v.base := h.around.2 v (by simp)
  have hnot : v.covers (v.base - 1) = false := Vma.covers_eq_false.mpr (by omega)
  have hle := (haligned u (by simp)).base_add_le (haligned v hv) hu
  have hat : u.base < v.base - 1 := by
    simp only [pageSize] at hle
    omega
  rw [findVma_between h hat (by omega) hnot] at hw
  obtain rfl : u = w := by grind
  rcases Nat.eq_or_lt_of_le hle with heq | hlt
  · rw [heq, findVma_base h hv hne]
    exact some_ne_none v
  · have hnot' : v.covers (u.base + pageSize) = false := Vma.covers_eq_false.mpr (by omega)
    have hcovers : u.covers (u.base + pageSize) = true := Vma.covers_eq_true.mpr (by omega)
    rw [findVma_between h (by omega) hlt.le hnot', if_pos hcovers]
    exact some_ne_none u

/-- With the largest size the search goes from a VMA that has another one beside it to a VMA that
has another one beside it. -/
theorem blocker_huge_next (hw : blocker vmas hugeSize v.base = some w) :
    blocker vmas hugeSize w.base ≠ none := by
  have hblocker : ∀ u ∈ vmas, u.base < u.limit → blocker vmas hugeSize u.base =
      (findVma vmas (u.base + pageSize)).or (findVma vmas (sub64 u.base 1)) := by
    intro u hu hune
    have hlt : u.base < hugeSize := by
      have := (haligned u hu).limit_le hune
      omega
    rw [blocker_huge hlt, alignDown_of_dvd (haligned u hu).1]
  obtain ⟨hwmem, hwne⟩ := blocker_covers h hw
  intro hnone
  have hfound := hw
  rw [hblocker v hv hne] at hfound
  rcases or_eq_some_iff.mp hfound with hbehind | ⟨-, hahead⟩
  · rcases findVma_behind h haligned hv hne hbehind with rfl | hleft
    · simp [hw] at hnone
    · rw [hblocker w hwmem hwne, hleft, or_eq_none_iff] at hnone
      cases hnone.2
  · rw [hblocker w hwmem hwne, or_eq_none_iff] at hnone
    exact findVma_ahead h haligned hv hne hahead hnone.1

theorem findFreeGapFrom_huge_endless (hbeside : blocker vmas hugeSize v.base ≠ none)
    (rounds : Nat) : findFreeGapFrom vmas hugeSize rounds v.base = none := by
  induction rounds generalizing v with
  | zero => rfl
  | succ rounds ih =>
    have hlimit := (haligned v hv).limit_le hne
    have hbound : v.limit < 2 ^ 64 := Nat.mod_lt _ (by decide)
    obtain ⟨w, hw⟩ := ne_none_iff_exists'.mp hbeside
    obtain ⟨hwmem, hwne⟩ := blocker_covers h hw
    rw [findFreeGapFrom_huge rounds (by omega), if_neg (by omega), hw]
    exact ih hwmem hwne (blocker_huge_next h haligned hv hne hw)

end

theorem findFreeGapFrom_huge_ends_iff (h : Ascending vmas) (haligned : ∀ v ∈ vmas, v.Aligned)
    (hhint : hint < 2 ^ 64) : findFreeGapFrom vmas hugeSize (2 ^ 64) hint ≠ none ↔ (hugeSize ≤ hint ∨
        ∀ v, blocker vmas hugeSize hint = some v → blocker vmas hugeSize v.base = none) := by
  have hrounds : (2 ^ 64 : Nat) = (2 ^ 64 - 2) + 1 + 1 := by decide
  rw [hrounds]
  refine ends_iff_of_round (findFreeGapFrom_huge _ hhint) fun v hv => ?_
  obtain ⟨hmem, hne⟩ := blocker_covers h hv
  have hlimit := (haligned v hmem).limit_le hne
  have hbound : v.limit < 2 ^ 64 := Nat.mod_lt _ (by decide)
  by_cases hbeside : blocker vmas hugeSize v.base = none
  · rw [findFreeGapFrom_huge _ (by omega), if_neg (by omega), hbeside]
    exact iff_of_true (some_ne_none _) rfl
  · rw [findFreeGapFrom_huge_endless h haligned hmem hne hbeside]
    exact iff_of_false (fun hc => hc rfl) hbeside

/-- When the search ends: the size carries no wrap, or the VMA in the way of the first candidate
does not hold the search up. -/
def GapEnds (vmas : List Vma) (size hint : Nat) : Prop :=
  (size = 0 → hint < vmmUserStart ∨
    ∀ v, blocker vmas size hint = some v → v.base < vmmUserStart) ∧
  (size = hugeSize → hugeSize ≤ hint ∨
    ∀ v, blocker vmas size hint = some v → blocker vmas size v.base = none)

/-- `_find_free_gap` ends exactly then. -/
theorem findFreeGapFrom_ends_iff (h : Ascending vmas) (haligned : ∀ v ∈ vmas, v.Aligned)
    (hsize : size ≤ hugeSize) (hdvd : pageSize ∣ size) (hhint : hint < 2 ^ 64) :
    findFreeGapFrom vmas size (2 ^ 64) hint ≠ none ↔ GapEnds vmas size hint := by
  by_cases hzero : size = 0
  · subst hzero
    rw [findFreeGapFrom_zero_ends_iff h haligned hhint]
    exact ⟨fun hz => ⟨fun _ => hz, fun hc => absurd hc (by decide)⟩, fun hends => hends.1 rfl⟩
  by_cases htop : size = hugeSize
  · subst htop
    rw [findFreeGapFrom_huge_ends_iff h haligned hhint]
    exact ⟨fun ht => ⟨fun hc => absurd hc hzero, fun _ => ht⟩, fun hends => hends.2 rfl⟩
  have hfit : vmmUserStart + size < 2 ^ 64 := by
    obtain ⟨k, rfl⟩ := hdvd
    simp only [vmmUserStart, hugeSize, pageSize] at *
    omega
  exact iff_of_true (findFreeGapFrom_of_lt h (Nat.pos_of_ne_zero hzero) hfit hhint hhint)
    ⟨fun h0 => absurd h0 hzero, fun hh => absurd hh htop⟩

end Gap

/-! ## The loop of vmm_protect -/

section Protect

variable {vmas vmas' : List Vma} {u v : Vma} {s : MmState} {id : Nat} {vmm : Vmm}

theorem Ascending.rbInsert (h : Ascending vmas) (hins : rbInsert v vmas = some vmas') :
    Ascending vmas' ∧ ∀ w, w ∈ vmas' ↔ w = v ∨ w ∈ vmas := by
  induction vmas generalizing vmas' with
  | nil =>
    obtain rfl := some.inj hins
    exact ⟨pairwise_singleton _ v, by simp⟩
  | cons u us ih =>
    obtain ⟨hlt, hus⟩ := pairwise_cons.mp h
    unfold VmaTree.rbInsert at hins
    split at hins
    case isTrue hvu =>
      obtain rfl := some.inj hins
      refine ⟨pairwise_cons.mpr ⟨forall_mem_cons.mpr ⟨hvu, fun w hw => ?_⟩, h⟩, by simp⟩
      exact hvu.trans (hlt w hw)
    split at hins
    · cases hins
    obtain ⟨rest, hrest, rfl⟩ := map_eq_some_iff.mp hins
    obtain ⟨hasc, hmem⟩ := ih hus hrest
    refine ⟨pairwise_cons.mpr ⟨fun w hw => ?_, hasc⟩, fun w => ?_⟩
    · rcases (hmem w).mp hw with rfl | hw
      · omega
      · exact hlt w hw
    · rw [mem_cons, hmem, mem_cons]
      tauto

theorem Ascending.assign (h : Ascending vmas) (base : Nat) {f : Vma → Vma}
    (hf : ∀ v, (f v).base = v.base) : Ascending (assign vmas base f) := by
  refine pairwise_map.mpr (h.imp fun {a b} hlt => ?_)
  have hbase : ∀ v : Vma, (if v.base = base then f v else v).base = v.base := by
    intro v
    split
    · exact hf v
    · rfl
  rwa [hbase, hbase]

theorem mem_assign (hv : v ∈ vmas) (f : Vma → Vma) : f v ∈ assign vmas v.base f :=
  mem_map.mpr ⟨v, hv, if_pos rfl⟩

theorem Ascending.deref (h : Ascending vmas) (hv : v ∈ vmas) : deref vmas v.base = some v := by
  obtain ⟨A, B, rfl⟩ := append_of_mem hv
  have hA := h.around.1
  rw [VmaTree.deref, List.find?_append]
  have hnone : A.find? (fun w => w.base == v.base) = none := by
    rw [List.find?_eq_none]
    intro w hw
    have := hA w hw
    simp only [beq_iff_eq]
    omega
  rw [hnone, none_or, List.find?_cons_of_pos (by simp)]

/-- A split that succeeds leaves the two parts. -/
theorem vmaSplit_ascending (h : Ascending vmm.vmas) (hv : v ∈ vmm.vmas)
    (hsplit : (s.vmaSplit id vmm v addr).1 = true) :
    v.base < addr ∧ addr < v.limit ∧ ∃ vmm', (s.vmaSplit id vmm v addr).2.vmms id = some vmm' ∧
      Ascending vmm'.vmas ∧ ⟨addr, sub64 v.limit addr, v.flags⟩ ∈ vmm'.vmas ∧
      { v with size := sub64 addr v.base } ∈ vmm'.vmas := by
  unfold MmState.vmaSplit at hsplit ⊢
  by_cases hrange : addr ≤ v.base ∨ v.limit ≤ addr
  · simp [if_pos hrange] at hsplit
  rw [if_neg hrange] at hsplit ⊢
  refine ⟨by omega, by omega, ?_⟩
  generalize s.kzalloc = r at hsplit ⊢
  obtain ⟨_ | _, t⟩ := r
  · cases hsplit
  have hasc := h.assign v.base (f := fun w => { w with size := sub64 addr v.base }) fun _ => rfl
  have hlower := mem_assign hv fun w => { w with size := sub64 addr v.base }
  dsimp only at hsplit hlower ⊢
  generalize assign vmm.vmas v.base (fun w => { w with size := sub64 addr v.base }) = parts
    at hsplit hasc hlower ⊢
  cases hins : rbInsert ⟨addr, sub64 v.limit addr, v.flags⟩ parts with
  | none =>
    simp [hins] at hsplit
  | some vmas =>
    obtain ⟨hasc', hmem⟩ := hasc.rbInsert hins
    exact ⟨{ vmm with vmas := vmas, vmasCount := add64 vmm.vmasCount 1 }, update_self ..,
      hasc', (hmem _).mpr (.inl rfl), (hmem _).mpr (.inr hlower)⟩

/-- A conditional split that succeeds leaves a VMA of the address space. -/
theorem splitIf_ascending {c : Prop} [Decidable c] (hid : s.vmms id = some vmm)
    (h : Ascending vmm.vmas) (hv : v ∈ vmm.vmas)
    (hsplit : (MmState.splitIf c s id vmm v addr).1 = true) :
    ∃ vmm', (MmState.splitIf c s id vmm v addr).2.vmms id = some vmm' ∧ Ascending vmm'.vmas ∧
      (¬ c → v ∈ vmm'.vmas) ∧
      (c → v.base < addr ∧ addr < v.limit ∧ ⟨addr, sub64 v.limit addr, v.flags⟩ ∈ vmm'.vmas ∧
        { v with size := sub64 addr v.base } ∈ vmm'.vmas) := by
  unfold MmState.splitIf at hsplit ⊢
  by_cases hc : c
  · rw [if_pos hc] at hsplit ⊢
    obtain ⟨hlo, hhi, vmm', hid', hasc, hupper, hlower⟩ := vmaSplit_ascending h hv hsplit
    exact ⟨vmm', hid', hasc, fun hn => absurd hc hn, fun _ => ⟨hlo, hhi, hupper, hlower⟩⟩
  · rw [if_neg hc]
    exact ⟨vmm, hid, h, fun _ => hv, fun hc' => absurd hc' hc⟩

theorem add64_sub64 {a b : Nat} (hle : a ≤ b) (hb : b < 2 ^ 64) : add64 a (sub64 b a) = b := by
  rw [sub64_eq hle hb, add64_eq (by omega)]
  omega

theorem protectVma_ascending (s : MmState) (id : Nat) (v : Vma) (h : Ascending vmm.vmas) (flags : BitVec 32) :
    ∃ vmm', (s.protectVma id vmm v flags).vmms id = some vmm' ∧ Ascending vmm'.vmas := by
  have hasc := h.assign v.base (f := fun w =>
    { w with flags := MmState.protectFlags v.flags flags }) fun _ => rfl
  unfold MmState.protectVma
  dsimp only
  split
  · exact ⟨_, update_self .., hasc⟩
  · exact ⟨_, update_self .., hasc⟩

/-- The loop ends: the address grows in every round. -/
theorem protectLoop_ends {limit rounds : Nat} (hlimit : limit < 2 ^ 64)
    (hrounds : limit - addr < rounds) (flags : BitVec 32) (hid : s.vmms id = some vmm)
    (h : Ascending vmm.vmas) : MmState.protectLoop id limit flags rounds addr s ≠ none := by
  induction rounds generalizing s vmm addr with
  | zero => omega
  | succ rounds ih =>
    unfold MmState.protectLoop
    split
    case isFalse => exact some_ne_none _
    case isTrue haddr =>
    rw [hid, bind_eq_bind, bind_some]
    cases hfind : findVma vmm.vmas addr with
    | none => exact some_ne_none _
    | some vma =>
    obtain ⟨hmem, hlo, hhi⟩ := findVma_covers h hfind
    have hbound : vma.limit < 2 ^ 64 := Nat.mod_lt _ (by decide)
    have hsplit : (MmState.splitIf (vma.base < addr) s id vmm vma addr).1 = true → _ :=
      splitIf_ascending hid h hmem
    dsimp only
    generalize MmState.splitIf (vma.base < addr) s id vmm vma addr = r at hsplit ⊢
    obtain ⟨_ | _, s1⟩ := r
    · exact some_ne_none _
    obtain ⟨vmm1, hid1, h1, hkeep, hcut⟩ := hsplit rfl
    dsimp only at hid1
    -- from here on the VMA begins at the address
    obtain ⟨vma1, hreload, hmem1, hbase1, hhi1⟩ : ∃ vma1,
        MmState.reload vmm1.vmas vma addr = some vma1 ∧ vma1 ∈ vmm1.vmas ∧ vma1.base = addr ∧
          addr < vma1.limit := by
      unfold MmState.reload
      by_cases hc : vma.base < addr
      · obtain ⟨-, -, hupper, -⟩ := hcut hc
        have hlimit1 : addr < (⟨addr, sub64 vma.limit addr, vma.flags⟩ : Vma).limit := by
          rwa [Vma.limit, add64_sub64 hhi.le hbound]
        rw [if_pos hc]
        exact ⟨_, findVma_base h1 hupper hlimit1, hupper, rfl, hlimit1⟩
      · rw [if_neg hc]
        exact ⟨vma, rfl, hkeep hc, by omega, hhi⟩
    simp only [hid1, hreload, bind_eq_bind, bind_some]
    have hsplit1 : (MmState.splitIf (limit < vma1.limit) s1 id vmm1 vma1 limit).1 = true → _ :=
      splitIf_ascending hid1 h1 hmem1
    generalize MmState.splitIf (limit < vma1.limit) s1 id vmm1 vma1 limit = r at hsplit1 ⊢
    obtain ⟨_ | _, s2⟩ := r
    · exact some_ne_none _
    obtain ⟨vmm2, hid2, h2, hkeep1, hcut1⟩ := hsplit1 rfl
    dsimp only at hid2
    obtain ⟨vma2, hderef, hhi2⟩ : ∃ vma2, deref vmm2.vmas vma1.base = some vma2 ∧ addr < vma2.limit := by
      by_cases hc : limit < vma1.limit
      · obtain ⟨-, -, -, hlower⟩ := hcut1 hc
        have hderef := h2.deref hlower
        refine ⟨_, hderef, ?_⟩
        rwa [Vma.limit, hbase1, add64_sub64 haddr.le hlimit]
      · exact ⟨vma1, h2.deref (hkeep1 hc), hhi1⟩
    simp only [hid2, hderef, bind_some]
    obtain ⟨vmm3, hid3, h3⟩ := protectVma_ascending s2 id vma2 h2 flags
    exact ih (by omega) hid3 h3

end Protect

end Lapis.Mm
