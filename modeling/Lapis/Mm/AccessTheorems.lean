/-
Lapis.Mm.AccessTheorems — what `vmm_is_accessible` accepts.

The walk is exact on the pages it visits: it returns 1 if and only if a VMA with the access is found
at every address from its start to its end (`accessibleLoop_eq_one_iff`), and it always returns. What
can go wrong is the end. `base + size` and the rounding to a page are 64-bit sums, so an end in the
last page, or beyond it, wraps around to a small address; the loop then looks at nothing, or at the
page of `base` only. A VMA that reaches the end of the 64-bit range is never found, since its own end
wraps to 0.

`Checkable` lists the ranges for which the answer is right all the same.
-/
import Lapis.Mm.SpaceTheorems

namespace Lapis.Mm

open VmaTree

/-! ## Addresses with an access -/

/-- The VMA has all flags of the access mask. -/
def Vma.Grants (v : Vma) (access : BitVec 32) : Prop := v.flags &&& access = access

instance (v : Vma) (access : BitVec 32) : Decidable (v.Grants access) :=
  inferInstanceAs (Decidable (_ = _))

/-- The address lies in a VMA with the access. -/
def Allowed (vmas : List Vma) (access : BitVec 32) (addr : Nat) : Prop :=
  ∃ v ∈ vmas, v.Has addr ∧ v.Grants access

/-- `_find_vma` finds a VMA with the access at the address. -/
def Granted (vmas : List Vma) (access : BitVec 32) (addr : Nat) : Prop :=
  ∃ v ∈ vmas, v.covers addr = true ∧ v.Grants access

/-- Every address of the range lies in a VMA with the access. -/
def Accessible (vmas : List Vma) (base size : Nat) (access : BitVec 32) : Prop :=
  ∀ addr, base ≤ addr → addr < base + size → Allowed vmas access addr

/-- The ranges on which `vmm_is_accessible` gives the right answer. -/
def Checkable (vmas : List Vma) (base size : Nat) (access : BitVec 32) : Prop :=
  size = 0 ∨
  -- the rounded end does not wrap, and the walk does not need a VMA it cannot find
  (base + size ≤ 2 ^ 64 - pageSize ∧
    ¬ (Accessible vmas base size access ∧
      ∃ v ∈ vmas, v.base + v.size = 2 ^ 64 ∧ v.base < base + size)) ∨
  -- the rounded end is 0: nothing is looked at and the range is accepted
  (2 ^ 64 - pageSize < base + size ∧ base + size ≤ 2 ^ 64 ∧ Accessible vmas base size access) ∨
  -- the sum wraps into the page of `base`, and the walk refuses that page
  (2 ^ 64 < base + size ∧ alignDown base < base + size - 2 ^ 64 ∧
    base + size - 2 ^ 64 ≤ 2 ^ 64 - pageSize ∧
    ∀ v ∈ vmas, v.Has base → v.Grants access → v.base + v.size = 2 ^ 64)

section

variable {vmas : List Vma} {access : BitVec 32} {addr limit : Nat}

theorem Vma.has_of_covers {v : Vma} (h : v.covers addr = true) : v.Has addr := by
  obtain ⟨hlo, hhi⟩ := Vma.covers_eq_true.mp h
  exact ⟨hlo, hhi.trans_le v.limit_le⟩

/-- Only the VMA that reaches the end of the 64-bit range has addresses at which it is not found. -/
theorem Vma.covers_of_has {v : Vma} (hbound : v.base + v.size ≤ 2 ^ 64)
    (hend : v.base + v.size ≠ 2 ^ 64) (h : v.Has addr) : v.covers addr = true := by
  rwa [Vma.covers_eq_true, Vma.limit_eq (by omega)]

theorem Vma.not_covers_of_end {v : Vma} (hend : v.base + v.size = 2 ^ 64) : ¬ v.covers addr = true := by
  rw [Vma.covers_eq_true, Vma.limit, add64, hend]
  omega

theorem Granted.allowed (h : Granted vmas access addr) : Allowed vmas access addr := by
  obtain ⟨v, hv, hcov, hgrants⟩ := h
  exact ⟨v, hv, Vma.has_of_covers hcov, hgrants⟩

theorem Laid.eq_of_has (h : Laid vmas) {u v : Vma} (hu : u ∈ vmas) (hv : v ∈ vmas)
    (hau : u.Has addr) (hav : v.Has addr) : u = v :=
  eq_of_has_of_ordered (h.imp And.right) hu hv hau hav

/-! ## The walk -/

/-- With enough rounds the walk returns, and it returns 1 for the ranges where a VMA with the access
is found at every address. -/
theorem accessibleLoop_spec (h : Laid vmas) (rounds addr : Nat) (hrounds : limit - addr < rounds) :
    (MmState.accessibleLoop vmas limit access rounds addr = some 0 ∨
      MmState.accessibleLoop vmas limit access rounds addr = some 1) ∧
    (MmState.accessibleLoop vmas limit access rounds addr = some 1 ↔
      ∀ a, addr ≤ a → a < limit → Granted vmas access a) := by
  induction rounds generalizing addr with
  | zero =>
    exact absurd hrounds (by omega)
  | succ rounds ih =>
    unfold MmState.accessibleLoop
    by_cases hlt : addr < limit
    · rw [if_pos hlt]
      cases hfind : findVma vmas addr with
      | none =>
        refine ⟨.inl rfl, ⟨by simp, fun hall => ?_⟩⟩
        obtain ⟨v, hv, hcov, -⟩ := hall addr (Nat.le_refl _) hlt
        simp [h.findVma_eq_some_iff.mpr ⟨hv, hcov⟩] at hfind
      | some v =>
      obtain ⟨hv, hcov⟩ := h.findVma_eq_some_iff.mp hfind
      obtain ⟨hlo, hhi⟩ := Vma.covers_eq_true.mp hcov
      by_cases hgrants : v.Grants access
      · dsimp only
        rw [if_neg (show ¬ v.flags &&& access ≠ access from not_not.mpr hgrants)]
        obtain ⟨hends, hone⟩ := ih v.limit (by omega)
        refine ⟨hends, hone.trans ⟨fun hall a ha hal => ?_, fun hall a ha hal => ?_⟩⟩
        · -- the addresses up to the end of `v` are its own
          by_cases hav : a < v.limit
          · exact ⟨v, hv, Vma.covers_eq_true.mpr ⟨by omega, hav⟩, hgrants⟩
          · exact hall a (by omega) hal
        · exact hall a (by omega) hal
      · dsimp only
        rw [if_pos (show v.flags &&& access ≠ access from hgrants)]
        refine ⟨.inl rfl, ⟨by simp, fun hall => ?_⟩⟩
        obtain ⟨u, hu, hucov, hugrants⟩ := hall addr (Nat.le_refl _) hlt
        rw [h.findVma_eq_some_iff.mpr ⟨hu, hucov⟩, Option.some.injEq] at hfind
        exact absurd (hfind ▸ hugrants) hgrants
    · rw [if_neg hlt]
      exact ⟨.inr rfl, ⟨fun _ a ha hal => absurd hal (by omega), fun _ => rfl⟩⟩

/-! ## Pages -/

/-- The VMAs consist of whole pages and end within the 64-bit range. -/
structure Paged (vmas : List Vma) : Prop where
  base : ∀ v ∈ vmas, pageSize ∣ v.base
  size : ∀ v ∈ vmas, pageSize ∣ v.size
  bound : ∀ v ∈ vmas, v.base + v.size ≤ 2 ^ 64

theorem alignUp_eq_zero {x : Nat} (hlo : 2 ^ 64 - pageSize < x) (hhi : x < 2 ^ 64) : alignUp x = 0 := by
  simp only [alignUp, pageSize] at *
  omega

theorem alignUp_bounds {x : Nat} (h : x ≤ 2 ^ 64 - pageSize) : x ≤ alignUp x ∧ alignUp x < x + pageSize := by
  simp only [alignUp, pageSize] at *
  omega

theorem alignUp_lt (x : Nat) : alignUp x < 2 ^ 64 := by
  simp only [alignUp, pageSize]
  omega

/-- An access is granted for whole pages. -/
theorem Granted.of_page (h : Paged vmas) {a b : Nat} (hpage : alignDown a = alignDown b)
    (ha : Granted vmas access a) : Granted vmas access b := by
  obtain ⟨v, hv, hcov, hgrants⟩ := ha
  refine ⟨v, hv, ?_, hgrants⟩
  obtain ⟨k, hk⟩ := h.base v hv
  obtain ⟨n, hn⟩ : pageSize ∣ v.limit := MmState.add64_dvd (h.base v hv) (h.size v hv)
  rw [Vma.covers_eq_true, hk, hn] at hcov ⊢
  simp only [alignDown, pageSize] at *
  omega

/-- The walk over the pages of a range that does not wrap decides the range. -/
theorem granted_pages_iff (h : Paged vmas) {base stop : Nat} (hlt : base < stop)
    (hstop : stop ≤ 2 ^ 64 - pageSize) :
    (∀ a, alignDown base ≤ a → a < alignUp stop → Granted vmas access a) ↔
      ∀ a, base ≤ a → a < stop → Granted vmas access a := by
  have hup := alignUp_bounds hstop
  constructor
  · intro hall a ha has
    exact hall a ((alignDown_le base).trans ha) (by omega)
  intro hall a ha has
  by_cases hbase : a < base
  · refine (hall base (Nat.le_refl _) hlt).of_page h ?_
    simp only [alignDown, pageSize] at *
    omega
  · by_cases hin : a < stop
    · exact hall a (by omega) hin
    · refine (hall (stop - 1) (by omega) (by omega)).of_page h ?_
      simp only [alignDown, alignUp, pageSize] at *
      omega

/-- A range is found accessible and is accessible, unless a part of it lies in the VMA that is never
found. -/
theorem granted_iff_accessible_iff (hlaid : Laid vmas) (h : Paged vmas) {base size : Nat}
    (hsize : 0 < size) (hfit : base + size ≤ 2 ^ 64 - pageSize) :
    ((∀ a, base ≤ a → a < base + size → Granted vmas access a) ↔ Accessible vmas base size access) ↔
      ¬ (Accessible vmas base size access ∧ ∃ v ∈ vmas, v.base + v.size = 2 ^ 64 ∧ v.base < base + size) := by
  constructor
  · rintro hiff ⟨hacc, v, hv, hend, hlt⟩
    have hhas : v.Has (max base v.base) := by
      simp only [Vma.Has, pageSize] at *
      omega
    obtain ⟨u, hu, hcov, -⟩ := hiff.mpr hacc (max base v.base) (by omega) (by omega)
    rw [hlaid.eq_of_has hu hv (Vma.has_of_covers hcov) hhas] at hcov
    exact Vma.not_covers_of_end hend hcov
  · intro hno
    refine ⟨fun hall a ha has => (hall a ha has).allowed, fun hacc a ha has => ?_⟩
    obtain ⟨v, hv, hhas, hgrants⟩ := hacc a ha has
    refine ⟨v, hv, Vma.covers_of_has (h.bound v hv) (fun hend => ?_) hhas, hgrants⟩
    exact hno ⟨hacc, v, hv, hend, hhas.1.trans_lt has⟩

theorem not_granted_iff (h : Paged vmas) : ¬ Granted vmas access addr ↔
      ∀ v ∈ vmas, v.Has addr → v.Grants access → v.base + v.size = 2 ^ 64 := by
  constructor
  · intro hno v hv hhas hgrants
    by_contra hend
    exact hno ⟨v, hv, Vma.covers_of_has (h.bound v hv) hend hhas, hgrants⟩
  · rintro hall ⟨v, hv, hcov, hgrants⟩
    exact Vma.not_covers_of_end (hall v hv (Vma.has_of_covers hcov) hgrants) hcov

/-- The walk from the page of `base` to an end inside that page looks at that page only. -/
theorem granted_page_iff (h : Paged vmas) {base stop : Nat} (hlo : alignDown base < stop)
    (hhi : stop ≤ base) (hstop : stop ≤ 2 ^ 64 - pageSize) :
    (∀ a, alignDown base ≤ a → a < alignUp stop → Granted vmas access a) ↔ Granted vmas access base := by
  have hup := alignUp_bounds hstop
  constructor
  · intro hall
    refine (hall (alignDown base) (Nat.le_refl _) (by omega)).of_page h ?_
    exact alignDown_of_dvd (alignDown_dvd base)
  · intro hbase a ha has
    refine hbase.of_page h ?_
    simp only [alignDown, alignUp, pageSize] at *
    omega

/-! ## The answer -/

variable {base size : Nat}

/-- What `vmm_is_accessible` is for. -/
def RightAnswer (vmas : List Vma) (base size : Nat) (access : BitVec 32) (answer : Option Int) : Prop :=
  answer = some 1 ↔ 0 < size ∧ base + size ≤ 2 ^ 64 ∧ Accessible vmas base size access

theorem rightAnswer_of_fit (hlaid : Laid vmas) (h : Paged vmas) (hpos : 0 < size)
    (hfit : base + size ≤ 2 ^ 64 - pageSize) {answer : Option Int} (hanswer : answer = some 1 ↔
      ∀ a, alignDown base ≤ a → a < alignUp (add64 base size) → Granted vmas access a) :
    RightAnswer vmas base size access answer ↔ ¬ (Accessible vmas base size access ∧
      ∃ v ∈ vmas, v.base + v.size = 2 ^ 64 ∧ v.base < base + size) := by
  have hsum : base + size < 2 ^ 64 := by
    have : 0 < pageSize := by decide
    omega
  rw [add64_eq hsum, granted_pages_iff h (by omega) hfit] at hanswer
  rw [RightAnswer, hanswer, ← granted_iff_accessible_iff hlaid h hpos hfit]
  simp only [hpos, hsum.le, true_and]

theorem rightAnswer_of_wrap (h : Paged vmas) (hbase : base < 2 ^ 64) (hsize : size < 2 ^ 64)
    (hwrap : 2 ^ 64 < base + size) {answer : Option Int} (hanswer : answer = some 1 ↔
      ∀ a, alignDown base ≤ a → a < alignUp (add64 base size) → Granted vmas access a) :
    RightAnswer vmas base size access answer ↔ alignDown base < base + size - 2 ^ 64 ∧
      base + size - 2 ^ 64 ≤ 2 ^ 64 - pageSize ∧
      ∀ v ∈ vmas, v.Has base → v.Grants access → v.base + v.size = 2 ^ 64 := by
  have hsum : add64 base size = base + size - 2 ^ 64 := by
    rw [add64]
    omega
  rw [hsum] at hanswer
  have hright : RightAnswer vmas base size access answer ↔ ¬ answer = some 1 := by
    rw [RightAnswer]
    constructor
    · intro hiff hone
      have := (hiff.mp hone).2.1
      omega
    · intro hne
      exact ⟨fun hone => absurd hone hne, fun hall => absurd hall.2.1 (by omega)⟩
  rw [hright, ← not_granted_iff h]
  by_cases hlast : base + size - 2 ^ 64 ≤ 2 ^ 64 - pageSize
  · by_cases hpage : alignDown base < base + size - 2 ^ 64
    · rw [hanswer, granted_page_iff h hpage (by omega) hlast]
      simp only [hpage, hlast, true_and]
    -- the end lies at or below the page of `base`: there is nothing to look at
    have hle : alignUp (base + size - 2 ^ 64) ≤ alignDown base := by
      simp only [alignUp, alignDown, pageSize] at *
      omega
    have hone : answer = some 1 := hanswer.mpr fun a ha hal => absurd hal (by omega)
    simp only [hone, hpage, not_true_eq_false, false_and]
  · have hzero : alignUp (base + size - 2 ^ 64) = 0 := alignUp_eq_zero (by omega) (by omega)
    have hone : answer = some 1 := hanswer.mpr fun a ha hal => absurd hal (by omega)
    simp only [hone, hlast, not_true_eq_false, false_and, and_false]

/-- `vmm_is_accessible` accepts exactly the accessible ranges if and only if the range is `Checkable`. -/
theorem vmmIsAccessible_exact_iff (s : MmState) (id : Nat) {vmm : Vmm} (hid : s.vmms id = some vmm)
    (hlaid : Laid vmm.vmas) (h : Paged vmm.vmas) (base size : Nat) (access : BitVec 32)
    (hbase : base < 2 ^ 64) (hsize : size < 2 ^ 64) : (s.vmmIsAccessible id base size access = some 1 ↔
        0 < size ∧ base + size ≤ 2 ^ 64 ∧ Accessible vmm.vmas base size access) ↔
      Checkable vmm.vmas base size access := by
  change RightAnswer vmm.vmas base size access (s.vmmIsAccessible id base size access) ↔ _
  by_cases hzero : size = 0
  · subst hzero
    simp [RightAnswer, Checkable, MmState.vmmIsAccessible, hid]
  have hpos : 0 < size := Nat.pos_of_ne_zero hzero
  have hpage : 0 < pageSize := by decide
  have hwalk : s.vmmIsAccessible id base size access =
      MmState.accessibleLoop vmm.vmas (alignUp (add64 base size)) access (2 ^ 64)
        (alignDown base) := by
    simp only [MmState.vmmIsAccessible, hid, if_neg hzero]
  have hanswer := (@accessibleLoop_spec _ access _ hlaid (2 ^ 64) (alignDown base)
    (Nat.lt_of_le_of_lt (Nat.sub_le _ _) (alignUp_lt (add64 base size)))).2
  rw [← hwalk] at hanswer
  generalize s.vmmIsAccessible id base size access = answer at hanswer
  simp only [Checkable, hzero, false_or]
  by_cases hfit : base + size ≤ 2 ^ 64 - pageSize
  · rw [rightAnswer_of_fit hlaid h hpos hfit hanswer]
    have hnolast : ¬ 2 ^ 64 - pageSize < base + size := by omega
    have hnowrap : ¬ 2 ^ 64 < base + size := by omega
    simp only [hfit, hnolast, hnowrap, true_and, false_and, or_false]
  by_cases hwrap : 2 ^ 64 < base + size
  · rw [rightAnswer_of_wrap h hbase hsize hwrap hanswer]
    have hnolast : ¬ base + size ≤ 2 ^ 64 := by omega
    simp only [hfit, hwrap, hnolast, true_and, false_and, and_false, false_or]
  -- the end lies in the last page, so that the rounded one is 0
  have hend : alignUp (add64 base size) = 0 := by
    rw [add64]
    by_cases hsum : base + size = 2 ^ 64
    · rw [hsum]
      rfl
    · rw [Nat.mod_eq_of_lt (by omega)]
      exact alignUp_eq_zero (by omega) (by omega)
  have hone : answer = some 1 := hanswer.mpr fun a ha hal => absurd hal (by omega)
  have hlast : 2 ^ 64 - pageSize < base + size := by omega
  have hle : base + size ≤ 2 ^ 64 := by omega
  simp only [RightAnswer, hone, hfit, hwrap, hlast, hle, hpos, true_and, false_and, false_or,
    or_false, true_iff]

end

/-- An address space with one writable page. -/
def onePageVmm : Vmm where
  vmas := [⟨0x5000, 0x1000, vflagWritable⟩]
  vmasCount := 1
  pml4 := 2
  flags := vmmFlagOwnsPml4
  mmapBase := vmmMmapBase
  stackTop := vmmStackTop
  brk := 0
  brkBase := 0

def onePageSpace : MmState := (smallMachine 8).setVmm 0 onePageVmm

theorem onePageVmm_laid : Laid onePageVmm.vmas := by simp [Laid, onePageVmm]

theorem onePageVmm_paged : Paged onePageVmm.vmas := by
  constructor <;> simp [onePageVmm, pageSize]

/-- A part of the page is a range that is checked, and it is accepted. -/
theorem vmmIsAccessible_exact_iff_page : Checkable onePageVmm.vmas 0x5010 0x20 vflagWritable ∧
      (onePageSpace.vmmIsAccessible 0 0x5010 0x20 vflagWritable = some 1 ↔
        0 < 0x20 ∧ 0x5010 + 0x20 ≤ 2 ^ 64 ∧ Accessible onePageVmm.vmas 0x5010 0x20 vflagWritable) := by
  have hcheck : Checkable onePageVmm.vmas 0x5010 0x20 vflagWritable :=
    .inr (.inl ⟨by decide, fun h => absurd h.2 (by simp [onePageVmm])⟩)
  exact ⟨hcheck, (vmmIsAccessible_exact_iff onePageSpace 0 rfl onePageVmm_laid onePageVmm_paged
    0x5010 0x20 vflagWritable (by decide) (by decide)).mpr hcheck⟩

/-- The range from 0x2000 past the end of the address space to 0x1000 is accepted, although its first
address lies in no VMA. -/
theorem wrapped_range_accepted :
    Laid onePageVmm.vmas ∧ Paged onePageVmm.vmas ∧ onePageSpace.vmms 0 = some onePageVmm ∧
      onePageSpace.vmmIsAccessible 0 0x2000 (2 ^ 64 - 0x1000) vflagUser = some 1 ∧
      ¬ 0x2000 + (2 ^ 64 - 0x1000) ≤ 2 ^ 64 ∧ ¬ Allowed onePageVmm.vmas vflagUser 0x2000 := by
  refine ⟨onePageVmm_laid, onePageVmm_paged, rfl, by decide, by decide, ?_⟩
  simp [Allowed, onePageVmm, Vma.Has]

end Lapis.Mm
