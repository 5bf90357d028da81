/-
Lapis.Mm.GapTheorems — where `vmm_map` puts a range.

The gap search goes down from `mmap_base`. A round that does not end the search has met a VMA that
reaches above the start of the candidate; every range below the hint that is free lies below that
VMA, so going on at its base misses none (`Gap.below`). With the lemmas that a range found is free
and that the hint falls in every round, the search returns the highest free range.

Where the place comes from the caller, or where the rounded size is 0 or 2^64 - 4096, nothing keeps
the range inside the user half. `InUserRange` is what is left to the caller.
-/
import Lapis.Mm.SearchTheorems

namespace Lapis.Mm

open Function List Option Lib
open VmaTree

/-! ## The highest gap -/

/-- The range of `size` bytes at `c` is page aligned, in the user half below `limit`, and free. -/
structure Gap (vmas : List Vma) (limit size c : Nat) : Prop where
  aligned : pageSize ∣ c
  start_le : vmmUserStart ≤ c
  le_limit : c + size ≤ limit
  apart : ∀ u ∈ vmas, u.base + u.size ≤ c ∨ c + size ≤ u.base

section Gap

variable {vmas : List Vma} {size hint cand c : Nat} {u : Vma}

/-- A gap below the hint starts at the candidate or below it. -/
theorem Gap.le_candidate (h : Gap vmas hint size c) : c ≤ alignDown (hint - size) := by
  have hle : c ≤ hint - size := by
    have := h.le_limit
    omega
  rw [← alignDown_of_dvd h.aligned]
  exact Nat.mul_le_mul_right pageSize (Nat.div_le_div_right hle)

/-- Under a VMA that reaches above the candidate the gaps are those below its base. -/
theorem Gap.below (h : Gap vmas hint size c) (hu : u ∈ vmas) (hc : c ≤ cand)
    (hreach : cand < u.base + u.size) : Gap vmas u.base size c := by
  refine ⟨h.aligned, h.start_le, ?_, h.apart⟩
  have := h.apart u hu
  omega

/-- The search misses no gap. -/
theorem Tidy.findFreeGapFrom_highest (h : Tidy vmas) (hpos : 0 < size)
    (hfit : vmmUserStart + size < 2 ^ 64) {rounds r : Nat} (hhint : hint < 2 ^ 64)
    (hfound : VmaTree.findFreeGapFrom vmas size rounds hint = some r)
    (hgap : Gap vmas hint size c) : c ≤ r := by
  induction rounds generalizing hint with
  | zero => simp [VmaTree.findFreeGapFrom] at hfound
  | succ rounds ih =>
    have hstart := hgap.start_le
    have hlimit := hgap.le_limit
    have hcand := hgap.le_candidate
    rcases findFreeGapFrom_round h.laid.ascending hpos hfit hhint rfl with
      ⟨-, hno⟩ | ⟨-, hle, ⟨heq, -⟩ | ⟨u, hu, hbase, hreach, heq⟩⟩
    · omega
    · exact some.inj (heq.symm.trans hfound) ▸ hcand
    · have hsize := (h.shaped u hu).pos
      have hulimit := u.limit_le
      exact ih (by omega) (heq.symm.trans hfound) (hgap.below hu hcand (by omega))

/-- `_find_free_gap` ends. It returns the highest gap below `mmap_base` and makes it the new
`mmap_base`, and it returns 0 and changes nothing exactly when there is no gap. -/
theorem findFreeGap_highest {vmm : Vmm} (h : Tidy vmm.vmas) (hbase : vmm.mmapBase < 2 ^ 64)
    (hpos : 0 < size) (hfit : vmmUserStart + size < 2 ^ 64) :
    ∃ r, findFreeGap vmm size = some r ∧ (r.1 ≠ 0 → Gap vmm.vmas vmm.mmapBase size r.1 ∧
        (∀ c, Gap vmm.vmas vmm.mmapBase size c → c ≤ r.1) ∧
        r.2 = { vmm with mmapBase := r.1 }) ∧
      (r.1 = 0 → r.2 = vmm) ∧ (r.1 = 0 ↔ ¬ ∃ c, Gap vmm.vmas vmm.mmapBase size c) := by
  have hends := findFreeGapFrom_of_lt h.laid.ascending hpos hfit hbase hbase
  obtain ⟨c, hc⟩ := ne_none_iff_exists'.mp hends
  have hhighest : ∀ d, Gap vmm.vmas vmm.mmapBase size d → d ≤ c :=
    fun d hd => h.findFreeGapFrom_highest hpos hfit hbase hc hd
  have hsound : c ≠ 0 → Gap vmm.vmas vmm.mmapBase size c := by
    intro hne
    obtain ⟨haligned, hstart, hlimit, hapart⟩ := h.findFreeGapFrom hpos hfit hbase hc hne
    refine ⟨haligned, hstart, hlimit, fun u hu => ?_⟩
    exact (Vma.apart_iff (h.shaped u hu).pos hpos).mp (hapart 0 u hu)
  refine ⟨_, by rw [findFreeGap, hc]; rfl, fun hne => ⟨hsound hne, hhighest, if_neg hne⟩,
    fun hzero => if_pos hzero, ?_⟩
  dsimp only
  constructor
  · rintro rfl ⟨d, hd⟩
    have hlow := hd.start_le
    have hhigh := hhighest d hd
    simp only [vmmUserStart] at hlow
    omega
  · intro hnone
    by_contra hne
    exact hnone ⟨c, hsound hne⟩

/-- An address space with a VMA at the top and one two pages below it. -/
def twoVmas : Vmm :=
  { MmState.freshVmm 1 with
    vmas := [⟨0x4000, 0x1000, 0⟩, ⟨0x7000, 0x1000, 0⟩], mmapBase := 0x8000 }

theorem twoVmas_tidy : Tidy twoVmas.vmas := by
  refine ⟨by decide, fun v hv => ?_⟩
  rcases mem_cons.mp hv with rfl | hv
  · exact ⟨by decide, by decide, by decide, by decide⟩
  · rw [mem_singleton.mp hv]
    exact ⟨by decide, by decide, by decide, by decide⟩

/-- Two pages fit between the two VMAs. -/
theorem findFreeGap_highest_between :
    findFreeGap twoVmas 0x2000 = some (0x5000, { twoVmas with mmapBase := 0x5000 }) ∧
      Gap twoVmas.vmas 0x8000 0x2000 0x5000 := by
  have hcall : findFreeGap twoVmas 0x2000 = some (0x5000, { twoVmas with mmapBase := 0x5000 }) := by
    decide +kernel
  obtain ⟨r, hr, hgap, -, -⟩ :=
    findFreeGap_highest twoVmas_tidy (by decide) (show 0 < 0x2000 by decide) (by decide)
  obtain rfl := some.inj (hr.symm.trans hcall)
  exact ⟨hcall, (hgap (by decide)).1⟩

end Gap

/-! ## The user range -/

def vmmUserEnd : Nat := 0x00007FFFFFFFF000

section Range

variable {vmas vmas' : List Vma} {v w : Vma} {size hint c : Nat}

theorem rbInsert_perm (h : rbInsert v vmas = some vmas') : vmas'.Perm (v :: vmas) := by
  induction vmas generalizing vmas' with
  | nil =>
    obtain rfl := some.inj h
    exact .refl _
  | cons u vmas ih =>
    unfold rbInsert at h
    split at h
    · obtain rfl := some.inj h
      exact .refl _
    · split at h
      · cases h
      · obtain ⟨us, hus, rfl⟩ := map_eq_some_iff.mp h
        exact ((ih hus).cons u).trans (.swap v u vmas)

/-- Whether a base is taken does not depend on the rest of the record. -/
theorem rbInsert_eq_none_congr (h : v.base = w.base) : rbInsert v vmas = none ↔ rbInsert w vmas = none := by
  induction vmas with
  | nil => exact iff_of_false (fun h => by cases h) fun h => by cases h
  | cons u vmas ih =>
    unfold rbInsert
    rw [h]
    split
    · exact iff_of_false (fun h => by cases h) fun h => by cases h
    · split
      · exact iff_of_true rfl rfl
      · rw [map_eq_none_iff, map_eq_none_iff, ih]

/-- The element that a list gained is determined. -/
theorem eq_of_perm_cons (h : (v :: vmas).Perm (w :: vmas)) : v = w := by
  have hcount := h.count_eq v
  by_contra hne
  rw [count_cons_self, count_cons_of_ne (Ne.symm hne)] at hcount
  omega

/-- The gap search returns nothing below the user half. -/
theorem findFreeGapFrom_start_le {rounds : Nat}
    (h : findFreeGapFrom vmas size rounds hint = some c) (hc : c ≠ 0) : vmmUserStart ≤ c := by
  induction rounds generalizing hint with
  | zero => cases h
  | succ rounds ih =>
    rw [findFreeGapFrom_succ] at h
    split at h
    · exact absurd (some.inj h).symm hc
    case isFalse hlow =>
    split at h
    · exact ih h
    · exact some.inj h ▸ Nat.le_of_not_lt fun hlt => hlow (.inr hlt)

end Range

namespace MmState

variable {s : MmState} {id base size : Nat} {flags : BitVec 32} {vmm : Vmm}

/-- There is a record for the VMA, there are the frames for its pages unless they come later, and its
base is not taken. -/
def Granted (s : MmState) (vmm : Vmm) (vma : Vma) : Prop :=
  s.kzalloc.1 = true ∧
    (has vma.flags vflagLazy = true ∨
      (s.kzalloc.2.phys.vmaAllocatePages vmm.pml4 vma).1 = eok) ∧
    rbInsert vma vmm.vmas ≠ none

theorem vmaAllocatePages_base (phys : Phys) (pml4 : Pfn) (vma : Vma) :
    (phys.vmaAllocatePages pml4 vma).2.1.base = vma.base := by
  unfold Phys.vmaAllocatePages
  split
  · rfl
  · dsimp only
    split <;> rfl

theorem mapAt_eq_zero_iff (s : MmState) (id : Nat) (vmm : Vmm) (vma : Vma) :
    (s.mapAt id vmm vma).1 = 0 ↔ vma.base = 0 ∨ ¬ s.Granted vmm vma := by
  unfold mapAt Granted
  rcases s.kzalloc with ⟨_ | _, t⟩
  · exact iff_of_true rfl (.inr fun h => by cases h.1)
  dsimp only
  by_cases hlazy : has vma.flags vflagLazy = true
  · rw [if_pos hlazy]
    dsimp only
    rw [if_neg (by simp)]
    cases hins : rbInsert vma vmm.vmas with
    | none => simp
    | some vmas => simp [hlazy]
  · rw [if_neg hlazy]
    have hbase := vmaAllocatePages_base t.phys vmm.pml4 vma
    rcases hpages : t.phys.vmaAllocatePages vmm.pml4 vma with ⟨err, vma', phys⟩
    rw [hpages] at hbase
    dsimp only at hbase ⊢
    by_cases herr : err = eok
    · rw [if_neg (not_not_intro herr)]
      cases hins : rbInsert vma' vmm.vmas with
      | none =>
        have hnone := (rbInsert_eq_none_congr hbase).mp hins
        simp [hnone]
      | some vmas =>
        have hsome : rbInsert vma vmm.vmas ≠ none := by
          rw [ne_eq, ← rbInsert_eq_none_congr hbase, hins]
          exact some_ne_none vmas
        simp [hsome, herr, hbase]
    · rw [if_pos herr]
      simp [hlazy, herr]

/-- If `vmm_map` returns an address, the VMA it records starts there, has the size asked for, and
lies in the user range. -/
def StaysInUserRange (s : MmState) (id base size : Nat) (flags : BitVec 32) : Prop :=
  ∀ vmm r s' vmm', s.vmms id = some vmm → s.vmmMap id base size flags = some (r, s') → r ≠ 0 →
    s'.vmms id = some vmm' →
    ∃ v, vmm'.vmas.Perm (v :: vmm.vmas) ∧ v.base = r ∧ size ≤ v.size ∧ 0 < v.size ∧
      v.base + v.size < 2 ^ 64 ∧ vmmUserStart ≤ v.base ∧ v.base + v.size ≤ vmmUserEnd

/-- What is left to the caller: the size can be rounded up, a place that the caller names is in the
user range, and a place that is searched for ends there. -/
def InUserRange (vmm : Vmm) (base size : Nat) (flags : BitVec 32) : Prop :=
  size + pageSize ≤ 2 ^ 64 ∧
    if base = 0 ∧ has flags vflagFixed = false then
      ∀ c, findFreeGapFrom vmm.vmas (alignUp size) (2 ^ 64) vmm.mmapBase = some c → c ≠ 0 →
        c + alignUp size ≤ vmmUserEnd
    else vmmUserStart ≤ alignDown base ∧ alignDown base + alignUp size ≤ vmmUserEnd

/-- The range is placed, but there is no record, not enough frames or another VMA with that base; or
the place is page 0, of which `vmm_map` returns the address 0. -/
def Refused (s : MmState) (id : Nat) (vmm : Vmm) (base size : Nat) (flags : BitVec 32) : Prop :=
  ∀ p vmm', choosePlace vmm base (alignUp size) flags = some (some p, vmm') →
    p = 0 ∨ ¬ (s.setVmm id vmm').Granted vmm' ⟨p, alignUp size, flags⟩

/-- The rounded size is at least the size asked for, unless rounding wraps to 0. -/
theorem le_alignUp_iff (hpos : 0 < size) (hlt : size < 2 ^ 64) :
    size ≤ alignUp size ∧ 0 < alignUp size ↔ size + pageSize ≤ 2 ^ 64 := by
  unfold alignUp pageSize
  omega

/-- The place that is chosen and the range it has to be in. -/
theorem inUserRange_iff {p : Nat} {vmm' : Vmm}
    (h : choosePlace vmm base (alignUp size) flags = some (some p, vmm')) (hp : p ≠ 0) :
    InUserRange vmm base size flags ↔
      size + pageSize ≤ 2 ^ 64 ∧ vmmUserStart ≤ p ∧ p + alignUp size ≤ vmmUserEnd := by
  unfold InUserRange
  refine and_congr_right fun _ => ?_
  unfold choosePlace at h
  by_cases hauto : base = 0 ∧ has flags vflagFixed = false
  · rw [if_pos hauto] at h ⊢
    unfold findFreeGap at h
    simp only [Option.map_map, Option.map_eq_some_iff, comp_apply, Prod.mk.injEq] at h
    obtain ⟨c, hgap, hc, -⟩ := h
    have hc0 : c ≠ 0 := by
      rintro rfl
      simp at hc
    rw [if_neg hc0] at hc
    obtain rfl := some.inj hc
    rw [and_iff_right (findFreeGapFrom_start_le hgap hc0)]
    constructor
    · exact fun hall => hall c hgap hc0
    · intro hle d hd _
      obtain rfl := some.inj (hgap.symm.trans hd)
      exact hle
  · rw [if_neg hauto] at h ⊢
    dsimp only at h
    split at h
    · cases (Prod.mk.inj (some.inj h)).1
    · obtain rfl := some.inj (Prod.mk.inj (some.inj h)).1
      exact Iff.rfl

theorem choosePlace_vmas {p : Option Nat} {vmm' : Vmm}
    (h : choosePlace vmm base size flags = some (p, vmm')) : vmm'.vmas = vmm.vmas := by
  unfold choosePlace at h
  split at h
  · unfold findFreeGap at h
    simp only [Option.map_map, Option.map_eq_some_iff, comp_apply, Prod.mk.injEq] at h
    obtain ⟨c, -, -, rfl⟩ := h
    split <;> rfl
  · dsimp only at h
    split at h <;>
    · obtain ⟨-, rfl⟩ := Prod.mk.inj (some.inj h)
      rfl

/-- Below an `mmap_base` in the user range every size that can be rounded up is placed there, except
the largest one. -/
theorem inUserRange_of_search (htidy : Tidy vmm.vmas) (hbase : vmm.mmapBase ≤ vmmUserEnd)
    (hauto : base = 0 ∧ has flags vflagFixed = false) (hpos : 0 < size)
    (hsize : size + 2 * pageSize ≤ 2 ^ 64) : InUserRange vmm base size flags := by
  have hround : 0 < alignUp size ∧ vmmUserStart + alignUp size < 2 ^ 64 := by
    simp only [alignUp, pageSize, vmmUserStart] at hsize ⊢
    omega
  have hlt : vmm.mmapBase < 2 ^ 64 := Nat.lt_of_le_of_lt hbase (by decide)
  refine ⟨by simp only [pageSize] at hsize ⊢; omega, ?_⟩
  rw [if_pos hauto]
  intro c hc hne
  have hle := (htidy.findFreeGapFrom hround.1 hround.2 hlt hc hne).2.2.1
  exact Nat.le_trans hle hbase

/-- `vmm_map` stays in the user range exactly when its caller saw to it or it has nothing to map. -/
theorem vmmMap_stays_iff (hid : s.vmms id = some vmm) (hpos : 0 < size) (hlt : size < 2 ^ 64) :
    s.StaysInUserRange id base size flags ↔
      InUserRange vmm base size flags ∨ s.Refused id vmm base size flags := by
  have hsize : size ≠ 0 := Nat.ne_of_gt hpos
  rcases hchoose : choosePlace vmm base (alignUp size) flags with _ | ⟨_ | p, vmm'⟩
  · refine iff_of_true (fun vmm1 r s' vmm2 _ hmap => ?_) (.inr fun p vmm' h => ?_)
    · simp [vmmMap, hid, hsize, hchoose] at hmap
    · simp [hchoose] at h
  · refine iff_of_true (fun vmm1 r s' vmm2 _ hmap hr => ?_) (.inr fun p vmm'' h => ?_)
    · simp only [vmmMap, hid, if_neg hsize, hchoose, some.injEq, Prod.mk.injEq] at hmap
      exact absurd hmap.1.symm hr
    · rw [hchoose] at h
      cases (Prod.mk.inj (some.inj h)).1
  have hcall : s.vmmMap id base size flags =
      some ((s.setVmm id vmm').mapAt id vmm' ⟨p, alignUp size, flags⟩) := by
    simp only [vmmMap, hid, if_neg hsize, hchoose]
  have hzero := mapAt_eq_zero_iff (s.setVmm id vmm') id vmm' ⟨p, alignUp size, flags⟩
  by_cases hrefused : p = 0 ∨ ¬ (s.setVmm id vmm').Granted vmm' ⟨p, alignUp size, flags⟩
  · refine iff_of_true (fun vmm1 r s' vmm2 _ hmap hr => ?_) (.inr fun q vmm'' h => ?_)
    · have hr' := congrArg Prod.fst (some.inj (hcall.symm.trans hmap))
      exact absurd (hr'.symm.trans (hzero.mpr hrefused)) hr
    · obtain ⟨hq, rfl⟩ := Prod.mk.inj (some.inj (hchoose.symm.trans h))
      obtain rfl := some.inj hq
      exact hrefused
  -- the VMA is recorded
  have hnot : ¬ s.Refused id vmm base size flags := fun h => hrefused (h p vmm' hchoose)
  have hp : p ≠ 0 := fun h => hrefused (.inl h)
  rw [or_iff_left hnot, inUserRange_iff hchoose hp, ← le_alignUp_iff hpos hlt]
  obtain ⟨-, ⟨hnull, -⟩ | ⟨vmas, hins, hr, hvmms⟩⟩ :=
    (s.setVmm id vmm').mapAt_vmms id vmm' ⟨p, alignUp size, flags⟩
  · exact absurd (hzero.mp hnull) hrefused
  have hperm := rbInsert_perm hins
  rw [choosePlace_vmas hchoose] at hperm
  constructor
  · intro hstays
    have hafter := congrFun hvmms id
    rw [update_self] at hafter
    obtain ⟨v, hv, hbase, hle, hvpos, -, hstart, hend⟩ := hstays vmm _ _ _ hid hcall (hr ▸ hp) hafter
    have hsame : v = ⟨p, alignUp size, insertedFlags flags⟩ := eq_of_perm_cons (hv.symm.trans hperm)
    subst hsame
    exact ⟨⟨hle, hvpos⟩, hstart, hend⟩
  · rintro ⟨⟨hle, hapos⟩, hstart, hend⟩ vmm1 r s' vmm2 hid' hmap hr0 hafter
    obtain rfl := some.inj (hid.symm.trans hid')
    have hres := some.inj (hcall.symm.trans hmap)
    rw [hres] at hr hvmms
    rw [hvmms, update_self] at hafter
    obtain rfl := some.inj hafter
    refine ⟨_, hperm, hr.symm, hle, hapos, ?_, hstart, hend⟩
    exact Nat.lt_of_le_of_lt hend (by decide)

/-- A small machine with one address space. -/
def oneSpace : MmState := (smallMachine 12).vmmCreate.2

theorem oneSpace_vmm : oneSpace.vmms 0 = some (freshVmm 12) := by decide +kernel

end MmState

end Lapis.Mm
