/-
Lapis.Mm.MapAtomicTheorems — what a failed vmm_map leaves behind (vmm.c).

A call of `vmm_map` that returns 0 has stopped at one of a few points, which `failurePoint` names:
no place for the mapping, no record from the heap, no frame for a page, a base that the tree of
VMAs has already, or, after everything was done, a mapping at address 0. A call that stops before
it has touched a page leaves the VMAs, every translation and the number of free pages as they were.
The undo of a call that has populated pages does not: `unmap_page` drops the reference that
`map_page` took but not the one of the allocation, and a page that was mapped before the call is
not mapped again (`vmm_map_atomic_iff`).

The statement is about all calls that stop at one point. A single call can do damage that happens
to cancel out: the undo frees page tables that were empty before the call.
-/
import Lapis.Mm.GapTheorems
import Lapis.Mm.WalkTheorems
import Mathlib.Data.Set.Card

namespace Lapis.Mm

open Function List Option Lib
open VmaTree

/-! ## The number of free pages -/

namespace Pmm

variable {m m' : Pmm} {p : Pfn}

/-- `pmm_free_pages` is the number of frames that are free. -/
theorem Ok.freePages_eq (h : m.Ok) :
    m.freePages = {q | (m.info q).free = true}.ncard ∧ {q | (m.info q).free = true}.Finite := by
  obtain ⟨fl, hfl⟩ := h
  have hset : {q | (m.info q).free = true} = {q | q ∈ fl.toFinset} := by
    ext q
    rw [Set.mem_ofPred_eq, Set.mem_ofPred_eq, List.mem_toFinset]
    exact (hfl.mem_iff q).symm
  rw [hset]
  refine ⟨?_, Finset.finite_toSet fl.toFinset⟩
  rw [hfl.count, ← List.toFinset_card_of_nodup hfl.links.nodup]
  exact (Set.ncard_coe_finset fl.toFinset).symm

/-- One free frame is taken. -/
theorem Ok.freePages_take (h : m.Ok) (h' : m'.Ok) (hp : (m.info p).free = true) {i : PageInfo}
    (hi : i.free = false) (hinfo : m'.info = update m.info p i) : m'.freePages + 1 = m.freePages := by
  have hset : {q | (m'.info q).free = true} = {q | (m.info q).free = true} \ {p} := by
    ext q
    by_cases hqp : q = p
    · simp [hinfo, hqp, hi]
    · simp [hinfo, hqp]
  rw [h.freePages_eq.1, h'.freePages_eq.1, hset,
    Set.ncard_sdiff_singleton_add_one (show p ∈ {q | (m.info q).free = true} from hp)
      h.freePages_eq.2]

/-- One frame is given back. -/
theorem Ok.freePages_give (h : m.Ok) (h' : m'.Ok) (hp : (m.info p).free = false) {i : PageInfo}
    (hi : i.free = true) (hinfo : m'.info = update m.info p i) : m'.freePages = m.freePages + 1 := by
  have hback : m.info = update m'.info p (m.info p) := by
    rw [hinfo, update_idem, update_eq_self]
  have hfree : (m'.info p).free = true := by rw [hinfo, update_self, hi]
  exact (h'.freePages_take h hfree hp hback).symm

end Pmm

namespace MmState

variable {s s₁ s₂ : MmState} {id base size : Nat} {flags : BitVec 32} {vmm : Vmm}

/-! ## The heap's part -/

/-- The pages of the heap's slabs are its own: it has one reference to each. -/
structure HeapOwns (s : MmState) : Prop where
  ok : s.phys.pmm.Ok
  nodup : s.heap.slabs.Nodup
  owned : ∀ q ∈ s.heap.slabs, q ≤ s.phys.pmm.maxPfn ∧ (s.phys.pmm.info q).free = false ∧
    (s.phys.pmm.info q).reserved = false ∧ (s.phys.pmm.info q).refcount = 1

/-- The free pages, with those that the heap has taken for its slabs. -/
def pages (s : MmState) : Nat := s.phys.pmm.freePages + s.heap.slabs.length

/-- The VMAs, the translation of every address and the number of free pages, apart from the
heap's, are the same. -/
structure Unchanged (s s' : MmState) : Prop where
  vmas : ∀ i, (s'.vmms i).map Vmm.vmas = (s.vmms i).map Vmm.vmas
  translate : ∀ i vmm, s.vmms i = some vmm →
    ∀ v, s'.phys.translate vmm.pml4 v = s.phys.translate vmm.pml4 v
  pages : s'.pages = s.pages

/-- Only the heap and the physical memory manager did something for each other. -/
structure HeapOnly (s s' : MmState) : Prop where
  owns : HeapOwns s'
  mem : s'.phys.mem = s.phys.mem
  vmms : s'.vmms = s.vmms
  pages : s'.pages = s.pages

theorem translate_congr {s s' : Phys} (hmem : s'.mem = s.mem) (pt : Pfn) (v : Nat) :
    s'.translate pt v = s.translate pt v := by
  have hroot : (Spaces.mk (fun _ => some pt) 512).root 0 = some pt := rfl
  rw [Phys.translate_eq hroot, Phys.translate_eq hroot, hmem]

theorem HeapOnly.refl (h : HeapOwns s) : HeapOnly s s := ⟨h, rfl, rfl, rfl⟩

theorem HeapOnly.trans (h1 : HeapOnly s s₁) (h2 : HeapOnly s₁ s₂) : HeapOnly s s₂ :=
  ⟨h2.owns, h2.mem.trans h1.mem, h2.vmms.trans h1.vmms, h2.pages.trans h1.pages⟩

theorem HeapOnly.unchanged (h : HeapOnly s s₁) : Unchanged s s₁ :=
  ⟨fun i => by rw [h.vmms], fun _ _ _ v => translate_congr h.mem _ v, h.pages⟩

/-- The refusal of an allocation changes nothing that counts. -/
theorem HeapOnly.of_refused (h : HeapOwns s) {phys : Phys}
    (hphys : phys = { s.phys with pmm := { s.phys.pmm with refused := s.phys.pmm.refused + 1 } })
    {heap : Heap} (hslabs : heap.slabs = s.heap.slabs) :
    HeapOnly s { s with phys := phys, heap := heap } := by
  subst hphys
  refine ⟨⟨h.ok.refuse, hslabs ▸ h.nodup, fun q hq => h.owned q (hslabs ▸ hq)⟩, rfl, rfl, ?_⟩
  unfold MmState.pages
  rw [hslabs]

theorem HeapOwns.kzalloc (h : HeapOwns s) : HeapOnly s s.kzalloc.2 := by
  unfold MmState.kzalloc
  split
  · exact .refl h
  dsimp only
  split
  · exact ⟨⟨h.ok, h.nodup, h.owned⟩, rfl, rfl, rfl⟩
  · exact ⟨⟨h.ok, h.nodup, h.owned⟩, rfl, rfl, rfl⟩
  unfold Phys.pmmAllocPage
  rcases Pmm.pmmAllocPage_spec h.ok with ⟨heq, -⟩ | ⟨p, m, heq, hfree, hle, -, hkeeps, hinfo⟩
  · rw [heq]
    exact .of_refused h rfl rfl
  rw [heq]
  have hnew : p ∉ s.heap.slabs := by
    intro hp
    have hheld := (h.owned p hp).2.1
    rw [hfree] at hheld
    exact Bool.false_ne_true hheld.symm
  refine ⟨⟨hkeeps.ok, nodup_cons.mpr ⟨hnew, h.nodup⟩, fun q hq => ?_⟩, rfl, rfl, ?_⟩
  · dsimp only at hq ⊢
    rw [hkeeps.maxPfn, hinfo]
    rcases mem_cons.mp hq with rfl | hold
    · rw [update_self]
      exact ⟨hle, PageInfo.free_alloc _, PageInfo.reserved_alloc _, rfl⟩
    · have hne : q ≠ p := fun heq => hnew (heq ▸ hold)
      rw [update_of_ne hne]
      exact h.owned q hold
  · have hcount := h.ok.freePages_take hkeeps.ok hfree (PageInfo.free_alloc _) hinfo
    unfold MmState.pages
    dsimp only
    rw [length_cons]
    omega

theorem HeapOwns.kfree (h : HeapOwns s) : HeapOnly s s.kfree := by
  unfold MmState.kfree
  split
  · exact .refl h
  dsimp only
  split
  · exact ⟨⟨h.ok, h.nodup, h.owned⟩, rfl, rfl, rfl⟩
  case h_2 p hp =>
    obtain ⟨i, -, hi⟩ := bind_eq_some_iff.mp hp
    have hmem := List.mem_of_getElem? hi
    obtain ⟨hle, hheld, hres, hone⟩ := h.owned p hmem
    obtain ⟨hkeeps, hinfo⟩ := Pmm.pmmPageRelease_spec h.ok hle
    have hlast := PageInfo.free_release hone hres
    refine ⟨⟨hkeeps.ok, h.nodup.erase p, fun q hq => ?_⟩, rfl, rfl, ?_⟩
    · dsimp only [Phys.modPmm] at hq ⊢
      rw [h.nodup.mem_erase_iff] at hq
      rw [hkeeps.maxPfn, hinfo, update_of_ne hq.1]
      exact h.owned q hq.2
    · have hcount := h.ok.freePages_give hkeeps.ok hheld hlast hinfo
      have hlen := length_erase_of_mem hmem
      have hpos := length_pos_of_mem hmem
      unfold MmState.pages
      dsimp only [Phys.modPmm]
      omega

/-! ## Where a call stops -/

/-- The points at which a call of `vmm_map` returns 0. A frame can be missing for the first page or
for a later one, and the undo after a base was found taken can have pages to unmap or not. -/
inductive FailurePoint
  | place
  | record
  | frame (later : Bool)
  | insert (undo : Bool)
  | addressZero
  deriving DecidableEq, Repr

/-- The points before the first page is touched. -/
def FailurePoint.harmless : FailurePoint → Bool
  | .place | .record | .frame false | .insert false => true
  | .frame true | .insert true | .addressZero => false

/-- `_vma_allocate_pages`, unless the mapping is a lazy one. -/
def populated (s : MmState) (pml4 : Pfn) (vma : Vma) : Int × Vma × Phys :=
  if has vma.flags vflagLazy then (eok, vma, s.phys) else s.phys.vmaAllocatePages pml4 vma

/-- The point at which `mapAt` returns 0. -/
def stopAt (s : MmState) (vmm : Vmm) (vma : Vma) : Option FailurePoint :=
  if s.kzalloc.1 then
    let r := s.kzalloc.2.populated vmm.pml4 vma
    if r.1 ≠ eok then some (.frame s.kzalloc.2.phys.pmm.freeList.isSome)
    else if rbInsert r.2.1 vmm.vmas = none then
      some (.insert (has r.2.1.flags vflagAllocated && decide (vma.size / pageSize ≠ 0)))
    else if vma.base = 0 then some .addressZero
    else none
  else some .record

/-- The point at which `vmm_map` returns 0 for an address space. -/
def failurePoint (s : MmState) (id : Nat) (vmm : Vmm) (base size : Nat) (flags : BitVec 32) :
    Option FailurePoint :=
  match choosePlace vmm base (alignUp size) flags with
  | none => none
  | some (none, _) => some .place
  | some (some base, vmm) => (s.setVmm id vmm).stopAt vmm ⟨base, alignUp size, flags⟩

theorem populated_base (s : MmState) (pml4 : Pfn) (vma : Vma) :
    (s.populated pml4 vma).2.1.base = vma.base := by
  unfold populated
  split
  · rfl
  · exact vmaAllocatePages_base s.phys pml4 vma

section MapAt

variable {vma : Vma} {r : Int × Vma × Phys}

theorem mapAt_of_refused (h : s.kzalloc.1 = false) : s.mapAt id vmm vma = (0, s.kzalloc.2) := by
  unfold mapAt
  rcases heq : s.kzalloc with ⟨b, s₁⟩
  rw [heq] at h
  obtain rfl : b = false := h
  rfl

theorem mapAt_of_granted (id : Nat) (h : s.kzalloc.1 = true) (hr : s.kzalloc.2.populated vmm.pml4 vma = r) :
    (r.1 ≠ eok → s.mapAt id vmm vma = (0, { s.kzalloc.2 with phys := r.2.2 }.kfree)) ∧
      (r.1 = eok → rbInsert r.2.1 vmm.vmas = none → s.mapAt id vmm vma =
        (0, (MmState.modPhys { s.kzalloc.2 with phys := r.2.2 }
          fun phys => phys.vmaFreePages vmm.pml4 r.2.1).kfree)) ∧
      ∀ vmas, r.1 = eok → rbInsert r.2.1 vmm.vmas = some vmas → s.mapAt id vmm vma =
        (r.2.1.base, MmState.setVmm { s.kzalloc.2 with phys := r.2.2 } id
          { vmm with vmas := vmas, vmasCount := add64 vmm.vmasCount 1 }) := by
  subst hr
  unfold mapAt populated
  rcases heq : s.kzalloc with ⟨b, s₁⟩
  rw [heq] at h
  obtain rfl : b = true := h
  dsimp only
  refine ⟨fun herr => if_pos herr, fun herr hins => ?_, fun vmas herr hins => ?_⟩
  · rw [if_neg (not_not.mpr herr), hins]
  · rw [if_neg (not_not.mpr herr), hins]

/-- A call of `mapAt` that returns 0 stops at a point that has a name. -/
theorem stopAt_of_zero (h : (s.mapAt id vmm vma).1 = 0) : ∃ f, s.stopAt vmm vma = some f := by
  unfold stopAt
  by_cases hgrant : s.kzalloc.1 = true
  · rw [if_pos hgrant]
    dsimp only
    obtain ⟨-, -, hdone⟩ := mapAt_of_granted id hgrant
      (rfl : s.kzalloc.2.populated vmm.pml4 vma = _)
    split
    · exact ⟨_, rfl⟩
    case isFalse herr =>
      cases hins : rbInsert (s.kzalloc.2.populated vmm.pml4 vma).2.1 vmm.vmas with
      | none => exact ⟨_, if_pos rfl⟩
      | some vmas =>
        rw [hdone vmas (not_not.mp herr) hins, populated_base] at h
        exact ⟨.addressZero, by rw [if_neg (some_ne_none vmas), if_pos h]⟩
  · rw [if_neg hgrant]
    exact ⟨_, rfl⟩

theorem vmaFreePages_of_not (phys : Phys) (pml4 : Pfn)
    (h : (has vma.flags vflagAllocated && decide (vma.size / pageSize ≠ 0)) = false) :
    phys.vmaFreePages pml4 vma = phys := by
  unfold Phys.vmaFreePages
  split
  case isTrue hflag =>
    split
    · rfl
    · have hzero : vma.size / pageSize = 0 := by
        rwa [hflag, Bool.true_and, decide_eq_false_iff_not, not_not] at h
      rw [hzero]
      rfl
  case isFalse => rfl

/-- The pages of a VMA without pages. -/
theorem allocatePages_of_none (phys : Phys) (pml4 : Pfn) (hzero : vma.size / pageSize = 0) :
    (phys.vmaAllocatePages pml4 vma).2.2 = phys := by
  unfold Phys.vmaAllocatePages
  split
  · rfl
  · rw [hzero]
    rfl

/-- What a VMA is populated with when it is not marked as allocated afterwards, or has no pages. -/
theorem populated_of_unmarked (herr : ¬ (s.populated vmm.pml4 vma).1 ≠ eok)
    (hundo : (has (s.populated vmm.pml4 vma).2.1.flags vflagAllocated &&
      decide (vma.size / pageSize ≠ 0)) = false) : (s.populated vmm.pml4 vma).2.2 = s.phys ∧
      ∀ phys : Phys, phys.vmaFreePages vmm.pml4 (s.populated vmm.pml4 vma).2.1 = phys := by
  have hsize : (s.populated vmm.pml4 vma).2.1.size = vma.size := by
    unfold populated Phys.vmaAllocatePages
    split
    · rfl
    · split
      · rfl
      · dsimp only
        split <;> rfl
  refine ⟨?_, fun phys => vmaFreePages_of_not phys vmm.pml4 (by rw [hsize]; exact hundo)⟩
  by_cases hlazy : has vma.flags vflagLazy = true
  · rw [populated, if_pos hlazy]
  rw [populated, if_neg hlazy] at herr hundo ⊢
  refine allocatePages_of_none s.phys vmm.pml4 ?_
  -- a VMA that was populated is marked
  have hmark : has (s.phys.vmaAllocatePages vmm.pml4 vma).2.1.flags vflagAllocated = true := by
    unfold Phys.vmaAllocatePages at herr ⊢
    split at herr
    · exact absurd (show (-1 : Int) ≠ eok by decide) herr
    case isFalse hmod =>
      dsimp only at herr
      split at herr
      case isTrue heok =>
        rw [if_neg hmod]
        dsimp only
        rw [if_pos heok, vflagAllocated, has_twoPow, BitVec.getLsbD_or]
        simp
      case isFalse hne => exact absurd hne herr
  rwa [hmark, Bool.true_and, decide_eq_false_iff_not, not_not] at hundo

/-- No page is populated when no frame is free. -/
theorem allocatePages_of_empty {phys : Phys} (hnone : phys.pmm.freeList = none) (pml4 : Pfn)
    (vma : Vma) :
    (phys.vmaAllocatePages pml4 vma).2.2 = phys ∨ (phys.vmaAllocatePages pml4 vma).2.2 =
        { phys with pmm := { phys.pmm with refused := phys.pmm.refused + 1 } } := by
  unfold Phys.vmaAllocatePages
  split
  · exact .inl rfl
  cases hn : vma.size / pageSize with
  | zero => exact .inl rfl
  | succ n =>
  right
  have hrefused : phys.pmm.pmmAllocPage = (none, { phys.pmm with refused := phys.pmm.refused + 1 }) := by
    unfold Pmm.pmmAllocPage
    split
    · rfl
    case h_2 p hp =>
      simp [hnone] at hp
  rw [Phys.allocateFrom, Phys.pmmAllocPage, hrefused]
  rfl

/-- Before the first page is touched, only the heap has done something. -/
theorem mapAt_heapOnly (h : HeapOwns s) {f : FailurePoint} (hstop : s.stopAt vmm vma = some f)
    (hf : f.harmless = true) : HeapOnly s (s.mapAt id vmm vma).2 := by
  have hheap := h.kzalloc
  unfold stopAt at hstop
  by_cases hgrant : s.kzalloc.1 = true
  swap
  · rwa [mapAt_of_refused (Bool.eq_false_of_not_eq_true hgrant)]
  rw [if_pos hgrant] at hstop
  dsimp only at hstop
  obtain ⟨hfail, htaken, -⟩ := mapAt_of_granted id hgrant
    (rfl : s.kzalloc.2.populated vmm.pml4 vma = _)
  split at hstop
  case isTrue herr =>
    -- no frame for the first page
    obtain rfl := some.inj hstop
    rw [hfail herr]
    have hnone : s.kzalloc.2.phys.pmm.freeList = none := by
      cases hfree : s.kzalloc.2.phys.pmm.freeList with
      | none => rfl
      | some p =>
        rw [hfree] at hf
        cases hf
    have hphys : HeapOnly s.kzalloc.2
        { s.kzalloc.2 with phys := (s.kzalloc.2.populated vmm.pml4 vma).2.2 } := by
      unfold populated
      split
      · exact .refl hheap.owns
      · rcases allocatePages_of_empty hnone vmm.pml4 vma with heq | heq
        · rw [heq]
          exact .refl hheap.owns
        · exact .of_refused hheap.owns heq rfl
    exact (hheap.trans hphys).trans hphys.owns.kfree
  case isFalse herr =>
    split at hstop
    case isTrue hins =>
      -- the base is taken, and no page was populated
      obtain rfl := some.inj hstop
      have hundo : (has (s.kzalloc.2.populated vmm.pml4 vma).2.1.flags vflagAllocated &&
          decide (vma.size / pageSize ≠ 0)) = false := by
        cases hundo : (has (s.kzalloc.2.populated vmm.pml4 vma).2.1.flags vflagAllocated &&
          decide (vma.size / pageSize ≠ 0)) with
        | false => rfl
        | true =>
          rw [hundo] at hf
          cases hf
      rw [htaken (not_not.mp herr) hins]
      obtain ⟨hphys, hfree⟩ := populated_of_unmarked herr hundo
      have hsame : MmState.modPhys
          { s.kzalloc.2 with phys := (s.kzalloc.2.populated vmm.pml4 vma).2.2 }
          (fun phys => phys.vmaFreePages vmm.pml4 (s.kzalloc.2.populated vmm.pml4 vma).2.1) =
          s.kzalloc.2 := by
        rw [hphys, modPhys, hfree]
      rw [hsame]
      exact hheap.trans hheap.owns.kfree
    case isFalse =>
      split at hstop
      · obtain rfl := some.inj hstop
        cases hf
      · cases hstop

end MapAt

/-! ## The whole call -/

theorem vmmMap_of_place {p : Option Nat} {vmm' : Vmm} (hid : s.vmms id = some vmm)
    (hpos : 0 < size) (hplace : choosePlace vmm base (alignUp size) flags = some (p, vmm')) :
    s.vmmMap id base size flags = some (p.elim (0, s)
      fun b => (s.setVmm id vmm').mapAt id vmm' ⟨b, alignUp size, flags⟩) := by
  unfold vmmMap
  rw [hid]
  dsimp only
  rw [if_neg (Nat.ne_of_gt hpos), hplace]
  cases p with
  | none => rfl
  | some b => rfl

/-- A call that returns 0 stops at a point that has a name. -/
theorem failurePoint_of_zero (hid : s.vmms id = some vmm) (hpos : 0 < size)
    (hmap : s.vmmMap id base size flags = some (0, s₁)) :
    ∃ f, s.failurePoint id vmm base size flags = some f := by
  unfold failurePoint
  rcases hplace : choosePlace vmm base (alignUp size) flags with _ | ⟨_ | b, vmm'⟩
  · unfold vmmMap at hmap
    rw [hid] at hmap
    dsimp only at hmap
    simp [if_neg (Nat.ne_of_gt hpos), hplace] at hmap
  · exact ⟨.place, rfl⟩
  · rw [vmmMap_of_place hid hpos hplace] at hmap
    exact stopAt_of_zero (congrArg Prod.fst (some.inj hmap))

/-- The choice of a place changes at most the hint for the next search. -/
theorem HeapOnly.unchanged_of_place {p : Option Nat} {vmm' : Vmm} (hid : s.vmms id = some vmm)
    (hplace : choosePlace vmm base size flags = some (p, vmm'))
    (h : HeapOnly (s.setVmm id vmm') s₁) : Unchanged s s₁ := by
  refine ⟨fun i => ?_, fun _ _ _ v => translate_congr h.mem _ v, h.pages⟩
  rw [h.vmms, setVmm_vmms]
  by_cases hi : i = id
  · rw [hi, update_self, hid, map_some, map_some, choosePlace_vmas hplace]
  · rw [update_of_ne hi]

theorem unchanged_of_harmless (h : HeapOwns s) (hid : s.vmms id = some vmm) (hpos : 0 < size)
    {f : FailurePoint} (hstop : s.failurePoint id vmm base size flags = some f)
    (hf : f.harmless = true) (hmap : s.vmmMap id base size flags = some (0, s₁)) : Unchanged s s₁ := by
  unfold failurePoint at hstop
  rcases hplace : choosePlace vmm base (alignUp size) flags with _ | ⟨_ | b, vmm'⟩
  · simp [hplace] at hstop
  · rw [vmmMap_of_place hid hpos hplace] at hmap
    obtain rfl : s = s₁ := congrArg Prod.snd (some.inj hmap)
    exact (HeapOnly.refl h).unchanged
  · rw [hplace] at hstop
    rw [vmmMap_of_place hid hpos hplace] at hmap
    have hafter : ((s.setVmm id vmm').mapAt id vmm' ⟨b, alignUp size, flags⟩).2 = s₁ :=
      congrArg Prod.snd (some.inj hmap)
    have howns : HeapOwns (s.setVmm id vmm') := ⟨h.ok, h.nodup, h.owned⟩
    exact HeapOnly.unchanged_of_place hid hplace (hafter ▸ mapAt_heapOnly howns hstop hf)

/-- A small machine with an address space that has the given VMAs and no page mapped. -/
def spaceWith (last : Nat) (vmas : List Vma) : MmState :=
  (smallMachine last).setVmm 0 { freshVmm 1 with vmas := vmas }

theorem spaceWith_owns (last : Nat) (vmas : List Vma) : HeapOwns (spaceWith last vmas) :=
  ⟨smallPmm_ok last, nodup_nil, fun _ hq => absurd hq not_mem_nil⟩

/-- A call on such a machine returns 0 at the given point and changes something. -/
def Damages (last : Nat) (vmas : List Vma) (base size : UInt64) (flags : BitVec 32)
    (f : FailurePoint) : Prop :=
  (spaceWith last vmas).failurePoint 0 { freshVmm 1 with vmas := vmas } base.toNat size.toNat
      flags = some f ∧
    ∃ s', (spaceWith last vmas).vmmMap 0 base.toNat size.toNat flags = some (0, s') ∧
      ¬ Unchanged (spaceWith last vmas) s'

/-- With four free frames the second page finds none: the first stays allocated. -/
theorem damages_frame : Damages 5 [] 0x10000 0x2000 userRw (.frame true) := by
  refine ⟨by decide +kernel, ?_⟩
  have hcall : ((spaceWith 5 []).vmmMap 0 0x10000 0x2000 userRw).map
      (fun r => (r.1, r.2.pages)) = some (0, 3) := by decide +kernel
  obtain ⟨⟨r, s'⟩, hmap, hparts⟩ := map_eq_some_iff.mp hcall
  obtain ⟨rfl, hpages⟩ := Prod.mk.inj hparts
  refine ⟨s', hmap, fun h => ?_⟩
  have hbefore : (spaceWith 5 []).pages = 4 := by decide +kernel
  have hafter := h.pages
  dsimp only at hpages
  omega

/-- The base of the new VMA is taken by a lazy one: the page that was populated stays allocated. -/
theorem damages_insert : Damages 9 [⟨0x10000, 0x1000, userRw ||| vflagLazy⟩] 0x10000 0x1000 userRw
    (.insert true) := by
  refine ⟨by decide +kernel, ?_⟩
  have hcall : ((spaceWith 9 [⟨0x10000, 0x1000, userRw ||| vflagLazy⟩]).vmmMap 0 0x10000 0x1000
      userRw).map (fun r => (r.1, r.2.pages)) = some (0, 7) := by decide +kernel
  obtain ⟨⟨r, s'⟩, hmap, hparts⟩ := map_eq_some_iff.mp hcall
  obtain ⟨rfl, hpages⟩ := Prod.mk.inj hparts
  refine ⟨s', hmap, fun h => ?_⟩
  have hbefore : (spaceWith 9 [⟨0x10000, 0x1000, userRw ||| vflagLazy⟩]).pages = 8 := by
    decide +kernel
  have hafter := h.pages
  dsimp only at hpages
  omega

/-- A mapping at address 0 is made, and its address looks like a failure. -/
theorem damages_addressZero : Damages 5 [] 0 0x1000 (userRw ||| vflagLazy ||| vflagFixed) .addressZero := by
  refine ⟨by decide +kernel, ?_⟩
  have hcall : ((spaceWith 5 []).vmmMap 0 0 0x1000 (userRw ||| vflagLazy ||| vflagFixed)).map
      (fun r => (r.1, (r.2.vmms 0).map Vmm.vmas)) =
        some (0, some [⟨0, 0x1000, userRw ||| vflagLazy ||| vflagFixed⟩]) := by decide +kernel
  obtain ⟨⟨r, s'⟩, hmap, hparts⟩ := map_eq_some_iff.mp hcall
  obtain ⟨rfl, hvmas⟩ := Prod.mk.inj hparts
  refine ⟨s', hmap, fun h => ?_⟩
  have hafter := (h.vmas 0).symm.trans hvmas
  cases hafter

/-- The calls that stop before they touch a page, and only these, leave everything as it was. -/
theorem vmm_map_atomic_iff (f : FailurePoint) :
    (∀ (s : MmState) (id : Nat) (vmm : Vmm) (base size : UInt64) (flags : BitVec 32)
      (s' : MmState), s.vmms id = some vmm → 0 < size.toNat →
      s.vmmMap id base.toNat size.toNat flags = some (0, s') →
      ∃ stop, s.failurePoint id vmm base.toNat size.toNat flags = some stop) ∧
    ((∀ (s : MmState) (id : Nat) (vmm : Vmm) (base size : UInt64) (flags : BitVec 32)
        (s' : MmState), HeapOwns s → s.vmms id = some vmm → 0 < size.toNat →
        s.failurePoint id vmm base.toNat size.toNat flags = some f →
        s.vmmMap id base.toNat size.toNat flags = some (0, s') → Unchanged s s') ↔ f.harmless = true) := by
  refine ⟨fun s id vmm base size flags s' hid hpos => failurePoint_of_zero hid hpos,
    fun hall => ?_, fun hf s id vmm base size flags s' h hid hpos hstop =>
      unchanged_of_harmless h hid hpos hstop hf⟩
  -- a call that stops at a later point and changes something
  have hnone : ∀ last vmas base size flags, 0 < size.toNat → ¬ Damages last vmas base size flags f := by
    rintro last vmas base size flags hpos ⟨hstop, s', hmap, hchanged⟩
    exact hchanged (hall _ 0 _ base size flags s' (spaceWith_owns last vmas) rfl hpos hstop hmap)
  cases f with
  | place => rfl
  | record => rfl
  | frame later =>
    cases later with
    | false => rfl
    | true => exact absurd damages_frame (hnone _ _ _ _ _ (by decide))
  | insert undo =>
    cases undo with
    | false => rfl
    | true => exact absurd damages_insert (hnone _ _ _ _ _ (by decide))
  | addressZero => exact absurd damages_addressZero (hnone _ _ _ _ _ (by decide))

/-- A page is mapped, and the same base is asked for again: the call returns 0, but the page is no
longer mapped and its tables have been freed. -/
theorem failed_map_loses_page : ((spaceWith 12 []).vmmMap 0 0x10000 0x1000 userRw).bind (fun r =>
      (r.2.vmmMap 0 0x10000 0x1000 userRw).map fun r' =>
        (r'.1, r.2.phys.translate 1 0x10000, r'.2.phys.translate 1 0x10000, r.2.pages, r'.2.pages)) =
      some (0, some (leafOf 12 (vflagsToPflags userRw)), none, 7, 9) := by
  decide +kernel

end MmState

end Lapis.Mm
