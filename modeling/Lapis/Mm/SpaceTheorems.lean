/-
Lapis.Mm.SpaceTheorems — what the operations do to the VMAs of the address spaces.

Only the records are looked at here, whatever happens to pages and page tables. `Vmm.Sorted` is
the shape of a record: a tidy tree and a right count. Each function has a lemma that says which
VMAs an address space has afterwards; the invariant over whole runs follows from them.
-/
import Lapis.Mm.Boot
import Lapis.Mm.VmaTheorems

namespace Lapis.Mm

open Function List Option Lib
open VmaTree

/-- A record of an address space as its operations expect it. -/
structure Vmm.Sorted (vmm : Vmm) : Prop where
  tidy : Tidy vmm.vmas
  count : vmm.vmasCount = vmm.vmas.length
  mmapBase : vmm.mmapBase < 2 ^ 64

namespace MmState

variable {s s' : MmState} {id : Nat} {vmm : Vmm}

/-! ## The heap and the pages leave the records alone -/

/-- The records, and how many were made. -/
def spaces (s : MmState) : (Nat → Option Vmm) × Nat := (s.vmms, s.nextVmm)

theorem kzalloc_spaces (s : MmState) : s.kzalloc.2.spaces = s.spaces := by
  unfold kzalloc
  dsimp only
  repeat' split
  all_goals rfl

theorem kfree_spaces (s : MmState) : s.kfree.spaces = s.spaces := by
  unfold kfree
  dsimp only
  repeat' split
  all_goals rfl

@[simp] theorem kfree_vmms (s : MmState) : s.kfree.vmms = s.vmms := congrArg Prod.fst s.kfree_spaces

@[simp] theorem kfree_nextVmm (s : MmState) : s.kfree.nextVmm = s.nextVmm :=
  congrArg Prod.snd s.kfree_spaces

@[simp] theorem modPhys_vmms (s : MmState) (f : Phys → Phys) : (s.modPhys f).vmms = s.vmms := rfl

@[simp] theorem modPhys_nextVmm (s : MmState) (f : Phys → Phys) :
    (s.modPhys f).nextVmm = s.nextVmm := rfl

@[simp] theorem setVmm_vmms (s : MmState) (id : Nat) (vmm : Vmm) :
    (s.setVmm id vmm).vmms = update s.vmms id (some vmm) := rfl

/-! ## Creation and destruction -/

/-- The record of a new address space. -/
def freshVmm (pml4 : Pfn) : Vmm :=
  { vmas := [], vmasCount := 0, pml4 := pml4, flags := vmmFlagOwnsPml4,
    mmapBase := vmmMmapBase, stackTop := vmmStackTop, brk := 0, brkBase := 0 }

theorem vmmCreate_vmms (s : MmState) :
    (s.vmmCreate.1 = none ∧ s.vmmCreate.2.spaces = s.spaces) ∨
      ∃ pml4, s.vmmCreate.1 = some s.nextVmm ∧ s.vmmCreate.2.spaces =
        (update s.vmms s.nextVmm (some (freshVmm pml4)), s.nextVmm + 1) := by
  have hspaces := kzalloc_spaces s
  unfold vmmCreate
  generalize s.kzalloc = r at hspaces ⊢
  rcases r with ⟨ok, t⟩
  cases ok with
  | false => exact .inl ⟨rfl, hspaces⟩
  | true =>
  obtain ⟨hvmms, hnext⟩ : t.vmms = s.vmms ∧ t.nextVmm = s.nextVmm := Prod.mk.inj hspaces
  dsimp only
  rcases t.phys.pteAlloc with ⟨_ | pml4, phys⟩
  · exact .inl ⟨rfl, (kfree_spaces _).trans hspaces⟩
  · exact .inr ⟨pml4, by simp [hnext], by simp [spaces, hvmms, hnext, freshVmm]⟩

theorem destroyLoop_vmms (pml4 : Pfn) (vmas : List Vma) (s : MmState) :
    (vmas.foldl (fun s vma => (s.modPhys fun phys => phys.vmaFreePages pml4 vma).kfree) s).spaces =
      s.spaces := by
  induction vmas generalizing s with
  | nil => rfl
  | cons v vmas ih => exact (ih _).trans (kfree_spaces _)

theorem vmmDestroy_vmms (s : MmState) (id : Nat) :
    (s.vmmDestroy id).spaces = (update s.vmms id none, s.nextVmm) := by
  unfold vmmDestroy
  cases hv : s.vmms id with
  | none => simp [spaces, ← hv]
  | some vmm =>
  dsimp only
  set t := if s.current = some id then { s with current := none } else s with ht
  have hspaces : t.spaces = s.spaces := by rw [ht]; split <;> rfl
  obtain ⟨hvmms, hnext⟩ := Prod.mk.inj ((destroyLoop_vmms vmm.pml4 vmm.vmas t).trans hspaces)
  split <;> simp [spaces, hvmms, hnext]

/-! ## vmm_map -/

/-- The flags of a VMA that `vmm_map` inserts. -/
def insertedFlags (flags : BitVec 32) : BitVec 32 :=
  if has flags vflagLazy then flags else flags ||| vflagAllocated

theorem mapAt_vmms (s : MmState) (id : Nat) (vmm : Vmm) (vma : Vma) :
    (s.mapAt id vmm vma).2.nextVmm = s.nextVmm ∧
    (((s.mapAt id vmm vma).1 = 0 ∧ (s.mapAt id vmm vma).2.vmms = s.vmms) ∨
      ∃ vmas, rbInsert { vma with flags := insertedFlags vma.flags } vmm.vmas = some vmas ∧
        (s.mapAt id vmm vma).1 = vma.base ∧
        (s.mapAt id vmm vma).2.vmms = update s.vmms id
          (some { vmm with vmas := vmas, vmasCount := add64 vmm.vmasCount 1 })) := by
  obtain ⟨hvmms, hnext⟩ := Prod.mk.inj s.kzalloc_spaces
  unfold mapAt
  generalize s.kzalloc = r at hvmms hnext ⊢
  rcases r with ⟨ok, t⟩
  cases ok with
  | false => exact ⟨hnext, .inl ⟨rfl, hvmms⟩⟩
  | true =>
  dsimp only at hvmms hnext ⊢
  -- the record that is inserted when the pages could be had
  have hrecord : ∀ err vma' phys, (if has vma.flags vflagLazy then (eok, vma, t.phys)
      else t.phys.vmaAllocatePages vmm.pml4 vma) = (err, vma', phys) → err = eok →
      vma' = { vma with flags := insertedFlags vma.flags } := by
    intro err vma' phys heq herr
    unfold insertedFlags
    by_cases hlazy : has vma.flags vflagLazy
    · rw [if_pos hlazy] at heq ⊢
      simp only [Prod.mk.injEq] at heq
      rw [← heq.2.1]
    · rw [if_neg hlazy] at heq ⊢
      unfold Phys.vmaAllocatePages at heq
      grind [eok]
  rcases hpages : (if has vma.flags vflagLazy then (eok, vma, t.phys)
    else t.phys.vmaAllocatePages vmm.pml4 vma) with ⟨err, vma', phys⟩
  dsimp only
  by_cases herr : err = eok
  · rw [if_neg (by simpa using herr)]
    obtain rfl := hrecord err vma' phys hpages herr
    rcases hins : rbInsert { vma with flags := insertedFlags vma.flags } vmm.vmas with _ | vmas
    · exact ⟨by simp [hnext], .inl ⟨rfl, by simp [hvmms]⟩⟩
    · exact ⟨hnext, .inr ⟨vmas, rfl, rfl, by simp [hvmms]⟩⟩
  · rw [if_pos herr]
    exact ⟨by simp [hnext], .inl ⟨rfl, by simp [hvmms]⟩⟩

/-- Where `vmm_map` may put a VMA of the given size, once the size is rounded. -/
def Placed (vmm : Vmm) (base size : Nat) (flags : BitVec 32) : Prop :=
  0 < size ∧
    if base = 0 ∧ has flags vflagFixed = false then vmmUserStart + size < 2 ^ 64
    else alignDown base + size < 2 ^ 64 ∧
      ∀ u ∈ vmm.vmas, u.Apart ⟨alignDown base, size, flags⟩

/-- The base `vmm_map` settles on. -/
theorem choosePlace_spec (h : vmm.Sorted) {base size : Nat} {flags : BitVec 32}
    (hplace : Placed vmm base size flags) {b : Nat} {vmm' : Vmm}
    (hchoose : choosePlace vmm base size flags = some (some b, vmm')) :
    pageSize ∣ b ∧ b + size < 2 ^ 64 ∧ (∀ u ∈ vmm.vmas, u.Apart ⟨b, size, flags⟩) ∧
      ∃ m, m < 2 ^ 64 ∧ vmm' = { vmm with mmapBase := m } := by
  obtain ⟨hpos, hplace⟩ := hplace
  unfold choosePlace at hchoose
  by_cases hauto : base = 0 ∧ has flags vflagFixed = false
  · rw [if_pos hauto] at hchoose hplace
    unfold findFreeGap at hchoose
    simp only [Option.map_map, Option.map_eq_some_iff, Function.comp_apply, Prod.mk.injEq] at hchoose
    obtain ⟨c, hgap, hc, hvmm⟩ := hchoose
    have hc0 : c ≠ 0 := by
      rintro rfl
      simp at hc
    rw [if_neg hc0] at hc hvmm
    obtain rfl : c = b := by simpa using hc
    obtain ⟨hd, -, hle, hap⟩ := h.tidy.findFreeGapFrom hpos hplace h.mmapBase hgap hc0
    have hm := h.mmapBase
    exact ⟨hd, by omega, hap flags, c, by omega, hvmm.symm⟩
  · rw [if_neg hauto] at hchoose hplace
    dsimp only at hchoose
    split at hchoose
    · simp at hchoose
    · simp only [some.injEq, Prod.mk.injEq] at hchoose
      obtain ⟨rfl, rfl⟩ := hchoose
      exact ⟨alignDown_dvd _, hplace.1, hplace.2, vmm.mmapBase, h.mmapBase, rfl⟩

/-! ## _vma_split -/

theorem Sorted.inserted (h : vmm.Sorted) {vmas : List Vma} (htidy : Tidy vmas)
    (hlen : vmas.length = vmm.vmas.length + 1) :
    { vmm with vmas := vmas, vmasCount := add64 vmm.vmasCount 1 : Vmm }.Sorted := by
  have := htidy.length_lt
  refine ⟨htidy, ?_, h.mmapBase⟩
  simp only
  rw [add64_eq] <;> rw [h.count] <;> omega

/-- A split of a VMA of the address space either does nothing or puts the two parts in. -/
theorem vmaSplit_vmms (h : vmm.Sorted) {v : Vma} (hv : v ∈ vmm.vmas) {addr : Nat} (hd : pageSize ∣ addr) :
    (s.vmaSplit id vmm v addr).2.nextVmm = s.nextVmm ∧
    (((s.vmaSplit id vmm v addr).1 = false ∧ (s.vmaSplit id vmm v addr).2.vmms = s.vmms) ∨
      ((s.vmaSplit id vmm v addr).1 = true ∧ v.base < addr ∧ addr < v.base + v.size ∧
        ∃ vmm', vmm'.Sorted ∧ vmm'.pml4 = vmm.pml4 ∧
          (∀ w, w ∈ vmm'.vmas ↔ (w ∈ vmm.vmas ∧ w ≠ v) ∨ w = v.lower addr ∨ w = v.upper addr) ∧
          (s.vmaSplit id vmm v addr).2.vmms = update s.vmms id (some vmm'))) := by
  obtain ⟨hvmms, hnext⟩ := Prod.mk.inj s.kzalloc_spaces
  have hshape := h.tidy.shaped v hv
  unfold vmaSplit
  rw [hshape.limit_eq]
  by_cases hrange : addr ≤ v.base ∨ v.base + v.size ≤ addr
  · rw [if_pos hrange]
    exact ⟨rfl, .inl ⟨rfl, rfl⟩⟩
  rw [if_neg hrange]
  have hlo : v.base < addr := by omega
  have hhi : addr < v.base + v.size := by omega
  have hbound := hshape.bound
  obtain ⟨vmas', hins, htidy, hlen, hmem⟩ := h.tidy.split hv hd hlo hhi
  rw [sub64_eq (by omega) hbound, sub64_eq (a := addr) (b := v.base) (by omega) (by omega)]
  generalize s.kzalloc = r at hvmms hnext ⊢
  rcases r with ⟨ok, t⟩
  cases ok with
  | false => exact ⟨hnext, .inl ⟨rfl, hvmms⟩⟩
  | true =>
    have hupper : (⟨addr, v.base + v.size - addr, v.flags⟩ : Vma) = v.upper addr := rfl
    dsimp only at hvmms hnext ⊢
    rw [hupper, hins]
    refine ⟨hnext, .inr ⟨rfl, hlo, hhi, _, Sorted.inserted h htidy hlen, rfl, hmem, ?_⟩⟩
    simp [hvmms]

/-! ## vmm_unmap -/

/-- The VMA lies inside the range. -/
def Within (v : Vma) (base limit : Nat) : Prop := base ≤ v.base ∧ v.base + v.size ≤ limit

theorem Sorted.removed (h : vmm.Sorted) {v : Vma} (hv : v ∈ vmm.vmas) :
    { vmm with
      vmas := rbRemove vmm.vmas v.base, vmasCount := sub64 vmm.vmasCount 1 : Vmm }.Sorted := by
  obtain ⟨htidy, hlen, -⟩ := h.tidy.rbRemove hv
  have := h.tidy.length_lt
  refine ⟨htidy, ?_, h.mmapBase⟩
  simp only
  rw [sub64_eq] <;> rw [h.count] <;> omega

/-- The loop removes the VMAs of the list that lie inside the range. -/
theorem unmapLoop_vmms (base limit : Nat) {l : List Vma} (hid : s.vmms id = some vmm)
    (h : vmm.Sorted) (hl : l.Sublist vmm.vmas) : (unmapLoop id base limit l s).nextVmm = s.nextVmm ∧
      ∃ vmm', vmm'.Sorted ∧ vmm'.pml4 = vmm.pml4 ∧
        (∀ w, w ∈ vmm'.vmas ↔ w ∈ vmm.vmas ∧ ¬ (w ∈ l ∧ Within w base limit)) ∧
        (unmapLoop id base limit l s).vmms = update s.vmms id (some vmm') := by
  induction l generalizing s vmm with
  | nil => exact ⟨rfl, vmm, h, rfl, by simp, by simp [unmapLoop, ← hid]⟩
  | cons v l ih =>
    have hv : v ∈ vmm.vmas := hl.subset (by simp)
    have htl : Tidy (v :: l) := h.tidy.sublist hl
    obtain ⟨hshape, hle, -⟩ := Tidy.cons_iff.mp htl
    have hpos := hshape.pos
    unfold unmapLoop
    rw [hshape.limit_eq, hid]
    by_cases hin : base ≤ v.base ∧ v.base + v.size ≤ limit
    · rw [if_pos hin]
      dsimp only
      set t := ((s.modPhys fun phys => phys.vmaFreePages vmm.pml4 v).setVmm id { vmm with
          vmas := rbRemove vmm.vmas v.base, vmasCount := sub64 vmm.vmasCount 1 }).kfree with ht
      obtain ⟨-, -, hmem⟩ := h.tidy.rbRemove hv
      have hvl : ∀ w ∈ l, w ≠ v := by
        rintro w hw rfl
        have := hle w hw
        omega
      have hsub : l.Sublist (rbRemove vmm.vmas v.base) := by
        have hfilter := ((sublist_cons_self v l).trans hl).filter (fun w => w.base ≠ v.base)
        rwa [filter_eq_self.mpr] at hfilter
        intro w hw
        have := hle w hw
        simp only [ne_eq, decide_eq_true_eq]
        omega
      obtain ⟨hnext, vmm', hsorted, hpml4, hmem', hvmms⟩ :=
        ih (s := t) (by simp [ht]) (Sorted.removed h hv) hsub
      refine ⟨by rw [hnext, ht]; simp [setVmm], vmm', hsorted, hpml4, ?_, ?_⟩
      · intro w
        have hw := hvl w
        rw [hmem', hmem]
        simp only [mem_cons, Within]
        grind
      · rw [hvmms, ht]
        simp
    · rw [if_neg hin]
      by_cases hbreak : limit ≤ v.base
      · -- every VMA from here on begins behind the range
        rw [if_pos hbreak]
        refine ⟨rfl, vmm, h, rfl, ?_, by simp [← hid]⟩
        intro w
        have hout : w ∈ v :: l → ¬ Within w base limit := by
          rintro hw ⟨-, hwl⟩
          have hwpos := (htl.shaped w hw).pos
          rcases mem_cons.mp hw with rfl | hw
          · omega
          · have := hle w hw
            omega
        tauto
      · rw [if_neg hbreak]
        obtain ⟨hnext, vmm', hsorted, hpml4, hmem', hvmms⟩ :=
          ih hid h ((sublist_cons_self v l).trans hl)
        refine ⟨hnext, vmm', hsorted, hpml4, ?_, hvmms⟩
        intro w
        rw [hmem']
        simp only [mem_cons, Within]
        grind

/-! ## vmm_fork -/

/-- The loop of `vmm_fork` copies the records in order, or gives the child up. -/
theorem forkLoop_vmms (parent : Pfn) {child : Nat} {l : List Vma} (hchild : s.vmms child = some vmm)
    (hord : ((vmm.vmas ++ l).map Vma.base).Pairwise (· < ·)) (hcount : vmm.vmasCount < 2 ^ 64) :
    (forkLoop parent child l s).2.nextVmm = s.nextVmm ∧ (((forkLoop parent child l s).1 = false ∧
          (forkLoop parent child l s).2.vmms = update s.vmms child none) ∨
        ((forkLoop parent child l s).1 = true ∧
          (forkLoop parent child l s).2.vmms = update s.vmms child (some { vmm with
            vmas := vmm.vmas ++ l, vmasCount := add64 vmm.vmasCount l.length }))) := by
  induction l generalizing s vmm with
  | nil =>
    refine ⟨rfl, .inr ⟨rfl, ?_⟩⟩
    have hzero : add64 vmm.vmasCount 0 = vmm.vmasCount := Nat.mod_eq_of_lt hcount
    simp [forkLoop, hzero, ← hchild]
  | cons v l ih =>
    obtain ⟨hvmms, hnext⟩ := Prod.mk.inj s.kzalloc_spaces
    unfold forkLoop
    generalize s.kzalloc = r at hvmms hnext ⊢
    rcases r with ⟨ok, t⟩
    cases ok with
    | false =>
      obtain ⟨hdvmms, hdnext⟩ := Prod.mk.inj (t.vmmDestroy_vmms child)
      exact ⟨hdnext.trans hnext, .inl ⟨rfl, by rw [← hvmms]; exact hdvmms⟩⟩
    | true =>
    dsimp only at hvmms hnext ⊢
    rw [hvmms, hchild]
    have hlast : ∀ u ∈ vmm.vmas, u.base < v.base := by
      intro u hu
      rw [map_append, pairwise_append] at hord
      exact hord.2.2 u.base (mem_map_of_mem hu) v.base (by simp)
    dsimp only
    rw [rbInsert_last hlast, getD_some]
    set t' := (t.modPhys fun phys => phys.forkVma parent vmm.pml4 v).setVmm child { vmm with
      vmas := vmm.vmas ++ [v], vmasCount := add64 vmm.vmasCount 1 } with ht'
    have hchild' : t'.vmms child = some { vmm with
        vmas := vmm.vmas ++ [v], vmasCount := add64 vmm.vmasCount 1 } := by
      simp [ht']
    have hrest : t'.vmms = update s.vmms child (some { vmm with
        vmas := vmm.vmas ++ [v], vmasCount := add64 vmm.vmasCount 1 }) := by
      simp [ht', hvmms]
    obtain ⟨hn, hcases⟩ := ih hchild' (by simpa using hord) (Nat.mod_lt _ (by decide))
    refine ⟨hn.trans hnext, ?_⟩
    rcases hcases with ⟨hf, hv⟩ | ⟨hf, hv⟩
    · exact .inl ⟨hf, by rw [hv, hrest, update_idem]⟩
    refine .inr ⟨hf, ?_⟩
    have hadd : add64 (add64 vmm.vmasCount 1) l.length = add64 vmm.vmasCount (v :: l).length := by
      simp only [add64, length_cons]
      omega
    rw [hv, hrest, update_idem, ← hadd]
    simp

theorem vmmFork_vmms {parent : Nat} {pvmm : Vmm} (hparent : s.vmms parent = some pvmm)
    (hsorted : pvmm.Sorted) :
    ((s.vmmFork parent).1 = none ∧ ((s.vmmFork parent).2.spaces = s.spaces ∨
        (s.vmmFork parent).2.spaces = (update s.vmms s.nextVmm none, s.nextVmm + 1))) ∨
      ∃ pml4, (s.vmmFork parent).1 = some s.nextVmm ∧ (s.vmmFork parent).2.spaces =
        (update s.vmms s.nextVmm (some { pvmm with pml4 := pml4, flags := vmmFlagOwnsPml4 }),
          s.nextVmm + 1) := by
  unfold vmmFork
  rw [hparent]
  dsimp only
  rcases s.vmmCreate_vmms with ⟨hnone, hspaces⟩ | ⟨pml4, hsome, hspaces⟩
  · generalize s.vmmCreate = r at hnone hspaces ⊢
    rcases r with ⟨res, t⟩
    obtain rfl : res = none := hnone
    exact .inl ⟨rfl, .inl hspaces⟩
  generalize s.vmmCreate = r at hsome hspaces ⊢
  rcases r with ⟨res, t⟩
  obtain rfl : res = some s.nextVmm := hsome
  obtain ⟨hvmms, hnext⟩ := Prod.mk.inj hspaces
  dsimp only at hvmms hnext ⊢
  have hchild : t.vmms s.nextVmm = some (freshVmm pml4) := by simp [hvmms]
  obtain ⟨hn, hcases⟩ := forkLoop_vmms pvmm.pml4 hchild
    (by simpa [freshVmm] using hsorted.tidy.bases_ordered) (by simp [freshVmm])
  generalize forkLoop pvmm.pml4 s.nextVmm pvmm.vmas t = r at hn hcases ⊢
  rcases r with ⟨ok, u⟩
  rcases hcases with ⟨hf, hv⟩ | ⟨hf, hv⟩
  · obtain rfl : ok = false := hf
    refine .inl ⟨rfl, .inr (Prod.ext ?_ (hn.trans hnext))⟩
    dsimp only [spaces] at hv ⊢
    rw [hv, hvmms, update_idem]
  obtain rfl : ok = true := hf
  dsimp only at hv hn ⊢
  have hu : u.vmms s.nextVmm = some { freshVmm pml4 with
      vmas := pvmm.vmas, vmasCount := pvmm.vmasCount } := by
    have hlt := hsorted.tidy.length_lt
    rw [hv, update_self, hsorted.count]
    simp only [freshVmm, add64, nil_append, Nat.zero_add, Nat.mod_eq_of_lt hlt]
  rw [hu]
  refine .inr ⟨pml4, rfl, Prod.ext ?_ (hn.trans hnext)⟩
  simp only [spaces, setVmm_vmms, hv, hvmms, update_idem]
  rfl

theorem add64_dvd {a b : Nat} (ha : pageSize ∣ a) (hb : pageSize ∣ b) : pageSize ∣ add64 a b :=
  (Nat.dvd_mod_iff (by decide)).mpr (Nat.dvd_add ha hb)

/-! ## Invariance -/

/-- Every live address space is sorted, and the numbers not given out are free. -/
structure AllSorted (s : MmState) : Prop where
  sorted : ∀ id vmm, s.vmms id = some vmm → vmm.Sorted
  unused : ∀ id, s.nextVmm ≤ id → s.vmms id = none

namespace AllSorted

section

variable (h : s.AllSorted)

include h

theorem congr (hspaces : s'.spaces = s.spaces) : s'.AllSorted := by
  obtain ⟨hvmms, hnext⟩ := Prod.mk.inj hspaces
  refine ⟨fun id vmm hid => h.sorted id vmm (hvmms ▸ hid), fun id hid => ?_⟩
  rw [hvmms]
  exact h.unused id (hnext ▸ hid)

theorem live_lt (hid : s.vmms id = some vmm) : id < s.nextVmm := by
  by_contra hge
  have := h.unused id (by omega)
  simp [this] at hid

/-- An address space, old or new, gets a record or loses it. -/
theorem record {new : Option Vmm} (hvmms : s'.vmms = update s.vmms id new)
    (hle : s.nextVmm ≤ s'.nextVmm) (hnew : ∀ vmm, new = some vmm → id < s'.nextVmm ∧ vmm.Sorted) :
    s'.AllSorted := by
  constructor
  · intro i v hv
    rw [hvmms] at hv
    by_cases hi : i = id
    · rw [hi, update_self] at hv
      exact (hnew v hv).2
    · rw [update_of_ne hi] at hv
      exact h.sorted i v hv
  · intro i hi
    rw [hvmms]
    by_cases hne : i = id
    · rw [hne, update_self]
      refine eq_none_iff_forall_ne_some.mpr fun vmm hvmm => ?_
      have := (hnew vmm hvmm).1
      omega
    · rw [update_of_ne hne]
      exact h.unused i (Nat.le_trans hle hi)

/-- A new record for a live address space. -/
theorem update (hlive : id < s.nextVmm) (hsorted : vmm.Sorted)
    (hvmms : s'.vmms = update s.vmms id (some vmm)) (hnext : s'.nextVmm = s.nextVmm) :
    s'.AllSorted := by
  refine h.record hvmms (Nat.le_of_eq hnext.symm) ?_
  rintro _ ⟨⟩
  exact ⟨hnext ▸ hlive, hsorted⟩

theorem create : s.vmmCreate.2.AllSorted := by
  rcases s.vmmCreate_vmms with ⟨-, hspaces⟩ | ⟨pml4, -, hspaces⟩
  · exact h.congr hspaces
  · obtain ⟨hvmms, hnext⟩ := Prod.mk.inj hspaces
    refine h.record hvmms (by omega) ?_
    rintro _ ⟨⟩
    exact ⟨by omega, Tidy.nil, rfl, by simp [freshVmm, vmmMmapBase]⟩

theorem destroy (id : Nat) : (s.vmmDestroy id).AllSorted := by
  obtain ⟨hvmms, hnext⟩ := Prod.mk.inj (s.vmmDestroy_vmms id)
  exact h.record hvmms (Nat.le_of_eq hnext.symm) nofun

theorem map {base size : Nat} {flags : BitVec 32} {r : Nat × MmState}
    (hplace : ∀ vmm, s.vmms id = some vmm → size ≠ 0 → Placed vmm base (alignUp size) flags)
    (hmap : s.vmmMap id base size flags = some r) : r.2.AllSorted := by
  unfold vmmMap at hmap
  cases hid : s.vmms id with
  | none =>
    rw [hid, some.injEq] at hmap
    exact hmap ▸ h
  | some vmm =>
  rw [hid] at hmap
  dsimp only at hmap
  by_cases hsize : size = 0
  · rw [if_pos hsize, some.injEq] at hmap
    exact hmap ▸ h
  rw [if_neg hsize] at hmap
  rcases hchoose : choosePlace vmm base (alignUp size) flags with _ | ⟨_ | b, vmm'⟩
  · simp [hchoose] at hmap
  · rw [hchoose, some.injEq] at hmap
    exact hmap ▸ h
  rw [hchoose, some.injEq] at hmap
  have hsorted := h.sorted id vmm hid
  have hplaced := hplace vmm hid hsize
  obtain ⟨hd, hfit, hap, m, hm, rfl⟩ := choosePlace_spec hsorted hplaced hchoose
  have hsorted' : { vmm with mmapBase := m : Vmm }.Sorted := ⟨hsorted.tidy, hsorted.count, hm⟩
  have hset : (s.setVmm id { vmm with mmapBase := m }).AllSorted :=
    h.update (h.live_lt hid) hsorted' rfl rfl
  subst hmap
  obtain ⟨hnext, ⟨-, hvmms⟩ | ⟨vmas, hins, -, hvmms⟩⟩ := (s.setVmm id
    { vmm with mmapBase := m }).mapAt_vmms id { vmm with mmapBase := m }
      ⟨b, alignUp size, flags⟩
  · exact hset.congr (Prod.ext hvmms hnext)
  -- the place meets no VMA, so the insertion went through
  have hshaped : (⟨b, alignUp size, insertedFlags flags⟩ : Vma).Shaped :=
    ⟨hd, alignUp_dvd size, hplaced.1, hfit⟩
  obtain ⟨vmas', hins', htidy, hperm⟩ := hsorted.tidy.rbInsert hshaped hap
  obtain rfl : vmas' = vmas := by
    simpa [hins'] using hins
  exact hset.update (h.live_lt hid)
    (Sorted.inserted hsorted' htidy (by simp [hperm.length_eq])) hvmms hnext

theorem split (hid : s.vmms id = some vmm) {v : Vma} (hv : v ∈ vmm.vmas)
    {addr : Nat} (hd : pageSize ∣ addr) : (s.vmaSplit id vmm v addr).2.AllSorted := by
  obtain ⟨hnext, ⟨-, hvmms⟩ | ⟨-, -, -, vmm', hsorted, -, -, hvmms⟩⟩ :=
    @vmaSplit_vmms s id vmm (h.sorted id vmm hid) v hv addr hd
  · exact h.congr (Prod.ext hvmms hnext)
  · exact h.update (h.live_lt hid) hsorted hvmms hnext

/-- The `_vma_split` at an address where `_find_vma` found the VMA. -/
theorem split_found (hid : s.vmms id = some vmm) {v : Vma} {addr a : Nat}
    (hfound : findVma vmm.vmas a = some v) (hd : pageSize ∣ addr) : (s.vmaSplit id vmm v addr).2.AllSorted :=
  h.split hid ((h.sorted id vmm hid).tidy.findVma_eq_some_iff.mp hfound).1 hd

theorem unmap (id base size : Nat) : (s.vmmUnmap id base size).2.AllSorted := by
  unfold vmmUnmap
  cases hid : s.vmms id with
  | none => exact h
  | some vmm =>
  dsimp only
  by_cases hsize : size = 0
  · rwa [if_pos hsize]
  rw [if_neg hsize]
  have hb : pageSize ∣ alignDown base := alignDown_dvd base
  have hl : pageSize ∣ add64 (alignDown base) (alignUp size) := add64_dvd hb (alignUp_dvd size)
  generalize alignDown base = b at hb hl ⊢
  generalize add64 b (alignUp size) = e at hl ⊢
  have hfirst : (s.unmapFirst id vmm b).2.AllSorted := by
    unfold unmapFirst
    cases hfound : findVma vmm.vmas b with
    | none => exact h
    | some v =>
      dsimp only
      split
      · exact h.split_found hid hfound hb
      · exact h
  generalize s.unmapFirst id vmm b = r at hfirst ⊢
  rcases r with ⟨ok, s1⟩
  cases ok with
  | false => exact hfirst
  | true =>
  dsimp only at hfirst ⊢
  cases hid1 : s1.vmms id with
  | none => exact hfirst
  | some vmm1 =>
  have hlast : (s1.unmapLast id vmm1 e).2.AllSorted := by
    unfold unmapLast
    cases hfound : findVma vmm1.vmas (sub64 e 1) with
    | none => exact hfirst
    | some v =>
      dsimp only
      split
      · exact hfirst.split_found hid1 hfound hl
      · exact hfirst
  dsimp only
  generalize s1.unmapLast id vmm1 e = r at hlast ⊢
  rcases r with ⟨ok, s2⟩
  cases ok with
  | false => exact hlast
  | true =>
  dsimp only at hlast ⊢
  cases hid2 : s2.vmms id with
  | none => exact hlast
  | some vmm2 =>
    obtain ⟨hnext, vmm', hsorted, -, -, hvmms⟩ := unmapLoop_vmms b e
      hid2 (hlast.sorted id vmm2 hid2) (List.Sublist.refl _)
    exact hlast.update (hlast.live_lt hid2) hsorted hvmms hnext

theorem splitIf {c : Prop} [Decidable c] (hid : s.vmms id = some vmm) {v : Vma}
    (hv : v ∈ vmm.vmas) {addr : Nat} (hd : pageSize ∣ addr) :
    (MmState.splitIf c s id vmm v addr).2.AllSorted := by
  unfold MmState.splitIf
  split
  · exact h.split hid hv hd
  · exact h

theorem protectVma (hid : s.vmms id = some vmm) {v : Vma} (hv : v ∈ vmm.vmas)
    (flags : BitVec 32) : (s.protectVma id vmm v flags).AllSorted := by
  have hsorted := h.sorted id vmm hid
  have hnew : { vmm with vmas := assign vmm.vmas v.base fun w =>
      { w with flags := protectFlags v.flags flags } : Vmm }.Sorted := by
    have hshape := hsorted.tidy.shaped v hv
    obtain ⟨A, B, hAB⟩ := append_of_mem hv
    have htidy := hAB ▸ hsorted.tidy
    have hassign := htidy.assign_eq fun w => { w with flags := protectFlags v.flags flags }
    refine ⟨?_, ?_, hsorted.mmapBase⟩
    · simp only [hAB, hassign]
      exact htidy.replace ⟨hshape.base, hshape.size, hshape.pos, hshape.bound⟩ (le_refl _) (le_refl _)
    · simp [hsorted.count, assign]
  have hset : (s.setVmm id _).AllSorted := h.update (h.live_lt hid) hnew rfl rfl
  unfold MmState.protectVma
  dsimp only
  split
  · exact hset.congr rfl
  · exact hset

end

theorem protectLoop {limit : Nat} (hl : pageSize ∣ limit) {flags : BitVec 32} {rounds addr : Nat}
    {r : Int × MmState} (h : s.AllSorted) (hd : pageSize ∣ addr)
    (hloop : MmState.protectLoop id limit flags rounds addr s = some r) : r.2.AllSorted := by
  induction rounds generalizing addr s with
  | zero => simp [MmState.protectLoop] at hloop
  | succ rounds ih =>
    unfold MmState.protectLoop at hloop
    by_cases hlt : addr < limit
    · rw [if_pos hlt] at hloop
      simp only [bind_eq_bind, bind_eq_some_iff] at hloop
      obtain ⟨vmm, hid, hloop⟩ := hloop
      cases hfound : findVma vmm.vmas addr with
      | none =>
        rw [hfound, some.injEq] at hloop
        exact hloop ▸ h
      | some v =>
      rw [hfound] at hloop
      dsimp only at hloop
      obtain ⟨hv, hhas⟩ := (h.sorted id vmm hid).tidy.findVma_eq_some_iff.mp hfound
      have hfirst := h.splitIf (c := v.base < addr) hid hv hd
      rcases hsplit : MmState.splitIf (v.base < addr) s id vmm v addr with ⟨ok, s1⟩
      rw [hsplit] at hloop hfirst
      cases ok with
      | false =>
        dsimp only at hloop hfirst
        rw [some.injEq] at hloop
        exact hloop ▸ hfirst
      | true =>
      dsimp only at hloop hfirst
      simp only [bind_eq_some_iff] at hloop
      obtain ⟨vmm1, hid1, u, hu, hloop⟩ := hloop
      have hsorted1 := hfirst.sorted id vmm1 hid1
      have hmem : u ∈ vmm1.vmas := by
        unfold reload at hu
        by_cases hcut : v.base < addr
        · rw [if_pos hcut] at hu
          exact (hsorted1.tidy.findVma_eq_some_iff.mp hu).1
        · rw [if_neg hcut, some.injEq] at hu
          simp only [MmState.splitIf, if_neg hcut, Prod.mk.injEq, true_and] at hsplit
          rw [← hsplit, hid, some.injEq] at hid1
          exact hu ▸ hid1 ▸ hv
      have hsecond := hfirst.splitIf (c := limit < u.limit) hid1 hmem hl
      rcases hsplit2 : MmState.splitIf (limit < u.limit) s1 id vmm1 u limit with ⟨ok, s2⟩
      rw [hsplit2] at hloop hsecond
      cases ok with
      | false =>
        dsimp only at hloop hsecond
        rw [some.injEq] at hloop
        exact hloop ▸ hsecond
      | true =>
      dsimp only at hloop hsecond
      simp only [bind_eq_some_iff] at hloop
      obtain ⟨vmm2, hid2, w, hw, hloop⟩ := hloop
      have hmem2 : w ∈ vmm2.vmas := List.mem_of_find?_eq_some hw
      have hshape := (hsecond.sorted id vmm2 hid2).tidy.shaped w hmem2
      exact ih (hsecond.protectVma hid2 hmem2 flags) (add64_dvd hshape.base hshape.size) hloop
    · rw [if_neg hlt, some.injEq] at hloop
      exact hloop ▸ h

theorem protect (h : s.AllSorted) {base size : Nat} {flags : BitVec 32} {r : Int × MmState}
    (hprotect : s.vmmProtect id base size flags = some r) : r.2.AllSorted := by
  unfold vmmProtect at hprotect
  cases hid : s.vmms id with
  | none =>
    rw [hid, some.injEq] at hprotect
    exact hprotect ▸ h
  | some vmm =>
  rw [hid] at hprotect
  dsimp only at hprotect
  by_cases hsize : size = 0
  · rw [if_pos hsize, some.injEq] at hprotect
    exact hprotect ▸ h
  · rw [if_neg hsize] at hprotect
    exact h.protectLoop (add64_dvd (alignDown_dvd base) (alignUp_dvd size)) (alignDown_dvd base)
      hprotect

theorem fork (h : s.AllSorted) (parent : Nat) : (s.vmmFork parent).2.AllSorted := by
  cases hparent : s.vmms parent with
  | none =>
    unfold vmmFork
    rwa [hparent]
  | some pvmm =>
  have hsorted := h.sorted parent pvmm hparent
  rcases vmmFork_vmms hparent hsorted with ⟨-, hspaces | hspaces⟩ | ⟨pml4, -, hspaces⟩
  · exact h.congr hspaces
  all_goals obtain ⟨hvmms, hnext⟩ := Prod.mk.inj hspaces
  · exact h.record hvmms (by omega) nofun
  · refine h.record hvmms (by omega) ?_
    rintro _ ⟨⟩
    exact ⟨by omega, hsorted.tidy, hsorted.count, hsorted.mmapBase⟩

end AllSorted

/-! ## Accesses -/

theorem vmmPfHandler_vmms (s : MmState) (id addr : Nat) (code : BitVec 64) :
    (s.vmmPfHandler id addr code).2.spaces = s.spaces := by
  unfold vmmPfHandler populate copyOnWrite
  dsimp only
  repeat' split
  all_goals rfl

theorem store_vmms {addr : Nat} {value : BitVec 64} (h : s.store id addr value = some s') :
    s'.spaces = s.spaces := by
  unfold store at h
  split at h
  · simp at h
  · split at h
    · rw [← some.inj h]
      rfl
    · simp at h

theorem write_vmms (s : MmState) (id addr : Nat) (value : BitVec 64) :
    (s.write id addr value).spaces = s.spaces := by
  unfold write
  cases hstore : s.store id addr value with
  | some t => exact store_vmms hstore
  | none =>
  dsimp only
  generalize hcode : pfWrite ||| pfUser ||| _ = code
  have hfault := s.vmmPfHandler_vmms id addr code
  generalize s.vmmPfHandler id addr code = r at hfault ⊢
  rcases r with ⟨err, t⟩
  dsimp only at hfault ⊢
  split
  · cases hretry : t.store id addr value with
    | none => exact hfault
    | some u => exact (store_vmms hretry).trans hfault
  · exact hfault

/-! ## The VMAs over whole runs -/

/-- Every `vmm_map` is placed where the tree stays tidy: the rounded size is not 0; a range that
is placed by address does not wrap and meets no VMA; and for a range that `vmm_map` places itself
the sum `VMM_USER_START + size` does not wrap. -/
def WellPlaced : MmOp → MmState → Prop
  | .map id base size flags, s =>
    ∀ vmm ∈ s.vmms id, size.toNat ≠ 0 → Placed vmm base.toNat (alignUp size.toNat) flags
  | _, _ => True

theorem AllSorted.step {op : MmOp} (h : s.AllSorted) (hok : WellPlaced op s)
    (hstep : s.step op = some s') : s'.AllSorted := by
  cases op with
  | create =>
    obtain rfl := some.inj hstep
    exact h.create
  | map i base size flags =>
    obtain ⟨r, hr, rfl⟩ := map_eq_some_iff.mp hstep
    exact h.map hok hr
  | unmap i base size =>
    obtain rfl := some.inj hstep
    exact h.unmap i base.toNat size.toNat
  | protect i base size flags =>
    obtain ⟨r, hr, rfl⟩ := map_eq_some_iff.mp hstep
    exact h.protect hr
  | fork i =>
    obtain rfl := some.inj hstep
    exact h.fork i
  | fault i addr code =>
    obtain rfl := some.inj hstep
    exact h.congr (s.vmmPfHandler_vmms i addr.toNat code)
  | write i addr value =>
    obtain rfl := some.inj hstep
    exact h.congr (s.write_vmms i addr.toNat value)
  | destroy i =>
    obtain rfl := some.inj hstep
    exact h.destroy i

/-- In a run whose calls of `vmm_map` are well placed every address space is sorted. -/
theorem AllSorted.of_run {s0 : MmState} (h0 : s0.AllSorted) (hrun : Reaches WellPlaced s0 s) : s.AllSorted :=
  Lapis.Lib.Run.invariant h0 (fun _ _ _ _ h hok hstep => h.step hok hstep) hrun

/-- In every run from a state without address spaces in which each `vmm_map` is well placed, the
VMAs of every address space have no address in common, are page aligned and not empty, and are as
many as `vmas_count` says. -/
theorem vma_run_disjoint {s₀ : MmState} (h₀ : ∀ id, s₀.vmms id = none)
    (hrun : Reaches WellPlaced s₀ s) (hid : s.vmms id = some vmm) : vmm.vmas.Pairwise Vma.Apart ∧
      (∀ v ∈ vmm.vmas, pageSize ∣ v.base ∧ pageSize ∣ v.size ∧ 0 < v.size) ∧
      vmm.vmasCount = vmm.vmas.length := by
  have hstart : s₀.AllSorted := ⟨by simp [h₀], fun i _ => h₀ i⟩
  have hsorted := (hstart.of_run hrun).sorted id vmm hid
  refine ⟨hsorted.tidy.apart, fun v hv => ?_, hsorted.count⟩
  have hshape := hsorted.tidy.shaped v hv
  exact ⟨hshape.base, hshape.size, hshape.pos⟩

/-- In every such run `vmm_fork` makes a new address space that is its parent but for the page table and the
flags, or it fails; no other address space changes. -/
theorem fork_copies_space {s₀ : MmState} (h₀ : ∀ id, s₀.vmms id = none) (hrun : Reaches WellPlaced s₀ s)
    (hid : s.vmms id = some vmm) : ((s.vmmFork id).1 = none ∧ (s.vmmFork id).2.vmms = s.vmms) ∨
      ∃ child pml4, (s.vmmFork id).1 = some child ∧ s.vmms child = none ∧ (s.vmmFork id).2.vmms =
        update s.vmms child (some { vmm with pml4 := pml4, flags := vmmFlagOwnsPml4 }) := by
  have hstart : s₀.AllSorted := ⟨by simp [h₀], fun i _ => h₀ i⟩
  have hall := hstart.of_run hrun
  have hfree := hall.unused s.nextVmm (Nat.le_refl _)
  rcases vmmFork_vmms hid (hall.sorted id vmm hid) with ⟨hnone, hspaces | hspaces⟩ | ⟨pml4, hsome, hspaces⟩
  · exact .inl ⟨hnone, congrArg Prod.fst hspaces⟩
  · refine .inl ⟨hnone, (congrArg Prod.fst hspaces).trans ?_⟩
    rw [← hfree, update_eq_self]
  · exact .inr ⟨s.nextVmm, pml4, hsome, hfree, congrArg Prod.fst hspaces⟩

end MmState

/-! ## Concrete runs -/

theorem Vma.apart_iff_decide (u v : Vma) :
    u.Apart v ↔ u.size = 0 ∨ v.size = 0 ∨ u.base + u.size ≤ v.base ∨ v.base + v.size ≤ u.base := by
  by_cases hu : u.size = 0
  · simp only [hu, true_or, iff_true]
    intro addr
    simp only [Vma.Has]
    omega
  · by_cases hv : v.size = 0
    · simp only [hv, true_or, or_true, iff_true]
      intro addr
      simp only [Vma.Has]
      omega
    · rw [Vma.apart_iff (by omega) (by omega)]
      simp [hu, hv]

instance (u v : Vma) : Decidable (u.Apart v) := decidable_of_iff' _ (Vma.apart_iff_decide u v)

instance (vmm : Vmm) (base size : Nat) (flags : BitVec 32) :
    Decidable (MmState.Placed vmm base size flags) :=
  inferInstanceAs (Decidable (_ ∧ ite _ _ _))

instance : (op : MmOp) → (s : MmState) → Decidable (MmState.WellPlaced op s)
  | .map id base size flags, s =>
    inferInstanceAs (Decidable (∀ vmm ∈ s.vmms id, size.toNat ≠ 0 →
      MmState.Placed vmm base.toNat (alignUp size.toNat) flags))
  | .create, _ | .unmap .., _ | .protect .., _ | .fork .., _ | .fault .., _ | .write .., _
  | .destroy .., _ => .isTrue trivial

/-- A run with a hole punched into a mapping, a split by `vmm_protect` and a fork. -/
def tidyTurns : List MmOp :=
  [.create, .map 0 0x10000 0x4000 (userRw ||| vflagLazy), .map 0 0 0x2000 (userRw ||| vflagLazy),
    .protect 0 0x11000 0x1000 (vflagPresent ||| vflagUser), .unmap 0 0x12000 0x2000, .fork 0]

/-- The runs of `MmState.vma_run_disjoint` are not empty: after `tidyTurns` the child has three
VMAs. -/
theorem vma_run_disjoint_turns : ∃ s vmm, Reaches MmState.WellPlaced (smallMachine 12) s ∧
    s.vmms 1 = some vmm ∧ vmm.vmas.map Vma.base = [0x10000, 0x11000, 0x6fffffffe000] ∧
    vmm.vmas.Pairwise Vma.Apart ∧ vmm.vmasCount = 3 := by
  have hturns : (perform MmState.WellPlaced tidyTurns (smallMachine 12)).map
      (fun s => (s.vmms 1).map fun vmm => vmm.vmas.map Vma.base) =
        some (some [0x10000, 0x11000, 0x6fffffffe000]) := by decide +kernel
  obtain ⟨s, hrun, hview⟩ := Reaches.exists_of_perform _ _ _ hturns
  obtain ⟨vmm, hid, hbases⟩ := map_eq_some_iff.mp hview
  obtain ⟨hapart, -, hcount⟩ := MmState.vma_run_disjoint (fun _ => rfl) hrun hid
  have hlen : vmm.vmas.length = 3 := by
    rw [← length_map Vma.base, hbases]
    rfl
  exact ⟨s, vmm, hrun, hid, hbases, hapart, hcount.trans hlen⟩

/-- An address space with two VMAs is forked. -/
theorem fork_copies_space_turns : ∃ s, Reaches MmState.WellPlaced (smallMachine 12) s ∧
    (s.vmmFork 0).1 = some 1 ∧ s.vmms 1 = none := by
  have hturns : (perform MmState.WellPlaced (tidyTurns.take 3) (smallMachine 12)).map
      (fun s => (s.vmms 0).bind fun _ => (s.vmmFork 0).1) = some (some 1) := by decide +kernel
  obtain ⟨s, hrun, hview⟩ := Reaches.exists_of_perform _ _ _ hturns
  obtain ⟨vmm, hid, hfork⟩ := bind_eq_some_iff.mp hview
  rcases MmState.fork_copies_space (fun _ => rfl) hrun hid with ⟨hnone, -⟩ | ⟨_, _, hsome, hfree, -⟩
  · cases hnone.symm.trans hfork
  · cases hsome.symm.trans hfork
    exact ⟨s, hrun, hfork, hfree⟩

/-- A second mapping at an address inside the first, without `VFLAG_FIXED`. -/
def overlappingTurns : List MmOp :=
  [.create, .map 0 0x10000 0x3000 (userRw ||| vflagLazy),
    .map 0 0x11000 0x1000 (userRw ||| vflagLazy)]

/-- `vmm_map` does not look for an overlap when it is given an address without `VFLAG_FIXED`. -/
theorem vma_run_overlaps : ∃ s vmm, Reaches AnyOp (smallMachine 12) s ∧ s.vmms 0 = some vmm ∧
    ¬ vmm.vmas.Pairwise Vma.Apart := by
  have hturns : (perform AnyOp overlappingTurns (smallMachine 12)).map
      (fun s => (s.vmms 0).map fun vmm => decide (vmm.vmas.Pairwise Vma.Apart)) =
        some (some false) := by decide +kernel
  obtain ⟨s, hrun, hview⟩ := Reaches.exists_of_perform _ _ _ hturns
  obtain ⟨vmm, hid, hfalse⟩ := map_eq_some_iff.mp hview
  exact ⟨s, vmm, hrun, hid, of_decide_eq_false hfalse⟩

end Lapis.Mm
