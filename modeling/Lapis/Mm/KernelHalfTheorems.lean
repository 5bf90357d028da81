/-
Lapis.Mm.KernelHalfTheorems — the upper half of an address space and the kernel's page table.

`pte_alloc` copies the 256 upper entries of the kernel's top table into a new one. From then on
the two share every table below these entries, so a mapping the kernel makes in one of them is seen
everywhere; but an entry of the kernel's top table that is filled or cleared later is not. The
address spaces agree with the kernel as long as no such entry changes while one of them lives
(`kernel_half_shared`). The other conditions concern frames: a mapping that is overwritten or
removed drops a reference of the frame it names, and this frame may not be one the kernel needs.
-/
import Lapis.Mm.HeapTheorems
import Lapis.Mm.PagingTheorems

namespace Lapis.Mm

open Function List Option Lib

/-- The kernel's page table with both halves. -/
def kernelSpace (kpt : Pfn) : Spaces where
  root k := if k = 0 then some kpt else none
  top := 512

theorem root_kernelSpace (kpt : Pfn) : (kernelSpace kpt).root 0 = some kpt := rfl

theorem below_kernelSpace (kpt v : Nat) : Below (kernelSpace kpt).top (pageNo v) := by
  unfold Below pageNo kernelSpace
  dsimp only
  omega

namespace Phys

variable {kpt p : Pfn} {s s' : Phys} {v n : Nat} {flags e : BitVec 64}

/-- The upper entries of the kernel's top table are as they were. -/
def UpperKept (kpt : Pfn) (s s' : Phys) : Prop :=
  ∀ i : Fin 512, 256 ≤ i.val → present (s'.mem kpt i) = present (s.mem kpt i)

/-- The upper entry of the kernel's top table on the way to an address is there. -/
def SlotPresent (kpt : Pfn) (s : Phys) (v : Nat) : Prop :=
  256 ≤ (pml4Index v).val → has (s.mem kpt (pml4Index v)) pflagPresent = true

theorem UpperKept.trans {s1 s2 : Phys} (h1 : UpperKept kpt s s1) (h2 : UpperKept kpt s1 s2) :
    UpperKept kpt s s2 :=
  fun i hi => (h2 i hi).trans (h1 i hi)

theorem UpperKept.slotPresent (h : UpperKept kpt s s') (hslot : SlotPresent kpt s v) :
    SlotPresent kpt s' v := by
  intro hi
  have hold := present_of_has (hslot hi)
  rw [← h _ hi] at hold
  exact (present_eq_some_iff.mp hold).1

/-- Where the entry on the way exists and stays, nothing changes. -/
theorem UpperKept.of_top (htop : TopKept kpt (pageNo v) s s') (hslot : SlotPresent kpt s v)
    (hstay : ∀ i e, present (s.mem kpt i) = some e → present (s'.mem kpt i) = some e) :
    UpperKept kpt s s' := by
  intro i hi
  by_cases hiv : i = topSlot (pageNo v)
  · rw [← pml4Index_eq] at hiv
    subst hiv
    have hold := present_of_has (hslot hi)
    rw [hold, hstay _ _ hold]
  · rw [htop i hiv]

theorem table_root (kpt : Pfn) (mem : Memory) : Table (kernelSpace kpt) mem kpt :=
  ⟨0, [], (inner_closed _).1, Forest.node_nil _ _⟩

theorem WritesLeaf.stays (h : WritesLeaf (kernelSpace kpt) flags s s' 0 (pageNo v) e)
    {i : Fin 512} {e' : BitVec 64} (he : present (s.mem kpt i) = some e') :
    present (s'.mem kpt i) = some e' := by
  obtain ⟨s1, t, hbuilds, ht, -, hmem⟩ := h
  have hne := ne_root hbuilds.quiet.step.tables.separated (root_kernelSpace kpt)
    (inner_path (below_kernelSpace kpt v)) (cons_ne_nil _ _) ht
  rw [hmem, update_of_ne hne]
  exact hbuilds.grows kpt (table_root kpt _) i e' he

/-- An address with a mapped page has its entry in the top table. -/
theorem slot_of_leaf (hleaf : leaf (kernelSpace kpt) s.mem 0 n ≠ none) :
    ∃ e, present (s.mem kpt (topSlot n)) = some e := by
  cases hp : present (s.mem kpt (topSlot n)) with
  | some e => exact ⟨e, rfl⟩
  | none =>
  refine absurd ?_ hleaf
  have hnode : (forest (kernelSpace kpt) s.mem).node 0 (path n) = none := by
    rw [Forest.node]
    change (((present (s.mem kpt (topSlot n))).map leafFrame).bind _) = none
    rw [hp]
    rfl
  rw [leaf, hnode]
  rfl

/-- The table below an upper entry is not removed while another page of it is mapped. -/
theorem UpperKept.unmapPage (h : Tables (kernelSpace kpt) s)
    (hold : ∀ q, frameAt (kernelSpace kpt) s 0 (pageNo v) = some q → ¬ Table (kernelSpace kpt) s.mem q)
    (hother : 256 ≤ (pml4Index v).val → s.translate kpt v = none ∨
      ∃ v', pml4Index v' = pml4Index v ∧ pageNo v' ≠ pageNo v ∧ s.translate kpt v' ≠ none) :
    UpperKept kpt s (s.unmapPage kpt v) := by
  have hroot := root_kernelSpace kpt
  have hn := below_kernelSpace kpt v
  obtain ⟨-, hsets, hclears, htop, -⟩ := unmapPage_spec h hroot hn fun q hq _ => hold q hq
  intro i hi
  by_cases hiv : i = topSlot (pageNo v)
  · rw [← pml4Index_eq] at hiv
    subst hiv
    rcases hother hi with hnone | ⟨v', hv', hne, hmapped⟩
    · rw [translate_eq hroot] at hnone
      rw [unmapPage_of_none hroot hnone]
    rcases hclears with hsame | ⟨s1, t, ht, hmem, hprunes, -⟩
    · rw [hsame]
    -- the other page is still mapped, so the entry on its way is still there
    have hleaf : leaf (kernelSpace kpt) (s.unmapPage kpt v).mem 0 (pageNo v') ≠ none := by
      rwa [hsets 0 _ (below_kernelSpace kpt v'), if_neg fun h => hne h.2, ← translate_eq hroot]
    obtain ⟨e, he⟩ := slot_of_leaf hleaf
    rw [← pml4Index_eq, hv'] at he
    have hnet := ne_root h.separated hroot (inner_path hn) (cons_ne_nil _ _) ht
    have hold := hprunes.present_of he
    rw [hmem, update_of_ne hnet] at hold
    rw [he, hold]
  · rw [htop i hiv]

/-! ## map_mmio -/

/-- The address of a page of an MMIO region. -/
def mmioPage (vaddr i : Nat) : Nat := (vaddr + i * pageSize) % 2 ^ 64

theorem tableFlags_zero : pflagPresent ||| pflagWrite = tableFlags 0 := by decide

theorem mapMmioFrom_spec (h : Tables (kernelSpace kpt) s) (vaddr paddr i n : Nat) :
    Step (kernelSpace kpt) s (mapMmioFrom kpt vaddr paddr i n s) (fun _ i => i) ∧
      ((∀ j, i ≤ j → j < i + n → SlotPresent kpt s (mmioPage vaddr j)) →
        UpperKept kpt s (mapMmioFrom kpt vaddr paddr i n s)) := by
  induction n generalizing i s with
  | zero => exact ⟨(Quiet.refl h).step, fun _ _ _ => rfl⟩
  | succ n ih =>
    have hroot := root_kernelSpace kpt
    have hn := below_kernelSpace kpt (mmioPage vaddr i)
    obtain ⟨x, s1, heq, hbuilds, htop, hx⟩ := leafEntry_spec h hroot hn 0
    have hkept : SlotPresent kpt s (mmioPage vaddr i) → UpperKept kpt s s1 := fun hslot =>
      .of_top htop hslot fun j e he => hbuilds.grows kpt (table_root kpt _) j e he
    rw [mapMmioFrom, tableFlags_zero]
    change _ ∧ _
    rw [show (vaddr + i * pageSize) % 2 ^ 64 = mmioPage vaddr i from rfl, heq]
    rcases hx with ⟨rfl, -⟩ | ⟨t, rfl, ht, -⟩
    · exact ⟨hbuilds.quiet.step, fun hslots => hkept (hslots i (Nat.le_refl i) (by omega))⟩
    dsimp only
    have hstep1 := hbuilds.quiet.step
    obtain ⟨hstep2, -⟩ := setLeaf_spec
      (e := BitVec.ofNat 64 (paddr + i * pageSize) ||| pflagMmio) hstep1.tables hn ht
    have hne := ne_root hstep1.tables.separated hroot (inner_path hn) (cons_ne_nil _ _) ht
    set s2 := s1.writeEntry t (slot (pageNo (mmioPage vaddr i)))
      (BitVec.ofNat 64 (paddr + i * pageSize) ||| pflagMmio)
    have hkept2 : SlotPresent kpt s (mmioPage vaddr i) → UpperKept kpt s s2 := by
      intro hslot j hj
      rw [← hkept hslot j hj]
      exact congrArg present (congrFun (update_of_ne hne _ _) j)
    obtain ⟨hrest, hupper⟩ := ih hstep2.tables (i + 1)
    refine ⟨(hstep1.trans hstep2 fun _ _ h => h).trans hrest fun _ _ h => h, fun hslots => ?_⟩
    have hslot := hslots i (Nat.le_refl i) (by omega)
    refine (hkept2 hslot).trans (hupper fun j hj hlt => ?_)
    exact (hkept2 hslot).slotPresent (hslots j (by omega) (by omega))

/-- A walk starts at the table the entry points to, whatever top table the entry is in. -/
theorem leafEntry_shared (hsame : present (s.mem p (pml4Index v)) = present (s.mem kpt (pml4Index v)))
    (hhas : has (s.mem kpt (pml4Index v)) pflagPresent = true) (flags : BitVec 64) :
    s.leafEntry p v flags = s.leafEntry kpt v flags := by
  rw [present_of_has hhas] at hsame
  rw [leafEntry, leafEntry, pteNext_of_present hsame, pteNext_of_present (present_of_has hhas)]

/-- The address space with top table `p` has the kernel's upper half. -/
def SharesUpper (kpt p : Pfn) (s : Phys) : Prop :=
  ∀ i : Fin 512, 256 ≤ i.val → present (s.mem p i) = present (s.mem kpt i)

theorem SharesUpper.translate (h : SharesUpper kpt p s) (hv : 256 ≤ (pml4Index v).val) :
    s.translate p v = s.translate kpt v := by
  have hsame := h _ hv
  have hnext : s.pteNext p (pml4Index v) 0 = s.pteNext kpt (pml4Index v) 0 := by
    cases hp : present (s.mem kpt (pml4Index v)) with
    | some e =>
      rw [pteNext_of_present hp, pteNext_of_present (hsame.trans hp)]
    | none =>
    have hnot : ∀ t, present (s.mem t (pml4Index v)) = none → s.pteNext t (pml4Index v) 0 = (none, s) := by
      intro t ht
      have hhas : ¬ has (s.mem t (pml4Index v)) pflagPresent = true := by
        intro hhas
        simp [present_of_has hhas] at ht
      simp [pteNext, hhas]
    rw [hnot kpt hp, hnot p (hsame.trans hp)]
  rw [Phys.translate, Phys.translate, leafEntry, leafEntry, hnext]

theorem SharesUpper.step {f : Pfn → PageInfo → PageInfo} (h : SharesUpper kpt p s)
    (hstep : Step (kernelSpace kpt) s s' f) (hp : Held (kernelSpace kpt) s p)
    (hf : (f p (s.pmm.info p)).free = false) (hkept : UpperKept kpt s s') : SharesUpper kpt p s' := by
  intro i hi
  rw [(hstep.keep p hp hf).2.2, h i hi, hkept i hi]

/-- Mapping MMIO pages in a shared upper half is mapping them in the kernel's. -/
theorem mapMmioFrom_shared (h : Tables (kernelSpace kpt) s) (hp : Held (kernelSpace kpt) s p)
    (hshares : SharesUpper kpt p s) (vaddr paddr i n : Nat)
    (hslots : ∀ j, i ≤ j → j < i + n → 256 ≤ (pml4Index (mmioPage vaddr j)).val ∧
      has (s.mem kpt (pml4Index (mmioPage vaddr j))) pflagPresent = true) :
    mapMmioFrom p vaddr paddr i n s = mapMmioFrom kpt vaddr paddr i n s := by
  induction n generalizing i s with
  | zero => rfl
  | succ n ih =>
    obtain ⟨hhigh, hhas⟩ := hslots i (Nat.le_refl i) (by omega)
    have hwalk := leafEntry_shared (hshares _ hhigh) hhas (pflagPresent ||| pflagWrite)
    have hone := mapMmioFrom_spec h vaddr paddr i 1
    rw [mapMmioFrom, mapMmioFrom, show (vaddr + i * pageSize) % 2 ^ 64 = mmioPage vaddr i from rfl, hwalk]
    rw [mapMmioFrom, show (vaddr + i * pageSize) % 2 ^ 64 = mmioPage vaddr i from rfl] at hone
    generalize s.leafEntry kpt (mmioPage vaddr i) (pflagPresent ||| pflagWrite) = r at hone ⊢
    obtain ⟨_ | ⟨t, j⟩, s1⟩ := r
    · rfl
    dsimp only [mapMmioFrom] at hone ⊢
    obtain ⟨hstep, hkept⟩ := hone
    have hkept := hkept fun j hj hlt => by
      obtain rfl : j = i := by omega
      exact fun _ => hhas
    refine ih hstep.tables (hstep.keep p hp hp.1).1
      (hshares.step hstep hp hp.1 hkept) (i + 1) fun j hj hlt => ?_
    obtain ⟨hhigh, hhas⟩ := hslots j (by omega) (by omega)
    exact ⟨hhigh, hkept.slotPresent (fun _ => hhas) hhigh⟩

end Phys

namespace Phys

variable {kpt p : Pfn} {s : Phys}

/-- The upper half of a top table over an empty lower half. -/
def upperOf (s : Phys) (kpt : Pfn) (i : Fin 512) : BitVec 64 :=
  if 256 ≤ i.val then s.mem kpt i else 0

/-- The loop of `pte_alloc` over the MMIO regions. -/
def mapRegions (pt : Pfn) (regions : List MmioRegion) (s : Phys) : Phys :=
  regions.foldl (fun s r => s.mapMmio pt r.vaddr r.paddr r.npages) s

theorem pteAlloc_eq (hkernel : s.kernelPt = some kpt) (hne : kpt ≠ p) {m : Pmm}
    (heq : s.pmmAllocPage = (some p, { s with pmm := m })) :
    s.pteAlloc = (some p, mapRegions p s.mmioRegions
      { s with pmm := m, mem := update s.mem p (s.upperOf kpt) }) := by
  have hhalf : (Phys.zeroPage { s with pmm := m } p).kernelHalf = s.upperOf kpt := by
    funext i
    unfold kernelHalf zeroPage upperOf
    dsimp only
    rw [hkernel]
    dsimp only
    rw [update_of_ne hne]
  rw [pteAlloc, heq]
  dsimp only
  rw [hhalf, zeroPage, update_idem]
  rfl

end Phys

/-! ## Runs -/

/-- The operations: address spaces are created, and the kernel's page table changes. -/
inductive KernelOp
  | create
  | regMmio (vaddr paddr npages : UInt64)
  | mapMmio (vaddr paddr npages : UInt64)
  | mapPaddr (vaddr paddr : UInt64) (flags : BitVec 64)
  | mapPage (vaddr : UInt64) (page : Pfn) (flags : BitVec 64)
  | unmapPage (vaddr : UInt64)

namespace MmState

open Phys

/-- The state after an operation, where `kpt` is the kernel's page table. -/
def kernelStep (kpt : Pfn) (s : MmState) : KernelOp → MmState
  | .create => s.vmmCreate.2
  | .regMmio vaddr paddr npages => s.regKernelMmio vaddr.toNat paddr.toNat npages.toNat
  | .mapMmio vaddr paddr npages =>
    s.modPhys (·.mapMmio kpt vaddr.toNat paddr.toNat npages.toNat)
  | .mapPaddr vaddr paddr flags => s.modPhys (·.mapPaddr kpt vaddr.toNat paddr.toNat flags)
  | .mapPage vaddr page flags => s.modPhys (·.mapPage kpt vaddr.toNat page flags)
  | .unmapPage vaddr => s.modPhys (·.unmapPage kpt vaddr.toNat)

/-- An address space is alive. -/
def Live (s : MmState) : Prop := ∃ id, s.vmms id ≠ none

/-- The frame is a top table of an address space, a table of the kernel or a page of the heap. -/
def InUse (kpt : Pfn) (s : MmState) (q : Pfn) : Prop :=
  (∃ id vmm, s.vmms id = some vmm ∧ vmm.pml4 = q) ∨ Table (kernelSpace kpt) s.phys.mem q ∨
    q ∈ s.heap.slabs

/-- The mapping the kernel has at an address does not name a frame in use. -/
def Droppable (kpt : Pfn) (s : MmState) (v : Nat) : Prop :=
  ∀ e, s.phys.translate kpt v = some e → ¬ InUse kpt s (leafFrame e)

/-- The condition on operations. -/
def KernelOk (kpt : Pfn) : KernelOp → MmState → Prop
  | .create, s =>
    -- the MMIO regions lie in upper slots that the kernel's page table has
    ∀ r ∈ s.phys.mmioRegions, ∀ i < r.npages,
      256 ≤ (pml4Index (mmioPage (alignDown r.vaddr) i)).val ∧
        has (s.phys.mem kpt (pml4Index (mmioPage (alignDown r.vaddr) i))) pflagPresent = true
  | .regMmio _ _ _, _ => True
  | .mapMmio vaddr _ npages, s =>
    s.Live → ∀ i < npages.toNat, SlotPresent kpt s.phys (mmioPage (alignDown vaddr.toNat) i)
  | .mapPaddr vaddr _ _, s =>
    Droppable kpt s vaddr.toNat ∧ (s.Live → SlotPresent kpt s.phys vaddr.toNat)
  | .mapPage vaddr page _, s =>
    Droppable kpt s vaddr.toNat ∧ (s.Live → SlotPresent kpt s.phys vaddr.toNat) ∧
      -- the page is the caller's, who has a reference besides that of a mapping it replaces
      page ≤ s.phys.pmm.maxPfn ∧ Held (kernelSpace kpt) s.phys page ∧
      ∀ e, s.phys.translate kpt vaddr.toNat = some e → leafFrame e = page →
        (s.phys.pmm.info page).reserved = true ∨ 2 ≤ (s.phys.pmm.info page).refcount
  | .unmapPage vaddr, s =>
    Droppable kpt s vaddr.toNat ∧ (s.Live → 256 ≤ (pml4Index vaddr.toNat).val →
      -- another page below the same upper entry is mapped
      s.phys.translate kpt vaddr.toNat = none ∨
        ∃ v', pml4Index v' = pml4Index vaddr.toNat ∧ pageNo v' ≠ pageNo vaddr.toNat ∧
          s.phys.translate kpt v' ≠ none)

/-- The states reached from `s₀` by operations that meet the condition. -/
def KernelReaches (kpt : Pfn) (s₀ s : MmState) : Prop :=
  Lib.Run (fun _ op s => some (kernelStep kpt s op)) (KernelOk kpt) s₀ s

/-- The kernel has a page table of its own, and there is no address space yet. -/
structure KernelBooted (kpt : Pfn) (s : MmState) : Prop where
  tables : Tables (kernelSpace kpt) s.phys
  kernelPt : s.phys.kernelPt = some kpt
  slabs : Slabs (kernelSpace kpt) s
  vmms : ∀ id, s.vmms id = none

/-- What holds in every state: the address spaces have the kernel's upper half, and their top
tables are frames of their own. -/
structure Shares (kpt : Pfn) (s : MmState) : Prop where
  tables : Tables (kernelSpace kpt) s.phys
  kernelPt : s.phys.kernelPt = some kpt
  slabs : Slabs (kernelSpace kpt) s
  held : ∀ id vmm, s.vmms id = some vmm → Held (kernelSpace kpt) s.phys vmm.pml4
  apart : ∀ id vmm, s.vmms id = some vmm → vmm.pml4 ∉ s.heap.slabs
  upper : ∀ id vmm, s.vmms id = some vmm → SharesUpper kpt vmm.pml4 s.phys

variable {kpt : Pfn} {s s' : MmState} {f : Pfn → PageInfo → PageInfo}

/-- A step of the kernel that frees no frame in use and keeps the upper entries. -/
theorem Shares.modPhys (h : Shares kpt s) {phys : Phys}
    (hstep : Step (kernelSpace kpt) s.phys phys f)
    (hf : ∀ q, Held (kernelSpace kpt) s.phys q → InUse kpt s q → (f q (s.phys.pmm.info q)).free = false)
    (hupper : s.Live → UpperKept kpt s.phys phys) :
    Shares kpt { s with phys := phys } := by
  have hroot : ∀ id vmm, s.vmms id = some vmm → (f vmm.pml4 (s.phys.pmm.info vmm.pml4)).free = false :=
    fun id vmm hvmm => hf _ (h.held id vmm hvmm) (.inl ⟨id, vmm, hvmm, rfl⟩)
  refine ⟨hstep.tables, hstep.kernelPt.trans h.kernelPt, ⟨h.slabs.nodup, fun q hq => ?_⟩,
    fun id vmm hvmm => ?_, h.apart, fun id vmm hvmm => ?_⟩
  · obtain ⟨hheld, hle⟩ := h.slabs.held q hq
    exact ⟨(hstep.keep q hheld (hf q hheld (.inr (.inr hq)))).1, hstep.maxPfn.symm ▸ hle⟩
  · exact (hstep.keep _ (h.held id vmm hvmm) (hroot id vmm hvmm)).1
  · exact (h.upper id vmm hvmm).step hstep (h.held id vmm hvmm) (hroot id vmm hvmm)
      (hupper ⟨id, by rw [hvmm]; exact some_ne_none vmm⟩)

/-- A dropped frame is none in use. -/
theorem Droppable.keep {v : Nat} (h : Droppable kpt s v) {q : Pfn} (hq : InUse kpt s q) :
    dropAt s.phys.pmm.maxPfn (frameAt (kernelSpace kpt) s.phys 0 (pageNo v)) q
      (s.phys.pmm.info q) = s.phys.pmm.info q := by
  refine dropAt_of_ne (fun hframe => ?_) _
  obtain ⟨e, he, rfl⟩ := map_eq_some_iff.mp hframe
  exact h e ((translate_eq (root_kernelSpace kpt)).trans he) hq

theorem Droppable.not_table {v : Nat} (h : Droppable kpt s v) {q : Pfn}
    (hq : frameAt (kernelSpace kpt) s.phys 0 (pageNo v) = some q) :
    ¬ Table (kernelSpace kpt) s.phys.mem q := by
  obtain ⟨e, he, rfl⟩ := map_eq_some_iff.mp hq
  exact fun ht => h e ((translate_eq (root_kernelSpace kpt)).trans he) (.inr (.inl ht))

section

variable (h : Shares kpt s)

include h

theorem Shares.mapMmio {vaddr npages : Nat}
    (hslots : s.Live → ∀ i < npages, SlotPresent kpt s.phys (mmioPage (alignDown vaddr) i))
    (paddr : Nat) : Shares kpt (s.modPhys (·.mapMmio kpt vaddr paddr npages)) := by
  obtain ⟨hstep, hupper⟩ :=
    mapMmioFrom_spec h.tables (alignDown vaddr) (alignDown paddr) 0 npages
  exact h.modPhys hstep (fun q hheld _ => hheld.1)
    fun hlive => hupper fun j _ hj => hslots hlive j (by omega)

theorem Shares.mapPaddr {v : Nat} (hdrop : Droppable kpt s v)
    (hslot : s.Live → SlotPresent kpt s.phys v) (paddr : Nat) (flags : BitVec 64) :
    Shares kpt (s.modPhys (·.mapPaddr kpt v paddr flags)) := by
  obtain ⟨htop, hmap⟩ := mapPaddr_spec h.tables (root_kernelSpace kpt) (below_kernelSpace kpt v)
    (fun _ hq _ => hdrop.not_table hq) paddr flags
  rcases hmap with ⟨hbuilds, -⟩ | ⟨hstep, hwrites⟩
  · exact h.modPhys hbuilds.quiet.step (fun q hheld _ => hheld.1) fun hlive =>
      .of_top htop (hslot hlive) fun j e he => hbuilds.grows kpt (table_root kpt _) j e he
  · exact h.modPhys hstep (fun q hheld hq => by rw [hdrop.keep hq]; exact hheld.1) fun hlive =>
      .of_top htop (hslot hlive) fun _ _ => hwrites.stays

theorem Shares.mapPage {v : Nat} (hdrop : Droppable kpt s v)
    (hslot : s.Live → SlotPresent kpt s.phys v) {page : Pfn} (hle : page ≤ s.phys.pmm.maxPfn)
    (hheld : Held (kernelSpace kpt) s.phys page)
    (hown : ∀ e, s.phys.translate kpt v = some e → leafFrame e = page →
      (s.phys.pmm.info page).reserved = true ∨ 2 ≤ (s.phys.pmm.info page).refcount)
    (flags : BitVec 64) : Shares kpt (s.modPhys (·.mapPage kpt v page flags)) := by
  have hstay : (dropAt s.phys.pmm.maxPfn (frameAt (kernelSpace kpt) s.phys 0 (pageNo v)) page
      (s.phys.pmm.info page)).free = false := by
    by_cases hframe : frameAt (kernelSpace kpt) s.phys 0 (pageNo v) = some page
    · obtain ⟨e, he, hpage⟩ := map_eq_some_iff.mp hframe
      rw [hframe, dropAt_self hle]
      exact PageInfo.free_dropped hheld.1
        (hown e ((translate_eq (root_kernelSpace kpt)).trans he) hpage)
    · rw [dropAt_of_ne hframe]
      exact hheld.1
  obtain ⟨htop, hmap⟩ := mapPage_spec h.tables (root_kernelSpace kpt) (below_kernelSpace kpt v)
    (fun _ hq _ => hdrop.not_table hq) hheld hle hstay flags
  rcases hmap with ⟨hbuilds, -⟩ | ⟨hstep, -, hwrites, -⟩
  · exact h.modPhys hbuilds.quiet.step (fun q hheld _ => hheld.1) fun hlive =>
      .of_top htop (hslot hlive) fun j e he => hbuilds.grows kpt (table_root kpt _) j e he
  refine h.modPhys hstep (fun q hheld hq => ?_) fun hlive =>
    .of_top htop (hslot hlive) fun _ _ => hwrites.stays
  rw [hdrop.keep hq]
  by_cases hqp : some page = some q
  · obtain rfl := some.inj hqp
    rw [on_self]
    exact PageInfo.free_taken hheld.1
  · rw [on_of_ne hqp]
    exact hheld.1

theorem Shares.unmapPage {v : Nat} (hdrop : Droppable kpt s v)
    (hother : s.Live → 256 ≤ (pml4Index v).val → s.phys.translate kpt v = none ∨
      ∃ v', pml4Index v' = pml4Index v ∧ pageNo v' ≠ pageNo v ∧ s.phys.translate kpt v' ≠ none) :
    Shares kpt (s.modPhys (·.unmapPage kpt v)) := by
  have hold := fun q => hdrop.not_table (q := q)
  obtain ⟨hstep, -⟩ :=
    unmapPage_spec h.tables (root_kernelSpace kpt) (below_kernelSpace kpt v) fun q hq _ => hold q hq
  exact h.modPhys hstep (fun q hheld hq => by rw [hdrop.keep hq]; exact hheld.1)
    fun hlive => .unmapPage h.tables hold (hother hlive)

/-! ## The heap and new address spaces -/

/-- A free frame is handed out. -/
theorem Shares.allocates {p : Pfn} {x : Fin 512 → BitVec 64}
    (halloc : Allocates (kernelSpace kpt) s.phys s'.phys p x) (hvmms : s'.vmms = s.vmms)
    (hslabs : Slabs (kernelSpace kpt) s')
    (hmem : ∀ q ∈ s'.heap.slabs, q ∈ s.heap.slabs ∨ q = p) : Shares kpt s' := by
  have hne : ∀ q, Held (kernelSpace kpt) s.phys q → q ≠ p := by
    rintro q hq rfl
    have := hq.1
    rw [halloc.free] at this
    exact absurd this (by decide)
  have hkpt : kpt ≠ p := by
    rintro rfl
    exact not_table_of_free h.tables halloc.free (table_root _ _)
  refine ⟨halloc.tables, halloc.kernelPt.trans h.kernelPt, hslabs, fun id vmm hvmm => ?_,
    fun id vmm hvmm hin => ?_, fun id vmm hvmm i hi => ?_⟩
  · rw [hvmms] at hvmm
    exact (halloc.held _).mpr (.inl (h.held id vmm hvmm))
  · rw [hvmms] at hvmm
    rcases hmem _ hin with hold | hp
    · exact h.apart id vmm hvmm hold
    · exact hne _ (h.held id vmm hvmm) hp
  · rw [hvmms] at hvmm
    rw [halloc.mem, update_of_ne hkpt, update_of_ne (hne _ (h.held id vmm hvmm))]
    exact h.upper id vmm hvmm i hi

theorem Shares.kzalloc : Shares kpt s.kzalloc.2 := by
  have hslabs := h.slabs.kzalloc h.tables
  have hvmms := (Prod.mk.inj s.kzalloc_spaces).1
  obtain ⟨hmem, hcases⟩ := kzalloc_cases h.tables
  generalize s.kzalloc.2 = s' at *
  rcases hcases with ⟨hquiet, heq⟩ | ⟨p, halloc, heq⟩
  · have := h.modPhys hquiet.step (fun q hheld _ => hheld.1) fun _ i _ => by rw [hmem]
    refine ⟨this.tables, this.kernelPt, hslabs, ?_, ?_, ?_⟩
    · rw [hvmms]
      exact this.held
    · rw [hvmms, heq]
      exact this.apart
    · rw [hvmms]
      exact this.upper
  · refine h.allocates halloc hvmms hslabs fun q hq => ?_
    rw [heq] at hq
    exact (mem_cons.mp hq).symm

theorem Shares.kfree : Shares kpt s.kfree := by
  have hslabs := h.slabs.kfree h.tables
  have hvmms := kfree_vmms s
  have hcases := kfree_cases h.tables h.slabs
  generalize s.kfree = s' at *
  rcases hcases with ⟨hphys, heq⟩ | ⟨p, hp, hstep, hmem, heq⟩
  · refine ⟨hphys ▸ h.tables, hphys ▸ h.kernelPt, hslabs, ?_, ?_, ?_⟩
    · rw [hvmms, hphys]
      exact h.held
    · rw [hvmms, heq]
      exact h.apart
    · rw [hvmms, hphys]
      exact h.upper
  · have hne : ∀ id vmm, s.vmms id = some vmm → some p ≠ some vmm.pml4 := by
      intro id vmm hvmm heq
      exact h.apart id vmm hvmm (some.inj heq ▸ hp)
    refine ⟨hstep.tables, hstep.kernelPt.trans h.kernelPt, hslabs, fun id vmm hvmm => ?_,
      fun id vmm hvmm hin => ?_, fun id vmm hvmm i hi => ?_⟩
    · rw [hvmms] at hvmm
      have hheld := h.held id vmm hvmm
      exact (hstep.keep _ hheld (by rw [on_of_ne (hne id vmm hvmm)]; exact hheld.1)).1
    · rw [hvmms] at hvmm
      rw [heq] at hin
      exact h.apart id vmm hvmm (mem_of_mem_erase hin)
    · rw [hvmms] at hvmm
      rw [hmem]
      exact h.upper id vmm hvmm i hi

/-- The MMIO regions are mapped in a new address space, which is to say in the kernel's upper
half. -/
theorem Shares.mmioRegions {id : Nat} {vmm : Vmm} (hvmm : s.vmms id = some vmm)
    (regions : List MmioRegion) (hslots : ∀ r ∈ regions, ∀ i < r.npages,
      256 ≤ (pml4Index (mmioPage (alignDown r.vaddr) i)).val ∧
        has (s.phys.mem kpt (pml4Index (mmioPage (alignDown r.vaddr) i))) pflagPresent = true) :
    Shares kpt { s with phys := mapRegions vmm.pml4 regions s.phys } := by
  induction regions generalizing s with
  | nil => exact h
  | cons r regions ih =>
    have hr := hslots r mem_cons_self
    have hsame : s.phys.mapMmio vmm.pml4 r.vaddr r.paddr r.npages =
        s.phys.mapMmio kpt r.vaddr r.paddr r.npages :=
      mapMmioFrom_shared h.tables (h.held id vmm hvmm) (h.upper id vmm hvmm) _ _ 0 r.npages
        fun j _ hj => hr j (by omega)
    have hkept : UpperKept kpt s.phys (s.phys.mapMmio kpt r.vaddr r.paddr r.npages) :=
      (mapMmioFrom_spec h.tables _ _ 0 r.npages).2 fun j _ hj _ => (hr j (by omega)).2
    rw [mapRegions, foldl_cons, hsame]
    have hnext := h.mapMmio (fun _ i hi _ => (hr i hi).2) r.paddr
    refine ih (s := s.modPhys (·.mapMmio kpt r.vaddr r.paddr r.npages)) hnext hvmm ?_
    intro r' hr' i hi
    obtain ⟨hhigh, hhas⟩ := hslots r' (mem_cons_of_mem r hr') i hi
    exact ⟨hhigh, hkept.slotPresent (fun _ => hhas) hhigh⟩

/-- A new address space whose top table has a copy of the kernel's upper half and nothing else. -/
theorem Shares.newSpace {p : Pfn} {phys : Phys}
    (hnew : Allocates (kernelSpace kpt) s.phys phys p (s.phys.upperOf kpt)) {vmm : Vmm}
    (hvmm : vmm.pml4 = p) : Shares kpt { s with
      phys := phys, nextVmm := s.nextVmm + 1, vmms := update s.vmms s.nextVmm (some vmm) } := by
  have hne : kpt ≠ p := by
    rintro rfl
    exact not_table_of_free h.tables hnew.free (table_root _ _)
  have hslab : p ∉ s.heap.slabs := by
    intro hp
    have := (h.slabs.held p hp).1.1
    rw [hnew.free] at this
    exact absurd this (by decide)
  have hslabs : Slabs (kernelSpace kpt) { s with phys := phys } :=
    ⟨h.slabs.nodup, fun q hq => ⟨(hnew.held q).mpr (.inl (h.slabs.held q hq).1),
      hnew.maxPfn.symm ▸ (h.slabs.held q hq).2⟩⟩
  have hold : Shares kpt { s with phys := phys } :=
    h.allocates hnew rfl hslabs fun q hq => .inl hq
  have hcases : ∀ id v, update s.vmms s.nextVmm (some vmm) id = some v → v = vmm ∨ s.vmms id = some v := by
    intro id v hv
    by_cases hid : id = s.nextVmm
    · rw [hid, update_self] at hv
      exact .inl (some.inj hv).symm
    · rw [update_of_ne hid] at hv
      exact .inr hv
  refine ⟨hold.tables, hold.kernelPt, ⟨hslabs.nodup, hslabs.held⟩, fun id v hv => ?_,
    fun id v hv => ?_, fun id v hv => ?_⟩
  · rcases hcases id v hv with rfl | hv
    · rw [hvmm]
      exact (hnew.held p).mpr (.inr rfl)
    · exact hold.held id v hv
  · rcases hcases id v hv with rfl | hv
    · rwa [hvmm]
    · exact hold.apart id v hv
  · rcases hcases id v hv with rfl | hv
    · intro i hi
      rw [hvmm, hnew.mem, update_self, update_of_ne hne, upperOf, if_pos hi]
    · exact hold.upper id v hv

theorem Shares.vmmCreate (hok : KernelOk kpt .create s) : Shares kpt s.vmmCreate.2 := by
  have h1 := h.kzalloc
  have hslots : KernelOk kpt .create s.kzalloc.2 := by
    intro r hr i hi
    rw [kzalloc_mmioRegions] at hr
    rw [(kzalloc_cases h.tables).1]
    exact hok r hr i hi
  unfold MmState.vmmCreate
  generalize s.kzalloc = r at h1 hslots ⊢
  obtain ⟨_ | _, t⟩ := r
  · exact h1
  dsimp only at h1 hslots ⊢
  rcases pmmAllocPage_cases h1.tables with ⟨phys, heq, hquiet, hmem, -⟩ | ⟨p, m, heq, halloc⟩
  · have hnone : t.phys.pteAlloc = (none, phys) := by rw [pteAlloc, heq]
    rw [hnone]
    exact (h1.modPhys hquiet.step (fun q hheld _ => hheld.1) fun _ i _ => by rw [hmem]).kfree
  have hnew := halloc (t.phys.upperOf kpt)
  have hne : kpt ≠ p := by
    rintro rfl
    exact not_table_of_free h1.tables hnew.free (table_root _ _)
  rw [pteAlloc_eq h1.kernelPt hne heq]
  dsimp only
  -- the regions are mapped in the copy of the upper half
  have hspace : ∀ vmm : Vmm, vmm.pml4 = p → Shares kpt { t with
      phys := mapRegions p t.phys.mmioRegions
        { t.phys with pmm := m, mem := update t.phys.mem p (t.phys.upperOf kpt) }
      nextVmm := t.nextVmm + 1
      vmms := update t.vmms t.nextVmm (some vmm) } := by
    intro vmm hvmm
    have := (h1.newSpace hnew hvmm).mmioRegions
      (update_self t.nextVmm (some vmm) t.vmms) t.phys.mmioRegions ?_
    · rwa [hvmm] at this
    intro r hr i hi
    obtain ⟨hhigh, hhas⟩ := hslots r hr i hi
    refine ⟨hhigh, ?_⟩
    change has (update t.phys.mem p (t.phys.upperOf kpt) kpt _) pflagPresent = true
    rwa [update_of_ne hne]
  exact hspace _ rfl

theorem Shares.regKernelMmio (vaddr paddr npages : Nat) :
    Shares kpt (s.regKernelMmio vaddr paddr npages) := by
  have h1 := h.kzalloc
  unfold MmState.regKernelMmio
  generalize s.kzalloc = r at h1 ⊢
  obtain ⟨_ | _, t⟩ := r
  · exact h1
  · have htables := h1.tables
    exact ⟨⟨htables.ok, htables.small, htables.separated, htables.table⟩, h1.kernelPt,
      ⟨h1.slabs.nodup, h1.slabs.held⟩, h1.held, h1.apart, h1.upper⟩

theorem Shares.kernelStep {op : KernelOp} (hok : KernelOk kpt op s) : Shares kpt (s.kernelStep kpt op) := by
  cases op with
  | create => exact h.vmmCreate hok
  | regMmio vaddr paddr npages => exact h.regKernelMmio _ _ _
  | mapMmio vaddr paddr npages => exact h.mapMmio hok _
  | mapPaddr vaddr paddr flags => exact h.mapPaddr hok.1 hok.2 _ flags
  | mapPage vaddr page flags =>
    obtain ⟨hdrop, hslot, hle, hheld, hown⟩ := hok
    exact h.mapPage hdrop hslot hle hheld hown flags
  | unmapPage vaddr => exact h.unmapPage hok.1 hok.2

end

theorem KernelBooted.shares (h : KernelBooted kpt s) : Shares kpt s := by
  have hnone : ∀ {P : Nat → Vmm → Prop} id vmm, s.vmms id = some vmm → P id vmm := by
    intro P id vmm hvmm
    simp [h.vmms id] at hvmm
  exact ⟨h.tables, h.kernelPt, h.slabs, hnone, hnone, hnone⟩

/-- Every address space translates the upper half as the kernel does. -/
theorem kernel_half_shared {s₀ : MmState} (h₀ : KernelBooted kpt s₀) (hrun : KernelReaches kpt s₀ s) :
    s.phys.kernelPt = some kpt ∧ ∀ id vmm, s.vmms id = some vmm → ∀ v < 2 ^ 64, 256 ≤ (pml4Index v).val →
        s.phys.translate vmm.pml4 v = s.phys.translate kpt v := by
  have h : Shares kpt s := by
    refine Lib.Run.invariant h₀.shares (fun s s' op _ hs hok hstep => ?_) hrun
    obtain rfl := some.inj hstep
    exact hs.kernelStep hok
  exact ⟨h.kernelPt, fun id vmm hvmm v _ hv => (h.upper id vmm hvmm).translate hv⟩

/-! ## Two runs -/

theorem smallMachine_booted : KernelBooted 1 (smallMachine 9) := by
  refine ⟨⟨smallPmm_ok 9, by decide +kernel, ?_, ?_⟩, rfl, ⟨nodup_nil, nofun⟩, fun _ => rfl⟩
  · exact separated_of_empty rfl fun _ _ => rfl
  · rintro t ⟨k, p, hp, ht⟩
    obtain ⟨-, -, rfl⟩ := node_of_empty rfl (fun _ _ => rfl) hp ht
    decide +kernel

/-- The first page of the upper half. -/
def upperStart : UInt64 := 0xFFFF800000000000

/-- The kernel maps a page of the upper half before an address space is created. -/
def mappedBefore : MmState :=
  ((smallMachine 9).kernelStep 1 (.mapPaddr upperStart 0x9000 pflagWrite)).kernelStep 1 .create

/-- The kernel maps its first page of the upper half after an address space was created. -/
def mappedAfter : MmState :=
  ((smallMachine 9).kernelStep 1 .create).kernelStep 1 (.mapPaddr upperStart 0x9000 pflagWrite)

theorem KernelReaches.next {s0 : MmState} (hrun : KernelReaches kpt s0 s) {op : KernelOp}
    (hok : KernelOk kpt op s) : KernelReaches kpt s0 (s.kernelStep kpt op) :=
  @Lib.Run.next _ _ _ _ _ _ _ _ 0 hrun hok rfl

theorem kernel_half_shared_small : ∃ vmm, mappedBefore.vmms 0 = some vmm ∧
      mappedBefore.phys.translate 1 upperStart.toNat ≠ none ∧
      mappedBefore.phys.translate vmm.pml4 upperStart.toNat =
        mappedBefore.phys.translate 1 upperStart.toNat := by
  have hinit : KernelReaches 1 (smallMachine 9) (smallMachine 9) := .init
  have hfirst : KernelOk 1 (.mapPaddr upperStart 0x9000 pflagWrite) (smallMachine 9) := by
    have hnone : (smallMachine 9).phys.translate 1 upperStart.toNat = none := by decide +kernel
    refine ⟨fun e he => ?_, fun hlive => ?_⟩
    · simp [hnone] at he
    · obtain ⟨id, hid⟩ := hlive
      exact absurd rfl hid
  have hsecond : KernelOk 1 .create
      ((smallMachine 9).kernelStep 1 (.mapPaddr upperStart 0x9000 pflagWrite)) := by
    have hnil : ((smallMachine 9).kernelStep 1
        (.mapPaddr upperStart 0x9000 pflagWrite)).phys.mmioRegions = [] := by decide +kernel
    intro r hr
    simp [hnil] at hr
  have hrun : KernelReaches 1 (smallMachine 9) mappedBefore := (hinit.next hfirst).next hsecond
  have hsome : (mappedBefore.vmms 0).isSome = true := by decide +kernel
  obtain ⟨vmm, hvmm⟩ := isSome_iff_exists.mp hsome
  exact ⟨vmm, hvmm, by decide +kernel, (kernel_half_shared smallMachine_booted hrun).2 0 vmm hvmm
    upperStart.toNat (by decide +kernel) (by decide +kernel)⟩

theorem kernel_half_diverges : KernelBooted 1 (smallMachine 9) ∧ mappedAfter.phys.kernelPt = some 1 ∧
      (mappedAfter.vmms 0).map (fun vmm => (mappedAfter.phys.getPaddr vmm.pml4 upperStart.toNat,
        mappedAfter.phys.getPaddr 1 upperStart.toNat)) = some (0x0, 0x9000) :=
  ⟨smallMachine_booted, by decide +kernel, by decide +kernel⟩

end MmState

end Lapis.Mm
