/-
Lapis.Mm.LockedVmm — kheap.c and vmm.c with their locks.

As in `LockedPaging`, every function is a program with the lock operations of the source, and it is
compared with its atomic counterpart. The heap holds `kheap_lock` while it asks for a page, and it
gives a page back after it has released the lock. `vmm_lock` is taken by the entry points of vmm.c
and held through everything they call; `vmm_brk` takes it and then calls `vmm_map` or `vmm_unmap`,
which take it again.
-/
import Lapis.Mm.LockedPaging

namespace Lapis.Mm.Locks

open Function (update)
open Lib
open Lapis.Lib.Locked (acquire release call get modify on attempt)
open Lapis.Mm.VmaTree

/-- A program on physical memory. -/
def onPhys {α : Type} (m : Locked MmLock Phys α) : Locked MmLock MmState α :=
  on (·.phys) (fun s phys => { s with phys := phys }) m

theorem onPhys_runs {α : Type} {L : List MmLock} {m : Locked MmLock Phys α} {s : MmState} {a : α}
    {phys : Phys} (h : Runs L m s.phys (some (a, phys))) :
    Runs L (onPhys m) s (some (a, { s with phys := phys })) :=
  .on h

/-! ## kheap.c -/

def kzalloc : Locked MmLock MmState Bool := do
  acquire .kheap
  match (← get).heap.replies with
  | [] => do
    release .kheap
    pure true
  | reply :: replies => do
    modify fun s => { s with heap := { s.heap with replies := replies } }
    match reply with
    | .refuse => do
      release .kheap
      pure false
    | .reuse => do
      release .kheap
      pure true
    | .grow => do
      match ← onPhys pmmAllocPage with
      | none => do
        release .kheap
        pure false
      | some p => do
        modify fun s => { s with heap := { s.heap with slabs := p :: s.heap.slabs } }
        release .kheap
        pure true

theorem kzalloc_runs (s : MmState) : Runs [.kheap, .pmm] kzalloc s (some s.kzalloc) := by
  refine .acquire (by decide) (.bind .get ?_)
  unfold MmState.kzalloc
  cases s.heap.replies with
  | nil => exact .release (by decide) (.pure _)
  | cons reply replies =>
  refine .bind (.modify _) ?_
  dsimp only
  cases reply with
  | refuse => exact .release (by decide) (.pure _)
  | reuse => exact .release (by decide) (.pure _)
  | grow =>
  dsimp only
  have h := pmmAllocPage_runs s.phys
  generalize s.phys.pmmAllocPage = r at h ⊢
  obtain ⟨_ | p, phys⟩ := r
  · exact .bind (onPhys_runs h) (.release (by decide) (.pure _))
  · exact .bind (onPhys_runs h) (.bind (.modify _) (.release (by decide) (.pure _)))

/-- The page of a slab goes back after `kheap_lock` was released. -/
def kfree : Locked MmLock MmState Unit := do
  acquire .kheap
  match (← get).heap.drops with
  | [] => do
    release .kheap
    pure ()
  | drop :: drops => do
    modify fun s => { s with heap := { s.heap with drops := drops } }
    match drop.bind ((← get).heap.slabs[·]?) with
    | none => do
      release .kheap
      pure ()
    | some p => do
      modify fun s => { s with heap := { s.heap with slabs := s.heap.slabs.erase p } }
      release .kheap
      onPhys (pmmPageRelease p)

theorem kfree_runs (s : MmState) : Runs [.kheap, .pmm] kfree s (some ((), s.kfree)) := by
  refine .acquire (by decide) (.bind .get ?_)
  unfold MmState.kfree
  cases s.heap.drops with
  | nil => exact .release (by decide) (.pure _)
  | cons drop drops =>
  refine .bind (.modify _) (.bind .get ?_)
  dsimp only
  cases drop.bind (s.heap.slabs[·]?) with
  | none => exact .release (by decide) (.pure _)
  | some p =>
    exact .bind (.modify _) (.release (by decide) (onPhys_runs (pmmPage_runs _ _)))

def regKernelMmio (vaddr paddr npages : Nat) : Locked MmLock MmState Unit := do
  acquire .mmio
  if ← kzalloc then do
    modify fun s => { s with phys := { s.phys with
      mmioRegions := ⟨vaddr, paddr, npages⟩ :: s.phys.mmioRegions } }
    release .mmio
    pure ()
  else do
    release .mmio
    pure ()

theorem regKernelMmio_runs (s : MmState) (vaddr paddr npages : Nat) :
    Runs [.mmio, .kheap, .pmm] (regKernelMmio vaddr paddr npages) s
      (some ((), s.regKernelMmio vaddr paddr npages)) := by
  refine .acquire (by decide) ?_
  unfold MmState.regKernelMmio
  have h := kzalloc_runs s
  generalize s.kzalloc = r at h ⊢
  obtain ⟨_ | _, t⟩ := r
  · exact .bind h (.release (by decide) (.pure ()))
  · exact .bind h (.bind (.modify _) (.release (by decide) (.pure ())))

/-! ## Pages of a VMA -/

def unmapPages (pml4 : Pfn) (base : Nat) : Nat → Locked MmLock Phys Unit
  | 0 => pure ()
  | n + 1 => do
    unmapPages pml4 base n
    unmapPage pml4 (add64 base (n * pageSize))

theorem unmapPages_runs (s : Phys) (pml4 : Pfn) (base n : Nat) :
    Runs [.paging, .pmm] (unmapPages pml4 base n) s (some ((), Phys.unmapPages pml4 base n s)) := by
  induction n with
  | zero => exact .pure ()
  | succ n ih => exact .bind ih (unmapPage_runs _ _ _)

def allocateFrom (pml4 : Pfn) (base : Nat) (pflags : BitVec 64) :
    Nat → Nat → Locked MmLock Phys Int
  | _, 0 => pure eok
  | i, n + 1 => do
    match ← pmmAllocPage with
    | none => do
      unmapPages pml4 base i
      pure enomem
    | some page => do
      modify (·.zeroPage page)
      mapPage pml4 (add64 base (i * pageSize)) page pflags
      allocateFrom pml4 base pflags (i + 1) n

theorem allocateFrom_runs (s : Phys) (pml4 : Pfn) (base : Nat) (pflags : BitVec 64) (i n : Nat) :
    Runs [.paging, .pmm] (allocateFrom pml4 base pflags i n) s
      (some (Phys.allocateFrom pml4 base pflags i n s)) := by
  induction n generalizing i s with
  | zero => exact .pure _
  | succ n ih =>
    rw [allocateFrom, Phys.allocateFrom]
    have h : Runs [.paging, .pmm] pmmAllocPage s (some s.pmmAllocPage) :=
      (pmmAllocPage_runs s).mono (by decide)
    generalize s.pmmAllocPage = r at h ⊢
    obtain ⟨_ | page, s1⟩ := r
    · exact .bind h (.bind (unmapPages_runs _ _ _ _) (.pure _))
    · exact .bind h (.bind (.modify _) (.bind (mapPage_runs _ _ _ _ _) (ih _ (i + 1))))

def vmaAllocatePages (pml4 : Pfn) (vma : Vma) : Locked MmLock Phys (Int × Vma) := do
  if vma.size % pageSize ≠ 0 then pure (-1, vma)
  else do
    let err ← allocateFrom pml4 vma.base (vflagsToPflags vma.flags) 0 (vma.size / pageSize)
    if err = eok then pure (eok, { vma with flags := vma.flags ||| vflagAllocated })
    else pure (err, vma)

theorem vmaAllocatePages_runs (s : Phys) (pml4 : Pfn) (vma : Vma) :
    Runs [.paging, .pmm] (vmaAllocatePages pml4 vma) s
      (some (((s.vmaAllocatePages pml4 vma).1, (s.vmaAllocatePages pml4 vma).2.1),
        (s.vmaAllocatePages pml4 vma).2.2)) := by
  unfold vmaAllocatePages Phys.vmaAllocatePages
  split
  · exact .pure _
  have h := allocateFrom_runs s pml4 vma.base (vflagsToPflags vma.flags) 0 (vma.size / pageSize)
  generalize Phys.allocateFrom pml4 vma.base (vflagsToPflags vma.flags) 0 (vma.size / pageSize) s
    = r at h ⊢
  obtain ⟨err, s1⟩ := r
  refine .bind h ?_
  dsimp only
  split
  · exact .pure _
  · exact .pure _

def vmaFreePages (pml4 : Pfn) (vma : Vma) : Locked MmLock Phys Unit :=
  if has vma.flags vflagAllocated then
    if vma.size % pageSize ≠ 0 then pure ()
    else unmapPages pml4 vma.base (vma.size / pageSize)
  else pure ()

theorem vmaFreePages_runs (s : Phys) (pml4 : Pfn) (vma : Vma) :
    Runs [.paging, .pmm] (vmaFreePages pml4 vma) s (some ((), s.vmaFreePages pml4 vma)) := by
  unfold vmaFreePages Phys.vmaFreePages
  split
  · split
    · exact .pure ()
    · exact unmapPages_runs s _ _ _
  · exact .pure ()

/-! ## Creation and destruction -/

/-- The locks of the functions below `vmm_lock`. -/
def inner : List MmLock := [.kheap, .paging, .mmio, .pmm]

theorem kzalloc_inner (s : MmState) : Runs inner kzalloc s (some s.kzalloc) :=
  (kzalloc_runs s).mono (by decide)

theorem kfree_inner (s : MmState) : Runs inner kfree s (some ((), s.kfree)) :=
  (kfree_runs s).mono (by decide)

theorem vmaFreePages_inner (s : MmState) (pml4 : Pfn) (vma : Vma) :
    Runs inner (onPhys (vmaFreePages pml4 vma)) s
      (some ((), s.modPhys fun phys => phys.vmaFreePages pml4 vma)) :=
  (onPhys_runs (vmaFreePages_runs s.phys pml4 vma)).mono (by decide)

def vmmCreate : Locked MmLock MmState (Option Nat) := do
  if ← kzalloc then do
    match ← onPhys pteAlloc with
    | none => do
      kfree
      pure none
    | some pml4 => call fun s =>
      (some s.nextVmm,
        { s with
          nextVmm := s.nextVmm + 1
          vmms := update s.vmms s.nextVmm (some
            { vmas := [], vmasCount := 0, pml4 := pml4, flags := vmmFlagOwnsPml4,
              mmapBase := vmmMmapBase, stackTop := vmmStackTop, brk := 0, brkBase := 0 }) })
  else pure none

theorem vmmCreate_runs (s : MmState) : Runs inner vmmCreate s (some s.vmmCreate) := by
  unfold MmState.vmmCreate
  have h := kzalloc_inner s
  generalize s.kzalloc = r at h ⊢
  obtain ⟨_ | _, t⟩ := r
  · exact .bind h (.pure _)
  refine .bind h ?_
  dsimp only
  have hpte : Runs inner pteAlloc t.phys (some t.phys.pteAlloc) :=
    (pteAlloc_runs t.phys).mono (by decide)
  generalize t.phys.pteAlloc = r at hpte ⊢
  obtain ⟨_ | pml4, phys⟩ := r
  · exact .bind (onPhys_runs hpte) (.bind (kfree_inner _) (.pure _))
  · exact .bind (onPhys_runs hpte) (.call _)

/-- The loop of `vmm_destroy` over the VMAs. -/
def destroyLoop (pml4 : Pfn) : List Vma → Locked MmLock MmState Unit
  | [] => pure ()
  | vma :: vmas => do
    onPhys (vmaFreePages pml4 vma)
    kfree
    destroyLoop pml4 vmas

theorem destroyLoop_runs (s : MmState) (pml4 : Pfn) (vmas : List Vma) :
    Runs inner (destroyLoop pml4 vmas) s (some ((), vmas.foldl
      (fun s vma => (s.modPhys fun phys => phys.vmaFreePages pml4 vma).kfree) s)) := by
  induction vmas generalizing s with
  | nil => exact .pure ()
  | cons vma vmas ih => exact .bind (vmaFreePages_inner s _ _) (.bind (kfree_inner _) (ih _))

/-- The top table is freed if the address space owns it. -/
def destroyTable (vmm : Vmm) : Locked MmLock MmState Unit :=
  if has vmm.flags vmmFlagOwnsPml4 then onPhys (pteFree vmm.pml4) else pure ()

theorem destroyTable_runs (s : MmState) (vmm : Vmm) : Runs inner (destroyTable vmm) s (some ((),
      if has vmm.flags vmmFlagOwnsPml4 then s.modPhys (·.pteFree vmm.pml4) else s)) := by
  unfold destroyTable
  split
  · exact (onPhys_runs (pteFree_runs s.phys vmm.pml4)).mono (by decide)
  · exact .pure ()

def vmmDestroy (id : Nat) : Locked MmLock MmState Unit := do
  match (← get).vmms id with
  | none => pure ()
  | some vmm => do
    modify fun s => if s.current = some id then { s with current := none } else s
    destroyLoop vmm.pml4 vmm.vmas
    destroyTable vmm
    modify fun s => { s with vmms := update s.vmms id none }
    kfree

theorem vmmDestroy_runs (s : MmState) (id : Nat) :
    Runs inner (vmmDestroy id) s (some ((), s.vmmDestroy id)) := by
  refine .bind .get ?_
  unfold MmState.vmmDestroy
  cases s.vmms id with
  | none => exact .pure ()
  | some vmm =>
    exact .bind (.modify _) (.bind (destroyLoop_runs _ _ _)
      (.bind (destroyTable_runs _ _) (.bind (.modify _) (kfree_inner _))))

/-! ## vmm_map -/

/-- The pages of a new VMA, unless it is lazy. -/
def populateVma (pml4 : Pfn) (vma : Vma) : Locked MmLock MmState (Int × Vma) :=
  if has vma.flags vflagLazy then pure (eok, vma) else onPhys (vmaAllocatePages pml4 vma)

theorem populateVma_runs (s : MmState) (pml4 : Pfn) (vma : Vma) {r : Int × Vma × Phys}
    (hr : (if has vma.flags vflagLazy then (eok, vma, s.phys)
      else s.phys.vmaAllocatePages pml4 vma) = r) :
    Runs inner (populateVma pml4 vma) s (some ((r.1, r.2.1), { s with phys := r.2.2 })) := by
  unfold populateVma
  subst hr
  split
  · exact .pure _
  · exact (onPhys_runs (vmaAllocatePages_runs s.phys pml4 vma)).mono (by decide)

/-- The second half of `vmm_map`; every path releases `vmm_lock`. -/
def mapAt (id : Nat) (vmm : Vmm) (vma : Vma) : Locked MmLock MmState Nat := do
  if ← kzalloc then do
    let (err, vma) ← populateVma vmm.pml4 vma
    if err ≠ eok then do
      kfree
      release .vmm
      pure 0
    else
      match rbInsert vma vmm.vmas with
      | none => do
        onPhys (vmaFreePages vmm.pml4 vma)
        kfree
        release .vmm
        pure 0
      | some vmas => do
        modify (·.setVmm id { vmm with vmas := vmas, vmasCount := add64 vmm.vmasCount 1 })
        release .vmm
        pure vma.base
  else do
    release .vmm
    pure 0

/-- The last lines of a critical section: the lock is released and `a` returned. -/
theorem release_runs {α : Type} (a : α) (s : MmState) :
    RunsOff inner .vmm (do release .vmm; pure a) s (some (a, s)) :=
  .release (by decide) (.pure a)

theorem mapAt_runs (s : MmState) (id : Nat) (vmm : Vmm) (vma : Vma) :
    RunsOff inner .vmm (mapAt id vmm vma) s (some (s.mapAt id vmm vma)) := by
  unfold MmState.mapAt
  have h := kzalloc_inner s
  generalize s.kzalloc = r at h ⊢
  obtain ⟨_ | _, t⟩ := r
  · exact .bind h (release_runs _ _)
  refine .bind h ?_
  dsimp only
  generalize hr : (if has vma.flags vflagLazy then (eok, vma, t.phys)
    else t.phys.vmaAllocatePages vmm.pml4 vma) = r
  refine .bind (populateVma_runs t vmm.pml4 vma hr) ?_
  obtain ⟨err, vma', phys⟩ := r
  dsimp only
  split
  · exact .bind (kfree_inner _) (release_runs _ _)
  · cases rbInsert vma' vmm.vmas with
    | none =>
      exact .bind (vmaFreePages_inner _ _ _) (.bind (kfree_inner _) (release_runs _ _))
    | some vmas => exact .bind (.modify _) (release_runs _ _)

def vmmMap (id : Nat) (base size : Nat) (flags : BitVec 32) : Locked MmLock MmState Nat := do
  match (← get).vmms id with
  | none => pure 0
  | some vmm =>
    if size = 0 then pure 0
    else do
      let size := alignUp size
      acquire .vmm
      match ← attempt fun _ => choosePlace vmm base size flags with
      | (none, _) => do
        release .vmm
        pure 0
      | (some base, vmm) => do
        modify (·.setVmm id vmm)
        mapAt id vmm ⟨base, size, flags⟩

theorem vmmMap_runs (s : MmState) (id base size : Nat) (flags : BitVec 32) :
    Runs (.vmm :: inner) (vmmMap id base size flags) s (s.vmmMap id base size flags) := by
  refine .bind .get ?_
  unfold MmState.vmmMap
  cases s.vmms id with
  | none => exact .pure _
  | some vmm =>
  dsimp only
  split
  · exact .pure _
  refine .acquire (by decide) ?_
  cases choosePlace vmm base (alignUp size) flags with
  | none => exact .attempt_none rfl
  | some r =>
    refine .attempt rfl ?_
    obtain ⟨_ | place, vmm'⟩ := r
    · exact release_runs _ _
    · exact .bind (.modify _) (mapAt_runs _ _ _ _)

/-! ## vmm_unmap -/

def vmaSplit (id : Nat) (vmm : Vmm) (vma : Vma) (splitAddr : Nat) : Locked MmLock MmState Bool :=
  if splitAddr ≤ vma.base ∨ vma.limit ≤ splitAddr then pure false
  else do
    if ← kzalloc then do
      let newVma : Vma := ⟨splitAddr, sub64 vma.limit splitAddr, vma.flags⟩
      let vmas := assign vmm.vmas vma.base fun v => { v with size := sub64 splitAddr vma.base }
      match rbInsert newVma vmas with
      | none => do
        modify (·.setVmm id { vmm with vmas := vmas })
        kfree
        pure false
      | some vmas => do
        modify (·.setVmm id { vmm with vmas := vmas, vmasCount := add64 vmm.vmasCount 1 })
        pure true
    else pure false

theorem vmaSplit_runs (s : MmState) (id : Nat) (vmm : Vmm) (vma : Vma) (splitAddr : Nat) :
    Runs inner (vmaSplit id vmm vma splitAddr) s (some (s.vmaSplit id vmm vma splitAddr)) := by
  unfold vmaSplit MmState.vmaSplit
  split
  · exact .pure _
  have h := kzalloc_inner s
  generalize s.kzalloc = r at h ⊢
  obtain ⟨_ | _, t⟩ := r
  · exact .bind h (.pure _)
  refine .bind h ?_
  dsimp only
  generalize assign vmm.vmas vma.base (fun v => { v with size := sub64 splitAddr vma.base }) = vmas
  cases rbInsert ⟨splitAddr, sub64 vma.limit splitAddr, vma.flags⟩ vmas with
  | none => exact .bind (.modify _) (.bind (kfree_inner _) (.pure _))
  | some vmas => exact .bind (.modify _) (.pure _)

def unmapLoop (id base limit : Nat) : List Vma → Locked MmLock MmState Unit
  | [] => pure ()
  | vma :: rest =>
    if base ≤ vma.base ∧ vma.limit ≤ limit then do
      match (← get).vmms id with
      | none => pure ()
      | some vmm => do
        onPhys (vmaFreePages vmm.pml4 vma)
        modify (·.setVmm id { vmm with
          vmas := rbRemove vmm.vmas vma.base, vmasCount := sub64 vmm.vmasCount 1 })
        kfree
        unmapLoop id base limit rest
    else if limit ≤ vma.base then pure ()
    else unmapLoop id base limit rest

theorem unmapLoop_runs (s : MmState) (id base limit : Nat) (vmas : List Vma) :
    Runs inner (unmapLoop id base limit vmas) s (some ((), MmState.unmapLoop id base limit vmas s)) := by
  induction vmas generalizing s with
  | nil => exact .pure ()
  | cons vma rest ih =>
    unfold unmapLoop MmState.unmapLoop
    split
    · refine .bind .get ?_
      cases s.vmms id with
      | none => exact .pure ()
      | some vmm =>
        exact .bind (vmaFreePages_inner s _ _) (.bind (.modify _) (.bind (kfree_inner _) (ih _)))
    · split
      · exact .pure ()
      · exact ih s

/-- The split before the range. -/
def unmapFirst (id : Nat) (vmm : Vmm) (base : Nat) : Locked MmLock MmState Bool :=
  match findVma vmm.vmas base with
  | some first => if first.base < base then vmaSplit id vmm first base else pure true
  | none => pure true

theorem unmapFirst_runs (s : MmState) (id : Nat) (vmm : Vmm) (base : Nat) :
    Runs inner (unmapFirst id vmm base) s (some (s.unmapFirst id vmm base)) := by
  unfold unmapFirst MmState.unmapFirst
  cases findVma vmm.vmas base with
  | none => exact .pure true
  | some first =>
    dsimp only
    split
    · exact vmaSplit_runs s _ _ _ _
    · exact .pure true

/-- The split behind the range. -/
def unmapLast (id : Nat) (vmm : Vmm) (limit : Nat) : Locked MmLock MmState Bool :=
  match findVma vmm.vmas (sub64 limit 1) with
  | some last => if last.limit < limit then vmaSplit id vmm last limit else pure true
  | none => pure true

theorem unmapLast_runs (s : MmState) (id : Nat) (vmm : Vmm) (limit : Nat) :
    Runs inner (unmapLast id vmm limit) s (some (s.unmapLast id vmm limit)) := by
  unfold unmapLast MmState.unmapLast
  cases findVma vmm.vmas (sub64 limit 1) with
  | none => exact .pure true
  | some last =>
    dsimp only
    split
    · exact vmaSplit_runs s _ _ _ _
    · exact .pure true

def vmmUnmap (id : Nat) (base size : Nat) : Locked MmLock MmState Int := do
  match (← get).vmms id with
  | none => pure (-einval)
  | some vmm =>
    if size = 0 then pure (-einval)
    else do
      let base := alignDown base
      let limit := add64 base (alignUp size)
      acquire .vmm
      if ← unmapFirst id vmm base then do
        match (← get).vmms id with
        | none => do
          release .vmm
          pure 0
        | some vmm => do
          if ← unmapLast id vmm limit then do
            match (← get).vmms id with
            | none => do
              release .vmm
              pure 0
            | some vmm => do
              unmapLoop id base limit vmm.vmas
              release .vmm
              pure 0
          else do
            release .vmm
            pure (-enomem)
      else do
        release .vmm
        pure (-enomem)

theorem vmmUnmap_runs (s : MmState) (id base size : Nat) :
    Runs (.vmm :: inner) (vmmUnmap id base size) s (some (s.vmmUnmap id base size)) := by
  refine .bind .get ?_
  unfold MmState.vmmUnmap
  cases s.vmms id with
  | none => exact .pure _
  | some vmm =>
  dsimp only
  split
  · exact .pure _
  refine .acquire (by decide) ?_
  generalize alignDown base = base
  generalize add64 base (alignUp size) = limit
  have hfirst := unmapFirst_runs s id vmm base
  generalize s.unmapFirst id vmm base = r at hfirst ⊢
  obtain ⟨_ | _, s1⟩ := r
  · exact .bind hfirst (release_runs _ _)
  refine .bind hfirst (.bind .get ?_)
  dsimp only
  cases s1.vmms id with
  | none => exact release_runs _ _
  | some vmm1 =>
  have hlast := unmapLast_runs s1 id vmm1 limit
  dsimp only
  generalize s1.unmapLast id vmm1 limit = r at hlast ⊢
  obtain ⟨_ | _, s2⟩ := r
  · exact .bind hlast (release_runs _ _)
  refine .bind hlast (.bind .get ?_)
  dsimp only
  cases s2.vmms id with
  | none => exact release_runs _ _
  | some vmm2 => exact .bind (unmapLoop_runs _ _ _ _ _) (release_runs _ _)

/-! ## vmm_protect -/

def protectPage (pml4 : Pfn) (vaddr : Nat) (pflags : BitVec 64) : Locked MmLock Phys Unit := do
  let paddr := (← get).getPaddr pml4 vaddr
  if paddr = 0 then pure ()
  else
    match (← get).pmm.pfnDbPhysToPage paddr with
    | some page => do
      unmapPage pml4 vaddr
      mapPage pml4 vaddr page pflags
    | none => pure ()

theorem protectPage_runs (s : Phys) (pml4 : Pfn) (vaddr : Nat) (pflags : BitVec 64) :
    Runs [.paging, .pmm] (protectPage pml4 vaddr pflags) s (some ((), s.protectPage pml4 vaddr pflags)) := by
  refine .bind .get ?_
  unfold Phys.protectPage
  dsimp only
  split
  · exact .pure ()
  · refine .bind .get ?_
    cases s.pmm.pfnDbPhysToPage (s.getPaddr pml4 vaddr) with
    | none => exact .pure ()
    | some page => exact .bind (unmapPage_runs _ _ _) (mapPage_runs _ _ _ _ _)

def protectPages (pml4 : Pfn) (base : Nat) (pflags : BitVec 64) : Nat → Locked MmLock Phys Unit
  | 0 => pure ()
  | n + 1 => do
    protectPages pml4 base pflags n
    protectPage pml4 (add64 base (n * pageSize)) pflags

theorem protectPages_runs (s : Phys) (pml4 : Pfn) (base : Nat) (pflags : BitVec 64) (n : Nat) :
    Runs [.paging, .pmm] (protectPages pml4 base pflags n) s
      (some ((), Phys.protectPages pml4 base pflags n s)) := by
  induction n with
  | zero => exact .pure ()
  | succ n ih => exact .bind ih (protectPage_runs _ _ _ _)

def protectVma (id : Nat) (vmm : Vmm) (vma : Vma) (newFlags : BitVec 32) :
    Locked MmLock MmState Unit := do
  let flags := MmState.protectFlags vma.flags newFlags
  modify (·.setVmm id { vmm with
    vmas := assign vmm.vmas vma.base fun v => { v with flags := flags } })
  if has flags vflagAllocated then
    onPhys (protectPages vmm.pml4 vma.base (vflagsToPflags flags) (vma.size / pageSize))
  else pure ()

theorem protectVma_runs (s : MmState) (id : Nat) (vmm : Vmm) (vma : Vma) (newFlags : BitVec 32) :
    Runs inner (protectVma id vmm vma newFlags) s (some ((), s.protectVma id vmm vma newFlags)) := by
  refine .bind (.modify _) ?_
  unfold MmState.protectVma
  dsimp only
  split
  · exact (onPhys_runs (protectPages_runs _ _ _ _ _)).mono (by decide)
  · exact .pure ()

/-- A conditional split of a round. -/
def splitIf (c : Prop) [Decidable c] (id : Nat) (vmm : Vmm) (vma : Vma) (splitAddr : Nat) :
    Locked MmLock MmState Bool :=
  if c then vmaSplit id vmm vma splitAddr else pure true

theorem splitIf_runs (c : Prop) [Decidable c] (s : MmState) (id : Nat) (vmm : Vmm) (vma : Vma)
    (splitAddr : Nat) : Runs inner (splitIf c id vmm vma splitAddr) s
      (some (MmState.splitIf c s id vmm vma splitAddr)) := by
  unfold splitIf MmState.splitIf
  split
  · exact vmaSplit_runs s _ _ _ _
  · exact .pure true

/-- The loop; every way out of it releases `vmm_lock`. -/
def protectLoop (id limit : Nat) (newFlags : BitVec 32) :
    Nat → Nat → Locked MmLock MmState Int
  | 0, _ => attempt fun _ => none
  | rounds + 1, addr =>
    if addr < limit then do
      let vmm ← attempt (·.vmms id)
      match findVma vmm.vmas addr with
      | none => do
        release .vmm
        pure (-einval)
      | some vma => do
        if ← splitIf (vma.base < addr) id vmm vma addr then do
          let vmm ← attempt (·.vmms id)
          let vma ← attempt fun _ => MmState.reload vmm.vmas vma addr
          if ← splitIf (limit < vma.limit) id vmm vma limit then do
            let vmm ← attempt (·.vmms id)
            let vma ← attempt fun _ => deref vmm.vmas vma.base
            protectVma id vmm vma newFlags
            protectLoop id limit newFlags rounds vma.limit
          else do
            release .vmm
            pure (-enomem)
        else do
          release .vmm
          pure (-enomem)
    else do
      release .vmm
      pure 0

theorem protectLoop_runs (s : MmState) (id limit : Nat) (newFlags : BitVec 32) (rounds addr : Nat) :
    RunsOff inner .vmm (protectLoop id limit newFlags rounds addr) s
      (MmState.protectLoop id limit newFlags rounds addr s) := by
  induction rounds generalizing s addr with
  | zero => exact fun _ _ => rfl
  | succ rounds ih =>
    unfold protectLoop MmState.protectLoop
    split
    case isFalse => exact release_runs _ _
    refine .attempt_bind fun vmm _ => ?_
    cases findVma vmm.vmas addr with
    | none => exact release_runs _ _
    | some vma =>
    have hsplit := splitIf_runs (vma.base < addr) s id vmm vma addr
    dsimp only
    generalize MmState.splitIf (vma.base < addr) s id vmm vma addr = r at hsplit ⊢
    obtain ⟨_ | _, s1⟩ := r
    · exact .bind hsplit (release_runs _ _)
    refine .bind hsplit (.attempt_bind fun vmm1 _ => .attempt_bind fun vma1 _ => ?_)
    have hsplit1 := splitIf_runs (limit < vma1.limit) s1 id vmm1 vma1 limit
    generalize MmState.splitIf (limit < vma1.limit) s1 id vmm1 vma1 limit = r at hsplit1 ⊢
    obtain ⟨_ | _, s2⟩ := r
    · exact .bind hsplit1 (release_runs _ _)
    exact .bind hsplit1 (.attempt_bind fun vmm2 _ => .attempt_bind fun vma2 _ =>
      .bind (protectVma_runs _ _ _ _ _) (ih _ _))

def vmmProtect (id : Nat) (base size : Nat) (newFlags : BitVec 32) : Locked MmLock MmState Int := do
  match (← get).vmms id with
  | none => pure (-einval)
  | some _ =>
    if size = 0 then pure (-einval)
    else do
      let base := alignDown base
      acquire .vmm
      protectLoop id (add64 base (alignUp size)) newFlags (2 ^ 64) base

theorem vmmProtect_runs (s : MmState) (id base size : Nat) (newFlags : BitVec 32) :
    Runs (.vmm :: inner) (vmmProtect id base size newFlags) s (s.vmmProtect id base size newFlags) := by
  refine .bind .get ?_
  unfold MmState.vmmProtect
  cases s.vmms id with
  | none => exact .pure _
  | some vmm =>
    dsimp only
    split
    · exact .pure _
    · exact .acquire (by decide) (protectLoop_runs s _ _ _ _ _)

/-! ## vmm_fork -/

def forkSharedPage (parent child : Pfn) (pflags : BitVec 64) (vaddr : Nat) :
    Locked MmLock Phys Unit := do
  let paddr := (← get).getPaddr parent vaddr
  if paddr = 0 then pure ()
  else
    match (← get).pmm.pfnDbPhysToPage paddr with
    | none => pure ()
    | some page => do
      pmmPageShare page
      pmmPageRetain page
      mapPage child vaddr page pflags

theorem forkSharedPage_runs (s : Phys) (parent child : Pfn) (pflags : BitVec 64) (vaddr : Nat) :
    Runs [.paging, .pmm] (forkSharedPage parent child pflags vaddr) s
      (some ((), s.forkSharedPage parent child vaddr pflags)) := by
  refine .bind .get ?_
  unfold Phys.forkSharedPage
  dsimp only
  split
  · exact .pure ()
  refine .bind .get ?_
  cases s.pmm.pfnDbPhysToPage (s.getPaddr parent vaddr) with
  | none => exact .pure ()
  | some page =>
    exact .bind ((pmmPage_runs _ _).mono (by decide))
      (.bind ((pmmPage_runs _ _).mono (by decide)) (mapPage_runs _ _ _ _ _))

def forkCowPage (parent child : Pfn) (pflags : BitVec 64) (vaddr : Nat) :
    Locked MmLock Phys Unit := do
  let paddr := (← get).getPaddr parent vaddr
  if paddr = 0 then pure ()
  else
    match (← get).pmm.pfnDbPhysToPage paddr with
    | none => pure ()
    | some page => do
      pmmPageMarkCow page
      pmmPageShare page
      pmmPageRetain page
      mapPage child vaddr page pflags
      mapPage parent vaddr page pflags

theorem forkCowPage_runs (s : Phys) (parent child : Pfn) (pflags : BitVec 64) (vaddr : Nat) :
    Runs [.paging, .pmm] (forkCowPage parent child pflags vaddr) s
      (some ((), s.forkCowPage parent child vaddr pflags)) := by
  refine .bind .get ?_
  unfold Phys.forkCowPage
  dsimp only
  split
  · exact .pure ()
  refine .bind .get ?_
  cases s.pmm.pfnDbPhysToPage (s.getPaddr parent vaddr) with
  | none => exact .pure ()
  | some page =>
    exact .bind ((pmmPage_runs _ _).mono (by decide))
      (.bind ((pmmPage_runs _ _).mono (by decide)) (.bind ((pmmPage_runs _ _).mono (by decide))
        (.bind (mapPage_runs _ _ _ _ _) (mapPage_runs _ _ _ _ _))))

def forkPages (page : Nat → Locked MmLock Phys Unit) (base : Nat) : Nat → Locked MmLock Phys Unit
  | 0 => pure ()
  | n + 1 => do
    forkPages page base n
    page (add64 base (n * pageSize))

theorem forkPages_runs {page : Nat → Locked MmLock Phys Unit} {atomic : Phys → Nat → Phys}
    (hpage : ∀ s v, Runs [.paging, .pmm] (page v) s (some ((), atomic s v))) (s : Phys) (base n : Nat) :
    Runs [.paging, .pmm] (forkPages page base n) s (some ((), Phys.forkPages atomic base n s)) := by
  induction n with
  | zero => exact .pure ()
  | succ n ih => exact .bind ih (hpage _ _)

def forkVma (parent child : Pfn) (vma : Vma) : Locked MmLock Phys Unit :=
  let pflags := vflagsToPflags vma.flags
  if has vma.flags vflagShared then
    forkPages (forkSharedPage parent child pflags) vma.base (vma.size / pageSize)
  else if has vma.flags vflagAllocated then
    forkPages (forkCowPage parent child (pflags &&& ~~~pflagWrite)) vma.base (vma.size / pageSize)
  else pure ()

theorem forkVma_runs (s : Phys) (parent child : Pfn) (vma : Vma) :
    Runs [.paging, .pmm] (forkVma parent child vma) s (some ((), s.forkVma parent child vma)) := by
  unfold forkVma Phys.forkVma
  dsimp only
  split
  · exact forkPages_runs (fun s v => forkSharedPage_runs s _ _ _ v) s _ _
  · split
    · exact forkPages_runs (fun s v => forkCowPage_runs s _ _ _ v) s _ _
    · exact .pure ()

def forkLoop (parent : Pfn) (child : Nat) : List Vma → Locked MmLock MmState Bool
  | [] => pure true
  | vma :: rest => do
    if ← kzalloc then do
      match (← get).vmms child with
      | none => pure false
      | some vmm => do
        onPhys (forkVma parent vmm.pml4 vma)
        modify (·.setVmm child { vmm with
          vmas := (rbInsert vma vmm.vmas).getD vmm.vmas, vmasCount := add64 vmm.vmasCount 1 })
        forkLoop parent child rest
    else do
      vmmDestroy child
      pure false

theorem forkLoop_runs (s : MmState) (parent : Pfn) (child : Nat) (vmas : List Vma) :
    Runs inner (forkLoop parent child vmas) s (some (MmState.forkLoop parent child vmas s)) := by
  induction vmas generalizing s with
  | nil => exact .pure _
  | cons vma rest ih =>
    unfold forkLoop MmState.forkLoop
    have h := kzalloc_inner s
    generalize s.kzalloc = r at h ⊢
    obtain ⟨_ | _, t⟩ := r
    · exact .bind h (.bind (vmmDestroy_runs _ _) (.pure _))
    refine .bind h (.bind .get ?_)
    dsimp only
    cases t.vmms child with
    | none => exact .pure _
    | some vmm =>
      exact .bind ((onPhys_runs (forkVma_runs _ _ _ _)).mono (by decide))
        (.bind (.modify _) (ih _))

def vmmFork (parent : Nat) : Locked MmLock MmState (Option Nat) := do
  match (← get).vmms parent with
  | none => pure none
  | some pvmm => do
    match ← vmmCreate with
    | none => pure none
    | some child => do
      acquire .vmm
      if ← forkLoop pvmm.pml4 child pvmm.vmas then do
        match (← get).vmms child with
        | none => do
          release .vmm
          pure none
        | some vmm => do
          modify (·.setVmm child { vmm with
            mmapBase := pvmm.mmapBase, stackTop := pvmm.stackTop,
            brk := pvmm.brk, brkBase := pvmm.brkBase })
          release .vmm
          pure (some child)
      else do
        release .vmm
        pure none

theorem vmmFork_runs (s : MmState) (parent : Nat) :
    Runs (.vmm :: inner) (vmmFork parent) s (some (s.vmmFork parent)) := by
  refine .bind .get ?_
  unfold MmState.vmmFork
  cases s.vmms parent with
  | none => exact .pure _
  | some pvmm =>
  have hcreate : Runs (.vmm :: inner) vmmCreate s (some s.vmmCreate) :=
    (vmmCreate_runs s).mono (by decide)
  dsimp only
  generalize s.vmmCreate = r at hcreate ⊢
  obtain ⟨_ | child, s1⟩ := r
  · exact .bind hcreate (.pure _)
  refine .bind hcreate (.acquire (by decide) ?_)
  have hloop := forkLoop_runs s1 pvmm.pml4 child pvmm.vmas
  dsimp only
  generalize MmState.forkLoop pvmm.pml4 child pvmm.vmas s1 = r at hloop ⊢
  obtain ⟨_ | _, s2⟩ := r
  · exact .bind hloop (release_runs _ _)
  refine .bind hloop (.bind .get ?_)
  dsimp only
  cases s2.vmms child with
  | none => exact release_runs _ _
  | some vmm => exact .bind (.modify _) (release_runs _ _)

/-! ## vmm_brk -/

/-- `vmm_brk`; the growing and the shrinking branch call functions that take the lock held here,
and neither releases it. -/
def vmmBrk (id newBrk : Nat) : Locked MmLock MmState Nat := do
  match (← get).vmms id with
  | none => pure 0
  | some vmm =>
    let newBrk := alignUp newBrk
    if newBrk < vmm.brkBase then pure vmm.brkBase
    else do
      acquire .vmm
      if vmm.brk < newBrk then do
        let got ← vmmMap id vmm.brk (sub64 newBrk vmm.brk)
          (vflagPresent ||| vflagWritable ||| vflagUser)
        setBrk id newBrk (got = 0)
      else if newBrk < vmm.brk then do
        let err ← vmmUnmap id newBrk (sub64 vmm.brk newBrk)
        setBrk id newBrk (err ≠ 0)
      else do
        release .vmm
        pure vmm.brk
where
  /-- The last lines of both branches: the new break, unless the call failed. -/
  setBrk (id newBrk : Nat) (failed : Bool) : Locked MmLock MmState Nat := do
    let vmm ← attempt (·.vmms id)
    if failed then pure vmm.brk
    else do
      modify (·.setVmm id { vmm with brk := newBrk })
      pure newBrk

end Lapis.Mm.Locks
