/-
Lapis.Mm.LockedPaging — pmm.c, kheap.c and paging.c with their locks.

The functions of the modules before are atomic; here they are programs that take and release the
spinlocks where the source does, with the release before every return. What a function does to the
data between two lock operations is what its atomic counterpart does, and the theorems say that the
whole is: `Runs L m s x` gives the result of the atomic function and the locks as they were.

Every function of pmm.c takes `pmm_lock` first and releases it before each of its returns, so they
are all `guarded` calls.
-/
import Lapis.Lib.Locking
import Lapis.Mm.Vmm

namespace Lapis.Mm

open Function (update)
open Lib
open Lapis.Lib.Locked (acquire release call get modify on attempt)

inductive MmLock
  | vmm
  | paging
  | mmio
  | pmm
  | kheap
  deriving DecidableEq, Repr

namespace Locks

/-- A function that holds a lock from its first to its last line. -/
def guarded {σ α : Type} (l : MmLock) (f : σ → α × σ) : Locked MmLock σ α := do
  acquire l
  let r ← call f
  release l
  pure r

theorem guarded_runs {σ α : Type} (l : MmLock) (f : σ → α × σ) (s : σ) :
    Runs [l] (guarded l f) s (some (f s)) :=
  .acquire List.not_mem_nil (.bind (.call f) (.release List.not_mem_nil (.pure _)))

/-! ## pmm.c -/

def pmmAllocPage : Locked MmLock Phys (Option Pfn) := guarded .pmm Phys.pmmAllocPage

theorem pmmAllocPage_runs (s : Phys) : Runs [.pmm] pmmAllocPage s (some s.pmmAllocPage) :=
  guarded_runs .pmm _ s

/-- A function of pmm.c on a page. -/
def pmmPage (f : Pmm → Pmm) : Locked MmLock Phys Unit := guarded .pmm fun s => ((), s.modPmm f)

theorem pmmPage_runs (f : Pmm → Pmm) (s : Phys) : Runs [.pmm] (pmmPage f) s (some ((), s.modPmm f)) :=
  guarded_runs .pmm _ s

def pmmPageRetain (p : Pfn) : Locked MmLock Phys Unit := pmmPage (·.pmmPageRetain p)
def pmmPageRelease (p : Pfn) : Locked MmLock Phys Unit := pmmPage (·.pmmPageRelease p)
def pmmPageShare (p : Pfn) : Locked MmLock Phys Unit := pmmPage (·.pmmPageShare p)
def pmmPageUnshare (p : Pfn) : Locked MmLock Phys Unit := pmmPage (·.pmmPageUnshare p)
def pmmPageMarkCow (p : Pfn) : Locked MmLock Phys Unit := pmmPage (·.pmmPageMarkCow p)

/-! ## Tables -/

/-- `pmm_page_unshare` and `pmm_page_release` on the page of a mapped frame, if it has one. -/
def dropMapped (phys : BitVec 64) : Locked MmLock Phys Unit := do
  match (← get).pmm.pfnDbPhysToPage phys with
  | some p => do
    pmmPageUnshare p
    pmmPageRelease p
  | none => pure ()

theorem dropMapped_runs (s : Phys) (phys : BitVec 64) :
    Runs [.pmm] (dropMapped phys) s (some ((), s.dropMapped phys)) := by
  refine .bind .get ?_
  unfold Phys.dropMapped
  cases s.pmm.pfnDbPhysToPage phys with
  | none => exact .pure ()
  | some p => exact .bind (pmmPage_runs _ s) (pmmPage_runs _ _)

/-- The reference of an entry that goes is dropped. -/
def dropEntry (entry : BitVec 64) : Locked MmLock Phys Unit :=
  if has entry pflagPresent then dropMapped (entry &&& pageFrameMask) else pure ()

theorem dropEntry_runs (s : Phys) (entry : BitVec 64) : Runs [.pmm] (dropEntry entry) s
      (some ((), if has entry pflagPresent then s.dropMapped (entry &&& pageFrameMask) else s)) := by
  unfold dropEntry
  split
  · exact dropMapped_runs s _
  · exact .pure ()

def allocPte : Locked MmLock Phys (BitVec 64) := do
  match ← pmmAllocPage with
  | none => pure 0
  | some p => do
    let s ← get
    let phys := s.pmm.pfnDbPageToPhys p
    modify (·.zeroPage (frameOf phys))
    pure phys

theorem allocPte_runs (s : Phys) : Runs [.pmm] allocPte s (some s.allocPte) := by
  unfold Phys.allocPte
  have h := pmmAllocPage_runs s
  generalize s.pmmAllocPage = r at h ⊢
  obtain ⟨_ | p, s1⟩ := r
  · exact .bind h (.pure _)
  · exact .bind h (.bind .get (.bind (.modify _) (.pure _)))

def freePte (phys : BitVec 64) : Locked MmLock Phys Unit := do
  match (← get).pmm.pfnDbPhysToPage phys with
  | some p => pmmPageRelease p
  | none => pure ()

theorem freePte_runs (s : Phys) (phys : BitVec 64) :
    Runs [.pmm] (freePte phys) s (some ((), s.freePte phys)) := by
  refine .bind .get ?_
  unfold Phys.freePte
  cases s.pmm.pfnDbPhysToPage phys with
  | none => exact .pure ()
  | some p => exact pmmPage_runs _ s

def pteNext (table : Pfn) (index : Fin 512) (flags : BitVec 64) :
    Locked MmLock Phys (Option Pfn) := do
  let entry := (← get).mem table index
  if has entry pflagPresent then pure (some (frameOf (entry &&& pageFrameMask)))
  else if flags = 0 then pure none
  else do
    let phys ← allocPte
    if phys = 0 then pure none
    else do
      modify (·.writeEntry table index (phys ||| flags))
      pure (some (frameOf phys))

theorem pteNext_runs (s : Phys) (table : Pfn) (index : Fin 512) (flags : BitVec 64) :
    Runs [.pmm] (pteNext table index flags) s (some (s.pteNext table index flags)) := by
  refine .bind .get ?_
  unfold Phys.pteNext
  dsimp only
  split
  · exact .pure _
  split
  · exact .pure _
  have h := allocPte_runs s
  generalize s.allocPte = r at h ⊢
  obtain ⟨phys, s1⟩ := r
  refine .bind h ?_
  dsimp only
  split
  · exact .pure _
  · exact .bind (.modify _) (.pure _)

def leafEntry (pml4 : Pfn) (vaddr : Nat) (flags : BitVec 64) :
    Locked MmLock Phys (Option (Pfn × Fin 512)) := do
  match ← pteNext pml4 (pml4Index vaddr) flags with
  | none => pure none
  | some pml3 => do
    match ← pteNext pml3 (pml3Index vaddr) flags with
    | none => pure none
    | some pml2 => do
      match ← pteNext pml2 (pml2Index vaddr) flags with
      | none => pure none
      | some pml1 => pure (some (pml1, pml1Index vaddr))

theorem leafEntry_runs (s : Phys) (pml4 : Pfn) (vaddr : Nat) (flags : BitVec 64) :
    Runs [.pmm] (leafEntry pml4 vaddr flags) s (some (s.leafEntry pml4 vaddr flags)) := by
  unfold Phys.leafEntry
  have h1 := pteNext_runs s pml4 (pml4Index vaddr) flags
  generalize s.pteNext pml4 (pml4Index vaddr) flags = r1 at h1 ⊢
  obtain ⟨_ | pml3, s1⟩ := r1
  · exact .bind h1 (.pure _)
  refine .bind h1 ?_
  dsimp only
  have h2 := pteNext_runs s1 pml3 (pml3Index vaddr) flags
  generalize s1.pteNext pml3 (pml3Index vaddr) flags = r2 at h2 ⊢
  obtain ⟨_ | pml2, s2⟩ := r2
  · exact .bind h2 (.pure _)
  refine .bind h2 ?_
  dsimp only
  have h3 := pteNext_runs s2 pml2 (pml2Index vaddr) flags
  generalize s2.pteNext pml2 (pml2Index vaddr) flags = r3 at h3 ⊢
  obtain ⟨_ | pml1, s3⟩ := r3
  · exact .bind h3 (.pure _)
  · exact .bind h3 (.pure _)

/-- Frees the table that entry `i` of `table` points to and clears the entry. -/
def freeEntry (table : Pfn) (i : Fin 512) : Locked MmLock Phys Unit := do
  freePte ((← get).mem table i &&& pageFrameMask)
  modify (·.writeEntry table i 0)

theorem freeEntry_runs (s : Phys) (table : Pfn) (i : Fin 512) :
    Runs [.pmm] (freeEntry table i) s (some ((), s.freeEntry table i)) :=
  .bind .get (.bind (freePte_runs s _) (.modify _))

/-- `__u_pte_free_empty`; its callers hold `paging_lock`. -/
def uPteFreeEmpty (pml4 : Pfn) (vaddr : Nat) : Locked MmLock Phys Unit := do
  let s ← get
  let i4 := pml4Index vaddr
  if has (s.mem pml4 i4) pflagPresent then
    let pml3 := frameOf (s.mem pml4 i4 &&& pageFrameMask)
    let i3 := pml3Index vaddr
    if has (s.mem pml3 i3) pflagPresent then
      let pml2 := frameOf (s.mem pml3 i3 &&& pageFrameMask)
      let i2 := pml2Index vaddr
      if has (s.mem pml2 i2) pflagPresent then
        let pml1 := frameOf (s.mem pml2 i2 &&& pageFrameMask)
        if s.tableEmpty pml1 then do
          freeEntry pml2 i2
          if (← get).tableEmpty pml2 then do
            freeEntry pml3 i3
            if (← get).tableEmpty pml3 then freeEntry pml4 i4 else pure ()
          else pure ()
        else pure ()
      else pure ()
    else pure ()
  else pure ()

theorem uPteFreeEmpty_runs (s : Phys) (pml4 : Pfn) (vaddr : Nat) :
    Runs [.pmm] (uPteFreeEmpty pml4 vaddr) s (some ((), s.uPteFreeEmpty pml4 vaddr)) := by
  refine .bind .get ?_
  unfold Phys.uPteFreeEmpty
  dsimp only
  split
  case isFalse => exact .pure ()
  split
  case isFalse => exact .pure ()
  split
  case isFalse => exact .pure ()
  split
  case isFalse => exact .pure ()
  refine .bind (freeEntry_runs s _ _) (.bind .get ?_)
  split
  case isFalse => exact .pure ()
  refine .bind (freeEntry_runs _ _ _) (.bind .get ?_)
  split
  case isFalse => exact .pure ()
  exact freeEntry_runs _ _ _

/-! ## Mapping -/

def mapPage (pt : Pfn) (vaddr : Nat) (page : Pfn) (flags : BitVec 64) :
    Locked MmLock Phys Unit := do
  acquire .paging
  let vaddr := alignDown vaddr
  let phys := (← get).pmm.pfnDbPageToPhys page
  match ← leafEntry pt vaddr (Phys.tableFlags flags) with
  | none => do
    release .paging
    pure ()
  | some (table, i) => do
    let entry := (← get).mem table i
    dropEntry entry
    modify (·.writeEntry table i (phys ||| (flags &&& ~~~pageFrameMask) ||| pflagPresent))
    pmmPageShare page
    pmmPageRetain page
    release .paging
    pure ()

theorem mapPage_runs (s : Phys) (pt : Pfn) (vaddr : Nat) (page : Pfn) (flags : BitVec 64) :
    Runs [.paging, .pmm] (mapPage pt vaddr page flags) s (some ((), s.mapPage pt vaddr page flags)) := by
  refine .acquire (by decide) (.bind .get ?_)
  unfold Phys.mapPage
  dsimp only
  have h := leafEntry_runs s pt (alignDown vaddr) (Phys.tableFlags flags)
  generalize s.leafEntry pt (alignDown vaddr) (Phys.tableFlags flags) = r at h ⊢
  obtain ⟨_ | ⟨table, i⟩, s1⟩ := r
  · exact .bind h (.release (by decide) (.pure ()))
  · refine .bind h (.bind .get (.bind (dropEntry_runs s1 _) (.bind (.modify _) ?_)))
    exact .bind (pmmPage_runs _ _) (.bind (pmmPage_runs _ _) (.release (by decide) (.pure ())))

/-- The return after a failed allocation comes without a release. -/
def mapPaddr (pt : Pfn) (vaddr paddr : Nat) (flags : BitVec 64) : Locked MmLock Phys Unit := do
  acquire .paging
  let vaddr := alignDown vaddr
  let paddr := alignDown paddr
  match ← leafEntry pt vaddr (Phys.tableFlags flags) with
  | none => pure ()
  | some (table, i) => do
    let entry := (← get).mem table i
    dropEntry entry
    modify (·.writeEntry table i
      (BitVec.ofNat 64 paddr ||| (flags &&& ~~~pageFrameMask) ||| pflagPresent))
    release .paging
    pure ()

theorem mapPaddr_runs {s : Phys} {pt : Pfn} {vaddr : Nat} {flags : BitVec 64}
    (hsome : (s.leafEntry pt (alignDown vaddr) (Phys.tableFlags flags)).1 ≠ none) (paddr : Nat) :
    Runs [.paging, .pmm] (mapPaddr pt vaddr paddr flags) s (some ((), s.mapPaddr pt vaddr paddr flags)) := by
  refine .acquire (by decide) ?_
  unfold Phys.mapPaddr
  dsimp only
  have h := leafEntry_runs s pt (alignDown vaddr) (Phys.tableFlags flags)
  generalize s.leafEntry pt (alignDown vaddr) (Phys.tableFlags flags) = r at h hsome ⊢
  obtain ⟨_ | ⟨table, i⟩, s1⟩ := r
  · exact absurd rfl hsome
  · refine .bind h (.bind .get (.bind (dropEntry_runs s1 _) (.bind (.modify _) ?_)))
    exact .release (by decide) (.pure ())

/-- After a failed allocation the lock is still held. -/
theorem mapPaddr_holds {s : Phys} {pt : Pfn} {vaddr : Nat} {flags : BitVec 64}
    (hnone : (s.leafEntry pt (alignDown vaddr) (Phys.tableFlags flags)).1 = none) (paddr : Nat)
    {held : MmLock → Bool} (hfree : Lib.Free [.paging, .pmm] held) : mapPaddr pt vaddr paddr flags s held =
      .returned ((), s.mapPaddr pt vaddr paddr flags, update held .paging true) := by
  have hpaging : held .paging = false := hfree _ (by decide)
  have hpmm : Lib.Free [.pmm] (update held .paging true) := by
    intro l hl
    obtain rfl := List.mem_singleton.mp hl
    exact hfree _ (by decide)
  have h := leafEntry_runs s pt (alignDown vaddr) (Phys.tableFlags flags) _ hpmm
  unfold Phys.mapPaddr
  dsimp only
  generalize s.leafEntry pt (alignDown vaddr) (Phys.tableFlags flags) = r at h hnone ⊢
  obtain ⟨_ | ⟨table, i⟩, s1⟩ := r
  · rw [mapPaddr, Lib.acquire_bind _ s hpaging]
    rw [Locked.bind_apply, h]
    rfl
  · cases hnone

def unmapPage (pt : Pfn) (vaddr : Nat) : Locked MmLock Phys Unit := do
  acquire .paging
  let vaddr := alignDown vaddr
  match ← leafEntry pt vaddr 0 with
  | none => do
    release .paging
    pure ()
  | some (table, i) => do
    let entry := (← get).mem table i
    if has entry pflagPresent then do
      dropMapped (entry &&& pageFrameMask)
      modify (·.writeEntry table i 0)
      uPteFreeEmpty pt vaddr
      release .paging
      pure ()
    else do
      release .paging
      pure ()

theorem unmapPage_runs (s : Phys) (pt : Pfn) (vaddr : Nat) :
    Runs [.paging, .pmm] (unmapPage pt vaddr) s (some ((), s.unmapPage pt vaddr)) := by
  refine .acquire (by decide) ?_
  unfold Phys.unmapPage
  dsimp only
  have h := leafEntry_runs s pt (alignDown vaddr) 0
  generalize s.leafEntry pt (alignDown vaddr) 0 = r at h ⊢
  obtain ⟨_ | ⟨table, i⟩, s1⟩ := r
  · exact .bind h (.release (by decide) (.pure ()))
  refine .bind h (.bind .get ?_)
  dsimp only
  split
  · refine .bind (dropMapped_runs s1 _) (.bind (.modify _) (.bind (uPteFreeEmpty_runs _ _ _) ?_))
    exact .release (by decide) (.pure ())
  · exact .release (by decide) (.pure ())

/-! ## Whole page tables -/

/-- The loop of `map_mmio`, which takes no lock of its own. -/
def mapMmioFrom (pt : Pfn) (vaddr paddr : Nat) : Nat → Nat → Locked MmLock Phys Unit
  | _, 0 => pure ()
  | i, n + 1 => do
    match ← leafEntry pt ((vaddr + i * pageSize) % 2 ^ 64) (pflagPresent ||| pflagWrite) with
    | none => pure ()
    | some (table, j) => do
      modify (·.writeEntry table j (BitVec.ofNat 64 (paddr + i * pageSize) ||| pflagMmio))
      mapMmioFrom pt vaddr paddr (i + 1) n

theorem mapMmioFrom_runs (s : Phys) (pt : Pfn) (vaddr paddr i n : Nat) :
    Runs [.pmm] (mapMmioFrom pt vaddr paddr i n) s (some ((), Phys.mapMmioFrom pt vaddr paddr i n s)) := by
  induction n generalizing i s with
  | zero => exact .pure ()
  | succ n ih =>
    rw [mapMmioFrom, Phys.mapMmioFrom]
    have h := leafEntry_runs s pt ((vaddr + i * pageSize) % 2 ^ 64) (pflagPresent ||| pflagWrite)
    generalize s.leafEntry pt ((vaddr + i * pageSize) % 2 ^ 64) (pflagPresent ||| pflagWrite) = r
      at h ⊢
    obtain ⟨_ | ⟨table, j⟩, s1⟩ := r
    · exact .bind h (.pure ())
    · exact .bind h (.bind (.modify _) (ih _ (i + 1)))

def mapMmio (pt : Pfn) (vaddr paddr npages : Nat) : Locked MmLock Phys Unit :=
  mapMmioFrom pt (alignDown vaddr) (alignDown paddr) 0 npages

/-- The loop of `pte_alloc` over the MMIO regions. -/
def mapRegions (pt : Pfn) : List MmioRegion → Locked MmLock Phys Unit
  | [] => pure ()
  | r :: regions => do
    mapMmio pt r.vaddr r.paddr r.npages
    mapRegions pt regions

theorem mapRegions_runs (s : Phys) (pt : Pfn) (regions : List MmioRegion) :
    Runs [.pmm] (mapRegions pt regions) s
      (some ((), regions.foldl (fun s r => s.mapMmio pt r.vaddr r.paddr r.npages) s)) := by
  induction regions generalizing s with
  | nil => exact .pure ()
  | cons r regions ih => exact .bind (mapMmioFrom_runs s pt _ _ 0 r.npages) (ih _)

def pteAlloc : Locked MmLock Phys (Option Pfn) := do
  match ← pmmAllocPage with
  | none => pure none
  | some p => do
    modify (·.zeroPage p)
    modify fun s => { s with mem := update s.mem p s.kernelHalf }
    acquire .mmio
    mapRegions p (← get).mmioRegions
    release .mmio
    pure (some p)

theorem pteAlloc_runs (s : Phys) : Runs [.mmio, .pmm] pteAlloc s (some s.pteAlloc) := by
  unfold Phys.pteAlloc
  have h : Runs [.mmio, .pmm] pmmAllocPage s (some s.pmmAllocPage) :=
    (pmmAllocPage_runs s).mono (by decide)
  generalize s.pmmAllocPage = r at h ⊢
  obtain ⟨_ | p, s1⟩ := r
  · exact .bind h (.pure _)
  · refine .bind h (.bind (.modify _) (.bind (.modify _) ?_))
    exact .acquire (by decide)
      (.bind .get (.bind (mapRegions_runs _ p _) (.release (by decide) (.pure _))))

/-- A loop over the entries of a table. -/
def forEntries (body : Fin 512 → Locked MmLock Phys Unit) : List (Fin 512) → Locked MmLock Phys Unit
  | [] => pure ()
  | i :: is => do
    body i
    forEntries body is

theorem forEntries_runs {body : Fin 512 → Locked MmLock Phys Unit} {f : Phys → Fin 512 → Phys}
    (hbody : ∀ s i, Runs [.pmm] (body i) s (some ((), f s i))) (s : Phys) (is : List (Fin 512)) :
    Runs [.pmm] (forEntries body is) s (some ((), is.foldl f s)) := by
  induction is generalizing s with
  | nil => exact .pure ()
  | cons i is ih => exact .bind (hbody s i) (ih _)

def freeLeaf (table : Pfn) (i : Fin 512) : Locked MmLock Phys Unit := do
  dropEntry ((← get).mem table i)

theorem freeLeaf_runs (table : Pfn) (s : Phys) (i : Fin 512) :
    Runs [.pmm] (freeLeaf table i) s (some ((), s.freeLeaf table i)) :=
  .bind .get (dropEntry_runs s _)

def freeChild (free : Pfn → Locked MmLock Phys Unit) (table : Pfn) (i : Fin 512) :
    Locked MmLock Phys Unit := do
  let entry := (← get).mem table i
  if has entry pflagPresent then
    if has entry pflagHuge then pure () else free (frameOf (entry &&& pageFrameMask))
  else pure ()

theorem freeChild_runs {free : Pfn → Locked MmLock Phys Unit} {f : Phys → Pfn → Phys}
    (hfree : ∀ s t, Runs [.pmm] (free t) s (some ((), f s t))) (table : Pfn) (s : Phys) (i : Fin 512) :
    Runs [.pmm] (freeChild free table i) s (some ((), Phys.freeChild f table s i)) := by
  refine .bind .get ?_
  unfold Phys.freeChild
  dsimp only
  split
  · split
    · exact .pure ()
    · exact hfree s _
  · exact .pure ()

def pteFreeLevel : Nat → Pfn → Locked MmLock Phys Unit
  | 0, _ => pure ()
  | 1, table => do
    forEntries (freeLeaf table) (List.finRange 512)
    freePte (physOf table)
  | depth + 2, table => do
    forEntries (freeChild (pteFreeLevel (depth + 1)) table) (List.finRange 512)
    freePte (physOf table)

theorem pteFreeLevel_runs (depth : Nat) (s : Phys) (table : Pfn) :
    Runs [.pmm] (pteFreeLevel depth table) s (some ((), Phys.pteFreeLevel depth s table)) := by
  induction depth using Nat.strongRecOn generalizing s table with
  | ind depth ih =>
    match depth with
    | 0 => exact .pure ()
    | 1 => exact .bind (forEntries_runs (freeLeaf_runs table) s _) (freePte_runs _ _)
    | depth + 2 =>
      have hchild := freeChild_runs (fun s t => ih (depth + 1) (Nat.lt_succ_self _) s t) table
      exact .bind (forEntries_runs hchild s _) (freePte_runs _ _)

def pteFree (pt : Pfn) : Locked MmLock Phys Unit := do
  if (← get).kernelPt = some pt then pure ()
  else do
    forEntries (freeChild (pteFreeLevel 3) pt) ((List.finRange 512).filter (·.val < 256))
    freePte (physOf pt)

theorem pteFree_runs (s : Phys) (pt : Pfn) : Runs [.pmm] (pteFree pt) s (some ((), s.pteFree pt)) := by
  refine .bind .get ?_
  unfold Phys.pteFree
  split
  · exact .pure ()
  · exact .bind (forEntries_runs (freeChild_runs (pteFreeLevel_runs 3) pt) s _)
      (freePte_runs _ _)

end Locks

end Lapis.Mm
