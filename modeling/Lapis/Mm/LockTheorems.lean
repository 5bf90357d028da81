/-
Lapis.Mm.LockTheorems — the lock discipline of the memory manager.

An operation keeps the discipline if it returns with exactly the locks held that were held when it
was called; one that takes a lock it holds waits for ever and does not return. Three things go wrong.
`map_paddr` returns with `paging_lock` held when a page table cannot be had. `vmm_brk` holds `vmm_lock`
when it calls `vmm_map` or `vmm_unmap`, which take it. And `vmm_map` holds `vmm_lock` during a search
that for two sizes may go on for ever. `lock_discipline_iff` says when each operation is safe, in terms
of the state it is called in.
-/
import Lapis.Mm.LockedVmm
import Lapis.Mm.PermissionTheorems
import Lapis.Mm.SearchTheorems

namespace Lapis.Mm

open Function List Option Lib
open VmaTree

/-! ## The tables a walk needs -/

/-- An allocation fails exactly when no page is free, and it takes one page. -/
theorem Pmm.pmmAllocPage_freePages {m : Pmm} (h : m.Ok) : (m.pmmAllocPage.1 = none ↔ m.freePages = 0) ∧
      m.pmmAllocPage.2.freePages = m.freePages - 1 := by
  obtain ⟨fl, hfl⟩ := h
  unfold pmmAllocPage
  cases hhead : m.freeList with
  | none =>
    have hnil := hfl.links.head_eq_none_iff.mp hhead
    have hcount : m.freePages = 0 := by rw [hfl.count, hnil, length_nil]
    exact ⟨iff_of_true rfl hcount, by rw [hcount]⟩
  | some p =>
    obtain ⟨ys, rfl⟩ := hfl.links.head_eq_some_iff.mp hhead
    have hcount : m.freePages = ys.length + 1 := hfl.count
    have hcounters := counters_takeOff (m := m) (p := p)
      (f := fun g => { g with flags := allocFlags g.flags, refcount := 1, u2 := 1 })
    exact ⟨iff_of_false (some_ne_none p) (by omega), hcounters.2.1⟩

namespace Phys

/-- The walk down the tables along a path. -/
def descend (flags : BitVec 64) : List (Fin 512) → Pfn → Phys → Option Pfn × Phys
  | [], t, s => (some t, s)
  | i :: path, t, s =>
    match s.pteNext t i flags with
    | (none, s) => (none, s)
    | (some u, s) => descend flags path u s

theorem leafEntry_eq_descend (s : Phys) (pt : Pfn) (v : Nat) (flags : BitVec 64) :
    (s.leafEntry pt v flags).1 =
      (descend flags [pml4Index v, pml3Index v, pml2Index v] pt s).1.map (·, pml1Index v) := by
  unfold leafEntry descend
  obtain ⟨_ | t1, s1⟩ := s.pteNext pt (pml4Index v) flags
  · rfl
  dsimp only
  unfold descend
  obtain ⟨_ | t2, s2⟩ := s1.pteNext t1 (pml3Index v) flags
  · rfl
  dsimp only
  unfold descend
  obtain ⟨_ | t3, s3⟩ := s2.pteNext t2 (pml2Index v) flags
  · rfl
  · rfl

/-- A page for every table that is missing is what the walk needs, as long as no table it meets
is on the free list. -/
theorem descend_ne_none_iff {s : Phys} {t : Pfn} {path : List (Fin 512)} (hok : s.pmm.Ok)
    (hsmall : s.pmm.maxPfn < 2 ^ 40) (flags : BitVec 64)
    (hheld : ∀ u ∈ t :: (walk s.mem t path).map leafFrame, (s.pmm.info u).free = false) :
    (descend (tableFlags flags) path t s).1 ≠ none ↔
      path.length ≤ (walk s.mem t path).length + s.pmm.freePages := by
  induction path generalizing s t with
  | nil => exact iff_of_true (some_ne_none t) (Nat.zero_le _)
  | cons i path ih =>
    unfold descend walk
    unfold walk at hheld
    cases hpresent : present (s.mem t i) with
    | some e =>
      obtain ⟨hhas, rfl⟩ := present_eq_some_iff.mp hpresent
      rw [hpresent] at hheld
      rw [pteNext_of_present hpresent]
      dsimp only
      rw [ih hok hsmall fun u hu => hheld u (mem_cons_of_mem t hu)]
      simp only [length_cons]
      omega
    | none =>
    have ht := hheld t mem_cons_self
    have hcount := Pmm.pmmAllocPage_freePages hok
    rw [pteNext_of_absent hpresent (tableFlags_ne_zero flags), allocPte, pmmAllocPage]
    rcases Pmm.pmmAllocPage_spec hok with ⟨heq, -⟩ | ⟨p, m, heq, hp, hle, hp0, hm, hinfo⟩
    · rw [heq] at hcount ⊢
      have hzero := hcount.1.mp rfl
      refine iff_of_false (fun hc => hc rfl) ?_
      simp only [length_cons, length_nil]
      omega
    · -- the new table is empty, so every table below it is missing
      rw [heq] at hcount ⊢
      have hpos : s.pmm.freePages ≠ 0 := fun hzero => by cases hcount.1.mpr hzero
      have hfree : m.freePages = s.pmm.freePages - 1 := hcount.2
      have hlt : p < 2 ^ 40 := Nat.lt_of_le_of_lt hle hsmall
      have hphys : m.pfnDbPageToPhys p = physOf p := by
        rw [Pmm.pfnDbPageToPhys, hm.maxPfn, if_neg (Nat.not_lt.mpr hle)]
        rfl
      have hne : p ≠ t := by
        rintro rfl
        simp [hp] at ht
      dsimp only
      rw [hphys, if_neg (physOf_ne_zero hp0 hlt), frameOf_physOf hlt]
      dsimp only
      generalize hs' : (({ s with pmm := m } : Phys).zeroPage p).writeEntry t i
        (physOf p ||| tableFlags flags) = s'
      have hpmm : s'.pmm = m := by rw [← hs']; rfl
      have hmem : s'.mem p = fun _ => 0 := by
        rw [← hs']
        change update (update s.mem p _) t _ p = _
        rw [update_of_ne hne, update_self]
      have hwalk : walk s'.mem p path = [] := by
        cases path with
        | nil => rfl
        | cons j path =>
          unfold walk
          rw [hmem, present_zero]
      have hrest := @ih s' p (hpmm ▸ hm.ok) (by rw [hpmm, hm.maxPfn]; exact hsmall) (by
        intro u hu
        rw [hwalk, map_nil, mem_singleton] at hu
        rw [hu, hpmm, hinfo, update_self]
        exact PageInfo.free_alloc _)
      rw [hrest, hwalk, hpmm, hfree]
      simp only [length_cons, length_nil]
      omega

/-- `_leaf_entry` finds or builds the way to an address exactly when there are pages for the tables
that are missing. -/
theorem leafEntry_ne_none_iff {s : Phys} {pt : Pfn} {v : Nat} (hok : s.pmm.Ok)
    (hsmall : s.pmm.maxPfn < 2 ^ 40) (flags : BitVec 64)
    (hheld : ∀ u ∈ pt :: (s.tableEntries pt v).map leafFrame, (s.pmm.info u).free = false) :
    (s.leafEntry pt v (tableFlags flags)).1 ≠ none ↔ 3 ≤ (s.tableEntries pt v).length + s.pmm.freePages := by
  rw [leafEntry_eq_descend, Ne, map_eq_none_iff]
  exact descend_ne_none_iff hok hsmall flags hheld

end Phys

/-! ## The operations -/

/-- A call of vmm.c or paging.c; a pointer may be NULL. -/
inductive MmCall
  | vmmMap (id base size : Nat) (flags : BitVec 32)
  | vmmUnmap (id base size : Nat)
  | vmmProtect (id base size : Nat) (flags : BitVec 32)
  | vmmBrk (id newBrk : Nat)
  | vmmFork (parent : Nat)
  | mapPage (pt : Option Pfn) (vaddr : Nat) (page : Option Pfn) (flags : BitVec 64)
  | mapPaddr (pt : Option Pfn) (vaddr paddr : Nat) (flags : BitVec 64)
  | unmapPage (pt : Option Pfn) (vaddr : Nat)
  | pteAlloc
  | regKernelMmio (vaddr paddr npages : Nat)
  deriving DecidableEq, Repr

namespace MmCall

def run : MmCall → Locked MmLock MmState Unit
  | vmmMap id base size flags => do
    let _ ← Locks.vmmMap id base size flags
    pure ()
  | vmmUnmap id base size => do
    let _ ← Locks.vmmUnmap id base size
    pure ()
  | vmmProtect id base size flags => do
    let _ ← Locks.vmmProtect id base size flags
    pure ()
  | vmmBrk id newBrk => do
    let _ ← Locks.vmmBrk id newBrk
    pure ()
  | vmmFork parent => do
    let _ ← Locks.vmmFork parent
    pure ()
  | mapPage (some pt) vaddr (some page) flags => Locks.onPhys (Locks.mapPage pt vaddr page flags)
  | mapPage _ _ _ _ => pure ()
  | mapPaddr (some pt) vaddr paddr flags => Locks.onPhys (Locks.mapPaddr pt vaddr paddr flags)
  | mapPaddr none _ _ _ => pure ()
  | unmapPage (some pt) vaddr => Locks.onPhys (Locks.unmapPage pt vaddr)
  | unmapPage none _ => pure ()
  | pteAlloc => do
    let _ ← Locks.onPhys Locks.pteAlloc
    pure ()
  | regKernelMmio vaddr paddr npages => Locks.regKernelMmio vaddr paddr npages

/-- The locks a call may take. -/
def locks : MmCall → List MmLock
  | mapPage .. | mapPaddr .. | unmapPage .. => [.paging, .pmm]
  | pteAlloc => [.mmio, .pmm]
  | regKernelMmio .. => [.mmio, .kheap, .pmm]
  | _ => .vmm :: Locks.inner

/-- The call returns, and the locks held then are those held before. -/
def Disciplined (call : MmCall) (s : MmState) (held : MmLock → Bool) : Prop :=
  ∃ s', call.run s held = .returned ((), s', held)

/-- No table on the way to the address of a `map_paddr` is on the free list. -/
def OnTables : MmCall → MmState → Prop
  | mapPaddr (some pt) vaddr _ _, s =>
    ∀ t ∈ pt :: (s.phys.tableEntries pt (alignDown vaddr)).map leafFrame,
      (s.phys.pmm.info t).free = false
  | _, _ => True

/-- When a call keeps the discipline. -/
def Safe : MmCall → MmState → Prop
  | vmmMap id base size flags, s => ∀ vmm, s.vmms id = some vmm → size ≠ 0 → base = 0 →
    has flags vflagFixed = false → GapEnds vmm.vmas (alignUp size) vmm.mmapBase
  | vmmBrk id newBrk, s => ∀ vmm, s.vmms id = some vmm →
    alignUp newBrk < vmm.brkBase ∨ alignUp newBrk = vmm.brk
  | mapPaddr (some pt) vaddr _ _, s =>
    3 ≤ (s.phys.tableEntries pt (alignDown vaddr)).length + s.phys.pmm.freePages
  | _, _ => True

end MmCall

/-- The trees are in order, the VMAs lie on page boundaries, addresses have 64 bits, and the free
list is well formed. -/
structure MmState.Consistent (s : MmState) : Prop where
  ascending : ∀ {id vmm}, s.vmms id = some vmm → Ascending vmm.vmas
  aligned : ∀ {id vmm}, s.vmms id = some vmm → ∀ v ∈ vmm.vmas, v.Aligned
  mmapBase : ∀ {id vmm}, s.vmms id = some vmm → vmm.mmapBase < 2 ^ 64
  brk : ∀ {id vmm}, s.vmms id = some vmm → vmm.brk < 2 ^ 64
  pmm : s.phys.pmm.Ok
  small : s.phys.pmm.maxPfn < 2 ^ 40

section Discipline

variable {s : MmState} {held : MmLock → Bool} {L : List MmLock}

/-- A program whose outcome is known returns exactly when it ends. -/
theorem returns_iff {α : Type} {m : Locked MmLock MmState α} {x : Option (α × MmState)}
    (h : Runs L m s x) (hfree : Free L held) :
    (∃ s', (do let _ ← m; pure () : Locked MmLock MmState Unit) s held =
      .returned ((), s', held)) ↔ x ≠ none := by
  rw [Locked.bind_apply, h held hfree]
  obtain _ | ⟨a, t⟩ := x
  · refine iff_of_false (fun hc => ?_) (fun hc => hc rfl)
    obtain ⟨s', hs'⟩ := hc
    cases hs'
  · exact iff_of_true ⟨t, rfl⟩ (some_ne_none _)

theorem returns_of_runs {m : Locked MmLock MmState Unit} {s' : MmState}
    (h : Runs L m s (some ((), s'))) (hfree : Free L held) : ∃ s', m s held = .returned ((), s', held) :=
  ⟨s', h held hfree⟩

theorem alignUp_le (x : Nat) : alignUp x ≤ hugeSize := by
  simp only [alignUp, hugeSize, pageSize]
  omega

/-! ## vmm_map and vmm_protect end -/

theorem vmmMap_ne_none_iff (h : s.Consistent) (id base size : Nat) (flags : BitVec 32) :
    s.vmmMap id base size flags ≠ none ↔ (MmCall.vmmMap id base size flags).Safe s := by
  unfold MmState.vmmMap MmCall.Safe
  cases hid : s.vmms id with
  | none => exact iff_of_true (some_ne_none _) fun vmm hvmm => by rw [hid] at hvmm; cases hvmm
  | some vmm =>
  dsimp only
  by_cases hsize : size = 0
  · rw [if_pos hsize]
    exact iff_of_true (some_ne_none _) fun _ _ hne => absurd hsize hne
  rw [if_neg hsize]
  have hplace : choosePlace vmm base (alignUp size) flags ≠ none ↔ (base = 0 → has flags vflagFixed = false →
        GapEnds vmm.vmas (alignUp size) vmm.mmapBase) := by
    unfold choosePlace
    by_cases hauto : base = 0 ∧ has flags vflagFixed = false
    · rw [if_pos hauto, findFreeGap, Option.map_map, Ne, Option.map_eq_none_iff, ← Ne,
        findFreeGapFrom_ends_iff (h.ascending hid) (h.aligned hid) (alignUp_le size)
          (alignUp_dvd size) (h.mmapBase hid)]
      exact ⟨fun hends _ _ => hends, fun hends => hends hauto.1 hauto.2⟩
    · rw [if_neg hauto]
      dsimp only
      refine iff_of_true ?_ fun hb hf => absurd ⟨hb, hf⟩ hauto
      split
      · exact some_ne_none _
      · exact some_ne_none _
  have hsafe : (∀ vmm', s.vmms id = some vmm' → size ≠ 0 → base = 0 →
      has flags vflagFixed = false → GapEnds vmm'.vmas (alignUp size) vmm'.mmapBase) ↔
      (base = 0 → has flags vflagFixed = false → GapEnds vmm.vmas (alignUp size) vmm.mmapBase) := by
    simp [hid, hsize]
  rw [hsafe, ← hplace]
  generalize choosePlace vmm base (alignUp size) flags = r
  obtain _ | ⟨_ | place, vmm'⟩ := r
  · exact iff_of_false (fun hc => hc rfl) (fun hc => hc rfl)
  · exact iff_of_true (some_ne_none _) (some_ne_none _)
  · exact iff_of_true (some_ne_none _) (some_ne_none _)

variable {id size : Nat} {vmm : Vmm}

/-- A search that does not end goes on with `vmm_lock` held. -/
theorem vmmMap_endless {flags : BitVec 32} (hid : s.vmms id = some vmm)
    (hsize : size ≠ 0) (hfixed : has flags vflagFixed = false)
    (hgap : findFreeGapFrom vmm.vmas (alignUp size) (2 ^ 64) vmm.mmapBase = none)
    (hfree : Free (.vmm :: Locks.inner) held) : (MmCall.vmmMap id 0 size flags).run s held = .endless := by
  have hnone : s.vmmMap id 0 size flags = none := by
    rw [MmState.vmmMap, hid]
    dsimp only
    rw [if_neg hsize, choosePlace, if_pos ⟨rfl, hfixed⟩, findFreeGap, hgap]
    rfl
  have hruns := Locks.vmmMap_runs s id 0 size flags held hfree
  rw [hnone] at hruns
  exact Lib.bind_endless _ hruns

theorem vmmProtect_ne_none (h : s.Consistent) (id base size : Nat) (flags : BitVec 32) :
    s.vmmProtect id base size flags ≠ none := by
  unfold MmState.vmmProtect
  cases hid : s.vmms id with
  | none => exact some_ne_none _
  | some vmm =>
    dsimp only
    split
    · exact some_ne_none _
    · have hlimit : add64 (alignDown base) (alignUp size) < 2 ^ 64 := Nat.mod_lt _ (by decide)
      exact protectLoop_ends hlimit (by omega) flags hid (h.ascending hid)

/-! ## vmm_brk -/

/-- `vmm_map` waits for ever on a lock it holds. -/
theorem vmmMap_deadlock (hid : s.vmms id = some vmm) (base : Nat)
    (hsize : size ≠ 0) (flags : BitVec 32) (hheld : held .vmm = true) :
    Locks.vmmMap id base size flags s held = .deadlock .vmm := by
  unfold Locks.vmmMap
  rw [Lib.get_bind, hid]
  dsimp only
  rw [if_neg hsize]
  exact Lib.acquire_bind_deadlock _ s hheld

theorem vmmUnmap_deadlock (hid : s.vmms id = some vmm) (base : Nat)
    (hsize : size ≠ 0) (hheld : held .vmm = true) : Locks.vmmUnmap id base size s held = .deadlock .vmm := by
  unfold Locks.vmmUnmap
  rw [Lib.get_bind, hid]
  dsimp only
  rw [if_neg hsize]
  exact Lib.acquire_bind_deadlock _ s hheld

/-- A call that moves the break never returns. -/
theorem vmmBrk_deadlock {newBrk : Nat} (hid : s.vmms id = some vmm)
    (hbrk : vmm.brk < 2 ^ 64) (hbase : ¬ alignUp newBrk < vmm.brkBase)
    (hne : alignUp newBrk ≠ vmm.brk) (hfree : held .vmm = false) :
    Locks.vmmBrk id newBrk s held = .deadlock .vmm := by
  have hheld : update held .vmm true MmLock.vmm = true := update_self ..
  have hnew := alignUp_le newBrk
  unfold Locks.vmmBrk
  rw [Lib.get_bind, hid]
  dsimp only
  generalize alignUp newBrk = brk at *
  rw [if_neg hbase, Lib.acquire_bind _ s hfree]
  by_cases hgrow : vmm.brk < brk
  · have hsize : sub64 brk vmm.brk ≠ 0 := by
      simp only [hugeSize, pageSize] at hnew
      rw [sub64_eq hgrow.le (by omega)]
      omega
    rw [if_pos hgrow]
    exact Lib.bind_deadlock _ (vmmMap_deadlock hid _ hsize _ hheld)
  · have hsize : sub64 vmm.brk brk ≠ 0 := by
      rw [sub64_eq (by omega) hbrk]
      omega
    rw [if_neg hgrow, if_pos (by omega)]
    exact Lib.bind_deadlock _ (vmmUnmap_deadlock hid _ hsize hheld)

theorem vmmBrk_runs {newBrk : Nat} (hsafe : (MmCall.vmmBrk id newBrk).Safe s) :
    ∃ brk, Runs (.vmm :: Locks.inner) (Locks.vmmBrk id newBrk) s (some (brk, s)) := by
  unfold MmCall.Safe at hsafe
  cases hid : s.vmms id with
  | none =>
    refine ⟨0, .bind .get ?_⟩
    rw [hid]
    exact .pure 0
  | some vmm =>
  by_cases hbase : alignUp newBrk < vmm.brkBase
  · refine ⟨vmm.brkBase, .bind .get ?_⟩
    rw [hid]
    dsimp only
    rw [if_pos hbase]
    exact .pure _
  · have heq := (hsafe vmm hid).resolve_left hbase
    refine ⟨vmm.brk, .bind .get ?_⟩
    rw [hid]
    dsimp only
    rw [if_neg hbase]
    refine .acquire (by decide) ?_
    rw [heq, if_neg (Nat.lt_irrefl _), if_neg (Nat.lt_irrefl _)]
    exact Locks.release_runs _ _

/-! ## map_paddr -/

/-- After a failed allocation `paging_lock` stays held. -/
theorem mapPaddr_left {pt : Pfn} {vaddr : Nat} {flags : BitVec 64}
    (hnone : (s.phys.leafEntry pt (alignDown vaddr) (Phys.tableFlags flags)).1 = none) (paddr : Nat)
    (hfree : Free [.paging, .pmm] held) : (MmCall.mapPaddr (some pt) vaddr paddr flags).run s held =
      .returned ((), s.modPhys fun phys => phys.mapPaddr pt vaddr paddr flags, update held .paging true) := by
  rw [MmCall.run, Locks.onPhys, Locked.on, Locks.mapPaddr_holds hnone paddr hfree]
  rfl

/-! ## Every call -/

/-- Every call of the memory manager returns with exactly the locks held that were held before, and
without waiting for a lock it holds, if and only if it is safe in the state it is made in. -/
theorem lock_discipline_iff (h : s.Consistent) (call : MmCall) (htables : call.OnTables s)
    (hfree : Free call.locks held) : call.Disciplined s held ↔ call.Safe s := by
  cases call with
  | vmmMap id base size flags =>
    rw [← vmmMap_ne_none_iff h]
    exact returns_iff (Locks.vmmMap_runs s id base size flags) hfree
  | vmmUnmap id base size =>
    exact iff_of_true ((returns_iff (Locks.vmmUnmap_runs s id base size) hfree).mpr
      (some_ne_none _)) trivial
  | vmmProtect id base size flags =>
    exact iff_of_true ((returns_iff (Locks.vmmProtect_runs s id base size flags) hfree).mpr
      (vmmProtect_ne_none h id base size flags)) trivial
  | vmmBrk id newBrk =>
    constructor
    · rintro ⟨s', hs'⟩ vmm hid
      by_contra hunsafe
      rw [not_or] at hunsafe
      have hdead := vmmBrk_deadlock hid (h.brk hid) hunsafe.1 hunsafe.2
        (hfree .vmm mem_cons_self)
      have hrun : (MmCall.vmmBrk id newBrk).run s held = .deadlock .vmm := Lib.bind_deadlock _ hdead
      rw [hrun] at hs'
      cases hs'
    · intro hsafe
      obtain ⟨brk, hruns⟩ := vmmBrk_runs hsafe
      exact (returns_iff hruns hfree).mpr (some_ne_none _)
  | vmmFork parent =>
    exact iff_of_true ((returns_iff (Locks.vmmFork_runs s parent) hfree).mpr
      (some_ne_none _)) trivial
  | mapPage pt vaddr page flags =>
    refine iff_of_true ?_ trivial
    cases pt with
    | none => exact ⟨s, rfl⟩
    | some pt =>
      cases page with
      | none => exact ⟨s, rfl⟩
      | some page =>
        exact returns_of_runs (Locks.onPhys_runs (Locks.mapPage_runs s.phys pt vaddr page flags)) hfree
  | mapPaddr pt vaddr paddr flags =>
    cases pt with
    | none => exact iff_of_true ⟨s, rfl⟩ trivial
    | some pt =>
    have hwalk := Phys.leafEntry_ne_none_iff h.pmm h.small flags htables
    refine ⟨?_, fun hsafe => ?_⟩
    · rintro ⟨s', hs'⟩
      refine hwalk.mp fun hnone => ?_
      have hpaging : held .paging = false := hfree .paging mem_cons_self
      rw [mapPaddr_left hnone paddr hfree] at hs'
      simp only [Outcome.returned.injEq, Prod.mk.injEq] at hs'
      have hkept := congrFun hs'.2.2 .paging
      simp [update_self, hpaging] at hkept
    · exact returns_of_runs (Locks.onPhys_runs (Locks.mapPaddr_runs (hwalk.mpr hsafe) paddr)) hfree
  | unmapPage pt vaddr =>
    refine iff_of_true ?_ trivial
    cases pt with
    | none => exact ⟨s, rfl⟩
    | some pt => exact returns_of_runs (Locks.onPhys_runs (Locks.unmapPage_runs s.phys pt vaddr)) hfree
  | pteAlloc =>
    exact iff_of_true ((returns_iff (Locks.onPhys_runs (Locks.pteAlloc_runs s.phys)) hfree).mpr
      (some_ne_none _)) trivial
  | regKernelMmio vaddr paddr npages =>
    exact iff_of_true (returns_of_runs (Locks.regKernelMmio_runs s vaddr paddr npages) hfree) trivial

end Discipline

/-! ## The small machine -/

theorem smallMachine_consistent {last : Nat} (h : (smallPmm last).maxPfn < 2 ^ 40) :
    (smallMachine last).Consistent :=
  ⟨nofun, nofun, nofun, nofun, smallPmm_ok last, h⟩

/-- With twelve frames there are pages for the three tables below the kernel's top table. -/
theorem lock_discipline_small :
    (MmCall.mapPaddr (some 1) 0x1000 0x2000 0).Disciplined (smallMachine 12) (fun _ => false) := by
  have htables : (MmCall.mapPaddr (some 1) 0x1000 0x2000 0).OnTables (smallMachine 12) := by
    have hall : ∀ t ∈ 1 :: ((smallMachine 12).phys.tableEntries 1 (alignDown 0x1000)).map leafFrame,
        ((smallMachine 12).phys.pmm.info t).free = false := by decide +kernel
    exact hall
  have hsafe : 3 ≤ ((smallMachine 12).phys.tableEntries 1 (alignDown 0x1000)).length +
      (smallMachine 12).phys.pmm.freePages := by decide +kernel
  exact (lock_discipline_iff (smallMachine_consistent (by decide +kernel)) _ htables
    fun _ _ => rfl).mpr hsafe

/-- An address space after a first `vmm_map`: the next search begins at the base of its VMA. -/
def mappedOnce : MmState :=
  match (smallMachine 12).vmmCreate.2.vmmMap 0 0 0x1000 userRw with
  | some (_, s) => s
  | none => smallMachine 12

theorem mappedOnce_vmms : mappedOnce.vmms 0 = some
    { vmas := [⟨0x6ffffffff000, 0x1000, userRw ||| vflagAllocated⟩], vmasCount := 1, pml4 := 12,
      flags := vmmFlagOwnsPml4, mmapBase := 0x6ffffffff000, stackTop := vmmStackTop, brk := 0,
      brkBase := 0 } := by
  decide +kernel

/-- Without a free page `map_paddr` leaves `paging_lock` held, `vmm_brk` waits for itself when the
break is to grow, and `vmm_map` with a size that is rounded to 0 searches for ever. -/
theorem lock_discipline_broken :
    (∃ s, (MmCall.mapPaddr (some 1) 0x1000 0x2000 0).run (smallMachine 1) (fun _ => false) =
      .returned ((), s, update (fun _ => false) .paging true)) ∧
    (MmCall.vmmBrk 0 0x1000).run mappedOnce (fun _ => false) = .deadlock .vmm ∧
    (MmCall.vmmMap 0 0 (2 ^ 64 - 1) userRw).run mappedOnce (fun _ => false) = .endless := by
  refine ⟨⟨_, mapPaddr_left (by decide +kernel) _ fun _ _ => rfl⟩, ?_, ?_⟩
  · exact Lib.bind_deadlock _ (vmmBrk_deadlock mappedOnce_vmms (by decide) (by decide) (by decide) rfl)
  -- the VMA at the hint is met in every round
  have hgap : findFreeGapFrom [⟨0x6ffffffff000, 0x1000, userRw ||| vflagAllocated⟩] 0 (2 ^ 64)
      0x6ffffffff000 = none :=
    findFreeGapFrom_zero_endless (pairwise_singleton _ _) mem_cons_self (by decide)
      (by decide) (by decide) _
  have hsize : alignUp (2 ^ 64 - 1) = 0 := by decide
  exact vmmMap_endless mappedOnce_vmms (by decide) (by decide) (by rw [hsize]; exact hgap)
    fun _ _ => rfl

end Lapis.Mm
