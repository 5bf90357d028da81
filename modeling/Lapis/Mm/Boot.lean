/-
Lapis.Mm.Boot — a small machine after boot.

Frame 0 is reserved, frame 1 holds the kernel's top page table, every other frame up to the last
one is free, and no address space exists yet. The kernel heap answers every `kzalloc` from a slab
it has. The concrete runs of this development start here.
-/
import Lapis.Mm.PmmTheorems
import Lapis.Mm.System

namespace Lapis.Mm

/-- The page database of a machine with frames up to `last`. -/
def smallPages (last : Nat) (p : Pfn) : Page where
  next := none
  u2 := 0
  flags := if p = 0 ∨ last < p then pageReserved else if p = 1 then pageAllocated else pageFree
  refcount := if p = 1 then 1 else 0

def smallPmm (last : Nat) : Pmm :=
  Pmm.pmmInit
    { memMap := 0x1000, maxPfn := last, pages := smallPages last, freeList := none, freePages := 0,
      refused := 0 }

def smallMachine (last : Nat) : MmState where
  phys := { pmm := smallPmm last, mem := fun _ _ => 0, kernelPt := some 1, mmioRegions := [] }
  heap := { replies := [], drops := [], slabs := [] }
  vmms := fun _ => none
  nextVmm := 0
  current := none

/-- The flags of a readable and writable mapping of a program. -/
def userRw : BitVec 32 := vflagPresent ||| vflagWritable ||| vflagUser

theorem smallPages_flags (last : Nat) (p : Pfn) : (smallPages last p).flags = pageReserved ∨
      ((smallPages last p).flags = pageAllocated ∧ p = 1) ∨
      ((smallPages last p).flags = pageFree ∧ p ≠ 0 ∧ p ≠ 1 ∧ p ≤ last) := by
  unfold smallPages
  dsimp only
  by_cases h0 : p = 0 ∨ last < p
  · exact .inl (if_pos h0)
  · rw [if_neg h0]
    by_cases h1 : p = 1
    · exact .inr (.inl ⟨if_pos h1, h1⟩)
    · exact .inr (.inr ⟨if_neg h1, fun h => h0 (.inl h), h1, Nat.le_of_not_lt fun hlt => h0 (.inr hlt)⟩)

theorem smallPages_free {last : Nat} {p : Pfn} (h : (smallPages last p).isPageFree = true) :
    (smallPages last p).flags = pageFree ∧ p ≠ 1 ∧ p ≤ last := by
  rw [Page.isPageFree_eq] at h
  rcases smallPages_flags last p with hf | ⟨hf, -⟩ | ⟨hf, -, h1, hle⟩
  · simp [hf, pageReserved] at h
  · simp [hf, pageAllocated] at h
  · exact ⟨hf, h1, hle⟩

theorem smallPmm_ok (last : Nat) : (smallPmm last).Ok := by
  refine (Pmm.pmmInit_spec ⟨fun p hp => ?_, fun p hp => ?_, fun p hp hres => ?_, ⟨?_, ?_⟩, fun p => ?_,
    Nat.succ_pos _⟩).1
  · obtain ⟨-, h1, hle⟩ := smallPages_free hp
    exact ⟨hle, if_neg h1⟩
  · rw [Page.isPageAllocated_eq, Page.isPageShared_eq, (smallPages_free hp).1]
    simp [pageFree]
  · rw [Page.isPageFree_eq] at hp
    rw [Page.isPageReserved_eq] at hres
    change 0 < (smallPages last p).refcount
    rcases smallPages_flags last p with h | ⟨-, h⟩ | ⟨h, -⟩
    · simp [h, pageReserved] at hres
    · simp [smallPages, h]
    · simp [h, pageFree] at hp
  · rw [Page.isPageFree_eq]
    simp [smallPages, pageReserved]
  · rw [Page.isPageReserved_eq]
    simp [smallPages, pageReserved]
  · rw [Page.isPageDirty_eq]
    rcases smallPages_flags last p with h | ⟨h, -⟩ | ⟨h, -⟩ <;>
      simp [h, pageReserved, pageAllocated, pageFree]

/-- The memory of a small machine after one page was allocated, which is the last frame. -/
def smallPhys (last : Nat) : Phys :=
  { (smallMachine last).phys with pmm := (smallPmm last).pmmAllocPage.2 }

end Lapis.Mm
