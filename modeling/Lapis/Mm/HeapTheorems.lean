/-
Lapis.Mm.HeapTheorems — the kernel heap as a user of frames.

A `kzalloc` may take a free frame for a slab, and a `kfree` may give one back; neither touches
memory that is in use. The lemmas say this in the terms of the tables one looks at.
-/
import Lapis.Mm.SpaceTheorems
import Lapis.Mm.FrameTheorems

namespace Lapis.Mm.MmState

open Function (update)
open Lapis.Mm.Phys

variable {V : Spaces} {s : MmState}

/-- The frames of the heap's slabs are in the page database, apart from each other and from the
tables. -/
structure Slabs (V : Spaces) (s : MmState) : Prop where
  nodup : s.heap.slabs.Nodup
  held : ∀ q ∈ s.heap.slabs, Held V s.phys q ∧ q ≤ s.phys.pmm.maxPfn

/-- The heap gets along with the slabs it has, or it takes a free frame. -/
theorem kzalloc_cases (h : Tables V s.phys) : s.kzalloc.2.phys.mem = s.phys.mem ∧
    ((Quiet V s.phys s.kzalloc.2.phys ∧ s.kzalloc.2.heap.slabs = s.heap.slabs) ∨
      ∃ p, Allocates V s.phys s.kzalloc.2.phys p (s.phys.mem p) ∧
        s.kzalloc.2.heap.slabs = p :: s.heap.slabs) := by
  unfold kzalloc
  split
  · exact ⟨rfl, .inl ⟨Quiet.refl h, rfl⟩⟩
  dsimp only
  split
  · exact ⟨rfl, .inl ⟨Quiet.refl h, rfl⟩⟩
  · exact ⟨rfl, .inl ⟨Quiet.refl h, rfl⟩⟩
  rcases pmmAllocPage_cases h with ⟨phys, heq, hquiet, hmem, -⟩ | ⟨p, m, heq, halloc⟩
  · rw [heq]
    exact ⟨hmem, .inl ⟨hquiet, rfl⟩⟩
  · rw [heq]
    have := halloc (s.phys.mem p)
    rw [Function.update_eq_self] at this
    exact ⟨rfl, .inr ⟨p, this, rfl⟩⟩

theorem kzalloc_mmioRegions (s : MmState) : s.kzalloc.2.phys.mmioRegions = s.phys.mmioRegions := by
  unfold kzalloc
  split
  · rfl
  dsimp only
  split
  · rfl
  · rfl
  · unfold Phys.pmmAllocPage
    rcases s.phys.pmm.pmmAllocPage with ⟨_ | p, m⟩ <;> rfl

theorem Slabs.kzalloc (hslabs : Slabs V s) (h : Tables V s.phys) : Slabs V s.kzalloc.2 := by
  rcases (kzalloc_cases h).2 with ⟨hquiet, heq⟩ | ⟨p, halloc, heq⟩
  · refine ⟨heq ▸ hslabs.nodup, fun q hq => ?_⟩
    rw [heq] at hq
    obtain ⟨hheld, hle⟩ := hslabs.held q hq
    exact ⟨hquiet.held hheld, hquiet.step.maxPfn.symm ▸ hle⟩
  have hnew : p ∉ s.heap.slabs := by
    intro hp
    have := (hslabs.held p hp).1.1
    rw [halloc.free] at this
    exact absurd this (by decide)
  refine ⟨heq ▸ List.nodup_cons.mpr ⟨hnew, hslabs.nodup⟩, fun q hq => ?_⟩
  rw [heq] at hq
  rw [halloc.held, halloc.maxPfn]
  rcases List.mem_cons.mp hq with rfl | hq
  · exact ⟨.inr rfl, halloc.le_maxPfn⟩
  · obtain ⟨hheld, hle⟩ := hslabs.held q hq
    exact ⟨.inl hheld, hle⟩

/-- The heap keeps its slabs, or it gives one back. -/
theorem kfree_cases (h : Tables V s.phys) (hslabs : Slabs V s) :
    (s.kfree.phys = s.phys ∧ s.kfree.heap.slabs = s.heap.slabs) ∨
      ∃ p ∈ s.heap.slabs, Step V s.phys s.kfree.phys (on (some p) PageInfo.release) ∧
        s.kfree.phys.mem = s.phys.mem ∧ s.kfree.heap.slabs = s.heap.slabs.erase p := by
  unfold kfree
  split
  · exact .inl ⟨rfl, rfl⟩
  case h_2 drop drops _ =>
    dsimp only
    split
    · exact .inl ⟨rfl, rfl⟩
    case h_2 p hp =>
      right
      obtain ⟨i, -, hi⟩ := Option.bind_eq_some_iff.mp hp
      have hmem := List.mem_of_getElem? hi
      obtain ⟨hheld, hle⟩ := hslabs.held p hmem
      obtain ⟨hkeeps, hinfo⟩ := Pmm.pmmPageRelease_spec h.ok hle
      exact ⟨p, hmem, Step.of_pmm h hkeeps hheld.2 hinfo, rfl, rfl⟩

theorem Slabs.kfree (hslabs : Slabs V s) (h : Tables V s.phys) : Slabs V s.kfree := by
  rcases kfree_cases h hslabs with ⟨hphys, heq⟩ | ⟨p, hp, hstep, -, heq⟩
  · refine ⟨heq ▸ hslabs.nodup, fun q hq => ?_⟩
    rw [heq] at hq
    rw [hphys]
    exact hslabs.held q hq
  · refine ⟨heq ▸ hslabs.nodup.erase p, fun q hq => ?_⟩
    rw [heq, hslabs.nodup.mem_erase_iff] at hq
    obtain ⟨hheld, hle⟩ := hslabs.held q hq.2
    have hne : some p ≠ some q := fun heq => hq.1 (Option.some.inj heq).symm
    obtain ⟨hheld', -⟩ := hstep.keep q hheld (by rw [on_of_ne hne]; exact hheld.1)
    exact ⟨hheld', hstep.maxPfn.symm ▸ hle⟩

end Lapis.Mm.MmState
