/-
Lapis.Mm.MappedTheorems — references to frames, added up over the leaves that name them.

A leaf is a reference to its frame, and a frame may have further references, held by the kernel
or by the caller, which `bal` counts. `Mapped` says that a frame with any of these is neither
free nor a table, and that its counter is at least their number. `map_page` and `unmap_page` keep
this without knowing what the further references are for (`Mapped.mapPage`,
`Mapped.unmapPage`); it is all a caller has to know about counters to see that no frame is freed
under a mapping.
-/
import Lapis.Lib.RefCount
import Lapis.Mm.PagingTheorems

namespace Lapis.Mm

open Function Option Lib

namespace Phys

instance (top n : Nat) : Decidable (Below top n) := inferInstanceAs (Decidable (_ ∧ _))

/-- The frames the pages of the address spaces are mapped to. -/
def frames (V : Spaces) (mem : Memory) (kn : Nat × Nat) : Option Pfn :=
  if Below V.top kn.2 then (leaf V mem kn.1 kn.2).map leafFrame else none

/-- Every frame with a reference is held and has its references counted. -/
structure Mapped (V : Spaces) (bal : Pfn → Nat) (s : Phys) : Prop where
  tables : Tables V s
  finitary : Finitary (frames V s.mem)
  backed : ∀ q, 0 < refs (frames V s.mem) q + bal q → Held V s q ∧ q ≤ s.pmm.maxPfn ∧
    ((s.pmm.info q).reserved = true ∨
      refs (frames V s.mem) q + bal q ≤ (s.pmm.info q).refcount)

variable {V : Spaces} {bal bal' : Pfn → Nat} {s s' : Phys} {k n v : Nat} {pt q page : Pfn}
  {f : Pfn → PageInfo → PageInfo}

theorem frames_eq (hn : Below V.top n) : frames V s.mem (k, n) = frameAt V s k n := if_pos hn

theorem SetsLeaf.frames {x : Option (BitVec 64)} (h : SetsLeaf V s s' k n x) (hn : Below V.top n) :
    Phys.frames V s'.mem = update (Phys.frames V s.mem) (k, n) (x.map leafFrame) := by
  funext ⟨k', n'⟩
  by_cases hn' : Below V.top n'
  · rw [Phys.frames, if_pos hn', h k' n' hn']
    by_cases hkn : k' = k ∧ n' = n
    · obtain ⟨rfl, rfl⟩ := hkn
      rw [if_pos ⟨rfl, rfl⟩, update_self]
    · rw [if_neg hkn, update_of_ne fun heq => hkn (Prod.mk.inj heq), Phys.frames, if_pos hn']
  · have hne : (k', n') ≠ (k, n) := by
      rintro heq
      obtain ⟨rfl, rfl⟩ := Prod.mk.inj heq
      exact hn' hn
    rw [Phys.frames, if_neg hn', update_of_ne hne, Phys.frames, if_neg hn']

theorem Quiet.frames (h : Quiet V s s') : Phys.frames V s'.mem = Phys.frames V s.mem := by
  funext ⟨k, n⟩
  by_cases hn : Below V.top n
  · rw [Phys.frames, if_pos hn, h.leaf k n hn, Phys.frames, if_pos hn]
  · rw [Phys.frames, if_neg hn, Phys.frames, if_neg hn]

/-- The frame of a leaf is held. -/
theorem Mapped.leaf (h : Mapped V bal s) (hn : Below V.top n) (hq : frameAt V s k n = some q) :
    Held V s q ∧ q ≤ s.pmm.maxPfn := by
  have hpos := refs_pos h.finitary ((frames_eq hn).trans hq)
  obtain ⟨hheld, hle, -⟩ := h.backed q (by omega)
  exact ⟨hheld, hle⟩

/-- A step that accounts for its effect on every frame that still has a reference. -/
theorem Mapped.of_step (hstep : Step V s s' f) (hfin : Finitary (frames V s'.mem))
    (hback : ∀ q, 0 < refs (frames V s'.mem) q + bal' q →
      Held V s q ∧ q ≤ s.pmm.maxPfn ∧ (f q (s.pmm.info q)).free = false ∧
      ((f q (s.pmm.info q)).reserved = true ∨
        refs (frames V s'.mem) q + bal' q ≤ (f q (s.pmm.info q)).refcount)) : Mapped V bal' s' := by
  refine ⟨hstep.tables, hfin, fun q hq => ?_⟩
  obtain ⟨hheld, hle, hfree, hcount⟩ := hback q hq
  obtain ⟨hheld', hinfo, -⟩ := hstep.keep q hheld hfree
  rw [hinfo, hstep.maxPfn]
  exact ⟨hheld', hle, hcount⟩

theorem Mapped.quiet (h : Mapped V bal s) (hquiet : Quiet V s s') : Mapped V bal s' := by
  have hframes := hquiet.frames
  refine Mapped.of_step hquiet.step (by rw [hframes]; exact h.finitary) fun q hq => ?_
  rw [hframes] at hq ⊢
  obtain ⟨hheld, hle, hcount⟩ := h.backed q hq
  exact ⟨hheld, hle, hheld.1, hcount⟩

/-- Dropping the reference of one leaf. -/
theorem Mapped.drop (h : Mapped V bal s) (hn : Below V.top n)
    (hq : 0 < refs (update (frames V s.mem) (k, n) none) q + bal q) : Held V s q ∧ q ≤ s.pmm.maxPfn ∧
      (dropAt s.pmm.maxPfn (frameAt V s k n) q (s.pmm.info q)).free = false ∧
      ((dropAt s.pmm.maxPfn (frameAt V s k n) q (s.pmm.info q)).reserved = true ∨
        refs (update (frames V s.mem) (k, n) none) q + bal q ≤
          (dropAt s.pmm.maxPfn (frameAt V s k n) q (s.pmm.info q)).refcount) := by
  have hrefs := refs_update (k := (k, n)) (x := none) (v := q) h.finitary
  rw [frames_eq hn, if_neg (some_ne_none q).symm] at hrefs
  by_cases hold : frameAt V s k n = some q
  · rw [if_pos hold] at hrefs
    obtain ⟨hheld, hle, hcount⟩ := h.backed q (by omega)
    rw [hold, dropAt_self hle, PageInfo.refcount_dropped]
    refine ⟨hheld, hle, PageInfo.free_dropped hheld.1 ?_, ?_⟩
    · rcases hcount with hres | hcount
      · exact .inl hres
      · exact .inr (by omega)
    · rcases hcount with hres | hcount
      · exact .inl (PageInfo.reserved_dropped hres)
      · exact .inr (by omega)
  · rw [if_neg hold] at hrefs
    obtain ⟨hheld, hle, hcount⟩ := h.backed q (by omega)
    rw [dropAt_of_ne hold]
    exact ⟨hheld, hle, hheld.1, hcount.imp_right fun _ => by omega⟩

section

variable (h : Mapped V bal s) (hroot : V.root k = some pt) (hv : Below V.top (pageNo v))

include h hroot hv

theorem Mapped.unmapPage : Mapped V bal (s.unmapPage pt v) := by
  obtain ⟨hstep, hsets, -⟩ :=
    unmapPage_spec h.tables hroot hv fun q hq _ => (h.leaf hv hq).1.2
  have hframes := hsets.frames hv
  refine Mapped.of_step hstep (by rw [hframes]; exact h.finitary.update) fun q hq => ?_
  rw [hframes] at hq ⊢
  exact h.drop hv hq

/-- A page with a reference besides its mappings can be mapped. -/
theorem Mapped.mapPage_spec (hpage : 0 < bal page) (flags : BitVec 64) :
    MapsPage V s (s.mapPage pt v page flags) k (pageNo v) page flags := by
  obtain ⟨hheld, hle, -⟩ := h.backed page (by omega)
  exact (Phys.mapPage_spec h.tables hroot hv (fun q hq _ => (h.leaf hv hq).1.2) hheld hle
    (h.drop hv (by omega)).2.2.1 flags).2

theorem Mapped.mapPage (hpage : 0 < bal page) (flags : BitVec 64) :
    Mapped V bal (s.mapPage pt v page flags) := by
  obtain ⟨-, hle, -⟩ := h.backed page (by omega)
  have hlt := Nat.lt_of_le_of_lt hle h.tables.small
  rcases h.mapPage_spec hroot hv hpage flags with ⟨hbuilds, -⟩ | ⟨hstep, hsets, -⟩
  · exact h.quiet hbuilds.quiet
  have hframes := hsets.frames hv
  have hidem : update (frames V s.mem) (k, pageNo v) (some page) =
      update (update (frames V s.mem) (k, pageNo v) none) (k, pageNo v) (some page) :=
    (update_idem _ _ _).symm
  rw [map_some, leafFrame_leafOf hlt, hidem] at hframes
  have hfin : Finitary (update (frames V s.mem) (k, pageNo v) none) := h.finitary.update
  refine Mapped.of_step hstep (by rw [hframes]; exact hfin.update) fun q hq => ?_
  rw [hframes] at hq ⊢
  -- first the old leaf goes, then the new one comes
  have hrefs := refs_update (k := (k, pageNo v)) (x := some page) (v := q) hfin
  rw [update_self, if_neg (some_ne_none q).symm] at hrefs
  by_cases hqp : page = q
  · subst hqp
    obtain ⟨hheld, hle, hfree, hcount⟩ := h.drop (k := k) (q := page) hv (by omega)
    rw [if_pos rfl] at hrefs
    rw [on_self, PageInfo.reserved_taken hfree, PageInfo.refcount_taken]
    exact ⟨hheld, hle, PageInfo.free_taken hfree, hcount.imp_right fun _ => by omega⟩
  · have hne : ¬ (some page = some q) := fun heq => hqp (some.inj heq)
    rw [if_neg hne] at hrefs
    rw [on_of_ne hne]
    obtain ⟨hheld, hle, hfree, hcount⟩ := h.drop (k := k) (q := q) hv (by omega)
    exact ⟨hheld, hle, hfree, hcount.imp_right fun _ => by omega⟩

end

end Phys

end Lapis.Mm
