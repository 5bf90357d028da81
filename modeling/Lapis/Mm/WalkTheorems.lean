/-
Lapis.Mm.WalkTheorems — walks along page tables that build the tables they miss.

A walk with flags `Builds`: it changes no leaf and no held frame, it keeps every entry, and each
new entry points to an empty table with the flags asked for (`leafEntry_spec`). A walk without
flags reads only, so the translation of an address is a leaf of the forest (`getPaddr_eq`).
-/
import Lapis.Mm.FrameTheorems

namespace Lapis.Mm

open Function Option Lib

namespace Phys

variable {V : Spaces} {s s₁ s₂ : Phys}

/-! ## Building tables -/

/-- Tables are built: every entry stays, and a new entry points to a table with the flags asked
for. -/
structure Builds (V : Spaces) (flags : BitVec 64) (s s' : Phys) : Prop where
  quiet : Quiet V s s'
  grows : ∀ t, Table V s.mem t → ∀ i e, present (s.mem t i) = some e → present (s'.mem t i) = some e
  fresh : ∀ t, Table V s'.mem t → ∀ i e, present (s'.mem t i) = some e →
    (Table V s.mem t ∧ present (s.mem t i) = some e) ∨
      ∃ u < 2 ^ 40, e = physOf u ||| tableFlags flags

theorem Builds.refl (h : Tables V s) (flags : BitVec 64) : Builds V flags s s :=
  ⟨Quiet.refl h, fun _ _ _ _ he => he, fun _ ht _ _ he => .inl ⟨ht, he⟩⟩

variable {p : List (Fin 512)} {t : Pfn}

/-- Where entries stay, tables stay. -/
theorem node_grows {mem mem' : Memory}
    (hgrows : ∀ t, Table V mem t → ∀ i e, present (mem t i) = some e → present (mem' t i) = some e)
    {k : Nat} (hp : inner V.top p)
    (ht : (forest V mem).node k p = some t) : (forest V mem').node k p = some t := by
  induction p using List.reverseRecOn generalizing t with
  | nil =>
    rw [Forest.node_nil] at ht ⊢
    exact ht
  | append_singleton q i ih =>
    have hq := (inner_closed V.top).2 q i hp
    rw [Forest.node_concat] at ht
    obtain ⟨u, hu, hchild⟩ := bind_eq_some_iff.mp ht
    obtain ⟨e, he, hframe⟩ := map_eq_some_iff.mp hchild
    rw [Forest.node_concat, ih hq hu, bind_some, forest_child,
      hgrows u ⟨k, q, hq, hu⟩ i e he, map_some, hframe]

variable {flags : BitVec 64}

theorem Builds.node (h : Builds V flags s s₁) {k : Nat}
    (hp : inner V.top p) (ht : (forest V s.mem).node k p = some t) : (forest V s₁.mem).node k p = some t :=
  node_grows h.grows hp ht

theorem Builds.table (h : Builds V flags s s₁) (ht : Table V s.mem t) : Table V s₁.mem t := by
  obtain ⟨k, p, hp, ht⟩ := ht
  exact ⟨k, p, hp, h.node hp ht⟩

theorem Builds.trans (h1 : Builds V flags s s₁) (h2 : Builds V flags s₁ s₂) :
    Builds V flags s s₂ where
  quiet := h1.quiet.trans h2.quiet
  grows t ht i e he := h2.grows t (h1.table ht) i e (h1.grows t ht i e he)
  fresh := by
    intro t ht i e he
    rcases h2.fresh t ht i e he with ⟨ht1, he1⟩ | hnew
    · exact h1.fresh t ht1 i e he1
    · exact .inr hnew

section Link

variable {k n : Nat} {p : List (Fin 512)} {t m : Pfn} {i : Fin 512} {e : BitVec 64}

/-- A new empty table is hung into an upper table. -/
theorem Quiet.of_link (h : Allocates V s s₁ m fun _ => 0) (hp : inner V.top p)
    (hpi : inner V.top (p ++ [i])) (hlen : p.length ≤ 2)
    (ht : (forest V s.mem).node k p = some t) (hnone : present (s.mem t i) = none)
    (he : present e = some e) (hm : leafFrame e = m) (htables : Tables V s) :
    Quiet V s (s₁.writeEntry t i e) ∧ (forest V (s₁.writeEntry t i e).mem).node k (p ++ [i]) = some m ∧
      (∀ u, Table V (s₁.writeEntry t i e).mem u ↔ Table V s.mem u ∨ u = m) ∧
      ((forest V s.mem).FullBut (inner V.top) k p →
        (forest V (s₁.writeEntry t i e).mem).FullBut (inner V.top) k (p ++ [i])) := by
  have htm : t ≠ m := by
    rintro rfl
    exact not_table_of_free htables h.free ⟨k, p, hp, ht⟩
  have ht1 : (forest V s₁.mem).node k p = some t := (h.node k p hp).trans ht
  have hchild : (forest V s₁.mem).child t i = none := by
    rwa [forest_child_eq_none_iff, h.mem, update_of_ne htm]
  have hempty : ∀ j, (forest V s₁.mem).child m j = none := by
    intro j
    rw [forest_child_eq_none_iff, h.mem, update_self]
    rfl
  have hfresh : ¬ Table V s₁.mem m := ((h.held m).mpr (.inr rfl)).2
  have hmap : (present e).map leafFrame = some m := by rw [he, map_some, hm]
  have hold : ∀ m', (forest V s₁.mem).child t i = some m' → ∀ j, (forest V s₁.mem).child m' j = none := by
    rw [hchild]
    nofun
  have hnew : ∀ m', (present e).map leafFrame = some m' →
      m' ≠ t ∧ ∀ j, (forest V s₁.mem).child m' j = none := by
    intro m' hm'
    cases hmap.symm.trans hm'
    exact ⟨htm.symm, hempty⟩
  have htable : ∀ u, Table V (s₁.writeEntry t i e).mem u ↔ Table V s₁.mem u ∨ u = m := by
    intro u
    rw [mem_writeEntry, table_replace h.tables.separated hp hpi ht1 hold hnew, hmap, hchild]
    simp only [some.injEq, ne_eq, reduceCtorEq, not_false_eq_true, and_true]
    tauto
  refine ⟨⟨⟨⟨h.tables.ok, h.tables.small, ?_, ?_⟩, ?_, h.maxPfn, h.kernelPt, h.mmioRegions,
    h.refused.symm.le⟩, ?_⟩, ?_, fun u => (htable u).trans (or_congr_left (h.table u)), ?_⟩
  · rw [mem_writeEntry, forest_update]
    refine Forest.Separated.replace (inner_closed V.top) h.tables.separated hp ht1 hold fun m' hm' => ?_
    cases hmap.symm.trans hm'
    exact ⟨hempty, fun k' q hq hnode => hfresh ⟨k', q, hq, hnode⟩⟩
  · intro u hu
    rcases (htable u).mp hu with hu | rfl
    · exact h.tables.table u hu
    · change (s₁.pmm.info _).free = false
      rw [h.info, update_self]
      exact PageInfo.free_alloc _
  · intro q hq _
    have hqm : q ≠ m := by
      rintro rfl
      have := h.free
      rw [hq.1] at this
      exact absurd this (by decide)
    have hqt : q ≠ t := by
      rintro rfl
      exact hq.2 ⟨k, p, hp, ht⟩
    obtain ⟨hq1, hq2⟩ := (h.held q).mpr (.inl hq)
    refine ⟨⟨hq1, fun hq' => ((htable q).mp hq').elim hq2 hqm⟩, ?_, ?_⟩
    · change s₁.pmm.info q = _
      rw [h.info, update_of_ne hqm]
    · rw [mem_writeEntry, update_of_ne hqt, h.mem, update_of_ne hqm]
  · intro k' n' hn'
    rw [mem_writeEntry, leaf_replace h.tables.separated hp hlen ht1 hold hnew hn']
    exact h.leaf k' n' hn'
  · rw [mem_writeEntry, forest_update,
      Forest.node_setChild_self (inner_closed V.top) h.tables.separated hp ht1, hmap]
  · intro hfull
    rw [mem_writeEntry, forest_update, hmap]
    refine Forest.FullBut.link (inner_closed V.top) h.tables.separated hp ht1 ?_ hchild hempty
      htm.symm
    -- the new frame is no table yet, so the entries of tables are those before
    intro k' q u hq hne hex hu
    rw [h.node k' q hq] at hu
    have hum : u ≠ m := by
      rintro rfl
      exact not_table_of_free htables h.free ⟨k', q, hq, hu⟩
    obtain ⟨j, hj⟩ := hfull k' q u hq hne hex hu
    refine ⟨j, ?_⟩
    rwa [forest_child, h.mem, update_of_ne hum, ← forest_child (V := V)]

/-- An empty table is released and its entry cleared. -/
theorem Quiet.of_unlink (h : Tables V s) (hp : inner V.top p) (hpi : inner V.top (p ++ [i]))
    (hlen : p.length ≤ 2) (ht : (forest V s.mem).node k p = some t)
    (hpresent : present (s.mem t i) = some e) (hm : leafFrame e = m)
    (hempty : ∀ j, (forest V s.mem).child m j = none) {pmm : Pmm} (hkeeps : s.pmm.Keeps pmm)
    (hother : ∀ q, q ≠ m → pmm.info q = s.pmm.info q) :
    Quiet V s (Phys.writeEntry { s with pmm := pmm } t i 0) := by
  set s' := Phys.writeEntry { s with pmm := pmm } t i 0 with hs'
  have hmem : s'.mem = update s.mem t (update (s.mem t) i 0) := rfl
  have hpmm : s'.pmm = pmm := rfl
  have hchild : (forest V s.mem).child t i = some m := by
    rw [forest_child, hpresent, map_some, hm]
  have htab : Table V s.mem m :=
    ⟨k, p ++ [i], hpi, by rw [Forest.node_concat, ht]; exact hchild⟩
  have hold : ∀ m', (forest V s.mem).child t i = some m' → ∀ j, (forest V s.mem).child m' j = none := by
    intro m' hm'
    cases hchild.symm.trans hm'
    exact hempty
  have hnew : ∀ m', (present (0 : BitVec 64)).map leafFrame = some m' →
      m' ≠ t ∧ ∀ j, (forest V s.mem).child m' j = none := nofun
  have htable : ∀ u, Table V s'.mem u ↔ Table V s.mem u ∧ u ≠ m := by
    intro u
    rw [hmem, table_replace h.separated hp hpi ht hold hnew, hchild, present_zero]
    simp [eq_comm]
  refine ⟨⟨⟨hkeeps.ok, hkeeps.maxPfn ▸ h.small, ?_, ?_⟩, ?_, hkeeps.maxPfn, rfl, rfl,
    hkeeps.refused.symm.le⟩, ?_⟩
  · rw [hmem, forest_update]
    exact Forest.Separated.replace (inner_closed V.top) h.separated hp ht hold nofun
  · intro u hu
    obtain ⟨hu, hum⟩ := (htable u).mp hu
    rw [hpmm, hother u hum]
    exact h.table u hu
  · intro q hq _
    have hqm : q ≠ m := by rintro rfl; exact hq.2 htab
    have hqt : q ≠ t := by rintro rfl; exact hq.2 ⟨k, p, hp, ht⟩
    refine ⟨⟨?_, fun hq' => hq.2 ((htable q).mp hq').1⟩, hother q hqm, ?_⟩
    · rw [hpmm, hother q hqm]
      exact hq.1
    · rw [hmem, update_of_ne hqt]
  · intro k' n' hn'
    rw [hmem, leaf_replace h.separated hp hlen ht hold hnew hn']

theorem pteNext_of_present (hs : present (s.mem t i) = some e) (flags : BitVec 64) :
    s.pteNext t i flags = (some (leafFrame e), s) := by
  obtain ⟨hhas, rfl⟩ := present_eq_some_iff.mp hs
  simp [pteNext, hhas, leafFrame]

theorem pteNext_of_absent (hs : present (s.mem t i) = none) (hflags : flags ≠ 0) :
    s.pteNext t i flags = match s.allocPte with
      | (phys, s) =>
        if phys = 0 then (none, s)
        else (some (frameOf phys), s.writeEntry t i (phys ||| flags)) := by
  have hhas : ¬ has (s.mem t i) pflagPresent = true := by
    intro hhas
    simp [present_of_has hhas] at hs
  simp only [pteNext, if_neg hhas, if_neg hflags]

theorem tableFlags_and_mask (flags : BitVec 64) : tableFlags flags &&& pageFrameMask = 0 := by
  unfold tableFlags
  split <;> decide

theorem has_present_tableFlags (e flags : BitVec 64) : has (e ||| tableFlags flags) pflagPresent = true := by
  rw [pflagPresent, has_twoPow, BitVec.getLsbD_or, tableFlags]
  split <;> simp [pflagPresent, pflagWrite, pflagUser]

theorem tableFlags_ne_zero (flags : BitVec 64) : tableFlags flags ≠ 0 := by
  intro h
  have := has_present_tableFlags 0 flags
  rw [h] at this
  exact absurd this (by decide)

/-- The entries of tables stay, except perhaps for one. -/
def KeepsBut (V : Spaces) (s s' : Phys) (t : Pfn) (i : Fin 512) : Prop :=
  ∀ u, Table V s.mem u → ∀ j, ¬ (u = t ∧ j = i) → s'.mem u j = s.mem u j

theorem KeepsBut.of_link {e : BitVec 64} (h : Allocates V s s₁ m fun _ => 0)
    (htables : Tables V s) : KeepsBut V s (s₁.writeEntry t i e) t i := by
  intro u hu j huj
  have hum : u ≠ m := by
    rintro rfl
    exact not_table_of_free htables h.free hu
  rw [mem_writeEntry]
  by_cases hut : u = t
  · subst hut
    rw [update_self, update_of_ne fun hj => huj ⟨rfl, hj⟩, h.mem, update_of_ne hum]
  · rw [update_of_ne hut, h.mem, update_of_ne hum]

/-- Hanging in a table builds. -/
theorem Builds.of_link (h : Allocates V s s₁ m fun _ => 0)
    (htables : Tables V s) (hp : inner V.top p) (ht : (forest V s.mem).node k p = some t)
    (hnone : present (s.mem t i) = none)
    (hquiet : Quiet V s (s₁.writeEntry t i (physOf m ||| tableFlags flags)))
    (htable : ∀ u, Table V (s₁.writeEntry t i (physOf m ||| tableFlags flags)).mem u ↔
      Table V s.mem u ∨ u = m) : Builds V flags s (s₁.writeEntry t i (physOf m ||| tableFlags flags)) := by
  have htm : t ≠ m := by
    rintro rfl
    exact not_table_of_free htables h.free ⟨k, p, hp, ht⟩
  have hentry := KeepsBut.of_link (t := t) (i := i) (e := physOf m ||| tableFlags flags) h htables
  refine ⟨hquiet, fun u hu j e he => ?_, fun u hu j e he => ?_⟩
  · rw [hentry u hu j ?_]
    · exact he
    · rintro ⟨rfl, rfl⟩
      simp [hnone] at he
  · rcases (htable u).mp hu with hu | rfl
    · by_cases huj : u = t ∧ j = i
      · obtain ⟨rfl, rfl⟩ := huj
        rw [mem_writeEntry, update_self, update_self] at he
        exact .inr ⟨m, Nat.lt_of_le_of_lt h.le_maxPfn htables.small, (present_eq_some_iff.mp he).2.symm⟩
      · rw [hentry u hu j huj] at he
        exact .inl ⟨hu, he⟩
    · rw [mem_writeEntry, update_of_ne htm.symm, h.mem, update_self] at he
      cases he

/-- A refused allocation builds nothing. -/
theorem Builds.of_refused (hquiet : Quiet V s s₁) (hmem : s₁.mem = s.mem) : Builds V flags s s₁ := by
  refine ⟨hquiet, fun t _ i e he => ?_, fun t ht i e he => ?_⟩
  · rwa [hmem]
  · rw [hmem] at ht he
    exact .inl ⟨ht, he⟩

/-- The next table of a walk that builds tables. -/
theorem pteNext_spec (h : Tables V s) (hp : inner V.top p) (hpi : inner V.top (p ++ [i]))
    (hlen : p.length ≤ 2) (ht : (forest V s.mem).node k p = some t) (flags : BitVec 64) :
    ∃ x s', s.pteNext t i (tableFlags flags) = (x, s') ∧ Builds V flags s s' ∧ KeepsBut V s s' t i ∧
      ((x = none ∧ (forest V s.mem).node k (p ++ [i]) = none ∧ s.pmm.refused < s'.pmm.refused) ∨
        ∃ u, x = some u ∧ (forest V s'.mem).node k (p ++ [i]) = some u ∧
          ((forest V s.mem).FullBut (inner V.top) k p →
            (forest V s'.mem).FullBut (inner V.top) k (p ++ [i])) ∧ s'.pmm.refused = s.pmm.refused) := by
  cases hpresent : present (s.mem t i) with
  | some e =>
    obtain ⟨hhas, rfl⟩ := present_eq_some_iff.mp hpresent
    have hchild : (forest V s.mem).child t i = some (leafFrame (s.mem t i)) := by
      rw [forest_child, hpresent, map_some]
    refine ⟨_, _, pteNext_of_present hpresent _, Builds.refl h flags, fun _ _ _ _ => rfl,
      .inr ⟨_, rfl, ?_, fun hfull => ?_, rfl⟩⟩
    · rwa [Forest.node_concat, ht]
    · exact (hfull.fill ht (by rw [hchild]; exact some_ne_none _)).except _
  | none =>
  have hnone : (forest V s.mem).node k (p ++ [i]) = none := by
    rw [Forest.node_concat, ht, bind_some, forest_child, hpresent, map_none]
  rw [pteNext_of_absent hpresent (tableFlags_ne_zero flags), allocPte]
  rcases pmmAllocPage_cases h with ⟨s', heq, hquiet, hmem, href⟩ | ⟨m, pmm, heq, halloc⟩
  · rw [heq]
    exact ⟨none, s', rfl, .of_refused hquiet hmem, fun _ _ _ _ => by rw [hmem], .inl ⟨rfl, hnone, by omega⟩⟩
  have hm := halloc fun _ => 0
  have hlt := Nat.lt_of_le_of_lt hm.le_maxPfn h.small
  have hphys : pmm.pfnDbPageToPhys m = physOf m := by
    have hmax : pmm.maxPfn = s.pmm.maxPfn := hm.maxPfn
    rw [Pmm.pfnDbPageToPhys, hmax, if_neg (Nat.not_lt.mpr hm.le_maxPfn)]
    rfl
  rw [heq]
  dsimp only
  rw [hphys, if_neg (physOf_ne_zero hm.ne_zero hlt), frameOf_physOf hlt]
  have he := present_of_has (has_present_tableFlags (physOf m) flags)
  have hframe := leafFrame_or hlt (tableFlags_and_mask flags)
  obtain ⟨hquiet, hnode, htable, hfull⟩ :=
    Quiet.of_link hm hp hpi hlen ht hpresent he hframe h
  exact ⟨_, _, rfl, Builds.of_link hm h hp ht hpresent hquiet htable, .of_link hm h,
    .inr ⟨m, rfl, hnode, hfull, hm.refused⟩⟩

end Link

/-! ## Walks -/

section Walk

variable {k v : Nat} {pt : Pfn}

theorem inner_path_prefixes {n : Nat} (hn : Below V.top n) :
    ∃ a b c, path n = [a, b, c] ∧ inner V.top [a] ∧ inner V.top ([a] ++ [b]) ∧
      inner V.top ([a, b] ++ [c]) := by
  have h3 := inner_path hn
  have h2 := (inner_closed V.top).2 [_, _] _ h3
  exact ⟨_, _, _, rfl, (inner_closed V.top).2 [_] _ h2, h2, h3⟩

/-- The entries of the top table stay, except perhaps for that on the way to a page. -/
def TopKept (pt : Pfn) (n : Nat) (s s' : Phys) : Prop :=
  ∀ j, j ≠ topSlot n → s'.mem pt j = s.mem pt j

theorem node_root (hroot : V.root k = some pt) : (forest V s.mem).node k [] = some pt := by
  rwa [Forest.node_nil]

/-- A table below the top table is another one. -/
theorem ne_root (hsep : (forest V s.mem).Separated (inner V.top)) (hroot : V.root k = some pt)
    (hp : inner V.top p) (hne : p ≠ []) (ht : (forest V s.mem).node k p = some t) : pt ≠ t := by
  rintro rfl
  exact hne (hsep k p k [] pt hp (inner_closed V.top).1 ht (node_root hroot)).2

/-- An entry of a lower table is not one of the top table. -/
theorem KeepsBut.topKept {i : Fin 512}
    (h : KeepsBut V s s₁ t i) (hsep : (forest V s.mem).Separated (inner V.top))
    (hroot : V.root k = some pt) (hp : inner V.top p) (hne : p ≠ [])
    (ht : (forest V s.mem).node k p = some t) (j : Fin 512) : s₁.mem pt j = s.mem pt j :=
  h pt ⟨k, [], (inner_closed V.top).1, node_root hroot⟩ j
    fun heq => ne_root hsep hroot hp hne ht heq.1

theorem leafEntry_spec (h : Tables V s) (hroot : V.root k = some pt) (hv : Below V.top (pageNo v))
    (flags : BitVec 64) : ∃ x s', s.leafEntry pt v (tableFlags flags) = (x, s') ∧ Builds V flags s s' ∧
      TopKept pt (pageNo v) s s' ∧ ((x = none ∧ leaf V s.mem k (pageNo v) = none ∧
          s.pmm.refused < s'.pmm.refused) ∨ ∃ t, x = some (t, slot (pageNo v)) ∧
          (forest V s'.mem).node k (path (pageNo v)) = some t ∧ ((forest V s.mem).FullBut (inner V.top) k [] →
            (forest V s'.mem).FullBut (inner V.top) k (path (pageNo v))) ∧
          s'.pmm.refused = s.pmm.refused) := by
  obtain ⟨a, b, c, hpath, h1, h2, h3⟩ := inner_path_prefixes hv
  obtain ⟨hidx, hslot⟩ := index_eq v
  rw [hpath] at hidx
  simp only [List.cons.injEq, and_true] at hidx
  obtain ⟨ha, hb, hc⟩ := hidx
  rw [leafEntry, ha, hb, hc, hslot, hpath]
  have hnode0 : (forest V s.mem).node k [] = some pt := node_root hroot
  -- a page below a missing table is not mapped
  have habsent : ∀ s' : Phys, Builds V flags s s' → ∀ p r, [a, b, c] = p ++ r →
      (forest V s'.mem).node k p = none → leaf V s.mem k (pageNo v) = none := by
    intro s' hb p r hpr hnone
    rw [← hb.quiet.leaf k _ hv, leaf, hpath, hpr, Forest.node_append, hnone]
    rfl
  obtain ⟨x1, s₁, heq1, hb1, hk1, hx1⟩ :=
    pteNext_spec h (inner_closed V.top).1 h1 (Nat.zero_le 2) hnode0 flags
  have htop1 : TopKept pt (pageNo v) s s₁ := by
    intro j hj
    refine hk1 pt ⟨k, [], (inner_closed V.top).1, hnode0⟩ j fun h => hj ?_
    rw [h.2, ← ha, pml4Index_eq]
  rw [heq1]
  rcases hx1 with ⟨rfl, hn1, hr1⟩ | ⟨t1, rfl, hn1, hf1, hr1⟩
  · exact ⟨_, _, rfl, hb1, htop1, .inl ⟨rfl, habsent s (.refl h flags) [a] [b, c] rfl hn1, hr1⟩⟩
  dsimp only
  obtain ⟨x2, s₂, heq2, hb2, hk2, hx2⟩ :=
    pteNext_spec hb1.quiet.step.tables h1 h2 (Nat.le_succ 1) hn1 flags
  have htop2 : TopKept pt (pageNo v) s s₂ := fun j hj =>
    (hk2.topKept hb1.quiet.step.tables.separated hroot h1 (by simp) hn1 j).trans (htop1 j hj)
  rw [heq2]
  rcases hx2 with ⟨rfl, hn2, hr2⟩ | ⟨t2, rfl, hn2, hf2, hr2⟩
  · exact ⟨_, _, rfl, hb1.trans hb2, htop2, .inl ⟨rfl, habsent s₁ hb1 [a, b] [c] rfl hn2, by omega⟩⟩
  dsimp only
  obtain ⟨x3, s3, heq3, hb3, hk3, hx3⟩ :=
    pteNext_spec hb2.quiet.step.tables h2 h3 (Nat.le_refl 2) hn2 flags
  have htop3 : TopKept pt (pageNo v) s s3 := fun j hj =>
    (hk3.topKept hb2.quiet.step.tables.separated hroot h2 (by simp) hn2 j).trans (htop2 j hj)
  rw [heq3]
  have hb := (hb1.trans hb2).trans hb3
  rcases hx3 with ⟨rfl, hn3, hr3⟩ | ⟨t3, rfl, hn3, hf3, hr3⟩
  · exact ⟨_, _, rfl, hb, htop3, .inl ⟨rfl, habsent s₂ (hb1.trans hb2) [a, b, c] [] rfl hn3, by omega⟩⟩
  · exact ⟨_, _, rfl, hb, htop3, .inr ⟨t3, rfl, hn3, fun hf => hf3 (hf2 (hf1 hf)), by omega⟩⟩

/-- A walk along tables that exist builds nothing, whatever its flags. -/
theorem leafEntry_of_node (hroot : V.root k = some pt)
    (ht : (forest V s.mem).node k (path (pageNo v)) = some t) (flags : BitVec 64) :
    s.leafEntry pt v flags = (some (t, slot (pageNo v)), s) := by
  have hnext : ∀ u i m, (forest V s.mem).child u i = some m → s.pteNext u i flags = (some m, s) := by
    intro u i m hm
    obtain ⟨e, he, rfl⟩ := map_eq_some_iff.mp hm
    exact pteNext_of_present he flags
  obtain ⟨hidx, hslot⟩ := index_eq v
  rw [← hidx, Forest.node] at ht
  change ((V.root k).bind _) = _ at ht
  rw [hroot, bind_some] at ht
  obtain ⟨t3, h3, ht⟩ := bind_eq_some_iff.mp ht
  obtain ⟨t2, h2, ht⟩ := bind_eq_some_iff.mp ht
  obtain ⟨t1, h1, ht⟩ := bind_eq_some_iff.mp ht
  obtain rfl := some.inj ht
  rw [leafEntry, hnext _ _ _ h3]
  dsimp only
  rw [hnext _ _ _ h2]
  dsimp only
  rw [hnext _ _ _ h1, hslot]

/-- A walk that builds nothing. -/
theorem leafEntry_zero (s : Phys) (V : Spaces) (pt : Pfn) (v : Nat) : s.leafEntry pt v 0 =
      (((forest V s.mem).descend pt (path (pageNo v))).map (·, slot (pageNo v)), s) := by
  have hnext : ∀ t i, s.pteNext t i 0 = ((forest V s.mem).child t i, s) := by
    intro t i
    cases hp : present (s.mem t i) with
    | some e => rw [pteNext_of_present hp, forest_child, hp]; rfl
    | none =>
      have hhas : ¬ has (s.mem t i) pflagPresent = true := by
        intro hhas
        simp [present_of_has hhas] at hp
      simp [pteNext, hhas, forest_child, hp]
  obtain ⟨hidx, hslot⟩ := index_eq v
  rw [← hidx, ← hslot, leafEntry, hnext]
  cases h1 : (forest V s.mem).child pt (pml4Index v) with
  | none => simp [Forest.descend, h1]
  | some t1 =>
  dsimp only
  rw [hnext]
  cases h2 : (forest V s.mem).child t1 (pml3Index v) with
  | none => simp [Forest.descend, h1, h2]
  | some t2 =>
    dsimp only
    rw [hnext]
    cases h3 : (forest V s.mem).child t2 (pml2Index v) with
    | none => simp [Forest.descend, h1, h2, h3]
    | some t3 => simp [Forest.descend, h1, h2, h3]

theorem leafEntry_zero_root (hroot : V.root k = some pt) :
    s.leafEntry pt v 0 = (((forest V s.mem).node k (path (pageNo v))).map (·, slot (pageNo v)), s) := by
  rw [leafEntry_zero s V, Forest.node]
  change _ = (((V.root k).bind _).map _, s)
  rw [hroot]
  rfl

theorem translate_eq (hroot : V.root k = some pt) : s.translate pt v = leaf V s.mem k (pageNo v) := by
  rw [translate, leafEntry_zero_root hroot, leaf]
  cases (forest V s.mem).node k (path (pageNo v)) <;> rfl

theorem getPaddr_eq (hroot : V.root k = some pt) :
    s.getPaddr pt v = ((leaf V s.mem k (pageNo v)).map (physOf <| leafFrame ·)).getD 0 := by
  rw [getPaddr, leafEntry_zero_root hroot, leaf]
  cases (forest V s.mem).node k (path (pageNo v)) with
  | none => rfl
  | some t =>
    simp only [map_some, bind_some, present, physOf_leafFrame]
    split <;> rfl

end Walk

end Phys

end Lapis.Mm
