/-
Lapis.Mm.PagingTheorems — what map_page and unmap_page do to tables, leaves and frames.

Taking out empty tables `Prunes`: it changes no leaf and no held frame, and a table that goes had
no entry left (`uPteFreeEmpty_spec`). `mapPage_spec` and `unmapPage_spec` change one leaf and the
counts of the frames it named.
-/
import Lapis.Mm.WalkTheorems

namespace Lapis.Mm

open Function (update update_of_ne update_self)
open Lib
open Option (bind_some map_some some.inj)

namespace Phys

variable {V : Spaces} {s s₁ s₂ : Phys}

/-! ## Removing empty tables -/

section Unlink

variable {k v : Nat} {pt t m : Pfn} {p : List (Fin 512)} {i : Fin 512}

theorem tableEmpty_iff : s.tableEmpty m = true ↔ ∀ j, (forest V s.mem).child m j = none := by
  simp only [tableEmpty, List.all_eq_true, List.mem_finRange, true_implies, forest_child_eq_none_iff, present]
  refine forall_congr' fun j => ?_
  cases has (s.mem m j) pflagPresent <;> simp

/-- `_free_pte` touches the table it is called on at most. -/
theorem freePte_spec (h : s.pmm.Ok) (e : BitVec 64) :
    ∃ pmm, s.freePte (e &&& pageFrameMask) = { s with pmm := pmm } ∧ s.pmm.Keeps pmm ∧
      ∀ q, q ≠ leafFrame e → pmm.info q = s.pmm.info q := by
  by_cases hle : leafFrame e ≤ s.pmm.maxPfn
  · have hpage : s.pmm.pfnDbPhysToPage (e &&& pageFrameMask) = some (leafFrame e) :=
      if_neg (Nat.not_lt.mpr hle)
    obtain ⟨hkeeps, hinfo⟩ := Pmm.pmmPageRelease_spec h hle
    refine ⟨s.pmm.pmmPageRelease (leafFrame e), ?_, hkeeps, fun q hq => ?_⟩
    · rw [freePte, hpage]
      rfl
    · rw [hinfo, update_of_ne hq]
  · have hpage : s.pmm.pfnDbPhysToPage (e &&& pageFrameMask) = none :=
      if_pos (Nat.lt_of_not_le hle)
    exact ⟨s.pmm, by rw [freePte, hpage], ⟨h, rfl, rfl⟩, fun _ _ => rfl⟩

/-- Tables are taken out: entries are cleared at most, and a table that is gone was empty. -/
structure Prunes (V : Spaces) (s s' : Phys) : Prop where
  quiet : Quiet V s s'
  entry : ∀ t i, s'.mem t i = s.mem t i ∨ s'.mem t i = 0
  gone : ∀ t, Table V s.mem t → ¬ Table V s'.mem t → ∀ i, present (s'.mem t i) = none
  refused : s'.pmm.refused = s.pmm.refused

theorem Prunes.refl (h : Tables V s) : Prunes V s s :=
  ⟨Quiet.refl h, fun _ _ => .inl rfl, fun _ ht hnot => absurd ht hnot, rfl⟩

theorem Prunes.present_of (h : Prunes V s s₁) {u : Pfn} {j : Fin 512} {e : BitVec 64}
    (he : present (s₁.mem u j) = some e) : present (s.mem u j) = some e := by
  rcases h.entry u j with heq | heq
  · rwa [heq] at he
  · rw [heq, present_zero] at he
    cases he

theorem Prunes.node (h : Prunes V s s₁) (hp : inner V.top p)
    (ht : (forest V s₁.mem).node k p = some t) : (forest V s.mem).node k p = some t :=
  node_grows (fun _ _ _ _ he => h.present_of he) hp ht

theorem Prunes.trans (h1 : Prunes V s s₁) (h2 : Prunes V s₁ s₂) : Prunes V s s₂ where
  quiet := h1.quiet.trans h2.quiet
  entry u j := by
    rcases h2.entry u j with heq | heq
    · rw [heq]
      exact h1.entry u j
    · exact .inr heq
  gone := by
    intro u hu hnot j
    by_cases hu1 : Table V s₁.mem u
    · exact h2.gone u hu1 hnot j
    cases hj : present (s₂.mem u j) with
    | none => rfl
    | some e => 
      have := h2.present_of hj
      simp [h1.gone u hu hu1 j] at this
  refused := h2.refused.trans h1.refused

theorem freeEntry_spec (h : Tables V s) (hpi : inner V.top (p ++ [i])) (hlen : p.length ≤ 2)
    (ht : (forest V s.mem).node k p = some t)
    (hm : (forest V s.mem).node k (p ++ [i]) = some m) (hempty : s.tableEmpty m = true) :
    Prunes V s (s.freeEntry t i) ∧ (s.freeEntry t i).mem = update s.mem t (update (s.mem t) i 0) ∧
      ((forest V s.mem).FullBut (inner V.top) k (p ++ [i]) →
        (forest V (s.freeEntry t i).mem).FullBut (inner V.top) k p) := by
  have hp := (inner_closed V.top).2 p i hpi
  have hchild : (forest V s.mem).child t i = some m := by
    rw [Forest.node_concat, ht] at hm
    exact hm
  have hold : ∀ m', (forest V s.mem).child t i = some m' → ∀ j, (forest V s.mem).child m' j = none := by
    intro m' hm'
    cases hchild.symm.trans hm'
    exact tableEmpty_iff.mp hempty
  obtain ⟨e, hpresent, hframe⟩ := Option.map_eq_some_iff.mp hchild
  obtain ⟨-, rfl⟩ := present_eq_some_iff.mp hpresent
  obtain ⟨pmm, heq, hkeeps, hother⟩ := freePte_spec h.ok (s.mem t i)
  rw [freeEntry, heq]
  refine ⟨⟨Quiet.of_unlink h hp hpi hlen ht hpresent hframe (tableEmpty_iff.mp hempty) hkeeps
    (hframe ▸ hother), fun u j => ?_, fun u hu hnot j => ?_, hkeeps.refused⟩, rfl, fun hfull => ?_⟩
  · rw [mem_writeEntry]
    by_cases huj : u = t ∧ j = i
    · right
      rw [huj.1, huj.2, update_self, update_self]
    · left
      by_cases hut : u = t
      · subst hut
        rw [update_self, update_of_ne fun hj => huj ⟨rfl, hj⟩]
      · rw [update_of_ne hut]
  · rw [mem_writeEntry, table_replace h.separated hp hpi ht hold (by rw [present_zero]; nofun)]
      at hnot
    -- the only table that goes is the one that was empty
    have hum : (forest V s.mem).child t i = some u := by
      by_contra hne
      exact hnot (.inr ⟨hu, hne⟩)
    have hut : u ≠ t := by
      rintro rfl
      have := (h.separated k p k (p ++ [i]) u hp hpi ht
        (by rw [Forest.node_concat, ht]; exact hum)).2
      exact absurd (congrArg List.length this) (by simp)
    rw [mem_writeEntry, update_of_ne hut]
    exact forest_child_eq_none_iff.mp (hold u hum j)
  · rw [mem_writeEntry, forest_update]
    exact Forest.FullBut.unlink (inner_closed V.top) h.separated hp ht hfull hold

/-- Clearing an entry leaves the tables that do not hang below it. -/
theorem node_cleared (h : Tables V s) (hp : inner V.top p)
    (ht : (forest V s.mem).node k p = some t) {mem : Memory}
    (hmem : mem = update s.mem t (update (s.mem t) i 0)) {q : List (Fin 512)}
    (hq : inner V.top q) (hlen : q.length ≤ p.length) :
    (forest V mem).node k q = (forest V s.mem).node k q := by
  rw [hmem, forest_update]
  refine Forest.node_setChild (inner_closed V.top) h.separated hp ht
    ((inner_closed V.top).dropLast hq) ?_
  intro _ hpre
  have := hpre.length_le
  rw [List.length_append, List.length_singleton] at this
  omega

theorem node_next (ht : (forest V s.mem).node k p = some t) (hhas : has (s.mem t i) pflagPresent = true) :
    (forest V s.mem).node k (p ++ [i]) = some (leafFrame (s.mem t i)) := by
  rw [Forest.node_concat, ht, bind_some, forest_child, present_of_has hhas, map_some]

theorem node_stop (ht : (forest V s.mem).node k p = some t) (hhas : ¬ has (s.mem t i) pflagPresent = true) :
    (forest V s.mem).node k (p ++ [i]) = none := by
  rw [Forest.node_concat, ht, bind_some, forest_child,
    present_of_not_has (Bool.eq_false_of_not_eq_true hhas), Option.map_none]

theorem fill_of_not_empty (hfull : (forest V s.mem).FullBut (inner V.top) k p)
    (ht : (forest V s.mem).node k p = some t) (hne : ¬ s.tableEmpty t = true) :
    (forest V s.mem).FullBut (inner V.top) k [] := by
  rw [tableEmpty_iff (V := V)] at hne
  obtain ⟨j, hj⟩ := not_forall.mp hne
  exact hfull.fill ht hj

theorem uPteFreeEmpty_spec (h : Tables V s) (hroot : V.root k = some pt) (hv : Below V.top (pageNo v)) :
    Prunes V s (s.uPteFreeEmpty pt v) ∧ TopKept pt (pageNo v) s (s.uPteFreeEmpty pt v) ∧
      ((forest V s.mem).FullBut (inner V.top) k (path (pageNo v)) →
        (forest V (s.uPteFreeEmpty pt v).mem).FullBut (inner V.top) k []) := by
  obtain ⟨a, b, c, hpath, h1, h2, h3⟩ := inner_path_prefixes hv
  have hidx := (index_eq v).1
  rw [hpath] at hidx ⊢
  simp only [List.cons.injEq, and_true] at hidx
  obtain ⟨ha, hb, hc⟩ := hidx
  simp only [uPteFreeEmpty, ha, hb, hc]
  have hnode0 : (forest V s.mem).node k [] = some pt := node_root hroot
  -- a walk that stops early leaves no exception
  have hstop : ∀ p r, [a, b, c] = p ++ r → (forest V s.mem).node k p = none →
      (forest V s.mem).FullBut (inner V.top) k [a, b, c] →
      (forest V s.mem).FullBut (inner V.top) k [] := by
    intro p r hpr hnone hfull
    refine hfull.absent ?_
    rw [hpr, Forest.node_append, hnone]
    rfl
  have hkept : TopKept pt (pageNo v) s s := fun _ _ => rfl
  split
  case isFalse has1 => exact ⟨.refl h, hkept, hstop [a] [b, c] rfl (node_stop (p := []) hnode0 has1)⟩
  case isTrue has1 =>
  have hnode1 := node_next hnode0 has1
  split
  case isFalse has2 =>
    exact ⟨.refl h, hkept, hstop [a, b] [c] rfl (node_stop (p := [a]) hnode1 has2)⟩
  case isTrue has2 =>
  have hnode2 := node_next hnode1 has2
  split
  case isFalse has3 =>
    exact ⟨.refl h, hkept, hstop [a, b, c] [] rfl (node_stop (p := [a, b]) hnode2 has3)⟩
  case isTrue has3 =>
  have hnode3 := node_next hnode2 has3
  split
  case isFalse hne => exact ⟨.refl h, hkept, fun hfull => fill_of_not_empty hfull hnode3 hne⟩
  case isTrue hempty1 =>
  -- the last table goes, and then each table that this leaves empty
  obtain ⟨hp1, hmem1, hfull1⟩ := freeEntry_spec h h3 (Nat.le_refl 2) hnode2 hnode3 hempty1
  have ht1 := hp1.quiet.step.tables
  have hsame1 := fun q hq hlen => node_cleared (q := q) h h2 hnode2 hmem1 hq hlen
  have hnode1' := (hsame1 [a] h1 (Nat.le_succ 1)).trans hnode1
  have hnode2' := (hsame1 ([a] ++ [b]) h2 (Nat.le_refl 2)).trans hnode2
  have htop1 := congrFun hmem1 pt
  rw [update_of_ne (ne_root h.separated hroot h2 (by simp) hnode2)] at htop1
  split
  case isFalse hne =>
    exact ⟨hp1, fun j _ => congrFun htop1 j, fun hfull => fill_of_not_empty (hfull1 hfull) hnode2' hne⟩
  case isTrue hempty2 =>
  obtain ⟨hp2, hmem2, hfull2⟩ := freeEntry_spec ht1 h2 (Nat.le_succ 1) hnode1' hnode2' hempty2
  have ht2 := hp2.quiet.step.tables
  have hsame2 := fun q hq hlen => node_cleared (q := q) ht1 h1 hnode1' hmem2 hq hlen
  have hnode1'' := (hsame2 [a] h1 (Nat.le_refl 1)).trans hnode1'
  have htop2 := congrFun hmem2 pt
  rw [update_of_ne (ne_root ht1.separated hroot h1 (by simp) hnode1'), htop1] at htop2
  split
  case isFalse hne =>
    exact ⟨hp1.trans hp2, fun j _ => congrFun htop2 j,
      fun hfull => fill_of_not_empty (hfull2 (hfull1 hfull)) hnode1'' hne⟩
  case isTrue hempty3 =>
  obtain ⟨hp3, hmem3, hfull3⟩ :=
    freeEntry_spec (p := []) ht2 h1 (Nat.zero_le 2) (node_root hroot) hnode1'' hempty3
  refine ⟨(hp1.trans hp2).trans hp3, fun j hj => ?_, fun hfull => hfull3 (hfull2 (hfull1 hfull))⟩
  rw [← pml4Index_eq, ha] at hj
  refine (congrFun (congrFun hmem3 pt) j).trans ?_
  rw [update_self, update_of_ne hj, htop2]

end Unlink

/-! ## Mapping and unmapping a page -/

section Leaf

variable {k v n : Nat} {pt t page : Pfn} {e flags : BitVec 64}

theorem physToPage_leaf {m : Pmm} (hle : leafFrame e ≤ m.maxPfn) :
    m.pfnDbPhysToPage (e &&& pageFrameMask) = some (leafFrame e) :=
  if_neg (Nat.not_lt.mpr hle)

/-- The counts after `dropMapped`: a frame outside the database has none. -/
def dropAt (maxPfn : Nat) (x : Option Pfn) (q : Pfn) (i : PageInfo) : PageInfo :=
  if q ≤ maxPfn then on x PageInfo.dropped q i else i

theorem dropAt_of_ne {maxPfn : Nat} {x : Option Pfn} {q : Pfn} (h : x ≠ some q) (i : PageInfo) :
    dropAt maxPfn x q i = i := by
  rw [dropAt, on_of_ne h, ite_self]

theorem dropAt_none (maxPfn : Nat) (q : Pfn) (i : PageInfo) : dropAt maxPfn none q i = i :=
  dropAt_of_ne (Option.some_ne_none q).symm i

theorem dropAt_self {maxPfn : Nat} {q : Pfn} (h : q ≤ maxPfn) (i : PageInfo) :
    dropAt maxPfn (some q) q i = i.dropped := by
  rw [dropAt, if_pos h, on_self]

theorem dropMapped_spec (h : Tables V s) (hq : leafFrame e ≤ s.pmm.maxPfn → ¬ Table V s.mem (leafFrame e)) :
    Step V s (s.dropMapped (e &&& pageFrameMask)) (dropAt s.pmm.maxPfn (some (leafFrame e))) ∧
      (s.dropMapped (e &&& pageFrameMask)).mem = s.mem ∧
      (s.dropMapped (e &&& pageFrameMask)).pmm.refused = s.pmm.refused := by
  -- where nothing is dropped, no held frame is concerned
  have hsame : (Held V s (leafFrame e) → s.pmm.maxPfn < leafFrame e) →
      Step V s s (dropAt s.pmm.maxPfn (some (leafFrame e))) := by
    intro hout
    have hid : ∀ q, Held V s q →
        dropAt s.pmm.maxPfn (some (leafFrame e)) q (s.pmm.info q) = s.pmm.info q := by
      intro q hq
      by_cases hqe : some (leafFrame e) = some q
      · obtain rfl := some.inj hqe
        exact if_neg (Nat.not_le.mpr (hout hq))
      · exact dropAt_of_ne hqe _
    refine ⟨h, fun q hq _ => ⟨hq, (hid q hq).symm, rfl⟩, rfl, rfl, rfl, Nat.le_refl _⟩
  by_cases hle : leafFrame e ≤ s.pmm.maxPfn
  · rw [dropMapped, physToPage_leaf hle]
    cases hfree : (s.pmm.info (leafFrame e)).free with
    | false =>
      obtain ⟨hkeeps, hinfo⟩ := Pmm.drop_spec h.ok hfree hle
      refine ⟨?_, rfl, hkeeps.refused⟩
      have hstep := Step.of_pmm h hkeeps (hq hle) hinfo
      refine ⟨hstep.tables, fun q hq hnot => ?_, hstep.maxPfn, rfl, rfl, hstep.refused⟩
      have hfun : dropAt s.pmm.maxPfn (some (leafFrame e)) q (s.pmm.info q) =
          on (some (leafFrame e)) PageInfo.dropped q (s.pmm.info q) := by
        by_cases hqe : some (leafFrame e) = some q
        · obtain rfl := some.inj hqe
          exact if_pos hle
        · rw [dropAt_of_ne hqe, on_of_ne hqe]
      rw [hfun] at hnot ⊢
      exact hstep.keep q hq hnot
    | true =>
    have heq : s.modPmm (fun m => (m.pmmPageUnshare (leafFrame e)).pmmPageRelease
        (leafFrame e)) = s := by
      rw [modPmm, Pmm.drop_of_free h.ok hfree]
    dsimp only
    rw [heq]
    refine ⟨hsame fun hheld => ?_, rfl, rfl⟩
    rw [hheld.1] at hfree
    exact absurd hfree (by decide)
  · have hpage : s.pmm.pfnDbPhysToPage (e &&& pageFrameMask) = none :=
      if_pos (Nat.lt_of_not_le hle)
    rw [dropMapped, hpage]
    exact ⟨hsame fun _ => Nat.lt_of_not_le hle, rfl, rfl⟩

/-- A leaf entry is written. -/
theorem setLeaf_spec (h : Tables V s) (hn : Below V.top n) (ht : (forest V s.mem).node k (path n) = some t) :
    Step V s (s.writeEntry t (slot n) e) (fun _ i => i) ∧
      ∀ k' n', Below V.top n' → leaf V (s.writeEntry t (slot n) e).mem k' n' =
        if k' = k ∧ n' = n then present e else leaf V s.mem k' n' := by
  have htable := table_setLeaf (i := slot n) (e := e) h.separated hn ht
  refine ⟨⟨⟨h.ok, h.small, ?_, fun u hu => h.table u ((htable u).mp hu)⟩, ?_, rfl, rfl, rfl,
    Nat.le_refl _⟩, fun k' n' hn' => leaf_setLeaf h.separated hn ht hn'⟩
  · intro k1 p1 k2 p2 u hp1 hp2 hu1 hu2
    rw [mem_writeEntry, node_setLeaf h.separated hn ht hp1] at hu1
    rw [mem_writeEntry, node_setLeaf h.separated hn ht hp2] at hu2
    exact h.separated k1 p1 k2 p2 u hp1 hp2 hu1 hu2
  · intro q hq _
    have hqt : q ≠ t := by rintro rfl; exact hq.2 ⟨k, path n, inner_path hn, ht⟩
    refine ⟨⟨hq.1, fun hq' => hq.2 ((htable q).mp hq')⟩, rfl, ?_⟩
    rw [mem_writeEntry, update_of_ne hqt]

/-- The frame a page is mapped to. -/
def frameAt (V : Spaces) (s : Phys) (k n : Nat) : Option Pfn :=
  (leaf V s.mem k n).map leafFrame

/-- The entry of a leaf is dropped if there is one: the first half of `map_page` and
`unmap_page`. -/
theorem dropLeaf_spec (h : Tables V s) (ht : (forest V s.mem).node k (path n) = some t)
    (hold : ∀ q, frameAt V s k n = some q → q ≤ s.pmm.maxPfn → ¬ Table V s.mem q) {s' : Phys}
    (hs' : s' = if has (s.mem t (slot n)) pflagPresent then
      s.dropMapped (s.mem t (slot n) &&& pageFrameMask) else s) :
    Step V s s' (dropAt s.pmm.maxPfn (frameAt V s k n)) ∧ s'.mem = s.mem ∧
      s'.pmm.refused = s.pmm.refused := by
  subst hs'
  have hframe : frameAt V s k n = (present (s.mem t (slot n))).map leafFrame := by
    rw [frameAt, leaf, ht, bind_some]
  rw [hframe] at hold ⊢
  split
  case isTrue hhas =>
    rw [present_of_has hhas, map_some] at hold ⊢
    exact dropMapped_spec h (hold _ rfl)
  case isFalse hhas =>
    rw [present_of_not_has (Bool.eq_false_of_not_eq_true hhas)]
    refine ⟨⟨h, fun q hq _ => ⟨hq, (dropAt_none _ q _).symm, rfl⟩, rfl, rfl, rfl, Nat.le_refl _⟩, rfl, rfl⟩

/-- The leaves after one was replaced. -/
def SetsLeaf (V : Spaces) (s s' : Phys) (k n : Nat) (x : Option (BitVec 64)) : Prop :=
  ∀ k' n', Below V.top n' → leaf V s'.mem k' n' =
    if k' = k ∧ n' = n then x else leaf V s.mem k' n'

/-- What `map_page` does to the tables: the walk builds what is missing, then the leaf is
written. -/
def WritesLeaf (V : Spaces) (flags : BitVec 64) (s s' : Phys) (k n : Nat) (e : BitVec 64) : Prop :=
  ∃ s₁ t, Builds V flags s s₁ ∧ (forest V s₁.mem).node k (path n) = some t ∧
    ((forest V s.mem).FullBut (inner V.top) k [] →
      (forest V s₁.mem).FullBut (inner V.top) k (path n)) ∧
    s'.mem = update s₁.mem t (update (s₁.mem t) (slot n) e)

/-- What `unmap_page` does to the tables: the leaf is cleared, then empty tables are taken out. -/
def ClearsLeaf (V : Spaces) (s s' : Phys) (k n : Nat) : Prop :=
  ∃ s₁ t, (forest V s.mem).node k (path n) = some t ∧
    s₁.mem = update s.mem t (update (s.mem t) (slot n) 0) ∧ Prunes V s₁ s' ∧
    ((forest V s₁.mem).FullBut (inner V.top) k (path n) →
      (forest V s'.mem).FullBut (inner V.top) k [])

/-- What `map_page` does: it lacks a page for a table, or it replaces the leaf. -/
def MapsPage (V : Spaces) (s s' : Phys) (k n : Nat) (page : Pfn) (flags : BitVec 64) : Prop :=
  (Builds V flags s s' ∧ frameAt V s k n = none ∧ s.pmm.refused < s'.pmm.refused) ∨
    (Step V s s' (fun q i => on (some page) PageInfo.taken q
        (dropAt s.pmm.maxPfn (frameAt V s k n) q i)) ∧
      SetsLeaf V s s' k n (some (leafOf page flags)) ∧
      WritesLeaf V flags s s' k n (leafOf page flags) ∧ s'.pmm.refused = s.pmm.refused)

section

variable (h : Tables V s) (hroot : V.root k = some pt) (hv : Below V.top (pageNo v))
  (hold : ∀ q, frameAt V s k (pageNo v) = some q → q ≤ s.pmm.maxPfn → ¬ Table V s.mem q)

include h hroot hv hold

/-- A walk that builds tables, after which the leaf is overwritten: what `map_page` and `map_paddr`
have in common. -/
theorem overwriteLeaf_spec (flags : BitVec 64) (he : has e pflagPresent = true) :
    ∃ x s₁, s.leafEntry pt (alignDown v) (tableFlags flags) = (x, s₁) ∧
      ((x = none ∧ Builds V flags s s₁ ∧ TopKept pt (pageNo v) s s₁ ∧
          frameAt V s k (pageNo v) = none ∧ s.pmm.refused < s₁.pmm.refused) ∨
        ∃ t s₂, x = some (t, slot (pageNo v)) ∧
          s₂ = Phys.writeEntry (if has (s₁.mem t (slot (pageNo v))) pflagPresent then
            s₁.dropMapped (s₁.mem t (slot (pageNo v)) &&& pageFrameMask) else s₁) t (slot (pageNo v)) e ∧
          Step V s s₂ (dropAt s.pmm.maxPfn (frameAt V s k (pageNo v))) ∧
          SetsLeaf V s s₂ k (pageNo v) (some e) ∧ WritesLeaf V flags s s₂ k (pageNo v) e ∧
          TopKept pt (pageNo v) s s₂ ∧ s₂.pmm.refused = s.pmm.refused) := by
  have hv' : Below V.top (pageNo (alignDown v)) := (pageNo_alignDown v).symm ▸ hv
  obtain ⟨x, s₁, heq, hbuilds, htop, hx⟩ := leafEntry_spec h hroot hv' flags
  have hq1 := hbuilds.quiet
  rw [pageNo_alignDown] at hx htop
  refine ⟨x, s₁, heq, ?_⟩
  rcases hx with ⟨rfl, hnone, hr1⟩ | ⟨t, rfl, ht, hfull, hr1⟩
  · exact .inl ⟨rfl, hbuilds, htop, by rw [frameAt, hnone]; rfl, hr1⟩
  right
  have hframe : frameAt V s₁ k (pageNo v) = frameAt V s k (pageNo v) := by
    rw [frameAt, hq1.leaf k _ hv, frameAt]
  have hold1 : ∀ q, frameAt V s₁ k (pageNo v) = some q → q ≤ s₁.pmm.maxPfn → ¬ Table V s₁.mem q := by
    intro q hq
    rw [hframe] at hq
    -- the page is mapped, so the walk built no table
    obtain ⟨e, hleaf, -⟩ := Option.map_eq_some_iff.mp hq
    obtain ⟨u, hu, -⟩ := Option.bind_eq_some_iff.mp hleaf
    have hsame := leafEntry_of_node (v := alignDown v) hroot
      (by rw [pageNo_alignDown]; exact hu) (tableFlags flags)
    obtain rfl : s = s₁ := congrArg Prod.snd (hsame.symm.trans heq)
    exact hold q hq
  obtain ⟨hstep2, hmem2, hr2⟩ := dropLeaf_spec hq1.step.tables ht hold1 rfl
  rw [hframe, hq1.step.maxPfn] at hstep2
  set s₂ := (if has (s₁.mem t (slot (pageNo v))) pflagPresent then
      s₁.dropMapped (s₁.mem t (slot (pageNo v)) &&& pageFrameMask) else s₁)
  have ht2 : (forest V s₂.mem).node k (path (pageNo v)) = some t := by rw [hmem2]; exact ht
  obtain ⟨hstep3, hleaf3⟩ := setLeaf_spec (e := e) hstep2.tables hv ht2
  refine ⟨t, _, rfl, rfl, (hq1.step.trans hstep2 fun q hq _ => hq.1).trans hstep3 fun _ _ h => h,
    fun k' n' hn' => ?_, ⟨s₁, t, hbuilds, ht, hfull, ?_⟩, fun j hj => ?_, hr2.trans hr1⟩
  · rw [hleaf3 k' n' hn', present_of_has he, hmem2, hq1.leaf k' n' hn']
  · rw [mem_writeEntry, hmem2]
  · have hne := ne_root hq1.step.tables.separated hroot (inner_path hv) (List.cons_ne_nil _ _) ht
    rw [mem_writeEntry, update_of_ne hne, hmem2]
    exact htop j hj

theorem mapPage_spec (hpage : Held V s page) (hle : page ≤ s.pmm.maxPfn)
    (hstay : (dropAt s.pmm.maxPfn (frameAt V s k (pageNo v)) page
      (s.pmm.info page)).free = false) (flags : BitVec 64) :
    TopKept pt (pageNo v) s (s.mapPage pt v page flags) ∧
      MapsPage V s (s.mapPage pt v page flags) k (pageNo v) page flags := by
  have hphys : s.pmm.pfnDbPageToPhys page = physOf page := if_neg (Nat.not_lt.mpr hle)
  obtain ⟨x, s₁, heq, hx⟩ :=
    overwriteLeaf_spec h hroot hv hold flags (has_present_leafOf page flags)
  rcases hx with ⟨rfl, hbuilds, htop, hnone, href⟩ | ⟨t, s₂, rfl, hs2, hstep, hsets, hwrites, htop, href⟩
  · have hmap : s.mapPage pt v page flags = s₁ := by rw [mapPage, heq]
    rw [hmap]
    exact ⟨htop, .inl ⟨hbuilds, hnone, href⟩⟩
  obtain ⟨hpage2, -, -⟩ := hstep.keep page hpage hstay
  obtain ⟨hkeeps, hinfo⟩ := Pmm.take_spec hstep.tables.ok hpage2.1
  have hstep3 := Step.of_pmm hstep.tables hkeeps hpage2.2 hinfo
  have hmap : s.mapPage pt v page flags =
      { s₂ with pmm := (s₂.pmm.pmmPageShare page).pmmPageRetain page } := by
    rw [mapPage, heq, hphys, hs2]
    rfl
  rw [hmap]
  refine ⟨htop, .inr ⟨hstep.trans hstep3 ?_, hsets, hwrites, hkeeps.refused.trans href⟩⟩
  intro q _ hfree
  by_cases hqp : q = page
  · rwa [hqp]
  · rwa [on_of_ne fun h => hqp (some.inj h).symm] at hfree

end

/-- The entry `map_paddr` writes. -/
def paddrLeaf (paddr : Nat) (flags : BitVec 64) : BitVec 64 :=
  BitVec.ofNat 64 (alignDown paddr) ||| (flags &&& ~~~pageFrameMask) ||| pflagPresent

theorem has_present_paddrLeaf (paddr : Nat) (flags : BitVec 64) :
    has (paddrLeaf paddr flags) pflagPresent = true := by
  rw [pflagPresent, has_twoPow, paddrLeaf, BitVec.getLsbD_or]
  simp [pflagPresent]

theorem mapPaddr_spec (h : Tables V s) (hroot : V.root k = some pt) (hv : Below V.top (pageNo v))
    (hold : ∀ q, frameAt V s k (pageNo v) = some q → q ≤ s.pmm.maxPfn → ¬ Table V s.mem q)
    (paddr : Nat) (flags : BitVec 64) : TopKept pt (pageNo v) s (s.mapPaddr pt v paddr flags) ∧
    ((Builds V flags s (s.mapPaddr pt v paddr flags) ∧ frameAt V s k (pageNo v) = none) ∨
      (Step V s (s.mapPaddr pt v paddr flags) (dropAt s.pmm.maxPfn (frameAt V s k (pageNo v))) ∧
        WritesLeaf V flags s (s.mapPaddr pt v paddr flags) k (pageNo v) (paddrLeaf paddr flags))) := by
  obtain ⟨x, s₁, heq, hx⟩ :=
    overwriteLeaf_spec h hroot hv hold flags (has_present_paddrLeaf paddr flags)
  rcases hx with ⟨rfl, hbuilds, htop, hnone, -⟩ | ⟨t, s₂, rfl, hs2, hstep, -, hwrites, htop, -⟩
  · have hmap : s.mapPaddr pt v paddr flags = s₁ := by rw [mapPaddr, heq]
    rw [hmap]
    exact ⟨htop, .inl ⟨hbuilds, hnone⟩⟩
  · have hmap : s.mapPaddr pt v paddr flags = s₂ := by
      rw [mapPaddr, heq, hs2]
      rfl
    rw [hmap]
    exact ⟨htop, .inr ⟨hstep, hwrites⟩⟩

/-- A page that is not mapped stays as it is. -/
theorem unmapPage_of_none (hroot : V.root k = some pt)
    (hleaf : leaf V s.mem k (pageNo v) = none) : s.unmapPage pt v = s := by
  have hwalk := leafEntry_zero_root (s := s) (v := alignDown v) hroot
  rw [pageNo_alignDown] at hwalk
  rw [unmapPage, hwalk]
  cases ht : (forest V s.mem).node k (path (pageNo v)) with
  | none => rfl
  | some t =>
  have hhas : ¬ has (s.mem t (slot (pageNo v))) pflagPresent = true := by
    intro hhas
    simp [leaf, ht, bind_some, present_of_has hhas] at hleaf
  dsimp only [map_some]
  rw [if_neg hhas]

theorem unmapPage_spec (h : Tables V s) (hroot : V.root k = some pt) (hv : Below V.top (pageNo v))
    (hold : ∀ q, frameAt V s k (pageNo v) = some q → q ≤ s.pmm.maxPfn → ¬ Table V s.mem q) :
    Step V s (s.unmapPage pt v) (dropAt s.pmm.maxPfn (frameAt V s k (pageNo v))) ∧
      SetsLeaf V s (s.unmapPage pt v) k (pageNo v) none ∧
      (s.unmapPage pt v = s ∨ ClearsLeaf V s (s.unmapPage pt v) k (pageNo v)) ∧
      TopKept pt (pageNo v) s (s.unmapPage pt v) ∧ (s.unmapPage pt v).pmm.refused = s.pmm.refused := by
  cases hleaf : leaf V s.mem k (pageNo v) with
  | none =>
    rw [unmapPage_of_none hroot hleaf, frameAt, hleaf]
    refine ⟨⟨h, fun q hq _ => ⟨hq, (dropAt_none _ q _).symm, rfl⟩, rfl, rfl, rfl, Nat.le_refl _⟩,
      fun k' n' _ => ?_, .inl rfl, fun _ _ => rfl, rfl⟩
    by_cases hk : k' = k ∧ n' = pageNo v
    · rw [if_pos hk, hk.1, hk.2, hleaf]
    · rw [if_neg hk]
  | some e =>
  obtain ⟨t, ht, he⟩ := Option.bind_eq_some_iff.mp hleaf
  have hhas := (present_eq_some_iff.mp he).1
  obtain ⟨hstep1, hmem1, hr1⟩ := dropLeaf_spec h ht hold rfl
  rw [if_pos hhas] at hstep1 hmem1 hr1
  set s₁ := s.dropMapped (s.mem t (slot (pageNo v)) &&& pageFrameMask)
  have ht1 : (forest V s₁.mem).node k (path (pageNo v)) = some t := by rw [hmem1]; exact ht
  obtain ⟨hstep2, hleaf2⟩ := setLeaf_spec (e := 0) hstep1.tables hv ht1
  obtain ⟨hprunes, htop, hfull⟩ := uPteFreeEmpty_spec hstep2.tables hroot
    ((pageNo_alignDown v).symm ▸ hv : Below V.top (pageNo (alignDown v)))
  rw [pageNo_alignDown] at hfull htop
  have heq : s.unmapPage pt v = (s₁.writeEntry t (slot (pageNo v)) 0).uPteFreeEmpty pt (alignDown v) := by
    rw [unmapPage, leafEntry_zero_root hroot, pageNo_alignDown, ht]
    dsimp only [map_some]
    rw [if_pos hhas]
  rw [heq]
  refine ⟨(hstep1.trans hstep2 fun _ _ h => h).trans hprunes.quiet.step fun _ _ h => h, ?_,
    .inr ⟨_, t, ht, ?_, hprunes, hfull⟩, fun j hj => ?_, hprunes.refused.trans hr1⟩
  · intro k' n' hn'
    rw [hprunes.quiet.leaf k' n' hn', hleaf2 k' n' hn', hmem1, present_zero]
  · rw [mem_writeEntry, hmem1]
  · have hne := ne_root h.separated hroot (inner_path hv) (List.cons_ne_nil _ _) ht
    rw [htop j hj, mem_writeEntry, update_of_ne hne, hmem1]

end Leaf

end Phys

end Lapis.Mm
