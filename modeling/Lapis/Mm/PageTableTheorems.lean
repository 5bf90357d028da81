/-
Lapis.Mm.PageTableTheorems — a page table is a map from pages to frames.

A run starts from a top table with an empty lower half and calls `map_page` and `unmap_page` at
lower-half addresses. The callers of `map_page` pass a page they hold: one that is allocated or
reserved, and that is none of the tables of the tree. In every state of a run `get_paddr` is a map
that the two functions change at one page only, no table stands at two paths, no table is freed
while it has an entry, and as long as no allocation failed no table but the root is empty
(`page_table_refines_map`).
-/
import Lapis.Mm.Boot
import Lapis.Mm.MappedTheorems

namespace Lapis.Mm

open Function List Option Lib

namespace Phys

/-! ## Full tables -/

section Full

variable {V : Spaces} {s s' : Phys} {k n : Nat} {t : Pfn} {e flags : BitVec 64}

/-- A leaf entry does not concern the other tables. -/
theorem full_setLeaf (hsep : (forest V s.mem).Separated (inner V.top)) (hn : Below V.top n)
    (ht : (forest V s.mem).node k (path n) = some t)
    (hfull : (forest V s.mem).FullBut (inner V.top) k (path n)) :
    (forest V (update s.mem t (update (s.mem t) (slot n) e))).FullBut (inner V.top) k (path n) := by
  rw [forest_update]
  refine hfull.setChild (inner_closed V.top) hsep (inner_path hn) ht fun q hq hpre => ?_
  have hlen := hpre.length_le
  have := hq.1
  simp only [path, length_append, length_cons, length_nil] at hlen
  omega

theorem WritesLeaf.full (h : WritesLeaf V flags s s' k n e) (hn : Below V.top n)
    (he : has e pflagPresent = true) (hfull : (forest V s.mem).FullBut (inner V.top) k []) :
    (forest V s'.mem).FullBut (inner V.top) k [] := by
  obtain ⟨s1, t, hbuilds, ht, hfull1, hmem⟩ := h
  have hsep := hbuilds.quiet.step.tables.separated
  have hnode : (forest V s'.mem).node k (path n) = some t := by
    rwa [hmem, node_setLeaf hsep hn ht (inner_path hn)]
  refine Forest.FullBut.fill (i := slot n) ?_ hnode ?_
  · rw [hmem]
    exact full_setLeaf hsep hn ht (hfull1 hfull)
  · rw [hmem, forest_child, update_self, update_self, present_of_has he]
    exact some_ne_none _

theorem ClearsLeaf.full (h : ClearsLeaf V s s' k n)
    (hsep : (forest V s.mem).Separated (inner V.top)) (hn : Below V.top n)
    (hfull : (forest V s.mem).FullBut (inner V.top) k []) : (forest V s'.mem).FullBut (inner V.top) k [] := by
  obtain ⟨s1, t, ht, hmem, -, hfull'⟩ := h
  refine hfull' ?_
  rw [hmem]
  exact full_setLeaf hsep hn ht (hfull.except _)

end Full

/-! ## Runs of one page table -/

/-- One page table, of which the lower half is looked at. -/
def lowerHalf (pt : Pfn) : Spaces where
  root k := if k = 0 then some pt else none
  top := 256

/-- The table at a path of a page table. -/
def tableAt (pt : Pfn) (mem : Memory) (p : List (Fin 512)) : Option Pfn :=
  (forest (lowerHalf pt) mem).node 0 p

inductive PageOp
  | map (v : Nat) (page : Pfn) (flags : BitVec 64)
  | unmap (v : Nat)

def PageOp.run (pt : Pfn) (s : Phys) : PageOp → Phys
  | .map v page flags => s.mapPage pt v page flags
  | .unmap v => s.unmapPage pt v

/-- Addresses are of the lower half, and a page to map is the caller's. -/
def PageOp.Ok (pt : Pfn) : PageOp → Phys → Prop
  | .map v page _, s => v < 2 ^ 47 ∧ page ≤ s.pmm.maxPfn ∧ Held (lowerHalf pt) s page
  | .unmap v, _ => v < 2 ^ 47

/-- The states of a page table that map_page and unmap_page lead to. -/
def Reaches (pt : Pfn) (s₀ s : Phys) : Prop :=
  Run (fun _ op s => some (op.run pt s)) (PageOp.Ok pt) s₀ s

/-- A top table of its own with an empty lower half. -/
structure EmptyRoot (pt : Pfn) (s : Phys) : Prop where
  ok : s.pmm.Ok
  small : s.pmm.maxPfn < 2 ^ 40
  held : (s.pmm.info pt).free = false
  empty : ∀ i : Fin 512, i.val < 256 → s.mem pt i = 0

section Run

variable {pt : Pfn} {s₀ s : Phys}

theorem root_lowerHalf (pt : Pfn) : (lowerHalf pt).root 0 = some pt := rfl

variable {k : Nat} {t : Pfn}

theorem EmptyRoot.node (h : EmptyRoot pt s) {p : List (Fin 512)}
    (hp : inner 256 p) (ht : (forest (lowerHalf pt) s.mem).node k p = some t) : k = 0 ∧ p = [] ∧ t = pt :=
  node_of_empty rfl h.empty hp ht

/-- What every state of a run satisfies. The callers' references are one for every page that is
mapped. -/
structure Grown (pt : Pfn) (s₀ s : Phys) (bal : Pfn → Nat) : Prop where
  mapped : Mapped (lowerHalf pt) bal s
  caller : ∀ q, 0 < refs (frames (lowerHalf pt) s.mem) q → 0 < bal q
  refused : s₀.pmm.refused ≤ s.pmm.refused
  full : s.pmm.refused = s₀.pmm.refused →
    (forest (lowerHalf pt) s.mem).FullBut (inner 256) 0 []

theorem EmptyRoot.grown (h : EmptyRoot pt s) : Grown pt s s fun _ => 0 := by
  have hframes : frames (lowerHalf pt) s.mem = fun _ => none := by
    funext ⟨k, n⟩
    by_cases hn : Below 256 n
    · rw [frames, if_pos (show Below (lowerHalf pt).top n from hn), leaf]
      cases ht : (forest (lowerHalf pt) s.mem).node k (path n) with
      | none => rfl
      | some t => exact absurd (h.node (inner_path hn) ht).2.1 (cons_ne_nil _ _)
    · exact if_neg hn
  have hzero : ∀ q, refs (frames (lowerHalf pt) s.mem) q = 0 := by
    intro q
    refine refs_eq_zero fun kn => ?_
    rw [hframes]
    exact (some_ne_none q).symm
  refine ⟨⟨⟨h.ok, h.small, ?_, ?_⟩, ?_, ?_⟩, ?_, Nat.le_refl _, fun _ => ?_⟩
  · exact separated_of_empty rfl h.empty
  · rintro t ⟨k, p, hp, ht⟩
    obtain ⟨-, -, rfl⟩ := h.node hp ht
    exact h.held
  · rw [hframes]
    exact Lib.finitary_none
  · intro q hq
    rw [hzero q] at hq
    exact absurd hq (Nat.lt_irrefl 0)
  · intro q hq
    rw [hzero q] at hq
    exact absurd hq (Nat.lt_irrefl 0)
  · intro k p t hp hne _ ht
    exact absurd (h.node hp ht).2.1 hne

variable {bal : Pfn → Nat} {page : Pfn}

/-- A page the caller holds counts as a reference of theirs. -/
theorem Grown.claim (h : Grown pt s₀ s bal) (hle : page ≤ s.pmm.maxPfn) (hheld : Held (lowerHalf pt) s page) :
    ∃ bal', Grown pt s₀ s bal' ∧ 0 < bal' page := by
  by_cases hbal : 0 < bal page
  · exact ⟨bal, h, hbal⟩
  have hzero : refs (frames (lowerHalf pt) s.mem) page = 0 :=
    Nat.eq_zero_of_not_pos fun hpos => hbal (h.caller page hpos)
  refine ⟨update bal page 1, ⟨⟨h.mapped.tables, h.mapped.finitary, fun q hq => ?_⟩, fun q hq => ?_,
    h.refused, h.full⟩, by rw [update_self]; exact Nat.one_pos⟩
  · by_cases hqp : q = page
    · subst hqp
      rw [update_self, hzero]
      refine ⟨hheld, hle, ?_⟩
      cases hres : (s.pmm.info q).reserved with
      | true => exact .inl rfl
      | false => exact .inr (h.mapped.tables.ok.counted hheld.1 hres)
    · rw [update_of_ne hqp] at hq ⊢
      exact h.mapped.backed q hq
  · by_cases hqp : q = page
    · rw [hqp, update_self]
      exact Nat.one_pos
    · rw [update_of_ne hqp]
      exact h.caller q hq

variable {v : Nat} {flags : BitVec 64}

/-- What `map_page` does: it builds tables until one cannot be allocated, or it sets a leaf. -/
theorem Grown.map_cases (h : Grown pt s₀ s bal) (hok : (PageOp.map v page flags).Ok pt s) :
    (Builds (lowerHalf pt) flags s (s.mapPage pt v page flags) ∧
        s.pmm.refused < (s.mapPage pt v page flags).pmm.refused) ∨
      (SetsLeaf (lowerHalf pt) s (s.mapPage pt v page flags) 0 (pageNo v) (some (leafOf page flags)) ∧
        WritesLeaf (lowerHalf pt) flags s (s.mapPage pt v page flags) 0 (pageNo v) (leafOf page flags) ∧
        (s.mapPage pt v page flags).pmm.refused = s.pmm.refused) := by
  obtain ⟨hv, hle, hheld⟩ := hok
  obtain ⟨bal', h', hpage⟩ := h.claim hle hheld
  rcases h'.mapped.mapPage_spec (root_lowerHalf pt) (below_of_lt hv) hpage flags with
    ⟨hbuilds, -, href⟩ | ⟨-, hsets, hwrites, href⟩
  · exact .inl ⟨hbuilds, href⟩
  · exact .inr ⟨hsets, hwrites, href⟩

/-- What `unmap_page` does. -/
theorem Grown.unmap_cases (h : Grown pt s₀ s bal) (hv : v < 2 ^ 47) :
    SetsLeaf (lowerHalf pt) s (s.unmapPage pt v) 0 (pageNo v) none ∧
      (s.unmapPage pt v = s ∨ ClearsLeaf (lowerHalf pt) s (s.unmapPage pt v) 0 (pageNo v)) ∧
      (s.unmapPage pt v).pmm.refused = s.pmm.refused := by
  obtain ⟨-, hsets, hclears, -, href⟩ := unmapPage_spec h.mapped.tables (root_lowerHalf pt)
    (below_of_lt hv) fun _ hq _ => (h.mapped.leaf (below_of_lt hv) hq).1.2
  exact ⟨hsets, hclears, href⟩

variable {V : Spaces} {s s' : Phys} {n : Nat}

/-- A mapped page has a reference of its caller. -/
theorem caller_of_sets {x : Option Pfn} (hfin : Finitary (frames V s.mem))
    (hframes : frames V s'.mem = update (frames V s.mem) (k, n) x)
    (hcaller : ∀ q, 0 < refs (frames V s.mem) q → 0 < bal q) (hx : ∀ q, x = some q → 0 < bal q)
    {q : Pfn} (hq : 0 < refs (frames V s'.mem) q) : 0 < bal q := by
  by_cases hxq : x = some q
  · exact hx q hxq
  · have hrefs := refs_update (k := (k, n)) (x := x) (v := q) hfin
    rw [if_neg hxq] at hrefs
    rw [hframes] at hq
    exact hcaller q (by omega)

theorem Grown.map (h : Grown pt s₀ s bal) (hv : v < 2 ^ 47)
    (hpage : 0 < bal page) (flags : BitVec 64) : Grown pt s₀ (s.mapPage pt v page flags) bal := by
  have hn : Below (lowerHalf pt).top (pageNo v) := below_of_lt hv
  have hle := (h.mapped.backed page (by omega)).2.1
  have hlt := Nat.lt_of_le_of_lt hle h.mapped.tables.small
  refine ⟨h.mapped.mapPage (root_lowerHalf pt) hn hpage flags, ?_, ?_, ?_⟩ <;>
    rcases h.mapped.mapPage_spec (root_lowerHalf pt) hn hpage flags with
      ⟨hbuilds, -, href⟩ | ⟨-, hsets, hwrites, href⟩
  · intro q hq
    rw [hbuilds.quiet.frames] at hq
    exact h.caller q hq
  · intro q hq
    refine caller_of_sets h.mapped.finitary (hsets.frames hn) h.caller (fun q hq => ?_) hq
    rw [map_some, leafFrame_leafOf hlt] at hq
    exact some.inj hq ▸ hpage
  · have := h.refused
    omega
  · have := h.refused
    omega
  · intro heq
    have := h.refused
    omega
  · intro heq
    exact hwrites.full hn (has_present_leafOf page flags) (h.full (href.symm.trans heq))

/-- The caller still holds the page. -/
theorem Grown.held_map (h : Grown pt s₀ s bal) (hok : (PageOp.map v page flags).Ok pt s) :
    page ≤ (s.mapPage pt v page flags).pmm.maxPfn ∧ Held (lowerHalf pt) (s.mapPage pt v page flags) page := by
  obtain ⟨bal', h', hpage⟩ := h.claim hok.2.1 hok.2.2
  obtain ⟨hheld, hle, -⟩ := (h'.map hok.1 hpage flags).mapped.backed page (by omega)
  exact ⟨hle, hheld⟩

theorem Grown.unmap (h : Grown pt s₀ s bal) (hv : v < 2 ^ 47) : Grown pt s₀ (s.unmapPage pt v) bal := by
  have hn : Below (lowerHalf pt).top (pageNo v) := below_of_lt hv
  obtain ⟨hsets, hclears, href⟩ := h.unmap_cases hv
  refine ⟨h.mapped.unmapPage (root_lowerHalf pt) hn, fun q hq => ?_, href ▸ h.refused, fun heq => ?_⟩
  · exact caller_of_sets h.mapped.finitary (hsets.frames hn) h.caller nofun hq
  · have hfull := h.full (href.symm.trans heq)
    rcases hclears with hsame | hclears
    · rwa [hsame]
    · exact hclears.full h.mapped.tables.separated hn hfull

variable {op : PageOp}

theorem Grown.run (h : Grown pt s₀ s bal) (hok : op.Ok pt s) : ∃ bal', Grown pt s₀ (op.run pt s) bal' := by
  cases op with
  | map v page flags =>
    obtain ⟨hv, hle, hheld⟩ := hok
    obtain ⟨bal', h', hpage⟩ := h.claim hle hheld
    exact ⟨bal', h'.map hv hpage flags⟩
  | unmap v => exact ⟨bal, h.unmap hok⟩

theorem Reaches.next (hrun : Reaches pt s₀ s) (hok : op.Ok pt s) : Reaches pt s₀ (op.run pt s) :=
  @Run.next _ _ _ _ _ _ _ _ 0 hrun hok rfl

theorem Reaches.grown (hrun : Reaches pt s₀ s) (h0 : EmptyRoot pt s₀) : ∃ bal, Grown pt s₀ s bal := by
  induction hrun with
  | init => exact ⟨_, h0.grown⟩
  | next _ hok hstep ih =>
    obtain ⟨bal, hs⟩ := ih
    obtain rfl := some.inj hstep
    exact hs.run hok

/-! ## The map -/

/-- The pages of the lower half are mapped as before, except that one is mapped to `x`. -/
def SetsPage (pt : Pfn) (s s' : Phys) (v : Nat) (x : BitVec 64) : Prop :=
  ∀ v' < 2 ^ 47, s'.getPaddr pt v' =
    if v' / pageSize = v / pageSize then x else s.getPaddr pt v'

theorem SetsLeaf.setsPage (hv : v < 2 ^ 47) {x : Option (BitVec 64)}
    (h : SetsLeaf (lowerHalf pt) s s' 0 (pageNo v) x) :
    SetsPage pt s s' v ((x.map (physOf <| leafFrame ·)).getD 0) := by
  intro v' hv'
  rw [getPaddr_eq (root_lowerHalf pt), getPaddr_eq (root_lowerHalf pt), h 0 _ (below_of_lt hv'),
    pageNo_of_lt hv, pageNo_of_lt hv']
  by_cases heq : v' / pageSize = v / pageSize
  · rw [if_pos heq, if_pos ⟨rfl, heq⟩]
  · rw [if_neg heq, if_neg fun h => heq h.2]

theorem WritesLeaf.table {e : BitVec 64}
    (h : WritesLeaf V flags s s' k n e) (hn : Below V.top n) (ht : Table V s.mem t) : Table V s'.mem t := by
  obtain ⟨s1, u, hbuilds, hu, -, hmem⟩ := h
  rw [hmem, table_setLeaf hbuilds.quiet.step.tables.separated hn hu]
  exact hbuilds.table ht

/-- A table that goes has no entry. -/
theorem ClearsLeaf.gone (h : ClearsLeaf V s s' k n)
    (hsep : (forest V s.mem).Separated (inner V.top)) (hn : Below V.top n)
    (ht : Table V s.mem t) (hnot : ¬ Table V s'.mem t) (i : Fin 512) : present (s'.mem t i) = none := by
  obtain ⟨s1, u, hu, hmem, hprunes, -⟩ := h
  refine hprunes.gone t ?_ hnot i
  rwa [hmem, table_setLeaf hsep hn hu]

theorem Grown.freed (h : Grown pt s₀ s bal) (hok : op.Ok pt s) (ht : Table (lowerHalf pt) s.mem t)
    (hfree : ((op.run pt s).pmm.info t).free = true) (i : Fin 512) :
    has ((op.run pt s).mem t i) pflagPresent = false := by
  obtain ⟨bal', h'⟩ := h.run hok
  have hgone := not_table_of_free h'.mapped.tables hfree
  cases op with
  | map v page flags =>
    -- building and writing leaves keeps every table
    rcases h.map_cases hok with ⟨hbuilds, -⟩ | ⟨-, hwrites, -⟩
    · exact absurd (hbuilds.table ht) hgone
    · exact absurd (hwrites.table (below_of_lt hok.1) ht) hgone
  | unmap v =>
  have hn : Below (lowerHalf pt).top (pageNo v) := below_of_lt hok
  rcases (h.unmap_cases hok).2.1 with hsame | hclears
  · rw [PageOp.run, hsame] at hgone
    exact absurd ht hgone
  have hnone := hclears.gone h.mapped.tables.separated hn ht hgone i
  by_contra hhas
  have hhas' : has ((s.unmapPage pt v).mem t i) pflagPresent = true :=
    Bool.eq_true_of_not_eq_false hhas
  simp [present_of_has hhas'] at hnone

/-- A page table is a map from pages to frames, with tables that are apart and in use. -/
theorem page_table_refines_map (h₀ : EmptyRoot pt s₀) (hrun : Reaches pt s₀ s) :
    -- mapping sets one page, or none when a table could not be allocated
    (∀ v page flags, (PageOp.map v page flags).Ok pt s →
      ((s.mapPage pt v page flags).pmm.refused = s.pmm.refused →
        SetsPage pt s (s.mapPage pt v page flags) v (physOf page)) ∧
      ((s.mapPage pt v page flags).pmm.refused ≠ s.pmm.refused →
        ∀ v' < 2 ^ 47, (s.mapPage pt v page flags).getPaddr pt v' = s.getPaddr pt v')) ∧
    -- unmapping clears one page
    (∀ v < 2 ^ 47, SetsPage pt s (s.unmapPage pt v) v 0) ∧
    -- a table that is freed has no entry
    (∀ op : PageOp, op.Ok pt s → ∀ p t, inner 256 p → tableAt pt s.mem p = some t →
      ((op.run pt s).pmm.info t).free = true →
      ∀ i, has ((op.run pt s).mem t i) pflagPresent = false) ∧
    -- no table but the root is empty
    (s.pmm.refused = s₀.pmm.refused → ∀ p t, inner 256 p → p ≠ [] →
      tableAt pt s.mem p = some t → ∃ i, has (s.mem t i) pflagPresent = true) ∧
    -- no table is reachable by two paths, or free
    (∀ p p' t, inner 256 p → inner 256 p' → tableAt pt s.mem p = some t →
      tableAt pt s.mem p' = some t → p = p') ∧
    ∀ p t, inner 256 p → tableAt pt s.mem p = some t → (s.pmm.info t).free = false := by
  obtain ⟨bal, h⟩ := hrun.grown h₀
  have hroot := root_lowerHalf pt
  refine ⟨fun v page flags hok => ?_, fun v hv => ?_, fun op hok p t hp ht hfree => ?_,
    fun heq p t hp hne ht => ?_, fun p p' t hp hp' ht ht' => ?_, fun p t hp ht => ?_⟩
  · have hlt := Nat.lt_of_le_of_lt hok.2.1 h.mapped.tables.small
    rcases h.map_cases hok with ⟨hbuilds, href⟩ | ⟨hsets, -, href⟩
    · refine ⟨fun heq => absurd heq (Nat.ne_of_gt href), fun _ v' hv' => ?_⟩
      rw [getPaddr_eq hroot, getPaddr_eq hroot, hbuilds.quiet.leaf 0 _ (below_of_lt hv')]
    · refine ⟨fun _ => ?_, fun hne => absurd href hne⟩
      have := hsets.setsPage hok.1
      rwa [map_some, leafFrame_leafOf hlt] at this
  · exact (h.unmap_cases hv).1.setsPage hv
  · exact h.freed hok ⟨0, p, hp, ht⟩ hfree
  · obtain ⟨j, hj⟩ := h.full heq 0 p t hp hne (fun hp => hne hp.2) ht
    refine ⟨j, ?_⟩
    by_contra hnot
    exact hj (forest_child_eq_none_iff.mpr
      (present_of_not_has (Bool.eq_false_of_not_eq_true hnot)))
  · exact (h.mapped.tables.separated 0 p 0 p' t hp hp' ht ht').2
  · exact h.mapped.tables.table t ⟨0, p, hp, ht⟩

theorem smallPhys_emptyRoot : EmptyRoot 1 (smallPhys 9) := by
  have hok : (smallPhys 9).pmm.Ok := by
    rcases Pmm.pmmAllocPage_spec (smallPmm_ok 9) with ⟨heq, -⟩ | ⟨p, m, heq, -, -, -, hm, -⟩
    · exact absurd (congrArg Prod.fst heq) (by decide +kernel)
    · change ((smallPmm 9).pmmAllocPage.2).Ok
      rw [heq]
      exact hm.ok
  exact ⟨hok, by decide +kernel, by decide +kernel, fun _ _ => rfl⟩

theorem smallPhys_held : Held (lowerHalf 1) (smallPhys 9) 9 := by
  refine ⟨by decide +kernel, ?_⟩
  rintro ⟨k, p, hp, ht⟩
  have := (smallPhys_emptyRoot.node hp ht).2.2
  exact absurd this (by decide)

theorem smallPhys_map_ok (hv : v < 2 ^ 47) (flags : BitVec 64) :
    (PageOp.map v 9 flags).Ok 1 (smallPhys 9) := by
  have hle : 9 ≤ (smallPhys 9).pmm.maxPfn := by decide +kernel
  exact ⟨hv, hle, smallPhys_held⟩

theorem page_table_refines_map_small :
    ((smallPhys 9).mapPage 1 0x1000 9 pflagUser).pmm.refused = (smallPhys 9).pmm.refused ∧
      SetsPage 1 (smallPhys 9) ((smallPhys 9).mapPage 1 0x1000 9 pflagUser) 0x1000 (physOf 9) := by
  have href : ((smallPhys 9).mapPage 1 0x1000 9 pflagUser).pmm.refused =
      (smallPhys 9).pmm.refused := by decide +kernel
  have hmap := (page_table_refines_map smallPhys_emptyRoot Run.init).1 0x1000 9 pflagUser
    (smallPhys_map_ok (by omega) _)
  exact ⟨href, hmap.1 href⟩

theorem exists_page {a : Fin 512} (ha : a.val < 256) (b c i : Fin 512) :
    ∃ v < 2 ^ 47, path (pageNo v) = [a, b, c] ∧ slot (pageNo v) = i := by
  refine ⟨(((a * 512 + b) * 512 + c) * 512 + i) * 4096, by omega, ?_⟩
  simp only [path, slot, pageNo, pageSize, Fin.ofNat, Nat.shiftRight_eq_div_pow, cons.injEq,
    Fin.ext_iff, and_true]
  omega

/-- A table below the root leads to a page: it has an entry, and so has every table below it. -/
theorem exists_mapped (hfull : (forest (lowerHalf pt) s.mem).FullBut (inner 256) 0 []) {p : List (Fin 512)}
    (hp : inner 256 p) (hne : p ≠ []) (hlen : p.length + k = 3)
    (ht : (forest (lowerHalf pt) s.mem).node 0 p = some t) : ∃ v < 2 ^ 47, s.translate pt v ≠ none := by
  induction k generalizing p t with
  | zero =>
    obtain ⟨i, hi⟩ := hfull 0 p t hp hne (fun heq => hne heq.2) ht
    obtain ⟨a, b, c, rfl⟩ := length_eq_three.mp hlen
    obtain ⟨v, hv, hpath, hslot⟩ := exists_page (hp.2 a rfl) b c i
    refine ⟨v, hv, ?_⟩
    rw [translate_eq (root_lowerHalf pt), leaf, hpath, hslot, ht, bind_some]
    exact fun hnone => hi (forest_child_eq_none_iff.mpr hnone)
  | succ k ih =>
    obtain ⟨i, hi⟩ := hfull 0 p t hp hne (fun heq => hne heq.2) ht
    obtain ⟨t', ht'⟩ := ne_none_iff_exists'.mp hi
    have hlen' : (p ++ [i]).length + k = 3 := by rw [length_append, length_singleton]; omega
    refine ih ⟨by omega, ?_⟩ (by simp) hlen' (by rw [Forest.node_concat, ht, bind_some, ht'])
    rw [head?_append_of_ne_nil p hne]
    exact hp.2

end Run

end Phys

end Lapis.Mm
