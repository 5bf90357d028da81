/-
Lapis.Util.RbTreeTheorems — every tree that `rb_insert` and `rb_remove`
can build from `RB_TREE_INIT` is a red-black search tree.

A run inserts nodes that are not linked, removes nodes that are, and in
between the owner of an unlinked node may write anything into it. The
invariant is `RbInv`; the two operation specs of `RbInsertTheorems` and
`RbRemoveTheorems` carry it through one step, and the induction over the
run is here. The fuel of the loops is a device of the model: more of it
never changes a result (`rbInsert_mono`, `rbRemove_mono`), and twice the
size of the tree plus two is enough.
-/
import Lapis.Lib.Run
import Lapis.Util.RbRemoveTheorems

namespace Lapis.Util.RbTree

open Function List Option
open Lapis.Lib Lapis.Lib.Tree

variable {α : Type} {K : Type} [LinearOrder K]

/-- A node is linked when the root pointer and child pointers lead to it. -/
inductive Linked (s : RbTree α) : α → Prop
  | root {a : α} (h : s.root = some a) : Linked s a
  | left {a b : α} (ha : Linked s a) (h : (s.nodes a).left = some b) : Linked s b
  | right {a b : α} (ha : Linked s a) (h : (s.nodes a).right = some b) : Linked s b

/-- The invariant of the C file: the linked nodes are a finite tree with
consistent parent and child pointers, its keys increase strictly in order,
it is red-black with a black root, and `size` counts its nodes. -/
def RbInv (key : α → K) (s : RbTree α) : Prop :=
  ∃ t : Lib.Tree α, Focus s [] t ∧ KeysSorted key t.toList ∧ (∃ m, Balanced t m) ∧
    t.color = .black ∧ s.size = t.toList.length

/-! ## Linked nodes -/

variable {s : RbTree α}

theorem Focus.linked_of_mem {k : Path α} {t : Lib.Tree α} (h : Focus s k t)
    (hr : ∀ a, t.root? = some a → Linked s a) : ∀ a ∈ t.toList, Linked s a := by
  induction t generalizing k with
  | nil => simp
  | node c l b r ihl ihr =>
    have hb : Linked s b := hr b rfl
    intro a ha
    rw [toList_node, mem_append, mem_cons] at ha
    rcases ha with ha | rfl | ha
    · exact ihl (focus_left_iff.mpr h) (fun a' ha' => hb.left (by rw [h.node]; exact ha')) a ha
    · exact hb
    · exact ihr (focus_right_iff.mpr h) (fun a' ha' => hb.right (by rw [h.node]; exact ha')) a ha

/-- The linked nodes are exactly the nodes of the represented tree. -/
theorem Focus.linked_iff {t : Lib.Tree α} (h : Focus s [] t) (a : α) : Linked s a ↔ a ∈ t.toList := by
  have hchild : ∀ {b}, b ∈ t.toList → ∃ k c l r, t = Path.plug k (.node c l b r) ∧
      s.nodes b = ⟨Path.parent? k, l.root?, r.root?, c⟩ := by
    intro b hb
    obtain ⟨k, c, l, r, rfl⟩ := Path.exists_plug_of_mem hb
    have hfoc : Focus s k (.node c l b r) := by
      have := focus_plug_iff.mpr h
      simpa using this
    exact ⟨k, c, l, r, rfl, hfoc.node⟩
  constructor
  · intro ha
    induction ha with
    | root hroot => exact mem_of_root? (h.path.symm.trans hroot)
    | left _ hl ih | right _ hl ih =>
      obtain ⟨k, c, l, r, rfl, hn⟩ := hchild ih
      rw [hn] at hl
      simp [Path.toList_plug, mem_of_root? hl]
  · intro ha
    exact h.linked_of_mem (fun b hb => .root (h.path.trans hb)) a ha

/-! ## More fuel -/

variable {x : α}

section Fuel

variable {s : RbTree α} {cmp : α → α → Int} {fuel fuel' : Nat}

theorem insertDescend_mono {link : Link α} {parent : Option α}
    {r : Option (Link α × Option α)} (h : insertDescend cmp s x fuel link parent = some r)
    (hle : fuel ≤ fuel') : insertDescend cmp s x fuel' link parent = some r := by
  refine Grows.loop (f := fun n (y : Link α × Option α) => insertDescend cmp s x n y.1 y.2)
    (fun _ => rfl) (fun n m y ih => ?_) hle (link, parent) r h
  simp only [insertDescend]
  cases s.load y.1 with
  | none => exact .refl _
  | some cur => exact .ite (ih (_, _)) (.ite (ih (_, _)) (.refl _))

theorem leftmost_mono {a y : α} (h : s.leftmost fuel a = some y) (hle : fuel ≤ fuel') :
    s.leftmost fuel' a = some y := by
  refine Grows.loop (f := s.leftmost) (fun _ => rfl) (fun n m a ih => ?_) hle a y h
  simp only [leftmost]
  cases (s.nodes a).left with
  | none => exact .refl _
  | some l => exact ih l

variable [DecidableEq α]

variable {s' : RbTree α}

theorem insertFixup_mono (h : insertFixup fuel s x = some s')
    (hle : fuel ≤ fuel') : insertFixup fuel' s x = some s' := by
  refine Grows.loop (f := fun n (y : RbTree α × α) => insertFixup n y.1 y.2)
    (fun _ => rfl) (fun n m y ih => ?_) hle (s, x) s' h
  simp only [insertFixup, bind_eq_bind]
  exact .ite (.bind (.refl _) fun _ => ih (_, _)) (.refl _)

theorem removeFixup_mono {node parent : Option α}
    (h : removeFixup fuel s node parent = some s') (hle : fuel ≤ fuel') :
    removeFixup fuel' s node parent = some s' := by
  refine Grows.loop (f := fun n (y : RbTree α × Option α × Option α) =>
    removeFixup n y.1 y.2.1 y.2.2) (fun _ => rfl) (fun n m y ih => ?_) hle (s, node, parent) s' h
  simp only [removeFixup, bind_eq_bind]
  exact .ite (.bind (.refl _) fun _ => ih (_, _, _)) (.refl _)

theorem rbInsert_mono {r : Int × RbTree α} (h : rbInsert cmp fuel s x = some r)
    (hle : fuel ≤ fuel') : rbInsert cmp fuel' s x = some r := by
  simp only [rbInsert, bind_eq_bind] at h ⊢
  refine Grows.bind (fun d hd => insertDescend_mono hd hle) (fun d => ?_) r h
  cases d with
  | none => exact .refl _
  | some d => exact .bind (fun _ hfix => insertFixup_mono hfix hle) fun _ => .refl _

theorem rbRemove_mono (h : rbRemove fuel s x = some s')
    (hle : fuel ≤ fuel') : rbRemove fuel' s x = some s' := by
  have hunlink : Grows (s.removeUnlink fuel x) (s.removeUnlink fuel' x) := by
    simp only [removeUnlink, bind_eq_bind]
    split
    · exact .refl _
    · exact .refl _
    · exact .bind (fun _ hz => leftmost_mono hz hle) fun _ => .refl _
  simp only [rbRemove, bind_eq_bind] at h ⊢
  refine Grows.bind hunlink (fun u => ?_) s' h
  obtain ⟨color, y, parent, s1⟩ := u
  cases color with
  | black => exact fun _ hfix => removeFixup_mono hfix hle
  | red => exact .refl _

end Fuel

/-! ## Runs -/

variable {cmp : α → α → Int} {key : α → K}

/-- Sorted insertion into a sorted list. -/
theorem KeysSorted.insert {L R : List α} (h : KeysSorted key (L ++ R))
    (hL : ∀ y ∈ L, key y < key x) (hR : ∀ y ∈ R, key x < key y) : KeysSorted key (L ++ x :: R) := by
  obtain ⟨h1, h2, h3⟩ := pairwise_append.mp h
  refine pairwise_append.mpr ⟨h1, pairwise_cons.mpr ⟨hR, h2⟩, ?_⟩
  intro a ha b hb
  rcases mem_cons.mp hb with rfl | hb
  · exact hL a ha
  · exact h3 a ha b hb

variable [DecidableEq α]

/-- The states a client can reach from `RB_TREE_INIT`. The memory of nodes
outside the tree is arbitrary at the start and may be written at any time. -/
inductive Reachable (cmp : α → α → Int) : RbTree α → Prop
  | init {s : RbTree α} (hr : s.root = none) (hs : s.size = 0) : Reachable cmp s
  | insert {s s' : RbTree α} {x : α} {fuel : Nat} {r : Int} (h : Reachable cmp s)
      (hx : ¬ Linked s x) (he : rbInsert cmp fuel s x = some (r, s')) : Reachable cmp s'
  | remove {s s' : RbTree α} {x : α} {fuel : Nat} (h : Reachable cmp s)
      (hx : Linked s x) (he : rbRemove fuel s x = some s') : Reachable cmp s'
  | write {s : RbTree α} {x : α} {v : RbNode α} (h : Reachable cmp s)
      (hx : ¬ Linked s x) : Reachable cmp { s with nodes := update s.nodes x v }

/-- `rb_insert` from a good state returns in a good state. -/
theorem RbInv.insert (hcmp : Comparator cmp key) {fuel : Nat}
    (h : RbInv key s) (hx : ¬ Linked s x) (hfuel : 2 * s.size + 2 ≤ fuel) :
    ∃ r s', rbInsert cmp fuel s x = some (r, s') ∧ RbInv key s' := by
  obtain ⟨t, hfoc, hsort, ⟨m, hbal⟩, hcol, hsz⟩ := id h
  rw [hfoc.linked_iff] at hx
  rcases rbInsert_spec hcmp hfoc hsort hbal hcol hx
    (show t.toList.length + 1 < fuel by omega) with
    ⟨he, -⟩ | ⟨s', t', L, R, he, hfoc', hbal', hcol', hsz', hL, hL', hlt, hgt⟩
  · exact ⟨-1, s, he, h⟩
  refine ⟨0, s', he, t', hfoc', ?_, hbal', hcol', ?_⟩
  · rw [hL] at hsort
    rw [hL']
    exact hsort.insert hlt hgt
  · rw [hsz', hsz, hL, hL']
    simp only [length_append, length_cons]
    omega

/-- `rb_remove` from a good state returns in a good state. -/
theorem RbInv.remove {fuel : Nat} (h : RbInv key s) (hx : Linked s x)
    (hfuel : 2 * s.size + 2 ≤ fuel) : ∃ s', rbRemove fuel s x = some s' ∧ RbInv key s' := by
  obtain ⟨t, hfoc, hsort, ⟨m, hbal⟩, hcol, hsz⟩ := h
  rw [hfoc.linked_iff] at hx
  obtain ⟨s', t', A, B, he, hfoc', hbal', hcol', hsz', hA, hB⟩ :=
    rbRemove_spec hfoc hbal hcol hx (show 2 * t.toList.length + 1 < fuel by omega)
  refine ⟨s', he, t', hfoc', ?_, hbal', hcol', ?_⟩
  · rw [hB]
    rw [hA] at hsort
    exact hsort.sublist ((sublist_cons_self x B).append_left A)
  · rw [hsz', hsz, hA, hB]
    simp

/-- Writing to a node outside the tree changes nothing of it. -/
theorem RbInv.write {v : RbNode α} (h : RbInv key s) (hx : ¬ Linked s x) :
    RbInv key { s with nodes := update s.nodes x v } := by
  obtain ⟨t, hfoc, hsort, hbal, hcol, hsz⟩ := h
  rw [hfoc.linked_iff] at hx
  refine ⟨t, ⟨hfoc.path, hfoc.tree.congr fun y hy => ?_, hfoc.nodup⟩, hsort, hbal, hcol, hsz⟩
  exact update_of_ne (fun e : y = x => hx (e ▸ hy)) _ _

/-- The invariant holds in every reachable state. -/
theorem Reachable.rbInv (hcmp : Comparator cmp key) (h : Reachable cmp s) : RbInv key s := by
  induction h with
  | init hr hs =>
    exact ⟨.nil, ⟨hr, trivial, by simp⟩, by simp [KeysSorted], ⟨0, .nil⟩, rfl, by simpa using hs⟩
  | @insert s s' x fuel r _ hx he ih =>
    obtain ⟨r', s'', he', hinv⟩ := ih.insert hcmp hx (Nat.le_add_left _ fuel)
    have := rbInsert_mono he (Nat.le_add_right fuel (2 * s.size + 2))
    rw [he'] at this
    cases this
    exact hinv
  | @remove s s' x fuel _ hx he ih =>
    obtain ⟨s'', he', hinv⟩ := ih.remove hx (Nat.le_add_left _ fuel)
    have := rbRemove_mono he (Nat.le_add_right fuel (2 * s.size + 2))
    rw [he'] at this
    cases this
    exact hinv
  | write _ hx ih => exact ih.write hx

/-- The tree of every run satisfies the red-black invariant, and from it the
next operation returns (no null pointer is followed and every loop ends
within `2 * size + 2` turns) in a state that satisfies it again. -/
theorem rbTree_run_invariant (hcmp : Comparator cmp key) {s : RbTree α} (h : Reachable cmp s) : RbInv key s ∧
    (∀ x, ¬ Linked s x → ∀ fuel, 2 * s.size + 2 ≤ fuel →
      ∃ r s', rbInsert cmp fuel s x = some (r, s') ∧ RbInv key s') ∧
    (∀ x, Linked s x → ∀ fuel, 2 * s.size + 2 ≤ fuel → ∃ s', rbRemove fuel s x = some s' ∧ RbInv key s') := by
  have hinv := h.rbInv hcmp
  exact ⟨hinv, fun x hx fuel hf => hinv.insert hcmp hx hf, fun x hx fuel hf => hinv.remove hx hf⟩

/-- The difference of two numbers, as a comparator. -/
def natCompare (a b : Nat) : Int := (a : Int) - b

theorem natCompare_comparator : Comparator natCompare (id : Nat → Nat) where
  lt_iff a b := by simp only [natCompare, id]; omega
  gt_iff a b := by simp only [natCompare, id]; omega

/-- An empty tree over numbers, all node records zeroed. -/
def emptyNatTree : RbTree Nat := ⟨fun _ => ⟨none, none, none, .black⟩, none, 0⟩

theorem not_linked_emptyNatTree (x : Nat) : ¬ Linked emptyNatTree x := by
  intro hx
  induction hx with
  | root h => simp [emptyNatTree] at h
  | left _ _ ih => exact ih
  | right _ _ ih => exact ih

/-- The run that inserts 5: the invariant holds, and 3 and 5 can be inserted
and removed from there. -/
theorem rbTree_run_invariant_five :
    ∃ s, rbInsert natCompare 2 emptyNatTree 5 = some (0, s) ∧ RbInv (id : Nat → Nat) s ∧
      (∃ r s', rbInsert natCompare 4 s 3 = some (r, s') ∧ RbInv (id : Nat → Nat) s') ∧
      ∃ s', rbRemove 4 s 5 = some s' ∧ RbInv (id : Nat → Nat) s' := by
  have hempty : Reachable natCompare emptyNatTree := .init rfl rfl
  have he : ∃ s, rbInsert natCompare 2 emptyNatTree 5 = some (0, s) ∧ s.root = some 5 ∧
      s.size = 1 ∧ (s.nodes 5).left = none ∧ (s.nodes 5).right = none :=
    ⟨_, rfl, rfl, rfl, rfl, rfl⟩
  obtain ⟨s, he, hroot, hsize, hl, hr⟩ := he
  obtain ⟨hinv, hins, hrem⟩ :=
    rbTree_run_invariant natCompare_comparator (hempty.insert (not_linked_emptyNatTree 5) he)
  have h3 : ¬ Linked s 3 := by
    have hfive : ∀ x, Linked s x → x = 5 := by
      intro x hx
      induction hx with
      | root h => exact some.inj (h.symm.trans hroot)
      | left _ h ih => subst ih; simp [hl] at h
      | right _ h ih => subst ih; simp [hr] at h
    intro h
    exact absurd (hfive 3 h) (by decide)
  exact ⟨s, he, hinv, hins 3 h3 4 (by omega), hrem 5 (.root hroot) 4 (by omega)⟩

end Lapis.Util.RbTree
