/-
Lapis.Util.RbSetTheorems — the red-black tree refines a sorted set of nodes.

The abstract state is the sequence of the linked nodes in order, read off
the memory by `InOrder`. `rb_insert` and `rb_remove` are the insertion of
one node at its sorted place and the removal of one node: no other node
changes its identity or its place among the rest. That is what an
embedding struct relies on, since it is found by the address of its node.
-/
import Lapis.Util.RbTreeTheorems

namespace Lapis.Util.RbTree

open Lapis.Lib Lapis.Lib.Tree

variable {α : Type} {K : Type} [LinearOrder K] {s : RbTree α}

/-- The nodes below a pointer in order: the left subtree, the node, the right subtree. -/
inductive InOrder (s : RbTree α) : Option α → List α → Prop
  | nil : InOrder s none []
  | node {a : α} {L R : List α} (hl : InOrder s (s.nodes a).left L)
      (hr : InOrder s (s.nodes a).right R) : InOrder s (some a) (L ++ a :: R)

/-- The memory determines the sequence. -/
theorem InOrder.unique {x : Option α} {L L' : List α} (h : InOrder s x L) (h' : InOrder s x L') : L' = L := by
  induction h generalizing L' with
  | nil =>
    cases h'
    rfl
  | node _ _ ihl ihr =>
    cases h' with
    | node hl' hr' => rw [ihl hl', ihr hr']

/-- A represented tree is read off in its order. -/
theorem Repr.inOrder {par : Option α} {t : Lib.Tree α} (h : Repr s.nodes par t) :
    InOrder s t.root? t.toList := by
  induction t generalizing par with
  | nil => exact .nil
  | node c l a r ihl ihr =>
    obtain ⟨ha, hl, hr⟩ := h
    have hleft : (s.nodes a).left = l.root? := by rw [ha]
    have hright : (s.nodes a).right = r.root? := by rw [ha]
    exact .node (hleft ▸ ihl hl) (hright ▸ ihr hr)

theorem Focus.inOrder {t : Lib.Tree α} (h : Focus s [] t) : InOrder s s.root t.toList := by
  have hroot : s.root = t.root? := h.path
  rw [hroot]
  exact h.tree.inOrder

variable {cmp : α → α → Int} {key : α → K}

theorem Comparator.eq_zero_iff (hcmp : Comparator cmp key) (a b : α) : cmp a b = 0 ↔ key a = key b := by
  have hlt := hcmp.lt_iff a b
  have hgt := hcmp.gt_iff a b
  constructor
  · intro h
    exact le_antisymm (not_lt.mp fun hba => by have := hgt.mpr hba; omega)
      (not_lt.mp fun hab => by have := hlt.mpr hab; omega)
  · intro h
    have h1 : ¬ cmp a b < 0 := fun hc => (hlt.mp hc).ne h
    have h2 : ¬ cmp a b > 0 := fun hc => (hgt.mp hc).ne' h
    omega

variable [DecidableEq α]

/-- An equal key in the tree, that of the node itself included: nothing is changed. -/
theorem rbInsert_of_equal (hcmp : Comparator cmp key) {t : Lib.Tree α} (h : Focus s [] t)
    (hs : KeysSorted key t.toList) {x y : α} (hy : y ∈ t.toList) (hkey : key y = key x)
    {fuel : Nat} (hfuel : t.toList.length < fuel) : rbInsert cmp fuel s x = some (-1, s) := by
  rcases insertDescend_spec hcmp (x := x) h (by simpa using hs) (by simp) (by simp) hfuel with
    ⟨he, -⟩ | ⟨k, -, -, hplug, hbefore, hafter⟩
  · have he' : insertDescend cmp s x fuel .root none = some none := he
    simp [rbInsert, he']
  -- a free place would have all keys on one of its sides, the equal one included
  have hlist : t.toList = Path.before k ++ Path.after k := by
    have := congrArg Lib.Tree.toList hplug
    rw [Path.toList_plug] at this
    simpa using this.symm
  rw [hlist, List.mem_append] at hy
  rcases hy with hy | hy
  · exact absurd hkey (hbefore y hy).ne
  · exact absurd hkey (hafter y hy).ne'

end Lapis.Util.RbTree
