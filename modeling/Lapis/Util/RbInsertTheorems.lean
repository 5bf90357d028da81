/-
Lapis.Util.RbInsertTheorems — `rb_insert` keeps the red-black tree.

The loop of `_insert_fixup` carries `InsertInv`: the node in focus is
red, its subtrees fit the hole, the path above it is balanced, and the
only place where two red nodes may meet is between the node and its
parent. One turn of the loop with a red parent keeps it and shortens the
path, so the loop stops and paints the root black.
-/
import Lapis.Util.RbRepr

namespace Lapis.Util.RbTree

open List Option
open Lapis.Lib Lapis.Lib.Tree

variable {α : Type}

/-- The loop invariant of `_insert_fixup` at `node`. `L` and `sz` are the
in-order addresses and the size, which the loop does not change. -/
def InsertInv (s : RbTree α) (k : Path α) (node : α) (L : List α) (sz : Nat) : Prop :=
  ∃ l r n, Focus s k (.node .red l node r) ∧ l.color = .black ∧ r.color = .black ∧
    Balanced l n ∧ Balanced r n ∧ PathBalanced k n ∧
    (Path.plug k (.node .red l node r)).toList = L ∧ s.size = sz

variable {d : Side} {s : RbTree α} {k : Path α} {x : α} {n : Nat}

theorem InsertInv.of_branch {near far : Lib.Tree α}
    (h : Focus s k (d.branch .red near x far)) (hn : near.color = .black)
    (hf : far.color = .black) (bn : Balanced near n) (bf : Balanced far n) (bk : PathBalanced k n) :
    InsertInv s k x (Path.plug k (d.branch .red near x far)).toList s.size := by
  cases d with
  | left => exact ⟨near, far, n, h, hn, hf, bn, bf, bk, rfl, rfl⟩
  | right => exact ⟨far, near, n, h, hf, hn, bf, bn, bk, rfl, rfl⟩

variable {f : Frame α} {t : Lib.Tree α}

/-- The node in focus is not the root of its sibling. -/
theorem Focus.sibling_root?_ne
    (h : Focus s (f :: k) t) (ht : t.root? = some x) : f.sibling.root? ≠ some x := by
  intro e
  have hx := (nodup_plug.mp h.nodup).2.2 x (mem_of_root? ht)
  exact hx (mem_pathElems_cons.mpr (.inr (.inl (mem_of_root? e))))

/-- The frame next to the hole, painted. -/
def recolorFrame (c : Color) : Frame α → Frame α
  | .left _ a r => .left c a r
  | .right _ l a => .right c l a

@[simp] theorem sibling_recolorFrame (c : Color) (f : Frame α) : (recolorFrame c f).sibling = f.sibling := by
  cases f <;> rfl

@[simp] theorem color_recolorFrame (c : Color) (f : Frame α) : (recolorFrame c f).color = c := by
  cases f <;> rfl

/-! ## The descent -/

/-- The comparator orders nodes by a key in a linear order: this is what a
strict total order on keys means for `tree->compare`. -/
structure Comparator {K : Type} [LinearOrder K] (cmp : α → α → Int) (key : α → K) : Prop where
  lt_iff : ∀ a b, cmp a b < 0 ↔ key a < key b
  gt_iff : ∀ a b, cmp a b > 0 ↔ key b < key a

/-- The pointer location of the hole of a path. -/
def linkOf : Path α → Link α
  | [] => .root
  | .left _ a _ :: _ => .left a
  | .right _ _ a :: _ => .right a

theorem Focus.load (h : Focus s k t) : s.load (linkOf k) = t.root? := by
  cases k with
  | nil => exact h.path
  | cons f k =>
    have hf := h.frame
    cases f <;> simp_all [linkOf, RbTree.load, frameNode, Frame.elem]

variable {K : Type} [LinearOrder K] {cmp : α → α → Int} {key : α → K}

/-- In order, the keys increase strictly. -/
def KeysSorted (key : α → K) (L : List α) : Prop := L.Pairwise fun a b => key a < key b

/-- The descent of `rb_insert` from a focus whose path already separates
smaller from larger keys: it stops at an equal key, or at the empty tree
where the new node belongs. -/
theorem insertDescend_spec (hcmp : Comparator cmp key)
    (h : Focus s k t) (hs : KeysSorted key (Path.plug k t).toList)
    (hb : ∀ y ∈ Path.before k, key y < key x) (ha : ∀ y ∈ Path.after k, key x < key y)
    (hfuel : t.toList.length < fuel) : (insertDescend cmp s x fuel (linkOf k) (Path.parent? k) = some none ∧
      ∃ y ∈ t.toList, key y = key x) ∨ ∃ k', insertDescend cmp s x fuel (linkOf k) (Path.parent? k) =
        some (some (linkOf k', Path.parent? k')) ∧ Focus s k' .nil ∧ Path.plug k' .nil = Path.plug k t ∧
      (∀ y ∈ Path.before k', key y < key x) ∧ (∀ y ∈ Path.after k', key x < key y) := by
  induction t generalizing fuel k with
  | nil =>
    right
    cases fuel with
    | zero => omega
    | succ fuel => exact ⟨k, by simp [insertDescend, h.load], h, rfl, hb, ha⟩
  | node c l a r ihl ihr =>
    cases fuel with
    | zero => omega
    | succ fuel =>
    have hls : KeysSorted key (l.toList ++ a :: r.toList) := by
      rw [Path.toList_plug] at hs
      exact (pairwise_append.mp (pairwise_append.mp hs).1).2.1
    obtain ⟨-, har, hla⟩ := pairwise_append.mp hls
    simp only [toList_node, length_append, length_cons] at hfuel
    rcases lt_trichotomy (key x) (key a) with hlt | heq | hgt
    · have hc : cmp x a < 0 := (hcmp.lt_iff x a).mpr hlt
      have hstep : insertDescend cmp s x (fuel + 1) (linkOf k) (Path.parent? k) =
          insertDescend cmp s x fuel (.left a) (some a) := by
        simp [insertDescend, h.load, hc]
      rw [hstep]
      have hafter : ∀ y ∈ Path.after (.left c a r :: k), key x < key y := by
        intro y hy
        simp only [Path.after_cons, Frame.after, cons_append, mem_cons, mem_append] at hy
        rcases hy with rfl | hy | hy
        · exact hlt
        · exact lt_trans hlt ((pairwise_cons.mp har).1 y hy)
        · exact ha y hy
      rcases ihl (k := .left c a r :: k) (focus_left_iff.mpr h) hs
        (by simpa [Frame.before] using hb) hafter (show l.toList.length < fuel by omega) with ⟨he, y, hy, hk⟩ | hcase
      · exact .inl ⟨he, y, by simp [hy], hk⟩
      · exact .inr hcase
    · left
      have hc1 : ¬ cmp x a < 0 := fun e => absurd ((hcmp.lt_iff x a).mp e) (by simp [heq])
      have hc2 : ¬ cmp x a > 0 := fun e => absurd ((hcmp.gt_iff x a).mp e) (by simp [heq])
      exact ⟨by simp [insertDescend, h.load, hc1, hc2], a, by simp, heq.symm⟩
    · have hc1 : ¬ cmp x a < 0 := fun e => absurd ((hcmp.lt_iff x a).mp e) (not_lt.mpr (le_of_lt hgt))
      have hc2 : cmp x a > 0 := (hcmp.gt_iff x a).mpr hgt
      have hstep : insertDescend cmp s x (fuel + 1) (linkOf k) (Path.parent? k) =
          insertDescend cmp s x fuel (.right a) (some a) := by
        simp [insertDescend, h.load, hc1, hc2]
      rw [hstep]
      have hbefore : ∀ y ∈ Path.before (.right c l a :: k), key y < key x := by
        intro y hy
        simp only [Path.before_cons, Frame.before, mem_append, mem_singleton] at hy
        rcases hy with hy | hy | rfl
        · exact hb y hy
        · exact lt_trans (hla y hy a (by simp)) hgt
        · exact hgt
      rcases ihr (k := .right c l a :: k) (focus_right_iff.mpr h) hs hbefore
        (by simpa [Frame.after] using ha) (show r.toList.length < fuel by omega) with ⟨he, y, hy, hk⟩ | hcase
      · exact .inl ⟨he, y, by simp [hy], hk⟩
      · exact .inr hcase

/-! ## Rebalancing -/

variable [DecidableEq α]

/-- The black-uncle branches of `_insert_fixup`, the parent being a child on the side. -/
def insertCase : Side → RbTree α → α → Option (α × RbTree α)
  | .left => insertCaseLeft
  | .right => insertCaseRight

/-- The common end of the black-uncle cases: the parent `y` turns black, the grandparent `g` red,
and `g` is rotated down to the other side. -/
theorem insert_rotate {a b u : Lib.Tree α} {y g : α}
    {c : Color} (h : Focus s k (d.branch .black (d.branch c a y b) g u)) :
    ∃ s', rotate d.other ((s.setColor y .black).setColor g .red) g = some s' ∧
      Focus s' k (d.branch .black a y (d.branch .red b g u)) ∧ s'.size = s.size := by
  have h1 := focus_near_iff.mp ((focus_near_iff.mpr h).setColor_branch .black)
  have h2 := h1.setColor_branch .red
  rw [← d.branch_other .red, ← d.branch_other .black] at h2
  obtain ⟨s', he, hf, hsz⟩ := h2.rotate
  rw [Side.branch_other, Side.branch_other] at hf
  exact ⟨s', he, hf, by simpa using hsz⟩

/-- `_insert_fixup` with a black uncle. -/
theorem insertCase_inv {g : α}
    {l r u : Lib.Tree α} (h : Focus s (f :: d.frame .black g u :: k) (.node .red l x r))
    (hf : f.color = .red) (hs : f.sibling.color = .black) (bs : Balanced f.sibling n)
    (hl : l.color = .black) (hr : r.color = .black) (bl : Balanced l n) (br : Balanced r n)
    (hu : u.color = .black) (bu : Balanced u n) (hk : PathBalanced k (n + 1)) :
    ∃ x' s' f', insertCase d s x = some (x', s') ∧ f'.color = .black ∧ InsertInv s' (f' :: k) x'
        (Path.plug (f :: d.frame .black g u :: k) (.node .red l x r)).toList s.size := by
  have hsib := h.sibling_root?_ne rfl
  have hx := h.node
  rcases f.eq_side d with ⟨c, p, sb, rfl⟩ | ⟨c, p, sb, rfl⟩
  · -- the node is on the outside
    simp only [Side.color_frame, Side.sibling_frame] at hf hs bs hsib
    subst hf
    have hcase : some x ≠ sb.root? := fun e => hsib e.symm
    have hp := (focus_near_iff.mp h).node_branch
    obtain ⟨s', he, hf', hsz⟩ := insert_rotate (focus_near_iff.mp (focus_near_iff.mp h))
    refine ⟨x, s', d.frame .black p (d.branch .red sb g u), ?_, by simp, ?_⟩
    · cases d <;>
        simp_all [insertCase, insertCaseLeft, insertCaseRight, rotate, record, Side.other, Side.frame,
          Frame.elem]
    · refine ⟨l, r, n, focus_near_iff.mpr hf', hl, hr, bl, br,
        .black (by simp) (by simpa using d.balanced_red hs hu bs bu) hk, ?_, hsz⟩
      cases d <;> simp [Path.toList_plug, Side.branch]
  · -- the node is on the inside and takes the place of its parent first
    simp only [Side.color_frame, Side.sibling_frame] at hf hs bs hsib
    subst hf
    obtain ⟨near, far, hnode, hn, hf, bn, bf⟩ := d.exists_children x hl hr bl br
    rw [hnode] at h ⊢
    have hp := (focus_far_iff.mp h).node_branch
    obtain ⟨s1, he1, hf1, hsz1⟩ := (focus_far_iff.mp h).rotate
    have hx1 := (focus_near_iff.mpr hf1).node_branch
    have hp1 := hf1.node_branch
    obtain ⟨s', he, hf', hsz⟩ := insert_rotate (focus_near_iff.mp hf1)
    refine ⟨p, s', d.frame .black x (d.branch .red far g u), ?_, by simp, ?_⟩
    · cases d <;>
        simp_all [insertCase, insertCaseLeft, insertCaseRight, rotate, record, Side.other, Side.frame,
          Frame.elem]
    · have hinv := InsertInv.of_branch (focus_near_iff.mpr hf') hs hn bs bn
        (.black (by simp) (by simpa using d.balanced_red hf hu bf bu) hk)
      rw [hsz, hsz1] at hinv
      convert hinv using 1
      cases d <;> simp [Path.toList_plug, Side.branch, Side.other]

theorem Focus.setColor_frame (h : Focus s (f :: k) t) (c : Color) :
    Focus (s.setColor f.elem c) (recolorFrame c f :: k) t := by
  cases f with
  | left d a r => exact focus_left_iff.mpr ((focus_left_iff.mp h).setColor c)
  | right d l a => exact focus_right_iff.mpr ((focus_right_iff.mp h).setColor c)

/-- Recolouring under a red uncle moves the invariant two levels up. -/
theorem insertRecolor_inv {g : Frame α} {u : α}
    {l r ul ur : Lib.Tree α} (h : Focus s (f :: g :: k) (.node .red l x r))
    (hg : g.color = .black) (hu : g.sibling = .node .red ul u ur) (bs : Balanced f.sibling n)
    (hl : l.color = .black) (hr : r.color = .black) (bl : Balanced l n) (br : Balanced r n)
    (bu : Balanced g.sibling n) (hk : PathBalanced k (n + 1)) :
    InsertInv (s.insertRecolor f.elem u g.elem) k g.elem
      (Path.plug (f :: g :: k) (.node .red l x r)).toList s.size := by
  have h1 := focus_cons_iff.mp (h.setColor_frame .black)
  have bf : Balanced ((recolorFrame .black f).fill (.node .red l x r)) (n + 1) :=
    Balanced.fill_black (by simp) (by simpa using bs) (.red hl hr bl br)
  have bu' : Balanced (.node .black ul u ur) (n + 1) := by
    rw [hu] at bu
    obtain ⟨-, -, b1, b2⟩ := bu.of_red
    exact .black b1 b2
  have hfl : ((recolorFrame .black f).fill (.node .red l x r)).toList =
      (f.fill (.node .red l x r)).toList := by
    cases f <;> rfl
  obtain ⟨d, c, a, sib, rfl⟩ := g.exists_side
  simp only [Side.color_frame, Side.sibling_frame] at hg hu
  subst hg hu
  have h2 := (focus_far_iff.mpr (focus_near_iff.mp h1)).setColor .black
  have hinv := InsertInv.of_branch ((focus_far_iff.mp h2).setColor_branch .red) (by simp) rfl bf bu' hk
  have hlist : (Path.plug k (d.branch .red ((recolorFrame .black f).fill (.node .red l x r)) a
      (.node .black ul u ur))).toList =
      (Path.plug (f :: d.frame .black a (.node .red ul u ur) :: k) (.node .red l x r)).toList := by
    cases d <;> simp [Path.toList_plug, Side.branch, hfl]
  rw [hlist] at hinv
  rwa [Side.elem_frame]

/-- One turn of the loop of `_insert_fixup` keeps the invariant and
shortens the path. -/
theorem insertFixupStep_inv {L : List α} {sz : Nat} (h : InsertInv s k x L sz) (hk : Path.color k = .red) :
    ∃ x' s' k', s.insertFixupStep x = some (x', s') ∧ InsertInv s' k' x' L sz ∧ k'.length < k.length := by
  obtain ⟨l, r, n, hfoc, hl, hr, bl, br, bk, hL, hsz⟩ := h
  cases bk with
  | nil => simp at hk
  | black hf bs bk => simp [hf] at hk
  | @red f g k _ hf hs bs hg bk =>
  cases bk with
  | red hg' => simp [hg] at hg'
  | black _ bu bk =>
  obtain ⟨d, c, a, sib, rfl⟩ := g.exists_side
  simp only [Side.color_frame, Side.sibling_frame] at hg bu
  subst hg
  have hx : (s.nodes x).parent = some f.elem := by rw [hfoc.node]; rfl
  have hp : (s.nodes f.elem).parent = some a := by
    rw [hfoc.frame]; cases f <;> exact congrArg some (d.elem_frame ..)
  have hg := focus_near_iff.mp (focus_cons_iff.mp hfoc)
  have hga := hg.node_branch
  rw [Frame.root?_fill] at hga
  -- the parent differs from the uncle on the other side
  have huncle : some f.elem ≠ sib.root? := by
    have := (focus_cons_iff.mp hfoc).sibling_root?_ne (f.root?_fill _)
    rw [Side.sibling_frame] at this
    exact this.symm
  have hisRed := (focus_far_iff.mpr hg).isRed
  cases hu : sib.color with
  | red =>
    obtain ⟨ul, u, ur, rfl⟩ : ∃ ul u ur, sib = .node .red ul u ur := by
      cases sib with
      | nil => simp at hu
      | node c ul u ur =>
        rw [color_node] at hu
        subst hu
        exact ⟨ul, u, ur, rfl⟩
    rw [hu] at hisRed
    refine ⟨_, _, k, ?_, hL ▸ hsz ▸ insertRecolor_inv hfoc (d.color_frame ..)
      (d.sibling_frame ..) bs hl hr bl br (by simpa using bu) bk, by simp only [length_cons]; omega⟩
    cases d <;> simp_all [insertFixupStep, record]
  | black =>
    rw [hu] at hisRed
    obtain ⟨x', s', f', he, hf', hinv⟩ := insertCase_inv hfoc hf hs bs hl hr bl br hu bu bk
    refine ⟨x', s', f' :: k, ?_, hL ▸ hsz ▸ hinv, by simp⟩
    cases d <;> simp_all [insertFixupStep, insertCase, record]

/-- Painting the root of the whole tree. -/
theorem Focus.blacken_root {a : α} (h : Focus s [] t)
    (ha : s.root = some a) : Focus (s.setColor a .black) [] t.blacken := by
  cases t with
  | nil => have := h.path; simp [PathRepr, ha] at this
  | node c l b r =>
    have hb : a = b := some.inj (ha.symm.trans h.path)
    subst hb
    exact h.setColor .black

variable {fuel : Nat}

/-- `_insert_fixup` returns, on a red-black tree with the same nodes. -/
theorem insertFixup_spec {L : List α} {sz : Nat} (h : InsertInv s k x L sz) (hfuel : k.length < fuel) :
    ∃ s' t, insertFixup fuel s x = some s' ∧ Focus s' [] t ∧ (∃ m, Balanced t m) ∧
      t.color = .black ∧ t.toList = L ∧ s'.size = sz := by
  induction fuel generalizing s k x with
  | zero => omega
  | succ fuel ih =>
    obtain ⟨l, r, n, hfoc, hl, hr, bl, br, bk, hL, hsz⟩ := id h
    have hpar : (s.nodes x).parent = Path.parent? k := by rw [hfoc.node]
    cases hk : Path.color k with
    | red =>
      obtain ⟨x', s', k', hstep, hinv, hlen⟩ := insertFixupStep_inv h hk
      obtain ⟨s'', t, he, hrest⟩ := ih hinv (by omega)
      have hred : s.isRed (s.nodes x).parent = true := by rw [hpar, hfoc.isRed_parent, hk]
      exact ⟨s'', t, by simp [insertFixup, hred, hstep, he], hrest⟩
    | black =>
    have hwhole : Focus s [] (Path.plug k (.node .red l x r)) := by
      apply focus_plug_iff.mp; simpa using hfoc
    obtain ⟨m, hbal⟩ := bk.plug (.red hl hr bl br) (by simp [hk])
    obtain ⟨a, ha⟩ : ∃ a, s.root = some a := by
      have hr : s.root = (Path.plug k (.node .red l x r)).root? := hwhole.path
      cases hroot : s.root with
      | some a => exact ⟨a, rfl⟩
      | none =>
        have hnil := congrArg Lib.Tree.toList (eq_nil_of_root? (hr.symm.trans hroot))
        simp [Path.toList_plug] at hnil
    have hred : s.isRed (s.nodes x).parent = false := by
      rw [hpar, Bool.eq_false_iff, ne_eq, hfoc.isRed_parent, hk]
      decide
    refine ⟨s.setColor a .black, _, ?_, hwhole.blacken_root ha, hbal.blacken, by simp,
      by simpa using hL, hsz⟩
    simp [insertFixup, hred, ha]

/-! ## The whole operation -/

/-- Storing a fresh red node in the hole of a path. -/
theorem Focus.store_leaf (h : Focus s k .nil) (hx : x ∉ pathElems k) :
    Focus (((((s.setParent x (Path.parent? k)).setLeft x none).setRight x none).setColor x
      .red).store (linkOf k) (some x)) k (.node .red .nil x .nil) := by
  have hn : (Path.plug k (.node .red .nil x .nil)).toList.Nodup := by
    rw [nodup_plug]
    exact ⟨(nodup_plug.mp h.nodup).1, by simp, by simpa using hx⟩
  have hkn := (nodup_plug.mp h.nodup).1
  have hpath := h.path
  cases k with
  | nil => exact ⟨rfl, ⟨by simp [store, linkOf], trivial, trivial⟩, hn⟩
  | cons f k =>
  have hxf : x ≠ f.elem := fun e => hx (mem_pathElems_cons.mpr (.inl e))
  obtain ⟨hfs, hfk, -, -, -⟩ := nodup_pathElems_cons hkn
  have hne : ∀ y ∈ pathElems (f :: k), y ≠ x := fun y hy e => hx (e ▸ hy)
  obtain ⟨hf, hs, hk⟩ := hpath
  refine ⟨⟨?_, hs.congr fun y hy => ?_, ?_⟩, ⟨?_, trivial, trivial⟩, hn⟩
  · have hfx := hxf.symm
    cases f <;> simp_all [store, linkOf, frameNode, Frame.elem]
  · have h1 : y ≠ f.elem := fun e => hfs (e ▸ hy)
    have h2 : y ≠ x := hne y (mem_pathElems_cons.mpr (.inr (.inl hy)))
    cases f <;> simp_all [store, linkOf, Frame.elem]
  · have hroot : (((((s.setParent x (Path.parent? (f :: k))).setLeft x none).setRight x
        none).setColor x .red).store (linkOf (f :: k)) (some x)).root = s.root := by
      cases f <;> rfl
    rw [hroot]
    refine hk.congr fun y hy => ?_
    have h1 : y ≠ f.elem := fun e => hfk (e ▸ hy)
    have h2 : y ≠ x := hne y (mem_pathElems_cons.mpr (.inr (.inr hy)))
    cases f <;> simp_all [store, linkOf, Frame.elem]
  · cases f <;> simp_all [store, linkOf, Frame.elem]

/-- `rb_insert` of a node that is not in the tree: with an equal key in the
tree it returns `-1` and changes nothing, else it returns `0` and the node
takes its sorted place in a red-black tree. -/
theorem rbInsert_spec (hcmp : Comparator cmp key) {m : Nat}
    (h : Focus s [] t) (hs : KeysSorted key t.toList) (hb : Balanced t m)
    (hc : t.color = .black) (hx : x ∉ t.toList) (hfuel : t.toList.length + 1 < fuel) :
    (rbInsert cmp fuel s x = some (-1, s) ∧ ∃ y ∈ t.toList, key y = key x) ∨
    ∃ s' t' L R, rbInsert cmp fuel s x = some (0, s') ∧ Focus s' [] t' ∧
      (∃ m', Balanced t' m') ∧ t'.color = .black ∧ s'.size = s.size + 1 ∧
      t.toList = L ++ R ∧ t'.toList = L ++ x :: R ∧ (∀ y ∈ L, key y < key x) ∧ ∀ y ∈ R, key x < key y := by
  rcases insertDescend_spec hcmp (x := x) h (by simpa using hs) (by simp) (by simp)
    (show t.toList.length < fuel by omega) with ⟨he, hy⟩ | ⟨k, he, hfoc, hplug, hbk, hak⟩
  · left
    refine ⟨?_, hy⟩
    have he' : insertDescend cmp s x fuel .root none = some none := he
    simp [rbInsert, he']
  right
  have he' : insertDescend cmp s x fuel .root none = some (some (linkOf k, Path.parent? k)) := he
  have hlist : t.toList = Path.before k ++ Path.after k := by
    have := congrArg Lib.Tree.toList hplug
    rw [Path.toList_plug] at this
    simpa using this.symm
  have hxk : x ∉ pathElems k := by rwa [pathElems, ← hlist]
  have hbal : Balanced (Path.plug k .nil) m := by rw [hplug]; exact hb
  have hcol : (Path.plug k .nil).color = .black := by rw [hplug]; exact hc
  obtain ⟨n, bk, bn, -, -⟩ := PathBalanced.of_plug hbal hcol
  have hleaf := hfoc.store_leaf hxk
  let s1 := ((((s.setParent x (Path.parent? k)).setLeft x none).setRight x none).setColor x
    .red).store (linkOf k) (some x)
  have hsize : s1.size = s.size := by
    simp only [s1]
    cases linkOf k <;> rfl
  have hinv : InsertInv { s1 with size := s1.size + 1 } k x
      (Path.plug k (.node .red .nil x .nil)).toList (s.size + 1) :=
    ⟨.nil, .nil, n, ⟨hleaf.path, hleaf.tree, hleaf.nodup⟩, rfl, rfl, bn, bn, bk, rfl, by simp [hsize]⟩
  have hlen : k.length < fuel := by
    have := Path.length_le k
    have := congrArg List.length hlist
    simp only [length_append] at this
    omega
  obtain ⟨s', t', hfix, hfoc', hbal', hcol', hL, hsz⟩ := insertFixup_spec hinv hlen
  refine ⟨s', t', Path.before k, Path.after k, ?_, hfoc', hbal', hcol', hsz, hlist, ?_, hbk, hak⟩
  · simp only [rbInsert, he']
    simp only [bind_eq_bind, bind_some]
    rw [show insertFixup fuel _ x = some s' from hfix]
    rfl
  · rw [hL, Path.toList_plug]; simp

end Lapis.Util.RbTree
