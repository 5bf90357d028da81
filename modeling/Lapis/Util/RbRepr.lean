/-
Lapis.Util.RbRepr — which tree a linked set of nodes stands for.

`Focus s k t` says that the memory `s` holds the tree `t` at the end of
the path `k`: every node of `t` and of `k` has exactly the parent, child
and colour fields its place asks for, the root pointer is the top of the
path, and no address occurs twice. It is the loop invariant of every
pointer walk of `rbtree.c`, and each primitive of that file (a colour
assignment, a rotation, `_replace_child`, `_transplant`) gets one lemma
here that says what it does to the tree.
-/
import Lapis.Util.RbTree

namespace Lapis.Util.RbTree

open Function List Option
open Lapis.Lib Lapis.Lib.Tree

variable {α : Type}

/-! ## Reading a field after an assignment -/

section Fields

variable [DecidableEq α] (s : RbTree α) (a x : α) (p : Option α) (c : Color)

@[simp] theorem nodes_setParent : (s.setParent a p).nodes x =
    if x = a then { s.nodes a with parent := p } else s.nodes x := by
  simp [setParent, update_apply]

@[simp] theorem nodes_setLeft : (s.setLeft a p).nodes x =
    if x = a then { s.nodes a with left := p } else s.nodes x := by
  simp [setLeft, update_apply]

@[simp] theorem nodes_setRight : (s.setRight a p).nodes x =
    if x = a then { s.nodes a with right := p } else s.nodes x := by
  simp [setRight, update_apply]

@[simp] theorem nodes_setColor : (s.setColor a c).nodes x =
    if x = a then { s.nodes a with color := c } else s.nodes x := by
  simp [setColor, update_apply]

@[simp] theorem nodes_setParentIf (o : Option α) : (s.setParentIf o p).nodes x =
    if o = some x then { s.nodes x with parent := p } else s.nodes x := by
  cases o with
  | none => simp [setParentIf]
  | some b => by_cases h : x = b <;> simp [setParentIf, h, eq_comm]

@[simp] theorem root_setParent : (s.setParent a p).root = s.root := rfl
@[simp] theorem root_setLeft : (s.setLeft a p).root = s.root := rfl
@[simp] theorem root_setRight : (s.setRight a p).root = s.root := rfl
@[simp] theorem root_setColor : (s.setColor a c).root = s.root := rfl

@[simp] theorem root_setParentIf (o : Option α) : (s.setParentIf o p).root = s.root := by
  cases o <;> rfl

@[simp] theorem size_setParent : (s.setParent a p).size = s.size := rfl
@[simp] theorem size_setLeft : (s.setLeft a p).size = s.size := rfl
@[simp] theorem size_setRight : (s.setRight a p).size = s.size := rfl
@[simp] theorem size_setColor : (s.setColor a c).size = s.size := rfl

@[simp] theorem size_setParentIf (o : Option α) : (s.setParentIf o p).size = s.size := by
  cases o <;> rfl

@[simp] theorem size_setColorIf (o : Option α) : (s.setColorIf o c).size = s.size := by
  cases o <;> rfl

@[simp] theorem size_replaceChild (o n : Option α) : (s.replaceChild p o n).size = s.size := by
  cases p with
  | none => simp [replaceChild]
  | some b => simp only [replaceChild, size_setParentIf]; split <;> rfl

@[simp] theorem size_transplant (n : Option α) : (s.transplant a n).size = s.size := by
  simp [transplant]

end Fields

/-! ## Trees and paths in memory -/

/-- The memory `h` holds the tree below the parent pointer `par`. -/
def Repr (h : α → RbNode α) : Option α → Lib.Tree α → Prop
  | _, .nil => True
  | par, .node c l a r =>
    h a = ⟨par, l.root?, r.root?, c⟩ ∧ Repr h (some a) l ∧ Repr h (some a) r

/-- The record of the node of a frame, its hole filled by `hole`. -/
def frameNode (par hole : Option α) : Frame α → RbNode α
  | .left c _ r => ⟨par, hole, r.root?, c⟩
  | .right c l _ => ⟨par, l.root?, hole, c⟩

/-- The memory `h` with root pointer `root` holds the path, its hole
filled by the pointer `hole`. -/
def PathRepr (h : α → RbNode α) (root : Option α) : Path α → Option α → Prop
  | [], hole => root = hole
  | f :: k, hole =>
    h f.elem = frameNode (Path.parent? k) hole f ∧ Repr h (some f.elem) f.sibling ∧
      PathRepr h root k (some f.elem)

/-- The state holds the tree `t` at the end of the path `k`. -/
structure Focus (s : RbTree α) (k : Path α) (t : Lib.Tree α) : Prop where
  path : PathRepr s.nodes s.root k t.root?
  tree : Repr s.nodes (Path.parent? k) t
  nodup : (Path.plug k t).toList.Nodup

/-- The addresses on a path and in its siblings. -/
def pathElems (k : Path α) : List α := Path.before k ++ Path.after k

variable {f : Frame α} {k : Path α}

theorem mem_pathElems_cons {x : α} :
    x ∈ pathElems (f :: k) ↔ x = f.elem ∨ x ∈ f.sibling.toList ∨ x ∈ pathElems k := by
  cases f <;> simp [pathElems, Frame.before, Frame.after, Frame.elem, Frame.sibling] <;> tauto

variable {t : Lib.Tree α}

/-- The nodup condition split between path and focus. -/
theorem nodup_plug : (Path.plug k t).toList.Nodup ↔
      (pathElems k).Nodup ∧ t.toList.Nodup ∧ ∀ x ∈ t.toList, x ∉ pathElems k := by
  rw [Path.toList_plug, pathElems]
  have hperm : (Path.before k ++ t.toList ++ Path.after k).Perm
      (t.toList ++ (Path.before k ++ Path.after k)) := by
    rw [← append_assoc]
    exact (perm_append_comm).append_right _
  rw [hperm.nodup_iff, nodup_append']
  constructor
  · rintro ⟨ht, hk, hd⟩
    exact ⟨hk, ht, fun x hx hx' => hd hx hx'⟩
  · rintro ⟨hk, ht, hd⟩
    exact ⟨ht, hk, fun x hx hx' => hd x hx hx'⟩

theorem nodup_pathElems_cons (h : (pathElems (f :: k)).Nodup) :
    f.elem ∉ f.sibling.toList ∧ f.elem ∉ pathElems k ∧ f.sibling.toList.Nodup ∧
      (pathElems k).Nodup ∧ ∀ x ∈ f.sibling.toList, x ∉ pathElems k := by
  have hplug : (Path.plug k (f.fill .nil)).toList.Nodup := by
    rw [← Path.plug_cons, nodup_plug]
    exact ⟨h, by simp, by simp⟩
  obtain ⟨hk, ht, hd⟩ := nodup_plug.mp hplug
  cases f with
  | left c a r =>
    simp [Frame.fill] at ht hd
    exact ⟨ht.1, hd.1, ht.2, hk, hd.2⟩
  | right c l a =>
    simp [Frame.fill, nodup_append] at ht hd
    exact ⟨fun hm => ht.2 _ hm rfl, hd a (Or.inr rfl), ht.1, hk, fun x hx => hd x (Or.inl hx)⟩

/-! ## Frame rules -/

variable {h h' : α → RbNode α} {par : Option α}

theorem Repr.congr (hr : Repr h par t) (he : ∀ x ∈ t.toList, h' x = h x) : Repr h' par t := by
  induction t generalizing par with
  | nil => trivial
  | node c l a r ihl ihr =>
    obtain ⟨ha, hl, hr⟩ := hr
    refine ⟨?_, ihl hl fun x hx => he x (by simp [hx]), ihr hr fun x hx => he x (by simp [hx])⟩
    rw [he a (by simp), ha]

theorem PathRepr.congr {root hole : Option α}
    (hk : PathRepr h root k hole) (he : ∀ x ∈ pathElems k, h' x = h x) : PathRepr h' root k hole := by
  induction k generalizing hole with
  | nil => exact hk
  | cons f k ih =>
    obtain ⟨hf, hs, hk⟩ := hk
    refine ⟨?_, hs.congr fun x hx => he x ?_, ih hk fun x hx => he x ?_⟩
    · rw [he f.elem (mem_pathElems_cons.mpr (.inl rfl)), hf]
    · exact mem_pathElems_cons.mpr (.inr (.inl hx))
    · exact mem_pathElems_cons.mpr (.inr (.inr hx))

/-- Moving a tree under another parent changes the parent field of its
root and nothing else. -/
theorem Repr.reparent [DecidableEq α] {par' : Option α} (hr : Repr h par t) (hn : t.toList.Nodup)
    (he : ∀ x ∈ t.toList, h' x = if t.root? = some x then { h x with parent := par' } else h x) :
    Repr h' par' t := by
  cases t with
  | nil => trivial
  | node c l a r =>
  obtain ⟨ha, hl, hr⟩ := hr
  simp only [toList_node, nodup_append, nodup_cons, mem_cons] at hn
  obtain ⟨-, ⟨har, -⟩, hla⟩ := hn
  refine ⟨?_, hl.congr fun x hx => ?_, hr.congr fun x hx => ?_⟩
  · rw [he a (by simp)]; simp [ha]
  · have hne : a ≠ x := fun e => hla x hx a (.inl rfl) e.symm
    rw [he x (by simp [hx])]; simp [hne]
  · have hne : a ≠ x := fun e => har (e ▸ hx)
    rw [he x (by simp [hx])]; simp [hne]

variable {c : Color} {l r : Lib.Tree α} {a : α}

/-- Painting the root. -/
theorem Repr.recolor [DecidableEq α] {c' : Color} (hr : Repr h par (.node c l a r))
    (hn : (Lib.Tree.node c l a r).toList.Nodup) (he : ∀ x ∈ (Lib.Tree.node c l a r).toList,
      h' x = if x = a then { h x with color := c' } else h x) :
    Repr h' par (.node c' l a r) := by
  obtain ⟨ha, hl, hr⟩ := hr
  simp only [toList_node, nodup_append, nodup_cons, mem_cons] at hn
  obtain ⟨-, ⟨har, -⟩, hla⟩ := hn
  refine ⟨?_, hl.congr fun x hx => ?_, hr.congr fun x hx => ?_⟩
  · rw [he a (by simp)]; simp [ha]
  · rw [he x (by simp [hx]), if_neg (hla x hx a (.inl rfl))]
  · rw [he x (by simp [hx]), if_neg (fun e : x = a => har (e ▸ hx))]

/-! ## Moving the focus -/

variable {s : RbTree α}

theorem focus_cons_iff : Focus s (f :: k) t ↔ Focus s k (f.fill t) := by
  constructor
  · rintro ⟨⟨hf, hs, hk⟩, ht, hn⟩
    refine ⟨by simpa using hk, ?_, hn⟩
    cases f with
    | left c a r => exact ⟨hf, ht, hs⟩
    | right c l a => exact ⟨hf, hs, ht⟩
  · rintro ⟨hk, ht, hn⟩
    rw [Frame.root?_fill] at hk
    cases f with
    | left c a r => exact ⟨⟨ht.1, ht.2.2, hk⟩, ht.2.1, hn⟩
    | right c l a => exact ⟨⟨ht.1, ht.2.1, hk⟩, ht.2.2, hn⟩

theorem focus_plug_iff {k1 k2 : Path α} : Focus s (k1 ++ k2) t ↔ Focus s k2 (Path.plug k1 t) := by
  induction k1 generalizing t with
  | nil => rfl
  | cons f k ih => rw [cons_append, focus_cons_iff, ih, Path.plug_cons]

variable {d : Side} {near far : Lib.Tree α}

/-- The two subtrees of a node, seen from a side. -/
theorem focus_near_iff : Focus s (d.frame c a far :: k) near ↔ Focus s k (d.branch c near a far) := by
  rw [focus_cons_iff, Side.fill_frame]

theorem focus_far_iff : Focus s (d.other.frame c a near :: k) far ↔ Focus s k (d.branch c near a far) := by
  rw [focus_cons_iff, Side.fill_frame, Side.branch_other]

theorem focus_left_iff :
    Focus s (.left c a r :: k) l ↔ Focus s k (.node c l a r) := focus_cons_iff

theorem focus_right_iff :
    Focus s (.right c l a :: k) r ↔ Focus s k (.node c l a r) := focus_cons_iff

/-- The record of the node in focus. -/
theorem Focus.node (h : Focus s k (.node c l a r)) : s.nodes a = ⟨Path.parent? k, l.root?, r.root?, c⟩ :=
  h.tree.1

/-- The record of the parent of the focus. -/
theorem Focus.frame (h : Focus s (f :: k) t) : s.nodes f.elem = frameNode (Path.parent? k) t.root? f :=
  h.path.1

theorem Focus.rbNodeColor (h : Focus s k t) : s.rbNodeColor t.root? = t.color := by
  cases t with
  | nil => rfl
  | node c l a r => simp [RbTree.rbNodeColor, h.node]

theorem Focus.isRed (h : Focus s k t) : s.isRed t.root? = true ↔ t.color = .red := by
  cases t with
  | nil => simp [RbTree.isRed]
  | node c l a r => simp [RbTree.isRed, h.node]

/-- The parent pointer of the focus is red when the frame is. -/
theorem Focus.isRed_parent (h : Focus s k t) : s.isRed (Path.parent? k) = true ↔ Path.color k = .red := by
  cases k with
  | nil => simp [RbTree.isRed]
  | cons f k => cases f <;> simp [RbTree.isRed, h.frame, frameNode, Frame.color]

/-- The focus is the whole tree exactly when its pointer is the root. -/
theorem Focus.root?_eq_root (h : Focus s k t) : t.root? = s.root ↔ k = [] := by
  constructor
  · intro he
    have hroot : s.root = (Path.plug k t).root? := by
      have hwhole : Focus s (k ++ []) t := by simpa using h
      exact (focus_plug_iff.mp hwhole).path
    cases hk : k.reverse with
    | nil => simpa using hk
    | cons f k' =>
    -- the outermost frame owns the root, and the focus may not repeat it
    have hk : k = k'.reverse ++ [f] := by
      have := congrArg List.reverse hk; simpa using this
    have hfk : f.elem ∈ pathElems k := by
      rw [hk]
      generalize k'.reverse = k''
      induction k'' with
      | nil => exact mem_pathElems_cons.mpr (.inl rfl)
      | cons g k'' ih => exact mem_pathElems_cons.mpr (.inr (.inr ih))
    have hf : s.root = some f.elem := by
      rw [hroot, hk, Path.plug_append]; simp
    have hmem : f.elem ∈ t.toList := mem_of_root? (by rw [he, hf])
    exact absurd hfk ((nodup_plug.mp h.nodup).2.2 _ hmem)
  · rintro rfl
    exact h.path.symm

/-- The record of a node whose child on the side is `near`. -/
def record : Side → Option α → Option α → Option α → Color → RbNode α
  | .left, par, near, far, c => ⟨par, near, far, c⟩
  | .right, par, near, far, c => ⟨par, far, near, c⟩

theorem repr_branch {mem : α → RbNode α} :
    Repr mem par (d.branch c near a far) ↔ mem a = record d par near.root? far.root? c ∧
      Repr mem (some a) near ∧ Repr mem (some a) far := by
  cases d with
  | left => exact .rfl
  | right => exact and_congr_right fun _ => and_comm

theorem Focus.node_branch (h : Focus s k (d.branch c near a far)) :
    s.nodes a = record d (Path.parent? k) near.root? far.root? c :=
  (repr_branch.mp h.tree).1

/-! ## Colour assignments -/

variable [DecidableEq α]

theorem Focus.setColor (h : Focus s k (.node c l a r)) (c' : Color) :
    Focus (s.setColor a c') k (.node c' l a r) := by
  obtain ⟨-, ht, hd⟩ := nodup_plug.mp h.nodup
  refine ⟨?_, ?_, ?_⟩
  · refine h.path.congr fun x hx => ?_
    have hne : x ≠ a := fun e => hd a (by simp) (e ▸ hx)
    simp [hne]
  · refine h.tree.recolor ht fun x _ => ?_
    by_cases e : x = a <;> simp [e]
  · have := h.nodup
    rw [Path.toList_plug] at this ⊢
    exact this

/-! ## Replacing a child -/

/-- What `_replace_child` does to the nodes outside the path. -/
theorem nodes_replaceChild_of_not_mem {o n : Option α} {x : α}
    (hx : x ∉ pathElems k) : (s.replaceChild (Path.parent? k) o n).nodes x =
      if n = some x then { s.nodes x with parent := Path.parent? k } else s.nodes x := by
  cases k with
  | nil => simp [replaceChild]
  | cons f k =>
    have hne : x ≠ f.elem := fun e => hx (mem_pathElems_cons.mpr (.inl e))
    simp only [replaceChild, Path.parent?_cons, nodes_setParentIf]
    split <;> split <;> simp [hne]

/-- `_replace_child` puts a new pointer in the hole of the path. -/
theorem PathRepr.replaceChild {u : α} {n : Option α}
    (hk : PathRepr s.nodes s.root k (some u)) (hn : (pathElems k).Nodup)
    (hu : u ∉ pathElems k) (hnew : ∀ b, n = some b → b ∉ pathElems k) :
    PathRepr (s.replaceChild (Path.parent? k) (some u) n).nodes
      (s.replaceChild (Path.parent? k) (some u) n).root k n := by
  cases k with
  | nil => simp [RbTree.replaceChild, PathRepr]
  | cons f k =>
  obtain ⟨hf, hs, hk⟩ := hk
  obtain ⟨hfs, hfk, -, -, hsk⟩ := nodup_pathElems_cons hn
  have hroot : (s.replaceChild (some f.elem) (some u) n).root = s.root := by
    simp only [RbTree.replaceChild, root_setParentIf]
    split <;> rfl
  -- only the node of the frame and the new child itself are written
  have hother : ∀ x, x ≠ f.elem → x ∈ pathElems (f :: k) →
      (s.replaceChild (some f.elem) (some u) n).nodes x = s.nodes x := by
    intro x hne hx
    have hxn : n ≠ some x := fun e => hnew x e hx
    simp only [RbTree.replaceChild, nodes_setParentIf, if_neg hxn]
    split <;> simp [hne]
  have hnf : n ≠ some f.elem := fun e =>
    hnew f.elem e (mem_pathElems_cons.mpr (.inl rfl))
  rw [Path.parent?_cons, hroot]
  refine ⟨?_, hs.congr fun x hx => hother x ?_ (mem_pathElems_cons.mpr (.inr (.inl hx))),
    hk.congr fun x hx => hother x ?_ (mem_pathElems_cons.mpr (.inr (.inr hx)))⟩
  · simp only [RbTree.replaceChild, nodes_setParentIf, if_neg hnf]
    cases f with
    | left c a r => simp_all [frameNode, Frame.elem]
    | right c l a =>
      have hlu : l.root? ≠ some u := fun e =>
        hu (mem_pathElems_cons.mpr (.inr (.inl (mem_of_root? e))))
      simp_all [frameNode, Frame.elem]
  · exact fun e => hfs (e ▸ hx)
  · exact fun e => hfk (e ▸ hx)

/-! ## Rotations -/

/-- What the end of both rotations does. `s1` is the state after the child
pointers have been turned: `q` has its new record `nq`, `p` has its new
record `np` up to the parent field, and the inner subtree `B` hangs under
`p`. Linking `q` into the path and then `p` under `q` finishes. -/
theorem rotate_finish {s1 : RbTree α} {B : Lib.Tree α} {p q : α}
    {np nq : RbNode α} (hpath : PathRepr s.nodes s.root k (some p))
    (hk : (pathElems k).Nodup) (hpk : p ∉ pathElems k) (hqk : q ∉ pathElems k)
    (hBk : ∀ x ∈ B.toList, x ∉ pathElems k) (hpq : p ≠ q) (hroot : s1.root = s.root)
    (hq : nq.parent = Path.parent? k)
    (hs1 : ∀ x, s1.nodes x = if x = q then nq else if x = p then np
      else if B.root? = some x then { s.nodes x with parent := some p } else s.nodes x) :
    let f := (s1.replaceChild (Path.parent? k) (some p) (some q)).setParent p (some q)
    PathRepr f.nodes f.root k (some q) ∧ f.nodes q = nq ∧ f.nodes p = { np with parent := some q } ∧
      ∀ x, x ∉ pathElems k → x ≠ p → x ≠ q → f.nodes x =
        if B.root? = some x then { s.nodes x with parent := some p } else s.nodes x := by
  intro f
  have hpath1 : PathRepr s1.nodes s1.root k (some p) := by
    rw [hroot]
    refine hpath.congr fun x hx => ?_
    have h1 : x ≠ q := fun e => hqk (e ▸ hx)
    have h2 : x ≠ p := fun e => hpk (e ▸ hx)
    have h3 : B.root? ≠ some x := fun e => hBk x (mem_of_root? e) hx
    rw [hs1, if_neg h1, if_neg h2, if_neg h3]
  refine ⟨?_, ?_, ?_, ?_⟩
  · refine (hpath1.replaceChild hk hpk ?_).congr fun x hx => ?_
    · rintro b hb
      exact some.inj hb ▸ hqk
    · have h2 : x ≠ p := fun e => hpk (e ▸ hx)
      simp [f, h2]
  · simp only [f]
    rw [nodes_setParent, if_neg hpq.symm, nodes_replaceChild_of_not_mem hqk, hs1, ← hq]
    simp
  · simp only [f]
    rw [nodes_setParent, if_pos rfl, nodes_replaceChild_of_not_mem hpk, hs1]
    simp [hpq, hpq.symm]
  · intro x hx h2 h1
    have h1' : (some q : Option α) ≠ some x := fun e => h1 (some.inj e).symm
    simp only [f]
    rw [nodes_setParent, if_neg h2, nodes_replaceChild_of_not_mem hx, if_neg h1', hs1, if_neg h1, if_neg h2]

/-- `_rotate_left` and `_rotate_right`. -/
def rotate : Side → RbTree α → α → Option (RbTree α)
  | .left => rotateLeft
  | .right => rotateRight

/-- The child pointers a rotation turns. -/
def turn (d : Side) (s : RbTree α) (p q : α) (inner : Option α) : RbTree α :=
  match d with
  | .left => (s.setLeft q (some p)).setRight p inner
  | .right => (s.setRight q (some p)).setLeft p inner

theorem Focus.setColor_branch (h : Focus s k (d.branch c near a far)) (c' : Color) :
    Focus (s.setColor a c') k (d.branch c' near a far) := by
  cases d with
  | left => exact h.setColor c'
  | right => exact h.setColor c'

/-- A rotation of a node whose child opposite to the side is not missing. -/
theorem Focus.rotate {e : Color} {A B E : Lib.Tree α}
    {p q : α} (h : Focus s k (d.branch c A p (d.branch e B q E))) :
    ∃ s', rotate d s p = some s' ∧ Focus s' k (d.branch e (d.branch c A p B) q E) ∧ s'.size = s.size := by
  obtain ⟨hk, ht, hd⟩ := nodup_plug.mp h.nodup
  have hpath := h.path
  rw [Side.root?_branch] at hpath
  obtain ⟨hp, hA, hqBE⟩ := repr_branch.mp h.tree
  obtain ⟨hq, hB, hE⟩ := repr_branch.mp hqBE
  simp only [Side.mem_branch] at hd
  have hpk : p ∉ pathElems k := hd p (by simp)
  have hqk : q ∉ pathElems k := hd q (by simp)
  have hBk : ∀ x ∈ B.toList, x ∉ pathElems k := fun x hx => hd x (by simp [hx])
  rw [(d.toList_branch_perm ..).nodup_iff, nodup_append, nodup_cons,
    (d.toList_branch_perm ..).nodup_iff, nodup_append, nodup_cons] at ht
  simp only [mem_cons, Side.mem_branch, not_or] at ht
  obtain ⟨-, ⟨⟨hpB, hpq, hpE⟩, hBn, ⟨hqE, -⟩, hBq⟩, hA'⟩ := ht
  have hqp : q ≠ p := fun e => hpq e.symm
  have hBp : B.root? ≠ some p := fun e => hpB (mem_of_root? e)
  have hBq' : B.root? ≠ some q := fun e => hBq q (mem_of_root? e) q (.inl rfl) rfl
  let s1 := ((turn d s p q B.root?).setParentIf B.root? (some p)).setParent q (Path.parent? k)
  have hs1 : ∀ x, s1.nodes x = if x = q then record d (Path.parent? k) (some p) E.root? e
      else if x = p then record d (Path.parent? k) A.root? B.root? c
      else if B.root? = some x then { s.nodes x with parent := some p } else s.nodes x := by
    intro x
    by_cases h1 : x = q
    · cases d <;> simp [s1, h1, hBq', hqp, hq, turn, record]
    · by_cases h2 : x = p
      · cases d <;> simp [s1, h2, hBp, hpq, hp, turn, record]
      · cases d <;> simp [s1, h1, h2, turn]
  obtain ⟨hpath', hnq, hnp, hout⟩ := rotate_finish hpath hk hpk hqk hBk hpq
    (by cases d <;> simp [s1, turn]) (by cases d <;> rfl) hs1
  refine ⟨(s1.replaceChild (Path.parent? k) (some p) (some q)).setParent p (some q), ?_,
    ⟨by rwa [Side.root?_branch], repr_branch.mpr ⟨by rwa [Side.root?_branch],
      repr_branch.mpr ⟨hnp.trans (by cases d <;> rfl), ?_, ?_⟩, ?_⟩, ?_⟩, ?_⟩
  · cases d <;> simp [RbTree.rotate, rotateLeft, rotateRight, hp, hq, s1, hpq, hBp, turn, record]
  · refine hA.congr fun x hx => ?_
    have hAx := hA' x hx
    have h3 : B.root? ≠ some x := fun e => hAx x (by simp [mem_of_root? e]) rfl
    rw [hout x (hd x (by simp [hx])) (hAx p (.inl rfl)) (hAx q (by simp)), if_neg h3]
  · refine hB.reparent hBn fun x hx => ?_
    exact hout x (hBk x hx) (fun e => hpB (e ▸ hx)) (fun e => hBq x hx q (.inl rfl) e)
  · refine hE.congr fun x hx => ?_
    have h3 : B.root? ≠ some x := fun e => hBq x (mem_of_root? e) x (.inr hx) rfl
    rw [hout x (hd x (by simp [hx])) (fun e => hpE (e ▸ hx)) (fun e => hqE (e ▸ hx)), if_neg h3]
  · have := h.nodup
    rw [Path.toList_plug] at this ⊢
    rwa [d.toList_rotate]
  · cases d <;> simp [s1, turn]

/-! ## Transplanting -/

/-- `_transplant` of a subtree that holds at another place: the new focus
is that subtree, hanging where `u` hung. -/
theorem transplant_focus {u : α} {v : Lib.Tree α}
    (hpath : PathRepr s.nodes s.root k (some u)) (hu : (s.nodes u).parent = Path.parent? k)
    (huk : u ∉ pathElems k) (huv : u ∉ v.toList) (hv : Repr s.nodes par v)
    (hn : (Path.plug k v).toList.Nodup) : Focus (s.transplant u v.root?) k v ∧
      ∀ x, x ∉ pathElems k → x ∉ v.toList → (s.transplant u v.root?).nodes x = s.nodes x := by
  obtain ⟨hk, hvn, hvk⟩ := nodup_plug.mp hn
  have huv' : v.root? ≠ some u := fun e => huv (mem_of_root? e)
  have hpar : ((s.replaceChild (Path.parent? k) (some u) v.root?).nodes u).parent = Path.parent? k := by
    rw [nodes_replaceChild_of_not_mem huk, if_neg huv', hu]
  have hnodes : ∀ x, x ∉ pathElems k → (s.transplant u v.root?).nodes x =
      if v.root? = some x then { s.nodes x with parent := Path.parent? k } else s.nodes x := by
    intro x hx
    simp only [transplant, hu, hpar, nodes_setParentIf, nodes_replaceChild_of_not_mem hx]
    split <;> simp
  refine ⟨⟨?_, ?_, hn⟩, ?_⟩
  · have hnew : ∀ b, v.root? = some b → b ∉ pathElems k := fun b hb => hvk b (mem_of_root? hb)
    have hroot : (s.transplant u v.root?).root = (s.replaceChild (Path.parent? k) (some u) v.root?).root := by
      simp [transplant, hu]
    rw [hroot]
    refine (hpath.replaceChild hk huk hnew).congr fun x hx => ?_
    have hne : v.root? ≠ some x := fun e => hnew x e hx
    simp [transplant, hu, hne]
  · exact hv.reparent hvn fun x hx => hnodes x (hvk x hx)
  · intro x hx hxv
    rw [hnodes x hx, if_neg fun e => hxv (mem_of_root? e)]

end Lapis.Util.RbTree
