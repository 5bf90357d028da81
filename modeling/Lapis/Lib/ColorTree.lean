/-
Lapis.Lib.ColorTree — coloured binary search trees with a focus.

A tree is cut at a node into a focus and a `Path`, the list of frames
from the focus up to the root. `plug` puts the two together again. The
red-black conditions are stated on both halves: `Balanced t n` for a
tree of black height `n`, `PathBalanced k n` for a path whose hole
expects black height `n`. A rebalancing loop that walks from the focus
to the root then only ever speaks about the frames next to the hole.

Nothing here mentions pointers or a program.
-/
import Mathlib.Data.List.Nodup
import Mathlib.Data.List.Perm.Basic
import Mathlib.Order.Lattice

namespace Lapis.Lib

/-- The two node colours. -/
inductive Color where
  | black
  | red
  deriving DecidableEq, Repr

/-- Coloured binary trees with elements of `α` at the inner nodes. -/
inductive Tree (α : Type) where
  | nil
  | node (c : Color) (l : Tree α) (a : α) (r : Tree α)
  deriving DecidableEq, Repr

namespace Tree

variable {α : Type}

/-- The colour of the root, a missing tree counting as black. -/
def color : Tree α → Color
  | nil => .black
  | node c _ _ _ => c

/-- The element at the root. -/
def root? : Tree α → Option α
  | nil => none
  | node _ _ a _ => some a

/-- The elements in order. -/
def toList : Tree α → List α
  | nil => []
  | node _ l a r => l.toList ++ a :: r.toList

/-- The tree with its root painted black. -/
def blacken : Tree α → Tree α
  | nil => nil
  | node _ l a r => node .black l a r

@[simp] theorem color_nil : (nil : Tree α).color = .black := rfl
@[simp] theorem color_node (c : Color) (l : Tree α) (a : α) (r : Tree α) :
    (node c l a r).color = c := rfl
@[simp] theorem root?_nil : (nil : Tree α).root? = none := rfl
@[simp] theorem root?_node (c : Color) (l : Tree α) (a : α) (r : Tree α) :
    (node c l a r).root? = some a := rfl
@[simp] theorem toList_nil : (nil : Tree α).toList = [] := rfl
@[simp] theorem toList_node (c : Color) (l : Tree α) (a : α) (r : Tree α) :
    (node c l a r).toList = l.toList ++ a :: r.toList := rfl

@[simp] theorem toList_blacken (t : Tree α) : t.blacken.toList = t.toList := by
  cases t <;> rfl

@[simp] theorem root?_blacken (t : Tree α) : t.blacken.root? = t.root? := by
  cases t <;> rfl

@[simp] theorem color_blacken (t : Tree α) : t.blacken.color = .black := by
  cases t <;> rfl

theorem blacken_eq_self {t : Tree α} (h : t.color = .black) : t.blacken = t := by
  cases t with
  | nil => rfl
  | node c l a r => simp only [color_node] at h; subst h; rfl

/-- The root is one of the elements. -/
theorem mem_of_root? {t : Tree α} {a : α} (h : t.root? = some a) : a ∈ t.toList := by
  cases t with
  | nil => simp at h
  | node c l b r => simp only [root?_node, Option.some.injEq] at h; simp [h]

theorem eq_nil_of_root? {t : Tree α} (h : t.root? = none) : t = nil := by
  cases t with
  | nil => rfl
  | node c l a r => simp at h

end Tree

open List
open Tree

variable {α : Type}

/-! ## Red-black trees -/

/-- `Balanced t n`: no red node of `t` has a red child and every path
from the root to a missing tree has `n` black nodes. -/
inductive Balanced : Tree α → Nat → Prop
  | nil : Balanced .nil 0
  | red {l r : Tree α} {a : α} {n : Nat} (hl : l.color = .black) (hr : r.color = .black)
      (bl : Balanced l n) (br : Balanced r n) : Balanced (.node .red l a r) n
  | black {l r : Tree α} {a : α} {n : Nat}
      (bl : Balanced l n) (br : Balanced r n) : Balanced (.node .black l a r) (n + 1)

/-- Painting a red root black raises the black height by one. -/
theorem Balanced.blacken_of_red {t : Tree α} {n : Nat} (h : Balanced t n)
    (hc : t.color = .red) : Balanced t.blacken (n + 1) := by
  cases h with
  | nil => simp at hc
  | red hl hr bl br => exact .black bl br
  | black bl br => simp at hc

theorem Balanced.blacken {t : Tree α} {n : Nat} (h : Balanced t n) : ∃ m, Balanced t.blacken m := by
  cases hc : t.color with
  | black => exact ⟨n, by rwa [blacken_eq_self hc]⟩
  | red => exact ⟨n + 1, h.blacken_of_red hc⟩

/-- A tree of positive black height has a root. -/
theorem Balanced.exists_node {t : Tree α} {n : Nat} (h : Balanced t (n + 1)) :
    ∃ c l a r, t = .node c l a r := by
  cases t with
  | nil => cases h
  | node c l a r => exact ⟨c, l, a, r, rfl⟩

/-- A black node one level down: both subtrees have the height less one. -/
theorem Balanced.of_black {l r : Tree α} {a : α} {n : Nat}
    (h : Balanced (.node .black l a r) (n + 1)) : Balanced l n ∧ Balanced r n := by
  cases h with
  | black bl br => exact ⟨bl, br⟩

theorem Balanced.of_red {l r : Tree α} {a : α} {n : Nat} (h : Balanced (.node .red l a r) n) :
    l.color = .black ∧ r.color = .black ∧ Balanced l n ∧ Balanced r n := by
  cases h with
  | red hl hr bl br => exact ⟨hl, hr, bl, br⟩

/-! ## Paths -/

/-- One step from a node to one of its children: `left c a r` is a node
`a` of colour `c` with right subtree `r` whose left subtree is the hole. -/
inductive Frame (α : Type) where
  | left (c : Color) (a : α) (r : Tree α)
  | right (c : Color) (l : Tree α) (a : α)

namespace Frame

def color : Frame α → Color
  | left c _ _ => c
  | right c _ _ => c

def elem : Frame α → α
  | left _ a _ => a
  | right _ _ a => a

/-- The subtree on the other side of the hole. -/
def sibling : Frame α → Tree α
  | left _ _ r => r
  | right _ l _ => l

/-- Fill the hole of one frame. -/
def fill : Frame α → Tree α → Tree α
  | left c a r, t => .node c t a r
  | right c l a, t => .node c l a t

/-- The elements before the hole. -/
def before : Frame α → List α
  | left _ _ _ => []
  | right _ l a => l.toList ++ [a]

/-- The elements after the hole. -/
def after : Frame α → List α
  | left _ a r => a :: r.toList
  | right _ _ _ => []

theorem toList_fill (f : Frame α) (t : Tree α) : (f.fill t).toList = f.before ++ t.toList ++ f.after := by
  cases f <;> simp [fill, before, after]

@[simp] theorem root?_fill (f : Frame α) (t : Tree α) : (f.fill t).root? = some f.elem := by
  cases f <;> rfl

@[simp] theorem color_fill (f : Frame α) (t : Tree α) : (f.fill t).color = f.color := by
  cases f <;> rfl

end Frame

/-! ## Sides

The cases of a rebalancing step come in pairs that are mirror images. They are told apart by the side
of the node on which the hole is, so that each pair is one statement. -/

inductive Side where
  | left
  | right

namespace Side

def other : Side → Side
  | left => right
  | right => left

/-- The node with the subtree `near` on the side and `far` opposite. -/
def branch : Side → Color → Tree α → α → Tree α → Tree α
  | left, c, near, a, far => .node c near a far
  | right, c, near, a, far => .node c far a near

/-- The frame with its hole on the side. -/
def frame : Side → Color → α → Tree α → Frame α
  | left, c, a, far => .left c a far
  | right, c, a, far => .right c far a

variable (d : Side) (c : Color) (near far t : Tree α) (a : α)

theorem branch_other : d.other.branch c near a far = d.branch c far a near := by
  cases d <;> rfl

@[simp] theorem color_branch : (d.branch c near a far).color = c := by
  cases d <;> rfl

@[simp] theorem root?_branch : (d.branch c near a far).root? = some a := by
  cases d <;> rfl

theorem blacken_branch : (d.branch c near a far).blacken = d.branch .black near a far := by
  cases d <;> rfl

@[simp] theorem fill_frame : (d.frame c a far).fill t = d.branch c t a far := by
  cases d <;> rfl

@[simp] theorem sibling_frame : (d.frame c a far).sibling = far := by
  cases d <;> rfl

@[simp] theorem color_frame : (d.frame c a far).color = c := by
  cases d <;> rfl

@[simp] theorem elem_frame : (d.frame c a far).elem = a := by
  cases d <;> rfl

theorem toList_branch_perm : (d.branch c near a far).toList.Perm (near.toList ++ a :: far.toList) := by
  cases d with
  | left => exact .rfl
  | right => exact perm_append_comm.trans perm_middle.symm

@[simp] theorem mem_branch {x : α} :
    x ∈ (d.branch c near a far).toList ↔ x ∈ near.toList ∨ x = a ∨ x ∈ far.toList := by
  rw [(d.toList_branch_perm c near far a).mem_iff, mem_append, mem_cons]

/-- A rotation keeps the order. -/
theorem toList_rotate (c c' : Color) (A B E : Tree α) (p q : α) :
    (d.branch c' (d.branch c A p B) q E).toList = (d.branch c A p (d.branch c' B q E)).toList := by
  cases d <;> simp [branch]

variable {c near far a} {n : Nat}

theorem exists_branch {t : Tree α} (h : Balanced t (n + 1)) : ∃ c near a far, t = d.branch c near a far := by
  obtain ⟨c, l, a, r, rfl⟩ := h.exists_node
  cases d with
  | left => exact ⟨c, l, a, r, rfl⟩
  | right => exact ⟨c, r, a, l, rfl⟩

theorem exists_branch_of_red {t : Tree α} (h : t.color = .red) : ∃ near a far, t = d.branch .red near a far := by
  cases t with
  | nil => cases h
  | node c l a r =>
    rw [color_node] at h
    subst h
    cases d with
    | left => exact ⟨l, a, r, rfl⟩
    | right => exact ⟨r, a, l, rfl⟩

/-- The children of a red node, seen from a side. -/
theorem exists_children {l r : Tree α} (x : α) (hl : l.color = .black) (hr : r.color = .black)
    (bl : Balanced l n) (br : Balanced r n) : ∃ near far, .node .red l x r = d.branch .red near x far ∧
      near.color = .black ∧ far.color = .black ∧ Balanced near n ∧ Balanced far n := by
  cases d with
  | left => exact ⟨l, r, rfl, hl, hr, bl, br⟩
  | right => exact ⟨r, l, rfl, hr, hl, br, bl⟩

theorem balanced_black (bn : Balanced near n) (bf : Balanced far n) :
    Balanced (d.branch .black near a far) (n + 1) := by
  cases d with
  | left => exact .black bn bf
  | right => exact .black bf bn

theorem balanced_red (hn : near.color = .black) (hf : far.color = .black) (bn : Balanced near n)
    (bf : Balanced far n) : Balanced (d.branch .red near a far) n := by
  cases d with
  | left => exact .red hn hf bn bf
  | right => exact .red hf hn bf bn

variable {d}

theorem of_balanced_black (h : Balanced (d.branch .black near a far) (n + 1)) :
    Balanced near n ∧ Balanced far n := by
  cases d with
  | left => exact h.of_black
  | right => exact h.of_black.symm

theorem of_balanced_red (h : Balanced (d.branch .red near a far) n) :
    near.color = .black ∧ far.color = .black ∧ Balanced near n ∧ Balanced far n := by
  cases d with
  | left => exact h.of_red
  | right =>
    obtain ⟨hf, hn, bf, bn⟩ := h.of_red
    exact ⟨hn, hf, bn, bf⟩

end Side

theorem Frame.exists_side (f : Frame α) : ∃ (d : Side) (c : Color) (a : α) (far : Tree α),
    f = d.frame c a far := by
  cases f with
  | left c a r => exact ⟨.left, c, a, r, rfl⟩
  | right c l a => exact ⟨.right, c, a, l, rfl⟩

/-- A frame has its hole on a given side or on the other one. -/
theorem Frame.eq_side (d : Side) (f : Frame α) :
    (∃ c a far, f = d.frame c a far) ∨ ∃ c a far, f = d.other.frame c a far := by
  obtain ⟨e, c, a, far, rfl⟩ := f.exists_side
  cases d <;> cases e
  · exact .inl ⟨c, a, far, rfl⟩
  · exact .inr ⟨c, a, far, rfl⟩
  · exact .inr ⟨c, a, far, rfl⟩
  · exact .inl ⟨c, a, far, rfl⟩

/-- A path from a focus to the root, the frame next to the focus first. -/
abbrev Path (α : Type) := List (Frame α)

namespace Path

/-- Fill the hole at the end of a path. -/
def plug : Path α → Tree α → Tree α
  | [], t => t
  | f :: k, t => plug k (f.fill t)

/-- The element next to the hole, the parent of the focus. -/
def parent? : Path α → Option α
  | [] => none
  | f :: _ => some f.elem

/-- The colour next to the hole, the outside of the tree being black. -/
def color : Path α → Color
  | [] => .black
  | f :: _ => f.color

def before : Path α → List α
  | [] => []
  | f :: k => before k ++ f.before

def after : Path α → List α
  | [] => []
  | f :: k => f.after ++ after k

@[simp] theorem plug_nil (t : Tree α) : plug [] t = t := rfl
@[simp] theorem plug_cons (f : Frame α) (k : Path α) (t : Tree α) :
    plug (f :: k) t = plug k (f.fill t) := rfl
@[simp] theorem parent?_nil : parent? ([] : Path α) = none := rfl
@[simp] theorem parent?_cons (f : Frame α) (k : Path α) : parent? (f :: k) = some f.elem := rfl
@[simp] theorem color_nil : color ([] : Path α) = .black := rfl
@[simp] theorem color_cons (f : Frame α) (k : Path α) : color (f :: k) = f.color := rfl
@[simp] theorem before_nil : before ([] : Path α) = [] := rfl
@[simp] theorem before_cons (f : Frame α) (k : Path α) :
    before (f :: k) = before k ++ f.before := rfl
@[simp] theorem after_nil : after ([] : Path α) = [] := rfl
@[simp] theorem after_cons (f : Frame α) (k : Path α) :
    after (f :: k) = f.after ++ after k := rfl

theorem plug_append (k1 k2 : Path α) (t : Tree α) : plug (k1 ++ k2) t = plug k2 (plug k1 t) := by
  induction k1 generalizing t with
  | nil => rfl
  | cons f k ih => simp [ih]

/-- In order, a path puts its two halves around the focus. -/
theorem toList_plug (k : Path α) (t : Tree α) : (plug k t).toList = before k ++ t.toList ++ after k := by
  induction k generalizing t with
  | nil => simp
  | cons f k ih => rw [plug_cons, ih, Frame.toList_fill]; simp

/-- Every element of a tree is the root of a focus. -/
theorem exists_plug_of_mem {t : Tree α} {a : α} (h : a ∈ t.toList) :
    ∃ k c l r, t = plug k (.node c l a r) := by
  induction t with
  | nil => simp at h
  | node c l b r ihl ihr =>
    rw [toList_node, mem_append, mem_cons] at h
    rcases h with h | rfl | h
    · obtain ⟨k, c', l', r', rfl⟩ := ihl h
      exact ⟨k ++ [.left c b r], c', l', r', by simp [plug_append, Frame.fill]⟩
    · exact ⟨[], c, l, r, rfl⟩
    · obtain ⟨k, c', l', r', rfl⟩ := ihr h
      exact ⟨k ++ [.right c l b], c', l', r', by simp [plug_append, Frame.fill]⟩

/-- A path is no longer than the list of the elements it carries. -/
theorem length_le (k : Path α) : k.length ≤ (before k).length + (after k).length := by
  induction k with
  | nil => simp
  | cons f k ih =>
    cases f <;> simp [Frame.before, Frame.after] <;> omega

end Path

/-- `PathBalanced k n`: filling the hole of `k` with a tree of black height
`n`, black where the frame next to the hole is red, gives a red-black
tree. The outermost frame is black. -/
inductive PathBalanced : Path α → Nat → Prop
  | nil {n : Nat} : PathBalanced [] n
  | red {f g : Frame α} {k : Path α} {n : Nat} (hf : f.color = .red)
      (hs : f.sibling.color = .black) (bs : Balanced f.sibling n)
      (hg : g.color = .black) (bk : PathBalanced (g :: k) n) : PathBalanced (f :: g :: k) n
  | black {f : Frame α} {k : Path α} {n : Nat} (hf : f.color = .black)
      (bs : Balanced f.sibling n) (bk : PathBalanced k (n + 1)) : PathBalanced (f :: k) n

theorem Balanced.fill_black {f : Frame α} {t : Tree α} {n : Nat} (hf : f.color = .black)
    (bs : Balanced f.sibling n) (bt : Balanced t n) : Balanced (f.fill t) (n + 1) := by
  cases f <;> (simp only [Frame.color] at hf; subst hf)
  · exact .black bt bs
  · exact .black bs bt

theorem Balanced.fill_red {f : Frame α} {t : Tree α} {n : Nat} (hf : f.color = .red)
    (hs : f.sibling.color = .black) (bs : Balanced f.sibling n)
    (ht : t.color = .black) (bt : Balanced t n) : Balanced (f.fill t) n := by
  cases f <;> (simp only [Frame.color] at hf; subst hf)
  · exact .red ht hs bt bs
  · exact .red hs ht bs bt

/-- Plugging a fitting tree into a balanced path gives a balanced tree. -/
theorem PathBalanced.plug {k : Path α} {n : Nat} (hk : PathBalanced k n) {t : Tree α}
    (bt : Balanced t n) (hc : k.color = .red → t.color = .black) : ∃ m, Balanced (k.plug t) m := by
  induction hk generalizing t with
  | nil => exact ⟨_, bt⟩
  | red hf hs bs hg bk ih =>
    refine ih (Balanced.fill_red hf hs bs (hc (by simpa using hf)) bt) ?_
    simp [hg]
  | black hf bs bk ih =>
    exact ih (Balanced.fill_black hf bs bt) (fun _ => by simp [hf])

/-- The root of a plugged tree is black when the path is balanced and the
focus is black or sits below a frame. -/
theorem PathBalanced.color_plug {k : Path α} {n : Nat} (hk : PathBalanced k n) {t : Tree α}
    (ht : k = [] → t.color = .black) : (k.plug t).color = .black := by
  induction hk generalizing t with
  | nil => exact ht rfl
  | red hf hs bs hg bk ih => exact ih (by simp)
  | black hf bs bk ih => exact ih (by simp [hf])

/-- A tree that may stand in the place of the frame next to the hole: it has
the colour of the frame and the height of the filled frame. -/
theorem PathBalanced.plug_parent {f : Frame α} {k : Path α} {n : Nat}
    (h : PathBalanced (f :: k) n) {t : Tree α} (hc : t.color = f.color)
    (hr : f.color = .red → Balanced t n) (hb : f.color = .black → Balanced t (n + 1)) :
    (∃ m, Balanced (k.plug t) m) ∧ (k.plug t).color = .black := by
  cases h with
  | red hf hs bs hg bk =>
    exact ⟨bk.plug (hr hf) (by simp [hg]), bk.color_plug (by simp)⟩
  | black hf bs bk =>
    exact ⟨bk.plug (hb hf) (fun _ => hc.trans hf), bk.color_plug (fun _ => hc.trans hf)⟩

/-- A balanced tree with a black root, cut at a focus, gives a balanced
path and a balanced focus. -/
theorem PathBalanced.of_plug {k : Path α} {t : Tree α} {m : Nat}
    (h : Balanced (k.plug t) m) (hc : (k.plug t).color = .black) :
    ∃ n, PathBalanced k n ∧ Balanced t n ∧ (k.color = .red → t.color = .black) ∧
      (k = [] → t.color = .black) := by
  induction k generalizing t with
  | nil => exact ⟨m, .nil, h, by simp, fun _ => hc⟩
  | cons f k ih =>
    obtain ⟨n, bk, bf, hred, hnil⟩ := ih h hc
    cases hf : f.color with
    | black =>
      have hsplit : ∃ n', n = n' + 1 ∧ Balanced f.sibling n' ∧ Balanced t n' := by
        cases f <;> (simp only [Frame.color] at hf; subst hf)
        · cases bf with
          | black bl br => exact ⟨_, rfl, br, bl⟩
        · cases bf with
          | black bl br => exact ⟨_, rfl, bl, br⟩
      obtain ⟨n', rfl, bs, bt⟩ := hsplit
      exact ⟨n', .black hf bs bk, bt, by simp [hf], by simp⟩
    | red =>
    have hsplit : f.sibling.color = .black ∧ t.color = .black ∧ Balanced f.sibling n ∧ Balanced t n := by
      cases f <;> (simp only [Frame.color] at hf; subst hf)
      · cases bf with
        | red hl hr bl br => exact ⟨hr, hl, br, bl⟩
      · cases bf with
        | red hl hr bl br => exact ⟨hl, hr, bl, br⟩
    obtain ⟨hs, ht, bs, bt⟩ := hsplit
    cases k with
    | nil => simp [hf] at hnil
    | cons g k =>
      have hg : g.color = .black := by
        cases hg : g.color with
        | black => rfl
        | red => have := hred (by simp [hg]); simp [hf] at this
      exact ⟨n, .red hf hs bs hg bk, bt, fun _ => ht, by simp⟩

/-- Balance does not depend on the elements: one on the path may be
exchanged for another. -/
theorem PathBalanced.replace_elem {k1 k2 : Path α} {c : Color} {l : Tree α} {x y : α} {n : Nat}
    (h : PathBalanced (k1 ++ .right c l x :: k2) n) : PathBalanced (k1 ++ .right c l y :: k2) n := by
  induction k1 generalizing n with
  | nil =>
    cases h with
    | red hf hs bs hg bk => exact .red hf hs bs hg bk
    | black hf bs bk => exact .black hf bs bk
  | cons f k1 ih =>
    cases k1 with
    | nil | cons g k1 =>
      cases h with
      | red hf hs bs hg bk => exact .red hf hs bs hg (ih bk)
      | black hf bs bk => exact .black hf bs (ih bk)

end Lapis.Lib
