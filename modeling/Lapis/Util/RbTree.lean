/-
Lapis.Util.RbTree — the red-black tree of `util/rbtree.c`, as the C code
computes it.

A node is named by its address, an element of an arbitrary type `α`. The
memory of all `rb_node_t` records and the header `rb_tree_t` are one
state, so an assignment through a pointer is an update of `nodes`. A null
pointer is `none`. Every function that follows a pointer the C code does
not test returns an `Option`, and is `none` where the C code would
dereference null.

The three loops (the descent of `rb_insert`, the two fixups, the walk to
the successor) take a `fuel`, the number of iterations they may still
make; running out of it is `none` as well. `RbTreeTheorems` shows that
neither kind of `none` happens.
-/
import Lapis.Lib.ColorTree

namespace Lapis.Util

open Function Lib

/-- `rb_node_t`. -/
structure RbNode (α : Type) where
  parent : Option α
  left : Option α
  right : Option α
  color : Color
  deriving DecidableEq, Repr

/-- `rb_tree_t` together with the memory its nodes live in. The field
`compare` of the C record is the parameter `cmp` of `rbInsert`. -/
structure RbTree (α : Type) where
  nodes : α → RbNode α
  root : Option α
  size : Nat

namespace RbTree

variable {α : Type} [DecidableEq α]

/-! ## Assignments through a pointer -/

def setParent (s : RbTree α) (a : α) (p : Option α) : RbTree α :=
  { s with nodes := update s.nodes a { s.nodes a with parent := p } }

def setLeft (s : RbTree α) (a : α) (p : Option α) : RbTree α :=
  { s with nodes := update s.nodes a { s.nodes a with left := p } }

def setRight (s : RbTree α) (a : α) (p : Option α) : RbTree α :=
  { s with nodes := update s.nodes a { s.nodes a with right := p } }

def setColor (s : RbTree α) (a : α) (c : Color) : RbTree α :=
  { s with nodes := update s.nodes a { s.nodes a with color := c } }

/-- `if (x) x->parent = p;` -/
def setParentIf (s : RbTree α) (x : Option α) (p : Option α) : RbTree α :=
  match x with
  | some a => s.setParent a p
  | none => s

/-- `if (x) x->color = c;` -/
def setColorIf (s : RbTree α) (x : Option α) (c : Color) : RbTree α :=
  match x with
  | some a => s.setColor a c
  | none => s

/-! ## Helpers of the C file -/

/-- `_rb_node_color`: a null node is black. -/
def rbNodeColor (s : RbTree α) (x : Option α) : Color :=
  match x with
  | some a => (s.nodes a).color
  | none => .black

/-- `_is_red` -/
def isRed (s : RbTree α) (x : Option α) : Bool :=
  match x with
  | some a => (s.nodes a).color = .red
  | none => false

/-- `_replace_child` -/
def replaceChild (s : RbTree α) (parent oldChild newChild : Option α) : RbTree α :=
  let s := match parent with
    | none => { s with root := newChild }
    | some p =>
      if (s.nodes p).left = oldChild then s.setLeft p newChild else s.setRight p newChild
  s.setParentIf newChild parent

/-- `_rotate_left` -/
def rotateLeft (s : RbTree α) (node : α) : Option (RbTree α) := do
  let r ← (s.nodes node).right
  let rl := (s.nodes r).left
  let s := s.setLeft r (some node)
  let s := s.setRight node rl
  let s := s.setParentIf rl (some node)
  let s := s.setParent r (s.nodes node).parent
  let s := s.replaceChild (s.nodes node).parent (some node) (some r)
  some (s.setParent node (some r))

/-- `_rotate_right` -/
def rotateRight (s : RbTree α) (node : α) : Option (RbTree α) := do
  let l ← (s.nodes node).left
  let lr := (s.nodes l).right
  let s := s.setRight l (some node)
  let s := s.setLeft node lr
  let s := s.setParentIf lr (some node)
  let s := s.setParent l (s.nodes node).parent
  let s := s.replaceChild (s.nodes node).parent (some node) (some l)
  some (s.setParent node (some l))

/-! ## Insertion -/

/-- The black-uncle branch of `_insert_fixup`, the parent being a left
child. The new `node` is returned with the tree. -/
def insertCaseLeft (s : RbTree α) (node : α) : Option (α × RbTree α) := do
  let p ← (s.nodes node).parent
  let (node, s) ←
    if some node = (s.nodes p).right then do
      let s ← s.rotateLeft p
      some (p, s)
    else some (node, s)
  let p ← (s.nodes node).parent
  let s := s.setColor p .black
  let g ← (s.nodes p).parent
  let s := s.setColor g .red
  let s ← s.rotateRight g
  some (node, s)

/-- The black-uncle branch of `_insert_fixup`, the parent being a right
child. -/
def insertCaseRight (s : RbTree α) (node : α) : Option (α × RbTree α) := do
  let p ← (s.nodes node).parent
  let (node, s) ←
    if some node = (s.nodes p).left then do
      let s ← s.rotateRight p
      some (p, s)
    else some (node, s)
  let p ← (s.nodes node).parent
  let s := s.setColor p .black
  let g ← (s.nodes p).parent
  let s := s.setColor g .red
  let s ← s.rotateLeft g
  some (node, s)

/-- The red-uncle branch of `_insert_fixup`, the same on both sides. -/
def insertRecolor (s : RbTree α) (p uncle g : α) : RbTree α :=
  let s := s.setColor p .black
  let s := s.setColor uncle .black
  s.setColor g .red

/-- One turn of the loop of `_insert_fixup`, entered with `node->parent`
red. -/
def insertFixupStep (s : RbTree α) (node : α) : Option (α × RbTree α) := do
  let p ← (s.nodes node).parent
  let g ← (s.nodes p).parent
  if some p = (s.nodes g).left then
    let uncle := (s.nodes g).right
    if s.isRed uncle then do
      let u ← uncle
      some (g, s.insertRecolor p u g)
    else s.insertCaseLeft node
  else
    let uncle := (s.nodes g).left
    if s.isRed uncle then do
      let u ← uncle
      some (g, s.insertRecolor p u g)
    else s.insertCaseRight node

/-- `_insert_fixup` -/
def insertFixup : Nat → RbTree α → α → Option (RbTree α)
  | 0, _, _ => none
  | fuel + 1, s, node =>
    if s.isRed (s.nodes node).parent then do
      let (node, s) ← s.insertFixupStep node
      insertFixup fuel s node
    else do
      let r ← s.root
      some (s.setColor r .black)

/-- What `rb_node_t **link` can point at: the root of the header or one of
the two child fields of a node. -/
inductive Link (α : Type) where
  | root
  | left (a : α)
  | right (a : α)

/-- `*link` -/
def load (s : RbTree α) : Link α → Option α
  | .root => s.root
  | .left a => (s.nodes a).left
  | .right a => (s.nodes a).right

/-- `*link = x` -/
def store (s : RbTree α) (link : Link α) (x : Option α) : RbTree α :=
  match link with
  | .root => { s with root := x }
  | .left a => s.setLeft a x
  | .right a => s.setRight a x

/-- The descent of `rb_insert` from `link` with the current `parent`. The
inner `none` is the early `return -1` on an equal key. -/
def insertDescend (cmp : α → α → Int) (s : RbTree α) (node : α) :
    Nat → Link α → Option α → Option (Option (Link α × Option α))
  | 0, _, _ => none
  | fuel + 1, link, parent =>
    match s.load link with
    | none => some (some (link, parent))
    | some cur =>
      if cmp node cur < 0 then insertDescend cmp s node fuel (.left cur) (some cur)
      else if cmp node cur > 0 then insertDescend cmp s node fuel (.right cur) (some cur)
      else some none

/-- `rb_insert`: the return value and the new state. -/
def rbInsert (cmp : α → α → Int) (fuel : Nat) (s : RbTree α) (node : α) :
    Option (Int × RbTree α) := do
  match ← insertDescend cmp s node fuel .root none with
  | none => some (-1, s)
  | some (link, parent) =>
    let s := s.setParent node parent
    let s := s.setLeft node none
    let s := s.setRight node none
    let s := s.setColor node .red
    let s := s.store link (some node)
    let s := { s with size := s.size + 1 }
    let s ← insertFixup fuel s node
    some (0, s)

/-! ## Removal -/

/-- `_transplant` -/
def transplant (s : RbTree α) (u : α) (v : Option α) : RbTree α :=
  let s := s.replaceChild (s.nodes u).parent (some u) v
  s.setParentIf v (s.nodes u).parent

/-- The loop body of `_remove_fixup` on the left side from the test of the
sibling's children on: the new `node` and `parent`. -/
def removeCaseLeft (s : RbTree α) (parent sibling : α) :
    Option (Option α × Option α × RbTree α) := do
  if s.rbNodeColor (s.nodes sibling).left = .black ∧
      s.rbNodeColor (s.nodes sibling).right = .black then
    let s := s.setColor sibling .red
    some (some parent, (s.nodes parent).parent, s)
  else
    let (sibling, s) ←
      if s.rbNodeColor (s.nodes sibling).right = .black then do
        let sl ← (s.nodes sibling).left
        let s := s.setColor sl .black
        let s := s.setColor sibling .red
        let s ← s.rotateRight sibling
        let sibling ← (s.nodes parent).right
        some (sibling, s)
      else some (sibling, s)
    let s := s.setColor sibling (s.nodes parent).color
    let s := s.setColor parent .black
    let s := s.setColorIf (s.nodes sibling).right .black
    let s ← s.rotateLeft parent
    some (s.root, some parent, s)

/-- The mirror image of `removeCaseLeft`. -/
def removeCaseRight (s : RbTree α) (parent sibling : α) :
    Option (Option α × Option α × RbTree α) := do
  if s.rbNodeColor (s.nodes sibling).left = .black ∧
      s.rbNodeColor (s.nodes sibling).right = .black then
    let s := s.setColor sibling .red
    some (some parent, (s.nodes parent).parent, s)
  else
    let (sibling, s) ←
      if s.rbNodeColor (s.nodes sibling).left = .black then do
        let sr ← (s.nodes sibling).right
        let s := s.setColor sr .black
        let s := s.setColor sibling .red
        let s ← s.rotateLeft sibling
        let sibling ← (s.nodes parent).left
        some (sibling, s)
      else some (sibling, s)
    let s := s.setColor sibling (s.nodes parent).color
    let s := s.setColor parent .black
    let s := s.setColorIf (s.nodes sibling).left .black
    let s ← s.rotateRight parent
    some (s.root, some parent, s)

/-- One turn of the loop of `_remove_fixup`. -/
def removeFixupStep (s : RbTree α) (node parent : Option α) :
    Option (Option α × Option α × RbTree α) := do
  let parent ← parent
  if node = (s.nodes parent).left then
    let sibling ← (s.nodes parent).right
    let (sibling, s) ←
      if s.isRed (some sibling) then do
        let s := s.setColor sibling .black
        let s := s.setColor parent .red
        let s ← s.rotateLeft parent
        let sibling ← (s.nodes parent).right
        some (sibling, s)
      else some (sibling, s)
    s.removeCaseLeft parent sibling
  else
    let sibling ← (s.nodes parent).left
    let (sibling, s) ←
      if s.isRed (some sibling) then do
        let s := s.setColor sibling .black
        let s := s.setColor parent .red
        let s ← s.rotateRight parent
        let sibling ← (s.nodes parent).left
        some (sibling, s)
      else some (sibling, s)
    s.removeCaseRight parent sibling

/-- `_remove_fixup` -/
def removeFixup : Nat → RbTree α → Option α → Option α → Option (RbTree α)
  | 0, _, _, _ => none
  | fuel + 1, s, node, parent =>
    if s.rbNodeColor node = .black ∧ node ≠ s.root then do
      let (node, parent, s) ← s.removeFixupStep node parent
      removeFixup fuel s node parent
    else some (s.setColorIf node .black)

/-- `while (y->left != NULL) y = y->left;` -/
def leftmost (s : RbTree α) : Nat → α → Option α
  | 0, _ => none
  | fuel + 1, y =>
    match (s.nodes y).left with
    | none => some y
    | some l => leftmost s fuel l

/-- The two-children branch of `rb_remove` for the successor `y`: the
`x_parent` it leaves and the new state. -/
def removeSplice (s : RbTree α) (node y : α) : Option (Option α × RbTree α) := do
  let (xParent, s) ←
    if (s.nodes y).parent = some node then some (some y, s)
    else do
      let xParent := (s.nodes y).parent
      let s := s.transplant y (s.nodes y).right
      let s := s.setRight y (s.nodes node).right
      let yr ← (s.nodes y).right
      let s := s.setParent yr (some y)
      some (xParent, s)
  let s := s.transplant node (some y)
  let s := s.setLeft y (s.nodes node).left
  let yl ← (s.nodes y).left
  let s := s.setParent yl (some y)
  let s := s.setColor y (s.nodes node).color
  some (xParent, s)

/-- The unlinking part of `rb_remove`, up to `tree->size--`: the colour
`y_orig_color`, `x`, `x_parent` and the new state. -/
def removeUnlink (fuel : Nat) (s : RbTree α) (node : α) :
    Option (Color × Option α × Option α × RbTree α) := do
  match (s.nodes node).left, (s.nodes node).right with
  | none, x => some ((s.nodes node).color, x, (s.nodes node).parent, s.transplant node x)
  | some l, none =>
    some ((s.nodes node).color, some l, (s.nodes node).parent, s.transplant node (some l))
  | some _, some r =>
    let y ← s.leftmost fuel r
    let yColor := (s.nodes y).color
    let x := (s.nodes y).right
    let (xParent, s) ← s.removeSplice node y
    some (yColor, x, xParent, s)

/-- `rb_remove` -/
def rbRemove (fuel : Nat) (s : RbTree α) (node : α) : Option (RbTree α) := do
  let (yColor, x, xParent, s) ← s.removeUnlink fuel node
  let s := { s with size := s.size - 1 }
  if yColor = .black then removeFixup fuel s x xParent else some s

end RbTree

end Lapis.Util
