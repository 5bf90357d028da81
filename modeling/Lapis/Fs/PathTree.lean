/-
Lapis.Fs.PathTree — the reference for a file system without links: a map from paths to nodes.

A path is the list of its names. The map gives the node at a path, with its kind. An operation either
succeeds, and then the map has one path more or less, or fails, and then it is as it was.
-/
import Lapis.Fs.Ramfs

namespace Lapis.Fs

open Function Util

/-- The node at a path and its kind. -/
abbrev PathTree := List Str → Option (Nat × RamfsType)

namespace PathTree

/-- A tree that has the root only. -/
def onlyRoot (root : Nat) : PathTree := update (fun _ => none) [] (some (root, .directory))

def IsDir (t : PathTree) (path : List Str) : Prop := ∃ d, t path = some (d, .directory)

open Classical in
/-- The node at a path of which every proper prefix is a directory. -/
noncomputable def lookup (t : PathTree) (path : List Str) : Option (Nat × RamfsType) :=
  if ∀ q name rest, path = q ++ name :: rest → t.IsDir q then t path else none

open Classical in
/-- A new node: its parent is a directory and there is no node of its name. -/
noncomputable def add (t : PathTree) (path : List Str) (c : Nat) (type : RamfsType) : Option PathTree :=
  if t.IsDir path.dropLast ∧ t path = none then some (update t path (some (c, type))) else none

open Classical in
/-- A node that is no directory is removed. -/
noncomputable def remove (t : PathTree) (path : List Str) : Option PathTree :=
  if t path ≠ none ∧ ¬ t.IsDir path then some (update t path none) else none

open Classical in
/-- A directory that is empty is removed. -/
noncomputable def rmdir (t : PathTree) (path : List Str) : Option PathTree :=
  if t.IsDir path ∧ ∀ name, t (path ++ [name]) = none then some (update t path none) else none

end PathTree

/-! ## Calls -/

/-- A call on the tree. -/
inductive TreeCall
  | create (path : Str) (mode : Nat)
  | mkdir (path : Str) (mode : Nat)
  | remove (path : Str)
  | rmdir (path : Str)
  | lookup (path : Str)

def TreeCall.path : TreeCall → Str
  | .create path _ | .mkdir path _ | .remove path | .rmdir path | .lookup path => path

/-- The calls that make a node. -/
def TreeCall.adds : TreeCall → Prop
  | .create _ _ | .mkdir _ _ => True
  | _ => False

/-- The reference of a call; `c` is the node that an allocation gives. -/
noncomputable def PathTree.apply (t : PathTree) (c : Nat) : TreeCall → Option PathTree
  | .create path _ => t.add (components path) c .file
  | .mkdir path _ => t.add (components path) c .directory
  | .remove path => t.remove (components path)
  | .rmdir path => t.rmdir (components path)
  | .lookup path => (t.lookup (components path)).map fun _ => t

end Lapis.Fs
