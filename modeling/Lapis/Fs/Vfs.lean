/-
Lapis.Fs.Vfs — the virtual file system over one ramfs, mounted at "/" (vfs.c).

`vfs_lookup` gives a new vnode every time, except for the root, whose vnode belongs to the mount; a
`VnodePtr` is a pointer to one or the other. References are not counted: a vnode is given up by whoever
has it, and the root vnode has a reference of the mount. The static variable of `strtok` is part of the
state. An allocation of a string or a vnode succeeds. Locks are left out; they are in
Lapis.Fs.VfsLocks.
-/
import Lapis.Fs.Ramfs

namespace Lapis.Fs

open Function Mm Util

/-- A pointer to a vnode: that of the root, or one of its own. -/
inductive VnodePtr
  | root
  | own (v : Vnode)
  deriving DecidableEq, Repr

structure Vfs where
  ramfs : Ramfs
  rootVnode : Vnode
  strtokNext : Strtok

namespace Vfs

open Ramfs (Stat Dirent)

def get (s : Vfs) : VnodePtr → Vnode
  | .root => s.rootVnode
  | .own v => v

/-- A new ramfs, mounted at "/" (`ramfs_fstype_mount`); `root` is the address of its root node. -/
def mounted (root : Nat) (fresh : List Nat) (heap : Kheap) (strtokNext : Strtok) : Vfs :=
  let mode := S_IFDIR ||| 0o755
  { ramfs := {
      nodes := update (fun _ => none) root (some ⟨[slash], .directory, 0, 0, mode, 0, 0⟩)
      rootNode := root
      fresh := fresh
      heap := heap }
    rootVnode := ⟨[slash], .dir, root, 0, 0, mode⟩
    strtokNext := strtokNext }

/-! ## Mounts -/

/-- One round of the loop of `vfs_resolve_mount`: the best mount so far and the length of its path. -/
def betterMount (path : Str) (best : Option Nat × Nat) (i : Nat) (mount : Str) : Option Nat × Nat :=
  if path.length < mount.length then best
  else if mount = [slash] then
    if path.head? = some slash ∧ best.2 < mount.length then (some i, mount.length) else best
  else if mount <+: path ∧
      ((path.drop mount.length).head? = none ∨ (path.drop mount.length).head? = some slash) ∧
      best.2 < mount.length then (some i, mount.length)
  else best

/-- The loop of `vfs_resolve_mount` over the paths of the mounts. -/
def bestMount (path : Str) : Option Nat × Nat → Nat → List Str → Option Nat × Nat
  | best, _, [] => best
  | best, i, mount :: mounts => bestMount path (betterMount path best i mount) (i + 1) mounts

/-- `vfs_resolve_mount`: the number of the mount and the rest of the path. -/
def vfsResolveMount (mounts : List Str) (path : Str) : Except Int (Nat × Str) :=
  match bestMount path (none, 0) 0 mounts with
  | (some i, len) => .ok (i, (path.drop len).dropWhile (· = slash))
  | (none, _) =>
    if path = [slash] ∧ mounts ≠ [] then .ok (0, (path.drop 1).dropWhile (· = slash))
    else .error (-ENOENT)

/-! ## vfs_lookup -/

def MAX_SYMLINK_DEPTH : Nat := 10

/-- The loop of `vfs_lookup_internal` over the components; `follow` is what it does with the vnode of a
component. The buffer is freed when the loop ends. -/
def lookupLoop (s : Vfs) (follow : VnodePtr → Strtok → Option (Except Int VnodePtr × Strtok)) :
    Nat → VnodePtr → Option Str → Strtok → Option (Except Int VnodePtr × Strtok)
  | 0, _, _, _ => none
  | _ + 1, current, none, next => some (.ok current, next.free)
  | rounds + 1, current, some component, next =>
    if (s.get current).vtype ≠ .dir then some (.error (-ENOTDIR), next.free)
    else do
      match ← s.ramfs.ramfsLookup s.rootVnode.path (s.get current) component with
      | .error e => some (.error e, next.free)
      | .ok v => do
        match ← follow (.own v) next with
        | (.error e, next) => some (.error e, next.free)
        | (.ok resolved, next) => do
          let (component, next) ← strtok next
          s.lookupLoop follow rounds resolved component next

/-- `vfs_lookup_internal` and `vfs_follow_symlink`; `left` is MAX_SYMLINK_DEPTH - depth. -/
def vfsLookupInternal (s : Vfs) :
    Nat → Str → Bool → Strtok → Option (Except Int VnodePtr × Strtok)
  | 0, _, _, next => some (.error (-ELOOP), next)
  | left + 1, path, followSymlinks, next =>
    match vfsResolveMount [s.rootVnode.path] path with
    | .error e => some (.error e, next)
    | .ok (_, rel) =>
      if rel = [] then some (.ok .root, next)
      else
        let follow := fun v next =>
          if followSymlinks then
            match left with
            | 0 => some (.error (-ELOOP), next)
            | left + 1 =>
              if (s.get v).vtype ≠ .link then some (.ok v, next)
              else do
                match ← s.ramfs.ramfsReadlink (s.get v) 512 with
                | .error e => some (.error e, next)
                | .ok target => s.vfsLookupInternal left target false next
          else some (.ok v, next)
        do
          let (component, next) ← strtok (.at rel)
          s.lookupLoop follow (rel.length + 1) .root component next

/-- A lookup, with the new value of the static variable. -/
def lookup (s : Vfs) (path : Str) (followSymlinks : Bool) : Option (Except Int VnodePtr × Vfs) := do
  let (r, next) ← s.vfsLookupInternal MAX_SYMLINK_DEPTH path followSymlinks s.strtokNext
  some (r, { s with strtokNext := next })

def vfsLookup (s : Vfs) (path : Str) : Option (Except Int VnodePtr × Vfs) := s.lookup path true

/-- `vfs_lookup_parent`: the vnode of the directory, and the name in it. -/
def vfsLookupParent (s : Vfs) (path : Str) : Option (Except Int (VnodePtr × Str) × Vfs) :=
  match splitLast path with
  | none => some (.error (-EINVAL), s)
  | some (front, name) => do
    match ← s.vfsLookup (if front = [] then [slash] else front) with
    | (.error e, s) => some (.error e, s)
    | (.ok parent, s) => some (.ok (parent, name), s)

/-! ## Calls with a path to a new or an old node -/

/-- The calls that look the directory up and leave the rest to the file system. -/
def inParent (s : Vfs) (path : Str) (op : Ramfs → Vnode → Str → Option (Int × Ramfs)) :
    Option (Int × Vfs) := do
  match ← s.vfsLookupParent path with
  | (.error e, s) => some (e, s)
  | (.ok (parent, name), s) => do
    let (e, ramfs) ← op s.ramfs (s.get parent) name
    some (e, { s with ramfs := ramfs })

/-- The status of `ramfs_create`; the new vnode is given up. -/
def created : Except Int Vnode × Ramfs → Int × Ramfs
  | (.ok _, r) => (EOK, r)
  | (.error e, r) => (e, r)

def vfsCreate (s : Vfs) (path : Str) (mode : Nat) : Option (Int × Vfs) :=
  s.inParent path fun r v name => (r.ramfsCreate s.rootVnode.path v name mode).map created

def vfsMkdir (s : Vfs) (path : Str) (mode : Nat) : Option (Int × Vfs) :=
  s.inParent path fun r v name => r.ramfsMkdir s.rootVnode.path v name mode

def vfsRmdir (s : Vfs) (path : Str) : Option (Int × Vfs) :=
  s.inParent path fun r v name => r.ramfsRmdir s.rootVnode.path v name

def vfsRemove (s : Vfs) (path : Str) : Option (Int × Vfs) :=
  s.inParent path fun r v name => r.ramfsRemove s.rootVnode.path v name

def vfsSymlink (s : Vfs) (target linkpath : Str) : Option (Int × Vfs) :=
  s.inParent linkpath fun r v name => r.ramfsSymlink s.rootVnode.path v name target

/-! ## Calls with a path to a node -/

/-- A vnode after a call that may change it. -/
def setVnode (s : Vfs) (u : VnodePtr) (v : Vnode) : VnodePtr × Vfs :=
  match u with
  | .root => (.root, { s with rootVnode := v })
  | .own _ => (.own v, s)

def vfsReadlink (s : Vfs) (path : Str) (size : Nat) : Option (Except Int Str × Vfs) := do
  match ← s.lookup path false with
  | (.error e, s) => some (.error e, s)
  | (.ok u, s) =>
    if (s.get u).vtype ≠ .link then some (.error (-EINVAL), s)
    else do
      let r ← s.ramfs.ramfsReadlink (s.get u) size
      some (r, s)

def vfsStat (s : Vfs) (path : Str) : Option (Except Int Stat × Vfs) := do
  match ← s.vfsLookup path with
  | (.error e, s) => some (.error e, s)
  | (.ok u, s) => do
    let r ← s.ramfs.ramfsGetattr s.rootVnode.path (s.get u)
    some (r, s)

def vfsSetstat (s : Vfs) (path : Str) (st : Stat) : Option (Int × Vfs) := do
  match ← s.vfsLookup path with
  | (.error e, s) => some (e, s)
  | (.ok u, s) => do
    let (e, v, ramfs) ← s.ramfs.ramfsSetattr (s.get u) st
    some (e, { (s.setVnode u v).2 with ramfs := ramfs })

/-! ## Open files -/

/-- `kfile_t`; `private` is the vnode. -/
structure Kfile where
  bufStart : Nat
  size : Nat
  flags : Nat
  offset : Nat
  vnode : VnodePtr
  deriving DecidableEq, Repr

/-- The part of `vfs_open` behind the lookup. -/
def openVnode (s : Vfs) (u : VnodePtr) (flags : Nat) : Option (Except Int Kfile × Vfs) := do
  match ← s.ramfs.ramfsOpen s.rootVnode.path (s.get u) flags with
  | .error e => some (.error e, s)
  | .ok (v, data, size) =>
    let (u, s) := s.setVnode u v
    some (.ok ⟨data, size, 0, 0, u⟩, s)

/-- The part of `vfs_open` that creates the file. -/
def openNew (s : Vfs) (path : Str) (flags : Nat) : Option (Except Int Kfile × Vfs) := do
  match ← s.vfsLookupParent path with
  | (.error e, s) => some (.error e, s)
  | (.ok (parent, name), s) => do
    let (created, ramfs) ← s.ramfs.ramfsCreate s.rootVnode.path (s.get parent) name flags
    match created with
    | .error e => some (.error e, { s with ramfs := ramfs })
    | .ok v => openVnode { s with ramfs := ramfs } (.own v) flags

def vfsOpen (s : Vfs) (path : Str) (flags : Nat) : Option (Except Int Kfile × Vfs) := do
  match ← s.vfsLookup path with
  | (.ok u, s) => s.openVnode u flags
  | (.error e, s) =>
    if e = -ENOENT ∧ flags &&& Ramfs.V_CREATE ≠ 0 then s.openNew path flags else some (.error e, s)

/-- `vfs_read`: the status and the buffer. -/
def vfsRead (s : Vfs) (u : VnodePtr) (size offset : Nat) : Option (Int × List UInt8) := do
  let r ← s.ramfs.ramfsRead (s.get u) size offset
  some (r.status, r.out)

/-- A `size_t` that is returned as an `int`. -/
def toInt (size : Nat) : Int := (BitVec.ofNat 32 size).toInt

def vfsWrite (s : Vfs) (u : VnodePtr) (buf : List UInt8) (offset : Nat) : Option (Int × Vfs) := do
  let (e, ramfs) ← s.ramfs.ramfsWrite (s.get u) buf offset
  some (if e ≠ EOK then e else toInt buf.length, { s with ramfs := ramfs })

/-- `vfs_close`; the vnode is given up. -/
def vfsClose (s : Vfs) (u : VnodePtr) : Int × Vfs :=
  let (e, v) := Ramfs.ramfsClose (s.get u)
  (e, (s.setVnode u v).2)

def vfsReaddir (s : Vfs) (u : VnodePtr) (count : Nat) : Option (Except Int (List Dirent)) :=
  if (s.get u).vtype ≠ .dir then some (.error (-ENOTDIR))
  else s.ramfs.ramfsReaddir s.rootVnode.path (s.get u) count

end Vfs

end Lapis.Fs
