/-
Lapis.Fs.VfsLocks — mounts, drivers and lookups of vfs.c with their locks.

Any number of file systems are mounted, in a list under `vfs_list_lock`; drivers are in a list under
`vfs_driver_list_lock`; every vnode has a lock for its references. Pointers are addresses, NULL is 0, and
what is at an address can be read after it is freed, since only the locks matter here. What a driver does
is a parameter, `FsOps`: it may change everything, and takes none of the locks (those of ramfs.c take
none). The static variable of `strtok` is handed from call to call as in Lapis.Fs.Vfs. The lock of the
kernel heap is left out.
-/
import Lapis.Fs.Vfs
import Lapis.Lib.Locking

namespace Lapis.Fs.Mounts

open Function Lib
open Lapis.Lib.Locked (acquire release call get modify attempt)
open Util
open Lapis.Fs.Vfs (betterMount MAX_SYMLINK_DEPTH)

inductive VfsLock
  | list
  | driverList
  | vnode (p : Nat)
  deriving DecidableEq

/-- `vnode_t`; `hasLookup` and `hasReadlink` say which operations there are. -/
structure MountVnode where
  path : Str
  vtype : VnodeType
  hasLookup : Bool
  hasReadlink : Bool
  vfsHere : Nat
  refcount : Nat

/-- `vfs_t`. -/
structure Mount where
  driver : Nat
  rootVnode : Nat
  hasUnmount : Bool

/-- `vfs_fs_driver_t`. -/
structure FsDriver where
  id : Nat
  name : Str
  hasMount : Bool

/-- The objects of the VFS, and what the drivers keep. -/
structure MountState (γ : Type) where
  vnodes : Nat → MountVnode
  mounts : Nat → Mount
  drivers : Nat → FsDriver
  vfsList : List Nat
  driverList : List Nat
  nextDriverId : Nat
  data : γ

/-- The operations of the drivers. -/
structure FsOps (γ : Type) where
  mount : Nat → Str → MountState γ → (Int × Nat) × MountState γ
  unmount : Nat → MountState γ → Unit × MountState γ
  lookup : Nat → Str → MountState γ → Except Int Nat × MountState γ
  readlink : Nat → MountState γ → Except Int Str × MountState γ

variable {γ : Type}

abbrev VfsM (γ : Type) := Locked VfsLock (MountState γ)

/-! ## Drivers -/

def vfsRegisterDriver (driver : Nat) : VfsM γ Int := do
  let s ← get
  if driver = 0 ∨ (s.drivers driver).name = [] ∨ ¬ (s.drivers driver).hasMount then pure (-EINVAL)
  else do
    acquire .driverList
    let s ← get
    if s.driverList.any fun d => (s.drivers d).name = (s.drivers driver).name then do
      release .driverList
      pure (-EEXIST)
    else do
      let id := s.nextDriverId
      modify fun s => { s with
        drivers := update s.drivers driver { s.drivers driver with id := id }
        driverList := driver :: s.driverList
        nextDriverId := (id + 1) % 2 ^ 16 }
      release .driverList
      pure id

def vfsUnregisterDriver (id : Nat) : VfsM γ Int := do
  acquire .driverList
  let s ← get
  match s.driverList.find? fun d => (s.drivers d).id = id with
  | some d => do
    modify fun s => { s with driverList := s.driverList.erase d }
    release .driverList
    pure 0
  | none => do
    release .driverList
    pure (-ENOENT)

def vfsFindDriverByName (name : Str) : VfsM γ Nat := do
  acquire .driverList
  let s ← get
  match s.driverList.find? fun d => (s.drivers d).name = name with
  | some d => do
    release .driverList
    pure d
  | none => do
    release .driverList
    pure 0

/-! ## Vnodes -/

/-- A change of the references of a vnode. -/
def setRefcount (p : Nat) (f : Nat → Nat) (s : MountState γ) : MountState γ :=
  { s with vnodes := update s.vnodes p { s.vnodes p with refcount := f (s.vnodes p).refcount } }

def vnodeRef (p : Nat) : VfsM γ Unit :=
  if p = 0 then pure ()
  else do
    acquire (.vnode p)
    modify (setRefcount p fun n => (n + 1) % 2 ^ 32)
    release (.vnode p)
    pure ()

/-- `vnode_unref`; the vnode is freed behind the lock. -/
def vnodeUnref (p : Nat) : VfsM γ Unit :=
  if p = 0 then pure ()
  else do
    acquire (.vnode p)
    modify (setRefcount p fun n => (n + (2 ^ 32 - 1)) % 2 ^ 32)
    release (.vnode p)
    pure ()

/-! ## Lookups -/

/-- The loop of `vfs_resolve_mount`. -/
def bestMount (s : MountState γ) (path : Str) : Option Nat × Nat :=
  s.vfsList.foldl (fun best v =>
    if (s.mounts v).rootVnode = 0 then best
    else betterMount path best v (s.vnodes (s.mounts v).rootVnode).path) (none, 0)

def vfsResolveMount (path : Str) : VfsM γ (Except Int (Nat × Str)) := do
  acquire .list
  let s ← get
  let best := bestMount s path
  release .list
  let s ← get
  match best with
  | (some v, len) => pure (.ok (v, (path.drop len).dropWhile (· = slash)))
  | (none, _) =>
    match s.vfsList with
    | v :: _ =>
      if path = [slash] then pure (.ok (v, (path.drop 1).dropWhile (· = slash)))
      else pure (.error (-ENOENT))
    | [] => pure (.error (-ENOENT))

/-- The vnode of a component, or the root of what is mounted there. -/
def crossMount (found : Nat) : VfsM γ Nat := do
  let s ← get
  if (s.vnodes found).vfsHere = 0 then pure found
  else do
    vnodeUnref found
    let s ← get
    let root := (s.mounts (s.vnodes found).vfsHere).rootVnode
    vnodeRef root
    pure root

/-- The vnode a link leads to takes the place of the link. -/
def useResolved (found resolved : Nat) : VfsM γ Unit :=
  if resolved = found then pure ()
  else do
    vnodeUnref found
    vnodeRef resolved

/-- The loop of `vfs_lookup_internal` over the components; `follow` is what it does with the vnode of a
component. -/
def lookupLoop (ops : FsOps γ) (follow : Nat → Strtok → VfsM γ (Except Int Nat × Strtok)) :
    Nat → Nat → Option Str → Strtok → VfsM γ (Except Int Nat × Strtok)
  | 0, _, _, _ => attempt fun _ => none
  | _ + 1, current, none, next => pure (.ok current, next.free)
  | rounds + 1, current, some component, next => do
    let s ← get
    if (s.vnodes current).vtype ≠ .dir then do
      vnodeUnref current
      pure (.error (-ENOTDIR), next.free)
    else if ¬ (s.vnodes current).hasLookup then do
      vnodeUnref current
      pure (.error (-ENOSYS), next.free)
    else do
      match ← call (ops.lookup current component) with
      | .error e => do
        vnodeUnref current
        pure (.error e, next.free)
      | .ok found => do
        let found ← crossMount found
        match ← follow found next with
        | (.error e, next) => do
          vnodeUnref found
          vnodeUnref current
          pure (.error e, next.free)
        | (.ok resolved, next) => do
          useResolved found resolved
          vnodeUnref current
          let (component, next) ← attempt fun _ => strtok next
          lookupLoop ops follow rounds resolved component next

/-- The vnode where a lookup starts. -/
def enterRoot (root : Nat) : VfsM γ Nat := do
  vnodeRef root
  let s ← get
  if (s.vnodes root).vfsHere = 0 then pure root
  else do
    let top := (s.mounts (s.vnodes root).vfsHere).rootVnode
    vnodeUnref root
    vnodeRef top
    pure top

/-- The body of `vfs_lookup_internal`; `follow` is what it does with the vnode of a component. -/
def lookupIn (ops : FsOps γ) (follow : Nat → Strtok → VfsM γ (Except Int Nat × Strtok)) (path : Str)
    (next : Strtok) : VfsM γ (Except Int Nat × Strtok) := do
  match ← vfsResolveMount path with
  | .error e => pure (.error e, next)
  | .ok (v, rel) => do
    let s ← get
    let root := (s.mounts v).rootVnode
    if rel = [] then do
      let out := if root ≠ 0 ∧ (s.vnodes root).vfsHere ≠ 0 then
        (s.mounts (s.vnodes root).vfsHere).rootVnode else root
      vnodeRef out
      pure (.ok out, next)
    else if root = 0 then pure (.error (-ENOENT), next)
    else do
      let current ← enterRoot root
      let (component, next) ← attempt fun _ => strtok (.at rel)
      lookupLoop ops follow (rel.length + 1) current component next

/-- `vfs_follow_symlink`, below the limit of its depth; `lookup` looks the text of the link up. -/
def vfsFollowSymlink (ops : FsOps γ) (lookup : Str → Strtok → VfsM γ (Except Int Nat × Strtok)) (v : Nat)
    (next : Strtok) : VfsM γ (Except Int Nat × Strtok) := do
  let s ← get
  if (s.vnodes v).vtype ≠ .link then pure (.ok v, next)
  else if ¬ (s.vnodes v).hasReadlink then pure (.error (-EINVAL), next)
  else do
    match ← call (ops.readlink v) with
    | .error e => pure (.error e, next)
    | .ok target => lookup target next

/-- `vfs_lookup_internal`; the first argument is MAX_SYMLINK_DEPTH - depth. A link takes two of it. -/
def vfsLookupInternal (ops : FsOps γ) :
    Nat → Str → Bool → Strtok → VfsM γ (Except Int Nat × Strtok)
  | 0, _, _, next => pure (.error (-ELOOP), next)
  | 1, path, followSymlinks, next =>
    lookupIn ops (fun v next => pure (if followSymlinks then .error (-ELOOP) else .ok v, next)) path next
  | left + 2, path, followSymlinks, next =>
    lookupIn ops (fun v next =>
      if followSymlinks then
        vfsFollowSymlink ops (fun target => vfsLookupInternal ops left target false) v next
      else pure (.ok v, next)) path next

def vfsLookup (ops : FsOps γ) (path : Str) (next : Strtok) : VfsM γ (Except Int Nat × Strtok) :=
  vfsLookupInternal ops MAX_SYMLINK_DEPTH path true next

/-! ## Mounts -/

def vfsAppend (v : Nat) : VfsM γ Int := do
  acquire .list
  modify fun s => { s with vfsList := s.vfsList ++ [v] }
  release .list
  pure EOK

/-- The `unmount` operation of a file system, if it has one. -/
def unmountFs (ops : FsOps γ) (v : Nat) : VfsM γ Unit := do
  let s ← get
  if (s.mounts v).hasUnmount then call (ops.unmount v) else pure ()

/-- A file system that cannot be mounted is given up. -/
def dropMount (ops : FsOps γ) (v : Nat) : VfsM γ Nat := do
  unmountFs ops v
  let s ← get
  vnodeUnref (s.mounts v).rootVnode
  pure 0

/-- `vfs_mount`: the file system, or NULL. -/
def vfsMount (ops : FsOps γ) (fstype path : Str) (next : Strtok) : VfsM γ Nat := do
  let driver ← vfsFindDriverByName fstype
  if driver = 0 then pure 0
  else do
    let (res, v) ← call (ops.mount driver path)
    if res ≠ EOK ∨ v = 0 then pure 0
    else do
      modify fun s => { s with mounts := update s.mounts v { s.mounts v with driver := driver } }
      let s ← get
      if (s.mounts v).rootVnode = 0 then do
        unmountFs ops v
        pure 0
      else if path = [slash] then do
        let _ ← vfsAppend v
        pure v
      else do
        match ← vfsLookup ops path next with
        | (.error _, _) => do
          let s ← get
          if s.vfsList = [] then do
            let _ ← vfsAppend v
            pure v
          else dropMount ops v
        | (.ok mountPoint, _) => do
          let s ← get
          if (s.vnodes mountPoint).vtype ≠ .dir then do
            vnodeUnref mountPoint
            dropMount ops v
          else do
            modify fun s => { s with
              vnodes := update s.vnodes mountPoint { s.vnodes mountPoint with vfsHere := v } }
            vnodeUnref mountPoint
            let _ ← vfsAppend v
            pure v

/-- The file system that `vfs_unmount` looks for. -/
def mountedAt (s : MountState γ) (path : Str) : Option Nat :=
  s.vfsList.find? fun v =>
    (s.mounts v).rootVnode ≠ 0 ∧ (s.vnodes (s.mounts v).rootVnode).path = path

/-- The vnode below a mount forgets it. -/
def leaveMountPoint (ops : FsOps γ) (path : Str) (next : Strtok) : VfsM γ Unit :=
  if path = [slash] then pure ()
  else do
    match ← vfsLookup ops path next with
    | (.error _, _) => pure ()
    | (.ok mountPoint, _) => do
      modify fun s => { s with
        vnodes := update s.vnodes mountPoint { s.vnodes mountPoint with vfsHere := 0 } }
      vnodeUnref mountPoint

def vfsUnmount (ops : FsOps γ) (path : Str) (next : Strtok) : VfsM γ Int := do
  acquire .list
  let s ← get
  match mountedAt s path with
  | none => do
    release .list
    pure (-ENOENT)
  | some v => do
    leaveMountPoint ops path next
    unmountFs ops v
    modify fun s => { s with vfsList := s.vfsList.erase v }
    let s ← get
    vnodeUnref (s.mounts v).rootVnode
    release .list
    pure EOK

/-! ## Calls -/

inductive LockCall
  | mount (fstype path : Str)
  | unmount (path : Str)
  | append (v : Nat)
  | lookup (path : Str)
  | resolveMount (path : Str)
  | registerDriver (driver : Nat)
  | unregisterDriver (id : Nat)

/-- A call, of which only the locks are of interest. -/
def runCall (ops : FsOps γ) (next : Strtok) : LockCall → VfsM γ Unit
  | .mount fstype path => do
    let _ ← vfsMount ops fstype path next
    pure ()
  | .unmount path => do
    let _ ← vfsUnmount ops path next
    pure ()
  | .append v => do
    let _ ← vfsAppend v
    pure ()
  | .lookup path => do
    let _ ← vfsLookup ops path next
    pure ()
  | .resolveMount path => do
    let _ ← vfsResolveMount path
    pure ()
  | .registerDriver driver => do
    let _ ← vfsRegisterDriver driver
    pure ()
  | .unregisterDriver id => do
    let _ ← vfsUnregisterDriver id
    pure ()

end Lapis.Fs.Mounts
