/-
Lapis.Fs.Ramfs — the ramfs (ramfs.c).

The nodes are records in a store that says for every address whether there is a node; an access to an
address without one has no result. The data of a node are a pointer into the kernel heap: the contents
of a file, or the text of a symlink. Names and paths are strings (Lapis.Util.Strings). `kzalloc` takes
the addresses of nodes from a list given in advance; the source does not test its result, so there is no
result either when the address is NULL or not free. The loops along siblings end within 2^64 rounds or
run in a cycle.

The checks for NULL of arguments and of `vfs_data` are left out. `ramfs_open` calls `ramfs_node_add` only
for a vnode without a node whose path is not found, which no lookup gives; there is no result then.
-/
import Lapis.Fs.RamfsFile
import Lapis.Util.Strings

namespace Lapis.Fs

open Function Mm Util

/-! ## Nodes -/

inductive RamfsType
  | file
  | directory
  | symlink
  deriving DecidableEq, Repr

/-- `ramfs_node_t`. -/
structure RamfsNode where
  name : Str
  type : RamfsType
  size : Nat
  data : Nat
  mode : Nat
  sibling : Nat
  child : Nat
  deriving DecidableEq, Repr

structure Ramfs where
  nodes : Nat → Option RamfsNode
  rootNode : Nat
  fresh : List Nat
  heap : Kheap

def S_IFDIR : Nat := 0o040000
def S_IFREG : Nat := 0o100000
def S_IFLNK : Nat := 0o120000

/-! ## vnodes -/

/-- The types of vnodes that a ramfs has. -/
inductive VnodeType
  | regular
  | dir
  | link
  deriving DecidableEq, Repr

/-- `vnode_t`, without `vfs_here`, which stays NULL when one file system is mounted. -/
structure Vnode where
  path : Str
  vtype : VnodeType
  nodeData : Nat
  uid : Nat
  gid : Nat
  mode : Nat
  deriving DecidableEq, Repr

def RamfsType.vtype : RamfsType → VnodeType
  | .file => .regular
  | .directory => .dir
  | .symlink => .link

/-- The path of a name in a directory. -/
def childPath (parent name : Str) : Str :=
  if parent.getLast? = some slash then parent ++ name else parent ++ slash :: name

namespace Ramfs

def setNode (r : Ramfs) (p : Nat) (n : RamfsNode) : Ramfs :=
  { r with nodes := update r.nodes p (some n) }

def freeNode (r : Ramfs) (p : Nat) : Ramfs := { r with nodes := update r.nodes p none }

/-- `ramfs_create_node`. -/
def ramfsCreateNode (r : Ramfs) (type : RamfsType) : Option (Nat × Ramfs) :=
  let mode :=
    match type with
    | .directory => S_IFDIR ||| 0o755
    | .file => S_IFREG ||| 0o644
    | .symlink => S_IFLNK ||| 0o777
  match r.fresh with
  | p :: fresh =>
    if p ≠ 0 ∧ p < 2 ^ 64 ∧ r.nodes p = none then
      some (p, { r with
        nodes := update r.nodes p (some ⟨[], type, 0, 0, mode, 0, 0⟩)
        fresh := fresh })
    else none
  | [] => none

/-! ## Searches -/

/-- The first of the siblings from `p` on with the name, or NULL. -/
def findSibling (r : Ramfs) (name : Str) : Nat → Nat → Option Nat
  | 0, _ => none
  | rounds + 1, p =>
    if p = 0 then some 0
    else do
      let n ← r.nodes p
      if n.name = name then some p else r.findSibling name rounds n.sibling

/-- The loop of `ramfs_find_node`, from the first child of a directory. -/
def findNames (r : Ramfs) : Nat → List Str → Option Nat
  | _, [] => some 0
  | first, name :: names => do
    let found ← r.findSibling name (2 ^ 64) first
    if found = 0 ∨ names = [] then some found
    else do
      let n ← r.nodes found
      r.findNames n.child names

/-- `ramfs_find_node`; NULL if there is none. The tokens of `strtok_r` are the names of the path. -/
def ramfsFindNode (r : Ramfs) (path : Str) : Option Nat :=
  let path := if path.head? = some slash then path.tail else path
  if path = [] then some r.rootNode
  else do
    let root ← r.nodes r.rootNode
    r.findNames root.child (components path)

/-- The node of a vnode, through its path if it has none; NULL if there is none. -/
def nodeOf (r : Ramfs) (rootPath : Str) (v : Vnode) : Option Nat :=
  if v.nodeData ≠ 0 then some v.nodeData
  else
    let rel := v.path.drop rootPath.length
    let rel := if rel.head? = some slash then rel.tail else rel
    if rel = [] then some r.rootNode else r.ramfsFindNode rel

/-- The node of a vnode, if it is a directory. -/
def dirOf (r : Ramfs) (rootPath : Str) (v : Vnode) : Option (Except Int (Nat × RamfsNode)) := do
  let p ← r.nodeOf rootPath v
  if p = 0 then some (.error ENOTDIR)
  else do
    let n ← r.nodes p
    if n.type ≠ .directory then some (.error ENOTDIR) else some (.ok (p, n))

/-! ## ramfs_lookup -/

def ramfsLookup (r : Ramfs) (rootPath : Str) (parent : Vnode) (name : Str) :
    Option (Except Int Vnode) := do
  let p ← r.nodeOf rootPath parent
  if p = 0 then some (.error ENOENT)
  else do
    let n ← r.nodes p
    if n.type ≠ .directory then some (.error ENOTDIR)
    else do
      let c ← r.findSibling name (2 ^ 64) n.child
      if c = 0 then some (.error ENOENT)
      else do
        let child ← r.nodes c
        some (.ok ⟨childPath parent.path name, child.type.vtype, c, 0, 0, child.mode⟩)

/-! ## New nodes -/

/-- The loop of `ramfs_append_child`: the last of the siblings from `p` on gets the sibling `c`. -/
def appendFrom (r : Ramfs) (c : Nat) : Nat → Nat → Option Ramfs
  | 0, _ => none
  | rounds + 1, p => do
    let n ← r.nodes p
    if n.sibling = 0 then some (r.setNode p { n with sibling := c })
    else r.appendFrom c rounds n.sibling

def ramfsAppendChild (r : Ramfs) (parent c : Nat) : Option Ramfs := do
  let n ← r.nodes parent
  if n.child = 0 then some (r.setNode parent { n with child := c })
  else r.appendFrom c (2 ^ 64) n.child

/-- What `ramfs_mkdir`, `ramfs_create` and `ramfs_symlink` have in common: a new node of a type in a
directory that has none of its name, with the fields that `init` gives it. -/
def addNode (r : Ramfs) (rootPath : Str) (parent : Vnode) (name : Str) (type : RamfsType)
    (init : RamfsNode → Ramfs → Option (RamfsNode × Ramfs)) : Option (Except Int Nat × Ramfs) := do
  match ← r.dirOf rootPath parent with
  | .error e => some (.error e, r)
  | .ok (p, n) => do
    let c ← r.findSibling name (2 ^ 64) n.child
    if c ≠ 0 then some (.error EEXIST, r)
    else do
      let (c, r) ← r.ramfsCreateNode type
      let created ← r.nodes c
      let (created, r) ← init { created with name := name } r
      let r ← (r.setNode c created).ramfsAppendChild p c
      some (.ok c, r)

/-- The status of a call that makes a node. -/
def status : Except Int Nat × Ramfs → Int × Ramfs
  | (.ok _, r) => (EOK, r)
  | (.error e, r) => (e, r)

def ramfsMkdir (r : Ramfs) (rootPath : Str) (parent : Vnode) (name : Str) (mode : Nat) :
    Option (Int × Ramfs) :=
  (r.addNode rootPath parent name .directory fun n r =>
    some ({ n with mode := S_IFDIR ||| mode &&& 0o777 }, r)).map status

def ramfsCreate (r : Ramfs) (rootPath : Str) (parent : Vnode) (name : Str) (mode : Nat) :
    Option (Except Int Vnode × Ramfs) := do
  let (c, r) ← r.addNode rootPath parent name .file fun n r =>
    some ({ n with size := 0, data := 0, mode := S_IFREG ||| mode }, r)
  match c with
  | .error e => some (.error e, r)
  | .ok c => some (.ok ⟨childPath parent.path name, .regular, c, 0, 0, S_IFREG ||| mode⟩, r)

/-- `strdup`, to the kernel heap; NULL if there is no room. -/
def strdup (r : Ramfs) (s : Str) : Option (Nat × Ramfs) := do
  let (p, heap) ← r.heap.kzalloc (s.length + 1)
  if p = 0 then some (0, { r with heap := heap })
  else some (p, { r with heap := heap.modMem (·.put p (s ++ [0])) })

def ramfsSymlink (r : Ramfs) (rootPath : Str) (parent : Vnode) (name target : Str) :
    Option (Int × Ramfs) :=
  (r.addNode rootPath parent name .symlink fun n r => do
    let (data, r) ← r.strdup target
    some ({ n with size := target.length + 1, data := data }, r)).map status

/-! ## Removed nodes -/

/-- The node `c` behind `prev`, or at the head of the children of `parent`, is taken out. -/
def unlinkNode (r : Ramfs) (parent prev c : Nat) : Option Ramfs := do
  let n ← r.nodes c
  if prev = 0 then do
    let p ← r.nodes parent
    some (r.setNode parent { p with child := n.sibling })
  else do
    let p ← r.nodes prev
    some (r.setNode prev { p with sibling := n.sibling })

/-- The loop of `ramfs_rmdir` and `ramfs_remove`: `refuse` says which nodes are not removed, and with
which error, and `drop` frees what a node holds. -/
def removeFrom (r : Ramfs) (refuse : RamfsNode → Option Int) (drop : RamfsNode → Kheap → Option Kheap)
    (parent : Nat) (name : Str) : Nat → Nat → Nat → Option (Int × Ramfs)
  | 0, _, _ => none
  | rounds + 1, prev, c =>
    if c = 0 then some (ENOENT, r)
    else do
      let n ← r.nodes c
      if n.name = name then
        match refuse n with
        | some e => some (e, r)
        | none => do
          let r ← r.unlinkNode parent prev c
          let heap ← drop n r.heap
          some (EOK, { r.freeNode c with heap := heap })
      else r.removeFrom refuse drop parent name rounds c n.sibling

def removeNode (r : Ramfs) (rootPath : Str) (parent : Vnode) (name : Str)
    (refuse : RamfsNode → Option Int) (drop : RamfsNode → Kheap → Option Kheap) :
    Option (Int × Ramfs) := do
  match ← r.dirOf rootPath parent with
  | .error e => some (e, r)
  | .ok (p, n) => r.removeFrom refuse drop p name (2 ^ 64) 0 n.child

/-- What `ramfs_rmdir` does not remove. -/
def rmdirRefuses (n : RamfsNode) : Option Int :=
  if n.type ≠ .directory then some ENOTDIR else if n.child ≠ 0 then some ENOTEMPTY else none

def ramfsRmdir (r : Ramfs) (rootPath : Str) (parent : Vnode) (name : Str) : Option (Int × Ramfs) :=
  r.removeNode rootPath parent name rmdirRefuses fun _ heap => some heap

/-- What `ramfs_remove` does not remove. -/
def removeRefuses (n : RamfsNode) : Option Int := if n.type = .directory then some EISDIR else none

def freeData (n : RamfsNode) (heap : Kheap) : Option Kheap :=
  if n.data ≠ 0 then heap.kfree n.data else some heap

def ramfsRemove (r : Ramfs) (rootPath : Str) (parent : Vnode) (name : Str) : Option (Int × Ramfs) :=
  r.removeNode rootPath parent name removeRefuses freeData

/-! ## Links and attributes -/

/-- The string at an address. -/
def cstr (mem : Lapis.Lib.ByteMemory) : Nat → Nat → Option Str
  | 0, _ => none
  | rounds + 1, a =>
    if mem (a % 2 ^ 64) = 0 then some []
    else (cstr mem rounds (a + 1)).map (mem (a % 2 ^ 64) :: ·)

/-- `ramfs_readlink`: the text of the link, cut to the buffer; a size of 0 cuts nothing. -/
def ramfsReadlink (r : Ramfs) (v : Vnode) (size : Nat) : Option (Except Int Str) :=
  if v.vtype ≠ .link then some (.error EINVAL)
  else if v.nodeData = 0 then some (.error EINVAL)
  else do
    let n ← r.nodes v.nodeData
    if n.type ≠ .symlink then some (.error EINVAL)
    else if n.data = 0 then some (.error EINVAL)
    else do
      let target ← cstr r.heap.mem (2 ^ 64) n.data
      some (.ok (target.take ((size + (2 ^ 64 - 1)) % 2 ^ 64)))

/-- `stat_t`; the times are 0. -/
structure Stat where
  dev : Nat
  ino : Nat
  nlink : Nat
  mode : Nat
  uid : Nat
  gid : Nat
  rdev : Nat
  size : Nat
  blksize : Nat
  blocks : Nat
  deriving DecidableEq, Repr

def ramfsGetattr (r : Ramfs) (rootPath : Str) (v : Vnode) : Option (Except Int Stat) := do
  let p ← r.nodeOf rootPath v
  if p = 0 then some (.error EFAULT)
  else do
    let n ← r.nodes p
    some (.ok ⟨1, p, 1, n.mode, v.uid, v.gid, 0, n.size, 4096, (n.size + 4095) % 2 ^ 64 / 4096⟩)

/-- `ramfs_setattr`: the status, the vnode and the nodes. -/
def ramfsSetattr (r : Ramfs) (v : Vnode) (st : Stat) : Option (Int × Vnode × Ramfs) :=
  if v.nodeData = 0 then some (EFAULT, v, r)
  else do
    let n ← r.nodes v.nodeData
    some (EOK, { v with uid := st.uid, gid := st.gid }, r.setNode v.nodeData { n with mode := st.mode })

/-- An entry of `ramfs_readdir`: the node, the type and the name, cut to 255 bytes. -/
structure Dirent where
  ino : Nat
  off : Nat
  type : VnodeType
  name : Str
  deriving DecidableEq, Repr

/-- The loop of `ramfs_readdir`. -/
def readdirFrom (r : Ramfs) (max : Nat) : Nat → Nat → Nat → Option (List Dirent)
  | 0, _, _ => none
  | rounds + 1, idx, c =>
    if c = 0 ∨ max ≤ idx then some []
    else do
      let n ← r.nodes c
      let entries ← r.readdirFrom max rounds (idx + 1) n.sibling
      some (⟨c, idx + 1, n.type.vtype, n.name.take 255⟩ :: entries)

def ramfsReaddir (r : Ramfs) (rootPath : Str) (v : Vnode) (count : Nat) :
    Option (Except Int (List Dirent)) :=
  if v.vtype ≠ .dir then some (.error ENOTDIR)
  else do
    match ← r.dirOf rootPath v with
    | .error e => some (.error e)
    | .ok (_, n) => (r.readdirFrom count (2 ^ 64) 0 n.child).map .ok

/-! ## Open files -/

def V_CREATE : Nat := 1
def V_DIR : Nat := 1 <<< 5

/-- `ramfs_open`: the vnode gets its node, and the file its data and size. -/
def ramfsOpen (r : Ramfs) (rootPath : Str) (v : Vnode) (flags : Nat) :
    Option (Except Int (Vnode × Nat × Nat)) := do
  let rel := v.path.drop rootPath.length
  let rel := if rel.head? = some slash then rel.tail else rel
  let p ← if v.nodeData ≠ 0 then some v.nodeData else r.ramfsFindNode rel
  if p = 0 then if flags &&& V_CREATE = 0 then some (.error ENOENT) else none
  else do
    let n ← r.nodes p
    if n.type ≠ .directory then some (.ok ({ v with nodeData := p }, n.data, n.size))
    else some (.ok ({ v with nodeData := p }, 0, 0))

/-- `ramfs_close`. -/
def ramfsClose (v : Vnode) : Int × Vnode :=
  if v.nodeData = 0 then (EFAULT, v) else (EOK, { v with nodeData := 0 })

/-- The contents of a node. -/
def file (r : Ramfs) (n : RamfsNode) : RamfsFile := ⟨r.heap, n.size, n.data⟩

/-- `ramfs_read` of a vnode. -/
def ramfsRead (r : Ramfs) (v : Vnode) (bytes offset : Nat) : Option RamfsFile.ReadResult :=
  if v.nodeData = 0 then some ⟨-EFAULT, bytes, List.replicate bytes 0⟩
  else do
    let n ← r.nodes v.nodeData
    some ((r.file n).ramfsRead bytes offset)

/-- `ramfs_write` of a vnode. -/
def ramfsWrite (r : Ramfs) (v : Vnode) (buf : List UInt8) (offset : Nat) : Option (Int × Ramfs) :=
  if v.nodeData = 0 then some (EFAULT, r)
  else do
    let n ← r.nodes v.nodeData
    let f ← (r.file n).ramfsWrite buf offset
    some (EOK, { r.setNode v.nodeData { n with size := f.size, data := f.data } with heap := f.heap })

end Ramfs

end Lapis.Fs
