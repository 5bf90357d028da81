/-
Lapis.Mm.Kheap — the kernel heap (kheap.c).

A slab is a page that begins with its header; the objects follow, and a free object holds the pointer
to the next one in its first eight bytes. All of it lies in one byte memory, so that a header or a
free list is overwritten when somebody writes there. Addresses are those of the direct map, in which
a page of the physical memory manager is a page, and a page is known by its number.

The page allocator is an oracle: its replies are given in advance, and a reply that names a page in
the heap's hands counts as NULL. `held` are the pages it has handed out and not got back. `slabs` and
`live` are not in the source: the slabs from their creation to their destruction, and the blocks that
callers own until the heap takes them back, each with the extent of its object or, for a big block,
of its pages behind the header.

A function that may run for ever, or that leaves the array of caches, returns `none` in that case. The
lock is left out.
-/
import Lapis.Lib.ByteMemory
import Lapis.Lib.Run
import Lapis.Mm.Pmm

namespace Lapis.Mm

open Function Lib

/-! ## Slabs -/

def kheapAlign : Nat := 16
def slabMagic : Nat := 0x534C4142
def bigCacheIndex : Nat := 0xFFFF

/-- `ALIGN_UP(x, a)`, and `align_up_uintptr` for a power of two. -/
def alignUpTo (a x : Nat) : Nat := (x + (a - 1)) % 2 ^ 64 / a * a

/-- `slab_t`. -/
structure Slab where
  next : Nat
  freeList : Nat
  magic : Nat
  objectSize : Nat
  capacity : Nat
  freeCount : Nat
  cacheIndex : Nat
  npages : Nat
  deriving DecidableEq, Repr

namespace Slab

/-- `sizeof(slab_t)`. -/
def sizeof : Nat := 32

def read (mem : ByteMemory) (p : Nat) : Slab where
  next := mem.load p 8
  freeList := mem.load (p + 8) 8
  magic := mem.load (p + 16) 4
  objectSize := mem.load (p + 20) 2
  capacity := mem.load (p + 22) 2
  freeCount := mem.load (p + 24) 2
  cacheIndex := mem.load (p + 26) 2
  npages := mem.load (p + 28) 4

def setNext (mem : ByteMemory) (p v : Nat) : ByteMemory := mem.store p 8 v
def setFreeList (mem : ByteMemory) (p v : Nat) : ByteMemory := mem.store (p + 8) 8 v
def setMagic (mem : ByteMemory) (p v : Nat) : ByteMemory := mem.store (p + 16) 4 v
def setObjectSize (mem : ByteMemory) (p v : Nat) : ByteMemory := mem.store (p + 20) 2 v
def setCapacity (mem : ByteMemory) (p v : Nat) : ByteMemory := mem.store (p + 22) 2 v
def setFreeCount (mem : ByteMemory) (p v : Nat) : ByteMemory := mem.store (p + 24) 2 v
def setCacheIndex (mem : ByteMemory) (p v : Nat) : ByteMemory := mem.store (p + 26) 2 v
def setNpages (mem : ByteMemory) (p v : Nat) : ByteMemory := mem.store (p + 28) 4 v

end Slab

/-- `slab_cache_t`; the object size is the same for ever. -/
structure Cache where
  slabs : Nat
  slabCount : Nat
  deriving DecidableEq, Repr

def cacheSizes : List Nat := [16, 32, 64, 128, 256, 512, 1024, 2048]

def cacheSize (i : Fin 8) : Nat := cacheSizes.get ⟨i, i.isLt⟩

/-- A block a caller owns: its address and its extent. -/
structure Block where
  ptr : Nat
  size : Nat
  deriving DecidableEq, Repr

structure Kheap where
  mem : ByteMemory
  caches : Fin 8 → Cache
  replies : List (Option Nat)
  held : Nat → Bool
  slabs : List Nat
  live : List Block

namespace Kheap

/-- `kheap_init`. -/
def kheapInit (mem : ByteMemory) (replies : List (Option Nat)) : Kheap where
  mem := mem
  caches := fun _ => ⟨0, 0⟩
  replies := replies
  held := fun _ => false
  slabs := []
  live := []

def slab (s : Kheap) (p : Nat) : Slab := Slab.read s.mem p

def modMem (s : Kheap) (f : ByteMemory → ByteMemory) : Kheap := { s with mem := f s.mem }

/-! ## Pages -/

/-- The pages are some, they lie between the first and the last page of the address space, which no
direct map reaches, and the heap has none of them. -/
def FreePages (s : Kheap) (page count : Nat) : Prop :=
  0 < count ∧ 0 < page ∧ page + count < 2 ^ 52 ∧ ∀ i < count, s.held (page + i) = false

instance (s : Kheap) (page count : Nat) : Decidable (s.FreePages page count) :=
  inferInstanceAs (Decidable (_ ∧ _ ∧ _ ∧ _))

/-- `pmm_alloc_pages` and, for one page, `pmm_alloc_page`: the address of the first page. -/
def pmmAllocPages (s : Kheap) (count : Nat) : Option Nat × Kheap :=
  match s.replies with
  | some page :: replies =>
    if s.FreePages page count then
      (some (page * pageSize), { s with
        replies := replies
        held := fun q => s.held q || decide (page ≤ q ∧ q < page + count) })
    else (none, { s with replies := replies })
  | none :: replies => (none, { s with replies := replies })
  | [] => (none, s)

/-- `pmm_pages_release` and, for one page, `pmm_page_release`. -/
def pmmPagesRelease (s : Kheap) (addr count : Nat) : Kheap :=
  { s with held := fun q =>
      s.held q && !decide (addr / pageSize ≤ q ∧ q < addr / pageSize + count) }

/-! ## slab_create and slab_destroy -/

/-- The loop of `slab_create`: the first `n` objects are put on the free list. -/
def freeObjects (p objStart size : Nat) : Nat → ByteMemory → ByteMemory
  | 0, mem => mem
  | n + 1, mem =>
    let mem := freeObjects p objStart size n mem
    let obj := objStart + n * size
    Slab.setFreeList (mem.store obj 8 (Slab.read mem p).freeList) p obj

def slabCreate (s : Kheap) (i : Fin 8) : Option Nat × Kheap :=
  match s.pmmAllocPages 1 with
  | (none, s) => (none, s)
  | (some p, s) =>
    let s := s.modMem fun mem =>
      let mem := mem.fill p 0 pageSize
      let mem := Slab.setMagic mem p slabMagic
      let mem := Slab.setObjectSize mem p (cacheSize i)
      let mem := Slab.setCacheIndex mem p i
      Slab.setNpages mem p 1
    let objStart := alignUpTo kheapAlign (p + Slab.sizeof)
    let objEnd := p + pageSize
    if objEnd ≤ objStart then (none, s.pmmPagesRelease p 1)
    else
      let capacity := (objEnd - objStart) / cacheSize i % 2 ^ 16
      if capacity = 0 then (none, s.pmmPagesRelease p 1)
      else
        let s := s.modMem fun mem =>
          let mem := Slab.setCapacity mem p capacity
          let mem := Slab.setFreeCount mem p capacity
          let mem := Slab.setFreeList mem p 0
          freeObjects p objStart (cacheSize i) capacity mem
        (some p, { s with slabs := p :: s.slabs })

/-- A caller gives a block up. -/
def dropBlock (s : Kheap) (ptr : Nat) : Kheap := { s with live := s.live.filter (·.ptr ≠ ptr) }

def slabDestroy (s : Kheap) (p : Nat) : Kheap :=
  let npages := (s.slab p).npages
  let s := { s with slabs := s.slabs.erase p }
  if 1 < npages then s.pmmPagesRelease p npages else s.pmmPagesRelease p 1

/-! ## Caches -/

def cacheForSize (size : Nat) : Option (Fin 8) := (List.finRange 8).find? (size ≤ cacheSize ·)

def setCache (s : Kheap) (i : Fin 8) (c : Cache) : Kheap := { s with caches := update s.caches i c }

def cacheAddSlab (s : Kheap) (i : Fin 8) (p : Nat) : Kheap :=
  let c := s.caches i
  (s.modMem (Slab.setNext · p c.slabs)).setCache i ⟨p, (c.slabCount + 1) % 2 ^ 32⟩

/-- The slab `p` behind `prev`, or at the head of the list, is taken out. -/
def unlinkSlab (s : Kheap) (i : Fin 8) (prev p : Nat) : Kheap :=
  let next := (s.slab p).next
  let c := s.caches i
  let count := if 0 < c.slabCount then c.slabCount - 1 else c.slabCount
  let s :=
    if prev ≠ 0 then (s.modMem (Slab.setNext · prev next)).setCache i ⟨c.slabs, count⟩
    else s.setCache i ⟨next, count⟩
  s.modMem (Slab.setNext · p 0)

/-- The loop of `cache_remove_slab`. Pointers are below 2^64, so a loop that is not done after 2^64
rounds is in a cycle. -/
def cacheRemoveFrom (i : Fin 8) (p : Nat) : Nat → Nat → Nat → Kheap → Option Kheap
  | 0, _, _, _ => none
  | rounds + 1, prev, cur, s =>
    if cur = 0 then some s
    else if cur = p then some (s.unlinkSlab i prev p)
    else cacheRemoveFrom i p rounds cur (s.slab cur).next s

def cacheRemoveSlab (s : Kheap) (i : Fin 8) (p : Nat) : Option Kheap :=
  cacheRemoveFrom i p (2 ^ 64) 0 (s.caches i).slabs s

/-! ## kmalloc -/

/-- The branch of `kmalloc` for sizes above all caches. -/
def kmallocBig (s : Kheap) (size : Nat) : Nat × Kheap :=
  let total := (Slab.sizeof + kheapAlign + size) % 2 ^ 64
  let npages := alignUpTo pageSize total / pageSize
  match s.pmmAllocPages npages with
  | (none, s) => (0, s)
  | (some p, s) =>
    let s := s.modMem fun mem =>
      let mem := mem.fill p 0 (npages * pageSize)
      let mem := Slab.setMagic mem p slabMagic
      let mem := Slab.setObjectSize mem p (if 0xFFFF < size then 0xFFFF else size)
      let mem := Slab.setCacheIndex mem p bigCacheIndex
      let mem := Slab.setCapacity mem p 1
      let mem := Slab.setFreeCount mem p 0
      let mem := Slab.setFreeList mem p 0
      let mem := Slab.setNext mem p 0
      Slab.setNpages mem p npages
    let obj := alignUpTo kheapAlign (p + Slab.sizeof)
    (obj, { s with
      slabs := p :: s.slabs
      live := ⟨obj, npages * pageSize - Slab.sizeof⟩ :: s.live })

/-- The loop that looks for a slab with a free object. -/
def findSlab (mem : ByteMemory) : Nat → Nat → Option Nat
  | 0, _ => none
  | rounds + 1, p =>
    if p = 0 then some 0
    else if (Slab.read mem p).freeList ≠ 0 then some p
    else findSlab mem rounds (Slab.read mem p).next

/-- The slab an object is taken from, a new one if no slab of the cache has a free object. -/
def slabFor (s : Kheap) (i : Fin 8) : Option (Option Nat × Kheap) := do
  let p ← findSlab s.mem (2 ^ 64) (s.caches i).slabs
  if p ≠ 0 then some (some p, s)
  else
    match s.slabCreate i with
    | (none, s) => some (none, s)
    | (some p, s) => some (some p, s.cacheAddSlab i p)

/-- The first object of a free list is taken off; a pointer below 0x1000 in it ends the list. -/
def popObject (mem : ByteMemory) (p obj : Nat) : ByteMemory :=
  let next := mem.load obj 8
  let mem := Slab.setFreeList mem p (if next ≠ 0 ∧ next < 0x1000 then 0 else next)
  let freeCount := (Slab.read mem p).freeCount
  if 0 < freeCount then Slab.setFreeCount mem p (freeCount - 1) else mem

def kmallocSmall (s : Kheap) (i : Fin 8) : Option (Nat × Kheap) := do
  match ← s.slabFor i with
  | (none, s) => some (0, s)
  | (some p, s) =>
    let obj := (s.slab p).freeList
    if obj < 0x1000 then some (0, s)
    else do
      let s : Kheap :=
        { s.modMem (popObject · p obj) with live := ⟨obj, cacheSize i⟩ :: s.live }
      let s ← if (s.slab p).freeCount = 0 then s.cacheRemoveSlab i p else some s
      some (obj, s)

def kmalloc (s : Kheap) (size : Nat) : Option (Nat × Kheap) :=
  if size = 0 then some (0, s)
  else
    let size := alignUpTo kheapAlign size
    match cacheForSize size with
    | none => some (s.kmallocBig size)
    | some i => s.kmallocSmall i

def kzalloc (s : Kheap) (size : Nat) : Option (Nat × Kheap) := do
  let (ptr, s) ← s.kmalloc size
  if ptr = 0 then some (0, s) else some (ptr, s.modMem (·.fill ptr 0 size))

/-! ## kfree and krealloc -/

/-- An object goes back on the free list of its slab. -/
def pushObject (mem : ByteMemory) (p obj : Nat) : ByteMemory :=
  let mem := Slab.setFreeList (mem.store obj 8 (Slab.read mem p).freeList) p obj
  let slab := Slab.read mem p
  if slab.freeCount < slab.capacity then Slab.setFreeCount mem p (slab.freeCount + 1) else mem

/-- `page_base`. -/
def pageBase (ptr : Nat) : Nat := ptr / pageSize * pageSize

/-- The part of `kfree` under the lock for an object of a cache. -/
def freeObject (s : Kheap) (i : Fin 8) (p ptr : Nat) : Option Kheap :=
  let s := if (s.slab p).freeCount = 0 then s.cacheAddSlab i p else s
  let s := (s.modMem (pushObject · p ptr)).dropBlock ptr
  let slab := s.slab p
  if slab.freeCount = slab.capacity ∧ 1 < (s.caches i).slabCount then
    (s.cacheRemoveSlab i p).map (·.slabDestroy p)
  else some s

def kfree (s : Kheap) (ptr : Nat) : Option Kheap :=
  if ptr = 0 then some s
  else
    let p := pageBase ptr
    let slab := s.slab p
    if slab.magic ≠ slabMagic then some s
    else if (p + slab.npages * pageSize) % 2 ^ 64 ≤ ptr then some s
    else if slab.cacheIndex = bigCacheIndex ∨ slab.capacity = 1 then
      some ((s.slabDestroy p).dropBlock ptr)
    else if h : slab.cacheIndex < 8 then s.freeObject ⟨slab.cacheIndex, h⟩ p ptr
    else none

def krealloc (s : Kheap) (ptr newSize : Nat) : Option (Nat × Kheap) :=
  if ptr = 0 then s.kmalloc newSize
  else if newSize = 0 then (s.kfree ptr).map (0, ·)
  else
    let slab := s.slab (pageBase ptr)
    if slab.magic ≠ slabMagic then some (0, s)
    else if newSize ≤ slab.objectSize then some (ptr, s)
    else do
      let (newPtr, s) ← s.kmalloc newSize
      if newPtr = 0 then some (0, s)
      else
        let s := s.modMem (·.copy newPtr ptr slab.objectSize)
        (s.kfree ptr).map (newPtr, ·)

end Kheap

/-! ## Runs -/

inductive HeapOp
  | kmalloc (size : Nat)
  | kzalloc (size : Nat)
  | krealloc (ptr size : Nat)
  | kfree (ptr : Nat)
  /-- Somebody writes a byte. -/
  | write (addr : Nat) (value : UInt8)
  deriving DecidableEq

namespace Kheap

def step (s : Kheap) : HeapOp → Option Kheap
  | .kmalloc size => (s.kmalloc size).map Prod.snd
  | .kzalloc size => (s.kzalloc size).map Prod.snd
  | .krealloc ptr size => (s.krealloc ptr size).map Prod.snd
  | .kfree ptr => s.kfree ptr
  | .write addr value => some (s.modMem (update · addr value))

end Kheap

end Lapis.Mm
