/-
Lapis.Fs.RamfsFile — reading and writing one file of a ramfs (ramfs.c).

A file is the size and the data pointer of its node, over the kernel heap. The buffers of the caller
are given by their bytes. Offsets and lengths have 64 bits. The checks for NULL of the vnode and of its
node are left out, as a vnode that was looked up has both.
-/
import Lapis.Fs.Errno
import Lapis.Mm.Kheap

namespace Lapis.Fs

open Mm Lib

/-- The heap, and `size` and `data` of a `ramfs_node_t`. -/
structure RamfsFile where
  heap : Kheap
  size : Nat
  data : Nat

namespace RamfsFile

/-- The node that `ramfs_create` makes. -/
def created (heap : Kheap) : RamfsFile := ⟨heap, 0, 0⟩

/-! ## ramfs_write -/

/-- The part of `ramfs_write` that makes room for a write that ends at `total`, behind the end. -/
def grow (f : RamfsFile) (total : Nat) : Option RamfsFile := do
  let more := total - f.size
  let (newData, heap) ← f.heap.krealloc f.data ((f.size + more) % 2 ^ 64)
  some ⟨heap, (f.size + more) % 2 ^ 64, newData⟩

def ramfsWrite (f : RamfsFile) (buf : List UInt8) (offset : Nat) : Option RamfsFile := do
  let total := (buf.length + offset) % 2 ^ 64
  let f ← if f.size < total then f.grow total else some f
  some { f with heap := f.heap.modMem (·.put ((f.data + offset) % 2 ^ 64) buf) }

/-! ## ramfs_read -/

/-- The status, the number of bytes read, and the caller's buffer, which is cleared first. -/
structure ReadResult where
  status : Int
  bytes : Nat
  out : List UInt8
  deriving DecidableEq

/-- The last part of `ramfs_read`: the copy to a buffer of `room` bytes. -/
def copyOut (f : RamfsFile) (room bytes offset : Nat) : ReadResult :=
  let bytes :=
    if f.size < (bytes + offset) % 2 ^ 64 then (f.size + (2 ^ 64 - offset)) % 2 ^ 64 else bytes
  let copied := (List.range bytes).map fun k => f.heap.mem ((f.data + offset + k) % 2 ^ 64)
  ⟨EOK, bytes, copied ++ List.replicate (room - bytes) 0⟩

def ramfsRead (f : RamfsFile) (bytes offset : Nat) : ReadResult :=
  if f.size < bytes then f.copyOut bytes f.size offset
  else if f.size ≤ offset then ⟨-EINVAL, bytes, List.replicate bytes 0⟩
  else f.copyOut bytes bytes offset

end RamfsFile

/-! ## What a file is for -/

/-- A write of some bytes at an offset. -/
structure Write where
  buf : List UInt8
  offset : Nat
  deriving DecidableEq

namespace Write

def last (w : Write) : Nat := w.offset + w.buf.length

def Covers (w : Write) (x : Nat) : Prop := w.offset ≤ x ∧ x < w.last

instance (w : Write) (x : Nat) : Decidable (w.Covers x) := inferInstanceAs (Decidable (_ ∧ _))

end Write

/-- The byte last written at a position, 0 where no write has been; the newest write comes first. -/
def lastWritten : List Write → Nat → UInt8
  | [], _ => 0
  | w :: ws, x => if w.Covers x then w.buf.getD (x - w.offset) 0 else lastWritten ws x

/-- The greatest end of a write. -/
def greatestEnd : List Write → Nat
  | [] => 0
  | w :: ws => max w.last (greatestEnd ws)

end Lapis.Fs
