/-
Lapis.Fs.ReadTheorems — how far a file is read.

`ramfs_read` cuts the length to the size of the file when it is larger, and looks at the offset only when
it is not. So a long read from behind the end goes wrong, and a short read at the end is an error, which
`kread` returns as a number of bytes.
-/
import Lapis.Fs.VfsTreeTheorems

namespace Lapis.Fs

open List Option Util

namespace RamfsFile

variable {f : RamfsFile} {bytes offset : Nat}

/-- The bytes of a file. -/
def contents (f : RamfsFile) : List UInt8 :=
  (List.range f.size).map fun k => f.heap.mem ((f.data + k) % 2 ^ 64)

theorem contents_length (f : RamfsFile) : f.contents.length = f.size := by simp [contents]

/-! ## One read -/

/-- A read that succeeds copies bytes of the file, no more than asked for, and its sums do not wrap. -/
def ReadsInside (f : RamfsFile) (bytes offset : Nat) : Prop :=
  let r := f.ramfsRead bytes offset
  r.status = EOK → r.bytes ≤ bytes ∧ offset + r.bytes ≤ f.size ∧ min bytes f.size + offset < 2 ^ 64

/-- The offset is not behind the end, and the sum of offset and length does not wrap. -/
def ReadFits (size bytes offset : Nat) : Prop := offset ≤ size ∧ min bytes size + offset < 2 ^ 64

/-- What a read from a place in the file copies. -/
theorem copyOut_bytes (hfits : ReadFits f.size bytes offset) (room : Nat) :
    (f.copyOut room (min bytes f.size) offset).bytes = min bytes (f.size - offset) := by
  obtain ⟨hle, hlt⟩ := hfits
  simp only [copyOut, Nat.mod_eq_of_lt hlt]
  split
  · have hsub : (f.size + (2 ^ 64 - offset)) % 2 ^ 64 = f.size - offset := by omega
    omega
  · omega

/-- The buffer of a read: the bytes of the file from the offset on, and zeros. -/
def slice (d : List UInt8) (bytes offset : Nat) : List UInt8 :=
  (d.drop offset).take bytes ++ List.replicate (bytes - (d.length - offset)) 0

theorem copyOut_out (hfits : ReadFits f.size bytes offset) :
    (f.copyOut bytes (min bytes f.size) offset).out = slice f.contents bytes offset := by
  have hbytes := copyOut_bytes hfits bytes
  have hout : (f.copyOut bytes (min bytes f.size) offset).out =
      ((List.range (min bytes (f.size - offset))).map fun k => f.heap.mem ((f.data + offset + k) % 2 ^ 64)) ++
        List.replicate (bytes - min bytes (f.size - offset)) 0 := by
    rw [← hbytes]
    rfl
  rw [hout, slice, contents_length]
  congr 1
  · refine ext_getElem (by simp [contents_length]) fun i h h' => ?_
    simp [contents, Nat.add_assoc]
  · rw [show bytes - min bytes (f.size - offset) = bytes - (f.size - offset) by omega]

theorem ramfsRead_eq (hread : offset < f.size ∨ f.size < bytes) :
    f.ramfsRead bytes offset = f.copyOut bytes (min bytes f.size) offset := by
  unfold ramfsRead
  split
  · rw [Nat.min_eq_right (by omega)]
  · rw [if_neg (by omega), Nat.min_eq_left (by omega)]

/-- A short read at the end or behind it fails. -/
theorem ramfsRead_refused (h : bytes ≤ f.size) (hend : f.size ≤ offset) :
    f.ramfsRead bytes offset = ⟨-EINVAL, bytes, List.replicate bytes 0⟩ := by
  rw [ramfsRead, if_neg (by omega), if_pos hend]

/-- Reads stay in the file exactly when a read longer than the file starts in it, and no sum wraps. -/
theorem reads_inside_iff (f : RamfsFile) (bytes offset : Nat) :
    f.ReadsInside bytes offset ↔ bytes ≤ f.size ∧ f.size ≤ offset ∨ ReadFits f.size bytes offset := by
  unfold ReadsInside
  by_cases hread : offset < f.size ∨ f.size < bytes
  · rw [ramfsRead_eq hread]
    have hok : (f.copyOut bytes (min bytes f.size) offset).status = EOK := rfl
    refine ⟨fun h => .inr ?_, fun h _ => ?_⟩
    · obtain ⟨-, hle, hlt⟩ := h hok
      exact ⟨by omega, hlt⟩
    · have hfits : ReadFits f.size bytes offset := h.resolve_left (by omega)
      rw [copyOut_bytes hfits]
      obtain ⟨hle, hlt⟩ := hfits
      exact ⟨by omega, by omega, hlt⟩
  · rw [ramfsRead_refused (by omega) (by omega)]
    exact iff_of_true nofun (.inl (by omega))

/-- Two bytes are asked for at offset 2 of a file of one byte, and 2^64 - 1 are reported. -/
theorem read_behind_end :
    (ramfsRead ⟨Lapis.Mm.Kheap.kheapInit (fun _ => 0) [], 1, 0⟩ 2 2).bytes = 2 ^ 64 - 1 ∧
      ¬ ReadsInside ⟨Lapis.Mm.Kheap.kheapInit (fun _ => 0) [], 1, 0⟩ 2 2 := by
  refine ⟨by decide, fun h => ?_⟩
  have hle := (h rfl).1
  revert hle
  decide

end RamfsFile

namespace Vfs

/-! ## One read after the other -/

/-- `kread` with one size after the other: what each call returns, its buffer, and the file. -/
def kreads (s : Vfs) : Kfile → List Nat → Option (List (Int × List UInt8) × Kfile)
  | f, [] => some ([], f)
  | f, size :: sizes => do
    let (ret, out, f) ← s.kread f size
    let (results, f) ← s.kreads f sizes
    some ((ret, out) :: results, f)

/-- What the calls should return for a file with the bytes `d`, from an offset on. -/
def readings (d : List UInt8) : Nat → List Nat → List (Int × List UInt8)
  | _, [] => []
  | offset, size :: sizes => (((min size (d.length - offset) : Nat) : Int), RamfsFile.slice d size offset) ::
    readings d (min (offset + size) d.length) sizes

/-- No read at the end of a file of `len` bytes is as short as the file, and no sum wraps. -/
def EndSafe (len : Nat) : Nat → List Nat → Prop
  | _, [] => True
  | offset, size :: sizes => (offset < len ∨ len < size) ∧ min size len + offset < 2 ^ 64 ∧
    EndSafe len (min (offset + size) len) sizes

variable {s : Vfs} {f : Kfile} {n : RamfsNode} {size : Nat}

/-- An open file on a node, not a pipe. -/
structure OnFile (s : Vfs) (f : Kfile) (n : RamfsNode) : Prop where
  node : (s.get f.vnode).nodeData ≠ 0
  at_ : s.ramfs.nodes (s.get f.vnode).nodeData = some n
  read : f.flags &&& PIPE_READ_END = 0
  write : f.flags &&& PIPE_WRITE_END = 0

theorem OnFile.kread_eq (h : s.OnFile f n) (size : Nat) :
    s.kread f size = (fun r : RamfsFile.ReadResult => if r.status ≠ EOK then some (-r.status, r.out, f)
      else some (r.bytes, r.out, { f with offset := (f.offset + r.bytes) % 2 ^ 64 }))
        ((s.ramfs.file n).ramfsRead size f.offset) := by
  simp [kread, Ramfs.ramfsRead, h.node, h.at_, h.read, h.write]

section

variable (h : s.OnFile f n) (hsize : n.size < 2 ^ 64) (hle : f.offset ≤ n.size)

include h hsize hle

/-- A read that goes well. -/
theorem OnFile.kread_of_safe
    (hread : f.offset < n.size ∨ n.size < size) (hsum : min size n.size + f.offset < 2 ^ 64) :
    s.kread f size = some (((min size (n.size - f.offset) : Nat) : Int),
      RamfsFile.slice (s.ramfs.file n).contents size f.offset,
      { f with offset := min (f.offset + size) n.size }) := by
  have hfits : RamfsFile.ReadFits (s.ramfs.file n).size size f.offset := ⟨hle, hsum⟩
  have hbytes := RamfsFile.copyOut_bytes hfits size
  have hadd : (f.offset + min size (n.size - f.offset)) % 2 ^ 64 = min (f.offset + size) n.size := by omega
  have hok : ((s.ramfs.file n).copyOut size (min size (s.ramfs.file n).size) f.offset).status = EOK := rfl
  rw [h.kread_eq, RamfsFile.ramfsRead_eq hread]
  dsimp only
  rw [if_neg (fun hc => hc hok), RamfsFile.copyOut_out hfits, hbytes]
  exact congrArg (fun o => some (_, _, { f with offset := o })) hadd

/-- A read that does not go well returns another number. -/
theorem OnFile.kread_of_unsafe (hpos : 0 < size)
    (hbad : ¬ ((f.offset < n.size ∨ n.size < size) ∧ min size n.size + f.offset < 2 ^ 64)) :
    ∃ ret x, s.kread f size = some (ret, x) ∧ ret ≠ ((min size (n.size - f.offset) : Nat) : Int) := by
  rw [h.kread_eq]
  by_cases hread : f.offset < n.size ∨ n.size < size
  · have hwrap : 2 ^ 64 ≤ min size n.size + f.offset := by omega
    have hbytes : ((s.ramfs.file n).copyOut size (min size n.size) f.offset).bytes = min size n.size := by
      simp only [RamfsFile.copyOut, Ramfs.file]
      exact if_neg (by omega)
    rw [RamfsFile.ramfsRead_eq hread]
    refine ⟨_, _, if_neg (fun hc => hc rfl), fun heq => ?_⟩
    have := Int.ofNat.inj (hbytes ▸ heq)
    omega
  · rw [RamfsFile.ramfsRead_refused (f := s.ramfs.file n) (by change size ≤ n.size; omega)
      (by change n.size ≤ f.offset; omega)]
    have hzero : min size (n.size - f.offset) = 0 := by omega
    exact ⟨_, _, if_pos (show -EINVAL ≠ EOK by decide), by rw [hzero]; exact show - -EINVAL ≠ 0 by decide⟩

theorem OnFile.kreads_iff {sizes : List Nat} (hpos : ∀ size ∈ sizes, 0 < size) :
    (∃ f', s.kreads f sizes = some (readings (s.ramfs.file n).contents f.offset sizes, f') ∧
      f'.offset = min (f.offset + sizes.sum) n.size) ↔ EndSafe n.size f.offset sizes := by
  have hlen : (s.ramfs.file n).contents.length = n.size := RamfsFile.contents_length _
  induction sizes generalizing f with
  | nil => simp [kreads, readings, EndSafe, hle]
  | cons size sizes ih =>
    simp only [kreads, readings, EndSafe, hlen, ← and_assoc]
    by_cases hsafe : (f.offset < n.size ∨ n.size < size) ∧ min size n.size + f.offset < 2 ^ 64
    · have hread := h.kread_of_safe hsize hle hsafe.1 hsafe.2
      have hnext := @ih { f with offset := min (f.offset + size) n.size } ⟨h.node, h.at_, h.read, h.write⟩
        (Nat.min_le_right _ _) fun k hk => hpos k (mem_cons_of_mem _ hk)
      rw [hread]
      simp only [hsafe, true_and, ← hnext, bind_eq_bind, bind_some]
      have hsum : min (min (f.offset + size) n.size + sizes.sum) n.size =
          min (f.offset + (size :: sizes).sum) n.size := by
        rw [sum_cons]
        omega
      rw [hsum]
      refine exists_congr fun f' => and_congr_left fun _ => ⟨fun heq => ?_, fun heq => by rw [heq]; rfl⟩
      obtain ⟨⟨results, f''⟩, hkreads, heq⟩ := bind_eq_some_iff.mp heq
      simp only [some.injEq, Prod.mk.injEq, List.cons.injEq, true_and] at heq
      rw [hkreads, heq.1, heq.2]
    · obtain ⟨ret, x, hread, hne⟩ := h.kread_of_unsafe hsize hle (hpos size mem_cons_self) hsafe
      simp only [hsafe, false_and, iff_false, hread, bind_eq_bind, bind_some]
      rintro ⟨f', heq, -⟩
      obtain ⟨y, -, heq⟩ := bind_eq_some_iff.mp heq
      simp only [some.injEq, Prod.mk.injEq, List.cons.injEq] at heq
      exact hne heq.1.1.1

end

theorem readings_concat (d : List UInt8) (offset : Nat) (sizes : List Nat) :
    (readings d offset sizes).flatMap (fun r => r.2.take r.1.toNat) = (d.drop offset).take sizes.sum := by
  induction sizes generalizing offset with
  | nil => simp [readings]
  | cons size sizes ih =>
    have hslice : (RamfsFile.slice d size offset).take (min size (d.length - offset)) =
        (d.drop offset).take size := by
      rw [RamfsFile.slice, take_append_of_le_length (by simp), take_take,
        show min (min size (d.length - offset)) size = min size (d.drop offset).length by grind, ← take_eq_take_min]
    have hdrop : d.drop (min (offset + size) d.length) = (d.drop offset).drop size := by
      rw [drop_drop, ← drop_eq_drop_min]
    rw [readings, flatMap_cons, ih, Int.toNat_natCast, hslice, hdrop, sum_cons, take_add]

theorem kopen_file {s' : Vfs} {path : Str} {flags mode : Nat}
    (h : s.kopen path flags mode = some (.ok f, s')) : f.offset = 0 ∧ f.flags = flags := by
  unfold kopen at h
  obtain ⟨⟨res, s1⟩, -, h⟩ := bind_eq_some_iff.mp h
  dsimp only at h
  split at h
  · cases h
  · obtain ⟨⟨_ | f1, s2⟩, -, h⟩ := bind_eq_some_iff.mp h
    · cases h
    · cases h
      exact ⟨rfl, rfl⟩

end Vfs

end Lapis.Fs
