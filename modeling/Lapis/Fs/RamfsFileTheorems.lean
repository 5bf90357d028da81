/-
Lapis.Fs.RamfsFileTheorems — a file holds what was written to it.

`Holds` ties a file to the writes made to it: the data are a block of the heap with room for them, the
header of the block counts them as far as 16 bits can count, and each byte is the one last written. A
write keeps it if it leaves no hole behind the old end, as a new block and the rest of an old one are
not cleared, and if it does not make a file grow that is larger than 0xFFFF bytes, of which `krealloc`
would copy only the first 0xFFFF.
-/
import Lapis.Fs.RamfsFile
import Lapis.Mm.KheapRunTheorems

namespace Lapis.Fs

open List Option Mm
open Lapis.Mm.Kheap (pageBase Same Laid Moved Allocated)
open Lib

namespace RamfsFile

variable {f f' : RamfsFile} {ws : List Write} {w : Write} {b : Block}

/-! ## The data of a file -/

/-- The data of a file are in the block `b`. -/
structure InBlock (f : RamfsFile) (b : Block) : Prop where
  live : b ∈ f.heap.live
  ptr : b.ptr = f.data
  room : f.size ≤ b.size
  counted : min f.size 0xFFFF ≤ (f.heap.slab (pageBase b.ptr)).objectSize
  fits : (f.heap.slab (pageBase b.ptr)).objectSize ≤ b.size

/-- The file holds what was written to it. -/
structure Holds (f : RamfsFile) (ws : List Write) : Prop where
  sound : f.heap.Sound
  size : f.size = greatestEnd ws
  block : (f.size = 0 ∧ f.data = 0) ∨ ∃ b, f.InBlock b
  bytes : ∀ x < f.size, f.heap.mem (f.data + x) = lastWritten ws x

variable {heap : Kheap}

theorem holds_created (h : heap.Sound) : (created heap).Holds [] :=
  ⟨h, rfl, .inl ⟨rfl, rfl⟩, fun x hx => absurd hx (Nat.not_lt_zero x)⟩

/-- The bytes of a block after a write in it. -/
theorem InBlock.put (h : f.InBlock b) (hsound : f.heap.Sound) (hw : w.last ≤ f.size)
    (hf' : f' = { f with heap := f.heap.modMem (·.put ((f.data + w.offset) % 2 ^ 64) w.buf) }) :
    f'.heap.Sound ∧ f'.InBlock b ∧ ∀ x < f.size, f'.heap.mem (f.data + x) =
      if w.Covers x then w.buf.getD (x - w.offset) 0 else f.heap.mem (f.data + x) := by
  obtain ⟨kind, l, hlaid⟩ := hsound
  have hlt := hlaid.core.live_lt h.live
  have hroom := h.room
  have hptr := h.ptr
  unfold Write.last at hw
  have hput : ∀ x, f'.heap.mem x = if f.data + w.offset ≤ x ∧ x < f.data + w.offset + w.buf.length
      then w.buf.getD (x - (f.data + w.offset)) 0 else f.heap.mem x := by
    intro x
    rw [hf', Nat.mod_eq_of_lt (by omega)]
    exact ByteMemory.put_apply (by omega)
  have hout : ∀ x, ¬ (b.ptr ≤ x ∧ x < b.ptr + b.size) → f'.heap.mem x = f.heap.mem x := by
    intro x hx
    rw [hput, if_neg (by omega)]
  have hheap : f'.heap = f.heap.modMem fun _ => f'.heap.mem := by rw [hf']; rfl
  obtain ⟨hlaid', -, hobj⟩ := hlaid.writeLive h.live (f := fun _ => f'.heap.mem) hout
  rw [← hheap] at hlaid' hobj
  refine ⟨⟨kind, l, hlaid'⟩, ⟨?_, ?_, ?_, ?_, ?_⟩, fun x hx => ?_⟩
  · rw [hheap]
    exact h.live
  · rwa [hf']
  · rwa [hf']
  · rw [hobj, hf']
    exact h.counted
  · rw [hobj]
    exact h.fits
  · rw [hput]
    by_cases hin : w.Covers x
    · have hin' := hin
      unfold Write.Covers Write.last at hin'
      rw [if_pos (by omega), if_pos hin, Nat.add_sub_add_left]
    · have hin' := hin
      unfold Write.Covers Write.last at hin'
      rw [if_neg (by omega), if_neg hin]

/-! ## ramfs_write -/

/-- What `krealloc` does for a file that grows to `total`, if it is not refused: there is room, and
the bytes of a file of at most 0xFFFF bytes are the same. -/
structure Grown (f f' : RamfsFile) (total : Nat) : Prop where
  sound : f'.heap.Sound
  size : f'.size = total
  block : ∃ b, f'.InBlock b
  bytes : f.size ≤ 0xFFFF → ∀ x < f.size, f'.heap.mem (f'.data + x) = f.heap.mem (f.data + x)

variable {total : Nat}

theorem grow_eq (hgrow : f.size < total) (htotal : total < 2 ^ 64) :
    f.grow total = (f.heap.krealloc f.data total).map fun r => ⟨r.2, total, r.1⟩ := by
  unfold grow
  dsimp only
  rw [Nat.add_sub_cancel' (Nat.le_of_lt hgrow), Nat.mod_eq_of_lt htotal]
  cases f.heap.krealloc f.data total with
  | none => rfl
  | some r => rfl

/-- The first data of a file. -/
theorem grown_of_allocated (h : Allocated f.heap heap total b)
    (htotal : total + 63 < 2 ^ 64) (hzero : f.size = 0) : Grown f ⟨heap, total, b.ptr⟩ total := by
  obtain ⟨hroom, hcounted, hfits⟩ := h.room htotal
  refine ⟨h.laid, rfl, ⟨b, ?_, rfl, hroom, hcounted, hfits⟩, fun _ x hx => by omega⟩
  rw [h.live]
  exact mem_cons_self

/-- The header counts every byte of a file of at most 0xFFFF bytes, so all of them are copied. -/
theorem grown_of_moved {b' : Block} (hblock : f.InBlock b)
    (h : Moved f.heap heap total b b') : Grown f ⟨heap, total, b'.ptr⟩ total := by
  obtain ⟨hroom, hcounted, hfits⟩ := h.room
  refine ⟨h.laid, rfl, ⟨b', h.live, rfl, hroom, hcounted, hfits⟩, fun hsmall x hx => ?_⟩
  have hall := hblock.counted
  rw [Nat.min_eq_left hsmall] at hall
  rw [← hblock.ptr]
  exact h.copied hblock.fits x (by omega)

theorem Holds.grow (h : f.Holds ws) (hgrow : f.size < total)
    (htotal : total + 63 < 2 ^ 64) (hfew : f.heap.slabs.length + 1 < 2 ^ 32) :
    ∃ f', f.grow total = some f' ∧ (f'.data = 0 ∨ Grown f f' total) := by
  rw [grow_eq hgrow (by omega)]
  obtain ⟨kind, l, hlaid⟩ := h.sound
  rcases h.block with ⟨hzero, hnull⟩ | ⟨b, hblock⟩
  · have hcall : f.heap.krealloc f.data total = f.heap.kmalloc total := by
      rw [hnull]
      rfl
    rw [hcall]
    rcases hlaid.kmalloc hfew total with ⟨r, heq⟩ | ⟨b, heap, heq, halloc⟩
    · exact ⟨_, by rw [heq]; rfl, .inl rfl⟩
    · exact ⟨_, by rw [heq]; rfl, .inr (grown_of_allocated halloc htotal hzero)⟩
  · rw [← hblock.ptr]
    rcases hlaid.krealloc hblock.live (by omega) htotal hfew with ⟨hle, heq⟩ |
      ⟨-, ⟨r, heq⟩ | ⟨b', heap, heq, hmoved⟩⟩
    · have hfits := hblock.fits
      refine ⟨⟨f.heap, total, b.ptr⟩, by rw [heq]; rfl,
        .inr ⟨h.sound, rfl, ⟨b, hblock.live, rfl, ?_, ?_, hfits⟩, ?_⟩⟩
      · exact Nat.le_trans hle hfits
      · exact Nat.le_trans (Nat.min_le_left _ _) hle
      · intro _ x _
        rw [hblock.ptr]
    · exact ⟨_, by rw [heq]; rfl, .inl rfl⟩
    · exact ⟨_, by rw [heq]; rfl, .inr (grown_of_moved hblock hmoved)⟩

/-- What a caller owes: the end of the write fits in 64 bits, and the allocation is not refused. -/
def writeOk (w : Write) (f : RamfsFile) : Prop :=
  w.last < 2 ^ 64 ∧ (f.size < w.last → (f.grow w.last).map (·.data) ≠ some 0)

/-- A write that makes the file grow starts no later than at the old end, the file has at most 0xFFFF
bytes, and no size and no counter of the heap wraps around. -/
def GrowsSafely (w : Write) (f : RamfsFile) : Prop :=
  f.size < w.last → w.offset ≤ f.size ∧ f.size ≤ 0xFFFF ∧ w.last + 63 < 2 ^ 64 ∧
    f.heap.slabs.length + 1 < 2 ^ 32

theorem ramfsWrite_eq (hlast : w.last < 2 ^ 64) :
    f.ramfsWrite w.buf w.offset = (if f.size < w.last then f.grow w.last else some f).map fun f =>
        { f with heap := f.heap.modMem (·.put ((f.data + w.offset) % 2 ^ 64) w.buf) } := by
  unfold ramfsWrite
  dsimp only
  have htotal : (w.buf.length + w.offset) % 2 ^ 64 = w.last := by
    rw [Nat.add_comm]
    exact Nat.mod_eq_of_lt hlast
  rw [htotal]
  by_cases hgrow : f.size < w.last
  · rw [if_pos hgrow, if_pos hgrow]
    cases f.grow w.last with
    | none => rfl
    | some g => rfl
  · rw [if_neg hgrow, if_neg hgrow]
    rfl

/-- A write inside the file, or at its end when there is room. -/
theorem Grown.write (h : Grown f f' w.last) (hholds : f.Holds ws) (hgrow : f.size < w.last)
    (hnohole : w.offset ≤ f.size) (hsmall : f.size ≤ 0xFFFF) :
    RamfsFile.Holds { f' with heap := f'.heap.modMem (·.put ((f'.data + w.offset) % 2 ^ 64) w.buf) }
      (w :: ws) := by
  obtain ⟨b, hblock⟩ := h.block
  have hsize := h.size
  obtain ⟨hsound, hblock', hbytes⟩ := hblock.put h.sound (Nat.le_of_eq hsize.symm) rfl
  refine ⟨hsound, ?_, .inr ⟨b, hblock'⟩, fun x hx => ?_⟩
  · have := hholds.size
    rw [greatestEnd, ← this]
    exact hsize.trans (Nat.max_eq_left (Nat.le_of_lt hgrow)).symm
  refine (hbytes x hx).trans ?_
  rw [lastWritten]
  split
  · rfl
  · case _ hout =>
    have hold : x < f.size := by
      have hx' : x < f'.size := hx
      unfold Write.Covers at hout
      omega
    rw [h.bytes hsmall x hold]
    exact hholds.bytes x hold

theorem Holds.write (h : f.Holds ws) (hok : writeOk w f) (hsafe : GrowsSafely w f) :
    ∃ f', f.ramfsWrite w.buf w.offset = some f' ∧ f'.Holds (w :: ws) := by
  rw [ramfsWrite_eq hok.1]
  by_cases hgrow : f.size < w.last
  · obtain ⟨hnohole, hsmall, htotal, hfew⟩ := hsafe hgrow
    obtain ⟨g, heq, hgrown⟩ := h.grow hgrow htotal hfew
    have hgrown := hgrown.resolve_left fun hnull => hok.2 hgrow (by rw [heq, map_some, hnull])
    rw [if_pos hgrow, heq]
    exact ⟨_, rfl, hgrown.write h hgrow hnohole hsmall⟩
  · rw [if_neg hgrow]
    have hinside : w.last ≤ f.size := Nat.le_of_not_lt hgrow
    have hsize : f.size = greatestEnd (w :: ws) := by
      rw [greatestEnd, ← h.size, Nat.max_eq_right hinside]
    rcases h.block with ⟨hzero, hnull⟩ | ⟨b, hblock⟩
    · -- an empty write to an empty file
      have hbuf : w.buf = [] := by
        unfold Write.last at hinside
        exact eq_nil_of_length_eq_zero (by omega)
      refine ⟨_, rfl, ?_⟩
      rw [hbuf]
      exact ⟨h.sound, hsize, .inl ⟨hzero, hnull⟩, fun x hx => absurd (hzero ▸ hx) (Nat.not_lt_zero x)⟩
    · obtain ⟨hsound, hblock', hbytes⟩ := hblock.put h.sound hinside rfl
      refine ⟨_, rfl, hsound, hsize, .inr ⟨b, hblock'⟩, fun x hx => (hbytes x hx).trans ?_⟩
      rw [lastWritten, h.bytes x hx]

/-! ## ramfs_read -/

/-- A read inside the file gives the bytes of its data. -/
theorem ramfsRead_inside {bytes offset : Nat} (hend : offset + bytes ≤ f.size)
    (hstart : offset < f.size) (hsize : f.data + f.size < 2 ^ 64) : f.ramfsRead bytes offset =
      ⟨EOK, bytes, (List.range bytes).map fun k => f.heap.mem (f.data + (offset + k))⟩ := by
  have hmod : (bytes + offset) % 2 ^ 64 = bytes + offset := Nat.mod_eq_of_lt (by omega)
  unfold ramfsRead
  rw [if_neg (by omega), if_neg (by omega)]
  unfold copyOut
  dsimp only
  rw [hmod, if_neg (by omega), Nat.sub_self, replicate_zero, append_nil]
  congr 1
  refine map_congr_left fun k hk => ?_
  have := mem_range.mp hk
  rw [Nat.mod_eq_of_lt (by omega), Nat.add_assoc]

/-- The size is the greatest end of a write, and a read inside the file gives at each position the
byte last written there. -/
def ReadsBack (f : RamfsFile) (ws : List Write) : Prop :=
  f.size = greatestEnd ws ∧ ∀ bytes offset, offset + bytes ≤ f.size → offset < f.size →
    f.ramfsRead bytes offset =
      ⟨EOK, bytes, (List.range bytes).map fun k => lastWritten ws (offset + k)⟩

theorem Holds.readsBack (h : f.Holds ws) : f.ReadsBack ws := by
  refine ⟨h.size, fun bytes offset hend hstart => ?_⟩
  obtain ⟨kind, l, hlaid⟩ := h.sound
  obtain ⟨b, hblock⟩ : ∃ b, f.InBlock b := by
    rcases h.block with ⟨hzero, -⟩ | hblock
    · omega
    · exact hblock
  have hlt := hlaid.core.live_lt hblock.live
  have hroom := hblock.room
  have hptr := hblock.ptr
  rw [ramfsRead_inside hend hstart (by omega)]
  congr 1
  refine map_congr_left fun k hk => ?_
  have := mem_range.mp hk
  exact h.bytes (offset + k) (by omega)

/-! ## Runs -/

inductive FileOp
  | write (w : Write)
  | read (bytes offset : Nat)

/-- A file, and the writes made to it. A read changes only the caller's buffer. -/
def step (op : FileOp) (s : RamfsFile × List Write) : Option (RamfsFile × List Write) :=
  match op with
  | .write w => (s.1.ramfsWrite w.buf w.offset).map fun f => (f, w :: s.2)
  | .read _ _ => some s

def callOk (op : FileOp) (s : RamfsFile × List Write) : Prop :=
  match op with
  | .write w => writeOk w s.1
  | .read _ _ => True

def Safe (op : FileOp) (s : RamfsFile × List Write) : Prop :=
  match op with
  | .write w => GrowsSafely w s.1
  | .read _ _ => True

/-- The states of a run. -/
abbrev Reaches (ok : FileOp → RamfsFile × List Write → Prop) (s₀ : RamfsFile × List Write) :
    RamfsFile × List Write → Prop :=
  Lapis.Lib.Run (fun _ => step) ok s₀

theorem Reaches.next {ok : FileOp → RamfsFile × List Write → Prop} {s0 s s' : RamfsFile × List Write}
    (h : Reaches ok s0 s) (op : FileOp) (hop : ok op s) (hstep : step op s = some s') : Reaches ok s0 s' :=
  @Lapis.Lib.Run.next _ _ _ _ _ _ _ op 0 h hop hstep

/-- In every run in which every growth is safe, a file reads back what was written to it, and every
further write returns. -/
theorem ramfs_file_contents {heap : Kheap} {s : RamfsFile × List Write} (hheap : heap.Sound)
    (hrun : Reaches (fun op s => callOk op s ∧ Safe op s) (created heap, []) s) :
    s.1.ReadsBack s.2 ∧ ∀ w, writeOk w s.1 → GrowsSafely w s.1 →
      ∃ f', s.1.ramfsWrite w.buf w.offset = some f' := by
  have hholds : s.1.Holds s.2 := by
    induction hrun with
    | init => exact holds_created hheap
    | @next s1 s2 op _ _ hop hstep h =>
      cases op with
      | write w =>
        obtain ⟨f', heq, hf'⟩ := h.write hop.1 hop.2
        rw [step, heq, map_some, some.injEq] at hstep
        rwa [← hstep]
      | read bytes offset =>
        obtain rfl := some.inj hstep
        exact h
  refine ⟨hholds.readsBack, fun w hok hsafe => ?_⟩
  obtain ⟨f', heq, -⟩ := hholds.write hok hsafe
  exact ⟨f', heq⟩

/-- Three bytes are written, and the second of them again. -/
theorem ramfs_file_contents_three : ∃ s, Reaches (fun op s => callOk op s ∧ Safe op s)
        (created (Kheap.kheapInit (fun _ => 0) [some 1]), []) s ∧
      s.2 = [⟨[9], 1⟩, ⟨[5, 6, 7], 0⟩] ∧ s.1.ReadsBack s.2 := by
  have hheap : (Kheap.kheapInit (fun _ => 0) [some 1]).Sound :=
    ⟨_, _, Kheap.laid_kheapInit (fun _ => 0) [some 1]⟩
  have hzero : (created (Kheap.kheapInit (fun _ => 0) [some 1])).Holds [] := holds_created hheap
  have hok : writeOk ⟨[5, 6, 7], 0⟩ (created (Kheap.kheapInit (fun _ => 0) [some 1])) :=
    ⟨by decide, fun _ => by decide +kernel⟩
  have hsafe : GrowsSafely ⟨[5, 6, 7], 0⟩ (created (Kheap.kheapInit (fun _ => 0) [some 1])) :=
    fun _ => by decide
  obtain ⟨f, hf, hholds⟩ := hzero.write hok hsafe
  have hrun : Reaches (fun op s => callOk op s ∧ Safe op s)
      (created (Kheap.kheapInit (fun _ => 0) [some 1]), []) (f, [⟨[5, 6, 7], 0⟩]) :=
    Reaches.next .init (.write ⟨[5, 6, 7], 0⟩) ⟨hok, hsafe⟩ (by rw [step, hf]; rfl)
  have hsize : f.size = 3 := hholds.size
  have hinside : ¬ f.size < Write.last ⟨[9], 1⟩ := by rw [hsize]; decide
  have hok' : writeOk ⟨[9], 1⟩ f := ⟨by decide, fun hc => absurd hc hinside⟩
  have hsafe' : GrowsSafely ⟨[9], 1⟩ f := fun hc => absurd hc hinside
  obtain ⟨g, hg, -⟩ := hholds.write hok' hsafe'
  have hrun' : Reaches (fun op s => callOk op s ∧ Safe op s)
      (created (Kheap.kheapInit (fun _ => 0) [some 1]), []) (g, [⟨[9], 1⟩, ⟨[5, 6, 7], 0⟩]) :=
    Reaches.next hrun (.write ⟨[9], 1⟩) ⟨hok', hsafe'⟩ (by rw [step, hg]; rfl)
  exact ⟨_, hrun', rfl, (ramfs_file_contents hheap hrun').1⟩

/-- One byte is written at offset 600 of an empty file. The data are an object of a new slab, whose
first word was its link in the free list, and so the file starts with a byte that nobody wrote. -/
theorem ramfs_file_hole : ∃ s, Reaches callOk (created (Kheap.kheapInit (fun _ => 0) [some 1]), []) s ∧
      ¬ s.1.ReadsBack s.2 := by
  have hok : writeOk ⟨[7], 600⟩ (created (Kheap.kheapInit (fun _ => 0) [some 1])) :=
    ⟨by decide, fun _ => by decide +kernel⟩
  have hread : ((created (Kheap.kheapInit (fun _ => 0) [some 1])).ramfsWrite [7] 600).map
      (fun f => (decide (0 < f.size), f.ramfsRead 1 0)) = some (true, ⟨EOK, 1, [0x20]⟩) := by
    decide +kernel
  obtain ⟨f, hf, hbyte⟩ := map_eq_some_iff.mp hread
  rw [Prod.mk.injEq, decide_eq_true_eq] at hbyte
  refine ⟨(f, [⟨[7], 600⟩]), Reaches.next .init (.write ⟨[7], 600⟩) hok ?_, fun hback => ?_⟩
  · rw [step, hf]
    rfl
  · have hzero := hback.2 1 0 hbyte.1 hbyte.1
    dsimp only at hzero
    rw [hbyte.2] at hzero
    exact absurd hzero (by decide)

end RamfsFile

end Lapis.Fs
