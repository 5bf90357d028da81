/-
Lapis.Fs.WriteTheorems — what `kwrite` leaves in a file.

`ramfs_write` does not look at what `krealloc` returns, and the number of bytes is returned as an `int`.
So a write that is refused is reported as done, and one of 2^31 bytes as an error after it was made.

A file that is opened for appending is written at the size that the handle remembers. The handle changes
it from its own offset, so it is right only as long as nobody has moved the two apart.
-/
import Lapis.Fs.RamfsFileTheorems
import Lapis.Fs.ReadTheorems
import Lapis.Fs.VfsSignTheorems

namespace Lapis.Fs

open Lib Mm Util
open Function List Option

namespace RamfsFile

variable {f f' : RamfsFile} {ws : List Write} {w : Write} {buf : List UInt8} {offset : Nat}

/-! ## The data of a file -/

/-- The data of a file are in a block of the heap, or there are none. -/
structure Stored (f : RamfsFile) : Prop where
  sound : f.heap.Sound
  block : (f.size = 0 ∧ f.data = 0) ∨ ∃ b, f.InBlock b

theorem Stored.bounds (h : f.Stored) : f.data + f.size < 2 ^ 64 ∧ (0 < f.size → 0x1000 ≤ f.data) := by
  obtain ⟨⟨kind, l, hlaid⟩, ⟨hzero, hnull⟩ | ⟨b, hblock⟩⟩ := h
  · omega
  have hlt := hlaid.core.live_lt hblock.live
  obtain ⟨p, hp, howns⟩ := (hlaid.core.live_iff b).mp hblock.live
  have hmin := ((hlaid.core.ok p hp).owns_spec howns).1
  have hpage := hlaid.core.page_le hp
  have hroom := hblock.room
  rw [← hblock.ptr]
  omega

theorem Holds.stored (h : f.Holds ws) : f.Stored := ⟨h.sound, h.block⟩

theorem Stored.contents_eq (h : f.Stored) :
    f.contents = (List.range f.size).map fun x => f.heap.mem (f.data + x) := by
  refine map_congr_left fun x hx => ?_
  have := h.bounds.1
  have := mem_range.mp hx
  rw [Nat.mod_eq_of_lt (by omega)]

/-- A file holds its bytes. -/
theorem Stored.holds (h : f.Stored) : f.Holds [⟨f.contents, 0⟩] := by
  refine ⟨h.sound, by simp [greatestEnd, Write.last, contents_length], h.block, fun x hx => ?_⟩
  have hcovers : Write.Covers ⟨f.contents, 0⟩ x := ⟨Nat.zero_le x, by simpa [Write.last, contents_length] using hx⟩
  rw [lastWritten, if_pos hcovers, h.contents_eq]
  simp [hx]

/-- A write at the end of a file. -/
theorem Stored.append (h : f.Stored) (hok : writeOk ⟨buf, f.size⟩ f) (hsafe : GrowsSafely ⟨buf, f.size⟩ f) :
    ∃ f', f.ramfsWrite buf f.size = some f' ∧ f'.Stored ∧ f'.contents = f.contents ++ buf := by
  obtain ⟨f', heq, hholds⟩ := h.holds.write hok hsafe
  have hsize : f'.size = f.size + buf.length := by
    simp [hholds.size, greatestEnd, Write.last, contents_length]
  refine ⟨f', heq, hholds.stored, ?_⟩
  rw [hholds.stored.contents_eq]
  refine ext_getElem (by simp [hsize, contents_length]) fun x hx _ => ?_
  have hlt : x < f'.size := by simpa using hx
  rw [getElem_map, getElem_range, hholds.bytes x hlt, getElem_append]
  grind [lastWritten, Write.Covers, Write.last, contents_length]

/-! ## Writes that are made -/

/-- The bytes are in the file. -/
def Wrote (f : RamfsFile) (w : Write) : Prop :=
  f.Stored ∧ (f.contents.drop w.offset).take w.buf.length = w.buf

/-- No sum wraps around, neither that of offset and length nor those of the heap, and the heap does not refuse. -/
def WriteFits (f : RamfsFile) (w : Write) : Prop :=
  writeOk w f ∧ (f.size < w.last → w.last + 63 < 2 ^ 64)

/-- What is copied into the data is found there. -/
theorem Stored.wrote (h : f.Stored) (hlast : w.last ≤ f.size) :
    Wrote { f with heap := f.heap.modMem (·.put ((f.data + w.offset) % 2 ^ 64) w.buf) } w := by
  rcases h.block with ⟨hzero, hnull⟩ | ⟨b, hblock⟩
  · have hbuf : w.buf = [] := by
      unfold Write.last at hlast
      exact eq_nil_of_length_eq_zero (by omega)
    rw [hbuf]
    exact ⟨⟨h.sound, .inl ⟨hzero, hnull⟩⟩, by simp [hbuf]⟩
  · obtain ⟨hsound, hblock', hbytes⟩ := hblock.put h.sound hlast rfl
    refine ⟨⟨hsound, .inr ⟨b, hblock'⟩⟩, ?_⟩
    rw [Stored.contents_eq ⟨hsound, .inr ⟨b, hblock'⟩⟩]
    unfold Write.last at hlast
    refine ext_getElem (by simp; omega) fun k hk hk' => ?_
    have hcovers : w.Covers (w.offset + k) := ⟨by omega, by unfold Write.last; omega⟩
    simp only [getElem_take, getElem_drop, getElem_map, getElem_range]
    rw [hbytes _ (by omega), if_pos hcovers, Nat.add_sub_cancel_left]
    simp [hk']

theorem Wrote.last_le (h : f.Wrote w) : w.buf = [] ∨ w.last ≤ f.size := by
  have hlen := congrArg List.length h.2
  rw [length_take, length_drop, contents_length] at hlen
  by_cases hbuf : w.buf.length = 0
  · exact .inl (eq_nil_of_length_eq_zero hbuf)
  · exact .inr (by unfold Write.last; omega)

theorem Stored.wrote_iff (h : f.Stored) (hfew : f.heap.slabs.length + 1 < 2 ^ 32) (hoffset : w.offset < 2 ^ 64) :
    (∃ f', f.ramfsWrite w.buf w.offset = some f' ∧ f'.Wrote w) ↔ f.WriteFits w := by
  constructor
  · rintro ⟨f', heq, hwrote⟩
    obtain ⟨hlt, hmin⟩ := hwrote.1.bounds
    have hlast : w.last < 2 ^ 64 := by
      rcases hwrote.last_le with hbuf | hle
      · simpa [Write.last, hbuf] using hoffset
      · omega
    rw [ramfsWrite_eq hlast] at heq
    by_cases hgrow : f.size < w.last
    · rw [if_pos hgrow, grow_eq hgrow hlast] at heq
      obtain ⟨g, hg, rfl⟩ := map_eq_some_iff.mp heq
      obtain ⟨⟨data, heap⟩, hrealloc, rfl⟩ := map_eq_some_iff.mp hg
      dsimp only at hlt hmin
      refine ⟨⟨hlast, fun _ hnull => ?_⟩, fun _ => by omega⟩
      rw [grow_eq hgrow hlast, hrealloc, map_some, map_some, some.injEq] at hnull
      dsimp only at hnull
      omega
    · exact ⟨⟨hlast, fun hc => absurd hc hgrow⟩, fun hc => absurd hc hgrow⟩
  · rintro ⟨⟨hlast, hdata⟩, htotal⟩
    rw [ramfsWrite_eq hlast]
    by_cases hgrow : f.size < w.last
    · obtain ⟨g, heq, hgrown⟩ := h.holds.grow hgrow (htotal hgrow) hfew
      have hgrown := hgrown.resolve_left fun hnull => hdata hgrow (by rw [heq, map_some, hnull])
      have hstored : g.Stored := ⟨hgrown.sound, .inr hgrown.block⟩
      rw [if_pos hgrow, heq]
      exact ⟨_, rfl, hstored.wrote (Nat.le_of_eq hgrown.size.symm)⟩
    · rw [if_neg hgrow]
      exact ⟨_, rfl, h.wrote (Nat.le_of_not_lt hgrow)⟩

end RamfsFile

namespace Vfs

variable {s s' : Vfs} {f : Kfile} {n : RamfsNode} {buf : List UInt8}

/-! ## kwrite -/

/-- Where `kwrite` writes. -/
def position (f : Kfile) : Nat := if f.flags &&& O_APPEND ≠ 0 then f.size else f.offset

/-- The node of a file has new data. -/
def store (s : Vfs) (c : Nat) (n : RamfsNode) (g : RamfsFile) : Vfs :=
  { s with ramfs := { s.ramfs.setNode c { n with size := g.size, data := g.data } with heap := g.heap } }

/-- The handle after a write of some bytes. -/
def advance (f : Kfile) (bytes : Nat) : Kfile :=
  if toInt bytes < 0 then f
  else
    let last := (f.offset + bytes) % 2 ^ 64
    { f with size := if f.size < last then last else f.size, offset := last }

theorem OnFile.vfsWrite_eq (h : s.OnFile f n) (buf : List UInt8) (offset : Nat) :
    s.vfsWrite f.vnode buf offset = ((s.ramfs.file n).ramfsWrite buf offset).map fun g =>
      (toInt buf.length, s.store (s.get f.vnode).nodeData n g) := by
  rw [vfsWrite, Ramfs.ramfsWrite, if_neg h.node, h.at_]
  change (((s.ramfs.file n).ramfsWrite buf offset).bind _).bind _ = _
  cases (s.ramfs.file n).ramfsWrite buf offset with
  | none => rfl
  | some g => rfl

theorem OnFile.kwrite_eq (h : s.OnFile f n) (buf : List UInt8) :
    s.kwrite f buf = ((s.ramfs.file n).ramfsWrite buf (position f)).map fun g =>
      (toInt buf.length, advance f buf.length, s.store (s.get f.vnode).nodeData n g) := by
  rw [kwrite, if_neg (by simp [h.write]), if_neg (by simp [h.read])]
  dsimp only
  rw [h.vfsWrite_eq]
  change (Option.map _ ((s.ramfs.file n).ramfsWrite buf (position f))).bind _ = _
  cases (s.ramfs.file n).ramfsWrite buf (position f) with
  | none => rfl
  | some g =>
    by_cases hneg : toInt buf.length < 0
    · simp [hneg, advance]
    · simp [hneg, advance]

@[simp] theorem advance_vnode (f : Kfile) (bytes : Nat) : (advance f bytes).vnode = f.vnode := by
  unfold advance
  split <;> rfl

@[simp] theorem advance_flags (f : Kfile) (bytes : Nat) : (advance f bytes).flags = f.flags := by
  unfold advance
  split <;> rfl

/-- A vnode of the node reads the new data. -/
theorem OnFile.store (h : s.OnFile f n) {c : Nat} (hc : (s.get f.vnode).nodeData = c) (n' : RamfsNode)
    (g : RamfsFile) : (s.store c n' g).OnFile f { n' with size := g.size, data := g.data } := by
  have hget : (s.store c n' g).get f.vnode = s.get f.vnode := by cases hv : f.vnode <;> rfl
  refine ⟨?_, ?_, h.read, h.write⟩
  · rw [hget]
    exact h.node
  · rw [hget, hc]
    exact update_self ..

/-- Either the write is reported and made, or an error is reported and nothing has changed. -/
def AllOrNothing (s : Vfs) (f : Kfile) (n : RamfsNode) (buf : List UInt8) : Prop :=
  ∃ ret f' s' n', s.kwrite f buf = some (ret, f', s') ∧ s'.OnFile f' n' ∧
    (ret = buf.length ∧ (s'.ramfs.file n').Wrote ⟨buf, position f⟩ ∨
      ret < 0 ∧ (s'.ramfs.file n').contents = (s.ramfs.file n).contents ∧ f'.offset = f.offset ∧ f'.size = f.size)

/-- The length is read as a negative number, the file does not grow, and the bytes are those it has. -/
def HarmlessError (g : RamfsFile) (w : Write) : Prop :=
  toInt w.buf.length < 0 ∧ (w.buf.length + w.offset) % 2 ^ 64 ≤ g.size ∧
    ∀ x < g.size, g.heap.mem.put ((g.data + w.offset) % 2 ^ 64) w.buf ((g.data + x) % 2 ^ 64) =
      g.heap.mem ((g.data + x) % 2 ^ 64)

theorem harmlessError_iff {g : RamfsFile} {w : Write} (hneg : toInt w.buf.length < 0) :
    (∃ g', g.ramfsWrite w.buf w.offset = some g' ∧ g'.contents = g.contents) ↔ HarmlessError g w := by
  unfold RamfsFile.ramfsWrite
  dsimp only
  constructor
  · rintro ⟨g', heq, hsame⟩
    have hsize : g'.size = g.size := by rw [← g'.contents_length, hsame, g.contents_length]
    by_cases hgrow : g.size < (w.buf.length + w.offset) % 2 ^ 64
    · rw [if_pos hgrow, RamfsFile.grow_eq hgrow (Nat.mod_lt _ (by decide))] at heq
      obtain ⟨g1, hg, heq⟩ := bind_eq_some_iff.mp heq
      obtain ⟨r, -, rfl⟩ := map_eq_some_iff.mp hg
      cases heq
      dsimp only at hsize
      omega
    · rw [if_neg hgrow] at heq
      cases heq
      exact ⟨hneg, Nat.le_of_not_lt hgrow, fun x hx => map_inj_left.mp hsame x (mem_range.mpr hx)⟩
  · rintro ⟨-, hle, hsame⟩
    rw [if_neg (Nat.not_lt.mpr hle)]
    exact ⟨_, rfl, map_congr_left fun x hx => hsame x (mem_range.mp hx)⟩

/-- A write is made or nothing is changed exactly when it is shorter than 2^31 bytes, no sum wraps around
and the heap does not refuse, or when it would change nothing and its length is read as an error. -/
theorem write_all_or_nothing_iff (h : s.OnFile f n) (hstored : (s.ramfs.file n).Stored)
    (hfew : s.ramfs.heap.slabs.length + 1 < 2 ^ 32) (hposition : position f < 2 ^ 64) (buf : List UInt8) :
    s.AllOrNothing f n buf ↔ buf.length < 2 ^ 31 ∧ (s.ramfs.file n).WriteFits ⟨buf, position f⟩ ∨
      HarmlessError (s.ramfs.file n) ⟨buf, position f⟩ := by
  have hwrote := hstored.wrote_iff hfew (w := ⟨buf, position f⟩) hposition
  dsimp only at hwrote
  rw [← hwrote]
  constructor
  · rintro ⟨ret, f', s', n', heq, hon, hcase⟩
    rw [h.kwrite_eq] at heq
    obtain ⟨g, hg, heq⟩ := map_eq_some_iff.mp heq
    cases heq
    have hat := hon.at_
    have hon' := (h.store rfl n g).at_
    rw [advance_vnode, hon'] at hat
    obtain rfl := some.inj hat
    rcases hcase with ⟨hret, hw⟩ | ⟨hneg, hsame, -⟩
    · exact .inl ⟨toInt_eq.mp hret, g, hg, hw⟩
    · exact .inr ((harmlessError_iff (w := ⟨buf, position f⟩) hneg).mp ⟨g, hg, hsame⟩)
  · intro hcase
    have hdone : ∀ g, (s.ramfs.file n).ramfsWrite buf (position f) = some g →
        s.kwrite f buf = some (toInt buf.length, advance f buf.length, s.store (s.get f.vnode).nodeData n g) := by
      intro g hg
      rw [h.kwrite_eq, hg, map_some]
    have hadvance : s.OnFile (advance f buf.length) n := by
      exact ⟨by simpa using h.node, by simpa using h.at_, by simpa using h.read, by simpa using h.write⟩
    rcases hcase with ⟨hlen, g, hg, hw⟩ | herror
    · exact ⟨_, _, _, _, hdone g hg, hadvance.store (by simp) n g, .inl ⟨toInt_eq.mpr hlen, hw⟩⟩
    · obtain ⟨g, hg, hsame⟩ := (harmlessError_iff herror.1).mpr herror
      have hkept : advance f buf.length = f := if_pos herror.1
      exact ⟨_, _, _, _, hdone g hg, hadvance.store (by simp) n g, .inr ⟨herror.1, hsame, by rw [hkept], by rw [hkept]⟩⟩

def emptyNode : RamfsNode := ⟨str "a", .file, 0, 0, S_IFREG, 0, 0⟩

/-- A VFS with an empty file. -/
def emptyFile (heap : Kheap) : Vfs :=
  let s := mounted 4096 [] heap .null
  { s with ramfs := s.ramfs.setNode 8192 emptyNode }

/-- A handle for the empty file. -/
def emptyHandle (flags : Nat) : Kfile := ⟨0, 0, flags, 0, .own ⟨str "/a", .regular, 8192, 0, 0, S_IFREG⟩⟩

theorem emptyFile_stored (replies : List (Option Nat)) :
    ((emptyFile (Kheap.kheapInit (fun _ => 0) replies)).ramfs.file emptyNode).Stored :=
  ⟨⟨_, _, Kheap.laid_kheapInit (fun _ => 0) replies⟩, .inl ⟨rfl, rfl⟩⟩

theorem emptyFile_onFile (heap : Kheap) : (emptyFile heap).OnFile (emptyHandle 0) emptyNode :=
  ⟨show 8192 ≠ 0 by decide, rfl, rfl, rfl⟩

/-- A byte is written to an empty file. -/
theorem write_all_or_nothing_byte :
    AllOrNothing (emptyFile (Kheap.kheapInit (fun _ => 0) [some 1])) (emptyHandle 0) emptyNode [7] := by
  refine (write_all_or_nothing_iff (emptyFile_onFile _) (emptyFile_stored _) (by decide) (by decide) [7]).mpr (.inl ⟨by decide, ?_⟩)
  exact ⟨⟨by decide, fun _ => by decide +kernel⟩, fun _ => by decide⟩

/-- The heap has no page left. The write of a byte is reported, and the data of the file are at NULL. -/
theorem refused_write_reported :
    ∃ (s : Vfs) (f : Kfile) (n : RamfsNode), s.OnFile f n ∧ (s.ramfs.file n).Stored ∧ (s.kwrite f [7]).map (·.1) = some 1 ∧
      ¬ s.AllOrNothing f n [7] := by
  let s := emptyFile (Kheap.kheapInit (fun _ => 0) [])
  have hwrite : (s.kwrite (emptyHandle 0) [7]).map (fun r => (r.1,
      (r.2.2.ramfs.nodes (r.2.2.get r.2.1.vnode).nodeData).map fun n => (n.size, n.data))) =
      some (1, some (1, 0)) := by
    decide +kernel
  refine ⟨s, emptyHandle 0, emptyNode, emptyFile_onFile _, emptyFile_stored _, by decide +kernel, ?_⟩
  rintro ⟨ret, f', s', n', heq, hon, hcase⟩
  rw [heq, map_some] at hwrite
  dsimp only at hwrite
  rw [hon.at_] at hwrite
  obtain ⟨hret, hsize, hdata⟩ : ret = 1 ∧ n'.size = 1 ∧ n'.data = 0 := by simpa using hwrite
  rcases hcase with ⟨-, hwrote⟩ | ⟨hneg, -⟩
  · have hmin : 0 < n'.size → 0x1000 ≤ n'.data := hwrote.1.bounds.2
    omega
  · omega

/-! ## Appending -/

inductive FileCall
  | kwrite (buf : List UInt8)
  | kread (size : Nat)
  | kseek (offset : Int) (whence : Fseek)

/-- The VFS, the handles of a file, and what has been written through them. -/
structure Appending where
  vfs : Vfs
  files : List Kfile
  written : List UInt8

/-- A call with one handle: the handle, the VFS, and the bytes that it was to write. -/
def fileCall (s : Vfs) (f : Kfile) : FileCall → Option (Kfile × Vfs × List UInt8)
  | .kwrite buf => (s.kwrite f buf).map fun (_, f, s) => (f, s, buf)
  | .kread size => (s.kread f size).map fun (_, _, f) => (f, s, [])
  | .kseek offset whence => some (kseek f offset whence, s, [])

/-- A call with the handle at the given place of the list. -/
def appendStep (_ : Nat) (op : Nat × FileCall) (a : Appending) : Option Appending := do
  let f ← a.files[op.1]?
  let (f, s, buf) ← a.vfs.fileCall f op.2
  some ⟨s, a.files.set op.1 f, a.written ++ buf⟩

/-- A handle that was opened for appending to the file with the node `c`. -/
structure Appends (s : Vfs) (c : Nat) (f : Kfile) : Prop where
  node : (s.get f.vnode).nodeData = c
  append : f.flags &&& O_APPEND ≠ 0
  read : f.flags &&& PIPE_READ_END = 0
  write : f.flags &&& PIPE_WRITE_END = 0

/-- The allocations of a write succeed, and its end fits in 64 bits. -/
def appendOk (c : Nat) (op : Nat × FileCall) (a : Appending) : Prop :=
  match op.2 with
  | .kwrite buf => ∀ f ∈ a.files[op.1]?, ∀ n ∈ a.vfs.ramfs.nodes c,
    RamfsFile.writeOk ⟨buf, f.size⟩ (a.vfs.ramfs.file n)
  | _ => True

/-- The size that the handle of a write remembers is that of the file, and the file may grow. -/
def SizeKnown (c : Nat) (op : Nat × FileCall) (a : Appending) : Prop :=
  match op.2 with
  | .kwrite buf => ∀ f ∈ a.files[op.1]?, ∀ n ∈ a.vfs.ramfs.nodes c,
    f.size = n.size ∧ RamfsFile.GrowsSafely ⟨buf, f.size⟩ (a.vfs.ramfs.file n)
  | _ => True

section

variable {c : Nat} {d : List UInt8} {a : Appending} {op : Nat × FileCall}

theorem Appends.onFile (h : s.Appends c f) (hc : c ≠ 0) (hn : s.ramfs.nodes c = some n) : s.OnFile f n :=
  ⟨by rwa [h.node], by rwa [h.node], h.read, h.write⟩

/-- The file has the bytes `d` and what was written, and all handles are for appending to it. -/
structure Appending.Holds (a : Appending) (c : Nat) (d : List UInt8) : Prop where
  files : ∀ f ∈ a.files, a.vfs.Appends c f
  bytes : ∃ n, a.vfs.ramfs.nodes c = some n ∧ (a.vfs.ramfs.file n).Stored ∧
    (a.vfs.ramfs.file n).contents = d ++ a.written

theorem Appends.of_eq (h : s.Appends c f) {f' : Kfile} (hnode : (s'.get f'.vnode).nodeData = (s.get f.vnode).nodeData)
    (hflags : f'.flags = f.flags) : s'.Appends c f' :=
  ⟨hnode.trans h.node, hflags ▸ h.append, hflags ▸ h.read, hflags ▸ h.write⟩

/-- A call that leaves the VFS as it is, and the vnode and the flags of the handle. -/
theorem Appending.Holds.idle (h : a.Holds c d) (hf : f ∈ a.files) {f' : Kfile} (hvnode : f'.vnode = f.vnode)
    (hflags : f'.flags = f.flags) (i : Nat) : Holds ⟨a.vfs, a.files.set i f', a.written ++ []⟩ c d := by
  refine ⟨fun g hg => ?_, by rw [append_nil]; exact h.bytes⟩
  rcases mem_or_eq_of_mem_set hg with hg | rfl
  · exact h.files g hg
  · exact (h.files f hf).of_eq (by rw [hvnode]) hflags

theorem Appending.Holds.step (hc : c ≠ 0) (h : a.Holds c d) (hi : op.1 < a.files.length) (hok : appendOk c op a)
    (hknown : SizeKnown c op a) : ∃ a', appendStep 0 op a = some a' ∧ a'.Holds c d := by
  obtain ⟨i, call⟩ := op
  have hget : a.files[i]? = some a.files[i] := List.getElem?_eq_getElem hi
  have hmem : a.files[i] ∈ a.files := getElem_mem hi
  obtain ⟨n, hn, hstored, hbytes⟩ := h.bytes
  have happends := h.files _ hmem
  have hon := happends.onFile hc hn
  unfold appendStep
  rw [hget, bind_eq_bind, bind_some]
  cases call with
  | kwrite buf =>
    obtain ⟨hsize, hgrows⟩ := hknown _ hget n hn
    have hok := hok _ hget n hn
    rw [hsize] at hgrows hok
    obtain ⟨g, hg, hstored', hbytes'⟩ := hstored.append hok hgrows
    have hposition : position a.files[i] = n.size := (if_pos happends.append).trans hsize
    refine ⟨⟨a.vfs.store c n g, a.files.set i (advance a.files[i] buf.length), a.written ++ buf⟩, ?_, ?_, ?_⟩
    · rw [fileCall, hon.kwrite_eq, hposition, happends.node]
      change ((Option.map _ (Option.map _ ((a.vfs.ramfs.file n).ramfsWrite buf (a.vfs.ramfs.file n).size))).bind _) = _
      rw [hg]
      rfl
    · intro f hf
      have hsame : ∀ u, ((a.vfs.store c n g).get u) = a.vfs.get u := fun u => by cases u <;> rfl
      rcases mem_or_eq_of_mem_set hf with hf | rfl
      · exact (h.files f hf).of_eq (by rw [hsame]) rfl
      · exact happends.of_eq (by rw [hsame, advance_vnode]) (advance_flags _ _)
    · refine ⟨_, update_self c _ _, hstored', ?_⟩
      rwa [← append_assoc, ← hbytes]
  | kread size =>
    obtain ⟨ret, out, f', hread, hvnode, hflags⟩ : ∃ ret out f', a.vfs.kread a.files[i] size = some (ret, out, f') ∧
        f'.vnode = a.files[i].vnode ∧ f'.flags = a.files[i].flags := by
      rw [hon.kread_eq]
      dsimp only
      split
      · exact ⟨_, _, _, rfl, rfl, rfl⟩
      · exact ⟨_, _, _, rfl, rfl, rfl⟩
    exact ⟨_, by rw [fileCall, hread]; rfl, h.idle hmem hvnode hflags i⟩
  | kseek offset whence =>
    exact ⟨_, rfl, h.idle hmem (by cases whence <;> rfl) (by cases whence <;> rfl) i⟩

/-- In every run of calls with handles for appending to a file in which the handle of every write knows the size
of the file, the file has its first bytes and those that were written, in the order of the calls, and every
further call returns. -/
theorem append_keeps_bytes {files : List Kfile} (hc : c ≠ 0) (hfiles : ∀ f ∈ files, s.Appends c f)
    (hn : s.ramfs.nodes c = some n) (hstored : (s.ramfs.file n).Stored)
    (hrun : Run appendStep (fun op a => appendOk c op a ∧ SizeKnown c op a) ⟨s, files, []⟩ a) :
    (∃ n', a.vfs.ramfs.nodes c = some n' ∧
      (a.vfs.ramfs.file n').contents = (s.ramfs.file n).contents ++ a.written) ∧
    ∀ op : Nat × FileCall, op.1 < a.files.length → appendOk c op a → SizeKnown c op a →
      (appendStep 0 op a).isSome := by
  have hholds : a.Holds c (s.ramfs.file n).contents := by
    induction hrun with
    | init => exact ⟨hfiles, n, hn, hstored, (append_nil _).symm⟩
    | @next a1 a2 op _ _ hop hstep h =>
      have hi : op.1 < a1.files.length := by
        obtain ⟨f, hf, -⟩ := bind_eq_some_iff.mp hstep
        exact (List.getElem?_eq_some_iff.mp hf).1
      obtain ⟨a', heq, h'⟩ := h.step hc hi hop.1 hop.2
      obtain rfl := some.inj (heq.symm.trans hstep)
      exact h'
  obtain ⟨n', hn', -, hbytes⟩ := hholds.bytes
  refine ⟨⟨n', hn', hbytes⟩, fun op hi hok hknown => ?_⟩
  obtain ⟨a', heq, -⟩ := hholds.step hc hi hok hknown
  rw [heq]
  rfl

/-- A byte is appended to an empty file. -/
theorem append_keeps_bytes_one : ∃ a n, Run appendStep (fun op a => appendOk 8192 op a ∧ SizeKnown 8192 op a)
        ⟨emptyFile (Kheap.kheapInit (fun _ => 0) [some 1]), [emptyHandle O_APPEND], []⟩ a ∧
      a.vfs.ramfs.nodes 8192 = some n ∧ (a.vfs.ramfs.file n).contents = [7] := by
  let s := emptyFile (Kheap.kheapInit (fun _ => 0) [some 1])
  have hfiles : ∀ f ∈ [emptyHandle O_APPEND], s.Appends 8192 f := by
    intro f hf
    obtain rfl := mem_singleton.mp hf
    exact ⟨rfl, by decide, by decide, by decide⟩
  have hok : appendOk 8192 (0, .kwrite [7]) ⟨s, [emptyHandle O_APPEND], []⟩ := by
    intro f hf n hn
    cases hf
    cases hn
    exact ⟨by decide, fun _ => by decide +kernel⟩
  have hknown : SizeKnown 8192 (0, .kwrite [7]) ⟨s, [emptyHandle O_APPEND], []⟩ := by
    intro f hf n hn
    cases hf
    cases hn
    exact ⟨rfl, fun _ => by decide⟩
  have hexec : (appendStep 0 (0, .kwrite [7]) ⟨s, [emptyHandle O_APPEND], []⟩).map (·.written) = some [7] := by
    decide +kernel
  obtain ⟨a, ha, hwritten⟩ := map_eq_some_iff.mp hexec
  have hrun : Run appendStep (fun op a => appendOk 8192 op a ∧ SizeKnown 8192 op a)
      ⟨s, [emptyHandle O_APPEND], []⟩ a := .next .init ⟨hok, hknown⟩ ha
  obtain ⟨n, hn, hbytes⟩ := (append_keeps_bytes (by decide) hfiles rfl (emptyFile_stored [some 1]) hrun).1
  exact ⟨a, n, hrun, hn, by rw [hbytes, hwritten]; rfl⟩

/-- Five bytes are written to a new file. A handle is opened for appending, and two bytes are written with
it: the second one takes the place of the first. -/
theorem append_overwrites : ((small.kopen (str "/a") O_CREAT 0).bind fun (r, s) => r.toOption.bind fun f =>
      (s.kwrite f [1, 2, 3, 4, 5]).bind fun (_, _, s) => (s.kopen (str "/a") O_APPEND 0).bind fun (r, s) =>
        r.toOption.bind fun f => (exec appendStep (fun _ _ => True) 0 [(0, .kwrite [6]), (0, .kwrite [7])]
          ⟨s, [f], []⟩).bind fun a => (a.vfs.ramfs.nodes 8192).map fun n =>
            (a.written, (a.vfs.ramfs.file n).contents)) = some ([6, 7], [1, 2, 3, 4, 5, 7]) := by
  decide +kernel

end

end Vfs

end Lapis.Fs
