/-
Lapis.Fs.Kfile — files of the kernel (kfile.c).

The flags of a file are the 32 bits of an `int`. Pipes are not implemented in the source.
-/
import Lapis.Fs.Vfs

namespace Lapis.Fs.Vfs

open Util

def O_CREAT : Nat := 0x40
def O_APPEND : Nat := 0x400
def O_DIRECTORY : Nat := 0x10000
def PIPE_READ_END : Nat := 1 <<< 20
def PIPE_WRITE_END : Nat := 1 <<< 21

def f2vflags (flags : Nat) : Nat :=
  (if flags &&& O_CREAT ≠ 0 then Ramfs.V_CREATE else 0) |||
    (if flags &&& O_DIRECTORY ≠ 0 then Ramfs.V_DIR else 0)

def kopen (s : Vfs) (path : Str) (flags mode : Nat) : Option (Except Int Kfile × Vfs) := do
  let create := if flags &&& O_CREAT ≠ 0 then s.vfsCreate path mode else some (EOK, s)
  let (res, s) ← create
  if flags &&& O_CREAT ≠ 0 ∧ res ≠ EOK ∧ res ≠ -EEXIST then some (.error res, s)
  else do
    match ← s.vfsOpen path (f2vflags (flags &&& (2 ^ 32 - 1 - O_CREAT))) with
    | (.error e, s) => some (.error e, s)
    | (.ok f, s) => some (.ok { f with offset := 0, flags := flags }, s)

/-- `kread`: what it returns, as a signed number, the buffer, and the file. -/
def kread (s : Vfs) (f : Kfile) (size : Nat) : Option (Int × List UInt8 × Kfile) :=
  if f.flags &&& PIPE_READ_END ≠ 0 then some (-ENOSYS, [], f)
  else if f.flags &&& PIPE_WRITE_END ≠ 0 then some (0, [], f)
  else do
    let r ← s.ramfs.ramfsRead (s.get f.vnode) size f.offset
    if r.status ≠ EOK then some (-r.status, r.out, f)
    else some (r.bytes, r.out, { f with offset := (f.offset + r.bytes) % 2 ^ 64 })

def kwrite (s : Vfs) (f : Kfile) (buf : List UInt8) : Option (Int × Kfile × Vfs) :=
  if f.flags &&& PIPE_WRITE_END ≠ 0 then some (-ENOSYS, f, s)
  else if f.flags &&& PIPE_READ_END ≠ 0 then some (0, f, s)
  else do
    let offset := if f.flags &&& O_APPEND ≠ 0 then f.size else f.offset
    let (ret, s) ← s.vfsWrite f.vnode buf offset
    if ret < 0 then some (ret, f, s)
    else
      let last := (f.offset + buf.length) % 2 ^ 64
      some (ret, { f with size := if f.size < last then last else f.size, offset := last }, s)

/-- `fseek_t`. -/
inductive Fseek
  | set
  | cur
  | end_
  deriving DecidableEq

/-- `kseek`; the offset is an `off_t`. -/
def kseek (f : Kfile) (offset : Int) (whence : Fseek) : Kfile :=
  match whence with
  | .cur => { f with offset := ((f.offset + offset) % 2 ^ 64).toNat }
  | .end_ => { f with offset := ((f.size + offset) % 2 ^ 64).toNat }
  | .set => { f with offset := (offset % 2 ^ 64).toNat }

/-- `kclose`; the file is freed. -/
def kclose (s : Vfs) (f : Kfile) : Int × Vfs :=
  if f.flags &&& PIPE_READ_END ≠ 0 ∨ f.flags &&& PIPE_WRITE_END ≠ 0 then (0, s)
  else s.vfsClose f.vnode

end Lapis.Fs.Vfs
