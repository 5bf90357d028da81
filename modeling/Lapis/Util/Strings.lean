/-
Lapis.Util.Strings — the string functions of memory.c that the file systems use.

A C string is the list of its bytes, without the zero at the end. `strcmp` is used only to ask whether
two strings are equal. `strtok` and `strtok_r` are called with the delimiter "/" only; the first keeps
its place in a static variable, the second in a variable of the caller. The place is a pointer into the
buffer that is cut up: NULL, the rest of the buffer, or, once the buffer is freed, a pointer that must
not be used.
-/
import Mathlib.Data.List.Basic

namespace Lapis.Util

abbrev Str := List UInt8

def slash : UInt8 := 0x2F

/-- The bytes of a string literal. -/
def str (s : String) : Str := s.toUTF8.toList

/-! ## strtok -/

/-- What `strtok` and `strtok_r` do from a place: the token that starts there, and the next place, which
is NULL when the token ends the string. -/
def strtokFrom (s : Str) : Option (Str × Option Str) :=
  let s := s.dropWhile (· = slash)
  if s = [] then none
  else some (s.takeWhile (· ≠ slash), (s.dropWhile (· ≠ slash)).tail?)

/-- The static variable `next` of `strtok`. -/
inductive Strtok
  | null
  | at (rest : Str)
  | dangling
  deriving DecidableEq, Repr

/-- `strtok(NULL, "/")`; there is no telling what it does with a pointer into freed memory. -/
def strtok : Strtok → Option (Option Str × Strtok)
  | .null => some (none, .null)
  | .at s =>
    match strtokFrom s with
    | none => some (none, .at [])
    | some (token, none) => some (some token, .null)
    | some (token, some rest) => some (some token, .at rest)
  | .dangling => none

/-- The buffer of the last tokens is freed. -/
def Strtok.free : Strtok → Strtok
  | .at _ => .dangling
  | next => next

/-! ## strrchr -/

/-- The string before the last slash and the string behind it, if there is a slash. -/
def splitLast : Str → Option (Str × Str)
  | [] => none
  | c :: s =>
    match splitLast s with
    | some (front, back) => some (c :: front, back)
    | none => if c = slash then some ([], s) else none

/-! ## Paths -/

/-- The pieces between slashes, the empty ones too. -/
def pieces : Str → List Str
  | [] => [[]]
  | c :: s =>
    if c = slash then [] :: pieces s
    else
      match pieces s with
      | piece :: rest => (c :: piece) :: rest
      | [] => [[c]]

/-- The names of a path. -/
def components (path : Str) : List Str := (pieces path).filter (· ≠ [])

/-- The names before the last slash of a path. -/
def dirNames (path : Str) : List Str := (splitLast path).elim [] fun (front, _) => components front

/-- What stands behind the last slash of a path. -/
def baseName (path : Str) : Str := (splitLast path).elim [] (·.2)

end Lapis.Util
