/-
Lapis.Lib.BitFlags — flag words tested and changed by masks.

A flag word is a bit vector and a flag is a mask with one bit. `has w m` is C's `w & m` used
as a condition; for a one-bit mask it is that bit, so that the bit lemmas for `&&&`, `|||` and
`~~~` say what an update leaves.
-/
import Mathlib.Algebra.Ring.Nat
import Mathlib.Data.Nat.Basic

namespace Lapis.Lib

variable {n : Nat}

/-- C's `w & m` as a condition. -/
def has (w m : BitVec n) : Bool := w &&& m != 0

theorem has_twoPow (w : BitVec n) (k : Nat) : has w (BitVec.twoPow n k) = w.getLsbD k := by
  unfold has
  rw [BitVec.and_twoPow]
  by_cases hk : w.getLsbD k
  · have hlt : k < n := BitVec.lt_of_getLsbD hk
    rw [if_pos hk, hk, bne_iff_ne]
    intro hzero
    have hbit := congrArg (BitVec.getLsbD · k) hzero
    simp [hlt] at hbit
  · simp [hk]

end Lapis.Lib
