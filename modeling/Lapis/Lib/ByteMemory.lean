/-
Lapis.Lib.ByteMemory — memory as bytes, with little-endian words.

`load mem a k` is the number in the `k` bytes from `a` on, and `store mem a k v` writes the low `k`
bytes of `v` there. What a store does to a load is told by two lemmas, one for the same bytes and one
for others. `fill` and `copy` are the byte loops of `memset` and `memcpy`, with addresses of 64 bits;
as long as nothing wraps around and source and destination are apart, they are what one expects.
-/
import Mathlib.Algebra.Group.Int.Defs
import Mathlib.Algebra.Group.Nat.Defs
import Mathlib.Data.List.Basic
import Mathlib.Logic.Function.Basic

namespace Lapis.Lib

open Function List

/-- A byte for every address. -/
abbrev ByteMemory := Nat → UInt8

namespace ByteMemory

variable {mem mem' : ByteMemory} {a b k n v x : Nat}

/-! ## Words -/

/-- The number in the `k` bytes from `a` on, the lowest byte first. -/
def load (mem : ByteMemory) (a : Nat) : Nat → Nat
  | 0 => 0
  | k + 1 => (mem a).toNat + 256 * load mem (a + 1) k

/-- The low `k` bytes of `v` written from `a` on. -/
def store (mem : ByteMemory) (a : Nat) : Nat → Nat → ByteMemory
  | 0, _ => mem
  | k + 1, v => update (store mem (a + 1) k (v / 256)) a (UInt8.ofNat v)

theorem load_lt (mem : ByteMemory) (a k : Nat) : load mem a k < 256 ^ k := by
  induction k generalizing a with
  | zero => simp [load]
  | succ k ih =>
    have := ih (a + 1)
    have := (mem a).toNat_lt
    rw [load, Nat.pow_succ]
    omega

/-- A load reads its own bytes only. -/
theorem load_congr (h : ∀ x, a ≤ x → x < a + k → mem' x = mem x) : load mem' a k = load mem a k := by
  induction k generalizing a with
  | zero => rfl
  | succ k ih =>
    rw [load, load, h a (Nat.le_refl a) (by omega), ih fun x hx hlt => h x (by omega) (by omega)]

theorem load_eq_zero (h : ∀ x, a ≤ x → x < a + k → mem x = 0) : load mem a k = 0 := by
  induction k generalizing a with
  | zero => rfl
  | succ k ih =>
    rw [load, h a (Nat.le_refl a) (by omega), ih fun x hx hlt => h x (by omega) (by omega)]
    rfl

theorem store_of_out (h : x < a ∨ a + k ≤ x) : store mem a k v x = mem x := by
  induction k generalizing a v with
  | zero => rfl
  | succ k ih =>
    have hne : x ≠ a := by omega
    rw [store, update_of_ne hne]
    exact ih (by omega)

theorem load_store_same (mem : ByteMemory) (a k v : Nat) : load (store mem a k v) a k = v % 256 ^ k := by
  induction k generalizing a v with
  | zero => simp [load, Nat.mod_one]
  | succ k ih =>
    have hrest : load (store mem a (k + 1) v) (a + 1) k = load (store mem (a + 1) k (v / 256)) (a + 1) k :=
      load_congr fun x hx _ => update_of_ne (by omega) ..
    have hbyte : (UInt8.ofNat v).toNat = v % 256 := UInt8.toNat_ofNat'
    rw [load, hrest, ih, store, update_self, hbyte, Nat.pow_succ, Nat.mul_comm (256 ^ k), Nat.mod_mul]

theorem load_store_of_lt (mem : ByteMemory) (a k : Nat) (h : v < 256 ^ k) :
    load (store mem a k v) a k = v := by
  rw [load_store_same, Nat.mod_eq_of_lt h]

/-- A store leaves the words apart from it alone. -/
theorem load_store_other (h : a + k ≤ b ∨ b + n ≤ a) : load (store mem b n v) a k = load mem a k :=
  load_congr fun _ _ _ => store_of_out (by omega)

/-! ## Byte loops -/

/-- `memset`. -/
def fill (mem : ByteMemory) (a : Nat) (c : UInt8) : Nat → ByteMemory
  | 0 => mem
  | n + 1 => update (fill mem a c n) ((a + n) % 2 ^ 64) c

/-- `memcpy`. -/
def copy (mem : ByteMemory) (dest src : Nat) : Nat → ByteMemory
  | 0 => mem
  | n + 1 =>
    update (copy mem dest src n) ((dest + n) % 2 ^ 64) (copy mem dest src n ((src + n) % 2 ^ 64))

theorem fill_apply {c : UInt8} (h : a + n ≤ 2 ^ 64) :
    fill mem a c n x = if a ≤ x ∧ x < a + n then c else mem x := by
  induction n with
  | zero => rw [if_neg (by omega)]; rfl
  | succ n ih =>
    rw [fill, Nat.mod_eq_of_lt (by omega)]
    by_cases hx : x = a + n
    · rw [hx, update_self, if_pos (by omega)]
    · rw [update_of_ne hx, ih (by omega)]
      by_cases hin : a ≤ x ∧ x < a + n
      · rw [if_pos hin, if_pos (by omega)]
      · rw [if_neg hin, if_neg (by omega)]

/-- A copy changes its destination only. -/
theorem copy_of_out {dest src : Nat} (hdest : dest + n ≤ 2 ^ 64) (hx : ¬ (dest ≤ x ∧ x < dest + n)) :
    copy mem dest src n x = mem x := by
  induction n with
  | zero => rfl
  | succ n ih =>
    rw [copy, Nat.mod_eq_of_lt (by omega), update_of_ne (by omega)]
    exact ih (by omega) (by omega)

theorem copy_apply {dest src : Nat} (hdest : dest + n ≤ 2 ^ 64) (hsrc : src + n ≤ 2 ^ 64)
    (hapart : dest + n ≤ src ∨ src + n ≤ dest) : copy mem dest src n x =
      if dest ≤ x ∧ x < dest + n then mem (src + (x - dest)) else mem x := by
  induction n generalizing x with
  | zero => rw [if_neg (by omega)]; rfl
  | succ n ih =>
    rw [copy, Nat.mod_eq_of_lt (by omega), Nat.mod_eq_of_lt (by omega)]
    by_cases hx : x = dest + n
    · rw [hx, update_self, ih (by omega) (by omega) (by omega), if_neg (by omega), if_pos (by omega)]
      congr 1
      omega
    · rw [update_of_ne hx, ih (by omega) (by omega) (by omega)]
      by_cases hin : dest ≤ x ∧ x < dest + n
      · rw [if_pos hin, if_pos (by omega)]
      · rw [if_neg hin, if_neg (by omega)]

/-- `memcpy` from a buffer that holds `bytes`. -/
def put (mem : ByteMemory) (a : Nat) : List UInt8 → ByteMemory
  | [] => mem
  | c :: bytes => put (update mem (a % 2 ^ 64) c) (a + 1) bytes

theorem put_apply {bytes : List UInt8} (h : a + bytes.length ≤ 2 ^ 64) : put mem a bytes x =
      if a ≤ x ∧ x < a + bytes.length then bytes.getD (x - a) 0 else mem x := by
  induction bytes generalizing a mem with
  | nil => rw [if_neg (by simp)]; rfl
  | cons c bytes ih =>
    rw [length_cons] at h ⊢
    rw [put, ih (by omega), Nat.mod_eq_of_lt (by omega)]
    rcases Nat.lt_trichotomy x a with hlt | rfl | hgt
    · rw [if_neg (by omega), if_neg (by omega), update_of_ne (Nat.ne_of_lt hlt)]
    · rw [if_neg (by omega), if_pos (by omega), update_self, Nat.sub_self]
      rfl
    · by_cases hin : x < a + 1 + bytes.length
      · rw [if_pos (by omega), if_pos (by omega), show x - a = x - (a + 1) + 1 by omega, getD_cons_succ]
      · rw [if_neg (by omega), if_neg (by omega), update_of_ne (Nat.ne_of_gt hgt)]

end ByteMemory

end Lapis.Lib
