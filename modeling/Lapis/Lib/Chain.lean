/-
Lapis.Lib.Chain — singly linked lists in memory.

The elements are addresses, 0 is the null pointer, and `next` gives the link of every element.
`Chain next head l` says that the pointers from `head` on spell the list `l` and end in 0. An element
is put in front by setting its link to the head, and taken out by setting the link of the element
before it.
-/
import Mathlib.Logic.Function.Basic

namespace Lapis.Lib

open Function List

/-- The pointers from `head` on spell `l`. -/
def Chain (next : Nat → Nat) : Nat → List Nat → Prop
  | head, [] => head = 0
  | head, a :: l => head = a ∧ a ≠ 0 ∧ Chain next (next a) l

namespace Chain

variable {next next' : Nat → Nat} {head x q : Nat} {l l' A B : List Nat}

section

variable (h : Chain next head l)

include h

/-- Only the links of the elements matter. -/
theorem congr (heq : ∀ a ∈ l, next' a = next a) : Chain next' head l := by
  induction l generalizing head with
  | nil => exact h
  | cons a l ih =>
    obtain ⟨rfl, hne, hrest⟩ := h
    refine ⟨rfl, hne, ?_⟩
    rw [heq head mem_cons_self]
    exact ih hrest fun b hb => heq b (mem_cons_of_mem head hb)

theorem ne_zero (hx : x ∈ l) : x ≠ 0 := by
  induction l generalizing head with
  | nil => cases hx
  | cons a l ih =>
    obtain ⟨-, hne, hrest⟩ := h
    rcases mem_cons.mp hx with rfl | hx
    · exact hne
    · exact ih hrest hx

theorem head_eq_zero : head = 0 ↔ l = [] := by
  cases l with
  | nil => exact iff_of_true h rfl
  | cons a l => exact iff_of_false (fun hzero => h.2.1 (h.1 ▸ hzero)) (cons_ne_nil a l)

theorem eq_of_head (h' : Chain next head l') : l = l' := by
  induction l generalizing head l' with
  | nil => exact (h'.head_eq_zero.mp h).symm
  | cons a l ih =>
    obtain ⟨rfl, hne, hrest⟩ := h
    cases l' with
    | nil => exact absurd h' hne
    | cons b l' =>
      obtain ⟨rfl, -, hrest'⟩ := h'
      rw [ih hrest hrest']

/-- A new element in front. -/
theorem push (hx : x ≠ 0) (hnot : x ∉ l) : Chain (update next x head) x (x :: l) := by
  refine ⟨rfl, hx, ?_⟩
  rw [update_self]
  exact h.congr fun a ha => update_of_ne (by rintro rfl; exact hnot ha) ..

end

/-- An element behind `q` is taken out by giving its link to `q`. -/
theorem unlink (h : Chain next head (A ++ q :: x :: B)) (hnodup : (A ++ q :: x :: B).Nodup) :
    Chain (update next q (next x)) head (A ++ q :: B) := by
  induction A generalizing head with
  | nil =>
    obtain ⟨rfl, hne, -, -, hrest⟩ := h
    refine ⟨rfl, hne, ?_⟩
    rw [update_self]
    refine hrest.congr fun a ha => update_of_ne ?_ ..
    rintro rfl
    simp [ha] at hnodup
  | cons a A ih =>
    obtain ⟨rfl, hne, hrest⟩ := h
    rw [cons_append, nodup_cons] at hnodup
    refine ⟨rfl, hne, ?_⟩
    rw [update_of_ne (by rintro rfl; simp at hnodup)]
    exact ih hrest hnodup.2

/-- A new element behind the last one, `q`. -/
theorem append (h : Chain next head (A ++ [q])) (hnodup : (A ++ [q]).Nodup) (hx : x ≠ 0)
    (hother : ∀ a ∈ A, next' a = next a) (hlast : next' q = x) (hend : next' x = 0) :
    Chain next' head (A ++ [q, x]) := by
  induction A generalizing head with
  | nil =>
    obtain ⟨rfl, hne, -⟩ := h
    exact ⟨rfl, hne, hlast, hx, hend⟩
  | cons a A ih =>
    obtain ⟨rfl, hne, hrest⟩ := h
    rw [cons_append, nodup_cons] at hnodup
    refine ⟨rfl, hne, ?_⟩
    rw [hother head mem_cons_self]
    exact ih hrest hnodup.2 fun b hb => hother b (mem_cons_of_mem head hb)

end Chain

end Lapis.Lib
