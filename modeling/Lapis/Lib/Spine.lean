/-
Lapis.Lib.Spine — singly linked lists whose links are optional pointers.

`Spine next e xs` says that the pointers from `e` on spell the list `xs`. The elements may be of any type;
the link of an element outside the list may be anything. An element is put in front by setting its link
to the head, and taken out by giving its link to the element before it.
-/
import Mathlib.Logic.Function.Basic

namespace Lapis.Lib

open Function List

variable {α : Type}

/-- The pointers from `e` on spell `xs`. -/
def Spine (next : α → Option α) : Option α → List α → Prop
  | e, [] => e = none
  | e, x :: xs => e = some x ∧ Spine next (next x) xs

namespace Spine

variable {next next' : α → Option α} {e : Option α} {x q : α} {xs ys A B : List α}

/-- Only the links of the elements matter. -/
theorem congr (h : Spine next e xs) (heq : ∀ a ∈ xs, next' a = next a) : Spine next' e xs := by
  induction xs generalizing e with
  | nil => exact h
  | cons a xs ih =>
    refine ⟨h.1, ?_⟩
    rw [heq a mem_cons_self]
    exact ih h.2 fun b hb => heq b (mem_cons_of_mem a hb)

theorem unique (h : Spine next e xs) (h' : Spine next e ys) : xs = ys := by
  induction xs generalizing e ys with
  | nil =>
    cases ys with
    | nil => rfl
    | cons y ys => exact absurd (h.symm.trans h'.1) (by simp)
  | cons x xs ih =>
    cases ys with
    | nil => exact absurd (h'.symm.trans h.1) (by simp)
    | cons y ys =>
      cases h.1.symm.trans h'.1
      rw [ih h.2 h'.2]

variable [DecidableEq α]

/-- A new element in front. -/
theorem push (h : Spine next e xs) (hx : x ∉ xs) : Spine (update next x e) (some x) (x :: xs) := by
  refine ⟨rfl, ?_⟩
  rw [update_self]
  exact h.congr fun a ha => update_of_ne (by rintro rfl; exact hx ha) ..

/-- An element behind `q` is taken out by giving its link to `q`. -/
theorem unlink (h : Spine next e (A ++ q :: x :: B)) (hnodup : (A ++ q :: x :: B).Nodup) :
    Spine (update next q (next x)) e (A ++ q :: B) := by
  induction A generalizing e with
  | nil =>
    obtain ⟨rfl, -, hrest⟩ := h
    refine ⟨rfl, ?_⟩
    rw [update_self]
    refine hrest.congr fun a ha => update_of_ne ?_ ..
    rintro rfl
    simp [ha] at hnodup
  | cons a A ih =>
    rw [cons_append, nodup_cons] at hnodup
    refine ⟨h.1, ?_⟩
    rw [update_of_ne (by rintro rfl; simp at hnodup)]
    exact ih h.2 hnodup.2

end Spine

end Lapis.Lib
