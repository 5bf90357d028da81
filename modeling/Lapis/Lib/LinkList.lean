/-
Lapis.Lib.LinkList — an intrusive doubly linked list with a head pointer only.

The elements carry the two links; the list itself is only a pointer to its first element.
`Holds l xs` says that the pointers spell the list `xs`; it says nothing of the links of an
element outside `xs`, so those words may be used for something else. The operations are the
constant-time pointer updates `pushFront` and `unlink` (from any position), and each has one
lemma that says which list it leaves.
-/
import Mathlib.Logic.Function.Basic

namespace Lapis.Lib

open Function List

/-- The links of the elements and the head of the list. -/
@[ext]
structure LinkList (α : Type) where
  next : α → Option α
  prev : α → Option α
  head : Option α

namespace LinkList

variable {α : Type}

/-! ## The list the pointers spell -/

/-- The pointers are the list `xs`: the head is its first element and every element points to
its neighbours. -/
structure Holds (l : LinkList α) (xs : List α) : Prop where
  head : l.head = xs.head?
  nodup : xs.Nodup
  spells : ∀ A x B, xs = A ++ x :: B → l.prev x = A.getLast? ∧ l.next x = B.head?

namespace Holds

variable {l : LinkList α} {xs : List α}

theorem head_eq_none_iff (h : l.Holds xs) : l.head = none ↔ xs = [] := by
  rw [h.head, List.head?_eq_none_iff]

theorem head_eq_some_iff (h : l.Holds xs) {x : α} : l.head = some x ↔ ∃ ys, xs = x :: ys := by
  rw [h.head, List.head?_eq_some_iff]

/-- Only the links of the elements and the head matter. -/
theorem congr {l' : LinkList α} (h : l.Holds xs) (hhead : l'.head = l.head)
    (hnext : ∀ x ∈ xs, l'.next x = l.next x) (hprev : ∀ x ∈ xs, l'.prev x = l.prev x) : l'.Holds xs := by
  refine ⟨hhead.trans h.head, h.nodup, ?_⟩
  intro A x B hsplit
  have hx : x ∈ xs := by rw [hsplit]; simp
  rw [hnext x hx, hprev x hx]
  exact h.spells A x B hsplit

end Holds

/-! ## The operations -/

variable [DecidableEq α]

/-- Puts `x` in front of the list. -/
def pushFront (l : LinkList α) (x : α) : LinkList α where
  next := update l.next x l.head
  prev := match l.head with
    | some h => update (update l.prev x none) h (some x)
    | none => update l.prev x none
  head := some x

/-- Takes `x` out of the list, wherever it stands, and clears its links. -/
def unlink (l : LinkList α) (x : α) : LinkList α where
  next := match l.prev x with
    | some p => update (update l.next p (l.next x)) x none
    | none => update l.next x none
  prev := match l.next x with
    | some n => update (update l.prev n (l.prev x)) x none
    | none => update l.prev x none
  head := match l.prev x with
    | some _ => l.head
    | none => l.next x

section Links

variable {x y : α}

theorem unlink_next (l : LinkList α) (hyx : y ≠ x) :
    (l.unlink x).next y = if l.prev x = some y then l.next x else l.next y := by
  unfold unlink
  cases l.prev x with
  | none => simp [hyx]
  | some p =>
    by_cases hpy : p = y
    · simp [hpy, hyx]
    · simp [hpy, hyx, Ne.symm hpy]

theorem unlink_prev (l : LinkList α) (hyx : y ≠ x) :
    (l.unlink x).prev y = if l.next x = some y then l.prev x else l.prev y := by
  unfold unlink
  cases l.next x with
  | none => simp [hyx]
  | some n =>
    by_cases hny : n = y
    · simp [hny, hyx]
    · simp [hny, hyx, Ne.symm hny]

end Links

namespace Holds

variable {l : LinkList α} {xs : List α} {x : α}

/-! ## Pushing -/

theorem pushFront (h : l.Holds xs) (hx : x ∉ xs) : (l.pushFront x).Holds (x :: xs) := by
  refine ⟨rfl, nodup_cons.mpr ⟨hx, h.nodup⟩, ?_⟩
  intro A y B hsplit
  rcases A with _ | ⟨a, A⟩
  · -- the new first element
    obtain ⟨rfl, rfl⟩ : x = y ∧ xs = B := by simpa using hsplit
    refine ⟨?_, by simp [LinkList.pushFront, h.head]⟩
    unfold LinkList.pushFront
    cases hh : l.head with
    | none => simp
    | some z =>
      have hzx : x ≠ z := by
        rintro rfl
        exact hx (List.mem_of_head? (h.head ▸ hh))
      simp [hzx]
  · -- an old element: only the old first one gets a predecessor
    obtain ⟨rfl, hxs⟩ : x = a ∧ xs = A ++ y :: B := by simpa using hsplit
    have hy : y ∈ xs := by rw [hxs]; simp
    have hyx : y ≠ x := by rintro rfl; exact hx hy
    have hold := h.spells A y B hxs
    refine ⟨?_, by simp [LinkList.pushFront, hyx, hold.2]⟩
    have hhead : l.head = (A ++ [y]).head? := by rw [h.head, hxs]; cases A <;> rfl
    cases A with
    | nil =>
      have hhy : l.head = some y := hhead
      simp [LinkList.pushFront, hhy]
    | cons z A =>
    have hhz : l.head = some z := hhead
    have hyz : y ≠ z := by
      rintro rfl
      have hnd := hxs ▸ h.nodup
      simp at hnd
    simp [LinkList.pushFront, hhz, hyz, hyx, hold.1]

/-! ## Unlinking -/

section Unlink

variable {A B : List α}

section

variable (h : l.Holds (A ++ x :: B))

include h

omit [DecidableEq α] in
private theorem links : l.prev x = A.getLast? ∧ l.next x = B.head? :=
  h.spells A x B rfl

/-- The links of an element behind the one taken out. -/
private theorem unlink_behind {y : α} {C D : List α} (hB : B = C ++ y :: D) :
    (l.unlink x).prev y = (A ++ C).getLast? ∧ (l.unlink x).next y = D.head? := by
  have hnd := h.nodup
  have hold := h.spells (A ++ x :: C) y D (by rw [hB]; simp)
  have hxB : x ∉ B := (nodup_cons.mp (nodup_append.mp hnd).2.1).1
  have hyx : y ≠ x := by rintro rfl; exact hxB (by rw [hB]; simp)
  have hyA : A.getLast? ≠ some y := by
    intro hy
    have hmem : y ∈ A := List.mem_of_getLast? hy
    rw [hB] at hnd
    exact (nodup_append.mp hnd).2.2 y hmem y (by simp) rfl
  rw [unlink_next l hyx, unlink_prev l hyx, h.links.1, h.links.2, if_neg hyA]
  refine ⟨?_, hold.2⟩
  cases C with
  | nil => simp [hB]
  | cons c C =>
  have hcy : B.head? ≠ some y := by
    rw [hB]
    intro hcy
    have hcy : c = y := by simpa using hcy
    rw [hB, hcy] at hnd
    simp [nodup_append] at hnd
  rw [if_neg hcy, hold.1]
  simp [List.getLast?_append]

/-- The links of an element before the one taken out. -/
private theorem unlink_before {y : α} {C D : List α} (hA : A = C ++ y :: D) :
    (l.unlink x).prev y = C.getLast? ∧ (l.unlink x).next y = (D ++ B).head? := by
  have hnd := h.nodup
  have hold := h.spells C y (D ++ x :: B) (by rw [hA]; simp)
  have hyB : y ∉ x :: B := by
    intro hy
    exact (nodup_append.mp hnd).2.2 y (by rw [hA]; simp) y hy rfl
  have hyx : y ≠ x := by rintro rfl; simp at hyB
  have hyhead : B.head? ≠ some y := fun hy => hyB (mem_cons_of_mem x (List.mem_of_head? hy))
  rw [unlink_next l hyx, unlink_prev l hyx, h.links.1, h.links.2, if_neg hyhead]
  refine ⟨hold.1, ?_⟩
  cases D with
  | nil => simp [hA]
  | cons d D =>
  have hne : A.getLast? ≠ some y := by
    intro hy
    have hmem : y ∈ d :: D := by
      apply List.mem_of_getLast?
      rw [hA, List.getLast?_append, List.getLast?_cons_cons] at hy
      simpa using hy
    have hndA := (nodup_append.mp hnd).1
    rw [hA] at hndA
    exact (nodup_cons.mp (nodup_append.mp hndA).2.1).1 hmem
  rw [if_neg hne, hold.2]
  rfl

theorem unlink : (l.unlink x).Holds (A ++ B) := by
  refine ⟨?_, ?_, ?_⟩
  · unfold LinkList.unlink
    rw [h.links.1, h.links.2, h.head]
    cases A with
    | nil => rfl
    | cons a A => simp [List.getLast?_cons]
  · exact h.nodup.sublist (List.Sublist.append_left (sublist_cons_self x B) A)
  · intro C y D hsplit
    rcases append_eq_append_iff.mp hsplit with ⟨E, rfl, hB⟩ | ⟨E, hA, hD⟩
    · exact h.unlink_behind hB
    cases E with
    | nil =>
      have := h.unlink_behind (C := []) (y := y) (D := D) (by simpa using hD.symm)
      simpa [hA] using this
    | cons e E =>
      obtain ⟨rfl, rfl⟩ : y = e ∧ D = E ++ B := by simpa using hD
      exact h.unlink_before hA

end

end Unlink

end Holds

end LinkList

end Lapis.Lib
