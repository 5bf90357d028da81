/-
Lapis.Lib.RefCount — how often a partial map takes a value.

A map from keys to the objects they refer to; `refs m v` is the number of keys that refer to `v`.
It is a natural number for maps with finitely many such keys; `refs_update` says how it changes with
one key, and `refs_row` how with a row of them.
-/
import Mathlib.Data.Set.Card

namespace Lapis.Lib

open Function List

variable {K V : Type} {m : K → Option V} {v : V} {k : K} {x : Option V}

/-- The number of keys that refer to `v`. -/
noncomputable def refs (m : K → Option V) (v : V) : Nat := {k | m k = some v}.ncard

/-- Finitely many keys refer to something. -/
def Finitary (m : K → Option V) : Prop := {k | m k ≠ none}.Finite

theorem Finitary.refs_finite (h : Finitary m) (v : V) : {k | m k = some v}.Finite := by
  refine Set.Finite.subset h fun k hk => ?_
  rw [Set.mem_ofPred_eq] at hk ⊢
  rw [hk]
  exact Option.some_ne_none v

theorem Finitary.mono {m' : K → Option V} (h : Finitary m) (hle : ∀ k, m' k ≠ none → m k ≠ none) :
    Finitary m' :=
  Set.Finite.subset h hle

theorem finitary_none : Finitary (fun _ : K => (none : Option V)) := by
  simp [Finitary]

theorem refs_pos (h : Finitary m) (hk : m k = some v) : 0 < refs m v :=
  (Set.ncard_pos (h.refs_finite v)).mpr ⟨k, hk⟩

theorem refs_eq_zero (h : ∀ k, m k ≠ some v) : refs m v = 0 := by
  have hempty : {k | m k = some v} = ∅ := Set.eq_empty_of_forall_notMem h
  rw [refs, hempty, Set.ncard_empty]

section Update

variable [DecidableEq K]

theorem Finitary.update (h : Finitary m) : Finitary (update m k x) := by
  refine Set.Finite.subset (Set.Finite.insert k h) fun j hj => ?_
  by_cases hjk : j = k
  · exact .inl hjk
  · right
    rwa [Set.mem_ofPred_eq, update_of_ne hjk] at hj

private theorem refs_update_none (h : Finitary m) (hk : m k = some v) :
    refs (update m k none) v + 1 = refs m v := by
  have hset : {j | update m k none j = some v} = {j | m j = some v} \ {k} := by
    ext j
    by_cases hjk : j = k <;> simp [hjk]
  rw [refs, refs, hset, Set.ncard_sdiff_singleton_add_one (show k ∈ {j | m j = some v} from hk)
    (h.refs_finite v)]

private theorem refs_update_some (h : Finitary m) (hk : m k ≠ some v) :
    refs (update m k (some v)) v = refs m v + 1 := by
  have hset : {j | update m k (some v) j = some v} = insert k {j | m j = some v} := by
    ext j
    by_cases hjk : j = k <;> simp [hjk]
  rw [refs, refs, hset, Set.ncard_insert_of_notMem (show k ∉ {j | m j = some v} from hk)
    (h.refs_finite v)]

private theorem refs_update_other (hx : x ≠ some v) (hk : m k ≠ some v) :
    refs (update m k x) v = refs m v := by
  have hset : {j | update m k x j = some v} = {j | m j = some v} := by
    ext j
    by_cases hjk : j = k
    · simp [hjk, hx, hk]
    · simp [hjk]
  rw [refs, refs, hset]

theorem refs_update [DecidableEq V] (h : Finitary m) :
    refs (update m k x) v + (if m k = some v then 1 else 0) = refs m v + (if x = some v then 1 else 0) := by
  by_cases hk : m k = some v <;> by_cases hx : x = some v
  · rw [hx, ← hk, update_eq_self, if_pos rfl]
  · have hidem : update m k x = update (update m k none) k x := (update_idem _ _ _).symm
    rw [if_pos hk, if_neg hx, ← refs_update_none h hk, Nat.add_zero, hidem, refs_update_other hx]
    simp
  · rw [if_neg hk, if_pos hx, hx, refs_update_some h hk, Nat.add_zero]
  · rw [if_neg hk, if_neg hx, refs_update_other hx hk]

end Update

section Row

variable {A : Type} [DecidableEq A] {a : A} {l : List (Option V)} {m : A × Nat → Option V}

/-- The keys of one row refer to what a list names, in its order. -/
def row (m : A × Nat → Option V) (a : A) (l : List (Option V)) (k : A × Nat) : Option V :=
  if k.1 = a then l[k.2]?.join else m k

theorem row_nil (hfree : ∀ i, m (a, i) = none) : row m a [] = m := by
  funext ⟨b, i⟩
  by_cases hb : b = a
  · subst hb
    simp [row, hfree]
  · simp [row, hb]

theorem row_append_singleton : row m a (l ++ [x]) = update (row m a l) (a, l.length) x := by
  funext ⟨b, i⟩
  by_cases hb : b = a
  · subst hb
    by_cases hi : i = l.length
    · subst hi
      simp [row]
    · rw [update_of_ne (fun h => hi (Prod.mk.inj h).2)]
      by_cases hlt : i < l.length
      · simp [row, List.getElem?_append_left hlt]
      · have hout : (l ++ [x])[i]? = none := List.getElem?_eq_none (by simp; omega)
        simp [row, hout, List.getElem?_eq_none (Nat.le_of_not_lt hlt)]
  · rw [update_of_ne (fun h => hb (Prod.mk.inj h).1)]
    simp [row, hb]

theorem Finitary.row (h : Finitary m) (hfree : ∀ i, m (a, i) = none) : Finitary (row m a l) := by
  induction l using List.reverseRecOn with
  | nil => rwa [row_nil hfree]
  | append_singleton l x ih =>
    rw [row_append_singleton]
    exact ih.update

theorem refs_row [DecidableEq V] (h : Finitary m) (hfree : ∀ i, m (a, i) = none) :
    refs (row m a l) v = refs m v + l.count (some v) := by
  induction l using List.reverseRecOn with
  | nil => rw [row_nil hfree, count_nil, Nat.add_zero]
  | append_singleton l x ih =>
    have hlast : Lapis.Lib.row m a l (a, l.length) = none := by simp [Lapis.Lib.row]
    have hstep := refs_update (k := (a, l.length)) (x := x) (v := v) (h.row hfree (l := l))
    rw [hlast, if_neg nofun, ih] at hstep
    rw [row_append_singleton, count_append, count_singleton]
    simp only [beq_iff_eq]
    omega

end Row

end Lapis.Lib
