/-
Lapis.Lib.Forest — trees of tables kept in a store.

A store says for every table and index which table the entry points to; a forest adds a root for
every tree. `node k p` is the table at the path `p` of the tree `k`. The paths that count are
those in `inner`, a set closed under prefixes, and `Separated` says that a table stands at one
inner path of one tree only. Under it a change of one entry is local: `node_setChild` gives the
paths that do not go through the entry, `node_link` the effect of hanging in an empty table and
`node_unlink` that of taking an empty table out.
-/
import Mathlib.Data.List.Infix
import Mathlib.Logic.Function.Basic

namespace Lapis.Lib

open Function List Option

/-- A root for every tree, and the table an entry points to. -/
structure Forest (K N I : Type) where
  root : K → Option N
  child : N → I → Option N

namespace Forest

variable {K N I : Type}

/-- The table reached from `t` along a path. -/
def descend (F : Forest K N I) (t : N) : List I → Option N
  | [] => some t
  | i :: p => (F.child t i).bind (F.descend · p)

/-- The table at a path of a tree. -/
def node (F : Forest K N I) (k : K) (p : List I) : Option N := (F.root k).bind (F.descend · p)

theorem descend_append (F : Forest K N I) (t : N) (p q : List I) :
    F.descend t (p ++ q) = (F.descend t p).bind (F.descend · q) := by
  induction p generalizing t with
  | nil => rfl
  | cons i p ih =>
    cases h : F.child t i with
    | none => simp [descend, h]
    | some u => simp [descend, h, ih]

theorem node_append (F : Forest K N I) (k : K) (p q : List I) :
    F.node k (p ++ q) = (F.node k p).bind (F.descend · q) := by
  cases h : F.root k with
  | none => simp [node, h]
  | some t => simp [node, h, descend_append]

theorem node_concat (F : Forest K N I) (k : K) (p : List I) (i : I) :
    F.node k (p ++ [i]) = (F.node k p).bind (F.child · i) := by
  rw [node_append]
  cases F.node k p with
  | none => rfl
  | some t => cases h : F.child t i <;> simp [descend, h]

theorem node_nil (F : Forest K N I) (k : K) : F.node k [] = F.root k := by
  cases h : F.root k <;> simp [node, descend, h]

variable {F : Forest K N I} {inner : List I → Prop}

/-- With a path its prefixes count. -/
def Closed (inner : List I → Prop) : Prop := inner [] ∧ ∀ p i, inner (p ++ [i]) → inner p

variable {p : List I}

theorem Closed.dropLast (h : Closed inner) (hp : inner p) : inner p.dropLast := by
  rcases eq_nil_or_concat p with rfl | ⟨q, i, rfl⟩
  · exact h.1
  · rw [concat_eq_append] at hp ⊢
    rw [dropLast_concat]
    exact h.2 q i hp

theorem Closed.of_append (h : Closed inner) {r : List I} (hp : inner (p ++ r)) : inner p := by
  induction r using List.reverseRecOn with
  | nil => rwa [append_nil] at hp
  | append_singleton r i ih =>
    rw [← append_assoc] at hp
    exact ih (h.2 (p ++ r) i hp)

/-- A table stands at one inner path of one tree only. -/
def Separated (F : Forest K N I) (inner : List I → Prop) : Prop :=
  ∀ k p k' p' t, inner p → inner p' → F.node k p = some t → F.node k' p' = some t →
    k = k' ∧ p = p'

variable {q : List I}

/-- Entries of tables that stand nowhere do not matter. -/
theorem node_congr {F' : Forest K N I} (hclosed : Closed inner) {k : K} (hroot : F'.root k = F.root k)
    (hchild : ∀ p i t, inner p → F.node k p = some t → F'.child t i = F.child t i)
    (hq : inner q.dropLast) : F'.node k q = F.node k q := by
  induction q using List.reverseRecOn with
  | nil => rw [node_nil, node_nil, hroot]
  | append_singleton p i ih =>
    rw [dropLast_concat] at hq
    rw [node_concat, node_concat, ih (hclosed.dropLast hq)]
    cases ht : F.node k p with
    | none => rfl
    | some t => exact hchild p i t hq ht

/-- A path below an entry that points nowhere, or to an empty table, leads nowhere. -/
theorem node_below_eq_none {k : K} {t : N} {i : I} (ht : F.node k p = some t)
    (hempty : ∀ n, F.child t i = some n → ∀ j, F.child n j = none) {j : I} {r : List I} :
    F.node k (p ++ [i] ++ j :: r) = none := by
  rw [node_append, node_concat, ht, bind_some]
  cases hn : F.child t i with
  | none => rfl
  | some n => simp [descend, hempty n hn j]

variable {k : K} {p : List I} {t : N} {i : I} {x : Option N}

/-- Every table but the top ones, and but the one at the path `p₀` of the tree `k₀`, has an
entry. -/
def FullBut (F : Forest K N I) (inner : List I → Prop) (k₀ : K) (p₀ : List I) : Prop :=
  ∀ k p t, inner p → p ≠ [] → ¬ (k = k₀ ∧ p = p₀) → F.node k p = some t →
    ∃ j, F.child t j ≠ none

theorem FullBut.except (h : F.FullBut inner k []) (p : List I) : F.FullBut inner k p :=
  fun k' q u hq hne _ => h k' q u hq hne fun heq => hne heq.2

/-- The exception is none when its table has an entry. -/
theorem FullBut.fill (h : F.FullBut inner k p) (ht : F.node k p = some t)
    (hi : F.child t i ≠ none) : F.FullBut inner k [] := by
  intro k' q u hq hne _ hu
  by_cases heq : k' = k ∧ q = p
  · obtain ⟨rfl, rfl⟩ := heq
    cases ht.symm.trans hu
    exact ⟨i, hi⟩
  · exact h k' q u hq hne heq hu

/-- Nor when there is no such table. -/
theorem FullBut.absent (h : F.FullBut inner k p) (hnone : F.node k p = none) : F.FullBut inner k [] := by
  intro k' q u hq hne _ hu
  refine h k' q u hq hne ?_ hu
  rintro ⟨rfl, rfl⟩
  simp [hnone] at hu

section SetChild

variable [DecidableEq N] [DecidableEq I]

/-- One entry is changed. -/
def setChild (F : Forest K N I) (t : N) (i : I) (x : Option N) : Forest K N I where
  root := F.root
  child := update F.child t (update (F.child t) i x)

theorem child_setChild (F : Forest K N I) (t : N) (i : I) (x : Option N) (u : N) (j : I) :
    (F.setChild t i x).child u j = if u = t ∧ j = i then x else F.child u j := by
  by_cases hu : u = t
  · subst hu
    by_cases hj : j = i
    · subst hj
      simp [setChild]
    · simp [setChild, hj]
  · simp [setChild, hu]

variable {k' : K}

section

variable (hclosed : Closed inner) (hsep : F.Separated inner) (hp : inner p)
  (ht : F.node k p = some t)

include hclosed hsep hp ht

/-- A path that does not go through the entry leads where it led. -/
theorem node_setChild (hq : inner q.dropLast) (hout : k' = k → ¬ (p ++ [i]) <+: q) :
    (F.setChild t i x).node k' q = F.node k' q := by
  induction q using List.reverseRecOn with
  | nil => rw [node_nil, node_nil]; rfl
  | append_singleton r j ih =>
    rw [dropLast_concat] at hq
    have hout' : k' = k → ¬ (p ++ [i]) <+: r :=
      fun hk hpre => hout hk (hpre.trans (prefix_append r [j]))
    rw [node_concat, node_concat, ih (hclosed.dropLast hq) hout']
    cases hu : F.node k' r with
    | none => rfl
    | some u =>
      rw [bind_some, bind_some, child_setChild, if_neg]
      rintro ⟨rfl, rfl⟩
      obtain ⟨rfl, rfl⟩ := hsep k' r k p u hq hp hu ht
      exact hout rfl (prefix_refl _)

/-- The table an entry points to, after the change. -/
theorem node_setChild_self : (F.setChild t i x).node k (p ++ [i]) = x := by
  have hsame : (F.setChild t i x).node k p = F.node k p := by
    refine node_setChild hclosed hsep hp ht (hclosed.dropLast hp) fun _ hpre => ?_
    have hlen := hpre.length_le
    rw [length_append, length_singleton] at hlen
    omega
  rw [node_concat, hsame, ht, bind_some, child_setChild, if_pos ⟨rfl, rfl⟩]

/-- An entry that pointed nowhere or to an empty table now points nowhere or to an empty table. -/
theorem node_replace (hold : ∀ n, F.child t i = some n → ∀ j, F.child n j = none)
    (hnew : ∀ n, x = some n → n ≠ t ∧ ∀ j, F.child n j = none)
    (hq : inner q.dropLast) (hne : ¬ (k' = k ∧ q = p ++ [i])) :
    (F.setChild t i x).node k' q = F.node k' q := by
  by_cases hin : k' = k ∧ (p ++ [i]) <+: q
  · obtain ⟨rfl, r, rfl⟩ := hin
    cases r with
    | nil => exact absurd ⟨rfl, append_nil _⟩ hne
    | cons j r =>
    rw [node_below_eq_none ht hold]
    have hself := node_setChild_self (i := i) (x := x) hclosed hsep hp ht
    rw [node_append, hself]
    cases x with
    | none => rfl
    | some n =>
      obtain ⟨hnt, hnone⟩ := hnew n rfl
      have hchild : (F.setChild t i (some n)).child n j = none := by
        rw [child_setChild, if_neg fun h => hnt h.1, hnone]
      simp [descend, hchild]
  · exact node_setChild hclosed hsep hp ht hq fun hk hpre => hin ⟨hk, hpre⟩

/-- The forest stays separated when the new table stood nowhere. -/
theorem Separated.replace (hold : ∀ n, F.child t i = some n → ∀ j, F.child n j = none)
    (hnew : ∀ n, x = some n → (∀ j, F.child n j = none) ∧
      ∀ k' q, inner q → F.node k' q ≠ some n) : (F.setChild t i x).Separated inner := by
  have hnew' : ∀ n, x = some n → n ≠ t ∧ ∀ j, F.child n j = none := by
    intro n hn
    refine ⟨?_, (hnew n hn).1⟩
    rintro rfl
    exact (hnew n hn).2 k p hp ht
  have hself := node_setChild_self (i := i) (x := x) hclosed hsep hp ht
  intro k1 p1 k2 p2 u h1 h2 hu1 hu2
  by_cases he1 : k1 = k ∧ p1 = p ++ [i] <;> by_cases he2 : k2 = k ∧ p2 = p ++ [i]
  · exact ⟨he1.1.trans he2.1.symm, he1.2.trans he2.2.symm⟩
  · rw [he1.1, he1.2, hself] at hu1
    rw [node_replace hclosed hsep hp ht hold hnew' (hclosed.dropLast h2) he2] at hu2
    exact absurd hu2 ((hnew u hu1).2 k2 p2 h2)
  · rw [he2.1, he2.2, hself] at hu2
    rw [node_replace hclosed hsep hp ht hold hnew' (hclosed.dropLast h1) he1] at hu1
    exact absurd hu1 ((hnew u hu2).2 k1 p1 h1)
  · rw [node_replace hclosed hsep hp ht hold hnew' (hclosed.dropLast h1) he1] at hu1
    rw [node_replace hclosed hsep hp ht hold hnew' (hclosed.dropLast h2) he2] at hu2
    exact hsep k1 p1 k2 p2 u h1 h2 hu1 hu2

end

/-- The entries of other tables are as they were. -/
theorem child_setChild_of_path (hsep : F.Separated inner) (hp : inner p)
    (ht : F.node k p = some t) {u : N} (hq : inner q)
    (hu : F.node k' q = some u) (hne : ¬ (k' = k ∧ q = p)) (j : I) :
    (F.setChild t i x).child u j = F.child u j := by
  rw [child_setChild, if_neg]
  rintro ⟨rfl, -⟩
  exact hne (hsep k' q k p u hq hp hu ht)

section

variable (hclosed : Closed inner) (hsep : F.Separated inner) (hp : inner p)
  (ht : F.node k p = some t)

include hclosed hsep hp ht

/-- A new empty table is the exception of the forest it is hung into. -/
theorem FullBut.link (h : F.FullBut inner k p) (hnone : F.child t i = none) {n : N}
    (hempty : ∀ j, F.child n j = none) (hnt : n ≠ t) :
    (F.setChild t i (some n)).FullBut inner k (p ++ [i]) := by
  intro k' q u hq hne hex hu
  rw [node_replace hclosed hsep hp ht (by rw [hnone]; nofun)
    (fun m hm => by obtain rfl := some.inj hm; exact ⟨hnt, hempty⟩)
    (hclosed.dropLast hq) hex] at hu
  by_cases heq : k' = k ∧ q = p
  · obtain ⟨rfl, rfl⟩ := heq
    cases ht.symm.trans hu
    exact ⟨i, by rw [child_setChild, if_pos ⟨rfl, rfl⟩]; exact some_ne_none n⟩
  · obtain ⟨j, hj⟩ := h k' q u hq hne heq hu
    exact ⟨j, by rw [child_setChild_of_path hsep hp ht hq hu heq]; exact hj⟩

/-- When the exception is taken out, the table above it is the exception. -/
theorem FullBut.unlink (h : F.FullBut inner k (p ++ [i]))
    (hold : ∀ n, F.child t i = some n → ∀ j, F.child n j = none) :
    (F.setChild t i none).FullBut inner k p := by
  intro k' q u hq hne hex hu
  by_cases heq : k' = k ∧ q = p ++ [i]
  · simp [heq.1, heq.2, node_setChild_self hclosed hsep hp ht] at hu
  · rw [node_replace (x := none) hclosed hsep hp ht hold nofun (hclosed.dropLast hq) heq] at hu
    obtain ⟨j, hj⟩ := h k' q u hq hne heq hu
    exact ⟨j, by rw [child_setChild_of_path hsep hp ht hq hu hex]; exact hj⟩

/-- An entry below which no inner path goes. -/
theorem FullBut.setChild (h : F.FullBut inner k p)
    (hleaf : ∀ q, inner q → ¬ (p ++ [i]) <+: q) : (F.setChild t i x).FullBut inner k p := by
  intro k' q u hq hne hex hu
  rw [node_setChild hclosed hsep hp ht (hclosed.dropLast hq) fun _ => hleaf q hq] at hu
  obtain ⟨j, hj⟩ := h k' q u hq hne hex hu
  exact ⟨j, by rw [child_setChild_of_path hsep hp ht hq hu hex]; exact hj⟩

end

end SetChild

end Forest

end Lapis.Lib
