/-
Lapis.Util.StringsTheorems — tokens are components.

`strtokFrom` gives the first component of a string and leaves the others, and the part of a path behind
its last slash is its last component.
-/
import Lapis.Util.Strings
import Mathlib.Data.List.TakeWhile

namespace Lapis.Util

open List Option

variable {s rest front back token : Str}

/-! ## Components -/

theorem pieces_ne_nil (s : Str) : pieces s ≠ [] := by
  cases s with
  | nil => exact cons_ne_nil _ _
  | cons c s =>
    unfold pieces
    split
    · exact cons_ne_nil _ _
    · split <;> exact cons_ne_nil _ _

theorem components_slash (s : Str) : components (slash :: s) = components s := by
  rw [components, pieces, if_pos rfl, filter_cons_of_neg (by simp)]
  rfl

/-- A string without slashes in front of a string that is empty or begins with one. -/
theorem pieces_append (hnone : slash ∉ token) :
    pieces (token ++ rest) = match pieces rest with
      | piece :: more => (token ++ piece) :: more
      | [] => [token] := by
  induction token with
  | nil =>
    cases hp : pieces rest with
    | nil => exact absurd hp (pieces_ne_nil rest)
    | cons piece more => simp [hp]
  | cons c token ih =>
    rw [mem_cons, not_or] at hnone
    rw [cons_append, pieces, if_neg (fun hc => hnone.1 hc.symm), ih hnone.2]
    cases hp : pieces rest with
    | nil => exact absurd hp (pieces_ne_nil rest)
    | cons piece more => rfl

theorem pieces_slash (s : Str) : pieces (slash :: s) = [] :: pieces s := by
  rw [pieces, if_pos rfl]

theorem components_token (hne : token ≠ []) (hnone : slash ∉ token) : components token = [token] := by
  have hpieces : pieces (token ++ []) = [token ++ []] := pieces_append hnone
  rw [append_nil] at hpieces
  rw [components, hpieces]
  simp [hne]

theorem components_token_slash (hne : token ≠ []) (hnone : slash ∉ token) (rest : Str) :
    components (token ++ slash :: rest) = token :: components rest := by
  rw [components, pieces_append hnone, pieces_slash]
  simp [components, hne]

/-! ## strtok -/

theorem strtokFrom_eq_none (h : strtokFrom s = none) : ∀ c ∈ s, c = slash := by
  unfold strtokFrom at h
  dsimp only at h
  split at h
  · case _ hnil => simpa using dropWhile_eq_nil_iff.mp hnil
  · cases h

theorem components_of_slashes (h : ∀ c ∈ s, c = slash) : components s = [] := by
  induction s with
  | nil => rfl
  | cons c s ih =>
    rw [h c mem_cons_self, components_slash]
    exact ih fun b hb => h b (mem_cons_of_mem c hb)

theorem components_slashes_append {lead : Str} (h : ∀ c ∈ lead, c = slash) (s : Str) :
    components (lead ++ s) = components s := by
  induction lead with
  | nil => rfl
  | cons c lead ih =>
    rw [h c mem_cons_self, cons_append, components_slash]
    exact ih fun b hb => h b (mem_cons_of_mem c hb)

theorem takeWhile_slash (s : Str) : slash ∉ s.takeWhile (· ≠ slash) := by
  intro hmem
  have := List.all_takeWhile (p := fun c => decide (c ≠ slash)) (l := s)
  rw [List.all_eq_true] at this
  simpa using this slash hmem

theorem dropWhile_cases (s : Str) :
    s.dropWhile (· ≠ slash) = [] ∨ ∃ rest, s.dropWhile (· ≠ slash) = slash :: rest := by
  cases hd : s.dropWhile (· ≠ slash) with
  | nil => exact .inl rfl
  | cons c rest =>
    have hhead := List.head?_dropWhile_not (fun c => decide (c ≠ slash)) s
    rw [hd] at hhead
    have hc : c = slash := by simpa using hhead
    exact .inr ⟨rest, by rw [hc]⟩

/-- A place is slashes, the token and, if the token does not end the string, a slash and the next
place. -/
theorem strtokFrom_eq_some {next : Option Str} (h : strtokFrom s = some (token, next)) :
    ∃ lead, s = lead ++ (token ++ next.elim [] (slash :: ·)) ∧ (∀ c ∈ lead, c = slash) ∧ token ≠ [] ∧
      slash ∉ token := by
  unfold strtokFrom at h
  dsimp only at h
  split at h
  · cases h
  · case _ hne =>
    rw [Option.some.injEq, Prod.mk.injEq] at h
    obtain ⟨rfl, rfl⟩ := h
    refine ⟨s.takeWhile (· = slash), ?_, ?_, ?_, takeWhile_slash _⟩
    · have hrest := List.takeWhile_append_dropWhile (p := fun c => decide (c = slash)) (l := s)
      have hsplit := List.takeWhile_append_dropWhile (p := fun c => decide (c ≠ slash))
        (l := s.dropWhile (· = slash))
      nth_rewrite 1 [← hrest]
      nth_rewrite 1 [← hsplit]
      rcases dropWhile_cases (s.dropWhile (· = slash)) with hd | ⟨rest, hd⟩ <;> rw [hd] <;> rfl
    · intro c hc
      have := List.all_takeWhile (p := fun c => decide (c = slash)) (l := s)
      rw [List.all_eq_true] at this
      simpa using this c hc
    · have hhead := List.head?_dropWhile_not (fun c => decide (c = slash)) s
      generalize s.dropWhile (· = slash) = r at hne hhead
      cases r with
      | nil => exact absurd rfl hne
      | cons c r =>
        have hc : c ≠ slash := by simpa using hhead
        rw [List.takeWhile_cons_of_pos (by simpa using hc)]
        exact List.cons_ne_nil _ _

/-- A token is the first component, and the next place has the others. -/
theorem components_of_strtokFrom {next : Option Str} (h : strtokFrom s = some (token, next)) :
    components s = token :: components (next.getD []) ∧ (next.getD []).length < s.length := by
  obtain ⟨lead, rfl, hlead, hne, hnone⟩ := strtokFrom_eq_some h
  have hpos := length_pos_of_ne_nil hne
  rw [components_slashes_append hlead, length_append, length_append]
  cases next with
  | none =>
    refine ⟨?_, Nat.lt_of_lt_of_le hpos (by omega)⟩
    rw [elim_none, append_nil]
    exact components_token hne hnone
  | some rest =>
    refine ⟨components_token_slash hne hnone rest, ?_⟩
    rw [elim_some, length_cons, getD_some]
    omega

/-! ## strrchr -/

theorem splitLast_eq_none (h : splitLast s = none) : slash ∉ s := by
  induction s with
  | nil => exact not_mem_nil
  | cons c s ih =>
    rw [splitLast] at h
    cases hs : splitLast s with
    | some r => rw [hs] at h; cases h
    | none =>
      rw [hs] at h
      by_cases hc : c = slash
      · simp [hc] at h
      · rw [mem_cons, not_or]
        exact ⟨fun hcs => hc hcs.symm, ih hs⟩

theorem splitLast_eq_some (h : splitLast s = some (front, back)) :
    s = front ++ slash :: back ∧ slash ∉ back := by
  induction s generalizing front with
  | nil => cases h
  | cons c s ih =>
    rw [splitLast] at h
    cases hs : splitLast s with
    | some r =>
      obtain ⟨front', back'⟩ := r
      rw [hs] at h
      simp only [some.injEq, Prod.mk.injEq] at h
      obtain ⟨rfl, rfl⟩ := h
      obtain ⟨rfl, hback⟩ := ih hs
      exact ⟨rfl, hback⟩
    | none =>
    rw [hs] at h
    by_cases hc : c = slash
    · simp only [hc, if_true, some.injEq, Prod.mk.injEq] at h
      obtain ⟨rfl, rfl⟩ := h
      exact ⟨by rw [hc]; rfl, splitLast_eq_none hs⟩
    · simp [hc] at h

theorem pieces_append_slash (front back : Str) :
    pieces (front ++ slash :: back) = pieces front ++ pieces back := by
  induction front with
  | nil => rw [nil_append, pieces_slash]; rfl
  | cons c front ih =>
    by_cases hc : c = slash
    · rw [hc, cons_append, pieces_slash, pieces_slash, ih, cons_append]
    · rw [cons_append, pieces, pieces, if_neg hc, if_neg hc, ih]
      cases hp : pieces front with
      | nil => exact absurd hp (pieces_ne_nil front)
      | cons piece more => rfl

/-- The names of a path that is put together at a slash. -/
theorem components_append_slash (front back : Str) :
    components (front ++ slash :: back) = components front ++ components back := by
  unfold components
  rw [pieces_append_slash, filter_append]

/-- An absolute path is the path of a directory, a slash and a string without slashes. -/
theorem splitLast_absolute {path : Str} (h : path.head? = some slash) :
    ∃ front, splitLast path = some (front, baseName path) ∧
      (if front = [] then [slash] else front).head? = some slash ∧
      components (if front = [] then [slash] else front) = dirNames path ∧
      components path = dirNames path ++ components (baseName path) ∧ slash ∉ baseName path ∧
      (path.getLast? ≠ some slash → baseName path ≠ []) := by
  cases hsplit : splitLast path with
  | none =>
    have hnone := splitLast_eq_none hsplit
    exact absurd (List.mem_of_head? h) hnone
  | some r =>
  obtain ⟨front, name⟩ := r
  have hbase : baseName path = name := by rw [baseName, hsplit]; rfl
  have hdir : dirNames path = components front := by rw [dirNames, hsplit]; rfl
  obtain ⟨rfl, hname⟩ := splitLast_eq_some hsplit
  rw [hbase, hdir]
  refine ⟨front, rfl, ?_, ?_, components_append_slash front name, hname, ?_⟩
  · split
    · rfl
    · case _ hne =>
      cases front with
      | nil => exact absurd rfl hne
      | cons c front => exact h
  · split
    · case _ hnil => rw [hnil]; rfl
    · rfl
  · rintro hlast rfl
    exact hlast (by rw [List.getLast?_concat])

/-- An absolute path that does not end with a slash ends with a name. -/
theorem components_of_named {path : Str} (h : path.head? = some slash)
    (hlast : path.getLast? ≠ some slash) : components path = dirNames path ++ [baseName path] := by
  obtain ⟨front, -, -, -, hcomp, hslash, hne⟩ := splitLast_absolute h
  rw [hcomp, components_token (hne hlast) hslash]

end Lapis.Util
