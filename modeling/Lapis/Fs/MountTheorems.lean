/-
Lapis.Fs.MountTheorems — which mount a path belongs to.

`vfs_resolve_mount` keeps the best mount met so far. `Encloses r path` says that the mount at `r` holds
the path: `r` is "/", or the whole path, or is followed in it by a slash. `Chosen` says which mount is to
be found, the first of the longest ones that hold the path; the loop finds it (`bestOf_spec`).
-/
import Lapis.Fs.Vfs
import Mathlib.Data.List.Induction

namespace Lapis.Fs.Vfs

open List Util

/-- The mount at `r` holds the path. -/
def Encloses (r path : Str) : Prop := r = [slash] ∨ r = path ∨ r ++ [slash] <+: path

instance (r path : Str) : Decidable (Encloses r path) := inferInstanceAs (Decidable (_ ∨ _ ∨ _))

/-- The mount at `r`, with `before` and `behind` it in the list, is the first of the longest ones that hold
the path. -/
structure Chosen (path : Str) (before : List Str) (r : Str) (behind : List Str) : Prop where
  encloses : Encloses r path
  shorter : ∀ r' ∈ before, Encloses r' path → r'.length < r.length
  longest : ∀ r' ∈ behind, Encloses r' path → r'.length ≤ r.length

variable {mounts : List Str} {path r : Str}

theorem Encloses.length_le (h : Encloses r path) (hpath : path ≠ []) : r.length ≤ path.length := by
  rcases h with rfl | rfl | h
  · exact length_pos_iff.mpr hpath
  · exact Nat.le_refl _
  · have := h.length_le
    simp at this
    omega

/-! ## The loop -/

/-- What follows a proper prefix. -/
theorem prefix_slash_iff : r ++ [slash] <+: path ↔ r <+: path ∧ (path.drop r.length).head? = some slash := by
  constructor
  · rintro ⟨t, rfl⟩
    simp
  · rintro ⟨⟨t, rfl⟩, h⟩
    rw [drop_left] at h
    obtain ⟨t', rfl⟩ := List.head?_eq_some_iff.mp h
    exact ⟨t', by simp⟩

theorem betterMount_eq (hpath : path.head? = some slash) (best : Option Nat × Nat) (i : Nat) :
    betterMount path best i r = if Encloses r path ∧ best.2 < r.length then (some i, r.length) else best := by
  unfold betterMount Encloses
  by_cases hroot : r = [slash]
  · obtain ⟨t, rfl⟩ := List.head?_eq_some_iff.mp hpath
    simp [hroot]
  have hfollow : (r <+: path ∧ ((path.drop r.length).head? = none ∨
      (path.drop r.length).head? = some slash)) ↔ r = path ∨ r ++ [slash] <+: path := by
    rw [prefix_slash_iff, and_or_left]
    refine or_congr_left ⟨?_, fun h => by simp [h]⟩
    rintro ⟨⟨t, rfl⟩, h⟩
    simpa using h
  have hlong : path.length < r.length → ¬ (r = path ∨ r ++ [slash] <+: path) := by
    intro hlt h
    have hne : path ≠ [] := by rintro rfl; cases hpath
    exact Nat.not_lt_of_le (Encloses.length_le (.inr h) hne) hlt
  by_cases hlt : path.length < r.length
  · simp [hlt, hroot, hlong hlt]
  · simp only [if_neg hlt, ← and_assoc, hfollow, hroot, false_or, if_false]

/-- The loop of `vfs_resolve_mount` over mounts with a number. -/
def bestOf (path : Str) (mounts : List (Nat × Str)) : Option Nat × Nat :=
  mounts.foldl (fun best m => betterMount path best m.1 m.2) (none, 0)

theorem bestOf_spec (hpath : path.head? = some slash) {mounts : List (Nat × Str)}
    (hne : ∀ m ∈ mounts, m.2 ≠ []) : bestOf path mounts = (none, 0) ∧ (∀ m ∈ mounts, ¬ Encloses m.2 path) ∨
    ∃ A m B, mounts = A ++ m :: B ∧ Chosen path (A.map (·.2)) m.2 (B.map (·.2)) ∧
      bestOf path mounts = (some m.1, m.2.length) := by
  induction mounts using List.reverseRecOn with
  | nil => exact .inl ⟨rfl, nofun⟩
  | append_singleton mounts m ih =>
    have hstep : bestOf path (mounts ++ [m]) = betterMount path (bestOf path mounts) m.1 m.2 := by
      simp [bestOf]
    have hpos : 0 < m.2.length := length_pos_iff.mpr (hne m (by simp))
    rw [hstep, betterMount_eq hpath]
    rcases ih fun m hm => hne m (by simp [hm]) with ⟨heq, hnone⟩ | ⟨A, b, B, rfl, hchosen, heq⟩
    · rw [heq]
      by_cases henc : Encloses m.2 path
      · exact .inr ⟨mounts, m, [], rfl, ⟨henc, by grind, nofun⟩, by simp [henc, hpos]⟩
      · exact .inl ⟨by simp [henc], by grind⟩
    · obtain ⟨henc, hshorter, hlongest⟩ := hchosen
      rw [heq]
      by_cases hbetter : Encloses m.2 path ∧ b.2.length < m.2.length
      · -- the new one is longer than all before it
        exact .inr ⟨A ++ b :: B, m, [], rfl, ⟨hbetter.1, by grind, nofun⟩, if_pos hbetter⟩
      · exact .inr ⟨A, b, B ++ [m], by simp, ⟨henc, hshorter, by grind⟩, if_neg hbetter⟩

theorem bestMount_eq (best : Option Nat × Nat) (i : Nat) : bestMount path best i mounts =
      ((mounts.zipIdx i).map Prod.swap).foldl (fun best m => betterMount path best m.1 m.2) best := by
  induction mounts generalizing best i with
  | nil => rfl
  | cons r mounts ih => simp [bestMount, ih]

/-! ## vfs_resolve_mount -/

/-- `vfs_resolve_mount` finds the first of the longest mounts that hold the path, and what is left of the
path behind it. When there is none it fails, but for "/", which belongs to the first mount. -/
theorem mount_resolution (hmounts : ∀ r ∈ mounts, r.head? = some slash) (hpath : path.head? = some slash) :
    (∃ A r B, mounts = A ++ r :: B ∧ Chosen path A r B ∧
      vfsResolveMount mounts path = .ok (A.length, (path.drop r.length).dropWhile (· = slash))) ∨
    (∀ r ∈ mounts, ¬ Encloses r path) ∧ vfsResolveMount mounts path =
      if path = [slash] ∧ mounts ≠ [] then .ok (0, []) else .error (-ENOENT) := by
  have hbest : bestMount path (none, 0) 0 mounts = bestOf path (mounts.zipIdx.map Prod.swap) :=
    bestMount_eq _ _
  have hsnd : (mounts.zipIdx.map Prod.swap).map (·.2) = mounts := by
    simp [Function.comp_def]
  have hne : ∀ m ∈ mounts.zipIdx.map Prod.swap, m.2 ≠ [] := by
    intro m hm hnil
    have := hmounts m.2 (hsnd ▸ mem_map_of_mem hm)
    simp [hnil] at this
  unfold vfsResolveMount
  rw [hbest]
  rcases bestOf_spec hpath hne with ⟨heq, hnone⟩ | ⟨A, m, B, hsplit, hchosen, heq⟩
  · refine .inr ⟨fun r hr => ?_, ?_⟩
    · rw [← hsnd] at hr
      obtain ⟨m, hm, rfl⟩ := mem_map.mp hr
      exact hnone m hm
    · rw [heq]
      by_cases h : path = [slash] ∧ mounts ≠ []
      · simp [h]
      · simp [h]
  · have hi : m.1 = A.length := by
      have hm : (mounts.zipIdx.map Prod.swap)[A.length]? = some m := by simp [hsplit]
      grind
    refine .inl ⟨A.map (·.2), m.2, B.map (·.2), ?_, hchosen, ?_⟩
    · rw [← hsnd, hsplit]
      simp
    · rw [heq, hi]
      simp

/-- Of two mounts at "/mnt" behind one at "/" the first holds "/mnt//a". -/
theorem mount_resolution_mnt :
    (∃ A r B, [str "/", str "/mnt", str "/mnt"] = A ++ r :: B ∧ Chosen (str "/mnt//a") A r B ∧
      vfsResolveMount [str "/", str "/mnt", str "/mnt"] (str "/mnt//a") =
        .ok (A.length, ((str "/mnt//a").drop r.length).dropWhile (· = slash))) ∧
    vfsResolveMount [str "/", str "/mnt", str "/mnt"] (str "/mnt//a") = .ok (1, str "a") := by
  refine ⟨(mount_resolution (by decide +kernel) (by decide +kernel)).resolve_right fun h => ?_,
    by decide +kernel⟩
  exact h.1 (str "/") (by decide +kernel) (.inl (by decide +kernel))

end Lapis.Fs.Vfs
