/-
Lapis.Lib.Run — runs of a system that takes one operation after another.

`step fuel op s` is the state after the operation `op`: `none` when the operation is not
enabled in `s` or when a loop inside it needs more than `fuel` rounds. A run may choose the
fuel of every operation anew, so nothing about a run depends on one bound. `ok op s` is the
condition under which the environment issues `op` in `s`.

`Run.invariant` is the induction every safety result goes through; `exec` runs a list of
operations and `Run.of_exec` turns a computed execution into a run. `Finishes f a` says that a
computation with fuel ends with `a` once the fuel reaches some bound; computations that finish
compose. `Grows` compares a computation with one that has more fuel.
-/
import Mathlib.Logic.Basic

namespace Lapis.Lib

open Option

variable {σ ι : Type}

/-- The states reached from `s₀` by operations whose condition holds when they are issued. -/
inductive Run (step : Nat → ι → σ → Option σ) (ok : ι → σ → Prop) (s₀ : σ) : σ → Prop
  | init : Run step ok s₀ s₀
  | next {s s' : σ} {op : ι} {fuel : Nat} :
      Run step ok s₀ s → ok op s → step fuel op s = some s' → Run step ok s₀ s'

section

variable {step : Nat → ι → σ → Option σ} {ok : ι → σ → Prop} {s₀ : σ}

/-- What holds at the start and is kept by every operation holds in every state of a run. -/
theorem Run.invariant {Inv : σ → Prop} (hinit : Inv s₀)
    (hstep : ∀ s s' op fuel, Inv s → ok op s → step fuel op s = some s' → Inv s')
    {s : σ} (hrun : Run step ok s₀ s) : Inv s := by
  induction hrun with
  | init => exact hinit
  | next _ hok hs ih => exact hstep _ _ _ _ ih hok hs

/-- A run under a stronger condition is a run under a weaker one. -/
theorem Run.weaken {ok' : ι → σ → Prop} (h : ∀ op s, ok op s → ok' op s)
    {s : σ} (hrun : Run step ok s₀ s) : Run step ok' s₀ s := by
  induction hrun with
  | init => exact .init
  | next _ hok hs ih => exact .next ih (h _ _ hok) hs

end

/-- Executes a list of operations, checking the condition of each. -/
def exec (step : Nat → ι → σ → Option σ) (ok : ι → σ → Prop) [∀ op s, Decidable (ok op s)]
    (fuel : Nat) : List ι → σ → Option σ
  | [], s => some s
  | op :: ops, s => if ok op s then (step fuel op s).bind (exec step ok fuel ops) else none

theorem Run.of_exec {step : Nat → ι → σ → Option σ} {ok : ι → σ → Prop}
    [∀ op s, Decidable (ok op s)] {s₀ s' : σ} {fuel : Nat} {ops : List ι} {s : σ}
    (hrun : Run step ok s₀ s) (hexec : exec step ok fuel ops s = some s') : Run step ok s₀ s' := by
  induction ops generalizing s with
  | nil =>
    simp only [exec, some.injEq] at hexec
    exact hexec ▸ hrun
  | cons op ops ih =>
    by_cases hok : ok op s
    · simp only [exec, hok, if_true, bind_eq_some_iff] at hexec
      obtain ⟨t, hstep, hrest⟩ := hexec
      exact ih (.next hrun hok hstep) hrest
    · simp [exec, hok] at hexec

/-- What a computed execution shows of the state it ends in. -/
theorem Run.exists_of_exec {step : Nat → ι → σ → Option σ} {ok : ι → σ → Prop}
    [∀ op s, Decidable (ok op s)] {s₀ : σ} {Q : σ → Prop} (fuel : Nat) (ops : List ι) (P : σ → Prop)
    [DecidablePred P] (h : (exec step ok fuel ops s₀).any P) (hQ : ∀ s, Run step ok s₀ s → P s → Q s) :
    ∃ s, Run step ok s₀ s ∧ Q s := by
  obtain ⟨s, hs, hP⟩ := (any_eq_true _ _).mp h
  have hrun := Run.of_exec .init hs
  exact ⟨s, hrun, hQ s hrun (of_decide_eq_true hP)⟩

/-! ## Computations with fuel -/

/-- The computation gives `a` from some amount of fuel on, and never anything else. -/
structure Finishes {α : Type} (f : Nat → Option α) (a : α) : Prop where
  enough : ∃ k, ∀ fuel, k ≤ fuel → f fuel = some a
  eq_of_some : ∀ {fuel a'}, f fuel = some a' → a' = a

namespace Finishes

variable {α β : Type} {f : Nat → Option α} {g : Nat → α → Option β} {a : α} {b : β}

theorem pure (a : α) : Finishes (fun _ => some a) a :=
  ⟨⟨0, fun _ _ => rfl⟩, fun h => (some.inj h).symm⟩

theorem returns (h : Finishes f a) : ∃ fuel, f fuel = some a := by
  obtain ⟨k, hk⟩ := h.enough
  exact ⟨k, hk k (Nat.le_refl k)⟩

theorem bind (h : Finishes f a) (hg : Finishes (fun fuel => g fuel a) b) :
    Finishes (fun fuel => (f fuel).bind (g fuel)) b := by
  obtain ⟨k, hk⟩ := h.enough
  obtain ⟨l, hl⟩ := hg.enough
  refine ⟨⟨k + l, fun fuel hle => ?_⟩, fun hs => ?_⟩
  · have hf := hk fuel (by omega)
    have hg := hl fuel (by omega)
    simpa [hf] using hg
  · obtain ⟨a', ha', hb'⟩ := bind_eq_some_iff.mp hs
    obtain rfl := h.eq_of_some ha'
    exact hg.eq_of_some hb'

theorem map (h : Finishes f a) (g : α → β) : Finishes (fun fuel => (f fuel).map g) (g a) := by
  obtain ⟨k, hk⟩ := h.enough
  refine ⟨⟨k, fun fuel hle => ?_⟩, fun hs => ?_⟩
  · simp [hk fuel hle]
  · obtain ⟨a', ha', rfl⟩ := map_eq_some_iff.mp hs
    rw [h.eq_of_some ha']

/-- A computation that needs more than `k` fuel and then gives `a`. -/
theorem of_lt {k : Nat} (h : ∀ fuel, f fuel = if k < fuel then some a else none) : Finishes f a := by
  refine ⟨⟨k + 1, fun fuel hle => ?_⟩, fun {fuel a'} hs => ?_⟩
  · rw [h, if_pos (by omega)]
  · rw [h] at hs
    by_cases hlt : k < fuel
    · rw [if_pos hlt] at hs
      exact (some.inj hs).symm
    · simp [hlt] at hs

end Finishes

/-- What the first computation gives, the second gives too. -/
def Grows {α : Type} (x y : Option α) : Prop := ∀ a, x = some a → y = some a

namespace Grows

variable {α β : Type} {x y x' y' : Option α}

theorem refl (x : Option α) : Grows x x := fun _ h => h

theorem ite {c : Prop} [Decidable c] (h : Grows x y) (h' : Grows x' y') :
    Grows (if c then x else x') (if c then y else y') := by
  split
  · exact h
  · exact h'

theorem bind {f g : α → Option β} (h : Grows x y) (hf : ∀ a, Grows (f a) (g a)) :
    Grows (x.bind f) (y.bind g) := by
  intro b hb
  obtain ⟨a, ha, hb⟩ := bind_eq_some_iff.mp hb
  exact bind_eq_some_iff.mpr ⟨a, h a ha, hf a b hb⟩

theorem map (h : Grows x y) (g : α → β) : Grows (x.map g) (y.map g) := by
  intro b hb
  obtain ⟨a, ha, rfl⟩ := map_eq_some_iff.mp hb
  exact map_eq_some_iff.mpr ⟨a, h a ha, rfl⟩

/-- A loop that spends fuel in every round gives no less with more of it. -/
theorem loop {f : Nat → σ → Option α} (hzero : ∀ s, f 0 s = none)
    (hsucc : ∀ n m s, (∀ s, Grows (f n s) (f m s)) → Grows (f (n + 1) s) (f (m + 1) s))
    {n m : Nat} (hle : n ≤ m) (s : σ) : Grows (f n s) (f m s) := by
  induction n generalizing m s with
  | zero =>
    intro a ha
    simp [hzero] at ha
  | succ n ih =>
    obtain ⟨m, rfl⟩ : ∃ k, m = k + 1 := ⟨m - 1, by omega⟩
    exact hsucc n m s fun s => ih (by omega) s

end Grows

end Lapis.Lib
