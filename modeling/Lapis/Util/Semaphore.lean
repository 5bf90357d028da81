/-
Lapis.Util.Semaphore — counting semaphores (semaphore.c), step by step.

Any number of CPUs call `semaphore_wait`, `semaphore_try_wait` and `semaphore_signal` on one semaphore. Every
load, compare-and-swap and fetch-add is a step of its own, and the steps of the CPUs interleave freely. The
numbers of signals and of successful waits, and the values a CPU loaded in a call, are not in the source.

A compare-and-swap takes a unit only from the value it expects, so a stale load costs a round and nothing
else. That is all the invariant needs; the bound on the signals keeps the `int32_t` from wrapping.
-/
import Lapis.Lib.Run
import Mathlib.Algebra.Ring.Nat
import Mathlib.Logic.Function.Basic

namespace Lapis.Util.Semaphore

open Function Option Lib

/-! ## The code -/

/-- Where a CPU is: outside, with the result of its last `semaphore_try_wait`, or in a call, before a load or
behind one. A `semaphore_try_wait` has `tries` set. -/
inductive Pc
  | out (result : Option Bool)
  | loading (tries : Bool)
  | loaded (tries : Bool) (old : Int)
  deriving DecidableEq

structure State (κ : Type) where
  value : Int
  pc : κ → Pc
  loads : κ → List Int
  signals : Nat
  waits : Nat

/-- A step of a CPU. `giveUp` is the branch for a value that is not positive: `semaphore_try_wait` returns
false, and `semaphore_wait` loads again. -/
inductive Op (κ : Type)
  | call (c : κ) (tries : Bool)
  | load (c : κ)
  | giveUp (c : κ)
  | compareExchange (c : κ)
  | fetchAdd (c : κ)

variable {κ : Type} [DecidableEq κ]

/-- `semaphore_init`, with all CPUs outside. -/
def init (count : Int) : State κ := ⟨if count < 0 then 0 else count, fun _ => .out none, fun _ => [], 0, 0⟩

def State.moveTo (s : State κ) (c : κ) (pc : Pc) : State κ := { s with pc := update s.pc c pc }

def step (_ : Nat) (op : Op κ) (s : State κ) : Option (State κ) :=
  match op with
  | .call c tries =>
    match s.pc c with
    | .out _ => some { s.moveTo c (.loading tries) with loads := update s.loads c [] }
    | _ => none
  | .load c =>
    match s.pc c with
    | .loading tries =>
      some { s.moveTo c (.loaded tries s.value) with loads := update s.loads c (s.value :: s.loads c) }
    | _ => none
  | .giveUp c =>
    match s.pc c with
    | .loaded tries old =>
      if old ≤ 0 then some (s.moveTo c (if tries then .out (some false) else .loading false)) else none
    | _ => none
  | .compareExchange c =>
    match s.pc c with
    | .loaded tries old =>
      if old ≤ 0 then none
      else if s.value = old then
        some { s.moveTo c (.out (if tries then some true else none)) with
          value := (old - 1).bmod (2 ^ 32), waits := s.waits + 1 }
      else some (s.moveTo c (.loading tries))
    | _ => none
  | .fetchAdd c =>
    match s.pc c with
    | .out _ => some { s with value := (s.value + 1).bmod (2 ^ 32), signals := s.signals + 1 }
    | _ => none

/-- No more than `limit` signals. -/
def atMost (limit : Nat) (op : Op κ) (s : State κ) : Prop :=
  match op with
  | .fetchAdd _ => s.signals < limit
  | _ => True

instance (limit : Nat) (op : Op κ) (s : State κ) : Decidable (atMost limit op s) := by
  cases op <;> unfold atMost <;> infer_instance

/-! ## Conservation -/

/-- A CPU that `semaphore_try_wait` told false, or that has loaded, has the value in its loads. -/
def Observed (loads : List Int) : Pc → Prop
  | .out (some false) => ∃ v ∈ loads, v ≤ 0
  | .loaded _ old => old ∈ loads
  | _ => True

structure Inv (count : Nat) (s : State κ) : Prop where
  value : s.value = count + s.signals - s.waits
  nonneg : 0 ≤ s.value
  fits : count + s.signals < 2 ^ 31
  observed : ∀ c, Observed (s.loads c) (s.pc c)

variable {count fuel : Nat} {s s' : State κ} {op : Op κ}

/-- The counters stay, and one CPU goes on. -/
theorem Inv.moveTo (h : Inv count s) (c : κ) {pc : Pc} {loads : List Int} (hpc : Observed loads pc) :
    Inv count { s.moveTo c pc with loads := update s.loads c loads } := by
  refine ⟨h.value, h.nonneg, h.fits, fun d => ?_⟩
  by_cases hd : d = c
  · simpa [State.moveTo, hd] using hpc
  · simpa [State.moveTo, hd] using h.observed d

theorem Inv.go (h : Inv count s) (c : κ) {pc : Pc} (hpc : Observed (s.loads c) pc) :
    Inv count (s.moveTo c pc) := by
  have hmove := h.moveTo c hpc
  rwa [update_eq_self] at hmove

theorem Inv.step (h : Inv count s) (hok : atMost (2 ^ 31 - 1 - count) op s)
    (hstep : Semaphore.step fuel op s = some s') : Inv count s' := by
  have hvalue := h.value
  have hnonneg := h.nonneg
  have hfits := h.fits
  cases op with
  | call c tries =>
    simp only [Semaphore.step] at hstep
    split at hstep <;> simp only [some.injEq, reduceCtorEq] at hstep
    exact hstep ▸ h.moveTo c trivial
  | load c =>
    simp only [Semaphore.step] at hstep
    split at hstep <;> simp only [some.injEq, reduceCtorEq] at hstep
    exact hstep ▸ h.moveTo c List.mem_cons_self
  | giveUp c =>
    simp only [Semaphore.step] at hstep
    split at hstep
    case h_2 => cases hstep
    case h_1 tries old hpc =>
      have hold : old ∈ s.loads c := by simpa [Observed, hpc] using h.observed c
      split at hstep <;> simp only [some.injEq, reduceCtorEq] at hstep
      case isTrue hle =>
        refine hstep ▸ h.go c ?_
        cases tries
        · trivial
        · exact ⟨old, hold, hle⟩
  | compareExchange c =>
    simp only [Semaphore.step] at hstep
    split at hstep
    case h_2 => cases hstep
    case h_1 tries old hpc =>
      split at hstep
      · cases hstep
      split at hstep <;> simp only [some.injEq] at hstep
      case isFalse => exact hstep ▸ h.go c trivial
      case isTrue hpos hsame =>
        have hout : Observed (s.loads c) (.out (if tries then some true else none)) := by
          cases tries <;> trivial
        have hmove := h.go c hout
        have hnew : (old - 1).bmod (2 ^ 32) = old - 1 := by
          rw [Int.bmod_eq_of_le] <;> omega
        subst hstep
        refine ⟨?_, ?_, hmove.fits, hmove.observed⟩
        · simp only [hnew, State.moveTo]
          omega
        · simp only [hnew]
          omega
  | fetchAdd c =>
  simp only [Semaphore.step] at hstep
  split at hstep <;> simp only [some.injEq, reduceCtorEq] at hstep
  have hlimit : s.signals < 2 ^ 31 - 1 - count := hok
  have hnew : (s.value + 1).bmod (2 ^ 32) = s.value + 1 := by
    rw [Int.bmod_eq_of_le] <;> omega
  subst hstep
  refine ⟨?_, ?_, ?_, h.observed⟩ <;> simp only [hnew] <;> omega

/-- Whatever the interleaving, the value is the initial count and the signals without the successful waits,
and it is not negative; a `semaphore_try_wait` that returned false has loaded such a value that is not
positive. -/
theorem semaphore_conservation (hcount : count < 2 ^ 31)
    (hrun : Run step (atMost (2 ^ 31 - 1 - count)) (init count) s) :
    s.value = count + s.signals - s.waits ∧ 0 ≤ s.value ∧
      ∀ c, s.pc c = .out (some false) → ∃ v ∈ s.loads c, v ≤ 0 := by
  have hvalue : (init count : State κ).value = count := by
    simp only [init]
    omega
  have hinv : Inv count s := by
    refine hrun.invariant ⟨?_, ?_, hcount, fun _ => trivial⟩ fun _ _ _ _ h hok hs => h.step hok hs
    · rw [hvalue]
      simp [init]
    · simp [hvalue]
  refine ⟨hinv.value, hinv.nonneg, fun c hc => ?_⟩
  simpa [Observed, hc] using hinv.observed c

/-- Two CPUs try with the same load: one takes the unit, and the other loads 0 and gives up. -/
theorem semaphore_conservation_two :
    ∃ s, Run step (atMost (2 ^ 31 - 1 - 1)) (init 1) s ∧ s.pc (1 : Fin 2) = .out (some false) ∧
      s.value = 0 ∧ ∃ v ∈ s.loads 1, v ≤ 0 := by
  refine Run.exists_of_exec 0 [.call 0 true, .call 1 true, .load 0, .load 1, .compareExchange 0,
      .compareExchange 1, .load 1, .giveUp 1]
    (fun s => s.pc 1 = .out (some false) ∧ s.value = 0) (by decide) fun s hrun hs => ?_
  exact ⟨hs.1, hs.2, (semaphore_conservation (by decide) hrun).2.2 1 hs.1⟩

end Lapis.Util.Semaphore
