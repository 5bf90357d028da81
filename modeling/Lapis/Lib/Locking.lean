/-
Lapis.Lib.Locking — programs that take and release locks.

A `Locked` program runs on data and on the locks held, and it ends in one of three ways: it returns,
it waits for ever on a lock it holds itself, or it loops for ever. `Runs L m s x` says that from `s`,
with the locks `L` free and any others held, the program `m` ends with `x` and leaves the locks as it
found them; `RunsOff L l m s x` says the same of the rest of a program that has taken the lock `l` and
is to release it. A proof follows the program: `Runs.acquire` starts a critical section,
`RunsOff.bind` goes on in it and `RunsOff.release` ends it.

`Orderly` and `OrderlyOff` are the same for programs of which only the locks are of interest: whatever
is held at the start, the program waits for no lock it has taken itself.
-/
import Mathlib.Logic.Function.Basic

namespace Lapis.Lib

open Function (update update_eq_self update_idem update_of_ne update_self)

/-- How a call ends. -/
inductive Outcome (Λ α : Type) where
  | returned (a : α)
  | deadlock (l : Λ)
  | endless

/-- A program on data `σ` and locks `Λ`. -/
def Locked (Λ σ α : Type) : Type := σ → (Λ → Bool) → Outcome Λ (α × σ × (Λ → Bool))

namespace Locked

variable {Λ σ τ α β : Type}

protected def pure (a : α) : Locked Λ σ α := fun s held => .returned (a, s, held)

protected def bind (m : Locked Λ σ α) (k : α → Locked Λ σ β) : Locked Λ σ β := fun s held =>
  match m s held with
  | .returned (a, s, held) => k a s held
  | .deadlock l => .deadlock l
  | .endless => .endless

instance : Monad (Locked Λ σ) where
  pure := Locked.pure
  bind := Locked.bind

theorem bind_apply (m : Locked Λ σ α) (k : α → Locked Λ σ β) (s : σ) (held : Λ → Bool) :
    (m >>= k) s held = match m s held with
      | .returned (a, s, held) => k a s held
      | .deadlock l => .deadlock l
      | .endless => .endless := rfl

/-- Code without locks. -/
def call (f : σ → α × σ) : Locked Λ σ α := fun s held => .returned ((f s).1, (f s).2, held)

/-- The data. -/
def get : Locked Λ σ σ := call fun s => (s, s)

/-- A change of the data. -/
def modify (f : σ → σ) : Locked Λ σ Unit := call fun s => ((), f s)

/-- Code without locks that may not end. -/
def attempt (f : σ → Option α) : Locked Λ σ α := fun s held =>
  match f s with
  | some a => .returned (a, s, held)
  | none => .endless

/-- A program on a part of the data. -/
def on (get : σ → τ) (set : σ → τ → σ) (m : Locked Λ τ α) : Locked Λ σ α := fun s held =>
  match m (get s) held with
  | .returned (a, t, held) => .returned (a, set s t, held)
  | .deadlock l => .deadlock l
  | .endless => .endless

variable [DecidableEq Λ]

/-- Waits until the lock is free and takes it; the program that holds it waits for ever. -/
def acquire (l : Λ) : Locked Λ σ Unit := fun s held =>
  if held l then .deadlock l else .returned ((), s, update held l true)

def release (l : Λ) : Locked Λ σ Unit := fun s held => .returned ((), s, update held l false)

end Locked

open Locked

variable {Λ σ τ α β : Type} {L L' : List Λ} {s s' : σ} {held : Λ → Bool} {m : Locked Λ σ α}
  {k : α → Locked Λ σ β} {a : α}

/-- The locks are free. -/
def Free (L : List Λ) (held : Λ → Bool) : Prop := ∀ l ∈ L, held l = false

/-- The outcome of a program that ends as `x` says and leaves the locks `held`. -/
def Outcome.of (held : Λ → Bool) : Option (α × σ) → Outcome Λ (α × σ × (Λ → Bool))
  | some (a, s) => .returned (a, s, held)
  | none => .endless

/-- With the locks `L` free, the program ends with `x` and the locks are as they were. -/
def Runs (L : List Λ) (m : Locked Λ σ α) (s : σ) (x : Option (α × σ)) : Prop :=
  ∀ held, Free L held → m s held = Outcome.of held x

theorem Runs.pure (a : α) : Runs L (Pure.pure a : Locked Λ σ α) s (some (a, s)) := fun _ _ => rfl

theorem Runs.call (f : σ → α × σ) : Runs L (Locked.call f) s (some (f s)) := fun _ _ => rfl

theorem Runs.get : Runs L Locked.get s (some (s, s)) := fun _ _ => rfl

theorem Runs.modify (f : σ → σ) : Runs L (Locked.modify f) s (some ((), f s)) := fun _ _ => rfl

theorem Runs.mono {x : Option (α × σ)} (h : Runs L m s x) (hsub : ∀ l ∈ L, l ∈ L') : Runs L' m s x :=
  fun held hfree => h held fun l hl => hfree l (hsub l hl)

theorem Runs.bind {x : Option (β × σ)}
    (hm : Runs L m s (some (a, s'))) (hk : Runs L (k a) s' x) : Runs L (m >>= k) s x := by
  intro held hfree
  rw [bind_apply, hm held hfree]
  exact hk held hfree

theorem Runs.on {get : σ → τ} {set : σ → τ → σ} {m : Locked Λ τ α} {t : τ}
    (hm : Runs L m (get s) (some (a, t))) : Runs L (Locked.on get set m) s (some (a, set s t)) := by
  intro held hfree
  rw [Locked.on, hm held hfree]
  rfl

theorem get_bind (k : σ → Locked Λ σ α) (s : σ) (held : Λ → Bool) :
    ((Locked.get : Locked Λ σ σ) >>= k) s held = k s s held := rfl

theorem bind_deadlock {l : Λ} (k : α → Locked Λ σ β) (h : m s held = .deadlock l) :
    (m >>= k) s held = .deadlock l := by
  rw [bind_apply, h]

theorem bind_endless (k : α → Locked Λ σ β) (h : m s held = .endless) : (m >>= k) s held = .endless := by
  rw [bind_apply, h]

section Sections

variable [DecidableEq Λ] {l : Λ}

/-- A free lock is taken. -/
theorem acquire_bind (m : Locked Λ σ α) (s : σ) (hfree : held l = false) :
    (Locked.acquire l >>= fun _ => m) s held = m s (update held l true) := by
  rw [bind_apply, Locked.acquire, hfree]
  rfl

/-- A lock that is held is waited for. -/
theorem acquire_bind_deadlock (m : Locked Λ σ α) (s : σ) (hheld : held l = true) :
    (Locked.acquire l >>= fun _ => m) s held = .deadlock l := by
  rw [bind_apply, Locked.acquire, if_pos hheld]

/-- The rest of a critical section: it ends with `x`, and the lock `l` is released. -/
def RunsOff (L : List Λ) (l : Λ) (m : Locked Λ σ α) (s : σ) (x : Option (α × σ)) : Prop :=
  ∀ held, Free L held → m s held = Outcome.of (update held l false) x

/-- A critical section. -/
theorem Runs.acquire {x : Option (α × σ)} (hl : l ∉ L)
    (h : RunsOff L l m s x) : Runs (l :: L) (Locked.acquire l >>= fun _ => m) s x := by
  intro held hfree
  have hfree_l : held l = false := hfree l List.mem_cons_self
  have hrest : Free L (update held l true) := by
    intro l' hl'
    have hne : l' ≠ l := by rintro rfl; exact hl hl'
    rw [update_of_ne hne]
    exact hfree l' (List.mem_cons_of_mem l hl')
  rw [acquire_bind m s hfree_l, h _ hrest, update_idem, ← hfree_l, update_eq_self]

theorem RunsOff.bind {x : Option (β × σ)} (hm : Runs L m s (some (a, s'))) (hk : RunsOff L l (k a) s' x) :
    RunsOff L l (m >>= k) s x := by
  intro held hfree
  rw [bind_apply, hm held hfree]
  exact hk held hfree

/-- A step of a critical section that may not end, and does. -/
theorem RunsOff.attempt {f : σ → Option α} {x : Option (β × σ)}
    (hf : f s = some a) (hk : RunsOff L l (k a) s x) : RunsOff L l (Locked.attempt f >>= k) s x := by
  intro held hfree
  rw [bind_apply, Locked.attempt, hf]
  exact hk held hfree

/-- A step of a critical section that does not end. -/
theorem RunsOff.attempt_none {f : σ → Option α} (hf : f s = none) :
    RunsOff L l (Locked.attempt f >>= k) s (none : Option (β × σ)) := by
  intro held _
  rw [bind_apply, Locked.attempt, hf]
  rfl

theorem RunsOff.attempt_bind {f : σ → Option α} {x : α → Option (β × σ)}
    (h : ∀ a, f s = some a → RunsOff L l (k a) s (x a)) :
    RunsOff L l (Locked.attempt f >>= k) s (f s >>= x) := by
  cases hf : f s with
  | none => exact .attempt_none hf
  | some a => exact .attempt hf (h a hf)

/-- The end of a critical section, and what follows. -/
theorem RunsOff.release {x : Option (α × σ)} (hl : l ∉ L) (h : Runs L m s x) :
    RunsOff L l (Locked.release l >>= fun _ => m) s x := by
  intro held hfree
  rw [bind_apply, Locked.release]
  refine h _ fun l' hl' => ?_
  have hne : l' ≠ l := by rintro rfl; exact hl hl'
  rw [update_of_ne hne]
  exact hfree l' hl'

end Sections

/-! ## Programs of which only the locks matter -/

section Orderly

variable {E : Prop} {A B : Λ → Prop} {P Q : α → Prop} {l : Λ}

/-- The program waits only for locks of `A`, and only if they were held when it started; when it returns
it holds what it held then, and its result is as `Q` says. `E` says when it may not end. -/
def Orderly (E : Prop) (A : Λ → Prop) (m : Locked Λ σ α) (s : σ) (Q : α → Prop) : Prop :=
  ∀ held, match m s held with
    | .returned (a, _, held') => held' = held ∧ Q a
    | .deadlock l => A l ∧ held l = true
    | .endless => E

/-- The rest of a program that has taken the lock `l` and is to release it. -/
def OrderlyOff [DecidableEq Λ] (E : Prop) (A : Λ → Prop) (l : Λ) (m : Locked Λ σ α) (s : σ)
    (Q : α → Prop) : Prop :=
  ∀ held, held l = true → match m s held with
    | .returned (a, _, held') => held' = update held l false ∧ Q a
    | .deadlock l' => A l' ∧ l' ≠ l ∧ held l' = true
    | .endless => E

theorem Orderly.pure (h : Q a) : Orderly E A (Pure.pure a : Locked Λ σ α) s Q :=
  fun _ => ⟨rfl, h⟩

theorem Orderly.mono (h : Orderly E A m s P) (hA : ∀ l, A l → B l)
    (hQ : ∀ a, P a → Q a) : Orderly E B m s Q := by
  intro held
  have hm := h held
  revert hm
  cases m s held with
  | returned x => exact fun hm => ⟨hm.1, hQ _ hm.2⟩
  | deadlock l => exact fun hm => ⟨hA l hm.1, hm.2⟩
  | endless => exact id

theorem Orderly.bind {Q : β → Prop} (hm : Orderly E A m s P)
    (hk : ∀ a s', P a → Orderly E A (k a) s' Q) : Orderly E A (m >>= k) s Q := by
  intro held
  have hm := hm held
  rw [bind_apply]
  revert hm
  cases m s held with
  | returned x =>
    obtain ⟨a, s', held'⟩ := x
    rintro ⟨rfl, ha⟩
    exact hk a s' ha held'
  | deadlock l => exact id
  | endless => exact id

/-- What a program does with the data depends on the data it finds. -/
theorem Orderly.get_bind {k : σ → Locked Λ σ β} {Q : β → Prop} (hk : Orderly E A (k s) s Q) :
    Orderly E A (Locked.get >>= k) s Q := hk

theorem Orderly.modify_bind {f : σ → σ} (h : Orderly E A m (f s) Q) :
    Orderly E A (Locked.modify f >>= fun _ => m) s Q := h

theorem Orderly.call_bind {f : σ → α × σ} {Q : β → Prop}
    (hk : Orderly E A (k (f s).1) (f s).2 Q) : Orderly E A (Locked.call f >>= k) s Q := hk

theorem Orderly.attempt_bind {f : σ → Option α} {Q : β → Prop}
    (hnone : f s = none → E) (hk : ∀ a, f s = some a → Orderly E A (k a) s Q) :
    Orderly E A (Locked.attempt f >>= k) s Q := by
  intro held
  rw [bind_apply, Locked.attempt]
  cases hf : f s with
  | none => exact hnone hf
  | some a => exact hk a hf held

variable [DecidableEq Λ]

theorem Orderly.acquire (hl : A l) (h : OrderlyOff E A l m s Q) :
    Orderly E A (Locked.acquire l >>= fun _ => m) s Q := by
  intro held
  cases hheld : held l with
  | true =>
    rw [acquire_bind_deadlock m s hheld]
    exact ⟨hl, hheld⟩
  | false =>
  have hm := h (update held l true) (update_self ..)
  rw [acquire_bind m s hheld]
  revert hm
  cases m s (update held l true) with
  | returned x =>
    rintro ⟨hlocks, ha⟩
    rw [update_idem, ← hheld, update_eq_self] at hlocks
    exact ⟨hlocks, ha⟩
  | deadlock l' =>
    rintro ⟨hA, hne, hl'⟩
    rw [update_of_ne hne] at hl'
    exact ⟨hA, hl'⟩
  | endless => exact id

theorem OrderlyOff.bind {Q : β → Prop} (hm : Orderly E B m s P) (hB : ∀ l', B l' → A l' ∧ l' ≠ l)
    (hk : ∀ a s', P a → OrderlyOff E A l (k a) s' Q) : OrderlyOff E A l (m >>= k) s Q := by
  intro held hheld
  have hm := hm held
  rw [bind_apply]
  revert hm
  cases m s held with
  | returned x =>
    obtain ⟨a, s', held'⟩ := x
    rintro ⟨rfl, ha⟩
    exact hk a s' ha held' hheld
  | deadlock l' => exact fun ⟨hB', hl'⟩ => ⟨(hB l' hB').1, (hB l' hB').2, hl'⟩
  | endless => exact id

theorem OrderlyOff.get_bind {k : σ → Locked Λ σ β} {Q : β → Prop} (hk : OrderlyOff E A l (k s) s Q) :
    OrderlyOff E A l (Locked.get >>= k) s Q := hk

theorem OrderlyOff.modify_bind {f : σ → σ} (h : OrderlyOff E A l m (f s) Q) :
    OrderlyOff E A l (Locked.modify f >>= fun _ => m) s Q := h

theorem OrderlyOff.release (h : Orderly E A m s Q) :
    OrderlyOff E A l (Locked.release l >>= fun _ => m) s Q := by
  intro held _
  have hm := h (update held l false)
  rw [bind_apply, Locked.release]
  dsimp only
  revert hm
  cases m s (update held l false) with
  | returned x => exact id
  | deadlock l' =>
    rintro ⟨hA, hl'⟩
    have hne : l' ≠ l := by
      rintro rfl
      rw [update_self] at hl'
      cases hl'
    rw [update_of_ne hne] at hl'
    exact ⟨hA, hne, hl'⟩
  | endless => exact id

end Orderly

end Lapis.Lib
