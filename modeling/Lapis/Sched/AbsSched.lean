/-
Lapis.Sched.AbsSched — what the scheduler is for, without levels and links.

A CPU has one list of threads that are ready to run, in the order in which they will be
picked. A thread that gives up the CPU goes somewhere into that list, the next thread is its
first element, and a CPU with an empty list may take a thread out of the middle of another
CPU's list. Levels, links, counts and boosts do not appear: a priority boost only moves the
borders between the levels, and the order of the whole list stays.
-/
import Lapis.Sched.Scheduler

namespace Lapis.Sched

open Function

@[ext]
structure AbsSched (n : Nat) (T : Type) where
  ready : Fin n → List T
  state : T → ThreadState
  lastCpu : T → Int
  pinnedCpu : T → Int
  nrRunning : Fin n → UInt32
  current : Fin n → T
  idle : Fin n → T

namespace AbsSched

variable {n : Nat} {T : Type} [DecidableEq T]

/-- `t` becomes ready on CPU `c`, behind the threads of `P`. -/
inductive Enqueue (c : Fin n) (t : T) (a : AbsSched n T) : AbsSched n T → Prop
  | mk {P S : List T} : a.ready c = P ++ S →
      Enqueue c t a { a with
        ready := update a.ready c (P ++ t :: S)
        state := update a.state t .ready
        lastCpu := update a.lastCpu t c.val
        nrRunning := update a.nrRunning c (a.nrRunning c + 1) }

/-- Queueing a thread overwrites its state. -/
theorem Enqueue.of_state {c : Fin n} {t : T} {a a' : AbsSched n T} {x : ThreadState}
    (h : Enqueue c t { a with state := update a.state t x } a') : Enqueue c t a a' := by
  cases h with
  | mk hready =>
    have hmk := Enqueue.mk (t := t) (a := a) hready
    simpa only [update_idem] using hmk

/-- The running thread of CPU `c` becomes ready again, behind the threads of `P`; a thread
that is not running any more is left alone. -/
inductive Requeue (c : Fin n) (P : List T) (a : AbsSched n T) : AbsSched n T → Prop
  | stay : a.state (a.current c) ≠ .running → Requeue c P a a
  | back {S : List T} : a.state (a.current c) = .running → a.ready c = P ++ S →
      Requeue c P a { a with
        ready := update a.ready c (P ++ a.current c :: S)
        state := update a.state (a.current c) .ready
        nrRunning := update a.nrRunning c (a.nrRunning c + 1) }

/-- CPU `c` takes its first ready thread, or else one that `steal` offers, or else its idle
thread. -/
inductive Choose (steal : Fin n → T → Prop) (c : Fin n) (a : AbsSched n T) :
    T → AbsSched n T → Prop
  | own {t : T} {ts : List T} : a.ready c = t :: ts →
      Choose steal c a t { a with
        ready := update a.ready c ts
        nrRunning := update a.nrRunning c (a.nrRunning c - 1) }
  | stolen {v : Fin n} {t : T} {P S : List T} : a.ready c = [] → v ≠ c →
      1 < a.nrRunning v → steal v t → a.ready v = P ++ t :: S →
      Choose steal c a t { a with
        ready := update a.ready v (P ++ S)
        lastCpu := update a.lastCpu t c.val
        nrRunning := update (update a.nrRunning v (a.nrRunning v - 1)) c (a.nrRunning c - 1) }
  | idle : a.ready c = [] → Choose steal c a (a.idle c) a

theorem Choose.mono {steal steal' : Fin n → T → Prop} {c : Fin n} {a a' : AbsSched n T} {t : T}
    (h : Choose steal c a t a') (hsteal : ∀ v ≠ c, ∀ t, steal v t → steal' v t) : Choose steal' c a t a' := by
  cases h with
  | own hc => exact .own hc
  | stolen hc hv hmany ht hready => exact .stolen hc hv hmany (hsteal _ hv _ ht) hready
  | idle hc => exact .idle hc

/-- CPU `c` switches to `t`. -/
def switch (a : AbsSched n T) (c : Fin n) (t : T) : AbsSched n T :=
  { a with current := update a.current c t, state := update a.state t .running }

def block (a : AbsSched n T) (t : T) : AbsSched n T :=
  { a with state := update a.state t .blocked }

end AbsSched

end Lapis.Sched
