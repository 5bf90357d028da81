/-
Lapis.Sched.ThreadCountTheorems — the two thread counters of a process.

`thread_link_to_proc` adds one to both counters. `thread_exit` takes one from `live_thread_count`, and
neither it nor `proc_unlink_thread` touches `thread_count`. So in every run `live_thread_count` is the number
of threads in the list of the process, and `thread_count` exceeds it by the number of threads that have
exited: from the first exit on, `proc_reset_for_exec` may refuse a process with one thread.
-/
import Lapis.Sched.ThreadExitTheorems

namespace Lapis.Sched

open Function List Option Lib

variable {n : Nat} {T P Q : Type}

/-- The test of `proc_reset_for_exec`. -/
def ProcThreads.resetRefused (g : ProcThreads T P) : Bool := 1 < g.threadCount

/-- `proc_fork` by the thread `self`, when no allocation fails: the record of `proc_alloc`, then
`thread_fork_from_syscall`, which differs from `thread_create` in what it tells the scheduler. -/
def Tasks.procFork [DecidableEq T] [DecidableEq P] [DecidableEq Q] (s : Tasks n T P Q) (c : Fin n)
    (parent child : P) (self t : T) (kstack : UInt64) : Tasks n T P Q :=
  let s :=
    { s with
      procs := update s.procs child ⟨none, 0, 0, .running, 0, some parent⟩
      wqs := update s.wqs (s.waitChildren child) ⟨none, none⟩ }
  let sched := s.sched.threadForkFromSyscall self t kstack
  { s.threadCreate child t kstack with
    sched := (sched.modThread t fun th => { th with state := .ready }).schedEnqueue c t }

/-- The tasks, with the threads that were created and have not exited, and the number of threads of each
process that have. -/
structure Ledger (n : Nat) (T P Q : Type) where
  tasks : Tasks n T P Q
  alive : T → Bool
  exited : P → Nat

/-- The calls that make and end threads. Between them everything else may change that a task is in. -/
inductive LedgerOp (n : Nat) (T P Q : Type) where
  | create (p : P) (t : T) (kstack : UInt64)
  | fork (c : Fin n) (parent child : P) (self t : T) (kstack : UInt64)
  | exit (c : Fin n) (t : T) (code : Int)
  | other (tasks : Tasks n T P Q)

/-- Thread `t` has exited, which left `tasks`. -/
def Ledger.leave [DecidableEq T] [DecidableEq P] (s : Ledger n T P Q) (t : T) (tasks : Tasks n T P Q) :
    Ledger n T P Q where
  tasks := tasks
  alive := update s.alive t false
  exited := update s.exited (s.tasks.proc t) (s.exited (s.tasks.proc t) + 1)

/-- What the counters and the lists of threads depend on. -/
def Tasks.groups (s : Tasks n T P Q) : (T → P) × (T → Option T) × (P → Option T × UInt32 × UInt32) :=
  (s.proc, s.procNext, fun p => ((s.procs p).threads, (s.procs p).threadCount, (s.procs p).liveThreadCount))

namespace Ledger

variable {s s' : Ledger n T P Q} {G : P → List T} {t : T} {p : P} {c : Fin n} {fuel : Nat}

/-- The lists of threads are `G`: they have the threads that are alive, and the counters count them. -/
structure Counted (s : Ledger n T P Q) (G : P → List T) : Prop where
  grouped : s.tasks.Grouped G
  alive : ∀ t, s.alive t = true ↔ t ∈ G (s.tasks.proc t)
  live : ∀ p, (s.tasks.procs p).liveThreadCount.toNat = (G p).length
  count : ∀ p, (s.tasks.procs p).threadCount = .ofNat ((G p).length + s.exited p)

def Inv (s : Ledger n T P Q) : Prop := ∃ G, s.Counted G

/-- No process has had a thread. -/
structure Fresh (s : Ledger n T P Q) : Prop where
  procs : ∀ p, ∃ x code parent, s.tasks.procs p = ⟨none, 0, 0, x, code, parent⟩
  alive : ∀ t, s.alive t = false
  exited : ∀ p, s.exited p = 0

theorem Fresh.counted (h : s.Fresh) : s.Counted fun _ => [] := by
  refine ⟨⟨fun p => ?_, by simp, by simp⟩, by simp [h.alive], fun p => ?_, fun p => ?_⟩ <;>
    obtain ⟨x, code, parent, hp⟩ := h.procs p
  · simp [hp, Spine]
  · simp [hp]
  · simp [hp, h.exited]

namespace Counted

theorem congr {tasks : Tasks n T P Q} (h : s.Counted G) (hgroups : tasks.groups = s.tasks.groups) :
    { s with tasks := tasks }.Counted G := by
  simp only [Tasks.groups, Prod.mk.injEq, funext_iff] at hgroups
  obtain ⟨hproc, hnext, hprocs⟩ := hgroups
  refine ⟨h.grouped.congr (funext hproc) (funext hnext) fun p => (hprocs p).1, fun t => ?_, fun p => ?_,
    fun p => ?_⟩
  · simpa [hproc] using h.alive t
  · simpa [hprocs] using h.live p
  · simpa [hprocs] using h.count p

/-- A dead thread is in no list. -/
theorem not_mem (h : s.Counted G) (ht : s.alive t = false) (p : P) : t ∉ G p := by
  intro hp
  simp [← h.grouped.own p t hp, ← h.alive, ht] at hp

variable [DecidableEq T] [DecidableEq P]

theorem create [Fintype T] (hT : Fintype.card T < 2 ^ 32) (h : s.Counted G) (ht : s.alive t = false) (p : P)
    (kstack : UInt64) :
    { s with tasks := s.tasks.threadCreate p t kstack, alive := update s.alive t true }.Counted
      (update G p (t :: G p)) := by
  have hgrouped := h.grouped.create (h.not_mem ht) p kstack
  refine ⟨hgrouped, fun u => ?_, fun r => ?_, fun r => ?_⟩
  · by_cases hu : u = t
    · simp [hu, Tasks.threadCreate, Tasks.modProc]
    · by_cases hr : s.tasks.proc u = p <;> simp [hu, hr, Tasks.threadCreate, Tasks.modProc, h.alive]
  · by_cases hr : r = p
    · have hlen := ((hgrouped.nodup r).length_le_card).trans_lt hT
      have hlive := h.live r
      subst hr
      simp [Tasks.threadCreate, Tasks.modProc, hlive] at hlen ⊢
      omega
    · simp [hr, Tasks.threadCreate, Tasks.modProc, h.live]
  · by_cases hr : r = p
    · subst hr
      simp [Tasks.threadCreate, Tasks.modProc, h.count]
      ac_rfl
    · simp [hr, Tasks.threadCreate, Tasks.modProc, h.count]

theorem fork [Fintype T] (hT : Fintype.card T < 2 ^ 32) [DecidableEq Q] (h : s.Counted G)
    (ht : s.alive t = false) {child : P} (hchild : (s.tasks.procs child).threads = none) (c : Fin n)
    (parent : P) (self : T) (kstack : UInt64) :
    { tasks := s.tasks.procFork c parent child self t kstack, alive := update s.alive t true,
      exited := update s.exited child 0 : Ledger n T P Q }.Counted (update G child (t :: G child)) := by
  have hnil : G child = [] := by
    have hspine := h.grouped.spine child
    rw [hchild] at hspine
    cases hG : G child with
    | nil => rfl
    | cons x xs =>
      rw [hG] at hspine
      cases hspine.1
  -- the state after proc_alloc
  have halloc : { s with
      tasks := { s.tasks with
        procs := update s.tasks.procs child ⟨none, 0, 0, .running, 0, some parent⟩ }
      exited := update s.exited child 0 }.Counted G := by
    refine ⟨⟨fun p => ?_, h.grouped.nodup, h.grouped.own⟩, h.alive, fun p => ?_, fun p => ?_⟩ <;>
      by_cases hp : p = child
    · simp [hp, hnil, Spine]
    · simpa [hp] using h.grouped.spine p
    · simp [hp, hnil]
    · simpa [hp] using h.live p
    · simp [hp, hnil]
    · simpa [hp] using h.count p
  exact (halloc.create hT ht child kstack).congr rfl

/-- `thread_exit` has marked the thread: the live threads are the others. -/
theorem mark (h : s.Counted G) (ht : s.alive t = true) (code : Int) (p : P) :
    ∃ live, (s.tasks.threadMarkExit t code).procs p = { s.tasks.procs p with liveThreadCount := live } ∧
      live.toNat = ((G p).erase t).length := by
  have hlive := h.live p
  by_cases hp : p = s.tasks.proc t
  · have hmem : t ∈ G p := hp ▸ (h.alive t).mp ht
    have hpos : 0 < (s.tasks.procs p).liveThreadCount := by
      rw [UInt32.lt_iff_toNat_lt, hlive]
      exact length_pos_of_mem hmem
    refine ⟨(s.tasks.procs p).liveThreadCount - 1, ?_, ?_⟩
    · subst hp
      simp [Tasks.threadMarkExit, Tasks.modProc, Tasks.setState, hpos]
    · rw [length_erase_of_mem hmem, ← hlive]
      exact UInt32.toNat_sub_of_le _ 1 hpos
  · have hmem : t ∉ G p := fun hmem => hp (h.grouped.own p t hmem).symm
    refine ⟨(s.tasks.procs p).liveThreadCount, ?_, ?_⟩
    · simp [Tasks.threadMarkExit, Tasks.modProc, Tasks.setState, hp]
    · rw [erase_of_not_mem hmem, hlive]

end Counted

section

variable {m m' : Tasks n T P Q}

theorem groups_modProc [DecidableEq P] {f : ProcThreads T P → ProcThreads T P} (hf : ∀ g,
    ((f g).threads, (f g).threadCount, (f g).liveThreadCount) =
      (g.threads, g.threadCount, g.liveThreadCount)) : (m.modProc p f).groups = m.groups := by
  refine congrArg (fun g => (m.proc, m.procNext, g)) (funext fun r => ?_)
  by_cases hr : r = p
  · subst hr
    simpa [Tasks.modProc] using hf (m.procs r)
  · simp [Tasks.modProc, hr]

variable [DecidableEq T]

theorem groups_wakeLoop {me : Fin n} {e : Option T} (h : Tasks.wakeLoop me fuel e m = some m') :
    m'.groups = m.groups := by
  induction fuel generalizing e m with
  | zero => cases h
  | succ fuel ih =>
    cases e with
    | none =>
      cases h
      rfl
    | some t => exact (ih h).trans rfl

variable [DecidableEq Q]

theorem groups_wakeParent {me : Fin n} {parent : Option P} (h : m.wakeParent fuel me parent = some m') :
    m'.groups = m.groups := by
  cases parent with
  | none =>
    cases h
    rfl
  | some p => exact (groups_wakeLoop h).trans rfl

variable [DecidableEq P]

theorem groups_procExitLast {code : Int} (h : m.procExitLast fuel c p code = some m') :
    m'.groups = m.groups := by
  unfold Tasks.procExitLast Tasks.procExit at h
  split at h
  · split at h
    · cases h
      rfl
    · obtain ⟨m1, h1, h2⟩ := bind_eq_some_iff.mp h
      rw [groups_wakeParent h2, groups_wakeParent h1]
      exact groups_modProc fun _ => rfl
  · cases h
    rfl

end

variable [DecidableEq T] [DecidableEq P] [DecidableEq Q]

theorem Counted.exit (h : s.Counted G) (ht : s.alive t = true) {code : Int} {m : Tasks n T P Q}
    (hm : s.tasks.threadExit fuel c t code = some m) : (s.leave t m).Counted fun p => (G p).erase t := by
  obtain ⟨m2, hm2, rfl⟩ := map_eq_some_iff.mp hm
  obtain ⟨m1, hm1, hm2⟩ := bind_eq_some_iff.mp hm2
  have hgroups := groups_procExitLast hm1
  simp only [Tasks.groups, Prod.mk.injEq, funext_iff] at hgroups
  obtain ⟨hproc, hnext, hprocs⟩ := hgroups
  have hmark := h.mark ht code
  have hthreads : ∀ p, (m1.procs p).threads = (s.tasks.procs p).threads := by
    intro p
    obtain ⟨live, hp, -⟩ := hmark p
    rw [(hprocs p).1, hp]
  obtain ⟨m2', hfinish, hG, hrest, hcounts⟩ :=
    (h.grouped.congr (funext hproc) (funext hnext) hthreads).unlinkThread t
  have hown : m1.proc t = s.tasks.proc t := hproc t
  rw [hown] at hfinish
  obtain rfl : m2 = m2' := hfinish.eq_of_some hm2
  have hunlinked : (s.leave t m2).Counted fun p => (G p).erase t := by
    refine ⟨hG, fun u => ?_, fun p => ?_, fun p => ?_⟩
    · have hu : m2.proc u = s.tasks.proc u := by
        rw [hrest]
        exact hproc u
      by_cases hut : u = t
      · simp [leave, hut, (h.grouped.nodup _).not_mem_erase]
      · simp [leave, hut, hu, h.alive, mem_erase_of_ne]
    · obtain ⟨live, hp, hlive⟩ := hmark p
      simp only [leave, (hcounts p).2, (hprocs p).2.2, hp, hlive]
    · obtain ⟨live, hp, -⟩ := hmark p
      simp only [leave, (hcounts p).1, (hprocs p).2.1, hp, h.count]
      by_cases hpt : p = s.tasks.proc t
      · subst hpt
        have hlen := length_erase_add_one ((h.alive t).mp ht)
        simp only [update_self]
        congr 1
        omega
      · have hmem : t ∉ G p := fun hmem => hpt (h.grouped.own p t hmem).symm
        simp [hpt, erase_of_not_mem hmem]
  refine hunlinked.congr ?_
  split <;> rfl

/-! ## Runs -/

def step (fuel : Nat) (op : LedgerOp n T P Q) (s : Ledger n T P Q) : Option (Ledger n T P Q) :=
  match op with
  | .create p t kstack => some
    { s with tasks := s.tasks.threadCreate p t kstack, alive := update s.alive t true }
  | .fork c parent child self t kstack => some
    { tasks := s.tasks.procFork c parent child self t kstack
      alive := update s.alive t true
      exited := update s.exited child 0 }
  | .exit c t code => (s.tasks.threadExit fuel c t code).map (s.leave t)
  | .other tasks => some
    { s with tasks := { tasks with
      proc := s.tasks.proc, procNext := s.tasks.procNext, procs := s.tasks.procs } }

/-- A thread is made in memory that no other has, a process likewise, and a thread exits once. -/
def callOk (op : LedgerOp n T P Q) (s : Ledger n T P Q) : Prop :=
  match op with
  | .create _ t _ => s.alive t = false
  | .fork _ _ child _ t _ => s.alive t = false ∧ (s.tasks.procs child).threads = none
  | .exit _ t _ => s.alive t = true
  | .other _ => True

theorem Counted.step [Fintype T] (hT : Fintype.card T < 2 ^ 32) (h : s.Counted G) {op : LedgerOp n T P Q}
    (hok : callOk op s) (hs : Ledger.step fuel op s = some s') : s'.Inv := by
  cases op with
  | create p t kstack =>
    cases hs
    exact ⟨_, h.create hT hok p kstack⟩
  | fork c parent child self t kstack =>
    cases hs
    exact ⟨_, h.fork hT hok.1 hok.2 c parent self kstack⟩
  | exit c t code =>
    obtain ⟨m, hm, rfl⟩ := map_eq_some_iff.mp hs
    exact ⟨_, h.exit hok hm⟩
  | other tasks =>
    cases hs
    exact ⟨G, h.congr rfl⟩

/-- In every run the list of a process has its threads that are alive and `live_thread_count` is their
number, so that `proc_exit` is called by the last of them. `thread_count` is greater by the number of threads
that have exited; while there is none, `proc_reset_for_exec` refuses a process with more than one thread. -/
theorem thread_counts [Fintype T] (hT : Fintype.card T < 2 ^ 32) {s0 : Ledger n T P Q} (hfresh : s0.Fresh)
    (hrun : Run Ledger.step callOk s0 s) (p : P) :
    ∃ ts, Spine s.tasks.procNext (s.tasks.procs p).threads ts ∧ ts.Nodup ∧
      (∀ t, t ∈ ts ↔ s.alive t = true ∧ s.tasks.proc t = p) ∧
      (s.tasks.procs p).liveThreadCount.toNat = ts.length ∧
      (s.tasks.procs p).threadCount = .ofNat (ts.length + s.exited p) ∧
      (s.exited p = 0 → ((s.tasks.procs p).resetRefused = true ↔ 1 < ts.length)) ∧
      ∀ t ∈ ts, ∀ fuel c code, (s.tasks.threadMarkExit t code).procExitLast fuel c p code =
        if ts = [t] then (s.tasks.threadMarkExit t code).procExit fuel c p code
        else some (s.tasks.threadMarkExit t code) := by
  have hinv : s.Inv := hrun.invariant ⟨_, hfresh.counted⟩ fun s s' op fuel ⟨_, h⟩ hok hs => h.step hT hok hs
  obtain ⟨G, h⟩ := hinv
  have hmem : ∀ t, t ∈ G p ↔ s.alive t = true ∧ s.tasks.proc t = p := by
    intro t
    rw [h.alive]
    constructor
    · intro ht
      have hp := h.grouped.own p t ht
      exact ⟨hp ▸ ht, hp⟩
    · rintro ⟨ht, rfl⟩
      exact ht
  refine ⟨G p, h.grouped.spine p, h.grouped.nodup p, hmem, h.live p, h.count p, fun hnone => ?_,
    fun t ht fuel c code => ?_⟩
  · have hlen := (h.grouped.nodup p).length_le_card.trans_lt hT
    simp [ProcThreads.resetRefused, h.count, hnone, UInt32.lt_iff_toNat_lt]
    omega
  obtain ⟨live, hp, hlive⟩ := h.mark ((hmem t).mp ht).1 code p
  have hzero : live = 0 ↔ G p = [t] := by
    rw [← UInt32.toNat_inj, hlive]
    simp [erase_eq_nil_iff, ne_nil_of_mem ht]
  unfold Tasks.procExitLast
  simp only [hp, hzero]

/-! ### Two runs -/

/-- No thread has been made in the one process. -/
def unthreaded : Ledger 1 (Fin 3) Unit Unit := ⟨Tasks.oneProcess, fun _ => false, fun _ => 0⟩

theorem unthreaded_fresh : unthreaded.Fresh := ⟨fun _ => ⟨_, _, _, rfl⟩, fun _ => rfl, fun _ => rfl⟩

instance (op : LedgerOp n T P Q) (s : Ledger n T P Q) : Decidable (callOk op s) := by
  unfold callOk
  split <;> infer_instance

/-- With two threads and no exit, `proc_reset_for_exec` refuses. -/
theorem thread_counts_two : ∃ s, Run Ledger.step callOk unthreaded s ∧ s.exited () = 0 ∧
    (s.tasks.procs ()).resetRefused = true ∧ ∃ ts, Spine s.tasks.procNext (s.tasks.procs ()).threads ts ∧
      1 < ts.length := by
  refine Run.exists_of_exec 2 [.create () 1 0, .create () 2 0]
    (fun s => s.exited () = 0 ∧ (s.tasks.procs ()).resetRefused = true) (by decide) fun s hrun hs => ?_
  obtain ⟨ts, hts, -, -, -, -, hrefused, -⟩ := thread_counts (by decide) unthreaded_fresh hrun ()
  exact ⟨hs.1, hs.2, ts, hts, (hrefused hs.1).mp hs.2⟩

/-- After one of two threads has exited, `thread_count` is two with one thread in the list, and
`proc_reset_for_exec` refuses the process. -/
theorem reset_refused_after_exit : ∃ s, Run Ledger.step callOk unthreaded s ∧
    Spine s.tasks.procNext (s.tasks.procs ()).threads [1] ∧ (s.tasks.procs ()).threadCount = 2 ∧
      (s.tasks.procs ()).liveThreadCount = 1 ∧ (s.tasks.procs ()).resetRefused = true := by
  refine Run.exists_of_exec 4 [.create () 1 0, .create () 2 0, .exit 0 2 0]
    (fun s => ((s.tasks.procs ()).threads = some 1 ∧ s.tasks.procNext 1 = none) ∧
      (s.tasks.procs ()).threadCount = 2 ∧ (s.tasks.procs ()).liveThreadCount = 1 ∧
      (s.tasks.procs ()).resetRefused = true) (by decide) fun s _ hs => hs

end Ledger

end Lapis.Sched
