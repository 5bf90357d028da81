/-
Lapis.Sched.ThreadExitTheorems — a thread whose memory was freed is in no queue.

A thread that waits is in the queue it waits in until it is woken, a thread of a process is in the list of
that process until it exits, and none of them has memory that was freed or is about to be. With the
scheduler's own invariant (`Lapis.Sched.LiveThreads`) this holds in every run in which a thread other than
the current one exits only while no queue has it.
-/
import Lapis.Sched.LiveThreads
import Lapis.Sched.ThreadListTheorems

namespace Lapis.Sched

open Function List Option Lib

variable {n : Nat} {T P Q : Type}

namespace Tasks

variable {s s' : Tasks n T P Q} {c me : Fin n} {t u : T} {p : P} {q : Q}

/-! ## The invariant -/

/-- The invariant with the CPUs in the phases `ph`: a thread that waits, or is in the list of its process,
has memory that is not freed and will not be. -/
structure Sound (s : Tasks n T P Q) (ph : Fin n → Phase T) : Prop where
  live : s.sched.Live ph
  waits : ∃ W, s.Waiting W
  groups : ∃ G, s.Grouped G
  waitsKept : ∀ t q, s.waitsIn t = some q → s.sched.Kept t
  groupKept : ∀ p t, s.InProc p t → s.sched.Kept t
  once : s.freedTwice = false

variable {ph ph' : Fin n → Phase T}

/-- What waking threads leaves as it was. -/
structure Woke (s s' : Tasks n T P Q) : Prop where
  rest : s' = { s with sched := s'.sched, nodes := s'.nodes, wqs := s'.wqs, procs := s'.procs }
  threads : ∀ p, (s'.procs p).threads = (s.procs p).threads
  woken : ∀ t, (s.nodes t).woken = true → (s'.nodes t).woken = true
  keeps : SchedState.Keeps s.sched s'.sched
  zombie : ∀ t, (s.sched.threads t).state = .zombie → (s'.sched.threads t).state = .zombie
  current : ∀ d, s'.sched.current d = s.sched.current d

namespace Woke

theorem refl (s : Tasks n T P Q) : Woke s s :=
  ⟨rfl, fun _ => rfl, fun _ h => h, .refl _, fun _ h => h, fun _ => rfl⟩

theorem trans {s'' : Tasks n T P Q} (h : Woke s s') (h' : Woke s' s'') : Woke s s'' where
  rest := by
    rw [h'.rest, h.rest]
  threads p := (h'.threads p).trans (h.threads p)
  woken t ht := h'.woken t (h.woken t ht)
  keeps := h.keeps.trans h'.keeps
  zombie t ht := h'.zombie t (h.zombie t ht)
  current d := (h'.current d).trans (h.current d)

end Woke

/-- What `thread_exit` has done before it frees the thread or hands it to the scheduler. -/
structure Left (t : T) (s s' : Tasks n T P Q) : Prop where
  gone : ∀ p, ¬ s'.InProc p t
  zombie : (s'.sched.threads t).state = .zombie
  current : ∀ d, s'.sched.current d = s.sched.current d
  keeps : SchedState.Keeps s.sched s'.sched
  waitsIn : s'.waitsIn = s.waitsIn
  woken : ∀ u, (s.nodes u).woken = true → (s'.nodes u).woken = true
  phase : s'.phase = s.phase

/-- The invariant of every run. -/
structure Inv (s : Tasks n T P Q) : Prop where
  sound : s.Sound s.phase
  settled : ∀ c u, s.phase c ≠ .switching u

theorem settled_update {ph : Fin n → Phase T} (h : ∀ c u, ph c ≠ .switching u) {x : Phase T}
    (hx : ∀ u, x ≠ .switching u) (c d : Fin n) (u : T) : update ph c x d ≠ .switching u := by
  by_cases hd : d = c
  · simpa [hd] using hx u
  · simpa [hd] using h d u

namespace Sound

/-- No queue and no list has a thread whose memory was freed. -/
theorem unlinked (h : s.Sound ph) (ht : ¬ s.Allocated t) :
    (∀ i, ¬ s.sched.queues.Linked i t) ∧ (∀ q, ¬ s.waitQueues.Linked q t) ∧ ∀ p, ¬ s.InProc p t := by
  refine ⟨h.live.not_linked (by simpa [Allocated] using ht), fun q hq => ?_, fun p hp => ?_⟩
  · obtain ⟨W, hW⟩ := h.waits
    have hmem := (hW.mem q t).mp (hW.holds.linked_iff.mp hq)
    exact ht (h.waitsKept t q hmem.1).1
  · exact ht (h.groupKept p t hp).1

/-- A step that leaves the links, and keeps the threads that wait or have not exited. -/
theorem of_links (h : s.Sound ph) (hlive : s'.sched.Live ph')
    (hkept : ∀ t, s.sched.Kept t → ((∃ q, s.waitsIn t = some q) ∨ ∃ p, s.InProc p t) → s'.sched.Kept t)
    (hlinks : (s'.nodes, s'.wqs, s'.waitsIn, s'.proc, s'.procNext) =
      (s.nodes, s.wqs, s.waitsIn, s.proc, s.procNext))
    (hthreads : ∀ p, (s'.procs p).threads = (s.procs p).threads) (honce : s'.freedTwice = false) :
    s'.Sound ph' := by
  simp only [Prod.mk.injEq] at hlinks
  obtain ⟨hnodes, hwqs, hwaits, hproc, hnext⟩ := hlinks
  refine ⟨hlive, h.waits.imp fun _ hW => hW.congr hnodes hwqs hwaits,
    h.groups.imp fun _ hG => hG.congr hproc hnext hthreads, fun t q ht => ?_, fun p t ht => ?_, honce⟩
  · rw [hwaits] at ht
    exact hkept t (h.waitsKept t q ht) (.inl ⟨q, ht⟩)
  · unfold InProc at ht
    rw [hnext, hthreads] at ht
    exact hkept t (h.groupKept p t ht) (.inr ⟨p, ht⟩)

/-- The thread a CPU runs is not about to be freed. -/
theorem current_kept (h : s.Sound ph) (hph : ph c = .running) : s.sched.Kept (s.sched.current c) := by
  refine ⟨?_, fun d hd => ?_⟩
  · by_contra hf
    exact (h.live.gone _ (by simpa using hf)).2 c rfl
  · obtain ⟨L, -, hown⟩ := h.live.queued
    obtain ⟨hcur, hblock, -⟩ := h.live.dying d _ hd
    obtain rfl := hown.current_injective hcur
    simp [hph] at hblock

/-- A change of a process that leaves its list of threads. -/
theorem modProc [DecidableEq P] (h : s.Sound ph) (p : P) {f : ProcThreads T P → ProcThreads T P}
    (hf : ∀ g, (f g).threads = g.threads) : (s.modProc p f).Sound ph ∧ Woke s (s.modProc p f) := by
  have hthreads : ∀ r, ((s.modProc p f).procs r).threads = (s.procs r).threads := by
    intro r
    by_cases hr : r = p <;> simp [Tasks.modProc, hr, hf]
  have hwoke : Woke s (s.modProc p f) :=
    ⟨rfl, hthreads, fun _ ht => ht, .refl _, fun _ ht => ht, fun _ => rfl⟩
  exact ⟨h.of_links h.live (fun _ ht _ => ht) rfl hthreads h.once, hwoke⟩

end Sound

variable [DecidableEq T]

namespace Sound

theorem markExit [DecidableEq P] (h : s.Sound ph)
    (hlive : (s.sched.modThread t fun th => { th with state := .zombie }).Live ph') (code : Int) :
    (s.threadMarkExit t code).Sound ph' := by
  have hkeep : SchedState.Keeps s.sched (s.sched.modThread t fun th => { th with state := .zombie }) :=
    .of_remains (SchedState.remains_modThread fun _ => rfl)
  have hstart : ({ s with exitCode := update s.exitCode t code }.setState t .zombie).Sound ph' :=
    h.of_links hlive (fun _ hu _ => hu.of_keeps hkeep) rfl (fun _ => rfl) h.once
  refine (hstart.modProc (s.proc t) fun g => ?_).1
  split <;> rfl

/-- `thread_create` in memory that is not in use. -/
theorem create [DecidableEq P] (h : s.Sound ph) (ht : ¬ s.Allocated t) (p : P) (kstack : UInt64) :
    (s.threadCreate p t kstack).Sound ph := by
  have hfreed : (s.sched.threads t).freed = true := by simpa [Allocated] using ht
  obtain ⟨W, hW⟩ := h.waits
  obtain ⟨G, hG⟩ := h.groups
  have hwaits : s.waitsIn t = none := by
    by_contra hw
    obtain ⟨q, hq⟩ := ne_none_iff_exists'.mp hw
    exact ht (h.waitsKept t q hq).1
  have hgroup : ∀ r, t ∉ G r := fun r hr => ht (h.groupKept r t (hG.inProc_iff.mpr hr)).1
  have hgrouped := hG.create hgroup p kstack
  have hkept : ∀ u, u ≠ t → s.sched.Kept u → (s.sched.threadCreate t kstack).Kept u := by
    intro u hu hk
    exact ⟨by simpa [SchedState.threadCreate, SchedState.modThread, hu] using hk.1, hk.2⟩
  have hself : (s.sched.threadCreate t kstack).Kept t := by
    refine ⟨by simp [SchedState.threadCreate], fun d hd => ?_⟩
    have hlive := (h.live.dying d t hd).2.2.1
    simp [hfreed] at hlive
  refine ⟨h.live.create hfreed kstack, ⟨W, ?_, fun r u => ?_⟩, ⟨_, hgrouped⟩, fun u r hu => ?_,
    fun r u hu => ?_, h.once⟩
  · have hloose := hW.holds.loose t (hW.not_mem hwaits)
    have hq : (s.threadCreate p t kstack).waitQueues = s.waitQueues := by
      refine LinkQueues.ext ?_ ?_ rfl rfl <;> funext u <;> by_cases hut : u = t
      · simpa [waitQueues, threadCreate, Tasks.modProc, hut, eq_comm] using hloose.1
      · simp [waitQueues, threadCreate, Tasks.modProc, hut]
      · simpa [waitQueues, threadCreate, Tasks.modProc, hut, eq_comm] using hloose.2
      · simp [waitQueues, threadCreate, Tasks.modProc, hut]
    exact hq ▸ hW.holds
  · by_cases hut : u = t
    · subst hut
      simpa [threadCreate, Tasks.modProc] using hW.not_mem hwaits r
    · simpa [threadCreate, Tasks.modProc, hut] using hW.mem r u
  · have hut : u ≠ t := by
      rintro rfl
      simp [threadCreate, Tasks.modProc] at hu
    exact hkept u hut (h.waitsKept u r (by simpa [threadCreate, Tasks.modProc, hut] using hu))
  · by_cases hut : u = t
    · exact hut ▸ hself
    refine hkept u hut (h.groupKept r u (hG.inProc_iff.mpr ?_))
    have hmem := hgrouped.inProc_iff.mp hu
    by_cases hr : r = p
    · subst hr
      simpa [hut] using hmem
    · simpa [hr] using hmem

end Sound

/-- After `sched_init`: the CPUs run their idle threads, which have memory, no thread waits and the lists
of the processes have only threads that have memory. -/
structure Start (base : SchedState n T) (idle : Fin n → T) (s : Tasks n T P Q) : Prop where
  fresh : ∀ t, (base.threads t).Fresh
  injective : Function.Injective idle
  live : ∀ c, (base.threads (idle c)).freed = false
  reap : ∀ c, (base.cpus c).zombieToReap = none
  sched : s.sched = base.boot idle
  phase : s.phase = fun _ => .running
  nodes : ∀ t, (s.nodes t).next = none ∧ (s.nodes t).prev = none
  wqs : ∀ q, s.wqs q = ⟨none, none⟩
  waitsIn : ∀ t, s.waitsIn t = none
  groups : ∃ G, s.Grouped G ∧ ∀ p, ∀ t ∈ G p, s.Allocated t
  once : s.freedTwice = false

theorem Start.inv {base : SchedState n T} {idle : Fin n → T} (h : Start base idle s) : s.Inv := by
  have hkeep := SchedState.Keeps.boot base idle
  obtain ⟨G, hG, halloc⟩ := h.groups
  refine ⟨⟨?_, ⟨fun _ => [], ?_, fun q t => ?_⟩, ⟨G, hG⟩, fun t q ht => ?_, fun p t ht => ?_, h.once⟩, ?_⟩
  · rw [h.sched, h.phase]
    exact .boot h.fresh h.injective h.live h.reap
  · refine ⟨⟨by simp, by simp⟩, fun q => ?_, fun q => ?_, ?_, fun t _ => h.nodes t⟩
    · simp [waitQueues, h.wqs]
    · simp [waitQueues, h.wqs]
    · intro q A x B hsplit
      simp at hsplit
  · simp [h.waitsIn]
  · simp [h.waitsIn] at ht
  · refine ⟨halloc p t (hG.inProc_iff.mp ht), fun c => ?_⟩
    rw [h.sched, hkeep.zombie, h.reap]
    simp
  · simp [h.phase]

section

variable [Fintype T] (hT : Fintype.card T < 2 ^ 32)

include hT

/-- Waking the threads of a list one after the other. -/
theorem Sound.live_foldl {m : SchedState n T} (h : m.Live ph) (me : Fin n) {xs : List T}
    (hxs : ∀ t ∈ xs, (m.threads t).freed = false) : (xs.foldl (fun m t => m.schedWake me t) m).Live ph ∧
      SchedState.Keeps m (xs.foldl (fun m t => m.schedWake me t) m) ∧
      (∀ d, (xs.foldl (fun m t => m.schedWake me t) m).current d = m.current d) ∧
      ∀ u, (m.threads u).state = .zombie →
        ((xs.foldl (fun m t => m.schedWake me t) m).threads u).state = .zombie := by
  induction xs generalizing m with
  | nil => exact ⟨h, .refl m, fun _ => rfl, fun _ hu => hu⟩
  | cons x xs ih =>
    have hkeep := SchedState.Keeps.schedWake m me x
    obtain ⟨hlive, hcur, hzombie⟩ := h.wake hT (hxs x mem_cons_self) me
    obtain ⟨hlive, hkeeps, hcurs, hzombies⟩ := ih hlive
      fun t ht => (hkeep.freed t).trans (hxs t (mem_cons_of_mem x ht))
    exact ⟨hlive, hkeep.trans hkeeps, fun d => (hcurs d).trans (hcur d),
      fun u hu => hzombies u (hzombie u hu)⟩

theorem Inv.schedule (h : s.Inv) {now tsc : UInt64}
    (hsafe : Smp.stealsMovable (.pick c now) ⟨s.sched, s.phase⟩) :
    (∃ fuel s', schedule fuel now tsc c s = some s') ∧
      ∀ {fuel s'}, schedule fuel now tsc c s = some s' → s'.Inv := by
  obtain ⟨L, hrep, hown⟩ := h.sound.live.queued
  constructor
  · obtain ⟨fuel, m, hm⟩ := SchedState.schedule_returns hT hrep (Smp.current_not_queued hown) now tsc
    exact ⟨fuel, _, map_eq_some_iff.mpr ⟨m, hm, rfl⟩⟩
  intro fuel s' hs
  obtain ⟨m, hm, rfl⟩ := map_eq_some_iff.mp hs
  refine ⟨h.sound.of_links (h.sound.live.schedule hT hsafe hm) (fun _ ht _ => ht.schedule hm) rfl
    (fun _ => rfl) ?_, settled_update h.settled (by simp) c⟩
  cases hz : (s.sched.cpus c).zombieToReap with
  | none => simp [h.sound.once]
  | some z => simp [h.sound.once, (h.sound.live.dying c z hz).2.2.1]

end

variable [DecidableEq Q]

/-! ### Wait queues -/

namespace Sound

theorem wait (h : s.Sound ph) (hph : ph c = .running) (hidle : s.sched.current c ≠ (s.sched.rqs c).idle)
    (hfree : s.waitsIn (s.sched.current c) = none) (q : Q) :
    (s.waitqueueWait c q).Sound (update ph c .blocking) := by
  obtain ⟨W, hW⟩ := h.waits
  have hself := h.current_kept hph
  have hkeep : SchedState.Keeps s.sched (s.sched.schedMarkBlocked (s.sched.current c)) :=
    .of_remains (SchedState.remains_modThread fun _ => rfl)
  have hwait := hW.wait hfree q
  unfold waitqueueWait at hwait ⊢
  dsimp only at hwait ⊢
  rw [wqLink_eq] at hwait ⊢
  refine ⟨h.live.block hph hidle, ⟨_, hwait⟩, h.groups.imp fun _ hG => hG.congr rfl rfl fun _ => rfl,
    fun t r ht => ?_,
    fun p t ht => (h.groupKept p t ht).of_keeps hkeep, h.once⟩
  by_cases hts : t = s.sched.current c
  · exact hts ▸ hself.of_keeps hkeep
  · exact (h.waitsKept t r (by simpa [hts] using ht)).of_keeps hkeep

theorem waitReturn (h : s.Sound ph) (hs : s.waitqueueReturn c = some s') : s'.Sound ph := by
  obtain ⟨W, hW⟩ := h.waits
  obtain ⟨W', hW'⟩ := hW.waitReturn hs
  unfold waitqueueReturn at hs
  obtain ⟨q, -, rfl⟩ := map_eq_some_iff.mp hs
  have hrest : ∀ r : Tasks n T P Q, r = s ∨ r = s.wqUnlink q (s.sched.current c) →
      r = { s with nodes := r.nodes, wqs := r.wqs } := by
    rintro r (rfl | rfl)
    · rfl
    · exact wqUnlink_eq s q _
  dsimp only at hW' ⊢
  generalize hr : (if (s.nodes (s.sched.current c)).woken then s
    else s.wqUnlink q (s.sched.current c)) = r at hW' ⊢
  rw [hrest r (by rw [← hr]; split <;> simp)] at hW' ⊢
  refine ⟨h.live, ⟨W', hW'⟩, h.groups.imp fun _ hG => hG.congr rfl rfl fun _ => rfl, fun t r ht => ?_,
    h.groupKept, h.once⟩
  by_cases hts : t = s.sched.current c
  · simp [hts] at ht
  · exact h.waitsKept t r (by simpa [hts] using ht)

end Sound

section Finite

variable [Fintype T] (hT : Fintype.card T < 2 ^ 32)

include hT

namespace Sound

theorem wakeOne (h : s.Sound ph) (me : Fin n) (q : Q) : (s.waitqueueWakeOne me q).Sound ph := by
  obtain ⟨W, hW⟩ := h.waits
  have hwait := hW.wakeOne me q
  unfold waitqueueWakeOne at hwait ⊢
  cases hhead : (s.wqs q).head with
  | none => exact h
  | some t =>
  rw [hhead] at hwait
  obtain ⟨rest, hWq⟩ := hW.holds.head_eq_some_iff.mp (show s.waitQueues.head q = some t from hhead)
  have hkept := h.waitsKept t q ((hW.mem q t).mp (by rw [hWq]; simp)).1
  have hkeep := SchedState.Keeps.schedWake s.sched me t
  dsimp only at hwait ⊢
  unfold Tasks.schedWake modNode at hwait ⊢
  rw [wqUnlink_eq] at hwait ⊢
  exact ⟨(h.live.wake hT hkept.1 me).1, hwait, h.groups.imp fun _ hG => hG.congr rfl rfl fun _ => rfl,
    fun u r hu => (h.waitsKept u r hu).of_keeps hkeep,
    fun p u hu => (h.groupKept p u hu).of_keeps hkeep, h.once⟩

theorem wakeAll (h : s.Sound ph) (me : Fin n) (q : Q) :
    ∃ s', Finishes (fun fuel => s.waitqueueWakeAll fuel me q) s' ∧ s'.Sound ph ∧ Woke s s' := by
  obtain ⟨W, hW⟩ := h.waits
  obtain ⟨hlive, hkeep, hcur, hzombie⟩ := live_foldl hT h.live me
    fun t (ht : t ∈ W q) => (h.waitsKept t q ((hW.mem q t).mp ht).1).1
  refine ⟨s.wokenAll me q (W q), .of_lt fun fuel => waitqueueWakeAll_eq hW fuel me q, ?_, ?_⟩
  · exact ⟨hlive, ⟨_, hW.wakeAll me q⟩, h.groups.imp fun _ hG => hG.congr rfl rfl fun _ => rfl,
      fun u r hu => (h.waitsKept u r hu).of_keeps hkeep,
      fun p u hu => (h.groupKept p u hu).of_keeps hkeep, h.once⟩
  · refine ⟨rfl, fun _ => rfl, fun t ht => ?_, hkeep, hzombie, hcur⟩
    by_cases htq : t ∈ W q <;> simp [wokenAll, htq, ht]

theorem wakeParent (h : s.Sound ph) (me : Fin n) (parent : Option P) :
    ∃ s', Finishes (fun fuel => s.wakeParent fuel me parent) s' ∧ s'.Sound ph ∧ Woke s s' := by
  cases parent with
  | none => exact ⟨s, .pure s, h, .refl s⟩
  | some p => exact h.wakeAll hT me (s.waitChildren p)

end Sound

variable [DecidableEq P]

theorem Sound.procExit (h : s.Sound ph) (me : Fin n) (p : P) (code : Int) :
    ∃ s', Finishes (fun fuel => s.procExit fuel me p code) s' ∧ s'.Sound ph ∧ Woke s s' := by
  unfold Tasks.procExit
  by_cases hdead : (s.procs p).state = .zombie ∨ (s.procs p).state = .dead
  · simp only [hdead, if_true]
    exact ⟨s, .pure s, h, .refl s⟩
  · simp only [hdead, if_false]
    obtain ⟨h1, hw1⟩ := h.modProc p (f := fun g => { g with state := .zombie, exitCode := code }) fun _ => rfl
    obtain ⟨s2, hs2, h2, hw2⟩ := h1.wakeParent hT me _
    obtain ⟨s3, hs3, h3, hw3⟩ := h2.wakeParent hT me s2.initProc
    exact ⟨s3, hs2.bind hs3, h3, (hw1.trans hw2).trans hw3⟩

/-! ### Exit -/

theorem Sound.leave (h : s.Sound ph)
    (hlive : (s.sched.modThread t fun th => { th with state := .zombie }).Live ph') (me : Fin n) (code : Int) :
    ∃ s', Finishes (fun fuel => s.threadLeave fuel me t code) s' ∧ s'.Sound ph' ∧ Left t s s' := by
  have h1 := h.markExit hlive code
  have hkeep : SchedState.Keeps s.sched (s.sched.modThread t fun th => { th with state := .zombie }) :=
    .of_remains (SchedState.remains_modThread fun _ => rfl)
  have hzombie : ((s.threadMarkExit t code).sched.threads t).state = .zombie := by
    simp [threadMarkExit, setState, Tasks.modProc]
  obtain ⟨s2, hs2, h2, hw⟩ : ∃ s2, Finishes (fun fuel =>
      (s.threadMarkExit t code).procExitLast fuel me (s.proc t) code) s2 ∧ s2.Sound ph' ∧
        Woke (s.threadMarkExit t code) s2 := by
    unfold procExitLast
    split
    · exact h1.procExit hT me (s.proc t) code
    · exact ⟨_, .pure _, h1, .refl _⟩
  have hproc : s2.proc t = s.proc t := by
    rw [hw.rest]
    rfl
  obtain ⟨G, hG⟩ := h2.groups
  obtain ⟨s3, hs3, hG', hrest, -⟩ := hG.unlinkThread t
  rw [hproc] at hs3
  refine ⟨s3, hs2.bind hs3, ?_, ?_⟩
  · refine ⟨?_, ?_, ⟨_, hG'⟩, fun u r hu => ?_, fun p u hu => ?_, ?_⟩
    · rw [hrest]
      exact h2.live
    · rw [hrest]
      exact h2.waits.imp fun _ hW => hW.congr rfl rfl rfl
    · rw [hrest] at hu ⊢
      exact h2.waitsKept u r hu
    · have hold := hG.inProc_iff.mpr (mem_of_mem_erase (hG'.inProc_iff.mp hu))
      rw [hrest]
      exact h2.groupKept p u hold
    · rw [hrest]
      exact h2.once
  · have hsched : s3.sched = s2.sched := by rw [hrest]
    refine ⟨fun p hp => (hG.nodup p).not_mem_erase (hG'.inProc_iff.mp hp), ?_, fun d => ?_, ?_, ?_,
      fun u hu => ?_, ?_⟩
    · rw [hsched]
      exact hw.zombie t hzombie
    · rw [hsched]
      exact hw.current d
    · rw [hsched]
      exact hkeep.trans hw.keeps
    · rw [hrest, hw.rest]
      rfl
    · rw [hrest]
      exact hw.woken u hu
    · rw [hrest, hw.rest]
      rfl

/-- A thread that exits by itself. -/
theorem Sound.exit_current (h : s.Sound s.phase)
    (hph : s.phase c = .running) (hpend : ∀ d u, s.phase d ≠ .switching u)
    (hidle : ∀ d, s.sched.current c ≠ (s.sched.rqs d).idle)
    (hfree : s.waitsIn (s.sched.current c) = none) (code : Int) :
    ∃ s', Finishes (fun fuel => s.threadExit fuel c (s.sched.current c) code) s' ∧ s'.Sound s'.phase ∧
      s'.phase = update s.phase c .blocking := by
  obtain ⟨s1, hs1, h1, hleft⟩ := h.leave hT
    (h.live.retire_current hph hpend fun d => (hidle d).symm) c code
  refine ⟨s1.schedExitCurrent c (s.sched.current c) code, ?_, ?_, ?_⟩
  · have hmap := hs1.map fun s' => s'.schedExitCurrent c (s.sched.current c) code
    simpa [threadExit] using hmap
  · have hself : s1.sched.modThread (s.sched.current c) (fun th => { th with state := .zombie }) = s1.sched := by
      refine SchedState.modThread_eq_self ?_
      rw [← hleft.zombie]
    have hlive := h1.live.remember (c := c) (by simp) (by rw [hleft.current]; exact hleft.zombie)
    rw [hleft.current] at hlive
    unfold schedExitCurrent setState
    dsimp only
    rw [hself, hleft.phase]
    refine h1.of_links hlive (fun u hu hin => hu.remember ?_ c) rfl (fun _ => rfl) h1.once
    rintro rfl
    rcases hin with ⟨q, hq⟩ | ⟨p, hp⟩
    · simp [hleft.waitsIn, hfree] at hq
    · exact hleft.gone p hp
  · simp [schedExitCurrent, setState, hleft.phase]

/-- A thread that no queue has and no CPU runs is made to exit by another. -/
theorem Sound.exit_loose (h : s.Sound s.phase)
    (hpend : ∀ d u, s.phase d ≠ .switching u) (hidle : ∀ d, t ≠ (s.sched.rqs d).idle)
    (halloc : s.Allocated t) (hloose : s.Loose t) (c : Fin n) (code : Int) :
    ∃ s', Finishes (fun fuel => s.threadExit fuel c t code) s' ∧ s'.Sound s'.phase ∧ s'.phase = s.phase := by
  obtain ⟨s1, hs1, h1, hleft⟩ := h.leave hT
    (h.live.retire halloc hloose.levels (fun d _ => hloose.current d) (fun d => hpend d t)
      fun d => (hidle d).symm) c code
  have hcur : t ≠ s.sched.current c := (hloose.current c).symm
  have hfreed : (s1.sched.threads t).freed = false := (hleft.keeps.freed t).trans halloc
  have hkept : ∀ u, u ≠ t → s1.sched.Kept u → (s1.sched.threadFreeResources t).Kept u := by
    intro u hu hk
    exact ⟨by simpa [SchedState.threadFreeResources, SchedState.modThread, hu] using hk.1, hk.2⟩
  refine ⟨{ s1.threadFreeResources t with waitsIn := update s1.waitsIn t none }, ?_, ?_, hleft.phase⟩
  · have hmap := hs1.map fun s' => { s'.threadFreeResources t with waitsIn := update s'.waitsIn t none }
    simpa [threadExit, hcur] using hmap
  have hlive := h1.live.free (t := t) (by simp [hleft.zombie, ThreadState.Settled])
    fun d => (hleft.current d) ▸ hloose.current d
  have hphase : s1.phase = s.phase := hleft.phase
  obtain ⟨W, hW⟩ := h1.waits
  -- the thread was in no wait queue, so forgetting that it waits changes no queue
  have hout : ∀ r, t ∉ W r := by
    intro r hr
    obtain ⟨hin, hwoken⟩ := (hW.mem r t).mp hr
    obtain ⟨W0, hW0⟩ := h.waits
    refine hloose.waits r (hW0.holds.linked_iff.mpr ((hW0.mem r t).mpr ⟨hleft.waitsIn ▸ hin, ?_⟩))
    by_contra hw
    simp [hleft.woken t (by simpa using hw)] at hwoken
  refine ⟨hphase ▸ hlive, ⟨W, hW.holds, fun r u => ?_⟩,
    h1.groups.imp fun _ hG => hG.congr rfl rfl fun _ => rfl, fun u r hu => ?_, fun p u hu => ?_, ?_⟩
  · by_cases hut : u = t
    · subst hut
      simpa using hout r
    · simpa [hut, threadFreeResources] using hW.mem r u
  · have hut : u ≠ t := by
      rintro rfl
      simp at hu
    exact hkept u hut (h1.waitsKept u r (by simpa [hut] using hu))
  · have hut : u ≠ t := by
      rintro rfl
      exact hleft.gone p hu
    exact hkept u hut (h1.groupKept p u hu)
  · simp [threadFreeResources, h1.once, hfreed]

/-! ## Runs -/

/-- Every operation ends, and it keeps the invariant. -/
theorem Inv.step (h : s.Inv) {op : TaskOp n T P Q} (hcall : callOk op s) (hsafe : safeOp op s) :
    (∃ fuel s', step fuel op s = some s') ∧ ∀ {fuel s'}, step fuel op s = some s' → s'.Inv := by
  -- an operation without a loop, or one that is known to finish
  have hfinish : ∀ {f : Nat → Option (Tasks n T P Q)} {s' : Tasks n T P Q}, Finishes f s' → s'.Inv →
      (∃ fuel s', f fuel = some s') ∧ ∀ {fuel s'}, f fuel = some s' → s'.Inv := by
    intro f s' hf hs'
    obtain ⟨fuel, hfuel⟩ := hf.returns
    exact ⟨⟨fuel, s', hfuel⟩, fun hs => hf.eq_of_some hs ▸ hs'⟩
  cases op with
  | create p t kstack => exact hfinish (.pure _) ⟨h.sound.create hcall p kstack, h.settled⟩
  | enqueue c t =>
    obtain ⟨halloc, hstate⟩ := hcall
    have hset : ¬ (s.sched.threads t).state.Settled ∧ (s.sched.threads t).state ≠ .zombie := by
      rcases hstate with ht | ht | ht <;> simp [ht, ThreadState.Settled]
    have hkeep := SchedState.Keeps.schedEnqueue s.sched c t
    exact hfinish (.pure _) ⟨h.sound.of_links (h.sound.live.enqueue hT hset.1 hset.2 halloc c)
      (fun _ ht _ => ht.of_keeps hkeep) rfl (fun _ => rfl) h.sound.once, h.settled⟩
  | schedule c now tsc => exact h.schedule hT hsafe
  | wait c q =>
    obtain ⟨hph, hidle, hfree⟩ := hcall
    have hphase : (s.waitqueueWait c q).phase = update s.phase c .blocking := by
      unfold waitqueueWait
      dsimp only
      rw [wqLink_eq]
    refine hfinish (.pure _) ⟨?_, ?_⟩
    · rw [hphase]
      exact h.sound.wait hph hidle hfree q
    · rw [hphase]
      exact settled_update h.settled (by simp) c
  | waitReturn c =>
    obtain ⟨q, hq⟩ := ne_none_iff_exists'.mp hcall.2
    refine ⟨⟨0, _, map_eq_some_iff.mpr ⟨q, hq, rfl⟩⟩, fun {fuel s'} hs => ?_⟩
    have hphase : s'.phase = s.phase := by
      obtain ⟨r, -, rfl⟩ := map_eq_some_iff.mp hs
      dsimp only
      split
      · rfl
      · rw [wqUnlink_eq]
    refine ⟨?_, ?_⟩
    · rw [hphase]
      exact h.sound.waitReturn hs
    · rw [hphase]
      exact h.settled
  | wakeOne c q =>
    have hphase : (s.waitqueueWakeOne c q).phase = s.phase := by
      unfold waitqueueWakeOne
      cases (s.wqs q).head with
      | none => rfl
      | some t =>
        have hunlink : (s.wqUnlink q t).phase = s.phase := by rw [wqUnlink_eq]
        exact hunlink
    refine hfinish (.pure _) ⟨?_, ?_⟩
    · rw [hphase]
      exact h.sound.wakeOne hT c q
    · rw [hphase]
      exact h.settled
  | wakeAll c q =>
    obtain ⟨s1, hs1, h1, hwoke⟩ := h.sound.wakeAll hT c q
    have hphase : s1.phase = s.phase := by rw [hwoke.rest]
    exact hfinish hs1 ⟨hphase ▸ h1, hphase ▸ h.settled⟩
  | exit c t code =>
  obtain ⟨hph, hfree, halloc, hidle⟩ := hcall
  rcases hsafe with rfl | hloose
  · obtain ⟨s1, hs1, h1, hphase⟩ := h.sound.exit_current hT hph h.settled hidle hfree code
    exact hfinish hs1 ⟨h1, hphase ▸ settled_update h.settled (by simp) c⟩
  · obtain ⟨s1, hs1, h1, hphase⟩ := h.sound.exit_loose hT h.settled hidle halloc hloose c code
    exact hfinish hs1 ⟨h1, hphase ▸ h.settled⟩

end Finite

variable [DecidableEq P]

/-- Only threads that no queue has are made to exit by others, and only movable threads are stolen: then
no queue and no list ever has a thread whose memory was freed, no memory is freed twice, and every
operation ends. -/
theorem exited_threads_unlinked [Fintype T] (hT : Fintype.card T < 2 ^ 32) {base : SchedState n T}
    {idle : Fin n → T} {s₀ s : Tasks n T P Q} (hstart : Start base idle s₀)
    (hrun : Run step (fun op s => callOk op s ∧ safeOp op s) s₀ s) :
    (∀ t, ¬ s.Allocated t → (∀ i, ¬ s.sched.queues.Linked i t) ∧ (∀ q, ¬ s.waitQueues.Linked q t) ∧
      ∀ p, ¬ s.InProc p t) ∧ s.freedTwice = false ∧
      ∀ op, callOk op s → safeOp op s → ∃ fuel s', step fuel op s = some s' := by
  have hinv : s.Inv := hrun.invariant hstart.inv fun s s' op fuel h hok hs => (h.step hT hok.1 hok.2).2 hs
  exact ⟨fun t ht => hinv.sound.unlinked ht, hinv.sound.once,
    fun op hcall hsafe => (hinv.step hT hcall hsafe).1⟩

/-! ### Two runs -/

/-- One CPU, whose idle thread is 0; the other two threads have no memory yet. -/
def oneCpu : SchedState 1 (Fin 3) :=
  { SchedState.unbooted 1 (0 : Fin 3) with
    threads := fun t => { SchedState.freshThread with freed := decide (t ≠ 0) } }

/-- One process without threads, and one wait queue. -/
def oneProcess : Tasks 1 (Fin 3) Unit Unit where
  sched := oneCpu.boot fun _ => 0
  phase _ := .running
  nodes _ := ⟨none, none, false⟩
  blockedOn _ := none
  wqs _ := ⟨none, none⟩
  proc _ := ()
  procNext _ := none
  exitCode _ := 0
  procs _ := ⟨none, 0, 0, .running, 0, none⟩
  waitChildren _ := ()
  initProc := none
  waitsIn _ := none
  freedTwice := false

theorem oneProcess_start : Start oneCpu (fun _ => 0) oneProcess where
  fresh _ := ⟨rfl, rfl, rfl, rfl, rfl⟩
  injective a b _ := Subsingleton.elim a b
  live _ := rfl
  reap _ := rfl
  sched := rfl
  phase := rfl
  nodes _ := ⟨rfl, rfl⟩
  wqs _ := rfl
  waitsIn _ := rfl
  groups := ⟨fun _ => [], ⟨fun _ => rfl, by simp, by simp⟩, by simp⟩
  once := rfl

instance (op : TaskOp n T P Q) (s : Tasks n T P Q) : Decidable (callOk op s) :=
  match op with
  | .create _ t _ => inferInstanceAs (Decidable (¬ (s.sched.threads t).freed = false))
  | .enqueue _ t => inferInstanceAs (Decidable ((s.sched.threads t).freed = false ∧ (_ ∨ _ ∨ _)))
  | .wait _ _ => inferInstanceAs (Decidable (_ ∧ _ ∧ _))
  | .waitReturn _ => inferInstanceAs (Decidable (_ ∧ _))
  | .exit _ t _ => inferInstanceAs (Decidable (_ ∧ _ ∧ (s.sched.threads t).freed = false ∧ ∀ _ : Fin n, _))
  | .schedule _ _ _ | .wakeOne _ _ | .wakeAll _ _ => inferInstanceAs (Decidable True)

/-- A thread exits only by itself. -/
def exitsSelf (op : TaskOp n T P Q) (s : Tasks n T P Q) : Prop :=
  match op with
  | .exit c t _ => t = s.sched.current c
  | _ => True

instance (op : TaskOp n T P Q) (s : Tasks n T P Q) : Decidable (exitsSelf op s) :=
  match op with
  | .exit c t _ => inferInstanceAs (Decidable (t = s.sched.current c))
  | .create _ _ _ | .enqueue _ _ | .schedule _ _ _ | .wait _ _ | .waitReturn _ | .wakeOne _ _ | .wakeAll _ _ =>
    inferInstanceAs (Decidable True)

omit [DecidableEq T] [DecidableEq Q] [DecidableEq P] in
/-- One CPU has nobody to steal from. -/
theorem exitsSelf_safe {op : TaskOp 1 T P Q} {s : Tasks 1 T P Q} (h : exitsSelf op s) : safeOp op s := by
  cases op with
  | exit c t code => exact .inl h
  | schedule c now tsc => exact fun _ v hv => absurd (Subsingleton.elim v c) hv
  | _ => trivial

/-- A thread is created, runs and exits, and the next call of `schedule` frees it. -/
theorem exited_threads_unlinked_self :
    ∃ s, Run step (fun op s => callOk op s ∧ safeOp op s) oneProcess s ∧ ¬ s.Allocated 1 ∧
      ((∀ i, ¬ s.sched.queues.Linked i 1) ∧ (∀ q, ¬ s.waitQueues.Linked q 1) ∧ ∀ p, ¬ s.InProc p 1) ∧
      s.freedTwice = false := by
  obtain ⟨s, hself, hfreed⟩ : ∃ s, Run step (fun op s => callOk op s ∧ exitsSelf op s) oneProcess s ∧
      (s.sched.threads 1).freed :=
    Run.exists_of_exec 4 [.create () 1 0, .enqueue 0 1, .schedule 0 1 1, .exit 0 1 0, .schedule 0 2 2] _
      (by decide +kernel) fun _ _ h => h
  have hrun : Run step (fun op s => callOk op s ∧ safeOp op s) oneProcess s :=
    hself.weaken fun _ _ hok => ⟨hok.1, exitsSelf_safe hok.2⟩
  have hgone : ¬ s.Allocated 1 := by simp [Allocated, hfreed]
  obtain ⟨hunlinked, honce, -⟩ := exited_threads_unlinked (by decide) oneProcess_start hrun
  exact ⟨s, hrun, hgone, hunlinked 1 hgone, honce⟩

/-- Thread 1 makes thread 2 exit, which is ready: its memory is freed while it is still queued behind the
idle thread. -/
theorem ready_thread_freed : ∃ s, Run step callOk oneProcess s ∧ ¬ s.Allocated 2 ∧
    s.sched.queues.Linked (0, 0) 2 := by
  refine Run.exists_of_exec 4 [.create () 1 0, .enqueue 0 1, .schedule 0 1 1, .create () 2 0, .enqueue 0 2,
      .exit 0 2 0] (fun s => (s.sched.threads 2).freed ∧ s.sched.queues.head (0, 0) = some 0 ∧
        s.sched.queues.next 0 = some 2 ∧ s.sched.queues.next 2 = none) (by decide +kernel) fun s _ hend => ?_
  obtain ⟨hfreed, hhead, hfirst, hsecond⟩ := hend
  refine ⟨by simp [Allocated, hfreed], [0, 2], ?_, by simp⟩
  rw [hhead]
  refine ⟨rfl, ?_⟩
  rw [hfirst]
  refine ⟨rfl, ?_⟩
  rw [hsecond]
  rfl

end Tasks

end Lapis.Sched
