/-
Lapis.Sched.LiveThreads — the scheduler holds no thread whose memory was freed.

Only `reap_pending_zombie` frees memory in `schedule`, and only that of the thread which exited on this CPU.
-/
import Lapis.Sched.Fpu
import Lapis.Sched.SmpTheorems

namespace Lapis.Sched

open Function List Option

variable {n : Nat} {T : Type}

/-! ## What the scheduler leaves alone -/

variable {t : T} {c : Fin n} {fuel : Nat} {now tsc : UInt64}

namespace SchedState

/-- Nothing is freed, and every CPU has the same thread to reap. -/
structure Keeps (s s' : SchedState n T) : Prop where
  freed : ∀ t, (s'.threads t).freed = (s.threads t).freed
  zombie : ∀ c, (s'.cpus c).zombieToReap = (s.cpus c).zombieToReap

variable {s s' s'' : SchedState n T}

/-- What the scheduler does not use: the memory that was freed and the threads to reap. -/
def remains (s : SchedState n T) : (T → Bool) × (Fin n → Option T) :=
  (fun t => (s.threads t).freed, fun c => (s.cpus c).zombieToReap)

theorem Keeps.of_remains (h : s'.remains = s.remains) : Keeps s s' :=
  ⟨congrFun (congrArg Prod.fst h), congrFun (congrArg Prod.snd h)⟩

theorem Keeps.refl (s : SchedState n T) : Keeps s s := .of_remains rfl

theorem Keeps.trans (h : Keeps s s') (h' : Keeps s' s'') : Keeps s s'' :=
  ⟨fun t => (h'.freed t).trans (h.freed t), fun c => (h'.zombie c).trans (h.zombie c)⟩

@[simp] theorem remains_modRq (f : Runqueue T → Runqueue T) : (s.modRq c f).remains = s.remains := rfl

@[simp] theorem remains_modLevel (l : Fin 8) (f : MlfqQueue T → MlfqQueue T) :
    (s.modLevel c l f).remains = s.remains := rfl

@[simp] theorem remains_modCpu {f : Cpu T → Cpu T} (hf : ∀ cpu, (f cpu).zombieToReap = cpu.zombieToReap) :
    (s.modCpu c f).remains = s.remains := by
  refine Prod.ext rfl (funext fun d => ?_)
  by_cases hd : d = c
  · simp [remains, modCpu, hd, hf]
  · simp [remains, modCpu, hd]

variable [DecidableEq T]

@[simp] theorem remains_modThread {f : Thread T → Thread T} (hf : ∀ th, (f th).freed = th.freed) :
    (s.modThread t f).remains = s.remains := by
  refine Prod.ext (funext fun u => ?_) rfl
  by_cases hu : u = t
  · simp [remains, hu, hf]
  · simp [remains, modThread, hu]

@[simp] theorem remains_mlfqPush (l : Fin 8) : (s.mlfqPush c l t).remains = s.remains := by
  unfold mlfqPush
  dsimp only
  split <;> simp

@[simp] theorem remains_mlfqPop (l : Fin 8) : (s.mlfqPop c l).2.remains = s.remains := by
  unfold mlfqPop
  split
  · rfl
  · dsimp only
    split <;> simp

theorem remains_boostLevel (l : Fin 8) (hb : boostLevel c l fuel s = some s') : s'.remains = s.remains := by
  induction fuel generalizing s with
  | zero => cases hb
  | succ fuel ih =>
    have hpop := remains_mlfqPop (s := s) (c := c) l
    unfold boostLevel at hb
    split at hb <;> rename_i heq <;> rw [heq] at hpop
    · rw [← some.inj hb, hpop]
    · simp [ih hb, hpop]

theorem remains_boostLevels (ls : List (Fin 8))
    (hb : ls.foldlM (fun s l => boostLevel c l fuel s) s = some s') : s'.remains = s.remains := by
  induction ls generalizing s with
  | nil => simp_all
  | cons l ls ih =>
    rw [foldlM_cons] at hb
    obtain ⟨s1, hs1, hrest⟩ := bind_eq_some_iff.mp hb
    rw [ih hrest, remains_boostLevel l hs1]

theorem remains_maybeBoost (hb : maybeBoost fuel now c s = some s') : s'.remains = s.remains := by
  unfold maybeBoost at hb
  split at hb
  · simp [← some.inj hb]
  · split at hb
    · rw [some.inj hb]
    · simp [remains_boostLevels _ hb]

@[simp] theorem remains_stealFrom : (s.stealFrom c).2.remains = s.remains := by
  unfold stealFrom
  split
  · rfl
  · split <;> simp

@[simp] theorem remains_tryStealFrom (is : List (Fin n)) : (s.tryStealFrom c is).2.remains = s.remains := by
  induction is generalizing s with
  | nil => rfl
  | cons i is ih =>
    have hsteal := remains_stealFrom (s := s) (c := i)
    unfold tryStealFrom
    split
    · exact ih
    · split
      · exact ih
      · split <;> simp_all

@[simp] theorem remains_mlfqPickNext : (s.mlfqPickNext c).2.remains = s.remains := by
  unfold mlfqPickNext
  split <;> simp

@[simp] theorem remains_chooseNext : (s.chooseNext c).2.remains = s.remains := by
  have hpick := remains_mlfqPickNext (s := s) (c := c)
  unfold chooseNext trySteal
  dsimp only
  split <;> split <;> simp_all

@[simp] theorem remains_requeuePrev : (s.requeuePrev c).remains = s.remains := by
  unfold requeuePrev schedSetPriority
  dsimp only
  split <;> simp

@[simp] theorem remains_doSwitch (prev next : T) : (s.doSwitch tsc c prev next).remains = s.remains := by
  unfold doSwitch contextSwitch switchTss fpuLazyDisable fpuSave
  split <;> simp

theorem Keeps.schedEnqueue (s : SchedState n T) (me : Fin n) (t : T) : Keeps s (s.schedEnqueue me t) := by
  apply Keeps.of_remains
  simp [SchedState.schedEnqueue]

theorem Keeps.schedWake (s : SchedState n T) (me : Fin n) (t : T) : Keeps s (s.schedWake me t) := by
  apply Keeps.of_remains
  unfold SchedState.schedWake SchedState.schedEnqueue
  split <;> simp

/-- `schedule` frees the thread to reap and nothing else. -/
theorem Keeps.schedule (hs : SchedState.schedule fuel now tsc c s = some s') :
    Keeps (s.reapPendingZombie c) s' := by
  unfold SchedState.schedule SchedState.schedulePick at hs
  obtain ⟨⟨next, s2⟩, hpick, rfl⟩ := map_eq_some_iff.mp hs
  obtain ⟨s1, hboost, hchoose⟩ := map_eq_some_iff.mp hpick
  have h2 := remains_chooseNext (s := s1) (c := c)
  rw [hchoose, remains_maybeBoost hboost, remains_requeuePrev] at h2
  apply Keeps.of_remains
  dsimp only
  split <;> simpa using h2

end SchedState

/-! ## Threads that end and start -/

namespace AbsSched

variable {a a' : AbsSched n T} {ph : Fin n → Phase T} {c d : Fin n} {t u next : T}

/-- No queue has the thread that a CPU runs. -/
theorem Owned.current_not_ready (h : Owned a ph) (hph : ph c = .running) (d : Fin n) :
    a.current c ∉ a.ready d := by
  intro hd
  obtain rfl := owner_unique (h.ready d _ hd).2 (h.current c)
  exact (h.resting d hph).1 hd

theorem Owned.current_injective (h : Owned a ph) (he : a.current c = a.current d) : c = d :=
  owner_unique (h.current c) (he ▸ h.current d)

variable [DecidableEq T]

namespace Owned

/-- A thread that no queue holds and no CPU runs may end. -/
theorem retire (h : Owned a ph) (hqueue : ∀ d, t ∉ a.ready d)
    (hcur : ∀ d, ph d = .running → a.current d ≠ t) (hpend : ∀ d, ph d ≠ .switching t)
    (hidle : ∀ d, a.idle d ≠ t) :
    Owned { a with state := update a.state t .zombie } ph :=
  h.setState (fun d hd => absurd hd (hqueue d)) (fun d hd => absurd hd (hpend d))
    (fun d hd he => absurd he (hcur d hd)) (fun d he => absurd he (hidle d)) nofun (by simp)

/-- Memory that no queue and no CPU refers to becomes a new thread. -/
theorem renew (h : Owned a ph) (ht : ¬ (a.state t).Settled) (hcur : ∀ d, a.current d ≠ t) :
    Owned { a with
      state := update a.state t .new
      lastCpu := update a.lastCpu t (-1)
      pinnedCpu := update a.pinnedCpu t (-1) } ph := by
  have hidle : ∀ d, a.idle d ≠ t := fun d he => ht (he ▸ (h.idle d).2.2)
  constructor
  case nodup => exact h.nodup
  case ready =>
    intro d u hu
    have hut : u ≠ t := fun he => ht (he ▸ .inl (h.ready d u hu).1)
    simpa [hut] using h.ready d u hu
  case current =>
    intro d
    simpa [hcur d] using h.current d
  case pending =>
    intro d u hu
    have hut : u ≠ t := fun he => ht (he ▸ (h.pending d u hu).2.2.2)
    simpa [hut] using h.pending d u hu
  case resting =>
    intro d hd
    simpa [hcur d] using h.resting d hd
  case idle =>
    intro d
    simpa [hidle d] using h.idle d
  case pinned =>
    intro u hu
    have hut : u ≠ t := by
      rintro rfl
      simp at hu
    exact h.pinned u (by simpa [hut] using hu)
  case fresh =>
    intro u hu
    by_cases hut : u = t
    · simp [hut]
    · simpa [hut] using h.fresh u (by simpa [hut] using hu)
  case waiting =>
    intro u hu
    have hut : u ≠ t := by
      rintro rfl
      simp at hu
    simpa [hut] using h.waiting u (by simpa [hut] using hu)

end Owned

theorem Enqueue.state_of_ne (h : Enqueue d t a a') (hu : u ≠ t) : a'.state u = a.state u := by
  cases h with
  | mk => simp [hu]

theorem Enqueue.current_eq (h : Enqueue d t a a') : a'.current = a.current := by
  cases h with
  | mk => rfl

theorem Requeue.state_of_unsettled {P : List T} (h : Requeue c P a a') (hu : ¬ (a.state u).Settled) :
    a'.state u = a.state u := by
  cases h with
  | stay => rfl
  | back hrun =>
    have hne : u ≠ a.current c := fun he => hu (.inr (he ▸ hrun))
    simp [hne]

theorem Choose.state_eq {steal : Fin n → T → Prop} (h : Choose steal c a next a') :
    a'.state = a.state ∧ a'.current = a.current := by
  cases h <;> exact ⟨rfl, rfl⟩

end AbsSched

/-! ## The invariant -/

namespace SchedState

variable {s s' : SchedState n T} {ph ph' : Fin n → Phase T}

/-- The memory of the thread is not freed and no CPU is about to free it. -/
def Kept (s : SchedState n T) (t : T) : Prop :=
  (s.threads t).freed = false ∧ ∀ c, (s.cpus c).zombieToReap ≠ some t

/-- A CPU has one more thread to reap. -/
theorem Kept.remember {z : T} (h : s.Kept t) (hz : t ≠ z) (c : Fin n) :
    (s.modCpu c fun cpu => { cpu with zombieToReap := some z }).Kept t := by
  refine ⟨h.1, fun d => ?_⟩
  by_cases hd : d = c
  · simpa [modCpu, hd] using hz.symm
  · simpa [modCpu, hd] using h.2 d

theorem Kept.of_keeps (h : s.Kept t) (hk : Keeps s s') : s'.Kept t :=
  ⟨(hk.freed t).trans h.1, fun c => hk.zombie c ▸ h.2 c⟩

/-- The scheduler holds no thread whose memory was freed, and the thread a CPU has to reap is the one it
ran when that thread exited. -/
structure Live (s : SchedState n T) (ph : Fin n → Phase T) : Prop where
  queued : ∃ L, s.Represents L ∧ (s.view L).Owned ph
  gone : ∀ t, (s.threads t).freed = true → ¬ (s.threads t).state.Settled ∧ ∀ c, s.current c ≠ t
  dying : ∀ c z, (s.cpus c).zombieToReap = some z → s.current c = z ∧ ph c = .blocking ∧
    (s.threads z).freed = false ∧ (s.threads z).state = .zombie

/-- A step that frees nothing, leaves the threads that are not queued or running as they are, and makes no
CPU run a thread whose memory was freed. -/
theorem Live.of_keeps (h : s.Live ph) (hk : Keeps s s')
    (hqueued : ∃ L, s'.Represents L ∧ (s'.view L).Owned ph')
    (hstate : ∀ u, ¬ (s.threads u).state.Settled → (s.threads u).freed = true ∨
      (s.threads u).state = .zombie → (s'.threads u).state = (s.threads u).state)
    (hcur : ∀ d, s'.current d = s.current d)
    (hph : ∀ d, ph d = .blocking → ph' d = .blocking) : s'.Live ph' := by
  refine ⟨hqueued, fun u hu => ?_, fun d z hz => ?_⟩
  · rw [hk.freed] at hu
    obtain ⟨hset, hne⟩ := h.gone u hu
    rw [hstate u hset (.inl hu)]
    exact ⟨hset, fun d => hcur d ▸ hne d⟩
  · rw [hk.zombie] at hz
    obtain ⟨hz', hblock, hfree, hzombie⟩ := h.dying d z hz
    refine ⟨(hcur d).trans hz', hph d hblock, (hk.freed z).trans hfree, ?_⟩
    rw [hstate z (by simp [hzombie, ThreadState.Settled]) (.inr hzombie), hzombie]

/-- No level has a thread whose memory was freed. -/
theorem Live.not_linked (h : s.Live ph) (ht : (s.threads t).freed = true) (i : Fin n × Fin 8) :
    ¬ s.queues.Linked i t := by
  obtain ⟨L, hrep, hown⟩ := h.queued
  rw [hrep.holds.linked_iff]
  exact Smp.not_queued hown (fun hr => (h.gone t ht).1 (.inl hr)) i

/-- The CPU remembers the thread that exited on it. -/
theorem Live.remember (h : s.Live ph) (hph : ph c = .blocking) (hz : (s.threads (s.current c)).state = .zombie) :
    (s.modCpu c fun cpu => { cpu with zombieToReap := some (s.current c) }).Live ph := by
  obtain ⟨L, hrep, hown⟩ := h.queued
  have hcur : ∀ d, (s.modCpu c fun cpu => { cpu with zombieToReap := some (s.current c) }).current d =
      s.current d := by
    intro d
    by_cases hdc : d = c <;> simp [current, modCpu, hdc]
  refine ⟨⟨L, hrep.modCpu, ?_⟩, fun u hu => ?_, fun d z hd => ?_⟩
  · rw [view_modCpu_same]
    · exact hown
    · exact fun _ => rfl
  · exact ⟨(h.gone u hu).1, fun d => hcur d ▸ (h.gone u hu).2 d⟩
  rw [hcur]
  by_cases hdc : d = c
  · subst hdc
    obtain rfl : s.current d = z := by simpa [modCpu] using hd
    refine ⟨rfl, hph, ?_, hz⟩
    by_contra hf
    exact (h.gone _ (by simpa using hf)).2 d rfl
  · exact h.dying d z (by simpa [modCpu, hdc] using hd)

variable [DecidableEq T]

theorem modThread_eq_self {f : Thread T → Thread T}
    (h : f (s.threads t) = s.threads t) : s.modThread t f = s := by
  unfold modThread
  rw [h, update_eq_self]

namespace Live

section Steps

variable [Fintype T] (hT : Fintype.card T < 2 ^ 32)

include hT

theorem enqueue (h : s.Live ph) (ht : ¬ (s.threads t).state.Settled)
    (hz : (s.threads t).state ≠ .zombie) (hlive : (s.threads t).freed = false) (me : Fin n) :
    (s.schedEnqueue me t).Live ph := by
  obtain ⟨L, hrep, hown⟩ := h.queued
  obtain ⟨L', hrep', henq⟩ := schedEnqueue_spec hT hrep (Smp.not_queued hown fun hr => ht (.inl hr)) me
  refine h.of_keeps (Keeps.schedEnqueue s me t)
    ⟨L', hrep', hown.enqueue ht (Smp.enqueueCpu_owner hown ht me) henq⟩ ?_ ?_ fun _ hd => hd
  · intro u _ hu
    refine henq.state_of_ne ?_
    rintro rfl
    simp [hlive, hz] at hu
  · exact congrFun henq.current_eq

/-- Waking makes no CPU run another thread, and it leaves zombies alone. -/
theorem wake (h : s.Live ph) (hlive : (s.threads t).freed = false) (me : Fin n) :
    (s.schedWake me t).Live ph ∧ (∀ d, (s.schedWake me t).current d = s.current d) ∧
      ∀ u, (s.threads u).state = .zombie → ((s.schedWake me t).threads u).state = .zombie := by
  obtain ⟨L, hrep, hown⟩ := h.queued
  have hset : (s.threads t).state = .blocked ∨ (s.threads t).state = .sleeping →
      ¬ (s.threads t).state.Settled ∧ (s.threads t).state ≠ .zombie := by
    rintro (ht | ht) <;> simp [ht, ThreadState.Settled]
  obtain ⟨L', hrep', hsame | ⟨hwait, henq⟩⟩ :=
    schedWake_spec hT hrep (fun hw => Smp.not_queued hown fun hr => (hset hw).1 (.inl hr)) me
  · have hs : s.schedWake me t = s := by
      unfold SchedState.schedWake
      rw [if_neg (by simp [hsame.1, hsame.2.1])]
    rw [hs]
    exact ⟨h, fun _ => rfl, fun _ hu => hu⟩
  · have hcur := congrFun henq.current_eq
    refine ⟨h.of_keeps (Keeps.schedWake s me t)
      ⟨L', hrep', hown.enqueue (hset hwait).1 (Smp.enqueueCpu_owner hown (hset hwait).1 me) henq⟩
      (fun u _ hu => henq.state_of_ne ?_) hcur fun _ hd => hd, hcur,
      fun u hu => (henq.state_of_ne ?_).trans hu⟩
    · rintro rfl
      simp [hlive, (hset hwait).2] at hu
    · rintro rfl
      exact (hset hwait).2 hu

end Steps

/-! ### Blocking, ending and starting -/

theorem block (h : s.Live ph) (hph : ph c = .running) (hidle : s.current c ≠ (s.rqs c).idle) :
    (s.schedMarkBlocked (s.current c)).Live (update ph c .blocking) := by
  obtain ⟨L, hrep, hown⟩ := h.queued
  obtain ⟨hrep', hview⟩ := schedMarkBlocked_spec hrep (s.current c)
  have hkeep : Keeps s (s.schedMarkBlocked (s.current c)) :=
    .of_remains (remains_modThread fun _ => rfl)
  refine h.of_keeps hkeep ⟨L, hrep', hview ▸ hown.block hph hidle⟩ ?_ (fun _ => rfl) ?_
  · intro u hu _
    have hne : u ≠ s.current c := fun he => hu (he ▸ (hown.resting c hph).2)
    simp [schedMarkBlocked, modThread, hne]
  · intro d hd
    by_cases hdc : d = c <;> simp [hdc, hd]

/-- A thread that is not queued and not current becomes a zombie. -/
theorem retire (h : s.Live ph) (hlive : (s.threads t).freed = false)
    (hqueue : ∀ i, ¬ s.queues.Linked i t) (hcur : ∀ d, ph d = .running → s.current d ≠ t)
    (hpend : ∀ d, ph d ≠ .switching t) (hidle : ∀ d, (s.rqs d).idle ≠ t) :
    (s.modThread t fun th => { th with state := .zombie }).Live ph := by
  obtain ⟨L, hrep, hown⟩ := h.queued
  have hready : ∀ d, t ∉ (s.view L).ready d := by
    intro d hd
    obtain ⟨l, hl⟩ := mem_flat.mp hd
    exact hqueue (d, l) (hrep.holds.linked_iff.mpr hl)
  have hkeep : Keeps s (s.modThread t fun th => { th with state := .zombie }) :=
    .of_remains (remains_modThread fun _ => rfl)
  refine h.of_keeps hkeep ⟨L, hrep.setState, ?_⟩ ?_ (fun _ => rfl) fun _ hd => hd
  · rw [view_setState]
    exact hown.retire hready hcur hpend hidle
  intro u _ hu
  by_cases hut : u = t
  · subst hut
    simp only [hlive, Bool.false_eq_true, false_or] at hu
    simp [hu]
  · simp [modThread, hut]

/-- The thread a CPU runs becomes a zombie on its way to `schedule`. -/
theorem retire_current (h : s.Live ph) (hph : ph c = .running) (hpend : ∀ d u, ph d ≠ .switching u)
    (hidle : ∀ d, (s.rqs d).idle ≠ s.current c) :
    (s.modThread (s.current c) fun th => { th with state := .zombie }).Live (update ph c .blocking) := by
  obtain ⟨L, hrep, hown⟩ := h.queued
  have hblocking : s.Live (update ph c .blocking) := by
    refine h.of_keeps (.refl s) ⟨L, hrep, hown.blocking c⟩ (fun _ _ _ => rfl) (fun _ => rfl) ?_
    intro d hd
    by_cases hdc : d = c <;> simp [hdc, hd]
  have hlive : (s.threads (s.current c)).freed = false := by
    by_contra hf
    exact (h.gone _ (by simpa using hf)).2 c rfl
  refine hblocking.retire hlive ?_ ?_ ?_ hidle
  · intro i hi
    exact hown.current_not_ready hph i.1 (mem_flat.mpr ⟨i.2, hrep.holds.linked_iff.mp hi⟩)
  · intro d hd he
    obtain rfl := hown.current_injective he
    simp at hd
  · intro d
    by_cases hdc : d = c
    · simp [hdc]
    · simpa [hdc] using hpend d _

/-- The memory of a thread that is not queued and not current is freed. -/
theorem free (h : s.Live ph) (ht : ¬ (s.threads t).state.Settled) (hcur : ∀ d, s.current d ≠ t) :
    (s.threadFreeResources t).Live ph := by
  obtain ⟨L, hrep, hown⟩ := h.queued
  have hstate : ∀ u, ((s.threadFreeResources t).threads u).state = (s.threads u).state := by
    intro u
    by_cases hut : u = t <;> simp [threadFreeResources, modThread, hut]
  have hunseen : Unseen s (s.threadFreeResources t) :=
    .modThread (.refl s) (fun _ => ⟨rfl, rfl⟩) fun _ => ⟨rfl, rfl, rfl⟩
  refine ⟨⟨L, hunseen.represents hrep, hunseen.view L ▸ hown⟩, fun u hu => ?_, fun d z hd => ?_⟩
  · rw [hstate]
    by_cases hut : u = t
    · subst hut
      exact ⟨ht, hcur⟩
    · exact h.gone u (by simpa [threadFreeResources, modThread, hut] using hu)
  · obtain ⟨hz, hblock, hfree, hzombie⟩ := h.dying d z hd
    have hzt : z ≠ t := fun he => hcur d (hz.trans he)
    exact ⟨hz, hblock, by simpa [threadFreeResources, modThread, hzt] using hfree, (hstate z).trans hzombie⟩

/-- `thread_create` in memory that was not in use. -/
theorem create (h : s.Live ph) (ht : (s.threads t).freed = true) (kstack : UInt64) :
    (s.threadCreate t kstack).Live ph := by
  obtain ⟨L, hrep, hown⟩ := h.queued
  obtain ⟨hset, hcur⟩ := h.gone t ht
  have hloose := hrep.holds.loose t (Smp.not_queued hown fun hr => hset (.inl hr))
  have hother : ∀ u, u ≠ t → (s.threadCreate t kstack).threads u = s.threads u := by
    intro u hut
    simp [threadCreate, modThread, hut]
  have hqueues : (s.threadCreate t kstack).queues = s.queues := by
    refine Lib.LinkQueues.ext ?_ ?_ rfl rfl <;> funext u <;> by_cases hut : u = t
    · simpa [queues, threadCreate, hut, eq_comm] using hloose.1
    · simp [queues, hother u hut]
    · simpa [queues, threadCreate, hut, eq_comm] using hloose.2
    · simp [queues, hother u hut]
  have hview : (s.threadCreate t kstack).view L =
      { s.view L with
        state := update (s.view L).state t .new
        lastCpu := update (s.view L).lastCpu t (-1)
        pinnedCpu := update (s.view L).pinnedCpu t (-1) } := by
    ext u : 2 <;> try rfl
    all_goals by_cases hut : u = t <;> simp [view, threadCreate, modThread, hut]
  refine ⟨⟨L, ⟨hqueues ▸ hrep.holds, hrep.counts⟩, hview ▸ hown.renew hset hcur⟩, ?_, ?_⟩
  · intro u hu
    have hut : u ≠ t := by
      rintro rfl
      simp [threadCreate] at hu
    rw [hother u hut] at hu ⊢
    exact h.gone u hu
  · intro d z hz
    obtain ⟨hcurz, hblock, hfree, hzombie⟩ := h.dying d z hz
    have hzt : z ≠ t := fun he => hcur d (hcurz.trans he)
    exact ⟨hcurz, hblock, by rw [hother z hzt]; exact hfree, by rw [hother z hzt]; exact hzombie⟩

end Live

/-! ### schedule -/

theorem reapPendingZombie_freed (s : SchedState n T) (c : Fin n) (t : T) :
    ((s.reapPendingZombie c).threads t).freed = true ↔
      (s.threads t).freed = true ∨ (s.cpus c).zombieToReap = some t := by
  unfold reapPendingZombie threadFreeResources
  cases hz : (s.cpus c).zombieToReap with
  | none => simp
  | some z =>
    by_cases htz : t = z
    · simp [htz]
    · have hzt : z ≠ t := fun he => htz he.symm
      simp [modThread, htz, hzt]

theorem reapPendingZombie_zombie (s : SchedState n T) (c d : Fin n) :
    ((s.reapPendingZombie c).cpus d).zombieToReap = if d = c then none else (s.cpus d).zombieToReap := by
  unfold reapPendingZombie threadFreeResources
  cases hz : (s.cpus c).zombieToReap with
  | none =>
    by_cases hdc : d = c <;> simp [hdc, hz]
  | some z =>
    by_cases hdc : d = c <;> simp [modCpu, hdc]

/-- `schedule` frees no other thread than the one that was to be reaped. -/
theorem Kept.schedule (h : s.Kept t) (hs : SchedState.schedule fuel now tsc c s = some s') : s'.Kept t := by
  refine Kept.of_keeps ⟨?_, fun d => ?_⟩ (Keeps.schedule hs)
  · by_contra hf
    rw [Bool.not_eq_false, reapPendingZombie_freed, h.1] at hf
    exact h.2 c (by simpa using hf)
  · rw [reapPendingZombie_zombie]
    split
    · simp
    · exact h.2 d

section Schedule

variable [Fintype T] {L : Fin n × Fin 8 → List T}

/-- `schedule` leaves every thread with one CPU, and changes nothing about a thread that is neither ready
nor running and about what the other CPUs run. -/
theorem schedule_owned (hT : Fintype.card T < 2 ^ 32) (hrep : s.Represents L) (hown : (s.view L).Owned ph)
    (hok : Smp.stealsMovable (.pick c now) ⟨s, ph⟩) (hs : schedule fuel now tsc c s = some s') :
    (∃ L', s'.Represents L' ∧ (s'.view L').Owned (update ph c .running)) ∧
      (∀ u, ¬ (s.threads u).state.Settled → (s'.threads u).state = (s.threads u).state) ∧
      ∀ d, d ≠ c → s'.current d = s.current d := by
  obtain ⟨⟨next, s1⟩, hpick, rfl⟩ := map_eq_some_iff.mp hs
  obtain ⟨M, a, -, hrequeue, hchoose⟩ := schedulePick_spec hT hrep (Smp.current_not_queued hown) hpick
  have hstate : ∀ u, ¬ (s.threads u).state.Settled → (s1.threads u).state = (s.threads u).state := by
    intro u hu
    exact (congrFun hchoose.state_eq.1 u).trans (hrequeue.state_of_unsettled hu)
  have hcur : ∀ d, s1.current d = s.current d := by
    intro d
    exact (congrFun hchoose.state_eq.2 d).trans (congrFun hrequeue.current_eq d)
  obtain ⟨L', hrep', hstep⟩ : ∃ L', s1.Represents L' ∧
      AbsSched.Step (fun a v t => a.pinnedCpu t < 0 ∧ t ≠ a.current v) (s.view L) ph (s1.view L')
        (update ph c (if next = s.current c then .running else .switching next)) :=
    Smp.step_pick hT hrep hown (fun _ _ hQ => hQ) rfl hok hpick
  have hown' := hown.step (fun _ _ _ hQ => hQ) hstep
  dsimp only
  by_cases hnext : next = s.current c
  · rw [if_pos hnext] at hown' ⊢
    exact ⟨⟨L', hrep', hown'⟩, hstate, fun d _ => hcur d⟩
  rw [if_neg hnext] at hown' ⊢
  obtain ⟨hrep2, hview⟩ := doSwitch_spec hrep' tsc c (s.current c) next
  have hswitch := hown'.switch (c := c) (t := next) (by simp)
  rw [update_idem, ← hview] at hswitch
  refine ⟨⟨L', hrep2, hswitch⟩, fun u hu => ?_, fun d hd => ?_⟩
  · -- the next thread is ready
    have hne : u ≠ next := by
      rintro rfl
      have hset := (hown'.pending c u (by simp)).2.2.2
      exact hu ((hstate u hu) ▸ hset)
    have hu' := congrArg (AbsSched.state · u) hview
    simp only [AbsSched.switch, update_of_ne hne] at hu'
    exact hu'.trans (hstate u hu)
  · have hd' := congrArg (AbsSched.current · d) hview
    simp only [AbsSched.switch, update_of_ne hd] at hd'
    exact hd'.trans (hcur d)

theorem Live.schedule (hT : Fintype.card T < 2 ^ 32) (h : s.Live ph)
    (hok : Smp.stealsMovable (.pick c now) ⟨s, ph⟩) (hs : SchedState.schedule fuel now tsc c s = some s') :
    s'.Live (update ph c .running) := by
  obtain ⟨L, hrep, hown⟩ := h.queued
  obtain ⟨⟨L', hrep', hown'⟩, hstate, hcur⟩ := schedule_owned hT hrep hown hok hs
  have hkeep := Keeps.schedule hs
  have hrests : (s'.threads (s'.current c)).state.Settled := (hown'.resting c (by simp)).2
  refine ⟨⟨L', hrep', hown'⟩, fun t ht => ?_, fun d z hz => ?_⟩
  · rw [hkeep.freed, reapPendingZombie_freed] at ht
    have hset : ¬ (s.threads t).state.Settled := by
      rcases ht with ht | ht
      · exact (h.gone t ht).1
      · simp [(h.dying c t ht).2.2.2, ThreadState.Settled]
    have hset' : ¬ (s'.threads t).state.Settled := (hstate t hset).symm ▸ hset
    refine ⟨hset', fun d he => ?_⟩
    by_cases hdc : d = c
    · subst hdc
      exact hset' (he ▸ hrests)
    · rw [hcur d hdc] at he
      rcases ht with ht | ht
      · exact (h.gone t ht).2 d he
      · exact hdc (hown.current_injective (he.trans (h.dying c t ht).1.symm))
  · rw [hkeep.zombie, reapPendingZombie_zombie] at hz
    have hdc : d ≠ c := by
      rintro rfl
      simp at hz
    rw [if_neg hdc] at hz
    obtain ⟨hcurz, hblock, hfree, hzombie⟩ := h.dying d z hz
    refine ⟨(hcur d hdc).trans hcurz, by simpa [hdc] using hblock, ?_, ?_⟩
    · by_contra hf
      rw [Bool.not_eq_false, hkeep.freed, reapPendingZombie_freed, hfree] at hf
      simp only [Bool.false_eq_true, false_or] at hf
      exact hdc (hown.current_injective (hcurz.trans (h.dying c z hf).1.symm))
    · rw [hstate z (by simp [hzombie, ThreadState.Settled]), hzombie]

end Schedule

/-! ### Start -/

theorem Keeps.boot (base : SchedState n T) (idle : Fin n → T) : Keeps base (base.boot idle) := by
  have hinit : ∀ (cs : List (Fin n)) (s : SchedState n T),
      (cs.foldl (fun s c => s.schedInitCpu c (idle c)) s).remains = s.remains := by
    intro cs
    induction cs with
    | nil => exact fun _ => rfl
    | cons c cs ih =>
      intro s
      rw [foldl_cons, ih]
      simp [schedInitCpu, runqueueInitOne]
  exact .of_remains (hinit _ base)

/-- All CPUs run their idle threads. -/
theorem Live.boot {base : SchedState n T} (hfresh : ∀ t, (base.threads t).Fresh) {idle : Fin n → T}
    (hidle : Function.Injective idle) (hlive : ∀ c, (base.threads (idle c)).freed = false)
    (hreap : ∀ c, (base.cpus c).zombieToReap = none) : (base.boot idle).Live fun _ => .running := by
  have hkeep := Keeps.boot base idle
  have hboot := booted_boot base hidle
  refine ⟨⟨_, represents_boot hfresh hidle, Smp.owned_boot hfresh hidle⟩, fun t ht => ?_, fun c z hz => ?_⟩
  · have hne : ∀ c, t ≠ idle c := by
      rintro c rfl
      simp [hkeep.freed, hlive] at ht
    refine ⟨?_, fun c => ?_⟩
    · rw [hboot.others t fun c _ => hne c, (hfresh t).state]
      simp [ThreadState.Settled]
    · rw [hboot.current c (mem_finRange c)]
      exact (hne c).symm
  · simp [hkeep.zombie, hreap] at hz

end SchedState

end Lapis.Sched
