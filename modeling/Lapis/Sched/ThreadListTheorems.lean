/-
Lapis.Sched.ThreadListTheorems — wait queues and the threads of a process as lists.

The links of the wait nodes spell one list for each wait queue, whose members are the threads that wait
there and were not woken; the links `proc_next` spell one list for each process. Each function of
`Lapis.Sched.ThreadExit` that changes links has one lemma that says which lists it leaves.
-/
import Lapis.Sched.ThreadExit

namespace Lapis.Sched

open Function List Option Lib

variable {n : Nat} {T P Q : Type}

namespace Tasks

variable {s s' : Tasks n T P Q} {c me : Fin n} {t u : T} {p : P} {q : Q}

/-! ## The threads of a process as a list -/

/-- The threads of process `p` are `G p`. -/
structure Grouped (s : Tasks n T P Q) (G : P → List T) : Prop where
  spine : ∀ p, Spine s.procNext (s.procs p).threads (G p)
  nodup : ∀ p, (G p).Nodup
  own : ∀ p, ∀ t ∈ G p, s.proc t = p

variable {G : P → List T}

theorem Grouped.congr (h : s.Grouped G) (hproc : s'.proc = s.proc) (hnext : s'.procNext = s.procNext)
    (hthreads : ∀ p, (s'.procs p).threads = (s.procs p).threads) : s'.Grouped G :=
  ⟨fun p => by rw [hnext, hthreads]; exact h.spine p, h.nodup, fun p t ht => by rw [hproc]; exact h.own p t ht⟩

theorem Grouped.inProc_iff (h : s.Grouped G) : s.InProc p t ↔ t ∈ G p := by
  constructor
  · rintro ⟨ts, hts, ht⟩
    exact (h.spine p).unique hts ▸ ht
  · exact fun ht => ⟨G p, h.spine p, ht⟩

section Groups

variable [DecidableEq T] [DecidableEq P]

/-- `thread_link_to_proc` puts a new thread in front. -/
theorem Grouped.create (h : s.Grouped G) (ht : ∀ r, t ∉ G r) (p : P) (kstack : UInt64) :
    (s.threadCreate p t kstack).Grouped (update G p (t :: G p)) := by
  have hne : ∀ r, ∀ u ∈ G r, u ≠ t := fun r u hu he => ht r (he ▸ hu)
  refine ⟨fun r => ?_, fun r => ?_, fun r u hu => ?_⟩
  · by_cases hr : r = p
    · subst hr
      simpa [threadCreate, modProc] using (h.spine r).push (ht r)
    · simp only [threadCreate, modProc, update_of_ne hr]
      exact (h.spine r).congr fun u hu => update_of_ne (hne r u hu) ..
  · by_cases hr : r = p
    · subst hr
      simpa using ⟨ht r, h.nodup r⟩
    · simpa [hr] using h.nodup r
  · by_cases hut : u = t
    · subst hut
      by_cases hr : r = p
      · simp [threadCreate, modProc, hr]
      · rw [update_of_ne hr] at hu
        exact absurd hu (ht r)
    · have hold : u ∈ G r := by
        by_cases hr : r = p
        · subst hr
          simpa [hut] using hu
        · simpa [hr] using hu
      simpa [threadCreate, modProc, hut] using h.own r u hold

theorem unlinkLoop_present {A B : List T} {e : Option T} (hspine : Spine s.procNext e (A ++ t :: B))
    (hA : t ∉ A) (prev : Option T) (fuel : Nat) : s.unlinkLoop p t fuel prev e =
      if A.length < fuel then some (s.setProcLink p (A.getLast?.or prev) (s.procNext t)) else none := by
  induction A generalizing e prev fuel with
  | nil =>
    obtain ⟨rfl, -⟩ := hspine
    cases fuel <;> simp [unlinkLoop]
  | cons a A ih =>
    obtain ⟨rfl, hrest⟩ := hspine
    rw [mem_cons, not_or] at hA
    cases fuel with
    | zero => rfl
    | succ fuel =>
      have hlast : A.getLast?.or (some a) = (a :: A).getLast?.or prev := by
        rw [List.getLast?_cons]
        cases A.getLast? <;> rfl
      rw [unlinkLoop, if_neg (Ne.symm hA.1), ih hrest hA.2, hlast]
      simp

theorem unlinkLoop_absent {xs : List T} {e : Option T} (hspine : Spine s.procNext e xs) (hxs : t ∉ xs)
    (prev : Option T) (fuel : Nat) :
    s.unlinkLoop p t fuel prev e = if xs.length < fuel then some s else none := by
  induction xs generalizing e prev fuel with
  | nil =>
    obtain rfl : e = none := hspine
    cases fuel <;> simp [unlinkLoop]
  | cons a xs ih =>
    obtain ⟨rfl, hrest⟩ := hspine
    rw [mem_cons, not_or] at hxs
    cases fuel with
    | zero => rfl
    | succ fuel =>
      rw [unlinkLoop, if_neg (Ne.symm hxs.1), ih hrest hxs.2]
      simp

/-- What taking a thread out of the middle or the front of its list leaves. -/
theorem Grouped.setProcLink {A B : List T} (h : s.Grouped G) (hG : G p = A ++ t :: B) (hA : t ∉ A) :
    (s.setProcLink p A.getLast? (s.procNext t)).Grouped fun r => (G r).erase t := by
  have hspine := hG ▸ h.spine p
  have hnodup := hG ▸ h.nodup p
  refine ⟨fun r => ?_, fun r => (h.nodup r).erase t, fun r u hu => ?_⟩
  · by_cases hr : r = p
    · subst hr
      rw [hG, erase_append_right _ hA, erase_cons_head]
      rcases eq_nil_or_concat A with rfl | ⟨A, l, rfl⟩
      · -- the head of the list is the link that changes
        simpa [Tasks.setProcLink, modProc] using hspine.2
      · simp only [concat_eq_append, append_assoc, List.getLast?_concat] at hspine hnodup ⊢
        simpa [Tasks.setProcLink] using hspine.unlink hnodup
    · have hp : ∀ u, u ∈ G p → u ∉ G r := fun u hu hur => hr ((h.own r u hur).symm.trans (h.own p u hu))
      rw [erase_of_not_mem (hp t (by simp [hG]))]
      unfold Tasks.setProcLink
      split
      · simpa [modProc, hr] using h.spine r
      case h_2 l hl =>
        refine (h.spine r).congr fun u hu => update_of_ne ?_ ..
        rintro rfl
        exact hp u (by rw [hG]; exact mem_append_left _ (List.mem_of_getLast? hl)) hu
  · have hown := h.own r u (mem_of_mem_erase hu)
    unfold Tasks.setProcLink
    split <;> exact hown

/-- `proc_unlink_thread` ends and takes the thread out of its list. -/
theorem Grouped.unlinkThread (h : s.Grouped G) (t : T) :
    ∃ s', Finishes (fun fuel => s.procUnlinkThread fuel (s.proc t) t) s' ∧
      s'.Grouped (fun p => (G p).erase t) ∧ s' = { s with procs := s'.procs, procNext := s'.procNext } ∧
      ∀ r, (s'.procs r).threadCount = (s.procs r).threadCount ∧
        (s'.procs r).liveThreadCount = (s.procs r).liveThreadCount := by
  by_cases ht : t ∈ G (s.proc t)
  · obtain ⟨A, B, hG⟩ := append_of_mem ht
    have hnodup := hG ▸ h.nodup (s.proc t)
    have hA : t ∉ A := fun hA => (nodup_middle.mp hnodup).notMem (mem_append_left B hA)
    refine ⟨s.setProcLink (s.proc t) A.getLast? (s.procNext t), .of_lt (k := A.length) fun fuel => ?_,
      h.setProcLink hG hA, ?_, fun r => ?_⟩
    · exact (unlinkLoop_present (hG ▸ h.spine (s.proc t)) hA none fuel).trans (by simp)
    · unfold Tasks.setProcLink
      cases A.getLast? <;> rfl
    · unfold Tasks.setProcLink
      cases A.getLast? with
      | none => by_cases hr : r = s.proc t <;> simp [modProc, hr]
      | some u => simp
  · refine ⟨s, .of_lt fun fuel => unlinkLoop_absent (h.spine (s.proc t)) ht none fuel, ?_, rfl, by simp⟩
    have hout : ∀ p, t ∉ G p := fun p htp => ht ((h.own p t htp).symm ▸ htp)
    simpa only [erase_of_not_mem (hout _)] using h

end Groups

/-! ## Wait queues as lists -/

/-- The wait queues are the lists `W`, whose members wait there and were not woken. -/
structure Waiting (s : Tasks n T P Q) (W : Q → List T) : Prop where
  holds : s.waitQueues.Holds W
  mem : ∀ q t, t ∈ W q ↔ s.waitsIn t = some q ∧ (s.nodes t).woken = false

variable {W : Q → List T}

theorem Waiting.congr (h : s.Waiting W) (hnodes : s'.nodes = s.nodes) (hwqs : s'.wqs = s.wqs)
    (hwaits : s'.waitsIn = s.waitsIn) : s'.Waiting W := by
  have hq : s'.waitQueues = s.waitQueues := by
    unfold waitQueues
    rw [hnodes, hwqs]
  exact ⟨hq ▸ h.holds, fun q t => by rw [hwaits, hnodes]; exact h.mem q t⟩

theorem Waiting.not_mem (h : s.Waiting W) (ht : s.waitsIn t = none) (q : Q) : t ∉ W q := by
  rw [h.mem, ht]
  simp

theorem waitQueues_node (s : Tasks n T P Q) (t : T) :
    (s.nodes t).next = s.waitQueues.next t ∧ (s.nodes t).prev = s.waitQueues.prev t :=
  ⟨rfl, rfl⟩

theorem waitQueues_wq (s : Tasks n T P Q) (q : Q) :
    (s.wqs q).head = s.waitQueues.head q ∧ (s.wqs q).tail = s.waitQueues.tail q :=
  ⟨rfl, rfl⟩

theorem waitQueues_modWq [DecidableEq Q] (s : Tasks n T P Q) (q : Q) (f : WaitQueue T → WaitQueue T) :
    (s.modWq q f).waitQueues =
      { s.waitQueues with
        head := update s.waitQueues.head q (f (s.wqs q)).head
        tail := update s.waitQueues.tail q (f (s.wqs q)).tail } := by
  refine LinkQueues.ext rfl rfl ?_ ?_ <;> funext x <;> by_cases hx : x = q <;> simp [waitQueues, modWq, hx]

theorem modWq_nodes [DecidableEq Q] (f : WaitQueue T → WaitQueue T) : (s.modWq q f).nodes = s.nodes := rfl

variable [DecidableEq T]

theorem waitQueues_modNode (s : Tasks n T P Q) (t : T) (f : WaitNode T → WaitNode T) :
    (s.modNode t f).waitQueues =
      { s.waitQueues with
        next := update s.waitQueues.next t (f (s.nodes t)).next
        prev := update s.waitQueues.prev t (f (s.nodes t)).prev } := by
  refine LinkQueues.ext ?_ ?_ rfl rfl <;> funext x <;> by_cases hx : x = t <;> simp [waitQueues, modNode, hx]

theorem waitQueues_setWoken (s : Tasks n T P Q) (t : T) (x : Bool) :
    (s.modNode t fun w => { w with woken := x }).waitQueues = s.waitQueues := by
  simp only [waitQueues_modNode, waitQueues_node, update_eq_self]

@[simp] theorem modNode_nodes_self (f : WaitNode T → WaitNode T) : (s.modNode t f).nodes t = f (s.nodes t) :=
  update_self ..

theorem modNode_nodes_of_ne (f : WaitNode T → WaitNode T) (hu : u ≠ t) :
    (s.modNode t f).nodes u = s.nodes u :=
  update_of_ne hu ..

theorem modNode_woken {f : WaitNode T → WaitNode T} (hf : ∀ w, (f w).woken = w.woken) (u : T) :
    ((s.modNode t f).nodes u).woken = (s.nodes u).woken := by
  by_cases hu : u = t
  · rw [hu, modNode_nodes_self, hf]
  · rw [modNode_nodes_of_ne f hu]

/-- One turn of the loop. -/
def wakeNode (me : Fin n) (s : Tasks n T P Q) (t : T) : Tasks n T P Q :=
  (s.modNode t fun _ => ⟨none, none, true⟩).schedWake me t

theorem wakeLoop_eq (me : Fin n) {xs : List T} {e : Option T} (fuel : Nat)
    (hspine : Spine (fun t => (s.nodes t).next) e xs) (hnodup : xs.Nodup) :
    wakeLoop me fuel e s = if xs.length < fuel then some (xs.foldl (wakeNode me) s) else none := by
  -- induction on the list: the loop reads the link of a thread before it clears it
  induction xs generalizing s e fuel with
  | nil =>
    obtain rfl : e = none := hspine
    cases fuel <;> simp [wakeLoop]
  | cons x xs ih =>
    obtain ⟨rfl, hrest⟩ := hspine
    rw [nodup_cons] at hnodup
    cases fuel with
    | zero => rfl
    | succ fuel =>
    have hnext : Spine (fun t => ((wakeNode me s x).nodes t).next) (s.nodes x).next xs := by
      refine hrest.congr fun a ha => ?_
      have hax : a ≠ x := fun he => hnodup.1 (he ▸ ha)
      simp [wakeNode, schedWake, modNode, hax]
    simp only [wakeLoop, length_cons, Nat.add_lt_add_iff_right, foldl_cons]
    exact ih fuel hnext hnodup.2

theorem foldl_wakeNode (me : Fin n) (xs : List T) (s : Tasks n T P Q) :
    xs.foldl (wakeNode me) s =
      { s with
        sched := xs.foldl (fun m t => m.schedWake me t) s.sched
        nodes := fun t => if t ∈ xs then ⟨none, none, true⟩ else s.nodes t } := by
  induction xs generalizing s with
  | nil => simp
  | cons x xs ih =>
    rw [foldl_cons, ih]
    have hnodes : (fun t => if t ∈ xs then (⟨none, none, true⟩ : WaitNode T) else (wakeNode me s x).nodes t) =
        fun t => if t ∈ x :: xs then ⟨none, none, true⟩ else s.nodes t := by
      funext t
      by_cases ht : t ∈ xs
      · simp [ht]
      · by_cases htx : t = x
        · simp [wakeNode, schedWake, htx]
        · simp [wakeNode, schedWake, modNode, ht, htx]
    rw [hnodes]
    rfl

variable [DecidableEq Q]

theorem waitQueues_wqLink (s : Tasks n T P Q) (t : T) (q : Q) :
    (s.wqLink q t).waitQueues = s.waitQueues.pushBack q t := by
  unfold wqLink LinkQueues.pushBack
  simp only [waitQueues_modWq, waitQueues_wq, update_eq_self]
  cases s.waitQueues.tail q <;>
    simp only [waitQueues_modNode, waitQueues_modWq, waitQueues_node, waitQueues_wq, update_eq_self]

theorem waitQueues_wqUnlink (s : Tasks n T P Q) (t : T) (q : Q) :
    (s.wqUnlink q t).waitQueues = s.waitQueues.unlink q t := by
  unfold wqUnlink LinkQueues.unlink
  simp only [waitQueues_modNode, waitQueues_node]
  cases s.waitQueues.prev t <;> cases s.waitQueues.next t <;>
    simp only [waitQueues_modNode, waitQueues_modWq, waitQueues_node, waitQueues_wq, update_eq_self]

theorem wqUnlink_woken (s : Tasks n T P Q) (q : Q) (t u : T) :
    ((s.wqUnlink q t).nodes u).woken = (s.nodes u).woken := by
  unfold wqUnlink
  dsimp only
  refine (modNode_woken ?_ u).trans ?_
  · exact fun _ => rfl
  split <;> split
  · refine (modNode_woken ?_ u).trans (modNode_woken ?_ u) <;> exact fun _ => rfl
  · refine (modNode_woken ?_ u).trans rfl
    exact fun _ => rfl
  · rw [modWq_nodes]
    refine modNode_woken ?_ u
    exact fun _ => rfl
  · rfl

/-- Unlinking touches only links and ends of queues. -/
theorem wqUnlink_eq (s : Tasks n T P Q) (q : Q) (t : T) :
    s.wqUnlink q t = { s with nodes := (s.wqUnlink q t).nodes, wqs := (s.wqUnlink q t).wqs } := by
  unfold wqUnlink
  dsimp only
  split <;> split <;> rfl

theorem wqLink_eq (s : Tasks n T P Q) (q : Q) (t : T) :
    s.wqLink q t = { s with nodes := (s.wqLink q t).nodes, wqs := (s.wqLink q t).wqs } := by
  unfold wqLink
  dsimp only
  split <;> rfl

theorem wqLink_woken (s : Tasks n T P Q) (q : Q) (t u : T) :
    ((s.wqLink q t).nodes u).woken = if u = t then false else (s.nodes u).woken := by
  have hclear : ((s.modNode t fun _ => ⟨none, (s.wqs q).tail, false⟩).nodes u).woken =
      if u = t then false else (s.nodes u).woken := by
    by_cases hu : u = t
    · simp [hu]
    · rw [modNode_nodes_of_ne _ hu, if_neg hu]
  unfold wqLink
  dsimp only
  rw [← hclear]
  split
  · rw [modWq_nodes]
    refine modNode_woken ?_ u
    exact fun _ => rfl
  · rfl

/-! ### What each function does to the lists -/

namespace Waiting

/-- Taking a thread out of its queue, when it is then no longer a thread that waits and was not woken. -/
theorem unlink {A B : List T} (h : s.Waiting W) (hW : W q = A ++ t :: B)
    (hq : s'.waitQueues = s.waitQueues.unlink q t)
    (hself : ∀ r, ¬ (s'.waitsIn t = some r ∧ (s'.nodes t).woken = false))
    (hother : ∀ u, u ≠ t → s'.waitsIn u = s.waitsIn u ∧ (s'.nodes u).woken = (s.nodes u).woken) :
    s'.Waiting (update W q (A ++ B)) := by
  have hnodup := h.holds.nodup q
  rw [hW, nodup_middle, nodup_cons] at hnodup
  refine ⟨hq ▸ h.holds.unlink hW, fun r u => ?_⟩
  have htq : t ∈ W q := by rw [hW]; simp
  by_cases hut : u = t
  · subst hut
    refine iff_of_false ?_ (hself r)
    by_cases hr : r = q
    · subst hr
      rw [update_self]
      exact hnodup.1
    · rw [update_of_ne hr]
      exact fun hu => hr (h.holds.disjoint r q u hu htq)
  · rw [(hother u hut).1, (hother u hut).2, ← h.mem]
    by_cases hr : r = q
    · subst hr
      rw [update_self, hW]
      simp [hut]
    · rw [update_of_ne hr]

/-- `waitqueue_wait` appends the current thread. -/
theorem wait (h : s.Waiting W) (ht : s.waitsIn (s.sched.current c) = none) (q : Q) :
    (s.waitqueueWait c q).Waiting (update W q (W q ++ [s.sched.current c])) := by
  have hnodes : (s.waitqueueWait c q).nodes = (s.wqLink q (s.sched.current c)).nodes := rfl
  have hwaits : (s.waitqueueWait c q).waitsIn = update s.waitsIn (s.sched.current c) (some q) := by
    unfold waitqueueWait
    dsimp only
    rw [wqLink_eq]
  refine ⟨?_, fun r u => ?_⟩
  · have hq : (s.waitqueueWait c q).waitQueues = (s.wqLink q (s.sched.current c)).waitQueues := rfl
    rw [hq, waitQueues_wqLink]
    exact h.holds.pushBack (h.not_mem ht)
  rw [hnodes, wqLink_woken, hwaits, LinkQueues.mem_update_concat, h.mem]
  by_cases hu : u = s.sched.current c
  · subst hu
    simp only [ht, if_true, reduceCtorEq, false_and, false_or, and_true, update_self, some.injEq]
    exact eq_comm
  · simp [hu]

/-- The rest of `waitqueue_wait`: a thread that was not woken is still in its queue. -/
theorem waitReturn (h : s.Waiting W) (hs : s.waitqueueReturn c = some s') : ∃ W', s'.Waiting W' := by
  unfold waitqueueReturn at hs
  obtain ⟨q, hq, rfl⟩ := map_eq_some_iff.mp hs
  dsimp only
  generalize s.sched.current c = self at *
  by_cases hwoken : (s.nodes self).woken = true
  · rw [if_pos hwoken]
    refine ⟨W, h.holds, fun r u => ?_⟩
    rw [h.mem]
    by_cases hu : u = self
    · simp [hu, hwoken]
    · simp [hu]
  · rw [if_neg hwoken]
    obtain ⟨A, B, hW⟩ := append_of_mem ((h.mem q self).mpr ⟨hq, by simpa using hwoken⟩)
    refine ⟨_, h.unlink hW (waitQueues_wqUnlink s self q) (by simp) fun u hu => ⟨?_, ?_⟩⟩
    · simp only [update_of_ne hu]
      rw [wqUnlink_eq]
    · exact wqUnlink_woken s q self u

/-- `waitqueue_wake_one` takes the first thread. -/
theorem wakeOne (h : s.Waiting W) (me : Fin n) (q : Q) : ∃ W', (s.waitqueueWakeOne me q).Waiting W' := by
  unfold waitqueueWakeOne
  cases hhead : (s.wqs q).head with
  | none => exact ⟨W, h⟩
  | some t =>
  obtain ⟨rest, hW⟩ := h.holds.head_eq_some_iff.mp (show s.waitQueues.head q = some t from hhead)
  have hlinks : (((s.wqUnlink q t).modNode t fun w => { w with woken := true }).schedWake me t).waitQueues =
      s.waitQueues.unlink q t :=
    (waitQueues_setWoken _ t true).trans (waitQueues_wqUnlink s t q)
  refine ⟨_, h.unlink (A := []) hW hlinks ?_ fun u hu => ⟨?_, ?_⟩⟩
  · rintro r ⟨-, hwoken⟩
    have hwoken : ((((s.wqUnlink q t).modNode t fun w => { w with woken := true }).nodes t).woken) = false :=
      hwoken
    simp at hwoken
  · have hrest : (s.wqUnlink q t).waitsIn = s.waitsIn := by rw [wqUnlink_eq]
    exact congrFun hrest u
  · have hnode : (((s.wqUnlink q t).modNode t fun w => { w with woken := true }).nodes u).woken =
        (s.nodes u).woken := by
      rw [modNode_nodes_of_ne _ hu, wqUnlink_woken]
    exact hnode

end Waiting

/-! ### waitqueue_wake_all -/

/-- What `waitqueue_wake_all` leaves when the queue was `xs`. -/
def wokenAll (s : Tasks n T P Q) (me : Fin n) (q : Q) (xs : List T) : Tasks n T P Q :=
  { s with
    sched := xs.foldl (fun m t => m.schedWake me t) s.sched
    nodes := fun t => if t ∈ xs then ⟨none, none, true⟩ else s.nodes t
    wqs := update s.wqs q ⟨none, none⟩ }

theorem waitqueueWakeAll_eq (h : s.Waiting W) (fuel : Nat) (me : Fin n) (q : Q) :
    s.waitqueueWakeAll fuel me q = if (W q).length < fuel then some (s.wokenAll me q (W q)) else none := by
  have hspine : Spine (fun t => ((s.modWq q fun _ => ⟨none, none⟩).nodes t).next) (s.wqs q).head (W q) :=
    (h.holds.walk q).spine
  unfold waitqueueWakeAll
  rw [wakeLoop_eq me fuel hspine (h.holds.nodup q), foldl_wakeNode]
  rfl

theorem Waiting.wakeAll (h : s.Waiting W) (me : Fin n) (q : Q) :
    (s.wokenAll me q (W q)).Waiting (update W q []) := by
  refine ⟨h.holds.clear ?_ ?_ ?_ ?_, fun r u => ?_⟩
  · intro x hx
    simp [waitQueues, wokenAll, hx]
  · intro x hx
    simp [waitQueues, wokenAll, hx]
  · funext r
    by_cases hr : r = q <;> simp [waitQueues, wokenAll, hr]
  · funext r
    by_cases hr : r = q <;> simp [waitQueues, wokenAll, hr]
  · by_cases hu : u ∈ W q
    · refine iff_of_false ?_ (by simp [wokenAll, hu])
      by_cases hr : r = q
      · simp [hr]
      · rw [update_of_ne hr]
        exact fun hur => hr (h.holds.disjoint r q u hur hu)
    · have hiff := h.mem r u
      by_cases hr : r = q
      · subst hr
        simp only [wokenAll, update_self, not_mem_nil, hu, if_false]
        exact iff_of_false id (mt hiff.mpr hu)
      · simpa [wokenAll, hr, hu] using hiff

end Tasks

end Lapis.Sched
