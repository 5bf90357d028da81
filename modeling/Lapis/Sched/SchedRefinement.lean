/-
Lapis.Sched.SchedRefinement — the scheduler of `sched.c` refines the abstract scheduler.

One lemma per function: from a state that represents the lists `L` the function returns, the
new state represents lists `L'`, and the two views are related by the step of the abstract
scheduler. `maybe_boost` does not change the view: it empties levels 1 to 7 one after the
other into level 0, so the threads keep their order across the levels. `schedule_pick_spec` at
the end puts the parts of `schedule` together.
-/
import Lapis.Lib.Run
import Lapis.Sched.SchedBoot
import Mathlib.Data.UInt

namespace Lapis.Sched

open Function List Option Lib

variable {n : Nat} {T : Type}

namespace SchedState

/-! ## The priority boost -/

variable {t : T} {fuel fuel' : Nat} {s' : SchedState n T} {now : UInt64}

section Boost

variable {s : SchedState n T} {L L' : Fin n × Fin 8 → List T} {c : Fin n} {l : Fin 8}

theorem behind_congr (h : ∀ m, l < m → L' (c, m) = L (c, m)) : behind L' c l = behind L c l := by
  refine flatMap_congr fun m hm => h m ?_
  obtain ⟨i, hi, rfl⟩ := mem_drop_iff_getElem.mp hm
  simp [Fin.lt_def]
  omega

/-- When the levels between 0 and `l` are empty, level `l` follows level 0. -/
theorem flat_of_between (hl : l ≠ 0) (hb : ∀ m, m ≠ 0 → m < l → L (c, m) = []) :
    flat L c = L (c, 0) ++ (L (c, l) ++ behind L c l) := by
  have hrest : ((List.finRange 8).take l).tail.flatMap (fun m => L (c, m)) = [] := by
    rw [flatMap_eq_nil_iff]
    intro m hm
    obtain ⟨i, hi, rfl⟩ := mem_iff_getElem.mp hm
    simp only [length_tail, length_take, length_finRange] at hi
    apply hb
    · simp [Fin.ext_iff]
    · simp [Fin.lt_def]
      omega
  have hfirst : (List.finRange 8).take l = 0 :: ((List.finRange 8).take l).tail := by
    obtain ⟨k, hk⟩ := Nat.exists_eq_succ_of_ne_zero (Fin.val_ne_zero_iff.mpr hl)
    rw [hk]
    rfl
  rw [flat_eq L c l, before, hfirst, flatMap_cons, hrest, append_nil]

/-- The lists after level `l` has been emptied into level 0. -/
def drained (L : Fin n × Fin 8 → List T) (c : Fin n) (l : Fin 8) : Fin n × Fin 8 → List T :=
  update (update L (c, 0) (L (c, 0) ++ L (c, l))) (c, l) []

theorem drained_zero (hl : l ≠ 0) : drained L c l (c, 0) = L (c, 0) ++ L (c, l) := by
  simp [drained, hl.symm]

theorem drained_of_ne {i : Fin n × Fin 8} (h0 : i ≠ (c, 0)) (hl : i ≠ (c, l)) : drained L c l i = L i := by
  simp [drained, h0, hl]

theorem flat_drained (hl : l ≠ 0) (hb : ∀ m, m ≠ 0 → m < l → L (c, m) = []) :
    flat (drained L c l) = flat L := by
  funext d
  by_cases hd : d = c
  · subst hd
    have hb' : ∀ m, m ≠ 0 → m < l → drained L d l (d, m) = [] := by
      intro m hm hml
      rw [drained_of_ne (by simp [hm]) (by simp [hml.ne])]
      exact hb m hm hml
    rw [flat_of_between hl hb, flat_of_between hl hb', drained_zero hl]
    have hbehind : behind (drained L d l) d l = behind L d l := by
      apply behind_congr
      intro m hm
      have : m ≠ 0 := by rintro rfl; simp at hm
      exact drained_of_ne (by simp [this]) (by simp [hm.ne'])
    rw [hbehind]
    simp [drained]
  · simp only [flat, drained, update_apply, Prod.mk.injEq, hd, false_and, if_false]

/-- What a boost changes of a thread. -/
def grade (s : SchedState n T) (t : T) : Fin 8 × UInt64 :=
  ((s.threads t).priorityLevel, (s.threads t).timeInLevelNs)

theorem grade_modLevel {f : MlfqQueue T → MlfqQueue T} : (s.modLevel c l f).grade = s.grade := rfl

/-- The threads `P` have been moved to level 0, and those with nothing to reset still have nothing. -/
structure Boosts (P : T → Prop) (s s' : SchedState n T) : Prop where
  view : ∀ M, s'.view M = s.view M
  reset : ∀ t, P t ∨ s.grade t = (0, 0) → s'.grade t = (0, 0)

theorem Boosts.trans {P Q R : T → Prop} {s1 : SchedState n T} (h : Boosts P s s1)
    (h' : Boosts Q s1 s') (hR : ∀ t, R t → P t ∨ Q t) : Boosts R s s' := by
  refine ⟨fun M => (h'.view M).trans (h.view M), fun t ht => h'.reset t ?_⟩
  rcases ht with ht | ht
  · exact (hR t ht).symm.imp_right fun hp => h.reset t (.inl hp)
  · exact .inr (h.reset t (.inr ht))

/-- `rq->last_boost_ns = now`. -/
theorem unseen_stamp (s : SchedState n T) (c : Fin n) (now : UInt64) :
    Unseen s (s.modRq c fun rq => { rq with lastBoostNs := now }) :=
  .modRq (.refl _) (fun _ => rfl) fun _ => ⟨rfl, rfl⟩

/-- The time for a boost has come. -/
def Fires (s : SchedState n T) (now : UInt64) (c : Fin n) : Prop :=
  (s.rqs c).lastBoostNs ≠ 0 ∧ ¬ now - (s.rqs c).lastBoostNs < priorityBoostIntervalNs

/-- The counts of the levels of a run queue add up to the number of its threads. -/
theorem Counted.sum_counts (h : s.Counted L) (c : Fin n) :
    ((List.finRange 8).map fun l => s.counts (c, l)).sum = UInt32.ofNat (flat L c).length := by
  unfold flat
  induction List.finRange 8 with
  | nil => rfl
  | cons l ls ih =>
    rw [map_cons, sum_cons, flatMap_cons, length_append, UInt32.ofNat_add, ih,
      h.counts (c, l)]

variable [DecidableEq T]

theorem grade_modThread {f : Thread T → Thread T}
    (hf : ∀ th, (f th).priorityLevel = th.priorityLevel ∧ (f th).timeInLevelNs = th.timeInLevelNs) :
    (s.modThread t f).grade = s.grade := by
  funext u
  by_cases hu : u = t <;> simp [grade, modThread, hu, hf]

theorem grade_mlfqPush : (s.mlfqPush c l t).grade = s.grade := by
  unfold mlfqPush
  cases ht : ((s.rqs c).levels l).tail <;> simp [grade_modLevel, grade_modThread]

theorem grade_mlfqPop : (s.mlfqPop c l).2.grade = s.grade := by
  unfold mlfqPop
  cases hh : ((s.rqs c).levels l).head with
  | none => rfl
  | some t => cases hn : (s.threads t).rqNext <;> simp [grade_modLevel, grade_modThread, hn]

/-- One turn of the `while` loop: the first thread of level `l` goes to the end of level 0. -/
theorem boostLevel_step (h : s.Counted L) {ts : List T} (hl : l ≠ 0) (hL : L (c, l) = t :: ts) :
    ∃ s1, (∀ fuel, boostLevel c l (fuel + 1) s = boostLevel c l fuel s1) ∧
      s1.Counted (update (update L (c, l) ts) (c, 0) (L (c, 0) ++ [t])) ∧ Boosts (· = t) s s1 := by
  obtain ⟨hfst, hpop⟩ := h.pop hL
  let boosted := (s.mlfqPop c l).2.modThread t fun th =>
    { th with priorityLevel := 0, timeInLevelNs := 0 }
  have hreset : Unseen (s.mlfqPop c l).2 boosted :=
    .modThread (.refl _) (fun _ => ⟨rfl, rfl⟩) fun _ => ⟨rfl, rfl, rfl⟩
  refine ⟨boosted.mlfqPush c 0 t, fun fuel => ?_, ?_, fun M => ?_, fun u hu => ?_⟩
  · rw [boostLevel, ← Prod.mk.eta (p := s.mlfqPop c l), hfst]
  · have hpush := (hreset.counted hpop).push (c := c) (l := 0) (h.holds.not_mem_tail hL)
    rwa [update_of_ne (by simp [hl.symm])] at hpush
  · rw [view_mlfqPush, hreset.view, view_mlfqPop]
  · rw [grade_mlfqPush]
    by_cases hne : u = t
    · simp [boosted, grade, hne]
    · rw [← hu.resolve_left hne, ← grade_mlfqPop (s := s) (c := c) (l := l)]
      simp [boosted, grade, modThread, hne]

theorem boostLevel_spec (h : s.Counted L) (hl : l ≠ 0) (hfuel : (L (c, l)).length < fuel) :
    ∃ s', boostLevel c l fuel s = some s' ∧ s'.Counted (drained L c l) ∧ Boosts (· ∈ L (c, l)) s s' := by
  -- induction on the level: each turn moves its first thread
  induction hxs : L (c, l) generalizing s L fuel with
  | nil =>
    obtain ⟨fuel, rfl⟩ := Nat.exists_eq_add_of_lt hfuel
    have hsame : drained L c l = L := by
      funext i
      by_cases hi : i = (c, l) <;> by_cases h0 : i = (c, 0) <;> simp_all [drained]
    rw [hsame]
    refine ⟨s, ?_, h, fun M => rfl, fun t ht => ht.resolve_left not_mem_nil⟩
    simp [boostLevel, h.pop_nil hxs]
  | cons t ts ih =>
    obtain ⟨s1, hloop, hrep, hturn⟩ := boostLevel_step h hl hxs
    rw [hxs, length_cons] at hfuel
    obtain ⟨fuel, rfl⟩ := Nat.exists_eq_succ_of_ne_zero (Nat.ne_zero_of_lt hfuel)
    have hlevel : update (update L (c, l) ts) (c, 0) (L (c, 0) ++ [t]) (c, l) = ts := by
      simp [hl]
    obtain ⟨s', hs', hrep', hrest⟩ :=
      ih hrep (by rw [hlevel]; exact Nat.lt_of_succ_lt_succ hfuel) hlevel
    have hsame : drained (update (update L (c, l) ts) (c, 0) (L (c, 0) ++ [t])) c l = drained L c l := by
      funext i
      by_cases hi : i = (c, l) <;> by_cases h0 : i = (c, 0) <;> simp [drained, hi, h0, hl, hl.symm, hxs]
    exact ⟨s', (hloop fuel).trans hs', hsame ▸ hrep', hturn.trans hrest fun u => mem_cons.mp⟩

/-- The levels from `k` on, one after the other. -/
theorem boostFrom_spec (k : Nat) (hk : 1 ≤ k) (h : s.Counted L)
    (hlow : ∀ m : Fin 8, m ≠ 0 → m.val < k → L (c, m) = []) (hfuel : (flat L c).length < fuel) :
    ∃ s' L', ((List.finRange 8).drop k).foldlM (fun s l => boostLevel c l fuel s) s = some s' ∧
      s'.Counted L' ∧ Boosts (fun t => ∃ m ≠ 0, t ∈ L (c, m)) s s' ∧ flat L' = flat L ∧
      (∀ m, m ≠ 0 → L' (c, m) = []) ∧ ∀ d ≠ c, ∀ m, L' (d, m) = L (d, m) := by
  induction hj : 8 - k generalizing k s L with
  | zero =>
    have hdrop : (List.finRange 8).drop k = [] := by simp; omega
    have hnone : ∀ m : Fin 8, m ≠ 0 → L (c, m) = [] := fun m hm => hlow m hm (by omega)
    rw [hdrop]
    refine ⟨s, L, rfl, h, ⟨fun M => rfl, fun t ht => ht.resolve_left ?_⟩, rfl, hnone, fun _ _ _ => rfl⟩
    rintro ⟨m, hm, ht⟩
    simp [hnone m hm] at ht
  | succ j ih =>
    have hk8 : k < 8 := by omega
    have hdrop : (List.finRange 8).drop k = ⟨k, hk8⟩ :: (List.finRange 8).drop (k + 1) := by
      rw [drop_eq_getElem_cons (by simpa using hk8), getElem_finRange]
      simp
    have hk0 : (⟨k, hk8⟩ : Fin 8) ≠ 0 := by simp [Fin.ext_iff]; omega
    have hflat : flat (drained L c ⟨k, hk8⟩) = flat L :=
      flat_drained hk0 fun m hm hml => hlow m hm hml
    have hlen : (L (c, ⟨k, hk8⟩)).length < fuel := by
      rw [flat_eq L c ⟨k, hk8⟩, length_append, length_append] at hfuel
      omega
    obtain ⟨s1, hs1, hrep1, hlevel⟩ := boostLevel_spec h hk0 hlen
    have hlow1 : ∀ m : Fin 8, m ≠ 0 → m.val < k + 1 → drained L c ⟨k, hk8⟩ (c, m) = [] := by
      intro m hm hmk
      by_cases hmk' : m = ⟨k, hk8⟩
      · simp [drained, hmk']
      · rw [drained_of_ne (by simp [hm]) (by simp [hmk'])]
        exact hlow m hm (by simp [Fin.ext_iff] at hmk'; omega)
    obtain ⟨s', L', hs', hrep', hrest, hflat', hempty, hother⟩ :=
      ih (k + 1) (by omega) hrep1 hlow1 (by rwa [hflat]) (by omega)
    refine ⟨s', L', ?_, hrep', hlevel.trans hrest ?_, hflat'.trans hflat, hempty, ?_⟩
    · rwa [hdrop, foldlM_cons, hs1]
    · rintro t ⟨m, hm, ht⟩
      by_cases hmk : m = ⟨k, hk8⟩
      · exact .inl (hmk ▸ ht)
      · exact .inr ⟨m, hm, by rwa [drained_of_ne (by simp [hm]) (by simp [hmk])]⟩
    · intro d hd m
      rw [hother d hd m]
      exact drained_of_ne (by simp [hd]) (by simp [hd])

theorem maybeBoost_fires (h : s.Counted L) (hfires : s.Fires now c) (hfuel : (flat L c).length < fuel) :
    ∃ s' L', maybeBoost fuel now c s = some s' ∧ s'.Counted L' ∧
      Boosts (fun t => ∃ m ≠ 0, t ∈ L (c, m)) s s' ∧ flat L' = flat L ∧
      (∀ m, m ≠ 0 → L' (c, m) = []) ∧ ∀ d ≠ c, ∀ m, L' (d, m) = L (d, m) := by
  have hnone : ∀ m : Fin 8, m ≠ 0 → m.val < 1 → L (c, m) = [] := by
    intro m hm hlt
    exact absurd (Fin.ext (by simpa using hlt)) hm
  have hstamp := unseen_stamp s c now
  obtain ⟨s', L', hs', hrep', hboost, hrest⟩ :=
    boostFrom_spec 1 (Nat.le_refl 1) (hstamp.counted h) hnone hfuel
  refine ⟨s', L', ?_, hrep', ⟨fun M => (hboost.view M).trans (hstamp.view M), hboost.reset⟩, hrest⟩
  rw [maybeBoost, if_neg hfires.1, if_neg hfires.2, ← drop_one, hs']

theorem maybeBoost_early (hfires : ¬ s.Fires now c) (fuel : Nat) :
    ∃ s', maybeBoost fuel now c s = some s' ∧
      (s' = s ∨ s' = s.modRq c fun rq => { rq with lastBoostNs := now }) := by
  unfold maybeBoost
  by_cases hfirst : (s.rqs c).lastBoostNs = 0
  · rw [if_pos hfirst]
    exact ⟨_, rfl, .inr rfl⟩
  · rw [if_neg hfirst, if_pos (not_not.mp fun hearly => hfires ⟨hfirst, hearly⟩)]
    exact ⟨s, rfl, .inl rfl⟩

theorem maybeBoost_returns [Fintype T] (hT : Fintype.card T < 2 ^ 32) (h : s.Represents L)
    (now : UInt64) (hfuel : (flat L c).length < fuel) :
    ∃ s' L', maybeBoost fuel now c s = some s' ∧ s'.Represents L' ∧ s'.view L' = s.view L ∧
      ∀ d ≠ c, ∀ m, L' (d, m) = L (d, m) := by
  by_cases hfires : s.Fires now c
  · obtain ⟨s', L', hs', hrep', hboost, hflat, -, hother⟩ :=
      maybeBoost_fires (represents_iff.mp h).1 hfires hfuel
    refine ⟨s', L', hs', hrep'.represents hT, ?_, hother⟩
    rw [hboost.view L']
    exact AbsSched.ext hflat rfl rfl rfl rfl rfl rfl
  · obtain ⟨s', hs', rfl | rfl⟩ := maybeBoost_early hfires fuel
    · exact ⟨_, L, hs', h, rfl, fun _ _ _ => rfl⟩
    · have hstamp := unseen_stamp s c now
      exact ⟨_, L, hs', hstamp.represents h, hstamp.view L, fun _ _ _ => rfl⟩

/-- `maybe_boost` always ends. When it fires, level 0 has all the threads of the run queue in the order of
the levels, the other levels are empty, and those that were moved have nothing used of their quantum;
otherwise at most `last_boost_ns` changes. -/
theorem maybe_boost_keeps_threads (h : s.Represents L) (now : UInt64)
    (hfuel : (flat L c).length < fuel) :
    ∃ s', maybeBoost fuel now c s = some s' ∧
      (s.Fires now c → ∃ L', s'.queues.Holds L' ∧ L' (c, 0) = (List.finRange 8).flatMap (fun l => L (c, l)) ∧
        (∀ m, m ≠ 0 → L' (c, m) = []) ∧ (∀ d ≠ c, ∀ m, L' (d, m) = L (d, m)) ∧
        (∀ i, s'.counts i = UInt32.ofNat (L' i).length) ∧
        ((List.finRange 8).map fun l => s'.counts (c, l)).sum =
          ((List.finRange 8).map fun l => s.counts (c, l)).sum ∧
        (s'.rqs c).nrRunning = (s.rqs c).nrRunning ∧
        ∀ m ≠ 0, ∀ t ∈ L (c, m), (s'.threads t).priorityLevel = 0 ∧ (s'.threads t).timeInLevelNs = 0) ∧
      (¬ s.Fires now c → s' = s ∨ s' = s.modRq c fun rq => { rq with lastBoostNs := now }) := by
  have hcounted := (represents_iff.mp h).1
  by_cases hfires : s.Fires now c
  · obtain ⟨s', L', hs', hrep', hboost, hflat, hempty, hother⟩ := maybeBoost_fires hcounted hfires hfuel
    refine ⟨s', hs', fun _ => ⟨L', hrep'.holds, ?_, hempty, hother, hrep'.counts, ?_, ?_, ?_⟩,
      fun hnot => absurd hfires hnot⟩
    · have hzero := flat_of_between (l := 7) (by decide) fun m hm _ => hempty m hm
      rw [hempty 7 (by decide), nil_append, show behind L' c 7 = [] from rfl, append_nil,
        hflat] at hzero
      exact hzero.symm
    · rw [hrep'.sum_counts, hcounted.sum_counts, hflat]
    · exact congrArg (fun a => a.nrRunning c) (hboost.view L)
    · intro m hm t ht
      exact Prod.mk.inj (hboost.reset t (.inl ⟨m, hm, ht⟩))
  · obtain ⟨s', hs', hsame⟩ := maybeBoost_early hfires fuel
    exact ⟨s', hs', fun hf => absurd hf hfires, fun _ => hsame⟩

/-- A thread of level 3 is moved. -/
theorem maybe_boost_keeps_threads_one :
    ∃ s' : SchedState 1 (Fin 2),
      maybeBoost 2 (1 + priorityBoostIntervalNs) 0 ((((unbooted 1 0).boot fun _ => 0).mlfqPush 0 3 1).modRq 0
        fun rq => { rq with lastBoostNs := 1 }) = some s' ∧
      ∃ L', s'.queues.Holds L' ∧ L' (0, 0) = [1] := by
  have hrep : (((unbooted 1 0).boot fun _ => 0).mlfqPush 0 3 1).Represents
      (update (fun _ => []) ((0 : Fin 1), (3 : Fin 8)) [(1 : Fin 2)]) :=
    (represents_boot (unbooted_fresh 1 0) (injective_of_subsingleton _)).push (by decide)
      fun _ => not_mem_nil
  obtain ⟨s', hs', hfires, -⟩ := maybe_boost_keeps_threads
    (hrep.modRq (c := 0) (f := fun rq => { rq with lastBoostNs := 1 }) fun _ => rfl)
    (1 + priorityBoostIntervalNs) (show (flat _ 0).length < 2 by decide)
  obtain ⟨L', hholds, hzero, -⟩ := hfires ⟨by decide +kernel, by decide +kernel⟩
  exact ⟨s', hs', L', hholds, hzero⟩

theorem boostLevel_mono (h : boostLevel c l fuel s = some s') (hle : fuel ≤ fuel') :
    boostLevel c l fuel' s = some s' := by
  refine Grows.loop (f := boostLevel c l) (fun _ => rfl) (fun n m s ih => ?_) hle s s' h
  unfold boostLevel
  cases s.mlfqPop c l with
  | mk t? s1 =>
    cases t? with
    | none => exact .refl _
    | some t => exact ih _

theorem boostLevels_mono (ls : List (Fin 8))
    (h : ls.foldlM (fun s l => boostLevel c l fuel s) s = some s') (hle : fuel ≤ fuel') :
    ls.foldlM (fun s l => boostLevel c l fuel' s) s = some s' := by
  induction ls generalizing s s' with
  | nil => exact h
  | cons l ls ih =>
    exact Grows.bind (fun _ hs1 => boostLevel_mono hs1 hle) (fun _ _ hrest => ih hrest) s' h

theorem maybeBoost_mono (h : maybeBoost fuel now c s = some s') (hle : fuel ≤ fuel') :
    maybeBoost fuel' now c s = some s' := by
  refine Grows.ite (.refl _) (.ite (.refl _) fun _ hlevels => ?_) s' h
  exact boostLevels_mono _ hlevels hle

/-- What `maybe_boost` has done when it returned. -/
theorem maybeBoost_spec [Fintype T] (hT : Fintype.card T < 2 ^ 32) (h : s.Represents L)
    (hs : maybeBoost fuel now c s = some s') : ∃ L', s'.Represents L' ∧ s'.view L' = s.view L := by
  obtain ⟨s1, L', hs1, hrep, hview, -⟩ :=
    maybeBoost_returns hT h now (Nat.lt_succ_self (flat L c).length)
  have h1 := maybeBoost_mono hs (Nat.le_max_left fuel (flat L c).length.succ)
  have h2 := maybeBoost_mono hs1 (Nat.le_max_right fuel (flat L c).length.succ)
  rw [h1, some.injEq] at h2
  exact h2 ▸ ⟨L', hrep, hview⟩

end Boost

variable [DecidableEq T]

/-! ## Putting the previous thread back -/

theorem clampLevel_val (l : Fin 8) : clampLevel (l.val : Int) = l := by
  have h0 : ¬ ((l.val : Int) < 0) := by omega
  have h8 : (l.val : Int) < 8 := by omega
  simp [clampLevel, h0, h8]

section Requeue

variable [Fintype T] {s : SchedState n T} {L : Fin n × Fin 8 → List T} {c : Fin n}

/-- The threads that stay before the current thread of CPU `c` when it is put back: those on
its own level and on the levels before it. -/
def aheadOfCurrent (s : SchedState n T) (L : Fin n × Fin 8 → List T) (c : Fin n) : List T :=
  before L c (s.threads (s.current c)).priorityLevel ++
    L (c, (s.threads (s.current c)).priorityLevel)

theorem requeuePrev_spec (hT : Fintype.card T < 2 ^ 32) (h : s.Represents L)
    (hcur : (s.threads (s.current c)).state = .running → ∀ i, s.current c ∉ L i) :
    ∃ L', (s.requeuePrev c).Represents L' ∧
      AbsSched.Requeue c (s.aheadOfCurrent L c) (s.view L) ((s.requeuePrev c).view L') ∧
      ∀ d ≠ c, ∀ m, L' (d, m) = L (d, m) := by
  unfold requeuePrev
  by_cases hrun : (s.threads (s.current c)).state = .running
  · simp only [if_pos hrun]
    have hprio : ((s.schedSetPriority (s.current c)
        (s.threads (s.current c)).priorityLevel.val).threads (s.current c)).priorityLevel =
        (s.threads (s.current c)).priorityLevel := by
      simp [schedSetPriority, clampLevel_val]
    rw [hprio]
    have hset : Unseen s (s.schedSetPriority (s.current c)
        (s.threads (s.current c)).priorityLevel.val) :=
      .modThread (.refl _) (fun _ => ⟨rfl, rfl⟩) fun _ => ⟨rfl, rfl, rfl⟩
    refine ⟨_, ((hset.represents h).push hT (hcur hrun)).setState.incRunning, ?_, fun d hd m => ?_⟩
    · rw [view_incRunning, view_setState, view_mlfqPush, view_update, hset.view, aheadOfCurrent]
      have hsplit : (s.view L).ready c = (before L c (s.threads (s.current c)).priorityLevel ++
          L (c, (s.threads (s.current c)).priorityLevel)) ++
          behind L c (s.threads (s.current c)).priorityLevel := by
        rw [append_assoc]
        exact flat_eq L c _
      have hback := AbsSched.Requeue.back (a := s.view L) (c := c) hrun hsplit
      rw [append_assoc] at hback ⊢
      exact hback
    · simp [hd]
  · simp only [if_neg hrun]
    exact ⟨L, h, .stay hrun, fun _ _ _ => rfl⟩

end Requeue

/-! ## Stealing -/

section Steal

variable {s : SchedState n T} {L : Fin n × Fin 8 → List T} {c v : Fin n}

/-- CPU `v` has `t` at the front of a level with more than one thread. -/
def Offers (L : Fin n × Fin 8 → List T) (v : Fin n) (t : T) : Prop :=
  ∃ l rest, L (v, l) = t :: rest ∧ rest ≠ []

theorem stealFrom_spec (h : s.Represents L) (v : Fin n) :
    s.stealFrom v = (none, s) ∨ ∃ t l rest, (s.stealFrom v).1 = some t ∧ L (v, l) = t :: rest ∧ rest ≠ [] ∧
        (s.stealFrom v).2.Represents (update L (v, l) rest) ∧
        ∀ M, (s.stealFrom v).2.view M =
          { s.view M with
            nrRunning := update (s.view M).nrRunning v ((s.view M).nrRunning v - 1) } := by
  unfold stealFrom
  by_cases hzero : (s.rqs v).nrRunning = 0
  · simp [hzero]
  rw [if_neg hzero]
  cases hfind : (List.finRange 8).reverse.find?
      (fun l => decide (1 < ((s.rqs v).levels l).count)) with
  | none => simp
  | some l =>
    right
    have hcount := List.find?_some hfind
    rw [decide_eq_true_eq, h.one_lt_count] at hcount
    match hlevel : L (v, l) with
    | [] => simp [hlevel] at hcount
    | t :: rest =>
      obtain ⟨hfst, hpop⟩ := h.pop hlevel
      refine ⟨t, l, rest, hfst, hlevel, ?_, hpop.decRunning, fun M => ?_⟩
      · rintro rfl
        simp [hlevel] at hcount
      · rw [view_decRunning, view_mlfqPop]

theorem tryStealFrom_spec (h : s.Represents L) (me : Fin n) (is : List (Fin n)) :
    s.tryStealFrom me is = (none, s) ∨
      ∃ v t l rest, v ≠ me ∧ 1 < (s.rqs v).nrRunning ∧ L (v, l) = t :: rest ∧ rest ≠ [] ∧
        (s.tryStealFrom me is).1 = some t ∧
        (s.tryStealFrom me is).2.Represents (update L (v, l) rest) ∧
        ∀ M, (s.tryStealFrom me is).2.view M =
          { s.view M with
            lastCpu := update (s.view M).lastCpu t me.val
            nrRunning := update (s.view M).nrRunning v ((s.view M).nrRunning v - 1) } := by
  induction is with
  | nil => exact .inl rfl
  | cons i is ih =>
    unfold tryStealFrom
    by_cases hme : i = me
    · rwa [if_pos hme]
    rw [if_neg hme]
    by_cases hfew : (s.rqs i).nrRunning ≤ 1
    · rwa [if_pos hfew]
    rw [if_neg hfew]
    rcases stealFrom_spec h i with hnone | ⟨t, l, rest, hfst, hlevel, hrest, hrep, hview⟩
    · rwa [hnone]
    · right
      rw [← Prod.mk.eta (p := s.stealFrom i), hfst]
      refine ⟨i, t, l, rest, hme, UInt32.not_le.mp hfew, hlevel, hrest, rfl, hrep.setLastCpu, fun M => ?_⟩
      rw [view_setLastCpu, hview M]

end Steal

/-! ## Choosing the next thread -/

section Choose

variable {s : SchedState n T} {L : Fin n × Fin 8 → List T} {c : Fin n}

theorem chooseNext_spec (h : s.Represents L) (c : Fin n) : ∃ L', (s.chooseNext c).2.Represents L' ∧
      AbsSched.Choose (Offers L) c (s.view L) (s.chooseNext c).1 ((s.chooseNext c).2.view L') := by
  have hclear : ∀ s : SchedState n T, Unseen s (s.modRq c fun rq => { rq with needsResched := false }) :=
    fun s => .modRq (.refl _) (fun _ => rfl) fun _ => ⟨rfl, rfl⟩
  unfold chooseNext
  match hflat : flat L c with
  | t :: ts =>
    obtain ⟨L', hfst, hrep, hview, -⟩ := mlfqPickNext_cons h hflat
    rw [← Prod.mk.eta (p := s.mlfqPickNext c), hfst]
    refine ⟨L', ((hclear _).represents hrep).decRunning, ?_⟩
    rw [view_decRunning, (hclear _).view, hview]
    exact .own hflat
  | [] =>
    rw [mlfqPickNext_nil h hflat]
    simp only [trySteal]
    rcases tryStealFrom_spec ((hclear s).represents h) c (List.finRange n) with
      hnone | ⟨v, t, l, rest, hv, hmany, hlevel, hrest, hfst, hrepv, hview⟩
    · rw [hnone]
      refine ⟨L, (hclear s).represents h, ?_⟩
      rw [(hclear s).view]
      have hidle : ((s.modRq c fun rq => { rq with needsResched := false }).rqs c).idle =
          (s.view L).idle c := by simp [view]
      rw [hidle]
      exact .idle hflat
    · rw [← Prod.mk.eta (p := tryStealFrom _ c (List.finRange n)), hfst]
      refine ⟨_, hrepv.decRunning, ?_⟩
      rw [view_decRunning, hview, (hclear s).view, view_update]
      dsimp only
      rw [update_of_ne hv.symm]
      have hmany' : 1 < (s.view L).nrRunning v := by
        have hsame := congrArg (AbsSched.nrRunning · v) ((hclear s).view L)
        exact hsame ▸ hmany
      have hv' : (s.view L).ready v = before L v l ++ t :: (rest ++ behind L v l) := by
        have := flat_eq L v l
        rwa [hlevel] at this
      exact .stolen hflat hv hmany' ⟨l, rest, hlevel, hrest⟩ hv'

end Choose

/-! ## The locked part of `schedule` -/

section Pick

variable {s s' : SchedState n T} {L : Fin n × Fin 8 → List T} {c : Fin n}

theorem unseen_reapPendingZombie (s : SchedState n T) (c : Fin n) : Unseen s (s.reapPendingZombie c) := by
  unfold reapPendingZombie threadFreeResources
  cases (s.cpus c).zombieToReap with
  | none => exact .refl s
  | some z =>
    apply Unseen.modThread
    · exact .modCpu (.refl s) fun _ => rfl
    · exact fun _ => ⟨rfl, rfl⟩
    · exact fun _ => ⟨rfl, rfl, rfl⟩

/-- Reaping a zombie does not change which threads are ahead of the current one. -/
theorem aheadOfCurrent_reap (s : SchedState n T) (L : Fin n × Fin 8 → List T) (c : Fin n) :
    (s.reapPendingZombie c).aheadOfCurrent L c = s.aheadOfCurrent L c := by
  have hcur : (s.reapPendingZombie c).current c = s.current c :=
    congrArg (AbsSched.current · c) ((s.unseen_reapPendingZombie c).view L)
  have hprio : ∀ t, ((s.reapPendingZombie c).threads t).priorityLevel = (s.threads t).priorityLevel := by
    intro t
    unfold reapPendingZombie threadFreeResources
    cases (s.cpus c).zombieToReap with
    | none => rfl
    | some z => by_cases ht : t = z <;> simp [modThread, ht]
  rw [aheadOfCurrent, aheadOfCurrent, hcur, hprio]

theorem schedulePick_mono {r : T × SchedState n T}
    (h : schedulePick fuel now c s = some r) (hle : fuel ≤ fuel') : schedulePick fuel' now c s = some r := by
  exact Grows.map (fun _ hboost => maybeBoost_mono hboost hle) _ r h

variable [Fintype T]

section

variable (hT : Fintype.card T < 2 ^ 32) (h : s.Represents L)
  (hcur : (s.threads (s.current c)).state = .running → ∀ i, s.current c ∉ L i)

include hT h hcur

/-- The locked part of `schedule` returns, given enough fuel; it puts the running thread back
and chooses the next one. -/
theorem schedulePick_returns (now : UInt64) :
    ∃ fuel next s' L' a, schedulePick fuel now c s = some (next, s') ∧
      s'.Represents L' ∧ AbsSched.Requeue c (s.aheadOfCurrent L c) (s.view L) a ∧
      AbsSched.Choose (Offers L) c a next (s'.view L') := by
  have hreap := s.unseen_reapPendingZombie c
  have hcur' : ((s.reapPendingZombie c).threads ((s.reapPendingZombie c).current c)).state =
      .running → ∀ i, (s.reapPendingZombie c).current c ∉ L i := by
    have hc : (s.reapPendingZombie c).current c = s.current c :=
      congrArg (AbsSched.current · c) (hreap.view L)
    have hs : ∀ t, ((s.reapPendingZombie c).threads t).state = (s.threads t).state :=
      fun t => congrArg (AbsSched.state · t) (hreap.view L)
    rwa [hc, hs]
  obtain ⟨L1, hrep1, hreq, hoff1⟩ := requeuePrev_spec hT (hreap.represents h) hcur'
  rw [hreap.view, aheadOfCurrent_reap] at hreq
  obtain ⟨s2, L2, hboost, hrep2, hview2, hoff2⟩ :=
    maybeBoost_returns hT hrep1 now (Nat.lt_succ_self (flat L1 c).length)
  obtain ⟨L', hrep', hchoose⟩ := chooseNext_spec hrep2 c
  rw [hview2] at hchoose
  refine ⟨_, _, _, L', _, map_eq_some_iff.mpr ⟨s2, hboost, rfl⟩, hrep', hreq, ?_⟩
  apply hchoose.mono
  rintro v hv t ⟨l, rest, hlevel, hrest⟩
  exact ⟨l, rest, by rw [← hoff1 v hv l, ← hoff2 v hv l, hlevel], hrest⟩

/-- What the locked part of `schedule` has done when it returned. -/
theorem schedulePick_spec {next : T} (hpick : schedulePick fuel now c s = some (next, s')) :
    ∃ L' a, s'.Represents L' ∧ AbsSched.Requeue c (s.aheadOfCurrent L c) (s.view L) a ∧
      AbsSched.Choose (Offers L) c a next (s'.view L') := by
  obtain ⟨fuel1, next1, s1, L', a, hpick1, hrep, hreq, hchoose⟩ :=
    schedulePick_returns hT h hcur now
  have h1 := schedulePick_mono hpick (Nat.le_max_left fuel fuel1)
  have h2 := schedulePick_mono hpick1 (Nat.le_max_right fuel fuel1)
  rw [h1, some.injEq, Prod.mk.injEq] at h2
  obtain ⟨rfl, rfl⟩ := h2
  exact ⟨L', a, hrep, hreq, hchoose⟩

end

end Pick

/-! ## The other operations -/

section Others

variable {s : SchedState n T} {L : Fin n × Fin 8 → List T}

theorem schedEnqueue_spec [Fintype T] (hT : Fintype.card T < 2 ^ 32) (h : s.Represents L)
    (ht : ∀ i, t ∉ L i) (me : Fin n) : ∃ L', (s.schedEnqueue me t).Represents L' ∧
      AbsSched.Enqueue (s.enqueueCpu me t) t (s.view L) ((s.schedEnqueue me t).view L') := by
  unfold schedEnqueue
  generalize s.enqueueCpu me t = c
  have hmark : (s.modThread t fun th =>
      { th with state := .ready, lastCpu := c.val }).Represents L :=
    h.modThread fun _ => ⟨rfl, rfl⟩
  have hview : (s.modThread t fun th => { th with state := .ready, lastCpu := c.val }).view L =
      { s.view L with
        state := update (s.view L).state t .ready
        lastCpu := update (s.view L).lastCpu t c.val } :=
    view_modThread s L t fun _ => rfl
  refine ⟨_, (hmark.push hT ht).incRunning, ?_⟩
  rw [view_incRunning, view_mlfqPush, view_update, hview, modThread_threads_self, append_assoc,
    ← append_assoc (before L c _)]
  apply AbsSched.Enqueue.mk
  rw [append_assoc]
  exact flat_eq L c _

theorem unseen_fpuSave (s : SchedState n T) (c : Fin n) (t : T) : Unseen s (s.fpuSave c t) := by
  unfold fpuSave
  split
  · exact .modThread (.refl s) (fun _ => ⟨rfl, rfl⟩) fun _ => ⟨rfl, rfl, rfl⟩
  · exact .refl s

theorem unseen_contextSwitch (s : SchedState n T) (c : Fin n) (prev next : T) :
    Unseen s (s.contextSwitch c prev next) := by
  unfold contextSwitch
  apply Unseen.modCpu
  · exact .modThread (.refl s) (fun _ => ⟨rfl, rfl⟩) fun _ => ⟨rfl, rfl, rfl⟩
  · exact fun _ => rfl

theorem doSwitch_spec (h : s.Represents L) (tsc : UInt64) (c : Fin n) (prev next : T) :
    (s.doSwitch tsc c prev next).Represents L ∧
      (s.doSwitch tsc c prev next).view L = (s.view L).switch c next := by
  unfold doSwitch
  simp only
  -- the two assignments the abstract state sees stand between stretches it does not see
  have hsave : Unseen s ((s.fpuSave c prev).fpuLazyDisable c) :=
    (s.unseen_fpuSave c prev).modCpu fun _ => rfl
  generalize hs1 : (s.fpuSave c prev).fpuLazyDisable c = s1 at hsave ⊢
  have hrep1 : (s1.modCpu c fun cpu => { cpu with currentThread := next }).Represents L :=
    (hsave.represents h).modCpu
  have hview1 : (s1.modCpu c fun cpu => { cpu with currentThread := next }).view L =
      { s.view L with current := update (s.view L).current c next } := by
    rw [view_modCpu, hsave.view]
  generalize s1.modCpu c (fun cpu => { cpu with currentThread := next }) = s2 at hrep1 hview1 ⊢
  have hrq : Unseen s2 (s2.modRq c fun rq => { rq with current := next }) :=
    .modRq (.refl _) (fun _ => rfl) fun _ => ⟨rfl, rfl⟩
  generalize s2.modRq c (fun rq => { rq with current := next }) = s3 at hrq ⊢
  have hrep3 : (s3.modThread next fun th =>
      { th with state := .running, lastRunTsc := tsc }).Represents L :=
    (hrq.represents hrep1).modThread fun _ => ⟨rfl, rfl⟩
  have hview3 : (s3.modThread next fun th => { th with state := .running, lastRunTsc := tsc }).view L =
      (s.view L).switch c next := by
    refine (view_modThread_state (x := .running) s3 L next ?_).trans ?_
    · exact fun _ => ⟨rfl, rfl, rfl⟩
    · rw [hrq.view, hview1]
      rfl
  generalize s3.modThread next (fun th => { th with state := .running, lastRunTsc := tsc }) = s4
    at hrep3 hview3 ⊢
  have hrest : Unseen s4 (((s4.switchTss c next).modCpu c fun cpu =>
      { cpu with sysretKernelRsp := kstackTop ((s4.switchTss c next).threads next) }).contextSwitch
        c prev next) := by
    refine Unseen.trans ?_ (unseen_contextSwitch _ c prev next)
    apply Unseen.modCpu
    · exact .modCpu (.refl _) fun _ => rfl
    · exact fun _ => rfl
  exact ⟨hrest.represents hrep3, (hrest.view L).trans hview3⟩

/-- `schedule` as a whole: without a switch when the thread chosen is the current one. -/
theorem schedule_spec [Fintype T] (hT : Fintype.card T < 2 ^ 32) (h : s.Represents L) {c : Fin n}
    (hcur : (s.threads (s.current c)).state = .running → ∀ i, s.current c ∉ L i) {tsc : UInt64}
    (hs : schedule fuel now tsc c s = some s') : ∃ next a a' L', s'.Represents L' ∧
      AbsSched.Requeue c (s.aheadOfCurrent L c) (s.view L) a ∧ AbsSched.Choose (Offers L) c a next a' ∧
      s'.view L' = if next = s.current c then a' else a'.switch c next := by
  obtain ⟨⟨next, s1⟩, hpick, rfl⟩ := map_eq_some_iff.mp hs
  obtain ⟨L', a, hrep, hrequeue, hchoose⟩ := schedulePick_spec hT h hcur hpick
  refine ⟨next, a, s1.view L', L', ?_, hrequeue, hchoose, ?_⟩
  · dsimp only
    split
    · exact hrep
    · exact (doSwitch_spec hrep tsc c _ next).1
  · dsimp only
    split
    · rfl
    · exact (doSwitch_spec hrep tsc c _ next).2

theorem schedule_returns [Fintype T] (hT : Fintype.card T < 2 ^ 32) (h : s.Represents L)
    {c : Fin n} (hcur : (s.threads (s.current c)).state = .running → ∀ i, s.current c ∉ L i)
    (now tsc : UInt64) : ∃ fuel s', schedule fuel now tsc c s = some s' := by
  obtain ⟨fuel, next, s1, -, -, hpick, -⟩ := schedulePick_returns hT h hcur now
  exact ⟨fuel, _, map_eq_some_iff.mpr ⟨_, hpick, rfl⟩⟩

/-- `sched_wake` queues a thread that waits and does nothing to any other. -/
theorem schedWake_spec [Fintype T] (hT : Fintype.card T < 2 ^ 32) (h : s.Represents L)
    (ht : (s.threads t).state = .blocked ∨ (s.threads t).state = .sleeping → ∀ i, t ∉ L i) (me : Fin n) :
    ∃ L', (s.schedWake me t).Represents L' ∧
      (((s.threads t).state ≠ .blocked ∧ (s.threads t).state ≠ .sleeping ∧
          (s.schedWake me t).view L' = s.view L) ∨
        (((s.threads t).state = .blocked ∨ (s.threads t).state = .sleeping) ∧
          AbsSched.Enqueue (s.enqueueCpu me t) t (s.view L) ((s.schedWake me t).view L'))) := by
  unfold schedWake
  by_cases hwait : (s.threads t).state = .blocked ∨ (s.threads t).state = .sleeping
  · rw [if_pos hwait]
    obtain ⟨L', hrep, henq⟩ := schedEnqueue_spec hT (h.setState (t := t) (x := .ready)) (ht hwait) me
    refine ⟨L', hrep, .inr ⟨hwait, ?_⟩⟩
    have hcpu : (s.modThread t fun th => { th with state := .ready }).enqueueCpu me t =
        s.enqueueCpu me t := by
      simp [enqueueCpu]
    rw [hcpu, view_setState] at henq
    exact henq.of_state
  · rw [if_neg hwait]
    exact ⟨L, h, .inl ⟨fun hb => hwait (.inl hb), fun hb => hwait (.inr hb), rfl⟩⟩

theorem unseen_schedTick (s : SchedState n T) (freq now : UInt64) (c : Fin n) :
    Unseen s (schedTick freq now c s) := by
  unfold schedTick
  simp only
  by_cases hidle : s.current c = (s.cpus c).idleThread
  · rw [if_pos hidle]
    exact .modCpu (.refl s) fun _ => rfl
  rw [if_neg hidle]
  generalize (now - (s.threads (s.current c)).lastRunTsc) * 1000000000 /
    (if freq = 0 then 1 else freq) = delta
  have hcharge : Unseen s (s.modThread (s.current c) fun th =>
      { th with timeInLevelNs := th.timeInLevelNs + delta
                totalRuntimeNs := th.totalRuntimeNs + delta }) :=
    .modThread (.refl s) (fun _ => ⟨rfl, rfl⟩) fun _ => ⟨rfl, rfl, rfl⟩
  split
  · apply Unseen.modCpu
    · exact hcharge.modThread (fun _ => ⟨rfl, rfl⟩) fun _ => ⟨rfl, rfl, rfl⟩
    · exact fun _ => rfl
  · exact hcharge

theorem schedMarkBlocked_spec (h : s.Represents L) (t : T) :
    (s.schedMarkBlocked t).Represents L ∧ (s.schedMarkBlocked t).view L = (s.view L).block t :=
  ⟨h.setState, view_setState s L t .blocked⟩

end Others

end SchedState

end Lapis.Sched
