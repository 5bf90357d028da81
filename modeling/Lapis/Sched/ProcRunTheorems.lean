/-
Lapis.Sched.ProcRunTheorems — runs of `proc_fork`, `proc_exit` and `proc_wait`.

`Tree` and `WaitOk` say what holds of the processes and of the next pass of `proc_wait`, in terms of the
pointers. They hold in every run in which `next_pid` does not overflow; one that is negative can be
-ECHILD, and then `proc_wait` returns the pid of a child that no caller can tell from an error.
-/
import Lapis.Sched.ProcTreeTheorems

namespace Lapis.Sched

open Function List Option Fs Lib

namespace Procs

variable {s s' : Procs} {kids : Nat → List Nat} {a q fuel parent : Nat} {p c : Proc} {pid : Int} {op : ProcOp}

/-! ## What holds in a run -/

/-- The list of children of `q` has `a`. -/
def ChildOf (s : Procs) (q a : Nat) : Prop :=
  ∃ p l, s.procs q = some p ∧ Chain s.next p.children l ∧ a ∈ l

structure Tree (s : Procs) : Prop where
  lists : ∀ q p, s.procs q = some p → ∃ l, Chain s.next p.children l ∧ l.Nodup
  unique : ∀ q q' a, s.ChildOf q a → s.ChildOf q' a → q = q'
  allocated : ∀ id, id < s.born → id ∉ s.reaped.map Prod.fst → ∃ a c, s.procs a = some c ∧ c.id = id
  unreaped : ∀ a c, s.procs a = some c → c.id ∉ s.reaped.map Prod.fst
  parent : ∀ a c, s.procs a = some c → a ≠ s.initProc → s.ChildOf c.parent a ∧
    ∃ p, s.procs c.parent = some p ∧ p.id < c.id ∧
      (p.id = c.forker ∨ c.parent = s.initProc ∧ (s.exits c.forker).isSome)
  exited : ∀ id code, s.exits id = some code → (id, code) ∈ s.reaped ∨
    ∃ a c, s.procs a = some c ∧ a ≠ s.initProc ∧ c.id = id ∧ c.state = .zombie ∧ c.exitCode = code
  delivered : ∀ e ∈ s.reaped, s.exits e.1 = some e.2
  once : (s.reaped.map Prod.fst).Nodup

/-- A pass of `proc_wait` returns -ECHILD exactly when no child matches, and otherwise reaps a zombie,
with its exit code, or reaps none. -/
def WaitOk (s : Procs) (parent : Nat) (pid : Int) (r : WaitResult) (s' : Procs) : Prop :=
  ((∃ status, r = .returned (-ECHILD) status) ↔
      ∀ a c, s.ChildOf parent a → s.procs a = some c → ¬ Matches pid c) ∧
    ((∃ a c, s.ChildOf parent a ∧ s.procs a = some c ∧ Matches pid c ∧ s.exits c.id = some c.exitCode ∧
        r = .returned c.pid (some c.exitCode) ∧ s'.reaped = (c.id, c.exitCode) :: s.reaped) ∨
      s' = s ∧ (r = .blocked ∨ r = .returned (-ECHILD) none))

/-! ## From the invariant -/

def Inv (s : Procs) : Prop := ∃ kids, Lists s kids 0 ∧ Family s kids

theorem Lists.childOf_iff (h : Lists s kids 0) (q a : Nat) : s.ChildOf q a ↔ a ∈ kids q := by
  constructor
  · rintro ⟨p, l, hp, hchain, ha⟩
    rwa [(h.chain q p (h.ne_zero hp) hp).eq_of_head hchain]
  intro ha
  cases hp : s.procs q with
  | none =>
    simp [h.owner q hp] at ha
  | some p => exact ⟨p, kids q, hp, h.chain q p (h.ne_zero hp) hp, ha⟩

theorem Inv.tree (h : s.Inv) : s.Tree := by
  obtain ⟨kids, hl, hf⟩ := h
  refine ⟨fun q p hp => ⟨kids q, hl.chain q p (hl.ne_zero hp) hp, hl.nodup q⟩, fun q q' a ha ha' => ?_,
    fun id hid hnot => ?_, fun a c hc hin => ?_, fun a c hc ha => ?_, fun id code hcode => ?_,
    fun e he => (hf.reaped e he).1, hf.once⟩
  · exact hl.disjoint q q' a ((hl.childOf_iff q a).mp ha) ((hl.childOf_iff q' a).mp ha')
  · obtain ⟨a, c, hc, hcid⟩ := (hf.all id hid).resolve_right hnot
    obtain ⟨p, hp, rfl⟩ := exists_of_view hc
    exact ⟨a, p, hp, hcid⟩
  · obtain ⟨e, he, heid⟩ := mem_map.mp hin
    exact (hf.reaped e he).2 a _ (view_eq hc) heid.symm
  · obtain ⟨p, hp, hrest⟩ := hf.parent a _ (view_eq hc) ha
    obtain ⟨p', hp', rfl⟩ := exists_of_view hp
    have hchild : a ∈ kids c.parent := hf.mem_parent (c := c.core) (view_eq hc) ha
    exact ⟨(hl.childOf_iff c.parent a).mpr hchild, p', hp', hrest⟩
  · have hborn : id < s.born := by
      by_contra hge
      simp [hf.unborn id (Nat.le_of_not_lt hge)] at hcode
    rcases hf.all id hborn with ⟨a, c, hc, rfl⟩ | hin
    · have hexit := (hf.proc a c hc).2.2.2.2
      have hz : c.state = .zombie := by
        by_contra hz
        simp [if_neg hz, hcode] at hexit
      rw [if_pos hz, hcode, some.injEq] at hexit
      have hai : a ≠ s.initProc := by
        rintro rfl
        obtain ⟨i, hi, hrunning, -⟩ := hf.init
        cases hc.symm.trans hi
        simp [hrunning] at hz
      obtain ⟨p, hp, rfl⟩ := exists_of_view hc
      exact .inr ⟨a, p, hp, hai, rfl, hz, hexit.symm⟩
    · obtain ⟨e, he, rfl⟩ := mem_map.mp hin
      have hdelivered := (hf.reaped e he).1
      rw [hcode, some.injEq] at hdelivered
      rw [hdelivered]
      exact .inl he

theorem WaitCase.waitOk {r : WaitResult} (h : WaitCase s (kids parent) pid r s') (hl : Lists s kids 0)
    (hf : Family s kids) : s.WaitOk parent pid r s' := by
  cases h with
  | @reap x c s' hx hc hmatch hz hreaped =>
    have hchild := (hl.childOf_iff parent x).mpr hx
    obtain ⟨-, -, hpos, -, hexit⟩ := hf.proc x _ (view_eq hc)
    refine ⟨iff_of_false ?_ fun hnone => hnone x c hchild hc hmatch, .inl ⟨x, c, hchild, hc, hmatch, ?_,
      rfl, hreaped⟩⟩
    · rintro ⟨status, hr⟩
      have hpid : c.pid = -ECHILD := (WaitResult.returned.inj hr).1
      change 0 < c.pid at hpos
      rw [hpid] at hpos
      exact absurd hpos (by decide)
    · exact hexit.trans (if_pos hz)
  | block hno hsome =>
    obtain ⟨x, hx, c, hc, hmatch⟩ := hsome
    refine ⟨iff_of_false nofun fun hnone => ?_, .inr ⟨rfl, .inl rfl⟩⟩
    exact hnone x c ((hl.childOf_iff parent x).mpr hx) hc hmatch
  | echild hnone =>
    refine ⟨iff_of_true ⟨none, rfl⟩ fun a c ha hc => ?_, .inr ⟨rfl, .inr rfl⟩⟩
    exact hnone a ((hl.childOf_iff parent a).mp ha) c hc

/-! ## Steps -/

theorem procFork_mono {child fuel' : Nat} {failure : Option ForkFailure} {r : Int × Procs}
    (hle : fuel ≤ fuel') (h : s.procFork fuel parent child failure = some r) :
    s.procFork fuel' parent child failure = some r := by
  have hremove : ∀ s2 : Procs, Grows (procRemoveChild fuel s2 parent child)
      (procRemoveChild fuel' s2 parent child) :=
    fun s2 => .bind (.refl _) fun _ _ hloop => removeLoop_mono hle hloop
  refine Grows.ite (.refl _) (.ite (.refl _) (.bind (.refl _) fun p => ?_)) r h
  refine .ite (.refl _) (.bind (.refl _) fun c => .bind (.refl _) fun s2 => ?_)
  exact .ite (.bind (hremove s2) fun _ => .refl _) (.refl _)

theorem procExit_mono {fuel' : Nat} {code : Int} (hle : fuel ≤ fuel')
    (h : s.procExit fuel a code = some s') : s.procExit fuel' a code = some s' := by
  refine Grows.bind (.refl _) (fun p => .ite (.refl _) ?_) s' h
  exact .bind (fun _ hloop => exitLoop_mono hle hloop) fun _ => .refl _

theorem procWait_mono {fuel' : Nat} {r : WaitResult × Procs} (hle : fuel ≤ fuel')
    (h : s.procWait fuel parent pid = some r) : s.procWait fuel' parent pid = some r := by
  refine Grows.bind (.refl _) (fun p => .bind (fun _ hfind => findLoop_mono hle hfind)
    fun found => ?_) r h
  cases found with
  | some x => exact .refl _
  | none => exact .bind (fun _ hloop => matchLoop_mono hle hloop) fun _ => .refl _

theorem step_mono (op : ProcOp) {fuel' : Nat} (hle : fuel ≤ fuel') (h : step fuel op s = some s') :
    step fuel' op s = some s' := by
  cases op with
  | fork parent child failure => exact Grows.map (fun _ hr => procFork_mono hle hr) _ s' h
  | exit a code => exact procExit_mono hle h
  | wait parent pid => exact Grows.map (fun _ hr => procWait_mono hle hr) _ s' h

/-- Every call ends, and keeps the invariant. -/
theorem Inv.step_spec (h : s.Inv) (hok : callerOk op s) (hpids : pidsFit op s) :
    ∃ bound s', s'.Inv ∧ ∀ fuel, bound ≤ fuel → step fuel op s = some s' := by
  obtain ⟨kids, hl, hf⟩ := h
  cases op with
  | fork parent child failure =>
    obtain ⟨ret, s', kids', hcall, hl', hf'⟩ := procFork_spec hl hf hok hpids Nat.one_pos
    exact ⟨1, s', ⟨kids', hl', hf'⟩, fun fuel hfuel =>
      step_mono _ hfuel (map_eq_some_iff.mpr ⟨_, hcall, rfl⟩)⟩
  | exit a code =>
    obtain ⟨s', kids', hcall, hl', hf'⟩ := procExit_spec hl hf hok (Nat.lt_succ_self _)
    exact ⟨_, s', ⟨kids', hl', hf'⟩, fun fuel hfuel => step_mono (.exit a code) hfuel hcall⟩
  | wait parent pid =>
    obtain ⟨r, s', kids', hcall, hl', hf', -⟩ := procWait_spec pid hl hf hok (Nat.lt_succ_self _)
    exact ⟨_, s', ⟨kids', hl', hf'⟩, fun fuel hfuel =>
      step_mono _ hfuel (map_eq_some_iff.mpr ⟨_, hcall, rfl⟩)⟩

theorem Inv.step (h : s.Inv) (hok : callerOk op s) (hpids : pidsFit op s)
    (hstep : Procs.step fuel op s = some s') : s'.Inv := by
  obtain ⟨bound, s1, hinv, henough⟩ := h.step_spec hok hpids
  have hmore := step_mono op (Nat.le_max_left fuel bound) hstep
  rw [henough _ (Nat.le_max_right fuel bound), some.injEq] at hmore
  exact hmore ▸ hinv

/-! ## Runs -/

theorem procs_start (a : Nat) (pid : Int) (b : Nat) :
    (start a pid).procs b = if b = a then some ⟨pid, .running, 0, 0, 0, 0, 1, 0, 0⟩ else none := by
  simp [start, update_apply]

theorem view_start (a : Nat) (pid : Int) (b : Nat) :
    (start a pid).view b = if b = a then some ⟨pid, .running, 0, 0, 0, 0, 1, 0, 0⟩ else none := by
  rw [view, procs_start]
  split <;> rfl

theorem inv_start (ha : a ≠ 0) (hpid : 0 < pid) (hlt : pid + 1 < 2 ^ 31) : (start a pid).Inv := by
  have hview : ∀ b c, (start a pid).view b = some c → b = a ∧ c = ⟨pid, .running, 0, 0, 0, 0, 1, 0, 0⟩ := by
    intro b c hc
    rw [view_start, ite_none_right_eq_some] at hc
    exact ⟨hc.1, (some.inj hc.2).symm⟩
  have hself : (start a pid).view a = some ⟨pid, .running, 0, 0, 0, 0, 1, 0, 0⟩ := by
    rw [view_start, if_pos rfl]
  refine ⟨fun _ => [], ⟨by rw [procs_start, if_neg ha.symm], fun q p _ hp => ?_, fun _ => nodup_nil,
    nofun, nofun, fun _ _ => rfl⟩, ⟨fun q b => ?_, ⟨_, hself, rfl, rfl⟩, fun b c hc hb => ?_, fun b c hc => ?_,
    fun _ _ _ _ => rfl, fun b b' c c' hc hc' _ => ?_, nofun, nodup_nil, fun id hid => ?_,
    fun _ _ => rfl, ⟨Int.lt_add_one_of_le (Int.le_of_lt hpid), hlt⟩⟩⟩
  · rw [procs_start, ite_none_right_eq_some, some.injEq] at hp
    rw [← hp.2]
    rfl
  · refine iff_of_false nofun ?_
    rintro ⟨hb, c, hc, -⟩
    exact hb (hview b c hc).1
  · exact absurd (hview b c hc).1 hb
  · rw [(hview b c hc).2]
    exact ⟨rfl, nofun, hpid, Nat.one_pos, rfl⟩
  · rw [(hview b c hc).1, (hview b' c' hc').1]
  · exact .inl ⟨a, _, hself, (Nat.lt_one_iff.mp hid).symm⟩

/-- Only the init process, after some pids were taken. -/
def alone (nextPid : Int) : Procs := { start 1 1 with nextPid := nextPid }

/-- A fork that fails for want of memory takes a pid. -/
theorem step_failed_fork (n : Int) :
    Procs.step 0 (.fork 1 2 (some .vmm)) (alone n) = some (alone ((n + 1).bmod (2 ^ 32))) := by
  have hp : (alone n).procs 1 = some ⟨1, .running, 0, 0, 0, 0, 1, 0, 0⟩ := rfl
  have hunref := procAlloc_unref (alone n) 0 (show 2 ≠ 0 by decide) rfl
  rw [Procs.step, procFork, if_neg (by decide), if_neg (by decide), hp, bind_eq_bind, bind_some]
  dsimp only
  rw [if_pos (by decide), hunref]
  rfl

theorem run_failed_forks (k : Nat) :
    Run Procs.step callerOk (start 1 1) (alone ((2 + k : Int).bmod (2 ^ 32))) := by
  induction k with
  | zero => exact .init
  | succ k ih =>
    have hok : callerOk (.fork 1 2 (some .vmm)) (alone ((2 + k : Int).bmod (2 ^ 32))) :=
      ⟨⟨_, rfl, rfl⟩, by decide, rfl⟩
    have hnext : ((2 + k : Int).bmod (2 ^ 32) + 1).bmod (2 ^ 32) = (2 + (k + 1 : Nat) : Int).bmod (2 ^ 32) := by
      rw [Int.bmod_add_bmod]
      rfl
    exact hnext ▸ .next ih hok (step_failed_fork _)

end Procs

end Lapis.Sched
