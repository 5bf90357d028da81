/-
Lapis.Sched.ProcTreeTheorems — the tree of processes and the delivery of exit codes.

`Family s kids` is the invariant, about processes without their links and the lists `kids` of children:
a child is in the list of its parent and nowhere else, parents are born before their children, zombies
have no children, and what was reaped is gone. The first part says how it changes with a fork, an exit and
a wait as operations on lists; the second part that the functions of task.c do these.
-/
import Lapis.Lib.Run
import Lapis.Sched.ProcTheorems
import Mathlib.Algebra.Ring.Int.Defs
import Mathlib.Data.List.Nodup

namespace Lapis.Sched

open Function List Option Fs Lib

namespace Procs

variable {s s' : Procs} {kids : Nat → List Nat} {a b q x fuel parent child : Nat} {p c d n : Proc}
  {pid code : Int} {A B : List Nat}

/-! ## The invariant -/

structure Family (s : Procs) (kids : Nat → List Nat) : Prop where
  mem : ∀ q a, a ∈ kids q ↔ a ≠ s.initProc ∧ ∃ c, s.view a = some c ∧ c.parent = q
  init : ∃ p, s.view s.initProc = some p ∧ p.state = .running ∧ p.id = 0
  parent : ∀ a c, s.view a = some c → a ≠ s.initProc → ∃ p, s.view c.parent = some p ∧ p.id < c.id ∧
    (p.id = c.forker ∨ c.parent = s.initProc ∧ (s.exits c.forker).isSome)
  proc : ∀ a c, s.view a = some c → c.refcount = 1 ∧ c.state ≠ .dead ∧ 0 < c.pid ∧ c.id < s.born ∧
    s.exits c.id = if c.state = .zombie then some c.exitCode else none
  childless : ∀ a c, s.view a = some c → c.state = .zombie → kids a = []
  ids : ∀ a b c d, s.view a = some c → s.view b = some d → c.id = d.id → a = b
  reaped : ∀ e ∈ s.reaped, s.exits e.1 = some e.2 ∧ ∀ a c, s.view a = some c → c.id ≠ e.1
  once : (s.reaped.map Prod.fst).Nodup
  all : ∀ id, id < s.born → (∃ a c, s.view a = some c ∧ c.id = id) ∨ id ∈ s.reaped.map Prod.fst
  unborn : ∀ id, s.born ≤ id → s.exits id = none
  pids : 0 < s.nextPid ∧ s.nextPid < 2 ^ 31

/-- Links and the next pid do not matter. -/
theorem Family.congr (h : Family s kids) (hview : s'.view = s.view)
    (hrest : s' = { s with procs := s'.procs, procList := s'.procList, nextPid := s'.nextPid })
    (hpids : 0 < s'.nextPid ∧ s'.nextPid < 2 ^ 31) : Family s' kids := by
  obtain ⟨hmem, hi, hparent, hproc, hchildless, hids, hr, honce, hall, hunborn, -⟩ := h
  rw [← hview] at hmem hi hparent hproc hchildless hids hr hall
  rw [hrest]
  exact ⟨hmem, hi, hparent, hproc, hchildless, hids, hr, honce, hall, hunborn, hpids⟩

/-- A process that is not init is in the list of its parent. -/
theorem Family.mem_parent (h : Family s kids) (ha : s.view a = some c) (hne : a ≠ s.initProc) :
    a ∈ kids c.parent := (h.mem c.parent a).mpr ⟨hne, c, ha, rfl⟩

theorem Family.not_mem_self (h : Family s kids) (ha : s.view a = some c) : a ∉ kids a := fun hin => by
  obtain ⟨hne, c', hc', hparent⟩ := (h.mem a a).mp hin
  obtain rfl : c = c' := some.inj (ha.symm.trans hc')
  obtain ⟨p, hp, hlt, -⟩ := h.parent a c ha hne
  rw [hparent, ha, some.injEq] at hp
  exact Nat.lt_irrefl _ (hp ▸ hlt)

/-! ## Fork -/

/-- What `proc_fork` makes. -/
structure NewChild (s : Procs) (parent forker : Nat) (n : Proc) : Prop where
  state : n.state = .running
  parent : n.parent = parent
  refcount : n.refcount = 1
  pid : 0 < n.pid
  id : n.id = s.born
  forker : n.forker = forker

theorem Family.fork (h : Family s kids) (hp : s.view parent = some p) (hrunning : p.state = .running)
    (hfree : s.view child = none) (hn : NewChild s parent p.id n)
    (hview : s'.view = update s.view child (some n))
    (hrest : s' = { s with
      procs := s'.procs, procList := s'.procList, nextPid := s'.nextPid, born := s.born + 1 })
    (hpids : 0 < s'.nextPid ∧ s'.nextPid < 2 ^ 31) :
    Family s' (update kids parent (child :: kids parent)) := by
  have hne : ∀ a c, s.view a = some c → a ≠ child := by
    rintro a c ha rfl
    simp [hfree] at ha
  have hold : ∀ a c, s.view a = some c → s'.view a = some c := fun a c ha => by
    rw [hview, update_of_ne (hne a c ha), ha]
  have hnew : s'.view child = some n := by rw [hview, update_self]
  have hcases : ∀ a c, s'.view a = some c → a = child ∧ c = n ∨ a ≠ child ∧ s.view a = some c := by
    intro a c ha
    by_cases hac : a = child
    · rw [hac, hnew, some.injEq] at ha
      exact .inl ⟨hac, ha.symm⟩
    · rw [hview, update_of_ne hac] at ha
      exact .inr ⟨hac, ha⟩
  obtain ⟨i, hi, hirunning, hizero⟩ := h.init
  rw [hrest]
  refine ⟨fun q a => ?_, ⟨i, hold _ _ hi, hirunning, hizero⟩, fun a c ha hai => ?_, fun a c ha => ?_,
    fun a c ha hz => ?_, fun a b c d ha hb hid => ?_, fun e he => ?_, h.once, fun id hid => ?_,
    fun id hid => h.unborn id (Nat.le_of_succ_le hid), hpids⟩
  · rw [mem_push, h.mem]
    constructor
    · rintro (⟨rfl, rfl⟩ | ⟨hai, c, hc, hcq⟩)
      · exact ⟨fun hai => hne _ i hi hai.symm, n, hnew, hn.parent⟩
      · exact ⟨hai, c, hold a c hc, hcq⟩
    · rintro ⟨hai, c, hc, hcq⟩
      rcases hcases a c hc with ⟨hac, rfl⟩ | ⟨-, hc⟩
      · exact .inl ⟨hac, hcq.symm.trans hn.parent⟩
      · exact .inr ⟨hai, c, hc, hcq⟩
  · rcases hcases a c ha with ⟨-, rfl⟩ | ⟨-, ha⟩
    · refine ⟨p, by rw [hn.parent]; exact hold _ p hp, ?_, .inl hn.forker.symm⟩
      rw [hn.id]
      exact (h.proc parent p hp).2.2.2.1
    · obtain ⟨p', hp', hlt, hfork⟩ := h.parent a c ha hai
      exact ⟨p', hold _ p' hp', hlt, hfork⟩
  · rcases hcases a c ha with ⟨-, rfl⟩ | ⟨-, ha⟩
    · rw [hn.state, hn.id]
      exact ⟨hn.refcount, nofun, hn.pid, Nat.lt_succ_self _, h.unborn s.born (Nat.le_refl _)⟩
    · obtain ⟨hcount, hdead, hpid, hlt, hexit⟩ := h.proc a c ha
      exact ⟨hcount, hdead, hpid, Nat.lt_succ_of_lt hlt, hexit⟩
  · rcases hcases a c ha with ⟨-, rfl⟩ | ⟨-, ha⟩
    · simp [hn.state] at hz
    rw [update_of_ne (by
      rintro rfl
      rw [hp, some.injEq] at ha
      rw [← ha, hrunning] at hz
      cases hz)]
    exact h.childless a c ha hz
  · rcases hcases a c ha with ⟨hac, rfl⟩ | ⟨-, ha⟩ <;> rcases hcases b d hb with ⟨hbc, rfl⟩ | ⟨-, hb⟩
    · rw [hac, hbc]
    · exact absurd (hid.symm.trans hn.id) (Nat.ne_of_lt (h.proc b d hb).2.2.2.1)
    · exact absurd (hid.trans hn.id) (Nat.ne_of_lt (h.proc a c ha).2.2.2.1)
    · exact h.ids a b c d ha hb hid
  · obtain ⟨hexit, hgone⟩ := h.reaped e he
    refine ⟨hexit, fun a c ha => ?_⟩
    rcases hcases a c ha with ⟨-, rfl⟩ | ⟨-, ha⟩
    · rw [hn.id]
      intro hid
      simp [← hid, h.unborn s.born (Nat.le_refl _)] at hexit
    · exact hgone a c ha
  · rcases Nat.lt_succ_iff_lt_or_eq.mp hid with hlt | rfl
    · refine (h.all id hlt).imp_left ?_
      rintro ⟨a, c, ha, hc⟩
      exact ⟨a, c, hold a c ha, hc⟩
    · exact .inl ⟨child, n, hnew, hn.id⟩

/-! ## Exit -/

/-- The processes after `a` has exited: its children have init as their parent, and it is a zombie. -/
def exitView (s : Procs) (kids : Nat → List Nat) (a : Nat) (code : Int) (b : Nat) : Option Proc :=
  if b ∈ kids a then (s.view b).map fun c => { c with parent := s.initProc }
  else if b = a then (s.view b).map fun c => { c with state := .zombie, exitCode := code }
  else s.view b

/-- What an exit changes of a process: the parent of a child of `a`, and the state and code of `a`. -/
theorem exitView_some (h : Family s kids) (ha : s.view a = some p) (hd : s.exitView kids a code b = some d) :
    ∃ c, s.view b = some c ∧ d.id = c.id ∧ d.forker = c.forker ∧ d.pid = c.pid ∧ d.refcount = c.refcount ∧
      (b ∈ kids a ∧ d.parent = s.initProc ∨ b ∉ kids a ∧ d.parent = c.parent) ∧
      (b = a ∧ d.state = .zombie ∧ d.exitCode = code ∨
        b ≠ a ∧ d.state = c.state ∧ d.exitCode = c.exitCode) := by
  unfold exitView at hd
  by_cases hb : b ∈ kids a
  · rw [if_pos hb] at hd
    obtain ⟨c, hc, rfl⟩ := map_eq_some_iff.mp hd
    have hba : b ≠ a := by
      rintro rfl
      exact h.not_mem_self ha hb
    exact ⟨c, hc, rfl, rfl, rfl, rfl, .inl ⟨hb, rfl⟩, .inr ⟨hba, rfl, rfl⟩⟩
  · rw [if_neg hb] at hd
    by_cases hba : b = a
    · rw [if_pos hba] at hd
      obtain ⟨c, hc, rfl⟩ := map_eq_some_iff.mp hd
      exact ⟨c, hc, rfl, rfl, rfl, rfl, .inr ⟨hb, rfl⟩, .inl ⟨hba, rfl, rfl⟩⟩
    · rw [if_neg hba] at hd
      exact ⟨d, hd, rfl, rfl, rfl, rfl, .inr ⟨hb, rfl⟩, .inr ⟨hba, rfl, rfl⟩⟩

theorem exitView_of_view (hc : s.view b = some c) : ∃ d, s.exitView kids a code b = some d ∧ d.id = c.id := by
  unfold exitView
  rw [hc]
  split
  · exact ⟨_, rfl, rfl⟩
  · split
    · exact ⟨_, rfl, rfl⟩
    · exact ⟨c, rfl, rfl⟩

theorem Family.exit (h : Family s kids) (ha : s.view a = some p) (hne : a ≠ s.initProc)
    (hview : s'.view = s.exitView kids a code)
    (hrest : s' = { s with
      procs := s'.procs, procList := s'.procList, exits := update s.exits p.id (some code) }) :
    Family s' (update (update kids a []) s.initProc ((kids a).reverse ++ kids s.initProc)) := by
  have hsome : ∀ b d, s'.view b = some d → _ := fun b d hd => exitView_some h ha (hview ▸ hd)
  have hkept : ∀ b c, s.view b = some c → ∃ d, s'.view b = some d ∧ d.id = c.id := fun b c hc => by
    rw [hview]
    exact exitView_of_view hc
  have hexit : ∀ id, id ≠ p.id → update s.exits p.id (some code) id = s.exits id := fun id hid =>
    update_of_ne hid ..
  have hself : ∀ b c, s.view b = some c → b ≠ a → c.id ≠ p.id := fun b c hc hb hid =>
    hb (h.ids b a c p hc ha hid)
  have hforker : ∀ id, (s.exits id).isSome → (update s.exits p.id (some code) id).isSome := fun id hid => by
    by_cases hp : id = p.id
    · rw [hp, update_self]
      rfl
    · rwa [hexit id hp]
  obtain ⟨i, hi, hirunning, hizero⟩ := h.init
  have hinitSelf : s.initProc ∉ kids a := fun hin => ((h.mem a s.initProc).mp hin).1 rfl
  rw [hrest]
  refine ⟨fun q b => ?_, ?_, fun b d hd hbi => ?_, fun b d hd => ?_, fun b d hd hz => ?_,
    fun b1 b2 d1 d2 hd1 hd2 hid => ?_, fun e he => ?_, h.once, fun id hid => ?_, fun id hid => ?_, h.pids⟩
  · have hkids : b ∈ update (update kids a []) s.initProc ((kids a).reverse ++ kids s.initProc) q ↔
        b ∈ kids a ∧ q = s.initProc ∨ b ∉ kids a ∧ b ∈ kids q := by
      by_cases hq : q = s.initProc
      · subst hq
        rw [update_self, mem_append, mem_reverse]
        tauto
      rw [update_of_ne hq]
      by_cases hqa : q = a
      · subst hqa
        simp [hq]
      rw [update_of_ne hqa]
      have hdisjoint : b ∈ kids q → b ∉ kids a := fun hbq hba => by
        obtain ⟨-, c, hc, hcq⟩ := (h.mem q b).mp hbq
        obtain ⟨-, c', hc', hca⟩ := (h.mem a b).mp hba
        cases hc.symm.trans hc'
        exact hqa (hcq.symm.trans hca)
      tauto
    rw [hkids]
    constructor
    · rintro (⟨hba, rfl⟩ | ⟨hba, hbq⟩)
      · obtain ⟨hbi, c, hc, -⟩ := (h.mem a b).mp hba
        refine ⟨hbi, { c with parent := s.initProc }, (congrFun hview b).trans ?_, rfl⟩
        rw [exitView, if_pos hba, hc]
        rfl
      · obtain ⟨hbi, c, hc, hcq⟩ := (h.mem q b).mp hbq
        obtain ⟨d, hd, -⟩ := hkept b c hc
        obtain ⟨c', hc', -, -, -, -, hparent, -⟩ := hsome b d hd
        cases hc.symm.trans hc'
        exact ⟨hbi, d, hd, (hparent.resolve_left fun hp => hba hp.1).2.trans hcq⟩
    · rintro ⟨hbi, d, hd, hdq⟩
      obtain ⟨c, hc, -, -, -, -, hparent, -⟩ := hsome b d hd
      rcases hparent with ⟨hba, hp⟩ | ⟨hba, hp⟩
      · exact .inl ⟨hba, hdq.symm.trans hp⟩
      · exact .inr ⟨hba, (h.mem q b).mpr ⟨hbi, c, hc, hp.symm.trans hdq⟩⟩
  · refine ⟨i, (congrFun hview s.initProc).trans ?_, hirunning, hizero⟩
    rw [exitView, if_neg hinitSelf, if_neg hne.symm, hi]
  · obtain ⟨c, hc, hid, hfork, -, -, hparent, -⟩ := hsome b d hd
    obtain ⟨p', hp', hlt, hforked⟩ := h.parent b c hc hbi
    rw [hid, hfork]
    rcases hparent with ⟨hba, hp⟩ | ⟨hba, hp⟩
    · -- the old parent is the process that exits
      obtain ⟨-, c', hc', hca⟩ := (h.mem a b).mp hba
      cases hc.symm.trans hc'
      rw [hca, ha, some.injEq] at hp'
      subst hp'
      obtain ⟨i', hi', hiid⟩ := hkept s.initProc i hi
      refine ⟨i', hp ▸ hi', ?_, .inr ⟨hp, ?_⟩⟩
      · rw [hiid, hizero]
        exact Nat.lt_of_le_of_lt (Nat.zero_le _) hlt
      · rcases hforked with hforked | ⟨-, hforked⟩
        · rw [← hforked]
          dsimp only
          rw [update_self]
          rfl
        · exact hforker _ hforked
    · obtain ⟨d', hd', hdid⟩ := hkept c.parent p' hp'
      refine ⟨d', hp ▸ hd', by rw [hdid]; exact hlt, ?_⟩
      rw [hdid, hp]
      exact hforked.imp_right fun hf => ⟨hf.1, hforker _ hf.2⟩
  · obtain ⟨c, hc, hid, -, hpid, hcount, -, hstate⟩ := hsome b d hd
    obtain ⟨hone, hdead, hpos, hlt, hexitc⟩ := h.proc b c hc
    refine ⟨hcount.trans hone, ?_, by rw [hpid]; exact hpos, by rw [hid]; exact hlt, ?_⟩
    · rcases hstate with ⟨-, hz, -⟩ | ⟨-, hz, -⟩ <;> rw [hz]
      · nofun
      · exact hdead
    · rcases hstate with ⟨hba, hz, hcode⟩ | ⟨hba, hz, hcode⟩
      · subst hba
        cases ha.symm.trans hc
        rw [hz, hcode, hid]
        exact update_self ..
      · rw [hz, hcode, hid]
        exact (hexit _ (hself b c hc hba)).trans hexitc
  · obtain ⟨c, hc, -, -, -, -, -, hstate⟩ := hsome b d hd
    have hbi : b ≠ s.initProc := by
      rintro rfl
      rw [hi, some.injEq] at hc
      rcases hstate with ⟨hba, -⟩ | ⟨-, hst, -⟩
      · exact hne hba.symm
      · simp [hst, ← hc, hirunning] at hz
    rw [update_of_ne hbi]
    by_cases hba : b = a
    · rw [hba, update_self]
    · rw [update_of_ne hba]
      rcases hstate with ⟨hba', -⟩ | ⟨-, hst, -⟩
      · exact absurd hba' hba
      · exact h.childless b c hc (hst.symm.trans hz)
  · obtain ⟨c1, hc1, hid1, -⟩ := hsome b1 d1 hd1
    obtain ⟨c2, hc2, hid2, -⟩ := hsome b2 d2 hd2
    exact h.ids b1 b2 c1 c2 hc1 hc2 (by rw [← hid1, ← hid2, hid])
  · obtain ⟨hcode, hgone⟩ := h.reaped e he
    refine ⟨(hexit e.1 (hgone a p ha).symm).trans hcode, fun b d hd => ?_⟩
    · obtain ⟨c, hc, hid, -⟩ := hsome b d hd
      rw [hid]
      exact hgone b c hc
  · refine (h.all id hid).imp_left ?_
    rintro ⟨b, c, hc, rfl⟩
    obtain ⟨d, hd, hdid⟩ := hkept b c hc
    exact ⟨b, d, hd, hdid⟩
  · exact (hexit id (Nat.ne_of_gt (Nat.lt_of_lt_of_le (h.proc a p ha).2.2.2.1 hid))).trans (h.unborn id hid)

/-! ## Wait -/

theorem Family.reap (h : Family s kids) (hx : s.view x = some c) (hz : c.state = .zombie)
    (hq : kids q = A ++ x :: B) (hnodup : (kids q).Nodup) (hview : s'.view = update s.view x none)
    (hrest : s' = { s with
      procs := s'.procs, procList := s'.procList, reaped := (c.id, c.exitCode) :: s.reaped }) :
    Family s' (update kids q (A ++ B)) := by
  have hcases : ∀ a d, s'.view a = some d → a ≠ x ∧ s.view a = some d := fun a d ha => by
    by_cases hax : a = x
    · simp [hview, hax, update_self] at ha
    · rw [hview, update_of_ne hax] at ha
      exact ⟨hax, ha⟩
  have hold : ∀ a d, a ≠ x → s.view a = some d → s'.view a = some d := fun a d hax ha => by
    rw [hview, update_of_ne hax, ha]
  have hxq : x ∈ kids q := by simp [hq]
  have hxparent : c.parent = q := by
    obtain ⟨-, c', hc', hparent⟩ := (h.mem q x).mp hxq
    cases hx.symm.trans hc'
    exact hparent
  have hexit : s.exits c.id = some c.exitCode := by rw [(h.proc x c hx).2.2.2.2, if_pos hz]
  obtain ⟨i, hi, hirunning, hizero⟩ := h.init
  have hxi : x ≠ s.initProc := ((h.mem q x).mp hxq).1
  -- a zombie is nobody's parent
  have hnoparent : ∀ a d, s.view a = some d → a ≠ s.initProc → d.parent ≠ x := fun a d ha hai hdx => by
    have hin := h.mem_parent ha hai
    simp [hdx, h.childless x c hx hz] at hin
  rw [hrest]
  refine ⟨fun r a => ?_, ⟨i, hold _ i hxi.symm hi, hirunning, hizero⟩, fun a d ha hai => ?_,
    fun a d ha => h.proc a d (hcases a d ha).2, fun a d ha hzd => ?_,
    fun a b d e ha hb hid => h.ids a b d e (hcases a d ha).2 (hcases b e hb).2 hid, fun e he => ?_, ?_,
    fun id hid => ?_, h.unborn, h.pids⟩
  · have hkids : a ∈ update kids q (A ++ B) r ↔ a ≠ x ∧ a ∈ kids r := by
      by_cases hr : r = q
      · subst hr
        rw [hq] at hnodup
        have hout : x ∉ A ++ B := (nodup_middle.mp hnodup).notMem
        have hmiddle : a ∈ A ++ x :: B ↔ a = x ∨ a ∈ A ++ B := by
          simp only [mem_append, mem_cons]
          tauto
        rw [update_self, hq, hmiddle]
        constructor
        · intro ha
          refine ⟨?_, .inr ha⟩
          rintro rfl
          exact hout ha
        · rintro ⟨hax, ha⟩
          exact ha.resolve_left hax
      · rw [update_of_ne hr]
        refine ⟨fun ha => ⟨?_, ha⟩, And.right⟩
        rintro rfl
        obtain ⟨-, c', hc', hparent⟩ := (h.mem r a).mp ha
        cases hx.symm.trans hc'
        exact hr (hparent.symm.trans hxparent)
    rw [hkids, h.mem]
    constructor
    · rintro ⟨hax, hai, d, hd, hdr⟩
      exact ⟨hai, d, hold a d hax hd, hdr⟩
    · rintro ⟨hai, d, hd, hdr⟩
      obtain ⟨hax, hd⟩ := hcases a d hd
      exact ⟨hax, hai, d, hd, hdr⟩
  · obtain ⟨-, ha⟩ := hcases a d ha
    obtain ⟨p', hp', hrest⟩ := h.parent a d ha hai
    exact ⟨p', hold _ p' (hnoparent a d ha hai) hp', hrest⟩
  · obtain ⟨-, ha⟩ := hcases a d ha
    have hkids := h.childless a d ha hzd
    rw [update_of_ne (by rintro rfl; rw [hkids] at hxq; cases hxq), hkids]
  · rcases mem_cons.mp he with rfl | he
    · refine ⟨hexit, fun a d ha hid => ?_⟩
      obtain ⟨hax, ha⟩ := hcases a d ha
      exact hax (h.ids a x d c ha hx hid)
    · exact ⟨(h.reaped e he).1, fun a d ha => (h.reaped e he).2 a d (hcases a d ha).2⟩
  · refine nodup_cons.mpr ⟨fun hin => ?_, h.once⟩
    obtain ⟨e, he, heid⟩ := mem_map.mp hin
    exact (h.reaped e he).2 x c hx heid.symm
  · rcases h.all id hid with ⟨a, d, ha, rfl⟩ | hin
    · by_cases hax : a = x
      · subst hax
        cases hx.symm.trans ha
        exact .inr mem_cons_self
      · exact .inl ⟨a, d, hold a d hax ha, rfl⟩
    · exact .inr (mem_cons_of_mem _ hin)

/-! ## The functions -/

def Running (s : Procs) (a : Nat) : Prop := ∃ p, s.procs a = some p ∧ p.state = .running

/-- Running processes fork and wait, running processes other than init exit, and the allocator gives
memory that is not in use. -/
def callerOk (op : ProcOp) (s : Procs) : Prop :=
  match op with
  | .fork parent child _ => s.Running parent ∧ child ≠ 0 ∧ s.procs child = none
  | .exit a _ => s.Running a ∧ a ≠ s.initProc
  | .wait parent _ => s.Running parent

/-- `next_pid` does not overflow. -/
def pidsFit (op : ProcOp) (s : Procs) : Prop :=
  match op with
  | .fork .. => s.nextPid + 1 < 2 ^ 31
  | _ => True

theorem Lists.congr {skip : Nat} (h : Lists s kids skip) (hprocs : s'.procs = s.procs) :
    Lists s' kids skip := by
  have hnext : s'.next = s.next := by
    unfold next
    rw [hprocs]
  obtain ⟨hnull, hchain, hnodup, hdisjoint, hmember, howner⟩ := h
  refine ⟨?_, ?_, hnodup, hdisjoint, ?_, ?_⟩ <;> simpa only [hprocs, hnext]

theorem view_congr (hprocs : s'.procs = s.procs) : s'.view = s.view := by
  unfold view
  rw [hprocs]

theorem allocPid_nextPid (hpos : 0 < s.nextPid) (hlt : s.nextPid + 1 < 2 ^ 31) :
    (s.nextPid + 1).bmod (2 ^ 32) = s.nextPid + 1 := by
  rw [Int.bmod_eq_of_le] <;> omega

/-- The process that `proc_fork` makes, before it is in a list. -/
def newChild (s : Procs) (parent forker : Nat) : Proc :=
  ⟨s.nextPid, .running, parent, 0, 0, 0, 1, s.born, forker⟩

theorem Lists.not_mem (h : Lists s kids 0) (hfree : s.procs child = none) (q : Nat) : child ∉ kids q :=
  fun hq => by
    obtain ⟨c, hc⟩ := h.member q child hq
    rw [hfree] at hc
    cases hc

/-- A child that was made and is not needed is freed again. -/
theorem procAlloc_unref (s : Procs) (forker : Nat) (hne : child ≠ 0) (hfree : s.procs child = none) :
    (s.procAlloc child forker).procUnref child =
      some { s with nextPid := (s.nextPid + 1).bmod (2 ^ 32) } := by
  rw [procUnref_eq (p := s.newChild 0 forker) hne (update_self ..) rfl]
  simp only [procAlloc, allocPid, set, update_idem, erase_cons_head, ← hfree, update_eq_self]

/-- The child is made and put in front of the list of its parent. -/
theorem procAlloc_addChild (forker : Nat) (hl : Lists s kids 0) (hp : s.procs parent = some p)
    (hchild : child ≠ 0) (hfree : s.procs child = none) :
    ∃ s', ((s.procAlloc child forker).set child (s.newChild parent forker)).procAddChild parent child =
        some s' ∧ s' = { s.procAlloc child forker with procs := s'.procs } ∧
      s'.view = update s.view child (some (s.newChild parent forker)) ∧
      Lists s' (update kids parent (child :: kids parent)) 0 := by
  have hne : child ≠ parent := by
    rintro rfl
    simp [hfree] at hp
  have hprocs : ((s.procAlloc child forker).set child (s.newChild parent forker)).procs =
      (s.set child (s.newChild parent forker)).procs := update_idem ..
  have hl2 := hl.replace hchild (hl.not_mem hfree) (hl.owner child hfree) (fun n hn => by cases hn; rfl)
    hprocs
  have hp2 : ((s.procAlloc child forker).set child (s.newChild parent forker)).procs parent = some p := by
    rw [hprocs, set_of_ne hne.symm, hp]
  obtain ⟨s', hadd, hrel, -, hl'⟩ :=
    hl2.addChild hp2 (set_self ..) hne (hl.ne_zero hp) (hl.not_mem hfree)
  refine ⟨s', hadd, hrel.rest, ?_, hl'⟩
  rw [hrel.view, view_congr hprocs, view_set]
  rfl

/-- No thread for the child: it is taken out of the list and freed. -/
theorem removeChild_unref (hl : Lists s kids 0) (hfree : s.procs child = none) (hchild : child ≠ 0)
    (hp : s.procs parent = some p) (hn : n.refcount = 1) {s3 : Procs}
    (hview3 : s3.view = update s.view child (some n))
    (hl3 : Lists s3 (update kids parent (child :: kids parent)) 0) (hfuel : 0 < fuel) :
    ∃ s4 s', s3.procRemoveChild fuel parent child = some s4 ∧ s4.procUnref child = some s' ∧
      s' = { s3 with procs := s'.procs, procList := s3.procList.erase child } ∧ s'.view = s.view ∧
      Lists s' kids 0 := by
  have hne : parent ≠ child := by
    rintro rfl
    simp [hfree] at hp
  obtain ⟨p3, hp3, -⟩ := exists_of_view (s := s3) (a := parent) (c := p.core)
    (by rw [hview3, update_of_ne hne, view_eq hp])
  obtain ⟨s4, hremove, hrel, hl4⟩ := hl3.removeChild (A := []) (B := kids parent) hp3 (hl.ne_zero hp)
    (update_self ..) hfuel
  rw [nil_append, update_idem, update_eq_self] at hl4
  obtain ⟨c4, hc4, hcore⟩ := exists_of_view (s := s4) (a := child) (c := n)
    (by rw [hrel.view, hview3, update_self])
  have hcount : c4.refcount = 1 := (congrArg Proc.refcount hcore).trans hn
  refine ⟨s4, _, hremove, procUnref_eq hchild hc4 hcount, ?_, ?_, ?_⟩
  · rw [hrel.rest]
  · refine (view_update s4 child none).trans ?_
    rw [hrel.view, hview3, update_idem, map_none, ← view_eq_none.mpr hfree, update_eq_self]
  · exact hl4.replace (o := none) hchild (hl.not_mem hfree) (hl.owner child hfree) nofun rfl

theorem procFork_spec {failure : Option ForkFailure} (hl : Lists s kids 0) (hf : Family s kids)
    (hok : callerOk (.fork parent child failure) s) (hpid : s.nextPid + 1 < 2 ^ 31) (hfuel : 0 < fuel) :
    ∃ ret s' kids', s.procFork fuel parent child failure = some (ret, s') ∧ Lists s' kids' 0 ∧
      Family s' kids' := by
  obtain ⟨⟨p, hp, hrunning⟩, hchild, hfree⟩ := hok
  have hparent : parent ≠ 0 := hl.ne_zero hp
  have hnext := allocPid_nextPid hf.pids.1 hpid
  have hpids : 0 < s.nextPid + 1 ∧ s.nextPid + 1 < 2 ^ 31 := ⟨by have := hf.pids.1; omega, hpid⟩
  by_cases hproc : failure = some .proc
  · exact ⟨-ENOMEM, s, kids, by simp [procFork, hparent, hproc], hl, hf⟩
  by_cases hearly : failure = some .vmm ∨ failure = some .fdtable
  · refine ⟨-ENOMEM, { s with nextPid := s.nextPid + 1 }, kids, ?_, hl.congr rfl, hf.congr rfl rfl hpids⟩
    have hunref := procAlloc_unref s p.id hchild hfree
    rw [hnext] at hunref
    simp [procFork, hparent, hproc, hp, hearly, hunref]
  have hcall : (s.procAlloc child p.id).procs child = some (s.newChild 0 p.id) := update_self ..
  obtain ⟨s3, hadd, hrest3, hview3, hl3⟩ := procAlloc_addChild p.id hl hp hchild hfree
  have hadd' : ((s.procAlloc child p.id).set child { s.newChild 0 p.id with parent := parent }).procAddChild
    parent child = some s3 := hadd
  have hnextPid : s3.nextPid = s.nextPid + 1 := by
    rwa [hrest3]
  by_cases hthread : failure = some .thread
  · obtain ⟨s4, s', hremove, hunref, hrest, hview, hl'⟩ :=
      removeChild_unref hl hfree hchild hp rfl hview3 hl3 hfuel
    refine ⟨-ENOMEM, s', kids, ?_, hl', ?_⟩
    · simp [procFork, hparent, hp, hcall, hadd', hthread, hremove, hunref]
    · refine hf.congr hview ?_ ?_ <;> rw [hrest]
      · rw [hrest3]
        rfl
      · rwa [hnextPid]
  · refine ⟨s.nextPid, { s3 with born := s3.born + 1 }, _, ?_, hl3.congr rfl, ?_⟩
    · simp [procFork, hparent, hproc, hp, hearly, hcall, hadd', hthread]
      rfl
    · refine hf.fork (view_eq hp) hrunning (view_eq_none.mpr hfree) ⟨rfl, rfl, rfl, hf.pids.1, rfl, rfl⟩
        hview3 ?_ (by rw [hnextPid]; exact hpids)
      rw [hrest3]
      rfl

/-- The exiting process, whose children the loop moves, is left out of the lists. -/
theorem Lists.cut (h : Lists s kids 0) (a : Nat) : Lists s (update kids a []) a := by
  have hsub : ∀ q b, b ∈ update kids a [] q → b ∈ kids q := fun q b hb => by
    by_cases hq : q = a
    · simp [hq, update_self] at hb
    · rwa [update_of_ne hq] at hb
  refine ⟨h.null, fun q p hq hp => ?_, ?_, fun q q' b hb hb' => h.disjoint q q' b (hsub q b hb)
    (hsub q' b hb'), fun q b hb => h.member q b (hsub q b hb), fun q hq => ?_⟩
  · rw [update_of_ne hq]
    exact h.chain q p (h.ne_zero hp) hp
  · exact (forall_update_iff kids fun _ l => l.Nodup).mpr ⟨nodup_nil, fun q _ => h.nodup q⟩
  · refine eq_nil_iff_forall_not_mem.mpr fun b hb => ?_
    exact not_mem_nil (h.owner q hq ▸ hsub q b hb)

/-- `proc->children = NULL`. -/
theorem Lists.clear (h : Lists s kids a) (ha : s.procs a = some p) (hkids : kids a = []) :
    Lists (s.set a { p with children := 0 }) kids 0 := by
  have hnext : (s.set a { p with children := 0 }).next = s.next :=
    next_set_same (p := { p with children := 0 }) ha rfl
  refine h.of_same (set_eq_none ha) (fun q p' _ hp' => ?_) h.nodup h.disjoint h.member h.owner
  by_cases hqa : q = a
  · subst hqa
    rw [set_self, some.injEq] at hp'
    subst hp'
    rw [hkids]
    rfl
  · rw [set_of_ne hqa] at hp'
    rw [hnext]
    exact h.chain q p' hqa hp'

theorem wakeWaiters_eq (h : a ≠ 0 → ∃ p, s.procs a = some p) : s.wakeWaiters a = some s := by
  unfold wakeWaiters
  by_cases ha : a = 0
  · rw [if_pos ha]
  · obtain ⟨p, hp⟩ := h ha
    rw [if_neg ha, hp]
    rfl

/-- The first part of `proc_exit`: the process is a zombie with its exit code. -/
def markZombie (s : Procs) (a : Nat) (p : Proc) (code : Int) : Procs :=
  { s.set a { p with state := .zombie, exitCode := code } with
    exits := update s.exits p.id (some code) }

theorem procExit_spec (hl : Lists s kids 0) (hf : Family s kids) (hok : callerOk (.exit a code) s)
    (hfuel : (kids a).length < fuel) :
    ∃ s' kids', s.procExit fuel a code = some s' ∧ Lists s' kids' 0 ∧ Family s' kids' := by
  obtain ⟨⟨p, hp, hrunning⟩, hne⟩ := hok
  obtain ⟨i, hi, -⟩ := hf.init
  obtain ⟨i, hi, -⟩ := exists_of_view hi
  have hself := hf.not_mem_self (view_eq hp)
  have hl1 : Lists (s.markZombie a p code) kids 0 :=
    (hl.setSame (p := { p with state := .zombie, exitCode := code }) hp rfl rfl).congr rfl
  have hchain : Chain (s.markZombie a p code).next p.children (kids a) :=
    hl1.chain a { p with state := .zombie, exitCode := code } (hl.ne_zero hp) (set_self ..)
  have hinit1 : (s.markZombie a p code).procs s.initProc = some i := (set_of_ne hne.symm).trans hi
  obtain ⟨s2, hloop, hrest2, hview2, hl2⟩ := exitLoop_spec (hl1.cut a) ⟨i, hinit1⟩ hne.symm hchain
    (hl.nodup a) (fun b hb => by
      refine ⟨hl1.member a b hb, ((hf.mem a b).mp hb).1, fun q hq => ?_⟩
      by_cases hqa : q = a
      · simp [hqa, update_self] at hq
      · rw [update_of_ne hqa] at hq
        exact hqa (hl.disjoint q a b hq hb)) hfuel
  have hexitView : s2.view = s.exitView kids a code := by
    have hview1 : (s.markZombie a p code).view =
        update s.view a (some { p.core with state := .zombie, exitCode := code }) :=
      view_set s a { p with state := .zombie, exitCode := code }
    funext b
    rw [hview2 b, hview1, exitView]
    by_cases hb : b ∈ kids a
    · rw [if_pos hb, if_pos hb, update_of_ne (by rintro rfl; exact hself hb)]
      rfl
    rw [if_neg hb, if_neg hb]
    by_cases hba : b = a
    · subst hba
      rw [update_self, if_pos rfl, view_eq hp]
      rfl
    · rw [update_of_ne hba, if_neg hba]
  obtain ⟨p2, hp2, hcore2⟩ := exists_of_view (s := s2) (a := a)
    (c := { p.core with state := .zombie, exitCode := code })
    (by rw [hexitView, exitView, if_neg hself, if_pos rfl, view_eq hp]; rfl)
  have hinit2 : s2.initProc = s.initProc := by
    rw [hrest2]
    rfl
  change Lists s2 (update (update kids a []) s.initProc
    ((kids a).reverse ++ update kids a [] s.initProc)) a at hl2
  rw [update_of_ne hne.symm] at hl2
  have hl3 := hl2.clear hp2 (by rw [update_of_ne hne, update_self])
  have hf3 : Family (s2.set a { p2 with children := 0 }) (update (update kids a []) s.initProc
      ((kids a).reverse ++ kids s.initProc)) := by
    refine hf.exit (view_eq hp) hne
      ((view_set_same (p := { p2 with children := 0 }) hp2 rfl).trans hexitView) ?_
    rw [set, hrest2]
    rfl
  have hparent3 : ∃ q, (s2.set a { p2 with children := 0 }).procs p2.parent = some q := by
    obtain ⟨q, hq, -⟩ := hf3.parent a _ (view_eq (set_self ..)) fun ha => hne (ha.trans hinit2)
    obtain ⟨q, hq, -⟩ := exists_of_view hq
    exact ⟨q, hq⟩
  have hinit3 : ∃ q, (s2.set a { p2 with children := 0 }).procs s2.initProc = some q := by
    obtain ⟨q, hq, -⟩ := hf3.init
    obtain ⟨q, hq, -⟩ := exists_of_view hq
    exact ⟨q, hq⟩
  have hstate : ¬ (p.state = .zombie ∨ p.state = .dead) := by
    rw [hrunning]
    decide
  refine ⟨s2.set a { p2 with children := 0 }, _, ?_, hl3, hf3⟩
  rw [procExit, hp, bind_eq_bind, bind_some, if_neg hstate]
  refine bind_eq_some_iff.mpr ⟨s2, hloop, bind_eq_some_iff.mpr ⟨p2, hp2, ?_⟩⟩
  dsimp only
  rw [wakeWaiters_eq (a := p2.parent) fun _ => hparent3, bind_eq_bind, bind_some]
  exact wakeWaiters_eq fun _ => hinit3

/-- The zombie that `proc_wait` has unlinked is freed. -/
theorem reap_eq (hx : x ≠ 0) (hcount : c.refcount = 1) :
    ({ s.set x { c with state := .dead } with reaped := (c.id, c.exitCode) :: s.reaped } :
        Procs).procUnref x =
      some { s with
        procs := update s.procs x none
        procList := s.procList.erase x
        reaped := (c.id, c.exitCode) :: s.reaped } := by
  rw [procUnref_eq (p := { c with state := .dead }) hx (update_self ..) hcount]
  simp only [set, update_idem]

/-- A pass of `proc_wait` that finds a zombie. -/
theorem procWait_zombie (hl : Lists s kids 0) (hf : Family s kids) (hp : s.procs parent = some p)
    (hq : kids parent = A ++ x :: B) (hnot : ∀ a ∈ A, ¬ s.Waited pid a) (hc : s.procs x = some c)
    (hmatch : Matches pid c) (hz : c.state = .zombie) (hfuel : A.length < fuel) :
    ∃ s', s.procWait fuel parent pid = some (.returned c.pid (some c.exitCode), s') ∧
      s'.reaped = (c.id, c.exitCode) :: s.reaped ∧ Lists s' (update kids parent (A ++ B)) 0 ∧
      Family s' (update kids parent (A ++ B)) := by
  have hx := hl.ne_zero hc
  have hpn := hl.ne_zero hp
  have hchain := hl.chain parent p hpn hp
  have hmember := hl.member parent
  have hnodup := hl.nodup parent
  have hxin : x ∈ kids parent := by simp [hq]
  rw [hq] at hchain hmember
  have hfind := findLoop_some 0 hchain hnot ⟨c, hc, hmatch, hz⟩
    (fun a ha => hmember a (mem_append_left _ ha)) hfuel
  obtain ⟨s1, hlink, hrel, hl1⟩ := hl.unlink hp hpn hq
  rw [next_eq hc] at hlink
  obtain ⟨c1, hc1, hcore⟩ := exists_of_view (s := s1) (a := x) (c := c.core)
    (by rw [hrel.view, view_eq hc])
  have hid : c1.core.id = c.core.id := congrArg Proc.id hcore
  have hcode : c1.core.exitCode = c.core.exitCode := congrArg Proc.exitCode hcore
  have hpid : c1.core.pid = c.core.pid := congrArg Proc.pid hcore
  have hcount : c1.refcount = 1 := (congrArg Proc.refcount hcore).trans (hf.proc x _ (view_eq hc)).1
  have hchildless := hf.childless x _ (view_eq hc) hz
  have hxp : x ≠ parent := by
    rintro rfl
    simp [hchildless] at hxin
  have hreaped : s1.reaped = s.reaped := by rw [hrel.rest]
  change c1.id = c.id at hid
  change c1.exitCode = c.exitCode at hcode
  change c1.pid = c.pid at hpid
  refine ⟨{ s1 with
    procs := update s1.procs x none
    procList := s1.procList.erase x
    reaped := (c.id, c.exitCode) :: s.reaped }, ?_, rfl, ?_, ?_⟩
  · rw [procWait, hp, bind_eq_bind, bind_some, hfind, bind_eq_bind, bind_some]
    dsimp only
    rw [hc, bind_eq_bind, bind_some, hlink, bind_some, hc1, bind_some]
    refine bind_eq_some_iff.mpr ⟨_, reap_eq hx hcount, ?_⟩
    rw [hid, hcode, hpid, hreaped]
  · refine hl1.replace (o := none) hx (fun q hin => ?_) ?_ nofun rfl
    · by_cases hqp : q = parent
      · rw [hqp, update_self] at hin
        rw [hq] at hnodup
        exact (nodup_middle.mp hnodup).notMem hin
      · rw [update_of_ne hqp] at hin
        exact hqp (hl.disjoint q parent x hin hxin)
    · rw [update_of_ne hxp, hchildless]
  · refine hf.reap (view_eq hc) hz hq hnodup ?_ ?_
    · rw [← hrel.view]
      exact view_update s1 x none
    · rw [hrel.rest]
      rfl

/-- What a pass of `proc_wait` says about the children. -/
inductive WaitCase (s : Procs) (kids : List Nat) (pid : Int) : WaitResult → Procs → Prop
  | reap {x : Nat} {c : Proc} {s' : Procs} (hx : x ∈ kids) (hc : s.procs x = some c)
      (hmatch : Matches pid c) (hz : c.state = .zombie)
      (hreaped : s'.reaped = (c.id, c.exitCode) :: s.reaped) :
      WaitCase s kids pid (.returned c.pid (some c.exitCode)) s'
  | block (hno : ∀ x ∈ kids, ¬ s.Waited pid x)
      (hsome : ∃ x ∈ kids, ∃ c, s.procs x = some c ∧ Matches pid c) : WaitCase s kids pid .blocked s
  | echild (hnone : ∀ x ∈ kids, ∀ c, s.procs x = some c → ¬ Matches pid c) :
      WaitCase s kids pid (.returned (-ECHILD) none) s

theorem procWait_spec (pid : Int) (hl : Lists s kids 0) (hf : Family s kids) (hok : s.Running parent)
    (hfuel : (kids parent).length < fuel) :
    ∃ r s' kids', s.procWait fuel parent pid = some (r, s') ∧ Lists s' kids' 0 ∧ Family s' kids' ∧
      WaitCase s (kids parent) pid r s' := by
  classical
  obtain ⟨p, hp, -⟩ := hok
  by_cases hw : ∃ x ∈ kids parent, s.Waited pid x
  · obtain ⟨x, hx⟩ := isSome_iff_exists.mp (List.find?_isSome.mpr
      (hw.imp fun x hx => ⟨hx.1, decide_eq_true hx.2⟩))
    obtain ⟨hwait, A, B, hq, hnot⟩ := List.find?_eq_some_iff_append.mp hx
    obtain ⟨c, hc, hmatch, hz⟩ := of_decide_eq_true hwait
    have hA : A.length < fuel := by
      rw [hq, length_append] at hfuel
      omega
    obtain ⟨s', hcall, hreaped, hl', hf'⟩ := procWait_zombie hl hf hp hq
      (fun a ha => by simpa using hnot a ha) hc hmatch hz hA
    exact ⟨_, s', _, hcall, hl', hf', .reap (by simp [hq]) hc hmatch hz hreaped⟩
  · have hno : ∀ x ∈ kids parent, ¬ s.Waited pid x := fun x hx hwait => hw ⟨x, hx, hwait⟩
    have hchain := hl.chain parent p (hl.ne_zero hp) hp
    have hfind := findLoop_none 0 hchain hno (hl.member parent) hfuel
    obtain ⟨found, hloop, hfound⟩ := matchLoop_eq pid hchain (hl.member parent) hfuel
    have hcall : s.procWait fuel parent pid =
        if found then some (.blocked, s) else some (.returned (-ECHILD) none, s) := by
      rw [procWait, hp, bind_eq_bind, bind_some, hfind, bind_eq_bind, bind_some]
      rw [hloop]
      rfl
    cases found with
    | true => exact ⟨_, s, kids, hcall, hl, hf, .block hno (hfound.mp rfl)⟩
    | false =>
      refine ⟨_, s, kids, hcall, hl, hf, .echild fun x hx c hc hmatch => ?_⟩
      exact Bool.false_ne_true (hfound.mpr ⟨x, hx, c, hc, hmatch⟩)

end Procs

end Lapis.Sched
