/-
Lapis.Sched.ProcTheorems — what the functions of task.c do to the lists of children.

`Lists s kids skip` says that the pointers spell the lists `kids`; `view` is a process without its links,
and no function of this module changes it except as its lemma says. The loop of `proc_exit` takes a list
apart from which the exiting process is not yet cut off, so that `skip` is a process whose own pointer
says nothing.
-/
import Lapis.Lib.Run
import Lapis.Sched.Proc
import Mathlib.Data.List.Induction

namespace Lapis.Sched

open Function List Option Fs Lib

/-- A process without its links. -/
def Proc.core (p : Proc) : Proc := { p with children := 0, siblingNext := 0 }

namespace Procs

variable {s s' : Procs} {kids : Nat → List Nat} {skip a b q x fuel prev cur parent child : Nat}
  {p c : Proc} {pid : Int} {A B D l : List Nat}

/-- The processes without their links. -/
def view (s : Procs) (a : Nat) : Option Proc := (s.procs a).map Proc.core

@[simp] theorem set_self (s : Procs) (a : Nat) (p : Proc) : (s.set a p).procs a = some p :=
  update_self ..

theorem set_of_ne (h : b ≠ a) : (s.set a p).procs b = s.procs b := update_of_ne h ..

theorem next_eq (h : s.procs a = some p) : s.next a = p.siblingNext := by rw [next, h]; rfl

theorem view_eq (h : s.procs a = some p) : s.view a = some p.core := by rw [view, h]; rfl

theorem next_set (s : Procs) (a : Nat) (p : Proc) : (s.set a p).next = update s.next a p.siblingNext :=
  comp_update (fun o : Option Proc => (o.map Proc.siblingNext).getD 0) s.procs a (some p)

theorem view_update (s : Procs) (a : Nat) (o : Option Proc) :
    ({ s with procs := update s.procs a o } : Procs).view = update s.view a (o.map Proc.core) :=
  comp_update (Option.map Proc.core) s.procs a o

theorem view_set (s : Procs) (a : Nat) (p : Proc) : (s.set a p).view = update s.view a (some p.core) :=
  view_update s a (some p)

/-- The link stays when the process is written back with it. -/
theorem next_set_same (h : s.procs a = some c) (hp : p.siblingNext = c.siblingNext) :
    (s.set a p).next = s.next := by
  rw [next_set, hp, ← next_eq h, update_eq_self]

theorem view_set_same (h : s.procs a = some c) (hp : p.core = c.core) : (s.set a p).view = s.view := by
  rw [view_set, hp, ← view_eq h, update_eq_self]

theorem view_eq_none : s.view a = none ↔ s.procs a = none := map_eq_none_iff

theorem exists_of_view (h : s.view a = some c) : ∃ p, s.procs a = some p ∧ p.core = c :=
  map_eq_some_iff.mp h

/-! ## Lists -/

structure Lists (s : Procs) (kids : Nat → List Nat) (skip : Nat) : Prop where
  null : s.procs 0 = none
  chain : ∀ q p, q ≠ skip → s.procs q = some p → Chain s.next p.children (kids q)
  nodup : ∀ q, (kids q).Nodup
  disjoint : ∀ q q' a, a ∈ kids q → a ∈ kids q' → q = q'
  member : ∀ q a, a ∈ kids q → ∃ c, s.procs a = some c
  owner : ∀ q, s.procs q = none → kids q = []

/-- Only links were changed. -/
structure Relinked (s s' : Procs) : Prop where
  view : s'.view = s.view
  rest : s' = { s with procs := s'.procs }

theorem Relinked.procs_eq_none (h : Relinked s s') : s'.procs a = none ↔ s.procs a = none := by
  rw [← view_eq_none, ← view_eq_none, h.view]

theorem Relinked.trans {s'' : Procs} (h : Relinked s s') (h' : Relinked s' s'') : Relinked s s'' := by
  refine ⟨h'.view.trans h.view, ?_⟩
  rw [h'.rest, h.rest]

theorem Relinked.set (h : s.procs a = some c) (hp : p.core = c.core) : Relinked s (s.set a p) :=
  ⟨view_set_same h hp, rfl⟩

theorem Lists.ne_zero (h : Lists s kids skip) (ha : s.procs a = some p) : a ≠ 0 := by
  rintro rfl
  simp [h.null] at ha

/-- What the lists are made of: who is there, and the shape of the lists. -/
theorem Lists.of_same {kids' : Nat → List Nat} {skip' : Nat} (h : Lists s kids skip)
    (hsame : ∀ a, s'.procs a = none ↔ s.procs a = none)
    (hchain : ∀ q p, q ≠ skip' → s'.procs q = some p → Chain s'.next p.children (kids' q))
    (hnodup : ∀ q, (kids' q).Nodup) (hdisjoint : ∀ q q' a, a ∈ kids' q → a ∈ kids' q' → q = q')
    (hmember : ∀ q a, a ∈ kids' q → ∃ c, s.procs a = some c)
    (howner : ∀ q, s.procs q = none → kids' q = []) : Lists s' kids' skip' where
  null := (hsame 0).mpr h.null
  chain := hchain
  nodup := hnodup
  disjoint := hdisjoint
  member q a ha := by
    obtain ⟨c, hc⟩ := hmember q a ha
    exact ne_none_iff_exists'.mp fun hnone => by
      simp [(hsame a).mp hnone] at hc
  owner q hq := howner q ((hsame q).mp hq)

theorem set_eq_none (ha : s.procs a = some c) (b : Nat) : (s.set a p).procs b = none ↔ s.procs b = none := by
  by_cases hb : b = a
  · simp [hb, ha]
  · rw [set_of_ne hb]

/-- A process that was written back with its pointer to the first child. -/
theorem children_set {p' : Proc} (ha : s.procs a = some c) (hp : p.children = c.children)
    (hb : (s.set a p).procs b = some p') : ∃ p0, s.procs b = some p0 ∧ p'.children = p0.children := by
  by_cases hba : b = a
  · subst hba
    rw [set_self, some.injEq] at hb
    subst hb
    exact ⟨c, ha, hp⟩
  · rw [set_of_ne hba] at hb
    exact ⟨p', hb, rfl⟩

theorem mem_push : a ∈ update kids q (x :: kids q) b ↔ a = x ∧ b = q ∨ a ∈ kids b := by
  by_cases hb : b = q
  · subst hb
    simp
  · simp [hb]

/-- A child that is in no list is put in front of one. -/
theorem Lists.addChild (h : Lists s kids skip) (hparent : s.procs parent = some p)
    (hchild : s.procs child = some c) (hne : child ≠ parent) (hskip : parent ≠ skip)
    (hout : ∀ q, child ∉ kids q) : ∃ s', s.procAddChild parent child = some s' ∧ Relinked s s' ∧
      (∀ b, b ≠ child → s'.next b = s.next b) ∧
      Lists s' (update kids parent (child :: kids parent)) skip := by
  have hstill : (s.set child { c with siblingNext := p.children }).procs parent = some p := by
    rw [set_of_ne hne.symm, hparent]
  have hrel1 : Relinked s (s.set child { c with siblingNext := p.children }) := .set hchild rfl
  have hrel2 : Relinked (s.set child { c with siblingNext := p.children })
      ((s.set child { c with siblingNext := p.children }).set parent { p with children := child }) :=
    .set hstill rfl
  have hnext : ((s.set child { c with siblingNext := p.children }).set parent
      { p with children := child }).next = update s.next child p.children :=
    (next_set_same (p := { p with children := child }) hstill rfl).trans (next_set ..)
  refine ⟨_, by simp [procAddChild, hparent, hchild, hstill], hrel1.trans hrel2, fun b hb => ?_, ?_⟩
  · rw [hnext, update_of_ne hb]
  refine h.of_same (fun _ => (hrel1.trans hrel2).procs_eq_none)
    (fun q p' hq hp' => ?_) (fun q => ?_) (fun q q' a ha ha' => ?_) (fun q a ha => ?_) fun q hq => ?_
  · rw [hnext]
    by_cases hqp : q = parent
    · subst hqp
      rw [set_self, some.injEq] at hp'
      subst hp'
      rw [update_self]
      exact (h.chain q p hq hparent).push (h.ne_zero hchild) (hout q)
    · rw [set_of_ne hqp] at hp'
      obtain ⟨p0, hp0, hchildren⟩ := children_set (p := { c with siblingNext := p.children }) hchild rfl hp'
      rw [update_of_ne hqp, hchildren]
      refine (h.chain q p0 hq hp0).congr fun a ha => update_of_ne ?_ ..
      rintro rfl
      exact hout q ha
  · by_cases hqp : q = parent
    · subst hqp
      rw [update_self]
      exact nodup_cons.mpr ⟨hout q, h.nodup q⟩
    · rw [update_of_ne hqp]
      exact h.nodup q
  · rcases mem_push.mp ha with ⟨hac, hqp⟩ | hin <;> rcases mem_push.mp ha' with ⟨hac', hqp'⟩ | hin'
    · rw [hqp, hqp']
    · exact absurd (hac ▸ hin') (hout q')
    · exact absurd (hac' ▸ hin) (hout q)
    · exact h.disjoint q q' a hin hin'
  · rcases mem_push.mp ha with ⟨rfl, -⟩ | ha
    · exact ⟨c, hchild⟩
    · exact h.member q a ha
  · rw [update_of_ne (by rintro rfl; rw [hparent] at hq; cases hq)]
    exact h.owner q hq

/-- One element of one list is left out. -/
theorem Lists.shorten (h : Lists s kids skip) (hrel : Relinked s s') (hq : kids q = A ++ x :: B)
    (hchain : ∀ r p, r ≠ skip → s'.procs r = some p → Chain s'.next p.children (update kids q (A ++ B) r)) :
    Lists s' (update kids q (A ++ B)) skip := by
  have hsub : ∀ r a, a ∈ update kids q (A ++ B) r → a ∈ kids r := by
    intro r a ha
    by_cases hr : r = q
    · subst hr
      rw [update_self, mem_append] at ha
      rw [hq, mem_append, mem_cons]
      exact ha.imp_right .inr
    · rwa [update_of_ne hr] at ha
  refine h.of_same (fun _ => hrel.procs_eq_none) hchain (fun r => ?_)
    (fun r r' a ha ha' => h.disjoint r r' a (hsub r a ha) (hsub r' a ha'))
    (fun r a ha => h.member r a (hsub r a ha)) fun r hr => ?_
  · by_cases hr : r = q
    · subst hr
      rw [update_self]
      exact (hq ▸ h.nodup r).sublist ((sublist_cons_self x B).append_left A)
    · rw [update_of_ne hr]
      exact h.nodup r
  · refine eq_nil_iff_forall_not_mem.mpr fun a ha => ?_
    have hin := hsub r a ha
    simp [h.owner r hr] at hin

/-- The link before `x`, or the pointer to the first child, is set to what is behind it. -/
theorem Lists.unlink (h : Lists s kids skip) (hparent : s.procs q = some p) (hskip : q ≠ skip)
    (hq : kids q = A ++ x :: B) : ∃ s', s.setLink q (A.getLastD 0) (s.next x) = some s' ∧ Relinked s s' ∧
      Lists s' (update kids q (A ++ B)) skip := by
  have hchainq := h.chain q p hskip hparent
  rw [hq] at hchainq
  cases A using List.reverseRecOn with
  | nil =>
    have hrel : Relinked s (s.set q { p with children := s.next x }) := .set hparent rfl
    have hnext : (s.set q { p with children := s.next x }).next = s.next :=
      next_set_same (p := { p with children := s.next x }) hparent rfl
    refine ⟨_, by simp [setLink, hparent], hrel, h.shorten hrel hq fun r p' hr hp' => ?_⟩
    rw [hnext]
    by_cases hrq : r = q
    · subst hrq
      rw [set_self, some.injEq] at hp'
      subst hp'
      rw [update_self]
      exact hchainq.2.2
    · rw [set_of_ne hrq] at hp'
      rw [update_of_ne hrq]
      exact h.chain r p' hr hp'
  | append_singleton A b =>
  have hb : b ∈ kids q := by simp [hq]
  obtain ⟨c, hc⟩ := h.member q b hb
  have hrel : Relinked s (s.set b { c with siblingNext := s.next x }) := .set hc rfl
  have hne := h.ne_zero hc
  refine ⟨_, by simp [setLink, hne, hc], hrel, h.shorten hrel hq fun r p' hr hp' => ?_⟩
  obtain ⟨p0, hp0, hchildren⟩ := children_set (p := { c with siblingNext := s.next x }) hc rfl hp'
  rw [next_set, hchildren]
  by_cases hrq : r = q
  · subst hrq
    cases hparent.symm.trans hp0
    rw [update_self, append_assoc, singleton_append]
    have hnodup := h.nodup r
    rw [hq, append_assoc, singleton_append] at hnodup
    rw [append_assoc, singleton_append] at hchainq
    exact hchainq.unlink hnodup
  · rw [update_of_ne hrq]
    refine (h.chain r p0 hr hp0).congr fun a ha => update_of_ne ?_ ..
    rintro rfl
    exact hrq (h.disjoint r q a ha hb)

/-! ## Loops -/

theorem removeLoop_eq (hchain : Chain s.next cur (D ++ x :: B)) (hnot : x ∉ D)
    (hall : ∀ a ∈ D ++ [x], ∃ c, s.procs a = some c) (hfuel : D.length < fuel) :
    s.removeLoop parent x fuel prev cur = s.setLink parent (D.getLastD prev) (s.next x) := by
  induction D generalizing cur prev fuel with
  | nil =>
    obtain ⟨rfl, hne, -⟩ := hchain
    obtain ⟨c, hc⟩ := hall cur (mem_append_right _ (mem_singleton_self _))
    obtain ⟨n, rfl⟩ := Nat.exists_eq_add_of_lt hfuel
    simp [removeLoop, hne, hc, next_eq hc]
  | cons a D ih =>
    obtain ⟨rfl, hne, hrest⟩ := hchain
    obtain ⟨c, hc⟩ := hall cur (mem_append_left _ mem_cons_self)
    obtain ⟨n, rfl⟩ : ∃ n, fuel = n + 1 := ⟨fuel - 1, by omega⟩
    have hcx : cur ≠ x := fun hcx => hnot (hcx ▸ mem_cons_self)
    rw [next_eq hc] at hrest
    have hloop := @ih n cur _ hrest (fun hx => hnot (mem_cons_of_mem _ hx))
      (fun b hb => hall b (mem_cons_of_mem _ hb)) (Nat.lt_of_succ_lt_succ hfuel)
    rw [removeLoop, if_neg hne, hc, bind_eq_bind, bind_some, if_neg hcx, hloop, getLastD_cons]

/-- A zombie child that `proc_wait` looks for. -/
def Waited (s : Procs) (pid : Int) (a : Nat) : Prop :=
  ∃ c, s.procs a = some c ∧ Matches pid c ∧ c.state = .zombie

/-- The loop gets past children it does not look for. -/
theorem findLoop_pass (prev : Nat) (hchain : Chain s.next cur (D ++ B)) (hnot : ∀ a ∈ D, ¬ s.Waited pid a)
    (hall : ∀ a ∈ D, ∃ c, s.procs a = some c) (hfuel : D.length < fuel) : ∃ cur' n, Chain s.next cur' B ∧
      s.findLoop pid fuel prev cur = s.findLoop pid (n + 1) (D.getLastD prev) cur' := by
  obtain ⟨n, rfl⟩ : ∃ n, fuel = n + 1 := ⟨fuel - 1, by omega⟩
  induction D generalizing cur prev n with
  | nil => exact ⟨cur, n, hchain, rfl⟩
  | cons a D ih =>
    obtain ⟨rfl, hne, hrest⟩ := hchain
    obtain ⟨c, hc⟩ := hall cur mem_cons_self
    have hno := hnot cur mem_cons_self
    obtain ⟨n, rfl⟩ : ∃ m, n = m + 1 := ⟨n - 1, by rw [length_cons] at hfuel; omega⟩
    rw [next_eq hc] at hrest
    rw [findLoop, if_neg hne, hc, bind_eq_bind, bind_some,
      if_neg (fun hmatch => hno ⟨c, hc, hmatch⟩), getLastD_cons]
    exact ih cur hrest (fun b hb => hnot b (mem_cons_of_mem _ hb))
      (fun b hb => hall b (mem_cons_of_mem _ hb)) n (Nat.lt_of_succ_lt_succ hfuel)

theorem findLoop_some (prev : Nat) (hchain : Chain s.next cur (D ++ x :: B)) (hnot : ∀ a ∈ D, ¬ s.Waited pid a)
    (hx : s.Waited pid x) (hall : ∀ a ∈ D, ∃ c, s.procs a = some c) (hfuel : D.length < fuel) :
    s.findLoop pid fuel prev cur = some (some (D.getLastD prev, x)) := by
  obtain ⟨_, n, ⟨rfl, hne, -⟩, heq⟩ := findLoop_pass prev hchain hnot hall hfuel
  obtain ⟨c, hc, hmatch⟩ := hx
  rw [heq, findLoop, if_neg hne, hc, bind_eq_bind, bind_some, if_pos hmatch]

theorem findLoop_none (prev : Nat) (hchain : Chain s.next cur l) (hnot : ∀ a ∈ l, ¬ s.Waited pid a)
    (hall : ∀ a ∈ l, ∃ c, s.procs a = some c) (hfuel : l.length < fuel) :
    s.findLoop pid fuel prev cur = some none := by
  rw [← l.append_nil] at hchain
  obtain ⟨_, n, hend, heq⟩ := findLoop_pass prev hchain hnot hall hfuel
  exact heq.trans (if_pos hend)

theorem matchLoop_eq (pid : Int) (hchain : Chain s.next cur l) (hall : ∀ a ∈ l, ∃ c, s.procs a = some c)
    (hfuel : l.length < fuel) :
    ∃ found, s.matchLoop pid fuel cur = some found ∧
      (found = true ↔ ∃ a ∈ l, ∃ c, s.procs a = some c ∧ Matches pid c) := by
  induction l generalizing cur fuel with
  | nil =>
    obtain ⟨n, rfl⟩ : ∃ n, fuel = n + 1 := ⟨fuel - 1, by omega⟩
    exact ⟨false, by rw [matchLoop, if_pos (show cur = 0 from hchain)], by simp⟩
  | cons a l ih =>
    obtain ⟨rfl, hne, hrest⟩ := hchain
    obtain ⟨c, hc⟩ := hall cur mem_cons_self
    obtain ⟨n, rfl⟩ : ∃ n, fuel = n + 1 := ⟨fuel - 1, by omega⟩
    rw [next_eq hc] at hrest
    obtain ⟨found, hloop, hfound⟩ := ih hrest (fun b hb => hall b (mem_cons_of_mem _ hb))
      (Nat.lt_of_succ_lt_succ hfuel)
    rw [matchLoop, if_neg hne, hc, bind_eq_bind, bind_some]
    by_cases hmatch : Matches pid c
    · exact ⟨true, if_pos hmatch, iff_of_true rfl ⟨cur, mem_cons_self, c, hc, hmatch⟩⟩
    · refine ⟨found, by rw [if_neg hmatch, hloop], hfound.trans ?_⟩
      simp [hc, hmatch]

/-- A process is written back with its links. -/
theorem Lists.setSame (h : Lists s kids skip) (ha : s.procs a = some c)
    (hchildren : p.children = c.children) (hnext : p.siblingNext = c.siblingNext) :
    Lists (s.set a p) kids skip := by
  refine h.of_same (set_eq_none ha) (fun q p' hq hp' => ?_) h.nodup h.disjoint h.member h.owner
  obtain ⟨p0, hp0, hsame⟩ := children_set ha hchildren hp'
  rw [next_set_same ha hnext, hsame]
  exact h.chain q p0 hq hp0

/-- The loop of `proc_exit` moves a list to the front of that of the init process, the first child first. -/
theorem exitLoop_spec (h : Lists s kids skip) (hinit : ∃ p, s.procs s.initProc = some p)
    (hskip : s.initProc ≠ skip) (hchain : Chain s.next cur l) (hnodup : l.Nodup)
    (hl : ∀ a ∈ l, (∃ c, s.procs a = some c) ∧ a ≠ s.initProc ∧ ∀ q, a ∉ kids q)
    (hfuel : l.length < fuel) :
    ∃ s', exitLoop fuel s cur = some s' ∧ s' = { s with procs := s'.procs } ∧
      (∀ a, s'.view a = if a ∈ l then (s.view a).map fun c => { c with parent := s.initProc }
        else s.view a) ∧
      Lists s' (update kids s.initProc (l.reverse ++ kids s.initProc)) skip := by
  induction l generalizing s kids cur fuel with
  | nil =>
    obtain ⟨n, rfl⟩ : ∃ n, fuel = n + 1 := ⟨fuel - 1, by omega⟩
    refine ⟨s, by rw [exitLoop, if_pos (show cur = 0 from hchain)], rfl, fun a => by simp, ?_⟩
    rwa [reverse_nil, nil_append, update_eq_self]
  | cons a l ih =>
    obtain ⟨rfl, hne, hrest⟩ := hchain
    obtain ⟨n, rfl⟩ : ∃ n, fuel = n + 1 := ⟨fuel - 1, by omega⟩
    obtain ⟨⟨c, hc⟩, hca, hout⟩ := hl cur mem_cons_self
    obtain ⟨p, hp⟩ := hinit
    rw [nodup_cons] at hnodup
    have h1 : Lists (s.set cur { c with parent := s.initProc }) kids skip := h.setSame hc rfl rfl
    have hp1 : (s.set cur { c with parent := s.initProc }).procs s.initProc = some p := by
      rw [set_of_ne hca.symm, hp]
    obtain ⟨s2, hadd, hrel, hnext2, h2⟩ := h1.addChild hp1 (set_self ..) hca hskip hout
    have hrest2 : s2 = { s with procs := s2.procs } := hrel.rest
    have hinit2 : s2.initProc = s.initProc := by rw [hrest2]
    have hview2 : s2.view = update s.view cur (some { c.core with parent := s.initProc }) := by
      rw [hrel.view, view_set]
      rfl
    have hnext : ∀ b ∈ l, s2.next b = s.next b := fun b hb => by
      have hbc : b ≠ cur := by
        rintro rfl
        exact hnodup.1 hb
      rw [hnext2 b hbc, next_set, update_of_ne hbc]
    have hsome2 : ∀ b d, s.procs b = some d → ∃ d', s2.procs b = some d' := fun b d hd => by
      refine ne_none_iff_exists'.mp fun hnone => ?_
      simp [hrel.procs_eq_none, set_eq_none hc, hd] at hnone
    obtain ⟨s', hloop, hrest', hview', h'⟩ := ih (s := s2) h2 (by rw [hinit2]; exact hsome2 _ p hp)
      (by rwa [hinit2]) ((next_eq hc ▸ hrest).congr hnext) hnodup.2 (fun b hb => by
        obtain ⟨⟨d, hd⟩, hbi, hbout⟩ := hl b (mem_cons_of_mem _ hb)
        refine ⟨hsome2 b d hd, by rwa [hinit2], fun q hq => ?_⟩
        rcases mem_push.mp hq with ⟨rfl, -⟩ | hq
        · exact hnodup.1 hb
        · exact hbout q hq) (Nat.lt_of_succ_lt_succ hfuel)
    refine ⟨s', ?_, hrest'.trans (by rw [hrest2]), fun b => ?_, ?_⟩
    · rw [exitLoop, if_neg hne, hc, bind_eq_bind, bind_some]
      have hi : (s.set cur { c with parent := s.initProc }).initProc ≠ 0 := h.ne_zero hp
      dsimp only
      rw [if_pos hi]
      exact (congrArg (Option.bind · fun s => exitLoop n s c.siblingNext) hadd).trans hloop
    · rw [hview' b, hview2, hinit2]
      by_cases hbc : b = cur
      · subst hbc
        rw [if_neg hnodup.1, update_self, if_pos mem_cons_self, view_eq hc]
        rfl
      · rw [update_of_ne hbc]
        simp [hbc]
    · rw [hinit2, update_self, update_idem] at h'
      rwa [reverse_cons, append_assoc, singleton_append]

/-! ## Single functions -/

theorem Lists.removeChild (h : Lists s kids skip) (hparent : s.procs q = some p) (hskip : q ≠ skip)
    (hq : kids q = A ++ x :: B) (hfuel : A.length < fuel) :
    ∃ s', s.procRemoveChild fuel q x = some s' ∧ Relinked s s' ∧ Lists s' (update kids q (A ++ B)) skip := by
  obtain ⟨s', hlink, hrel, h'⟩ := h.unlink hparent hskip hq
  refine ⟨s', ?_, hrel, h'⟩
  have hnodup := h.nodup q
  have hchain := h.chain q p hskip hparent
  have hmember := h.member q
  rw [hq] at hnodup hchain hmember
  rw [procRemoveChild, hparent, bind_eq_bind, bind_some, removeLoop_eq hchain
    (fun hx => (nodup_append.mp hnodup).2.2 x hx x mem_cons_self rfl)
    (fun a ha => hmember a (by simp at ha ⊢; tauto)) hfuel, hlink]

/-- A process without children that is in no list is made or freed. -/
theorem Lists.replace {o : Option Proc} (h : Lists s kids skip) (hne : a ≠ 0) (hout : ∀ q, a ∉ kids q)
    (hkids : kids a = []) (ho : ∀ p, o = some p → p.children = 0)
    (hprocs : s'.procs = update s.procs a o) : Lists s' kids skip := by
  have hother : ∀ b, b ≠ a → s'.procs b = s.procs b := fun b hb => by
    rw [hprocs, update_of_ne hb]
  have hnext : ∀ b, b ≠ a → s'.next b = s.next b := fun b hb => by
    unfold next
    rw [hother b hb]
  refine ⟨by rw [hother 0 hne.symm, h.null], fun q p hq hp => ?_, h.nodup, h.disjoint, fun q b hb => ?_,
    fun q hq => ?_⟩
  · by_cases hqa : q = a
    · subst hqa
      rw [hprocs, update_self] at hp
      rw [hkids, ho p hp]
      rfl
    · rw [hother q hqa] at hp
      refine (h.chain q p hq hp).congr fun b hb => hnext b ?_
      rintro rfl
      exact hout q hb
  · have hba : b ≠ a := by
      rintro rfl
      exact hout q hb
    rw [hother b hba]
    exact h.member q b hb
  · by_cases hqa : q = a
    · rw [hqa, hkids]
    · rw [hother q hqa] at hq
      exact h.owner q hq

/-- The last reference frees the process. -/
theorem procUnref_eq (hne : a ≠ 0) (ha : s.procs a = some p) (hcount : p.refcount = 1) :
    s.procUnref a = some { s with procs := update s.procs a none, procList := s.procList.erase a } := by
  have hremaining : (p.refcount + (2 ^ 32 - 1)) % 2 ^ 32 = 0 := by omega
  rw [procUnref, if_neg hne, ha, bind_eq_bind, bind_some, hremaining]
  rfl

/-! ## Fuel

A loop that ends with some fuel ends the same way with more. -/

theorem removeLoop_mono {fuel' : Nat} (hle : fuel ≤ fuel')
    (h : s.removeLoop parent child fuel prev cur = some s') :
    s.removeLoop parent child fuel' prev cur = some s' := by
  refine Grows.loop (f := fun n (x : Nat × Nat) => s.removeLoop parent child n x.1 x.2)
    (fun _ => rfl) (fun n m x ih => ?_) hle (prev, cur) s' h
  simp only [removeLoop, bind_eq_bind]
  exact .ite (.refl _) (.bind (.refl _) fun _ => .ite (.refl _) (ih (_, _)))

theorem findLoop_mono {fuel' : Nat} {r : Option (Nat × Nat)} (hle : fuel ≤ fuel')
    (h : s.findLoop pid fuel prev cur = some r) : s.findLoop pid fuel' prev cur = some r := by
  refine Grows.loop (f := fun n (x : Nat × Nat) => s.findLoop pid n x.1 x.2)
    (fun _ => rfl) (fun n m x ih => ?_) hle (prev, cur) r h
  simp only [findLoop, bind_eq_bind]
  exact .ite (.refl _) (.bind (.refl _) fun _ => .ite (.refl _) (ih (_, _)))

theorem matchLoop_mono {fuel' : Nat} {r : Bool} (hle : fuel ≤ fuel')
    (h : s.matchLoop pid fuel cur = some r) : s.matchLoop pid fuel' cur = some r := by
  refine Grows.loop (f := s.matchLoop pid) (fun _ => rfl) (fun n m x ih => ?_) hle cur r h
  simp only [matchLoop, bind_eq_bind]
  exact .ite (.refl _) (.bind (.refl _) fun _ => .ite (.refl _) (ih _))

theorem exitLoop_mono {fuel' : Nat} (hle : fuel ≤ fuel') (h : exitLoop fuel s cur = some s') :
    exitLoop fuel' s cur = some s' := by
  refine Grows.loop (f := fun n (x : Procs × Nat) => exitLoop n x.1 x.2)
    (fun _ => rfl) (fun n m x ih => ?_) hle (s, cur) s' h
  simp only [exitLoop, bind_eq_bind]
  exact .ite (.refl _) (.bind (.refl _) fun _ => .bind (.refl _) fun _ => ih (_, _))

end Procs

end Lapis.Sched
