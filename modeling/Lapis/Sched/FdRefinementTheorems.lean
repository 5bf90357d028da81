/-
Lapis.Sched.FdRefinementTheorems — every call on tables of file descriptors does what `fdSpec` says.

Each call is taken from a state in which the counts are right (`Inv`) to another one. A function that has a
reference in its hand is followed with `Counted` at a count that has it, and the two are compared entry by
entry at its end: `bump` and `shed` say what one reference more or less is.
-/
import Lapis.Sched.FdRefinement

namespace Lapis.Sched.Fd

open Function List Option Fs Lib

namespace FdState

variable {s s' s₁ s₂ s₃ : FdState} {cnt : Nat → Nat} {t e fd : Nat} {table : FdTable}
  {m : Nat → Option Nat} {x : Option Nat} {mem : Bool} {op : FdOp}

/-! ## From functions to calls -/

theorem SameHolders.maps (h : s.SameHolders s') : s'.maps = s.maps := by
  unfold FdState.maps
  rw [h.1]

theorem Stores.of_same (h1 : s.SameHolders s₁) (hst : s₁.Stores s₂ t fd x) (h2 : s₂.SameHolders s₃) :
    s.Stores s₃ t fd x := by
  obtain ⟨m, hm, hmaps⟩ := hst.maps
  rw [h1.maps] at hm hmaps
  exact ⟨⟨m, hm, h2.maps.trans hmaps⟩, hst.wf.congr h2.1 h2.2.2,
    h2.2.1.trans (hst.held.trans h1.2.1), h2.2.2.trans (hst.tableHeld.trans h1.2.2)⟩

/-- A slot is emptied and then filled. -/
theorem Stores.trans (h1 : s.Stores s₁ t fd none) (h2 : s₁.Stores s₂ t fd x) : s.Stores s₂ t fd x := by
  obtain ⟨m, hm, hmaps⟩ := h1.maps
  obtain ⟨m', hm', hmaps'⟩ := h2.maps
  rw [hmaps, update_self, some.injEq] at hm'
  refine ⟨⟨m, hm, ?_⟩, h2.wf, h2.held.trans h1.held, h2.tableHeld.trans h1.tableHeld⟩
  rw [hmaps', hmaps, ← hm', update_idem, update_idem]

theorem Inv.of_stores (h : s.Inv) (hst : s.Stores s' t fd x) (hm : s.maps t = some m) (hc : s'.Counted cnt)
    (hcnt : ∀ v, cnt v + (if m fd = some v then 1 else 0) = s.total v + if x = some v then 1 else 0) :
    s'.Inv ∧ s'.maps = update s.maps t (some (update m fd x)) := by
  obtain ⟨m', hm', hmaps⟩ := hst.maps
  cases hm.symm.trans hm'
  refine ⟨⟨hst.wf, hc.of_eq fun v => ?_⟩, hmaps⟩
  have hrefs := hst.refs h.wf hm v
  have hv := hcnt v
  unfold total at hv ⊢
  rw [hst.held]
  omega

theorem Inv.of_same (h : s.Inv) (hsame : s.SameHolders s') (hc : s'.Counted cnt)
    (hcnt : ∀ v, cnt v = s.total v) : s'.Inv := by
  refine ⟨h.wf.congr hsame.1 hsame.2.2, hc.of_eq fun v => ?_⟩
  rw [hcnt v]
  unfold total
  rw [slots_congr hsame.maps, hsame.2.1]

/-- The caller has one reference more, or one less. -/
theorem Inv.of_held {held : Nat → Nat} (h : s.Inv) (hsame : s.SameHolders s₁) (hc : s₁.Counted cnt)
    (hcnt : ∀ v, cnt v = refs s.slots v + held v) : ({ s₁ with held := held } : FdState).Inv := by
  have hslots : ({ s₁ with held := held } : FdState).slots = s.slots := slots_congr hsame.maps
  have hc' : ({ s₁ with held := held } : FdState).Counted cnt := hc.congr rfl rfl rfl
  refine ⟨h.wf.congr hsame.1 hsame.2.2, hc'.of_eq fun v => ?_⟩
  rw [hcnt v, total, hslots]

/-- What a call does where the counts are right. -/
def Meets (s : FdState) (op : FdOp) : Prop :=
  ∃ ret s', s.call op = some (ret, s') ∧ s'.Inv ∧ s.fdSpec op ret s'.maps

/-! ## What callers have -/

theorem Inv.room (h : s.Inv) (hfit : countsFit op s) (hpos : 0 < s.total e) :
    s.total e + s.takes op e < 2 ^ 32 := by
  obtain ⟨n, hn⟩ := h.counted.entry hpos
  rw [← (h.counted.live e n hn).1]
  exact hfit.1 e n hn

theorem slots_eq (ht : s.tables t = some table) : s.slots (t, fd) = table.slot fd := by
  unfold slots
  rw [maps_eq ht]
  rfl

theorem Inv.slot_pos (h : s.Inv) (ht : s.tables t = some table) (he : table.slot fd = some e) :
    0 < s.total e :=
  Nat.lt_of_lt_of_le (refs_pos h.wf.finite ((slots_eq ht).trans he)) (Nat.le_add_right ..)

theorem HoldsEntry.pos (h : s.HoldsEntry e) (hne : e ≠ 0) : 0 < s.total e :=
  Nat.lt_of_lt_of_le (h.resolve_left hne) (Nat.le_add_left ..)

theorem Inv.holdsTable (h : s.Inv) (hheld : s.HoldsTable t) (hne : t ≠ 0) :
    ∃ table, s.tables t = some table := by
  cases ht : s.tables t with
  | none =>
    have hpos := hheld.resolve_left hne
    simp [h.wf.free t ht] at hpos
  | some table => exact ⟨table, rfl⟩

/-! ## One slot -/

theorem Inv.install (h : s.Inv) (hok : callerOk (.install t e mem) s)
    (hfit : countsFit (.install t e mem) s) : s.Meets (.install t e mem) := by
  by_cases hnull : t = 0 ∨ e = 0
  · exact ⟨-EINVAL, s, by simp [call, fdtableInstall, hnull], h, by simp [fdSpec, hnull]⟩
  obtain ⟨htn, hen⟩ := not_or.mp hnull
  obtain ⟨table, ht⟩ := h.holdsTable hok.1 htn
  have hpos := hok.2.pos hen
  have hroom := h.room hfit hpos
  simp only [takes, if_true] at hroom
  obtain ⟨ret, s', hcall, hcases⟩ := install_spec mem h.wf h.counted ht hpos hroom
  refine ⟨ret, s', hcall, ?_⟩
  rw [fdSpec, if_neg hnull]
  rcases hcases with ⟨fd, hmax, hfree, hbefore, rfl, hst, hc⟩ | ⟨rfl, hret⟩
  · obtain ⟨hinv, hmaps⟩ := h.of_stores hst (maps_eq ht) hc fun v => by
      rw [hfree, if_neg nofun, bump, Nat.add_zero]
    exact ⟨hinv, _, maps_eq ht, .inl ⟨fd, hmax, hfree, hbefore, rfl, hmaps⟩⟩
  · exact ⟨h, _, maps_eq ht, .inr ⟨rfl, hret⟩⟩

theorem Inv.installAt {fd : Int} (h : s.Inv) (hok : callerOk (.installAt t fd e mem) s)
    (hfit : countsFit (.installAt t fd e mem) s) : s.Meets (.installAt t fd e mem) := by
  by_cases hnull : t = 0 ∨ fd < 0 ∨ e = 0
  · exact ⟨-EINVAL, s, by simp [call, fdtableInstallAt, hnull], h, by simp [fdSpec, hnull]⟩
  obtain ⟨htn, hfd, hen⟩ := not_or.mp hnull |>.imp_right not_or.mp
  obtain ⟨fd, rfl⟩ := Int.eq_ofNat_of_zero_le (Int.not_lt.mp hfd)
  obtain ⟨table, ht⟩ := h.holdsTable hok.1 htn
  have hpos := hok.2.pos hen
  have hroom := h.room hfit hpos
  simp only [takes, if_true] at hroom
  obtain ⟨ret, s', hcall, hcases⟩ := installAt_spec fd mem h.wf h.counted ht hpos hroom
  refine ⟨ret, s', hcall, ?_⟩
  rw [fdSpec, if_neg hnull, Int.toNat_natCast]
  rcases hcases with ⟨hmax, hfree, rfl, hst, hc⟩ | ⟨rfl, hret⟩
  · obtain ⟨hinv, hmaps⟩ := h.of_stores hst (maps_eq ht) hc fun v => by
      rw [hfree, if_neg nofun, bump, Nat.add_zero]
    exact ⟨hinv, _, maps_eq ht, .inl ⟨hmax, hfree, rfl, hmaps⟩⟩
  · exact ⟨h, _, maps_eq ht, .inr ⟨rfl, hret.imp_right (.imp_right fun hno => ⟨hno.1, hno.2.1⟩)⟩⟩

theorem Inv.get {fd : Int} (h : s.Inv) (hok : callerOk (.get t fd) s) (hfit : countsFit (.get t fd) s) :
    s.Meets (.get t fd) := by
  by_cases hnull : t = 0 ∨ fd < 0
  · exact ⟨0, s, by simp [call, fdtableGet, hnull, hold], h, by simp [fdSpec, hnull]⟩
  obtain ⟨htn, hfd⟩ := not_or.mp hnull
  obtain ⟨fd, rfl⟩ := Int.eq_ofNat_of_zero_le (Int.not_lt.mp hfd)
  obtain ⟨table, ht⟩ := h.holdsTable hok htn
  have hspec := get_spec fd h.wf h.counted ht fun e he => by
    have hpos := h.slot_pos ht he
    have hroom := h.room hfit hpos
    rw [takes, Int.toNat_natCast, slots_eq ht, if_pos he] at hroom
    exact ⟨hpos, hroom⟩
  rcases hspec with ⟨hfree, hget⟩ | ⟨e, s', he, hget, hne, hsame, hc⟩
  · refine ⟨0, s, by simp [call, hget, hold], h, rfl, ?_⟩
    rw [if_neg hnull, Int.toNat_natCast]
    exact ⟨_, maps_eq ht, by rw [hfree]; rfl⟩
  refine ⟨e, s'.hold e, by simp [call, hget], ?_, ?_⟩
  · rw [hold, if_neg hne]
    refine h.of_held hsame hc fun v => ?_
    rw [bump, hsame.2.1, bump, total, Nat.add_assoc]
  have hmaps : (s'.hold e).maps = s.maps := by
    rw [hold, if_neg hne]
    exact hsame.maps
  refine ⟨hmaps, ?_⟩
  rw [if_neg hnull, Int.toNat_natCast]
  exact ⟨_, maps_eq ht, by rw [he]; rfl⟩

theorem Inv.close {fd : Int} (h : s.Inv) (hok : callerOk (.close t fd) s) : s.Meets (.close t fd) := by
  by_cases hnull : t = 0 ∨ fd < 0
  · exact ⟨-EINVAL, s, by simp [call, fdtableClose, hnull], h, by simp [fdSpec, hnull]⟩
  obtain ⟨htn, hfd⟩ := not_or.mp hnull
  obtain ⟨fd, rfl⟩ := Int.eq_ofNat_of_zero_le (Int.not_lt.mp hfd)
  obtain ⟨table, ht⟩ := h.holdsTable hok htn
  have hspec := close_spec fd h.wf h.counted ht fun e he => h.slot_pos ht he
  rcases hspec with ⟨hfree, hclose⟩ | ⟨e, s', he, hclose, hst, -, hc⟩
  · refine ⟨_, s, hclose, h, ?_⟩
    rw [fdSpec, if_neg hnull, Int.toNat_natCast]
    exact ⟨_, maps_eq ht, .inl ⟨hfree, rfl, rfl⟩⟩
  · obtain ⟨hinv, hmaps⟩ := h.of_stores hst (maps_eq ht) hc fun v => by
      rw [he, shed (h.slot_pos ht he), if_neg nofun, Nat.add_zero]
    refine ⟨_, s', hclose, hinv, ?_⟩
    rw [fdSpec, if_neg hnull, Int.toNat_natCast]
    exact ⟨_, maps_eq ht, .inr ⟨by rw [he]; nofun, rfl, hmaps⟩⟩

/-! ## Duplicates -/

/-- Both calls begin with `fdtable_get`, and need room for one reference more. -/
theorem Inv.get_two (h : s.Inv) (oldfd : Nat) (ht : s.tables t = some table)
    (hroom : ∀ e, table.slot oldfd = some e → s.total e + 2 < 2 ^ 32) :
    table.slot oldfd = none ∧ s.fdtableGet t oldfd = some (0, s) ∨
    ∃ e s₁, table.slot oldfd = some e ∧ s.fdtableGet t oldfd = some (e, s₁) ∧ e ≠ 0 ∧
      s.total e + 2 < 2 ^ 32 ∧ s.SameHolders s₁ ∧ s₁.Wf ∧ s₁.tables t = some table ∧
      s₁.Counted (update s.total e (s.total e + 1)) := by
  have hspec := get_spec oldfd h.wf h.counted ht fun e he => by
    have hlt := hroom e he
    exact ⟨h.slot_pos ht he, by omega⟩
  rcases hspec with hfree | ⟨e, s₁, he, hget, hne, hsame, hc⟩
  · exact .inl hfree
  · exact .inr ⟨e, s₁, he, hget, hne, hroom e he, hsame,
      h.wf.congr hsame.1 hsame.2.2, by rw [hsame.1, ht], hc⟩

/-- The reference that `fdtable_get` took is given back. -/
theorem Counted.unref_bump (hc : s.Counted (update cnt e (cnt e + 1))) :
    ∃ s', s.fdEntryUnref e = some s' ∧ s.SameHolders s' ∧ s'.Counted cnt := by
  obtain ⟨s', hunref, hsame, hc'⟩ := hc.unref (bump_pos cnt e)
  rw [update_idem, update_self, Nat.add_sub_cancel, update_eq_self] at hc'
  exact ⟨s', hunref, hsame, hc'⟩

theorem Inv.unget (h : s.Inv) (hsame : s.SameHolders s₁)
    (hc : s₁.Counted (update s.total e (s.total e + 1))) :
    ∃ s', s₁.fdEntryUnref e = some s' ∧ s'.Inv ∧ s'.maps = s.maps := by
  obtain ⟨s', hunref, hsame', hc'⟩ := hc.unref_bump
  exact ⟨s', hunref, h.of_same ⟨hsame'.1.trans hsame.1, hsame'.2.1.trans hsame.2.1,
    hsame'.2.2.trans hsame.2.2⟩ hc' fun _ => rfl, hsame'.maps.trans hsame.maps⟩

theorem fdtableDup_eq {oldfd ret : Int} (hget : s.fdtableGet t oldfd = some (e, s₁)) (hne : e ≠ 0)
    (hinstall : s₁.fdtableInstall t e mem = some (ret, s₂)) (hunref : s₂.fdEntryUnref e = some s₃) :
    s.fdtableDup t oldfd mem = some (ret, s₃) := by
  simp [fdtableDup, hget, hne, hinstall, hunref]

theorem Inv.dup {oldfd : Int} (h : s.Inv) (hok : callerOk (.dup t oldfd mem) s)
    (hfit : countsFit (.dup t oldfd mem) s) : s.Meets (.dup t oldfd mem) := by
  by_cases hnull : t = 0 ∨ oldfd < 0
  · exact ⟨-EBADF, s, by simp [call, fdtableDup, fdtableGet, hnull], h, by simp [fdSpec, hnull]⟩
  obtain ⟨htn, hfd⟩ := not_or.mp hnull
  obtain ⟨oldfd, rfl⟩ := Int.eq_ofNat_of_zero_le (Int.not_lt.mp hfd)
  obtain ⟨table, ht⟩ := h.holdsTable hok htn
  have hspec := h.get_two oldfd ht fun e he => by
    have hroom := h.room hfit (h.slot_pos ht he)
    rwa [takes, Int.toNat_natCast, slots_eq ht, if_pos he] at hroom
  unfold Meets
  simp only [fdSpec, if_neg hnull, Int.toNat_natCast]
  rcases hspec with ⟨hfree, hget⟩ | ⟨e, s₁, he, hget, hne, hroom, hsame, hwf1, ht1, hc1⟩
  · exact ⟨_, s, by simp [call, fdtableDup, hget], h, _, maps_eq ht, .inl ⟨hfree, rfl, rfl⟩⟩
  obtain ⟨ret, s₂, hinstall, hcases⟩ := install_spec mem hwf1 hc1 ht1 (bump_pos _ e)
    (by rw [update_self]; omega)
  rcases hcases with ⟨fd, hmax, hfree, hbefore, rfl, hst, hc2⟩ | ⟨rfl, hret⟩
  · obtain ⟨s₃, hunref, hsame3, hc3⟩ := hc2.unref_bump
    obtain ⟨hinv, hmaps⟩ := h.of_stores (hst.of_same hsame hsame3) (maps_eq ht) hc3 fun v => by
      rw [hfree, if_neg nofun, bump, Nat.add_zero]
    exact ⟨_, s₃, fdtableDup_eq hget hne hinstall hunref, hinv, _, maps_eq ht,
      .inr ⟨e, he, _, maps_eq ht, .inl ⟨fd, hmax, hfree, hbefore, rfl, hmaps⟩⟩⟩
  · obtain ⟨s₃, hunref, hinv, hmaps⟩ := h.unget hsame hc1
    exact ⟨_, s₃, fdtableDup_eq hget hne hinstall hunref, hinv, _, maps_eq ht,
      .inr ⟨e, he, _, maps_eq ht, .inr ⟨hmaps, hret⟩⟩⟩


/-- The part of `fdtable_dup2` between the two uses of the old entry: whatever was at the new descriptor
is closed, and the entry goes there. An error leaves the table as it was. -/
theorem Inv.replace (h : s.Inv) (newfd : Nat) (mem : Bool) (ht : s.tables t = some table)
    (hroom : s.total e + 2 < 2 ^ 32)
    (hsame : s.SameHolders s₁) (hwf1 : s₁.Wf) (ht1 : s₁.tables t = some table)
    (hc1 : s₁.Counted (update s.total e (s.total e + 1))) :
    ∃ closed ret s₂ s₃ s', s₁.fdtableClose t newfd = some (closed, s₂) ∧
      s₂.fdtableInstallAt t newfd e mem = some (ret, s₃) ∧ s₃.fdEntryUnref e = some s' ∧ s'.Inv ∧
      (newfd < FD_TABLE_MAX ∧ ret = newfd ∧
          s'.maps = update s.maps t (some (update table.slot newfd (some e))) ∨
        s'.maps = s.maps ∧ table.slot newfd = none ∧
          (ret = -EMFILE ∧ FD_TABLE_MAX ≤ newfd ∨ ret = -ENOMEM ∧ mem = false)) := by
  have hclose := close_spec newfd hwf1 hc1 ht1 fun e' he' => by
    have hpos := h.slot_pos ht he'
    rw [bump]
    omega
  rcases hclose with ⟨hfree, hclose⟩ | ⟨e', s₂, he', hclose, hst2, ht2, hc2⟩
  · obtain ⟨ret, s₃, hinstall, hcases⟩ := installAt_spec newfd mem hwf1 hc1 ht1
      (bump_pos _ e) (by rw [update_self]; omega)
    rcases hcases with ⟨hmax, -, rfl, hst, hc3⟩ | ⟨rfl, hret⟩
    · obtain ⟨s', hunref, hsame', hc'⟩ := hc3.unref_bump
      obtain ⟨hinv, hmaps⟩ := h.of_stores (hst.of_same hsame hsame') (maps_eq ht) hc' fun v => by
        rw [hfree, if_neg nofun, bump, Nat.add_zero]
      exact ⟨_, _, _, _, s', hclose, hinstall, hunref, hinv, .inl ⟨hmax, rfl, hmaps⟩⟩
    · obtain ⟨s', hunref, hinv, hmaps⟩ := h.unget hsame hc1
      refine ⟨_, _, _, _, s', hclose, hinstall, hunref, hinv, .inr ⟨hmaps, hfree, ?_⟩⟩
      rcases hret with ⟨-, hbusy⟩ | hmax | ⟨hno, hmem, -⟩
      · exact absurd hfree hbusy
      · exact .inl hmax
      · exact .inr ⟨hno, hmem⟩
  · -- The slot is there, so that the table need not grow and the entry always fits.
    have hlt := lt_of_slot he'
    have hfree2 : (table.setSlot newfd none).slot newfd = none := by
      rw [slot_setSlot hlt, update_self]
    have hpos' : 0 < update s.total e (s.total e + 1) e' := by
      have hpos := h.slot_pos ht he'
      rw [bump]
      omega
    have hcnt2 : 0 < update (update s.total e (s.total e + 1)) e'
        (update s.total e (s.total e + 1) e' - 1) e ∧
        update (update s.total e (s.total e + 1)) e'
          (update s.total e (s.total e + 1) e' - 1) e + 1 < 2 ^ 32 := by
      have hshed := shed hpos' e
      have hbump := bump s.total e e
      have hold := h.slot_pos ht he'
      rw [if_pos rfl] at hbump
      by_cases hee : some e' = some e
      · rw [if_pos hee] at hshed
        obtain rfl := some.inj hee
        omega
      · rw [if_neg hee] at hshed
        omega
    obtain ⟨ret, s₃, hinstall, hcases⟩ := installAt_spec newfd mem hst2.wf hc2 ht2
      hcnt2.1 hcnt2.2
    rcases hcases with ⟨hmax, -, rfl, hst, hc3⟩ | ⟨-, hret⟩
    · obtain ⟨s', hunref, hsame', hc'⟩ := hc3.unref_bump
      obtain ⟨hinv, hmaps⟩ := h.of_stores ((hst2.trans hst).of_same hsame hsame') (maps_eq ht) hc'
        fun v => by rw [he', shed hpos', bump]
      exact ⟨_, _, _, _, s', hclose, hinstall, hunref, hinv, .inl ⟨hmax, rfl, hmaps⟩⟩
    · have hlen : (table.setSlot newfd none).entries.length = table.entries.length := length_set
      have hmax := (h.wf.table t table ht).2.1
      rcases hret with ⟨-, hbusy⟩ | ⟨-, hge⟩ | ⟨-, -, hge⟩
      · exact absurd hfree2 hbusy
      · omega
      · omega

theorem Inv.dup2 {oldfd newfd : Int} (h : s.Inv) (hok : callerOk (.dup2 t oldfd newfd mem) s)
    (hfit : countsFit (.dup2 t oldfd newfd mem) s) : s.Meets (.dup2 t oldfd newfd mem) := by
  by_cases hnew : newfd < 0
  · exact ⟨-EINVAL, s, by simp [call, fdtableDup2, hnew], h, by simp [fdSpec, hnew]⟩
  by_cases hnull : t = 0 ∨ oldfd < 0
  · exact ⟨-EBADF, s, by simp [call, fdtableDup2, fdtableGet, hnew, hnull], h, by simp [fdSpec, hnew, hnull]⟩
  obtain ⟨htn, hfd⟩ := not_or.mp hnull
  obtain ⟨oldfd, rfl⟩ := Int.eq_ofNat_of_zero_le (Int.not_lt.mp hfd)
  obtain ⟨newfd, rfl⟩ := Int.eq_ofNat_of_zero_le (Int.not_lt.mp hnew)
  obtain ⟨table, ht⟩ := h.holdsTable hok htn
  have hspec := h.get_two oldfd ht fun e he => by
    have hroom := h.room hfit (h.slot_pos ht he)
    rwa [takes, Int.toNat_natCast, slots_eq ht, if_pos he] at hroom
  unfold Meets
  simp only [fdSpec, if_neg hnew, if_neg hnull, Int.toNat_natCast]
  rcases hspec with ⟨hfree, hget⟩ | ⟨e, s₁, he, hget, hne, hroom, hsame, hwf1, ht1, hc1⟩
  · exact ⟨_, s, by simp [call, fdtableDup2, hnew, hget], h, _, maps_eq ht, .inl ⟨hfree, rfl, rfl⟩⟩
  by_cases hother : oldfd = newfd
  · subst hother
    obtain ⟨s', hunref, hinv, hmaps⟩ := h.unget hsame hc1
    refine ⟨_, s', by simp [call, fdtableDup2, hget, hne, hunref], hinv, _, maps_eq ht,
      .inr ⟨e, he, .inl ⟨h.wf.lt_max ht he, rfl, ?_⟩⟩⟩
    rw [hmaps, ← he, update_eq_self, ← maps_eq ht, update_eq_self]
  · obtain ⟨closed, ret, s₂, s₃, s', hclose, hinstall, hunref, hinv, hcases⟩ :=
      h.replace newfd mem ht hroom hsame hwf1 ht1 hc1
    have hdup : s.fdtableDup2 t oldfd newfd mem = some (if ret < 0 then ret else newfd, s') := by
      simp [fdtableDup2, hnew, hget, hne, hother, hclose, hinstall, hunref]
    refine ⟨_, s', hdup, hinv, _, maps_eq ht, .inr ⟨e, he, ?_⟩⟩
    rcases hcases with ⟨hmax, rfl, hmaps⟩ | ⟨hmaps, hfree, hret⟩
    · exact .inl ⟨hmax, if_neg hnew, hmaps⟩
    · have hneg : ret < 0 := by
        rcases hret with ⟨rfl, -⟩ | ⟨rfl, -⟩ <;> decide
      rw [if_pos hneg]
      exact .inr ⟨hmaps, hfree, hret⟩

/-! ## Entries -/

theorem Inv.openEntry {n : FdEntry} (h : s.Inv) (hok : callerOk (.openEntry e n) s) :
    s.Meets (.openEntry e n) := by
  obtain ⟨hne, hfree, hopen⟩ := hok
  have hzero := h.counted.dead e hfree
  have hclosed := h.counted.closed e
  rw [hfree] at hclosed
  have hc : ({ s.setEntry e { n with refcount := 1 } with
      opened := update s.opened e (s.opened e + 1) } : FdState).Counted
        (update s.total e (s.total e + 1)) := by
    refine h.counted.set rfl (fun n' hn' => ?_) nofun ?_ fun e' he' => ⟨update_of_ne he' .., rfl⟩
    · cases hn'
      rw [hzero]
      exact ⟨rfl, Nat.one_pos, by decide, hopen, hne⟩
    · dsimp only
      rw [update_self, hclosed]
      rfl
  refine ⟨e, _, rfl, ?_, ?_⟩
  · rw [hold, if_neg hne]
    refine h.of_held ⟨rfl, rfl, rfl⟩ hc fun v => ?_
    rw [bump, bump, total, Nat.add_assoc]
    rfl
  · rw [hold, if_neg hne]
    exact ⟨rfl, rfl⟩

theorem Inv.entryRef (h : s.Inv) (hok : callerOk (.entryRef e) s) (hfit : countsFit (.entryRef e) s) :
    s.Meets (.entryRef e) := by
  by_cases hne : e = 0
  · exact ⟨0, s, by simp [call, fdEntryRef, hold, hne], h, rfl⟩
  have hpos := HoldsEntry.pos hok hne
  have hroom := h.room hfit hpos
  simp only [takes, if_true] at hroom
  obtain ⟨s', href, hsame, hc⟩ := h.counted.ref hpos hroom
  refine ⟨0, s'.hold e, by simp [call, href], ?_, ?_⟩ <;> rw [hold, if_neg hne]
  · refine h.of_held hsame hc fun v => ?_
    rw [bump, hsame.2.1, bump, total, Nat.add_assoc]
  · exact hsame.maps

theorem Inv.entryUnref (h : s.Inv) (hok : callerOk (.entryUnref e) s) : s.Meets (.entryUnref e) := by
  by_cases hne : e = 0
  · exact ⟨0, s, by simp [call, fdEntryUnref, drop, hne], h, rfl⟩
  have hpos := HoldsEntry.pos hok hne
  obtain ⟨s', hunref, hsame, hc⟩ := h.counted.unref hpos
  refine ⟨0, s'.drop e, by simp [call, hunref], ?_, ?_⟩ <;> rw [drop, if_neg hne]
  · refine h.of_held hsame hc fun v => ?_
    have hshed := shed hpos v
    have hshed' := shed (hok.resolve_left hne) v
    unfold total at hshed ⊢
    rw [hsame.2.1]
    omega
  · exact hsame.maps

/-! ## Tables -/

theorem slot_replicate (k refcount : Nat) : FdTable.slot ⟨List.replicate k none, refcount⟩ = fun _ => none := by
  have h := slot_append_replicate ⟨[], refcount⟩ k
  rw [nil_append] at h
  rw [h]
  rfl

theorem Inv.newTable (s₁ : FdState) (table : FdTable) (h : s.Inv) (hne : t ≠ 0) (ht : s.tables t = none)
    (hlen : table.entries.length ≤ FD_TABLE_MAX) (hcount : table.refcount = 1)
    (htables : s₁.tables = update s.tables t (some table)) (hheld : s₁.held = s.held)
    (htableHeld : s₁.tableHeld = s.tableHeld)
    (hc : s₁.Counted (fun v => s.total v + table.entries.count (some v))) :
    (s₁.holdTable t).Inv ∧ (s₁.holdTable t).maps = update s.maps t (some table.slot) := by
  rw [holdTable, if_neg hne]
  have hc' : ({ s₁ with tableHeld := update s₁.tableHeld t (s₁.tableHeld t + 1) } : FdState).Counted
      (fun v => s.total v + table.entries.count (some v)) := hc.congr rfl rfl rfl
  obtain ⟨hwf, hmaps, hrefs⟩ := Wf.newTable
    { s₁ with tableHeld := update s₁.tableHeld t (s₁.tableHeld t + 1) } h.wf hne ht hlen hcount htables
    (by rw [htableHeld])
  refine ⟨⟨hwf, hc'.of_eq fun v => ?_⟩, hmaps⟩
  unfold total
  rw [hrefs, hheld]
  omega

/-- A table without entries. -/
theorem Inv.newSpec_create {table : Option Nat} (h : s.Inv) (hfresh : s.FreshTable table) :
    ((s.fdtableCreate table mem).2.holdTable (s.fdtableCreate table mem).1).Inv ∧
      NewSpec s.maps table mem (fun _ => none) (s.fdtableCreate table mem).1
        ((s.fdtableCreate table mem).2.holdTable (s.fdtableCreate table mem).1).maps := by
  cases table with
  | none => exact ⟨h, .inr ⟨.inl rfl, rfl, rfl⟩⟩
  | some t =>
  obtain ⟨hne, ht⟩ := hfresh t rfl
  cases mem with
  | false => exact ⟨h, .inr ⟨.inr rfl, rfl, rfl⟩⟩
  | true =>
  have hc : (s.setTable t ⟨List.replicate FD_TABLE_INITIAL none, 1⟩).Counted s.total :=
    h.counted.congr rfl rfl rfl
  obtain ⟨hinv, hmaps⟩ := Inv.newTable (s.setTable t ⟨List.replicate FD_TABLE_INITIAL none, 1⟩)
    ⟨List.replicate FD_TABLE_INITIAL none, 1⟩ h hne ht (by decide) rfl rfl rfl rfl (hc.of_eq fun v => by simp [count_replicate])
  rw [slot_replicate] at hmaps
  exact ⟨hinv, .inl ⟨t, rfl, rfl, rfl, hmaps⟩⟩

theorem Inv.create {table : Option Nat} (h : s.Inv) (hok : callerOk (.create table mem) s) :
    s.Meets (.create table mem) :=
  ⟨_, _, rfl, h.newSpec_create hok⟩

theorem slot_of_mem (h : some e ∈ table.entries) : ∃ fd, table.slot fd = some e := by
  obtain ⟨fd, hfd⟩ := List.mem_iff_getElem?.mp h
  exact ⟨fd, by rw [FdTable.slot, hfd]; rfl⟩

theorem Inv.clone {src : Nat} {new : Option Nat} (h : s.Inv) (hok : callerOk (.clone src new mem) s)
    (hfit : countsFit (.clone src new mem) s) : s.Meets (.clone src new mem) := by
  by_cases hnull : src = 0
  · refine ⟨(s.fdtableCreate new mem).1, (s.fdtableCreate new mem).2.holdTable (s.fdtableCreate new mem).1,
      by simp [call, fdtableClone, hnull], ?_⟩
    rw [fdSpec, if_pos hnull]
    exact h.newSpec_create hok.2
  obtain ⟨source, hsource⟩ := h.holdsTable hok.1 hnull
  unfold Meets
  simp only [fdSpec, if_neg hnull]
  cases new with
  | none =>
    exact ⟨0, s, by simp [call, fdtableClone, hnull, holdTable], h, _, maps_eq hsource,
      .inr ⟨.inl rfl, rfl, rfl⟩⟩
  | some t =>
  cases mem with
  | false =>
    exact ⟨0, s, by simp [call, fdtableClone, hnull, hsource, holdTable], h, _, maps_eq hsource,
      .inr ⟨.inr rfl, rfl, rfl⟩⟩
  | true =>
  obtain ⟨hne, ht⟩ := hok.2 t rfl
  have hc : (s.setTable t ⟨[] ++ List.replicate source.entries.length none, 1⟩).Counted s.total :=
    h.counted.congr rfl rfl rfl
  obtain ⟨s₁, hloop, htables, hheld, htableHeld, hc1⟩ := cloneSlots_spec source.entries hc
    (setTable_self ..) fun v hv => by
      obtain ⟨fd, hfd⟩ := slot_of_mem (count_pos_iff.mp hv)
      have hpos := h.slot_pos hsource hfd
      have hroom := h.room hfit hpos
      rw [takes, hsource] at hroom
      exact ⟨hpos, hroom⟩
  rw [setTable, update_idem, nil_append] at htables
  obtain ⟨hinv, hmaps⟩ := Inv.newTable s₁ ⟨source.entries, 1⟩ h hne ht
    (h.wf.table src source hsource).2.1 rfl htables hheld htableHeld hc1
  rw [length_nil, nil_append] at hloop
  exact ⟨t, s₁.holdTable t, by simp [call, fdtableClone, hnull, hsource, hloop], hinv, _,
    maps_eq hsource, .inl ⟨t, rfl, rfl, rfl, hmaps⟩⟩

/-- The count of a table goes up or down with those who hold it. -/
theorem Inv.recount {c : Nat} (s' : FdState) (h : s.Inv) (ht : s.tables t = some table) (hpos : 0 < c)
    (hlt : c < 2 ^ 32) (htables : s'.tables = (s.setTable t { table with refcount := c }).tables)
    (hheld : s'.held = s.held) (htableHeld : s'.tableHeld = update s.tableHeld t c)
    (hc : s'.Counted s.total) : s'.Inv ∧ s'.maps = s.maps := by
  have hmaps : s'.maps = s.maps := by
    rw [maps_update htables, map_some,
      show FdTable.slot { table with refcount := c } = table.slot from rfl, ← maps_eq ht, update_eq_self]
  have hfinite : Finitary s'.slots := by
    rw [slots_congr hmaps]
    exact h.wf.finite
  obtain ⟨hne, hlen, -⟩ := h.wf.table t table ht
  refine ⟨⟨h.wf.replace htables htableHeld ?_ nofun hfinite, hc.of_eq fun v => ?_⟩, hmaps⟩
  · rintro _ ⟨⟩
    exact ⟨hne, hlen, rfl, hpos, hlt⟩
  · unfold total
    rw [slots_congr hmaps, hheld]

theorem Inv.tableRef (h : s.Inv) (hok : callerOk (.tableRef t) s) (hfit : countsFit (.tableRef t) s) :
    s.Meets (.tableRef t) := by
  by_cases hne : t = 0
  · exact ⟨0, s, by simp [call, fdtableRef, holdTable, hne], h, rfl⟩
  obtain ⟨table, ht⟩ := h.holdsTable hok hne
  have hlt := hfit.2 t table rfl ht
  obtain ⟨-, -, hcount, -, -⟩ := h.wf.table t table ht
  have hcall : s.call (.tableRef t) = some (0, (s.setTable t
      { table with refcount := table.refcount + 1 }).holdTable t) := by
    rw [call, fdtableRef, if_neg hne, ht, bind_eq_bind, bind_eq_bind, bind_some, Nat.mod_eq_of_lt hlt]
    rfl
  refine ⟨_, _, hcall, ?_⟩
  rw [holdTable, if_neg hne]
  exact Inv.recount { s.setTable t { table with refcount := table.refcount + 1 } with
      tableHeld := update s.tableHeld t (s.tableHeld t + 1) } h ht (Nat.succ_pos _) hlt rfl rfl
    (by rw [hcount]) (h.counted.congr rfl rfl rfl)

theorem Inv.freeTable (s' : FdState) (h : s.Inv) (ht : s.tables t = some table)
    (htables : s'.tables = update s.tables t none) (hheld : s'.held = s.held)
    (htableHeld : s'.tableHeld = update s.tableHeld t 0)
    (hc : s'.Counted (fun v => s.total v - table.entries.count (some v))) :
    s'.Inv ∧ s'.maps = update s.maps t none := by
  obtain ⟨hwf, hmaps, hrefs⟩ := Wf.freeTable s' h.wf ht htables htableHeld
  refine ⟨⟨hwf, hc.of_eq fun v => ?_⟩, hmaps⟩
  unfold total
  rw [hrefs, hheld]
  omega

theorem Inv.tableUnref (h : s.Inv) (hok : callerOk (.tableUnref t) s) : s.Meets (.tableUnref t) := by
  by_cases hne : t = 0
  · subst hne
    have hnone : s.tables 0 = none := by
      cases ht : s.tables 0 with
      | none => rfl
      | some table => exact absurd rfl (h.wf.table 0 table ht).1
    exact ⟨0, s, by simp [call, fdtableUnref, dropTable], h, by simp [fdSpec, h.wf.free 0 hnone]⟩
  obtain ⟨table, ht⟩ := h.holdsTable hok hne
  obtain ⟨-, -, hcount, hpos, hlt⟩ := h.wf.table t table ht
  have hremaining : (table.refcount + (2 ^ 32 - 1)) % 2 ^ 32 = table.refcount - 1 := by omega
  by_cases hmore : 0 < table.refcount - 1
  · have hcall : s.call (.tableUnref t) = some (0, (s.setTable t
        { table with refcount := table.refcount - 1 }).dropTable t) := by
      rw [call, fdtableUnref, if_neg hne, ht, bind_eq_bind, bind_eq_bind, bind_some, hremaining]
      simp [hmore]
    refine ⟨_, _, hcall, ?_⟩
    rw [fdSpec, if_neg (by omega), dropTable, if_neg hne]
    exact Inv.recount { s.setTable t { table with refcount := table.refcount - 1 } with
        tableHeld := update s.tableHeld t (s.tableHeld t - 1) } h ht hmore (by omega) rfl rfl
      (by rw [hcount]) (h.counted.congr rfl rfl rfl)
  · have hone : s.tableHeld t = 1 := by omega
    obtain ⟨-, -, hbefore⟩ := Wf.freeTable { s with
      tables := update s.tables t none, tableHeld := update s.tableHeld t 0 } h.wf ht rfl rfl
    obtain ⟨s₁, hloop, ⟨htables, hheld, htableHeld⟩, hc1⟩ := unrefSlots_spec table.entries h.counted
      fun v => by
        have hv := hbefore v
        unfold total
        omega
    have hcall : s.call (.tableUnref t) =
        some (0, ({ s₁ with tables := update s₁.tables t none } : FdState).dropTable t) := by
      rw [call, fdtableUnref, if_neg hne, ht, bind_eq_bind, bind_eq_bind, bind_some, hremaining]
      simp [hmore, hloop]
    refine ⟨_, _, hcall, ?_⟩
    rw [fdSpec, if_pos hone, dropTable, if_neg hne]
    exact Inv.freeTable { s₁ with
        tables := update s₁.tables t none
        tableHeld := update s₁.tableHeld t (s₁.tableHeld t - 1) } h ht
      (by rw [htables]) hheld (by rw [htableHeld, hone]) (hc1.congr rfl rfl rfl)

/-! ## Runs -/

theorem Inv.call (h : s.Inv) (hok : callerOk op s) (hfit : countsFit op s) : s.Meets op := by
  cases op with
  | create table mem => exact h.create hok
  | openEntry e n => exact h.openEntry hok
  | install t e mem => exact h.install hok hfit
  | installAt t fd e mem => exact h.installAt hok hfit
  | get t fd => exact h.get hok hfit
  | close t fd => exact h.close hok
  | dup t oldfd mem => exact h.dup hok hfit
  | dup2 t oldfd newfd mem => exact h.dup2 hok hfit
  | clone src table mem => exact h.clone hok hfit
  | tableRef t => exact h.tableRef hok hfit
  | tableUnref t => exact h.tableUnref hok
  | entryRef e => exact h.entryRef hok hfit
  | entryUnref e => exact h.entryUnref hok

theorem Inv.step {i : Nat} (h : s.Inv) (hok : callerOk op s) (hfit : countsFit op s)
    (hstep : FdState.step i op s = some s') : s'.Inv := by
  obtain ⟨ret, s₁, hcall, hinv, -⟩ := h.call hok hfit
  rw [FdState.step, hcall, map_some, some.injEq] at hstep
  exact hstep ▸ hinv

/-- In every run in which no count reaches 2^32 the references are accounted for, and every call does to
the maps what `fdSpec` says. -/
theorem fdtable_refines_maps (hrun : Run FdState.step (fun op s => callerOk op s ∧ countsFit op s) empty s) :
    s.Accounted ∧ ∀ op, callerOk op s → countsFit op s →
      ∃ ret s', s.call op = some (ret, s') ∧ s.fdSpec op ret s'.maps := by
  have hinv : s.Inv := by
    induction hrun with
    | init => exact inv_empty
    | next _ hok hstep ih => exact ih.step hok.1 hok.2 hstep
  refine ⟨hinv.accounted, fun op hok hfit => ?_⟩
  obtain ⟨ret, s', hcall, -, hspec⟩ := hinv.call hok hfit
  exact ⟨ret, s', hcall, hspec⟩

/-- An open file. -/
def file : FdEntry := ⟨.file, 1, 0, 0⟩

/-- A table and an entry that is in no slot. -/
def fileAndTable : FdState where
  entries := update (fun _ => none) 2 (some ⟨.file, 1, 0, 1⟩)
  tables := update (fun _ => none) 1 (some ⟨List.replicate FD_TABLE_INITIAL none, 1⟩)
  held := update (fun _ => 0) 2 1
  tableHeld := update (fun _ => 0) 1 1
  opened := update (fun _ => 0) 2 1
  closed := fun _ => 0

theorem fdtable_refines_maps_install : fileAndTable.Accounted ∧
    ∃ ret s', fileAndTable.call (.install 1 2 true) = some (ret, s') ∧
      fileAndTable.fdSpec (.install 1 2 true) ret s'.maps := by
  have hcreate : FdState.step 0 (.create (some 1) true) empty = some { empty with
      tables := fileAndTable.tables, tableHeld := fileAndTable.tableHeld } := rfl
  have hopen : FdState.step 0 (.openEntry 2 file) { empty with
      tables := fileAndTable.tables, tableHeld := fileAndTable.tableHeld } = some fileAndTable := rfl
  have hrun : Run FdState.step (fun op s => callerOk op s ∧ countsFit op s) empty fileAndTable := by
    refine .next (.next .init ?_ hcreate) ?_ hopen
    · refine ⟨fun t ht => ?_, nofun, nofun⟩
      cases ht
      exact ⟨by decide, rfl⟩
    · exact ⟨⟨by decide, rfl, by decide⟩, nofun, nofun⟩
  obtain ⟨hacc, hcall⟩ := fdtable_refines_maps hrun
  refine ⟨hacc, hcall _ ⟨.inr (by decide), .inr (by decide)⟩ ⟨fun e n hn => ?_, nofun⟩⟩
  by_cases he : e = 2
  · subst he
    cases hn
    decide
  · simp [fileAndTable, he] at hn

/-! ## A count that wraps -/

/-- After `k` more references the count is `k + 1`, as a `uint32_t`. -/
theorem run_entryRef (k : Nat) : ∃ s, Run FdState.step callerOk empty s ∧
    s.entries 1 = some ⟨.file, 1, 0, (k + 1) % 2 ^ 32⟩ ∧ s.held 1 = k + 1 ∧ s.closed 1 = 0 := by
  induction k with
  | zero =>
    have hstep : FdState.step 0 (.openEntry 1 file) empty = some { empty with
        entries := update empty.entries 1 (some ⟨.file, 1, 0, 1⟩)
        held := update empty.held 1 1
        opened := update empty.opened 1 1 } := rfl
    have hok : callerOk (.openEntry 1 file) empty := ⟨by decide, rfl, by decide⟩
    exact ⟨_, .next .init hok hstep, rfl, rfl, rfl⟩
  | succ k ih =>
    obtain ⟨s, hrun, hentry, hheld, hclosed⟩ := ih
    have hstep : FdState.step 0 (.entryRef 1) s = some ((s.setEntry 1
        ⟨.file, 1, 0, ((k + 1) % 2 ^ 32 + 1) % 2 ^ 32⟩).hold 1) := by
      simp [FdState.step, FdState.call, fdEntryRef, hentry]
    have hok : callerOk (.entryRef 1) s := .inr (by rw [hheld]; exact Nat.succ_pos k)
    refine ⟨_, .next hrun hok hstep, ?_, ?_, hclosed⟩
    · simp [hold, setEntry]
    · simp [hold, setEntry, hheld]

/-- 2^32 references more make the count 1 again: the next reference that is given back closes the file,
which 2^32 others still use. -/
theorem entry_count_wraps : ∃ s s', Run FdState.step callerOk empty s ∧ ¬ s.Accounted ∧
    callerOk (.entryUnref 1) s ∧ FdState.step 0 (.entryUnref 1) s = some s' ∧ s'.entries 1 = none ∧
    s'.closed 1 = 1 ∧ s'.held 1 = 2 ^ 32 := by
  obtain ⟨s, hrun, hentry, hheld, hclosed⟩ := run_entryRef (2 ^ 32)
  have hstep : FdState.step 0 (.entryUnref 1) s = some (({ s with
      entries := update s.entries 1 none
      closed := update s.closed 1 (s.closed 1 + 1) } : FdState).drop 1) := by
    simp [FdState.step, FdState.call, fdEntryUnref, hentry, FdEntry.isOpen]
  refine ⟨s, _, hrun, fun hacc => ?_, .inr (by rw [hheld]; exact Nat.succ_pos _), hstep, ?_, ?_, ?_⟩
  · obtain ⟨hcount, -⟩ := hacc.refcount 1 _ hentry
    rw [hheld] at hcount
    dsimp only at hcount
    omega
  · simp [drop]
  · simp [drop, hclosed]
  · simp [drop, hheld]

end FdState

end Lapis.Sched.Fd
