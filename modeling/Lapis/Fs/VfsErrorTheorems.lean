/-
Lapis.Fs.VfsErrorTheorems — the sign of the errors of the VFS.

The VFS returns EOK or a negative errno, the ramfs EOK or a positive one, and the VFS hands the errors of
the ramfs on. So the sign of an error depends on which layer found it: a component below something that is
no directory is found by the VFS, a component that is missing by the ramfs. `Present` says that a lookup
meets no missing component, and `Good` what a call needs besides.
-/
import Lapis.Fs.VfsTreeTheorems

namespace Lapis.Fs

open Mm Util
open Option

namespace Ramfs

variable {r : Ramfs} {d c m : Nat} {n : RamfsNode} {names : List Str} {text : Str}

/-! ## Components that are there -/

def IsDirectory (r : Ramfs) (d : Nat) : Prop := ∃ n, r.nodes d = some n ∧ n.type = .directory

/-- Every component of a lookup that follows no links is in its directory. -/
def PlainPresent (r : Ramfs) : Nat → List Str → Prop
  | _, [] => True
  | d, name :: rest => r.IsDirectory d → ∃ c, r.childOf d name = some c ∧ r.PlainPresent c rest

/-- A link has a text, every component of the text is in its directory, and a text that leads to a node
other than the root does not end with a slash. -/
def LinkPresent (r : Ramfs) (n : RamfsNode) : Prop :=
  n.data ≠ 0 ∧ ∃ text, r.linkText n = some text ∧
    (text.head? = some slash → r.PlainPresent r.rootNode (components text) ∧
      (text.getLast? = some slash → components text = [] ∨ r.walk (components text) = none))

/-- The text of a link is a path to the root. -/
def LeadsToRoot (r : Ramfs) (n : RamfsNode) : Prop :=
  ∃ text, r.linkText n = some text ∧ text.head? = some slash ∧ components text = []

/-- Every component of a lookup is in its directory. The lookup ends at a link, unless the link leads to
the root. -/
def Present (r : Ramfs) : Nat → List Str → Prop
  | _, [] => True
  | d, name :: rest => r.IsDirectory d → ∃ c n, r.childOf d name = some c ∧ r.nodes c = some n ∧
      (n.type ≠ .symlink → r.Present c rest) ∧
      (n.type = .symlink → r.LinkPresent n ∧ (r.LeadsToRoot n → r.Present r.rootNode rest))

/-! ## Lookups -/

/-- There is a result, and if it is an error, it is not positive. -/
def Quiet {α : Type} (result : Option (Except Int α)) : Prop :=
  ∃ a, result = some a ∧ ∀ e, a = .error e → e ≤ 0

theorem quiet_ok {α : Type} (a : α) : Quiet (some (.ok a)) := ⟨_, rfl, nofun⟩

theorem quiet_error {α : Type} {e : Int} : Quiet (some (.error e : Except Int α)) ↔ e ≤ 0 := by
  constructor
  · rintro ⟨a, ha, h⟩
    exact h e (some.inj ha).symm
  · intro h
    refine ⟨_, rfl, fun e' he => ?_⟩
    cases he
    exact h

theorem not_quiet_none {α : Type} : ¬ Quiet (none : Option (Except Int α)) := by
  rintro ⟨a, ha, -⟩
  cases ha

theorem isDirectory_of_childOf {name : Str} (hc : r.childOf d name = some c) : r.IsDirectory d := by
  cases hn : r.nodes d with
  | none =>
    simp [childOf_of_none hn] at hc
  | some n =>
    refine ⟨n, hn, ?_⟩
    by_contra hdir
    simp [childOf_of_not_dir hn hdir] at hc

/-- The lookup at a node that is no directory, and at a name that is missing. -/
theorem Tree.walkWith_first (h : r.Tree) {q : List Str} {name : Str} {rest : List Str}
    (fol : Nat → Option Follow) (hd : r.walk q = some d) :
    (¬ r.IsDirectory d ∧ r.walkWith fol d (name :: rest) = some (.error (-ENOTDIR))) ∨
    (r.IsDirectory d ∧ r.childOf d name = none ∧ r.walkWith fol d (name :: rest) = some (.error ENOENT)) ∨
    ∃ c n, r.IsDirectory d ∧ r.childOf d name = some c ∧ r.nodes c = some n ∧ r.walk (q ++ [name]) = some c ∧
      r.walkWith fol d (name :: rest) = (do
        match ← fol c with
        | .stay m => r.walkWith fol m rest
        | .jump m => some (.ok m)
        | .fail e => some (.error e)) := by
  obtain ⟨n, hn, -⟩ := h.node q d hd
  by_cases hdir : n.type = .directory
  · cases hc : r.childOf d name with
    | none => exact .inr (.inl ⟨⟨n, hn, hdir⟩, rfl, walkWith_of_missing hn hdir hc⟩)
    | some c =>
      have hwalk : r.walk (q ++ [name]) = some c := by rw [walk_concat, hd, bind_some, hc]
      obtain ⟨k, hk, -⟩ := h.node _ c hwalk
      exact .inr (.inr ⟨c, k, ⟨n, hn, hdir⟩, rfl, hk, hwalk, walkWith_of_child hn hdir hc⟩)
  · refine .inl ⟨?_, walkWith_of_not_dir hn hdir⟩
    rintro ⟨n', hn', hdir'⟩
    cases hn.symm.trans hn'
    exact hdir hdir'

theorem Tree.plain_quiet (h : r.Tree) {q : List Str} (hd : r.walk q = some d) (names : List Str) :
    Quiet (r.walkWith (fun c => some (.stay c)) d names) ↔ r.PlainPresent d names := by
  induction names generalizing d q with
  | nil => exact ⟨fun _ => trivial, fun _ => quiet_ok d⟩
  | cons name names ih =>
    unfold PlainPresent
    rcases h.walkWith_first (fun c => some (.stay c)) hd with
      ⟨hdir, heq⟩ | ⟨hdir, hc, heq⟩ | ⟨c, n, hdir, hc, hn, hwalk, heq⟩ <;> rw [heq]
    · exact ⟨fun _ hd => absurd hd hdir, fun _ => quiet_error.mpr (by decide)⟩
    · refine ⟨fun hq => absurd (quiet_error.mp hq) (by decide), fun hp => ?_⟩
      obtain ⟨c, hc', -⟩ := hp hdir
      rw [hc] at hc'
      cases hc'
    · refine (ih hwalk).trans ⟨fun hp _ => ⟨c, hc, hp⟩, fun hp => ?_⟩
      obtain ⟨c', hc', hp⟩ := hp hdir
      cases hc.symm.trans hc'
      exact hp

/-- The lookup of the text of a link is quiet, and `stay` and `jump` say where it leads. -/
def QuietFollow (f : Option Follow) : Prop :=
  match f with
  | none => False
  | some (.fail e) => e ≤ 0
  | some _ => True

theorem Tree.followText_quiet (h : r.Tree) (text : Str) : QuietFollow (r.followText text) ↔
      (text.head? = some slash → r.PlainPresent r.rootNode (components text) ∧
        (text.getLast? = some slash → components text = [] ∨ r.walk (components text) = none)) := by
  unfold followText
  by_cases habs : text.head? = some slash
  · rw [if_neg (not_not_intro habs)]
    by_cases hnil : components text = []
    · rw [if_pos hnil, hnil]
      exact ⟨fun _ _ => ⟨trivial, fun _ => .inl rfl⟩, fun _ => trivial⟩
    rw [if_neg hnil]
    have hquiet : Quiet (r.plain (components text)) ↔ r.PlainPresent r.rootNode (components text) :=
      h.plain_quiet r.walk_nil (components text)
    rw [← hquiet]
    rcases h.plain_cases (components text) with ⟨m, hwalk, hplain⟩ | ⟨hwalk, e, -, hplain⟩
    · rw [hwalk, hplain]
      dsimp only [bind_eq_bind, bind_some]
      by_cases hlast : text.getLast? = some slash
      · rw [if_pos hlast]
        refine ⟨False.elim, fun hp => ?_⟩
        rcases (hp habs).2 hlast with hc | hc
        · exact hnil hc
        · cases hc
      · rw [if_neg hlast]
        exact ⟨fun _ _ => ⟨quiet_ok m, fun hc => absurd hc hlast⟩, fun _ => trivial⟩
    · rw [hwalk, hplain, quiet_error]
      exact ⟨fun he _ => ⟨he, fun _ => .inr rfl⟩, fun hp => (hp habs).1⟩
  · rw [if_pos habs]
    exact ⟨fun _ hc => absurd hc habs, fun _ => (by decide : -ENOENT ≤ 0)⟩

theorem followNode_link (hn : r.nodes c = some n) (hlink : n.type = .symlink) (hdata : n.data ≠ 0)
    (htext : r.linkText n = some text) : r.followNode c = r.followText text := by
  unfold followNode
  rw [hn, bind_eq_bind, bind_some, if_neg (not_not_intro hlink), if_neg hdata, htext]
  rfl

theorem Tree.followNode_quiet (h : r.Tree) (hn : r.nodes c = some n) (hlink : n.type = .symlink) :
    QuietFollow (r.followNode c) ↔ r.LinkPresent n := by
  by_cases hdata : n.data = 0
  · have hfail : r.followNode c = some (.fail EINVAL) := by
      unfold followNode
      rw [hn, bind_eq_bind, bind_some, if_neg (not_not_intro hlink), if_pos hdata]
    rw [hfail]
    exact ⟨fun hc => absurd hc (by decide : ¬ EINVAL ≤ 0), fun hc => absurd hdata hc.1⟩
  · cases htext : r.linkText n with
    | none =>
      have hnone : r.followNode c = none := by
        unfold followNode
        rw [hn, bind_eq_bind, bind_some, if_neg (not_not_intro hlink), if_neg hdata, htext]
        rfl
      rw [hnone]
      refine ⟨False.elim, ?_⟩
      rintro ⟨-, text, hc, -⟩
      simp [htext] at hc
    | some text =>
      rw [followNode_link hn hlink hdata htext, h.followText_quiet]
      refine ⟨fun hp => ⟨hdata, text, htext, hp⟩, ?_⟩
      rintro ⟨-, text', htext', hp⟩
      cases htext.symm.trans htext'
      exact hp

/-- A link at which the lookup goes on leads to the root. -/
theorem followNode_stay (hn : r.nodes c = some n) (hlink : n.type = .symlink)
    (hstay : r.followNode c = some (.stay m)) : m = r.rootNode ∧ r.LeadsToRoot n := by
  unfold followNode at hstay
  rw [hn, bind_eq_bind, bind_some, if_neg (not_not_intro hlink)] at hstay
  by_cases hdata : n.data = 0
  · simp [if_pos hdata] at hstay
  rw [if_neg hdata] at hstay
  obtain ⟨text, htext, hstay⟩ := bind_eq_some_iff.mp hstay
  unfold followText at hstay
  split at hstay
  · cases hstay
  · case _ habs =>
    split at hstay
    · case _ hnil =>
      cases hstay
      exact ⟨rfl, text, htext, not_not.mp habs, hnil⟩
    obtain ⟨a, -, hstay⟩ := bind_eq_some_iff.mp hstay
    cases a with
    | error e => cases hstay
    | ok m =>
      dsimp only at hstay
      split at hstay <;> cases hstay

theorem followNode_root (hn : r.nodes c = some n) (hlink : n.type = .symlink) (hdata : n.data ≠ 0)
    (hroot : r.LeadsToRoot n) : r.followNode c = some (.stay r.rootNode) := by
  obtain ⟨text, htext, habs, hnil⟩ := hroot
  rw [followNode_link hn hlink hdata htext, followText, if_neg (not_not_intro habs), if_pos hnil]

theorem Tree.quiet_iff (h : r.Tree) {q : List Str} (hd : r.walk q = some d) (names : List Str) :
    Quiet (r.walkWith r.followNode d names) ↔ r.Present d names := by
  induction names generalizing d q with
  | nil => exact ⟨fun _ => trivial, fun _ => quiet_ok d⟩
  | cons name names ih =>
    unfold Present
    rcases h.walkWith_first r.followNode hd with
      ⟨hdir, heq⟩ | ⟨hdir, hc, heq⟩ | ⟨c, n, hdir, hc, hn, hwalk, heq⟩ <;> rw [heq]
    · exact ⟨fun _ hd => absurd hd hdir, fun _ => quiet_error.mpr (by decide)⟩
    · refine ⟨fun hq => absurd (quiet_error.mp hq) (by decide), fun hp => ?_⟩
      obtain ⟨c, n, hc', -⟩ := hp hdir
      rw [hc] at hc'
      cases hc'
    have hsimp : (r.IsDirectory d → ∃ c n, r.childOf d name = some c ∧ r.nodes c = some n ∧
        (n.type ≠ .symlink → r.Present c names) ∧
        (n.type = .symlink → r.LinkPresent n ∧ (r.LeadsToRoot n → r.Present r.rootNode names))) ↔
        (n.type ≠ .symlink → r.Present c names) ∧
        (n.type = .symlink → r.LinkPresent n ∧ (r.LeadsToRoot n → r.Present r.rootNode names)) := by
      refine ⟨fun hp => ?_, fun hp _ => ⟨c, n, hc, hn, hp⟩⟩
      obtain ⟨c', n', hc', hn', hp⟩ := hp hdir
      cases hc.symm.trans hc'
      cases hn.symm.trans hn'
      exact hp
    rw [hsimp]
    by_cases hlink : n.type = .symlink
    · simp only [hlink, ne_eq, not_true_eq_false, false_implies, true_and, forall_const]
      have hquiet := h.followNode_quiet hn hlink
      cases hf : r.followNode c with
      | none =>
        rw [hf] at hquiet
        exact ⟨fun hc => absurd hc not_quiet_none, fun hc => (hquiet.mpr hc.1).elim⟩
      | some f =>
      rw [hf] at hquiet
      cases f with
      | stay m =>
        obtain ⟨rfl, hroot⟩ := followNode_stay hn hlink hf
        refine (ih r.walk_nil).trans ⟨fun hp => ⟨hquiet.mp trivial, fun _ => hp⟩, fun hp => hp.2 hroot⟩
      | jump m =>
        refine ⟨fun _ => ⟨hquiet.mp trivial, fun hroot => ?_⟩, fun _ => quiet_ok m⟩
        simp [followNode_root hn hlink (hquiet.mp trivial).1 hroot] at hf
      | fail e =>
        refine quiet_error.trans ⟨fun he => ⟨hquiet.mp he, fun hroot => ?_⟩, fun hp => hquiet.mpr hp.1⟩
        simp [followNode_root hn hlink (hquiet.mp he).1 hroot] at hf
    · have hstay : r.followNode c = some (.stay c) := by
        unfold followNode
        rw [hn, bind_eq_bind, bind_some, if_pos hlink]
      rw [hstay]
      refine (ih hwalk).trans ⟨fun hp => ⟨fun _ => hp, fun hc => absurd hc hlink⟩, fun hp => hp.1 hlink⟩

theorem Tree.resolve_quiet (h : r.Tree) (names : List Str) :
    Quiet (r.resolve names) ↔ r.Present r.rootNode names := h.quiet_iff r.walk_nil names

end Ramfs

namespace Vfs

open Ramfs (Quiet)

variable {s : Vfs} {path : Str} {d : Nat} {u : VnodePtr}

/-! ## Calls in a directory -/

/-- The status of a call. -/
def statusOf {α : Type} : Except Int α → Int
  | .ok _ => EOK
  | .error e => e

/-- The directory of an absolute path is found without a missing component, and fulfils `P`. -/
def GoodIn (s : Vfs) (path : Str) (P : Nat → Prop) : Prop :=
  path.head? = some slash → s.ramfs.Present s.ramfs.rootNode (dirNames path) ∧
    ∀ d, s.ramfs.resolve (dirNames path) = some (.ok d) → P d

theorem inParent_nonpos (hs : s.Sound) {P : Nat → Prop} {op : Ramfs → Vnode → Str → Option (Int × Ramfs)}
    (hop : ∀ d u, s.Refers u d →
      ((∃ e r, op s.ramfs (s.get u) (baseName path) = some (e, r) ∧ e ≤ 0) ↔ P d)) :
    (∃ e s', s.inParent path op = some (e, s') ∧ e ≤ 0) ↔ s.GoodIn path P := by
  unfold GoodIn
  by_cases habs : path.head? = some slash
  · rw [← hs.tree.resolve_quiet]
    rcases inParent_found hs habs op with
      ⟨hres, heq⟩ | ⟨e, next, hres, heq⟩ | ⟨d, u, next, hres, hu, heq⟩ <;> rw [hres, heq]
    · refine ⟨?_, fun h => absurd (h habs).1 Ramfs.not_quiet_none⟩
      rintro ⟨e, s', h, -⟩
      cases h
    · rw [Ramfs.quiet_error]
      constructor
      · rintro ⟨e', s', h, he⟩ _
        cases h
        exact ⟨he, nofun⟩
      · exact fun h => ⟨e, _, rfl, (h habs).1⟩
    · constructor
      · rintro ⟨e, s', h, he⟩ _
        obtain ⟨⟨e1, r'⟩, hresult, heq⟩ := map_eq_some_iff.mp h
        obtain ⟨rfl, -⟩ := Prod.mk.inj heq
        refine ⟨Ramfs.quiet_ok d, fun d' hd' => ?_⟩
        cases hd'
        exact (hop d u hu).mp ⟨e1, r', hresult, he⟩
      · intro h
        obtain ⟨e, r', hop', he⟩ := (hop d u hu).mpr ((h habs).2 d rfl)
        exact ⟨e, _, by rw [hop']; rfl, he⟩
  · refine ⟨fun _ hc => absurd hc habs, fun _ => ?_⟩
    rcases inParent_relative hs habs op with h | h
    · exact ⟨_, _, h, by decide⟩
    · exact ⟨_, _, h, by decide⟩

section Add

variable {type : RamfsType} {init : RamfsNode → Ramfs → Option (RamfsNode × Ramfs)} {name : Str}

/-- A directory has no node of a name, and the next node can be allocated. -/
def NewIn (s : Vfs) (name : Str) (d : Nat) : Prop :=
  s.ramfs.IsDirectory d ∧ s.ramfs.childOf d name = none ∧ ∃ c rest, s.ramfs.Fresh c rest

/-- A call that makes a node succeeds, or fails with a positive error. -/
theorem addNode_nonpos (hs : s.Sound) (hu : s.Refers u d) {Q : Prop}
    (hinit : ∀ m r1, r1.heap = s.ramfs.heap → (Q ↔ (init ⟨name, type, 0, 0, m, 0, 0⟩ r1).isSome))
    (hshape : ∀ m r1 k r2, init ⟨name, type, 0, 0, m, 0, 0⟩ r1 = some (k, r2) →
      ∃ size data mode, k = ⟨name, type, size, data, mode, 0, 0⟩ ∧ r2 = { r1 with heap := r2.heap }) :
    (∃ a r, s.ramfs.addNode s.rootVnode.path (s.get u) name type init = some (a, r) ∧ statusOf a ≤ 0) ↔
      s.NewIn name d ∧ Q := by
  obtain ⟨p, hp⟩ := hu.1
  have hv := hu.nodeOf hs
  constructor
  · rintro ⟨a, r, hadd, ha⟩
    rcases Ramfs.addNode_inv hs.tree hv hp (fun m r1 k r2 hk => by
        obtain ⟨size, data, mode, rfl, hr2⟩ := hshape m r1 k r2 hk
        exact ⟨rfl, rfl, rfl, rfl, hr2⟩) hadd with
      ⟨e, he, rfl, -⟩ | ⟨c, k, rfl, -, -, -, -, hnone, hdir, ⟨rest, hfresh⟩, m, r1, r2, hheap, hk, -⟩
    · rcases he with rfl | rfl <;> exact absurd ha (by decide)
    · exact ⟨⟨hdir, hnone, c, rest, hfresh⟩, (hinit m r1 hheap).mpr (by rw [hk]; rfl)⟩
  · rintro ⟨⟨⟨n, hn, hdir⟩, hnone, c, rest, hfresh⟩, hQ⟩
    have hsome : ∀ m r1, r1.heap = s.ramfs.heap → ∃ data size mode heap, init ⟨name, type, 0, 0, m, 0, 0⟩ r1 =
          some (⟨name, type, size, data, mode, 0, 0⟩, { r1 with heap := heap }) ∧ True := by
      intro m r1 hheap
      obtain ⟨⟨k, r2⟩, hk⟩ := isSome_iff_exists.mp ((hinit m r1 hheap).mp hQ)
      obtain ⟨size, data, mode, rfl, hr2⟩ := hshape m r1 k r2 hk
      exact ⟨data, size, mode, r2.heap, by rw [hk, ← hr2], trivial⟩
    obtain ⟨k, r', hadd, -⟩ := Ramfs.addNode_added (P := fun _ _ => True) hs.tree hv hp hn hdir hnone
      hfresh hsome
    exact ⟨.ok c, r', hadd, Int.le_refl 0⟩

theorem status_eq (x : Except Int Nat × Ramfs) : Ramfs.status x = (statusOf x.1, x.2) := by
  obtain ⟨a, r⟩ := x
  cases a <;> rfl

theorem map_status_nonpos {result : Option (Except Int Nat × Ramfs)} :
    (∃ e r, result.map Ramfs.status = some (e, r) ∧ e ≤ 0) ↔
      ∃ a r, result = some (a, r) ∧ statusOf a ≤ 0 := by
  constructor
  · rintro ⟨e, r, h, he⟩
    obtain ⟨⟨a, r'⟩, hresult, heq⟩ := map_eq_some_iff.mp h
    rw [status_eq] at heq
    obtain ⟨rfl, rfl⟩ := Prod.mk.inj heq
    exact ⟨a, _, hresult, he⟩
  · rintro ⟨a, r, rfl, ha⟩
    exact ⟨_, _, by rw [map_some, status_eq], ha⟩

end Add

section Remove

variable {refuse : RamfsNode → Option Int} {drop : RamfsNode → Kheap → Option Kheap} {name : Str}

/-- A directory has a node of a name that a call may remove, and what the node holds can be freed. -/
def OldIn (s : Vfs) (refuse : RamfsNode → Option Int) (drop : RamfsNode → Kheap → Option Kheap)
    (name : Str) (d : Nat) : Prop :=
  ∃ c n, s.ramfs.childOf d name = some c ∧ s.ramfs.nodes c = some n ∧ refuse n = none ∧
    (drop n s.ramfs.heap).isSome

theorem removeNode_nonpos (hs : s.Sound) (hu : s.Refers u d) (hrefuse : ∀ n e, refuse n = some e → 0 < e)
    (hempty : ∀ q c n, s.ramfs.walk q = some c → s.ramfs.nodes c = some n → refuse n = none →
      ∀ m, s.ramfs.childOf c m = none) :
    (∃ e r, s.ramfs.removeNode s.rootVnode.path (s.get u) name refuse drop = some (e, r) ∧ e ≤ 0) ↔
      s.OldIn refuse drop name d := by
  obtain ⟨p, hp⟩ := hu.1
  have hv := hu.nodeOf hs
  constructor
  · rintro ⟨e, r, hrem, he⟩
    rcases Ramfs.removeNode_inv hs.tree hv hp (fun c n hn hr hc => hempty _ c n hc hn hr) hrem with
      ⟨-, rfl | rfl | ⟨c, n, -, -, hr⟩⟩ | ⟨c, n, -, hc, hn, hr, hdrop, -⟩
    · exact absurd he (by decide)
    · exact absurd he (by decide)
    · exact absurd (hrefuse n e hr) (Int.not_lt.mpr he)
    · rw [Ramfs.walk_concat, hp, bind_some] at hc
      exact ⟨c, n, hc, hn, hr, by rw [hdrop]; rfl⟩
  · rintro ⟨c, n, hc, hn, hr, hdrop⟩
    obtain ⟨heap, hdrop⟩ := isSome_iff_exists.mp hdrop
    obtain ⟨k, hk, hdir⟩ := Ramfs.isDirectory_of_childOf hc
    have hwalk : s.ramfs.walk (p ++ [name]) = some c := by
      rw [Ramfs.walk_concat, hp, bind_some, hc]
    obtain ⟨r', hrem, -⟩ := Ramfs.removeNode_removed drop hs.tree hv hp hk hdir hc hn hr
      (hempty _ c n hwalk hn hr)
    rw [hdrop] at hrem
    exact ⟨EOK, _, hrem, Int.le_refl 0⟩

end Remove

theorem Sound.rmdir_empty (hs : s.Sound) {q : List Str} {c : Nat} {n : RamfsNode}
    (hc : s.ramfs.walk q = some c) (hn : s.ramfs.nodes c = some n) (hr : Ramfs.rmdirRefuses n = none) :
    ∀ m, s.ramfs.childOf c m = none := by
  unfold Ramfs.rmdirRefuses at hr
  split at hr
  · cases hr
  · case _ hdir =>
    split at hr
    · cases hr
    · case _ hchild =>
      obtain ⟨n', hn', hkids⟩ := hs.tree.node q c hc
      cases hn.symm.trans hn'
      obtain ⟨L, hL⟩ := hkids (not_not.mp hdir)
      exact (child_eq_zero hn (not_not.mp hdir) hL).mp (not_not.mp hchild)

theorem remove_empty {c : Nat} {n : RamfsNode} (hn : s.ramfs.nodes c = some n)
    (hr : Ramfs.removeRefuses n = none) : ∀ m, s.ramfs.childOf c m = none := by
  unfold Ramfs.removeRefuses at hr
  split at hr
  · cases hr
  · case _ hdir => exact fun m => Ramfs.childOf_of_not_dir hn hdir m

theorem rmdirRefuses_pos (n : RamfsNode) (e : Int) (h : Ramfs.rmdirRefuses n = some e) : 0 < e := by
  unfold Ramfs.rmdirRefuses at h
  split at h
  · cases h; decide
  · split at h
    · cases h; decide
    · cases h

theorem removeRefuses_pos (n : RamfsNode) (e : Int) (h : Ramfs.removeRefuses n = some e) : 0 < e := by
  unfold Ramfs.removeRefuses at h
  split at h <;> cases h
  decide

end Vfs

end Lapis.Fs
