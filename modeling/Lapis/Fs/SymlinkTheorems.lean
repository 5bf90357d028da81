/-
Lapis.Fs.SymlinkTheorems — `vfs_lookup` and symbolic links.

`reference` resolves a path as a user expects it: a component that is a link is replaced by the text of
the link, and the resolution goes on with the remaining components; links may lead to links, up to
MAX_SYMLINK_DEPTH of them. `vfs_lookup` looks the text up without following links and loses the remaining
components. So the two agree on a path without links, and at the first link they agree where the text
names the node directly that the resolution of text and remaining components leads to (`Straight`).
-/
import Lapis.Fs.VfsTreeTheorems

namespace Lapis.Fs

open Mm Util
open Option

namespace Ramfs

variable {r : Ramfs} {d c m : Nat} {n : RamfsNode} {names : List Str} {text : Str} {goal : Option Nat}

/-! ## The reference -/

/-- The text of a link. -/
def linkOf (r : Ramfs) (c : Nat) : Option Str := do
  let n ← r.nodes c
  if n.type = .symlink then cstr r.heap.mem (2 ^ 64) n.data else none

/-- Goes from node to node; `target` is where the text of a link leads. -/
def refWalk (r : Ramfs) (target : Str → Option Nat) : Nat → List Str → Option Nat
  | d, [] => some d
  | d, name :: rest => do
    let c ← r.childOf d name
    match r.linkOf c with
    | none => r.refWalk target c rest
    | some text => do
      let m ← target text
      r.refWalk target m rest

/-- The node that a path leads to when up to `left` links may lead to one another; none is an error. -/
def reference (r : Ramfs) : Nat → List Str → Option Nat
  | 0, names => r.refWalk (fun _ => none) r.rootNode names
  | left + 1, names => r.refWalk (fun text => r.reference left (components text)) r.rootNode names

/-- Where the text of a link in a path leads. -/
def target (r : Ramfs) (text : Str) : Option Nat :=
  r.reference (Vfs.MAX_SYMLINK_DEPTH - 1) (components text)

theorem reference_max (r : Ramfs) (names : List Str) :
    r.reference Vfs.MAX_SYMLINK_DEPTH names = r.refWalk r.target r.rootNode names := rfl

/-- Every link has an absolute text. -/
def AbsoluteLinks (r : Ramfs) : Prop :=
  ∀ q c n, r.walk q = some c → r.nodes c = some n → n.type = .symlink →
    n.data ≠ 0 ∧ ∃ text, cstr r.heap.mem (2 ^ 64) n.data = some text ∧ text.head? = some slash

/-! ## The condition -/

/-- What `vfs_follow_symlink` sees of the text of a link: its buffer has 512 bytes. -/
def cut (text : Str) : Str := text.take 511

/-- The components lead to `goal` if a link to the root is followed, and any other link ends the path at
the node that its text names directly. The text must not end with a slash then. -/
def Leads (r : Ramfs) (goal : Option Nat) : Nat → List Str → Prop
  | d, [] => goal = some d
  | d, name :: rest =>
    match r.childOf d name with
    | none => goal = none
    | some c =>
      match r.linkOf c with
      | none => r.Leads goal c rest
      | some text =>
        if components (cut text) = [] then r.Leads goal r.rootNode rest
        else
          match r.walk (components (cut text)) with
          | none => goal = none
          | some m => (cut text).getLast? ≠ some slash ∧ goal = some m

/-- There is no link among the components but links to the root; or the first other link leads, in the
way of `Leads`, where its text and the remaining components lead. -/
def Straight (r : Ramfs) : Nat → List Str → Prop
  | _, [] => True
  | d, name :: rest =>
    match r.childOf d name with
    | none => True
    | some c =>
      match r.linkOf c with
      | none => r.Straight c rest
      | some text =>
        if components text = [] ∧ text.length ≤ 511 then r.Straight r.rootNode rest
        else r.Leads ((r.target text).bind (r.refWalk r.target · rest)) d (name :: rest)

/-! ## Lookups -/

/-- The result of a lookup is the node, or an error where there is none. -/
def Matches (goal : Option Nat) (result : Option (Except Int Nat)) : Prop :=
  match goal with
  | some m => result = some (.ok m)
  | none => ∃ e, e ≠ EOK ∧ result = some (.error e)

theorem matches_ok : Matches goal (some (.ok m)) ↔ goal = some m := by
  cases goal with
  | none => simp [Matches]
  | some k => simp [Matches, eq_comm]

theorem matches_error {e : Int} (he : e ≠ EOK) : Matches goal (some (.error e)) ↔ goal = none := by
  cases goal with
  | none => exact ⟨fun _ => rfl, fun _ => ⟨e, he, rfl⟩⟩
  | some k => simp [Matches]

theorem not_matches_none : ¬ Matches goal none := by
  cases goal <;> simp [Matches]

theorem head?_cut (h : text.head? = some slash) : (cut text).head? = some slash := by
  cases text with
  | nil => cases h
  | cons c text => exact h

/-- What the lookup does at a node that is no link, or at a link. -/
theorem Tree.followNode_eq (h : r.Tree) (hlinks : r.AbsoluteLinks) {q : List Str}
    (hc : r.walk q = some c) :
    match r.linkOf c with
    | none => r.followNode c = some (.stay c)
    | some text =>
      if components (cut text) = [] then r.followNode c = some (.stay r.rootNode)
      else
        match r.walk (components (cut text)) with
        | none => ∃ e, e ≠ EOK ∧ r.followNode c = some (.fail e)
        | some m => r.followNode c = if (cut text).getLast? = some slash then none else some (.jump m) := by
  obtain ⟨n, hn, -⟩ := h.node q c hc
  unfold linkOf followNode
  rw [hn, bind_eq_bind, bind_some, bind_eq_bind, bind_some]
  by_cases hlink : n.type = .symlink
  · obtain ⟨hdata, text, htext, habs⟩ := hlinks q c n hc hn hlink
    rw [if_pos hlink, if_neg (not_not_intro hlink), if_neg hdata, htext]
    dsimp only
    have hbind : (do let text ← r.linkText n; r.followText text) = r.followText (cut text) := by
      rw [linkText, htext]
      rfl
    rw [hbind]
    unfold followText
    rw [if_neg (not_not_intro (head?_cut habs))]
    by_cases hnil : components (cut text) = []
    · rw [if_pos hnil, if_pos hnil]
    rw [if_neg hnil, if_neg hnil]
    rcases h.plain_cases (components (cut text)) with ⟨m, hwalk, hplain⟩ | ⟨hwalk, e, he, hplain⟩
    · rw [hwalk, hplain]
      rfl
    · rw [hwalk, hplain]
      exact ⟨e, he, rfl⟩
  · rw [if_neg hlink, if_pos hlink]

theorem Tree.walk_child {q : List Str} {name : Str} (hd : r.walk q = some d)
    (hc : r.childOf d name = some c) : r.walk (q ++ [name]) = some c := by
  rw [walk_concat, hd, bind_some, hc]

theorem type_of_childOf {name : Str} (hn : r.nodes d = some n) (hc : r.childOf d name = some c) :
    n.type = .directory := by
  by_contra hdir
  simp [childOf_of_not_dir hn hdir] at hc

/-- The lookup at a name that is missing. -/
theorem Tree.matches_of_missing (h : r.Tree) {q : List Str} {name : Str} {rest : List Str}
    {fol : Nat → Option Follow} (hd : r.walk q = some d) (hc : r.childOf d name = none) :
    Matches goal (r.walkWith fol d (name :: rest)) ↔ goal = none := by
  obtain ⟨n, hn, -⟩ := h.node q d hd
  by_cases hdir : n.type = .directory
  · rw [walkWith_of_missing hn hdir hc, matches_error (by decide)]
  · rw [walkWith_of_not_dir hn hdir, matches_error (by decide)]

theorem Tree.leads_iff (h : r.Tree) (hlinks : r.AbsoluteLinks) {q : List Str} (hd : r.walk q = some d) :
    Matches goal (r.walkWith r.followNode d names) ↔ r.Leads goal d names := by
  induction names generalizing d q with
  | nil => exact matches_ok
  | cons name names ih =>
    unfold Leads
    cases hc : r.childOf d name with
    | none => exact h.matches_of_missing hd hc
    | some c =>
    obtain ⟨n, hn, -⟩ := h.node q d hd
    have hwalk := Tree.walk_child hd hc
    have hfollow := h.followNode_eq hlinks hwalk
    rw [walkWith_of_child hn (type_of_childOf hn hc) hc]
    dsimp only
    cases hlink : r.linkOf c with
    | none =>
      rw [hlink] at hfollow
      rw [show r.followNode c = _ from hfollow]
      exact ih hwalk
    | some text =>
    rw [hlink] at hfollow
    dsimp only at hfollow ⊢
    by_cases hnil : components (cut text) = []
    · rw [if_pos hnil] at hfollow ⊢
      rw [hfollow]
      exact ih r.walk_nil
    rw [if_neg hnil] at hfollow ⊢
    cases htext : r.walk (components (cut text)) with
    | none =>
      rw [htext] at hfollow
      obtain ⟨e, he, hfollow⟩ := hfollow
      rw [hfollow]
      exact matches_error he
    | some m =>
    rw [htext] at hfollow
    dsimp only at hfollow ⊢
    rw [hfollow]
    by_cases hlast : (cut text).getLast? = some slash
    · rw [if_pos hlast]
      exact ⟨fun hc => absurd hc not_matches_none, fun hc => absurd hlast hc.1⟩
    · rw [if_neg hlast]
      exact matches_ok.trans ⟨fun hg => ⟨hlast, hg⟩, fun hg => hg.2⟩

/-- A text without components leads to the root. -/
theorem target_of_root (hnil : components text = []) : r.target text = some r.rootNode := by
  rw [target, hnil]
  rfl

theorem Tree.straight_iff (h : r.Tree) (hlinks : r.AbsoluteLinks) {q : List Str} (hd : r.walk q = some d) :
    Matches (r.refWalk r.target d names) (r.walkWith r.followNode d names) ↔ r.Straight d names := by
  induction names generalizing d q with
  | nil => exact ⟨fun _ => trivial, fun _ => rfl⟩
  | cons name names ih =>
    unfold Straight
    cases hc : r.childOf d name with
    | none =>
      rw [h.matches_of_missing hd hc, refWalk, hc]
      exact ⟨fun _ => trivial, fun _ => rfl⟩
    | some c =>
    obtain ⟨n, hn, -⟩ := h.node q d hd
    have hwalk := Tree.walk_child hd hc
    have hfollow := h.followNode_eq hlinks hwalk
    dsimp only
    cases hlink : r.linkOf c with
    | none =>
      rw [hlink] at hfollow
      rw [walkWith_of_stay hn (type_of_childOf hn hc) hc hfollow, refWalk, hc]
      dsimp only [bind_eq_bind, bind_some]
      rw [hlink]
      exact ih hwalk
    | some text =>
    have hgoal : r.refWalk r.target d (name :: names) =
        (r.target text).bind (r.refWalk r.target · names) := by
      rw [refWalk, hc]
      dsimp only [bind_eq_bind, bind_some]
      rw [hlink]
    rw [hgoal]
    dsimp only
    by_cases hroot : components text = [] ∧ text.length ≤ 511
    · have hcut : cut text = text := List.take_of_length_le hroot.2
      rw [hlink] at hfollow
      dsimp only at hfollow
      rw [hcut, if_pos hroot.1] at hfollow
      rw [if_pos hroot, target_of_root hroot.1, bind_some,
        walkWith_of_stay hn (type_of_childOf hn hc) hc hfollow]
      exact ih r.walk_nil
    · rw [if_neg hroot]
      exact h.leads_iff hlinks hd

/-- The reference never ends at a link. -/
theorem linkOf_refWalk {target : Str → Option Nat} (htarget : ∀ text m, target text = some m → r.linkOf m = none)
    (hd : r.linkOf d = none) (h : r.refWalk target d names = some m) : r.linkOf m = none := by
  induction names generalizing d with
  | nil =>
    obtain rfl := some.inj h
    exact hd
  | cons name names ih =>
    rw [refWalk] at h
    obtain ⟨c, -, h⟩ := bind_eq_some_iff.mp h
    cases hlink : r.linkOf c with
    | none =>
      rw [hlink] at h
      exact ih hlink h
    | some text =>
      rw [hlink] at h
      obtain ⟨k, hk, h⟩ := bind_eq_some_iff.mp h
      exact ih (htarget text k hk) h

theorem Tree.linkOf_root (h : r.Tree) : r.linkOf r.rootNode = none := by
  obtain ⟨n, hn, hdir⟩ := h.root
  rw [linkOf, hn, bind_eq_bind, bind_some, if_neg (by rw [hdir]; decide)]

theorem Tree.linkOf_reference (h : r.Tree) {left : Nat} (href : r.reference left names = some m) :
    r.linkOf m = none := by
  induction left generalizing names m with
  | zero => exact linkOf_refWalk (fun _ _ hk => by cases hk) h.linkOf_root href
  | succ left ih => exact linkOf_refWalk (fun text k hk => ih hk) h.linkOf_root href

end Ramfs

namespace Vfs

variable {s : Vfs} {path : Str}

/-- `vfs_lookup` of a path gives the node of the reference, which is no link, or an error where the
reference has none. -/
def ResolvesLinks (s : Vfs) (path : Str) : Prop :=
  match s.ramfs.reference MAX_SYMLINK_DEPTH (components path) with
  | some m => ∃ u s', s.vfsLookup path = some (.ok u, s') ∧
      s.ramfs.nodeOf s.rootVnode.path (s.get u) = some m ∧ (s.get u).vtype ≠ .link
  | none => ∃ e s', s.vfsLookup path = some (.error e, s') ∧ e ≠ EOK

/-- The node 8192 of a ramfs is a link with a text, and has a name in the root. -/
def linkIs (s : Vfs) (text name : Str) : Bool :=
  match s.ramfs.nodes 8192 with
  | some n => n.data ≠ 0 ∧ Ramfs.cstr s.ramfs.heap.mem (2 ^ 64) n.data = some text ∧
      s.ramfs.childOf s.ramfs.rootNode name = some 8192
  | none => false

theorem oneLink (path text name : Str) (habs : text.head? = some slash)
    (h : (small.vfsSymlink text path).map (fun (e, s) => decide (e = EOK) && s.linkIs text name) =
      some true) : ∃ s, small.vfsSymlink text path = some (EOK, s) ∧ s.Sound ∧ s.ramfs.AbsoluteLinks ∧
      s.ramfs.linkOf 8192 = some text ∧ s.ramfs.childOf s.ramfs.rootNode name = some 8192 := by
  obtain ⟨⟨e, s⟩, hcall, heq⟩ := map_eq_some_iff.mp h
  rw [Bool.and_eq_true, decide_eq_true_eq] at heq
  obtain ⟨rfl, hlink⟩ := heq
  obtain ⟨n, hn, hdata⟩ : ∃ n, s.ramfs.nodes 8192 = some n ∧ n.data ≠ 0 ∧
      Ramfs.cstr s.ramfs.heap.mem (2 ^ 64) n.data = some text ∧
      s.ramfs.childOf s.ramfs.rootNode name = some 8192 := by
    unfold linkIs at hlink
    cases hn : s.ramfs.nodes 8192 with
    | none =>
      simp [hn] at hlink
    | some n =>
      rw [hn] at hlink
      exact ⟨n, rfl, of_decide_eq_true hlink⟩
  have hlinkless := small_linkless
  have hfree : small.ramfs.nodes 8192 = none := by decide
  rcases symlink_inv hlinkless.sound hcall with ⟨next, rfl⟩ | ⟨p, c, k, next, r', -, rfl, hadded, htype⟩
  · simp [hfree] at hn
  obtain rfl : 8192 = c := by
    by_contra hne
    simp [hadded.only 8192 hne hfree] at hn
  obtain rfl : k = n := some.inj (hadded.node.symm.trans hn)
  refine ⟨_, hcall, hlinkless.sound.added hadded next, fun q t m ht hm hmlink => ?_, ?_, hdata.2.2⟩
  · by_cases htc : t = 8192
    · subst htc
      cases hn.symm.trans hm
      exact ⟨hdata.1, text, hdata.2.1, habs⟩
    · obtain ⟨m0, hm0, halike⟩ := Ramfs.old_of_keep (hadded.keep t) (hadded.only t htc) hm
      exact absurd (halike.type_eq.symm.trans hmlink) (hlinkless.nodes t m0 hm0).1
  · rw [Ramfs.linkOf, hn, bind_eq_bind, bind_some, if_pos htype]
    exact hdata.2.1

end Vfs

end Lapis.Fs
