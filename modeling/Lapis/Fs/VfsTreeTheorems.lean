/-
Lapis.Fs.VfsTreeTheorems — without links, the VFS over a ramfs refines a map from paths to nodes.

`pathTree` reads the map off the nodes. A call that changes the tree looks its directory up, and what the
ramfs then does is one step of the reference (`Added`, `Removed`). The invariant of a run is that the
VFS is sound and that there is no link and no data, since nothing is written.
-/
import Lapis.Fs.PathTree
import Lapis.Fs.VfsCallTheorems

namespace Lapis.Fs

open Function List Option Lib Mm Util

namespace Ramfs

variable {r r' : Ramfs} {p : List Str} {d c : Nat} {name : Str} {k : RamfsNode}

/-! ## The map of a ramfs -/

def kindOf (r : Ramfs) (c : Nat) : Option (Nat × RamfsType) := (r.nodes c).map fun n => (c, n.type)

def pathTree (r : Ramfs) : PathTree := fun q => (r.walk q).bind r.kindOf

theorem kindOf_eq {n : RamfsNode} (hn : r.nodes c = some n) : r.kindOf c = some (c, n.type) := by
  rw [kindOf, hn]
  rfl

theorem kindOf_alike {n n' : RamfsNode} (hn : r.nodes c = some n) (hn' : r'.nodes c = some n')
    (h : Alike n n') : r'.kindOf c = r.kindOf c := by
  rw [kindOf_eq hn, kindOf_eq hn', h.type_eq]

theorem pathTree_eq_some (hwalk : r.walk p = some c) {n : RamfsNode}
    (hn : r.nodes c = some n) : r.pathTree p = some (c, n.type) := by
  rw [pathTree, hwalk, bind_some, kindOf_eq hn]

theorem Tree.pathTree_eq_none (h : r.Tree) : r.pathTree p = none ↔ r.walk p = none := by
  cases hwalk : r.walk p with
  | none => simp [pathTree, hwalk]
  | some c =>
    obtain ⟨n, hn, -⟩ := h.node p c hwalk
    simp [pathTree_eq_some hwalk hn]

theorem Tree.isDir (h : r.Tree) : r.pathTree.IsDir p ↔
    ∃ d n, r.walk p = some d ∧ r.nodes d = some n ∧ n.type = .directory := by
  constructor
  · rintro ⟨d, hd⟩
    cases hwalk : r.walk p with
    | none => rw [(h.pathTree_eq_none).mpr hwalk] at hd; cases hd
    | some c =>
      obtain ⟨n, hn, -⟩ := h.node p c hwalk
      rw [pathTree_eq_some hwalk hn, some.injEq, Prod.mk.injEq] at hd
      exact ⟨c, n, rfl, hn, hd.2⟩
  · rintro ⟨d, n, hwalk, hn, hdir⟩
    exact ⟨d, by rw [pathTree_eq_some hwalk hn, hdir]⟩

/-- What has a path below it is a directory. -/
theorem Tree.isDir_of_walk (h : r.Tree) {rest : List Str} (hwalk : r.walk (p ++ name :: rest) = some c) :
    r.pathTree.IsDir p := by
  rw [walk_append_cons] at hwalk
  obtain ⟨e, he, -⟩ := bind_eq_some_iff.mp hwalk
  obtain ⟨d, hd, hchild⟩ := bind_eq_some_iff.mp he
  obtain ⟨n, hn, -⟩ := h.node p d hd
  refine h.isDir.mpr ⟨d, n, hd, hn, ?_⟩
  by_contra hdir
  simp [childOf_of_not_dir hn hdir] at hchild

/-- In the map of a ramfs the lookup is the map itself. -/
theorem Tree.lookup_eq (h : r.Tree) (path : List Str) : r.pathTree.lookup path = r.pathTree path := by
  unfold PathTree.lookup
  split
  · rfl
  · case _ hnot =>
    cases hwalk : r.walk path with
    | none => exact ((h.pathTree_eq_none).mpr hwalk).symm
    | some c =>
      refine absurd (fun q name rest heq => ?_) hnot
      exact h.isDir_of_walk (heq ▸ hwalk)

theorem Added.pathTree (hadd : Added r r' p c k) (h : r.Tree) :
    r'.pathTree = update r.pathTree (p ++ [k.name]) (some (c, k.type)) := by
  funext q
  rw [update_apply]
  unfold Ramfs.pathTree
  rw [hadd.walk]
  by_cases hq : q = p ++ [k.name]
  · rw [if_pos hq, if_pos hq, bind_some, kindOf_eq hadd.node]
  rw [if_neg hq, if_neg hq]
  cases hwalk : r.walk q with
  | none => rfl
  | some t =>
    obtain ⟨n, hn, -⟩ := h.node q t hwalk
    obtain ⟨n', hn', halike⟩ := hadd.keep t n hn
    exact kindOf_alike hn hn' halike

theorem Removed.pathTree (hrem : Removed r r' p name c) (h : r.Tree) (hc : r.walk (p ++ [name]) = some c) :
    r'.pathTree = update r.pathTree (p ++ [name]) none := by
  funext q
  rw [update_apply]
  unfold Ramfs.pathTree
  rw [hrem.walk]
  by_cases hq : q = p ++ [name]
  · rw [if_pos hq, if_pos hq]
    rfl
  rw [if_neg hq, if_neg hq]
  cases hwalk : r.walk q with
  | none => rfl
  | some t =>
    have htc : t ≠ c := fun heq => hq (h.path_eq (heq ▸ hwalk) hc)
    obtain ⟨n, hn, -⟩ := h.node q t hwalk
    obtain ⟨n', hn', halike⟩ := hrem.keep t n htc hn
    exact kindOf_alike hn hn' halike

/-! ## Lookups without links -/

/-- A lookup that stays at every child follows the map. -/
theorem Tree.walkWith_eq (h : r.Tree) {fol : Nat → Option Follow}
    (hfol : ∀ q t, r.walk q = some t → fol t = some (.stay t)) (hd : r.walk p = some d) (names : List Str) :
    (∃ m, r.walk (p ++ names) = some m ∧ r.walkWith fol d names = some (.ok m)) ∨
      (r.walk (p ++ names) = none ∧ ∃ e, e ≠ EOK ∧ r.walkWith fol d names = some (.error e)) := by
  induction names generalizing p d with
  | nil =>
    rw [append_nil]
    exact .inl ⟨d, hd, rfl⟩
  | cons name names ih =>
    obtain ⟨n, hn, -⟩ := h.node p d hd
    have hnone : r.childOf d name = none → r.walk (p ++ name :: names) = none := by
      intro hc
      rw [walk_append_cons, hd, bind_some, hc]
      rfl
    by_cases hdir : n.type = .directory
    · cases hc : r.childOf d name with
      | none =>
        rw [walkWith_of_missing hn hdir hc]
        exact .inr ⟨hnone hc, ENOENT, by decide, rfl⟩
      | some c =>
        have hwalk : r.walk (p ++ [name]) = some c := by rw [walk_concat, hd, bind_some, hc]
        rw [walkWith_of_stay hn hdir hc (hfol _ c hwalk), ← singleton_append, ← append_assoc]
        exact ih hwalk
    · rw [walkWith_of_not_dir hn hdir]
      exact .inr ⟨hnone (childOf_of_not_dir hn hdir name), -ENOTDIR, by decide, rfl⟩

/-- A lookup that follows no link gives what the map gives. -/
theorem Tree.plain_cases (h : r.Tree) (names : List Str) :
    (∃ m, r.walk names = some m ∧ r.plain names = some (.ok m)) ∨
      (r.walk names = none ∧ ∃ e, e ≠ EOK ∧ r.plain names = some (.error e)) :=
  h.walkWith_eq (fun _ t _ => (rfl : (fun c => some (Follow.stay c)) t = some (.stay t)))
    r.walk_nil names

end Ramfs

namespace Vfs

variable {s : Vfs} {u : VnodePtr} {d c : Nat} {name path : Str} {p : List Str}

/-! ## Lookups -/

/-- Nothing is a link, and no file has data. -/
structure Linkless (s : Vfs) : Prop where
  sound : s.Sound
  nodes : ∀ c n, s.ramfs.nodes c = some n → n.type ≠ .symlink ∧ n.data = 0

theorem Linkless.resolve (h : s.Linkless) (names : List Str) :
    (∃ m, s.ramfs.walk names = some m ∧ s.ramfs.resolve names = some (.ok m)) ∨
      (s.ramfs.walk names = none ∧ ∃ e, e ≠ EOK ∧ s.ramfs.resolve names = some (.error e)) := by
  refine h.sound.tree.walkWith_eq (p := []) (fun q t ht => ?_) s.ramfs.walk_nil names
  obtain ⟨n, hn, -⟩ := h.sound.tree.node q t ht
  unfold Ramfs.followNode
  rw [hn, bind_eq_bind, bind_some, if_pos (h.nodes t n hn).1]

theorem Linkless.vfsLookup (h : s.Linkless) (habs : path.head? = some slash) :
    (∃ m u next, s.ramfs.walk (components path) = some m ∧
        s.vfsLookup path = some (.ok u, { s with strtokNext := next }) ∧ s.Refers u m) ∨
      ∃ e next, s.ramfs.walk (components path) = none ∧ e ≠ EOK ∧
        s.vfsLookup path = some (.error e, { s with strtokNext := next }) := by
  have hfound := vfsLookup_found h.sound habs
  rcases h.resolve (components path) with ⟨m, hwalk, hresolve⟩ | ⟨hwalk, e, he, hresolve⟩ <;>
    rw [hresolve] at hfound
  · obtain ⟨u, next, hlookup, hu⟩ := hfound
    exact .inl ⟨m, u, next, hwalk, hlookup, hu⟩
  · obtain ⟨next, hlookup⟩ := hfound
    exact .inr ⟨e, next, hwalk, he, hlookup⟩

/-- A path to which a call can give a new name: it is absolute and ends in a name. -/
def Named (path : Str) : Prop := path.head? = some slash ∧ path.getLast? ≠ some slash

/-- The lookup of the directory of a path, and what the rest of a call is about. -/
theorem Linkless.inParent (h : s.Linkless) (hpath : Named path)
    (op : Ramfs → Vnode → Str → Option (Int × Ramfs)) :
    ∃ p name, components path = p ++ [name] ∧
      ((∃ d u next, s.ramfs.walk p = some d ∧ s.Refers u d ∧ s.inParent path op =
          (op s.ramfs (s.get u) name).map fun (e, r) =>
            (e, { s with strtokNext := next, ramfs := r })) ∨
        ∃ e next, s.ramfs.walk p = none ∧ e ≠ EOK ∧
          s.inParent path op = some (e, { s with strtokNext := next })) := by
  refine ⟨_, _, Lapis.Util.components_of_named hpath.1 hpath.2, ?_⟩
  rcases h.resolve (dirNames path) with ⟨d, hwalk, hresolve⟩ | ⟨hwalk, e, he, hresolve⟩ <;>
    rcases inParent_found h.sound hpath.1 op with
      ⟨hres, -⟩ | ⟨_, next, hres, hresult⟩ | ⟨_, u, next, hres, hu, hresult⟩ <;>
    cases hresolve.symm.trans hres
  · exact .inl ⟨d, u, next, hwalk, hu, hresult⟩
  · exact .inr ⟨e, next, hwalk, he, hresult⟩

/-! ## Calls -/

/-- What a call does, as the reference says it: it succeeds when the reference does, and then the map is
that of the reference; it changes nothing when it fails. -/
def Simulates (s : Vfs) (t : Option PathTree) (result : Option (Int × Vfs)) : Prop :=
  ∃ e s', result = some (e, s') ∧ (e = EOK ↔ t.isSome) ∧
    (e ≠ EOK → ∃ next, s' = { s with strtokNext := next }) ∧
    s'.ramfs.pathTree = t.getD s.ramfs.pathTree ∧ s'.Linkless

theorem Linkless.setStrtok (h : s.Linkless) (next : Strtok) : Linkless { s with strtokNext := next } :=
  ⟨h.sound.setStrtok next, h.nodes⟩

/-- A call that fails with the reference. -/
theorem Linkless.simulates_none (h : s.Linkless) {e : Int} (he : e ≠ EOK) (next : Strtok) :
    s.Simulates none (some (e, { s with strtokNext := next })) :=
  ⟨e, _, rfl, by simp [he], fun _ => ⟨next, rfl⟩, rfl, h.setStrtok next⟩

section Add

variable {type : RamfsType} {init : RamfsNode → Ramfs → Option (RamfsNode × Ramfs)} {rest : List Nat}

theorem Linkless.add (h : s.Linkless) (hpath : Named path) (hfresh : s.ramfs.Fresh c rest)
    (htype : type ≠ .symlink) (hinit : ∀ name m r, ∃ mode, init ⟨name, type, 0, 0, m, 0, 0⟩ r =
      some (⟨name, type, 0, 0, mode, 0, 0⟩, r)) : s.Simulates (s.ramfs.pathTree.add (components path) c type)
      (s.inParent path fun r v name => (r.addNode s.rootVnode.path v name type init).map Ramfs.status) := by
  have htree := h.sound.tree
  obtain ⟨p, name, hcomp, hparent⟩ := h.inParent hpath fun r v name =>
    (r.addNode s.rootVnode.path v name type init).map Ramfs.status
  have hfail : ∀ {result e next}, e ≠ EOK → result = some (e, { s with strtokNext := next }) →
      ¬ (s.ramfs.pathTree.IsDir p ∧ s.ramfs.pathTree (p ++ [name]) = none) →
      s.Simulates (s.ramfs.pathTree.add (p ++ [name]) c type) result := by
    intro result e next he hresult hnot
    rw [PathTree.add, dropLast_concat, if_neg hnot, hresult]
    exact h.simulates_none he next
  rw [hcomp]
  rcases hparent with ⟨d, u, next, hwalk, hu, hresult⟩ | ⟨e, next, hwalk, he, hresult⟩
  case inr =>
    refine hfail he hresult fun hc => ?_
    obtain ⟨d, n, hd, -⟩ := htree.isDir.mp hc.1
    simp [hwalk] at hd
  case inl =>
    rw [hresult]
    obtain ⟨hd0, n, hn, -, hkids⟩ := hu.nodes h.sound
    have hv := hu.nodeOf h.sound
    by_cases hdir : n.type = .directory
    · obtain ⟨L, hL⟩ := hkids hdir
      have hisDir : s.ramfs.pathTree.IsDir p := htree.isDir.mpr ⟨d, n, hwalk, hn, hdir⟩
      have hchild : s.ramfs.walk (p ++ [name]) = s.ramfs.childOf d name := by
        rw [Ramfs.walk_concat, hwalk, bind_some]
      cases hc : s.ramfs.childOf d name with
      | some e =>
        rw [hc] at hchild
        have he := (htree.ne_zero hchild).1
        rw [Ramfs.addNode_of_child hv hd0 hn hdir hL hc he]
        refine hfail (e := EEXIST) (by decide) rfl fun hnone => ?_
        rw [htree.pathTree_eq_none, hchild] at hnone
        cases hnone.2
      | none =>
      rw [hc] at hchild
      obtain ⟨k, r', hadd, hadded, rfl, rfl, -, hdata, -⟩ := Ramfs.addNode_added
        (P := fun k _ => k.data = 0) htree hv hwalk hn hdir hc hfresh
        (fun m r1 _ => by
          obtain ⟨mode, hmode⟩ := hinit name m r1
          exact ⟨0, 0, mode, r1.heap, hmode, rfl⟩)
      rw [hadd, PathTree.add, dropLast_concat, if_pos ⟨hisDir, htree.pathTree_eq_none.mpr hchild⟩]
      refine ⟨EOK, _, rfl, by simp, fun hne => absurd rfl hne, hadded.pathTree htree,
        h.sound.added hadded next, fun t m hm => ?_⟩
      change r'.nodes t = some m at hm
      by_cases htc : t = c
      · rw [htc, hadded.node, some.injEq] at hm
        exact hm ▸ ⟨htype, hdata⟩
      · obtain ⟨m0, hm0, halike⟩ := Ramfs.old_of_keep (hadded.keep t) (hadded.only t htc) hm
        rw [halike.type_eq, halike.data_eq]
        exact h.nodes t m0 hm0
    · rw [Ramfs.addNode_of_not_dir hv hd0 hn hdir]
      refine hfail (e := ENOTDIR) (by decide) rfl fun hc => ?_
      obtain ⟨d', n', hd', hn', hdir'⟩ := htree.isDir.mp hc.1
      cases hwalk.symm.trans hd'
      cases hn.symm.trans hn'
      exact hdir hdir'

end Add

section Remove

variable {refuse : RamfsNode → Option Int} {drop : RamfsNode → Kheap → Option Kheap}

/-- A call that removes a node; `allowed` says which nodes of the reference it may remove. -/
theorem Linkless.remove (h : s.Linkless) (hpath : Named path) (allowed : PathTree → List Str → Prop)
    (hrefuse : ∀ q t n, s.ramfs.walk q = some t → s.ramfs.nodes t = some n →
      (refuse n = none ↔ allowed s.ramfs.pathTree q) ∧ (∀ e, refuse n = some e → e ≠ EOK) ∧
      (refuse n = none → ∀ m, s.ramfs.childOf t m = none))
    (hnone : ∀ q, s.ramfs.walk q = none → ¬ allowed s.ramfs.pathTree q)
    (hdrop : ∀ n heap, n.data = 0 → drop n heap = some heap) {t : Option PathTree}
    (ht : allowed s.ramfs.pathTree (components path) →
      t = some (update s.ramfs.pathTree (components path) none))
    (ht' : ¬ allowed s.ramfs.pathTree (components path) → t = none) : s.Simulates t
      (s.inParent path fun r v name => r.removeNode s.rootVnode.path v name refuse drop) := by
  have htree := h.sound.tree
  obtain ⟨p, name, hcomp, hparent⟩ := h.inParent hpath fun r v name =>
    r.removeNode s.rootVnode.path v name refuse drop
  rw [hcomp] at ht ht'
  have hfail : ∀ {result e next}, e ≠ EOK → result = some (e, { s with strtokNext := next }) →
      ¬ allowed s.ramfs.pathTree (p ++ [name]) → s.Simulates t result := by
    intro result e next he hresult hnot
    rw [ht' hnot, hresult]
    exact h.simulates_none he next
  rcases hparent with ⟨d, u, next, hwalk, hu, hresult⟩ | ⟨e, next, hwalk, he, hresult⟩
  case inr =>
    refine hfail he hresult (hnone _ ?_)
    rw [Ramfs.walk_concat, hwalk]
    rfl
  case inl =>
    rw [hresult]
    obtain ⟨hd0, n, hn, -, hkids⟩ := hu.nodes h.sound
    have hv := hu.nodeOf h.sound
    have hchild : s.ramfs.walk (p ++ [name]) = s.ramfs.childOf d name := by
      rw [Ramfs.walk_concat, hwalk, bind_some]
    by_cases hdir : n.type = .directory
    · obtain ⟨L, hL⟩ := hkids hdir
      cases hc : s.ramfs.childOf d name with
      | none =>
        rw [Ramfs.removeNode_of_none hv hd0 hn hdir hL hc]
        exact hfail (e := ENOENT) (by decide) rfl (hnone _ (hchild.trans hc))
      | some c =>
      rw [hc] at hchild
      obtain ⟨k, hk, -⟩ := htree.node _ c hchild
      obtain ⟨hallowed, herror, hempty⟩ := hrefuse _ c k hchild hk
      cases hr : refuse k with
      | some e =>
        rw [Ramfs.removeNode_refused hv hd0 hn hdir hL hc hk hr]
        refine hfail (herror e hr) rfl fun hc => ?_
        simp [hallowed.mpr hc] at hr
      | none =>
      obtain ⟨r', hrem, hremoved⟩ := Ramfs.removeNode_removed drop htree hv hwalk hn hdir hc hk hr (hempty hr)
      have hremoved := hremoved s.ramfs.heap
      rw [hrem, hdrop k s.ramfs.heap (h.nodes c k hk).2, ht (hallowed.mp hr)]
      refine ⟨EOK, _, rfl, by simp, fun hne => absurd rfl hne, hremoved.pathTree htree hchild,
        h.sound.removed hremoved next, fun t m hm => ?_⟩
      dsimp only at hm
      have htc : t ≠ c := by
        rintro rfl
        rw [hremoved.gone] at hm
        cases hm
      obtain ⟨m0, hm0, halike⟩ :=
        Ramfs.old_of_keep (fun n => hremoved.keep t n htc) (hremoved.only t) hm
      rw [halike.type_eq, halike.data_eq]
      exact h.nodes t m0 hm0
    · rw [Ramfs.removeNode_of_not_dir hv hd0 hn hdir]
      refine hfail (e := ENOTDIR) (by decide) rfl (hnone _ ?_)
      rw [hchild, Ramfs.childOf_of_not_dir hn hdir]

end Remove

/-- The status of a call and the state after it. -/
def call (s : Vfs) : TreeCall → Option (Int × Vfs)
  | .create path mode => s.vfsCreate path mode
  | .mkdir path mode => s.vfsMkdir path mode
  | .remove path => s.vfsRemove path
  | .rmdir path => s.vfsRmdir path
  | .lookup path => (s.vfsLookup path).map fun (r, s) => (match r with | .ok _ => EOK | .error e => e, s)

theorem map_created (r : Ramfs) (rootPath : Str) (v : Vnode) (name : Str) (mode : Nat) :
    (r.ramfsCreate rootPath v name mode).map created = (r.addNode rootPath v name .file fun n r =>
        some ({ n with size := 0, data := 0, mode := S_IFREG ||| mode }, r)).map Ramfs.status := by
  unfold Ramfs.ramfsCreate
  cases r.addNode rootPath v name .file fun n r =>
      some ({ n with size := 0, data := 0, mode := S_IFREG ||| mode }, r) with
  | none => rfl
  | some a =>
    obtain ⟨res, r'⟩ := a
    cases res <;> rfl

theorem Linkless.create {rest : List Nat} (h : s.Linkless) (hpath : Named path)
    (hfresh : s.ramfs.Fresh c rest) (mode : Nat) :
    s.Simulates (s.ramfs.pathTree.apply c (.create path mode)) (s.call (.create path mode)) := by
  have hcall : s.call (.create path mode) = s.inParent path fun r v name =>
      (r.addNode s.rootVnode.path v name .file fun n r =>
        some ({ n with size := 0, data := 0, mode := S_IFREG ||| mode }, r)).map Ramfs.status := by
    simp only [call, vfsCreate, map_created]
  rw [hcall]
  exact h.add hpath hfresh (by decide) fun name m r => ⟨S_IFREG ||| mode, rfl⟩

theorem Linkless.mkdir {rest : List Nat} (h : s.Linkless) (hpath : Named path)
    (hfresh : s.ramfs.Fresh c rest) (mode : Nat) :
    s.Simulates (s.ramfs.pathTree.apply c (.mkdir path mode)) (s.call (.mkdir path mode)) :=
  h.add hpath hfresh (by decide) fun name m r => ⟨S_IFDIR ||| mode &&& 0o777, rfl⟩

theorem isDir_of_node {r : Ramfs} {t : Nat} {n : RamfsNode} (ht : r.walk p = some t)
    (hn : r.nodes t = some n) : r.pathTree.IsDir p ↔ n.type = .directory := by
  unfold PathTree.IsDir
  rw [Ramfs.pathTree_eq_some ht hn]
  simp [eq_comm]

theorem Linkless.removeFile (h : s.Linkless) (hpath : Named path) (c : Nat) :
    s.Simulates (s.ramfs.pathTree.apply c (.remove path)) (s.call (.remove path)) := by
  have htree := h.sound.tree
  refine h.remove hpath (fun t q => t q ≠ none ∧ ¬ t.IsDir q) (fun q t n ht hn => ?_)
    (fun q hq hc => hc.1 (htree.pathTree_eq_none.mpr hq)) (fun n heap hdata => ?_)
    (fun hc => if_pos hc) fun hc => if_neg hc
  · have hnode := Ramfs.pathTree_eq_some ht hn
    have hisDir := isDir_of_node ht hn
    unfold Ramfs.removeRefuses
    by_cases hdir : n.type = .directory
    · simp [hdir, hisDir, EISDIR, EOK]
    · simp [hdir, hisDir, hnode, Ramfs.childOf_of_not_dir hn hdir]
  · exact if_neg (not_not_intro hdata)

/-- A directory without a first kid is empty. -/
theorem child_eq_zero {r : Ramfs} {t : Nat} {n : RamfsNode} (hn : r.nodes t = some n)
    (hdir : n.type = .directory) {L : List Nat} (hL : r.Kids n.child L) :
    n.child = 0 ↔ ∀ m, r.childOf t m = none := by
  rw [hL.chain.head_eq_zero]
  constructor
  · rintro rfl m
    exact Ramfs.childOf_eq hn hdir hL m
  intro hnone
  cases L with
  | nil => rfl
  | cons a L =>
    have := hnone (r.nameOf a)
    simp [Ramfs.childOf_eq hn hdir hL, (hL.find?_eq_some).mpr ⟨mem_cons_self, rfl⟩] at this

theorem Linkless.removeDir (h : s.Linkless) (hpath : Named path) (c : Nat) :
    s.Simulates (s.ramfs.pathTree.apply c (.rmdir path)) (s.call (.rmdir path)) := by
  have htree := h.sound.tree
  refine h.remove hpath
    (fun t q => t.IsDir q ∧ ∀ name, t (q ++ [name]) = none) (fun q t n ht hn => ?_)
    (fun q hq hc => ?_) (fun n heap hdata => rfl) (fun hc => if_pos hc) fun hc => if_neg hc
  · have hisDir := isDir_of_node ht hn
    have hkid : ∀ m, s.ramfs.pathTree (q ++ [m]) = none ↔ s.ramfs.childOf t m = none := by
      intro m
      rw [htree.pathTree_eq_none, Ramfs.walk_concat, ht, bind_some]
    unfold Ramfs.rmdirRefuses
    simp only [hisDir, hkid]
    by_cases hdir : n.type = .directory
    · obtain ⟨n', hn', hkids⟩ := htree.node q t ht
      cases hn.symm.trans hn'
      obtain ⟨L, hL⟩ := hkids hdir
      rw [if_neg (not_not_intro hdir), ← child_eq_zero hn hdir hL]
      by_cases hchild : n.child = 0
      · simp [hchild, hdir]
      · simp [hchild, ENOTEMPTY, EOK]
    · simp [hdir, ENOTDIR, EOK]
  · obtain ⟨d, hd⟩ := hc.1
    simp [htree.pathTree_eq_none.mpr hq] at hd

/-- The lookups of a state, as the reference says it. -/
def Agrees (s : Vfs) (t : PathTree) : Prop :=
  ∀ path : Str, path.head? = some slash → ∃ r next,
    s.vfsLookup path = some (r, { s with strtokNext := next }) ∧
    match t.lookup (components path) with
    | some (c, type) => ∃ u, r = .ok u ∧ s.ramfs.nodeOf s.rootVnode.path (s.get u) = some c ∧
        (s.get u).vtype = type.vtype
    | none => ∃ e, r = .error e ∧ e ≠ EOK

theorem Linkless.agrees (h : s.Linkless) : s.Agrees s.ramfs.pathTree := by
  intro path habs
  have htree := h.sound.tree
  rw [htree.lookup_eq]
  rcases h.vfsLookup habs with ⟨m, u, next, hwalk, hlookup, hu⟩ | ⟨e, next, hwalk, he, hlookup⟩
  · obtain ⟨-, n, hn, hvtype, -⟩ := hu.nodes h.sound
    rw [Ramfs.pathTree_eq_some hwalk hn]
    exact ⟨_, next, hlookup, u, rfl, hu.nodeOf h.sound, hvtype⟩
  · rw [htree.pathTree_eq_none.mpr hwalk]
    exact ⟨_, next, hlookup, e, rfl, he⟩

theorem Linkless.find (h : s.Linkless) (habs : path.head? = some slash) (c : Nat) :
    s.Simulates (s.ramfs.pathTree.apply c (.lookup path)) (s.call (.lookup path)) := by
  obtain ⟨r, next, hlookup, hres⟩ := h.agrees path habs
  rw [call, hlookup, PathTree.apply]
  cases ht : s.ramfs.pathTree.lookup (components path) with
  | none =>
    rw [ht] at hres
    obtain ⟨e, rfl, he⟩ := hres
    exact h.simulates_none he next
  | some a =>
    rw [ht] at hres
    obtain ⟨u, rfl, -⟩ := hres
    exact ⟨EOK, _, rfl, by simp, fun hne => absurd rfl hne, rfl, h.setStrtok next⟩

/-! ## Runs -/

/-- The address of the next node. -/
def nextNode (s : Vfs) : Nat := s.ramfs.fresh.headD 0

/-- The calls that are considered: their path is absolute and ends in a name, and the allocation of a
node succeeds. -/
def callOk (op : TreeCall) (s : Vfs) : Prop :=
  Named op.path ∧ (op.adds → ∃ c rest, s.ramfs.Fresh c rest)

theorem Linkless.simulates (h : s.Linkless) {op : TreeCall} (hok : callOk op s) :
    s.Simulates (s.ramfs.pathTree.apply s.nextNode op) (s.call op) := by
  have hnext : ∀ {c rest}, s.ramfs.Fresh c rest → s.nextNode = c := by
    intro c rest hfresh
    rw [nextNode, hfresh.1]
    rfl
  cases op with
  | create path mode =>
    obtain ⟨c, rest, hfresh⟩ := hok.2 trivial
    rw [hnext hfresh]
    exact h.create hok.1 hfresh mode
  | mkdir path mode =>
    obtain ⟨c, rest, hfresh⟩ := hok.2 trivial
    rw [hnext hfresh]
    exact h.mkdir hok.1 hfresh mode
  | remove path => exact h.removeFile hok.1 _
  | rmdir path => exact h.removeDir hok.1 _
  | lookup path => exact h.find hok.1.1 _

/-- A call and its reference. -/
noncomputable def stepBoth (_ : Nat) (op : TreeCall) : Vfs × PathTree → Option (Vfs × PathTree)
  | (s, t) => (s.call op).map fun (_, s') => (s', (t.apply s.nextNode op).getD t)

theorem linkless_mounted {root : Nat} (hroot : root ≠ 0) (hlt : root < 2 ^ 64) (fresh : List Nat)
    (heap : Kheap) (next : Strtok) : (mounted root fresh heap next).Linkless ∧
      (mounted root fresh heap next).ramfs.pathTree = PathTree.onlyRoot root := by
  set r := (mounted root fresh heap next).ramfs with hr
  have hnode : r.nodes root = some ⟨[slash], .directory, 0, 0, S_IFDIR ||| 0o755, 0, 0⟩ := by
    simp [hr, mounted]
  have hother : ∀ c, c ≠ root → r.nodes c = none := by
    intro c hc
    simp [hr, mounted, update_of_ne hc]
  have hkids : r.Kids 0 [] := ⟨rfl, nodup_nil, by simp, by simp⟩
  have hchild : ∀ name, r.childOf root name = none := fun name =>
    Ramfs.childOf_eq hnode rfl hkids name
  have hwalk : ∀ q, r.walk q = if q = [] then some root else none := by
    intro q
    cases q with
    | nil => rfl
    | cons name q =>
      rw [if_neg (cons_ne_nil _ _), ← nil_append (name :: q), Ramfs.walk_append_cons]
      change ((some root).bind _).bind _ = none
      rw [bind_some, hchild]
      rfl
  have hpath : ∀ q t, r.walk q = some t → q = [] ∧ t = root := by
    intro q t ht
    rw [hwalk] at ht
    by_cases hq : q = []
    · rw [if_pos hq] at ht
      exact ⟨hq, (some.inj ht).symm⟩
    · simp [if_neg hq] at ht
  have htree : r.Tree := by
    refine ⟨⟨_, hnode, rfl⟩, ⟨hroot, hlt⟩, fun q t ht => ?_, fun _ q _ q' t _ _ hq hq' => ?_⟩
    · rw [(hpath q t ht).2]
      exact ⟨_, hnode, fun _ => ⟨[], hkids⟩⟩
    · exact ⟨rfl, (hpath q t hq).1.trans (hpath q' t hq').1.symm⟩
  refine ⟨⟨⟨htree, rfl, rfl, .inr rfl⟩, fun c n hn => ?_⟩, ?_⟩
  · by_cases hc : c = root
    · rw [hc] at hn
      obtain rfl := some.inj (hnode.symm.trans hn)
      exact ⟨by decide, rfl⟩
    · rw [show _ = none from hother c hc] at hn
      cases hn
  · funext q
    rw [Ramfs.pathTree, hwalk, PathTree.onlyRoot, update_apply]
    by_cases hq : q = []
    · rw [if_pos hq, if_pos hq, bind_some, Ramfs.kindOf_eq hnode]
    · rw [if_neg hq, if_neg hq]
      rfl

/-- A new ramfs with a page of heap. -/
def small : Vfs := mounted 4096 [8192] (Kheap.kheapInit (fun _ => 0) [some 1]) .null

theorem small_linkless : small.Linkless :=
  (linkless_mounted (by decide) (by decide) [8192] (Kheap.kheapInit (fun _ => 0) [some 1]) .null).1

/-- Every sequence of calls on a new ramfs without links does what the map from paths to nodes does:
in every state that is reached the lookups are those of the map, the next call succeeds if and only if it
does in the map, and it changes nothing when it fails. -/
theorem vfs_refines_path_tree {root : Nat} (hroot : root ≠ 0) (hlt : root < 2 ^ 64) {fresh : List Nat}
    {heap : Kheap} {next : Strtok} {t : PathTree}
    (hrun : Run stepBoth (fun op st => callOk op st.1)
      (mounted root fresh heap next, PathTree.onlyRoot root) (s, t)) :
    s.Agrees t ∧ ∀ op, callOk op s → ∃ e s', s.call op = some (e, s') ∧
      (e = EOK ↔ (t.apply s.nextNode op).isSome) ∧
      (e ≠ EOK → ∃ next, s' = { s with strtokNext := next }) ∧
      s'.Agrees ((t.apply s.nextNode op).getD t) := by
  have hinv : s.Linkless ∧ s.ramfs.pathTree = t := by
    have hall : ∀ st : Vfs × PathTree, Run stepBoth (fun op st => callOk op st.1)
        (mounted root fresh heap next, PathTree.onlyRoot root) st →
        st.1.Linkless ∧ st.1.ramfs.pathTree = st.2 := by
      intro st hst
      induction hst with
      | init => exact linkless_mounted hroot hlt fresh heap next
      | @next s1 s2 op _ _ hok hstep ih =>
        obtain ⟨s1, t1⟩ := s1
        dsimp only at ih
        obtain ⟨hlink, rfl⟩ := ih
        obtain ⟨e, s', hcall, -, -, htree, hlink'⟩ := hlink.simulates hok
        rw [stepBoth, hcall, map_some, some.injEq] at hstep
        rw [← hstep]
        exact ⟨hlink', htree⟩
    exact hall (s, t) hrun
  obtain ⟨hlink, rfl⟩ := hinv
  refine ⟨hlink.agrees, fun op hok => ?_⟩
  obtain ⟨e, s', hcall, hiff, hfail, htree, hlink'⟩ := hlink.simulates hok
  exact ⟨e, s', hcall, hiff, hfail, htree ▸ hlink'.agrees⟩

/-- A directory is made in a new ramfs. -/
theorem vfs_refines_path_tree_mkdir : ∃ s t, Run stepBoth (fun op st => callOk op st.1)
        (mounted 4096 [8192] (Kheap.kheapInit (fun _ => 0) []) .null, PathTree.onlyRoot 4096) (s, t) ∧
      t.IsDir [str "a"] ∧ s.Agrees t := by
  let s0 := mounted 4096 [8192] (Kheap.kheapInit (fun _ => 0) []) .null
  have hok : callOk (.mkdir (str "/a") 0) s0 :=
    ⟨⟨by decide +kernel, by decide +kernel⟩, fun _ => ⟨8192, [], rfl, by decide, by decide, rfl⟩⟩
  have hlink : s0.Linkless ∧ s0.ramfs.pathTree = PathTree.onlyRoot 4096 :=
    linkless_mounted (by decide) (by decide) [8192] (Kheap.kheapInit (fun _ => 0) []) .null
  obtain ⟨e, s', hcall, -⟩ := hlink.1.simulates hok
  have hadd : ((PathTree.onlyRoot 4096).apply s0.nextNode (.mkdir (str "/a") 0)) =
      some (update (PathTree.onlyRoot 4096) [str "a"] (some (8192, .directory))) := by
    rw [PathTree.apply, show components (str "/a") = [str "a"] from by decide +kernel, PathTree.add]
    exact if_pos ⟨⟨4096, rfl⟩, update_of_ne (cons_ne_nil _ _) ..⟩
  have hstep : stepBoth 0 (.mkdir (str "/a") 0) (s0, PathTree.onlyRoot 4096) =
      some (s', update (PathTree.onlyRoot 4096) [str "a"] (some (8192, .directory))) := by
    rw [stepBoth, hcall, map_some, hadd]
    rfl
  have hrun : Run stepBoth (fun op st => callOk op st.1) (s0, PathTree.onlyRoot 4096)
      (s', update (PathTree.onlyRoot 4096) [str "a"] (some (8192, .directory))) :=
    .next .init hok hstep
  exact ⟨s', _, hrun, ⟨8192, update_self ..⟩, (vfs_refines_path_tree (by decide) (by decide) hrun).1⟩

/-- The call that takes back what a call has made. -/
def undo : TreeCall → Option TreeCall
  | .create path _ => some (.remove path)
  | .mkdir path _ => some (.rmdir path)
  | _ => none

variable {make back : TreeCall}

/-- A node that was made is removed again: its path was free, and a new directory is empty. -/
theorem Linkless.apply_undo (h : s.Linkless) (hback : undo make = some back)
    {t : PathTree} {c : Nat} (hmake : s.ramfs.pathTree.apply c make = some t) (c' : Nat) :
    t.apply c' back = some s.ramfs.pathTree := by
  cases make with
  | remove | rmdir | lookup => cases hback
  | create path mode =>
    cases hback
    obtain ⟨⟨-, hfree⟩, hnew⟩ := ite_none_right_eq_some.mp hmake
    rw [← some.inj hnew, PathTree.apply, PathTree.remove, update_self, if_pos, update_idem, ← hfree,
      update_eq_self]
    simp [PathTree.IsDir]
  | mkdir path mode =>
    cases hback
    obtain ⟨⟨-, hfree⟩, hnew⟩ := ite_none_right_eq_some.mp hmake
    rw [← some.inj hnew, PathTree.apply, PathTree.rmdir, if_pos, update_idem, ← hfree, update_eq_self]
    refine ⟨⟨c, update_self ..⟩, fun name => ?_⟩
    rw [update_of_ne (by simp), h.sound.tree.pathTree_eq_none, Ramfs.walk_concat,
      h.sound.tree.pathTree_eq_none.mp hfree, bind_none]

end Vfs

end Lapis.Fs
