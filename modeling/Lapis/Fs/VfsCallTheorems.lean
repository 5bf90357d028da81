/-
Lapis.Fs.VfsCallTheorems — what the calls of the VFS leave behind.

A call that makes or removes a node looks its directory up first. When it returns, either nothing has
changed but the place of `strtok`, or one node is new (`Added`) or gone (`Removed`); in every case the
VFS is sound again.
-/
import Lapis.Fs.Kfile
import Lapis.Fs.VfsLookupTheorems

namespace Lapis.Fs

open Mm Util
open Option

namespace Vfs

variable {s s' : Vfs} {path name : Str} {e : Int} {u : VnodePtr} {d : Nat}

/-! ## Soundness -/

theorem Sound.setStrtok (h : s.Sound) (next : Strtok) : Sound { s with strtokNext := next } :=
  ⟨h.tree, h.path, h.dir, h.node⟩

theorem Sound.of_tree (h : s.Sound) {r : Ramfs} (htree : r.Tree) (hroot : r.rootNode = s.ramfs.rootNode)
    (next : Strtok) : Sound { s with strtokNext := next, ramfs := r } :=
  ⟨htree, h.path, h.dir, by rw [show ({ s with strtokNext := next, ramfs := r } : Vfs).ramfs.rootNode =
    s.ramfs.rootNode from hroot]; exact h.node⟩

/-- The root of a tree is the node at the empty path. -/
theorem rootNode_of_walk {r r' : Ramfs} (h : r'.walk [] = r.walk []) : r'.rootNode = r.rootNode := by
  rwa [Ramfs.walk_nil, Ramfs.walk_nil, some.injEq] at h

theorem Sound.added (h : s.Sound) {r : Ramfs} {p : List Str} {c : Nat} {k : RamfsNode}
    (hadded : Ramfs.Added s.ramfs r p c k) (next : Strtok) :
    Sound { s with strtokNext := next, ramfs := r } :=
  h.of_tree hadded.tree (rootNode_of_walk (by rw [hadded.walk, if_neg (by simp)])) next

theorem Sound.removed (h : s.Sound) {r : Ramfs} {p : List Str} {c : Nat}
    (hremoved : Ramfs.Removed s.ramfs r p name c) (next : Strtok) :
    Sound { s with strtokNext := next, ramfs := r } :=
  h.of_tree hremoved.tree (rootNode_of_walk (by rw [hremoved.walk, if_neg (by simp)])) next

theorem get_setStrtok (s : Vfs) (u : VnodePtr) (next : Strtok) :
    Vfs.get { s with strtokNext := next } u = s.get u := by
  cases u <;> rfl

/-! ## Calls in a directory -/

/-- What a call in a directory has done when it returns. -/
theorem inParent_inv (hs : s.Sound) {op : Ramfs → Vnode → Str → Option (Int × Ramfs)}
    (h : s.inParent path op = some (e, s')) :
    (∃ next, s' = { s with strtokNext := next }) ∨
    ∃ d u next r', s.ramfs.resolve (dirNames path) = some (.ok d) ∧ s.Refers u d ∧
      op s.ramfs (s.get u) (baseName path) = some (e, r') ∧
      s' = { s with strtokNext := next, ramfs := r' } := by
  by_cases habs : path.head? = some slash
  · rcases inParent_found hs habs op with
      ⟨-, heq⟩ | ⟨err, next, -, heq⟩ | ⟨d, u, next, hres, hu, heq⟩ <;> rw [heq] at h
    · cases h
    · cases h
      exact .inl ⟨next, rfl⟩
    · obtain ⟨⟨err, r'⟩, hop, heq⟩ := map_eq_some_iff.mp h
      cases heq
      exact .inr ⟨d, u, next, r', hres, hu, hop, rfl⟩
  · rcases inParent_relative hs habs op with hrel | hrel <;> rw [hrel] at h <;> cases h <;>
      exact .inl ⟨s.strtokNext, rfl⟩

section Add

variable {type : RamfsType} {init : RamfsNode → Ramfs → Option (RamfsNode × Ramfs)}

theorem add_inv (hs : s.Sound)
    (hinit : ∀ name m r1 k r2, init ⟨name, type, 0, 0, m, 0, 0⟩ r1 = some (k, r2) →
      k.name = name ∧ k.type = type ∧ k.sibling = 0 ∧ k.child = 0 ∧ r2 = { r1 with heap := r2.heap })
    (h : s.inParent path (fun r v name =>
      (r.addNode s.rootVnode.path v name type init).map Ramfs.status) = some (e, s')) :
    (∃ next, s' = { s with strtokNext := next }) ∨
    ∃ p c k next r', e = EOK ∧ s' = { s with strtokNext := next, ramfs := r' } ∧
      Ramfs.Added s.ramfs r' p c k ∧ k.type = type ∧
      ∃ m r1 r2, r1.heap = s.ramfs.heap ∧ init ⟨k.name, type, 0, 0, m, 0, 0⟩ r1 = some (k, r2) ∧
        r'.heap = r2.heap := by
  rcases inParent_inv hs h with hsame | ⟨d, u, next, r', -, hu, hop, rfl⟩
  · exact .inl hsame
  obtain ⟨q, hq⟩ := hu.1
  obtain ⟨⟨res, r''⟩, hadd, hstatus⟩ := map_eq_some_iff.mp hop
  rcases Ramfs.addNode_inv hs.tree (hu.nodeOf hs) hq (hinit (baseName path)) hadd with
    ⟨err, -, rfl, rfl⟩ | ⟨c, k, rfl, hadded, hname, htype, -, -, -, -, m, r1, r2, hheap, hk, hheap'⟩
  · cases hstatus
    exact .inl ⟨next, rfl⟩
  · cases hstatus
    refine .inr ⟨q, c, k, next, _, rfl, rfl, hadded, htype, m, r1, r2, hheap, ?_, hheap'⟩
    rwa [hname]

end Add

/-! ## Links -/

theorem strdup_inv {r r' : Ramfs} {text : Str} {p : Nat} (h : r.strdup text = some (p, r')) :
    r' = { r with heap := r'.heap } := by
  unfold Ramfs.strdup at h
  obtain ⟨⟨q, heap⟩, -, h⟩ := bind_eq_some_iff.mp h
  dsimp only at h
  split at h <;> cases h <;> rfl

theorem symlink_inv (hs : s.Sound) {text : Str} (h : s.vfsSymlink text path = some (e, s')) :
    (∃ next, s' = { s with strtokNext := next }) ∨
    ∃ p c k next r', e = EOK ∧ s' = { s with strtokNext := next, ramfs := r' } ∧
      Ramfs.Added s.ramfs r' p c k ∧ k.type = .symlink := by
  have hinit : ∀ name m r1 k r2, (Ramfs.strdup r1 text).bind (fun x =>
        some ((⟨name, .symlink, text.length + 1, x.1, m, 0, 0⟩ : RamfsNode), x.2)) = some (k, r2) →
      k.name = name ∧ k.type = .symlink ∧ k.sibling = 0 ∧ k.child = 0 ∧ r2 = { r1 with heap := r2.heap } := by
    intro name m r1 k r2 hk
    obtain ⟨⟨data, r⟩, hdup, hk⟩ := bind_eq_some_iff.mp hk
    cases hk
    exact ⟨rfl, rfl, rfl, rfl, strdup_inv hdup⟩
  rcases add_inv hs hinit h with hsame | ⟨p, c, k, next, r', he, hs', hadded, htype, -⟩
  · exact .inl hsame
  · exact .inr ⟨p, c, k, next, r', he, hs', hadded, htype⟩

/-! ## Files -/

/-- `vfs_open` of a node of the tree: the vnode gets its node. -/
theorem openVnode_eq (hs : s.Sound) (hu : s.Refers u d) (flags : Nat) :
    ∃ data size, s.openVnode u flags =
      some (.ok ⟨data, size, 0, 0, (s.setVnode u { s.get u with nodeData := d }).1⟩,
        (s.setVnode u { s.get u with nodeData := d }).2) := by
  obtain ⟨hne, n, hn, -⟩ := hu.nodes hs
  have hopen : ∃ data size, s.ramfs.ramfsOpen s.rootVnode.path (s.get u) flags =
      some (.ok ({ s.get u with nodeData := d }, data, size)) := by
    unfold Ramfs.ramfsOpen
    dsimp only
    by_cases hzero : (s.get u).nodeData = 0
    · cases u with
      | root =>
        obtain rfl : d = s.ramfs.rootNode := hu.2
        have hfind : s.ramfs.ramfsFindNode (if ((s.get .root).path.drop
            s.rootVnode.path.length).head? = some slash then
            ((s.get .root).path.drop s.rootVnode.path.length).tail
            else (s.get .root).path.drop s.rootVnode.path.length) = some s.ramfs.rootNode := by
          rw [show s.get .root = s.rootVnode from rfl, hs.path]
          rfl
        rw [if_neg (not_not_intro hzero), hfind, bind_eq_bind, bind_some, if_neg hne, hn,
          bind_eq_bind, bind_some]
        split <;> exact ⟨_, _, rfl⟩
      | own w => exact absurd (hu.2.1.symm.trans hzero) hne
    · rw [if_pos hzero, bind_eq_bind, bind_some, if_neg hzero, hu.nodeData hs hzero, hn,
        bind_eq_bind, bind_some]
      split <;> exact ⟨_, _, rfl⟩
  obtain ⟨data, size, hopen⟩ := hopen
  unfold openVnode
  rw [hopen]
  exact ⟨_, _, rfl⟩

/-- `ramfs_create` changes nothing, or makes the vnode of a new node. -/
theorem ramfsCreate_inv {res : Except Int Vnode} {r : Ramfs} {mode : Nat} (hs : s.Sound)
    (hu : s.Refers u d)
    (h : s.ramfs.ramfsCreate s.rootVnode.path (s.get u) name mode = some (res, r)) :
    (∃ e, res = .error e ∧ r = s.ramfs) ∨
    ∃ v p c k, res = .ok v ∧ Ramfs.Added s.ramfs r p c k ∧ Refers { s with ramfs := r } (.own v) c := by
  obtain ⟨p, hp⟩ := hu.1
  obtain ⟨⟨a, r'⟩, hadd, h⟩ := bind_eq_some_iff.mp h
  rcases Ramfs.addNode_inv hs.tree (hu.nodeOf hs) hp
      (fun m r1 k r2 hk => by cases hk; exact ⟨rfl, rfl, rfl, rfl, rfl⟩) hadd with
    ⟨e, -, rfl, rfl⟩ | ⟨c, k, rfl, hadded, -, htype, -, -, -, -, m, r1, r2, -, hk, -⟩
  · cases h
    exact .inl ⟨e, rfl, rfl⟩
  cases h
  have hwalk := (hadded.walk (p ++ [k.name])).trans (if_pos rfl)
  have hroot : c ≠ r.rootNode := by
    rintro rfl
    have := hadded.tree.path_eq hwalk r.walk_nil
    simp at this
  refine .inr ⟨_, p, c, k, rfl, hadded, ⟨_, hwalk⟩, rfl, hroot, k, hadded.node, by rw [htype]; rfl, ?_⟩
  cases hk
  rfl

end Vfs

end Lapis.Fs
