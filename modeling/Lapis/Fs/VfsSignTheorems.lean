/-
Lapis.Fs.VfsSignTheorems — the sign of what the calls of the VFS return.

`Good` says what a call needs to return EOK or a negative errno: its lookup meets no missing component
(`Present`), and what the ramfs does for the call succeeds.
-/
import Lapis.Fs.VfsErrorTheorems

namespace Lapis.Fs

open Mm Util
open List Option

namespace Vfs

open Ramfs (Stat Quiet)

variable {s : Vfs} {u : VnodePtr} {d : Nat} {path : Str}

/-! ## All calls -/

/-- A call of the VFS. -/
inductive Call
  | lookup (path : Str)
  | lookupParent (path : Str)
  | create (path : Str) (mode : Nat)
  | open (path : Str) (flags : Nat)
  | mkdir (path : Str) (mode : Nat)
  | rmdir (path : Str)
  | remove (path : Str)
  | symlink (target path : Str)
  | readlink (path : Str) (size : Nat)
  | stat (path : Str)
  | setstat (path : Str) (st : Stat)
  | readdir (u : VnodePtr) (count : Nat)
  | write (u : VnodePtr) (buf : List UInt8) (offset : Nat)

/-- What a call returns. -/
def status (s : Vfs) : Call → Option Int
  | .lookup path => (s.vfsLookup path).map fun x => statusOf x.1
  | .lookupParent path => (s.vfsLookupParent path).map fun x => statusOf x.1
  | .create path mode => (s.vfsCreate path mode).map (·.1)
  | .open path flags => (s.vfsOpen path flags).map fun x => statusOf x.1
  | .mkdir path mode => (s.vfsMkdir path mode).map (·.1)
  | .rmdir path => (s.vfsRmdir path).map (·.1)
  | .remove path => (s.vfsRemove path).map (·.1)
  | .symlink target path => (s.vfsSymlink target path).map (·.1)
  | .readlink path size => (s.vfsReadlink path size).map fun x => statusOf x.1
  | .stat path => (s.vfsStat path).map fun x => statusOf x.1
  | .setstat path st => (s.vfsSetstat path st).map (·.1)
  | .readdir u count => (s.vfsReaddir u count).map statusOf
  | .write u buf offset => (s.vfsWrite u buf offset).map (·.1)

/-- The vnodes given to a call are vnodes of nodes of the tree. -/
def Call.Valid (s : Vfs) : Call → Prop
  | .readdir u _ | .write u _ _ => ∃ d, s.Refers u d
  | _ => True

/-- A call returns EOK or a negative errno; a write that the file system has done returns the number of
bytes instead. -/
def Conforms (s : Vfs) (call : Call) : Prop :=
  ∃ e, s.status call = some e ∧
    match call with
    | .write u buf offset =>
      ∀ err r, s.ramfs.ramfsWrite (s.get u) buf offset = some (err, r) →
        (err = EOK → e = buf.length) ∧ (err ≠ EOK → e < 0)
    | _ => e ≤ 0

/-- A lookup meets no missing component. -/
def GoodLookup (s : Vfs) (path : Str) : Prop :=
  path.head? = some slash → s.ramfs.Present s.ramfs.rootNode (components path)

/-- What a call needs to return a value of the right sign: its lookup meets no missing component, and what
the ramfs does at the end of it succeeds. -/
def Good (s : Vfs) : Call → Prop
  | .lookup path | .stat path => s.GoodLookup path
  | .lookupParent path => s.GoodIn path fun _ => True
  | .create path _ | .mkdir path _ => s.GoodIn path (s.NewIn (baseName path))
  | .symlink target path => s.GoodIn path fun d => s.NewIn (baseName path) d ∧
      (s.ramfs.heap.kzalloc (target.length + 1)).isSome
  | .rmdir path => s.GoodIn path
      (s.OldIn Ramfs.rmdirRefuses (fun _ heap => some heap) (baseName path))
  | .remove path => s.GoodIn path (s.OldIn Ramfs.removeRefuses Ramfs.freeData (baseName path))
  | .open path flags => s.GoodLookup path ∧
      (path.head? = some slash → flags &&& Ramfs.V_CREATE ≠ 0 →
        s.ramfs.resolve (components path) = some (.error (-ENOENT)) →
        s.GoodIn path (s.NewIn (baseName path)))
  | .readlink path _ => path.head? = some slash →
      s.ramfs.PlainPresent s.ramfs.rootNode (components path) ∧
      ∀ c n, s.ramfs.walk (components path) = some c → s.ramfs.nodes c = some n →
        n.type = .symlink → n.data ≠ 0 ∧ (s.ramfs.linkText n).isSome
  | .setstat path _ => s.GoodLookup path ∧
      (path.head? = some slash →
        s.ramfs.resolve (components path) = some (.ok s.ramfs.rootNode) → s.rootVnode.nodeData ≠ 0)
  | .readdir _ _ => True
  | .write u buf offset => (s.get u).nodeData ≠ 0 ∧ buf.length < 2 ^ 31 ∧
      ∀ n, s.ramfs.nodes (s.get u).nodeData = some n → n.size < (buf.length + offset) % 2 ^ 64 →
        ((s.ramfs.file n).grow ((buf.length + offset) % 2 ^ 64)).isSome

/-! ## Lookups and their status -/

theorem Found.nonpos {f : Option (Except Int Nat)} {result : Option (Except Int VnodePtr × Vfs)}
    (h : s.Found f result) : (∃ e, result.map (fun x => statusOf x.1) = some e ∧ e ≤ 0) ↔ Quiet f := by
  match f, h with
  | none, h =>
    rw [show result = none from h]
    exact ⟨fun ⟨e, he, _⟩ => (by cases he), fun hc => absurd hc Ramfs.not_quiet_none⟩
  | some (.error e), ⟨next, h⟩ =>
    rw [h, Ramfs.quiet_error]
    exact ⟨fun ⟨e', he, hle⟩ => (by cases he; exact hle), fun he => ⟨e, rfl, he⟩⟩
  | some (.ok m), ⟨u, next, h, _⟩ =>
    rw [h]
    exact ⟨fun _ => Ramfs.quiet_ok m, fun _ => ⟨0, rfl, Int.le_refl 0⟩⟩

theorem lookup_conforms (hs : s.Sound) (path : Str) : s.Conforms (.lookup path) ↔ s.Good (.lookup path) := by
  change (∃ e, (s.vfsLookup path).map _ = some e ∧ e ≤ 0) ↔ s.GoodLookup path
  unfold GoodLookup
  by_cases habs : path.head? = some slash
  · rw [(vfsLookup_found hs habs).nonpos, hs.tree.resolve_quiet]
    exact ⟨fun h _ => h, fun h => h habs⟩
  · rw [vfsLookup_relative hs habs]
    exact ⟨fun _ hc => absurd hc habs, fun _ => ⟨-ENOENT, rfl, by decide⟩⟩

theorem lookupParent_conforms (hs : s.Sound) (path : Str) :
    s.Conforms (.lookupParent path) ↔ s.Good (.lookupParent path) := by
  change (∃ e, (s.vfsLookupParent path).map _ = some e ∧ e ≤ 0) ↔ s.GoodIn path _
  unfold GoodIn
  by_cases habs : path.head? = some slash
  · rw [← hs.tree.resolve_quiet]
    rcases vfsLookupParent_found hs habs with
      ⟨hres, heq⟩ | ⟨e, next, hres, heq⟩ | ⟨d, u, next, hres, heq, -⟩ <;> rw [hres, heq]
    · exact ⟨fun ⟨e, he, _⟩ => (by cases he), fun h => absurd (h habs).1 Ramfs.not_quiet_none⟩
    · rw [Ramfs.quiet_error]
      exact ⟨fun ⟨e', he, hle⟩ _ => (by cases he; exact ⟨hle, nofun⟩), fun h => ⟨e, rfl, (h habs).1⟩⟩
    · exact ⟨fun _ _ => ⟨Ramfs.quiet_ok d, fun _ _ => trivial⟩, fun _ => ⟨0, rfl, Int.le_refl 0⟩⟩
  · refine ⟨fun _ hc => absurd hc habs, fun _ => ?_⟩
    rcases vfsLookupParent_relative hs habs with h | h <;> rw [h]
    · exact ⟨-EINVAL, rfl, by decide⟩
    · exact ⟨-ENOENT, rfl, by decide⟩

/-- The status of a call in a directory. -/
theorem map_fst_nonpos {α : Type} {result : Option (Int × α)} :
    (∃ e, result.map (·.1) = some e ∧ e ≤ 0) ↔ ∃ e a, result = some (e, a) ∧ e ≤ 0 := by
  constructor
  · rintro ⟨e, h, he⟩
    obtain ⟨⟨e', a⟩, hresult, rfl⟩ := map_eq_some_iff.mp h
    exact ⟨e', a, hresult, he⟩
  · rintro ⟨e, a, rfl, he⟩
    exact ⟨e, rfl, he⟩

theorem create_conforms (hs : s.Sound) (path : Str) (mode : Nat) :
    s.Conforms (.create path mode) ↔ s.Good (.create path mode) := by
  refine map_fst_nonpos.trans (inParent_nonpos hs fun d u hu => ?_)
  rw [map_created, map_status_nonpos, addNode_nonpos hs hu (Q := True) (fun m r1 _ => by simp)
    (fun m r1 k r2 hk => by cases hk; exact ⟨0, 0, _, rfl, rfl⟩), and_true]

theorem mkdir_conforms (hs : s.Sound) (path : Str) (mode : Nat) :
    s.Conforms (.mkdir path mode) ↔ s.Good (.mkdir path mode) := by
  refine map_fst_nonpos.trans (inParent_nonpos hs fun d u hu => ?_)
  unfold Ramfs.ramfsMkdir
  rw [map_status_nonpos, addNode_nonpos hs hu (Q := True) (fun m r1 _ => by simp)
    (fun m r1 k r2 hk => by cases hk; exact ⟨0, 0, _, rfl, rfl⟩), and_true]

theorem strdup_isSome {r : Ramfs} {text : Str} :
    (r.strdup text).isSome ↔ (r.heap.kzalloc (text.length + 1)).isSome := by
  unfold Ramfs.strdup
  cases r.heap.kzalloc (text.length + 1) with
  | none => rfl
  | some x =>
    obtain ⟨p, heap⟩ := x
    dsimp only [bind_eq_bind, bind_some]
    split <;> simp

theorem symlink_conforms (hs : s.Sound) (target path : Str) :
    s.Conforms (.symlink target path) ↔ s.Good (.symlink target path) := by
  refine map_fst_nonpos.trans (inParent_nonpos hs fun d u hu => ?_)
  unfold Ramfs.ramfsSymlink
  rw [map_status_nonpos, addNode_nonpos hs hu (fun m r1 hheap => ?_) (fun m r1 k r2 hk => ?_)]
  · rw [← hheap, ← strdup_isSome]
    cases r1.strdup target <;> rfl
  · obtain ⟨⟨data, r⟩, hdup, hk⟩ := bind_eq_some_iff.mp hk
    cases hk
    exact ⟨_, _, _, rfl, strdup_inv hdup⟩

section

variable (hs : s.Sound) (path : Str)

include hs

theorem rmdir_conforms : s.Conforms (.rmdir path) ↔ s.Good (.rmdir path) :=
  map_fst_nonpos.trans (inParent_nonpos hs fun _ _ hu =>
    removeNode_nonpos hs hu rmdirRefuses_pos fun _ _ _ => hs.rmdir_empty)

theorem remove_conforms : s.Conforms (.remove path) ↔ s.Good (.remove path) :=
  map_fst_nonpos.trans (inParent_nonpos hs fun _ _ hu =>
    removeNode_nonpos hs hu removeRefuses_pos fun _ _ _ _ => remove_empty)

theorem stat_conforms : s.Conforms (.stat path) ↔ s.Good (.stat path) := by
  change (∃ e, (s.vfsStat path).map _ = some e ∧ e ≤ 0) ↔ s.GoodLookup path
  unfold GoodLookup vfsStat
  by_cases habs : path.head? = some slash
  · rw [forall_prop_of_true habs, ← hs.tree.resolve_quiet]
    rcases (vfsLookup_found hs habs).cases with
      ⟨hres, hlookup⟩ | ⟨e, next, hres, hlookup⟩ | ⟨m, u, next, hres, hlookup, hu⟩ <;> rw [hres, hlookup]
    · exact ⟨fun ⟨e, he, _⟩ => (by cases he), fun hc => absurd hc Ramfs.not_quiet_none⟩
    · rw [Ramfs.quiet_error]
      exact ⟨fun ⟨e', he, hle⟩ => (by cases he; exact hle), fun he => ⟨e, rfl, he⟩⟩
    obtain ⟨hne, n, hn, -⟩ := hu.nodes hs
    have hattr : ∃ st, s.ramfs.ramfsGetattr s.rootVnode.path (s.get u) = some (.ok st) := by
      unfold Ramfs.ramfsGetattr
      rw [hu.nodeOf hs, bind_eq_bind, bind_some, if_neg hne, hn]
      exact ⟨_, rfl⟩
    obtain ⟨st, hattr⟩ := hattr
    dsimp only [bind_eq_bind, bind_some]
    rw [get_setStrtok, hattr]
    exact ⟨fun _ => Ramfs.quiet_ok m, fun _ => ⟨0, rfl, Int.le_refl 0⟩⟩
  · rw [vfsLookup_relative hs habs]
    exact ⟨fun _ hc => absurd hc habs, fun _ => ⟨-ENOENT, rfl, by decide⟩⟩

theorem setstat_conforms (st : Stat) : s.Conforms (.setstat path st) ↔ s.Good (.setstat path st) := by
  refine map_fst_nonpos.trans ?_
  change _ ↔ s.GoodLookup path ∧ _
  unfold GoodLookup vfsSetstat
  by_cases habs : path.head? = some slash
  · rw [forall_prop_of_true habs, forall_prop_of_true habs, ← hs.tree.resolve_quiet]
    rcases (vfsLookup_found hs habs).cases with
      ⟨hres, hlookup⟩ | ⟨e, next, hres, hlookup⟩ | ⟨m, u, next, hres, hlookup, hu⟩ <;> rw [hres, hlookup]
    · exact ⟨fun ⟨e, _, he, _⟩ => (by cases he), fun hc => absurd hc.1 Ramfs.not_quiet_none⟩
    · rw [Ramfs.quiet_error]
      exact ⟨fun ⟨e', _, he, hle⟩ => (by cases he; exact ⟨hle, nofun⟩), fun he => ⟨e, _, rfl, he.1⟩⟩
    obtain ⟨hne, n, hn, -⟩ := hu.nodes hs
    dsimp only [bind_eq_bind, bind_some]
    rw [get_setStrtok]
    unfold Ramfs.ramfsSetattr
    by_cases hzero : (s.get u).nodeData = 0
    · -- the vnode of the root, after it was closed
      have hroot : m = s.ramfs.rootNode ∧ s.rootVnode.nodeData = 0 := by
        cases u with
        | root => exact ⟨hu.2, hzero⟩
        | own w => exact absurd (hu.2.1.symm.trans hzero) hne
      rw [if_pos hzero]
      refine ⟨fun ⟨e, _, he, hle⟩ => ?_, fun hc => absurd hroot.2 (hc.2 (by rw [hroot.1]))⟩
      cases he
      exact absurd (show EFAULT ≤ 0 from hle) (by decide)
    · have hnode : s.ramfs.nodes (s.get u).nodeData = some n := by
        cases u with
        | root =>
          obtain rfl : m = s.ramfs.rootNode := hu.2
          rwa [show (s.get .root).nodeData = s.ramfs.rootNode from hs.node.resolve_left hzero]
        | own w => exact hu.2.1 ▸ hn
      rw [if_neg hzero, hnode]
      refine ⟨fun _ => ⟨Ramfs.quiet_ok m, fun hm => ?_⟩, fun _ => ⟨EOK, _, rfl, Int.le_refl 0⟩⟩
      cases u with
      | root => exact hzero
      | own w => exact absurd (Except.ok.inj (some.inj hm)) hu.2.2.1
  · rw [vfsLookup_relative hs habs]
    exact ⟨fun _ => ⟨fun hc => absurd hc habs, fun hc => absurd hc habs⟩,
      fun _ => ⟨-ENOENT, s, rfl, by decide⟩⟩

theorem readlink_conforms (size : Nat) : s.Conforms (.readlink path size) ↔ s.Good (.readlink path size) := by
  change (∃ e, (s.vfsReadlink path size).map _ = some e ∧ e ≤ 0) ↔ (path.head? = some slash → _)
  unfold vfsReadlink
  by_cases habs : path.head? = some slash
  · rw [forall_prop_of_true habs, ← hs.tree.plain_quiet s.ramfs.walk_nil]
    change _ ↔ Quiet (s.ramfs.plain (components path)) ∧ _
    have hwalk := hs.tree.plain_cases (components path)
    rcases (lookup_plain hs habs).cases with
      ⟨hres, hlookup⟩ | ⟨e, next, hres, hlookup⟩ | ⟨m, u, next, hres, hlookup, hu⟩ <;> rw [hres, hlookup]
    · refine ⟨fun hc => ?_, fun hc => absurd hc.1 Ramfs.not_quiet_none⟩
      obtain ⟨e, he, -⟩ := hc
      cases he
    · have hnone : s.ramfs.walk (components path) = none := by
        rcases hwalk with ⟨m, -, hm⟩ | ⟨hnone, -⟩
        · simp [hres] at hm
        · exact hnone
      rw [Ramfs.quiet_error, hnone]
      refine ⟨fun hc => ?_, fun he => ⟨e, rfl, he.1⟩⟩
      obtain ⟨e', he, hle⟩ := hc
      cases he
      exact ⟨hle, fun c k hc => by cases hc⟩
    · have hsome : s.ramfs.walk (components path) = some m := by
        rcases hwalk with ⟨m', hsome, hm⟩ | ⟨-, e, -, he⟩
        · rw [hres] at hm
          cases hm
          exact hsome
        · simp [hres] at he
      obtain ⟨hne, n, hn, hvtype, -⟩ := hu.nodes hs
      have honly : (∀ c k, some m = some c → s.ramfs.nodes c = some k → k.type = .symlink →
          k.data ≠ 0 ∧ (s.ramfs.linkText k).isSome) ↔
          (n.type = .symlink → n.data ≠ 0 ∧ (s.ramfs.linkText n).isSome) := by
        refine ⟨fun h => h m n rfl hn, fun h c k hc hk => ?_⟩
        obtain rfl : m = c := some.inj hc
        cases hn.symm.trans hk
        exact h
      rw [hsome, honly]
      dsimp only [bind_eq_bind, bind_some]
      rw [get_setStrtok]
      by_cases hlink : n.type = .symlink
      · have hvlink : (s.get u).vtype = .link := hvtype.trans (vtype_eq_link.mpr hlink)
        have hnode : (s.get u).nodeData = m := by
          cases u with
          | root =>
            simp [show s.get .root = s.rootVnode from rfl, hs.dir] at hvlink
          | own w => exact hu.2.1
        rw [if_neg (not_not_intro hvlink), forall_prop_of_true hlink,
          ramfsReadlink_eq (hnode ▸ hn) (hnode ▸ hne) hvlink hlink]
        by_cases hdata : n.data = 0
        · rw [if_pos hdata]
          refine ⟨fun hc => ?_, fun hc => absurd hdata hc.2.1⟩
          obtain ⟨e, he, hle⟩ := hc
          cases he
          exact absurd (show EINVAL ≤ 0 from hle) (by decide)
        · rw [if_neg hdata, Ramfs.linkText]
          cases Ramfs.cstr s.ramfs.heap.mem (2 ^ 64) n.data with
          | none =>
            refine ⟨fun hc => ?_, fun hc => (by cases hc.2.2)⟩
            obtain ⟨e, he, -⟩ := hc
            cases he
          | some text =>
            exact ⟨fun _ => ⟨Ramfs.quiet_ok m, hdata, rfl⟩, fun _ => ⟨0, rfl, Int.le_refl 0⟩⟩
      · have hvlink : (s.get u).vtype ≠ .link := by
          rw [hvtype]
          exact fun h => hlink (vtype_eq_link.mp h)
        rw [if_pos hvlink]
        exact ⟨fun _ => ⟨Ramfs.quiet_ok m, fun hc => absurd hc hlink⟩, fun _ => ⟨-EINVAL, rfl, by decide⟩⟩
  · rw [lookup_relative hs habs]
    exact ⟨fun _ hc => absurd hc habs, fun _ => ⟨-ENOENT, rfl, by decide⟩⟩

end

/-- The loop of `ramfs_readdir` ends. -/
theorem readdirFrom_isSome {r : Ramfs} (max idx : Nat) {rounds first : Nat} {L : List Nat}
    (hchain : Lapis.Lib.Chain r.siblingOf first L) (halloc : ∀ c ∈ L, (r.nodes c).isSome)
    (hrounds : L.length < rounds) : (r.readdirFrom max rounds idx first).isSome := by
  induction L generalizing rounds idx first with
  | nil =>
    obtain ⟨rounds, rfl⟩ := Nat.exists_eq_succ_of_ne_zero (Nat.ne_of_gt hrounds)
    rw [Ramfs.readdirFrom, if_pos (.inl (show first = 0 from hchain))]
    rfl
  | cons a L ih =>
    obtain ⟨rounds, rfl⟩ := Nat.exists_eq_succ_of_ne_zero (Nat.ne_of_gt (Nat.zero_lt_of_lt hrounds))
    obtain ⟨rfl, hne, hrest⟩ := hchain
    obtain ⟨m, hm⟩ := isSome_iff_exists.mp (halloc first mem_cons_self)
    rw [Ramfs.siblingOf_eq hm] at hrest
    unfold Ramfs.readdirFrom
    by_cases hmax : first = 0 ∨ max ≤ idx
    · rw [if_pos hmax]
      rfl
    · obtain ⟨entries, hentries⟩ := isSome_iff_exists.mp (ih (idx + 1) hrest
        (fun c hc => halloc c (mem_cons_of_mem first hc)) (Nat.lt_of_succ_lt_succ hrounds))
      rw [if_neg hmax, hm, bind_eq_bind, bind_some, hentries]
      rfl

theorem readdir_conforms (hs : s.Sound) (hu : s.Refers u d) (count : Nat) :
    s.Conforms (.readdir u count) := by
  change ∃ e, (s.vfsReaddir u count).map statusOf = some e ∧ e ≤ 0
  unfold vfsReaddir
  obtain ⟨hne, n, hn, hvtype, hkids⟩ := hu.nodes hs
  by_cases hdir : n.type = .directory
  · have hvdir : (s.get u).vtype = .dir := hvtype.trans (vtype_eq_dir.mpr hdir)
    obtain ⟨L, hL⟩ := hkids hdir
    obtain ⟨entries, hentries⟩ := isSome_iff_exists.mp (readdirFrom_isSome count 0
      hL.chain (fun c hc => (hL.alloc c hc).1) hL.length_lt)
    refine ⟨0, ?_, Int.le_refl 0⟩
    rw [if_neg (not_not_intro hvdir), Ramfs.ramfsReaddir, if_neg (not_not_intro hvdir),
      Ramfs.dirOf_eq (hu.nodeOf hs) hne hn, if_neg (not_not_intro hdir)]
    dsimp only [bind_eq_bind, bind_some]
    rw [hentries]
    rfl
  · have hvdir : (s.get u).vtype ≠ .dir := by
      rw [hvtype]
      exact fun h => hdir (vtype_eq_dir.mp h)
    rw [if_pos hvdir]
    exact ⟨-ENOTDIR, rfl, by decide⟩

theorem toInt_eq {n : Nat} : toInt n = n ↔ n < 2 ^ 31 := by
  unfold toInt
  rw [BitVec.toInt_eq_toNat_cond, BitVec.toNat_ofNat]
  split <;> omega

theorem write_conforms (hs : s.Sound) (hu : s.Refers u d) (buf : List UInt8) (offset : Nat) :
    s.Conforms (.write u buf offset) ↔ s.Good (.write u buf offset) := by
  change (∃ e, (s.vfsWrite u buf offset).map (·.1) = some e ∧ _) ↔ (s.get u).nodeData ≠ 0 ∧ _
  unfold vfsWrite
  obtain ⟨-, n, hn, -⟩ := hu.nodes hs
  by_cases hzero : (s.get u).nodeData = 0
  · have hfail : s.ramfs.ramfsWrite (s.get u) buf offset = some (EFAULT, s.ramfs) := if_pos hzero
    refine ⟨fun ⟨e, he, herr⟩ => ?_, fun hc => absurd hzero hc.1⟩
    rw [hfail] at he
    cases he
    exact absurd (show EFAULT < 0 from (herr EFAULT s.ramfs hfail).2 (by decide)) (by decide)
  · have hnode : s.ramfs.nodes (s.get u).nodeData = some n := by rw [hu.nodeData hs hzero, hn]
    have hwrite : s.ramfs.ramfsWrite (s.get u) buf offset = (do
        let f ← (s.ramfs.file n).ramfsWrite buf offset
        some (EOK, { s.ramfs.setNode (s.get u).nodeData { n with size := f.size, data := f.data } with
          heap := f.heap })) := by
      unfold Ramfs.ramfsWrite
      rw [if_neg hzero, hnode]
      rfl
    have hfile : ((s.ramfs.file n).ramfsWrite buf offset).isSome ↔
        ∀ k, s.ramfs.nodes (s.get u).nodeData = some k → k.size < (buf.length + offset) % 2 ^ 64 →
          ((s.ramfs.file k).grow ((buf.length + offset) % 2 ^ 64)).isSome := by
      simp only [hnode, some.injEq, forall_eq', RamfsFile.ramfsWrite]
      generalize (buf.length + offset) % 2 ^ 64 = total
      change _ ↔ ((s.ramfs.file n).size < total → _)
      by_cases hgrow : (s.ramfs.file n).size < total
      · cases (s.ramfs.file n).grow total <;> simp [hgrow]
      · simp [hgrow]
    rw [← hfile]
    cases hf : (s.ramfs.file n).ramfsWrite buf offset with
    | none =>
      refine ⟨fun ⟨e, he, _⟩ => ?_, fun hc => (by cases hc.2.2)⟩
      simp [hwrite, hf] at he
    | some f =>
    rw [hf] at hwrite
    constructor
    · rintro ⟨e, he, herr⟩
      have hlen := (herr EOK _ hwrite).1 rfl
      rw [hwrite] at he
      cases he
      exact ⟨hzero, toInt_eq.mp hlen, rfl⟩
    · rintro ⟨-, hlen, -⟩
      refine ⟨toInt buf.length, by rw [hwrite]; rfl, fun err r hr => ?_⟩
      rw [hwrite] at hr
      cases hr
      exact ⟨fun _ => toInt_eq.mpr hlen, fun hc => absurd rfl hc⟩

/-- `vfs_open` returns what `vfs_create` returns when it creates the file. -/
theorem openNew_status (hs : s.Sound) (habs : path.head? = some slash) (flags : Nat) :
    (s.openNew path flags).map (fun x => statusOf x.1) = (s.vfsCreate path flags).map (·.1) := by
  unfold openNew vfsCreate inParent
  rcases vfsLookupParent_found hs habs with
    ⟨-, heq⟩ | ⟨e, next, -, heq⟩ | ⟨d, u, next, -, heq, hu⟩ <;> rw [heq]
  · rfl
  · rfl
  dsimp only [bind_eq_bind, bind_some]
  rw [get_setStrtok]
  cases hcreate : s.ramfs.ramfsCreate s.rootVnode.path (s.get u) (baseName path) flags with
  | none => rfl
  | some x =>
  obtain ⟨a, ramfs⟩ := x
  rcases ramfsCreate_inv hs hu hcreate with ⟨e, rfl, -⟩ | ⟨v, p, c, k, rfl, hadded, hv⟩
  · rfl
  · obtain ⟨data, size, hopen⟩ := openVnode_eq (hs.added hadded next) (u := .own v) (d := c) hv flags
    dsimp only [bind_some]
    rw [hopen]
    rfl

theorem open_conforms (hs : s.Sound) (path : Str) (flags : Nat) :
    s.Conforms (.open path flags) ↔ s.Good (.open path flags) := by
  change (∃ e, (s.vfsOpen path flags).map _ = some e ∧ e ≤ 0) ↔ s.GoodLookup path ∧ _
  unfold GoodLookup vfsOpen
  by_cases habs : path.head? = some slash
  · rw [forall_prop_of_true habs, forall_prop_of_true habs, ← hs.tree.resolve_quiet]
    rcases (vfsLookup_found hs habs).cases with
      ⟨hres, hlookup⟩ | ⟨e, next, hres, hlookup⟩ | ⟨m, u, next, hres, hlookup, hu⟩ <;> rw [hres, hlookup]
    · exact ⟨fun ⟨e, he, _⟩ => (by cases he), fun hc => absurd hc.1 Ramfs.not_quiet_none⟩
    · dsimp only [bind_eq_bind, bind_some]
      by_cases hcreate : e = -ENOENT ∧ flags &&& Ramfs.V_CREATE ≠ 0
      · rw [if_pos hcreate, openNew_status (hs.setStrtok next) habs]
        obtain ⟨rfl, hflag⟩ := hcreate
        refine (create_conforms (hs.setStrtok next) path flags).trans ?_
        change s.GoodIn path (s.NewIn (baseName path)) ↔ _
        exact ⟨fun hgood => ⟨Ramfs.quiet_error.mpr (by decide), fun _ _ => hgood⟩, fun hc => hc.2 hflag rfl⟩
      · rw [if_neg hcreate, Ramfs.quiet_error]
        refine ⟨fun ⟨e', he, hle⟩ => ?_, fun hc => ⟨e, rfl, hc.1⟩⟩
        cases he
        refine ⟨hle, fun hflag he => absurd ⟨?_, hflag⟩ hcreate⟩
        exact Except.error.inj (some.inj he)
    · obtain ⟨data, size, hopen⟩ := openVnode_eq (hs.setStrtok next) (u := u) (d := m) hu flags
      dsimp only [bind_eq_bind, bind_some]
      rw [hopen]
      exact ⟨fun _ => ⟨Ramfs.quiet_ok m, fun _ hc => (by cases hc)⟩, fun _ => ⟨0, rfl, Int.le_refl 0⟩⟩
  · rw [vfsLookup_relative hs habs]
    refine ⟨fun _ => ⟨fun hc => absurd hc habs, fun hc => absurd hc habs⟩, fun _ => ?_⟩
    dsimp only [bind_eq_bind, bind_some]
    split
    · unfold openNew
      rcases vfsLookupParent_relative hs habs with h | h <;> rw [h]
      · exact ⟨-EINVAL, rfl, by decide⟩
      · exact ⟨-ENOENT, rfl, by decide⟩
    · exact ⟨-ENOENT, rfl, by decide⟩

end Vfs

end Lapis.Fs
