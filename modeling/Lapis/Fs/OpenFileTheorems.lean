/-
Lapis.Fs.OpenFileTheorems — the nodes of open files.

A vnode holds the address of its node without a count. The state of a run is the VFS with the files that
are open. `Live` says that the node of a vnode is on a path of the tree, and `Keeps` that a call leaves
every node on its path: opening, reading, writing and closing do. `vfs_remove` and `vfs_rmdir` take one
node off its path and free it, so the node of an open file is safe as long as its name is not removed.
-/
import Lapis.Fs.VfsErrorTheorems

namespace Lapis.Fs

open List Option Lib Mm Util

namespace Vfs

variable {s s' s'' : Vfs} {u : VnodePtr} {d : Nat} {path : Str} {flags : Nat}

/-! ## The calls -/

/-- The VFS and the files that are open. -/
structure OpenFiles where
  vfs : Vfs
  files : List Kfile

inductive FileOp
  | vfsOpen (path : Str) (flags : Nat)
  | kopen (path : Str) (flags mode : Nat)
  | kread (i size : Nat)
  | kwrite (i : Nat) (buf : List UInt8)
  | kclose (i : Nat)
  | vfsRemove (path : Str)
  | vfsRmdir (path : Str)

/-- The files after a call that opens one. -/
def opened (files : List Kfile) : Except Int Kfile × Vfs → OpenFiles
  | (.ok f, s) => ⟨s, files ++ [f]⟩
  | (.error _, s) => ⟨s, files⟩

def fileStep (_ : Nat) (op : FileOp) (o : OpenFiles) : Option OpenFiles :=
  match op with
  | .vfsOpen path flags => (o.vfs.vfsOpen path flags).map (opened o.files)
  | .kopen path flags mode => (o.vfs.kopen path flags mode).map (opened o.files)
  | .kread i size => do
    let f ← o.files[i]?
    let (_, _, f) ← o.vfs.kread f size
    some ⟨o.vfs, o.files.set i f⟩
  | .kwrite i buf => do
    let f ← o.files[i]?
    let (_, f, s) ← o.vfs.kwrite f buf
    some ⟨s, o.files.set i f⟩
  | .kclose i => do
    let f ← o.files[i]?
    some ⟨(o.vfs.kclose f).2, o.files.eraseIdx i⟩
  | .vfsRemove path => (o.vfs.vfsRemove path).map fun (_, s) => ⟨s, o.files⟩
  | .vfsRmdir path => (o.vfs.vfsRmdir path).map fun (_, s) => ⟨s, o.files⟩

/-- The node of every open file is allocated. -/
def OpenFiles.Allocated (o : OpenFiles) : Prop :=
  ∀ f ∈ o.files, (o.vfs.get f.vnode).nodeData ≠ 0 →
    (o.vfs.ramfs.nodes (o.vfs.get f.vnode).nodeData).isSome

/-- The node with the name that a call removes is not that of an open file. -/
def OpenFiles.NotOpen (o : OpenFiles) (path : Str) : Prop :=
  ∀ d c, o.vfs.ramfs.resolve (dirNames path) = some (.ok d) →
    o.vfs.ramfs.childOf d (baseName path) = some c →
    ∀ f ∈ o.files, (o.vfs.get f.vnode).nodeData ≠ c

def removesNoOpenFile (op : FileOp) (o : OpenFiles) : Prop :=
  match op with
  | .vfsRemove path | .vfsRmdir path => o.NotOpen path
  | _ => True

/-! ## Nodes that stay on their path -/

/-- The node of a vnode is on a path. -/
def Live (s : Vfs) : VnodePtr → Prop
  | .root => True
  | .own w => w.nodeData = 0 ∨ ∃ p, s.ramfs.walk p = some w.nodeData

theorem Live.isSome (h : s.Live u) (hs : s.Sound) (hne : (s.get u).nodeData ≠ 0) :
    (s.ramfs.nodes (s.get u).nodeData).isSome := by
  have hwalk : ∃ p, s.ramfs.walk p = some (s.get u).nodeData := by
    cases u with
    | root =>
      refine ⟨[], ?_⟩
      rw [show (s.get .root).nodeData = s.ramfs.rootNode from hs.node.resolve_left hne]
      rfl
    | own w => exact h.resolve_left hne
  obtain ⟨p, hp⟩ := hwalk
  obtain ⟨n, hn, -⟩ := hs.tree.node p _ hp
  rw [hn]
  rfl

/-- A call leaves every node on its path. -/
structure Keeps (s s' : Vfs) : Prop where
  sound : s'.Sound
  walk : ∀ p d, s.ramfs.walk p = some d → s'.ramfs.walk p = some d

theorem Keeps.live (h : s.Keeps s') (hu : s.Live u) : s'.Live u := by
  cases u with
  | root => trivial
  | own w => exact hu.imp_right fun ⟨p, hp⟩ => ⟨p, h.walk p _ hp⟩

theorem Keeps.trans (h : s.Keeps s') (h' : s'.Keeps s'') : s.Keeps s'' :=
  ⟨h'.sound, fun p d hp => h'.walk p d (h.walk p d hp)⟩

theorem Sound.keeps (hs : s.Sound) : s.Keeps s := ⟨hs, fun _ _ hp => hp⟩

theorem Sound.keeps_strtok (hs : s.Sound) (next : Strtok) : s.Keeps { s with strtokNext := next } :=
  ⟨hs.setStrtok next, fun _ _ hp => hp⟩

theorem Sound.keeps_added (hs : s.Sound) {r : Ramfs} {p : List Str} {c : Nat} {k : RamfsNode}
    (hadded : Ramfs.Added s.ramfs r p c k) (next : Strtok) :
    s.Keeps { s with strtokNext := next, ramfs := r } := by
  refine ⟨hs.added hadded next, fun q d hq => ?_⟩
  change r.walk q = some d
  rw [hadded.walk]
  rw [if_neg, hq]
  rintro rfl
  simp [hadded.new] at hq

/-! ## Opening -/

theorem vfsLookup_inv {res : Except Int VnodePtr} (hs : s.Sound)
    (h : s.vfsLookup path = some (res, s')) :
    ∃ next, s' = { s with strtokNext := next } ∧ ∀ u, res = .ok u → ∃ d, s.Refers u d := by
  by_cases habs : path.head? = some slash
  · rcases (vfsLookup_found hs habs).cases with
      ⟨-, hlookup⟩ | ⟨e, next, -, hlookup⟩ | ⟨m, u, next, -, hlookup, hu⟩ <;> rw [hlookup] at h <;> cases h
    · exact ⟨next, rfl, nofun⟩
    · exact ⟨next, rfl, fun v hv => ⟨m, Except.ok.inj hv ▸ hu⟩⟩
  · rw [vfsLookup_relative hs habs] at h
    cases h
    exact ⟨s.strtokNext, rfl, nofun⟩

theorem vfsLookupParent_inv {res : Except Int (VnodePtr × Str)} (hs : s.Sound)
    (h : s.vfsLookupParent path = some (res, s')) :
    ∃ next, s' = { s with strtokNext := next } ∧ ∀ u name, res = .ok (u, name) → ∃ d, s.Refers u d := by
  unfold vfsLookupParent at h
  split at h
  · cases h
    exact ⟨s.strtokNext, rfl, nofun⟩
  obtain ⟨⟨found, s1⟩, hlookup, h⟩ := bind_eq_some_iff.mp h
  obtain ⟨next, rfl, hok⟩ := vfsLookup_inv hs hlookup
  cases found with
  | error e =>
    cases h
    exact ⟨next, rfl, nofun⟩
  | ok parent =>
    cases h
    exact ⟨next, rfl, fun u name hu => hok u (by cases hu; rfl)⟩

/-- What a call that opens a file leaves behind. -/
def Opens (s : Vfs) (res : Except Int Kfile) (s' : Vfs) : Prop :=
  s.Keeps s' ∧ ∀ f, res = .ok f → s'.Live f.vnode

variable {res : Except Int Kfile}

theorem openVnode_opens (hs : s.Sound) (hu : s.Refers u d)
    (h : s.openVnode u flags = some (res, s')) : s.Opens res s' := by
  obtain ⟨data, size, hopen⟩ := openVnode_eq hs hu flags
  rw [hopen] at h
  cases h
  cases u with
  | root =>
    obtain rfl : d = s.ramfs.rootNode := hu.2
    refine ⟨⟨⟨hs.tree, hs.path, hs.dir, .inr rfl⟩, fun _ _ hp => hp⟩, fun f hf => ?_⟩
    cases hf
    trivial
  | own w =>
    refine ⟨hs.keeps, fun f hf => ?_⟩
    cases hf
    exact .inr hu.1

theorem openNew_opens (hs : s.Sound) (h : s.openNew path flags = some (res, s')) : s.Opens res s' := by
  obtain ⟨⟨found, s1⟩, hlookup, h⟩ := bind_eq_some_iff.mp h
  obtain ⟨next, rfl, hok⟩ := vfsLookupParent_inv hs hlookup
  cases found with
  | error e =>
    cases h
    exact ⟨hs.keeps_strtok next, nofun⟩
  | ok x =>
  obtain ⟨parent, name⟩ := x
  obtain ⟨d, hu⟩ := hok parent name rfl
  have hu1 : Refers { s with strtokNext := next } parent d := hu
  obtain ⟨⟨created, r⟩, hcreate, h⟩ := bind_eq_some_iff.mp h
  rcases ramfsCreate_inv (hs.setStrtok next) hu1 hcreate with
    ⟨e, rfl, rfl⟩ | ⟨v, p, c, k, rfl, hadded, hv⟩
  · cases h
    exact ⟨hs.keeps_strtok next, nofun⟩
  · have hkeeps : s.Keeps { s with strtokNext := next, ramfs := r } := hs.keeps_added hadded next
    obtain ⟨hkeeps', hlive⟩ := openVnode_opens hkeeps.sound hv h
    exact ⟨hkeeps.trans hkeeps', hlive⟩

theorem vfsOpen_opens (hs : s.Sound) (h : s.vfsOpen path flags = some (res, s')) : s.Opens res s' := by
  obtain ⟨⟨found, s1⟩, hlookup, h⟩ := bind_eq_some_iff.mp h
  obtain ⟨next, rfl, hok⟩ := vfsLookup_inv hs hlookup
  have hkeeps := hs.keeps_strtok next
  cases found with
  | error e =>
    dsimp only at h
    split at h
    · obtain ⟨hkeeps', hlive⟩ := openNew_opens hkeeps.sound h
      exact ⟨hkeeps.trans hkeeps', hlive⟩
    · cases h
      exact ⟨hkeeps, nofun⟩
  | ok u =>
    obtain ⟨d, hu⟩ := hok u rfl
    have hu1 : Refers { s with strtokNext := next } u d := hu
    obtain ⟨hkeeps', hlive⟩ := openVnode_opens hkeeps.sound hu1 h
    exact ⟨hkeeps.trans hkeeps', hlive⟩

variable {e : Int}

theorem vfsCreate_keeps {mode : Nat} (hs : s.Sound) (h : s.vfsCreate path mode = some (e, s')) :
    s.Keeps s' := by
  have hcall : s.inParent path (fun r v name => (r.addNode s.rootVnode.path v name .file fun n r =>
      some ({ n with size := 0, data := 0, mode := S_IFREG ||| mode }, r)).map Ramfs.status) =
      some (e, s') := by
    rw [← h]
    unfold vfsCreate
    simp only [map_created]
  rcases add_inv hs (fun name m r1 k r2 hk => by cases hk; exact ⟨rfl, rfl, rfl, rfl, rfl⟩) hcall with
    ⟨next, rfl⟩ | ⟨p, c, k, next, r', -, rfl, hadded, -⟩
  · exact hs.keeps_strtok next
  · exact hs.keeps_added hadded next

theorem kopen_opens {mode : Nat} (hs : s.Sound)
    (h : s.kopen path flags mode = some (res, s')) : s.Opens res s' := by
  unfold kopen at h
  obtain ⟨⟨created, s1⟩, hcreate, h⟩ := bind_eq_some_iff.mp h
  have hkeeps : s.Keeps s1 := by
    split at hcreate
    · exact vfsCreate_keeps hs hcreate
    · cases hcreate
      exact hs.keeps
  dsimp only at h
  split at h
  · cases h
    exact ⟨hkeeps, nofun⟩
  obtain ⟨⟨found, s2⟩, hopen, h⟩ := bind_eq_some_iff.mp h
  obtain ⟨hkeeps', hlive⟩ := vfsOpen_opens hkeeps.sound hopen
  cases found with
  | error e =>
    cases h
    exact ⟨hkeeps.trans hkeeps', nofun⟩
  | ok f =>
    cases h
    refine ⟨hkeeps.trans hkeeps', fun g hg => ?_⟩
    cases hg
    exact hlive f rfl

/-! ## Reading, writing and closing -/

variable {f f' : Kfile}

theorem kread_vnode {size : Nat} {ret : Int} {out : List UInt8}
    (h : s.kread f size = some (ret, out, f')) : f'.vnode = f.vnode := by
  unfold kread at h
  split at h
  · cases h; rfl
  · split at h
    · cases h; rfl
    · obtain ⟨r, -, h⟩ := bind_eq_some_iff.mp h
      split at h <;> cases h <;> rfl

/-- A file whose node is on a path can be read. -/
theorem Live.kread_isSome (h : s.Live f.vnode) (hs : s.Sound) (size : Nat) : (s.kread f size).isSome := by
  have hread : ∃ r, s.ramfs.ramfsRead (s.get f.vnode) size f.offset = some r := by
    unfold Ramfs.ramfsRead
    by_cases hzero : (s.get f.vnode).nodeData = 0
    · exact ⟨_, if_pos hzero⟩
    · obtain ⟨n, hn⟩ := isSome_iff_exists.mp (h.isSome hs hzero)
      rw [if_neg hzero, hn]
      exact ⟨_, rfl⟩
  obtain ⟨r, hread⟩ := hread
  unfold kread
  split
  · rfl
  · split
    · rfl
    · rw [hread]
      dsimp only [bind_eq_bind, bind_some]
      split <;> rfl

theorem vfsWrite_keeps {buf : List UInt8} {offset : Nat} (hs : s.Sound)
    (h : s.vfsWrite u buf offset = some (e, s')) : s.Keeps s' := by
  obtain ⟨⟨err, r⟩, hwrite, h⟩ := bind_eq_some_iff.mp h
  cases h
  unfold Ramfs.ramfsWrite at hwrite
  split at hwrite
  · cases hwrite
    exact hs.keeps
  obtain ⟨n, hn, hwrite⟩ := bind_eq_some_iff.mp hwrite
  obtain ⟨f, -, hwrite⟩ := bind_eq_some_iff.mp hwrite
  cases hwrite
  -- the contents are no part of the tree
  have hset := Ramfs.SameTree.setNode { n with size := f.size, data := f.data } hn rfl
  have hsame : Ramfs.SameTree s.ramfs { s.ramfs.setNode (s.get u).nodeData
    { n with size := f.size, data := f.data } with heap := f.heap } := ⟨rfl, hset.nodes⟩
  exact ⟨hs.of_tree (hsame.tree hs.tree) rfl s.strtokNext, fun p d hp => (hsame.walk p).trans hp⟩

theorem kwrite_keeps {buf : List UInt8} {ret : Int} (hs : s.Sound)
    (h : s.kwrite f buf = some (ret, f', s')) : s.Keeps s' ∧ f'.vnode = f.vnode := by
  unfold kwrite at h
  split at h
  · cases h
    exact ⟨hs.keeps, rfl⟩
  split at h
  · cases h
    exact ⟨hs.keeps, rfl⟩
  · obtain ⟨⟨e, s1⟩, hwrite, h⟩ := bind_eq_some_iff.mp h
    have hkeeps := vfsWrite_keeps hs hwrite
    dsimp only at h
    split at h <;> cases h <;> exact ⟨hkeeps, rfl⟩

theorem kclose_keeps (hs : s.Sound) (f : Kfile) : s.Keeps (s.kclose f).2 := by
  unfold kclose vfsClose Ramfs.ramfsClose
  split
  · exact hs.keeps
  cases f.vnode with
  | root =>
    by_cases hzero : (s.get .root).nodeData = 0
    · rw [if_pos hzero]
      exact ⟨⟨hs.tree, hs.path, hs.dir, hs.node⟩, fun _ _ hp => hp⟩
    · rw [if_neg hzero]
      exact ⟨⟨hs.tree, hs.path, hs.dir, .inl rfl⟩, fun _ _ hp => hp⟩
  | own w => exact ⟨⟨hs.tree, hs.path, hs.dir, hs.node⟩, fun _ _ hp => hp⟩

/-! ## Removing -/

/-- A vnode of another node stays on its path when a name is removed. -/
theorem Live.removed {r : Ramfs} {p : List Str} {name : Str} {c : Nat} (h : s.Live u)
    (hremoved : Ramfs.Removed s.ramfs r p name c) (hc : s.ramfs.walk (p ++ [name]) = some c)
    (hne : (s.get u).nodeData ≠ c) (next : Strtok) :
    Live { s with strtokNext := next, ramfs := r } u := by
  cases u with
  | root => trivial
  | own w =>
    refine h.imp_right fun ⟨q, hq⟩ => ⟨q, ?_⟩
    change r.walk q = some w.nodeData
    rw [hremoved.walk, if_neg, hq]
    rintro rfl
    exact hne (some.inj (hq.symm.trans hc))

/-- The invariant of a run. -/
def OpenFiles.Safe (o : OpenFiles) : Prop := o.vfs.Sound ∧ ∀ f ∈ o.files, o.vfs.Live f.vnode

variable {o : OpenFiles}

theorem safe_of_remove {refuse : RamfsNode → Option Int}
    {drop : RamfsNode → Kheap → Option Kheap} (h : o.Safe) (hopen : o.NotOpen path)
    (hempty : ∀ q c n, o.vfs.ramfs.walk q = some c → o.vfs.ramfs.nodes c = some n → refuse n = none →
      ∀ m, o.vfs.ramfs.childOf c m = none)
    (hcall : o.vfs.inParent path (fun r v name => r.removeNode o.vfs.rootVnode.path v name refuse drop) =
      some (e, s')) : OpenFiles.Safe ⟨s', o.files⟩ := by
  obtain ⟨hs, hlive⟩ := h
  rcases inParent_inv hs hcall with ⟨next, rfl⟩ | ⟨d, u, next, r', hres, hu, hop, rfl⟩
  · exact ⟨hs.setStrtok next, fun f hf => (hs.keeps_strtok next).live (hlive f hf)⟩
  obtain ⟨q, hq⟩ := hu.1
  rcases Ramfs.removeNode_inv hs.tree (hu.nodeOf hs) hq
      (fun c n hn hr hc => hempty _ c n hc hn hr) hop with
    ⟨rfl, -⟩ | ⟨c, n, rfl, hc, -, -, -, hremoved⟩
  · exact ⟨hs.setStrtok next, fun f hf => (hs.keeps_strtok next).live (hlive f hf)⟩
  · have hchild : o.vfs.ramfs.childOf d (baseName path) = some c := by
      rw [← hc, Ramfs.walk_concat, hq, bind_some]
    exact ⟨hs.removed hremoved next, fun f hf =>
      (hlive f hf).removed hremoved hc (hopen d c hres hchild f hf) next⟩

/-! ## Runs -/

theorem OpenFiles.Safe.keeps (h : o.Safe) (hkeeps : o.vfs.Keeps s') :
    OpenFiles.Safe ⟨s', o.files⟩ := ⟨hkeeps.sound, fun f hf => hkeeps.live (h.2 f hf)⟩

theorem OpenFiles.Safe.opened (h : o.Safe)
    (hopens : o.vfs.Opens res s') : (Vfs.opened o.files (res, s')).Safe := by
  obtain ⟨hkeeps, hlive⟩ := hopens
  cases res with
  | error e => exact h.keeps hkeeps
  | ok f =>
    refine ⟨hkeeps.sound, fun g hg => ?_⟩
    rcases mem_append.mp hg with hg | hg
    · exact hkeeps.live (h.2 g hg)
    · obtain rfl := mem_singleton.mp hg
      exact hlive g rfl

theorem OpenFiles.Safe.set (h : o.Safe) {i : Nat} (hf : o.files[i]? = some f) (hvnode : f'.vnode = f.vnode) :
    OpenFiles.Safe ⟨o.vfs, o.files.set i f'⟩ := by
  refine ⟨h.1, fun g hg => ?_⟩
  rcases mem_or_eq_of_mem_set hg with hg | rfl
  · exact h.2 g hg
  · rw [hvnode]
    exact h.2 f (List.mem_of_getElem? hf)

theorem safe_step {o' : OpenFiles} {op : FileOp} {fuel : Nat} (h : o.Safe)
    (hok : removesNoOpenFile op o) (hstep : fileStep fuel op o = some o') : o'.Safe := by
  cases op with
  | vfsOpen path flags =>
    obtain ⟨⟨res, s'⟩, hcall, rfl⟩ := map_eq_some_iff.mp hstep
    exact h.opened (vfsOpen_opens h.1 hcall)
  | kopen path flags mode =>
    obtain ⟨⟨res, s'⟩, hcall, rfl⟩ := map_eq_some_iff.mp hstep
    exact h.opened (kopen_opens h.1 hcall)
  | kread i size =>
    obtain ⟨f, hf, hstep⟩ := bind_eq_some_iff.mp hstep
    obtain ⟨⟨ret, out, f'⟩, hcall, hstep⟩ := bind_eq_some_iff.mp hstep
    cases hstep
    exact h.set hf (kread_vnode hcall)
  | kwrite i buf =>
    obtain ⟨f, hf, hstep⟩ := bind_eq_some_iff.mp hstep
    obtain ⟨⟨ret, f', s'⟩, hcall, hstep⟩ := bind_eq_some_iff.mp hstep
    cases hstep
    obtain ⟨hkeeps, hvnode⟩ := kwrite_keeps h.1 hcall
    exact (h.keeps hkeeps).set hf hvnode
  | kclose i =>
    obtain ⟨f, -, hstep⟩ := bind_eq_some_iff.mp hstep
    cases hstep
    have hkeeps := h.keeps (kclose_keeps h.1 f)
    exact ⟨hkeeps.1, fun g hg => hkeeps.2 g (mem_of_mem_eraseIdx hg)⟩
  | vfsRemove path =>
    obtain ⟨⟨e, s'⟩, hcall, rfl⟩ := map_eq_some_iff.mp hstep
    exact safe_of_remove h hok (fun _ _ _ _ => remove_empty) hcall
  | vfsRmdir path =>
    obtain ⟨⟨e, s'⟩, hcall, rfl⟩ := map_eq_some_iff.mp hstep
    exact safe_of_remove h hok (fun _ _ _ => h.1.rmdir_empty) hcall

/-- In every run in which no call removes the name of an open file, from any tree and with no file open,
the node of every open file is allocated, and reading it finds it. -/
theorem open_files_allocated (hs : s.Sound) {o : OpenFiles}
    (hrun : Run fileStep removesNoOpenFile ⟨s, []⟩ o) :
    o.Allocated ∧ ∀ f ∈ o.files, ∀ size, (o.vfs.kread f size).isSome := by
  have hsafe : o.Safe := by
    refine Run.invariant ?_ (fun _ _ _ _ => safe_step) hrun
    exact ⟨hs, nofun⟩
  obtain ⟨hs', hlive⟩ := hsafe
  refine ⟨fun f hf => (hlive f hf).isSome hs', fun f hf size => ?_⟩
  exact (hlive f hf).kread_isSome hs' size

/-- A file is created, opened and written. -/
theorem open_files_allocated_create :
    ∃ o, Run fileStep removesNoOpenFile ⟨small, []⟩ o ∧ o.files.length = 1 ∧ o.Allocated := by
  have hexec : ((fileStep 0 (.kopen (str "/a") O_CREAT 0) ⟨small, []⟩).bind
      (fileStep 0 (.kwrite 0 [1]))).map (·.files.length) = some 1 := by decide +kernel
  obtain ⟨o, hexec, hlen⟩ := map_eq_some_iff.mp hexec
  obtain ⟨o1, hopen, hwrite⟩ := bind_eq_some_iff.mp hexec
  have hok : removesNoOpenFile (.kopen (str "/a") O_CREAT 0) ⟨small, []⟩ := trivial
  have hok1 : removesNoOpenFile (.kwrite 0 [1]) o1 := trivial
  have hrun : Run fileStep removesNoOpenFile ⟨small, []⟩ o := .next (.next .init hok hopen) hok1 hwrite
  exact ⟨o, hrun, hlen, (open_files_allocated small_linkless.sound hrun).1⟩

/-- A file is created and opened, and its name is removed: the node of the open file has been freed. -/
theorem open_file_freed : small.Sound ∧ ∃ o, Run fileStep (fun _ _ => True) ⟨small, []⟩ o ∧ ¬ o.Allocated ∧
      ∃ f ∈ o.files, o.vfs.kread f 1 = none := by
  refine ⟨small_linkless.sound, Run.exists_of_exec 0
    [.kopen (str "/a") O_CREAT 0, .vfsRemove (str "/a")] (fun o =>
      o.files.map (fun f => ((o.vfs.get f.vnode).nodeData,
        (o.vfs.ramfs.nodes (o.vfs.get f.vnode).nodeData).isSome, o.vfs.kread f 1 |>.isSome)) =
      [(8192, false, false)]) (by decide +kernel) fun o _ hfiles => ?_⟩
  obtain ⟨f, hf⟩ : ∃ f, o.files = [f] := length_eq_one_iff.mp (by
    simpa using congrArg List.length hfiles)
  simp only [hf, map_cons, map_nil, List.cons.injEq, Prod.mk.injEq, and_true] at hfiles
  obtain ⟨hnode, hfreed, hread⟩ := hfiles
  have hmem : f ∈ o.files := by rw [hf]; exact mem_singleton_self f
  refine ⟨fun hall => ?_, f, hmem, by simpa using hread⟩
  have := hall f hmem (by rw [hnode]; decide)
  simp [hfreed] at this

end Vfs

end Lapis.Fs
