/-
Lapis.Fs.VfsLookupTheorems — what `vfs_lookup` finds.

`walkWith` is the lookup on the nodes of the tree: it goes from a directory to the child with the name of
each component, and what it does with a child is given by a function, as in the loop of
`vfs_lookup_internal`. There are two such functions. A lookup that does not follow links stays at the
child (`plain`). The lookup of `vfs_lookup` looks the text of a link up without following links in turn;
since that lookup uses `strtok` as well, the rest of the path is lost when the text has a component, and
the place of `strtok` is a pointer into freed memory when the text ends with a slash (`resolve`).
-/
import Lapis.Fs.RamfsTreeTheorems
import Lapis.Fs.Vfs
import Lapis.Util.StringsTheorems

namespace Lapis.Fs

open Util
open List Option

namespace Ramfs

/-! ## Lookups on the tree -/

/-- What becomes of a lookup at a child: it goes on at a node, with the rest of the path or without, or
it fails. -/
inductive Follow
  | stay (m : Nat)
  | jump (m : Nat)
  | fail (e : Int)

/-- There is no result where `fol` has none. -/
def walkWith (r : Ramfs) (fol : Nat → Option Follow) : Nat → List Str → Option (Except Int Nat)
  | d, [] => some (.ok d)
  | d, name :: rest => do
    let n ← r.nodes d
    if n.type ≠ .directory then some (.error (-ENOTDIR))
    else
      match r.childOf d name with
      | none => some (.error ENOENT)
      | some c => do
        match ← fol c with
        | .stay m => r.walkWith fol m rest
        | .jump m => some (.ok m)
        | .fail e => some (.error e)

section Steps

variable {r : Ramfs} {fol : Nat → Option Follow} {d c m : Nat} {n : RamfsNode} {name : Str}
  {rest : List Str}

theorem walkWith_of_not_dir (hn : r.nodes d = some n) (hdir : n.type ≠ .directory) :
    r.walkWith fol d (name :: rest) = some (.error (-ENOTDIR)) := by
  rw [walkWith, hn, bind_eq_bind, bind_some, if_pos hdir]

section

variable (hn : r.nodes d = some n) (hdir : n.type = .directory)

include hn hdir

theorem walkWith_of_missing
    (hc : r.childOf d name = none) : r.walkWith fol d (name :: rest) = some (.error ENOENT) := by
  rw [walkWith, hn, bind_eq_bind, bind_some, if_neg (not_not_intro hdir), hc]

theorem walkWith_of_child (hc : r.childOf d name = some c) : r.walkWith fol d (name :: rest) = (do
      match ← fol c with
      | .stay m => r.walkWith fol m rest
      | .jump m => some (.ok m)
      | .fail e => some (.error e)) := by
  rw [walkWith, hn, bind_eq_bind, bind_some, if_neg (not_not_intro hdir), hc]

theorem walkWith_of_stay (hc : r.childOf d name = some c) (hf : fol c = some (.stay m)) :
    r.walkWith fol d (name :: rest) = r.walkWith fol m rest := by
  rw [walkWith_of_child hn hdir hc, hf]
  rfl

end

end Steps

/-- The lookup that follows no links. -/
def plain (r : Ramfs) (names : List Str) : Option (Except Int Nat) :=
  r.walkWith (fun c => some (.stay c)) r.rootNode names

/-- The text of a link, as `ramfs_readlink` gives it to `vfs_follow_symlink`. -/
def linkText (r : Ramfs) (n : RamfsNode) : Option Str :=
  (cstr r.heap.mem (2 ^ 64) n.data).map (·.take 511)

/-- The lookup of the text of a link, with what it does to the place of `strtok`. -/
def followText (r : Ramfs) (text : Str) : Option Follow :=
  if text.head? ≠ some slash then some (.fail (-ENOENT))
  else if components text = [] then some (.stay r.rootNode)
  else do
    match ← r.plain (components text) with
    | .error e => some (.fail e)
    | .ok m => if text.getLast? = some slash then none else some (.jump m)

/-- `vfs_follow_symlink`. -/
def followNode (r : Ramfs) (c : Nat) : Option Follow := do
  let n ← r.nodes c
  if n.type ≠ .symlink then some (.stay c)
  else if n.data = 0 then some (.fail EINVAL)
  else do
    let text ← r.linkText n
    r.followText text

/-- The lookup of `vfs_lookup`. -/
def resolve (r : Ramfs) (names : List Str) : Option (Except Int Nat) :=
  r.walkWith r.followNode r.rootNode names

end Ramfs

namespace Vfs

open Ramfs (Follow)

variable {s : Vfs} {u : VnodePtr} {w : Vnode} {d c m : Nat} {name : Str}

/-! ## vnodes and their nodes -/

structure Sound (s : Vfs) : Prop where
  tree : s.ramfs.Tree
  path : s.rootVnode.path = [slash]
  dir : s.rootVnode.vtype = .dir
  node : s.rootVnode.nodeData = 0 ∨ s.rootVnode.nodeData = s.ramfs.rootNode

/-- The node of a vnode. -/
def Refers (s : Vfs) (u : VnodePtr) (d : Nat) : Prop :=
  (∃ p, s.ramfs.walk p = some d) ∧
    match u with
    | .root => d = s.ramfs.rootNode
    | .own w => w.nodeData = d ∧ d ≠ s.ramfs.rootNode ∧ ∃ n, s.ramfs.nodes d = some n ∧
        w.vtype = n.type.vtype ∧ w.mode = n.mode

theorem refers_root (s : Vfs) : s.Refers .root s.ramfs.rootNode := ⟨⟨[], s.ramfs.walk_nil⟩, rfl⟩

theorem vtype_eq_dir {type : RamfsType} : type.vtype = .dir ↔ type = .directory := by
  cases type <;> decide

theorem vtype_eq_link {type : RamfsType} : type.vtype = .link ↔ type = .symlink := by
  cases type <;> decide

theorem Refers.nodeOf (h : s.Refers u d) (hs : s.Sound) :
    s.ramfs.nodeOf s.rootVnode.path (s.get u) = some d := by
  obtain ⟨⟨p, hp⟩, hu⟩ := h
  have hne := (hs.tree.ne_zero hp).1
  cases u with
  | root =>
    obtain rfl : d = s.ramfs.rootNode := hu
    change s.ramfs.nodeOf s.rootVnode.path s.rootVnode = _
    unfold Ramfs.nodeOf
    rcases hs.node with h | h
    · rw [if_neg (not_not_intro h), hs.path]
      rfl
    · rw [h, if_pos hne]
  | own w =>
    obtain ⟨rfl, -⟩ := hu
    change s.ramfs.nodeOf s.rootVnode.path w = _
    unfold Ramfs.nodeOf
    rw [if_pos hne]

/-- The node of a vnode is allocated, and its type is that of the vnode. -/
theorem Refers.nodes (h : s.Refers u d) (hs : s.Sound) :
    d ≠ 0 ∧ ∃ n, s.ramfs.nodes d = some n ∧ (s.get u).vtype = n.type.vtype ∧
      (n.type = .directory → ∃ L, s.ramfs.Kids n.child L) := by
  obtain ⟨⟨p, hp⟩, hu⟩ := h
  obtain ⟨n, hn, hkids⟩ := hs.tree.node p d hp
  refine ⟨(hs.tree.ne_zero hp).1, n, hn, ?_, hkids⟩
  cases u with
  | root =>
    obtain rfl : d = s.ramfs.rootNode := hu
    obtain ⟨n', hn', hdir⟩ := hs.tree.root
    cases hn.symm.trans hn'
    rw [hdir]
    exact hs.dir
  | own w =>
    obtain ⟨-, -, n', hn', hvtype, -⟩ := hu
    cases hn.symm.trans hn'
    exact hvtype

/-- The node of a vnode that has not been closed. -/
theorem Refers.nodeData (h : s.Refers u d) (hs : s.Sound) (hne : (s.get u).nodeData ≠ 0) :
    (s.get u).nodeData = d := by
  cases u with
  | root =>
    obtain rfl : d = s.ramfs.rootNode := h.2
    exact hs.node.resolve_left hne
  | own w => exact h.2.1

/-- A kid is on a path, and is not the root. -/
theorem Sound.walk_childOf (hs : s.Sound) (hd : ∃ p, s.ramfs.walk p = some d)
    (hc : s.ramfs.childOf d name = some c) : ∃ p, s.ramfs.walk p = some c ∧ c ≠ s.ramfs.rootNode := by
  obtain ⟨p, hp⟩ := hd
  have hwalk : s.ramfs.walk (p ++ [name]) = some c := by
    rw [Ramfs.walk_concat, hp, bind_some, hc]
  refine ⟨p ++ [name], hwalk, ?_⟩
  rintro rfl
  simpa using hs.tree.path_eq hwalk s.ramfs.walk_nil

/-- `ramfs_lookup` in a directory. -/
theorem Refers.ramfsLookup (h : s.Refers u d) (hs : s.Sound) {n : RamfsNode}
    (hn : s.ramfs.nodes d = some n) (hdir : n.type = .directory) (name : Str) :
    match s.ramfs.childOf d name with
    | none => s.ramfs.ramfsLookup s.rootVnode.path (s.get u) name = some (.error ENOENT)
    | some c => ∃ w, s.ramfs.ramfsLookup s.rootVnode.path (s.get u) name = some (.ok w) ∧
        s.Refers (.own w) c := by
  obtain ⟨hne, n', hn', -, hkids⟩ := h.nodes hs
  cases hn.symm.trans hn'
  obtain ⟨L, hL⟩ := hkids hdir
  have hstart : s.ramfs.ramfsLookup s.rootVnode.path (s.get u) name = (do
        let c ← some ((s.ramfs.childOf d name).getD 0)
        if c = 0 then some (.error ENOENT)
        else do
          let child ← s.ramfs.nodes c
          some (.ok ⟨childPath (s.get u).path name, child.type.vtype, c, 0, 0, child.mode⟩)) := by
    unfold Ramfs.ramfsLookup
    rw [h.nodeOf hs, bind_eq_bind, bind_some, if_neg hne, hn, bind_eq_bind,
      bind_some, if_neg (not_not_intro hdir), Ramfs.findSibling_eq_childOf hn hdir hL]
  rw [hstart]
  cases hc : s.ramfs.childOf d name with
  | none => rfl
  | some c =>
  obtain ⟨p, hp, hroot⟩ := hs.walk_childOf h.1 hc
  obtain ⟨k, hk, -⟩ := hs.tree.node p c hp
  refine ⟨⟨childPath (s.get u).path name, k.type.vtype, c, 0, 0, k.mode⟩, ?_,
    ⟨⟨p, hp⟩, rfl, hroot, k, hk, rfl, rfl⟩⟩
  rw [getD_some, bind_eq_bind, bind_some, if_neg (hs.tree.ne_zero hp).1, hk]
  rfl

/-! ## The loop -/

/-- The place of `strtok` in a buffer, from the string that is left; none when the last token ended the
string. -/
def place (rest : Option Str) : Strtok := rest.elim .null .at

/-- The string that is left does not end with a slash. -/
def Clean (rest : Option Str) : Prop := ∀ s, rest = some s → s ≠ [] ∧ s.getLast? ≠ some slash

theorem clean_none : Clean none := nofun

/-- Whether the string ends with a slash does not change with a token taken off. -/
theorem clean_next {s token : Str} {next : Option Str} (h : strtokFrom s = some (token, next)) :
    Clean next ↔ Clean (some s) := by
  obtain ⟨lead, rfl, -, hne, hnone⟩ := Lapis.Util.strtokFrom_eq_some h
  cases next with
  | none =>
    refine ⟨fun _ s hs => ?_, fun _ => clean_none⟩
    obtain rfl := some.inj hs
    rw [elim_none, append_nil]
    refine ⟨append_ne_nil_of_right_ne_nil lead hne, fun hlast => hnone ?_⟩
    rw [List.getLast?_append_of_ne_nil lead hne] at hlast
    exact List.mem_of_getLast? hlast
  | some rest =>
  have hlast : (lead ++ (token ++ slash :: rest)).getLast? = some (rest.getLast?.getD slash) := by
    rw [← append_assoc, List.getLast?_append_of_ne_nil _ (cons_ne_nil slash rest),
      List.getLast?_cons]
  constructor
  · intro hclean s hs
    obtain ⟨hrest, hrlast⟩ := hclean rest rfl
    obtain rfl := some.inj hs
    refine ⟨by simp, ?_⟩
    rw [elim_some, hlast]
    obtain ⟨c, hc⟩ := isSome_iff_exists.mp (List.getLast?_isSome.mpr hrest)
    rw [hc] at hrlast ⊢
    exact hrlast
  · intro hclean s hs
    obtain rfl := some.inj hs
    have hslast := (hclean _ rfl).2
    rw [elim_some, hlast] at hslast
    refine ⟨?_, fun hc => hslast (by rw [hc]; rfl)⟩
    rintro rfl
    exact hslast rfl

/-- The next token of a buffer, and what is left then. -/
theorem strtok_place (rest : Option Str) :
    (∃ next, strtok (place rest) = some (none, next) ∧ components (rest.getD []) = [] ∧
      (Clean rest → next.free = .null) ∧ (¬ Clean rest → next.free = .dangling)) ∨
    ∃ token rest', strtok (place rest) = some (some token, place rest') ∧
      components (rest.getD []) = token :: components (rest'.getD []) ∧
      (rest'.getD []).length < (rest.getD []).length ∧ (Clean rest' ↔ Clean rest) := by
  cases rest with
  | none => exact .inl ⟨.null, rfl, rfl, fun _ => rfl, fun h => absurd clean_none h⟩
  | some s =>
  cases htok : strtokFrom s with
  | none =>
    have hslashes := Lapis.Util.strtokFrom_eq_none htok
    refine .inl ⟨.at [], ?_, Lapis.Util.components_of_slashes hslashes, fun h => ?_, fun _ => rfl⟩
    · rw [place, elim_some, strtok, htok]
    · obtain ⟨hne, hlast⟩ := h s rfl
      obtain ⟨c, hc⟩ := List.getLast?_isSome.mpr hne |> isSome_iff_exists.mp
      exact absurd (hslashes c (List.mem_of_getLast? hc) ▸ hc) hlast
  | some r =>
  obtain ⟨token, rest'⟩ := r
  obtain ⟨hcomp, hlen⟩ := Lapis.Util.components_of_strtokFrom htok
  refine .inr ⟨token, rest', ?_, hcomp, hlen, ?_⟩
  · rw [place, elim_some, strtok, htok]
    cases rest' <;> rfl
  · exact clean_next htok

/-- What a function does with a vnode at a place of `strtok`, as `fol` says it of the node. -/
def Follows (s : Vfs) (f : Option Follow) (place : Strtok)
    (result : Option (Except Int VnodePtr × Strtok)) : Prop :=
  match f with
  | none => result = none ∨ ∃ u, result = some (.ok u, .dangling)
  | some (.stay m) => ∃ u, result = some (.ok u, place) ∧ s.Refers u m
  | some (.jump m) => ∃ u, result = some (.ok u, .null) ∧ s.Refers u m
  | some (.fail e) => ∃ next, result = some (.error e, next)

/-- The result of a lookup, as `walkWith` says it. -/
def Finds (s : Vfs) (w : Option (Except Int Nat)) (result : Option (Except Int VnodePtr × Strtok)) :
    Prop :=
  match w with
  | none => result = none
  | some (.error e) => ∃ next, result = some (.error e, next)
  | some (.ok m) => ∃ u next, result = some (.ok u, next) ∧ s.Refers u m

/-- The loop goes through the components that are left. -/
theorem lookupLoop_finds (hs : s.Sound) (fol : Nat → Option Follow)
    (follow : VnodePtr → Strtok → Option (Except Int VnodePtr × Strtok))
    (hfollow : ∀ w c next, s.Refers (.own w) c → s.Follows (fol c) next (follow (.own w) next))
    {rounds : Nat} (rest : Option Str) (hrounds : (rest.getD []).length < rounds) (hu : s.Refers u d) :
    s.Finds (s.ramfs.walkWith fol d (components (rest.getD []))) (do
      let (component, next) ← strtok (place rest)
      s.lookupLoop follow rounds u component next) := by
  induction rounds generalizing u d rest with
  | zero => exact absurd hrounds (Nat.not_lt_zero _)
  | succ rounds ih =>
    rcases strtok_place rest with ⟨next, htok, hcomp, -⟩ | ⟨token, rest', htok, hcomp, hlen, -⟩
    · rw [htok, hcomp]
      exact ⟨u, next.free, rfl, hu⟩
    rw [htok, hcomp, bind_eq_bind, bind_some]
    dsimp only
    obtain ⟨-, n, hn, hvtype, -⟩ := hu.nodes hs
    rw [Ramfs.walkWith, hn, bind_eq_bind, bind_some]
    unfold lookupLoop
    by_cases hdir : n.type = .directory
    · rw [if_neg (not_not_intro hdir), if_neg (not_not_intro (hvtype.trans (vtype_eq_dir.mpr hdir)))]
      have hlookup := hu.ramfsLookup hs hn hdir token
      cases hc : s.ramfs.childOf d token with
      | none =>
        rw [hc] at hlookup
        rw [hlookup]
        exact ⟨_, rfl⟩
      | some c =>
      rw [hc] at hlookup
      obtain ⟨w, hw, hwc⟩ := hlookup
      have hfol := hfollow w c (place rest') hwc
      rw [hw]
      dsimp only [bind_eq_bind, bind_some]
      cases hf : fol c with
      | none =>
        rw [hf] at hfol
        rcases hfol with hnone | ⟨u', hu'⟩
        · rw [hnone]
          rfl
        · rw [hu']
          rfl
      | some f =>
      rw [hf] at hfol
      cases f with
      | stay m =>
        obtain ⟨u', hu', hum⟩ := hfol
        rw [hu']
        exact ih rest' (Nat.lt_of_lt_of_le hlen (Nat.le_of_lt_succ hrounds)) hum
      | jump m =>
        obtain ⟨u', hu', hum⟩ := hfol
        rw [hu']
        have hnone : (0 : Nat) < rounds := Nat.lt_of_le_of_lt (Nat.zero_le _)
          (Nat.lt_of_lt_of_le hlen (Nat.le_of_lt_succ hrounds))
        exact ih none hnone hum
      | fail e =>
        obtain ⟨next, hnext⟩ := hfol
        rw [hnext]
        exact ⟨_, rfl⟩
    · have hvdir : (s.get u).vtype ≠ .dir := by
        rw [hvtype]
        exact fun h => hdir (vtype_eq_dir.mp h)
      rw [if_pos hdir, if_pos hvdir]
      exact ⟨_, rfl⟩

/-- Where `strtok` is left by a lookup that follows no links and succeeds. -/
theorem lookupLoop_next {rounds : Nat} (rest : Option Str) {next : Strtok} {v : VnodePtr} (h : (do
      let (component, next) ← strtok (place rest)
      s.lookupLoop (fun v next => some (.ok v, next)) rounds u component next) = some (.ok v, next)) :
    (Clean rest → next = .null) ∧ (¬ Clean rest → next = .dangling) := by
  induction rounds generalizing u rest with
  | zero =>
    rcases strtok_place rest with ⟨next, htok, -⟩ | ⟨token, rest', htok, -⟩ <;> rw [htok] at h <;> cases h
  | succ rounds ih =>
    rcases strtok_place rest with ⟨next', htok, -, hnext⟩ | ⟨token, rest', htok, -, -, hclean⟩
    · rw [htok] at h
      obtain ⟨-, rfl⟩ := Prod.mk.inj (some.inj h)
      exact hnext
    rw [← hclean]
    rw [htok, bind_eq_bind, bind_some] at h
    dsimp only at h
    unfold lookupLoop at h
    by_cases hdir : (s.get u).vtype = .dir
    · rw [if_neg (not_not_intro hdir)] at h
      cases hl : s.ramfs.ramfsLookup s.rootVnode.path (s.get u) token with
      | none =>
        simp [hl] at h
      | some r =>
        rw [hl] at h
        cases r with
        | error e => cases h
        | ok w => exact ih rest' h
    · simp [if_pos hdir] at h

/-! ## Lookups -/

/-- The rest of a path behind the mount at "/". -/
def relPath (path : Str) : Str := (path.drop 1).dropWhile (· = slash)

theorem vfsResolveMount_root (path : Str) : vfsResolveMount [[slash]] path =
      if path.head? = some slash then .ok (0, relPath path) else .error (-ENOENT) := by
  cases path with
  | nil => rfl
  | cons c path =>
  have hlen : ¬ (c :: path).length < [slash].length := by simp
  have hbest : betterMount (c :: path) (none, 0) 0 [slash] =
      if c = slash then (some 0, 1) else (none, 0) := by
    unfold betterMount
    rw [if_neg hlen, if_pos rfl]
    simp
  unfold vfsResolveMount
  rw [bestMount, bestMount, hbest]
  by_cases hc : c = slash
  · have hhead : (c :: path).head? = some slash := by rw [hc]; rfl
    rw [if_pos hc]
    exact (if_pos hhead).symm
  · have hhead : (c :: path).head? ≠ some slash := by simpa using hc
    have hroot : ¬ ((c :: path) = [slash] ∧ [[slash]] ≠ []) := fun h => hc (List.cons.inj h.1).1
    rw [if_neg hc]
    exact (if_neg hroot).trans (if_neg hhead).symm

theorem absolute_split {path : Str} (h : path.head? = some slash) :
    ∃ lead, path = lead ++ relPath path ∧ ∀ c ∈ lead, c = slash := by
  cases path with
  | nil => cases h
  | cons c path =>
  obtain rfl : c = slash := some.inj h
  refine ⟨slash :: path.takeWhile (· = slash), ?_, ?_⟩
  · rw [List.cons_append, relPath, List.drop_one, List.tail_cons, List.takeWhile_append_dropWhile]
  intro b hb
  rcases List.mem_cons.mp hb with rfl | hb
  · rfl
  · have := List.all_takeWhile (p := fun c => decide (c = slash)) (l := path)
    rw [List.all_eq_true] at this
    simpa using this b hb

theorem components_relPath {path : Str} (h : path.head? = some slash) :
    components (relPath path) = components path := by
  obtain ⟨lead, hsplit, hlead⟩ := absolute_split h
  conv_rhs => rw [hsplit]
  exact (Lapis.Util.components_slashes_append hlead _).symm

theorem relPath_eq_nil {path : Str} (h : path.head? = some slash) :
    relPath path = [] ↔ components path = [] := by
  rw [← components_relPath h]
  refine ⟨fun hnil => by rw [hnil]; rfl, fun hnil => ?_⟩
  have hhead := List.head?_dropWhile_not (fun c => decide (c = slash)) (path.drop 1)
  cases hrel : relPath path with
  | nil => rfl
  | cons c rel =>
  rw [hrel] at hnil
  rw [show (path.drop 1).dropWhile (fun c => decide (c = slash)) = c :: rel from hrel] at hhead
  have hc : c ≠ slash := by simpa using hhead
  cases htok : strtokFrom (c :: rel) with
  | none => exact absurd (Lapis.Util.strtokFrom_eq_none htok c mem_cons_self) hc
  | some r =>
    simp [(Lapis.Util.components_of_strtokFrom htok).1] at hnil

theorem clean_relPath {path : Str} (h : path.head? = some slash) (hne : components path ≠ []) :
    Clean (some (relPath path)) ↔ path.getLast? ≠ some slash := by
  have hrel : relPath path ≠ [] := fun hnil => hne ((relPath_eq_nil h).mp hnil)
  obtain ⟨lead, hsplit, -⟩ := absolute_split h
  have hlast : path.getLast? = (relPath path).getLast? := by
    conv_lhs => rw [hsplit]
    exact List.getLast?_append_of_ne_nil lead hrel
  rw [hlast]
  refine ⟨fun hclean => (hclean _ rfl).2, fun hlast s hs => ?_⟩
  obtain rfl := some.inj hs
  exact ⟨hrel, hlast⟩

/-- The lookup of an absolute path that follows no links. -/
theorem vfsLookupInternal_plain (hs : s.Sound) (left : Nat) {text : Str} (next : Strtok)
    (habs : text.head? = some slash) :
    s.Finds (s.ramfs.plain (components text)) (s.vfsLookupInternal (left + 1) text false next) ∧
      (components text = [] → s.vfsLookupInternal (left + 1) text false next = some (.ok .root, next)) ∧
      ∀ v next', components text ≠ [] → s.vfsLookupInternal (left + 1) text false next = some (.ok v, next') →
        next' = if text.getLast? = some slash then .dangling else .null := by
  unfold vfsLookupInternal
  rw [hs.path, vfsResolveMount_root, if_pos habs]
  dsimp only
  by_cases hnil : components text = []
  · rw [if_pos ((relPath_eq_nil habs).mpr hnil), hnil]
    exact ⟨⟨.root, next, rfl, s.refers_root⟩, fun _ => rfl, fun _ _ hc => absurd rfl hc⟩
  rw [if_neg fun h => hnil ((relPath_eq_nil habs).mp h)]
  have hstay : ∀ w c next, s.Refers (.own w) c →
      s.Follows (some (.stay c)) next (some (.ok (.own w), next)) := fun w c next hw => ⟨.own w, rfl, hw⟩
  have hfinds : s.Finds (s.ramfs.plain (components (relPath text))) (do
      let (component, next) ← strtok (place (some (relPath text)))
      s.lookupLoop (fun v next => some (.ok v, next)) ((relPath text).length + 1) .root component
        next) :=
    lookupLoop_finds hs _ _ hstay (some (relPath text)) (Nat.lt_succ_self _) s.refers_root
  rw [components_relPath habs] at hfinds
  refine ⟨hfinds, fun hc => absurd hc hnil, fun v next' _ hresult => ?_⟩
  obtain ⟨hnull, hdangling⟩ := lookupLoop_next (some (relPath text)) hresult
  rw [clean_relPath habs hnil] at hnull hdangling
  by_cases hlast : text.getLast? = some slash
  · rw [if_pos hlast]
    exact hdangling (not_not_intro hlast)
  · rw [if_neg hlast]
    exact hnull hlast

theorem vfsLookupInternal_relative (hs : s.Sound) (left : Nat) {text : Str} (next : Strtok)
    (habs : text.head? ≠ some slash) :
    s.vfsLookupInternal (left + 1) text false next = some (.error (-ENOENT), next) := by
  unfold vfsLookupInternal
  rw [hs.path, vfsResolveMount_root, if_neg habs]

/-- The lookup of a text that follows no links. -/
theorem vfsLookupInternal_text (hs : s.Sound) (left : Nat) (text : Str) (next : Strtok) :
    s.Follows (s.ramfs.followText text) next (s.vfsLookupInternal (left + 1) text false next) := by
  unfold Ramfs.followText
  by_cases habs : text.head? = some slash
  · obtain ⟨hfinds, hroot, hnext⟩ := vfsLookupInternal_plain hs left next habs
    rw [if_neg (not_not_intro habs)]
    by_cases hnil : components text = []
    · rw [if_pos hnil]
      exact ⟨.root, hroot hnil, s.refers_root⟩
    rw [if_neg hnil]
    cases hplain : s.ramfs.plain (components text) with
    | none =>
      rw [hplain] at hfinds
      exact .inl hfinds
    | some r =>
    rw [hplain] at hfinds
    cases r with
    | error e => exact hfinds
    | ok m =>
    obtain ⟨v, next', hresult, hv⟩ := hfinds
    have hplace := hnext v next' hnil hresult
    change s.Follows (if _ then _ else _) _ _
    by_cases hlast : text.getLast? = some slash
    · rw [if_pos hlast] at hplace ⊢
      exact .inr ⟨v, hplace ▸ hresult⟩
    · rw [if_neg hlast] at hplace ⊢
      exact ⟨v, hplace ▸ hresult, hv⟩
  · rw [if_pos habs]
    exact ⟨next, vfsLookupInternal_relative hs left next habs⟩

/-- `ramfs_readlink` of the vnode of a link. -/
theorem ramfsReadlink_eq {n : RamfsNode} (hn : s.ramfs.nodes w.nodeData = some n) (hne : w.nodeData ≠ 0)
    (hvlink : w.vtype = .link) (hlink : n.type = .symlink) (size : Nat) : s.ramfs.ramfsReadlink w size =
      if n.data = 0 then some (.error EINVAL)
      else (Ramfs.cstr s.ramfs.heap.mem (2 ^ 64) n.data).map (.ok <| ·.take ((size + (2 ^ 64 - 1)) % 2 ^ 64)) := by
  unfold Ramfs.ramfsReadlink
  rw [if_neg (not_not_intro hvlink), if_neg hne, hn, bind_eq_bind, bind_some, if_neg (not_not_intro hlink)]
  by_cases hdata : n.data = 0
  · rw [if_pos hdata, if_pos hdata]
  · rw [if_neg hdata, if_neg hdata]
    cases Ramfs.cstr s.ramfs.heap.mem (2 ^ 64) n.data <;> rfl

/-- What `vfs_follow_symlink` does in a lookup. -/
def followSymlink (s : Vfs) (left : Nat) (v : VnodePtr) (next : Strtok) :
    Option (Except Int VnodePtr × Strtok) :=
  if (s.get v).vtype ≠ .link then some (.ok v, next)
  else do
    match ← s.ramfs.ramfsReadlink (s.get v) 512 with
    | .error e => some (.error e, next)
    | .ok target => s.vfsLookupInternal left target false next

theorem followSymlink_follows (hs : s.Sound) (left : Nat) (hw : s.Refers (.own w) c) (next : Strtok) :
    s.Follows (s.ramfs.followNode c) next (s.followSymlink (left + 1) (.own w) next) := by
  obtain ⟨hne, n, hn, hvtype, -⟩ := hw.nodes hs
  obtain rfl : w.nodeData = c := hw.2.1
  unfold Ramfs.followNode followSymlink
  rw [hn, bind_eq_bind, bind_some]
  by_cases hlink : n.type = .symlink
  · have hvlink : (s.get (.own w)).vtype = .link := hvtype.trans (vtype_eq_link.mpr hlink)
    rw [if_neg (not_not_intro hlink), if_neg (not_not_intro hvlink),
      show s.ramfs.ramfsReadlink (s.get (.own w)) 512 = _ from ramfsReadlink_eq hn hne hvlink hlink 512]
    by_cases hdata : n.data = 0
    · rw [if_pos hdata, if_pos hdata]
      exact ⟨next, rfl⟩
    · rw [if_neg hdata, if_neg hdata, Ramfs.linkText]
      cases Ramfs.cstr s.ramfs.heap.mem (2 ^ 64) n.data with
      | none => exact .inl rfl
      | some text => exact vfsLookupInternal_text hs left (text.take 511) next
  · have hvlink : (s.get (.own w)).vtype ≠ .link := by
      rw [hvtype]
      exact fun h => hlink (vtype_eq_link.mp h)
    rw [if_pos hlink, if_pos hvlink]
    exact ⟨.own w, rfl, hw⟩

/-- The result of `vfs_lookup`, as `resolve` says it. -/
def Found (s : Vfs) (w : Option (Except Int Nat)) (result : Option (Except Int VnodePtr × Vfs)) : Prop :=
  match w with
  | none => result = none
  | some (.error e) => ∃ next, result = some (.error e, { s with strtokNext := next })
  | some (.ok m) => ∃ u next, result = some (.ok u, { s with strtokNext := next }) ∧ s.Refers u m

section

variable {f : Option (Except Int Nat)} {result : Option (Except Int VnodePtr × Vfs)} {s' : Vfs}

theorem Found.cases (h : s.Found f result) :
    (f = none ∧ result = none) ∨
    (∃ e next, f = some (.error e) ∧ result = some (.error e, { s with strtokNext := next })) ∨
    ∃ m u next, f = some (.ok m) ∧ result = some (.ok u, { s with strtokNext := next }) ∧ s.Refers u m := by
  match f, h with
  | none, h => exact .inl ⟨rfl, h⟩
  | some (.error e), ⟨next, h⟩ => exact .inr (.inl ⟨e, next, rfl, h⟩)
  | some (.ok m), ⟨u, next, h, hu⟩ => exact .inr (.inr ⟨m, u, next, rfl, h, hu⟩)

theorem Found.of_ok (h : s.Found f result) (hresult : result = some (.ok u, s')) :
    ∃ m, f = some (.ok m) ∧ s.Refers u m := by
  rcases h.cases with ⟨-, hr⟩ | ⟨e, next, -, hr⟩ | ⟨m, v, next, hf, hr, hu⟩ <;> rw [hresult] at hr <;>
    cases hr
  exact ⟨m, hf, hu⟩

theorem Found.of_error {e : Int} (h : s.Found f result) (hresult : result = some (.error e, s')) :
    f = some (.error e) := by
  rcases h.cases with ⟨-, hr⟩ | ⟨e, next, hf, hr⟩ | ⟨m, v, next, -, hr, -⟩ <;> rw [hresult] at hr <;> cases hr
  exact hf

end

theorem Finds.found {f : Option (Except Int Nat)} {result : Option (Except Int VnodePtr × Strtok)}
    (h : s.Finds f result) :
    s.Found f (do
      let (r, next) ← result
      some (r, { s with strtokNext := next })) := by
  cases f with
  | none =>
    obtain rfl : result = none := h
    rfl
  | some r =>
  cases r with
  | error e =>
    obtain ⟨next, rfl⟩ := h
    exact ⟨next, rfl⟩
  | ok m =>
    obtain ⟨u, next, rfl, hu⟩ := h
    exact ⟨u, next, rfl, hu⟩

theorem vfsLookupInternal_max (s : Vfs) (path : Str) (next : Strtok) :
    s.vfsLookupInternal MAX_SYMLINK_DEPTH path true next = (match vfsResolveMount [s.rootVnode.path] path with
      | .error e => some (.error e, next)
      | .ok (_, rel) =>
        if rel = [] then some (.ok .root, next)
        else do
          let (component, next) ← strtok (.at rel)
          s.lookupLoop (s.followSymlink 8) (rel.length + 1) .root component next) := by
  rw [show MAX_SYMLINK_DEPTH = 9 + 1 from rfl, vfsLookupInternal]
  rfl

section

variable (hs : s.Sound)

include hs

theorem vfsLookup_found {path : Str} (habs : path.head? = some slash) :
    s.Found (s.ramfs.resolve (components path)) (s.vfsLookup path) := by
  unfold vfsLookup lookup
  refine Finds.found ?_
  rw [vfsLookupInternal_max, hs.path, vfsResolveMount_root, if_pos habs]
  dsimp only
  by_cases hnil : components path = []
  · rw [if_pos ((relPath_eq_nil habs).mpr hnil), hnil]
    exact ⟨.root, s.strtokNext, rfl, s.refers_root⟩
  · rw [if_neg fun h => hnil ((relPath_eq_nil habs).mp h), ← components_relPath habs]
    exact lookupLoop_finds hs s.ramfs.followNode (s.followSymlink 8)
      (fun w c next hw => followSymlink_follows hs 7 hw next) (some (relPath path))
      (Nat.lt_succ_self _) s.refers_root

/-- A lookup that follows no links, as in `vfs_readlink`. -/
theorem lookup_plain {path : Str} (habs : path.head? = some slash) :
    s.Found (s.ramfs.plain (components path)) (s.lookup path false) :=
  (vfsLookupInternal_plain hs 9 s.strtokNext habs).1.found

theorem lookup_relative {path : Str} (habs : path.head? ≠ some slash) :
    s.lookup path false = some (.error (-ENOENT), s) := by
  unfold lookup
  rw [show MAX_SYMLINK_DEPTH = 9 + 1 from rfl, vfsLookupInternal_relative hs 9 s.strtokNext habs]
  rfl

theorem vfsLookup_relative {path : Str} (habs : path.head? ≠ some slash) :
    s.vfsLookup path = some (.error (-ENOENT), s) := by
  unfold vfsLookup lookup
  rw [vfsLookupInternal_max, hs.path, vfsResolveMount_root, if_neg habs]
  rfl

/-- The lookup of the directory of a path, and what the rest of a call is about. -/
theorem vfsLookupParent_found {path : Str} (habs : path.head? = some slash) :
    (s.ramfs.resolve (dirNames path) = none ∧ s.vfsLookupParent path = none) ∨
    (∃ e next, s.ramfs.resolve (dirNames path) = some (.error e) ∧
      s.vfsLookupParent path = some (.error e, { s with strtokNext := next })) ∨
    ∃ d u next, s.ramfs.resolve (dirNames path) = some (.ok d) ∧
      s.vfsLookupParent path = some (.ok (u, baseName path), { s with strtokNext := next }) ∧
      s.Refers u d := by
  obtain ⟨front, hsplit, hparent, hdir, -⟩ := Lapis.Util.splitLast_absolute habs
  unfold vfsLookupParent
  rw [hsplit, ← hdir]
  dsimp only
  rcases (vfsLookup_found hs hparent).cases with
    ⟨hres, h⟩ | ⟨e, next, hres, h⟩ | ⟨d, u, next, hres, h, hu⟩ <;> rw [hres, h]
  · exact .inl ⟨rfl, rfl⟩
  · exact .inr (.inl ⟨e, next, rfl, rfl⟩)
  · exact .inr (.inr ⟨d, u, next, rfl, rfl, hu⟩)

theorem inParent_found {path : Str} (habs : path.head? = some slash)
    (op : Ramfs → Vnode → Str → Option (Int × Ramfs)) :
    (s.ramfs.resolve (dirNames path) = none ∧ s.inParent path op = none) ∨
    (∃ e next, s.ramfs.resolve (dirNames path) = some (.error e) ∧
      s.inParent path op = some (e, { s with strtokNext := next })) ∨
    ∃ d u next, s.ramfs.resolve (dirNames path) = some (.ok d) ∧ s.Refers u d ∧
      s.inParent path op = (op s.ramfs (s.get u) (baseName path)).map fun (e, r) =>
        (e, { s with strtokNext := next, ramfs := r }) := by
  unfold inParent
  rcases vfsLookupParent_found hs habs with
    ⟨hres, h⟩ | ⟨e, next, hres, h⟩ | ⟨d, u, next, hres, h, hu⟩ <;> rw [hres, h]
  · exact .inl ⟨rfl, rfl⟩
  · exact .inr (.inl ⟨e, next, rfl, rfl⟩)
  · refine .inr (.inr ⟨d, u, next, rfl, hu, ?_⟩)
    have hget : Vfs.get { s with strtokNext := next } u = s.get u := by cases u <;> rfl
    dsimp only [bind_eq_bind, bind_some]
    rw [hget]
    cases op s.ramfs (s.get u) (baseName path) <;> rfl

/-- A path that is not absolute has no directory. -/
theorem vfsLookupParent_relative {path : Str} (habs : path.head? ≠ some slash) :
    s.vfsLookupParent path = some (.error (-EINVAL), s) ∨
      s.vfsLookupParent path = some (.error (-ENOENT), s) := by
  unfold vfsLookupParent
  cases hsplit : Lapis.Util.splitLast path with
  | none => exact .inl rfl
  | some r =>
  obtain ⟨front, name⟩ := r
  have hfront : front.head? ≠ some slash ∧ front ≠ [] := by
    obtain ⟨rfl, -⟩ := Lapis.Util.splitLast_eq_some hsplit
    cases front with
    | nil => exact absurd rfl habs
    | cons c front => exact ⟨habs, cons_ne_nil _ _⟩
  refine .inr ?_
  dsimp only
  rw [if_neg hfront.2, vfsLookup_relative hs hfront.1]
  rfl

theorem inParent_relative {path : Str} (habs : path.head? ≠ some slash)
    (op : Ramfs → Vnode → Str → Option (Int × Ramfs)) :
    s.inParent path op = some (-EINVAL, s) ∨ s.inParent path op = some (-ENOENT, s) := by
  unfold inParent
  rcases vfsLookupParent_relative hs habs with h | h <;> rw [h]
  · exact .inl rfl
  · exact .inr rfl

end

end Vfs

end Lapis.Fs
