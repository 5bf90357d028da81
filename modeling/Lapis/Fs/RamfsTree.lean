/-
Lapis.Fs.RamfsTree — the nodes of a ramfs are a tree.

`Kids r first L` says that the siblings from `first` on are the nodes `L`, with different names. The tree
is a forest (Lapis.Lib.Forest) with one root, in which the child of a directory with a name is the sibling
that a search finds. `Tree` says that every node on a path from the root is allocated, that a directory
has its list of kids and that a node stands at one path only. An edit of the kids of one directory,
`Edit`, is what all changes of a ramfs come down to: a node put at the end of the list or one taken out.
-/
import Lapis.Fs.Ramfs
import Lapis.Lib.Chain
import Lapis.Lib.Forest
import Mathlib.Data.List.Perm.Subperm

namespace Lapis.Fs.Ramfs

open Lib Util
open Function List Option

variable {r r' : Ramfs} {first d c : Nat} {L : List Nat} {name : Str} {n : RamfsNode}

/-! ## The store -/

theorem setNode_self (r : Ramfs) (c : Nat) (n : RamfsNode) : (r.setNode c n).nodes c = some n :=
  update_self ..

variable {t : Nat}

theorem setNode_of_ne (h : t ≠ c) (r : Ramfs) (n : RamfsNode) :
    (r.setNode c n).nodes t = r.nodes t := update_of_ne h ..

theorem freeNode_self (r : Ramfs) (c : Nat) : (r.freeNode c).nodes c = none :=
  update_self ..

theorem freeNode_of_ne (h : t ≠ c) (r : Ramfs) : (r.freeNode c).nodes t = r.nodes t :=
  update_of_ne h ..

/-! ## Siblings -/

def siblingOf (r : Ramfs) (p : Nat) : Nat := (r.nodes p).elim 0 (·.sibling)

def nameOf (r : Ramfs) (p : Nat) : Str := (r.nodes p).elim [] (·.name)

theorem nameOf_eq (hn : r.nodes d = some n) : r.nameOf d = n.name := by rw [nameOf, hn]; rfl

theorem siblingOf_eq (hn : r.nodes d = some n) : r.siblingOf d = n.sibling := by
  rw [siblingOf, hn]; rfl

/-- The siblings from `first` on. -/
structure Kids (r : Ramfs) (first : Nat) (L : List Nat) : Prop where
  chain : Chain r.siblingOf first L
  nodup : L.Nodup
  alloc : ∀ c ∈ L, (r.nodes c).isSome ∧ c < 2 ^ 64
  names : ∀ a ∈ L, ∀ b ∈ L, r.nameOf a = r.nameOf b → a = b

theorem length_lt_of_nodup {m : Nat} (hnodup : L.Nodup) (hpos : ∀ c ∈ L, c ≠ 0) (hlt : ∀ c ∈ L, c < m)
    (hm : 0 < m) : L.length < m := by
  have hcons : (0 :: L).Nodup := nodup_cons.mpr ⟨fun h => hpos 0 h rfl, hnodup⟩
  have hsub : ∀ c ∈ 0 :: L, c ∈ List.range m :=
    forall_mem_cons.mpr ⟨mem_range.mpr hm, fun c hc => mem_range.mpr (hlt c hc)⟩
  have := (subperm_of_subset hcons hsub).length_le
  rwa [length_range, length_cons] at this

theorem Kids.length_lt (h : r.Kids first L) : L.length < 2 ^ 64 :=
  length_lt_of_nodup h.nodup (fun _ hc => h.chain.ne_zero hc) (fun c hc => (h.alloc c hc).2)
    (by decide)

theorem findSibling_chain {rounds : Nat} (hchain : Chain r.siblingOf first L)
    (halloc : ∀ c ∈ L, (r.nodes c).isSome) (hrounds : L.length < rounds) :
    r.findSibling name rounds first = some ((L.find? (r.nameOf · = name)).getD 0) := by
  induction L generalizing first rounds with
  | nil =>
    obtain ⟨rounds, rfl⟩ := Nat.exists_eq_succ_of_ne_zero (Nat.ne_of_gt hrounds)
    rw [findSibling, if_pos (show first = 0 from hchain)]
    rfl
  | cons a L ih =>
    obtain ⟨rounds, rfl⟩ := Nat.exists_eq_succ_of_ne_zero (Nat.ne_of_gt (Nat.zero_lt_of_lt hrounds))
    obtain ⟨rfl, hne, hrest⟩ := hchain
    obtain ⟨m, hm⟩ := isSome_iff_exists.mp (halloc first mem_cons_self)
    have hname := nameOf_eq hm
    rw [siblingOf_eq hm] at hrest
    rw [findSibling, if_neg hne, hm]
    change (if m.name = name then some first else r.findSibling name rounds m.sibling) = _
    by_cases heq : m.name = name
    · rw [if_pos heq, List.find?_cons_of_pos (by simpa [hname] using heq)]
      rfl
    · rw [if_neg heq, List.find?_cons_of_neg (by simpa [hname] using heq)]
      exact ih hrest (fun b hb => halloc b (mem_cons_of_mem first hb))
        (Nat.lt_of_succ_lt_succ hrounds)

theorem Kids.findSibling (h : r.Kids first L) (name : Str) :
    r.findSibling name (2 ^ 64) first = some ((L.find? (r.nameOf · = name)).getD 0) :=
  findSibling_chain h.chain (fun c hc => (h.alloc c hc).1) h.length_lt

/-- A kid is found by its name. -/
theorem Kids.find?_eq_some (h : r.Kids first L) :
    L.find? (r.nameOf · = name) = some c ↔ c ∈ L ∧ r.nameOf c = name := by
  constructor
  · intro hfind
    exact ⟨List.mem_of_find?_eq_some hfind, by simpa using List.find?_some hfind⟩
  rintro ⟨hmem, hname⟩
  cases hfind : L.find? (r.nameOf · = name) with
  | none =>
    have := List.find?_eq_none.mp hfind c hmem
    exact absurd (by simpa using hname) this
  | some b =>
    have hb : r.nameOf b = name := by simpa using List.find?_some hfind
    rw [h.names b (List.mem_of_find?_eq_some hfind) c hmem (hb.trans hname.symm)]

theorem find?_nameOf_congr (h : ∀ c ∈ L, r'.nameOf c = r.nameOf c) :
    L.find? (r'.nameOf · = name) = L.find? (r.nameOf · = name) := by
  induction L with
  | nil => rfl
  | cons a L ih =>
    rw [List.find?_cons, List.find?_cons, h a mem_cons_self,
      ih fun c hc => h c (mem_cons_of_mem a hc)]

/-- Siblings are the same where their links and names are. -/
theorem Kids.congr (h : r.Kids first L)
    (hsame : ∀ c ∈ L, (r'.nodes c).isSome ∧ r'.siblingOf c = r.siblingOf c ∧ r'.nameOf c = r.nameOf c) :
    r'.Kids first L := by
  refine ⟨h.chain.congr fun c hc => (hsame c hc).2.1, h.nodup,
    fun c hc => ⟨(hsame c hc).1, (h.alloc c hc).2⟩, fun a ha b hb heq => ?_⟩
  rw [(hsame a ha).2.2, (hsame b hb).2.2] at heq
  exact h.names a ha b hb heq

/-! ## The tree -/

/-- The child of a directory with a name. -/
def childOf (r : Ramfs) (d : Nat) (name : Str) : Option Nat := do
  let n ← r.nodes d
  if n.type = .directory then do
    let c ← r.findSibling name (2 ^ 64) n.child
    if c = 0 then none else some c
  else none

def forest (r : Ramfs) : Forest Unit Nat Str := ⟨fun _ => some r.rootNode, r.childOf⟩

/-- The node at a path, given by its names. -/
def walk (r : Ramfs) (path : List Str) : Option Nat := r.forest.node () path

theorem childOf_eq (hn : r.nodes d = some n) (hdir : n.type = .directory) (h : r.Kids n.child L)
    (name : Str) : r.childOf d name = L.find? (r.nameOf · = name) := by
  unfold childOf
  rw [hn, bind_eq_bind, bind_some, if_pos hdir, h.findSibling name, bind_eq_bind, bind_some]
  cases hfind : L.find? (r.nameOf · = name) with
  | none => rfl
  | some c => exact if_neg (h.chain.ne_zero (List.mem_of_find?_eq_some hfind))

theorem childOf_of_not_dir (hn : r.nodes d = some n) (hdir : n.type ≠ .directory) (name : Str) :
    r.childOf d name = none := by
  unfold childOf
  rw [hn]
  exact if_neg hdir

theorem childOf_of_none (hn : r.nodes d = none) (name : Str) : r.childOf d name = none := by
  unfold childOf
  rw [hn]
  rfl

structure Tree (r : Ramfs) : Prop where
  root : ∃ n, r.nodes r.rootNode = some n ∧ n.type = .directory
  rootNode : r.rootNode ≠ 0 ∧ r.rootNode < 2 ^ 64
  node : ∀ path d, r.walk path = some d → ∃ n, r.nodes d = some n ∧
    (n.type = .directory → ∃ L, r.Kids n.child L)
  separated : r.forest.Separated fun _ => True

theorem closed_true : Forest.Closed (fun _ : List Str => True) := ⟨trivial, fun _ _ _ => trivial⟩

theorem walk_nil (r : Ramfs) : r.walk [] = some r.rootNode := rfl

theorem walk_concat (r : Ramfs) (path : List Str) (name : Str) :
    r.walk (path ++ [name]) = (r.walk path).bind (r.childOf · name) :=
  Forest.node_concat r.forest () path name

/-- The nodes below a name are reached through it. -/
theorem walk_append_cons (r : Ramfs) (path : List Str) (name : Str) (rest : List Str) :
    r.walk (path ++ name :: rest) =
      ((r.walk path).bind (r.childOf · name)).bind (r.forest.descend · rest) := by
  rw [← walk_concat, ← singleton_append, ← append_assoc]
  exact Forest.node_append r.forest () (path ++ [name]) rest

variable {p : List Str}

/-- A node stands at one path. -/
theorem Tree.path_eq (h : r.Tree) {q : List Str} (hp : r.walk p = some d) (hq : r.walk q = some d) :
    p = q := (h.separated () p () q d trivial trivial hp hq).2

/-- The kids of a directory stand below it. -/
theorem walk_kid (hp : r.walk p = some d) (hn : r.nodes d = some n)
    (hdir : n.type = .directory) (hL : r.Kids n.child L) (hc : c ∈ L) :
    r.walk (p ++ [r.nameOf c]) = some c := by
  rw [walk_concat, hp, bind_some, childOf_eq hn hdir hL]
  exact hL.find?_eq_some.mpr ⟨hc, rfl⟩

/-- A node on a path is not NULL and below 2^64. -/
theorem Tree.ne_zero (h : r.Tree) (hp : r.walk p = some d) : d ≠ 0 ∧ d < 2 ^ 64 := by
  rcases eq_nil_or_concat p with rfl | ⟨q, name, rfl⟩
  · rw [walk_nil, some.injEq] at hp
    exact hp ▸ h.rootNode
  rw [concat_eq_append, walk_concat] at hp
  obtain ⟨e, he, hchild⟩ := bind_eq_some_iff.mp hp
  obtain ⟨n, hn, hkids⟩ := h.node q e he
  by_cases hdir : n.type = .directory
  · obtain ⟨L, hL⟩ := hkids hdir
    rw [childOf_eq hn hdir hL] at hchild
    have hmem := List.mem_of_find?_eq_some hchild
    exact ⟨hL.chain.ne_zero hmem, (hL.alloc d hmem).2⟩
  · simp [childOf_of_not_dir hn hdir] at hchild

/-! ## Edits -/

/-- Two values of a node that differ only in its place in the tree. -/
def Alike (n n' : RamfsNode) : Prop := n' = { n with sibling := n'.sibling, child := n'.child }

theorem Alike.refl (n : RamfsNode) : Alike n n := rfl

variable {n n' : RamfsNode}

theorem Alike.name_eq (h : Alike n n') : n'.name = n.name := by
  have heq := congrArg RamfsNode.name h
  exact heq

theorem Alike.type_eq (h : Alike n n') : n'.type = n.type := by
  have heq := congrArg RamfsNode.type h
  exact heq

theorem Alike.data_eq (h : Alike n n') : n'.data = n.data := by
  have heq := congrArg RamfsNode.data h
  exact heq

/-- The kids of the directory `d` were `L` and are `L'`. A node that is not taken out stays as it was but
for its place: a directory other than `d` keeps its first kid, and a node that was no kid of `d` its
sibling. -/
structure Edit (r r' : Ramfs) (d : Nat) (L L' : List Nat) : Prop where
  rootNode : r'.rootNode = r.rootNode
  dir : ∃ n, r'.nodes d = some n ∧ n.type = .directory ∧ r'.Kids n.child L'
  keep : ∀ t n, r.nodes t = some n → (t ∈ L → t ∈ L') → ∃ n', r'.nodes t = some n' ∧
    Alike n n' ∧ (t ≠ d → n'.child = n.child) ∧ (t ∉ L → n'.sibling = n.sibling)

variable {p : List Str} {L' : List Nat} {x : Option Nat}

/-- A kid keeps its name. -/
theorem Edit.name_eq (hedit : Edit r r' d L L') (hL : r.Kids first L) (hc : c ∈ L) (hc' : c ∈ L') :
    r'.nameOf c = r.nameOf c := by
  obtain ⟨k, hk⟩ := isSome_iff_exists.mp (hL.alloc c hc).1
  obtain ⟨k', hk', halike, -⟩ := hedit.keep c k hk fun _ => hc'
  rw [nameOf_eq hk, nameOf_eq hk', halike.name_eq]

section Edit

variable (hedit : Edit r r' d L L') (h : r.Tree) (hd : r.walk p = some d) (hn : r.nodes d = some n)
  (hdir : n.type = .directory) (hL : r.Kids n.child L)

include h hd hn hdir hL

/-- A node at another path than that of the name `name` has not been taken out. -/
theorem mem_of_walk_ne (hgone : ∀ t ∈ L, t ∉ L' → r.nameOf t = name ∧ x ≠ some t) {q : List Str}
    (hq : q ≠ p ++ [name]) (ht : r.walk q = some t) (htL : t ∈ L) : t ∈ L' := by
  by_contra htL'
  have hkid := walk_kid hd hn hdir hL htL
  rw [(hgone t htL htL').1] at hkid
  exact hq (h.path_eq ht hkid)

include hedit

/-- A node at another path than `d` has the kids it had. -/
theorem Edit.kids {q : List Str} (ht : r.walk q = some t) (htd : t ≠ d) (hstay : t ∈ L → t ∈ L') :
    ∃ m', r'.nodes t = some m' ∧ (m'.type = .directory → ∃ K, r'.Kids m'.child K) ∧
      ∀ name, r'.childOf t name = r.childOf t name := by
  obtain ⟨m, hm, hkids⟩ := h.node q t ht
  obtain ⟨m', hm', halike, hchild, -⟩ := hedit.keep t m hm hstay
  have htype := halike.type_eq
  refine ⟨m', hm', ?_⟩
  by_cases hmdir : m.type = .directory
  · obtain ⟨K, hK⟩ := hkids hmdir
    -- a kid of `t` is no kid of `d`, so its links are the same
    have hnot : ∀ c ∈ K, c ∉ L := by
      intro c hc hcL
      have hpath := h.path_eq (walk_kid ht hm hmdir hK hc) (walk_kid hd hn hdir hL hcL)
      have hq : q = p := (append_inj' hpath rfl).1
      rw [hq, hd, some.injEq] at ht
      exact htd ht.symm
    have hsame : ∀ c ∈ K, (r'.nodes c).isSome ∧ r'.siblingOf c = r.siblingOf c ∧
        r'.nameOf c = r.nameOf c := by
      intro c hc
      obtain ⟨k, hk⟩ := isSome_iff_exists.mp (hK.alloc c hc).1
      obtain ⟨k', hk', halike, -, hsib⟩ := hedit.keep c k hk fun hcL => absurd hcL (hnot c hc)
      refine ⟨by rw [hk']; rfl, ?_, ?_⟩
      · rw [siblingOf_eq hk, siblingOf_eq hk', hsib (hnot c hc)]
      · rw [nameOf_eq hk, nameOf_eq hk', halike.name_eq]
    have hK' : r'.Kids m'.child K := by
      rw [hchild htd]
      exact hK.congr hsame
    refine ⟨fun _ => ⟨K, hK'⟩, fun name => ?_⟩
    rw [childOf_eq hm hmdir hK, childOf_eq hm' (htype.trans hmdir) hK']
    exact find?_nameOf_congr fun c hc => (hsame c hc).2.2
  · have hmdir' : m'.type ≠ .directory := by rw [htype]; exact hmdir
    refine ⟨fun hc => absurd hc hmdir', fun name => ?_⟩
    rw [childOf_of_not_dir hm hmdir, childOf_of_not_dir hm' hmdir']

/-- The kids of `d` are the only edge that changes: the one with the name `name` now leads to `x`. -/
theorem Edit.walk_eq
    (hfind : ∀ m, L'.find? (r'.nameOf · = m) = if m = name then x else L.find? (r.nameOf · = m))
    (hgone : ∀ t ∈ L, t ∉ L' → r.nameOf t = name ∧ x ≠ some t)
    (hold : ∀ t, r.childOf d name = some t → ∀ m, r.childOf t m = none)
    (hnew : ∀ t, x = some t → r.nodes t = none ∧ ∀ m, r'.childOf t m = none) (q : List Str) :
    r'.walk q = if q = p ++ [name] then x else r.walk q := by
  have hempty : ∀ t, x = some t → ∀ m, r.childOf t m = none :=
    fun t ht m => childOf_of_none (hnew t ht).1 m
  have hne : ∀ t, x = some t → t ≠ d ∧ ∀ m, r.forest.child t m = none := by
    intro t ht
    refine ⟨?_, hempty t ht⟩
    rintro rfl
    simp [(hnew t ht).1] at hn
  have hself := Forest.node_setChild_self (i := name) (x := x) closed_true h.separated trivial hd
  have hother : ∀ q, q ≠ p ++ [name] → (r.forest.setChild d name x).node () q = r.walk q := fun q hq =>
    Forest.node_replace closed_true h.separated trivial hd hold hne trivial fun hc => hq hc.2
  have hwalk : r'.walk q = (r.forest.setChild d name x).node () q := by
    refine Forest.node_congr closed_true ?_ (fun path m t _ ht => ?_) trivial
    · change some r'.rootNode = some r.rootNode
      rw [hedit.rootNode]
    rw [Forest.child_setChild]
    by_cases hpath : path = p ++ [name]
    · rw [hpath, hself] at ht
      rw [if_neg fun hc => (hne t ht).1 hc.1]
      exact ((hnew t ht).2 m).trans (hempty t ht m).symm
    rw [hother path hpath] at ht
    by_cases htd : t = d
    · subst htd
      obtain ⟨n', hn', hdir', hL'⟩ := hedit.dir
      change r'.childOf t m = _
      rw [childOf_eq hn' hdir' hL', hfind m]
      by_cases hm : m = name
      · rw [if_pos hm, if_pos ⟨rfl, hm⟩]
      · rw [if_neg hm, if_neg fun hc => hm hc.2]
        exact (childOf_eq hn hdir hL m).symm
    · rw [if_neg fun hc => htd hc.1]
      have hstay := mem_of_walk_ne h hd hn hdir hL hgone hpath ht
      obtain ⟨-, -, -, hchild⟩ := hedit.kids h hd hn hdir hL ht htd hstay
      exact hchild m
  rw [hwalk]
  by_cases hq : q = p ++ [name]
  · rw [if_pos hq, hq, hself]
  · rw [if_neg hq, hother q hq]

/-- The nodes are a tree again. -/
theorem Edit.tree (hgone : ∀ t ∈ L, t ∉ L' → r.nameOf t = name ∧ x ≠ some t)
    (hnew : ∀ t, x = some t → r.nodes t = none ∧ ∃ m, r'.nodes t = some m ∧
      (m.type = .directory → ∃ K, r'.Kids m.child K))
    (hwalk : ∀ q, r'.walk q = if q = p ++ [name] then x else r.walk q) : r'.Tree := by
  have hnode : ∀ q t, q ≠ p ++ [name] → r.walk q = some t → ∃ m, r'.nodes t = some m ∧
      (m.type = .directory → ∃ K, r'.Kids m.child K) := by
    intro q t hq ht
    by_cases htd : t = d
    · subst htd
      obtain ⟨n', hn', -, hL'⟩ := hedit.dir
      exact ⟨n', hn', fun _ => ⟨L', hL'⟩⟩
    · obtain ⟨m', hm', hkids, -⟩ := hedit.kids h hd hn hdir hL ht htd
        (mem_of_walk_ne h hd hn hdir hL hgone hq ht)
      exact ⟨m', hm', hkids⟩
  have hroot : ([] : List Str) ≠ p ++ [name] := by simp
  refine ⟨?_, by rw [hedit.rootNode]; exact h.rootNode, fun q t ht => ?_, ?_⟩
  · obtain ⟨m, hm, hmdir⟩ := h.root
    rw [hedit.rootNode]
    obtain ⟨m', hm', halike, -⟩ := hedit.keep _ m hm
      (mem_of_walk_ne h hd hn hdir hL hgone hroot (walk_nil r))
    exact ⟨m', hm', halike.type_eq.trans hmdir⟩
  · rw [hwalk] at ht
    by_cases hq : q = p ++ [name]
    · rw [if_pos hq] at ht
      exact (hnew t ht).2
    · rw [if_neg hq] at ht
      exact hnode q t hq ht
  · intro _ q _ q' t _ _ hq hq'
    refine ⟨rfl, ?_⟩
    have hq : r'.walk q = some t := hq
    have hq' : r'.walk q' = some t := hq'
    have hfresh : x = some t → ∀ q, r.walk q ≠ some t := by
      intro hx q hc
      obtain ⟨m, hm, -⟩ := h.node q t hc
      simp [(hnew t hx).1] at hm
    rw [hwalk] at hq hq'
    by_cases he : q = p ++ [name] <;> by_cases he' : q' = p ++ [name]
    · rw [he, he']
    · rw [if_pos he] at hq
      rw [if_neg he'] at hq'
      exact absurd hq' (hfresh hq q')
    · rw [if_neg he] at hq
      rw [if_pos he'] at hq'
      exact absurd hq (hfresh hq' q)
    · rw [if_neg he] at hq
      rw [if_neg he'] at hq'
      exact h.path_eq hq hq'

end Edit

/-! ## Changes of the contents -/

/-- What the tree reads of a node. -/
def shape (n : RamfsNode) : Str × RamfsType × Nat × Nat := (n.name, n.type, n.sibling, n.child)

/-- The two stores hold the same tree. -/
structure SameTree (r r' : Ramfs) : Prop where
  rootNode : r'.rootNode = r.rootNode
  nodes : ∀ t, (r'.nodes t).map shape = (r.nodes t).map shape

theorem SameTree.node (h : SameTree r r') (hn : r.nodes t = some n) :
    ∃ n', r'.nodes t = some n' ∧ n'.name = n.name ∧ n'.type = n.type ∧ n'.sibling = n.sibling ∧
      n'.child = n.child := by
  have hmap := h.nodes t
  rw [hn, map_some, map_eq_some_iff] at hmap
  obtain ⟨n', hn', hshape⟩ := hmap
  simp only [shape, Prod.mk.injEq] at hshape
  exact ⟨n', hn', hshape⟩

theorem SameTree.node_none (h : SameTree r r') (hn : r.nodes t = none) : r'.nodes t = none := by
  have hmap := h.nodes t
  rwa [hn, map_none, map_eq_none_iff] at hmap

theorem SameTree.setNode (n' : RamfsNode) (hn : r.nodes c = some n) (hshape : shape n' = shape n) :
    SameTree r (r.setNode c n') := by
  refine ⟨rfl, fun t => ?_⟩
  by_cases ht : t = c
  · rw [ht, setNode_self, hn, map_some, map_some, hshape]
  · rw [setNode_of_ne ht]

section

variable (h : SameTree r r')

include h

theorem SameTree.findSibling (rounds first : Nat) :
    r'.findSibling name rounds first = r.findSibling name rounds first := by
  induction rounds generalizing first with
  | zero => rfl
  | succ rounds ih =>
    unfold Ramfs.findSibling
    cases hn : r.nodes first with
    | none =>
      rw [h.node_none hn]
      rfl
    | some n =>
      obtain ⟨n', hn', hname, -, hsib, -⟩ := h.node hn
      rw [hn']
      dsimp only [bind_eq_bind, bind_some]
      rw [hname, hsib, ih]

theorem SameTree.childOf (d : Nat) (name : Str) : r'.childOf d name = r.childOf d name := by
  cases hn : r.nodes d with
  | none => rw [childOf_of_none hn, childOf_of_none (h.node_none hn)]
  | some n =>
    obtain ⟨n', hn', -, htype, -, hchild⟩ := h.node hn
    unfold Ramfs.childOf
    rw [hn, hn']
    dsimp only [bind_eq_bind, bind_some]
    rw [htype, hchild, h.findSibling]

theorem SameTree.forest : r'.forest = r.forest := by
  have hchild : r'.childOf = r.childOf := funext fun d => funext fun m => h.childOf d m
  unfold Ramfs.forest
  rw [h.rootNode, hchild]

theorem SameTree.walk (path : List Str) : r'.walk path = r.walk path := by
  unfold Ramfs.walk
  rw [h.forest]

theorem SameTree.kids (hL : r.Kids first L) : r'.Kids first L := by
  refine hL.congr fun c hc => ?_
  obtain ⟨k, hk⟩ := isSome_iff_exists.mp (hL.alloc c hc).1
  obtain ⟨k', hk', hname, -, hsib, -⟩ := h.node hk
  exact ⟨by rw [hk']; rfl, by rw [siblingOf_eq hk, siblingOf_eq hk', hsib],
    by rw [nameOf_eq hk, nameOf_eq hk', hname]⟩

theorem SameTree.tree (htree : r.Tree) : r'.Tree := by
  refine ⟨?_, by rw [h.rootNode]; exact htree.rootNode, fun path d hd => ?_, ?_⟩
  · obtain ⟨n, hn, hdir⟩ := htree.root
    obtain ⟨n', hn', -, htype, -⟩ := h.node hn
    exact ⟨n', by rw [h.rootNode, hn'], htype.trans hdir⟩
  · rw [h.walk] at hd
    obtain ⟨n, hn, hkids⟩ := htree.node path d hd
    obtain ⟨n', hn', -, htype, -, hchild⟩ := h.node hn
    refine ⟨n', hn', fun hdir => ?_⟩
    obtain ⟨L, hL⟩ := hkids (htype.symm.trans hdir)
    exact ⟨L, hchild ▸ h.kids hL⟩
  · rw [h.forest]
    exact htree.separated

end

end Lapis.Fs.Ramfs
