/-
Lapis.Fs.RamfsTreeTheorems — what the operations of a ramfs do to its tree.

A new node stands at the end of the kids of its directory, a removed one is unlinked there; both are
edits (Lapis.Fs.RamfsTree). `Added` and `Removed` say what the caller sees of them: the map from paths to
nodes has one path more or less, and every other node is as it was but for its place.
-/
import Lapis.Fs.RamfsTree
import Mathlib.Data.List.Nodup

namespace Lapis.Fs.Ramfs

open Function List Option Lib Mm Util

variable {r r' : Ramfs} {first d c : Nat} {L L' : List Nat} {name : Str} {n k : RamfsNode} {p : List Str}

/-! ## A node at the end -/

variable {rounds : Nat} {A : List Nat}

theorem appendFrom_eq {q : Nat}
    (hchain : Chain r.siblingOf first (A ++ [q])) (halloc : ∀ b ∈ A ++ [q], (r.nodes b).isSome)
    (hrounds : A.length < rounds) :
    ∃ m, r.nodes q = some m ∧ m.sibling = 0 ∧
      r.appendFrom c rounds first = some (r.setNode q { m with sibling := c }) := by
  induction A generalizing first rounds with
  | nil =>
    obtain ⟨rounds, rfl⟩ := Nat.exists_eq_succ_of_ne_zero (Nat.ne_of_gt hrounds)
    obtain ⟨rfl, -, hlast⟩ := hchain
    obtain ⟨m, hm⟩ := isSome_iff_exists.mp (halloc first (by simp))
    have hzero : m.sibling = 0 := (siblingOf_eq hm).symm.trans hlast
    refine ⟨m, hm, hzero, ?_⟩
    rw [appendFrom, hm]
    exact if_pos hzero
  | cons a A ih =>
    obtain ⟨rounds, rfl⟩ := Nat.exists_eq_succ_of_ne_zero (Nat.ne_of_gt (Nat.zero_lt_of_lt hrounds))
    obtain ⟨rfl, -, hrest⟩ := hchain
    obtain ⟨m, hm⟩ := isSome_iff_exists.mp (halloc first (by simp))
    have hne : m.sibling ≠ 0 := by
      rw [← siblingOf_eq hm]
      intro hzero
      have := hrest.head_eq_zero.mp hzero
      simp at this
    rw [siblingOf_eq hm] at hrest
    obtain ⟨k, hk, hzero, heq⟩ := ih hrest (fun b hb => halloc b (mem_cons_of_mem first hb))
      (Nat.lt_of_succ_lt_succ hrounds)
    refine ⟨k, hk, hzero, ?_⟩
    rw [appendFrom, hm]
    exact (if_neg hne).trans heq

theorem Kids.not_mem (hL : r.Kids first L) (hfree : r.nodes c = none) : c ∉ L := by
  intro hmem
  have := (hL.alloc c hmem).1
  simp [hfree] at this

/-- The kids with a new one at the end. -/
theorem Kids.concat (hL : r.Kids first L) (hlt : c < 2 ^ 64) (hfree : r.nodes c = none)
    (hnames : ∀ t ∈ L, r.nameOf t ≠ k.name) (hk : r'.nodes c = some k)
    (hsame : ∀ t ∈ L, (r'.nodes t).isSome ∧ r'.nameOf t = r.nameOf t) {first' : Nat}
    (hchain : Chain r'.siblingOf first' (L ++ [c])) : r'.Kids first' (L ++ [c]) := by
  have hname : r'.nameOf c = k.name := nameOf_eq hk
  refine ⟨hchain, (nodup_cons.mpr ⟨hL.not_mem hfree, hL.nodup⟩).perm (perm_append_singleton c L).symm, ?_, ?_⟩
  · intro t ht
    rcases mem_append.mp ht with ht | ht
    · exact ⟨(hsame t ht).1, (hL.alloc t ht).2⟩
    · obtain rfl := mem_singleton.mp ht
      exact ⟨by rw [hk]; rfl, hlt⟩
  · intro a ha b hb heq
    rcases mem_append.mp ha with ha | ha <;> rcases mem_append.mp hb with hb | hb
    · rw [(hsame a ha).2, (hsame b hb).2] at heq
      exact hL.names a ha b hb heq
    · rw [mem_singleton.mp hb, (hsame a ha).2, hname] at heq
      exact absurd heq (hnames a ha)
    · rw [mem_singleton.mp ha, (hsame b hb).2, hname] at heq
      exact absurd heq.symm (hnames b hb)
    · rw [mem_singleton.mp ha, mem_singleton.mp hb]

/-- `ramfs_append_child` puts a node that is in the store, but in no directory, behind the kids. -/
theorem ramfsAppendChild_edit (hn : r.nodes d = some n) (hdir : n.type = .directory)
    (hL : r.Kids n.child L) (hc : c ≠ 0) (hlt : c < 2 ^ 64) (hfree : r.nodes c = none)
    (hnames : ∀ t ∈ L, r.nameOf t ≠ k.name) (hk : k.sibling = 0) {rc : Ramfs}
    (hrc : rc.nodes = update r.nodes c (some k)) (hroot : rc.rootNode = r.rootNode) :
    ∃ q m, rc.ramfsAppendChild d c = some (rc.setNode q m) ∧ q ≠ c ∧ (r.nodes q).isSome ∧
      Edit r (rc.setNode q m) d L (L ++ [c]) := by
  have hdc : d ≠ c := by
    rintro rfl
    simp [hfree] at hn
  have hold : ∀ t, t ≠ c → rc.nodes t = r.nodes t := fun t ht => by rw [hrc, update_of_ne ht]
  have hself : rc.nodes c = some k := by rw [hrc, update_self]
  have hcL := hL.not_mem hfree
  have hne : ∀ t ∈ L, t ≠ c := fun t ht hc => hcL (hc ▸ ht)
  have hstart : rc.ramfsAppendChild d c = if n.child = 0 then
      some (rc.setNode d { n with child := c }) else rc.appendFrom c (2 ^ 64) n.child := by
    unfold ramfsAppendChild
    rw [hold d hdc, hn]
    rfl
  rcases eq_nil_or_concat L with rfl | ⟨A, q, rfl⟩
  · -- the first kid of the directory
    refine ⟨d, { n with child := c }, ?_, hdc, by rw [hn]; rfl, ?_, ?_, ?_⟩
    · rw [hstart, if_pos (show n.child = 0 from hL.chain)]
    · exact hroot
    · have hck : (rc.setNode d { n with child := c }).nodes c = some k := by
        rw [setNode_of_ne hdc.symm, hself]
      refine ⟨{ n with child := c }, setNode_self .., hdir, ?_⟩
      refine hL.concat hlt hfree hnames hck (by simp) ⟨rfl, hc, ?_⟩
      exact (siblingOf_eq hck).trans hk
    · intro t m hm _
      by_cases htd : t = d
      · subst htd
        cases hn.symm.trans hm
        exact ⟨_, setNode_self .., rfl, fun h => absurd rfl h, fun _ => rfl⟩
      have htc : t ≠ c := by
        rintro rfl
        simp [hfree] at hm
      refine ⟨m, ?_, Alike.refl m, fun _ => rfl, fun _ => rfl⟩
      rw [setNode_of_ne htd, hold t htc, hm]
  · rw [concat_eq_append] at *
    have hqL : q ∈ A ++ [q] := by simp
    have hqc : q ≠ c := hne q hqL
    have hsib : ∀ t, t ≠ c → rc.siblingOf t = r.siblingOf t := fun t ht => by
      unfold siblingOf
      rw [hold t ht]
    have hchain : Chain rc.siblingOf n.child (A ++ [q]) :=
      hL.chain.congr fun t ht => hsib t (hne t ht)
    have hlen : A.length < 2 ^ 64 := by
      have := hL.length_lt
      rw [length_append] at this
      omega
    obtain ⟨m, hm, hzero, happend⟩ := appendFrom_eq (c := c) hchain
      (fun b hb => by rw [hold b (hne b hb)]; exact (hL.alloc b hb).1) hlen
    have hchild : n.child ≠ 0 := fun hz => by simpa using hL.chain.head_eq_zero.mp hz
    rw [hold q hqc] at hm
    have hother : ∀ t, t ≠ q → (rc.setNode q { m with sibling := c }).nodes t = rc.nodes t :=
      fun t ht => setNode_of_ne ht ..
    have hlast : (rc.setNode q { m with sibling := c }).nodes q = some { m with sibling := c } :=
      setNode_self ..
    have hck : (rc.setNode q { m with sibling := c }).nodes c = some k := by
      rw [hother c hqc.symm, hself]
    have hnode : ∀ t a, r.nodes t = some a → ∃ a', (rc.setNode q { m with sibling := c }).nodes t = some a' ∧
        Alike a a' ∧ a'.child = a.child ∧ (t ≠ q → a'.sibling = a.sibling) := by
      intro t a ha
      by_cases htq : t = q
      · subst htq
        cases hm.symm.trans ha
        exact ⟨_, hlast, rfl, rfl, fun h => absurd rfl h⟩
      · have htc : t ≠ c := by
          rintro rfl
          simp [hfree] at ha
        exact ⟨a, by rw [hother t htq, hold t htc, ha], Alike.refl a, rfl, fun _ => rfl⟩
    refine ⟨q, { m with sibling := c }, by rw [hstart, if_neg hchild, happend], hqc,
      (hL.alloc q hqL).1, hroot, ?_, ?_⟩
    · obtain ⟨n', hn', halike, hfirst, -⟩ := hnode d n hn
      refine ⟨n', hn', halike.type_eq.trans hdir, hL.concat hlt hfree hnames hck ?_ ?_⟩
      · intro t ht
        obtain ⟨a, ha⟩ := isSome_iff_exists.mp (hL.alloc t ht).1
        obtain ⟨a', ha', halike, -⟩ := hnode t a ha
        exact ⟨by rw [ha']; rfl, by rw [nameOf_eq ha, nameOf_eq ha', halike.name_eq]⟩
      rw [hfirst, append_assoc]
      refine hL.chain.append hL.nodup hc (fun a ha => ?_) (siblingOf_eq hlast)
        ((siblingOf_eq hck).trans hk)
      have haq : a ≠ q := fun heq => by
        have hnd := nodup_append.mp hL.nodup
        exact hnd.2.2 a ha q (mem_singleton_self q) heq
      rw [siblingOf, hother a haq]
      exact hsib a (hne a (mem_append_left _ ha))
    · intro t a ha _
      obtain ⟨a', ha', halike, hfirst, hsibling⟩ := hnode t a ha
      exact ⟨a', ha', halike, fun _ => hfirst, fun htL => hsibling fun hq => htL (hq ▸ hqL)⟩

/-! ## New nodes -/

variable {rootPath : Str} {v : Vnode}

/-- The node `c`, with the value `k`, is new at the path of its name in `p`. -/
structure Added (r r' : Ramfs) (p : List Str) (c : Nat) (k : RamfsNode) : Prop where
  tree : r'.Tree
  walk : ∀ q, r'.walk q = if q = p ++ [k.name] then some c else r.walk q
  node : r'.nodes c = some k
  free : r.nodes c = none
  new : r.walk (p ++ [k.name]) = none
  keep : ∀ t n, r.nodes t = some n → ∃ n', r'.nodes t = some n' ∧ Alike n n'
  only : ∀ t, t ≠ c → r.nodes t = none → r'.nodes t = none

/-- A node that was kept and did not come new was there before. -/
theorem old_of_keep {t : Nat} (hkeep : ∀ n, r.nodes t = some n → ∃ n', r'.nodes t = some n' ∧ Alike n n')
    (honly : r.nodes t = none → r'.nodes t = none) (hk : r'.nodes t = some k) :
    ∃ n, r.nodes t = some n ∧ Alike n k := by
  cases hn : r.nodes t with
  | none =>
    simp [honly hn] at hk
  | some n =>
    obtain ⟨n', hn', halike⟩ := hkeep n hn
    exact ⟨n, rfl, some.inj (hn'.symm.trans hk) ▸ halike⟩

/-- The kids of a directory of which none has a name. -/
theorem names_ne (hn : r.nodes d = some n) (hdir : n.type = .directory) (hL : r.Kids n.child L)
    (hnone : r.childOf d name = none) : ∀ t ∈ L, r.nameOf t ≠ name := by
  intro t ht heq
  simp [childOf_eq hn hdir hL, (hL.find?_eq_some).mpr ⟨ht, heq⟩] at hnone

theorem find?_concat (hsame : ∀ t ∈ L, r'.nameOf t = r.nameOf t) (hc : r'.nameOf c = name)
    (hnames : ∀ t ∈ L, r.nameOf t ≠ name) (m : Str) :
    (L ++ [c]).find? (r'.nameOf · = m) = if m = name then some c else L.find? (r.nameOf · = m) := by
  rw [List.find?_append, find?_nameOf_congr hsame]
  by_cases hm : m = name
  · subst hm
    have hnone : L.find? (r.nameOf · = m) = none :=
      List.find?_eq_none.mpr fun t ht => by simpa using hnames t ht
    rw [if_pos rfl, hnone, none_or, List.find?_cons_of_pos (by simpa using hc)]
  · have hcm : ¬ r'.nameOf c = m := fun h => hm (h.symm.trans hc)
    rw [if_neg hm, List.find?_cons_of_neg (by simpa using hcm), List.find?_nil, or_none]

/-- A node that was created and appended to a directory. -/
theorem added_of_edit (h : r.Tree) (hd : r.walk p = some d) (hn : r.nodes d = some n)
    (hdir : n.type = .directory) (hL : r.Kids n.child L) (hnone : r.childOf d k.name = none)
    (hfree : r.nodes c = none) (hchild : k.child = 0) (hk : r'.nodes c = some k)
    (hedit : Edit r r' d L (L ++ [c])) (honly : ∀ t, t ≠ c → r.nodes t = none → r'.nodes t = none) :
    Added r r' p c k := by
  have hnames := names_ne hn hdir hL hnone
  have hstay : ∀ t, t ∈ L → t ∈ L ++ [c] := fun t ht => mem_append_left [c] ht
  have hkids : r'.Kids k.child [] := by
    rw [hchild]
    exact ⟨rfl, nodup_nil, by simp, by simp⟩
  have hempty : ∀ m, r'.childOf c m = none := by
    intro m
    by_cases hkdir : k.type = .directory
    · exact childOf_eq hk hkdir hkids m
    · exact childOf_of_not_dir hk hkdir m
  have hsame := fun t ht => hedit.name_eq hL ht (hstay t ht)
  have hgone : ∀ t ∈ L, t ∉ L ++ [c] → r.nameOf t = k.name ∧ some c ≠ some t :=
    fun t ht hnot => absurd (hstay t ht) hnot
  have hwalk := hedit.walk_eq h hd hn hdir hL (find?_concat hsame (nameOf_eq hk) hnames) hgone
    (by rw [hnone]; nofun) (by rintro t ⟨⟩; exact ⟨hfree, hempty⟩)
  refine ⟨hedit.tree h hd hn hdir hL hgone ?_ hwalk, hwalk, hk, hfree, ?_, ?_, honly⟩
  · rintro t ⟨⟩
    exact ⟨hfree, k, hk, fun _ => ⟨[], hkids⟩⟩
  · rw [walk_concat, hd, bind_some, hnone]
  · intro t a ha
    obtain ⟨a', ha', halike, -⟩ := hedit.keep t a ha (hstay t)
    exact ⟨a', ha', halike⟩

section AddNode

variable {type : RamfsType} {init : RamfsNode → Ramfs → Option (RamfsNode × Ramfs)}

/-- The search for a kid, by the map from names to nodes. -/
theorem findSibling_eq_childOf (hn : r.nodes d = some n) (hdir : n.type = .directory)
    (hL : r.Kids n.child L) : r.findSibling name (2 ^ 64) n.child = some ((r.childOf d name).getD 0) := by
  rw [hL.findSibling, childOf_eq hn hdir hL]

section Calls

variable (hv : r.nodeOf rootPath v = some d) (hd : d ≠ 0) (hn : r.nodes d = some n)

include hv hd hn

theorem dirOf_eq :
    r.dirOf rootPath v = some (if n.type ≠ .directory then .error ENOTDIR else .ok (d, n)) := by
  unfold dirOf
  rw [hv, bind_eq_bind, bind_some, if_neg hd, hn, bind_eq_bind, bind_some]
  exact (apply_ite some _ _ _).symm

theorem addNode_of_not_dir (hdir : n.type ≠ .directory) :
    r.addNode rootPath v name type init = some (.error ENOTDIR, r) := by
  unfold addNode
  rw [dirOf_eq hv hd hn, if_pos hdir]
  rfl

theorem addNode_of_child (hdir : n.type = .directory) (hL : r.Kids n.child L) (hc : r.childOf d name = some c)
    (hc0 : c ≠ 0) : r.addNode rootPath v name type init = some (.error EEXIST, r) := by
  unfold addNode
  rw [dirOf_eq hv hd hn, if_neg (not_not_intro hdir), bind_eq_bind, bind_some]
  dsimp only
  rw [findSibling_eq_childOf hn hdir hL, hc, bind_eq_bind, bind_some]
  exact if_pos hc0

end Calls

/-- The next allocation of a node succeeds with the address `c`. -/
def Fresh (r : Ramfs) (c : Nat) (rest : List Nat) : Prop :=
  r.fresh = c :: rest ∧ c ≠ 0 ∧ c < 2 ^ 64 ∧ r.nodes c = none

variable {rest : List Nat}

theorem ramfsCreateNode_eq (h : r.Fresh c rest) (type : RamfsType) :
    ∃ m, r.ramfsCreateNode type = some (c, { r with
      nodes := update r.nodes c (some ⟨[], type, 0, 0, m, 0, 0⟩), fresh := rest }) := by
  obtain ⟨hfresh, hvalid⟩ := h
  unfold ramfsCreateNode
  rw [hfresh]
  exact ⟨_, if_pos hvalid⟩

theorem ramfsCreateNode_inv {type : RamfsType} (h : r.ramfsCreateNode type = some (c, r')) :
    ∃ rest m, r.Fresh c rest ∧ r' = { r with
      nodes := update r.nodes c (some ⟨[], type, 0, 0, m, 0, 0⟩), fresh := rest } := by
  unfold ramfsCreateNode at h
  cases hfresh : r.fresh with
  | nil =>
    simp [hfresh] at h
  | cons q rest =>
  rw [hfresh] at h
  dsimp only at h
  by_cases hvalid : q ≠ 0 ∧ q < 2 ^ 64 ∧ r.nodes q = none
  · rw [if_pos hvalid, some.injEq, Prod.mk.injEq] at h
    obtain ⟨rfl, rfl⟩ := h
    exact ⟨rest, _, ⟨hfresh, hvalid⟩, rfl⟩
  · rw [if_neg hvalid] at h
    cases h

section Calls

variable (h : r.Tree) (hv : r.nodeOf rootPath v = some d) (hd : r.walk p = some d)
  (hn : r.nodes d = some n) (hdir : n.type = .directory) (hnone : r.childOf d name = none)
  (hfresh : r.Fresh c rest)

include h hv hd hn hdir hnone hfresh

/-- A new name in a directory. -/
theorem addNode_of_init {m : Nat} {r1 : Ramfs} {heap : Kheap}
    (hr1 : r1 = { r with nodes := update r.nodes c (some ⟨[], type, 0, 0, m, 0, 0⟩), fresh := rest })
    (hcreate : r.ramfsCreateNode type = some (c, r1))
    (hinit : init ⟨name, type, 0, 0, m, 0, 0⟩ r1 = some (k, { r1 with heap := heap }))
    (hname : k.name = name) (hsibling : k.sibling = 0) (hchild : k.child = 0) :
    ∃ r', r.addNode rootPath v name type init = some (.ok c, r') ∧ Added r r' p c k ∧
      r'.heap = heap ∧ r'.fresh = rest := by
  obtain ⟨n', hn', hkids⟩ := h.node p d hd
  cases hn.symm.trans hn'
  obtain ⟨L, hL⟩ := hkids hdir
  subst hr1 hname
  let r1 : Ramfs := { r with
    nodes := update r.nodes c (some ⟨[], type, 0, 0, m, 0, 0⟩), fresh := rest }
  have hcreated : (Ramfs.setNode { r1 with heap := heap } c k).nodes = update r.nodes c (some k) :=
    update_idem ..
  obtain ⟨q, a, happend, hqc, hq, hedit⟩ := ramfsAppendChild_edit hn hdir hL hfresh.2.1 hfresh.2.2.1
    hfresh.2.2.2 (names_ne hn hdir hL hnone) hsibling hcreated rfl
  refine ⟨_, ?_, added_of_edit h hd hn hdir hL hnone hfresh.2.2.2 hchild ?_ hedit ?_, rfl, rfl⟩
  · unfold addNode
    rw [dirOf_eq hv (h.ne_zero hd).1 hn, if_neg (not_not_intro hdir), bind_eq_bind, bind_some]
    dsimp only
    rw [findSibling_eq_childOf hn hdir hL, hnone, bind_eq_bind, bind_some,
      if_neg (not_not_intro (show (none : Option Nat).getD 0 = 0 from rfl)), hcreate,
      bind_eq_bind, bind_some]
    dsimp only
    rw [update_self, bind_eq_bind, bind_some, hinit, bind_eq_bind, bind_some]
    dsimp only
    rw [happend]
    rfl
  · rw [setNode_of_ne hqc.symm, setNode_self]
  · intro t htc ht
    have htq : t ≠ q := by
      rintro rfl
      simp [ht] at hq
    rw [setNode_of_ne htq, setNode_of_ne htc]
    exact (update_of_ne htc ..).trans ht

/-- A new name in a directory; `P` says what `init` makes of the node and the heap. -/
theorem addNode_added {P : RamfsNode → Kheap → Prop}
    (hinit : ∀ m r1, r1.heap = r.heap → ∃ data size mode heap, init ⟨name, type, 0, 0, m, 0, 0⟩ r1 =
        some (⟨name, type, size, data, mode, 0, 0⟩, { r1 with heap := heap }) ∧
      P ⟨name, type, size, data, mode, 0, 0⟩ heap) :
    ∃ k r', r.addNode rootPath v name type init = some (.ok c, r') ∧ Added r r' p c k ∧
      k.name = name ∧ k.type = type ∧ k.child = 0 ∧ P k r'.heap ∧ r'.fresh = rest := by
  obtain ⟨m, hcreate⟩ := ramfsCreateNode_eq hfresh type
  let r1 : Ramfs := { r with
    nodes := update r.nodes c (some ⟨[], type, 0, 0, m, 0, 0⟩), fresh := rest }
  obtain ⟨data, size, mode, heap, hinit, hP⟩ := hinit m r1 rfl
  obtain ⟨r', hadd, hadded, hheap, hfresh'⟩ := addNode_of_init (k := ⟨name, type, size, data, mode, 0, 0⟩)
    h hv hd hn hdir hnone hfresh rfl hcreate hinit rfl rfl rfl
  exact ⟨_, r', hadd, hadded, rfl, rfl, rfl, hheap ▸ hP, hfresh'⟩

end Calls

/-- What a call that makes a node has done when it returns. -/
theorem addNode_inv {res : Except Int Nat} (h : r.Tree) (hv : r.nodeOf rootPath v = some d)
    (hd : r.walk p = some d)
    (hinit : ∀ m r1 k r2, init ⟨name, type, 0, 0, m, 0, 0⟩ r1 = some (k, r2) →
      k.name = name ∧ k.type = type ∧ k.sibling = 0 ∧ k.child = 0 ∧ r2 = { r1 with heap := r2.heap })
    (hadd : r.addNode rootPath v name type init = some (res, r')) :
    (∃ e, (e = ENOTDIR ∨ e = EEXIST) ∧ res = .error e ∧ r' = r) ∨
    ∃ c k, res = .ok c ∧ Added r r' p c k ∧ k.name = name ∧ k.type = type ∧ k.child = 0 ∧
      r.childOf d name = none ∧ (∃ n, r.nodes d = some n ∧ n.type = .directory) ∧
      (∃ rest, r.Fresh c rest) ∧
      ∃ m r1 r2, r1.heap = r.heap ∧ init ⟨name, type, 0, 0, m, 0, 0⟩ r1 = some (k, r2) ∧
        r'.heap = r2.heap := by
  obtain ⟨n, hn, hkids⟩ := h.node p d hd
  have hd0 := (h.ne_zero hd).1
  by_cases hdir : n.type = .directory
  · obtain ⟨L, hL⟩ := hkids hdir
    cases hc : r.childOf d name with
    | some c =>
      have hwalk : r.walk (p ++ [name]) = some c := by rw [walk_concat, hd, bind_some, hc]
      rw [addNode_of_child hv hd0 hn hdir hL hc (h.ne_zero hwalk).1] at hadd
      cases hadd
      exact .inl ⟨EEXIST, .inr rfl, rfl, rfl⟩
    | none =>
    have hstart := hadd
    unfold addNode at hstart
    rw [dirOf_eq hv hd0 hn, if_neg (not_not_intro hdir), bind_eq_bind, bind_some] at hstart
    dsimp only at hstart
    rw [findSibling_eq_childOf hn hdir hL, hc, bind_eq_bind, bind_some,
      if_neg (not_not_intro (show (none : Option Nat).getD 0 = 0 from rfl))] at hstart
    obtain ⟨⟨c, r1⟩, hcreate, hstart⟩ := bind_eq_some_iff.mp hstart
    obtain ⟨rest, m, hfresh, rfl⟩ := ramfsCreateNode_inv hcreate
    dsimp only at hstart
    rw [update_self, bind_eq_bind, bind_some] at hstart
    obtain ⟨⟨k, r2⟩, hk, -⟩ := bind_eq_some_iff.mp hstart
    obtain ⟨hname, htype, hsibling, hchild, hr2⟩ := hinit _ _ _ _ hk
    have hk' := hk
    rw [hr2] at hk'
    obtain ⟨r'', hadd', hadded, hheap, -⟩ := addNode_of_init h hv hd hn hdir hc hfresh rfl hcreate hk'
      hname hsibling hchild
    rw [hadd] at hadd'
    cases hadd'
    exact .inr ⟨c, k, rfl, hadded, hname, htype, hchild, rfl, ⟨n, hn, hdir⟩, ⟨rest, hfresh⟩, m,
      { r with nodes := update r.nodes c (some ⟨[], type, 0, 0, m, 0, 0⟩), fresh := rest }, r2, rfl,
      hk, hheap⟩
  · rw [addNode_of_not_dir hv hd0 hn hdir] at hadd
    cases hadd
    exact .inl ⟨ENOTDIR, .inl rfl, rfl, rfl⟩

end AddNode

/-! ## Removed nodes -/

section RemoveNode

variable {refuse : RamfsNode → Option Int} {drop : RamfsNode → Kheap → Option Kheap}

variable {C : List Nat} {e : RamfsNode}

/-- The loop passes the kids `A`, which have other names. -/
theorem removeFrom_pass {parent prev : Nat} (hchain : Chain r.siblingOf first (A ++ C))
    (halloc : ∀ t ∈ A, (r.nodes t).isSome) (hnames : ∀ t ∈ A, r.nameOf t ≠ name) :
    ∃ first', Chain r.siblingOf first' C ∧
      r.removeFrom refuse drop parent name (rounds + A.length) prev first =
        r.removeFrom refuse drop parent name rounds (A.getLast?.getD prev) first' := by
  induction A generalizing first prev with
  | nil => exact ⟨first, hchain, rfl⟩
  | cons a A ih =>
    obtain ⟨rfl, hne, hrest⟩ := hchain
    obtain ⟨m, hm⟩ := isSome_iff_exists.mp (halloc first mem_cons_self)
    have hother : m.name ≠ name := by
      rw [← nameOf_eq hm]
      exact hnames first mem_cons_self
    rw [siblingOf_eq hm] at hrest
    obtain ⟨first', hfirst, heq⟩ := @ih _ first hrest
      (fun t ht => halloc t (mem_cons_of_mem first ht))
      fun t ht => hnames t (mem_cons_of_mem first ht)
    refine ⟨first', hfirst, ?_⟩
    rw [length_cons, ← Nat.add_assoc, removeFrom, if_neg hne, hm, bind_eq_bind, bind_some,
      if_neg hother, heq, List.getLast?_cons]
    rfl

theorem without_subset (A : List Nat) (c : Nat) (C : List Nat) : A ++ C ⊆ A ++ c :: C :=
  ((sublist_cons_self c C).append_left A).subset

/-- The kids without one of them. -/
theorem Kids.without (hL : r.Kids first (A ++ c :: C))
    (hsame : ∀ t ∈ A ++ C, (r'.nodes t).isSome ∧ r'.nameOf t = r.nameOf t) {first' : Nat}
    (hchain : Chain r'.siblingOf first' (A ++ C)) : r'.Kids first' (A ++ C) := by
  have hsub := without_subset A c C
  refine ⟨hchain, ?_, fun t ht => ⟨(hsame t ht).1, (hL.alloc t (hsub ht)).2⟩, ?_⟩
  · exact hL.nodup.sublist (List.Sublist.append_left (sublist_cons_self c C) A)
  · intro a ha b hb heq
    rw [(hsame a ha).2, (hsame b hb).2] at heq
    exact hL.names a (hsub ha) b (hsub hb) heq

section

variable (hn : r.nodes d = some n) (hdir : n.type = .directory) (hL : r.Kids n.child (A ++ c :: C))
  (hdc : d ≠ c)

include hn hdir hL hdc

/-- An edit that takes out one kid: what is left to show is how the links run now. -/
theorem edit_without (hroot : r'.rootNode = r.rootNode)
    (hnode : ∀ t a, r.nodes t = some a → t ≠ c → ∃ a', r'.nodes t = some a' ∧ Alike a a' ∧
      (t ≠ d → a'.child = a.child) ∧ (t ∉ A ++ c :: C → a'.sibling = a.sibling))
    (hchain : ∀ n', r'.nodes d = some n' → Chain r'.siblingOf n'.child (A ++ C)) :
    Edit r r' d (A ++ c :: C) (A ++ C) := by
  have hcnot := (nodup_middle.mp hL.nodup).notMem
  have hcL : c ∈ A ++ c :: C := by simp
  obtain ⟨n', hn', halike, -⟩ := hnode d n hn hdc
  refine ⟨hroot, ⟨n', hn', halike.type_eq.trans hdir, hL.without (fun t ht => ?_) (hchain n' hn')⟩,
    fun t a ha hstay => ?_⟩
  · have htc : t ≠ c := fun h => hcnot (h ▸ ht)
    obtain ⟨a, ha⟩ := isSome_iff_exists.mp (hL.alloc t (without_subset A c C ht)).1
    obtain ⟨a', ha', halike, -⟩ := hnode t a ha htc
    exact ⟨by rw [ha']; rfl, by rw [nameOf_eq ha, nameOf_eq ha', halike.name_eq]⟩
  · have htc : t ≠ c := by
      rintro rfl
      exact hcnot (hstay hcL)
    exact hnode t a ha htc

/-- Taking a kid out of its directory and freeing it. -/
theorem unlinkNode_edit (he : r.nodes c = some e) :
    ∃ q m, r.unlinkNode d (A.getLast?.getD 0) c = some (r.setNode q m) ∧ (r.nodes q).isSome ∧
      ∀ heap, Edit r { (r.setNode q m).freeNode c with heap := heap } d (A ++ c :: C) (A ++ C) := by
  have hcnot := (nodup_middle.mp hL.nodup).notMem
  rcases eq_nil_or_concat A with rfl | ⟨A, q, rfl⟩
  · -- the first kid of the directory
    refine ⟨d, { n with child := e.sibling }, ?_, by rw [hn]; rfl, fun heap => ?_⟩
    · unfold unlinkNode
      rw [he, bind_eq_bind, bind_some, if_pos (by rfl), hn]
      rfl
    have hself : ((r.setNode d { n with child := e.sibling }).freeNode c).nodes d =
        some { n with child := e.sibling } := (freeNode_of_ne hdc _).trans (setNode_self ..)
    have hother : ∀ t, t ≠ c → t ≠ d →
        ((r.setNode d { n with child := e.sibling }).freeNode c).nodes t = r.nodes t :=
      fun t htc htd => (freeNode_of_ne htc _).trans (setNode_of_ne htd ..)
    refine edit_without hn hdir hL hdc rfl (fun t a ha htc => ?_) fun n' hn' => ?_
    · by_cases htd : t = d
      · subst htd
        cases hn.symm.trans ha
        exact ⟨_, hself, rfl, fun h => absurd rfl h, fun _ => rfl⟩
      · exact ⟨a, (hother t htc htd).trans ha, Alike.refl a, fun _ => rfl, fun _ => rfl⟩
    · obtain rfl := some.inj (hself.symm.trans hn')
      obtain ⟨-, -, hrest⟩ := hL.chain
      rw [siblingOf_eq he] at hrest
      refine hrest.congr fun t ht => ?_
      have htc : t ≠ c := fun h => hcnot (h ▸ ht)
      by_cases htd : t = d
      · subst htd
        rw [siblingOf_eq hn]
        exact (siblingOf_eq hn' :)
      · unfold siblingOf
        rw [show _ = r.nodes t from hother t htc htd]
  · rw [concat_eq_append] at *
    have hq : q ∈ A ++ [q] ++ c :: C := by simp
    have hqc : q ≠ c := by
      rintro rfl
      exact hcnot (by simp)
    have hqz : q ≠ 0 := hL.chain.ne_zero hq
    obtain ⟨m, hm⟩ := isSome_iff_exists.mp (hL.alloc q hq).1
    refine ⟨q, { m with sibling := e.sibling }, ?_, by rw [hm]; rfl, fun heap => ?_⟩
    · unfold unlinkNode
      rw [he, bind_eq_bind, bind_some, List.getLast?_concat, getD_some, if_neg hqz, hm]
      rfl
    have hnode : ∀ t a, r.nodes t = some a → t ≠ c → ∃ a',
        ((r.setNode q { m with sibling := e.sibling }).freeNode c).nodes t = some a' ∧ Alike a a' ∧
          a'.child = a.child ∧ a'.sibling = if t = q then e.sibling else a.sibling := by
      intro t a ha htc
      by_cases htq : t = q
      · subst htq
        cases hm.symm.trans ha
        exact ⟨_, (freeNode_of_ne hqc _).trans (setNode_self ..), rfl, rfl, (if_pos rfl).symm⟩
      · refine ⟨a, ?_, Alike.refl a, rfl, (if_neg htq).symm⟩
        exact ((freeNode_of_ne htc _).trans (setNode_of_ne htq ..)).trans ha
    refine edit_without hn hdir hL hdc rfl (fun t a ha htc => ?_) fun n' hn' => ?_
    · obtain ⟨a', ha', halike, hchild, hsib⟩ := hnode t a ha htc
      refine ⟨a', ha', halike, fun _ => hchild, fun htL => ?_⟩
      have htq : t ≠ q := fun hc => htL (hc ▸ hq)
      rw [hsib, if_neg htq]
    obtain ⟨n1, hn1, -, hchild, -⟩ := hnode d n hn hdc
    cases hn1.symm.trans hn'
    have hchain := hL.chain
    have hnodup := hL.nodup
    rw [append_assoc, singleton_append] at hchain hnodup
    rw [hchild, append_assoc, singleton_append]
    refine (hchain.unlink hnodup).congr fun t ht => ?_
    have hmem : t ∈ A ++ [q] ++ C := by simpa using ht
    obtain ⟨a, ha⟩ := isSome_iff_exists.mp (hL.alloc t (without_subset _ c C hmem)).1
    obtain ⟨a', ha', -, -, hsib⟩ := hnode t a ha fun h => hcnot (h ▸ hmem)
    rw [update_apply, siblingOf_eq ha, siblingOf_eq he, ← hsib]
    exact siblingOf_eq ha'

end

theorem find?_without (hL : r.Kids first (A ++ c :: C)) (hname : r.nameOf c = name)
    (hsame : ∀ t ∈ A ++ C, r'.nameOf t = r.nameOf t) (m : Str) : (A ++ C).find? (r'.nameOf · = m) =
      if m = name then none else (A ++ c :: C).find? (r.nameOf · = m) := by
  rw [find?_nameOf_congr hsame]
  by_cases hm : m = name
  · rw [if_pos hm, List.find?_eq_none]
    intro t ht heq
    have htc := hL.names t (without_subset A c C ht) c (by simp) (by rw [hname, ← hm]; simpa using heq)
    exact (nodup_middle.mp hL.nodup).notMem (htc ▸ ht)
  · have hcm : ¬ r.nameOf c = m := fun h => hm (h.symm.trans hname)
    rw [if_neg hm, List.find?_append, List.find?_append, List.find?_cons_of_neg (by simpa using hcm)]

/-- The node `c`, which had no kids, is gone from the path of its name in `p`. -/
structure Removed (r r' : Ramfs) (p : List Str) (name : Str) (c : Nat) : Prop where
  tree : r'.Tree
  walk : ∀ q, r'.walk q = if q = p ++ [name] then none else r.walk q
  gone : r'.nodes c = none
  keep : ∀ t n, t ≠ c → r.nodes t = some n → ∃ n', r'.nodes t = some n' ∧ Alike n n'
  only : ∀ t, r.nodes t = none → r'.nodes t = none

/-- A kid splits the list of kids; those before it have other names. -/
theorem Kids.split (hL : r.Kids first L) (hc : L.find? (r.nameOf · = name) = some c) :
    ∃ A C, L = A ++ c :: C ∧ ∀ t ∈ A, r.nameOf t ≠ name := by
  obtain ⟨hmem, hname⟩ := hL.find?_eq_some.mp hc
  obtain ⟨A, C, rfl⟩ := append_of_mem hmem
  refine ⟨A, C, rfl, fun t ht heq => ?_⟩
  have htc := hL.names t (mem_append_left _ ht) c hmem (heq.trans hname.symm)
  exact (nodup_middle.mp hL.nodup).notMem (htc ▸ mem_append_left C ht)

section Calls

variable (hv : r.nodeOf rootPath v = some d) (hd : d ≠ 0) (hn : r.nodes d = some n)

include hv hd hn

theorem removeNode_of_not_dir (hdir : n.type ≠ .directory) :
    r.removeNode rootPath v name refuse drop = some (ENOTDIR, r) := by
  unfold removeNode
  rw [dirOf_eq hv hd hn, if_pos hdir]
  rfl

variable (hdir : n.type = .directory)

include hdir

theorem removeNode_of_dir : r.removeNode rootPath v name refuse drop =
      r.removeFrom refuse drop d name (2 ^ 64) 0 n.child := by
  unfold removeNode
  rw [dirOf_eq hv hd hn, if_neg (not_not_intro hdir)]
  rfl

variable (hL : r.Kids n.child L)

include hL

theorem removeNode_of_none (hnone : r.childOf d name = none) :
    r.removeNode rootPath v name refuse drop = some (ENOENT, r) := by
  obtain ⟨rounds, hrounds⟩ := Nat.exists_eq_add_of_lt hL.length_lt
  obtain ⟨first', hfirst, heq⟩ := removeFrom_pass (C := []) (by rw [append_nil]; exact hL.chain)
    (fun t ht => (hL.alloc t ht).1) (names_ne hn hdir hL hnone)
  rw [removeNode_of_dir hv hd hn hdir, show 2 ^ 64 = rounds + 1 + L.length by omega, heq, removeFrom,
    if_pos (show first' = 0 from hfirst)]

variable (refuse drop) in
/-- The loop at the kid with the name. -/
theorem removeNode_of_child (hc : r.childOf d name = some c) (he : r.nodes c = some e) :
    r.nameOf c = name ∧ ∃ A C, L = A ++ c :: C ∧ r.removeNode rootPath v name refuse drop =
      (match refuse e with
      | some err => some (err, r)
      | none => do
        let r ← r.unlinkNode d (A.getLast?.getD 0) c
        let heap ← drop e r.heap
        some (EOK, { r.freeNode c with heap := heap })) := by
  rw [childOf_eq hn hdir hL] at hc
  have hname := (hL.find?_eq_some.mp hc).2
  obtain ⟨A, C, rfl, hnames⟩ := hL.split hc
  refine ⟨hname, A, C, rfl, ?_⟩
  have hlen := hL.length_lt
  rw [length_append] at hlen
  obtain ⟨rounds, hrounds⟩ := Nat.exists_eq_add_of_lt (show A.length < 2 ^ 64 by omega)
  obtain ⟨first', ⟨rfl, hne, -⟩, heq⟩ := removeFrom_pass hL.chain
    (fun t ht => (hL.alloc t (mem_append_left _ ht)).1) hnames
  rw [removeNode_of_dir hv hd hn hdir, show 2 ^ 64 = rounds + 1 + A.length by omega, heq, removeFrom,
    if_neg hne, he, bind_eq_bind, bind_some]
  exact if_pos ((nameOf_eq he).symm.trans hname)

theorem removeNode_refused {err : Int} (hc : r.childOf d name = some c) (he : r.nodes c = some e)
    (herr : refuse e = some err) : r.removeNode rootPath v name refuse drop = some (err, r) := by
  obtain ⟨-, A, C, -, heq⟩ := removeNode_of_child refuse drop hv hd hn hdir hL hc he
  rw [heq, herr]

end Calls

section

variable (h : r.Tree) (hv : r.nodeOf rootPath v = some d) (hd : r.walk p = some d)

include h hv hd

variable (drop) in
theorem removeNode_removed (hn : r.nodes d = some n)
    (hdir : n.type = .directory) (hc : r.childOf d name = some c) (he : r.nodes c = some e)
    (hok : refuse e = none) (hempty : ∀ m, r.childOf c m = none) :
    ∃ r' : Ramfs, r.removeNode rootPath v name refuse drop =
        (drop e r.heap).map (fun heap => (EOK, { r' with heap := heap })) ∧
      ∀ heap, Removed r { r' with heap := heap } p name c := by
  obtain ⟨n', hn', hkids⟩ := h.node p d hd
  cases hn.symm.trans hn'
  obtain ⟨L, hL⟩ := hkids hdir
  have hwalkc : r.walk (p ++ [name]) = some c := by
    rw [walk_concat, hd, bind_some, hc]
  have hdc : d ≠ c := by
    rintro rfl
    simpa using h.path_eq hd hwalkc
  obtain ⟨hcname, A, C, rfl, hrem⟩ := removeNode_of_child refuse drop hv (h.ne_zero hd).1 hn hdir hL hc he
  obtain ⟨q, m, hunlink, hq, hedit⟩ := unlinkNode_edit hn hdir hL hdc he
  refine ⟨(r.setNode q m).freeNode c, ?_, fun heap => ?_⟩
  · rw [hrem, hok]
    dsimp only
    rw [hunlink, bind_eq_bind, bind_some]
    change (do let heap ← drop e r.heap; _) = _
    cases drop e r.heap <;> rfl
  have hedit := hedit heap
  have hsame := fun t ht => hedit.name_eq hL (without_subset A c C ht) (c := t) ht
  have hgone : ∀ t ∈ A ++ c :: C, t ∉ A ++ C → r.nameOf t = name ∧ none ≠ some t := by
    intro t ht hnot
    obtain rfl : t = c := by
      by_contra hne
      simp [hne] at ht hnot
      tauto
    exact ⟨hcname, nofun⟩
  have hwalk := hedit.walk_eq h hd hn hdir hL (find?_without hL hcname hsame) hgone
    (fun t ht => by rw [hc] at ht; cases ht; exact hempty) nofun
  refine ⟨hedit.tree h hd hn hdir hL hgone nofun hwalk, hwalk, freeNode_self .., ?_, ?_⟩
  · intro t a htc ha
    obtain ⟨a', ha', halike, -⟩ := hedit.keep t a ha fun ht => by simp [htc] at ht ⊢; tauto
    exact ⟨a', ha', halike⟩
  intro t ht
  by_cases htc : t = c
  · rw [htc]
    exact freeNode_self ..
  · have htq : t ≠ q := by
      rintro rfl
      simp [ht] at hq
    exact ((freeNode_of_ne htc _).trans (setNode_of_ne htq ..)).trans ht

/-- What a call that removes a node has done when it returns. -/
theorem removeNode_inv {err : Int}
    (hempty : ∀ c e, r.nodes c = some e → refuse e = none → r.walk (p ++ [name]) = some c →
      ∀ m, r.childOf c m = none) (hrem : r.removeNode rootPath v name refuse drop = some (err, r')) :
    (r' = r ∧ (err = ENOTDIR ∨ err = ENOENT ∨
      ∃ c e, r.childOf d name = some c ∧ r.nodes c = some e ∧ refuse e = some err)) ∨
    ∃ c e, err = EOK ∧ r.walk (p ++ [name]) = some c ∧ r.nodes c = some e ∧ refuse e = none ∧
      drop e r.heap = some r'.heap ∧ Removed r r' p name c := by
  obtain ⟨n, hn, hkids⟩ := h.node p d hd
  have hd0 := (h.ne_zero hd).1
  by_cases hdir : n.type = .directory
  · obtain ⟨L, hL⟩ := hkids hdir
    cases hc : r.childOf d name with
    | none =>
      rw [removeNode_of_none hv hd0 hn hdir hL hc] at hrem
      cases hrem
      exact .inl ⟨rfl, .inr (.inl rfl)⟩
    | some c =>
    have hwalk : r.walk (p ++ [name]) = some c := by rw [walk_concat, hd, bind_some, hc]
    obtain ⟨e, he, -⟩ := h.node _ c hwalk
    cases hr : refuse e with
    | some err' =>
      rw [removeNode_refused hv hd0 hn hdir hL hc he hr] at hrem
      cases hrem
      exact .inl ⟨rfl, .inr (.inr ⟨c, e, rfl, he, hr⟩)⟩
    | none =>
      obtain ⟨r'', heq, hremoved⟩ :=
        removeNode_removed drop h hv hd hn hdir hc he hr (hempty c e he hr hwalk)
      obtain ⟨heap, hdrop, heq⟩ := map_eq_some_iff.mp (heq.symm.trans hrem)
      cases heq
      exact .inr ⟨c, e, rfl, hwalk, he, hr, hdrop, hremoved heap⟩
  · rw [removeNode_of_not_dir hv hd0 hn hdir] at hrem
    cases hrem
    exact .inl ⟨rfl, .inl rfl⟩

end

end RemoveNode

end Lapis.Fs.Ramfs
