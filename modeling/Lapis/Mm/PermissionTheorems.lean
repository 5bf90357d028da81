/-
Lapis.Mm.PermissionTheorems — the permissions a page really has.

On x86 an access may be a user's if all four entries on the way to a page allow it, a write if all
four allow it, and execution is off if one of them forbids it. `map_page` gives the entries of new
tables write access and no NX bit, so these two permissions are always those of the leaf. User
access it gives to new tables only when the mapping that needs them is a user mapping, and it never
changes the entry of a table that exists: a user page below a table that a kernel mapping built
stays out of reach. `map_page_effective_iff` says when the permissions are those asked for.
-/
import Lapis.Mm.PageTableTheorems

namespace Lapis.Mm

open Function List Option Lib

namespace Phys

/-! ## Effective permissions -/

structure Perms where
  user : Bool
  write : Bool
  nx : Bool
  deriving DecidableEq, Repr

/-- The present entries along a path, up to the first one that is not. -/
def walk (mem : Memory) : Pfn → List (Fin 512) → List (BitVec 64)
  | _, [] => []
  | t, i :: p =>
    match present (mem t i) with
    | none => []
    | some e => e :: walk mem (leafFrame e) p

/-- The entries of tables on the way to an address. -/
def tableEntries (s : Phys) (pt : Pfn) (v : Nat) : List (BitVec 64) :=
  walk s.mem pt [pml4Index v, pml3Index v, pml2Index v]

/-- What the processor allows at an address. -/
def effective (s : Phys) (pt : Pfn) (v : Nat) : Option Perms :=
  let es := walk s.mem pt [pml4Index v, pml3Index v, pml2Index v, pml1Index v]
  if es.length = 4 then
    some ⟨es.all (has · pflagUser), es.all (has · pflagWrite), es.any (has · pflagNx)⟩
  else none

/-- What a caller of `map_page` asks for. -/
def requested (flags : BitVec 64) : Perms :=
  ⟨has flags pflagUser, has flags pflagWrite, has flags pflagNx⟩

/-- The entry at an index of the table at a path. -/
def entryAt (V : Spaces) (mem : Memory) (k : Nat) (p : List (Fin 512)) (i : Fin 512) :
    Option (BitVec 64) :=
  ((forest V mem).node k p).bind fun t => present (mem t i)

variable {p : List (Fin 512)}

section Walk

variable {V : Spaces} {mem : Memory} {t pt : Pfn} {e : BitVec 64} {k n : Nat}

theorem walk_concat (i : Fin 512) : walk mem t (p ++ [i]) = walk mem t p ++
    (((forest V mem).descend t p).bind fun u => present (mem u i)).toList := by
  induction p generalizing t with
  | nil =>
    change walk mem t [i] = (present (mem t i)).toList
    rw [walk]
    cases present (mem t i) <;> rfl
  | cons j p ih =>
    rw [cons_append, walk, walk, Forest.descend, forest_child]
    cases present (mem t j) with
    | none => rfl
    | some e => exact congrArg (e :: ·) ih

theorem mem_walk : e ∈ walk mem t p ↔ ∃ q i r, p = q ++ i :: r ∧
      (((forest V mem).descend t q).bind fun u => present (mem u i)) = some e := by
  induction p using List.reverseRecOn with
  | nil => simp [walk]
  | append_singleton p j ih =>
    rw [walk_concat (V := V), mem_append, ih, mem_toList]
    constructor
    · rintro (⟨q, i, r, rfl, hq⟩ | hj)
      · exact ⟨q, i, r ++ [j], by simp, hq⟩
      · exact ⟨p, j, [], rfl, hj⟩
    rintro ⟨q, i, r, hp, hq⟩
    rcases eq_nil_or_concat r with rfl | ⟨r, j', rfl⟩
    · obtain ⟨rfl, hij⟩ := append_inj' hp rfl
      obtain ⟨rfl, -⟩ := List.cons.inj hij
      exact .inr hq
    · refine .inl ⟨q, i, r, ?_, hq⟩
      rw [concat_eq_append, ← cons_append, ← append_assoc] at hp
      exact (append_inj' hp rfl).1

theorem length_walk : (walk mem t p).length = p.length ↔ (forest V mem).descend t p ≠ none := by
  induction p generalizing t with
  | nil => exact ⟨fun _ => some_ne_none t, fun _ => rfl⟩
  | cons j p ih =>
    rw [walk, Forest.descend, forest_child]
    cases present (mem t j) with
    | none => simp
    | some e =>
      rw [length_cons, length_cons, Nat.add_right_cancel_iff]
      exact ih

/-- A whole walk is the same where its entries stay. -/
theorem walk_grows {mem' : Memory} (hfull : (forest V mem).descend t p ≠ none)
    (hgrows : ∀ q i r e, p = q ++ i :: r →
      (((forest V mem).descend t q).bind fun u => present (mem u i)) = some e →
      (((forest V mem').descend t q).bind fun u => present (mem' u i)) = some e) :
    walk mem' t p = walk mem t p := by
  induction p generalizing t with
  | nil => rfl
  | cons j p ih =>
    rw [Forest.descend, forest_child] at hfull
    cases hj : present (mem t j) with
    | none =>
      rw [hj] at hfull
      exact absurd rfl hfull
    | some e =>
    have hj' : present (mem' t j) = some e := hgrows [] j p e rfl hj
    rw [hj] at hfull
    rw [walk, walk, hj, hj']
    refine congrArg (e :: ·) (ih hfull fun q i r e' hp he => ?_)
    have := hgrows (j :: q) i r e' (by rw [hp, cons_append])
    rw [Forest.descend, Forest.descend, forest_child, forest_child, hj, hj'] at this
    exact this he

section

variable (hroot : V.root k = some pt)

include hroot

theorem descend_root (p : List (Fin 512)) : (forest V mem).descend pt p = (forest V mem).node k p := by
  rw [Forest.node]
  change _ = (V.root k).bind _
  rw [hroot]
  rfl

/-- The entries of tables on the way to a page. -/
theorem mem_walk_path : e ∈ walk mem pt (path n) ↔
      ∃ p i r, path n = p ++ i :: r ∧ entryAt V mem k p i = some e := by
  simp only [mem_walk (V := V), descend_root hroot, entryAt]

/-- The entries on the way to a page are those of tables and the leaf. -/
theorem walk_page (hleaf : leaf V mem k n = some e) :
    walk mem pt (path n ++ [slot n]) = walk mem pt (path n) ++ [e] := by
  rw [walk_concat (V := V), descend_root hroot]
  exact congrArg (_ ++ Option.toList ·) hleaf

theorem length_walk_page : (walk mem pt (path n ++ [slot n])).length = 4 ↔ leaf V mem k n ≠ none := by
  have hlen : (path n ++ [slot n]).length = 4 := rfl
  rw [← hlen, length_walk (V := V), Forest.descend_append, descend_root hroot, leaf]
  cases (forest V mem).node k (path n) with
  | none => simp
  | some t =>
    rw [bind_some, bind_some, Forest.descend, forest_child]
    cases present (mem t (slot n)) <;> simp [Forest.descend]

end

end Walk

/-! ## The bits of entries -/

/-- The entry of a table `map_page` built. -/
def IsTableEntry (flags e : BitVec 64) : Prop := ∃ u < 2 ^ 40, e = physOf u ||| tableFlags flags

section Bits

variable {flags e : BitVec 64} {page : Nat}

theorem requested_leafOf (hp : page < 2 ^ 40) (flags : BitVec 64) :
    requested (leafOf page flags) = requested flags := by
  unfold requested pflagUser pflagWrite pflagNx
  simp only [has_twoPow]
  rw [getLsbD_leafOf hp flags (by decide) (by decide) (by decide),
    getLsbD_leafOf hp flags (by decide) (by decide) (by decide),
    getLsbD_leafOf hp flags (by decide) (by decide) (by decide)]

/-- A new table can be written through and executed from, and it is a user's as asked for. -/
theorem IsTableEntry.requested (h : IsTableEntry flags e) :
    requested e = ⟨has flags pflagUser, true, false⟩ := by
  obtain ⟨u, hu, rfl⟩ := h
  unfold Phys.requested pflagUser pflagWrite pflagNx
  simp only [has_twoPow, BitVec.getLsbD_or]
  rw [getLsbD_physOf_out hu (by decide) (by decide), getLsbD_physOf_out hu (by decide) (by decide),
    getLsbD_physOf_out hu (by decide) (by decide)]
  have hflags : has flags pflagUser = flags.getLsbD 2 := has_twoPow _ _
  unfold tableFlags
  rw [hflags]
  cases flags.getLsbD 2 <;> decide

end Bits

/-! ## Entries of tables -/

variable {e' : BitVec 64}

section Entries

variable {V : Spaces} {s s' : Phys} {mem : Memory} {k n : Nat} {p : List (Fin 512)} {i : Fin 512}
  {t : Pfn} {e flags : BitVec 64}

theorem Builds.entryAt_grows (h : Builds V flags s s') (hp : inner V.top p)
    (he : entryAt V s.mem k p i = some e) : entryAt V s'.mem k p i = some e := by
  obtain ⟨t, ht, he⟩ := bind_eq_some_iff.mp he
  rw [entryAt, h.node hp ht]
  exact h.grows t ⟨k, p, hp, ht⟩ i e he

theorem Builds.entryAt_cases (h : Builds V flags s s') (hp : inner V.top p)
    (he : entryAt V s'.mem k p i = some e) : entryAt V s.mem k p i = some e ∨ IsTableEntry flags e := by
  obtain ⟨t, ht, he⟩ := bind_eq_some_iff.mp he
  rcases h.fresh t ⟨k, p, hp, ht⟩ i e he with ⟨⟨k', p', hp', ht'⟩, hold⟩ | hnew
  · -- the table stood at the same path before
    obtain ⟨rfl, rfl⟩ :=
      h.quiet.step.tables.separated k' p' k p t hp' hp (h.node hp' ht') ht
    left
    rwa [entryAt, ht']
  · exact .inr hnew

theorem Prunes.entryAt (h : Prunes V s s') (hp : inner V.top p)
    (he : Phys.entryAt V s'.mem k p i = some e) : Phys.entryAt V s.mem k p i = some e := by
  obtain ⟨t, ht, he⟩ := bind_eq_some_iff.mp he
  rw [Phys.entryAt, h.node hp ht]
  exact h.present_of he

theorem entryAt_setLeaf (hsep : (forest V mem).Separated (inner V.top)) (hn : Below V.top n)
    (ht : (forest V mem).node k (path n) = some t) {k' : Nat} (hp : inner V.top (p ++ [i])) :
    entryAt V (update mem t (update (mem t) (slot n) e)) k' p i = entryAt V mem k' p i := by
  have hp' := (inner_closed V.top).2 p i hp
  rw [entryAt, entryAt, node_setLeaf hsep hn ht hp']
  cases hu : (forest V mem).node k' p with
  | none => rfl
  | some u =>
  have hut : u ≠ t := by
    rintro rfl
    have heq := (hsep k' p k (path n) u hp' (inner_path hn) hu ht).2
    have hlen := hp.1
    rw [length_append, heq] at hlen
    exact absurd hlen (Nat.not_succ_le_self 3)
  rw [bind_some, bind_some, update_of_ne hut]

/-- Tables can be written through and executed from. -/
def PlainTables (V : Spaces) (mem : Memory) : Prop :=
  ∀ k p i e, inner V.top (p ++ [i]) → entryAt V mem k p i = some e →
    has e pflagWrite = true ∧ has e pflagNx = false

theorem IsTableEntry.plain (h : IsTableEntry flags e) : has e pflagWrite = true ∧ has e pflagNx = false := by
  have := h.requested
  unfold Phys.requested at this
  exact ⟨congrArg Perms.write this, congrArg Perms.nx this⟩

theorem Builds.plain (h : Builds V flags s s') (hplain : PlainTables V s.mem) : PlainTables V s'.mem := by
  intro k p i e hp he
  rcases h.entryAt_cases ((inner_closed V.top).2 p i hp) he with hold | hnew
  · exact hplain k p i e hp hold
  · exact hnew.plain

theorem WritesLeaf.plain (h : WritesLeaf V flags s s' k n e')
    (hn : Below V.top n) (hplain : PlainTables V s.mem) : PlainTables V s'.mem := by
  obtain ⟨s1, t, hbuilds, ht, -, hmem⟩ := h
  intro k' p i e hp he
  rw [hmem, entryAt_setLeaf hbuilds.quiet.step.tables.separated hn ht hp] at he
  exact hbuilds.plain hplain k' p i e hp he

theorem ClearsLeaf.plain (h : ClearsLeaf V s s' k n)
    (hsep : (forest V s.mem).Separated (inner V.top)) (hn : Below V.top n)
    (hplain : PlainTables V s.mem) : PlainTables V s'.mem := by
  obtain ⟨s1, t, ht, hmem, hprunes, -⟩ := h
  intro k' p i e hp he
  have he1 := hprunes.entryAt ((inner_closed V.top).2 p i hp) he
  rw [hmem, entryAt_setLeaf hsep hn ht hp] at he1
  exact hplain k' p i e hp he1

end Entries

/-! ## Runs -/

section Run

variable {pt : Pfn} {s₀ s s' : Phys} {v v' : Nat} {flags e : BitVec 64} {page : Pfn}

theorem Reaches.plain (h0 : EmptyRoot pt s₀) (hrun : Reaches pt s₀ s) : PlainTables (lowerHalf pt) s.mem := by
  induction hrun with
  | init =>
    intro k p i e hp he
    obtain ⟨t, ht, hpresent⟩ := bind_eq_some_iff.mp he
    obtain ⟨-, rfl, rfl⟩ := h0.node ((inner_closed 256).2 p i hp) ht
    rw [h0.empty i (hp.2 i rfl), present_zero] at hpresent
    cases hpresent
  | @next s _ op _ hs hok hstep ih =>
    obtain rfl := some.inj hstep
    obtain ⟨bal, h⟩ := Reaches.grown hs h0
    cases op with
    | map v page flags =>
      rcases h.map_cases hok with ⟨hbuilds, -⟩ | ⟨-, hwrites, -⟩
      · exact hbuilds.plain ih
      · exact hwrites.plain (below_of_lt hok.1) ih
    | unmap v =>
      rcases (h.unmap_cases hok).2.1 with hsame | hclears
      · rwa [PageOp.run, hsame]
      · exact hclears.plain h.mapped.tables.separated (below_of_lt hok) ih

theorem effective_eq (s : Phys) (pt : Pfn) (v : Nat) :
    s.effective pt v = let es := walk s.mem pt (path (pageNo v) ++ [slot (pageNo v)])
      if es.length = 4 then
        some ⟨es.all (has · pflagUser), es.all (has · pflagWrite), es.any (has · pflagNx)⟩
      else none := by
  obtain ⟨hidx, hslot⟩ := index_eq v
  rw [← hidx, ← hslot]
  rfl

theorem tableEntries_eq (s : Phys) (pt : Pfn) (v : Nat) :
    s.tableEntries pt v = walk s.mem pt (path (pageNo v)) := by
  rw [← (index_eq v).1]
  rfl

/-- The permissions of a page are told by its leaf and the entries of tables above it. -/
theorem effective_of_leaf (hleaf : leaf (lowerHalf pt) s.mem 0 (pageNo v) = some e) : s.effective pt v = some
      ⟨(s.tableEntries pt v).all (has · pflagUser) && has e pflagUser,
        (s.tableEntries pt v).all (has · pflagWrite) && has e pflagWrite,
        (s.tableEntries pt v).any (has · pflagNx) || has e pflagNx⟩ := by
  have hlen := (length_walk_page (root_lowerHalf pt)).mpr (hleaf ▸ some_ne_none e)
  rw [effective_eq, tableEntries_eq]
  dsimp only
  rw [if_pos hlen, walk_page (root_lowerHalf pt) hleaf]
  simp

theorem effective_eq_none (hleaf : leaf (lowerHalf pt) s.mem 0 (pageNo v) = none) :
    s.effective pt v = none := by
  rw [effective_eq]
  refine if_neg fun hlen => ?_
  exact (length_walk_page (root_lowerHalf pt)).mp hlen hleaf

theorem mem_tableEntries : e ∈ s.tableEntries pt v ↔
    ∃ p i r, path (pageNo v) = p ++ i :: r ∧ entryAt (lowerHalf pt) s.mem 0 p i = some e := by
  rw [tableEntries_eq]
  exact mem_walk_path (root_lowerHalf pt)

theorem inner_of_path (pt : Pfn) {i : Fin 512} {r : List (Fin 512)} (hv : v < 2 ^ 47)
    (hpath : path (pageNo v) = p ++ i :: r) : inner (lowerHalf pt).top (p ++ [i]) := by
  refine (inner_closed _).of_append (r := r) ?_
  rw [append_assoc, singleton_append, ← hpath]
  exact inner_path (below_of_lt hv)

section

variable (h : WritesLeaf (lowerHalf pt) flags s s' 0 (pageNo v) e') (hv : v < 2 ^ 47)

include h hv

/-- The entries of tables are old ones and those of new tables. -/
theorem WritesLeaf.tableEntries :
    (∀ e ∈ s'.tableEntries pt v, e ∈ s.tableEntries pt v ∨ IsTableEntry flags e) ∧
      ∀ e ∈ s.tableEntries pt v, e ∈ s'.tableEntries pt v := by
  obtain ⟨s1, t, hbuilds, ht, -, hmem⟩ := h
  have hsep := hbuilds.quiet.step.tables.separated
  refine ⟨fun e he => ?_, fun e he => ?_⟩
  · obtain ⟨p, i, r, hpath, hentry⟩ := mem_tableEntries.mp he
    have hp := inner_of_path pt hv hpath
    rw [hmem, entryAt_setLeaf hsep (below_of_lt hv) ht hp] at hentry
    refine (hbuilds.entryAt_cases ((inner_closed _).2 p i hp) hentry).imp_left fun hold => ?_
    exact mem_tableEntries.mpr ⟨p, i, r, hpath, hold⟩
  · obtain ⟨p, i, r, hpath, hentry⟩ := mem_tableEntries.mp he
    have hp := inner_of_path pt hv hpath
    refine mem_tableEntries.mpr ⟨p, i, r, hpath, ?_⟩
    rw [hmem, entryAt_setLeaf hsep (below_of_lt hv) ht hp]
    exact hbuilds.entryAt_grows ((inner_closed _).2 p i hp) hentry

/-- Another page keeps its entries when a leaf is set. -/
theorem WritesLeaf.effective_other (hv' : v' < 2 ^ 47)
    (hleaf : leaf (lowerHalf pt) s'.mem 0 (pageNo v') = leaf (lowerHalf pt) s.mem 0 (pageNo v')) :
    s'.effective pt v' = s.effective pt v' := by
  obtain ⟨s1, t, hbuilds, ht, -, hmem⟩ := h
  have hsep := hbuilds.quiet.step.tables.separated
  cases hold : leaf (lowerHalf pt) s.mem 0 (pageNo v') with
  | none =>
    rw [effective_eq_none hold, effective_eq_none (hleaf.trans hold)]
  | some e =>
  have hroot := root_lowerHalf pt
  have hentries : s'.tableEntries pt v' = s.tableEntries pt v' := by
    rw [tableEntries_eq, tableEntries_eq]
    refine walk_grows (V := lowerHalf pt) ?_ fun q i r e hpath he => ?_
    · obtain ⟨u, hu, -⟩ := bind_eq_some_iff.mp hold
      rw [descend_root hroot, hu]
      exact some_ne_none u
    · have hq := inner_of_path pt hv' hpath
      rw [descend_root hroot] at he ⊢
      have hentry := hbuilds.entryAt_grows ((inner_closed _).2 q i hq) he
      rwa [← entryAt_setLeaf hsep (below_of_lt hv) ht hq, ← hmem] at hentry
  rw [effective_of_leaf hold, effective_of_leaf (hleaf.trans hold), hentries]

end

/-- Write and execute permissions of tables do not restrict a page. -/
theorem PlainTables.tableEntries (h : PlainTables (lowerHalf pt) s.mem) (hv : v < 2 ^ 47) :
    (s.tableEntries pt v).all (has · pflagWrite) = true ∧
      (s.tableEntries pt v).any (has · pflagNx) = false := by
  have hplain : ∀ e ∈ s.tableEntries pt v, has e pflagWrite = true ∧ has e pflagNx = false := by
    intro e he
    obtain ⟨p, i, r, hpath, hentry⟩ := mem_tableEntries.mp he
    exact h 0 p i e (inner_of_path pt hv hpath) hentry
  refine ⟨List.all_eq_true.mpr fun e he => (hplain e he).1, ?_⟩
  rw [List.any_eq_false]
  intro e he
  rw [(hplain e he).2]
  decide

/-- A page has the permissions asked for when a user page is not put below a table that is not a
user's, and only then; the other pages keep theirs. -/
theorem map_page_effective_iff (h₀ : EmptyRoot pt s₀) (hrun : Reaches pt s₀ s)
    (hok : (PageOp.map v page flags).Ok pt s)
    (hinst : (s.mapPage pt v page flags).pmm.refused = s.pmm.refused) :
    ((s.mapPage pt v page flags).effective pt v = some (requested flags) ∧
        ∀ v' < 2 ^ 47, v' / pageSize ≠ v / pageSize →
          (s.mapPage pt v page flags).effective pt v' = s.effective pt v') ↔
      (has flags pflagUser = true → ∀ e ∈ s.tableEntries pt v, has e pflagUser = true) := by
  obtain ⟨bal, h⟩ := hrun.grown h₀
  have hv := hok.1
  have hlt := Nat.lt_of_le_of_lt hok.2.1 h.mapped.tables.small
  rcases h.map_cases hok with ⟨-, href⟩ | ⟨hsets, hwrites, -⟩
  · exact absurd hinst (Nat.ne_of_gt href)
  set s' := s.mapPage pt v page flags
  have hother : ∀ v' < 2 ^ 47, v' / pageSize ≠ v / pageSize → s'.effective pt v' = s.effective pt v' := by
    intro v' hv' hne
    refine hwrites.effective_other hv hv' ?_
    rw [hsets 0 _ (below_of_lt hv'), if_neg]
    rw [pageNo_of_lt hv, pageNo_of_lt hv']
    exact fun h => hne h.2
  have hleaf : leaf (lowerHalf pt) s'.mem 0 (pageNo v) = some (leafOf page flags) := by
    rw [hsets 0 _ (below_of_lt hv), if_pos ⟨rfl, rfl⟩]
  obtain ⟨hwrite, hnx⟩ :=
    PlainTables.tableEntries (hwrites.plain (below_of_lt hv) (hrun.plain h₀)) hv
  obtain ⟨hcases, hgrows⟩ := hwrites.tableEntries hv
  have hreq := requested_leafOf hlt flags
  simp only [requested, Perms.mk.injEq] at hreq
  rw [effective_of_leaf hleaf, hwrite, hnx, hreq.1, hreq.2.1, hreq.2.2, requested]
  simp only [Bool.true_and, Bool.false_or, Option.some.injEq, Perms.mk.injEq, and_true]
  constructor
  · rintro ⟨huser, -⟩ hflag e he
    rw [hflag, Bool.and_true] at huser
    exact List.all_eq_true.mp huser e (hgrows e he)
  intro hcond
  refine ⟨?_, hother⟩
  cases hflag : has flags pflagUser with
  | false => exact Bool.and_false _
  | true =>
  rw [Bool.and_true, List.all_eq_true]
  intro e he
  rcases hcases e he with hold | hnew
  · exact hcond hflag e hold
  · have := congrArg Perms.user hnew.requested
    rwa [hflag] at this

theorem map_page_effective_small : ((smallPhys 9).mapPage 1 0x1000 9 pflagUser).effective 1 0x1000 =
      some (requested pflagUser) := by
  have hinst : ((smallPhys 9).mapPage 1 0x1000 9 pflagUser).pmm.refused =
      (smallPhys 9).pmm.refused := by decide +kernel
  have hempty : (smallPhys 9).tableEntries 1 0x1000 = [] := by decide +kernel
  refine ((map_page_effective_iff smallPhys_emptyRoot Run.init
    (smallPhys_map_ok (by omega) _) hinst).mpr fun _ e he => ?_).1
  simp [hempty] at he

/-- A page that only the kernel may use is mapped, and then a page for programs next to it. -/
def kernelPageFirst : Phys := (PageOp.map 0x1000 9 pflagWrite).run 1 (smallPhys 9)

/-- The page for programs is out of their reach. -/
theorem user_page_below_kernel_table : EmptyRoot 1 (smallPhys 9) ∧ Reaches 1 (smallPhys 9) kernelPageFirst ∧
      (PageOp.map 0x2000 9 (pflagUser ||| pflagWrite)).Ok 1 kernelPageFirst ∧
      (kernelPageFirst.mapPage 1 0x2000 9 (pflagUser ||| pflagWrite)).getPaddr 1 0x2000 = physOf 9 ∧
      requested (pflagUser ||| pflagWrite) = ⟨true, true, false⟩ ∧
      (kernelPageFirst.mapPage 1 0x2000 9 (pflagUser ||| pflagWrite)).effective 1 0x2000 =
        some ⟨false, true, false⟩ := by
  have hok := smallPhys_map_ok (v := 0x1000) (by omega) pflagWrite
  have hinit : Reaches 1 (smallPhys 9) (smallPhys 9) := Run.init
  have hrun := hinit.next hok
  obtain ⟨hle, hheld⟩ := smallPhys_emptyRoot.grown.held_map hok
  have hok' : (PageOp.map 0x2000 9 (pflagUser ||| pflagWrite)).Ok 1 kernelPageFirst := by
    rw [kernelPageFirst, PageOp.run]
    exact ⟨by omega, hle, hheld⟩
  exact ⟨smallPhys_emptyRoot, hrun, hok', by decide +kernel, by decide +kernel, by decide +kernel⟩

end Run

end Phys

end Lapis.Mm
