/-
Lapis.Mm.LeafRefTheorems — the references a page table holds (map_page, map_paddr and unmap_page).

`map_page` takes a reference to the frame it maps and `map_paddr` takes none, and the entries they
write look alike. Overwriting or unmapping an entry drops a reference to whatever frame it names.
A `Ledger` is the memory together with a record of the pages that `map_page` was last called for:
the leaves of these pages are the counted ones. In a run that replaces, of the leaves that name a
frame of the page database, only counted ones, the counter of every frame is what it was before
the run plus the number of counted leaves that name it (`leaf_refs_balance`). A frame that
`map_paddr` mapped and `unmap_page` unmapped is freed under its owner (`unmap_frees_foreign_frame`).

The frames that the walk itself allocates for tables, and those it frees, are counted by their own
one reference and are left out; every other frame is one that is `Held` at the start of the run, or
one that is free then and now.
-/
import Lapis.Mm.PageTableTheorems

namespace Lapis.Mm

open Function Option Lib

namespace Phys

/-! ## The operations on one page table -/

/-- One page table, of which the first `top` entries of the top table are looked at. -/
def oneTable (pt : Pfn) (top : Nat) : Spaces where
  root k := if k = 0 then some pt else none
  top := top

theorem root_oneTable (pt : Pfn) (top : Nat) : (oneTable pt top).root 0 = some pt := rfl

/-- Memory, and the pages whose last mapping call was `map_page`. -/
structure Ledger where
  phys : Phys
  counts : Nat → Bool

namespace Ledger

def mapPage (pt : Pfn) (v : Nat) (page : Pfn) (flags : BitVec 64) (l : Ledger) : Ledger where
  phys := l.phys.mapPage pt v page flags
  counts := update l.counts (pageNo v) true

def mapPaddr (pt : Pfn) (v paddr : Nat) (flags : BitVec 64) (l : Ledger) : Ledger where
  phys := l.phys.mapPaddr pt v paddr flags
  counts := update l.counts (pageNo v) false

def mapPaddrRange (pt : Pfn) (v paddr : Nat) (flags : BitVec 64) : Nat → Ledger → Ledger
  | 0, l => l
  | pnum + 1, l =>
    (mapPaddrRange pt v paddr flags pnum l).mapPaddr pt ((v + pnum * pageSize) % 2 ^ 64)
      ((paddr + pnum * pageSize) % 2 ^ 64) flags

def unmapPage (pt : Pfn) (v : Nat) (l : Ledger) : Ledger where
  phys := l.phys.unmapPage pt v
  counts := update l.counts (pageNo v) false

end Ledger

inductive LeafOp
  | mapPage (v : Nat) (page : Pfn) (flags : BitVec 64)
  | mapPaddr (v paddr : Nat) (flags : BitVec 64)
  | mapPaddrRange (v paddr pnum : Nat) (flags : BitVec 64)
  | unmapPage (v : Nat)

def LeafOp.run (pt : Pfn) (l : Ledger) : LeafOp → Ledger
  | .mapPage v page flags => l.mapPage pt v page flags
  | .mapPaddr v paddr flags => l.mapPaddr pt v paddr flags
  | .mapPaddrRange v paddr pnum flags => l.mapPaddrRange pt v paddr flags pnum
  | .unmapPage v => l.unmapPage pt v

/-- The leaf of a page names no frame of the page database, or it is one that `map_page` wrote. -/
def Replaceable (V : Spaces) (l : Ledger) (n : Nat) : Prop :=
  ∀ q, frameAt V l.phys 0 n = some q → q ≤ l.phys.pmm.maxPfn → l.counts n = true

/-- The number of a page of a range. -/
def rangePage (v i : Nat) : Nat := pageNo ((v + i * pageSize) % 2 ^ 64)

/-- The leaf that an operation replaces is replaceable. A page to map is one that somebody held
before the run and whose counter has room, and a range is not longer than the address space. -/
def LeafOp.Ok (V : Spaces) (s₀ : Phys) : LeafOp → Ledger → Prop
  | .mapPage v page _, l => Below V.top (pageNo v) ∧ Replaceable V l (pageNo v) ∧
      Held V s₀ page ∧ page ≤ s₀.pmm.maxPfn ∧ (l.phys.pmm.info page).refcount + 1 < 2 ^ 32
  | .mapPaddr v _ _, l => Below V.top (pageNo v) ∧ Replaceable V l (pageNo v)
  | .mapPaddrRange v _ pnum _, l => pnum ≤ 2 ^ 36 ∧ ∀ i < pnum,
      Below V.top (rangePage v i) ∧ Replaceable V l (rangePage v i)
  | .unmapPage v, l => Below V.top (pageNo v) ∧ Replaceable V l (pageNo v)

/-- The ledgers of a page table after the given operations, which start with no counted leaf. -/
def LedgerRun (pt : Pfn) (top : Nat) (s₀ : Phys) (l : Ledger) : Prop :=
  Run (fun _ op l => some (op.run pt l)) (LeafOp.Ok (oneTable pt top) s₀) ⟨s₀, fun _ => false⟩ l

/-- The frames that the leaves written by `map_page` name. -/
def counted (V : Spaces) (l : Ledger) (n : Nat) : Option Pfn :=
  if Below V.top n ∧ l.counts n = true then frameAt V l.phys 0 n else none

/-! ## The balance -/

/-- Every frame that was held at the start is held, and the references to it that have come are
the counted leaves. -/
structure Balanced (V : Spaces) (s₀ : Phys) (l : Ledger) : Prop where
  tables : Tables V l.phys
  maxPfn : l.phys.pmm.maxPfn = s₀.pmm.maxPfn
  finitary : Finitary (counted V l)
  source : ∀ n q, counted V l n = some q → Held V s₀ q ∧ q ≤ s₀.pmm.maxPfn
  held : ∀ q, Held V s₀ q → Held V l.phys q
  reserved : ∀ q, Held V s₀ q → (s₀.pmm.info q).reserved = true →
    (l.phys.pmm.info q).reserved = true
  refcount : ∀ q, Held V s₀ q →
    (l.phys.pmm.info q).refcount = (s₀.pmm.info q).refcount + refs (counted V l) q

section Balance

variable {V : Spaces} {s₀ : Phys} {l l' : Ledger} {n v : Nat} {pt q page : Pfn}
  {f : Pfn → PageInfo → PageInfo} {x : Option Pfn}

theorem counted_of (hn : Below V.top n) (hc : l.counts n = true) : counted V l n = frameAt V l.phys 0 n :=
  if_pos ⟨hn, hc⟩

theorem counted_eq_some (h : counted V l n = some q) :
    Below V.top n ∧ l.counts n = true ∧ frameAt V l.phys 0 n = some q := by
  unfold counted at h
  split at h
  case isTrue hc => exact ⟨hc.1, hc.2, h⟩
  case isFalse => exact absurd h.symm (some_ne_none q)

/-- One leaf is set, and its page recorded. -/
theorem counted_update (l' : Ledger) {b : Bool} {e : Option (BitVec 64)}
    (hcounts : l'.counts = update l.counts n b) (hn : Below V.top n)
    (hsets : SetsLeaf V l.phys l'.phys 0 n e) :
    counted V l' = update (counted V l) n (if b then e.map leafFrame else none) := by
  funext m
  by_cases hm : m = n
  · subst hm
    have hleaf : leaf V l'.phys.mem 0 m = e := (hsets 0 m hn).trans (if_pos ⟨rfl, rfl⟩)
    rw [update_self, counted, hcounts, update_self, frameAt, hleaf]
    cases b with
    | true => exact if_pos ⟨hn, rfl⟩
    | false => exact if_neg fun h => Bool.false_ne_true h.2
  · rw [update_of_ne hm, counted, counted, hcounts, update_of_ne hm]
    by_cases hbelow : Below V.top m
    · have hleaf : leaf V l'.phys.mem 0 m = leaf V l.phys.mem 0 m :=
        (hsets 0 m hbelow).trans (if_neg fun h => hm h.2)
      rw [frameAt, frameAt, hleaf]
    · rw [if_neg fun h => hbelow h.1, if_neg fun h => hbelow h.1]

/-- No leaf changes, and the page recorded has none. -/
theorem counted_quiet {b : Bool} (hcounts : l'.counts = update l.counts n b)
    (hquiet : Quiet V l.phys l'.phys) (hnone : frameAt V l.phys 0 n = none) : counted V l' = counted V l := by
  have hframe : ∀ m, Below V.top m → frameAt V l'.phys 0 m = frameAt V l.phys 0 m := by
    intro m hm
    rw [frameAt, frameAt, hquiet.leaf 0 m hm]
  funext m
  by_cases hbelow : Below V.top m
  · by_cases hm : m = n
    · subst hm
      rw [counted, counted, hframe m hbelow, hnone, ite_self, ite_self]
    · rw [counted, counted, hframe m hbelow, hcounts, update_of_ne hm]
  · rw [counted, counted, if_neg fun h => hbelow h.1, if_neg fun h => hbelow h.1]

/-- At the start no leaf is counted. -/
theorem Balanced.start (h₀ : Tables V s₀) : Balanced V s₀ ⟨s₀, fun _ => false⟩ := by
  have hnone : counted V ⟨s₀, fun _ => false⟩ = fun _ => none := by
    funext n
    exact if_neg fun h => Bool.false_ne_true h.2
  refine ⟨h₀, rfl, ?_, fun n q hq => ?_, fun _ hq => hq, fun _ _ hres => hres, fun q _ => ?_⟩
  · rw [hnone]
    exact Lib.finitary_none
  · rw [hnone] at hq
    exact absurd hq.symm (some_ne_none q)
  · rw [hnone, refs_eq_zero fun _ => (some_ne_none q).symm, Nat.add_zero]

section

variable (h : Balanced V s₀ l)

include h

/-- A step that moves the counter of every held frame as the counted leaves move. -/
theorem Balanced.step (hstep : Step V l.phys l'.phys f) (hcounted : counted V l' = update (counted V l) n x)
    (hsource : ∀ q, x = some q → Held V s₀ q ∧ q ≤ s₀.pmm.maxPfn) (hf : ∀ q, Held V s₀ q →
      (f q (l.phys.pmm.info q)).free = false ∧
      ((l.phys.pmm.info q).reserved = true → (f q (l.phys.pmm.info q)).reserved = true) ∧
      (f q (l.phys.pmm.info q)).refcount + (if counted V l n = some q then 1 else 0) =
        (l.phys.pmm.info q).refcount + (if x = some q then 1 else 0)) : Balanced V s₀ l' := by
  have hkeep := fun q hq => hstep.keep q (h.held q hq) (hf q hq).1
  refine ⟨hstep.tables, hstep.maxPfn.trans h.maxPfn, ?_, fun m q hq => ?_,
    fun q hq => (hkeep q hq).1, fun q hq hres => ?_, fun q hq => ?_⟩
  · rw [hcounted]
    exact h.finitary.update
  · rw [hcounted] at hq
    by_cases hm : m = n
    · subst hm
      rw [update_self] at hq
      exact hsource q hq
    · rw [update_of_ne hm] at hq
      exact h.source m q hq
  · rw [(hkeep q hq).2.1]
    exact (hf q hq).2.1 (h.reserved q hq hres)
  · have hrefs := refs_update (k := n) (x := x) (v := q) h.finitary
    have hcount := h.refcount q hq
    have hmove := (hf q hq).2.2
    rw [(hkeep q hq).2.1, hcounted]
    omega

theorem Balanced.quiet (hquiet : Quiet V l.phys l'.phys)
    (hcounted : counted V l' = counted V l) : Balanced V s₀ l' := by
  refine ⟨hquiet.step.tables, hquiet.step.maxPfn.trans h.maxPfn, ?_, ?_,
    fun q hq => hquiet.held (h.held q hq), fun q hq hres => ?_, fun q hq => ?_⟩
  · rw [hcounted]
    exact h.finitary
  · rw [hcounted]
    exact h.source
  · rw [(hquiet.step.keep q (h.held q hq) (h.held q hq).1).2.1]
    exact h.reserved q hq hres
  · rw [(hquiet.step.keep q (h.held q hq) (h.held q hq).1).2.1, hcounted]
    exact h.refcount q hq

/-- The frame of a counted leaf is no table. -/
theorem Balanced.not_table (hn : Below V.top n) (hrep : Replaceable V l n)
    (hq : frameAt V l.phys 0 n = some q) (hle : q ≤ l.phys.pmm.maxPfn) : ¬ Table V l.phys.mem q := by
  have hcounted := (counted_of hn (hrep q hq hle)).trans hq
  exact (h.held q (h.source n q hcounted).1).2

/-- Dropping a replaceable leaf drops the reference that it holds. -/
theorem Balanced.drop (h₀ : Tables V s₀) (hn : Below V.top n)
    (hrep : Replaceable V l n) (hq : Held V s₀ q) {i : PageInfo}
    (hi : i = dropAt l.phys.pmm.maxPfn (frameAt V l.phys 0 n) q (l.phys.pmm.info q)) :
    i.free = false ∧ ((l.phys.pmm.info q).reserved = true → i.reserved = true) ∧
      i.refcount + (if counted V l n = some q then 1 else 0) = (l.phys.pmm.info q).refcount := by
  have hfree := (h.held q hq).1
  by_cases hc : counted V l n = some q
  · obtain ⟨-, -, hframe⟩ := counted_eq_some hc
    have hle : q ≤ l.phys.pmm.maxPfn := h.maxPfn.symm ▸ (h.source n q hc).2
    have hcount := h.refcount q hq
    have hpos := refs_pos h.finitary hc
    rw [hi, hframe, dropAt_self hle, if_pos hc, PageInfo.refcount_dropped]
    refine ⟨PageInfo.free_dropped hfree ?_, PageInfo.reserved_dropped, by omega⟩
    -- a frame that is not reserved has the reference of its owner besides
    cases hres : (s₀.pmm.info q).reserved with
    | true => exact .inl (h.reserved q hq hres)
    | false =>
      have howner : 0 < (s₀.pmm.info q).refcount := h₀.ok.counted hq.1 hres
      exact .inr (by omega)
  · have hsame : i = l.phys.pmm.info q := by
      rw [hi]
      by_cases hframe : frameAt V l.phys 0 n = some q
      · refine if_neg fun hle => hc ?_
        exact (counted_of hn (hrep q hframe hle)).trans hframe
      · exact dropAt_of_ne hframe _
    rw [hsame, if_neg hc]
    exact ⟨hfree, fun hres => hres, rfl⟩

end

theorem WritesLeaf.sets {flags e : BitVec 64} {s s' : Phys} {k : Nat}
    (h : WritesLeaf V flags s s' k n e) (hn : Below V.top n) (he : has e pflagPresent = true) :
    SetsLeaf V s s' k n (some e) := by
  obtain ⟨s1, t, hbuilds, ht, -, hmem⟩ := h
  intro k' n' hn'
  rw [hmem, leaf_setLeaf hbuilds.quiet.step.tables.separated hn ht hn', present_of_has he,
    hbuilds.quiet.leaf k' n' hn']

theorem Balanced.mapPage (h : Balanced V s₀ l) (h₀ : Tables V s₀) (hroot : V.root 0 = some pt)
    (hn : Below V.top (pageNo v)) (hrep : Replaceable V l (pageNo v)) (hpage : Held V s₀ page)
    (hle : page ≤ s₀.pmm.maxPfn) (flags : BitVec 64) : Balanced V s₀ (l.mapPage pt v page flags) := by
  have hle' : page ≤ l.phys.pmm.maxPfn := h.maxPfn.symm ▸ hle
  have hlt : page < 2 ^ 40 := Nat.lt_of_le_of_lt hle h₀.small
  obtain ⟨hstay, -⟩ := h.drop h₀ hn hrep hpage rfl
  obtain ⟨-, hcases⟩ := mapPage_spec h.tables hroot hn (fun q hq hq' => h.not_table hn hrep hq hq')
    (h.held page hpage) hle' hstay flags
  rcases hcases with ⟨hbuilds, hnone, -⟩ | ⟨hstep, hsets, -⟩
  · exact h.quiet hbuilds.quiet (counted_quiet rfl hbuilds.quiet hnone)
  have hcounted := counted_update (l.mapPage pt v page flags) (b := true) rfl hn hsets
  rw [if_pos rfl, map_some, leafFrame_leafOf hlt] at hcounted
  refine h.step hstep hcounted (fun q hq => some.inj hq ▸ ⟨hpage, hle⟩) fun q hq => ?_
  obtain ⟨hfree, hres, hcount⟩ := h.drop h₀ hn hrep hq rfl
  by_cases hqp : some page = some q
  · obtain rfl := some.inj hqp
    rw [on_self, PageInfo.reserved_taken hfree, PageInfo.refcount_taken, if_pos rfl]
    exact ⟨PageInfo.free_taken hfree, hres, by omega⟩
  · rw [on_of_ne hqp, if_neg hqp]
    exact ⟨hfree, hres, hcount⟩

/-- What `map_paddr` does. -/
theorem Balanced.mapPaddr_cases (h : Balanced V s₀ l) (hroot : V.root 0 = some pt)
    (hn : Below V.top (pageNo v)) (hrep : Replaceable V l (pageNo v)) (paddr : Nat) (flags : BitVec 64) :
    (Quiet V l.phys (l.mapPaddr pt v paddr flags).phys ∧ frameAt V l.phys 0 (pageNo v) = none) ∨
      (Step V l.phys (l.mapPaddr pt v paddr flags).phys
          (dropAt l.phys.pmm.maxPfn (frameAt V l.phys 0 (pageNo v))) ∧
        SetsLeaf V l.phys (l.mapPaddr pt v paddr flags).phys 0 (pageNo v)
          (some (paddrLeaf paddr flags))) := by
  obtain ⟨-, hcases⟩ := mapPaddr_spec h.tables hroot hn (fun q hq hq' => h.not_table hn hrep hq hq')
    paddr flags
  rcases hcases with ⟨hbuilds, hnone⟩ | ⟨hstep, hwrites⟩
  · exact .inl ⟨hbuilds.quiet, hnone⟩
  · exact .inr ⟨hstep, hwrites.sets hn (has_present_paddrLeaf paddr flags)⟩

/-- A leaf goes that no other is counted for. -/
theorem Balanced.uncount (h : Balanced V s₀ l) (h₀ : Tables V s₀) (hn : Below V.top n)
    (hrep : Replaceable V l n)
    (hstep : Step V l.phys l'.phys (dropAt l.phys.pmm.maxPfn (frameAt V l.phys 0 n)))
    (hcounted : counted V l' = update (counted V l) n none) : Balanced V s₀ l' := by
  refine h.step hstep hcounted nofun fun q hq => ?_
  rw [if_neg (some_ne_none q).symm, Nat.add_zero]
  exact h.drop h₀ hn hrep hq rfl

section

variable (h : Balanced V s₀ l) (h₀ : Tables V s₀) (hroot : V.root 0 = some pt)
  (hn : Below V.top (pageNo v)) (hrep : Replaceable V l (pageNo v))

include h h₀ hroot hn hrep

theorem Balanced.mapPaddr (paddr : Nat)
    (flags : BitVec 64) : Balanced V s₀ (l.mapPaddr pt v paddr flags) := by
  rcases h.mapPaddr_cases hroot hn hrep paddr flags with ⟨hquiet, hnone⟩ | ⟨hstep, hsets⟩
  · exact h.quiet hquiet (counted_quiet rfl hquiet hnone)
  · exact h.uncount h₀ hn hrep hstep (counted_update _ (b := false) rfl hn hsets)

theorem Balanced.unmapPage : Balanced V s₀ (l.unmapPage pt v) := by
  obtain ⟨hstep, hsets, -⟩ :=
    unmapPage_spec h.tables hroot hn fun q hq hq' => h.not_table hn hrep hq hq'
  exact h.uncount h₀ hn hrep hstep (counted_update _ (b := false) rfl hn hsets)

end

/-- Mapping one page leaves the leaves of the others. -/
theorem Balanced.replaceable_mapPaddr (h : Balanced V s₀ l) (hroot : V.root 0 = some pt)
    (hn : Below V.top (pageNo v)) (hrep : Replaceable V l (pageNo v)) (paddr : Nat)
    (flags : BitVec 64) {m : Nat} (hm : Below V.top m) (hne : m ≠ pageNo v)
    (hother : Replaceable V l m) : Replaceable V (l.mapPaddr pt v paddr flags) m := by
  have hsame : frameAt V (l.mapPaddr pt v paddr flags).phys 0 m = frameAt V l.phys 0 m ∧
      (l.mapPaddr pt v paddr flags).phys.pmm.maxPfn = l.phys.pmm.maxPfn := by
    rcases h.mapPaddr_cases hroot hn hrep paddr flags with ⟨hquiet, -⟩ | ⟨hstep, hsets⟩
    · exact ⟨congrArg (Option.map leafFrame) (hquiet.leaf 0 m hm), hquiet.step.maxPfn⟩
    · have hleaf := (hsets 0 m hm).trans (if_neg fun heq => hne heq.2)
      exact ⟨congrArg (Option.map leafFrame) hleaf, hstep.maxPfn⟩
  intro q hq hle
  rw [hsame.1] at hq
  rw [hsame.2] at hle
  exact (update_of_ne hne _ _).trans (hother q hq hle)

/-- The pages of a range that is not longer than the address space are different ones. -/
theorem rangePage_ne {v i j : Nat} (hi : i < 2 ^ 36) (hj : j < 2 ^ 36) (hne : i ≠ j) :
    rangePage v i ≠ rangePage v j := by
  unfold rangePage pageNo pageSize
  omega

theorem Balanced.mapPaddrRange (h : Balanced V s₀ l) (h₀ : Tables V s₀)
    (hroot : V.root 0 = some pt) {total : Nat} (htotal : total ≤ 2 ^ 36)
    (hpages : ∀ i < total, Below V.top (rangePage v i) ∧ Replaceable V l (rangePage v i))
    (paddr : Nat) (flags : BitVec 64) (pnum : Nat) (hle : pnum ≤ total) :
    Balanced V s₀ (l.mapPaddrRange pt v paddr flags pnum) ∧ ∀ i < total, pnum ≤ i →
        Replaceable V (l.mapPaddrRange pt v paddr flags pnum) (rangePage v i) := by
  -- the pages still to come are replaceable as they were
  induction pnum with
  | zero => exact ⟨h, fun i hi _ => (hpages i hi).2⟩
  | succ pnum ih =>
    obtain ⟨hbal, hrep⟩ := ih (by omega)
    have hn := (hpages pnum (by omega)).1
    have hhere := hrep pnum (by omega) (Nat.le_refl pnum)
    refine ⟨hbal.mapPaddr h₀ hroot hn hhere _ flags, fun i hi hlt => ?_⟩
    exact hbal.replaceable_mapPaddr hroot hn hhere _ flags (hpages i hi).1
      (rangePage_ne (by omega) (by omega) (by omega)) (hrep i hi (by omega))

theorem Balanced.run (h : Balanced V s₀ l) (h₀ : Tables V s₀) (hroot : V.root 0 = some pt)
    {op : LeafOp} (hok : op.Ok V s₀ l) : Balanced V s₀ (op.run pt l) := by
  cases op with
  | mapPage v page flags =>
    obtain ⟨hn, hrep, hpage, hle, -⟩ := hok
    exact h.mapPage h₀ hroot hn hrep hpage hle flags
  | mapPaddr v paddr flags => exact h.mapPaddr h₀ hroot hok.1 hok.2 paddr flags
  | mapPaddrRange v paddr pnum flags =>
    exact (h.mapPaddrRange h₀ hroot hok.1 hok.2 paddr flags pnum (Nat.le_refl pnum)).1
  | unmapPage v => exact h.unmapPage h₀ hroot hok.1 hok.2

end Balance

/-! ## Whole runs -/

section Runs

variable {pt : Pfn} {top : Nat} {s₀ : Phys} {l : Ledger}

theorem LedgerRun.balanced (hrun : LedgerRun pt top s₀ l) (h₀ : Tables (oneTable pt top) s₀) :
    Balanced (oneTable pt top) s₀ l := by
  refine Run.invariant (Balanced.start h₀) (fun l l' op _ h hok hstep => ?_) hrun
  obtain rfl := some.inj hstep
  exact h.run h₀ (root_oneTable pt top) hok

/-- The counter of a frame moves with the leaves that `map_page` wrote for it, and a frame that
somebody holds is not freed. -/
theorem leaf_refs_balance (h₀ : Tables (oneTable pt top) s₀) (hrun : LedgerRun pt top s₀ l) :
    (∀ q, Held (oneTable pt top) s₀ q ∨ ((s₀.pmm.info q).free = true ∧ (l.phys.pmm.info q).free = true) →
      (l.phys.pmm.info q).refcount = (s₀.pmm.info q).refcount + refs (counted (oneTable pt top) l) q) ∧
    ∀ q, Held (oneTable pt top) s₀ q → Held (oneTable pt top) l.phys q := by
  have h := hrun.balanced h₀
  refine ⟨fun q hq => ?_, h.held⟩
  rcases hq with hheld | ⟨hfree0, hfree⟩
  · exact h.refcount q hheld
  have hzero : refs (counted (oneTable pt top) l) q = 0 := by
    refine refs_eq_zero fun n hn => ?_
    have hheld := (h.source n q hn).1
    rw [hheld.1] at hfree0
    exact Bool.false_ne_true hfree0
  have hcount0 : (s₀.pmm.info q).refcount = 0 := h₀.ok.free_refcount hfree0
  have hcount : (l.phys.pmm.info q).refcount = 0 := h.tables.ok.free_refcount hfree
  rw [hzero, hcount0, hcount]

end Runs

/-- A small machine whose frame 9 has an owner, with an empty page table. -/
def ownedLedger : Ledger := ⟨smallPhys 9, fun _ => false⟩

theorem ownedLedger_tables : Tables (oneTable 1 256) ownedLedger.phys :=
  smallPhys_emptyRoot.grown.mapped.tables

theorem ownedLedger_held : Held (oneTable 1 256) ownedLedger.phys 9 := smallPhys_held

/-- The frame is mapped once with a reference, and a device beside it without one. -/
theorem leaf_refs_balance_device :
    (((ownedLedger.mapPage 1 0x1000 9 pflagUser).mapPaddr 1 0x2000 0xfee00000 0).phys.pmm.info
      9).refcount = 1 + 1 ∧ refs (counted (oneTable 1 256)
      ((ownedLedger.mapPage 1 0x1000 9 pflagUser).mapPaddr 1 0x2000 0xfee00000 0)) 9 = 1 := by
  have hle : 9 ≤ (smallPhys 9).pmm.maxPfn := by decide +kernel
  have hroom : ((smallPhys 9).pmm.info 9).refcount + 1 < 2 ^ 32 := by decide +kernel
  have hempty : frameAt (oneTable 1 256) ownedLedger.phys 0 (pageNo 0x1000) = none := by
    decide +kernel
  have hempty' : frameAt (oneTable 1 256) (ownedLedger.mapPage 1 0x1000 9 pflagUser).phys 0
      (pageNo 0x2000) = none := by
    decide +kernel
  have hmap : (LeafOp.mapPage 0x1000 9 pflagUser).Ok (oneTable 1 256) (smallPhys 9)
      ownedLedger := by
    refine ⟨below_of_lt (by omega), fun q hq => ?_, ownedLedger_held, hle, hroom⟩
    rw [hempty] at hq
    exact absurd hq.symm (some_ne_none q)
  have hdevice : (LeafOp.mapPaddr 0x2000 0xfee00000 0).Ok (oneTable 1 256) (smallPhys 9)
      (ownedLedger.mapPage 1 0x1000 9 pflagUser) := by
    refine ⟨below_of_lt (by omega), fun q hq => ?_⟩
    rw [hempty'] at hq
    exact absurd hq.symm (some_ne_none q)
  have hrun : LedgerRun 1 256 (smallPhys 9)
      ((ownedLedger.mapPage 1 0x1000 9 pflagUser).mapPaddr 1 0x2000 0xfee00000 0) :=
    @Run.next _ _ _ _ _ _ _ (.mapPaddr 0x2000 0xfee00000 0) 0
      (@Run.next _ _ _ _ _ _ _ (.mapPage 0x1000 9 pflagUser) 0 .init hmap rfl) hdevice rfl
  have hcount := (leaf_refs_balance ownedLedger_tables hrun).1 9 (.inl ownedLedger_held)
  have hnow : (((ownedLedger.mapPage 1 0x1000 9 pflagUser).mapPaddr 1 0x2000 0xfee00000
      0).phys.pmm.info 9).refcount = 2 := by decide +kernel
  have hbefore : (ownedLedger.phys.pmm.info 9).refcount = 1 := by decide +kernel
  exact ⟨hnow, by omega⟩

/-- `map_paddr` takes no reference to the frame of another owner, and `unmap_page` drops one: the
frame is freed. -/
theorem unmap_frees_foreign_frame :
    Tables (oneTable 1 256) ownedLedger.phys ∧ Held (oneTable 1 256) ownedLedger.phys 9 ∧
      (ownedLedger.phys.pmm.info 9).refcount = 1 ∧
      (((ownedLedger.mapPaddr 1 0x1000 0x9000 pflagUser).unmapPage 1 0x1000).phys.pmm.info 9).refcount = 0 ∧
      (((ownedLedger.mapPaddr 1 0x1000 0x9000 pflagUser).unmapPage 1 0x1000).phys.pmm.info 9).free = true ∧
      ∀ n, counted (oneTable 1 256)
        ((ownedLedger.mapPaddr 1 0x1000 0x9000 pflagUser).unmapPage 1 0x1000) n = none := by
  refine ⟨ownedLedger_tables, ownedLedger_held, by decide +kernel, by decide +kernel,
    by decide +kernel, fun n => if_neg fun hn => ?_⟩
  have hcounts : ((ownedLedger.mapPaddr 1 0x1000 0x9000 pflagUser).unmapPage 1 0x1000).counts n = false := by
    simp only [Ledger.unmapPage, Ledger.mapPaddr, update_apply]
    split <;> rfl
  rw [hcounts] at hn
  exact Bool.false_ne_true hn.2

end Phys

end Lapis.Mm
