/-
Lapis.Mm.KheapOpTheorems — what the functions of kheap.c do to the layout of the heap.

A slab is made, changed or destroyed; `Core.create`, `Core.change` and `Core.destroy` say under which
conditions the layout goes on to describe the heap. The loops over a list of slabs and over the
objects of a new slab have one lemma each, and the functions are put together from these.
-/
import Lapis.Mm.KheapTheorems
import Mathlib.Data.List.Nodup
import Mathlib.Data.List.Perm.Subperm

namespace Lapis.Mm.Kheap

open Function List Lib

variable {s s' : Kheap} {kind : Nat → SlabKind} {l : Fin 8 → List Nat} {κ : SlabKind}
  {p q x : Nat} {i : Fin 8} {fl : List Nat} {mem : ByteMemory} {b : Block}

/-! ## Slabs come, change and go -/

variable {n : Nat}

/-- Pages the heap does not have lie outside every slab. -/
theorem Core.not_fresh (h : s.Core kind)
    (hfresh : ∀ x, p ≤ x → x < p + n → s.held (x / pageSize) = false) (hq : q ∈ s.slabs)
    (hx : InSlab kind q x) : ¬ (p ≤ x ∧ x < p + n) := by
  rintro ⟨hlo, hhi⟩
  have hin := h.held q hq x hx.1 hx.2
  simp [hfresh x hlo hhi] at hin

/-- The bytes of a header. -/
theorem Core.inSlab_header (h : s.Core kind) (hq : q ∈ s.slabs) (hlo : q ≤ x)
    (hhi : x < q + Slab.sizeof) : InSlab kind q x := by
  have := (h.ok q hq).sizeof_le
  exact ⟨hlo, by omega⟩

theorem sizeof_pos : 0 < Slab.sizeof := by decide

/-- A new slab on pages the heap did not have. -/
theorem Core.create (h : s.Core kind) (hfresh : ∀ x, p ≤ x → x < p + κ.span → s.held (x / pageSize) = false)
    (haligned : pageSize ∣ p ∧ 0 < p ∧ p + κ.span < 2 ^ 64) (hslabs : s'.slabs = p :: s.slabs)
    (hok : SlabOk s'.mem p κ) (hmem : ∀ x, ¬ (p ≤ x ∧ x < p + κ.span) → s'.mem x = s.mem x)
    (hheld : ∀ q, s.held q = true → s'.held q = true)
    (hnew : ∀ x, p ≤ x → x < p + κ.span → s'.held (x / pageSize) = true)
    (hnodup : s'.live.Nodup) (hlive : ∀ b, b ∈ s'.live ↔ κ.Owns p b ∨ b ∈ s.live) :
    s'.Core (update kind p κ) := by
  have hspan := hok.sizeof_le
  have hpos := sizeof_pos
  have hoff : ∀ q ∈ s.slabs, ∀ x, InSlab kind q x → ¬ (p ≤ x ∧ x < p + κ.span) :=
    fun q hq x => h.not_fresh hfresh hq
  have hne : ∀ q ∈ s.slabs, q ≠ p := by
    rintro q hq rfl
    exact hoff q hq q (h.inSlab_header hq (Nat.le_refl q) (by omega)) ⟨Nat.le_refl q, by omega⟩
  have hold : ∀ q ∈ s.slabs, update kind p κ q = kind q := fun q hq =>
    update_of_ne (hne q hq) ..
  have hapart : ∀ q ∈ s.slabs, p + κ.span ≤ q ∨ q + (kind q).span ≤ p := by
    intro q hq
    by_contra hc
    rw [not_or] at hc
    rcases Nat.le_total p q with hpq | hpq
    · exact hoff q hq q (h.inSlab_header hq (Nat.le_refl q) (by omega)) ⟨hpq, by omega⟩
    · exact hoff q hq p ⟨hpq, by omega⟩ ⟨Nat.le_refl p, by omega⟩
  refine ⟨?_, ?_, ?_, ?_, ?_, hnodup, ?_⟩
  · rw [hslabs]
    exact nodup_cons.mpr ⟨fun hp => hne p hp rfl, h.nodup⟩
  · rw [hslabs]
    refine forall_mem_cons.mpr ⟨by rwa [update_self], fun q hq => ?_⟩
    rw [hold q hq]
    exact (h.ok q hq).congr fun x hgov => hmem x (hoff q hq x ((h.ok q hq).governs_lt hgov))
  · rw [hslabs]
    refine forall_mem_cons.mpr ⟨by rwa [update_self], fun q hq => ?_⟩
    rw [hold q hq]
    exact h.aligned q hq
  · rw [hslabs]
    refine forall_mem_cons.mpr ⟨by rwa [update_self], fun q hq x hlo hhi => ?_⟩
    rw [hold q hq] at hhi
    exact hheld _ (h.held q hq x hlo hhi)
  · rw [hslabs]
    refine forall_mem_cons.mpr ⟨forall_mem_cons.mpr ⟨fun hc => absurd rfl hc, ?_⟩,
      fun q hq => forall_mem_cons.mpr ⟨?_, ?_⟩⟩
    · intro q hq _
      rw [update_self, hold q hq]
      exact hapart q hq
    · intro _
      rw [update_self, hold q hq]
      exact (hapart q hq).symm
    · intro r hr hqr
      rw [hold q hq, hold r hr]
      exact h.apart q hq r hr hqr
  · intro b
    rw [hlive, h.live_iff, hslabs]
    constructor
    · rintro (hb | ⟨q, hq, hb⟩)
      · exact ⟨p, mem_cons_self, by rwa [update_self]⟩
      · exact ⟨q, mem_cons_of_mem p hq, by rwa [hold q hq]⟩
    rintro ⟨q, hq, hb⟩
    rcases mem_cons.mp hq with rfl | hq
    · rw [update_self] at hb
      exact .inl hb
    · rw [hold q hq] at hb
      exact .inr ⟨q, hq, hb⟩

/-- The lists do not notice it. -/
theorem Listed.create (hl : s.Listed kind l) (h : s.Core kind)
    (hfresh : ∀ x, p ≤ x → x < p + κ.span → s.held (x / pageSize) = false)
    (hslabs : s'.slabs = p :: s.slabs) (hcaches : s'.caches = s.caches) (hspan : 0 < κ.span)
    (hmem : ∀ x, ¬ (p ≤ x ∧ x < p + κ.span) → s'.mem x = s.mem x) : s'.Listed (update kind p κ) l := by
  have hheader : ∀ q ∈ s.slabs, ∀ x, q ≤ x → x < q + 8 → InSlab kind q x :=
    fun q hq x hlo hhi => h.inSlab_header hq hlo (by unfold Slab.sizeof; omega)
  refine ⟨fun i => ?_, hl.nodup, by rw [hcaches]; exact hl.count, fun i q hq => ?_⟩
  · rw [hcaches]
    refine (hl.chain i).congr fun q hq => ByteMemory.load_congr fun x hlo hhi => hmem x ?_
    exact h.not_fresh hfresh (hl.small i q hq).1 (hheader q (hl.small i q hq).1 x hlo hhi)
  obtain ⟨hmem', fl, hkind⟩ := hl.small i q hq
  have hne : q ≠ p := by
    rintro rfl
    exact h.not_fresh hfresh hmem' (hheader q hmem' q (Nat.le_refl q) (by omega))
      ⟨Nat.le_refl q, by omega⟩
  rw [hslabs, update_of_ne hne]
  exact ⟨mem_cons_of_mem p hmem', fl, hkind⟩

/-- A slab changes its kind, and with it the blocks callers own in it. -/
theorem Core.change (h : s.Core kind) (hp : p ∈ s.slabs) (hslabs : s'.slabs = s.slabs)
    (hheld : s'.held = s.held) (hmem : ∀ x, ¬ InSlab kind p x → s'.mem x = s.mem x)
    (hok : SlabOk s'.mem p κ) (hspan : κ.span = (kind p).span) (hnodup : s'.live.Nodup)
    (hlive : ∀ b, b ∈ s'.live ↔ κ.Owns p b ∨ (b ∈ s.live ∧ ¬ (kind p).Owns p b)) :
    s'.Core (update kind p κ) := by
  have hspans : ∀ q, (update kind p κ q).span = (kind q).span := by
    intro q
    by_cases hq : q = p
    · rw [hq, update_self, hspan]
    · rw [update_of_ne hq]
  refine ⟨hslabs ▸ h.nodup, ?_, ?_, ?_, ?_, hnodup, ?_⟩
  · rw [hslabs]
    intro q hq
    by_cases hqp : q = p
    · rwa [hqp, update_self]
    · rw [update_of_ne hqp]
      refine (h.ok q hq).congr fun x hgov => hmem x fun hx => hqp ?_
      exact h.eq_of_inSlab hq hp ((h.ok q hq).governs_lt hgov) hx
  · simp only [hslabs, hspans]
    exact h.aligned
  · simp only [hslabs, hspans, hheld]
    exact h.held
  · simp only [hslabs, hspans]
    exact h.apart
  · intro b
    rw [hlive, hslabs]
    constructor
    · rintro (hb | ⟨hb, hnot⟩)
      · exact ⟨p, hp, by rwa [update_self]⟩
      · obtain ⟨q, hq, howns⟩ := (h.live_iff b).mp hb
        have hqp : q ≠ p := by
          rintro rfl
          exact hnot howns
        exact ⟨q, hq, by rwa [update_of_ne hqp]⟩
    · rintro ⟨q, hq, howns⟩
      by_cases hqp : q = p
      · rw [hqp, update_self] at howns
        exact .inl howns
      · rw [update_of_ne hqp] at howns
        exact .inr ⟨(h.live_iff b).mpr ⟨q, hq, howns⟩, fun howns' => hqp (h.eq_of_owns hq hp howns howns')⟩

theorem Listed.change (hl : s.Listed kind l) (h : s.Core kind) (hp : p ∈ s.slabs)
    (hslabs : s'.slabs = s.slabs) (hcaches : s'.caches = s.caches)
    (hmem : ∀ x, ¬ (InSlab kind p x ∧ p + 8 ≤ x) → s'.mem x = s.mem x)
    (hkind : ∀ j fl, kind p = .small j fl → ∃ fl', κ = .small j fl') : s'.Listed (update kind p κ) l := by
  refine ⟨fun j => ?_, hl.nodup, by rw [hcaches]; exact hl.count, fun j q hq => ?_⟩
  · rw [hcaches]
    refine (hl.chain j).congr fun q hq => ByteMemory.load_congr fun x hlo hhi => hmem x ?_
    rintro ⟨hx, hbehind⟩
    have hmemq := (hl.small j q hq).1
    have hin := h.inSlab_header hmemq hlo (by unfold Slab.sizeof; omega)
    obtain rfl := h.eq_of_inSlab hmemq hp hin hx
    omega
  · obtain ⟨hmemq, fl, hfl⟩ := hl.small j q hq
    rw [hslabs]
    refine ⟨hmemq, ?_⟩
    by_cases hqp : q = p
    · rw [hqp, update_self]
      exact hkind j fl (hqp ▸ hfl)
    · rw [update_of_ne hqp]
      exact ⟨fl, hfl⟩

/-- A slab goes, with the blocks callers owned in it. -/
theorem Core.destroy (h : s.Core kind) (hslabs : s'.slabs = s.slabs.erase p) (hmem : s'.mem = s.mem)
    (hp : p ∈ s.slabs) (hheld : ∀ x, ¬ InSlab kind p x → s'.held (x / pageSize) = s.held (x / pageSize))
    (hnodup : s'.live.Nodup) (hlive : ∀ b, b ∈ s'.live ↔ b ∈ s.live ∧ ¬ (kind p).Owns p b) :
    s'.Core kind := by
  have hmem_iff : ∀ q, q ∈ s'.slabs ↔ q ≠ p ∧ q ∈ s.slabs := by
    intro q
    rw [hslabs, h.nodup.mem_erase_iff]
  refine ⟨hslabs ▸ h.nodup.erase p, fun q hq => ?_, fun q hq => ?_, fun q hq x hlo hhi => ?_,
    fun q hq r hr => ?_, hnodup, fun b => ?_⟩
  · rw [hmem]
    exact h.ok q ((hmem_iff q).mp hq).2
  · exact h.aligned q ((hmem_iff q).mp hq).2
  · obtain ⟨hqp, hq⟩ := (hmem_iff q).mp hq
    rw [hheld x fun hx => hqp (h.eq_of_inSlab hq hp ⟨hlo, hhi⟩ hx)]
    exact h.held q hq x hlo hhi
  · exact h.apart q ((hmem_iff q).mp hq).2 r ((hmem_iff r).mp hr).2
  · rw [hlive, h.live_iff]
    constructor
    · rintro ⟨⟨q, hq, howns⟩, hnot⟩
      refine ⟨q, (hmem_iff q).mpr ⟨?_, hq⟩, howns⟩
      rintro rfl
      exact hnot howns
    · rintro ⟨q, hq, howns⟩
      obtain ⟨hqp, hq⟩ := (hmem_iff q).mp hq
      exact ⟨⟨q, hq, howns⟩, fun howns' => hqp (h.eq_of_owns hq hp howns howns')⟩

theorem Listed.destroy (hl : s.Listed kind l) (hslabs : s'.slabs = s.slabs.erase p)
    (hmem : s'.mem = s.mem) (hcaches : s'.caches = s.caches) (hnot : ∀ j, p ∉ l j) : s'.Listed kind l := by
  refine ⟨fun j => ?_, hl.nodup, by rw [hcaches]; exact hl.count, fun j q hq => ?_⟩
  · rw [hcaches]
    unfold slab
    rw [hmem]
    exact hl.chain j
  · obtain ⟨hq', hkind⟩ := hl.small j q hq
    rw [hslabs]
    refine ⟨(mem_erase_of_ne ?_).mpr hq', hkind⟩
    rintro rfl
    exact hnot j hq

/-! ## The lists of slabs -/

section

variable (h : s.Core kind) (hp : p ∈ s.slabs)

include h hp

theorem Core.setNext {v : Nat} (hv : v < 2 ^ 64) : (s.modMem (Slab.setNext · p v)).Core kind := by
  have hcore : (s.modMem (Slab.setNext · p v)).Core (update kind p (kind p)) :=
    h.change hp rfl rfl (fun x hx => ByteMemory.store_of_out ?_) ((h.ok p hp).setNext hv) rfl
      h.live_nodup fun b => ?_
  · rwa [update_eq_self] at hcore
  · by_contra hc
    have := sizeof_pos
    exact hx (h.inSlab_header hp (by omega) (by unfold Slab.sizeof; omega))
  constructor
  · intro hb
    by_cases howns : (kind p).Owns p b
    · exact .inl howns
    · exact .inr ⟨hb, howns⟩
  · rintro (howns | ⟨hb, -⟩)
    · exact (h.live_iff b).mpr ⟨p, hp, howns⟩
    · exact hb

/-- The links after a change of one of them. -/
theorem Core.next_setNext (hq : q ∈ s.slabs) {v : Nat} (hv : v < 2 ^ 64) :
    ((s.modMem (Slab.setNext · p v)).slab q).next = update (fun q => (s.slab q).next) p v q := by
  by_cases hqp : q = p
  · subst hqp
    rw [update_self]
    change (Slab.read (Slab.setNext s.mem q v) q).next = v
    rw [Slab.read_setNext s.mem q hv]
  · rw [update_of_ne hqp]
    refine ByteMemory.load_congr fun x hlo hhi => ByteMemory.store_of_out ?_
    by_contra hc
    exact hqp (h.eq_of_inSlab hq hp (h.inSlab_header hq hlo (by unfold Slab.sizeof; omega))
      (h.inSlab_header hp (by omega) (by unfold Slab.sizeof; omega)))

theorem Core.lt : p < 2 ^ 64 := by
  have := (h.aligned p hp).2.2
  omega

end

theorem next_lt (s : Kheap) (p : Nat) : (s.slab p).next < 2 ^ 64 :=
  ByteMemory.load_lt s.mem p 8

section

variable (hl : s.Listed kind l)

include hl

/-- The head of a list. -/
theorem Listed.slabs_lt (h : s.Core kind) (i : Fin 8) : (s.caches i).slabs < 2 ^ 64 := by
  have hchain := hl.chain i
  cases hli : l i with
  | nil =>
    rw [hli] at hchain
    rw [show (s.caches i).slabs = 0 from hchain]
    decide
  | cons q rest =>
    rw [hli] at hchain
    rw [hchain.1]
    exact h.lt (hl.small i q (by rw [hli]; exact mem_cons_self)).1

/-- A list is no longer than there are slabs. -/
theorem Listed.length_le (i : Fin 8) {L : List Nat} (hsub : ∀ q ∈ l i, q ∈ L) : (l i).length ≤ L.length :=
  (subperm_of_subset (hl.nodup i) hsub).length_le

/-- A slab is in the list of its class only. -/
theorem Listed.class_eq (hkind : kind p = .small i fl) {j : Fin 8} (hp : p ∈ l j) : j = i := by
  obtain ⟨-, fl', hfl'⟩ := hl.small j p hp
  rw [hkind] at hfl'
  exact (SlabKind.small.inj hfl').1.symm

/-- One cache has another list. -/
theorem Listed.relist {c : Cache} {L : List Nat} (hslabs : s'.slabs = s.slabs)
    (hcaches : s'.caches = update s.caches i c)
    (hother : ∀ j, j ≠ i → ∀ q ∈ l j, (s'.slab q).next = (s.slab q).next)
    (hchain : Chain (fun p => (s'.slab p).next) c.slabs L) (hnodup : L.Nodup)
    (hcount : c.slabCount = L.length) (hsmall : ∀ q ∈ L, q ∈ s.slabs ∧ ∃ fl, kind q = .small i fl) :
    s'.Listed kind (update l i L) := by
  have hall : ∀ j, Chain (fun p => (s'.slab p).next) (s'.caches j).slabs (update l i L j) ∧
      (update l i L j).Nodup ∧ (s'.caches j).slabCount = (update l i L j).length ∧
      ∀ q ∈ update l i L j, q ∈ s'.slabs ∧ ∃ fl, kind q = .small j fl := by
    intro j
    rw [hcaches, hslabs]
    by_cases hj : j = i
    · subst hj
      rw [update_self, update_self]
      exact ⟨hchain, hnodup, hcount, hsmall⟩
    · rw [update_of_ne hj, update_of_ne hj]
      exact ⟨(hl.chain j).congr (hother j hj), hl.nodup j, hl.count j, hl.small j⟩
  exact ⟨fun j => (hall j).1, fun j => (hall j).2.1, fun j => (hall j).2.2.1, fun j => (hall j).2.2.2⟩

end

theorem Core.cacheAddSlab (h : s.Core kind) (hl : s.Listed kind l) (hp : p ∈ s.slabs)
    (hkind : kind p = .small i fl) (hnot : p ∉ l i) (hfew : s.slabs.length < 2 ^ 32) :
    (s.cacheAddSlab i p).Core kind ∧ (s.cacheAddSlab i p).Listed kind (update l i (p :: l i)) := by
  have hv := hl.slabs_lt h i
  have hcore := h.setNext hp hv
  have hlen : (l i).length + 1 ≤ s.slabs.length := by
    have hsub := hl.length_le i (L := s.slabs.erase p) fun q hq =>
      (mem_erase_of_ne (by rintro rfl; exact hnot hq)).mpr (hl.small i q hq).1
    have := length_erase_of_mem hp
    have := length_pos_of_mem hp
    omega
  have hsmall := forall_mem_cons.mpr ⟨⟨hp, fl, hkind⟩, hl.small i⟩
  refine ⟨⟨hcore.nodup, hcore.ok, hcore.aligned, hcore.held, hcore.apart, hcore.live_nodup,
    hcore.live_iff⟩, hl.relist rfl rfl (fun j hj q hq => ?_) ?_
    (nodup_cons.mpr ⟨hnot, hl.nodup i⟩) ?_ hsmall⟩
  · refine (h.next_setNext hp (hl.small j q hq).1 hv).trans (update_of_ne ?_ ..)
    rintro rfl
    exact hj (hl.class_eq hkind hq)
  · refine ((hl.chain i).push (Nat.ne_of_gt (h.aligned p hp).2.1) hnot).congr fun q hq => ?_
    exact h.next_setNext hp (hsmall q hq).1 hv
  · rw [length_cons, ← hl.count i]
    exact Nat.mod_eq_of_lt (by rw [hl.count i]; omega)

/-- The loop finds the slab and takes it out behind the one before it. -/
theorem cacheRemoveFrom_eq {rounds prev cur : Nat} {A B : List Nat}
    (hchain : Chain (fun p => (s.slab p).next) cur B) (hprev : prev = A.getLast?.getD 0)
    (hp : p ∈ B) (hrounds : B.length ≤ rounds) : ∃ C D, A ++ B = C ++ p :: D ∧
      cacheRemoveFrom i p rounds prev cur s = some (s.unlinkSlab i (C.getLast?.getD 0) p) := by
  induction rounds generalizing A B prev cur with
  | zero =>
    cases B with
    | nil => cases hp
    | cons a B => cases hrounds
  | succ rounds ih =>
    cases B with
    | nil => cases hp
    | cons a B =>
    obtain ⟨rfl, hne, hrest⟩ := hchain
    rw [cacheRemoveFrom, if_neg hne]
    by_cases hcur : cur = p
    · subst hcur
      exact ⟨A, B, rfl, by rw [if_pos rfl, hprev]⟩
    · rw [if_neg hcur]
      have hpB : p ∈ B := (mem_cons.mp hp).resolve_left fun heq => hcur heq.symm
      have hlast : cur = (A ++ [cur]).getLast?.getD 0 := by simp
      obtain ⟨C, D, hsplit, heq⟩ := ih hrest hlast hpB (Nat.le_of_succ_le_succ hrounds)
      exact ⟨C, D, by simpa using hsplit, heq⟩

theorem Core.setCache (h : s.Core kind) (i : Fin 8) (c : Cache) : (s.setCache i c).Core kind :=
  ⟨h.nodup, h.ok, h.aligned, h.held, h.apart, h.live_nodup, h.live_iff⟩

variable {C D : List Nat}

/-- A list from which `p` was taken, if the links of the rest are as they should be. -/
theorem Listed.taken (hl : s.Listed kind l) {head : Nat}
    (hsplit : l i = C ++ p :: D) (hslabs : s'.slabs = s.slabs)
    (hcaches : s'.caches = update s.caches i ⟨head, (s.caches i).slabCount - 1⟩)
    (hnext : ∀ q ∈ s.slabs, q ≠ p → (s'.slab q).next =
      update (fun q => (s.slab q).next) (C.getLast?.getD 0) n q)
    (hchain : Chain (update (fun q => (s.slab q).next) (C.getLast?.getD 0) n) head (C ++ D)) :
    s'.Listed kind (update l i (C ++ D)) := by
  have hnodup := hl.nodup i
  rw [hsplit, nodup_middle, nodup_cons] at hnodup
  have hpl : p ∈ l i := by rw [hsplit]; simp
  have hother : ∀ j, j ≠ i → ∀ q ∈ l j, q ∉ l i := by
    intro j hj q hq hqi
    obtain ⟨-, fl', hkind'⟩ := hl.small i q hqi
    exact hj (hl.class_eq hkind' hq)
  have hsub : ∀ q ∈ C ++ D, q ∈ l i := by
    intro q hq
    rw [hsplit]
    rcases mem_append.mp hq with hq | hq <;> simp [hq]
  refine hl.relist hslabs hcaches (fun j hj q hq => ?_) (hchain.congr fun q hq => ?_) hnodup.2 ?_
    fun q hq => hl.small i q (hsub q hq)
  · have hne : q ≠ p := fun hqp => hother j hj q hq (hqp ▸ hpl)
    refine (hnext q (hl.small j q hq).1 hne).trans (update_of_ne ?_ ..)
    -- the slab before `p` is in the list of `p`
    intro hlast
    rcases eq_nil_or_concat C with rfl | ⟨C, r, rfl⟩
    · exact (hl.chain j).ne_zero hq hlast
    · refine hother j hj q hq ?_
      rw [hlast, hsplit]
      simp
  · refine hnext q (hl.small i q (hsub q hq)).1 ?_
    rintro rfl
    exact hnodup.1 hq
  · rw [hl.count i, hsplit]
    simp only [length_append, length_cons]
    omega

section

variable (h : s.Core kind) (hl : s.Listed kind l)

include h hl

/-- The first slab is taken out of a list. -/
theorem Core.unlinkSlab_head (hsplit : l i = p :: D) :
    (s.unlinkSlab i 0 p).Core kind ∧ (s.unlinkSlab i 0 p).Listed kind (update l i D) := by
  have hchain := hl.chain i
  have hcount : 0 < (s.caches i).slabCount := by
    rw [hl.count i, hsplit]
    exact Nat.succ_pos _
  have hp := (hl.small i p (by rw [hsplit]; exact mem_cons_self)).1
  rw [hsplit] at hchain
  have hcore := h.setCache i ⟨(s.slab p).next, (s.caches i).slabCount - 1⟩
  unfold Kheap.unlinkSlab
  dsimp only
  rw [if_pos hcount, if_neg (fun hc => hc rfl)]
  refine ⟨hcore.setNext hp (by decide), ?_⟩
  refine hl.taken (C := []) (D := D) (n := 0) hsplit rfl rfl (fun r hr hrp => ?_) ?_
  · have hzero : r ≠ 0 := Nat.ne_of_gt (h.aligned r hr).2.1
    rw [hcore.next_setNext hp hr (by decide), update_of_ne hrp,
      show ([] : List Nat).getLast?.getD 0 = 0 from rfl, update_of_ne hzero]
    rfl
  · exact hchain.2.2.congr fun r hr => update_of_ne (hchain.2.2.ne_zero hr) ..

/-- A slab behind `q` is taken out of a list. -/
theorem Core.unlinkSlab_behind (hsplit : l i = C ++ q :: p :: D) : (s.unlinkSlab i q p).Core kind ∧
      (s.unlinkSlab i q p).Listed kind (update l i (C ++ q :: D)) := by
  have hchain := hl.chain i
  have hnodup := hl.nodup i
  have hcount : 0 < (s.caches i).slabCount := by
    rw [hl.count i, hsplit, length_append, length_cons]
    omega
  have hp := (hl.small i p (by rw [hsplit]; simp)).1
  have hq := (hl.small i q (by rw [hsplit]; simp)).1
  have hnext := next_lt s p
  have hsplit' : l i = (C ++ [q]) ++ p :: D := by rw [hsplit]; simp
  have hlast : (C ++ [q]).getLast?.getD 0 = q := by simp
  rw [hsplit] at hchain hnodup
  have hcore := (h.setNext hq hnext).setCache i ⟨(s.caches i).slabs, (s.caches i).slabCount - 1⟩
  unfold Kheap.unlinkSlab
  dsimp only
  rw [if_pos hcount, if_pos (Nat.ne_of_gt (h.aligned q hq).2.1)]
  refine ⟨hcore.setNext hp (by decide), ?_⟩
  rw [show C ++ q :: D = (C ++ [q]) ++ D by simp]
  refine hl.taken (n := (s.slab p).next) hsplit' rfl rfl (fun r hr hrp => ?_) ?_
  · rw [hcore.next_setNext hp hr (by decide), update_of_ne hrp, hlast]
    exact h.next_setNext hq hr hnext
  · rw [hlast, append_assoc, singleton_append]
    exact hchain.unlink hnodup

theorem Core.unlinkSlab (hsplit : l i = C ++ p :: D) : (s.unlinkSlab i (C.getLast?.getD 0) p).Core kind ∧
      (s.unlinkSlab i (C.getLast?.getD 0) p).Listed kind (update l i (C ++ D)) := by
  rcases eq_nil_or_concat C with rfl | ⟨C, q, rfl⟩
  · exact h.unlinkSlab_head hl hsplit
  · have hlast : (C.concat q).getLast?.getD 0 = q := by simp
    rw [hlast, concat_eq_append, append_assoc, singleton_append]
    exact h.unlinkSlab_behind hl (by rw [hsplit]; simp)

end

theorem sameOffLinks_setNext (hp : p ∈ s.slabs) (v : Nat) :
    SameOffLinks s (s.modMem (Slab.setNext · p v)) := by
  intro x hx
  have hout := hx p hp
  unfold InLinks at hout
  exact ByteMemory.store_of_out (by omega)

/-- The links of `p` and of the slab before it are all that changes. -/
theorem unlinkSlab_same {prev : Nat} (hp : p ∈ s.slabs) (hprev : prev ≠ 0 → prev ∈ s.slabs) :
    SameOffLinks s (s.unlinkSlab i prev p) := by
  intro x hx
  unfold Kheap.unlinkSlab
  dsimp only
  split
  · case _ hne =>
    exact (sameOffLinks_setNext (s := (s.modMem (Slab.setNext · prev _)).setCache i _) hp 0 x hx).trans
      (sameOffLinks_setNext (hprev hne) _ x hx)
  · exact sameOffLinks_setNext (s := s.setCache i _) hp 0 x hx

theorem Core.cacheRemoveSlab (h : s.Core kind) (hl : s.Listed kind l) (hp : p ∈ l i)
    (hfew : s.slabs.length < 2 ^ 32) : ∃ s', s.cacheRemoveSlab i p = some s' ∧ s'.Core kind ∧
      s'.Listed kind (update l i ((l i).erase p)) ∧ s'.slabs = s.slabs ∧ s'.live = s.live ∧
      SameOffLinks s s' := by
  have hlen : (l i).length ≤ 2 ^ 64 := by
    have := hl.length_le i (L := s.slabs) fun q hq => (hl.small i q hq).1
    omega
  obtain ⟨C, D, hsplit, heq⟩ := cacheRemoveFrom_eq (i := i) (A := []) (hl.chain i) rfl hp hlen
  rw [nil_append] at hsplit
  obtain ⟨hcore, hlisted⟩ := h.unlinkSlab hl hsplit
  have herase : (l i).erase p = C ++ D := by
    have hnodup := hl.nodup i
    rw [hsplit, nodup_middle, nodup_cons, mem_append, not_or] at hnodup
    rw [hsplit, erase_append_right _ hnodup.1.1, erase_cons_head]
  rw [herase]
  have hmem : ∀ q ∈ C ++ p :: D, q ∈ s.slabs := fun q hq => (hl.small i q (hsplit ▸ hq)).1
  refine ⟨_, heq, hcore, hlisted, ?_, ?_, unlinkSlab_same (hmem p (by simp)) fun hne => ?_⟩
  · unfold Kheap.unlinkSlab
    dsimp only
    split <;> rfl
  · unfold Kheap.unlinkSlab
    dsimp only
    split <;> rfl
  · rcases eq_nil_or_concat C with rfl | ⟨C, q, rfl⟩
    · exact absurd rfl hne
    · exact hmem _ (by simp)

/-! ## New slabs -/

/-- What the page allocator does: it refuses, or it hands out pages the heap did not have. -/
theorem pmmAllocPages_cases (s : Kheap) (count : Nat) :
    (∃ r, s.pmmAllocPages count = (none, { s with replies := r })) ∨
      ∃ page r, s.FreePages page count ∧ s.pmmAllocPages count = (some (page * pageSize), { s with
          replies := r
          held := fun q => s.held q || decide (page ≤ q ∧ q < page + count) }) := by
  unfold pmmAllocPages
  rcases hr : s.replies with _ | ⟨_ | page, r⟩
  · exact .inl ⟨s.replies, rfl⟩
  · exact .inl ⟨r, rfl⟩
  · by_cases hfree : s.FreePages page count
    · exact .inr ⟨page, r, hfree, if_pos hfree⟩
    · exact .inl ⟨r, if_neg hfree⟩

/-- The addresses of pages the allocator hands out. -/
theorem FreePages.spec {page count : Nat} (h : s.FreePages page count) :
    (pageSize ∣ page * pageSize ∧ 0 < page * pageSize ∧ page * pageSize + count * pageSize < 2 ^ 64) ∧
    ∀ x, page * pageSize ≤ x → x < page * pageSize + count * pageSize →
      (page ≤ x / pageSize ∧ x / pageSize < page + count) ∧ s.held (x / pageSize) = false := by
  obtain ⟨hcount, hpage, hbound, hfree⟩ := h
  refine ⟨⟨Nat.dvd_mul_left _ _, Nat.mul_pos hpage (by decide), ?_⟩, fun x hlo hhi => ?_⟩
  · simp only [pageSize]
    omega
  have hrange : page ≤ x / pageSize ∧ x / pageSize < page + count := by
    simp only [pageSize] at *
    omega
  refine ⟨hrange, ?_⟩
  have := hfree (x / pageSize - page) (by omega)
  rwa [Nat.add_sub_cancel' hrange.1] at this

/-- The objects of a new slab behind its header. -/
theorem alignUpTo_header (hp : pageSize ∣ p) (hlt : p + pageSize < 2 ^ 64) :
    alignUpTo kheapAlign (p + Slab.sizeof) = p + Slab.sizeof := by
  obtain ⟨k, rfl⟩ := hp
  simp only [alignUpTo, kheapAlign, Slab.sizeof, pageSize] at *
  omega

/-- The free list the loop of `slab_create` builds: the last object first. -/
def freeFrom (p : Nat) (i : Fin 8) : Nat → List Nat
  | 0 => []
  | n + 1 => object p i n :: freeFrom p i n

theorem mem_freeFrom {o : Nat} : o ∈ freeFrom p i n ↔ ∃ k < n, o = object p i k := by
  induction n with
  | zero => simp [freeFrom]
  | succ n ih =>
    rw [freeFrom, mem_cons, ih]
    constructor
    · rintro (rfl | ⟨k, hk, rfl⟩)
      · exact ⟨n, Nat.lt_succ_self n, rfl⟩
      · exact ⟨k, Nat.lt_succ_of_lt hk, rfl⟩
    · rintro ⟨k, hk, rfl⟩
      rcases Nat.lt_succ_iff_lt_or_eq.mp hk with hk | rfl
      · exact .inr ⟨k, hk, rfl⟩
      · exact .inl rfl

theorem nodup_freeFrom (p : Nat) (i : Fin 8) (n : Nat) : (freeFrom p i n).Nodup := by
  induction n with
  | zero => exact nodup_nil
  | succ n ih =>
    refine nodup_cons.mpr ⟨fun hmem => ?_, ih⟩
    obtain ⟨k, hk, heq⟩ := mem_freeFrom.mp hmem
    have := object_lt p i hk
    have := (cacheSize_spec i).2.1
    omega

theorem length_freeFrom (p : Nat) (i : Fin 8) (n : Nat) : (freeFrom p i n).length = n := by
  induction n with
  | zero => rfl
  | succ n ih => rw [freeFrom, length_cons, ih]

/-- The loop of `slab_create`. -/
theorem freeObjects_spec (hn : n ≤ objectCount i) (hp : 0 < p)
    (hlt : p + pageSize < 2 ^ 64) (hfree : (Slab.read mem p).freeList = 0) :
    (∃ head, Slab.read (freeObjects p (p + Slab.sizeof) (cacheSize i) n mem) p =
        { Slab.read mem p with freeList := head } ∧
      Chain (fun o => (freeObjects p (p + Slab.sizeof) (cacheSize i) n mem).load o 8) head
        (freeFrom p i n)) ∧
    ∀ x, ¬ (p ≤ x ∧ x < p + pageSize) → freeObjects p (p + Slab.sizeof) (cacheSize i) n mem x = mem x := by
  induction n with
  | zero =>
    have hsame : { Slab.read mem p with freeList := (Slab.read mem p).freeList } = Slab.read mem p := rfl
    rw [hfree] at hsame
    exact ⟨⟨0, hsame.symm, rfl⟩, fun x _ => rfl⟩
  | succ n ih =>
    obtain ⟨⟨head, hread, hchain⟩, hout⟩ := ih (Nat.le_of_succ_le hn)
    unfold freeObjects
    generalize freeObjects p (p + Slab.sizeof) (cacheSize i) n mem = mem' at hread hchain hout ⊢
    dsimp only
    have hobj : IsObject p i (object p i n) := ⟨n, hn, rfl⟩
    have hbounds := hobj.bounds
    have h16 := (cacheSize_spec i).2.1
    have hhead : head < 2 ^ 64 := by
      have : (Slab.read mem' p).freeList < 2 ^ 64 := ByteMemory.load_lt mem' (p + 8) 8
      rwa [hread] at this
    rw [show p + Slab.sizeof + n * cacheSize i = object p i n from rfl, hread]
    dsimp only
    have hnotin : object p i n ∉ freeFrom p i n := (nodup_cons.mp (nodup_freeFrom p i (n + 1))).1
    unfold Slab.sizeof at hbounds
    refine ⟨⟨object p i n, ?_, ?_⟩, fun x hx => ?_⟩
    · rw [Slab.read_setFreeList _ p (by omega), Slab.read_store_behind mem' p hobj.bounds.1, hread]
    · refine (hchain.push (by omega) hnotin).congr fun a ha => ?_
      have hobja : IsObject p i a := by
        have hmem : a ∈ freeFrom p i (n + 1) := ha
        obtain ⟨k, hk, rfl⟩ := mem_freeFrom.mp hmem
        exact ⟨k, by omega, rfl⟩
      have hlo := hobja.bounds.1
      unfold Slab.sizeof at hlo
      refine (ByteMemory.load_store_other (by omega)).trans ?_
      by_cases hao : a = object p i n
      · rw [hao, update_self]
        exact ByteMemory.load_store_of_lt mem' _ 8 hhead
      · rw [update_of_ne hao]
        have hap := hobja.apart hobj hao
        exact ByteMemory.load_store_other (by omega)
    · have hpage : 16 ≤ pageSize := by decide
      exact (ByteMemory.store_of_out (by omega)).trans
        ((ByteMemory.store_of_out (by omega)).trans (hout x hx))

end Lapis.Mm.Kheap
