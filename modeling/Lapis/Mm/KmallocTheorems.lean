/-
Lapis.Mm.KmallocTheorems — how large the blocks of `kmalloc` are.

A request is rounded up to 16 bytes and then either looked up in the size classes or turned into
a number of pages, all modulo 2^64. Up to 2^64 - 48 bytes nothing goes wrong in any state of the
heap, whatever its memory holds: a sum that wraps to 0 asks for no pages, and the page allocator
has no run of no pages. Above, a request gets an object of 16 bytes or a single page
(`Laid.kmalloc_wrapped`), unless there is none left.
-/
import Lapis.Mm.KreallocTheorems

namespace Lapis.Mm

open Lib
open List Option

namespace Kheap

variable {s s' : Kheap} {kind : Nat → SlabKind} {l : Fin 8 → List Nat} {n : Nat} {i : Fin 8}

/-! ## The block returned, in any state of the heap -/

theorem slabCreate_live (s : Kheap) (i : Fin 8) : (s.slabCreate i).2.live = s.live := by
  unfold Kheap.slabCreate
  rcases pmmAllocPages_cases s 1 with ⟨r, heq⟩ | ⟨page, r, -, heq⟩
  · rw [heq]
  · rw [heq]
    dsimp only
    split
    · rfl
    · split <;> rfl

theorem slabFor_live {r : Option Nat × Kheap} (h : s.slabFor i = some r) : r.2.live = s.live := by
  unfold Kheap.slabFor at h
  obtain ⟨p, -, h⟩ := bind_eq_some_iff.mp h
  split at h
  · obtain rfl := some.inj h
    rfl
  have hlive := slabCreate_live s i
  rcases hcreate : s.slabCreate i with ⟨_ | q, t⟩
  · rw [hcreate] at h hlive
    obtain rfl := some.inj h
    exact hlive
  · rw [hcreate] at h hlive
    obtain rfl := some.inj h
    exact hlive

/-- An object of a class becomes a block of its size. -/
theorem kmallocSmall_live {ptr : Nat} (h : s.kmallocSmall i = some (ptr, s')) (hptr : ptr ≠ 0) :
    s'.live = ⟨ptr, cacheSize i⟩ :: s.live := by
  unfold Kheap.kmallocSmall at h
  obtain ⟨⟨_ | p, t⟩, hslab, h⟩ := bind_eq_some_iff.mp h
  · obtain ⟨rfl, -⟩ := Prod.mk.inj (some.inj h)
    exact absurd rfl hptr
  have hlive : t.live = s.live := slabFor_live hslab
  dsimp only at h
  split at h
  · obtain ⟨rfl, -⟩ := Prod.mk.inj (some.inj h)
    exact absurd rfl hptr
  rw [← hlive]
  split at h
  · obtain ⟨u, hu, h⟩ := bind_eq_some_iff.mp h
    obtain ⟨rfl, rfl⟩ := Prod.mk.inj (some.inj h)
    exact cacheRemoveFrom_live _ _ _ hu
  · obtain ⟨rfl, rfl⟩ := Prod.mk.inj (some.inj h)
    rfl

/-- The number of pages of a big block. -/
def bigPages (size : Nat) : Nat :=
  alignUpTo pageSize ((Slab.sizeof + kheapAlign + size) % 2 ^ 64) / pageSize

theorem kmallocBig_live {size ptr : Nat} (h : s.kmallocBig size = (ptr, s')) (hptr : ptr ≠ 0) :
    0 < bigPages size ∧ s'.live = ⟨ptr, bigPages size * pageSize - Slab.sizeof⟩ :: s.live := by
  unfold Kheap.kmallocBig at h
  dsimp only at h
  rcases pmmAllocPages_cases s (bigPages size) with ⟨r, heq⟩ | ⟨page, r, hfree, heq⟩
  · rw [bigPages] at heq
    rw [heq] at h
    exact absurd (Prod.mk.inj h).1.symm hptr
  · rw [bigPages] at heq
    rw [heq] at h
    obtain ⟨rfl, rfl⟩ := Prod.mk.inj h
    exact ⟨hfree.1, rfl⟩

theorem fill_other {mem : ByteMemory} {a x : Nat} {c : UInt8}
    (h : ∀ k < n, x ≠ (a + k) % 2 ^ 64) : mem.fill a c n x = mem x := by
  induction n with
  | zero => rfl
  | succ n ih =>
    rw [ByteMemory.fill, Function.update_of_ne (h n (Nat.lt_succ_self n))]
    exact ih fun k hk => h k (Nat.lt_succ_of_lt hk)

/-! ## Requests that fit -/

/-- A block that `kmalloc` returns for `n` bytes has them, and `kzalloc` clears bytes of it only. -/
def Fits (s : Kheap) (n : Nat) : Prop :=
  ∀ ptr t, s.kmalloc n = some (ptr, t) → ptr ≠ 0 →
    ∃ b, t.live = b :: s.live ∧ b.ptr = ptr ∧ n ≤ b.size ∧
      ∃ u, s.kzalloc n = some (ptr, u) ∧
        ∀ x, (∀ k < b.size, x ≠ (b.ptr + k) % 2 ^ 64) → u.mem x = t.mem x

theorem fits_of_room (h : ∀ ptr t, s.kmalloc n = some (ptr, t) → ptr ≠ 0 →
      ∃ b, t.live = b :: s.live ∧ b.ptr = ptr ∧ n ≤ b.size) : s.Fits n := by
  intro ptr t heq hptr
  obtain ⟨b, hlive, rfl, hroom⟩ := h ptr t heq hptr
  refine ⟨b, hlive, rfl, hroom, t.modMem (·.fill b.ptr 0 n), ?_, fun x hx => ?_⟩
  · rw [Kheap.kzalloc, heq]
    exact if_neg hptr
  · exact fill_other fun k hk => hx k (Nat.lt_of_lt_of_le hk hroom)

/-- In every state of the heap a request of at most 2^64 - 48 bytes gets a block that is large
enough, or none. -/
theorem fits_of_le (s : Kheap) (hn : n + 48 ≤ 2 ^ 64) : s.Fits n := by
  refine fits_of_room fun ptr t heq hptr => ?_
  have hround : n ≤ alignUpTo kheapAlign n ∧ alignUpTo kheapAlign n + 48 ≤ 2 ^ 64 := by
    unfold alignUpTo kheapAlign
    omega
  unfold Kheap.kmalloc at heq
  split at heq
  · exact absurd (Prod.mk.inj (some.inj heq)).1.symm hptr
  dsimp only at heq
  cases hclass : cacheForSize (alignUpTo kheapAlign n) with
  | some i =>
    rw [hclass] at heq
    exact ⟨_, kmallocSmall_live heq hptr, rfl, Nat.le_trans hround.1 (cacheForSize_le hclass)⟩
  | none =>
  rw [hclass] at heq
  obtain ⟨hpages, hlive⟩ := kmallocBig_live (some.inj heq) hptr
  refine ⟨_, hlive, rfl, Nat.le_trans hround.1 (le_bigPages ?_ rfl hpages)⟩
  -- a sum of exactly 2^64 would ask for no page
  by_contra hwrap
  have hsum : Slab.sizeof + kheapAlign + alignUpTo kheapAlign n = 2 ^ 64 := by
    simp only [Slab.sizeof, kheapAlign] at hwrap hround ⊢
    omega
  rw [bigPages, hsum] at hpages
  exact absurd hpages (by decide)

/-! ## Requests that wrap around -/

/-- The page allocator has no page for the heap. -/
def NoPage (s : Kheap) : Prop := (s.pmmAllocPages 1).1 = none

/-- The request does not wrap around, or there is nothing to serve it with: no page, and for the
requests that become 0 bytes no object of the smallest class either. -/
def Roomy (s : Kheap) (n : Nat) : Prop :=
  n + 48 ≤ 2 ^ 64 ∨ s.NoPage ∧ (n + 16 ≤ 2 ^ 64 ∨ (s.caches 0).slabs = 0)

/-- A new slab is refused for want of a page only. -/
theorem slabCreate_none_iff (s : Kheap) (i : Fin 8) : (s.slabCreate i).1 = none ↔ s.NoPage := by
  rw [NoPage]
  rcases pmmAllocPages_cases s 1 with ⟨r, heq⟩ | ⟨page, r, hfree, heq⟩
  · rw [Kheap.slabCreate, heq]
  · obtain ⟨⟨hdvd, -, hlt⟩, -⟩ := hfree.spec
    rw [Nat.one_mul] at hlt
    have hcreate := congrArg Prod.fst (slabCreate_eq (i := i) heq hdvd hlt)
    rw [heq, hcreate]

/-- A slab with a free object serves the request. -/
theorem Laid.kmallocSmall_ne_zero {t u : Kheap} {p ptr : Nat} (h : t.Laid kind l) (hp : p ∈ l i)
    (hslab : s.slabFor i = some (some p, t)) (heq : s.kmallocSmall i = some (ptr, u)) : ptr ≠ 0 := by
  obtain ⟨hmem, o, fl, hkind⟩ := h.free_of_mem hp
  have hok := h.core.ok p hmem
  rw [hkind] at hok
  have hhead : (t.slab p).freeList = o := hok.read_eq.2.1
  have hlarge : ¬ o < 0x1000 := by
    have := (hok.2.2 o mem_cons_self).bounds.1
    have := h.core.page_le hmem
    omega
  unfold Kheap.kmallocSmall at heq
  simp only [hslab, bind_eq_bind, bind_some, hhead, if_neg hlarge] at heq
  have hptr : ptr = o := by
    split at heq
    · obtain ⟨u, -, heq⟩ := bind_eq_some_iff.mp heq
      exact (Prod.mk.inj (some.inj heq)).1.symm
    · exact (Prod.mk.inj (some.inj heq)).1.symm
  omega

theorem slabFor_of_listed {p : Nat} (h : findSlab s.mem (2 ^ 64) (s.caches i).slabs = some p)
    (hp : p ≠ 0) : s.slabFor i = some (some p, s) := by
  unfold Kheap.slabFor
  rw [h]
  exact if_pos hp

theorem slabFor_of_empty (h : findSlab s.mem (2 ^ 64) (s.caches i).slabs = some 0) :
    (s.slabFor i).map Prod.fst = some (s.slabCreate i).1 := by
  unfold Kheap.slabFor
  rw [h]
  rcases hcreate : s.slabCreate i with ⟨_ | p, t⟩
  · simp
  · simp

/-- A class serves no request when it has no slab with a free object and gets no page. -/
theorem Laid.kmallocSmall_refused_iff (h : s.Laid kind l) (hfew : s.slabs.length + 1 < 2 ^ 32) :
    (∃ t, s.kmallocSmall i = some (0, t)) ↔ s.NoPage ∧ (s.caches i).slabs = 0 := by
  have hfind := h.findSlab i (show 0 < 2 ^ 64 by decide)
  have hchain := h.listed.chain i
  cases hli : l i with
  | cons p rest =>
    rw [hli] at hfind hchain
    have hp : p ∈ l i := by
      rw [hli]
      exact mem_cons_self
    refine iff_of_false ?_ fun hempty => hchain.2.1 (hchain.1.symm.trans hempty.2)
    rintro ⟨u, hu⟩
    exact h.kmallocSmall_ne_zero hp (slabFor_of_listed hfind hchain.2.1) hu rfl
  | nil =>
  rw [hli] at hfind hchain
  have hslab := slabFor_of_empty hfind
  rw [and_iff_left (show (s.caches i).slabs = 0 from hchain), ← slabCreate_none_iff s i]
  rcases h.slabFor hfew i with ⟨r, heq⟩ | ⟨p, t, kind', l', heq, ht, hp, -⟩
  · rw [heq] at hslab
    refine iff_of_true ⟨{ s with replies := r }, ?_⟩ (some.inj hslab).symm
    simp only [Kheap.kmallocSmall, heq, bind_eq_bind, bind_some]
  rw [heq] at hslab
  refine iff_of_false ?_ fun hnone => ?_
  · rintro ⟨u, hu⟩
    exact ht.kmallocSmall_ne_zero hp heq hu rfl
  · rw [hnone] at hslab
    cases some.inj hslab

theorem kmallocBig_refused_iff (s : Kheap) (size : Nat) :
    (s.kmallocBig size).1 = 0 ↔ (s.pmmAllocPages (bigPages size)).1 = none := by
  unfold Kheap.kmallocBig
  dsimp only
  rw [← bigPages]
  rcases pmmAllocPages_cases s (bigPages size) with ⟨r, heq⟩ | ⟨page, r, hfree, heq⟩
  · rw [heq]
    exact iff_of_true rfl rfl
  obtain ⟨⟨hdvd, hpos, hlt⟩, -⟩ := hfree.spec
  have hspan : pageSize ≤ bigPages size * pageSize := Nat.le_mul_of_pos_left pageSize hfree.1
  rw [heq]
  refine iff_of_false ?_ fun h => by cases h
  dsimp only
  rw [alignUpTo_header hdvd (by omega)]
  omega

/-- The requests above 2^64 - 48 are for one page or for an object of the smallest class. -/
theorem Laid.refuses_iff (h : s.Laid kind l) (hfew : s.slabs.length + 1 < 2 ^ 32)
    (hlo : 2 ^ 64 < n + 48) (hhi : n < 2 ^ 64) :
    s.Refuses n ↔ s.NoPage ∧ (n + 16 ≤ 2 ^ 64 ∨ (s.caches 0).slabs = 0) := by
  have hpos : ¬ n = 0 := by omega
  by_cases hround : n + 16 ≤ 2 ^ 64
  · have hbig : alignUpTo kheapAlign n = 2 ^ 64 - 32 ∨ alignUpTo kheapAlign n = 2 ^ 64 - 16 := by
      unfold alignUpTo kheapAlign
      omega
    have hclass : cacheForSize (alignUpTo kheapAlign n) = none := by
      rcases hbig with h | h <;> rw [h] <;> decide
    have hpages : bigPages (alignUpTo kheapAlign n) = 1 := by
      rcases hbig with h | h <;> rw [h] <;> decide
    have hcall : s.kmalloc n = some (s.kmallocBig (alignUpTo kheapAlign n)) := by
      rw [Kheap.kmalloc, if_neg hpos]
      dsimp only
      rw [hclass]
    rw [Refuses, hcall, and_iff_left (.inl hround), NoPage, ← hpages, ← kmallocBig_refused_iff]
    constructor
    · rintro ⟨t, ht⟩
      rw [some.inj ht]
    · intro hnull
      exact ⟨_, congrArg some (Prod.ext hnull rfl)⟩
  · have hzero : alignUpTo kheapAlign n = 0 := by
      unfold alignUpTo kheapAlign
      omega
    have hcall : s.kmalloc n = s.kmallocSmall 0 := by
      rw [Kheap.kmalloc, if_neg hpos, hzero]
      rfl
    rw [Refuses, hcall, h.kmallocSmall_refused_iff hfew, or_iff_right hround]

/-- `kmalloc` never returns too small a block for a request of at most 2^64 - 48 bytes, in any state
of the heap; for larger requests it does so exactly when there is a page, or an object of the
smallest class, to return. -/
theorem kmalloc_fits_iff (s : Kheap) (n : Nat) : (n + 48 ≤ 2 ^ 64 → Fits s n) ∧
      (Sound s → s.slabs.length + 1 < 2 ^ 32 → n < 2 ^ 64 → (Fits s n ↔ s.Roomy n)) := by
  refine ⟨fits_of_le s, fun hsound hfew hn => ?_⟩
  obtain ⟨kind, l, h⟩ := hsound
  rw [Roomy]
  by_cases hle : n + 48 ≤ 2 ^ 64
  · exact iff_of_true (fits_of_le s hle) (.inl hle)
  rw [or_iff_right hle, ← h.refuses_iff hfew (Nat.lt_of_not_le hle) hn]
  rcases h.kmalloc hfew n with ⟨r, heq⟩ | ⟨b, t, heq, halloc⟩
  · refine iff_of_true (fun ptr t ht hptr => ?_) ⟨_, heq⟩
    exact absurd (Prod.mk.inj (some.inj (ht.symm.trans heq))).1 hptr
  have hptr : b.ptr ≠ 0 := Nat.ne_of_gt halloc.ptr_pos
  refine iff_of_false (fun hfits => ?_) ?_
  · obtain ⟨c, hlive, -, hroom, -⟩ := hfits b.ptr t heq hptr
    have hsmall := h.kmalloc_wrapped hfew (by omega) hn heq halloc
    rw [halloc.live] at hlive
    obtain ⟨rfl, -⟩ := List.cons.inj hlive
    omega
  · rintro ⟨u, hu⟩
    exact hptr (Prod.mk.inj (some.inj (heq.symm.trans hu))).1

theorem kmalloc_fits_iff_first : Fits (kheapInit (fun _ => 0) [some 2]) 100 ∧
      (Fits (kheapInit (fun _ => 0) []) (2 ^ 64 - 1) ↔ Roomy (kheapInit (fun _ => 0) []) (2 ^ 64 - 1)) ∧
      Roomy (kheapInit (fun _ => 0) []) (2 ^ 64 - 1) :=
  ⟨(kmalloc_fits_iff _ 100).1 (by decide),
    (kmalloc_fits_iff _ (2 ^ 64 - 1)).2 ⟨_, _, laid_kheapInit _ _⟩ (by decide) (by decide),
    .inr ⟨rfl, .inr rfl⟩⟩

/-- A request for 2^64 - 1 bytes gets an object of 16 bytes. -/
theorem kmalloc_too_small : ¬ Fits (kheapInit (fun _ => 0) [some 2]) (2 ^ 64 - 1) := by
  have hcall : ((kheapInit (fun _ => 0) [some 2]).kmalloc (2 ^ 64 - 1)).map
      (fun r => (r.1, r.2.live)) = some (12272, [⟨12272, 16⟩]) := by
    decide +kernel
  obtain ⟨⟨ptr, t⟩, heq, hparts⟩ := map_eq_some_iff.mp hcall
  obtain ⟨rfl, hlive⟩ := Prod.mk.inj hparts
  intro hfits
  obtain ⟨b, hlive', -, hroom, -⟩ := hfits _ t heq (by decide)
  obtain ⟨rfl, -⟩ := List.cons.inj (hlive.symm.trans hlive')
  exact absurd hroom (by decide)

end Kheap

end Lapis.Mm
