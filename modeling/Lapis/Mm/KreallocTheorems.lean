/-
Lapis.Mm.KreallocTheorems — what `krealloc` keeps of a block.

The old size of a block is not stored; `krealloc` takes the size in the header of its slab, a field of
16 bits. `Sized` says what that field is worth for a block that `kmalloc` gave out for `n` bytes: it
counts all of them, or 0xFFFF if there are more. It stays so while other blocks come and go and while
bytes are written (`Reaches.sized`). A block of more than 0xFFFF bytes that grows therefore keeps its
first 0xFFFF bytes, and the pages behind them are clear in the new block; a request close to 2^64 wraps
around to a small block. In all other cases the contents are kept.
-/
import Lapis.Mm.KheapRunTheorems

namespace Lapis.Mm

open Lib
open Function List Option

namespace Kheap

variable {s s' : Kheap} {kind : Nat → SlabKind} {l : Fin 8 → List Nat} {b : Block} {n : Nat}

/-! ## The size in the header -/

/-- A block that was allocated for `n` bytes. -/
structure Sized (s : Kheap) (b : Block) (n : Nat) : Prop where
  live : b ∈ s.live
  counted : n + 63 < 2 ^ 64 → min n 0xFFFF ≤ (s.slab (pageBase b.ptr)).objectSize ∧
    (s.slab (pageBase b.ptr)).objectSize ≤ b.size

theorem Sized.of_same (h : s.Sized b n) (hlive : b ∈ s'.live) (hsame : Same s s' b) : s'.Sized b n :=
  ⟨hlive, by rw [hsame.2]; exact h.counted⟩

/-- The operation neither frees nor reallocates the block. -/
def Spares (ptr : Nat) : HeapOp → Prop
  | .kfree p | .krealloc p _ => p ≠ ptr
  | _ => True

instance (ptr : Nat) (op : HeapOp) : Decidable (Spares ptr op) :=
  match op with
  | .kfree _ | .krealloc _ _ => inferInstanceAs (Decidable (_ ≠ _))
  | .kmalloc _ | .kzalloc _ | .write _ _ => inferInstanceAs (Decidable True)

variable {size : Nat}

theorem Sized.of_alloc {r : Option (Nat × Kheap)} (h : s.Sized b n)
    (hr : (∃ replies, r = some (0, { s with replies := replies })) ∨
      ∃ c t, r = some (c.ptr, t) ∧ Allocated s t size c) (hstep : r.map Prod.snd = some s') :
    s'.Sized b n := by
  rcases hr with ⟨replies, rfl⟩ | ⟨c, t, rfl, halloc⟩
  · obtain rfl := some.inj hstep
    exact ⟨h.live, h.counted⟩
  · obtain rfl := some.inj hstep
    refine h.of_same ?_ (halloc.same b h.live)
    rw [halloc.live]
    exact mem_cons_of_mem c h.live

theorem Sized.of_freed {ptr : Nat} (h : s.Sized b n) (hfreed : Freed s s' ptr) (hne : ptr ≠ b.ptr) :
    s'.Sized b n := by
  have hlive : b ∈ s'.live := by
    rcases hfreed.live with heq | heq
    · rw [heq]
      exact h.live
    · rw [heq]
      exact mem_filter.mpr ⟨h.live, decide_eq_true hne.symm⟩
  exact h.of_same hlive (hfreed.same b hlive)

theorem Sized.of_krealloc {c : Block} (hs : s.Sized b n) (h : s.Laid kind l)
    (hc : c ∈ s.live) (hne : c ≠ b) (hsize : size + 63 < 2 ^ 64)
    (hfew : s.slabs.length + 1 < 2 ^ 32) (hpos : 0 < size)
    (hstep : (s.krealloc c.ptr size).map Prod.snd = some s') : s'.Sized b n := by
  rcases h.krealloc hc hpos hsize hfew with ⟨-, heq⟩ | ⟨-, ⟨r, heq⟩ | ⟨c', t, heq, hmoved⟩⟩
  · rw [heq] at hstep
    obtain rfl := some.inj hstep
    exact hs
  · rw [heq] at hstep
    obtain rfl := some.inj hstep
    exact ⟨hs.live, hs.counted⟩
  · rw [heq] at hstep
    obtain rfl := some.inj hstep
    obtain ⟨hlive, hsame⟩ := hmoved.others b hs.live hne.symm
    exact hs.of_same hlive hsame

/-- A block other than NULL has an address. -/
theorem Laid.ptr_ne_zero (h : s.Laid kind l) (hb : b ∈ s.live) : b.ptr ≠ 0 := by
  obtain ⟨p, hp, howns⟩ := (h.core.live_iff b).mp hb
  have hmin := ((h.core.ok p hp).owns_spec howns).1
  have hpage := h.core.page_le hp
  omega

theorem Sized.write {addr : Nat} {value : UInt8} (hs : s.Sized b n) (h : s.Laid kind l)
    (hop : callOk (.write addr value) s) : (s.modMem (update · addr value)).Sized b n := by
  have hother : ∀ x, x ≠ addr → update s.mem addr value x = s.mem x :=
    fun x hx => update_of_ne hx ..
  rcases hop with ⟨c, hc, hlo, hhi⟩ | hfree
  · obtain ⟨-, hsame, hsize⟩ := h.writeLive (f := (update · addr value)) hc fun x hx =>
      hother x fun hxa => hx (hxa ▸ ⟨hlo, hhi⟩)
    by_cases hbc : b = c
    · subst hbc
      exact ⟨hs.live, by rw [hsize]; exact hs.counted⟩
    · exact hs.of_same hs.live (hsame b hs.live hbc)
  · refine hs.of_same hs.live (h.core.same_of_held (fun x hx => hother x fun hxa => ?_) hs.live)
    simp [hxa, hfree] at hx

/-- What an operation that spares the block does to it. -/
theorem Laid.step_sized {op : HeapOp} (h : s.Laid kind l) (hop : callOk op s) (hwrap : NoWrap op s)
    (hspare : Spares b.ptr op) (hs : s.Sized b n) (hstep : s.step op = some s') : s'.Sized b n := by
  cases op with
  | kmalloc size => exact hs.of_alloc (h.kmalloc hwrap size) hstep
  | kzalloc size => exact hs.of_alloc (h.kzalloc hwrap.2 hwrap.1) hstep
  | krealloc ptr size =>
    rcases hop.1 with rfl | ⟨c, hc, rfl⟩
    · exact hs.of_alloc (h.kmalloc hwrap.2 size) hstep
    have hptr := h.ptr_ne_zero hc
    have hne : c ≠ b := fun heq => hspare (heq ▸ rfl)
    by_cases hzero : size = 0
    · obtain ⟨t, heq, hfreed⟩ := h.kfree hc (Nat.lt_of_succ_lt hwrap.2)
      have ht : s.step (.krealloc c.ptr size) = some t := by
        simp only [Kheap.step, Kheap.krealloc, if_neg hptr, if_pos hzero, heq]
        rfl
      obtain rfl := some.inj (ht.symm.trans hstep)
      exact hs.of_freed hfreed hspare
    · exact hs.of_krealloc h hc hne (hwrap.1.resolve_left hptr) hwrap.2
        (Nat.pos_of_ne_zero hzero) hstep
  | kfree ptr =>
    rcases hop with rfl | ⟨c, hc, rfl⟩
    · obtain rfl := some.inj (show some s = some s' from hstep)
      exact hs
    · obtain ⟨t, heq, hfreed⟩ := h.kfree hc hwrap
      obtain rfl := some.inj (heq.symm.trans hstep)
      exact hs.of_freed hfreed hspare
  | write addr value =>
    obtain rfl := some.inj hstep
    exact hs.write h hop

/-- The block stays what it is in every run that spares it. -/
theorem Reaches.sized {s0 : Kheap}
    (hrun : Reaches (fun op s => callOk op s ∧ NoWrap op s ∧ Spares b.ptr op) s0 s)
    (hsound : s0.Sound) (hsized : s0.Sized b n) : s.Sound ∧ s.Sized b n := by
  induction hrun with
  | init => exact ⟨hsound, hsized⟩
  | next _ hop hstep ih =>
    obtain ⟨⟨kind, l, h⟩, hs⟩ := ih
    obtain ⟨hcall, hwrap, hspare⟩ := hop
    obtain ⟨s', heq, hlaid⟩ := h.step hcall hwrap
    obtain rfl := some.inj (heq.symm.trans hstep)
    exact ⟨hlaid, h.step_sized hcall hwrap hspare hs hstep⟩

/-! ## Requests that wrap around -/

variable {s₁ : Kheap}

/-- A request close to 2^64 gets an object of the smallest class or a single page. -/
theorem Laid.kmalloc_wrapped (h : s.Laid kind l)
    (hfew : s.slabs.length + 1 < 2 ^ 32) (hlo : 2 ^ 64 ≤ size + 63) (hhi : size < 2 ^ 64)
    (heq : s.kmalloc size = some (b.ptr, s₁)) (halloc : Allocated s s₁ size b) : b.size < size := by
  have hpos := halloc.ptr_pos
  have hlive := halloc.live
  rw [Kheap.kmalloc, if_neg (by omega)] at heq
  dsimp only at heq
  cases hclass : cacheForSize (alignUpTo kheapAlign size) with
  | some i =>
    rw [hclass] at heq
    rcases h.kmallocSmall hfew i with ⟨r, hr⟩ | ⟨o, t, kind', l', hr, -, -, hlive', -⟩
    · have := congrArg Prod.fst (some.inj (hr.symm.trans heq))
      dsimp only at this
      omega
    obtain ⟨-, rfl⟩ := Prod.mk.inj (some.inj (hr.symm.trans heq))
    have hmax : ∀ i, cacheSize i ≤ 2048 := by decide
    have := hmax i
    rw [← (List.cons.inj (hlive'.symm.trans hlive)).1]
    dsimp only
    omega
  | none =>
  rw [hclass] at heq
  rcases h.kmallocBig (alignUpTo kheapAlign size) with ⟨r, hr⟩ |
    ⟨o, n, t, kind', l', hr, -, -, -, hn, hlive', -⟩
  · have := congrArg Prod.fst (some.inj ((congrArg some hr).symm.trans heq))
    dsimp only at this
    omega
  · obtain ⟨-, rfl⟩ := Prod.mk.inj (some.inj ((congrArg some hr).symm.trans heq))
    rw [← (List.cons.inj (hlive'.symm.trans hlive)).1]
    simp only [alignUpTo, kheapAlign, Slab.sizeof, pageSize] at *
    omega

section Live

variable {i : Fin 8} {p ptr : Nat}

theorem unlinkSlab_live (s : Kheap) (i : Fin 8) (prev p : Nat) : (s.unlinkSlab i prev p).live = s.live := by
  unfold Kheap.unlinkSlab
  dsimp only
  by_cases hprev : prev ≠ 0
  · rw [if_pos hprev]
    rfl
  · rw [if_neg hprev]
    rfl

theorem cacheRemoveFrom_live (rounds prev cur : Nat)
    (h : cacheRemoveFrom i p rounds prev cur s = some s') : s'.live = s.live := by
  induction rounds generalizing prev cur with
  | zero => cases h
  | succ rounds ih =>
    unfold cacheRemoveFrom at h
    split at h
    · rw [← some.inj h]
    · split at h
      · rw [← some.inj h]
        exact unlinkSlab_live s i prev p
      · exact ih _ _ h

theorem slabDestroy_live (s : Kheap) (p : Nat) : (s.slabDestroy p).live = s.live := by
  unfold Kheap.slabDestroy
  dsimp only
  split <;> rfl

theorem freeObject_live (h : s.freeObject i p ptr = some s') : ∀ c ∈ s'.live, c ∈ s.live := by
  unfold Kheap.freeObject at h
  dsimp only at h
  have hstart : (if (s.slab p).freeCount = 0 then s.cacheAddSlab i p else s).live = s.live := by
    split <;> rfl
  generalize (if (s.slab p).freeCount = 0 then s.cacheAddSlab i p else s) = t at h hstart
  rw [← hstart]
  have hdrop : ∀ c ∈ ((t.modMem (pushObject · p ptr)).dropBlock ptr).live, c ∈ t.live :=
    fun c hc => (mem_filter.mp hc).1
  split at h
  · obtain ⟨u, hu, rfl⟩ := map_eq_some_iff.mp h
    rwa [slabDestroy_live, cacheRemoveFrom_live _ _ _ hu]
  · rwa [← some.inj h]

/-- `kfree` gives no block out, whatever the memory holds. -/
theorem kfree_live (h : s.kfree ptr = some s') : ∀ c ∈ s'.live, c ∈ s.live := by
  unfold Kheap.kfree at h
  dsimp only at h
  split at h
  · rw [← some.inj h]
    exact fun c hc => hc
  split at h
  · rw [← some.inj h]
    exact fun c hc => hc
  split at h
  · rw [← some.inj h]
    exact fun c hc => hc
  split at h
  · rw [← some.inj h]
    intro c hc
    have := (mem_filter.mp hc).1
    rwa [slabDestroy_live] at this
  split at h
  · exact freeObject_live h
  · cases h

end Live

/-! ## krealloc -/

/-- The block holds the bytes `d` at its start. -/
def Holds (s : Kheap) (b : Block) (d : List UInt8) : Prop :=
  d.length ≤ b.size ∧ ∀ k, k < d.length → s.mem (b.ptr + k) = d.getD k 0

/-- What callers of `krealloc` rely on: it returns, a block it returns has room for `m` bytes and
starts with the bytes of the old one, as many as both have, and if it returns NULL the old block is
there and unchanged. -/
def Keeps (s : Kheap) (b : Block) (d : List UInt8) (m : Nat) : Prop :=
  ∃ q s', s.krealloc b.ptr m = some (q, s') ∧
    (q ≠ 0 → ∃ b' ∈ s'.live, b'.ptr = q ∧ m ≤ b'.size ∧
      ∀ k, k < min d.length m → s'.mem (q + k) = d.getD k 0) ∧
    (q = 0 → b ∈ s'.live ∧ ∀ x, b.ptr ≤ x → x < b.ptr + b.size → s'.mem x = s.mem x)

/-- The heap has no block for the request. -/
def Refuses (s : Kheap) (m : Nat) : Prop := ∃ s', s.kmalloc m = some (0, s')

/-- The request is refused, or it does not wrap around and every byte from 0xFFFF on that both blocks
have is 0. -/
def Copyable (s : Kheap) (d : List UInt8) (m : Nat) : Prop :=
  s.Refuses m ∨ m + 63 < 2 ^ 64 ∧ ∀ k, 0xFFFF ≤ k → k < min d.length m → d.getD k 0 = 0

theorem objectSize_lt (s : Kheap) (p : Nat) : (s.slab p).objectSize < 2 ^ 16 :=
  ByteMemory.load_lt s.mem (p + 20) 2

variable {d : List UInt8} {m : Nat}

/-- The block is large enough already. -/
theorem Laid.keeps_in_place (h : s.Laid kind l) (hb : b ∈ s.live)
    (hd : s.Holds b d) (hpos : 0 < m) (hfits : (s.slab (pageBase b.ptr)).objectSize ≤ b.size)
    (hle : m ≤ (s.slab (pageBase b.ptr)).objectSize) : s.Keeps b d m ∧ s.Copyable d m := by
  have hlt := objectSize_lt s (pageBase b.ptr)
  refine ⟨⟨b.ptr, s, by rw [h.krealloc_eq hb hpos, if_pos hle], fun _ => ?_, fun hnull => ?_⟩,
    .inr ⟨by omega, fun k hlo hhi => absurd hhi (by omega)⟩⟩
  · exact ⟨b, hb, rfl, by omega, fun k hk => hd.2 k (by omega)⟩
  · exact absurd hnull (h.ptr_ne_zero hb)

/-- A request that wraps around: whatever is copied where, the block returned is too small. -/
theorem Laid.not_keeps_wrapped {b' : Block}
    (h : s.Laid kind l) (hb : b ∈ s.live) (hpos : 0 < m) (hm : m < 2 ^ 64)
    (hfew : s.slabs.length + 1 < 2 ^ 32) (hwrap : 2 ^ 64 ≤ m + 63)
    (heq : s.kmalloc m = some (b'.ptr, s₁)) (halloc : Allocated s s₁ m b') : ¬ s.Keeps b d m := by
  rintro ⟨q, s', hcall, hroom, -⟩
  have hlt := objectSize_lt s (pageBase b.ptr)
  have hptr : b'.ptr ≠ 0 := Nat.ne_of_gt halloc.ptr_pos
  rw [h.krealloc_eq hb hpos, if_neg (by omega), heq, bind_some, if_neg hptr] at hcall
  obtain ⟨t, ht, hqt⟩ := map_eq_some_iff.mp hcall
  obtain ⟨rfl, rfl⟩ := Prod.mk.inj hqt
  obtain ⟨c, hc, hcptr, hcsize, -⟩ := hroom hptr
  obtain ⟨kind1, l1, h1⟩ := halloc.laid
  have hb' : b' ∈ s₁.live := by rw [halloc.live]; exact mem_cons_self
  have hcb : c = b' := h1.core.eq_of_ptr hb' (kfree_live ht c hc) hcptr
  have hsmall := h.kmalloc_wrapped hfew hwrap hm heq halloc
  rw [hcb] at hcsize
  omega

/-- The bytes of a block that was moved. -/
theorem Moved.bytes {b' : Block} (h : Moved s s' m b b')
    (hs : s.Sized b d.length) (hd : s.Holds b d) (hn : d.length + 63 < 2 ^ 64)
    (hgrow : (s.slab (pageBase b.ptr)).objectSize < m) :
    (∀ k, k < min d.length m → s'.mem (b'.ptr + k) = d.getD k 0) ↔
      ∀ k, 0xFFFF ≤ k → k < min d.length m → d.getD k 0 = 0 := by
  obtain ⟨hcounted, hfits⟩ := hs.counted hn
  have hlt := objectSize_lt s (pageBase b.ptr)
  have hroom := h.room.1
  have hlow : ∀ k < (s.slab (pageBase b.ptr)).objectSize, k < d.length → s'.mem (b'.ptr + k) = d.getD k 0 :=
    fun k hk hkd => (h.copied hfits k hk).trans (hd.2 k hkd)
  -- bytes the header does not count are those from 0xFFFF on
  have hhigh : ∀ k, 0xFFFF ≤ k → k < min d.length m → s'.mem (b'.ptr + k) = 0 :=
    fun k hlo hhi => h.cleared (by omega) k (by omega) (by omega)
  constructor
  · intro hall k hlo hhi
    rw [← hall k hhi]
    exact hhigh k hlo hhi
  · intro hzero k hk
    by_cases hin : k < (s.slab (pageBase b.ptr)).objectSize
    · exact hlow k hin (by omega)
    · rw [hhigh k (by omega) hk, hzero k (by omega) hk]

/-- `krealloc` of a block that was allocated for the bytes it holds. -/
theorem Laid.keeps_iff (h : s.Laid kind l) (hs : s.Sized b d.length)
    (hd : s.Holds b d) (hpos : 0 < m) (hm : m < 2 ^ 64) (hfew : s.slabs.length + 1 < 2 ^ 32) :
    s.Keeps b d m ↔ s.Copyable d m := by
  have hb := hs.live
  have hn : d.length + 63 < 2 ^ 64 := by
    obtain ⟨p, hp, howns⟩ := (h.core.live_iff b).mp hb
    have hmin := ((h.core.ok p hp).owns_spec howns).1
    have hpage := h.core.page_le hp
    have hlt := h.core.live_lt hb
    have hlen := hd.1
    omega
  have hfits := (hs.counted hn).2
  by_cases hle : m ≤ (s.slab (pageBase b.ptr)).objectSize
  · obtain ⟨hkeeps, hcopy⟩ := h.keeps_in_place hb hd hpos hfits hle
    exact iff_of_true hkeeps hcopy
  rcases h.kmalloc hfew m with ⟨r, heq⟩ | ⟨b', s₁, heq, halloc⟩
  · refine iff_of_true ⟨0, { s with replies := r }, ?_, fun hne => absurd rfl hne,
      fun _ => ⟨hb, fun x _ _ => rfl⟩⟩ (.inl ⟨_, heq⟩)
    rw [h.krealloc_eq hb hpos, if_neg hle, heq]
    rfl
  have hserved : ¬ s.Refuses m := by
    rintro ⟨t, ht⟩
    have := congrArg Prod.fst (some.inj (heq.symm.trans ht))
    exact Nat.ne_of_gt halloc.ptr_pos this
  by_cases hwrap : m + 63 < 2 ^ 64
  · obtain ⟨t, hfree, hmoved⟩ := halloc.move hb hwrap hfew (Nat.lt_of_not_le hle) fun hbig =>
      h.kmalloc_cleared hbig hwrap heq halloc.ptr_pos halloc.live
    have hptr : b'.ptr ≠ 0 := Nat.ne_of_gt halloc.ptr_pos
    have hcall : s.krealloc b.ptr m = some (b'.ptr, t) := by
      rw [h.krealloc_eq hb hpos, if_neg hle, heq, bind_some, if_neg hptr, hfree]
      rfl
    have hbytes := hmoved.bytes hs hd hn (Nat.lt_of_not_le hle)
    constructor
    · rintro ⟨q, s', hq, hroom, -⟩
      obtain ⟨rfl, rfl⟩ := Prod.mk.inj (some.inj (hcall.symm.trans hq))
      obtain ⟨-, -, -, -, hall⟩ := hroom hptr
      exact .inr ⟨hwrap, hbytes.mp hall⟩
    · intro hcopy
      have hzero := (hcopy.resolve_left hserved).2
      exact ⟨b'.ptr, t, hcall, fun _ => ⟨b', hmoved.live, rfl, hmoved.room.1, hbytes.mpr hzero⟩,
        fun hnull => absurd hnull hptr⟩
  · refine iff_of_false (h.not_keeps_wrapped hb hpos hm hfew (by omega) heq halloc) fun hcopy => ?_
    exact hwrap (hcopy.resolve_left hserved).1

/-- A block that `kmalloc` just gave out. -/
theorem Allocated.sized (h : Allocated s s₁ n b) : s₁.Sized b n :=
  ⟨by rw [h.live]; exact mem_cons_self, fun hn => (h.room hn).2⟩

/-- Let `kmalloc` give out a block for as many bytes as `d` has, let anything happen to the heap that
spares the block, and let the block then hold `d`. `krealloc` keeps the contents if and only if they
are `Copyable`. -/
theorem krealloc_keeps_iff {mem : ByteMemory} {replies : List (Option Nat)} {s₀ s₁ : Kheap}
    {d : List UInt8} {m : Nat}
    (hbefore : Reaches (fun op s => callOk op s ∧ NoWrap op s) (kheapInit mem replies) s₀)
    (hcall : NoWrap (.kmalloc d.length) s₀) (hmalloc : s₀.kmalloc d.length = some (b.ptr, s₁))
    (hafter : Reaches (fun op s => callOk op s ∧ NoWrap op s ∧ Spares b.ptr op) s₁ s)
    (hb : b ∈ s.live) (hd : s.Holds b d) (hpos : 0 < m) (hm : m < 2 ^ 64)
    (hfew : s.slabs.length + 1 < 2 ^ 32) : s.Keeps b d m ↔ s.Copyable d m := by
  obtain ⟨kind0, l0, h0⟩ := Reaches.sound hbefore ⟨_, _, laid_kheapInit mem replies⟩
  rcases h0.kmalloc hcall d.length with ⟨r, heq⟩ | ⟨c, t, heq, halloc⟩
  · -- a block that is not NULL is live, and NULL never is
    obtain ⟨hnull, rfl⟩ := Prod.mk.inj (some.inj (hmalloc.symm.trans heq))
    have hrun : Reaches (fun op s => callOk op s ∧ NoWrap op s) { s₀ with replies := r } s :=
      hafter.weaken fun op s hop => ⟨hop.1, hop.2.1⟩
    obtain ⟨kind, l, h⟩ := Reaches.sound hrun ⟨kind0, l0, h0.setReplies r⟩
    exact absurd hnull (h.ptr_ne_zero hb)
  · obtain ⟨hptr, rfl⟩ := Prod.mk.inj (some.inj (hmalloc.symm.trans heq))
    rw [hptr] at hafter
    obtain ⟨⟨kind, l, h⟩, hsized⟩ := Reaches.sized hafter halloc.laid halloc.sized
    obtain rfl := h.core.eq_of_ptr hsized.live hb hptr
    exact h.keeps_iff hsized hd hpos hm hfew

/-- Two bytes move from an object of 16 bytes to one of 64. -/
theorem krealloc_keeps_iff_two :
    ∃ s : Kheap, s.Holds ⟨12272, 16⟩ [5, 6] ∧ s.Copyable [5, 6] 40 ∧ s.Keeps ⟨12272, 16⟩ [5, 6] 40 := by
  have hexec : ((kheapInit (fun _ => 0) [some 2, some 3]).kmalloc
      ([5, 6] : List UInt8).length).bind (fun r =>
      (Lapis.Lib.exec (fun _ op s => s.step op)
        (fun op s => callOk op s ∧ NoWrap op s ∧ Spares 12272 op) 0
        [.write 12272 5, .write 12273 6] r.2).map fun s =>
          (r.1, s.live, s.mem 12272, s.mem 12273, s.slabs.length)) =
      some (12272, [⟨12272, 16⟩], 5, 6, 1) := by
    decide +kernel
  obtain ⟨⟨q, s₁⟩, hmalloc, hrest⟩ := bind_eq_some_iff.mp hexec
  obtain ⟨s, hs, hparts⟩ := map_eq_some_iff.mp hrest
  simp only [Prod.mk.injEq] at hparts
  obtain ⟨rfl, hlive, hfirst, hsecond, hslabs⟩ := hparts
  have hd : s.Holds ⟨12272, 16⟩ [5, 6] := by
    refine ⟨by decide, fun k hk => ?_⟩
    rcases k with _ | _ | k
    · exact hfirst
    · exact hsecond
    · exact absurd hk (by simp)
  have hcopy : s.Copyable [5, 6] 40 :=
    .inr ⟨by decide, fun k hlo hhi => absurd hhi (by rw [length_cons]; omega)⟩
  have hrun := Lapis.Lib.Run.of_exec .init hs
  have hlive' : (⟨12272, 16⟩ : Block) ∈ s.live := by
    rw [hlive]
    exact mem_cons_self
  exact ⟨s, hd, hcopy, (krealloc_keeps_iff .init (by decide) hmalloc hrun hlive' hd (by decide)
    (by decide) (by rw [hslabs]; decide)).mpr hcopy⟩

/-- The bytes of a block of 65537 bytes, with one that is not 0. -/
def longData : List UInt8 := (List.range 65537).map fun k => if k = 65535 then 1 else 0

theorem longData_getD {k : Nat} (hk : k < 65537) : longData.getD k 0 = if k = 65535 then 1 else 0 := by
  simp [longData, List.getD_eq_getElem?_getD, hk]

/-- The byte at 65535 is lost when the block grows. -/
theorem krealloc_loses_byte : ∃ s₀ s₁ s b, Reaches (fun op s => callOk op s ∧ NoWrap op s)
        (kheapInit (fun _ => 0) [some 2, some 100]) s₀ ∧ s₀.kmalloc longData.length = some (b.ptr, s₁) ∧
      Reaches (fun op s => callOk op s ∧ NoWrap op s ∧ Spares b.ptr op) s₁ s ∧
      b ∈ s.live ∧ s.Holds b longData ∧ ¬ s.Keeps b longData 70000 := by
  have hlen : longData.length = 65537 := by simp [longData]
  obtain ⟨hfirst, hsecond⟩ : ((kheapInit (fun _ => 0) [some 2, some 100]).kmalloc 65537).map Prod.fst =
      some 8224 ∧ ((kheapInit (fun _ => 0) [some 2, some 100]).kmalloc 65537).bind (fun r =>
        ((r.2.modMem (update · 73759 1)).kmalloc 70000).map Prod.fst) = some 409632 := by
    decide +kernel
  have h0 := laid_kheapInit (fun _ => 0) [some 2, some 100]
  rcases h0.kmalloc (by decide) 65537 with ⟨r, heq⟩ | ⟨b, s₁, heq, halloc⟩
  · simp [heq] at hfirst
  rw [heq] at hfirst hsecond
  have hptr : b.ptr = 8224 := some.inj hfirst
  have hroom := (halloc.room (by decide)).1
  have hb : b ∈ s₁.live := halloc.sized.live
  have hwrite : callOk (.write 73759 1) s₁ := .inl ⟨b, hb, by omega, by omega⟩
  have hclear := h0.kmalloc_cleared (by decide) (by decide) heq halloc.ptr_pos halloc.live
  have hd : (s₁.modMem (update · 73759 1)).Holds b longData := by
    refine ⟨by omega, fun k hk => ?_⟩
    rw [hlen] at hk
    rw [longData_getD hk]
    by_cases hk' : k = 65535
    · have haddr : b.ptr + k = 73759 := by omega
      rw [if_pos hk', haddr]
      change update s₁.mem 73759 1 73759 = 1
      rw [update_self]
    · rw [if_neg hk', ← hclear k (by omega)]
      exact update_of_ne (by omega) 1 s₁.mem
  have hrun : Reaches (fun op s => callOk op s ∧ NoWrap op s ∧ Spares b.ptr op) s₁
      (s₁.modMem (update · 73759 1)) :=
    @Lapis.Lib.Run.next _ _ _ _ _ _ _ (.write 73759 1) 0 .init ⟨hwrite, trivial, trivial⟩ rfl
  obtain ⟨⟨kind, l, h⟩, hsized⟩ := Reaches.sized hrun halloc.laid halloc.sized
  rw [← hlen] at hsized heq
  refine ⟨_, s₁, _, b, .init, heq, hrun, hb, hd, fun hkeeps => ?_⟩
  have hlen1 : (s₁.modMem (update · 73759 1)).slabs.length + 1 < 2 ^ 32 :=
    Nat.lt_of_le_of_lt (Nat.succ_le_succ halloc.slabs_le) (by decide)
  rcases (h.keeps_iff hsized hd (by decide) (by decide) hlen1).mp hkeeps with ⟨t, ht⟩ | ⟨-, hzero⟩
  · simp [bind_some, ht] at hsecond
  · have := hzero 65535 (by decide) (by omega)
    rw [longData_getD (by decide)] at this
    cases this

end Kheap

end Lapis.Mm
