/-
Lapis.Mm.KheapRunTheorems — separation in the kernel heap over whole runs.

`Separated` is what callers rely on. It follows from the layout, which every call keeps as long as no
size wraps around where bytes are copied or cleared and the counters of the caches do not wrap around.
`krealloc` of a size close to 2^64 finds a block smaller than the old one and copies over its end.
-/
import Lapis.Mm.KheapFreeTheorems

namespace Lapis.Mm

open List Lib

namespace Kheap

variable {s s' : Kheap} {kind : Nat → SlabKind} {l : Fin 8 → List Nat}

/-! ## Separation -/

/-- An object of a slab, as its header describes it. -/
def HeaderObject (s : Kheap) (p o : Nat) : Prop :=
  ∃ k < (s.slab p).capacity, o = p + Slab.sizeof + k * (s.slab p).objectSize

structure Separated (s : Kheap) : Prop where
  disjoint : s.live.Pairwise fun b c => b.ptr + b.size ≤ c.ptr ∨ c.ptr + c.size ≤ b.ptr
  aligned : ∀ b ∈ s.live, 16 ∣ b.ptr
  headers : ∀ b ∈ s.live, ∀ p ∈ s.slabs, b.ptr + b.size ≤ p ∨ p + Slab.sizeof ≤ b.ptr
  /-- Each cache has the list of its slabs with a free object. -/
  lists : ∀ i, ∃ L, Chain (fun p => (s.slab p).next) (s.caches i).slabs L ∧ L.Nodup ∧
    (s.caches i).slabCount = L.length ∧
    ∀ p, p ∈ L ↔ p ∈ s.slabs ∧ (s.slab p).cacheIndex = i ∧ 0 < (s.slab p).freeCount
  /-- Each slab has the list of its free objects. -/
  free : ∀ p ∈ s.slabs, ∃ fl, Chain (fun o => s.mem.load o 8) (s.slab p).freeList fl ∧ fl.Nodup ∧
    fl.length = (s.slab p).freeCount ∧ ∀ o ∈ fl, s.HeaderObject p o ∧
      ∀ b ∈ s.live, b.ptr + b.size ≤ o ∨ o + (s.slab p).objectSize ≤ b.ptr

/-- The header of a slab of a class. -/
theorem Core.slab_eq {p : Nat} {i : Fin 8} {fl : List Nat} (h : s.Core kind) (hp : p ∈ s.slabs)
    (hkind : kind p = .small i fl) :
    s.slab p = ⟨(s.slab p).next, (s.slab p).freeList, slabMagic, cacheSize i, objectCount i, fl.length,
      i, 1⟩ := by
  have hok := h.ok p hp
  rw [hkind] at hok
  exact hok.read_eq.1

theorem Core.aligned_of_live {b : Block} (h : s.Core kind) (hb : b ∈ s.live) : 16 ∣ b.ptr := by
  obtain ⟨p, hp, howns⟩ := (h.live_iff b).mp hb
  have hdvd := (h.aligned p hp).1
  revert howns
  cases kind p with
  | small i fl => exact fun howns => howns.1.aligned hdvd
  | big n =>
    intro howns
    rw [show b.ptr = p + Slab.sizeof from congrArg Block.ptr howns]
    exact Nat.dvd_add (Nat.dvd_trans (by decide) hdvd) (by decide)

theorem Core.header_apart {b : Block} {p : Nat} (h : s.Core kind) (hb : b ∈ s.live)
    (hp : p ∈ s.slabs) : b.ptr + b.size ≤ p ∨ p + Slab.sizeof ≤ b.ptr := by
  obtain ⟨q, hq, howns⟩ := (h.live_iff b).mp hb
  obtain ⟨hmin, hmax, -, -⟩ := (h.ok q hq).owns_spec howns
  have hspan := (h.ok p hp).sizeof_le
  by_cases hpq : p = q
  · exact .inr (hpq ▸ hmin)
  · rcases h.apart p hp q hq hpq with hap | hap
    · exact .inr (by omega)
    · exact .inl (by omega)

/-- A free object is apart from the blocks callers own. -/
theorem Core.free_apart {b : Block} {p o : Nat} {i : Fin 8} {fl : List Nat} (h : s.Core kind)
    (hb : b ∈ s.live) (hp : p ∈ s.slabs) (hkind : kind p = .small i fl) (ho : o ∈ fl) :
    b.ptr + b.size ≤ o ∨ o + cacheSize i ≤ b.ptr := by
  obtain ⟨q, hq, howns⟩ := (h.live_iff b).mp hb
  have hok := h.ok p hp
  rw [hkind] at hok
  have hobj := hok.2.2 o ho
  have hbounds := hobj.bounds
  by_cases hpq : p = q
  · subst hpq
    rw [hkind] at howns
    obtain ⟨hobj', hnot, hsize⟩ := howns
    rw [hsize]
    exact hobj'.apart hobj fun heq => hnot (heq ▸ ho)
  · obtain ⟨hmin, hmax, -, -⟩ := (h.ok q hq).owns_spec howns
    have hap := h.apart p hp q hq hpq
    rw [hkind] at hap
    simp only [SlabKind.span, Slab.sizeof] at *
    omega

theorem Laid.mem_iff (h : s.Laid kind l) (i : Fin 8) (p : Nat) :
    p ∈ l i ↔ p ∈ s.slabs ∧ (s.slab p).cacheIndex = i ∧ 0 < (s.slab p).freeCount := by
  constructor
  · intro hp
    obtain ⟨hmem, o, fl, hkind⟩ := h.free_of_mem hp
    rw [h.core.slab_eq hmem hkind]
    exact ⟨hmem, rfl, Nat.succ_pos _⟩
  rintro ⟨hmem, hindex, hcount⟩
  have hok := h.core.ok p hmem
  cases hkind : kind p with
  | small j fl =>
    rw [h.core.slab_eq hmem hkind] at hindex hcount
    obtain rfl : j = i := Fin.ext hindex
    exact (h.available j p hmem fl hkind).mpr (ne_nil_of_length_pos hcount)
  | big n =>
    rw [hkind] at hok
    obtain ⟨-, next, size, hread⟩ := hok
    rw [show (s.slab p).freeCount = 0 from congrArg Slab.freeCount hread] at hcount
    exact absurd hcount (Nat.lt_irrefl 0)

theorem Laid.separated (h : s.Laid kind l) : s.Separated where
  disjoint := h.core.live_nodup.pairwise_of_forall_ne fun _ hb _ hc hne => h.core.live_apart hb hc hne
  aligned := fun _ hb => h.core.aligned_of_live hb
  headers := fun _ hb _ hp => h.core.header_apart hb hp
  lists := fun i => ⟨l i, h.listed.chain i, h.listed.nodup i, h.listed.count i, h.mem_iff i⟩
  free := by
    intro p hp
    have hok := h.core.ok p hp
    cases hkind : kind p with
    | small i fl =>
      rw [hkind] at hok
      have hslab := h.core.slab_eq hp hkind
      refine ⟨fl, hok.read_eq.2, hok.2.1, by rw [hslab], fun o ho => ⟨?_, fun b hb => ?_⟩⟩
      · unfold HeaderObject
        rw [hslab]
        exact hok.2.2 o ho
      · rw [hslab]
        exact h.core.free_apart hb hp hkind ho
    | big n =>
      rw [hkind] at hok
      obtain ⟨-, next, size, hread⟩ := hok
      refine ⟨[], congrArg Slab.freeList hread, nodup_nil, ?_, fun o ho => by cases ho⟩
      exact (congrArg Slab.freeCount hread).symm

/-! ## Runs -/

/-- NULL or a block a caller owns. -/
def Owned (s : Kheap) (ptr : Nat) : Prop := ptr = 0 ∨ ∃ b ∈ s.live, b.ptr = ptr

instance (s : Kheap) (ptr : Nat) : Decidable (s.Owned ptr) := inferInstanceAs (Decidable (_ ∨ _))

/-- What callers do: they free and reallocate only blocks they own, and write only in these and in
pages the heap does not have. -/
def callOk (op : HeapOp) (s : Kheap) : Prop :=
  match op with
  | .kmalloc size | .kzalloc size => size < 2 ^ 64
  | .krealloc ptr size => s.Owned ptr ∧ size < 2 ^ 64
  | .kfree ptr => s.Owned ptr
  | .write addr _ => (∃ b ∈ s.live, b.ptr ≤ addr ∧ addr < b.ptr + b.size) ∨
      s.held (addr / pageSize) = false

instance (op : HeapOp) (s : Kheap) : Decidable (callOk op s) :=
  match op with
  | .kmalloc _ | .kzalloc _ => inferInstanceAs (Decidable (_ < _))
  | .krealloc _ _ => inferInstanceAs (Decidable (_ ∧ _))
  | .kfree ptr => inferInstanceAs (Decidable (s.Owned ptr))
  | .write _ _ => inferInstanceAs (Decidable (_ ∨ _))

/-- No size wraps around when it is rounded up, where the block is then cleared or copied to, and a
new slab would not make the counter of a cache wrap around. -/
def NoWrap (op : HeapOp) (s : Kheap) : Prop :=
  match op with
  | .kmalloc _ => s.slabs.length + 1 < 2 ^ 32
  | .kzalloc size => size + 63 < 2 ^ 64 ∧ s.slabs.length + 1 < 2 ^ 32
  | .krealloc ptr size => (ptr = 0 ∨ size + 63 < 2 ^ 64) ∧ s.slabs.length + 1 < 2 ^ 32
  | .kfree _ => s.slabs.length < 2 ^ 32
  | .write _ _ => True

instance (op : HeapOp) (s : Kheap) : Decidable (NoWrap op s) :=
  match op with
  | .kmalloc _ | .kfree _ => inferInstanceAs (Decidable (_ < _))
  | .kzalloc _ | .krealloc _ _ => inferInstanceAs (Decidable (_ ∧ _))
  | .write _ _ => inferInstanceAs (Decidable True)

/-- The states of a run. -/
abbrev Reaches (ok : HeapOp → Kheap → Prop) (s₀ : Kheap) : Kheap → Prop :=
  Lapis.Lib.Run (fun _ op s => s.step op) ok s₀

theorem laid_kheapInit (mem : ByteMemory) (replies : List (Option Nat)) :
    (kheapInit mem replies).Laid (fun _ => .big 1) fun _ => [] := by
  have hnone : ∀ p, p ∉ (kheapInit mem replies).slabs := fun p => not_mem_nil
  refine ⟨⟨nodup_nil, fun p hp => absurd hp (hnone p), fun p hp => absurd hp (hnone p),
    fun p hp => absurd hp (hnone p), fun p hp => absurd hp (hnone p), nodup_nil, fun b => ?_⟩,
    ⟨fun _ => rfl, fun _ => nodup_nil, fun _ => rfl, fun i p hp => absurd hp not_mem_nil⟩,
    fun i p hp => absurd hp (hnone p)⟩
  exact ⟨fun hb => absurd hb not_mem_nil, fun ⟨p, hp, _⟩ => absurd hp (hnone p)⟩

/-- An allocation, successful or not, keeps the layout. -/
theorem Laid.of_alloc {size : Nat} {r : Option (Nat × Kheap)} (h : s.Laid kind l)
    (hr : (∃ replies, r = some (0, { s with replies := replies })) ∨
      ∃ b s', r = some (b.ptr, s') ∧ Allocated s s' size b) :
    ∃ s', r.map Prod.snd = some s' ∧ s'.Sound := by
  rcases hr with ⟨replies, rfl⟩ | ⟨b, s', rfl, halloc⟩
  · exact ⟨_, rfl, kind, l, h.setReplies replies⟩
  · exact ⟨s', rfl, halloc.laid⟩

theorem Laid.kfree_owned {ptr : Nat} (h : s.Laid kind l) (hptr : s.Owned ptr)
    (hfew : s.slabs.length < 2 ^ 32) : ∃ s', s.kfree ptr = some s' ∧ s'.Sound := by
  rcases hptr with rfl | ⟨b, hb, rfl⟩
  · exact ⟨s, rfl, kind, l, h⟩
  · obtain ⟨s', heq, hfreed⟩ := h.kfree hb hfew
    exact ⟨s', heq, hfreed.laid⟩

theorem Laid.krealloc_owned {ptr size : Nat} (h : s.Laid kind l) (hptr : s.Owned ptr)
    (hsize : ptr = 0 ∨ size + 63 < 2 ^ 64) (hfew : s.slabs.length + 1 < 2 ^ 32) :
    ∃ s', (s.krealloc ptr size).map Prod.snd = some s' ∧ s'.Sound := by
  rcases hptr with rfl | ⟨b, hb, rfl⟩
  · exact h.of_alloc (h.kmalloc hfew size)
  obtain ⟨p, hp, howns⟩ := (h.core.live_iff b).mp hb
  have hmin := ((h.core.ok p hp).owns_spec howns).1
  have hpage := h.core.page_le hp
  have hne : b.ptr ≠ 0 := by omega
  have hsize := hsize.resolve_left hne
  by_cases hzero : size = 0
  · obtain ⟨s', heq, hfreed⟩ := h.kfree hb (by omega)
    refine ⟨s', ?_, hfreed.laid⟩
    rw [Kheap.krealloc, if_neg hne, if_pos hzero, heq]
    rfl
  · rcases h.krealloc hb (Nat.pos_of_ne_zero hzero) hsize hfew with ⟨-, heq⟩ |
      ⟨-, ⟨r, heq⟩ | ⟨b', s', heq, hmoved⟩⟩
    · exact ⟨s, by rw [heq]; rfl, kind, l, h⟩
    · exact ⟨_, by rw [heq]; rfl, kind, l, h.setReplies r⟩
    · exact ⟨s', by rw [heq]; rfl, hmoved.laid⟩

/-- Every operation returns, and the layout goes on to describe the heap. -/
theorem Laid.step {op : HeapOp} (h : s.Laid kind l) (hop : callOk op s) (hwrap : NoWrap op s) :
    ∃ s', s.step op = some s' ∧ s'.Sound := by
  cases op with
  | kmalloc size => exact h.of_alloc (h.kmalloc hwrap size)
  | kzalloc size => exact h.of_alloc (h.kzalloc hwrap.2 hwrap.1)
  | krealloc ptr size => exact h.krealloc_owned hop.1 hwrap.1 hwrap.2
  | kfree ptr => exact h.kfree_owned hop hwrap
  | write addr value =>
    refine ⟨_, rfl, kind, l, h.write fun x ⟨q, hq, hgov⟩ => Function.update_of_ne ?_ ..⟩
    rintro rfl
    rcases hop with ⟨b, hb, hlo, hhi⟩ | hfree
    · exact h.core.not_governs_of_live hb hlo hhi q hq hgov
    · exact h.core.not_governs_of_free hfree q hq hgov

/-- A heap reached by such operations has a layout. -/
theorem Reaches.sound {s0 : Kheap} (hrun : Reaches (fun op s => callOk op s ∧ NoWrap op s) s0 s)
    (hinit : s0.Sound) : s.Sound := by
  refine Lapis.Lib.Run.invariant hinit (fun s1 s2 op _ hinv hop hstep => ?_) hrun
  obtain ⟨kind, l, h⟩ := hinv
  obtain ⟨s', heq, hlaid⟩ := h.step hop.1 hop.2
  obtain rfl := Option.some.inj (heq.symm.trans hstep)
  exact hlaid

/-- In every run in which no size and no counter wraps around, the heap is separated, and every
operation returns. -/
theorem kheap_run_separated {mem : ByteMemory} {replies : List (Option Nat)}
    (hrun : Reaches (fun op s => callOk op s ∧ NoWrap op s) (kheapInit mem replies) s) :
    s.Separated ∧ ∀ op, callOk op s → NoWrap op s → ∃ s', s.step op = some s' := by
  obtain ⟨kind, l, h⟩ := Reaches.sound hrun ⟨_, _, laid_kheapInit mem replies⟩
  refine ⟨h.separated, fun op hop hwrap => ?_⟩
  obtain ⟨s', heq, -⟩ := h.step hop hwrap
  exact ⟨s', heq⟩

/-- Two blocks, of which the first is freed with its slab. -/
theorem kheap_run_separated_two :
    ∃ s, Reaches (fun op s => callOk op s ∧ NoWrap op s) (kheapInit (fun _ => 0) [some 2, some 3]) s ∧
      s.live = [⟨14368, 1024⟩] ∧ s.slabs = [12288] ∧ s.Separated := by
  refine Lapis.Lib.Run.exists_of_exec 0 [.kmalloc 2000, .kmalloc 1000, .kfree 8224]
    (fun s => s.live = [⟨14368, 1024⟩] ∧ s.slabs = [12288]) (by decide +kernel) fun s hrun hs => ?_
  exact ⟨hs.1, hs.2, (kheap_run_separated hrun).1⟩

/-- A block of two pages is reallocated with a size that wraps around to one page. The last bytes of
the copy go to the header of the slab on the page behind it, whose free list then starts at no object. -/
theorem kheap_run_overrun :
    ∃ s, Reaches callOk (kheapInit (fun _ => 0) [some 7, some 1, some 6]) s ∧ ¬ s.Separated := by
  refine Lapis.Lib.Run.exists_of_exec 0 [.kmalloc 1024, .kmalloc 4080, .write 8200 1, .krealloc 4128 (2 ^ 64 - 16)]
    (fun s => 28672 ∈ s.slabs ∧ s.mem 28680 = 1 ∧ s.mem 28692 = 0) (by decide +kernel) fun s _ hs hsep => ?_
  obtain ⟨hmem, hhead, hsize⟩ := hs
  have hodd : (s.slab 28672).freeList % 2 = 1 := by
    change s.mem.load 28680 8 % 2 = 1
    rw [ByteMemory.load, hhead]
    have : (1 : UInt8).toNat = 1 := rfl
    omega
  have heven : (s.slab 28672).objectSize % 2 = 0 := by
    change s.mem.load 28692 2 % 2 = 0
    rw [ByteMemory.load, hsize]
    have : (0 : UInt8).toNat = 0 := rfl
    omega
  obtain ⟨fl, hchain, -, -, hobj⟩ := hsep.free 28672 hmem
  cases fl with
  | nil =>
    have hzero : (s.slab 28672).freeList = 0 := hchain
    omega
  | cons o fl =>
    obtain ⟨k, -, ho⟩ := (hobj o mem_cons_self).1
    have hfirst : (s.slab 28672).freeList = o := hchain.1
    have hprod : k * (s.slab 28672).objectSize % 2 = 0 := by rw [Nat.mul_mod, heven]; rfl
    unfold Slab.sizeof at ho
    omega

end Kheap

end Lapis.Mm
