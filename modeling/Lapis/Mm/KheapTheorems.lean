/-
Lapis.Mm.KheapTheorems — the layout of the kernel heap.

A slab is small, with its class and its list of free objects, or big, with its number of pages.
`SlabOk` says that the bytes of a slab are those of its kind, `Heap.Core` that this holds of all
slabs, that their pages are apart and in the heap's hands, and that the blocks callers own are the
objects that are not free. `Heap.Listed` says which lists the caches hold. Both look only at the
headers and at the first words of free objects, so a write anywhere else keeps them; a block a caller
owns is such a place.
-/
import Lapis.Lib.Chain
import Lapis.Mm.Kheap
import Mathlib.Data.List.Perm.Subperm

namespace Lapis.Mm

open Function List Lib

/-! ## Headers -/

namespace Slab

variable {mem mem' : ByteMemory} {p v : Nat}

theorem read_congr (h : ∀ x, p ≤ x → x < p + sizeof → mem' x = mem x) : read mem' p = read mem p := by
  have hload : ∀ a k, p ≤ a → a + k ≤ p + 32 → mem'.load a k = mem.load a k :=
    fun a k hlo hhi => ByteMemory.load_congr fun x hx hlt => h x (by omega) (by rw [sizeof]; omega)
  unfold read
  rw [hload _ _ (by omega) (by omega), hload _ _ (by omega) (by omega), hload _ _ (by omega) (by omega),
    hload _ _ (by omega) (by omega), hload _ _ (by omega) (by omega), hload _ _ (by omega) (by omega),
    hload _ _ (by omega) (by omega), hload _ _ (by omega) (by omega)]

theorem read_setNext (mem : ByteMemory) (p : Nat) (hv : v < 2 ^ 64) :
    read (setNext mem p v) p = { read mem p with next := v } := by
  simp (disch := omega) only [read, setNext, ByteMemory.load_store_other,
    ByteMemory.load_store_of_lt mem p 8 hv]

theorem read_setFreeList (mem : ByteMemory) (p : Nat) (hv : v < 2 ^ 64) :
    read (setFreeList mem p v) p = { read mem p with freeList := v } := by
  simp (disch := omega) only [read, setFreeList, ByteMemory.load_store_other,
    ByteMemory.load_store_of_lt mem (p + 8) 8 hv]

theorem read_setMagic (mem : ByteMemory) (p : Nat) (hv : v < 2 ^ 32) :
    read (setMagic mem p v) p = { read mem p with magic := v } := by
  simp (disch := omega) only [read, setMagic, ByteMemory.load_store_other,
    ByteMemory.load_store_of_lt mem (p + 16) 4 hv]

theorem read_setObjectSize (mem : ByteMemory) (p : Nat) (hv : v < 2 ^ 16) :
    read (setObjectSize mem p v) p = { read mem p with objectSize := v } := by
  simp (disch := omega) only [read, setObjectSize, ByteMemory.load_store_other,
    ByteMemory.load_store_of_lt mem (p + 20) 2 hv]

theorem read_setCapacity (mem : ByteMemory) (p : Nat) (hv : v < 2 ^ 16) :
    read (setCapacity mem p v) p = { read mem p with capacity := v } := by
  simp (disch := omega) only [read, setCapacity, ByteMemory.load_store_other,
    ByteMemory.load_store_of_lt mem (p + 22) 2 hv]

theorem read_setFreeCount (mem : ByteMemory) (p : Nat) (hv : v < 2 ^ 16) :
    read (setFreeCount mem p v) p = { read mem p with freeCount := v } := by
  simp (disch := omega) only [read, setFreeCount, ByteMemory.load_store_other,
    ByteMemory.load_store_of_lt mem (p + 24) 2 hv]

theorem read_setCacheIndex (mem : ByteMemory) (p : Nat) (hv : v < 2 ^ 16) :
    read (setCacheIndex mem p v) p = { read mem p with cacheIndex := v } := by
  simp (disch := omega) only [read, setCacheIndex, ByteMemory.load_store_other,
    ByteMemory.load_store_of_lt mem (p + 26) 2 hv]

/-- The number of pages is cut to 32 bits. -/
theorem read_setNpages (mem : ByteMemory) (p v : Nat) :
    read (setNpages mem p v) p = { read mem p with npages := v % 2 ^ 32 } := by
  have hpow : 256 ^ 4 = 2 ^ 32 := by decide
  simp (disch := omega) only [read, setNpages, ByteMemory.load_store_other,
    ByteMemory.load_store_same mem (p + 28) 4 v, hpow]

/-- A header in cleared memory. -/
theorem read_fill (mem : ByteMemory) {n : Nat} (hn : sizeof ≤ n) (h : p + n ≤ 2 ^ 64) :
    read (mem.fill p 0 n) p = ⟨0, 0, 0, 0, 0, 0, 0, 0⟩ := by
  have hload : ∀ a k, p ≤ a → a + k ≤ p + 32 → (mem.fill p 0 n).load a k = 0 := by
    intro a k hlo hhi
    refine ByteMemory.load_eq_zero fun x hx hlt => ?_
    unfold sizeof at hn
    rw [ByteMemory.fill_apply h, if_pos (by omega)]
  simp (disch := omega) only [read, hload]

/-- A word behind the header. -/
theorem read_store_behind (mem : ByteMemory) (p : Nat) {a k : Nat} (h : p + sizeof ≤ a) :
    read (mem.store a k v) p = read mem p :=
  read_congr fun _ _ hx => ByteMemory.store_of_out (.inl (by omega))

end Slab

/-! ## Objects -/

/-- The number of objects of a slab. -/
def objectCount (i : Fin 8) : Nat := (pageSize - Slab.sizeof) / cacheSize i

theorem cacheSize_spec : ∀ i : Fin 8, 16 ∣ cacheSize i ∧ 16 ≤ cacheSize i ∧ cacheSize i < 2 ^ 16 ∧
    0 < objectCount i ∧ objectCount i < 2 ^ 16 ∧ Slab.sizeof + objectCount i * cacheSize i ≤ pageSize := by
  decide

/-- The objects of a slab, in the order of their addresses. -/
def object (p : Nat) (i : Fin 8) (k : Nat) : Nat := p + Slab.sizeof + k * cacheSize i

/-- The address of an object of a slab. -/
def IsObject (p : Nat) (i : Fin 8) (o : Nat) : Prop := ∃ k < objectCount i, o = object p i k

section Objects

variable {p o o' : Nat} {i : Fin 8}

theorem object_lt (p : Nat) (i : Fin 8) {k l : Nat} (h : k < l) :
    object p i k + cacheSize i ≤ object p i l := by
  have := Nat.mul_le_mul_right (cacheSize i) (Nat.succ_le_of_lt h)
  rw [Nat.succ_mul] at this
  unfold object
  omega

theorem IsObject.bounds (h : IsObject p i o) : p + Slab.sizeof ≤ o ∧ o + cacheSize i ≤ p + pageSize := by
  obtain ⟨k, hk, rfl⟩ := h
  obtain ⟨-, -, -, -, -, hfit⟩ := cacheSize_spec i
  have := object_lt p i hk
  unfold object at *
  omega

/-- Two objects of a slab do not overlap. -/
theorem IsObject.apart (h : IsObject p i o) (h' : IsObject p i o') (hne : o ≠ o') :
    o + cacheSize i ≤ o' ∨ o' + cacheSize i ≤ o := by
  obtain ⟨k, hk, rfl⟩ := h
  obtain ⟨l, hl, rfl⟩ := h'
  rcases Nat.lt_trichotomy k l with hlt | rfl | hgt
  · exact .inl (object_lt p i hlt)
  · exact absurd rfl hne
  · exact .inr (object_lt p i hgt)

theorem IsObject.aligned (hp : pageSize ∣ p) (h : IsObject p i o) : 16 ∣ o := by
  obtain ⟨k, -, rfl⟩ := h
  obtain ⟨a, ha⟩ := hp
  obtain ⟨⟨b, hb⟩, -⟩ := cacheSize_spec i
  refine ⟨256 * a + 2 + k * b, ?_⟩
  unfold object Slab.sizeof
  rw [ha, hb, pageSize, Nat.mul_add, Nat.mul_add]
  congr 1
  · omega
  · rw [Nat.mul_left_comm]

end Objects

/-! ## Kinds of slabs -/

/-- What a slab is for: objects of a class, with the list of the free ones, or one big block. -/
inductive SlabKind
  | small (i : Fin 8) (free : List Nat)
  | big (npages : Nat)

namespace SlabKind

def free : SlabKind → List Nat
  | small _ fl => fl
  | big _ => []

/-- The bytes of its pages. -/
def span : SlabKind → Nat
  | small .. => pageSize
  | big n => n * pageSize

/-- The blocks of a slab that callers own. -/
def Owns (κ : SlabKind) (p : Nat) (b : Block) : Prop :=
  match κ with
  | small i fl => IsObject p i b.ptr ∧ b.ptr ∉ fl ∧ b.size = cacheSize i
  | big n => b = ⟨p + Slab.sizeof, n * pageSize - Slab.sizeof⟩

end SlabKind

/-- The bytes of a slab that say what it is. -/
def Governs (p : Nat) (κ : SlabKind) (x : Nat) : Prop :=
  (p ≤ x ∧ x < p + Slab.sizeof) ∨ ∃ o ∈ κ.free, o ≤ x ∧ x < o + 8

/-- The bytes of a slab are those of its kind; the link to the next slab may be any. -/
def SlabOk (mem : ByteMemory) (p : Nat) : SlabKind → Prop
  | .small i fl =>
    (∃ next head, Slab.read mem p =
        ⟨next, head, slabMagic, cacheSize i, objectCount i, fl.length, i, 1⟩ ∧
      Chain (fun o => mem.load o 8) head fl) ∧
    fl.Nodup ∧ ∀ o ∈ fl, IsObject p i o
  | .big n => 0 < n ∧
    ∃ next size, Slab.read mem p =
      ⟨next, 0, slabMagic, size, 1, 0, bigCacheIndex, n % 2 ^ 32⟩

section Kinds

variable {mem mem' : ByteMemory} {p x : Nat} {κ : SlabKind} {b : Block}

section

variable (h : SlabOk mem p κ)

include h

theorem SlabOk.congr (hsame : ∀ x, Governs p κ x → mem' x = mem x) : SlabOk mem' p κ := by
  have hread : Slab.read mem' p = Slab.read mem p :=
    Slab.read_congr fun x hlo hhi => hsame x (.inl ⟨hlo, hhi⟩)
  cases κ with
  | small i fl =>
    obtain ⟨⟨next, head, hhead, hchain⟩, hnodup, hobj⟩ := h
    refine ⟨⟨next, head, hread.trans hhead, hchain.congr fun o ho => ?_⟩, hnodup, hobj⟩
    exact ByteMemory.load_congr fun x hlo hhi => hsame x (.inr ⟨o, ho, hlo, hhi⟩)
  | big n =>
    obtain ⟨hpos, next, size, hhead⟩ := h
    exact ⟨hpos, next, size, hread.trans hhead⟩

theorem SlabOk.setNext {v : Nat} (hv : v < 2 ^ 64) : SlabOk (Slab.setNext mem p v) p κ := by
  cases κ with
  | small i fl =>
    obtain ⟨⟨next, head, hread, hchain⟩, hnodup, hobj⟩ := h
    refine ⟨⟨v, head, by rw [Slab.read_setNext mem p hv, hread], hchain.congr fun o ho => ?_⟩, hnodup, hobj⟩
    have hlo := (hobj o ho).bounds.1
    unfold Slab.sizeof at hlo
    exact ByteMemory.load_store_other (.inr (by omega))
  | big n =>
    obtain ⟨hpos, next, size, hread⟩ := h
    exact ⟨hpos, v, size, by rw [Slab.read_setNext mem p hv, hread]⟩

theorem SlabOk.sizeof_le : Slab.sizeof ≤ κ.span := by
  cases κ with
  | small i fl => exact show Slab.sizeof ≤ pageSize by decide
  | big n =>
    have hpos := h.1
    simp only [SlabKind.span, Slab.sizeof, pageSize]
    omega

/-- They lie in the slab. -/
theorem SlabOk.governs_lt (hx : Governs p κ x) : p ≤ x ∧ x < p + κ.span := by
  have hle := h.sizeof_le
  rcases hx with ⟨hlo, hhi⟩ | ⟨o, ho, hlo, hhi⟩
  · exact ⟨hlo, by omega⟩
  cases κ with
  | small i fl =>
    obtain ⟨hmin, hmax⟩ := (h.2.2 o ho).bounds
    obtain ⟨-, hsize, -⟩ := cacheSize_spec i
    simp only [SlabKind.span]
    omega
  | big n => cases ho

/-- A block callers own lies in its slab, behind the header and apart from the free objects. -/
theorem SlabOk.owns_spec (hb : κ.Owns p b) :
    p + Slab.sizeof ≤ b.ptr ∧ b.ptr + b.size ≤ p + κ.span ∧ 0 < b.size ∧
      ∀ x, b.ptr ≤ x → x < b.ptr + b.size → ¬ Governs p κ x := by
  cases κ with
  | small i fl =>
    obtain ⟨hobj, hnot, hsize⟩ := hb
    obtain ⟨hmin, hmax⟩ := hobj.bounds
    obtain ⟨-, h16, -⟩ := cacheSize_spec i
    refine ⟨hmin, by rw [hsize]; exact hmax, by omega, ?_⟩
    rintro x hlo hhi (⟨-, hx⟩ | ⟨o, ho, hlo', hhi'⟩)
    · omega
    · have hne : o ≠ b.ptr := by rintro rfl; exact hnot ho
      rcases (h.2.2 o ho).apart hobj hne with hap | hap <;> omega
  | big n =>
  obtain rfl : b = _ := hb
  have hpos := h.1
  simp only [SlabKind.span, Slab.sizeof, pageSize] at *
  refine ⟨Nat.le_refl _, by omega, by omega, ?_⟩
  rintro x hlo hhi (⟨-, hx⟩ | ⟨o, ho, -⟩)
  · simp only [Slab.sizeof] at hx
    omega
  · cases ho

end

/-- Two blocks of one slab are apart. -/
theorem SlabKind.Owns.apart {b' : Block} (hb : κ.Owns p b) (hb' : κ.Owns p b') (hne : b ≠ b') :
    b.ptr + b.size ≤ b'.ptr ∨ b'.ptr + b'.size ≤ b.ptr := by
  cases κ with
  | small i fl =>
    obtain ⟨hobj, -, hsize⟩ := hb
    obtain ⟨hobj', -, hsize'⟩ := hb'
    have hptr : b.ptr ≠ b'.ptr := by
      intro heq
      refine hne ?_
      cases b
      cases b'
      simp_all
    rw [hsize, hsize']
    exact hobj.apart hobj' hptr
  | big n => exact absurd (Eq.trans (show b = _ from hb) (show b' = _ from hb').symm) hne

/-! ## Free lists -/

variable {i : Fin 8} {o : Nat} {fl : List Nat}

/-- The first pointer of a free list. -/
theorem SlabOk.read_eq (h : SlabOk mem p (.small i fl)) :
    Slab.read mem p = ⟨(Slab.read mem p).next, (Slab.read mem p).freeList, slabMagic, cacheSize i,
        objectCount i, fl.length, i, 1⟩ ∧ Chain (fun o => mem.load o 8) (Slab.read mem p).freeList fl := by
  obtain ⟨⟨next, head, hread, hchain⟩, -⟩ := h
  rw [hread]
  exact ⟨rfl, hchain⟩

/-- The bytes of the header that the free list changes. -/
def InFreeHeader (p x : Nat) : Prop := p + 8 ≤ x ∧ x < p + 16 ∨ p + 24 ≤ x ∧ x < p + 26

/-- The first free object is taken. -/
theorem SlabOk.popObject (h : SlabOk mem p (.small i (o :: fl))) (hp : 0x1000 ≤ p)
    (hlt : p + pageSize < 2 ^ 64) : SlabOk (Kheap.popObject mem p o) p (.small i fl) ∧
      ∀ x, ¬ InFreeHeader p x → Kheap.popObject mem p o x = mem x := by
  obtain ⟨hread, -, -, hrest⟩ := h.read_eq
  obtain ⟨-, hnodup, hobj⟩ := h
  have hbounds : ∀ a ∈ fl, p + Slab.sizeof ≤ a ∧ a < 2 ^ 64 := by
    intro a ha
    have := (hobj a (mem_cons_of_mem o ha)).bounds
    omega
  -- the pointer in the object is 0 or an object behind it
  have hnext : ¬ (mem.load o 8 ≠ 0 ∧ mem.load o 8 < 0x1000) := by
    rintro ⟨hne, hsmall⟩
    cases fl with
    | nil => exact hne hrest
    | cons a fl =>
      have := (hbounds a mem_cons_self).1
      rw [show mem.load o 8 = a from hrest.1] at hsmall
      omega
  have hcount : 0 < (Slab.read (Slab.setFreeList mem p (mem.load o 8)) p).freeCount := by
    rw [Slab.read_setFreeList mem p (ByteMemory.load_lt mem o 8), hread]
    exact Nat.succ_pos _
  have hlen : fl.length < 2 ^ 16 := by
    have hfield : (Slab.read mem p).freeCount < 2 ^ 16 := ByteMemory.load_lt mem (p + 24) 2
    rw [hread] at hfield
    exact Nat.lt_of_succ_lt hfield
  have hstep := Slab.read_setFreeList mem p (ByteMemory.load_lt mem o 8)
  unfold Kheap.popObject
  dsimp only
  rw [if_neg hnext, if_pos hcount, hstep, hread]
  refine ⟨⟨⟨(Slab.read mem p).next, mem.load o 8, ?_, hrest.congr fun a ha => ?_⟩,
    (nodup_cons.mp hnodup).2, fun a ha => hobj a (mem_cons_of_mem o ha)⟩, fun x hx => ?_⟩
  · rw [Slab.read_setFreeCount _ p (by simpa using hlen), hstep, hread]
    rfl
  · have := (hbounds a ha).1
    unfold Slab.sizeof at this
    exact (ByteMemory.load_store_other (by omega)).trans (ByteMemory.load_store_other (by omega))
  · unfold InFreeHeader at hx
    exact (ByteMemory.store_of_out (by omega)).trans (ByteMemory.store_of_out (by omega))

/-- There are no more free objects than objects. -/
theorem length_le_objectCount (hnodup : fl.Nodup) (hobj : ∀ o ∈ fl, IsObject p i o) :
    fl.length ≤ objectCount i := by
  have hsub : ∀ o ∈ fl, o ∈ (List.range (objectCount i)).map (object p i) := by
    intro o ho
    obtain ⟨k, hk, rfl⟩ := hobj o ho
    exact mem_map.mpr ⟨k, mem_range.mpr hk, rfl⟩
  have := (subperm_of_subset hnodup hsub).length_le
  rwa [length_map, length_range] at this

/-- An object is put on the free list. -/
theorem SlabOk.pushObject (h : SlabOk mem p (.small i fl)) (ho : IsObject p i o) (hnot : o ∉ fl)
    (hp : 0 < p) (hlt : p + pageSize < 2 ^ 64) : SlabOk (Kheap.pushObject mem p o) p (.small i (o :: fl)) ∧
      ∀ x, ¬ InFreeHeader p x → ¬ (o ≤ x ∧ x < o + 8) → Kheap.pushObject mem p o x = mem x := by
  obtain ⟨hread, hchain⟩ := h.read_eq
  obtain ⟨-, hnodup, hobj⟩ := h
  have hnodup' : (o :: fl).Nodup := nodup_cons.mpr ⟨hnot, hnodup⟩
  have hobj' : ∀ a ∈ o :: fl, IsObject p i a := forall_mem_cons.mpr ⟨ho, hobj⟩
  have hcount : fl.length < objectCount i := length_le_objectCount hnodup' hobj'
  have hfit := (cacheSize_spec i).2.2.2.2.1
  have hbounds := ho.bounds
  have h16 := (cacheSize_spec i).2.1
  have hhead : (Slab.read mem p).freeList < 2 ^ 64 := ByteMemory.load_lt mem (p + 8) 8
  generalize (Slab.read mem p).freeList = head at hread hchain hhead
  have hstored : Slab.read (mem.store o 8 head) p = Slab.read mem p :=
    Slab.read_store_behind mem p hbounds.1
  have hstep := Slab.read_setFreeList (mem.store o 8 head) p (v := o) (by omega)
  rw [hstored, hread] at hstep
  unfold Kheap.pushObject
  dsimp only
  rw [hread]
  dsimp only
  rw [hstep]
  dsimp only
  rw [if_pos hcount]
  unfold Slab.sizeof at hbounds
  refine ⟨⟨⟨(Slab.read mem p).next, o, ?_,
    (hchain.push (by omega) hnot).congr fun a ha => ?_⟩, hnodup', hobj'⟩, fun x hx hx' => ?_⟩
  · rw [Slab.read_setFreeCount _ p (by omega), hstep]
    rfl
  · have hlo := (hobj' a ha).bounds.1
    unfold Slab.sizeof at hlo
    refine (ByteMemory.load_store_other (by omega)).trans
      ((ByteMemory.load_store_other (by omega)).trans ?_)
    by_cases hao : a = o
    · rw [hao, update_self]
      exact ByteMemory.load_store_of_lt mem o 8 hhead
    · rw [update_of_ne hao]
      have hap := (hobj' a ha).apart ho hao
      exact ByteMemory.load_store_other (by omega)
  · unfold InFreeHeader at hx
    exact (ByteMemory.store_of_out (by omega)).trans
      ((ByteMemory.store_of_out (by omega)).trans (ByteMemory.store_of_out (by omega)))

end Kinds

/-! ## The heap -/

namespace Kheap

/-- The slabs are what `kind` says, their pages are apart and in the heap's hands, and the blocks
callers own are theirs. -/
structure Core (s : Kheap) (kind : Nat → SlabKind) : Prop where
  nodup : s.slabs.Nodup
  ok : ∀ p ∈ s.slabs, SlabOk s.mem p (kind p)
  aligned : ∀ p ∈ s.slabs, pageSize ∣ p ∧ 0 < p ∧ p + (kind p).span < 2 ^ 64
  held : ∀ p ∈ s.slabs, ∀ x, p ≤ x → x < p + (kind p).span → s.held (x / pageSize) = true
  apart : ∀ p ∈ s.slabs, ∀ q ∈ s.slabs, p ≠ q →
    p + (kind p).span ≤ q ∨ q + (kind q).span ≤ p
  live_nodup : s.live.Nodup
  live_iff : ∀ b, b ∈ s.live ↔ ∃ p ∈ s.slabs, (kind p).Owns p b

/-- The caches hold the lists `l`. -/
structure Listed (s : Kheap) (kind : Nat → SlabKind) (l : Fin 8 → List Nat) : Prop where
  chain : ∀ i, Chain (fun p => (s.slab p).next) (s.caches i).slabs (l i)
  nodup : ∀ i, (l i).Nodup
  count : ∀ i, (s.caches i).slabCount = (l i).length
  small : ∀ i, ∀ p ∈ l i, p ∈ s.slabs ∧ ∃ fl, kind p = .small i fl

/-- The lists hold exactly the slabs with a free object. -/
def Partial (s : Kheap) (kind : Nat → SlabKind) (l : Fin 8 → List Nat) : Prop :=
  ∀ i, ∀ p ∈ s.slabs, ∀ fl, kind p = .small i fl → (p ∈ l i ↔ fl ≠ [])

section Frames

variable {s s' : Kheap} {kind kind' : Nat → SlabKind} {l : Fin 8 → List Nat} {p q x : Nat}
  {mem : ByteMemory} {b b' : Block}

/-- An address of a slab. -/
def InSlab (kind : Nat → SlabKind) (p x : Nat) : Prop := p ≤ x ∧ x < p + (kind p).span

section

variable (h : s.Core kind)

include h

theorem Core.eq_of_inSlab (hp : p ∈ s.slabs) (hq : q ∈ s.slabs)
    (hxp : InSlab kind p x) (hxq : InSlab kind q x) : p = q := by
  by_contra hne
  unfold InSlab at hxp hxq
  rcases h.apart p hp q hq hne with hap | hap <;> omega

theorem Core.inSlab_of_owns (hp : p ∈ s.slabs) (hb : (kind p).Owns p b)
    (hlo : b.ptr ≤ x) (hhi : x < b.ptr + b.size) : InSlab kind p x := by
  obtain ⟨hmin, hmax, -, -⟩ := (h.ok p hp).owns_spec hb
  unfold Slab.sizeof at hmin
  exact ⟨by omega, by omega⟩

/-- A block is in one slab. -/
theorem Core.eq_of_owns (hp : p ∈ s.slabs) (hq : q ∈ s.slabs)
    (hb : (kind p).Owns p b) (hb' : (kind q).Owns q b) : p = q := by
  obtain ⟨-, -, hpos, -⟩ := (h.ok p hp).owns_spec hb
  exact h.eq_of_inSlab hp hq (h.inSlab_of_owns hp hb (Nat.le_refl _) (by omega))
    (h.inSlab_of_owns hq hb' (Nat.le_refl _) (by omega))

/-- The bytes of a block callers own say nothing of any slab. -/
theorem Core.not_governs_of_live (hb : b ∈ s.live) (hlo : b.ptr ≤ x)
    (hhi : x < b.ptr + b.size) : ∀ q ∈ s.slabs, ¬ Governs q (kind q) x := by
  obtain ⟨p, hp, howns⟩ := (h.live_iff b).mp hb
  intro q hq hgov
  have hin := h.inSlab_of_owns hp howns hlo hhi
  obtain rfl := h.eq_of_inSlab hp hq hin ((h.ok q hq).governs_lt hgov)
  exact ((h.ok p hp).owns_spec howns).2.2.2 x hlo hhi hgov

/-- Nor do those of pages the heap does not have. -/
theorem Core.not_governs_of_free (hx : s.held (x / pageSize) = false) :
    ∀ q ∈ s.slabs, ¬ Governs q (kind q) x := by
  intro q hq hgov
  obtain ⟨hlo, hhi⟩ := (h.ok q hq).governs_lt hgov
  simp [h.held q hq x hlo hhi] at hx

variable {f : ByteMemory → ByteMemory}

/-- A change of other bytes keeps the slabs. -/
theorem Core.modMem (hsame : ∀ p ∈ s.slabs, ∀ x, Governs p (kind p) x → f s.mem x = s.mem x) :
    (s.modMem f).Core kind :=
  { h with ok := fun p hp => (h.ok p hp).congr (hsame p hp) }

end

theorem Listed.modMem (h : s.Listed kind l)
    (hsame : ∀ p ∈ s.slabs, ∀ x, p ≤ x → x < p + 8 → f s.mem x = s.mem x) : (s.modMem f).Listed kind l := by
  refine ⟨fun i => (h.chain i).congr fun p hp => ?_, h.nodup, h.count, h.small⟩
  exact ByteMemory.load_congr fun x hlo hhi => hsame p (h.small i p hp).1 x hlo hhi

/-- Writing the bytes of blocks callers own, or of pages the heap does not have, changes nothing
for the heap. -/
theorem Core.write (h : s.Core kind) (hl : s.Listed kind l)
    (hoff : ∀ x, (∃ q ∈ s.slabs, Governs q (kind q) x) → f s.mem x = s.mem x) :
    (s.modMem f).Core kind ∧ (s.modMem f).Listed kind l :=
  ⟨h.modMem fun p hp x hgov => hoff x ⟨p, hp, hgov⟩, hl.modMem fun p hp x hlo hhi =>
      hoff x ⟨p, hp, .inl ⟨hlo, by unfold Slab.sizeof; omega⟩⟩⟩

/-- The bytes of a header that change while the slab exists: the links and the number of free
objects. -/
def InLinks (p x : Nat) : Prop := p ≤ x ∧ x < p + 16 ∨ p + 24 ≤ x ∧ x < p + 26

/-- Only links in headers of slabs differ. -/
def SameOffLinks (s s' : Kheap) : Prop :=
  ∀ x, (∀ q ∈ s.slabs, ¬ InLinks q x) → s'.mem x = s.mem x

/-- The bytes of a block are the same, and so is the size in the header of its slab. -/
def Same (s s' : Kheap) (b : Block) : Prop :=
  (∀ x, b.ptr ≤ x → x < b.ptr + b.size → s'.mem x = s.mem x) ∧
    (s'.slab (pageBase b.ptr)).objectSize = (s.slab (pageBase b.ptr)).objectSize

theorem Same.trans {s1 s2 s3 : Kheap} (h : Same s1 s2 b) (h' : Same s2 s3 b) : Same s1 s3 b :=
  ⟨fun x hlo hhi => (h'.1 x hlo hhi).trans (h.1 x hlo hhi), h'.2.trans h.2⟩

section

variable (h : s.Core kind)

include h

/-- The header of the slab of a block is at the start of the page. -/
theorem Core.pageBase_eq (hp : p ∈ s.slabs) (hb : (kind p).Owns p b) : pageBase b.ptr = p := by
  obtain ⟨⟨k, rfl⟩, -⟩ := h.aligned p hp
  have hrange : pageSize * k ≤ b.ptr ∧ b.ptr < pageSize * k + pageSize := by
    revert hb
    cases kind (pageSize * k) with
    | small i fl =>
      rintro ⟨hobj, -⟩
      have hbounds := hobj.bounds
      have h16 := (cacheSize_spec i).2.1
      omega
    | big n =>
      intro hb
      rw [show b.ptr = pageSize * k + Slab.sizeof from congrArg Block.ptr hb]
      unfold Slab.sizeof pageSize
      omega
  unfold pageBase pageSize at *
  omega

/-- A block of the heap is the same if its bytes and the header of its slab are. -/
theorem Core.same (hp : p ∈ s.slabs) (hb : (kind p).Owns p b)
    (hmem : ∀ x, b.ptr ≤ x → x < b.ptr + b.size → s'.mem x = s.mem x)
    (hhead : ∀ x, p + 20 ≤ x → x < p + 22 → s'.mem x = s.mem x) : Same s s' b := by
  refine ⟨hmem, ?_⟩
  rw [h.pageBase_eq hp hb]
  exact ByteMemory.load_congr hhead

theorem Core.same_of_sameOffLinks (hsame : SameOffLinks s s') (hb : b ∈ s.live) : Same s s' b := by
  obtain ⟨p, hp, howns⟩ := (h.live_iff b).mp hb
  have hsizeof : ∀ q x, InLinks q x → q ≤ x ∧ x < q + Slab.sizeof := by
    intro q x hx
    unfold InLinks at hx
    unfold Slab.sizeof
    omega
  refine h.same hp howns (fun x hlo hhi => hsame x fun q hq hx => ?_) fun x hlo hhi =>
    hsame x fun q hq hx => ?_
  · exact h.not_governs_of_live hb hlo hhi q hq (.inl (hsizeof q x hx))
  · have hp' : InSlab kind p x := (h.ok p hp).governs_lt (.inl ⟨by omega, by unfold Slab.sizeof; omega⟩)
    obtain rfl := h.eq_of_inSlab hq hp ((h.ok q hq).governs_lt (.inl (hsizeof q x hx))) hp'
    unfold InLinks at hx
    omega

/-- A change of pages the heap does not have. -/
theorem Core.same_of_held (hsame : ∀ x, s.held (x / pageSize) = true → s'.mem x = s.mem x) (hb : b ∈ s.live) :
    Same s s' b := by
  obtain ⟨p, hp, howns⟩ := (h.live_iff b).mp hb
  refine h.same hp howns (fun x hlo hhi => hsame x ?_) fun x hlo hhi => hsame x ?_
  · obtain ⟨hmin, hmax⟩ := h.inSlab_of_owns hp howns hlo hhi
    exact h.held p hp x hmin hmax
  · obtain ⟨hmin, hmax⟩ := (h.ok p hp).governs_lt
      (x := x) (.inl ⟨by omega, by unfold Slab.sizeof; omega⟩)
    exact h.held p hp x hmin hmax

/-- Blocks callers own are apart. -/
theorem Core.live_apart (hb : b ∈ s.live) (hb' : b' ∈ s.live) (hne : b ≠ b') :
    b.ptr + b.size ≤ b'.ptr ∨ b'.ptr + b'.size ≤ b.ptr := by
  obtain ⟨p, hp, howns⟩ := (h.live_iff b).mp hb
  obtain ⟨q, hq, howns'⟩ := (h.live_iff b').mp hb'
  by_cases hpq : p = q
  · subst hpq
    exact howns.apart howns' hne
  · obtain ⟨hmin, hmax, -, -⟩ := (h.ok p hp).owns_spec howns
    obtain ⟨hmin', hmax', -, -⟩ := (h.ok q hq).owns_spec howns'
    rcases h.apart p hp q hq hpq with hap | hap
    · exact .inl (by omega)
    · exact .inr (by omega)

end

end Frames

end Kheap

end Lapis.Mm
