/-
Lapis.Mm.KheapCallTheorems — kmalloc and kzalloc keep the layout of the heap.

`Laid` puts the parts of the layout together. Every function has one lemma: it returns, the layout
goes on to describe the heap, the blocks callers own are the old ones and a new one, and the bytes of
the old ones are the same.
-/
import Lapis.Mm.KheapOpTheorems

namespace Lapis.Mm.Kheap

open Function List Option Lib

variable {s s' : Kheap} {kind : Nat → SlabKind} {l : Fin 8 → List Nat} {κ : SlabKind}
  {p q x : Nat} {i : Fin 8} {fl : List Nat} {mem : ByteMemory} {b : Block}

/-! ## slab_create -/

/-- The header `slab_create` writes. -/
def slabHeader (mem : ByteMemory) (p : Nat) (i : Fin 8) : ByteMemory :=
  let mem := mem.fill p 0 pageSize
  let mem := Slab.setMagic mem p slabMagic
  let mem := Slab.setObjectSize mem p (cacheSize i)
  let mem := Slab.setCacheIndex mem p i
  let mem := Slab.setNpages mem p 1
  let mem := Slab.setCapacity mem p (objectCount i)
  let mem := Slab.setFreeCount mem p (objectCount i)
  Slab.setFreeList mem p 0

theorem slabHeader_spec (mem : ByteMemory) (i : Fin 8) (hlt : p + pageSize < 2 ^ 64) :
    Slab.read (slabHeader mem p i) p = ⟨0, 0, slabMagic, cacheSize i, objectCount i, objectCount i, i, 1⟩ ∧
      ∀ x, ¬ (p ≤ x ∧ x < p + pageSize) → slabHeader mem p i x = mem x := by
  obtain ⟨-, -, hsize, -, hcap, -⟩ := cacheSize_spec i
  have hi : (i : Nat) < 2 ^ 16 := Nat.lt_trans i.isLt (by decide)
  unfold slabHeader
  dsimp only
  constructor
  · rw [Slab.read_setFreeList _ p (by decide), Slab.read_setFreeCount _ p hcap,
      Slab.read_setCapacity _ p hcap, Slab.read_setNpages, Slab.read_setCacheIndex _ p hi,
      Slab.read_setObjectSize _ p hsize, Slab.read_setMagic _ p (by decide),
      Slab.read_fill mem (by decide) (by omega)]
    rfl
  · intro x hx
    have hpage : 32 ≤ pageSize := by decide
    simp only [Slab.setFreeList, Slab.setFreeCount, Slab.setCapacity, Slab.setNpages,
      Slab.setCacheIndex, Slab.setObjectSize, Slab.setMagic]
    iterate 7 rw [ByteMemory.store_of_out (by omega)]
    rw [ByteMemory.fill_apply (by omega), if_neg hx]

/-- `slab_create` on a page the allocator hands out. -/
theorem slabCreate_eq {s1 : Kheap} (halloc : s.pmmAllocPages 1 = (some p, s1)) (hp : pageSize ∣ p)
    (hlt : p + pageSize < 2 ^ 64) :
    s.slabCreate i = (some p, { s1 with
      mem := freeObjects p (p + Slab.sizeof) (cacheSize i) (objectCount i) (slabHeader s1.mem p i)
      slabs := p :: s1.slabs }) := by
  have hcap : (p + pageSize - (p + Slab.sizeof)) / cacheSize i % 2 ^ 16 = objectCount i := by
    rw [Nat.add_sub_add_left]
    exact Nat.mod_eq_of_lt (cacheSize_spec i).2.2.2.2.1
  have hroom : ¬ p + pageSize ≤ p + Slab.sizeof := by
    simp only [pageSize, Slab.sizeof]
    omega
  unfold Kheap.slabCreate
  rw [halloc]
  dsimp only
  rw [alignUpTo_header hp hlt, if_neg hroom, hcap, if_neg (Nat.ne_of_gt (cacheSize_spec i).2.2.2.1)]
  rfl

/-- A new slab, with all its objects free and in no list yet. -/
theorem Core.slabCreate (h : s.Core kind) (hl : s.Listed kind l) (i : Fin 8) :
    (∃ r, s.slabCreate i = (none, { s with replies := r })) ∨
      ∃ p s', s.slabCreate i = (some p, s') ∧ p ∉ s.slabs ∧ s'.slabs = p :: s.slabs ∧
        s'.live = s.live ∧ s'.Core (update kind p (.small i (freeFrom p i (objectCount i)))) ∧
        s'.Listed (update kind p (.small i (freeFrom p i (objectCount i)))) l ∧ ∀ b ∈ s.live, Same s s' b := by
  rcases pmmAllocPages_cases s 1 with ⟨r, halloc⟩ | ⟨page, r, hfree, halloc⟩
  · exact .inl ⟨r, by rw [Kheap.slabCreate, halloc]⟩
  right
  obtain ⟨⟨hdvd, hpos, hlt⟩, hpages⟩ := hfree.spec
  rw [Nat.one_mul] at hlt hpages
  have heq := slabCreate_eq (i := i) halloc hdvd hlt
  generalize page * pageSize = p at hdvd hpos hlt hpages heq
  obtain ⟨hread, hheader⟩ := slabHeader_spec s.mem i hlt
  obtain ⟨⟨head, hread', hchain⟩, hobjects⟩ := freeObjects_spec (i := i) (Nat.le_refl _) hpos hlt
    (show (Slab.read (slabHeader s.mem p i) p).freeList = 0 by rw [hread])
  rw [hread] at hread'
  have hout : ∀ x, ¬ (p ≤ x ∧ x < p + pageSize) → freeObjects p (p + Slab.sizeof) (cacheSize i)
      (objectCount i) (slabHeader s.mem p i) x = s.mem x :=
    fun x hx => (hobjects x hx).trans (hheader x hx)
  have hfresh : ∀ x, p ≤ x → x < p + pageSize → s.held (x / pageSize) = false :=
    fun x hlo hhi => (hpages x hlo hhi).2
  have hok : SlabOk (freeObjects p (p + Slab.sizeof) (cacheSize i) (objectCount i)
      (slabHeader s.mem p i)) p (.small i (freeFrom p i (objectCount i))) := by
    refine ⟨⟨0, head, ?_, hchain⟩, nodup_freeFrom p i _, fun o ho => mem_freeFrom.mp ho⟩
    rw [hread', length_freeFrom]
  have hnone : ∀ b, ¬ (SlabKind.small i (freeFrom p i (objectCount i))).Owns p b := by
    rintro b ⟨hobj, hnot, -⟩
    exact hnot (mem_freeFrom.mpr hobj)
  refine ⟨p, _, heq, fun hp => ?_, rfl, rfl, ?_, ?_, fun b hb => h.same_of_held (fun x hx => ?_) hb⟩
  · exact h.not_fresh hfresh hp (h.inSlab_header hp (Nat.le_refl p) (by unfold Slab.sizeof; omega))
      ⟨Nat.le_refl p, by unfold pageSize; omega⟩
  · refine h.create hfresh ⟨hdvd, hpos, hlt⟩ rfl hok hout (fun q hq => ?_) (fun x hlo hhi => ?_)
      h.live_nodup fun b => ?_
    · exact Bool.or_eq_true_iff.mpr (.inl hq)
    · exact Bool.or_eq_true_iff.mpr (.inr (decide_eq_true (hpages x hlo hhi).1))
    · exact ⟨.inr, fun hb => hb.resolve_left (hnone b)⟩
  · exact hl.create h hfresh rfl rfl (show 0 < pageSize by decide) hout
  · refine hout x fun hin => ?_
    simp [hfresh x hin.1 hin.2] at hx

/-! ## kmalloc from a cache -/

/-- The layout of a heap: what its slabs are, and the lists of its caches, which hold exactly the
slabs with a free object. -/
structure Laid (s : Kheap) (kind : Nat → SlabKind) (l : Fin 8 → List Nat) : Prop where
  core : s.Core kind
  listed : s.Listed kind l
  available : s.Partial kind l

/-- The heap has a layout. -/
def Sound (s : Kheap) : Prop := ∃ kind l, s.Laid kind l

/-- Only the pages the allocator is going to hand out differ. -/
theorem Laid.setReplies (h : s.Laid kind l) (r : List (Option Nat)) :
    { s with replies := r }.Laid kind l := by
  obtain ⟨⟨hnodup, hok, haligned, hheld, hapart, hlive_nodup, hlive⟩, ⟨hchain, hlnodup, hcount,
    hsmall⟩, havail⟩ := h
  exact ⟨⟨hnodup, hok, haligned, hheld, hapart, hlive_nodup, hlive⟩,
    ⟨hchain, hlnodup, hcount, hsmall⟩, havail⟩

theorem Partial.change (h : s.Partial kind l) (hslabs : ∀ q ∈ s'.slabs, q ≠ p → q ∈ s.slabs)
    {l' : Fin 8 → List Nat} (hp : p ∈ l' i ↔ fl ≠ [])
    (hother : ∀ j, ∀ q ∈ s.slabs, q ≠ p → (q ∈ l' j ↔ q ∈ l j)) :
    s'.Partial (update kind p (.small i fl)) l' := by
  intro j q hq fl' hkind
  by_cases hqp : q = p
  · subst hqp
    rw [update_self] at hkind
    obtain ⟨rfl, rfl⟩ := SlabKind.small.inj hkind
    exact hp
  · rw [update_of_ne hqp] at hkind
    rw [hother j q (hslabs q hq hqp) hqp]
    exact h j q (hslabs q hq hqp) fl' hkind

/-- A slab in a list has a free object. -/
theorem Laid.free_of_mem (h : s.Laid kind l) (hp : p ∈ l i) :
    p ∈ s.slabs ∧ ∃ o fl, kind p = .small i (o :: fl) := by
  obtain ⟨hmem, fl, hkind⟩ := h.listed.small i p hp
  refine ⟨hmem, ?_⟩
  cases fl with
  | nil => exact absurd rfl ((h.available i p hmem [] hkind).mp hp)
  | cons o fl => exact ⟨o, fl, hkind⟩

/-- The search ends at the first slab of the list. -/
theorem Laid.findSlab (h : s.Laid kind l) (i : Fin 8) {rounds : Nat} (hrounds : 0 < rounds) :
    Kheap.findSlab s.mem rounds (s.caches i).slabs = some ((l i).head?.getD 0) := by
  obtain ⟨rounds, rfl⟩ := Nat.exists_eq_succ_of_ne_zero (Nat.ne_of_gt hrounds)
  have hchain := h.listed.chain i
  rw [Kheap.findSlab]
  cases hli : l i with
  | nil =>
    rw [hli] at hchain
    rw [if_pos (show (s.caches i).slabs = 0 from hchain)]
    rfl
  | cons p rest =>
  rw [hli] at hchain
  obtain ⟨hmem, o, fl, hkind⟩ := h.free_of_mem (i := i) (p := p) (by rw [hli]; exact mem_cons_self)
  have hok := h.core.ok p hmem
  rw [hkind] at hok
  obtain ⟨-, hhead, hne, -⟩ := hok.read_eq
  rw [hchain.1, if_neg hchain.2.1, if_pos (by rw [hhead]; exact hne)]
  rfl

theorem Laid.slabFor (h : s.Laid kind l) (hfew : s.slabs.length + 1 < 2 ^ 32) (i : Fin 8) :
    (∃ r, s.slabFor i = some (none, { s with replies := r })) ∨
      ∃ p s' kind' l', s.slabFor i = some (some p, s') ∧ s'.Laid kind' l' ∧ p ∈ l' i ∧
        s'.live = s.live ∧ s'.slabs.length ≤ s.slabs.length + 1 ∧ ∀ b ∈ s.live, Same s s' b := by
  unfold Kheap.slabFor
  rw [h.findSlab i (by decide)]
  cases hli : l i with
  | cons p rest =>
    have hp : p ∈ l i := by rw [hli]; exact mem_cons_self
    refine .inr ⟨p, s, kind, l, ?_, h, hp, rfl, Nat.le_succ _, fun b _ => ⟨fun _ _ _ => rfl, rfl⟩⟩
    exact if_pos ((h.listed.chain i).ne_zero hp)
  | nil =>
  simp only [List.head?_nil, getD_none, bind_eq_bind, bind_some, ne_eq,
    not_true_eq_false, if_false]
  rcases h.core.slabCreate h.listed i with ⟨r, heq⟩ |
    ⟨p, s', heq, hnew, hslabs, hlive, hcore, hlisted, hkeeps⟩
  · exact .inl ⟨r, by rw [heq]⟩
  have hnot : ∀ j, p ∉ l j := fun j hp => hnew (h.listed.small j p hp).1
  have hmem : p ∈ s'.slabs := by rw [hslabs]; exact mem_cons_self
  have hlen : s'.slabs.length = s.slabs.length + 1 := by rw [hslabs, length_cons]
  obtain ⟨hcore', hlisted'⟩ := hcore.cacheAddSlab hlisted hmem (update_self ..) (hnot i)
    (by omega)
  refine .inr ⟨p, s'.cacheAddSlab i p, _, _, by rw [heq], ⟨hcore', hlisted', ?_⟩, ?_, hlive,
    Nat.le_of_eq hlen, fun b hb => (hkeeps b hb).trans ?_⟩
  · refine h.available.change (fun q hq hqp => ?_) ?_ fun j q hq hqp => ?_
    · have hq' : q ∈ s'.slabs := hq
      rw [hslabs] at hq'
      exact (mem_cons.mp hq').resolve_left hqp
    · rw [update_self]
      refine iff_of_true mem_cons_self fun hnil => ?_
      have hcount := (cacheSize_spec i).2.2.2.1
      rw [← length_freeFrom p i (objectCount i), hnil] at hcount
      exact Nat.lt_irrefl 0 hcount
    · by_cases hj : j = i
      · subst hj
        rw [update_self, mem_cons, or_iff_right hqp]
      · rw [update_of_ne hj]
  · rw [update_self]
    exact mem_cons_self
  · exact hcore.same_of_sameOffLinks (sameOffLinks_setNext hmem (s'.caches i).slabs) (hlive ▸ hb)

/-- Addresses of slabs and objects are above the first page. -/
theorem Core.page_le (h : s.Core kind) (hp : p ∈ s.slabs) : 0x1000 ≤ p := by
  obtain ⟨⟨k, rfl⟩, hpos, -⟩ := h.aligned p hp
  unfold pageSize at *
  omega

theorem inSlab_of_inFreeHeader (h : InFreeHeader p x) (hkind : kind p = .small i fl) :
    InSlab kind p x ∧ p + 8 ≤ x := by
  unfold InFreeHeader at h
  unfold InSlab
  rw [hkind, SlabKind.span, pageSize]
  omega

/-- The first free object of a slab becomes a block of a caller. -/
theorem Core.popObject {o : Nat} (h : s.Core kind) (hl : s.Listed kind l) (hp : p ∈ s.slabs)
    (hkind : kind p = .small i (o :: fl))
    (hs' : s' = { s.modMem (popObject · p o) with live := ⟨o, cacheSize i⟩ :: s.live }) :
    s'.Core (update kind p (.small i fl)) ∧ s'.Listed (update kind p (.small i fl)) l ∧
      (s'.slab p).freeCount = fl.length ∧ SameOffLinks s s' := by
  have hok := h.ok p hp
  have hspan := (h.aligned p hp).2.2
  rw [hkind] at hok hspan
  have hobj := hok.2.2 o mem_cons_self
  have hnodup := nodup_cons.mp hok.2.1
  obtain ⟨hok', hsame⟩ := hok.popObject (h.page_le hp) hspan
  have hnew : (⟨o, cacheSize i⟩ : Block) ∉ s.live := by
    intro hb
    have h16 := (cacheSize_spec i).2.1
    refine h.not_governs_of_live hb (Nat.le_refl o) (show o < o + cacheSize i by omega) p hp (.inr ?_)
    rw [hkind]
    exact ⟨o, mem_cons_self, Nat.le_refl o, by omega⟩
  subst hs'
  refine ⟨h.change hp rfl rfl (fun x hx => hsame x fun hin => ?_) hok' (by rw [hkind]; rfl)
    (nodup_cons.mpr ⟨hnew, h.live_nodup⟩) fun b => ?_,
    hl.change h hp rfl rfl (fun x hx => hsame x fun hin => ?_) fun j fl' hfl' => ?_, ?_, fun x hx => ?_⟩
  · exact hx (inSlab_of_inFreeHeader hin hkind).1
  · rw [hkind]
    constructor
    · intro hb
      rcases mem_cons.mp hb with rfl | hb
      · exact .inl ⟨hobj, hnodup.1, rfl⟩
      · by_cases howns : (SlabKind.small i (o :: fl)).Owns p b
        · exact .inl ⟨howns.1, fun hmem => howns.2.1 (mem_cons_of_mem o hmem), howns.2.2⟩
        · exact .inr ⟨hb, howns⟩
    · rintro (⟨hobj', hnot, hsize⟩ | ⟨hb, -⟩)
      · by_cases hptr : b.ptr = o
        · obtain ⟨ptr, size⟩ := b
          obtain rfl : ptr = o := hptr
          obtain rfl : size = cacheSize i := hsize
          exact mem_cons_self
        · refine mem_cons_of_mem _ ((h.live_iff b).mpr ⟨p, hp, ?_⟩)
          rw [hkind]
          exact ⟨hobj', fun hmem => (mem_cons.mp hmem).elim hptr hnot, hsize⟩
      · exact mem_cons_of_mem _ hb
  · exact hx (inSlab_of_inFreeHeader hin hkind)
  · rw [hkind] at hfl'
    exact ⟨fl, by rw [(SlabKind.small.inj hfl').1]⟩
  · obtain ⟨hread, -⟩ := hok'.read_eq
    exact congrArg Slab.freeCount hread
  · refine hsame x fun hin => hx p hp ?_
    unfold InFreeHeader at hin
    unfold InLinks
    omega

variable {n : Nat}

/-- The size in the header of an object of a class. -/
theorem Core.objectSize_eq {o : Nat} (h : s.Core kind) (hp : p ∈ s.slabs)
    (hb : (kind p).Owns p ⟨o, n⟩) (hkind : kind p = .small i fl) :
    (s.slab (pageBase o)).objectSize = cacheSize i := by
  have hok := h.ok p hp
  have hbase := h.pageBase_eq hp hb
  dsimp only at hbase
  rw [hkind] at hok
  rw [hbase]
  exact congrArg Slab.objectSize hok.read_eq.1

theorem Laid.kmallocSmall (h : s.Laid kind l) (hfew : s.slabs.length + 1 < 2 ^ 32) (i : Fin 8) :
    (∃ r, s.kmallocSmall i = some (0, { s with replies := r })) ∨
      ∃ o s' kind' l', s.kmallocSmall i = some (o, s') ∧ s'.Laid kind' l' ∧ 0 < o ∧
        s'.live = ⟨o, cacheSize i⟩ :: s.live ∧ s'.slabs.length ≤ s.slabs.length + 1 ∧
        (s'.slab (pageBase o)).objectSize = cacheSize i ∧ ∀ b ∈ s.live, Same s s' b := by
  unfold Kheap.kmallocSmall
  rcases h.slabFor hfew i with ⟨r, heq⟩ | ⟨p, s1, kind1, l1, heq, h1, hp, hlive, hlen, hkeeps⟩
  · exact .inl ⟨r, by rw [heq]; rfl⟩
  right
  obtain ⟨hmem, o, fl, hkind⟩ := h1.free_of_mem hp
  have hok := h1.core.ok p hmem
  rw [hkind] at hok
  have hhead : (s1.slab p).freeList = o := hok.read_eq.2.1
  have hlarge : ¬ o < 0x1000 := by
    have := (hok.2.2 o mem_cons_self).bounds.1
    have := h1.core.page_le hmem
    omega
  simp only [heq, bind_eq_bind, bind_some, hhead, if_neg hlarge]
  obtain ⟨hcore, hlisted, hcount, hsame⟩ := h1.core.popObject h1.listed hmem hkind rfl
  have hkeeps1 := fun b hb => (hkeeps b hb).trans
    (h1.core.same_of_sameOffLinks hsame (hlive ▸ hb))
  have howns : (update kind1 p (.small i fl) p).Owns p ⟨o, cacheSize i⟩ := by
    rw [update_self]
    exact ⟨hok.2.2 o mem_cons_self, (nodup_cons.mp hok.2.1).1, rfl⟩
  rw [hcount]
  cases fl with
  | cons o' fl =>
    refine ⟨o, _, _, _, rfl, ⟨hcore, hlisted, ?_⟩, by omega, by rw [← hlive], hlen,
      hcore.objectSize_eq hmem howns (update_self ..), hkeeps1⟩
    exact h1.available.change (fun q hq _ => hq) (iff_of_true hp (cons_ne_nil o' fl))
      fun j q _ _ => Iff.rfl
  | nil =>
  obtain ⟨s2, hremove, hcore2, hlisted2, hslabs2, hlive2, hsame2⟩ :=
    hcore.cacheRemoveSlab hlisted hp (by dsimp only [Kheap.modMem]; omega)
  rw [if_pos (show ([] : List Nat).length = 0 from rfl), hremove]
  refine ⟨o, s2, _, _, rfl, ⟨hcore2, hlisted2, ?_⟩, by omega, by rw [hlive2, ← hlive],
    by rw [hslabs2]; exact hlen,
    hcore2.objectSize_eq (by rw [hslabs2]; exact hmem) howns (update_self ..),
    fun b hb => (hkeeps1 b hb).trans ?_⟩
  · refine h1.available.change (fun q hq _ => by rw [hslabs2] at hq; exact hq) ?_ fun j q _ hqp => ?_
    · rw [update_self]
      exact iff_of_false (h1.listed.nodup i).not_mem_erase fun hne => hne rfl
    · by_cases hj : j = i
      · subst hj
        rw [update_self, mem_erase_of_ne hqp]
      · rw [update_of_ne hj]
  · exact hcore.same_of_sameOffLinks hsame2 (mem_cons_of_mem _ (hlive ▸ hb))

/-! ## kmalloc of pages -/

/-- The header of a big block. -/
def bigHeader (mem : ByteMemory) (p size npages : Nat) : ByteMemory :=
  let mem := mem.fill p 0 (npages * pageSize)
  let mem := Slab.setMagic mem p slabMagic
  let mem := Slab.setObjectSize mem p (if 0xFFFF < size then 0xFFFF else size)
  let mem := Slab.setCacheIndex mem p bigCacheIndex
  let mem := Slab.setCapacity mem p 1
  let mem := Slab.setFreeCount mem p 0
  let mem := Slab.setFreeList mem p 0
  let mem := Slab.setNext mem p 0
  Slab.setNpages mem p npages

theorem bigHeader_spec (mem : ByteMemory) (size : Nat) (hn : 0 < n) (hlt : p + n * pageSize < 2 ^ 64) :
    Slab.read (bigHeader mem p size n) p = ⟨0, 0, slabMagic, min size 0xFFFF, 1, 0, bigCacheIndex,
        n % 2 ^ 32⟩ ∧ (∀ x, ¬ (p ≤ x ∧ x < p + n * pageSize) → bigHeader mem p size n x = mem x) ∧
      ∀ x, p + Slab.sizeof ≤ x → x < p + n * pageSize → bigHeader mem p size n x = 0 := by
  have hfits : (if 0xFFFF < size then 0xFFFF else size) < 2 ^ 16 := by split <;> omega
  have hmin : (if 0xFFFF < size then 0xFFFF else size) = min size 0xFFFF := by split <;> omega
  have hpages : Slab.sizeof ≤ n * pageSize := by
    unfold Slab.sizeof pageSize
    omega
  -- the header is written into cleared pages
  have hout : ∀ x, ¬ (p ≤ x ∧ x < p + Slab.sizeof) →
      bigHeader mem p size n x = mem.fill p 0 (n * pageSize) x := by
    intro x hx
    unfold Slab.sizeof at hx
    simp only [bigHeader, Slab.setNext, Slab.setFreeList, Slab.setFreeCount, Slab.setCapacity,
      Slab.setNpages, Slab.setCacheIndex, Slab.setObjectSize, Slab.setMagic]
    iterate 8 rw [ByteMemory.store_of_out (by omega)]
  refine ⟨?_, fun x hx => ?_, fun x hlo hhi => ?_⟩
  · unfold bigHeader
    dsimp only
    rw [Slab.read_setNpages, Slab.read_setNext _ p (by decide), Slab.read_setFreeList _ p (by decide),
      Slab.read_setFreeCount _ p (by decide), Slab.read_setCapacity _ p (by decide),
      Slab.read_setCacheIndex _ p (by decide), Slab.read_setObjectSize _ p hfits,
      Slab.read_setMagic _ p (by decide), Slab.read_fill mem hpages (by omega), hmin]
  · rw [hout x (by omega), ByteMemory.fill_apply (by omega), if_neg hx]
  · have hpos := sizeof_pos
    rw [hout x (by omega), ByteMemory.fill_apply (by omega), if_pos (by omega)]

theorem Laid.kmallocBig (h : s.Laid kind l) (size : Nat) :
    (∃ r, s.kmallocBig size = (0, { s with replies := r })) ∨
      ∃ o n s' kind' l', s.kmallocBig size = (o, s') ∧ s'.Laid kind' l' ∧ 0 < o ∧ 0 < n ∧
        n = alignUpTo pageSize ((Slab.sizeof + kheapAlign + size) % 2 ^ 64) / pageSize ∧
        s'.live = ⟨o, n * pageSize - Slab.sizeof⟩ :: s.live ∧
        s'.slabs.length = s.slabs.length + 1 ∧
        (s'.slab (pageBase o)).objectSize = min size 0xFFFF ∧
        (∀ x, o ≤ x → x < o + (n * pageSize - Slab.sizeof) → s'.mem x = 0) ∧
        ∀ b ∈ s.live, Same s s' b := by
  unfold Kheap.kmallocBig
  dsimp only
  generalize alignUpTo pageSize ((Slab.sizeof + kheapAlign + size) % 2 ^ 64) / pageSize = n
  rcases pmmAllocPages_cases s n with ⟨r, halloc⟩ | ⟨page, r, hfree, halloc⟩
  · exact .inl ⟨r, by rw [halloc]⟩
  right
  have hn : 0 < n := hfree.1
  obtain ⟨⟨hdvd, hpos, hlt⟩, hpages⟩ := hfree.spec
  rw [halloc]
  generalize page * pageSize = p at hdvd hpos hlt hpages
  have hspan : pageSize ≤ n * pageSize := Nat.le_mul_of_pos_left pageSize hn
  obtain ⟨hread, hout, hzero⟩ := bigHeader_spec s.mem size hn hlt
  have hfresh : ∀ x, p ≤ x → x < p + n * pageSize → s.held (x / pageSize) = false :=
    fun x hlo hhi => (hpages x hlo hhi).2
  have hobj := alignUpTo_header hdvd (by omega)
  have howns : ∀ b, (SlabKind.big n).Owns p b ↔ b = ⟨p + Slab.sizeof, n * pageSize - Slab.sizeof⟩ :=
    fun b => Iff.rfl
  dsimp only
  rw [hobj]
  have hmem : Slab.sizeof < pageSize := by decide
  have hnew : p ∉ s.slabs := fun hp => h.core.not_fresh hfresh hp
    (h.core.inSlab_header hp (Nat.le_refl p) (by unfold Slab.sizeof; omega))
    ⟨Nat.le_refl p, by omega⟩
  have hcore : Core { s with
      mem := bigHeader s.mem p size n
      replies := r
      held := fun q => s.held q || decide (page ≤ q ∧ q < page + n)
      slabs := p :: s.slabs
      live := ⟨p + Slab.sizeof, n * pageSize - Slab.sizeof⟩ :: s.live }
      (update kind p (.big n)) := by
    refine h.core.create (κ := .big n) hfresh ⟨hdvd, hpos, hlt⟩ rfl ⟨hn, 0, min size 0xFFFF, hread⟩
      hout (fun q hq => ?_) (fun x hlo hhi => ?_) (nodup_cons.mpr ⟨fun hb => ?_,
        h.core.live_nodup⟩) fun b => ?_
    · exact Bool.or_eq_true_iff.mpr (.inl hq)
    · exact Bool.or_eq_true_iff.mpr (.inr (decide_eq_true (hpages x hlo hhi).1))
    · obtain ⟨q, hq, hqowns⟩ := (h.core.live_iff _).mp hb
      refine h.core.not_fresh hfresh hq
        (x := p + Slab.sizeof) (h.core.inSlab_of_owns hq hqowns (Nat.le_refl _) ?_)
        ⟨Nat.le_add_right p _, by omega⟩
      dsimp only
      omega
    · rw [mem_cons, howns]
  refine ⟨p + Slab.sizeof, n, _, _, l, rfl, ⟨hcore, ?_, fun j q hq fl hkind => ?_⟩, by omega, hn,
    rfl, rfl, rfl, ?_, fun x hlo hhi => hzero x hlo (by omega),
    fun b hb => h.core.same_of_held (fun x hx => ?_) hb⟩
  · exact h.listed.create h.core hfresh rfl rfl (show 0 < n * pageSize by omega) hout
  · by_cases hqp : q = p
    · simp [hqp, update_self] at hkind
    · rw [update_of_ne hqp] at hkind
      exact h.available j q ((mem_cons.mp hq).resolve_left hqp) fl hkind
  · have hbase := hcore.pageBase_eq (p := p) (b := ⟨p + Slab.sizeof, n * pageSize - Slab.sizeof⟩)
      mem_cons_self (by rw [update_self]; rfl)
    dsimp only at hbase
    rw [hbase]
    exact congrArg Slab.objectSize hread
  · refine hout x fun hin => ?_
    simp [hfresh x hin.1 hin.2] at hx

/-! ## kmalloc and kzalloc -/

/-- What a successful allocation does: there is one more block, which has room for the request unless
the request wraps around, and the other blocks are the same. -/
structure Allocated (s s' : Kheap) (size : Nat) (b : Block) : Prop where
  laid : s'.Sound
  ptr_pos : 0 < b.ptr
  live : s'.live = b :: s.live
  slabs_le : s'.slabs.length ≤ s.slabs.length + 1
  room : size + 63 < 2 ^ 64 → size ≤ b.size ∧
    min size 0xFFFF ≤ (s'.slab (pageBase b.ptr)).objectSize ∧
    (s'.slab (pageBase b.ptr)).objectSize ≤ b.size
  same : ∀ c ∈ s.live, Same s s' c

variable {size : Nat}

theorem cacheForSize_le (h : cacheForSize size = some i) : size ≤ cacheSize i :=
  of_decide_eq_true (List.find?_some (p := fun j => decide (size ≤ cacheSize j)) h)

/-- A request is rounded up, unless that wraps around. -/
theorem le_alignUpTo (h : size + 63 < 2 ^ 64) :
    size ≤ alignUpTo kheapAlign size ∧ alignUpTo kheapAlign size ≤ size + 15 := by
  unfold alignUpTo kheapAlign
  omega

/-- The pages of a big block hold it, unless their number is 0. -/
theorem le_bigPages (h : Slab.sizeof + kheapAlign + size < 2 ^ 64)
    (hn : n = alignUpTo pageSize ((Slab.sizeof + kheapAlign + size) % 2 ^ 64) / pageSize)
    (hpos : 0 < n) : size ≤ n * pageSize - Slab.sizeof := by
  rw [Nat.mod_eq_of_lt h] at hn
  simp only [alignUpTo, kheapAlign, Slab.sizeof, pageSize] at *
  omega

theorem Laid.kmalloc (h : s.Laid kind l) (hfew : s.slabs.length + 1 < 2 ^ 32) (size : Nat) :
    (∃ r, s.kmalloc size = some (0, { s with replies := r })) ∨
      ∃ b s', s.kmalloc size = some (b.ptr, s') ∧ Allocated s s' size b := by
  unfold Kheap.kmalloc
  by_cases hzero : size = 0
  · exact .inl ⟨s.replies, if_pos hzero⟩
  rw [if_neg hzero]
  dsimp only
  cases hclass : cacheForSize (alignUpTo kheapAlign size) with
  | some i =>
    rcases h.kmallocSmall hfew i with ⟨r, heq⟩ |
      ⟨o, s', kind', l', heq, hlaid, hpos, hlive, hlen, hobj, hsame⟩
    · exact .inl ⟨r, heq⟩
    refine .inr ⟨⟨o, cacheSize i⟩, s', heq, ⟨kind', l', hlaid⟩, hpos, hlive, hlen, ?_, hsame⟩
    intro hsize
    have hle := cacheForSize_le hclass
    have hround := le_alignUpTo hsize
    dsimp only
    rw [hobj]
    omega
  | none =>
  rcases h.kmallocBig (alignUpTo kheapAlign size) with ⟨r, heq⟩ |
    ⟨o, n, s', kind', l', heq, hlaid, hpos, hnpos, hn, hlive, hlen, hobj, -, hsame⟩
  · exact .inl ⟨r, congrArg some heq⟩
  refine .inr ⟨⟨o, n * pageSize - Slab.sizeof⟩, s', congrArg some heq, ⟨kind', l', hlaid⟩, hpos,
    hlive, Nat.le_of_eq hlen, ?_, hsame⟩
  intro hsize
  have hround := le_alignUpTo hsize
  have hpages := le_bigPages (by simp only [Slab.sizeof, kheapAlign] at *; omega) hn hnpos
  dsimp only
  rw [hobj]
  omega

variable {f : ByteMemory → ByteMemory}

/-- Writing bytes that say nothing of a slab. -/
theorem Laid.write (h : s.Laid kind l)
    (hoff : ∀ x, (∃ q ∈ s.slabs, Governs q (kind q) x) → f s.mem x = s.mem x) : (s.modMem f).Laid kind l :=
  ⟨(h.core.write h.listed hoff).1, (h.core.write h.listed hoff).2, h.available⟩

/-- A block ends below 2^64. -/
theorem Core.live_lt (h : s.Core kind) (hb : b ∈ s.live) : b.ptr + b.size < 2 ^ 64 := by
  obtain ⟨p, hp, howns⟩ := (h.live_iff b).mp hb
  have hle := ((h.ok p hp).owns_spec howns).2.1
  have hlt := (h.aligned p hp).2.2
  omega

/-- A caller writes in a block: the heap and the other blocks are the same. -/
theorem Laid.writeLive (h : s.Laid kind l) (hb : b ∈ s.live)
    (hout : ∀ x, ¬ (b.ptr ≤ x ∧ x < b.ptr + b.size) → f s.mem x = s.mem x) :
    (s.modMem f).Laid kind l ∧ (∀ c ∈ s.live, c ≠ b → Same s (s.modMem f) c) ∧
      ((s.modMem f).slab (pageBase b.ptr)).objectSize = (s.slab (pageBase b.ptr)).objectSize := by
  have hgov : ∀ q ∈ s.slabs, ∀ x, Governs q (kind q) x → f s.mem x = s.mem x :=
    fun q hq x hx => hout x fun hin => h.core.not_governs_of_live hb hin.1 hin.2 q hq hx
  have hhead : ∀ q ∈ s.slabs, ∀ x, q + 20 ≤ x → x < q + 22 → f s.mem x = s.mem x :=
    fun q hq x hlo hhi => hgov q hq x (.inl ⟨by omega, by unfold Slab.sizeof; omega⟩)
  refine ⟨h.write fun x ⟨q, hq, hx⟩ => hgov q hq x hx, fun c hc hcb => ?_, ?_⟩
  · obtain ⟨p, hp, howns⟩ := (h.core.live_iff c).mp hc
    refine h.core.same hp howns (fun x hlo hhi => hout x fun hin => ?_) (hhead p hp)
    rcases h.core.live_apart hc hb hcb with hap | hap <;> omega
  · obtain ⟨p, hp, howns⟩ := (h.core.live_iff b).mp hb
    rw [h.core.pageBase_eq hp howns]
    exact ByteMemory.load_congr (hhead p hp)

/-- The new block is none of the old ones. -/
theorem Laid.ne_of_live (h : s'.Laid kind l) (hlive : s'.live = b :: s.live) : ∀ c ∈ s.live, c ≠ b := by
  have hnodup := h.core.live_nodup
  rw [hlive, nodup_cons] at hnodup
  rintro c hc rfl
  exact hnodup.1 hc

/-- Writing in the block just allocated. -/
theorem Allocated.write (h : Allocated s s' size b)
    (hout : ∀ x, ¬ (b.ptr ≤ x ∧ x < b.ptr + b.size) → f s'.mem x = s'.mem x) :
    Allocated s (s'.modMem f) size b := by
  obtain ⟨⟨kind, l, hlaid⟩, hpos, hlive, hlen, hroom, hsame⟩ := h
  have hb : b ∈ s'.live := by rw [hlive]; exact mem_cons_self
  obtain ⟨hlaid', hother, hobj⟩ := hlaid.writeLive hb hout
  refine ⟨⟨kind, l, hlaid'⟩, hpos, hlive, hlen, by rwa [hobj], fun c hc => (hsame c hc).trans ?_⟩
  refine hother c ?_ (hlaid.ne_of_live hlive c hc)
  rw [hlive]
  exact mem_cons_of_mem b hc

theorem Laid.kzalloc (h : s.Laid kind l) (hfew : s.slabs.length + 1 < 2 ^ 32)
    (hsize : size + 63 < 2 ^ 64) : (∃ r, s.kzalloc size = some (0, { s with replies := r })) ∨
      ∃ b s', s.kzalloc size = some (b.ptr, s') ∧ Allocated s s' size b := by
  unfold Kheap.kzalloc
  rcases h.kmalloc hfew size with ⟨r, heq⟩ | ⟨b, s', heq, halloc⟩
  · exact .inl ⟨r, by rw [heq]; rfl⟩
  right
  refine ⟨b, s'.modMem (·.fill b.ptr 0 size), ?_, halloc.write fun x hx => ?_⟩
  · rw [heq]
    exact if_neg (Nat.ne_of_gt halloc.ptr_pos)
  · obtain ⟨kind', l', hlaid⟩ := halloc.laid
    have hb : b ∈ s'.live := by rw [halloc.live]; exact mem_cons_self
    have hlt := hlaid.core.live_lt hb
    have hle := (halloc.room hsize).1
    rw [ByteMemory.fill_apply (by omega), if_neg (by omega)]

end Lapis.Mm.Kheap
