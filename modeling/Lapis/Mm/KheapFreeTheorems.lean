/-
Lapis.Mm.KheapFreeTheorems — kfree and krealloc keep the layout of the heap.

A block goes with its slab if it is the only one there can be; otherwise its object goes back on the
free list, and the slab is destroyed when that was its last block and the class has another slab.
-/
import Lapis.Mm.KheapCallTheorems

namespace Lapis.Mm.Kheap

open Function List Option Lib

variable {s s' : Kheap} {kind : Nat → SlabKind} {l : Fin 8 → List Nat} {κ : SlabKind}
  {p q x : Nat} {i : Fin 8} {fl : List Nat} {mem : ByteMemory} {b : Block}

/-! ## kfree -/

/-- What `kfree` does to a block it takes back, or refuses: the other blocks are the same. -/
structure Freed (s s' : Kheap) (ptr : Nat) : Prop where
  laid : s'.Sound
  live : s'.live = s.live ∨ s'.live = s.live.filter (·.ptr ≠ ptr)
  slabs_le : s'.slabs.length ≤ s.slabs.length
  same : ∀ c ∈ s'.live, Same s s' c

/-- A block is known by its address. -/
theorem Core.eq_of_ptr {c : Block} (h : s.Core kind) (hb : b ∈ s.live) (hc : c ∈ s.live)
    (hptr : c.ptr = b.ptr) : c = b := by
  by_contra hne
  obtain ⟨p, hp, howns⟩ := (h.live_iff b).mp hb
  obtain ⟨q, hq, howns'⟩ := (h.live_iff c).mp hc
  obtain ⟨-, -, hpos, -⟩ := (h.ok p hp).owns_spec howns
  obtain ⟨-, -, hpos', -⟩ := (h.ok q hq).owns_spec howns'
  rcases h.live_apart hc hb hne with hap | hap <;> omega

/-- `slab_destroy` gives back pages of the slab only. -/
theorem Core.slabDestroy (h : s.Core kind) (hp : p ∈ s.slabs) :
    (s.slabDestroy p).slabs = s.slabs.erase p ∧ (s.slabDestroy p).mem = s.mem ∧
      (s.slabDestroy p).caches = s.caches ∧ (s.slabDestroy p).live = s.live ∧
      ∀ x, ¬ InSlab kind p x → (s.slabDestroy p).held (x / pageSize) = s.held (x / pageSize) := by
  have hrelease : ∀ n, n * pageSize ≤ (kind p).span → ∀ x, ¬ InSlab kind p x →
      (s.held (x / pageSize) && !decide (p / pageSize ≤ x / pageSize ∧
        x / pageSize < p / pageSize + n)) = s.held (x / pageSize) := by
    intro n hn x hx
    obtain ⟨⟨k, rfl⟩, -⟩ := h.aligned p hp
    rw [decide_eq_false, Bool.not_false, Bool.and_true]
    intro hin
    refine hx ⟨?_, ?_⟩
    all_goals
      simp only [pageSize] at *
      omega
  have hspan : (s.slab p).npages * pageSize ≤ (kind p).span ∧ 1 * pageSize ≤ (kind p).span := by
    have hok := h.ok p hp
    revert hok
    cases kind p with
    | small i fl =>
      intro hok
      rw [show (s.slab p).npages = 1 from congrArg Slab.npages hok.read_eq.1]
      exact ⟨Nat.le_of_eq (Nat.one_mul _), Nat.le_of_eq (Nat.one_mul _)⟩
    | big n =>
      rintro ⟨hn, next, size, hread⟩
      rw [show (s.slab p).npages = n % 2 ^ 32 from congrArg Slab.npages hread]
      exact ⟨Nat.mul_le_mul_right _ (Nat.mod_le n _), Nat.mul_le_mul_right _ hn⟩
  unfold Kheap.slabDestroy
  dsimp only
  split
  · exact ⟨rfl, rfl, rfl, rfl, hrelease _ hspan.1⟩
  · exact ⟨rfl, rfl, rfl, rfl, hrelease _ hspan.2⟩

/-- A slab in no list is destroyed, and its last block with it. -/
theorem Core.destroyed (h : s.Core kind) (hl : s.Listed kind l) (hp : p ∈ s.slabs) (hnot : ∀ j, p ∉ l j)
    (havail : ∀ j, ∀ q ∈ s.slabs, q ≠ p → ∀ fl, kind q = .small j fl → (q ∈ l j ↔ fl ≠ []))
    (hslabs : s'.slabs = (s.slabDestroy p).slabs) (hmem : s'.mem = (s.slabDestroy p).mem)
    (hcaches : s'.caches = (s.slabDestroy p).caches) (hheld : s'.held = (s.slabDestroy p).held)
    (hnodup : s'.live.Nodup) (hlive : ∀ b, b ∈ s'.live ↔ b ∈ s.live ∧ ¬ (kind p).Owns p b) :
    s'.Laid kind l ∧ s'.slabs.length ≤ s.slabs.length ∧ s'.mem = s.mem := by
  obtain ⟨hslabs', hmem', hcaches', -, hheld'⟩ := h.slabDestroy hp
  rw [hslabs'] at hslabs
  rw [hmem'] at hmem
  rw [hcaches'] at hcaches
  refine ⟨⟨h.destroy hslabs hmem hp (fun x hx => ?_) hnodup hlive,
    hl.destroy hslabs hmem hcaches hnot, fun j q hq fl hkind => ?_⟩, ?_, hmem⟩
  · rw [hheld]
    exact hheld' x hx
  · rw [hslabs, h.nodup.mem_erase_iff] at hq
    exact havail j q hq.2 hq.1 fl hkind
  · rw [hslabs]
    exact length_erase_le

/-- An object of a caller goes back on the free list. -/
theorem Core.pushObject {o : Nat} (h : s.Core kind) (hl : s.Listed kind l) (hp : p ∈ s.slabs)
    (hkind : kind p = .small i fl) (hb : b ∈ s.live) (howns : (kind p).Owns p b) (ho : b.ptr = o)
    (hs' : s' = (s.modMem (pushObject · p o)).dropBlock o) :
    s'.Core (update kind p (.small i (o :: fl))) ∧ s'.Listed (update kind p (.small i (o :: fl))) l ∧
      ∀ c ∈ s'.live, Same s s' c := by
  have hok := h.ok p hp
  have hpage := h.page_le hp
  have hspan := (h.aligned p hp).2.2
  rw [hkind] at hok hspan howns
  obtain ⟨hobj, hnot, hsize⟩ := howns
  rw [ho] at hobj hnot
  have h16 := (cacheSize_spec i).2.1
  obtain ⟨hok', hsame⟩ := hok.pushObject hobj hnot (by omega) hspan
  have hin : ∀ x, o ≤ x ∧ x < o + 8 → InSlab kind p x ∧ p + 8 ≤ x := by
    intro x hx
    have hbounds := hobj.bounds
    unfold InSlab
    rw [hkind]
    simp only [SlabKind.span, Slab.sizeof] at *
    omega
  have hlive : ∀ c, c ∈ s'.live ↔ c ∈ s.live ∧ c.ptr ≠ o := by
    intro c
    rw [hs']
    exact (mem_filter).trans (by rw [decide_eq_true_iff]; exact Iff.rfl)
  have hmem : ∀ x, ¬ InFreeHeader p x → ¬ (o ≤ x ∧ x < o + 8) → s'.mem x = s.mem x := by
    rwa [hs']
  have hheader : ∀ q ∈ s.slabs, ∀ x, q + 20 ≤ x → x < q + 22 → InSlab kind q x :=
    fun q hq x hlo hhi => h.inSlab_header hq (by omega) (by unfold Slab.sizeof; omega)
  refine ⟨h.change hp (by rw [hs']; rfl) (by rw [hs']; rfl) (fun x hx => hmem x (fun hc => ?_) fun hc => ?_)
    (by rw [hs']; exact hok') (by rw [hkind]; rfl) (by rw [hs']; exact h.live_nodup.filter _) fun c => ?_,
    hl.change h hp (by rw [hs']; rfl) (by rw [hs']; rfl)
      (fun x hx => hmem x (fun hc => ?_) fun hc => ?_) fun j fl' hfl' => ?_, fun c hc => ?_⟩
  · exact hx (inSlab_of_inFreeHeader hc hkind).1
  · exact hx (hin x hc).1
  · rw [hlive, hkind]
    constructor
    · rintro ⟨hc, hptr⟩
      by_cases hcowns : (SlabKind.small i fl).Owns p c
      · exact .inl ⟨hcowns.1, fun hcmem => (mem_cons.mp hcmem).elim hptr hcowns.2.1, hcowns.2.2⟩
      · exact .inr ⟨hc, hcowns⟩
    rintro (⟨hcobj, hcnot, hcsize⟩ | ⟨hc, hcowns⟩)
    · rw [mem_cons, not_or] at hcnot
      refine ⟨(h.live_iff c).mpr ⟨p, hp, ?_⟩, hcnot.1⟩
      rw [hkind]
      exact ⟨hcobj, hcnot.2, hcsize⟩
    · refine ⟨hc, fun hptr => hcowns ?_⟩
      rw [h.eq_of_ptr hb hc (hptr.trans ho.symm)]
      exact ⟨ho ▸ hobj, ho ▸ hnot, hsize⟩
  · exact hx (inSlab_of_inFreeHeader hc hkind)
  · exact hx (hin x hc)
  · rw [hkind] at hfl'
    exact ⟨o :: fl, by rw [(SlabKind.small.inj hfl').1]⟩
  · obtain ⟨hc, hptr⟩ := (hlive c).mp hc
    obtain ⟨q, hq, hqowns⟩ := (h.live_iff c).mp hc
    refine h.same hq hqowns (fun x hlo hhi => hmem x (fun hx => ?_) fun hx => ?_) fun x hlo hhi =>
      hmem x (fun hx => ?_) fun hx => ?_
    · refine h.not_governs_of_live hc hlo hhi p hp (.inl ?_)
      unfold InFreeHeader at hx
      unfold Slab.sizeof
      omega
    · rcases h.live_apart hc hb (by rintro rfl; exact hptr ho) with hap | hap <;> omega
    · obtain rfl := h.eq_of_inSlab hp hq (inSlab_of_inFreeHeader hx hkind).1 (hheader q hq x hlo hhi)
      unfold InFreeHeader at hx
      omega
    · obtain rfl := h.eq_of_inSlab hp hq (hin x hx).1 (hheader q hq x hlo hhi)
      have hbounds := hobj.bounds
      unfold Slab.sizeof at hbounds
      omega

/-- A full slab goes back to the list of its class before an object is put on its free list. -/
theorem Laid.relist (h : s.Laid kind l) (hp : p ∈ s.slabs) (hkind : kind p = .small i fl)
    (hfew : s.slabs.length < 2 ^ 32) (hs' : s' = if (s.slab p).freeCount = 0 then s.cacheAddSlab i p else s) :
    ∃ l', s'.Core kind ∧ s'.Listed kind l' ∧ p ∈ l' i ∧ (∀ j q, q ≠ p → (q ∈ l' j ↔ q ∈ l j)) ∧
      s'.slabs = s.slabs ∧ s'.live = s.live ∧ ∀ c ∈ s.live, Same s s' c := by
  have hok := h.core.ok p hp
  rw [hkind] at hok
  have hcount : (s.slab p).freeCount = fl.length := congrArg Slab.freeCount hok.read_eq.1
  have havail := h.available i p hp fl hkind
  rw [hs', hcount]
  cases fl with
  | nil =>
    have hnot : p ∉ l i := fun hmem => havail.mp hmem rfl
    obtain ⟨hcore, hlisted⟩ := h.core.cacheAddSlab h.listed hp hkind hnot hfew
    rw [if_pos (show ([] : List Nat).length = 0 from rfl)]
    refine ⟨_, hcore, hlisted, ?_, fun j q hqp => ?_, rfl, rfl, fun c hc => ?_⟩
    · rw [update_self]
      exact mem_cons_self
    · by_cases hj : j = i
      · subst hj
        rw [update_self, mem_cons, or_iff_right hqp]
      · rw [update_of_ne hj]
    · exact h.core.same_of_sameOffLinks (sameOffLinks_setNext hp (s.caches i).slabs) hc
  | cons o fl =>
    rw [if_neg (show ¬ (o :: fl).length = 0 from Nat.succ_ne_zero _)]
    exact ⟨l, h.core, h.listed, havail.mpr (cons_ne_nil o fl), fun _ _ _ => Iff.rfl, rfl, rfl,
      fun c _ => ⟨fun _ _ _ => rfl, rfl⟩⟩

/-- When as many objects are free as there are, all are. -/
theorem SlabOk.not_owns_of_full (h : SlabOk mem p (.small i fl)) (hfull : fl.length = objectCount i) :
    ¬ (SlabKind.small i fl).Owns p b := by
  rintro ⟨⟨k, hk, hptr⟩, hnot, -⟩
  have hsub : ∀ o ∈ fl, o ∈ (List.range (objectCount i)).map (object p i) := by
    intro o ho
    obtain ⟨k, hk, rfl⟩ := h.2.2 o ho
    exact mem_map.mpr ⟨k, mem_range.mpr hk, rfl⟩
  have hperm := (subperm_of_subset h.2.1 hsub).perm_of_length_le
    (by rw [length_map, length_range, hfull])
  exact hnot (hperm.mem_iff.mpr (mem_map.mpr ⟨k, mem_range.mpr hk, hptr.symm⟩))

theorem Laid.freeObject (h : s.Laid kind l) (hp : p ∈ s.slabs) (hkind : kind p = .small i fl)
    (hb : b ∈ s.live) (howns : (kind p).Owns p b) (hfew : s.slabs.length < 2 ^ 32) :
    ∃ s', s.freeObject i p b.ptr = some s' ∧ Freed s s' b.ptr := by
  unfold Kheap.freeObject
  dsimp only
  generalize hs1 : (if (s.slab p).freeCount = 0 then s.cacheAddSlab i p else s) = s1
  obtain ⟨l1, hcore1, hlisted1, hmem1, hother1, hslabs1, hlive1, hsame1⟩ :=
    h.relist hp hkind hfew hs1.symm
  have hp1 : p ∈ s1.slabs := by rwa [hslabs1]
  have hb1 : b ∈ s1.live := by rwa [hlive1]
  generalize hs2 : (s1.modMem (Kheap.pushObject · p b.ptr)).dropBlock b.ptr = s2
  obtain ⟨hcore2, hlisted2, hsame2⟩ := hcore1.pushObject hlisted1 hp1 hkind hb1 howns rfl hs2.symm
  have hslabs2 : s2.slabs = s.slabs := by rw [← hs2, ← hslabs1]; rfl
  have hlive2 : s2.live = s.live.filter (·.ptr ≠ b.ptr) := by rw [← hs2, ← hlive1]; rfl
  have hp2 : p ∈ s2.slabs := by rwa [hslabs2]
  have hsame : ∀ c ∈ s2.live, Same s s2 c := by
    intro c hc
    have hc' := hc
    rw [hlive2] at hc'
    exact (hsame1 c (mem_filter.mp hc').1).trans (hsame2 c hc)
  -- every other slab is in its list as before
  have havail : ∀ j, ∀ q ∈ s2.slabs, q ≠ p → ∀ fl',
      update kind p (.small i (b.ptr :: fl)) q = .small j fl' → (q ∈ l1 j ↔ fl' ≠ []) := by
    intro j q hq hqp fl' hfl'
    rw [update_of_ne hqp] at hfl'
    rw [hother1 j q hqp]
    exact h.available j q (hslabs2 ▸ hq) fl' hfl'
  split
  · case _ hfull =>
    obtain ⟨s3, hremove, hcore3, hlisted3, hslabs3, hlive3, hsame3⟩ :=
      hcore2.cacheRemoveSlab hlisted2 hmem1 (by rw [hslabs2]; exact hfew)
    have hp3 : p ∈ s3.slabs := by rwa [hslabs3]
    have hok := hcore2.ok p hp2
    rw [update_self] at hok
    have hread := hok.read_eq.1
    have hlen : (b.ptr :: fl).length = objectCount i := by
      have := hfull.1
      unfold Kheap.slab at this
      rwa [hread] at this
    have hnone : ∀ c, ¬ (update kind p (.small i (b.ptr :: fl)) p).Owns p c := by
      intro c
      rw [update_self]
      exact SlabOk.not_owns_of_full hok hlen
    obtain ⟨-, -, -, hlive4, -⟩ := hcore3.slabDestroy hp3
    have hnotin : ∀ j, p ∉ update l1 i ((l1 i).erase p) j := by
      intro j
      by_cases hj : j = i
      · subst hj
        rw [update_self]
        exact (hlisted2.nodup j).not_mem_erase
      · rw [update_of_ne hj]
        exact fun hmem => hj (hlisted2.class_eq (update_self ..) hmem)
    have havail3 : ∀ j, ∀ q ∈ s3.slabs, q ≠ p → ∀ fl',
        update kind p (.small i (b.ptr :: fl)) q = .small j fl' →
          (q ∈ update l1 i ((l1 i).erase p) j ↔ fl' ≠ []) := by
      intro j q hq hqp fl' hfl'
      rw [← havail j q (hslabs3 ▸ hq) hqp fl' hfl']
      by_cases hj : j = i
      · subst hj
        rw [update_self, mem_erase_of_ne hqp]
      · rw [update_of_ne hj]
    obtain ⟨hlaid, hlen', hmem'⟩ := hcore3.destroyed hlisted3 hp3 hnotin havail3 rfl rfl rfl rfl
      (by rw [hlive4]; exact hcore3.live_nodup)
      fun c => by rw [hlive4]; exact (and_iff_left (hnone c)).symm
    refine ⟨s3.slabDestroy p, by rw [hremove]; rfl, ⟨_, _, hlaid⟩, .inr ?_, ?_, fun c hc => ?_⟩
    · rw [hlive4, hlive3, hlive2]
    · rw [hslabs3, hslabs2] at hlen'
      exact hlen'
    · rw [hlive4, hlive3] at hc
      refine (hsame c hc).trans ((hcore2.same_of_sameOffLinks hsame3 hc).trans ?_)
      refine ⟨fun x _ _ => by rw [hmem'], ?_⟩
      unfold Kheap.slab
      rw [hmem']
  · refine ⟨s2, rfl, ⟨_, l1, hcore2, hlisted2, fun j q hq fl' hfl' => ?_⟩, .inr hlive2,
      Nat.le_of_eq (by rw [hslabs2]), hsame⟩
    by_cases hqp : q = p
    · rw [hqp, update_self] at hfl'
      obtain ⟨rfl, rfl⟩ := SlabKind.small.inj hfl'
      rw [hqp]
      exact iff_of_true hmem1 (cons_ne_nil _ _)
    · exact havail j q hq hqp fl' hfl'


/-- The only block of a slab in no list goes with the slab. -/
theorem Laid.freeOnly (h : s.Laid kind l) (hp : p ∈ s.slabs) (hnot : ∀ j, p ∉ l j) (hb : b ∈ s.live)
    (howns : (kind p).Owns p b) (honly : ∀ c, (kind p).Owns p c → c.ptr = b.ptr) :
    Freed s ((s.slabDestroy p).dropBlock b.ptr) b.ptr := by
  obtain ⟨-, -, -, hlive, -⟩ := h.core.slabDestroy hp
  -- giving up a block is a matter of its owner
  have hslabs : ((s.slabDestroy p).dropBlock b.ptr).slabs = (s.slabDestroy p).slabs := rfl
  have hdrop : ((s.slabDestroy p).dropBlock b.ptr).live = s.live.filter (·.ptr ≠ b.ptr) := by
    rw [dropBlock, hlive]
  obtain ⟨hlaid, hlen, hmem⟩ := h.core.destroyed h.listed hp hnot
    (fun j q hq _ fl hfl => h.available j q hq fl hfl) hslabs rfl rfl rfl
    (by rw [hdrop]; exact h.core.live_nodup.filter _) fun c => by
      rw [hdrop, mem_filter, decide_eq_true_iff]
      refine and_congr_right fun hc => not_congr ⟨fun hptr => ?_, honly c⟩
      rwa [h.core.eq_of_ptr hb hc hptr]
  refine ⟨⟨kind, l, hlaid⟩, .inr hdrop, hlen, fun c _ => ⟨fun x _ _ => by rw [hmem], ?_⟩⟩
  unfold Kheap.slab
  rw [hmem]

/-- A slab with one object has no free object while a caller owns it. -/
theorem SlabOk.free_eq_nil (h : SlabOk mem p (.small i fl)) (hone : objectCount i = 1)
    (hb : (SlabKind.small i fl).Owns p b) : fl = [] := by
  obtain ⟨⟨k, hk, hptr⟩, hnot, -⟩ := hb
  cases fl with
  | nil => rfl
  | cons o fl =>
    obtain ⟨k', hk', ho⟩ := h.2.2 o mem_cons_self
    obtain rfl : k = k' := by omega
    rw [hptr, ← ho] at hnot
    exact absurd mem_cons_self hnot

theorem Laid.kfree (h : s.Laid kind l) (hb : b ∈ s.live) (hfew : s.slabs.length < 2 ^ 32) :
    ∃ s', s.kfree b.ptr = some s' ∧ Freed s s' b.ptr := by
  obtain ⟨p, hp, howns⟩ := (h.core.live_iff b).mp hb
  have hok := h.core.ok p hp
  obtain ⟨-, hpos, hlt⟩ := h.core.aligned p hp
  obtain ⟨hmin, hmax, hsize, -⟩ := hok.owns_spec howns
  have hptr : b.ptr ≠ 0 := by omega
  have hrefused : Freed s s b.ptr :=
    ⟨⟨kind, l, h⟩, .inl rfl, Nat.le_refl _, fun c _ => ⟨fun _ _ _ => rfl, rfl⟩⟩
  unfold Kheap.kfree
  dsimp only
  rw [if_neg hptr, h.core.pageBase_eq hp howns]
  cases hkind : kind p with
  | big n =>
    rw [hkind] at hok howns
    obtain ⟨hn, next, size, hread⟩ := hok
    have hslab : s.slab p = ⟨next, 0, slabMagic, size, 1, 0, bigCacheIndex, n % 2 ^ 32⟩ := hread
    rw [hslab]
    dsimp only
    rw [if_neg (fun hc => hc rfl)]
    split
    · exact ⟨s, rfl, hrefused⟩
    rw [if_pos (.inl rfl)]
    refine ⟨_, rfl, h.freeOnly hp (fun j hmem => ?_) hb (by rw [hkind]; exact howns) fun c hc => ?_⟩
    · obtain ⟨-, fl, hfl⟩ := h.listed.small j p hmem
      rw [hkind] at hfl
      cases hfl
    · rw [hkind] at hc
      exact congrArg Block.ptr (Eq.trans (show c = _ from hc) (show b = _ from howns).symm)
  | small i fl =>
  rw [hkind] at hok hmax hlt
  have howns' := howns
  rw [hkind] at howns'
  have hslab : s.slab p = ⟨(s.slab p).next, (s.slab p).freeList, slabMagic, cacheSize i, objectCount i,
    fl.length, i, 1⟩ := hok.read_eq.1
  have hinside : ¬ (p + 1 * pageSize) % 2 ^ 64 ≤ b.ptr := by
    simp only [SlabKind.span] at hmax hlt
    rw [Nat.one_mul, Nat.mod_eq_of_lt hlt]
    omega
  have hindex : (i : Nat) ≠ bigCacheIndex :=
    Nat.ne_of_lt (Nat.lt_of_lt_of_le i.isLt (by decide))
  rw [hslab]
  dsimp only
  rw [if_neg (fun hc => hc rfl), if_neg hinside]
  by_cases hone : objectCount i = 1
  · rw [if_pos (.inr hone)]
    have hnil := SlabOk.free_eq_nil hok hone howns'
    refine ⟨_, rfl, h.freeOnly hp (fun j hmem => ?_) hb howns fun c hc => ?_⟩
    · obtain rfl := h.listed.class_eq hkind hmem
      exact (h.available j p hp fl hkind).mp hmem hnil
    · rw [hkind] at hc
      obtain ⟨⟨k, hk, hcptr⟩, -⟩ := hc
      obtain ⟨⟨k', hk', hbptr⟩, -⟩ := howns'
      obtain rfl : k = k' := by omega
      rw [hcptr, hbptr]
  · rw [if_neg (not_or.mpr ⟨hindex, hone⟩), dif_pos i.isLt]
    exact h.freeObject hp hkind hb howns hfew

/-! ## krealloc -/

/-- What `krealloc` of the block `b` does, if it finds a new one: the bytes that the old header counts
are copied, as far as they are the old block's, the rest of a block of pages is clear, and the other
blocks are the same. -/
structure Moved (s s' : Kheap) (size : Nat) (b b' : Block) : Prop where
  laid : s'.Sound
  ptr_pos : 0 < b'.ptr
  live : b' ∈ s'.live
  slabs_le : s'.slabs.length ≤ s.slabs.length + 1
  room : size ≤ b'.size ∧ min size 0xFFFF ≤ (s'.slab (pageBase b'.ptr)).objectSize ∧
    (s'.slab (pageBase b'.ptr)).objectSize ≤ b'.size
  copied : (s.slab (pageBase b.ptr)).objectSize ≤ b.size →
    ∀ k < (s.slab (pageBase b.ptr)).objectSize, s'.mem (b'.ptr + k) = s.mem (b.ptr + k)
  cleared : 2048 < size → ∀ k, (s.slab (pageBase b.ptr)).objectSize ≤ k → k < b'.size →
    s'.mem (b'.ptr + k) = 0
  others : ∀ c ∈ s.live, c ≠ b → c ∈ s'.live ∧ Same s s' c

/-- A block that grows is copied and freed. -/
theorem Allocated.move {s1 : Kheap} {size : Nat} {b' : Block} (h : Allocated s s1 size b')
    (hb : b ∈ s.live) (hsize : size + 63 < 2 ^ 64) (hfew : s.slabs.length + 1 < 2 ^ 32)
    (hgrow : (s.slab (pageBase b.ptr)).objectSize < size)
    (hclear : 2048 < size → ∀ k < b'.size, s1.mem (b'.ptr + k) = 0) :
    ∃ s', (s1.modMem (·.copy b'.ptr b.ptr (s.slab (pageBase b.ptr)).objectSize)).kfree b.ptr = some s' ∧
      Moved s s' size b b' := by
  obtain ⟨kind, l, hlaid⟩ := h.laid
  have hlive := h.live
  have hroom := h.room hsize
  have hb1 : b ∈ s1.live := by rw [hlive]; exact mem_cons_of_mem b' hb
  have hb' : b' ∈ s1.live := by rw [hlive]; exact mem_cons_self
  have hlt := hlaid.core.live_lt hb'
  have hne : b ≠ b' := hlaid.ne_of_live hlive b hb
  have hptr : b'.ptr ≠ b.ptr := fun hc => hne (hlaid.core.eq_of_ptr hb1 hb' hc).symm
  have hcopy := h.write (f := (·.copy b'.ptr b.ptr (s.slab (pageBase b.ptr)).objectSize)) fun x hx =>
    ByteMemory.copy_of_out (by omega) (by omega)
  obtain ⟨kind2, l2, hlaid2⟩ := hcopy.laid
  have hlen := hcopy.slabs_le
  have hroom2 := hcopy.room hsize
  obtain ⟨s', hfree, hfreed⟩ := hlaid2.kfree (b := b) hb1 (by omega)
  have hkept : ∀ c ∈ s1.live, c.ptr ≠ b.ptr → c ∈ s'.live := by
    intro c hc hne
    rcases hfreed.live with heq | heq
    · rwa [heq]
    · rw [heq]
      exact mem_filter.mpr ⟨hc, decide_eq_true hne⟩
  have hstays : b' ∈ s'.live := hkept b' hb' hptr
  have hsame := hfreed.same b' hstays
  refine ⟨s', hfree, hfreed.laid, h.ptr_pos, hstays, Nat.le_trans hfreed.slabs_le hlen, ?_,
    fun hold k hk => ?_, fun hbig k hlo hhi => ?_, fun c hc hcb => ?_⟩
  · rwa [hsame.2]
  · rw [hsame.1 (b'.ptr + k) (by omega) (by omega)]
    have hap := hlaid.core.live_apart hb1 hb' hne
    have hlt' := hlaid.core.live_lt hb1
    have hbytes : (s1.mem.copy b'.ptr b.ptr (s.slab (pageBase b.ptr)).objectSize) (b'.ptr + k) =
        s1.mem (b.ptr + k) := by
      rw [ByteMemory.copy_apply (by omega) (by omega) (by omega), if_pos (by omega), Nat.add_sub_cancel_left]
    exact hbytes.trans ((h.same b hb).1 (b.ptr + k) (by omega) (by omega))
  · rw [hsame.1 (b'.ptr + k) (by omega) (by omega)]
    refine (ByteMemory.copy_of_out (by omega) (by omega)).trans (hclear hbig k hhi)
  · have hc1 : c ∈ s1.live := by rw [hlive]; exact mem_cons_of_mem b' hc
    have hstays' := hkept c hc1 fun hcp => hcb (hlaid.core.eq_of_ptr hb1 hc1 hcp)
    exact ⟨hstays', (hcopy.same c hc).trans (hfreed.same c hstays')⟩

/-- A block of pages is clear. -/
theorem Laid.kmalloc_cleared {s1 : Kheap} {size : Nat} {b' : Block} (h : s.Laid kind l)
    (hbig : 2048 < size) (hsize : size + 63 < 2 ^ 64) (heq : s.kmalloc size = some (b'.ptr, s1))
    (hpos : 0 < b'.ptr) (hlive : s1.live = b' :: s.live) : ∀ k < b'.size, s1.mem (b'.ptr + k) = 0 := by
  have hclass : cacheForSize (alignUpTo kheapAlign size) = none := by
    cases hclass : cacheForSize (alignUpTo kheapAlign size) with
    | none => rfl
    | some i =>
      have hle := cacheForSize_le hclass
      have hround := le_alignUpTo hsize
      have hmax : ∀ i, cacheSize i ≤ 2048 := by decide
      have := hmax i
      omega
  have hcall : s.kmalloc size = some (s.kmallocBig (alignUpTo kheapAlign size)) := by
    rw [Kheap.kmalloc, if_neg (by omega)]
    dsimp only
    rw [hclass]
  rw [hcall] at heq
  rcases h.kmallocBig (alignUpTo kheapAlign size) with ⟨r, hr⟩ |
    ⟨o, n, s', kind', l', hr, -, -, -, -, hlive', -, -, hzero, -⟩
  · rw [hr] at heq
    have := congrArg Prod.fst (some.inj heq)
    dsimp only at this
    omega
  · rw [hr] at heq
    obtain ⟨rfl, rfl⟩ := Prod.mk.inj (some.inj heq)
    rw [hlive'] at hlive
    have hb' := (List.cons.inj hlive).1
    intro k hk
    rw [← hb'] at hk ⊢
    exact hzero _ (Nat.le_add_right _ _) (Nat.add_lt_add_left hk _)

/-- `krealloc` of a block of the heap passes the checks. -/
theorem Laid.krealloc_eq (h : s.Laid kind l) (hb : b ∈ s.live) {size : Nat} (hpos : 0 < size) :
    s.krealloc b.ptr size = if size ≤ (s.slab (pageBase b.ptr)).objectSize then some (b.ptr, s)
      else (s.kmalloc size).bind fun r => if r.1 = 0 then some (0, r.2)
        else ((r.2.modMem (·.copy r.1 b.ptr (s.slab (pageBase b.ptr)).objectSize)).kfree b.ptr).map
          (r.1, ·) := by
  obtain ⟨p, hp, howns⟩ := (h.core.live_iff b).mp hb
  have hptr : b.ptr ≠ 0 := by
    have hmin := ((h.core.ok p hp).owns_spec howns).1
    have hpage := h.core.page_le hp
    omega
  have hmagic : (s.slab (pageBase b.ptr)).magic = slabMagic := by
    rw [h.core.pageBase_eq hp howns]
    have hok := h.core.ok p hp
    revert hok
    cases kind p with
    | small i fl => exact fun hok => congrArg Slab.magic hok.read_eq.1
    | big n =>
      rintro ⟨-, next, size', hread⟩
      exact congrArg Slab.magic hread
  unfold Kheap.krealloc
  dsimp only
  rw [if_neg hptr, if_neg (Nat.ne_of_gt hpos), if_neg (fun hc => hc hmagic)]
  rfl

theorem Laid.krealloc (h : s.Laid kind l) (hb : b ∈ s.live) {size : Nat} (hpos : 0 < size)
    (hsize : size + 63 < 2 ^ 64) (hfew : s.slabs.length + 1 < 2 ^ 32) :
    (size ≤ (s.slab (pageBase b.ptr)).objectSize ∧ s.krealloc b.ptr size = some (b.ptr, s)) ∨
      (s.slab (pageBase b.ptr)).objectSize < size ∧
        ((∃ r, s.krealloc b.ptr size = some (0, { s with replies := r })) ∨
          ∃ b' s', s.krealloc b.ptr size = some (b'.ptr, s') ∧ Moved s s' size b b') := by
  rw [h.krealloc_eq hb hpos]
  by_cases hgrow : size ≤ (s.slab (pageBase b.ptr)).objectSize
  · exact .inl ⟨hgrow, if_pos hgrow⟩
  rw [if_neg hgrow]
  refine .inr ⟨Nat.lt_of_not_le hgrow, ?_⟩
  rcases h.kmalloc hfew size with ⟨r, heq⟩ | ⟨b', s1, heq, halloc⟩
  · exact .inl ⟨r, by rw [heq]; rfl⟩
  · obtain ⟨s', hfree, hmoved⟩ := halloc.move hb hsize hfew (Nat.lt_of_not_le hgrow) fun hbig =>
      h.kmalloc_cleared hbig hsize heq halloc.ptr_pos halloc.live
    refine .inr ⟨b', s', ?_, hmoved⟩
    rw [heq, bind_some, if_neg (Nat.ne_of_gt halloc.ptr_pos), hfree]
    rfl

end Lapis.Mm.Kheap
