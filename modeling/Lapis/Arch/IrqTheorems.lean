/-
Lapis.Arch.IrqTheorems — which requested interrupts arrive.

`Active` says of a descriptor that it is in use, enabled, of the IOAPIC domain, and that its line
resolves to a pin; `Deliverable` says that the redirection entry of this pin is unmasked, holds the
vector of the descriptor and names a CPU on which the vector leads to the handler of the descriptor.

A call writes at most one redirection entry (`Rewrites`), so an active descriptor stays deliverable
as long as no call touches its pin for another descriptor. That is what `callerOk` asks: nothing in
`irq.c` keeps two descriptors off one pin, and the last call for any of them decides the entry.
`callerOk` also keeps IOAPIC lines off vector 0x80, which `vector_alloc` gives out although the
interrupt table sends it to the system call entry, and asks that a line is enabled on the CPU that
requested it, whose table alone has the handler. `active_irqs_deliverable` is the result on runs.
-/
import Lapis.Arch.Irq
import Lapis.Lib.Run

namespace Lapis.Arch

open Function List Option

/-! ## Words -/

theorem split_word (x : UInt64) : x.toUInt16.toUInt64 ||| (x >>> 16).toUInt16.toUInt64 <<< 16
      ||| (x >>> 32).toUInt32.toUInt64 <<< 32 = x := by
  apply UInt64.toBitVec_inj.mp
  simp only [UInt64.toBitVec_or, UInt16.toBitVec_toUInt64, UInt64.toBitVec_toUInt16,
    UInt64.toBitVec_shiftLeft, UInt64.toBitVec_shiftRight, UInt32.toBitVec_toUInt64,
    UInt64.toBitVec_toUInt32]
  apply BitVec.eq_of_getLsbD_eq
  intro i hi
  have h16 : (UInt64.toBitVec 16 % 64#64).toNat = 16 := by decide
  have h32 : (UInt64.toBitVec 32 % 64#64).toNat = 32 := by decide
  simp only [BitVec.getLsbD_or, BitVec.getLsbD_setWidth, BitVec.shiftLeft_eq',
    BitVec.getLsbD_shiftLeft, BitVec.ushiftRight_eq', BitVec.getLsbD_ushiftRight]
  grind

theorem low_byte_id (x : UInt32) (v : UInt8) : (x.toUInt64 <<< 32 ||| v.toUInt64).toUInt8 = v := by
  apply UInt8.toBitVec_inj.mp
  simp only [UInt64.toBitVec_toUInt8, UInt64.toBitVec_or, UInt64.toBitVec_shiftLeft,
    UInt32.toBitVec_toUInt64, UInt8.toBitVec_toUInt64]
  apply BitVec.eq_of_getLsbD_eq
  intro i hi
  have h32 : (UInt64.toBitVec 32 % 64#64).toNat = 32 := by decide
  simp only [BitVec.getLsbD_or, BitVec.getLsbD_setWidth, BitVec.shiftLeft_eq', BitVec.getLsbD_shiftLeft]
  grind

theorem high_byte (v : UInt8) : ((v.toUInt32 <<< 24) >>> 24).toUInt8 = v := by
  rcases v with ⟨⟨n, hn⟩⟩
  revert n
  decide +kernel

variable {v : UInt8}

/-- The interrupt table leads every vector but 0x80 to its own stub. -/
theorem Platform.idt_target {Cpu : Type} (p : Platform Cpu) (hv : v ≠ 0x80) :
    (p.idt v).target = p.isrTable v := by
  unfold Platform.idt idtSetup IdtEntry.target
  rw [if_neg hv]
  exact split_word _

variable {Cpu H : Type}

namespace IrqState

section Words

/-- An enabled pin is not masked and has the vector it was given. -/
theorem redirLow_spec (v : UInt8) (flags : UInt16) :
    redirLow v flags &&& ioapicRedirMask = 0 ∧ redirLow v flags &&& 0xFF = v.toUInt32 := by
  have hwords : ∀ a b : Bool, let low := v.toUInt32 ||| (if a then ioapicRedirPolarity else 0)
      ||| (if b then ioapicRedirTrigger else 0)
      low &&& ioapicRedirMask = 0 ∧ low &&& 0xFF = v.toUInt32 := by
    rcases v with ⟨⟨n, hn⟩⟩
    revert n
    decide +kernel
  have := hwords (decide (flags &&& 0x3 = 0x3)) (decide (flags &&& 0xC = 0xC))
  simpa only [redirLow, decide_eq_true_eq] using this

end Words

/-! ## Redirection entries -/

/-- The pin a line resolves to: the address of its IOAPIC and the number of the pin there. -/
def pinOf (p : Platform Cpu) (s : IrqState Cpu H) (hwirq : UInt32) : Option (UInt64 × UInt32) :=
  (s.apicIoapicForGsi p (p.apicLookupIso hwirq.toUInt8).1).map fun x => (x.1.physAddr, x.2)

def lowOf (s : IrqState Cpu H) (pin : UInt64 × UInt32) : UInt32 := s.regs pin.1 (redirReg pin.2)

def highOf (s : IrqState Cpu H) (pin : UInt64 × UInt32) : UInt32 :=
  s.regs pin.1 (redirReg pin.2 + 1)

/-- The registers of every pin lie in the register file of its IOAPIC: register numbers have eight
bits and the table starts at 0x10. -/
def Addressable (p : Platform Cpu) (s : IrqState Cpu H) : Prop :=
  ∀ io ∈ p.ioapics, s.maxRedir io ≤ 119

variable {p : Platform Cpu} {s s' : IrqState Cpu H} {hwirq : UInt32} {pin q : UInt64 × UInt32}

theorem pin_le_of_range {base gsi last : UInt32} (hlow : base ≤ gsi) (hhigh : gsi ≤ base + last)
    (hlast : last ≤ 119) : gsi - base ≤ 119 := by
  rw [UInt32.le_iff_toNat_le] at *
  rw [UInt32.toNat_add] at hhigh
  rw [UInt32.toNat_sub_of_le _ _ (UInt32.le_iff_toNat_le.mpr hlow)]
  have h119 : (119 : UInt32).toNat = 119 := rfl
  have hgsi := gsi.toNat_lt
  omega

variable {n : UInt32}

theorem find_pin (h : s.Addressable p) {gsi : UInt32} {io : IoapicEntry}
    (hfind : s.apicIoapicForGsi p gsi = some (io, n)) : io ∈ p.ioapics ∧ n ≤ 119 := by
  unfold apicIoapicForGsi at hfind
  obtain ⟨io', hio, heq⟩ := map_eq_some_iff.mp hfind
  cases heq
  have hmem := List.mem_of_find?_eq_some hio
  have hrange : io.gsiBase ≤ gsi ∧ gsi ≤ io.gsiBase + s.maxRedir io := by
    simpa only [decide_eq_true_eq] using List.find?_some hio
  exact ⟨hmem, pin_le_of_range hrange.1 hrange.2 (h io hmem)⟩

theorem pinOf_le (h : s.Addressable p) (hpin : s.pinOf p hwirq = some pin) : pin.2 ≤ 119 := by
  obtain ⟨⟨io, n⟩, hfind, rfl⟩ := map_eq_some_iff.mp hpin
  exact (find_pin h hfind).2

theorem toNat_redirReg (hn : n ≤ 119) : (redirReg n).toNat = 0x10 + 2 * n.toNat := by
  rw [UInt32.le_iff_toNat_le] at hn
  have h119 : (119 : UInt32).toNat = 119 := rfl
  have hmul : (n * 2).toNat = n.toNat * 2 := by
    rw [UInt32.toNat_mul, show (2 : UInt32).toNat = 2 from rfl]
    omega
  rw [redirReg, UInt8.toNat_add, UInt32.toNat_toUInt8, hmul, show ioapicRegTableBase.toNat = 0x10 from rfl]
  omega

theorem toNat_redirReg_succ (hn : n ≤ 119) : (redirReg n + 1).toNat = 0x11 + 2 * n.toNat := by
  have hle := UInt32.le_iff_toNat_le.mp hn
  have h119 : (119 : UInt32).toNat = 119 := rfl
  rw [UInt8.toNat_add, toNat_redirReg hn, show (1 : UInt8).toNat = 1 from rfl]
  omega

/-- `s'` is `s` with, at most, other contents in the redirection entry of one pin. -/
structure Rewrites (pin : Option (UInt64 × UInt32)) (s s' : IrqState Cpu H) : Prop where
  irqDescs : s'.irqDescs = s.irqDescs
  vectorUsed : s'.vectorUsed = s.vectorUsed
  isr : s'.isr = s.isr
  maxRedir : ∀ io, s'.maxRedir io = s.maxRedir io
  others : ∀ q, q.2 ≤ 119 → some q ≠ pin → s'.lowOf q = s.lowOf q ∧ s'.highOf q = s.highOf q

theorem Rewrites.refl (pin : Option (UInt64 × UInt32)) (s : IrqState Cpu H) : Rewrites pin s s :=
  ⟨rfl, rfl, rfl, fun _ => rfl, fun _ _ _ => ⟨rfl, rfl⟩⟩

theorem Rewrites.trans {pin : Option (UInt64 × UInt32)} {s1 s2 s3 : IrqState Cpu H}
    (h : Rewrites pin s1 s2) (h' : Rewrites pin s2 s3) : Rewrites pin s1 s3 where
  irqDescs := h'.irqDescs.trans h.irqDescs
  vectorUsed := h'.vectorUsed.trans h.vectorUsed
  isr := h'.isr.trans h.isr
  maxRedir io := (h'.maxRedir io).trans (h.maxRedir io)
  others q hq hne := ⟨(h'.others q hq hne).1.trans (h.others q hq hne).1,
    (h'.others q hq hne).2.trans (h.others q hq hne).2⟩

theorem regs_ioapicWrite (s : IrqState Cpu H) (io : IoapicEntry) (r : UInt8) (val : UInt32)
    (a : UInt64) (r' : UInt8) :
    (s.ioapicWrite io r val).regs a r' = if a = io.physAddr ∧ r' = r then val else s.regs a r' := by
  unfold ioapicWrite
  by_cases ha : a = io.physAddr
  · subst ha
    by_cases hr : r' = r
    · subst hr
      rw [if_pos ⟨rfl, rfl⟩]
      simp
    · rw [if_neg fun hc => hr hc.2]
      simp [hr]
  · rw [if_neg fun hc => ha hc.1]
    simp [ha]

theorem toNat_ne {a b : UInt8} (h : a.toNat ≠ b.toNat) : a ≠ b := fun hc => h (hc ▸ rfl)

/-- A write to one of the two registers of a pin. -/
theorem rewrites_ioapicWrite (s : IrqState Cpu H) (io : IoapicEntry) (hn : n ≤ 119)
    {r : UInt8} (hr : r = redirReg n ∨ r = redirReg n + 1) (val : UInt32) :
    Rewrites (some (io.physAddr, n)) s (s.ioapicWrite io r val) := by
  have hrn : r.toNat = 0x10 + 2 * n.toNat ∨ r.toNat = 0x11 + 2 * n.toNat := by
    rcases hr with rfl | rfl
    · exact .inl (toNat_redirReg hn)
    · exact .inr (toNat_redirReg_succ hn)
  refine ⟨rfl, rfl, rfl, fun io' => ?_, fun q hq hne => ?_⟩
  · have hver : ioapicRegVer ≠ r := by
      apply toNat_ne
      rw [show ioapicRegVer.toNat = 1 from rfl]
      omega
    unfold IrqState.maxRedir ioapicRead
    rw [regs_ioapicWrite, if_neg fun hc => hver hc.2]
  · have hpins : q.1 = io.physAddr → q.2.toNat ≠ n.toNat := by
      intro ha hc
      refine hne ?_
      rw [← ha, ← UInt32.toNat_inj.mp hc]
    unfold lowOf highOf
    rw [regs_ioapicWrite, regs_ioapicWrite]
    constructor
    · refine if_neg fun hc => ?_
      have hreg := toNat_redirReg hq
      rw [hc.2] at hreg
      have := hpins hc.1
      omega
    · refine if_neg fun hc => ?_
      have hreg := toNat_redirReg_succ hq
      rw [hc.2] at hreg
      have := hpins hc.1
      omega

theorem ioapicDomainEnable_rewrites (h : s.Addressable p) (c : Cpu) (hwirq : UInt32) (v : UInt8) :
    Rewrites (s.pinOf p hwirq) s (s.ioapicDomainEnable p c hwirq v) := by
  unfold ioapicDomainEnable pinOf
  dsimp only
  cases hfind : s.apicIoapicForGsi p (p.apicLookupIso hwirq.toUInt8).1 with
  | none => exact .refl _ _
  | some x =>
    obtain ⟨io, n⟩ := x
    have hn := (find_pin h hfind).2
    exact (rewrites_ioapicWrite s io hn (.inr rfl) _).trans
      (rewrites_ioapicWrite _ io hn (.inl rfl) _)

theorem ioapicDomainDisable_rewrites (h : s.Addressable p) (hwirq : UInt32) :
    Rewrites (s.pinOf p hwirq) s (s.ioapicDomainDisable p hwirq) := by
  unfold ioapicDomainDisable pinOf
  cases hfind : s.apicIoapicForGsi p (p.apicLookupIso hwirq.toUInt8).1 with
  | none => exact .refl _ _
  | some x =>
    obtain ⟨io, n⟩ := x
    exact rewrites_ioapicWrite s io (find_pin h hfind).2 (.inl rfl) _

/-- The entry of the pin after it was enabled. -/
theorem ioapicDomainEnable_entry (h : s.Addressable p) (c : Cpu) (v : UInt8)
    (hpin : s.pinOf p hwirq = some pin) :
    (s.ioapicDomainEnable p c hwirq v).lowOf pin = redirLow v (p.apicLookupIso hwirq.toUInt8).2 ∧
      (s.ioapicDomainEnable p c hwirq v).highOf pin = (p.lapicId c).toUInt32 <<< 24 := by
  obtain ⟨⟨io, n⟩, hfind, rfl⟩ := map_eq_some_iff.mp hpin
  have hn := (find_pin h hfind).2
  have hregs : redirReg n + 1 ≠ redirReg n := by
    apply toNat_ne
    rw [toNat_redirReg hn, toNat_redirReg_succ hn]
    omega
  unfold ioapicDomainEnable lowOf highOf
  dsimp only
  rw [hfind]
  dsimp only
  rw [regs_ioapicWrite, if_pos ⟨rfl, rfl⟩, regs_ioapicWrite, if_neg fun hc => hregs hc.2,
    regs_ioapicWrite, if_pos ⟨rfl, rfl⟩]
  exact ⟨rfl, rfl⟩

/-! ## Descriptors -/

/-- A descriptor of the IOAPIC domain whose line resolves to a pin. -/
def Routable (p : Platform Cpu) (s : IrqState Cpu H) (v : UInt8) : Prop :=
  (s.irqDescs v).handler ≠ none ∧ (s.irqDescs v).domain = some .ioapic ∧
    (s.irqDescs v).hwirq < 256 ∧ s.pinOf p (s.irqDescs v).hwirq ≠ none

def Active (p : Platform Cpu) (s : IrqState Cpu H) (v : UInt8) : Prop :=
  s.Routable p v ∧ (s.irqDescs v).enabled = true

/-- The redirection entry of the pin is unmasked and holds the vector of the descriptor, and the CPU
it names calls the handler of the descriptor when the vector arrives. -/
def Deliverable (p : Platform Cpu) (s : IrqState Cpu H) (v : UInt8) : Prop :=
  let desc := s.irqDescs v
  ∀ pin, s.pinOf p desc.hwirq = some pin →
    s.lowOf pin &&& ioapicRedirMask = 0 ∧ s.lowOf pin &&& 0xFF = desc.vector.toUInt32 ∧
      ∃ c h, (s.highOf pin >>> 24).toUInt8 = p.lapicId c ∧ desc.handler = some h ∧
        s.interrupt p c desc.vector = some (h, desc.irq, desc.data)

/-- What holds of every vector. -/
structure Good (p : Platform Cpu) (s : IrqState Cpu H) (v : UInt8) : Prop where
  used : (s.irqDescs v).handler ≠ none → s.vectorUsed v ≠ 0
  vector : (s.irqDescs v).handler ≠ none → (s.irqDescs v).vector = v
  domain : (s.irqDescs v).handler = none → (s.irqDescs v).domain = none
  id : ∀ c, (s.isr c v).handler = some .irqDispatch → (s.isr c v).id.toUInt8 = v
  gate : s.Routable p v → v ≠ 0x80
  deliverable : s.Active p v → s.Deliverable p v

structure Inv (p : Platform Cpu) (s : IrqState Cpu H) : Prop where
  addressable : s.Addressable p
  good : ∀ v, s.Good p v

/-- `s'` is `s` but for what belongs to one vector and one pin. -/
structure Touches (v : UInt8) (pin : Option (UInt64 × UInt32)) (s s' : IrqState Cpu H) : Prop where
  irqDescs : ∀ w, w ≠ v → s'.irqDescs w = s.irqDescs w
  vectorUsed : ∀ w, w ≠ v → s'.vectorUsed w = s.vectorUsed w
  isr : ∀ c w, w ≠ v → s'.isr c w = s.isr c w
  maxRedir : ∀ io, s'.maxRedir io = s.maxRedir io
  others : ∀ q, q.2 ≤ 119 → some q ≠ pin → s'.lowOf q = s.lowOf q ∧ s'.highOf q = s.highOf q

variable {opt : Option (UInt64 × UInt32)}

theorem Rewrites.touches (h : Rewrites opt s s') (v : UInt8) : Touches v opt s s' where
  irqDescs w _ := congrFun h.irqDescs w
  vectorUsed w _ := congrFun h.vectorUsed w
  isr c w _ := congrFun (congrFun h.isr c) w
  maxRedir := h.maxRedir
  others := h.others

theorem Touches.trans {s1 s2 s3 : IrqState Cpu H}
    (h : Touches v opt s1 s2) (h' : Touches v opt s2 s3) : Touches v opt s1 s3 where
  irqDescs w hw := (h'.irqDescs w hw).trans (h.irqDescs w hw)
  vectorUsed w hw := (h'.vectorUsed w hw).trans (h.vectorUsed w hw)
  isr c w hw := (h'.isr c w hw).trans (h.isr c w hw)
  maxRedir io := (h'.maxRedir io).trans (h.maxRedir io)
  others q hq hne := ⟨(h'.others q hq hne).1.trans (h.others q hq hne).1,
    (h'.others q hq hne).2.trans (h.others q hq hne).2⟩

theorem Touches.weaken (h : Touches v none s s') (opt : Option (UInt64 × UInt32)) : Touches v opt s s' :=
  ⟨h.irqDescs, h.vectorUsed, h.isr, h.maxRedir, fun q hq _ => h.others q hq (some_ne_none q)⟩

section Frame

variable {v w : UInt8} {opt : Option (UInt64 × UInt32)}

theorem pinOf_congr (h : ∀ io, s'.maxRedir io = s.maxRedir io) (hwirq : UInt32) :
    s'.pinOf p hwirq = s.pinOf p hwirq := by
  unfold pinOf apicIoapicForGsi
  simp only [h]

/-- No other active descriptor has the pin. -/
def Exclusive (p : Platform Cpu) (s : IrqState Cpu H) (v : UInt8) (hwirq : UInt32) : Prop :=
  ∀ w, w ≠ v → s.Active p w → s.pinOf p (s.irqDescs w).hwirq ≠ s.pinOf p hwirq

section

variable (h : Touches v opt s s')

include h

theorem Touches.routable_iff (hw : w ≠ v) : s'.Routable p w ↔ s.Routable p w := by
  unfold Routable
  rw [h.irqDescs w hw, pinOf_congr h.maxRedir]

theorem Touches.active_iff (hw : w ≠ v) : s'.Active p w ↔ s.Active p w := by
  unfold Active
  rw [h.routable_iff hw, h.irqDescs w hw]

/-- What a CPU does with the vector of another descriptor. -/
theorem Touches.interrupt_eq (hw : w ≠ v) (hid : ∀ c,
    (s.isr c w).handler = some .irqDispatch → (s.isr c w).id.toUInt8 = w) (c : Cpu) :
    s'.interrupt p c w = s.interrupt p c w := by
  unfold interrupt
  rw [h.isr c w hw]
  cases hh : (s.isr c w).handler with
  | none => rfl
  | some f =>
    cases f with
    | other _ => rfl
    | irqDispatch => rw [irqDispatch, irqDispatch, hid c hh, h.irqDescs w hw]

theorem Touches.good (haddr : s.Addressable p) (hw : w ≠ v)
    (hpin : s.Active p w → s.pinOf p (s.irqDescs w).hwirq ≠ opt) (hg : s.Good p w) :
    s'.Good p w where
  used := by rw [h.irqDescs w hw, h.vectorUsed w hw]; exact hg.used
  vector := by rw [h.irqDescs w hw]; exact hg.vector
  domain := by rw [h.irqDescs w hw]; exact hg.domain
  id c := by rw [h.isr c w hw]; exact hg.id c
  gate := by rw [h.routable_iff hw]; exact hg.gate
  deliverable := by
    rw [h.active_iff hw]
    intro hactive pin hp
    rw [pinOf_congr h.maxRedir, h.irqDescs w hw] at hp
    have hne : some pin ≠ opt := hp ▸ hpin hactive
    have hvec := hg.vector hactive.1.1
    obtain ⟨hlow, hhigh⟩ := h.others pin (pinOf_le haddr hp) hne
    obtain ⟨hmask, hvector, c, f, hdest, hf, hint⟩ := hg.deliverable hactive pin hp
    rw [hlow, hhigh, h.irqDescs w hw]
    refine ⟨hmask, hvector, c, f, hdest, hf, ?_⟩
    rw [hvec] at hint ⊢
    rwa [h.interrupt_eq hw hg.id]

theorem Touches.inv (hinv : s.Inv p) (hpin : ∀ w, w ≠ v → s.Active p w → s.pinOf p (s.irqDescs w).hwirq ≠ opt)
    (hv : s'.Good p v) : s'.Inv p := by
  refine ⟨fun io hio => (h.maxRedir io).symm ▸ hinv.addressable io hio, fun w => ?_⟩
  by_cases hw : w = v
  · exact hw ▸ hv
  · exact h.good hinv.addressable hw (hpin w hw) (hinv.good w)

end

end Frame

/-! ## Vectors -/

theorem vectors_sorted : vectors.Pairwise (· < ·) := by
  unfold vectors irqVectorMin irqVectorMax
  rw [pairwise_map]
  refine List.Pairwise.imp_of_mem (fun {a b} _ hb hlt => ?_) pairwise_lt_range'
  have hle := mem_range'_1.mp hb
  rw [UInt8.lt_iff_toNat_lt, UInt8.toNat_ofNat', UInt8.toNat_ofNat']
  omega

variable {t : IrqState Cpu H}

/-- `vector_alloc` gives the first free vector. -/
theorem vectorAlloc_spec (h : s.vectorAlloc = some (v, t)) :
    t = { s with vectorUsed := update s.vectorUsed v 1 } ∧ s.vectorUsed v = 0 ∧
      ∀ w ∈ vectors, w < v → s.vectorUsed w ≠ 0 := by
  unfold vectorAlloc at h
  obtain ⟨v', hfind, heq⟩ := map_eq_some_iff.mp h
  cases heq
  obtain ⟨hfree, as, bs, hsplit, hbefore⟩ := List.find?_eq_some_iff_append.mp hfind
  refine ⟨rfl, of_decide_eq_true hfree, fun w hw hlt => ?_⟩
  have hsorted := vectors_sorted
  rw [hsplit] at hw hsorted
  rcases mem_append.mp hw with has | hrest
  · simpa using hbefore w has
  · have hle : v ≤ w := by
      rcases mem_cons.mp hrest with rfl | hbs
      · exact UInt8.le_refl w
      · exact UInt8.le_of_lt (rel_of_pairwise_cons (pairwise_append.mp hsorted).2.1 hbs)
    exact absurd hlt (UInt8.not_lt.mpr hle)

/-- The next request does not get vector 0x80. -/
def GateFree (s : IrqState Cpu H) : Prop :=
  (∃ w ∈ vectors, w < 0x80 ∧ s.vectorUsed w = 0) ∨ s.vectorUsed 0x80 ≠ 0

theorem vectorAlloc_ne (h : s.vectorAlloc = some (v, t)) (hgate : s.GateFree) : v ≠ 0x80 := by
  rintro rfl
  obtain ⟨-, hfree, hfirst⟩ := vectorAlloc_spec h
  rcases hgate with ⟨w, hw, hlt, hw0⟩ | hused
  · exact hfirst w hw hlt hw0
  · exact hused hfree

/-! ## The calls -/

inductive IrqOp (Cpu H : Type) where
  | request (c : Cpu) (hwirq : UInt32) (handler : Option H) (data : UInt64)
  | requestLocal (c : Cpu) (handler : Option H) (data : UInt64)
  | enable (c : Cpu) (irq : UInt32)
  | disable (irq : UInt32)
  | free (c : Cpu) (irq : UInt32)

section Calls

variable {c : Cpu} {v : UInt8} {h : H} {data : UInt64} {d : IrqDomain}

/-- A descriptor whose pin has just been enabled on a CPU with its handler is deliverable. -/
theorem deliverable_of_enabled (hv : v ≠ 0x80)
    (hvec : (s.irqDescs v).vector = v) (hh : (s.irqDescs v).handler = some h)
    (hisr : (s.isr c v).handler = some .irqDispatch) (hid : (s.isr c v).id.toUInt8 = v)
    (hentry : ∀ pin, s.pinOf p (s.irqDescs v).hwirq = some pin →
      s.lowOf pin = redirLow v (p.apicLookupIso (s.irqDescs v).hwirq.toUInt8).2 ∧
        s.highOf pin = (p.lapicId c).toUInt32 <<< 24) : s.Deliverable p v := by
  intro pin hpin
  obtain ⟨hlow, hhigh⟩ := hentry pin hpin
  rw [hlow, hhigh, hvec]
  refine ⟨(redirLow_spec _ _).1, (redirLow_spec _ _).2, c, h, high_byte _, hh, ?_⟩
  unfold interrupt irqDispatch
  rw [if_pos (p.idt_target hv), hisr]
  dsimp only
  rw [hid, hh]
  rfl

/-- What the environment asks of itself: a line is requested, enabled, disabled and freed only while
no other active descriptor has its pin, it is enabled on the CPU that has its handler, and the next
vector of an IOAPIC line is not 0x80. -/
def callerOk (p : Platform Cpu) (op : IrqOp Cpu H) (s : IrqState Cpu H) : Prop :=
  match op with
  | .request _ hwirq handler _ => handler ≠ none →
    s.GateFree ∧ ∀ w, s.Active p w → s.pinOf p (s.irqDescs w).hwirq ≠ s.pinOf p hwirq
  | .requestLocal _ _ _ => True
  | .enable c irq => irq < 256 → (s.irqDescs irq.toUInt8).domain = some .ioapic →
    (s.isr c irq.toUInt8).handler = some .irqDispatch ∧
      s.Exclusive p irq.toUInt8 (s.irqDescs irq.toUInt8).hwirq
  | .disable irq | .free _ irq => irq < 256 → (s.irqDescs irq.toUInt8).domain = some .ioapic →
    s.Exclusive p irq.toUInt8 (s.irqDescs irq.toUInt8).hwirq

/-- The descriptor of a vector with a domain is in use. -/
theorem Good.handler_ne (hg : s.Good p v) (hd : (s.irqDescs v).domain = some d) :
    (s.irqDescs v).handler ≠ none :=
  fun hc => some_ne_none d (hd.symm.trans (hg.domain hc))

theorem irqDescs_setEnabled (s : IrqState Cpu H) (v : UInt8) (desc : IrqDesc H) (b : Bool) :
    (s.setEnabled v desc b).irqDescs v = { desc with enabled := b } :=
  update_self ..

theorem routable_of_setEnabled {b : Bool} (hmax : ∀ io, s'.maxRedir io = s.maxRedir io)
    (hroute : (s'.setEnabled v (s.irqDescs v) b).Routable p v) : s.Routable p v := by
  unfold Routable at hroute ⊢
  rw [irqDescs_setEnabled, show (s'.setEnabled v (s.irqDescs v) b).pinOf p = s'.pinOf p from rfl,
    pinOf_congr hmax] at hroute
  exact hroute

theorem setEnabled_inv (hinv : s.Inv p) (hrw : Rewrites opt s s')
    (hexcl : ∀ w, w ≠ v → s.Active p w → s.pinOf p (s.irqDescs w).hwirq ≠ opt) (b : Bool)
    (hdel : (s'.setEnabled v (s.irqDescs v) b).Active p v →
      (s'.setEnabled v (s.irqDescs v) b).Deliverable p v) : (s'.setEnabled v (s.irqDescs v) b).Inv p := by
  have hdesc := irqDescs_setEnabled s' v (s.irqDescs v) b
  have hset : Touches v opt s' (s'.setEnabled v (s.irqDescs v) b) :=
    ⟨fun w hw => update_of_ne hw .., fun _ _ => rfl, fun _ _ _ => rfl, fun _ => rfl, fun _ _ _ => ⟨rfl, rfl⟩⟩
  have hg := hinv.good v
  refine ((hrw.touches v).trans hset).inv hinv hexcl ⟨?_, ?_, ?_, ?_, ?_, hdel⟩
  · rw [hdesc]
    change _ → s'.vectorUsed v ≠ 0
    rw [hrw.vectorUsed]
    exact hg.used
  · rw [hdesc]
    exact hg.vector
  · rw [hdesc]
    exact hg.domain
  · change ∀ c, (s'.isr c v).handler = _ → (s'.isr c v).id.toUInt8 = v
    rw [hrw.isr]
    exact hg.id
  · exact fun hroute => hg.gate (routable_of_setEnabled hrw.maxRedir hroute)

theorem irqEnable_inv (hinv : s.Inv p) (irq : UInt32) (hok : callerOk p (.enable c irq) s) :
    (s.irqEnable p c irq).Inv p := by
  unfold irqEnable
  by_cases hirq : 256 ≤ irq
  · rwa [if_pos hirq]
  rw [if_neg hirq]
  dsimp only
  generalize hv : irq.toUInt8 = v
  have hg := hinv.good v
  cases hd : (s.irqDescs v).domain with
  | none => exact hinv
  | some d =>
  cases d with
  | lapic =>
    exact setEnabled_inv hinv (.refl none s) (fun w _ hw => hw.1.2.2.2) true
      fun hc => by cases hd.symm.trans (routable_of_setEnabled (fun _ => rfl) hc.1).2.1
  | ioapic =>
  obtain ⟨hisr, hexcl⟩ := hok (UInt32.not_le.mp hirq) (hv ▸ hd)
  rw [hv] at hisr hexcl
  have hrw := ioapicDomainEnable_rewrites hinv.addressable c (s.irqDescs v).hwirq (s.irqDescs v).vector
  obtain ⟨h, hh⟩ := ne_none_iff_exists'.mp (hg.handler_ne hd)
  have hvec := hg.vector (hg.handler_ne hd)
  refine setEnabled_inv hinv hrw hexcl true fun hactive => ?_
  have hdesc := irqDescs_setEnabled
    (s.ioapicDomainEnable p c (s.irqDescs v).hwirq (s.irqDescs v).vector) v (s.irqDescs v) true
  have hgate : v ≠ 0x80 := hg.gate (routable_of_setEnabled hrw.maxRedir hactive.1)
  refine deliverable_of_enabled (c := c) (h := h) hgate ?_ ?_ ?_ ?_ fun pin hp => ?_
  · rwa [hdesc]
  · rwa [hdesc]
  · exact (congrFun (congrFun hrw.isr c) v).symm ▸ hisr
  · exact (congrFun (congrFun hrw.isr c) v).symm ▸ hg.id c hisr
  · rw [hdesc] at hp ⊢
    rw [show pinOf p ((s.ioapicDomainEnable p c (s.irqDescs v).hwirq (s.irqDescs v).vector).setEnabled
      v (s.irqDescs v) true) = pinOf p (s.ioapicDomainEnable p c (s.irqDescs v).hwirq
      (s.irqDescs v).vector) from rfl, pinOf_congr hrw.maxRedir] at hp
    have hentry := ioapicDomainEnable_entry hinv.addressable c (s.irqDescs v).vector hp
    rw [hvec] at hentry ⊢
    exact hentry

theorem irqDisable_inv (hinv : s.Inv p) (irq : UInt32) (hok : callerOk p (.disable irq) s) :
    (s.irqDisable p irq).Inv p := by
  unfold irqDisable
  by_cases hirq : 256 ≤ irq
  · rwa [if_pos hirq]
  rw [if_neg hirq]
  dsimp only
  generalize hv : irq.toUInt8 = v
  have hoff : ∀ s' : IrqState Cpu H, ¬ (s'.setEnabled v (s.irqDescs v) false).Active p v := by
    intro s' hc
    have henabled := hc.2
    simp [irqDescs_setEnabled] at henabled
  cases hd : (s.irqDescs v).domain with
  | none => exact hinv
  | some d =>
  cases d with
  | lapic =>
    exact setEnabled_inv hinv (.refl none s) (fun w _ hw => hw.1.2.2.2) false
      fun hc => absurd hc (hoff s)
  | ioapic =>
    have hexcl := hok (UInt32.not_le.mp hirq) (hv ▸ hd)
    rw [hv] at hexcl
    exact setEnabled_inv hinv
      (ioapicDomainDisable_rewrites hinv.addressable (s.irqDescs v).hwirq) hexcl false
      fun hc => absurd hc (hoff _)

theorem vectorFree_touches (s : IrqState Cpu H) (v : UInt8) : Touches v none s (s.vectorFree v) := by
  unfold vectorFree
  split
  · exact ⟨fun _ _ => rfl, fun w hw => update_of_ne hw .., fun _ _ _ => rfl, fun _ => rfl,
      fun _ _ _ => ⟨rfl, rfl⟩⟩
  · exact (Rewrites.refl none s).touches v

theorem isr_vectorFree (s : IrqState Cpu H) (v : UInt8) : (s.vectorFree v).isr = s.isr := by
  unfold vectorFree
  split <;> rfl

theorem forgetHwirq_rewrites (h : s.forgetHwirq d hwirq = some s') : Rewrites none s s' := by
  unfold forgetHwirq at h
  split at h
  · cases d with
    | ioapic =>
      cases h
      exact ⟨rfl, rfl, rfl, fun _ => rfl, fun _ _ _ => ⟨rfl, rfl⟩⟩
    | lapic => cases h
  · cases h
    exact .refl none s

/-- The pin a domain masks has no other active descriptor. -/
theorem domainDisable_rewrites (hinv : s.Inv p) (hwirq : UInt32)
    (hexcl : d = .ioapic → s.Exclusive p v hwirq) : ∃ opt, Rewrites opt s (s.domainDisable p d hwirq) ∧
      ∀ w, w ≠ v → s.Active p w → s.pinOf p (s.irqDescs w).hwirq ≠ opt := by
  cases d with
  | ioapic => exact ⟨_, ioapicDomainDisable_rewrites hinv.addressable hwirq, hexcl rfl⟩
  | lapic => exact ⟨none, .refl none s, fun w _ hw => hw.1.2.2.2⟩

/-- A descriptor that is not in use. -/
theorem good_of_zero (hdesc : s.irqDescs v = .zero)
    (hid : ∀ c, (s.isr c v).handler = some .irqDispatch → (s.isr c v).id.toUInt8 = v) : s.Good p v := by
  have hnone : (s.irqDescs v).handler = none := by rw [hdesc]; rfl
  exact ⟨fun hc => absurd hnone hc, fun hc => absurd hnone hc, fun _ => by rw [hdesc]; rfl, hid,
    fun hc => absurd hnone hc.1, fun hc => absurd hnone hc.1.1⟩

/-- `irq_init` on a machine whose CPUs have no handler of `irq.c` yet. -/
theorem irqInit_inv (haddr : s.Addressable p)
    (hisr : ∀ c v, (s.isr c v).handler ≠ some .irqDispatch) : s.irqInit.Inv p :=
  ⟨haddr, fun v => good_of_zero rfl fun c hc => absurd hc (hisr c v)⟩

variable [DecidableEq Cpu]

/-- The state after a descriptor of a new vector was filled and its handler registered. -/
def filled (p : Platform Cpu) (c : Cpu) (s : IrqState Cpu H) (v : UInt8) (desc : IrqDesc H)
    (table : UInt32 → UInt32) : IrqState Cpu H :=
  registerInterrupt p c { s with
    vectorUsed := update s.vectorUsed v 1
    irqDescs := update s.irqDescs v desc
    hwirqToIrq := table } v .irqDispatch none

theorem filled_spec (hid : ∀ c, (s.isr c v).handler = some .irqDispatch → (s.isr c v).id.toUInt8 = v)
    (desc : IrqDesc H) (table : UInt32 → UInt32) :
    Touches v none s (s.filled p c v desc table) ∧ (s.filled p c v desc table).irqDescs v = desc ∧
      (s.filled p c v desc table).vectorUsed v = 1 ∧
      ((s.filled p c v desc table).isr c v).handler = some .irqDispatch ∧
      ∀ c', ((s.filled p c v desc table).isr c' v).handler = some .irqDispatch →
        ((s.filled p c v desc table).isr c' v).id.toUInt8 = v := by
  have hself : (s.filled p c v desc table).isr c v =
      ⟨(p.cpuId c).toUInt64 <<< 32 ||| v.toUInt64, some .irqDispatch, none⟩ := by
    simp [filled, registerInterrupt, setIsr]
  have hother : ∀ c' w, (c' ≠ c ∨ w ≠ v) → (s.filled p c v desc table).isr c' w = s.isr c' w := by
    intro c' w hne
    by_cases hc : c' = c
    · subst hc
      simp [filled, registerInterrupt, setIsr, hne.resolve_left (not_not_intro rfl)]
    · simp [filled, registerInterrupt, setIsr, hc]
  refine ⟨⟨fun w hw => update_of_ne hw .., fun w hw => update_of_ne hw ..,
    fun c' w hw => hother c' w (.inr hw), fun _ => rfl, fun _ _ _ => ⟨rfl, rfl⟩⟩,
    update_self .., update_self .., by rw [hself], fun c' hc' => ?_⟩
  by_cases hc : c' = c
  · subst hc
    rw [hself]
    exact low_byte_id _ _
  · rw [hother c' v (.inl hc)] at hc' ⊢
    exact hid c' hc'

/-- A request that gets a vector. Whether or not the line has a place in the table of the domain,
the rest is the same. -/
theorem irqRequest_eq (p : Platform Cpu) (c : Cpu) (hwirq : UInt32) (h : H) (data : UInt64)
    (halloc : s.vectorAlloc = some (v, t)) : ∃ table, (s.irqRequest p c hwirq (some h) data).2 =
      (s.filled p c v ⟨v.toUInt32, hwirq, v, some h, data, some .ioapic, true⟩ table).ioapicDomainEnable
        p c hwirq v := by
  obtain ⟨rfl, -⟩ := vectorAlloc_spec halloc
  unfold irqRequest
  dsimp only
  rw [halloc]
  dsimp only
  by_cases hmax : hwirq < IrqDomain.ioapic.maxHwirq
  · rw [if_pos hmax]
    exact ⟨_, rfl⟩
  · rw [if_neg hmax]
    exact ⟨s.hwirqToIrq, rfl⟩

theorem irqRequest_inv (hinv : s.Inv p) (handler : Option H)
    (hok : callerOk p (.request c hwirq handler data) s) : (s.irqRequest p c hwirq handler data).2.Inv p := by
  cases handler with
  | none => exact hinv
  | some h =>
  cases halloc : s.vectorAlloc with
  | none =>
    unfold irqRequest
    dsimp only
    rwa [halloc]
  | some x =>
  obtain ⟨v, t⟩ := x
  obtain ⟨hgate, hexcl⟩ := hok (some_ne_none h)
  have hv := vectorAlloc_ne halloc hgate
  obtain ⟨table, heq⟩ := irqRequest_eq p c hwirq h data halloc
  obtain ⟨htouch, hdesc, hused, hisr, hid⟩ := filled_spec (p := p) (c := c) (hinv.good v).id
    ⟨v.toUInt32, hwirq, v, some h, data, some .ioapic, true⟩ table
  rw [heq]
  generalize s.filled p c v _ table = t at *
  have haddr : t.Addressable p := fun io hio => (htouch.maxRedir io).symm ▸ hinv.addressable io hio
  have hrw := ioapicDomainEnable_rewrites haddr c hwirq v
  have hpin := pinOf_congr (p := p) htouch.maxRedir hwirq
  rw [hpin] at hrw
  have hall := (htouch.weaken (s.pinOf p hwirq)).trans (hrw.touches v)
  refine hall.inv hinv (fun w _ hw => hexcl w hw) ⟨?_, ?_, ?_, ?_, fun _ => hv, fun _ => ?_⟩
  · rw [hrw.vectorUsed, hused]
    exact fun _ => by decide
  · rw [hrw.irqDescs, hdesc]
    exact fun _ => rfl
  · rw [hrw.irqDescs, hdesc]
    exact fun hc => absurd hc (some_ne_none h)
  · intro c'
    rw [hrw.isr]
    exact hid c'
  · refine deliverable_of_enabled (c := c) (h := h) hv ?_ ?_ ?_ ?_ fun pin hp => ?_
    · rw [hrw.irqDescs, hdesc]
    · rw [hrw.irqDescs, hdesc]
    · rw [hrw.isr, hisr]
    · rw [hrw.isr, hid c hisr]
    · rw [pinOf_congr hrw.maxRedir, hrw.irqDescs, hdesc] at hp
      rw [hrw.irqDescs, hdesc]
      exact ioapicDomainEnable_entry haddr c v hp

theorem irqRequestLocal_inv (hinv : s.Inv p) (handler : Option H) :
    (s.irqRequestLocal p c handler data).2.Inv p := by
  unfold irqRequestLocal
  cases handler with
  | none => exact hinv
  | some h =>
  dsimp only
  cases halloc : s.vectorAlloc with
  | none => exact hinv
  | some x =>
  obtain ⟨v, t⟩ := x
  obtain ⟨rfl, -⟩ := vectorAlloc_spec halloc
  obtain ⟨htouch, hdesc, hused, -, hid⟩ := filled_spec (p := p) (c := c) (hinv.good v).id
    ⟨v.toUInt32, 0, v, some h, data, some .lapic, true⟩ s.hwirqToIrq
  change (s.filled p c v ⟨v.toUInt32, 0, v, some h, data, some .lapic, true⟩ s.hwirqToIrq).Inv p
  generalize s.filled p c v _ s.hwirqToIrq = t at *
  have hlocal : ¬ t.Routable p v := by
    unfold Routable
    rw [hdesc]
    exact fun hc => by cases hc.2.1
  refine htouch.inv hinv (fun w _ hw => hw.1.2.2.2) ⟨?_, ?_, ?_, hid, fun hc => absurd hc hlocal,
    fun hc => absurd hc.1 hlocal⟩
  · rw [hused]
    exact fun _ => by decide
  · rw [hdesc]
    exact fun _ => rfl
  · rw [hdesc]
    exact fun hc => absurd hc (some_ne_none h)

theorem isr_clearDesc (s : IrqState Cpu H) (c' : Cpu) (w : UInt8) :
    (s.clearDesc c v v).isr c' w = if c' = c ∧ w = v then ⟨0, none, none⟩ else s.isr c' w := by
  unfold clearDesc unregisterInterrupt setIsr
  by_cases hc : c' = c
  · subst hc
    by_cases hw : w = v
    · subst hw
      simp
    · simp [hw]
  · simp [hc]

theorem clearDesc_touches (s : IrqState Cpu H) : Touches v none s (s.clearDesc c v v) :=
  ⟨fun w hw => update_of_ne hw .., fun _ _ => rfl,
    fun c' w hw => by rw [isr_clearDesc, if_neg fun hc => hw hc.2], fun _ => rfl,
    fun _ _ _ => ⟨rfl, rfl⟩⟩

/-- `irq_free`, where it comes back. -/
theorem irqFree_inv (hinv : s.Inv p) {irq : UInt32} (hok : callerOk p (.free c irq) s)
    (hfree : s.irqFree p c irq = some s') : s'.Inv p := by
  unfold irqFree at hfree
  by_cases hirq : 256 ≤ irq
  · rw [if_pos hirq] at hfree
    cases hfree
    exact hinv
  rw [if_neg hirq] at hfree
  replace hok := hok (UInt32.not_le.mp hirq)
  dsimp only at hfree
  generalize irq.toUInt8 = v at hfree hok
  have hg := hinv.good v
  cases hh : (s.irqDescs v).handler with
  | none =>
    rw [hh, hg.domain hh] at hfree
    cases hfree
    exact hinv
  | some h =>
  have hne : (s.irqDescs v).handler ≠ none := hh ▸ some_ne_none h
  cases hd : (s.irqDescs v).domain with
  | none =>
    rw [hh, hd] at hfree
    cases hfree
    exact hinv
  | some d =>
  rw [hh, hd, hg.vector hne] at hfree
  obtain ⟨t, hforget, ht⟩ := bind_eq_some_iff.mp hfree
  cases ht
  obtain ⟨opt, hrw, hexcl⟩ := domainDisable_rewrites (v := v) hinv (s.irqDescs v).hwirq
    fun hio => hok (hio ▸ hd)
  have hbefore : Touches v opt s t := ((hrw.touches v).trans
    ((vectorFree_touches _ v).weaken opt)).trans (((forgetHwirq_rewrites hforget).touches v).weaken opt)
  have hisr : t.isr = s.isr := by
    rw [(forgetHwirq_rewrites hforget).isr, isr_vectorFree, hrw.isr]
  refine (hbefore.trans ((clearDesc_touches t).weaken opt)).inv hinv hexcl
    (good_of_zero (update_self ..) fun c' => ?_)
  rw [isr_clearDesc]
  by_cases hc : c' = c ∧ v = v
  · rw [if_pos hc]
    exact nofun
  · rw [if_neg hc, hisr]
    exact hg.id c'

/-! ## Runs -/

def step (p : Platform Cpu) (_ : Nat) (op : IrqOp Cpu H) (s : IrqState Cpu H) :
    Option (IrqState Cpu H) :=
  match op with
  | .request c hwirq handler data => some (s.irqRequest p c hwirq handler data).2
  | .requestLocal c handler data => some (s.irqRequestLocal p c handler data).2
  | .enable c irq => some (s.irqEnable p c irq)
  | .disable irq => some (s.irqDisable p irq)
  | .free c irq => s.irqFree p c irq

theorem step_inv {fuel : Nat} {op : IrqOp Cpu H} (hinv : s.Inv p) (hok : callerOk p op s)
    (hstep : step p fuel op s = some s') : s'.Inv p := by
  cases op with
  | request c hwirq handler data =>
    cases hstep
    exact irqRequest_inv hinv handler hok
  | requestLocal c handler data =>
    cases hstep
    exact irqRequestLocal_inv hinv handler
  | enable c irq =>
    cases hstep
    exact irqEnable_inv hinv irq hok
  | disable irq =>
    cases hstep
    exact irqDisable_inv hinv irq hok
  | free c irq => exact irqFree_inv hinv hok hstep

/-- In every run whose calls keep to `callerOk`, every active descriptor of the IOAPIC domain is
deliverable. -/
theorem active_irqs_deliverable {s₀ : IrqState Cpu H} (haddr : s₀.Addressable p)
    (hisr : ∀ c v, (s₀.isr c v).handler ≠ some .irqDispatch)
    (hrun : Lib.Run (step p) (callerOk p) s₀.irqInit s) (v : UInt8) (hactive : s.Active p v) :
    s.Deliverable p v := by
  have hinv : s.Inv p := hrun.invariant (irqInit_inv haddr hisr)
    fun _ _ _ _ hinv hok hstep => step_inv hinv hok hstep
  exact (hinv.good v).deliverable hactive

end Calls

/-! ## Two devices on one line -/

/-- One CPU and one IOAPIC. -/
def uniprocessor : Platform Unit where
  ioapics := [⟨0, 0xFEC00000⟩]
  isoTable := []
  cpuId _ := 0
  lapicId _ := 0
  isrTable v := 0x1000 + 16 * v.toUInt64
  legacySyscallHandler := 0x800

/-- The IOAPIC has 24 pins, all masked, and no interrupt has a handler. -/
def poweredOn : IrqState Unit Nat where
  irqDescs _ := .zero
  vectorUsed _ := 0
  hwirqToIrq _ := 0
  regs _ r := if r = ioapicRegVer then 0x170020 else ioapicRedirMask ||| 0x20
  isr _ _ := ⟨0, none, none⟩

/-- The first request of a line. -/
def requested : IrqState Unit Nat := (poweredOn.irqInit.irqRequest uniprocessor () 16 (some 1) 0).2

/-- The second request of the line takes its pin. -/
theorem shared_line_unroutes : ∃ s, Lib.Run (step uniprocessor) (fun _ _ => True) poweredOn.irqInit s ∧
    s.Active uniprocessor 0x20 ∧ ¬ s.Deliverable uniprocessor 0x20 := by
  refine ⟨(requested.irqRequest uniprocessor () 16 (some 2) 0).2, ?_, ?_, fun hdel => ?_⟩
  · have hfirst : Lib.Run (step uniprocessor) (fun _ _ => True) poweredOn.irqInit requested :=
      @Lib.Run.next _ _ _ _ _ _ _ (.request () 16 (some 1) 0) 0 .init trivial rfl
    exact @Lib.Run.next _ _ _ _ _ _ _ (.request () 16 (some 2) 0) 0 hfirst trivial rfl
  · unfold Active Routable
    decide +kernel
  · have hvector := (hdel (0xFEC00000, 16) (by decide +kernel)).2.1
    revert hvector
    decide +kernel

/-- One device on a line. -/
theorem active_irqs_deliverable_one : requested.Active uniprocessor 0x20 ∧
    requested.Deliverable uniprocessor 0x20 := by
  have hactive : requested.Active uniprocessor 0x20 := by
    unfold Active Routable
    decide +kernel
  have haddr : poweredOn.Addressable uniprocessor := by
    intro io hio
    rw [mem_singleton.mp hio]
    decide +kernel
  have hrun : Lib.Run (step uniprocessor) (callerOk uniprocessor) poweredOn.irqInit requested := by
    have hok : callerOk uniprocessor (.request () 16 (some 1) 0) poweredOn.irqInit :=
      fun _ => ⟨.inl ⟨0x20, by decide +kernel, by decide, by decide +kernel⟩, fun w hw => absurd rfl hw.1.1⟩
    exact @Lib.Run.next _ _ _ _ _ _ _ (.request () 16 (some 1) 0) 0 .init hok rfl
  exact ⟨hactive, active_irqs_deliverable haddr (fun _ _ hc => by cases hc) hrun 0x20 hactive⟩

end IrqState

end Lapis.Arch
