/-
Lapis.Arch.Irq — interrupt requests (`irq.c`), the interrupt table (`idt.c`) and the handlers of
each CPU (`isr.c`).

A request takes a vector, fills the descriptor of that vector and writes the redirection entry of
the IOAPIC pin its line resolves to. `IrqState.interrupt` is the way back: what a CPU runs when the
vector arrives, through the interrupt table, the stub of the vector and the handler of the CPU.

The registers of an IOAPIC are read and written through a window that every access selects first, so
they are a function of the address of the IOAPIC and the number of the register. Every call takes
the CPU it runs on: `register_interrupt` writes the table of that CPU and `ioapic_domain_enable`
routes the line to it. The lock of `irq.c` and the log messages are left out; `name` is only logged.
-/
import Mathlib.Logic.Function.Basic

namespace Lapis.Arch

open Function

/-! ## The interrupt table -/

structure IdtEntry where
  offsetLow : UInt16
  selector : UInt16
  ist : UInt8
  flags : UInt8
  offsetMid : UInt16
  offsetHigh : UInt32

def idtSetup (isrTable : UInt8 → UInt64) (legacySyscallHandler : UInt64) (i : UInt8) : IdtEntry :=
  let addr := isrTable i
  if i = 0x80 then
    { offsetLow := legacySyscallHandler.toUInt16
      selector := 0x8
      ist := 0
      flags := 0xEE
      offsetMid := (legacySyscallHandler >>> 16).toUInt16
      offsetHigh := (legacySyscallHandler >>> 32).toUInt32 }
  else
    { offsetLow := addr.toUInt16
      selector := 0x8
      ist := 0
      flags := 0x8E
      offsetMid := (addr >>> 16).toUInt16
      offsetHigh := (addr >>> 32).toUInt32 }

/-- Where the processor goes. -/
def IdtEntry.target (e : IdtEntry) : UInt64 :=
  e.offsetLow.toUInt64 ||| e.offsetMid.toUInt64 <<< 16 ||| e.offsetHigh.toUInt64 <<< 32

/-! ## The machine -/

structure IoapicEntry where
  gsiBase : UInt32
  physAddr : UInt64
  deriving DecidableEq

structure IsoEntry where
  source : UInt8
  gsi : UInt32
  flags : UInt16
  deriving DecidableEq

/-- What the firmware tells the kernel of the machine, and the addresses of its entry stubs. -/
structure Platform (Cpu : Type) where
  ioapics : List IoapicEntry
  isoTable : List IsoEntry
  cpuId : Cpu → UInt32
  /-- `apic_get_lapic_id() & 0xFF`, as the CPU reads it. -/
  lapicId : Cpu → UInt8
  isrTable : UInt8 → UInt64
  legacySyscallHandler : UInt64

variable {Cpu H : Type}

def Platform.idt (p : Platform Cpu) (v : UInt8) : IdtEntry :=
  idtSetup p.isrTable p.legacySyscallHandler v

/-- `apic_lookup_iso`: the first override of a source. -/
def Platform.apicLookupIso (p : Platform Cpu) (source : UInt8) : UInt32 × UInt16 :=
  match p.isoTable.find? (fun iso => iso.source = source) with
  | some iso => (iso.gsi, iso.flags)
  | none => (source.toUInt32, 0)

/-! ## Descriptors -/

inductive IrqDomain where
  | ioapic | lapic
  deriving DecidableEq, Repr

def IrqDomain.maxHwirq : IrqDomain → UInt32
  | .ioapic => 256
  | .lapic => 1

structure IrqDesc (H : Type) where
  irq : UInt32
  hwirq : UInt32
  vector : UInt8
  handler : Option H
  data : UInt64
  domain : Option IrqDomain
  enabled : Bool

/-- A descriptor `memset` to zero. -/
def IrqDesc.zero : IrqDesc H := ⟨0, 0, 0, none, 0, none, false⟩

inductive IsrHandler where
  | irqDispatch
  | other (addr : UInt64)
  deriving DecidableEq

structure Isr where
  id : UInt64
  handler : Option IsrHandler
  eoi : Option UInt64

structure IrqState (Cpu H : Type) where
  irqDescs : UInt8 → IrqDesc H
  vectorUsed : UInt8 → UInt8
  /-- The table of `ioapic_domain`; `lapic_domain` has none. -/
  hwirqToIrq : UInt32 → UInt32
  /-- The registers of the IOAPIC at an address. -/
  regs : UInt64 → UInt8 → UInt32
  isr : Cpu → UInt8 → Isr

namespace IrqState

/-! ## Registers -/

def ioapicRegVer : UInt8 := 0x01
def ioapicRegTableBase : UInt8 := 0x10
def ioapicRedirPolarity : UInt32 := (1 : UInt32) <<< 13
def ioapicRedirTrigger : UInt32 := (1 : UInt32) <<< 15
def ioapicRedirMask : UInt32 := (1 : UInt32) <<< 16

def ioapicWrite (s : IrqState Cpu H) (io : IoapicEntry) (reg : UInt8) (val : UInt32) :
    IrqState Cpu H :=
  { s with regs := update s.regs io.physAddr (update (s.regs io.physAddr) reg val) }

def ioapicRead (s : IrqState Cpu H) (io : IoapicEntry) (reg : UInt8) : UInt32 :=
  s.regs io.physAddr reg

/-- The number of the last pin of an IOAPIC. -/
def maxRedir (s : IrqState Cpu H) (io : IoapicEntry) : UInt32 :=
  (s.ioapicRead io ioapicRegVer >>> 16) &&& 0xFF

def apicIoapicForGsi (p : Platform Cpu) (s : IrqState Cpu H) (gsi : UInt32) :
    Option (IoapicEntry × UInt32) :=
  (p.ioapics.find? fun io => io.gsiBase ≤ gsi ∧ gsi ≤ io.gsiBase + s.maxRedir io).map
    fun io => (io, gsi - io.gsiBase)

/-- The register with the low half of the redirection entry of a pin. -/
def redirReg (pin : UInt32) : UInt8 := ioapicRegTableBase + (pin * 2).toUInt8

/-! ## Vectors -/

def irqVectorMin : Nat := 0x20
def irqVectorMax : Nat := 0xEF

/-- The vectors in the order `vector_alloc` tries them. -/
def vectors : List UInt8 :=
  (List.range' irqVectorMin (irqVectorMax + 1 - irqVectorMin)).map UInt8.ofNat

def vectorAlloc (s : IrqState Cpu H) : Option (UInt8 × IrqState Cpu H) :=
  (vectors.find? fun v => s.vectorUsed v = 0).map
    fun v => (v, { s with vectorUsed := update s.vectorUsed v 1 })

def vectorFree (s : IrqState Cpu H) (vector : UInt8) : IrqState Cpu H :=
  if irqVectorMin ≤ vector.toNat ∧ vector.toNat ≤ irqVectorMax then
    { s with vectorUsed := update s.vectorUsed vector 0 }
  else s

/-! ## The two domains -/

/-- The low half of the redirection entry of an unmasked pin. -/
def redirLow (vector : UInt8) (flags : UInt16) : UInt32 :=
  vector.toUInt32
    ||| (if flags &&& 0x3 = 0x3 then ioapicRedirPolarity else 0)
    ||| (if flags &&& 0xC = 0xC then ioapicRedirTrigger else 0)

def ioapicDomainEnable (p : Platform Cpu) (c : Cpu) (s : IrqState Cpu H) (hwirq : UInt32)
    (vector : UInt8) : IrqState Cpu H :=
  let iso := p.apicLookupIso hwirq.toUInt8
  match s.apicIoapicForGsi p iso.1 with
  | none => s
  | some (io, pin) =>
    let high := (p.lapicId c).toUInt32 <<< 24
    let reg := redirReg pin
    (s.ioapicWrite io (reg + 1) high).ioapicWrite io reg (redirLow vector iso.2)

def ioapicDomainDisable (p : Platform Cpu) (s : IrqState Cpu H) (hwirq : UInt32) :
    IrqState Cpu H :=
  match s.apicIoapicForGsi p (p.apicLookupIso hwirq.toUInt8).1 with
  | none => s
  | some (io, pin) =>
    let reg := redirReg pin
    s.ioapicWrite io reg (s.ioapicRead io reg ||| ioapicRedirMask)

/-- `domain->ops->enable`. -/
def domainEnable (p : Platform Cpu) (c : Cpu) (s : IrqState Cpu H) (d : IrqDomain) (hwirq : UInt32)
    (vector : UInt8) : IrqState Cpu H :=
  match d with
  | .ioapic => s.ioapicDomainEnable p c hwirq vector
  | .lapic => s

/-- `domain->ops->disable`. -/
def domainDisable (p : Platform Cpu) (s : IrqState Cpu H) (d : IrqDomain) (hwirq : UInt32) :
    IrqState Cpu H :=
  match d with
  | .ioapic => s.ioapicDomainDisable p hwirq
  | .lapic => s

/-! ## Handlers of a CPU -/

def setIsr (s : IrqState Cpu H) [DecidableEq Cpu] (c : Cpu) (vector : UInt8) (isr : Isr) :
    IrqState Cpu H :=
  { s with isr := update s.isr c (update (s.isr c) vector isr) }

def registerInterrupt [DecidableEq Cpu] (p : Platform Cpu) (c : Cpu) (s : IrqState Cpu H)
    (vector : UInt8) (func : IsrHandler) (eoi : Option UInt64) : IrqState Cpu H :=
  s.setIsr c vector ⟨(p.cpuId c).toUInt64 <<< 32 ||| vector.toUInt64, some func, eoi⟩

def unregisterInterrupt [DecidableEq Cpu] (c : Cpu) (s : IrqState Cpu H) (vector : UInt8) :
    IrqState Cpu H :=
  s.setIsr c vector ⟨0, none, none⟩

/-! ## The calls -/

/-- `irq_init`, when `kzalloc` gives the table of the IOAPIC domain. -/
def irqInit (s : IrqState Cpu H) : IrqState Cpu H :=
  { s with
    irqDescs := fun _ => .zero
    vectorUsed := fun v => if irqVectorMin ≤ v.toNat ∧ v.toNat ≤ irqVectorMax then 0 else 1
    hwirqToIrq := fun _ => 0 }

def irqRequest [DecidableEq Cpu] (p : Platform Cpu) (c : Cpu) (s : IrqState Cpu H) (hwirq : UInt32)
    (handler : Option H) (data : UInt64) : Int × IrqState Cpu H :=
  match handler with
  | none => (-1, s)
  | some h =>
    match s.vectorAlloc with
    | none => (-1, s)
    | some (vector, s) =>
      let desc : IrqDesc H := ⟨vector.toUInt32, hwirq, vector, some h, data, some .ioapic, true⟩
      let s := { s with irqDescs := update s.irqDescs vector desc }
      let s := if hwirq < IrqDomain.ioapic.maxHwirq then
          { s with hwirqToIrq := update s.hwirqToIrq hwirq vector.toUInt32 }
        else s
      let s := s.registerInterrupt p c vector .irqDispatch none
      (vector.toNat, s.ioapicDomainEnable p c hwirq vector)

def irqRequestLocal [DecidableEq Cpu] (p : Platform Cpu) (c : Cpu) (s : IrqState Cpu H)
    (handler : Option H) (data : UInt64) : Int × IrqState Cpu H :=
  match handler with
  | none => (-1, s)
  | some h =>
    match s.vectorAlloc with
    | none => (-1, s)
    | some (vector, s) =>
      let desc : IrqDesc H := ⟨vector.toUInt32, 0, vector, some h, data, some .lapic, true⟩
      let s := { s with irqDescs := update s.irqDescs vector desc }
      (vector.toNat, s.registerInterrupt p c vector .irqDispatch none)

/-- `domain->hwirq_to_irq[hwirq] = 0`. The table of `lapic_domain` is `NULL`: there is no state after
a write to it. -/
def forgetHwirq (s : IrqState Cpu H) (d : IrqDomain) (hwirq : UInt32) : Option (IrqState Cpu H) :=
  if hwirq < d.maxHwirq then
    match d with
    | .ioapic => some { s with hwirqToIrq := update s.hwirqToIrq hwirq 0 }
    | .lapic => none
  else some s

/-- The last two lines of `irq_free`. -/
def clearDesc [DecidableEq Cpu] (c : Cpu) (s : IrqState Cpu H) (v vector : UInt8) :
    IrqState Cpu H :=
  let s := s.unregisterInterrupt c vector
  { s with irqDescs := update s.irqDescs v .zero }

def irqFree [DecidableEq Cpu] (p : Platform Cpu) (c : Cpu) (s : IrqState Cpu H) (irq : UInt32) :
    Option (IrqState Cpu H) :=
  if 256 ≤ irq then some s
  else
    let desc := s.irqDescs irq.toUInt8
    match desc.handler, desc.domain with
    | some _, some d => do
      let s := (s.domainDisable p d desc.hwirq).vectorFree desc.vector
      let s ← s.forgetHwirq d desc.hwirq
      some (s.clearDesc c irq.toUInt8 desc.vector)
    | _, _ => some s

/-- `desc->enabled = b`. -/
def setEnabled (s : IrqState Cpu H) (v : UInt8) (desc : IrqDesc H) (b : Bool) : IrqState Cpu H :=
  { s with irqDescs := update s.irqDescs v { desc with enabled := b } }

def irqEnable (p : Platform Cpu) (c : Cpu) (s : IrqState Cpu H) (irq : UInt32) : IrqState Cpu H :=
  if 256 ≤ irq then s
  else
    let desc := s.irqDescs irq.toUInt8
    match desc.domain with
    | none => s
    | some d => (s.domainEnable p c d desc.hwirq desc.vector).setEnabled irq.toUInt8 desc true

def irqDisable (p : Platform Cpu) (s : IrqState Cpu H) (irq : UInt32) : IrqState Cpu H :=
  if 256 ≤ irq then s
  else
    let desc := s.irqDescs irq.toUInt8
    match desc.domain with
    | none => s
    | some d => (s.domainDisable p d desc.hwirq).setEnabled irq.toUInt8 desc false

/-! ## Interrupts -/

/-- `irq_dispatch`: the handler it calls, with its arguments. -/
def irqDispatch (s : IrqState Cpu H) (self : Isr) : Option (H × UInt32 × UInt64) :=
  let desc := s.irqDescs self.id.toUInt8
  desc.handler.map fun h => (h, desc.irq, desc.data)

/-- What `irq_dispatch` calls when the vector arrives at the CPU: the interrupt table leads to the
stub of the vector, the stub to `interrupt_isr`, and that to the handler of the CPU. -/
def interrupt (p : Platform Cpu) (s : IrqState Cpu H) (c : Cpu) (vector : UInt8) :
    Option (H × UInt32 × UInt64) :=
  if (p.idt vector).target = p.isrTable vector then
    match (s.isr c vector).handler with
    | some .irqDispatch => s.irqDispatch (s.isr c vector)
    | _ => none
  else none

end IrqState

end Lapis.Arch
