/-
Lapis.Dev.Driver — binding devices to drivers (`driver.c`, `bus.c`).

Both lists grow at the head, and a device is bound the first time it meets a driver with a matching
entry in its table: when it is added, among the drivers there are, or when a driver is registered,
together with every other device that has none yet. Binding calls `init` of the driver and requests
the interrupts of the device.

An `init` may do anything to the machine, the interrupts of the device included; it does not add
devices, register drivers or change a binding. Its result is ignored, as in the source. The calls of
`init` are recorded in `inits`, the last one first. Names are only logged.
-/
import Lapis.Arch.Irq

namespace Lapis.Dev

open Function Arch

structure DeviceId where
  vendorId : UInt16
  deviceId : UInt16
  cls : UInt8
  subclass : UInt8
  progIf : UInt8
  deriving DecidableEq, Repr

structure DeviceIrq where
  irq : UInt32
  hwirq : UInt32
  allocated : Bool
  deriving DecidableEq, Repr

/-- `match_device`: a field of the entry that is zero matches everything. -/
def matchDevice (dev id : DeviceId) : Bool :=
  if id.cls ≠ 0 ∧ id.cls ≠ dev.cls then false
  else if id.subclass ≠ 0 ∧ id.subclass ≠ dev.subclass then false
  else if id.progIf ≠ 0 ∧ id.progIf ≠ dev.progIf then false
  else if id.vendorId ≠ 0 ∧ id.vendorId ≠ dev.vendorId then false
  else if id.deviceId ≠ 0 ∧ id.deviceId ≠ dev.deviceId then false
  else true

/-- The part of the machine an `init` works on: the interrupts of the devices, the interrupt
requests, and the rest. -/
structure Machine (D Cpu H W : Type) where
  irqs : D → List DeviceIrq
  irq : IrqState Cpu H
  rest : W

structure Driver (D Cpu H W : Type) where
  idTable : List DeviceId
  init : Option (D → Machine D Cpu H W → Machine D Cpu H W)
  irqHandler : Option H

/-- The devices and drivers there are. -/
structure Catalog (D K Cpu H W : Type) where
  identity : D → DeviceId
  addr : D → UInt64
  driver : K → Driver D Cpu H W

structure DevState (D K Cpu H W : Type) where
  globalDeviceList : List D
  driverList : List K
  driver : D → Option K
  machine : Machine D Cpu H W
  inits : List (K × D)

variable {D K Cpu H W : Type}

/-- The driver has an entry for the device. -/
def Catalog.matches (cat : Catalog D K Cpu H W) (k : K) (d : D) : Bool :=
  (cat.driver k).idTable.any fun id => matchDevice (cat.identity d) id

/-- The loop of `driver_try_bind` over the interrupts of a device. -/
def requestIrqs [DecidableEq Cpu] (p : Platform Cpu) (c : Cpu) (handler : H) (data : UInt64) :
    List DeviceIrq → IrqState Cpu H → List DeviceIrq × IrqState Cpu H
  | [], s => ([], s)
  | i :: rest, s =>
    let (i, s) :=
      if i.allocated then (i, s)
      else
        let (irq, s) := s.irqRequest p c i.hwirq (some handler) data
        if 0 ≤ irq then ({ i with irq := UInt32.ofNat irq.toNat, allocated := true }, s) else (i, s)
    let (rest, s) := requestIrqs p c handler data rest s
    (i :: rest, s)

namespace DevState

variable [DecidableEq Cpu] [DecidableEq D]

/-- What `driver_try_bind` does once it has found a driver. -/
def bind (cat : Catalog D K Cpu H W) (p : Platform Cpu) (c : Cpu) (s : DevState D K Cpu H W) (d : D)
    (k : K) : DevState D K Cpu H W :=
  let s := { s with driver := update s.driver d (some k) }
  let s := match (cat.driver k).init with
    | none => s
    | some init => { s with machine := init d s.machine, inits := (k, d) :: s.inits }
  match (cat.driver k).irqHandler with
  | none => s
  | some handler =>
    let (irqs, irq) := requestIrqs p c handler (cat.addr d) (s.machine.irqs d) s.machine.irq
    { s with machine := { s.machine with irqs := update s.machine.irqs d irqs, irq := irq } }

def driverTryBind (cat : Catalog D K Cpu H W) (p : Platform Cpu) (c : Cpu) (s : DevState D K Cpu H W)
    (d : D) : DevState D K Cpu H W :=
  match s.driver d with
  | some _ => s
  | none =>
    match s.driverList.find? fun k => cat.matches k d with
    | none => s
    | some k => s.bind cat p c d k

def driverRegister (cat : Catalog D K Cpu H W) (p : Platform Cpu) (c : Cpu) (s : DevState D K Cpu H W)
    (k : K) : DevState D K Cpu H W :=
  let s := { s with driverList := k :: s.driverList }
  s.globalDeviceList.foldl (fun s d => s.driverTryBind cat p c d) s

def busDeviceAdd (cat : Catalog D K Cpu H W) (p : Platform Cpu) (c : Cpu) (s : DevState D K Cpu H W)
    (d : D) : DevState D K Cpu H W :=
  let s := { s with globalDeviceList := d :: s.globalDeviceList }
  s.driverTryBind cat p c d

end DevState

/-! ## Sequences of calls -/

/-- A call, with the CPU it is made on. -/
inductive DevCall (D K Cpu : Type) where
  | deviceAdd (c : Cpu) (d : D)
  | register (c : Cpu) (k : K)

namespace DevState

variable [DecidableEq Cpu] [DecidableEq D]

def call (cat : Catalog D K Cpu H W) (p : Platform Cpu) (s : DevState D K Cpu H W) :
    DevCall D K Cpu → DevState D K Cpu H W
  | .deviceAdd c d => s.busDeviceAdd cat p c d
  | .register c k => s.driverRegister cat p c k

/-- No device and no driver yet. -/
def empty (m : Machine D Cpu H W) : DevState D K Cpu H W := ⟨[], [], fun _ => none, m, []⟩

def run (cat : Catalog D K Cpu H W) (p : Platform Cpu) (m : Machine D Cpu H W)
    (calls : List (DevCall D K Cpu)) : DevState D K Cpu H W :=
  calls.foldl (call cat p) (empty m)

end DevState

end Lapis.Dev
