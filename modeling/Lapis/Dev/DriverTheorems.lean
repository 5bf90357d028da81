/-
Lapis.Dev.DriverTheorems — which devices are bound does not depend on the order of the calls.

`Accounted` says of one device that its driver, if it has one, is registered and matches it, and that
the calls of `init` for the device are exactly those the binding made; `Settled` adds that a device
without a driver matches none of the registered ones. `driver_try_bind` settles the device it is
called for and leaves the others as they were, so a registration, which breaks `Settled` for the
devices the new driver matches, restores it in its loop. `binding_order_independent` reads the result
off the two lists, whose members are those of the calls in whatever order.

The lists of the source are linked through the devices and drivers themselves, and a device that is
added twice closes its list to a ring: for the source the result is about sequences that introduce
every device and every driver once.
-/
import Lapis.Dev.Driver

namespace Lapis.Dev

open Function (update)
open Arch

variable {D K Cpu H W : Type}

namespace DevState

variable {cat : Catalog D K Cpu H W} {p : Platform Cpu} {c : Cpu} {s s' : DevState D K Cpu H W}
  {d e : D} {k : K}

def Added (calls : List (DevCall D K Cpu)) (d : D) : Prop := ∃ c, .deviceAdd c d ∈ calls

def Registered (calls : List (DevCall D K Cpu)) (k : K) : Prop := ∃ c, .register c k ∈ calls

theorem added_cons (op : DevCall D K Cpu) (calls : List (DevCall D K Cpu)) :
    Added (op :: calls) d ↔ Added calls d ∨ Added [op] d := by
  simp only [Added, List.mem_cons, List.not_mem_nil, or_false, exists_or]
  exact or_comm

theorem registered_cons (op : DevCall D K Cpu) (calls : List (DevCall D K Cpu)) :
    Registered (op :: calls) k ↔ Registered calls k ∨ Registered [op] k := by
  simp only [Registered, List.mem_cons, List.not_mem_nil, or_false, exists_or]
  exact or_comm

variable [DecidableEq D]

/-- The calls of `init` for a device, the last one first. -/
def initsFor (s : DevState D K Cpu H W) (d : D) : List (K × D) := s.inits.filter fun x => x.2 = d

/-- The calls of `init` a binding makes. -/
def initCalls (cat : Catalog D K Cpu H W) (d : D) : Option K → List (K × D)
  | none => []
  | some k => if (cat.driver k).init.isSome then [(k, d)] else []

structure Accounted (cat : Catalog D K Cpu H W) (s : DevState D K Cpu H W) (d : D) : Prop where
  bound : ∀ k, s.driver d = some k → k ∈ s.driverList ∧ cat.matches k d = true
  inits : s.initsFor d = initCalls cat d (s.driver d)

structure Settled (cat : Catalog D K Cpu H W) (s : DevState D K Cpu H W) (d : D) : Prop
    extends Accounted cat s d where
  unbound : s.driver d = none → ∀ k ∈ s.driverList, cat.matches k d = false

/-- `s'` has the same lists as `s`, and the same binding of every device but `d`. -/
structure BindsOnly (d : D) (s s' : DevState D K Cpu H W) : Prop where
  devices : s'.globalDeviceList = s.globalDeviceList
  drivers : s'.driverList = s.driverList
  driver : ∀ e, e ≠ d → s'.driver e = s.driver e
  inits : ∀ e, e ≠ d → s'.initsFor e = s.initsFor e

theorem BindsOnly.refl (d : D) (s : DevState D K Cpu H W) : BindsOnly d s s :=
  ⟨rfl, rfl, fun _ _ => rfl, fun _ _ => rfl⟩

theorem BindsOnly.accounted (h : BindsOnly d s s') (he : e ≠ d) (ha : Accounted cat s e) :
    Accounted cat s' e := by
  refine ⟨fun k hk => ?_, ?_⟩
  · rw [h.drivers]
    exact ha.bound k (h.driver e he ▸ hk)
  · rw [h.inits e he, h.driver e he]
    exact ha.inits

theorem BindsOnly.settled (h : BindsOnly d s s') (he : e ≠ d) (hs : Settled cat s e) : Settled cat s' e := by
  refine ⟨h.accounted he hs.toAccounted, fun hnone => ?_⟩
  rw [h.drivers]
  exact hs.unbound (h.driver e he ▸ hnone)

/-- Every device of the list is settled, and nothing has been done to another. -/
structure Inv (cat : Catalog D K Cpu H W) (s : DevState D K Cpu H W) : Prop where
  settled : ∀ d ∈ s.globalDeviceList, Settled cat s d
  unknown : ∀ d, d ∉ s.globalDeviceList → s.driver d = none ∧ s.initsFor d = []

theorem Inv.accounted (h : Inv cat s) (d : D) : Accounted cat s d := by
  by_cases hd : d ∈ s.globalDeviceList
  · exact (h.settled d hd).toAccounted
  · obtain ⟨hnone, hinits⟩ := h.unknown d hd
    refine ⟨fun k hk => absurd (hnone.symm.trans hk) (Option.some_ne_none k).symm, ?_⟩
    rw [hinits, hnone]
    rfl

theorem empty_inv (cat : Catalog D K Cpu H W) (m : Machine D Cpu H W) : Inv cat (empty m) :=
  ⟨fun _ hd => absurd hd List.not_mem_nil, fun _ _ => ⟨rfl, rfl⟩⟩

/-! ## Binding one device -/

variable [DecidableEq Cpu]

/-- Requesting interrupts changes the machine only. -/
theorem bind_eq (cat : Catalog D K Cpu H W) (p : Platform Cpu) (c : Cpu) (s : DevState D K Cpu H W)
    (d : D) (k : K) : ∃ m, s.bind cat p c d k =
      { s with
        driver := update s.driver d (some k)
        machine := m
        inits := initCalls cat d (some k) ++ s.inits } := by
  unfold bind initCalls
  dsimp only
  cases (cat.driver k).init with
  | none => cases (cat.driver k).irqHandler <;> exact ⟨_, rfl⟩
  | some init => cases (cat.driver k).irqHandler <;> exact ⟨_, rfl⟩

theorem bind_bindsOnly : BindsOnly d s (s.bind cat p c d k) := by
  obtain ⟨m, heq⟩ := bind_eq cat p c s d k
  rw [heq]
  refine ⟨rfl, rfl, fun e he => Function.update_of_ne he .., fun e he => ?_⟩
  unfold initsFor initCalls
  dsimp only
  split
  · simp [he.symm]
  · rfl

theorem driverTryBind_bindsOnly (cat : Catalog D K Cpu H W) (p : Platform Cpu) (c : Cpu)
    (s : DevState D K Cpu H W) (d : D) : BindsOnly d s (s.driverTryBind cat p c d) := by
  unfold driverTryBind
  cases s.driver d with
  | some k => exact .refl d s
  | none =>
    cases s.driverList.find? fun k => cat.matches k d with
    | none => exact .refl d s
    | some k => exact bind_bindsOnly

/-- The device is settled by the call for it. -/
theorem driverTryBind_settled (h : Accounted cat s d) : Settled cat (s.driverTryBind cat p c d) d := by
  unfold driverTryBind
  cases hd : s.driver d with
  | some k => exact ⟨h, fun hc => absurd (hd.symm.trans hc) (Option.some_ne_none k)⟩
  | none =>
  cases hfind : s.driverList.find? fun k => cat.matches k d with
  | none =>
    refine ⟨h, fun _ k hk => ?_⟩
    simpa using List.find?_eq_none.mp hfind k hk
  | some k =>
  have hinits : s.initsFor d = [] := by rw [h.inits, hd]; rfl
  obtain ⟨m, heq⟩ := bind_eq cat p c s d k
  have hself : update s.driver d (some k) d = some k := Function.update_self ..
  dsimp only
  rw [heq]
  refine ⟨⟨fun k' hk' => ?_, ?_⟩, fun hc => absurd (hself.symm.trans hc) (Option.some_ne_none k)⟩
  · cases hself.symm.trans hk'
    have hmatch := List.find?_some hfind
    exact ⟨List.mem_of_find?_eq_some hfind, hmatch⟩
  change ((initCalls cat d (some k) ++ s.inits).filter fun x => x.2 = d) =
    initCalls cat d (update s.driver d (some k) d)
  rw [List.filter_append, show (s.inits.filter fun x => x.2 = d) = [] from hinits, hself,
    List.append_nil]
  unfold initCalls
  split <;> simp

theorem driverTryBind_accounted (d : D) (h : Accounted cat s e) :
    Accounted cat (s.driverTryBind cat p c d) e := by
  by_cases he : e = d
  · subst he
    exact (driverTryBind_settled h).toAccounted
  · exact (driverTryBind_bindsOnly cat p c s d).accounted he h

/-! ## The loop of a registration -/

/-- The devices the loop has come by are settled, and those settled before stay so. -/
theorem loop_settled (L : List D) (h : Accounted cat s e) (hmem : e ∈ L ∨ Settled cat s e) :
    Settled cat (L.foldl (fun s d => s.driverTryBind cat p c d) s) e := by
  induction L generalizing s with
  | nil => exact hmem.resolve_left List.not_mem_nil
  | cons d L ih =>
    refine ih (driverTryBind_accounted d h) ?_
    by_cases he : e = d
    · subst he
      exact .inr (driverTryBind_settled h)
    · rcases hmem with hmem | hsettled
      · exact .inl ((List.mem_cons.mp hmem).resolve_left he)
      · exact .inr ((driverTryBind_bindsOnly cat p c s d).settled he hsettled)

theorem loop_lists (L : List D) :
    (L.foldl (fun s d => s.driverTryBind cat p c d) s).globalDeviceList = s.globalDeviceList ∧
      (L.foldl (fun s d => s.driverTryBind cat p c d) s).driverList = s.driverList := by
  induction L generalizing s with
  | nil => exact ⟨rfl, rfl⟩
  | cons d L ih =>
    have hbinds := driverTryBind_bindsOnly cat p c s d
    exact ⟨ih.1.trans hbinds.devices, ih.2.trans hbinds.drivers⟩

/-! ## Sequences of calls -/

theorem loop_unknown (cat : Catalog D K Cpu H W) (p : Platform Cpu) (c : Cpu)
    (s : DevState D K Cpu H W) (L : List D) (he : e ∉ L) :
    (L.foldl (fun s d => s.driverTryBind cat p c d) s).driver e = s.driver e ∧
      (L.foldl (fun s d => s.driverTryBind cat p c d) s).initsFor e = s.initsFor e := by
  induction L generalizing s with
  | nil => exact ⟨rfl, rfl⟩
  | cons d L ih =>
    obtain ⟨hd, hL⟩ := List.ne_and_not_mem_of_not_mem_cons he
    have hbinds := driverTryBind_bindsOnly cat p c s d
    exact ⟨(ih _ hL).1.trans (hbinds.driver e hd), (ih _ hL).2.trans (hbinds.inits e hd)⟩

theorem driverRegister_inv (h : Inv cat s) (k : K) : Inv cat (s.driverRegister cat p c k) := by
  unfold driverRegister
  -- The new driver is on the list; no device has met it yet.
  have haccounted : ∀ d, Accounted cat { s with driverList := k :: s.driverList } d := fun d =>
    ⟨fun k' hk' => ⟨List.mem_cons_of_mem k ((h.accounted d).bound k' hk').1,
      ((h.accounted d).bound k' hk').2⟩, (h.accounted d).inits⟩
  refine ⟨fun d hd => ?_, fun d hd => ?_⟩
  · rw [(loop_lists _).1] at hd
    exact loop_settled _ (haccounted d) (.inl hd)
  · rw [(loop_lists _).1] at hd
    have hsame := loop_unknown cat p c { s with driverList := k :: s.driverList } s.globalDeviceList hd
    exact ⟨hsame.1.trans (h.unknown d hd).1, hsame.2.trans (h.unknown d hd).2⟩

theorem busDeviceAdd_inv (h : Inv cat s) (d : D) : Inv cat (s.busDeviceAdd cat p c d) := by
  unfold busDeviceAdd
  have hbinds := driverTryBind_bindsOnly cat p c { s with globalDeviceList := d :: s.globalDeviceList } d
  have haccounted : Accounted cat { s with globalDeviceList := d :: s.globalDeviceList } d :=
    ⟨(h.accounted d).bound, (h.accounted d).inits⟩
  refine ⟨fun e he => ?_, fun e he => ?_⟩
  · rw [hbinds.devices] at he
    by_cases hed : e = d
    · subst hed
      exact driverTryBind_settled haccounted
    · have hold := h.settled e ((List.mem_cons.mp he).resolve_left hed)
      exact hbinds.settled hed ⟨⟨hold.bound, hold.inits⟩, hold.unbound⟩
  · rw [hbinds.devices] at he
    obtain ⟨hed, he⟩ := List.ne_and_not_mem_of_not_mem_cons he
    exact ⟨(hbinds.driver e hed).trans (h.unknown e he).1, (hbinds.inits e hed).trans (h.unknown e he).2⟩

theorem call_inv (h : Inv cat s) (op : DevCall D K Cpu) : Inv cat (s.call cat p op) := by
  cases op with
  | deviceAdd c d => exact busDeviceAdd_inv h d
  | register c k => exact driverRegister_inv h k

theorem call_devices (op : DevCall D K Cpu) :
    d ∈ (s.call cat p op).globalDeviceList ↔ Added [op] d ∨ d ∈ s.globalDeviceList := by
  cases op with
  | deviceAdd c e =>
    change d ∈ (driverTryBind cat p c { s with globalDeviceList := e :: s.globalDeviceList }
      e).globalDeviceList ↔ _
    rw [(driverTryBind_bindsOnly ..).devices]
    simp [Added]
  | register c k =>
    unfold call driverRegister
    rw [(loop_lists _).1]
    simp [Added]

theorem call_drivers (op : DevCall D K Cpu) :
    k ∈ (s.call cat p op).driverList ↔ Registered [op] k ∨ k ∈ s.driverList := by
  cases op with
  | deviceAdd c e =>
    change k ∈ (driverTryBind cat p c { s with globalDeviceList := e :: s.globalDeviceList }
      e).driverList ↔ _
    rw [(driverTryBind_bindsOnly ..).drivers]
    simp [Registered]
  | register c k =>
    unfold call driverRegister
    rw [(loop_lists _).2]
    simp [Registered]

/-- A sequence of calls keeps the invariant, and the lists grow by what it introduces. -/
theorem calls_inv (calls : List (DevCall D K Cpu)) (h : Inv cat s) : Inv cat (calls.foldl (call cat p) s) ∧
      (∀ d, d ∈ (calls.foldl (call cat p) s).globalDeviceList ↔ Added calls d ∨ d ∈ s.globalDeviceList) ∧
      ∀ k, k ∈ (calls.foldl (call cat p) s).driverList ↔ Registered calls k ∨ k ∈ s.driverList := by
  induction calls generalizing s with
  | nil => exact ⟨h, fun d => by simp [Added], fun k => by simp [Registered]⟩
  | cons op calls ih =>
    obtain ⟨hinv, hdevices, hdrivers⟩ := ih (call_inv (p := p) h op)
    refine ⟨hinv, fun d => ?_, fun k => ?_⟩
    · rw [List.foldl_cons, hdevices, call_devices, added_cons op calls, or_assoc]
    · rw [List.foldl_cons, hdrivers, call_drivers, registered_cons op calls, or_assoc]

theorem run_inv (cat : Catalog D K Cpu H W) (p : Platform Cpu) (m : Machine D Cpu H W)
    (calls : List (DevCall D K Cpu)) :
    Inv cat (run cat p m calls) ∧ (∀ d, d ∈ (run cat p m calls).globalDeviceList ↔ Added calls d) ∧
      ∀ k, k ∈ (run cat p m calls).driverList ↔ Registered calls k := by
  obtain ⟨hinv, hdevices, hdrivers⟩ := calls_inv (p := p) calls (empty_inv cat m)
  refine ⟨hinv, fun d => (hdevices d).trans ?_, fun k => (hdrivers k).trans ?_⟩
  · exact or_iff_left List.not_mem_nil
  · exact or_iff_left List.not_mem_nil

/-- After any sequence of calls a device that was added is bound exactly if a registered driver
matches it. -/
theorem run_bound_iff (cat : Catalog D K Cpu H W) (p : Platform Cpu) (m : Machine D Cpu H W)
    (calls : List (DevCall D K Cpu)) (d : D) :
    (∃ k, (run cat p m calls).driver d = some k) ↔
      Added calls d ∧ ∃ k, Registered calls k ∧ cat.matches k d = true := by
  obtain ⟨hinv, hdevices, hdrivers⟩ := run_inv cat p m calls
  constructor
  · rintro ⟨k, hk⟩
    have hbound := (hinv.accounted d).bound k hk
    refine ⟨(hdevices d).mp ?_, k, (hdrivers k).mp hbound.1, hbound.2⟩
    by_contra hd
    exact Option.some_ne_none k (hk.symm.trans (hinv.unknown d hd).1)
  · rintro ⟨hadded, k, hregistered, hmatch⟩
    by_contra hnone
    have hunbound := (hinv.settled d ((hdevices d).mpr hadded)).unbound
      (Option.eq_none_iff_forall_ne_some.mpr fun k hk => hnone ⟨k, hk⟩) k ((hdrivers k).mpr hregistered)
    exact Bool.false_ne_true (hunbound.symm.trans hmatch)

/-- Whatever the order of the calls: a device is bound exactly if a registered driver matches it, to
one that does, with one call of the driver's `init`; so two sequences that introduce the same devices
and drivers bind the same devices. -/
theorem binding_order_independent (cat : Catalog D K Cpu H W) (p : Platform Cpu)
    (m : Machine D Cpu H W) (calls : List (DevCall D K Cpu)) :
    (∀ d, Added calls d → ((∃ k, (run cat p m calls).driver d = some k) ↔
        ∃ k, Registered calls k ∧ cat.matches k d = true) ∧
      ∀ k, (run cat p m calls).driver d = some k → Registered calls k ∧ cat.matches k d = true ∧
        (run cat p m calls).initsFor d = if (cat.driver k).init.isSome then [(k, d)] else []) ∧
    ∀ (m' : Machine D Cpu H W) (calls' : List (DevCall D K Cpu)),
      (∀ d, Added calls' d ↔ Added calls d) → (∀ k, Registered calls' k ↔ Registered calls k) →
      ∀ d, (∃ k, (run cat p m' calls').driver d = some k) ↔ ∃ k, (run cat p m calls).driver d = some k := by
  refine ⟨fun d hadded => ⟨?_, fun k hk => ?_⟩, fun m' calls' hadded hregistered d => ?_⟩
  · rw [run_bound_iff, and_iff_right hadded]
  · obtain ⟨hinv, -, hdrivers⟩ := run_inv cat p m calls
    have haccounted := hinv.accounted d
    obtain ⟨hmem, hmatch⟩ := haccounted.bound k hk
    refine ⟨(hdrivers k).mp hmem, hmatch, ?_⟩
    rw [haccounted.inits, hk]
    rfl
  · rw [run_bound_iff, run_bound_iff, hadded]
    simp only [hregistered]

/-- A device with a vendor, and a driver for everything of that vendor. -/
def oneEach : Catalog Unit Unit Unit Unit Unit where
  identity _ := ⟨0x8086, 0x100E, 2, 0, 0⟩
  addr _ := 0x1000
  driver _ := ⟨[⟨0x8086, 0, 0, 0, 0⟩], some fun _ m => m, none⟩

def bare : Platform Unit := ⟨[], [], fun _ => 0, fun _ => 0, fun _ => 0, 0⟩

def quiet : Machine Unit Unit Unit Unit where
  irqs _ := []
  irq := ⟨fun _ => .zero, fun _ => 0, fun _ => 0, fun _ _ => 0, fun _ _ => ⟨0, none, none⟩⟩
  rest := ()

theorem binding_order_independent_two :
    (∃ k, (run oneEach bare quiet [.deviceAdd () (), .register () ()]).driver () = some k) ∧
      ∃ k, (run oneEach bare quiet [.register () (), .deviceAdd () ()]).driver () = some k := by
  have h := binding_order_independent oneEach bare quiet [.deviceAdd () (), .register () ()]
  have hfirst := (h.1 () ⟨(), List.mem_cons_self⟩).1.mpr
    ⟨(), ⟨(), List.mem_cons_of_mem _ List.mem_cons_self⟩, by decide⟩
  refine ⟨hfirst, (h.2 quiet [.register () (), .deviceAdd () ()] (fun d => ?_) (fun k => ?_) ()).mpr hfirst⟩
  · simp [Added]
  · simp [Registered]

end DevState

end Lapis.Dev
