/-
Lapis.Sched.FpuTheorems — each thread finds its own FPU registers.

`contents` is what a thread has saved: its region, or zero before its first use. The invariant says who
owns the registers: while `TS` is clear the current thread does, and its `dirty` flag is set; a thread
whose flag is clear has saved what it should see. A switch saves and gives the registers up, the trap
takes them.

`thread_fork_from_syscall` copies the saved state. When the parent owns the registers its region is
older than they are, and the child starts with that, its flag set on top; so the result
(`fpu_registers_isolated`) is about runs that fork only from threads that have saved their registers.
-/
import Lapis.Sched.Fpu

namespace Lapis.Sched

open Function

variable {n : Nat} {T : Type} [DecidableEq T]

/-- The registers a thread that does not own them will find. -/
def FpuState.contents (f : FpuState) : FpuRegion :=
  if f.used then f.region else SchedState.zeroRegion

namespace SchedState

variable {s : SchedState n T} {c : Fin n} {t : T}

/-! ## The parts of the state -/

theorem taskSwitched_or (cr0 : UInt64) : ((cr0 ||| cr0Ts) &&& cr0Ts) ≠ 0 := by
  have h : (cr0 ||| cr0Ts) &&& cr0Ts = cr0Ts := by
    apply UInt64.toBitVec_inj.mp
    apply BitVec.eq_of_getLsbD_eq
    intro i hi
    simp only [UInt64.toBitVec_and, UInt64.toBitVec_or, BitVec.getLsbD_and, BitVec.getLsbD_or]
    cases cr0.toBitVec.getLsbD i <;> cases cr0Ts.toBitVec.getLsbD i <;> rfl
  rw [h]
  decide

theorem taskSwitched_and (cr0 : UInt64) : ((cr0 &&& ~~~cr0Ts) &&& cr0Ts) = 0 := by
  apply UInt64.toBitVec_inj.mp
  apply BitVec.eq_of_getLsbD_eq
  intro i hi
  simp only [UInt64.toBitVec_and, UInt64.toBitVec_not, BitVec.getLsbD_and, BitVec.getLsbD_not]
  cases cr0.toBitVec.getLsbD i <;> cases cr0Ts.toBitVec.getLsbD i <;> simp

/-- What the FPU of a CPU and the threads' saved states are. -/
structure FpuPart (T : Type) where
  fpu : T → FpuState
  current : T
  taskSwitched : Bool
  regs : FpuRegion

def fpuPart (s : SchedState n T) (c : Fin n) : FpuPart T :=
  ⟨fun t => (s.threads t).fpu, s.current c, s.taskSwitched c, (s.cpus c).fpuRegs⟩

omit [DecidableEq T] in
theorem fpuPart_modCpu {f : Cpu T → Cpu T} (hcur : (f (s.cpus c)).currentThread = (s.cpus c).currentThread)
    (hcr0 : (f (s.cpus c)).cr0 = (s.cpus c).cr0) (hregs : (f (s.cpus c)).fpuRegs = (s.cpus c).fpuRegs) :
    (s.modCpu c f).fpuPart c = s.fpuPart c := by
  simp only [fpuPart, modCpu, current, taskSwitched, update_self, hcur, hcr0, hregs]

omit [DecidableEq T] in
theorem fpuPart_modRq (f : Runqueue T → Runqueue T) : (s.modRq c f).fpuPart c = s.fpuPart c := rfl

theorem fpuPart_replace (f : Thread T → Thread T) : (s.modThread t f).fpuPart c =
    { s.fpuPart c with fpu := update (s.fpuPart c).fpu t (f (s.threads t)).fpu } := by
  have hfpu : ∀ u, ((s.modThread t f).threads u).fpu =
      update (s.fpuPart c).fpu t (f (s.threads t)).fpu u := by
    intro u
    by_cases hu : u = t
    · subst hu
      simp [modThread]
    · simp [modThread, fpuPart, hu]
  unfold fpuPart
  simp only [hfpu]
  rfl

theorem fpuPart_modThread {f : Thread T → Thread T} (hf : (f (s.threads t)).fpu = (s.threads t).fpu) :
    (s.modThread t f).fpuPart c = s.fpuPart c := by
  have hfpu : (s.threads t).fpu = (s.fpuPart c).fpu t := rfl
  rw [fpuPart_replace, hf, hfpu, update_eq_self]

theorem fpuPart_setFpu (f : FpuState → FpuState) : (s.setFpu t f).fpuPart c =
    { s.fpuPart c with fpu := update (s.fpuPart c).fpu t (f ((s.fpuPart c).fpu t)) } :=
  fpuPart_replace _

omit [DecidableEq T] in
theorem fpuPart_fxrstor : (s.fxrstor c t).fpuPart c =
    { s.fpuPart c with regs := ((s.fpuPart c).fpu t).region } := by
  simp only [fpuPart, fxrstor, modCpu, current, taskSwitched, update_self]

/-- The saved state of a thread that gives the registers up. -/
def FpuPart.save (p : FpuPart T) : T → FpuState :=
  if (p.fpu p.current).dirty then
    update p.fpu p.current { p.fpu p.current with region := p.regs, dirty := false }
  else p.fpu

theorem fpuPart_doSwitch (tsc : UInt64) (next : T) : (s.doSwitch tsc c (s.current c) next).fpuPart c =
      ⟨(s.fpuPart c).save, next, true, (s.fpuPart c).regs⟩ := by
  have hsave : (s.fpuSave c (s.current c)).fpuPart c = { s.fpuPart c with fpu := (s.fpuPart c).save } := by
    unfold fpuSave FpuPart.save
    by_cases hdirty : (s.threads (s.current c)).fpu.dirty = true
    · have hpart : ((s.fpuPart c).fpu (s.fpuPart c).current).dirty = true := hdirty
      rw [if_pos hdirty, if_pos hpart, fpuPart_replace]
      rfl
    · have hpart : ¬ ((s.fpuPart c).fpu (s.fpuPart c).current).dirty = true := hdirty
      rw [if_neg hdirty, if_neg hpart]
  unfold doSwitch contextSwitch switchTss
  dsimp only
  rw [fpuPart_modCpu rfl rfl rfl, fpuPart_modThread rfl, fpuPart_modCpu rfl rfl rfl,
    fpuPart_modCpu rfl rfl rfl, fpuPart_modThread rfl, fpuPart_modRq]
  generalize s.fpuSave c (s.current c) = t at hsave
  have hts : ((t.cpus c).cr0 ||| cr0Ts) &&& cr0Ts ≠ 0 := taskSwitched_or _
  have hfpu : (fun u => (t.threads u).fpu) = (s.fpuPart c).save := congrArg FpuPart.fpu hsave
  have hregs : (t.cpus c).fpuRegs = (s.fpuPart c).regs := congrArg FpuPart.regs hsave
  rw [← hfpu, ← hregs]
  unfold fpuPart fpuLazyDisable modCpu current taskSwitched
  simp only [update_self, ne_eq, hts, not_false_eq_true, decide_true]

theorem fpuPart_nmHandler : (s.nmHandler c).fpuPart c =
    ⟨update (s.fpuPart c).fpu (s.current c) ⟨(s.threads (s.current c)).fpu.contents, true, true⟩,
      s.current c, false, (s.threads (s.current c)).fpu.contents⟩ := by
  have hts : ((s.cpus c).cr0 &&& ~~~cr0Ts) &&& cr0Ts = 0 := taskSwitched_and _
  -- The state with `TS` clear.
  generalize ht : s.modCpu c (fun cpu => { cpu with cr0 := cpu.cr0 &&& ~~~cr0Ts }) = t
  have hpart : t.fpuPart c = { s.fpuPart c with taskSwitched := false } := by
    rw [← ht]
    simp [fpuPart, modCpu, current, taskSwitched, hts]
  have hcur : t.current c = s.current c := congrArg FpuPart.current hpart
  have hthreads : t.threads = s.threads := by rw [← ht]; rfl
  unfold nmHandler FpuState.contents
  rw [ht]
  dsimp only
  rw [hcur, hthreads]
  by_cases hused : (s.threads (s.current c)).fpu.used = true
  · have hfpu : ∀ d : Bool, (⟨(s.threads (s.current c)).fpu.region, true, d⟩ : FpuState) =
        { (s.threads (s.current c)).fpu with dirty := d } := fun d => by rw [← hused]
    rw [if_neg (by simp [hused]), if_pos hused, fpuPart_setFpu, fpuPart_fxrstor, hpart, hfpu]
    rfl
  · rw [if_pos (by simpa using hused), if_neg hused, fpuPart_setFpu, fpuPart_fxrstor, fpuPart_setFpu, hpart]
    simp [fpuPart]

end SchedState

/-! ## Who owns the registers -/

namespace SchedState.FpuPart

/-- While `TS` is clear the registers are the current thread's; every other thread has saved what it
should see. -/
structure Owned (p : FpuPart T) (live : T → Bool) (view : T → FpuRegion) : Prop where
  running : live p.current = true
  flag : (p.fpu p.current).dirty = !p.taskSwitched
  others : ∀ t, live t = true → t ≠ p.current → (p.fpu t).dirty = false
  owner : p.taskSwitched = false → (p.fpu p.current).used = true ∧ p.regs = view p.current
  saved : ∀ t, live t = true → (p.fpu t).dirty = false → (p.fpu t).contents = view t

variable {p : FpuPart T} {live : T → Bool} {view : T → FpuRegion} {t : T}

section

variable (h : p.Owned live view)

include h

/-- After the trap the current thread owns the registers. -/
theorem Owned.trap (hts : p.taskSwitched = true) :
    Owned ⟨update p.fpu p.current ⟨(p.fpu p.current).contents, true, true⟩, p.current, false,
      (p.fpu p.current).contents⟩ live view where
  running := h.running
  flag := by simp
  others t ht hne := by
    dsimp only at hne ⊢
    rw [update_of_ne hne]
    exact h.others t ht hne
  owner _ := by
    have hclean : (p.fpu p.current).dirty = false := by rw [h.flag, hts]; rfl
    exact ⟨by simp, h.saved p.current h.running hclean⟩
  saved t ht := by
    dsimp only
    by_cases hne : t = p.current
    · subst hne
      simp
    · rw [update_of_ne hne]
      exact h.saved t ht

/-- An instruction of the owner. -/
theorem Owned.instr (hts : p.taskSwitched = false) (f : FpuRegion → FpuRegion) :
    Owned { p with regs := f p.regs } live (update view p.current (f (view p.current))) where
  running := h.running
  flag := h.flag
  others := h.others
  owner _ := ⟨(h.owner hts).1, by rw [update_self, (h.owner hts).2]⟩
  saved t ht hclean := by
    have hne : t ≠ p.current := by
      rintro rfl
      have hdirty := h.flag
      rw [hts, hclean] at hdirty
      cases hdirty
    rw [update_of_ne hne]
    exact h.saved t ht hclean

/-- Every thread has saved what it should see once the current one gives the registers up. -/
theorem Owned.save_spec (ht : live t = true) : (p.save t).dirty = false ∧ (p.save t).contents = view t := by
  unfold save
  by_cases hdirty : (p.fpu p.current).dirty = true
  · have hts : p.taskSwitched = false := by
      have hflag := h.flag
      rw [hdirty] at hflag
      cases hc : p.taskSwitched with
      | false => rfl
      | true => rw [hc] at hflag; cases hflag
    obtain ⟨hused, hregs⟩ := h.owner hts
    rw [if_pos hdirty]
    by_cases hne : t = p.current
    · subst hne
      rw [update_self]
      exact ⟨rfl, by rw [FpuState.contents, if_pos hused, hregs]⟩
    · rw [update_of_ne hne]
      exact ⟨h.others t ht hne, h.saved t ht (h.others t ht hne)⟩
  · rw [if_neg hdirty]
    have hclean : (p.fpu t).dirty = false := by
      by_cases hne : t = p.current
      · exact hne ▸ Bool.eq_false_iff.mpr hdirty
      · exact h.others t ht hne
    exact ⟨hclean, h.saved t ht hclean⟩

theorem Owned.switch (ht : live t = true) : Owned ⟨p.save, t, true, p.regs⟩ live view where
  running := ht
  flag := (h.save_spec ht).1
  others _ hu _ := (h.save_spec hu).1
  owner hc := by cases hc
  saved _ hu _ := (h.save_spec hu).2

/-- A new thread that starts with what it should see, saved. -/
theorem Owned.add (ht : live t = false) {f : FpuState} {w : FpuRegion}
    (hclean : f.dirty = false) (hw : f.contents = w) :
    Owned { p with fpu := update p.fpu t f } (update live t true) (update view t w) := by
  have hcur : p.current ≠ t := by
    rintro rfl
    simp [h.running] at ht
  refine ⟨?_, ?_, fun u hu hne => ?_, fun hts => ?_, fun u hu hu' => ?_⟩ <;> dsimp only at *
  · rw [update_of_ne hcur]
    exact h.running
  · rw [update_of_ne hcur]
    exact h.flag
  · by_cases hut : u = t
    · rwa [hut, update_self]
    · rw [update_of_ne hut] at hu ⊢
      exact h.others u hu hne
  · rw [update_of_ne hcur, update_of_ne hcur]
    exact h.owner hts
  · by_cases hut : u = t
    · rwa [hut, update_self, update_self]
    · rw [update_of_ne hut] at hu hu' ⊢
      rw [update_of_ne hut]
      exact h.saved u hu hu'

end

end SchedState.FpuPart

/-! ## Runs -/

namespace FpuRun

open SchedState

variable {c : Fin n} {r r' r₀ : FpuRun n T}

def Inv (c : Fin n) (r : FpuRun n T) : Prop := (r.sched.fpuPart c).Owned r.live r.view

/-- Before an instruction is executed the current thread owns the registers. -/
theorem Inv.ready (h : r.Inv c) : ((r.sched.fpuReady c).fpuPart c).Owned r.live r.view ∧
      ((r.sched.fpuReady c).fpuPart c).taskSwitched = false ∧
      ((r.sched.fpuReady c).fpuPart c).current = r.sched.current c := by
  unfold fpuReady
  cases hts : r.sched.taskSwitched c with
  | false => exact ⟨h, hts, rfl⟩
  | true =>
    rw [if_pos rfl, fpuPart_nmHandler]
    exact ⟨SchedState.FpuPart.Owned.trap h hts, rfl, rfl⟩

theorem Inv.found_eq (h : r.Inv c) : r.found c = r.view (r.sched.current c) := by
  obtain ⟨howned, hts, hcur⟩ := h.ready
  exact (howned.owner hts).2.trans (congrArg r.view hcur)

theorem step_inv {fuel : Nat} {op : FpuOp T} (h : r.Inv c) (hok : Possible c op r ∧ ForksSaved op r)
    (hstep : step c fuel op r = some r') : r'.Inv c := by
  cases op with
  | create t kstack =>
    cases hstep
    unfold Inv threadCreate
    rw [fpuPart_replace]
    exact h.add hok.1 rfl rfl
  | fork parent child kstack =>
    cases hstep
    unfold Inv threadForkFromSyscall
    rw [fpuPart_replace]
    exact h.add hok.1.2 hok.2 (h.saved parent hok.1.1 hok.2)
  | switch tsc next =>
    cases hstep
    unfold Inv
    rw [fpuPart_doSwitch]
    exact h.switch hok.1.1
  | instr f =>
  cases hstep
  obtain ⟨howned, hts, hcur⟩ := h.ready
  have hinstr := howned.instr hts f
  rw [hcur] at hinstr
  have hpart : (r.sched.fpuInstr f c).fpuPart c =
      { (r.sched.fpuReady c).fpuPart c with regs := f ((r.sched.fpuReady c).fpuPart c).regs } := by
    simp only [fpuPart, fpuInstr, modCpu, current, taskSwitched, update_self]
  unfold Inv
  rw [hpart]
  dsimp only
  rwa [hcur]

omit [DecidableEq T] in
theorem Start.inv (h : r.Start c) : r.Inv c where
  running := (h.live _).mpr rfl
  flag := by
    rw [show (r.sched.fpuPart c).fpu (r.sched.fpuPart c).current = _ from h.fpu]
    exact (congrArg (!·) h.taskSwitched).symm
  others t ht hne := absurd ((h.live t).mp ht) hne
  owner hts := absurd (h.taskSwitched.symm.trans hts) (by decide)
  saved t ht _ := by
    obtain rfl := (h.live t).mp ht
    rw [show (r.sched.fpuPart c).fpu (r.sched.current c) = _ from h.fpu, h.view]
    rfl

/-- Along a run that forks only from threads that have saved their registers, every FPU instruction
finds the registers its thread should see. -/
theorem fpu_registers_isolated (hstart : r₀.Start c)
    (hrun : Lib.Run (step c) (fun op r => Possible c op r ∧ ForksSaved op r) r₀ r) :
    r.found c = r.view (r.sched.current c) := by
  have hinv : r.Inv c := hrun.invariant hstart.inv fun _ _ _ _ h hok hstep => step_inv h hok hstep
  exact hinv.found_eq

/-! ## A child of a thread that uses the FPU -/

/-- One CPU, and its first thread. -/
def first : FpuRun 1 Bool where
  sched := { SchedState.unbooted 1 false with
    cpus := fun _ => { ((SchedState.unbooted 1 false).cpus 0) with cr0 := cr0Ts } }
  live t := !t
  view _ := zeroRegion

theorem first_start : first.Start 0 := by
  refine ⟨by decide, fun t => ?_, rfl, rfl⟩
  cases t <;> decide

/-- Fills the registers with ones. -/
def fill (_ : FpuRegion) : FpuRegion := fun _ => 1

/-- The first thread fills its registers and forks; its child runs. -/
def forked : FpuRun 1 Bool :=
  let used : FpuRun 1 Bool :=
    { first with sched := first.sched.fpuInstr fill 0, view := update first.view false (fill zeroRegion) }
  let split : FpuRun 1 Bool :=
    { sched := used.sched.threadForkFromSyscall false true 0
      live := update used.live true true
      view := update used.view true (used.view false) }
  { split with sched := split.sched.doSwitch 0 0 (split.sched.current 0) true }

/-- The child finds zeros where its parent had ones. -/
theorem fork_loses_registers : ∃ r, first.Start 0 ∧ Lib.Run (step 0) (Possible 0) first r ∧
    r.found 0 ≠ r.view (r.sched.current 0) := by
  refine ⟨forked, first_start, ?_, ?_⟩
  · have hused := @Lib.Run.next _ _ (step 0) (Possible 0) first _ _ (.instr fill) 0 .init trivial rfl
    have hsplit := @Lib.Run.next _ _ (step 0) (Possible 0) first _ _ (.fork false true 0) 0 hused
      ⟨rfl, rfl⟩ rfl
    exact @Lib.Run.next _ _ (step 0) (Possible 0) first _ _ (.switch 0 true) 0 hsplit
      ⟨rfl, by decide⟩ rfl
  · intro hc
    have := congrFun hc 0
    revert this
    decide

/-- The first thread forks before it uses the FPU, and its child runs. -/
theorem fpu_registers_isolated_fork : ∃ r, Lib.Run (step 0)
    (fun op r => Possible 0 op r ∧ ForksSaved op r) first r ∧ r.sched.current 0 = true ∧
    r.found 0 = r.view true := by
  have hsplit := @Lib.Run.next _ _ (step 0) (fun op r => Possible 0 op r ∧ ForksSaved op r) first _ _
    (.fork false true 0) 0 .init ⟨⟨rfl, rfl⟩, rfl⟩ rfl
  have hrun := @Lib.Run.next _ _ (step 0) (fun op r => Possible 0 op r ∧ ForksSaved op r) first _ _
    (.switch 0 true) 0 hsplit ⟨⟨rfl, by decide⟩, trivial⟩ rfl
  exact ⟨_, hrun, rfl, fpu_registers_isolated first_start hrun⟩

end FpuRun

end Lapis.Sched
