import Senob.Sys.SchedRuns

/-!
# Timer interrupts

The local APIC of a CPU delivers the interrupt of its timer and then holds further ones
back until `eoi` is written. `irq_handler` looks the handler up and calls it.
`apicTimerHandler` calls `eoi` at its end, which it does not reach when `schedule` switches
to another thread: `switchTask` leaves by `iret` and never returns to its caller.
-/

namespace Senob.Sys

open Senob.Foundation

/-- The kernel with the devices that take part in an interrupt. -/
structure Machine where
  kernel : Kernel
  /-- The local APICs that hold the interrupt of the timer back. -/
  inService : Nat → Bool
  /-- The bytes that were written to I/O ports. -/
  ports : List (BitVec 16 × BitVec 8)

/-- How a handler gives up control: it returns to its caller, or `switchTask` enters another
thread. -/
inductive Exit where
  | returned (m : Machine)
  | switched (m : Machine)

/-- A handler with the CPU that it runs on, and with the blocks that `kmalloc` returns. -/
abbrev Handler := Machine → Nat → InterruptRegisters → Ptr → ThreadBlocks → Option Exit

namespace Machine

variable (m : Machine)

/-- The local APIC delivers an interrupt of its timer. -/
def deliver (cpu : Nat) : Machine := { m with inService := Function.update m.inService cpu true }

/-- `lapicWrite(EOI, 0x00)`. -/
def eoi (cpu : Nat) : Machine := { m with inService := Function.update m.inService cpu false }

def outb (port : BitVec 16) (value : BitVec 8) : Machine :=
  { m with ports := (port, value) :: m.ports }

def apicTimerHandler : Handler := fun m cpu _regs newProcess b =>
  let k := m.kernel.tick cpu
  if timeSliceTicks ≤ k.ticksSinceLastSwitch cpu then
    ((k.ageThreads cpu).schedule cpu newProcess b).map fun k => .switched { m with kernel := k }
  else some (.returned ({ m with kernel := k }.eoi cpu))

/-- The end of `irq_handler`, where the two PICs are written to. -/
def finishIrq (regs : InterruptRegisters) : Machine :=
  if 15 ≤ regs.interruptNumber then (m.outb 0x20 0x20).outb 0xA0 0x20 else m

def irqHandler (vectorHandlers : Nat → Option Handler) : Handler := fun m cpu regs newProcess b =>
  match vectorHandlers (regs.interruptNumber - 32).toNat with
  | none => some (.returned (m.finishIrq regs))
  | some handler => (handler m cpu regs newProcess b).map fun
      | .returned m => .returned (m.finishIrq regs)
      | .switched m => .switched m

/-- `vector_handlers` after `setup_vectors`, where the other entries do not matter. -/
def setupVectors (others : Nat → Option Handler) : Nat → Option Handler :=
  Function.update others 32 (some apicTimerHandler)

end Machine

/-- The machine with what was allocated. -/
structure TimerSession where
  machine : Machine
  processes : List Ptr
  threads : List Ptr
  blocks : List Ptr

namespace TimerSession

/-- What the scheduler sees of the session. -/
def sched (s : TimerSession) : SchedSession :=
  ⟨s.machine.kernel, s.processes, s.threads, s.blocks⟩

/-- No interrupt of a timer was delivered yet. -/
def ofSched (s : SchedSession) : TimerSession :=
  ⟨⟨s.kernel, fun _ => false, []⟩, s.processes, s.threads, s.blocks⟩

/-- The timer of a CPU runs out. -/
structure Tick where
  cpu : Nat
  regs : InterruptRegisters
  newProcess : Ptr
  b : ThreadBlocks

variable (others : Nat → Option Handler)

/-- What the interrupt does up to the point where a thread runs again. -/
def step (s : TimerSession) (tick : Tick) : Option TimerSession :=
  if s.machine.inService tick.cpu then some s
  else (Machine.irqHandler (Machine.setupVectors others) (s.machine.deliver tick.cpu) tick.cpu
    tick.regs tick.newProcess tick.b).map fun
      | .returned m => { s with machine := m }
      | .switched m => ⟨m, tick.newProcess :: s.processes, tick.b.thread :: s.threads,
          tick.newProcess :: tick.b.all ++ s.blocks⟩

/-- The stub of the vector has pushed its number, and `kmalloc` returns fresh blocks where a
new idle process is created. -/
def enabled (s : TimerSession) (tick : Tick) : Prop :=
  tick.regs.interruptNumber = 64 ∧ tick.cpu < maxCpus ∧
    (s.sched.SliceOver tick.cpu → Fresh s.blocks (tick.newProcess :: tick.b.all))

instance (s : TimerSession) (tick : Tick) : Decidable (s.enabled tick) :=
  inferInstanceAs (Decidable (_ ∧ _ ∧ (_ → _)))

/-- No thread runs with its timer held back. -/
def Unblocked (s : TimerSession) : Prop := ∀ cpu, s.machine.inService cpu = false

/-- The interrupt comes before the time slice is over. -/
def InSlice (s : TimerSession) (tick : Tick) : Prop := ¬ s.sched.SliceOver tick.cpu

variable {others} {s : TimerSession} {tick : Tick}

/-! ## One interrupt -/

theorem irqHandler_eq (h : tick.regs.interruptNumber = 64) (m : Machine) :
    Machine.irqHandler (Machine.setupVectors others) m tick.cpu tick.regs tick.newProcess tick.b =
      (Machine.apicTimerHandler m tick.cpu tick.regs tick.newProcess tick.b).map fun
        | .returned m => .returned (m.finishIrq tick.regs)
        | .switched m => .switched m := by
  have hvector : Machine.setupVectors others (tick.regs.interruptNumber - 32).toNat =
      some Machine.apicTimerHandler := by
    rw [h]
    exact Function.update_self ..
  rw [Machine.irqHandler, hvector]

theorem finishIrq_inService (m : Machine) (regs : InterruptRegisters) :
    (m.finishIrq regs).inService = m.inService := by
  unfold Machine.finishIrq
  split <;> rfl

theorem finishIrq_kernel (m : Machine) (regs : InterruptRegisters) :
    (m.finishIrq regs).kernel = m.kernel := by
  unfold Machine.finishIrq
  split <;> rfl

theorem tick_ticksSinceLastSwitch (k : Kernel) (cpu : Nat) :
    (k.tick cpu).ticksSinceLastSwitch cpu = k.ticksSinceLastSwitch cpu + 1 :=
  Function.update_self ..

/-- Within the slice the handler returns, and the interrupt is acknowledged. -/
theorem step_inSlice (others : Nat → Option Handler) (hs : s.Unblocked) (h : s.enabled tick)
    (hslice : s.InSlice tick) :
    ∃ m, s.step others tick = some { s with machine := m } ∧
      m.kernel = s.machine.kernel.tick tick.cpu ∧ m.inService = s.machine.inService := by
  have hhandler : Machine.apicTimerHandler (s.machine.deliver tick.cpu) tick.cpu tick.regs
      tick.newProcess tick.b = some (.returned ({ s.machine.deliver tick.cpu with
        kernel := s.machine.kernel.tick tick.cpu }.eoi tick.cpu)) := by
    unfold Machine.apicTimerHandler
    dsimp only
    rw [tick_ticksSinceLastSwitch]
    exact if_neg hslice
  generalize hm : { s.machine.deliver tick.cpu with
    kernel := s.machine.kernel.tick tick.cpu }.eoi tick.cpu = m at hhandler
  refine ⟨m.finishIrq tick.regs, ?_, ?_, ?_⟩
  · rw [step, hs tick.cpu, if_neg Bool.false_ne_true, irqHandler_eq h.1, hhandler,
      Option.map_some, Option.map_some]
  · rw [finishIrq_kernel, ← hm]
    rfl
  · rw [finishIrq_inService, ← hm]
    funext c
    by_cases hc : c = tick.cpu
    · rw [hc, hs tick.cpu]
      exact Function.update_self ..
    · exact (Function.update_of_ne hc ..).trans (Function.update_of_ne hc ..)

/-- At the end of the slice `schedule` enters another thread before the interrupt is
acknowledged. -/
theorem step_sliceOver (others : Nat → Option Handler) (hs : s.Unblocked)
    (hrunning : s.sched.Running) (h : s.enabled tick) (hslice : ¬ s.InSlice tick) :
    ∃ s', s.step others tick = some s' ∧ s'.machine.inService tick.cpu = true := by
  have hover : s.sched.SliceOver tick.cpu := not_not.mp hslice
  have haged := (hrunning.tick tick.cpu).ageThreads tick.cpu
  rw [SchedSession.setKernel_setKernel, SchedSession.setKernel_kernel] at haged
  obtain ⟨k', hrun, -⟩ := haged.schedule tick.cpu (h.2.2 hover)
  rw [SchedSession.setKernel_kernel] at hrun
  have hhandler : Machine.apicTimerHandler (s.machine.deliver tick.cpu) tick.cpu tick.regs
      tick.newProcess tick.b =
        some (.switched { s.machine.deliver tick.cpu with kernel := k' }) := by
    unfold Machine.apicTimerHandler
    dsimp only
    rw [tick_ticksSinceLastSwitch]
    refine (if_pos hover).trans ?_
    exact congrArg (Option.map _) hrun
  refine ⟨⟨{ s.machine.deliver tick.cpu with kernel := k' }, tick.newProcess :: s.processes,
    tick.b.thread :: s.threads, tick.newProcess :: tick.b.all ++ s.blocks⟩, ?_, ?_⟩
  · rw [step, hs tick.cpu, if_neg Bool.false_ne_true, irqHandler_eq h.1, hhandler,
      Option.map_some, Option.map_some]
  · exact Function.update_self ..

/-! ## Runs -/

/-- The scheduler is in order, and no timer is held back. -/
structure Ticking (s : TimerSession) : Prop where
  running : s.sched.Running
  unblocked : s.Unblocked

theorem Ticking.step (others : Nat → Option Handler) (h : s.Ticking) (htick : s.enabled tick)
    (hslice : s.InSlice tick) :
    ∃ s', s.step others tick = some s' ∧ s'.Ticking := by
  obtain ⟨m, hstep, hkernel, hinService⟩ :=
    step_inSlice others h.unblocked htick hslice
  refine ⟨_, hstep, ?_, fun c => ?_⟩
  · have hticked := h.running.tick tick.cpu
    rw [SchedSession.setKernel] at hticked
    rw [sched, hkernel]
    exact hticked
  · rw [hinService]
    exact h.unblocked c

/-- Once the tree is built and the queues are filled, no thread ever runs with its timer held
back if and only if no timer interrupt finds the time slice over. -/
theorem always_unblocked_iff {memory : Kernel} (hmemory : memory.Quiet) (block : Ptr)
    (build : List SchedSession.Op) (hbuild : ∀ op ∈ build, op.Creates)
    (hops : Admissible SchedSession.step SchedSession.enabled (SchedSession.start memory block)
      (build ++ [.fillRunqueuesFromBST]))
    (s : SchedSession)
    (hrun : runSteps SchedSession.step (SchedSession.start memory block)
      (build ++ [.fillRunqueuesFromBST]) = some s)
    (others : Nat → Option Handler) (ticks : List Tick)
    (hticks : Admissible (step others) enabled (ofSched s) ticks) :
    Always (step others) Unblocked (ofSched s) ticks ↔
      Admissible (step others) InSlice (ofSched s) ticks := by
  obtain ⟨-, s', hrun', hrunning⟩ := SchedSession.build_total hmemory hbuild hops
  obtain rfl := Option.some.inj (hrun.symm.trans hrun')
  have hstart : (ofSched s).Ticking := ⟨hrunning, fun _ => rfl⟩
  refine always_iff_admissible Ticking (fun s hs => hs.unblocked)
    (fun s tick s' hs htick hslice hstep => ?_) (fun s tick hs htick hslice => ?_) hstart hticks
  · obtain ⟨s'', hstep', hs'⟩ := hs.step others htick hslice
    obtain rfl := Option.some.inj (hstep'.symm.trans hstep)
    exact hs'
  · obtain ⟨s', hstep, hinService⟩ := step_sliceOver others hs.unblocked hs.running htick
      hslice
    refine ⟨s', hstep, fun hunblocked => ?_⟩
    exact Bool.false_ne_true ((hunblocked tick.cpu).symm.trans hinService)

/-- The frame of the interrupt 64 in the idle loop of the kernel. -/
def timerFrame : InterruptRegisters :=
  ⟨0, 0x10, 0, 0, 0, 0, 0, 0, 0, 0, 64, 2, 0xC0100000, 0x08, 0x202, 0, 0⟩

/-- Five interrupts of the timer of one CPU. -/
def fiveTicks : List Tick :=
  List.replicate 5 ⟨0, timerFrame, 0xD0010000, ⟨0xD0010100, 0xD0011000, 0xD0010200⟩⟩

/-- A kernel process, whose thread is queued. -/
def oneThread : List SchedSession.Op :=
  [.createKernelProcess 0xD0000100 0xC0100000 ⟨0xD0000200, 0xD0001000, 0xD0000300⟩]

theorem fiveTicks_run :
    ∃ s, runSteps SchedSession.step (SchedSession.start .initial 0xD0000000)
        (oneThread ++ [.fillRunqueuesFromBST]) = some s ∧
      Admissible (step fun _ => none) enabled (ofSched s) fiveTicks ∧
      ∃ s', runSteps (step fun _ => none) (ofSched s) fiveTicks = some s' ∧
        s'.machine.inService 0 = true := by
  have hrun : (runSteps SchedSession.step (SchedSession.start .initial 0xD0000000)
      (oneThread ++ [.fillRunqueuesFromBST])).any (fun s => decide
        (Admissible (step fun _ => none) enabled (ofSched s) fiveTicks) &&
        (runSteps (step fun _ => none) (ofSched s) fiveTicks).any fun s' =>
          s'.machine.inService 0) = true := by
    decide +kernel
  obtain ⟨s, hs, hboth⟩ := (Option.any_eq_true _ _).mp hrun
  obtain ⟨hticks, hlast⟩ := Bool.and_eq_true_iff.mp hboth
  obtain ⟨s', hs', hinService⟩ := (Option.any_eq_true _ _).mp hlast
  exact ⟨s, hs, of_decide_eq_true hticks, s', hs', hinService⟩

theorem always_unblocked_fiveTicks :
    ∃ s, runSteps SchedSession.step (SchedSession.start .initial 0xD0000000)
        (oneThread ++ [.fillRunqueuesFromBST]) = some s ∧
      (Always (step fun _ => none) Unblocked (ofSched s) fiveTicks ↔
        Admissible (step fun _ => none) InSlice (ofSched s) fiveTicks) := by
  obtain ⟨s, hrun, hticks, -⟩ := fiveTicks_run
  exact ⟨s, hrun, always_unblocked_iff SchedSession.initial_quiet 0xD0000000 oneThread
    (by simp [oneThread, SchedSession.Op.Creates]) (by decide +kernel) s hrun (fun _ => none)
    fiveTicks hticks⟩

/-- The fifth interrupt switches to a thread that runs with its timer held back. -/
theorem not_always_unblocked :
    ¬ ∀ (memory : Kernel) (block : Ptr) (build : List SchedSession.Op) (s : SchedSession)
      (others : Nat → Option Handler) (ticks : List Tick), memory.Quiet →
      (∀ op ∈ build, op.Creates) →
      Admissible SchedSession.step SchedSession.enabled (SchedSession.start memory block)
        (build ++ [.fillRunqueuesFromBST]) →
      runSteps SchedSession.step (SchedSession.start memory block)
        (build ++ [.fillRunqueuesFromBST]) = some s →
      Admissible (step others) enabled (ofSched s) ticks →
      Always (step others) Unblocked (ofSched s) ticks := by
  intro hclaim
  obtain ⟨s, hrun, hticks, s', hrun', hinService⟩ := fiveTicks_run
  have halways := hclaim .initial 0xD0000000 oneThread s (fun _ => none) fiveTicks
    SchedSession.initial_quiet (by simp [oneThread, SchedSession.Op.Creates]) (by decide +kernel)
    hrun hticks
  exact Bool.false_ne_true ((halways.last hrun' 0).symm.trans hinService)

end TimerSession

end Senob.Sys
