import Senob.Sys.SchedRuns

/-!
# What a preempted thread gets back

The timer interrupt does not hand its frame on: `schedule` neither reads nor writes the
registers of the thread that it preempts. A thread that is dispatched again is therefore
loaded with the structure that was filled when it was created, and goes on where it was
interrupted only if the frame happens to agree with this structure.
-/

namespace Senob.Sys

open Senob.Foundation

/-- The value that `esp` had when the interrupt came. Without a change of the privilege
level the CPU does not push it; it is then found above the three words that the CPU
pushed and the two that the stub pushed before `pusha`. -/
def InterruptRegisters.interruptedEsp (r : InterruptRegisters) : Word :=
  if privilege r.csm ≠ 0 then r.useresp else r.esp + 20

/-- The structure holds the interrupted registers; it has no place for `esi`. -/
structure Regs.Holds (x : Regs) (r : InterruptRegisters) : Prop where
  eip : x.eip = r.eip
  esp : x.esp = r.interruptedEsp
  eflags : x.eflags = r.eflags
  eax : x.eax = r.eax
  ebx : x.ebx = r.ebx
  ecx : x.ecx = r.ecx
  edx : x.edx = r.edx
  edi : x.edi = r.edi
  ebp : x.ebp = r.ebp

/-- The CPU has the interrupted registers. -/
structure Context.Resumes (c : Context) (r : InterruptRegisters) : Prop where
  eip : c.eip = r.eip
  esp : c.esp = r.interruptedEsp
  eflags : c.eflags = r.eflags
  eax : c.eax = r.eax
  ebx : c.ebx = r.ebx
  ecx : c.ecx = r.ecx
  edx : c.edx = r.edx
  esi : c.esi = r.esi
  edi : c.edi = r.edi
  ebp : c.ebp = r.ebp

instance (x : Regs) (r : InterruptRegisters) : Decidable (x.Holds r) :=
  decidable_of_iff (x.eip = r.eip ∧ x.esp = r.interruptedEsp ∧ x.eflags = r.eflags ∧
      x.eax = r.eax ∧ x.ebx = r.ebx ∧ x.ecx = r.ecx ∧ x.edx = r.edx ∧ x.edi = r.edi ∧
      x.ebp = r.ebp)
    ⟨fun ⟨h₁, h₂, h₃, h₄, h₅, h₆, h₇, h₈, h₉⟩ => ⟨h₁, h₂, h₃, h₄, h₅, h₆, h₇, h₈, h₉⟩,
      fun ⟨h₁, h₂, h₃, h₄, h₅, h₆, h₇, h₈, h₉⟩ => ⟨h₁, h₂, h₃, h₄, h₅, h₆, h₇, h₈, h₉⟩⟩

/-- What `switchTask` makes of a structure that holds the interrupted registers. Only a
user thread gets its stack pointer back, and `esi` is the address of the structure. -/
theorem switchTask_resumes {a : Ptr} {x : Regs} {r : InterruptRegisters} (h : x.Holds r) :
    (switchTask a x).Resumes r ↔ privilege x.cs ≠ 0 ∧ r.esi = BitVec.ofNat 32 a := by
  constructor
  · intro hresumes
    refine ⟨fun hprivilege => ?_, hresumes.esi.symm⟩
    have hesp : x.esp - 8 = x.esp := by
      have := hresumes.esp
      rwa [switchTask, if_neg (not_not.mpr hprivilege), ← h.esp] at this
    have h8 : BitVec.toNat (8 : Word) = 8 := rfl
    have := congrArg BitVec.toNat hesp
    rw [BitVec.toNat_sub, h8] at this
    omega
  · rintro ⟨hprivilege, hesi⟩
    exact ⟨h.eip, (if_pos hprivilege).trans h.esp, h.eflags, h.eax, h.ebx, h.ecx, h.edx,
      hesi.symm, h.edi, h.ebp⟩

namespace Kernel

/-- The structure passed to the last `switchTask` on the CPU and the registers that it
loaded are those of the frame. -/
def Restored (k : Kernel) (cpu : Nat) (r : InterruptRegisters) : Prop :=
  (k.regs (k.switched cpu)).Holds r ∧ (k.context cpu).Resumes r

/-- The register structure of the thread agrees with the frame beforehand, the thread is a
user thread, and `esi` is the address of the structure. -/
structure Saved (k : Kernel) (t : Ptr) (r : InterruptRegisters) : Prop where
  holds : (k.regs (k.thread t).regs).Holds r
  user : privilege (k.regs (k.thread t).regs).cs ≠ 0
  esi : r.esi = BitVec.ofNat 32 (k.thread t).regs

variable {k k' : Kernel} {cpu : Nat} {newProcess : Ptr} {b : ThreadBlocks}
  {r : InterruptRegisters}

/-- For a current thread, to be restored and to have been saved are the same. -/
theorem Loaded.restored_iff (h : k.Loaded) (hcpu : k.currentThread cpu ≠ null) :
    k.Restored cpu r ↔ k.Saved (k.currentThread cpu) r := by
  obtain ⟨hswitched, hcontext⟩ := h cpu hcpu
  rw [Restored, hcontext, hswitched]
  constructor
  · rintro ⟨hholds, hresumes⟩
    obtain ⟨huser, hesi⟩ := (switchTask_resumes hholds).mp hresumes
    exact ⟨hholds, huser, hesi⟩
  · rintro ⟨hholds, huser, hesi⟩
    exact ⟨hholds, (switchTask_resumes hholds).mpr ⟨huser, hesi⟩⟩

/-- `schedule` writes no register structure but that of the new idle thread. -/
theorem schedule_regs (h : k.schedule cpu newProcess b = some k') :
    (∀ u, u ≠ b.thread → (k'.thread u).regs = (k.thread u).regs) ∧
      ∀ a, a ≠ b.regs → k'.regs a = k.regs a := by
  obtain ⟨k₁, pid, idleProcess, next, hidle, -, -, rfl⟩ := schedule_cases h
  obtain ⟨hadded, -⟩ := initIdle_added hidle
  have hsettled : k₁.Settled (((k₁.preempt cpu).dequeueThread cpu).1.dispatch cpu next) :=
    ((k₁.preempt_settled cpu).trans (dequeueThread_requeued ..).settled).trans
      (dispatch_settled ..)
  refine ⟨fun u hu => ?_, fun a ha => ?_⟩
  · rw [hsettled.thread, hadded.thread u hu]
  · rw [hsettled.regs, hadded.regs a ha]

end Kernel

namespace SchedSession

/-- Threads keep their register structures, and these keep their contents. -/
structure KeepsRegs (s s' : SchedSession) : Prop where
  threads : s.threads ⊆ s'.threads
  blocks : s.blocks ⊆ s'.blocks
  pointer : ∀ u ∈ s.threads, (s'.kernel.thread u).regs = (s.kernel.thread u).regs
  content : ∀ a ∈ s.blocks, s'.kernel.regs a = s.kernel.regs a

variable {s s' s'' : SchedSession} {t newProcess : Ptr} {cpu : Nat} {b : ThreadBlocks}
  {k' : Kernel} {r : InterruptRegisters}

namespace KeepsRegs

theorem refl (s : SchedSession) : s.KeepsRegs s :=
  ⟨List.Subset.refl _, List.Subset.refl _, fun _ _ => rfl, fun _ _ => rfl⟩

theorem trans (h : s.KeepsRegs s') (h' : s'.KeepsRegs s'') : s.KeepsRegs s'' :=
  ⟨List.Subset.trans h.threads h'.threads, List.Subset.trans h.blocks h'.blocks,
    fun u hu => (h'.pointer u (h.threads hu)).trans (h.pointer u hu),
    fun a ha => (h'.content a (h.blocks ha)).trans (h.content a ha)⟩

theorem setKernel (h : s.kernel.Settled k') : s.KeepsRegs (s.setKernel k') :=
  ⟨List.Subset.refl _, List.Subset.refl _, fun u _ => h.thread u, fun a _ => by
    rw [setKernel_kernel, h.regs]⟩

theorem schedule (hs : s.Running) (hfresh : Fresh s.blocks (newProcess :: b.all))
    (h : s.kernel.schedule cpu newProcess b = some k') :
    s.KeepsRegs (s.addProcess newProcess b k') := by
  obtain ⟨t, ht⟩ := hs.populated
  obtain ⟨hpointer, hcontent⟩ := Kernel.schedule_regs h
  refine ⟨List.subset_cons_self .., List.subset_append_right .., fun u hu => hpointer u ?_,
    fun a ha => hcontent a ?_⟩
  · rintro rfl
    exact hfresh.unused _ (by simp) (ht.threads _ hu).1
  · rintro rfl
    exact hfresh.unused _ (by simp) ha

theorem step (hs : s.Running) {op : Op} (hop : s.enabled op) (hschedules : op.Schedules)
    (h : s.step op = some s') : s.KeepsRegs s' := by
  cases op with
  | createKernelProcess => exact hschedules.elim
  | createKernelThread => exact hschedules.elim
  | createUserProcess => exact hschedules.elim
  | fillRunqueuesFromBST => exact hschedules.elim
  | ageThreads cpu =>
      obtain rfl := Option.some.inj h
      exact setKernel (s.kernel.ageThreads_aged cpu).settled
  | schedule cpu newProcess b =>
      obtain ⟨k', hrun, rfl⟩ := Option.map_eq_some_iff.mp h
      exact schedule hs hop.2 hrun
  | apicTimerHandler cpu regs newProcess b =>
      rw [SchedSession.step] at h
      by_cases hslice : s.SliceOver cpu
      · rw [apicTimerHandler_of_sliceOver hslice, if_pos hslice] at h
        obtain ⟨k', hrun, rfl⟩ := Option.map_eq_some_iff.mp h
        have haged := (hs.tick cpu).ageThreads cpu
        have hkeeps := setKernel ((s.kernel.tick_settled cpu).trans
          ((s.kernel.tick cpu).ageThreads_aged cpu).settled)
        rw [setKernel_setKernel, setKernel_kernel] at haged
        generalize (s.kernel.tick cpu).ageThreads cpu = k at haged hkeeps hrun
        exact hkeeps.trans (schedule haged (hop.2 hslice) hrun)
      · rw [apicTimerHandler_of_not hslice, if_neg hslice, Option.map_some] at h
        obtain rfl := Option.some.inj h
        exact setKernel (s.kernel.tick_settled cpu)

theorem run (hs : s.Running) {ops : List Op} (hschedules : ∀ op ∈ ops, op.Schedules)
    (hops : Admissible SchedSession.step enabled s ops)
    (hrun : runSteps SchedSession.step s ops = some s') :
    s'.Running ∧ s.KeepsRegs s' := by
  refine runSteps_invariant (fun x : SchedSession => x.Running ∧ s.KeepsRegs x)
    (fun x op y hx hop hstep => ?_) ⟨hs, refl s⟩ (hops.and hschedules) hrun
  obtain ⟨y', hstep', hy⟩ := hx.1.step hop.1 hop.2
  obtain rfl := Option.some.inj (hstep'.symm.trans hstep)
  exact ⟨hy, hx.2.trans (step hx.1 hop.1 hop.2 hstep)⟩

end KeepsRegs

/-- In every run, a timer interrupt with the frame `r` preempts a thread. Whenever that
thread has been dispatched again, the structure passed to `switchTask` and the registers
loaded are those of `r` if and only if the structure of the thread agreed with `r` before
the interrupt. -/
theorem preempted_restored_iff {memory : Kernel} (hmemory : memory.Quiet) (block : Ptr)
    (build moves later : List Op) (hbuild : ∀ op ∈ build, op.Creates)
    (hmoves : ∀ op ∈ moves, op.Schedules) (hlater : ∀ op ∈ later, op.Schedules)
    (hops : Admissible step enabled (start memory block) (build ++ [.fillRunqueuesFromBST] ++
      moves ++ .apicTimerHandler cpu r newProcess b :: later))
    (hs : runSteps step (start memory block) (build ++ [.fillRunqueuesFromBST] ++ moves) = some s)
    (hpreempts : s.SliceOver cpu ∧ s.kernel.Preempts cpu)
    (hs' : runSteps step s (.apicTimerHandler cpu r newProcess b :: later) = some s') {c : Nat}
    (hc : s'.kernel.currentThread c = s.kernel.currentThread cpu) :
    s'.kernel.Restored c r ↔ s.kernel.Saved (s.kernel.currentThread cpu) r := by
  obtain ⟨-, s₁, hrun₁, hrunning⟩ := run_total hmemory hbuild hmoves hops.of_append
  obtain rfl := Option.some.inj (hrun₁.symm.trans hs)
  have hlater' : ∀ op ∈ Op.apicTimerHandler cpu r newProcess b :: later, op.Schedules := by
    rintro op hop
    obtain rfl | hop := List.mem_cons.mp hop
    · trivial
    · exact hlater op hop
  obtain ⟨hrunning', hkeeps⟩ := KeepsRegs.run hrunning hlater' (hops.after hs) hs'
  have hnull : s₁.kernel.currentThread cpu ≠ null := hpreempts.2.1
  obtain ⟨t, ht⟩ := hrunning.populated
  have hknown := hrunning.arranged.known _ ⟨_, Kernel.place_current hnull⟩
  have hpointer := hkeeps.pointer _ hknown
  have hcontent := hkeeps.content _ (ht.threads _ hknown).2.2.2
  rw [hrunning'.loaded.restored_iff (hc ▸ hnull), hc]
  constructor
  · rintro ⟨hholds, huser, hesi⟩
    rw [hpointer] at hholds huser hesi
    rw [hcontent] at hholds huser
    exact ⟨hholds, huser, hesi⟩
  · rintro ⟨hholds, huser, hesi⟩
    refine ⟨?_, ?_, ?_⟩
    · rwa [hpointer, hcontent]
    · rwa [hpointer, hcontent]
    · rwa [hpointer]

/-! ## A kernel thread that is interrupted -/

/-- The frame of a kernel thread that has got as far as `0xC0100010`. -/
def interruptedFrame : InterruptRegisters :=
  ⟨0, 0x10, 0, 0, 0, 0xD0001F00, 0, 0, 0, 0, 64, 2, 0xC0100010, 0x08, 0x202, 0, 0⟩

/-- A timer interrupt that allocates nothing. -/
def quietTick : Op := .apicTimerHandler 0 interruptedFrame null ⟨null, null, null⟩

def oneProcess : List Op :=
  [.createKernelProcess 0xD0000100 0xC0100000 ⟨0xD0000200, 0xD0001000, 0xD0000300⟩]

/-- The fifth tick dispatches the thread, and four more do not interrupt it. -/
def firstSlice : List Op :=
  List.replicate 4 quietTick ++
    [.apicTimerHandler 0 interruptedFrame 0xD0010000 ⟨0xD0010100, 0xD0011000, 0xD0010200⟩] ++
    List.replicate 4 quietTick

/-- The tenth tick preempts the thread and dispatches it again. -/
def preemptingTick : Op :=
  .apicTimerHandler 0 interruptedFrame 0xD0020000 ⟨0xD0020100, 0xD0021000, 0xD0020200⟩

theorem oneProcess_creates : ∀ op ∈ oneProcess, op.Creates := by simp [oneProcess, Op.Creates]

theorem firstSlice_schedules : ∀ op ∈ firstSlice, op.Schedules := by
  simp [firstSlice, quietTick, Op.Schedules, List.replicate]

theorem preemption_admissible : Admissible step enabled (start .initial 0xD0000000)
    (oneProcess ++ [.fillRunqueuesFromBST] ++ firstSlice ++ [preemptingTick]) := by
  decide +kernel

/-- The thread is preempted by the run, and dispatched again at once. -/
theorem preemption_run : ∃ s s',
    runSteps step (start .initial 0xD0000000)
      (oneProcess ++ [.fillRunqueuesFromBST] ++ firstSlice) = some s ∧
    runSteps step s [preemptingTick] = some s' ∧ (s.SliceOver 0 ∧ s.kernel.Preempts 0) ∧
    s'.kernel.currentThread 0 = s.kernel.currentThread 0 ∧
    ¬ (s'.kernel.regs (s'.kernel.switched 0)).Holds interruptedFrame := by
  have hfacts : ∀ s ∈ runSteps step (start .initial 0xD0000000)
        (oneProcess ++ [.fillRunqueuesFromBST] ++ firstSlice),
      (s.SliceOver 0 ∧ s.kernel.Preempts 0) ∧ ∀ s' ∈ runSteps step s [preemptingTick],
        s'.kernel.currentThread 0 = s.kernel.currentThread 0 ∧
          ¬ (s'.kernel.regs (s'.kernel.switched 0)).Holds interruptedFrame := by
    decide +kernel
  have hadmissible := preemption_admissible
  rw [List.append_assoc] at hadmissible
  obtain ⟨-, s', hrun, -⟩ := run_total initial_quiet oneProcess_creates (fun op hop => by
    obtain hop | hop := List.mem_append.mp hop
    · exact firstSlice_schedules op hop
    · obtain rfl := List.mem_singleton.mp hop
      trivial) hadmissible
  rw [← List.append_assoc, runSteps_append] at hrun
  obtain ⟨s, hs, hs'⟩ := Option.bind_eq_some_iff.mp hrun
  obtain ⟨hpreempts, hlast⟩ := hfacts s hs
  exact ⟨s, s', hs, hs', hpreempts, hlast s' hs'⟩

/-- The thread goes on at its entry point, not where it was interrupted. -/
theorem preempted_not_restored :
    ¬ ∀ (memory : Kernel) (block cpu newProcess c : Nat) (b : ThreadBlocks)
        (r : InterruptRegisters) (build moves later : List Op) (s s' : SchedSession),
      memory.Quiet → (∀ op ∈ build, op.Creates) → (∀ op ∈ moves, op.Schedules) →
      (∀ op ∈ later, op.Schedules) →
      Admissible step enabled (start memory block) (build ++ [.fillRunqueuesFromBST] ++
        moves ++ .apicTimerHandler cpu r newProcess b :: later) →
      runSteps step (start memory block) (build ++ [.fillRunqueuesFromBST] ++ moves) = some s →
      s.SliceOver cpu ∧ s.kernel.Preempts cpu →
      runSteps step s (.apicTimerHandler cpu r newProcess b :: later) = some s' →
      s'.kernel.currentThread c = s.kernel.currentThread cpu → s'.kernel.Restored c r := by
  intro hclaim
  obtain ⟨s, s', hs, hs', hpreempts, hc, hnot⟩ := preemption_run
  exact hnot (hclaim .initial 0xD0000000 0 _ 0 _ interruptedFrame oneProcess firstSlice [] s s'
    initial_quiet oneProcess_creates firstSlice_schedules nofun preemption_admissible hs
    hpreempts hs' hc).1

/-- On that run, the thread was not saved either. -/
theorem preempted_restored_iff_tenTicks : ∃ s s',
    runSteps step (start .initial 0xD0000000)
      (oneProcess ++ [.fillRunqueuesFromBST] ++ firstSlice) = some s ∧
    runSteps step s [preemptingTick] = some s' ∧
    (s'.kernel.Restored 0 interruptedFrame ↔
      s.kernel.Saved (s.kernel.currentThread 0) interruptedFrame) := by
  obtain ⟨s, s', hs, hs', hpreempts, hc, -⟩ := preemption_run
  exact ⟨s, s', hs, hs', preempted_restored_iff initial_quiet 0xD0000000 oneProcess firstSlice []
    oneProcess_creates firstSlice_schedules nofun preemption_admissible hs hpreempts hs' hc⟩

end SchedSession

end Senob.Sys
