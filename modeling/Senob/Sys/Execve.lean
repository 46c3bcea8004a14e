import Senob.Sys.SchedRuns

/-!
# The two ways into `switchTask`

`schedule` writes down which thread it switches to: the current thread of the CPU, the
states of both threads and the stack pointer in the task state segment. `execve` also ends
in `switchTask`, for the first thread of a process that it has created.
-/

namespace Senob.Sys

open Senob.Foundation

namespace Kernel

variable {k k' : Kernel} {p u next : Ptr} {cpu : Nat} {b : ThreadBlocks} {threads : List Ptr}

/-- The CPU executes `switchTask(regs)`. -/
def enter (k : Kernel) (cpu : Nat) (regs : Ptr) : Kernel :=
  { k with
    switched := Function.update k.switched cpu regs
    context := Function.update k.context cpu (switchTask regs (k.regs regs)) }

/-- `execve` on the CPU `cpu`, where `mem_alloc_page_dir` returned `pageDirectory`. Only the
file name is used, and what is loaded from the file is in the memory of the new process. -/
def execve (k : Kernel) (cpu : Nat) (newProcess pageDirectory : Ptr) (b : ThreadBlocks) :
    Option Kernel := do
  let k ← k.createUserProcess newProcess pageDirectory b
  return k.enter cpu (k.thread (k.tree.proc newProcess).headThread).regs

/-- What the scheduler has written down for the CPU is about the thread whose registers the
CPU has loaded. -/
structure InStep (k : Kernel) (threads : List Ptr) (cpu : Nat) : Prop where
  created : k.currentThread cpu ∈ threads
  loaded : (k.thread (k.currentThread cpu)).regs = k.switched cpu
  unique : ∀ u ∈ threads, (k.thread u).regs = k.switched cpu → u = k.currentThread cpu
  context : k.context cpu = switchTask (k.switched cpu) (k.regs (k.switched cpu))
  state : (k.thread (k.currentThread cpu)).state = .running
  alone : ∀ u ∈ threads, (k.thread u).state = .running →
    u = k.currentThread cpu ∨ ∃ c, c ≠ cpu ∧ k.currentThread c = u
  esp0 : k.tssEsp0 cpu = (k.thread (k.currentThread cpu)).kstack.esp0

/-! ## Kernel stacks -/

/-- The stack pointers of the CPUs and the stacks of the threads are the same. -/
structure SameStacks (k k' : Kernel) : Prop where
  tssEsp0 : k'.tssEsp0 = k.tssEsp0
  kstack : ∀ u, (k'.thread u).kstack = (k.thread u).kstack

theorem SameStacks.trans {k'' : Kernel} (h : k.SameStacks k') (h' : k'.SameStacks k'') :
    k.SameStacks k'' :=
  ⟨h'.tssEsp0.trans h.tssEsp0, fun u => (h'.kstack u).trans (h.kstack u)⟩

theorem Requeued.sameStacks (h : k.Requeued k') : k.SameStacks k' := by
  obtain ⟨_, _, rfl⟩ := h
  exact ⟨rfl, fun _ => rfl⟩

theorem preempt_sameStacks (k : Kernel) (cpu : Nat) : k.SameStacks (k.preempt cpu) := by
  have hkstack := preempt_apply Thread.kstack (fun _ _ => rfl) (fun _ _ => rfl) k cpu
  obtain ⟨_, _, _, heq⟩ := k.preempt_eq cpu
  rw [heq] at hkstack ⊢
  exact ⟨rfl, hkstack⟩

theorem ageThreads_sameStacks (k : Kernel) (cpu : Nat) : k.SameStacks (k.ageThreads cpu) := by
  unfold ageThreads
  refine List.foldlRecOn _ _ ⟨rfl, fun _ => rfl⟩ fun k' hk' prio _ => ?_
  refine List.foldlRecOn _ _ hk' fun k'' hk'' i _ => hk''.trans ⟨rfl, ?_⟩
  apply modifyThread_apply
  split <;> rfl

theorem createThread_tssEsp0 (segmentSelector cs eip esp : Word) :
    (k.createThread p b segmentSelector cs eip esp).tssEsp0 = k.tssEsp0 := by
  unfold createThread appendThread
  dsimp only
  split <;> rfl

theorem createKernelProcess_tssEsp0 {function : Word}
    (h : k.createKernelProcess p function b = some k') : k'.tssEsp0 = k.tssEsp0 := by
  obtain ⟨tree, -, rfl⟩ := Option.map_eq_some_iff.mp h
  refine (createThread_tssEsp0 ..).trans ?_
  rw [prepareProcess_eq]

/-! ## The old thread and the next one -/

/-- A running current thread is the only one whose state is written. -/
theorem preempt_running (h : ((k.preempt cpu).thread u).state = .running) :
    (k.thread u).state = .running ∧ (k.Preempts cpu → u ≠ k.currentThread cpu) := by
  by_cases hpreempts : k.Preempts cpu
  · rw [preempt_of hpreempts, (enqueueThread_requeued ..).thread] at h
    have hne : u ≠ k.currentThread cpu := by
      rintro rfl
      rw [demoted_state] at h
      exact nomatch h
    rw [demoted_thread_of_ne hne] at h
    exact ⟨h, fun _ => hne⟩
  · rw [preempt_of_not hpreempts] at h
    exact ⟨h, fun h' => absurd h' hpreempts⟩

theorem dispatch_running (h : ((k.dispatch cpu next).thread u).state = .running) :
    u = next ∨ (k.thread u).state = .running := by
  by_cases hu : u = next
  · exact .inl hu
  · rw [dispatch_thread_of_ne hu] at h
    exact .inr h

theorem dispatch_currentThread : (k.dispatch cpu next).currentThread cpu = next :=
  Function.update_self ..

theorem dispatch_currentThread_of_ne {c : Nat} (h : c ≠ cpu) :
    (k.dispatch cpu next).currentThread c = k.currentThread c := Function.update_of_ne h ..

theorem dispatch_switched_of_ne {c : Nat} (h : c ≠ cpu) :
    (k.dispatch cpu next).switched c = k.switched c := Function.update_of_ne h ..

theorem dispatch_kstack (k : Kernel) (cpu : Nat) (next u : Ptr) :
    ((k.dispatch cpu next).thread u).kstack = (k.thread u).kstack :=
  modifyThread_apply k next (fun x => { x with waitTicks := 0, state := .running })
    Thread.kstack rfl u

theorem dispatch_tssEsp0 : (k.dispatch cpu next).tssEsp0 cpu = (k.thread next).kstack.esp0 := by
  rw [← dispatch_kstack k cpu next next]
  exact Function.update_self ..

theorem dispatch_tssEsp0_of_ne {c : Nat} (h : c ≠ cpu) :
    (k.dispatch cpu next).tssEsp0 c = k.tssEsp0 c := Function.update_of_ne h ..

/-- Every running one of the threads is the current one of a CPU. -/
def OnCPU (k : Kernel) (threads : List Ptr) : Prop :=
  ∀ u ∈ threads, (k.thread u).state = .running → ∃ c, k.currentThread c = u

/-- The thread that leaves the CPU stops running, and the one that enters it starts. -/
theorem OnCPU.switch (h : k.OnCPU threads) (hnull : ∀ u ∈ threads, u ≠ null) (cpu : Nat)
    (next : Ptr) : (((k.preempt cpu).dequeueThread cpu).1.dispatch cpu next).OnCPU threads := by
  intro u hu hstate
  by_cases hnext : u = next
  · exact ⟨cpu, hnext ▸ dispatch_currentThread⟩
  have hstill := (dispatch_running hstate).resolve_left hnext
  rw [(dequeueThread_requeued ..).thread] at hstill
  obtain ⟨hrunning, hother⟩ := preempt_running hstill
  obtain ⟨c, rfl⟩ := h u hu hrunning
  have hc : c ≠ cpu := by
    rintro rfl
    exact hother ⟨hnull _ hu, hrunning⟩ rfl
  refine ⟨c, (dispatch_currentThread_of_ne hc).trans ?_⟩
  rw [(dequeueThread_requeued ..).sameCPUs.currentThread,
    (k.preempt_sameCPUs cpu).currentThread]

end Kernel

namespace SchedSession

variable {s : SchedSession} {t : RBTree Ptr} {newProcess u : Ptr} {cpu : Nat} {b : ThreadBlocks}
  {k' : Kernel}

/-! ## Registers of threads -/

/-- No two threads share a register structure. -/
def Distinct (s : SchedSession) : Prop :=
  ∀ u ∈ s.threads, ∀ v ∈ s.threads, (s.kernel.thread u).regs = (s.kernel.thread v).regs → u = v

theorem Distinct.congr (h : s.Distinct)
    (hregs : ∀ u, (k'.thread u).regs = (s.kernel.thread u).regs) : (s.setKernel k').Distinct := by
  intro u hu v hv heq
  rw [setKernel_kernel, hregs, hregs] at heq
  exact h u hu v hv heq

/-- One more thread was created, which waits to be run. -/
structure Enrolled (s : SchedSession) (b : ThreadBlocks) (s' : SchedSession) : Prop where
  threads : s'.threads = b.thread :: s.threads
  scheduler : s.kernel.SameScheduler s'.kernel
  regs : ∀ u ∈ s.threads, (s'.kernel.thread u).regs = (s.kernel.thread u).regs
  state : ∀ u ∈ s.threads, (s'.kernel.thread u).state = (s.kernel.thread u).state
  newRegs : (s'.kernel.thread b.thread).regs = b.regs
  newState : (s'.kernel.thread b.thread).state = .runnable

/-- The new register structure is none of those in use. -/
theorem Enrolled.distinct {s' : SchedSession} (h : s.Enrolled b s') (hdistinct : s.Distinct)
    (ht : s.Populated t) (hregs : b.regs ∉ s.blocks) : s'.Distinct := by
  have hnew : ∀ v ∈ s.threads, (s.kernel.thread v).regs ≠ b.regs := by
    intro v hv heq
    exact hregs (heq ▸ (ht.threads v hv).2.2.2)
  unfold Distinct
  rw [h.threads]
  intro v hv w hw heq
  rw [List.mem_cons] at hv hw
  obtain rfl | hv := hv
  · obtain rfl | hw := hw
    · rfl
    · rw [h.newRegs, h.regs w hw] at heq
      exact absurd heq.symm (hnew w hw)
  · obtain rfl | hw := hw
    · rw [h.newRegs, h.regs v hv] at heq
      exact absurd heq (hnew v hv)
    · rw [h.regs v hv, h.regs w hw] at heq
      exact hdistinct v hv w hw heq

theorem Populated.thread_ne (h : s.Populated t) {a : Ptr} (ha : a ∉ s.blocks)
    (hu : u ∈ s.threads) : u ≠ a := by
  rintro rfl
  exact ha (h.threads u hu).1

theorem addProcess_enrolled (h : s.Populated t) (hthread : b.thread ∉ s.blocks)
    (hadded : s.kernel.ProcessAdded b k') (hborn : k'.Newborn newProcess b) :
    s.Enrolled b (s.addProcess newProcess b k') := by
  have hother : ∀ u ∈ s.threads, k'.thread u = s.kernel.thread u := fun u hu =>
    hadded.thread u (h.thread_ne hthread hu)
  exact ⟨rfl, hadded.scheduler, fun u hu => congrArg Thread.regs (hother u hu),
    fun u hu => congrArg Thread.state (hother u hu), hborn.regs, hborn.state⟩

theorem addThread_enrolled (h : s.Populated t) (hthread : b.thread ∉ s.blocks) {p : Ptr}
    (hadded : s.kernel.ThreadAdded p b k') (hborn : k'.Newborn p b) :
    s.Enrolled b (s.addThread b k') := by
  refine ⟨rfl, hadded.scheduler, fun u hu => ?_, fun u hu => ?_, hborn.regs, hborn.state⟩
  · rw [addThread_kernel, hadded.other u (h.thread_ne hthread hu)]
    split <;> rfl
  · rw [addThread_kernel, hadded.other u (h.thread_ne hthread hu)]
    split <;> rfl

/-! ## Before anything is scheduled -/

/-- While the tree is built, every thread waits to be run. -/
structure Waiting (s : SchedSession) (t : RBTree Ptr) : Prop extends s.Built t where
  distinct : s.Distinct
  state : ∀ u ∈ s.threads, (s.kernel.thread u).state = .runnable
  switched : ∀ c, s.kernel.switched c = null

theorem Enrolled.waiting {s' : SchedSession} {t' : RBTree Ptr} (h : s.Enrolled b s')
    (ht : s.Waiting t) (hbuilt : s'.Built t') (hregs : b.regs ∉ s.blocks) : s'.Waiting t' := by
  refine ⟨hbuilt, h.distinct ht.distinct ht.toPopulated hregs, ?_, fun c => ?_⟩
  · rw [h.threads]
    intro u hu
    obtain rfl | hu := List.mem_cons.mp hu
    · exact h.newState
    · exact (h.state u hu).trans (ht.state u hu)
  · rw [h.scheduler.switched]
    exact ht.switched c

theorem Waiting.addProcess {create : Kernel → Kernel} (h : s.Waiting t) (pageDirectory : Ptr)
    (hcreate : Kernel.CreatesThread newProcess b create)
    (hfresh : Fresh s.blocks (newProcess :: b.all)) :
    ∃ k' t', s.kernel.createProcess newProcess pageDirectory create = some k' ∧
      (s.addProcess newProcess b k').Waiting t' := by
  obtain ⟨k', t', hrun, hbuilt⟩ := h.toBuilt.addProcess pageDirectory hcreate hfresh
  obtain ⟨hadded, hborn⟩ := Kernel.createProcess_added hcreate hrun
  have hthread := hfresh.unused b.thread (by simp)
  have hregs := hfresh.unused b.regs (by simp)
  exact ⟨k', t', hrun,
    (addProcess_enrolled h.toPopulated hthread hadded hborn).waiting h hbuilt hregs⟩

theorem Waiting.addThread {create : Kernel → Kernel} {p : Ptr} (h : s.Waiting t)
    (hcreate : Kernel.CreatesThread p b create) (hp : p ∈ s.processes)
    (hfresh : Fresh s.blocks b.all) : (s.addThread b (create s.kernel)).Waiting t := by
  have hthread := hfresh.unused b.thread (by simp)
  have hregs := hfresh.unused b.regs (by simp)
  have henrolled := addThread_enrolled h.toPopulated hthread (hcreate.added s.kernel)
    (h.toBuilt.newborn hcreate hp hfresh)
  exact henrolled.waiting h (h.toBuilt.addThread hcreate hp hfresh) hregs

theorem Waiting.step (h : s.Waiting t) {op : Op} (hop : s.enabled op) (hcreates : op.Creates) :
    ∃ s', s.step op = some s' ∧ ∃ t', s'.Waiting t' := by
  cases op with
  | createKernelProcess newProcess function b =>
      obtain ⟨k', t', hrun, hnext⟩ :=
        h.addProcess _ (Kernel.createKernelThread_creates newProcess function b) hop
      exact ⟨_, by rw [SchedSession.step, Kernel.createKernelProcess, hrun, Option.map_some], t',
        hnext⟩
  | createKernelThread process function b =>
      exact ⟨_, rfl, t, h.addThread (Kernel.createKernelThread_creates process function b) hop.1
        hop.2⟩
  | createUserProcess newProcess pageDirectory b =>
      obtain ⟨k', t', hrun, hnext⟩ :=
        h.addProcess pageDirectory (Kernel.createUserThread_creates newProcess b) hop
      exact ⟨_, by rw [SchedSession.step, Kernel.createUserProcess, hrun, Option.map_some], t',
        hnext⟩
  | fillRunqueuesFromBST => exact hcreates.elim
  | ageThreads => exact hcreates.elim
  | schedule => exact hcreates.elim
  | apicTimerHandler => exact hcreates.elim

/-! ## While threads are scheduled -/

/-- Threads are in their places, and what is written down for a CPU is about its current
thread. -/
structure Watched (s : SchedSession) : Prop extends s.Running where
  distinct : s.Distinct
  onCPU : s.kernel.OnCPU s.threads
  esp0 : ∀ c, s.kernel.currentThread c ≠ null →
    s.kernel.tssEsp0 c = (s.kernel.thread (s.kernel.currentThread c)).kstack.esp0
  switched : ∀ c, s.kernel.switched c ≠ null → s.kernel.currentThread c ≠ null

/-- The CPUs that threads were switched to are in step. -/
def AllInStep (s : SchedSession) : Prop :=
  ∀ cpu, s.kernel.currentThread cpu ≠ null ∨ s.kernel.switched cpu ≠ null →
    s.kernel.InStep s.threads cpu

theorem Watched.allInStep (h : s.Watched) : s.AllInStep := by
  intro cpu hcpu
  have hcurrent : s.kernel.currentThread cpu ≠ null := hcpu.elim id (h.switched cpu)
  have hplace := Kernel.place_current hcurrent
  have hcreated := h.arranged.known _ ⟨_, hplace⟩
  obtain ⟨hloaded, hcontext⟩ := h.loaded cpu hcurrent
  refine ⟨hcreated, hloaded.symm, fun u hu heq => ?_, hcontext, h.arranged.state _ _ hplace,
    fun u hu hrunning => ?_, h.esp0 cpu hcurrent⟩
  · exact h.distinct u hu _ hcreated (heq.trans hloaded)
  · obtain ⟨c, hc⟩ := h.onCPU u hu hrunning
    by_cases hccpu : c = cpu
    · exact .inl (hccpu ▸ hc.symm)
    · exact .inr ⟨c, hccpu, hc⟩

theorem Waiting.watched (h : s.Waiting t) (hrunning : (s.setKernel k').Running)
    (hthread : k'.thread = s.kernel.thread) (hcpus : s.kernel.SameCPUs k') :
    (s.setKernel k').Watched := by
  refine ⟨hrunning, ?_, fun u hu hstate => ?_, fun c hc => ?_, fun c hc => ?_⟩
  · apply h.distinct.congr
    intro u
    rw [hthread]
  · rw [setKernel_kernel, hthread, h.state u hu] at hstate
    exact nomatch hstate
  · rw [setKernel_kernel, hcpus.currentThread, h.quiet.currents] at hc
    exact absurd rfl hc
  · rw [setKernel_kernel, hcpus.switched, h.switched] at hc
    exact absurd rfl hc

/-- Changes to counters, waiting times and priorities. -/
theorem Watched.setKernel (h : s.Watched) (hrunning : (s.setKernel k').Running)
    (hcpus : s.kernel.SameCPUs k') (hstacks : s.kernel.SameStacks k')
    (hregs : ∀ u, (k'.thread u).regs = (s.kernel.thread u).regs)
    (hstate : ∀ u, (k'.thread u).state = (s.kernel.thread u).state) :
    (s.setKernel k').Watched := by
  refine ⟨hrunning, h.distinct.congr hregs, fun u hu hrunning => ?_, fun c hc => ?_,
    fun c hc => ?_⟩
  · rw [setKernel_kernel, hstate] at hrunning
    rw [setKernel_kernel, hcpus.currentThread]
    exact h.onCPU u hu hrunning
  · rw [setKernel_kernel, hcpus.currentThread] at hc ⊢
    rw [hstacks.tssEsp0, hstacks.kstack]
    exact h.esp0 c hc
  · rw [setKernel_kernel, hcpus.switched] at hc
    rw [setKernel_kernel, hcpus.currentThread]
    exact h.switched c hc

theorem Watched.ageThreads (h : s.Watched) (cpu : Nat) :
    (s.setKernel (s.kernel.ageThreads cpu)).Watched := by
  have haged := s.kernel.ageThreads_aged cpu
  exact h.setKernel (h.toRunning.ageThreads cpu) haged.rethreaded.scheduler.sameCPUs
    (s.kernel.ageThreads_sameStacks cpu) haged.regs haged.state

theorem Watched.tick (h : s.Watched) (cpu : Nat) : (s.setKernel (s.kernel.tick cpu)).Watched :=
  h.setKernel (h.toRunning.tick cpu) (s.kernel.tick_scheduler cpu).sameCPUs
    ⟨rfl, fun _ => rfl⟩ (fun _ => rfl) fun _ => rfl

/-- A new thread is not running. -/
theorem Enrolled.onCPU {s' : SchedSession} (h : s.Enrolled b s')
    (honCPU : s.kernel.OnCPU s.threads) : s'.kernel.OnCPU s'.threads := by
  unfold Kernel.OnCPU
  rw [h.threads, h.scheduler.currentThread]
  intro u hu hstate
  obtain rfl | hu := List.mem_cons.mp hu
  · rw [h.newState] at hstate
    exact nomatch hstate
  · exact honCPU u hu ((h.state u hu).symm.trans hstate)

/-- `schedule` takes the running state from the old thread and gives it to the next one, for
which it writes everything down. -/
theorem Watched.schedule (h : s.Watched) (cpu : Nat)
    (hfresh : Fresh s.blocks (newProcess :: b.all)) :
    ∃ k', s.kernel.schedule cpu newProcess b = some k' ∧
      (s.addProcess newProcess b k').Watched := by
  obtain ⟨t, ht⟩ := h.populated
  obtain ⟨k₁, t', next, hpopulated, hborn, hcreate, -, hnull, hrun⟩ := ht.schedule_eq cpu hfresh
  obtain ⟨k', hrun', hrunning⟩ := h.toRunning.schedule cpu hfresh
  obtain rfl := Option.some.inj (hrun.symm.trans hrun')
  have hthread := hfresh.unused b.thread (by simp)
  have hregs := hfresh.unused b.regs (by simp)
  have henrolled := addProcess_enrolled ht hthread hborn.added hborn.newborn
  have honCPU := (henrolled.onCPU h.onCPU).switch
    (fun u hu => (hpopulated.threads u hu).2.1) cpu next
  rw [addProcess_kernel] at honCPU
  generalize hk₂ : ((k₁.preempt cpu).dequeueThread cpu).1 = k₂ at hrun hrunning honCPU ⊢
  have hsched := hborn.added.scheduler
  have hcpus : s.kernel.SameCPUs k₂ := hsched.sameCPUs.trans
    (hk₂ ▸ (k₁.preempt_sameCPUs cpu).trans (Kernel.dequeueThread_requeued ..).sameCPUs)
  have hstacks : k₁.SameStacks k₂ :=
    hk₂ ▸ (k₁.preempt_sameStacks cpu).trans (Kernel.dequeueThread_requeued ..).sameStacks
  have hsettled : k₁.Settled (k₂.dispatch cpu next) := by
    rw [← hk₂]
    exact ((k₁.preempt_settled cpu).trans (Kernel.dequeueThread_requeued ..).settled).trans
      (Kernel.dispatch_settled ..)
  refine ⟨_, hrun, hrunning, ?_, honCPU, fun c hc => ?_, fun c hc => ?_⟩
  · exact (henrolled.distinct h.distinct ht hregs).congr hsettled.thread
  -- `schedule` sets esp0 for the CPU that it runs on, and leaves the others.
  · rw [addProcess_kernel] at hc ⊢
    rw [Kernel.dispatch_kstack]
    by_cases hccpu : c = cpu
    · rw [hccpu, Kernel.dispatch_currentThread, Kernel.dispatch_tssEsp0]
    · rw [Kernel.dispatch_currentThread_of_ne hccpu, hcpus.currentThread] at hc ⊢
      have hknown := h.arranged.known _ ⟨.current c, Kernel.place_current hc⟩
      rw [Kernel.dispatch_tssEsp0_of_ne hccpu, hstacks.tssEsp0, hstacks.kstack,
        hborn.added.thread _ (ht.thread_ne hthread hknown),
        Kernel.createKernelProcess_tssEsp0 hcreate]
      exact h.esp0 c hc
  · rw [addProcess_kernel] at hc ⊢
    by_cases hccpu : c = cpu
    · rw [hccpu, Kernel.dispatch_currentThread]
      exact hnull
    · rw [Kernel.dispatch_currentThread_of_ne hccpu, hcpus.currentThread]
      apply h.switched
      rwa [Kernel.dispatch_switched_of_ne hccpu, hcpus.switched] at hc

/-- A call of `execve` returns to a thread that is not the current one of its CPU. -/
theorem Watched.execve (h : s.Watched) (cpu : Nat) (pageDirectory : Ptr)
    (hfresh : Fresh s.blocks (newProcess :: b.all)) :
    ∃ k', s.kernel.execve cpu newProcess pageDirectory b = some k' ∧
      ¬ (s.addProcess newProcess b k').AllInStep := by
  obtain ⟨t, ht⟩ := h.populated
  obtain ⟨k₁, t', hrun, -, hborn⟩ := ht.addProcess pageDirectory
    (Kernel.createUserThread_creates newProcess b) hfresh
  have hnull : b.regs ≠ null := hfresh.nonnull b.regs (by simp)
  have hexecve : s.kernel.execve cpu newProcess pageDirectory b = some (k₁.enter cpu b.regs) := by
    rw [Kernel.execve, Kernel.createUserProcess, hrun]
    simp only [Option.bind_eq_bind, Option.bind_some, Option.pure_def, hborn.head,
      hborn.newborn.regs]
  have hswitched : (k₁.enter cpu b.regs).switched cpu = b.regs := Function.update_self ..
  refine ⟨_, hexecve, fun hall => ?_⟩
  have hinStep := hall cpu (.inr (by rwa [addProcess_kernel, hswitched]))
  have hcurrent : b.thread = k₁.currentThread cpu :=
    hinStep.unique b.thread List.mem_cons_self (hborn.newborn.regs.trans hswitched.symm)
  have hstate : (k₁.thread (k₁.currentThread cpu)).state = .running := hinStep.state
  rw [← hcurrent, hborn.newborn.state] at hstate
  cases hstate

/-! ## Runs of `schedule` and `execve` -/

/-- What reaches `switchTask`. -/
inductive Call where
  | sched (op : Op)
  | execve (cpu : Nat) (newProcess pageDirectory : Ptr) (b : ThreadBlocks)

def Call.IsExecve : Call → Prop
  | .sched _ => False
  | .execve .. => True

def call (s : SchedSession) : Call → Option SchedSession
  | .sched op => s.step op
  | .execve cpu newProcess pageDirectory b =>
      (s.kernel.execve cpu newProcess pageDirectory b).map (s.addProcess newProcess b)

/-- The calls of the scheduler that follow the filling of the queues, and `execve` with fresh
blocks. -/
def callEnabled (s : SchedSession) : Call → Prop
  | .sched op => s.enabled op ∧ op.Schedules
  | .execve cpu newProcess _ b => cpu < maxCpus ∧ Fresh s.blocks (newProcess :: b.all)

instance : ∀ op : Op, Decidable op.Schedules
  | .createKernelProcess .. => isFalse id
  | .createKernelThread .. => isFalse id
  | .createUserProcess .. => isFalse id
  | .fillRunqueuesFromBST => isFalse id
  | .ageThreads _ => isTrue trivial
  | .schedule .. => isTrue trivial
  | .apicTimerHandler .. => isTrue trivial

instance (s : SchedSession) : ∀ c, Decidable (s.callEnabled c)
  | .sched _ => inferInstanceAs (Decidable (_ ∧ _))
  | .execve .. => inferInstanceAs (Decidable (_ ∧ _))

theorem Watched.call (h : s.Watched) {c : Call} (hc : s.callEnabled c) (hsched : ¬ c.IsExecve) :
    ∃ s', s.call c = some s' ∧ s'.Watched := by
  cases c with
  | execve => exact absurd trivial hsched
  | sched op =>
      obtain ⟨hop, hschedules⟩ := hc
      cases op with
      | createKernelProcess => exact hschedules.elim
      | createKernelThread => exact hschedules.elim
      | createUserProcess => exact hschedules.elim
      | fillRunqueuesFromBST => exact hschedules.elim
      | ageThreads cpu => exact ⟨_, rfl, h.ageThreads cpu⟩
      | schedule cpu newProcess b =>
          obtain ⟨k', hrun, hnext⟩ := h.schedule cpu hop.2
          exact ⟨_, by rw [SchedSession.call, SchedSession.step, hrun, Option.map_some], hnext⟩
      | apicTimerHandler cpu regs newProcess b =>
          rw [SchedSession.call, SchedSession.step]
          by_cases hslice : s.SliceOver cpu
          · have haged := (h.tick cpu).ageThreads cpu
            rw [setKernel_setKernel, setKernel_kernel] at haged
            rw [apicTimerHandler_of_sliceOver hslice, if_pos hslice]
            generalize (s.kernel.tick cpu).ageThreads cpu = k at haged ⊢
            obtain ⟨k', hrun, hnext⟩ := haged.schedule cpu (hop.2 hslice)
            rw [setKernel_kernel] at hrun
            exact ⟨s.addProcess newProcess b k', by rw [hrun, Option.map_some], hnext⟩
          · refine ⟨s.setKernel (s.kernel.tick cpu), ?_, h.tick cpu⟩
            rw [apicTimerHandler_of_not hslice, if_neg hslice, Option.map_some]

/-- The tree is built from empty queues, and the queues are filled. -/
theorem watched_of_build {memory : Kernel} (hmemory : memory.Quiet)
    (hswitched : ∀ c, memory.switched c = null) {block : Ptr} {build : List Op}
    (hbuild : ∀ op ∈ build, op.Creates)
    (hops : Admissible step enabled (start memory block) (build ++ [.fillRunqueuesFromBST]))
    (hrun : runSteps step (start memory block) (build ++ [.fillRunqueuesFromBST]) = some s) :
    s.Watched := by
  have hstart : ∃ t, (start memory block).Waiting t :=
    ⟨.leaf, start_built hmemory block, nofun, nofun, hswitched⟩
  obtain ⟨s₁, hrun₁, t, ht⟩ := runSteps_total (fun s : SchedSession => ∃ t, s.Waiting t)
    (fun s op ⟨t, ht⟩ hop => ht.step hop.1 hop.2) hstart (hops.of_append.and hbuild)
  obtain ⟨k', hfill, hrequeued, hrunning⟩ := ht.toBuilt.fillRunqueuesFromBST
  have hstep : s₁.step .fillRunqueuesFromBST = some (s₁.setKernel k') := by
    rw [SchedSession.step, hfill, Option.map_some]
  rw [runSteps_append, hrun₁, Option.bind_some, runSteps_cons, hstep, Option.bind_some,
    runSteps_nil] at hrun
  obtain rfl := Option.some.inj hrun
  exact ht.watched hrunning hrequeued.thread hrequeued.sameCPUs

/-- Once the queues are filled, the CPUs stay in step throughout exactly the runs without
`execve`. -/
theorem always_inStep_iff {memory : Kernel} (hmemory : memory.Quiet)
    (hswitched : ∀ c, memory.switched c = null) (block : Ptr) (build : List Op)
    (hbuild : ∀ op ∈ build, op.Creates)
    (hops : Admissible step enabled (start memory block) (build ++ [.fillRunqueuesFromBST]))
    (s : SchedSession)
    (hrun : runSteps step (start memory block) (build ++ [.fillRunqueuesFromBST]) = some s)
    (calls : List Call) (hcalls : Admissible call callEnabled s calls) :
    Always call AllInStep s calls ↔ ∀ c ∈ calls, ¬ c.IsExecve := by
  have hs := watched_of_build hmemory hswitched hbuild hops hrun
  have hgood : ∀ (s : SchedSession) c, s.Watched → s.callEnabled c → ¬ c.IsExecve →
      ∃ s', s.call c = some s' ∧ s'.Watched := fun s c hs hc hsched => hs.call hc hsched
  rw [← admissible_iff_forall Watched hgood hs hcalls]
  refine always_iff_admissible Watched (fun s hs => hs.allInStep)
    (fun s c s' hs hc hsched hcall => ?_) (fun s c hs hc hexecve => ?_) hs hcalls
  · obtain ⟨s'', hcall', hs'⟩ := hgood s c hs hc hsched
    obtain rfl := Option.some.inj (hcall'.symm.trans hcall)
    exact hs'
  · cases c with
    | sched op => exact absurd id hexecve
    | execve cpu newProcess pageDirectory b =>
        obtain ⟨k', hrun, hnot⟩ := hs.execve cpu pageDirectory hc.2
        exact ⟨_, by rw [SchedSession.call, hrun, Option.map_some], hnot⟩

/-- A kernel process, whose thread is queued. -/
def oneThread : List Op :=
  [.createKernelProcess 0xD0000100 0xC0100000 ⟨0xD0000200, 0xD0001000, 0xD0000300⟩]

/-- The thread is switched to, and its CPU is taken over by another program. -/
def scheduleThenExecve : List Call :=
  [.sched (.schedule 0 0xD0010000 ⟨0xD0010100, 0xD0011000, 0xD0010200⟩),
    .execve 0 0xD0020000 0xD0100000 ⟨0xD0020100, 0xD0021000, 0xD0020200⟩]

theorem oneThread_creates : ∀ op ∈ oneThread, op.Creates := by
  simp [oneThread, Op.Creates]

theorem scheduleThenExecve_enabled :
    ∃ s, runSteps step (start .initial 0xD0000000) (oneThread ++ [.fillRunqueuesFromBST]) =
        some s ∧
      Admissible call callEnabled s scheduleThenExecve ∧
      ∃ s', runSteps call s scheduleThenExecve = some s' ∧ s'.kernel.switched 0 ≠ null ∧
        (s'.kernel.thread (s'.kernel.currentThread 0)).regs ≠ s'.kernel.switched 0 := by
  have hrun : (runSteps step (start .initial 0xD0000000)
      (oneThread ++ [.fillRunqueuesFromBST])).any (fun s => decide
        (Admissible call callEnabled s scheduleThenExecve) &&
        (runSteps call s scheduleThenExecve).any fun s' => decide
          (s'.kernel.switched 0 ≠ null ∧
            (s'.kernel.thread (s'.kernel.currentThread 0)).regs ≠
              s'.kernel.switched 0)) = true := by
    decide +kernel
  obtain ⟨s, hs, hboth⟩ := (Option.any_eq_true _ _).mp hrun
  obtain ⟨hcalls, hlast⟩ := Bool.and_eq_true_iff.mp hboth
  obtain ⟨s', hs', hstate⟩ := (Option.any_eq_true _ _).mp hlast
  exact ⟨s, hs, of_decide_eq_true hcalls, s', hs', of_decide_eq_true hstate⟩

theorem always_inStep_scheduleThenExecve :
    ∃ s, runSteps step (start .initial 0xD0000000) (oneThread ++ [.fillRunqueuesFromBST]) =
        some s ∧
      (Always call AllInStep s scheduleThenExecve ↔
        ∀ c ∈ scheduleThenExecve, ¬ c.IsExecve) := by
  obtain ⟨s, hrun, hcalls, -⟩ := scheduleThenExecve_enabled
  exact ⟨s, hrun, always_inStep_iff initial_quiet (fun _ => rfl) 0xD0000000 oneThread
    oneThread_creates (by decide +kernel) s hrun scheduleThenExecve hcalls⟩

/-- After `execve` the registers of the CPU are not those of its current thread. -/
theorem not_always_inStep :
    ¬ ∀ (memory : Kernel) (block : Ptr) (build : List Op) (s : SchedSession) (calls : List Call),
      memory.Quiet → (∀ c, memory.switched c = null) → (∀ op ∈ build, op.Creates) →
      Admissible step enabled (start memory block) (build ++ [.fillRunqueuesFromBST]) →
      runSteps step (start memory block) (build ++ [.fillRunqueuesFromBST]) = some s →
      Admissible call callEnabled s calls → Always call AllInStep s calls := by
  intro hclaim
  obtain ⟨s, hrun, hcalls, s', hrun', hswitched, hregs⟩ := scheduleThenExecve_enabled
  have halways := hclaim .initial 0xD0000000 oneThread s scheduleThenExecve initial_quiet
    (fun _ => rfl) oneThread_creates (by decide +kernel) hrun hcalls
  exact hregs (halways.last hrun' 0 (.inr hswitched)).loaded

end SchedSession

end Senob.Sys
