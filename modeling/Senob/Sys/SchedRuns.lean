import Senob.Sys.SchedArrange

/-!
# Runs of the scheduler

A session starts from an empty tree, creates processes and threads, fills the queues
once and then ages threads, schedules and takes timer interrupts. Next to the kernel it
keeps what was created and which blocks `kmalloc` has returned, so that later blocks can
be required to be new.
-/

namespace Senob.Sys

open Senob.Foundation

structure SchedSession where
  kernel : Kernel
  processes : List Ptr
  threads : List Ptr
  blocks : List Ptr

namespace SchedSession

/-- The calls of a session, each with the blocks that `kmalloc` returns in it. -/
inductive Op where
  | createKernelProcess (newProcess : Ptr) (function : Word) (b : ThreadBlocks)
  | createKernelThread (process : Ptr) (function : Word) (b : ThreadBlocks)
  | createUserProcess (newProcess pageDirectory : Ptr) (b : ThreadBlocks)
  | fillRunqueuesFromBST
  | ageThreads (cpu : Nat)
  | schedule (cpu : Nat) (newProcess : Ptr) (b : ThreadBlocks)
  | apicTimerHandler (cpu : Nat) (regs : InterruptRegisters) (newProcess : Ptr) (b : ThreadBlocks)

/-- The calls that build the tree. -/
def Op.Creates : Op → Prop
  | .createKernelProcess .. | .createKernelThread .. | .createUserProcess .. => True
  | _ => False

/-- The calls that move threads once the queues are filled. -/
def Op.Schedules : Op → Prop
  | .ageThreads _ | .schedule .. | .apicTimerHandler .. => True
  | _ => False

/-- The session after a process was created. -/
def addProcess (s : SchedSession) (newProcess : Ptr) (b : ThreadBlocks) (kernel : Kernel) :
    SchedSession :=
  ⟨kernel, newProcess :: s.processes, b.thread :: s.threads, newProcess :: b.all ++ s.blocks⟩

/-- The session after a thread of an existing process was created. -/
def addThread (s : SchedSession) (b : ThreadBlocks) (kernel : Kernel) : SchedSession :=
  ⟨kernel, s.processes, b.thread :: s.threads, b.all ++ s.blocks⟩

def setKernel (s : SchedSession) (kernel : Kernel) : SchedSession := { s with kernel := kernel }

@[simp] theorem addProcess_kernel (s : SchedSession) (newProcess : Ptr) (b : ThreadBlocks)
    (kernel : Kernel) : (s.addProcess newProcess b kernel).kernel = kernel := rfl

@[simp] theorem addThread_kernel (s : SchedSession) (b : ThreadBlocks) (kernel : Kernel) :
    (s.addThread b kernel).kernel = kernel := rfl

@[simp] theorem setKernel_kernel (s : SchedSession) (kernel : Kernel) :
    (s.setKernel kernel).kernel = kernel := rfl

theorem setKernel_setKernel (s : SchedSession) (kernel kernel' : Kernel) :
    (s.setKernel kernel).setKernel kernel' = s.setKernel kernel' := rfl

/-- The next timer interrupt on the CPU ends the time slice. -/
def SliceOver (s : SchedSession) (cpu : Nat) : Prop :=
  timeSliceTicks ≤ s.kernel.ticksSinceLastSwitch cpu + 1

instance (s : SchedSession) (cpu : Nat) : Decidable (s.SliceOver cpu) :=
  inferInstanceAs (Decidable (_ ≤ _))

def step (s : SchedSession) : Op → Option SchedSession
  | .createKernelProcess newProcess function b =>
      (s.kernel.createKernelProcess newProcess function b).map (s.addProcess newProcess b)
  | .createKernelThread process function b =>
      some (s.addThread b (s.kernel.createKernelThread process function b))
  | .createUserProcess newProcess pageDirectory b =>
      (s.kernel.createUserProcess newProcess pageDirectory b).map (s.addProcess newProcess b)
  | .fillRunqueuesFromBST => s.kernel.fillRunqueuesFromBST.map s.setKernel
  | .ageThreads cpu => some (s.setKernel (s.kernel.ageThreads cpu))
  | .schedule cpu newProcess b =>
      (s.kernel.schedule cpu newProcess b).map (s.addProcess newProcess b)
  | .apicTimerHandler cpu regs newProcess b =>
      (s.kernel.apicTimerHandler cpu regs newProcess b).map
        (if s.SliceOver cpu then s.addProcess newProcess b else s.setKernel)

/-- CPUs exist, processes that get another thread were created before, and `kmalloc`
returns fresh blocks. -/
def enabled (s : SchedSession) : Op → Prop
  | .createKernelProcess newProcess _ b => Fresh s.blocks (newProcess :: b.all)
  | .createKernelThread process _ b => process ∈ s.processes ∧ Fresh s.blocks b.all
  | .createUserProcess newProcess _ b => Fresh s.blocks (newProcess :: b.all)
  | .fillRunqueuesFromBST => True
  | .ageThreads cpu => cpu < maxCpus
  | .schedule cpu newProcess b => cpu < maxCpus ∧ Fresh s.blocks (newProcess :: b.all)
  | .apicTimerHandler cpu _ newProcess b =>
      cpu < maxCpus ∧ (s.SliceOver cpu → Fresh s.blocks (newProcess :: b.all))

instance (s : SchedSession) : ∀ op, Decidable (s.enabled op)
  | .createKernelProcess .. => inferInstanceAs (Decidable (Fresh _ _))
  | .createKernelThread .. => inferInstanceAs (Decidable (_ ∧ _))
  | .createUserProcess .. => inferInstanceAs (Decidable (Fresh _ _))
  | .fillRunqueuesFromBST => inferInstanceAs (Decidable True)
  | .ageThreads _ => inferInstanceAs (Decidable (_ < _))
  | .schedule .. => inferInstanceAs (Decidable (_ ∧ _))
  | .apicTimerHandler .. => inferInstanceAs (Decidable (_ ∧ (_ → _)))

/-- The session after `nodePreparation`, where the sentinel is at `block`. -/
def start (memory : Kernel) (block : Ptr) : SchedSession :=
  ⟨{ memory with tree := memory.tree.nodePreparation block }, [], [], [block]⟩

/-! ## Creation -/

/-- What was created is in the tree and in blocks that are in use. -/
structure Populated (s : SchedSession) (t : RBTree Ptr) : Prop where
  grown : s.kernel.Grown t s.blocks
  processes : ∀ p ∈ s.processes, p ∈ t.toList
  threads : ∀ u ∈ s.threads,
    u ∈ s.blocks ∧ u ≠ null ∧ u < 2 ^ 32 ∧ (s.kernel.thread u).regs ∈ s.blocks

variable {s s' : SchedSession} {t : RBTree Ptr} {p newProcess : Ptr} {cpu : Nat}
  {b : ThreadBlocks} {k' : Kernel} {create : Kernel → Kernel}

theorem Populated.settled (h : s.Populated t) (hsettled : s.kernel.Settled k') :
    (s.setKernel k').Populated t := by
  obtain ⟨hvalid, hnil, hused, hpids⟩ := h.grown
  refine ⟨⟨?_, ?_, hused, ?_⟩, h.processes, fun u hu => ?_⟩
  · exact hsettled.tree ▸ hvalid
  · exact hsettled.tree ▸ hnil
  · simp only [setKernel, hsettled.tree, hsettled.kProcessID]
    exact hpids
  · obtain ⟨hblock, hnull, hbound, hregs⟩ := h.threads u hu
    exact ⟨hblock, hnull, hbound, (hsettled.thread u).symm ▸ hregs⟩

theorem Populated.addProcess (h : s.Populated t) (pageDirectory : Ptr)
    (hcreate : Kernel.CreatesThread p b create)
    (hfresh : Fresh s.blocks (p :: b.all)) :
    ∃ k' t', s.kernel.createProcess p pageDirectory create = some k' ∧
      (s.addProcess p b k').Populated t' ∧ s.kernel.ProcessBorn t p b k' t' := by
  have hsub : s.blocks ⊆ p :: b.all ++ s.blocks := List.subset_append_right ..
  obtain ⟨k', t', hrun, hgrown, hborn⟩ := h.grown.createProcess pageDirectory hcreate
    (hfresh.unused p (by simp)) (hfresh.nonnull p (by simp)) (hfresh.bounded p (by simp))
    hsub (by simp)
  refine ⟨k', t', hrun, ⟨hgrown, fun q hq => ?_, fun u hu => ?_⟩, hborn⟩
  · rw [hborn.perm.mem_iff]
    exact List.mem_cons.mpr ((List.mem_cons.mp hq).imp_right (h.processes q))
  · have hthread : b.thread ∈ p :: b.all := by simp
    obtain rfl | hu := List.mem_cons.mp hu
    · refine ⟨List.mem_append_left _ hthread, hfresh.nonnull _ hthread,
        hfresh.bounded _ hthread, ?_⟩
      rw [addProcess_kernel, hborn.newborn.regs]
      exact List.mem_append_left _ (by simp)
    · obtain ⟨hblock, hnull, hbound, hregs⟩ := h.threads u hu
      refine ⟨hsub hblock, hnull, hbound, ?_⟩
      rw [addProcess_kernel, hborn.added.thread u fun heq => hfresh.unused _ hthread (heq ▸ hblock)]
      exact hsub hregs

/-- While the tree is built, nothing is scheduled, and every process has the list of its
threads. -/
structure Built (s : SchedSession) (t : RBTree Ptr) : Prop extends s.Populated t where
  owned : ∀ p ∈ t.toList, ∃ l, s.kernel.ThreadList s.threads p l
  quiet : s.kernel.Quiet

theorem Built.addProcess (h : s.Built t) (pageDirectory : Ptr)
    (hcreate : Kernel.CreatesThread p b create)
    (hfresh : Fresh s.blocks (p :: b.all)) :
    ∃ k' t', s.kernel.createProcess p pageDirectory create = some k' ∧
      (s.addProcess p b k').Built t' := by
  obtain ⟨k', t', hrun, hpopulated, hborn⟩ :=
    h.toPopulated.addProcess pageDirectory hcreate hfresh
  have hthread : b.thread ∈ p :: b.all := by simp
  refine ⟨k', t', hrun, hpopulated, fun q hq => ?_, hborn.added.scheduler.quiet h.quiet⟩
  obtain rfl | hq := List.mem_cons.mp (hborn.perm.mem_iff.mp hq)
  · exact ⟨_, .single hborn.newborn (hfresh.nonnull _ hthread) (List.mem_cons_self ..) hborn.head
      hborn.tail⟩
  · obtain ⟨l, hl⟩ := h.owned q hq
    refine ⟨l, hl.frame (hborn.data q hq) (List.subset_cons_self ..) fun u hu => ?_⟩
    refine hborn.added.thread u ?_
    rintro rfl
    exact hfresh.unused _ hthread (h.threads _ (hl.each _ hu).1).1

/-- The thread that is the last one of its process is not at the new block. -/
theorem Built.newborn (h : s.Built t) (hcreate : Kernel.CreatesThread p b create)
    (hp : p ∈ s.processes) (hfresh : Fresh s.blocks b.all) : (create s.kernel).Newborn p b := by
  obtain ⟨l, hl⟩ := h.owned p (h.processes p hp)
  have hthread : b.thread ∈ b.all := by simp
  apply hcreate.newborn
  intro hhead heq
  obtain ⟨hne, hlast⟩ := hl.tail_mem hhead
  have hmem := (hl.each _ (List.getLast_mem hne)).1
  rw [← hlast, heq] at hmem
  exact hfresh.unused _ hthread (h.threads _ hmem).1

/-- A thread of an existing process. -/
theorem Built.addThread (h : s.Built t) (hcreate : Kernel.CreatesThread p b create)
    (hp : p ∈ s.processes) (hfresh : Fresh s.blocks b.all) :
    (s.addThread b (create s.kernel)).Built t := by
  have hmem := h.processes p hp
  obtain ⟨l, hl⟩ := h.owned p hmem
  have hthread : b.thread ∈ b.all := by simp
  have hnew : b.thread ∉ s.threads := fun hu => hfresh.unused _ hthread (h.threads _ hu).1
  have hadded := hcreate.added s.kernel
  have hborn := h.newborn hcreate hp hfresh
  have hsub : s.blocks ⊆ b.all ++ s.blocks := List.subset_append_right ..
  refine ⟨⟨h.grown.addThread hadded hsub, h.processes, fun u hu => ?_⟩, fun q hq => ?_,
    hadded.scheduler.quiet h.quiet⟩
  · obtain rfl | hu := List.mem_cons.mp hu
    · refine ⟨List.mem_append_left _ hthread, hfresh.nonnull _ hthread,
        hfresh.bounded _ hthread, ?_⟩
      rw [addThread_kernel, hborn.regs]
      exact List.mem_append_left _ (by simp)
    · obtain ⟨hblock, hnull, hbound, hregs⟩ := h.threads u hu
      refine ⟨hsub hblock, hnull, hbound, ?_⟩
      rw [addThread_kernel, hadded.other u fun heq => hnew (heq ▸ hu)]
      split
      · exact hsub hregs
      · exact hsub hregs
  · by_cases hqp : q = p
    · subst hqp
      exact ⟨_, hl.append hadded hborn (hfresh.nonnull _ hthread)
        (fun hu => hnew (hl.each _ hu).1) (List.subset_cons_self ..) (List.mem_cons_self ..)⟩
    · obtain ⟨l', hl'⟩ := h.owned q hq
      refine ⟨l', hl'.frame (congrArg Process.data (hadded.proc_of_ne hqp))
        (List.subset_cons_self ..) fun u hu => ?_⟩
      rw [addThread_kernel, hadded.other u fun heq => hnew (heq ▸ (hl'.each u hu).1), if_neg]
      -- The last thread of `p` is owned by `p`, and `u` by another process.
      rintro ⟨hhead, rfl⟩
      obtain ⟨hne, hlast⟩ := hl.tail_mem hhead
      rw [hlast] at hu
      exact hqp ((hl'.each _ hu).2.symm.trans (hl.each _ (List.getLast_mem hne)).2)

/-! ## Filling the queues -/

/-- From the filling of the queues on, threads are in their places. -/
structure Running (s : SchedSession) : Prop where
  populated : ∃ t, s.Populated t
  ordered : s.kernel.Ordered
  arranged : Arranged s.kernel.thread s.kernel.place (· ∈ s.threads)
  loaded : s.kernel.Loaded

theorem Built.loaded (h : s.Built t) : s.kernel.Loaded :=
  fun cpu hcpu => absurd (h.quiet.currents cpu) hcpu

theorem Built.running (h : s.Built t) : s.Running :=
  ⟨⟨t, h.toPopulated⟩, h.quiet.ordered, .empty h.quiet.place, h.loaded⟩

theorem Built.length_le (h : s.Built t) {l : List Ptr} (hl : s.kernel.ThreadList s.threads p l) :
    l.length ≤ ProcTree.loopFuel := by
  have hlt := length_lt_of_nodup (n := 2 ^ 32) hl.nodup (fun u hu => ?_) (by decide)
  · unfold ProcTree.loopFuel
    omega
  · obtain ⟨-, hnull, hbound, -⟩ := h.threads u (hl.each u hu).1
    exact ⟨hnull, hbound⟩

/-- Filling the queues returns, and brings each runnable thread into at most one slot. -/
theorem Built.fillRunqueuesFromBST (h : s.Built t) :
    ∃ k', s.kernel.fillRunqueuesFromBST = some k' ∧ s.kernel.Requeued k' ∧
      (s.setKernel k').Running := by
  have hvalid := h.grown.valid
  have hcallback : ∀ (k : Kernel) p k', k.enqueueRunnableThread p = some k' →
      k.tree.SameShape k'.tree := fun k p k' hrun => by
    rw [(Kernel.enqueueRunnableThread_requeued hrun).tree]
    exact .refl _
  obtain ⟨htraverse, -⟩ := ProcTree.inOrderTraversal_spec hcallback hvalid.layout.subtree
    (fun q hq => hvalid.layout.ne_nil hq) (ProcTree.le_loopFuel hvalid.size_le)
    (.refl s.kernel.tree)
  obtain ⟨k', hfold, hrequeued, hordered, harranged⟩ := Kernel.arranged_foldlM
    hvalid.layout.nodup (.refl s.kernel)
    (fun p hp => by
      obtain ⟨l, hl⟩ := h.owned p hp
      exact ⟨l, hl, h.length_le hl⟩)
    h.quiet.ordered (.empty h.quiet.place)
  refine ⟨k', ?_, hrequeued, ⟨t, h.toPopulated.settled hrequeued.settled⟩, hordered, harranged,
    h.loaded.settled hrequeued.sameCPUs hrequeued.settled⟩
  have hroot : s.kernel.tree.root = t.entry s.kernel.tree.nil := hvalid.layout.above
  rw [Kernel.fillRunqueuesFromBST, hroot, htraverse]
  exact hfold

/-! ## Scheduling -/

/-- Changes that are none of the scheduler's business. -/
theorem Running.setKernel (h : s.Running) (hsched : s.kernel.SameScheduler k')
    (hsettled : s.kernel.Settled k')
    (hstate : ∀ u, (k'.thread u).state = (s.kernel.thread u).state) :
    (s.setKernel k').Running := by
  obtain ⟨t, ht⟩ := h.populated
  refine ⟨⟨t, ht.settled hsettled⟩, hsched.ordered h.ordered, ?_,
    h.loaded.settled hsched.sameCPUs hsettled⟩
  rw [setKernel_kernel, hsched.place]
  exact h.arranged.congr fun u _ => hstate u

theorem Running.ageThreads (h : s.Running) (cpu : Nat) :
    (s.setKernel (s.kernel.ageThreads cpu)).Running :=
  have haged := s.kernel.ageThreads_aged cpu
  h.setKernel haged.rethreaded.scheduler haged.settled haged.state

theorem Running.tick (h : s.Running) (cpu : Nat) : (s.setKernel (s.kernel.tick cpu)).Running :=
  h.setKernel (s.kernel.tick_scheduler cpu) (s.kernel.tick_settled cpu) fun _ => rfl

/-- `schedule` returns. It switches to the thread that it finds in a queue, or to the one of
the idle process that it has created. -/
theorem Populated.schedule_eq (h : s.Populated t) (cpu : Nat)
    (hfresh : Fresh s.blocks (newProcess :: b.all)) :
    ∃ k₁ t' next, (s.addProcess newProcess b k₁).Populated t' ∧
      s.kernel.ProcessBorn t newProcess b k₁ t' ∧
      s.kernel.createKernelProcess newProcess s.kernel.idle b = some k₁ ∧
      next = (if ((k₁.preempt cpu).dequeueThread cpu).2 = null then b.thread
        else ((k₁.preempt cpu).dequeueThread cpu).2) ∧ next ≠ null ∧
      s.kernel.schedule cpu newProcess b =
        some (((k₁.preempt cpu).dequeueThread cpu).1.dispatch cpu next) := by
  obtain ⟨k₁, t', hrun, hpopulated, hborn⟩ := h.addProcess
    s.kernel.kernelDirectory
    (Kernel.createKernelThread_creates newProcess s.kernel.idle b) hfresh
  have hsearch : k₁.tree.rbSearch (k₁.tree.proc newProcess).pid = some newProcess :=
    hpopulated.grown.valid.rbSearch_mem (hborn.perm.mem_iff.mpr (List.mem_cons_self ..))
  have hsettled : k₁.Settled ((k₁.preempt cpu).dequeueThread cpu).1 :=
    (k₁.preempt_settled cpu).trans (Kernel.dequeueThread_requeued ..).settled
  refine ⟨k₁, t', _, hpopulated, hborn, hrun, rfl, ?_, ?_⟩
  · split
    case isTrue => exact hfresh.nonnull b.thread (by simp)
    case isFalse hnull => exact hnull
  · rw [Kernel.schedule, Kernel.initIdle, Kernel.createKernelProcess, hrun]
    simp only [Option.bind_eq_bind, Option.bind_some, Option.pure_def, hsearch, hsettled.tree,
      hborn.head]

/-- `schedule` moves the preempted thread into a queue and the next thread, or the new idle
thread, onto the CPU. -/
theorem Running.schedule (h : s.Running) (cpu : Nat)
    (hfresh : Fresh s.blocks (newProcess :: b.all)) :
    ∃ k', s.kernel.schedule cpu newProcess b = some k' ∧
      (s.addProcess newProcess b k').Running := by
  obtain ⟨t, ht⟩ := h.populated
  obtain ⟨k₁, t', next, hpopulated, hborn, -, hnext, hnull, hrun⟩ := ht.schedule_eq cpu hfresh
  have hthread : b.thread ∈ newProcess :: b.all := by simp
  have hnew : b.thread ∉ s.threads := fun hu => hfresh.unused _ hthread (ht.threads _ hu).1
  -- Creating the idle process moves no thread.
  have hsched := hborn.added.scheduler
  have harranged₁ : Arranged k₁.thread k₁.place (· ∈ s.threads) := by
    rw [hsched.place]
    refine h.arranged.congr fun u hu => ?_
    rw [hborn.added.thread u fun heq => hnew (heq ▸ h.arranged.known u hu)]
  have hloaded₁ : k₁.Loaded := h.loaded.congr hsched.sameCPUs fun c hc => by
    have hu := h.arranged.known _ ⟨.current c, Kernel.place_current hc⟩
    have hregs : b.regs ∈ newProcess :: b.all := by simp
    refine ⟨by rw [hborn.added.thread _ fun heq => hnew (heq ▸ hu)], hborn.added.regs _ ?_⟩
    exact fun heq => hfresh.unused _ hregs (heq ▸ (ht.threads _ hu).2.2.2)
  have hordered₁ := hsched.ordered h.ordered
  obtain ⟨hrest, hdequeued⟩ :=
    Kernel.arranged_dequeueThread (Kernel.arranged_preempt harranged₁ hordered₁ cpu)
  have hsettled : k₁.Settled ((k₁.preempt cpu).dequeueThread cpu).1 :=
    (k₁.preempt_settled cpu).trans (Kernel.dequeueThread_requeued ..).settled
  have hcpus : k₁.SameCPUs ((k₁.preempt cpu).dequeueThread cpu).1 :=
    (k₁.preempt_sameCPUs cpu).trans (Kernel.dequeueThread_requeued ..).sameCPUs
  -- The next thread is known now, and no other place holds it.
  obtain ⟨hknown, hnot⟩ : next ∈ b.thread :: s.threads ∧
      ¬ (((k₁.preempt cpu).dequeueThread cpu).1.elsewhere cpu).Holds next := by
    rw [hnext]
    split
    case isTrue =>
      exact ⟨List.mem_cons_self .., fun hu => hnew (hrest.known _ hu)⟩
    case isFalse hnull =>
      exact ⟨List.mem_cons_of_mem _ (hdequeued hnull).1, (hdequeued hnull).2⟩
  refine ⟨_, hrun, ⟨t', ?_⟩, ?_, ?_, (hloaded₁.settled hcpus hsettled).dispatch cpu next⟩
  · exact hpopulated.settled (hsettled.trans (Kernel.dispatch_settled ..))
  · exact (hordered₁.preempt cpu).dequeueThread cpu
  · exact Kernel.arranged_dispatch (hrest.mono fun u hu => List.mem_cons_of_mem _ hu) hnull hknown
      hnot

theorem apicTimerHandler_of_sliceOver {regs : InterruptRegisters} (h : s.SliceOver cpu) :
    s.kernel.apicTimerHandler cpu regs newProcess b =
      ((s.kernel.tick cpu).ageThreads cpu).schedule cpu newProcess b := by
  have hticks : (s.kernel.tick cpu).ticksSinceLastSwitch cpu =
      s.kernel.ticksSinceLastSwitch cpu + 1 := Function.update_self ..
  exact if_pos (hticks.symm ▸ h)

theorem apicTimerHandler_of_not {regs : InterruptRegisters} (h : ¬ s.SliceOver cpu) :
    s.kernel.apicTimerHandler cpu regs newProcess b = some (s.kernel.tick cpu) := by
  have hticks : (s.kernel.tick cpu).ticksSinceLastSwitch cpu =
      s.kernel.ticksSinceLastSwitch cpu + 1 := Function.update_self ..
  exact if_neg (hticks.symm ▸ h)

theorem Running.step (h : s.Running) {op : Op} (hop : s.enabled op) (hschedules : op.Schedules) :
    ∃ s', s.step op = some s' ∧ s'.Running := by
  cases op with
  | createKernelProcess => exact hschedules.elim
  | createKernelThread => exact hschedules.elim
  | createUserProcess => exact hschedules.elim
  | fillRunqueuesFromBST => exact hschedules.elim
  | ageThreads cpu => exact ⟨_, rfl, h.ageThreads cpu⟩
  | schedule cpu newProcess b =>
      obtain ⟨k', hrun, hnext⟩ := h.schedule cpu hop.2
      exact ⟨_, by rw [SchedSession.step, hrun, Option.map_some], hnext⟩
  | apicTimerHandler cpu regs newProcess b =>
      by_cases hslice : s.SliceOver cpu
      · have haged := (h.tick cpu).ageThreads cpu
        rw [setKernel_setKernel, setKernel_kernel] at haged
        rw [SchedSession.step, apicTimerHandler_of_sliceOver hslice, if_pos hslice]
        generalize (s.kernel.tick cpu).ageThreads cpu = k at haged ⊢
        obtain ⟨k', hrun, hnext⟩ := haged.schedule cpu (hop.2 hslice)
        rw [setKernel_kernel] at hrun
        exact ⟨s.addProcess newProcess b k', by rw [hrun, Option.map_some], hnext⟩
      · refine ⟨s.setKernel (s.kernel.tick cpu), ?_, h.tick cpu⟩
        rw [SchedSession.step, apicTimerHandler_of_not hslice, if_neg hslice, Option.map_some]

theorem Built.step (h : s.Built t) {op : Op} (hop : s.enabled op) (hcreates : op.Creates) :
    ∃ s', s.step op = some s' ∧ ∃ t', s'.Built t' := by
  cases op with
  | createKernelProcess newProcess function b =>
      obtain ⟨k', t', hrun, hbuilt⟩ :=
        h.addProcess _ (Kernel.createKernelThread_creates newProcess function b) hop
      exact ⟨_, by rw [SchedSession.step, Kernel.createKernelProcess, hrun, Option.map_some], t',
        hbuilt⟩
  | createKernelThread process function b =>
      exact ⟨_, rfl, t, h.addThread (Kernel.createKernelThread_creates process function b) hop.1
        hop.2⟩
  | createUserProcess newProcess pageDirectory b =>
      obtain ⟨k', t', hrun, hbuilt⟩ :=
        h.addProcess pageDirectory (Kernel.createUserThread_creates newProcess b) hop
      exact ⟨_, by rw [SchedSession.step, Kernel.createUserProcess, hrun, Option.map_some], t',
        hbuilt⟩
  | fillRunqueuesFromBST => exact hcreates.elim
  | ageThreads => exact hcreates.elim
  | schedule => exact hcreates.elim
  | apicTimerHandler => exact hcreates.elim

theorem start_built {memory : Kernel} (hmemory : memory.Quiet) (block : Ptr) :
    (start memory block).Built .leaf := by
  refine ⟨⟨⟨ProcTree.nodePreparation_valid _ _, List.mem_singleton_self _, nofun, nofun⟩, nofun,
    nofun⟩, nofun, ⟨hmemory.queues, hmemory.currents⟩⟩

/-! ## Results about runs -/

/-- A run that builds the tree is defined, and so is the filling of the queues. -/
theorem build_total {memory : Kernel} (hmemory : memory.Quiet) {block : Ptr} {build : List Op}
    (hbuild : ∀ op ∈ build, op.Creates)
    (hops : Admissible step enabled (start memory block) (build ++ [.fillRunqueuesFromBST])) :
    Always step Running (start memory block) (build ++ [.fillRunqueuesFromBST]) ∧
      ∃ s, runSteps step (start memory block) (build ++ [.fillRunqueuesFromBST]) = some s ∧
        s.Running := by
  have hstart : ∃ t, (start memory block).Built t := ⟨_, start_built hmemory block⟩
  have hadmissible := hops.of_append.and hbuild
  obtain ⟨s, hrun, t, ht⟩ := runSteps_total (fun s : SchedSession => ∃ t, s.Built t)
    (fun s op ⟨t, ht⟩ hop => ht.step hop.1 hop.2) hstart hadmissible
  have halways := always_of_invariant (fun s : SchedSession => ∃ t, s.Built t)
    (fun s op s' ⟨t, ht⟩ hop hstep => by
      obtain ⟨s'', hstep', hs''⟩ := ht.step hop.1 hop.2
      obtain rfl := Option.some.inj (hstep'.symm.trans hstep)
      exact hs'') hstart hadmissible
  obtain ⟨k', hfill, -, hrunning⟩ := ht.fillRunqueuesFromBST
  have hstep : s.step .fillRunqueuesFromBST = some (s.setKernel k') := by
    rw [step, hfill, Option.map_some]
  refine ⟨?_, s.setKernel k', ?_, hrunning⟩
  · refine (halways.imp fun s ⟨t, ht⟩ => ht.running).append fun s' hs' => ?_
    obtain rfl := Option.some.inj (hrun.symm.trans hs')
    refine ⟨ht.running, fun s'' hs'' => ?_⟩
    obtain rfl := Option.some.inj (hstep.symm.trans hs'')
    exact hrunning
  · rw [runSteps_append, hrun, Option.bind_some, runSteps_cons, hstep, Option.bind_some,
      runSteps_nil]

/-- From empty queues, every run that builds a tree, fills the queues once and then moves
threads is defined, and its states keep the invariant. -/
theorem run_total {memory : Kernel} (hmemory : memory.Quiet) {block : Ptr} {build moves : List Op}
    (hbuild : ∀ op ∈ build, op.Creates) (hmoves : ∀ op ∈ moves, op.Schedules)
    (hops : Admissible step enabled (start memory block)
      (build ++ [.fillRunqueuesFromBST] ++ moves)) :
    Always step Running (start memory block) (build ++ [.fillRunqueuesFromBST] ++ moves) ∧
      ∃ s, runSteps step (start memory block) (build ++ [.fillRunqueuesFromBST] ++ moves) =
        some s ∧ s.Running := by
  obtain ⟨halways, s₁, hrun₁, hs₁⟩ := build_total hmemory hbuild hops.of_append
  have hadmissible := (hops.after hrun₁).and hmoves
  obtain ⟨s₂, hrun₂, hs₂⟩ := runSteps_total Running
    (fun s op hs hop => hs.step hop.1 hop.2) hs₁ hadmissible
  refine ⟨halways.append fun s hs => ?_, s₂, ?_, hs₂⟩
  · obtain rfl := Option.some.inj (hrun₁.symm.trans hs)
    exact always_of_invariant Running
      (fun s op s' hs hop hstep => by
        obtain ⟨s'', hstep', hs''⟩ := hs.step hop.1 hop.2
        obtain rfl := Option.some.inj (hstep'.symm.trans hstep)
        exact hs'') hs₁ hadmissible
  · rw [runSteps_append, hrun₁]
    exact hrun₂

/-- What the scheduler promises about places and states. -/
structure PlacedOnce (k : Kernel) : Prop where
  once : ∀ pl pl' u, k.place pl = some u → k.place pl' = some u → pl = pl'
  queued : ∀ cpu prio i u, k.place (.queued cpu prio i) = some u → (k.thread u).state = .runnable
  current : ∀ cpu, k.currentThread cpu ≠ null → (k.thread (k.currentThread cpu)).state = .running
  oneCPU : ∀ cpu cpu', k.currentThread cpu ≠ null → k.currentThread cpu = k.currentThread cpu' →
    cpu = cpu'

theorem Running.placedOnce (h : s.Running) : PlacedOnce s.kernel := by
  refine ⟨fun pl pl' u hpl hpl' => h.arranged.exclusive hpl hpl', fun cpu prio i u hu => ?_,
    fun cpu hcpu => ?_, fun cpu cpu' hcpu heq => ?_⟩
  · exact h.arranged.state _ u hu
  · exact h.arranged.state (.current cpu) _ (Kernel.place_current hcpu)
  · have hplace := Kernel.place_current hcpu
    have hplace' := Kernel.place_current (heq ▸ hcpu)
    rw [← heq] at hplace'
    exact Place.current.inj (h.arranged.exclusive hplace hplace')

/-- Every run from empty queues that builds a tree, fills the queues once and then ages
threads, schedules and takes timer interrupts is defined, and in each of its states no
thread is in two places, queued threads are runnable and current threads are running. -/
theorem always_placedOnce {memory : Kernel} (hmemory : memory.Quiet) (block : Ptr)
    (build moves : List Op) (hbuild : ∀ op ∈ build, op.Creates)
    (hmoves : ∀ op ∈ moves, op.Schedules)
    (hops : Admissible step enabled (start memory block)
      (build ++ [.fillRunqueuesFromBST] ++ moves)) :
    (∃ s, runSteps step (start memory block) (build ++ [.fillRunqueuesFromBST] ++ moves) =
      some s) ∧
    Always step (fun s => PlacedOnce s.kernel) (start memory block)
      (build ++ [.fillRunqueuesFromBST] ++ moves) := by
  obtain ⟨halways, s, hrun, -⟩ := run_total hmemory hbuild hmoves hops
  exact ⟨⟨s, hrun⟩, halways.imp fun s hs => hs.placedOnce⟩

theorem initial_quiet : Kernel.initial.Quiet := ⟨fun _ _ => rfl, fun _ => rfl⟩

/-- Two threads of one process, and two time slices. -/
theorem always_placedOnce_example :
    Always step (fun s => PlacedOnce s.kernel) (start .initial 0xD0000000)
      ([.createKernelProcess 0xD0000100 0xC0100000 ⟨0xD0000200, 0xD0001000, 0xD0000300⟩,
          .createKernelThread 0xD0000100 0xC0100100 ⟨0xD0000400, 0xD0002000, 0xD0000500⟩] ++
        [.fillRunqueuesFromBST] ++
        [.schedule 0 0xD0010000 ⟨0xD0010100, 0xD0011000, 0xD0010200⟩, .ageThreads 0,
          .schedule 0 0xD0020000 ⟨0xD0020100, 0xD0021000, 0xD0020200⟩]) :=
  (always_placedOnce initial_quiet 0xD0000000
    [.createKernelProcess 0xD0000100 0xC0100000 ⟨0xD0000200, 0xD0001000, 0xD0000300⟩,
      .createKernelThread 0xD0000100 0xC0100100 ⟨0xD0000400, 0xD0002000, 0xD0000500⟩]
    [.schedule 0 0xD0010000 ⟨0xD0010100, 0xD0011000, 0xD0010200⟩, .ageThreads 0,
      .schedule 0 0xD0020000 ⟨0xD0020100, 0xD0021000, 0xD0020200⟩]
    (by simp [Op.Creates]) (by simp [Op.Schedules]) (by decide +kernel)).2

end SchedSession

end Senob.Sys
