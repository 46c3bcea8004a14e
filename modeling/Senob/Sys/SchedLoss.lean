import Senob.Sys.ThreadSpec

/-!
# When the scheduler loses threads

`enqueueThread` never reuses a slot: the counter `tail` only grows, and a thread that
arrives when it has reached `MAX_RUNQUEUE_SIZE` is dropped, however few threads wait. In
a run in which no thread arrives at such a queue, every thread stays in a queue or on a
CPU.
-/

namespace Senob.Sys

open Senob.Foundation

namespace Kernel

/-- A live slot of the queue holds the thread. -/
def Waits (k : Kernel) (cpu prio : Nat) (t : Ptr) : Prop :=
  ∃ i < (k.cpuRunqueues cpu).tail prio,
    (k.cpuRunqueues cpu).head prio ≤ i ∧ (k.cpuRunqueues cpu).queues prio i = t

instance (k : Kernel) (cpu prio : Nat) (t : Ptr) : Decidable (k.Waits cpu prio t) :=
  inferInstanceAs (Decidable (∃ i < _, _))

/-- Some live slot holds the thread, or it is the current thread of some CPU. -/
def Keeps (k : Kernel) (t : Ptr) : Prop :=
  ∃ cpu < maxCpus, k.currentThread cpu = t ∨ ∃ prio < maxPriority, k.Waits cpu prio t

instance (k : Kernel) (t : Ptr) : Decidable (k.Keeps t) :=
  inferInstanceAs (Decidable (∃ cpu < _, _ ∨ ∃ prio < _, _))

/-- The number of threads that wait at a priority of a CPU. -/
def waiting (k : Kernel) (cpu prio : Nat) : Nat :=
  (k.cpuRunqueues cpu).tail prio - (k.cpuRunqueues cpu).head prio

/-- The thread is kept at the place, and it is running if that place is a CPU. -/
structure SecureAt (k : Kernel) (t : Ptr) (pl : Place) : Prop where
  inRange : pl.InRange
  place : k.place pl = some t
  running : ∀ cpu, pl = .current cpu → (k.thread t).state = .running

variable {k k' : Kernel} {t u next : Ptr} {cpu : Nat} {pl : Place}

theorem SecureAt.keeps (h : k.SecureAt t pl) : k.Keeps t := by
  cases pl with
  | current cpu => exact ⟨cpu, h.inRange, .inl (eq_of_place_current h.place).1⟩
  | queued cpu prio i =>
      obtain ⟨⟨hhead, htail⟩, hslot⟩ := Option.ite_none_right_eq_some.mp h.place
      exact ⟨cpu, h.inRange.1, .inr ⟨prio, h.inRange.2, i, htail, hhead, Option.some.inj hslot⟩⟩

theorem SecureAt.congr (h : k.SecureAt t pl) (hplace : k'.place = k.place)
    (hstate : (k'.thread t).state = (k.thread t).state) : k'.SecureAt t pl :=
  ⟨h.inRange, hplace ▸ h.place, fun c hc => hstate ▸ h.running c hc⟩

/-- Threads that are kept stay where they are when another one arrives. -/
theorem SecureAt.enqueueThread (h : k.SecureAt u pl) (hordered : k.Ordered) (t : Ptr) (cpu : Nat) :
    (k.enqueueThread t cpu).SecureAt u pl := by
  by_cases hroom : (k.cpuRunqueues cpu).tail (k.queueOf t) < maxRunqueueSize
  · obtain ⟨hfree, hput⟩ := enqueueThread_place hordered hroom
    refine ⟨h.inRange, ?_, fun c hc => ?_⟩
    · rw [hput, Placement.put_of_ne]
      · exact h.place
      · rintro rfl
        exact nomatch hfree.symm.trans h.place
    · rw [(enqueueThread_requeued k t cpu).thread]
      exact h.running c hc
  · rwa [enqueueThread_of_full (Nat.not_lt.mp hroom)]

/-- A thread that finds room is kept. -/
theorem secureAt_enqueueThread (hordered : k.Ordered) (hcpu : cpu < maxCpus)
    (hroom : (k.cpuRunqueues cpu).tail (k.queueOf t) < maxRunqueueSize) :
    (k.enqueueThread t cpu).SecureAt t
      (.queued cpu (k.queueOf t) ((k.cpuRunqueues cpu).tail (k.queueOf t))) := by
  refine ⟨⟨hcpu, k.queueOf_lt_maxPriority t⟩, ?_, nofun⟩
  rw [(enqueueThread_place hordered hroom).2, Placement.put_self]

/-- The queue of the thread that `schedule` is about to preempt has room. -/
def RoomToPreempt (k : Kernel) (cpu : Nat) : Prop :=
  k.Preempts cpu → (k.cpuRunqueues cpu).tail
    ((k.demoted (k.currentThread cpu)).queueOf (k.currentThread cpu)) < maxRunqueueSize

/-- Whether there is room depends on the queues, on the current thread and on its
structure. -/
theorem RoomToPreempt.congr (h : k.RoomToPreempt cpu) (hqueues : k'.cpuRunqueues = k.cpuRunqueues)
    (hcurrent : k'.currentThread = k.currentThread)
    (hthread : k'.thread (k.currentThread cpu) = k.thread (k.currentThread cpu)) :
    k'.RoomToPreempt cpu := by
  have hqueue : (k'.demoted (k.currentThread cpu)).queueOf (k.currentThread cpu) =
      (k.demoted (k.currentThread cpu)).queueOf (k.currentThread cpu) := by
    simp only [queueOf, demoted, demotePriority, modifyThread_thread_self, hthread]
    split <;> simp [hthread]
  intro hpreempts
  rw [Preempts, hcurrent, hthread] at hpreempts
  rw [hcurrent, hqueue, hqueues]
  exact h hpreempts

/-- After the handling of the old thread, no thread depends on the place of the CPU. -/
theorem SecureAt.preempt (h : k.SecureAt u pl) (hordered : k.Ordered) (hcpu : cpu < maxCpus)
    (hroom : k.RoomToPreempt cpu) :
    ∃ pl', pl' ≠ .current cpu ∧ (k.preempt cpu).SecureAt u pl' := by
  by_cases hpreempts : k.Preempts cpu
  · rw [preempt_of hpreempts]
    have hdemoted := (demoted_rethreaded k (k.currentThread cpu)).scheduler
    have hordered' := hdemoted.ordered hordered
    have hroom' := hroom hpreempts
    rw [← hdemoted.cpuRunqueues] at hroom'
    by_cases hu : u = k.currentThread cpu
    · subst hu
      exact ⟨.queued .., by simp, secureAt_enqueueThread hordered' hcpu hroom'⟩
    · refine ⟨pl, ?_, (h.congr hdemoted.place ?_).enqueueThread hordered' _ _⟩
      · rintro rfl
        exact hu (eq_of_place_current h.place).1.symm
      · rw [demoted_thread_of_ne hu]
  · rw [preempt_of_not hpreempts]
    refine ⟨pl, ?_, h⟩
    rintro rfl
    obtain ⟨rfl, hnull⟩ := eq_of_place_current h.place
    exact hpreempts ⟨hnull, h.running cpu rfl⟩

/-- Only the thread that is returned leaves its place. -/
theorem SecureAt.dequeueThread (h : k.SecureAt u pl) (hu : u ≠ (k.dequeueThread cpu).2) :
    (k.dequeueThread cpu).1.SecureAt u pl := by
  obtain hnone | ⟨prio, i, -, hslot, hclear⟩ := dequeueThread_cases k cpu
  · rwa [hnone]
  · refine ⟨h.inRange, ?_, fun c hc => ?_⟩
    · rw [hclear, Placement.clear_of_ne]
      · exact h.place
      · rintro rfl
        exact hu (Option.some.inj (h.place.symm.trans hslot))
    · rw [(dequeueThread_requeued k cpu).thread]
      exact h.running c hc

theorem SecureAt.dispatch (h : k.SecureAt u pl) (hpl : pl ≠ .current cpu) (hu : u ≠ next) :
    (k.dispatch cpu next).SecureAt u pl := by
  refine ⟨h.inRange, ?_, fun c hc => ?_⟩
  · rw [dispatch_place_of_ne hpl]
    exact h.place
  · rw [dispatch_thread_of_ne hu]
    exact h.running c hc

theorem secureAt_dispatch (hcpu : cpu < maxCpus) (hnext : next ≠ null) :
    (k.dispatch cpu next).SecureAt next (.current cpu) :=
  ⟨hcpu, dispatch_place_self hnext, fun _ _ => dispatch_state⟩

end Kernel

/-! ## Sessions -/

/-- The kernel, with the threads that have been passed to `enqueueThread` so far. -/
structure QueueSession where
  kernel : Kernel
  passed : List Ptr

namespace QueueSession

inductive Op where
  | enqueueThread (t : Ptr) (cpu : Nat)
  | schedule (cpu : Nat) (newProcess : Ptr) (b : ThreadBlocks)

def step (s : QueueSession) : Op → Option QueueSession
  | .enqueueThread t cpu => some ⟨s.kernel.enqueueThread t cpu, t :: s.passed⟩
  | .schedule cpu newProcess b =>
      (s.kernel.schedule cpu newProcess b).map fun kernel =>
        ⟨kernel, if s.kernel.Preempts cpu then s.kernel.currentThread cpu :: s.passed
          else s.passed⟩

/-- The block of a new thread is not a thread that the scheduler knows. -/
def enabled (s : QueueSession) : Op → Prop
  | .enqueueThread t cpu => t ≠ null ∧ cpu < maxCpus
  | .schedule cpu _ b =>
      cpu < maxCpus ∧ b.thread ∉ s.passed ∧ b.thread ≠ s.kernel.currentThread cpu

/-- The thread that the operation puts into a queue, if there is one, finds room. -/
def Room (s : QueueSession) : Op → Prop
  | .enqueueThread t cpu =>
      (s.kernel.cpuRunqueues cpu).tail (s.kernel.queueOf t) < maxRunqueueSize
  | .schedule cpu _ _ => s.kernel.RoomToPreempt cpu

instance (s : QueueSession) : ∀ op, Decidable (s.enabled op)
  | .enqueueThread .. => inferInstanceAs (Decidable (_ ∧ _))
  | .schedule .. => inferInstanceAs (Decidable (_ ∧ _ ∧ _))

instance (s : QueueSession) : ∀ op, Decidable (s.Room op)
  | .enqueueThread .. => inferInstanceAs (Decidable (_ < _))
  | .schedule .. => inferInstanceAs (Decidable (_ → _))

structure Sound (s : QueueSession) : Prop where
  ordered : s.kernel.Ordered
  secure : ∀ t ∈ s.passed, t ≠ null ∧ ∃ pl, s.kernel.SecureAt t pl

variable {s s' : QueueSession} {t newProcess : Ptr} {cpu : Nat} {b : ThreadBlocks}

theorem Sound.enqueueThread (h : s.Sound) (hop : s.enabled (.enqueueThread t cpu))
    (hroom : s.Room (.enqueueThread t cpu)) :
    Sound ⟨s.kernel.enqueueThread t cpu, t :: s.passed⟩ := by
  refine ⟨h.ordered.enqueueThread t cpu, fun u hu => ?_⟩
  obtain rfl | hu := List.mem_cons.mp hu
  · exact ⟨hop.1, _, Kernel.secureAt_enqueueThread h.ordered hop.2 hroom⟩
  · obtain ⟨hnull, pl, hpl⟩ := h.secure u hu
    exact ⟨hnull, pl, hpl.enqueueThread h.ordered t cpu⟩

/-- The threads that are to be kept after `schedule` are kept before it. -/
theorem Sound.secure_preempted (h : s.Sound) (hcpu : cpu < maxCpus) {t : Ptr}
    (ht : t ∈ if s.kernel.Preempts cpu then s.kernel.currentThread cpu :: s.passed
      else s.passed) :
    (t = s.kernel.currentThread cpu ∨ t ∈ s.passed) ∧ t ≠ null ∧
      ∃ pl, s.kernel.SecureAt t pl := by
  by_cases hpreempts : s.kernel.Preempts cpu
  · rw [if_pos hpreempts] at ht
    obtain rfl | ht := List.mem_cons.mp ht
    · refine ⟨.inl rfl, hpreempts.1, .current cpu, hcpu, Kernel.place_current hpreempts.1, ?_⟩
      exact fun _ _ => hpreempts.2
    · exact ⟨.inr ht, h.secure t ht⟩
  · rw [if_neg hpreempts] at ht
    exact ⟨.inr ht, h.secure t ht⟩

theorem Sound.schedule (h : s.Sound) (hop : s.enabled (.schedule cpu newProcess b))
    (hroom : s.Room (.schedule cpu newProcess b))
    (hrun : s.step (.schedule cpu newProcess b) = some s') : s'.Sound := by
  obtain ⟨hcpu, hpassed, hcurrent⟩ := hop
  obtain ⟨k', hschedule, rfl⟩ := Option.map_eq_some_iff.mp hrun
  obtain ⟨k₁, pid, idleProcess, next, hidle, -, hnext, rfl⟩ := Kernel.schedule_cases hschedule
  obtain ⟨⟨hsched, -, hthread, -⟩, -⟩ := Kernel.initIdle_added hidle
  have hordered := hsched.ordered h.ordered
  have hroom₁ : k₁.RoomToPreempt cpu :=
    hroom.congr hsched.cpuRunqueues hsched.currentThread (hthread _ hcurrent.symm)
  refine ⟨(hordered.preempt cpu).dequeueThread cpu, fun t ht => ?_⟩
  obtain ⟨hknown, hnull, pl, hpl⟩ := h.secure_preempted hcpu ht
  refine ⟨hnull, ?_⟩
  by_cases ht : t = next
  · subst ht
    exact ⟨_, Kernel.secureAt_dispatch hcpu hnull⟩
  · have hne : t ≠ b.thread := by
      rintro rfl
      exact hknown.elim hcurrent hpassed
    have hpl₁ : k₁.SecureAt t pl := hpl.congr hsched.place (by rw [hthread t hne])
    obtain ⟨pl', hplace, hpl'⟩ := hpl₁.preempt hordered hcpu hroom₁
    -- The thread is not the dequeued one: that one is dispatched, unless it is null.
    have hdequeued : t ≠ ((k₁.preempt cpu).dequeueThread cpu).2 := by
      intro heq
      rw [← heq, if_neg hnull] at hnext
      exact ht hnext.symm
    exact ⟨pl', (hpl'.dequeueThread hdequeued).dispatch hplace ht⟩

theorem Sound.step (h : s.Sound) {op : Op} (hop : s.enabled op) (hroom : s.Room op)
    (hrun : s.step op = some s') : s'.Sound := by
  cases op with
  | enqueueThread t cpu =>
      obtain rfl := Option.some.inj hrun
      exact h.enqueueThread hop hroom
  | schedule cpu newProcess b => exact h.schedule hop hroom hrun

/-! ## Results about runs -/

/-- In every run in which each thread that enters a queue finds room, every thread that
was passed to `enqueueThread` is kept in every state reached. -/
theorem always_kept {memory : Kernel} (hmemory : memory.Quiet) (ops : List Op)
    (hops : Admissible step (fun s op => s.enabled op ∧ s.Room op) ⟨memory, []⟩ ops) :
    Always step (fun s => ∀ t ∈ s.passed, s.kernel.Keeps t) ⟨memory, []⟩ ops := by
  have hstart : Sound ⟨memory, []⟩ := ⟨hmemory.ordered, nofun⟩
  have hinv := always_of_invariant Sound
    (fun s op s' hs hop hrun => hs.step hop.1 hop.2 hrun) hstart hops
  refine hinv.imp fun s hs t ht => ?_
  obtain ⟨-, pl, hpl⟩ := hs.secure t ht
  exact hpl.keeps

/-- The kernel after `initProc`, with runnable threads in memory. -/
def runnableMemory : Kernel := { Kernel.initial with
  tree := Kernel.initial.tree.nodePreparation 0xD0000000
  thread := fun _ => { Thread.zero with state := .runnable } }

theorem runnableMemory_quiet : runnableMemory.Quiet := ⟨fun _ _ => rfl, fun _ => rfl⟩

/-- Sixty-four threads enter the queue of priority 0, one of them is dispatched, and
another thread arrives. -/
def lossyRun : List Op :=
  (List.range 64).map (fun i => .enqueueThread (0xD0001000 + 64 * i) 0) ++
    [.schedule 0 0xD0010000 ⟨0xD0010040, 0xD0011000, 0xD0010080⟩, .enqueueThread 0xD0002000 0]

/-- A thread is lost although no more than `MAX_RUNQUEUE_SIZE` threads ever wait. -/
theorem lossyRun_loses :
    ¬ ∀ memory : Kernel, memory.Quiet → ∀ ops : List Op,
      Admissible step enabled ⟨memory, []⟩ ops →
      Always step (fun s => ∀ cpu < maxCpus, ∀ prio < maxPriority,
        s.kernel.waiting cpu prio ≤ maxRunqueueSize) ⟨memory, []⟩ ops →
      Always step (fun s => ∀ t ∈ s.passed, s.kernel.Keeps t) ⟨memory, []⟩ ops := by
  intro hclaim
  have hkept := hclaim runnableMemory runnableMemory_quiet lossyRun
    (by decide +kernel) (by decide +kernel)
  have hpassed : ∀ s ∈ runSteps step ⟨runnableMemory, []⟩ lossyRun, 0xD0002000 ∈ s.passed := by
    decide +kernel
  have hlast : ∀ s ∈ runSteps step ⟨runnableMemory, []⟩ lossyRun, s.kernel.Keeps 0xD0002000 :=
    fun s hs => hkept.last hs _ (hpassed s hs)
  revert hlast
  decide +kernel

/-- One thread waits, and is dispatched. -/
theorem always_kept_twoOps :
    Always step (fun s => ∀ t ∈ s.passed, s.kernel.Keeps t) ⟨runnableMemory, []⟩
      [.enqueueThread 0xD0001000 0, .schedule 0 0xD0010000 ⟨0xD0010040, 0xD0011000, 0xD0010080⟩] :=
  always_kept runnableMemory_quiet _ (by decide +kernel)

end QueueSession

end Senob.Sys
