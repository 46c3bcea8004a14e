import Senob.Foundation.LevelQueues
import Senob.Sys.SchedPlaces

/-!
# The run queues as queues by level

Each level of a run queue is an array with two counters, and only the counters say which
entries wait. Read as lists, the levels are first-in first-out queues: `enqueueThread`
lets a thread arrive at the level of its priority, unless sixty-four have arrived there
before, and `dequeueThread` serves the lowest level at which a thread waits.
-/

namespace Senob.Sys

open Senob.Foundation

namespace Runqueue

variable {rq : Runqueue} {prio : Nat} {t : Ptr}

/-- The threads that wait at each level. -/
def waiting (rq : Runqueue) : LevelQueues Ptr :=
  fun prio => segment (rq.queues prio) (rq.head prio) (rq.tail prio)

theorem waiting_eq_nil_iff : rq.waiting prio = [] ↔ rq.tail prio ≤ rq.head prio :=
  segment_eq_nil_iff

theorem waiting_push (h : rq.head prio ≤ rq.tail prio) :
    (rq.push prio t).waiting = rq.waiting.arrive prio t := by
  funext p
  by_cases hp : p = prio
  · subst hp
    simp only [waiting, push, Function.update_self, LevelQueues.arrive]
    exact segment_push h
  · simp only [waiting, push, LevelQueues.arrive, Function.update_of_ne hp]

theorem firstWaiting_eq_lowest : rq.firstWaiting = rq.waiting.lowest maxPriority := by
  refine congrArg (fun p => List.find? p (List.range maxPriority)) (funext fun prio => ?_)
  rw [Bool.eq_iff_iff, decide_eq_true_iff, Bool.not_eq_true', List.isEmpty_eq_false_iff, ne_eq,
    waiting_eq_nil_iff, Nat.not_le]

/-- Reading at `head` yields the thread that has waited longest. -/
theorem waiting_eq_cons (h : rq.head prio < rq.tail prio) :
    rq.waiting prio = rq.queues prio (rq.head prio) :: (rq.advance prio).waiting prio := by
  simp only [waiting, advance, Function.update_self]
  exact segment_eq_cons h

theorem waiting_advance (h : rq.firstWaiting = some prio) :
    (rq.advance prio).waiting = rq.waiting.serve maxPriority := by
  rw [LevelQueues.serve_of_some (firstWaiting_eq_lowest.symm.trans h)]
  have hcons := waiting_eq_cons (Kernel.Runqueue.firstWaiting_spec h).2
  funext p
  by_cases hp : p = prio
  · subst hp
    rw [Function.update_self, hcons, List.tail_cons]
  · simp only [waiting, advance, Function.update_of_ne hp]

/-- The total over the levels of what the two counters enclose. -/
theorem waiting_total (rq : Runqueue) : rq.waiting.total maxPriority =
    ∑ prio ∈ Finset.range maxPriority, (rq.tail prio - rq.head prio) :=
  Finset.sum_congr rfl fun _ _ => length_segment

end Runqueue

namespace Kernel

/-- The variables of `sched.c` as they are before `main`: nothing waits. -/
structure QueuesZero (k : Kernel) : Prop where
  head : ∀ cpu prio, (k.cpuRunqueues cpu).head prio = 0
  tail : ∀ cpu prio, (k.cpuRunqueues cpu).tail prio = 0
  threadsPerCPU : ∀ cpu, k.threadsPerCPU cpu = 0

/-- No level has been written beyond its array. -/
def Bounded (k : Kernel) : Prop :=
  ∀ cpu prio, (k.cpuRunqueues cpu).tail prio ≤ maxRunqueueSize

/-- The threads that wait on a CPU, at each level in the order of their arrival. -/
def waitingOn (k : Kernel) (cpu : Nat) : LevelQueues Ptr := (k.cpuRunqueues cpu).waiting

/-- What every call keeps of the run queues: each level has been read no further than
written, no level has been written beyond its array, and the total of a CPU is right. -/
structure QueuesSound (k : Kernel) : Prop where
  ordered : k.Ordered
  tail_le : k.Bounded
  threadsPerCPU : ∀ cpu, (k.threadsPerCPU cpu).toNat = (k.waitingOn cpu).total maxPriority

variable {k k' : Kernel} {t : Ptr} {cpu cpu' prio : Nat}

theorem Bounded.congr (h : k.Bounded) (hqueues : k'.cpuRunqueues = k.cpuRunqueues) :
    k'.Bounded := by
  unfold Bounded
  rw [hqueues]
  exact h

theorem QueuesZero.bounded (h : k.QueuesZero) : k.Bounded := fun cpu prio => by
  rw [h.tail]
  exact Nat.zero_le _

theorem QueuesZero.sound (h : k.QueuesZero) : k.QueuesSound where
  ordered cpu prio := by rw [h.head, h.tail]
  tail_le := h.bounded
  threadsPerCPU cpu := by
    rw [h.threadsPerCPU, waitingOn, Runqueue.waiting_total]
    simp [h.head, h.tail]

theorem QueuesZero.waitingOn_eq_nil (h : k.QueuesZero) (cpu prio : Nat) :
    k.waitingOn cpu prio = [] :=
  Runqueue.waiting_eq_nil_iff.mpr (by rw [h.tail]; exact Nat.zero_le _)

theorem QueuesSound.congr (h : k.QueuesSound)
    (hqueues : k'.cpuRunqueues = k.cpuRunqueues) (hcounts : k'.threadsPerCPU = k.threadsPerCPU) :
    k'.QueuesSound where
  ordered := by unfold Ordered; rw [hqueues]; exact h.ordered
  tail_le := h.tail_le.congr hqueues
  threadsPerCPU := by unfold waitingOn; rw [hqueues, hcounts]; exact h.threadsPerCPU

/-- At most `MAX_PRIORITY * MAX_RUNQUEUE_SIZE` threads wait on a CPU. -/
theorem QueuesSound.total_le (h : k.QueuesSound) (cpu : Nat) :
    (k.waitingOn cpu).total maxPriority ≤ 320 := by
  rw [waitingOn, Runqueue.waiting_total]
  calc ∑ prio ∈ Finset.range maxPriority,
        ((k.cpuRunqueues cpu).tail prio - (k.cpuRunqueues cpu).head prio)
      ≤ ∑ _prio ∈ Finset.range maxPriority, maxRunqueueSize :=
        Finset.sum_le_sum fun prio _ => (Nat.sub_le _ _).trans (h.tail_le cpu prio)
    _ = 320 := by simp [maxPriority, maxRunqueueSize]

/-! ## What the two calls do to the queues -/

theorem waitingOn_enqueueThread (hordered : k.Ordered)
    (hroom : (k.cpuRunqueues cpu).tail (k.queueOf t) < maxRunqueueSize) (cpu' : Nat) :
    (k.enqueueThread t cpu).waitingOn cpu' =
      if cpu' = cpu then (k.waitingOn cpu).arrive (k.queueOf t) t else k.waitingOn cpu' := by
  rw [enqueueThread_of_room hroom]
  split
  next hcpu =>
    subst hcpu
    simp only [waitingOn, Function.update_self]
    exact Runqueue.waiting_push (hordered _ _)
  next hcpu => simp only [waitingOn, Function.update_of_ne hcpu]

theorem enqueueThread_threadsPerCPU
    (hroom : (k.cpuRunqueues cpu).tail (k.queueOf t) < maxRunqueueSize) :
    (k.enqueueThread t cpu).threadsPerCPU =
      Function.update k.threadsPerCPU cpu (k.threadsPerCPU cpu + 1) := by
  rw [enqueueThread_of_room hroom]

theorem dequeueThread_threadsPerCPU (h : (k.cpuRunqueues cpu).firstWaiting = some prio) :
    (k.dequeueThread cpu).1.threadsPerCPU =
      Function.update k.threadsPerCPU cpu (k.threadsPerCPU cpu - 1) := by
  rw [dequeueThread_of_some h]

theorem enqueueThread_head (k : Kernel) (t : Ptr) (cpu cpu' prio : Nat) :
    ((k.enqueueThread t cpu).cpuRunqueues cpu').head prio = (k.cpuRunqueues cpu').head prio := by
  unfold enqueueThread
  dsimp only
  split
  next => rfl
  next =>
    by_cases hc : cpu' = cpu
    · subst hc
      simp [Runqueue.push]
    · simp [hc]

theorem enqueueThread_tail (hroom : (k.cpuRunqueues cpu).tail (k.queueOf t) < maxRunqueueSize)
    (cpu' prio : Nat) : ((k.enqueueThread t cpu).cpuRunqueues cpu').tail prio =
      (k.cpuRunqueues cpu').tail prio + if cpu' = cpu ∧ prio = k.queueOf t then 1 else 0 := by
  rw [enqueueThread_of_room hroom]
  by_cases hc : cpu' = cpu
  · subst hc
    by_cases hp : prio = k.queueOf t
    · subst hp
      simp [Runqueue.push]
    · simp [Runqueue.push, hp]
  · simp [hc]

theorem Bounded.enqueueThread (h : k.Bounded) (t : Ptr) (cpu : Nat) :
    (k.enqueueThread t cpu).Bounded := by
  by_cases hroom : (k.cpuRunqueues cpu).tail (k.queueOf t) < maxRunqueueSize
  · intro c p
    rw [enqueueThread_tail hroom]
    split
    next heq =>
      obtain ⟨rfl, rfl⟩ := heq
      exact hroom
    next => exact h c p
  · rwa [enqueueThread_of_full (Nat.not_lt.mp hroom)]

theorem QueuesSound.enqueueThread (h : k.QueuesSound) (t : Ptr) (cpu : Nat) :
    (k.enqueueThread t cpu).QueuesSound := by
  by_cases hroom : (k.cpuRunqueues cpu).tail (k.queueOf t) < maxRunqueueSize
  · refine ⟨h.ordered.enqueueThread t cpu, h.tail_le.enqueueThread t cpu, fun c => ?_⟩
    rw [waitingOn_enqueueThread h.ordered hroom]
    have hcount := h.threadsPerCPU c
    split
    next hc =>
      subst hc
      have hle := h.total_le c
      rw [LevelQueues.total_arrive (k.queueOf_lt_maxPriority t), ← hcount,
        enqueueThread_threadsPerCPU hroom, Function.update_self, BitVec.toNat_add]
      have hone : (1 : Word).toNat = 1 := rfl
      omega
    next hc => rw [enqueueThread_threadsPerCPU hroom, Function.update_of_ne hc, hcount]
  · rwa [enqueueThread_of_full (Nat.not_lt.mp hroom)]

theorem waitingOn_dequeueThread (k : Kernel) (cpu cpu' : Nat) :
    (k.dequeueThread cpu).1.waitingOn cpu' =
      if cpu' = cpu then (k.waitingOn cpu).serve maxPriority else k.waitingOn cpu' := by
  cases hfirst : (k.cpuRunqueues cpu).firstWaiting with
  | none =>
      have hlowest := Runqueue.firstWaiting_eq_lowest.symm.trans hfirst
      rw [dequeueThread_of_none hfirst, waitingOn, waitingOn, LevelQueues.serve_of_none hlowest]
      split
      next hcpu => rw [hcpu]
      next => rfl
  | some prio =>
      rw [dequeueThread_of_some hfirst]
      split
      next hcpu =>
        subst hcpu
        simp only [waitingOn, Function.update_self]
        exact Runqueue.waiting_advance hfirst
      next hcpu => simp only [waitingOn, Function.update_of_ne hcpu]

/-- `dequeueThread` returns the thread that is to be served next. -/
theorem dequeueThread_eq_next (k : Kernel) (cpu : Nat) :
    (k.dequeueThread cpu).2 = ((k.waitingOn cpu).next maxPriority).getD null := by
  cases hfirst : (k.cpuRunqueues cpu).firstWaiting with
  | none =>
      have hlowest := Runqueue.firstWaiting_eq_lowest.symm.trans hfirst
      rw [dequeueThread_of_none hfirst, waitingOn, LevelQueues.next, hlowest]
      rfl
  | some prio =>
      have hlowest := Runqueue.firstWaiting_eq_lowest.symm.trans hfirst
      rw [dequeueThread_of_some hfirst, waitingOn, LevelQueues.next_of_lowest hlowest,
        Runqueue.waiting_eq_cons (Runqueue.firstWaiting_spec hfirst).2]
      rfl

/-- No level is written by `dequeueThread`. -/
theorem dequeueThread_tail (k : Kernel) (cpu cpu' prio : Nat) :
    ((k.dequeueThread cpu).1.cpuRunqueues cpu').tail prio = (k.cpuRunqueues cpu').tail prio := by
  cases hfirst : (k.cpuRunqueues cpu).firstWaiting with
  | none => rw [dequeueThread_of_none hfirst]
  | some p =>
      rw [dequeueThread_of_some hfirst]
      by_cases hc : cpu' = cpu
      · subst hc
        simp [Runqueue.advance]
      · simp [hc]

theorem Bounded.dequeueThread (h : k.Bounded) (cpu : Nat) : (k.dequeueThread cpu).1.Bounded := by
  intro c p
  rw [dequeueThread_tail]
  exact h c p

theorem QueuesSound.dequeueThread (h : k.QueuesSound) (cpu : Nat) :
    (k.dequeueThread cpu).1.QueuesSound := by
  refine ⟨h.ordered.dequeueThread cpu, h.tail_le.dequeueThread cpu, fun c => ?_⟩
  have hcount := h.threadsPerCPU c
  rw [waitingOn_dequeueThread]
  cases hfirst : (k.cpuRunqueues cpu).firstWaiting with
  | none =>
      have hlowest : (k.waitingOn cpu).lowest maxPriority = none :=
        Runqueue.firstWaiting_eq_lowest.symm.trans hfirst
      rw [dequeueThread_of_none hfirst, LevelQueues.serve_of_none hlowest, hcount]
      split
      next hc => rw [hc]
      next => rfl
  | some prio =>
      have hlowest := Runqueue.firstWaiting_eq_lowest.symm.trans hfirst
      have hserved : ((k.waitingOn cpu).serve maxPriority).total maxPriority + 1 =
          (k.waitingOn cpu).total maxPriority := LevelQueues.total_serve hlowest
      rw [dequeueThread_threadsPerCPU hfirst]
      split
      next hc =>
        subst hc
        have hle := h.total_le c
        have hone : (1 : Word).toNat = 1 := rfl
        rw [Function.update_self, BitVec.toNat_sub, hcount]
        omega
      next hc => rw [Function.update_of_ne hc, hcount]

end Kernel

/-! ## Sessions -/

/-- The kernel, with what waits according to the calls so far: the threads at each level
of each CPU, and how many have been accepted there. -/
structure RunqueueSession where
  kernel : Kernel
  waiting : Nat → LevelQueues Ptr
  accepted : Nat → Nat → Nat

namespace RunqueueSession

/-- The calls. The priority is the one that the thread has when it is enqueued. -/
inductive Op where
  | enqueueThread (t : Ptr) (dynamicPriority : Word) (cpu : Nat)
  | dequeueThread (cpu : Nat)

/-- The level that a priority stands for: the last one, if there is no such level. -/
def level (dynamicPriority : Word) : Nat := min dynamicPriority.toNat (maxPriority - 1)

/-- The memory when `enqueueThread` is called. -/
def set (k : Kernel) (t : Ptr) (dynamicPriority : Word) : Kernel :=
  k.modifyThread t fun x => { x with dynamicPriority := dynamicPriority }

def step (s : RunqueueSession) : Op → Option RunqueueSession
  | .enqueueThread t dynamicPriority cpu =>
      let kernel := (set s.kernel t dynamicPriority).enqueueThread t cpu
      let prio := level dynamicPriority
      if s.accepted cpu prio < maxRunqueueSize then
        some ⟨kernel,
          Function.update s.waiting cpu ((s.waiting cpu).arrive prio t),
          Function.update s.accepted cpu
            (Function.update (s.accepted cpu) prio (s.accepted cpu prio + 1))⟩
      else some { s with kernel := kernel }
  | .dequeueThread cpu =>
      some { s with
        kernel := (s.kernel.dequeueThread cpu).1
        waiting := Function.update s.waiting cpu ((s.waiting cpu).serve maxPriority) }

def enabled (_ : RunqueueSession) : Op → Prop
  | .enqueueThread t _ cpu => t ≠ null ∧ cpu < maxCpus
  | .dequeueThread cpu => cpu < maxCpus

instance (s : RunqueueSession) : ∀ op, Decidable (s.enabled op)
  | .enqueueThread .. => inferInstanceAs (Decidable (_ ∧ _))
  | .dequeueThread _ => inferInstanceAs (Decidable (_ < _))

/-- The element `queues[prio][i]` of the run queue of the CPU that a call accesses, as
`(cpu, prio, i)`. -/
def access (s : RunqueueSession) : Op → Option (Nat × Nat × Nat)
  | .enqueueThread t dynamicPriority cpu =>
      let k := set s.kernel t dynamicPriority
      let prio := k.queueOf t
      if maxRunqueueSize ≤ (k.cpuRunqueues cpu).tail prio then none
      else some (cpu, prio, (k.cpuRunqueues cpu).tail prio)
  | .dequeueThread cpu =>
      (s.kernel.cpuRunqueues cpu).firstWaiting.map fun prio =>
        (cpu, prio, (s.kernel.cpuRunqueues cpu).head prio)

/-- The counters and the queues of the kernel say what waits. -/
structure Represented (s : RunqueueSession) : Prop where
  counters : ∀ cpu < maxCpus, ∀ prio < maxPriority,
    (s.kernel.cpuRunqueues cpu).head prio ≤ (s.kernel.cpuRunqueues cpu).tail prio ∧
      (s.kernel.cpuRunqueues cpu).tail prio ≤ maxRunqueueSize
  access : ∀ op, s.enabled op → ∀ cpu prio i, s.access op = some (cpu, prio, i) →
    cpu < maxCpus ∧ prio < maxPriority ∧ i < maxRunqueueSize
  threadsPerCPU : ∀ cpu < maxCpus, (s.kernel.threadsPerCPU cpu).toNat =
    ∑ prio ∈ Finset.range maxPriority,
      ((s.kernel.cpuRunqueues cpu).tail prio - (s.kernel.cpuRunqueues cpu).head prio)
  waiting : ∀ cpu < maxCpus, ∀ prio < maxPriority, s.waiting cpu prio =
    segment ((s.kernel.cpuRunqueues cpu).queues prio) ((s.kernel.cpuRunqueues cpu).head prio)
      ((s.kernel.cpuRunqueues cpu).tail prio)
  dequeueThread : ∀ cpu < maxCpus, ∀ prio < maxPriority, ∀ t rest,
    (∀ p < prio, s.waiting cpu p = []) → s.waiting cpu prio = t :: rest →
    t ≠ null ∧ (s.kernel.dequeueThread cpu).2 = t
  dequeueThread_eq_null : ∀ cpu < maxCpus,
    (s.kernel.dequeueThread cpu).2 = null ↔ ∀ prio < maxPriority, s.waiting cpu prio = []

/-- The queues of the kernel are what the calls make of them. -/
structure Sound (s : RunqueueSession) : Prop where
  sound : s.kernel.QueuesSound
  waiting : ∀ cpu, s.waiting cpu = s.kernel.waitingOn cpu
  accepted : ∀ cpu prio, s.accepted cpu prio = (s.kernel.cpuRunqueues cpu).tail prio
  ne_null : ∀ cpu prio, ∀ t ∈ s.waiting cpu prio, t ≠ null

variable {s s' : RunqueueSession} {t : Ptr} {w : Word} {cpu : Nat}

@[simp] theorem set_queueOf (k : Kernel) (t : Ptr) (w : Word) :
    (set k t w).queueOf t = level w := by
  rw [Kernel.queueOf, set, Kernel.modifyThread_thread_self, level]

theorem level_lt (w : Word) : level w < maxPriority := by
  unfold level maxPriority
  omega

theorem sound_set {k : Kernel} (h : k.QueuesSound) (t : Ptr) (w : Word) : (set k t w).QueuesSound :=
  h.congr rfl rfl

theorem Sound.represented (h : s.Sound) : s.Represented where
  counters cpu _ prio _ := ⟨h.sound.ordered cpu prio, h.sound.tail_le cpu prio⟩
  access op hop cpu prio i haccess := by
    cases op with
    | enqueueThread t w c =>
        simp only [access, set_queueOf] at haccess
        obtain ⟨hroom, heq⟩ := Option.ite_none_left_eq_some.mp haccess
        obtain ⟨rfl, rfl, rfl⟩ : c = cpu ∧ _ = prio ∧ _ = i := by simpa using heq
        exact ⟨hop.2, level_lt w, Nat.not_le.mp hroom⟩
    | dequeueThread c =>
        obtain ⟨p, hfirst, heq⟩ := Option.map_eq_some_iff.mp haccess
        obtain ⟨rfl, rfl, rfl⟩ : c = cpu ∧ _ = prio ∧ _ = i := by simpa using heq
        obtain ⟨hprio, hwaits⟩ := Kernel.Runqueue.firstWaiting_spec hfirst
        exact ⟨hop, hprio, hwaits.trans_le (h.sound.tail_le c p)⟩
  threadsPerCPU cpu _ := by
    rw [h.sound.threadsPerCPU, Kernel.waitingOn, Runqueue.waiting_total]
  waiting cpu _ prio _ := congrFun (h.waiting cpu) prio
  dequeueThread cpu _ prio hprio t rest hlower hlevel := by
    have hnext : (s.waiting cpu).next maxPriority = some t :=
      LevelQueues.next_eq_some_iff.mpr ⟨prio, hprio, hlower, rest, hlevel⟩
    refine ⟨h.ne_null cpu prio t (by simp [hlevel]), ?_⟩
    rw [Kernel.dequeueThread_eq_next, ← h.waiting, hnext, Option.getD_some]
  dequeueThread_eq_null cpu _ := by
    rw [Kernel.dequeueThread_eq_next, ← h.waiting, ← LevelQueues.next_eq_none_iff]
    cases hnext : (s.waiting cpu).next maxPriority with
    | none => exact iff_of_true rfl rfl
    | some t =>
        obtain ⟨prio, -, -, rest, hlevel⟩ := LevelQueues.next_eq_some_iff.mp hnext
        exact iff_of_false (h.ne_null cpu prio t (by simp [hlevel])) nofun

/-- Nobody waits on memory that holds zeros. -/
def start (memory : Kernel) : RunqueueSession := ⟨memory, fun _ _ => [], fun _ _ => 0⟩

theorem sound_start {memory : Kernel} (h : memory.QueuesZero) : (start memory).Sound where
  sound := h.sound
  waiting cpu := funext fun prio => (h.waitingOn_eq_nil cpu prio).symm
  accepted cpu prio := (h.tail cpu prio).symm
  ne_null _ _ _ ht := nomatch ht

theorem Sound.enqueueThread (h : s.Sound) (hop : s.enabled (.enqueueThread t w cpu))
    (hrun : s.step (.enqueueThread t w cpu) = some s') : s'.Sound := by
  have hsound := sound_set h.sound t w
  have htail : (set s.kernel t w).cpuRunqueues = s.kernel.cpuRunqueues := rfl
  simp only [step] at hrun
  rw [h.accepted] at hrun
  split at hrun
  next hroom =>
    obtain rfl := Option.some.inj hrun
    have hroom' : ((set s.kernel t w).cpuRunqueues cpu).tail ((set s.kernel t w).queueOf t) <
        maxRunqueueSize := by rwa [set_queueOf]
    refine ⟨hsound.enqueueThread t cpu, fun c => ?_, fun c p => ?_, fun c p u hu => ?_⟩
    · change Function.update s.waiting cpu _ c = _
      rw [Kernel.waitingOn_enqueueThread hsound.ordered hroom', set_queueOf]
      by_cases hc : c = cpu
      · subst hc
        rw [if_pos rfl, Function.update_self, h.waiting]
        rfl
      · rw [if_neg hc, Function.update_of_ne hc, h.waiting]
        rfl
    · rw [Kernel.enqueueThread_of_room hroom', set_queueOf]
      by_cases hc : c = cpu
      · subst hc
        by_cases hp : p = level w
        · subst hp
          simp [Runqueue.push, htail]
        · simp [Runqueue.push, htail, hp, h.accepted]
      · simp [hc, htail, h.accepted]
    · change u ∈ Function.update s.waiting cpu _ c p at hu
      by_cases hc : c = cpu
      · subst hc
        rw [Function.update_self] at hu
        by_cases hp : p = level w
        · subst hp
          rw [LevelQueues.arrive, Function.update_self, List.mem_append, List.mem_singleton] at hu
          obtain hu | rfl := hu
          · exact h.ne_null c _ u hu
          · exact hop.1
        · rw [LevelQueues.arrive, Function.update_of_ne hp] at hu
          exact h.ne_null c p u hu
      · rw [Function.update_of_ne hc] at hu
        exact h.ne_null c p u hu
  next hfull =>
    obtain rfl := Option.some.inj hrun
    have hfull' : maxRunqueueSize ≤
        ((set s.kernel t w).cpuRunqueues cpu).tail ((set s.kernel t w).queueOf t) := by
      rw [set_queueOf]
      exact Nat.not_lt.mp hfull
    rw [Kernel.enqueueThread_of_full hfull']
    exact ⟨hsound, h.waiting, h.accepted, h.ne_null⟩

theorem Sound.dequeueThread (h : s.Sound) (hrun : s.step (.dequeueThread cpu) = some s') :
    s'.Sound := by
  obtain rfl := Option.some.inj hrun
  refine ⟨h.sound.dequeueThread cpu, fun c => ?_, fun c p => ?_, fun c p u hu => ?_⟩
  · change Function.update s.waiting cpu _ c = _
    rw [Kernel.waitingOn_dequeueThread]
    by_cases hc : c = cpu
    · subst hc
      rw [if_pos rfl, Function.update_self, h.waiting]
    · rw [if_neg hc, Function.update_of_ne hc, h.waiting]
  · rw [h.accepted, Kernel.dequeueThread_tail]
  · change u ∈ Function.update s.waiting cpu _ c p at hu
    by_cases hc : c = cpu
    · subst hc
      rw [Function.update_self] at hu
      exact h.ne_null c p u (LevelQueues.mem_of_mem_serve hu)
    · rw [Function.update_of_ne hc] at hu
      exact h.ne_null c p u hu

theorem Sound.step (h : s.Sound) {op : Op} (hop : s.enabled op) (hrun : s.step op = some s') :
    s'.Sound := by
  cases op with
  | enqueueThread t w cpu => exact h.enqueueThread hop hrun
  | dequeueThread cpu => exact h.dequeueThread hrun

/-- In every run from zero-initialised queues, the counters and the queues say what waits,
and `dequeueThread` serves it in order. -/
theorem always_represented {memory : Kernel} (hmemory : memory.QueuesZero) (ops : List Op)
    (hops : Admissible RunqueueSession.step enabled (start memory) ops) :
    Always RunqueueSession.step Represented (start memory) ops :=
  (always_of_invariant Sound (fun _ _ _ hs hop hrun => hs.step hop hrun)
    (sound_start hmemory) hops).imp fun _ hs => hs.represented

theorem queuesZero_initial : Kernel.initial.QueuesZero :=
  ⟨fun _ _ => rfl, fun _ _ => rfl, fun _ => rfl⟩

/-- Two threads of different priority wait, and both leave. -/
theorem always_represented_twoThreads :
    Always RunqueueSession.step Represented (start Kernel.initial)
      [.enqueueThread 0xD0001000 7 1, .enqueueThread 0xD0002000 0 1, .dequeueThread 1,
        .dequeueThread 1] :=
  always_represented queuesZero_initial _ (by decide +kernel)

end RunqueueSession

end Senob.Sys
