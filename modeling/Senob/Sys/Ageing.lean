import Senob.Sys.Runqueue
import Senob.Sys.ThreadSpec

/-!
# Ageing and the range of the priorities

`ageThreads` visits the threads that wait on a CPU at a level other than 0 and raises the
priority of those that have waited long enough. It goes by the level at which a thread
waits. The priority of the thread may differ from it, because earlier visits have raised
it, and is an unsigned number: raising priority 0 yields the largest number there is.
-/

namespace Senob.Sys

open Senob.Foundation

namespace Thread

variable {x : Thread}

/-- What `ageThreads` does to a thread at each visit. -/
def age (x : Thread) : Thread :=
  if x.state = .runnable ∧ ageThreshold < x.waitTicks then
    { x with waitTicks := 0, dynamicPriority := x.dynamicPriority - 1 }
  else { x with waitTicks := x.waitTicks + 1 }

/-- How often visits raise the priority of the thread. A runnable thread has to be visited
until it has waited for more than `AGE_THRESHOLD`, and once more. -/
def raises (x : Thread) (visits : Nat) : Nat :=
  if x.state = .runnable then
    (min x.waitTicks.toNat (ageThreshold.toNat + 1) + visits) / (ageThreshold.toNat + 2)
  else 0

theorem age_state (x : Thread) : x.age.state = x.state := by
  unfold age
  split <;> rfl

theorem ageThreshold_toNat : ageThreshold.toNat = 50 := rfl

theorem raises_zero (x : Thread) : x.raises 0 = 0 := by
  unfold raises
  rw [ageThreshold_toNat]
  split <;> omega

/-- The first visit, and the ones after it. -/
theorem raises_succ (x : Thread) (visits : Nat) :
    x.raises (visits + 1) = x.raises 1 + x.age.raises visits := by
  unfold raises
  rw [age_state]
  by_cases hstate : x.state = .runnable
  · simp only [if_pos hstate, ageThreshold_toNat]
    by_cases hold : ageThreshold < x.waitTicks
    · have hticks : x.age.waitTicks.toNat = 0 := by simp [age, hstate, hold]
      have hlt : 50 < x.waitTicks.toNat := hold
      rw [hticks]
      omega
    · have hle : x.waitTicks.toNat ≤ 50 := Nat.not_lt.mp hold
      have hticks : x.age.waitTicks.toNat = x.waitTicks.toNat + 1 := by
        have hone : (1 : Word).toNat = 1 := rfl
        simp only [age, hold, and_false, if_false, BitVec.toNat_add]
        omega
      rw [hticks]
      omega
  · simp only [if_neg hstate]

theorem raises_one (x : Thread) : x.raises 1 =
    if x.state = .runnable ∧ ageThreshold < x.waitTicks then 1 else 0 := by
  unfold raises
  rw [ageThreshold_toNat]
  by_cases hstate : x.state = .runnable
  · by_cases hold : ageThreshold < x.waitTicks
    · have hlt : 50 < x.waitTicks.toNat := hold
      rw [if_pos hstate, if_pos ⟨hstate, hold⟩]
      omega
    · have hle : x.waitTicks.toNat ≤ 50 := Nat.not_lt.mp hold
      rw [if_pos hstate, if_neg fun h => hold h.2]
      omega
  · rw [if_neg hstate, if_neg fun h => hstate h.1]

theorem age_dynamicPriority (x : Thread) :
    x.age.dynamicPriority = x.dynamicPriority - BitVec.ofNat 32 (x.raises 1) := by
  rw [raises_one]
  unfold age
  split
  · rfl
  · simp

theorem iterate_age_dynamicPriority (x : Thread) (visits : Nat) :
    (age^[visits] x).dynamicPriority = x.dynamicPriority - BitVec.ofNat 32 (x.raises visits) := by
  induction visits generalizing x with
  | zero =>
      rw [raises_zero]
      simp
  | succ visits ih =>
      rw [Function.iterate_succ_apply, ih, age_dynamicPriority, raises_succ x visits]
      have hsum : BitVec.ofNat 32 (x.raises 1 + x.age.raises visits) =
          BitVec.ofNat 32 (x.raises 1) + BitVec.ofNat 32 (x.age.raises visits) :=
        BitVec.ofNat_add ..
      rw [hsum, BitVec.sub_sub]

theorem raises_le (x : Thread) (visits : Nat) : x.raises visits ≤ (51 + visits) / 52 := by
  unfold raises
  rw [ageThreshold_toNat]
  split
  · exact Nat.div_le_div_right (Nat.add_le_add_right (Nat.min_le_right ..) _)
  · exact Nat.zero_le _

end Thread

namespace Kernel

variable {k k' : Kernel} {t : Ptr} {cpu : Nat}

theorem ageThread_eq (k : Kernel) (t : Ptr) : k.ageThread t = k.modifyThread t Thread.age := rfl

theorem foldl_ageThread_thread (k : Kernel) (l : List Ptr) (t : Ptr) :
    (l.foldl ageThread k).thread t = Thread.age^[l.count t] (k.thread t) := by
  induction l generalizing k with
  | nil => rfl
  | cons u rest ih =>
      rw [List.foldl_cons, ih]
      by_cases hu : u = t
      · subst hu
        rw [List.count_cons_self, Function.iterate_succ_apply, ageThread_eq,
          modifyThread_thread_self]
      · rw [List.count_cons_of_ne hu, ageThread_eq,
          modifyThread_thread_of_ne k Thread.age (Ne.symm hu)]

/-- The threads that `ageThreads` visits, one entry for each visit. -/
def visited (k : Kernel) (cpu : Nat) : List Ptr := [4, 3, 2, 1].flatMap (k.waitingOn cpu)

theorem ageThreads_eq (k : Kernel) (cpu : Nat) :
    k.ageThreads cpu = (k.visited cpu).foldl ageThread k := by
  have hlevels : ∀ levels : List Nat, ∀ k' : Kernel, k'.cpuRunqueues = k.cpuRunqueues →
      levels.foldl (fun k prio =>
        let rq := k.cpuRunqueues cpu
        (List.range' (rq.head prio) (rq.tail prio - rq.head prio)).foldl
          (fun k i => k.ageThread (rq.queues prio i)) k) k' =
      (levels.flatMap (k.waitingOn cpu)).foldl ageThread k' := by
    intro levels
    induction levels with
    | nil => exact fun _ _ => rfl
    | cons prio rest ih =>
        intro k' hk'
        rw [List.foldl_cons, List.flatMap_cons, List.foldl_append]
        have hlevel : (List.range' ((k'.cpuRunqueues cpu).head prio)
            ((k'.cpuRunqueues cpu).tail prio - (k'.cpuRunqueues cpu).head prio)).foldl
              (fun k i => k.ageThread ((k'.cpuRunqueues cpu).queues prio i)) k' =
            (k.waitingOn cpu prio).foldl ageThread k' := by
          rw [hk', waitingOn, Runqueue.waiting, Foundation.segment, List.foldl_map]
        have hqueues : ((k.waitingOn cpu prio).foldl ageThread k').cpuRunqueues =
            k.cpuRunqueues :=
          List.foldlRecOn (motive := fun x : Kernel => x.cpuRunqueues = k.cpuRunqueues)
            _ _ hk' fun x hx u _ => hx
        dsimp only
        rw [hlevel]
        exact ih _ hqueues
  exact hlevels _ k rfl

theorem ageThreads_thread (k : Kernel) (cpu : Nat) (t : Ptr) :
    (k.ageThreads cpu).thread t = Thread.age^[(k.visited cpu).count t] (k.thread t) := by
  rw [ageThreads_eq, foldl_ageThread_thread]

/-- How often `ageThreads` raises the priority of the thread. -/
def raisesOf (k : Kernel) (cpu : Nat) (t : Ptr) : Nat :=
  (k.thread t).raises ((k.visited cpu).count t)

/-- A thread that is not visited is not raised. -/
theorem raisesOf_of_not_mem {k : Kernel} {cpu : Nat} {t : Ptr} (ht : t ∉ k.visited cpu) :
    k.raisesOf cpu t = 0 := by
  rw [raisesOf, List.count_eq_zero.mpr ht, Thread.raises_zero]

theorem raisesOf_eq_zero_iff {k : Kernel} {cpu : Nat} :
    (∀ t, k.raisesOf cpu t = 0) ↔ ∀ t ∈ k.visited cpu, k.raisesOf cpu t = 0 := by
  refine ⟨fun h t _ => h t, fun h t => ?_⟩
  by_cases ht : t ∈ k.visited cpu
  · exact h t ht
  · exact raisesOf_of_not_mem ht

theorem ageThreads_dynamicPriority (k : Kernel) (cpu : Nat) (t : Ptr) :
    ((k.ageThreads cpu).thread t).dynamicPriority =
      (k.thread t).dynamicPriority - BitVec.ofNat 32 (k.raisesOf cpu t) := by
  rw [ageThreads_thread, Thread.iterate_age_dynamicPriority, raisesOf]

/-! ## Where the queues end -/

theorem Bounded.length_waitingOn_le (h : k.Bounded) (cpu prio : Nat) :
    (k.waitingOn cpu prio).length ≤ 64 := by
  rw [waitingOn, Runqueue.waiting, length_segment]
  exact (Nat.sub_le ..).trans (h cpu prio)

/-- A call makes at most 256 visits. -/
theorem Bounded.length_visited_le (h : k.Bounded) (cpu : Nat) : (k.visited cpu).length ≤ 256 := by
  have h₁ := h.length_waitingOn_le cpu 1
  have h₂ := h.length_waitingOn_le cpu 2
  have h₃ := h.length_waitingOn_le cpu 3
  have h₄ := h.length_waitingOn_le cpu 4
  simp only [visited, List.flatMap_cons, List.flatMap_nil, List.length_append, List.length_nil]
  omega

/-- No thread is raised more than five times in a call. -/
theorem Bounded.raisesOf_le (h : k.Bounded) (cpu : Nat) (t : Ptr) : k.raisesOf cpu t ≤ 5 := by
  have hraises := (k.thread t).raises_le ((k.visited cpu).count t)
  have hcount : (k.visited cpu).count t ≤ (k.visited cpu).length := List.count_le_length
  have hlength := h.length_visited_le cpu
  unfold raisesOf
  omega

theorem Bounded.preempt (h : k.Bounded) (cpu : Nat) : (k.preempt cpu).Bounded := by
  by_cases hpreempts : k.Preempts cpu
  · rw [preempt_of hpreempts]
    exact (h.congr (demoted_rethreaded k _).scheduler.cpuRunqueues).enqueueThread _ _
  · rwa [preempt_of_not hpreempts]

/-! ## The priorities after each call -/

/-- The priority that `demotePriority` leaves. -/
def demotedPriority (w : Word) : Word := if w.toNat < maxPriority - 1 then w + 1 else w

theorem demotePriority_dynamicPriority (k : Kernel) (t u : Ptr) :
    ((k.demotePriority t).thread u).dynamicPriority =
      if u = t then demotedPriority (k.thread t).dynamicPriority
      else (k.thread u).dynamicPriority := by
  unfold demotePriority demotedPriority
  by_cases hu : u = t
  · subst hu
    rw [if_pos rfl]
    split
    · rw [modifyThread_thread_self]
    · rfl
  · rw [if_neg hu]
    split
    · rw [modifyThread_thread_of_ne _ _ hu]
    · rfl

theorem demoted_dynamicPriority (k : Kernel) (t u : Ptr) :
    ((k.demoted t).thread u).dynamicPriority =
      if u = t then demotedPriority (k.thread t).dynamicPriority
      else (k.thread u).dynamicPriority := by
  have hsame := modifyThread_apply k t (fun x => { x with state := .runnable })
    Thread.dynamicPriority rfl
  rw [demoted, demotePriority_dynamicPriority, hsame, hsame]

theorem preempt_dynamicPriority (hpreempts : k.Preempts cpu) (u : Ptr) :
    ((k.preempt cpu).thread u).dynamicPriority =
      if u = k.currentThread cpu then demotedPriority (k.thread u).dynamicPriority
      else (k.thread u).dynamicPriority := by
  rw [preempt_of hpreempts, (enqueueThread_requeued ..).thread, demoted_dynamicPriority]
  split
  next hu => rw [hu]
  next => rfl

theorem dispatch_dynamicPriority (k : Kernel) (cpu : Nat) (next u : Ptr) :
    ((k.dispatch cpu next).thread u).dynamicPriority = (k.thread u).dynamicPriority :=
  modifyThread_apply k next (fun x => { x with waitTicks := 0, state := .running })
    Thread.dynamicPriority rfl u

theorem appendThread_dynamicPriority (k : Kernel) (t u : Ptr) :
    ((k.appendThread t).thread u).dynamicPriority = (k.thread u).dynamicPriority := by
  unfold appendThread
  dsimp only
  split
  · rfl
  · generalize (k.tree.proc (k.thread t).owner).tailThread = tail
    have hnew := modifyThread_apply k t (fun x => { x with prev := tail, next := null })
      Thread.dynamicPriority rfl u
    exact (modifyThread_apply _ tail (fun x => { x with next := t }) Thread.dynamicPriority rfl
      u).trans hnew

/-- The priority of a new thread is 0. -/
theorem createThread_dynamicPriority (k : Kernel) (p : Ptr) (b : ThreadBlocks)
    (segmentSelector cs eip esp : Word) (u : Ptr) :
    ((k.createThread p b segmentSelector cs eip esp).thread u).dynamicPriority =
      if u = b.thread then 0 else (k.thread u).dynamicPriority := by
  simp only [createThread, appendThread_dynamicPriority]
  by_cases hu : u = b.thread
  · subst hu
    simp [getThreadID, modifyThread, modifyRegs, Thread.zero]
  · simp [getThreadID, modifyThread, modifyRegs, hu]

theorem initIdle_dynamicPriority {newProcess : Ptr} {b : ThreadBlocks} {pid : Word}
    (h : k.initIdle newProcess b = some (k', pid)) (u : Ptr) :
    (k'.thread u).dynamicPriority = if u = b.thread then 0 else (k.thread u).dynamicPriority := by
  unfold initIdle at h
  obtain ⟨k₁, hrun, h⟩ := Option.bind_eq_some_iff.mp h
  obtain ⟨rfl, -⟩ := Prod.mk.inj (Option.some.inj h)
  unfold createKernelProcess createProcess insertProcess at hrun
  obtain ⟨tree, -, rfl⟩ := Option.map_eq_some_iff.mp hrun
  change ((createThread ..).thread u).dynamicPriority = _
  rw [createThread_dynamicPriority, prepareProcess_eq]

end Kernel

/-! ## Runs -/

/-- The calls that move threads or change their priorities. -/
inductive SchedCall where
  | enqueueThread (t : Ptr) (cpu : Nat)
  | dequeueThread (cpu : Nat)
  | demotePriority (t : Ptr)
  | ageThreads (cpu : Nat)
  | schedule (cpu : Nat) (newProcess : Ptr) (b : ThreadBlocks)

namespace Kernel

def call (k : Kernel) : SchedCall → Option Kernel
  | .enqueueThread t cpu => some (k.enqueueThread t cpu)
  | .dequeueThread cpu => some (k.dequeueThread cpu).1
  | .demotePriority t => some (k.demotePriority t)
  | .ageThreads cpu => some (k.ageThreads cpu)
  | .schedule cpu newProcess b => k.schedule cpu newProcess b

/-- The priority of each thread is one for which there is a level. -/
def PrioritiesInRange (k : Kernel) : Prop :=
  ∀ t, (k.thread t).dynamicPriority.toNat < maxPriority

/-- Ageing the CPU raises no thread beyond priority 0. -/
def AgesInRange (k : Kernel) (cpu : Nat) : Prop :=
  ∀ t, k.raisesOf cpu t ≤ (k.thread t).dynamicPriority.toNat

theorem agesInRange_iff {k : Kernel} {cpu : Nat} : k.AgesInRange cpu ↔
    ∀ t ∈ k.visited cpu, k.raisesOf cpu t ≤ (k.thread t).dynamicPriority.toNat := by
  refine ⟨fun h t _ => h t, fun h t => ?_⟩
  by_cases ht : t ∈ k.visited cpu
  · exact h t ht
  · rw [raisesOf_of_not_mem ht]
    exact Nat.zero_le _

/-- Only ageing can take a priority out of the range. -/
def KeepsRange (k : Kernel) : SchedCall → Prop
  | .ageThreads cpu => k.AgesInRange cpu
  | _ => True

variable {k k' : Kernel} {t newProcess : Ptr} {b : ThreadBlocks} {cpu : Nat}

theorem demotedPriority_lt {w : Word} (h : w.toNat < maxPriority) :
    (demotedPriority w).toNat < maxPriority := by
  unfold demotedPriority
  split
  next hlow =>
    have hone : (1 : Word).toNat = 1 := rfl
    rw [BitVec.toNat_add]
    unfold maxPriority at *
    omega
  next => exact h

theorem PrioritiesInRange.demotePriority (h : k.PrioritiesInRange) (t : Ptr) :
    (k.demotePriority t).PrioritiesInRange := by
  intro u
  rw [demotePriority_dynamicPriority]
  split
  · exact demotedPriority_lt (h t)
  · exact h u

theorem PrioritiesInRange.schedule (h : k.PrioritiesInRange)
    (hrun : k.schedule cpu newProcess b = some k') : k'.PrioritiesInRange := by
  obtain ⟨k₁, pid, idleProcess, next, hidle, -, -, rfl⟩ := schedule_cases hrun
  have hrange : k₁.PrioritiesInRange := by
    intro u
    rw [initIdle_dynamicPriority hidle]
    split
    · decide
    · exact h u
  intro u
  rw [dispatch_dynamicPriority, (dequeueThread_requeued ..).thread]
  by_cases hpreempts : k₁.Preempts cpu
  · rw [preempt_dynamicPriority hpreempts]
    split
    · exact demotedPriority_lt (hrange u)
    · exact hrange u
  · rw [preempt_of_not hpreempts]
    exact hrange u

theorem Bounded.schedule (h : k.Bounded) (hrun : k.schedule cpu newProcess b = some k') :
    k'.Bounded := by
  obtain ⟨k₁, pid, idleProcess, next, hidle, -, -, rfl⟩ := schedule_cases hrun
  have hqueues := (initIdle_added hidle).1.scheduler.cpuRunqueues
  exact (((h.congr hqueues).preempt cpu).dequeueThread cpu).congr rfl

theorem Bounded.call {c : SchedCall} (h : k.Bounded) (hrun : k.call c = some k') : k'.Bounded := by
  cases c with
  | enqueueThread t cpu =>
      obtain rfl := Option.some.inj hrun
      exact h.enqueueThread t cpu
  | dequeueThread cpu =>
      obtain rfl := Option.some.inj hrun
      exact h.dequeueThread cpu
  | demotePriority t =>
      obtain rfl := Option.some.inj hrun
      refine h.congr ?_
      unfold Kernel.demotePriority
      split <;> rfl
  | ageThreads cpu =>
      obtain rfl := Option.some.inj hrun
      exact h.congr (ageThreads_aged k cpu).rethreaded.scheduler.cpuRunqueues
  | schedule cpu newProcess b => exact h.schedule hrun

/-- Raising a small priority by a small number wraps around, or stays in the range. -/
theorem toNat_sub_lt_iff {w : Word} {n : Nat} (hw : w.toNat < maxPriority) (hn : n ≤ 5) :
    (w - BitVec.ofNat 32 n).toNat < maxPriority ↔ n ≤ w.toNat := by
  unfold maxPriority at *
  rw [BitVec.toNat_sub, BitVec.toNat_ofNat]
  omega

theorem inRange_ageThreads_iff (hbounded : k.Bounded) (h : k.PrioritiesInRange) :
    (k.ageThreads cpu).PrioritiesInRange ↔ k.AgesInRange cpu := by
  refine forall_congr' fun t => ?_
  rw [ageThreads_dynamicPriority]
  exact toNat_sub_lt_iff (h t) (hbounded.raisesOf_le cpu t)

theorem PrioritiesInRange.call {c : SchedCall} (hbounded : k.Bounded) (h : k.PrioritiesInRange)
    (hkeeps : k.KeepsRange c) (hrun : k.call c = some k') : k'.PrioritiesInRange := by
  cases c with
  | enqueueThread t cpu =>
      obtain rfl := Option.some.inj hrun
      unfold PrioritiesInRange
      rw [(enqueueThread_requeued ..).thread]
      exact h
  | dequeueThread cpu =>
      obtain rfl := Option.some.inj hrun
      unfold PrioritiesInRange
      rw [(dequeueThread_requeued ..).thread]
      exact h
  | demotePriority t =>
      obtain rfl := Option.some.inj hrun
      exact h.demotePriority t
  | ageThreads cpu =>
      obtain rfl := Option.some.inj hrun
      exact (inRange_ageThreads_iff hbounded h).mpr hkeeps
  | schedule cpu newProcess b => exact h.schedule hrun

/-- The priorities stay in their range throughout exactly the runs in which ageing raises
no thread beyond priority 0. -/
theorem always_inRange_iff (hbounded : k.Bounded) (h : k.PrioritiesInRange)
    (calls : List SchedCall) :
    Always call PrioritiesInRange k calls ↔ Admissible call KeepsRange k calls := by
  have hcalls : Admissible call (fun _ _ => True) k calls := .of_forall fun _ _ _ => trivial
  refine always_iff_admissible (fun k : Kernel => k.Bounded ∧ k.PrioritiesInRange)
    (fun _ hk => hk.2) (fun k c t hk _ hc ht => ⟨hk.1.call ht, hk.2.call hk.1 hc ht⟩)
    (fun k c hk _ hc => ?_) ⟨hbounded, h⟩ hcalls
  cases c with
  | ageThreads cpu =>
      exact ⟨_, rfl, fun hrange => hc ((inRange_ageThreads_iff hk.1 hk.2).mp hrange)⟩
  | _ => exact absurd trivial hc

/-- A runnable thread of priority 1 at every address. -/
def secondLevelMemory : Kernel := { Kernel.initial with
  thread := fun _ => { Thread.zero with state := .runnable, dynamicPriority := 1 } }

theorem secondLevelMemory_bounded : secondLevelMemory.Bounded := fun _ _ => Nat.zero_le _

theorem secondLevelMemory_inRange : secondLevelMemory.PrioritiesInRange :=
  fun _ => show (1 : Word).toNat < maxPriority by decide

/-- A thread that waits through 104 calls of `ageThreads` becomes the last one to run. -/
theorem not_always_inRange :
    ¬ ∀ k : Kernel, k.Bounded → k.PrioritiesInRange → ∀ calls : List SchedCall,
      Always call PrioritiesInRange k calls := by
  intro hclaim
  have hrange := hclaim secondLevelMemory secondLevelMemory_bounded secondLevelMemory_inRange
    (.enqueueThread 0xD0001000 0 :: List.replicate 104 (.ageThreads 0))
  have hlast : ∀ s ∈ runSteps call secondLevelMemory
      (.enqueueThread 0xD0001000 0 :: List.replicate 104 (.ageThreads 0)),
      (s.thread 0xD0001000).dynamicPriority.toNat < maxPriority := fun s hs => hrange.last hs _
  revert hlast
  decide +kernel

/-- A thread that waits through 52 calls is raised to priority 0, and demoted again. -/
theorem always_inRange_raised :
    Always call PrioritiesInRange secondLevelMemory
        (.enqueueThread 0xD0001000 0 :: List.replicate 52 (.ageThreads 0) ++
          [.demotePriority 0xD0001000]) ∧
      (runSteps call secondLevelMemory
        (.enqueueThread 0xD0001000 0 :: List.replicate 52 (.ageThreads 0))).map
          (fun k => (k.thread 0xD0001000).dynamicPriority) = some 0 := by
  have hages : ∀ i < 52, ∀ k ∈ runSteps call (secondLevelMemory.enqueueThread 0xD0001000 0)
      (List.replicate i (.ageThreads 0)),
      ∀ t ∈ k.visited 0, k.raisesOf 0 t ≤ (k.thread t).dynamicPriority.toNat := by
    decide +kernel
  refine ⟨(always_inRange_iff secondLevelMemory_bounded secondLevelMemory_inRange _).mpr ?_,
    by decide +kernel⟩
  refine .append ⟨trivial, fun k hk => ?_⟩ fun _ _ => ⟨trivial, fun _ _ => trivial⟩
  obtain rfl := Option.some.inj hk
  exact .replicate fun i hi k hk => agesInRange_iff.mpr (hages i hi k hk)

end Kernel

end Senob.Sys
