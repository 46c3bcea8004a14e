import Senob.Sys.Ageing

/-!
# Levels and priorities

The priority of a waiting thread is kept twice: in its structure, and as the level at
which it waits. `enqueueThread` makes the two agree. `ageThreads` and `demotePriority`
write the structure and leave the thread where it is, and `dequeueThread` goes by the
level.
-/

namespace Senob.Sys

open Senob.Foundation

namespace Kernel

/-- Each waiting thread waits at the level of its priority. -/
def Agrees (k : Kernel) : Prop :=
  ∀ cpu prio, ∀ t ∈ k.waitingOn cpu prio, (k.thread t).dynamicPriority.toNat = prio

/-- The levels agree with the priorities, and so the thread that `dequeueThread` returns is
one of the smallest priority of all that wait on the CPU. -/
structure AgeingTakesEffect (k : Kernel) : Prop where
  agrees : k.Agrees
  dequeueThread : ∀ cpu, ∀ prio < maxPriority, ∀ u ∈ k.waitingOn cpu prio,
    (∃ p, (k.dequeueThread cpu).2 ∈ k.waitingOn cpu p) ∧
      (k.thread (k.dequeueThread cpu).2).dynamicPriority ≤ (k.thread u).dynamicPriority

/-- What waits on the CPU `c` once the CPU `cpu` has taken its next thread. -/
def waitingAfter (k : Kernel) (cpu c : Nat) : LevelQueues Ptr :=
  if c = cpu then (k.waitingOn cpu).serve maxPriority else k.waitingOn c

/-- Preempting the thread does no harm. If its priority is about to change, then it waits
nowhere, apart from the slot that is taken next. If its priority has no level, then it is
dropped, or it is taken at once. -/
def PreemptsInOrder (k : Kernel) (cpu : Nat) (current : Ptr) : Prop :=
  ((k.thread current).dynamicPriority.toNat < maxPriority - 1 →
    ∀ c prio, current ∉ k.waitingAfter cpu c prio) ∧
  (maxPriority ≤ (k.thread current).dynamicPriority.toNat →
    maxRunqueueSize ≤ (k.cpuRunqueues cpu).tail (maxPriority - 1) ∨
      ∀ prio < maxPriority, k.waitingOn cpu prio = [])

/-- The call leaves the priorities of waiting threads as they are, and puts no thread at a
level that is not its priority. -/
def KeepsAgreement (k : Kernel) : SchedCall → Prop
  | .enqueueThread t cpu => (k.thread t).dynamicPriority.toNat < maxPriority ∨
      maxRunqueueSize ≤ (k.cpuRunqueues cpu).tail (maxPriority - 1)
  | .dequeueThread _ => True
  | .demotePriority t => maxPriority - 1 ≤ (k.thread t).dynamicPriority.toNat ∨
      ∀ cpu prio, t ∉ k.waitingOn cpu prio
  | .ageThreads cpu => ∀ t, k.raisesOf cpu t = 0
  | .schedule cpu _ _ => k.Preempts cpu → k.PreemptsInOrder cpu (k.currentThread cpu)

/-- The call returns, and the block of a new thread is neither that of a waiting thread nor
that of the current one. -/
def Returns (k : Kernel) : SchedCall → Prop
  | .schedule cpu newProcess b => (k.schedule cpu newProcess b).isSome ∧
      (∀ c prio, b.thread ∉ k.waitingOn c prio) ∧ b.thread ≠ k.currentThread cpu
  | _ => True

variable {k k' : Kernel} {t current newProcess : Ptr} {b : ThreadBlocks} {cpu c prio : Nat}

/-- The level of the next thread is the smallest priority that waits. -/
theorem Agrees.takesEffect (h : k.Agrees) : k.AgeingTakesEffect := by
  refine ⟨h, fun cpu prio hprio u hu => ?_⟩
  rw [dequeueThread_eq_next]
  cases hnext : (k.waitingOn cpu).next maxPriority with
  | none =>
      rw [LevelQueues.next_eq_none_iff.mp hnext prio hprio] at hu
      exact nomatch hu
  | some t =>
      obtain ⟨level, -, hlower, rest, hlevel⟩ := LevelQueues.next_eq_some_iff.mp hnext
      have ht : t ∈ k.waitingOn cpu level := by simp [hlevel]
      have hle : level ≤ prio := by
        by_contra hlt
        rw [hlower prio (by omega)] at hu
        exact nomatch hu
      rw [Option.getD_some]
      refine ⟨⟨level, ht⟩, ?_⟩
      rwa [BitVec.le_def, h cpu level t ht, h cpu prio u hu]

theorem Agrees.congr (h : k.Agrees) (hwaiting : ∀ c, k'.waitingOn c = k.waitingOn c)
    (hpriority : ∀ c prio, ∀ t ∈ k.waitingOn c prio,
      (k'.thread t).dynamicPriority = (k.thread t).dynamicPriority) : k'.Agrees := by
  intro c prio t ht
  rw [hwaiting] at ht
  rw [hpriority c prio t ht]
  exact h c prio t ht

/-! ## Entering and leaving a queue -/

theorem agrees_enqueueThread_iff (h : k.Agrees) (hordered : k.Ordered) :
    (k.enqueueThread t cpu).Agrees ↔ k.KeepsAgreement (.enqueueThread t cpu) := by
  have hthread := (enqueueThread_requeued k t cpu).thread
  by_cases hroom : (k.cpuRunqueues cpu).tail (k.queueOf t) < maxRunqueueSize
  · have hwaiting := waitingOn_enqueueThread hordered hroom
    constructor
    · intro hagrees
      have ht : t ∈ (k.enqueueThread t cpu).waitingOn cpu (k.queueOf t) := by
        rw [hwaiting, if_pos rfl]
        exact LevelQueues.mem_arrive.mpr (.inr ⟨rfl, rfl⟩)
      have hpriority := hagrees cpu _ t ht
      rw [hthread] at hpriority
      exact .inl (hpriority ▸ k.queueOf_lt_maxPriority t)
    · intro hkeeps c prio u hu
      rw [hthread]
      rw [hwaiting] at hu
      split at hu
      next hc =>
        obtain hu | ⟨rfl, rfl⟩ := LevelQueues.mem_arrive.mp hu
        · exact h cpu prio u hu
        · obtain hlow | hfull := hkeeps
          · unfold queueOf maxPriority at *
            omega
          · unfold queueOf maxPriority at *
            by_contra hne
            have hlevel : min (k.thread u).dynamicPriority.toNat (5 - 1) = 5 - 1 := by omega
            rw [hlevel] at hroom
            omega
      next => exact h c prio u hu
  · rw [enqueueThread_of_full (Nat.not_lt.mp hroom)]
    refine iff_of_true h ?_
    by_cases hlow : (k.thread t).dynamicPriority.toNat < maxPriority
    · exact .inl hlow
    · have hlevel : k.queueOf t = maxPriority - 1 := by
        unfold queueOf maxPriority at *
        omega
      exact .inr (hlevel ▸ Nat.not_lt.mp hroom)

theorem waitingOn_dequeueThread_eq (k : Kernel) (cpu c : Nat) :
    (k.dequeueThread cpu).1.waitingOn c = k.waitingAfter cpu c := waitingOn_dequeueThread k cpu c

theorem mem_of_mem_waitingAfter (h : t ∈ k.waitingAfter cpu c prio) : t ∈ k.waitingOn c prio := by
  unfold waitingAfter at h
  split at h
  next hc =>
    rw [hc]
    exact LevelQueues.mem_of_mem_serve h
  next => exact h

theorem Agrees.dequeueThread (h : k.Agrees) (cpu : Nat) : (k.dequeueThread cpu).1.Agrees := by
  intro c prio t ht
  rw [waitingOn_dequeueThread_eq] at ht
  rw [(dequeueThread_requeued k cpu).thread]
  exact h c prio t (mem_of_mem_waitingAfter ht)

/-! ## Changes of a priority -/

theorem demotedPriority_toNat (w : Word) :
    (demotedPriority w).toNat = if w.toNat < maxPriority - 1 then w.toNat + 1 else w.toNat := by
  unfold demotedPriority
  split
  next hlow =>
    have hone : (1 : Word).toNat = 1 := rfl
    rw [BitVec.toNat_add]
    unfold maxPriority at hlow
    omega
  next => rfl

/-- Threads that agree with their levels still do after the demotion of one thread, unless
that one is among them and its priority changes. -/
theorem agrees_demoted_iff {w : Nat → LevelQueues Ptr} (h : k.Agrees)
    (hw : ∀ c prio, ∀ t ∈ w c prio, t ∈ k.waitingOn c prio) (current : Ptr) :
    (∀ c prio, ∀ t ∈ w c prio, (if t = current then
      demotedPriority (k.thread t).dynamicPriority
      else (k.thread t).dynamicPriority).toNat = prio) ↔
    ((k.thread current).dynamicPriority.toNat < maxPriority - 1 →
      ∀ c prio, current ∉ w c prio) := by
  constructor
  · intro hall hlow c prio hmem
    have hnew := hall c prio current hmem
    rw [if_pos rfl, demotedPriority_toNat, if_pos hlow] at hnew
    have hold := h c prio current (hw c prio current hmem)
    omega
  · intro hwaits c prio t ht
    have hold := h c prio t (hw c prio t ht)
    split
    next heq =>
      subst heq
      rw [demotedPriority_toNat]
      split
      next hlow => exact absurd ht (hwaits hlow c prio)
      next => exact hold
    next => exact hold

theorem agrees_demotePriority_iff (h : k.Agrees) :
    (k.demotePriority t).Agrees ↔ k.KeepsAgreement (.demotePriority t) := by
  have hwaiting : (k.demotePriority t).waitingOn = k.waitingOn := by
    unfold demotePriority
    split <;> rfl
  have hiff := agrees_demoted_iff h (fun _ _ _ ht => ht) t
  unfold Agrees KeepsAgreement
  rw [hwaiting]
  simp only [demotePriority_dynamicPriority]
  rw [← not_lt, ← imp_iff_not_or, ← hiff]
  refine forall_congr' fun c => forall_congr' fun prio => forall_congr' fun u => ?_
  refine imp_congr_right fun _ => ?_
  by_cases hu : u = t
  · rw [hu]
  · rw [if_neg hu, if_neg hu]

/-- Raising the priority of a waiting thread takes it away from its level. -/
theorem agrees_ageThreads_iff (h : k.Agrees) (hbounded : k.Bounded) :
    (k.ageThreads cpu).Agrees ↔ k.KeepsAgreement (.ageThreads cpu) := by
  have hwaiting : (k.ageThreads cpu).waitingOn = k.waitingOn := by
    unfold waitingOn
    rw [(ageThreads_aged k cpu).rethreaded.scheduler.cpuRunqueues]
  constructor
  · intro hagrees t
    by_contra hraised
    have hvisited : t ∈ k.visited cpu := by
      by_contra hnot
      rw [raisesOf, List.count_eq_zero.mpr hnot] at hraised
      exact hraised (Thread.raises_zero _)
    obtain ⟨prio, -, ht⟩ := List.mem_flatMap.mp hvisited
    have hnew := hagrees cpu prio t (by rwa [hwaiting])
    have hold := h cpu prio t ht
    have hle := hbounded.raisesOf_le cpu t
    rw [ageThreads_dynamicPriority, BitVec.toNat_sub, BitVec.toNat_ofNat] at hnew
    omega
  · intro hkeeps
    refine h.congr (fun c => by rw [hwaiting]) fun c prio t _ => ?_
    rw [ageThreads_dynamicPriority, hkeeps t]
    simp

/-! ## Preempting and dequeuing -/

theorem demoted_waitingOn (k : Kernel) (t : Ptr) : (k.demoted t).waitingOn = k.waitingOn := by
  unfold waitingOn
  rw [(demoted_rethreaded k t).scheduler.cpuRunqueues]

/-- The level that a preempted thread is put at. -/
theorem demoted_queueOf (k : Kernel) (t : Ptr) : (k.demoted t).queueOf t =
    min (demotedPriority (k.thread t).dynamicPriority).toNat (maxPriority - 1) := by
  rw [queueOf, demoted_dynamicPriority, if_pos rfl]

/-- What waits after the preempted thread has entered its queue, and the next one has left
it. The preempted thread is the next one, if nothing waits at its level or below. -/
inductive Requeues (k : Kernel) (cpu : Nat) (current : Ptr) (w : Nat → LevelQueues Ptr) : Prop
  | dropped (hfull : maxRunqueueSize ≤
      (k.cpuRunqueues cpu).tail ((k.demoted current).queueOf current))
    (hw : ∀ c, w c = k.waitingAfter cpu c)
  | taken (hempty : ∀ l ≤ (k.demoted current).queueOf current, k.waitingOn cpu l = [])
    (hw : ∀ c, w c = k.waitingOn c)
  | kept (hroom : (k.cpuRunqueues cpu).tail ((k.demoted current).queueOf current) <
      maxRunqueueSize)
    (level : Nat) (hlevel : (k.waitingOn cpu).lowest maxPriority = some level)
    (hw : ∀ c, w c = if c = cpu then
      (k.waitingAfter cpu c).arrive ((k.demoted current).queueOf current) current
      else k.waitingAfter cpu c)

theorem requeues_preempt (hordered : k.Ordered) (hpreempts : k.Preempts cpu) :
    k.Requeues cpu (k.currentThread cpu) ((k.preempt cpu).dequeueThread cpu).1.waitingOn := by
  have hafter : ∀ c, ((k.preempt cpu).dequeueThread cpu).1.waitingOn c =
      (k.preempt cpu).waitingAfter cpu c := waitingOn_dequeueThread_eq _ _
  have hdemoted := (demoted_rethreaded k (k.currentThread cpu)).scheduler
  rw [preempt_of hpreempts] at hafter ⊢
  generalize k.currentThread cpu = current at hafter hdemoted ⊢
  by_cases hroom : (k.cpuRunqueues cpu).tail ((k.demoted current).queueOf current) <
      maxRunqueueSize
  · have hwaiting : ∀ c, ((k.demoted current).enqueueThread current cpu).waitingOn c =
        if c = cpu then (k.waitingOn cpu).arrive ((k.demoted current).queueOf current) current
        else k.waitingOn c := fun c => by
      rw [waitingOn_enqueueThread (hdemoted.ordered hordered), demoted_waitingOn]
      rwa [hdemoted.cpuRunqueues]
    have hlevel : (k.demoted current).queueOf current < maxPriority := queueOf_lt_maxPriority ..
    by_cases hempty : ∀ l ≤ (k.demoted current).queueOf current, k.waitingOn cpu l = []
    · refine .taken hempty fun c => ?_
      rw [hafter, waitingAfter, hwaiting, if_pos rfl, hwaiting,
        LevelQueues.serve_arrive_of_first hlevel hempty]
      split
      next hc => rw [hc]
      next => rfl
    · push Not at hempty
      obtain ⟨l, hl, hne⟩ := hempty
      cases hlowest : (k.waitingOn cpu).lowest maxPriority with
      | none => exact absurd (LevelQueues.lowest_eq_none_iff.mp hlowest l (by omega)) hne
      | some m =>
          have hm : m ≤ l := by
            by_contra hlt
            exact hne ((LevelQueues.lowest_eq_some_iff.mp hlowest).2.2 l (by omega))
          refine .kept hroom m hlowest fun c => ?_
          rw [hafter, waitingAfter, waitingAfter, hwaiting, if_pos rfl, hwaiting,
            LevelQueues.serve_arrive_of_lowest hlowest (hm.trans hl)]
          split <;> rfl
  · have hfull : maxRunqueueSize ≤
        ((k.demoted current).cpuRunqueues cpu).tail ((k.demoted current).queueOf current) := by
      rw [hdemoted.cpuRunqueues]
      exact Nat.not_lt.mp hroom
    refine .dropped (Nat.not_lt.mp hroom) fun c => ?_
    rw [hafter, enqueueThread_of_full hfull, waitingAfter, demoted_waitingOn]
    rfl

theorem demoted_queueOf_of_high (hhigh : maxPriority ≤ (k.thread t).dynamicPriority.toNat) :
    (k.demoted t).queueOf t = maxPriority - 1 := by
  rw [demoted_queueOf, demotedPriority_toNat]
  unfold maxPriority at *
  split <;> omega

/-- A preempted thread whose level is full waits nowhere. -/
theorem agrees_dropped_iff {current : Ptr} (h : k.Agrees)
    (hfull : maxRunqueueSize ≤ (k.cpuRunqueues cpu).tail ((k.demoted current).queueOf current)) :
    (∀ c prio, ∀ t ∈ k.waitingAfter cpu c prio, (if t = current then
      demotedPriority (k.thread t).dynamicPriority
      else (k.thread t).dynamicPriority).toNat = prio) ↔ k.PreemptsInOrder cpu current := by
  rw [agrees_demoted_iff h fun c prio t ht => mem_of_mem_waitingAfter ht]
  refine ⟨fun hwaits => ⟨hwaits, fun hhigh => .inl ?_⟩, And.left⟩
  exact demoted_queueOf_of_high hhigh ▸ hfull

/-- A preempted thread with nothing before it on its CPU is taken out again at once. -/
theorem agrees_taken_iff {current : Ptr} (h : k.Agrees)
    (hempty : ∀ l ≤ (k.demoted current).queueOf current, k.waitingOn cpu l = []) :
    (∀ c prio, ∀ t ∈ k.waitingOn c prio, (if t = current then
      demotedPriority (k.thread t).dynamicPriority
      else (k.thread t).dynamicPriority).toNat = prio) ↔ k.PreemptsInOrder cpu current := by
  rw [agrees_demoted_iff h fun _ _ _ ht => ht]
  constructor
  · intro hwaits
    refine ⟨fun hlow c prio ht => hwaits hlow c prio (mem_of_mem_waitingAfter ht),
      fun hhigh => .inr fun prio hprio => hempty prio ?_⟩
    rw [demoted_queueOf_of_high hhigh]
    unfold maxPriority at *
    omega
  · intro hinorder hlow c prio ht
    have hprio := h c prio _ ht
    by_cases hc : c = cpu
    · subst hc
      have hlevel : prio ≤ (k.demoted current).queueOf current := by
        rw [demoted_queueOf, demotedPriority_toNat, if_pos hlow]
        unfold maxPriority at *
        omega
      rw [hempty prio hlevel] at ht
      exact nomatch ht
    · refine hinorder.1 hlow c prio ?_
      rwa [waitingAfter, if_neg hc]

/-- A preempted thread that stays in its queue agrees with it, unless its priority is beyond the
last level. -/
theorem agrees_kept_iff {current : Ptr} {w : Nat → LevelQueues Ptr} (h : k.Agrees)
    (hroom : (k.cpuRunqueues cpu).tail ((k.demoted current).queueOf current) < maxRunqueueSize)
    {level : Nat} (hlevel : (k.waitingOn cpu).lowest maxPriority = some level)
    (hw : ∀ c, w c = if c = cpu then
      (k.waitingAfter cpu c).arrive ((k.demoted current).queueOf current) current
      else k.waitingAfter cpu c) :
    (∀ c prio, ∀ t ∈ w c prio, (if t = current then
      demotedPriority (k.thread t).dynamicPriority
      else (k.thread t).dynamicPriority).toNat = prio) ↔ k.PreemptsInOrder cpu current := by
  obtain ⟨hlt, hne, -⟩ := LevelQueues.lowest_eq_some_iff.mp hlevel
  have hiff := agrees_demoted_iff h
    (fun c prio t (ht : t ∈ k.waitingAfter cpu c prio) => mem_of_mem_waitingAfter ht) current
  have hqueue := k.demoted_queueOf current
  rw [demotedPriority_toNat] at hqueue
  constructor
  · intro hall
    refine ⟨hiff.mp fun c prio t ht => hall c prio t ?_, fun hhigh => ?_⟩
    · rw [hw]
      split
      · exact LevelQueues.mem_arrive.mpr (.inl ht)
      · exact ht
    · -- The thread waits at the last level, and has a greater priority.
      have hself := hall cpu _ current (by
        rw [hw, if_pos rfl]
        exact LevelQueues.mem_arrive.mpr (.inr ⟨rfl, rfl⟩))
      rw [if_pos rfl, demotedPriority_toNat, hqueue] at hself
      unfold maxPriority at *
      split at hself <;> omega
  · intro hinorder c prio t ht
    have hold := hiff.mpr hinorder.1
    rw [hw] at ht
    split at ht
    next hc =>
      obtain ht | ⟨rfl, rfl⟩ := LevelQueues.mem_arrive.mp ht
      · exact hold c prio t ht
      · have hhigh : ¬ maxPriority ≤ (k.thread t).dynamicPriority.toNat := by
          intro hhigh
          obtain hfull | hempty := hinorder.2 hhigh
          · rw [demoted_queueOf_of_high hhigh] at hroom
            omega
          · exact hne (hempty level hlt)
        rw [if_pos rfl, demotedPriority_toNat, hqueue]
        unfold maxPriority at *
        split <;> omega
    next => exact hold c prio t ht

/-- After the old thread is handled and the next one is chosen, the levels agree exactly if
the old thread was preempted in order. -/
theorem agrees_preempt_iff (h : k.Agrees) (hordered : k.Ordered) (hpreempts : k.Preempts cpu) :
    ((k.preempt cpu).dequeueThread cpu).1.Agrees ↔
      k.PreemptsInOrder cpu (k.currentThread cpu) := by
  have hrequeues := requeues_preempt hordered hpreempts
  unfold Agrees
  simp only [(dequeueThread_requeued (k.preempt cpu) cpu).thread,
    preempt_dynamicPriority hpreempts]
  generalize ((k.preempt cpu).dequeueThread cpu).1.waitingOn = w at hrequeues ⊢
  generalize k.currentThread cpu = current at hrequeues ⊢
  cases hrequeues with
  | dropped hfull hw =>
      obtain rfl : w = k.waitingAfter cpu := funext hw
      exact agrees_dropped_iff h hfull
  | taken hempty hw =>
      obtain rfl : w = k.waitingOn := funext hw
      exact agrees_taken_iff h hempty
  | kept hroom level hlevel hw => exact agrees_kept_iff h hroom hlevel hw

/-! ## Runs -/

theorem agrees_dispatch_iff {next : Ptr} : (k.dispatch cpu next).Agrees ↔ k.Agrees := by
  have hwaiting : (k.dispatch cpu next).waitingOn = k.waitingOn := rfl
  unfold Agrees
  simp only [hwaiting, dispatch_dynamicPriority]

/-- The new idle process changes nothing that matters for the thread to be preempted. -/
theorem keepsAgreement_initIdle_iff {k₁ : Kernel} {pid : Word}
    (hidle : k.initIdle newProcess b = some (k₁, pid)) (hnew : b.thread ≠ k.currentThread cpu) :
    k₁.KeepsAgreement (.schedule cpu newProcess b) ↔
      k.KeepsAgreement (.schedule cpu newProcess b) := by
  obtain ⟨⟨hqueues, hcurrent, -, -⟩, -, hthread, -⟩ := (initIdle_added hidle).1
  have hwaiting : k₁.waitingOn = k.waitingOn := by
    unfold waitingOn
    rw [hqueues]
  simp only [KeepsAgreement, Preempts, PreemptsInOrder, waitingAfter, hcurrent, hwaiting, hqueues,
    hthread _ hnew.symm]

theorem agrees_schedule_iff (h : k.Agrees) (hordered : k.Ordered)
    (hreturns : k.Returns (.schedule cpu newProcess b))
    (hrun : k.schedule cpu newProcess b = some k') :
    k'.Agrees ↔ k.KeepsAgreement (.schedule cpu newProcess b) := by
  obtain ⟨k₁, pid, idleProcess, next, hidle, -, -, rfl⟩ := schedule_cases hrun
  obtain ⟨-, hnew, hcurrent⟩ := hreturns
  have hadded := (initIdle_added hidle).1
  have hwaiting : ∀ c, k₁.waitingOn c = k.waitingOn c := fun c => by
    rw [waitingOn, waitingOn, hadded.scheduler.cpuRunqueues]
  have hagrees : k₁.Agrees := h.congr hwaiting fun c prio t ht => by
    rw [hadded.thread t (by rintro rfl; exact hnew c prio ht)]
  rw [agrees_dispatch_iff, ← keepsAgreement_initIdle_iff hidle hcurrent]
  by_cases hpreempts : k₁.Preempts cpu
  · rw [agrees_preempt_iff hagrees (hadded.scheduler.ordered hordered) hpreempts]
    exact (imp_iff_right hpreempts).symm
  · rw [preempt_of_not hpreempts]
    exact iff_of_true (hagrees.dequeueThread cpu) fun hp => absurd hp hpreempts

/-- One call keeps the agreement exactly if it meets the condition. -/
theorem agrees_call_iff {call : SchedCall} (h : k.Agrees) (hordered : k.Ordered)
    (hbounded : k.Bounded) (hreturns : k.Returns call) (hrun : k.call call = some k') :
    k'.Agrees ↔ k.KeepsAgreement call := by
  cases call with
  | enqueueThread t cpu =>
      obtain rfl := Option.some.inj hrun
      exact agrees_enqueueThread_iff h hordered
  | dequeueThread cpu =>
      obtain rfl := Option.some.inj hrun
      exact iff_of_true (h.dequeueThread cpu) trivial
  | demotePriority t =>
      obtain rfl := Option.some.inj hrun
      exact agrees_demotePriority_iff h
  | ageThreads cpu =>
      obtain rfl := Option.some.inj hrun
      exact agrees_ageThreads_iff h hbounded
  | schedule cpu newProcess b => exact agrees_schedule_iff h hordered hreturns hrun

theorem Ordered.call {call : SchedCall} (h : k.Ordered) (hrun : k.call call = some k') :
    k'.Ordered := by
  cases call with
  | enqueueThread t cpu =>
      obtain rfl := Option.some.inj hrun
      exact h.enqueueThread t cpu
  | dequeueThread cpu =>
      obtain rfl := Option.some.inj hrun
      exact h.dequeueThread cpu
  | demotePriority t =>
      obtain rfl := Option.some.inj hrun
      unfold Kernel.demotePriority
      split <;> exact h
  | ageThreads cpu =>
      obtain rfl := Option.some.inj hrun
      exact (ageThreads_aged k cpu).rethreaded.scheduler.ordered h
  | schedule cpu newProcess b =>
      obtain ⟨k₁, pid, idleProcess, next, hidle, -, -, rfl⟩ := schedule_cases hrun
      have hordered := (initIdle_added hidle).1.scheduler.ordered h
      exact (hordered.preempt cpu).dequeueThread cpu

theorem Returns.defined {call : SchedCall} (h : k.Returns call) : ∃ k', k.call call = some k' := by
  cases call with
  | schedule cpu newProcess b => exact Option.isSome_iff_exists.mp h.1
  | _ => exact ⟨_, rfl⟩

/-- From queues that hold zeros, the levels agree with the priorities throughout exactly the
runs whose calls all leave the priorities of waiting threads as they are. -/
theorem always_ageingTakesEffect_iff (hzero : k.QueuesZero) (calls : List SchedCall)
    (hcalls : Admissible Kernel.call Returns k calls) :
    Always Kernel.call AgeingTakesEffect k calls ↔
      Admissible Kernel.call KeepsAgreement k calls := by
  have hstart : k.Agrees := fun c prio t ht => by
    rw [hzero.waitingOn_eq_nil] at ht
    exact nomatch ht
  refine always_iff_admissible (fun k : Kernel => k.Agrees ∧ k.Ordered ∧ k.Bounded)
    (fun _ hk => hk.1.takesEffect) ?_ ?_ ⟨hstart, hzero.sound.ordered, hzero.bounded⟩ hcalls
  · rintro k c k' ⟨hagrees, hordered, hbounded⟩ hreturns hkeeps hrun
    exact ⟨(agrees_call_iff hagrees hordered hbounded hreturns hrun).mpr hkeeps,
      hordered.call hrun, hbounded.call hrun⟩
  · rintro k c ⟨hagrees, hordered, hbounded⟩ hreturns hbad
    obtain ⟨k', hrun⟩ := hreturns.defined
    exact ⟨k', hrun, fun heffect =>
      hbad ((agrees_call_iff hagrees hordered hbounded hreturns hrun).mp heffect.agrees)⟩

theorem secondLevelMemory_queuesZero : secondLevelMemory.QueuesZero :=
  ⟨fun _ _ => rfl, fun _ _ => rfl, fun _ => rfl⟩

/-- A thread that waits through 52 calls of `ageThreads` is of priority 0, and still waits at
level 1. -/
theorem not_always_ageingTakesEffect :
    ¬ ∀ k : Kernel, k.QueuesZero → ∀ calls : List SchedCall,
      Admissible Kernel.call Returns k calls → Always Kernel.call AgeingTakesEffect k calls := by
  intro hclaim
  have hreturns : Admissible Kernel.call Returns secondLevelMemory
      (.enqueueThread 0xD0001000 0 :: List.replicate 52 (.ageThreads 0)) := by
    refine .of_forall fun call hcall k => ?_
    obtain rfl | hcall := List.mem_cons.mp hcall
    · trivial
    · rw [List.eq_of_mem_replicate hcall]
      trivial
  have heffect := hclaim secondLevelMemory secondLevelMemory_queuesZero _ hreturns
  have hlast : ∀ s ∈ runSteps Kernel.call secondLevelMemory
      (.enqueueThread 0xD0001000 0 :: List.replicate 52 (.ageThreads 0)),
      0xD0001000 ∈ s.waitingOn 0 1 → (s.thread 0xD0001000).dynamicPriority.toNat = 1 :=
    fun s hs hwaits => (heffect.last hs).agrees 0 1 _ hwaits
  revert hlast
  decide +kernel

/-- A thread of priority 1 waits through 51 calls of `ageThreads`, one less than it takes to raise
it, and leaves. -/
theorem always_ageingTakesEffect_aged :
    Always Kernel.call AgeingTakesEffect secondLevelMemory
      (.enqueueThread 0xD0001000 0 :: List.replicate 51 (.ageThreads 0) ++ [.dequeueThread 0]) := by
  have hages : ∀ i < 51, ∀ k ∈ runSteps Kernel.call
      (secondLevelMemory.enqueueThread 0xD0001000 0) (List.replicate i (.ageThreads 0)),
      ∀ t ∈ k.visited 0, k.raisesOf 0 t = 0 := by
    decide +kernel
  refine (always_ageingTakesEffect_iff secondLevelMemory_queuesZero _ ?_).mpr ?_
  · exact .append ⟨trivial, fun _ _ => .replicate fun _ _ _ _ => trivial⟩ fun _ _ =>
      ⟨trivial, fun _ _ => trivial⟩
  · refine .append ⟨.inl (show (1 : Word).toNat < maxPriority by decide), fun k hk => ?_⟩
      fun _ _ => ⟨trivial, fun _ _ => trivial⟩
    obtain rfl := Option.some.inj hk
    exact .replicate fun i hi k hk => raisesOf_eq_zero_iff.mpr (hages i hi k hk)

end Kernel

end Senob.Sys
