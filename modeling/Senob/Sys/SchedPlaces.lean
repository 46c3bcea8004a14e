import Senob.Foundation.Placement
import Senob.Sys.Sched

/-!
# Where the scheduler keeps threads

A thread is kept in a live slot of a run queue or as the current thread of a CPU. Seen
as a placement, `enqueueThread` puts a thread into a free place, `dequeueThread` clears
one, and the end of `schedule` puts the next thread into the place of the CPU.
-/

namespace Senob.Sys

open Senob.Foundation

/-- The places that hold threads: the slots of the queues, and the CPUs. -/
inductive Place where
  | queued (cpu prio i : Nat)
  | current (cpu : Nat)
  deriving DecidableEq

/-- The program has such a place. -/
def Place.InRange : Place → Prop
  | .queued cpu prio _ => cpu < maxCpus ∧ prio < maxPriority
  | .current cpu => cpu < maxCpus

namespace Kernel

/-- What the live slots and the CPUs hold. -/
def place (k : Kernel) : Placement Place Ptr
  | .queued cpu prio i =>
      if (k.cpuRunqueues cpu).head prio ≤ i ∧ i < (k.cpuRunqueues cpu).tail prio then
        some ((k.cpuRunqueues cpu).queues prio i)
      else none
  | .current cpu => if k.currentThread cpu = null then none else some (k.currentThread cpu)

/-- No queue has been read further than it has been written. -/
def Ordered (k : Kernel) : Prop :=
  ∀ cpu prio, (k.cpuRunqueues cpu).head prio ≤ (k.cpuRunqueues cpu).tail prio

variable {k k' : Kernel} {t next : Ptr} {cpu cpu' prio i : Nat} {pl : Place}

/-- The queue that a thread is put into exists, whatever its priority is. -/
theorem queueOf_lt_maxPriority (k : Kernel) (t : Ptr) : k.queueOf t < maxPriority := by
  unfold queueOf maxPriority
  omega

theorem place_current (h : k.currentThread cpu ≠ null) :
    k.place (.current cpu) = some (k.currentThread cpu) := if_neg h

/-- A CPU holds a thread only as its `currentThread`, which then is not the null pointer. -/
theorem eq_of_place_current (h : k.place (.current cpu) = some t) :
    k.currentThread cpu = t ∧ t ≠ null := by
  by_cases hnull : k.currentThread cpu = null
  · rw [place, if_pos hnull] at h
    exact nomatch h
  · rw [place_current hnull] at h
    obtain rfl := Option.some.inj h
    exact ⟨rfl, hnull⟩

/-- The places depend on the queues and on the current threads only. -/
theorem place_congr (hqueues : k'.cpuRunqueues = k.cpuRunqueues)
    (hcurrent : k'.currentThread = k.currentThread) : k'.place = k.place := by
  funext pl
  cases pl <;> simp only [place, hqueues, hcurrent]

/-- The queues are empty and no CPU has a thread. -/
structure Quiet (k : Kernel) : Prop where
  queues : ∀ cpu prio, (k.cpuRunqueues cpu).head prio = (k.cpuRunqueues cpu).tail prio
  currents : ∀ cpu, k.currentThread cpu = null

/-- Before the first thread is enqueued, no place is taken. -/
theorem Quiet.place (h : k.Quiet) (pl : Place) : k.place pl = none := by
  cases pl with
  | queued cpu prio i =>
      refine if_neg fun hlive => ?_
      have := h.queues cpu prio
      omega
  | current cpu => exact if_pos (h.currents cpu)

theorem Quiet.ordered (h : k.Quiet) : k.Ordered :=
  fun cpu prio => Nat.le_of_eq (h.queues cpu prio)

/-- The variables of `sched.c` and the registers of the CPUs are the same. -/
structure SameScheduler (k k' : Kernel) : Prop where
  cpuRunqueues : k'.cpuRunqueues = k.cpuRunqueues
  currentThread : k'.currentThread = k.currentThread
  switched : k'.switched = k.switched
  context : k'.context = k.context

theorem SameScheduler.refl (k : Kernel) : k.SameScheduler k := ⟨rfl, rfl, rfl, rfl⟩

theorem SameScheduler.trans {k'' : Kernel} (h : k.SameScheduler k') (h' : k'.SameScheduler k'') :
    k.SameScheduler k'' :=
  ⟨h'.1.trans h.1, h'.2.trans h.2, h'.3.trans h.3, h'.4.trans h.4⟩

/-- What leaves the variables of the scheduler leaves every thread where it is. -/
theorem SameScheduler.place (h : k.SameScheduler k') : k'.place = k.place :=
  place_congr h.cpuRunqueues h.currentThread

theorem SameScheduler.ordered (h : k.SameScheduler k') (hordered : k.Ordered) : k'.Ordered := by
  unfold Ordered
  rw [h.cpuRunqueues]
  exact hordered

theorem SameScheduler.quiet (h : k.SameScheduler k') (hquiet : k.Quiet) : k'.Quiet :=
  ⟨fun cpu prio => h.cpuRunqueues ▸ hquiet.queues cpu prio,
    fun cpu => h.currentThread ▸ hquiet.currents cpu⟩

/-- The current threads and the registers of the CPUs are the same. -/
structure SameCPUs (k k' : Kernel) : Prop where
  currentThread : k'.currentThread = k.currentThread
  switched : k'.switched = k.switched
  context : k'.context = k.context

theorem SameCPUs.trans {k'' : Kernel} (h : k.SameCPUs k') (h' : k'.SameCPUs k'') :
    k.SameCPUs k'' :=
  ⟨h'.1.trans h.1, h'.2.trans h.2, h'.3.trans h.3⟩

/-- A step that does not touch the queues either leaves the CPUs alone. -/
theorem SameScheduler.sameCPUs (h : k.SameScheduler k') : k.SameCPUs k' :=
  ⟨h.currentThread, h.switched, h.context⟩

/-! ## Updates of one field -/

section Updates

variable (k : Kernel) (t : Ptr) (f : Thread → Thread)

@[simp] theorem modifyThread_thread_self : (k.modifyThread t f).thread t = f (k.thread t) :=
  Function.update_self ..

variable {t} in
@[simp] theorem modifyThread_thread_of_ne {u : Ptr} (h : u ≠ t) :
    (k.modifyThread t f).thread u = k.thread u := Function.update_of_ne h ..

/-- A property of threads that an update respects holds at every address. -/
theorem modifyThread_apply {γ : Type} (g : Thread → γ) (hf : g (f (k.thread t)) = g (k.thread t))
    (u : Ptr) : g ((k.modifyThread t f).thread u) = g (k.thread u) := by
  by_cases h : u = t
  · rw [h, modifyThread_thread_self, hf]
  · rw [modifyThread_thread_of_ne k f h]

/-- An update of a thread structure does not move the thread. -/
@[simp] theorem modifyThread_place : (k.modifyThread t f).place = k.place := place_congr rfl rfl

end Updates

/-! ## Entering a queue -/

/-- Only the queues and the numbers of waiting threads differ. -/
def Requeued (k k' : Kernel) : Prop := ∃ queues counts,
  k' = { k with cpuRunqueues := queues, threadsPerCPU := counts }

namespace Requeued

theorem refl (k : Kernel) : k.Requeued k := ⟨_, _, rfl⟩

theorem trans {k'' : Kernel} (h : k.Requeued k') (h' : k'.Requeued k'') : k.Requeued k'' := by
  obtain ⟨_, _, rfl⟩ := h
  obtain ⟨_, _, rfl⟩ := h'
  exact ⟨_, _, rfl⟩

theorem tree (h : k.Requeued k') : k'.tree = k.tree := by
  obtain ⟨_, _, rfl⟩ := h
  rfl

theorem thread (h : k.Requeued k') : k'.thread = k.thread := by
  obtain ⟨_, _, rfl⟩ := h
  rfl

theorem sameCPUs (h : k.Requeued k') : k.SameCPUs k' := by
  obtain ⟨_, _, rfl⟩ := h
  exact ⟨rfl, rfl, rfl⟩

end Requeued

/-- `enqueueThread` writes the queues and the counters, and no thread structure. -/
theorem enqueueThread_requeued (k : Kernel) (t : Ptr) (cpu : Nat) :
    k.Requeued (k.enqueueThread t cpu) := by
  unfold enqueueThread
  dsimp only
  split
  · exact ⟨_, _, rfl⟩
  · exact ⟨_, _, rfl⟩

/-- At a full level the call returns at once and the thread is in no queue. -/
theorem enqueueThread_of_full
    (h : maxRunqueueSize ≤ (k.cpuRunqueues cpu).tail (k.queueOf t)) :
    k.enqueueThread t cpu = k := if_pos h

/-- With room at its level, the thread is appended there and counted for the CPU. -/
theorem enqueueThread_of_room
    (h : (k.cpuRunqueues cpu).tail (k.queueOf t) < maxRunqueueSize) :
    k.enqueueThread t cpu = { k with
      cpuRunqueues := Function.update k.cpuRunqueues cpu
        ((k.cpuRunqueues cpu).push (k.queueOf t) t)
      threadsPerCPU := Function.update k.threadsPerCPU cpu (k.threadsPerCPU cpu + 1) } :=
  if_neg (Nat.not_le.mpr h)

/-- The slot that `enqueueThread` fills was free, and only that slot changes. -/
theorem enqueueThread_place (hordered : k.Ordered)
    (hroom : (k.cpuRunqueues cpu).tail (k.queueOf t) < maxRunqueueSize) :
    k.place (.queued cpu (k.queueOf t) ((k.cpuRunqueues cpu).tail (k.queueOf t))) = none ∧
      (k.enqueueThread t cpu).place = k.place.put
        (.queued cpu (k.queueOf t) ((k.cpuRunqueues cpu).tail (k.queueOf t))) t := by
  refine ⟨if_neg fun h => absurd h.2 (Nat.lt_irrefl _), ?_⟩
  rw [enqueueThread_of_room hroom]
  have hle := hordered cpu (k.queueOf t)
  generalize k.queueOf t = prio at hroom hle
  funext pl
  cases pl with
  | current c => rw [Placement.put_of_ne (by simp)]; rfl
  | queued c p i =>
      by_cases hc : c = cpu
      · subst hc
        by_cases hp : p = prio
        · subst hp
          by_cases hi : i = (k.cpuRunqueues c).tail p
          · subst hi
            simp [place, Runqueue.push, hle]
          · rw [Placement.put_of_ne (by simpa using hi)]
            have hlt : i < (k.cpuRunqueues c).tail p + 1 ↔ i < (k.cpuRunqueues c).tail p := by omega
            simp [place, Runqueue.push, hi, hlt]
        · rw [Placement.put_of_ne (by simp [hp])]
          simp [place, Runqueue.push, hp]
      · rw [Placement.put_of_ne (by simp [hc])]
        simp [place, hc]

/-- A tail only grows, so that it stays behind its head. -/
theorem Ordered.enqueueThread (h : k.Ordered) (t : Ptr) (cpu : Nat) :
    (k.enqueueThread t cpu).Ordered := by
  unfold Kernel.enqueueThread
  dsimp only
  split
  · exact h
  · intro c p
    by_cases hc : c = cpu
    · subst hc
      by_cases hp : p = k.queueOf t
      · subst hp
        simpa [Runqueue.push] using Nat.le_succ_of_le (h c (k.queueOf t))
      · simpa [Runqueue.push, hp] using h c p
    · simpa [hc] using h c p

/-! ## Leaving a queue -/

/-- The level that `dequeueThread` takes exists and has a thread waiting. -/
theorem Runqueue.firstWaiting_spec {rq : Runqueue} (h : rq.firstWaiting = some prio) :
    prio < maxPriority ∧ rq.head prio < rq.tail prio := by
  have hmem := List.mem_of_find?_eq_some h
  have hwaits := List.find?_some h
  exact ⟨List.mem_range.mp hmem, of_decide_eq_true hwaits⟩

/-- With all levels empty, `dequeueThread` changes nothing. -/
theorem dequeueThread_of_none (h : (k.cpuRunqueues cpu).firstWaiting = none) :
    k.dequeueThread cpu = (k, null) := by
  simp only [dequeueThread, h]

/-- Otherwise the head of the first level that is not empty goes up by one, and the thread that
was there is returned. -/
theorem dequeueThread_of_some (h : (k.cpuRunqueues cpu).firstWaiting = some prio) :
    k.dequeueThread cpu = ({ k with
        cpuRunqueues := Function.update k.cpuRunqueues cpu ((k.cpuRunqueues cpu).advance prio)
        threadsPerCPU := Function.update k.threadsPerCPU cpu (k.threadsPerCPU cpu - 1) },
      (k.cpuRunqueues cpu).queues prio ((k.cpuRunqueues cpu).head prio)) := by
  simp only [dequeueThread, h]

theorem dequeueThread_requeued (k : Kernel) (cpu : Nat) : k.Requeued (k.dequeueThread cpu).1 := by
  cases hfirst : (k.cpuRunqueues cpu).firstWaiting with
  | none =>
      rw [dequeueThread_of_none hfirst]
      exact ⟨_, _, rfl⟩
  | some prio =>
      rw [dequeueThread_of_some hfirst]
      exact ⟨_, _, rfl⟩

/-- `dequeueThread` either finds no waiting thread, or clears the place of the thread
that it returns. -/
theorem dequeueThread_cases (k : Kernel) (cpu : Nat) :
    k.dequeueThread cpu = (k, null) ∨ ∃ prio i, prio < maxPriority ∧
      k.place (.queued cpu prio i) = some (k.dequeueThread cpu).2 ∧
      (k.dequeueThread cpu).1.place = k.place.clear (.queued cpu prio i) := by
  cases hfirst : (k.cpuRunqueues cpu).firstWaiting with
  | none => exact .inl (dequeueThread_of_none hfirst)
  | some prio =>
      obtain ⟨hprio, hwaits⟩ := Runqueue.firstWaiting_spec hfirst
      refine .inr ⟨prio, (k.cpuRunqueues cpu).head prio, hprio, ?_⟩
      rw [dequeueThread_of_some hfirst]
      refine ⟨if_pos ⟨Nat.le_refl _, hwaits⟩, ?_⟩
      funext pl
      cases pl with
      | current c => rw [Placement.clear_of_ne (by simp)]; rfl
      | queued c p i =>
          by_cases hc : c = cpu
          · subst hc
            by_cases hp : p = prio
            · subst hp
              by_cases hi : i = (k.cpuRunqueues c).head p
              · subst hi
                simp [place, Runqueue.advance]
              · rw [Placement.clear_of_ne (by simpa using hi)]
                have hlt : (k.cpuRunqueues c).head p + 1 ≤ i ↔ (k.cpuRunqueues c).head p ≤ i := by
                  omega
                simp [place, Runqueue.advance, hlt]
            · rw [Placement.clear_of_ne (by simp [hp])]
              simp [place, Runqueue.advance, hp]
          · rw [Placement.clear_of_ne (by simp [hc])]
            simp [place, hc]

/-- A head is only moved at a level with a waiting thread, so that it does not pass its tail. -/
theorem Ordered.dequeueThread (h : k.Ordered) (cpu : Nat) : (k.dequeueThread cpu).1.Ordered := by
  cases hfirst : (k.cpuRunqueues cpu).firstWaiting with
  | none => rwa [dequeueThread_of_none hfirst]
  | some prio =>
      rw [dequeueThread_of_some hfirst]
      intro c p
      by_cases hc : c = cpu
      · subst hc
        by_cases hp : p = prio
        · subst hp
          simpa [Runqueue.advance] using Nat.succ_le_of_lt (Runqueue.firstWaiting_spec hfirst).2
        · simpa [Runqueue.advance, hp] using h c p
      · simpa [hc] using h c p

/-! ## Leaving and entering a CPU -/

/-- `dispatch` changes no place but that of the CPU. -/
theorem dispatch_place_of_ne (h : pl ≠ .current cpu) :
    (k.dispatch cpu next).place pl = k.place pl := by
  cases pl with
  | queued c p i => rfl
  | current c =>
      have hc : c ≠ cpu := fun hc => h (by rw [hc])
      simp [place, dispatch, modifyThread, hc]

/-- After `dispatch` the CPU holds the next thread. -/
theorem dispatch_place_self (hnext : next ≠ null) :
    (k.dispatch cpu next).place (.current cpu) = some next := by
  simp [place, dispatch, hnext]

/-- Seen as a placement, `dispatch` puts the next thread on the CPU, over what was there. -/
theorem dispatch_place (hnext : next ≠ null) :
    (k.dispatch cpu next).place = k.place.put (.current cpu) next := by
  funext pl
  by_cases hpl : pl = .current cpu
  · rw [hpl, dispatch_place_self hnext, Placement.put_self]
  · rw [dispatch_place_of_ne hpl, Placement.put_of_ne hpl]

theorem dispatch_thread_of_ne {u : Ptr} (h : u ≠ next) :
    (k.dispatch cpu next).thread u = k.thread u :=
  Function.update_of_ne h ..

/-- The thread that gets the CPU is marked as running. -/
theorem dispatch_state : ((k.dispatch cpu next).thread next).state = .running := by
  rw [dispatch, modifyThread_thread_self]

/-- The state after the two writes to a preempted thread. -/
def demoted (k : Kernel) (t : Ptr) : Kernel :=
  (k.modifyThread t fun x => { x with state := .runnable }).demotePriority t

/-- A thread that is preempted is first made runnable and demoted, then enqueued. -/
theorem preempt_of (h : k.Preempts cpu) : k.preempt cpu =
    (k.demoted (k.currentThread cpu)).enqueueThread (k.currentThread cpu) cpu := if_pos h

theorem preempt_of_not (h : ¬ k.Preempts cpu) : k.preempt cpu = k := if_neg h

/-- Everything but the thread structures is the same. -/
def Rethreaded (k k' : Kernel) : Prop := ∃ thread, k' = { k with thread := thread }

/-- The two writes go to the thread structure and nowhere else. -/
theorem demoted_rethreaded (k : Kernel) (t : Ptr) : k.Rethreaded (k.demoted t) := by
  unfold demoted demotePriority
  split
  · exact ⟨_, rfl⟩
  · exact ⟨_, rfl⟩

theorem Rethreaded.scheduler (h : k.Rethreaded k') : k.SameScheduler k' := by
  obtain ⟨_, rfl⟩ := h
  exact ⟨rfl, rfl, rfl, rfl⟩

@[simp] theorem demoted_thread_of_ne {u : Ptr} (h : u ≠ t) :
    (k.demoted t).thread u = k.thread u := by
  unfold demoted demotePriority
  split <;> simp [h]

/-- A preempted thread is runnable before it is enqueued. -/
@[simp] theorem demoted_state : ((k.demoted t).thread t).state = .runnable := by
  unfold demoted demotePriority
  split <;> simp

/-- What none of the moves of the scheduler touches. -/
structure Settled (k k' : Kernel) : Prop where
  tree : k'.tree = k.tree
  kProcessID : k'.kProcessID = k.kProcessID
  regs : k'.regs = k.regs
  thread : ∀ u, (k'.thread u).regs = (k.thread u).regs

namespace Settled

theorem refl (k : Kernel) : k.Settled k := ⟨rfl, rfl, rfl, fun _ => rfl⟩

theorem trans {k'' : Kernel} (h : k.Settled k') (h' : k'.Settled k'') : k.Settled k'' :=
  ⟨h'.1.trans h.1, h'.2.trans h.2, h'.3.trans h.3, fun u => (h'.4 u).trans (h.4 u)⟩

end Settled

theorem Requeued.settled (h : k.Requeued k') : k.Settled k' := by
  obtain ⟨_, _, rfl⟩ := h
  exact ⟨rfl, rfl, rfl, fun _ => rfl⟩

/-- An update of a thread that keeps the address of its registers is such a move. -/
theorem modifyThread_settled {f : Thread → Thread} (hf : ∀ x, (f x).regs = x.regs) :
    k.Settled (k.modifyThread t f) :=
  ⟨rfl, rfl, rfl, modifyThread_apply k t f Thread.regs (hf _)⟩

/-- What depends neither on the state nor on the priority of a thread survives the two
writes. -/
theorem demoted_apply {γ : Type} (g : Thread → γ) (hstate : ∀ x st, g { x with state := st } = g x)
    (hpriority : ∀ x w, g { x with dynamicPriority := w } = g x) (k : Kernel) (t u : Ptr) :
    g ((k.demoted t).thread u) = g (k.thread u) := by
  have hwrite : ∀ v, g ((k.modifyThread t fun x => { x with state := .runnable }).thread v) =
      g (k.thread v) := modifyThread_apply k t _ g (hstate _ _)
  unfold demoted demotePriority
  split
  · exact (modifyThread_apply _ t _ g (hpriority _ _) u).trans (hwrite u)
  · exact hwrite u

/-- `demoted_apply` for the whole of preempting, since enqueueing leaves the thread structures. -/
theorem preempt_apply {γ : Type} (g : Thread → γ) (hstate : ∀ x st, g { x with state := st } = g x)
    (hpriority : ∀ x w, g { x with dynamicPriority := w } = g x) (k : Kernel) (cpu : Nat)
    (u : Ptr) : g ((k.preempt cpu).thread u) = g (k.thread u) := by
  by_cases hpreempts : k.Preempts cpu
  · rw [preempt_of hpreempts, (enqueueThread_requeued ..).thread]
    exact demoted_apply g hstate hpriority ..
  · rw [preempt_of_not hpreempts]

/-- Apart from the thread structures and the queues, preempting writes nothing. -/
theorem preempt_eq (k : Kernel) (cpu : Nat) : ∃ thread queues counts,
    k.preempt cpu = { k with
      thread := thread, cpuRunqueues := queues, threadsPerCPU := counts } := by
  by_cases hpreempts : k.Preempts cpu
  · rw [preempt_of hpreempts]
    obtain ⟨queues, counts, heq⟩ :=
      enqueueThread_requeued (k.demoted (k.currentThread cpu)) (k.currentThread cpu) cpu
    obtain ⟨thread, hthread⟩ := demoted_rethreaded k (k.currentThread cpu)
    exact ⟨thread, queues, counts, by rw [heq, hthread]⟩
  · rw [preempt_of_not hpreempts]
    exact ⟨_, _, _, rfl⟩

/-- Preempting writes no saved registers. This is where the frame of the thread is lost. -/
theorem preempt_settled (k : Kernel) (cpu : Nat) : k.Settled (k.preempt cpu) := by
  have hregs := preempt_apply Thread.regs (fun _ _ => rfl) (fun _ _ => rfl) k cpu
  obtain ⟨_, _, _, heq⟩ := k.preempt_eq cpu
  rw [heq] at hregs ⊢
  exact ⟨rfl, rfl, rfl, hregs⟩

theorem dispatch_settled (k : Kernel) (cpu : Nat) (next : Ptr) :
    k.Settled (k.dispatch cpu next) :=
  have h : k.Settled (k.modifyThread next fun x => { x with waitTicks := 0, state := .running }) :=
    modifyThread_settled fun _ => rfl
  ⟨h.tree, h.kProcessID, h.regs, h.thread⟩

/-- Preempting leaves the CPU at the preempted thread until the next one is dispatched. -/
theorem preempt_sameCPUs (k : Kernel) (cpu : Nat) : k.SameCPUs (k.preempt cpu) := by
  obtain ⟨_, _, _, heq⟩ := k.preempt_eq cpu
  rw [heq]
  exact ⟨rfl, rfl, rfl⟩

/-- The registers of each CPU are the ones that `switchTask` loads for its current
thread. -/
def Loaded (k : Kernel) : Prop :=
  ∀ cpu, k.currentThread cpu ≠ null → k.switched cpu = (k.thread (k.currentThread cpu)).regs ∧
    k.context cpu = switchTask (k.switched cpu) (k.regs (k.switched cpu))

/-- Only the register structures of the current threads matter. -/
theorem Loaded.congr (h : k.Loaded) (hcpus : k.SameCPUs k')
    (hregs : ∀ cpu, k.currentThread cpu ≠ null →
      (k'.thread (k.currentThread cpu)).regs = (k.thread (k.currentThread cpu)).regs ∧
      k'.regs (k.thread (k.currentThread cpu)).regs =
        k.regs (k.thread (k.currentThread cpu)).regs) : k'.Loaded := by
  intro cpu hcpu
  rw [hcpus.currentThread] at hcpu ⊢
  obtain ⟨hswitched, hcontext⟩ := h cpu hcpu
  obtain ⟨hthread, hstruct⟩ := hregs cpu hcpu
  rw [hcpus.switched, hcpus.context, hthread, hcontext, hswitched, hstruct]
  exact ⟨rfl, rfl⟩

/-- Moves of the scheduler that leave the CPUs leave what is loaded. -/
theorem Loaded.settled (h : k.Loaded) (hcpus : k.SameCPUs k') (hsettled : k.Settled k') :
    k'.Loaded :=
  h.congr hcpus fun _ _ => ⟨hsettled.thread _, by rw [hsettled.regs]⟩

/-- `dispatch` loads the registers of the thread that it makes current. -/
theorem Loaded.dispatch (h : k.Loaded) (cpu : Nat) (next : Ptr) :
    (k.dispatch cpu next).Loaded := by
  have hsettled := k.dispatch_settled cpu next
  intro c hc
  rw [hsettled.thread, hsettled.regs]
  by_cases hcpu : c = cpu
  · subst hcpu
    simp [Kernel.dispatch, modifyThread]
  · simp only [Kernel.dispatch, modifyThread, Function.update_of_ne hcpu] at hc ⊢
    exact h c hc

theorem Ordered.preempt (h : k.Ordered) (cpu : Nat) : (k.preempt cpu).Ordered := by
  by_cases hpreempts : k.Preempts cpu
  · rw [preempt_of hpreempts]
    exact ((demoted_rethreaded k _).scheduler.ordered h).enqueueThread _ _
  · rwa [preempt_of_not hpreempts]

/-! ## Ageing and ticks -/

/-- Only waiting times and priorities differ. -/
structure Aged (k k' : Kernel) : Prop where
  rethreaded : k.Rethreaded k'
  state : ∀ u, (k'.thread u).state = (k.thread u).state
  regs : ∀ u, (k'.thread u).regs = (k.thread u).regs

theorem Aged.refl (k : Kernel) : k.Aged k := ⟨⟨_, rfl⟩, fun _ => rfl, fun _ => rfl⟩

theorem Aged.trans {k'' : Kernel} (h : k.Aged k') (h' : k'.Aged k'') : k.Aged k'' := by
  refine ⟨?_, fun u => (h'.state u).trans (h.state u), fun u => (h'.regs u).trans (h.regs u)⟩
  obtain ⟨_, rfl⟩ := h.rethreaded
  obtain ⟨_, rfl⟩ := h'.rethreaded
  exact ⟨_, rfl⟩

/-- Ageing is a move of the scheduler. -/
theorem Aged.settled (h : k.Aged k') : k.Settled k' := by
  obtain ⟨⟨_, rfl⟩, -, hregs⟩ := h
  exact ⟨rfl, rfl, rfl, hregs⟩

/-- One round of the loop, whether or not the thread has waited long enough to be raised. -/
theorem ageThread_aged (k : Kernel) (t : Ptr) : k.Aged (k.ageThread t) := by
  refine ⟨⟨_, rfl⟩, modifyThread_apply k t _ Thread.state ?_,
    modifyThread_apply k t _ Thread.regs ?_⟩
  · split <;> rfl
  · split <;> rfl

/-- The two nested loops of `ageThreads`, over the levels and over the slots of a level. -/
theorem ageThreads_aged (k : Kernel) (cpu : Nat) : k.Aged (k.ageThreads cpu) := by
  unfold ageThreads
  refine List.foldlRecOn _ _ (.refl k) fun k' hk' prio _ => ?_
  refine List.foldlRecOn _ _ hk' fun k'' hk'' i _ => ?_
  exact hk''.trans (ageThread_aged ..)

/-- A tick counts, and schedules nothing by itself. -/
theorem tick_scheduler (k : Kernel) (cpu : Nat) : k.SameScheduler (k.tick cpu) :=
  ⟨rfl, rfl, rfl, rfl⟩

theorem tick_settled (k : Kernel) (cpu : Nat) : k.Settled (k.tick cpu) :=
  ⟨rfl, rfl, rfl, fun _ => rfl⟩

/-! ## Runs of `schedule` -/

/-- The parts of a run of `schedule`. -/
theorem schedule_cases {newProcess : Ptr} {b : ThreadBlocks}
    (h : k.schedule cpu newProcess b = some k') :
    ∃ k₁ pid idleProcess next, k.initIdle newProcess b = some (k₁, pid) ∧
      k₁.tree.rbSearch pid = some idleProcess ∧
      next = (if ((k₁.preempt cpu).dequeueThread cpu).2 = null then
        (((k₁.preempt cpu).dequeueThread cpu).1.tree.proc idleProcess).headThread
        else ((k₁.preempt cpu).dequeueThread cpu).2) ∧
      k' = ((k₁.preempt cpu).dequeueThread cpu).1.dispatch cpu next := by
  obtain ⟨⟨k₁, pid⟩, hidle, h⟩ := Option.bind_eq_some_iff.mp h
  obtain ⟨idleProcess, hsearch, h⟩ := Option.bind_eq_some_iff.mp h
  exact ⟨k₁, pid, idleProcess, _, hidle, hsearch, rfl, (Option.some.inj h).symm⟩

end Kernel

end Senob.Sys
