import Senob.Sys.Thread

/-!
# The scheduler

`sched.c`, with the assembly routine `switchTask` that it ends in and the timer
interrupt that calls it. Taking a thread from the CPU, choosing the next one and
switching to it are the three parts of `schedule`.
-/

namespace Senob.Sys

open Senob.Foundation

def maxPriority : Nat := 5

def maxRunqueueSize : Nat := 64

/-- `AGE_THRESHOLD`. -/
def ageThreshold : Word := 50

/-- `TIME_SLICE_TICKS`. -/
def timeSliceTicks : BitVec 64 := 5

/-- `struct Interrupt_registers`. -/
structure InterruptRegisters where
  cr2 : Word
  ds : Word
  edi : Word
  esi : Word
  ebp : Word
  esp : Word
  ebx : Word
  edx : Word
  ecx : Word
  eax : Word
  interruptNumber : Word
  errCode : Word
  eip : Word
  csm : Word
  eflags : Word
  useresp : Word
  ss : Word

/-- The last two bits of a code segment selector, the privilege level. -/
def privilege (cs : Word) : Word := cs &&& 3

/-- `switchTask`: the registers that it leaves, when its argument is the address `a` of
the structure `r`. The register `esi` holds the argument. Five words are pushed below
`r.esp`; `iret` takes all of them only when the privilege level changes, and otherwise
leaves `ss` and `esp` on the stack. The kernel runs with the selector `0x10` in `ss`. -/
def switchTask (a : Ptr) (r : Regs) : Context where
  eax := r.eax
  ebx := r.ebx
  ecx := r.ecx
  edx := r.edx
  esi := BitVec.ofNat 32 a
  edi := r.edi
  ebp := r.ebp
  esp := if privilege r.cs ≠ 0 then r.esp else r.esp - 8
  eip := r.eip
  eflags := r.eflags
  cs := r.cs
  ss := if privilege r.cs ≠ 0 then r.ss else 0x10
  ds := r.ds
  es := r.es
  fs := r.fs
  gs := r.gs
  cr3 := r.cr3 - 0xC0000000

namespace Runqueue

/-- `rq->queues[prio][rq->tail[prio]++] = t`. -/
def push (rq : Runqueue) (prio : Nat) (t : Ptr) : Runqueue :=
  { rq with
    queues := Function.update rq.queues prio
      (Function.update (rq.queues prio) (rq.tail prio) t)
    tail := Function.update rq.tail prio (rq.tail prio + 1) }

/-- `rq->head[prio]++`. -/
def advance (rq : Runqueue) (prio : Nat) : Runqueue :=
  { rq with head := Function.update rq.head prio (rq.head prio + 1) }

/-- The first priority with a waiting thread. -/
def firstWaiting (rq : Runqueue) : Option Nat :=
  (List.range maxPriority).find? fun prio => rq.head prio < rq.tail prio

end Runqueue

namespace Kernel

variable (k : Kernel)

/-- The queue that a thread goes to. -/
def queueOf (t : Ptr) : Nat := min (k.thread t).dynamicPriority.toNat (maxPriority - 1)

def enqueueThread (t : Ptr) (cpu : Nat) : Kernel :=
  let prio := k.queueOf t
  let rq := k.cpuRunqueues cpu
  if maxRunqueueSize ≤ rq.tail prio then k
  else { k with
    cpuRunqueues := Function.update k.cpuRunqueues cpu (rq.push prio t)
    threadsPerCPU := Function.update k.threadsPerCPU cpu (k.threadsPerCPU cpu + 1) }

def dequeueThread (cpu : Nat) : Kernel × Ptr :=
  let rq := k.cpuRunqueues cpu
  match rq.firstWaiting with
  | some prio =>
      ({ k with
          cpuRunqueues := Function.update k.cpuRunqueues cpu (rq.advance prio)
          threadsPerCPU := Function.update k.threadsPerCPU cpu (k.threadsPerCPU cpu - 1) },
        rq.queues prio (rq.head prio))
  | none => (k, null)

def demotePriority (t : Ptr) : Kernel :=
  if (k.thread t).dynamicPriority.toNat < maxPriority - 1 then
    k.modifyThread t fun x => { x with dynamicPriority := x.dynamicPriority + 1 }
  else k

def leastLoadedCPU : Nat :=
  ((List.range k.ncpus).foldl (fun (min, idx) i =>
    if k.threadsPerCPU i < min then (k.threadsPerCPU i, i) else (min, idx))
    (k.threadsPerCPU 0, 0)).2

/-- The body of the loop of `enqueueRunnableThread`, without the step to the next
thread. -/
def enqueueIfRunnable (t : Ptr) : Kernel :=
  if (k.thread t).state = .runnable then k.enqueueThread t k.leastLoadedCPU else k

def enqueueRunnableThread (proc : Ptr) : Option Kernel :=
  (whileFuel (fun (_, thread) => decide (thread ≠ null))
    (fun (k, thread) => (k.enqueueIfRunnable thread, (k.thread thread).next))
    ProcTree.loopFuel (k, (k.tree.proc proc).headThread)).map Prod.fst

def fillRunqueuesFromBST : Option Kernel :=
  ProcTree.inOrderTraversal Kernel.tree enqueueRunnableThread ProcTree.loopFuel k.tree.root k

/-- The body of the inner loop of `ageThreads`. -/
def ageThread (t : Ptr) : Kernel :=
  k.modifyThread t fun x =>
    if x.state = .runnable ∧ ageThreshold < x.waitTicks then
      { x with waitTicks := 0, dynamicPriority := x.dynamicPriority - 1 }
    else { x with waitTicks := x.waitTicks + 1 }

def ageThreads (cpu : Nat) : Kernel :=
  [4, 3, 2, 1].foldl (fun k prio =>
    let rq := k.cpuRunqueues cpu
    (List.range' (rq.head prio) (rq.tail prio - rq.head prio)).foldl
      (fun k i => k.ageThread (rq.queues prio i)) k) k

/-- The current thread of the CPU is a running one, which `schedule` will preempt. -/
def Preempts (cpu : Nat) : Prop :=
  k.currentThread cpu ≠ null ∧ (k.thread (k.currentThread cpu)).state = .running

instance (cpu : Nat) : Decidable (k.Preempts cpu) := inferInstanceAs (Decidable (_ ∧ _))

/-- The handling of the old thread in `schedule`. -/
def preempt (cpu : Nat) : Kernel :=
  if k.Preempts cpu then
    let current := k.currentThread cpu
    let k := k.modifyThread current fun x => { x with state := .runnable }
    let k := k.demotePriority current
    k.enqueueThread current cpu
  else k

/-- The end of `schedule`: everything after the choice of the next thread. -/
def dispatch (cpu : Nat) (nextThread : Ptr) : Kernel :=
  let k := k.modifyThread nextThread fun x => { x with waitTicks := 0, state := .running }
  let next := k.thread nextThread
  { k with
    currentThread := Function.update k.currentThread cpu nextThread
    ticksSinceLastSwitch := Function.update k.ticksSinceLastSwitch cpu 0
    tssEsp0 := Function.update k.tssEsp0 cpu next.kstack.esp0
    switched := Function.update k.switched cpu next.regs
    context := Function.update k.context cpu (switchTask next.regs (k.regs next.regs)) }

/-- `schedule`. The process and the thread of `initIdle` are allocated at `newProcess`
and `b`. -/
def schedule (cpu : Nat) (newProcess : Ptr) (b : ThreadBlocks) : Option Kernel := do
  let (k, pid) ← k.initIdle newProcess b
  let idleProcess ← k.tree.rbSearch pid
  let k := k.preempt cpu
  let (k, nextThread) := k.dequeueThread cpu
  let nextThread :=
    if nextThread = null then (k.tree.proc idleProcess).headThread else nextThread
  return k.dispatch cpu nextThread

/-- The counters at the beginning of `apicTimerHandler`. -/
def tick (cpu : Nat) : Kernel :=
  { k with
    cpuTicks := Function.update k.cpuTicks cpu (k.cpuTicks cpu + 1)
    ticksSinceLastSwitch :=
      Function.update k.ticksSinceLastSwitch cpu (k.ticksSinceLastSwitch cpu + 1) }

/-- `apicTimerHandler` on the CPU `cpu`, which does not read the frame `regs`. -/
def apicTimerHandler (cpu : Nat) (_regs : InterruptRegisters) (newProcess : Ptr)
    (b : ThreadBlocks) : Option Kernel :=
  let k := k.tick cpu
  if timeSliceTicks ≤ k.ticksSinceLastSwitch cpu then
    (k.ageThreads cpu).schedule cpu newProcess b
  else some k

end Kernel

end Senob.Sys
