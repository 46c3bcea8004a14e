import Senob.Sys.ProcessTree

/-!
# Threads and their creation

The state that the scheduler shares with `process.c`: the process tree, the thread
structures, the register structures they point to and the variables of `sched.c`.
Every call of `kmalloc` takes its result as an argument, so that an assumption on the
allocator is an assumption on these arguments. The mappings that user processes get in
their own address space do not touch any of this state.
-/

namespace Senob.Sys

open Senob.Foundation

/-- `enum threadState`. -/
inductive ThreadState where
  | unused
  | embryo
  | sleeping
  | runnable
  | running
  | waiting
  deriving DecidableEq

/-- `struct regs`. -/
structure Regs where
  eax : Word
  ebx : Word
  ecx : Word
  edx : Word
  esp : Word
  ebp : Word
  edi : Word
  eip : Word
  eflags : Word
  cs : Word
  ss : Word
  ds : Word
  es : Word
  fs : Word
  gs : Word
  cr3 : Word

/-- The member `kstack` of `struct thread`. -/
structure KernelStack where
  esp0 : Word
  ss0 : BitVec 16
  stackStart : Ptr

/-- `struct thread`. -/
structure Thread where
  threadID : Word
  owner : Ptr
  next : Ptr
  prev : Ptr
  regs : Ptr
  state : ThreadState
  basePriority : Word
  dynamicPriority : Word
  waitTicks : Word
  kstack : KernelStack

/-- The structure after `memset(…, 0x00, sizeof(struct thread))`. -/
def Thread.zero : Thread := ⟨0, null, null, null, null, .unused, 0, 0, 0, ⟨0, 0, 0⟩⟩

/-- `struct runqueue`. -/
structure Runqueue where
  queues : Nat → Nat → Ptr
  head : Nat → Nat
  tail : Nat → Nat

/-- The registers of a CPU right after `switchTask`. -/
structure Context where
  eax : Word
  ebx : Word
  ecx : Word
  edx : Word
  esi : Word
  edi : Word
  ebp : Word
  esp : Word
  eip : Word
  eflags : Word
  cs : Word
  ss : Word
  ds : Word
  es : Word
  fs : Word
  gs : Word
  cr3 : Word

def maxCpus : Nat := 8

structure Kernel where
  tree : ProcTree
  thread : Ptr → Thread
  regs : Ptr → Regs
  kProcessID : Word
  uProcessID : Word
  threadID : Word
  /-- `kernel_directory`. -/
  kernelDirectory : Ptr
  /-- The address of the function `idle`. -/
  idle : Word
  ncpus : Nat
  /-- `mpSearch` counts no more than `MAX_CPUS` processors. -/
  ncpus_le : ncpus ≤ maxCpus
  cpuRunqueues : Nat → Runqueue
  threadsPerCPU : Nat → Word
  currentThread : Nat → Ptr
  ticksSinceLastSwitch : Nat → BitVec 64
  cpuTicks : Nat → BitVec 64
  /-- The fields `esp0` of the array `tss`. -/
  tssEsp0 : Nat → Word
  /-- The argument of the last `switchTask` on each CPU. -/
  switched : Nat → Ptr
  /-- The registers that the last `switchTask` on each CPU loaded. -/
  context : Nat → Context

/-- The results of `kmalloc` in `createKernelThread` and `createUserThread`. -/
structure ThreadBlocks where
  thread : Ptr
  kernelStack : Ptr
  regs : Ptr

def ThreadBlocks.all (b : ThreadBlocks) : List Ptr := [b.thread, b.kernelStack, b.regs]

@[simp] theorem ThreadBlocks.mem_all {b : ThreadBlocks} {a : Ptr} :
    a ∈ b.all ↔ a = b.thread ∨ a = b.kernelStack ∨ a = b.regs := by
  simp [ThreadBlocks.all]

namespace Kernel

variable (k : Kernel)

def modifyProc (p : Ptr) (f : Process → Process) : Kernel := { k with tree := k.tree.modify p f }

def modifyThread (t : Ptr) (f : Thread → Thread) : Kernel :=
  { k with thread := Function.update k.thread t (f (k.thread t)) }

def modifyRegs (a : Ptr) (f : Regs → Regs) : Kernel :=
  { k with regs := Function.update k.regs a (f (k.regs a)) }

def getProcessID (proc : Ptr) : Kernel × Word :=
  if (k.tree.proc proc).isUserProc ≠ 0 then
    ({ k with uProcessID := k.uProcessID + 1 }, k.uProcessID + 1)
  else ({ k with kProcessID := k.kProcessID + 1 }, k.kProcessID + 1)

def getThreadID : Kernel × Word := ({ k with threadID := k.threadID + 1 }, k.threadID + 1)

/-- The end of `createKernelThread` and of `createUserThread`: the new thread becomes
the last one of its owner. -/
def appendThread (newThread : Ptr) : Kernel :=
  let owner := (k.thread newThread).owner
  if (k.tree.proc owner).headThread = null then
    k.modifyProc owner fun x => { x with headThread := newThread, tailThread := newThread }
  else
    let tail := (k.tree.proc owner).tailThread
    let k := k.modifyThread newThread fun x => { x with prev := tail, next := null }
    let k := k.modifyThread tail fun x => { x with next := newThread }
    k.modifyProc owner fun x => { x with tailThread := newThread }

/-- What `createKernelThread` and `createUserThread` have in common. The register
structure is not cleared: the registers that are not assigned keep what was in memory. -/
def createThread (process : Ptr) (b : ThreadBlocks) (segmentSelector cs eip esp : Word) : Kernel :=
  let (k, threadID) := k.getThreadID
  let k := k.modifyThread b.thread fun _ => { Thread.zero with
    threadID := threadID
    owner := process
    state := .embryo
    kstack := ⟨BitVec.ofNat 32 b.kernelStack + 4096 - 4, 0x10, b.kernelStack⟩
    regs := b.regs }
  let k := k.modifyRegs b.regs fun x => { x with
    ss := segmentSelector
    eflags := 0x202
    cs := cs
    eip := eip
    ds := segmentSelector
    es := segmentSelector
    fs := segmentSelector
    gs := segmentSelector
    esp := esp
    cr3 := BitVec.ofNat 32 (k.tree.proc process).pageDirectory }
  let k := k.modifyThread b.thread fun x => { x with state := .runnable }
  k.appendThread b.thread

def createKernelThread (process : Ptr) (function : Word) (b : ThreadBlocks) : Kernel :=
  k.createThread process b 0x10 0x08 function (BitVec.ofNat 32 b.kernelStack + 4096 - 4)

/-- `createUserThread`, from `PROGRAMM_VIRTUAL_ADDRESS_START` and `USER_STACK_TOP - 4`. -/
def createUserThread (process : Ptr) (b : ThreadBlocks) : Kernel :=
  k.createThread process b 0x23 0x1B 0x00400000 (0xB0000000 - 4)

/-- The beginning of `createKernelProcess` and of `createUserProcess`, up to the first
thread. -/
def prepareProcess (newProcess pageDirectory : Ptr) : Kernel :=
  let k := k.modifyProc newProcess fun _ => Process.zero
  let (k, pid) := k.getProcessID newProcess
  k.modifyProc newProcess fun x => { x with
    pid := pid
    pageDirectory := pageDirectory
    tailThread := null
    headThread := null }

def insertProcess (newProcess : Ptr) : Option Kernel :=
  (k.tree.rbInsert newProcess).map fun tree => { k with tree := tree }

/-- What `createKernelProcess` and `createUserProcess` have in common. -/
def createProcess (newProcess pageDirectory : Ptr) (createFirstThread : Kernel → Kernel) :
    Option Kernel :=
  (createFirstThread (k.prepareProcess newProcess pageDirectory)).insertProcess newProcess

def createKernelProcess (newProcess : Ptr) (function : Word) (b : ThreadBlocks) : Option Kernel :=
  k.createProcess newProcess k.kernelDirectory fun k => k.createKernelThread newProcess function b

/-- `createUserProcess`, where `mem_alloc_page_dir` returned `pageDirectory`. -/
def createUserProcess (newProcess pageDirectory : Ptr) (b : ThreadBlocks) : Option Kernel :=
  k.createProcess newProcess pageDirectory fun k => k.createUserThread newProcess b

def initIdle (newProcess : Ptr) (b : ThreadBlocks) : Option (Kernel × Word) := do
  let k ← k.createKernelProcess newProcess k.idle b
  return (k, (k.tree.proc newProcess).pid)

/-- The variables as the source initialises them, over memory that holds zeros. -/
def initial : Kernel where
  tree := ⟨fun _ => .zero, null, null⟩
  thread := fun _ => .zero
  regs := fun _ => ⟨0, 0, 0, 0, 0, 0, 0, 0, 0, 0, 0, 0, 0, 0, 0, 0⟩
  kProcessID := 20
  uProcessID := 100
  threadID := 0
  kernelDirectory := null
  idle := 0
  ncpus := 0
  ncpus_le := by decide
  cpuRunqueues := fun _ => ⟨fun _ _ => null, fun _ => 0, fun _ => 0⟩
  threadsPerCPU := fun _ => 0
  currentThread := fun _ => null
  ticksSinceLastSwitch := fun _ => 0
  cpuTicks := fun _ => 0
  tssEsp0 := fun _ => 0
  switched := fun _ => null
  context := fun _ => ⟨0, 0, 0, 0, 0, 0, 0, 0, 0, 0, 0, 0, 0, 0, 0, 0, 0⟩

end Kernel

end Senob.Sys
