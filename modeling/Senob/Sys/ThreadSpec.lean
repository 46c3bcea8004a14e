import Senob.Sys.SchedPlaces
import Senob.Sys.TreeRuns

/-!
# What creation changes

The creation functions of `process.c` against the state that the scheduler works on.
They write the new blocks, append the thread to the list of its owner and insert the
process into the tree; the queues and the CPUs stay as they are.
-/

namespace Senob.Sys

open Senob.Foundation

namespace Kernel

variable {k k' k'' : Kernel} {p t : Ptr} {b : ThreadBlocks}

/-! ## Threads -/

/-- What creating a thread of the process `p` changes. Its list is kept by the pointers of
the process and by the last thread so far. -/
structure ThreadAdded (k : Kernel) (p : Ptr) (b : ThreadBlocks) (k' : Kernel) : Prop where
  scheduler : k.SameScheduler k'
  kProcessID : k'.kProcessID = k.kProcessID
  tree : k'.tree = k.tree.modify p fun x => { x with
    headThread := if x.headThread = null then b.thread else x.headThread
    tailThread := b.thread }
  other : ∀ t, t ≠ b.thread → k'.thread t =
    if (k.tree.proc p).headThread ≠ null ∧ t = (k.tree.proc p).tailThread then
      { k.thread t with next := b.thread }
    else k.thread t
  regs : ∀ a, a ≠ b.regs → k'.regs a = k.regs a

namespace ThreadAdded

theorem proc_of_ne {q : Ptr} (h : k.ThreadAdded p b k') (hq : q ≠ p) :
    k'.tree.proc q = k.tree.proc q := by
  rw [h.tree]
  exact ProcTree.modify_proc_of_ne _ _ hq

theorem headThread (h : k.ThreadAdded p b k') : (k'.tree.proc p).headThread =
    if (k.tree.proc p).headThread = null then b.thread else (k.tree.proc p).headThread := by
  rw [h.tree, ProcTree.modify_proc_self]

theorem tailThread (h : k.ThreadAdded p b k') : (k'.tree.proc p).tailThread = b.thread := by
  rw [h.tree, ProcTree.modify_proc_self]

/-- Of the threads so far, only the last one of `p` is written to, and only its field `next`. -/
theorem thread_eq (h : k.ThreadAdded p b k') (hhead : (k.tree.proc p).headThread ≠ null)
    (ht : t ≠ b.thread) : k'.thread t =
      if t = (k.tree.proc p).tailThread then { k.thread t with next := b.thread }
      else k.thread t := by
  rw [h.other t ht]
  simp only [hhead, ne_eq, not_false_eq_true, true_and]

end ThreadAdded

/-- The fields of a thread that was just created. -/
structure Newborn (k : Kernel) (p : Ptr) (b : ThreadBlocks) : Prop where
  next : (k.thread b.thread).next = null
  owner : (k.thread b.thread).owner = p
  state : (k.thread b.thread).state = .runnable
  regs : (k.thread b.thread).regs = b.regs

/-- The state before the new thread is appended. -/
theorem createThread_eq (k : Kernel) (p : Ptr) (b : ThreadBlocks)
    (segmentSelector cs eip esp : Word) :
    ∃ k₁ x, k.createThread p b segmentSelector cs eip esp = k₁.appendThread b.thread ∧
      k₁.thread = Function.update k.thread b.thread x ∧
      (x.owner = p ∧ x.next = null ∧ x.prev = null ∧ x.state = .runnable ∧ x.regs = b.regs) ∧
      k₁.tree = k.tree ∧ k.SameScheduler k₁ ∧ k₁.kProcessID = k.kProcessID ∧
      ∀ a, a ≠ b.regs → k₁.regs a = k.regs a := by
  refine ⟨_, { Thread.zero with
    threadID := k.threadID + 1
    owner := p
    state := .runnable
    kstack := ⟨BitVec.ofNat 32 b.kernelStack + 4096 - 4, 0x10, b.kernelStack⟩
    regs := b.regs }, rfl, ?_, ⟨rfl, rfl, rfl, rfl, rfl⟩, rfl, ⟨rfl, rfl, rfl, rfl⟩, rfl,
    fun a ha => ?_⟩
  · simp [modifyThread, modifyRegs]
  · simp [modifyThread, modifyRegs, ha]

theorem createThread_added (k : Kernel) (p : Ptr) (b : ThreadBlocks)
    (segmentSelector cs eip esp : Word) :
    k.ThreadAdded p b (k.createThread p b segmentSelector cs eip esp) := by
  obtain ⟨k₁, x, heq, hthread, ⟨howner, -, -, -, -⟩, htree, hsched, hpid, hregs⟩ :=
    k.createThread_eq p b segmentSelector cs eip esp
  have hother : ∀ t, t ≠ b.thread → k₁.thread t = k.thread t := fun t ht => by
    rw [hthread, Function.update_of_ne ht]
  have hself : (k₁.thread b.thread).owner = p := by rw [hthread, Function.update_self, howner]
  rw [heq, appendThread, hself, htree]
  by_cases hhead : (k.tree.proc p).headThread = null
  · rw [if_pos hhead]
    refine ⟨hsched.trans ⟨rfl, rfl, rfl, rfl⟩, hpid, ?_, fun t ht => ?_, hregs⟩
    · simp [modifyProc, ProcTree.modify, htree, hhead]
    · rw [if_neg (fun h => h.1 hhead)]
      exact hother t ht
  · rw [if_neg hhead]
    refine ⟨hsched.trans ⟨rfl, rfl, rfl, rfl⟩, hpid, ?_, fun t ht => ?_, hregs⟩
    · simp [modifyProc, modifyThread, ProcTree.modify, htree, hhead]
    · by_cases htail : t = (k.tree.proc p).tailThread
      · subst htail
        rw [if_pos ⟨hhead, rfl⟩]
        simp [modifyProc, modifyThread, Function.update_of_ne ht, hother _ ht]
      · rw [if_neg (fun h => htail h.2)]
        simp [modifyProc, modifyThread, Function.update_of_ne htail, Function.update_of_ne ht,
          hother t ht]

/-- The new thread is complete unless it is taken for the last one of its owner. -/
theorem createThread_newborn (segmentSelector cs eip esp : Word)
    (htail : (k.tree.proc p).headThread ≠ null → (k.tree.proc p).tailThread ≠ b.thread) :
    (k.createThread p b segmentSelector cs eip esp).Newborn p b := by
  obtain ⟨k₁, x, heq, hthread, ⟨howner, hnext, -, hstate, hregs⟩, htree, -, -, -⟩ :=
    k.createThread_eq p b segmentSelector cs eip esp
  have hself : k₁.thread b.thread = x := by rw [hthread, Function.update_self]
  rw [heq, appendThread, hself, howner, htree]
  by_cases hhead : (k.tree.proc p).headThread = null
  · rw [if_pos hhead]
    exact ⟨by simp [modifyProc, hself, hnext], by simp [modifyProc, hself, howner],
      by simp [modifyProc, hself, hstate], by simp [modifyProc, hself, hregs]⟩
  · rw [if_neg hhead]
    have hne := (htail hhead).symm
    have hlast : ∀ f : Thread → Thread, ∀ f' : Process → Process,
        (((k₁.modifyThread b.thread f).modifyThread (k.tree.proc p).tailThread
          fun x => { x with next := b.thread }).modifyProc p f').thread b.thread = f x := by
      intro f f'
      simp [modifyProc, modifyThread, Function.update_of_ne hne, hself]
    exact ⟨by rw [hlast], by rw [hlast]; exact howner, by rw [hlast]; exact hstate,
      by rw [hlast]; exact hregs⟩

/-- The new thread points back to the last one so far. Of the first thread, `prev` is what clearing
the structure left. -/
theorem createThread_prev (segmentSelector cs eip esp : Word)
    (htail : (k.tree.proc p).headThread ≠ null → (k.tree.proc p).tailThread ≠ b.thread) :
    ((k.createThread p b segmentSelector cs eip esp).thread b.thread).prev =
      if (k.tree.proc p).headThread = null then null else (k.tree.proc p).tailThread := by
  obtain ⟨k₁, x, heq, hthread, ⟨howner, -, hprev, -, -⟩, htree, -, -, -⟩ :=
    k.createThread_eq p b segmentSelector cs eip esp
  have hself : k₁.thread b.thread = x := by rw [hthread, Function.update_self]
  rw [heq, appendThread, hself, howner, htree]
  split
  case isTrue => rw [modifyProc, hself, hprev]
  case isFalse hhead =>
    simp [modifyProc, modifyThread, Function.update_of_ne (htail hhead).symm]

/-- A function that creates a thread of `p` at `b`, in any state. -/
structure CreatesThread (p : Ptr) (b : ThreadBlocks) (create : Kernel → Kernel) : Prop where
  added : ∀ k : Kernel, k.ThreadAdded p b (create k)
  newborn : ∀ k : Kernel, ((k.tree.proc p).headThread ≠ null →
    (k.tree.proc p).tailThread ≠ b.thread) → (create k).Newborn p b

theorem createKernelThread_creates (p : Ptr) (function : Word) (b : ThreadBlocks) :
    CreatesThread p b fun k => k.createKernelThread p function b :=
  ⟨fun k => k.createThread_added p b .., fun _ htail => createThread_newborn _ _ _ _ htail⟩

theorem createUserThread_creates (p : Ptr) (b : ThreadBlocks) :
    CreatesThread p b fun k => k.createUserThread p b :=
  ⟨fun k => k.createThread_added p b .., fun _ htail => createThread_newborn _ _ _ _ htail⟩

/-! ## Processes -/

variable {create : Kernel → Kernel} {pageDirectory : Ptr}

theorem prepareProcess_eq (k : Kernel) (p pageDirectory : Ptr) :
    k.prepareProcess p pageDirectory = { k with
      tree := k.tree.modify p fun _ => { Process.zero with
        pid := k.kProcessID + 1
        pageDirectory := pageDirectory }
      kProcessID := k.kProcessID + 1 } := by
  simp [prepareProcess, getProcessID, modifyProc, ProcTree.modify, Process.zero]

/-- What `createProcess` leaves of the state, apart from the tree. -/
structure ProcessAdded (k : Kernel) (b : ThreadBlocks) (k' : Kernel) : Prop where
  scheduler : k.SameScheduler k'
  kProcessID : k'.kProcessID = k.kProcessID + 1
  thread : ∀ t, t ≠ b.thread → k'.thread t = k.thread t
  regs : ∀ a, a ≠ b.regs → k'.regs a = k.regs a

theorem createProcess_eq (hcreate : CreatesThread p b create) (k : Kernel) (pageDirectory : Ptr) :
    ∃ k₁, k.createProcess p pageDirectory create = k₁.insertProcess p ∧
      k₁.tree = (k.tree.modify p fun _ => { Process.zero with
        pid := k.kProcessID + 1
        pageDirectory := pageDirectory
        headThread := b.thread
        tailThread := b.thread }) ∧
      k.ProcessAdded b k₁ ∧ k₁.Newborn p b := by
  have hhead : ((k.prepareProcess p pageDirectory).tree.proc p).headThread = null := by
    simp [prepareProcess_eq, Process.zero]
  obtain ⟨hsched, hpid, htree, hother, hregs⟩ := hcreate.added (k.prepareProcess p pageDirectory)
  refine ⟨_, rfl, ?_, ⟨?_, ?_, fun t ht => ?_, fun a ha => ?_⟩,
    hcreate.newborn _ fun h => absurd hhead h⟩
  · rw [htree, prepareProcess_eq]
    simp [ProcTree.modify, Process.zero]
  · have hprepare : k.SameScheduler (k.prepareProcess p pageDirectory) := by
      rw [prepareProcess_eq]
      exact ⟨rfl, rfl, rfl, rfl⟩
    exact hprepare.trans hsched
  · rw [hpid, prepareProcess_eq]
  · rw [hother t ht, if_neg fun h => h.1 hhead, prepareProcess_eq]
  · rw [hregs a ha, prepareProcess_eq]

theorem createProcess_added (hcreate : CreatesThread p b create)
    (h : k.createProcess p pageDirectory create = some k') :
    k.ProcessAdded b k' ∧ k'.Newborn p b := by
  obtain ⟨k₁, heq, -, ⟨hsched, hpid, hthread, hregs⟩, hborn⟩ :=
    createProcess_eq hcreate k pageDirectory
  rw [heq, insertProcess] at h
  obtain ⟨tree, -, rfl⟩ := Option.map_eq_some_iff.mp h
  exact ⟨⟨hsched.trans ⟨rfl, rfl, rfl, rfl⟩, hpid, hthread, hregs⟩,
    hborn.next, hborn.owner, hborn.state, hborn.regs⟩

theorem initIdle_added {newProcess : Ptr} {pid : Word}
    (h : k.initIdle newProcess b = some (k', pid)) :
    k.ProcessAdded b k' ∧ k'.Newborn newProcess b := by
  unfold initIdle at h
  obtain ⟨k₁, hrun, h⟩ := Option.bind_eq_some_iff.mp h
  obtain ⟨rfl, -⟩ := Prod.mk.inj (Option.some.inj h)
  exact createProcess_added (createKernelThread_creates ..) hrun

end Kernel

end Senob.Sys
