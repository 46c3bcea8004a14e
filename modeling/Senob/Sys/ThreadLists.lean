import Senob.Sys.SchedArrange

/-!
# The doubly linked lists of threads

Each process keeps its threads in a list, linked by `next` and `prev`. `createKernelThread` and
`createUserThread` end in the same update of it, which tells the first thread from the later ones
by the pointer that was zeroed with the process. The lists are followed through calls of both
functions in any order, for any processes.
-/

namespace Senob.Sys

open Senob.Foundation

/-- A call that creates a thread, with what `kmalloc` returned in it. -/
inductive ThreadCall where
  | createKernelThread (process : Ptr) (function : Word) (b : ThreadBlocks)
  | createUserThread (process : Ptr) (b : ThreadBlocks)

namespace ThreadCall

def process : ThreadCall → Ptr
  | createKernelThread process _ _ => process
  | createUserThread process _ => process

def blocks : ThreadCall → ThreadBlocks
  | createKernelThread _ _ b => b
  | createUserThread _ b => b

def run : ThreadCall → Kernel → Kernel
  | createKernelThread process function b, k => k.createKernelThread process function b
  | createUserThread process b, k => k.createUserThread process b

/-- The two functions differ in what they put into the registers. -/
theorem run_eq (c : ThreadCall) : ∃ segmentSelector cs eip esp, ∀ k : Kernel,
    c.run k = k.createThread c.process c.blocks segmentSelector cs eip esp := by
  cases c with
  | createKernelThread process function b => exact ⟨_, _, _, _, fun _ => rfl⟩
  | createUserThread process b => exact ⟨_, _, _, _, fun _ => rfl⟩

theorem creates (c : ThreadCall) : Kernel.CreatesThread c.process c.blocks c.run := by
  cases c with
  | createKernelThread process function b =>
      exact Kernel.createKernelThread_creates process function b
  | createUserThread process b => exact Kernel.createUserThread_creates process b

end ThreadCall

/-- The threads that the calls create for one process, in their order. -/
def createdFor (p : Ptr) (calls : List ThreadCall) : List Ptr :=
  (calls.filter fun c => c.process = p).map fun c => c.blocks.thread

/-- What the calls take from `kmalloc`. -/
def threadBlocks (calls : List ThreadCall) : List Ptr := calls.flatMap fun c => c.blocks.all

section Calls

variable {p u : Ptr} {c : ThreadCall} {calls : List ThreadCall}

theorem createdFor_cons : createdFor p (c :: calls) = createdFor p [c] ++ createdFor p calls := by
  rw [createdFor, createdFor, createdFor, ← List.map_append, ← List.filter_append,
    List.singleton_append]

theorem createdFor_self : createdFor c.process [c] = [c.blocks.thread] := by simp [createdFor]

theorem createdFor_of_ne (hp : p ≠ c.process) : createdFor p [c] = [] := by
  simp [createdFor, hp.symm]

theorem mem_threadBlocks (hu : u ∈ createdFor p calls) : u ∈ threadBlocks calls := by
  obtain ⟨c, hc, rfl⟩ := List.mem_map.mp hu
  exact List.mem_flatMap.mpr ⟨c, List.mem_of_mem_filter hc, by simp⟩

end Calls

namespace Kernel

def createThreads (k : Kernel) (calls : List ThreadCall) : Kernel :=
  calls.foldl (fun k c => c.run k) k

/-- The threads of the process are linked in both directions, and they are its own. -/
structure ThreadsLinked (k : Kernel) (p : Ptr) (l : List Ptr) : Prop where
  links : DoublyLinked null (fun u => (k.thread u).next) (fun u => (k.thread u).prev)
    (k.tree.proc p).headThread (k.tree.proc p).tailThread l
  owner : ∀ u ∈ l, (k.thread u).owner = p

/-- How `createKernelProcess` and `createUserProcess` leave the list for the first thread. -/
def NoThreads (k : Kernel) (p : Ptr) : Prop :=
  (k.tree.proc p).headThread = null ∧ (k.tree.proc p).tailThread = null

instance (k : Kernel) (p : Ptr) : Decidable (k.NoThreads p) := inferInstanceAs (Decidable (_ ∧ _))

variable {k k' : Kernel} {p q : Ptr} {b : ThreadBlocks} {c : ThreadCall} {calls : List ThreadCall}
  {l l' blocks : List Ptr} {t : RBTree Ptr}

theorem prepareProcess_noThreads (k : Kernel) (p pageDirectory : Ptr) :
    (k.prepareProcess p pageDirectory).NoThreads p := by
  rw [prepareProcess_eq, NoThreads, ProcTree.modify_proc_self]
  exact ⟨rfl, rfl⟩

theorem threadsLinked_nil_iff : k.ThreadsLinked p [] ↔ k.NoThreads p :=
  ⟨fun h => DoublyLinked.empty_iff.mp h.links, fun h => ⟨DoublyLinked.empty_iff.mpr h, nofun⟩⟩

namespace ThreadsLinked

/-- What the list of a process is made of. -/
theorem congr (h : k.ThreadsLinked p l)
    (hhead : (k'.tree.proc p).headThread = (k.tree.proc p).headThread)
    (htail : (k'.tree.proc p).tailThread = (k.tree.proc p).tailThread)
    (hthread : ∀ u ∈ l, k'.thread u = k.thread u) : k'.ThreadsLinked p l := by
  constructor
  · rw [hhead, htail]
    exact h.links.congr (fun u hu => by rw [hthread u hu]) fun u hu => by rw [hthread u hu]
  · intro u hu
    rw [hthread u hu]
    exact h.owner u hu

/-- A list starts with the first thread of its process. -/
theorem single (hborn : k.Newborn p b) (hprev : (k.thread b.thread).prev = null)
    (hnull : b.thread ≠ null) (hhead : (k.tree.proc p).headThread = b.thread)
    (htail : (k.tree.proc p).tailThread = b.thread) : k.ThreadsLinked p [b.thread] := by
  constructor
  · rw [hhead, htail]
    exact .single hnull hborn.next hprev
  · intro u hu
    rw [List.mem_singleton.mp hu]
    exact hborn.owner

theorem ne_nil (h : k.ThreadsLinked p l) (hhead : (k.tree.proc p).headThread ≠ null) : l ≠ [] :=
  fun hl => hhead (h.links.head_eq_nil_iff.mpr hl)

theorem tail_mem (h : k.ThreadsLinked p l) (hhead : (k.tree.proc p).headThread ≠ null) :
    (k.tree.proc p).tailThread ∈ l := by
  rw [h.links.tail_eq (h.ne_nil hhead)]
  exact List.getLast_mem _

/-! ## One call -/

/-- The new thread becomes the last one of its process. -/
theorem run_self (h : k.ThreadsLinked c.process l) (hnull : c.blocks.thread ≠ null)
    (hnew : c.blocks.thread ∉ l) : (c.run k).ThreadsLinked c.process (l ++ [c.blocks.thread]) := by
  have hadded := c.creates.added k
  have htail_ne : (k.tree.proc c.process).headThread ≠ null →
      (k.tree.proc c.process).tailThread ≠ c.blocks.thread := fun hhead heq =>
    hnew (heq ▸ h.tail_mem hhead)
  have hborn := c.creates.newborn k htail_ne
  have hprev : ((c.run k).thread c.blocks.thread).prev =
      if (k.tree.proc c.process).headThread = null then null
      else (k.tree.proc c.process).tailThread := by
    obtain ⟨segmentSelector, cs, eip, esp, hrun⟩ := c.run_eq
    rw [hrun]
    exact createThread_prev segmentSelector cs eip esp htail_ne
  have hhead := hadded.headThread
  have htail := hadded.tailThread
  by_cases hnone : (k.tree.proc c.process).headThread = null
  · rw [if_pos hnone] at hprev hhead
    obtain rfl := h.links.head_eq_nil_iff.mp hnone
    exact .single hborn hprev hnull hhead htail
  · rw [if_neg hnone] at hprev hhead
    have hthread : ∀ u ∈ l, (c.run k).thread u =
        if u = (k.tree.proc c.process).tailThread then
          { k.thread u with next := c.blocks.thread }
        else k.thread u :=
      fun u hu => hadded.thread_eq hnone fun heq => hnew (heq ▸ hu)
    constructor
    · rw [hhead, htail]
      refine h.links.concat (h.ne_nil hnone) hnull hborn.next ?_ (fun u hu hne => ?_) hprev
        fun u hu => ?_
      · rw [hthread _ (h.tail_mem hnone), if_pos rfl]
      · rw [hthread u hu, if_neg hne]
      · rw [hthread u hu]
        split <;> rfl
    · intro u hu
      obtain hu | hu := List.mem_append.mp hu
      · rw [hthread u hu, ← h.owner u hu]
        split <;> rfl
      · rw [List.mem_singleton.mp hu]
        exact hborn.owner

/-- A call for another process with such a list. -/
theorem run_other (h : k.ThreadsLinked q l) (hq : q ≠ c.process)
    (hcalled : k.ThreadsLinked c.process l') (hnew : c.blocks.thread ∉ l) :
    (c.run k).ThreadsLinked q l := by
  have hadded := c.creates.added k
  have hproc := hadded.proc_of_ne hq
  apply h.congr
  · rw [hproc]
  · rw [hproc]
  · intro u hu
    rw [hadded.other u fun heq => hnew (heq ▸ hu), if_neg]
    -- The last thread of the called process has another owner than `u`.
    rintro ⟨hhead, rfl⟩
    exact hq ((h.owner _ hu).symm.trans (hcalled.owner _ (hcalled.tail_mem hhead)))

/-! ## Calls in any order -/

/-- What one call does to the list of any process. -/
theorem run (h : k.ThreadsLinked q l) (hl : l ⊆ blocks) (hcalled : k.ThreadsLinked c.process l')
    (hfresh : Fresh blocks c.blocks.all) :
    (c.run k).ThreadsLinked q (l ++ createdFor q [c]) ∧
      l ++ createdFor q [c] ⊆ c.blocks.all ++ blocks := by
  have hthread : c.blocks.thread ∈ c.blocks.all := by simp
  have hnew : c.blocks.thread ∉ l := fun hmem => hfresh.unused _ hthread (hl hmem)
  by_cases hq : q = c.process
  · subst hq
    rw [createdFor_self]
    refine ⟨h.run_self (hfresh.nonnull _ hthread) hnew, fun u hu => ?_⟩
    obtain hu | hu := List.mem_append.mp hu
    · exact List.mem_append_right _ (hl hu)
    · rw [List.mem_singleton.mp hu]
      exact List.mem_append_left _ hthread
  · rw [createdFor_of_ne hq, List.append_nil]
    exact ⟨h.run_other hq hcalled hnew, fun u hu => List.mem_append_right _ (hl hu)⟩

/-- Every list gets the threads that were created for its process, if the lists of the processes
in the calls are linked and the blocks are new. -/
theorem createThreads (h : k.ThreadsLinked p l) (hl : l ⊆ blocks)
    (hcalled : ∀ c ∈ calls, ∃ l ⊆ blocks, k.ThreadsLinked c.process l)
    (hfresh : Fresh blocks (threadBlocks calls)) :
    (k.createThreads calls).ThreadsLinked p (l ++ createdFor p calls) := by
  induction calls generalizing k l blocks with
  | nil =>
      rw [createdFor, List.filter_nil, List.map_nil, List.append_nil]
      exact h
  | cons c rest ih =>
      obtain ⟨l₀, -, hprocess⟩ := hcalled c List.mem_cons_self
      obtain ⟨hstep, hsub⟩ := h.run hl hprocess hfresh.left
      rw [createdFor_cons, ← List.append_assoc]
      apply ih hstep hsub _ hfresh.right
      -- The lists of the later calls stay linked as the list of `p` does.
      intro d hd
      obtain ⟨l', hl', hd⟩ := hcalled d (List.mem_cons_of_mem _ hd)
      obtain ⟨hstep', hsub'⟩ := hd.run hl' hprocess hfresh.left
      exact ⟨_, hsub', hstep'⟩

/-- The loop of `enqueueRunnableThread` ends behind the last thread of the list. -/
theorem enqueueRunnableThread (h : k.ThreadsLinked p l) (hbound : ∀ u ∈ l, u < 2 ^ 32) :
    k.enqueueRunnableThread p = some (l.foldl enqueueIfRunnable k) := by
  apply enqueueRunnableThread_eq (chain_iff.mpr h.links.forward)
  have hlt := length_lt_of_nodup (n := 2 ^ 32) h.links.forward.nodup
    (fun u hu => ⟨h.links.forward.ne_nil hu, hbound u hu⟩) (by decide)
  unfold ProcTree.loopFuel
  omega

end ThreadsLinked

/-- For a process whose pointers were zeroed, and calls for it in any order among calls for other
processes, `next` leads from the first thread through those that were created for the process, in
the order of the calls, and `prev` from the last one back through them. So the loop of
`enqueueRunnableThread` returns and comes to each of them once. -/
theorem createThreads_wellFormed (hp : k.NoThreads p)
    (hothers : ∀ c ∈ calls, c.process ≠ p → ∃ l ⊆ blocks, k.ThreadsLinked c.process l)
    (hfresh : Fresh blocks (threadBlocks calls)) :
    let k' := k.createThreads calls
    let l := createdFor p calls
    Visits null (fun u => (k'.thread u).next) (k'.tree.proc p).headThread l ∧
      Visits null (fun u => (k'.thread u).prev) (k'.tree.proc p).tailThread l.reverse ∧
      (∀ hl : l ≠ [], (k'.tree.proc p).headThread = l.head hl ∧
        (k'.tree.proc p).tailThread = l.getLast hl ∧
        (k'.thread (k'.tree.proc p).tailThread).next = null ∧
        (k'.thread (k'.tree.proc p).headThread).prev = null) ∧
      (∀ u ∈ l, (k'.thread u).owner = p) ∧ l.Nodup ∧
      k'.enqueueRunnableThread p = some (l.foldl enqueueIfRunnable k') := by
  intro k' l
  have hnone := threadsLinked_nil_iff.mpr hp
  have hcalled : ∀ c ∈ calls, ∃ l ⊆ blocks, k.ThreadsLinked c.process l := by
    intro c hc
    by_cases hcp : c.process = p
    · exact ⟨[], List.nil_subset _, hcp ▸ hnone⟩
    · exact hothers c hc hcp
  have hlinked : k'.ThreadsLinked p l := hnone.createThreads (List.nil_subset _) hcalled hfresh
  have hlinks := hlinked.links
  refine ⟨hlinks.forward, hlinks.backward, fun hl => ?_, hlinked.owner, hlinks.forward.nodup, ?_⟩
  · exact ⟨hlinks.head_eq hl, hlinks.tail_eq hl, hlinks.next_tail hl, hlinks.prev_head hl⟩
  · exact hlinked.enqueueRunnableThread fun u hu => hfresh.bounded u (mem_threadBlocks hu)

/-- Two threads of a process, of both kinds, and one of another process between them. -/
def threeCalls : List ThreadCall :=
  [.createKernelThread 0xD0001000 0xC0100000 ⟨0xD0001100, 0xD0002000, 0xD0001200⟩,
    .createUserThread 0xD0003000 ⟨0xD0003100, 0xD0004000, 0xD0003200⟩,
    .createUserThread 0xD0001000 ⟨0xD0005100, 0xD0006000, 0xD0005200⟩]

theorem createThreads_wellFormed_threeCalls :
    let k := initial.createThreads threeCalls
    (k.tree.proc 0xD0001000).headThread = 0xD0001100 ∧ (k.thread 0xD0001100).next = 0xD0005100 ∧
      (k.thread 0xD0005100).next = null ∧ (k.tree.proc 0xD0001000).tailThread = 0xD0005100 ∧
      (k.thread 0xD0005100).prev = 0xD0001100 ∧ (k.thread 0xD0001100).prev = null := by
  obtain ⟨⟨hhead, -, hnext, -, hlast⟩, ⟨htail, -, hprev, -, hfirst⟩, -⟩ :=
    createThreads_wellFormed (k := initial) (p := 0xD0001000) ⟨rfl, rfl⟩ (by
      intro c hc hne
      exact ⟨[], List.nil_subset _, threadsLinked_nil_iff.mpr ⟨rfl, rfl⟩⟩)
      (show Fresh [] (threadBlocks threeCalls) by decide)
  exact ⟨hhead, hnext, hlast, htail, hprev, hfirst⟩

end Kernel

end Senob.Sys
