import Senob.Foundation.LinkedList
import Senob.Sys.ThreadSpec

/-!
# How the set of processes grows

The invariant of the process tree together with the threads of its processes, and that
the creation functions keep it. It is stated against the blocks that `kmalloc` has
returned so far: what is in use is among them, and new blocks are not.
-/

namespace Senob.Sys

open Senob.Foundation

/-- Blocks that `kmalloc` may return: 32-bit addresses other than null, not in use and
different from each other. -/
structure Fresh (blocks new : List Ptr) : Prop where
  nodup : new.Nodup
  unused : ∀ a ∈ new, a ∉ blocks
  nonnull : ∀ a ∈ new, a ≠ null
  bounded : ∀ a ∈ new, a < 2 ^ 32

instance (blocks new : List Ptr) : Decidable (Fresh blocks new) :=
  decidable_of_iff (new.Nodup ∧ (∀ a ∈ new, a ∉ blocks) ∧ (∀ a ∈ new, a ≠ null) ∧
    ∀ a ∈ new, a < 2 ^ 32)
    ⟨fun h => ⟨h.1, h.2.1, h.2.2.1, h.2.2.2⟩, fun h => ⟨h.1, h.2, h.3, h.4⟩⟩

theorem Fresh.left {blocks new more : List Ptr} (h : Fresh blocks (new ++ more)) :
    Fresh blocks new where
  nodup := (List.nodup_append.mp h.nodup).1
  unused a ha := h.unused a (List.mem_append_left _ ha)
  nonnull a ha := h.nonnull a (List.mem_append_left _ ha)
  bounded a ha := h.bounded a (List.mem_append_left _ ha)

/-- What is allocated later is not what was allocated before. -/
theorem Fresh.right {blocks new more : List Ptr} (h : Fresh blocks (new ++ more)) :
    Fresh (new ++ blocks) more where
  nodup := (List.nodup_append.mp h.nodup).2.1
  unused a ha hused := by
    obtain hnew | hblock := List.mem_append.mp hused
    · exact (List.nodup_append.mp h.nodup).2.2 a hnew a ha rfl
    · exact h.unused a (List.mem_append_right _ ha) hblock
  nonnull a ha := h.nonnull a (List.mem_append_right _ ha)
  bounded a ha := h.bounded a (List.mem_append_right _ ha)

/-- Distinct addresses below `n`, none of them null, are fewer than `n`. -/
theorem length_lt_of_nodup {l : List Ptr} {n : Nat} (hl : l.Nodup)
    (hrange : ∀ a ∈ l, a ≠ null ∧ a < n) (hn : 0 < n) : l.length < n := by
  have hnodup : (null :: l).Nodup := List.nodup_cons.mpr ⟨fun h => (hrange _ h).1 rfl, hl⟩
  have hsub : null :: l ⊆ List.range n := by
    intro a ha
    obtain rfl | ha := List.mem_cons.mp ha
    · exact List.mem_range.mpr hn
    · exact List.mem_range.mpr (hrange a ha).2
  have hle := (List.subperm_of_subset hnodup hsub).length_le
  rwa [List.length_cons, List.length_range] at hle

namespace Kernel

variable {k k' : Kernel} {t : RBTree Ptr} {blocks blocks' : List Ptr} {p u : Ptr}
  {b : ThreadBlocks} {create : Kernel → Kernel}

/-! ## The tree -/

/-- The tree is valid, its structures are blocks in use, and its ids are the last ones
that `getProcessID` returned. -/
structure Grown (k : Kernel) (t : RBTree Ptr) (blocks : List Ptr) : Prop where
  valid : k.tree.Valid t
  nil : k.tree.nil ∈ blocks
  used : ∀ p ∈ t.toList, p ∈ blocks ∧ p < 2 ^ 32
  pids : ∀ p ∈ t.toList, ∃ j < t.size, (k.tree.proc p).pid = k.kProcessID - BitVec.ofNat 32 j

/-- There are too few addresses for the ids to repeat. -/
theorem Grown.size_lt (h : k.Grown t blocks) (hp : p ∉ t.toList) (hnull : p ≠ null)
    (hbound : p < 2 ^ 32) : t.size + 1 < 2 ^ 32 := by
  have hlt := length_lt_of_nodup (l := p :: t.toList) (n := 2 ^ 32)
    (List.nodup_cons.mpr ⟨hp, h.valid.layout.nodup⟩) (fun a ha => ?_) (by decide)
  · rwa [List.length_cons, RBTree.length_toList] at hlt
  · obtain rfl | ha := List.mem_cons.mp ha
    · exact ⟨hnull, hbound⟩
    · exact ⟨(h.valid.layout.node a ha).1, (h.used a ha).2⟩

theorem sub_ofNat_ne_add_one {w : Word} {j : Nat} (hj : j + 1 < 2 ^ 32) :
    w - BitVec.ofNat 32 j ≠ w + 1 := by
  intro h
  have hone : BitVec.toNat (1 : Word) = 1 := rfl
  have := congrArg BitVec.toNat h
  simp only [BitVec.toNat_sub, BitVec.toNat_add, BitVec.toNat_ofNat, hone] at this
  omega

/-- What creating the process `p` with its first thread changes: the process joins the
tree, and the data of the others stays. -/
structure ProcessBorn (k : Kernel) (t : RBTree Ptr) (p : Ptr) (b : ThreadBlocks) (k' : Kernel)
    (t' : RBTree Ptr) : Prop where
  added : k.ProcessAdded b k'
  newborn : k'.Newborn p b
  perm : t'.toList.Perm (p :: t.toList)
  head : (k'.tree.proc p).headThread = b.thread
  tail : (k'.tree.proc p).tailThread = b.thread
  data : ∀ q ∈ t.toList, (k'.tree.proc q).data = (k.tree.proc q).data

theorem Grown.createProcess (h : k.Grown t blocks) (pageDirectory : Ptr)
    (hcreate : CreatesThread p b create)
    (hp : p ∉ blocks) (hnull : p ≠ null) (hbound : p < 2 ^ 32) (hsub : blocks ⊆ blocks')
    (hmem : p ∈ blocks') :
    ∃ k' t', k.createProcess p pageDirectory create = some k' ∧ k'.Grown t' blocks' ∧
      k.ProcessBorn t p b k' t' := by
  obtain ⟨k₁, heq, htree, hadded, hborn⟩ := createProcess_eq hcreate k pageDirectory
  have hpt : p ∉ t.toList := fun hpt => hp (h.used p hpt).1
  have hnil : p ≠ k.tree.nil := by
    rintro rfl
    exact hp h.nil
  have hself : (k₁.tree.proc p).pid = k.kProcessID + 1 := by
    rw [htree, ProcTree.modify_proc_self]
  have hother : ∀ q ∈ t.toList, k₁.tree.proc q = k.tree.proc q := by
    intro q hq
    rw [htree]
    exact ProcTree.modify_proc_of_ne _ _ fun heq => hpt (heq ▸ hq)
  have hvalid : k₁.tree.Valid t := htree ▸ h.valid.place hpt hnil _
  have hsize := h.size_lt hpt hnull hbound
  -- The pids in the tree are the last ones of the counter, so the new one is not among them.
  obtain ⟨tree, t', hinsert, hvalid', hperm, hkeeps⟩ :=
    hvalid.rbInsert hpt hnull (by rwa [htree]) (by
      intro q hq
      obtain ⟨j, hj, hpid⟩ := h.pids q hq
      rw [hother q hq, hself, hpid]
      exact sub_ofNat_ne_add_one (by omega))
  have hdata : ∀ q, (tree.proc q).data = (k₁.tree.proc q).data := hkeeps.data
  have hdataself : (tree.proc p).data =
      (k.kProcessID + 1, pageDirectory, 0, b.thread, b.thread) := by
    rw [hdata, htree, ProcTree.modify_proc_self]
    rfl
  refine ⟨{ k₁ with tree := tree }, t', ?_, ⟨hvalid', ?_, fun q hq => ?_, fun q hq => ?_⟩,
    ⟨?_, ?_, hperm, ?_, ?_, fun q hq => (hdata q).trans (congrArg Process.data (hother q hq))⟩⟩
  · rw [heq, insertProcess, hinsert, Option.map_some]
  · rw [hkeeps.nil, htree]
    exact hsub h.nil
  · obtain rfl | hq := List.mem_cons.mp (hperm.mem_iff.mp hq)
    · exact ⟨hmem, hbound⟩
    · exact ⟨hsub (h.used q hq).1, (h.used q hq).2⟩
  · have hcard : t'.size = t.size + 1 := by
      rw [← RBTree.length_toList, hperm.length_eq, List.length_cons, RBTree.length_toList]
    rw [Process.pid_eq_of_data (hdata q), hcard, hadded.kProcessID]
    obtain rfl | hq := List.mem_cons.mp (hperm.mem_iff.mp hq)
    · exact ⟨0, by omega, by rw [hself]; simp⟩
    · obtain ⟨j, hj, hpid⟩ := h.pids q hq
      refine ⟨j + 1, by omega, ?_⟩
      rw [hother q hq, hpid, BitVec.ofNat_add]
      bv_omega
  · exact ⟨hadded.scheduler.trans ⟨rfl, rfl, rfl, rfl⟩, hadded.kProcessID, hadded.thread,
      hadded.regs⟩
  · exact ⟨hborn.next, hborn.owner, hborn.state, hborn.regs⟩
  · exact congrArg (fun x => x.2.2.2.1) hdataself
  · exact congrArg (fun x => x.2.2.2.2) hdataself

/-- Creating a thread of a process leaves the tree as it is. -/
theorem Grown.addThread (h : k.Grown t blocks) (hadded : k.ThreadAdded p b k')
    (hsub : blocks ⊆ blocks') : k'.Grown t blocks' := by
  have hpid : ∀ q, (k'.tree.proc q).pid = (k.tree.proc q).pid := fun q => by
    rw [hadded.tree]
    exact ProcTree.modify_proc_apply _ _ _ _ Process.pid rfl
  refine ⟨?_, ?_, fun q hq => ⟨hsub (h.used q hq).1, (h.used q hq).2⟩, fun q hq => ?_⟩
  · rw [hadded.tree]
    exact h.valid.modify fun _ => rfl
  · rw [hadded.tree]
    exact hsub h.nil
  · rw [hpid q, hadded.kProcessID]
    exact h.pids q hq

/-! ## The threads of a process -/

/-- Following `next` from `x` visits the threads of the list and ends in null. -/
def Chain (thread : Ptr → Thread) : Ptr → List Ptr → Prop
  | x, [] => x = null
  | x, u :: rest => x = u ∧ u ≠ null ∧ Chain thread (thread u).next rest

variable {thread thread' : Ptr → Thread} {x y : Ptr} {l threads : List Ptr}

theorem chain_iff : Chain thread x l ↔ Visits null (fun u => (thread u).next) x l := by
  induction l generalizing x with
  | nil => rfl
  | cons u rest ih => exact and_congr_right fun _ => and_congr_right fun _ => ih

theorem Chain.congr (h : Chain thread x l) (hnext : ∀ u ∈ l, (thread' u).next = (thread u).next) :
    Chain thread' x l :=
  chain_iff.mpr ((chain_iff.mp h).congr hnext)

theorem Chain.ne_null (h : Chain thread x l) (hu : u ∈ l) : u ≠ null := (chain_iff.mp h).ne_nil hu

/-- A thread is appended by writing to the last one. -/
theorem Chain.append (h : Chain thread x l) (hl : l ≠ []) (hy : y ≠ null)
    (hnext : (thread' y).next = null) (hlast : (thread' (l.getLast hl)).next = y)
    (hother : ∀ u ∈ l, u ≠ l.getLast hl → (thread' u).next = (thread u).next) :
    Chain thread' x (l ++ [y]) :=
  chain_iff.mpr ((chain_iff.mp h).concat hl hy hnext hlast hother)

/-- The list of the threads of a process, in the order of their creation. -/
structure ThreadList (k : Kernel) (threads : List Ptr) (p : Ptr) (l : List Ptr) : Prop where
  chain : Chain k.thread (k.tree.proc p).headThread l
  tail : (k.tree.proc p).tailThread = l.getLast?.getD null
  nodup : l.Nodup
  each : ∀ u ∈ l, u ∈ threads ∧ (k.thread u).owner = p

theorem ThreadList.tail_mem (h : k.ThreadList threads p l)
    (hhead : (k.tree.proc p).headThread ≠ null) :
    ∃ hl : l ≠ [], (k.tree.proc p).tailThread = l.getLast hl := by
  have hl : l ≠ [] := by
    rintro rfl
    exact hhead h.chain
  refine ⟨hl, ?_⟩
  rw [h.tail, List.getLast?_eq_some_getLast hl, Option.getD_some]

/-- A thread of another process leaves the list alone. -/
theorem ThreadList.frame {threads' : List Ptr} (h : k.ThreadList threads p l)
    (hdata : (k'.tree.proc p).data = (k.tree.proc p).data) (hsub : threads ⊆ threads')
    (hthread : ∀ u ∈ l, k'.thread u = k.thread u) : k'.ThreadList threads' p l := by
  have hhead : (k'.tree.proc p).headThread = (k.tree.proc p).headThread :=
    congrArg (·.2.2.2.1) hdata
  have htail : (k'.tree.proc p).tailThread = (k.tree.proc p).tailThread :=
    congrArg (·.2.2.2.2) hdata
  refine ⟨?_, htail.trans h.tail, h.nodup, fun u hu => ?_⟩
  · rw [hhead]
    exact h.chain.congr fun u hu => by rw [hthread u hu]
  · rw [hthread u hu]
    exact ⟨hsub (h.each u hu).1, (h.each u hu).2⟩

/-- The list of a process with its first thread. -/
theorem ThreadList.single (hborn : k.Newborn p b) (hnull : b.thread ≠ null)
    (hmem : b.thread ∈ threads) (hhead : (k.tree.proc p).headThread = b.thread)
    (htail : (k.tree.proc p).tailThread = b.thread) : k.ThreadList threads p [b.thread] := by
  refine ⟨⟨hhead, hnull, hborn.next⟩, htail, List.nodup_singleton _, fun u hu => ?_⟩
  obtain rfl := List.mem_singleton.mp hu
  exact ⟨hmem, hborn.owner⟩

/-- The list of a process that gets another thread. -/
theorem ThreadList.append {threads' : List Ptr} (h : k.ThreadList threads p l)
    (hadded : k.ThreadAdded p b k') (hborn : k'.Newborn p b) (hnull : b.thread ≠ null)
    (hnew : b.thread ∉ l) (hsub : threads ⊆ threads') (hmem : b.thread ∈ threads') :
    k'.ThreadList threads' p (l ++ [b.thread]) := by
  have hhead := hadded.headThread
  have htail := hadded.tailThread
  by_cases hnone : (k.tree.proc p).headThread = null
  · rw [if_pos hnone] at hhead
    obtain rfl := (chain_iff.mp h.chain).start_eq_nil_iff.mp hnone
    exact .single hborn hnull hmem hhead htail
  · rw [if_neg hnone] at hhead
    obtain ⟨hl, hlast⟩ := h.tail_mem hnone
    have hthread : ∀ u ∈ l, k'.thread u = if u = l.getLast hl then
        { k.thread u with next := b.thread } else k.thread u := by
      intro u hu
      rw [hadded.thread_eq hnone fun heq => hnew (heq ▸ hu), hlast]
    refine ⟨?_, by rw [htail]; simp, ?_, fun u hu => ?_⟩
    · rw [hhead]
      refine h.chain.append hl hnull hborn.next ?_ fun u hu hne => ?_
      · rw [hthread _ (List.getLast_mem hl), if_pos rfl]
      · rw [hthread u hu, if_neg hne]
    · rw [List.nodup_append]
      refine ⟨h.nodup, List.nodup_singleton _, fun a ha c hc => ?_⟩
      rw [List.mem_singleton.mp hc]
      exact fun heq => hnew (heq ▸ ha)
    · obtain hu | hu := List.mem_append.mp hu
      · refine ⟨hsub (h.each u hu).1, ?_⟩
        rw [hthread u hu]
        split
        · exact (h.each u hu).2
        · exact (h.each u hu).2
      · obtain rfl := List.mem_singleton.mp hu
        exact ⟨hmem, hborn.owner⟩

end Kernel

end Senob.Sys
