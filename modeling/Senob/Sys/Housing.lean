import Mathlib.Data.List.Pairwise
import Senob.Sys.SchedArrange

/-!
# Processes and their blocks

Every process of the tree has one thread and its own blocks, whatever ids repeat. Creation,
deletion, scheduling and the filling of the queues keep this, and apart from deletion they
also keep that every thread in a queue or on a CPU is the thread of a process in the tree.
-/

namespace Senob.Sys

open Senob.Foundation

/-! ## Processes in the tree -/

/-- The structures that can be reached from the root. -/
inductive ProcTree.Reaches (s : ProcTree) : Ptr → Prop where
  | root : s.root ≠ s.nil → s.Reaches s.root
  | child {p : Ptr} (d : Side) :
      s.Reaches p → (s.proc p).child d ≠ s.nil → s.Reaches ((s.proc p).child d)

namespace ProcTree

variable {s : ProcTree} {t : RBTree Ptr} {p par : Ptr}

theorem Owns.child_mem (h : s.Owns par t) (hp : p ∈ t.toList) (d : Side)
    (hchild : (s.proc p).child d ≠ s.nil) : (s.proc p).child d ∈ t.toList := by
  induction t generalizing par with
  | leaf => exact nomatch hp
  | node c l key r ihl ihr =>
      obtain ⟨hlinks, hl, hr⟩ := h
      have hentry : ∀ sub : RBTree Ptr, sub.entry s.nil ≠ s.nil → sub.entry s.nil ∈ sub.toList := by
        intro sub hsub
        refine RBTree.entry_mem _ ?_
        rintro rfl
        exact hsub rfl
      simp only [RBTree.toList, List.mem_append, List.mem_cons] at hp ⊢
      rcases hp with hp | rfl | hp
      · exact .inl (ihl hl hp)
      · cases d with
        | left =>
            have hnear : (s.proc p).child .left = l.entry s.nil := hlinks.near
            rw [hnear] at hchild ⊢
            exact .inl (hentry l hchild)
        | right =>
            have hfar : (s.proc p).child .right = r.entry s.nil := hlinks.far
            rw [hfar] at hchild ⊢
            exact .inr (.inr (hentry r hchild))
      · exact .inr (.inr (ihr hr hp))

theorem Owns.reaches (h : s.Owns par t) (hnil : ∀ q ∈ t.toList, q ≠ s.nil)
    (hentry : t ≠ .leaf → s.Reaches (t.entry s.nil)) (hp : p ∈ t.toList) : s.Reaches p := by
  induction t generalizing par with
  | leaf => exact nomatch hp
  | node c l key r ihl ihr =>
      obtain ⟨hlinks, hl, hr⟩ := h
      have hkey : s.Reaches key := hentry nofun
      have hbelow : ∀ d (sub : RBTree Ptr), (s.proc key).child d = sub.entry s.nil →
          (∀ q ∈ sub.toList, q ≠ s.nil) → sub ≠ .leaf → s.Reaches (sub.entry s.nil) := by
        intro d sub hchild hsub hleaf
        rw [← hchild]
        refine hkey.child d ?_
        rw [hchild]
        exact hsub _ (RBTree.entry_mem _ hleaf)
      have hleft : ∀ q ∈ l.toList, q ≠ s.nil := fun q hq => hnil q (by simp [RBTree.toList, hq])
      have hright : ∀ q ∈ r.toList, q ≠ s.nil := fun q hq => hnil q (by simp [RBTree.toList, hq])
      simp only [RBTree.toList, List.mem_append, List.mem_cons] at hp
      rcases hp with hp | rfl | hp
      · exact ihl hl hleft (hbelow .left l hlinks.near hleft) hp
      · exact hkey
      · exact ihr hr hright (hbelow .right r hlinks.far hright) hp

/-- The structures of a sound tree are those that can be reached. -/
theorem Sound.reaches_iff (h : s.Sound t) : s.Reaches p ↔ p ∈ t.toList := by
  have howns := h.layout.subtree
  constructor
  · intro hreaches
    induction hreaches with
    | root hroot =>
        rw [h.root_eq] at hroot ⊢
        refine RBTree.entry_mem _ ?_
        rintro rfl
        exact hroot rfl
    | child d _ hchild ih => exact howns.child_mem ih d hchild
  · intro hp
    have hnil : ∀ q ∈ t.toList, q ≠ s.nil := fun q hq => h.layout.ne_nil hq
    refine howns.reaches hnil (fun ht => ?_) hp
    rw [← h.root_eq]
    refine .root ?_
    rw [h.root_eq]
    exact hnil _ (RBTree.entry_mem _ ht)

end ProcTree

namespace Kernel

variable {k k' : Kernel} {t : RBTree Ptr} {blocks blocks' : List Ptr} {p u next : Ptr} {cpu : Nat}
  {b : ThreadBlocks}

/-- The thread is in the list of the process. -/
def HasThread (k : Kernel) (p u : Ptr) : Prop :=
  ∃ l, Chain k.thread (k.tree.proc p).headThread l ∧ u ∈ l

/-! ## What the scheduler holds -/

theorem enqueueThread_holds (hordered : k.Ordered) (h : (k.enqueueThread u cpu).place.Holds p) :
    p = u ∨ k.place.Holds p := by
  by_cases hroom : (k.cpuRunqueues cpu).tail (k.queueOf u) < maxRunqueueSize
  · rw [(enqueueThread_place hordered hroom).2] at h
    exact h.of_put
  · rw [enqueueThread_of_full (Nat.not_lt.mp hroom)] at h
    exact .inr h

theorem enqueueIfRunnable_holds (hordered : k.Ordered)
    (h : (k.enqueueIfRunnable u).place.Holds p) : p = u ∨ k.place.Holds p := by
  unfold enqueueIfRunnable at h
  split at h
  · exact enqueueThread_holds hordered h
  · exact .inr h

theorem Ordered.enqueueIfRunnable (h : k.Ordered) (u : Ptr) : (k.enqueueIfRunnable u).Ordered := by
  unfold Kernel.enqueueIfRunnable
  split
  · exact h.enqueueThread u _
  · exact h

theorem preempt_holds (hordered : k.Ordered) (h : (k.preempt cpu).place.Holds u) :
    k.place.Holds u := by
  by_cases hpreempts : k.Preempts cpu
  · have hdemoted := (demoted_rethreaded k (k.currentThread cpu)).scheduler
    rw [preempt_of hpreempts] at h
    obtain rfl | h := enqueueThread_holds (hdemoted.ordered hordered) h
    · exact ⟨_, place_current hpreempts.1⟩
    · rwa [hdemoted.place] at h
  · rwa [preempt_of_not hpreempts] at h

theorem dequeueThread_holds (h : (k.dequeueThread cpu).1.place.Holds u) : k.place.Holds u := by
  obtain hnone | ⟨prio, i, -, -, hclear⟩ := dequeueThread_cases k cpu
  · rwa [hnone] at h
  · rw [hclear] at h
    exact h.of_clear

/-- What `dequeueThread` returns was in a queue. -/
theorem dequeueThread_held (h : (k.dequeueThread cpu).2 ≠ null) :
    k.place.Holds (k.dequeueThread cpu).2 := by
  obtain hnone | ⟨prio, i, -, hslot, -⟩ := dequeueThread_cases k cpu
  · rw [hnone] at h
    exact absurd rfl h
  · exact ⟨_, hslot⟩

theorem dispatch_holds (hnext : next ≠ null) (h : (k.dispatch cpu next).place.Holds u) :
    u = next ∨ k.place.Holds u := by
  rw [dispatch_place hnext] at h
  exact h.of_put

/-! ## What the scheduler does not write -/

end Kernel

/-- The successor of a thread and the start of its stack. -/
def Thread.links (x : Thread) : Ptr × Ptr := (x.next, x.kstack.stackStart)

namespace Kernel

variable {k k' : Kernel} {t : RBTree Ptr} {blocks blocks' : List Ptr} {p u next : Ptr} {cpu : Nat}
  {b : ThreadBlocks} {create : Kernel → Kernel}

/-- The tree and the links of the threads are the same. -/
structure SameLinks (k k' : Kernel) : Prop where
  tree : k'.tree = k.tree
  links : ∀ u, (k'.thread u).links = (k.thread u).links

theorem SameLinks.trans {k'' : Kernel} (h : k.SameLinks k') (h' : k'.SameLinks k'') :
    k.SameLinks k'' :=
  ⟨h'.tree.trans h.tree, fun u => (h'.links u).trans (h.links u)⟩

theorem Requeued.sameLinks (h : k.Requeued k') : k.SameLinks k' :=
  ⟨h.tree, fun u => by rw [h.thread]⟩

theorem modifyThread_sameLinks {f : Thread → Thread} (hf : ∀ x, (f x).links = x.links) :
    k.SameLinks (k.modifyThread u f) :=
  ⟨rfl, modifyThread_apply k u f Thread.links (hf _)⟩

theorem preempt_sameLinks (k : Kernel) (cpu : Nat) : k.SameLinks (k.preempt cpu) :=
  ⟨(k.preempt_settled cpu).tree,
    preempt_apply Thread.links (fun _ _ => rfl) (fun _ _ => rfl) k cpu⟩

theorem dispatch_sameLinks (k : Kernel) (cpu : Nat) (next : Ptr) :
    k.SameLinks (k.dispatch cpu next) :=
  have h : k.SameLinks (k.modifyThread next fun x =>
    { x with waitTicks := 0, state := .running }) := modifyThread_sameLinks fun _ => rfl
  ⟨h.tree, h.links⟩

/-! ## Structures of processes -/

/-- The tree is sound, and its structures are allocated. -/
structure Planted (k : Kernel) (t : RBTree Ptr) (blocks : List Ptr) : Prop where
  sound : k.tree.Sound t
  nil : k.tree.nil ∈ blocks
  used : ∀ p ∈ t.toList, p ∈ blocks ∧ p < 2 ^ 32

theorem Planted.size_le (h : k.Planted t blocks) : t.size ≤ 2 ^ 32 := by
  have hnodup : t.toList.Nodup := h.sound.layout.nodup
  have hlt := length_lt_of_nodup (n := 2 ^ 32) hnodup
    (fun p hp => ⟨(h.sound.layout.node p hp).1, (h.used p hp).2⟩) (by decide)
  rw [RBTree.length_toList] at hlt
  omega

/-- A process with fresh blocks joins the others, whatever its id. -/
structure Joined (k : Kernel) (t : RBTree Ptr) (p : Ptr) (b : ThreadBlocks) (k' : Kernel)
    (t' : RBTree Ptr) : Prop where
  scheduler : k.SameScheduler k'
  nil : k'.tree.nil = k.tree.nil
  perm : t'.toList.Perm (p :: t.toList)
  head : (k'.tree.proc p).headThread = b.thread
  heads : ∀ q ∈ t.toList, (k'.tree.proc q).headThread = (k.tree.proc q).headThread

theorem Planted.createProcess (h : k.Planted t blocks) (pageDirectory : Ptr)
    (hcreate : CreatesThread p b create) (hp : p ∉ blocks) (hnull : p ≠ null)
    (hbound : p < 2 ^ 32) (hsub : blocks ⊆ blocks') (hmem : p ∈ blocks') :
    ∃ k' t', k.createProcess p pageDirectory create = some k' ∧ k'.Planted t' blocks' ∧
      k.Joined t p b k' t' ∧ (k'.tree.proc p).pageDirectory = pageDirectory := by
  obtain ⟨k₁, heq, htree, hadded, -⟩ := createProcess_eq hcreate k pageDirectory
  have hpt : p ∉ t.toList := fun hpt => hp (h.used p hpt).1
  have hnil : p ≠ k.tree.nil := by
    rintro rfl
    exact hp h.nil
  have hother : ∀ q ∈ t.toList, k₁.tree.proc q = k.tree.proc q := by
    intro q hq
    rw [htree]
    exact ProcTree.modify_proc_of_ne _ _ fun heq => hpt (heq ▸ hq)
  have hsound : k₁.tree.Sound t := htree ▸ h.sound.place hpt hnil _
  obtain ⟨tree, t', path, hinsert, hsound', hkeeps, hdescent, hlist⟩ :=
    hsound.rbInsert h.size_le hpt hnull (by rwa [htree])
  have hperm := hdescent.perm hlist
  have hheads : ∀ q, (tree.proc q).headThread = (k₁.tree.proc q).headThread := fun q =>
    congrArg (fun x => x.2.2.2.1) (hkeeps.data q)
  have hdirectory : (tree.proc p).pageDirectory = (k₁.tree.proc p).pageDirectory :=
    congrArg (fun x => x.2.1) (hkeeps.data p)
  refine ⟨{ k₁ with tree := tree }, t', ?_, ⟨hsound', ?_, fun q hq => ?_⟩,
    ⟨hadded.scheduler.trans ⟨rfl, rfl, rfl, rfl⟩, ?_, hperm, ?_, fun q hq => ?_⟩, ?_⟩
  · rw [heq, insertProcess, hinsert, Option.map_some]
  · rw [hkeeps.nil, htree]
    exact hsub h.nil
  · obtain rfl | hq := List.mem_cons.mp (hperm.mem_iff.mp hq)
    · exact ⟨hmem, hbound⟩
    · exact ⟨hsub (h.used q hq).1, (h.used q hq).2⟩
  · rw [hkeeps.nil, htree]
    rfl
  · rw [hheads, htree, ProcTree.modify_proc_self]
  · rw [hheads, hother q hq]
  · rw [hdirectory, htree, ProcTree.modify_proc_self]

theorem Planted.createKernelProcess (h : k.Planted t blocks) (function : Word)
    (hfresh : Fresh blocks (p :: b.all)) :
    ∃ k' t', k.createKernelProcess p function b = some k' ∧
      k'.Planted t' (p :: b.all ++ blocks) ∧ k.Joined t p b k' t' := by
  obtain ⟨k', t', hrun, hplanted, hjoined, -⟩ :=
    h.createProcess k.kernelDirectory (createKernelThread_creates p function b)
      (hfresh.unused p (by simp)) (hfresh.nonnull p (by simp)) (hfresh.bounded p (by simp))
      (List.subset_append_right (p :: b.all) blocks) (by simp)
  exact ⟨k', t', hrun, hplanted, hjoined⟩

/-- `schedule` returns, and its idle process joins the others. -/
theorem Planted.schedule (h : k.Planted t blocks) (cpu : Nat)
    (hfresh : Fresh blocks (p :: b.all)) :
    ∃ k' t', k.schedule cpu p b = some k' ∧ k'.Planted t' (p :: b.all ++ blocks) ∧
      t'.toList.Perm (p :: t.toList) := by
  obtain ⟨k₁, t', hrun, hplanted, hjoined⟩ := h.createKernelProcess k.idle hfresh
  have hp : p ∈ t'.toList := hjoined.perm.mem_iff.mpr List.mem_cons_self
  obtain ⟨q, -, hsearch, -⟩ := hplanted.sound.rbSearch_mem hplanted.size_le hp
  obtain ⟨next, hschedule⟩ : ∃ next, k.schedule cpu p b =
      some (((k₁.preempt cpu).dequeueThread cpu).1.dispatch cpu next) := by
    rw [Kernel.schedule, Kernel.initIdle, hrun]
    simp only [Option.bind_eq_bind, Option.bind_some, Option.pure_def, hsearch]
    exact ⟨_, rfl⟩
  have hlinks := ((k₁.preempt_sameLinks cpu).trans
    (dequeueThread_requeued _ cpu).sameLinks).trans (dispatch_sameLinks _ cpu next)
  exact ⟨_, t', hschedule, ⟨hlinks.tree.symm ▸ hplanted.sound, hlinks.tree.symm ▸ hplanted.nil,
    hplanted.used⟩, hjoined.perm⟩

/-! ## Blocks of processes -/

/-- The blocks that `rbDelete` frees with a process. -/
def blocksOf (k : Kernel) (p : Ptr) : List Ptr :=
  [p, (k.tree.proc p).headThread, (k.thread (k.tree.proc p).headThread).kstack.stackStart]

/-- The tree is sound, each process has one thread, and processes share no blocks. -/
structure Housed (k : Kernel) (t : RBTree Ptr) (blocks : List Ptr) : Prop where
  sound : k.tree.Sound t
  nil : k.tree.nil ∈ blocks ∧ k.tree.nil ∉ t.toList.flatMap k.blocksOf
  single : ∀ p ∈ t.toList, (k.thread (k.tree.proc p).headThread).next = null
  nodup : (t.toList.flatMap k.blocksOf).Nodup
  used : ∀ a ∈ t.toList.flatMap k.blocksOf, a ∈ blocks ∧ a ≠ null ∧ a < 2 ^ 32

namespace Housed

theorem mem_blocksOf (hp : p ∈ t.toList) {a : Ptr} (ha : a ∈ k.blocksOf p) :
    a ∈ t.toList.flatMap k.blocksOf := List.mem_flatMap.mpr ⟨p, hp, ha⟩

theorem proc_used (h : k.Housed t blocks) (hp : p ∈ t.toList) :
    p ∈ blocks ∧ p ≠ null ∧ p < 2 ^ 32 :=
  h.used p (mem_blocksOf hp (by simp [blocksOf]))

theorem head_used (h : k.Housed t blocks) (hp : p ∈ t.toList) :
    (k.tree.proc p).headThread ∈ blocks ∧ (k.tree.proc p).headThread ≠ null :=
  have hused := h.used _ (mem_blocksOf hp (by simp [blocksOf]))
  ⟨hused.1, hused.2.1⟩

theorem planted (h : k.Housed t blocks) : k.Planted t blocks :=
  ⟨h.sound, h.nil.1, fun _ hp => ⟨(h.proc_used hp).1, (h.proc_used hp).2.2⟩⟩

theorem size_le (h : k.Housed t blocks) : t.size ≤ 2 ^ 32 := h.planted.size_le

theorem chain (h : k.Housed t blocks) (hp : p ∈ t.toList) :
    Chain k.thread (k.tree.proc p).headThread [(k.tree.proc p).headThread] :=
  ⟨rfl, (h.head_used hp).2, h.single p hp⟩

/-- The only thread of a process is its first one. -/
theorem hasThread_iff (h : k.Housed t blocks) (hp : p ∈ t.toList) :
    k.HasThread p u ↔ u = (k.tree.proc p).headThread := by
  constructor
  · rintro ⟨l, hl, hu⟩
    cases l with
    | nil => exact nomatch hu
    | cons v rest =>
        obtain ⟨rfl, -, hrest⟩ := hl
        rw [h.single p hp] at hrest
        cases rest with
        | nil => exact List.mem_singleton.mp hu
        | cons w rest => exact absurd hrest.1.symm hrest.2.1
  · rintro rfl
    exact ⟨_, h.chain hp, List.mem_singleton_self _⟩

/-- Two processes of the tree have different threads. -/
theorem head_inj (h : k.Housed t blocks) {q : Ptr} (hp : p ∈ t.toList) (hq : q ∈ t.toList)
    (heq : (k.tree.proc p).headThread = (k.tree.proc q).headThread) : p = q := by
  by_contra hne
  obtain ⟨-, hdisjoint⟩ := List.nodup_flatMap.mp h.nodup
  have : Std.Symm (Function.onFun List.Disjoint k.blocksOf) := ⟨fun _ _ hd _ ha hb => hd hb ha⟩
  have hpq : List.Disjoint (k.blocksOf p) (k.blocksOf q) := hdisjoint.forall hp hq hne
  have hmem : (k.tree.proc p).headThread ∈ k.blocksOf q := by simp [blocksOf, heq]
  exact hpq (by simp [blocksOf]) hmem

theorem blocksOf_congr (hlinks : k.SameLinks k') (p : Ptr) : k'.blocksOf p = k.blocksOf p := by
  have hstack := congrArg Prod.snd (hlinks.links (k.tree.proc p).headThread)
  unfold blocksOf
  rw [hlinks.tree]
  exact congrArg (fun a => [_, _, a]) hstack

theorem relinked (h : k.Housed t blocks) (hlinks : k.SameLinks k') : k'.Housed t blocks := by
  have hblocks : k'.blocksOf = k.blocksOf := funext (blocksOf_congr hlinks)
  refine ⟨?_, ?_, fun p hp => ?_, ?_, ?_⟩
  · exact hlinks.tree ▸ h.sound
  · rw [hlinks.tree, hblocks]
    exact h.nil
  · rw [hlinks.tree]
    exact (congrArg Prod.fst (hlinks.links _)).trans (h.single p hp)
  · exact hblocks ▸ h.nodup
  · exact hblocks ▸ h.used

end Housed

/-! ## Creation -/

theorem createThread_stackStart (hhead : (k.tree.proc p).headThread = null)
    (segmentSelector cs eip esp : Word) :
    ((k.createThread p b segmentSelector cs eip esp).thread b.thread).kstack.stackStart =
      b.kernelStack := by
  simp [createThread, appendThread, getThreadID, modifyThread, modifyRegs, modifyProc, hhead]

theorem createKernelProcess_stackStart {function : Word}
    (h : k.createKernelProcess p function b = some k') :
    (k'.thread b.thread).kstack.stackStart = b.kernelStack := by
  obtain ⟨tree, -, rfl⟩ := Option.map_eq_some_iff.mp h
  refine createThread_stackStart ?_ _ _ _ _
  rw [prepareProcess_eq, ProcTree.modify_proc_self]
  rfl

theorem Housed.createKernelProcess (h : k.Housed t blocks) (function : Word)
    (hfresh : Fresh blocks (p :: b.all)) :
    ∃ k' t', k.createKernelProcess p function b = some k' ∧
      k'.Housed t' (p :: b.all ++ blocks) ∧ k.Joined t p b k' t' := by
  obtain ⟨k', t', hrun, hplanted, hjoined⟩ := h.planted.createKernelProcess function hfresh
  obtain ⟨hadded, hborn⟩ := createProcess_added (createKernelThread_creates p function b) hrun
  have hthread : b.thread ∈ p :: b.all := by simp
  have hthreads : ∀ q ∈ t.toList, k'.thread (k.tree.proc q).headThread =
      k.thread (k.tree.proc q).headThread := by
    intro q hq
    refine hadded.thread _ fun heq => hfresh.unused _ hthread ?_
    exact heq ▸ (h.head_used hq).1
  have hself : k'.blocksOf p = [p, b.thread, b.kernelStack] := by
    rw [blocksOf, hjoined.head, createKernelProcess_stackStart hrun]
  have hothers : ∀ q ∈ t.toList, k'.blocksOf q = k.blocksOf q := by
    intro q hq
    rw [blocksOf, blocksOf, hjoined.heads q hq, hthreads q hq]
  -- The blocks of the new process come before those of the others.
  have howned : (t'.toList.flatMap k'.blocksOf).Perm
      ([p, b.thread, b.kernelStack] ++ t.toList.flatMap k.blocksOf) := by
    refine (hjoined.perm.flatMap_right _).trans ?_
    rw [List.flatMap_cons, hself, List.flatMap_congr hothers]
  have hnew : [p, b.thread, b.kernelStack].Sublist (p :: b.all) := by
    simp [ThreadBlocks.all]
  have hfirst : ∀ a ∈ [p, b.thread, b.kernelStack], a ∈ p :: b.all := hnew.subset
  refine ⟨k', t', hrun, ⟨hplanted.sound, ⟨hplanted.nil, ?_⟩, fun q hq => ?_, ?_,
    fun a ha => ?_⟩, hjoined⟩
  · rw [hjoined.nil, howned.mem_iff, List.mem_append, not_or]
    exact ⟨fun hmem => hfresh.unused _ (hfirst _ hmem) h.nil.1, h.nil.2⟩
  · obtain rfl | hq := List.mem_cons.mp (hjoined.perm.mem_iff.mp hq)
    · rw [hjoined.head]
      exact hborn.next
    · rw [hjoined.heads q hq]
      exact (congrArg Thread.next (hthreads q hq)).trans (h.single q hq)
  · refine howned.nodup_iff.mpr (List.nodup_append.mpr
      ⟨hfresh.nodup.sublist hnew, h.nodup, fun a ha c hc heq => ?_⟩)
    exact hfresh.unused a (hfirst a ha) (heq ▸ (h.used c hc).1)
  · rcases List.mem_append.mp (howned.mem_iff.mp ha) with ha | ha
    · have hmem := hfirst a ha
      exact ⟨List.mem_append_left _ hmem, hfresh.nonnull a hmem, hfresh.bounded a hmem⟩
    · exact ⟨List.mem_append_right _ (h.used a ha).1, (h.used a ha).2⟩

/-! ## Deletion -/

/-- `rbDelete` on the whole state, with the blocks that it frees. -/
def rbDelete (k : Kernel) (pid : Word) : Option (Kernel × List Ptr) :=
  (k.tree.rbDelete (fun u => (k.thread u).kstack.stackStart) pid).map fun (tree, freed) =>
    ({ k with tree := tree }, freed)

/-- The process `z` is taken out of the tree, and its blocks are freed. -/
structure Reaped (k : Kernel) (t : RBTree Ptr) (z : Ptr) (k' : Kernel) (t' : RBTree Ptr) :
    Prop where
  scheduler : k.SameScheduler k'
  mem : ∀ p, p ∈ t'.toList ↔ p ∈ t.toList ∧ p ≠ z
  heads : ∀ p, (k'.tree.proc p).headThread = (k.tree.proc p).headThread

theorem Housed.rbDelete_absent (h : k.Housed t blocks) {pid : Word}
    (hpid : ∀ p ∈ t.toList, (k.tree.proc p).pid ≠ pid) :
    k.tree.rbSearch pid = some k.tree.nil ∧ k.rbDelete pid = some (k, []) := by
  obtain ⟨hsearch, hrun⟩ := h.sound.rbDelete_absent h.size_le hpid
  refine ⟨hsearch, ?_⟩
  rw [Kernel.rbDelete, hrun]
  rfl

theorem Housed.rbDelete_present (h : k.Housed t blocks) {pid : Word}
    (hpid : ∃ p ∈ t.toList, (k.tree.proc p).pid = pid) :
    ∃ z k' t', z ∈ t.toList ∧ k.tree.rbSearch pid = some z ∧
      k.rbDelete pid = some (k', (k.blocksOf z).reverse) ∧
      k'.Housed t' (blocks.filter fun a => a ∉ (k.blocksOf z).reverse) ∧
      k.Reaped t z k' t' := by
  obtain ⟨z, tree, t', hz, -, hsearch, hrun, hsound, hkeeps, before, after, hlist, hlist'⟩ :=
    h.sound.rbDelete_present (fun u => (k.thread u).kstack.stackStart) h.size_le hpid
  have hheads : ∀ p, (tree.proc p).headThread = (k.tree.proc p).headThread := fun p =>
    congrArg (fun x => x.2.2.2.1) (hkeeps.data p)
  have hblocks : ({ k with tree := tree } : Kernel).blocksOf = k.blocksOf := by
    funext p
    simp only [blocksOf, hheads p]
  have hnodup := h.nodup
  have hused := h.used
  have hnil := h.nil
  rw [hlist, List.flatMap_append, List.flatMap_cons] at hnodup hused hnil
  obtain ⟨hbefore, hrest, hcross⟩ := List.nodup_append.mp hnodup
  obtain ⟨-, hafter, hz'⟩ := List.nodup_append.mp hrest
  -- The blocks of `z` are none of the blocks of the others.
  have hkept : ∀ a ∈ before.flatMap k.blocksOf ++ after.flatMap k.blocksOf,
      a ∉ k.blocksOf z := by
    intro a ha haz
    rcases List.mem_append.mp ha with ha | ha
    · exact hcross a ha a (List.mem_append_left _ haz) rfl
    · exact hz' a haz a ha rfl
  have hsub : ∀ a ∈ before.flatMap k.blocksOf ++ after.flatMap k.blocksOf,
      a ∈ before.flatMap k.blocksOf ++ (k.blocksOf z ++ after.flatMap k.blocksOf) := by
    intro a ha
    simp only [List.mem_append] at ha ⊢
    tauto
  have hstays : ∀ a, a ∈ blocks → a ∉ k.blocksOf z →
      a ∈ blocks.filter fun a => a ∉ (k.blocksOf z).reverse := by
    intro a ha haz
    simpa using ⟨ha, haz⟩
  refine ⟨z, { k with tree := tree }, t', hz, hsearch, ?_, ⟨hsound, ⟨?_, ?_⟩, fun p hp => ?_, ?_,
    fun a ha => ?_⟩, ⟨rfl, rfl, rfl, rfl⟩, fun p => ?_, hheads⟩
  · rw [Kernel.rbDelete, hrun]
    rfl
  · rw [hkeeps.nil]
    refine hstays _ hnil.1 fun hmem => hnil.2 ?_
    exact List.mem_append_right _ (List.mem_append_left _ hmem)
  · rw [hkeeps.nil, hblocks, hlist', List.flatMap_append]
    exact fun hmem => hnil.2 (hsub _ hmem)
  · rw [hheads]
    refine h.single p ?_
    rw [hlist]
    rw [hlist'] at hp
    simp only [List.mem_append, List.mem_cons] at hp ⊢
    tauto
  · rw [hblocks, hlist', List.flatMap_append]
    exact List.nodup_append.mpr ⟨hbefore, hafter, fun a ha c hc =>
      hcross a ha c (List.mem_append_right _ hc)⟩
  · rw [hblocks, hlist', List.flatMap_append] at ha
    obtain ⟨hmem, hbounds⟩ := hused a (hsub a ha)
    exact ⟨hstays a hmem (hkept a ha), hbounds⟩
  · have hdistinct := h.sound.layout.nodup
    rw [RBPath.plug, hlist, List.nodup_middle, List.nodup_cons] at hdistinct
    rw [hlist, hlist']
    constructor
    · intro hp
      refine ⟨?_, ?_⟩
      · simp only [List.mem_append, List.mem_cons] at hp ⊢
        tauto
      · rintro rfl
        exact hdistinct.1 hp
    · rintro ⟨hp, hne⟩
      simp only [List.mem_append, List.mem_cons] at hp ⊢
      tauto

/-! ## Scheduling -/

/-- Everything that the scheduler holds is the thread of a process in the tree. -/
def Homed (k : Kernel) (t : RBTree Ptr) : Prop :=
  ∀ u, k.place.Holds u → ∃ p ∈ t.toList, (k.tree.proc p).headThread = u

theorem Joined.homed {t' : RBTree Ptr} {k' : Kernel} (h : k.Joined t p b k' t')
    (hhomed : k.Homed t) : k'.Homed t' := by
  intro u hu
  rw [h.scheduler.place] at hu
  obtain ⟨q, hq, hhead⟩ := hhomed u hu
  exact ⟨q, h.perm.mem_iff.mpr (List.mem_cons_of_mem _ hq), (h.heads q hq).trans hhead⟩

/-- `schedule` switches to a thread of a process in the tree. -/
theorem Housed.schedule (h : k.Housed t blocks) (hordered : k.Ordered) (hhomed : k.Homed t)
    (cpu : Nat) (hfresh : Fresh blocks (p :: b.all)) :
    ∃ k' t', k.schedule cpu p b = some k' ∧ k'.Housed t' (p :: b.all ++ blocks) ∧
      k'.Ordered ∧ k'.Homed t' := by
  obtain ⟨k₁, t', hrun, hhoused, hjoined⟩ := h.createKernelProcess k.idle hfresh
  have hp : p ∈ t'.toList := hjoined.perm.mem_iff.mpr List.mem_cons_self
  obtain ⟨q, hq, hsearch, -⟩ := hhoused.sound.rbSearch_mem hhoused.size_le hp
  have hordered₁ := hjoined.scheduler.ordered hordered
  have hhomed₁ := hjoined.homed hhomed
  have hlinks : k₁.SameLinks ((k₁.preempt cpu).dequeueThread cpu).1 :=
    (k₁.preempt_sameLinks cpu).trans (dequeueThread_requeued ..).sameLinks
  have hheld : ∀ u, ((k₁.preempt cpu).dequeueThread cpu).1.place.Holds u → k₁.place.Holds u :=
    fun u hu => preempt_holds hordered₁ (dequeueThread_holds hu)
  -- The next thread comes from a queue, or it is the one of the process that was found.
  obtain ⟨next, hnext, hnull, hhome⟩ : ∃ next,
      next = (if ((k₁.preempt cpu).dequeueThread cpu).2 = null then
        (((k₁.preempt cpu).dequeueThread cpu).1.tree.proc q).headThread
        else ((k₁.preempt cpu).dequeueThread cpu).2) ∧ next ≠ null ∧
      ∃ p ∈ t'.toList, (k₁.tree.proc p).headThread = next := by
    refine ⟨_, rfl, ?_⟩
    split
    case isTrue =>
      rw [hlinks.tree]
      exact ⟨(hhoused.head_used hq).2, q, hq, rfl⟩
    case isFalse hnull =>
      exact ⟨hnull, hhomed₁ _ (preempt_holds hordered₁ (dequeueThread_held hnull))⟩
  have hfinal := hlinks.trans (dispatch_sameLinks _ cpu next)
  refine ⟨((k₁.preempt cpu).dequeueThread cpu).1.dispatch cpu next, t', ?_,
    hhoused.relinked hfinal, (hordered₁.preempt cpu).dequeueThread cpu, fun u hu => ?_⟩
  · rw [Kernel.schedule, Kernel.initIdle, hrun]
    simp only [Option.bind_eq_bind, Option.bind_some, Option.pure_def, hsearch]
    rw [← hnext]
  · rw [hfinal.tree]
    obtain rfl | hu := dispatch_holds hnull hu
    · exact hhome
    · exact hhomed₁ u (hheld u hu)

/-- Filling the queues, again or for the first time. -/
theorem Housed.fillRunqueuesFromBST (h : k.Housed t blocks) (hordered : k.Ordered)
    (hhomed : k.Homed t) :
    ∃ k', k.fillRunqueuesFromBST = some k' ∧ k'.Housed t blocks ∧ k'.Ordered ∧ k'.Homed t := by
  have hloop : ∀ ps : List Ptr, (∀ p ∈ ps, p ∈ t.toList) → ∀ k₁ : Kernel, k.Requeued k₁ →
      k₁.Ordered → k₁.Homed t → ∃ k₂, ps.foldlM enqueueRunnableThread k₁ = some k₂ ∧
        k.Requeued k₂ ∧ k₂.Ordered ∧ k₂.Homed t := by
    intro ps hps
    induction ps with
    | nil => exact fun k₁ hk hordered hhomed => ⟨k₁, rfl, hk, hordered, hhomed⟩
    | cons p rest ih =>
        intro k₁ hk hordered hhomed
        have hp := hps p List.mem_cons_self
        have hchain := h.chain hp
        rw [← hk.thread, ← hk.tree] at hchain
        have hrun := enqueueRunnableThread_eq hchain (by simp [ProcTree.loopFuel])
        rw [List.foldl_cons, List.foldl_nil] at hrun
        generalize hhead : (k₁.tree.proc p).headThread = u at hrun
        have hrequeued := enqueueIfRunnable_requeued k₁ u
        obtain ⟨k₂, hfold, hk₂⟩ := ih (fun q hq => hps q (List.mem_cons_of_mem _ hq))
          (k₁.enqueueIfRunnable u) (hk.trans hrequeued) (hordered.enqueueIfRunnable u) (by
            intro v hv
            rw [hrequeued.tree]
            obtain rfl | hv := enqueueIfRunnable_holds hordered hv
            · exact ⟨p, hp, hhead⟩
            · exact hhomed v hv)
        refine ⟨k₂, ?_, hk₂⟩
        rw [List.foldlM_cons, hrun]
        exact hfold
  have hcallback : ∀ (k : Kernel) p k', k.enqueueRunnableThread p = some k' →
      k.tree.SameShape k'.tree := fun k p k' hrun => by
    rw [(enqueueRunnableThread_requeued hrun).tree]
    exact .refl _
  obtain ⟨htraverse, -⟩ := ProcTree.inOrderTraversal_spec hcallback h.sound.layout.subtree
    (fun q hq => h.sound.layout.ne_nil hq) (ProcTree.le_loopFuel h.size_le) (.refl k.tree)
  obtain ⟨k', hfold, hrequeued, hordered', hhomed'⟩ :=
    hloop t.toList (fun _ hp => hp) k (.refl k) hordered hhomed
  refine ⟨k', ?_, h.relinked hrequeued.sameLinks, hordered', hhomed'⟩
  rw [Kernel.fillRunqueuesFromBST, h.sound.root_eq, htraverse]
  exact hfold

end Kernel

end Senob.Sys
