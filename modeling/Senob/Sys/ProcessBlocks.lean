import Senob.Sys.Housing

/-!
# The blocks of a process

Creating a kernel process and its threads takes one block for the process and three for each
thread. `rbDelete` frees three blocks, whatever the process has.
-/

namespace Senob.Sys

open Senob.Foundation

namespace Kernel

/-- Calls of `createKernelThread` for one process, each with its function. -/
def createKernelThreads (k : Kernel) (p : Ptr) (threads : List (Word × ThreadBlocks)) : Kernel :=
  threads.foldl (fun k call => k.createKernelThread p call.1 call.2) k

/-- What `kmalloc` returned for a process with these threads. -/
def processBlocks (p : Ptr) (b : ThreadBlocks) (threads : List (Word × ThreadBlocks)) :
    List Ptr :=
  p :: b.all ++ threads.flatMap fun call => call.2.all

/-- Every block is freed once, and no other. -/
def Releases (allocated freed : List Ptr) : Prop := freed.Perm allocated

instance (allocated freed : List Ptr) : Decidable (Releases allocated freed) :=
  inferInstanceAs (Decidable (freed.Perm allocated))

variable {k k' k'' : Kernel} {t : RBTree Ptr} {blocks : List Ptr} {p u : Ptr} {b : ThreadBlocks}
  {threads : List (Word × ThreadBlocks)}

/-! ## More threads -/

/-- What further threads of `p` leave alone: the nodes of the tree, the first threads of the
processes and the stack of the first thread of `p`. -/
structure Extends (p : Ptr) (k k' : Kernel) : Prop where
  nil : k'.tree.nil = k.tree.nil
  root : k'.tree.root = k.tree.root
  node : ∀ q, (k'.tree.proc q).node = (k.tree.proc q).node
  head : ∀ q, (k'.tree.proc q).headThread = (k.tree.proc q).headThread
  stack : (k'.thread (k.tree.proc p).headThread).kstack.stackStart =
    (k.thread (k.tree.proc p).headThread).kstack.stackStart

theorem Extends.refl (p : Ptr) (k : Kernel) : Extends p k k :=
  ⟨rfl, rfl, fun _ => rfl, fun _ => rfl, rfl⟩

theorem Extends.trans (h : Extends p k k') (h' : Extends p k' k'') : Extends p k k'' where
  nil := h'.nil.trans h.nil
  root := h'.root.trans h.root
  node q := (h'.node q).trans (h.node q)
  head q := (h'.head q).trans (h.head q)
  stack := by
    have hstack := h'.stack
    rw [h.head p] at hstack
    exact hstack.trans h.stack

theorem ThreadAdded.extends (h : k.ThreadAdded p b k')
    (hhead : (k.tree.proc p).headThread ≠ null)
    (hfresh : (k.tree.proc p).headThread ≠ b.thread) : Extends p k k' := by
  refine ⟨?_, ?_, fun q => ?_, fun q => ?_, ?_⟩
  · rw [h.tree]
    rfl
  · rw [h.tree]
    rfl
  · rw [h.tree]
    exact ProcTree.modify_proc_apply k.tree p q _ Process.node rfl
  · rw [h.tree]
    exact ProcTree.modify_proc_apply k.tree p q _ Process.headThread (if_neg hhead)
  · rw [h.other _ hfresh]
    split <;> rfl

/-- Any number of threads, whose structures are new. -/
theorem createKernelThreads_extends (hhead : (k.tree.proc p).headThread ≠ null)
    (hfresh : ∀ call ∈ threads, (k.tree.proc p).headThread ≠ call.2.thread) :
    Extends p k (k.createKernelThreads p threads) := by
  induction threads generalizing k with
  | nil => exact .refl p k
  | cons call rest ih =>
      obtain ⟨function, b⟩ := call
      have hadded := (createKernelThread_creates p function b).added k
      have hfirst := hadded.extends hhead (hfresh _ List.mem_cons_self)
      refine hfirst.trans (ih ?_ fun later hlater => ?_)
      · rw [hfirst.head]
        exact hhead
      · rw [hfirst.head]
        exact hfresh later (List.mem_cons_of_mem _ hlater)

theorem Extends.sound (h : Extends p k k') (hsound : k.tree.Sound t) : k'.tree.Sound t :=
  hsound.congr h.nil h.root fun q _ => h.node q

theorem Extends.pid (h : Extends p k k') (q : Ptr) :
    (k'.tree.proc q).pid = (k.tree.proc q).pid :=
  congrArg Prod.fst (h.node q)

/-! ## Deletion -/

/-- A process that was built and is in the tree, with what `rbDelete` reads of it. -/
structure Standing (k : Kernel) (t : RBTree Ptr) (p : Ptr) (b : ThreadBlocks) : Prop where
  sound : k.tree.Sound t
  size_le : t.size ≤ 2 ^ 32
  mem : p ∈ t.toList
  head : (k.tree.proc p).headThread = b.thread
  stack : (k.thread b.thread).kstack.stackStart = b.kernelStack

/-- Building a process with any number of threads succeeds. -/
theorem Planted.builds (h : k.Planted t blocks) (function : Word)
    (hfresh : Fresh blocks (processBlocks p b threads)) :
    ∃ k₁ t', k.createKernelProcess p function b = some k₁ ∧
      (k₁.createKernelThreads p threads).Standing t' p b ∧
      ((k₁.createKernelThreads p threads).tree.proc p).pid = (k₁.tree.proc p).pid := by
  have hnodup : (processBlocks p b threads).Nodup := hfresh.nodup
  have hfirst : Fresh blocks (p :: b.all) := hfresh.left
  obtain ⟨k₁, t', hrun, hplanted, hjoined⟩ := h.createKernelProcess function hfirst
  have hthread : b.thread ∈ p :: b.all := by simp
  have hlater : ∀ call ∈ threads, (k₁.tree.proc p).headThread ≠ call.2.thread := by
    intro call hcall heq
    have hmem : call.2.thread ∈ threads.flatMap fun call => call.2.all :=
      List.mem_flatMap.mpr ⟨call, hcall, by simp⟩
    rw [hjoined.head] at heq
    exact (List.nodup_append.mp hnodup).2.2 _ hthread _ hmem heq
  have hhead : (k₁.tree.proc p).headThread ≠ null := by
    rw [hjoined.head]
    exact hfirst.nonnull _ hthread
  have hextends := createKernelThreads_extends hhead hlater
  refine ⟨k₁, t', hrun, ⟨hextends.sound hplanted.sound, hplanted.size_le,
    hjoined.perm.mem_iff.mpr List.mem_cons_self, ?_, ?_⟩, hextends.pid p⟩
  · rw [hextends.head, hjoined.head]
  · have hstack := hextends.stack
    rw [hjoined.head, createKernelProcess_stackStart hrun] at hstack
    exact hstack

/-- `rbDelete` frees the stack and the structure of the first thread, and the process, of a
process with the id. -/
theorem Standing.rbDelete (h : k.Standing t p b) :
    ∃ k' z, z ∈ t.toList ∧ (k.tree.proc z).pid = (k.tree.proc p).pid ∧
      k.rbDelete (k.tree.proc p).pid = some (k', (k.blocksOf z).reverse) := by
  obtain ⟨z, tree, t', hz, hpid, -, hrun, -⟩ :=
    h.sound.rbDelete_present (fun u => (k.thread u).kstack.stackStart) h.size_le
      ⟨p, h.mem, rfl⟩
  refine ⟨{ k with tree := tree }, z, hz, hpid, ?_⟩
  rw [Kernel.rbDelete, hrun]
  rfl

/-- If no other process has the id, these are three of the blocks of the process. -/
theorem Standing.blocksOf_eq (h : k.Standing t p b) :
    k.blocksOf p = [p, b.thread, b.kernelStack] := by
  rw [blocksOf, h.head, h.stack]

/-- What is freed are three blocks, and a process has four or more. -/
theorem not_releases_blocksOf (k : Kernel) (z p : Ptr) (b : ThreadBlocks)
    (threads : List (Word × ThreadBlocks)) :
    ¬ Releases (processBlocks p b threads) (k.blocksOf z).reverse := by
  intro hreleases
  have hlength := hreleases.length_eq
  simp only [blocksOf, processBlocks, ThreadBlocks.all, List.length_reverse, List.length_cons,
    List.length_append, List.length_nil] at hlength
  omega

/-- The blocks of the registers and all blocks of the further threads are never freed. -/
theorem Standing.leaks (h : k.Standing t p b) (hfresh : Fresh blocks (processBlocks p b threads))
    (hunique : ∀ q ∈ t.toList, (k.tree.proc q).pid = (k.tree.proc p).pid → q = p) :
    ∃ k' freed, k.rbDelete (k.tree.proc p).pid = some (k', freed) ∧
      ∀ a ∈ processBlocks p b threads,
        a ∉ freed ↔ a = b.regs ∨ ∃ call ∈ threads, a ∈ call.2.all := by
  obtain ⟨k', z, hz, hpid, hrun⟩ := h.rbDelete
  obtain rfl := hunique z hz hpid
  refine ⟨k', _, hrun, fun a ha => ?_⟩
  have hnodup := hfresh.nodup
  rw [h.blocksOf_eq]
  simp only [processBlocks, ThreadBlocks.all, List.cons_append, List.nil_append, List.nodup_cons,
    List.mem_cons, List.mem_flatMap, List.mem_reverse, List.not_mem_nil, or_false, not_or]
    at ha hnodup ⊢
  obtain ⟨⟨hpt, hps, hpr, hpl⟩, ⟨hts, htr, htl⟩, ⟨hsr, hsl⟩, hrl, -⟩ := hnodup
  constructor
  · rintro ⟨hp, ht, hs⟩
    rcases ha with ha | ha | ha | ha | ha
    · exact absurd ha hp
    · exact absurd ha ht
    · exact absurd ha hs
    · exact Or.inl ha
    · exact Or.inr ha
  · rintro (rfl | hlater)
    · exact ⟨Ne.symm hpr, Ne.symm htr, Ne.symm hsr⟩
    · refine ⟨?_, ?_, ?_⟩
      · rintro rfl
        exact hpl hlater
      · rintro rfl
        exact htl hlater
      · rintro rfl
        exact hsl hlater

/-- For every kernel process with any number of threads, `rbDelete` returns and has not released
what building the process has taken. -/
theorem rbDelete_not_releases (h : k.Planted t blocks) (function : Word)
    (hfresh : Fresh blocks (processBlocks p b threads)) :
    ∃ k₁ k₂ freed, k.createKernelProcess p function b = some k₁ ∧
      (k₁.createKernelThreads p threads).rbDelete (k₁.tree.proc p).pid = some (k₂, freed) ∧
      ¬ Releases (processBlocks p b threads) freed := by
  obtain ⟨k₁, t', hrun, hstanding, hpid⟩ := h.builds function hfresh
  obtain ⟨k₂, z, -, -, hdelete⟩ := hstanding.rbDelete
  rw [hpid] at hdelete
  exact ⟨k₁, k₂, _, hrun, hdelete, not_releases_blocksOf _ z p b threads⟩

/-- The state behind `nodePreparation`. -/
def prepared : Kernel :=
  { Kernel.initial with tree := Kernel.initial.tree.nodePreparation 0xD0000000 }

theorem prepared_planted : prepared.Planted .leaf [0xD0000000] :=
  ⟨(Kernel.initial.tree.nodePreparation_valid _).sound, List.mem_singleton_self _, nofun⟩

/-- The blocks of the first thread and of a second one. -/
def firstBlocks : ThreadBlocks := ⟨0xD0001100, 0xD0002000, 0xD0001200⟩

def secondBlocks : ThreadBlocks := ⟨0xD0003100, 0xD0004000, 0xD0003200⟩

theorem rbDelete_not_releases_prepared :
    ∃ k₁ k₂ freed, prepared.createKernelProcess 0xD0001000 0 firstBlocks = some k₁ ∧
      (k₁.createKernelThreads 0xD0001000 [(0, secondBlocks)]).rbDelete
        (k₁.tree.proc 0xD0001000).pid = some (k₂, freed) ∧
      ¬ Releases (processBlocks 0xD0001000 firstBlocks [(0, secondBlocks)]) freed :=
  rbDelete_not_releases prepared_planted 0 (by decide)

/-- A process with one thread: the block of its registers stays allocated. -/
theorem registers_stay_allocated :
    ¬ ∀ (k : Kernel) (t : RBTree Ptr) (blocks : List Ptr) (p : Ptr) (function : Word)
      (b : ThreadBlocks) (threads : List (Word × ThreadBlocks)), k.Planted t blocks →
      Fresh blocks (processBlocks p b threads) →
      ∃ k₁ k₂ freed, k.createKernelProcess p function b = some k₁ ∧
        (k₁.createKernelThreads p threads).rbDelete (k₁.tree.proc p).pid = some (k₂, freed) ∧
        Releases (processBlocks p b threads) freed := by
  intro hclaim
  obtain ⟨k₁, k₂, freed, hcreate, hdelete, hreleases⟩ :=
    hclaim prepared .leaf [0xD0000000] 0xD0001000 0 firstBlocks [] prepared_planted (by decide)
  have hfreed : (prepared.createKernelProcess 0xD0001000 0 firstBlocks).bind (fun k =>
      ((k.createKernelThreads 0xD0001000 []).rbDelete (k.tree.proc 0xD0001000).pid).map
        Prod.snd) = some [0xD0002000, 0xD0001100, 0xD0001000] := by decide +kernel
  rw [hcreate, Option.bind_some, hdelete, Option.map_some] at hfreed
  obtain rfl : freed = [0xD0002000, 0xD0001100, 0xD0001000] := Option.some.inj hfreed
  exact absurd hreleases (by decide)

end Kernel

end Senob.Sys
