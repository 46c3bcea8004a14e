import Senob.Foundation.Run
import Senob.Memory.HeapSpec

/-!
# Runs of the kernel heap

A session of the heap is its table, the answers that the frame allocator will
give, and a ledger of the live allocations. The ledger is not part of the
program: it records what callers hold. The invariant says that the table is a
picture of the ledger, block by block.
-/

namespace Senob.Memory

open Senob.Foundation

/-- A live allocation: the pointer that `kmalloc` returned and the size asked for. -/
structure Allocation where
  ptr : Nat
  size : Nat

namespace Allocation

def firstBlock (a : Allocation) : Nat := (a.ptr - heapStartAddress) / heapBlockSize

/-- The size in blocks, rounded up. -/
def blockCount (a : Allocation) : Nat := (a.size + (heapBlockSize - 1)) / heapBlockSize

/-- Block `i` belongs to the run of `a`. -/
def Covers (a : Allocation) (i : Nat) : Prop :=
  a.firstBlock ≤ i ∧ i < a.firstBlock + a.blockCount

instance (a : Allocation) (i : Nat) : Decidable (a.Covers i) :=
  inferInstanceAs (Decidable (_ ∧ _))

/-- The runs of two allocations have no block in common. -/
def Disjoint (a b : Allocation) : Prop := ∀ i, ¬ (a.Covers i ∧ b.Covers i)

instance : Std.Symm Disjoint := ⟨fun _ _ h i hi => h i ⟨hi.2, hi.1⟩⟩

end Allocation

structure HeapSession where
  heap : Heap
  frames : List Nat
  live : List Allocation

namespace HeapSession

inductive Op where
  | kmalloc (size : Nat)
  | kfree (ptr : Nat)

def step (s : HeapSession) : Op → Option HeapSession
  | .kmalloc size =>
      let (ptr, heap, frames) := s.heap.kmalloc Heap.oracle s.frames size
      some ⟨heap, frames, if ptr = 0 then s.live else ⟨ptr, size⟩ :: s.live⟩
  | .kfree ptr =>
      let (heap, frames) := s.heap.kfree Heap.oracle s.frames ptr
      some ⟨heap, frames, s.live.filter fun a => a.ptr ≠ ptr⟩

theorem step_kmalloc {s : HeapSession} {size ptr : Nat} {heap : Heap} {frames : List Nat}
    (h : s.heap.kmalloc Heap.oracle s.frames size = (ptr, heap, frames)) :
    s.step (.kmalloc size) =
      some ⟨heap, frames, if ptr = 0 then s.live else ⟨ptr, size⟩ :: s.live⟩ := by
  simp only [step, h]

/-- Sizes are 32-bit words, and only live pointers are freed. -/
def enabled (s : HeapSession) : Op → Prop
  | .kmalloc size => size < 2 ^ 32
  | .kfree ptr => ∃ a ∈ s.live, a.ptr = ptr

/-- The session right after `heap_init`. -/
def start (memory : Bytes) (frames : List Nat) : HeapSession :=
  let (heap, frames) := Heap.init Heap.oracle memory frames
  ⟨heap, frames, []⟩

/-- The block table is a picture of the live allocations. -/
structure Wf (s : HeapSession) : Prop where
  startAddress : s.heap.startAddress = heapStartAddress
  heapSize : s.heap.heapSize = s.heap.totalBlocks * heapBlockSize
  supply : s.heap.totalBlocks + Heap.grants s.frames ≤ 131072
  placed : ∀ a ∈ s.live, a.ptr = heapStartAddress + a.firstBlock * heapBlockSize ∧
    0 < a.blockCount ∧ a.firstBlock + a.blockCount ≤ s.heap.totalBlocks
  disjoint : s.live.Pairwise Allocation.Disjoint
  run : ∀ a ∈ s.live, ∀ i, a.Covers i →
    s.heap.entries i = Heap.runEntry a.firstBlock a.blockCount i
  free : ∀ i < s.heap.totalBlocks, (∀ a ∈ s.live, ¬ a.Covers i) →
    s.heap.entries i = heapBlockTableEntryFree

/-- A live allocation is aligned and lies inside the managed area. -/
theorem Wf.inside {s : HeapSession} (h : s.Wf) {a : Allocation} (ha : a ∈ s.live) :
    a.ptr % 4096 = 0 ∧ s.heap.startAddress ≤ a.ptr ∧
      a.ptr + a.size ≤ s.heap.startAddress + s.heap.totalBlocks * 4096 := by
  obtain ⟨hptr, _, hend⟩ := h.placed a ha
  have hcount : a.size ≤ a.blockCount * 4096 := by
    simp only [Allocation.blockCount, heapBlockSize]
    omega
  rw [h.startAddress]
  simp only [heapStartAddress, heapBlockSize] at hptr ⊢
  omega

/-- Distinct live allocations have distinct pointers, because each covers its own
first block. -/
theorem Wf.eq_of_ptr_eq {s : HeapSession} (h : s.Wf) {a b : Allocation} (ha : a ∈ s.live)
    (hb : b ∈ s.live) (hptr : a.ptr = b.ptr) : a = b := by
  by_contra hne
  have hdisj : a.Disjoint b := h.disjoint.forall ha hb hne
  have hfirst : a.firstBlock = b.firstBlock := by rw [Allocation.firstBlock, hptr]; rfl
  have ha' := (h.placed a ha).2.1
  have hb' := (h.placed b hb).2.1
  exact hdisj a.firstBlock ⟨⟨le_rfl, by omega⟩, ⟨hfirst.ge, by omega⟩⟩

theorem start_wf {memory : Bytes} {frames : List Nat} (hinit : 4 ≤ Heap.available frames)
    (hsupply : Heap.grants frames ≤ 131072) : (start memory frames).Wf := by
  obtain ⟨h, frames', hres, htotal, hstart, _, hsize, hfree, hgrants⟩ :=
    Heap.init_spec memory hinit
  have hsession : start memory frames = ⟨h, frames', []⟩ := by simp [start, hres]
  rw [hsession]
  refine ⟨hstart, hsize, ?_, by simp, List.Pairwise.nil, by simp, fun i hi _ => ?_⟩
  · dsimp only
    omega
  · exact hfree i (by dsimp only at hi; omega)

/-- Appending free blocks to the table keeps the picture. -/
theorem Wf.append {s : HeapSession} (h : s.Wf) {k : Nat} {heap : Heap} {frames : List Nat}
    (happ : s.heap.Appended k heap) (hsupply : k + Heap.grants frames = Heap.grants s.frames) :
    (⟨heap, frames, s.live⟩ : HeapSession).Wf := by
  have htotal := happ.totalBlocks
  refine ⟨happ.startAddress.trans h.startAddress, happ.heapSize, ?_, ?_, h.disjoint, ?_, ?_⟩
  · have := h.supply
    dsimp only
    omega
  · intro a ha
    obtain ⟨hptr, hpos, hend⟩ := h.placed a ha
    exact ⟨hptr, hpos, by dsimp only; omega⟩
  · intro a ha i hi
    have := h.placed a ha
    rw [← h.run a ha i hi]
    exact happ.old i (by have := hi.2; omega)
  · intro i hi hcover
    dsimp only at hi
    rcases Nat.lt_or_ge i s.heap.totalBlocks with hold | hnew
    · rw [← h.free i hold hcover]
      exact happ.old i hold
    · exact happ.new i hnew (by omega)

/-- Marking a free run adds one allocation to the picture. -/
theorem Wf.mark {s : HeapSession} (h : s.Wf) {first n size : Nat} (hpos : 0 < n)
    (hend : first + n ≤ s.heap.totalBlocks) (hrun : Heap.FreeRun s.heap.entries first n)
    (hn : n = (size + (heapBlockSize - 1)) / heapBlockSize) :
    (⟨{ s.heap with entries := Heap.markRun s.heap.entries first n }, s.frames,
      ⟨heapStartAddress + first * heapBlockSize, size⟩ :: s.live⟩ : HeapSession).Wf := by
  set a : Allocation := ⟨heapStartAddress + first * heapBlockSize, size⟩ with ha
  have hfirst : a.firstBlock = first := by
    rw [Allocation.firstBlock, ha, Nat.add_sub_cancel_left]
    exact Nat.mul_div_cancel _ (by decide)
  have hcount : a.blockCount = n := hn.symm
  have hcovers : ∀ i, a.Covers i ↔ first ≤ i ∧ i < first + n := by
    intro i
    rw [Allocation.Covers, hfirst, hcount]
  -- The blocks of the new run were free, and no live run has a free block.
  have hnew : ∀ b ∈ s.live, a.Disjoint b := by
    intro b hb i ⟨hai, hbi⟩
    obtain ⟨hlow, hhigh⟩ := (hcovers i).mp hai
    have hfree := hrun (i - first) (by omega)
    rw [show first + (i - first) = i by omega, h.run b hb i hbi] at hfree
    exact Heap.runEntry_ne_free _ _ _ hfree
  refine ⟨h.startAddress, h.heapSize, h.supply, ?_, ?_, ?_, ?_⟩
  · intro b hb
    rcases List.mem_cons.mp hb with rfl | hb
    · rw [hfirst, hcount]
      exact ⟨rfl, hpos, hend⟩
    · exact h.placed b hb
  · exact List.pairwise_cons.mpr ⟨hnew, h.disjoint⟩
  · intro b hb i hi
    dsimp only
    rw [Heap.markRun_apply]
    rcases List.mem_cons.mp hb with rfl | hb
    · rw [if_pos ((hcovers i).mp hi), hfirst, hcount]
    · rw [if_neg fun hai => hnew b hb i ⟨(hcovers i).mpr hai, hi⟩]
      exact h.run b hb i hi
  · intro i hi hcover
    dsimp only
    rw [Heap.markRun_apply, if_neg fun hai =>
      hcover a List.mem_cons_self ((hcovers i).mpr hai)]
    exact h.free i hi fun b hb => hcover b (List.mem_cons_of_mem _ hb)

/-- `kmalloc` keeps the picture, and a non-null pointer is the newest entry of the
ledger. -/
theorem Wf.kmalloc {s : HeapSession} (h : s.Wf) {size : Nat} (hsize : size < 2 ^ 32) :
    ∃ t, s.step (.kmalloc size) = some t ∧ t.Wf := by
  obtain ⟨k, heap, frames, happ, hsupply, hres⟩ :=
    Heap.malloc_outcome size h.startAddress h.heapSize h.supply
  have hgrown := h.append happ hsupply
  rcases hres with ⟨hpos, first, hfit, hres⟩ | ⟨_, hres⟩
  · have hcount : Heap.decimalTotalBlocks size =
        (size + (heapBlockSize - 1)) / heapBlockSize := by
      rw [Heap.decimalTotalBlocks_eq hsize] at hpos ⊢
      split at hpos
      · rw [if_pos ‹_›]
        rfl
      · exact absurd hpos (lt_irrefl 0)
    have hnull : heapStartAddress + first * heapBlockSize ≠ 0 := by
      simp only [heapStartAddress]
      omega
    refine ⟨_, ?_, hgrown.mark hpos hfit.1 hfit.2.1 hcount⟩
    rw [step_kmalloc hres, if_neg hnull]
  · refine ⟨_, ?_, hgrown⟩
    rw [step_kmalloc hres, if_pos rfl]

/-- What `kfree` does to the table: the run of the freed pointer becomes free, and
the blocks dropped at the end were free by then. -/
structure Freed (s : HeapSession) (a : Allocation) (t : HeapSession) : Prop where
  totalBlocks_le : t.heap.totalBlocks ≤ s.heap.totalBlocks
  released : ∀ i, a.Covers i → t.heap.entries i = heapBlockTableEntryFree
  kept : ∀ i, ¬ a.Covers i → t.heap.entries i = s.heap.entries i
  dropped : ∀ i, t.heap.totalBlocks ≤ i → i < s.heap.totalBlocks →
    t.heap.entries i = heapBlockTableEntryFree
  live : ∀ b, b ∈ t.live ↔ b ∈ s.live ∧ b ≠ a

/-- The run of a live allocation becomes free, and nothing else. -/
theorem Wf.markBlocksFree_apply {s : HeapSession} (h : s.Wf) {a : Allocation} (ha : a ∈ s.live)
    (i : Nat) : (s.heap.markBlocksFree (s.heap.addressToBlock a.ptr)).entries i =
      if a.Covers i then heapBlockTableEntryFree else s.heap.entries i := by
  obtain ⟨hptr, hpos, hend⟩ := h.placed a ha
  have hbound : s.heap.totalBlocks ≤ 131072 := by
    have := h.supply
    omega
  have hblock : s.heap.addressToBlock a.ptr = a.firstBlock := by
    conv_lhs => rw [hptr]
    exact Heap.addressToBlock_eq h.startAddress (by omega)
  have hfirst : ((a.firstBlock : Int) % 2 ^ 32).toNat = a.firstBlock := by omega
  simp only [Heap.markBlocksFree, hblock, hfirst]
  exact Heap.freeRun_apply hpos (fun j hlow hhigh => h.run a ha j ⟨hlow, hhigh⟩) (by omega) i

theorem Wf.kfree {s : HeapSession} (h : s.Wf) {a : Allocation} (ha : a ∈ s.live) :
    ∃ t, s.step (.kfree a.ptr) = some t ∧ t.Wf ∧ Freed s a t := by
  have hbound : s.heap.totalBlocks ≤ 131072 := by
    have := h.supply
    omega
  have hentries := h.markBlocksFree_apply ha
  set marked := s.heap.markBlocksFree (s.heap.addressToBlock a.ptr) with hmarked
  obtain ⟨heap, frames, hres, hcon, hsame⟩ := Heap.contract_contracted Heap.oracle
    (h := marked) s.frames h.heapSize hbound
  obtain rfl := hsame fun _ _ => rfl
  have htotal : heap.totalBlocks ≤ s.heap.totalBlocks := hcon.totalBlocks_le
  have hreleased : ∀ i, a.Covers i → heap.entries i = heapBlockTableEntryFree := by
    intro i hi
    rw [hcon.entries, hentries, if_pos hi]
  have hkept : ∀ i, ¬ a.Covers i → heap.entries i = s.heap.entries i := by
    intro i hi
    rw [hcon.entries, hentries, if_neg hi]
  have hdropped : ∀ i, heap.totalBlocks ≤ i → i < s.heap.totalBlocks →
      heap.entries i = heapBlockTableEntryFree := by
    intro i hlow hhigh
    rw [hcon.entries]
    exact hcon.dropped i hlow hhigh
  have hmem : ∀ b, b ∈ s.live.filter (fun b => b.ptr ≠ a.ptr) ↔ b ∈ s.live ∧ b ≠ a := by
    intro b
    simp only [ne_eq, decide_not, List.mem_filter, Bool.not_eq_eq_eq_not, Bool.not_true,
      decide_eq_false_iff_not, and_congr_right_iff]
    intro hb
    exact ⟨fun hne heq => hne (by rw [heq]), fun hne heq => hne (h.eq_of_ptr_eq hb ha heq)⟩
  refine ⟨⟨heap, s.frames, s.live.filter fun b => b.ptr ≠ a.ptr⟩, ?_, ?_,
    ⟨htotal, hreleased, hkept, hdropped, hmem⟩⟩
  · simp only [step, Heap.kfree, Heap.free, ← hmarked, hres]
  -- The last block of every other run is taken, so that run survives the contraction.
  have hother : ∀ b ∈ s.live, b ≠ a → ∀ i, b.Covers i → heap.entries i = s.heap.entries i := by
    intro b hb hne i hi
    exact hkept i fun hai => h.disjoint.forall hb ha hne i ⟨hi, hai⟩
  refine ⟨hcon.startAddress.trans h.startAddress, hcon.heapSize, ?_, ?_, h.disjoint.filter _,
    ?_, ?_⟩
  · have := h.supply
    dsimp only
    omega
  · intro b hb
    obtain ⟨hb, hne⟩ := (hmem b).mp hb
    obtain ⟨hbptr, hbpos, hbend⟩ := h.placed b hb
    refine ⟨hbptr, hbpos, ?_⟩
    by_contra hlost
    dsimp only at hlost
    have hcover : b.Covers (b.firstBlock + b.blockCount - 1) := ⟨by omega, by omega⟩
    have hlast := hother b hb hne _ hcover
    rw [hdropped _ (by omega) (by omega), h.run b hb _ hcover] at hlast
    exact Heap.runEntry_ne_free _ _ _ hlast.symm
  · intro b hb i hi
    obtain ⟨hb, hne⟩ := (hmem b).mp hb
    exact (hother b hb hne i hi).trans (h.run b hb i hi)
  · intro i hi hcover
    by_cases hai : a.Covers i
    · exact hreleased i hai
    · dsimp only at hi ⊢
      rw [hkept i hai]
      refine h.free i (by omega) fun b hb => ?_
      by_cases hne : b = a
      · rwa [hne]
      · exact hcover b ((hmem b).mpr ⟨hb, hne⟩)

theorem Wf.step {s : HeapSession} (h : s.Wf) {op : Op} (hop : s.enabled op) :
    ∃ t, s.step op = some t ∧ t.Wf := by
  cases op with
  | kmalloc size => exact h.kmalloc hop
  | kfree ptr =>
      obtain ⟨a, ha, rfl⟩ := hop
      obtain ⟨t, hres, ht, _⟩ := h.kfree ha
      exact ⟨t, hres, ht⟩

/-- After every sequence of `kmalloc` and of `kfree` on live pointers from a heap
whose first four frames were granted, the table is a picture of the live
allocations, each of which is aligned and inside the managed area. A further
`kmalloc` returns the null pointer or such an allocation, and a further `kfree`
releases exactly the run of its pointer and drops only free blocks. -/
theorem run_table_exact (memory : Bytes) {frames : List Nat} (hinit : 4 ≤ Heap.available frames)
    (hsupply : Heap.grants frames ≤ 131072) {ops : List Op}
    (hops : Admissible HeapSession.step enabled (start memory frames) ops) :
    ∃ s, runSteps HeapSession.step (start memory frames) ops = some s ∧ s.Wf ∧
      (∀ a ∈ s.live, a.ptr % 4096 = 0 ∧ s.heap.startAddress ≤ a.ptr ∧
        a.ptr + a.size ≤ s.heap.startAddress + s.heap.totalBlocks * 4096) ∧
      (∀ size < 2 ^ 32, ∃ ptr heap frames,
        s.heap.kmalloc Heap.oracle s.frames size = (ptr, heap, frames) ∧
        (ptr ≠ 0 → ptr % 4096 = 0 ∧ heap.startAddress ≤ ptr ∧
          ptr + size ≤ heap.startAddress + heap.totalBlocks * 4096)) ∧
      ∀ a ∈ s.live, ∃ t, s.step (.kfree a.ptr) = some t ∧ Freed s a t := by
  obtain ⟨s, hrun, hs⟩ := runSteps_total Wf (fun _ _ hs hop => hs.step hop)
    (start_wf hinit hsupply) hops
  refine ⟨s, hrun, hs, fun a ha => hs.inside ha, fun size hsize => ?_, fun a ha => ?_⟩
  · obtain ⟨t, hres, ht⟩ := hs.kmalloc hsize
    rcases hcall : s.heap.kmalloc Heap.oracle s.frames size with ⟨ptr, heap, frames'⟩
    refine ⟨ptr, heap, frames', rfl, fun hptr => ?_⟩
    rw [step_kmalloc hcall, if_neg hptr, Option.some.injEq] at hres
    subst hres
    exact ht.inside (a := ⟨ptr, size⟩) List.mem_cons_self
  · obtain ⟨t, hres, _, hfreed⟩ := hs.kfree ha
    exact ⟨t, hres, hfreed⟩

theorem run_table_exact_twoOps :
    ∃ s, runSteps HeapSession.step
        (start (fun _ => 0) [0x1000000, 0x1001000, 0x1002000, 0x1003000])
        [.kmalloc 5000, .kfree 0xD0000000] = some s ∧ s.Wf :=
  have ⟨s, hrun, hs, _⟩ :=
    @run_table_exact (fun _ => 0) [0x1000000, 0x1001000, 0x1002000, 0x1003000]
    (by decide) (by decide) [.kmalloc 5000, .kfree 0xD0000000]
    ⟨by simp [enabled], fun t ht =>
      ⟨⟨⟨0xD0000000, 5000⟩, by obtain rfl := Option.some.inj ht; exact List.mem_cons_self, rfl⟩,
        fun _ _ => trivial⟩⟩
  ⟨s, hrun, hs⟩

end HeapSession

end Senob.Memory
