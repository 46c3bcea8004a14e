import Senob.Memory.HeapPaging
import Senob.Memory.PagingBoot

/-!
# A failed allocation

`heap_expand` takes the frames one by one and appends a block for each. If the allocator runs
out, `kmalloc` returns the null pointer, but the blocks, their pages and their frames stay.
-/

namespace Senob.Memory

open Senob.Foundation

namespace Heap

/-- A request for no block at all finds none, and changes nothing. -/
theorem malloc_zero {ε : Type*} (svc : PageServices ε) (h : Heap) (env : ε) {size : Nat}
    (hzero : decimalTotalBlocks size = 0) : h.malloc svc env size = (0, h, env) := by
  simp [malloc, hzero, getStartBlock_zero, expand, expandBlocks]

/-- A free run of `n` blocks is in the table. -/
def Fits (h : Heap) (n : Nat) : Prop := ∃ s, s + n ≤ h.totalBlocks ∧ FreeRun h.entries s n

theorem getStartBlock_eq_none_iff {h : Heap} {n : Nat} (hn : 0 < n) :
    h.getStartBlock n = none ↔ ¬ h.Fits n := by
  have hfit := h.getStartBlock_firstFit hn
  cases hsearch : h.getStartBlock n with
  | none =>
      rw [hsearch] at hfit
      exact iff_of_true rfl fun ⟨s, hs, hrun⟩ => hfit s hs hrun
  | some s =>
      rw [hsearch] at hfit
      exact iff_of_false nofun (not_not_intro ⟨s, hfit.1, hfit.2.1⟩)

end Heap

namespace Paging

variable {L : Layout} {h : Heap} {s : Paging}

/-- If `kmalloc` fails, then the heap, the pages and the allocator are as before. -/
def Atomic (L : Layout) (h : Heap) (s : Paging) (size : Nat) : Prop :=
  (h.kmalloc (services L) (some s) size).1 = 0 →
    (h.kmalloc (services L) (some s) size).2 = (h, some s)

theorem address_ne_zero (first : Nat) : heapStartAddress + first * heapBlockSize ≠ 0 :=
  Nat.pos_iff_ne_zero.mp (Nat.add_pos_left (by decide) _)

theorem absentTables_zero (first : Nat) : absentTables L s first 0 = 0 := rfl

theorem atomic_of_ne_zero {size : Nat} (hne : (h.kmalloc (services L) (some s) size).1 ≠ 0) :
    Atomic L h s size := fun hzero => absurd hzero hne

/-- A failed `kmalloc` changes nothing exactly if it asked for no blocks, if the table has a run for
it, and if the allocator has no frame at all or has enough. -/
theorem atomic_iff (hready : HeapReady L h s) (hbacked : Backed h s) (size : Nat) :
    Atomic L h s size ↔
      Heap.decimalTotalBlocks size = 0 ∨ h.Fits (Heap.decimalTotalBlocks size) ∨
      s.pmm.clearFrames = 0 ∨
      heapDemand L s h.totalBlocks (Heap.decimalTotalBlocks size) ≤ s.pmm.clearFrames := by
  have hlength : bitmapLength = 16384 := rfl
  have hlimit : h.totalBlocks + s.pmm.clearFrames ≤ 8 * bitmapLength := hbacked
  rcases Nat.eq_zero_or_pos (Heap.decimalTotalBlocks size) with hzero | hpos
  · refine iff_of_true (fun _ => ?_) (Or.inl hzero)
    rw [Heap.kmalloc, Heap.malloc_zero _ _ _ hzero]
  rw [or_iff_right (Nat.pos_iff_ne_zero.mp hpos)]
  cases hsearch : h.getStartBlock (Heap.decimalTotalBlocks size) with
  | some first =>
      have hfit := h.getStartBlock_firstFit hpos
      rw [hsearch] at hfit
      have hfirst := hfit.1
      refine iff_of_true (atomic_of_ne_zero ?_) (Or.inl ⟨first, hfirst, hfit.2.1⟩)
      rw [Heap.kmalloc, Heap.malloc_found hready.startAddress (by omega) hsearch]
      exact address_ne_zero first
  | none =>
      rw [or_iff_right ((Heap.getStartBlock_eq_none_iff hpos).mp hsearch)]
      obtain ⟨k, h', t, hexpand, happended, hready', hbacked', hnone, hcount⟩ :=
        hready.expandBlocks hbacked (Heap.decimalTotalBlocks size)
      by_cases hall : k = Heap.decimalTotalBlocks size
      · -- Every frame was granted.
        have hdemand := ((hcount _).mp hall.ge).2
        rw [decide_eq_true hall] at hexpand
        rw [hall] at happended
        obtain ⟨first, hfound, hfit⟩ := happended.exists_startBlock hpos
        have hlimit' : h'.totalBlocks + t.pmm.clearFrames ≤ 8 * bitmapLength := hbacked'
        have hfirst := hfit.1
        refine iff_of_true (atomic_of_ne_zero ?_) (Or.inr hdemand)
        rw [Heap.kmalloc, Heap.malloc_expanded hsearch hexpand hready'.startAddress (by omega)
          hfound]
        exact address_ne_zero first
      rw [decide_eq_false hall] at hexpand
      have hresult : h.kmalloc (services L) (some s) size = (0, h', some t) :=
        Heap.malloc_exhausted hsearch hexpand
      have hlack : ¬ heapDemand L s h.totalBlocks (Heap.decimalTotalBlocks size) ≤
          s.pmm.clearFrames := fun hdemand => by
        have hle := ((hcount k).mp le_rfl).1
        have hge := (hcount _).mpr ⟨le_rfl, hdemand⟩
        omega
      rw [or_iff_left hlack, Atomic, hresult]
      have hone := hcount 1
      rw [heapDemand, absentTables_zero] at hone
      constructor
      · intro hsame
        -- A block that was appended is still there.
        have htotal := happended.totalBlocks
        rw [(Prod.mk.inj (hsame rfl)).1] at htotal
        omega
      · intro hclear _
        obtain ⟨rfl, rfl⟩ := hnone (by omega)
        rfl

/-- If `kmalloc` returns the null pointer, then the table, the heap size, the pages and the bitmap
are as before, exactly under the condition of `atomic_iff`. -/
theorem kmalloc_atomic_iff (hready : HeapReady L h s) (hbacked : Backed h s) (size : Nat) :
    ((h.kmalloc (services L) (some s) size).1 = 0 →
      (h.kmalloc (services L) (some s) size).2 = (h, some s)) ↔
      Heap.decimalTotalBlocks size = 0 ∨ h.Fits (Heap.decimalTotalBlocks size) ∨
      s.pmm.clearFrames = 0 ∨
      heapDemand L s h.totalBlocks (Heap.decimalTotalBlocks size) ≤ s.pmm.clearFrames :=
  atomic_iff hready hbacked size

/-! ## After the boot -/

/-- The clear frames at the end of the window. -/
theorem clearFrames_ge_of_roomy {start stop n : Nat} {p : Pmm}
    (h : PagingCall.Roomy start stop n p) : 8 * stop - (8 * start + n) ≤ p.clearFrames := by
  have hsubset : Finset.Ico (8 * start + n) (8 * stop) ⊆
      (Finset.Ico (8 * p.startByte) (8 * p.endByte)).filter fun f => p.used f = false := by
    intro f hf
    obtain ⟨hlow, hhigh⟩ := Finset.mem_Ico.mp hf
    refine Finset.mem_filter.mpr ⟨Finset.mem_Ico.mpr ?_, h.clear f hlow⟩
    rw [h.startByte, h.endByte]
    omega
  have hcard := Finset.card_le_card hsubset
  rwa [Nat.card_Ico] at hcard

/-- `init_memory` and `heap_init`, with ample memory. -/
theorem exists_booted {memHigh physicalAllocstart : Nat}
    (hbehind : PagingCall.Behind L physicalAllocstart)
    (hample : PagingCall.Ample memHigh physicalAllocstart) (m : PhysicalMemory) (memory : Bytes) :
    ∃ s₀ h s, initMemory L m memHigh physicalAllocstart = some s₀ ∧
      Heap.init (services L) memory (some s₀) = (h, some s) ∧ HeapReady L h s ∧ Backed h s ∧
      h.totalBlocks = 4 ∧
      8 * (Pmm.init physicalAllocstart memHigh).endByte ≤
        8 * (Pmm.init physicalAllocstart memHigh).startByte + 16392 + s.pmm.clearFrames := by
  obtain ⟨-, s₀, hrun, hround⟩ := PagingCall.initMemory_ordered hbehind hample m
  have hcore := hround.translating.coherent.core
  have hroomy := hround.roomy
  have hbelow := hbehind.lt_startByte memHigh .kernel
  have hpool : Pooled s₀.pmm := by
    refine ⟨?_, ?_⟩
    · rw [hroomy.startByte]
      omega
    · rw [hroomy.endByte]
      exact hample.fits
  obtain ⟨h, s, hinit, hready, htotal, hbacked, hcount⟩ := heapReady_init hcore hpool memory
  have hclear := clearFrames_ge_of_roomy hroomy
  refine ⟨s₀, h, s, ?_, hinit, hready, hbacked, htotal, by omega⟩
  rw [PagingCall.initMemory_eq_runSteps]
  exact hrun

theorem absentTables_le (first count : Nat) : absentTables L s first count ≤ count := by
  calc absentTables L s first count
      ≤ ((Finset.range count).image fun j => heapBlockTable (first + j)).card :=
        Finset.card_filter_le _ _
    _ ≤ (Finset.range count).card := Finset.card_image_le
    _ = count := Finset.card_range count

/-- A request for more blocks than there are frames fails in the middle. -/
theorem not_atomic_of_large (hready : HeapReady L h s) (hbacked : Backed h s)
    (htotal : h.totalBlocks < 262144) (hclear : 0 < s.pmm.clearFrames) :
    ¬ Atomic L h s 0x40000000 := by
  have hlarge : Heap.decimalTotalBlocks 0x40000000 = 262143 + 1 := by decide
  have hlimit : h.totalBlocks + s.pmm.clearFrames ≤ 8 * bitmapLength := hbacked
  have hlength : bitmapLength = 16384 := rfl
  rw [atomic_iff hready hbacked, hlarge, heapDemand]
  rintro (hzero | ⟨first, hfirst, -⟩ | hnone | hdemand)
  · exact absurd hzero (by decide)
  · omega
  · omega
  · omega

/-- With 128 MiB, a request for 1 GiB fails and takes all frames that are left. -/
theorem kmalloc_atomic_exampleBoot :
    ∃ s₀ h s, initMemory PagingCall.exampleLayout (fun _ _ => 0) 0x8000000 0x1000000 = some s₀ ∧
      Heap.init (services PagingCall.exampleLayout) (fun _ => 0) (some s₀) = (h, some s) ∧
      Atomic PagingCall.exampleLayout h s 0xA000 ∧
      ¬ Atomic PagingCall.exampleLayout h s 0x40000000 := by
  obtain ⟨s₀, h, s, hboot, hinit, hready, hbacked, htotal, hclear⟩ := exists_booted
    PagingCall.behind_exampleLayout PagingCall.ample_example (fun _ _ => 0) (fun _ => 0)
  have hwindow : 8 * (Pmm.init 0x1000000 0x8000000).endByte = 32768 ∧
      8 * (Pmm.init 0x1000000 0x8000000).startByte = 4096 := by decide
  have hsmall : Heap.decimalTotalBlocks 0xA000 = 9 + 1 := by decide
  have htables : absentTables PagingCall.exampleLayout s h.totalBlocks 9 ≤ 9 :=
    absentTables_le _ _
  refine ⟨s₀, h, s, hboot, hinit, (kmalloc_atomic_iff hready hbacked 0xA000).mpr ?_, ?_⟩
  · rw [hsmall, heapDemand]
    right; right; right
    omega
  · exact not_atomic_of_large hready hbacked (by omega) (by omega)

/-- A heap that grows does not get all its frames at once. -/
theorem not_kmalloc_atomic :
    ¬ ∀ (L : Layout) (m : PhysicalMemory) (memHigh physicalAllocstart : Nat) (memory : Bytes)
        (s₀ s : Paging) (h : Heap) (size : Nat),
      initMemory L m memHigh physicalAllocstart = some s₀ →
      Heap.init (services L) memory (some s₀) = (h, some s) → size < 2 ^ 32 →
      Atomic L h s size := by
  intro hclaim
  obtain ⟨s₀, h, s, hboot, hinit, hready, hbacked, htotal, hclear⟩ := exists_booted
    PagingCall.behind_exampleLayout PagingCall.ample_example (fun _ _ => 0) (fun _ => 0)
  have hatomic := hclaim _ _ _ _ _ s₀ s h 0x40000000 hboot hinit (by decide)
  have hwindow : 8 * (Pmm.init 0x1000000 0x8000000).endByte = 32768 ∧
      8 * (Pmm.init 0x1000000 0x8000000).startByte = 4096 := by decide
  exact not_atomic_of_large hready hbacked (by omega) (by omega) hatomic

end Paging

end Senob.Memory
