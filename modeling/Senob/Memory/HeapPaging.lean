import Mathlib.Data.Finset.Card
import Mathlib.Order.Interval.Finset.Nat
import Senob.Memory.HeapSpec
import Senob.Memory.PagingRuns

/-!
# The heap on page frames

`heap.c` over `paging.c` and `pmm.c`. A block that is appended to the heap takes a page frame,
and one more if its page table has to be made. How far the heap can grow is thus a matter of
the clear frames of the allocator and of the entries of the kernel's directory.
-/

namespace Senob.Memory

open Senob.Foundation

/-! ## Clear frames -/

namespace Pmm

variable {p : Pmm}

/-- How many frames `pmm_alloc_pageframe` can still hand out. -/
def clearFrames (p : Pmm) : Nat :=
  ((Finset.Ico (8 * p.startByte) (8 * p.endByte)).filter fun f => p.used f = false).card

theorem clearFrames_take {f : Nat} (hlow : 8 * p.startByte ≤ f) (hhigh : f < 8 * p.endByte)
    (hclear : p.used f = false) : (p.take f).clearFrames + 1 = p.clearFrames := by
  have hmem : f ∈ (Finset.Ico (8 * p.startByte) (8 * p.endByte)).filter
      fun f => p.used f = false :=
    Finset.mem_filter.mpr ⟨Finset.mem_Ico.mpr ⟨hlow, hhigh⟩, hclear⟩
  have herase : (Finset.Ico (8 * p.startByte) (8 * p.endByte)).filter
      (fun g => (p.take f).used g = false) =
        ((Finset.Ico (8 * p.startByte) (8 * p.endByte)).filter
          fun g => p.used g = false).erase f := by
    ext g
    rw [Finset.mem_erase, Finset.mem_filter, Finset.mem_filter, used_take]
    by_cases hg : g = f
    · simp [hg]
    · simp [hg]
  rw [clearFrames, clearFrames, startByte_take, endByte_take, herase,
    Finset.card_erase_add_one hmem]

/-- Inside the bitmap the allocator succeeds as long as there is a clear frame. -/
theorem allocPageframe_taken (hstart : 0 < p.startByte) (hend : p.endByte ≤ bitmapLength) :
    p.clearFrames = 0 ∧ p.allocPageframe = some (0, p) ∨
      ∃ f, 0 < f ∧ 8 * p.startByte ≤ f ∧ f < 8 * p.endByte ∧ p.used f = false ∧
        p.allocPageframe = some (f * pageFrameSize, p.take f) := by
  rcases p.scanBytes_outcome p.startByte (p.endByte - p.startByte) with
    ⟨f, hlow, hhigh, -, hclear, -, hresult⟩ | ⟨hfull, hresult⟩
  · right
    exact ⟨f, by omega, hlow, by omega, hclear, hresult⟩
  · left
    rw [if_pos (by omega)] at hresult
    refine ⟨Finset.card_eq_zero.mpr (Finset.filter_eq_empty_iff.mpr fun f hf hclear => ?_), hresult⟩
    obtain ⟨hlow, hhigh⟩ := Finset.mem_Ico.mp hf
    have hused := hfull f hlow (by omega) (by omega)
    exact Bool.false_ne_true (hclear.symm.trans hused)

theorem allocPageframe_clearFrames (hstart : 0 < p.startByte) (hend : p.endByte ≤ bitmapLength) :
    p.clearFrames = 0 ∧ p.allocPageframe = some (0, p) ∨
      ∃ f, 0 < f ∧ 8 * p.startByte ≤ f ∧ f < 8 * p.endByte ∧
        (p.take f).clearFrames + 1 = p.clearFrames ∧
        p.allocPageframe = some (f * pageFrameSize, p.take f) :=
  (allocPageframe_taken hstart hend).imp_right fun ⟨f, hpos, hlow, hhigh, hclear, halloc⟩ =>
    ⟨f, hpos, hlow, hhigh, clearFrames_take hlow hhigh hclear, halloc⟩

theorem clearFrames_le (p : Pmm) : p.clearFrames ≤ 8 * p.endByte - 8 * p.startByte := by
  have hcard := Finset.card_filter_le (Finset.Ico (8 * p.startByte) (8 * p.endByte))
    fun f => p.used f = false
  rwa [Nat.card_Ico] at hcard

end Pmm

/-! ## The blocks and their tables -/

/-- The first address of block `i`. -/
def heapBlockAddress (i : Nat) : Word := BitVec.ofNat 32 (heapStartAddress + i * heapBlockSize)

/-- The entry of the directory for block `i`. -/
def heapBlockTable (i : Nat) : Index := pdIndex (heapBlockAddress i)

theorem toNat_heapBlockTable {i : Nat} (hi : i < 131072) :
    (heapBlockTable i).toNat = 832 + i / 1024 := by
  rw [heapBlockTable, toNat_pdIndex, heapBlockAddress, BitVec.toNat_ofNat, heapStartAddress,
    heapBlockSize]
  omega

theorem heapBlockAddress_ge {i : Nat} (hi : i < 131072) : heapBlockAddress i ≥ kernelStart := by
  have htable := toNat_heapBlockTable hi
  rw [kernelStart_le_iff]
  unfold heapBlockTable at htable
  omega

namespace Paging

/-- `pmm_alloc_pageframe` for the heap. An access outside of the bitmap leaves no state. -/
def allocForHeap (s : Paging) : Nat × Option Paging :=
  s.pmm.allocPageframe.elim (0, none) fun (physAddr, pmm) => (physAddr, some { s with pmm := pmm })

variable (L : Layout)

/-- What `heap.c` uses of `paging.c` and `pmm.c`. -/
def services : PageServices (Option Paging) where
  pmmAllocPageframe s := s.elim (0, none) allocForHeap
  memMapPage virtAddr physAddr flags s :=
    s.bind fun s => s.memMapPage L (.ofNat 32 virtAddr) (.ofNat 32 physAddr) (.ofNat 32 flags)
  memUnmapPage virtAddr s := s.bind fun s => (s.memUnmapPage L (.ofNat 32 virtAddr)).map Prod.snd

theorem services_alloc {L : Layout} {s : Paging} {physAddr : Nat} {pmm : Pmm}
    (h : s.pmm.allocPageframe = some (physAddr, pmm)) :
    (services L).pmmAllocPageframe (some s) = (physAddr, some { s with pmm := pmm }) := by
  have hstate : (services L).pmmAllocPageframe (some s) = allocForHeap s :=
    Option.elim_some (0, none) allocForHeap s
  rw [hstate, allocForHeap, h, Option.elim_some]

theorem services_alloc_none (L : Layout) : (services L).pmmAllocPageframe none = (0, none) :=
  Option.elim_none (0, none) allocForHeap

/-- How many of the `count` blocks from `first` on need a table that is not there. -/
def absentTables (s : Paging) (first count : Nat) : Nat :=
  (((Finset.range count).image fun j => heapBlockTable (first + j)).filter
    fun k => ¬ Has (s.memory L.kernelDirectory k) pageFlagPresent).card

/-- The clear frames that it takes to append `count` blocks behind block `first`: the last one
is appended even if there is no frame left for its table. -/
def heapDemand (s : Paging) (first : Nat) : Nat → Nat
  | 0 => 0
  | count + 1 => count + 1 + absentTables L s first count

variable {L} {s t : Paging}

/-- The effect of a page of the heap with table `k` on the directory and on the allocator. -/
structure HeapPage (L : Layout) (s : Paging) (k : Index) (t : Paging) : Prop where
  core : t.Core L
  startByte : t.pmm.startByte = s.pmm.startByte
  endByte : t.pmm.endByte = s.pmm.endByte
  present : ∀ i, Has (t.memory L.kernelDirectory i) pageFlagPresent ↔
    i = k ∨ Has (s.memory L.kernelDirectory i) pageFlagPresent
  clearFrames : t.pmm.clearFrames =
    s.pmm.clearFrames - if Has (s.memory L.kernelDirectory k) pageFlagPresent then 0 else 1

theorem absentTables_succ {first count : Nat}
    (h : ∀ i, Has (t.memory L.kernelDirectory i) pageFlagPresent ↔
      i = heapBlockTable first ∨ Has (s.memory L.kernelDirectory i) pageFlagPresent) :
    absentTables L s first (count + 1) =
      (if Has (s.memory L.kernelDirectory (heapBlockTable first)) pageFlagPresent then 0 else 1) +
        absentTables L t (first + 1) count := by
  -- The tables of the blocks are those of the first one and of the rest.
  have hsplit : ((Finset.range (count + 1)).image fun j => heapBlockTable (first + j)) =
      insert (heapBlockTable first)
        ((Finset.range count).image fun j => heapBlockTable (first + 1 + j)) := by
    ext k
    rw [Finset.mem_image, Finset.mem_insert, Finset.mem_image]
    constructor
    · rintro ⟨j, hj, rfl⟩
      cases j with
      | zero => exact Or.inl rfl
      | succ j =>
          refine Or.inr ⟨j, ?_, ?_⟩
          · exact Finset.mem_range.mpr (Nat.lt_of_succ_lt_succ (Finset.mem_range.mp hj))
          · rw [Nat.add_assoc, Nat.add_comm 1 j]
    · rintro (rfl | ⟨j, hj, rfl⟩)
      · exact ⟨0, Finset.mem_range.mpr (Nat.succ_pos count), rfl⟩
      · refine ⟨j + 1, ?_, ?_⟩
        · exact Finset.mem_range.mpr (Nat.succ_lt_succ (Finset.mem_range.mp hj))
        · rw [Nat.add_assoc, Nat.add_comm 1 j]
  have hrest : absentTables L t (first + 1) count =
      (((insert (heapBlockTable first)
        ((Finset.range count).image fun j => heapBlockTable (first + 1 + j))).filter
          fun k => ¬ Has (s.memory L.kernelDirectory k) pageFlagPresent).erase
            (heapBlockTable first)).card := by
    refine congrArg Finset.card ?_
    ext k
    rw [Finset.mem_erase, Finset.mem_filter, Finset.mem_filter, h k, Finset.mem_insert]
    tauto
  rw [hrest, absentTables, hsplit]
  by_cases hpresent : Has (s.memory L.kernelDirectory (heapBlockTable first)) pageFlagPresent
  · rw [if_pos hpresent, Nat.zero_add, Finset.erase_eq_of_notMem]
    exact fun hmem => (Finset.mem_filter.mp hmem).2 hpresent
  · rw [if_neg hpresent]
    refine (Finset.card_erase_add_one ?_).symm.trans (Nat.add_comm _ _)
    exact Finset.mem_filter.mpr ⟨Finset.mem_insert_self _ _, hpresent⟩

theorem synced_kernelDirectory (used : Fin 256 → Bool) (virtAddr : Word) (m : PhysicalMemory)
    (k : Index) : synced L used virtAddr m L.kernelDirectory k = m L.kernelDirectory k := by
  unfold synced
  split
  · exact syncKernelHalves_of_ne L used m (Or.inl fun d => (L.pageDir_ne_kernelDirectory d).symm)
  · rfl

/-! ## A page of the heap -/

/-- The frame of the page of 4 MiB that `boot.s` puts at `0xE0000000` is none of a directory. -/
theorem framebuffer_apart (h : s.Core L) (hopen : s.pmm.startByte ≤ bitmapLength) (D : Dir) :
    frameOf (bootDirectory 896) ≠ L.frame D := by
  intro heq
  have hbelow := h.below D
  rw [← heq, show (frameOf (bootDirectory 896)).toNat = 0xFD000 from rfl] at hbelow
  have hlength : bitmapLength = 16384 := rfl
  omega

/-- The directory has the entries for blocks for itself, but for that at `0xE0000000`. -/
theorem owns_heapBlockTable {i : Nat} (hi : i < 131072) (hlarge : heapBlockTable i ≠ 896) :
    Owns .kernel (heapBlockTable i) := by
  have htable := toNat_heapBlockTable hi
  refine ⟨?_, ?_⟩
  · rintro (hboot | hboot | hboot)
    · rw [hboot] at htable
      exact absurd htable (by simp; omega)
    · omega
    · exact hlarge hboot
  · intro hwindow
    rw [hwindow] at htable
    exact absurd htable (by simp; omega)

/-- The table that `mem_map_page` uses for a block of the heap. From `0xE0000000` on it takes the
page of 4 MiB there for one. -/
theorem memMapPage_heap_cases (h : s.Core L) (hopen : s.pmm.startByte ≤ bitmapLength) {i : Nat}
    (hi : i < 131072) {physAddr flags : Word} (hflags : frameOf flags = 0)
    (hcall : s.memMapPage L (heapBlockAddress i) physAddr flags = some t) :
    ∃ F m pmm, TableStep L s.memory s.pmm .kernel (heapBlockTable i) flags F m pmm ∧ t.Core L ∧
      (∀ D, F ≠ L.frame D) ∧
      t = { s with
        memory := synced L s.pageDirsUsed (heapBlockAddress i)
          (m.write F (ptIndex (heapBlockAddress i)) (physAddr ||| pageFlagPresent ||| flags))
        memNumVpages := s.memNumVpages + 1
        pmm := pmm } := by
  have hkernel := heapBlockAddress_ge hi
  by_cases hlarge : heapBlockTable i = 896
  swap
  · have howns := owns_heapBlockTable hi hlarge
    have hD : s.Edits L (heapBlockAddress i) .kernel := ⟨(if_pos hkernel).symm, howns⟩
    obtain ⟨F, m, pmm, hstep, rfl⟩ := memMapPage_cases h hD hflags hcall
    exact ⟨F, m, pmm, hstep, (hstep.core h howns hflags _ _ _).synced _, hstep.apart h howns, rfl⟩
  have hentry : s.memory L.kernelDirectory 896 = bootDirectory 896 :=
    h.sound.boot 896 (Or.inr (Or.inr rfl))
  have hapart := framebuffer_apart h hopen
  have hself : s.memory L.kernelDirectory 1023 = selfEntry L.kernelDirectory :=
    h.sound.self .kernel (Or.inl trivial)
  have hpresent : Has (s.memory L.kernelDirectory (heapBlockTable i)) pageFlagPresent := by
    rw [hlarge, hentry]
    decide
  have hframe : frameOf (s.memory (L.frame .kernel) (heapBlockTable i)) =
      frameOf (bootDirectory 896) := by
    rw [hlarge]
    exact congrArg frameOf hentry
  rw [← hframe] at hapart
  -- Nothing has to be done about the table.
  have htaken : (s.enter L (heapBlockAddress i)).ensureTable (heapBlockAddress i) flags =
      some { s with cr3 := L.kernelDirectory } := by
    rw [enter_eq, if_pos hkernel, ensureTable,
      recPageDir_eq (s := { s with cr3 := L.kernelDirectory }) rfl hself]
    exact if_pos hpresent
  have hwindow : recPageTable { s with cr3 := L.kernelDirectory } (pdIndex (heapBlockAddress i)) =
      frameOf (s.memory (L.frame .kernel) (heapBlockTable i)) := recPageTable_eq rfl rfl hself _
  rw [memMapPage, htaken] at hcall
  obtain rfl := Option.some.inj hcall
  rw [leave_eq (if_pos hkernel).symm]
  refine ⟨_, _, _, .present hpresent, ⟨h.current, ?_, h.below⟩, hapart, ?_⟩
  · refine Sound.synced (h.sound.of_dirs fun D k => ?_) _ _
    rw [setPage, hwindow]
    exact PhysicalMemory.write_of_ne _ (Or.inl (hapart D).symm)
  · simp only [setPage, hwindow]

/-- All frames of the allocator are in the bitmap, and frame zero is not among them. -/
structure Pooled (p : Pmm) : Prop where
  startByte_pos : 0 < p.startByte
  endByte_le : p.endByte ≤ bitmapLength

theorem Pooled.take {p : Pmm} (h : Pooled p) (f : Nat) : Pooled (p.take f) :=
  ⟨h.startByte_pos, h.endByte_le⟩

theorem TableStep.heapPage {k : Index} {flags : Word} {F : Frame} {m : PhysicalMemory} {pmm : Pmm}
    (hstep : TableStep L s.memory s.pmm .kernel k flags F m pmm) (h : s.Core L)
    (hpool : Pooled s.pmm) (hflags : frameOf flags = 0) :
    pmm.startByte = s.pmm.startByte ∧ pmm.endByte = s.pmm.endByte ∧
      (∀ i, Has (m L.kernelDirectory i) pageFlagPresent ↔
        i = k ∨ Has (s.memory L.kernelDirectory i) pageFlagPresent) ∧
      pmm.clearFrames = s.pmm.clearFrames -
        if Has (s.memory L.kernelDirectory k) pageFlagPresent then 0 else 1 := by
  have hpresent := (hstep.entry h hflags).2
  have hdirs : ∀ i, i ≠ k → m (L.frame .kernel) i = s.memory (L.frame .kernel) i := fun i hi =>
    hstep.dirs h (Or.inr hi)
  have hentries : ∀ i, Has (m L.kernelDirectory i) pageFlagPresent ↔
      i = k ∨ Has (s.memory L.kernelDirectory i) pageFlagPresent := fun i => by
    by_cases hi : i = k
    · rw [hi]
      exact iff_of_true hpresent (Or.inl rfl)
    · rw [show m L.kernelDirectory i = s.memory L.kernelDirectory i from hdirs i hi,
        or_iff_right hi]
  cases hstep with
  | present htable =>
      refine ⟨rfl, rfl, hentries, ?_⟩
      have hnone : (if Has (s.memory L.kernelDirectory k) pageFlagPresent then 0 else 1) = 0 :=
        if_pos htable
      rw [hnone, Nat.sub_zero]
  | created habsent ptPaddr pmm halloc =>
      have hclear := s.pmm.allocPageframe_clearFrames hpool.startByte_pos hpool.endByte_le
      rcases hclear with ⟨hnone, halloc'⟩ | ⟨f, -, -, -, hclear, halloc'⟩
      · obtain ⟨-, rfl⟩ := Prod.mk.inj (Option.some.inj (halloc.symm.trans halloc'))
        refine ⟨rfl, rfl, hentries, ?_⟩
        rw [hnone, Nat.zero_sub]
      · obtain ⟨-, rfl⟩ := Prod.mk.inj (Option.some.inj (halloc.symm.trans halloc'))
        refine ⟨Pmm.startByte_take _ _, Pmm.endByte_take _ _, hentries, ?_⟩
        have hone : (if Has (s.memory L.kernelDirectory k) pageFlagPresent then 0 else 1) = 1 :=
          if_neg habsent
        rw [hone, ← hclear, Nat.add_sub_cancel]

theorem exists_ensureTable (hpool : Pooled s.pmm) (virtAddr flags : Word) :
    ∃ t, s.ensureTable virtAddr flags = some t := by
  have halloc : ∃ addr pmm, s.pmm.allocPageframe = some (addr, pmm) := by
    rcases s.pmm.allocPageframe_clearFrames hpool.startByte_pos hpool.endByte_le with
      ⟨-, halloc⟩ | ⟨f, -, -, -, -, halloc⟩
    · exact ⟨_, _, halloc⟩
    · exact ⟨_, _, halloc⟩
  obtain ⟨addr, pmm, halloc⟩ := halloc
  rw [ensureTable]
  split
  · exact ⟨_, rfl⟩
  · rw [allocTable, halloc]
    exact ⟨_, rfl⟩

/-- A page of the heap can always be mapped. -/
theorem exists_memMapPage_heap (h : s.Core L) (hpool : Pooled s.pmm)
    (hopen : s.pmm.startByte ≤ bitmapLength) {i : Nat} (hi : i < 131072) {physAddr flags : Word}
    (hflags : frameOf flags = 0) :
    ∃ t, s.memMapPage L (heapBlockAddress i) physAddr flags = some t ∧
      HeapPage L s (heapBlockTable i) t := by
  have hentered : Pooled (s.enter L (heapBlockAddress i)).pmm := by
    rw [enter_eq]
    exact hpool
  obtain ⟨u, hu⟩ := exists_ensureTable hentered (heapBlockAddress i) flags
  have hcall : s.memMapPage L (heapBlockAddress i) physAddr flags =
      some ((u.setPage (heapBlockAddress i) (physAddr ||| pageFlagPresent ||| flags) 1).leave L
        (heapBlockAddress i) s.cr3) := by
    rw [memMapPage, hu]
    rfl
  refine ⟨_, hcall, ?_⟩
  obtain ⟨F, m, pmm, hstep, hcore, hF, hstate⟩ := memMapPage_heap_cases h hopen hi hflags hcall
  obtain ⟨hstart, hend, hpresent, hclear⟩ := hstep.heapPage h hpool hflags
  rw [hstate] at hcore ⊢
  refine ⟨hcore, hstart, hend, fun k => ?_, hclear⟩
  have hapart : L.kernelDirectory ≠ F := (hF .kernel).symm
  dsimp only
  rw [synced_kernelDirectory, PhysicalMemory.write_of_ne _ (Or.inl hapart)]
  exact hpresent k

/-- The frame `f` has been taken for block `i` of the heap, and the page is mapped. -/
structure HeapBlock (L : Layout) (s : Paging) (i f : Nat) (t : Paging) : Prop where
  pos : 0 < f
  lt : f < 8 * bitmapLength
  clear : s.pmm.used f = false
  core : Core L { s with pmm := s.pmm.take f }
  startByte_le : (s.pmm.take f).startByte ≤ bitmapLength
  alloc : s.pmm.allocPageframe = some (f * pageFrameSize, s.pmm.take f)
  clearFrames : (s.pmm.take f).clearFrames + 1 = s.pmm.clearFrames
  call : memMapPage L { s with pmm := s.pmm.take f } (heapBlockAddress i)
    (BitVec.ofNat 32 (f * pageFrameSize)) (BitVec.ofNat 32 heapPageFlags) = some t
  page : HeapPage L { s with pmm := s.pmm.take f } (heapBlockTable i) t

/-- The allocator has no frame, or the block is mapped. -/
theorem exists_heapBlock (h : s.Core L) (hpool : Pooled s.pmm) {i : Nat}
    (hlimit : 0 < s.pmm.clearFrames → i < 131072) :
    s.pmm.clearFrames = 0 ∧ s.pmm.allocPageframe = some (0, s.pmm) ∨
      ∃ f t, HeapBlock L s i f t := by
  have hend := hpool.endByte_le
  rcases s.pmm.allocPageframe_taken hpool.startByte_pos hend with
    hnone | ⟨f, hpos, hlow, hhigh, hclear, halloc⟩
  · exact Or.inl hnone
  right
  have htaken := Pmm.clearFrames_take hlow hhigh hclear
  have hcore : Core L { s with pmm := s.pmm.take f } := h.of_pmm (Pmm.startByte_take _ _)
  have hflags : frameOf (BitVec.ofNat 32 heapPageFlags) = 0 := by decide
  have hopen : (s.pmm.take f).startByte ≤ bitmapLength := by
    rw [Pmm.startByte_take]
    omega
  have hmapped : ∃ t, memMapPage L { s with pmm := s.pmm.take f } (heapBlockAddress i)
      (BitVec.ofNat 32 (f * pageFrameSize)) (BitVec.ofNat 32 heapPageFlags) = some t ∧
        HeapPage L { s with pmm := s.pmm.take f } (heapBlockTable i) t :=
    exists_memMapPage_heap hcore (hpool.take f) hopen (hlimit (by omega)) hflags
  obtain ⟨t, hcall, hpage⟩ := hmapped
  exact ⟨f, t, hpos, by omega, hclear, hcore, hopen, halloc, htaken, hcall, hpage⟩

namespace HeapBlock

variable {i f : Nat}

theorem pooled (h : HeapBlock L s i f t) (hpool : Pooled s.pmm) : Pooled t.pmm := by
  refine ⟨?_, ?_⟩
  · rw [h.page.startByte]
    exact hpool.startByte_pos
  · rw [h.page.endByte]
    exact hpool.endByte_le

theorem address_ne_zero (h : HeapBlock L s i f t) : f * pageFrameSize ≠ 0 := by
  have hpos := h.pos
  rw [pageFrameSize]
  omega

end HeapBlock

/-! ## The growth of the heap -/

/-- The heap over the paging: its blocks lie behind `HEAP_START_ADDRESS`. -/
structure HeapReady (L : Layout) (h : Heap) (s : Paging) : Prop where
  startAddress : h.startAddress = heapStartAddress
  heapSize : h.heapSize = h.totalBlocks * heapBlockSize
  core : s.Core L
  pool : Pooled s.pmm

/-- There is a frame for each block that is not clear. -/
def Backed (h : Heap) (s : Paging) : Prop :=
  h.totalBlocks + s.pmm.clearFrames ≤ 8 * bitmapLength

theorem ofNat_mod_heapBlockAddress (i : Nat) :
    BitVec.ofNat 32 ((heapStartAddress + i * heapBlockSize) % 2 ^ 32) = heapBlockAddress i := by
  apply BitVec.eq_of_toNat_eq
  rw [heapBlockAddress, BitVec.toNat_ofNat, BitVec.toNat_ofNat, Nat.mod_mod]

/-- One round of `heap_expand`: the allocator has no frame, or the block is appended. -/
theorem HeapReady.round {h : Heap} (hready : HeapReady L h s)
    (hlimit : 0 < s.pmm.clearFrames → h.totalBlocks < 131072) :
    (s.pmm.clearFrames = 0 ∧ (services L).pmmAllocPageframe (some s) = (0, some s)) ∨
      ∃ physAddr u t, (services L).pmmAllocPageframe (some s) = (physAddr, some u) ∧
        physAddr ≠ 0 ∧
        (services L).memMapPage ((heapStartAddress + h.heapSize) % 2 ^ 32) physAddr heapPageFlags
          (some u) = some t ∧
        HeapReady L h.appendBlock t ∧
        (∀ i, Has (t.memory L.kernelDirectory i) pageFlagPresent ↔
          i = heapBlockTable h.totalBlocks ∨
            Has (s.memory L.kernelDirectory i) pageFlagPresent) ∧
        0 < s.pmm.clearFrames ∧
        t.pmm.clearFrames = s.pmm.clearFrames - 1 -
          if Has (s.memory L.kernelDirectory (heapBlockTable h.totalBlocks)) pageFlagPresent then 0
          else 1 := by
  rcases exists_heapBlock hready.core hready.pool hlimit with ⟨hnone, halloc⟩ | ⟨f, t, hblock⟩
  · left
    exact ⟨hnone, services_alloc halloc⟩
  right
  have hclear := hblock.clearFrames
  have happended := Heap.appended_one hready.heapSize (hlimit (by omega))
  have htaken := hblock.page.clearFrames
  dsimp only at htaken
  refine ⟨f * pageFrameSize, { s with pmm := s.pmm.take f }, t, services_alloc hblock.alloc,
    hblock.address_ne_zero, ?_, ⟨happended.startAddress.trans hready.startAddress,
      happended.heapSize, hblock.page.core, hblock.pooled hready.pool⟩, hblock.page.present,
    by omega, by omega⟩
  rw [hready.heapSize]
  refine (congrArg (memMapPage L _ · _ _) (ofNat_mod_heapBlockAddress _)).trans ?_
  exact hblock.call

/-- `heap_expand` gets as many blocks as there are clear frames for. -/
theorem HeapReady.expandBlocks {h : Heap} (hready : HeapReady L h s) (hbacked : Backed h s)
    (left : Nat) :
    ∃ k h' t, Heap.expandBlocks (services L) h (some s) left = (decide (k = left), h', some t) ∧
      h.Appended k h' ∧ HeapReady L h' t ∧ Backed h' t ∧ (k = 0 → h' = h ∧ t = s) ∧
      ∀ j, j ≤ k ↔ j ≤ left ∧ heapDemand L s h.totalBlocks j ≤ s.pmm.clearFrames := by
  induction left generalizing h s with
  | zero =>
      refine ⟨0, h, s, rfl, Heap.Appended.refl hready.heapSize, hready, hbacked,
        fun _ => ⟨rfl, rfl⟩, fun j => ?_⟩
      rw [Nat.le_zero]
      refine (and_iff_left_of_imp fun hj => ?_).symm
      rw [hj]
      exact Nat.zero_le _
  | succ left ih =>
      have hlength : bitmapLength = 16384 := rfl
      unfold Backed at hbacked
      have hlimit : 0 < s.pmm.clearFrames → h.totalBlocks < 131072 := fun _ => by omega
      -- Either the frames do not suffice for one more block, or the heap has it now.
      rcases hready.round hlimit with ⟨hnone, halloc⟩ | ⟨physAddr, u, t, halloc, hne, hmap, ht,
        hpresent, hpos, hclear⟩
      · refine ⟨0, h, s, ?_, Heap.Appended.refl hready.heapSize, hready, hbacked,
          fun _ => ⟨rfl, rfl⟩, fun j => ?_⟩
        · exact Heap.expandBlocks_of_refused halloc left
        · cases j with
          | zero => exact iff_of_true le_rfl ⟨Nat.zero_le _, Nat.zero_le _⟩
          | succ j =>
              rw [heapDemand, hnone]
              omega
      have hone := Heap.appended_one hready.heapSize (hlimit hpos)
      have hbackedT : Backed h.appendBlock t := by
        unfold Backed
        rw [hone.totalBlocks, hclear]
        omega
      obtain ⟨k, h', t', hcall, happended, hready', hbacked', -, hcount⟩ := ih ht hbackedT
      refine ⟨k + 1, h', t', ?_, ?_, hready', hbacked',
        fun hzero => absurd hzero (Nat.succ_ne_zero k), fun j => ?_⟩
      · rw [Heap.expandBlocks_of_granted halloc hne hmap, hcall]
        simp
      · rw [Nat.add_comm]
        exact hone.trans happended
      cases j with
      | zero => exact iff_of_true (Nat.zero_le _) ⟨Nat.zero_le _, Nat.zero_le _⟩
      | succ j =>
          rw [Nat.succ_le_succ_iff, Nat.succ_le_succ_iff, hcount j, hone.totalBlocks, hclear]
          refine and_congr_right fun _ => ?_
          cases j with
          | zero =>
              rw [heapDemand, heapDemand]
              refine iff_of_true (Nat.zero_le _) ?_
              exact hpos
          | succ j =>
              rw [heapDemand, heapDemand, absentTables_succ hpresent]
              omega

/-! ## The start -/

/-- The mapping loop of `heap_init`. A round takes at most two frames. -/
theorem initBlocks_services {h : Heap} (hcore : s.Core L) (hpool : Pooled s.pmm) {i left : Nat}
    (hbound : i + left ≤ 131072) :
    ∃ entries t, Heap.initBlocks (services L) h (some s) i left =
        ({ h with entries := entries }, some t) ∧
      t.Core L ∧ Pooled t.pmm ∧ s.pmm.clearFrames ≤ t.pmm.clearFrames + 2 * left := by
  induction left generalizing h s i with
  | zero => exact ⟨h.entries, s, rfl, hcore, hpool, Nat.le_add_right _ _⟩
  | succ left ih =>
      rcases exists_heapBlock hcore hpool (i := i) fun _ => by omega with
        ⟨hnone, halloc⟩ | ⟨f, t, hblock⟩
      · refine ⟨h.entries, s, ?_, hcore, hpool, by omega⟩
        rw [Heap.initBlocks, services_alloc halloc]
        rfl
      obtain ⟨entries, u, hrest, hcore', hpool', hcount⟩ := ih
        (h := { h with entries := Function.update h.entries i heapBlockTableEntryFree })
        hblock.page.core (hblock.pooled hpool) (i := i + 1) (by omega)
      have hclear := hblock.clearFrames
      have htaken : t.pmm.clearFrames = (s.pmm.take f).clearFrames - _ := hblock.page.clearFrames
      refine ⟨entries, u, ?_, hcore', hpool', ?_⟩
      · rw [Heap.initBlocks_of_granted (services_alloc hblock.alloc) hblock.address_ne_zero
          hblock.call]
        exact hrest
      · split at htaken
        · omega
        · omega

/-- After `heap_init` the heap is ready, whether or not its four frames were granted. -/
theorem heapReady_init (hcore : s.Core L) (hpool : Pooled s.pmm) (memory : Bytes) :
    ∃ h t, Heap.init (services L) memory (some s) = (h, some t) ∧ HeapReady L h t ∧
      h.totalBlocks = 4 ∧ Backed h t ∧ s.pmm.clearFrames ≤ t.pmm.clearFrames + 8 := by
  have hblocks : ∃ entries t, Heap.initBlocks (services L)
      ⟨memory, heapStartAddress, 4, heapStartAddress, 0⟩ (some s) 0 4 =
        (⟨entries, heapStartAddress, 4, heapStartAddress, 0⟩, some t) ∧
      t.Core L ∧ Pooled t.pmm ∧ s.pmm.clearFrames ≤ t.pmm.clearFrames + 2 * 4 :=
    initBlocks_services hcore hpool (by decide)
  obtain ⟨entries, t, hloop, hcoreT, hpoolT, hcount⟩ := hblocks
  refine ⟨⟨entries, heapStartAddress, 4, heapStartAddress, initialHeapSize⟩, t, Heap.init_eq hloop,
    ⟨rfl, Nat.mul_comm heapBlockSize 4, hcoreT, hpoolT⟩, rfl, ?_, by omega⟩
  have hclear := t.pmm.clearFrames_le
  have hstart := hpoolT.startByte_pos
  have hend := hpoolT.endByte_le
  have hlength : bitmapLength = 16384 := rfl
  change 4 + t.pmm.clearFrames ≤ 8 * bitmapLength
  omega

end Paging

end Senob.Memory
