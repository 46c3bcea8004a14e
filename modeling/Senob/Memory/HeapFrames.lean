import Mathlib.Data.Finset.Card
import Senob.Memory.HeapFirstFit
import Senob.Memory.HeapWindow

/-!
# The frames of the kernel heap

Of the frames that the allocator has marked, some hold page tables and the others hold pages.
`heap_expand` takes a frame for each block. `heap_contract` drops blocks, and their frames stay
marked: `heap_expand` maps a page without `PAGE_FLAG_OWNER`, and `mem_unmap_page` gives back only
the frames of pages that have it.
-/

namespace Senob.Memory

open Senob.Foundation

namespace Paging

variable (L : Layout)

/-- An entry that a directory has for itself leads to the table at `F`. -/
def IsTable (m : PhysicalMemory) (F : Frame) : Prop :=
  ∃ D k, Owns D k ∧ Has (m (L.frame D) k) pageFlagPresent ∧ frameOf (m (L.frame D) k) = F

/-- The frames that the bitmap marks. -/
def markedFrames (p : Pmm) : Finset Nat :=
  (Finset.range (8 * bitmapLength)).filter fun f => p.used f = true

open scoped Classical in
/-- The marked frames that are used as page tables. -/
noncomputable def tableFrames (m : PhysicalMemory) (p : Pmm) : Finset Nat :=
  (markedFrames p).filter fun f => IsTable L m (BitVec.ofNat 20 f)

open scoped Classical in
/-- The marked frames that hold something else. -/
noncomputable def plainFrames (m : PhysicalMemory) (p : Pmm) : Finset Nat :=
  (markedFrames p).filter fun f => ¬ IsTable L m (BitVec.ofNat 20 f)

/-- All tables are in marked frames, but for those that did not get any. -/
structure Marked (m : PhysicalMemory) (p : Pmm) : Prop where
  zero : p.used 0 = false
  tables : ∀ F, IsTable L m F → p.used F.toNat = true ∨ F = 0

variable {L} {s t : Paging} {m m' : PhysicalMemory} {p : Pmm}

open scoped Classical in
theorem mem_plainFrames {f : Nat} : f ∈ plainFrames L m p ↔
    f < 8 * bitmapLength ∧ p.used f = true ∧ ¬ IsTable L m (BitVec.ofNat 20 f) := by
  rw [plainFrames, markedFrames, Finset.mem_filter, Finset.mem_filter, Finset.mem_range, and_assoc]

open scoped Classical in
theorem card_tableFrames_add (m : PhysicalMemory) (p : Pmm) :
    (tableFrames L m p).card + (plainFrames L m p).card = (markedFrames p).card :=
  Finset.card_filter_add_card_filter_not _

theorem isTable_congr (h : ∀ D k, Owns D k → m' (L.frame D) k = m (L.frame D) k) (F : Frame) :
    IsTable L m' F ↔ IsTable L m F := by
  constructor
  · rintro ⟨D, k, howns, hentry⟩
    exact ⟨D, k, howns, h D k howns ▸ hentry⟩
  · rintro ⟨D, k, howns, hentry⟩
    exact ⟨D, k, howns, (h D k howns).symm ▸ hentry⟩

theorem plainFrames_congr (h : ∀ F, IsTable L m' F ↔ IsTable L m F) (p : Pmm) :
    plainFrames L m' p = plainFrames L m p := by
  ext f
  rw [mem_plainFrames, mem_plainFrames, h]

theorem Marked.congr (h : Marked L m p) (hsame : ∀ F, IsTable L m' F ↔ IsTable L m F) :
    Marked L m' p :=
  ⟨h.zero, fun F hF => h.tables F ((hsame F).mp hF)⟩

theorem toNat_ofNat_frame {f : Nat} (hf : f < 8 * bitmapLength) :
    (BitVec.ofNat 20 f).toNat = f := by
  have hlength : bitmapLength = 16384 := rfl
  rw [BitVec.toNat_ofNat]
  omega

/-! ## A page -/

/-- A clear frame is no table. -/
theorem Marked.not_isTable (h : Marked L m p) {F : Frame} (hclear : p.used F.toNat = false)
    (hpos : F ≠ 0) : ¬ IsTable L m F := fun hF =>
  (h.tables F hF).elim (fun hused => Bool.false_ne_true (hclear.symm.trans hused)) hpos

theorem Marked.take (h : Marked L m p) {f : Nat} (hpos : 0 < f) : Marked L m (p.take f) := by
  refine ⟨?_, fun F hF => (h.tables F hF).imp_left fun hused => ?_⟩
  · rw [Pmm.used_take, if_neg (Nat.ne_of_lt hpos)]
    exact h.zero
  · rw [Pmm.used_take, hused, ite_self]

theorem Marked.plainFrames_take (h : Marked L m p) {f : Nat} (hpos : 0 < f)
    (hf : f < 8 * bitmapLength) (hclear : p.used f = false) :
    (plainFrames L m (p.take f)).card = (plainFrames L m p).card + 1 := by
  have hnot : f ∉ plainFrames L m p := fun hmem =>
    Bool.false_ne_true (hclear.symm.trans (mem_plainFrames.mp hmem).2.1)
  have htable : ¬ IsTable L m (BitVec.ofNat 20 f) := by
    refine h.not_isTable (by rwa [toNat_ofNat_frame hf]) fun hzero => ?_
    have hnat := congrArg BitVec.toNat hzero
    rw [toNat_ofNat_frame hf] at hnat
    exact Nat.ne_of_gt hpos hnat
  refine Eq.trans (congrArg Finset.card ?_) (Finset.card_insert_of_notMem hnot)
  ext g
  rw [Finset.mem_insert, mem_plainFrames, mem_plainFrames, Pmm.used_take]
  by_cases hg : g = f
  · subst hg
    simp [hf, htable]
  · simp [hg]

/-! ## A table -/

theorem TableStep.isTable_iff {D : Dir} {k : Index} {flags : Word} {ptPaddr : Nat} {pmm : Pmm}
    (h : s.Core L) (howns : Owns D k) (hflags : frameOf flags = 0)
    (habsent : ¬ Has (s.memory (L.frame D) k) pageFlagPresent)
    (halloc : s.pmm.allocPageframe = some (ptPaddr, pmm)) (F : Frame) :
    IsTable L ((s.memory.write (L.frame D) k (tableEntry ptPaddr flags)).zero
        (frameOf (BitVec.ofNat 32 ptPaddr))) F ↔
      F = frameOf (BitVec.ofNat 32 ptPaddr) ∨ IsTable L s.memory F := by
  have hstep : TableStep L s.memory s.pmm D k flags _ _ pmm :=
    .created habsent ptPaddr pmm halloc
  have hentry := hstep.entry h hflags
  constructor
  · rintro ⟨D', k', howns', hpresent, rfl⟩
    by_cases hslot : D' = D ∧ k' = k
    · obtain ⟨rfl, rfl⟩ := hslot
      exact Or.inl hentry.1
    · have hother := hstep.dirs h (not_and_or.mp hslot)
      rw [hother] at hpresent ⊢
      exact Or.inr ⟨D', k', howns', hpresent, rfl⟩
  · rintro (rfl | ⟨D', k', howns', hpresent, rfl⟩)
    · exact ⟨D, k, howns, hentry.2, hentry.1⟩
    · have hslot : ¬ (D' = D ∧ k' = k) := by
        rintro ⟨rfl, rfl⟩
        exact habsent hpresent
      refine ⟨D', k', howns', ?_⟩
      rw [hstep.dirs h (not_and_or.mp hslot)]
      exact ⟨hpresent, rfl⟩

/-- A frame that is taken for a table holds no page. -/
theorem Marked.tableStep {D : Dir} {k : Index} {flags : Word} {F : Frame} {m : PhysicalMemory}
    {pmm : Pmm} (hmarked : Marked L s.memory s.pmm) (h : s.Core L) (hpos : 0 < s.pmm.startByte)
    (hflags : frameOf flags = 0)
    (howns : ¬ Has (s.memory (L.frame D) k) pageFlagPresent → Owns D k)
    (hstep : TableStep L s.memory s.pmm D k flags F m pmm) :
    Marked L m pmm ∧ plainFrames L m pmm = plainFrames L s.memory s.pmm := by
  cases hstep with
  | present hpresent => exact ⟨hmarked, rfl⟩
  | created habsent ptPaddr pmm halloc =>
      have htable := TableStep.isTable_iff h (howns habsent) hflags habsent halloc
      rcases Pmm.allocPageframe_cases halloc with ⟨rfl, rfl⟩ | ⟨g, hlow, hhigh, hclear, hg, rfl⟩
      · -- The allocator is exhausted, and frame zero is used as a table.
        refine ⟨⟨hmarked.zero, fun F hF => ?_⟩, ?_⟩
        · exact ((htable F).mp hF).elim (fun heq => Or.inr heq) (hmarked.tables F)
        · ext f
          rw [mem_plainFrames, mem_plainFrames, htable]
          refine and_congr_right fun hf => and_congr_right fun hused => ?_
          rw [or_iff_right fun hzero => ?_]
          have hnat := congrArg BitVec.toNat hzero
          rw [toNat_ofNat_frame hf] at hnat
          obtain rfl : f = 0 := hnat
          exact Bool.false_ne_true (hmarked.zero.symm.trans hused)
      · rw [hg] at htable ⊢
        have hgpos : 0 < g.toNat := by omega
        refine ⟨⟨?_, fun F hF => ?_⟩, ?_⟩
        · exact (hmarked.take hgpos).zero
        · rcases (htable F).mp hF with rfl | hF
          · left
            rw [Pmm.used_take, if_pos rfl]
          · rcases hmarked.tables F hF with hused | rfl
            · left
              rw [Pmm.used_take, hused, ite_self]
            · exact Or.inr rfl
        · ext f
          rw [mem_plainFrames, mem_plainFrames, htable, Pmm.used_take]
          refine and_congr_right fun hf => ?_
          by_cases heq : f = g.toNat
          · subst heq
            simp [hclear]
          · have hne : BitVec.ofNat 20 f ≠ g := by
              rintro rfl
              exact heq (toNat_ofNat_frame hf).symm
            rw [if_neg heq, or_iff_right hne]

/-- What `mem_map_page` writes beside the entry of the directory is no entry of one. -/
theorem isTable_synced_write (used : Fin 256 → Bool) (virtAddr : Word) {F : Frame}
    (hF : ∀ D, F ≠ L.frame D) (j : Index) (e : Word) (G : Frame) :
    IsTable L (synced L used virtAddr (m.write F j e)) G ↔ IsTable L m G := by
  refine isTable_congr (fun D k howns => ?_) G
  rw [synced_owned _ _ _ howns, PhysicalMemory.write_of_ne _ (Or.inl (hF D).symm)]

/-- Mapping a block of the heap takes frames for tables only. -/
theorem Marked.heapPage (hmarked : Marked L s.memory s.pmm) (h : s.Core L) (hpool : Pooled s.pmm)
    {i : Nat} (hi : i < 131072) (hopen : s.pmm.startByte ≤ bitmapLength) {physAddr flags : Word}
    (hflags : frameOf flags = 0)
    (hcall : s.memMapPage L (heapBlockAddress i) physAddr flags = some t) :
    Marked L t.memory t.pmm ∧ plainFrames L t.memory t.pmm = plainFrames L s.memory s.pmm := by
  obtain ⟨F, m, pmm, hstep, -, hF, rfl⟩ := memMapPage_heap_cases h hopen hi hflags hcall
  have howns : ¬ Has (s.memory (L.frame .kernel) (heapBlockTable i)) pageFlagPresent →
      Owns .kernel (heapBlockTable i) := by
    intro habsent
    refine owns_heapBlockTable hi fun hlarge => habsent ?_
    have hentry : s.memory (L.frame .kernel) 896 = bootDirectory 896 :=
      h.sound.boot 896 (Or.inr (Or.inr rfl))
    rw [hlarge, hentry]
    decide
  obtain ⟨hnew, hsame⟩ := hmarked.tableStep h hpool.startByte_pos hflags howns hstep
  have htable : ∀ G, _ ↔ IsTable L m G :=
    isTable_synced_write s.pageDirsUsed (heapBlockAddress i) hF (ptIndex (heapBlockAddress i))
      (physAddr ||| pageFlagPresent ||| flags)
  exact ⟨hnew.congr htable, (plainFrames_congr htable pmm).trans hsame⟩

/-- A page that does not own its frame. -/
def Borrowed (L : Layout) (s : Paging) (virtAddr : Word) : Prop :=
  ¬ Has (s.memory (frameOf (s.memory L.kernelDirectory (pdIndex virtAddr))) (ptIndex virtAddr))
    pageFlagOwner

theorem not_has_owner_heapPage (f : Nat) :
    ¬ Has (BitVec.ofNat 32 (f * pageFrameSize) ||| pageFlagPresent |||
      BitVec.ofNat 32 heapPageFlags) pageFlagOwner := by
  have hbits : pageFlagPresent.getLsbD 9 = false ∧
      (BitVec.ofNat 32 heapPageFlags).getLsbD 9 = false := by decide
  have haligned : f * pageFrameSize % 4096 = 0 := Nat.mul_mod_left f 4096
  rw [has_owner, BitVec.getLsbD_or, BitVec.getLsbD_or, hbits.1, hbits.2,
    getLsbD_of_aligned haligned (show 9 < 12 by decide)]
  decide

/-- `heap_expand` does not pass `PAGE_FLAG_OWNER`. -/
theorem borrowed_heapPage (h : s.Core L) {i : Nat} (hi : i < 131072)
    (hopen : s.pmm.startByte ≤ bitmapLength) {f : Nat}
    (hcall : s.memMapPage L (heapBlockAddress i) (.ofNat 32 (f * pageFrameSize))
      (.ofNat 32 heapPageFlags) = some t) : t.Borrowed L (heapBlockAddress i) := by
  have hflags : frameOf (BitVec.ofNat 32 heapPageFlags) = 0 := by decide
  obtain ⟨F, m, pmm, hstep, -, hF, rfl⟩ := memMapPage_heap_cases h hopen hi hflags hcall
  have hentry : frameOf (m L.kernelDirectory (heapBlockTable i)) = F := (hstep.entry h hflags).1
  have hdir : L.kernelDirectory ≠ F := (hF .kernel).symm
  unfold Borrowed
  dsimp only
  rw [synced_kernelDirectory, PhysicalMemory.write_of_ne _ (Or.inl hdir)]
  unfold heapBlockTable at hentry
  rw [hentry, synced_apart _ _ _ hF, PhysicalMemory.write_self]
  exact not_has_owner_heapPage f

/-- A table that is destroyed was none of the other frames. -/
theorem plainFrames_freed {D : Dir} {k : Index} (howns : Owns D k)
    (hpresent : Has (m (L.frame D) k) pageFlagPresent) :
    plainFrames L (m.write (L.frame D) k 0) (p.freed (frameOf (m (L.frame D) k)).toNat) =
      plainFrames L m p := by
  ext f
  rw [mem_plainFrames, mem_plainFrames, Pmm.used_freed]
  refine and_congr_right fun hf => ?_
  by_cases heq : f = (frameOf (m (L.frame D) k)).toNat
  · subst heq
    have htable : IsTable L m (frameOf (m (L.frame D) k)) := ⟨D, k, howns, hpresent, rfl⟩
    simp [htable]
  · rw [if_neg heq]
    refine and_congr_right fun _ => not_congr ?_
    have hframe : ∀ D' k', frameOf (m (L.frame D') k') = BitVec.ofNat 20 f →
        L.frame D' ≠ L.frame D ∨ k' ≠ k := by
      intro D' k' hframe
      refine not_and_or.mp ?_
      rintro ⟨hD, rfl⟩
      rw [hD] at hframe
      exact heq (hframe ▸ (toNat_ofNat_frame hf).symm)
    constructor
    · rintro ⟨D', k', howns', hentry, hleads⟩
      have hother : L.frame D' ≠ L.frame D ∨ k' ≠ k := by
        refine not_and_or.mp ?_
        rintro ⟨hD, rfl⟩
        rw [hD, PhysicalMemory.write_self] at hentry
        exact hentry BitVec.zero_and
      rw [PhysicalMemory.write_of_ne _ hother] at hentry hleads
      exact ⟨D', k', howns', hentry, hleads⟩
    · rintro ⟨D', k', howns', hentry, hleads⟩
      refine ⟨D', k', howns', ?_⟩
      rw [PhysicalMemory.write_of_ne _ (hframe D' k' hleads)]
      exact ⟨hentry, hleads⟩

/-- Nothing is given back for a page that does not own its frame, except an empty table. -/
theorem plainFrames_memUnmapPage (h : s.Core L) {virtAddr pte : Word}
    (hD : s.Edits L virtAddr .kernel) (hborrowed : s.Borrowed L virtAddr)
    (hcall : s.memUnmapPage L virtAddr = some (pte, t)) :
    plainFrames L t.memory t.pmm = plainFrames L s.memory s.pmm := by
  rcases memUnmapPage_cases h hD hcall with ⟨-, rfl⟩ | ⟨hpresent, -, rfl, m, pmm, hstep, rfl⟩
  · rw [enter_eq]
  have hkept : releasePage pmm (s.memory
      (frameOf (s.memory (L.frame .kernel) (pdIndex virtAddr))) (ptIndex virtAddr)) = pmm :=
    if_neg hborrowed
  rw [hkept]
  have hF := h.sound.apart .kernel _ hD.owns
  have hwritten : ∀ G, IsTable L (s.memory.write (frameOf (s.memory (L.frame .kernel)
      (pdIndex virtAddr))) (ptIndex virtAddr) 0) G ↔ IsTable L s.memory G := by
    refine isTable_congr fun D k _ => ?_
    exact PhysicalMemory.write_of_ne _ (Or.inl (hF D).symm)
  have hsynced : plainFrames L (synced L s.pageDirsUsed virtAddr m) pmm = plainFrames L m pmm :=
    plainFrames_congr (isTable_congr fun D k howns => synced_owned _ _ _ howns) pmm
  refine hsynced.trans (Eq.trans ?_ (plainFrames_congr hwritten s.pmm))
  cases hstep with
  | kept => rfl
  | removed hempty howner =>
      refine plainFrames_freed hD.owns ?_
      rwa [PhysicalMemory.write_of_ne _ (Or.inl (hF .kernel).symm)]

end Paging

/-! ## The heap -/

namespace HeapFrames

open Paging
open HeapWindow (pooled_init pooled_step core_pooled_initMemory)

variable {L : Layout} {h : Heap} {p q : Paging} {b : Int}

variable (L) in
/-- The marked frames, less those used as page tables, less the blocks of the heap. -/
noncomputable def balance (h : Heap) (p : Paging) : Int :=
  (markedFrames p.pmm).card - (tableFrames L p.memory p.pmm).card - h.totalBlocks

theorem balance_eq (h : Heap) (p : Paging) :
    balance L h p = (plainFrames L p.memory p.pmm).card - h.totalBlocks := by
  have hcard := card_tableFrames_add (L := L) p.memory p.pmm
  rw [balance, ← hcard]
  push_cast
  omega

/-- The heap over the paging, with a given balance. -/
structure Steady (L : Layout) (b : Int) (h : Heap) (p : Paging) : Prop where
  ready : HeapReady L h p
  backed : Backed h p
  marked : Marked L p.memory p.pmm
  conserved : balance L h p = b

theorem Steady.withEntries (hp : Steady L b h p) (entries : Bytes) :
    Steady L b { h with entries := entries } p :=
  ⟨⟨hp.ready.startAddress, hp.ready.heapSize, hp.ready.core, hp.ready.pool⟩, hp.backed, hp.marked,
    hp.conserved⟩

/-- A block is appended with the frame of its page. -/
theorem Steady.append (hp : Steady L b h p) {physAddr : Nat} {env : Option Paging}
    (halloc : (services L).pmmAllocPageframe (some p) = (physAddr, env)) (hne : physAddr ≠ 0) :
    ∃ q, (services L).memMapPage ((heapStartAddress + h.heapSize) % 2 ^ 32) physAddr heapPageFlags
        env = some q ∧ Steady L b h.appendBlock q := by
  have hbacked := hp.backed
  have hlength : bitmapLength = 16384 := rfl
  unfold Backed at hbacked
  rcases exists_heapBlock hp.ready.core hp.ready.pool (i := h.totalBlocks) (fun _ => by omega) with
    ⟨-, hnone⟩ | ⟨f, q, hblock⟩
  · exact absurd (Prod.mk.inj (halloc.symm.trans (services_alloc hnone))).1 hne
  obtain ⟨rfl, rfl⟩ := Prod.mk.inj (halloc.symm.trans (services_alloc hblock.alloc))
  have hclear := hblock.clearFrames
  have hone := Heap.appended_one hp.ready.heapSize (show h.totalBlocks < 131072 by omega)
  have htaken := hblock.page.clearFrames
  dsimp only at htaken
  have hmarked : Marked L p.memory (p.pmm.take f) := hp.marked.take hblock.pos
  have hpage := Marked.heapPage (s := { p with pmm := p.pmm.take f }) hmarked hblock.core
    (hp.ready.pool.take f) (show h.totalBlocks < 131072 by omega) hblock.startByte_le (by decide)
    hblock.call
  refine ⟨q, ?_, ⟨⟨hone.startAddress.trans hp.ready.startAddress, hone.heapSize, hblock.page.core,
    hblock.pooled hp.ready.pool⟩, ?_, hpage.1, ?_⟩⟩
  · rw [hp.ready.heapSize]
    refine (congrArg (memMapPage L _ · _ _) (ofNat_mod_heapBlockAddress _)).trans ?_
    exact hblock.call
  · unfold Backed
    rw [hone.totalBlocks]
    omega
  · have hcount := hp.marked.plainFrames_take hblock.pos hblock.lt hblock.clear
    have hbalance := hp.conserved
    rw [balance_eq] at hbalance ⊢
    rw [hpage.2, hone.totalBlocks]
    dsimp only
    rw [hcount]
    push_cast
    omega

theorem Steady.expandBlocks (hp : Steady L b h p) (left : Nat) :
    ∃ q, (h.expandBlocks (services L) (some p) left).2.2 = some q ∧
      Steady L b (h.expandBlocks (services L) (some p) left).2.1 q := by
  have hrefused : ∀ {h env env'}, (∃ q, env = some q ∧ Steady L b h q) →
      (services L).pmmAllocPageframe env = (0, env') → ∃ q, env' = some q ∧ Steady L b h q := by
    rintro h env env' ⟨q, rfl, hq⟩ halloc
    rcases exists_heapBlock hq.ready.core hq.ready.pool (i := 0) (fun _ => by decide) with
      ⟨-, hnone⟩ | ⟨f, t, hblock⟩
    · exact ⟨q, (Prod.mk.inj (halloc.symm.trans (services_alloc hnone))).2, hq⟩
    · have hzero := (Prod.mk.inj (halloc.symm.trans (services_alloc hblock.alloc))).1
      exact absurd hzero.symm hblock.address_ne_zero
  refine Heap.expandBlocks_invariant (P := fun h env => ∃ q, env = some q ∧ Steady L b h q)
    hrefused ?_ ⟨p, rfl, hp⟩ left
  rintro h env physAddr env' ⟨q, rfl, hq⟩ hne halloc
  exact hq.append halloc hne

/-- `kmalloc` appends blocks if it must, and marks a run or returns the null pointer. -/
theorem Steady.malloc (hp : Steady L b h p) (size : Nat) :
    ∃ k h₁ q, h.Appended k h₁ ∧ Steady L b h₁ q ∧
      ((0 < Heap.decimalTotalBlocks size ∧ ∃ first,
          Heap.FirstFit h₁.entries (Heap.decimalTotalBlocks size) h₁.totalBlocks (some first) ∧
          h.kmalloc (services L) (some p) size = (heapStartAddress + first * heapBlockSize,
            { h₁ with entries := Heap.markRun h₁.entries first (Heap.decimalTotalBlocks size) },
            some q)) ∨
        h.kmalloc (services L) (some p) size = (0, h₁, some q)) := by
  have hrefl := Heap.Appended.refl hp.ready.heapSize
  have hlength : bitmapLength = 16384 := rfl
  rcases Nat.eq_zero_or_pos (Heap.decimalTotalBlocks size) with hzero | hpos
  · exact ⟨0, h, p, hrefl, hp, Or.inr (Heap.malloc_zero _ _ _ hzero)⟩
  cases hsearch : h.getStartBlock (Heap.decimalTotalBlocks size) with
  | some first =>
      have hfit := h.getStartBlock_firstFit hpos
      rw [hsearch] at hfit
      have hbacked := hp.backed
      unfold Backed at hbacked
      have hfirst := hfit.1
      exact ⟨0, h, p, hrefl, hp, Or.inl ⟨hpos, first, hfit,
        Heap.malloc_found hp.ready.startAddress (by omega) hsearch⟩⟩
  | none =>
      obtain ⟨k, h₁, q, hexpand, happended, -, hbacked, -, -⟩ :=
        hp.ready.expandBlocks hp.backed (Heap.decimalTotalBlocks size)
      have hsteady := hp.expandBlocks (Heap.decimalTotalBlocks size)
      rw [hexpand] at hsteady
      obtain ⟨q', heq, hq⟩ := hsteady
      obtain rfl := Option.some.inj heq
      refine ⟨k, h₁, q, happended, hq, ?_⟩
      by_cases hall : k = Heap.decimalTotalBlocks size
      · rw [decide_eq_true hall] at hexpand
        rw [hall] at happended
        obtain ⟨first, hfound, hfit⟩ := happended.exists_startBlock hpos
        unfold Backed at hbacked
        have hfirst := hfit.1
        exact Or.inl ⟨hpos, first, hfit, Heap.malloc_expanded hsearch hexpand
          hq.ready.startAddress (by omega) hfound⟩
      · rw [decide_eq_false hall] at hexpand
        exact Or.inr (Heap.malloc_exhausted hsearch hexpand)

/-! ## Runs -/

variable {s t : HeapHistory (Option Paging)}

variable (L) in
/-- The balance of a running kernel. -/
def Conserved (b : Int) (s : HeapHistory (Option Paging)) : Prop :=
  ∃ p, s.env = some p ∧ balance L s.heap p = b

/-- A `kfree` leaves the last block of the heap to another live allocation. -/
def KeepsLast (s : HeapHistory (Option Paging)) : HeapSession.Op → Prop
  | .kmalloc _ => True
  | .kfree ptr => ∃ a ∈ s.live, a.ptr ≠ ptr ∧ a.Covers (s.heap.totalBlocks - 1)

/-- Sizes are 32-bit words, and only live pointers are freed. -/
def Enabled (s : HeapHistory (Option Paging)) (op : HeapSession.Op) : Prop :=
  (s.session []).enabled op

structure Inv (L : Layout) (b : Int) (s : HeapHistory (Option Paging)) : Prop where
  wf : s.Wf
  steady : ∃ p, s.env = some p ∧ Steady L b s.heap p

theorem Inv.conserved (h : Inv L b s) : Conserved L b s := by
  obtain ⟨p, henv, hp⟩ := h.steady
  exact ⟨p, henv, hp.conserved⟩

theorem Inv.kmalloc (hs : Inv L b s) {size : Nat} (hsize : size < 2 ^ 32)
    (hstep : s.step (services L) (.kmalloc size) = some t) : Inv L b t := by
  obtain ⟨heap, env, live⟩ := s
  obtain ⟨p, rfl, hp⟩ := hs.steady
  have hwf := hs.wf
  obtain ⟨k, h₁, q, happended, hq, hresult⟩ := hp.malloc size
  have hlength : bitmapLength = 16384 := rfl
  have hbacked := hq.backed
  unfold Backed at hbacked
  have htotal : h₁.totalBlocks = heap.totalBlocks + k := happended.totalBlocks
  have hsupplied : (⟨heap, Heap.supply k, live⟩ : HeapSession).Wf := by
    refine ⟨hwf.startAddress, hwf.heapSize, ?_, hwf.placed, hwf.disjoint, hwf.run, hwf.free⟩
    rw [Heap.grants_supply]
    dsimp only
    omega
  have hgrown : (⟨h₁, [], live⟩ : HeapSession).Wf :=
    hsupplied.append happended (Heap.grants_supply k).symm
  rcases hresult with ⟨hpos, first, hfit, hcall⟩ | hcall
  · have hcount : Heap.decimalTotalBlocks size =
        (size + (heapBlockSize - 1)) / heapBlockSize := by
      rw [Heap.decimalTotalBlocks_eq hsize] at hpos ⊢
      split at hpos
      · rw [if_pos ‹_›]
        rfl
      · exact absurd hpos (lt_irrefl 0)
    obtain rfl := Option.some.inj ((HeapHistory.step_kmalloc hcall).symm.trans hstep)
    rw [if_neg (address_ne_zero first)]
    exact ⟨hgrown.mark hpos hfit.1 hfit.2.1 hcount, q, rfl, hq.withEntries _⟩
  · obtain rfl := Option.some.inj ((HeapHistory.step_kmalloc hcall).symm.trans hstep)
    exact ⟨hgrown, q, rfl, hq⟩

/-- If the last block is taken, no block is dropped. -/
theorem contract_of_taken {ε : Type*} (svc : PageServices ε) (env : ε) (hpos : 0 < h.totalBlocks)
    (htaken : h.entries (h.totalBlocks - 1) ≠ heapBlockTableEntryFree) :
    h.contract svc env = (h, env) := by
  obtain ⟨last, hlast⟩ := Nat.exists_eq_add_one.mpr hpos
  rw [hlast, Nat.add_sub_cancel] at htaken
  rw [Heap.contract, hlast, Heap.contractBlocks, if_neg htaken]

theorem Inv.kfree (hs : Inv L b s) {ptr : Nat} (hlive : Enabled s (.kfree ptr))
    (hkeeps : KeepsLast s (.kfree ptr))
    (hstep : s.step (services L) (.kfree ptr) = some t) : Inv L b t := by
  obtain ⟨c, hc, rfl⟩ := hlive
  obtain ⟨a, ha, hne, hcovers⟩ := hkeeps
  obtain ⟨p, henv, hp⟩ := hs.steady
  obtain ⟨-, hpos, hend⟩ := hs.wf.placed c hc
  obtain ⟨t', hstep', hwf⟩ := HeapHistory.Wf.kfree (services L) hs.wf hc
  obtain rfl := Option.some.inj (hstep.symm.trans hstep')
  have hapart : ¬ c.Covers (s.heap.totalBlocks - 1) := fun hfreed =>
    hs.wf.disjoint.forall ha hc (fun heq => hne (heq ▸ rfl)) _ ⟨hcovers, hfreed⟩
  have hmarked := hs.wf.markBlocksFree_apply hc (s.heap.totalBlocks - 1)
  rw [if_neg hapart] at hmarked
  have htaken : (s.heap.markBlocksFree (s.heap.addressToBlock c.ptr)).entries
      (s.heap.totalBlocks - 1) ≠ heapBlockTableEntryFree :=
    ne_of_eq_of_ne (hmarked.trans (hs.wf.run a ha _ hcovers)) (Heap.runEntry_ne_free _ _ _)
  have hcall : s.heap.kfree (services L) s.env c.ptr =
      (s.heap.markBlocksFree (s.heap.addressToBlock c.ptr), s.env) :=
    contract_of_taken _ _ (Nat.lt_of_lt_of_le (Nat.add_pos_right _ hpos) hend) htaken
  simp only [HeapHistory.step, hcall, Option.some.injEq] at hstep
  subst hstep
  exact ⟨hwf, p, henv, hp.withEntries _⟩

theorem Inv.step (hs : Inv L b s) {op : HeapSession.Op} (henabled : Enabled s op)
    (hkeeps : KeepsLast s op) (hstep : s.step (services L) op = some t) : Inv L b t := by
  cases op with
  | kmalloc size => exact hs.kmalloc henabled hstep
  | kfree ptr => exact hs.kfree henabled hkeeps hstep

/-! ## From the boot on -/

/-- `mem_map_page` keeps the tables in marked frames. -/
theorem marked_memMapPage (hmarked : Marked L p.memory p.pmm) (hcore : p.Core L)
    (hpos : 0 < p.pmm.startByte) {virtAddr physAddr flags : Word}
    (hordinary : p.Ordinary L virtAddr) (hflags : frameOf flags = 0)
    (hcall : p.memMapPage L virtAddr physAddr flags = some q) : Marked L q.memory q.pmm := by
  obtain ⟨D, hD⟩ := hcore.edits hordinary
  obtain ⟨F, m, pmm, hstep, rfl⟩ := memMapPage_cases hcore hD hflags hcall
  have hnew := (hmarked.tableStep hcore hpos hflags (fun _ => hD.owns) hstep).1
  exact hnew.congr (isTable_synced_write _ _ (hstep.apart hcore hD.owns) _ _)

theorem marked_mapNewFrame (hmarked : Marked L p.memory p.pmm) (hcore : p.Core L)
    (hpos : 0 < p.pmm.startByte) {virtAddr flags : Word}
    (henabled : (PagingCall.mapNewFrame virtAddr flags).Enabled L p)
    (hcall : (PagingCall.mapNewFrame virtAddr flags).step L p = some q) :
    Marked L q.memory q.pmm := by
  obtain ⟨⟨physAddr, pmm⟩, halloc, hcall⟩ := Option.bind_eq_some_iff.mp hcall
  have hcore' : Core L { p with pmm := pmm } := hcore.of_pmm (startByte_allocPageframe halloc)
  have htaken : Marked L p.memory pmm := by
    rcases Pmm.allocPageframe_cases halloc with ⟨-, rfl⟩ | ⟨f, hlow, -, -, -, rfl⟩
    · exact hmarked
    · exact hmarked.take (by omega)
  have hstart : 0 < pmm.startByte := by
    rwa [startByte_allocPageframe halloc]
  exact marked_memMapPage (p := { p with pmm := pmm }) htaken hcore' hstart henabled.1 henabled.2
    hcall

theorem marked_initMemory {m : PhysicalMemory} {memHigh physicalAllocstart : Nat}
    (hbehind : PagingCall.Behind L physicalAllocstart) (hfit : physicalAllocstart ≤ memHigh)
    (hsize : memHigh ≤ 0x20000000)
    (hboot : Paging.initMemory L m memHigh physicalAllocstart = some p) :
    Marked L p.memory p.pmm := by
  rw [PagingCall.initMemory_eq_runSteps] at hboot
  have hpool := pooled_init hbehind hfit hsize
  have hnone : ∀ F, ¬ IsTable L (initDirectories L m memHigh physicalAllocstart).memory F := by
    rintro F ⟨D, k, howns, hpresent, -⟩
    exact hpresent.ne_zero (PagingCall.initDirectories_owned m _ _ howns)
  have hinit : Marked L (initDirectories L m memHigh physicalAllocstart).memory
      (initDirectories L m memHigh physicalAllocstart).pmm :=
    ⟨Pmm.used_init _ _ _, fun F hF => absurd hF (hnone F)⟩
  refine (runSteps_of_mem (fun p : Paging => p.Core L ∧ Pooled p.pmm ∧ Marked L p.memory p.pmm)
    ?_ ⟨PagingCall.core_initDirectories hbehind m memHigh, hpool, hinit⟩ hboot).2.2
  rintro call hcall p q ⟨hcore, hpool, hmarked⟩ hstep
  unfold PagingCall.initCalls at hcall
  obtain ⟨i, hi, rfl⟩ := List.mem_map.mp hcall
  have henabled := PagingCall.enabled_initCall (L := L) (List.mem_range.mp hi) p
  exact ⟨PagingCall.core_step hcore henabled hstep, pooled_step hpool hstep,
    marked_mapNewFrame hmarked hcore hpool.startByte_pos henabled hstep⟩

/-- The mapping loop of `heap_init`, if there are frames for it. -/
theorem initBlocks_granted (hcore : p.Core L) (hpool : Pooled p.pmm)
    (hmarked : Marked L p.memory p.pmm) {i left : Nat} (hbound : i + left ≤ 131072)
    (hdemand : heapDemand L p i left ≤ p.pmm.clearFrames) :
    ∃ entries q, Heap.initBlocks (services L) h (some p) i left =
        ({ h with entries := entries }, some q) ∧ Marked L q.memory q.pmm ∧
      (∀ j, i ≤ j → j < i + left → entries j = heapBlockTableEntryFree) ∧
      (∀ j < i, entries j = h.entries j) ∧
      (0 < left → q.Borrowed L (heapBlockAddress (i + left - 1))) := by
  induction left generalizing h p i with
  | zero =>
      exact ⟨h.entries, p, rfl, hmarked, fun j _ _ => by omega, fun _ _ => rfl,
        fun hpos => absurd hpos (lt_irrefl 0)⟩
  | succ left ih =>
      rw [heapDemand] at hdemand
      rcases exists_heapBlock hcore hpool (i := i) fun _ => by omega with
        ⟨hnone, -⟩ | ⟨f, t, hblock⟩
      · omega
      have hclear := hblock.clearFrames
      have htaken := hblock.page.clearFrames
      dsimp only at htaken
      have hpage := Marked.heapPage (s := { p with pmm := p.pmm.take f })
        (hmarked.take hblock.pos) hblock.core (hpool.take f) (show i < 131072 by omega)
        hblock.startByte_le (by decide) hblock.call
      have hborrowed := borrowed_heapPage (s := { p with pmm := p.pmm.take f }) hblock.core
        (show i < 131072 by omega) hblock.startByte_le hblock.call
      -- The block takes a frame, and one more if its table was not there yet.
      have hrest : heapDemand L t (i + 1) left ≤ t.pmm.clearFrames := by
        cases left with
        | zero => exact Nat.zero_le _
        | succ left =>
            have hpresent : ∀ k, Has (t.memory L.kernelDirectory k) pageFlagPresent ↔
                k = heapBlockTable i ∨ Has (p.memory L.kernelDirectory k) pageFlagPresent :=
              hblock.page.present
            rw [absentTables_succ hpresent] at hdemand
            rw [heapDemand]
            omega
      obtain ⟨entries, q, hcall, hq, hnew, hold, hlast⟩ := ih
        (h := { h with entries := Function.update h.entries i heapBlockTableEntryFree })
        hblock.page.core (hblock.pooled hpool) hpage.1 (i := i + 1) (by omega) hrest
      refine ⟨entries, q, ?_, hq, fun j hlow hhigh => ?_, fun j hj => ?_, fun _ => ?_⟩
      · rw [Heap.initBlocks_of_granted (services_alloc hblock.alloc) hblock.address_ne_zero
          hblock.call]
        exact hcall
      · by_cases hj : j = i
        · rw [hj, hold i (Nat.lt_succ_self i)]
          exact Function.update_self _ _ _
        · exact hnew j (by omega) (by omega)
      · rw [hold j (by omega)]
        exact Function.update_of_ne (by omega) _ _
      · cases left with
        | zero =>
            obtain rfl : q = t := (Option.some.inj (Prod.mk.inj hcall).2).symm
            exact hborrowed
        | succ left =>
            rw [show i + (left + 1 + 1) - 1 = i + 1 + (left + 1) - 1 by omega]
            exact hlast (Nat.succ_pos left)

/-- The heap after `heap_init`, if there are frames for its four blocks. -/
theorem steady_init (hcore : p.Core L) (hpool : Pooled p.pmm) (hmarked : Marked L p.memory p.pmm)
    (hdemand : heapDemand L p 0 4 ≤ p.pmm.clearFrames) (memory : Bytes) :
    ∃ h q, Heap.init (services L) memory (some p) = (h, some q) ∧
      Inv L (balance L h q) ⟨h, some q, []⟩ ∧ h.totalBlocks = 4 ∧
      (∀ i < 4, h.entries i = heapBlockTableEntryFree) ∧ q.Borrowed L (heapBlockAddress 3) := by
  obtain ⟨h, q, hinit, hready, htotal, hbacked, -⟩ := heapReady_init hcore hpool memory
  obtain ⟨entries, q', hloop, hq, hfree, -, hlast⟩ := initBlocks_granted
    (h := ⟨memory, heapStartAddress, 4, heapStartAddress, 0⟩) hcore hpool hmarked
    (show 0 + 4 ≤ 131072 by decide) hdemand
  obtain ⟨rfl, heq⟩ := Prod.mk.inj (hinit.symm.trans (Heap.init_eq hloop))
  obtain rfl := Option.some.inj heq
  have hentries : ∀ i < 4, entries i = heapBlockTableEntryFree := fun i hi =>
    hfree i (Nat.zero_le i) (by omega)
  refine ⟨_, q, hinit, ⟨⟨rfl, hready.heapSize, ?_, nofun, List.Pairwise.nil, nofun,
    fun i hi _ => hentries i hi⟩, q, rfl, hready, hbacked, hq, rfl⟩, rfl, hentries,
    hlast (by decide)⟩
  change 4 + 0 ≤ 131072
  decide

/-- As long as every `kfree` leaves the last block to another allocation, the marked frames that
are no page tables are as many more as the blocks of the heap. -/
theorem always_conserved (m : PhysicalMemory) {memHigh physicalAllocstart : Nat}
    (hbehind : PagingCall.Behind L physicalAllocstart) (hfit : physicalAllocstart ≤ memHigh)
    (hsize : memHigh ≤ 0x20000000)
    (hboot : Paging.initMemory L m memHigh physicalAllocstart = some p)
    (hdemand : heapDemand L p 0 4 ≤ p.pmm.clearFrames) (memory : Bytes)
    (hinit : Heap.init (services L) memory (some p) = (h, some q)) {ops : List HeapSession.Op}
    (hops : Admissible (HeapHistory.step (services L)) (fun s op => Enabled s op ∧ KeepsLast s op)
      ⟨h, some q, []⟩ ops) :
    Always (HeapHistory.step (services L)) (Conserved L (balance L h q)) ⟨h, some q, []⟩ ops := by
  obtain ⟨hcore, hpool⟩ := core_pooled_initMemory hbehind hfit hsize hboot
  have hmarked := marked_initMemory hbehind hfit hsize hboot
  obtain ⟨h', q', hinit', hinv, -⟩ := steady_init hcore hpool hmarked hdemand memory
  obtain ⟨rfl, heq⟩ := Prod.mk.inj (hinit.symm.trans hinit')
  obtain rfl := Option.some.inj heq
  exact (always_of_invariant (Inv L (balance L h q))
    (fun _ _ _ hs hop hstep => hs.step hop.1 hop.2 hstep) hinv hops).imp
      fun _ hs => hs.conserved

/-! ## A dropped block -/

/-- The frame of a block that is dropped stays marked. -/
theorem balance_contract (hready : HeapReady L h p) {n : Nat} (htotal : h.totalBlocks = n + 1 + 1)
    (hn : n + 1 < 65536) (hfree : h.entries (n + 1) = heapBlockTableEntryFree)
    (htaken : h.entries n ≠ heapBlockTableEntryFree)
    (hborrowed : p.Borrowed L (heapBlockAddress (n + 1)))
    (hcall : (h.contract (services L) (some p)).2 = some q) :
    balance L (h.contract (services L) (some p)).1 q = balance L h p + 1 := by
  have hblocks : (n + 1 + 1 + 2 ^ 32 - 1) % 2 ^ 32 = n + 1 := by omega
  rw [Heap.contract, htotal, Heap.contractBlocks, if_pos hfree] at hcall ⊢
  dsimp only at hcall ⊢
  rw [Heap.contractBlocks, if_neg htaken, htotal, hblocks, hready.startAddress] at hcall ⊢
  dsimp only at hcall ⊢
  obtain ⟨⟨pte, q'⟩, hunmap, rfl⟩ := Option.map_eq_some_iff.mp hcall
  rw [ofNat_mod_heapBlockAddress] at hunmap
  have hD : p.Edits L (heapBlockAddress (n + 1)) .kernel := by
    refine ⟨(if_pos (heapBlockAddress_ge (by omega))).symm, owns_heapBlockTable (by omega) ?_⟩
    intro hlarge
    have htable := toNat_heapBlockTable (show n + 1 < 131072 by omega)
    rw [hlarge, show (896 : Index).toNat = 896 from rfl] at htable
    omega
  rw [balance_eq, balance_eq, plainFrames_memUnmapPage hready.core hD hborrowed hunmap, htotal]
  dsimp only
  push_cast
  omega

/-- A `kfree` that drops the last block alone breaks the balance. -/
theorem not_conserved_kfree {live : List Allocation} {c : Allocation} {n : Nat}
    (hwf : HeapHistory.Wf (⟨h, some p, live⟩ : HeapHistory (Option Paging)))
    (hp : Steady L b h p) (hc : c ∈ live) (htotal : h.totalBlocks = n + 1 + 1)
    (hn : n + 1 < 65536) (hlast : c.Covers (n + 1)) (hnot : ¬ c.Covers n)
    (htaken : h.entries n ≠ heapBlockTableEntryFree)
    (hborrowed : p.Borrowed L (heapBlockAddress (n + 1)))
    (hstep : HeapHistory.step (services L) ⟨h, some p, live⟩ (.kfree c.ptr) = some t) :
    ¬ Conserved L b t := by
  have hmarked : ∀ i, (h.markBlocksFree (h.addressToBlock c.ptr)).entries i =
      if c.Covers i then heapBlockTableEntryFree else h.entries i := hwf.markBlocksFree_apply hc
  have hfree := (hmarked (n + 1)).trans (if_pos hlast)
  have hbefore := (hmarked n).trans (if_neg hnot)
  obtain rfl := Option.some.inj hstep
  rintro ⟨q, henv, hbalance⟩
  have hfreed : Steady L b (h.markBlocksFree (h.addressToBlock c.ptr)) p := hp.withEntries _
  have hdropped := balance_contract hfreed.ready htotal hn hfree (ne_of_eq_of_ne hbefore htaken)
    hborrowed henv
  rw [hfreed.conserved] at hdropped
  have heq : b = b + 1 := hbalance.symm.trans hdropped
  omega

theorem getStartBlock_eq {n first : Nat} (hn : 0 < n)
    (hfit : Heap.FirstFit h.entries n h.totalBlocks (some first)) :
    h.getStartBlock n = some first := by
  have hfound := h.getStartBlock_firstFit hn
  cases hsearch : h.getStartBlock n with
  | none =>
      rw [hsearch] at hfound
      exact absurd hfit.2.1 (hfound first hfit.1)
  | some first' =>
      rw [hsearch] at hfound
      rcases Nat.lt_trichotomy first first' with hlt | rfl | hgt
      · exact absurd hfit.2.1 (hfound.2.2 first hlt)
      · rfl
      · exact absurd hfound.2.1 (hfit.2.2 first' hgt)

/-- The state after the two allocations, from four free blocks. -/
theorem runSteps_twoAllocations {ε : Type*} (svc : PageServices ε) (env : ε)
    (hstart : h.startAddress = heapStartAddress) (htotal : h.totalBlocks = 4)
    (hfree : ∀ i < 4, h.entries i = heapBlockTableEntryFree) :
    runSteps (HeapHistory.step svc) ⟨h, env, []⟩ [.kmalloc 0x3000, .kmalloc 0x1000] =
      some ⟨{ h with entries := Heap.markRun (Heap.markRun h.entries 0 3) 3 1 }, env,
        [⟨0xD0003000, 0x1000⟩, ⟨0xD0000000, 0x3000⟩]⟩ := by
  have hthree : Heap.decimalTotalBlocks 0x3000 = 3 := by decide
  have hone : Heap.decimalTotalBlocks 0x1000 = 1 := by decide
  have hfirst : h.getStartBlock (Heap.decimalTotalBlocks 0x3000) = some 0 := by
    rw [hthree]
    refine getStartBlock_eq (by decide) ⟨by omega, fun i hi => ?_, fun s hs => by omega⟩
    rw [Nat.zero_add]
    exact hfree i (by omega)
  have hsecond : Heap.getStartBlock { h with entries := Heap.markRun h.entries 0 3 }
      (Heap.decimalTotalBlocks 0x1000) = some 3 := by
    rw [hone]
    refine getStartBlock_eq (by decide) ⟨htotal.ge, fun i hi => ?_, fun s hs hrun => ?_⟩
    · obtain rfl : i = 0 := by omega
      dsimp only
      rw [Heap.markRun_apply, if_neg (by omega)]
      exact hfree 3 (by decide)
    · have hentry := hrun 0 (by decide)
      dsimp only at hentry
      rw [Heap.markRun_apply, if_pos (by omega)] at hentry
      exact Heap.runEntry_ne_free _ _ _ hentry
  have hcall : h.kmalloc svc env 0x3000 =
      (heapStartAddress, { h with entries := Heap.markRun h.entries 0 3 }, env) := by
    rw [← hthree]
    exact Heap.malloc_found hstart (by decide) hfirst
  have hcall' : Heap.kmalloc svc { h with entries := Heap.markRun h.entries 0 3 } env 0x1000 =
      (heapStartAddress + 3 * heapBlockSize,
        { h with entries := Heap.markRun (Heap.markRun h.entries 0 3) 3 1 }, env) := by
    rw [← hone]
    have hstart' : Heap.startAddress { h with entries := Heap.markRun h.entries 0 3 } =
        heapStartAddress := hstart
    exact Heap.malloc_found hstart' (show 3 ≤ 131072 by decide) hsecond
  have hstep := HeapHistory.step_kmalloc (s := ⟨h, env, []⟩) hcall
  have hstep' := HeapHistory.step_kmalloc (s := ⟨_, env, [⟨heapStartAddress, 0x3000⟩]⟩) hcall'
  rw [if_neg (by decide)] at hstep hstep'
  rw [runSteps_cons, hstep, Option.bind_some, runSteps_cons, hstep']
  rfl

/-- On a machine with 128 MiB there are frames for `heap_init`. -/
theorem exists_start : ∃ p h q,
    Paging.initMemory PagingCall.exampleLayout (fun _ _ => 0) 0x8000000 0x1000000 = some p ∧
      heapDemand PagingCall.exampleLayout p 0 4 ≤ p.pmm.clearFrames ∧
      Heap.init (services PagingCall.exampleLayout) (fun _ => 0) (some p) = (h, some q) ∧
      Inv PagingCall.exampleLayout (balance PagingCall.exampleLayout h q) ⟨h, some q, []⟩ ∧
      h.totalBlocks = 4 ∧ (∀ i < 4, h.entries i = heapBlockTableEntryFree) ∧
      q.Borrowed PagingCall.exampleLayout (heapBlockAddress 3) := by
  have hbehind := PagingCall.behind_exampleLayout
  obtain ⟨-, p, hrun, hround⟩ :=
    PagingCall.initMemory_ordered hbehind PagingCall.ample_example fun _ _ => 0
  rw [← PagingCall.initMemory_eq_runSteps] at hrun
  have hwindow : 8 * (Pmm.init 0x1000000 0x8000000).endByte = 32768 ∧
      8 * (Pmm.init 0x1000000 0x8000000).startByte = 4096 := by decide
  have hclear := clearFrames_ge_of_roomy hround.roomy
  rw [hwindow.1, hwindow.2] at hclear
  have hdemand : heapDemand PagingCall.exampleLayout p 0 4 ≤ p.pmm.clearFrames := by
    have htables := absentTables_le (L := PagingCall.exampleLayout) (s := p) 0 3
    calc heapDemand PagingCall.exampleLayout p 0 4
        = 4 + absentTables PagingCall.exampleLayout p 0 3 := rfl
      _ ≤ 7 := Nat.add_le_add_left htables 4
      _ ≤ p.pmm.clearFrames := le_trans (by decide) hclear
  obtain ⟨hcore, hpool⟩ := core_pooled_initMemory hbehind (by decide) (by decide) hrun
  have hmarked := marked_initMemory hbehind (by decide) (by decide) hrun
  obtain ⟨h, q, hinit, hstart⟩ := steady_init hcore hpool hmarked hdemand fun _ => 0
  exact ⟨p, h, q, hrun, hdemand, hinit, hstart⟩

/-- Sizes and pointers of the two allocations. -/
theorem admissible_twoAllocations {good : HeapHistory (Option Paging) → HeapSession.Op → Prop}
    (s : HeapHistory (Option Paging)) (hgood : ∀ s size, good s (.kmalloc size)) :
    Admissible (HeapHistory.step (services L)) (fun s op => Enabled s op ∧ good s op) s
      [.kmalloc 0x3000, .kmalloc 0x1000] :=
  ⟨⟨show 0x3000 < 2 ^ 32 by decide, hgood _ _⟩, fun _ _ =>
    ⟨⟨show 0x1000 < 2 ^ 32 by decide, hgood _ _⟩, fun _ _ => trivial⟩⟩

/-- Three blocks and one block are allocated, and the one is freed: its frame is lost. -/
theorem not_always_conserved :
    ¬ ∀ (L : Layout) (m : PhysicalMemory) (memHigh physicalAllocstart : Nat) (p q : Paging)
        (memory : Bytes) (h : Heap) (ops : List HeapSession.Op),
      PagingCall.Behind L physicalAllocstart → physicalAllocstart ≤ memHigh →
      memHigh ≤ 0x20000000 → Paging.initMemory L m memHigh physicalAllocstart = some p →
      heapDemand L p 0 4 ≤ p.pmm.clearFrames →
      Heap.init (services L) memory (some p) = (h, some q) →
      Admissible (HeapHistory.step (services L)) Enabled ⟨h, some q, []⟩ ops →
      Always (HeapHistory.step (services L)) (Conserved L (balance L h q)) ⟨h, some q, []⟩ ops := by
  intro hclaim
  obtain ⟨p, h, q, hboot, hdemand, hinit, hinv, htotal, hfree, hborrowed⟩ := exists_start
  have hstart : h.startAddress = heapStartAddress := hinv.wf.startAddress
  have hrun := runSteps_twoAllocations (services PagingCall.exampleLayout) (some q) hstart htotal
    hfree
  have htwo : Admissible (HeapHistory.step (services PagingCall.exampleLayout))
      (fun s op => Enabled s op ∧ KeepsLast s op) ⟨h, some q, []⟩
      [.kmalloc 0x3000, .kmalloc 0x1000] :=
    admissible_twoAllocations _ fun _ _ => trivial
  have hops : Admissible (HeapHistory.step (services PagingCall.exampleLayout)) Enabled
      ⟨h, some q, []⟩ ([.kmalloc 0x3000, .kmalloc 0x1000] ++ [.kfree 0xD0003000]) := by
    refine (htwo.imp fun _ _ hop => hop.1).append fun t ht => ⟨?_, fun _ _ => trivial⟩
    obtain rfl := Option.some.inj (hrun.symm.trans ht)
    exact ⟨⟨0xD0003000, 0x1000⟩, List.mem_cons_self, rfl⟩
  have hafter := (hclaim _ _ _ _ p q (fun _ => 0) h _ PagingCall.behind_exampleLayout (by decide)
    (by decide) hboot hdemand hinit hops).after hrun
  -- The heap after the allocations, with block 3 as the last one.
  have hu := runSteps_invariant (Inv PagingCall.exampleLayout _)
    (fun _ _ _ hs hop hstep => hs.step hop.1 hop.2 hstep) hinv htwo hrun
  obtain ⟨q', hq', hsteady⟩ := hu.steady
  obtain rfl := Option.some.inj hq'
  have htaken : Heap.markRun (Heap.markRun h.entries 0 3) 3 1 2 ≠ heapBlockTableEntryFree := by
    rw [Heap.markRun_apply, if_neg (by omega), Heap.markRun_apply, if_pos (by omega)]
    exact Heap.runEntry_ne_free _ _ _
  exact not_conserved_kfree (c := ⟨0xD0003000, 0x1000⟩) hu.wf hsteady List.mem_cons_self htotal
    (by decide) (by decide) (by decide) htaken hborrowed rfl (hafter.2 _ rfl).head

theorem always_conserved_twoAllocations : ∃ p h q,
    Paging.initMemory PagingCall.exampleLayout (fun _ _ => 0) 0x8000000 0x1000000 = some p ∧
      Heap.init (services PagingCall.exampleLayout) (fun _ => 0) (some p) = (h, some q) ∧
      Always (HeapHistory.step (services PagingCall.exampleLayout))
        (Conserved PagingCall.exampleLayout (balance PagingCall.exampleLayout h q))
        ⟨h, some q, []⟩ ([.kmalloc 0x3000, .kmalloc 0x1000] ++ [.kfree 0xD0000000]) := by
  obtain ⟨p, h, q, hboot, hdemand, hinit, hinv, htotal, hfree, -⟩ := exists_start
  have hstart : h.startAddress = heapStartAddress := hinv.wf.startAddress
  have hrun := runSteps_twoAllocations (services PagingCall.exampleLayout) (some q) hstart htotal
    hfree
  refine ⟨p, h, q, hboot, hinit, always_conserved _ PagingCall.behind_exampleLayout (by decide)
    (by decide) hboot hdemand _ hinit ?_⟩
  refine (admissible_twoAllocations _ fun _ _ => trivial).append fun t ht =>
    ⟨⟨?_, ?_⟩, fun _ _ => trivial⟩
  · obtain rfl := Option.some.inj (hrun.symm.trans ht)
    exact ⟨⟨0xD0000000, 0x3000⟩, List.mem_cons_of_mem _ List.mem_cons_self, rfl⟩
  · obtain rfl := Option.some.inj (hrun.symm.trans ht)
    refine ⟨⟨0xD0003000, 0x1000⟩, List.mem_cons_self, by decide, ?_⟩
    dsimp only
    rw [htotal]
    decide

end HeapFrames

end Senob.Memory
