import Senob.Foundation.Run
import Senob.Memory.PagingSpec

/-!
# The outcomes of the paging functions

What each function of `paging.c` can do to a state in which the directories are sound, in
terms of the directory that it edits. The invariants of the following modules are derived
from these cases alone.
-/

namespace Senob.Memory

open Senob.Foundation

/-! ## Frames of the allocator -/

namespace Pmm

variable {p p' : Pmm}

/-- `pmm_alloc_pageframe` fails with zero, or takes a clear frame of its window. -/
theorem allocPageframe_cases {addr : Nat} (h : p.allocPageframe = some (addr, p')) :
    (addr = 0 ∧ p' = p) ∨
      ∃ f : Frame, 8 * p.startByte ≤ f.toNat ∧ f.toNat < 8 * bitmapLength ∧
        p.used f.toNat = false ∧ frameOf (BitVec.ofNat 32 addr) = f ∧ p' = p.take f.toNat := by
  have hlength : bitmapLength = 16384 := rfl
  rcases p.scanBytes_outcome p.startByte (p.endByte - p.startByte) with
    ⟨f, hlow, -, hlength, hclear, -, hresult⟩ | ⟨-, hresult⟩
  · right
    have hcall := h.symm.trans hresult
    obtain ⟨rfl, rfl⟩ := Prod.mk.inj (Option.some.inj hcall)
    have hf : (BitVec.ofNat 20 f).toNat = f := Nat.mod_eq_of_lt (by omega)
    refine ⟨BitVec.ofNat 20 f, ?_⟩
    rw [hf]
    refine ⟨hlow, hlength, hclear, ?_, rfl⟩
    apply BitVec.eq_of_toNat_eq
    rw [toNat_frameOf, BitVec.toNat_ofNat, hf, pageFrameSize]
    omega
  · left
    have hcall := h.symm.trans hresult
    split at hcall
    next _ => exact Prod.mk.inj (Option.some.inj hcall)
    next _ => cases hcall

end Pmm

namespace Paging

variable {L : Layout} {s t : Paging}

theorem freeFrame_cases {e : Word} (h : s.freeFrame e = some t) :
    (frameOf e).toNat / 8 < bitmapLength ∧ t = { s with pmm := s.pmm.freed (frameOf e).toNat } := by
  have haddr : (pPhysAddr e).toNat / pageFrameSize = (frameOf e).toNat := pPhysAddr_div e
  unfold freeFrame at h
  obtain ⟨pmm, hfree, hstate⟩ := Option.bind_eq_some_iff.mp h
  obtain ⟨hbound, rfl⟩ := Pmm.freePageframe_cases hfree
  rw [haddr] at hbound hstate
  exact ⟨hbound, (Option.some.inj hstate).symm⟩

/-! ## Sound directories -/

/-- The directory may be current or is kept in step with the kernel's. -/
def InUse (s : Paging) : Dir → Prop
  | .kernel => True
  | .user i => s.pageDirsUsed i = true

/-- The entries that a directory has for itself, rather than a copy of the kernel's, a page
of 4 MiB or the window. -/
def Owns : Dir → Index → Prop
  | .kernel, k => ¬ IsBoot k ∧ k ≠ 1023
  | .user _, k => k.toNat < 768

theorem Owns.ne_window {D : Dir} {k : Index} (h : Owns D k) : k ≠ 1023 := by
  cases D with
  | kernel => exact h.2
  | user i =>
      have hlow : k.toNat < 768 := h
      rintro rfl
      exact absurd hlow (by decide)

/-- The memory `m` is one of sound directories, of which `live` can be reached: these map
themselves, and the entries that are followed lead out of the directories. -/
structure Sound (L : Layout) (m : PhysicalMemory) (live : Dir → Prop) : Prop where
  self : ∀ D, live D → m (L.frame D) 1023 = selfEntry (L.frame D)
  apart : ∀ D k, Owns D k → ∀ D', frameOf (m (L.frame D) k) ≠ L.frame D'
  boot : ∀ k, IsBoot k → m L.kernelDirectory k = bootDirectory k

/-- A directory that is current or in use. -/
def Live (L : Layout) (s : Paging) (D : Dir) : Prop := s.InUse D ∨ s.cr3 = L.frame D

structure Core (L : Layout) (s : Paging) : Prop where
  current : ∃ D, s.cr3 = L.frame D
  sound : Sound L s.memory (s.Live L)
  /-- The allocator hands out frames behind the kernel's image. -/
  below : ∀ D, (L.frame D).toNat < 8 * s.pmm.startByte

/-- The function edits the entry of `virtAddr` in directory `D`. -/
structure Edits (L : Layout) (s : Paging) (virtAddr : Word) (D : Dir) : Prop where
  frame : L.frame D = if virtAddr ≥ kernelStart then L.kernelDirectory else s.cr3
  owns : Owns D (pdIndex virtAddr)

/-- The address is below the window, and its entry is not one of those of `boot.s`. -/
def Ordinary (L : Layout) (s : Paging) (virtAddr : Word) : Prop :=
  virtAddr < 0xFFC00000 ∧
    (virtAddr ≥ kernelStart ∨ s.cr3 = L.kernelDirectory → ¬ IsBoot (pdIndex virtAddr))

theorem pdIndex_ne_window {virtAddr : Word} (h : virtAddr < 0xFFC00000) :
    pdIndex virtAddr ≠ 1023 := by
  intro heq
  have hnat := congrArg BitVec.toNat heq
  rw [toNat_pdIndex, show (1023 : Index).toNat = 1023 from rfl] at hnat
  have hlt : virtAddr.toNat < (0xFFC00000 : Word).toNat := BitVec.lt_def.mp h
  rw [show (0xFFC00000 : Word).toNat = 1023 * 2 ^ 22 from rfl] at hlt
  omega

theorem Core.edits (h : s.Core L) {virtAddr : Word} (hordinary : s.Ordinary L virtAddr) :
    ∃ D, s.Edits L virtAddr D := by
  obtain ⟨hwindow, hboot⟩ := hordinary
  have hne := pdIndex_ne_window hwindow
  by_cases hkernel : virtAddr ≥ kernelStart
  · exact ⟨.kernel, by rw [if_pos hkernel]; rfl, hboot (Or.inl hkernel), hne⟩
  · obtain ⟨D, hD⟩ := h.current
    refine ⟨D, by rw [if_neg hkernel, hD], ?_⟩
    cases D with
    | kernel => exact ⟨hboot (Or.inr hD), hne⟩
    | user i => exact Nat.lt_of_not_le fun hle => hkernel ((kernelStart_le_iff virtAddr).mpr hle)

theorem Edits.live {virtAddr : Word} {D : Dir} (h : s.Edits L virtAddr D) : s.Live L D := by
  have hframe := h.frame
  by_cases hkernel : virtAddr ≥ kernelStart
  · rw [if_pos hkernel] at hframe
    obtain rfl : D = .kernel := L.frame_injective hframe
    exact Or.inl trivial
  · rw [if_neg hkernel] at hframe
    exact Or.inr hframe.symm

/-! ## The recursive window -/

theorem recPageTable_eq {dir : Frame} {m : PhysicalMemory} (hcr3 : s.cr3 = dir)
    (hmemory : s.memory = m) (hself : m dir 1023 = selfEntry dir) (k : Index) :
    s.recPageTable k = frameOf (m dir k) := by
  rw [recPageTable, hcr3, hmemory, hself, frameOf_selfEntry]

theorem recPageDir_eq {dir : Frame} (hcr3 : s.cr3 = dir)
    (hself : s.memory dir 1023 = selfEntry dir) : s.recPageDir = dir := by
  rw [recPageDir, recPageTable_eq hcr3 rfl hself, hself, frameOf_selfEntry]

/-- The memory after the last steps of `mem_map_page` and `mem_unmap_page`. -/
def synced (L : Layout) (used : Fin 256 → Bool) (virtAddr : Word) (m : PhysicalMemory) :
    PhysicalMemory :=
  if virtAddr ≥ kernelStart then syncKernelHalves L used m else m

theorem enter_eq (virtAddr : Word) :
    s.enter L virtAddr =
      { s with cr3 := if virtAddr ≥ kernelStart then L.kernelDirectory else s.cr3 } := by
  unfold enter memChangePageDirectory
  by_cases hkernel : virtAddr ≥ kernelStart
  · rw [if_pos hkernel, if_pos hkernel]
    by_cases hsame : s.cr3 = L.kernelDirectory
    · rw [if_neg (not_not.mpr hsame), ← hsame]
    · rw [if_pos hsame]
  · rw [if_neg hkernel, if_neg hkernel]

theorem leave_eq {virtAddr : Word} {prevPageDir : Frame}
    (h : s.cr3 = if virtAddr ≥ kernelStart then L.kernelDirectory else prevPageDir) :
    s.leave L virtAddr prevPageDir =
      { s with memory := synced L s.pageDirsUsed virtAddr s.memory, cr3 := prevPageDir } := by
  unfold leave memChangePageDirectory syncPageDirs synced
  by_cases hkernel : virtAddr ≥ kernelStart
  · rw [if_pos hkernel] at h
    rw [if_pos hkernel, if_pos hkernel]
    by_cases hsame : prevPageDir = L.kernelDirectory
    · rw [if_neg (not_not.mpr hsame), hsame, ← h]
    · rw [if_pos hsame]
  · rw [if_neg hkernel] at h
    rw [if_neg hkernel, if_neg hkernel, ← h]

/-- The state in which the tables are edited is as sound as the one before. -/
theorem Core.entered (h : s.Core L) {virtAddr : Word} {D : Dir} (hD : s.Edits L virtAddr D) :
    (s.enter L virtAddr).Core L := by
  rw [enter_eq]
  refine ⟨⟨D, hD.frame.symm⟩, ⟨fun D' hD' => h.sound.self D' ?_, h.sound.apart, h.sound.boot⟩,
    h.below⟩
  rcases hD' with huse | hcr3
  · exact Or.inl huse
  · exact L.frame_injective (hcr3.symm.trans hD.frame.symm) ▸ hD.live

theorem Edits.enter_cr3 {virtAddr : Word} {D : Dir} (hD : s.Edits L virtAddr D) :
    (s.enter L virtAddr).cr3 = L.frame D := by
  rw [enter_eq]
  exact hD.frame.symm

/-! ## Mapping -/

/-- What `mem_map_page` does about the table in entry `k` of directory `D`: it takes the one
that is there, or makes one from a frame of the allocator. The results are the frame of the
table, the memory and the allocator. -/
inductive TableStep (L : Layout) (m : PhysicalMemory) (pmm : Pmm) (D : Dir) (k : Index)
    (flags : Word) : Frame → PhysicalMemory → Pmm → Prop
  | present (hpresent : Has (m (L.frame D) k) pageFlagPresent) :
      TableStep L m pmm D k flags (frameOf (m (L.frame D) k)) m pmm
  | created (habsent : ¬ Has (m (L.frame D) k) pageFlagPresent) (ptPaddr : Nat) (pmm' : Pmm)
      (halloc : pmm.allocPageframe = some (ptPaddr, pmm')) :
      TableStep L m pmm D k flags (frameOf (BitVec.ofNat 32 ptPaddr))
        ((m.write (L.frame D) k (tableEntry ptPaddr flags)).zero
          (frameOf (BitVec.ofNat 32 ptPaddr))) pmm'

theorem frameOf_tableEntry {ptPaddr : Nat} {flags : Word} (hflags : frameOf flags = 0) :
    frameOf (tableEntry ptPaddr flags) = frameOf (BitVec.ofNat 32 ptPaddr) := by
  simp [tableEntry, frameOf_or, hflags]

/-- The allocator has no frame of a directory. -/
theorem Core.alloc_apart (h : s.Core L) {addr : Nat} {pmm : Pmm}
    (halloc : s.pmm.allocPageframe = some (addr, pmm)) (D : Dir) :
    frameOf (BitVec.ofNat 32 addr) ≠ L.frame D := by
  rcases Pmm.allocPageframe_cases halloc with ⟨rfl, -⟩ | ⟨f, hlow, -, -, hf, -⟩
  · exact fun heq => L.frame_ne_zero D (heq.symm.trans frameOf_zero)
  · intro heq
    have hbelow := h.below D
    rw [← heq, hf] at hbelow
    omega

namespace TableStep

variable {D : Dir} {k : Index} {flags : Word} {F : Frame} {m : PhysicalMemory} {pmm : Pmm}

/-- The table that is used is not a directory. -/
theorem apart (hstep : TableStep L s.memory s.pmm D k flags F m pmm) (h : s.Core L)
    (hk : Owns D k) (D' : Dir) : F ≠ L.frame D' := by
  cases hstep with
  | present hpresent => exact h.sound.apart D k hk D'
  | created habsent ptPaddr pmm halloc => exact h.alloc_apart halloc D'

/-- Afterwards the entry leads to the table. -/
theorem entry (hstep : TableStep L s.memory s.pmm D k flags F m pmm) (h : s.Core L)
    (hflags : frameOf flags = 0) :
    frameOf (m (L.frame D) k) = F ∧ Has (m (L.frame D) k) pageFlagPresent := by
  cases hstep with
  | present hpresent => exact ⟨rfl, hpresent⟩
  | created habsent ptPaddr pmm halloc =>
      rw [PhysicalMemory.zero_of_ne _ (h.alloc_apart halloc D).symm, PhysicalMemory.write_self]
      refine ⟨frameOf_tableEntry hflags, ?_⟩
      have hbit : pageFlagPresent.getLsbD 0 = true := by decide
      simp [tableEntry, hbit]

/-- Every other entry of a directory is as before. -/
theorem dirs (hstep : TableStep L s.memory s.pmm D k flags F m pmm) (h : s.Core L) {D' : Dir}
    {i : Index} (hne : D' ≠ D ∨ i ≠ k) : m (L.frame D') i = s.memory (L.frame D') i := by
  cases hstep with
  | present hpresent => rfl
  | created habsent ptPaddr pmm halloc =>
      rw [PhysicalMemory.zero_of_ne _ (h.alloc_apart halloc D').symm,
        PhysicalMemory.write_of_ne]
      exact hne.imp_left fun hD' heq => hD' (L.frame_injective heq)

end TableStep

theorem ensureTable_cases (h : s.Core L) {virtAddr flags : Word} {D : Dir}
    (hcr3 : s.cr3 = L.frame D) (hk : Owns D (pdIndex virtAddr)) (hflags : frameOf flags = 0)
    (hcall : s.ensureTable virtAddr flags = some t) :
    ∃ F m pmm, TableStep L s.memory s.pmm D (pdIndex virtAddr) flags F m pmm ∧
      t = { s with memory := m, pmm := pmm } ∧ t.recPageTable (pdIndex virtAddr) = F := by
  have hself := h.sound.self D (Or.inr hcr3)
  have hdir := recPageDir_eq hcr3 hself
  unfold ensureTable at hcall
  rw [hdir] at hcall
  by_cases hpresent : Has (s.memory (L.frame D) (pdIndex virtAddr)) pageFlagPresent
  · rw [if_pos hpresent] at hcall
    obtain rfl := Option.some.inj hcall
    exact ⟨_, _, _, .present hpresent, rfl, recPageTable_eq hcr3 rfl hself _⟩
  · rw [if_neg hpresent] at hcall
    unfold allocTable at hcall
    obtain ⟨⟨ptPaddr, pmm⟩, halloc, hcall⟩ := Option.bind_eq_some_iff.mp hcall
    have hstep : TableStep L s.memory s.pmm D (pdIndex virtAddr) flags _ _ pmm :=
      .created hpresent ptPaddr pmm halloc
    have hcall := Option.some.inj hcall
    simp only [hdir] at hcall
    -- The zeroed table is the one that the new entry shows in the window.
    have hselfU : s.memory.write (L.frame D) (pdIndex virtAddr) (tableEntry ptPaddr flags)
        (L.frame D) 1023 = selfEntry (L.frame D) := by
      rw [PhysicalMemory.write_of_ne _ (Or.inr hk.ne_window.symm), hself]
    have hwindow : recPageTable
        { s with
          memory := s.memory.write (L.frame D) (pdIndex virtAddr) (tableEntry ptPaddr flags)
          pmm := pmm } (pdIndex virtAddr) = frameOf (BitVec.ofNat 32 ptPaddr) := by
      refine (recPageTable_eq ?_ rfl hselfU _).trans ?_
      · exact hcr3
      · exact (congrArg frameOf (PhysicalMemory.write_self _)).trans (frameOf_tableEntry hflags)
    rw [hwindow] at hcall
    refine ⟨_, _, _, hstep, hcall.symm, ?_⟩
    have hselfT := (hstep.dirs h (Or.inr hk.ne_window.symm)).trans hself
    rw [← hcall]
    refine (recPageTable_eq ?_ rfl hselfT _).trans (hstep.entry h hflags).1
    exact hcr3

/-- What `mem_map_page` does. -/
theorem memMapPage_cases (h : s.Core L) {virtAddr physAddr flags : Word} {D : Dir}
    (hD : s.Edits L virtAddr D) (hflags : frameOf flags = 0)
    (hcall : s.memMapPage L virtAddr physAddr flags = some t) :
    ∃ F m pmm, TableStep L s.memory s.pmm D (pdIndex virtAddr) flags F m pmm ∧
      t = { s with
        memory := synced L s.pageDirsUsed virtAddr
          (m.write F (ptIndex virtAddr) (physAddr ||| pageFlagPresent ||| flags))
        memNumVpages := s.memNumVpages + 1
        pmm := pmm } := by
  unfold memMapPage at hcall
  obtain ⟨table, htable, hcall⟩ := Option.bind_eq_some_iff.mp hcall
  obtain ⟨F, m, pmm, hstep, rfl, hF⟩ :=
    ensureTable_cases (h.entered hD) hD.enter_cr3 hD.owns hflags htable
  rw [enter_eq] at hstep
  refine ⟨F, m, pmm, hstep, ?_⟩
  obtain rfl := Option.some.inj hcall
  rw [enter_eq] at hF ⊢
  rw [leave_eq rfl]
  simp only [setPage, hF]

/-! ## Unmapping -/

theorem tableEmpty_iff {table : Frame} :
    s.tableEmpty table = true ↔ ∀ j, ¬ Has (s.memory table j) pageFlagPresent := by
  rw [tableEmpty, List.all_eq_true]
  constructor
  · intro hall j
    have hj := hall j.toNat (List.mem_range.mpr j.isLt)
    simpa using hj
  · intro hall i _
    simpa using hall (BitVec.ofNat 10 i)

/-- What `mem_unmap_page` does about the table in entry `k` of directory `D`: it destroys the
table that is empty and its own. -/
inductive RemoveStep (L : Layout) (m : PhysicalMemory) (pmm : Pmm) (D : Dir) (k : Index) :
    PhysicalMemory → Pmm → Prop
  | kept (hkept : Has (m (L.frame D) k) pageFlagOwner →
        ∃ j, Has (m (frameOf (m (L.frame D) k)) j) pageFlagPresent) :
      RemoveStep L m pmm D k m pmm
  | removed (hempty : ∀ j, ¬ Has (m (frameOf (m (L.frame D) k)) j) pageFlagPresent)
      (howner : Has (m (L.frame D) k) pageFlagOwner) :
      RemoveStep L m pmm D k (m.write (L.frame D) k 0)
        (pmm.freed (frameOf (m (L.frame D) k)).toNat)

theorem RemoveStep.dirs {D D' : Dir} {k i : Index} {m m' : PhysicalMemory} {pmm pmm' : Pmm}
    (hstep : RemoveStep L m pmm D k m' pmm') (hne : D' ≠ D ∨ i ≠ k) :
    m' (L.frame D') i = m (L.frame D') i := by
  cases hstep with
  | kept hkept => rfl
  | removed hempty howner =>
      rw [PhysicalMemory.write_of_ne]
      exact hne.imp_left fun hD' heq => hD' (L.frame_injective heq)

theorem removeTable_cases {virtAddr : Word} {D : Dir} (hcr3 : s.cr3 = L.frame D)
    (hself : s.memory (L.frame D) 1023 = selfEntry (L.frame D))
    (hcall : s.removeTable virtAddr = some t) :
    ∃ m pmm, RemoveStep L s.memory s.pmm D (pdIndex virtAddr) m pmm ∧
      t = { s with memory := m, pmm := pmm } := by
  have hdir := recPageDir_eq hcr3 hself
  have htable := recPageTable_eq hcr3 rfl hself (pdIndex virtAddr)
  simp only [removeTable, hdir, htable, tableEmpty_iff] at hcall
  by_cases hremove : (∀ j, ¬ Has (s.memory (frameOf (s.memory (L.frame D) (pdIndex virtAddr))) j)
      pageFlagPresent) ∧ Has (s.memory (L.frame D) (pdIndex virtAddr)) pageFlagOwner
  · rw [if_pos hremove] at hcall
    obtain ⟨freed, hfree, hcall⟩ := Option.bind_eq_some_iff.mp hcall
    obtain ⟨-, rfl⟩ := freeFrame_cases hfree
    exact ⟨_, _, .removed hremove.1 hremove.2, (Option.some.inj hcall).symm⟩
  · rw [if_neg hremove] at hcall
    obtain rfl := Option.some.inj hcall
    refine ⟨_, _, .kept fun howner => ?_, rfl⟩
    by_contra hnone
    exact hremove ⟨not_exists.mp hnone, howner⟩

/-- The allocator after a page with entry `e` is gone. -/
def releasePage (pmm : Pmm) (e : Word) : Pmm :=
  if Has e pageFlagOwner then pmm.freed (frameOf e).toNat else pmm

/-- The write of `mem_unmap_page` to the table. -/
theorem setPage_enter (h : s.Core L) {virtAddr : Word} {D : Dir} (hD : s.Edits L virtAddr D)
    (entry count : Word) :
    (s.enter L virtAddr).setPage virtAddr entry count =
      { s with
        memory := s.memory.write (frameOf (s.memory (L.frame D) (pdIndex virtAddr)))
          (ptIndex virtAddr) entry
        cr3 := L.frame D
        memNumVpages := s.memNumVpages + count } := by
  have hself := (h.entered hD).sound.self D (Or.inr hD.enter_cr3)
  have hmemory : (s.enter L virtAddr).memory = s.memory := by rw [enter_eq]
  rw [setPage, recPageTable_eq hD.enter_cr3 hmemory (hmemory ▸ hself), hD.enter_cr3, enter_eq]

/-- What `mem_unmap_page` does: it finds no page and only enters the kernel's directory, or it
clears the entry of the page. -/
theorem memUnmapPage_cases (h : s.Core L) {virtAddr pte : Word} {D : Dir}
    (hD : s.Edits L virtAddr D) (hcall : s.memUnmapPage L virtAddr = some (pte, t)) :
    (pte = 0 ∧ t = s.enter L virtAddr) ∨
      Has (s.memory (L.frame D) (pdIndex virtAddr)) pageFlagPresent ∧ Has pte pageFlagPresent ∧
      pte = s.memory (frameOf (s.memory (L.frame D) (pdIndex virtAddr))) (ptIndex virtAddr) ∧
      ∃ m pmm,
        RemoveStep L (s.memory.write (frameOf (s.memory (L.frame D) (pdIndex virtAddr)))
          (ptIndex virtAddr) 0) s.pmm D (pdIndex virtAddr) m pmm ∧
        t = { s with
          memory := synced L s.pageDirsUsed virtAddr m
          memNumVpages := s.memNumVpages + -1
          pmm := releasePage pmm pte } := by
  have hcore := h.entered hD
  have hcr3 := hD.enter_cr3
  have hself := hcore.sound.self D (Or.inr hcr3)
  have hmemory : (s.enter L virtAddr).memory = s.memory := by rw [enter_eq]
  have htable := recPageTable_eq hcr3 rfl hself (pdIndex virtAddr)
  have hF := hcore.sound.apart D _ hD.owns D
  simp only [memUnmapPage, recPageDir_eq hcr3 hself, htable, hmemory] at hcall hself hF
  by_cases hpresent : Has (s.memory (L.frame D) (pdIndex virtAddr)) pageFlagPresent
  swap
  · rw [if_pos hpresent] at hcall
    obtain ⟨rfl, rfl⟩ := Prod.mk.inj (Option.some.inj hcall)
    exact Or.inl ⟨rfl, rfl⟩
  rw [if_neg (not_not.mpr hpresent)] at hcall
  by_cases hpage : Has (s.memory (frameOf (s.memory (L.frame D) (pdIndex virtAddr)))
      (ptIndex virtAddr)) pageFlagPresent
  swap
  · rw [if_pos hpage] at hcall
    obtain ⟨rfl, rfl⟩ := Prod.mk.inj (Option.some.inj hcall)
    exact Or.inl ⟨rfl, rfl⟩
  rw [if_neg (not_not.mpr hpage)] at hcall
  -- The page is there: the entry is cleared, then the table if nothing is left in it.
  obtain ⟨removed, hremove, hcall⟩ := Option.bind_eq_some_iff.mp hcall
  rw [setPage_enter h hD] at hremove
  have hselfW := (PhysicalMemory.write_of_ne s.memory (i := ptIndex virtAddr) (e := 0)
    (Or.inl hF.symm)).trans hself
  obtain ⟨m, pmm, hstep, rfl⟩ := removeTable_cases rfl hselfW hremove
  refine Or.inr ⟨hpresent, ?_⟩
  have hleave : (L.frame D) =
      if virtAddr ≥ kernelStart then L.kernelDirectory else s.cr3 := hD.frame
  by_cases howner : Has (s.memory (frameOf (s.memory (L.frame D) (pdIndex virtAddr)))
      (ptIndex virtAddr)) pageFlagOwner
  · rw [if_pos howner] at hcall
    obtain ⟨freed, hfree, hcall⟩ := Option.bind_eq_some_iff.mp hcall
    obtain ⟨-, rfl⟩ := freeFrame_cases hfree
    obtain ⟨rfl, rfl⟩ := Prod.mk.inj (Option.some.inj hcall)
    refine ⟨hpage, rfl, m, pmm, hstep, ?_⟩
    rw [leave_eq hleave, releasePage, if_pos howner]
  · rw [if_neg howner] at hcall
    obtain ⟨rfl, rfl⟩ := Prod.mk.inj (Option.some.inj hcall)
    refine ⟨hpage, rfl, m, pmm, hstep, ?_⟩
    rw [leave_eq hleave, releasePage, if_neg howner]

/-! ## Page directories -/

/-- A directory as `mem_alloc_page_dir` leaves it. -/
def freshDirectory (L : Layout) (m : PhysicalMemory) (dir : Frame) (k : Index) : Word :=
  if k = 1023 then selfEntry dir
  else if 768 ≤ k.toNat then m L.kernelDirectory k &&& ~~~pageFlagOwner
  else 0

/-- What `mem_alloc_page_dir` does: it takes the first directory that is not in use. -/
theorem memAllocPageDir_cases {result : Option (Fin 256)}
    (hcall : s.memAllocPageDir L = (result, t)) :
    (result = none ∧ t = s ∧ ∀ i, s.pageDirsUsed i = true) ∨
      ∃ i, result = some i ∧ s.pageDirsUsed i = false ∧
        t = { s with
          pageDirsUsed := Function.update s.pageDirsUsed i true
          memory := fun f k =>
            if f = L.pageDir i then freshDirectory L s.memory (L.pageDir i) k
            else s.memory f k } := by
  unfold memAllocPageDir at hcall
  cases hfind : (List.finRange 256).find? fun i => !s.pageDirsUsed i with
  | none =>
      rw [hfind] at hcall
      obtain ⟨rfl, rfl⟩ := Prod.mk.inj hcall
      refine Or.inl ⟨rfl, rfl, fun i => ?_⟩
      simpa using List.find?_eq_none.mp hfind i (List.mem_finRange i)
  | some i =>
      rw [hfind] at hcall
      obtain ⟨rfl, rfl⟩ := Prod.mk.inj hcall
      refine Or.inr ⟨i, rfl, by simpa using List.find?_some hfind, ?_⟩
      congr 1
      funext f k
      have hkernel : (s.memory.zero (L.pageDir i)) L.kernelDirectory k =
          s.memory L.kernelDirectory k :=
        PhysicalMemory.zero_of_ne _ (L.pageDir_ne_kernelDirectory i).symm
      by_cases hf : f = L.pageDir i
      · subst hf
        by_cases hk : k = 1023
        · subst hk
          simp [freshDirectory]
        · have hhigh := toNat_lt_window hk
          rw [PhysicalMemory.write_of_ne _ (Or.inr hk), freshDirectory, if_neg hk]
          simp [copyKernelHalf, hhigh, hkernel]
      · rw [PhysicalMemory.write_of_ne _ (Or.inl hf)]
        simp [copyKernelHalf, hf, PhysicalMemory.zero]

/-- The allocator `p'` has lost some of the used frames of `p`. -/
structure Released (p p' : Pmm) : Prop where
  startByte : p'.startByte = p.startByte
  used : ∀ f, p'.used f = true → p.used f = true

theorem Released.refl (p : Pmm) : Released p p := ⟨rfl, fun _ h => h⟩

theorem Released.trans {p p' p'' : Pmm} (h : Released p p') (h' : Released p' p'') :
    Released p p'' :=
  ⟨h'.startByte.trans h.startByte, fun f hf => h.used f (h'.used f hf)⟩

theorem Released.freed (p : Pmm) (f : Nat) : Released p (p.freed f) := by
  refine ⟨p.startByte_freed f, fun g hg => ?_⟩
  rw [Pmm.used_freed] at hg
  by_cases hgf : g = f
  · simp [hgf] at hg
  · rwa [if_neg hgf] at hg

theorem Released.releasePage (p : Pmm) (e : Word) : Released p (releasePage p e) := by
  unfold Paging.releasePage
  split
  · exact .freed p _
  · exact .refl p

theorem used_releasePage (p : Pmm) (e : Word) (f : Nat) :
    (releasePage p e).used f = true ↔
      p.used f = true ∧ (Has e pageFlagOwner → (frameOf e).toNat ≠ f) := by
  unfold releasePage
  split
  next howner =>
    rw [Pmm.used_freed]
    by_cases hf : f = (frameOf e).toNat
    · simp [hf, howner]
    · simp [hf, howner, Ne.symm hf]
  next howner => simp [howner]

theorem freePages_cases {i : Index} (hcall : s.freePages i = some t) :
    ∃ pmm, t = { s with pmm := pmm } ∧ Released s.pmm pmm ∧
      ((∀ j, ¬ Has (s.memory (s.recPageTable i) j) pageFlagOwner) → pmm = s.pmm) := by
  unfold freePages at hcall
  refine foldlM_range_invariant (fun _ t => ∃ pmm, t = { s with pmm := pmm } ∧
    Released s.pmm pmm ∧ ((∀ j, ¬ Has (s.memory (s.recPageTable i) j) pageFlagOwner) →
      pmm = s.pmm)) ?_ ⟨s.pmm, rfl, .refl _, fun _ => rfl⟩ hcall
  rintro j - u v ⟨pmm, rfl, hreleased, hexact⟩ hv
  have htable : recPageTable { s with pmm := pmm } i = s.recPageTable i := rfl
  simp only [htable] at hv
  by_cases howner : Has (s.memory (s.recPageTable i) (BitVec.ofNat 10 j)) pageFlagOwner
  · rw [if_pos howner] at hv
    obtain ⟨-, rfl⟩ := freeFrame_cases hv
    exact ⟨_, rfl, hreleased.trans (.freed _ _), fun hnone => absurd howner (hnone _)⟩
  · rw [if_neg howner] at hv
    obtain rfl := Option.some.inj hv
    exact ⟨pmm, rfl, hreleased, hexact⟩

/-- The body of the outer loop of `mem_free_page_dir` at an entry that is not zero. -/
theorem freeTable_cases {dir : Frame} {i : Index} (hcr3 : s.cr3 = dir)
    (hself : s.memory dir 1023 = selfEntry dir)
    (hF : frameOf (s.memory dir i) ≠ dir) (hcall : s.freeTable i = some t) :
    (s.memory dir i = 0 ∧ t = s) ∨
      s.memory dir i ≠ 0 ∧ ∃ pmm,
        t = { s with
          memory := (s.memory.zero (frameOf (s.memory dir i))).write dir i 0
          pmm := pmm } ∧
        Released s.pmm pmm ∧
        ((∀ j, ¬ Has (s.memory (frameOf (s.memory dir i)) j) pageFlagOwner) →
          pmm = releasePage s.pmm (s.memory dir i)) := by
  have hdir := recPageDir_eq hcr3 hself
  have htable := recPageTable_eq hcr3 rfl hself i
  simp only [freeTable, hdir] at hcall
  by_cases hzero : s.memory dir i = 0
  · rw [if_pos hzero] at hcall
    exact Or.inl ⟨hzero, (Option.some.inj hcall).symm⟩
  rw [if_neg hzero] at hcall
  obtain ⟨u, hpages, hcall⟩ := Option.bind_eq_some_iff.mp hcall
  obtain ⟨pmm, rfl, hreleased, hexact⟩ := freePages_cases hpages
  rw [htable] at hexact
  have hu : recPageTable { s with pmm := pmm } i = frameOf (s.memory dir i) := htable
  simp only [hu] at hcall
  -- The directory is still seen through the window after its table is cleared.
  have hselfV : s.memory.zero (frameOf (s.memory dir i)) dir 1023 = selfEntry dir := by
    rw [PhysicalMemory.zero_of_ne _ hF.symm, hself]
  have hdirV : ∀ pmm', recPageDir
      { s with memory := s.memory.zero (frameOf (s.memory dir i)), pmm := pmm' } = dir := by
    intro pmm'
    exact recPageDir_eq hcr3 hselfV
  refine Or.inr ⟨hzero, ?_⟩
  by_cases howner : Has (s.memory dir i) pageFlagOwner
  · rw [if_pos howner] at hcall
    obtain ⟨v, hfree, hcall⟩ := Option.bind_eq_some_iff.mp hcall
    obtain ⟨-, rfl⟩ := freeFrame_cases hfree
    simp only [hdirV] at hcall
    refine ⟨_, (Option.some.inj hcall).symm, hreleased.trans (.freed _ _), fun hnone => ?_⟩
    rw [hexact hnone, releasePage, if_pos howner]
  · rw [if_neg howner] at hcall
    simp only [Option.bind_eq_bind, Option.bind_some, hdirV] at hcall
    refine ⟨_, (Option.some.inj hcall).symm, hreleased, fun hnone => ?_⟩
    rw [hexact hnone, releasePage, if_neg howner]

/-- `t` is `s` after the outer loop of `mem_free_page_dir` has passed the first `n` entries of
the directory `dir`. -/
structure FreedTables (s : Paging) (dir : Frame) (n : Nat) (t : Paging) : Prop where
  cr3 : t.cr3 = s.cr3
  pageDirsUsed : t.pageDirsUsed = s.pageDirsUsed
  memNumVpages : t.memNumVpages = s.memNumVpages
  memory : ∀ f k, t.memory f k =
    if (f = dir ∧ k.toNat < n) ∨
        ∃ j, j.toNat < n ∧ s.memory dir j ≠ 0 ∧ f = frameOf (s.memory dir j) then 0
    else s.memory f k
  pmm : Released s.pmm t.pmm
  /-- Without owned pages it is the owned tables alone that are given back. -/
  exact : (∀ j, j.toNat < n → s.memory dir j ≠ 0 →
      ∀ i, ¬ Has (s.memory (frameOf (s.memory dir j)) i) pageFlagOwner) →
    ∀ f, t.pmm.used f = true ↔ s.pmm.used f = true ∧ ∀ j, j.toNat < n →
      Has (s.memory dir j) pageFlagOwner → (frameOf (s.memory dir j)).toNat ≠ f

/-- The entries that the loop has not reached are the ones of `s`. -/
theorem FreedTables.entry_of_le {dir : Frame} {n : Nat} (h : FreedTables s dir n t) (hn : n < 768)
    (hF : ∀ j, j.toNat < 768 → frameOf (s.memory dir j) ≠ dir) {k : Index} (hk : n ≤ k.toNat) :
    t.memory dir k = s.memory dir k := by
  rw [h.memory, if_neg]
  rintro (⟨-, hlt⟩ | ⟨j, hj, -, heq⟩)
  · omega
  · exact hF j (by omega) heq.symm

/-- The loop passes an entry without a table. -/
theorem FreedTables.pass {dir : Frame} {n : Nat} {i : Index} (h : FreedTables s dir n t)
    (hi : i.toNat = n) (hentry : t.memory dir i = s.memory dir i) (hzero : s.memory dir i = 0) :
    FreedTables s dir (n + 1) t := by
  have hnext : ∀ j : Index, j.toNat < n + 1 ↔ j.toNat < n ∨ j = i := by
    intro j
    rw [← BitVec.toNat_inj]
    omega
  refine ⟨h.cr3, h.pageDirsUsed, h.memNumVpages, fun f k => ?_, h.pmm, fun hpages f => ?_⟩
  · by_cases hk : f = dir ∧ k = i
    · obtain ⟨rfl, rfl⟩ := hk
      rw [hentry, hzero, if_pos (Or.inl ⟨rfl, by omega⟩)]
    · rw [h.memory]
      refine if_congr ?_ rfl rfl
      simp only [hnext]
      constructor
      · rintro (⟨hf, hlt⟩ | ⟨j, hj, hne, hf⟩)
        · exact Or.inl ⟨hf, Or.inl hlt⟩
        · exact Or.inr ⟨j, Or.inl hj, hne, hf⟩
      · rintro (⟨hf, hlt | heq⟩ | ⟨j, hj | rfl, hne, hf⟩)
        · exact Or.inl ⟨hf, hlt⟩
        · exact absurd ⟨hf, heq⟩ hk
        · exact Or.inr ⟨j, hj, hne, hf⟩
        · exact absurd hzero hne
  · rw [h.exact (fun j hj => hpages j (by omega)) f]
    refine and_congr_right fun _ => ⟨fun hall j hj howner => ?_, fun hall j hj =>
      hall j (by omega)⟩
    rcases (hnext j).mp hj with hlt | rfl
    · exact hall j hlt howner
    · rw [hzero] at howner
      exact absurd howner (by decide)

/-- The loop clears a table and the entry that points to it, and gives their frames back. -/
theorem FreedTables.clear {dir : Frame} {n : Nat} {i : Index} {pmm : Pmm}
    (h : FreedTables s dir n t) (hi : i.toNat = n) (hentry : t.memory dir i = s.memory dir i)
    (hne : s.memory dir i ≠ 0) (hreleased : Released t.pmm pmm)
    (hexact : (∀ j, ¬ Has (t.memory (frameOf (s.memory dir i)) j) pageFlagOwner) →
      pmm = releasePage t.pmm (s.memory dir i)) :
    FreedTables s dir (n + 1) { t with
      memory := (t.memory.zero (frameOf (s.memory dir i))).write dir i 0
      pmm := pmm } := by
  have hnext : ∀ j : Index, j.toNat < n + 1 ↔ j.toNat < n ∨ j = i := by
    intro j
    rw [← BitVec.toNat_inj]
    omega
  refine ⟨h.cr3, h.pageDirsUsed, h.memNumVpages, fun f k => ?_, h.pmm.trans hreleased,
    fun hpages f => ?_⟩
  · simp only [PhysicalMemory.write, PhysicalMemory.zero, h.memory, hnext]
    by_cases hslot : f = dir ∧ k = i
    · rw [if_pos hslot, if_pos (Or.inl ⟨hslot.1, Or.inr hslot.2⟩)]
    rw [if_neg hslot]
    by_cases htable : f = frameOf (s.memory dir i)
    · rw [if_pos htable, if_pos (Or.inr ⟨_, Or.inr rfl, hne, htable⟩)]
    rw [if_neg htable]
    refine if_congr ?_ rfl rfl
    constructor
    · rintro (⟨hf, hlt⟩ | ⟨j, hj, hentryJ, hf⟩)
      · exact Or.inl ⟨hf, Or.inl hlt⟩
      · exact Or.inr ⟨j, Or.inl hj, hentryJ, hf⟩
    · rintro (⟨hf, hlt | heq⟩ | ⟨j, hj | rfl, hentryJ, hf⟩)
      · exact Or.inl ⟨hf, hlt⟩
      · exact absurd ⟨hf, heq⟩ hslot
      · exact Or.inr ⟨j, hj, hentryJ, hf⟩
      · exact absurd hf htable
  · -- A table that an earlier round has cleared owns no pages any more.
    have hpagesN : ∀ j, ¬ Has (t.memory (frameOf (s.memory dir i)) j) pageFlagOwner := by
      intro j
      rw [h.memory]
      split
      · decide
      · exact hpages _ (by omega) hne j
    simp only [hexact hpagesN, used_releasePage, h.exact (fun j hj => hpages j (by omega)),
      and_assoc, hnext]
    refine and_congr_right fun _ => ⟨?_, fun hall => ⟨fun j hj => hall j (Or.inl hj),
      hall _ (Or.inr rfl)⟩⟩
    rintro ⟨hall, hlast⟩ j (hj | rfl)
    · exact hall j hj
    · exact hlast

theorem FreedTables.step {u : Paging} {dir : Frame} {n : Nat} (h : FreedTables s dir n t)
    (hcr3 : s.cr3 = dir) (hself : s.memory dir 1023 = selfEntry dir) (hn : n < 768)
    (hF : ∀ j, j.toNat < 768 → frameOf (s.memory dir j) ≠ dir)
    (hcall : t.freeTable (BitVec.ofNat 10 n) = some u) : FreedTables s dir (n + 1) u := by
  have hindex : (BitVec.ofNat 10 n).toNat = n := Nat.mod_eq_of_lt (by omega)
  have hentry : t.memory dir (BitVec.ofNat 10 n) = s.memory dir (BitVec.ofNat 10 n) :=
    h.entry_of_le hn hF hindex.ge
  have hselfT : t.memory dir 1023 = selfEntry dir := by
    rw [h.entry_of_le hn hF (by show n ≤ 1023; omega), hself]
  have hFn := hF (BitVec.ofNat 10 n) (by rwa [hindex])
  rcases freeTable_cases (h.cr3.trans hcr3) hselfT (by rwa [hentry]) hcall with
    ⟨hzero, rfl⟩ | ⟨hne, pmm, rfl, hreleased, hexact⟩
  · exact h.pass hindex hentry (hentry ▸ hzero)
  · rw [hentry] at hne hexact ⊢
    exact h.clear hindex hentry hne hreleased hexact

/-- What `mem_free_page_dir` does to a directory that maps itself. -/
theorem memFreePageDir_cases {i : Fin 256}
    (hself : s.memory (L.pageDir i) 1023 = selfEntry (L.pageDir i))
    (hF : ∀ j, j.toNat < 768 → frameOf (s.memory (L.pageDir i) j) ≠ L.pageDir i)
    (hcall : s.memFreePageDir L i = some t) :
    ∃ u, FreedTables { s with cr3 := L.pageDir i } (L.pageDir i) 768 u ∧
      t = { s with
        memory := u.memory
        pageDirsUsed := Function.update s.pageDirsUsed i false
        pmm := u.pmm } := by
  unfold memFreePageDir memChangePageDirectory at hcall
  obtain ⟨u, hu, hcall⟩ := Option.bind_eq_some_iff.mp hcall
  have hfreed : FreedTables { s with cr3 := L.pageDir i } (L.pageDir i) 768 u := by
    refine foldlM_range_invariant (FreedTables { s with cr3 := L.pageDir i } (L.pageDir i))
      (fun n hn v w hv hw => hv.step rfl hself hn hF hw)
      ⟨rfl, rfl, rfl, fun f k => ?_, .refl _, ?_⟩ hu
    · simp
    · simp
  refine ⟨u, hfreed, ?_⟩
  obtain rfl := Option.some.inj hcall
  simp only [hfreed.pageDirsUsed, hfreed.memNumVpages]

end Paging

end Senob.Memory
