import Senob.Memory.PagingBoot
import Senob.Memory.PagingFrames
import Senob.Memory.PagingUnmap

/-!
# Mapping a page and unmapping it

No table is empty and no table holds remains of a page that is gone. So the table that
`mem_map_page` makes for a page is the one that `mem_unmap_page` destroys, and a table that was
there before keeps its other pages.
-/

namespace Senob.Memory

open Senob.Foundation

variable {L : Layout} {s t : Paging}

/-! ## Frames of the allocator -/

namespace Pmm

/-- The counter is a word, and only frames of the bitmap are marked. -/
structure Sized (p : Pmm) : Prop where
  counter : p.totalAllocated < 2 ^ 32
  bitmap : ∀ f, p.used f = true → f < 8 * bitmapLength

theorem Sized.init (memLow memHigh : Nat) : (Pmm.init memLow memHigh).Sized := by
  refine ⟨Nat.two_pow_pos 32, fun f hf => ?_⟩
  have hclear : (Pmm.init memLow memHigh).used f = false := BitVec.getLsbD_zero
  exact absurd (hclear.symm.trans hf) Bool.false_ne_true

theorem Sized.take {p : Pmm} (h : p.Sized) {f : Nat} (hf : f < 8 * bitmapLength) :
    (p.take f).Sized := by
  refine ⟨Nat.mod_lt _ (by decide), fun g hg => ?_⟩
  rw [used_take] at hg
  split at hg
  next heq => rwa [heq]
  next hne => exact h.bitmap g hg

theorem Sized.freed {p : Pmm} (h : p.Sized) (f : Nat) : (p.freed f).Sized := by
  refine ⟨?_, fun g hg => ?_⟩
  · unfold Pmm.freed
    split
    · exact Nat.mod_lt _ (by decide)
    · exact h.counter
  · rw [used_freed] at hg
    split at hg
    next heq => cases hg
    next hne => exact h.bitmap g hg

theorem Sized.alloc {p p' : Pmm} (h : p.Sized) {addr : Nat}
    (halloc : p.allocPageframe = some (addr, p')) : p'.Sized := by
  rcases allocPageframe_cases halloc with ⟨-, rfl⟩ | ⟨f, -, hf, -, -, rfl⟩
  · exact h
  · exact h.take hf

theorem Sized.free {p p' : Pmm} (h : p.Sized) {addr : Nat}
    (hfree : p.freePageframe addr = some p') : p'.Sized := by
  obtain ⟨-, rfl⟩ := freePageframe_cases hfree
  exact h.freed _

/-- A frame that is taken and given back leaves the allocator as it was. -/
theorem Sized.freed_take {p : Pmm} (h : p.Sized) {f : Nat} (hclear : p.used f = false) :
    (p.take f).freed f = p := by
  have hcounter := h.counter
  have hbitmap : (p.physicalMemoryBitmap.setBit f true).setBit f false =
      p.physicalMemoryBitmap := by
    rw [Bytes.setBit_setBit, Bytes.setBit_eq_self _ hclear]
  have htotal : ((p.totalAllocated + 1) % 2 ^ 32 + 2 ^ 32 - 1) % 2 ^ 32 = p.totalAllocated := by
    omega
  rw [Pmm.freed, used_take, if_pos rfl, if_pos rfl]
  simp only [release, Pmm.take, hbitmap, htotal]

end Pmm

/-! ## Entries that are not present -/

namespace Paging

variable {D : Dir} {k : Index} {F : Frame} {m : PhysicalMemory} {pmm : Pmm} {flags : Word}

/-- Where the tables of a state lie in which `mem_map_page` has entered a page. -/
theorem TableStep.table_cases (hstep : TableStep L s.memory s.pmm D k flags F m pmm)
    (hcore : s.Core L) (hk : Owns D k) (hflags : frameOf flags = 0) {x count : Word}
    {j : Index} {D' : Dir} {i : Index} {F' : Frame}
    (htable : Paging.tables L
      { s with memory := m.write F j x, memNumVpages := count, pmm := pmm } (D', i) = some F') :
    (D' = D ∧ i = k ∧ F' = F) ∨ (D' ≠ D ∨ i ≠ k) ∧ s.tables L (D', i) = some F' := by
  have hdir : m.write F j x (L.frame D') i = m (L.frame D') i :=
    PhysicalMemory.write_of_ne _ (Or.inl (hstep.apart hcore hk D').symm)
  by_cases hslot : D' = D ∧ i = k
  · obtain ⟨rfl, rfl⟩ := hslot
    obtain ⟨-, -, -, hframe⟩ := tables_eq_some.mp htable
    have hentry := (hstep.entry hcore hflags).1
    exact Or.inl ⟨rfl, rfl, hframe.symm.trans ((congrArg frameOf hdir).trans hentry)⟩
  · have hne := not_and_or.mp hslot
    have hsame : Paging.tables L
        { s with memory := m.write F j x, memNumVpages := count, pmm := pmm } (D', i) =
          s.tables L (D', i) :=
      tables_congr rfl rfl (hdir.trans (hstep.dirs hcore hne))
    exact Or.inr ⟨hne, hsame.symm.trans htable⟩

variable (L) in
/-- The entries of tables that are not present are zero. -/
def Clean (s : Paging) : Prop :=
  ∀ D k F, s.tables L (D, k) = some F → ∀ j, ¬ Has (s.memory F j) pageFlagPresent →
    s.memory F j = 0

theorem Clean.keeps (h : s.Clean L) (hkeeps : KeepsTables L s t) : t.Clean L := by
  intro D k F htable j hj
  obtain ⟨hold, -, hcontent, -⟩ := hkeeps D k F htable
  rw [hcontent] at hj ⊢
  exact h D k F hold j hj

theorem Clean.tableStep (h : s.Clean L) (htables : s.Tables L) (hcore : s.Core L)
    (hstep : TableStep L s.memory s.pmm D k flags F m pmm) (hD : s.Live L D) (hk : Owns D k)
    (hflags : frameOf flags = 0)
    (hgranted : Has (s.memory (L.frame D) k) pageFlagPresent ∨ Grants s.pmm) {x : Word}
    (hpresent : Has x pageFlagPresent) (j : Index) (count : Word) :
    Clean L { s with memory := m.write F j x, memNumVpages := count, pmm := pmm } := by
  intro D' i F' htable j' hj'
  dsimp only at hj' ⊢
  rcases hstep.table_cases hcore hk hflags htable with ⟨rfl, rfl, rfl⟩ | ⟨hne, hold⟩
  · by_cases hj : j' = j
    · rw [hj, PhysicalMemory.write_self] at hj'
      exact absurd hpresent hj'
    · rw [PhysicalMemory.write_of_ne _ (Or.inr hj)] at hj' ⊢
      cases hstep with
      | present hentry =>
          exact h _ _ _ (tables_eq_some.mpr ⟨hD, hk, hentry.ne_zero, rfl⟩) j' hj'
      | created habsent ptPaddr pmm halloc => exact PhysicalMemory.zero_self ..
  · have hF := hstep.ne_of_table htables hD hk hgranted hold hne
    rw [PhysicalMemory.write_of_ne _ (Or.inl hF),
      hstep.content hF (hcore.table_apart hold D)] at hj' ⊢
    exact h D' i F' hold j' hj'

theorem Clean.memMapPage (h : s.Clean L) (htables : s.Tables L) (hcore : s.Core L)
    {virtAddr physAddr flags : Word} (hordinary : s.Ordinary L virtAddr)
    (hflags : frameOf flags = 0) (howner : ¬ Has (physAddr ||| flags) pageFlagOwner)
    (hgranted : s.TableGranted L virtAddr)
    (hcall : s.memMapPage L virtAddr physAddr flags = some t) : t.Clean L := by
  obtain ⟨D, hD⟩ := hcore.edits hordinary
  obtain ⟨F, m, pmm, hstep, rfl⟩ := memMapPage_cases hcore hD hflags hcall
  have hbits : pageFlagPresent.getLsbD 0 = true ∧ pageFlagPresent.getLsbD 9 = false := by decide
  have hgrant := (tableGranted_iff hcore hD).mp hgranted
  have hpresent : Has (physAddr ||| pageFlagPresent ||| flags) pageFlagPresent := by simp [hbits]
  have hforeign : ¬ Has (physAddr ||| pageFlagPresent ||| flags) pageFlagOwner := by
    simp only [has_owner, BitVec.getLsbD_or, hbits.2, Bool.or_false] at howner ⊢
    exact howner
  have hclean := h.tableStep htables hcore hstep hD.live hD.owns hflags hgrant hpresent
    (ptIndex virtAddr) (s.memNumVpages + 1)
  have hsound := hstep.tables htables hcore hD.live hD.owns hflags hgrant hpresent hforeign
    (ptIndex virtAddr) (s.memNumVpages + 1)
  exact hclean.keeps (hsound.keeps_synced (hstep.core hcore hD.owns hflags _ _ _) virtAddr)

theorem Clean.removePage (h : s.Clean L) (hcore : s.Core L)
    (hown : s.tables L (D, k) = some F) (j : Index) (count : Word) :
    Clean L { s with memory := s.memory.write F j 0, memNumVpages := count } := by
  intro D' i F' htable j' hj'
  dsimp only at hj' ⊢
  have hdir : s.memory.write F j 0 (L.frame D') i = s.memory (L.frame D') i :=
    PhysicalMemory.write_of_ne _ (Or.inl (hcore.table_apart hown D').symm)
  have hsame : Paging.tables L
      { s with memory := s.memory.write F j 0, memNumVpages := count } (D', i) =
        s.tables L (D', i) :=
    tables_congr rfl rfl hdir
  have hold := hsame.symm.trans htable
  by_cases hslot : F' = F ∧ j' = j
  · rw [hslot.1, hslot.2, PhysicalMemory.write_self]
  · rw [PhysicalMemory.write_of_ne _ (not_and_or.mp hslot)] at hj' ⊢
    exact h D' i F' hold j' hj'

theorem Clean.memUnmapPage (h : s.Clean L) (htables : s.Tables L) (hcore : s.Core L)
    {virtAddr pte : Word} (hordinary : s.Ordinary L virtAddr)
    (hcall : s.memUnmapPage L virtAddr = some (pte, t)) : t.Clean L := by
  obtain ⟨D, hD⟩ := hcore.edits hordinary
  rcases htables.memUnmapPage_cases hcore hD hcall with
    ⟨-, rfl⟩ | ⟨F, u, hown, -, -, hu, rfl, hcase⟩
  · exact h.keeps (htables.keeps_enter hD)
  have hafter : u.Tables L ∧ u.Clean L := by
    rcases hcase with ⟨hkept, rfl⟩ | rfl
    · exact ⟨htables.removePage hcore hown _ hkept, h.removePage hcore hown _ _⟩
    · have hkeeps := htables.keeps_removeTable hcore hown (ptIndex virtAddr) (s.memNumVpages + -1)
      exact ⟨hkeeps.tables htables, h.keeps hkeeps⟩
  exact hafter.2.keeps (hafter.1.keeps_synced hu virtAddr)

/-! ## The two functions return -/

/-- The frame of the entry is in the bitmap. -/
theorem exists_freeFrame {e : Word} (hbound : (frameOf e).toNat < 8 * bitmapLength) :
    ∃ t, s.freeFrame e = some t := by
  have haddr : (pPhysAddr e).toNat / pageFrameSize / 8 < bitmapLength := by
    have hdiv : (pPhysAddr e).toNat / pageFrameSize = (frameOf e).toNat := pPhysAddr_div e
    omega
  rw [freeFrame, Pmm.freePageframe_eq s.pmm haddr]
  exact ⟨_, rfl⟩

theorem exists_removeTable {virtAddr : Word} (hcr3 : s.cr3 = L.frame D)
    (hself : s.memory (L.frame D) 1023 = selfEntry (L.frame D)) (h : s.pmm.Sized)
    (hused : s.pmm.used (frameOf (s.memory (L.frame D) (pdIndex virtAddr))).toNat = true) :
    ∃ t, s.removeTable virtAddr = some t := by
  simp only [removeTable, recPageDir_eq hcr3 hself]
  split
  next hremove =>
    obtain ⟨freed, hfreed⟩ := exists_freeFrame (s := s) (h.bitmap _ hused)
    rw [hfreed]
    exact ⟨_, rfl⟩
  next hkept => exact ⟨_, rfl⟩

/-- Where `mem_unmap_page` looks. -/
theorem finds_iff (h : s.Core L) {virtAddr : Word} (hD : s.Edits L virtAddr D) :
    s.Finds L virtAddr ↔
      Has (s.memory (L.frame D) (pdIndex virtAddr)) pageFlagPresent ∧
        Has (s.memory (frameOf (s.memory (L.frame D) (pdIndex virtAddr))) (ptIndex virtAddr))
          pageFlagPresent := by
  have hself := (h.entered hD).sound.self D (Or.inr hD.enter_cr3)
  rw [Finds, recPageDir_eq hD.enter_cr3 hself, recPageTable_eq hD.enter_cr3 rfl hself]
  rw [enter_eq]

/-- The frame of a table is in the bitmap, so `mem_unmap_page` returns. -/
theorem Tables.exists_memUnmapPage (h : s.Tables L) (hcore : s.Core L) (hsized : s.pmm.Sized)
    {virtAddr : Word} (hD : s.Edits L virtAddr D) :
    ∃ pte t, s.memUnmapPage L virtAddr = some (pte, t) := by
  by_cases hfinds : s.Finds L virtAddr
  swap
  · exact ⟨_, _, memUnmapPage_of_not_finds hfinds⟩
  obtain ⟨hpresent, hpage⟩ := (finds_iff hcore hD).mp hfinds
  have hown := tables_eq_some.mpr ⟨hD.live, hD.owns, hpresent.ne_zero, rfl⟩
  have hself := (hcore.entered hD).sound.self D (Or.inr hD.enter_cr3)
  have htable := recPageTable_eq hD.enter_cr3 rfl hself (pdIndex virtAddr)
  have hmemory : (s.enter L virtAddr).memory = s.memory := by rw [enter_eq]
  rw [hmemory] at htable
  have hforeign := (h.sound D _ _ hown).pages (ptIndex virtAddr)
  -- The entry of the directory is not the one that has been cleared.
  have hdir : ∀ i, s.memory.write (frameOf (s.memory (L.frame D) (pdIndex virtAddr)))
      (ptIndex virtAddr) 0 (L.frame D) i = s.memory (L.frame D) i := fun i =>
    PhysicalMemory.write_of_ne _ (Or.inl (hcore.sound.apart D _ hD.owns D).symm)
  obtain ⟨removed, hremoved⟩ : ∃ removed,
      ((s.enter L virtAddr).setPage virtAddr 0 (-1)).removeTable virtAddr = some removed := by
    rw [setPage_enter hcore hD]
    apply exists_removeTable rfl
    · rw [hmemory] at hself
      exact (hdir 1023).trans hself
    · exact hsized
    · dsimp only
      rw [hdir]
      exact h.accounted.used hown
  unfold Paging.memUnmapPage
  rw [if_neg (not_not.mpr hfinds.1), if_neg (not_not.mpr hfinds.2)]
  simp only [hremoved, htable, hmemory, if_neg hforeign, Option.bind_eq_bind, Option.bind_some]
  exact ⟨_, _, rfl⟩

/-! ## What is restored -/

/-- The entry of directory frame `f` that the synchronisation takes from the kernel's. -/
def Copied (L : Layout) (used : Fin 256 → Bool) (f : Frame) (i : Index) : Prop :=
  (∃ d, used d = true ∧ f = L.pageDir d) ∧ 768 ≤ i.toNat ∧ i.toNat < 1023

theorem not_copied_kernelDirectory (used : Fin 256 → Bool) (i : Index) :
    ¬ Copied L used L.kernelDirectory i := by
  rintro ⟨⟨d, -, heq⟩, -⟩
  exact L.pageDir_ne_kernelDirectory d heq.symm

theorem synced_of_not_copied {used : Fin 256 → Bool} {virtAddr : Word} (m : PhysicalMemory)
    {f : Frame} {i : Index} (h : ¬ (virtAddr ≥ kernelStart ∧ Copied L used f i)) :
    synced L used virtAddr m f i = m f i := by
  unfold synced
  by_cases hkernel : virtAddr ≥ kernelStart
  · rw [if_pos hkernel, syncKernelHalves_apply]
    exact if_neg fun hcopied => h ⟨hkernel, hcopied⟩
  · rw [if_neg hkernel]

/-- Where a memory agrees with `m` but for the copies, it agrees with it once they are made
again. -/
theorem KernelHalves.synced_eq {used : Fin 256 → Bool} {virtAddr : Word} {m m' : PhysicalMemory}
    (h : KernelHalves L used m) (P : Frame → Prop) (hP : P L.kernelDirectory)
    (hsame : ∀ f, P f → ∀ i, ¬ (virtAddr ≥ kernelStart ∧ Copied L used f i) → m' f i = m f i)
    {f : Frame} (hf : P f) : Paging.synced L used virtAddr m' f = m f := by
  funext i
  by_cases hcopied : virtAddr ≥ kernelStart ∧ Copied L used f i
  swap
  · rw [synced_of_not_copied m' hcopied, hsame f hf i hcopied]
  obtain ⟨hkernel, ⟨d, hd, rfl⟩, hlow, hhigh⟩ := hcopied
  have hentry := hsame L.kernelDirectory hP i
    fun hcopy => not_copied_kernelDirectory used i hcopy.2
  rw [Paging.synced, if_pos hkernel, syncKernelHalves_used L used m' hd hlow hhigh, hentry,
    h d hd i hlow hhigh]

end Paging

namespace PagingCall

/-! ## Every run -/

/-- The states in which a mapping can be taken back without a trace. -/
structure Restorable (L : Layout) (s : Paging) : Prop where
  translating : Translating L s
  clean : s.Clean L
  sized : s.pmm.Sized

theorem clean_step (h : s.Clean L) (hs : Translating L s) {call : PagingCall}
    (hordered : call.Ordered L s) (hcall : call.step L s = some t) : t.Clean L := by
  obtain ⟨henabled, hallots, -⟩ := hordered
  have hcore := hs.coherent.core
  have htables := hs.tables
  cases call with
  | memMapPage virtAddr physAddr flags =>
      exact h.memMapPage htables hcore henabled.1 henabled.2 hallots.1 hallots.2 hcall
  | mapNewFrame virtAddr flags =>
      obtain ⟨⟨physAddr, pmm⟩, halloc, hcall⟩ := Option.bind_eq_some_iff.mp hcall
      have hkeeps := htables.keeps_alloc halloc
      refine (h.keeps hkeeps).memMapPage (hkeeps.tables htables)
        (hcore.of_pmm (Paging.startByte_allocPageframe halloc)) henabled.1 henabled.2 ?_
        (hallots.2 physAddr pmm halloc) hcall
      have hnoFlag := Paging.getLsbD_of_aligned (Paging.aligned_allocPageframe halloc)
        (show 9 < 12 by decide)
      have hflags := hallots.1
      simp only [has_owner, BitVec.getLsbD_or, hnoFlag, Bool.false_or] at hflags ⊢
      exact hflags
  | memUnmapPage virtAddr =>
      obtain ⟨⟨pte, u⟩, hunmap, rfl⟩ := Option.map_eq_some_iff.mp hcall
      exact h.memUnmapPage htables hcore henabled hunmap
  | memAllocPageDir =>
      obtain rfl := Option.some.inj hcall
      exact h.keeps (htables.keeps_memAllocPageDir hcore rfl)
  | memFreePageDir i => exact h.keeps (htables.keeps_memFreePageDir hcore henabled hcall)
  | memChangePageDirectory D =>
      obtain rfl := Option.some.inj hcall
      exact h.keeps (htables.keeps_memChangePageDirectory henabled)

theorem sized_step (h : s.pmm.Sized) {call : PagingCall} (hcall : call.step L s = some t) :
    t.pmm.Sized :=
  pmm_step (P := Pmm.Sized) (fun _ _ _ hp => hp.alloc) (fun _ _ _ hp => hp.free) h hcall

theorem Restorable.step (h : Restorable L s) {call : PagingCall} (hordered : call.Ordered L s)
    (hcall : call.step L s = some t) : Restorable L t :=
  ⟨h.translating.step hordered.1 hordered.2.1 hordered.2.2 hcall,
    clean_step h.clean h.translating hordered hcall,
    sized_step h.sized hcall⟩

theorem restorable_initDirectories {physicalAllocstart : Nat}
    (hbehind : Behind L physicalAllocstart) (m : PhysicalMemory) (memHigh : Nat) :
    Restorable L (Paging.initDirectories L m memHigh physicalAllocstart) := by
  refine ⟨translating_initDirectories hbehind m memHigh, fun D k F htable => ?_, .init _ _⟩
  obtain ⟨-, howns, hne, -⟩ := Paging.tables_eq_some.mp htable
  exact absurd (initDirectories_owned m _ _ howns) hne

/-! ## The address that is mapped -/

/-- An address of a page has no flags. -/
theorem getLsbD_of_page {physAddr : Word} (haligned : physAddr &&& 0xFFF = 0) {i : Nat}
    (hi : i < 12) : physAddr.getLsbD i = false := by
  have hbit := congrArg (fun a : Word => a.getLsbD i) haligned
  have hmask : (0xFFF : Word).getLsbD i = true := by
    rw [show (0xFFF : Word) = BitVec.setWidth 32 (BitVec.allOnes 12) from rfl,
      BitVec.getLsbD_setWidth, BitVec.getLsbD_allOnes]
    simp [hi, show i < 32 by omega]
  rw [BitVec.getLsbD_and, hmask, Bool.and_true] at hbit
  exact hbit.trans BitVec.getLsbD_zero

theorem has_present_bootDirectory {k : Index} (hk : IsBoot k) :
    Has (bootDirectory k) pageFlagPresent := by
  unfold bootDirectory
  split
  · decide
  split
  · simp
  next hzero hlow =>
    rw [if_pos ((hk.resolve_left hzero).resolve_left hlow)]
    decide

/-- The directory that is edited shows the same entry as the current one. -/
theorem Coherent.alike_edited (h : Coherent L s) {D₀ D : Dir} (huse : s.InUse D₀)
    (hcurrent : s.cr3 = L.frame D₀) {virtAddr : Word} (hD : s.Edits L virtAddr D) :
    Alike (s.memory s.cr3 (pdIndex virtAddr)) (s.memory (L.frame D) (pdIndex virtAddr)) := by
  rw [hD.frame]
  by_cases hkernel : virtAddr ≥ kernelStart
  · have halike := h.alike_holder huse hD.owns.ne_window
    have hhigh := Nat.not_lt_of_le ((kernelStart_le_iff virtAddr).mp hkernel)
    rw [holder, if_neg hhigh] at halike
    rw [if_pos hkernel, hcurrent]
    exact halike
  · rw [if_neg hkernel]
    exact .refl _

/-- What is not mapped is not under one of the entries of `boot.s`. -/
theorem Coherent.ordinary_of_unmapped (h : Coherent L s) {D₀ : Dir} (huse : s.InUse D₀)
    (hcurrent : s.cr3 = L.frame D₀) {virtAddr : Word} (hwindow : virtAddr < 0xFFC00000)
    (hunmapped : walk s.memory s.cr3 virtAddr = none) : s.Ordinary L virtAddr := by
  refine ⟨hwindow, fun hkernel hboot => ?_⟩
  have hholder : holder D₀ (pdIndex virtAddr) = .kernel := by
    rcases hkernel with hhigh | hcr3
    · rw [holder, if_neg (Nat.not_lt_of_le ((kernelStart_le_iff virtAddr).mp hhigh))]
    · obtain rfl : D₀ = .kernel := L.frame_injective (hcurrent.symm.trans hcr3)
      exact ite_self _
  have halike := h.alike_holder huse (Paging.pdIndex_ne_window hwindow)
  have hentry : s.memory (L.frame .kernel) (pdIndex virtAddr) = bootDirectory (pdIndex virtAddr) :=
    h.core.sound.boot _ hboot
  rw [hholder, hentry, ← hcurrent] at halike
  have hpresent := halike.has_present_iff.mpr (has_present_bootDirectory hboot)
  have hlarge := halike.has_4MB_iff.mpr (bootDirectory_flags hboot).1
  rw [walk, if_neg (not_not.mpr hpresent), if_pos hlarge] at hunmapped
  cases hunmapped

/-- In the table of a page that is not mapped its entry is not present. -/
theorem Translating.absent_of_unmapped (h : Translating L s) {D₀ D : Dir} (huse : s.InUse D₀)
    (hcurrent : s.cr3 = L.frame D₀) {virtAddr : Word} (hD : s.Edits L virtAddr D)
    (hunmapped : walk s.memory s.cr3 virtAddr = none)
    (hpresent : Has (s.memory (L.frame D) (pdIndex virtAddr)) pageFlagPresent) :
    ¬ Has (s.memory (frameOf (s.memory (L.frame D) (pdIndex virtAddr))) (ptIndex virtAddr))
      pageFlagPresent := by
  intro hpage
  have hwalk : walk s.memory s.cr3 virtAddr = walk s.memory (L.frame D) virtAddr :=
    walk_congr (h.coherent.alike_edited huse hcurrent hD) fun _ _ => .refl _
  rw [hwalk, walk_of_table rfl hpresent (h.small D _ hD.owns) rfl, if_pos hpage] at hunmapped
  exact nomatch hunmapped

/-! ## The round trip -/

/-- The state `u` agrees with `s` in every directory in use, in every table that one of them
leads to, and in all variables. -/
structure Restored (L : Layout) (s u : Paging) : Prop where
  kernelDirectory : u.memory L.kernelDirectory = s.memory L.kernelDirectory
  pageDirs : ∀ i, s.pageDirsUsed i = true → u.memory (L.pageDir i) = s.memory (L.pageDir i)
  tables : ∀ D, s.InUse D → ∀ k : Index, k ≠ 1023 →
    Has (s.memory (L.frame D) k) pageFlagPresent → ¬ Has (s.memory (L.frame D) k) pageFlag4MB →
      u.memory (frameOf (s.memory (L.frame D) k)) = s.memory (frameOf (s.memory (L.frame D) k))
  cr3 : u.cr3 = s.cr3
  pageDirsUsed : u.pageDirsUsed = s.pageDirsUsed
  memNumVpages : u.memNumVpages = s.memNumVpages
  pmm : u.pmm = s.pmm

/-- Only a frame that is neither a directory nor a table may differ. -/
theorem restored_of_memory (h : Coherent L s) {P : Frame → Prop} (hdirs : ∀ D, P (L.frame D))
    (htables : ∀ D k F, s.tables L (D, k) = some F → P F) {m : PhysicalMemory}
    (hmemory : ∀ f, P f → m f = s.memory f) {count : Word} (hcount : count = s.memNumVpages)
    {pmm : Pmm} (hpmm : pmm = s.pmm) :
    Restored L s { s with memory := m, memNumVpages := count, pmm := pmm } where
  kernelDirectory := hmemory _ (hdirs .kernel)
  pageDirs i _ := hmemory _ (hdirs (.user i))
  tables _ hD _ hk hpresent hlarge :=
    hmemory _ (htables _ _ _ (h.table_of_entry hD hk hpresent hlarge))
  cr3 := rfl
  pageDirsUsed := rfl
  memNumVpages := hcount
  pmm := hpmm

/-- The page goes back out of a table that was there before. -/
theorem Restorable.restored_present (h : Restorable L s) {D : Dir} {virtAddr x count : Word}
    {F : Frame} (hown : s.tables L (D, pdIndex virtAddr) = some F)
    (habsent : ¬ Has (s.memory F (ptIndex virtAddr)) pageFlagPresent)
    (hcount : count = s.memNumVpages) :
    Restored L s { s with
      memory := Paging.synced L s.pageDirsUsed virtAddr
        ((Paging.synced L s.pageDirsUsed virtAddr
          (s.memory.write F (ptIndex virtAddr) x)).write F (ptIndex virtAddr) 0)
      memNumVpages := count } := by
  have hcoherent := h.translating.coherent
  refine restored_of_memory hcoherent (P := fun _ => True) (fun _ => trivial)
    (fun _ _ _ _ => trivial) (fun f _ => ?_) hcount rfl
  refine hcoherent.halves.synced_eq (fun _ => True) trivial (fun f _ i hcopied => ?_) trivial
  by_cases hslot : f = F ∧ i = ptIndex virtAddr
  · rw [hslot.1, hslot.2, PhysicalMemory.write_self]
    exact (h.clean D _ F hown _ habsent).symm
  · rw [PhysicalMemory.write_of_ne _ (not_and_or.mp hslot),
      Paging.synced_of_not_copied _ hcopied, PhysicalMemory.write_of_ne _ (not_and_or.mp hslot)]

/-- A table that was made for the page goes with it. -/
theorem Restorable.restored_created (h : Restorable L s) {D : Dir} {virtAddr x e count : Word}
    (hD : s.Edits L virtAddr D)
    (habsent : ¬ Has (s.memory (L.frame D) (pdIndex virtAddr)) pageFlagPresent) {F : Frame}
    (hF : ∀ D', F ≠ L.frame D') (hclear : s.pmm.used F.toNat = false)
    (hcount : count = s.memNumVpages) :
    Restored L s { s with
      memory := Paging.synced L s.pageDirsUsed virtAddr
        (((Paging.synced L s.pageDirsUsed virtAddr
          (((s.memory.write (L.frame D) (pdIndex virtAddr) e).zero F).write F
            (ptIndex virtAddr) x)).write F (ptIndex virtAddr) 0).write (L.frame D)
              (pdIndex virtAddr) 0)
      memNumVpages := count
      pmm := (s.pmm.take F.toNat).freed F.toNat } := by
  have hcoherent := h.translating.coherent
  have htables := h.translating.tables
  refine restored_of_memory hcoherent (P := fun f => f ≠ F) (fun D' => (hF D').symm)
    (fun D' k F' htable => ?_) (fun f hf => ?_) hcount (h.sized.freed_take hclear)
  · rintro rfl
    exact Bool.false_ne_true (hclear.symm.trans (htables.accounted.used htable))
  refine hcoherent.halves.synced_eq (fun f => f ≠ F) (hF .kernel).symm
    (fun f hf i hcopied => ?_) hf
  by_cases hslot : f = L.frame D ∧ i = pdIndex virtAddr
  · -- The entry of a directory that has no table is zero.
    rw [hslot.1, hslot.2, PhysicalMemory.write_self]
    by_contra hne
    have hown := Paging.tables_eq_some.mpr ⟨hD.live, hD.owns, Ne.symm hne, rfl⟩
    exact habsent (htables.sound D _ _ hown).present
  · rw [PhysicalMemory.write_of_ne _ (not_and_or.mp hslot),
      PhysicalMemory.write_of_ne _ (Or.inl hf), Paging.synced_of_not_copied _ hcopied,
      PhysicalMemory.write_of_ne _ (Or.inl hf), PhysicalMemory.zero_of_ne _ hf,
      PhysicalMemory.write_of_ne _ (not_and_or.mp hslot)]

/-- What the two functions do in turn: `m` is the memory with the table for the page, and `m'`
the one in which the page and perhaps the table are gone again. -/
structure RoundTrip (L : Layout) (s u : Paging) (D : Dir) (virtAddr flags pte : Word) (F : Frame)
    (m m' : PhysicalMemory) (pmm pmm' : Pmm) : Prop where
  mapped : Paging.TableStep L s.memory s.pmm D (pdIndex virtAddr) flags F m pmm
  entry : Paging.synced L s.pageDirsUsed virtAddr (m.write F (ptIndex virtAddr) pte)
    (L.frame D) (pdIndex virtAddr) = m (L.frame D) (pdIndex virtAddr)
  unmapped : Paging.RemoveStep L
    ((Paging.synced L s.pageDirsUsed virtAddr (m.write F (ptIndex virtAddr) pte)).write F
      (ptIndex virtAddr) 0) pmm D (pdIndex virtAddr) m' pmm'
  owner : Has (m (L.frame D) (pdIndex virtAddr)) pageFlagOwner
  final : u = { s with
    memory := Paging.synced L s.pageDirsUsed virtAddr m'
    memNumVpages := s.memNumVpages + 1 + -1
    pmm := pmm' }

theorem Restorable.exists_roundTrip (h : Restorable L s) {D : Dir}
    {virtAddr physAddr flags : Word} (hD : s.Edits L virtAddr D)
    (hordered : (memMapPage virtAddr physAddr flags).Ordered L s)
    (hmap : s.memMapPage L virtAddr physAddr flags = some t) :
    ∃ u F m m' pmm pmm',
      t.memUnmapPage L virtAddr = some (physAddr ||| flags ||| pageFlagPresent, u) ∧
      RoundTrip L s u D virtAddr flags (physAddr ||| pageFlagPresent ||| flags) F m m' pmm
        pmm' := by
  have ht := h.step hordered hmap
  obtain ⟨⟨hordinary, -⟩, ⟨-, hgranted⟩, hflags⟩ := hordered
  have hcore := h.translating.coherent.core
  have hcoreT := ht.translating.coherent.core
  have hmapped := h.translating.mapped hordinary hD hflags hgranted hmap
  obtain ⟨F, m, pmm, hstep, hT⟩ := Paging.memMapPage_cases hcore hD hflags.frameOf_eq hmap
  have hDt : t.Edits L virtAddr D := ⟨by rw [hT]; exact hD.frame, hD.owns⟩
  have hslot := hmapped.slot
  have hpage : Has (physAddr ||| pageFlagPresent ||| flags) pageFlagPresent := by
    have hbit : pageFlagPresent.getLsbD 0 = true := by decide
    simp [hbit]
  have hown := Paging.tables_eq_some.mpr ⟨hDt.live, hDt.owns, hmapped.present.ne_zero, rfl⟩
  have hsound := ht.translating.tables.sound D _ _ hown
  obtain ⟨pte, u, hunmap⟩ := ht.translating.tables.exists_memUnmapPage hcoreT ht.sized hDt
  have hfinds := (Paging.finds_iff hcoreT hDt).mpr ⟨hmapped.present, by rwa [hslot]⟩
  have hne := (Paging.memUnmapPage_of_finds hfinds hunmap).2
  rcases Paging.memUnmapPage_cases hcoreT hDt hunmap with
    ⟨hzero, -⟩ | ⟨-, -, hpte, m', pmm', hremove, hfinal⟩
  · exact absurd hzero hne
  -- The page was mapped without the owner flag, so that its frame is not given back.
  have hnoOwner : ¬ Has pte pageFlagOwner := by
    rw [hpte]
    exact hsound.pages _
  rw [hslot] at hpte
  have hreturned : pte = physAddr ||| flags ||| pageFlagPresent := by
    rw [hpte, BitVec.or_assoc, BitVec.or_comm pageFlagPresent, ← BitVec.or_assoc]
  rw [Paging.releasePage, if_neg hnoOwner] at hfinal
  have hentry : t.memory (L.frame D) (pdIndex virtAddr) = m (L.frame D) (pdIndex virtAddr) := by
    rw [hT]
    exact (Paging.synced_owned _ _ _ hD.owns).trans
      (PhysicalMemory.write_of_ne _ (Or.inl (hstep.apart hcore hD.owns D).symm))
  have howner := hsound.owner
  rw [hentry] at howner hremove
  rw [(hstep.entry hcore hflags.frameOf_eq).1] at hremove
  refine ⟨u, F, m, m', pmm, pmm', by rw [hunmap, hreturned], hstep, ?_, ?_, howner, ?_⟩
  · rw [hT] at hentry
    exact hentry
  · rw [hT] at hremove
    exact hremove
  · rw [hT] at hfinal
    exact hfinal

/-- A table that was there before is not empty, and one that was made for the page is. -/
theorem RoundTrip.restored {D : Dir} {virtAddr flags entry : Word} {F : Frame}
    {m m' : PhysicalMemory} {pmm pmm' : Pmm} {u : Paging}
    (htrip : RoundTrip L s u D virtAddr flags entry F m m' pmm pmm') (h : Restorable L s)
    (hD : s.Edits L virtAddr D) (hflags : frameOf flags = 0)
    (hgranted : s.TableGranted L virtAddr)
    (habsent : Has (s.memory (L.frame D) (pdIndex virtAddr)) pageFlagPresent →
      ¬ Has (s.memory (frameOf (s.memory (L.frame D) (pdIndex virtAddr))) (ptIndex virtAddr))
        pageFlagPresent) : Restored L s u := by
  obtain ⟨hstep, hentry, hremove, howner, rfl⟩ := htrip
  have hcore := h.translating.coherent.core
  have htables := h.translating.tables
  have hF := hstep.apart hcore hD.owns
  have hframe := (hstep.entry hcore hflags).1
  have hcount : s.memNumVpages + 1 + -1 = s.memNumVpages := by
    rw [BitVec.add_assoc]
    exact BitVec.add_zero _
  -- The entry of the directory, and the pages of the table, when the page is gone.
  have hentry' : (Paging.synced L s.pageDirsUsed virtAddr
      (m.write F (ptIndex virtAddr) entry)).write F (ptIndex virtAddr) 0 (L.frame D)
        (pdIndex virtAddr) = m (L.frame D) (pdIndex virtAddr) :=
    (PhysicalMemory.write_of_ne _ (Or.inl (hF D).symm)).trans hentry
  have hpages : ∀ j, (Paging.synced L s.pageDirsUsed virtAddr
      (m.write F (ptIndex virtAddr) entry)).write F (ptIndex virtAddr) 0 F j =
        if j = ptIndex virtAddr then 0 else m F j := by
    intro j
    by_cases hj : j = ptIndex virtAddr
    · rw [hj, PhysicalMemory.write_self, if_pos rfl]
    · rw [PhysicalMemory.write_of_ne _ (Or.inr hj), Paging.synced_apart _ _ _ hF,
        PhysicalMemory.write_of_ne _ (Or.inr hj), if_neg hj]
  cases hstep with
  | present hpresent =>
      have hown := Paging.tables_eq_some.mpr ⟨hD.live, hD.owns, hpresent.ne_zero, rfl⟩
      cases hremove with
      | kept hkept => exact h.restored_present hown (habsent hpresent) hcount
      | removed hempty howner' =>
          obtain ⟨j, hj⟩ := (htables.sound D _ _ hown).filled
          have hempty' := hempty j
          rw [hentry', hpages, if_neg] at hempty'
          · exact absurd hj hempty'
          · rintro rfl
            exact habsent hpresent hj
  | created habsent' ptPaddr pmm halloc =>
      have hgrants := ((Paging.tableGranted_iff hcore hD).mp hgranted).resolve_left habsent'
      obtain ⟨hclear, rfl⟩ := hgrants.cases halloc
      cases hremove with
      | kept hkept =>
          rw [hentry', hframe] at hkept
          obtain ⟨j, hj⟩ := hkept howner
          rw [hpages, PhysicalMemory.zero_self, ite_self] at hj
          exact absurd hj (by decide)
      | removed hempty howner' =>
          rw [hentry', hframe]
          exact h.restored_created hD habsent' hF hclear hcount

/-- Mapping a page that is not mapped and unmapping it restores everything. -/
theorem Restorable.roundTrip (h : Restorable L s) {D₀ : Dir} (huse : s.InUse D₀)
    (hcurrent : s.cr3 = L.frame D₀) {virtAddr physAddr flags : Word}
    (hwindow : virtAddr < 0xFFC00000) (hunmapped : walk s.memory s.cr3 virtAddr = none)
    (haligned : physAddr &&& 0xFFF = 0) (hflags : PlainFlags flags)
    (hsupplied : TableSupplied L s virtAddr) :
    ∃ t u, s.memMapPage L virtAddr physAddr flags = some t ∧
      t.memUnmapPage L virtAddr = some (physAddr ||| flags ||| pageFlagPresent, u) ∧
      Restored L s u := by
  have htrans := h.translating
  have hordinary := htrans.coherent.ordinary_of_unmapped huse hcurrent hwindow hunmapped
  obtain ⟨D, hD⟩ := htrans.coherent.core.edits hordinary
  obtain ⟨t, hmap⟩ := hsupplied.memMapPage physAddr flags
  have hforeign : ¬ Has (physAddr ||| flags) pageFlagOwner := by
    rw [has_owner, BitVec.getLsbD_or, getLsbD_of_page haligned (by decide),
      hflags.getLsbD (by decide)]
    decide
  obtain ⟨u, F, m, m', pmm, pmm', hunmap, htrip⟩ := h.exists_roundTrip hD
    ⟨⟨hordinary, hflags.frameOf_eq⟩, ⟨hforeign, hsupplied.granted⟩, hflags⟩ hmap
  refine ⟨t, u, hmap, hunmap, ?_⟩
  exact htrip.restored h hD hflags.frameOf_eq hsupplied.granted
    (htrans.absent_of_unmapped huse hcurrent hD hunmapped)

/-- In every state that a run reaches in which the allocator does not fail, what is mapped and
unmapped again leaves no trace. -/
theorem memMapPage_memUnmapPage (m : PhysicalMemory) (memHigh : Nat) {physicalAllocstart : Nat}
    (hbehind : Behind L physicalAllocstart) {calls : List PagingCall}
    (hcalls : Admissible (step L) (Ordered L)
      (Paging.initDirectories L m memHigh physicalAllocstart) calls)
    (hrun : runSteps (step L) (Paging.initDirectories L m memHigh physicalAllocstart) calls =
      some s)
    {D₀ : Dir} (huse : s.InUse D₀) (hcurrent : s.cr3 = L.frame D₀)
    {virtAddr physAddr flags : Word} (hwindow : virtAddr < 0xFFC00000)
    (hunmapped : walk s.memory s.cr3 virtAddr = none) (haligned : physAddr &&& 0xFFF = 0)
    (hflags : PlainFlags flags) (hsupplied : TableSupplied L s virtAddr) :
    ∃ t u, s.memMapPage L virtAddr physAddr flags = some t ∧
      t.memUnmapPage L virtAddr = some (physAddr ||| flags ||| pageFlagPresent, u) ∧
      Restored L s u :=
  (runSteps_invariant (Restorable L) (fun _ _ _ h hordered hcall => h.step hordered hcall)
    (restorable_initDirectories hbehind m memHigh) hcalls hrun).roundTrip huse hcurrent hwindow
      hunmapped haligned hflags hsupplied

theorem memMapPage_memUnmapPage_fourCalls :
    ∃ s, runSteps (step exampleLayout)
        (Paging.initDirectories exampleLayout (fun _ _ => 0) 0x8000000 0x1000000) exampleCalls =
          some s ∧
      ∃ t u, s.memMapPage exampleLayout 0xD0001000 0x05002000 pageFlagUser = some t ∧
        t.memUnmapPage exampleLayout 0xD0001000 = some (0x05002005, u) ∧
        Restored exampleLayout s u := by
  have hstate : (runSteps (step exampleLayout)
      (Paging.initDirectories exampleLayout (fun _ _ => 0) 0x8000000 0x1000000)
        exampleCalls).any (fun s => s.InUse (.user 0) ∧ s.cr3 = exampleLayout.frame (.user 0) ∧
          walk s.memory s.cr3 0xD0001000 = none ∧
          Has ((s.enter exampleLayout 0xD0001000).memory
            (s.enter exampleLayout 0xD0001000).recPageDir (pdIndex 0xD0001000))
              pageFlagPresent) = true := by
    decide +kernel
  obtain ⟨s, hrun, hs⟩ := (Option.any_eq_true ..).mp hstate
  obtain ⟨huse, hcurrent, hunmapped, hpresent⟩ := of_decide_eq_true hs
  exact ⟨s, hrun, memMapPage_memUnmapPage _ _ behind_exampleLayout (by decide +kernel) hrun huse
    hcurrent (by decide) hunmapped (by decide) (by decide) (Or.inl hpresent)⟩

end PagingCall

end Senob.Memory
