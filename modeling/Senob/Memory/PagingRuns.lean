import Senob.Memory.PagingCases

/-!
# Runs of the paging functions

The functions of `paging.c` as the steps of one system: they may be called in any order, with
any directory current. Two facts hold throughout. The directories stay sound, which is what
makes the recursive window show what the functions expect; and the upper quarter of every
directory in use is a copy of the kernel's.
-/

namespace Senob.Memory

open Senob.Foundation

namespace Paging

/-! ## Sound memory -/

section Sound

variable {L : Layout} {m m' : PhysicalMemory} {live : Dir → Prop}

namespace Sound

theorem imp (h : Sound L m live) {live' : Dir → Prop} (himp : ∀ D, live' D → live D) :
    Sound L m live' :=
  ⟨fun D hD => h.self D (himp D hD), h.apart, h.boot⟩

/-- Frames that are no directories may be changed. -/
theorem of_dirs (h : Sound L m live) (hdirs : ∀ D i, m' (L.frame D) i = m (L.frame D) i) :
    Sound L m' live := by
  refine ⟨fun D hD => ?_, fun D k hk D' => ?_, fun k hk => ?_⟩
  · rw [hdirs, h.self D hD]
  · rw [hdirs]
    exact h.apart D k hk D'
  · exact (hdirs .kernel k).trans (h.boot k hk)

/-- An entry of its own that a directory gets must not lead into a directory. -/
theorem of_edit (h : Sound L m live) {D : Dir} {k : Index} (hk : Owns D k)
    (hdirs : ∀ D' i, D' ≠ D ∨ i ≠ k → m' (L.frame D') i = m (L.frame D') i)
    (hentry : ∀ D', frameOf (m' (L.frame D) k) ≠ L.frame D') : Sound L m' live := by
  refine ⟨fun D' hD' => ?_, fun D' i hi D'' => ?_, fun i hi => ?_⟩
  · rw [hdirs D' 1023 (Or.inr hk.ne_window.symm), h.self D' hD']
  · by_cases hsame : D' = D ∧ i = k
    · rw [hsame.1, hsame.2]
      exact hentry D''
    · rw [hdirs D' i (not_and_or.mp hsame)]
      exact h.apart D' i hi D''
  · refine (hdirs .kernel i ?_).trans (h.boot i hi)
    by_contra hsame
    obtain ⟨hD, rfl⟩ := not_or.mp hsame |>.imp not_not.mp not_not.mp
    rw [← hD] at hk
    exact hk.1 hi

theorem synced (h : Sound L m live) (used : Fin 256 → Bool) (virtAddr : Word) :
    Sound L (Paging.synced L used virtAddr m) live := by
  unfold Paging.synced
  split
  swap
  · exact h
  have hkernel : ∀ k, syncKernelHalves L used m L.kernelDirectory k =
      m L.kernelDirectory k := fun k =>
    syncKernelHalves_of_ne L used m
      (Or.inl fun d => (L.pageDir_ne_kernelDirectory d).symm)
  refine ⟨fun D hD => ?_, fun D k hk D' => ?_, fun k hk => ?_⟩
  · rw [syncKernelHalves_of_ne L used m (Or.inr (Or.inr rfl)), h.self D hD]
  · have hsame : syncKernelHalves L used m (L.frame D) k = m (L.frame D) k := by
      cases D with
      | kernel => exact hkernel k
      | user i => exact syncKernelHalves_of_ne L used m (Or.inr (Or.inl hk))
    rw [hsame]
    exact h.apart D k hk D'
  · rw [hkernel, h.boot k hk]

end Sound

end Sound

variable {L : Layout} {s t : Paging}

/-! ## One call -/

theorem Core.of_pmm (h : s.Core L) {pmm : Pmm} (hstart : pmm.startByte = s.pmm.startByte) :
    Core L { s with pmm := pmm } :=
  ⟨h.current, h.sound, fun D => by rw [hstart]; exact h.below D⟩

theorem startByte_allocPageframe {p p' : Pmm} {addr : Nat}
    (h : p.allocPageframe = some (addr, p')) : p'.startByte = p.startByte := by
  rcases Pmm.allocPageframe_cases h with ⟨-, rfl⟩ | ⟨f, -, -, -, -, rfl⟩
  · rfl
  · exact p.startByte_take _

theorem TableStep.startByte {D : Dir} {k : Index} {flags : Word} {F : Frame}
    {m m' : PhysicalMemory} {pmm pmm' : Pmm}
    (h : TableStep L m pmm D k flags F m' pmm') : pmm'.startByte = pmm.startByte := by
  cases h with
  | present hpresent => rfl
  | created habsent ptPaddr pmm' halloc => exact startByte_allocPageframe halloc

theorem Core.synced (h : s.Core L) (virtAddr : Word) :
    Core L { s with memory := Paging.synced L s.pageDirsUsed virtAddr s.memory } :=
  ⟨h.current, h.sound.synced s.pageDirsUsed virtAddr, h.below⟩

/-- A page may be entered into the table that `mem_map_page` uses. -/
theorem TableStep.core {D : Dir} {k : Index} {flags : Word} {F : Frame} {m : PhysicalMemory}
    {pmm : Pmm} (hstep : TableStep L s.memory s.pmm D k flags F m pmm) (h : s.Core L)
    (hk : Owns D k) (hflags : frameOf flags = 0) (j : Index) (e count : Word) :
    Core L { s with memory := m.write F j e, memNumVpages := count, pmm := pmm } := by
  have hF := hstep.apart h hk
  have htable : Sound L m (s.Live L) := by
    refine h.sound.of_edit hk (fun D' i hne => hstep.dirs h hne) fun D' => ?_
    rw [(hstep.entry h hflags).1]
    exact hF D'
  refine ⟨h.current, htable.of_dirs fun D' i =>
    PhysicalMemory.write_of_ne _ (Or.inl (hF D').symm), fun D' => ?_⟩
  rw [hstep.startByte]
  exact h.below D'

theorem Core.memMapPage (h : s.Core L) {virtAddr physAddr flags : Word}
    (hordinary : s.Ordinary L virtAddr) (hflags : frameOf flags = 0)
    (hcall : s.memMapPage L virtAddr physAddr flags = some t) : t.Core L := by
  obtain ⟨D, hD⟩ := h.edits hordinary
  obtain ⟨F, m, pmm, hstep, rfl⟩ := memMapPage_cases h hD hflags hcall
  exact (hstep.core h hD.owns hflags _ _ _).synced virtAddr

theorem Core.mapNewFrame (h : s.Core L) {virtAddr flags : Word}
    (hordinary : s.Ordinary L virtAddr) (hflags : frameOf flags = 0)
    (hcall : s.mapNewFrame L virtAddr flags = some t) : t.Core L := by
  obtain ⟨⟨physAddr, pmm⟩, halloc, hcall⟩ := Option.bind_eq_some_iff.mp hcall
  exact (h.of_pmm (startByte_allocPageframe halloc)).memMapPage hordinary hflags hcall

/-- A page may be taken out of its table, and the table out of its directory. -/
theorem RemoveStep.core {D : Dir} {k j : Index} {m : PhysicalMemory} {pmm : Pmm}
    (hstep : RemoveStep L (s.memory.write (frameOf (s.memory (L.frame D) k)) j 0) s.pmm D k m pmm)
    (h : s.Core L) (hk : Owns D k) (count : Word) :
    Core L { s with memory := m, memNumVpages := count, pmm := pmm } := by
  have hpage : Sound L (s.memory.write (frameOf (s.memory (L.frame D) k)) j 0) (s.Live L) :=
    h.sound.of_dirs fun D' i => PhysicalMemory.write_of_ne _ (Or.inl (h.sound.apart D k hk D').symm)
  have htable : Sound L m (s.Live L) := by
    refine hpage.of_edit hk (fun D' i hne => hstep.dirs hne) fun D' => ?_
    cases hstep with
    | kept hkept => exact hpage.apart D k hk D'
    | removed hempty howner =>
        rw [PhysicalMemory.write_self, frameOf_zero]
        exact (L.frame_ne_zero D').symm
  have hstart : pmm.startByte = s.pmm.startByte := by
    cases hstep with
    | kept hkept => rfl
    | removed hempty howner => exact Pmm.startByte_freed _ _
  refine ⟨h.current, htable, fun D' => ?_⟩
  rw [hstart]
  exact h.below D'

theorem Core.memUnmapPage (h : s.Core L) {virtAddr pte : Word}
    (hordinary : s.Ordinary L virtAddr)
    (hcall : s.memUnmapPage L virtAddr = some (pte, t)) : t.Core L := by
  obtain ⟨D, hD⟩ := h.edits hordinary
  rcases memUnmapPage_cases h hD hcall with ⟨-, rfl⟩ | ⟨-, -, -, m, pmm, hstep, rfl⟩
  · exact h.entered hD
  · exact ((hstep.core h hD.owns _).synced virtAddr).of_pmm (Released.releasePage pmm pte).startByte

theorem Core.memAllocPageDir (h : s.Core L) {result : Option (Fin 256)}
    (hcall : s.memAllocPageDir L = (result, t)) : t.Core L := by
  rcases memAllocPageDir_cases hcall with ⟨-, rfl, -⟩ | ⟨i, -, -, rfl⟩
  · exact h
  have hother : ∀ D, D ≠ .user i → L.frame D ≠ L.pageDir i := fun D hne heq =>
    hne (L.frame_injective heq)
  refine ⟨h.current, ⟨fun D hD => ?_, fun D k hk D' => ?_, fun k hk => ?_⟩, h.below⟩
  · by_cases hsame : D = .user i
    · subst hsame
      simp [Layout.frame, freshDirectory]
    · simp only [if_neg (hother D hsame)]
      refine h.sound.self D (hD.imp_left fun huse => ?_)
      cases D with
      | kernel => trivial
      | user j =>
          have hj : j ≠ i := fun heq => hsame (congrArg Dir.user heq)
          simpa [InUse, Function.update_of_ne hj] using huse
  · by_cases hsame : D = .user i
    · subst hsame
      have hlow : k.toNat < 768 := hk
      simp only [Layout.frame, if_true, freshDirectory, if_neg hk.ne_window,
        if_neg (Nat.not_le_of_lt hlow)]
      exact (L.frame_ne_zero D').symm
    · simp only [if_neg (hother D hsame)]
      exact h.sound.apart D k hk D'
  · simp only [if_neg (L.pageDir_ne_kernelDirectory i).symm]
    exact h.sound.boot k hk

/-- What `mem_free_page_dir` does to the directories, and beyond them. -/
theorem Core.memFreePageDir_cases (h : s.Core L) {i : Fin 256} (hi : s.pageDirsUsed i = true)
    (hcall : s.memFreePageDir L i = some t) :
    ∃ u, FreedTables { s with cr3 := L.pageDir i } (L.pageDir i) 768 u ∧
      (∀ D k, u.memory (L.frame D) k =
        if D = .user i ∧ k.toNat < 768 then 0 else s.memory (L.frame D) k) ∧
      t = { s with
        memory := u.memory
        pageDirsUsed := Function.update s.pageDirsUsed i false
        pmm := u.pmm } := by
  have hself := h.sound.self (.user i) (Or.inl hi)
  have hF : ∀ j : Index, j.toNat < 768 → ∀ D, frameOf (s.memory (L.pageDir i) j) ≠ L.frame D :=
    fun j hj D => h.sound.apart (.user i) j hj D
  obtain ⟨u, hu, ht⟩ := Paging.memFreePageDir_cases hself (fun j hj => hF j hj (.user i)) hcall
  refine ⟨u, hu, fun D k => ?_, ht⟩
  -- The tables are no directories, so a directory changes only where it is the freed one.
  rw [hu.memory]
  refine if_congr ⟨?_, ?_⟩ rfl rfl
  · rintro (⟨hD, hk⟩ | ⟨j, hj, -, heq⟩)
    · exact ⟨L.frame_injective hD, hk⟩
    · exact absurd heq.symm (hF j hj D)
  · rintro ⟨rfl, hk⟩
    exact Or.inl ⟨rfl, hk⟩

theorem Core.memFreePageDir (h : s.Core L) {i : Fin 256} (hi : s.pageDirsUsed i = true)
    (hcall : s.memFreePageDir L i = some t) : t.Core L := by
  obtain ⟨u, hu, hdirs, rfl⟩ := h.memFreePageDir_cases hi hcall
  refine ⟨h.current, ⟨fun D hD => ?_, fun D k hk D' => ?_, fun k hk => ?_⟩, fun D => ?_⟩
  · rw [hdirs, if_neg fun hlow => absurd hlow.2 (by decide)]
    refine h.sound.self D (hD.imp_left fun huse => ?_)
    cases D with
    | kernel => trivial
    | user j =>
        by_cases hj : j = i
        · rw [hj]
          exact hi
        · simpa [InUse, Function.update_of_ne hj] using huse
  · rw [hdirs]
    split
    · rw [frameOf_zero]
      exact (L.frame_ne_zero D').symm
    · exact h.sound.apart D k hk D'
  · exact ((hdirs .kernel k).trans (if_neg fun hsame => nomatch hsame.1)).trans
      (h.sound.boot k hk)
  · rw [hu.pmm.startByte]
    exact h.below D

theorem Core.memChangePageDirectory (h : s.Core L) {D : Dir} (hD : s.InUse D) :
    (s.memChangePageDirectory (L.frame D)).Core L := by
  refine ⟨⟨D, rfl⟩, h.sound.imp fun D' hD' => ?_, h.below⟩
  rcases hD' with huse | hcr3
  · exact Or.inl huse
  · exact Or.inl (L.frame_injective hcr3 ▸ hD)

/-! ## The kernel's half -/

/-- The directories in use repeat the upper entries of the kernel's, without the ownership of
their tables. -/
def KernelHalves (L : Layout) (used : Fin 256 → Bool) (m : PhysicalMemory) : Prop :=
  ∀ i, used i = true → ∀ k : Index, 768 ≤ k.toNat → k.toNat < 1023 →
    m (L.pageDir i) k = m L.kernelDirectory k &&& ~~~pageFlagOwner

/-- A function that edits the kernel's half synchronises it, and another one leaves it alone. -/
theorem KernelHalves.synced {used : Fin 256 → Bool} {m m' : PhysicalMemory} {virtAddr : Word}
    (h : KernelHalves L used m)
    (hlow : ¬ virtAddr ≥ kernelStart → ∀ D (k : Index), 768 ≤ k.toNat →
      m' (L.frame D) k = m (L.frame D) k) :
    KernelHalves L used (Paging.synced L used virtAddr m') := by
  intro i hi k hk hwindow
  unfold Paging.synced
  by_cases hkernel : virtAddr ≥ kernelStart
  · rw [if_pos hkernel, syncKernelHalves_used L used m' hi hk hwindow,
      syncKernelHalves_of_ne L used m' (Or.inl fun d => (L.pageDir_ne_kernelDirectory d).symm)]
  · rw [if_neg hkernel]
    have hdir : m' (L.pageDir i) k = m (L.pageDir i) k := hlow hkernel (.user i) k hk
    have hkernelDir : m' L.kernelDirectory k = m L.kernelDirectory k := hlow hkernel .kernel k hk
    rw [hdir, hkernelDir, h i hi k hk hwindow]

/-- A function that works below `KERNEL_START` edits an entry of the lower half. -/
theorem pdIndex_ne_of_high {virtAddr : Word} (hlow : ¬ virtAddr ≥ kernelStart) {k : Index}
    (hk : 768 ≤ k.toNat) : k ≠ pdIndex virtAddr := by
  rintro rfl
  exact hlow ((kernelStart_le_iff virtAddr).mpr hk)

theorem KernelHalves.memMapPage (h : KernelHalves L s.pageDirsUsed s.memory) (hcore : s.Core L)
    {virtAddr physAddr flags : Word} (hordinary : s.Ordinary L virtAddr)
    (hflags : frameOf flags = 0) (hcall : s.memMapPage L virtAddr physAddr flags = some t) :
    KernelHalves L t.pageDirsUsed t.memory := by
  obtain ⟨D, hD⟩ := hcore.edits hordinary
  obtain ⟨F, m, pmm, hstep, rfl⟩ := memMapPage_cases hcore hD hflags hcall
  refine h.synced fun hlow D' k hk => ?_
  rw [PhysicalMemory.write_of_ne _ (Or.inl (hstep.apart hcore hD.owns D').symm),
    hstep.dirs hcore (Or.inr (pdIndex_ne_of_high hlow hk))]

theorem KernelHalves.memUnmapPage (h : KernelHalves L s.pageDirsUsed s.memory)
    (hcore : s.Core L) {virtAddr pte : Word} (hordinary : s.Ordinary L virtAddr)
    (hcall : s.memUnmapPage L virtAddr = some (pte, t)) :
    KernelHalves L t.pageDirsUsed t.memory := by
  obtain ⟨D, hD⟩ := hcore.edits hordinary
  rcases memUnmapPage_cases hcore hD hcall with ⟨-, rfl⟩ | ⟨-, -, -, m, pmm, hstep, rfl⟩
  · rw [enter_eq]
    exact h
  · refine h.synced fun hlow D' k hk => ?_
    rw [hstep.dirs (Or.inr (pdIndex_ne_of_high hlow hk)),
      PhysicalMemory.write_of_ne _ (Or.inl (hcore.sound.apart D _ hD.owns D').symm)]

theorem KernelHalves.memAllocPageDir (h : KernelHalves L s.pageDirsUsed s.memory)
    {result : Option (Fin 256)} (hcall : s.memAllocPageDir L = (result, t)) :
    KernelHalves L t.pageDirsUsed t.memory := by
  rcases memAllocPageDir_cases hcall with ⟨-, rfl, -⟩ | ⟨i, -, -, rfl⟩
  · exact h
  intro j hj k hk hwindow
  simp only [if_neg (L.pageDir_ne_kernelDirectory i).symm]
  by_cases hsame : j = i
  · subst hsame
    have hne : k ≠ 1023 := by
      rintro rfl
      exact absurd hwindow (by decide)
    rw [if_pos rfl, freshDirectory, if_neg hne, if_pos hk]
  · rw [if_neg fun heq => hsame (L.pageDir_injective heq)]
    exact h j (by simpa [Function.update_of_ne hsame] using hj) k hk hwindow

theorem KernelHalves.memFreePageDir (h : KernelHalves L s.pageDirsUsed s.memory)
    (hcore : s.Core L) {i : Fin 256} (hi : s.pageDirsUsed i = true)
    (hcall : s.memFreePageDir L i = some t) : KernelHalves L t.pageDirsUsed t.memory := by
  obtain ⟨u, -, hdirs, rfl⟩ := hcore.memFreePageDir_cases hi hcall
  have hhigh : ∀ D (k : Index), 768 ≤ k.toNat → u.memory (L.frame D) k = s.memory (L.frame D) k :=
    fun D k hk => (hdirs D k).trans (if_neg fun hlow => Nat.not_lt_of_le hk hlow.2)
  intro j hj k hk hwindow
  by_cases hsame : j = i
  · simp [hsame] at hj
  · have hused : s.pageDirsUsed j = true := by simpa [Function.update_of_ne hsame] using hj
    refine (hhigh (.user j) k hk).trans ((h j hused k hk hwindow).trans ?_)
    exact congrArg (· &&& ~~~pageFlagOwner) (hhigh .kernel k hk).symm

end Paging

/-! ## Calls -/

/-- A call of one of the functions of `paging.c`. -/
inductive PagingCall where
  | memMapPage (virtAddr physAddr flags : Word)
  | mapNewFrame (virtAddr flags : Word)
  | memUnmapPage (virtAddr : Word)
  | memAllocPageDir
  | memFreePageDir (i : Fin 256)
  | memChangePageDirectory (D : Dir)

namespace PagingCall

variable (L : Layout)

def step (s : Paging) : PagingCall → Option Paging
  | memMapPage virtAddr physAddr flags => s.memMapPage L virtAddr physAddr flags
  | mapNewFrame virtAddr flags => s.mapNewFrame L virtAddr flags
  | memUnmapPage virtAddr => (s.memUnmapPage L virtAddr).map Prod.snd
  | memAllocPageDir => some (s.memAllocPageDir L).2
  | memFreePageDir i => s.memFreePageDir L i
  | memChangePageDirectory D => some (s.memChangePageDirectory (L.frame D))

/-- What the callers see to: pages lie below the window and outside the pages of 4 MiB, flags
are flags, and only directories in use are freed or made current. -/
def Enabled (s : Paging) : PagingCall → Prop
  | memMapPage virtAddr _ flags => s.Ordinary L virtAddr ∧ frameOf flags = 0
  | mapNewFrame virtAddr flags => s.Ordinary L virtAddr ∧ frameOf flags = 0
  | memUnmapPage virtAddr => s.Ordinary L virtAddr
  | memAllocPageDir => True
  | memFreePageDir i => s.pageDirsUsed i = true
  | memChangePageDirectory D => s.InUse D

instance (s : Paging) : DecidablePred (s.InUse)
  | .kernel => isTrue trivial
  | .user i => inferInstanceAs (Decidable (s.pageDirsUsed i = true))

instance (s : Paging) (virtAddr : Word) : Decidable (s.Ordinary L virtAddr) :=
  inferInstanceAs (Decidable (_ ∧ (_ → _)))

instance (s : Paging) : DecidablePred (Enabled L s)
  | memMapPage _ _ _ => inferInstanceAs (Decidable (_ ∧ _))
  | mapNewFrame _ _ => inferInstanceAs (Decidable (_ ∧ _))
  | memUnmapPage virtAddr => inferInstanceAs (Decidable (s.Ordinary L virtAddr))
  | memAllocPageDir => isTrue trivial
  | memFreePageDir i => inferInstanceAs (Decidable (s.pageDirsUsed i = true))
  | memChangePageDirectory D => inferInstanceAs (Decidable (s.InUse D))

variable {L} {s t : Paging}

theorem core_step (hs : s.Core L) {call : PagingCall} (henabled : call.Enabled L s)
    (hcall : call.step L s = some t) : t.Core L := by
  cases call with
  | memMapPage virtAddr physAddr flags => exact hs.memMapPage henabled.1 henabled.2 hcall
  | mapNewFrame virtAddr flags => exact hs.mapNewFrame henabled.1 henabled.2 hcall
  | memUnmapPage virtAddr =>
      obtain ⟨⟨pte, u⟩, hunmap, rfl⟩ := Option.map_eq_some_iff.mp hcall
      exact hs.memUnmapPage henabled hunmap
  | memAllocPageDir =>
      obtain rfl := Option.some.inj hcall
      exact hs.memAllocPageDir rfl
  | memFreePageDir i => exact hs.memFreePageDir henabled hcall
  | memChangePageDirectory D =>
      obtain rfl := Option.some.inj hcall
      exact hs.memChangePageDirectory henabled

theorem kernelHalves_step (hs : s.Core L) (h : Paging.KernelHalves L s.pageDirsUsed s.memory)
    {call : PagingCall} (henabled : call.Enabled L s) (hcall : call.step L s = some t) :
    Paging.KernelHalves L t.pageDirsUsed t.memory := by
  cases call with
  | memMapPage virtAddr physAddr flags => exact h.memMapPage hs henabled.1 henabled.2 hcall
  | mapNewFrame virtAddr flags =>
      obtain ⟨⟨physAddr, pmm⟩, halloc, hcall⟩ := Option.bind_eq_some_iff.mp hcall
      exact Paging.KernelHalves.memMapPage (s := { s with pmm := pmm }) h
        (hs.of_pmm (Paging.startByte_allocPageframe halloc)) henabled.1 henabled.2 hcall
  | memUnmapPage virtAddr =>
      obtain ⟨⟨pte, u⟩, hunmap, rfl⟩ := Option.map_eq_some_iff.mp hcall
      exact h.memUnmapPage hs henabled hunmap
  | memAllocPageDir =>
      obtain rfl := Option.some.inj hcall
      exact h.memAllocPageDir rfl
  | memFreePageDir i => exact h.memFreePageDir hs henabled hcall
  | memChangePageDirectory D =>
      obtain rfl := Option.some.inj hcall
      exact h

/-! ## Boot -/

/-- The page that round `i` of the loop maps. -/
def initPage (i : Nat) : Word := 0xC3000000 + BitVec.ofNat 32 (i * 4096)

/-- The loop of `init_memory`. -/
@[irreducible]
def initCalls : List PagingCall :=
  (List.range 8192).map fun i => mapNewFrame (initPage i) (pageFlagPresent ||| pageFlagWrite)

theorem initMemory_eq_runSteps (m : PhysicalMemory) (memHigh physicalAllocstart : Nat) :
    Paging.initMemory L m memHigh physicalAllocstart =
      runSteps (step L) (Paging.initDirectories L m memHigh physicalAllocstart) initCalls := by
  unfold Paging.initMemory initCalls
  rw [runSteps_map]
  generalize List.range 8192 = rounds
  rfl

theorem initPage_bounds {i : Nat} (hi : i < 8192) :
    initPage i < 0xFFC00000 ∧ 780 ≤ (pdIndex (initPage i)).toNat ∧
      (pdIndex (initPage i)).toNat < 788 := by
  have haddr : (initPage i).toNat = 0xC3000000 + i * 4096 := by
    rw [initPage, BitVec.toNat_add, BitVec.toNat_ofNat,
      show (0xC3000000 : Word).toNat = 0xC3000000 from rfl]
    omega
  rw [BitVec.lt_def, toNat_pdIndex, haddr, show (0xFFC00000 : Word).toNat = 0xFFC00000 from rfl]
  omega

theorem not_isBoot_initPage {i : Nat} (hi : i < 8192) : ¬ IsBoot (pdIndex (initPage i)) := by
  obtain ⟨-, hlow, hhigh⟩ := initPage_bounds hi
  rintro (hzero | hkernel | hframebuffer)
  · rw [hzero] at hlow
    exact absurd hlow (by decide)
  · omega
  · rw [hframebuffer] at hhigh
    exact absurd hhigh (by decide)

theorem enabled_initCall {i : Nat} (hi : i < 8192) (s : Paging) :
    Enabled L s (mapNewFrame (initPage i) (pageFlagPresent ||| pageFlagWrite)) :=
  ⟨⟨(initPage_bounds hi).1, fun _ => not_isBoot_initPage hi⟩, by decide⟩

/-- `init_memory` is a run of enabled calls. -/
theorem admissible_initCalls : Admissible (step L) (Enabled L) s initCalls := by
  refine Admissible.of_forall fun call hcall s => ?_
  unfold initCalls at hcall
  obtain ⟨i, hi, rfl⟩ := List.mem_map.mp hcall
  exact enabled_initCall (List.mem_range.mp hi) s

/-- The page directories belong to the image of the kernel, which ends below
`physicalAllocstart`. -/
structure Behind (L : Layout) (physicalAllocstart : Nat) : Prop where
  frame_lt : ∀ D, (L.frame D).toNat < physicalAllocstart / pageFrameSize
  le_max : physicalAllocstart ≤ 0xFFFFF000

theorem Behind.lt_startByte {physicalAllocstart : Nat} (h : Behind L physicalAllocstart)
    (memHigh : Nat) (D : Dir) :
    (L.frame D).toNat < 8 * (Pmm.init physicalAllocstart memHigh).startByte := by
  have hlt := h.frame_lt D
  have hmax := h.le_max
  simp only [Pmm.startByte, Pmm.init, Pmm.ceilDiv, Pmm.and_seven, pageFrameSize] at hlt ⊢
  rw [Nat.mod_eq_of_lt (by omega)]
  split <;> omega

theorem zeroed_apply (m : PhysicalMemory) (dirs : List (Fin 256)) (f : Frame) (k : Index) :
    dirs.foldl (fun m i => m.zero (L.pageDir i)) m f k =
      if ∃ i ∈ dirs, f = L.pageDir i then 0 else m f k := by
  induction dirs generalizing m with
  | nil => simp
  | cons i rest ih =>
      rw [List.foldl_cons, ih]
      by_cases hf : f = L.pageDir i
      · simp [hf, PhysicalMemory.zero]
      · simp [hf, PhysicalMemory.zero]

theorem initDirectories_pageDir (m : PhysicalMemory) (memHigh physicalAllocstart : Nat)
    (i : Fin 256) (k : Index) :
    (Paging.initDirectories L m memHigh physicalAllocstart).memory (L.pageDir i) k = 0 := by
  unfold Paging.initDirectories
  dsimp only
  rw [zeroed_apply, if_pos ⟨i, List.mem_finRange i, rfl⟩]

theorem initDirectories_kernelDirectory (m : PhysicalMemory) (memHigh physicalAllocstart : Nat)
    (k : Index) :
    (Paging.initDirectories L m memHigh physicalAllocstart).memory L.kernelDirectory k =
      if k = 1023 then selfEntry L.kernelDirectory else bootDirectory k := by
  unfold Paging.initDirectories
  dsimp only
  rw [zeroed_apply, if_neg]
  swap
  · rintro ⟨i, -, heq⟩
    exact L.pageDir_ne_kernelDirectory i heq.symm
  · by_cases hk : k = 1023
    · rw [hk, PhysicalMemory.write_self, if_pos rfl]
    · rw [PhysicalMemory.write_of_ne _ (Or.inr hk), if_neg hk, Paging.bootMemory, if_pos rfl]

theorem bootDirectory_of_not_boot {k : Index} (h : ¬ IsBoot k) : bootDirectory k = 0 := by
  simp only [IsBoot, not_or] at h
  rw [bootDirectory, if_neg h.1, if_neg h.2.1, if_neg h.2.2]

theorem initDirectories_owned (m : PhysicalMemory) (memHigh physicalAllocstart : Nat) {D : Dir}
    {k : Index} (hk : Paging.Owns D k) :
    (Paging.initDirectories L m memHigh physicalAllocstart).memory (L.frame D) k = 0 := by
  cases D with
  | kernel =>
      refine (initDirectories_kernelDirectory m _ _ k).trans ?_
      rw [if_neg hk.2, bootDirectory_of_not_boot hk.1]
  | user i => exact initDirectories_pageDir m _ _ i k

/-- The state in which `init_memory` starts its loop. -/
theorem core_initDirectories {physicalAllocstart : Nat} (hbehind : Behind L physicalAllocstart)
    (m : PhysicalMemory) (memHigh : Nat) :
    (Paging.initDirectories L m memHigh physicalAllocstart).Core L := by
  refine ⟨⟨.kernel, rfl⟩, ⟨fun D hD => ?_, fun D k hk D' => ?_, fun k hk => ?_⟩,
    hbehind.lt_startByte memHigh⟩
  · cases D with
    | kernel => exact (initDirectories_kernelDirectory m _ _ 1023).trans (if_pos rfl)
    | user i =>
        rcases hD with huse | hcr3
        · exact absurd huse Bool.false_ne_true
        · exact absurd hcr3.symm (L.pageDir_ne_kernelDirectory i)
  · rw [initDirectories_owned m _ _ hk, frameOf_zero]
    exact (L.frame_ne_zero D').symm
  · have hne : k ≠ 1023 := by
      rintro rfl
      exact absurd hk (by decide)
    rw [initDirectories_kernelDirectory, if_neg hne]

/-! ## Every run -/

/-- Every address space that is in use sees the kernel's mappings, and itself in the window. -/
def Synchronised (L : Layout) (s : Paging) : Prop :=
  ∀ i, s.pageDirsUsed i = true →
    (∀ k : Index, 768 ≤ k.toNat → k.toNat ≤ 1022 →
      s.memory (L.pageDir i) k = s.memory L.kernelDirectory k &&& ~~~pageFlagOwner) ∧
    s.memory (L.pageDir i) 1023 = selfEntry (L.pageDir i)

/-- Soundness and the copies of the kernel's half, which no call breaks. -/
structure Coherent (L : Layout) (s : Paging) : Prop where
  core : s.Core L
  halves : Paging.KernelHalves L s.pageDirsUsed s.memory

theorem Coherent.step (h : Coherent L s) {call : PagingCall} (henabled : call.Enabled L s)
    (hcall : call.step L s = some t) : Coherent L t :=
  ⟨core_step h.core henabled hcall, kernelHalves_step h.core h.halves henabled hcall⟩

theorem coherent_initDirectories {physicalAllocstart : Nat}
    (hbehind : Behind L physicalAllocstart) (m : PhysicalMemory) (memHigh : Nat) :
    Coherent L (Paging.initDirectories L m memHigh physicalAllocstart) :=
  ⟨core_initDirectories hbehind m memHigh, fun _ hi => absurd hi Bool.false_ne_true⟩

theorem Coherent.synchronised (h : Coherent L s) : Synchronised L s := by
  intro i hi
  exact ⟨fun k hlow hhigh => h.halves i hi k hlow (Nat.lt_succ_of_le hhigh),
    h.core.sound.self (.user i) (Or.inl hi)⟩

/-- From the start of the loop of `init_memory` on, in every run of the functions of
`paging.c`, the directories in use agree with the kernel's. -/
theorem always_synchronised (m : PhysicalMemory) (memHigh : Nat) {physicalAllocstart : Nat}
    (hbehind : Behind L physicalAllocstart) {calls : List PagingCall}
    (hcalls : Admissible (step L) (Enabled L)
      (Paging.initDirectories L m memHigh physicalAllocstart) calls) :
    Always (step L) (Synchronised L) (Paging.initDirectories L m memHigh physicalAllocstart)
      calls :=
  (always_of_invariant (Coherent L) (fun _ _ _ h henabled hcall => h.step henabled hcall)
    (coherent_initDirectories hbehind m memHigh) hcalls).imp fun _ h => h.synchronised

/-- An image of the kernel above the first mebibyte. -/
def exampleLayout : Layout where
  kernelDirectory := 0x00120
  pageDirs := 0x00130
  kernelDirectory_pos := by decide
  pageDirs_pos := by decide
  pageDirs_fit := by decide
  apart := by decide

theorem behind_exampleLayout : Behind exampleLayout 0x1000000 := by
  refine ⟨fun D => ?_, by decide⟩
  cases D with
  | kernel => decide
  | user i =>
      have hi := i.isLt
      have hframe := exampleLayout.toNat_pageDir i
      rw [show exampleLayout.pageDirs.toNat = 304 from rfl] at hframe
      rw [Layout.frame, hframe, show 0x1000000 / pageFrameSize = 4096 from rfl]
      omega

def exampleCalls : List PagingCall :=
  [memAllocPageDir, memChangePageDirectory (.user 0),
    memMapPage 0x00400000 0x05000000 pageFlagUser, memMapPage 0xD0000000 0x05001000 pageFlagWrite]

theorem always_synchronised_fourCalls :
    Always (step exampleLayout) (Synchronised exampleLayout)
      (Paging.initDirectories exampleLayout (fun _ _ => 0) 0x8000000 0x1000000) exampleCalls :=
  always_synchronised _ _ behind_exampleLayout (by decide +kernel)

end PagingCall

end Senob.Memory
