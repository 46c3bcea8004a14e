import Senob.Memory.PagingRoundTrip
import Senob.Memory.ProgramExact

/-!
# The end of an address space

`mem_free_page_dir` gives the page tables back, and of the pages those with `PAGE_FLAG_OWNER`.
The functions of `process.c` map their pages without it, so the frames of a process stay marked
for ever.
-/

namespace Senob.Memory

open Senob.Foundation

namespace Paging

variable {L : Layout} {s t : Paging} {i : Fin 256}

/-! ## The freeing returns -/

/-- Pages without `PAGE_FLAG_OWNER` are left alone. -/
theorem freePages_of_foreign {k : Index}
    (h : ∀ j, ¬ Has (s.memory (s.recPageTable k) j) pageFlagOwner) : s.freePages k = some s := by
  unfold freePages
  refine foldlM_fixed fun j _ => ?_
  exact if_neg (h _)

theorem exists_freeTable {dir : Frame} {k : Index} (hcr3 : s.cr3 = dir)
    (hself : s.memory dir 1023 = selfEntry dir)
    (hforeign : s.memory dir k ≠ 0 →
      ∀ j, ¬ Has (s.memory (frameOf (s.memory dir k)) j) pageFlagOwner)
    (hbound : Has (s.memory dir k) pageFlagOwner →
      (frameOf (s.memory dir k)).toNat < 8 * bitmapLength) : ∃ t, s.freeTable k = some t := by
  simp only [freeTable, recPageDir_eq hcr3 hself]
  by_cases hzero : s.memory dir k = 0
  · rw [if_pos hzero]
    exact ⟨_, rfl⟩
  have hpages : s.freePages k = some s := by
    refine freePages_of_foreign fun j => ?_
    rw [recPageTable_eq hcr3 rfl hself]
    exact hforeign hzero j
  rw [if_neg hzero, hpages]
  by_cases howner : Has (s.memory dir k) pageFlagOwner
  · obtain ⟨freed, hfreed⟩ := exists_freeFrame
      (s := { s with memory := s.memory.zero (s.recPageTable k) }) (hbound howner)
    simp only [if_pos howner, hfreed, Option.bind_eq_bind, Option.bind_some]
    exact ⟨_, rfl⟩
  · simp only [if_neg howner, Option.bind_eq_bind, Option.bind_some]
    exact ⟨_, rfl⟩

/-- A directory in use can be freed. -/
theorem Tables.exists_memFreePageDir (h : s.Tables L) (hcore : s.Core L) (hsized : s.pmm.Sized)
    (hi : s.pageDirsUsed i = true) : ∃ t, s.memFreePageDir L i = some t := by
  have hself := hcore.sound.self (.user i) (Or.inl hi)
  have hF : ∀ j : Index, j.toNat < 768 → frameOf (s.memory (L.pageDir i) j) ≠ L.pageDir i :=
    fun j hj => hcore.sound.apart (.user i) j hj (.user i)
  have hown : ∀ j : Index, j.toNat < 768 → s.memory (L.pageDir i) j ≠ 0 →
      s.tables L (.user i, j) = some (frameOf (s.memory (L.pageDir i) j)) := fun j hj hne =>
    tables_eq_some.mpr ⟨Or.inl hi, hj, hne, rfl⟩
  have hreturns : ∃ u, (List.range 768).foldlM
      (fun (s : Paging) j => s.freeTable (BitVec.ofNat 10 j))
      (s.memChangePageDirectory (L.pageDir i)) = some u ∧
        FreedTables (s.memChangePageDirectory (L.pageDir i)) (L.pageDir i) 768 u := by
    refine exists_foldlM_range
      (FreedTables (s.memChangePageDirectory (L.pageDir i)) (L.pageDir i)) (fun n hn v hv => ?_)
      ⟨rfl, rfl, rfl, fun f k => by simp, .refl _, by simp⟩
    have hindex : (BitVec.ofNat 10 n).toNat = n := Nat.mod_eq_of_lt (by omega)
    have hcr3 : v.cr3 = L.pageDir i := hv.cr3
    have hentry : v.memory (L.pageDir i) (BitVec.ofNat 10 n) =
        s.memory (L.pageDir i) (BitVec.ofNat 10 n) := hv.entry_of_le hn hF hindex.ge
    have hselfV := (hv.entry_of_le hn hF (k := 1023) (by show n ≤ 1023; omega)).trans hself
    have hfree : ∃ w, v.freeTable (BitVec.ofNat 10 n) = some w := by
      refine exists_freeTable hcr3 hselfV (fun hne j => ?_) fun howner => ?_
      · rw [hentry] at hne ⊢
        rw [hv.memory]
        split
        · decide
        · exact (h.sound _ _ _ (hown _ (by rwa [hindex]) hne)).pages j
      · rw [hentry] at howner ⊢
        exact hsized.bitmap _ (h.accounted.used (hown _ (by rwa [hindex]) howner.ne_zero))
    obtain ⟨w, hw⟩ := hfree
    exact ⟨w, hw, hv.step rfl hself hn hF hw⟩
  obtain ⟨u, hloop, -⟩ := hreturns
  rw [memFreePageDir, hloop]
  exact ⟨_, rfl⟩

/-- A directory that maps nothing below `KERNEL_START` gives nothing back. -/
theorem memFreePageDir_of_empty (hself : s.memory (L.pageDir i) 1023 = selfEntry (L.pageDir i))
    (hempty : ∀ k : Index, k.toNat < 768 → s.memory (L.pageDir i) k = 0) :
    s.memFreePageDir L i =
      some { s with pageDirsUsed := Function.update s.pageDirsUsed i false } := by
  have hloop : (List.range 768).foldlM (fun (s : Paging) j => s.freeTable (BitVec.ofNat 10 j))
      (s.memChangePageDirectory (L.pageDir i)) = some (s.memChangePageDirectory (L.pageDir i)) := by
    refine foldlM_fixed fun j hj => ?_
    have hindex : (BitVec.ofNat 10 j).toNat < 768 := by
      rw [BitVec.toNat_ofNat]
      exact lt_of_le_of_lt (Nat.mod_le _ _) (List.mem_range.mp hj)
    have hdir : recPageDir (s.memChangePageDirectory (L.pageDir i)) = L.pageDir i :=
      recPageDir_eq rfl hself
    simp only [freeTable, hdir]
    exact if_pos (hempty _ hindex)
  rw [memFreePageDir, hloop]
  rfl

/-- What the freeing does to the walks of the other directories: nothing. -/
theorem walk_memFreePageDir (h : PagingCall.Translating L s) (hi : s.pageDirsUsed i = true)
    (hcall : s.memFreePageDir L i = some t) {D : Dir} (hD : s.InUse D) (hne : D ≠ .user i)
    (virtAddr : Word) :
    walk t.memory (L.frame D) virtAddr = walk s.memory (L.frame D) virtAddr := by
  have hcore := h.coherent.core
  obtain ⟨u, hu, hdirs, rfl⟩ := hcore.memFreePageDir_cases hi hcall
  have hdir : ∀ k, u.memory (L.frame D) k = s.memory (L.frame D) k := fun k =>
    (hdirs D k).trans (if_neg fun hslot => hne hslot.1)
  refine walk_congr (by dsimp only; rw [hdir]; exact .refl _) fun hpresent hlarge => ?_
  dsimp only
  by_cases hwindow : pdIndex virtAddr = 1023
  · rw [hwindow, hcore.sound.self D (Or.inl hD), frameOf_selfEntry, hdir]
    exact .refl _
  -- The table is none of those that are given back.
  have htable := h.coherent.table_of_entry hD hwindow hpresent hlarge
  have hcontent := hu.memory (frameOf (s.memory (L.frame D) (pdIndex virtAddr))) (ptIndex virtAddr)
  rw [hcontent, if_neg]
  · exact .refl _
  rintro (⟨hdir, -⟩ | ⟨j, hj, hentry, hF⟩)
  · exact hcore.table_apart htable (.user i) hdir
  · have hfreed : s.tables L (.user i, j) = some (frameOf (s.memory (L.pageDir i) j)) :=
      tables_eq_some.mpr ⟨Or.inl hi, hj, hentry, rfl⟩
    have hslot := h.tables.accounted.exclusive htable (hF ▸ hfreed)
    have hholder : PagingCall.holder D (pdIndex virtAddr) = .user i := (Prod.mk.inj hslot).1
    unfold PagingCall.holder at hholder
    split at hholder
    next => exact hne hholder
    next => exact nomatch hholder

end Paging

/-! ## The mappings of a process -/

/-- A call that maps pages of a process. The program has the address that all callers pass. -/
inductive SpaceMapping where
  | mapMemoryForProgramm (fileSize : Option Nat)
  | createUserThread

namespace SpaceMapping

open PagingCall (Orderly)
open SpaceCall (extends_lowPages low_pageRange)

variable (L : Layout)

def step (s : Paging) : SpaceMapping → Option Paging
  | mapMemoryForProgramm fileSize =>
      (s.mapMemoryForProgramm L fileSize programmVirtualAddressStart).map Prod.snd
  | createUserThread => s.createUserThread L

/-- The pages that the call maps. -/
def pages : SpaceMapping → List Word
  | mapMemoryForProgramm fileSize => SpaceCall.programPages fileSize
  | createUserThread => SpaceCall.stackPages ++ SpaceCall.heapPages

def calls (c : SpaceMapping) : List PagingCall := c.pages.map (PagingCall.mapNewFrame · userFlags)

/-- The allocator has a frame for each page and each table of the call. -/
def Stocked (s : Paging) (c : SpaceMapping) : Prop :=
  Admissible (PagingCall.step L) (PagingCall.Stocked L) s c.calls

variable {L} {s t : Paging} {i : Fin 256}

theorem step_eq_runSteps (c : SpaceMapping) (s : Paging) :
    c.step L s = runSteps (PagingCall.step L) s c.calls := by
  cases c with
  | mapMemoryForProgramm fileSize =>
      rw [step, PagingCall.mapMemoryForProgramm_eq_runSteps, SpaceCall.programCalls_eq]
      rfl
  | createUserThread =>
      rw [step, PagingCall.createUserThread_eq_runSteps, SpaceCall.createUserThreadCalls_eq]
      rfl

theorem runSteps_eq (maps : List SpaceMapping) (s : Paging) :
    runSteps (step L) s maps =
      runSteps (PagingCall.step L) s
        ((maps.flatMap pages).map (PagingCall.mapNewFrame · userFlags)) := by
  induction maps generalizing s with
  | nil => rfl
  | cons c rest ih =>
      rw [List.flatMap_cons, List.map_append, runSteps_append, runSteps_cons, step_eq_runSteps]
      exact congrArg _ (funext ih)

/-- A call maps pages below `KERNEL_START`, since there are no frames for more. -/
theorem Stocked.low (h : Orderly L s) (hcr3 : s.cr3 = L.pageDir i) {c : SpaceMapping}
    (hstocked : c.Stocked L s) : ∀ w ∈ c.pages, w < kernelStart := by
  cases c with
  | mapMemoryForProgramm fileSize =>
      cases fileSize with
      | none => exact fun w hw => absurd hw List.not_mem_nil
      | some size =>
          have hpages : Pmm.ceilDiv size pageFrameSize + 256 ≤ 8 * bitmapLength := by
            refine SpaceCall.pages_le_of_stocked h hcr3 ?_
            rw [SpaceCall.mapPagesCalls_eq]
            exact hstocked
          exact low_pageRange (PagingCall.belowKernel_program (hpages.trans (by decide)))
  | createUserThread =>
      exact List.forall_mem_append.mpr ⟨low_pageRange PagingCall.belowKernel_stack,
        low_pageRange PagingCall.belowKernel_heap⟩

/-- The calls as one list of pages. -/
theorem stocked_pages (h : Orderly L s) (hcr3 : s.cr3 = L.pageDir i) {maps : List SpaceMapping}
    (hstocked : Admissible (step L) (Stocked L) s maps) :
    (∀ w ∈ maps.flatMap pages, w < kernelStart) ∧
      Admissible (PagingCall.step L) (PagingCall.Stocked L) s
        ((maps.flatMap pages).map (PagingCall.mapNewFrame · userFlags)) := by
  induction maps generalizing s with
  | nil => exact ⟨fun w hw => absurd hw List.not_mem_nil, trivial⟩
  | cons c rest ih =>
      have hlow := hstocked.1.low h hcr3
      obtain ⟨t, hrun, ht⟩ := extends_lowPages h hcr3 hlow hstocked.1
      have hstep : step L s c = some t := (step_eq_runSteps c s).trans hrun
      obtain ⟨hlowRest, hrest⟩ := ih ht.orderly (ht.cr3.trans hcr3) (hstocked.2 t hstep)
      rw [List.flatMap_cons, List.map_append]
      refine ⟨List.forall_mem_append.mpr ⟨hlow, hlowRest⟩, hstocked.1.append fun u hu => ?_⟩
      obtain rfl := Option.some.inj (hrun.symm.trans hu)
      exact hrest

/-! ## The frames of the pages -/

/-- The last page that is mapped has a frame that was not marked at the start. -/
theorem exists_new_frame (h : Orderly L s) (hcr3 : s.cr3 = L.pageDir i)
    (hi : s.pageDirsUsed i = true) {pages : List Word} (hne : pages ≠ [])
    (hlow : ∀ w ∈ pages, w < kernelStart)
    (hstocked : Admissible (PagingCall.step L) (PagingCall.Stocked L) s
      (pages.map (PagingCall.mapNewFrame · userFlags)))
    (hrun : runSteps (PagingCall.step L) s (pages.map (PagingCall.mapNewFrame · userFlags)) =
      some t) :
    ∃ w f, w < kernelStart ∧ walk t.memory (L.pageDir i) w = some f ∧
      s.pmm.used f.toNat = false := by
  obtain ⟨first, w, rfl⟩ := (List.eq_nil_or_concat' pages).resolve_left hne
  have hw := hlow w List.mem_concat_self
  rw [List.map_append] at hstocked hrun
  obtain ⟨u, hu, hextends⟩ := extends_lowPages h hcr3
    (fun v hv => hlow v (List.mem_append_left _ hv)) hstocked.of_append
  have hcr3U := hextends.cr3.trans hcr3
  have hiU : u.pageDirsUsed i = true := by rwa [hextends.used]
  have hsupplied : (PagingCall.mapNewFrame w userFlags).Supplied L u :=
    ⟨⟨SpaceCall.ordinary_low hcr3U hw, by decide⟩, PagingCall.plainFlags_userFlags,
      (hstocked.after hu).1⟩
  obtain ⟨v, D, physAddr, F, hcall, hnew⟩ := hextends.orderly.exists_newPage hsupplied
  rw [runSteps_append, hu, Option.bind_some, List.map_singleton, runSteps_cons, hcall] at hrun
  obtain rfl := Option.some.inj hrun
  -- The page is one of the directory that is current.
  have hframe := hnew.edits.frame
  rw [if_neg (BitVec.not_le.mpr hw), hcr3U] at hframe
  obtain rfl : D = .user i := L.frame_injective hframe
  refine ⟨w, frameOf physAddr, hw, hnew.walk_self hiU hw PagingCall.plainFlags_userFlags, ?_⟩
  by_contra hmarked
  have hused := hextends.marks _ (Bool.eq_true_of_not_eq_false hmarked)
  exact Bool.false_ne_true (hnew.clear.2.2.2.symm.trans hused)

/-! ## What is given back -/

variable (L) in
/-- After the freeing of directory `i` in `t`, which gives `u`, the allocator is as it was in `s`,
and the other directories map what they mapped. -/
structure Returned (s t u : Paging) (i : Fin 256) : Prop where
  totalAllocated : u.pmm.totalAllocated = s.pmm.totalAllocated
  bitmap : u.pmm.physicalMemoryBitmap = s.pmm.physicalMemoryBitmap
  others : ∀ D, t.InUse D → D ≠ .user i → ∀ virtAddr,
    walk u.memory (L.frame D) virtAddr = walk t.memory (L.frame D) virtAddr

/-- The frame of a page is not given back. -/
theorem not_returned (h : Orderly L t) (hi : t.pageDirsUsed i = true) {w : Word} {f : Frame}
    (hw : w < kernelStart) (hwalk : walk t.memory (L.pageDir i) w = some f)
    (hclear : s.pmm.used f.toNat = false) {u : Paging} (hcall : t.memFreePageDir L i = some u) :
    u.pmm.physicalMemoryBitmap ≠ s.pmm.physicalMemoryBitmap := by
  intro hsame
  have hpage := h.page_of_walk hi hw hwalk
  have hslot : t.frames L (.inr ((.user i, pdIndex w), ptIndex w)) = some f := hpage
  have hkept : u.pmm.used f.toNat = true := by
    refine (h.translating.tables.used_memFreePageDir h.core hi hcall
      (h.exclusive.used hslot)).resolve_right ?_
    rintro ⟨slot, htable⟩
    exact (h.page_apart hpage).2 slot f htable rfl
  rw [Pmm.used, hsame] at hkept
  exact Bool.false_ne_true (hclear.symm.trans hkept)

/-- Where no page is mapped, the directory gives back what it took, which is nothing. -/
theorem returned_of_fresh (h : SpaceCall.Fresh L i t) (hpmm : t.pmm = s.pmm) {D : Dir}
    (hD : t.InUse D) :
    ∃ u, (t.memChangePageDirectory (L.frame D)).memFreePageDir L i = some u ∧
      Returned L s t u i := by
  have hself := h.orderly.core.sound.self (.user i) (Or.inl h.inUse)
  have hswitch : (PagingCall.memChangePageDirectory D).Supplied L t := ⟨hD, trivial, trivial⟩
  have horderly : Orderly L (t.memChangePageDirectory (L.frame D)) := h.orderly.step hswitch rfl
  have hfree := Paging.memFreePageDir_of_empty
    (s := t.memChangePageDirectory (L.frame D)) (L := L) (i := i) hself h.entries
  refine ⟨_, hfree, congrArg Pmm.totalAllocated hpmm, congrArg Pmm.physicalMemoryBitmap hpmm,
    fun D' hD' hne v => ?_⟩
  exact Paging.walk_memFreePageDir horderly.translating h.inUse hfree hD' hne v

theorem pages_eq_nil_iff {c : SpaceMapping} : c.pages = [] ↔ c = .mapMemoryForProgramm none := by
  rw [← List.length_eq_zero_iff]
  cases c with
  | mapMemoryForProgramm fileSize =>
      cases fileSize with
      | none => exact iff_of_true rfl rfl
      | some size =>
          rw [pages, SpaceCall.programPages, Option.elim_some, SpaceCall.length_pageRange]
          exact iff_of_false (by omega) (fun heq => by cases heq)
  | createUserThread =>
      rw [pages, List.length_append, SpaceCall.stackPages, SpaceCall.heapPages,
        SpaceCall.length_pageRange, SpaceCall.length_pageRange]
      exact iff_of_false (by omega) (fun heq => by cases heq)

/-! ## Every address space -/

theorem sized_run (m : PhysicalMemory) (memHigh physicalAllocstart : Nat)
    {calls : List SpaceCall}
    (hrun : runSteps (SpaceCall.step L)
      (Paging.initDirectories L m memHigh physicalAllocstart) calls = some s) : s.pmm.Sized := by
  refine runSteps_of_mem (fun s : Paging => s.pmm.Sized) (fun call _ u v hu hcall => ?_)
    (.init physicalAllocstart memHigh) hrun
  cases call with
  | paging call => exact PagingCall.sized_step hu hcall
  | store d b =>
      obtain ⟨f, -, hcall⟩ := Option.bind_eq_some_iff.mp hcall
      obtain rfl := Option.some.inj hcall
      exact hu

theorem exists_teardown (h : Orderly L s) (hsized : s.pmm.Sized)
    (hdir : (s.memAllocPageDir L).1 = some i) {maps : List SpaceMapping}
    (hstocked : Admissible (step L) (Stocked L)
      ((s.memAllocPageDir L).2.memChangePageDirectory (L.pageDir i)) maps) :
    ∃ t, runSteps (step L) ((s.memAllocPageDir L).2.memChangePageDirectory (L.pageDir i)) maps =
        some t ∧
      ∀ D, t.InUse D → ∃ u, (t.memChangePageDirectory (L.frame D)).memFreePageDir L i = some u ∧
        (Returned L s t u i ↔ ∀ c ∈ maps, c = .mapMemoryForProgramm none) := by
  obtain ⟨s₁, hs₁, hfresh, hpmm⟩ := SpaceCall.exists_fresh h hdir
  obtain rfl := Option.some.inj hs₁
  rw [← hpmm] at hsized
  obtain ⟨hlow, hpages⟩ := stocked_pages hfresh.orderly hfresh.cr3 hstocked
  obtain ⟨t, ht, hextends⟩ := extends_lowPages hfresh.orderly hfresh.cr3 hlow hpages
  have hcondition : (∀ c ∈ maps, c = .mapMemoryForProgramm none) ↔ maps.flatMap pages = [] := by
    simp only [List.flatMap_eq_nil_iff, pages_eq_nil_iff]
  refine ⟨t, (runSteps_eq maps _).trans ht, fun D hD => ?_⟩
  rw [hcondition]
  by_cases hnil : maps.flatMap pages = []
  · rw [hnil] at ht
    obtain rfl := Option.some.inj ht
    obtain ⟨u, hfree, hreturned⟩ := returned_of_fresh hfresh hpmm hD
    exact ⟨u, hfree, iff_of_true hreturned hnil⟩
  have hi : t.pageDirsUsed i = true := by
    rw [hextends.used]
    exact hfresh.inUse
  have hswitch : (PagingCall.memChangePageDirectory D).Supplied L t := ⟨hD, trivial, trivial⟩
  have horderly : Orderly L (t.memChangePageDirectory (L.frame D)) :=
    hextends.orderly.step hswitch rfl
  have hsizedT : t.pmm.Sized :=
    runSteps_of_mem (fun s : Paging => s.pmm.Sized)
      (fun _ _ _ _ hu hcall => PagingCall.sized_step hu hcall) hsized ht
  obtain ⟨u, hfree⟩ := horderly.translating.tables.exists_memFreePageDir horderly.core hsizedT hi
  obtain ⟨w, f, hw, hwalk, hclear⟩ :=
    exists_new_frame hfresh.orderly hfresh.cr3 hfresh.inUse hnil hlow hpages ht
  rw [hpmm] at hclear
  refine ⟨u, hfree, iff_of_false (fun hreturned => ?_) hnil⟩
  exact not_returned horderly hi hw hwalk hclear hfree hreturned.bitmap

/-- An address space gives everything back exactly if no call has mapped a page into it. The
directory `D` is the one that is current when it is freed. -/
theorem returned_iff (m : PhysicalMemory) (memHigh : Nat) {physicalAllocstart : Nat}
    (hbehind : PagingCall.Behind L physicalAllocstart) {calls : List SpaceCall}
    (hcalls : Admissible (SpaceCall.step L) (SpaceCall.Supplied L)
      (Paging.initDirectories L m memHigh physicalAllocstart) calls)
    (hrun : runSteps (SpaceCall.step L)
      (Paging.initDirectories L m memHigh physicalAllocstart) calls = some s)
    (hdir : (s.memAllocPageDir L).1 = some i) {maps : List SpaceMapping}
    (hstocked : Admissible (step L) (Stocked L)
      ((s.memAllocPageDir L).2.memChangePageDirectory (L.pageDir i)) maps) :
    ∃ t, runSteps (step L) ((s.memAllocPageDir L).2.memChangePageDirectory (L.pageDir i)) maps =
        some t ∧
      ∀ D, t.InUse D → ∃ u, (t.memChangePageDirectory (L.frame D)).memFreePageDir L i = some u ∧
        (Returned L s t u i ↔ ∀ c ∈ maps, c = .mapMemoryForProgramm none) :=
  exists_teardown (SpaceCall.orderly_run m memHigh hbehind hcalls hrun)
    (sized_run m memHigh physicalAllocstart hrun) hdir hstocked

/-- Two frames for each page suffice. -/
theorem stocked_of_roomy {start stop n : Nat} (hstart : 0 < start) (hstop : stop ≤ bitmapLength)
    (h : PagingCall.Roomy start stop n s.pmm) {c : SpaceMapping}
    (hroom : 8 * start + (n + 2 * c.pages.length) ≤ 8 * stop) : c.Stocked L s := by
  have hcost : n + (c.calls.map fun _ => 2).sum ≤ 8 * stop - 8 * start := by
    rw [List.map_const', List.sum_replicate_nat, calls, List.length_map]
    omega
  refine .of_cost (fun n (s : Paging) => PagingCall.Roomy start stop n s.pmm) (fun _ => 2)
    (fun call hcall n s h hleft => ?_) h hcost
  obtain ⟨w, -, rfl⟩ := List.mem_map.mp hcall
  exact h.step hstart hstop (by omega)

theorem returned_exampleBoot :
    ∃ t u, runSteps (step PagingCall.exampleLayout)
        ((SpaceCall.exampleBoot.memAllocPageDir PagingCall.exampleLayout).2.memChangePageDirectory
          (PagingCall.exampleLayout.pageDir 0)) [.mapMemoryForProgramm none] = some t ∧
      Returned PagingCall.exampleLayout SpaceCall.exampleBoot t u 0 := by
  have hcalls : Admissible (SpaceCall.step PagingCall.exampleLayout)
      (SpaceCall.Supplied PagingCall.exampleLayout) SpaceCall.exampleBoot [] := trivial
  have hdir : (SpaceCall.exampleBoot.memAllocPageDir PagingCall.exampleLayout).1 = some 0 := by
    decide
  have hstocked : Admissible (step PagingCall.exampleLayout) (Stocked PagingCall.exampleLayout)
      ((SpaceCall.exampleBoot.memAllocPageDir PagingCall.exampleLayout).2.memChangePageDirectory
        (PagingCall.exampleLayout.pageDir 0)) [.mapMemoryForProgramm none] :=
    ⟨trivial, fun _ _ => trivial⟩
  obtain ⟨t, hrun, ht⟩ := returned_iff (fun _ _ => 0) 0x8000000 PagingCall.behind_exampleLayout
    hcalls rfl hdir hstocked
  obtain ⟨u, -, hreturned⟩ := ht .kernel trivial
  exact ⟨t, u, hrun, hreturned.mpr fun c hc => List.mem_singleton.mp hc⟩

/-- The pages of one thread are enough to lose frames. -/
theorem not_returned_thread :
    ¬ ∀ (L : Layout) (m : PhysicalMemory) (memHigh physicalAllocstart : Nat),
      PagingCall.Behind L physicalAllocstart → ∀ (calls : List SpaceCall) (s : Paging),
      Admissible (SpaceCall.step L) (SpaceCall.Supplied L)
        (Paging.initDirectories L m memHigh physicalAllocstart) calls →
      runSteps (SpaceCall.step L) (Paging.initDirectories L m memHigh physicalAllocstart) calls =
        some s →
      ∀ i, (s.memAllocPageDir L).1 = some i → ∀ (maps : List SpaceMapping) (t u : Paging) (D : Dir),
      Admissible (step L) (Stocked L)
        ((s.memAllocPageDir L).2.memChangePageDirectory (L.pageDir i)) maps →
      runSteps (step L) ((s.memAllocPageDir L).2.memChangePageDirectory (L.pageDir i)) maps =
        some t →
      t.InUse D → (t.memChangePageDirectory (L.frame D)).memFreePageDir L i = some u →
      Returned L s t u i := by
  intro hclaim
  have hdir : (SpaceCall.exampleBoot.memAllocPageDir PagingCall.exampleLayout).1 = some 0 := by
    decide
  have hroomy : PagingCall.Roomy (Pmm.init 0x1000000 0x8000000).startByte
      (Pmm.init 0x1000000 0x8000000).endByte 0
      ((SpaceCall.exampleBoot.memAllocPageDir PagingCall.exampleLayout).2.memChangePageDirectory
        (PagingCall.exampleLayout.pageDir 0)).pmm := by
    have hpmm : (SpaceCall.exampleBoot.memAllocPageDir PagingCall.exampleLayout).2.pmm =
        SpaceCall.exampleBoot.pmm := Paging.pmm_memAllocPageDir
    dsimp only [Paging.memChangePageDirectory]
    rw [hpmm]
    exact (PagingCall.initRound_initDirectories PagingCall.behind_exampleLayout
      (fun _ _ => 0) 0x8000000).roomy
  have hstocked : Admissible (step PagingCall.exampleLayout) (Stocked PagingCall.exampleLayout)
      ((SpaceCall.exampleBoot.memAllocPageDir PagingCall.exampleLayout).2.memChangePageDirectory
        (PagingCall.exampleLayout.pageDir 0)) [createUserThread] := by
    refine ⟨stocked_of_roomy (by decide) (by decide) hroomy ?_, fun _ _ => trivial⟩
    rw [pages, List.length_append, SpaceCall.stackPages, SpaceCall.heapPages,
      SpaceCall.length_pageRange, SpaceCall.length_pageRange]
    decide
  obtain ⟨t, hrun, ht⟩ := exists_teardown
    (PagingCall.orderly_initDirectories PagingCall.behind_exampleLayout _ _) (.init _ _) hdir
    hstocked
  obtain ⟨u, hfree, hreturned⟩ := ht .kernel trivial
  have hcondition := hreturned.mp (hclaim PagingCall.exampleLayout (fun _ _ => 0) 0x8000000
    0x1000000 PagingCall.behind_exampleLayout [] SpaceCall.exampleBoot trivial rfl 0 hdir _ t u
    .kernel hstocked hrun trivial hfree)
  cases hcondition createUserThread (List.mem_singleton_self _)

end SpaceMapping

end Senob.Memory
