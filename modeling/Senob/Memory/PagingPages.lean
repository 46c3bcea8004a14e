import Senob.Memory.PagingBoot

/-!
# The ownership of page frames

The pages that are mapped through the tables join the placement of frames. If every page is
mapped with a frame that the allocator has just granted, no frame is in two places, neither as
a page nor as a table, and each is marked as used.
-/

namespace Senob.Memory

open Senob.Foundation

namespace Paging

variable {L : Layout} {s t : Paging}

/-- The pages by their entries in the tables. -/
def pages (L : Layout) (s : Paging) : Placement ((Dir × Index) × Index) Frame := fun slot =>
  (s.tables L slot.1).bind fun F =>
    if Has (s.memory F slot.2) pageFlagPresent then some (frameOf (s.memory F slot.2)) else none

theorem pages_eq_some {D : Dir} {k j : Index} {f : Frame} :
    s.pages L ((D, k), j) = some f ↔ ∃ F, s.tables L (D, k) = some F ∧
      Has (s.memory F j) pageFlagPresent ∧ frameOf (s.memory F j) = f := by
  simp only [pages, Option.bind_eq_some_iff, Option.ite_none_right_eq_some, Option.some.injEq]

/-- All frames that the directories lead to: the tables and the pages. -/
def frames (L : Layout) (s : Paging) :
    Placement ((Dir × Index) ⊕ ((Dir × Index) × Index)) Frame :=
  Sum.elim (s.tables L) (s.pages L)

/-- Each frame is in one place, and the allocator knows about it. -/
def Exclusive (L : Layout) (s : Paging) : Prop :=
  (s.frames L).Accounted fun f => s.pmm.used f.toNat = true

/-- Frames that are left alone stay exclusive, if only tables lose their marks. -/
theorem Exclusive.restrict (h : s.Exclusive L) (hkeeps : KeepsTables L s t)
    (hfreed : ∀ f : Frame, s.pmm.used f.toNat = true →
      t.pmm.used f.toNat = true ∨ ∃ slot, s.tables L slot = some f) : t.Exclusive L := by
  refine Placement.Accounted.restrict h fun slot f hf => ?_
  rcases slot with ⟨D, k⟩ | ⟨⟨D, k⟩, j⟩
  · obtain ⟨hold, -, -, hused⟩ := hkeeps D k f hf
    exact ⟨hold, hused⟩
  · obtain ⟨F, htable, hpresent, hframe⟩ := pages_eq_some.mp hf
    obtain ⟨hold, -, hcontent, -⟩ := hkeeps D k F htable
    rw [hcontent] at hpresent hframe
    have hpage : s.frames L (.inr ((D, k), j)) = some f :=
      pages_eq_some.mpr ⟨F, hold, hpresent, hframe⟩
    refine ⟨hpage, (hfreed f (h.used hpage)).resolve_right ?_⟩
    rintro ⟨slot, hslot⟩
    have htable : s.frames L (.inl slot) = some f := hslot
    exact nomatch h.exclusive htable hpage

/-! ## Mapping -/

/-- A new table is in its entry and has no pages. The frame `F` counts as used from here on. -/
theorem TableStep.accounted {D : Dir} {k : Index} {flags : Word} {F : Frame}
    {m : PhysicalMemory} {pmm : Pmm} (hstep : TableStep L s.memory s.pmm D k flags F m pmm)
    {used : Frame → Prop} (h : (s.frames L).Accounted used)
    (hused : ∀ f, used f → s.pmm.used f.toNat = true) (hcore : s.Core L)
    (hflags : frameOf flags = 0)
    (hgranted : Has (s.memory (L.frame D) k) pageFlagPresent ∨ Grants s.pmm) :
    (Paging.frames L { s with memory := m, pmm := pmm }).Accounted fun f => used f ∨ f = F := by
  have hentry := hstep.entry hcore hflags
  have hother := fun D' i hne => tables_congr (L := L) (s := s)
    (t := { s with memory := m, pmm := pmm }) (D := D') (k := i) rfl rfl (hstep.dirs hcore hne)
  cases hstep with
  | present hpresent => exact h.restrict fun slot f hf => ⟨hf, Or.inl (h.used hf)⟩
  | created habsent ptPaddr pmm halloc =>
      obtain ⟨hclear, rfl⟩ := (hgranted.resolve_left habsent).cases halloc
      -- The frame of the new table was free, and so no other slot has it.
      have hfresh : ∀ f, used f → f ≠ frameOf (BitVec.ofNat 32 ptPaddr) := by
        rintro f hf rfl
        exact Bool.false_ne_true (hclear.symm.trans (hused _ hf))
      have hnew : ∀ {F'}, Paging.tables L
          { s with
            memory := (s.memory.write (L.frame D) k (tableEntry ptPaddr flags)).zero
              (frameOf (BitVec.ofNat 32 ptPaddr))
            pmm := s.pmm.take (frameOf (BitVec.ofNat 32 ptPaddr)).toNat } (D, k) = some F' →
          F' = frameOf (BitVec.ofNat 32 ptPaddr) := fun hF' =>
        (tables_eq_some.mp hF').2.2.2.symm.trans hentry.1
      refine h.grant (i := .inl (D, k)) (x := frameOf (BitVec.ofNat 32 ptPaddr))
        (fun hF => hfresh _ hF rfl) (fun slot f hf => ?_) (fun _ => Or.inl) (Or.inr rfl)
      rcases slot with ⟨D', i⟩ | ⟨⟨D', i⟩, j⟩
      · by_cases hslot : D' = D ∧ i = k
        · obtain ⟨rfl, rfl⟩ := hslot
          exact Or.inl ⟨rfl, hnew hf⟩
        · exact Or.inr ((hother D' i (not_and_or.mp hslot)).symm.trans hf)
      · obtain ⟨F', htable, hpresent, hframe⟩ := pages_eq_some.mp hf
        by_cases hslot : D' = D ∧ i = k
        · obtain ⟨rfl, rfl⟩ := hslot
          obtain rfl := hnew htable
          dsimp only at hpresent
          rw [PhysicalMemory.zero_self] at hpresent
          exact absurd hpresent (by decide)
        · have hold := (hother D' i (not_and_or.mp hslot)).symm.trans htable
          have hFne := hfresh F' (h.used (show s.frames L (.inl (D', i)) = some F' from hold))
          refine Or.inr (pages_eq_some.mpr ⟨F', hold, ?_⟩)
          dsimp only at hpresent hframe
          rw [PhysicalMemory.zero_of_ne _ hFne,
            PhysicalMemory.write_of_ne _ (Or.inl (hcore.table_apart hold D))] at hpresent hframe
          exact ⟨hpresent, hframe⟩

/-- A page with a fresh frame is entered into a table. -/
theorem accounted_write {used : Frame → Prop} (h : (s.frames L).Accounted used) {D : Dir}
    {k j : Index} {F : Frame} (hown : s.tables L (D, k) = some F) (hF : ∀ D', F ≠ L.frame D')
    {x : Word} (hfresh : ¬ used (frameOf x)) (count : Word) :
    (Paging.frames L { s with memory := s.memory.write F j x, memNumVpages := count }).Accounted
      fun f => used f ∨ f = frameOf x := by
  have hsame : ∀ D' i, Paging.tables L
      { s with memory := s.memory.write F j x, memNumVpages := count } (D', i) =
        s.tables L (D', i) := fun D' i =>
    tables_congr rfl rfl (PhysicalMemory.write_of_ne _ (Or.inl (hF D').symm))
  refine h.grant (i := .inr ((D, k), j)) (x := frameOf x) hfresh (fun slot f hf => ?_)
    (fun _ => Or.inl) (Or.inr rfl)
  rcases slot with ⟨D', i⟩ | ⟨⟨D', i⟩, j'⟩
  · exact Or.inr ((hsame D' i).symm.trans hf)
  · obtain ⟨F', htable, hpresent, hframe⟩ := pages_eq_some.mp hf
    have hold := (hsame D' i).symm.trans htable
    by_cases hslot : F' = F ∧ j' = j
    · obtain ⟨rfl, rfl⟩ := hslot
      have hsame := h.exclusive (show s.frames L (.inl (D', i)) = some F' from hold)
        (show s.frames L (.inl (D, k)) = some F' from hown)
      obtain ⟨rfl, rfl⟩ := Prod.mk.inj (Sum.inl.inj hsame)
      dsimp only at hframe
      rw [PhysicalMemory.write_self] at hframe
      exact Or.inl ⟨rfl, hframe.symm⟩
    · dsimp only at hpresent hframe
      rw [PhysicalMemory.write_of_ne _ (not_and_or.mp hslot)] at hpresent hframe
      exact Or.inr (pages_eq_some.mpr ⟨F', hold, hpresent, hframe⟩)

theorem TableStep.used {D : Dir} {k : Index} {flags : Word} {F : Frame} {m m' : PhysicalMemory}
    {pmm pmm' : Pmm} (hstep : TableStep L m pmm D k flags F m' pmm') {f : Nat}
    (hf : pmm.used f = true) : pmm'.used f = true := by
  cases hstep with
  | present hpresent => exact hf
  | created habsent ptPaddr pmm' halloc => exact used_allocPageframe halloc hf

/-- `mem_map_page` with a frame that is marked and has no place yet. The frames with a place are
those of `used`. -/
theorem accounted_memMapPage {used : Frame → Prop} (h : (s.frames L).Accounted used)
    (hused : ∀ f, used f → s.pmm.used f.toNat = true) (htables : s.Tables L) (hcore : s.Core L)
    {virtAddr physAddr flags : Word} (hordinary : s.Ordinary L virtAddr)
    (hflags : frameOf flags = 0) (howner : ¬ Has (physAddr ||| flags) pageFlagOwner)
    (hgranted : s.TableGranted L virtAddr) (hfresh : ¬ used (frameOf physAddr))
    (hmarked : s.pmm.used (frameOf physAddr).toNat = true)
    (hcall : s.memMapPage L virtAddr physAddr flags = some t) : t.Exclusive L := by
  obtain ⟨D, hD⟩ := hcore.edits hordinary
  obtain ⟨F, m, pmm, hstep, rfl⟩ := memMapPage_cases hcore hD hflags hcall
  have hgrant := (tableGranted_iff hcore hD).mp hgranted
  have hentry := hstep.entry hcore hflags
  have hown : Paging.tables L { s with memory := m, pmm := pmm } (D, pdIndex virtAddr) = some F :=
    tables_eq_some.mpr ⟨hD.live, hD.owns, hentry.2.ne_zero, hentry.1⟩
  have hframe : frameOf (physAddr ||| pageFlagPresent ||| flags) = frameOf physAddr := by
    simp [frameOf_or, hflags]
  -- The table is marked and is not the frame that is to be mapped.
  have htable : pmm.used F.toNat = true ∧ frameOf physAddr ≠ F := by
    cases hstep with
    | present hpresent =>
        have hplace : used (frameOf (s.memory (L.frame D) (pdIndex virtAddr))) :=
          h.used (i := .inl (D, pdIndex virtAddr)) hown
        exact ⟨hused _ hplace, fun heq => hfresh (heq ▸ hplace)⟩
    | created habsent ptPaddr pmm halloc =>
        obtain ⟨hclear, rfl⟩ := (hgrant.resolve_left habsent).cases halloc
        refine ⟨by rw [Pmm.used_take, if_pos rfl], fun heq => ?_⟩
        exact Bool.false_ne_true (hclear.symm.trans (heq ▸ hmarked))
  have hpages := accounted_write (hstep.accounted h hused hcore hflags hgrant) hown
    (hstep.apart hcore hD.owns) (x := physAddr ||| pageFlagPresent ||| flags)
    (by simpa [hframe, hfresh] using htable.2) (j := ptIndex virtAddr) (s.memNumVpages + 1)
  have hmarks : Paging.Exclusive L { s with
      memory := m.write F (ptIndex virtAddr) (physAddr ||| pageFlagPresent ||| flags)
      memNumVpages := s.memNumVpages + 1
      pmm := pmm } := by
    refine hpages.restrict fun slot f hf => ⟨hf, ?_⟩
    rcases hpages.used hf with (hold | rfl) | rfl
    · exact hstep.used (hused f hold)
    · exact htable.1
    · rw [hframe]
      exact hstep.used hmarked
  have hbits : pageFlagPresent.getLsbD 0 = true ∧ pageFlagPresent.getLsbD 9 = false := by decide
  have hwritten := hstep.tables htables hcore hD.live hD.owns hflags hgrant
    (x := physAddr ||| pageFlagPresent ||| flags) ?_ ?_ (ptIndex virtAddr) (s.memNumVpages + 1)
  · exact hmarks.restrict
      (hwritten.keeps_synced (hstep.core hcore hD.owns hflags _ _ _) virtAddr) fun _ => Or.inl
  · simp [hbits]
  · simp only [has_owner, BitVec.getLsbD_or, hbits.2, Bool.or_false] at howner ⊢
    exact howner

/-- A page that is mapped with a frame from the allocator has it for itself. -/
theorem Exclusive.mapNewFrame (h : s.Exclusive L) (htables : s.Tables L) (hcore : s.Core L)
    {virtAddr flags : Word} (hordinary : s.Ordinary L virtAddr) (hflags : frameOf flags = 0)
    (howner : ¬ Has flags pageFlagOwner) (hgrants : Grants s.pmm)
    (hgranted : ∀ addr pmm, s.pmm.allocPageframe = some (addr, pmm) →
      TableGranted L { s with pmm := pmm } virtAddr)
    (hcall : s.mapNewFrame L virtAddr flags = some t) : t.Exclusive L := by
  obtain ⟨⟨physAddr, pmm⟩, halloc, hcall⟩ := Option.bind_eq_some_iff.mp hcall
  obtain ⟨hclear, hpmm⟩ := hgrants.cases halloc
  refine accounted_memMapPage (s := { s with pmm := pmm }) h
    (fun f hf => used_allocPageframe halloc hf) ((htables.keeps_alloc halloc).tables htables)
    (hcore.of_pmm (startByte_allocPageframe halloc)) hordinary hflags ?_
    (hgranted physAddr pmm halloc) ?_ ?_ hcall
  · have haddr := getLsbD_of_aligned (aligned_allocPageframe halloc) (show 9 < 12 by decide)
    simp only [has_owner, BitVec.getLsbD_or, haddr, Bool.false_or] at howner ⊢
    exact howner
  · simp [hclear]
  · dsimp only
    rw [hpmm, Pmm.used_take, if_pos rfl]

/-! ## The other functions -/

/-- A page is taken out of a table. -/
theorem Exclusive.removePage (h : s.Exclusive L) (hcore : s.Core L) {D : Dir} {k : Index}
    {F : Frame} (hown : s.tables L (D, k) = some F) (j : Index) (count : Word) :
    Paging.Exclusive L { s with memory := s.memory.write F j 0, memNumVpages := count } := by
  have hsame : ∀ D' i, Paging.tables L
      { s with memory := s.memory.write F j 0, memNumVpages := count } (D', i) =
        s.tables L (D', i) := fun D' i =>
    tables_congr rfl rfl (PhysicalMemory.write_of_ne _ (Or.inl (hcore.table_apart hown D').symm))
  refine Placement.Accounted.restrict h fun slot f hf => ?_
  rcases slot with ⟨D', i⟩ | ⟨⟨D', i⟩, j'⟩
  · have hold : s.frames L (.inl (D', i)) = some f := (hsame D' i).symm.trans hf
    exact ⟨hold, h.used hold⟩
  · obtain ⟨F', htable, hpresent, hframe⟩ := pages_eq_some.mp hf
    have hslot : F' ≠ F ∨ j' ≠ j := by
      refine not_and_or.mp ?_
      rintro ⟨rfl, rfl⟩
      dsimp only at hpresent
      rw [PhysicalMemory.write_self] at hpresent
      exact absurd hpresent (by decide)
    dsimp only at hpresent hframe
    rw [PhysicalMemory.write_of_ne _ hslot] at hpresent hframe
    have hold : s.frames L (.inr ((D', i), j')) = some f :=
      pages_eq_some.mpr ⟨F', (hsame D' i).symm.trans htable, hpresent, hframe⟩
    exact ⟨hold, h.used hold⟩

theorem Exclusive.memUnmapPage (h : s.Exclusive L) (htables : s.Tables L) (hcore : s.Core L)
    {virtAddr pte : Word} (hordinary : s.Ordinary L virtAddr)
    (hcall : s.memUnmapPage L virtAddr = some (pte, t)) : t.Exclusive L := by
  obtain ⟨D, hD⟩ := hcore.edits hordinary
  rcases htables.memUnmapPage_cases hcore hD hcall with
    ⟨-, rfl⟩ | ⟨F, u, hown, -, -, hu, rfl, hcase⟩
  · exact h.restrict (htables.keeps_enter hD) fun _ => Or.inl
  have hafter : u.Tables L ∧ u.Exclusive L := by
    rcases hcase with ⟨hkept, rfl⟩ | rfl
    · exact ⟨htables.removePage hcore hown _ hkept, h.removePage hcore hown _ _⟩
    · have hkeeps := htables.keeps_removeTable hcore hown (ptIndex virtAddr) (s.memNumVpages + -1)
      refine ⟨hkeeps.tables htables, h.restrict hkeeps fun f hf => ?_⟩
      by_cases hfreed : f = F
      · exact Or.inr ⟨_, hfreed ▸ hown⟩
      · left
        dsimp only
        rwa [Pmm.used_freed, if_neg fun heq => hfreed (BitVec.eq_of_toNat_eq heq)]
  exact hafter.2.restrict (hafter.1.keeps_synced hu virtAddr) fun _ => Or.inl

theorem Exclusive.memAllocPageDir (h : s.Exclusive L) (htables : s.Tables L) (hcore : s.Core L)
    {result : Option (Fin 256)} (hcall : s.memAllocPageDir L = (result, t)) : t.Exclusive L := by
  refine h.restrict (htables.keeps_memAllocPageDir hcore hcall) fun f hf => Or.inl ?_
  rcases memAllocPageDir_cases hcall with ⟨-, rfl, -⟩ | ⟨i, -, -, rfl⟩
  · exact hf
  · exact hf

theorem Exclusive.memFreePageDir (h : s.Exclusive L) (htables : s.Tables L) (hcore : s.Core L)
    {i : Fin 256} (hi : s.pageDirsUsed i = true) (hcall : s.memFreePageDir L i = some t) :
    t.Exclusive L :=
  h.restrict (htables.keeps_memFreePageDir hcore hi hcall) fun _ hf =>
    htables.used_memFreePageDir hcore hi hcall hf

theorem Exclusive.memChangePageDirectory (h : s.Exclusive L) (htables : s.Tables L) {D : Dir}
    (hD : s.InUse D) : (s.memChangePageDirectory (L.frame D)).Exclusive L :=
  h.restrict (htables.keeps_memChangePageDirectory hD) fun _ => Or.inl

end Paging

end Senob.Memory
