import Senob.Foundation.Placement
import Senob.Memory.PagingRuns

/-!
# The ownership of page tables

Every entry that a directory has for itself is zero or leads to a page table. The tables are a
placement of frames: each is marked in the bitmap of the allocator and belongs to one entry,
so a table that is given back leaves no entry behind that leads to it.
-/

namespace Senob.Memory

open Senob.Foundation

theorem Has.ne_zero {e flag : Word} (h : Has e flag) : e ≠ 0 := by
  rintro rfl
  exact h BitVec.zero_and

namespace Paging

instance : (D : Dir) → DecidablePred (Owns D)
  | .kernel => fun k => inferInstanceAs (Decidable (¬ IsBoot k ∧ k ≠ 1023))
  | .user _ => fun k => inferInstanceAs (Decidable (k.toNat < 768))

variable {L : Layout} {s t : Paging}

instance (s : Paging) : DecidablePred (s.Live L) :=
  fun D => inferInstanceAs (Decidable (s.InUse D ∨ s.cr3 = L.frame D))

/-- The page tables by the entries that own them. -/
def tables (L : Layout) (s : Paging) : Placement (Dir × Index) Frame := fun slot =>
  if s.Live L slot.1 ∧ Owns slot.1 slot.2 ∧ s.memory (L.frame slot.1) slot.2 ≠ 0 then
    some (frameOf (s.memory (L.frame slot.1) slot.2))
  else none

theorem tables_eq_some {D : Dir} {k : Index} {F : Frame} :
    s.tables L (D, k) = some F ↔
      s.Live L D ∧ Owns D k ∧ s.memory (L.frame D) k ≠ 0 ∧
        frameOf (s.memory (L.frame D) k) = F := by
  unfold tables
  split
  next h =>
    obtain ⟨hlive, howns, hne⟩ := h
    exact ⟨fun hF => ⟨hlive, howns, hne, Option.some.inj hF⟩, fun hF => congrArg some hF.2.2.2⟩
  next h =>
    refine iff_of_false nofun ?_
    rintro ⟨hlive, howns, hne, -⟩
    exact h ⟨hlive, howns, hne⟩

theorem live_congr (hcr3 : t.cr3 = s.cr3) (hused : t.pageDirsUsed = s.pageDirsUsed) (D : Dir) :
    t.Live L D ↔ s.Live L D := by
  cases D <;> simp only [Live, InUse, hcr3, hused]

/-- An entry that is not edited owns the same table. -/
theorem tables_congr {D : Dir} {k : Index} (hcr3 : t.cr3 = s.cr3)
    (hused : t.pageDirsUsed = s.pageDirsUsed)
    (hentry : t.memory (L.frame D) k = s.memory (L.frame D) k) :
    t.tables L (D, k) = s.tables L (D, k) := by
  ext F
  rw [tables_eq_some, tables_eq_some, hentry, live_congr hcr3 hused]

/-- The table at `F`, to which the entry `e` leads, is in order. -/
structure SoundTable (m : PhysicalMemory) (e : Word) (F : Frame) : Prop where
  present : Has e pageFlagPresent
  owner : Has e pageFlagOwner
  filled : ∃ j, Has (m F j) pageFlagPresent
  /-- The pages of the table belong to someone else. -/
  pages : ∀ j, ¬ Has (m F j) pageFlagOwner

/-- All tables are in order, and the allocator knows about them. -/
structure Tables (L : Layout) (s : Paging) : Prop where
  sound : ∀ D k F, s.tables L (D, k) = some F → SoundTable s.memory (s.memory (L.frame D) k) F
  accounted : (s.tables L).Accounted fun F => s.pmm.used F.toNat = true

/-- Every table of `t` is one of `s`, with the same entry and the same pages, and is still
marked. -/
def KeepsTables (L : Layout) (s t : Paging) : Prop :=
  ∀ D k F, t.tables L (D, k) = some F → s.tables L (D, k) = some F ∧
    t.memory (L.frame D) k = s.memory (L.frame D) k ∧ t.memory F = s.memory F ∧
    t.pmm.used F.toNat = true

/-- Tables that are left alone stay in order. -/
theorem KeepsTables.tables (hkeeps : KeepsTables L s t) (h : s.Tables L) : t.Tables L := by
  refine ⟨fun D k F htable => ?_, h.accounted.restrict fun slot F htable => ?_⟩
  · obtain ⟨hold, hentry, hcontent, -⟩ := hkeeps D k F htable
    obtain ⟨hpresent, howner, hfilled, hpages⟩ := h.sound D k F hold
    rw [hentry]
    exact ⟨hpresent, howner, by rwa [hcontent], by rwa [hcontent]⟩
  · obtain ⟨hold, -, -, hused⟩ := hkeeps slot.1 slot.2 F htable
    exact ⟨hold, hused⟩

/-- No other entry has the same table. -/
theorem Tables.ne_of_table (h : s.Tables L) {D D' : Dir} {k i : Index} {F F' : Frame}
    (hown : s.tables L (D, k) = some F) (hother : s.tables L (D', i) = some F')
    (hne : D' ≠ D ∨ i ≠ k) : F' ≠ F := by
  rintro rfl
  obtain ⟨rfl, rfl⟩ := Prod.mk.inj (h.accounted.exclusive hother hown)
  exact hne.elim (fun hD => hD rfl) fun hi => hi rfl

/-- A table is not a directory. -/
theorem Core.table_apart (h : s.Core L) {D : Dir} {k : Index} {F : Frame}
    (htable : s.tables L (D, k) = some F) (D' : Dir) : F ≠ L.frame D' := by
  obtain ⟨-, howns, -, rfl⟩ := tables_eq_some.mp htable
  exact h.sound.apart D k howns D'

/-! ## Synchronisation -/

theorem synced_owned (used : Fin 256 → Bool) (virtAddr : Word) (m : PhysicalMemory) {D : Dir}
    {k : Index} (hk : Owns D k) :
    synced L used virtAddr m (L.frame D) k = m (L.frame D) k := by
  unfold synced
  split
  swap
  · rfl
  cases D with
  | kernel =>
      exact syncKernelHalves_of_ne L used m
        (Or.inl fun d => (L.pageDir_ne_kernelDirectory d).symm)
  | user i => exact syncKernelHalves_of_ne L used m (Or.inr (Or.inl hk))

theorem synced_apart (used : Fin 256 → Bool) (virtAddr : Word) (m : PhysicalMemory) {F : Frame}
    (hF : ∀ D, F ≠ L.frame D) : synced L used virtAddr m F = m F := by
  unfold synced
  split
  · funext k
    exact syncKernelHalves_of_ne L used m (Or.inl fun d => hF (.user d))
  · rfl

/-- The synchronisation at the end of a function touches no table and no entry of one. -/
theorem Tables.keeps_synced (h : s.Tables L) (hcore : s.Core L) (virtAddr : Word) :
    KeepsTables L s { s with memory := synced L s.pageDirsUsed virtAddr s.memory } := by
  intro D k F htable
  obtain ⟨hlive, howns, hne, hframe⟩ := tables_eq_some.mp htable
  have hentry := synced_owned (L := L) s.pageDirsUsed virtAddr s.memory howns
  dsimp only at hne hframe
  rw [hentry] at hne hframe
  have hold : s.tables L (D, k) = some F := tables_eq_some.mpr ⟨hlive, howns, hne, hframe⟩
  refine ⟨hold, hentry, ?_, h.accounted.used hold⟩
  exact synced_apart s.pageDirsUsed virtAddr s.memory fun D' => hcore.table_apart hold D'

/-! ## Mapping -/

/-- `pmm_alloc_pageframe` does not return zero. -/
def Grants (p : Pmm) : Prop := ∀ addr p', p.allocPageframe = some (addr, p') → addr ≠ 0

/-- If `mem_map_page` needs a new table, the allocator has a frame for it. -/
def TableGranted (L : Layout) (s : Paging) (virtAddr : Word) : Prop :=
  Has ((s.enter L virtAddr).memory (s.enter L virtAddr).recPageDir (pdIndex virtAddr))
      pageFlagPresent ∨
    Grants s.pmm

theorem tableGranted_iff (h : s.Core L) {virtAddr : Word} {D : Dir}
    (hD : s.Edits L virtAddr D) :
    s.TableGranted L virtAddr ↔
      Has (s.memory (L.frame D) (pdIndex virtAddr)) pageFlagPresent ∨ Grants s.pmm := by
  have hself := (h.entered hD).sound.self D (Or.inr hD.enter_cr3)
  rw [TableGranted, recPageDir_eq hD.enter_cr3 hself]
  rw [enter_eq]

/-- A frame that is granted is marked, and was not before. -/
theorem Grants.cases {p p' : Pmm} {addr : Nat} (h : Grants p)
    (halloc : p.allocPageframe = some (addr, p')) :
    p.used (frameOf (BitVec.ofNat 32 addr)).toNat = false ∧
      p' = p.take (frameOf (BitVec.ofNat 32 addr)).toNat := by
  rcases Pmm.allocPageframe_cases halloc with ⟨hzero, -⟩ | ⟨f, -, -, hclear, rfl, hp⟩
  · exact absurd hzero (h addr p' halloc)
  · exact ⟨hclear, hp⟩

theorem used_allocPageframe {p p' : Pmm} {addr : Nat}
    (halloc : p.allocPageframe = some (addr, p')) {f : Nat} (hf : p.used f = true) :
    p'.used f = true := by
  rcases Pmm.allocPageframe_cases halloc with ⟨-, rfl⟩ | ⟨g, -, -, -, -, rfl⟩
  · exact hf
  · rw [Pmm.used_take]
    split <;> [rfl; exact hf]

/-- The allocator takes no frame away from a table. -/
theorem Tables.keeps_alloc (h : s.Tables L) {addr : Nat} {pmm : Pmm}
    (halloc : s.pmm.allocPageframe = some (addr, pmm)) : KeepsTables L s { s with pmm := pmm } :=
  fun _ _ _ htable => ⟨htable, rfl, rfl, used_allocPageframe halloc (h.accounted.used htable)⟩

/-- A table stays in order when a page that is present and not owned is entered somewhere. -/
theorem SoundTable.write {m : PhysicalMemory} {e : Word} {F : Frame} (h : SoundTable m e F)
    {x : Word} (hpresent : Has x pageFlagPresent) (howner : ¬ Has x pageFlagOwner) (F' : Frame)
    (j : Index) : SoundTable (m.write F' j x) e F := by
  refine ⟨h.present, h.owner, ?_, fun i => ?_⟩
  · by_cases hF : F = F'
    · exact ⟨j, by rwa [hF, PhysicalMemory.write_self]⟩
    · obtain ⟨i, hi⟩ := h.filled
      exact ⟨i, by rwa [PhysicalMemory.write_of_ne _ (Or.inl hF)]⟩
  · by_cases hslot : F = F' ∧ i = j
    · rwa [hslot.1, hslot.2, PhysicalMemory.write_self]
    · rw [PhysicalMemory.write_of_ne _ (not_and_or.mp hslot)]
      exact h.pages i

namespace TableStep

variable {D : Dir} {k : Index} {flags : Word} {F : Frame} {m : PhysicalMemory} {pmm : Pmm}

/-- The table in use is none of another entry. -/
theorem ne_of_table (hstep : TableStep L s.memory s.pmm D k flags F m pmm) (h : s.Tables L)
    (hD : s.Live L D) (hk : Owns D k)
    (hgranted : Has (s.memory (L.frame D) k) pageFlagPresent ∨ Grants s.pmm) {D' : Dir}
    {i : Index} {F' : Frame} (htable : s.tables L (D', i) = some F') (hne : D' ≠ D ∨ i ≠ k) :
    F' ≠ F := by
  cases hstep with
  | present hpresent =>
      exact h.ne_of_table (tables_eq_some.mpr ⟨hD, hk, hpresent.ne_zero, rfl⟩) htable hne
  | created habsent ptPaddr pmm halloc =>
      obtain ⟨hclear, -⟩ := (hgranted.resolve_left habsent).cases halloc
      rintro rfl
      exact Bool.false_ne_true (hclear.symm.trans (h.accounted.used htable))

/-- Other frames than the directory and the table are as before. -/
theorem content (hstep : TableStep L s.memory s.pmm D k flags F m pmm) {F' : Frame}
    (hF : F' ≠ F) (hdir : F' ≠ L.frame D) : m F' = s.memory F' := by
  cases hstep with
  | present hpresent => rfl
  | created habsent ptPaddr pmm halloc =>
      funext i
      rw [PhysicalMemory.zero_of_ne _ hF, PhysicalMemory.write_of_ne _ (Or.inl hdir)]

/-- The table in use is in order once a page is entered. -/
theorem sound (hstep : TableStep L s.memory s.pmm D k flags F m pmm) (h : s.Tables L)
    (hcore : s.Core L) (hD : s.Live L D) (hk : Owns D k) {x : Word}
    (hpresent : Has x pageFlagPresent) (howner : ¬ Has x pageFlagOwner) (j : Index) :
    SoundTable (m.write F j x) (m (L.frame D) k) F := by
  cases hstep with
  | present htable =>
      have hown := tables_eq_some.mpr ⟨hD, hk, htable.ne_zero, rfl⟩
      exact (h.sound D k _ hown).write hpresent howner _ j
  | created habsent ptPaddr pmm halloc =>
      have hbits : pageFlagPresent.getLsbD 0 = true ∧ pageFlagOwner.getLsbD 9 = true := by decide
      rw [PhysicalMemory.zero_of_ne _ (hcore.alloc_apart halloc D).symm, PhysicalMemory.write_self]
      refine ⟨?_, ?_, ⟨j, ?_⟩, fun i => ?_⟩
      · simp [tableEntry, hbits]
      · simp [tableEntry, hbits]
      · rwa [PhysicalMemory.write_self]
      · by_cases hi : i = j
        · rwa [hi, PhysicalMemory.write_self]
        · rw [PhysicalMemory.write_of_ne _ (Or.inr hi), PhysicalMemory.zero_self]
          decide

/-- The page that `mem_map_page` enters keeps the tables in order. -/
theorem tables (hstep : TableStep L s.memory s.pmm D k flags F m pmm) (h : s.Tables L)
    (hcore : s.Core L) (hD : s.Live L D) (hk : Owns D k) (hflags : frameOf flags = 0)
    (hgranted : Has (s.memory (L.frame D) k) pageFlagPresent ∨ Grants s.pmm) {x : Word}
    (hpresent : Has x pageFlagPresent) (howner : ¬ Has x pageFlagOwner) (j : Index)
    (count : Word) :
    Tables L { s with memory := m.write F j x, memNumVpages := count, pmm := pmm } := by
  have hF := hstep.apart hcore hk
  have hdir : ∀ D' i, m.write F j x (L.frame D') i = m (L.frame D') i := fun D' i =>
    PhysicalMemory.write_of_ne _ (Or.inl (hF D').symm)
  have hentry := hstep.entry hcore hflags
  -- The entries that are not edited own the tables that they owned.
  have hsame : ∀ D' i, m (L.frame D') i = s.memory (L.frame D') i →
      Paging.tables L { s with memory := m.write F j x, memNumVpages := count, pmm := pmm }
        (D', i) = s.tables L (D', i) := fun D' i heq =>
    tables_congr rfl rfl ((hdir D' i).trans heq)
  have hother := fun D' i hne => hsame D' i (hstep.dirs hcore hne)
  have hedited : ∀ F', Paging.tables L
      { s with memory := m.write F j x, memNumVpages := count, pmm := pmm } (D, k) = some F' →
        F' = F := by
    intro F' hF'
    obtain ⟨-, -, -, hframe⟩ := tables_eq_some.mp hF'
    exact hframe.symm.trans ((congrArg frameOf (hdir D k)).trans hentry.1)
  refine ⟨fun D' i F' hF' => ?_, ?_⟩
  · dsimp only
    by_cases hslot : D' = D ∧ i = k
    · obtain ⟨rfl, rfl⟩ := hslot
      obtain rfl := hedited F' hF'
      rw [hdir]
      exact hstep.sound h hcore hD hk hpresent howner j
    · have hne := not_and_or.mp hslot
      have hold := (hother D' i hne).symm.trans hF'
      have hcontent := hstep.content (hstep.ne_of_table h hD hk hgranted hold hne)
        (hcore.table_apart hold D)
      have hsound := h.sound D' i F' hold
      rw [hdir, hstep.dirs hcore hne]
      refine SoundTable.write ⟨hsound.present, hsound.owner, ?_, ?_⟩ hpresent howner F j
      · rw [hcontent]
        exact hsound.filled
      · rw [hcontent]
        exact hsound.pages
  · cases hstep with
    | present htable =>
        refine h.accounted.restrict fun ⟨D', i⟩ F' hF' => ?_
        have hold := (hsame D' i rfl).symm.trans hF'
        exact ⟨hold, h.accounted.used hold⟩
    | created habsent ptPaddr pmm halloc =>
        obtain ⟨hclear, rfl⟩ := (hgranted.resolve_left habsent).cases halloc
        refine h.accounted.grant (i := (D, k)) (x := frameOf (BitVec.ofNat 32 ptPaddr))
          (by simp [hclear]) (fun ⟨D', i⟩ F' hF' => ?_) (fun F' hF' => ?_) ?_
        · by_cases hslot : D' = D ∧ i = k
          · obtain ⟨rfl, rfl⟩ := hslot
            exact Or.inl ⟨rfl, hedited F' hF'⟩
          · exact Or.inr ((hother D' i (not_and_or.mp hslot)).symm.trans hF')
        · exact used_allocPageframe halloc hF'
        · rw [Pmm.used_take, if_pos rfl]

end TableStep

/-- `mem_map_page` keeps the tables in order. -/
theorem Tables.memMapPage (h : s.Tables L) (hcore : s.Core L) {virtAddr physAddr flags : Word}
    (hordinary : s.Ordinary L virtAddr) (hflags : frameOf flags = 0)
    (howner : ¬ Has (physAddr ||| flags) pageFlagOwner) (hgranted : s.TableGranted L virtAddr)
    (hcall : s.memMapPage L virtAddr physAddr flags = some t) : t.Tables L := by
  obtain ⟨D, hD⟩ := hcore.edits hordinary
  obtain ⟨F, m, pmm, hstep, rfl⟩ := memMapPage_cases hcore hD hflags hcall
  have hpresent : pageFlagPresent.getLsbD 0 = true ∧ pageFlagPresent.getLsbD 9 = false := by decide
  have hwritten := hstep.tables h hcore hD.live hD.owns hflags
    ((tableGranted_iff hcore hD).mp hgranted) (x := physAddr ||| pageFlagPresent ||| flags) ?_ ?_
    (ptIndex virtAddr) (s.memNumVpages + 1)
  · exact (hwritten.keeps_synced (hstep.core hcore hD.owns hflags _ _ _) virtAddr).tables hwritten
  · simp [hpresent]
  · simp only [has_owner, BitVec.getLsbD_or, hpresent.2, Bool.or_false] at howner ⊢
    exact howner

theorem aligned_allocPageframe {p p' : Pmm} {addr : Nat}
    (h : p.allocPageframe = some (addr, p')) : addr % 4096 = 0 := by
  rcases p.scanBytes_outcome p.startByte (p.endByte - p.startByte) with
    ⟨f, -, -, -, -, -, hresult⟩ | ⟨-, hresult⟩
  · obtain ⟨rfl, -⟩ := Prod.mk.inj (Option.some.inj (h.symm.trans hresult))
    exact Nat.mul_mod_left f 4096
  · have hcall := h.symm.trans hresult
    split at hcall
    next _ =>
      obtain ⟨rfl, -⟩ := Prod.mk.inj (Option.some.inj hcall)
      rfl
    next _ => cases hcall

/-- The address of a frame has no flags. -/
theorem getLsbD_of_aligned {addr : Nat} (haddr : addr % 4096 = 0) {i : Nat} (hi : i < 12) :
    (BitVec.ofNat 32 addr).getLsbD i = false := by
  have hfactor : addr = 2 ^ 12 * (addr / 4096) := by omega
  rw [BitVec.getLsbD_ofNat, hfactor, Nat.testBit_two_pow_mul]
  simp [Nat.not_le_of_lt hi]

/-- `pmm_alloc_pageframe` followed by `mem_map_page` keeps the tables in order. -/
theorem Tables.mapNewFrame (h : s.Tables L) (hcore : s.Core L) {virtAddr flags : Word}
    (hordinary : s.Ordinary L virtAddr) (hflags : frameOf flags = 0)
    (howner : ¬ Has flags pageFlagOwner)
    (hgranted : ∀ addr pmm, s.pmm.allocPageframe = some (addr, pmm) →
      TableGranted L { s with pmm := pmm } virtAddr)
    (hcall : s.mapNewFrame L virtAddr flags = some t) : t.Tables L := by
  obtain ⟨⟨physAddr, pmm⟩, halloc, hcall⟩ := Option.bind_eq_some_iff.mp hcall
  refine ((h.keeps_alloc halloc).tables h).memMapPage
    (hcore.of_pmm (startByte_allocPageframe halloc)) hordinary
    hflags ?_ (hgranted physAddr pmm halloc) hcall
  have haddr := getLsbD_of_aligned (aligned_allocPageframe halloc) (show 9 < 12 by decide)
  simp only [has_owner, BitVec.getLsbD_or, haddr, Bool.false_or] at howner ⊢
  exact howner

/-! ## Unmapping -/

/-- Another directory becomes current that was live. -/
theorem Tables.keeps_cr3 (h : s.Tables L) {dir : Frame}
    (hlive : ∀ D, Live L { s with cr3 := dir } D → s.Live L D) :
    KeepsTables L s { s with cr3 := dir } := by
  intro D k F htable
  obtain ⟨hD, howns, hne, hframe⟩ := tables_eq_some.mp htable
  have hold : s.tables L (D, k) = some F := tables_eq_some.mpr ⟨hlive D hD, howns, hne, hframe⟩
  exact ⟨hold, rfl, rfl, h.accounted.used hold⟩

theorem Tables.keeps_enter (h : s.Tables L) {virtAddr : Word} {D : Dir}
    (hD : s.Edits L virtAddr D) : KeepsTables L s { s with cr3 := L.frame D } := by
  refine h.keeps_cr3 fun D' hD' => hD'.elim Or.inl fun hcr3 => ?_
  exact L.frame_injective hcr3 ▸ hD.live

/-- A page is taken out of a table that has another one. -/
theorem Tables.removePage (h : s.Tables L) (hcore : s.Core L) {D : Dir} {k : Index} {F : Frame}
    (hown : s.tables L (D, k) = some F) {j : Index} (count : Word)
    (hkept : ∃ j', Has (s.memory.write F j 0 F j') pageFlagPresent) :
    Tables L { s with memory := s.memory.write F j 0, memNumVpages := count } := by
  have hdir : ∀ D' i, s.memory.write F j 0 (L.frame D') i = s.memory (L.frame D') i :=
    fun D' i => PhysicalMemory.write_of_ne _ (Or.inl (hcore.table_apart hown D').symm)
  have hsame : ∀ D' i, Paging.tables L
      { s with memory := s.memory.write F j 0, memNumVpages := count } (D', i) =
        s.tables L (D', i) := fun D' i =>
    tables_congr rfl rfl (hdir D' i)
  refine ⟨fun D' i F' hF' => ?_, h.accounted.restrict fun slot F' hF' => ?_⟩
  · have hold := (hsame D' i).symm.trans hF'
    obtain ⟨hpresent, howner, hfilled, hpages⟩ := h.sound D' i F' hold
    dsimp only
    rw [hdir]
    by_cases hF : F' = F
    · subst hF
      refine ⟨hpresent, howner, hkept, fun i' => ?_⟩
      by_cases hi' : i' = j
      · rw [hi', PhysicalMemory.write_self]
        decide
      · rw [PhysicalMemory.write_of_ne _ (Or.inr hi')]
        exact hpages i'
    · have hcontent : s.memory.write F j 0 F' = s.memory F' :=
        funext fun i' => PhysicalMemory.write_of_ne _ (Or.inl hF)
      exact ⟨hpresent, howner, by rwa [hcontent], by rwa [hcontent]⟩
  · have hold := (hsame slot.1 slot.2).symm.trans hF'
    exact ⟨hold, h.accounted.used hold⟩

/-- A table is taken out of its directory and given back. -/
theorem Tables.keeps_removeTable (h : s.Tables L) (hcore : s.Core L) {D : Dir} {k : Index}
    {F : Frame} (hown : s.tables L (D, k) = some F) (j : Index) (count : Word) :
    KeepsTables L s
      { s with
        memory := (s.memory.write F j 0).write (L.frame D) k 0
        memNumVpages := count
        pmm := s.pmm.freed F.toNat } := by
  intro D' i F' hF'
  obtain ⟨hlive, howns, hne, hframe⟩ := tables_eq_some.mp hF'
  have hslot : D' ≠ D ∨ i ≠ k := by
    by_contra hsame
    obtain ⟨rfl, rfl⟩ := not_or.mp hsame |>.imp not_not.mp not_not.mp
    exact hne (PhysicalMemory.write_self _)
  have hentry : (s.memory.write F j 0).write (L.frame D) k 0 (L.frame D') i =
      s.memory (L.frame D') i := by
    rw [PhysicalMemory.write_of_ne _ (hslot.imp_left fun hD' heq => hD' (L.frame_injective heq)),
      PhysicalMemory.write_of_ne _ (Or.inl (hcore.table_apart hown D').symm)]
  have hold : s.tables L (D', i) = some F' := tables_eq_some.mpr
    ⟨hlive, howns, fun hzero => hne (hentry.trans hzero),
      (congrArg frameOf hentry).symm.trans hframe⟩
  have hFne := h.ne_of_table hown hold hslot
  refine ⟨hold, hentry, funext fun i' => ?_, ?_⟩
  · exact (PhysicalMemory.write_of_ne _ (Or.inl (hcore.table_apart hold D))).trans
      (PhysicalMemory.write_of_ne _ (Or.inl hFne))
  · rw [Pmm.used_freed, if_neg fun heq => hFne (BitVec.eq_of_toNat_eq heq)]
    exact h.accounted.used hold

/-- What `mem_unmap_page` does when the tables are in order: it enters the kernel's directory, it
takes a page out of a table that has another one, or it takes out the table. The state `u` is the
one before the kernel's half is synchronised. -/
theorem Tables.memUnmapPage_cases (h : s.Tables L) (hcore : s.Core L) {virtAddr pte : Word}
    {D : Dir} (hD : s.Edits L virtAddr D) (hcall : s.memUnmapPage L virtAddr = some (pte, t)) :
    (pte = 0 ∧ t = { s with cr3 := L.frame D }) ∨
      ∃ F u, s.tables L (D, pdIndex virtAddr) = some F ∧ pte = s.memory F (ptIndex virtAddr) ∧
        Has pte pageFlagPresent ∧ u.Core L ∧
        t = { u with memory := synced L u.pageDirsUsed virtAddr u.memory } ∧
        ((∃ j, Has (s.memory.write F (ptIndex virtAddr) 0 F j) pageFlagPresent) ∧
            u = { s with
              memory := s.memory.write F (ptIndex virtAddr) 0
              memNumVpages := s.memNumVpages + -1 } ∨
          u = { s with
            memory := (s.memory.write F (ptIndex virtAddr) 0).write (L.frame D) (pdIndex virtAddr) 0
            memNumVpages := s.memNumVpages + -1
            pmm := s.pmm.freed F.toNat }) := by
  rcases Paging.memUnmapPage_cases hcore hD hcall with
    ⟨hzero, rfl⟩ | ⟨hpresent, hpage, hpte, m, pmm, hstep, rfl⟩
  · rw [enter_eq, ← hD.frame]
    exact Or.inl ⟨hzero, rfl⟩
  right
  have hown := tables_eq_some.mpr ⟨hD.live, hD.owns, hpresent.ne_zero, rfl⟩
  have hsound := h.sound D _ _ hown
  have howner : ¬ Has pte pageFlagOwner := by
    rw [hpte]
    exact hsound.pages _
  have hdir : s.memory.write (frameOf (s.memory (L.frame D) (pdIndex virtAddr)))
      (ptIndex virtAddr) 0 (L.frame D) (pdIndex virtAddr) =
        s.memory (L.frame D) (pdIndex virtAddr) :=
    PhysicalMemory.write_of_ne _ (Or.inl (hcore.sound.apart D _ hD.owns D).symm)
  rw [releasePage, if_neg howner]
  refine ⟨_, _, hown, hpte, hpage, hstep.core hcore hD.owns (s.memNumVpages + -1), rfl, ?_⟩
  cases hstep with
  | kept hkept =>
      rw [hdir] at hkept
      exact Or.inl ⟨hkept hsound.owner, rfl⟩
  | removed hempty howner' =>
      rw [hdir]
      exact Or.inr rfl

theorem Tables.memUnmapPage (h : s.Tables L) (hcore : s.Core L) {virtAddr pte : Word}
    (hordinary : s.Ordinary L virtAddr)
    (hcall : s.memUnmapPage L virtAddr = some (pte, t)) : t.Tables L := by
  obtain ⟨D, hD⟩ := hcore.edits hordinary
  rcases h.memUnmapPage_cases hcore hD hcall with
    ⟨-, rfl⟩ | ⟨F, u, hown, -, -, hu, rfl, hcase⟩
  · exact (h.keeps_enter hD).tables h
  have htables : u.Tables L := by
    rcases hcase with ⟨hkept, rfl⟩ | rfl
    · exact h.removePage hcore hown _ hkept
    · exact (h.keeps_removeTable hcore hown _ _).tables h
  exact (htables.keeps_synced hu virtAddr).tables htables

/-! ## Page directories -/

theorem Tables.keeps_memAllocPageDir (h : s.Tables L) (hcore : s.Core L)
    {result : Option (Fin 256)} (hcall : s.memAllocPageDir L = (result, t)) :
    KeepsTables L s t := by
  intro D k F htable
  rcases memAllocPageDir_cases hcall with ⟨-, rfl, -⟩ | ⟨i, -, hi, rfl⟩
  · exact ⟨htable, rfl, rfl, h.accounted.used htable⟩
  obtain ⟨hlive, howns, hne, hframe⟩ := tables_eq_some.mp htable
  by_cases hsame : D = .user i
  · subst hsame
    have hlow : k.toNat < 768 := howns
    refine absurd ?_ hne
    simp only [Layout.frame, if_true, freshDirectory, if_neg howns.ne_window,
      if_neg (Nat.not_le_of_lt hlow)]
  · have hdir : L.frame D ≠ L.pageDir i := fun heq => hsame (L.frame_injective heq)
    simp only [if_neg hdir] at hne hframe ⊢
    have hold : s.tables L (D, k) = some F := by
      refine tables_eq_some.mpr ⟨hlive.imp_left fun huse => ?_, howns, hne, hframe⟩
      cases D with
      | kernel => trivial
      | user j =>
          have hj : j ≠ i := fun heq => hsame (congrArg Dir.user heq)
          simpa [InUse, Function.update_of_ne hj] using huse
    refine ⟨hold, trivial, funext fun k' => ?_, h.accounted.used hold⟩
    exact if_neg (hcore.table_apart hold (.user i))

theorem Tables.keeps_memFreePageDir (h : s.Tables L) (hcore : s.Core L) {i : Fin 256}
    (hi : s.pageDirsUsed i = true) (hcall : s.memFreePageDir L i = some t) :
    KeepsTables L s t := by
  obtain ⟨u, hu, hdirs, rfl⟩ := hcore.memFreePageDir_cases hi hcall
  intro D k F htable
  obtain ⟨hlive, howns, hne, hframe⟩ := tables_eq_some.mp htable
  have hD : D ≠ .user i := by
    rintro rfl
    exact hne ((hdirs _ k).trans (if_pos ⟨rfl, howns⟩))
  have hentry : u.memory (L.frame D) k = s.memory (L.frame D) k :=
    (hdirs D k).trans (if_neg fun hslot => hD hslot.1)
  have hold : s.tables L (D, k) = some F := by
    refine tables_eq_some.mpr ⟨hlive.imp_left fun huse => ?_, howns,
      fun hzero => hne (hentry.trans hzero), (congrArg frameOf hentry).symm.trans hframe⟩
    cases D with
    | kernel => trivial
    | user j =>
        have hj : j ≠ i := fun heq => hD (congrArg Dir.user heq)
        simpa [InUse, Function.update_of_ne hj] using huse
  -- No other directory has one of the tables that are given back.
  have hfreed : ∀ j : Index, j.toNat < 768 → s.memory (L.pageDir i) j ≠ 0 →
      s.tables L (.user i, j) = some (frameOf (s.memory (L.pageDir i) j)) := fun j hj hentry =>
    tables_eq_some.mpr ⟨Or.inl hi, hj, hentry, rfl⟩
  have hother : ∀ j : Index, j.toNat < 768 → s.memory (L.pageDir i) j ≠ 0 →
      F ≠ frameOf (s.memory (L.pageDir i) j) := by
    rintro j hj hentry rfl
    exact hD (Prod.mk.inj (h.accounted.exclusive hold (hfreed j hj hentry))).1
  refine ⟨hold, hentry, funext fun k' => ?_, ?_⟩
  · refine (hu.memory F k').trans (if_neg ?_)
    rintro (⟨hdir, -⟩ | ⟨j, hj, hentry, hF⟩)
    · exact hcore.table_apart hold (.user i) hdir
    · exact hother j hj hentry hF
  · have hpages : ∀ j : Index, j.toNat < 768 → s.memory (L.pageDir i) j ≠ 0 →
        ∀ j', ¬ Has (s.memory (frameOf (s.memory (L.pageDir i) j)) j') pageFlagOwner :=
      fun j hj hentry => (h.sound _ _ _ (hfreed j hj hentry)).pages
    refine (hu.exact hpages F.toNat).mpr ⟨h.accounted.used hold, fun j hj howner heq => ?_⟩
    exact hother j hj (Has.ne_zero howner) (BitVec.eq_of_toNat_eq heq.symm)

/-- It is tables that `mem_free_page_dir` gives back. -/
theorem Tables.used_memFreePageDir (h : s.Tables L) (hcore : s.Core L) {i : Fin 256}
    (hi : s.pageDirsUsed i = true) (hcall : s.memFreePageDir L i = some t) {f : Frame}
    (hf : s.pmm.used f.toNat = true) :
    t.pmm.used f.toNat = true ∨ ∃ slot, s.tables L slot = some f := by
  obtain ⟨u, hu, -, rfl⟩ := hcore.memFreePageDir_cases hi hcall
  have hfreed : ∀ j : Index, j.toNat < 768 → s.memory (L.pageDir i) j ≠ 0 →
      s.tables L (.user i, j) = some (frameOf (s.memory (L.pageDir i) j)) := fun j hj hentry =>
    tables_eq_some.mpr ⟨Or.inl hi, hj, hentry, rfl⟩
  refine or_iff_not_imp_right.mpr fun hnone => (hu.exact ?_ f.toNat).mpr ⟨hf, ?_⟩
  · exact fun j hj hentry => (h.sound _ _ _ (hfreed j hj hentry)).pages
  · intro j hj howner heq
    exact hnone ⟨_, BitVec.eq_of_toNat_eq heq ▸ hfreed j hj (Has.ne_zero howner)⟩

theorem Tables.keeps_memChangePageDirectory (h : s.Tables L) {D : Dir} (hD : s.InUse D) :
    KeepsTables L s (s.memChangePageDirectory (L.frame D)) := by
  refine h.keeps_cr3 fun D' hD' => Or.inl (hD'.elim id fun hcr3 => ?_)
  exact L.frame_injective hcr3 ▸ hD

end Paging

end Senob.Memory
