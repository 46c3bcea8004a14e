import Senob.Memory.PagingTables

/-!
# One owner for every page table

While the allocator has frames for the tables, every table that a directory leads to is marked
as used, belongs to one entry and holds a page. The copies of the kernel's half in the other
directories share the tables without owning them.
-/

namespace Senob.Memory

open Senob.Foundation

/-! ## Flags of entries -/

theorem pageFlag4MB_eq : pageFlag4MB = BitVec.twoPow 32 7 := by decide

@[simp] theorem has_4MB (e : Word) : Has e pageFlag4MB ↔ e.getLsbD 7 = true := by
  rw [pageFlag4MB_eq, has_twoPow e (by decide)]

theorem getLsbD_disown (e : Word) {i : Nat} (hi : i ≠ 9) :
    (e &&& ~~~pageFlagOwner).getLsbD i = e.getLsbD i := by
  rw [pageFlagOwner_eq, BitVec.getLsbD_and, BitVec.getLsbD_not, BitVec.getLsbD_twoPow]
  by_cases hlt : i < 32
  · simp [hlt, hi.symm]
  · simp [BitVec.getLsbD_of_ge e i (Nat.le_of_not_lt hlt)]

/-- The entries agree but for the flag of ownership. -/
def Alike (e e' : Word) : Prop := ∀ i, i ≠ 9 → e.getLsbD i = e'.getLsbD i

namespace Alike

variable {e e' e'' : Word}

theorem refl (e : Word) : Alike e e := fun _ _ => rfl

theorem symm (h : Alike e e') : Alike e' e := fun i hi => (h i hi).symm

theorem trans (h : Alike e e') (h' : Alike e' e'') : Alike e e'' := fun i hi =>
  (h i hi).trans (h' i hi)

theorem disown (e : Word) : Alike (e &&& ~~~pageFlagOwner) e := fun _ hi => getLsbD_disown e hi

theorem has_present_iff (h : Alike e e') : Has e pageFlagPresent ↔ Has e' pageFlagPresent := by
  rw [has_present, has_present, h 0 (by decide)]

theorem has_4MB_iff (h : Alike e e') : Has e pageFlag4MB ↔ Has e' pageFlag4MB := by
  rw [has_4MB, has_4MB, h 7 (by decide)]

theorem frameOf_eq (h : Alike e e') : frameOf e = frameOf e' := by
  apply BitVec.eq_of_getLsbD_eq
  intro i hi
  rw [getLsbD_frameOf _ hi, getLsbD_frameOf _ hi, h (12 + i) (by omega)]

end Alike

theorem not_has_owner_disown (e : Word) : ¬ Has (e &&& ~~~pageFlagOwner) pageFlagOwner := by
  rw [has_owner, pageFlagOwner_eq, BitVec.getLsbD_and, BitVec.getLsbD_not, BitVec.getLsbD_twoPow]
  simp

theorem not_has_owner_selfEntry (dir : Frame) : ¬ Has (selfEntry dir) pageFlagOwner := by
  have hbits : pageFlagPresent[9] = false ∧ pageFlagWrite[9] = false := by decide
  simp [selfEntry, frameAddress, hbits]

theorem bootDirectory_flags {k : Index} (hk : IsBoot k) :
    Has (bootDirectory k) pageFlag4MB ∧ ¬ Has (bootDirectory k) pageFlagOwner := by
  unfold bootDirectory
  split
  · decide
  split
  · have haligned : (k.toNat - 768) * 0x400000 % 4096 = 0 := by omega
    have hbits : (0x83 : Word).getLsbD 7 = true ∧ (0x83 : Word).getLsbD 9 = false := by decide
    rw [has_4MB, has_owner, BitVec.getLsbD_or, BitVec.getLsbD_or,
      Paging.getLsbD_of_aligned haligned (show 9 < 12 by decide), hbits.1, hbits.2]
    simp
  next hzero hlow =>
    rw [if_pos ((hk.resolve_left hzero).resolve_left hlow)]
    decide

namespace PagingCall

variable {L : Layout} {s t : Paging}

/-! ## The owner of an entry -/

/-- The directory whose entry `k` is the one that directory `D` shows. -/
def holder (D : Dir) (k : Index) : Dir := if k.toNat < 768 then D else .kernel

/-- The entries of a directory in use are its own ones, or the kernel's without ownership. -/
theorem Coherent.alike_holder (h : Coherent L s) {D : Dir} (hD : s.InUse D) {k : Index}
    (hk : k ≠ 1023) : Alike (s.memory (L.frame D) k) (s.memory (L.frame (holder D k)) k) := by
  unfold holder
  split
  · exact .refl _
  next hhigh =>
    cases D with
    | kernel => exact .refl _
    | user i =>
        have hcopy : s.memory (L.frame (.user i)) k = _ :=
          h.halves i hD k (Nat.le_of_not_lt hhigh) (toNat_lt_window hk)
        rw [hcopy]
        exact .disown _

/-- The entry that is shown is one of `boot.s`, or its directory has it for itself. -/
theorem owns_holder {D : Dir} {k : Index} (hk : k ≠ 1023)
    (hboot : ¬ (holder D k = .kernel ∧ IsBoot k)) : Paging.Owns (holder D k) k := by
  cases hD : holder D k with
  | kernel => exact ⟨fun hk' => hboot ⟨hD, hk'⟩, hk⟩
  | user i =>
      unfold holder at hD
      split at hD
      next hlow => exact hlow
      next _ => exact nomatch hD

/-- An entry that is present and no page of 4 MiB shows a table. -/
theorem Coherent.table_of_entry (h : Coherent L s) {D : Dir} (hD : s.InUse D) {k : Index}
    (hk : k ≠ 1023) (hpresent : Has (s.memory (L.frame D) k) pageFlagPresent)
    (hlarge : ¬ Has (s.memory (L.frame D) k) pageFlag4MB) :
    s.tables L (holder D k, k) = some (frameOf (s.memory (L.frame D) k)) := by
  have hlive : s.Live L (holder D k) := by
    unfold holder
    split
    · exact Or.inl hD
    · exact Or.inl trivial
  have halike := h.alike_holder hD hk
  rw [halike.has_present_iff] at hpresent
  rw [halike.has_4MB_iff] at hlarge
  refine Paging.tables_eq_some.mpr ⟨hlive, owns_holder hk fun hboot => hlarge ?_,
    hpresent.ne_zero, halike.frameOf_eq.symm⟩
  rw [hboot.1]
  have hentry : s.memory (L.frame .kernel) k = bootDirectory k := h.core.sound.boot k hboot.2
  rw [hentry]
  exact (bootDirectory_flags hboot.2).1

/-! ## Directories that are not in use -/

/-- Directories that are not in use own nothing, and none of them is current. -/
structure Idle (L : Layout) (s : Paging) : Prop where
  current : ∀ i, s.pageDirsUsed i = false → s.cr3 ≠ L.pageDir i
  unowned : ∀ i, s.pageDirsUsed i = false → ∀ k, ¬ Has (s.memory (L.pageDir i) k) pageFlagOwner

/-- Every entry with ownership is one of a table. -/
theorem Coherent.table_of_owner (h : Coherent L s) (hidle : Idle L s) {D : Dir} {k : Index}
    (howner : Has (s.memory (L.frame D) k) pageFlagOwner) :
    s.tables L (D, k) = some (frameOf (s.memory (L.frame D) k)) := by
  have huse : s.InUse D := by
    cases D with
    | kernel => trivial
    | user i =>
        by_contra hunused
        exact hidle.unowned i (Bool.eq_false_of_not_eq_true hunused) k howner
  have hk : k ≠ 1023 := by
    rintro rfl
    rw [h.core.sound.self D (Or.inl huse)] at howner
    exact not_has_owner_selfEntry _ howner
  refine Paging.tables_eq_some.mpr ⟨Or.inl huse, ?_, howner.ne_zero, rfl⟩
  cases D with
  | kernel =>
      refine ⟨fun hboot => ?_, hk⟩
      have hentry : s.memory (L.frame .kernel) k = bootDirectory k := h.core.sound.boot k hboot
      rw [hentry] at howner
      exact (bootDirectory_flags hboot).2 howner
  | user i =>
      by_contra hhigh
      have hcopy : s.memory (L.frame (.user i)) k = _ :=
        h.halves i huse k (Nat.le_of_not_lt hhigh) (toNat_lt_window hk)
      rw [hcopy] at howner
      exact not_has_owner_disown _ howner

theorem Idle.not_live (h : Idle L s) {i : Fin 256} (hi : s.pageDirsUsed i = false) :
    ¬ s.Live L (.user i) := by
  rintro (huse | hcr3)
  · exact Bool.false_ne_true (hi.symm.trans huse)
  · exact h.current i hi hcr3

/-- A directory that is not in use is neither edited nor synchronised. -/
theorem Idle.of_edit (h : Idle L s) {m : PhysicalMemory} {virtAddr count : Word} {pmm : Pmm}
    {D : Dir} (hD : s.Live L D)
    (hdirs : ∀ D' i, D' ≠ D → m (L.frame D') i = s.memory (L.frame D') i) :
    Idle L { s with
      memory := Paging.synced L s.pageDirsUsed virtAddr m
      memNumVpages := count
      pmm := pmm } := by
  refine ⟨h.current, fun i hi k' => ?_⟩
  have hne : Dir.user i ≠ D := by
    rintro rfl
    exact h.not_live hi hD
  have hsame : Paging.synced L s.pageDirsUsed virtAddr m (L.pageDir i) k' =
      s.memory (L.pageDir i) k' := by
    refine Eq.trans ?_ (hdirs (.user i) k' hne)
    unfold Paging.synced
    split
    · rw [Paging.syncKernelHalves_apply, if_neg]
      · rfl
      · rintro ⟨⟨d, hd, heq⟩, -⟩
        obtain rfl := L.pageDir_injective heq
        exact Bool.false_ne_true (hi.symm.trans hd)
    · rfl
  dsimp only
  rw [hsame]
  exact h.unowned i hi k'

theorem Idle.memMapPage (h : Idle L s) (hcore : s.Core L) {virtAddr physAddr flags : Word}
    (hordinary : s.Ordinary L virtAddr) (hflags : frameOf flags = 0)
    (hcall : s.memMapPage L virtAddr physAddr flags = some t) : Idle L t := by
  obtain ⟨D, hD⟩ := hcore.edits hordinary
  obtain ⟨F, m, pmm, hstep, rfl⟩ := Paging.memMapPage_cases hcore hD hflags hcall
  refine h.of_edit hD.live fun D' i hne => ?_
  rw [PhysicalMemory.write_of_ne _ (Or.inl (hstep.apart hcore hD.owns D').symm),
    hstep.dirs hcore (Or.inl hne)]

theorem Idle.memUnmapPage (h : Idle L s) (hcore : s.Core L) {virtAddr pte : Word}
    (hordinary : s.Ordinary L virtAddr)
    (hcall : s.memUnmapPage L virtAddr = some (pte, t)) : Idle L t := by
  obtain ⟨D, hD⟩ := hcore.edits hordinary
  rcases Paging.memUnmapPage_cases hcore hD hcall with ⟨-, rfl⟩ | ⟨-, -, -, m, pmm, hstep, rfl⟩
  · rw [Paging.enter_eq, ← hD.frame]
    refine ⟨fun i hi heq => ?_, h.unowned⟩
    obtain rfl : D = .user i := L.frame_injective heq
    exact h.not_live hi hD.live
  · refine h.of_edit hD.live fun D' i hne => ?_
    rw [hstep.dirs (Or.inl hne),
      PhysicalMemory.write_of_ne _ (Or.inl (hcore.sound.apart D _ hD.owns D').symm)]

theorem Idle.memAllocPageDir (h : Idle L s) {result : Option (Fin 256)}
    (hcall : s.memAllocPageDir L = (result, t)) : Idle L t := by
  rcases Paging.memAllocPageDir_cases hcall with ⟨-, rfl, -⟩ | ⟨i, -, -, rfl⟩
  · exact h
  have hother : ∀ j, Function.update s.pageDirsUsed i true j = false →
      j ≠ i ∧ s.pageDirsUsed j = false := by
    intro j hj
    by_cases hsame : j = i
    · simp [hsame] at hj
    · exact ⟨hsame, by rwa [Function.update_of_ne hsame] at hj⟩
  refine ⟨fun j hj => h.current j (hother j hj).2, fun j hj k => ?_⟩
  obtain ⟨hne, hunused⟩ := hother j hj
  simp only [if_neg fun heq => hne (L.pageDir_injective heq)]
  exact h.unowned j hunused k

theorem Idle.memFreePageDir (h : Idle L s) (hs : Coherent L s) {i : Fin 256}
    (hi : s.pageDirsUsed i = true) (hcurrent : s.cr3 ≠ L.pageDir i)
    (hcall : s.memFreePageDir L i = some t) : Idle L t := by
  obtain ⟨u, -, hdirs, rfl⟩ := hs.core.memFreePageDir_cases hi hcall
  have hentry : ∀ j k, u.memory (L.pageDir j) k =
      if Dir.user j = .user i ∧ k.toNat < 768 then 0 else s.memory (L.pageDir j) k :=
    fun j k => hdirs (.user j) k
  refine ⟨fun j hj => ?_, fun j hj k => ?_⟩
  · by_cases hsame : j = i
    · rwa [hsame]
    · exact h.current j (by simpa [Function.update_of_ne hsame] using hj)
  · dsimp only
    rw [hentry]
    split
    · decide
    next hkept =>
      by_cases hsame : j = i
      · -- The entries that are left in the directory are copies and the one of itself.
        subst hsame
        have hhigh : 768 ≤ k.toNat := Nat.le_of_not_lt fun hlow => hkept ⟨rfl, hlow⟩
        by_cases hwindow : k = 1023
        · have hself : s.memory (L.pageDir j) 1023 = _ := hs.core.sound.self (.user j) (Or.inl hi)
          rw [hwindow, hself]
          exact not_has_owner_selfEntry _
        · rw [hs.halves j hi k hhigh (toNat_lt_window hwindow)]
          exact not_has_owner_disown _
      · exact h.unowned j (by simpa [Function.update_of_ne hsame] using hj) k

theorem Idle.memChangePageDirectory (h : Idle L s) {D : Dir} (hD : s.InUse D) :
    Idle L (s.memChangePageDirectory (L.frame D)) := by
  refine ⟨fun i hi heq => ?_, h.unowned⟩
  obtain rfl : D = .user i := L.frame_injective heq
  exact Bool.false_ne_true (hi.symm.trans hD)

/-! ## Every run -/

variable (L) in
/-- The allocator has frames for the tables, and the flag of ownership is not passed. -/
def Allots (s : Paging) : PagingCall → Prop
  | memMapPage virtAddr physAddr flags =>
      ¬ Has (physAddr ||| flags) pageFlagOwner ∧ s.TableGranted L virtAddr
  | mapNewFrame virtAddr flags =>
      ¬ Has flags pageFlagOwner ∧ ∀ addr pmm, s.pmm.allocPageframe = some (addr, pmm) →
        Paging.TableGranted L { s with pmm := pmm } virtAddr
  | _ => True

variable (L) in
/-- The current directory is not freed. -/
def KeepsCurrent (s : Paging) : PagingCall → Prop
  | memFreePageDir i => s.cr3 ≠ L.pageDir i
  | _ => True

instance (p : Pmm) : Decidable (Paging.Grants p) :=
  match halloc : p.allocPageframe with
  | none => isTrue fun _ _ h => nomatch halloc.symm.trans h
  | some (addr, p') => decidable_of_iff (addr ≠ 0)
      ⟨fun hne _ _ h => (Prod.mk.inj (Option.some.inj (halloc.symm.trans h))).1 ▸ hne,
        fun h => h addr p' halloc⟩

instance (s : Paging) (virtAddr : Word) : Decidable (s.TableGranted L virtAddr) :=
  inferInstanceAs (Decidable (_ ∨ _))

instance (s : Paging) : DecidablePred (Allots L s)
  | memMapPage _ _ _ => inferInstanceAs (Decidable (_ ∧ _))
  | mapNewFrame virtAddr flags =>
      match halloc : s.pmm.allocPageframe with
      | none => decidable_of_iff (¬ Has flags pageFlagOwner)
          ⟨fun h => ⟨h, fun _ _ hsome => nomatch halloc.symm.trans hsome⟩, And.left⟩
      | some (addr, pmm) => decidable_of_iff
          (¬ Has flags pageFlagOwner ∧ Paging.TableGranted L { s with pmm := pmm } virtAddr)
          ⟨fun h => ⟨h.1, fun _ _ hsome =>
            (Prod.mk.inj (Option.some.inj (halloc.symm.trans hsome))).2 ▸ h.2⟩,
            fun h => ⟨h.1, h.2 addr pmm halloc⟩⟩
  | memUnmapPage _ => isTrue trivial
  | memAllocPageDir => isTrue trivial
  | memFreePageDir _ => isTrue trivial
  | memChangePageDirectory _ => isTrue trivial

instance (s : Paging) : DecidablePred (KeepsCurrent L s)
  | memFreePageDir i => inferInstanceAs (Decidable (s.cr3 ≠ L.pageDir i))
  | memMapPage _ _ _ => isTrue trivial
  | mapNewFrame _ _ => isTrue trivial
  | memUnmapPage _ => isTrue trivial
  | memAllocPageDir => isTrue trivial
  | memChangePageDirectory _ => isTrue trivial

theorem tables_step (h : s.Tables L) (hcore : s.Core L) {call : PagingCall}
    (henabled : call.Enabled L s) (hallots : call.Allots L s)
    (hcall : call.step L s = some t) : t.Tables L := by
  cases call with
  | memMapPage virtAddr physAddr flags =>
      exact h.memMapPage hcore henabled.1 henabled.2 hallots.1 hallots.2 hcall
  | mapNewFrame virtAddr flags =>
      exact h.mapNewFrame hcore henabled.1 henabled.2 hallots.1 hallots.2 hcall
  | memUnmapPage virtAddr =>
      obtain ⟨⟨pte, u⟩, hunmap, rfl⟩ := Option.map_eq_some_iff.mp hcall
      exact h.memUnmapPage hcore henabled hunmap
  | memAllocPageDir =>
      obtain rfl := Option.some.inj hcall
      exact (h.keeps_memAllocPageDir hcore rfl).tables h
  | memFreePageDir i => exact (h.keeps_memFreePageDir hcore henabled hcall).tables h
  | memChangePageDirectory D =>
      obtain rfl := Option.some.inj hcall
      exact (h.keeps_memChangePageDirectory henabled).tables h

theorem idle_step (h : Idle L s) (hs : Coherent L s) {call : PagingCall}
    (henabled : call.Enabled L s) (hkeeps : call.KeepsCurrent L s)
    (hcall : call.step L s = some t) : Idle L t := by
  cases call with
  | memMapPage virtAddr physAddr flags =>
      exact h.memMapPage hs.core henabled.1 henabled.2 hcall
  | mapNewFrame virtAddr flags =>
      obtain ⟨⟨physAddr, pmm⟩, halloc, hcall⟩ := Option.bind_eq_some_iff.mp hcall
      exact Idle.memMapPage (s := { s with pmm := pmm }) ⟨h.current, h.unowned⟩
        (hs.core.of_pmm (Paging.startByte_allocPageframe halloc)) henabled.1 henabled.2 hcall
  | memUnmapPage virtAddr =>
      obtain ⟨⟨pte, u⟩, hunmap, rfl⟩ := Option.map_eq_some_iff.mp hcall
      exact h.memUnmapPage hs.core henabled hunmap
  | memAllocPageDir =>
      obtain rfl := Option.some.inj hcall
      exact h.memAllocPageDir rfl
  | memFreePageDir i => exact h.memFreePageDir hs henabled hkeeps hcall
  | memChangePageDirectory D =>
      obtain rfl := Option.some.inj hcall
      exact h.memChangePageDirectory henabled

/-- A page table that a directory in use leads to is marked as used and holds a page, and of
all entries of all directories one owns it. That is the entry itself or, in the kernel's half,
the one that it is a copy of. -/
def TablesOwnedOnce (L : Layout) (s : Paging) : Prop :=
  ∀ D, s.InUse D → ∀ k : Index, k ≠ 1023 →
    Has (s.memory (L.frame D) k) pageFlagPresent → ¬ Has (s.memory (L.frame D) k) pageFlag4MB →
      s.pmm.used (frameOf (s.memory (L.frame D) k)).toNat = true ∧
      (∀ D' k', (Has (s.memory (L.frame D') k') pageFlagOwner ∧
          frameOf (s.memory (L.frame D') k') = frameOf (s.memory (L.frame D) k)) ↔
        D' = holder D k ∧ k' = k) ∧
      ∃ j, Has (s.memory (frameOf (s.memory (L.frame D) k)) j) pageFlagPresent

theorem tablesOwnedOnce (h : Coherent L s) (htables : s.Tables L) (hidle : Idle L s) :
    TablesOwnedOnce L s := by
  intro D hD k hk hpresent hlarge
  have htable := h.table_of_entry hD hk hpresent hlarge
  have hsound := htables.sound _ _ _ htable
  refine ⟨htables.accounted.used htable, fun D' k' => ⟨fun howner => ?_, ?_⟩, hsound.filled⟩
  · have hother := h.table_of_owner hidle howner.1
    rw [howner.2] at hother
    exact Prod.mk.inj (htables.accounted.exclusive hother htable)
  · rintro ⟨rfl, rfl⟩
    exact ⟨hsound.owner, (h.alike_holder hD hk).frameOf_eq.symm⟩

theorem tables_initDirectories (m : PhysicalMemory) (memHigh physicalAllocstart : Nat) :
    (Paging.initDirectories L m memHigh physicalAllocstart).Tables L := by
  have hnone : ∀ D k F, (Paging.initDirectories L m memHigh physicalAllocstart).tables L (D, k) ≠
      some F := by
    intro D k F htable
    obtain ⟨-, howns, hne, -⟩ := Paging.tables_eq_some.mp htable
    exact hne (initDirectories_owned m _ _ howns)
  refine ⟨fun D k F htable => absurd htable (hnone D k F), fun i j F hi => ?_, fun i F hi => ?_⟩
  · exact absurd hi (hnone i.1 i.2 F)
  · exact absurd hi (hnone i.1 i.2 F)

theorem idle_initDirectories (m : PhysicalMemory) (memHigh physicalAllocstart : Nat) :
    Idle L (Paging.initDirectories L m memHigh physicalAllocstart) := by
  refine ⟨fun i _ heq => L.pageDir_ne_kernelDirectory i heq.symm, fun i _ k => ?_⟩
  rw [initDirectories_pageDir]
  decide

/-- As long as the allocator does not fail, no directory in use leads to a table that has been
given back. -/
theorem always_tablesOwnedOnce (m : PhysicalMemory) (memHigh : Nat) {physicalAllocstart : Nat}
    (hbehind : Behind L physicalAllocstart) {calls : List PagingCall}
    (hcalls : Admissible (step L)
      (fun s call => call.Enabled L s ∧ call.Allots L s ∧ call.KeepsCurrent L s)
      (Paging.initDirectories L m memHigh physicalAllocstart) calls) :
    Always (step L) (TablesOwnedOnce L)
      (Paging.initDirectories L m memHigh physicalAllocstart) calls := by
  have hinit := coherent_initDirectories hbehind m memHigh
  refine (always_of_invariant (fun s => Coherent L s ∧ s.Tables L ∧ Idle L s) ?_
    ⟨hinit, tables_initDirectories m memHigh _, idle_initDirectories m memHigh _⟩ hcalls).imp
      fun s h => tablesOwnedOnce h.1 h.2.1 h.2.2
  rintro s call t ⟨hs, htables, hidle⟩ ⟨henabled, hallots, hkeeps⟩ hcall
  exact ⟨hs.step henabled hcall, tables_step htables hs.core henabled hallots hcall,
    idle_step hidle hs henabled hkeeps hcall⟩

theorem always_tablesOwnedOnce_fourCalls :
    Always (step exampleLayout) (TablesOwnedOnce exampleLayout)
      (Paging.initDirectories exampleLayout (fun _ _ => 0) 0x8000000 0x1000000) exampleCalls :=
  always_tablesOwnedOnce _ _ behind_exampleLayout (by decide +kernel)

end PagingCall

end Senob.Memory
