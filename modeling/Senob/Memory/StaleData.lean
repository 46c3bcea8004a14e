import Senob.Memory.UserThreads

/-!
# What was left in the frames of a process

`pmm_alloc_pageframe` hands out frames as they are, and `createUserProcess` writes to no page but
those of the program. Two runs are compared, of which one starts with other contents of a frame
that is free: as long as the frame is no table and is not written to, all else is the same. The
frame of the last page of the heap is such a frame.
-/

namespace Senob.Memory

open Senob.Foundation

/-- The state with other contents of frame `f`. -/
def Paging.refill (s : Paging) (f : Frame) (page : Index → Word) : Paging :=
  { s with memory := Function.update s.memory f page }

variable {L : Layout} {f g : Frame} {page : Index → Word}

namespace PhysicalMemory

variable (m : PhysicalMemory)

theorem write_update (h : g ≠ f) (i : Index) (e : Word) :
    write (Function.update m f page) g i e = Function.update (m.write g i e) f page := by
  funext f' i'
  by_cases hf : f' = f
  · subst hf
    rw [write_of_ne _ (Or.inl h.symm), Function.update_self, Function.update_self]
  · rw [Function.update_of_ne hf, write, write, Function.update_of_ne hf]

theorem zero_update (h : g ≠ f) :
    zero (Function.update m f page) g = Function.update (m.zero g) f page := by
  funext f' i'
  by_cases hf : f' = f
  · subst hf
    rw [zero_of_ne _ h.symm, Function.update_self, Function.update_self]
  · rw [Function.update_of_ne hf, zero, zero, Function.update_of_ne hf]

end PhysicalMemory

/-- The frame is no directory. -/
def NoDirectory (L : Layout) (f : Frame) : Prop := ∀ D, L.frame D ≠ f

namespace Paging

variable {s t : Paging}

theorem refill_of_ne (h : g ≠ f) : (s.refill f page).memory g = s.memory g :=
  Function.update_of_ne h _ _

theorem refill_self : (s.refill f page).memory f = page := Function.update_self ..

theorem synced_update (hf : NoDirectory L f) (used : Fin 256 → Bool) (virtAddr : Word)
    (m : PhysicalMemory) :
    synced L used virtAddr (Function.update m f page) =
      Function.update (synced L used virtAddr m) f page := by
  unfold synced
  split
  case isFalse => rfl
  case isTrue =>
    funext f' i
    by_cases hf' : f' = f
    · subst hf'
      rw [syncKernelHalves_of_ne _ _ _ (Or.inl fun d heq => hf (.user d) heq.symm),
        Function.update_self, Function.update_self]
    · have hkernel : L.kernelDirectory ≠ f := hf .kernel
      rw [Function.update_of_ne hf', syncKernelHalves_apply, syncKernelHalves_apply,
        Function.update_of_ne hf', Function.update_of_ne hkernel]

/-! ## Mapping a page -/

section TableStep

variable {m m' : PhysicalMemory} {pmm pmm' : Pmm} {D : Dir} {k : Index} {flags : Word} {F : Frame}

theorem TableStep.refill (h : TableStep L m pmm D k flags F m' pmm') (hf : NoDirectory L f)
    (hF : F ≠ f) :
    TableStep L (Function.update m f page) pmm D k flags F (Function.update m' f page) pmm' := by
  have hentry : Function.update m f page (L.frame D) = m (L.frame D) :=
    Function.update_of_ne (hf D) _ _
  cases h with
  | present hpresent =>
      rw [← hentry] at hpresent
      have hstep : TableStep L (Function.update m f page) pmm D k flags _ _ pmm :=
        .present hpresent
      rwa [hentry] at hstep
  | created habsent ptPaddr pmm' halloc =>
      rw [← hentry] at habsent
      rw [← PhysicalMemory.zero_update _ hF, ← PhysicalMemory.write_update m (hf D)]
      exact .created habsent ptPaddr pmm' halloc

/-- The memory determines what is done about the table. -/
theorem TableStep.unique (h : TableStep L m pmm D k flags F m' pmm') {F' : Frame}
    {m'' : PhysicalMemory} {pmm'' : Pmm} (h' : TableStep L m pmm D k flags F' m'' pmm'') :
    F' = F ∧ m'' = m' ∧ pmm'' = pmm' := by
  cases h with
  | present hpresent =>
      cases h' with
      | present _ => exact ⟨rfl, rfl, rfl⟩
      | created habsent => exact absurd hpresent habsent
  | created habsent ptPaddr pmm' halloc =>
      cases h' with
      | present hpresent => exact absurd hpresent habsent
      | created _ ptPaddr' pmm'' halloc' =>
          obtain ⟨rfl, rfl⟩ := Prod.mk.inj (Option.some.inj (halloc.symm.trans halloc'))
          exact ⟨rfl, rfl, rfl⟩

end TableStep

theorem memMapPage_eq (h : s.Core L) {virtAddr physAddr flags : Word} {D : Dir}
    (hD : s.Edits L virtAddr D) (hflags : frameOf flags = 0) {F : Frame} {m : PhysicalMemory}
    {pmm : Pmm} (hstep : TableStep L s.memory s.pmm D (pdIndex virtAddr) flags F m pmm) :
    s.memMapPage L virtAddr physAddr flags = some { s with
      memory := synced L s.pageDirsUsed virtAddr
        (m.write F (ptIndex virtAddr) (physAddr ||| pageFlagPresent ||| flags))
      memNumVpages := s.memNumVpages + 1
      pmm := pmm } := by
  have hself := (h.entered hD).sound.self D (Or.inr hD.enter_cr3)
  have htable : ∃ table, (s.enter L virtAddr).ensureTable virtAddr flags = some table := by
    rw [ensureTable, recPageDir_eq hD.enter_cr3 hself, enter_eq]
    cases hstep with
    | present hpresent => exact ⟨_, if_pos hpresent⟩
    | created habsent ptPaddr pmm halloc =>
        rw [if_neg habsent, allocTable, halloc]
        exact ⟨_, rfl⟩
  obtain ⟨table, htable⟩ := htable
  have hcall : ∃ t, s.memMapPage L virtAddr physAddr flags = some t := by
    rw [memMapPage, htable]
    exact ⟨_, rfl⟩
  obtain ⟨t, hcall⟩ := hcall
  obtain ⟨F', m', pmm', hstep', rfl⟩ := memMapPage_cases h hD hflags hcall
  obtain ⟨rfl, rfl, rfl⟩ := hstep.unique hstep'
  exact hcall

theorem Core.refill (h : s.Core L) (hf : NoDirectory L f) : (s.refill f page).Core L :=
  ⟨h.current, h.sound.of_dirs fun D i => congrFun (refill_of_ne (hf D)) i, h.below⟩

/-- The table in which a page was entered is one of the tables. -/
theorem tables_memMapPage (h : s.Core L) {virtAddr physAddr flags : Word} {D : Dir}
    (hD : s.Edits L virtAddr D) (hflags : frameOf flags = 0) {F : Frame} {m : PhysicalMemory}
    {pmm : Pmm} (hstep : TableStep L s.memory s.pmm D (pdIndex virtAddr) flags F m pmm)
    (hcall : s.memMapPage L virtAddr physAddr flags = some t) :
    t.tables L (D, pdIndex virtAddr) = some F := by
  rw [memMapPage_eq h hD hflags hstep] at hcall
  obtain rfl := Option.some.inj hcall
  obtain ⟨hframe, hpresent⟩ := hstep.entry h hflags
  have hentry : synced L s.pageDirsUsed virtAddr
      (m.write F (ptIndex virtAddr) (physAddr ||| pageFlagPresent ||| flags)) (L.frame D)
        (pdIndex virtAddr) = m (L.frame D) (pdIndex virtAddr) := by
    rw [synced_owned _ _ _ hD.owns,
      PhysicalMemory.write_of_ne _ (Or.inl (hstep.apart h hD.owns D).symm)]
  refine tables_eq_some.mpr ⟨(live_congr rfl rfl D).mpr hD.live, hD.owns, ?_, ?_⟩
  · dsimp only
    rw [hentry]
    exact hpresent.ne_zero
  · dsimp only
    rw [hentry]
    exact hframe

/-- Mapping a page does not depend on a frame that is neither a directory nor, behind it, a
table. -/
theorem memMapPage_refill (h : s.Core L) {virtAddr physAddr flags : Word}
    (hordinary : s.Ordinary L virtAddr) (hflags : frameOf flags = 0)
    (hcall : s.memMapPage L virtAddr physAddr flags = some t) (hf : NoDirectory L f)
    (hapart : ∀ slot F, t.tables L slot = some F → F ≠ f) :
    (s.refill f page).memMapPage L virtAddr physAddr flags = some (t.refill f page) := by
  obtain ⟨D, hD⟩ := h.edits hordinary
  obtain ⟨F, m, pmm, hstep, ht⟩ := memMapPage_cases h hD hflags hcall
  have hF := hapart _ F (tables_memMapPage h hD hflags hstep hcall)
  have hstep' : TableStep L (s.refill f page).memory (s.refill f page).pmm D (pdIndex virtAddr)
      flags F (Function.update m f page) pmm := hstep.refill hf hF
  have hD' : (s.refill f page).Edits L virtAddr D := ⟨hD.frame, hD.owns⟩
  rw [memMapPage_eq (h.refill hf) hD' hflags hstep', ht, PhysicalMemory.write_update m hF,
    synced_update hf]
  rfl

theorem mapNewFrame_refill (h : s.Core L) {virtAddr flags : Word}
    (hordinary : s.Ordinary L virtAddr) (hflags : frameOf flags = 0)
    (hcall : s.mapNewFrame L virtAddr flags = some t) (hf : NoDirectory L f)
    (hapart : ∀ slot F, t.tables L slot = some F → F ≠ f) :
    (s.refill f page).mapNewFrame L virtAddr flags = some (t.refill f page) := by
  obtain ⟨⟨addr, pmm⟩, halloc, hmap⟩ := Option.bind_eq_some_iff.mp hcall
  have halloc' : (s.refill f page).pmm.allocPageframe = some (addr, pmm) := halloc
  have hcore := h.of_pmm (startByte_allocPageframe halloc)
  rw [mapNewFrame, halloc']
  exact memMapPage_refill hcore hordinary hflags hmap hf hapart

/-! ## Page directories and stores -/

theorem copyKernelHalf_update (hf : NoDirectory L f) (m : PhysicalMemory) {dir : Frame}
    (hdir : dir ≠ f) :
    copyKernelHalf L (Function.update m f page) dir =
      Function.update (copyKernelHalf L m dir) f page := by
  have hkernel : L.kernelDirectory ≠ f := hf .kernel
  funext f' i
  by_cases hf' : f' = f
  · subst hf'
    rw [copyKernelHalf, if_neg fun h => hdir h.1.symm, Function.update_self, Function.update_self]
  · rw [Function.update_of_ne hf', copyKernelHalf, copyKernelHalf, Function.update_of_ne hf',
      Function.update_of_ne hkernel]

theorem memAllocPageDir_refill (hf : NoDirectory L f) (s : Paging) :
    (s.refill f page).memAllocPageDir L =
      ((s.memAllocPageDir L).1, (s.memAllocPageDir L).2.refill f page) := by
  have hused : (s.refill f page).pageDirsUsed = s.pageDirsUsed := rfl
  unfold memAllocPageDir
  rw [hused]
  cases (List.finRange 256).find? fun i => !s.pageDirsUsed i with
  | none => rfl
  | some i =>
      have hdir : L.pageDir i ≠ f := hf (.user i)
      dsimp only [refill]
      rw [PhysicalMemory.zero_update _ hdir, copyKernelHalf_update hf _ hdir,
        PhysicalMemory.write_update _ hdir]

theorem storeByte_refill {d : Word} {b : BitVec 8} (hcall : s.storeByte d b = some t)
    (hwalk : walk (s.refill f page).memory s.cr3 d = walk s.memory s.cr3 d)
    (hapart : ∀ g, walk s.memory s.cr3 d = some g → g ≠ f) :
    (s.refill f page).storeByte d b = some (t.refill f page) := by
  obtain ⟨g, hg, ht⟩ := Option.bind_eq_some_iff.mp hcall
  obtain rfl := Option.some.inj ht
  have hne := hapart g hg
  have hcr3 : (s.refill f page).cr3 = s.cr3 := rfl
  rw [storeByte, hcr3, hwalk, hg]
  refine congrArg (fun m => some { s with memory := m }) ?_
  rw [PhysicalMemory.setByte, refill_of_ne hne]
  exact PhysicalMemory.write_update s.memory hne _ _

end Paging

/-! ## Runs -/

namespace SpaceCall

open PagingCall (Orderly Extends PlainFlags UserTables)

variable {s t u : Paging} {i : Fin 256}

variable (L f) in
/-- The run leads from `s` to `t`, and with other contents of the frame to the same state but for
these. -/
structure Follows (s : Paging) (calls : List SpaceCall) (t : Paging) : Prop where
  run : runSteps (step L) s calls = some t
  refill : ∀ page, runSteps (step L) (s.refill f page) calls = some (t.refill f page)

theorem Follows.append {calls calls' : List SpaceCall} (h : Follows L f s calls t)
    (h' : Follows L f t calls' u) : Follows L f s (calls ++ calls') u where
  run := by rw [runSteps_append, h.run, Option.bind_some, h'.run]
  refill page := by rw [runSteps_append, h.refill, Option.bind_some, h'.refill]

/-- A frame that is free, or one of a page, is no table. -/
theorem tables_apart (h : Orderly L s)
    (hf : s.pmm.used f.toNat = false ∨ ∃ slot, s.pages L slot = some f) :
    ∀ slot F, s.tables L slot = some F → F ≠ f := by
  rcases hf with hfree | ⟨slot, hpage⟩
  · rintro slot F hF rfl
    have htable : s.frames L (.inl slot) = some F := hF
    exact Bool.false_ne_true (hfree.symm.trans (h.exclusive.used htable))
  · exact (h.page_apart hpage).2

/-- Mapping a page does not depend on a frame that is free behind it, or one of a page. -/
theorem follows_mapNewFrame {w flags : Word} (h : Orderly L s) (hordinary : s.Ordinary L w)
    (hflags : frameOf flags = 0) (hcall : PagingCall.step L s (.mapNewFrame w flags) = some t)
    (ht : Orderly L t) (hf : NoDirectory L f)
    (hkept : t.pmm.used f.toNat = false ∨ ∃ slot, t.pages L slot = some f) :
    Follows L f s [paging (.mapNewFrame w flags)] t := by
  constructor
  · rw [runSteps_cons]
    exact congrArg (·.bind some) hcall
  · intro page
    have hrefill : (s.refill f page).mapNewFrame L w flags = some (t.refill f page) :=
      Paging.mapNewFrame_refill h.core hordinary hflags hcall hf (tables_apart ht hkept)
    rw [runSteps_cons]
    exact congrArg (·.bind some) hrefill

/-- What is free behind a run was free before. -/
theorem free_of_marks (hmarks : ∀ f, s.pmm.used f = true → t.pmm.used f = true) {n : Nat}
    (hfree : t.pmm.used n = false) : s.pmm.used n = false := by
  by_contra hmarked
  rw [Bool.not_eq_false] at hmarked
  exact Bool.false_ne_true (hfree.symm.trans (hmarks n hmarked))

variable (L f) in
/-- Behind the run the frame is still free, or it is the one of a page in the user's half that the
run leaves alone. -/
def Spared (s t : Paging) (pages : List Word) : Prop :=
  t.pmm.used f.toNat = false ∨ ∃ i v, s.pageDirsUsed i = true ∧ v < kernelStart ∧
    walk s.memory (L.pageDir i) v = some f ∧ ∀ w ∈ pages, v >>> 12 ≠ w >>> 12

theorem follows_mapNewFrames {pages : List Word} {flags : Word} (h : Orderly L s)
    (hflags : PlainFlags flags)
    (hpages : ∀ w ∈ pages, s.Ordinary L w ∧ (w < kernelStart → Has flags pageFlagUser))
    (hstocked : Admissible (PagingCall.step L) (PagingCall.Stocked L) s
      (pages.map (PagingCall.mapNewFrame · flags)))
    (hrun : runSteps (PagingCall.step L) s (pages.map (PagingCall.mapNewFrame · flags)) = some t)
    (hf : NoDirectory L f) (hspared : Spared L f s t pages) :
    Follows L f s ((pages.map (PagingCall.mapNewFrame · flags)).map paging) t := by
  induction pages generalizing s with
  | nil =>
      obtain rfl := Option.some.inj hrun
      exact ⟨rfl, fun _ => rfl⟩
  | cons w rest ih =>
      rw [List.forall_mem_cons] at hpages
      obtain ⟨⟨hordinary, huser⟩, hlater⟩ := hpages
      obtain ⟨s₁, hcall, hs₁⟩ := h.extends_newPage
        ⟨⟨hordinary, hflags.frameOf_eq⟩, hflags, hstocked.1⟩ huser
      have hlater₁ : ∀ w' ∈ rest, s₁.Ordinary L w' ∧ (w' < kernelStart → Has flags pageFlagUser) :=
        fun w' hw' => ⟨by rw [Paging.Ordinary, hs₁.cr3]; exact (hlater w' hw').1,
          (hlater w' hw').2⟩
      rw [List.map_cons, runSteps_cons, hcall, Option.bind_some] at hrun
      obtain ⟨t', hrun', hrest⟩ :=
        hs₁.orderly.extends_mapNewFrames hflags hlater₁ (hstocked.2 s₁ hcall)
      obtain rfl := Option.some.inj (hrun'.symm.trans hrun)
      have hspared₁ : Spared L f s₁ t' rest := by
        rcases hspared with hfree | ⟨i, v, hi, hlow, hwalk, hbeside⟩
        · exact .inl hfree
        · rw [List.forall_mem_cons] at hbeside
          refine .inr ⟨i, v, by rwa [hs₁.used], hlow, ?_, hbeside.2⟩
          rwa [hs₁.walk i hi v hlow (List.forall_mem_singleton.mpr hbeside.1)]
      have hkept : s₁.pmm.used f.toNat = false ∨ ∃ slot, s₁.pages L slot = some f := by
        rcases hspared₁ with hfree | ⟨i, v, hi, hlow, hwalk, -⟩
        · exact .inl (free_of_marks hrest.marks hfree)
        · exact .inr ⟨_, hs₁.orderly.page_of_walk hi hlow hwalk⟩
      have hfirst := follows_mapNewFrame h hordinary hflags.frameOf_eq hcall hs₁.orderly hf hkept
      exact hfirst.append (ih hs₁.orderly hlater₁ (hstocked.2 s₁ hcall) hrun hspared₁)

/-- A call of `kmalloc` while there are frames. -/
theorem exists_kmalloc (h : Orderly L s) (k : Kmalloc)
    (hstocked : Admissible (PagingCall.step L) (PagingCall.Stocked L) s k.calls) :
    ∃ t, runSteps (PagingCall.step L) s k.calls = some t ∧ Extends L k.grown s t ∧
      ∀ f, NoDirectory L f → Spared L f s t k.grown →
        Follows L f s (k.calls.map paging) t := by
  obtain ⟨t, hrun, ht⟩ := extends_kmalloc h k hstocked
  refine ⟨t, hrun, ht, fun f hf hspared => ?_⟩
  refine follows_mapNewFrames h (by decide) (fun w hw => ?_) hstocked hrun hf hspared
  obtain ⟨hhigh, hwindow, hboot⟩ := k.kernel w hw
  exact ⟨⟨hwindow, fun _ => hboot⟩, fun hlow => absurd hhigh (BitVec.not_le.mpr hlow)⟩

/-- Mapping pages of a process while there are frames. -/
theorem exists_lowPages (h : Orderly L s) (hcr3 : s.cr3 = L.pageDir i) {pages : List Word}
    (hlow : ∀ w ∈ pages, w < kernelStart)
    (hstocked : Admissible (PagingCall.step L) (PagingCall.Stocked L) s
      (pages.map (PagingCall.mapNewFrame · userFlags))) :
    ∃ t, runSteps (PagingCall.step L) s (pages.map (PagingCall.mapNewFrame · userFlags)) =
        some t ∧ Extends L pages s t ∧
      ∀ f, NoDirectory L f → t.pmm.used f.toNat = false →
        Follows L f s ((pages.map (PagingCall.mapNewFrame · userFlags)).map paging) t := by
  obtain ⟨t, hrun, ht⟩ := extends_lowPages h hcr3 hlow hstocked
  refine ⟨t, hrun, ht, fun f hf hfree => ?_⟩
  exact follows_mapNewFrames h PagingCall.plainFlags_userFlags
    (fun w hw => ⟨ordinary_low hcr3 (hlow w hw), fun _ => by decide⟩) hstocked hrun hf (.inl hfree)

/-- Stores into pages of a process do not depend on a frame that is free. -/
theorem follows_stores {calls : List SpaceCall} (h : Orderly L s) (hcr3 : s.cr3 = L.pageDir i)
    (hi : s.pageDirsUsed i = true)
    (hcalls : ∀ call ∈ calls, ∃ d b, call = store d b ∧ d < kernelStart)
    (hrun : runSteps (step L) s calls = some t) (hf : NoDirectory L f)
    (hfree : s.pmm.used f.toNat = false) : Follows L f s calls t := by
  induction calls generalizing s with
  | nil =>
      obtain rfl := Option.some.inj hrun
      exact ⟨rfl, fun _ => rfl⟩
  | cons call rest ih =>
      rw [List.forall_mem_cons] at hcalls
      obtain ⟨⟨d, b, rfl, hlow⟩, hlater⟩ := hcalls
      rw [runSteps_cons] at hrun
      obtain ⟨s₁, hstep, hrun⟩ := Option.bind_eq_some_iff.mp hrun
      have hstore : s.storeByte d b = some s₁ := hstep
      obtain ⟨g, hg, -⟩ := Option.bind_eq_some_iff.mp hstore
      obtain ⟨s₁', hstep', hfills, -⟩ := fills_store h hcr3 hi hlow ⟨g, hcr3 ▸ hg⟩ b
      obtain rfl := Option.some.inj (hstep'.symm.trans hstep)
      have hfirst : Follows L f s [store d b] s₁' := by
        refine ⟨by rw [runSteps_cons]; exact congrArg (·.bind some) hstep, fun page => ?_⟩
        have hrefill : (s.refill f page).storeByte d b = some (s₁'.refill f page) := by
          refine Paging.storeByte_refill hstore ?_ ?_
          · rw [hcr3]
            exact walk_of_apart (fun D => (hf D).symm) (tables_apart h (.inl hfree))
              (fun f' hne => Paging.refill_of_ne hne) hi hlow
          · rintro g hg rfl
            have hpage : s.frames L (.inr ((.user i, pdIndex d), ptIndex d)) = some g :=
              h.page_of_walk hi hlow (hcr3 ▸ hg)
            exact Bool.false_ne_true (hfree.symm.trans (h.exclusive.used hpage))
        rw [runSteps_cons]
        exact congrArg (·.bind some) hrefill
      exact hfirst.append (ih hfills.orderly (hfills.cr3.trans hcr3) (by rwa [hfills.used]) hlater
        hrun (by rwa [hfills.pmm]))

/-! ## One call of `createUserProcess` -/

theorem follows_change (s : Paging) (D : Dir) :
    Follows L f s [paging (.memChangePageDirectory D)] (s.memChangePageDirectory (L.frame D)) :=
  ⟨rfl, fun _ => rfl⟩

theorem follows_alloc (s : Paging) (hf : NoDirectory L f) :
    Follows L f s [paging .memAllocPageDir] (s.memAllocPageDir L).2 := by
  refine ⟨rfl, fun page => ?_⟩
  have hstep : step L (s.refill f page) (paging .memAllocPageDir) =
      some ((s.refill f page).memAllocPageDir L).2 := rfl
  rw [runSteps_cons, hstep, Paging.memAllocPageDir_refill hf]
  rfl

variable {file : FatFile} {b : ProcessBlocks}

/-- The steps before the thread. -/
def loadCalls (file : FatFile) (b : ProcessBlocks) (i : Fin 256) : List SpaceCall :=
  (mappingCalls file b i).map paging ++ file.stores

theorem loadCalls_eq (file : FatFile) (b : ProcessBlocks) (i : Fin 256) :
    loadCalls file b i =
      b.process.calls.map paging ++ ([paging .memAllocPageDir] ++
        ([paging (.memChangePageDirectory (.user i))] ++
      (((programPages (file.stat.map BitVec.toNat)).map
        (PagingCall.mapNewFrame · userFlags)).map paging ++ file.stores))) := by
  unfold loadCalls mappingCalls
  rw [programCalls_eq]
  simp only [List.map_append, List.map_cons, List.append_assoc, List.cons_append, List.nil_append]

/-- The program is loaded into the new directory, whatever a frame holds that stays free. -/
theorem exists_loaded (h : Orderly L s) (hdir : (s.memAllocPageDir L).1 = some i)
    (hstocked : Admissible (step L) (Stocked L) s (loadCalls file b i)) :
    ∃ t, runSteps (step L) s (loadCalls file b i) = some t ∧ Orderly L t ∧
      t.cr3 = L.pageDir i ∧ t.pageDirsUsed i = true ∧ UserTables L i t ∧
      (∀ n, s.pmm.used n = true → t.pmm.used n = true) ∧
      ∀ f, NoDirectory L f → t.pmm.used f.toNat = false → Follows L f s (loadCalls file b i) t := by
  rw [loadCalls_eq] at hstocked ⊢
  obtain ⟨s₁, hrun₁, h₁, hfollows₁⟩ :=
    exists_kmalloc h b.process (admissible_paging.mp hstocked.of_append)
  have hstocked₁ := hstocked.after ((runSteps_paging _ _).trans hrun₁)
  -- The new directory, the pages of the program, and the copy of the file.
  obtain ⟨s₂, hrun₂, h₂, hpmm⟩ :=
    exists_fresh h₁.orderly ((memAllocPageDir_congr h₁.used).trans hdir)
  obtain rfl : (s₁.memAllocPageDir L).2.memChangePageDirectory (L.pageDir i) = s₂ :=
    Option.some.inj hrun₂
  have halloc : runSteps (step L) s₁ [paging .memAllocPageDir] =
      some (s₁.memAllocPageDir L).2 := rfl
  have hchange : runSteps (step L) (s₁.memAllocPageDir L).2
      [paging (.memChangePageDirectory (.user i))] =
        some ((s₁.memAllocPageDir L).2.memChangePageDirectory (L.pageDir i)) := rfl
  have hstocked₃ := (hstocked₁.after halloc).after hchange
  have hprogram := admissible_paging.mp hstocked₃.of_append
  obtain ⟨s₃, hrun₃, h₃, hfollows₃⟩ :=
    exists_lowPages h₂.orderly h₂.cr3 (low_program h₂.orderly h₂.cr3 hprogram) hprogram
  obtain ⟨t, hrun, ht, -⟩ := exists_copied h₂ file h₃
  have hused₃ : s₃.pageDirsUsed i = true := by rw [h₃.used]; exact h₂.inUse
  have hcr₃ := h₃.cr3.trans h₂.cr3
  have hfit := program_fits h₃
  have hstores : ∀ call ∈ file.stores, ∃ d b, call = store d b ∧ d < kernelStart := by
    intro call hcall
    obtain ⟨-, r, hr, -, j, hj, b, rfl⟩ := mem_stores hcall
    refine ⟨_, b, rfl, lt_kernelStart_iff.mpr ?_⟩
    rw [toNat_add_ofNat (by omega)]
    omega
  have hmarks₂ : ∀ n, s.pmm.used n = true →
      (s₁.memAllocPageDir L).2.pmm.used n = true := by
    intro n hn
    rw [Paging.pmm_memAllocPageDir]
    exact h₁.marks n hn
  have hmarks₃ : ∀ n, s₃.pmm.used n = true → t.pmm.used n = true := by
    rw [ht.pmm]
    exact fun _ hn => hn
  refine ⟨t, ?_, ht.orderly, ht.cr3.trans hcr₃, by rw [ht.used]; exact hused₃,
    ht.user i hused₃ (h₃.user i h₂.inUse h₂.user),
    fun n hn => hmarks₃ n (h₃.marks n (hmarks₂ n hn)), fun f hf hfree => ?_⟩
  · rw [runSteps_append, runSteps_paging, hrun₁, Option.bind_some, runSteps_append, halloc,
      Option.bind_some, runSteps_append, hchange, Option.bind_some, runSteps_append,
      runSteps_paging, hrun₃, Option.bind_some, hrun]
  -- A frame that is free in the end was free after each of the parts.
  · have hfree₃ : s₃.pmm.used f.toNat = false := by rwa [← ht.pmm]
    have hfree₁ : s₁.pmm.used f.toNat = false := by
      have hfree₂ := free_of_marks h₃.marks hfree₃
      rwa [hpmm] at hfree₂
    have hload := (hfollows₃ f hf hfree₃).append
      (follows_stores h₃.orderly hcr₃ hused₃ hstores hrun hf hfree₃)
    exact (hfollows₁ f hf (.inl hfree₁)).append
      ((follows_alloc s₁ hf).append ((follows_change _ (.user i)).append hload))

/-- The page that is mapped last for the process. -/
def lastHeapPage : Word := 0x00800000 + BitVec.ofNat 32 (4095 * 4096)

/-- The pages of the thread but the last one. -/
def firstPages : List Word := stackPages ++ pageRange 0x00800000 4095

theorem pageRange_succ (start : Word) (n : Nat) :
    pageRange start (n + 1) = pageRange start n ++ [start + BitVec.ofNat 32 (n * 4096)] := by
  unfold pageRange
  rw [List.range_succ, List.map_append]
  rfl

theorem threadPages_eq : stackPages ++ heapPages = firstPages ++ [lastHeapPage] := by
  unfold firstPages heapPages
  rw [pageRange_succ _ 4095, List.append_assoc]
  rfl

theorem lastHeapPage_lt : lastHeapPage < kernelStart := by decide

theorem threadCalls_split (b : ProcessBlocks) (i : Fin 256) :
    (threadCalls b i).map paging =
      (b.thread.calls.map paging ++ (firstPages.map
        (PagingCall.mapNewFrame · userFlags)).map paging) ++
      ([paging (.mapNewFrame lastHeapPage userFlags)] ++ (b.regs.calls.map paging ++
        (b.kernelStack.calls.map paging ++ [paging (.memChangePageDirectory (.user i))]))) := by
  rw [threadCalls_eq, threadPages_eq]
  simp only [List.map_append, List.map_cons, List.map_nil, List.append_assoc]

/-- The window of the allocator does not move. -/
theorem window_run {calls : List SpaceCall} (hrun : runSteps (step L) s calls = some t) :
    t.pmm.startByte = s.pmm.startByte ∧ t.pmm.endByte = s.pmm.endByte := by
  refine runSteps_of_mem
    (fun t => t.pmm.startByte = s.pmm.startByte ∧ t.pmm.endByte = s.pmm.endByte)
    (fun call _ u v hu hstep => ?_) ⟨rfl, rfl⟩ hrun
  cases call with
  | paging call =>
      refine PagingCall.pmm_step
        (P := fun p => p.startByte = s.pmm.startByte ∧ p.endByte = s.pmm.endByte)
        (fun p addr p' hp halloc => ?_) (fun p addr p' hp hfree => ?_) hu hstep
      · rcases Pmm.allocPageframe_cases halloc with ⟨-, rfl⟩ | ⟨f, -, -, -, -, rfl⟩
        · exact hp
        · exact hp
      · obtain ⟨-, rfl⟩ := Pmm.freePageframe_cases hfree
        unfold Pmm.freed
        split
        · exact hp
        · exact hp
  | store d b =>
      obtain ⟨f, -, hv⟩ := Option.bind_eq_some_iff.mp hstep
      obtain rfl := Option.some.inj hv
      exact hu

theorem clear_of_run {calls : List SpaceCall} (hrun : runSteps (step L) s calls = some t)
    (hmarks : ∀ n, s.pmm.used n = true → t.pmm.used n = true) {n : Nat} (hn : t.pmm.Clear n) :
    s.pmm.Clear n := by
  obtain ⟨hstart, hend⟩ := window_run hrun
  obtain ⟨hlow, hhigh, hlength, hfree⟩ := hn
  exact ⟨by rwa [hstart] at hlow, by rwa [hend] at hhigh, hlength, free_of_marks hmarks hfree⟩

/-- A call of `kmalloc` leaves the pages of the process alone. -/
theorem follows_kmalloc (h : Orderly L s) (k : Kmalloc)
    (hstocked : Admissible (PagingCall.step L) (PagingCall.Stocked L) s k.calls)
    (hi : s.pageDirsUsed i = true) {v : Word} (hlow : v < kernelStart)
    (hwalk : walk s.memory (L.pageDir i) v = some f) (hf : NoDirectory L f) :
    ∃ t, Extends L k.grown s t ∧ Follows L f s (k.calls.map paging) t ∧
      walk t.memory (L.pageDir i) v = some f := by
  have hbeside : ∀ w ∈ k.grown, v >>> 12 ≠ w >>> 12 := fun w hw =>
    page_ne_of_kernel hlow (k.kernel w hw)
  obtain ⟨t, -, ht, hfollows⟩ := exists_kmalloc h k hstocked
  refine ⟨t, ht, hfollows f hf (.inr ⟨i, v, hi, hlow, hwalk, hbeside⟩), ?_⟩
  rwa [ht.walk i hi v hlow hbeside]

/-- The last page of the heap gets a frame that was free and is not written to. -/
theorem exists_threaded (h : Orderly L s) (hcr3 : s.cr3 = L.pageDir i)
    (hi : s.pageDirsUsed i = true) (huser : UserTables L i s)
    (hstocked : Admissible (step L) (Stocked L) s ((threadCalls b i).map paging)) :
    ∃ t f, NoDirectory L f ∧ s.pmm.Clear f.toNat ∧
      Follows L f s ((threadCalls b i).map paging) t ∧
      userWalk t.memory (L.pageDir i) lastHeapPage = some f := by
  rw [threadCalls_split] at hstocked ⊢
  have hbefore := hstocked.of_append
  obtain ⟨s₁, hrun₁, h₁, hfollows₁⟩ :=
    exists_kmalloc h b.thread (admissible_paging.mp hbefore.of_append)
  have hcr₁ := h₁.cr3.trans hcr3
  have hi₁ : s₁.pageDirsUsed i = true := by rwa [h₁.used]
  have hlow : ∀ w ∈ firstPages, w < kernelStart := fun w hw =>
    low_thread w (threadPages_eq ▸ List.mem_append_left _ hw)
  have hstocked₁ := hbefore.after ((runSteps_paging _ _).trans hrun₁)
  obtain ⟨s₂, hrun₂, h₂, hfollows₂⟩ :=
    exists_lowPages h₁.orderly hcr₁ hlow (admissible_paging.mp hstocked₁)
  have hcr₂ := h₂.cr3.trans hcr₁
  have hi₂ : s₂.pageDirsUsed i = true := by rwa [h₂.used]
  have hrun : runSteps (step L) s (b.thread.calls.map paging ++
      (firstPages.map (PagingCall.mapNewFrame · userFlags)).map paging) = some s₂ := by
    rw [runSteps_append, runSteps_paging, hrun₁, Option.bind_some, runSteps_paging, hrun₂]
  have hstocked₂ := hstocked.after hrun
  -- The page itself.
  have hplain := PagingCall.plainFlags_userFlags
  have hordinary := ordinary_low hcr₂ lastHeapPage_lt
  have hsupplied : (PagingCall.mapNewFrame lastHeapPage userFlags).Supplied L s₂ :=
    ⟨⟨hordinary, hplain.frameOf_eq⟩, hplain, hstocked₂.1⟩
  obtain ⟨s₃, D, physAddr, F, hcall, hn⟩ := h₂.orderly.exists_newPage hsupplied
  have hframe := hn.edits.frame
  rw [if_neg (BitVec.not_le.mpr lastHeapPage_lt), hcr₂] at hframe
  obtain rfl : D = .user i := L.frame_injective hframe
  have h₃ := h₂.orderly.step hsupplied hcall
  have hi₃ : s₃.pageDirsUsed i = true := by rwa [hn.mapped.used]
  have hwalk₃ := hn.walk_self hi₂ lastHeapPage_lt hplain
  have hpage := h₃.page_of_walk hi₃ lastHeapPage_lt hwalk₃
  have hf : NoDirectory L (frameOf physAddr) := fun D => ((h₃.page_apart hpage).1 D).symm
  have hlast := follows_mapNewFrame h₂.orderly hordinary hplain.frameOf_eq hcall h₃ hf
    (.inr ⟨_, hpage⟩)
  have hstocked₃ := hstocked₂.after hlast.run
  obtain ⟨s₄, h₄, hfollows₄, hwalk₄⟩ := follows_kmalloc h₃ b.regs
    (admissible_paging.mp hstocked₃.of_append) hi₃ lastHeapPage_lt hwalk₃ hf
  have hi₄ : s₄.pageDirsUsed i = true := by rwa [h₄.used]
  obtain ⟨s₅, h₅, hfollows₅, hwalk₅⟩ := follows_kmalloc h₄.orderly b.kernelStack
    (admissible_paging.mp (hstocked₃.after hfollows₄.run).of_append) hi₄ lastHeapPage_lt hwalk₄ hf
  have hfree₂ := hn.clear.2.2.2
  have hbegin := (hfollows₁ _ hf (.inl (free_of_marks h₂.marks hfree₂))).append
    (hfollows₂ _ hf hfree₂)
  refine ⟨_, frameOf physAddr, hf, clear_of_run hrun
    (fun n hn => h₂.marks n (h₁.marks n hn)) hn.clear,
    hbegin.append (hlast.append (hfollows₄.append (hfollows₅.append
      (follows_change s₅ (.user i))))), ?_⟩
  have huser₃ : UserTables L i s₃ :=
    (h₂.user i hi₁ (h₁.user i hi huser)).newPage hi₂ hn fun _ => by decide
  have huser₅ := h₅.user i hi₄ (h₄.user i hi₃ huser₃)
  exact huser₅.userWalk lastHeapPage_lt h₅.orderly.translating.small hwalk₅

/-! ## Two runs of `createUserProcess` -/

/-- The last page of the heap shows what was in its frame when it was free. -/
theorem exists_refill (h : Orderly L s)
    (hstocked : Admissible (step L) (Stocked L) s (processCalls file b i))
    (hcreate : s.createUserProcessOf L file b = some (i, t)) :
    ∃ f, NoDirectory L f ∧ s.pmm.Clear f.toNat ∧
      userWalk t.memory (L.pageDir i) lastHeapPage = some f ∧
      ∀ page, (s.refill f page).createUserProcessOf L file b = some (i, t.refill f page) := by
  obtain ⟨hb, hdir⟩ := createUserProcessOf_some hcreate
  have hsplit : processCalls file b i = loadCalls file b i ++ (threadCalls b i).map paging :=
    (List.append_assoc _ _ _).symm
  have hkmalloc : ∀ s' : Paging, s'.pageDirsUsed = s.pageDirsUsed → ∀ u,
      s'.kmalloc L b.process = some u → (u.memAllocPageDir L).1 = some i := by
    intro s' hs' u hu
    exact (memAllocPageDir_congr ((pageDirsUsed_kmalloc hu).trans hs')).trans hdir
  rw [hsplit] at hstocked
  obtain ⟨s₁, hrun₁, h₁, hcr₁, hi₁, huser₁, hmarks, hfollows₁⟩ :=
    exists_loaded h hdir hstocked.of_append
  obtain ⟨t', f, hf, hclear, hfollows₂, hwalk⟩ :=
    exists_threaded h₁ hcr₁ hi₁ huser₁ (hstocked.after hrun₁)
  have hfollows := (hfollows₁ f hf hclear.2.2.2).append hfollows₂
  rw [createUserProcessOf_eq_runSteps hb (hkmalloc s rfl), hsplit, hfollows.run] at hcreate
  obtain ⟨-, rfl⟩ := Prod.mk.inj (Option.some.inj hcreate)
  refine ⟨f, hf, clear_of_run hrun₁ hmarks hclear, hwalk, fun page => ?_⟩
  rw [createUserProcessOf_eq_runSteps hb (hkmalloc (s.refill f page) rfl), hsplit,
    hfollows.refill page]
  rfl

end SpaceCall

theorem walk_of_userWalk {m : PhysicalMemory} {dir : Frame} {v : Word}
    (h : userWalk m dir v = some f) : walk m dir v = some f := by
  simp only [userWalk] at h
  split at h
  · cases h
  · split at h
    · exact h
    · cases h

/-- The states differ in nothing but what the free frames hold. -/
def SameButFree (s s' : Paging) : Prop :=
  ∃ m, s' = { s with memory := m } ∧ ∀ f : Frame, ¬ s.pmm.Clear f.toNat → m f = s.memory f

variable (L) in
/-- What the free frames hold does not get into a page that the new process may read. -/
def NoStaleData (file : FatFile) (b : ProcessBlocks) (s : Paging) : Prop :=
  ∀ s', SameButFree s s' → ∀ i t t', s.createUserProcessOf L file b = some (i, t) →
    s'.createUserProcessOf L file b = some (i, t') → t'.pmm = t.pmm →
      ∀ v, (userWalk t.memory (L.pageDir i) v).isSome →
        t'.loadByte (L.pageDir i) v = t.loadByte (L.pageDir i) v

namespace SpaceCall

open PagingCall (Orderly)

variable {s t : Paging} {i : Fin 256} {file : FatFile} {b : ProcessBlocks}

theorem byteAt_not (x v : Word) : byteAt (~~~x) v ≠ byteAt x v := by
  intro h
  have hbit := congrArg (·.getLsbD 0) h
  simp only [getLsbD_byteAt _ _ (show 0 < 8 by decide), BitVec.getLsbD_not] at hbit
  have hplace : 8 * (v.toNat % 4) + 0 < 32 := by omega
  simp only [hplace, decide_true, Bool.true_and] at hbit
  exact absurd hbit (Bool.not_ne_self _)

theorem not_noStaleData (h : Orderly L s)
    (hstocked : Admissible (step L) (Stocked L) s (processCalls file b i))
    (hcreate : s.createUserProcessOf L file b = some (i, t)) : ¬ NoStaleData L file b s := by
  intro hnone
  obtain ⟨s₁, s₂, s₃, hcreated⟩ := created_of_some h hstocked hcreate
  obtain ⟨f, hf, hclear, huser, hrefill⟩ := exists_refill h hstocked hcreate
  have hpage := hcreated.thread.orderly.page_of_walk hcreated.inUse.2.2 lastHeapPage_lt
    (walk_of_userWalk huser)
  have hsame : ∀ page, SameButFree s (s.refill f page) := fun page =>
    ⟨_, rfl, fun f' hf' => Paging.refill_of_ne fun heq => hf' (heq ▸ hclear)⟩
  have hread : ∀ page, (t.refill f page).loadByte (L.pageDir i) lastHeapPage =
      some (byteAt (page (wordIndex lastHeapPage)) lastHeapPage) := by
    intro page
    have hwalk := walk_of_page hcreated.thread.orderly hpage
      (m := (t.refill f page).memory) (fun f' => Paging.refill_of_ne) hcreated.inUse.2.2
      lastHeapPage_lt
    rw [Paging.loadByte, hwalk, walk_of_userWalk huser, Option.map_some, PhysicalMemory.byte,
      Paging.refill_self]
  have hequal := hnone _ (hsame fun i => ~~~t.memory f i) i t _ hcreate (hrefill _) rfl
    lastHeapPage (by rw [huser]; rfl)
  rw [hread, Paging.loadByte, walk_of_userWalk huser] at hequal
  exact byteAt_not _ _ (Option.some.inj hequal)

/-- Other contents of free frames get into the process whenever there are such frames. -/
theorem noStaleData_iff (m : PhysicalMemory) (memHigh : Nat) {physicalAllocstart : Nat}
    (hbehind : PagingCall.Behind L physicalAllocstart) {calls : List SpaceCall}
    (hcalls : Admissible (step L) (Supplied L)
      (Paging.initDirectories L m memHigh physicalAllocstart) calls)
    (hrun : runSteps (step L) (Paging.initDirectories L m memHigh physicalAllocstart) calls =
      some s)
    (hcreate : s.createUserProcessOf L file b = some (i, t))
    (hframes : (∀ n, ¬ s.pmm.Clear n) ∨
      Admissible (step L) (Stocked L) s (processCalls file b i)) :
    NoStaleData L file b s ↔ ∀ n, ¬ s.pmm.Clear n := by
  have horderly := orderly_run m memHigh hbehind hcalls hrun
  constructor
  · intro hnone
    rcases hframes with hempty | hstocked
    · exact hempty
    · exact absurd hnone (not_noStaleData horderly hstocked hcreate)
  · rintro hempty s' ⟨m', rfl, hm'⟩ j u u' hu hu' - v -
    obtain rfl : m' = s.memory := funext fun f => hm' f (hempty f.toNat)
    obtain rfl := (Prod.mk.inj (Option.some.inj (hu.symm.trans hu'))).2
    rfl

theorem noStaleData_exampleBoot :
    NoStaleData PagingCall.exampleLayout (FatFile.ofBytes [0x90, 0xC3]) exampleBlocks exampleBoot ↔
      ∀ n, ¬ exampleBoot.pmm.Clear n := by
  obtain ⟨t, hcreate⟩ := create_exampleBoot [0x90, 0xC3] (by decide)
  have hcalls : Admissible (step PagingCall.exampleLayout) (Supplied PagingCall.exampleLayout)
      exampleBoot [] := trivial
  exact noStaleData_iff (fun _ _ => 0) 0x8000000 PagingCall.behind_exampleLayout hcalls rfl hcreate
    (.inr (stocked_exampleBoot _ (by decide)))

/-- A program of two bytes, loaded right after the start. -/
theorem staleData_exampleBoot :
    ∃ t, exampleBoot.createUserProcessOf PagingCall.exampleLayout
        (FatFile.ofBytes [0x90, 0xC3]) exampleBlocks = some (0, t) ∧
      ¬ NoStaleData PagingCall.exampleLayout (FatFile.ofBytes [0x90, 0xC3]) exampleBlocks
        exampleBoot := by
  obtain ⟨t, hcreate⟩ := create_exampleBoot [0x90, 0xC3] (by decide)
  have horderly := PagingCall.orderly_initDirectories PagingCall.behind_exampleLayout
    (fun _ _ => 0) 0x8000000
  exact ⟨t, hcreate, not_noStaleData horderly (stocked_exampleBoot _ (by decide)) hcreate⟩

end SpaceCall

end Senob.Memory
