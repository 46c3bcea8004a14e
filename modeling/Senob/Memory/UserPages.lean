import Senob.Memory.UserMemory
import Senob.Memory.UserSpace

/-!
# New pages

What mapping a page with a new frame does to the pages that are there: their frames and the
bytes in them stay. The pages that a process gets are pages for user mode.
-/

namespace Senob.Memory

open Senob.Foundation

@[simp] theorem has_user (e : Word) : Has e pageFlagUser ↔ e.getLsbD 2 = true := by
  rw [pageFlagUser_eq, has_twoPow e (by decide)]

/-- The frame that a process reaches at the address, with `PAGE_FLAG_USER` in both entries. -/
def userWalk (m : PhysicalMemory) (dir : Frame) (virtAddr : Word) : Option Frame :=
  let pde := m dir (pdIndex virtAddr)
  if ¬ Has pde pageFlagUser then none
  else if Has pde pageFlag4MB ∨ Has (m (frameOf pde) (ptIndex virtAddr)) pageFlagUser then
    walk m dir virtAddr
  else none

namespace PagingCall

variable {L : Layout} {s t : Paging}

/-- The allocator hands out a frame of its window that was not marked. -/
theorem Stocked.alloc {virtAddr flags : Word} (h : (mapNewFrame virtAddr flags).Stocked L s) :
    ∃ addr, s.pmm.allocPageframe =
        some (addr, s.pmm.take (frameOf (BitVec.ofNat 32 addr)).toNat) ∧
      s.pmm.Clear (frameOf (BitVec.ofNat 32 addr)).toNat := by
  obtain ⟨f, hf, -⟩ := h
  rcases s.pmm.scanBytes_outcome s.pmm.startByte (s.pmm.endByte - s.pmm.startByte) with
    ⟨g, hlow, hhigh, hlength, hclear, -, hresult⟩ | ⟨hfull, -⟩
  · have hbits : bitmapLength = 16384 := rfl
    have hframe : (frameOf (BitVec.ofNat 32 (g * pageFrameSize))).toNat = g := by
      rw [toNat_frameOf, BitVec.toNat_ofNat, pageFrameSize]
      omega
    refine ⟨g * pageFrameSize, ?_, ?_⟩
    · rw [hframe]
      exact hresult
    · rw [hframe]
      exact ⟨hlow, by omega, hlength, hclear⟩
  · obtain ⟨hlow, hhigh, hlength, hclear⟩ := hf
    exact absurd (hclear.symm.trans (hfull f hlow (by omega) hlength)) Bool.false_ne_true

/-- The allocation of a page that is about to be mapped. -/
theorem Orderly.taken (h : Orderly L s) {addr : Nat} {pmm : Pmm}
    (halloc : s.pmm.allocPageframe = some (addr, pmm)) :
    Translating L { s with pmm := pmm } :=
  ⟨⟨h.core.of_pmm (Paging.startByte_allocPageframe halloc), h.translating.coherent.halves⟩,
    (h.translating.tables.keeps_alloc halloc).tables h.translating.tables, h.translating.small⟩

variable (L) in
/-- `s` becomes `t` when the page of `virtAddr` in directory `D` is mapped to the frame of
`physAddr`, which was free, with a table in frame `F`. -/
structure NewPage (s t : Paging) (D : Dir) (virtAddr flags physAddr : Word) (F : Frame) :
    Prop where
  clear : s.pmm.Clear (frameOf physAddr).toNat
  taken : Translating L { s with pmm := s.pmm.take (frameOf physAddr).toNat }
  edits : s.Edits L virtAddr D
  granted : Paging.TableGranted L { s with pmm := s.pmm.take (frameOf physAddr).toNat } virtAddr
  table : ∃ m pmm, Paging.TableStep L s.memory (s.pmm.take (frameOf physAddr).toNat) D
      (pdIndex virtAddr) flags F m pmm ∧
    t = { s with
      memory := Paging.synced L s.pageDirsUsed virtAddr
        (m.write F (ptIndex virtAddr) (physAddr ||| pageFlagPresent ||| flags))
      memNumVpages := s.memNumVpages + 1
      pmm := pmm }
  mapped : Mapped L { s with pmm := s.pmm.take (frameOf physAddr).toNat } t D virtAddr
    (physAddr ||| pageFlagPresent ||| flags)

/-- With frames left, mapping a new page returns. -/
theorem Orderly.exists_newPage (h : Orderly L s) {virtAddr flags : Word}
    (hsupplied : (mapNewFrame virtAddr flags).Supplied L s) :
    ∃ t D physAddr F, PagingCall.step L s (mapNewFrame virtAddr flags) = some t ∧
      NewPage L s t D virtAddr flags physAddr F := by
  obtain ⟨henabled, hplain, hstocked⟩ := hsupplied
  obtain ⟨addr, halloc, hclear⟩ := hstocked.alloc
  have htable := hstocked.tableSupplied h.core halloc
  have htaken := h.taken halloc
  obtain ⟨D, hD⟩ := htaken.coherent.core.edits henabled.1
  obtain ⟨t, hcall⟩ := htable.memMapPage (BitVec.ofNat 32 addr) flags
  have hmapped := htaken.mapped henabled.1 hD hplain htable.granted hcall
  obtain ⟨F, m, pmm, hstep, rfl⟩ :=
    Paging.memMapPage_cases htaken.coherent.core hD henabled.2 hcall
  refine ⟨_, D, BitVec.ofNat 32 addr, F, ?_, hclear, htaken, ⟨hD.frame, hD.owns⟩, htable.granted,
    ⟨m, pmm, hstep, rfl⟩, hmapped⟩
  rw [PagingCall.step, Paging.mapNewFrame, halloc]
  exact hcall

theorem pdIndex_of_low {v : Word} (hlow : v < kernelStart) : (pdIndex v).toNat < 768 :=
  Nat.lt_of_not_le fun hhigh => BitVec.not_le.mpr hlow ((kernelStart_le_iff v).mpr hhigh)

namespace NewPage

variable {D : Dir} {virtAddr flags physAddr : Word} {F : Frame}

theorem cr3_eq (h : NewPage L s t D virtAddr flags physAddr F) : t.cr3 = s.cr3 := by
  obtain ⟨m, pmm, -, rfl⟩ := h.table
  rfl

theorem marked (h : NewPage L s t D virtAddr flags physAddr F) {f : Nat}
    (hf : s.pmm.used f = true ∨ f = (frameOf physAddr).toNat) : t.pmm.used f = true := by
  obtain ⟨m, pmm, hstep, rfl⟩ := h.table
  refine hstep.used ?_
  rw [Pmm.used_take]
  split
  next => rfl
  next hne => exact hf.resolve_right hne

theorem availableFrames_lt (h : NewPage L s t D virtAddr flags physAddr F) :
    t.pmm.availableFrames < s.pmm.availableFrames := by
  obtain ⟨m, pmm, hstep, rfl⟩ := h.table
  refine lt_of_le_of_lt ?_ h.clear.availableFrames_take
  cases hstep with
  | present hpresent => exact le_rfl
  | created habsent ptPaddr pmm halloc => exact Pmm.availableFrames_alloc halloc

/-- The frames of pages keep their contents. -/
theorem content (h : NewPage L s t D virtAddr flags physAddr F) (hs : Orderly L s)
    {slot : (Dir × Index) × Index} {f : Frame} (hf : s.pages L slot = some f) :
    t.memory f = s.memory f := by
  obtain ⟨m, pmm, hstep, rfl⟩ := h.table
  obtain ⟨hdir, htable⟩ := hs.page_apart hf
  have hpage : s.frames L (.inr slot) = some f := hf
  have hused := hs.exclusive.used hpage
  -- The table is one of before, or its frame was free.
  have hne : f ≠ F := by
    cases hstep with
    | present hpresent =>
        have hown : s.tables L (D, pdIndex virtAddr) =
            some (frameOf (s.memory (L.frame D) (pdIndex virtAddr))) :=
          Paging.tables_eq_some.mpr ⟨h.edits.live, h.edits.owns, hpresent.ne_zero, rfl⟩
        exact (htable _ _ hown).symm
    | created habsent ptPaddr pmm halloc =>
        have hgrant := (Paging.tableGranted_iff h.taken.coherent.core
          ⟨h.edits.frame, h.edits.owns⟩).mp h.granted
        obtain ⟨hclear, -⟩ := (hgrant.resolve_left habsent).cases halloc
        rintro rfl
        rw [Pmm.used_take] at hclear
        split at hclear
        next => exact nomatch hclear
        next => exact Bool.false_ne_true (hclear.symm.trans hused)
  have hcontent : m f = s.memory f :=
    hstep.content (s := { s with pmm := s.pmm.take (frameOf physAddr).toNat }) hne (hdir D)
  dsimp only
  rw [Paging.synced_apart _ _ _ hdir]
  funext j
  rw [PhysicalMemory.write_of_ne _ (Or.inl hne), hcontent]

/-- Other pages of a process stay where they are. -/
theorem walk_other (h : NewPage L s t D virtAddr flags physAddr F) {i : Fin 256}
    (hi : s.pageDirsUsed i = true) {v : Word} (hlow : v < kernelStart)
    (hne : D = .user i → v >>> 12 ≠ virtAddr >>> 12) :
    walk t.memory (L.pageDir i) v = walk s.memory (L.pageDir i) v := by
  have hholder : holder (.user i) (pdIndex v) = .user i := if_pos (pdIndex_of_low hlow)
  by_cases hslot : D = .user i ∧ pdIndex v = pdIndex virtAddr
  · obtain ⟨rfl, hindex⟩ := hslot
    have hpage : ptIndex v ≠ ptIndex virtAddr := fun heq =>
      hne rfl (shiftRight_eq_iff.mpr ⟨hindex, heq⟩)
    have hwalk :=
      h.mapped.walk_of_eq (show Paging.InUse _ (.user i) from hi) hindex (hindex ▸ hholder)
    rwa [if_neg hpage] at hwalk
  · refine h.mapped.walk_of_ne (show Paging.InUse _ (.user i) from hi) (fun heq => hslot ?_)
      fun hwindow => ?_
    · obtain ⟨hD, hindex⟩ := Prod.mk.inj heq
      exact ⟨hD.symm.trans hholder, hindex⟩
    · exact absurd (hwindow ▸ pdIndex_of_low hlow) (by decide)

theorem walk_self {i : Fin 256} (h : NewPage L s t (.user i) virtAddr flags physAddr F)
    (hi : s.pageDirsUsed i = true) (hlow : virtAddr < kernelStart) (hflags : PlainFlags flags) :
    walk t.memory (L.pageDir i) virtAddr = some (frameOf physAddr) := by
  have hpresent : Has (physAddr ||| pageFlagPresent ||| flags) pageFlagPresent := by
    have hbit : pageFlagPresent.getLsbD 0 = true := by decide
    rw [has_present, BitVec.getLsbD_or, BitVec.getLsbD_or, hbit]
    simp
  have hframe : frameOf (physAddr ||| pageFlagPresent ||| flags) = frameOf physAddr := by
    simp [frameOf_or, hflags.frameOf_eq]
  exact (h.mapped.mapsPage hpresent hframe (show Paging.InUse _ (.user i) from hi)
    (if_pos (pdIndex_of_low hlow))).mapped

end NewPage

/-! ## Pages for user mode -/

variable (L) in
/-- All that directory `i` maps below `KERNEL_START` is for user mode. -/
def UserTables (i : Fin 256) (s : Paging) : Prop :=
  ∀ k : Index, k.toNat < 768 → Has (s.memory (L.pageDir i) k) pageFlagPresent →
    Has (s.memory (L.pageDir i) k) pageFlagUser ∧
      ∀ j, Has (s.memory (frameOf (s.memory (L.pageDir i) k)) j) pageFlagPresent →
        Has (s.memory (frameOf (s.memory (L.pageDir i) k)) j) pageFlagUser

namespace UserTables

variable {i : Fin 256}

theorem userWalk (h : UserTables L i s) {v : Word} (hlow : v < kernelStart) {f : Frame}
    (hsmall : Small L s.memory) (hwalk : walk s.memory (L.pageDir i) v = some f) :
    userWalk s.memory (L.pageDir i) v = some f := by
  have hindex := pdIndex_of_low hlow
  have hpresent : Has (s.memory (L.pageDir i) (pdIndex v)) pageFlagPresent := by
    by_contra habsent
    exact nomatch (walk_of_absent rfl habsent).symm.trans hwalk
  have hpage := hwalk
  rw [walk_of_table rfl hpresent (hsmall (.user i) _ hindex) rfl,
    Option.ite_none_right_eq_some] at hpage
  obtain ⟨hentry, hpages⟩ := h _ hindex hpresent
  rw [Memory.userWalk, if_neg (not_not.mpr hentry), if_pos (Or.inr (hpages _ hpage.1))]
  exact hwalk

/-- A table that is made for user mode is one for user mode. -/
theorem has_user_entry {D : Dir} {virtAddr flags physAddr : Word} {F : Frame}
    (hn : NewPage L s t D virtAddr flags physAddr F) (huser : Has flags pageFlagUser)
    (hbefore : Has (s.memory (L.frame D) (pdIndex virtAddr)) pageFlagPresent →
      Has (s.memory (L.frame D) (pdIndex virtAddr)) pageFlagUser) :
    Has (t.memory (L.frame D) (pdIndex virtAddr)) pageFlagUser := by
  obtain ⟨m, pmm, hstep, rfl⟩ := hn.table
  have hcore := hn.taken.coherent.core
  have hF := hstep.apart hcore hn.edits.owns
  dsimp only
  rw [Paging.synced_owned _ _ _ hn.edits.owns, PhysicalMemory.write_of_ne _ (Or.inl (hF D).symm)]
  cases hstep with
  | present hpresent => exact hbefore hpresent
  | created habsent ptPaddr pmm halloc =>
      rw [PhysicalMemory.zero_of_ne _ (hF D).symm, PhysicalMemory.write_self]
      simp only [has_user, Paging.tableEntry, BitVec.getLsbD_or] at huser ⊢
      rw [huser, Bool.or_true]

theorem newPage (h : UserTables L i s) (hi : s.pageDirsUsed i = true) {D : Dir}
    {virtAddr flags physAddr : Word} {F : Frame}
    (hn : NewPage L s t D virtAddr flags physAddr F)
    (huser : D = .user i → Has flags pageFlagUser) : UserTables L i t := by
  intro k hk hpresent
  by_cases hslot : D = .user i ∧ k = pdIndex virtAddr
  · obtain ⟨rfl, rfl⟩ := hslot
    refine ⟨has_user_entry hn (huser rfl) fun hbefore => (h _ hk hbefore).1, fun j hj => ?_⟩
    by_cases hpage : j = ptIndex virtAddr
    · subst hpage
      have hentry := hn.mapped.slot
      dsimp only [Layout.frame] at hentry
      rw [hentry]
      have hflag := huser rfl
      simp only [has_user, BitVec.getLsbD_or] at hflag ⊢
      rw [hflag, Bool.or_true]
    · rcases hn.mapped.table with ⟨hsame, hpages⟩ | ⟨-, hpages⟩
      · have hold := hpages j hpage
        dsimp only [Layout.frame] at hold hsame
        rw [hold] at hj ⊢
        rw [hsame.frameOf_eq] at hj ⊢
        exact (h _ hk (hsame.has_present_iff.mp hpresent)).2 j hj
      · have hzero := hpages j hpage
        dsimp only [Layout.frame] at hzero
        rw [hzero] at hj
        exact absurd hj (by decide)
  · have hne : ((Dir.user i, k) : Dir × Index) ≠ (D, pdIndex virtAddr) := fun heq =>
      hslot ⟨(Prod.mk.inj heq).1.symm, (Prod.mk.inj heq).2⟩
    have hentry := hn.mapped.entries (.user i) k hk hne
    dsimp only [Layout.frame] at hentry
    rw [hentry] at hpresent ⊢
    obtain ⟨hflag, hpages⟩ := h k hk hpresent
    have hcontent := hn.mapped.tables (.user i) k _
      (Paging.tables_eq_some.mpr ⟨Or.inl hi, hk, hpresent.ne_zero, rfl⟩) hne
    dsimp only [Layout.frame] at hcontent
    rw [hcontent]
    exact ⟨hflag, hpages⟩

end UserTables

/-! ## Many new pages -/

variable (L) in
/-- `t` is `s` after the given pages have been mapped. Below `KERNEL_START` all other pages are
where they were, with their contents. -/
structure Extends (pages : List Word) (s t : Paging) : Prop where
  orderly : Orderly L t
  cr3 : t.cr3 = s.cr3
  used : t.pageDirsUsed = s.pageDirsUsed
  marks : ∀ f, s.pmm.used f = true → t.pmm.used f = true
  taken : pages.length + t.pmm.availableFrames ≤ s.pmm.availableFrames
  user : ∀ i, s.pageDirsUsed i = true → UserTables L i s → UserTables L i t
  walk : ∀ i, s.pageDirsUsed i = true → ∀ v, v < kernelStart →
    (∀ w ∈ pages, v >>> 12 ≠ w >>> 12) →
      walk t.memory (L.pageDir i) v = walk s.memory (L.pageDir i) v
  content : ∀ i, s.pageDirsUsed i = true → ∀ v, v < kernelStart →
    (∀ w ∈ pages, v >>> 12 ≠ w >>> 12) → ∀ f, Memory.walk s.memory (L.pageDir i) v = some f →
      t.memory f = s.memory f
  mapped : ∀ i, s.pageDirsUsed i = true → s.cr3 = L.pageDir i → ∀ w ∈ pages, w < kernelStart →
    ∃ f, Memory.walk t.memory (L.pageDir i) w = some f

theorem walk_page {m : PhysicalMemory} {dir : Frame} {v w : Word} (h : v >>> 12 = w >>> 12) :
    walk m dir v = walk m dir w := by
  obtain ⟨hdir, htable⟩ := shiftRight_eq_iff.mp h
  rw [walk, walk, hdir, htable]

namespace Extends

theorem refl (h : Orderly L s) : Extends L [] s s :=
  ⟨h, rfl, rfl, fun _ hf => hf, (Nat.zero_add _).le, fun _ _ hu => hu, fun _ _ _ _ _ => rfl,
    fun _ _ _ _ _ _ _ => rfl,
    fun _ _ _ _ hw => absurd hw List.not_mem_nil⟩

theorem trans {u : Paging} {pages pages' : List Word} (h : Extends L pages s t)
    (h' : Extends L pages' t u) : Extends L (pages ++ pages') s u := by
  have hused : ∀ {i}, s.pageDirsUsed i = true → t.pageDirsUsed i = true := fun hi => by
    rwa [h.used]
  refine ⟨h'.orderly, h'.cr3.trans h.cr3, h'.used.trans h.used,
    fun f hf => h'.marks f (h.marks f hf), ?_,
    fun i hi hu => h'.user i (hused hi) (h.user i hi hu), fun i hi v hv hpages => ?_,
    fun i hi v hv hpages f hf => ?_, fun i hi hcr3 w hw hlow => ?_⟩
  · have hfirst := h.taken
    have hsecond := h'.taken
    rw [List.length_append]
    omega
  · rw [List.forall_mem_append] at hpages
    rw [h'.walk i (hused hi) v hv hpages.2, h.walk i hi v hv hpages.1]
  · rw [List.forall_mem_append] at hpages
    have hf' := (h.walk i hi v hv hpages.1).trans hf
    rw [h'.content i (hused hi) v hv hpages.2 f hf', h.content i hi v hv hpages.1 f hf]
  · by_cases hagain : ∃ w' ∈ pages', w >>> 12 = w' >>> 12
    · obtain ⟨w', hw', hpage⟩ := hagain
      have hlow' : w' < kernelStart := by
        rw [← BitVec.toNat_inj, BitVec.toNat_ushiftRight, BitVec.toNat_ushiftRight,
          Nat.shiftRight_eq_div_pow, Nat.shiftRight_eq_div_pow] at hpage
        rw [BitVec.lt_def, show kernelStart.toNat = 0xC0000000 from rfl] at hlow ⊢
        omega
      obtain ⟨f, hf⟩ := h'.mapped i (hused hi) (h.cr3.trans hcr3) w' hw' hlow'
      exact ⟨f, (walk_page hpage).trans hf⟩
    · have hfirst : w ∈ pages := (List.mem_append.mp hw).resolve_right fun hw' =>
        hagain ⟨w, hw', rfl⟩
      obtain ⟨f, hf⟩ := h.mapped i hi hcr3 w hfirst hlow
      exact ⟨f, (h'.walk i (hused hi) w hlow fun w' hw' heq => hagain ⟨w', hw', heq⟩).trans hf⟩

end Extends

/-- One new page. -/
theorem Orderly.extends_newPage (h : Orderly L s) {w flags : Word}
    (hsupplied : (mapNewFrame w flags).Supplied L s)
    (huser : w < kernelStart → Has flags pageFlagUser) :
    ∃ t, PagingCall.step L s (mapNewFrame w flags) = some t ∧ Extends L [w] s t := by
  obtain ⟨t, D, physAddr, F, hcall, hn⟩ := h.exists_newPage hsupplied
  have hother : ∀ {v : Word}, (∀ w' ∈ [w], v >>> 12 ≠ w' >>> 12) → v >>> 12 ≠ w >>> 12 := fun hv =>
    hv w (List.mem_singleton_self w)
  refine ⟨t, hcall, h.step hsupplied hcall, hn.cr3_eq, hn.mapped.used,
    fun f hf => hn.marked (Or.inl hf), ?_, fun i hi hu => hu.newPage hi hn fun hD => huser ?_,
    fun i hi v hv hne => ?_,
    fun i hi v hv hne f hf => ?_, fun i hi hcr3 w' hw' hlow => ?_⟩
  · rw [List.length_singleton, Nat.add_comm]
    exact hn.availableFrames_lt
  · by_contra hhigh
    have hframe := hn.edits.frame
    rw [if_pos (BitVec.not_lt.mp hhigh), hD] at hframe
    exact L.pageDir_ne_kernelDirectory i hframe
  · exact hn.walk_other hi hv fun _ => hother hne
  · exact hn.content h (h.page_of_walk hi hv hf)
  · obtain rfl := List.mem_singleton.mp hw'
    have hframe := hn.edits.frame
    rw [if_neg (BitVec.not_le.mpr hlow), hcr3] at hframe
    obtain rfl : D = .user i := L.frame_injective hframe
    exact ⟨_, hn.walk_self hi hlow hsupplied.2.1⟩

/-- A loop that maps new pages returns as long as there are frames. -/
theorem Orderly.extends_mapNewFrames {pages : List Word} {flags : Word} (h : Orderly L s)
    (hflags : PlainFlags flags)
    (hpages : ∀ w ∈ pages, s.Ordinary L w ∧ (w < kernelStart → Has flags pageFlagUser))
    (hstocked : Admissible (PagingCall.step L) (Stocked L) s (pages.map (mapNewFrame · flags))) :
    ∃ t, runSteps (PagingCall.step L) s (pages.map (mapNewFrame · flags)) = some t ∧
      Extends L pages s t := by
  induction pages generalizing s with
  | nil => exact ⟨s, rfl, .refl h⟩
  | cons w rest ih =>
      rw [List.forall_mem_cons] at hpages
      obtain ⟨⟨hordinary, huser⟩, hrest⟩ := hpages
      obtain ⟨t, hcall, ht⟩ := h.extends_newPage
        ⟨⟨hordinary, hflags.frameOf_eq⟩, hflags, hstocked.1⟩ huser
      obtain ⟨u, hrun, hu⟩ := ih ht.orderly
        (fun w' hw' => ⟨by rw [Paging.Ordinary, ht.cr3]; exact (hrest w' hw').1,
          (hrest w' hw').2⟩) (hstocked.2 t hcall)
      refine ⟨u, ?_, ht.trans hu⟩
      rw [List.map_cons, runSteps_cons, hcall]
      exact hrun

end PagingCall

end Senob.Memory
