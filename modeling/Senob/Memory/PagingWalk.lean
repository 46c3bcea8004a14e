import Senob.Memory.PagingOwners

/-!
# The translation of addresses

What `mem_map_page` does to the two-level walk of the processor, in the directory that is
current, in the others, and at every page.
-/

namespace Senob.Memory

open Senob.Foundation

/-- The frame to which the page of `virtAddr` is mapped by the directory `dir`. -/
def walk (m : PhysicalMemory) (dir : Frame) (virtAddr : Word) : Option Frame :=
  let pde := m dir (pdIndex virtAddr)
  if ¬ Has pde pageFlagPresent then none
  else if Has pde pageFlag4MB then
    some (frameOf pde &&& ~~~0x3FF ||| (ptIndex virtAddr).setWidth 20)
  else
    let pte := m (frameOf pde) (ptIndex virtAddr)
    if Has pte pageFlagPresent then some (frameOf pte) else none

section Walk

variable {m m' : PhysicalMemory} {dir dir' : Frame} {virtAddr : Word}

/-- The walk reads one entry of the directory and, for a table, one of the table. -/
theorem walk_congr (hentry : Alike (m' dir' (pdIndex virtAddr)) (m dir (pdIndex virtAddr)))
    (hpage : Has (m dir (pdIndex virtAddr)) pageFlagPresent →
      ¬ Has (m dir (pdIndex virtAddr)) pageFlag4MB →
      Alike (m' (frameOf (m dir (pdIndex virtAddr))) (ptIndex virtAddr))
        (m (frameOf (m dir (pdIndex virtAddr))) (ptIndex virtAddr))) :
    walk m' dir' virtAddr = walk m dir virtAddr := by
  simp only [walk, hentry.has_present_iff, hentry.has_4MB_iff, hentry.frameOf_eq]
  by_cases hpresent : Has (m dir (pdIndex virtAddr)) pageFlagPresent
  swap
  · rw [if_pos hpresent, if_pos hpresent]
  rw [if_neg (not_not.mpr hpresent), if_neg (not_not.mpr hpresent)]
  by_cases hlarge : Has (m dir (pdIndex virtAddr)) pageFlag4MB
  · rw [if_pos hlarge, if_pos hlarge]
  · have halike := hpage hpresent hlarge
    simp only [if_neg hlarge, halike.has_present_iff, halike.frameOf_eq]

theorem walk_of_absent {k : Index} (hk : pdIndex virtAddr = k)
    (hpresent : ¬ Has (m dir k) pageFlagPresent) : walk m dir virtAddr = none := by
  subst hk
  exact if_pos hpresent

/-- The walk through a table. -/
theorem walk_of_table {k : Index} (hk : pdIndex virtAddr = k)
    (hpresent : Has (m dir k) pageFlagPresent) (hlarge : ¬ Has (m dir k) pageFlag4MB) {F : Frame}
    (hF : frameOf (m dir k) = F) :
    walk m dir virtAddr =
      if Has (m F (ptIndex virtAddr)) pageFlagPresent then some (frameOf (m F (ptIndex virtAddr)))
      else none := by
  subst hk hF
  unfold walk
  rw [if_neg (not_not.mpr hpresent), if_neg hlarge]

/-- In the window the directory is its own table. -/
theorem walk_window (hself : m dir 1023 = selfEntry dir) (hk : pdIndex virtAddr = 1023) :
    walk m dir virtAddr =
      if Has (m dir (ptIndex virtAddr)) pageFlagPresent then
        some (frameOf (m dir (ptIndex virtAddr)))
      else none := by
  have hbits : pageFlagPresent[0] = true ∧ pageFlagPresent[7] = false ∧
      pageFlagWrite[7] = false := by decide
  apply walk_of_table hk
  · rw [hself]
    simp [selfEntry, hbits]
  · rw [hself]
    simp [selfEntry, frameAddress, hbits]
  · rw [hself, frameOf_selfEntry]

/-- Two addresses are in one page if the walk reads the same entries for them. -/
theorem shiftRight_eq_iff {virtAddr' : Word} :
    virtAddr >>> 12 = virtAddr' >>> 12 ↔
      pdIndex virtAddr = pdIndex virtAddr' ∧ ptIndex virtAddr = ptIndex virtAddr' := by
  simp only [← BitVec.toNat_inj, toNat_pdIndex, toNat_ptIndex, BitVec.toNat_ushiftRight,
    Nat.shiftRight_eq_div_pow]
  omega

end Walk

/-- `REC_PAGETABLE(pd_index)`, the page of the window that shows the table of `virtAddr`. -/
def recPageTableAddr (virtAddr : Word) : Word := (0xFFC00000 : Word) + (virtAddr >>> 22 <<< 12)

theorem recPageTableAddr_eq (virtAddr : Word) :
    pdIndex (recPageTableAddr virtAddr) = 1023 ∧
      ptIndex (recPageTableAddr virtAddr) = pdIndex virtAddr := by
  have hlt := virtAddr.isLt
  have haddr : (recPageTableAddr virtAddr).toNat =
      0xFFC00000 + virtAddr.toNat / 2 ^ 22 * 2 ^ 12 := by
    rw [recPageTableAddr, BitVec.toNat_add, BitVec.toNat_shiftLeft, BitVec.toNat_ushiftRight,
      Nat.shiftRight_eq_div_pow, Nat.shiftLeft_eq,
      show (0xFFC00000 : Word).toNat = 0xFFC00000 from rfl]
    omega
  rw [← BitVec.toNat_inj, ← BitVec.toNat_inj, toNat_pdIndex, toNat_ptIndex, toNat_pdIndex, haddr,
    show (1023 : Index).toNat = 1023 from rfl]
  omega

namespace PagingCall

variable {L : Layout} {s t : Paging}

/-! ## One call -/

/-- The entries that directories have for themselves are no pages of 4 MiB. -/
def Small (L : Layout) (m : PhysicalMemory) : Prop :=
  ∀ D k, Paging.Owns D k → ¬ Has (m (L.frame D) k) pageFlag4MB

/-- The page of `virtAddr` leads to `physAddr` in the directory `D`, and all others are as
before. The one exception is the page of the window where the table itself is seen, and this one
too is as before unless the table is made: then it shows the new table. -/
structure MapsPage (L : Layout) (s t : Paging) (D : Dir) (virtAddr physAddr : Word) : Prop where
  mapped : walk t.memory (L.frame D) virtAddr = some (frameOf physAddr)
  others : ∀ w : Word, w >>> 12 ≠ virtAddr >>> 12 →
    w >>> 12 ≠ recPageTableAddr virtAddr >>> 12 →
    walk t.memory (L.frame D) w = walk s.memory (L.frame D) w
  window : ∀ w : Word, w >>> 12 = recPageTableAddr virtAddr >>> 12 →
    walk t.memory (L.frame D) w =
      if Has (s.memory (L.frame D) (pdIndex virtAddr)) pageFlagPresent then
        walk s.memory (L.frame D) w
      else some (frameOf (t.memory (L.frame D) (pdIndex virtAddr)))

/-- What `mem_map_page` leaves behind, where `D` is the directory that it edits. -/
structure Mapped (L : Layout) (s t : Paging) (D : Dir) (virtAddr entry : Word) : Prop where
  before : Coherent L s
  after : Coherent L t
  used : t.pageDirsUsed = s.pageDirsUsed
  /-- The other entries are as before, with the tables that they lead to. -/
  entries : ∀ H i, Paging.Owns H i → (H, i) ≠ (D, pdIndex virtAddr) →
    t.memory (L.frame H) i = s.memory (L.frame H) i
  tables : ∀ H i F, s.tables L (H, i) = some F → (H, i) ≠ (D, pdIndex virtAddr) →
    t.memory F = s.memory F
  owns : Paging.Owns D (pdIndex virtAddr)
  present : Has (t.memory (L.frame D) (pdIndex virtAddr)) pageFlagPresent
  small : ¬ Has (t.memory (L.frame D) (pdIndex virtAddr)) pageFlag4MB
  slot : t.memory (frameOf (t.memory (L.frame D) (pdIndex virtAddr))) (ptIndex virtAddr) = entry
  /-- The table was there with its other pages, or is new and has none. -/
  table :
    Alike (t.memory (L.frame D) (pdIndex virtAddr)) (s.memory (L.frame D) (pdIndex virtAddr)) ∧
      (∀ j, j ≠ ptIndex virtAddr →
        t.memory (frameOf (t.memory (L.frame D) (pdIndex virtAddr))) j =
          s.memory (frameOf (t.memory (L.frame D) (pdIndex virtAddr))) j) ∨
    ¬ Has (s.memory (L.frame D) (pdIndex virtAddr)) pageFlagPresent ∧
      ∀ j, j ≠ ptIndex virtAddr →
        t.memory (frameOf (t.memory (L.frame D) (pdIndex virtAddr))) j = 0

namespace Mapped

variable {D : Dir} {virtAddr entry : Word}

theorem inUse (h : Mapped L s t D virtAddr entry) {D' : Dir} (hD' : s.InUse D') : t.InUse D' := by
  cases D' with
  | kernel => trivial
  | user i =>
      have hi : s.pageDirsUsed i = true := hD'
      rwa [← h.used] at hi

/-- An entry that does not show the edited one is as before. -/
theorem alike (h : Mapped L s t D virtAddr entry) {D' : Dir} (hD' : s.InUse D') {i : Index}
    (hne : (holder D' i, i) ≠ (D, pdIndex virtAddr)) :
    Alike (t.memory (L.frame D') i) (s.memory (L.frame D') i) := by
  by_cases hi : i = 1023
  · have hbefore := h.before.core.sound.self D' (Or.inl hD')
    have hafter := h.after.core.sound.self D' (Or.inl (h.inUse hD'))
    rw [hi, hbefore, hafter]
    exact .refl _
  have hholder : t.memory (L.frame (holder D' i)) i = s.memory (L.frame (holder D' i)) i := by
    by_cases hboot : holder D' i = .kernel ∧ IsBoot i
    · rw [hboot.1]
      exact (h.after.core.sound.boot i hboot.2).trans (h.before.core.sound.boot i hboot.2).symm
    · exact h.entries _ i (owns_holder hi hboot) hne
  have hafter := h.after.alike_holder (h.inUse hD') hi
  rw [hholder] at hafter
  exact hafter.trans (h.before.alike_holder hD' hi).symm

/-- The walk of a page that neither lies in the edited table nor shows it is as before. -/
theorem walk_of_ne (h : Mapped L s t D virtAddr entry) {D' : Dir} (hD' : s.InUse D') {w : Word}
    (hentry : (holder D' (pdIndex w), pdIndex w) ≠ (D, pdIndex virtAddr))
    (hwindow : pdIndex w = 1023 →
      (holder D' (ptIndex w), ptIndex w) ≠ (D, pdIndex virtAddr)) :
    walk t.memory (L.frame D') w = walk s.memory (L.frame D') w := by
  refine walk_congr (h.alike hD' hentry) fun hpresent hlarge => ?_
  by_cases hw : pdIndex w = 1023
  · -- In the window the directory is its own table.
    have hself := h.before.core.sound.self D' (Or.inl hD')
    rw [hw, hself, frameOf_selfEntry]
    exact h.alike hD' (hwindow hw)
  · have htable := h.before.table_of_entry hD' hw hpresent hlarge
    rw [h.tables _ _ _ htable hentry]
    exact .refl _

/-- The walk of a page that lies in the edited table. -/
theorem walk_of_eq (h : Mapped L s t D virtAddr entry) {D' : Dir} (hD' : s.InUse D') {w : Word}
    (hw : pdIndex w = pdIndex virtAddr) (hholder : holder D' (pdIndex virtAddr) = D) :
    walk t.memory (L.frame D') w =
      if ptIndex w = ptIndex virtAddr then
        if Has entry pageFlagPresent then some (frameOf entry) else none
      else walk s.memory (L.frame D') w := by
  have hwindow := h.owns.ne_window
  have hafter := h.after.alike_holder (h.inUse hD') hwindow
  have hbefore := h.before.alike_holder hD' hwindow
  rw [hholder] at hafter hbefore
  rw [walk_of_table hw (hafter.has_present_iff.mpr h.present) (mt hafter.has_4MB_iff.mp h.small)
    hafter.frameOf_eq]
  by_cases hslot : ptIndex w = ptIndex virtAddr
  · rw [if_pos hslot, hslot, h.slot]
  rw [if_neg hslot]
  rcases h.table with ⟨hsame, hpages⟩ | ⟨habsent, hpages⟩
  · have hold := hsame.trans hbefore.symm
    rw [hpages _ hslot]
    exact (walk_of_table hw (hold.has_present_iff.mp h.present) (mt hold.has_4MB_iff.mpr h.small)
      hold.frameOf_eq.symm).symm
  · rw [walk_of_absent hw (mt hbefore.has_present_iff.mp habsent), hpages _ hslot]
    exact if_neg (by decide)

/-- The page of the window where the edited table is seen. -/
theorem walk_recPageTable (h : Mapped L s t D virtAddr entry) {D' : Dir} (hD' : s.InUse D')
    (hholder : holder D' (pdIndex virtAddr) = D) {w : Word}
    (hw : w >>> 12 = recPageTableAddr virtAddr >>> 12) :
    walk t.memory (L.frame D') w =
      if Has (s.memory (L.frame D') (pdIndex virtAddr)) pageFlagPresent then
        walk s.memory (L.frame D') w
      else some (frameOf (t.memory (L.frame D') (pdIndex virtAddr))) := by
  obtain ⟨hdir, htable⟩ := shiftRight_eq_iff.mp hw
  rw [(recPageTableAddr_eq virtAddr).1] at hdir
  rw [(recPageTableAddr_eq virtAddr).2] at htable
  have hafter := h.after.alike_holder (h.inUse hD') h.owns.ne_window
  have hbefore := h.before.alike_holder hD' h.owns.ne_window
  rw [hholder] at hafter hbefore
  have hpresent := hafter.has_present_iff.mpr h.present
  rw [walk_window (h.after.core.sound.self D' (Or.inl (h.inUse hD'))) hdir,
    walk_window (h.before.core.sound.self D' (Or.inl hD')) hdir, htable, if_pos hpresent]
  rcases h.table with ⟨hsame, -⟩ | ⟨habsent, -⟩
  · have hold := hafter.trans (hsame.trans hbefore.symm)
    rw [if_pos (hold.has_present_iff.mp hpresent), if_pos (hold.has_present_iff.mp hpresent),
      hold.frameOf_eq]
  · rw [if_neg (mt hbefore.has_present_iff.mp habsent)]

/-- A directory that shows the edited entry maps the page. -/
theorem mapsPage (h : Mapped L s t D virtAddr entry) (hpresent : Has entry pageFlagPresent)
    {physAddr : Word} (hframe : frameOf entry = frameOf physAddr) {D' : Dir}
    (hD' : s.InUse D') (hholder : holder D' (pdIndex virtAddr) = D) :
    MapsPage L s t D' virtAddr physAddr := by
  refine ⟨?_, fun w hpage hwindow => ?_, fun w => h.walk_recPageTable hD' hholder⟩
  · rw [h.walk_of_eq hD' rfl hholder, if_pos rfl, if_pos hpresent, hframe]
  · by_cases hw : pdIndex w = pdIndex virtAddr
    · have hslot : ptIndex w ≠ ptIndex virtAddr := fun hslot =>
        hpage (shiftRight_eq_iff.mpr ⟨hw, hslot⟩)
      rw [h.walk_of_eq hD' hw hholder, if_neg hslot]
    · refine h.walk_of_ne hD' (fun heq => hw (Prod.mk.inj heq).2) fun hlast heq => hwindow ?_
      obtain ⟨hdir, htable⟩ := recPageTableAddr_eq virtAddr
      exact shiftRight_eq_iff.mpr ⟨hlast.trans hdir.symm, (Prod.mk.inj heq).2.trans htable.symm⟩

/-- A page of the lower half is mapped in one directory alone. -/
theorem walk_other (h : Mapped L s t D virtAddr entry) (hlow : (pdIndex virtAddr).toNat < 768)
    {D' : Dir} (hD' : s.InUse D') (hne : D' ≠ D) (w : Word) :
    walk t.memory (L.frame D') w = walk s.memory (L.frame D') w := by
  have hholder : ∀ i, (holder D' i, i) ≠ (D, pdIndex virtAddr) := by
    intro i heq
    obtain ⟨hD, rfl⟩ := Prod.mk.inj heq
    rw [holder, if_pos hlow] at hD
    exact hne hD
  exact h.walk_of_ne hD' (hholder _) fun _ => hholder _

end Mapped

/-! ## Plain flags -/

/-- The flags are within `PAGE_FLAG_PRESENT`, `PAGE_FLAG_WRITE` and `PAGE_FLAG_USER`. -/
def PlainFlags (flags : Word) : Prop :=
  flags &&& ~~~(pageFlagPresent ||| pageFlagWrite ||| pageFlagUser) = 0

instance (flags : Word) : Decidable (PlainFlags flags) := inferInstanceAs (Decidable (_ = _))

theorem PlainFlags.getLsbD {flags : Word} (h : PlainFlags flags) {i : Nat} (hi : 3 ≤ i) :
    flags.getLsbD i = false := by
  by_cases hlt : i < 32
  swap
  · exact BitVec.getLsbD_of_ge _ _ (Nat.le_of_not_lt hlt)
  have hbit := congrArg (fun x : Word => x.getLsbD i) h
  have hmask : (pageFlagPresent ||| pageFlagWrite ||| pageFlagUser).getLsbD i = false := by
    rw [show pageFlagPresent ||| pageFlagWrite ||| pageFlagUser = BitVec.setWidth 32 (7#3) from rfl,
      BitVec.getLsbD_setWidth, BitVec.getLsbD_of_ge _ _ hi, Bool.and_false]
  simp only [BitVec.getLsbD_and, BitVec.getLsbD_not, hmask] at hbit
  simpa [hlt] using hbit

theorem PlainFlags.frameOf_eq {flags : Word} (h : PlainFlags flags) : frameOf flags = 0 := by
  apply BitVec.eq_of_getLsbD_eq
  intro i hi
  rw [getLsbD_frameOf _ hi, h.getLsbD (by omega)]
  exact BitVec.getLsbD_zero.symm

/-- Plain flags are passed. -/
def Plain : PagingCall → Prop
  | memMapPage _ _ flags => PlainFlags flags
  | mapNewFrame _ flags => PlainFlags flags
  | _ => True

instance : DecidablePred Plain
  | memMapPage _ _ flags => inferInstanceAs (Decidable (PlainFlags flags))
  | mapNewFrame _ flags => inferInstanceAs (Decidable (PlainFlags flags))
  | memUnmapPage _ => isTrue trivial
  | memAllocPageDir => isTrue trivial
  | memFreePageDir _ => isTrue trivial
  | memChangePageDirectory _ => isTrue trivial

/-- A table that is made is no page of 4 MiB. -/
theorem not_has_4MB_tableEntry {ptPaddr : Nat} (haligned : ptPaddr % 4096 = 0) {flags : Word}
    (hflags : PlainFlags flags) : ¬ Has (Paging.tableEntry ptPaddr flags) pageFlag4MB := by
  have hbits : pageFlagPresent.getLsbD 7 = false ∧ pageFlagWrite.getLsbD 7 = false ∧
      pageFlagOwner.getLsbD 7 = false := by decide
  rw [has_4MB, Paging.tableEntry, BitVec.getLsbD_or, BitVec.getLsbD_or, BitVec.getLsbD_or,
    BitVec.getLsbD_or, Paging.getLsbD_of_aligned haligned (by decide), hbits.1, hbits.2.1,
    hbits.2.2, hflags.getLsbD (by decide)]
  decide

theorem Small.tableStep (h : Small L s.memory) (hcore : s.Core L) {D : Dir} {k : Index}
    {flags : Word} {F : Frame} {m : PhysicalMemory} {pmm : Pmm}
    (hstep : Paging.TableStep L s.memory s.pmm D k flags F m pmm) (hk : Paging.Owns D k)
    (hflags : PlainFlags flags) : ¬ Has (m (L.frame D) k) pageFlag4MB := by
  cases hstep with
  | present hpresent => exact h D k hk
  | created habsent ptPaddr pmm halloc =>
      rw [PhysicalMemory.zero_of_ne _ (hcore.alloc_apart halloc D).symm, PhysicalMemory.write_self]
      exact not_has_4MB_tableEntry (Paging.aligned_allocPageframe halloc) hflags

theorem Small.memMapPage (h : Small L s.memory) (hcore : s.Core L)
    {virtAddr physAddr flags : Word} (hordinary : s.Ordinary L virtAddr)
    (hflags : PlainFlags flags)
    (hcall : s.memMapPage L virtAddr physAddr flags = some t) : Small L t.memory := by
  obtain ⟨D, hD⟩ := hcore.edits hordinary
  obtain ⟨F, m, pmm, hstep, rfl⟩ := Paging.memMapPage_cases hcore hD hflags.frameOf_eq hcall
  intro H i hi
  dsimp only
  rw [Paging.synced_owned _ _ _ hi,
    PhysicalMemory.write_of_ne _ (Or.inl (hstep.apart hcore hD.owns H).symm)]
  by_cases hslot : H = D ∧ i = pdIndex virtAddr
  · obtain ⟨rfl, rfl⟩ := hslot
    exact h.tableStep hcore hstep hi hflags
  · rw [hstep.dirs hcore (not_and_or.mp hslot)]
    exact h H i hi

theorem Small.memUnmapPage (h : Small L s.memory) (hcore : s.Core L) {virtAddr pte : Word}
    (hordinary : s.Ordinary L virtAddr)
    (hcall : s.memUnmapPage L virtAddr = some (pte, t)) : Small L t.memory := by
  obtain ⟨D, hD⟩ := hcore.edits hordinary
  rcases Paging.memUnmapPage_cases hcore hD hcall with ⟨-, rfl⟩ | ⟨-, -, -, m, pmm, hstep, rfl⟩
  · rw [Paging.enter_eq]
    exact h
  intro H i hi
  have hpage : ∀ H i, s.memory.write (frameOf (s.memory (L.frame D) (pdIndex virtAddr)))
      (ptIndex virtAddr) 0 (L.frame H) i = s.memory (L.frame H) i := fun H i =>
    PhysicalMemory.write_of_ne _ (Or.inl (hcore.sound.apart D _ hD.owns H).symm)
  dsimp only
  rw [Paging.synced_owned _ _ _ hi]
  by_cases hslot : H = D ∧ i = pdIndex virtAddr
  · obtain ⟨rfl, rfl⟩ := hslot
    cases hstep with
    | kept hkept =>
        rw [hpage]
        exact h H _ hi
    | removed hempty howner =>
        rw [PhysicalMemory.write_self]
        decide
  · rw [hstep.dirs (not_and_or.mp hslot), hpage]
    exact h H i hi

theorem Small.memAllocPageDir (h : Small L s.memory) {result : Option (Fin 256)}
    (hcall : s.memAllocPageDir L = (result, t)) : Small L t.memory := by
  rcases Paging.memAllocPageDir_cases hcall with ⟨-, rfl, -⟩ | ⟨i, -, -, rfl⟩
  · exact h
  intro H k hk
  by_cases hsame : H = .user i
  · subst hsame
    have hlow : k.toNat < 768 := hk
    simp only [Layout.frame, if_true, Paging.freshDirectory, if_neg hk.ne_window,
      if_neg (Nat.not_le_of_lt hlow)]
    decide
  · have hdir : L.frame H ≠ L.pageDir i := fun heq => hsame (L.frame_injective heq)
    simp only [if_neg hdir]
    exact h H k hk

theorem Small.memFreePageDir (h : Small L s.memory) (hcore : s.Core L) {i : Fin 256}
    (hi : s.pageDirsUsed i = true) (hcall : s.memFreePageDir L i = some t) :
    Small L t.memory := by
  obtain ⟨u, -, hdirs, rfl⟩ := hcore.memFreePageDir_cases hi hcall
  intro H k hk
  dsimp only
  rw [hdirs]
  split
  · decide
  · exact h H k hk

theorem small_step (h : Small L s.memory) (hcore : s.Core L) {call : PagingCall}
    (henabled : call.Enabled L s) (hplain : call.Plain) (hcall : call.step L s = some t) :
    Small L t.memory := by
  cases call with
  | memMapPage virtAddr physAddr flags => exact h.memMapPage hcore henabled.1 hplain hcall
  | mapNewFrame virtAddr flags =>
      obtain ⟨⟨physAddr, pmm⟩, halloc, hcall⟩ := Option.bind_eq_some_iff.mp hcall
      exact Small.memMapPage (s := { s with pmm := pmm }) h
        (hcore.of_pmm (Paging.startByte_allocPageframe halloc)) henabled.1 hplain hcall
  | memUnmapPage virtAddr =>
      obtain ⟨⟨pte, u⟩, hunmap, rfl⟩ := Option.map_eq_some_iff.mp hcall
      exact h.memUnmapPage hcore henabled hunmap
  | memAllocPageDir =>
      obtain rfl := Option.some.inj hcall
      exact h.memAllocPageDir rfl
  | memFreePageDir i => exact h.memFreePageDir hcore henabled hcall
  | memChangePageDirectory D =>
      obtain rfl := Option.some.inj hcall
      exact h

theorem small_initDirectories (m : PhysicalMemory) (memHigh physicalAllocstart : Nat) :
    Small L (Paging.initDirectories L m memHigh physicalAllocstart).memory := by
  intro D k hk
  rw [initDirectories_owned m _ _ hk]
  decide

/-! ## The translation after `mem_map_page` -/

/-- In every state that a run of the calls reaches with tables granted and plain flags. -/
structure Translating (L : Layout) (s : Paging) : Prop where
  coherent : Coherent L s
  tables : s.Tables L
  small : Small L s.memory

theorem Translating.mapped (h : Translating L s) {virtAddr physAddr flags : Word} {D : Dir}
    (hordinary : s.Ordinary L virtAddr) (hD : s.Edits L virtAddr D) (hflags : PlainFlags flags)
    (hgranted : s.TableGranted L virtAddr)
    (hcall : s.memMapPage L virtAddr physAddr flags = some t) :
    Mapped L s t D virtAddr (physAddr ||| pageFlagPresent ||| flags) := by
  have hcore := h.coherent.core
  have hafter : Coherent L t :=
    ⟨hcore.memMapPage hordinary hflags.frameOf_eq hcall,
      h.coherent.halves.memMapPage hcore hordinary hflags.frameOf_eq hcall⟩
  obtain ⟨F, m, pmm, hstep, rfl⟩ := Paging.memMapPage_cases hcore hD hflags.frameOf_eq hcall
  have hF := hstep.apart hcore hD.owns
  have hentry := hstep.entry hcore hflags.frameOf_eq
  have hgrant := (Paging.tableGranted_iff hcore hD).mp hgranted
  -- The synchronisation at the end changes neither entries nor tables.
  have howned : ∀ H i, Paging.Owns H i →
      Paging.synced L s.pageDirsUsed virtAddr
        (m.write F (ptIndex virtAddr) (physAddr ||| pageFlagPresent ||| flags)) (L.frame H) i =
        m (L.frame H) i := by
    intro H i hi
    rw [Paging.synced_owned _ _ _ hi, PhysicalMemory.write_of_ne _ (Or.inl (hF H).symm)]
  have hedited := howned D _ hD.owns
  have htable : Paging.synced L s.pageDirsUsed virtAddr
      (m.write F (ptIndex virtAddr) (physAddr ||| pageFlagPresent ||| flags)) F =
      m.write F (ptIndex virtAddr) (physAddr ||| pageFlagPresent ||| flags) F :=
    Paging.synced_apart _ _ _ hF
  have hother : ∀ j, j ≠ ptIndex virtAddr → Paging.synced L s.pageDirsUsed virtAddr
      (m.write F (ptIndex virtAddr) (physAddr ||| pageFlagPresent ||| flags)) F j = m F j := by
    intro j hj
    rw [htable, PhysicalMemory.write_of_ne _ (Or.inr hj)]
  constructor
  case before => exact h.coherent
  case after => exact hafter
  case used => rfl
  case entries =>
    intro H i hi hne
    refine (howned H i hi).trans (hstep.dirs hcore (not_and_or.mp fun heq => hne ?_))
    rw [heq.1, heq.2]
  case tables =>
    intro H i F' hF' hne
    have hslot := not_and_or.mp fun heq => hne (Prod.ext heq.1 heq.2)
    have hFne := hstep.ne_of_table h.tables hD.live hD.owns hgrant hF' hslot
    have hdir := hcore.table_apart hF'
    funext j
    dsimp only
    rw [Paging.synced_apart _ _ _ hdir, PhysicalMemory.write_of_ne _ (Or.inl hFne),
      hstep.content hFne (hdir D)]
  case owns => exact hD.owns
  case present =>
    dsimp only
    rw [hedited]
    exact hentry.2
  case small =>
    dsimp only
    rw [hedited]
    exact h.small.tableStep hcore hstep hD.owns hflags
  case slot =>
    dsimp only
    rw [hedited, hentry.1, htable, PhysicalMemory.write_self]
  case table =>
    dsimp only
    rw [hedited, hentry.1]
    cases hstep with
    | present hpresent => exact Or.inl ⟨.refl _, hother⟩
    | created habsent ptPaddr pmm halloc =>
        refine Or.inr ⟨habsent, fun j hj => ?_⟩
        rw [hother j hj, PhysicalMemory.zero_self]

/-- If a new table is needed, the allocator has a frame for it. -/
def TableSupplied (L : Layout) (s : Paging) (virtAddr : Word) : Prop :=
  Has ((s.enter L virtAddr).memory (s.enter L virtAddr).recPageDir (pdIndex virtAddr))
      pageFlagPresent ∨
    ∃ addr pmm, s.pmm.allocPageframe = some (addr, pmm) ∧ addr ≠ 0

theorem TableSupplied.granted {virtAddr : Word} (h : TableSupplied L s virtAddr) :
    s.TableGranted L virtAddr := by
  refine h.imp_right fun ⟨addr, pmm, halloc, hne⟩ addr' pmm' halloc' => ?_
  obtain ⟨rfl, -⟩ := Prod.mk.inj (Option.some.inj (halloc.symm.trans halloc'))
  exact hne

/-- `mem_map_page` returns. -/
theorem TableSupplied.memMapPage {virtAddr : Word} (h : TableSupplied L s virtAddr)
    (physAddr flags : Word) : ∃ t, s.memMapPage L virtAddr physAddr flags = some t := by
  have hpmm : (s.enter L virtAddr).pmm = s.pmm := by rw [Paging.enter_eq]
  unfold Paging.memMapPage Paging.ensureTable
  by_cases hpresent : Has ((s.enter L virtAddr).memory (s.enter L virtAddr).recPageDir
      (pdIndex virtAddr)) pageFlagPresent
  · rw [if_pos hpresent]
    exact ⟨_, rfl⟩
  · obtain ⟨addr, pmm, halloc, -⟩ := h.resolve_left hpresent
    rw [if_neg hpresent, Paging.allocTable, hpmm, halloc]
    exact ⟨_, rfl⟩

theorem Translating.step (h : Translating L s) {call : PagingCall}
    (henabled : call.Enabled L s) (hallots : call.Allots L s) (hplain : call.Plain)
    (hcall : call.step L s = some t) : Translating L t :=
  ⟨h.coherent.step henabled hcall,
    tables_step h.tables h.coherent.core henabled hallots hcall,
    small_step h.small h.coherent.core henabled hplain hcall⟩

theorem translating_initDirectories {physicalAllocstart : Nat}
    (hbehind : Behind L physicalAllocstart) (m : PhysicalMemory) (memHigh : Nat) :
    Translating L (Paging.initDirectories L m memHigh physicalAllocstart) :=
  ⟨coherent_initDirectories hbehind m memHigh, tables_initDirectories m memHigh _,
    small_initDirectories m memHigh _⟩

variable (L) in
/-- A call with plain flags for which tables are granted. -/
def Ordered (s : Paging) (call : PagingCall) : Prop :=
  call.Enabled L s ∧ call.Allots L s ∧ call.Plain

instance (s : Paging) : DecidablePred (Ordered L s) :=
  fun call => inferInstanceAs (Decidable (call.Enabled L s ∧ call.Allots L s ∧ call.Plain))

end PagingCall

end Senob.Memory
