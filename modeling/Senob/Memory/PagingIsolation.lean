import Senob.Memory.PagingPages

/-!
# The isolation of address spaces

While the allocator has the frames that it is asked for, no frame that it handed out is mapped at
two pages. The functions do not check its result, so a machine without enough memory maps
different pages, and the tables of different directories, to frame zero.
-/

namespace Senob.Memory

open Senob.Foundation

namespace Pmm

variable {p : Pmm} {f g : Nat}

/-- The allocator may hand out frame `f`. -/
def Clear (p : Pmm) (f : Nat) : Prop :=
  8 * p.startByte ≤ f ∧ f < 8 * p.endByte ∧ f < 8 * bitmapLength ∧ p.used f = false

theorem Clear.alloc (h : p.Clear f) : ∃ g, 8 * p.startByte ≤ g ∧
    p.allocPageframe = some (g * pageFrameSize, p.take g) := by
  obtain ⟨hlow, hhigh, hlength, hclear⟩ := h
  obtain ⟨g, hg, -, halloc⟩ := allocPageframe_first hlow hclear hhigh hlength
  exact ⟨g, hg, halloc⟩

theorem Clear.grants (h : p.Clear f) (hstart : 0 < p.startByte) : Paging.Grants p := by
  obtain ⟨g, hg, halloc⟩ := h.alloc
  intro addr p' haddr
  obtain ⟨rfl, -⟩ := Prod.mk.inj (Option.some.inj (halloc.symm.trans haddr))
  rw [pageFrameSize]
  omega

theorem Clear.take (h : p.Clear f) (hne : f ≠ g) : (p.take g).Clear f := by
  obtain ⟨hlow, hhigh, hlength, hclear⟩ := h
  refine ⟨hlow, hhigh, hlength, ?_⟩
  rwa [used_take, if_neg hne]

end Pmm

namespace PagingCall

variable {L : Layout} {s t : Paging}

/-! ## What is to hold -/

/-- The directory `D` maps the page of `virtAddr` to frame `f`, with a table. The window and the
pages of 4 MiB from `boot.s` are left out. -/
structure PageAt (L : Layout) (s : Paging) (D : Dir) (virtAddr : Word) (f : Frame) : Prop where
  inUse : s.InUse D
  below : virtAddr < 0xFFC00000
  small : ¬ Has (s.memory (L.frame D) (pdIndex virtAddr)) pageFlag4MB
  mapped : walk s.memory (L.frame D) virtAddr = some f

/-- A frame is mapped at one page, and below `KERNEL_START` in one directory. The allocator does
not regard it as free. -/
structure Isolated (L : Layout) (s : Paging) : Prop where
  page : ∀ D D' v w f, PageAt L s D v f → PageAt L s D' w f → v >>> 12 = w >>> 12
  dir : ∀ D D' v w f, PageAt L s D v f → PageAt L s D' w f → v < kernelStart → D = D'
  used : ∀ D v f, PageAt L s D v f → s.pmm.used f.toNat = true

/-- The page is one of the table that the holder of the entry owns. -/
theorem PageAt.frames {D : Dir} {virtAddr : Word} {f : Frame} (h : PageAt L s D virtAddr f)
    (hs : Coherent L s) :
    s.frames L (.inr ((holder D (pdIndex virtAddr), pdIndex virtAddr), ptIndex virtAddr)) =
      some f := by
  have hpresent : Has (s.memory (L.frame D) (pdIndex virtAddr)) pageFlagPresent := by
    by_contra habsent
    exact nomatch (walk_of_absent rfl habsent).symm.trans h.mapped
  have hwalk := h.mapped
  rw [walk_of_table rfl hpresent h.small rfl, Option.ite_none_right_eq_some] at hwalk
  have htable := hs.table_of_entry h.inUse (Paging.pdIndex_ne_window h.below) hpresent h.small
  exact Paging.pages_eq_some.mpr ⟨_, htable, hwalk.1, Option.some.inj hwalk.2⟩

theorem isolated (hs : Coherent L s) (h : s.Exclusive L) : Isolated L s := by
  have hslot : ∀ D D' v w f, PageAt L s D v f → PageAt L s D' w f →
      holder D (pdIndex v) = holder D' (pdIndex w) ∧ pdIndex v = pdIndex w ∧
        ptIndex v = ptIndex w := by
    intro D D' v w f hv hw
    have heq := Sum.inr.inj (h.exclusive (hv.frames hs) (hw.frames hs))
    exact ⟨congrArg (·.1.1) heq, congrArg (·.1.2) heq, congrArg (·.2) heq⟩
  constructor
  case page =>
    intro D D' v w f hv hw
    exact shiftRight_eq_iff.mpr (hslot D D' v w f hv hw).2
  case dir =>
    intro D D' v w f hv hw hlow
    obtain ⟨hholder, hindex, -⟩ := hslot D D' v w f hv hw
    have huser : (pdIndex v).toNat < 768 := Nat.lt_of_not_le fun hhigh =>
      BitVec.not_le.mpr hlow ((kernelStart_le_iff v).mpr hhigh)
    rwa [← hindex, holder, holder, if_pos huser, if_pos huser] at hholder
  case used =>
    intro D v f hv
    exact h.used (hv.frames hs)

/-! ## The condition -/

/-- Pages are mapped with frames from the allocator alone, and with plain flags. -/
def Allocates : PagingCall → Prop
  | memMapPage _ _ _ => False
  | mapNewFrame _ flags => PlainFlags flags
  | _ => True

variable (L) in
/-- The allocator has a frame for the page, and another one if the page needs a new table. -/
def Stocked (s : Paging) : PagingCall → Prop
  | mapNewFrame virtAddr _ => ∃ f, s.pmm.Clear f ∧
      (Has ((s.enter L virtAddr).memory (s.enter L virtAddr).recPageDir (pdIndex virtAddr))
          pageFlagPresent ∨
        ∃ g, g ≠ f ∧ s.pmm.Clear g)
  | _ => True

theorem startByte_pos (h : s.Core L) : 0 < s.pmm.startByte := by
  have hbelow := h.below .kernel
  omega

/-- If two frames are clear, one of them is left for the table. -/
theorem Stocked.tableSupplied {virtAddr flags : Word} (h : (mapNewFrame virtAddr flags).Stocked L s)
    (hcore : s.Core L) {addr : Nat} {pmm : Pmm}
    (halloc : s.pmm.allocPageframe = some (addr, pmm)) :
    TableSupplied L { s with pmm := pmm } virtAddr := by
  have hcr3 : Paging.enter L { s with pmm := pmm } virtAddr =
      { s.enter L virtAddr with pmm := pmm } := by
    rw [Paging.enter_eq, Paging.enter_eq]
  obtain ⟨f, hf, htable⟩ := h
  unfold TableSupplied
  rw [hcr3]
  refine htable.imp_right fun ⟨g, hne, hg⟩ => ?_
  obtain ⟨taken, -, htaken⟩ := hf.alloc
  obtain ⟨rfl, rfl⟩ := Prod.mk.inj (Option.some.inj (htaken.symm.trans halloc))
  have hstart : 0 < (s.pmm.take taken).startByte := startByte_pos hcore
  have hleft : ∃ f, (s.pmm.take taken).Clear f := by
    by_cases hfirst : f = taken
    · exact ⟨g, hg.take (hfirst ▸ hne)⟩
    · exact ⟨f, hf.take hfirst⟩
  obtain ⟨f', hf'⟩ := hleft
  obtain ⟨g', -, halloc'⟩ := hf'.alloc
  exact ⟨_, _, halloc', hf'.grants hstart _ _ halloc'⟩

theorem Stocked.tableGranted {virtAddr flags : Word} (h : (mapNewFrame virtAddr flags).Stocked L s)
    (hcore : s.Core L) {addr : Nat} {pmm : Pmm}
    (halloc : s.pmm.allocPageframe = some (addr, pmm)) :
    Paging.TableGranted L { s with pmm := pmm } virtAddr :=
  (h.tableSupplied hcore halloc).granted

theorem Stocked.allots {call : PagingCall} (h : call.Stocked L s) (hcore : s.Core L)
    (hallocates : call.Allocates) : call.Allots L s ∧ call.Plain := by
  cases call with
  | memMapPage virtAddr physAddr flags => exact hallocates.elim
  | mapNewFrame virtAddr flags =>
      have hplain : PlainFlags flags := hallocates
      refine ⟨⟨?_, fun addr pmm halloc => h.tableGranted hcore halloc⟩, hplain⟩
      rw [has_owner, hplain.getLsbD (by decide)]
      exact Bool.false_ne_true
  | memUnmapPage virtAddr => exact ⟨trivial, trivial⟩
  | memAllocPageDir => exact ⟨trivial, trivial⟩
  | memFreePageDir i => exact ⟨trivial, trivial⟩
  | memChangePageDirectory D => exact ⟨trivial, trivial⟩

/-! ## Every run -/

theorem exclusive_step (h : s.Exclusive L) (htables : s.Tables L) (hcore : s.Core L)
    {call : PagingCall} (henabled : call.Enabled L s) (hallocates : call.Allocates)
    (hstocked : call.Stocked L s) (hcall : call.step L s = some t) : t.Exclusive L := by
  cases call with
  | memMapPage virtAddr physAddr flags => exact hallocates.elim
  | mapNewFrame virtAddr flags =>
      have hallots := (hstocked.allots hcore hallocates).1
      obtain ⟨f, hf, -⟩ := hstocked
      exact h.mapNewFrame htables hcore henabled.1 henabled.2 hallots.1
        (hf.grants (startByte_pos hcore)) hallots.2 hcall
  | memUnmapPage virtAddr =>
      obtain ⟨⟨pte, u⟩, hunmap, rfl⟩ := Option.map_eq_some_iff.mp hcall
      exact h.memUnmapPage htables hcore henabled hunmap
  | memAllocPageDir =>
      obtain rfl := Option.some.inj hcall
      exact h.memAllocPageDir htables hcore rfl
  | memFreePageDir i => exact h.memFreePageDir htables hcore henabled hcall
  | memChangePageDirectory D =>
      obtain rfl := Option.some.inj hcall
      exact h.memChangePageDirectory htables henabled

theorem exclusive_initDirectories (m : PhysicalMemory) (memHigh physicalAllocstart : Nat) :
    (Paging.initDirectories L m memHigh physicalAllocstart).Exclusive L := by
  have hnone : ∀ slot f,
      (Paging.initDirectories L m memHigh physicalAllocstart).frames L slot ≠ some f := by
    rintro (⟨D, k⟩ | ⟨⟨D, k⟩, j⟩) f hslot
    · obtain ⟨-, howns, hne, -⟩ := Paging.tables_eq_some.mp hslot
      exact hne (initDirectories_owned m _ _ howns)
    · obtain ⟨F, htable, -⟩ := Paging.pages_eq_some.mp hslot
      obtain ⟨-, howns, hne, -⟩ := Paging.tables_eq_some.mp htable
      exact hne (initDirectories_owned m _ _ howns)
  exact ⟨fun i _ f hi => absurd hi (hnone i f), fun i f hi => absurd hi (hnone i f)⟩

variable (L) in
/-- A call of the runs below, in a state where the allocator has the frames for it. -/
def Supplied (s : Paging) (call : PagingCall) : Prop :=
  call.Enabled L s ∧ call.Allocates ∧ call.Stocked L s

/-- As long as physical memory does not run out, address spaces are isolated. -/
theorem always_isolated (m : PhysicalMemory) (memHigh : Nat) {physicalAllocstart : Nat}
    (hbehind : Behind L physicalAllocstart) {calls : List PagingCall}
    (hcalls : Admissible (step L) (Supplied L)
      (Paging.initDirectories L m memHigh physicalAllocstart) calls) :
    Always (step L) (Isolated L) (Paging.initDirectories L m memHigh physicalAllocstart)
      calls := by
  refine (always_of_invariant (fun s => Coherent L s ∧ s.Tables L ∧ s.Exclusive L) ?_
    ⟨coherent_initDirectories hbehind m memHigh, tables_initDirectories m memHigh _,
      exclusive_initDirectories m memHigh _⟩ hcalls).imp fun s h => isolated h.1 h.2.2
  rintro s call t ⟨hs, htables, hexclusive⟩ ⟨henabled, hallocates, hstocked⟩ hcall
  have hallots := hstocked.allots hs.core hallocates
  exact ⟨hs.step henabled hcall, tables_step htables hs.core henabled hallots.1 hcall,
    exclusive_step hexclusive htables hs.core henabled hallocates hstocked hcall⟩

theorem Roomy.clear_of_le {start stop n f : Nat} {p : Pmm} (h : Roomy start stop n p)
    (hlow : 8 * start + n ≤ f) (hhigh : f < 8 * stop) (hstop : stop ≤ bitmapLength) :
    p.Clear f := by
  have hbegin := h.startByte
  have hend := h.endByte
  exact ⟨by omega, by omega, by omega, h.clear f hlow⟩

/-- With ample memory the allocator has all frames that `init_memory` asks for. -/
theorem initMemory_supplied {memHigh physicalAllocstart : Nat}
    (hbehind : Behind L physicalAllocstart) (hample : Ample memHigh physicalAllocstart)
    (m : PhysicalMemory) :
    Admissible (step L) (Supplied L) (Paging.initDirectories L m memHigh physicalAllocstart)
      initCalls := by
  have hroom := hample.room
  have hstart : 0 < (Pmm.init physicalAllocstart memHigh).startByte := by
    have hbelow := hbehind.lt_startByte memHigh .kernel
    omega
  unfold initCalls
  refine (runSteps_range (InitRound L (Pmm.init physicalAllocstart memHigh).startByte
    (Pmm.init physicalAllocstart memHigh).endByte) (fun i hi s h => ?_)
    (initRound_initDirectories hbehind m memHigh)).1
  have hplain : PlainFlags (pageFlagPresent ||| pageFlagWrite) := by decide
  have hpage := h.roomy.clear_of_le le_rfl (by omega) hample.fits
  have htable := h.roomy.clear_of_le (Nat.le_succ _) (by omega) hample.fits
  exact ⟨⟨enabled_initCall hi s, hplain, _, hpage, Or.inr ⟨_, Nat.succ_ne_self _, htable⟩⟩,
    (h.step hi hroom hample.fits hstart).2⟩

theorem always_isolated_boot :
    Always (step exampleLayout) (Isolated exampleLayout)
      (Paging.initDirectories exampleLayout (fun _ _ => 0) 0x8000000 0x1000000) initCalls :=
  always_isolated _ _ behind_exampleLayout
    (initMemory_supplied behind_exampleLayout ample_example _)

/-- The state after two rounds of the loop of `init_memory`, on a machine of 16 MiB. All of its
memory lies below `physicalAllocstart`, and so both pages lead to frame zero. -/
theorem twoRounds_outOfMemory :
    ∃ t, runSteps (step exampleLayout)
        (Paging.initDirectories exampleLayout (fun _ _ => 0) 0xF00000 0x1000000)
        ((List.range 2).map fun i =>
          mapNewFrame (initPage i) (pageFlagPresent ||| pageFlagWrite)) = some t ∧
      t.memory exampleLayout.kernelDirectory 780 = 0x203 ∧
      walk t.memory exampleLayout.kernelDirectory 0xC3000000 = some 0 ∧
      walk t.memory exampleLayout.kernelDirectory 0xC3001000 = some 0 := by
  have hrun : ((runSteps (step exampleLayout)
      (Paging.initDirectories exampleLayout (fun _ _ => 0) 0xF00000 0x1000000)
      ((List.range 2).map fun i =>
        mapNewFrame (initPage i) (pageFlagPresent ||| pageFlagWrite))).map fun t =>
      (t.memory exampleLayout.kernelDirectory 780,
        walk t.memory exampleLayout.kernelDirectory 0xC3000000,
        walk t.memory exampleLayout.kernelDirectory 0xC3001000)) =
      some (0x203, some 0, some 0) := by decide +kernel
  obtain ⟨t, ht, heq⟩ := Option.map_eq_some_iff.mp hrun
  obtain ⟨hentry, hpages⟩ := Prod.mk.inj heq
  obtain ⟨hfirst, hsecond⟩ := Prod.mk.inj hpages
  exact ⟨t, ht, hentry, hfirst, hsecond⟩

/-- Without enough memory `init_memory` maps different pages to one frame. -/
theorem not_always_isolated :
    ¬ ∀ (memHigh : Nat) (calls : List PagingCall),
      Admissible (step exampleLayout)
        (fun s call => call.Enabled exampleLayout s ∧ call.Allocates)
        (Paging.initDirectories exampleLayout (fun _ _ => 0) memHigh 0x1000000) calls →
      Always (step exampleLayout) (Isolated exampleLayout)
        (Paging.initDirectories exampleLayout (fun _ _ => 0) memHigh 0x1000000) calls := by
  intro hclaim
  have hallocates : ∀ call ∈ initCalls, call.Allocates := by
    intro call hcall
    unfold initCalls at hcall
    obtain ⟨i, -, rfl⟩ := List.mem_map.mp hcall
    have hplain : PlainFlags (pageFlagPresent ||| pageFlagWrite) := by decide
    exact hplain
  have halways := hclaim 0xF00000 initCalls (admissible_initCalls.and hallocates)
  obtain ⟨t, hrun, hentry, hfirst, hsecond⟩ := twoRounds_outOfMemory
  unfold initCalls at halways
  rw [show 8192 = 2 + 8190 from rfl, List.range_add, List.map_append] at halways
  have hisolated := halways.of_append.last hrun
  have hsmall : ∀ virtAddr : Word, pdIndex virtAddr = 780 →
      ¬ Has (t.memory (exampleLayout.frame .kernel) (pdIndex virtAddr)) pageFlag4MB := by
    intro virtAddr hindex
    have hkernel : t.memory (exampleLayout.frame .kernel) 780 = 0x203 := hentry
    rw [hindex, hkernel]
    decide
  have hsame := hisolated.page .kernel .kernel 0xC3000000 0xC3001000 0
    ⟨trivial, by decide, hsmall _ (by decide), hfirst⟩
    ⟨trivial, by decide, hsmall _ (by decide), hsecond⟩
  exact absurd hsame (by decide)

end PagingCall

end Senob.Memory
