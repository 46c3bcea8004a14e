import Senob.Memory.PagingRoundTrip
import Senob.Memory.UserPages

/-!
# Access for user mode

A process reaches a page if `PAGE_FLAG_USER` is set both in the entry of the directory and in
that of the table. `mem_map_page` writes the first only with a new table, so a page whose table
was made for the kernel stays closed.
-/

namespace Senob.Memory

open Senob.Foundation

theorem Alike.has_user_iff {e e' : Word} (h : Alike e e') :
    Has e pageFlagUser ↔ Has e' pageFlagUser := by
  rw [has_user, has_user, h 2 (by decide)]

/-- User mode may access the page of the address. -/
def UserAccess (m : PhysicalMemory) (dir : Frame) (virtAddr : Word) : Prop :=
  (userWalk m dir virtAddr).isSome = true

instance (m : PhysicalMemory) (dir : Frame) (virtAddr : Word) :
    Decidable (UserAccess m dir virtAddr) :=
  inferInstanceAs (Decidable (_ = true))

/-- Through a table both entries decide. -/
theorem userAccess_iff {m : PhysicalMemory} {dir F : Frame} {virtAddr : Word}
    (hpresent : Has (m dir (pdIndex virtAddr)) pageFlagPresent)
    (hsmall : ¬ Has (m dir (pdIndex virtAddr)) pageFlag4MB)
    (hframe : frameOf (m dir (pdIndex virtAddr)) = F)
    (hpage : Has (m F (ptIndex virtAddr)) pageFlagPresent) :
    UserAccess m dir virtAddr ↔
      Has (m dir (pdIndex virtAddr)) pageFlagUser ∧ Has (m F (ptIndex virtAddr)) pageFlagUser := by
  have hwalk := walk_of_table rfl hpresent hsmall hframe
  rw [if_pos hpage] at hwalk
  simp only [UserAccess, userWalk, hframe, or_iff_right hsmall, ite_not, hwalk]
  by_cases hdir : Has (m dir (pdIndex virtAddr)) pageFlagUser
  · by_cases htable : Has (m F (ptIndex virtAddr)) pageFlagUser
    · rw [if_pos hdir, if_pos htable]
      exact iff_of_true rfl ⟨hdir, htable⟩
    · rw [if_pos hdir, if_neg htable]
      exact iff_of_false Bool.false_ne_true fun hboth => htable hboth.2
  · rw [if_neg hdir]
    exact iff_of_false Bool.false_ne_true fun hboth => hdir hboth.1

namespace PagingCall

variable {L : Layout} {s t : Paging}

/-- The entry for a table has the flags that the page was to have. -/
theorem has_user_tableEntry {ptPaddr : Nat} (haligned : ptPaddr % 4096 = 0) (flags : Word) :
    Has (Paging.tableEntry ptPaddr flags) pageFlagUser ↔ Has flags pageFlagUser := by
  have hbits : pageFlagPresent.getLsbD 2 = false ∧ pageFlagWrite.getLsbD 2 = false ∧
      pageFlagOwner.getLsbD 2 = false := by decide
  simp only [has_user, Paging.tableEntry, BitVec.getLsbD_or, hbits, Bool.or_false,
    Paging.getLsbD_of_aligned haligned (show 2 < 12 by decide), Bool.false_or]

/-- The state after `mem_map_page` as user mode sees the page. -/
theorem userAccess_memMapPage (h : Coherent L s) (hsmall : Small L s.memory) {D₀ : Dir}
    (huse : s.InUse D₀) (hcurrent : s.cr3 = L.frame D₀) {virtAddr physAddr flags : Word}
    (hordinary : s.Ordinary L virtAddr) (haligned : physAddr &&& 0xFFF = 0)
    (hflags : PlainFlags flags) (hcall : s.memMapPage L virtAddr physAddr flags = some t) :
    UserAccess t.memory t.cr3 virtAddr ↔
      Has flags pageFlagUser ∧
        (Has (s.memory s.cr3 (pdIndex virtAddr)) pageFlagPresent →
          Has (s.memory s.cr3 (pdIndex virtAddr)) pageFlagUser) := by
  have henabled : (memMapPage virtAddr physAddr flags).Enabled L s :=
    ⟨hordinary, hflags.frameOf_eq⟩
  have hafter : Coherent L t := h.step henabled hcall
  obtain ⟨D, hD⟩ := h.core.edits hordinary
  have hbefore := h.alike_edited huse hcurrent hD
  obtain ⟨F, m, pmm, hstep, rfl⟩ := Paging.memMapPage_cases h.core hD hflags.frameOf_eq hcall
  have hF := hstep.apart h.core hD.owns
  obtain ⟨hframe, hpresent⟩ := hstep.entry h.core hflags.frameOf_eq
  have hlarge := hsmall.tableStep h.core hstep hD.owns hflags
  -- The entries that the walk reads in the directory and in the table.
  have hshown := hafter.alike_edited huse hcurrent ⟨hD.frame, hD.owns⟩
  have hentry : Paging.synced L s.pageDirsUsed virtAddr
      (m.write F (ptIndex virtAddr) (physAddr ||| pageFlagPresent ||| flags)) (L.frame D)
        (pdIndex virtAddr) = m (L.frame D) (pdIndex virtAddr) :=
    (Paging.synced_owned _ _ _ hD.owns).trans
      (PhysicalMemory.write_of_ne _ (Or.inl (hF D).symm))
  have hslot : Paging.synced L s.pageDirsUsed virtAddr
      (m.write F (ptIndex virtAddr) (physAddr ||| pageFlagPresent ||| flags)) F
        (ptIndex virtAddr) = physAddr ||| pageFlagPresent ||| flags := by
    rw [Paging.synced_apart _ _ _ hF, PhysicalMemory.write_self]
  dsimp only at hshown ⊢
  rw [hentry] at hshown
  rw [← hshown.has_present_iff] at hpresent
  rw [← hshown.has_4MB_iff] at hlarge
  rw [← hshown.frameOf_eq] at hframe
  have hbits : pageFlagPresent.getLsbD 0 = true ∧ pageFlagPresent.getLsbD 2 = false := by decide
  have hpage : Has (physAddr ||| pageFlagPresent ||| flags) pageFlagUser ↔
      Has flags pageFlagUser := by
    simp only [has_user, BitVec.getLsbD_or, hbits.2,
      getLsbD_of_page haligned (show 2 < 12 by decide),
      Bool.false_or]
  rw [userAccess_iff hpresent hlarge hframe, hslot, hpage, hshown.has_user_iff,
    hbefore.has_present_iff, hbefore.has_user_iff, and_comm]
  · refine and_congr_right fun huser => ?_
    cases hstep with
    | present htable => exact ⟨fun hdir _ => hdir, fun hdir => hdir htable⟩
    | created habsent ptPaddr pmm halloc =>
        rw [PhysicalMemory.zero_of_ne _ (hF D).symm, PhysicalMemory.write_self,
          has_user_tableEntry (Paging.aligned_allocPageframe halloc)]
        exact ⟨fun _ htable => absurd htable habsent, fun _ => huser⟩
  · rw [hslot, has_present]
    simp only [BitVec.getLsbD_or, hbits.1, Bool.or_true, Bool.true_or]

/-- What holds in every state that a run with plain flags reaches. -/
theorem coherent_small_of_run (m : PhysicalMemory) (memHigh : Nat) {physicalAllocstart : Nat}
    (hbehind : Behind L physicalAllocstart) {calls : List PagingCall}
    (hcalls : Admissible (step L) (fun s call => call.Enabled L s ∧ call.Plain)
      (Paging.initDirectories L m memHigh physicalAllocstart) calls)
    (hrun : runSteps (step L) (Paging.initDirectories L m memHigh physicalAllocstart) calls =
      some s) : Coherent L s ∧ Small L s.memory :=
  runSteps_invariant (fun s => Coherent L s ∧ Small L s.memory)
    (fun _ _ _ h hcall hstep => ⟨h.1.step hcall.1 hstep,
      small_step h.2 h.1.core hcall.1 hcall.2 hstep⟩)
    ⟨coherent_initDirectories hbehind m memHigh, small_initDirectories m memHigh _⟩ hcalls hrun

/-- The flag of user mode is granted as requested, unless it is requested for a page of a table
that is there without it. -/
theorem memMapPage_userAccess_iff (m : PhysicalMemory) (memHigh : Nat) {physicalAllocstart : Nat}
    (hbehind : Behind L physicalAllocstart) {calls : List PagingCall}
    (hcalls : Admissible (step L) (fun s call => call.Enabled L s ∧ call.Plain)
      (Paging.initDirectories L m memHigh physicalAllocstart) calls)
    (hrun : runSteps (step L) (Paging.initDirectories L m memHigh physicalAllocstart) calls =
      some s)
    {D₀ : Dir} (huse : s.InUse D₀) (hcurrent : s.cr3 = L.frame D₀)
    {virtAddr physAddr flags : Word} (hordinary : s.Ordinary L virtAddr)
    (haligned : physAddr &&& 0xFFF = 0) (hflags : PlainFlags flags)
    (hcall : s.memMapPage L virtAddr physAddr flags = some t) :
    (UserAccess t.memory t.cr3 virtAddr ↔ Has flags pageFlagUser) ↔
      ¬ (Has flags pageFlagUser ∧ Has (s.memory s.cr3 (pdIndex virtAddr)) pageFlagPresent ∧
        ¬ Has (s.memory s.cr3 (pdIndex virtAddr)) pageFlagUser) := by
  obtain ⟨hcoherent, hsmall⟩ := coherent_small_of_run m memHigh hbehind hcalls hrun
  rw [userAccess_memMapPage hcoherent hsmall huse hcurrent hordinary haligned hflags hcall]
  tauto

theorem memMapPage_userAccess_firstPage :
    let s := Paging.initDirectories exampleLayout (fun _ _ => 0) 0x8000000 0x1000000
    ∃ t, s.memMapPage exampleLayout 0x40000000 0x05000000 pageFlagWrite = some t ∧
      (UserAccess t.memory t.cr3 0x40000000 ↔ Has pageFlagWrite pageFlagUser) := by
  intro s
  have hreturns : (s.memMapPage exampleLayout 0x40000000 0x05000000 pageFlagWrite).isSome =
      true := by
    decide +kernel
  obtain ⟨t, hcall⟩ := Option.isSome_iff_exists.mp hreturns
  have hcalls : Admissible (step exampleLayout)
      (fun s call => call.Enabled exampleLayout s ∧ call.Plain) s [] := trivial
  have hrun : runSteps (step exampleLayout) s [] = some s := rfl
  have huse : s.InUse .kernel := trivial
  have hordinary : s.Ordinary exampleLayout 0x40000000 := by decide +kernel
  refine ⟨t, hcall, (memMapPage_userAccess_iff _ _ behind_exampleLayout hcalls hrun huse rfl
    hordinary (by decide) (by decide) hcall).mpr ?_⟩
  exact fun hboth => absurd hboth.1 (by decide)

/-- A page for the kernel and one for user mode in the same table. -/
def kernelPageFirst : List PagingCall :=
  [memMapPage 0x40000000 0x05000000 pageFlagWrite]

theorem kernelPageFirst_run :
    Admissible (step exampleLayout) (fun s call => call.Enabled exampleLayout s ∧ call.Plain)
        (Paging.initDirectories exampleLayout (fun _ _ => 0) 0x8000000 0x1000000)
        kernelPageFirst ∧
      ∃ s t, runSteps (step exampleLayout)
          (Paging.initDirectories exampleLayout (fun _ _ => 0) 0x8000000 0x1000000)
          kernelPageFirst = some s ∧
        s.cr3 = exampleLayout.kernelDirectory ∧ s.Ordinary exampleLayout 0x40001000 ∧
        s.memMapPage exampleLayout 0x40001000 0x05001000 (pageFlagWrite ||| pageFlagUser) =
          some t ∧
        ¬ UserAccess t.memory t.cr3 0x40001000 := by
  refine ⟨by decide +kernel, ?_⟩
  have hstate : ((runSteps (step exampleLayout)
      (Paging.initDirectories exampleLayout (fun _ _ => 0) 0x8000000 0x1000000)
        kernelPageFirst).any fun s =>
          s.cr3 = exampleLayout.kernelDirectory ∧ s.Ordinary exampleLayout 0x40001000 ∧
          (s.memMapPage exampleLayout 0x40001000 0x05001000 (pageFlagWrite ||| pageFlagUser)).any
            fun t => ¬ UserAccess t.memory t.cr3 0x40001000) = true := by
    decide +kernel
  obtain ⟨s, hrun, hs⟩ := (Option.any_eq_true ..).mp hstate
  obtain ⟨hcr3, hordinary, hmap⟩ := of_decide_eq_true hs
  obtain ⟨t, hcall, ht⟩ := (Option.any_eq_true ..).mp hmap
  exact ⟨s, t, hrun, hcr3, hordinary, hcall, of_decide_eq_true ht⟩

/-- A page that is mapped for user mode next to one of the kernel is not open to it. -/
theorem not_memMapPage_userAccess :
    ¬ ∀ (L : Layout) (m : PhysicalMemory) (memHigh physicalAllocstart : Nat)
        (calls : List PagingCall) (s t : Paging) (D₀ : Dir) (virtAddr physAddr flags : Word),
      Behind L physicalAllocstart →
      Admissible (step L) (fun s call => call.Enabled L s ∧ call.Plain)
        (Paging.initDirectories L m memHigh physicalAllocstart) calls →
      runSteps (step L) (Paging.initDirectories L m memHigh physicalAllocstart) calls = some s →
      s.InUse D₀ → s.cr3 = L.frame D₀ → s.Ordinary L virtAddr → physAddr &&& 0xFFF = 0 →
      PlainFlags flags → s.memMapPage L virtAddr physAddr flags = some t →
      (UserAccess t.memory t.cr3 virtAddr ↔ Has flags pageFlagUser) := by
  intro hclaim
  obtain ⟨hcalls, s, t, hrun, hcr3, hordinary, hcall, hclosed⟩ := kernelPageFirst_run
  have haccess := hclaim exampleLayout _ _ _ kernelPageFirst s t .kernel _ _ _ behind_exampleLayout
    hcalls hrun trivial hcr3 hordinary (by decide) (by decide) hcall
  exact hclosed (haccess.mpr (by decide))

end PagingCall

end Senob.Memory
