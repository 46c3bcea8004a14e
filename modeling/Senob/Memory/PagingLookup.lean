import Senob.Memory.PagingWalk

/-!
# The walk in software

`mem_is_valid_vaddr` and `mem_get_phys_from_virt` read the entries of an address through the
window. They take the word that the window shows for the entry of a table, also where the
directory has a page of 4 MiB, and the second does not ask whether it is present.
-/

namespace Senob.Memory

open Senob.Foundation

namespace Paging

variable {L : Layout} {s : Paging}

/-- `mem_get_phys_from_virt`. -/
def memGetPhysFromVirt (s : Paging) (virtAddr : Word) : Word :=
  if ¬ Has (s.memory s.recPageDir (pdIndex virtAddr)) pageFlagPresent then -1
  else pPhysAddr (s.memory (s.recPageTable (pdIndex virtAddr)) (ptIndex virtAddr))

/-- `mem_is_valid_vaddr`. -/
def memIsValidVaddr (s : Paging) (vaddr : Word) : Bool :=
  let pdEntry := s.memory s.recPageDir (pdIndex vaddr)
  if ¬ Has pdEntry pageFlagPresent then false
  else
    let ptEntry := s.memory (s.recPageTable (pdIndex vaddr)) (ptIndex vaddr)
    decide (Has ptEntry pageFlagPresent)

/-- Both functions say what the processor does. -/
structure Agrees (s : Paging) (virtAddr : Word) : Prop where
  valid : s.memIsValidVaddr virtAddr = true ↔ (walk s.memory s.cr3 virtAddr).isSome = true
  phys : s.memGetPhysFromVirt virtAddr =
    ((walk s.memory s.cr3 virtAddr).map frameAddress).getD (-1)

/-- The word that stands for the entry of a table: it is one, unless the entry of the directory
is a page of 4 MiB. -/
def shownEntry (s : Paging) (virtAddr : Word) : Word :=
  s.memory (frameOf (s.memory s.cr3 (pdIndex virtAddr))) (ptIndex virtAddr)

theorem memGetPhysFromVirt_eq (h : s.Core L) (virtAddr : Word) :
    s.memGetPhysFromVirt virtAddr =
      if Has (s.memory s.cr3 (pdIndex virtAddr)) pageFlagPresent then
        pPhysAddr (s.shownEntry virtAddr)
      else -1 := by
  obtain ⟨D, hD⟩ := h.current
  have hself := h.sound.self D (Or.inr hD)
  rw [memGetPhysFromVirt, recPageDir_eq hD hself, recPageTable_eq hD rfl hself, ite_not, shownEntry,
    hD]

theorem memIsValidVaddr_eq_true_iff (h : s.Core L) (virtAddr : Word) :
    s.memIsValidVaddr virtAddr = true ↔
      Has (s.memory s.cr3 (pdIndex virtAddr)) pageFlagPresent ∧
        Has (s.shownEntry virtAddr) pageFlagPresent := by
  obtain ⟨D, hD⟩ := h.current
  have hself := h.sound.self D (Or.inr hD)
  simp only [memIsValidVaddr, recPageDir_eq hD hself, recPageTable_eq hD rfl hself, shownEntry, hD]
  split
  next habsent => exact iff_of_false Bool.false_ne_true fun hboth => habsent hboth.1
  next hpresent => simp [not_not.mp hpresent]

theorem pPhysAddr_eq (e : Word) : pPhysAddr e = frameAddress (frameOf e) := by
  apply BitVec.eq_of_getLsbD_eq
  intro i hi
  have hmask : (0xFFF : Word).getLsbD i = decide (i < 12) := by
    rw [show (0xFFF : Word) = BitVec.setWidth 32 (BitVec.allOnes 12) from rfl,
      BitVec.getLsbD_setWidth, BitVec.getLsbD_allOnes]
    simp [hi]
  rw [pPhysAddr, frameAddress, BitVec.getLsbD_and, BitVec.getLsbD_not, hmask,
    BitVec.getLsbD_shiftLeft, BitVec.getLsbD_setWidth]
  by_cases hlow : i < 12
  · simp [hlow]
  · rw [getLsbD_frameOf e (show i - 12 < 20 by omega), show 12 + (i - 12) = i by omega]
    simp [hlow, hi, show i - 12 < 32 by omega]

theorem frameAddress_ne (f : Frame) : frameAddress f ≠ -1 := by
  intro heq
  have hbit := congrArg (fun a : Word => a.getLsbD 0) heq
  have hones : (-1 : Word).getLsbD 0 = true := by decide
  simp only [frameAddress, BitVec.getLsbD_shiftLeft, hones] at hbit
  simp at hbit

theorem frameAddress_injective : Function.Injective frameAddress := fun f g h => by
  rw [← frameOf_frameAddress f, h, frameOf_frameAddress]

/-- The functions agree with the processor where the directory has no entry, where the page of
a table is present, and where the word in a page of 4 MiB happens to be an entry for the very
frame. -/
theorem agree_iff (h : s.Core L) (virtAddr : Word) :
    s.Agrees virtAddr ↔
      ¬ Has (s.memory s.cr3 (pdIndex virtAddr)) pageFlagPresent ∨
      Has (s.shownEntry virtAddr) pageFlagPresent ∧
        (Has (s.memory s.cr3 (pdIndex virtAddr)) pageFlag4MB →
          frameOf (s.shownEntry virtAddr) =
            frameOf (s.memory s.cr3 (pdIndex virtAddr)) &&& ~~~0x3FF |||
              (ptIndex virtAddr).setWidth 20) := by
  have hphys := memGetPhysFromVirt_eq h virtAddr
  have hvalid := memIsValidVaddr_eq_true_iff h virtAddr
  by_cases hpresent : Has (s.memory s.cr3 (pdIndex virtAddr)) pageFlagPresent
  swap
  · have hwalk := walk_of_absent rfl hpresent
    rw [if_neg hpresent] at hphys
    refine iff_of_true ⟨?_, ?_⟩ (Or.inl hpresent)
    · rw [hvalid, hwalk]
      exact iff_of_false (fun hboth => hpresent hboth.1) Bool.false_ne_true
    · rw [hphys, hwalk]
      rfl
  rw [if_pos hpresent, pPhysAddr_eq] at hphys
  rw [or_iff_right (not_not.mpr hpresent)]
  -- Behind a 4 MiB entry the window shows words of the page, not entries.
  by_cases hlarge : Has (s.memory s.cr3 (pdIndex virtAddr)) pageFlag4MB
  · have hwalk : walk s.memory s.cr3 virtAddr =
        some (frameOf (s.memory s.cr3 (pdIndex virtAddr)) &&& ~~~0x3FF |||
          (ptIndex virtAddr).setWidth 20) := by
      rw [walk, if_neg (not_not.mpr hpresent), if_pos hlarge]
    constructor
    · rintro ⟨hsame, haddr⟩
      rw [hvalid, hwalk] at hsame
      rw [hphys, hwalk] at haddr
      exact ⟨(hsame.mpr rfl).2, fun _ => frameAddress_injective haddr⟩
    · rintro ⟨hpage, hframe⟩
      refine ⟨?_, ?_⟩
      · rw [hvalid, hwalk]
        exact iff_of_true ⟨hpresent, hpage⟩ rfl
      · rw [hphys, hwalk, hframe hlarge]
        rfl
  · have hwalk : walk s.memory s.cr3 virtAddr =
        if Has (s.shownEntry virtAddr) pageFlagPresent then some (frameOf (s.shownEntry virtAddr))
        else none := walk_of_table rfl hpresent hlarge rfl
    by_cases hpage : Has (s.shownEntry virtAddr) pageFlagPresent
    · rw [if_pos hpage] at hwalk
      refine iff_of_true ⟨?_, ?_⟩ ⟨hpage, fun hboth => absurd hboth hlarge⟩
      · rw [hvalid, hwalk]
        exact iff_of_true ⟨hpresent, hpage⟩ rfl
      · rw [hphys, hwalk]
        rfl
    · rw [if_neg hpage] at hwalk
      refine iff_of_false (fun hagrees => ?_) fun hboth => hpage hboth.1
      have haddr := hagrees.phys
      rw [hphys, hwalk] at haddr
      exact frameAddress_ne _ haddr

end Paging

namespace PagingCall

variable {L : Layout} {s : Paging}

/-- In every state that a run of the paging functions reaches, the walk in software agrees with
the processor's exactly in the cases of `Paging.agree_iff`. -/
theorem lookup_agrees_iff (m : PhysicalMemory) (memHigh : Nat) {physicalAllocstart : Nat}
    (hbehind : Behind L physicalAllocstart) {calls : List PagingCall}
    (hcalls : Admissible (step L) (Enabled L)
      (Paging.initDirectories L m memHigh physicalAllocstart) calls)
    (hrun : runSteps (step L) (Paging.initDirectories L m memHigh physicalAllocstart) calls =
      some s) (virtAddr : Word) :
    s.Agrees virtAddr ↔
      ¬ Has (s.memory s.cr3 (pdIndex virtAddr)) pageFlagPresent ∨
      Has (s.shownEntry virtAddr) pageFlagPresent ∧
        (Has (s.memory s.cr3 (pdIndex virtAddr)) pageFlag4MB →
          frameOf (s.shownEntry virtAddr) =
            frameOf (s.memory s.cr3 (pdIndex virtAddr)) &&& ~~~0x3FF |||
              (ptIndex virtAddr).setWidth 20) :=
  Paging.agree_iff (runSteps_invariant (Paging.Core L)
    (fun _ _ _ h henabled hcall => core_step h henabled hcall)
    (core_initDirectories hbehind m memHigh) hcalls hrun) virtAddr

theorem lookup_agrees_fourCalls :
    ∃ s, runSteps (step exampleLayout)
        (Paging.initDirectories exampleLayout (fun _ _ => 0) 0x8000000 0x1000000) exampleCalls =
          some s ∧
      s.Agrees 0xD0000000 ∧ s.memGetPhysFromVirt 0xD0000000 = 0x05001000 := by
  have hstate : (runSteps (step exampleLayout)
      (Paging.initDirectories exampleLayout (fun _ _ => 0) 0x8000000 0x1000000)
        exampleCalls).any (fun s => Has (s.shownEntry 0xD0000000) pageFlagPresent ∧
          ¬ Has (s.memory s.cr3 (pdIndex 0xD0000000)) pageFlag4MB ∧
          s.memGetPhysFromVirt 0xD0000000 = 0x05001000) = true := by
    decide +kernel
  obtain ⟨s, hrun, hs⟩ := (Option.any_eq_true ..).mp hstate
  obtain ⟨hpage, hsmall, hphys⟩ := of_decide_eq_true hs
  exact ⟨s, hrun, (lookup_agrees_iff _ _ behind_exampleLayout (by decide +kernel) hrun _).mpr
    (Or.inr ⟨hpage, fun hlarge => absurd hlarge hsmall⟩), hphys⟩

/-- In the directory of `boot.s` the kernel's own pages are no valid addresses. -/
theorem not_lookup_agrees :
    ¬ ∀ (L : Layout) (m : PhysicalMemory) (memHigh physicalAllocstart : Nat)
        (calls : List PagingCall) (s : Paging) (virtAddr : Word),
      Behind L physicalAllocstart →
      Admissible (step L) (Enabled L) (Paging.initDirectories L m memHigh physicalAllocstart)
        calls →
      runSteps (step L) (Paging.initDirectories L m memHigh physicalAllocstart) calls = some s →
      s.Agrees virtAddr := by
  intro hclaim
  have hagrees := hclaim exampleLayout (fun _ _ => 0) 0x8000000 0x1000000 [] _ 0xC0000000
    behind_exampleLayout trivial rfl
  exact absurd hagrees.valid (by decide +kernel)

end PagingCall

end Senob.Memory
