import Senob.Memory.PagingBoot

/-!
# What `mem_map_page` maps

The frame condition of `mem_map_page` over all pages of all address spaces, in every state that
follows `init_memory`.
-/

namespace Senob.Memory

open Senob.Foundation

namespace PagingCall

variable {L : Layout} {s t : Paging}

/-- In a state that is reached without a failed allocation, `mem_map_page` returns with the
current directory unchanged. It maps the page there and moves no other page that is not the
table's own in the window. A page of the kernel is mapped so in every directory in use, a page
of a process in the current one alone. -/
theorem run_memMapPage_walk (m : PhysicalMemory) (memHigh : Nat) {physicalAllocstart : Nat}
    (hbehind : Behind L physicalAllocstart) {calls : List PagingCall}
    (hcalls : Admissible (step L) (Ordered L)
      (Paging.initDirectories L m memHigh physicalAllocstart) calls)
    (hrun : runSteps (step L) (Paging.initDirectories L m memHigh physicalAllocstart) calls =
      some s)
    {D : Dir} (hD : s.InUse D) (hcurrent : s.cr3 = L.frame D) {virtAddr physAddr flags : Word}
    (hordinary : s.Ordinary L virtAddr) (hflags : PlainFlags flags)
    (hsupplied : TableSupplied L s virtAddr) :
    ∃ t, s.memMapPage L virtAddr physAddr flags = some t ∧ t.cr3 = s.cr3 ∧
      MapsPage L s t D virtAddr physAddr ∧
      (virtAddr ≥ kernelStart → ∀ D', s.InUse D' → MapsPage L s t D' virtAddr physAddr) ∧
      (virtAddr < kernelStart → ∀ D', s.InUse D' → D' ≠ D → ∀ w,
        walk t.memory (L.frame D') w = walk s.memory (L.frame D') w) := by
  have hs : Translating L s := runSteps_invariant (Translating L)
    (fun _ _ _ h henabled hcall => h.step henabled.1 henabled.2.1 henabled.2.2 hcall)
    (translating_initDirectories hbehind m memHigh) hcalls hrun
  obtain ⟨t, hcall⟩ := hsupplied.memMapPage physAddr flags
  obtain ⟨E, hE⟩ := hs.coherent.core.edits hordinary
  have hmapped := hs.mapped hordinary hE hflags hsupplied.granted hcall
  have hcr3 : t.cr3 = s.cr3 := by
    obtain ⟨F, m', pmm, -, rfl⟩ :=
      Paging.memMapPage_cases hs.coherent.core hE hflags.frameOf_eq hcall
    rfl
  have hpresent : Has (physAddr ||| pageFlagPresent ||| flags) pageFlagPresent := by
    have hbit : pageFlagPresent.getLsbD 0 = true := by decide
    rw [has_present, BitVec.getLsbD_or, BitVec.getLsbD_or, hbit]
    simp
  have hframe : frameOf (physAddr ||| pageFlagPresent ||| flags) = frameOf physAddr := by
    simp [frameOf_or, hflags.frameOf_eq]
  by_cases hkernel : virtAddr ≥ kernelStart
  · obtain rfl : E = .kernel := L.frame_injective (hE.frame.trans (if_pos hkernel))
    have hhigh := (kernelStart_le_iff virtAddr).mp hkernel
    have hall : ∀ D', s.InUse D' → MapsPage L s t D' virtAddr physAddr := fun D' hD' =>
      hmapped.mapsPage hpresent hframe hD' (if_neg (Nat.not_lt_of_le hhigh))
    exact ⟨t, hcall, hcr3, hall D hD, fun _ => hall,
      fun hlow => absurd hkernel (BitVec.not_le.mpr hlow)⟩
  · obtain rfl : E = D :=
      L.frame_injective (hE.frame.trans ((if_neg hkernel).trans hcurrent))
    have hlow : (pdIndex virtAddr).toNat < 768 := Nat.lt_of_not_le fun hhigh =>
      hkernel ((kernelStart_le_iff virtAddr).mpr hhigh)
    refine ⟨t, hcall, hcr3, hmapped.mapsPage hpresent hframe hD (if_pos hlow),
      fun hhigh => absurd hhigh hkernel, fun _ D' hD' hne => hmapped.walk_other hlow hD' hne⟩

/-- After `init_memory` there is a frame for another table. -/
theorem InitRound.supplied {start stop : Nat} (h : InitRound L start stop 8192 s)
    (hroom : start + 2048 < stop) (hstop : stop ≤ bitmapLength) (hstart : 0 < start)
    (virtAddr : Word) : TableSupplied L s virtAddr := by
  obtain ⟨addr, pmm, halloc, hne, -⟩ := h.roomy.alloc (by omega) hstop hstart
  exact Or.inr ⟨addr, pmm, halloc, hne⟩

theorem run_memMapPage_walk_boot :
    ∃ s t, runSteps (step exampleLayout)
        (Paging.initDirectories exampleLayout (fun _ _ => 0) 0x8000000 0x1000000) initCalls =
          some s ∧
      s.memMapPage exampleLayout 0x00400000 0x05000000 pageFlagUser = some t ∧
      MapsPage exampleLayout s t .kernel 0x00400000 0x05000000 := by
  obtain ⟨hordered, s, hrun, hround⟩ :=
    initMemory_ordered behind_exampleLayout ample_example fun _ _ => 0
  have hsupplied := hround.supplied ample_example.room ample_example.fits (by decide) 0x00400000
  have hwalk : ∃ t, s.memMapPage exampleLayout 0x00400000 0x05000000 pageFlagUser = some t ∧
      t.cr3 = s.cr3 ∧ MapsPage exampleLayout s t .kernel 0x00400000 0x05000000 ∧ _ ∧ _ :=
    run_memMapPage_walk (D := .kernel) _ _ behind_exampleLayout hordered hrun trivial
      hround.current ⟨by decide, fun _ => by decide⟩ (by decide) hsupplied
  obtain ⟨t, hcall, -, hmaps, -⟩ := hwalk
  exact ⟨s, t, hrun, hcall, hmaps⟩

/-- The first page that is mapped in a new table also shows that table in the window, so not
every other page is as before. -/
theorem not_walk_unchanged :
    ¬ ∀ (calls : List PagingCall) (s t : Paging) (D : Dir) (virtAddr physAddr flags w : Word),
      Admissible (step exampleLayout) (Ordered exampleLayout)
        (Paging.initDirectories exampleLayout (fun _ _ => 0) 0x8000000 0x1000000)
        (initCalls ++ calls) →
      runSteps (step exampleLayout)
        (Paging.initDirectories exampleLayout (fun _ _ => 0) 0x8000000 0x1000000)
        (initCalls ++ calls) = some s →
      s.InUse D → s.cr3 = exampleLayout.frame D → s.Ordinary exampleLayout virtAddr →
      PlainFlags flags → TableSupplied exampleLayout s virtAddr →
      s.memMapPage exampleLayout virtAddr physAddr flags = some t →
      w >>> 12 ≠ virtAddr >>> 12 →
        walk t.memory (exampleLayout.frame D) w = walk s.memory (exampleLayout.frame D) w := by
  intro hclaim
  obtain ⟨hordered, s, hrun, hround⟩ :=
    initMemory_ordered behind_exampleLayout ample_example fun _ _ => 0
  have hsupplied := hround.supplied ample_example.room ample_example.fits (by decide) 0x00400000
  have hordinary : s.Ordinary exampleLayout 0x00400000 := ⟨by decide, fun _ => by decide⟩
  have hflags : PlainFlags pageFlagUser := by decide
  obtain ⟨t, hcall⟩ := hsupplied.memMapPage 0x05000000 pageFlagUser
  have hsame := hclaim [] s t .kernel 0x00400000 0x05000000 pageFlagUser 0xFFC01000
    (by rwa [List.append_nil]) (by rwa [List.append_nil]) trivial hround.current hordinary hflags
    hsupplied hcall (by decide)
  have hedits : s.Edits exampleLayout 0x00400000 .kernel :=
    ⟨hround.current.symm.trans (if_neg (by decide)).symm, by decide, by decide⟩
  have hmapped := hround.translating.mapped hordinary hedits hflags hsupplied.granted hcall
  -- The window shows entry 1 of the directory, which was zero.
  have hindex : ptIndex 0xFFC01000 = 1 := by decide
  have hbefore : walk s.memory (exampleLayout.frame .kernel) 0xFFC01000 = none := by
    rw [walk_window (hmapped.before.core.sound.self .kernel (Or.inl trivial)) rfl, hindex]
    have hentry : s.memory (exampleLayout.frame .kernel) 1 = 0 :=
      hround.entries 1 ⟨by decide, by decide⟩ (Or.inl (by decide))
    rw [hentry]
    exact if_neg (by decide)
  have hafter : walk t.memory (exampleLayout.frame .kernel) 0xFFC01000 ≠ none := by
    rw [walk_window (hmapped.after.core.sound.self .kernel (Or.inl trivial)) rfl, hindex]
    have hpresent : Has (t.memory (exampleLayout.frame .kernel) 1) pageFlagPresent :=
      hmapped.present
    rw [if_pos hpresent]
    exact Option.some_ne_none _
  exact hafter (hsame.trans hbefore)

end PagingCall

end Senob.Memory
