import Senob.Memory.PagingRuns

/-!
# Unmapping what is not mapped

For an address of the kernel `mem_unmap_page` enters the kernel's directory first. Its two
early returns do not go back to the directory that was current.
-/

namespace Senob.Memory

namespace Paging

variable {L : Layout} {s t : Paging}

variable (L) in
/-- What `mem_unmap_page` looks for: the table and the page are present. -/
def Finds (s : Paging) (virtAddr : Word) : Prop :=
  Has ((s.enter L virtAddr).memory (s.enter L virtAddr).recPageDir (pdIndex virtAddr))
      pageFlagPresent ∧
    Has ((s.enter L virtAddr).memory ((s.enter L virtAddr).recPageTable (pdIndex virtAddr))
      (ptIndex virtAddr)) pageFlagPresent

instance (s : Paging) (virtAddr : Word) : Decidable (s.Finds L virtAddr) :=
  inferInstanceAs (Decidable (_ ∧ _))

theorem setPage_cr3 (s : Paging) (virtAddr entry count : Word) :
    (s.setPage virtAddr entry count).cr3 = s.cr3 := rfl

theorem removeTable_cr3 {virtAddr : Word} (h : s.removeTable virtAddr = some t) :
    t.cr3 = s.cr3 := by
  simp only [removeTable] at h
  split at h
  next hremove =>
    obtain ⟨freed, hfree, h⟩ := Option.bind_eq_some_iff.mp h
    obtain ⟨-, rfl⟩ := freeFrame_cases hfree
    obtain rfl := Option.some.inj h
    rfl
  next hkept =>
    obtain rfl := Option.some.inj h
    rfl

/-- Where it finds a page, `mem_unmap_page` goes back and returns the entry. -/
theorem memUnmapPage_of_finds {virtAddr pte : Word} (hfinds : s.Finds L virtAddr)
    (hcall : s.memUnmapPage L virtAddr = some (pte, t)) : t.cr3 = s.cr3 ∧ pte ≠ 0 := by
  obtain ⟨htable, hpage⟩ := hfinds
  have hleave : ∀ u : Paging, u.cr3 = (s.enter L virtAddr).cr3 →
      (u.leave L virtAddr s.cr3).cr3 = s.cr3 := by
    intro u hu
    rw [enter_eq] at hu
    rw [leave_eq hu]
  simp only [memUnmapPage] at hcall
  rw [if_neg (not_not.mpr htable), if_neg (not_not.mpr hpage)] at hcall
  obtain ⟨removed, hremove, hcall⟩ := Option.bind_eq_some_iff.mp hcall
  have hremoved := (removeTable_cr3 hremove).trans (setPage_cr3 _ _ _ _)
  have hne : ∀ e : Word, Has e pageFlagPresent → e ≠ 0 := by
    rintro e he rfl
    exact he BitVec.zero_and
  split at hcall
  next howner =>
    obtain ⟨freed, hfree, hcall⟩ := Option.bind_eq_some_iff.mp hcall
    obtain ⟨-, rfl⟩ := freeFrame_cases hfree
    obtain ⟨rfl, rfl⟩ := Prod.mk.inj (Option.some.inj hcall)
    exact ⟨hleave _ hremoved, hne _ hpage⟩
  next hforeign =>
    obtain ⟨rfl, rfl⟩ := Prod.mk.inj (Option.some.inj hcall)
    exact ⟨hleave _ hremoved, hne _ hpage⟩

/-- Where it finds none, it returns zero in the directory that it has entered. -/
theorem memUnmapPage_of_not_finds {virtAddr : Word} (hfinds : ¬ s.Finds L virtAddr) :
    s.memUnmapPage L virtAddr = some (0, s.enter L virtAddr) := by
  unfold memUnmapPage
  by_cases htable : Has ((s.enter L virtAddr).memory (s.enter L virtAddr).recPageDir
      (pdIndex virtAddr)) pageFlagPresent
  · rw [if_neg (not_not.mpr htable), if_pos fun hpage => hfinds ⟨htable, hpage⟩]
  · rw [if_pos htable]

theorem enter_eq_self_iff {virtAddr : Word} :
    (s.enter L virtAddr).cr3 = s.cr3 ↔ virtAddr < kernelStart ∨ s.cr3 = L.kernelDirectory := by
  rw [enter_eq]
  by_cases hkernel : virtAddr ≥ kernelStart
  · simp only [if_pos hkernel, BitVec.not_lt.mpr hkernel, false_or, eq_comm]
  · simp only [if_neg hkernel, BitVec.not_le.mp hkernel, true_or]

/-- `mem_unmap_page` returns in the directory that it was called in, and without an effect if
it returns zero, exactly for user addresses, in the kernel's directory and where it finds a
page. -/
theorem memUnmapPage_clean_iff {virtAddr pte : Word}
    (hcall : s.memUnmapPage L virtAddr = some (pte, t)) :
    t.cr3 = s.cr3 ∧ (pte = 0 → t = s) ↔
      virtAddr < kernelStart ∨ s.cr3 = L.kernelDirectory ∨ s.Finds L virtAddr := by
  rw [← or_assoc, ← enter_eq_self_iff]
  by_cases hfinds : s.Finds L virtAddr
  · obtain ⟨hcr3, hpte⟩ := memUnmapPage_of_finds hfinds hcall
    exact iff_of_true ⟨hcr3, fun hzero => absurd hzero hpte⟩ (Or.inr hfinds)
  · rw [memUnmapPage_of_not_finds hfinds] at hcall
    obtain ⟨rfl, rfl⟩ := Prod.mk.inj (Option.some.inj hcall)
    rw [or_iff_left hfinds]
    refine ⟨And.left, fun hcr3 => ⟨hcr3, fun _ => ?_⟩⟩
    rw [enter_eq] at hcr3 ⊢
    exact congrArg (fun dir => { s with cr3 := dir }) hcr3

theorem memUnmapPage_clean_boot :
    let s := initDirectories PagingCall.exampleLayout (fun _ _ => 0) 0x8000000 0x1000000
    ∃ pte t, s.memUnmapPage PagingCall.exampleLayout 0xD0000000 = some (pte, t) ∧
      t.cr3 = s.cr3 ∧ (pte = 0 → t = s) := by
  intro s
  have hfinds : ¬ s.Finds PagingCall.exampleLayout 0xD0000000 := by decide +kernel
  have hcall := memUnmapPage_of_not_finds hfinds
  exact ⟨_, _, hcall, (memUnmapPage_clean_iff hcall).mpr (Or.inr (Or.inl rfl))⟩

/-- In the directory of a process, a page of the heap that is not mapped is unmapped. -/
theorem not_memUnmapPage_clean :
    ¬ ∀ (L : Layout) (s t : Paging) (virtAddr pte : Word),
      s.memUnmapPage L virtAddr = some (pte, t) → t.cr3 = s.cr3 ∧ (pte = 0 → t = s) := by
  intro hclean
  let L := PagingCall.exampleLayout
  let s := ((initDirectories L (fun _ _ => 0) 0x8000000 0x1000000).memAllocPageDir
    L).2.memChangePageDirectory (L.pageDir 0)
  have hfinds : ¬ s.Finds L 0xD0000000 := by decide +kernel
  have hcr3 := (hclean L s _ _ _ (memUnmapPage_of_not_finds hfinds)).1
  rw [enter_eq_self_iff] at hcr3
  rcases hcr3 with hlow | hkernel
  · exact absurd hlow (by decide)
  · exact absurd hkernel (L.pageDir_ne_kernelDirectory 0)

end Paging

end Senob.Memory
