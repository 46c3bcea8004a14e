import Senob.Memory.PagingRuns

/-!
# What the paging functions do to the allocator

They allocate and free frames, in whatever number, and touch the state of the allocator in no
other way. So what an allocation and a free keep is kept by every call, in every state.
-/

namespace Senob.Memory

open Senob.Foundation

variable {L : Layout} {s t : Paging}

namespace Paging

@[simp] theorem pmm_enter (s : Paging) (virtAddr : Word) : (s.enter L virtAddr).pmm = s.pmm := by
  rw [enter_eq]

@[simp] theorem pmm_leave (s : Paging) (virtAddr : Word) (prevPageDir : Frame) :
    (s.leave L virtAddr prevPageDir).pmm = s.pmm := by
  unfold leave
  by_cases hkernel : virtAddr ≥ kernelStart
  · rw [if_pos hkernel]
    split <;> rfl
  · rw [if_neg hkernel]

theorem pmm_setPage (s : Paging) (virtAddr entry count : Word) :
    (s.setPage virtAddr entry count).pmm = s.pmm := rfl

/-- A mapping takes a frame for a table, or none. -/
theorem pmm_memMapPage {virtAddr physAddr flags : Word}
    (hcall : s.memMapPage L virtAddr physAddr flags = some t) :
    t.pmm = s.pmm ∨ ∃ ptPaddr, s.pmm.allocPageframe = some (ptPaddr, t.pmm) := by
  unfold memMapPage at hcall
  obtain ⟨table, htable, hcall⟩ := Option.bind_eq_some_iff.mp hcall
  obtain rfl := Option.some.inj hcall
  rw [pmm_leave, ← pmm_enter (L := L) s virtAddr]
  unfold ensureTable allocTable at htable
  split at htable
  next hpresent =>
    obtain rfl := Option.some.inj htable
    exact Or.inl rfl
  next habsent =>
    obtain ⟨⟨ptPaddr, pmm⟩, halloc, htable⟩ := Option.bind_eq_some_iff.mp htable
    obtain rfl := Option.some.inj htable
    exact Or.inr ⟨ptPaddr, halloc⟩

theorem pmm_freeFrame {e : Word} (h : s.freeFrame e = some t) :
    ∃ addr, s.pmm.freePageframe addr = some t.pmm := by
  obtain ⟨pmm, hfree, h⟩ := Option.bind_eq_some_iff.mp h
  obtain rfl := Option.some.inj h
  exact ⟨_, hfree⟩

theorem pmm_memAllocPageDir : (s.memAllocPageDir L).2.pmm = s.pmm := by
  cases hresult : s.memAllocPageDir L with
  | mk result u =>
      rcases memAllocPageDir_cases hresult with ⟨-, rfl, -⟩ | ⟨i, -, -, rfl⟩
      · rfl
      · rfl

section Invariant

variable {P : Pmm → Prop}
  (hfree : ∀ p addr p', P p → p.freePageframe addr = some p' → P p')

include hfree in
theorem pmm_removeTable {virtAddr : Word} (h : P s.pmm) (hcall : s.removeTable virtAddr = some t) :
    P t.pmm := by
  simp only [removeTable] at hcall
  split at hcall
  next hremove =>
    obtain ⟨freed, hfreed, hcall⟩ := Option.bind_eq_some_iff.mp hcall
    obtain ⟨addr, haddr⟩ := pmm_freeFrame hfreed
    obtain rfl := Option.some.inj hcall
    exact hfree _ addr _ h haddr
  next hkept =>
    obtain rfl := Option.some.inj hcall
    exact h

include hfree in
theorem pmm_memUnmapPage {virtAddr pte : Word} (h : P s.pmm)
    (hcall : s.memUnmapPage L virtAddr = some (pte, t)) : P t.pmm := by
  have hentered : P (s.enter L virtAddr).pmm := by rwa [pmm_enter]
  simp only [memUnmapPage] at hcall
  split at hcall
  next habsent =>
    obtain ⟨-, rfl⟩ := Prod.mk.inj (Option.some.inj hcall)
    exact hentered
  next htable =>
    split at hcall
    next habsent =>
      obtain ⟨-, rfl⟩ := Prod.mk.inj (Option.some.inj hcall)
      exact hentered
    next hpage =>
      obtain ⟨removed, hremove, hcall⟩ := Option.bind_eq_some_iff.mp hcall
      rw [← pmm_setPage (s.enter L virtAddr) virtAddr 0 (-1)] at hentered
      have hremoved : P removed.pmm := pmm_removeTable hfree hentered hremove
      split at hcall
      next howner =>
        obtain ⟨freed, hfreed, hcall⟩ := Option.bind_eq_some_iff.mp hcall
        obtain ⟨addr, haddr⟩ := pmm_freeFrame hfreed
        obtain ⟨-, rfl⟩ := Prod.mk.inj (Option.some.inj hcall)
        rw [pmm_leave]
        exact hfree _ addr _ hremoved haddr
      next hforeign =>
        obtain ⟨-, rfl⟩ := Prod.mk.inj (Option.some.inj hcall)
        rwa [pmm_leave]

include hfree in
theorem pmm_freeTable {i : Index} (h : P s.pmm) (hcall : s.freeTable i = some t) : P t.pmm := by
  have hpages : ∀ u, s.freePages i = some u → P u.pmm := by
    intro u hu
    refine foldlM_range_invariant (fun (_ : Nat) (u : Paging) => P u.pmm) ?_ h hu
    intro j _ v w hv hw
    dsimp only at hw
    split at hw
    next howner =>
      obtain ⟨addr, haddr⟩ := pmm_freeFrame hw
      exact hfree _ addr _ hv haddr
    next hforeign => rwa [← Option.some.inj hw]
  simp only [freeTable] at hcall
  split at hcall
  next hzero =>
    obtain rfl := Option.some.inj hcall
    exact h
  next hentry =>
    obtain ⟨u, hu, hcall⟩ := Option.bind_eq_some_iff.mp hcall
    split at hcall
    next howner =>
      obtain ⟨freed, hfreed, hcall⟩ := Option.bind_eq_some_iff.mp hcall
      obtain ⟨addr, haddr⟩ := pmm_freeFrame hfreed
      obtain rfl := Option.some.inj hcall
      exact hfree _ addr _ (hpages u hu) haddr
    next hforeign =>
      obtain rfl := Option.some.inj hcall
      exact hpages u hu

include hfree in
theorem pmm_memFreePageDir {i : Fin 256} (h : P s.pmm) (hcall : s.memFreePageDir L i = some t) :
    P t.pmm := by
  unfold memFreePageDir at hcall
  obtain ⟨freed, hfreed, hcall⟩ := Option.bind_eq_some_iff.mp hcall
  obtain rfl := Option.some.inj hcall
  have hlast : P freed.pmm := by
    refine foldlM_range_invariant (fun (_ : Nat) (u : Paging) => P u.pmm) ?_ ?_ hfreed
    · exact fun j _ u v hu hv => pmm_freeTable hfree hu hv
    · exact h
  exact hlast

end Invariant

end Paging

namespace PagingCall

/-- What an allocation and a free keep. -/
theorem pmm_step {P : Pmm → Prop}
    (halloc : ∀ p addr p', P p → p.allocPageframe = some (addr, p') → P p')
    (hfree : ∀ p addr p', P p → p.freePageframe addr = some p' → P p') (h : P s.pmm)
    {call : PagingCall} (hcall : call.step L s = some t) : P t.pmm := by
  have hmap : ∀ (u : Paging) (virtAddr physAddr flags : Word), P u.pmm →
      u.memMapPage L virtAddr physAddr flags = some t → P t.pmm := by
    intro u virtAddr physAddr flags hu hcall
    rcases Paging.pmm_memMapPage hcall with hsame | ⟨ptPaddr, hlast⟩
    · rwa [hsame]
    · exact halloc _ ptPaddr _ hu hlast
  cases call with
  | memMapPage virtAddr physAddr flags => exact hmap s _ _ _ h hcall
  | mapNewFrame virtAddr flags =>
      obtain ⟨⟨physAddr, pmm⟩, hfirst, hcall⟩ := Option.bind_eq_some_iff.mp hcall
      exact hmap { s with pmm := pmm } _ _ _ (halloc _ physAddr _ h hfirst) hcall
  | memUnmapPage virtAddr =>
      obtain ⟨⟨pte, u⟩, hunmap, rfl⟩ := Option.map_eq_some_iff.mp hcall
      exact Paging.pmm_memUnmapPage hfree h hunmap
  | memAllocPageDir =>
      obtain rfl := Option.some.inj hcall
      rwa [Paging.pmm_memAllocPageDir]
  | memFreePageDir i => exact Paging.pmm_memFreePageDir hfree h hcall
  | memChangePageDirectory D =>
      obtain rfl := Option.some.inj hcall
      exact h

end PagingCall

end Senob.Memory
