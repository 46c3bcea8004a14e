import Senob.Memory.PagingIsolation

/-!
# The address spaces of user processes

What `createUserProcess` and `createUserThread` of `process.c` map. The structures that they
allocate for themselves come from the kernel's heap, whose mappings are calls of their own.
-/

namespace Senob.Memory

open Senob.Foundation

def userFlags : Word := pageFlagPresent ||| pageFlagWrite ||| pageFlagUser

def userStackTop : Word := 0xB0000000

def programmVirtualAddressStart : Word := 0x00400000

namespace Paging

variable (L : Layout) (s : Paging)

/-- The loop that maps `pages` pages from `start` on, each with a frame of its own. -/
def mapPages (start : Word) (pages : Nat) : Option Paging :=
  (List.range pages).foldlM
    (fun s i => s.mapNewFrame L (start + BitVec.ofNat 32 (i * 4096)) userFlags) s

/-- `mapMemoryForProgramm` for a file of the given size, or for one that `f_stat` does not
find. -/
def mapMemoryForProgramm (fileSize : Option Nat) (programAddress : Word) : Option (Nat × Paging) :=
  match fileSize with
  | none => some (0, s)
  | some fileSize => do
      let pagesNeeded := Pmm.ceilDiv fileSize pageFrameSize
      let s ← s.mapPages L programAddress (pagesNeeded + 256)
      return (pagesNeeded, s)

/-- The stack and the heap that `createUserThread` maps. -/
def createUserThread : Option Paging := do
  let stackPages := 100
  let s ← s.mapPages L (userStackTop - 4096 * 100) stackPages
  s.mapPages L 0x00800000 4096

/-- `createUserProcess`, with the index of its page directory. Without a directory that is not
in use, it loads the null pointer, which is not modelled. -/
def createUserProcess (fileSize : Option Nat) : Option (Fin 256 × Paging) :=
  match s.memAllocPageDir L with
  | (none, _) => none
  | (some pageDirectory, s) => do
      let s := s.memChangePageDirectory (L.pageDir pageDirectory)
      let (_, s) ← s.mapMemoryForProgramm L fileSize programmVirtualAddressStart
      let s ← s.createUserThread L
      return (pageDirectory, s.memChangePageDirectory (L.pageDir pageDirectory))

end Paging

namespace PagingCall

variable {L : Layout} {s t : Paging}

/-! ## The calls -/

@[irreducible]
def mapPagesCalls (start : Word) (pages : Nat) : List PagingCall :=
  (List.range pages).map fun i => mapNewFrame (start + BitVec.ofNat 32 (i * 4096)) userFlags

def programCalls (fileSize : Option Nat) : List PagingCall :=
  match fileSize with
  | none => []
  | some fileSize =>
      mapPagesCalls programmVirtualAddressStart (Pmm.ceilDiv fileSize pageFrameSize + 256)

@[irreducible]
def createUserThreadCalls : List PagingCall :=
  mapPagesCalls (userStackTop - 4096 * 100) 100 ++ mapPagesCalls 0x00800000 4096

def createUserProcessCalls (fileSize : Option Nat) (i : Fin 256) : List PagingCall :=
  memAllocPageDir :: memChangePageDirectory (.user i) ::
    (programCalls fileSize ++ (createUserThreadCalls ++ [memChangePageDirectory (.user i)]))

theorem mapPages_eq_runSteps (start : Word) (pages : Nat) :
    s.mapPages L start pages = runSteps (step L) s (mapPagesCalls start pages) := by
  unfold mapPagesCalls
  rw [runSteps_map]
  rfl

theorem mapMemoryForProgramm_eq_runSteps (fileSize : Option Nat) :
    (s.mapMemoryForProgramm L fileSize programmVirtualAddressStart).map Prod.snd =
      runSteps (step L) s (programCalls fileSize) := by
  cases fileSize with
  | none => rfl
  | some fileSize =>
      simp only [Paging.mapMemoryForProgramm, programCalls, mapPages_eq_runSteps]
      cases runSteps (step L) s
        (mapPagesCalls programmVirtualAddressStart (Pmm.ceilDiv fileSize pageFrameSize + 256)) <;>
        rfl

theorem createUserThread_eq_runSteps :
    s.createUserThread L = runSteps (step L) s createUserThreadCalls := by
  unfold createUserThreadCalls Paging.createUserThread
  rw [runSteps_append]
  simp only [mapPages_eq_runSteps]
  rfl

/-- `createUserProcess` is a run of calls. -/
theorem createUserProcess_eq_runSteps {fileSize : Option Nat} {i : Fin 256}
    (halloc : (s.memAllocPageDir L).1 = some i) :
    (s.createUserProcess L fileSize).map Prod.snd =
      runSteps (step L) s (createUserProcessCalls fileSize i) := by
  have hstep : step L s memAllocPageDir = some (s.memAllocPageDir L).2 := rfl
  unfold createUserProcessCalls
  rw [runSteps_cons, hstep, Option.bind_some, runSteps_cons, Paging.createUserProcess]
  cases hresult : s.memAllocPageDir L with
  | mk result u =>
      rw [hresult] at halloc
      obtain rfl : result = some i := halloc
      have hchange : ∀ v, step L v (memChangePageDirectory (.user i)) =
          some (v.memChangePageDirectory (L.pageDir i)) := fun v => rfl
      dsimp only
      rw [hchange, Option.bind_some, runSteps_append, ← mapMemoryForProgramm_eq_runSteps]
      cases (u.memChangePageDirectory (L.pageDir i)).mapMemoryForProgramm L fileSize
          programmVirtualAddressStart with
      | none => simp only [Option.bind_eq_bind, Option.bind_none, Option.map_none]
      | some mapped =>
          rw [Option.bind_eq_bind, Option.bind_some, Option.map_some, Option.bind_some,
            runSteps_append, createUserThread_eq_runSteps]
          cases runSteps (step L) mapped.2 createUserThreadCalls with
          | none => simp only [Option.bind_eq_bind, Option.bind_none, Option.map_none]
          | some thread =>
              rw [Option.bind_eq_bind, Option.bind_some, Option.bind_some, runSteps_cons, hchange]
              simp only [Option.bind_some, runSteps_nil, Option.pure_def, Option.map_some]

/-! ## Their pages -/

/-- A user's directory is current. -/
structure InSpace (L : Layout) (i : Fin 256) (s : Paging) : Prop where
  core : s.Core L
  current : s.cr3 = L.pageDir i
  inUse : s.pageDirsUsed i = true

theorem InSpace.ordinary {i : Fin 256} (h : InSpace L i s) {virtAddr : Word}
    (hlow : virtAddr < kernelStart) : s.Ordinary L virtAddr := by
  have hwindow : virtAddr < 0xFFC00000 := by
    rw [BitVec.lt_def] at hlow ⊢
    exact lt_of_lt_of_le hlow (by decide)
  refine ⟨hwindow, ?_⟩
  rintro (hhigh | hkernel)
  · exact absurd hhigh (BitVec.not_le.mpr hlow)
  · exact absurd (h.current.symm.trans hkernel) (L.pageDir_ne_kernelDirectory i)

variable (L) in
/-- The calls of the runs in which address spaces are isolated, as far as it lies with the
caller. -/
def Proper (s : Paging) (call : PagingCall) : Prop := call.Enabled L s ∧ call.Allocates

/-- A page of the user's half is mapped by a proper call, which leaves the directory current. -/
theorem InSpace.mapNewFrame {i : Fin 256} (h : InSpace L i s) {virtAddr flags : Word}
    (hlow : virtAddr < kernelStart) (hflags : PlainFlags flags)
    (hcall : step L s (mapNewFrame virtAddr flags) = some t) : InSpace L i t := by
  have hordinary := h.ordinary hlow
  obtain ⟨⟨physAddr, pmm⟩, halloc, hmap⟩ := Option.bind_eq_some_iff.mp hcall
  have hcore := h.core.of_pmm (Paging.startByte_allocPageframe halloc)
  obtain ⟨D, hD⟩ := hcore.edits hordinary
  obtain ⟨F, m, pmm', hstep, rfl⟩ := Paging.memMapPage_cases hcore hD hflags.frameOf_eq hmap
  exact ⟨h.core.mapNewFrame hordinary hflags.frameOf_eq hcall, h.current, h.inUse⟩

theorem plainFlags_userFlags : PlainFlags userFlags := by decide

/-- The pages end below `KERNEL_START`. -/
def BelowKernel (start : Word) (pages : Nat) : Prop := start.toNat + pages * 4096 ≤ 0xC0000000

theorem BelowKernel.page {start : Word} {pages i : Nat} (hfit : BelowKernel start pages)
    (hi : i < pages) : start + BitVec.ofNat 32 (i * 4096) < kernelStart := by
  unfold BelowKernel at hfit
  rw [BitVec.lt_def, BitVec.toNat_add, BitVec.toNat_ofNat,
    show kernelStart.toNat = 0xC0000000 from rfl]
  omega

/-- Pages below `KERNEL_START` are mapped by proper calls. -/
theorem proper_mapPagesCalls {i : Fin 256} (h : InSpace L i s) {start : Word} {pages : Nat}
    (hfit : BelowKernel start pages) :
    Admissible (step L) (Proper L) s (mapPagesCalls start pages) := by
  refine Admissible.of_invariant (InSpace L i) (fun call hcall s h => ?_)
    (fun call hcall s t h hstep => ?_) h
  · unfold mapPagesCalls at hcall
    obtain ⟨j, hj, rfl⟩ := List.mem_map.mp hcall
    have hlow := hfit.page (List.mem_range.mp hj)
    exact ⟨⟨h.ordinary hlow, plainFlags_userFlags.frameOf_eq⟩, plainFlags_userFlags⟩
  · unfold mapPagesCalls at hcall
    obtain ⟨j, hj, rfl⟩ := List.mem_map.mp hcall
    exact h.mapNewFrame (hfit.page (List.mem_range.mp hj)) plainFlags_userFlags hstep

theorem InSpace.mapPages {i : Fin 256} (h : InSpace L i s) {start : Word} {pages : Nat}
    (hfit : BelowKernel start pages)
    (hrun : runSteps (step L) s (mapPagesCalls start pages) = some t) : InSpace L i t := by
  refine runSteps_of_mem (InSpace L i) (fun call hcall s t h hstep => ?_) h hrun
  unfold mapPagesCalls at hcall
  obtain ⟨j, hj, rfl⟩ := List.mem_map.mp hcall
  exact h.mapNewFrame (hfit.page (List.mem_range.mp hj)) plainFlags_userFlags hstep

theorem belowKernel_stack : BelowKernel (userStackTop - 4096 * 100) 100 := by
  unfold BelowKernel
  decide

theorem belowKernel_heap : BelowKernel 0x00800000 4096 := by
  unfold BelowKernel
  decide

theorem belowKernel_program {pages : Nat} (hpages : pages ≤ 785408) :
    BelowKernel programmVirtualAddressStart pages := by
  have hstart : programmVirtualAddressStart.toNat = 0x00400000 := rfl
  unfold BelowKernel
  omega

/-- The mappings of `createUserThread` are proper calls. -/
theorem proper_createUserThreadCalls {i : Fin 256} (h : InSpace L i s) :
    Admissible (step L) (Proper L) s createUserThreadCalls := by
  unfold createUserThreadCalls
  exact (proper_mapPagesCalls h belowKernel_stack).append fun t ht =>
    proper_mapPagesCalls (h.mapPages belowKernel_stack ht) belowKernel_heap

/-- The mappings of `createUserProcess` are proper calls, if the program ends below
`KERNEL_START`. -/
theorem proper_createUserProcessCalls (hcore : s.Core L) {fileSize : Option Nat} {i : Fin 256}
    (halloc : (s.memAllocPageDir L).1 = some i)
    (hsize : ∀ size ∈ fileSize, Pmm.ceilDiv size pageFrameSize + 256 ≤ 785408) :
    Admissible (step L) (Proper L) s (createUserProcessCalls fileSize i) := by
  have hused : (s.memAllocPageDir L).2.pageDirsUsed i = true := by
    cases hresult : s.memAllocPageDir L with
    | mk result u =>
        rw [hresult] at halloc
        rcases Paging.memAllocPageDir_cases hresult with ⟨rfl, -, -⟩ | ⟨j, rfl, -, rfl⟩
        · exact nomatch halloc
        · obtain rfl := Option.some.inj halloc
          exact Function.update_self ..
  unfold createUserProcessCalls
  refine ⟨⟨trivial, trivial⟩, fun u hu => ⟨⟨?_, trivial⟩, fun v hv => ?_⟩⟩
  · obtain rfl := Option.some.inj hu
    exact hused
  obtain rfl := Option.some.inj hu
  obtain rfl := Option.some.inj hv
  have hspace : InSpace L i ((s.memAllocPageDir L).2.memChangePageDirectory (L.pageDir i)) :=
    ⟨(hcore.memAllocPageDir rfl).memChangePageDirectory (D := .user i) hused, rfl, hused⟩
  have hprogram : Admissible (step L) (Proper L)
        ((s.memAllocPageDir L).2.memChangePageDirectory (L.pageDir i)) (programCalls fileSize) ∧
      ∀ t, runSteps (step L)
        ((s.memAllocPageDir L).2.memChangePageDirectory (L.pageDir i)) (programCalls fileSize) =
          some t → InSpace L i t := by
    cases fileSize with
    | none => exact ⟨trivial, fun t ht => Option.some.inj ht ▸ hspace⟩
    | some size =>
        have hfit := belowKernel_program (hsize size rfl)
        exact ⟨proper_mapPagesCalls hspace hfit, fun t ht => hspace.mapPages hfit ht⟩
  refine hprogram.1.append fun t ht => ?_
  have hthread := hprogram.2 t ht
  refine (proper_createUserThreadCalls hthread).append
    fun w hw => ⟨⟨?_, trivial⟩, fun _ _ => trivial⟩
  unfold createUserThreadCalls at hw
  rw [runSteps_append] at hw
  obtain ⟨w', hstack, hheap⟩ := Option.bind_eq_some_iff.mp hw
  exact ((hthread.mapPages belowKernel_stack hstack).mapPages belowKernel_heap hheap).inUse

end PagingCall

end Senob.Memory
