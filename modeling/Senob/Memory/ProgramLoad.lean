import Senob.Memory.UserPages

/-!
# The loading of a program

`createUserProcess` of `process.c` with all that it does to memory: the calls of `kmalloc`, whose
heap may grow on the way, the mappings, and the copying of the file. FatFs is known by its
answers.
-/

namespace Senob.Memory

open Senob.Foundation

/-- What FatFs answers about the file, and how the volume answers the reads of it. -/
structure FatFile where
  /-- The size that `f_stat` reports when it returns `FR_OK`. -/
  stat : Option Word
  /-- `f_open` returns `FR_OK`. -/
  opens : Bool
  /-- What the calls of `f_read` deliver, one after another, when they return `FR_OK`. -/
  read : Nat → Option (List (BitVec 8))
  /-- `f_read` delivers no more than it is asked for. -/
  read_length : ∀ i bytes, read i = some bytes → bytes.length ≤ 4096

/-- The page lies in the kernel's half, outside the pages of 4 MiB and the window. -/
def KernelPage (w : Word) : Prop := w ≥ kernelStart ∧ w < 0xFFC00000 ∧ ¬ IsBoot (pdIndex w)

instance : DecidablePred KernelPage := fun _ => inferInstanceAs (Decidable (_ ∧ _ ∧ _))

/-- A call of `kmalloc`: what it returns, zero being the null pointer, and the pages by which
`heap_expand` makes the heap grow for it. -/
structure Kmalloc where
  address : Nat
  grown : List Word
  kernel : ∀ w ∈ grown, KernelPage w

/-- The four calls of `kmalloc` in `createUserProcess` and `createUserThread`. -/
structure ProcessBlocks where
  process : Kmalloc
  thread : Kmalloc
  regs : Kmalloc
  kernelStack : Kmalloc

/-- The flags in `heap_expand`. -/
def heapFlags : Word := pageFlagWrite ||| pageFlagPresent

namespace Paging

variable (L : Layout) (s : Paging)

/-- `*d = b` through the page directory that is current. `none` is a page fault. -/
def storeByte (d : Word) (b : BitVec 8) : Option Paging := do
  let f ← walk s.memory s.cr3 d
  return { s with memory := s.memory.setByte f d b }

/-- The byte that a process finds at the address. -/
def loadByte (dir : Frame) (virtAddr : Word) : Option (BitVec 8) :=
  (walk s.memory dir virtAddr).map fun f => s.memory.byte f virtAddr

/-- `memcpy`. -/
def memcpy (s : Paging) (dest : Word) : List (BitVec 8) → Option Paging
  | [] => some s
  | b :: src => do
      let s ← s.storeByte dest b
      s.memcpy (dest + 1) src

/-- The loop of `copyProgramToAddress` from round `i` on, with `left` rounds left. -/
def copyPages (s : Paging) (file : FatFile) (programAddress : Word) (i : Nat) :
    Nat → Option Paging
  | 0 => some s
  | left + 1 =>
      match file.read i with
      | none => some s
      | some buffer => do
          let s ← s.memcpy (programAddress + BitVec.ofNat 32 (i * 4096)) buffer
          s.copyPages file programAddress (i + 1) left

def copyProgramToAddress (file : FatFile) (pagesNeeded : Nat) (programAddress : Word) :
    Option Paging :=
  if file.opens then s.copyPages file programAddress 0 pagesNeeded else some s

def kmalloc (k : Kmalloc) : Option Paging :=
  k.grown.foldlM (fun s w => s.mapNewFrame L w heapFlags) s

/-- `kmalloc` and the first assignments to the structure. Under the directory of a process page
zero is not mapped, so the null pointer faults. -/
def newStructure (k : Kmalloc) : Option Paging := do
  let s ← s.kmalloc L k
  if k.address = 0 then none else return s

/-- `createUserThread`. -/
def createUserThreadOf (b : ProcessBlocks) : Option Paging := do
  let s ← s.newStructure L b.thread
  let s ← s.createUserThread L
  let s ← s.newStructure L b.regs
  s.kmalloc L b.kernelStack

/-- `createUserProcess`. Where the kernel's directory is current, it still maps page zero, and
the null pointer for the process faults only after the change of directories. -/
def createUserProcessOf (file : FatFile) (b : ProcessBlocks) : Option (Fin 256 × Paging) := do
  let s ← s.newStructure L b.process
  match s.memAllocPageDir L with
  | (none, _) => none
  | (some pageDirectory, s) => do
      let s := s.memChangePageDirectory (L.pageDir pageDirectory)
      let (pagesNeeded, s) ←
        s.mapMemoryForProgramm L (file.stat.map BitVec.toNat) programmVirtualAddressStart
      let s ← s.copyProgramToAddress file pagesNeeded programmVirtualAddressStart
      let s ← s.createUserThreadOf L b
      return (pageDirectory, s.memChangePageDirectory (L.pageDir pageDirectory))

end Paging

/-! ## Calls and stores -/

/-- The steps in which address spaces are made and filled. -/
inductive SpaceCall where
  | paging (call : PagingCall)
  | store (d : Word) (b : BitVec 8)

namespace SpaceCall

variable (L : Layout)

def step (s : Paging) : SpaceCall → Option Paging
  | paging call => call.step L s
  | store d b => s.storeByte d b

/-- Calls in a state where the allocator has the frames for them, and stores into the pages of
the process whose directory is current. -/
def Supplied (s : Paging) : SpaceCall → Prop
  | paging call => call.Supplied L s
  | store d _ => (∃ i, s.cr3 = L.pageDir i ∧ s.pageDirsUsed i = true) ∧ d < kernelStart

/-- The allocator has the frames that the step asks for. -/
def Stocked (s : Paging) : SpaceCall → Prop
  | paging call => call.Stocked L s
  | store _ _ => True

variable {L} {s t : Paging}

theorem runSteps_paging (calls : List PagingCall) (s : Paging) :
    runSteps (step L) s (calls.map paging) = runSteps (PagingCall.step L) s calls := by
  induction calls generalizing s with
  | nil => rfl
  | cons call rest ih =>
      rw [List.map_cons, runSteps_cons, runSteps_cons]
      exact congrArg _ (funext ih)

theorem admissible_paging {enabled : Paging → SpaceCall → Prop} {calls : List PagingCall} :
    Admissible (step L) enabled s (calls.map paging) ↔
      Admissible (PagingCall.step L) (fun s call => enabled s (paging call)) s calls := by
  induction calls generalizing s with
  | nil => exact .rfl
  | cons call rest ih =>
      refine and_congr_right fun _ => forall_congr' fun t => ?_
      exact imp_congr_right fun _ => ih

end SpaceCall

/-! ## The process as a run -/

def Kmalloc.calls (k : Kmalloc) : List PagingCall :=
  k.grown.map (PagingCall.mapNewFrame · heapFlags)

/-- No structure is the null pointer. The stack of the kernel is not written yet. -/
def ProcessBlocks.NonNull (b : ProcessBlocks) : Prop :=
  b.process.address ≠ 0 ∧ b.thread.address ≠ 0 ∧ b.regs.address ≠ 0

instance : DecidablePred ProcessBlocks.NonNull := fun _ => inferInstanceAs (Decidable (_ ∧ _ ∧ _))

namespace FatFile

/-- The result of `mapMemoryForProgramm`. -/
def pagesNeeded (file : FatFile) : Nat :=
  file.stat.elim 0 fun size => Pmm.ceilDiv size.toNat pageFrameSize

def copyStores (file : FatFile) (programAddress : Word) (i : Nat) : Nat → List SpaceCall
  | 0 => []
  | left + 1 =>
      match file.read i with
      | none => []
      | some buffer =>
          memcpyStores (programAddress + BitVec.ofNat 32 (i * 4096)) buffer ++
            copyStores file programAddress (i + 1) left
where
  /-- The stores of `memcpy`. -/
  memcpyStores (dest : Word) : List (BitVec 8) → List SpaceCall
    | [] => []
    | b :: src => .store dest b :: memcpyStores (dest + 1) src

/-- The stores of `copyProgramToAddress`. -/
def stores (file : FatFile) : List SpaceCall :=
  if file.opens then file.copyStores programmVirtualAddressStart 0 file.pagesNeeded else []

end FatFile

namespace SpaceCall

variable {L : Layout} {s t : Paging}

/-- `createUserProcess` up to the copying. -/
def mappingCalls (file : FatFile) (b : ProcessBlocks) (i : Fin 256) : List PagingCall :=
  b.process.calls ++ .memAllocPageDir :: .memChangePageDirectory (.user i) ::
    PagingCall.programCalls (file.stat.map BitVec.toNat)

/-- `createUserProcess` behind the copying. -/
def threadCalls (b : ProcessBlocks) (i : Fin 256) : List PagingCall :=
  b.thread.calls ++ (PagingCall.createUserThreadCalls ++
    (b.regs.calls ++ (b.kernelStack.calls ++ [.memChangePageDirectory (.user i)])))

def processCalls (file : FatFile) (b : ProcessBlocks) (i : Fin 256) : List SpaceCall :=
  (mappingCalls file b i).map paging ++ (file.stores ++ (threadCalls b i).map paging)

theorem kmalloc_eq_runSteps (k : Kmalloc) (s : Paging) :
    s.kmalloc L k = runSteps (PagingCall.step L) s k.calls := by
  unfold Kmalloc.calls
  rw [runSteps_map]
  rfl

theorem newStructure_eq_runSteps {k : Kmalloc} (hk : k.address ≠ 0) (s : Paging) :
    s.newStructure L k = runSteps (PagingCall.step L) s k.calls := by
  rw [← kmalloc_eq_runSteps, Paging.newStructure]
  simp only [if_neg hk]
  exact bind_pure _

theorem memcpy_eq_runSteps (dest : Word) (src : List (BitVec 8)) (s : Paging) :
    s.memcpy dest src = runSteps (step L) s (FatFile.copyStores.memcpyStores dest src) := by
  induction src generalizing s dest with
  | nil => rfl
  | cons b rest ih => exact congrArg _ (funext fun t => ih (dest + 1) t)

theorem copyPages_eq_runSteps (file : FatFile) (programAddress : Word) (i left : Nat)
    (s : Paging) : s.copyPages file programAddress i left =
      runSteps (step L) s (file.copyStores programAddress i left) := by
  induction left generalizing s i with
  | zero => rfl
  | succ left ih =>
      rw [Paging.copyPages, FatFile.copyStores]
      cases file.read i with
      | none => rfl
      | some buffer =>
          dsimp only
          rw [runSteps_append, ← memcpy_eq_runSteps]
          exact congrArg _ (funext fun t => ih (i + 1) t)

theorem copyProgramToAddress_eq_runSteps (file : FatFile) (s : Paging) :
    s.copyProgramToAddress file file.pagesNeeded programmVirtualAddressStart =
      runSteps (step L) s file.stores := by
  unfold Paging.copyProgramToAddress FatFile.stores
  split
  · exact copyPages_eq_runSteps file _ 0 _ s
  · rfl

theorem mapMemoryForProgramm_eq (file : FatFile) (s : Paging) :
    s.mapMemoryForProgramm L (file.stat.map BitVec.toNat) programmVirtualAddressStart =
      (runSteps (PagingCall.step L) s
        (PagingCall.programCalls (file.stat.map BitVec.toNat))).map
          fun t => (file.pagesNeeded, t) := by
  unfold FatFile.pagesNeeded
  rw [← PagingCall.mapMemoryForProgramm_eq_runSteps]
  cases file.stat with
  | none => rfl
  | some size =>
      simp only [Paging.mapMemoryForProgramm, Option.map_some, Option.elim_some]
      cases s.mapPages L programmVirtualAddressStart
        (Pmm.ceilDiv size.toNat pageFrameSize + 256) <;> rfl

theorem createUserThreadOf_eq_runSteps {b : ProcessBlocks}
    (hb : b.thread.address ≠ 0 ∧ b.regs.address ≠ 0) (i : Fin 256) (s : Paging) :
    ((s.createUserThreadOf L b).map fun s => s.memChangePageDirectory (L.pageDir i)) =
      runSteps (PagingCall.step L) s (threadCalls b i) := by
  unfold threadCalls Paging.createUserThreadOf
  simp only [runSteps_append, newStructure_eq_runSteps hb.1, newStructure_eq_runSteps hb.2,
    PagingCall.createUserThread_eq_runSteps, kmalloc_eq_runSteps, Option.bind_eq_bind]
  cases runSteps (PagingCall.step L) s b.thread.calls with
  | none => simp only [Option.bind_none, Option.map_none]
  | some s₁ =>
      rw [Option.bind_some, Option.bind_some]
      cases runSteps (PagingCall.step L) s₁ PagingCall.createUserThreadCalls with
      | none => simp only [Option.bind_none, Option.map_none]
      | some s₂ =>
          rw [Option.bind_some, Option.bind_some]
          cases runSteps (PagingCall.step L) s₂ b.regs.calls with
          | none => simp only [Option.bind_none, Option.map_none]
          | some s₃ =>
              rw [Option.bind_some, Option.bind_some]
              cases runSteps (PagingCall.step L) s₃ b.kernelStack.calls with
              | none => simp only [Option.bind_none, Option.map_none]
              | some s₄ => rfl

/-- `createUserProcess` is a run of calls and stores. -/
theorem createUserProcessOf_eq_runSteps {file : FatFile} {b : ProcessBlocks} (hb : b.NonNull)
    {i : Fin 256}
    (hdir : ∀ t, s.kmalloc L b.process = some t → (t.memAllocPageDir L).1 = some i) :
    s.createUserProcessOf L file b =
      (runSteps (step L) s (processCalls file b i)).map fun t => (i, t) := by
  unfold processCalls mappingCalls Paging.createUserProcessOf
  rw [runSteps_append, runSteps_paging, runSteps_append, newStructure_eq_runSteps hb.1,
    ← kmalloc_eq_runSteps]
  cases hprocess : s.kmalloc L b.process with
  | none => simp only [Option.bind_eq_bind, Option.bind_none, Option.map_none]
  | some s₁ =>
      have hi := hdir s₁ hprocess
      cases hresult : s₁.memAllocPageDir L with
      | mk result s₂ =>
          rw [hresult] at hi
          obtain rfl : result = some i := hi
          have hstep : PagingCall.step L s₁ .memAllocPageDir = some s₂ :=
            congrArg (fun x : Option (Fin 256) × Paging => some x.2) hresult
          have hchange : PagingCall.step L s₂ (.memChangePageDirectory (.user i)) =
              some (s₂.memChangePageDirectory (L.pageDir i)) := rfl
          simp only [Option.bind_eq_bind, Option.bind_some, hresult]
          rw [runSteps_cons, hstep, Option.bind_some, runSteps_cons, hchange, Option.bind_some,
            mapMemoryForProgramm_eq]
          cases runSteps (PagingCall.step L) (s₂.memChangePageDirectory (L.pageDir i))
              (PagingCall.programCalls (file.stat.map BitVec.toNat)) with
          | none => simp only [Option.map_none, Option.bind_none]
          | some s₃ =>
              simp only [Option.map_some, Option.bind_some]
              rw [copyProgramToAddress_eq_runSteps, runSteps_append]
              cases runSteps (step L) s₃ file.stores with
              | none => simp only [Option.bind_none, Option.map_none]
              | some s₄ =>
                  rw [Option.bind_some, Option.bind_some, runSteps_paging,
                    ← createUserThreadOf_eq_runSteps hb.2]
                  cases s₄.createUserThreadOf L b with
                  | none => simp only [Option.bind_none, Option.map_none]
                  | some s₅ => rfl

end SpaceCall

end Senob.Memory
