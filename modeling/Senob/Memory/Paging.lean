import Senob.Memory.Pmm

/-!
# Paging

`paging.c` over the physical memory, frame by frame. The functions reach the current page
directory and its tables through the recursive window at `0xFFC00000`, which is translated
here by the same two steps that the processor takes. The page directories themselves belong
to the image of the kernel and are also written directly.

Translations are taken to be coherent: there is no TLB, and every access sees the tables as they
are. The operand of `invlpg` in `invalidate` is the stack slot of its parameter, so a processor
may go on with an entry that the functions have changed. The assembly in
`mem_change_page_directory` is taken to leave the other registers alone, as the compiler is told;
it changes `eax`, and a compiler that keeps a value there lets `mem_free_page_dir` clear another
byte of `pageDirsUsed`.
-/

namespace Senob.Memory

abbrev Word := BitVec 32

/-- The number of a physical frame of 4096 bytes. -/
abbrev Frame := BitVec 20

/-- The index of an entry in a page directory or in a page table. -/
abbrev Index := BitVec 10

/-- The physical memory as 1024 words for each frame. -/
abbrev PhysicalMemory := Frame → Index → Word

namespace PhysicalMemory

def write (m : PhysicalMemory) (f : Frame) (i : Index) (e : Word) : PhysicalMemory :=
  fun f' i' => if f' = f ∧ i' = i then e else m f' i'

/-- `memset` of a whole frame, or a loop that clears its entries. -/
def zero (m : PhysicalMemory) (f : Frame) : PhysicalMemory :=
  fun f' i => if f' = f then 0 else m f' i

end PhysicalMemory

/-! ## Entries and addresses -/

def pageFlagPresent : Word := 1 <<< 0

def pageFlagWrite : Word := 1 <<< 1

def pageFlagUser : Word := 1 <<< 2

def pageFlag4MB : Word := 1 <<< 7

/-- The kernel is in charge of the frame. -/
def pageFlagOwner : Word := 1 <<< 9

def kernelStart : Word := 0xC0000000

/-- The test `e & flag`. -/
def Has (e flag : Word) : Prop := e &&& flag ≠ 0

instance (e flag : Word) : Decidable (Has e flag) := inferInstanceAs (Decidable (_ ≠ _))

/-- `P_PHYS_ADDR`. -/
def pPhysAddr (x : Word) : Word := x &&& ~~~0xFFF

/-- The frame that an entry, or an address, refers to. -/
def frameOf (x : Word) : Frame := (x >>> 12).setWidth 20

/-- The physical address of a frame. -/
def frameAddress (f : Frame) : Word := f.setWidth 32 <<< 12

def pdIndex (virtAddr : Word) : Index := (virtAddr >>> 22).setWidth 10

def ptIndex (virtAddr : Word) : Index := (virtAddr >>> 12 &&& 0x3FF).setWidth 10

/-- The entry by which a page directory maps itself. -/
def selfEntry (dir : Frame) : Word := frameAddress dir ||| pageFlagPresent ||| pageFlagWrite

/-- The entries that `boot.s` fills with pages of 4 MiB. -/
def IsBoot (i : Index) : Prop := i = 0 ∨ (768 ≤ i.toNat ∧ i.toNat < 780) ∨ i = 896

instance : DecidablePred IsBoot := fun _ => inferInstanceAs (Decidable (_ ∨ _))

/-- `kernel_directory` as `boot.s` lays it out. -/
def bootDirectory (i : Index) : Word :=
  if i = 0 then 0x00000083
  else if 768 ≤ i.toNat ∧ i.toNat < 780 then
    BitVec.ofNat 32 ((i.toNat - 768) * 0x400000) ||| 0x83
  else if i = 896 then 0xFD000083
  else 0

/-- Where the linker puts the page directories, by their physical frames. -/
structure Layout where
  kernelDirectory : Frame
  /-- The first frame of the array `pageDirs`. -/
  pageDirs : Frame
  kernelDirectory_pos : 0 < kernelDirectory.toNat
  pageDirs_pos : 0 < pageDirs.toNat
  pageDirs_fit : pageDirs.toNat + 256 ≤ 2 ^ 20
  apart : kernelDirectory.toNat < pageDirs.toNat ∨
    pageDirs.toNat + 256 ≤ kernelDirectory.toNat

/-- `pageDirs[i]`. -/
def Layout.pageDir (L : Layout) (i : Fin 256) : Frame := L.pageDirs + BitVec.ofNat 20 i

/-- The physical memory, the register CR3 as a frame, and the variables of `paging.c` and
`pmm.c`. -/
structure Paging where
  memory : PhysicalMemory
  cr3 : Frame
  pageDirsUsed : Fin 256 → Bool
  memNumVpages : Word
  pmm : Pmm

namespace Paging

variable (L : Layout) (s : Paging)

/-- The frame that `REC_PAGETABLE(i)` shows under the current directory. -/
def recPageTable (i : Index) : Frame := frameOf (s.memory (frameOf (s.memory s.cr3 1023)) i)

/-- `REC_PAGEDIR`, which is the last page of the window. -/
def recPageDir : Frame := s.recPageTable 1023

def memChangePageDirectory (pd : Frame) : Paging := { s with cr3 := pd }

/-- The inner loop of `mem_alloc_page_dir` and `sync_page_dirs`: entries 768 to 1022 of the
kernel's directory, without the ownership of their tables. -/
def copyKernelHalf (m : PhysicalMemory) (dir : Frame) : PhysicalMemory := fun f i =>
  if f = dir ∧ 768 ≤ i.toNat ∧ i.toNat < 1023 then m L.kernelDirectory i &&& ~~~pageFlagOwner
  else m f i

/-- The loop of `sync_page_dirs` over the directories in use. -/
def syncKernelHalves (used : Fin 256 → Bool) (m : PhysicalMemory) : PhysicalMemory :=
  (List.finRange 256).foldl
    (fun m i => if used i then copyKernelHalf L m (L.pageDir i) else m) m

def syncPageDirs : Paging := { s with memory := syncKernelHalves L s.pageDirsUsed s.memory }

/-! ## Mapping -/

/-- The start of `mem_map_page` and `mem_unmap_page`. -/
def enter (virtAddr : Word) : Paging :=
  if virtAddr ≥ kernelStart then
    if s.cr3 ≠ L.kernelDirectory then s.memChangePageDirectory L.kernelDirectory else s
  else s

/-- Their end. -/
def leave (virtAddr : Word) (prevPageDir : Frame) : Paging :=
  if virtAddr ≥ kernelStart then
    if prevPageDir ≠ L.kernelDirectory then
      (s.syncPageDirs L).memChangePageDirectory prevPageDir
    else s.syncPageDirs L
  else s

/-- The entry for a page table that `mem_map_page` has allocated. -/
def tableEntry (ptPaddr : Nat) (flags : Word) : Word :=
  BitVec.ofNat 32 ptPaddr ||| pageFlagPresent ||| pageFlagWrite ||| pageFlagOwner ||| flags

/-- The branch of `mem_map_page` for a table that is not present. -/
def allocTable (virtAddr flags : Word) : Option Paging := do
  let (ptPaddr, pmm) ← s.pmm.allocPageframe
  let s := { s with
    memory := s.memory.write s.recPageDir (pdIndex virtAddr) (tableEntry ptPaddr flags)
    pmm := pmm }
  return { s with memory := s.memory.zero (s.recPageTable (pdIndex virtAddr)) }

def ensureTable (virtAddr flags : Word) : Option Paging :=
  if Has (s.memory s.recPageDir (pdIndex virtAddr)) pageFlagPresent then some s
  else s.allocTable virtAddr flags

/-- `pt[pt_index] = …`, with the counter. -/
def setPage (virtAddr entry count : Word) : Paging :=
  { s with
    memory := s.memory.write (s.recPageTable (pdIndex virtAddr)) (ptIndex virtAddr) entry
    memNumVpages := s.memNumVpages + count }

def memMapPage (virtAddr physAddr flags : Word) : Option Paging := do
  let table ← (s.enter L virtAddr).ensureTable virtAddr flags
  return (table.setPage virtAddr (physAddr ||| pageFlagPresent ||| flags) 1).leave L virtAddr s.cr3

/-- `pmm_free_pageframe(P_PHYS_ADDR(entry))`. -/
def freeFrame (entry : Word) : Option Paging := do
  let pmm ← s.pmm.freePageframe (pPhysAddr entry).toNat
  return { s with pmm := pmm }

/-- The search for a present entry in `mem_unmap_page`. -/
def tableEmpty (table : Frame) : Bool :=
  (List.range 1024).all fun i => !decide (Has (s.memory table (BitVec.ofNat 10 i)) pageFlagPresent)

/-- The destruction of an empty table. -/
def removeTable (virtAddr : Word) : Option Paging :=
  let pde := s.memory s.recPageDir (pdIndex virtAddr)
  if s.tableEmpty (s.recPageTable (pdIndex virtAddr)) ∧ Has pde pageFlagOwner then do
    let s' ← s.freeFrame pde
    return { s' with memory := s'.memory.write s.recPageDir (pdIndex virtAddr) 0 }
  else some s

/-- `mem_unmap_page`. Its two early returns leave the kernel's directory current. -/
def memUnmapPage (virtAddr : Word) : Option (Word × Paging) :=
  let entered := s.enter L virtAddr
  if ¬ Has (entered.memory entered.recPageDir (pdIndex virtAddr)) pageFlagPresent then
    some (0, entered)
  else
    let pte := entered.memory (entered.recPageTable (pdIndex virtAddr)) (ptIndex virtAddr)
    if ¬ Has pte pageFlagPresent then some (0, entered)
    else do
      let removed ← (entered.setPage virtAddr 0 (-1)).removeTable virtAddr
      let freed ← if Has pte pageFlagOwner then removed.freeFrame pte else some removed
      return (pte, freed.leave L virtAddr s.cr3)

/-! ## Page directories -/

/-- `mem_alloc_page_dir`, with the index of the directory instead of its address and `none`
for the null pointer. -/
def memAllocPageDir : Option (Fin 256) × Paging :=
  match (List.finRange 256).find? fun i => !s.pageDirsUsed i with
  | none => (none, s)
  | some i =>
      let dir := L.pageDir i
      (some i,
        { s with
          pageDirsUsed := Function.update s.pageDirsUsed i true
          memory := (copyKernelHalf L (s.memory.zero dir) dir).write dir 1023 (selfEntry dir) })

/-- The inner loop of `mem_free_page_dir`. -/
def freePages (i : Index) : Option Paging :=
  (List.range 1024).foldlM (fun s j =>
    let pte := s.memory (s.recPageTable i) (BitVec.ofNat 10 j)
    if Has pte pageFlagOwner then s.freeFrame pte else some s) s

/-- The body of its outer loop. -/
def freeTable (i : Index) : Option Paging :=
  let pde := s.memory s.recPageDir i
  if pde = 0 then some s
  else do
    let s ← s.freePages i
    let s := { s with memory := s.memory.zero (s.recPageTable i) }
    let s ← if Has pde pageFlagOwner then s.freeFrame pde else some s
    return { s with memory := s.memory.write s.recPageDir i 0 }

/-- `mem_free_page_dir(pageDirs[i])`. -/
def memFreePageDir (i : Fin 256) : Option Paging := do
  let freed ← (List.range 768).foldlM (fun s j => s.freeTable (BitVec.ofNat 10 j))
    (s.memChangePageDirectory (L.pageDir i))
  return ({ freed with
    pageDirsUsed := Function.update freed.pageDirsUsed i false }).memChangePageDirectory s.cr3

/-! ## Boot -/

/-- `mem_map_page(virt_addr, pmm_alloc_pageframe(), flags)`. -/
def mapNewFrame (virtAddr flags : Word) : Option Paging := do
  let (physAddr, pmm) ← s.pmm.allocPageframe
  { s with pmm := pmm }.memMapPage L virtAddr (BitVec.ofNat 32 physAddr) flags

/-- The memory that `boot.s` starts with, where all but the kernel's directory is what the
boot loader left. -/
def bootMemory (m : PhysicalMemory) : PhysicalMemory :=
  fun f i => if f = L.kernelDirectory then bootDirectory i else m f i

/-- `init_memory` up to its loop. -/
def initDirectories (m : PhysicalMemory) (memHigh physicalAllocstart : Nat) : Paging where
  memory := (List.finRange 256).foldl (fun m i => m.zero (L.pageDir i))
    ((bootMemory L m).write L.kernelDirectory 1023 (selfEntry L.kernelDirectory))
  cr3 := L.kernelDirectory
  pageDirsUsed := fun _ => false
  memNumVpages := 0
  pmm := Pmm.init physicalAllocstart memHigh

/-- `init_memory`. -/
def initMemory (m : PhysicalMemory) (memHigh physicalAllocstart : Nat) : Option Paging :=
  (List.range 8192).foldlM
    (fun s i => s.mapNewFrame L (0xC3000000 + BitVec.ofNat 32 (i * 4096))
      (pageFlagPresent ||| pageFlagWrite))
    (initDirectories L m memHigh physicalAllocstart)

end Paging

end Senob.Memory
