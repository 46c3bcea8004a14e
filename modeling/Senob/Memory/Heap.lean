import Mathlib.Data.List.Basic
import Senob.Memory.PmmBounds

/-!
# The kernel heap

`heap.c` manages the heap in blocks of 4096 bytes. A table holds one byte for
each block: zero for a free block, and flag bits that mark the first block of a
run and the blocks with a successor in the same run. The functions of other
files that the heap calls are the fields of `PageServices`.
-/

namespace Senob.Memory

open Senob.Foundation

def heapBlockSize : Nat := 4096

def heapStartAddress : Nat := 0xD0000000

def initialHeapSize : Nat := heapBlockSize * 4

def heapBlockTableEntryTaken : BitVec 8 := 0x01#8

def heapBlockTableEntryFree : BitVec 8 := 0x00#8

def heapBlockHasNext : BitVec 8 := 0b10000000#8

def heapBlockIsFirst : BitVec 8 := 0b01000000#8

/-- `PAGE_FLAG_WRITE | PAGE_FLAG_PRESENT`. -/
def heapPageFlags : Nat := (1 <<< 1) ||| (1 <<< 0)

/-- What the heap uses of the frame allocator and of paging, over their common
state. -/
structure PageServices (ε : Type*) where
  pmmAllocPageframe : ε → Nat × ε
  memMapPage : (virtAddr physAddr flags : Nat) → ε → ε
  memUnmapPage : (virtAddr : Nat) → ε → ε

/-- `kernel_heap` with its table, and `heap_size`. The byte at index `i` of the
table is `entries i`. -/
structure Heap where
  entries : Bytes
  entriesAddress : Nat
  totalBlocks : Nat
  startAddress : Nat
  heapSize : Nat

namespace Heap

variable {ε : Type*} (svc : PageServices ε)

/-- The mapping loop of `heap_init` from block `i` on. -/
def initBlocks (h : Heap) (env : ε) (i : Nat) : Nat → Heap × ε
  | 0 => (h, env)
  | left + 1 =>
      let (physAddr, env) := svc.pmmAllocPageframe env
      if physAddr = 0 then (h, env)
      else
        let env := svc.memMapPage (heapStartAddress + i * heapBlockSize) physAddr heapPageFlags env
        initBlocks { h with entries := Function.update h.entries i heapBlockTableEntryFree }
          env (i + 1) left

/-- `heap_init`. The table lies in memory whose former contents are `memory`. -/
def init (memory : Bytes) (env : ε) : Heap × ε :=
  let h : Heap :=
    { entries := memory
      entriesAddress := heapStartAddress
      totalBlocks := initialHeapSize / heapBlockSize
      startAddress := heapStartAddress
      heapSize := 0 }
  let (h, env) := initBlocks svc h env 0 h.totalBlocks
  ({ h with heapSize := initialHeapSize }, env)

/-- The loop of `heap_get_start_block` from block `i` on. The start of the current
run is `none` where the source has -1. -/
def findRun (entries : Bytes) (wanted i : Nat) (runStart : Option Nat) (runLength : Nat) :
    Nat → Option Nat
  | 0 => none
  | left + 1 =>
      if entries i = heapBlockTableEntryFree then
        let start := runStart.getD i
        if runLength + 1 = wanted then some start
        else findRun entries wanted (i + 1) (some start) (runLength + 1) left
      else findRun entries wanted (i + 1) none 0 left

/-- `heap_get_start_block`, with `none` for -1. -/
def getStartBlock (h : Heap) (totalBlocks : Nat) : Option Nat :=
  findRun h.entries totalBlocks 0 none 0 h.totalBlocks

/-- The entry that `heap_malloc_blocks` writes for block `i` of a run. -/
def runEntry (startblock totalBlocks i : Nat) : BitVec 8 :=
  let endblock := startblock + totalBlocks - 1
  if i = startblock then
    heapBlockIsFirst ||| (if totalBlocks > 1 then heapBlockHasNext else 0)
  else if i = endblock then heapBlockTableEntryTaken
  else heapBlockTableEntryTaken ||| heapBlockHasNext

def markRun (entries : Bytes) (startblock totalBlocks : Nat) : Bytes :=
  (List.range' startblock totalBlocks).foldl
    (fun entries i => Function.update entries i (runEntry startblock totalBlocks i)) entries

/-- `heap_malloc_blocks`; the null pointer is zero. -/
def mallocBlocks (h : Heap) (totalBlocks : Nat) : Nat × Heap :=
  match h.getStartBlock totalBlocks with
  | none => (0, h)
  | some startblock =>
      ((h.startAddress + startblock * heapBlockSize) % 2 ^ 32,
        { h with entries := markRun h.entries startblock totalBlocks })

/-- The loop of `heap_expand`. -/
def expandBlocks (h : Heap) (env : ε) : Nat → Bool × Heap × ε
  | 0 => (true, h, env)
  | left + 1 =>
      let (physAddr, env) := svc.pmmAllocPageframe env
      if physAddr = 0 then (false, h, env)
      else
        let env := svc.memMapPage ((heapStartAddress + h.heapSize) % 2 ^ 32) physAddr
          heapPageFlags env
        expandBlocks
          { h with
            entries := Function.update h.entries h.totalBlocks heapBlockTableEntryFree
            totalBlocks := (h.totalBlocks + 1) % 2 ^ 32
            heapSize := (h.heapSize + heapBlockSize) % 2 ^ 32 } env left

def expand (h : Heap) (env : ε) (size : Nat) : Bool × Heap × ε :=
  expandBlocks svc h env (size / heapBlockSize)

/-- `decimal_total_blocks` in `heap_malloc`, in 32-bit words. -/
def decimalTotalBlocks (size : Nat) : Nat :=
  let alignedNumberToAllocate := (size + heapBlockSize - 1) % 2 ^ 32 &&& 0xFFFFF000
  (alignedNumberToAllocate + heapBlockSize - 1) % 2 ^ 32 / heapBlockSize

/-- `heap_malloc`. The second search that finds nothing and `heap_malloc_blocks`
both end in the null pointer. -/
def malloc (h : Heap) (env : ε) (size : Nat) : Nat × Heap × ε :=
  let blocks := decimalTotalBlocks size
  match h.getStartBlock blocks with
  | some _ =>
      let (address, h) := h.mallocBlocks blocks
      (address, h, env)
  | none =>
      match h.expand svc env (blocks * heapBlockSize % 2 ^ 32) with
      | (false, h, env) => (0, h, env)
      | (true, h, env) =>
          match h.getStartBlock blocks with
          | none => (0, h, env)
          | some _ =>
              let (address, h) := h.mallocBlocks blocks
              (address, h, env)

/-- The loop of `heap_mark_blocks_free` from block `i` on. -/
def freeRun (entries : Bytes) (i : Nat) : Nat → Bytes
  | 0 => entries
  | left + 1 =>
      let entry := entries i
      let entries := Function.update entries i heapBlockTableEntryFree
      if entry &&& heapBlockHasNext = 0 then entries else freeRun entries (i + 1) left

/-- `heap_mark_blocks_free`. The comparison `i < total_blocks` is one of unsigned
words, so a negative block frees nothing. -/
def markBlocksFree (h : Heap) (startblock : Int) : Heap :=
  let first := (startblock % 2 ^ 32).toNat
  { h with entries := freeRun h.entries first (h.totalBlocks - first) }

/-- `heap_address_to_block`: the pointer difference as an `int`, divided. -/
def addressToBlock (h : Heap) (address : Nat) : Int :=
  (Int.bmod ((address : Int) - h.startAddress) (2 ^ 32)).tdiv heapBlockSize

/-- The loop of `heap_contract`; the argument is `last_block + 1`. -/
def contractBlocks (h : Heap) (env : ε) : Nat → Heap × ε
  | 0 => (h, env)
  | lastBlock + 1 =>
      if h.entries lastBlock = heapBlockTableEntryFree then
        let env := svc.memUnmapPage ((h.startAddress + lastBlock * heapBlockSize) % 2 ^ 32) env
        contractBlocks
          { h with
            totalBlocks := (h.totalBlocks + 2 ^ 32 - 1) % 2 ^ 32
            heapSize := (h.heapSize + 2 ^ 32 - heapBlockSize) % 2 ^ 32 } env lastBlock
      else (h, env)

def contract (h : Heap) (env : ε) : Heap × ε := contractBlocks svc h env h.totalBlocks

def free (h : Heap) (env : ε) (ptr : Nat) : Heap × ε :=
  (h.markBlocksFree (h.addressToBlock ptr)).contract svc env

def kmalloc (h : Heap) (env : ε) (size : Nat) : Nat × Heap × ε := h.malloc svc env size

def kfree (h : Heap) (env : ε) (ptr : Nat) : Heap × ε := h.free svc env ptr

end Heap

end Senob.Memory
