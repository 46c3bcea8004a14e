import Mathlib.Data.Nat.Bitwise
import Senob.Foundation.Bitmap

/-!
# The physical page-frame allocator

`pmm.c` keeps one bit for every 4096-byte frame and hands out the first clear
bit of a window of whole bytes. Accesses to `physical_memory_bitmap` are checked
against its declared length: `none` stands for an index outside the array.
-/

namespace Senob.Memory

open Senob.Foundation

/-- `PAGE_FRAMES`, that is `0x100000000 / 0x1000 / 8`. -/
def pageFrames : Nat := 0x100000000 / 0x1000 / 8

def pageFrameSize : Nat := 4096

/-- The declared length of `physical_memory_bitmap`, `PAGE_FRAMES / 8` bytes. -/
def bitmapLength : Nat := pageFrames / 8

/-- The file-scope variables of `pmm.c`. The counters are 32-bit words. -/
structure Pmm where
  physicalMemoryBitmap : Bytes
  pageFrameMinIndex : Nat
  pageFrameMaxIndex : Nat
  totalAllocated : Nat

namespace Pmm

/-- `CEIL_DIV`, with the addition of 32-bit words. -/
def ceilDiv (a b : Nat) : Nat := (a + b - 1) % 2 ^ 32 / b

def init (memLow memHigh : Nat) : Pmm where
  physicalMemoryBitmap := fun _ => 0
  pageFrameMinIndex := ceilDiv memLow pageFrameSize
  pageFrameMaxIndex := memHigh / pageFrameSize
  totalAllocated := 0

def readByte (p : Pmm) (i : Nat) : Option (BitVec 8) :=
  if i < bitmapLength then some (p.physicalMemoryBitmap i) else none

def writeByte (p : Pmm) (i : Nat) (byte : BitVec 8) : Option Pmm :=
  if i < bitmapLength then
    some { p with physicalMemoryBitmap := Function.update p.physicalMemoryBitmap i byte }
  else none

def isPageFrameUsed (p : Pmm) (pfIndex : Nat) : Option Bool := do
  let byte ← p.readByte (pfIndex >>> 3)
  return decide (byte >>> (pfIndex &&& 7) &&& 1#8 = 1#8)

def setPageFrameUsedOrFree (p : Pmm) (pfIndex : Nat) (used : Bool) : Option Pmm := do
  let byte ← p.readByte (pfIndex >>> 3)
  let mask : BitVec 8 := -(if used then 1#8 else 0#8)
  p.writeByte (pfIndex >>> 3) (byte ^^^ ((mask ^^^ byte) &&& (1#8 <<< (pfIndex &&& 7))))

/-- The inner loop of `pmm_alloc_pageframe`: the first bit of `byte` that is
not used. -/
def firstUnused (byte : BitVec 8) : Option Nat :=
  (List.range 8).find? fun i => !decide (byte >>> i &&& 1#8 = 1#8)

/-- The outer loop of `pmm_alloc_pageframe` from byte `b` on, with the number of
bytes that are left before `end`. Zero is the result of a scan without success. -/
def scanBytes (p : Pmm) (b : Nat) : Nat → Option (Nat × Pmm)
  | 0 => some (0, p)
  | left + 1 => do
      let byte ← p.readByte b
      if byte = 0xFF#8 then
        p.scanBytes (b + 1) left
      else
        match firstUnused byte with
        | none => p.scanBytes (b + 1) left
        | some i =>
            let marked ← p.writeByte b (byte ^^^ ((-1#8 ^^^ byte) &&& (1#8 <<< i)))
            let addr := (b * 8 + i) % 2 ^ 32 * pageFrameSize % 2 ^ 32
            let marked ← marked.setPageFrameUsedOrFree ((b * 8 + i) % 2 ^ 32) true
            return (addr, { marked with totalAllocated := (marked.totalAllocated + 1) % 2 ^ 32 })

/-- The local `start` of `pmm_alloc_pageframe`. -/
def startByte (p : Pmm) : Nat :=
  p.pageFrameMinIndex / 8 + if p.pageFrameMinIndex &&& 7 ≠ 0 then 1 else 0

/-- The local `end` of `pmm_alloc_pageframe`; the subtraction is one of words. -/
def endByte (p : Pmm) : Nat :=
  (p.pageFrameMaxIndex / 8 + 2 ^ 32 - if p.pageFrameMaxIndex &&& 7 ≠ 0 then 1 else 0) % 2 ^ 32

/-- `pmm_alloc_pageframe`: the address handed out, and zero when there is none. -/
def allocPageframe (p : Pmm) : Option (Nat × Pmm) :=
  p.scanBytes p.startByte (p.endByte - p.startByte)

def freePageframe (p : Pmm) (addr : Nat) : Option Pmm := do
  let pfIndex := addr / pageFrameSize
  if (← p.isPageFrameUsed pfIndex) then
    let freed ← p.setPageFrameUsedOrFree pfIndex false
    return { freed with totalAllocated := (freed.totalAllocated + 2 ^ 32 - 1) % 2 ^ 32 }
  else
    return p

/-- Frame `f` is marked used. -/
def used (p : Pmm) (f : Nat) : Bool := p.physicalMemoryBitmap.bit f

/-- The effect of marking a clear frame: its bit is set and the counter moves. -/
def take (p : Pmm) (f : Nat) : Pmm where
  physicalMemoryBitmap := p.physicalMemoryBitmap.setBit f true
  pageFrameMinIndex := p.pageFrameMinIndex
  pageFrameMaxIndex := p.pageFrameMaxIndex
  totalAllocated := (p.totalAllocated + 1) % 2 ^ 32

/-- The effect of freeing a used frame. -/
def release (p : Pmm) (f : Nat) : Pmm where
  physicalMemoryBitmap := p.physicalMemoryBitmap.setBit f false
  pageFrameMinIndex := p.pageFrameMinIndex
  pageFrameMaxIndex := p.pageFrameMaxIndex
  totalAllocated := (p.totalAllocated + 2 ^ 32 - 1) % 2 ^ 32

theorem used_take (p : Pmm) (f g : Nat) :
    (p.take f).used g = if g = f then true else p.used g := Bytes.bit_setBit _ _ _ _

theorem used_release (p : Pmm) (f g : Nat) :
    (p.release f).used g = if g = f then false else p.used g := Bytes.bit_setBit _ _ _ _

@[simp] theorem startByte_take (p : Pmm) (f : Nat) : (p.take f).startByte = p.startByte := rfl
@[simp] theorem endByte_take (p : Pmm) (f : Nat) : (p.take f).endByte = p.endByte := rfl
@[simp] theorem startByte_release (p : Pmm) (f : Nat) : (p.release f).startByte = p.startByte := rfl
@[simp] theorem endByte_release (p : Pmm) (f : Nat) : (p.release f).endByte = p.endByte := rfl

/-! ## Bits and bytes -/

theorem shiftRight_three (n : Nat) : n >>> 3 = n / 8 := Nat.shiftRight_eq_div_pow n 3

theorem and_seven (n : Nat) : n &&& 7 = n % 8 := Nat.and_two_pow_sub_one_eq_mod n 3

/-- The test `byte >> i & 1` reads bit `i`. -/
theorem shiftRight_and_one_iff (byte : BitVec 8) (i : Nat) :
    byte >>> i &&& 1#8 = 1#8 ↔ byte.getLsbD i = true := by
  have hbit : byte >>> i &&& 1#8 = if byte.getLsbD i then 1#8 else 0#8 := by
    apply BitVec.eq_of_getLsbD_eq
    intro j hj
    rw [BitVec.getLsbD_and, BitVec.getLsbD_ushiftRight]
    by_cases hj0 : j = 0
    · subst hj0
      cases byte.getLsbD i <;> simp_all
    · cases byte.getLsbD i <;> simp [BitVec.getLsbD_one, hj0]
  rw [hbit]
  cases byte.getLsbD i <;> simp

theorem isPageFrameUsed_eq (p : Pmm) {f : Nat} (hf : f / 8 < bitmapLength) :
    p.isPageFrameUsed f = some (p.used f) := by
  simp [isPageFrameUsed, readByte, shiftRight_three, and_seven, hf, shiftRight_and_one_iff,
    used, Bytes.bit]

theorem setPageFrameUsedOrFree_eq (p : Pmm) {f : Nat} (value : Bool) (hf : f / 8 < bitmapLength) :
    p.setPageFrameUsedOrFree f value =
      some { p with physicalMemoryBitmap := p.physicalMemoryBitmap.setBit f value } := by
  have hmod : f % 8 < 8 := Nat.mod_lt f (by decide)
  have hmask : (-(if value then 1#8 else 0#8) : BitVec 8).getLsbD (f % 8) = value := by
    cases value
    · simp
    · have : (-1#8 : BitVec 8) = BitVec.allOnes 8 := by decide
      simp only [↓reduceIte, this, BitVec.getLsbD_allOnes, hmod, decide_true]
  simp only [setPageFrameUsedOrFree, readByte, writeByte, shiftRight_three, and_seven, hf,
    ↓reduceIte, Option.bind_eq_bind, Option.bind_some, Bytes.xor_mask_eq_withBit _ _ hmod, hmask,
    Bytes.setBit]

theorem firstUnused_eq_some {byte : BitVec 8} {i : Nat} (h : firstUnused byte = some i) :
    i < 8 ∧ byte.getLsbD i = false ∧ ∀ j < i, byte.getLsbD j = true := by
  rw [firstUnused, List.find?_range_eq_some] at h
  simp only [shiftRight_and_one_iff, Bool.decide_eq_true, Bool.not_eq_eq_eq_not, Bool.not_true,
    List.mem_range, Bool.not_not] at h
  exact ⟨h.2.1, h.1, fun j hj => h.2.2 j hj⟩

theorem firstUnused_eq_none {byte : BitVec 8} (h : firstUnused byte = none) {i : Nat}
    (hi : i < 8) : byte.getLsbD i = true := by
  rw [firstUnused, List.find?_eq_none] at h
  have := h i (List.mem_range.mpr hi)
  simpa [shiftRight_and_one_iff] using this

/-! ## The scan -/

/-- Marking the bit twice, once in the byte at hand and once through
`set_page_frame_used_or_free`, is marking it once. -/
theorem mark_eq_take (p : Pmm) {b i : Nat} (hb : b < bitmapLength) (hi : i < 8) :
    ((p.writeByte b (p.physicalMemoryBitmap b ^^^
        ((-1#8 ^^^ p.physicalMemoryBitmap b) &&& (1#8 <<< i)))).bind fun marked =>
      (marked.setPageFrameUsedOrFree ((b * 8 + i) % 2 ^ 32) true).bind fun marked =>
        some ((b * 8 + i) % 2 ^ 32 * pageFrameSize % 2 ^ 32,
          { marked with totalAllocated := (marked.totalAllocated + 1) % 2 ^ 32 })) =
      some ((b * 8 + i) * pageFrameSize, p.take (b * 8 + i)) := by
  have hlength : bitmapLength = 16384 := rfl
  have hwrap : (b * 8 + i) % 2 ^ 32 = b * 8 + i := Nat.mod_eq_of_lt (by omega)
  have haddr : (b * 8 + i) * pageFrameSize % 2 ^ 32 = (b * 8 + i) * pageFrameSize :=
    Nat.mod_eq_of_lt (by simp only [pageFrameSize]; omega)
  have hbyte : (b * 8 + i) / 8 = b := by omega
  have hbit : (b * 8 + i) % 8 = i := by omega
  have hones : (-1#8 : BitVec 8).getLsbD i = true := by
    have : (-1#8 : BitVec 8) = BitVec.allOnes 8 := by decide
    rw [this, BitVec.getLsbD_allOnes, decide_eq_true hi]
  have hfirst : Function.update p.physicalMemoryBitmap b
      (Bytes.withBit (p.physicalMemoryBitmap b) i true) =
        p.physicalMemoryBitmap.setBit (b * 8 + i) true := by
    rw [Bytes.setBit, hbyte, hbit]
  rw [hwrap, haddr, Bytes.xor_mask_eq_withBit _ _ hi, hones]
  simp only [writeByte, hb, ↓reduceIte, Option.bind_some, hfirst,
    setPageFrameUsedOrFree_eq _ true (f := b * 8 + i) (by omega), Bytes.setBit_setBit, take]

/-- What a scan of `left` bytes from byte `b` on can end with: it takes the first
clear frame, or it meets none and either reaches the end of the range or leaves
the array. -/
def ScanOutcome (p : Pmm) (b left : Nat) (result : Option (Nat × Pmm)) : Prop :=
  (∃ f, 8 * b ≤ f ∧ f < 8 * (b + left) ∧ f < 8 * bitmapLength ∧ p.used f = false ∧
    (∀ g, 8 * b ≤ g → g < f → p.used g = true) ∧
    result = some (f * pageFrameSize, p.take f)) ∨
  ((∀ f, 8 * b ≤ f → f < 8 * (b + left) → f < 8 * bitmapLength → p.used f = true) ∧
    result = if left = 0 ∨ b + left ≤ bitmapLength then some (0, p) else none)

/-- A byte without a clear bit is passed over. -/
theorem ScanOutcome.skip {p : Pmm} {b left : Nat} {result : Option (Nat × Pmm)}
    (hb : b < bitmapLength) (hfull : ∀ f, 8 * b ≤ f → f < 8 * (b + 1) → p.used f = true)
    (h : p.ScanOutcome (b + 1) left result) : p.ScanOutcome b (left + 1) result := by
  rcases h with ⟨f, hlow, hhigh, hlen, hclear, hprev, hres⟩ | ⟨hall, hres⟩
  · refine Or.inl ⟨f, by omega, by omega, hlen, hclear, fun g hg hgf => ?_, hres⟩
    by_cases hgb : g < 8 * (b + 1)
    · exact hfull g hg hgb
    · exact hprev g (by omega) hgf
  · refine Or.inr ⟨fun g hg hgl hglen => ?_, ?_⟩
    · by_cases hgb : g < 8 * (b + 1)
      · exact hfull g hg hgb
      · exact hall g (by omega) (by omega) hglen
    · rw [hres]
      by_cases hleft : left = 0
      · subst hleft
        rw [if_pos (Or.inl rfl), if_pos (Or.inr (by omega))]
      · simp [hleft, show b + 1 + left = b + (left + 1) by omega]

theorem scanBytes_outcome (p : Pmm) (b left : Nat) :
    p.ScanOutcome b left (p.scanBytes b left) := by
  induction left generalizing b with
  | zero => exact Or.inr ⟨fun f _ _ _ => by omega, by simp [scanBytes]⟩
  | succ left ih =>
      by_cases hb : b < bitmapLength
      swap
      · refine Or.inr ⟨fun f _ _ _ => by omega, ?_⟩
        rw [if_neg (by omega)]
        simp [scanBytes, readByte, hb]
      have hread : p.readByte b = some (p.physicalMemoryBitmap b) := by simp [readByte, hb]
      have hused : ∀ f, 8 * b ≤ f → f < 8 * (b + 1) →
          p.used f = (p.physicalMemoryBitmap b).getLsbD (f - b * 8) := by
        intro f hlow hhigh
        rw [used, Bytes.bit, show f / 8 = b by omega, show f % 8 = f - b * 8 by omega]
      by_cases hbyte : p.physicalMemoryBitmap b = 0xFF#8
      · rw [show p.scanBytes b (left + 1) = p.scanBytes (b + 1) left by
          simp [scanBytes, hread, hbyte]]
        refine (ih (b + 1)).skip hb fun f hlow hhigh => ?_
        rw [hused f hlow hhigh, hbyte, show (0xFF#8 : BitVec 8) = BitVec.allOnes 8 from rfl,
          BitVec.getLsbD_allOnes, decide_eq_true (by omega)]
      cases hfirst : firstUnused (p.physicalMemoryBitmap b) with
      | none =>
          rw [show p.scanBytes b (left + 1) = p.scanBytes (b + 1) left by
            simp [scanBytes, hread, hbyte, hfirst]]
          refine (ih (b + 1)).skip hb fun f hlow hhigh => ?_
          rw [hused f hlow hhigh]
          exact firstUnused_eq_none hfirst (by omega)
      | some i =>
          obtain ⟨hi, hclear, hprev⟩ := firstUnused_eq_some hfirst
          refine Or.inl ⟨b * 8 + i, by omega, by omega, by omega, ?_, ?_, ?_⟩
          · rw [hused _ (by omega) (by omega), show b * 8 + i - b * 8 = i by omega, hclear]
          · intro g hg hgi
            rw [hused g hg (by omega)]
            exact hprev _ (by omega)
          · rw [← mark_eq_take p hb hi]
            simp [scanBytes, hread, hbyte, hfirst]

theorem freePageframe_eq (p : Pmm) {addr : Nat} (haddr : addr / pageFrameSize / 8 < bitmapLength) :
    p.freePageframe addr = some
      (if p.used (addr / pageFrameSize) then p.release (addr / pageFrameSize) else p) := by
  unfold freePageframe
  simp only [isPageFrameUsed_eq p haddr, Option.bind_eq_bind, Option.bind_some]
  cases p.used (addr / pageFrameSize)
  · rfl
  · simp only [↓reduceIte, setPageFrameUsedOrFree_eq p false haddr, Option.bind_some, release]
    rfl

variable {p p' : Pmm}

/-- The effect of `pmm_free_pageframe` on a frame of the bitmap. -/
def freed (p : Pmm) (f : Nat) : Pmm := if p.used f then p.release f else p

theorem used_freed (p : Pmm) (f g : Nat) :
    (p.freed f).used g = if g = f then false else p.used g := by
  unfold freed
  by_cases hused : p.used f = true
  · rw [if_pos hused, used_release]
  · rw [if_neg hused]
    split
    next hg => rw [hg, Bool.eq_false_of_not_eq_true hused]
    next _ => rfl

@[simp] theorem startByte_freed (p : Pmm) (f : Nat) : (p.freed f).startByte = p.startByte := by
  unfold freed
  split <;> rfl

theorem freePageframe_cases {addr : Nat} (h : p.freePageframe addr = some p') :
    addr / pageFrameSize / 8 < bitmapLength ∧ p' = p.freed (addr / pageFrameSize) := by
  by_cases hbound : addr / pageFrameSize / 8 < bitmapLength
  · rw [p.freePageframe_eq hbound] at h
    exact ⟨hbound, (Option.some.inj h).symm⟩
  · have hread : p.isPageFrameUsed (addr / pageFrameSize) = none := by
      rw [isPageFrameUsed, readByte, shiftRight_three, if_neg hbound]
      rfl
    simp only [freePageframe, hread, Option.bind_eq_bind, Option.bind_none] at h
    cases h

end Pmm

end Senob.Memory
