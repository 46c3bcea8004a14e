import Mathlib.Algebra.Ring.Nat
import Mathlib.Logic.Function.Basic

/-!
# The ramdisk

`ramdisk.c` and the part of the FatFs glue in `diskio.c` that calls it. Both sector
functions copy between a buffer and the window at `RAMDISKVIRTUALADRESS`; the bytes of
that window that a call touches are part of its result. The bound checks of the source
leave the functions without a return value, which is modelled by an arbitrary one.
-/

namespace Senob.Disk

/-- The bytes of the address space. -/
abbrev Memory := BitVec 32 → BitVec 8

/-- `memcpy`, with its length read as the number of rounds of the loop. -/
def memcpy (memory : Memory) (dest src len : BitVec 32) : Memory :=
  (List.range len.toNat).foldl (fun memory i =>
    Function.update memory (dest + BitVec.ofNat 32 i) (memory (src + BitVec.ofNat 32 i))) memory

/-- `RAMDISKVIRTUALADRESS`. -/
def ramdiskVirtualAddress : BitVec 32 := 0xE0400000

def sectorSize : BitVec 32 := 512

/-- The bytes from `start` on that a `memcpy` of that length reads or writes. -/
structure Span where
  start : BitVec 32
  length : BitVec 32

namespace Span

def Touches (s : Span) (a : BitVec 32) : Prop :=
  ∃ i < s.length.toNat, a = s.start + BitVec.ofNat 32 i

/-- All bytes that are touched belong to a ramdisk of that size. -/
def Inside (s : Span) (size : BitVec 32) : Prop :=
  ∀ a, s.Touches a → ramdiskVirtualAddress.toNat ≤ a.toNat ∧
    a.toNat < ramdiskVirtualAddress.toNat + size.toNat

end Span

/-- `DRESULT`. -/
inductive DResult where
  | ok
  | error
  | wrprt
  | notrdy
  | parerr
  deriving DecidableEq

/-- What a sector function leaves: the memory, the bytes of the ramdisk window that it
touched, and its return value. -/
structure SectorCall where
  memory : Memory
  touched : Option Span
  result : BitVec 32

/-- What a function of the glue leaves. -/
structure DiskCall where
  memory : Memory
  touched : Option Span
  result : DResult

section Calls

variable (memory : Memory) (size garbage : BitVec 32) (buffer sector count : BitVec 32)

/-- `disk_read_sector`, where `garbage` is what a missing `return` leaves in `eax`. -/
def diskReadSector : SectorCall :=
  if size ≤ sector + sectorSize then ⟨memory, none, garbage⟩
  else
    ⟨memcpy memory buffer (ramdiskVirtualAddress + sector * sectorSize) (count * sectorSize),
      some ⟨ramdiskVirtualAddress + sector * sectorSize, count * sectorSize⟩, 0⟩

def diskWriteSector : SectorCall :=
  if size ≤ sector + count * sectorSize then ⟨memory, none, garbage⟩
  else
    ⟨memcpy memory (ramdiskVirtualAddress + sector * sectorSize) buffer (count * sectorSize),
      some ⟨ramdiskVirtualAddress + sector * sectorSize, count * sectorSize⟩, 0⟩

/-- The translation of the result code, which `disk_read` and `disk_write` share. -/
def translateResult (call : SectorCall) : DiskCall :=
  ⟨call.memory, call.touched, if call.result = 0 then .ok else .error⟩

def diskRead (pdrv : BitVec 8) : DiskCall :=
  if pdrv = 0 then translateResult (diskReadSector memory size garbage buffer sector count)
  else ⟨memory, none, .parerr⟩

def diskWrite (pdrv : BitVec 8) : DiskCall :=
  if pdrv = 0 then translateResult (diskWriteSector memory size garbage buffer sector count)
  else ⟨memory, none, .parerr⟩

end Calls

/-- The call touches only bytes of the ramdisk, or none and says so. -/
def DiskCall.Bounded (call : DiskCall) (size : BitVec 32) : Prop :=
  match call.touched with
  | some span => span.Inside size
  | none => call.result ≠ .ok

/-! ## Offsets -/

/-- The number of bytes between the start of the window and the end of the address
space. -/
def windowSize : Nat := 2 ^ 32 - ramdiskVirtualAddress.toNat

/-- The sectors `sector`, …, `sector + count - 1` in bytes, as the source computes them:
both products wrap. -/
def offset (sector : BitVec 32) : Nat := (sector * sectorSize).toNat

/-- No byte is requested, or the requested ones lie in the ramdisk and do not run past
the end of the address space. -/
def Fits (size sector count : BitVec 32) : Prop :=
  offset count = 0 ∨ offset sector + offset count ≤ min size.toNat windowSize

theorem ramdiskVirtualAddress_toNat : ramdiskVirtualAddress.toNat = 0xE0400000 := rfl

/-- The span of a call is inside the ramdisk exactly when the sectors fit. -/
theorem inside_iff_fits (size sector count : BitVec 32) :
    Span.Inside ⟨ramdiskVirtualAddress + sector * sectorSize, count * sectorSize⟩ size ↔
      Fits size sector count := by
  have haddress : ∀ i < offset count,
      (ramdiskVirtualAddress + sector * sectorSize + BitVec.ofNat 32 i).toNat =
        (0xE0400000 + offset sector + i) % 2 ^ 32 := by
    intro i _
    simp only [BitVec.toNat_add, BitVec.toNat_ofNat, ramdiskVirtualAddress_toNat, offset]
    omega
  have hsector : offset sector < 2 ^ 32 := (sector * sectorSize).isLt
  have hcount : offset count < 2 ^ 32 := (count * sectorSize).isLt
  have hsize := size.isLt
  unfold Fits windowSize
  rw [ramdiskVirtualAddress_toNat]
  constructor
  · intro hinside
    by_contra hfits
    -- The last byte is outside, or one on the way there is the first past the end.
    have hbyte : ∀ i < offset count,
        0xE0400000 ≤ (0xE0400000 + offset sector + i) % 2 ^ 32 ∧
          (0xE0400000 + offset sector + i) % 2 ^ 32 < 0xE0400000 + size.toNat := by
      intro i hi
      rw [← haddress i hi]
      exact hinside _ ⟨i, hi, rfl⟩
    have hfirst := hbyte 0 (by omega)
    have hlast := hbyte (offset count - 1) (by omega)
    have hwrap := hbyte (2 ^ 32 - 0xE0400000 - offset sector)
    omega
  · rintro hfits _ ⟨i, hi, rfl⟩
    have hi' : i < offset count := hi
    rw [haddress i hi, ramdiskVirtualAddress_toNat]
    omega

/-! ## When the calls stay inside -/

/-- A translated call that did not touch the ramdisk is in bounds for every return value
only if there was one. -/
theorem translateResult_bounded {call : SectorCall} {size : BitVec 32} {span : Span}
    (h : call.touched = some span) :
    (translateResult call).Bounded size ↔ span.Inside size := by
  unfold DiskCall.Bounded translateResult
  rw [h]

theorem not_bounded_zero (memory : Memory) (size : BitVec 32) :
    ¬ (translateResult ⟨memory, none, 0⟩).Bounded size := by
  simp [DiskCall.Bounded, translateResult]

/-- `disk_read` and `disk_write` on drive 0 touch only the ramdisk, or nothing with a
result other than `RES_OK`, whatever a missing `return` leaves behind, exactly when the
bound check lets the call through and the sectors fit. -/
theorem disk_bounded_iff (size sector count : BitVec 32) :
    ((∀ memory buffer garbage,
        (diskRead memory size garbage buffer sector count 0).Bounded size) ↔
      ¬ size ≤ sector + sectorSize ∧ Fits size sector count) ∧
    ((∀ memory buffer garbage,
        (diskWrite memory size garbage buffer sector count 0).Bounded size) ↔
      ¬ size ≤ sector + count * sectorSize ∧ Fits size sector count) := by
  have hmemory : Memory := fun _ => 0
  refine ⟨?_, ?_⟩
  · by_cases hcheck : size ≤ sector + sectorSize
    · refine iff_of_false (fun hclaim => ?_) fun h => h.1 hcheck
      have hzero := hclaim hmemory 0 0
      rw [diskRead, if_pos rfl, diskReadSector, if_pos hcheck] at hzero
      exact not_bounded_zero hmemory size hzero
    · rw [and_iff_right hcheck, ← inside_iff_fits]
      constructor
      · intro hclaim
        have hcall := hclaim hmemory 0 0
        rw [diskRead, if_pos rfl, diskReadSector, if_neg hcheck] at hcall
        exact (translateResult_bounded rfl).mp hcall
      · intro hinside memory buffer garbage
        rw [diskRead, if_pos rfl, diskReadSector, if_neg hcheck]
        exact (translateResult_bounded rfl).mpr hinside
  · by_cases hcheck : size ≤ sector + count * sectorSize
    · refine iff_of_false (fun hclaim => ?_) fun h => h.1 hcheck
      have hzero := hclaim hmemory 0 0
      rw [diskWrite, if_pos rfl, diskWriteSector, if_pos hcheck] at hzero
      exact not_bounded_zero hmemory size hzero
    · rw [and_iff_right hcheck, ← inside_iff_fits]
      constructor
      · intro hclaim
        have hcall := hclaim hmemory 0 0
        rw [diskWrite, if_pos rfl, diskWriteSector, if_neg hcheck] at hcall
        exact (translateResult_bounded rfl).mp hcall
      · intro hinside memory buffer garbage
        rw [diskWrite, if_pos rfl, diskWriteSector, if_neg hcheck]
        exact (translateResult_bounded rfl).mpr hinside

/-- The check of `disk_read` adds a byte count to a sector number: sector 64 of a disk of
64 sectors passes it and is read behind the end. -/
theorem diskRead_outOfBounds :
    ¬ ∀ size sector count : BitVec 32, ∀ memory buffer garbage,
      (diskRead memory size garbage buffer sector count 0).Bounded size ∧
        (diskWrite memory size garbage buffer sector count 0).Bounded size := by
  intro hclaim
  have hread := (hclaim 0x8000 64 1 (fun _ => 0) 0 0).1
  have hbyte := hread 0xE0408000 ⟨0, by decide, by decide⟩
  exact absurd hbyte.2 (by decide)

end Senob.Disk
