import Senob.Foundation.Run
import Senob.Memory.Paging

/-!
# The break of the kernel

`sbrk` of `libk.c` serves the `malloc` of the kernel. The memory for it is mapped by `init_memory`
from `0xC3000000` on, but the limit in the source has a digit too few and lies below the break.
-/

namespace Senob.Libk

open Senob.Foundation

/-- `heap_limit`. -/
def heapLimit : Memory.Word := 0xC500000

/-- The value that `heap_end` is initialised with. -/
def initialHeapEnd : Memory.Word := 0xC3000000

/-- What `sbrk` returns, and what it leaves in `heap_end`. -/
structure SbrkCall where
  result : Memory.Word
  heapEnd : Memory.Word

/-- `sbrk`. -/
def sbrk (heapEnd increment : Memory.Word) : SbrkCall :=
  let newHeapEnd := heapEnd + increment
  if newHeapEnd > heapLimit then ⟨-1, heapEnd⟩ else ⟨heapEnd, newHeapEnd⟩

namespace KernelBreak

/-- The break as the state of a run. -/
def step (heapEnd increment : Memory.Word) : Option Memory.Word :=
  some (sbrk heapEnd increment).heapEnd

/-- The end of the region whose pages `init_memory` maps. -/
def regionEnd : Nat := initialHeapEnd.toNat + 8192 * 4096

/-- A call succeeds if the new break is in the mapped region or at its end, and fails otherwise. -/
def CoversRegion (heapEnd increment : Memory.Word) : Prop :=
  let newHeapEnd := heapEnd.toNat + increment.toInt
  if initialHeapEnd.toNat ≤ newHeapEnd ∧ newHeapEnd ≤ regionEnd then
    sbrk heapEnd increment = ⟨heapEnd, heapEnd + increment⟩
  else sbrk heapEnd increment = ⟨-1, heapEnd⟩

/-- An increment that leads from the initial break around the address space, to the limit or
below. -/
def Wraps (increment : Memory.Word) : Prop :=
  0x3D000000 ≤ increment.toInt ∧ increment.toInt ≤ 0x49500000

/-- An increment that leads out of the region, and not around the address space. -/
def Refusable (increment : Memory.Word) : Prop :=
  (increment.toInt < 0 ∨ 0x02000000 < increment.toInt) ∧ ¬ Wraps increment

/-! ## One call -/

theorem sbrk_cases (increment : Memory.Word) :
    (Wraps increment ∧ sbrk initialHeapEnd increment =
        ⟨initialHeapEnd, initialHeapEnd + increment⟩) ∨
      ¬ Wraps increment ∧ sbrk initialHeapEnd increment = ⟨-1, initialHeapEnd⟩ := by
  have hint := BitVec.toInt_eq_toNat_cond increment
  have hsum : (initialHeapEnd + increment).toNat = (0xC3000000 + increment.toNat) % 2 ^ 32 :=
    BitVec.toNat_add _ _
  have hlimit : heapLimit.toNat = 0xC500000 := rfl
  unfold sbrk Wraps
  dsimp only
  split
  next hgreater =>
    rw [gt_iff_lt, BitVec.lt_def, hsum, hlimit] at hgreater
    refine Or.inr ⟨?_, rfl⟩
    split at hint <;> omega
  next hle =>
    rw [gt_iff_lt, BitVec.lt_def, hsum, hlimit] at hle
    refine Or.inl ⟨?_, rfl⟩
    split at hint <;> omega

/-- From its initial value the break never gets anywhere in the region. -/
theorem coversRegion_iff (increment : Memory.Word) :
    CoversRegion initialHeapEnd increment ↔ Refusable increment := by
  have hstart : (initialHeapEnd.toNat : Int) = 0xC3000000 := rfl
  have hend : (regionEnd : Int) = 0xC5000000 := rfl
  have hne : SbrkCall.mk initialHeapEnd (initialHeapEnd + increment) ≠ ⟨-1, initialHeapEnd⟩ := by
    intro heq
    exact absurd (congrArg SbrkCall.result heq) (by decide : initialHeapEnd ≠ -1)
  unfold CoversRegion Refusable
  dsimp only
  rw [hstart, hend]
  rcases sbrk_cases increment with ⟨hwraps, hcall⟩ | ⟨hwraps, hcall⟩
  · rw [hcall]
    split
    next hin =>
      unfold Wraps at hwraps
      omega
    next hout => exact iff_of_false hne fun h => h.2 hwraps
  · rw [hcall]
    split
    next hin => exact iff_of_false hne.symm (by omega)
    next hout => exact iff_of_true rfl ⟨by omega, hwraps⟩

theorem step_refusable {increment : Memory.Word} (h : Refusable increment) :
    step initialHeapEnd increment = some initialHeapEnd := by
  rcases sbrk_cases increment with ⟨hwraps, -⟩ | ⟨-, hcall⟩
  · exact absurd hwraps h.2
  · rw [step, hcall]

/-! ## All calls -/

/-- The calls of a run are all answered as the region demands exactly if all of them must fail. -/
theorem always_coversRegion_iff (increments : List Memory.Word) :
    Admissible step CoversRegion initialHeapEnd increments ↔
      ∀ increment ∈ increments, Refusable increment := by
  induction increments with
  | nil => exact iff_of_true trivial nofun
  | cons increment rest ih =>
      rw [List.forall_mem_cons]
      constructor
      · rintro ⟨hcall, hrest⟩
        have hgood := (coversRegion_iff increment).mp hcall
        exact ⟨hgood, ih.mp (hrest _ (step_refusable hgood))⟩
      · rintro ⟨hgood, hrest⟩
        refine ⟨(coversRegion_iff increment).mpr hgood, fun t ht => ?_⟩
        obtain rfl := Option.some.inj ((step_refusable hgood).symm.trans ht)
        exact ih.mpr hrest

/-- The first `malloc` of the kernel gets no memory. -/
theorem not_coversRegion :
    ¬ ∀ increments : List Memory.Word, Admissible step CoversRegion initialHeapEnd increments := by
  intro hclaim
  have hcall := (coversRegion_iff 0x1000).mp (hclaim [0x1000]).1
  exact absurd hcall.1 (by decide)

end KernelBreak

end Senob.Libk
