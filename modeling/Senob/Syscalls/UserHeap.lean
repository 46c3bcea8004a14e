import Senob.Foundation.Regions
import Senob.Memory.PmmBounds
import Senob.Syscalls.Sbrk

/-!
# The heap of one process

`syscall_4_sbrk` compares the new break with the upper limit only. A call that lowers the break
below the first page of the heap succeeds.
-/

namespace Senob.Syscalls

open Senob.Foundation

/-- The break, and what the process was given and has not given back. -/
structure UserHeap where
  heapEnd : BitVec 32
  regions : List (Region Nat)

namespace UserHeap

def initial : UserHeap := ⟨initialHeapEnd, []⟩

/-- A call that succeeds gives the process a region, or takes back what is above the new break. -/
def step (s : UserHeap) (increment : BitVec 32) : Option UserHeap :=
  let r := syscall4Sbrk s.heapEnd increment
  some <|
    if r.eax = -1 then ⟨r.heapEnd, s.regions⟩
    else if 0 < increment.toInt then
      ⟨r.heapEnd, ⟨r.eax.toNat, r.eax.toNat + increment.toInt.toNat⟩ :: s.regions⟩
    else ⟨r.heapEnd, s.regions.map (Region.cut r.heapEnd.toNat)⟩

/-- The break is the end of a page of the heap, and the regions are disjoint parts of the heap. -/
structure InHeap (s : UserHeap) : Prop where
  aligned : s.heapEnd.toNat % 0x1000 = 0
  low : heapWindowStart ≤ s.heapEnd
  high : s.heapEnd ≤ heapWindowEnd
  disjoint : s.regions.Pairwise fun r r' => Disjoint r.elements r'.elements
  inside : ∀ r ∈ s.regions, r.elements ⊆ Set.Ico heapWindowStart.toNat heapWindowEnd.toNat

/-- A call returns the old break, or it fails and leaves the break where it is. -/
def Answers (s : UserHeap) (increment : BitVec 32) : Prop :=
  let r := syscall4Sbrk s.heapEnd increment
  r.eax = s.heapEnd ∨ r.eax = -1 ∧ r.heapEnd = s.heapEnd

/-- The break is not to go below the first page of the heap, or so far below zero that the sum
wraps around to an address above the limit. -/
def NotBelow (s : UserHeap) (increment : BitVec 32) : Prop :=
  let exact : Int := s.heapEnd.toNat + increment.toInt
  exact ≤ -0x1000 ∨ 0x007FF000 < exact

instance (s : UserHeap) (increment : BitVec 32) : Decidable (NotBelow s increment) :=
  inferInstanceAs (Decidable (_ ∨ _))

variable {s t : UserHeap} {increment : BitVec 32}

/-! ## One call -/

theorem toNat_alignUp (x : BitVec 32) :
    (alignUp x 0x1000).toNat = (x.toNat + 4095) % 2 ^ 32 / 4096 * 4096 := by
  have hmask : (~~~(0x1000 - 1 : BitVec 32)).toNat = 0xFFFFF000 := by decide
  have hadd : (x + (0x1000 - 1)).toNat = (x.toNat + 4095) % 2 ^ 32 := BitVec.toNat_add x _
  unfold alignUp
  rw [BitVec.toNat_and, hmask, hadd]
  exact Memory.and_frameMask (Nat.mod_lt _ (by decide))

theorem syscall4Sbrk_refused {heapEnd : BitVec 32}
    (h : alignUp (heapEnd + increment) 0x1000 > heapLimit) :
    syscall4Sbrk heapEnd increment = ⟨-1, heapEnd⟩ := if_pos h

theorem syscall4Sbrk_granted {heapEnd : BitVec 32}
    (h : ¬ alignUp (heapEnd + increment) 0x1000 > heapLimit) :
    syscall4Sbrk heapEnd increment = ⟨heapEnd, alignUp (heapEnd + increment) 0x1000⟩ := if_neg h

theorem answers (s : UserHeap) (increment : BitVec 32) : s.Answers increment := by
  unfold Answers
  by_cases h : alignUp (s.heapEnd + increment) 0x1000 > heapLimit
  · rw [syscall4Sbrk_refused h]
    exact Or.inr ⟨rfl, rfl⟩
  · rw [syscall4Sbrk_granted h]
    exact Or.inl rfl

/-- What every call keeps that does not go below the heap. -/
structure Inv (s : UserHeap) : Prop where
  aligned : s.heapEnd.toNat % 0x1000 = 0
  low : heapWindowStart ≤ s.heapEnd
  high : s.heapEnd ≤ heapLimit
  stacked : Stacked s.heapEnd.toNat s.regions
  above : ∀ r ∈ s.regions, heapWindowStart.toNat ≤ r.lo

theorem inv_initial : Inv initial where
  aligned := by decide
  low := by decide
  high := by decide
  stacked := .nil _
  above := nofun

theorem Inv.inHeap (h : Inv s) : s.InHeap where
  aligned := h.aligned
  low := h.low
  high := h.high
  disjoint := h.stacked.disjoint
  inside r hr := Set.Ico_subset_Ico (h.above r hr)
    ((h.stacked.below r hr).trans (BitVec.le_def.mp h.high))

theorem Inv.ne_neg_one (h : Inv s) : s.heapEnd ≠ -1 := by
  intro heq
  have hhigh := h.high
  rw [heq] at hhigh
  exact absurd hhigh (by decide)

theorem Inv.step_eq (h : Inv s) (hgranted : ¬ alignUp (s.heapEnd + increment) 0x1000 > heapLimit) :
    s.step increment = some (if 0 < increment.toInt then
      ⟨alignUp (s.heapEnd + increment) 0x1000,
        ⟨s.heapEnd.toNat, s.heapEnd.toNat + increment.toInt.toNat⟩ :: s.regions⟩
      else ⟨alignUp (s.heapEnd + increment) 0x1000,
        s.regions.map (Region.cut (alignUp (s.heapEnd + increment) 0x1000).toNat)⟩) := by
  simp only [step, syscall4Sbrk_granted hgranted, if_neg h.ne_neg_one]

/-- From a break in the heap, a positive increment is rounded up without overflow. -/
theorem Inv.raised (h : Inv s) (hpos : 0 < increment.toInt) :
    s.heapEnd.toNat + increment.toInt.toNat ≤
      (alignUp (s.heapEnd + increment) 0x1000).toNat := by
  have hhigh := BitVec.le_def.mp h.high
  rw [show heapLimit.toNat = 0x01800000 from rfl] at hhigh
  have hint := BitVec.toInt_eq_toNat_cond increment
  rw [toNat_alignUp, BitVec.toNat_add]
  split at hint <;> omega

theorem Inv.notBelow_iff (h : Inv s) (increment : BitVec 32) :
    s.NotBelow increment ↔ alignUp (s.heapEnd + increment) 0x1000 > heapLimit ∨
      heapWindowStart ≤ alignUp (s.heapEnd + increment) 0x1000 := by
  have hlow := BitVec.le_def.mp h.low
  have hhigh := BitVec.le_def.mp h.high
  have hint := BitVec.toInt_eq_toNat_cond increment
  have hlimit : heapLimit.toNat = 0x01800000 := rfl
  have hstart : heapWindowStart.toNat = 0x00800000 := rfl
  rw [hstart] at hlow
  rw [hlimit] at hhigh
  unfold NotBelow
  dsimp only
  rw [gt_iff_lt, BitVec.lt_def, BitVec.le_def, toNat_alignUp, BitVec.toNat_add, hlimit, hstart]
  split at hint <;> omega

theorem Inv.step (h : Inv s) (hgood : s.NotBelow increment) (hstep : s.step increment = some t) :
    Inv t := by
  by_cases hgranted : alignUp (s.heapEnd + increment) 0x1000 > heapLimit
  · simp only [UserHeap.step, syscall4Sbrk_refused hgranted] at hstep
    obtain rfl := Option.some.inj hstep
    exact h
  rw [h.step_eq hgranted] at hstep
  obtain rfl := Option.some.inj hstep
  have hlow := ((h.notBelow_iff increment).mp hgood).resolve_left hgranted
  have hhigh := BitVec.not_lt.mp hgranted
  have haligned : (alignUp (s.heapEnd + increment) 0x1000).toNat % 0x1000 = 0 := by
    rw [toNat_alignUp]
    exact Nat.mul_mod_left _ _
  split
  next hpos =>
    have hraised := h.raised hpos
    refine ⟨haligned, hlow, hhigh, h.stacked.grant hraised ?_, ?_⟩
    · exact (Nat.le_add_right _ _).trans hraised
    · exact List.forall_mem_cons.mpr ⟨BitVec.le_def.mp h.low, h.above⟩
  next hneg =>
    refine ⟨haligned, hlow, hhigh, h.stacked.cut _, fun r hr => ?_⟩
    obtain ⟨old, hold, rfl⟩ := List.mem_map.mp hr
    exact h.above old hold

theorem Inv.bad (h : Inv s) (hbad : ¬ s.NotBelow increment) :
    ∃ t, s.step increment = some t ∧ ¬ t.InHeap := by
  obtain ⟨hgranted, hbelow⟩ := not_or.mp ((h.notBelow_iff increment).not.mp hbad)
  refine ⟨_, h.step_eq hgranted, fun ht => hbelow ?_⟩
  have hlow := ht.low
  split at hlow
  · exact hlow
  · exact hlow

/-! ## All calls -/

/-- The heap of a process is kept in order exactly by the calls that do not go below it. -/
theorem always_inHeap_iff (increments : List (BitVec 32)) :
    (Always step InHeap initial increments ∧ Admissible step Answers initial increments) ↔
      Admissible step NotBelow initial increments := by
  have hanswers : Admissible step Answers initial increments :=
    .of_forall fun increment _ s => answers s increment
  rw [and_iff_left hanswers]
  exact always_iff_admissible Inv (fun _ h => h.inHeap)
    (fun _ _ _ h _ hgood hstep => h.step hgood hstep) (fun _ _ h _ hbad => h.bad hbad) inv_initial
    hanswers

/-- The process gives back a page that it does not have. -/
theorem not_always_inHeap :
    ¬ ∀ increments : List (BitVec 32), Always step InHeap initial increments := by
  intro hclaim
  have hlow := ((hclaim [-0x1000]).2 _ rfl : InHeap _).low
  exact absurd hlow (by decide)

end UserHeap

end Senob.Syscalls
