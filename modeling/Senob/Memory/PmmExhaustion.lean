import Senob.Memory.PmmBounds

/-!
# When the allocator gives up

The scan goes through whole bytes of the bitmap. It rounds the first frame up to a byte and,
where the last byte is not complete, leaves out the byte before it as well. Which frames it
forgets, and for which limits it runs out of the bitmap, depends on the two frame indices
modulo eight.
-/

namespace Senob.Memory

open Senob.Foundation

namespace Pmm

variable {p q : Pmm}

/-- The frames between the limits of `pmm_init`. -/
def Usable (p : Pmm) (f : Nat) : Prop := p.pageFrameMinIndex ≤ f ∧ f < p.pageFrameMaxIndex

/-- An allocation stays inside the bitmap, and returns zero only if no usable frame is left. -/
def Exhaustive (p : Pmm) : Prop :=
  ∃ addr q, p.allocPageframe = some (addr, q) ∧ (addr = 0 → ∀ f, p.Usable f → q.used f = true)

/-- The limits do not leave a frame, or the bytes of the scan are exactly those of the frames
between them. From one to seven frames, the end of the scan wraps below zero. -/
def LimitsMatch (lo hi : Nat) : Prop :=
  hi < 0x1000 ∨ 0x8000 ≤ hi ∧
    (hi / 0x1000 ≤ ceilDiv lo pageFrameSize ∨
      0 < ceilDiv lo pageFrameSize ∧ ceilDiv lo pageFrameSize % 8 = 0 ∧ hi / 0x1000 % 8 = 0)

instance (lo hi : Nat) : Decidable (LimitsMatch lo hi) := inferInstanceAs (Decidable (_ ∨ _))

/-- What one operation can do. -/
theorem step_cases {op : Op} (h : p.step op = some q) :
    q = p ∨ (∃ f < 8 * bitmapLength, p.used f = false ∧ q = p.take f) ∨
      ∃ f < 8 * bitmapLength, p.used f = true ∧ q = p.release f := by
  cases op with
  | alloc =>
      obtain ⟨⟨addr, r⟩, halloc, rfl⟩ := Option.map_eq_some_iff.mp h
      rcases p.scanBytes_outcome p.startByte (p.endByte - p.startByte) with
        ⟨f, -, -, hlength, hclear, -, hresult⟩ | ⟨-, hresult⟩
      · obtain ⟨-, rfl⟩ := Prod.mk.inj (Option.some.inj (halloc.symm.trans hresult))
        exact Or.inr (Or.inl ⟨f, hlength, hclear, rfl⟩)
      · have hnone := halloc.symm.trans hresult
        split at hnone
        · exact Or.inl (Prod.mk.inj (Option.some.inj hnone)).2
        · cases hnone
  | free addr =>
      obtain ⟨hbound, rfl⟩ := freePageframe_cases h
      unfold freed
      split
      next hused => exact Or.inr (Or.inr ⟨_, by omega, hused, rfl⟩)
      next _ => exact Or.inl rfl

/-- The operations leave the limits alone. -/
theorem limits_run {ops : List Op} (hrun : runSteps step p ops = some q) :
    q.pageFrameMinIndex = p.pageFrameMinIndex ∧ q.pageFrameMaxIndex = p.pageFrameMaxIndex := by
  refine runSteps_of_mem (fun r : Pmm => r.pageFrameMinIndex = p.pageFrameMinIndex ∧
    r.pageFrameMaxIndex = p.pageFrameMaxIndex) (fun op _ r r' hr hstep => ?_) ⟨rfl, rfl⟩ hrun
  rcases step_cases hstep with rfl | ⟨f, -, -, rfl⟩ | ⟨f, -, -, rfl⟩
  · exact hr
  · exact hr
  · exact hr

/-! ## Until nothing is left -/

/-- Enough allocations in a row fill the window of the scan, as far as it lies in the bitmap,
and touch nothing else. -/
theorem exists_exhausted (p : Pmm) :
    ∃ n q, runSteps step p (List.replicate n .alloc) = some q ∧
      q.startByte = p.startByte ∧ q.endByte = p.endByte ∧
      (∀ f, 8 * p.startByte ≤ f → f < 8 * p.endByte → f < 8 * bitmapLength → q.used f = true) ∧
      ∀ f, f < 8 * p.startByte ∨ 8 * p.endByte ≤ f → q.used f = p.used f := by
  induction hfree : 8 * bitmapLength - p.physicalMemoryBitmap.count (8 * bitmapLength)
    using Nat.strong_induction_on generalizing p with
  | _ free ih =>
      rcases p.scanBytes_outcome p.startByte (p.endByte - p.startByte) with
        ⟨f, hlow, hhigh, hlength, hclear, -, hresult⟩ | ⟨hfull, -⟩
      · have hcount : (p.take f).physicalMemoryBitmap.count (8 * bitmapLength) =
            p.physicalMemoryBitmap.count (8 * bitmapLength) + 1 :=
          Bytes.count_setBit_true p.physicalMemoryBitmap hlength hclear
        have hle := Bytes.count_le (p.take f).physicalMemoryBitmap (8 * bitmapLength)
        obtain ⟨n, q, hrun, hstart, hend, hused, hother⟩ := ih _ (by omega) (p.take f) rfl
        have hstep : p.step .alloc = some (p.take f) := by
          rw [step, allocPageframe, hresult]
          rfl
        refine ⟨n + 1, q, ?_, hstart, hend, hused, fun g hg => ?_⟩
        · rw [List.replicate_succ, runSteps_cons, hstep]
          exact hrun
        · rw [hother g hg, used_take, if_neg]
          omega
      · exact ⟨0, p, rfl, rfl, rfl, fun f hlow hhigh hlength => hfull f hlow (by omega) hlength,
          fun _ _ => rfl⟩

/-- If all operations leave the allocator exhaustive, then so is it at the end of its frames. -/
theorem not_forall_exhaustive {f : Nat} (hf : p.Usable f) (hclear : p.used f = false)
    (houtside : f < 8 * p.startByte ∨ 8 * p.endByte ≤ f) :
    ¬ ∀ ops q, runSteps step p ops = some q → q.Exhaustive := by
  intro hall
  obtain ⟨n, q, hrun, hstart, hend, hused, hother⟩ := p.exists_exhausted
  obtain ⟨addr, r, halloc, hexhausted⟩ := hall _ q hrun
  obtain ⟨hmin, hmax⟩ := limits_run hrun
  rcases q.scanBytes_outcome q.startByte (q.endByte - q.startByte) with
    ⟨g, hlow, hhigh, hlength, hgclear, -, -⟩ | ⟨-, hresult⟩
  · have hgused := hused g (by omega) (by omega) hlength
    exact Bool.false_ne_true (hgclear.symm.trans hgused)
  · have hnone := halloc.symm.trans hresult
    split at hnone
    · obtain ⟨rfl, rfl⟩ := Prod.mk.inj (Option.some.inj hnone)
      have hfused := hexhausted rfl f (by unfold Usable at hf ⊢; rwa [hmin, hmax])
      exact Bool.false_ne_true ((hclear.symm.trans (hother f houtside).symm).trans hfused)
    · cases hnone

/-- A window that reaches behind the bitmap is left there once it is full. -/
theorem not_forall_exhaustive_of_long (hlong : bitmapLength < p.endByte)
    (hopen : p.startByte < p.endByte) :
    ¬ ∀ ops q, runSteps step p ops = some q → q.Exhaustive := by
  intro hall
  obtain ⟨n, q, hrun, hstart, hend, hused, -⟩ := p.exists_exhausted
  obtain ⟨addr, r, halloc, -⟩ := hall _ q hrun
  rcases q.scanBytes_outcome q.startByte (q.endByte - q.startByte) with
    ⟨g, hlow, hhigh, hlength, hgclear, -, -⟩ | ⟨-, hresult⟩
  · have hgused := hused g (by omega) (by omega) hlength
    exact Bool.false_ne_true (hgclear.symm.trans hgused)
  · rw [if_neg (by omega)] at hresult
    exact nomatch halloc.symm.trans hresult

/-! ## The limits -/

section Limits

variable {lo hi : Nat}

theorem used_init (lo hi f : Nat) : (init lo hi).used f = false := BitVec.getLsbD_zero

/-- The window of the scan. -/
theorem window_init (lo hi : Nat) :
    (init lo hi).startByte =
        ceilDiv lo pageFrameSize / 8 + (if ceilDiv lo pageFrameSize % 8 = 0 then 0 else 1) ∧
      (init lo hi).endByte =
        (hi / 0x1000 / 8 + 2 ^ 32 - if hi / 0x1000 % 8 = 0 then 0 else 1) % 2 ^ 32 := by
  constructor
  · change _ / 8 + (if ceilDiv lo pageFrameSize &&& 7 ≠ 0 then 1 else 0) = _
    rw [and_seven]
    exact congrArg _ (ite_not _ _ _)
  · change (_ / 8 + 2 ^ 32 - if hi / 0x1000 &&& 7 ≠ 0 then 1 else 0) % 2 ^ 32 = _
    rw [and_seven, ite_not]
    rfl

/-- If frame zero is the first one of the window, its address is taken for a failure. -/
theorem not_exhaustive_of_zero (hzero : ceilDiv lo pageFrameSize = 0) (hfit : 0x8000 ≤ hi) :
    ¬ (init lo hi).Exhaustive := by
  rintro ⟨addr, q, halloc, hexhausted⟩
  obtain ⟨hstart, -⟩ := window_init lo hi
  have husable : (init lo hi).Usable 1 := by
    refine ⟨?_, ?_⟩
    · exact hzero.le.trans (Nat.zero_le 1)
    · change 1 < hi / 0x1000
      omega
  rw [hzero] at hstart
  rcases (init lo hi).scanBytes_outcome (init lo hi).startByte
      ((init lo hi).endByte - (init lo hi).startByte) with
    ⟨f, hlow, -, -, -, hprev, hresult⟩ | ⟨-, hresult⟩
  · obtain ⟨rfl, rfl⟩ := Prod.mk.inj (Option.some.inj (halloc.symm.trans hresult))
    have hf : f = 0 := by
      by_contra hne
      have hused := hprev 0 (hstart ▸ by decide) (Nat.pos_of_ne_zero hne)
      exact Bool.false_ne_true ((used_init lo hi 0).symm.trans hused)
    subst hf
    have hused := hexhausted rfl 1 husable
    rw [used_take, if_neg (by decide), used_init] at hused
    exact Bool.false_ne_true hused
  · have hnone := halloc.symm.trans hresult
    split at hnone
    · obtain ⟨rfl, rfl⟩ := Prod.mk.inj (Option.some.inj hnone)
      exact Bool.false_ne_true ((used_init lo hi 1).symm.trans (hexhausted rfl 1 husable))
    · cases hnone

/-- Where the limits match, the window holds every usable frame and lies in the bitmap. -/
theorem exhaustive_of_limitsMatch (hhi : hi ≤ 0x20000000) (hmatch : LimitsMatch lo hi)
    {ops : List Op} (hrun : runSteps step (init lo hi) ops = some p) : p.Exhaustive := by
  obtain ⟨hmin, hmax⟩ := limits_run hrun
  have hstart : p.startByte = (init lo hi).startByte := by rw [startByte, startByte, hmin]
  have hend : p.endByte = (init lo hi).endByte := by rw [endByte, endByte, hmax]
  obtain ⟨hstartInit, hendInit⟩ := window_init lo hi
  have hlength : bitmapLength = 16384 := rfl
  have hlimits : p.pageFrameMinIndex = ceilDiv lo pageFrameSize ∧
      p.pageFrameMaxIndex = hi / 0x1000 := ⟨hmin, hmax⟩
  unfold LimitsMatch at hmatch
  have hwindow : p.endByte ≤ bitmapLength := by
    rw [hend, hendInit]
    split <;> omega
  rcases p.scanBytes_outcome p.startByte (p.endByte - p.startByte) with
    ⟨f, hlow, -, hflength, -, -, hresult⟩ | ⟨hfull, hresult⟩
  · refine ⟨_, _, hresult, fun hzero g hg => ?_⟩
    -- The frame that was taken is frame zero, which no usable frame can follow.
    have hf : f = 0 := (Nat.mul_eq_zero.mp hzero).resolve_right (by decide)
    unfold Usable at hg
    rw [hf, hstart, hstartInit] at hlow
    split at hlow <;> omega
  · rw [if_pos (by omega)] at hresult
    refine ⟨0, p, hresult, fun _ g hg => ?_⟩
    unfold Usable at hg
    rw [hend, hendInit] at hwindow
    refine hfull g ?_ ?_ ?_
    · rw [hstart, hstartInit]
      split <;> omega
    · rw [hstart, hend, hstartInit, hendInit]
      split <;> split <;> omega
    · omega

end Limits

/-- In every run from `pmm_init` the allocator stays inside its bitmap and fails only when no
frame between the limits is left, exactly for the limits that match. -/
theorem exhaustive_iff {lo hi : Nat} (hhi : hi ≤ 0x20000000) :
    (∀ ops p, runSteps step (init lo hi) ops = some p → p.Exhaustive) ↔ LimitsMatch lo hi := by
  refine ⟨fun hall => ?_, fun hmatch ops p hrun => exhaustive_of_limitsMatch hhi hmatch hrun⟩
  by_contra hmismatch
  obtain ⟨hstart, hend⟩ := window_init lo hi
  unfold LimitsMatch at hmismatch
  have hceil : ceilDiv lo pageFrameSize ≤ 0x100000 := by
    rw [ceilDiv, pageFrameSize]
    omega
  by_cases hwrap : hi < 0x8000
  · refine not_forall_exhaustive_of_long ?_ ?_ hall
    · rw [hend, if_neg (by omega), show bitmapLength = 16384 from rfl]
      omega
    · rw [hstart, hend, if_neg (show ¬ hi / 0x1000 % 8 = 0 by omega)]
      split <;> omega
  by_cases hzero : ceilDiv lo pageFrameSize = 0
  · exact not_exhaustive_of_zero hzero (Nat.le_of_not_lt hwrap) (hall [] _ rfl)
  by_cases hmin : ceilDiv lo pageFrameSize % 8 = 0
  · refine not_forall_exhaustive (f := hi / 0x1000 - 1) ⟨?_, ?_⟩ (used_init lo hi _) ?_ hall
    · change ceilDiv lo pageFrameSize ≤ _
      omega
    · change _ < hi / 0x1000
      omega
    · rw [hend]
      right
      split <;> omega
  · refine not_forall_exhaustive (f := ceilDiv lo pageFrameSize) ⟨le_rfl, ?_⟩
      (used_init lo hi _) ?_ hall
    · change _ < hi / 0x1000
      omega
    · rw [hstart, if_neg hmin]
      left
      omega

theorem exhaustive_aligned :
    (∀ ops p, runSteps step (init 0x1000000 0x8000000) ops = some p → p.Exhaustive) ↔
      LimitsMatch 0x1000000 0x8000000 :=
  exhaustive_iff (by decide)

/-- With frames 1 to 8 between the limits, the scan has no byte to look at. -/
theorem not_exhaustive_nineFrames :
    ¬ ∀ lo hi : Nat, lo < 2 ^ 32 → hi ≤ 0x20000000 → ∀ ops p,
      runSteps step (init lo hi) ops = some p → p.Exhaustive := by
  intro hall
  obtain ⟨addr, q, halloc, hexhausted⟩ := hall 0x1000 0x9000 (by decide) (by decide) [] _ rfl
  have hnone : (init 0x1000 0x9000).allocPageframe = some (0, init 0x1000 0x9000) := rfl
  obtain ⟨rfl, rfl⟩ := Prod.mk.inj (Option.some.inj (hnone.symm.trans halloc))
  have hused := hexhausted rfl 1 (by constructor <;> decide)
  exact Bool.false_ne_true ((used_init 0x1000 0x9000 1).symm.trans hused)

end Pmm

end Senob.Memory
