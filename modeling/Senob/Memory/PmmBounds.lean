import Senob.Memory.PmmRuns

/-!
# Which memory sizes the bitmap covers

`PAGE_FRAMES` divides the number of frames by eight, and the declaration of
`physical_memory_bitmap` divides by eight again, so the array describes 512 MiB.
`kernel_main` passes the memory size on without a bound. The limits for which
every index stays inside the array are exactly those of `BitmapCovers`.
-/

namespace Senob.Memory

open Senob.Foundation

/-- `physicalAllocStart` in `kernel_main`. -/
def physicalAllocStart (usingRamdisk : Bool) (physAddr size : Nat) : Nat :=
  if usingRamdisk then (physAddr + size + 0xFFF) % 2 ^ 32 &&& 0xFFFFF000 else 0x100000 * 16

/-- The `memHigh` that `kernel_main` passes, `mem_upper * 1024`. -/
def memoryHigh (memUpper : Nat) : Nat := memUpper * 1024 % 2 ^ 32

/-- `init_memory` hands both values to `pmm_init`. -/
def bootPmm (memUpper : Nat) (usingRamdisk : Bool) (physAddr size : Nat) : Pmm :=
  Pmm.init (physicalAllocStart usingRamdisk physAddr size) (memoryHigh memUpper)

/-- The limits for which no run leaves the array: there is less than one frame;
or the upper limit rounds down to at most `bitmapLength` whole bytes; or the
window of bytes between the limits is empty. Between one and eight frames the
subtraction in `end` wraps. -/
def BitmapCovers (lo hi : Nat) : Prop :=
  hi < 0x1000 ∨ 0x8000 ≤ hi ∧
    (hi / 0x8000 - (if hi / 0x1000 % 8 = 0 then 0 else 1) ≤ bitmapLength ∨
      hi / 0x8000 - (if hi / 0x1000 % 8 = 0 then 0 else 1) ≤ (lo + 0x7FFF) / 0x8000)

theorem and_frameMask {n : Nat} (hn : n < 2 ^ 32) : n &&& 0xFFFFF000 = n / 4096 * 4096 := by
  have hmask : (0xFFFFF000 : Nat) = 2 ^ 12 * (2 ^ 20 - 1) := by decide
  have hquot : n / 4096 * 4096 = 2 ^ 12 * (n / 2 ^ 12) := by omega
  rw [hmask, hquot]
  apply Nat.eq_of_testBit_eq
  intro i
  rw [Nat.testBit_and, Nat.testBit_two_pow_mul, Nat.testBit_two_pow_mul,
    Nat.testBit_two_pow_sub_one, Nat.testBit_div_two_pow]
  by_cases hi : 12 ≤ i
  · by_cases hi' : i < 32
    · simp [hi, show i - 12 < 20 by omega, show i - 12 + 12 = i by omega]
    · have : n < 2 ^ i := hn.trans_le (Nat.pow_le_pow_right (by decide) (by omega))
      simp [hi, Nat.testBit_lt_two_pow this, show i - 12 + 12 = i by omega]
  · simp [hi]

theorem physicalAllocStart_bound (usingRamdisk : Bool) (physAddr size : Nat) :
    physicalAllocStart usingRamdisk physAddr size ≤ 0xFFFFF000 := by
  unfold physicalAllocStart
  split
  · rw [and_frameMask (Nat.mod_lt _ (by decide))]
    omega
  · decide

namespace Pmm

/-- A state of the allocator with the addresses that it has returned so far. -/
structure Logged where
  pmm : Pmm
  returned : List Nat

def Logged.step (s : Logged) : Op → Option Logged
  | .alloc => s.pmm.allocPageframe.map fun (addr, p) => ⟨p, addr :: s.returned⟩
  | .free addr => (s.pmm.freePageframe addr).map fun p => ⟨p, s.returned⟩

/-- Only addresses that the allocator returned are freed. -/
def Logged.enabled (s : Logged) : Op → Prop
  | .alloc => True
  | .free addr => addr ∈ s.returned

section Covered

variable {p : Pmm} (hcover : p.endByte ≤ bitmapLength ∨ p.endByte ≤ p.startByte)

include hcover in
/-- Inside the array an allocation is defined and returns an address that the
bitmap describes. -/
theorem allocPageframe_covered :
    ∃ addr q, p.allocPageframe = some (addr, q) ∧ addr < 0x20000000 ∧
      q.startByte = p.startByte ∧ q.endByte = p.endByte := by
  rcases p.scanBytes_outcome p.startByte (p.endByte - p.startByte) with
    ⟨f, _, _, hflen, _, _, hres⟩ | ⟨_, hres⟩
  · have haddr : f * pageFrameSize < 8 * bitmapLength * pageFrameSize :=
      Nat.mul_lt_mul_of_pos_right hflen (by decide)
    exact ⟨_, _, hres, haddr, rfl, rfl⟩
  · rw [if_pos (by omega)] at hres
    exact ⟨0, p, hres, by decide, rfl, rfl⟩

include hcover in
theorem run_covered {ops : List Op}
    (hops : Admissible Logged.step Logged.enabled ⟨p, []⟩ ops) :
    ∃ s, runSteps Logged.step ⟨p, []⟩ ops = some s := by
  let inv (s : Logged) : Prop := s.pmm.startByte = p.startByte ∧ s.pmm.endByte = p.endByte ∧
    ∀ addr ∈ s.returned, addr < 0x20000000
  have hstep : ∀ s op, inv s → s.enabled op → ∃ t, s.step op = some t ∧ inv t := by
    rintro ⟨q, returned⟩ op ⟨hstart, hend, hret⟩ hop
    cases op with
    | alloc =>
        obtain ⟨addr, r, hres, haddr, hrs, hre⟩ :=
          allocPageframe_covered (p := q) (by rw [hstart, hend]; exact hcover)
        refine ⟨⟨r, addr :: returned⟩, by simp [Logged.step, hres], hrs.trans hstart,
          hre.trans hend, ?_⟩
        intro a ha
        rcases List.mem_cons.mp ha with rfl | ha
        · exact haddr
        · exact hret a ha
    | free addr =>
        have hbyte := (frame_in_bitmap (hret addr hop)).1
        simp only [Logged.step, freePageframe_eq q hbyte, Option.map_some]
        refine ⟨_, rfl, ?_, ?_, hret⟩
        · dsimp only
          split <;> exact hstart
        · dsimp only
          split <;> exact hend
  obtain ⟨s, hs, _⟩ := runSteps_total inv hstep ⟨rfl, rfl, by simp⟩ hops
  exact ⟨s, hs⟩

end Covered

/-- A window that starts past the array is left at once. -/
theorem allocPageframe_eq_none {p : Pmm} (hstart : bitmapLength ≤ p.startByte)
    (hopen : p.startByte < p.endByte) : p.allocPageframe = none := by
  rcases p.scanBytes_outcome p.startByte (p.endByte - p.startByte) with
    ⟨f, _, _, _, _, _, _⟩ | ⟨_, hres⟩
  · omega
  · rwa [if_neg (by omega)] at hres

/-- When the window of the scan reaches past the array, enough allocations in a
row make it read outside: each of them fills one frame that the array describes. -/
theorem exists_out_of_bounds {p : Pmm} (hlong : bitmapLength < p.endByte)
    (hopen : p.startByte < p.endByte) (returned : List Nat) :
    ∃ n, runSteps Logged.step ⟨p, returned⟩ (List.replicate n .alloc) = none := by
  induction hfree : 8 * bitmapLength - p.physicalMemoryBitmap.count (8 * bitmapLength)
    using Nat.strong_induction_on generalizing p returned with
  | _ free ih =>
      rcases p.scanBytes_outcome p.startByte (p.endByte - p.startByte) with
        ⟨f, _, _, hflen, hclear, _, hres⟩ | ⟨_, hres⟩
      · have hcount := Bytes.count_setBit_true p.physicalMemoryBitmap hflen hclear
        have hle := Bytes.count_le (p.take f).physicalMemoryBitmap (8 * bitmapLength)
        have hmore : (p.take f).physicalMemoryBitmap.count (8 * bitmapLength) =
            p.physicalMemoryBitmap.count (8 * bitmapLength) + 1 := hcount
        obtain ⟨n, hn⟩ := ih _ (by omega) (p := p.take f) hlong hopen
          (f * pageFrameSize :: returned) rfl
        refine ⟨n + 1, ?_⟩
        rw [List.replicate_succ, runSteps_cons]
        have hstep : Logged.step ⟨p, returned⟩ .alloc =
            some ⟨p.take f, f * pageFrameSize :: returned⟩ := by
          simp only [Logged.step, allocPageframe, hres, Option.map_some]
        rw [hstep]
        exact hn
      · rw [if_neg (by omega)] at hres
        refine ⟨1, ?_⟩
        simp [runSteps_cons, Logged.step, allocPageframe, hres]

theorem admissible_replicate_alloc (s : Logged) (n : Nat) :
    Admissible Logged.step Logged.enabled s (List.replicate n .alloc) := by
  induction n generalizing s with
  | zero => trivial
  | succ n ih => exact ⟨trivial, fun t _ => ih t⟩

theorem startByte_init {lo : Nat} (hlo : lo ≤ 0xFFFFF000) (hi : Nat) :
    (init lo hi).startByte = (lo + 0x7FFF) / 0x8000 := by
  simp only [startByte, init, ceilDiv, and_seven, pageFrameSize]
  split <;> omega

/-- The scan stays inside the array if and only if the limits are covered. -/
theorem covers_iff_window {lo hi : Nat} (hlo : lo ≤ 0xFFFFF000) (hhi : hi < 2 ^ 32) :
    BitmapCovers lo hi ↔ (init lo hi).endByte ≤ bitmapLength ∨
      (init lo hi).endByte ≤ (init lo hi).startByte := by
  have hlength : bitmapLength = 16384 := rfl
  have hend : (init lo hi).endByte =
      (hi / 0x8000 + 2 ^ 32 - if hi / 0x1000 % 8 = 0 then 0 else 1) % 2 ^ 32 := by
    simp only [endByte, init, and_seven, pageFrameSize, Nat.div_div_eq_div_mul, ne_eq, ite_not]
  rw [startByte_init hlo, hend, BitmapCovers, hlength]
  split <;> omega

end Pmm

/-- For every memory size and ramdisk, all runs of allocations and of frees of
returned addresses index inside `physical_memory_bitmap` exactly when the limits
that `kernel_main` passes are covered. -/
theorem bootPmm_in_bounds_iff {memUpper physAddr size : Nat} {usingRamdisk : Bool} :
    (∀ ops, Admissible Pmm.Logged.step Pmm.Logged.enabled
        ⟨bootPmm memUpper usingRamdisk physAddr size, []⟩ ops →
      ∃ s, runSteps Pmm.Logged.step ⟨bootPmm memUpper usingRamdisk physAddr size, []⟩ ops =
        some s) ↔
    BitmapCovers (physicalAllocStart usingRamdisk physAddr size) (memoryHigh memUpper) := by
  have hhigh : memoryHigh memUpper < 2 ^ 32 := Nat.mod_lt _ (by decide)
  rw [Pmm.covers_iff_window (physicalAllocStart_bound _ _ _) hhigh]
  constructor
  · intro hruns
    by_contra hcover
    obtain ⟨n, hn⟩ := Pmm.exists_out_of_bounds
      (p := bootPmm memUpper usingRamdisk physAddr size) (by unfold bootPmm; omega)
      (by unfold bootPmm; omega) []
    obtain ⟨s, hs⟩ := hruns _ (Pmm.admissible_replicate_alloc _ n)
    rw [hn] at hs
    cases hs
  · intro hcover ops hops
    exact Pmm.run_covered hcover hops

/-- On a machine with 2 GiB whose ramdisk ends at 512 MiB, the very first
allocation reads byte 16384 of the bitmap. -/
theorem bootPmm_first_alloc_out_of_bounds :
    ¬ ∀ (memUpper : Nat) (usingRamdisk : Bool) (physAddr size : Nat) (ops : List Pmm.Op),
      Admissible Pmm.Logged.step Pmm.Logged.enabled
        ⟨bootPmm memUpper usingRamdisk physAddr size, []⟩ ops →
      ∃ s, runSteps Pmm.Logged.step ⟨bootPmm memUpper usingRamdisk physAddr size, []⟩ ops =
        some s := by
  intro h
  obtain ⟨s, hs⟩ := h 0x1FFC00 true 0x1FF00000 0x100000 [.alloc] ⟨trivial, fun _ _ => trivial⟩
  have hnone : runSteps Pmm.Logged.step ⟨bootPmm 0x1FFC00 true 0x1FF00000 0x100000, []⟩
      [.alloc] = none := by
    have hres := Pmm.allocPageframe_eq_none (p := bootPmm 0x1FFC00 true 0x1FF00000 0x100000)
      (by decide) (by decide)
    simp [runSteps_cons, Pmm.Logged.step, hres]
  rw [hnone] at hs
  cases hs

end Senob.Memory
