import Senob.Foundation.Run
import Senob.Memory.Pmm

/-!
# Runs of the page-frame allocator

Every sequence of allocations and frees keeps the counter equal to the number of
set bits, and hands out only clear frames inside the limits of `pmm_init`.
-/

namespace Senob.Memory

open Senob.Foundation

namespace Pmm

inductive Op where
  | alloc
  | free (addr : Nat)

def step (p : Pmm) : Op → Option Pmm
  | .alloc => p.allocPageframe.map Prod.snd
  | .free addr => p.freePageframe addr

/-- The counter of `pmm.c` is the population count of its bitmap, and the limits
are those of `pmm_init`. -/
structure Wf (lo hi : Nat) (p : Pmm) : Prop where
  minIndex : p.pageFrameMinIndex = ceilDiv lo pageFrameSize
  maxIndex : p.pageFrameMaxIndex = hi / pageFrameSize
  counter : p.totalAllocated = p.physicalMemoryBitmap.count (8 * bitmapLength)

theorem init_wf (lo hi : Nat) : (init lo hi).Wf lo hi :=
  ⟨rfl, rfl, (Bytes.count_zero _).symm⟩

theorem Wf.take {lo hi f : Nat} {p : Pmm} (h : p.Wf lo hi) (hf : f < 8 * bitmapLength)
    (hclear : p.used f = false) : (p.take f).Wf lo hi := by
  refine ⟨h.minIndex, h.maxIndex, ?_⟩
  have hcount := Bytes.count_setBit_true p.physicalMemoryBitmap hf hclear
  have hbound := Bytes.count_le (p.physicalMemoryBitmap.setBit f true) (8 * bitmapLength)
  have hlength : bitmapLength = 16384 := rfl
  change (p.totalAllocated + 1) % 2 ^ 32 = _
  change _ = (p.physicalMemoryBitmap.setBit f true).count _
  rw [h.counter, ← hcount, Nat.mod_eq_of_lt (by omega)]

theorem Wf.release {lo hi f : Nat} {p : Pmm} (h : p.Wf lo hi) (hf : f < 8 * bitmapLength)
    (hset : p.used f = true) : (p.release f).Wf lo hi := by
  refine ⟨h.minIndex, h.maxIndex, ?_⟩
  have hcount := Bytes.count_setBit_false p.physicalMemoryBitmap hf hset
  have hbound := Bytes.count_le p.physicalMemoryBitmap (8 * bitmapLength)
  have hlength : bitmapLength = 16384 := rfl
  change (p.totalAllocated + 2 ^ 32 - 1) % 2 ^ 32 = _
  change _ = (p.physicalMemoryBitmap.setBit f false).count _
  rw [h.counter]
  omega

/-- What a successful allocation promises about its frame. -/
structure Grant (lo hi : Nat) (p : Pmm) (addr : Nat) (q : Pmm) : Prop where
  aligned : addr % pageFrameSize = 0
  low : lo ≤ addr
  high : addr + pageFrameSize ≤ hi
  wasClear : p.used (addr / pageFrameSize) = false
  isSet : q.used (addr / pageFrameSize) = true
  frame : ∀ g, g ≠ addr / pageFrameSize → q.used g = p.used g

section Limits

variable {lo hi : Nat} (hlo : 1 ≤ lo ∧ lo ≤ 0xFFFFF000) (hhi : 0x8000 ≤ hi ∧ hi ≤ 0x20000000)

include hlo in
/-- The scan starts above the rounded lower limit, and never at frame zero. -/
theorem Wf.startByte_bound {p : Pmm} (h : p.Wf lo hi) :
    lo ≤ 8 * p.startByte * pageFrameSize ∧ 0 < p.startByte := by
  have hmin : p.pageFrameMinIndex = (lo + 4095) / 4096 := by
    rw [h.minIndex, ceilDiv, pageFrameSize]
    omega
  simp only [startByte, and_seven, hmin, pageFrameSize]
  split <;> omega

include hhi in
/-- The scan ends below the rounded upper limit and inside the array. -/
theorem Wf.endByte_bound {p : Pmm} (h : p.Wf lo hi) :
    8 * p.endByte * pageFrameSize ≤ hi ∧ p.endByte ≤ bitmapLength := by
  have hlength : bitmapLength = 16384 := rfl
  simp only [endByte, and_seven, h.maxIndex, pageFrameSize]
  split <;> omega

include hlo hhi in
/-- An allocation is defined, keeps the invariant, and either changes nothing or
grants one frame. -/
theorem Wf.allocPageframe {p : Pmm} (h : p.Wf lo hi) :
    ∃ addr q, p.allocPageframe = some (addr, q) ∧ q.Wf lo hi ∧
      (addr = 0 → q = p) ∧ (addr ≠ 0 → Grant lo hi p addr q) := by
  obtain ⟨hstart, hpos⟩ := h.startByte_bound hlo
  obtain ⟨hend, hlen⟩ := h.endByte_bound hhi
  rcases p.scanBytes_outcome p.startByte (p.endByte - p.startByte) with
    ⟨f, hlow, hhigh, hflen, hclear, _, hres⟩ | ⟨_, hres⟩
  · have hframe : f * pageFrameSize / pageFrameSize = f := Nat.mul_div_cancel f (by decide)
    refine ⟨f * pageFrameSize, p.take f, hres, h.take hflen hclear, fun hzero => ?_, fun _ => ?_⟩
    · simp only [pageFrameSize] at hzero
      omega
    · refine ⟨Nat.mul_mod_left f _, ?_, ?_, ?_, ?_, ?_⟩
      · calc lo ≤ 8 * p.startByte * pageFrameSize := hstart
          _ ≤ f * pageFrameSize := Nat.mul_le_mul_right _ hlow
      · calc f * pageFrameSize + pageFrameSize = (f + 1) * pageFrameSize := (Nat.succ_mul f _).symm
          _ ≤ 8 * p.endByte * pageFrameSize := Nat.mul_le_mul_right _ (by omega)
          _ ≤ hi := hend
      · rwa [hframe]
      · rw [hframe, used_take, if_pos rfl]
      · intro g hg
        rw [hframe] at hg
        rw [used_take, if_neg hg]
  · rw [if_pos (by omega)] at hres
    exact ⟨0, p, hres, h, fun _ => rfl, fun hne => absurd rfl hne⟩

theorem frame_in_bitmap {addr : Nat} (haddr : addr < 0x20000000) :
    addr / pageFrameSize / 8 < bitmapLength ∧ addr / pageFrameSize < 8 * bitmapLength := by
  have hlength : bitmapLength = 16384 := rfl
  simp only [pageFrameSize]
  omega

/-- A free is defined, keeps the invariant, and touches at most its own frame. -/
theorem Wf.freePageframe {p : Pmm} (h : p.Wf lo hi) {addr : Nat} (haddr : addr < 0x20000000) :
    ∃ q, p.freePageframe addr = some q ∧ q.Wf lo hi ∧
      (p.used (addr / pageFrameSize) = false → q = p) ∧
      (∀ g, g ≠ addr / pageFrameSize → q.used g = p.used g) := by
  obtain ⟨hbyte, hbit⟩ := frame_in_bitmap haddr
  rw [freePageframe_eq p hbyte]
  cases hused : p.used (addr / pageFrameSize) with
  | false => exact ⟨p, by simp, h, fun _ => rfl, fun _ _ => rfl⟩
  | true =>
      refine ⟨_, rfl, h.release hbit hused, fun hne => absurd hne (by simp), fun g hg => ?_⟩
      rw [if_pos rfl, used_release, if_neg hg]

/-- Frees stay below the end of the memory that the bitmap describes. -/
def Op.InRange : Op → Prop
  | .alloc => True
  | .free addr => addr < 0x20000000

include hlo hhi in
theorem Wf.step {p : Pmm} (h : p.Wf lo hi) {op : Op} (hop : op.InRange) :
    ∃ q, p.step op = some q ∧ q.Wf lo hi := by
  cases op with
  | alloc =>
      obtain ⟨addr, q, hres, hq, _⟩ := h.allocPageframe hlo hhi
      exact ⟨q, by simp [Pmm.step, hres], hq⟩
  | free addr =>
      obtain ⟨q, hres, hq, _⟩ := h.freePageframe hop
      exact ⟨q, hres, hq⟩

theorem admissible_of_forall {p : Pmm} {ops : List Op} (hops : ∀ op ∈ ops, op.InRange) :
    Admissible step (fun _ op => op.InRange) p ops := by
  induction ops generalizing p with
  | nil => trivial
  | cons op rest ih =>
      exact ⟨hops op List.mem_cons_self, fun _ _ => ih fun op hop =>
        hops op (List.mem_cons_of_mem _ hop)⟩

include hlo hhi in
theorem Wf.run {p : Pmm} (h : p.Wf lo hi) {ops : List Op} (hops : ∀ op ∈ ops, op.InRange) :
    ∃ q, runSteps Pmm.step p ops = some q ∧ q.Wf lo hi :=
  runSteps_total (Wf lo hi) (fun _ _ hs hop => hs.step hlo hhi hop) h
    (admissible_of_forall hops)

/-- The operation does not free frame `f`. -/
def Op.Keeps (f : Nat) : Op → Prop
  | .alloc => True
  | .free addr => addr / pageFrameSize ≠ f

include hlo hhi in
/-- A used frame stays used for as long as it is not freed. -/
theorem Wf.run_keeps {p q : Pmm} (h : p.Wf lo hi) {f : Nat} (hf : p.used f = true)
    {ops : List Op} (hops : ∀ op ∈ ops, op.InRange ∧ op.Keeps f)
    (hrun : runSteps Pmm.step p ops = some q) : q.used f = true := by
  have hadm : Admissible Pmm.step (fun _ op => op.InRange ∧ op.Keeps f) p ops := by
    clear hrun h hf
    induction ops generalizing p with
    | nil => trivial
    | cons op rest ih =>
        exact ⟨hops op List.mem_cons_self, fun _ _ => ih fun op hop =>
          hops op (List.mem_cons_of_mem _ hop)⟩
  refine (runSteps_invariant (fun r => r.Wf lo hi ∧ r.used f = true) ?_
    ⟨h, hf⟩ hadm hrun).2
  rintro r op t ⟨hr, hrf⟩ ⟨hop, hkeeps⟩ hstep
  cases op with
  | alloc =>
      obtain ⟨addr, t', hres, ht, hzero, hgrant⟩ := hr.allocPageframe hlo hhi
      obtain rfl : t' = t := by simpa [Pmm.step, hres] using hstep
      refine ⟨ht, ?_⟩
      by_cases haddr : addr = 0
      · rwa [hzero haddr]
      · have hg := hgrant haddr
        rw [hg.frame f ?_, hrf]
        rintro rfl
        simp [hg.wasClear] at hrf
  | free addr =>
      obtain ⟨t', hres, ht, _, hframe⟩ := hr.freePageframe hop
      obtain rfl : t' = t := by simpa [Pmm.step, hres] using hstep
      exact ⟨ht, by rw [hframe f (Ne.symm hkeeps), hrf]⟩

end Limits

/-- After every run of allocations and frees from `pmm_init`, the counter is the
number of set bits; an allocation grants one clear, aligned frame inside the
limits, which no later allocation returns until it is freed, or changes nothing;
and freeing a free frame changes nothing. -/
theorem run_grants_once {lo hi : Nat} (hlo : 1 ≤ lo ∧ lo ≤ 0xFFFFF000)
    (hhi : 0x8000 ≤ hi ∧ hi ≤ 0x20000000) {ops : List Op} (hops : ∀ op ∈ ops, op.InRange) :
    ∃ p, runSteps step (init lo hi) ops = some p ∧
      p.totalAllocated = p.physicalMemoryBitmap.count (8 * bitmapLength) ∧
      (∃ addr q, p.allocPageframe = some (addr, q) ∧ (addr = 0 → q = p) ∧
        (addr ≠ 0 → Grant lo hi p addr q ∧
          ∀ later, (∀ op ∈ later, op.InRange ∧ op.Keeps (addr / pageFrameSize)) →
            ∃ r again s, runSteps step q later = some r ∧
              r.allocPageframe = some (again, s) ∧ again ≠ addr)) ∧
      (∀ addr < 0x20000000, p.used (addr / pageFrameSize) = false →
        p.freePageframe addr = some p) := by
  obtain ⟨p, hrun, hp⟩ := (init_wf lo hi).run hlo hhi hops
  refine ⟨p, hrun, hp.counter, ?_, ?_⟩
  · obtain ⟨addr, q, hres, hq, hzero, hgrant⟩ := hp.allocPageframe hlo hhi
    refine ⟨addr, q, hres, hzero, fun hne => ⟨hgrant hne, fun later hlater => ?_⟩⟩
    obtain ⟨r, hlrun, hr⟩ := hq.run hlo hhi fun op hop => (hlater op hop).1
    obtain ⟨again, s, hagain, _, _, hgrant'⟩ := hr.allocPageframe hlo hhi
    refine ⟨r, again, s, hlrun, hagain, ?_⟩
    rintro rfl
    have hkept := hq.run_keeps hlo hhi (hgrant hne).isSet hlater hlrun
    simp [(hgrant' hne).wasClear] at hkept
  · intro addr haddr hclear
    obtain ⟨q, hres, _, hsame, _⟩ := hp.freePageframe haddr
    rw [hres, hsame hclear]

theorem run_grants_once_twoOps :
    ∃ p, runSteps step (init 0x1000000 0x8000000) [.alloc, .free 0x1000000] = some p ∧
      p.totalAllocated = p.physicalMemoryBitmap.count (8 * bitmapLength) :=
  have ⟨p, hrun, hcount, _⟩ := @run_grants_once 0x1000000 0x8000000 (by decide) (by decide)
    [.alloc, .free 0x1000000] (by simp [Op.InRange])
  ⟨p, hrun, hcount⟩

end Pmm

end Senob.Memory
