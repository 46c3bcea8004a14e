import Mathlib.Algebra.Ring.Nat
import Mathlib.Data.List.Basic

/-!
# Waiting for the timer

`PitWait` of `kernel.c`. The counter of timer ticks has 64 bits, but the loop starts from a copy
of its low word, and the delay is incremented as a word.
-/

namespace Senob.Sys

/-- The loop, with the values of `pit_ticks` that it sees. The result is the value on which it
ends, and `none` while it waits. -/
def waitLoop (now ms : BitVec 64) : List (BitVec 64) → Option (BitVec 64)
  | [] => none
  | pitTicks :: later =>
      if pitTicks - now < ms then waitLoop now ms later else some pitTicks

/-- `PitWait`, with the value of `pit_ticks` at its entry and the later ones. -/
def pitWait (ms : BitVec 32) (pitTicks : BitVec 64) (later : List (BitVec 64)) :
    Option (BitVec 64) :=
  let now : BitVec 32 := pitTicks.setWidth 32
  let ms := ms + 1
  waitLoop (now.setWidth 64) (ms.setWidth 64) later

/-- The call returns only when the delay has passed since the entry. -/
def NeverEarly (ms : BitVec 32) (entry : BitVec 64) (later : List (BitVec 64)) : Prop :=
  ∀ ticks ∈ pitWait ms entry later, entry.toNat + ms.toNat ≤ ticks.toNat

/-! ## The loop -/

variable {ms : BitVec 32} {entry now wait : BitVec 64} {later : List (BitVec 64)}

theorem waitLoop_some {ticks : BitVec 64} (h : waitLoop now wait later = some ticks) :
    ticks ∈ later ∧ ¬ ticks - now < wait := by
  induction later with
  | nil => cases h
  | cons first rest ih =>
      rw [waitLoop] at h
      split at h
      next _ => exact (ih h).imp_left (List.mem_cons_of_mem _)
      next hdone =>
        obtain rfl := Option.some.inj h
        exact ⟨List.mem_cons_self, hdone⟩

theorem waitLoop_eq_head? (h : ∀ ticks ∈ later, ¬ ticks - now < wait) :
    waitLoop now wait later = later.head? := by
  cases later with
  | nil => rfl
  | cons first rest => exact if_neg (h first List.mem_cons_self)

theorem toNat_low (entry : BitVec 64) :
    ((entry.setWidth 32).setWidth 64).toNat = entry.toNat % 2 ^ 32 := by
  rw [BitVec.toNat_setWidth_of_le (by decide), BitVec.toNat_setWidth]

theorem toNat_succ_ms (ms : BitVec 32) :
    ((ms + 1).setWidth 64).toNat = (ms.toNat + 1) % 2 ^ 32 := by
  rw [BitVec.toNat_setWidth_of_le (by decide), BitVec.toNat_add]
  rfl

theorem toNat_since {ticks : BitVec 64} (h : now ≤ ticks) :
    (ticks - now).toNat = ticks.toNat - now.toNat :=
  BitVec.toNat_sub_of_le h

/-- The copy is the counter, and the incremented delay is not zero. -/
theorem neverEarly_of_lt (hmono : ∀ ticks ∈ later, entry ≤ ticks) (hentry : entry.toNat < 2 ^ 32)
    (hms : ms.toNat ≠ 2 ^ 32 - 1) : NeverEarly ms entry later := by
  intro ticks hticks
  obtain ⟨hmem, hdone⟩ := waitLoop_some hticks
  have hle := hmono ticks hmem
  have hms' := ms.isLt
  have hnow : (entry.setWidth 32).setWidth 64 = entry := by
    apply BitVec.eq_of_toNat_eq
    rw [toNat_low, Nat.mod_eq_of_lt hentry]
  rw [hnow, BitVec.lt_def, toNat_since hle, toNat_succ_ms, Nat.mod_eq_of_lt (by omega)] at hdone
  rw [BitVec.le_def] at hle
  omega

/-- Otherwise the first comparison ends the loop. -/
theorem pitWait_eq_head? (hmono : ∀ ticks ∈ later, entry ≤ ticks)
    (h : ¬ (entry.toNat < 2 ^ 32 ∧ ms.toNat ≠ 2 ^ 32 - 1)) :
    pitWait ms entry later = later.head? := by
  apply waitLoop_eq_head?
  intro ticks hmem
  have hle : entry.toNat ≤ ticks.toNat := hmono ticks hmem
  have hms := ms.isLt
  have hlow := toNat_low entry
  have hnow : (entry.setWidth 32).setWidth 64 ≤ ticks := by
    rw [BitVec.le_def, hlow]
    omega
  rw [BitVec.lt_def, toNat_since hnow, hlow, toNat_succ_ms]
  -- Either the difference has more than 32 bits, or the delay has become zero.
  omega

/-- For every entry, delay and sequence of later values, `PitWait` is never early when it is called
before the counter outgrows a word, with a delay that has a successor; in any other case it returns
on the first value that it sees. -/
theorem neverEarly_iff (hmono : (entry :: later).Pairwise (· ≤ ·)) :
    NeverEarly ms entry later ↔
      entry.toNat < 2 ^ 32 ∧ ms.toNat ≠ 2 ^ 32 - 1 ∨
        ∀ ticks ∈ later.head?, entry.toNat + ms.toNat ≤ ticks.toNat := by
  have hlater := (List.pairwise_cons.mp hmono).1
  by_cases h : entry.toNat < 2 ^ 32 ∧ ms.toNat ≠ 2 ^ 32 - 1
  · exact iff_of_true (neverEarly_of_lt hlater h.1 h.2) (Or.inl h)
  · rw [or_iff_right h, NeverEarly, pitWait_eq_head? hlater h]

theorem neverEarly_first_minute : NeverEarly 10 60000 [60000, 60005, 60011] :=
  (neverEarly_iff (by decide)).mpr (Or.inl ⟨by decide, by decide⟩)

/-- After 2^32 ticks the loop sees a difference that no delay reaches. -/
theorem not_neverEarly :
    ¬ ∀ ms entry later, (entry :: later).Pairwise (· ≤ ·) → NeverEarly ms entry later := by
  intro h
  exact absurd (h 10 0x100000000 [0x100000000] (by decide) _ rfl) (by decide)

end Senob.Sys
