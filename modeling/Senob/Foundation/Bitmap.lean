import Mathlib.Data.Finset.Card
import Mathlib.Logic.Function.Basic
import Mathlib.Order.Interval.Finset.Nat

/-!
# Bitmaps stored in bytes

A bitmap is a sequence of bytes, and bit `f` is bit `f % 8` of byte `f / 8`.
Programs update a bitmap with masks; the lemmas here reduce such updates to
`setBit`, and follow the number of set bits.
-/

namespace Senob.Foundation

/-- The bytes of a bitmap, by index. -/
abbrev Bytes := Nat → BitVec 8

namespace Bytes

/-- Bit number `f` of the bitmap. -/
def bit (bm : Bytes) (f : Nat) : Bool := (bm (f / 8)).getLsbD (f % 8)

/-- The byte that results from writing `value` to bit `i` of `byte`. -/
def withBit (byte : BitVec 8) (i : Nat) (value : Bool) : BitVec 8 :=
  if value then byte ||| (1#8 <<< i) else byte &&& ~~~(1#8 <<< i)

/-- The bitmap that results from writing `value` to bit `f`. -/
def setBit (bm : Bytes) (f : Nat) (value : Bool) : Bytes :=
  Function.update bm (f / 8) (withBit (bm (f / 8)) (f % 8) value)

theorem getLsbD_one_shiftLeft {i : Nat} (hi : i < 8) (j : Nat) :
    (1#8 <<< i).getLsbD j = decide (j = i) := by
  rw [← BitVec.twoPow_eq, BitVec.getLsbD_twoPow]
  by_cases hji : j = i
  · simp [hji, hi]
  · simp [hji, Ne.symm hji]

theorem getLsbD_withBit (byte : BitVec 8) {i j : Nat} (value : Bool) (hi : i < 8) :
    (withBit byte i value).getLsbD j = if j = i then value else byte.getLsbD j := by
  by_cases hj : j < 8
  · cases value <;> by_cases hji : j = i <;>
      simp only [withBit, ↓reduceIte, Bool.false_eq_true, BitVec.getLsbD_or, BitVec.getLsbD_and,
        BitVec.getLsbD_not, getLsbD_one_shiftLeft hi, hji, hi, hj] <;> simp
  · have hji : j ≠ i := by omega
    rw [BitVec.getLsbD_of_ge _ j (by omega), if_neg hji, BitVec.getLsbD_of_ge _ j (by omega)]

theorem bit_setBit (bm : Bytes) (f g : Nat) (value : Bool) :
    (bm.setBit f value).bit g = if g = f then value else bm.bit g := by
  unfold bit setBit
  by_cases hbyte : g / 8 = f / 8
  · rw [hbyte, Function.update_self, getLsbD_withBit _ _ (Nat.mod_lt f (by decide))]
    by_cases hgf : g = f
    · simp [hgf]
    · have : g % 8 ≠ f % 8 := by omega
      simp [hgf, this]
  · have hgf : g ≠ f := by rintro rfl; exact hbyte rfl
    rw [Function.update_of_ne hbyte]
    simp [hgf]

@[simp] theorem bit_setBit_self (bm : Bytes) (f : Nat) (value : Bool) :
    (bm.setBit f value).bit f = value := by simp [bit_setBit]

theorem ext_bit {bm bm' : Bytes} (h : ∀ f, bm.bit f = bm'.bit f) : bm = bm' := by
  funext b
  apply BitVec.eq_of_getLsbD_eq
  intro i hi
  have := h (8 * b + i)
  simpa [bit, show (8 * b + i) / 8 = b by omega, show (8 * b + i) % 8 = i by omega] using this

/-- Writing the value that a bit already has changes nothing. -/
theorem setBit_eq_self (bm : Bytes) {f : Nat} {value : Bool} (h : bm.bit f = value) :
    bm.setBit f value = bm := by
  apply ext_bit
  intro g
  rw [bit_setBit]
  split <;> simp_all

@[simp] theorem setBit_setBit (bm : Bytes) (f : Nat) (first second : Bool) :
    (bm.setBit f first).setBit f second = bm.setBit f second := by
  apply ext_bit
  intro g
  simp only [bit_setBit]
  split <;> rfl

/-- The masked exclusive-or idiom `byte ^ ((mask ^ byte) & (1 << i))` writes the
bit that `mask` has at position `i`. -/
theorem xor_mask_eq_withBit (byte mask : BitVec 8) {i : Nat} (hi : i < 8) :
    byte ^^^ ((mask ^^^ byte) &&& (1#8 <<< i)) = withBit byte i (mask.getLsbD i) := by
  apply BitVec.eq_of_getLsbD_eq
  intro j hj
  rw [getLsbD_withBit _ _ hi]
  rw [BitVec.getLsbD_xor, BitVec.getLsbD_and, BitVec.getLsbD_xor, getLsbD_one_shiftLeft hi]
  by_cases hji : j = i
  · subst hji
    cases mask.getLsbD j <;> cases byte.getLsbD j <;> simp
  · simp [hji]

/-- The number of set bits below `n`. -/
def count (bm : Bytes) (n : Nat) : Nat := ((Finset.range n).filter fun f => bm.bit f = true).card

theorem count_setBit_true (bm : Bytes) {f n : Nat} (hf : f < n) (hclear : bm.bit f = false) :
    (bm.setBit f true).count n = bm.count n + 1 := by
  have hset : (Finset.range n).filter (fun g => (bm.setBit f true).bit g = true) =
      insert f ((Finset.range n).filter fun g => bm.bit g = true) := by
    ext g
    by_cases hgf : g = f <;> simp [bit_setBit, hgf, hf]
  rw [count, hset, Finset.card_insert_of_notMem (by simp [hclear])]
  rfl

theorem count_setBit_false (bm : Bytes) {f n : Nat} (hf : f < n) (hset : bm.bit f = true) :
    (bm.setBit f false).count n + 1 = bm.count n := by
  have hback : (bm.setBit f false).setBit f true = bm := by
    rw [setBit_setBit, setBit_eq_self bm hset]
  rw [← count_setBit_true _ hf (by simp), hback]

theorem count_zero (n : Nat) : count (fun _ => 0) n = 0 := by
  simp [count, bit]

theorem count_le (bm : Bytes) (n : Nat) : bm.count n ≤ n := by
  have := Finset.card_filter_le (Finset.range n) fun f => bm.bit f = true
  rwa [Finset.card_range] at this

end Bytes

end Senob.Foundation
