import Mathlib.Data.Nat.ModEq
import Mathlib.Logic.Function.Basic

/-!
# Ring buffers

A queue in an array of `n` slots. One slot stays free, so that the two indices are equal only when
the queue is empty.
-/

namespace Senob.Foundation

variable {α : Type*} {n : Nat} {slots : Nat → α} {head tail : Nat} {x : α} {q : List α}

/-- From the slot `tail` on, the array holds the queue. The slot behind it is `head`. -/
structure RingHolds (n : Nat) (slots : Nat → α) (head tail : Nat) (q : List α) : Prop where
  tail_lt : tail < n
  length_lt : q.length < n
  head_eq : head = (tail + q.length) % n
  slot : ∀ i (hi : i < q.length), slots ((tail + i) % n) = q[i]

/-- Less than one round apart, two offsets are different slots. -/
theorem ring_offset_inj {i j : Nat} (hi : i < n) (hj : j < n)
    (h : (tail + i) % n = (tail + j) % n) : i = j := by
  have hmod : i ≡ j [MOD n] := Nat.ModEq.add_left_cancel' tail h
  calc i = i % n := (Nat.mod_eq_of_lt hi).symm
    _ = j % n := hmod
    _ = j := Nat.mod_eq_of_lt hj

theorem ringHolds_nil (htail : tail < n) : RingHolds n slots tail tail [] where
  tail_lt := htail
  length_lt := Nat.zero_lt_of_lt htail
  head_eq := (Nat.mod_eq_of_lt htail).symm
  slot _ hi := absurd hi (Nat.not_lt_zero _)

namespace RingHolds

theorem head_lt (h : RingHolds n slots head tail q) : head < n := by
  rw [h.head_eq]
  exact Nat.mod_lt _ (Nat.zero_lt_of_lt h.tail_lt)

theorem head_eq_tail_iff (h : RingHolds n slots head tail q) : head = tail ↔ q = [] := by
  constructor
  · intro heq
    have hzero : (tail + q.length) % n = (tail + 0) % n := by
      rw [← h.head_eq, heq, Nat.add_zero, Nat.mod_eq_of_lt h.tail_lt]
    exact List.length_eq_zero_iff.mp
      (ring_offset_inj h.length_lt (Nat.zero_lt_of_lt h.tail_lt) hzero)
  · rintro rfl
    rw [h.head_eq]
    exact Nat.mod_eq_of_lt h.tail_lt

/-- The slot behind `head`. -/
theorem next_head (h : RingHolds n slots head tail q) :
    (head + 1) % n = (tail + (q.length + 1)) % n := by
  rw [h.head_eq, Nat.mod_add_mod, Nat.add_assoc]

theorem next_head_eq_tail_iff (h : RingHolds n slots head tail q) :
    (head + 1) % n = tail ↔ q.length + 1 = n := by
  rw [h.next_head]
  constructor
  · intro heq
    by_contra hne
    have hroom : q.length + 1 < n := lt_of_le_of_ne h.length_lt hne
    have hzero : (tail + (q.length + 1)) % n = (tail + 0) % n := by
      rw [heq, Nat.add_zero, Nat.mod_eq_of_lt h.tail_lt]
    exact Nat.succ_ne_zero _ (ring_offset_inj hroom (Nat.zero_lt_of_lt h.tail_lt) hzero)
  · intro hfull
    rw [hfull, Nat.add_mod_right]
    exact Nat.mod_eq_of_lt h.tail_lt

/-- A new item goes to the slot `head`. -/
theorem put (h : RingHolds n slots head tail q) (hroom : q.length + 1 < n) (x : α) :
    RingHolds n (Function.update slots head x) ((head + 1) % n) tail (q ++ [x]) := by
  refine ⟨h.tail_lt, ?_, ?_, fun i hi => ?_⟩
  · rwa [List.length_append, List.length_singleton]
  · rw [List.length_append, List.length_singleton]
    exact h.next_head
  · rw [List.length_append, List.length_singleton] at hi
    by_cases hlast : i = q.length
    · subst hlast
      rw [← h.head_eq, Function.update_self]
      exact List.getElem_concat_length rfl _ |>.symm
    · have hold : i < q.length := lt_of_le_of_ne (Nat.le_of_lt_succ hi) hlast
      have hother : (tail + i) % n ≠ head := by
        rw [h.head_eq]
        exact fun heq => hlast (ring_offset_inj (hold.trans h.length_lt) h.length_lt heq)
      rw [Function.update_of_ne hother, h.slot i hold]
      exact (List.getElem_append_left hold).symm

/-- The oldest item is in the slot `tail`. -/
theorem take (h : RingHolds n slots head tail (x :: q)) :
    slots tail = x ∧ RingHolds n slots head ((tail + 1) % n) q := by
  have hpos : 0 < n := Nat.zero_lt_of_lt h.tail_lt
  have hnext : ∀ i, ((tail + 1) % n + i) % n = (tail + (i + 1)) % n := by
    intro i
    rw [Nat.mod_add_mod, Nat.add_assoc, Nat.add_comm 1 i]
  constructor
  · have hfirst := h.slot 0 (Nat.succ_pos _)
    rwa [Nat.add_zero, Nat.mod_eq_of_lt h.tail_lt] at hfirst
  · refine ⟨Nat.mod_lt _ hpos, (Nat.lt_succ_self _).trans h.length_lt, ?_, fun i hi => ?_⟩
    · rw [hnext]
      exact h.head_eq
    · rw [hnext]
      exact h.slot (i + 1) (Nat.succ_lt_succ hi)

end RingHolds

end Senob.Foundation
