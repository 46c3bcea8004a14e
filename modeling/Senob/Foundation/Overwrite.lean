import Mathlib.Data.List.Basic
import Mathlib.Order.MinMax

/-!
# Overwriting a part of a list

A list that another list is written over, from a place in it or at its end. Writing in pieces is
the same as writing at once.
-/

namespace Senob.Foundation

variable {α : Type*} {l d e : List α} {p n : Nat}

/-- `l` with `d` over it from `p` on; it grows if `d` reaches behind its end. -/
def overwrite (l : List α) (p : Nat) (d : List α) : List α :=
  l.take p ++ d ++ l.drop (p + d.length)

theorem length_overwrite (hp : p ≤ l.length) :
    (overwrite l p d).length = max l.length (p + d.length) := by
  rw [overwrite, List.length_append, List.length_append, List.length_take, List.length_drop]
  omega

theorem overwrite_nil : overwrite l p [] = l := by
  rw [overwrite, List.append_nil, List.length_nil, Nat.add_zero, List.take_append_drop]

theorem getElem?_overwrite (hp : p ≤ l.length) (n : Nat) :
    (overwrite l p d)[n]? = if p ≤ n ∧ n < p + d.length then d[n - p]? else l[n]? := by
  have htake : (l.take p).length = p := List.length_take_of_le hp
  rw [overwrite]
  by_cases hn : n < p
  · rw [if_neg (by omega), List.append_assoc, List.getElem?_append_left (by omega),
      List.getElem?_take_of_lt hn]
  · by_cases hmid : n < p + d.length
    · rw [if_pos (by omega), List.append_assoc, List.getElem?_append_right (by omega), htake,
        List.getElem?_append_left (by omega)]
    · rw [if_neg (by omega), List.getElem?_append_right (by rw [List.length_append]; omega),
        List.length_append, htake, List.getElem?_drop]
      congr 1
      omega

/-- Two pieces, one behind the other. -/
theorem overwrite_overwrite (hp : p ≤ l.length) :
    overwrite (overwrite l p d) (p + d.length) e = overwrite l p (d ++ e) := by
  have hlength := length_overwrite (d := d) hp
  apply List.ext_getElem?
  intro n
  rw [getElem?_overwrite (by omega), getElem?_overwrite hp, getElem?_overwrite hp,
    List.length_append, List.getElem?_append]
  by_cases hsecond : p + d.length ≤ n ∧ n < p + d.length + e.length
  · rw [if_pos hsecond, if_pos (by omega), if_neg (by omega)]
    congr 1
    omega
  · rw [if_neg hsecond]
    by_cases hfirst : p ≤ n ∧ n < p + d.length
    · rw [if_pos hfirst, if_pos (by omega), if_pos (by omega)]
    · rw [if_neg hfirst, if_neg (by omega)]

end Senob.Foundation
