import Mathlib.Algebra.BigOperators.Group.Finset.Basic
import Mathlib.Algebra.BigOperators.Group.Finset.Piecewise
import Mathlib.Algebra.Order.BigOperators.Group.Finset
import Mathlib.Data.List.Nodup

/-!
# Queues by level

Items wait at numbered levels, at each level in the order of their arrival. The next
item to be served is the first one of the lowest level at which anything waits. An array
that is written at one counter and read at another one holds the queue of one level.
-/

namespace Senob.Foundation

section Segment

variable {α : Type*} {slots : Nat → α} {head tail : Nat} {x : α}

/-- The entries from `head` up to `tail`. -/
def segment (slots : Nat → α) (head tail : Nat) : List α :=
  (List.range' head (tail - head)).map slots

@[simp] theorem length_segment : (segment slots head tail).length = tail - head := by
  simp [segment]

theorem segment_eq_nil_iff : segment slots head tail = [] ↔ tail ≤ head := by
  rw [← List.length_eq_zero_iff, length_segment, Nat.sub_eq_zero_iff_le]

/-- A new entry at `tail` is the last one. -/
theorem segment_push (h : head ≤ tail) :
    segment (Function.update slots tail x) head (tail + 1) = segment slots head tail ++ [x] := by
  have hsplit : tail + 1 - head = (tail - head) + 1 := by omega
  rw [segment, hsplit, List.range'_concat, List.map_append]
  congr 1
  · refine List.map_congr_left fun i hi => Function.update_of_ne ?_ ..
    have := (List.mem_range'_1.mp hi).2
    omega
  · simp [Nat.add_sub_cancel' h]

/-- The entry at `head` is the first one. -/
theorem segment_eq_cons (h : head < tail) :
    segment slots head tail = slots head :: segment slots (head + 1) tail := by
  have hsplit : tail - head = (tail - (head + 1)) + 1 := by omega
  rw [segment, hsplit, List.range'_succ, List.map_cons]
  rfl

end Segment

/-- What waits at each level, the first arrival first. -/
abbrev LevelQueues (α : Type*) := Nat → List α

namespace LevelQueues

variable {α : Type*} {q : LevelQueues α} {n level : Nat} {x : α}

/-- An item arrives. -/
def arrive (q : LevelQueues α) (level : Nat) (x : α) : LevelQueues α :=
  Function.update q level (q level ++ [x])

/-- The lowest of the first `n` levels at which something waits. -/
def lowest (q : LevelQueues α) (n : Nat) : Option Nat :=
  (List.range n).find? fun level => !(q level).isEmpty

/-- The item to be served next, of the first `n` levels. -/
def next (q : LevelQueues α) (n : Nat) : Option α :=
  (q.lowest n).bind fun level => (q level).head?

/-- The next item leaves. -/
def serve (q : LevelQueues α) (n : Nat) : LevelQueues α :=
  match q.lowest n with
  | some level => Function.update q level (q level).tail
  | none => q

/-- How many items wait at the first `n` levels. -/
def total (q : LevelQueues α) (n : Nat) : Nat := ∑ level ∈ Finset.range n, (q level).length

theorem lowest_eq_none_iff : q.lowest n = none ↔ ∀ level < n, q level = [] := by
  simp [lowest]

theorem lowest_eq_some_iff :
    q.lowest n = some level ↔ level < n ∧ q level ≠ [] ∧ ∀ l < level, q l = [] := by
  simp only [lowest, List.find?_range_eq_some, List.mem_range, Bool.not_eq_true',
    List.isEmpty_eq_false_iff, Bool.not_not, List.isEmpty_iff]
  tauto

theorem next_of_lowest (h : q.lowest n = some level) : q.next n = (q level).head? := by
  rw [next, h, Option.bind_some]

theorem next_eq_none_iff : q.next n = none ↔ ∀ level < n, q level = [] := by
  rw [← lowest_eq_none_iff]
  cases h : q.lowest n with
  | none => simp [next, h]
  | some level =>
      have hne := (lowest_eq_some_iff.mp h).2.1
      simpa [next_of_lowest h] using hne

/-- Nothing waits below the level of the next item, which is the first one there. -/
theorem next_eq_some_iff :
    q.next n = some x ↔ ∃ level < n, (∀ l < level, q l = []) ∧ ∃ rest, q level = x :: rest := by
  constructor
  · intro h
    obtain ⟨level, hlevel, hhead⟩ := Option.bind_eq_some_iff.mp h
    obtain ⟨hlt, -, hlower⟩ := lowest_eq_some_iff.mp hlevel
    obtain ⟨rest, hrest⟩ := List.head?_eq_some_iff.mp hhead
    exact ⟨level, hlt, hlower, rest, hrest⟩
  · rintro ⟨level, hlt, hlower, rest, hrest⟩
    have hlevel : q.lowest n = some level :=
      lowest_eq_some_iff.mpr ⟨hlt, by simp [hrest], hlower⟩
    rw [next_of_lowest hlevel, hrest, List.head?_cons]

theorem serve_of_some (h : q.lowest n = some level) :
    q.serve n = Function.update q level (q level).tail := by
  simp only [serve, h]

theorem serve_of_none (h : q.lowest n = none) : q.serve n = q := by
  simp only [serve, h]

theorem mem_of_mem_serve (h : x ∈ q.serve n level) : x ∈ q level := by
  cases hlowest : q.lowest n with
  | none => rwa [serve_of_none hlowest] at h
  | some l =>
      rw [serve_of_some hlowest] at h
      by_cases hl : level = l
      · subst hl
        rw [Function.update_self] at h
        exact List.mem_of_mem_tail h
      · rwa [Function.update_of_ne hl] at h

theorem mem_arrive {y : α} {i : Nat} :
    y ∈ q.arrive level x i ↔ y ∈ q i ∨ i = level ∧ y = x := by
  unfold arrive
  by_cases hi : i = level
  · subst hi
    simp
  · simp [hi]

/-- An item that arrives where nothing waits before it is served at once. -/
theorem serve_arrive_of_first (hlevel : level < n) (h : ∀ l ≤ level, q l = []) :
    (q.arrive level x).serve n = q := by
  have hlowest : (q.arrive level x).lowest n = some level := by
    refine lowest_eq_some_iff.mpr ⟨hlevel, by simp [arrive], fun l hl => ?_⟩
    rw [arrive, Function.update_of_ne (Nat.ne_of_lt hl), h l hl.le]
  rw [serve_of_some hlowest, arrive, Function.update_idem, Function.update_self, h level le_rfl]
  exact Function.update_eq_self_iff.mpr (h level le_rfl).symm

/-- An item that arrives behind another one does not delay it. -/
theorem serve_arrive_of_lowest {m : Nat} (h : q.lowest n = some m) (hm : m ≤ level) :
    (q.arrive level x).serve n = (q.serve n).arrive level x := by
  obtain ⟨hlt, hne, hlower⟩ := lowest_eq_some_iff.mp h
  by_cases heq : m = level
  · subst heq
    have hlowest : (q.arrive m x).lowest n = some m := by
      refine lowest_eq_some_iff.mpr ⟨hlt, by simp [arrive], fun l hl => ?_⟩
      rw [arrive, Function.update_of_ne (Nat.ne_of_lt hl), hlower l hl]
    rw [serve_of_some hlowest, serve_of_some h, arrive, arrive, Function.update_idem,
      Function.update_idem, Function.update_self, Function.update_self,
      List.tail_append_of_ne_nil hne]
  · have hlowest : (q.arrive level x).lowest n = some m := by
      refine lowest_eq_some_iff.mpr ⟨hlt, ?_, fun l hl => ?_⟩
      · rwa [arrive, Function.update_of_ne heq]
      · rw [arrive, Function.update_of_ne (by omega), hlower l hl]
    rw [serve_of_some hlowest, serve_of_some h, arrive, arrive, Function.update_of_ne heq,
      Function.update_of_ne (Ne.symm heq), Function.update_comm heq]

/-- A change at one level changes the total by as much. -/
theorem total_update (hlevel : level < n) (l : List α) :
    (LevelQueues.total (Function.update q level l) n) + (q level).length =
      q.total n + l.length := by
  have hmem : level ∈ Finset.range n := Finset.mem_range.mpr hlevel
  have hrest : ∑ i ∈ (Finset.range n).erase level, (Function.update q level l i).length =
      ∑ i ∈ (Finset.range n).erase level, (q i).length :=
    Finset.sum_congr rfl fun i hi => by rw [Function.update_of_ne (Finset.ne_of_mem_erase hi)]
  rw [total, total, ← Finset.add_sum_erase _ _ hmem, ← Finset.add_sum_erase _ _ hmem, hrest,
    Function.update_self]
  omega

theorem total_arrive (hlevel : level < n) : (q.arrive level x).total n = q.total n + 1 := by
  have h := total_update (q := q) hlevel (q level ++ [x])
  rw [List.length_append, List.length_singleton] at h
  rw [arrive]
  omega

theorem total_serve (h : q.lowest n = some level) : (q.serve n).total n + 1 = q.total n := by
  obtain ⟨hlt, hne, -⟩ := lowest_eq_some_iff.mp h
  have hpos := List.length_pos_iff.mpr hne
  have htotal := total_update (q := q) hlt (q level).tail
  rw [List.length_tail] at htotal
  rw [serve_of_some h]
  omega

theorem total_eq_zero_iff : q.total n = 0 ↔ ∀ level < n, q level = [] := by
  simp [total, Finset.sum_eq_zero_iff]

/-! ## Arrivals at a shortest queue -/

/-- The lengths of the first `n` queues differ by at most one. -/
def Balanced (q : LevelQueues α) (n : Nat) : Prop :=
  ∀ i < n, ∀ j < n, (q i).length ≤ (q j).length + 1

theorem length_arrive (q : LevelQueues α) (level : Nat) (x : α) (i : Nat) :
    (q.arrive level x i).length = (q i).length + if i = level then 1 else 0 := by
  unfold arrive
  by_cases hi : i = level
  · subst hi
    simp
  · simp [hi]

theorem Balanced.arrive (h : q.Balanced n) (hleast : ∀ i < n, (q level).length ≤ (q i).length) :
    (q.arrive level x).Balanced n := by
  intro i hi j hj
  have hij := h i hi j hj
  have hleast' := hleast j hj
  rw [length_arrive, length_arrive]
  split
  next heq =>
    subst heq
    omega
  next => omega

/-- A shortest queue is not longer than the queues are on average. -/
theorem length_lt_of_total_lt {c : Nat} (hleast : ∀ i < n, (q level).length ≤ (q i).length)
    (h : q.total n < n * c) : (q level).length < c := by
  by_contra hge
  have hsum : n * c ≤ q.total n := by
    calc n * c = ∑ _i ∈ Finset.range n, c := by simp
      _ ≤ q.total n := Finset.sum_le_sum fun i hi =>
          (Nat.not_lt.mp hge).trans (hleast i (Finset.mem_range.mp hi))
  omega

end LevelQueues

end Senob.Foundation
