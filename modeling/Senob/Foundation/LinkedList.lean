import Mathlib.Data.List.Basic
import Mathlib.Data.List.Nodup

/-!
# Linked lists

Cells that are linked by a function, with a value `nil` that is not a cell and ends a list. A
doubly linked list is two such walks over the same cells, from its head and from its tail.
-/

namespace Senob.Foundation

/-- Following the links from `x` visits the cells of the list and ends in `nil`. -/
def Visits {α : Type*} (nil : α) (link : α → α) : α → List α → Prop
  | x, [] => x = nil
  | x, u :: rest => x = u ∧ u ≠ nil ∧ Visits nil link (link u) rest

variable {α : Type*} {nil x y u : α} {link link' : α → α} {l l' : List α}

namespace Visits

theorem congr (h : Visits nil link x l) (hlink : ∀ u ∈ l, link' u = link u) :
    Visits nil link' x l := by
  induction l generalizing x with
  | nil => exact h
  | cons u rest ih =>
      obtain ⟨hx, hu, hrest⟩ := h
      refine ⟨hx, hu, ?_⟩
      rw [hlink u List.mem_cons_self]
      apply ih hrest
      intro v hv
      exact hlink v (List.mem_cons_of_mem _ hv)

theorem ne_nil (h : Visits nil link x l) (hu : u ∈ l) : u ≠ nil := by
  induction l generalizing x with
  | nil => nomatch hu
  | cons v rest ih =>
      obtain ⟨-, hv, hrest⟩ := h
      cases hu with
      | head => exact hv
      | tail _ hu => exact ih hrest hu

/-- A walk is determined by where it starts. -/
theorem unique (h : Visits nil link x l) (h' : Visits nil link x l') : l = l' := by
  induction l generalizing x l' with
  | nil =>
      cases l' with
      | nil => rfl
      | cons u rest => exact absurd (h'.1.symm.trans h) h'.2.1
  | cons u rest ih =>
      obtain ⟨rfl, hu, hrest⟩ := h
      cases l' with
      | nil => exact absurd h' hu
      | cons v rest' =>
          obtain ⟨rfl, -, hrest'⟩ := h'
          rw [ih hrest hrest']

/-- From a cell on its way, a walk goes on as it would start there. -/
theorem from_mem (h : Visits nil link x (l ++ u :: l')) : Visits nil link u (u :: l') := by
  induction l generalizing x with
  | nil => exact ⟨rfl, h.2⟩
  | cons v rest ih => exact ih h.2.2

/-- Coming back to a cell, a walk would never end. -/
theorem nodup (h : Visits nil link x l) : l.Nodup := by
  induction l generalizing x with
  | nil => exact List.nodup_nil
  | cons u rest ih =>
      have hstart : Visits nil link u (u :: rest) := ⟨rfl, h.2⟩
      obtain ⟨-, -, hrest⟩ := h
      refine List.nodup_cons.mpr ⟨fun hmem => ?_, ih hrest⟩
      obtain ⟨before, after, rfl⟩ := List.append_of_mem hmem
      have hagain := hrest.from_mem.unique hstart
      have hlength := congrArg List.length hagain
      simp only [List.length_cons, List.length_append] at hlength
      omega

theorem start_eq (h : Visits nil link x l) (hl : l ≠ []) : x = l.head hl := by
  cases l with
  | nil => exact absurd rfl hl
  | cons u rest => exact h.1

theorem start_eq_nil_iff (h : Visits nil link x l) : x = nil ↔ l = [] := by
  constructor
  · intro hx
    exact h.unique hx
  · rintro rfl
    exact h

/-- The last cell is linked to `nil`. -/
theorem link_getLast (h : Visits nil link x l) (hl : l ≠ []) : link (l.getLast hl) = nil := by
  induction l generalizing x with
  | nil => exact absurd rfl hl
  | cons u rest ih =>
      obtain ⟨-, -, hrest⟩ := h
      cases rest with
      | nil => exact hrest
      | cons v rest => exact ih hrest (List.cons_ne_nil v rest)

/-- A cell is put at the end by linking the last one to it. -/
theorem concat (h : Visits nil link x l) (hl : l ≠ []) (hy : y ≠ nil) (hnew : link' y = nil)
    (hlast : link' (l.getLast hl) = y)
    (hother : ∀ u ∈ l, u ≠ l.getLast hl → link' u = link u) : Visits nil link' x (l ++ [y]) := by
  have hnodup := h.nodup
  induction l generalizing x with
  | nil => exact absurd rfl hl
  | cons u rest ih =>
      obtain ⟨hx, hu, hrest⟩ := h
      obtain ⟨hmem, hnodup⟩ := List.nodup_cons.mp hnodup
      refine ⟨hx, hu, ?_⟩
      cases rest with
      | nil =>
          rw [List.getLast_singleton] at hlast
          exact ⟨hlast, hy, hnew⟩
      | cons v rest =>
          -- The last cell comes later, so the link of `u` is still the old one.
          have hne : u ≠ (v :: rest).getLast (List.cons_ne_nil v rest) := fun heq =>
            hmem (heq ▸ List.getLast_mem _)
          rw [hother u List.mem_cons_self hne]
          apply ih hrest (List.cons_ne_nil v rest) hlast _ hnodup
          intro w hw hne
          exact hother w (List.mem_cons_of_mem _ hw) hne

end Visits

/-- The cells of the list in their order from `head` by `next`, and in the opposite order from
`tail` by `prev`. -/
structure DoublyLinked (nil : α) (next prev : α → α) (head tail : α) (l : List α) : Prop where
  forward : Visits nil next head l
  backward : Visits nil prev tail l.reverse

namespace DoublyLinked

variable {next next' prev prev' : α → α} {head tail : α}

theorem empty_iff : DoublyLinked nil next prev head tail [] ↔ head = nil ∧ tail = nil :=
  ⟨fun h => ⟨h.forward, h.backward⟩, fun h => ⟨h.1, h.2⟩⟩

/-- The list of one cell. -/
theorem single (hx : x ≠ nil) (hnext : next x = nil) (hprev : prev x = nil) :
    DoublyLinked nil next prev x x [x] :=
  ⟨⟨rfl, hx, hnext⟩, ⟨rfl, hx, hprev⟩⟩

theorem congr (h : DoublyLinked nil next prev head tail l) (hnext : ∀ u ∈ l, next' u = next u)
    (hprev : ∀ u ∈ l, prev' u = prev u) : DoublyLinked nil next' prev' head tail l := by
  refine ⟨h.forward.congr hnext, h.backward.congr fun u hu => ?_⟩
  exact hprev u (List.mem_reverse.mp hu)

theorem head_eq_nil_iff (h : DoublyLinked nil next prev head tail l) : head = nil ↔ l = [] :=
  h.forward.start_eq_nil_iff

theorem head_eq (h : DoublyLinked nil next prev head tail l) (hl : l ≠ []) : head = l.head hl :=
  h.forward.start_eq hl

theorem tail_eq (h : DoublyLinked nil next prev head tail l) (hl : l ≠ []) :
    tail = l.getLast hl := by
  rw [h.backward.start_eq (List.reverse_ne_nil_iff.mpr hl), List.head_reverse]

theorem next_tail (h : DoublyLinked nil next prev head tail l) (hl : l ≠ []) :
    next tail = nil := by
  rw [h.tail_eq hl]
  exact h.forward.link_getLast hl

theorem prev_head (h : DoublyLinked nil next prev head tail l) (hl : l ≠ []) :
    prev head = nil := by
  have hlast := h.backward.link_getLast (List.reverse_ne_nil_iff.mpr hl)
  rwa [List.getLast_reverse, ← h.head_eq hl] at hlast

/-- A cell is put at the end of a list that is not empty. -/
theorem concat (h : DoublyLinked nil next prev head tail l) (hl : l ≠ []) (hy : y ≠ nil)
    (hnext_new : next' y = nil) (hnext_tail : next' tail = y)
    (hnext : ∀ u ∈ l, u ≠ tail → next' u = next u)
    (hprev_new : prev' y = tail) (hprev : ∀ u ∈ l, prev' u = prev u) :
    DoublyLinked nil next' prev' head y (l ++ [y]) := by
  constructor
  · rw [h.tail_eq hl] at hnext_tail hnext
    exact h.forward.concat hl hy hnext_new hnext_tail hnext
  · -- From the tail, the new cell comes first and the old walk follows.
    rw [List.reverse_concat]
    refine ⟨rfl, hy, ?_⟩
    rw [hprev_new]
    apply h.backward.congr
    intro u hu
    exact hprev u (List.mem_reverse.mp hu)

end DoublyLinked

end Senob.Foundation
