import Mathlib.Logic.Function.Basic

/-!
# Placements

A placement says which item, if any, each place holds. It is exclusive when no item is
in two places. Moving items about keeps that property as long as an item is put down
only where no other place holds it.
-/

namespace Senob.Foundation

/-- The items that the places `ι` hold. -/
abbrev Placement (ι α : Type*) := ι → Option α

namespace Placement

variable {ι α : Type*} [DecidableEq ι] {f : Placement ι α} {i j : ι} {x y : α}

/-- Some place holds the item. -/
def Holds (f : Placement ι α) (x : α) : Prop := ∃ i, f i = some x

/-- No item is in two places. -/
def Exclusive (f : Placement ι α) : Prop := ∀ ⦃i j x⦄, f i = some x → f j = some x → i = j

def put (f : Placement ι α) (i : ι) (x : α) : Placement ι α := Function.update f i (some x)

def clear (f : Placement ι α) (i : ι) : Placement ι α := Function.update f i none

@[simp] theorem put_self : f.put i x i = some x := Function.update_self ..

@[simp] theorem put_of_ne (h : j ≠ i) : f.put i x j = f j := Function.update_of_ne h ..

@[simp] theorem clear_self : f.clear i i = none := Function.update_self ..

@[simp] theorem clear_of_ne (h : j ≠ i) : f.clear i j = f j := Function.update_of_ne h ..

theorem eq_some_of_clear (h : f.clear i j = some x) : j ≠ i ∧ f j = some x := by
  by_cases hj : j = i
  · rw [hj, clear_self] at h
    exact nomatch h
  · exact ⟨hj, by rwa [clear_of_ne hj] at h⟩

theorem eq_some_of_put (h : f.put i x j = some y) : (j = i ∧ y = x) ∨ (j ≠ i ∧ f j = some y) := by
  by_cases hj : j = i
  · rw [hj, put_self] at h
    exact .inl ⟨hj, (Option.some.inj h).symm⟩
  · exact .inr ⟨hj, by rwa [put_of_ne hj] at h⟩

theorem clear_put_of_ne (h : i ≠ j) : (f.put i x).clear j = (f.clear j).put i x :=
  Function.update_comm h ..

theorem clear_comm (f : Placement ι α) (i j : ι) : (f.clear i).clear j = (f.clear j).clear i := by
  by_cases h : i = j
  · rw [h]
  · exact Function.update_comm h ..

@[simp] theorem clear_clear : (f.clear i).clear i = f.clear i := Function.update_idem ..

/-- What the place held does not matter. -/
theorem put_clear : (f.clear i).put i x = f.put i x := Function.update_idem ..

theorem Holds.of_clear (h : (f.clear i).Holds x) : f.Holds x :=
  have ⟨j, hj⟩ := h
  ⟨j, (eq_some_of_clear hj).2⟩

theorem Holds.of_put (h : (f.put i x).Holds y) : y = x ∨ f.Holds y := by
  obtain ⟨j, hj⟩ := h
  obtain ⟨-, hy⟩ | ⟨-, hy⟩ := eq_some_of_put hj
  · exact .inl hy
  · exact .inr ⟨j, hy⟩

theorem Exclusive.clear (h : f.Exclusive) (i : ι) : (f.clear i).Exclusive := by
  intro j k x hj hk
  exact h (eq_some_of_clear hj).2 (eq_some_of_clear hk).2

/-- An item that no other place holds may be put down. -/
theorem Exclusive.put (h : f.Exclusive) (hx : ¬ (f.clear i).Holds x) : (f.put i x).Exclusive := by
  have hother : ∀ k, k ≠ i → f k ≠ some x := fun k hk hfk =>
    hx ⟨k, by rwa [clear_of_ne hk]⟩
  intro j k y hj hk
  obtain ⟨rfl, rfl⟩ | ⟨hji, hfj⟩ := eq_some_of_put hj
  · obtain ⟨rfl, -⟩ | ⟨hki, hfk⟩ := eq_some_of_put hk
    · rfl
    · exact absurd hfk (hother k hki)
  · obtain ⟨rfl, rfl⟩ | ⟨-, hfk⟩ := eq_some_of_put hk
    · exact absurd hfj (hother j hji)
    · exact h hfj hfk

/-- An item that is picked up is nowhere else. -/
theorem Exclusive.not_holds_clear (h : f.Exclusive) (hx : f i = some x) :
    ¬ (f.clear i).Holds x := by
  rintro ⟨j, hj⟩
  obtain ⟨hne, hfj⟩ := eq_some_of_clear hj
  exact hne (h hfj hx)

/-! ## Placements of granted items -/

/-- Every item that is held is marked as used, and held in one place. -/
structure Accounted {ι α : Type*} (f : Placement ι α) (used : α → Prop) : Prop where
  exclusive : f.Exclusive
  used : ∀ ⦃i x⦄, f i = some x → used x

namespace Accounted

variable {ι α : Type*} {f g : Placement ι α} {used used' : α → Prop} {i : ι} {x : α}

/-- Places may be emptied, and the items that are left stay marked. -/
theorem restrict (h : f.Accounted used) (hsub : ∀ i x, g i = some x → f i = some x ∧ used' x) :
    g.Accounted used' := by
  refine ⟨fun i j x hi hj => ?_, fun i x hi => (hsub i x hi).2⟩
  exact h.exclusive (hsub i x hi).1 (hsub j x hj).1

/-- An item that was not used is marked and put down. -/
theorem grant (h : f.Accounted used) (hfresh : ¬ used x)
    (hsub : ∀ j y, g j = some y → (j = i ∧ y = x) ∨ f j = some y) (hkeep : ∀ y, used y → used' y)
    (hx : used' x) : g.Accounted used' := by
  constructor
  · intro j k y hj hk
    obtain ⟨rfl, rfl⟩ | hfj := hsub j y hj
    · obtain ⟨rfl, -⟩ | hfk := hsub k y hk
      · rfl
      · exact absurd (h.used hfk) hfresh
    · obtain ⟨rfl, rfl⟩ | hfk := hsub k y hk
      · exact absurd (h.used hfj) hfresh
      · exact h.exclusive hfj hfk
  · intro j y hj
    obtain ⟨-, rfl⟩ | hfj := hsub j y hj
    · exact hx
    · exact hkeep y (h.used hfj)

end Accounted

end Placement

end Senob.Foundation
