import Mathlib.Data.List.Pairwise
import Mathlib.Order.CompletePartialOrder
import Mathlib.Order.Interval.Set.Disjoint

/-!
# Regions below a break

A break separates what is given out from what is not. Raising it gives out the region in between,
and lowering it takes back everything above. Whatever the order, the regions that are left are
disjoint.
-/

namespace Senob.Foundation

/-- What one request was given: the elements from `lo` on, up to `hi`. -/
structure Region (α : Type*) where
  lo : α
  hi : α

variable {α : Type*} [LinearOrder α]

namespace Region

def elements (r : Region α) : Set α := Set.Ico r.lo r.hi

/-- What is left of a region below a break. -/
def cut (b : α) (r : Region α) : Region α := ⟨r.lo, min r.hi b⟩

end Region

/-- The regions, the newest first, lie one above the other and below the break. -/
structure Stacked (brk : α) (regions : List (Region α)) : Prop where
  ordered : regions.Pairwise fun newer older => older.hi ≤ newer.lo
  below : ∀ r ∈ regions, r.hi ≤ brk

namespace Stacked

variable {brk b : α} {regions : List (Region α)}

theorem nil (brk : α) : Stacked brk ([] : List (Region α)) := ⟨.nil, nofun⟩

/-- The break is raised, and the caller gets what was above it. -/
theorem grant (h : Stacked brk regions) {hi : α} (hhi : hi ≤ b) (hraised : brk ≤ b) :
    Stacked b (⟨brk, hi⟩ :: regions) := by
  refine ⟨List.pairwise_cons.mpr ⟨h.below, h.ordered⟩, ?_⟩
  rw [List.forall_mem_cons]
  exact ⟨hhi, fun r hr => (h.below r hr).trans hraised⟩

/-- The break moves, and what is above it is given back. -/
theorem cut (h : Stacked brk regions) (b : α) : Stacked b (regions.map (Region.cut b)) := by
  constructor
  · refine List.pairwise_map.mpr (h.ordered.imp ?_)
    intro newer older hle
    exact (min_le_left older.hi b).trans hle
  · intro r hr
    obtain ⟨old, -, rfl⟩ := List.mem_map.mp hr
    exact min_le_right old.hi b

theorem disjoint (h : Stacked brk regions) :
    regions.Pairwise fun r r' => Disjoint r.elements r'.elements := by
  refine h.ordered.imp ?_
  intro newer older hle
  exact (Set.Ico_disjoint_Ico_same.mono_right (Set.Ico_subset_Ico_left hle)).symm

end Stacked

end Senob.Foundation
