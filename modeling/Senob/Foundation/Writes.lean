import Mathlib.Data.List.Basic
import Mathlib.Logic.Function.Basic

/-!
# Lists of writes

A memory after a list of writes, the later ones over the earlier ones. A cell holds a value when
some write stores it and no write to the cell stores another.
-/

namespace Senob.Foundation

variable {α β : Type*} [DecidableEq α]

def applyWrites (memory : α → β) (writes : List (α × β)) : α → β :=
  writes.foldl (fun memory write => Function.update memory write.1 write.2) memory

theorem applyWrites_cons (memory : α → β) (write : α × β) (writes : List (α × β)) :
    applyWrites memory (write :: writes) =
      applyWrites (Function.update memory write.1 write.2) writes := rfl

theorem applyWrites_of_forall_ne {memory : α → β} {writes : List (α × β)} {a : α}
    (h : ∀ write ∈ writes, write.1 ≠ a) : applyWrites memory writes a = memory a := by
  induction writes generalizing memory with
  | nil => rfl
  | cons write rest ih =>
      obtain ⟨hwrite, hrest⟩ := List.forall_mem_cons.mp h
      rw [applyWrites_cons, ih hrest, Function.update_of_ne hwrite.symm]

/-- Writes that agree on a cell leave their value in it, in whatever order they come. -/
theorem applyWrites_of_mem {memory : α → β} {writes : List (α × β)} {a : α} {b : β}
    (hmem : (a, b) ∈ writes) (hagree : ∀ write ∈ writes, write.1 = a → write.2 = b) :
    applyWrites memory writes a = b := by
  induction writes generalizing memory with
  | nil => exact absurd hmem List.not_mem_nil
  | cons write rest ih =>
      obtain ⟨hwrite, hrest⟩ := List.forall_mem_cons.mp hagree
      rw [applyWrites_cons]
      by_cases hlater : (a, b) ∈ rest
      · exact ih hlater hrest
      · obtain rfl := (List.mem_cons.mp hmem).resolve_right hlater
        rw [applyWrites_of_forall_ne, Function.update_self]
        rintro ⟨a', b'⟩ hin rfl
        obtain rfl : b' = b := hrest _ hin rfl
        exact hlater hin

end Senob.Foundation
