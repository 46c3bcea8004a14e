import Mathlib.Logic.Function.Basic
import Senob.Foundation.LinkedList

/-!
# Tables of chains

One table of links that threads several lists at once, each of them owned by an index. A chain
grows at its end by a cell that belongs to no chain, and is cut behind any of its cells; the
other chains keep their cells, and no cell ever belongs to two chains.
-/

namespace Senob.Foundation

variable {ι α : Type*} {nil x y u : α} {link link' : α → α} {l l' : List α}

/-- A chain is cut behind its first cells by ending it there. -/
theorem Visits.cut (h : Visits nil link x (l ++ l')) (hl : l ≠ [])
    (hlast : link' (l.getLast hl) = nil)
    (hother : ∀ u ∈ l, u ≠ l.getLast hl → link' u = link u) : Visits nil link' x l := by
  have hnodup := (List.nodup_append.mp h.nodup).1
  induction l generalizing x with
  | nil => exact absurd rfl hl
  | cons u rest ih =>
      obtain ⟨hx, hu, hrest⟩ := h
      obtain ⟨hmem, hnodup⟩ := List.nodup_cons.mp hnodup
      refine ⟨hx, hu, ?_⟩
      cases rest with
      | nil => exact hlast
      | cons v rest =>
          have hne : u ≠ (v :: rest).getLast (List.cons_ne_nil v rest) := fun heq =>
            hmem (heq ▸ List.getLast_mem _)
          rw [hother u List.mem_cons_self hne]
          apply ih hrest (List.cons_ne_nil v rest) hlast _ hnodup
          intro w hw hne
          exact hother w (List.mem_cons_of_mem _ hw) hne

/-- The link of a cell inside a chain is the next cell. -/
theorem Visits.link_mid {v : α} (h : Visits nil link x (l ++ u :: v :: l')) : link u = v := by
  obtain ⟨-, -, hv, -, -⟩ := h.from_mem
  exact hv

/-- From a cell of the list, the link leads to its end or to another cell. -/
theorem Visits.link_mem (h : Visits nil link x l) (hu : u ∈ l) : link u = nil ∨ link u ∈ l := by
  obtain ⟨before, after, rfl⟩ := List.append_of_mem hu
  obtain ⟨-, -, hnext⟩ := h.from_mem
  cases after with
  | nil => exact .inl hnext
  | cons v after =>
      rw [hnext.1]
      exact .inr (List.mem_append_right _ (List.mem_cons_of_mem _ List.mem_cons_self))

/-- The links thread every chain, and no two chains have a cell in common. -/
structure Threaded (nil : α) (link : α → α) (chains : ι → List α) : Prop where
  visits : ∀ i, ∃ x, Visits nil link x (chains i)
  exclusive : ∀ ⦃i j c⦄, c ∈ chains i → c ∈ chains j → i = j

namespace Threaded

variable {chains : ι → List α}

theorem nodup (h : Threaded nil link chains) (i : ι) : (chains i).Nodup := by
  obtain ⟨x, hx⟩ := h.visits i
  exact hx.nodup

theorem congr (h : Threaded nil link chains) (hlink : ∀ i, ∀ c ∈ chains i, link' c = link c) :
    Threaded nil link' chains := by
  refine ⟨fun i => ?_, h.exclusive⟩
  obtain ⟨x, hx⟩ := h.visits i
  exact ⟨x, hx.congr (hlink i)⟩

variable [DecidableEq ι]

/-- A chain grows by a cell that belongs to none. -/
theorem extend (h : Threaded nil link chains) (i : ι) (hy : y ≠ nil) (hfresh : ∀ j, y ∉ chains j)
    (hnew : link' y = nil) (hlast : ∀ hne, link' ((chains i).getLast hne) = y)
    (hother : ∀ j, ∀ c ∈ chains j, c ∉ (chains i).getLast? → link' c = link c) :
    Threaded nil link' (Function.update chains i (chains i ++ [y])) := by
  constructor
  case visits =>
    intro j
    obtain ⟨x, hx⟩ := h.visits j
    by_cases hj : j = i
    · subst hj
      rw [Function.update_self]
      by_cases hempty : chains j = []
      · rw [hempty]
        exact ⟨y, rfl, hy, hnew⟩
      · refine ⟨x, hx.concat hempty hy hnew (hlast hempty) fun u hu hne => ?_⟩
        apply hother j u hu
        rw [List.getLast?_eq_some_getLast hempty, Option.mem_some_iff]
        exact hne.symm
    · rw [Function.update_of_ne hj]
      refine ⟨x, hx.congr fun u hu => hother j u hu fun hmem => hj ?_⟩
      exact h.exclusive hu (List.mem_of_getLast? hmem)
  case exclusive =>
    have hmem : ∀ j c, c ∈ Function.update chains i (chains i ++ [y]) j →
        c ∈ chains j ∨ (j = i ∧ c = y) := by
      intro j c hc
      by_cases hj : j = i
      · rw [hj, Function.update_self] at hc
        rw [hj]
        exact (List.mem_append.mp hc).imp id fun hc => ⟨rfl, List.mem_singleton.mp hc⟩
      · rw [Function.update_of_ne hj] at hc
        exact .inl hc
    intro j k c hj hk
    rcases hmem j c hj with hold | ⟨hj, hc⟩
    · rcases hmem k c hk with hold' | ⟨-, hc⟩
      · exact h.exclusive hold hold'
      · exact absurd (hc ▸ hold) (hfresh j)
    · rcases hmem k c hk with hold' | ⟨hk, -⟩
      · exact absurd (hc ▸ hold') (hfresh k)
      · rw [hj, hk]

/-- A chain is cut, and the cells behind the cut may be linked in any way from then on. -/
theorem cut (h : Threaded nil link chains) (i : ι) (hl : chains i = l ++ l')
    (hlast : ∀ hne : l ≠ [], link' (l.getLast hne) = nil)
    (hother : ∀ j, ∀ c ∈ chains j, c ∉ l.getLast? → c ∉ l' → link' c = link c) :
    Threaded nil link' (Function.update chains i l) := by
  have hsub : ∀ j, ∀ c ∈ Function.update chains i l j, c ∈ chains j := by
    intro j c hc
    by_cases hj : j = i
    · rw [hj, Function.update_self] at hc
      rw [hj, hl]
      exact List.mem_append_left _ hc
    · rwa [Function.update_of_ne hj] at hc
  refine ⟨fun j => ?_, fun j k c hj hk => h.exclusive (hsub j c hj) (hsub k c hk)⟩
  obtain ⟨x, hx⟩ := h.visits j
  by_cases hj : j = i
  · subst hj
    rw [Function.update_self]
    have hdisjoint := (List.nodup_append.mp (hl ▸ h.nodup j)).2.2
    cases hempty : decide (l = []) with
    | true =>
        rw [of_decide_eq_true hempty]
        exact ⟨nil, rfl⟩
    | false =>
        have hne : l ≠ [] := of_decide_eq_false hempty
        refine ⟨x, Visits.cut (hl ▸ hx) hne (hlast hne) fun u hu hlastne => ?_⟩
        apply hother j u (hl ▸ List.mem_append_left _ hu)
        · rw [List.getLast?_eq_some_getLast hne, Option.mem_some_iff]
          exact hlastne.symm
        · exact fun hbehind => hdisjoint u hu u hbehind rfl
  · rw [Function.update_of_ne hj]
    refine ⟨x, hx.congr fun u hu => hother j u hu (fun hmem => hj ?_) fun hbehind => hj ?_⟩
    · exact h.exclusive hu (hl ▸ List.mem_append_left _ (List.mem_of_getLast? hmem))
    · exact h.exclusive hu (hl ▸ List.mem_append_right _ hbehind)

end Threaded

end Senob.Foundation
