import Senob.Libk.PrintfDirectives

/-!
# Length modifiers

For `l` and `ll`, `printf_number_kernel` moves `argp` by twice the words that a `long` and a
`long long` have, as if an `int` had 16 bits.
-/

namespace Senob.Libk

open Printf

/-- The words by which `printf_number_kernel` moves `argp`. -/
def PrintfLength.moved : PrintfLength → Nat
  | long => 2
  | longLong => 4
  | _ => 1

namespace Item

/-- A literal, or a directive for a number. -/
def Numeric : Item → Prop
  | literal _ => True
  | directive _ d => d.number.isSome

def moved : Item → Nat
  | literal _ => 0
  | directive length _ => length.moved

end Item

section Lengths

variable (memory : Word → Byte) (args : Nat → Word)

/-- Behind the items of `before`, `kernel_write` stands at the argument of `item`, prints the whole
of it and goes on behind it. -/
def RendersAt (before : List Item) (item : Item) : Prop :=
  ∃ s t, kernelWrite memory args (formatText before) = some s ∧
    kernelWrite memory args (formatText (before ++ [item])) = some t ∧
    s.argp = formatWords before ∧ t.argp = s.argp + item.words ∧
    t.output = s.output ++ item.render (fun _ => []) args s.argp

/-- Every item of the format is printed with its own argument. -/
structure Aligned (items : List Item) : Prop where
  each : ∀ before item after, items = before ++ item :: after →
    RendersAt memory args before item
  whole : ∃ t, kernelWrite memory args (formatText items ++ [0]) = some t ∧
    t.output = rendering (fun _ => []) args 0 items

end Lengths

/-! ## The argument pointer -/

section Pointer

variable {memory : Word → Byte} {args : Nat → Word} {s : Printf}

theorem printfNumberKernel_argp (s : Printf) (sign : Bool) (radix : Word) :
    (printfNumberKernel args s sign radix).argp = s.argp + s.length.moved := by
  unfold printfNumberKernel
  cases s.length <;> rfl

theorem formatLoop_numeric (memory : Word → Byte) (args : Nat → Word) {item : Item}
    (hnumeric : item.Numeric) (hstate : s.state = .start) (hlength : s.length = .start) :
    ∃ t, (∀ rest, formatLoop memory args (item.text ++ rest) s = formatLoop memory args rest t) ∧
      t.state = .start ∧ t.length = .start ∧ t.argp = s.argp + item.moved := by
  cases item with
  | literal c =>
      refine ⟨s.put [c.byte], fun rest => ?_, hstate, hlength, rfl⟩
      simp only [Item.text, List.cons_append, List.nil_append, formatLoop, formatChar, hstate,
        if_neg c.nonzero, if_neg c.not_percent, Option.bind_some]
  | directive length d =>
      obtain ⟨⟨sign, radix⟩, hnumber⟩ := Option.isSome_iff_exists.mp hnumeric
      obtain ⟨state, hloop⟩ := formatLoop_directive memory args length d hstate hlength
      simp only [d.specifier_number hnumber, Option.bind_some] at hloop
      exact ⟨_, hloop, rfl, rfl, printfNumberKernel_argp _ sign radix⟩

theorem formatLoop_numerics {items : List Item} (hnumeric : ∀ item ∈ items, item.Numeric)
    (hstate : s.state = .start) (hlength : s.length = .start) :
    ∃ t, formatLoop memory args (formatText items) s = some t ∧
      t.argp = s.argp + (items.map Item.moved).sum := by
  induction items generalizing s with
  | nil => exact ⟨s, rfl, rfl⟩
  | cons item items ih =>
      obtain ⟨t, hitem, htstate, htlength, htargp⟩ := formatLoop_numeric memory args
        (hnumeric item List.mem_cons_self) hstate hlength
      obtain ⟨u, hitems, huargp⟩ :=
        ih (fun other hother => hnumeric other (List.mem_cons_of_mem _ hother)) htstate htlength
      refine ⟨u, (hitem _).trans hitems, ?_⟩
      rw [huargp, htargp, List.map_cons, List.sum_cons, Nat.add_assoc]

/-- Where an item takes the words that its argument has, its modifier is not `l` or `ll`. -/
theorem Item.narrow_of_moved {item : Item} (hnumeric : item.Numeric)
    (hmoved : item.moved = item.words) : item.Modified PrintfLength.Narrow := by
  cases item with
  | literal c => trivial
  | directive length d =>
      obtain ⟨number, hnumber⟩ := Option.isSome_iff_exists.mp hnumeric
      rw [Directive.words_of_number hnumber] at hmoved
      constructor
      · rintro rfl
        exact absurd hmoved (show ¬ (2 : Nat) = 1 by decide)
      · rintro rfl
        exact absurd hmoved (show ¬ (4 : Nat) = 2 by decide)

end Pointer

/-! ## Aligned formats -/

section Aligned

variable {memory : Word → Byte} {args : Nat → Word}

theorem Item.addresses_of_numeric {item : Item} (h : item.Numeric) (argp : Nat) :
    item.addresses args argp = [] := by
  cases item with
  | literal c => rfl
  | directive length d =>
      cases d with
      | string => exact nomatch h
      | _ => rfl

theorem stringArguments_of_numeric {items : List Item} (h : ∀ item ∈ items, item.Numeric)
    (argp : Nat) : stringArguments args argp items = [] := by
  induction items generalizing argp with
  | nil => rfl
  | cons item items ih =>
      rw [stringArguments, Item.addresses_of_numeric (h item List.mem_cons_self), List.nil_append]
      exact ih (fun other hother => h other (List.mem_cons_of_mem _ hother)) _

/-- Numbers with other modifiers are printed one after the other. -/
theorem exists_printed (memory : Word → Byte) (args : Nat → Word) {items : List Item}
    (hnumeric : ∀ item ∈ items, item.Numeric)
    (hnarrow : ∀ item ∈ items, item.Modified PrintfLength.Narrow) {s : Printf}
    (hstate : s.state = .start) (hlength : s.length = .start) :
    ∃ t, (∀ rest, formatLoop memory args (formatText items ++ rest) s =
        formatLoop memory args rest t) ∧
      Printed (formatWords items) (rendering (fun _ => []) args s.argp items) s t := by
  refine formatLoop_items hnarrow (fun a ha => ?_) hstate hlength
  rw [stringArguments_of_numeric hnumeric] at ha
  exact nomatch ha

theorem aligned_of_narrow {items : List Item} (hnumeric : ∀ item ∈ items, item.Numeric)
    (hnarrow : ∀ item ∈ items, item.Modified PrintfLength.Narrow) :
    Aligned memory args items := by
  constructor
  · rintro before item after rfl
    have hbefore : ∀ other ∈ before, other ∈ before ++ item :: after := fun other =>
      List.mem_append_left _
    have hitem : item ∈ before ++ item :: after :=
      List.mem_append_right _ List.mem_cons_self
    obtain ⟨s, hloop, hprinted⟩ := exists_printed memory args (s := .initial)
      (fun other hother => hnumeric other (hbefore other hother))
      (fun other hother => hnarrow other (hbefore other hother)) rfl rfl
    have hnone : ∀ a ∈ item.addresses args s.argp, CString memory a [] := by
      rw [Item.addresses_of_numeric (hnumeric item hitem)]
      exact nofun
    obtain ⟨t, hlast, hprintedItem⟩ := formatLoop_item item (hnarrow item hitem) hnone
      hprinted.state hprinted.length
    refine ⟨s, t, ?_, ?_, hprinted.argp.trans (Nat.zero_add _), hprintedItem.argp,
      hprintedItem.output⟩
    · have hend := hloop []
      rwa [List.append_nil] at hend
    · rw [kernelWrite, formatText, List.flatMap_append, List.flatMap_singleton]
      have hend := hlast []
      rw [List.append_nil, ← hloop] at hend
      exact hend
  · obtain ⟨t, hloop, hprinted⟩ :=
      exists_printed memory args (s := .initial) hnumeric hnarrow rfl rfl
    exact ⟨t, hloop [0], hprinted.output⟩

/-- A format of literals and numbers is printed as it should be if and only if none of its
directives has the modifier `l` or `ll`. -/
theorem aligned_iff (memory : Word → Byte) (args : Nat → Word) {items : List Item}
    (hnumeric : ∀ item ∈ items, item.Numeric) :
    Aligned memory args items ↔ ∀ item ∈ items, item.Modified PrintfLength.Narrow := by
  refine ⟨fun haligned item hitem => ?_, aligned_of_narrow hnumeric⟩
  obtain ⟨before, after, rfl⟩ := List.append_of_mem hitem
  obtain ⟨s, t, hs, ht, -, hargp, -⟩ := haligned.each before item after rfl
  have hbefore : ∀ other ∈ before, other.Numeric := fun other hother =>
    hnumeric other (List.mem_append_left _ hother)
  have hbehind : ∀ other ∈ before ++ [item], other.Numeric := fun other hother => by
    rcases List.mem_append.mp hother with hother | hother
    · exact hbefore other hother
    · exact List.mem_singleton.mp hother ▸ hnumeric item hitem
  obtain ⟨s', hs', hargpBefore⟩ := formatLoop_numerics (s := .initial) hbefore rfl rfl
  obtain ⟨t', ht', hargpBehind⟩ := formatLoop_numerics (s := .initial) hbehind rfl rfl
  obtain rfl := Option.some.inj (hs.symm.trans hs')
  obtain rfl := Option.some.inj (ht.symm.trans ht')
  rw [List.map_append, List.sum_append, ← Nat.add_assoc, ← hargpBefore, hargp] at hargpBehind
  exact Item.narrow_of_moved (hnumeric item hitem) (Nat.add_left_cancel hargpBehind).symm

theorem aligned_iff_short :
    Aligned (fun _ => 0) (fun _ => 0)
      [.directive .short .decimal, .directive .start .upperHex] := by
  have hnumeric : ∀ item ∈ [Item.directive .short .decimal, .directive .start .upperHex],
      item.Numeric := by
    simp [Item.Numeric, Directive.number]
  refine (aligned_iff (fun _ => 0) (fun _ => 0) hnumeric).mpr ?_
  simp [Item.Modified, PrintfLength.Narrow]

/-- `%ld%d` prints its first and its third argument. -/
theorem not_aligned :
    ¬ ∀ (memory : Word → Byte) (args : Nat → Word) (items : List Item),
      (∀ item ∈ items, item.Numeric) → Aligned memory args items := by
  intro hclaim
  have haligned := hclaim (fun _ => 0) (fun i => BitVec.ofNat 32 (i + 1))
    [.directive .long .decimal, .directive .start .decimal]
    (by simp [Item.Numeric, Directive.number])
  obtain ⟨t, hcall, houtput⟩ := haligned.whole
  have hprinted : t.output = "13".toList.map ascii := by
    obtain rfl := Option.some.inj hcall
    decide
  exact absurd (hprinted.symm.trans houtput) (by decide)

end Aligned

end Senob.Libk
