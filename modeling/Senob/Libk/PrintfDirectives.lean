import Mathlib.Algebra.BigOperators.Group.List.Basic
import Senob.Libk.Console

/-!
# Printed directives

What the directives of `kernel_write` stand for, and that a format whose directives have no length
modifier is printed so. A format is given by its items, and numbers by the numerals of Lean.
-/

namespace Senob.Libk

open Printf

/-- The directives that `kernel_write` knows. -/
inductive Directive where
  | char
  | string
  | percent
  | decimal
  | integer
  | unsigned
  | upperHex
  | hex
  | pointer
  | octal

namespace Directive

def letter : Directive → Byte
  | char => ascii 'c'
  | string => ascii 's'
  | percent => ascii '%'
  | decimal => ascii 'd'
  | integer => ascii 'i'
  | unsigned => ascii 'u'
  | upperHex => ascii 'X'
  | hex => ascii 'x'
  | pointer => ascii 'p'
  | octal => ascii 'o'

/-- The sign and the radix of the directives for numbers. -/
def number : Directive → Option (Bool × Word)
  | decimal | integer => some (true, 10)
  | unsigned => some (false, 10)
  | upperHex | hex | pointer => some (false, 16)
  | octal => some (false, 8)
  | char | string | percent => none

end Directive

namespace PrintfLength

/-- What stands between the percent sign and the letter. -/
def text : PrintfLength → List Byte
  | start => []
  | shortShort => [ascii 'h', ascii 'h']
  | short => [ascii 'h']
  | long => [ascii 'l']
  | longLong => [ascii 'l', ascii 'l']

/-- The words that an argument takes: an `int` and a `long` have 32 bits. -/
def words : PrintfLength → Nat
  | longLong => 2
  | _ => 1

/-- The number in these words, the lower one first. -/
def value (args : Nat → Word) (argp : Nat) : PrintfLength → Nat
  | longLong => (args (argp + 1) ++ args argp).toNat
  | _ => (args argp).toNat

/-- The signed number in these words. -/
def signedValue (args : Nat → Word) (argp : Nat) : PrintfLength → Int
  | longLong => (args (argp + 1) ++ args argp).toInt
  | _ => (args argp).toInt

end PrintfLength

/-- The shortest numeral of `n`. -/
def numeral (base n : Nat) : List Byte := (Nat.toDigits base n).map ascii

def signedNumeral (n : Int) : List Byte :=
  if n < 0 then ascii '-' :: numeral 10 n.natAbs else numeral 10 n.natAbs

/-- A byte that stands for itself in a format. -/
structure Literal where
  byte : Byte
  nonzero : byte ≠ 0
  not_percent : byte ≠ ascii '%'

/-- A part of a format. -/
inductive Item where
  | literal (c : Literal)
  | directive (length : PrintfLength) (d : Directive)

namespace Item

def text : Item → List Byte
  | literal c => [c.byte]
  | directive length d => ascii '%' :: (length.text ++ [d.letter])

def words : Item → Nat
  | literal _ => 0
  | directive _ .percent => 0
  | directive length _ => length.words

/-- What an item stands for. The strings of the memory are given by their addresses. -/
def render (strings : Word → List Byte) (args : Nat → Word) (argp : Nat) : Item → List Byte
  | literal c => [c.byte]
  | directive _ .char => [(args argp).setWidth 8]
  | directive _ .string => strings (args argp)
  | directive _ .percent => [ascii '%']
  | directive length .decimal => signedNumeral (length.signedValue args argp)
  | directive length .integer => signedNumeral (length.signedValue args argp)
  | directive length .unsigned => numeral 10 (length.value args argp)
  | directive length .upperHex => numeral 16 (length.value args argp)
  | directive length .hex => numeral 16 (length.value args argp)
  | directive length .pointer => numeral 16 (length.value args argp)
  | directive length .octal => numeral 8 (length.value args argp)

/-- `P` holds of the length modifier, if the item is a directive. -/
def Modified (P : PrintfLength → Prop) : Item → Prop
  | literal _ => True
  | directive length _ => P length

end Item

/-- The format that the items make up. -/
def formatText (items : List Item) : List Byte := items.flatMap Item.text

def formatWords (items : List Item) : Nat := (items.map Item.words).sum

/-- What a format stands for, with its arguments from `argp` on. -/
def rendering (strings : Word → List Byte) (args : Nat → Word) : Nat → List Item → List Byte
  | _, [] => []
  | argp, item :: items =>
      item.render strings args argp ++ rendering strings args (argp + item.words) items

/-- The characters of a string that is ended by a NUL. -/
inductive CString (memory : Word → Byte) : Word → List Byte → Prop
  | nil {a : Word} (h : memory a = 0) : CString memory a []
  | cons {a : Word} {chars : List Byte} (h : memory a ≠ 0) (hrest : CString memory (a + 1) chars) :
      CString memory a (memory a :: chars)

/-- The strings that an item prints. -/
def Item.addresses (args : Nat → Word) (argp : Nat) : Item → List Word
  | directive _ .string => [args argp]
  | _ => []

/-- The arguments of `%s` in a format. -/
def stringArguments (args : Nat → Word) : Nat → List Item → List Word
  | _, [] => []
  | argp, item :: items =>
      item.addresses args argp ++ stringArguments args (argp + item.words) items

/-- The argument that is read, if it is one. -/
def Read.index : Read → Option Nat
  | .argument i => some i
  | .byte _ => none

/-- The arguments that were read. -/
def Printf.arguments (s : Printf) : List Nat := s.reads.filterMap Read.index

/-- The value of `pos` in front of the loop that puts the characters out, if the loop before it
makes at most `rounds` rounds. -/
def bufferPos (args : Nat → Word) (length : PrintfLength) (argp : Nat) (sign : Bool)
    (radix : Word) (rounds : Nat) : Nat :=
  let (number, negative) := printfNumber args length argp sign
  (numberDigits radix rounds number).length + if negative then 1 else 0

/-! ## Digits -/

section Digits

variable {radix number : Word}

theorem possibleChars_eq {rem : Word} (h : rem.toNat < 16) :
    possibleChars rem = ascii rem.toNat.digitChar := by
  have hall : ∀ k : Fin 16, possibleChars (BitVec.ofNat 32 k) = ascii (Nat.digitChar k) := by
    decide
  have hrem := hall ⟨rem.toNat, h⟩
  rwa [BitVec.ofNat_toNat, BitVec.setWidth_eq] at hrem

theorem quotient_pos_iff (hradix : 0 < radix.toNat) :
    number / radix > 0 ↔ radix.toNat ≤ number.toNat := by
  rw [gt_iff_lt, BitVec.lt_def, BitVec.toNat_udiv]
  exact Nat.div_pos_iff.trans (and_iff_right hradix)

theorem possibleChars_umod (hradix : 0 < radix.toNat) (hsmall : radix.toNat ≤ 16) :
    possibleChars (number % radix) = ascii (number.toNat % radix.toNat).digitChar := by
  have hlt : number.toNat % radix.toNat < radix.toNat := Nat.mod_lt _ hradix
  rw [possibleChars_eq (by rw [BitVec.toNat_umod]; omega), BitVec.toNat_umod]

/-- With enough places, the loop finds the digits of the numeral from the last one on. -/
theorem reverse_numberDigits (hradix : 1 < radix.toNat) (hsmall : radix.toNat ≤ 16) {places : Nat}
    (hplaces : number.toNat < radix.toNat ^ (places + 1)) :
    (numberDigits radix (places + 1) number).reverse = numeral radix.toNat number.toNat := by
  have hpos : 0 < radix.toNat := by omega
  induction places generalizing number with
  | zero =>
      have hlast : number.toNat < radix.toNat := by simpa using hplaces
      have hdone : ¬ number / radix > 0 := by
        rw [quotient_pos_iff hpos]
        omega
      rw [numberDigits, if_neg hdone, possibleChars_umod hpos hsmall, numeral,
        Nat.toDigits_of_lt_base hlast, Nat.mod_eq_of_lt hlast]
      rfl
  | succ places ih =>
      rw [numberDigits, possibleChars_umod hpos hsmall]
      by_cases hmore : number / radix > 0
      · have hbase := (quotient_pos_iff hpos).mp hmore
        have hquotient : (number / radix).toNat < radix.toNat ^ (places + 1) := by
          rw [BitVec.toNat_udiv]
          exact Nat.div_lt_of_lt_mul (by rwa [← pow_succ'])
        rw [if_pos hmore, List.reverse_cons, ih hquotient, BitVec.toNat_udiv, numeral, numeral,
          Nat.toDigits_of_base_le hradix hbase, List.map_append]
        rfl
      · have hlast : number.toNat < radix.toNat := by
          rw [quotient_pos_iff hpos] at hmore
          omega
        rw [if_neg hmore, numeral, Nat.toDigits_of_lt_base hlast, Nat.mod_eq_of_lt hlast]
        rfl

/-- The loop ends by itself, however many rounds it may make. -/
theorem length_numberDigits_le (hradix : 0 < radix.toNat) {digits : Nat}
    (hdigits : number.toNat < radix.toNat ^ (digits + 1)) (rounds : Nat) :
    (numberDigits radix rounds number).length ≤ digits + 1 := by
  induction rounds generalizing digits number with
  | zero => exact Nat.zero_le _
  | succ rounds ih =>
      rw [numberDigits, List.length_cons]
      split
      next hmore =>
        have hbase := (quotient_pos_iff hradix).mp hmore
        cases digits with
        | zero =>
            rw [zero_add, pow_one] at hdigits
            omega
        | succ digits =>
            refine Nat.succ_le_succ (ih ?_)
            rw [BitVec.toNat_udiv]
            exact Nat.div_lt_of_lt_mul (by rwa [← pow_succ'])
      next _ => exact Nat.succ_le_succ (Nat.zero_le _)

/-- A radix that `kernel_write` uses. -/
def Radix (radix : Word) : Prop := radix = 8 ∨ radix = 10 ∨ radix = 16

theorem Radix.bounds (h : Radix radix) : 8 ≤ radix.toNat ∧ radix.toNat ≤ 16 := by
  rcases h with rfl | rfl | rfl <;> decide

/-- Eleven digits are enough for a word. -/
theorem Radix.lt_pow (h : Radix radix) (number : Word) : number.toNat < radix.toNat ^ 11 :=
  calc number.toNat < 8 ^ 11 := Nat.lt_of_lt_of_le number.isLt (by decide)
    _ ≤ radix.toNat ^ 11 := Nat.pow_le_pow_left h.bounds.1 11

theorem Radix.numeral_eq (h : Radix radix) (number : Word) :
    (numberDigits radix 32 number).reverse = numeral radix.toNat number.toNat := by
  obtain ⟨hlow, hhigh⟩ := h.bounds
  have hplaces : number.toNat < radix.toNat ^ (31 + 1) :=
    Nat.lt_of_lt_of_le (h.lt_pow number) (Nat.pow_le_pow_right (by omega) (by decide))
  exact reverse_numberDigits (by omega) hhigh hplaces

/-- Every index into the buffer is below twelve. -/
theorem Radix.bufferPos_le (h : Radix radix) (args : Nat → Word) (length : PrintfLength)
    (argp : Nat) (sign : Bool) (rounds : Nat) :
    bufferPos args length argp sign radix rounds ≤ 12 := by
  have hdigits := length_numberDigits_le (by have := h.bounds.1; omega)
    (h.lt_pow (printfNumber args length argp sign).1) rounds
  unfold bufferPos
  dsimp only
  split <;> omega

end Digits

/-! ## Strings -/

section Strings

variable {memory : Word → Byte} {a : Word} {chars : List Byte}

theorem add_one_add_ofNat (a : Word) (i : Nat) :
    a + 1 + BitVec.ofNat 32 i = a + BitVec.ofNat 32 (i + 1) := by
  rw [BitVec.ofNat_add, BitVec.add_comm (BitVec.ofNat 32 i), ← BitVec.add_assoc]
  rfl

namespace CString

theorem memory_ne (h : CString memory a chars) {i : Nat} (hi : i < chars.length) :
    memory (a + BitVec.ofNat 32 i) ≠ 0 := by
  induction h generalizing i with
  | nil => exact nomatch hi
  | cons hchar hrest ih =>
      cases i with
      | zero => simpa using hchar
      | succ i =>
          rw [← add_one_add_ofNat]
          exact ih (Nat.lt_of_succ_lt_succ hi)

theorem memory_end (h : CString memory a chars) :
    memory (a + BitVec.ofNat 32 chars.length) = 0 := by
  induction h with
  | nil hend => simpa using hend
  | cons hchar hrest ih => rwa [List.length_cons, ← add_one_add_ofNat]

/-- A longer string would come to its own characters again before it ends. -/
theorem length_lt (h : CString memory a chars) : chars.length < 2 ^ 32 := by
  by_contra hlong
  have hagain : BitVec.ofNat 32 (chars.length % 2 ^ 32) = BitVec.ofNat 32 chars.length := by
    apply BitVec.eq_of_toNat_eq
    rw [BitVec.toNat_ofNat, BitVec.toNat_ofNat, Nat.mod_mod]
  have hlt : chars.length % 2 ^ 32 < chars.length :=
    Nat.lt_of_lt_of_le (Nat.mod_lt _ (by decide)) (Nat.le_of_not_lt hlong)
  exact h.memory_ne hlt (hagain.symm ▸ h.memory_end)

theorem go (h : CString memory a chars) {rounds : Nat} (hrounds : chars.length < rounds) :
    ∃ reads, putsKernel.go memory rounds a = some (chars, reads) ∧
      reads.filterMap Read.index = [] := by
  induction h generalizing rounds with
  | nil hend =>
      obtain ⟨rounds, rfl⟩ := Nat.exists_eq_succ_of_ne_zero (Nat.ne_of_gt hrounds)
      exact ⟨_, by rw [putsKernel.go, if_pos hend], rfl⟩
  | @cons a chars hchar hrest ih =>
      obtain ⟨rounds, rfl⟩ := Nat.exists_eq_succ_of_ne_zero (Nat.ne_zero_of_lt hrounds)
      obtain ⟨reads, hgo, hreads⟩ := ih (Nat.lt_of_succ_lt_succ hrounds)
      refine ⟨.byte a :: reads, ?_, hreads⟩
      rw [putsKernel.go, if_neg hchar, hgo]
      rfl

theorem putsKernel (h : CString memory a chars) :
    ∃ reads, Libk.putsKernel memory a = some (chars, reads) ∧
      reads.filterMap Read.index = [] := h.go h.length_lt

end CString

end Strings

/-! ## One directive -/

section Directives

variable {memory : Word → Byte} {args : Nat → Word} {strings : Word → List Byte} {s t u : Printf}

/-- Between two items of a format, these words were taken and these characters put out. -/
structure Printed (words : Nat) (chars : List Byte) (s t : Printf) : Prop where
  state : t.state = .start
  length : t.length = .start
  argp : t.argp = s.argp + words
  output : t.output = s.output ++ chars
  arguments : t.arguments = s.arguments ++ List.range' s.argp words

theorem Printed.trans {words words' : Nat} {chars chars' : List Byte}
    (h : Printed words chars s t) (h' : Printed words' chars' t u) :
    Printed (words + words') (chars ++ chars') s u := by
  refine ⟨h'.state, h'.length, ?_, ?_, ?_⟩
  · rw [h'.argp, h.argp, Nat.add_assoc]
  · rw [h'.output, h.output, List.append_assoc]
  · rw [h'.arguments, h.arguments, h.argp, List.append_assoc, List.range'_append_1]

/-- The lengths for which one word is taken. -/
def PrintfLength.Narrow (length : PrintfLength) : Prop := length ≠ .long ∧ length ≠ .longLong

namespace PrintfLength.Narrow

variable {length : PrintfLength}

theorem words_eq (h : length.Narrow) : length.words = 1 := by
  cases length with
  | longLong => exact absurd rfl h.2
  | _ => rfl

theorem value_eq (h : length.Narrow) (args : Nat → Word) (argp : Nat) :
    length.value args argp = (args argp).toNat := by
  cases length with
  | longLong => exact absurd rfl h.2
  | _ => rfl

theorem signedValue_eq (h : length.Narrow) (args : Nat → Word) (argp : Nat) :
    length.signedValue args argp = (args argp).toInt := by
  cases length with
  | longLong => exact absurd rfl h.2
  | _ => rfl

end PrintfLength.Narrow

theorem slt_zero_iff (n : Word) : n.slt 0 = true ↔ n.toInt < 0 := by
  rw [BitVec.slt_iff_toInt_lt]
  rfl

/-- The digits of a negative word are those of its negation. The least word is its own one. -/
theorem signedNumeral_toInt (n : Word) :
    signedNumeral n.toInt =
      if n.slt 0 = true then ascii '-' :: numeral 10 (-n).toNat else numeral 10 n.toNat := by
  have hint := BitVec.toInt_eq_toNat_cond n
  have hword := n.isLt
  unfold signedNumeral
  by_cases hneg : n.toInt < 0
  · have habs : n.toInt.natAbs = (-n).toNat := by
      rw [BitVec.toNat_neg]
      split_ifs at hint <;> omega
    rw [if_pos hneg, if_pos ((slt_zero_iff n).mpr hneg), habs]
  · have habs : n.toInt.natAbs = n.toNat := by
      split_ifs at hint <;> omega
    rw [if_neg hneg, if_neg (mt (slt_zero_iff n).mp hneg), habs]

theorem printfNumber_narrow (args : Nat → Word) {length : PrintfLength} (hnarrow : length.Narrow)
    (argp : Nat) (sign : Bool) :
    printfNumber args length argp sign =
      if sign = true ∧ (args argp).slt 0 = true then (-args argp, true)
      else (args argp, false) := by
  unfold printfNumber
  rw [if_neg fun hwide => hnarrow.2 hwide.1]

/-- One word is taken, and the digits come out from the first one on. -/
theorem printfNumberKernel_narrow (hnarrow : s.length.Narrow) (sign : Bool) {radix number : Word}
    {negative : Bool} (hradix : Radix radix)
    (hnumber : printfNumber args s.length s.argp sign = (number, negative)) :
    printfNumberKernel args s sign radix =
      ((s.read [.argument s.argp]).put ((if negative then [ascii '-'] else []) ++
        numeral radix.toNat number.toNat)).advance 1 := by
  have hslots : (if s.length = .longLong ∧ sign then [s.argp, s.argp + 1] else [s.argp]) =
      [s.argp] := if_neg fun hwide => hnarrow.2 hwide.1
  have hchars : (if negative then numberDigits radix 32 number ++ [ascii '-']
      else numberDigits radix 32 number).reverse =
      (if negative then [ascii '-'] else []) ++ numeral radix.toNat number.toNat := by
    rw [← hradix.numeral_eq]
    cases negative with
    | false => rfl
    | true => exact List.reverse_append
  unfold printfNumberKernel
  rw [hnumber, hslots]
  dsimp only
  rw [hchars]
  obtain ⟨hlong, hlongLong⟩ := hnarrow
  cases hlength : s.length with
  | long => exact absurd hlength hlong
  | longLong => exact absurd hlength hlongLong
  | _ => rfl

/-- A signed word. -/
theorem printfNumberKernel_signed (hnarrow : s.length.Narrow) :
    printfNumberKernel args s true 10 =
      ((s.read [.argument s.argp]).put (signedNumeral (args s.argp).toInt)).advance 1 := by
  have hradix : Radix 10 := Or.inr (Or.inl rfl)
  have hnumber := printfNumber_narrow args hnarrow s.argp true
  rw [signedNumeral_toInt]
  by_cases hneg : (args s.argp).slt 0 = true
  · rw [if_pos ⟨rfl, hneg⟩] at hnumber
    rw [printfNumberKernel_narrow hnarrow true hradix hnumber, if_pos hneg]
    rfl
  · rw [if_neg fun hsigned => hneg hsigned.2] at hnumber
    rw [printfNumberKernel_narrow hnarrow true hradix hnumber, if_neg hneg]
    rfl

/-- An unsigned word. -/
theorem printfNumberKernel_unsigned (hnarrow : s.length.Narrow) {radix : Word}
    (hradix : Radix radix) :
    printfNumberKernel args s false radix =
      ((s.read [.argument s.argp]).put (numeral radix.toNat (args s.argp).toNat)).advance 1 := by
  have hnumber := printfNumber_narrow args hnarrow s.argp false
  rw [if_neg fun hneg => nomatch hneg.1] at hnumber
  exact printfNumberKernel_narrow hnarrow false hradix hnumber

namespace Directive

variable {d : Directive} {sign : Bool} {radix : Word} {length : PrintfLength} {argp : Nat}

theorem specifier_number (h : d.number = some (sign, radix)) :
    specifier memory args d.letter s = some (printfNumberKernel args s sign radix).restart := by
  cases d <;> cases h <;> rfl

theorem radix_of_number (h : d.number = some (sign, radix)) : Radix radix := by
  cases d <;> cases h <;> simp [Radix]

theorem words_of_number (h : d.number = some (sign, radix)) :
    (Item.directive length d).words = length.words := by
  cases d <;> cases h <;> rfl

theorem radix_of_signed (h : d.number = some (true, radix)) : radix = 10 := by
  cases d <;> cases h <;> rfl

theorem render_signed (h : d.number = some (true, radix)) :
    (Item.directive length d).render strings args argp =
      signedNumeral (length.signedValue args argp) := by
  cases d <;> cases h <;> rfl

theorem render_unsigned (h : d.number = some (false, radix)) :
    (Item.directive length d).render strings args argp =
      numeral radix.toNat (length.value args argp) := by
  cases d <;> cases h <;> rfl

end Directive

theorem printed_word {reads : List Read} (hreads : reads.filterMap Read.index = [])
    (chars : List Byte) :
    Printed 1 chars s (((s.read (.argument s.argp :: reads)).put chars).advance 1).restart := by
  refine ⟨rfl, rfl, rfl, rfl, ?_⟩
  change (s.reads ++ .argument s.argp :: reads).filterMap Read.index = _
  rw [List.filterMap_append]
  exact congrArg (s.arguments ++ s.argp :: ·) hreads

/-- A directive takes its argument and prints it. -/
theorem specifier_printed (d : Directive) (hnarrow : s.length.Narrow)
    (hstrings : ∀ a ∈ (Item.directive s.length d).addresses args s.argp,
      CString memory a (strings a)) :
    ∃ t, specifier memory args d.letter s = some t ∧
      Printed (Item.directive s.length d).words
        ((Item.directive s.length d).render strings args s.argp) s t := by
  cases hnumber : d.number with
  | some number =>
      obtain ⟨sign, radix⟩ := number
      refine ⟨_, d.specifier_number hnumber, ?_⟩
      rw [Directive.words_of_number hnumber, hnarrow.words_eq]
      cases sign with
      | true =>
          obtain rfl := Directive.radix_of_signed hnumber
          rw [printfNumberKernel_signed hnarrow, Directive.render_signed hnumber,
            hnarrow.signedValue_eq]
          exact printed_word rfl _
      | false =>
          rw [printfNumberKernel_unsigned hnarrow (Directive.radix_of_number hnumber),
            Directive.render_unsigned hnumber, hnarrow.value_eq]
          exact printed_word rfl _
  | none =>
      cases d with
      | char =>
          have hwords : (Item.directive s.length .char).words = 1 := hnarrow.words_eq
          rw [hwords]
          exact ⟨_, rfl, printed_word rfl _⟩
      | string =>
          have hwords : (Item.directive s.length .string).words = 1 := hnarrow.words_eq
          rw [hwords]
          obtain ⟨reads, hputs, hreads⟩ := (hstrings _ (List.mem_singleton_self _)).putsKernel
          refine ⟨_, ?_, printed_word hreads _⟩
          have hone : (if s.length = .long ∨ s.length = .longLong then 2 else 1) = 1 :=
            if_neg (not_or.mpr hnarrow)
          change (Libk.putsKernel memory (args s.argp)).map _ = _
          rw [hputs, hone]
          rfl
      | percent =>
          refine ⟨_, rfl, rfl, rfl, rfl, rfl, ?_⟩
          exact (List.append_nil _).symm
      | _ => exact nomatch hnumber

theorem Directive.letter_ne (d : Directive) :
    d.letter ≠ 0 ∧ d.letter ≠ ascii 'h' ∧ d.letter ≠ ascii 'l' := by
  cases d <;> decide

/-- The modifier is read in front of the directive. -/
theorem formatLoop_directive (memory : Word → Byte) (args : Nat → Word) (length : PrintfLength)
    (d : Directive) (hstate : s.state = .start) (hlength : s.length = .start) :
    ∃ state, ∀ rest, formatLoop memory args ((Item.directive length d).text ++ rest) s =
      (specifier memory args d.letter { s with state := state, length := length }).bind
        (formatLoop memory args rest) := by
  obtain ⟨hzero, hshort, hlong⟩ := d.letter_ne
  obtain ⟨state, len, argp, output, reads⟩ := s
  obtain rfl : state = .start := hstate
  obtain rfl : len = .start := hlength
  have hpercent : ¬ ascii '%' = 0 := by decide
  have hh : ¬ ascii 'h' = 0 := by decide
  have hl : ¬ ascii 'l' = 0 := by decide
  have hlh : ¬ ascii 'l' = ascii 'h' := by decide
  cases length with
  | start =>
      refine ⟨.length, fun rest => ?_⟩
      simp only [Item.text, PrintfLength.text, List.cons_append, List.nil_append, formatLoop,
        formatChar, if_neg hpercent, if_neg hzero, if_neg hshort, if_neg hlong, if_true,
        Option.bind_some]
  | shortShort =>
      refine ⟨.spec, fun rest => ?_⟩
      simp only [Item.text, PrintfLength.text, List.cons_append, List.nil_append, formatLoop,
        formatChar, if_neg hpercent, if_neg hh, if_neg hzero, if_true, Option.bind_some]
  | short =>
      refine ⟨.short, fun rest => ?_⟩
      simp only [Item.text, PrintfLength.text, List.cons_append, List.nil_append, formatLoop,
        formatChar, if_neg hpercent, if_neg hh, if_neg hzero, if_neg hshort, if_true,
        Option.bind_some]
  | long =>
      refine ⟨.long, fun rest => ?_⟩
      simp only [Item.text, PrintfLength.text, List.cons_append, List.nil_append, formatLoop,
        formatChar, if_neg hpercent, if_neg hl, if_neg hlh, if_neg hzero, if_neg hlong, if_true,
        Option.bind_some]
  | longLong =>
      refine ⟨.spec, fun rest => ?_⟩
      simp only [Item.text, PrintfLength.text, List.cons_append, List.nil_append, formatLoop,
        formatChar, if_neg hpercent, if_neg hl, if_neg hlh, if_neg hzero, if_true, Option.bind_some]

/-- One item of a format is printed. -/
theorem formatLoop_item (item : Item) (hnarrow : item.Modified PrintfLength.Narrow)
    (hstrings : ∀ a ∈ item.addresses args s.argp, CString memory a (strings a))
    (hstate : s.state = .start) (hlength : s.length = .start) :
    ∃ t, (∀ rest, formatLoop memory args (item.text ++ rest) s = formatLoop memory args rest t) ∧
      Printed item.words (item.render strings args s.argp) s t := by
  cases item with
  | literal c =>
      refine ⟨s.put [c.byte], fun rest => ?_, hstate, hlength, rfl, rfl,
        (List.append_nil _).symm⟩
      simp only [Item.text, List.cons_append, List.nil_append, formatLoop, formatChar, hstate,
        if_neg c.nonzero, if_neg c.not_percent, Option.bind_some]
  | directive length d =>
      obtain ⟨state, hloop⟩ := formatLoop_directive memory args length d hstate hlength
      obtain ⟨t, hspecifier, hprinted⟩ :=
        specifier_printed (s := { s with state := state, length := length }) d hnarrow hstrings
      refine ⟨t, fun rest => ?_, hprinted.state, hprinted.length, hprinted.argp,
        hprinted.output, hprinted.arguments⟩
      rw [hloop, hspecifier]
      rfl

/-- The items of a format are printed one after the other. -/
theorem formatLoop_items {items : List Item}
    (hnarrow : ∀ item ∈ items, item.Modified PrintfLength.Narrow)
    (hstrings : ∀ a ∈ stringArguments args s.argp items, CString memory a (strings a))
    (hstate : s.state = .start) (hlength : s.length = .start) :
    ∃ t, (∀ rest, formatLoop memory args (formatText items ++ rest) s =
        formatLoop memory args rest t) ∧
      Printed (formatWords items) (rendering strings args s.argp items) s t := by
  induction items generalizing s with
  | nil =>
      refine ⟨s, fun _ => rfl, hstate, hlength, rfl, ?_, ?_⟩
      · exact (List.append_nil _).symm
      · exact (List.append_nil _).symm
  | cons item items ih =>
      obtain ⟨t, hitem, hfirst⟩ := formatLoop_item item (hnarrow item List.mem_cons_self)
        (fun a ha => hstrings a (List.mem_append_left _ ha)) hstate hlength
      obtain ⟨u, hitems, hothers⟩ := ih (s := t)
        (fun other hother => hnarrow other (List.mem_cons_of_mem _ hother))
        (fun a ha => hstrings a (List.mem_append_right _ (hfirst.argp ▸ ha)))
        hfirst.state hfirst.length
      rw [hfirst.argp] at hothers
      refine ⟨u, fun rest => ?_, hfirst.trans hothers⟩
      rw [← hitems, ← hitem, formatText, List.flatMap_cons, List.append_assoc]
      rfl

end Directives

/-! ## Formats without length modifiers -/

section Formats

variable (memory : Word → Byte) (args : Nat → Word) (strings : Word → List Byte)

/-- A format without length modifiers is printed as the items stand for, and its arguments are read
from the first one on. Wherever `argp` stands, no number is longer than the buffer. -/
theorem kernelWrite_renders {items : List Item}
    (hunmodified : ∀ item ∈ items, item.Modified (· = .start))
    (hstrings : ∀ a ∈ stringArguments args 0 items, CString memory a (strings a)) :
    (∃ t, kernelWrite memory args (formatText items ++ [0]) = some t ∧
      t.output = rendering strings args 0 items ∧
      t.argp = formatWords items ∧
      t.arguments = List.range (formatWords items)) ∧
    ∀ d sign radix, Directive.number d = some (sign, radix) → ∀ length argp rounds,
      bufferPos args length argp sign radix rounds ≤ 32 := by
  constructor
  · have hnarrow : ∀ item ∈ items, item.Modified PrintfLength.Narrow := fun item hitem => by
      have hstart := hunmodified item hitem
      cases item with
      | literal c => trivial
      | directive length d =>
          obtain rfl : length = .start := hstart
          exact ⟨nofun, nofun⟩
    obtain ⟨t, hloop, hprinted⟩ := formatLoop_items (s := .initial) hnarrow hstrings rfl rfl
    refine ⟨t, hloop [0], hprinted.output, ?_, ?_⟩
    · exact hprinted.argp.trans (Nat.zero_add _)
    · exact hprinted.arguments.trans (List.range_eq_range' ▸ rfl)
  · intro d sign radix hnumber length argp rounds
    have hpos := (Directive.radix_of_number hnumber).bufferPos_le args length argp sign rounds
    omega

end Formats

/-- The string `id` at 0xD0000000. -/
def exampleMemory (a : Word) : Byte :=
  if a = 0xD0000000 then ascii 'i' else if a = 0xD0000001 then ascii 'd' else 0

/-- `%s=%d%%`. -/
def exampleItems : List Item :=
  [.directive .start .string, .literal ⟨ascii '=', by decide, by decide⟩,
    .directive .start .decimal, .directive .start .percent]

def exampleArguments (i : Nat) : Word := if i = 0 then 0xD0000000 else 0x80000000

/-- The least `int` is printed behind a string. -/
theorem kernelWrite_renders_string :
    ∃ t, kernelWrite exampleMemory exampleArguments (formatText exampleItems ++ [0]) = some t ∧
      t.output = "id=-2147483648%".toList.map ascii := by
  have hstring : CString exampleMemory 0xD0000000 ("id".toList.map ascii) :=
    .cons (by decide) (.cons (by decide) (.nil (by decide)))
  have hunmodified : ∀ item ∈ exampleItems, item.Modified (· = .start) := by
    simp [exampleItems, Item.Modified]
  obtain ⟨⟨t, hcall, houtput, -⟩, -⟩ := kernelWrite_renders exampleMemory exampleArguments
    (fun _ => "id".toList.map ascii) hunmodified fun a ha => by
      obtain rfl := List.mem_singleton.mp ha
      exact hstring
  exact ⟨t, hcall, houtput.trans (by decide)⟩

end Senob.Libk
