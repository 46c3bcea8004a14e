import Mathlib.Algebra.Ring.Parity
import Mathlib.Data.List.Induction
import Senob.Drivers.Keyboard

/-!
# The modifier keys

What the handler remembers of the Shift keys and of Caps Lock, against the keys that are down.
Both Shift keys set one flag, and the release of either clears it.
-/

namespace Senob.Drivers

/-! ## Sequences of scancodes -/

/-- `code` names a key in its low bits, and tells a release by its highest. -/
def keyOf (code : Byte) : Word := lowercase.getD (code &&& 0x7F).toNat 0

def isMake (code : Byte) : Bool := code &&& 0x80 == 0

/-- Both reads of the port return the scancode. -/
def Keyboard.deliver (k : Keyboard) (code : Byte) : Keyboard := k.irq1Handler code code

def Keyboard.initial : Keyboard := ⟨false, false, .initial, []⟩

def keyboardAfter (codes : List Byte) : Keyboard := codes.foldl Keyboard.deliver .initial

/-- The last scancode of the key was a press. -/
def held (key : Word) (codes : List Byte) : Bool :=
  codes.foldl (fun down code => if keyOf code = key then isMake code else down) false

def presses (key : Word) (codes : List Byte) : Nat :=
  codes.countP fun code => keyOf code = key ∧ isMake code

/-- The key that the handler shows and stores is the one of the table. -/
def TranslatedBy (table : List Word) (k : Keyboard) (code : Byte) : Prop :=
  let key := table.getD (code &&& 0x7F).toNat 0
  (k.deliver code).output = k.output ++ [key.setWidth 8] ∧
    (k.deliver code).buffer = k.buffer.addKeyToBuffer key

/-- The flags tell which keys are down, and every ordinary key was translated by them. -/
structure Follows (codes : List Byte) : Prop where
  shift : (keyboardAfter codes).capsOn = true ↔ held lshft codes ∨ held rshft codes
  lock : (keyboardAfter codes).capsLock = true ↔ Odd (presses caps codes)
  translated : ∀ before code, before ++ [code] <+: codes → isMake code →
    ¬ isSpecialKey (keyOf code) →
      let k := keyboardAfter before
      TranslatedBy (if k.capsOn || k.capsLock then uppercase else lowercase) k code

def IsShift (code : Byte) : Prop := keyOf code = lshft ∨ keyOf code = rshft

instance (code : Byte) : Decidable (IsShift code) := inferInstanceAs (Decidable (_ ∨ _))

/-- The scancode releases one Shift key while the other one is down. -/
def ReleasesOneOfTwo (before : List Byte) (code : Byte) : Prop :=
  ¬ isMake code ∧ (keyOf code = lshft ∧ held rshft before ∨ keyOf code = rshft ∧ held lshft before)

/-- The last scancode of a Shift key in the sequence released one of two. -/
def StrandsShift (codes : List Byte) : Prop :=
  ∃ before code after, codes = before ++ code :: after ∧ ReleasesOneOfTwo before code ∧
    ∀ c ∈ after, ¬ IsShift c

/-! ## One more scancode -/

variable (codes : List Byte) (code : Byte) (key : Word)

theorem keyboardAfter_append :
    keyboardAfter (codes ++ [code]) = (keyboardAfter codes).deliver code := List.foldl_concat ..

theorem held_append :
    held key (codes ++ [code]) = if keyOf code = key then isMake code else held key codes :=
  List.foldl_concat ..

theorem presses_append :
    presses key (codes ++ [code]) =
      presses key codes + if keyOf code = key ∧ isMake code then 1 else 0 := by
  rw [presses, List.countP_append, List.countP_singleton]
  simp only [decide_eq_true_eq, presses]

theorem isSpecialKey_of_isShift {code : Byte} (h : IsShift code) : isSpecialKey (keyOf code) := by
  rcases h with h | h <;> rw [h] <;> decide

/-- The handler's answer to a scancode, by the key that it names. -/
theorem deliver_eq (k : Keyboard) :
    k.deliver code =
      if isSpecialKey (keyOf code) then k.handleSpecialKey (keyOf code) (isMake code)
      else if isMake code then
        let key := (if k.capsOn || k.capsLock then uppercase else lowercase).getD
          (code &&& 0x7F).toNat 0
        { k.putcKernel (key.setWidth 8) with buffer := k.buffer.addKeyToBuffer key }
      else k := by
  unfold Keyboard.deliver Keyboard.irq1Handler keyOf isMake
  dsimp only
  cases k.capsOn || k.capsLock <;> rfl

theorem handleSpecialKey_capsOn (k : Keyboard) (pressed : Bool) :
    (k.handleSpecialKey key pressed).capsOn =
      if key = lshft ∨ key = rshft then pressed else k.capsOn := by
  unfold Keyboard.handleSpecialKey Keyboard.putcKernel
  split_ifs <;> rfl

theorem handleSpecialKey_capsLock (k : Keyboard) (pressed : Bool) :
    (k.handleSpecialKey key pressed).capsLock =
      if key = caps ∧ pressed then !k.capsLock else k.capsLock := by
  by_cases hkey : key = caps
  · subst hkey
    cases pressed <;> rfl
  · rw [if_neg fun h => hkey h.1]
    unfold Keyboard.handleSpecialKey Keyboard.putcKernel
    rw [if_neg hkey]
    split_ifs <;> rfl

theorem deliver_capsOn (k : Keyboard) :
    (k.deliver code).capsOn = if IsShift code then isMake code else k.capsOn := by
  rw [deliver_eq]
  by_cases hspecial : isSpecialKey (keyOf code)
  · rw [if_pos hspecial]
    exact handleSpecialKey_capsOn _ k _
  · rw [if_neg hspecial, if_neg fun hshift => hspecial (isSpecialKey_of_isShift hshift)]
    split_ifs <;> rfl

theorem deliver_capsLock (k : Keyboard) :
    (k.deliver code).capsLock =
      if keyOf code = caps ∧ isMake code then !k.capsLock else k.capsLock := by
  have hcaps : isSpecialKey caps := by decide
  rw [deliver_eq]
  by_cases hspecial : isSpecialKey (keyOf code)
  · rw [if_pos hspecial]
    exact handleSpecialKey_capsLock _ k _
  · have hkey : ¬ (keyOf code = caps ∧ isMake code) := fun h => hspecial (h.1 ▸ hcaps)
    rw [if_neg hspecial, if_neg hkey]
    split_ifs <;> rfl

theorem translatedBy_deliver (k : Keyboard) (hmake : isMake code)
    (hordinary : ¬ isSpecialKey (keyOf code)) :
    TranslatedBy (if k.capsOn || k.capsLock then uppercase else lowercase) k code := by
  unfold TranslatedBy
  rw [deliver_eq, if_neg hordinary, if_pos hmake]
  exact ⟨rfl, rfl⟩

theorem strandsShift_append :
    StrandsShift (codes ++ [code]) ↔
      if IsShift code then ReleasesOneOfTwo codes code else StrandsShift codes := by
  constructor
  · rintro ⟨before, last, after, heq, hrelease, hafter⟩
    have hlast : IsShift last := hrelease.2.imp And.left And.left
    rcases List.eq_nil_or_concat after with rfl | ⟨middle, final, rfl⟩
    · obtain ⟨rfl, hcode⟩ := List.append_inj' heq rfl
      obtain rfl := List.singleton_inj.mp hcode
      rw [if_pos hlast]
      exact hrelease
    · -- The last Shift scancode came before, and the new one is of another key.
      rw [List.concat_eq_append] at heq hafter
      have hassoc : before ++ last :: (middle ++ [final]) =
          before ++ last :: middle ++ [final] := by
        simp
      obtain ⟨rfl, hcode⟩ := List.append_inj' (heq.trans hassoc) rfl
      obtain rfl := List.singleton_inj.mp hcode
      rw [if_neg (hafter code (by simp))]
      exact ⟨before, last, middle, rfl, hrelease, fun c hc => hafter c (by simp [hc])⟩
  · intro h
    by_cases hshift : IsShift code
    · rw [if_pos hshift] at h
      exact ⟨codes, code, [], rfl, h, by simp⟩
    · rw [if_neg hshift] at h
      obtain ⟨before, last, after, rfl, hrelease, hafter⟩ := h
      refine ⟨before, last, after ++ [code], by simp, hrelease, fun c hc => ?_⟩
      rcases List.mem_append.mp hc with hc | hc
      · exact hafter c hc
      · exact List.mem_singleton.mp hc ▸ hshift

/-! ## All sequences -/

theorem not_strandsShift_nil : ¬ StrandsShift [] := by
  rintro ⟨before, code, after, heq, -⟩
  simp at heq

/-- The flag is wrong just when the last Shift scancode released one of two. -/
theorem capsOn_iff (codes : List Byte) :
    ((keyboardAfter codes).capsOn = true ↔ held lshft codes ∨ held rshft codes) ↔
      ¬ StrandsShift codes := by
  induction codes using List.reverseRecOn with
  | nil => exact iff_of_true (by decide) not_strandsShift_nil
  | append_singleton codes code ih =>
      have hne : lshft ≠ rshft := by decide
      rw [keyboardAfter_append, deliver_capsOn, held_append, held_append, strandsShift_append]
      by_cases hshift : IsShift code
      · rw [if_pos hshift, if_pos hshift, ReleasesOneOfTwo]
        -- A press is right for either key. A release is, unless the other key is down.
        rcases hshift with hkey | hkey
        · rw [hkey, if_pos rfl, if_neg hne]
          cases isMake code <;> simp [hne]
        · rw [hkey, if_pos rfl, if_neg hne.symm]
          cases isMake code <;> simp [hne.symm]
      · have hleft : keyOf code ≠ lshft := fun h => hshift (Or.inl h)
        have hright : keyOf code ≠ rshft := fun h => hshift (Or.inr h)
        rw [if_neg hshift, if_neg hshift, if_neg hleft, if_neg hright]
        exact ih

theorem capsLock_iff (codes : List Byte) :
    (keyboardAfter codes).capsLock = true ↔ Odd (presses caps codes) := by
  induction codes using List.reverseRecOn with
  | nil => decide
  | append_singleton codes code ih =>
      rw [keyboardAfter_append, deliver_capsLock, presses_append]
      split
      next _ => rw [Nat.odd_add_one, ← ih, Bool.not_eq_true', Bool.not_eq_true]
      next _ => exact ih

/-- For every sequence of scancodes, the modifier state follows the keyboard unless the last Shift
scancode releases one Shift key while the other one is down. -/
theorem follows_iff (codes : List Byte) : Follows codes ↔ ¬ StrandsShift codes := by
  refine ⟨fun h => (capsOn_iff codes).mp h.shift, fun h => ⟨(capsOn_iff codes).mpr h,
    capsLock_iff codes, fun before code _ hmake hordinary => ?_⟩⟩
  exact translatedBy_deliver code _ hmake hordinary

/-- Left Shift down, right Shift down, left Shift up. -/
theorem not_follows_two_shifts : ¬ ∀ codes, Follows codes := fun h =>
  absurd (h [0x2A, 0x36, 0xAA]).shift (by decide)

end Senob.Drivers
