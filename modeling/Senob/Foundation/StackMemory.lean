import Mathlib.Data.BitVec
import Mathlib.Data.List.Basic

/-!
# Little-endian memory and stacks

A byte memory of 32-bit addresses with words in it, and a stack that grows down. Addresses
wrap around, so two words are apart when each lies at least four bytes after the other.
A row of words says what is found on a stack from its pointer upwards.
-/

namespace Senob.Foundation

/-- A byte of a word, the lowest first. -/
def byteOf (v : BitVec 32) (i : Nat) : BitVec 8 := v.extractLsb' (8 * i) 8

def joinBytes (bytes : Nat → BitVec 8) : BitVec 32 := bytes 3 ++ bytes 2 ++ bytes 1 ++ bytes 0

theorem joinBytes_congr {bytes bytes' : Nat → BitVec 8} (h : ∀ i < 4, bytes i = bytes' i) :
    joinBytes bytes = joinBytes bytes' := by
  simp [joinBytes, h 0, h 1, h 2, h 3]

theorem joinBytes_byteOf (v : BitVec 32) : joinBytes (byteOf v) = v := by
  apply BitVec.eq_of_getLsbD_eq
  intro i hi
  simp only [joinBytes, byteOf, BitVec.getLsbD_append, BitVec.getLsbD_extractLsb']
  grind

abbrev ByteMemory := BitVec 32 → BitVec 8

namespace ByteMemory

def load (m : ByteMemory) (a : BitVec 32) : BitVec 32 :=
  joinBytes fun i => m (a + BitVec.ofNat 32 i)

/-- The first `n` bytes are stored from the address on. -/
def storeBytes (m : ByteMemory) (a : BitVec 32) (n : Nat) (bytes : Nat → BitVec 8) :
    ByteMemory := fun b => if (b - a).toNat < n then bytes (b - a).toNat else m b

def store (m : ByteMemory) (a v : BitVec 32) : ByteMemory := m.storeBytes a 4 (byteOf v)

variable {m : ByteMemory} {a b v : BitVec 32} {n : Nat} {bytes : Nat → BitVec 8}

theorem storeBytes_of_lt (h : (b - a).toNat < n) :
    m.storeBytes a n bytes b = bytes (b - a).toNat := if_pos h

theorem storeBytes_of_le (h : n ≤ (b - a).toNat) : m.storeBytes a n bytes b = m b :=
  if_neg (Nat.not_lt.mpr h)

theorem load_congr {m' : ByteMemory}
    (h : ∀ i < 4, m (a + BitVec.ofNat 32 i) = m' (a + BitVec.ofNat 32 i)) :
    m.load a = m'.load a := joinBytes_congr h

@[simp] theorem load_store : (m.store a v).load a = v := by
  have hbyte : ∀ i < 4, m.store a v (a + BitVec.ofNat 32 i) = byteOf v i := by
    intro i hi
    have hoffset : (a + BitVec.ofNat 32 i - a).toNat = i := by bv_omega
    rw [store, storeBytes_of_lt (by omega), hoffset]
  calc (m.store a v).load a = joinBytes (byteOf v) := joinBytes_congr hbyte
    _ = v := joinBytes_byteOf v

theorem load_storeBytes_of_apart (hafter : n ≤ (b - a).toNat) (hbefore : 4 ≤ (a - b).toNat) :
    (m.storeBytes a n bytes).load b = m.load b := by
  apply load_congr
  intro i hi
  apply storeBytes_of_le
  bv_omega

theorem load_store_of_apart (hafter : 4 ≤ (b - a).toNat) (hbefore : 4 ≤ (a - b).toNat) :
    (m.store a v).load b = m.load b := load_storeBytes_of_apart hafter hbefore

/-- The words are found one after the other from the address on. -/
def Holds (m : ByteMemory) (a : BitVec 32) : List (BitVec 32) → Prop
  | [] => True
  | w :: ws => m.load a = w ∧ m.Holds (a + 4) ws

theorem holds_nil : m.Holds a [] := trivial

theorem Holds.append_right {ws ws' : List (BitVec 32)} (h : m.Holds a (ws ++ ws')) :
    m.Holds (a + BitVec.ofNat 32 (4 * ws.length)) ws' := by
  induction ws generalizing a with
  | nil => simpa using h
  | cons w ws ih =>
      have htail := ih h.2
      have haddress : a + 4 + BitVec.ofNat 32 (4 * ws.length) =
          a + BitVec.ofNat 32 (4 * (w :: ws).length) := by
        simp only [List.length_cons]
        bv_omega
      rwa [haddress] at htail

/-- A store below the row does not reach it. -/
theorem Holds.store_below {ws : List (BitVec 32)} (h : m.Holds b ws)
    (hafter : 4 ≤ (b - a).toNat) (hroom : (b - a).toNat + 4 * ws.length ≤ 2 ^ 32) :
    (m.store a v).Holds b ws := by
  induction ws generalizing b with
  | nil => trivial
  | cons w ws ih =>
      rw [List.length_cons] at hroom
      refine ⟨?_, ?_⟩
      · rw [load_store_of_apart hafter (by bv_omega)]
        exact h.1
      · cases ws with
        | nil => trivial
        | cons w' ws =>
            rw [List.length_cons] at hroom ih
            have hnext : (b + 4 - a).toNat = (b - a).toNat + 4 := by bv_omega
            exact ih h.2 (by omega) (by omega)

/-- The memory after pushing the words, the first one first, on the stack that ends at
`top`. -/
def pushAll (m : ByteMemory) (top : BitVec 32) : List (BitVec 32) → ByteMemory
  | [] => m
  | w :: ws => (m.store (top - 4) w).pushAll (top - 4) ws

theorem pushAll_append (top : BitVec 32) (ws ws' : List (BitVec 32)) :
    m.pushAll top (ws ++ ws') =
      (m.pushAll top ws).pushAll (top - BitVec.ofNat 32 (4 * ws.length)) ws' := by
  induction ws generalizing m top with
  | nil => simp [pushAll]
  | cons w ws ih =>
      have htop : top - 4 - BitVec.ofNat 32 (4 * ws.length) =
          top - BitVec.ofNat 32 (4 * (w :: ws).length) := by
        simp only [List.length_cons]
        bv_omega
      rw [List.cons_append, pushAll, ih, htop, pushAll]

/-- What was pushed is found above the stack pointer in the opposite order, followed by
what was on the stack before. -/
theorem Holds.pushAll {top : BitVec 32} {below : List (BitVec 32)} (ws : List (BitVec 32))
    (h : m.Holds top below) (hroom : 4 * (ws.length + below.length) ≤ 2 ^ 32) :
    (m.pushAll top ws).Holds (top - BitVec.ofNat 32 (4 * ws.length)) (ws.reverse ++ below) := by
  induction ws generalizing m top below with
  | nil => simpa [ByteMemory.pushAll] using h
  | cons w ws ih =>
      rw [List.length_cons] at hroom
      have hoffset : (top - (top - 4)).toNat = 4 := by bv_omega
      have hnext : (m.store (top - 4) w).Holds (top - 4) (w :: below) := by
        refine ⟨load_store, ?_⟩
        rw [BitVec.sub_add_cancel]
        exact h.store_below (by omega) (by omega)
      have htop : top - 4 - BitVec.ofNat 32 (4 * ws.length) =
          top - BitVec.ofNat 32 (4 * (w :: ws).length) := by
        simp only [List.length_cons]
        bv_omega
      have hall := ih hnext (by rw [List.length_cons]; omega)
      rwa [htop, List.append_cons, ← List.reverse_cons] at hall

/-- Pushing changes only the bytes of the words that are pushed. -/
theorem pushAll_of_le {top : BitVec 32} {ws : List (BitVec 32)}
    (hroom : 4 * ws.length ≤ 2 ^ 32)
    (h : 4 * ws.length ≤ (b - (top - BitVec.ofNat 32 (4 * ws.length))).toNat) :
    m.pushAll top ws b = m b := by
  induction ws generalizing m top with
  | nil => rfl
  | cons w ws ih =>
      rw [List.length_cons] at hroom h
      have hbottom : top - 4 - BitVec.ofNat 32 (4 * ws.length) =
          top - BitVec.ofNat 32 (4 * (ws.length + 1)) := by bv_omega
      have hword : 4 ≤ (b - (top - 4)).toNat := by bv_omega
      rw [pushAll, ih (by omega) (by rw [hbottom]; omega), store, storeBytes_of_le hword]

theorem load_pushAll_of_apart {top : BitVec 32} {ws : List (BitVec 32)}
    (hafter : 4 * ws.length ≤ (b - (top - BitVec.ofNat 32 (4 * ws.length))).toNat)
    (hroom : (b - (top - BitVec.ofNat 32 (4 * ws.length))).toNat + 4 ≤ 2 ^ 32) :
    (m.pushAll top ws).load b = m.load b := by
  apply load_congr
  intro i hi
  apply pushAll_of_le (by omega)
  bv_omega

end ByteMemory

end Senob.Foundation
