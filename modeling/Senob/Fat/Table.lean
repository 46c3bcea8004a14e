import Mathlib.Tactic.IntervalCases
import Senob.Fat.Window

/-!
# The entries of a FAT

The three formats in which the bytes of a FAT hold one number for each cluster. Entries of 12
bits share bytes: two of them lie in three.
-/

namespace Senob.Fat

/-- The number that two bytes of a FAT12 table hold for an odd or an even cluster. -/
def unpack12 (odd : Bool) (wc : BitVec 16) : Dword :=
  (if odd then wc >>> 4 else wc &&& 0xFFF).setWidth 32

/-- The first byte of a FAT12 entry with a new number in it. -/
def pack12First (odd : Bool) (p : BitVec 8) (val : Dword) : BitVec 8 :=
  if odd then (p &&& (0x0F : BitVec 8)) ||| (val.setWidth 8 <<< 4) else val.setWidth 8

/-- The second byte of a FAT12 entry with a new number in it. -/
def pack12Second (odd : Bool) (p : BitVec 8) (val : Dword) : BitVec 8 :=
  if odd then (val >>> 4).setWidth 8
  else (p &&& (0xF0 : BitVec 8)) ||| ((val >>> 8).setWidth 8 &&& (0x0F : BitVec 8))

section Packing

variable (p q : BitVec 8) (val : Dword)

theorem unpack12_pack12 (odd : Bool) :
    unpack12 odd (pack12Second odd q val ++ pack12First odd p val) = val &&& 0xFFF := by
  apply BitVec.eq_of_getLsbD_eq
  intro i hi
  cases odd
  case true =>
    simp only [unpack12, pack12First, pack12Second, if_true, BitVec.getLsbD_setWidth,
      BitVec.getLsbD_ushiftRight, BitVec.getLsbD_append, BitVec.getLsbD_or, BitVec.getLsbD_and,
      BitVec.getLsbD_shiftLeft]
    interval_cases i <;> simp
  case false =>
    simp only [unpack12, pack12First, pack12Second, if_false, Bool.false_eq_true,
      BitVec.getLsbD_setWidth, BitVec.getLsbD_ushiftRight, BitVec.getLsbD_append,
      BitVec.getLsbD_or, BitVec.getLsbD_and]
    interval_cases i <;> simp

/-- The odd cluster behind an even one does not see the half of its first byte that changes. -/
theorem unpack12_odd_pack12Second :
    unpack12 true (q ++ pack12Second false p val) = unpack12 true (q ++ p) := by
  apply BitVec.eq_of_getLsbD_eq
  intro i hi
  simp only [unpack12, pack12Second, if_true, if_false, Bool.false_eq_true,
    BitVec.getLsbD_setWidth, BitVec.getLsbD_ushiftRight, BitVec.getLsbD_append,
    BitVec.getLsbD_or, BitVec.getLsbD_and]
  interval_cases i <;> simp

/-- The even cluster before an odd one does not see the half of its second byte that changes. -/
theorem unpack12_even_pack12First :
    unpack12 false (pack12First true p val ++ q) = unpack12 false (p ++ q) := by
  apply BitVec.eq_of_getLsbD_eq
  intro i hi
  simp only [unpack12, pack12First, if_true, if_false, Bool.false_eq_true,
    BitVec.getLsbD_setWidth, BitVec.getLsbD_append, BitVec.getLsbD_or, BitVec.getLsbD_and,
    BitVec.getLsbD_shiftLeft]
  interval_cases i <;> simp

theorem word_bytes (w : BitVec 16) : (w >>> 8).setWidth 8 ++ w.setWidth 8 = w := by
  apply BitVec.eq_of_getLsbD_eq
  intro i hi
  simp only [BitVec.getLsbD_setWidth, BitVec.getLsbD_ushiftRight, BitVec.getLsbD_append]
  interval_cases i <;> simp

theorem dword_bytes : ((val >>> 24).setWidth 8 ++ (val >>> 16).setWidth 8 ++
    (val >>> 8).setWidth 8 ++ val.setWidth 8 : BitVec 32) = val := by
  apply BitVec.eq_of_getLsbD_eq
  intro i hi
  simp only [BitVec.getLsbD_setWidth, BitVec.getLsbD_ushiftRight, BitVec.getLsbD_append]
  interval_cases i <;> simp

theorem setWidth_word : (val.setWidth 16).setWidth 32 = val &&& 0xFFFF := by
  apply BitVec.eq_of_getLsbD_eq
  intro i hi
  simp only [BitVec.getLsbD_setWidth, BitVec.getLsbD_and]
  interval_cases i <;> simp

/-- The upper four bits of a FAT32 entry are kept, and not read. -/
theorem keep_upper (old : Dword) :
    ((val &&& 0x0FFFFFFF) ||| (old &&& 0xF0000000)) &&& 0x0FFFFFFF = val &&& 0x0FFFFFFF := by
  apply BitVec.eq_of_getLsbD_eq
  intro i hi
  simp only [BitVec.getLsbD_and, BitVec.getLsbD_or]
  interval_cases i <;> simp

end Packing

/-- The bytes of a FAT. -/
abbrev Table := Nat → BitVec 8

namespace Table

variable (t : Table) (i : Nat)

/-- Two bytes of the table, as `ld_word` reads them. -/
def word : BitVec 16 := t (i + 1) ++ t i

/-- Four bytes of the table, as `ld_dword` reads them. -/
def dword : Dword := t (i + 3) ++ t (i + 2) ++ t (i + 1) ++ t i

/-- The table with the two bytes of `st_word`. -/
def setWord (val : BitVec 16) : Table :=
  Function.update (Function.update t i (val.setWidth 8)) (i + 1) ((val >>> 8).setWidth 8)

/-- The table with the four bytes of `st_dword`. -/
def setDword (val : Dword) : Table :=
  Function.update (Function.update (Function.update (Function.update t
    i (val.setWidth 8)) (i + 1) ((val >>> 8).setWidth 8)) (i + 2) ((val >>> 16).setWidth 8))
    (i + 3) ((val >>> 24).setWidth 8)

variable {t i}

theorem setWord_of_ne {val : BitVec 16} {j : Nat} (h : j ≠ i) (h' : j ≠ i + 1) :
    t.setWord i val j = t j := by
  rw [setWord, Function.update_of_ne h', Function.update_of_ne h]

theorem word_setWord (val : BitVec 16) : (t.setWord i val).word i = val := by
  rw [word, setWord, Function.update_self, Function.update_of_ne (Nat.lt_succ_self i).ne,
    Function.update_self, word_bytes]

theorem setDword_of_ne {val : Dword} {j : Nat} (h : j < i ∨ i + 3 < j) :
    t.setDword i val j = t j := by
  rw [setDword, Function.update_of_ne (by omega), Function.update_of_ne (by omega),
    Function.update_of_ne (by omega), Function.update_of_ne (by omega)]

theorem dword_setDword (val : Dword) : (t.setDword i val).dword i = val := by
  simp only [dword, setDword, Function.update_self, Function.update_of_ne, ne_eq,
    Nat.add_left_cancel_iff, Nat.left_eq_add, Nat.reduceEqDiff, not_false_eq_true, dword_bytes]

theorem dword_setDword_of_ne {val : Dword} {k : Nat} (h : k + 3 < i ∨ i + 3 < k) :
    (t.setDword i val).dword k = t.dword k := by
  rw [dword, dword, setDword_of_ne (by omega), setDword_of_ne (by omega),
    setDword_of_ne (by omega), setDword_of_ne (by omega)]

end Table

/-! ## One number for each cluster -/

namespace FsType

variable {f : FsType} {t : Table} {c c' : Nat} {val : Dword}

/-- The entry of a cluster. -/
def entry : FsType → Table → Nat → Dword
  | none, _, _ => 1
  | fat12, t, c => unpack12 (c % 2 = 1) (t.word (c + c / 2))
  | fat16, t, c => (t.word (c * 2)).setWidth 32
  | fat32, t, c => t.dword (c * 4) &&& 0x0FFFFFFF

/-- The table with a new entry. -/
def put : FsType → Table → Nat → Dword → Table
  | none, t, _, _ => t
  | fat12, t, c, val =>
      let bc := c + c / 2
      Function.update (Function.update t bc (pack12First (c % 2 = 1) (t bc) val)) (bc + 1)
        (pack12Second (c % 2 = 1) (t (bc + 1)) val)
  | fat16, t, c, val => t.setWord (c * 2) (val.setWidth 16)
  | fat32, t, c, val =>
      t.setDword (c * 4) ((val &&& 0x0FFFFFFF) ||| (t.dword (c * 4) &&& 0xF0000000))

/-- The bits of an entry. -/
def mask : FsType → Dword
  | none => 0
  | fat12 => 0xFFF
  | fat16 => 0xFFFF
  | fat32 => 0x0FFFFFFF

theorem entry_put_self (hf : f ≠ none) : f.entry (f.put t c val) c = val &&& f.mask := by
  cases f with
  | none => exact absurd rfl hf
  | fat12 =>
      simp only [entry, put, Table.word, Function.update_self,
        Function.update_of_ne (Nat.lt_succ_self (c + c / 2)).ne]
      exact unpack12_pack12 _ _ val _
  | fat16 => rw [entry, put, Table.word_setWord, setWidth_word, mask]
  | fat32 => rw [entry, put, Table.dword_setDword, keep_upper, mask]

/-- The bytes of other FAT12 entries, but for the one that an even and an odd cluster share. -/
theorem put12_of_ne {j : Nat} (h : j ≠ c + c / 2) (h' : j ≠ c + c / 2 + 1) :
    fat12.put t c val j = t j := by
  rw [put, Function.update_of_ne h', Function.update_of_ne h]

theorem entry_put_of_ne (h : c' ≠ c) : f.entry (f.put t c val) c' = f.entry t c' := by
  cases f with
  | none => rfl
  | fat16 =>
      simp only [entry, put, Table.word]
      rw [Table.setWord_of_ne (by omega) (by omega), Table.setWord_of_ne (by omega) (by omega)]
  | fat32 =>
      rw [entry, put, Table.dword_setDword_of_ne (by omega), entry]
  | fat12 =>
      rw [entry, entry, Table.word, Table.word]
      by_cases hnext : c % 2 = 0 ∧ c' = c + 1
      · -- The odd cluster behind an even one starts in its second byte.
        obtain ⟨heven, rfl⟩ := hnext
        have hodd : (c + 1) % 2 = 1 := by omega
        have hbyte : c + 1 + (c + 1) / 2 = c + c / 2 + 1 := by omega
        have hshared : fat12.put t c val (c + c / 2 + 1) =
            pack12Second false (t (c + c / 2 + 1)) val := by
          rw [put, Function.update_self, heven]
          rfl
        rw [hbyte, hshared, put12_of_ne (by omega) (by omega), decide_eq_true hodd,
          unpack12_odd_pack12Second]
      · by_cases hprevious : c % 2 = 1 ∧ c = c' + 1
        · obtain ⟨hodd, rfl⟩ := hprevious
          have heven : c' % 2 = 0 := by omega
          have hbyte : c' + 1 + (c' + 1) / 2 = c' + c' / 2 + 1 := by omega
          have hshared : fat12.put t (c' + 1) val (c' + c' / 2 + 1) =
              pack12First true (t (c' + c' / 2 + 1)) val := by
            rw [put, hbyte, Function.update_of_ne (by omega), Function.update_self,
              decide_eq_true hodd]
          rw [hshared, put12_of_ne (by omega) (by omega), heven]
          exact unpack12_even_pack12First _ _ val
        · rw [put12_of_ne (by omega) (by omega), put12_of_ne (by omega) (by omega)]

/-- Writing an entry changes this entry and no other. -/
theorem entry_put (hf : f ≠ none) :
    f.entry (f.put t c val) = Function.update (f.entry t) c (val &&& f.mask) := by
  funext c'
  by_cases h : c' = c
  · rw [h, entry_put_self hf, Function.update_self]
  · rw [entry_put_of_ne h, Function.update_of_ne h]

end FsType

end Senob.Fat
