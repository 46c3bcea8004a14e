import Mathlib.Algebra.Ring.Nat
import Mathlib.Data.List.Basic

/-!
# The font

The glyphs of `font.c`, eight rows of eight pixels, from the blank on.
-/

namespace Senob.Video

abbrev Byte := BitVec 8
abbrev Word := BitVec 32

def fontWidth : Nat := 8

def fontHeight : Nat := 8

def font : List (List Byte) :=
  [[0x00, 0x00, 0x00, 0x00, 0x00, 0x00, 0x00, 0x00],
    [0x18, 0x3C, 0x3C, 0x18, 0x18, 0x00, 0x18, 0x00],
    [0x36, 0x36, 0x24, 0x00, 0x00, 0x00, 0x00, 0x00],
    [0x36, 0x36, 0x7F, 0x36, 0x7F, 0x36, 0x36, 0x00],
    [0x18, 0x3E, 0x03, 0x1E, 0x30, 0x1F, 0x18, 0x00],
    [0x00, 0x63, 0x33, 0x18, 0x0C, 0x66, 0x63, 0x00],
    [0x1C, 0x36, 0x1C, 0x6E, 0x3B, 0x33, 0x6E, 0x00],
    [0x06, 0x06, 0x03, 0x00, 0x00, 0x00, 0x00, 0x00],
    [0x18, 0x0C, 0x06, 0x06, 0x06, 0x0C, 0x18, 0x00],
    [0x06, 0x0C, 0x18, 0x18, 0x18, 0x0C, 0x06, 0x00],
    [0x00, 0x66, 0x3C, 0xFF, 0x3C, 0x66, 0x00, 0x00],
    [0x00, 0x18, 0x18, 0x7E, 0x18, 0x18, 0x00, 0x00],
    [0x00, 0x00, 0x00, 0x00, 0x00, 0x18, 0x18, 0x0C],
    [0x00, 0x00, 0x00, 0x7E, 0x00, 0x00, 0x00, 0x00],
    [0x00, 0x00, 0x00, 0x00, 0x00, 0x18, 0x18, 0x00],
    [0x60, 0x30, 0x18, 0x0C, 0x06, 0x03, 0x01, 0x00],
    [0x3E, 0x63, 0x73, 0x7B, 0x6F, 0x67, 0x3E, 0x00],
    [0x0C, 0x0E, 0x0F, 0x0C, 0x0C, 0x0C, 0x3F, 0x00],
    [0x3E, 0x63, 0x30, 0x1C, 0x06, 0x63, 0x7F, 0x00],
    [0x3E, 0x63, 0x30, 0x1C, 0x30, 0x63, 0x3E, 0x00],
    [0x1C, 0x1E, 0x1B, 0x19, 0x7F, 0x18, 0x1C, 0x00],
    [0x7F, 0x03, 0x3F, 0x60, 0x30, 0x63, 0x3E, 0x00],
    [0x3E, 0x63, 0x03, 0x3F, 0x63, 0x63, 0x3E, 0x00],
    [0x7F, 0x63, 0x30, 0x18, 0x0C, 0x0C, 0x0C, 0x00],
    [0x3E, 0x63, 0x63, 0x3E, 0x63, 0x63, 0x3E, 0x00],
    [0x3E, 0x63, 0x63, 0x7E, 0x60, 0x63, 0x3E, 0x00],
    [0x00, 0x18, 0x18, 0x00, 0x00, 0x18, 0x18, 0x00],
    [0x00, 0x18, 0x18, 0x00, 0x00, 0x18, 0x18, 0x0C],
    [0x30, 0x18, 0x0C, 0x06, 0x0C, 0x18, 0x30, 0x00],
    [0x00, 0x00, 0x7E, 0x00, 0x00, 0x7E, 0x00, 0x00],
    [0x06, 0x0C, 0x18, 0x30, 0x18, 0x0C, 0x06, 0x00],
    [0x3E, 0x63, 0x30, 0x18, 0x18, 0x00, 0x18, 0x00],
    [0x3E, 0x63, 0x7B, 0x7B, 0x7B, 0x03, 0x3E, 0x00],
    [0x18, 0x3C, 0x66, 0x66, 0x7E, 0x66, 0x66, 0x00],
    [0x3F, 0x66, 0x66, 0x3E, 0x66, 0x66, 0x3F, 0x00],
    [0x3C, 0x66, 0x03, 0x03, 0x03, 0x66, 0x3C, 0x00],
    [0x1F, 0x36, 0x66, 0x66, 0x66, 0x36, 0x1F, 0x00],
    [0x7F, 0x03, 0x03, 0x1F, 0x03, 0x03, 0x7F, 0x00],
    [0x7F, 0x03, 0x03, 0x1F, 0x03, 0x03, 0x03, 0x00],
    [0x3E, 0x63, 0x03, 0x7B, 0x63, 0x63, 0x3E, 0x00],
    [0x66, 0x66, 0x66, 0x7E, 0x66, 0x66, 0x66, 0x00],
    [0x3C, 0x18, 0x18, 0x18, 0x18, 0x18, 0x3C, 0x00],
    [0x78, 0x30, 0x30, 0x30, 0x30, 0x33, 0x1E, 0x00],
    [0x67, 0x36, 0x1E, 0x0E, 0x1E, 0x36, 0x67, 0x00],
    [0x03, 0x03, 0x03, 0x03, 0x03, 0x03, 0x7F, 0x00],
    [0x63, 0x77, 0x7F, 0x7F, 0x6B, 0x63, 0x63, 0x00],
    [0x63, 0x67, 0x6F, 0x7F, 0x7B, 0x73, 0x63, 0x00],
    [0x3C, 0x66, 0x66, 0x66, 0x66, 0x66, 0x3C, 0x00],
    [0x3F, 0x66, 0x66, 0x3F, 0x03, 0x03, 0x03, 0x00],
    [0x3C, 0x66, 0x66, 0x66, 0x76, 0x3C, 0x70, 0x00],
    [0x3F, 0x66, 0x66, 0x3F, 0x1E, 0x36, 0x63, 0x00],
    [0x3E, 0x63, 0x07, 0x1C, 0x70, 0x63, 0x3E, 0x00],
    [0x7E, 0x18, 0x18, 0x18, 0x18, 0x18, 0x18, 0x00],
    [0x66, 0x66, 0x66, 0x66, 0x66, 0x66, 0x3E, 0x00],
    [0x66, 0x66, 0x66, 0x66, 0x66, 0x3C, 0x18, 0x00],
    [0x63, 0x63, 0x63, 0x6B, 0x7F, 0x77, 0x63, 0x00],
    [0x63, 0x63, 0x36, 0x1C, 0x1C, 0x36, 0x63, 0x00],
    [0x66, 0x66, 0x66, 0x3C, 0x18, 0x18, 0x18, 0x00],
    [0x7F, 0x63, 0x31, 0x18, 0x0C, 0x46, 0x7F, 0x00],
    [0x1E, 0x06, 0x06, 0x06, 0x06, 0x06, 0x1E, 0x00],
    [0x01, 0x03, 0x06, 0x0C, 0x18, 0x30, 0x60, 0x00],
    [0x1E, 0x18, 0x18, 0x18, 0x18, 0x18, 0x1E, 0x00],
    [0x08, 0x1C, 0x36, 0x63, 0x00, 0x00, 0x00, 0x00],
    [0x00, 0x00, 0x00, 0x00, 0x00, 0x00, 0x00, 0xFF],
    [0x0C, 0x0C, 0x18, 0x00, 0x00, 0x00, 0x00, 0x00],
    [0x00, 0x00, 0x3C, 0x60, 0x7C, 0x66, 0x7C, 0x00],
    [0x03, 0x03, 0x3B, 0x67, 0x63, 0x63, 0x3F, 0x00],
    [0x00, 0x00, 0x3E, 0x63, 0x03, 0x63, 0x3E, 0x00],
    [0x60, 0x60, 0x7E, 0x63, 0x63, 0x63, 0x7E, 0x00],
    [0x00, 0x00, 0x3E, 0x63, 0x7F, 0x03, 0x3E, 0x00],
    [0x38, 0x6C, 0x0C, 0x1F, 0x0C, 0x0C, 0x0C, 0x00],
    [0x00, 0x00, 0x7E, 0x63, 0x63, 0x7E, 0x60, 0x3E],
    [0x03, 0x03, 0x3B, 0x67, 0x63, 0x63, 0x63, 0x00],
    [0x18, 0x00, 0x1C, 0x18, 0x18, 0x18, 0x3C, 0x00],
    [0x30, 0x00, 0x3C, 0x30, 0x30, 0x30, 0x33, 0x1E],
    [0x03, 0x03, 0x63, 0x33, 0x1B, 0x0F, 0x1B, 0x00],
    [0x1C, 0x18, 0x18, 0x18, 0x18, 0x18, 0x3C, 0x00],
    [0x00, 0x00, 0x7F, 0x7F, 0x6B, 0x6B, 0x63, 0x00],
    [0x00, 0x00, 0x3B, 0x67, 0x63, 0x63, 0x63, 0x00],
    [0x00, 0x00, 0x3E, 0x63, 0x63, 0x63, 0x3E, 0x00],
    [0x00, 0x00, 0x3F, 0x63, 0x63, 0x3F, 0x03, 0x03],
    [0x00, 0x00, 0x7E, 0x63, 0x63, 0x7E, 0x60, 0x60],
    [0x00, 0x00, 0x3B, 0x67, 0x03, 0x03, 0x03, 0x00],
    [0x00, 0x00, 0x7E, 0x03, 0x3E, 0x60, 0x3F, 0x00],
    [0x00, 0x0C, 0x0C, 0x3F, 0x0C, 0x6C, 0x38, 0x00],
    [0x00, 0x00, 0x63, 0x63, 0x63, 0x63, 0x7E, 0x00],
    [0x00, 0x00, 0x63, 0x63, 0x63, 0x36, 0x1C, 0x00],
    [0x00, 0x00, 0x63, 0x63, 0x6B, 0x7F, 0x36, 0x00],
    [0x00, 0x00, 0x63, 0x36, 0x1C, 0x36, 0x63, 0x00],
    [0x00, 0x00, 0x63, 0x63, 0x63, 0x7E, 0x60, 0x3E],
    [0x00, 0x00, 0x3F, 0x31, 0x18, 0x4C, 0x3F, 0x00],
    [0x38, 0x0C, 0x0C, 0x07, 0x0C, 0x0C, 0x38, 0x00],
    [0x18, 0x18, 0x18, 0x00, 0x18, 0x18, 0x18, 0x00],
    [0x07, 0x0C, 0x0C, 0x38, 0x0C, 0x0C, 0x07, 0x00],
    [0x6E, 0x3B, 0x00, 0x00, 0x00, 0x00, 0x00, 0x00],
    [0x00, 0x00, 0x00, 0x00, 0x00, 0x00, 0x00, 0x00]]

/-- `font_get_glyph`. A character is signed, and has the glyph of the blank when it is out of
range. -/
def fontGetGlyph (c : Byte) : List Byte :=
  if c.toInt < 0x20 ∨ c.toInt > 0x7E then font.getD 0 [] else font.getD (c.toNat - 0x20) []

/-- Every character has a whole glyph. -/
theorem fontGetGlyph_length (c : Byte) : (fontGetGlyph c).length = fontHeight := by
  have hrows : ∀ i < 96, (font.getD i []).length = fontHeight := by decide
  unfold fontGetGlyph
  split
  next _ => exact hrows 0 (by decide)
  next h =>
    rw [not_or, BitVec.toInt_eq_toNat_cond] at h
    exact hrows _ (by split at h <;> omega)

end Senob.Video
