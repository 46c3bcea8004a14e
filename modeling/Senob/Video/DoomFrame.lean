import Mathlib.Algebra.Ring.Int.Defs
import Senob.Foundation.Writes
import Senob.Video.Font

/-!
# The frames of the game

`syscall_14_draw_frame_doom`, which scales a picture of palette indices up to the framebuffer. The
source buffer is not a part of the framebuffer.
-/

namespace Senob.Video

open Senob.Foundation

/-- The first palette of `_acPLAYPAL`, which is all that is copied to `doomPalette`. -/
def acPlaypal : List Byte :=
  [0x00, 0x00, 0x00, 0x1F, 0x17, 0x0B, 0x17, 0x0F, 0x07, 0x4B, 0x4B, 0x4B, 0xFF, 0xFF, 0xFF, 0x1B,
    0x1B, 0x1B, 0x13, 0x13, 0x13, 0x0B, 0x0B, 0x0B, 0x07, 0x07, 0x07, 0x2F, 0x37, 0x1F, 0x23, 0x2B,
    0x0F, 0x17, 0x1F, 0x07, 0x0F, 0x17, 0x00, 0x4F, 0x3B, 0x2B, 0x47, 0x33, 0x23, 0x3F, 0x2B, 0x1B,
    0xFF, 0xB7, 0xB7, 0xF7, 0xAB, 0xAB, 0xF3, 0xA3, 0xA3, 0xEB, 0x97, 0x97, 0xE7, 0x8F, 0x8F, 0xDF,
    0x87, 0x87, 0xDB, 0x7B, 0x7B, 0xD3, 0x73, 0x73, 0xCB, 0x6B, 0x6B, 0xC7, 0x63, 0x63, 0xBF, 0x5B,
    0x5B, 0xBB, 0x57, 0x57, 0xB3, 0x4F, 0x4F, 0xAF, 0x47, 0x47, 0xA7, 0x3F, 0x3F, 0xA3, 0x3B, 0x3B,
    0x9B, 0x33, 0x33, 0x97, 0x2F, 0x2F, 0x8F, 0x2B, 0x2B, 0x8B, 0x23, 0x23, 0x83, 0x1F, 0x1F, 0x7F,
    0x1B, 0x1B, 0x77, 0x17, 0x17, 0x73, 0x13, 0x13, 0x6B, 0x0F, 0x0F, 0x67, 0x0B, 0x0B, 0x5F, 0x07,
    0x07, 0x5B, 0x07, 0x07, 0x53, 0x07, 0x07, 0x4F, 0x00, 0x00, 0x47, 0x00, 0x00, 0x43, 0x00, 0x00,
    0xFF, 0xEB, 0xDF, 0xFF, 0xE3, 0xD3, 0xFF, 0xDB, 0xC7, 0xFF, 0xD3, 0xBB, 0xFF, 0xCF, 0xB3, 0xFF,
    0xC7, 0xA7, 0xFF, 0xBF, 0x9B, 0xFF, 0xBB, 0x93, 0xFF, 0xB3, 0x83, 0xF7, 0xAB, 0x7B, 0xEF, 0xA3,
    0x73, 0xE7, 0x9B, 0x6B, 0xDF, 0x93, 0x63, 0xD7, 0x8B, 0x5B, 0xCF, 0x83, 0x53, 0xCB, 0x7F, 0x4F,
    0xBF, 0x7B, 0x4B, 0xB3, 0x73, 0x47, 0xAB, 0x6F, 0x43, 0xA3, 0x6B, 0x3F, 0x9B, 0x63, 0x3B, 0x8F,
    0x5F, 0x37, 0x87, 0x57, 0x33, 0x7F, 0x53, 0x2F, 0x77, 0x4F, 0x2B, 0x6B, 0x47, 0x27, 0x5F, 0x43,
    0x23, 0x53, 0x3F, 0x1F, 0x4B, 0x37, 0x1B, 0x3F, 0x2F, 0x17, 0x33, 0x2B, 0x13, 0x2B, 0x23, 0x0F,
    0xEF, 0xEF, 0xEF, 0xE7, 0xE7, 0xE7, 0xDF, 0xDF, 0xDF, 0xDB, 0xDB, 0xDB, 0xD3, 0xD3, 0xD3, 0xCB,
    0xCB, 0xCB, 0xC7, 0xC7, 0xC7, 0xBF, 0xBF, 0xBF, 0xB7, 0xB7, 0xB7, 0xB3, 0xB3, 0xB3, 0xAB, 0xAB,
    0xAB, 0xA7, 0xA7, 0xA7, 0x9F, 0x9F, 0x9F, 0x97, 0x97, 0x97, 0x93, 0x93, 0x93, 0x8B, 0x8B, 0x8B,
    0x83, 0x83, 0x83, 0x7F, 0x7F, 0x7F, 0x77, 0x77, 0x77, 0x6F, 0x6F, 0x6F, 0x6B, 0x6B, 0x6B, 0x63,
    0x63, 0x63, 0x5B, 0x5B, 0x5B, 0x57, 0x57, 0x57, 0x4F, 0x4F, 0x4F, 0x47, 0x47, 0x47, 0x43, 0x43,
    0x43, 0x3B, 0x3B, 0x3B, 0x37, 0x37, 0x37, 0x2F, 0x2F, 0x2F, 0x27, 0x27, 0x27, 0x23, 0x23, 0x23,
    0x77, 0xFF, 0x6F, 0x6F, 0xEF, 0x67, 0x67, 0xDF, 0x5F, 0x5F, 0xCF, 0x57, 0x5B, 0xBF, 0x4F, 0x53,
    0xAF, 0x47, 0x4B, 0x9F, 0x3F, 0x43, 0x93, 0x37, 0x3F, 0x83, 0x2F, 0x37, 0x73, 0x2B, 0x2F, 0x63,
    0x23, 0x27, 0x53, 0x1B, 0x1F, 0x43, 0x17, 0x17, 0x33, 0x0F, 0x13, 0x23, 0x0B, 0x0B, 0x17, 0x07,
    0xBF, 0xA7, 0x8F, 0xB7, 0x9F, 0x87, 0xAF, 0x97, 0x7F, 0xA7, 0x8F, 0x77, 0x9F, 0x87, 0x6F, 0x9B,
    0x7F, 0x6B, 0x93, 0x7B, 0x63, 0x8B, 0x73, 0x5B, 0x83, 0x6B, 0x57, 0x7B, 0x63, 0x4F, 0x77, 0x5F,
    0x4B, 0x6F, 0x57, 0x43, 0x67, 0x53, 0x3F, 0x5F, 0x4B, 0x37, 0x57, 0x43, 0x33, 0x53, 0x3F, 0x2F,
    0x9F, 0x83, 0x63, 0x8F, 0x77, 0x53, 0x83, 0x6B, 0x4B, 0x77, 0x5F, 0x3F, 0x67, 0x53, 0x33, 0x5B,
    0x47, 0x2B, 0x4F, 0x3B, 0x23, 0x43, 0x33, 0x1B, 0x7B, 0x7F, 0x63, 0x6F, 0x73, 0x57, 0x67, 0x6B,
    0x4F, 0x5B, 0x63, 0x47, 0x53, 0x57, 0x3B, 0x47, 0x4F, 0x33, 0x3F, 0x47, 0x2B, 0x37, 0x3F, 0x27,
    0xFF, 0xFF, 0x73, 0xEB, 0xDB, 0x57, 0xD7, 0xBB, 0x43, 0xC3, 0x9B, 0x2F, 0xAF, 0x7B, 0x1F, 0x9B,
    0x5B, 0x13, 0x87, 0x43, 0x07, 0x73, 0x2B, 0x00, 0xFF, 0xFF, 0xFF, 0xFF, 0xDB, 0xDB, 0xFF, 0xBB,
    0xBB, 0xFF, 0x9B, 0x9B, 0xFF, 0x7B, 0x7B, 0xFF, 0x5F, 0x5F, 0xFF, 0x3F, 0x3F, 0xFF, 0x1F, 0x1F,
    0xFF, 0x00, 0x00, 0xEF, 0x00, 0x00, 0xE3, 0x00, 0x00, 0xD7, 0x00, 0x00, 0xCB, 0x00, 0x00, 0xBF,
    0x00, 0x00, 0xB3, 0x00, 0x00, 0xA7, 0x00, 0x00, 0x9B, 0x00, 0x00, 0x8B, 0x00, 0x00, 0x7F, 0x00,
    0x00, 0x73, 0x00, 0x00, 0x67, 0x00, 0x00, 0x5B, 0x00, 0x00, 0x4F, 0x00, 0x00, 0x43, 0x00, 0x00,
    0xE7, 0xE7, 0xFF, 0xC7, 0xC7, 0xFF, 0xAB, 0xAB, 0xFF, 0x8F, 0x8F, 0xFF, 0x73, 0x73, 0xFF, 0x53,
    0x53, 0xFF, 0x37, 0x37, 0xFF, 0x1B, 0x1B, 0xFF, 0x00, 0x00, 0xFF, 0x00, 0x00, 0xE3, 0x00, 0x00,
    0xCB, 0x00, 0x00, 0xB3, 0x00, 0x00, 0x9B, 0x00, 0x00, 0x83, 0x00, 0x00, 0x6B, 0x00, 0x00, 0x53,
    0xFF, 0xFF, 0xFF, 0xFF, 0xEB, 0xDB, 0xFF, 0xD7, 0xBB, 0xFF, 0xC7, 0x9B, 0xFF, 0xB3, 0x7B, 0xFF,
    0xA3, 0x5B, 0xFF, 0x8F, 0x3B, 0xFF, 0x7F, 0x1B, 0xF3, 0x73, 0x17, 0xEB, 0x6F, 0x0F, 0xDF, 0x67,
    0x0F, 0xD7, 0x5F, 0x0B, 0xCB, 0x57, 0x07, 0xC3, 0x4F, 0x00, 0xB7, 0x47, 0x00, 0xAF, 0x43, 0x00,
    0xFF, 0xFF, 0xFF, 0xFF, 0xFF, 0xD7, 0xFF, 0xFF, 0xB3, 0xFF, 0xFF, 0x8F, 0xFF, 0xFF, 0x6B, 0xFF,
    0xFF, 0x47, 0xFF, 0xFF, 0x23, 0xFF, 0xFF, 0x00, 0xA7, 0x3F, 0x00, 0x9F, 0x37, 0x00, 0x93, 0x2F,
    0x00, 0x87, 0x23, 0x00, 0x4F, 0x3B, 0x27, 0x43, 0x2F, 0x1B, 0x37, 0x23, 0x13, 0x2F, 0x1B, 0x0B,
    0x00, 0x00, 0x53, 0x00, 0x00, 0x47, 0x00, 0x00, 0x3B, 0x00, 0x00, 0x2F, 0x00, 0x00, 0x23, 0x00,
    0x00, 0x17, 0x00, 0x00, 0x0B, 0x00, 0x00, 0x00, 0xFF, 0x9F, 0x43, 0xFF, 0xE7, 0x4B, 0xFF, 0x7B,
    0xFF, 0xFF, 0x00, 0xFF, 0xCF, 0x00, 0xCF, 0x9F, 0x00, 0x9B, 0x6F, 0x00, 0x6B, 0xA7, 0x6B, 0x6B]

def doomPalette (i : Nat) : Byte := acPlaypal.getD i 0

def doomWidth : Nat := 320

def doomHeight : Nat := 200

def scaleX : Nat := 1024 / 320

def scaleY : Nat := 768 / 200

def scale : Nat := if scaleX < scaleY then scaleX else scaleY

/-- `y * pitch + x`, as an `int`. -/
def doomIndex (pitch : Word) (y x : Nat) : Int :=
  (BitVec.ofNat 32 y * pitch + BitVec.ofNat 32 x).toInt

/-- The places of the palette that are read for a pixel. -/
def paletteIndices (buffer : Int → Byte) (pitch : Word) (y x : Nat) : List Nat :=
  let index := (buffer (doomIndex pitch y x)).toNat
  [index * 3 + 0, index * 3 + 1, index * 3 + 2]

/-- The bytes that are stored for a pixel, with their offsets in the framebuffer. -/
def scaledPixel (buffer : Int → Byte) (pitch : Word) (y x : Nat) : List (Nat × Byte) :=
  let index := (buffer (doomIndex pitch y x)).toNat
  let r := doomPalette (index * 3 + 0)
  let g := doomPalette (index * 3 + 1)
  let b := doomPalette (index * 3 + 2)
  (List.range scale).flatMap fun sy =>
    (List.range scale).flatMap fun sx =>
      let fbX := x * scale + sx
      let fbY := y * scale + sy
      let fbIndex := (fbY * 1024 + fbX) * 4
      [(fbIndex + 0, b), (fbIndex + 1, g), (fbIndex + 2, r), (fbIndex + 3, 255)]

/-- The two outer loops. -/
def forPixels {α : Type} (body : Nat → Nat → List α) : List α :=
  (List.range doomHeight).flatMap fun y => (List.range doomWidth).flatMap fun x => body y x

def syscall14DrawFrameDoom (buffer : Int → Byte) (pitch : Word) (framebuffer : Nat → Byte) :
    Nat → Byte :=
  applyWrites framebuffer (forPixels (scaledPixel buffer pitch))

/-- The colour of a number in the first palette, as blue, green, red and `255`. -/
def framebufferBytes (index : Byte) : List Byte :=
  [doomPalette (index.toNat * 3 + 2), doomPalette (index.toNat * 3 + 1),
    doomPalette (index.toNat * 3), 255]

/-- The picture's pixel that the framebuffer's pixel shows. -/
def shownColor (buffer : Int → Byte) (pitch : Word) (fbX fbY : Nat) : Byte :=
  buffer (((fbY / 3 : Nat) : Int) * pitch.toInt + ((fbX / 3 : Nat) : Int))

/-! ## One pixel -/

variable {buffer : Int → Byte} {pitch : Word}

theorem mem_forPixels {α : Type} {body : Nat → Nat → List α} {a : α} :
    a ∈ forPixels body ↔ ∃ y < 200, ∃ x < 320, a ∈ body y x := by
  unfold forPixels doomHeight doomWidth
  simp only [List.mem_flatMap, List.mem_range]

theorem doomIndex_eq (hpitch : 320 ≤ pitch.toInt) (hlast : 199 * pitch.toInt + 319 < 2 ^ 31)
    {y x : Nat} (hy : y < 200) (hx : x < 320) : doomIndex pitch y x = y * pitch.toInt + x := by
  have hnat : pitch.toInt = pitch.toNat := by
    rw [BitVec.toInt_eq_toNat_cond] at hpitch ⊢
    split at hpitch <;> omega
  have hrows : y * pitch.toNat ≤ 199 * pitch.toNat := Nat.mul_le_mul_right _ (by omega)
  have hindex : (BitVec.ofNat 32 y * pitch + BitVec.ofNat 32 x).toNat = y * pitch.toNat + x := by
    rw [BitVec.toNat_add, BitVec.toNat_mul, BitVec.toNat_ofNat, BitVec.toNat_ofNat,
      Nat.mod_eq_of_lt (by omega : y < 2 ^ 32), Nat.mod_eq_of_lt (by omega : x < 2 ^ 32),
      Nat.mod_add_mod]
    exact Nat.mod_eq_of_lt (by omega)
  unfold doomIndex
  rw [BitVec.toInt_eq_toNat_of_lt (by omega), hindex, hnat]
  push_cast
  rfl

/-- Each of the nine pixels that show one of the picture gets the four bytes of its colour. -/
theorem mem_scaledPixel {y x : Nat} {write : Nat × Byte} :
    write ∈ scaledPixel buffer pitch y x ↔
      ∃ sy < 3, ∃ sx < 3, ∃ channel < 4,
        write = (((y * 3 + sy) * 1024 + (x * 3 + sx)) * 4 + channel,
          (framebufferBytes (buffer (doomIndex pitch y x))).getD channel 0) := by
  have hscale : scale = 3 := rfl
  unfold scaledPixel
  simp only [List.mem_flatMap, List.mem_range, hscale]
  refine exists_congr fun sy => and_congr_right fun _ => exists_congr fun sx =>
    and_congr_right fun _ => ?_
  generalize ((y * 3 + sy) * 1024 + (x * 3 + sx)) * 4 = offset
  constructor
  · intro h
    simp only [List.mem_cons, List.not_mem_nil, or_false] at h
    rcases h with rfl | rfl | rfl | rfl
    · exact ⟨0, by decide, rfl⟩
    · exact ⟨1, by decide, rfl⟩
    · exact ⟨2, by decide, rfl⟩
    · exact ⟨3, by decide, rfl⟩
  · rintro ⟨channel, hchannel, rfl⟩
    match channel, hchannel with
    | 0, _ => exact List.mem_cons_self
    | 1, _ => exact List.mem_cons_of_mem _ List.mem_cons_self
    | 2, _ => exact List.mem_cons_of_mem _ (List.mem_cons_of_mem _ List.mem_cons_self)
    | 3, _ => exact List.mem_cons_of_mem _ (List.mem_cons_of_mem _
        (List.mem_cons_of_mem _ List.mem_cons_self))

/-! ## The whole frame -/

/-- The stores of a frame: every byte of the scaled picture, by its place on the screen. -/
theorem mem_frame (hpitch : 320 ≤ pitch.toInt) (hlast : 199 * pitch.toInt + 319 < 2 ^ 31)
    {write : Nat × Byte} :
    write ∈ forPixels (scaledPixel buffer pitch) ↔
      ∃ fbX < 960, ∃ fbY < 600, ∃ channel < 4,
        write = ((fbY * 1024 + fbX) * 4 + channel,
          (framebufferBytes (shownColor buffer pitch fbX fbY)).getD channel 0) := by
  simp only [mem_forPixels, mem_scaledPixel]
  constructor
  · rintro ⟨y, hy, x, hx, sy, hsy, sx, hsx, channel, hchannel, rfl⟩
    refine ⟨x * 3 + sx, by omega, y * 3 + sy, by omega, channel, hchannel, ?_⟩
    have hcolumn : (x * 3 + sx) / 3 = x := by omega
    have hrow : (y * 3 + sy) / 3 = y := by omega
    rw [shownColor, hcolumn, hrow, doomIndex_eq hpitch hlast hy hx]
  · rintro ⟨fbX, hfbX, fbY, hfbY, channel, hchannel, rfl⟩
    have hcolumn : fbX / 3 * 3 + fbX % 3 = fbX := Nat.div_add_mod' fbX 3
    have hrow : fbY / 3 * 3 + fbY % 3 = fbY := Nat.div_add_mod' fbY 3
    refine ⟨fbY / 3, by omega, fbX / 3, by omega, fbY % 3, by omega, fbX % 3, by omega, channel,
      hchannel, ?_⟩
    rw [hcolumn, hrow, doomIndex_eq hpitch hlast (by omega) (by omega), shownColor]

/-- Two places of the screen with one offset are the same byte. -/
theorem offset_inj {x y c x' y' c' : Nat} (hx : x < 960) (hc : c < 4) (hx' : x' < 960)
    (hc' : c' < 4) (h : (y * 1024 + x) * 4 + c = (y' * 1024 + x') * 4 + c') :
    x = x' ∧ y = y' ∧ c = c' := by
  omega

/-- For every source buffer and pitch, every pixel of the scaled picture has its colour in the
framebuffer, no other byte of it changes, and no index leaves its array. -/
theorem drawFrameDoom_spec (buffer : Int → Byte) (framebuffer : Nat → Byte)
    (hpitch : 320 ≤ pitch.toInt) (hlast : 199 * pitch.toInt + 319 < 2 ^ 31) :
    (∀ fbX < 960, ∀ fbY < 600, ∀ channel < 4,
      syscall14DrawFrameDoom buffer pitch framebuffer ((fbY * 1024 + fbX) * 4 + channel) =
        (framebufferBytes (shownColor buffer pitch fbX fbY)).getD channel 0) ∧
    (∀ offset, (∀ fbX < 960, ∀ fbY < 600, ∀ channel < 4,
        offset ≠ (fbY * 1024 + fbX) * 4 + channel) →
      syscall14DrawFrameDoom buffer pitch framebuffer offset = framebuffer offset) ∧
    (∀ i ∈ forPixels (paletteIndices buffer pitch), i < 768) ∧
    ∀ write ∈ forPixels (scaledPixel buffer pitch), write.1 < 1024 * 768 * 4 := by
  refine ⟨fun fbX hx fbY hy channel hc => ?_, fun offset h => ?_, fun i hi => ?_,
    fun write hwrite => ?_⟩
  · apply applyWrites_of_mem ((mem_frame hpitch hlast).mpr ⟨fbX, hx, fbY, hy, channel, hc, rfl⟩)
    -- Another store to the byte comes from the same place, so it stores the same.
    intro write hwrite hoffset
    obtain ⟨fbX', hx', fbY', hy', channel', hc', rfl⟩ := (mem_frame hpitch hlast).mp hwrite
    obtain ⟨rfl, rfl, rfl⟩ := offset_inj hx' hc' hx hc hoffset
    rfl
  · apply applyWrites_of_forall_ne
    intro write hwrite hoffset
    obtain ⟨fbX, hx, fbY, hy, channel, hc, rfl⟩ := (mem_frame hpitch hlast).mp hwrite
    exact h fbX hx fbY hy channel hc hoffset.symm
  · obtain ⟨y, -, x, -, hi⟩ := mem_forPixels.mp hi
    have hindex := (buffer (doomIndex pitch y x)).isLt
    simp only [paletteIndices, List.mem_cons, List.not_mem_nil, or_false] at hi
    omega
  · obtain ⟨fbX, hx, fbY, hy, channel, hc, rfl⟩ := (mem_frame hpitch hlast).mp hwrite
    dsimp only
    omega

/-- A picture of the colour with number 5. -/
theorem drawFrameDoom_spec_plain :
    syscall14DrawFrameDoom (fun _ => 5) 320 (fun _ => 0) ((599 * 1024 + 959) * 4 + 2) = 0x1B :=
  ((drawFrameDoom_spec (fun _ => 5) (fun _ => 0) (by decide : 320 ≤ (320 : Word).toInt)
    (by decide)).1 959 (by decide) 599 (by decide) 2 (by decide)).trans (by decide)

end Senob.Video
