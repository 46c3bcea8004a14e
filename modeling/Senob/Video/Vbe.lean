import Mathlib.Data.List.Range
import Senob.Video.Font

/-!
# Drawing

The functions of `vbe.c`. A call is recorded by the pixels that it writes, each with the address
that `draw_pixel` computes for it.
-/

namespace Senob.Video

/-- `struct vbe_info`, as far as the drawing uses it. -/
structure VbeInfo where
  framebufferPitch : Word
  framebufferWidth : Word
  framebufferHeight : Word
  backgroundColor : Word
deriving DecidableEq

structure PixelWrite where
  x : Word
  y : Word
  address : Word
  color : Word
deriving DecidableEq

/-- The address of the mapped framebuffer. -/
def framebuffer : Word := 0xE0000000

/-- `&framebuffer[y * (framebuffer_pitch / 4) + x]`. -/
def pixelAddress (info : VbeInfo) (x y : Word) : Word :=
  framebuffer + 4 * (y * (info.framebufferPitch / 4) + x)

def drawPixel (x y color : Word) (info : VbeInfo) : List PixelWrite :=
  if x ≥ info.framebufferWidth ∨ y ≥ info.framebufferHeight then []
  else [⟨x, y, pixelAddress info x y, color⟩]

/-- `for (uint32_t i = first; i < bound; i++) body`, cut off after a number of rounds. The result
is `none` when the loop has not ended. -/
def forLoop {α : Type} (bound : Word) (body : Word → Option (List α)) :
    Nat → Word → Option (List α)
  | 0, _ => none
  | rounds + 1, i =>
      if i < bound then
        (body i).bind fun first => (forLoop bound body rounds (i + 1)).map (first ++ ·)
      else some []

/-- No loop of words has more rounds. -/
def maxRounds : Nat := 2 ^ 32

def drawRectangle (x y width height color : Word) (info : VbeInfo) : Option (List PixelWrite) :=
  forLoop height (fun i =>
    forLoop width (fun j => some (drawPixel (x + j) (y + i) color info)) maxRounds 0) maxRounds 0

def drawChar (x y : Word) (c : Byte) (color : Word) (info : VbeInfo) : List PixelWrite :=
  let glyph := fontGetGlyph c
  (List.range fontHeight).flatMap fun i =>
    (List.range fontWidth).flatMap fun j =>
      if glyph.getD i 0 &&& (1 <<< j) ≠ 0 then
        drawPixel (x + BitVec.ofNat 32 j) (y + BitVec.ofNat 32 i) color info
      else []

/-- `draw_string`, with the bytes before the end of the string. -/
def drawString (x y : Word) (color : Word) (info : VbeInfo) : List Byte → List PixelWrite
  | [] => []
  | c :: str =>
      drawChar x y c color info ++ drawString (x + BitVec.ofNat 32 fontWidth) y color info str

def clearScreen (color : Word) (info : VbeInfo) : Option (List PixelWrite) :=
  drawRectangle 0 0 info.framebufferWidth info.framebufferHeight color info

/-! ## Pixels -/

variable {x y width height color : Word} {info : VbeInfo} {p : PixelWrite}

theorem mem_drawPixel :
    p ∈ drawPixel x y color info ↔
      x < info.framebufferWidth ∧ y < info.framebufferHeight ∧
        p = ⟨x, y, pixelAddress info x y, color⟩ := by
  unfold drawPixel
  split
  next h =>
    refine iff_of_false List.not_mem_nil fun hp => ?_
    exact h.elim (BitVec.not_le.mpr hp.1) (BitVec.not_le.mpr hp.2.1)
  next h =>
    obtain ⟨hx, hy⟩ := not_or.mp h
    rw [List.mem_singleton]
    exact ⟨fun hp => ⟨BitVec.not_le.mp hx, BitVec.not_le.mp hy, hp⟩, fun hp => hp.2.2⟩

/-! ## Loops -/

theorem toNat_succ_of_lt {i bound : Word} (h : i < bound) : (i + 1).toNat = i.toNat + 1 := by
  have hi : i.toNat < bound.toNat := h
  have hbound := bound.isLt
  rw [BitVec.toNat_add]
  exact Nat.mod_eq_of_lt (Nat.lt_of_le_of_lt hi hbound)

/-- A loop whose rounds end does so itself, one round for each word below its bound. -/
theorem forLoop_eq {α : Type} {bound : Word} {body : Word → Option (List α)} {f : Word → List α}
    (hbody : ∀ i, body i = some (f i)) {rounds : Nat} {i : Word}
    (hrounds : bound.toNat - i.toNat < rounds) :
    forLoop bound body rounds i =
      some ((List.range' i.toNat (bound.toNat - i.toNat)).flatMap fun n =>
        f (BitVec.ofNat 32 n)) := by
  induction rounds generalizing i with
  | zero => exact absurd hrounds (Nat.not_lt_zero _)
  | succ rounds ih =>
      rw [forLoop]
      split
      next hlt =>
        have hi : i.toNat < bound.toNat := hlt
        have hnext := toNat_succ_of_lt hlt
        have hleft : bound.toNat - i.toNat = bound.toNat - (i + 1).toNat + 1 := by omega
        rw [hbody, ih (by omega), hleft, List.range'_succ, List.flatMap_cons, hnext,
          BitVec.ofNat_toNat, BitVec.setWidth_eq]
        rfl
      next hge =>
        have hle : bound.toNat ≤ i.toNat := Nat.le_of_not_lt hge
        rw [Nat.sub_eq_zero_of_le hle]
        rfl

theorem forLoop_zero {α : Type} (bound : Word) {body : Word → Option (List α)}
    {f : Word → List α} (hbody : ∀ i, body i = some (f i)) :
    forLoop bound body maxRounds 0 =
      some ((List.range bound.toNat).flatMap fun n => f (BitVec.ofNat 32 n)) := by
  have hrounds : bound.toNat - (0 : Word).toNat < maxRounds :=
    Nat.lt_of_le_of_lt (Nat.sub_le _ _) bound.isLt
  rw [forLoop_eq hbody hrounds, List.range_eq_range']
  rfl

/-- The loops of `draw_rectangle` end, with all pixels of the rectangle. -/
theorem exists_drawRectangle (x y width height color : Word) (info : VbeInfo) :
    ∃ writes, drawRectangle x y width height color info = some writes ∧
      ∀ p, p ∈ writes ↔ ∃ i < height.toNat, ∃ j < width.toNat,
        p ∈ drawPixel (x + BitVec.ofNat 32 j) (y + BitVec.ofNat 32 i) color info := by
  have hrow (i : Word) := forLoop_zero width (f := fun j => drawPixel (x + j) (y + i) color info)
    fun _ => rfl
  refine ⟨_, forLoop_zero height hrow, fun p => ?_⟩
  simp only [List.mem_flatMap, List.mem_range]

/-! ## What is drawn is on the screen -/

/-- The pixel is on the screen, at its address. -/
structure Visible (info : VbeInfo) (p : PixelWrite) : Prop where
  x_lt : p.x < info.framebufferWidth
  y_lt : p.y < info.framebufferHeight
  address_eq : p.address = pixelAddress info p.x p.y

theorem visible_of_mem_drawPixel (h : p ∈ drawPixel x y color info) : Visible info p := by
  obtain ⟨hx, hy, rfl⟩ := mem_drawPixel.mp h
  exact ⟨hx, hy, rfl⟩

theorem drawRectangle_visible (x y width height color : Word) (info : VbeInfo) :
    ∃ writes, drawRectangle x y width height color info = some writes ∧
      ∀ p ∈ writes, Visible info p := by
  obtain ⟨writes, hwrites, hmem⟩ := exists_drawRectangle x y width height color info
  refine ⟨writes, hwrites, fun p hp => ?_⟩
  obtain ⟨i, -, j, -, hpixel⟩ := (hmem p).mp hp
  exact visible_of_mem_drawPixel hpixel

theorem drawChar_visible {c : Byte} (h : p ∈ drawChar x y c color info) : Visible info p := by
  unfold drawChar at h
  obtain ⟨i, -, hrow⟩ := List.mem_flatMap.mp h
  obtain ⟨j, -, hpixel⟩ := List.mem_flatMap.mp hrow
  split at hpixel
  next _ => exact visible_of_mem_drawPixel hpixel
  next _ => exact absurd hpixel List.not_mem_nil

theorem drawString_visible {str : List Byte} (h : p ∈ drawString x y color info str) :
    Visible info p := by
  induction str generalizing x with
  | nil => exact absurd h List.not_mem_nil
  | cons c str ih =>
      rcases List.mem_append.mp h with h | h
      · exact drawChar_visible h
      · exact ih h

end Senob.Video
