import Senob.Foundation.Run
import Senob.Video.Vbe

/-!
# The text cursor

`putc_kernel` of `stdiok.c` and `clear_screen_sys_2` of `vbe.c`, which move the cursor and draw
at it.
-/

namespace Senob.Video

open Senob.Foundation

def colorWhite : Word := 0xFFFFFF

def glyphWidth : Word := BitVec.ofNat 32 fontWidth

def glyphHeight : Word := BitVec.ofNat 32 fontHeight

/-- `globalvbeinfo`, the cursor, and all pixels written so far. -/
structure Console where
  globalvbeinfo : Option VbeInfo
  cursorX : Word
  cursorY : Word
  writes : List PixelWrite

namespace Console

def initial (info : VbeInfo) : Console := ⟨some info, 0, 0, []⟩

def draw (s : Console) (writes : List PixelWrite) : Console :=
  { s with writes := s.writes ++ writes }

/-- The end of a line. Behind the last line the cursor goes to the first one. -/
def lineBreak (s : Console) (info : VbeInfo) : Console :=
  let cursorY := s.cursorY + glyphHeight
  { s with cursorX := 0, cursorY := if cursorY ≥ info.framebufferHeight then 0 else cursorY }

def advance (s : Console) (columns : Word) (info : VbeInfo) : Console :=
  let cursorX := s.cursorX + columns
  if cursorX ≥ info.framebufferWidth then s.lineBreak info else { s with cursorX }

/-- One character back, at the start of a line to the end of the line before. -/
def stepBack (s : Console) (info : VbeInfo) : Console :=
  if s.cursorX ≥ glyphWidth then { s with cursorX := s.cursorX - glyphWidth }
  else if s.cursorY ≥ glyphHeight then
    { s with
      cursorX := info.framebufferWidth - glyphWidth
      cursorY := s.cursorY - glyphHeight }
  else s

def putcKernel (s : Console) (c : Byte) : Option Console :=
  match s.globalvbeinfo with
  | none => some s
  | some info =>
      if c = 0x0A then some (s.lineBreak info)
      else if c = 0x0D then some { s with cursorX := 0 }
      else if c = 0x09 then some (s.advance (4 * glyphWidth) info)
      else if c = 0x08 then
        let s := s.stepBack info
        (drawRectangle s.cursorX s.cursorY glyphWidth glyphHeight info.backgroundColor info).map
          s.draw
      else
        let s := s.draw (drawChar s.cursorX s.cursorY c colorWhite info)
        some (s.advance glyphWidth info)

/-- `clear_screen_sys_2`, which is undefined without a framebuffer. -/
def clearScreenSys2 (s : Console) (color : Word) : Option Console :=
  s.globalvbeinfo.bind fun info =>
    let s : Console := { s with cursorX := 0, cursorY := 0 }
    (clearScreen color info).map fun writes =>
      { s.draw writes with globalvbeinfo := some { info with backgroundColor := color } }

end Console

inductive ConsoleOp where
  | putcKernel (c : Byte)
  | clearScreenSys2 (color : Word)

def Console.step (s : Console) : ConsoleOp → Option Console
  | .putcKernel c => s.putcKernel c
  | .clearScreenSys2 color => s.clearScreenSys2 color

/-- The cursor is on the screen, and so is everything written. -/
structure OnScreen (width height : Word) (s : Console) : Prop where
  cursorX_lt : s.cursorX < width
  cursorY_lt : s.cursorY < height
  writes : ∀ p ∈ s.writes, p.x < width ∧ p.y < height

/-! ## One step -/

/-- The screen has room for a character. -/
structure Drawable (width height : Word) : Prop where
  width_ge : 8 ≤ width.toNat
  height_ge : 8 ≤ height.toNat

variable {width height : Word}

theorem Drawable.width_pos (h : Drawable width height) : 0 < width :=
  Nat.lt_of_lt_of_le (Nat.zero_lt_succ 7) h.width_ge

theorem Drawable.height_pos (h : Drawable width height) : 0 < height :=
  Nat.lt_of_lt_of_le (Nat.zero_lt_succ 7) h.height_ge

namespace OnScreen

variable {info : VbeInfo} {s : Console}

theorem draw (h : OnScreen info.framebufferWidth info.framebufferHeight s)
    {writes : List PixelWrite} (hwrites : ∀ p ∈ writes, Visible info p) :
    OnScreen info.framebufferWidth info.framebufferHeight (s.draw writes) where
  cursorX_lt := h.cursorX_lt
  cursorY_lt := h.cursorY_lt
  writes p hp := by
    rcases List.mem_append.mp hp with hp | hp
    · exact h.writes p hp
    · exact ⟨(hwrites p hp).x_lt, (hwrites p hp).y_lt⟩

theorem lineBreak (hsize : Drawable info.framebufferWidth info.framebufferHeight)
    (h : OnScreen info.framebufferWidth info.framebufferHeight s) :
    OnScreen info.framebufferWidth info.framebufferHeight (s.lineBreak info) where
  cursorX_lt := hsize.width_pos
  cursorY_lt := by
    unfold Console.lineBreak
    dsimp only
    split
    next _ => exact hsize.height_pos
    next hinside => exact BitVec.not_le.mp hinside
  writes := h.writes

theorem advance (hsize : Drawable info.framebufferWidth info.framebufferHeight)
    (h : OnScreen info.framebufferWidth info.framebufferHeight s) (columns : Word) :
    OnScreen info.framebufferWidth info.framebufferHeight (s.advance columns info) := by
  unfold Console.advance
  dsimp only
  split
  next _ => exact h.lineBreak hsize
  next hinside => exact ⟨BitVec.not_le.mp hinside, h.cursorY_lt, h.writes⟩

theorem stepBack (hsize : Drawable info.framebufferWidth info.framebufferHeight)
    (h : OnScreen info.framebufferWidth info.framebufferHeight s) :
    OnScreen info.framebufferWidth info.framebufferHeight (s.stepBack info) := by
  have hglyph : glyphWidth.toNat = 8 ∧ glyphHeight.toNat = 8 := by decide
  have hx : s.cursorX.toNat < info.framebufferWidth.toNat := h.cursorX_lt
  have hy : s.cursorY.toNat < info.framebufferHeight.toNat := h.cursorY_lt
  have hwidth := hsize.width_ge
  unfold Console.stepBack
  split
  next hge =>
    refine ⟨?_, h.cursorY_lt, h.writes⟩
    rw [BitVec.lt_def, BitVec.toNat_sub_of_le hge]
    omega
  -- At the start of a line, back to the last character of the line before.
  split
  next hge =>
    have hroom : glyphWidth ≤ info.framebufferWidth := by
      rw [BitVec.le_def, hglyph.1]
      exact hwidth
    refine ⟨?_, ?_, h.writes⟩
    · rw [BitVec.lt_def, BitVec.toNat_sub_of_le hroom]
      omega
    · rw [BitVec.lt_def, BitVec.toNat_sub_of_le hge]
      omega
  next _ => exact h

end OnScreen

/-- The framebuffer has the size, whatever the background, and the cursor is on the screen. -/
def Keeps (width height : Word) (s : Console) : Prop :=
  ∃ info, s.globalvbeinfo = some info ∧ info.framebufferWidth = width ∧
    info.framebufferHeight = height ∧ OnScreen width height s

/-- A call whose drawing ends with a cursor on the screen. -/
theorem keeps_draw {info : VbeInfo} {s : Console} (hglobal : s.globalvbeinfo = some info)
    (h : OnScreen info.framebufferWidth info.framebufferHeight s) {x y w h' color : Word} :
    ∃ t, (drawRectangle x y w h' color info).map s.draw = some t ∧
      Keeps info.framebufferWidth info.framebufferHeight t := by
  obtain ⟨writes, hwrites, hvisible⟩ := drawRectangle_visible x y w h' color info
  exact ⟨s.draw writes, by rw [hwrites]; rfl, info, hglobal, rfl, rfl, h.draw hvisible⟩

@[simp] theorem Console.draw_globalvbeinfo (s : Console) (writes : List PixelWrite) :
    (s.draw writes).globalvbeinfo = s.globalvbeinfo := rfl

@[simp] theorem Console.advance_globalvbeinfo (s : Console) (columns : Word) (info : VbeInfo) :
    (s.advance columns info).globalvbeinfo = s.globalvbeinfo := by
  unfold Console.advance
  dsimp only
  split <;> rfl

@[simp] theorem Console.stepBack_globalvbeinfo (s : Console) (info : VbeInfo) :
    (s.stepBack info).globalvbeinfo = s.globalvbeinfo := by
  unfold Console.stepBack
  split_ifs <;> rfl

theorem Console.putcKernel_keeps (hsize : Drawable width height) {s : Console}
    (hs : Keeps width height s) (c : Byte) :
    ∃ t, s.putcKernel c = some t ∧ Keeps width height t := by
  obtain ⟨info, hglobal, rfl, rfl, h⟩ := hs
  unfold Console.putcKernel
  rw [hglobal]
  dsimp only
  split
  next _ => exact ⟨_, rfl, info, hglobal, rfl, rfl, h.lineBreak hsize⟩
  split
  next _ =>
    exact ⟨_, rfl, info, rfl, rfl, rfl, hsize.width_pos, h.cursorY_lt, h.writes⟩
  split
  next _ =>
    exact ⟨_, rfl, info, by simpa using hglobal, rfl, rfl, h.advance hsize _⟩
  split
  next _ => exact keeps_draw (by simpa using hglobal) (h.stepBack hsize)
  next _ =>
    refine ⟨_, rfl, info, by simpa using hglobal, rfl, rfl, ?_⟩
    exact (h.draw fun p => drawChar_visible).advance hsize _

theorem Console.clearScreenSys2_keeps (hsize : Drawable width height) {s : Console}
    (hs : Keeps width height s) (color : Word) :
    ∃ t, s.clearScreenSys2 color = some t ∧ Keeps width height t := by
  obtain ⟨info, hglobal, rfl, rfl, h⟩ := hs
  obtain ⟨writes, hwrites, hvisible⟩ := drawRectangle_visible 0 0 info.framebufferWidth
    info.framebufferHeight color info
  have hhome : OnScreen info.framebufferWidth info.framebufferHeight
      { s with cursorX := 0, cursorY := 0 } := ⟨hsize.width_pos, hsize.height_pos, h.writes⟩
  unfold Console.clearScreenSys2
  rw [hglobal, Option.bind_some, clearScreen, hwrites]
  obtain ⟨hx, hy, hall⟩ := hhome.draw hvisible
  exact ⟨_, rfl, { info with backgroundColor := color }, rfl, rfl, rfl, hx, hy, hall⟩

theorem Console.step_keeps (hsize : Drawable width height) {s : Console}
    (hs : Keeps width height s) (op : ConsoleOp) :
    ∃ t, s.step op = some t ∧ Keeps width height t := by
  cases op with
  | putcKernel c => exact putcKernel_keeps hsize hs c
  | clearScreenSys2 color => exact clearScreenSys2_keeps hsize hs color

/-! ## All calls -/

/-- For every sequence of characters and of clearings, every call returns, and after each of them
the cursor is on the screen and so is all that was written. -/
theorem cursor_on_screen (info : VbeInfo)
    (hsize : Drawable info.framebufferWidth info.framebufferHeight) (ops : List ConsoleOp) :
    (∃ t, runSteps Console.step (.initial info) ops = some t) ∧
      Always Console.step (OnScreen info.framebufferWidth info.framebufferHeight)
        (.initial info) ops := by
  have hinitial : Keeps info.framebufferWidth info.framebufferHeight (.initial info) :=
    ⟨info, rfl, rfl, rfl, hsize.width_pos, hsize.height_pos, nofun⟩
  have hops : Admissible Console.step (fun _ _ => True) (.initial info) ops :=
    .of_forall fun _ _ _ => trivial
  obtain ⟨t, ht, -⟩ := runSteps_total (Keeps _ _)
    (fun s op hs _ => Console.step_keeps hsize hs op) hinitial hops
  refine ⟨⟨t, ht⟩, Always.imp (fun s hs => ?_) (always_of_invariant (Keeps _ _) ?_ hinitial hops)⟩
  · obtain ⟨_, _, _, _, h⟩ := hs
    exact h
  · intro s op t hs _ ht
    obtain ⟨t', ht', hkeeps⟩ := Console.step_keeps hsize hs op
    exact Option.some.inj (ht'.symm.trans ht) ▸ hkeeps

/-- A screen whose width is no multiple of a character's. -/
theorem cursor_on_screen_narrow :
    Always Console.step (OnScreen 13 9) (.initial ⟨52, 13, 9, 0⟩)
      [.putcKernel 0x41, .putcKernel 0x42, .putcKernel 0x08, .clearScreenSys2 0] :=
  (cursor_on_screen ⟨52, 13, 9, 0⟩ ⟨by decide, by decide⟩ _).2

end Senob.Video
