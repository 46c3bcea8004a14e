import Senob.Video.Vbe

/-!
# Clipped rectangles

`draw_rectangle` against the part of the rectangle that is on the screen. The coordinates of a
pixel are sums of words: columns and rows beyond the last word come back on the opposite edge.
-/

namespace Senob.Video

/-- The span from `start` on holds the coordinate, in exact sums. -/
def InSpan (start size : Word) (n : Nat) : Prop :=
  start.toNat ≤ n ∧ n < start.toNat + size.toNat

/-- The span reaches the coordinate again, beyond the last word. -/
def ComesBack (start size : Word) (n : Nat) : Prop := n + 2 ^ 32 < start.toNat + size.toNat

/-- The call ends, having set exactly the pixels of the rectangle that are on the screen. -/
def ClipsExactly (x y width height color : Word) (info : VbeInfo) : Prop :=
  ∃ writes, drawRectangle x y width height color info = some writes ∧
    ∀ p, p ∈ writes ↔ ∃ px py : Word,
      px < info.framebufferWidth ∧ py < info.framebufferHeight ∧
        InSpan x width px.toNat ∧ InSpan y height py.toNat ∧
        p = ⟨px, py, pixelAddress info px py, color⟩

/-- The span does not reach beyond the last word. -/
def Contained (start size : Word) : Prop := start.toNat + size.toNat ≤ 2 ^ 32

/-- No coordinate of the span is below the bound. -/
def Outside (start size bound : Word) : Prop :=
  size = 0 ∨ bound = 0 ∨ bound ≤ start ∧ Contained start size

/-! ## One coordinate -/

variable {start size bound : Word}

/-- A word is one of the sums when the span holds it or reaches it again. -/
theorem exists_offset_iff (start size : Word) (n : Word) :
    (∃ i < size.toNat, n = start + BitVec.ofNat 32 i) ↔
      InSpan start size n.toNat ∨ ComesBack start size n.toNat := by
  have hstart := start.isLt
  have hsize := size.isLt
  have hn := n.isLt
  unfold InSpan ComesBack
  constructor
  · rintro ⟨i, hi, rfl⟩
    rw [BitVec.toNat_add, BitVec.toNat_ofNat, Nat.mod_eq_of_lt (Nat.lt_trans hi hsize)]
    omega
  · intro h
    refine ⟨(n - start).toNat, ?_, ?_⟩
    · rw [BitVec.toNat_sub]
      omega
    · rw [BitVec.ofNat_toNat, BitVec.setWidth_eq, BitVec.add_comm, BitVec.sub_add_cancel]

theorem not_comesBack (h : Contained start size) (n : Nat) : ¬ ComesBack start size n := by
  unfold Contained at h
  unfold ComesBack
  omega

theorem Outside.not_drawn (h : Outside start size bound) {n : Word} (hn : n < bound) :
    ¬ (InSpan start size n.toNat ∨ ComesBack start size n.toNat) := by
  have hlt : n.toNat < bound.toNat := hn
  have hstart := start.isLt
  unfold InSpan ComesBack
  rcases h with rfl | rfl | ⟨hbound, hcontained⟩
  · have hzero : (0 : Word).toNat = 0 := rfl
    omega
  · exact absurd hlt (Nat.not_lt_zero _)
  · have hle : bound.toNat ≤ start.toNat := hbound
    unfold Contained at hcontained
    omega

/-- A span that comes back does so at `0`. -/
theorem comesBack_zero (h : ¬ Contained start size) :
    ComesBack start size 0 ∧ ¬ InSpan start size 0 := by
  have hsize := size.isLt
  unfold Contained at h
  unfold ComesBack InSpan
  omega

theorem pos_of_not_outside (h : ¬ Outside start size bound) : 0 < bound :=
  Nat.pos_of_ne_zero fun hzero => h (Or.inr (Or.inl (BitVec.eq_of_toNat_eq hzero)))

/-- A span that is not outside draws its start, or comes back. -/
theorem exists_drawn (h : ¬ Outside start size bound) :
    ∃ n < bound, InSpan start size n.toNat ∨ ComesBack start size n.toNat := by
  by_cases hcontained : Contained start size
  · have hstart : start < bound := by
      by_contra hle
      exact h (Or.inr (Or.inr ⟨BitVec.not_lt.mp hle, hcontained⟩))
    have hsize : size.toNat ≠ 0 := fun hzero => h (Or.inl (BitVec.eq_of_toNat_eq hzero))
    exact ⟨start, hstart, Or.inl ⟨Nat.le_refl _, by omega⟩⟩
  · exact ⟨0, pos_of_not_outside h, Or.inr (comesBack_zero hcontained).1⟩

/-! ## Rectangles -/

variable {x y width height color : Word} {info : VbeInfo}

/-- The pixels that the loops set. -/
theorem drawRectangle_pixels (x y width height color : Word) (info : VbeInfo) :
    ∃ writes, drawRectangle x y width height color info = some writes ∧
      ∀ p, p ∈ writes ↔ ∃ px py : Word,
        px < info.framebufferWidth ∧ py < info.framebufferHeight ∧
          (InSpan x width px.toNat ∨ ComesBack x width px.toNat) ∧
          (InSpan y height py.toNat ∨ ComesBack y height py.toNat) ∧
          p = ⟨px, py, pixelAddress info px py, color⟩ := by
  obtain ⟨writes, hwrites, hmem⟩ := exists_drawRectangle x y width height color info
  refine ⟨writes, hwrites, fun p => (hmem p).trans ?_⟩
  simp only [mem_drawPixel, ← exists_offset_iff]
  constructor
  · rintro ⟨i, hi, j, hj, hx, hy, rfl⟩
    exact ⟨_, _, hx, hy, ⟨j, hj, rfl⟩, ⟨i, hi, rfl⟩, rfl⟩
  · rintro ⟨px, py, hx, hy, ⟨j, hj, rfl⟩, ⟨i, hi, rfl⟩, rfl⟩
    exact ⟨i, hi, j, hj, hx, hy, rfl⟩

/-- The clipping is exact when whatever the loops set on the screen is in the rectangle. -/
theorem clipsExactly_iff_forall :
    ClipsExactly x y width height color info ↔
      ∀ px py : Word, px < info.framebufferWidth → py < info.framebufferHeight →
        InSpan x width px.toNat ∨ ComesBack x width px.toNat →
        InSpan y height py.toNat ∨ ComesBack y height py.toNat →
          InSpan x width px.toNat ∧ InSpan y height py.toNat := by
  obtain ⟨writes, hwrites, hmem⟩ := drawRectangle_pixels x y width height color info
  constructor
  · rintro ⟨writes', hwrites', hexact⟩ px py hx hy hcolumn hrow
    obtain rfl := Option.some.inj (hwrites.symm.trans hwrites')
    obtain ⟨px', py', -, -, hcolumn', hrow', hp⟩ :=
      (hexact _).mp ((hmem _).mpr ⟨px, py, hx, hy, hcolumn, hrow, rfl⟩)
    obtain rfl : px = px' := congrArg PixelWrite.x hp
    obtain rfl : py = py' := congrArg PixelWrite.y hp
    exact ⟨hcolumn', hrow'⟩
  · intro h
    refine ⟨writes, hwrites, fun p => (hmem p).trans ?_⟩
    constructor
    · rintro ⟨px, py, hx, hy, hcolumn, hrow, hp⟩
      obtain ⟨hcolumn, hrow⟩ := h px py hx hy hcolumn hrow
      exact ⟨px, py, hx, hy, hcolumn, hrow, hp⟩
    · rintro ⟨px, py, hx, hy, hcolumn, hrow, hp⟩
      exact ⟨px, py, hx, hy, Or.inl hcolumn, Or.inl hrow, hp⟩

/-- For every rectangle and screen, the clipping is exact just when no part of the rectangle is on
the screen, or none of it lies beyond the last word. -/
theorem clipsExactly_iff (x y width height color : Word) (info : VbeInfo) :
    ClipsExactly x y width height color info ↔
      Outside x width info.framebufferWidth ∨ Outside y height info.framebufferHeight ∨
        Contained x width ∧ Contained y height := by
  rw [clipsExactly_iff_forall]
  constructor
  · intro h
    by_contra hbad
    obtain ⟨hcolumns, hbad⟩ := not_or.mp hbad
    obtain ⟨hrows, hbad⟩ := not_or.mp hbad
    -- Whichever span comes back does so at 0, where the rectangle itself is not.
    by_cases hcontained : Contained x width
    · have hback := comesBack_zero fun hy => hbad ⟨hcontained, hy⟩
      obtain ⟨px, hx, hcolumn⟩ := exists_drawn hcolumns
      exact hback.2 (h px 0 hx (pos_of_not_outside hrows) hcolumn (Or.inr hback.1)).2
    · have hback := comesBack_zero hcontained
      obtain ⟨py, hy, hrow⟩ := exists_drawn hrows
      exact hback.2 (h 0 py (pos_of_not_outside hcolumns) hy (Or.inr hback.1) hrow).1
  · rintro (houtside | houtside | ⟨hx, hy⟩) px py hpx hpy hcolumn hrow
    · exact absurd hcolumn (houtside.not_drawn hpx)
    · exact absurd hrow (houtside.not_drawn hpy)
    · exact ⟨hcolumn.resolve_right (not_comesBack hx _), hrow.resolve_right (not_comesBack hy _)⟩

/-- A rectangle of two columns, the first one being the last word, on a screen of one pixel. -/
theorem not_clipsExactly :
    ¬ ∀ x y width height color info, ClipsExactly x y width height color info := by
  intro h
  obtain ⟨writes, hwrites, hexact⟩ := h 0xFFFFFFFF 0 2 1 7 ⟨4, 1, 1, 0⟩
  have hpixel : ⟨0, 0, framebuffer, 7⟩ ∈ writes := by
    obtain rfl := Option.some.inj hwrites
    decide
  obtain ⟨px, py, hx, -, hcolumn, -⟩ := (hexact _).mp hpixel
  have hlt : px.toNat < 1 := hx
  have hle : (0xFFFFFFFF : Word).toNat ≤ px.toNat := hcolumn.1
  have hword : (0xFFFFFFFF : Word).toNat = 4294967295 := rfl
  omega

end Senob.Video
