import Mathlib.Data.Nat.Find
import Senob.Video.Vbe

/-!
# The framebuffer's mapping

The addresses that drawing writes, against the 4 MiB that `boot.s` maps for the framebuffer. The
size and the pitch are those that the loader reports; the mapping is fixed, and the ramdisk comes
right behind it.
-/

namespace Senob.Video

/-- `RAMDISKVIRTUALADRESS`. -/
def ramdiskVirtualAdress : Word := 0xE0400000

inductive DrawCall where
  | drawPixel (x y color : Word)
  | drawRectangle (x y width height color : Word)
  | drawChar (x y : Word) (c : Byte) (color : Word)
  | drawString (x y : Word) (str : List Byte) (color : Word)
  | clearScreenSys2 (color : Word)

def DrawCall.writes (info : VbeInfo) : DrawCall → Option (List PixelWrite)
  | .drawPixel x y color => some (Video.drawPixel x y color info)
  | .drawRectangle x y width height color => Video.drawRectangle x y width height color info
  | .drawChar x y c color => some (Video.drawChar x y c color info)
  | .drawString x y str color => some (Video.drawString x y color info str)
  | .clearScreenSys2 color => clearScreen color info

/-- The entry of `kernel_directory` for the framebuffer maps the address. -/
def Mapped (address : Word) : Prop := framebuffer ≤ address ∧ address < ramdiskVirtualAdress

instance : DecidablePred Mapped := fun _ => inferInstanceAs (Decidable (_ ∧ _))

/-- Every call returns, and writes to mapped addresses only. -/
def StaysMapped (info : VbeInfo) : Prop :=
  ∀ call : DrawCall, ∃ writes, call.writes info = some writes ∧ ∀ p ∈ writes, Mapped p.address

/-- The pixels of the mapping. -/
def mappedPixels : Nat := 2 ^ 20

/-- The last pixel of the screen is in the mapping. -/
def FitsMapping (info : VbeInfo) : Prop :=
  info.framebufferWidth = 0 ∨ info.framebufferHeight = 0 ∨
    (info.framebufferHeight.toNat - 1) * (info.framebufferPitch.toNat / 4) +
      info.framebufferWidth.toNat ≤ mappedPixels

/-! ## Addresses -/

variable {info : VbeInfo}

theorem toNat_pixelIndex (info : VbeInfo) (x y : Word) :
    (y * (info.framebufferPitch / 4) + x).toNat =
      (y.toNat * (info.framebufferPitch.toNat / 4) + x.toNat) % 2 ^ 32 := by
  rw [BitVec.toNat_add, BitVec.toNat_mul, BitVec.toNat_udiv, Nat.mod_add_mod]
  rfl

/-- An index is mapped when it is in the mapping up to whole rounds of the address space. -/
theorem mapped_pixelAddress_iff (info : VbeInfo) (x y : Word) :
    Mapped (pixelAddress info x y) ↔
      (y.toNat * (info.framebufferPitch.toNat / 4) + x.toNat) % 2 ^ 30 < mappedPixels := by
  have hindex := toNat_pixelIndex info x y
  have hframebuffer : framebuffer.toNat = 0xE0000000 := rfl
  have hramdisk : ramdiskVirtualAdress.toNat = 0xE0400000 := rfl
  unfold Mapped pixelAddress mappedPixels
  generalize y * (info.framebufferPitch / 4) + x = index at hindex ⊢
  generalize y.toNat * (info.framebufferPitch.toNat / 4) + x.toNat = n at hindex ⊢
  have haddress : (framebuffer + 4 * index).toNat = (0xE0000000 + 4 * (n % 2 ^ 32)) % 2 ^ 32 := by
    rw [BitVec.toNat_add, BitVec.toNat_mul, hindex, hframebuffer, Nat.add_mod_mod]
    rfl
  rw [BitVec.le_def, BitVec.lt_def, haddress, hframebuffer, hramdisk]
  omega

theorem Visible.mapped {p : PixelWrite} (h : Visible info p) (hfits : FitsMapping info) :
    Mapped p.address := by
  have hx : p.x.toNat < info.framebufferWidth.toNat := h.x_lt
  have hy : p.y.toNat < info.framebufferHeight.toNat := h.y_lt
  rw [h.address_eq, mapped_pixelAddress_iff]
  rcases hfits with hzero | hzero | hlast
  · rw [hzero] at hx
    exact absurd hx (Nat.not_lt_zero _)
  · rw [hzero] at hy
    exact absurd hy (Nat.not_lt_zero _)
  · have hrow : p.y.toNat * (info.framebufferPitch.toNat / 4) ≤
        (info.framebufferHeight.toNat - 1) * (info.framebufferPitch.toNat / 4) :=
      Nat.mul_le_mul_right _ (by omega)
    have hindex : p.y.toNat * (info.framebufferPitch.toNat / 4) + p.x.toNat < mappedPixels := by
      omega
    exact Nat.lt_of_le_of_lt (Nat.mod_le _ _) hindex

/-! ## Modes that do not fit -/

/-- Rows of `stride` pixels of which `width` are on the screen, the last of them ending outside of
the mapping. A pixel outside of it is the last one of the first row that leaves it or, where a row
is longer than the mapping, the first one of the second row. -/
theorem exists_index {width height stride : Nat} (hwidth : width ≠ 0) (hheight : height ≠ 0)
    (hle : width ≤ stride) (hstride : stride < 2 ^ 30)
    (hlast : mappedPixels < (height - 1) * stride + width) :
    ∃ x < width, ∃ y < height, ¬ (y * stride + x) % 2 ^ 30 < mappedPixels := by
  unfold mappedPixels at hlast ⊢
  -- Below 2^30 an index is not reduced, so one in the next 2^20 pixels is outside.
  by_cases hrow : 2 ^ 20 ≤ width - 1
  · exact ⟨width - 1, by omega, 0, by omega, by omega⟩
  · have hrows : 1 < height := by
      by_contra hone
      obtain rfl : height = 1 := by omega
      omega
    by_cases hlong : 2 ^ 20 ≤ stride
    · exact ⟨0, by omega, 1, hrows, by omega⟩
    · have hexists : ∃ y, 2 ^ 20 ≤ y * stride + (width - 1) := ⟨height - 1, by omega⟩
      have hfirst := Nat.find_spec hexists
      have hinside : Nat.find hexists ≤ height - 1 := Nat.find_min' hexists (by omega)
      generalize hy : Nat.find hexists = y at hfirst hinside
      cases y with
      | zero => omega
      | succ y =>
          have hbefore : ¬ 2 ^ 20 ≤ y * stride + (width - 1) :=
            Nat.find_min hexists (by omega)
          have hnext : (y + 1) * stride = y * stride + stride := Nat.succ_mul y stride
          exact ⟨width - 1, by omega, y + 1, by omega, by omega⟩

theorem exists_unmapped
    (hpitch : 4 * info.framebufferWidth.toNat ≤ info.framebufferPitch.toNat)
    (h : ¬ FitsMapping info) :
    ∃ x y : Word, x < info.framebufferWidth ∧ y < info.framebufferHeight ∧
      ¬ Mapped (pixelAddress info x y) := by
  obtain ⟨hwidth, h⟩ := not_or.mp h
  obtain ⟨hheight, hlast⟩ := not_or.mp h
  have hlt := info.framebufferPitch.isLt
  obtain ⟨x, hx, y, hy, hindex⟩ := exists_index
    (fun hzero => hwidth (BitVec.eq_of_toNat_eq hzero))
    (fun hzero => hheight (BitVec.eq_of_toNat_eq hzero))
    (by omega : info.framebufferWidth.toNat ≤ info.framebufferPitch.toNat / 4) (by omega)
    (Nat.lt_of_not_le hlast)
  have hx' : (BitVec.ofNat 32 x).toNat = x :=
    Nat.mod_eq_of_lt (Nat.lt_trans hx info.framebufferWidth.isLt)
  have hy' : (BitVec.ofNat 32 y).toNat = y :=
    Nat.mod_eq_of_lt (Nat.lt_trans hy info.framebufferHeight.isLt)
  refine ⟨BitVec.ofNat 32 x, BitVec.ofNat 32 y, ?_, ?_, ?_⟩
  · rwa [BitVec.lt_def, hx']
  · rwa [BitVec.lt_def, hy']
  · rwa [mapped_pixelAddress_iff, hx', hy']

/-! ## All modes -/

/-- In every mode whose rows hold its pixels, drawing stays in the mapping just when the mode
fits it. -/
theorem staysMapped_iff
    (hpitch : 4 * info.framebufferWidth.toNat ≤ info.framebufferPitch.toNat) :
    StaysMapped info ↔ FitsMapping info := by
  constructor
  · intro h
    by_contra hfits
    obtain ⟨x, y, hx, hy, hunmapped⟩ := exists_unmapped hpitch hfits
    obtain ⟨writes, hwrites, hmapped⟩ := h (.drawPixel x y 0)
    obtain rfl := Option.some.inj hwrites
    exact hunmapped (hmapped _ (mem_drawPixel.mpr ⟨hx, hy, rfl⟩))
  · intro hfits call
    cases call with
    | drawPixel x y color =>
        exact ⟨_, rfl, fun p hp => (visible_of_mem_drawPixel hp).mapped hfits⟩
    | drawRectangle x y width height color =>
        obtain ⟨writes, hwrites, hvisible⟩ := drawRectangle_visible x y width height color info
        exact ⟨writes, hwrites, fun p hp => (hvisible p hp).mapped hfits⟩
    | drawChar x y c color => exact ⟨_, rfl, fun p hp => (drawChar_visible hp).mapped hfits⟩
    | drawString x y str color => exact ⟨_, rfl, fun p hp => (drawString_visible hp).mapped hfits⟩
    | clearScreenSys2 color =>
        obtain ⟨writes, hwrites, hvisible⟩ := drawRectangle_visible 0 0 info.framebufferWidth
          info.framebufferHeight color info
        exact ⟨writes, hwrites, fun p hp => (hvisible p hp).mapped hfits⟩

/-- The mode that the header asks for. -/
theorem staysMapped_1024_768 : StaysMapped ⟨4096, 1024, 768, 0⟩ :=
  (staysMapped_iff (by decide)).mpr (Or.inr (Or.inr (by decide)))

/-- With 1280 by 1024 pixels, the last row is in the ramdisk's window. -/
theorem not_staysMapped_1280_1024 :
    ¬ ∀ info : VbeInfo, 4 * info.framebufferWidth.toNat ≤ info.framebufferPitch.toNat →
      StaysMapped info := by
  intro h
  obtain ⟨writes, hwrites, hmapped⟩ := h ⟨5120, 1280, 1024, 0⟩ (by decide) (.drawPixel 0 1023 0)
  obtain rfl := Option.some.inj hwrites
  exact absurd (hmapped ⟨0, 1023, 0xE04FEC00, 0⟩ (by decide)) (by decide)

end Senob.Video
