import Mathlib.Logic.Function.Basic
import Senob.Libk.Descriptors

/-!
# The disk access window

`sync_window` and `move_window` of FatFs. The file allocation table, the directories and the
FSInfo sector are read and written in the one sector that the filesystem object holds in memory.
It is written back when another sector is needed, and a sector of the first FAT is then written
to the second one too.

A volume has an image: the sectors as they are once the window is written back. Moving the window
changes the drive but not the image, and the two FATs are equal in it.
-/

namespace Senob.Fat

open Libk (FResult)

abbrev Dword := BitVec 32

/-- `SS(fs)` bytes. -/
abbrev Sector := Fin 512 → BitVec 8

/-- An offset modulo `SS(fs)`. -/
def ofs (n : Nat) : Fin 512 := Fin.ofNat 512 n

/-- The calls of `disk_read` and `disk_write`, by their first sector and their number of sectors,
that the drive does not refuse with an error. -/
structure Bounds where
  readable : Dword → Nat → Bool
  writable : Dword → Nat → Bool

/-- A single sector that can be read and written. -/
def Bounds.Reaches (b : Bounds) (sect : Dword) : Prop := b.readable sect 1 ∧ b.writable sect 1

/-- The drive behind `disk_read` and `disk_write`. -/
structure Drive extends Bounds where
  sectors : Dword → Sector

namespace Drive

/-- `disk_read`: the sectors from `sect` on. -/
def diskRead (d : Drive) (sect : Dword) (count : Nat) : Option (Nat → Sector) :=
  if d.readable sect count then some fun i => d.sectors (sect + BitVec.ofNat 32 i) else none

/-- `disk_write` of so many sectors of a buffer. -/
def diskWrite (d : Drive) (buff : Nat → Sector) (sect : Dword) (count : Nat) : Option Drive :=
  if d.writable sect count then
    some { d with
      sectors := fun s => if (s - sect).toNat < count then buff (s - sect).toNat else d.sectors s }
  else none

theorem diskRead_one {d : Drive} {sect : Dword} (h : d.readable sect 1) :
    ∃ buff, d.diskRead sect 1 = some buff ∧ buff 0 = d.sectors sect :=
  ⟨_, if_pos h, congrArg d.sectors (BitVec.add_zero sect)⟩

theorem diskWrite_one {d : Drive} {sect : Dword} (h : d.writable sect 1) (win : Sector) :
    d.diskWrite (fun _ => win) sect 1 =
      some { d with sectors := Function.update d.sectors sect win } := by
  rw [diskWrite, if_pos h]
  congr 2
  funext s
  have hself : (s - sect).toNat < 1 ↔ s = sect := by
    constructor
    · intro hlt
      bv_omega
    · rintro rfl
      rw [BitVec.sub_self]
      decide
  rw [Function.update_apply, if_congr hself rfl rfl]

end Drive

/-- `fs_type`; 0 is a filesystem object that is not mounted. -/
inductive FsType where
  | none
  | fat12
  | fat16
  | fat32
  deriving DecidableEq

/-- The fields of `FATFS` that only mounting sets. -/
structure Layout where
  fsType : FsType
  nFats : BitVec 8
  nRootdir : BitVec 16
  csize : BitVec 16
  nFatent : Dword
  fsize : Dword
  volbase : Dword
  fatbase : Dword
  dirbase : Dword
  database : Dword

/-- What the filesystem object knows of the free clusters. -/
structure Allocation where
  fsiFlag : BitVec 8
  lastClst : Dword
  freeClst : Dword

structure Window where
  wflag : Bool
  winsect : Dword
  win : Sector

/-- `FATFS`. -/
structure Fatfs extends Layout, Allocation, Window

/-- A filesystem object and the drive that hosts it. -/
structure Volume where
  fs : Fatfs
  drive : Drive

namespace Volume

/-- `sync_window`. -/
def syncWindow (v : Volume) : FResult × Volume :=
  if v.fs.wflag then
    match v.drive.diskWrite (fun _ => v.fs.win) v.fs.winsect 1 with
    | some drive =>
        let fs := { v.fs with wflag := false }
        -- is it in the first FAT, and is there a second one?
        if fs.winsect - fs.fatbase < fs.fsize ∧ fs.nFats = 2 then
          (.ok, ⟨fs, (drive.diskWrite (fun _ => fs.win) (fs.winsect + fs.fsize) 1).getD drive⟩)
        else (.ok, ⟨fs, drive⟩)
    | none => (.diskErr, v)
  else (.ok, v)

/-- `move_window`. A sector that could not be read leaves the window invalid. -/
def moveWindow (v : Volume) (sect : Dword) : FResult × Volume :=
  if sect ≠ v.fs.winsect then
    match v.syncWindow with
    | (.ok, v) =>
        match v.drive.diskRead sect 1 with
        | some buff => (.ok, { v with fs := { v.fs with winsect := sect, win := buff 0 } })
        | none => (.diskErr, { v with fs := { v.fs with winsect := 0xFFFFFFFF } })
    | (res, v) => (res, v)
  else (.ok, v)

/-- New contents of the window, with `wflag` set. -/
def store (v : Volume) (win : Sector) : Volume :=
  { v with fs := { v.fs with win := win, wflag := true } }

end Volume

/-! ## The two FATs -/

namespace Layout

variable {l : Layout} {s : Dword}

/-- A sector of the first FAT. -/
def InFat (l : Layout) (s : Dword) : Prop := s - l.fatbase < l.fsize

/-- A sector of the second FAT. -/
def InCopy (l : Layout) (s : Dword) : Prop := l.nFats = 2 ∧ l.InFat (s - l.fsize)

instance : Decidable (l.InFat s) := inferInstanceAs (Decidable (_ < _))

instance : Decidable (l.InCopy s) := inferInstanceAs (Decidable (_ ∧ _))

/-- The sector that a sector of the second FAT is a copy of. -/
def home (l : Layout) (s : Dword) : Dword := if l.InCopy s then s - l.fsize else s

/-- There are one or two FATs, and they end before the last sector number. -/
structure FatsFit (l : Layout) : Prop where
  count : l.nFats = 1 ∨ l.nFats = 2
  bound : l.fatbase.toNat + l.nFats.toNat * l.fsize.toNat < 2 ^ 32

theorem FatsFit.not_inCopy (h : l.FatsFit) (hs : l.InFat s) : ¬ l.InCopy s := by
  rintro ⟨htwo, hcopy⟩
  have hnat : l.nFats.toNat = 2 := by rw [htwo]; rfl
  have hbound := h.bound
  rw [hnat] at hbound
  simp only [InFat, BitVec.lt_def, BitVec.toNat_sub] at hs hcopy
  omega

@[simp] theorem home_of_not_inCopy (h : ¬ l.InCopy s) : l.home s = s := if_neg h

theorem FatsFit.home_home (h : l.FatsFit) (s : Dword) : l.home (l.home s) = l.home s := by
  by_cases hs : l.InCopy s
  · have hhome : l.home s = s - l.fsize := if_pos hs
    rw [hhome, home_of_not_inCopy (h.not_inCopy hs.2)]
  · rw [home_of_not_inCopy hs, home_of_not_inCopy hs]

/-- The sectors that are written with a sector of the window. -/
theorem home_eq_iff {w : Dword} (hw : ¬ l.InCopy w) :
    l.home s = w ↔ s = w ∨ (l.InFat w ∧ l.nFats = 2 ∧ s = w + l.fsize) := by
  unfold home
  split_ifs with hs
  · constructor
    · rintro rfl
      exact .inr ⟨hs.2, hs.1, by rw [BitVec.sub_add_cancel]⟩
    · rintro (rfl | ⟨-, -, rfl⟩)
      · exact absurd hs hw
      · rw [BitVec.add_sub_cancel]
  · constructor
    · exact .inl
    · rintro (rfl | ⟨hfat, htwo, rfl⟩)
      · rfl
      · exact absurd ⟨htwo, by rwa [BitVec.add_sub_cancel]⟩ hs

end Layout

/-! ## The image of a volume -/

namespace Volume

variable {v v' : Volume} {s : Dword} {win : Sector}

abbrev layout (v : Volume) : Layout := v.fs.toLayout

abbrev allocation (v : Volume) : Allocation := v.fs.toAllocation

/-- The sectors as they are once the window is written back. -/
def image (v : Volume) (s : Dword) : Sector :=
  if v.fs.wflag ∧ v.layout.home s = v.fs.winsect then v.fs.win else v.drive.sectors s

/-- What every function of the filesystem object keeps true of it: the window holds its sector,
and a dirty one can be written back. -/
structure Sound (v : Volume) : Prop where
  fits : v.layout.FatsFit
  reachable : ∀ s, v.layout.InFat s ∨ v.layout.InCopy s → v.drive.Reaches s
  clean : v.fs.wflag = false → v.fs.winsect ≠ 0xFFFFFFFF → v.fs.win = v.drive.sectors v.fs.winsect
  dirty : v.fs.wflag = true → v.drive.Reaches v.fs.winsect ∧ ¬ v.layout.InCopy v.fs.winsect
  mirrored : ∀ s, v.image (v.layout.home s) = v.image s

/-- Nothing but the window and the drive has changed, and these keep the image. -/
structure Refills (v v' : Volume) : Prop where
  sound : v'.Sound
  layout : v'.layout = v.layout
  allocation : v'.allocation = v.allocation
  bounds : v'.drive.toBounds = v.drive.toBounds
  image : v'.image = v.image

/-- The window has stayed where it was, or lies on the first FAT. -/
def Stays (v v' : Volume) : Prop :=
  v'.fs.winsect = v.fs.winsect ∨ v.layout.InFat v'.fs.winsect

theorem Stays.trans {v'' : Volume} (h : v.Stays v') (hlayout : v'.layout = v.layout)
    (h' : v'.Stays v'') : v.Stays v'' := by
  rcases h' with hsame | hfat
  · rw [Stays, hsame]
    exact h
  · exact .inr (hlayout ▸ hfat)

/-- The window may have been moved on the first FAT, and nothing else has happened. -/
structure Keeps (v v' : Volume) : Prop extends v.Refills v' where
  stays : v.Stays v'

theorem Sound.keeps (h : v.Sound) : v.Keeps v := ⟨⟨h, rfl, rfl, rfl, rfl⟩, .inl rfl⟩

theorem Keeps.trans {v'' : Volume} (h : v.Keeps v') (h' : v'.Keeps v'') : v.Keeps v'' :=
  ⟨⟨h'.sound, h'.layout.trans h.layout, h'.allocation.trans h.allocation,
    h'.bounds.trans h.bounds, h'.image.trans h.image⟩, h.stays.trans h.layout h'.stays⟩

theorem image_of_clean (h : v.fs.wflag = false) : v.image = v.drive.sectors := by
  funext s
  rw [image, if_neg]
  rw [h]
  exact fun hs => Bool.false_ne_true hs.1

theorem Sound.win_eq (h : v.Sound) (hvalid : v.fs.winsect ≠ 0xFFFFFFFF) :
    v.fs.win = v.image v.fs.winsect := by
  cases hflag : v.fs.wflag with
  | false => rw [image_of_clean hflag, h.clean hflag hvalid]
  | true => rw [image, if_pos ⟨hflag, Layout.home_of_not_inCopy (h.dirty hflag).2⟩]

/-- Writing the window back makes the drive hold the image. -/
theorem Sound.syncWindow (h : v.Sound) :
    ∃ drive, v.syncWindow = (.ok, ⟨{ v.fs with wflag := false }, drive⟩) ∧
      drive.sectors = v.image ∧ drive.toBounds = v.drive.toBounds := by
  cases hflag : v.fs.wflag with
  | false =>
      refine ⟨v.drive, ?_, (image_of_clean hflag).symm, rfl⟩
      rw [Volume.syncWindow, if_neg (hflag ▸ Bool.false_ne_true), ← hflag]
  | true =>
      obtain ⟨hreach, hhome⟩ := h.dirty hflag
      rw [Volume.syncWindow, if_pos hflag, Drive.diskWrite_one hreach.2]
      by_cases hcopy : v.fs.winsect - v.fs.fatbase < v.fs.fsize ∧ v.fs.nFats = 2
      · have hsecond : v.drive.Reaches (v.fs.winsect + v.fs.fsize) :=
          h.reachable _ (.inr ⟨hcopy.2, by
            rw [Layout.InFat, BitVec.add_sub_cancel]
            exact hcopy.1⟩)
        have hwrite := Drive.diskWrite_one (d := { v.drive with
          sectors := Function.update v.drive.sectors v.fs.winsect v.fs.win }) hsecond.2 v.fs.win
        refine ⟨_, by simp only [if_pos hcopy]; rfl, ?_, ?_⟩
        · rw [hwrite, Option.getD_some]
          funext s
          simp only [image, hflag, true_and, Layout.home_eq_iff hhome, Layout.InFat, hcopy.1,
            hcopy.2, Function.update_apply]
          grind
        · rw [hwrite, Option.getD_some]
      · refine ⟨{ v.drive with sectors := Function.update v.drive.sectors v.fs.winsect v.fs.win },
          by simp only [if_neg hcopy], ?_, rfl⟩
        funext s
        have honly : v.layout.home s = v.fs.winsect ↔ s = v.fs.winsect := by
          rw [Layout.home_eq_iff hhome, or_iff_left fun hs => hcopy ⟨hs.1, hs.2.1⟩]
        simp only [image, hflag, true_and, honly, Function.update_apply]

/-- A clean window on a drive that holds the image. -/
theorem Sound.of_clean (h : v.Sound) (hlayout : v'.layout = v.layout)
    (hallocation : v'.allocation = v.allocation) (hbounds : v'.drive.toBounds = v.drive.toBounds)
    (hsectors : v'.drive.sectors = v.image) (hflag : v'.fs.wflag = false)
    (hwin : v'.fs.winsect ≠ 0xFFFFFFFF → v'.fs.win = v.image v'.fs.winsect) : v.Refills v' := by
  have himage : v'.image = v.image := (image_of_clean hflag).trans hsectors
  refine ⟨⟨?_, ?_, ?_, ?_, ?_⟩, hlayout, hallocation, hbounds, himage⟩
  · rw [hlayout]; exact h.fits
  · rw [hlayout, hbounds]; exact h.reachable
  · intro _ hvalid
    rw [hwin hvalid, hsectors]
  · intro hdirty
    rw [hflag] at hdirty
    exact absurd hdirty Bool.false_ne_true
  · rw [hlayout, himage]; exact h.mirrored

/-- `sync_window` succeeds, keeps the image and leaves it on the drive, where both FATs are
equal. -/
theorem Sound.syncWindow_spec (h : v.Sound) : ∃ v', v.syncWindow = (.ok, v') ∧ v.Keeps v' ∧
    v'.fs.wflag = false ∧ v'.drive.sectors = v.image := by
  obtain ⟨drive, hsync, hsectors, hbounds⟩ := h.syncWindow
  exact ⟨_, hsync, ⟨h.of_clean rfl rfl hbounds hsectors rfl h.win_eq, .inl rfl⟩, rfl, hsectors⟩

/-- `move_window` to a sector that the drive reaches. -/
theorem Sound.moveWindow_spec (h : v.Sound) (hs : v.drive.readable s 1) (hvalid : s ≠ 0xFFFFFFFF) :
    ∃ v', v.moveWindow s = (.ok, v') ∧ v.Refills v' ∧ v'.fs.winsect = s ∧
      v'.fs.win = v.image s := by
  by_cases hsame : s = v.fs.winsect
  · refine ⟨v, by rw [moveWindow, if_neg (not_not_intro hsame)], h.keeps.toRefills, hsame.symm, ?_⟩
    rw [h.win_eq (hsame ▸ hvalid), hsame]
  · obtain ⟨drive, hsync, hsectors, hbounds⟩ := h.syncWindow
    refine ⟨⟨{ v.fs with wflag := false, winsect := s, win := v.image s }, drive⟩, ?_, ?_, rfl,
      rfl⟩
    · have hread : drive.readable s 1 := by
        rw [hbounds]
        exact hs
      obtain ⟨buff, hbuff, hwin⟩ := Drive.diskRead_one hread
      rw [moveWindow, if_pos hsame, hsync]
      simp only [hbuff, hwin, hsectors]
    · exact h.of_clean rfl rfl hbounds hsectors rfl fun _ => rfl

/-- New contents of the window appear in its sector, and in the copy of it. -/
theorem Sound.store_spec (h : v.Sound) (hs : v.drive.Reaches v.fs.winsect)
    (hcopy : ¬ v.layout.InCopy v.fs.winsect) (win : Sector) :
    (v.store win).Sound ∧ ∀ s, (v.store win).image s =
      if v.layout.home s = v.fs.winsect then win else v.image s := by
  have himage : ∀ s, (v.store win).image s =
      if v.layout.home s = v.fs.winsect then win else v.image s := by
    intro s
    simp only [image, store, true_and]
    split_ifs with hhome hdirty
    · rfl
    · exact absurd hdirty.2 hhome
    · rfl
  refine ⟨⟨h.fits, h.reachable, nofun, fun _ => ⟨hs, hcopy⟩, ?_⟩, himage⟩
  intro s
  have hlayout : (v.store win).layout = v.layout := rfl
  rw [hlayout, himage, himage, h.fits.home_home, h.mirrored]

end Volume

end Senob.Fat
