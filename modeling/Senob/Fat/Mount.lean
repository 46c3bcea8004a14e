import Senob.Fat.ChainRuns

/-!
# Mounting a volume

`check_fs`, `find_volume` and the part of `mount_volume` that reads the boot sector and the FSInfo
sector. A volume is accepted only if its FAT has room for the entry of every cluster.
-/

namespace Senob.Fat

open Libk (FResult)

/-- `memcmp(win + 82, "FAT32   ", 8) == 0`. -/
def hasFat32Name (win : Sector) : Prop :=
  (List.range 8).map (fun i => win (ofs (82 + i))) =
    [0x46, 0x41, 0x54, 0x33, 0x32, 0x20, 0x20, 0x20]

instance (win : Sector) : Decidable (hasFat32Name win) := inferInstanceAs (Decidable (_ = _))

/-- The fields by which a FAT boot sector without signature is known. -/
def hasProperFields (win : Sector) : Prop :=
  let w := ldWord win 11
  let b := win (ofs 13)
  w &&& (w - 1) = 0 ∧ 512 ≤ w ∧ w ≤ 512 ∧
    b ≠ 0 ∧ b &&& (b - 1) = 0 ∧
    ldWord win 14 ≠ 0 ∧
    (win (ofs 16)).setWidth 32 - 1 ≤ (1 : Dword) ∧
    ldWord win 17 ≠ 0 ∧
    (128 ≤ ldWord win 19 ∨ 0x10000 ≤ ldDword win 32) ∧
    ldWord win 22 ≠ 0

instance (win : Sector) : Decidable (hasProperFields win) :=
  inferInstanceAs (Decidable (_ ∧ _))

/-- The sector is the boot sector of a FAT volume, as far as `check_fs` looks at it. -/
def isVbr (win : Sector) : Prop :=
  (win (ofs 0) = 0xEB ∨ win (ofs 0) = 0xE9 ∨ win (ofs 0) = 0xE8) ∧
    (ldWord win 510 = 0xAA55 ∧ hasFat32Name win ∨ hasProperFields win)

instance (win : Sector) : Decidable (isVbr win) := inferInstanceAs (Decidable (_ ∧ _))

section BootSector

variable (win : Sector)

/-- `fsize`: the sectors of one FAT. -/
def fatSectors : Dword :=
  if ldWord win 22 = 0 then ldDword win 36 else (ldWord win 22).setWidth 32

/-- `csize`: the sectors of a cluster. -/
def clusterSectors : BitVec 16 := (win (ofs 13)).setWidth 16

/-- `tsect`: the sectors of the volume. -/
def totalSectors : Dword :=
  if ldWord win 19 = 0 then ldDword win 32 else (ldWord win 19).setWidth 32

/-- `sysect`: reserved sectors, FATs and root directory. -/
def systemSectors : Dword :=
  (ldWord win 14).setWidth 32 + fatSectors win * (win (ofs 16)).setWidth 32 +
    (ldWord win 17 / 16).setWidth 32

/-- `nclst`: the number of clusters. -/
def clusterCount : Dword :=
  (totalSectors win - systemSectors win) / (clusterSectors win).setWidth 32

end BootSector

/-- The FAT type for so many clusters. -/
def fatType (nclst : Dword) : FsType :=
  if nclst ≤ 0xFF5 then .fat12
  else if nclst ≤ 0xFFF5 then .fat16
  else if nclst ≤ 0x0FFFFFF5 then .fat32
  else .none

/-- `szbfat`: the bytes of the FAT that so many entries need. -/
def neededBytes : FsType → Dword → Dword
  | .fat32, n => n * 4
  | .fat16, n => n * 2
  | _, n => n * 3 / 2 + (n &&& 1)

/-- The layout of the volume at `bsect`, by its boot sector, or `none` for `FR_NO_FILESYSTEM`. -/
def bpbLayout (win : Sector) (bsect : Dword) : Option Layout := do
  guard (ldWord win 11 = 512)
  guard (win (ofs 16) = 1 ∨ win (ofs 16) = 2)
  guard (clusterSectors win ≠ 0 ∧ clusterSectors win &&& (clusterSectors win - 1) = 0)
  guard (ldWord win 17 % 16 = 0)
  guard (ldWord win 14 ≠ 0)
  guard (systemSectors win ≤ totalSectors win)
  guard (clusterCount win ≠ 0)
  let fmt := fatType (clusterCount win)
  guard (fmt ≠ .none)
  let nFatent := clusterCount win + 2
  let fatbase := bsect + (ldWord win 14).setWidth 32
  guard (if fmt = .fat32 then ldWord win 42 = 0 ∧ ldWord win 17 = 0 else ldWord win 17 ≠ 0)
  guard ((neededBytes fmt nFatent + 511) / 512 ≤ fatSectors win)
  some {
    fsType := fmt
    nFats := win (ofs 16)
    nRootdir := ldWord win 17
    csize := clusterSectors win
    nFatent := nFatent
    fsize := fatSectors win
    volbase := bsect
    fatbase := fatbase
    dirbase :=
      if fmt = .fat32 then ldDword win 44
      else fatbase + fatSectors win * (win (ofs 16)).setWidth 32
    database := bsect + systemSectors win }

namespace Volume

def withLayout (v : Volume) (l : Layout) : Volume := { v with fs := { v.fs with toLayout := l } }

/-- `fs_type = 0`. -/
def invalidate (v : Volume) : Volume := v.withLayout { v.layout with fsType := .none }

/-- `check_fs`: 0 is a FAT boot sector, 2 another boot sector, 3 none, and 4 a disk error. -/
def checkFs (v : Volume) (sect : Dword) : Nat × Volume :=
  let v := { v with fs := { v.fs with wflag := false, winsect := 0xFFFFFFFF } }
  match v.moveWindow sect with
  | (.ok, v) =>
      if isVbr v.fs.win then (0, v)
      else (if ldWord v.fs.win 510 = 0xAA55 then 2 else 3, v)
  | (_, v) => (4, v)

/-- The loop of `find_volume` over the partitions of the boot record. -/
def findPartition : List Dword → Volume → Nat × Volume
  | [], v => (3, v)
  | p :: rest, v =>
      let (fmt, v) := if p ≠ 0 then v.checkFs p else (3, v)
      if 2 ≤ fmt ∧ rest ≠ [] then findPartition rest v else (fmt, v)

/-- `find_volume` with automatic search. -/
def findVolume (v : Volume) : Nat × Volume :=
  let (fmt, v) := v.checkFs 0
  if fmt ≠ 2 then (fmt, v)
  else findPartition ((List.range 4).map fun i => ldDword v.fs.win (446 + i * 16 + 8)) v

/-- What `mount_volume` reads of the FSInfo sector in the window. -/
def loadFsInfo (win : Sector) : Allocation :=
  if ldWord win 510 = 0xAA55 ∧ ldDword win 0 = 0x41615252 ∧ ldDword win 484 = 0x61417272 then
    ⟨0, ldDword win 492, ldDword win 488⟩
  else ⟨0, 0xFFFFFFFF, 0xFFFFFFFF⟩

/-- `mount_volume`, where `ready` is the state of the drive. -/
def mountVolume (ready : Bool) (v : Volume) : FResult × Volume :=
  if v.fs.fsType ≠ .none ∧ ready then (.ok, v) -- mounted already
  else
    let v := v.invalidate
    if ¬ ready then (.notReady, v)
    else
      let (fmt, v) := v.findVolume
      if fmt = 4 then (.diskErr, v)
      else if 2 ≤ fmt then (.noFilesystem, v)
      else
        let bsect := v.fs.winsect
        match bpbLayout v.fs.win bsect with
        | none => (.noFilesystem, v)
        | some l =>
            let a : Allocation := ⟨0x80, 0xFFFFFFFF, 0xFFFFFFFF⟩
            if l.fsType = .fat32 ∧ ldWord v.fs.win 48 = 1 then
              match v.moveWindow (bsect + 1) with
              | (.ok, v) => (.ok, (v.withLayout l).withAllocation (loadFsInfo v.fs.win))
              | (_, v) => (.ok, (v.withLayout l).withAllocation a)
            else (.ok, (v.withLayout l).withAllocation a)

end Volume

/-! ## Accepted volumes -/

theorem guard_bind {α : Type} {p : Prop} [Decidable p] {f : Unit → Option α} {a : α}
    (h : (guard p >>= f) = some a) : p ∧ f () = some a := by
  by_cases hp : p
  · rw [guard, if_pos hp] at h
    exact ⟨hp, h⟩
  · rw [guard, if_neg hp] at h
    cases (h : (none : Option α) = some a)

/-- The sectors of the volume have numbers, and so have those of its system area. -/
structure Numbered (win : Sector) (bsect : Dword) (l : Layout) : Prop where
  last : bsect.toNat + (totalSectors win).toNat < 2 ^ 32
  system : (ldWord win 14).toNat + l.nFats.toNat * l.fsize.toNat + l.nRootdir.toNat / 16 < 2 ^ 32

/-- The areas of a volume lie one behind the other. -/
structure Layout.Laid (l : Layout) : Prop where
  fats : l.FatsFit
  reserved : l.volbase < l.fatbase
  system : l.fatbase.toNat + l.nFats.toNat * l.fsize.toNat ≤ l.database.toNat
  cluster : ∃ k, l.csize.toNat = 2 ^ k
  data : l.database.toNat + l.csize.toNat * (l.nFatent.toNat - 2) < 2 ^ 32

section Accepted

variable {win : Sector} {bsect : Dword} {l : Layout}

/-- What `mount_volume` checks of a boot sector. -/
structure Accepted (win : Sector) (bsect : Dword) (l : Layout) : Prop where
  count : win (ofs 16) = 1 ∨ win (ofs 16) = 2
  cluster : clusterSectors win ≠ 0 ∧ clusterSectors win &&& (clusterSectors win - 1) = 0
  reserved : ldWord win 14 ≠ 0
  system : systemSectors win ≤ totalSectors win
  clusters : clusterCount win ≠ 0
  type : fatType (clusterCount win) ≠ .none
  table : (neededBytes (fatType (clusterCount win)) (clusterCount win + 2) + 511) / 512 ≤
    fatSectors win
  fields : l.fsType = fatType (clusterCount win) ∧ l.nFats = win (ofs 16) ∧
    l.nRootdir = ldWord win 17 ∧ l.csize = clusterSectors win ∧
    l.nFatent = clusterCount win + 2 ∧ l.fsize = fatSectors win ∧ l.volbase = bsect ∧
    l.fatbase = bsect + (ldWord win 14).setWidth 32 ∧ l.database = bsect + systemSectors win

theorem bpbLayout_accepted (h : bpbLayout win bsect = some l) : Accepted win bsect l := by
  obtain ⟨-, h⟩ := guard_bind h
  obtain ⟨hcount, h⟩ := guard_bind h
  obtain ⟨hcluster, h⟩ := guard_bind h
  obtain ⟨-, h⟩ := guard_bind h
  obtain ⟨hreserved, h⟩ := guard_bind h
  obtain ⟨hsystem, h⟩ := guard_bind h
  obtain ⟨hclusters, h⟩ := guard_bind h
  obtain ⟨htype, h⟩ := guard_bind h
  obtain ⟨-, h⟩ := guard_bind h
  obtain ⟨htable, h⟩ := guard_bind h
  cases h
  exact ⟨hcount, hcluster, hreserved, hsystem, hclusters, htype, htable,
    rfl, rfl, rfl, rfl, rfl, rfl, rfl, rfl, rfl⟩

/-- The type is chosen by the number of clusters, which is then small. -/
theorem fatType_limit {n : Dword} (h : fatType n ≠ .none) :
    n.toNat + 2 ≤ (fatType n).maxEntries ∧ n.toNat ≤ 0x0FFFFFF5 := by
  unfold fatType at h ⊢
  split_ifs at h ⊢ with h12 h16 h32
  · have hle : n.toNat ≤ 0xFF5 := h12
    exact ⟨Nat.add_le_add_right hle 2, hle.trans (by decide)⟩
  · have hle : n.toNat ≤ 0xFFF5 := h16
    exact ⟨Nat.add_le_add_right hle 2, hle.trans (by decide)⟩
  · have hle : n.toNat ≤ 0x0FFFFFF5 := h32
    exact ⟨Nat.add_le_add_right hle 2, hle⟩
  · exact absurd rfl h

/-- The computation of the needed bytes does not wrap. -/
theorem neededBytes_toNat {f : FsType} {n : Dword} (hf : f ≠ .none) (hn : n.toNat ≤ f.maxEntries) :
    (neededBytes f n).toNat = f.tableSize n.toNat := by
  cases f with
  | none => exact absurd rfl hf
  | fat12 =>
      have hle : n.toNat ≤ 0xFF7 := hn
      have hthree : (3 : Dword).toNat = 3 := rfl
      have htwo : (2 : Dword).toNat = 2 := rfl
      have hone : (n &&& 1).toNat = n.toNat % 2 := by
        rw [BitVec.toNat_and]
        exact Nat.and_one_is_mod _
      have hbytes : neededBytes .fat12 n = n * 3 / 2 + (n &&& 1) := rfl
      rw [hbytes, FsType.tableSize, BitVec.toNat_add, BitVec.toNat_udiv, BitVec.toNat_mul,
        hthree, htwo, hone, Nat.mod_eq_of_lt (show n.toNat * 3 < 2 ^ 32 by omega)]
      omega
  | fat16 =>
      have hle : n.toNat ≤ 0xFFF7 := hn
      have htwo : (2 : Dword).toNat = 2 := rfl
      rw [neededBytes, FsType.tableSize, BitVec.toNat_mul, htwo]
      omega
  | fat32 =>
      have hle : n.toNat ≤ 0x0FFFFFF7 := hn
      have hfour : (4 : Dword).toNat = 4 := rfl
      rw [neededBytes, FsType.tableSize, BitVec.toNat_mul, hfour]
      omega

/-- The FAT of a volume that is accepted has room for the entry of every cluster. -/
theorem Accepted.covers (h : Accepted win bsect l) : l.Covers := by
  obtain ⟨htype, -, -, -, hentries, hsize, -⟩ := h.fields
  obtain ⟨hmax, hsmall⟩ := fatType_limit h.type
  have hclusters : (clusterCount win).toNat ≠ 0 := fun hzero =>
    h.clusters (BitVec.eq_of_toNat_eq hzero)
  have hcount : l.nFatent.toNat = (clusterCount win).toNat + 2 := by
    have htwo : (2 : Dword).toNat = 2 := rfl
    rw [hentries, BitVec.toNat_add, htwo]
    omega
  refine ⟨htype ▸ h.type, by omega, by rw [hcount, htype]; exact hmax, ?_⟩
  have hneeded := neededBytes_toNat h.type (n := l.nFatent) (by rw [hcount]; exact hmax)
  have htable := h.table
  rw [← hentries] at htable
  have hround : (511 : Dword).toNat = 511 := rfl
  have hsector : (512 : Dword).toNat = 512 := rfl
  rw [BitVec.le_def, BitVec.toNat_udiv, BitVec.toNat_add, hneeded, hround, hsector] at htable
  have hbound : (fatType (clusterCount win)).tableSize l.nFatent.toNat ≤ 0x0FFFFFF7 * 4 := by
    rw [hcount]
    cases fatType (clusterCount win) <;> simp only [FsType.tableSize] <;> omega
  rw [htype, Layout.fatBytes, hsize]
  omega

theorem pow_two_of_byte (b : BitVec 8) (hzero : b.setWidth 16 ≠ 0)
    (hpow : b.setWidth 16 &&& (b.setWidth 16 - 1) = 0) :
    ∃ k < 8, (b.setWidth 16).toNat = 2 ^ k := by
  revert b
  decide +kernel

/-- The areas of an accepted volume lie one behind the other, if its sectors have numbers. -/
theorem Accepted.laid (h : Accepted win bsect l) (hnumbered : Numbered win bsect l) : l.Laid := by
  obtain ⟨-, hcount, hroot, hcsize, hentries, hsize, hvolbase, hfatbase, hdatabase⟩ := h.fields
  obtain ⟨hlast, hsystem⟩ := hnumbered
  obtain ⟨-, hsmall⟩ := fatType_limit h.type
  have hnrsv : 1 ≤ (ldWord win 14).toNat := Nat.one_le_iff_ne_zero.mpr fun hzero =>
    h.reserved (BitVec.eq_of_toNat_eq hzero)
  have hpos : 1 ≤ l.nFats.toNat := by
    rw [hcount]
    rcases h.count with hone | htwo
    · rw [hone]; decide
    · rw [htwo]; decide
  have hword : ((ldWord win 14).setWidth 32).toNat = (ldWord win 14).toNat :=
    BitVec.toNat_setWidth_of_le (by decide)
  have hsystemSectors : (systemSectors win).toNat =
      (ldWord win 14).toNat + l.nFats.toNat * l.fsize.toNat + l.nRootdir.toNat / 16 := by
    have hfats : ((win (ofs 16)).setWidth 32).toNat = l.nFats.toNat := by
      rw [hcount]
      exact BitVec.toNat_setWidth_of_le (by decide)
    have hdir : ((ldWord win 17 / 16).setWidth 32).toNat = l.nRootdir.toNat / 16 := by
      rw [hroot, BitVec.toNat_setWidth_of_le (by decide), BitVec.toNat_udiv]
      rfl
    rw [systemSectors, BitVec.toNat_add, BitVec.toNat_add, BitVec.toNat_mul, hword, hfats, hdir,
      ← hsize, Nat.mul_comm l.fsize.toNat]
    generalize l.nFats.toNat * l.fsize.toNat = fats at hsystem ⊢
    omega
  -- None of the sums of the sector numbers wraps around, by the checks of `check_fs`.
  have hsys : (systemSectors win).toNat ≤ (totalSectors win).toNat := h.system
  have hfirst : l.fatbase.toNat = bsect.toNat + (ldWord win 14).toNat := by
    rw [hfatbase, BitVec.toNat_add, hword]
    generalize l.nFats.toNat * l.fsize.toNat = fats at hsystemSectors
    omega
  have hdata : l.database.toNat = bsect.toNat + (systemSectors win).toNat := by
    rw [hdatabase, BitVec.toNat_add]
    omega
  have hclusters : l.nFatent.toNat - 2 = (clusterCount win).toNat := by
    have htwo : (2 : Dword).toNat = 2 := rfl
    rw [hentries, BitVec.toNat_add, htwo]
    omega
  obtain ⟨k, -, hk⟩ := pow_two_of_byte (win (ofs 13)) h.cluster.1 h.cluster.2
  have hspan : l.csize.toNat * (clusterCount win).toNat ≤
      (totalSectors win).toNat - (systemSectors win).toNat := by
    have hwide : ((clusterSectors win).setWidth 32).toNat = l.csize.toNat := by
      rw [hcsize]
      exact BitVec.toNat_setWidth_of_le (by decide)
    rw [clusterCount, BitVec.toNat_udiv, hwide, BitVec.toNat_sub_of_le h.system]
    exact Nat.mul_div_le _ _
  refine ⟨⟨by rw [hcount]; exact h.count, ?_⟩, ?_, ?_, ⟨k, by rw [hcsize]; exact hk⟩, ?_⟩
  · rw [hfirst]
    omega
  · rw [hvolbase, BitVec.lt_def, hfirst]
    omega
  · rw [hfirst, hdata, hsystemSectors]
    omega
  · rw [hdata, hclusters]
    omega

end Accepted

/-! ## Mounting -/

namespace Volume

variable {v v' : Volume} {s : Dword}

/-- The window is not dirty, and holds its sector unless it is invalid. -/
structure Clean (v : Volume) : Prop where
  flag : v.fs.wflag = false
  window : v.fs.winsect ≠ 0xFFFFFFFF → v.fs.win = v.drive.sectors v.fs.winsect

/-- What the functions that look for a boot sector do: the window has moved. -/
structure Looks (v v' : Volume) : Prop where
  clean : v'.Clean
  drive : v'.drive = v.drive
  layout : v'.layout = v.layout
  allocation : v'.allocation = v.allocation

theorem Clean.looks (h : v.Clean) : v.Looks v := ⟨h, rfl, rfl, rfl⟩

theorem Looks.trans {v'' : Volume} (h : v.Looks v') (h' : v'.Looks v'') : v.Looks v'' :=
  ⟨h'.clean, h'.drive.trans h.drive, h'.layout.trans h.layout, h'.allocation.trans h.allocation⟩

theorem Clean.moveWindow (h : v.Clean) (s : Dword) :
    v.Looks (v.moveWindow s).2 ∧
      ((v.moveWindow s).1 = .ok → (v.moveWindow s).2.fs.winsect = s) := by
  have hsync : v.syncWindow = (.ok, v) := by
    rw [syncWindow, if_neg (h.flag ▸ Bool.false_ne_true)]
  by_cases hsame : s = v.fs.winsect
  · rw [Volume.moveWindow, if_neg (not_not_intro hsame)]
    exact ⟨h.looks, fun _ => hsame.symm⟩
  · rw [Volume.moveWindow, if_pos hsame, hsync]
    by_cases hread : v.drive.readable s 1
    · obtain ⟨buff, hbuff, hwin⟩ := Drive.diskRead_one hread
      simp only [hbuff]
      exact ⟨⟨⟨h.flag, fun _ => hwin⟩, rfl, rfl, rfl⟩, fun _ => trivial⟩
    · simp only [Drive.diskRead, if_neg hread]
      refine ⟨⟨⟨h.flag, fun hvalid => absurd rfl hvalid⟩, rfl, rfl, rfl⟩, fun hok => ?_⟩
      cases hok

/-- `check_fs` begins with an invalid window, whatever was in it. -/
theorem checkFs_spec (v : Volume) (s : Dword) :
    v.Looks (v.checkFs s).2 ∧ ((v.checkFs s).1 < 4 → (v.checkFs s).2.fs.winsect = s) := by
  generalize hstart : ({ v with fs := { v.fs with wflag := false, winsect := 0xFFFFFFFF } } :
    Volume) = v₀
  have hclean : v₀.Clean := by
    subst hstart
    exact ⟨rfl, fun hvalid => absurd rfl hvalid⟩
  have hlooks : v.Looks v₀ := by
    refine ⟨hclean, ?_, ?_, ?_⟩ <;> subst hstart <;> rfl
  obtain ⟨hmove, hsect⟩ := hclean.moveWindow s
  have hdef : v.checkFs s = match v₀.moveWindow s with
      | (.ok, v) =>
          if isVbr v.fs.win then (0, v)
          else (if ldWord v.fs.win 510 = 0xAA55 then 2 else 3, v)
      | (_, v) => (4, v) := by
    subst hstart
    rfl
  rw [hdef]
  rcases hresult : v₀.moveWindow s with ⟨res, v₁⟩
  rw [hresult] at hmove hsect
  cases res with
  | ok =>
      refine ⟨?_, ?_⟩
      · dsimp only
        split_ifs <;> exact hlooks.trans hmove
      · dsimp only
        split_ifs <;> exact fun _ => hsect rfl
  | _ => exact ⟨hlooks.trans hmove, fun hlt => absurd hlt (lt_irrefl 4)⟩

theorem findPartition_spec (h : v.Clean) (table : List Dword) :
    v.Looks (findPartition table v).2 := by
  induction table generalizing v with
  | nil => exact h.looks
  | cons p rest ih =>
      rw [findPartition]
      generalize hfound : (if p ≠ 0 then v.checkFs p else (3, v)) = found
      have hlooks : v.Looks found.2 := by
        subst hfound
        split_ifs
        · exact (v.checkFs_spec p).1
        · exact h.looks
      dsimp only
      split_ifs
      · exact hlooks.trans (ih hlooks.clean)
      · exact hlooks

theorem findVolume_spec (v : Volume) : v.Looks v.findVolume.2 := by
  obtain ⟨hlooks, -⟩ := v.checkFs_spec 0
  rw [findVolume]
  dsimp only
  split_ifs
  · exact hlooks
  · exact hlooks.trans (findPartition_spec hlooks.clean _)

/-- A volume that is mounted anew has the layout of its boot sector, and the drive has not been
written. -/
theorem mountVolume_spec {ready : Bool} (hnone : v.fs.fsType = .none)
    (h : v.mountVolume ready = (.ok, v')) :
    v'.Clean ∧ v'.drive = v.drive ∧ ∃ win bsect, bpbLayout win bsect = some v'.layout ∧
      (bsect ≠ 0xFFFFFFFF → win = v.drive.sectors bsect) := by
  rw [mountVolume, if_neg fun hmounted => hmounted.1 hnone] at h
  dsimp only at h
  by_cases hready : ready = true
  case neg =>
    rw [if_pos hready] at h
    cases congrArg Prod.fst h
  rw [if_neg (not_not_intro hready)] at h
  by_cases hfour : v.invalidate.findVolume.1 = 4
  case pos =>
    rw [if_pos hfour] at h
    cases congrArg Prod.fst h
  rw [if_neg hfour] at h
  by_cases htwo : 2 ≤ v.invalidate.findVolume.1
  case pos =>
    rw [if_pos htwo] at h
    cases congrArg Prod.fst h
  rw [if_neg htwo] at h
  have hlooks := v.invalidate.findVolume_spec
  generalize v.invalidate.findVolume.2 = v₁ at h hlooks
  cases hlayout : bpbLayout v₁.fs.win v₁.fs.winsect with
  | none =>
      rw [hlayout] at h
      cases congrArg Prod.fst h
  | some l =>
      rw [hlayout] at h
      have hwin : v₁.fs.winsect ≠ 0xFFFFFFFF → v₁.fs.win = v.drive.sectors v₁.fs.winsect := by
        intro hvalid
        rw [hlooks.clean.window hvalid, hlooks.drive]
        rfl
      -- FSInfo is read into the window after the layout is fixed.
      have hresult : ∀ v₂ a, v₁.Looks v₂ → v' = (v₂.withLayout l).withAllocation a →
          v'.Clean ∧ v'.drive = v.drive ∧ ∃ win bsect, bpbLayout win bsect = some v'.layout ∧
            (bsect ≠ 0xFFFFFFFF → win = v.drive.sectors bsect) := by
        rintro v₂ a hmove rfl
        refine ⟨⟨hmove.clean.flag, hmove.clean.window⟩, hmove.drive.trans hlooks.drive,
          v₁.fs.win, v₁.fs.winsect, hlayout, hwin⟩
      dsimp only at h
      split_ifs at h with hinfo
      · obtain ⟨hmove, -⟩ := hlooks.clean.moveWindow (v₁.fs.winsect + 1)
        rcases hmoved : v₁.moveWindow (v₁.fs.winsect + 1) with ⟨res, v₂⟩
        rw [hmoved] at h hmove
        cases res <;> exact hresult v₂ _ hmove (congrArg Prod.snd h).symm
      · exact hresult v₁ _ hlooks.clean.looks (congrArg Prod.snd h).symm

/-- Whatever the drive holds, a volume that is mounted has a FAT with room for the entry of every
cluster. If its sectors have numbers, the areas lie one behind the other, and a drive that
reaches the FATs and holds them twice is in a state that all functions of the FAT keep. -/
theorem mountVolume_sound {ready : Bool} (hnone : v.fs.fsType = .none)
    (h : v.mountVolume ready = (.ok, v')) :
    v'.layout.Covers ∧ ∃ win bsect, bpbLayout win bsect = some v'.layout ∧
      (bsect ≠ 0xFFFFFFFF → win = v.drive.sectors bsect) ∧
      (Numbered win bsect v'.layout → v'.layout.Laid ∧
        ((∀ s, v'.layout.InFat s ∨ v'.layout.InCopy s → v.drive.Reaches s) →
          (∀ s, v.drive.sectors (v'.layout.home s) = v.drive.sectors s) → v'.Sound)) := by
  obtain ⟨hclean, hdrive, win, bsect, hlayout, hwin⟩ := mountVolume_spec hnone h
  have haccepted := bpbLayout_accepted hlayout
  refine ⟨haccepted.covers, win, bsect, hlayout, hwin, fun hnumbered => ?_⟩
  have hlaid := haccepted.laid hnumbered
  refine ⟨hlaid, fun hreach hcopies =>
    ⟨hlaid.fats, hdrive ▸ hreach, fun _ => hclean.window, ?_, ?_⟩⟩
  · intro hdirty
    rw [hclean.flag] at hdirty
    exact absurd hdirty Bool.false_ne_true
  · intro s
    rw [image_of_clean hclean.flag, hdrive]
    exact hcopies s

/-- The boot sector of the image that the kernel is shipped with, as far as it is read. -/
def shippedBootSector : Sector := fun i =>
  match i.val with
  | 0 => 0xEB
  | 12 => 0x02
  | 13 => 0x04
  | 14 => 0x04
  | 16 => 0x02
  | 18 => 0x02
  | 20 => 0x40
  | 22 => 0x0C
  | 510 => 0x55
  | 511 => 0xAA
  | _ => 0

/-- The filesystem object before the first access, with this image. -/
def shipped : Volume where
  fs := { emptyVolume.fs with fsType := .none }
  drive := { emptyVolume.drive with
    sectors := fun s => if s = 0 then shippedBootSector else fun _ => 0 }

theorem mountVolume_sound_shipped :
    (shipped.mountVolume true).2.layout.Covers ∧
      ∃ win bsect, bpbLayout win bsect = some (shipped.mountVolume true).2.layout ∧
        (bsect ≠ 0xFFFFFFFF → win = shipped.drive.sectors bsect) ∧
        (Numbered win bsect (shipped.mountVolume true).2.layout →
          (shipped.mountVolume true).2.layout.Laid ∧
          ((∀ s, (shipped.mountVolume true).2.layout.InFat s ∨
              (shipped.mountVolume true).2.layout.InCopy s → shipped.drive.Reaches s) →
            (∀ s, shipped.drive.sectors ((shipped.mountVolume true).2.layout.home s) =
              shipped.drive.sectors s) → (shipped.mountVolume true).2.Sound)) :=
  mountVolume_sound rfl (Prod.ext (by decide +kernel) rfl)

end Volume

end Senob.Fat
