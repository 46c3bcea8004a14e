import Senob.Fat.Table

/-!
# Reading and writing FAT entries

`get_fat` and `put_fat` through the window. On a mounted volume both succeed for every cluster
of the volume: the one reads the entry of the image, the other changes this entry of both FATs
and nothing else on the volume.
-/

namespace Senob.Fat

open Libk (FResult)

def ldWord (p : Sector) (n : Nat) : BitVec 16 := p (ofs (n + 1)) ++ p (ofs n)

def ldDword (p : Sector) (n : Nat) : Dword :=
  p (ofs (n + 3)) ++ p (ofs (n + 2)) ++ p (ofs (n + 1)) ++ p (ofs n)

def stWord (p : Sector) (n : Nat) (val : BitVec 16) : Sector :=
  Function.update (Function.update p (ofs n) (val.setWidth 8)) (ofs (n + 1))
    ((val >>> 8).setWidth 8)

def stDword (p : Sector) (n : Nat) (val : Dword) : Sector :=
  Function.update (Function.update (Function.update (Function.update p
    (ofs n) (val.setWidth 8)) (ofs (n + 1)) ((val >>> 8).setWidth 8))
    (ofs (n + 2)) ((val >>> 16).setWidth 8)) (ofs (n + 3)) ((val >>> 24).setWidth 8)

namespace Volume

/-- `get_fat`: 0xFFFFFFFF is a disk error, 1 an internal error. -/
def getFat (v : Volume) (clst : Dword) : Dword × Volume :=
  if clst < 2 ∨ v.fs.nFatent ≤ clst then (1, v)
  else
    match v.fs.fsType with
    | .fat12 =>
        let bc := clst + clst / 2
        match v.moveWindow (v.fs.fatbase + bc / 512) with
        | (.ok, v) =>
            let wc := v.fs.win (ofs bc.toNat) -- first byte of the entry
            let bc := bc + 1
            match v.moveWindow (v.fs.fatbase + bc / 512) with
            | (.ok, v) =>
                (unpack12 (clst.toNat % 2 = 1) (v.fs.win (ofs bc.toNat) ++ wc), v)
            | (_, v) => (0xFFFFFFFF, v)
        | (_, v) => (0xFFFFFFFF, v)
    | .fat16 =>
        match v.moveWindow (v.fs.fatbase + clst / 256) with
        | (.ok, v) => ((ldWord v.fs.win (clst * 2).toNat).setWidth 32, v)
        | (_, v) => (0xFFFFFFFF, v)
    | .fat32 =>
        match v.moveWindow (v.fs.fatbase + clst / 128) with
        | (.ok, v) => (ldDword v.fs.win (clst * 4).toNat &&& 0x0FFFFFFF, v)
        | (_, v) => (0xFFFFFFFF, v)
    | .none => (1, v)

/-- `put_fat`. -/
def putFat (v : Volume) (clst val : Dword) : FResult × Volume :=
  if 2 ≤ clst ∧ clst < v.fs.nFatent then
    match v.fs.fsType with
    | .fat12 =>
        let bc := clst + clst / 2
        match v.moveWindow (v.fs.fatbase + bc / 512) with
        | (.ok, v) =>
            let p := ofs bc.toNat
            let v := v.store (Function.update v.fs.win p
              (pack12First (clst.toNat % 2 = 1) (v.fs.win p) val))
            let bc := bc + 1
            match v.moveWindow (v.fs.fatbase + bc / 512) with
            | (.ok, v) =>
                let p := ofs bc.toNat
                (.ok, v.store (Function.update v.fs.win p
                  (pack12Second (clst.toNat % 2 = 1) (v.fs.win p) val)))
            | (res, v) => (res, v)
        | (res, v) => (res, v)
    | .fat16 =>
        match v.moveWindow (v.fs.fatbase + clst / 256) with
        | (.ok, v) => (.ok, v.store (stWord v.fs.win (clst * 2).toNat (val.setWidth 16)))
        | (res, v) => (res, v)
    | .fat32 =>
        match v.moveWindow (v.fs.fatbase + clst / 128) with
        | (.ok, v) =>
            let val := (val &&& 0x0FFFFFFF) |||
              (ldDword v.fs.win (clst * 4).toNat &&& 0xF0000000)
            (.ok, v.store (stDword v.fs.win (clst * 4).toNat val))
        | (res, v) => (res, v)
    | .none => (.intErr, v)
  else (.intErr, v)

end Volume

/-! ## The bytes of the first FAT -/

/-- The largest number of entries that each type is chosen for. -/
def FsType.maxEntries : FsType → Nat
  | .none => 0
  | .fat12 => 0xFF7
  | .fat16 => 0xFFF7
  | .fat32 => 0x0FFFFFF7

/-- `szbfat`: the bytes that so many entries need. -/
def FsType.tableSize : FsType → Nat → Nat
  | .none, _ => 0
  | .fat12, n => n * 3 / 2 + n % 2
  | .fat16, n => n * 2
  | .fat32, n => n * 4

/-! ## Words in the window -/

section Words

variable {win : Sector} {t : Table} {i k n : Nat} {b : BitVec 8}

/-- The window holds the bytes of a table that lie in the sector of byte `i`. -/
def HoldsSector (win : Sector) (t : Table) (i : Nat) : Prop :=
  ∀ j, j / 512 = i / 512 → win (ofs j) = t j

theorem HoldsSector.update (h : HoldsSector win t i) (hk : k / 512 = i / 512) (b : BitVec 8) :
    HoldsSector (Function.update win (ofs k) b) (Function.update t k b) i := by
  intro j hj
  by_cases hjk : j = k
  · rw [hjk, Function.update_self, Function.update_self]
  · have hofs : ofs j ≠ ofs k := by
      intro heq
      have hmod : j % 512 = k % 512 := congrArg Fin.val heq
      omega
    rw [Function.update_of_ne hofs, Function.update_of_ne hjk, h j hj]

theorem HoldsSector.congr (h : HoldsSector win t i) (hk : k / 512 = i / 512) :
    HoldsSector win t k := by
  intro j hj
  exact h j (hj.trans hk)

theorem HoldsSector.ldWord (h : HoldsSector win t n) (hn : n % 512 + 1 < 512) :
    Fat.ldWord win n = t.word n := by
  rw [Fat.ldWord, Table.word, h n rfl, h (n + 1) (by omega)]

theorem HoldsSector.ldDword (h : HoldsSector win t n) (hn : n % 512 + 3 < 512) :
    Fat.ldDword win n = t.dword n := by
  rw [Fat.ldDword, Table.dword, h n rfl, h (n + 1) (by omega), h (n + 2) (by omega),
    h (n + 3) (by omega)]

theorem HoldsSector.stWord (h : HoldsSector win t n) (hn : n % 512 + 1 < 512)
    (val : BitVec 16) : HoldsSector (Fat.stWord win n val) (t.setWord n val) n :=
  (h.update rfl _).update (by omega) _

theorem HoldsSector.stDword (h : HoldsSector win t n) (hn : n % 512 + 3 < 512) (val : Dword) :
    HoldsSector (Fat.stDword win n val) (t.setDword n val) n :=
  (((h.update rfl _).update (by omega) _).update (by omega) _).update (by omega) _

end Words

/-! ## The sectors of the first FAT -/

namespace Layout

variable {l : Layout} {i j : Nat}

/-- The cluster has an entry and belongs to the data area. -/
def Valid (l : Layout) (clst : Dword) : Prop := 2 ≤ clst ∧ clst < l.nFatent

instance (clst : Dword) : Decidable (l.Valid clst) := inferInstanceAs (Decidable (_ ∧ _))

def fatBytes (l : Layout) : Nat := l.fsize.toNat * 512

/-- The sector of the first FAT that holds a byte of it. -/
def fatSector (l : Layout) (i : Nat) : Dword := l.fatbase + BitVec.ofNat 32 (i / 512)

/-- The FAT has room for the entry of every cluster. -/
structure Covers (l : Layout) : Prop where
  mounted : l.fsType ≠ .none
  clusters : 3 ≤ l.nFatent.toNat
  limit : l.nFatent.toNat ≤ l.fsType.maxEntries
  table : l.fsType.tableSize l.nFatent.toNat ≤ l.fatBytes

theorem fatSector_toNat (l : Layout) (bc : Dword) :
    l.fatSector bc.toNat = l.fatbase + bc / 512 := by
  unfold fatSector
  congr 1
  apply BitVec.eq_of_toNat_eq
  have hbc := bc.isLt
  rw [BitVec.toNat_udiv, BitVec.toNat_ofNat, Nat.mod_eq_of_lt (by omega)]
  rfl

theorem FatsFit.fatSector (h : l.FatsFit) (hi : i < l.fatBytes) :
    (l.fatSector i).toNat = l.fatbase.toNat + i / 512 ∧ i / 512 < l.fsize.toNat ∧
      l.fatbase.toNat + l.fsize.toNat < 2 ^ 32 := by
  unfold fatBytes at hi
  have hfirst : l.fatbase.toNat + l.fsize.toNat < 2 ^ 32 := by
    have hbound := h.bound
    rcases h.count with hone | htwo
    · rw [hone, show (1 : BitVec 8).toNat = 1 from rfl, Nat.one_mul] at hbound
      exact hbound
    · rw [htwo, show (2 : BitVec 8).toNat = 2 from rfl] at hbound
      omega
  refine ⟨?_, by omega, hfirst⟩
  rw [Layout.fatSector, BitVec.toNat_add, BitVec.toNat_ofNat]
  omega

theorem FatsFit.inFat (h : l.FatsFit) (hi : i < l.fatBytes) : l.InFat (l.fatSector i) := by
  obtain ⟨hsector, hlt, hfirst⟩ := h.fatSector hi
  rw [InFat, BitVec.lt_def, BitVec.toNat_sub, hsector]
  omega

theorem FatsFit.fatSector_valid (h : l.FatsFit) (hi : i < l.fatBytes) :
    l.fatSector i ≠ 0xFFFFFFFF := by
  obtain ⟨hsector, hlt, hfirst⟩ := h.fatSector hi
  intro hinvalid
  rw [hinvalid] at hsector
  have hlast : (0xFFFFFFFF : Dword).toNat = 2 ^ 32 - 1 := rfl
  omega

theorem FatsFit.fatSector_inj (h : l.FatsFit) (hi : i < l.fatBytes) (hj : j < l.fatBytes) :
    l.fatSector i = l.fatSector j ↔ i / 512 = j / 512 := by
  constructor
  · intro heq
    have hnat := congrArg BitVec.toNat heq
    rw [(h.fatSector hi).1, (h.fatSector hj).1] at hnat
    omega
  · intro heq
    rw [Layout.fatSector, Layout.fatSector, heq]

end Layout

namespace Volume

variable {v v' v'' : Volume} {i j : Nat} {win : Sector} {t : Table} {clst val : Dword}

/-- The first FAT of the image. -/
def fat (v : Volume) : Table := fun i =>
  if i < v.layout.fatBytes then v.image (v.layout.fatSector i) (ofs i) else 0

/-- What the FAT says of a cluster. -/
def entry (v : Volume) (clst : Dword) : Dword := v.fs.fsType.entry v.fat clst.toNat

/-- Nothing on the volume but the FATs has changed. -/
structure Changes (v v' : Volume) : Prop where
  sound : v'.Sound
  layout : v'.layout = v.layout
  bounds : v'.drive.toBounds = v.drive.toBounds
  stays : v.Stays v'
  data : ∀ s, ¬ v.layout.InFat s → ¬ v.layout.InCopy s → v'.image s = v.image s

/-- Nothing but the FATs has changed, and nothing in the filesystem object but its window. -/
structure Edits (v v' : Volume) : Prop extends v.Changes v' where
  allocation : v'.allocation = v.allocation

theorem Keeps.edits (h : v.Keeps v') : v.Edits v' :=
  ⟨⟨h.sound, h.layout, h.bounds, h.stays, fun _ _ _ => by rw [h.image]⟩, h.allocation⟩

theorem Changes.trans (h : v.Changes v') (h' : v'.Changes v'') : v.Changes v'' := by
  refine ⟨h'.sound, h'.layout.trans h.layout, h'.bounds.trans h.bounds,
    h.stays.trans h.layout h'.stays, fun s hfat hcopy => ?_⟩
  rw [h'.data s (h.layout ▸ hfat) (h.layout ▸ hcopy), h.data s hfat hcopy]

theorem Edits.trans (h : v.Edits v') (h' : v'.Edits v'') : v.Edits v'' :=
  ⟨h.toChanges.trans h'.toChanges, h'.allocation.trans h.allocation⟩

/-- The entries are the bytes of the first FAT, and nothing else. -/
theorem entry_congr (hlayout : v'.layout = v.layout) (hfat : v'.fat = v.fat) :
    v'.entry = v.entry := by
  funext clst
  have htype : v'.fs.fsType = v.fs.fsType := congrArg Layout.fsType hlayout
  rw [Volume.entry, Volume.entry, htype, hfat]

theorem Keeps.fat (h : v.Keeps v') : v'.fat = v.fat := by
  funext i
  rw [Volume.fat, Volume.fat, h.layout, h.image]

theorem Keeps.entry (h : v.Keeps v') : v'.entry = v.entry := entry_congr h.layout h.fat

/-- The window moved to the sector of a byte of the FAT holds all bytes of this sector. -/
theorem Sound.moveWindow_fat (h : v.Sound) (hi : i < v.layout.fatBytes) :
    ∃ v', v.moveWindow (v.layout.fatSector i) = (.ok, v') ∧ v.Keeps v' ∧
      v'.fs.winsect = v.layout.fatSector i ∧ HoldsSector v'.fs.win v.fat i := by
  have hin := h.fits.inFat hi
  obtain ⟨v', hmove, hrefills, hsect, hwin⟩ :=
    h.moveWindow_spec (h.reachable _ (.inl hin)).1 (h.fits.fatSector_valid hi)
  refine ⟨v', hmove, ⟨hrefills, .inr (hsect ▸ hin)⟩, hsect, fun j hj => ?_⟩
  have hbytes : j < v.layout.fatBytes := by
    unfold Layout.fatBytes at hi ⊢
    omega
  rw [Volume.fat, if_pos hbytes, hwin, Layout.fatSector, Layout.fatSector, hj]

/-- New contents of a sector of the FAT are new bytes of the FAT. -/
theorem Sound.store_fat (h : v.Sound) (hi : i < v.layout.fatBytes)
    (hsect : v.fs.winsect = v.layout.fatSector i)
    (hinside : HoldsSector win t i)
    (houtside : ∀ j, j / 512 ≠ i / 512 → t j = v.fat j) :
    v.Edits (v.store win) ∧ (v.store win).fat = t := by
  have hin := h.fits.inFat hi
  have hcopy := h.fits.not_inCopy hin
  obtain ⟨hsound, himage⟩ :=
    h.store_spec (hsect ▸ h.reachable _ (.inl hin)) (hsect ▸ hcopy) win
  refine ⟨⟨⟨hsound, rfl, rfl, .inl rfl, fun s hfat hnot => ?_⟩, rfl⟩, ?_⟩
  · rw [himage, if_neg]
    rw [Layout.home_of_not_inCopy hnot, hsect]
    rintro rfl
    exact hfat hin
  · funext j
    by_cases hj : j < v.layout.fatBytes
    · have hhome := Layout.home_of_not_inCopy (h.fits.not_inCopy (h.fits.inFat hj))
      have hfat : (v.store win).fat j = (v.store win).image (v.layout.fatSector j) (ofs j) :=
        if_pos hj
      rw [hfat, himage, hhome, hsect]
      by_cases hsame : j / 512 = i / 512
      · rw [if_pos ((h.fits.fatSector_inj hj hi).mpr hsame), hinside j hsame]
      · rw [if_neg (mt (h.fits.fatSector_inj hj hi).mp hsame), houtside j hsame, Volume.fat,
          if_pos hj]
    · have hother : j / 512 ≠ i / 512 := by
        unfold Layout.fatBytes at hi hj
        omega
      rw [houtside j hother, Volume.fat, Volume.fat, if_neg hj]
      exact if_neg hj

end Volume

/-! ## The two functions -/

namespace Volume

variable {v : Volume} {clst val : Dword}

theorem getFat_of_valid (h : v.layout.Valid clst) : ¬ (clst < 2 ∨ v.fs.nFatent ≤ clst) := by
  rintro (hlow | hhigh)
  · exact BitVec.not_lt.mpr h.1 hlow
  · exact BitVec.not_le.mpr h.2 hhigh

/-- The bytes of a FAT12 entry. -/
theorem entry12_toNat (h : clst.toNat < 0xFF7) :
    (clst + clst / 2).toNat = clst.toNat + clst.toNat / 2 ∧
      (clst + clst / 2 + 1).toNat = clst.toNat + clst.toNat / 2 + 1 := by
  have htwo : (2 : Dword).toNat = 2 := rfl
  have hone : (1 : Dword).toNat = 1 := rfl
  rw [BitVec.toNat_add (clst + clst / 2), BitVec.toNat_add, BitVec.toNat_udiv, htwo, hone]
  omega

/-- The bytes of a FAT16 entry, and their sector. -/
theorem entry16_toNat (h : clst.toNat < 0xFFF7) :
    (clst * 2).toNat = clst.toNat * 2 ∧ clst * 2 / 512 = clst / 256 := by
  have hbytes : (clst * 2).toNat = clst.toNat * 2 := by
    have htwo : (2 : Dword).toNat = 2 := rfl
    rw [BitVec.toNat_mul, htwo]
    omega
  refine ⟨hbytes, BitVec.eq_of_toNat_eq ?_⟩
  have hsector : (512 : Dword).toNat = 512 := rfl
  have hentries : (256 : Dword).toNat = 256 := rfl
  rw [BitVec.toNat_udiv, BitVec.toNat_udiv, hbytes, hsector, hentries]
  omega

/-- The bytes of a FAT32 entry, and their sector. -/
theorem entry32_toNat (h : clst.toNat < 0x0FFFFFF7) :
    (clst * 4).toNat = clst.toNat * 4 ∧ clst * 4 / 512 = clst / 128 := by
  have hbytes : (clst * 4).toNat = clst.toNat * 4 := by
    have hfour : (4 : Dword).toNat = 4 := rfl
    rw [BitVec.toNat_mul, hfour]
    omega
  refine ⟨hbytes, BitVec.eq_of_toNat_eq ?_⟩
  have hsector : (512 : Dword).toNat = 512 := rfl
  have hentries : (128 : Dword).toNat = 128 := rfl
  rw [BitVec.toNat_udiv, BitVec.toNat_udiv, hbytes, hsector, hentries]
  omega

/-- `get_fat` reads the entry, and may move the window. -/
theorem Sound.getFat_spec (h : v.Sound) (hcovers : v.layout.Covers) (hclst : v.layout.Valid clst) :
    ∃ v', v.getFat clst = (v.entry clst, v') ∧ v.Keeps v' := by
  obtain ⟨hmounted, -, hlimit, htable⟩ := hcovers
  have hlt : clst.toNat < v.layout.nFatent.toNat := hclst.2
  rw [getFat, if_neg (getFat_of_valid hclst), entry]
  cases htype : v.fs.fsType with
  | none => exact absurd htype hmounted
  | fat12 =>
      rw [htype] at hlimit htable
      simp only [FsType.maxEntries, FsType.tableSize] at hlimit htable
      obtain ⟨hfirst, hsecond⟩ := entry12_toNat (show clst.toNat < 0xFF7 by omega)
      obtain ⟨v₁, hmove₁, hkeeps₁, -, hwin₁⟩ :=
        h.moveWindow_fat (i := (clst + clst / 2).toNat) (by omega)
      -- The second byte of the entry may lie in the next sector.
      obtain ⟨v₂, hmove₂, hkeeps₂, -, hwin₂⟩ := hkeeps₁.sound.moveWindow_fat
        (i := (clst + clst / 2 + 1).toNat) (by rw [hkeeps₁.layout]; omega)
      rw [Layout.fatSector_toNat] at hmove₁ hmove₂
      refine ⟨v₂, ?_, hkeeps₁.trans hkeeps₂⟩
      simp only [hmove₁, hmove₂, hwin₁ _ rfl, hwin₂ _ rfl, hkeeps₁.fat]
      rw [hfirst, hsecond]
      rfl
  | fat16 =>
      rw [htype] at hlimit htable
      simp only [FsType.maxEntries, FsType.tableSize] at hlimit htable
      obtain ⟨hofs, hsector⟩ := entry16_toNat (show clst.toNat < 0xFFF7 by omega)
      obtain ⟨v₁, hmove, hkeeps, -, hwin⟩ := h.moveWindow_fat (i := (clst * 2).toNat) (by omega)
      rw [Layout.fatSector_toNat, hsector] at hmove
      refine ⟨v₁, ?_, hkeeps⟩
      simp only [hmove]
      rw [hwin.ldWord (by omega), hofs]
      rfl
  | fat32 =>
      rw [htype] at hlimit htable
      simp only [FsType.maxEntries, FsType.tableSize] at hlimit htable
      obtain ⟨hofs, hsector⟩ := entry32_toNat (show clst.toNat < 0x0FFFFFF7 by omega)
      obtain ⟨v₁, hmove, hkeeps, -, hwin⟩ := h.moveWindow_fat (i := (clst * 4).toNat) (by omega)
      rw [Layout.fatSector_toNat, hsector] at hmove
      refine ⟨v₁, ?_, hkeeps⟩
      simp only [hmove]
      rw [hwin.ldDword (by omega), hofs]
      rfl

/-- One byte of the FAT is changed in the window. -/
theorem Sound.storeByte {bc : Dword} (h : v.Sound) (hbc : bc.toNat < v.layout.fatBytes)
    (f : BitVec 8 → BitVec 8) :
    ∃ v', v.moveWindow (v.fs.fatbase + bc / 512) = (.ok, v') ∧
      v.Edits (v'.store (Function.update v'.fs.win (ofs bc.toNat) (f (v'.fs.win (ofs bc.toNat))))) ∧
      (v'.store (Function.update v'.fs.win (ofs bc.toNat) (f (v'.fs.win (ofs bc.toNat))))).fat =
        Function.update v.fat bc.toNat (f (v.fat bc.toNat)) ∧
      v.layout.InFat v'.fs.winsect := by
  obtain ⟨v', hmove, hkeeps, hsect, hwin⟩ := h.moveWindow_fat hbc
  rw [Layout.fatSector_toNat] at hmove
  obtain ⟨hedits, hfat⟩ := hkeeps.sound.store_fat (hkeeps.layout ▸ hbc) (hkeeps.layout ▸ hsect)
    (hwin.update rfl (f (v.fat bc.toNat))) (fun j hj => by
      rw [hkeeps.fat, Function.update_of_ne]
      rintro rfl
      exact hj rfl)
  rw [← hwin _ rfl] at hedits hfat
  exact ⟨v', hmove, hkeeps.edits.trans hedits, hwin _ rfl ▸ hfat, hsect ▸ h.fits.inFat hbc⟩

/-- `put_fat` writes the entry into the bytes of the FAT. -/
theorem Sound.putFat_fat (h : v.Sound) (hcovers : v.layout.Covers) (hclst : v.layout.Valid clst)
    (val : Dword) : ∃ v', v.putFat clst val = (.ok, v') ∧ v.Edits v' ∧
      v'.fat = v.fs.fsType.put v.fat clst.toNat val ∧ v.layout.InFat v'.fs.winsect := by
  obtain ⟨hmounted, -, hlimit, htable⟩ := hcovers
  have hlt : clst.toNat < v.layout.nFatent.toNat := hclst.2
  rw [putFat, if_pos (show 2 ≤ clst ∧ clst < v.fs.nFatent from hclst)]
  cases htype : v.fs.fsType with
  | none => exact absurd htype hmounted
  | fat12 =>
      rw [htype] at hlimit htable
      simp only [FsType.maxEntries, FsType.tableSize] at hlimit htable
      obtain ⟨hfirst, hsecond⟩ := entry12_toNat (show clst.toNat < 0xFF7 by omega)
      obtain ⟨v₁, hmove₁, hedits₁, hfat₁, -⟩ := h.storeByte
        (show (clst + clst / 2).toNat < v.layout.fatBytes by omega)
        fun p => pack12First (clst.toNat % 2 = 1) p val
      -- The entry of a FAT12 volume may lie across two sectors.
      obtain ⟨v₂, hmove₂, hedits₂, hfat₂, hin₂⟩ := hedits₁.sound.storeByte
        (show (clst + clst / 2 + 1).toNat < Layout.fatBytes _ by rw [hedits₁.layout]; omega)
        fun p => pack12Second (clst.toNat % 2 = 1) p val
      refine ⟨_, by simp only [hmove₁, hmove₂], hedits₁.trans hedits₂, ?_, hedits₁.layout ▸ hin₂⟩
      rw [hfat₂, hfat₁, Function.update_of_ne (by omega), hfirst, hsecond]
      rfl
  | fat16 =>
      rw [htype] at hlimit htable
      simp only [FsType.maxEntries, FsType.tableSize] at hlimit htable
      obtain ⟨hofs, hsector⟩ := entry16_toNat (show clst.toNat < 0xFFF7 by omega)
      have hbyte : (clst * 2).toNat < v.layout.fatBytes := by omega
      obtain ⟨v₁, hmove, hkeeps, hsect, hwin⟩ := h.moveWindow_fat hbyte
      obtain ⟨hedits, hfat⟩ := hkeeps.sound.store_fat (hkeeps.layout ▸ hbyte)
        (hkeeps.layout ▸ hsect) (hwin.stWord (by omega) (val.setWidth 16)) (fun j hj => by
          rw [hkeeps.fat]
          exact Table.setWord_of_ne (by omega) (by omega))
      rw [Layout.fatSector_toNat, hsector] at hmove
      refine ⟨_, by simp only [hmove], hkeeps.edits.trans hedits, ?_,
        show v.layout.InFat v₁.fs.winsect from hsect ▸ h.fits.inFat hbyte⟩
      rw [hfat, hofs]
      rfl
  | fat32 =>
      rw [htype] at hlimit htable
      simp only [FsType.maxEntries, FsType.tableSize] at hlimit htable
      obtain ⟨hofs, hsector⟩ := entry32_toNat (show clst.toNat < 0x0FFFFFF7 by omega)
      have hbyte : (clst * 4).toNat < v.layout.fatBytes := by omega
      obtain ⟨v₁, hmove, hkeeps, hsect, hwin⟩ := h.moveWindow_fat hbyte
      obtain ⟨hedits, hfat⟩ := hkeeps.sound.store_fat (hkeeps.layout ▸ hbyte)
        (hkeeps.layout ▸ hsect) (hwin.stDword (by omega) ((val &&& 0x0FFFFFFF) |||
          (ldDword v₁.fs.win (clst * 4).toNat &&& 0xF0000000))) (fun j hj => by
          rw [hkeeps.fat]
          exact Table.setDword_of_ne (by omega))
      rw [Layout.fatSector_toNat, hsector] at hmove
      refine ⟨_, by simp only [hmove], hkeeps.edits.trans hedits, ?_,
        show v.layout.InFat v₁.fs.winsect from hsect ▸ h.fits.inFat hbyte⟩
      rw [hfat, hwin.ldDword (by omega), hofs]
      rfl

/-- What `put_fat` leaves: the one entry has changed, in both FATs, and nothing else. -/
theorem Sound.putFat_spec (h : v.Sound) (hcovers : v.layout.Covers) (hclst : v.layout.Valid clst)
    (val : Dword) : ∃ v', v.putFat clst val = (.ok, v') ∧ v.Edits v' ∧
      v'.entry = Function.update v.entry clst (val &&& v.fs.fsType.mask) ∧
      v.layout.InFat v'.fs.winsect := by
  obtain ⟨v', hput, hedits, hfat, hin⟩ := h.putFat_fat hcovers hclst val
  refine ⟨v', hput, hedits, ?_, hin⟩
  funext c
  have htype : v'.fs.fsType = v.fs.fsType := congrArg Layout.fsType hedits.layout
  rw [entry, htype, hfat, FsType.entry_put hcovers.mounted, Function.update_apply,
    Function.update_apply, entry]
  simp only [BitVec.toNat_inj]

/-- What `put_fat` has written is what `get_fat` reads, for every type of FAT; the other clusters
read as before, and once the window is written back, the second FAT equals the first. -/
theorem Sound.getFat_putFat (h : v.Sound) (hcovers : v.layout.Covers) (hclst : v.layout.Valid clst)
    (val : Dword) {c : Dword} (hc : v.layout.Valid c) :
    ∃ v₁ v₂ v₃, v.putFat clst val = (.ok, v₁) ∧
      v₁.getFat c = (if c = clst then val &&& v.fs.fsType.mask else (v.getFat c).1, v₂) ∧
      v₂.syncWindow = (.ok, v₃) ∧ ∀ s, v.layout.InFat s → v.layout.nFats = 2 →
        v₃.drive.sectors (s + v.layout.fsize) = v₃.drive.sectors s := by
  obtain ⟨v₁, hput, hedits, hentry, -⟩ := h.putFat_spec hcovers hclst val
  obtain ⟨v₂, hget, hkeeps⟩ :=
    hedits.sound.getFat_spec (hedits.layout ▸ hcovers) (hedits.layout ▸ hc)
  obtain ⟨v₃, hsync, -, -, hdrive⟩ := hkeeps.sound.syncWindow_spec
  obtain ⟨v₀, hold, -⟩ := h.getFat_spec hcovers hc
  refine ⟨v₁, v₂, v₃, hput, ?_, hsync, fun s hs htwo => ?_⟩
  · rw [hget, hentry, Function.update_apply, hold]
  · have hlayout : v₂.layout = v.layout := hkeeps.layout.trans hedits.layout
    have hcopy : v.layout.InCopy (s + v.layout.fsize) :=
      ⟨htwo, by rwa [BitVec.add_sub_cancel]⟩
    have hhome : v₂.layout.home (s + v.layout.fsize) = s := by
      rw [hlayout, Layout.home, if_pos hcopy, BitVec.add_sub_cancel]
    rw [hdrive, ← hkeeps.sound.mirrored, hhome]

end Volume

/-! ## An empty volume -/

/-- A FAT12 volume of three clusters that are all free. -/
def emptyVolume : Volume where
  fs := {
    fsType := .fat12
    nFats := 2
    nRootdir := 16
    csize := 1
    nFatent := 5
    fsize := 1
    volbase := 0
    fatbase := 1
    dirbase := 3
    database := 4
    fsiFlag := 0x80
    lastClst := 0xFFFFFFFF
    freeClst := 0xFFFFFFFF
    wflag := false
    winsect := 0
    win := fun _ => 0 }
  drive := { readable := fun _ _ => true, writable := fun _ _ => true, sectors := fun _ _ => 0 }

theorem emptyVolume_sound : emptyVolume.Sound := by
  refine ⟨⟨.inr rfl, by decide⟩, fun _ _ => ⟨rfl, rfl⟩, fun _ _ => rfl, nofun, fun s => ?_⟩
  rw [Volume.image_of_clean rfl]
  rfl

theorem emptyVolume_covers : emptyVolume.layout.Covers :=
  ⟨by decide, by decide, by decide, by decide⟩

theorem emptyVolume_entry (c : Dword) : emptyVolume.entry c = 0 := by
  have hfat : emptyVolume.fat = fun _ => 0 := by
    funext i
    rw [Volume.fat, Volume.image_of_clean rfl]
    exact ite_self 0
  rw [Volume.entry, hfat]
  change unpack12 _ (0 ++ 0) = 0
  cases decide (c.toNat % 2 = 1) <;> rfl

namespace Volume

theorem getFat_putFat_emptyVolume :
    ∃ v₁ v₂ v₃, emptyVolume.putFat 2 0xFFFFFFFF = (.ok, v₁) ∧
      v₁.getFat 3 = (if (3 : Dword) = 2 then 0xFFFFFFFF &&& emptyVolume.fs.fsType.mask
        else (emptyVolume.getFat 3).1, v₂) ∧
      v₂.syncWindow = (.ok, v₃) ∧ ∀ s, emptyVolume.layout.InFat s → emptyVolume.layout.nFats = 2 →
        v₃.drive.sectors (s + emptyVolume.layout.fsize) = v₃.drive.sectors s :=
  emptyVolume_sound.getFat_putFat emptyVolume_covers (by decide) 0xFFFFFFFF (by decide)

end Volume

end Senob.Fat
