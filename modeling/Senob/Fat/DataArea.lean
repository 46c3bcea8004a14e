import Senob.Fat.Files

/-!
# The data area

The sectors of the clusters. The chain of a file puts them into an order, in which the sectors of
one cluster lie one behind the other; different places of a chain have different sectors, and so
have different chains. A direct write to the data area does not touch the FATs.
-/

namespace Senob.Fat

open Libk (FResult)

namespace Layout

variable {l : Layout} {c : Dword} {cs : List Dword} {k i : Nat} {s : Dword}

/-- The sector behind the last cluster. -/
def dataEnd (l : Layout) : Nat := l.database.toNat + l.csize.toNat * (l.nFatent.toNat - 2)

/-- The sectors of so many clusters. -/
def span (l : Layout) (cs : List Dword) : Nat := cs.length * l.csize.toNat

/-- A sector of the data area. -/
def InData (l : Layout) (s : Dword) : Prop := l.database ≤ s ∧ s.toNat < l.dataEnd

/-- The sector in place `k` of a chain. -/
def sectorAt (l : Layout) (cs : List Dword) (k : Nat) : Dword :=
  l.clst2sect (cs.getD (k / l.csize.toNat) 0) + BitVec.ofNat 32 (k % l.csize.toNat)

theorem Laid.csize_pos (h : l.Laid) : 0 < l.csize.toNat := by
  obtain ⟨k, hk⟩ := h.cluster
  rw [hk]
  exact Nat.two_pow_pos k

theorem Laid.not_inFat (h : l.Laid) (hs : l.InData s) : ¬ l.InFat s := by
  have hsystem := h.system
  have hfats := h.fats
  have hlow : l.database.toNat ≤ s.toNat := hs.1
  intro hin
  rw [InFat, BitVec.lt_def, BitVec.toNat_sub] at hin
  have hsize : l.fatbase.toNat + l.fsize.toNat ≤ l.database.toNat := by
    rcases hfats.count with hone | htwo
    · rw [hone, show (1 : BitVec 8).toNat = 1 from rfl] at hsystem
      omega
    · rw [htwo, show (2 : BitVec 8).toNat = 2 from rfl] at hsystem
      omega
  omega

theorem Laid.not_inCopy (h : l.Laid) (hs : l.InData s) : ¬ l.InCopy s := by
  have hsystem := h.system
  have hlow : l.database.toNat ≤ s.toNat := hs.1
  rintro ⟨htwo, hin⟩
  rw [htwo, show (2 : BitVec 8).toNat = 2 from rfl] at hsystem
  rw [InFat, BitVec.lt_def, BitVec.toNat_sub, BitVec.toNat_sub] at hin
  omega

theorem Laid.home_of_inData (h : l.Laid) (hs : l.InData s) : l.home s = s :=
  home_of_not_inCopy (h.not_inCopy hs)

/-- Sector 0 belongs to the system area, and the last number is no sector at all. -/
theorem Laid.inData_bounds (h : l.Laid) (hs : l.InData s) : s ≠ 0 ∧ s ≠ 0xFFFFFFFF := by
  have hreserved : l.volbase.toNat < l.fatbase.toNat := h.reserved
  have hsystem := h.system
  have hdata := h.data
  have hlow : l.database.toNat ≤ s.toNat := hs.1
  have hhigh : s.toNat < l.database.toNat + l.csize.toNat * (l.nFatent.toNat - 2) := hs.2
  have hpos : 0 < l.database.toNat := by omega
  constructor
  · rintro rfl
    have hzero : (0 : Dword).toNat = 0 := rfl
    omega
  · rintro rfl
    have hlast : (0xFFFFFFFF : Dword).toNat = 2 ^ 32 - 1 := rfl
    omega

/-- A sector of a cluster. -/
theorem Laid.clst2sect_toNat (h : l.Laid) (hc : l.Valid c) (hi : i < l.csize.toNat) :
    (l.clst2sect c + BitVec.ofNat 32 i).toNat =
        l.database.toNat + (l.csize.toNat * (c.toNat - 2) + i) ∧
      l.csize.toNat * (c.toNat - 2) + i < l.csize.toNat * (l.nFatent.toNat - 2) := by
  have hlow : 2 ≤ c.toNat := hc.1
  have hhigh : c.toNat < l.nFatent.toNat := hc.2
  have htwo : (2 : Dword).toNat = 2 := rfl
  have hfrom : (c - 2).toNat = c.toNat - 2 := BitVec.toNat_sub_of_le hc.1
  have hto : (l.nFatent - 2).toNat = l.nFatent.toNat - 2 :=
    BitVec.toNat_sub_of_le (by rw [BitVec.le_def, htwo]; omega)
  have hwide : (l.csize.setWidth 32 : Dword).toNat = l.csize.toNat :=
    BitVec.toNat_setWidth_of_le (by decide)
  have hdata := h.data
  have hspan : l.csize.toNat * (c.toNat - 2) + i < l.csize.toNat * (l.nFatent.toNat - 2) := by
    have hnext : l.csize.toNat * (c.toNat - 2) + l.csize.toNat ≤
        l.csize.toNat * (l.nFatent.toNat - 2) := by
      rw [← Nat.mul_succ]
      exact Nat.mul_le_mul_left _ (by omega)
    omega
  refine ⟨?_, hspan⟩
  have hnot : ¬ l.nFatent - 2 ≤ c - 2 := by
    rw [BitVec.le_def, hfrom, hto]
    omega
  rw [clst2sect]
  simp only [if_neg hnot]
  rw [BitVec.toNat_add, BitVec.toNat_add, BitVec.toNat_mul, hwide, hfrom, BitVec.toNat_ofNat]
  generalize l.csize.toNat * (c.toNat - 2) = first at hspan ⊢
  generalize l.csize.toNat * (l.nFatent.toNat - 2) = total at hspan hdata
  omega

theorem place_lt (hk : k < l.span cs) : k / l.csize.toNat < cs.length :=
  Nat.div_lt_of_lt_mul (by rw [Nat.mul_comm]; exact hk)

theorem span_mono {cs' : List Dword} (h : cs <+: cs') : l.span cs ≤ l.span cs' :=
  Nat.mul_le_mul_right _ h.length_le

/-- The number of the sector in a place of a chain. -/
theorem Laid.sectorAt_toNat (h : l.Laid) (hvalid : ∀ c ∈ cs, l.Valid c) (hk : k < l.span cs) :
    ∃ c, cs[k / l.csize.toNat]? = some c ∧ (l.sectorAt cs k).toNat =
      l.database.toNat + (l.csize.toNat * (c.toNat - 2) + k % l.csize.toNat) := by
  have hplace := place_lt hk
  have hc := hvalid _ (List.getElem_mem hplace)
  refine ⟨cs[k / l.csize.toNat], List.getElem?_eq_getElem hplace, ?_⟩
  rw [sectorAt, List.getD_eq_getElem?_getD, List.getElem?_eq_getElem hplace, Option.getD_some]
  exact (h.clst2sect_toNat hc (Nat.mod_lt _ h.csize_pos)).1

theorem Laid.sectorAt_inData (h : l.Laid) (hvalid : ∀ c ∈ cs, l.Valid c) (hk : k < l.span cs) :
    l.InData (l.sectorAt cs k) := by
  have hplace := place_lt hk
  have hc := hvalid _ (List.getElem_mem hplace)
  obtain ⟨hnat, hlt⟩ := h.clst2sect_toNat hc (Nat.mod_lt k h.csize_pos)
  have hsector : l.sectorAt cs k =
      l.clst2sect cs[k / l.csize.toNat] + BitVec.ofNat 32 (k % l.csize.toNat) := by
    rw [sectorAt, List.getD_eq_getElem?_getD, List.getElem?_eq_getElem hplace, Option.getD_some]
  rw [hsector]
  constructor
  · rw [BitVec.le_def, hnat]
    exact Nat.le_add_right _ _
  · rw [hnat, dataEnd]
    exact Nat.add_lt_add_left hlt _

/-- The sectors of a cluster from one of them on do not reach behind the data area. -/
theorem Laid.run_le (h : l.Laid) (hvalid : ∀ c ∈ cs, l.Valid c) (hk : k < l.span cs) {n : Nat}
    (hn : k % l.csize.toNat + n ≤ l.csize.toNat) : (l.sectorAt cs k).toNat + n ≤ l.dataEnd := by
  obtain ⟨c, hc, hnat⟩ := h.sectorAt_toNat hvalid hk
  obtain ⟨-, hlt⟩ := h.clst2sect_toNat (hvalid c (List.mem_of_getElem? hc))
    (Nat.sub_one_lt_of_lt h.csize_pos)
  rw [hnat, dataEnd]
  generalize l.csize.toNat * (c.toNat - 2) = first at hlt ⊢
  generalize l.csize.toNat * (l.nFatent.toNat - 2) = total at hlt ⊢
  omega

/-- Places with one sector have one cluster, and one offset in it. -/
theorem Laid.sectorAt_cases (h : l.Laid) {cs' : List Dword} {k' : Nat}
    (hvalid : ∀ c ∈ cs, l.Valid c) (hvalid' : ∀ c ∈ cs', l.Valid c)
    (hk : k < l.span cs) (hk' : k' < l.span cs')
    (heq : l.sectorAt cs k = l.sectorAt cs' k') :
    (∃ c, cs[k / l.csize.toNat]? = some c ∧ cs'[k' / l.csize.toNat]? = some c) ∧
      k % l.csize.toNat = k' % l.csize.toNat := by
  obtain ⟨c, hc, hnat⟩ := h.sectorAt_toNat hvalid hk
  obtain ⟨c', hc', hnat'⟩ := h.sectorAt_toNat hvalid' hk'
  have hmem : 2 ≤ c.toNat := (hvalid c (List.mem_of_getElem? hc)).1
  have hmem' : 2 ≤ c'.toNat := (hvalid' c' (List.mem_of_getElem? hc')).1
  have hsame : l.csize.toNat * (c.toNat - 2) + k % l.csize.toNat =
      l.csize.toNat * (c'.toNat - 2) + k' % l.csize.toNat := by
    rw [heq, hnat'] at hnat
    omega
  have hmod := congrArg (· % l.csize.toNat) hsame
  have hdiv := congrArg (· / l.csize.toNat) hsame
  simp only [Nat.mul_add_mod, Nat.mod_mod] at hmod
  simp only [Nat.mul_add_div h.csize_pos,
    Nat.div_eq_of_lt (Nat.mod_lt _ h.csize_pos), Nat.add_zero] at hdiv
  obtain rfl : c = c' := BitVec.eq_of_toNat_eq (by omega)
  exact ⟨⟨c, hc, hc'⟩, hmod⟩

theorem Laid.sectorAt_inj (h : l.Laid) {k' : Nat} (hnodup : cs.Nodup)
    (hvalid : ∀ c ∈ cs, l.Valid c) (hk : k < l.span cs) (hk' : k' < l.span cs) :
    l.sectorAt cs k = l.sectorAt cs k' ↔ k = k' := by
  refine ⟨fun heq => ?_, fun heq => heq ▸ rfl⟩
  obtain ⟨⟨c, hc, hc'⟩, hmod⟩ := h.sectorAt_cases hvalid hvalid hk hk' heq
  have hplace : k / l.csize.toNat = k' / l.csize.toNat :=
    List.getElem?_inj (place_lt hk) hnodup |>.mp (hc.trans hc'.symm)
  rw [← Nat.div_add_mod k l.csize.toNat, ← Nat.div_add_mod k' l.csize.toNat, hplace, hmod]

/-- The places of a chain before the last cluster of a longer one. -/
theorem sectorAt_prefix {cs' : List Dword} (h : cs <+: cs') (hk : k < l.span cs) :
    l.sectorAt cs' k = l.sectorAt cs k := by
  obtain ⟨rest, rfl⟩ := h
  rw [sectorAt, sectorAt, List.getD_eq_getElem?_getD, List.getElem?_append_left (place_lt hk),
    List.getD_eq_getElem?_getD]

/-- The places in one cluster. -/
theorem sectorAt_add (cs : List Dword) (hi : k % l.csize.toNat + i < l.csize.toNat) :
    l.sectorAt cs (k + i) = l.sectorAt cs k + BitVec.ofNat 32 i := by
  have hpos : 0 < l.csize.toNat := Nat.zero_lt_of_lt hi
  have hsum : k + i = k % l.csize.toNat + i + l.csize.toNat * (k / l.csize.toNat) := by
    have hk := Nat.mod_add_div k l.csize.toNat
    omega
  have hdiv : (k + i) / l.csize.toNat = k / l.csize.toNat := by
    rw [hsum, Nat.add_mul_div_left _ _ hpos, Nat.div_eq_of_lt hi, Nat.zero_add]
  have hmod : (k + i) % l.csize.toNat = k % l.csize.toNat + i := by
    rw [hsum, Nat.add_mul_mod_self_left, Nat.mod_eq_of_lt hi]
  rw [sectorAt, sectorAt, hdiv, hmod, BitVec.ofNat_add, BitVec.add_assoc]

/-- A place in the same cluster lies inside the chain. -/
theorem add_lt_span (hk : k < l.span cs) (hi : k % l.csize.toNat + i < l.csize.toNat) :
    k + i < l.span cs := by
  have hplace := place_lt hk
  have hsum := Nat.mod_add_div k l.csize.toNat
  have hnext : l.csize.toNat * (k / l.csize.toNat) + l.csize.toNat ≤ l.span cs := by
    rw [← Nat.mul_succ, span, Nat.mul_comm]
    exact Nat.mul_le_mul_right _ hplace
  omega

end Layout

/-- So many sectors from `s` on. -/
theorem mem_run {s t : Dword} {n : Nat} :
    (t - s).toNat < n ↔ ∃ i < n, t = s + BitVec.ofNat 32 i := by
  constructor
  · intro hlt
    refine ⟨(t - s).toNat, hlt, ?_⟩
    rw [BitVec.ofNat_toNat, BitVec.setWidth_eq, BitVec.add_comm, BitVec.sub_add_cancel]
  · rintro ⟨i, hi, rfl⟩
    rw [BitVec.add_comm, BitVec.add_sub_cancel, BitVec.toNat_ofNat]
    exact (Nat.mod_le _ _).trans_lt hi

theorem add_sub_run {s : Dword} {i : Nat} (hi : i < 2 ^ 32) :
    (s + BitVec.ofNat 32 i - s).toNat = i := by
  rw [BitVec.add_comm, BitVec.add_sub_cancel, BitVec.toNat_ofNat, Nat.mod_eq_of_lt hi]

/-- The sectors of a run inside a cluster. -/
theorem Layout.mem_run {l : Layout} {cs : List Dword} {k cc : Nat} (hk : k < l.span cs)
    (hcc : k % l.csize.toNat + cc ≤ l.csize.toNat) (t : Dword) :
    (t - l.sectorAt cs k).toNat < cc ↔
      ∃ m < cc, k + m < l.span cs ∧ t = l.sectorAt cs (k + m) ∧
        (t - l.sectorAt cs k).toNat = m := by
  have hcsize := l.csize.isLt
  rw [Fat.mem_run]
  constructor
  · rintro ⟨m, hm, rfl⟩
    refine ⟨m, hm, add_lt_span hk (by omega), ?_, add_sub_run (by omega)⟩
    rw [sectorAt_add _ (by omega)]
  · rintro ⟨m, hm, -, rfl, -⟩
    exact ⟨m, hm, sectorAt_add _ (by omega)⟩

/-- The drive reaches every run of sectors of the data area. -/
def Bounds.Serves (b : Bounds) (l : Layout) : Prop :=
  ∀ s n, l.InData s → s.toNat + n ≤ l.dataEnd → b.readable s n ∧ b.writable s n

namespace Volume

variable {v : Volume} {s : Dword} {n : Nat}

/-- The drive holds what the image has outside of the window. -/
theorem image_of_away (h : v.layout.Laid) (hs : v.layout.InData s) (haway : v.fs.winsect ≠ s) :
    v.image s = v.drive.sectors s := by
  rw [image, if_neg]
  rintro ⟨-, hhome⟩
  rw [h.home_of_inData hs] at hhome
  exact haway hhome.symm

/-- Sectors of the data area are written past the window. -/
theorem Sound.diskWrite_spec (h : v.Sound) (hlaid : v.layout.Laid)
    (hwritable : v.drive.writable s n)
    (hdata : ∀ t, (t - s).toNat < n → v.layout.InData t ∧ v.fs.winsect ≠ t)
    (buff : Nat → Sector) :
    ∃ drive, v.drive.diskWrite buff s n = some drive ∧ ({ v with drive := drive } : Volume).Sound ∧
      drive.toBounds = v.drive.toBounds ∧ ∀ t, ({ v with drive := drive } : Volume).image t =
        if (t - s).toNat < n then buff (t - s).toNat else v.image t := by
  refine ⟨_, if_pos hwritable, ?_⟩
  generalize hdrive : ({ v.drive with
      sectors := fun t => if (t - s).toNat < n then buff (t - s).toNat
        else v.drive.sectors t } : Drive) = drive
  have hbounds : drive.toBounds = v.drive.toBounds := by rw [← hdrive]
  have hsectors : ∀ t, drive.sectors t =
      if (t - s).toNat < n then buff (t - s).toNat else v.drive.sectors t := by
    intro t
    rw [← hdrive]
  -- The window holds none of the sectors, so that it hides none of what is written.
  have himage : ∀ t, ({ v with drive := drive } : Volume).image t =
      if (t - s).toNat < n then buff (t - s).toNat else v.image t := by
    intro t
    rw [image, image, hsectors]
    by_cases ht : (t - s).toNat < n
    · obtain ⟨hin, haway⟩ := hdata t ht
      rw [if_neg, if_pos ht, if_pos ht]
      rintro ⟨-, hhome⟩
      exact haway (hhome.symm.trans (hlaid.home_of_inData hin))
    · rw [if_neg ht, if_neg ht]
  refine ⟨⟨h.fits, ?_, ?_, ?_, ?_⟩, hbounds, himage⟩
  · intro t ht
    rw [hbounds]
    exact h.reachable t ht
  · intro hflag hvalid
    change v.fs.win = drive.sectors v.fs.winsect
    rw [hsectors, if_neg fun hin => (hdata _ hin).2 rfl]
    exact h.clean hflag hvalid
  · intro hflag
    change drive.toBounds.Reaches v.fs.winsect ∧ _
    rw [hbounds]
    exact h.dirty hflag
  · intro t
    change ({ v with drive := drive } : Volume).image (v.layout.home t) = _
    rw [himage, himage]
    by_cases hcopy : v.layout.InCopy t
    · have hhome : v.layout.home t = t - v.layout.fsize := if_pos hcopy
      rw [if_neg, if_neg, h.mirrored]
      · exact fun hin => hlaid.not_inCopy (hdata t hin).1 hcopy
      · rw [hhome]
        exact fun hin => hlaid.not_inFat (hdata _ hin).1 hcopy.2
    · rw [Layout.home_of_not_inCopy hcopy]

end Volume

end Senob.Fat
