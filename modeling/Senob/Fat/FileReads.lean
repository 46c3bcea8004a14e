import Senob.Fat.Contents
import Senob.Libk.FileObjects

/-!
# Reading files

`f_read` copies the bytes of the file from the file pointer on, whatever mix of direct transfers
and of the sector buffer it uses for them.
-/

namespace Senob.Fat

open Foundation
open Libk (FResult)

/-- The cluster of the byte before the file pointer is known, and the buffer holds the sector of
the file pointer if that lies inside a sector. -/
structure Fil.Placed (fp : Fil) (l : Layout) (cs : List Dword) : Prop where
  err : fp.err = .ok
  within : fp.fptr.toNat ≤ fp.objsize.toNat
  cluster : 0 < fp.fptr.toNat → cs[(fp.fptr.toNat - 1) / 512 / l.csize.toNat]? = some fp.clust
  current : fp.fptr.toNat % 512 ≠ 0 → fp.sect = l.sectorAt cs (fp.fptr.toNat / 512)

/-- The files, each of them with its file pointer somewhere in it. -/
structure Files.Sound {ι : Type*} (f : Files ι) : Prop extends f.Stored where
  placed : ∀ i, (f.fil i).Placed f.volume.layout (f.chains i)

/-- A file object in the same mode and for the same size. -/
structure Fil.Alike (fp fp' : Fil) : Prop where
  readable : fp'.readable = fp.readable
  writable : fp'.writable = fp.writable
  objsize : fp'.objsize = fp.objsize

theorem Fil.Alike.trans {fp fp' fp'' : Fil} (h : fp.Alike fp') (h' : fp'.Alike fp'') :
    fp.Alike fp'' :=
  ⟨h'.readable.trans h.readable, h'.writable.trans h.writable, h'.objsize.trans h.objsize⟩

namespace Opened

variable {o : Opened} {count : Dword}

theorem csect_toNat (h : o.volume.layout.Laid) :
    o.csect.toNat = o.fp.fptr.toNat / 512 % o.volume.layout.csize.toNat := by
  obtain ⟨k, hk⟩ := h.cluster
  have hwide : (o.volume.fs.csize.setWidth 32 : Dword).toNat = 2 ^ k := by
    rw [BitVec.toNat_setWidth_of_le (by decide)]
    exact hk
  have hone : (1 : Dword).toNat = 1 := rfl
  have hsector : (512 : Dword).toNat = 512 := rfl
  have hmask : (o.volume.fs.csize.setWidth 32 - 1 : Dword).toNat = 2 ^ k - 1 := by
    rw [BitVec.toNat_sub_of_le, hwide, hone]
    rw [BitVec.le_def, hwide, hone]
    exact Nat.one_le_two_pow
  rw [csect, BitVec.toNat_and, hmask, Nat.and_two_pow_sub_one_eq_mod, BitVec.toNat_udiv, hsector,
    hk]

theorem mod512_toNat (x : Dword) : (x % 512).toNat = x.toNat % 512 := BitVec.toNat_umod

theorem div512_toNat (x : Dword) : (x / 512).toNat = x.toNat / 512 := BitVec.toNat_udiv

theorem mod512_eq_zero {x : Dword} : x % 512 = 0 ↔ x.toNat % 512 = 0 := by
  rw [← mod512_toNat]
  exact ⟨fun h => h ▸ rfl, fun h => BitVec.eq_of_toNat_eq h⟩

/-- Whole sectors, but none of the next cluster. -/
theorem direct_toNat (h : o.volume.layout.Laid) :
    (o.direct count).toNat = min (count.toNat / 512)
      (o.volume.layout.csize.toNat - o.fp.fptr.toNat / 512 % o.volume.layout.csize.toNat) := by
  have hcsect := csect_toNat h
  have hlt := Nat.mod_lt (o.fp.fptr.toNat / 512) h.csize_pos
  have hwide : (o.volume.fs.csize.setWidth 32 : Dword).toNat = o.volume.layout.csize.toNat :=
    BitVec.toNat_setWidth_of_le (by decide)
  have hsmall := o.volume.layout.csize.isLt
  have hcount := count.isLt
  have hdiv := div512_toNat count
  have hsum : (o.csect + count / 512).toNat =
      o.fp.fptr.toNat / 512 % o.volume.layout.csize.toNat + count.toNat / 512 := by
    rw [BitVec.toNat_add, hcsect, hdiv, Nat.mod_eq_of_lt (by omega)]
  rw [direct]
  split_ifs with hclip <;> rw [BitVec.lt_def, hsum, hwide] at hclip
  · rw [BitVec.toNat_sub_of_le, hwide, hcsect]
    · omega
    · rw [BitVec.le_def, hwide, hcsect]
      omega
  · rw [hdiv]
    omega

/-- What is left of the sector, or of the count. -/
theorem rest_toNat : (o.rest count).toNat = min count.toNat (512 - o.fp.fptr.toNat % 512) := by
  have hmod := mod512_toNat o.fp.fptr
  have hlt := Nat.mod_lt o.fp.fptr.toNat (show 0 < 512 by decide)
  have hsector : (512 : Dword).toNat = 512 := rfl
  have hcnt : (512 - o.fp.fptr % 512).toNat = 512 - o.fp.fptr.toNat % 512 := by
    rw [BitVec.toNat_sub_of_le, hmod, hsector]
    rw [BitVec.le_def, hmod, hsector]
    omega
  rw [rest]
  split_ifs with hall <;> rw [BitVec.lt_def, hcnt] at hall
  · omega
  · rw [hcnt]
    omega

end Opened

/-- The place of a cluster in the chain is the next one on a cluster boundary only. -/
theorem place_pred (csize : Nat) {p : Nat} (hp : 0 < p) : p / 512 / csize =
    (p - 1) / 512 / csize + if p % 512 = 0 ∧ p / 512 % csize = 0 then 1 else 0 := by
  obtain ⟨q, rfl⟩ := Nat.exists_eq_succ_of_ne_zero hp.ne'
  rw [Nat.succ_sub_one, Nat.div_div_eq_div_mul, Nat.div_div_eq_div_mul, Nat.succ_div]
  congr 1
  refine if_congr ?_ rfl rfl
  rw [Nat.dvd_iff_mod_eq_zero]
  exact (Libk.boundary_iff csize (q + 1)).symm

/-- A round that does not end on a sector boundary ends in the sector where it started. -/
theorem wcnt_sector {csize p count : Nat} (h : (p + Libk.wcnt csize p count) % 512 ≠ 0) :
    (p + Libk.wcnt csize p count) / 512 = p / 512 := by
  have hsector : Libk.sectorSize = 512 := rfl
  unfold Libk.wcnt at h ⊢
  rw [hsector] at h ⊢
  split_ifs at h ⊢ with hwhole
  · rw [Nat.add_mul_mod_self_left] at h
    exact absurd hwhole.1 h
  · omega

/-- The file pointer behind the bytes of a round. -/
theorem Fil.Placed.of_round {fp : Fil} {l : Layout} {cs : List Dword} {p count : Nat}
    (hcsize : 0 < l.csize.toNat) (hcount : 0 < count) (herr : fp.err = .ok)
    (hfptr : fp.fptr.toNat = p + Libk.wcnt l.csize.toNat p count)
    (hwithin : fp.fptr.toNat ≤ fp.objsize.toNat)
    (hclust : cs[p / 512 / l.csize.toNat]? = some fp.clust)
    (hcurrent : fp.fptr.toNat % 512 ≠ 0 → fp.sect = l.sectorAt cs (p / 512)) : fp.Placed l cs := by
  obtain ⟨hpos, -, hstay⟩ := Libk.wcnt_bounds hcsize p hcount
  refine ⟨herr, hwithin, fun _ => ?_, fun hinside => ?_⟩
  · rw [← hclust, hfptr, Nat.div_div_eq_div_mul, Nat.div_div_eq_div_mul]
    have hsector : Libk.sectorSize = 512 := rfl
    rw [hsector] at hstay
    have hbcs : 0 < 512 * l.csize.toNat := Nat.mul_pos (by decide) hcsize
    generalize Libk.wcnt l.csize.toNat p count = n at hpos hstay
    generalize 512 * l.csize.toNat = bcs at hstay hbcs
    have hsplit := Nat.div_add_mod p bcs
    have hsum : p + n - 1 = bcs * (p / bcs) + (p % bcs + n - 1) := by omega
    have hsmall : (p % bcs + n - 1) / bcs = 0 := Nat.div_eq_of_lt (by omega)
    rw [hsum, Nat.mul_add_div hbcs, hsmall, Nat.add_zero]
  · rw [hcurrent hinside, hfptr, wcnt_sector (hfptr ▸ hinside)]

namespace Opened

variable {o : Opened} {count : Dword}

/-- The bytes that a round of `f_read` or `f_write` transfers. -/
theorem direct_wcnt (h : o.volume.layout.Laid) (hboundary : o.fp.fptr.toNat % 512 = 0)
    (hwhole : 0 < count.toNat / 512) : (512 * o.direct count).toNat =
      Libk.wcnt o.volume.layout.csize.toNat o.fp.fptr.toNat count.toNat := by
  have hdirect : (o.direct count).toNat = _ := direct_toNat h
  have hsector : (512 : Dword).toNat = 512 := rfl
  have hcount := count.isLt
  rw [Libk.wcnt, if_pos ⟨hboundary, hwhole⟩, BitVec.toNat_mul, hsector, hdirect,
    Nat.mod_eq_of_lt (by omega)]
  rfl

theorem rest_wcnt (csize : Nat)
    (h : ¬ (o.fp.fptr.toNat % 512 = 0 ∧ 0 < count.toNat / 512)) :
    (o.rest count).toNat = Libk.wcnt csize o.fp.fptr.toNat count.toNat := by
  have hsector : Libk.sectorSize = 512 := rfl
  rw [rest_toNat, Libk.wcnt, hsector, if_neg h, Nat.min_comm]

theorem extract_rcnt : (o.extract count).rcnt = o.rest count := by
  rw [extract]

end Opened

theorem Layout.Laid.clst2sect_ne_zero {l : Layout} {c : Dword} (h : l.Laid) (hvalid : l.Valid c) :
    l.clst2sect c ≠ 0 := by
  have hfirst := (h.clst2sect_toNat hvalid h.csize_pos).1
  have hsystem := h.system
  have hreserved : l.volbase.toNat < l.fatbase.toNat := h.reserved
  intro hzero
  rw [hzero] at hfirst
  have hnat : ((0 : Dword) + BitVec.ofNat 32 0).toNat = 0 := rfl
  omega

/-- A sector of a cluster of the chain. -/
theorem Layout.sectorAt_cluster {l : Layout} {cs : List Dword} {c q : Dword} {m : Nat}
    (hc : cs[m]? = some c) (hq : q.toNat < l.csize.toNat) :
    l.clst2sect c + q = l.sectorAt cs (m * l.csize.toNat + q.toNat) := by
  have hpos : 0 < l.csize.toNat := Nat.zero_lt_of_lt hq
  have hdiv : (m * l.csize.toNat + q.toNat) / l.csize.toNat = m := by
    rw [Nat.mul_comm, Nat.mul_add_div hpos, Nat.div_eq_of_lt hq, Nat.add_zero]
  have hmod : (m * l.csize.toNat + q.toNat) % l.csize.toNat = q.toNat := by
    rw [Nat.mul_comm, Nat.mul_add_mod, Nat.mod_eq_of_lt hq]
  rw [Layout.sectorAt, hdiv, hmod, List.getD_eq_getElem?_getD, hc, Option.getD_some,
    BitVec.ofNat_toNat, BitVec.setWidth_eq]

namespace Files

variable {ι : Type*} {f f' : Files ι} {i j : ι} {k n : Nat}

/-- A byte inside of the file lies inside of its chain. -/
theorem Stored.place_lt (h : f.Stored) (hn : n < (f.fil i).objsize.toNat) :
    n / 512 < f.volume.layout.span (f.chains i) := by
  have hcapacity := (h.fil i).capacity
  exact Nat.div_lt_of_lt_mul (by omega)

/-- The position of the other files does not change. -/
theorem Quiet.sound (h : f.Quiet f' i) (hsound : f.Sound)
    (hplaced : (f'.fil i).Placed f.volume.layout (f'.chains i)) : f'.Sound := by
  refine ⟨h.stored, fun j => ?_⟩
  rw [h.layout]
  by_cases hj : j = i
  · exact hj ▸ hplaced
  · rw [(h.others j hj).1, (h.others j hj).2]
    exact hsound.placed j

/-- The sector of the file pointer, once its cluster is known. -/
theorem Stored.sector_spec (h : f.Stored)
    (hclust : (f.chains i)[(f.fil i).fptr.toNat / 512 / f.volume.layout.csize.toNat]? =
      some (f.fil i).clust) :
    (f.opened i).volume.layout.clst2sect (f.opened i).fp.clust ≠ 0 ∧
      (f.opened i).volume.layout.clst2sect (f.opened i).fp.clust + (f.opened i).csect =
        f.volume.layout.sectorAt (f.chains i) ((f.fil i).fptr.toNat / 512) := by
  have hvalid := h.valid i _ (List.mem_of_getElem? hclust)
  refine ⟨h.laid.clst2sect_ne_zero hvalid, ?_⟩
  have hcsect : (f.opened i).csect.toNat = _ := Opened.csect_toNat h.laid
  rw [opened_fp, opened_volume] at hcsect
  have hsector := Layout.sectorAt_cluster hclust
    (show (f.opened i).csect.toNat < f.volume.layout.csize.toNat by
      rw [hcsect]
      exact Nat.mod_lt _ h.laid.csize_pos)
  rw [opened_volume, opened_fp, hsector, hcsect, Nat.mul_comm, Nat.div_add_mod]

/-- Inside of a cluster, the file pointer is in the current one. -/
theorem Sound.currentCluster (h : f.Sound) (i : ι)
    (hinside : (f.fil i).fptr.toNat / 512 % f.volume.layout.csize.toNat ≠ 0) :
    (f.chains i)[(f.fil i).fptr.toNat / 512 / f.volume.layout.csize.toNat]? =
      some (f.fil i).clust := by
  have hpos : 0 < (f.fil i).fptr.toNat := Nat.pos_of_ne_zero fun hz => hinside (by rw [hz]; simp)
  have hplace := place_pred f.volume.layout.csize.toNat hpos
  rw [if_neg fun hand => hinside hand.2, Nat.add_zero] at hplace
  rw [hplace]
  exact (h.placed i).cluster hpos

variable [DecidableEq ι]

/-- The cluster that the file pointer is in. -/
theorem Sound.readCluster_spec (h : f.Sound) (hboundary : (f.fil i).fptr.toNat % 512 = 0)
    (hlt : (f.fil i).fptr.toNat < (f.fil i).objsize.toNat) :
    ∃ c f', (f.opened i).readCluster = (.ok, f'.opened i) ∧ f.Quiet f' i ∧
      f'.chains = f.chains ∧ f'.fil i = { f.fil i with clust := c } ∧
      (f.chains i)[(f.fil i).fptr.toNat / 512 / f.volume.layout.csize.toNat]? = some c := by
  have hcsize := h.laid.csize_pos
  have hplace := Layout.place_lt (h.place_lt hlt)
  have hcsect := Opened.csect_toNat (o := f.opened i) h.laid
  generalize hindex : (f.fil i).fptr.toNat / 512 / f.volume.layout.csize.toNat = index at hplace ⊢
  have hnext : (f.chains i)[index]? = some (f.chains i)[index] := List.getElem?_eq_getElem hplace
  generalize (f.chains i)[index] = c at hnext
  have hvalid := h.valid i c (List.mem_of_getElem? hnext)
  have hlow : ¬ c < 2 := BitVec.not_lt.mpr hvalid.1
  have hlast : c ≠ 0xFFFFFFFF := by
    rintro rfl
    have hlimit := hvalid.2.trans_le h.covers.limit
    refine absurd hlimit ?_
    cases f.volume.layout.fsType <;> decide
  have hset : ∀ v', f.volume.Keeps v' → ∃ f', Opened.mk v' { f.fil i with clust := c } =
      f'.opened i ∧ f.Quiet f' i ∧ f'.chains = f.chains ∧
      f'.fil i = { f.fil i with clust := c } := by
    intro v' hkeeps
    have hmoved := h.toStored.keeps i hkeeps
    let g : Files ι := f.put i ⟨v', f.fil i⟩
    have hquiet : g.Quiet (g.put i ⟨v', { f.fil i with clust := c }⟩) i :=
      hmoved.stored.setFil (by rw [put_fil_self]) (by rw [put_fil_self]) (by rw [put_fil_self])
        (by rw [put_fil_self]) (by rw [put_fil_self])
    exact ⟨_, (opened_put ..).symm, hmoved.trans hquiet, rfl, put_fil_self ..⟩
  rw [Opened.readCluster]
  -- Only at the start of a cluster the chain is followed.
  by_cases hfirst : (f.fil i).fptr.toNat / 512 % f.volume.layout.csize.toNat = 0
  · have hzero : (f.opened i).csect = 0 := BitVec.eq_of_toNat_eq (hcsect.trans hfirst)
    rw [if_pos hzero]
    by_cases htop : (f.fil i).fptr = 0
    · have hhead : (f.fil i).sclust = c := by
        rw [htop] at hindex
        have hzeroIndex : index = 0 := by
          rw [← hindex]
          simp
        rw [(h.fil i).start, List.head?_eq_getElem?, ← hzeroIndex, hnext, Option.getD_some]
      obtain ⟨f', hopened, hquiet, hchains, hfil⟩ := hset f.volume h.volume.keeps
      refine ⟨c, f', ?_, hquiet, hchains, hfil, hnext⟩
      rw [← hopened]
      simp only [opened, if_pos htop, hhead, if_neg hlow, if_neg hlast]
    · have hpos : 0 < (f.fil i).fptr.toNat := Nat.pos_of_ne_zero fun hz =>
        htop (BitVec.eq_of_toNat_eq hz)
      have hbefore : index =
          ((f.fil i).fptr.toNat - 1) / 512 / f.volume.layout.csize.toNat + 1 := by
        rw [← hindex, place_pred _ hpos, if_pos ⟨hboundary, hfirst⟩]
      have hclust := (h.placed i).cluster hpos
      have hentry := h.toSound.entry_next hclust (hbefore ▸ hnext)
      have hvalidClust := h.valid i _ (List.mem_of_getElem? hclust)
      obtain ⟨v', hget, hkeeps⟩ := h.volume.getFat_spec h.covers hvalidClust
      obtain ⟨f', hopened, hquiet, hchains, hfil⟩ := hset v' hkeeps
      refine ⟨c, f', ?_, hquiet, hchains, hfil, hnext⟩
      rw [← hopened]
      rw [hentry] at hget
      simp only [opened, if_neg htop, hget, if_neg hlow, if_neg hlast]
  · have hne : (f.opened i).csect ≠ 0 := by
      intro hzero
      rw [hzero] at hcsect
      exact hfirst hcsect.symm
    have hclust := h.currentCluster i hfirst
    rw [hindex, hnext] at hclust
    refine ⟨c, f, by rw [if_neg hne], h.quiet i, rfl, ?_, hnext⟩
    rw [Option.some_inj.mp hclust]

/-- The buffer with a sector of the file. -/
theorem Stored.readSector_spec (h : f.Stored) (hk : k < f.volume.layout.span (f.chains i)) :
    ∃ d b f', (f.opened i).readSector (f.volume.layout.sectorAt (f.chains i) k) =
        (.ok, f'.opened i) ∧ f.Quiet f' i ∧ f'.chains = f.chains ∧
      f'.fil i = { f.fil i with
        dirty := d, sect := f.volume.layout.sectorAt (f.chains i) k, buf := b } := by
  rw [Opened.readSector]
  by_cases hsame : (f.fil i).sect = f.volume.layout.sectorAt (f.chains i) k
  · refine ⟨(f.fil i).dirty, (f.fil i).buf, f, ?_, h.quiet i, rfl, ?_⟩
    · rw [opened_fp, if_neg (not_not_intro hsame)]
    · rw [← hsame]
  · obtain ⟨f₁, hback, hquiet₁, hchains₁, hfil₁⟩ := h.writeBack_spec i
    have hk₁ : k < f₁.volume.layout.span (f₁.chains i) := by rwa [hquiet₁.layout, hchains₁]
    have hsector : f₁.volume.layout.sectorAt (f₁.chains i) k =
        f.volume.layout.sectorAt (f.chains i) k := by rw [hquiet₁.layout, hchains₁]
    have hin := hquiet₁.stored.sectorAt_inData hk₁
    obtain ⟨buff, hread, hbuff⟩ := Drive.diskRead_one
      (hquiet₁.stored.serves _ 1 hin hin.2).1
    have hquiet₂ := hquiet₁.stored.setBuf (by rw [hfil₁]) hk₁ rfl
    refine ⟨false, f₁.volume.image (f.volume.layout.sectorAt (f.chains i) k), _, ?_,
      hquiet₁.trans hquiet₂, hchains₁, ?_⟩
    · rw [opened_fp, if_pos hsame, hback, opened_put]
      rw [hsector] at hread hbuff
      have hfill : (f₁.opened i).fill (f.volume.layout.sectorAt (f.chains i) k) =
          (.ok, ⟨f₁.volume, { f₁.fil i with buf := buff 0 }⟩) := by
        rw [Opened.fill]
        simp only [opened, hread]
      simp only [hfill]
      rw [hbuff, hquiet₁.stored.image_eq hk₁, hsector]
    · rw [put_fil_self, hfil₁, hsector]

omit [DecidableEq ι] in
/-- Sectors that are read directly are those of the file, with the buffer among them. -/
theorem Stored.direct_spec (h : f.Stored) (hk : k < f.volume.layout.span (f.chains i))
    {cc : Dword}
    (hcc : k % f.volume.layout.csize.toNat + cc.toNat ≤ f.volume.layout.csize.toNat) :
    ∃ buff, f.volume.drive.diskRead (f.volume.layout.sectorAt (f.chains i) k) cc.toNat =
        some buff ∧
      ∀ m < cc.toNat, (f.opened i).overlay buff (f.volume.layout.sectorAt (f.chains i) k) cc m =
        (f.fil i).sector f.volume (f.chains i) (k + m) := by
  have hin := h.sectorAt_inData hk
  refine ⟨_, if_pos (h.serves _ _ hin (h.laid.run_le (h.valid i) hk hcc)).1, fun m hm => ?_⟩
  have hspan := Layout.add_lt_span hk (i := m) (by omega)
  have hsector := Layout.sectorAt_add (l := f.volume.layout) (f.chains i) (k := k) (i := m)
    (by omega)
  have hdrive : f.volume.drive.sectors
      (f.volume.layout.sectorAt (f.chains i) k + BitVec.ofNat 32 m) =
        f.volume.image (f.volume.layout.sectorAt (f.chains i) (k + m)) := by
    rw [← hsector, h.image_eq hspan]
  have hsub : (f.volume.layout.sectorAt (f.chains i) (k + m) -
      f.volume.layout.sectorAt (f.chains i) k).toNat = m := by
    rw [hsector, add_sub_run (hm.trans cc.isLt)]
  rw [Opened.overlay, Fil.sector, opened_fp]
  by_cases hbuffered : (f.fil i).dirty = true ∧
      (f.fil i).sect = f.volume.layout.sectorAt (f.chains i) (k + m)
  · obtain ⟨hdirty, hsect⟩ := hbuffered
    have hlt : (f.fil i).sect - f.volume.layout.sectorAt (f.chains i) k < cc := by
      rw [hsect, BitVec.lt_def, hsub]
      exact hm
    rw [if_pos ⟨hdirty, hlt⟩, if_pos ⟨hdirty, hsect⟩, hsect, hsub, Function.update_self]
  · rw [if_neg hbuffered]
    split_ifs with hoverlay
    · rw [Function.update_of_ne, hdrive]
      intro heq
      have hsect : (f.fil i).sect = f.volume.layout.sectorAt (f.chains i) (k + m) := by
        rw [hsector, heq, BitVec.ofNat_toNat, BitVec.setWidth_eq, BitVec.add_comm]
        exact (BitVec.sub_add_cancel _ _).symm
      exact hbuffered ⟨hoverlay.1, hsect⟩
    · exact hdrive

/-! ## A round of `f_read` -/

/-- The chunk `c` has the bytes of the file from the file pointer on, and the file pointer has moved
behind them. -/
structure Copied (f f' : Files ι) (i : ι) (btr : Dword) (c : Opened.Chunk) : Prop where
  quiet : f.Quiet f' i
  sound : f'.Sound
  chains : f'.chains = f.chains
  alike : (f.fil i).Alike (f'.fil i)
  fptr : (f'.fil i).fptr.toNat = (f.fil i).fptr.toNat + c.rcnt.toNat
  rcnt : c.rcnt.toNat = Libk.wcnt f.volume.layout.csize.toNat (f.fil i).fptr.toNat btr.toNat
  bytes : ∀ m < c.rcnt.toNat, c.bytes m = f.byte i ((f.fil i).fptr.toNat + m)

/-- The file pointer moves on when the bytes of a round are transferred. Before, only the cluster
and the buffer of the file object may have changed. -/
theorem Sound.advance (h : f.Sound) {g : Files ι} (hquiet : f.Quiet g i)
    (hchains : g.chains = f.chains) {clst x : Dword} {d : Bool} {b : Sector}
    (hfil : g.fil i = { f.fil i with clust := clst, dirty := d, sect := x, buf := b })
    {btr : Dword} (hcount : 0 < btr.toNat)
    (hle : (f.fil i).fptr.toNat + btr.toNat ≤ (f.fil i).objsize.toNat) {c : Opened.Chunk}
    (hn : c.rcnt.toNat =
      Libk.wcnt f.volume.layout.csize.toNat (f.fil i).fptr.toNat btr.toNat)
    (hclust : (f.chains i)[(f.fil i).fptr.toNat / 512 / f.volume.layout.csize.toNat]? = some clst)
    (hcurrent : ((f.fil i).fptr.toNat + c.rcnt.toNat) % 512 ≠ 0 →
      x = f.volume.layout.sectorAt (f.chains i) ((f.fil i).fptr.toNat / 512))
    (hbytes : ∀ m < c.rcnt.toNat, c.bytes m = g.byte i ((f.fil i).fptr.toNat + m)) :
    ∃ f', (g.opened i).advance c.rcnt = f'.opened i ∧ f.Copied f' i btr c := by
  obtain ⟨hpos, hbound, -⟩ := Libk.wcnt_bounds h.laid.csize_pos (f.fil i).fptr.toNat hcount
  have hsize := (f.fil i).objsize.isLt
  have hnat : ((f.fil i).fptr + c.rcnt).toNat = (f.fil i).fptr.toNat + c.rcnt.toNat := by
    rw [BitVec.toNat_add, Nat.mod_eq_of_lt (by omega)]
  have hmoved : f.Quiet (g.put i ((g.opened i).advance c.rcnt)) i :=
    hquiet.trans (hquiet.stored.setFil rfl rfl rfl rfl rfl)
  have hfil' : (g.put i ((g.opened i).advance c.rcnt)).fil i =
      { f.fil i with
        fptr := (f.fil i).fptr + c.rcnt, clust := clst, dirty := d, sect := x, buf := b } := by
    rw [put_fil_self, Opened.advance, opened_fp, hfil]
  refine ⟨_, (opened_put ..).symm, hmoved, hmoved.sound h ?_, hchains, ?_, ?_, hn, ?_⟩
  · rw [hfil', put_chains, hchains]
    refine Fil.Placed.of_round h.laid.csize_pos hcount (h.placed i).err
      (hnat.trans (by rw [hn])) ?_ hclust ?_
    · change ((f.fil i).fptr + c.rcnt).toNat ≤ (f.fil i).objsize.toNat
      rw [hnat]
      omega
    · intro hinside
      exact hcurrent (hnat ▸ hinside)
  · rw [hfil']
    exact ⟨rfl, rfl, rfl⟩
  · rw [hfil']
    exact hnat
  · intro m hm
    have hcapacity := (h.fil i).capacity
    rw [hbytes m hm, hquiet.bytes]
    rw [room]
    omega

omit [DecidableEq ι] in
/-- The bytes of the buffer are those of the file from the file pointer on. -/
theorem Stored.extract_spec (h : f.Stored) (btr : Dword)
    (hspan : (f.fil i).fptr.toNat / 512 < f.volume.layout.span (f.chains i))
    (hsect : (f.fil i).sect =
      f.volume.layout.sectorAt (f.chains i) ((f.fil i).fptr.toNat / 512)) {m : Nat}
    (hm : m < ((f.opened i).extract btr).rcnt.toNat) :
    ((f.opened i).extract btr).bytes m = f.byte i ((f.fil i).fptr.toNat + m) := by
  have hrest : ((f.opened i).rest btr).toNat = _ := Opened.rest_toNat
  rw [Opened.extract_rcnt] at hm
  have hne : (f.fil i).sect ≠ 0 := hsect ▸ (h.laid.inData_bounds (h.sectorAt_inData hspan)).1
  have hplace : ((f.fil i).fptr.toNat + m) / 512 = (f.fil i).fptr.toNat / 512 := by
    rw [opened_fp] at hrest
    omega
  have hofs : ofs ((f.fil i).fptr.toNat + m) =
      ofs (((f.opened i).fp.fptr % 512).toNat + m) := by
    apply Fin.ext
    change ((f.fil i).fptr.toNat + m) % 512 = _ % 512
    rw [Opened.mod512_toNat, opened_fp]
    omega
  rw [byte, Fil.byte, hplace, (h.fil i).sector_eq hne hsect, hofs]
  rfl

/-- A round that takes its bytes out of the buffer: inside a sector, or for less than a sector. -/
theorem Sound.extract_copied (h : f.Sound) {g : Files ι} (hquiet : f.Quiet g i)
    (hchains : g.chains = f.chains) {clst x : Dword} {d : Bool} {b : Sector}
    (hfil : g.fil i = { f.fil i with clust := clst, dirty := d, sect := x, buf := b })
    {btr : Dword} (hcount : 0 < btr.toNat)
    (hle : (f.fil i).fptr.toNat + btr.toNat ≤ (f.fil i).objsize.toNat)
    (hpart : ¬ ((f.fil i).fptr.toNat % 512 = 0 ∧ 0 < btr.toNat / 512))
    (hclust : (f.chains i)[(f.fil i).fptr.toNat / 512 / f.volume.layout.csize.toNat]? = some clst)
    (hsect : x = f.volume.layout.sectorAt (f.chains i) ((f.fil i).fptr.toNat / 512)) :
    ∃ f', (g.opened i).advance ((g.opened i).extract btr).rcnt = f'.opened i ∧
      f.Copied f' i btr ((g.opened i).extract btr) := by
  have hlayout := hquiet.layout
  have hfptr : (g.fil i).fptr = (f.fil i).fptr := by rw [hfil]
  have hrcnt : ((g.opened i).extract btr).rcnt.toNat =
      Libk.wcnt f.volume.layout.csize.toNat (g.fil i).fptr.toNat btr.toNat := by
    rw [Opened.extract_rcnt]
    exact Opened.rest_wcnt f.volume.layout.csize.toNat (hfptr.symm ▸ hpart)
  rw [hfptr] at hrcnt
  have hspan : (g.fil i).fptr.toNat / 512 < g.volume.layout.span (g.chains i) := by
    rw [hlayout, hchains, hfptr]
    exact h.place_lt (by omega)
  have hcurrent : (g.fil i).sect =
      g.volume.layout.sectorAt (g.chains i) ((g.fil i).fptr.toNat / 512) := by
    rw [hfptr, hlayout, hchains, hfil, ← hsect]
  refine h.advance hquiet hchains hfil hcount hle hrcnt hclust (fun _ => hsect) fun m hm => ?_
  rw [hquiet.stored.extract_spec btr hspan hcurrent hm, hfptr]

/-- A round that reads whole sectors past the buffer. -/
theorem Sound.direct_copied (h : f.Sound) {g : Files ι} (hquiet : f.Quiet g i)
    (hchains : g.chains = f.chains) {clst : Dword} (hfil : g.fil i = { f.fil i with clust := clst })
    {btr : Dword} (hcount : 0 < btr.toNat)
    (hle : (f.fil i).fptr.toNat + btr.toNat ≤ (f.fil i).objsize.toNat)
    (hboundary : (f.fil i).fptr.toNat % 512 = 0) (hwhole : 0 < btr.toNat / 512)
    (hclust : (f.chains i)[(f.fil i).fptr.toNat / 512 / f.volume.layout.csize.toNat]? = some clst)
    {sect cc : Dword} (hcc : cc = (g.opened i).direct btr)
    (hsect : sect = g.volume.layout.sectorAt (g.chains i) ((g.fil i).fptr.toNat / 512)) :
    ∃ buff f', g.volume.drive.diskRead sect cc.toNat = some buff ∧
      (g.opened i).advance (512 * cc) = f'.opened i ∧ f.Copied f' i btr
        ⟨512 * cc, fun m => (g.opened i).overlay buff sect cc (m / 512) (ofs m)⟩ := by
  have hlayout := hquiet.layout
  have hfptr : (g.fil i).fptr = (f.fil i).fptr := by rw [hfil]
  have hspan : (g.fil i).fptr.toNat / 512 < g.volume.layout.span (g.chains i) := by
    rw [hlayout, hchains, hfptr]
    exact h.place_lt (by omega)
  have hdirect : cc.toNat = _ := hcc ▸ Opened.direct_toNat (o := g.opened i) hquiet.stored.laid
  have hrcnt : (512 * cc).toNat = _ :=
    hcc ▸ Opened.direct_wcnt (o := g.opened i) hquiet.stored.laid (hfptr ▸ hboundary) hwhole
  rw [opened_fp, opened_volume] at hdirect hrcnt
  rw [hlayout, hfptr] at hrcnt
  -- The run of sectors does not leave the cluster.
  have hmod := Nat.mod_lt ((g.fil i).fptr.toNat / 512) hquiet.stored.laid.csize_pos
  have hbytes : (512 * cc).toNat = 512 * cc.toNat := by
    have hsector : (512 : Dword).toNat = 512 := rfl
    have hlimit := btr.isLt
    rw [BitVec.toNat_mul, hsector, Nat.mod_eq_of_lt (by omega)]
  have hfits : (g.fil i).fptr.toNat / 512 % g.volume.layout.csize.toNat + cc.toNat ≤
      g.volume.layout.csize.toNat := by omega
  obtain ⟨buff, hread, hbuff⟩ := hquiet.stored.direct_spec hspan hfits
  rw [← hsect] at hread hbuff
  obtain ⟨f', hopened, hcopied⟩ := h.advance (x := (f.fil i).sect) hquiet hchains hfil hcount hle
    (c := ⟨512 * cc, fun m => (g.opened i).overlay buff sect cc (m / 512) (ofs m)⟩) hrcnt hclust
    (fun hinside => by
      dsimp only at hinside
      omega)
    fun m hm => by
      dsimp only at hm ⊢
      have hsplit : ((f.fil i).fptr.toNat + m) / 512 = (f.fil i).fptr.toNat / 512 + m / 512 := by
        omega
      have hofs : ofs ((f.fil i).fptr.toNat + m) = ofs m := by
        apply Fin.ext
        change ((f.fil i).fptr.toNat + m) % 512 = m % 512
        omega
      rw [hbuff _ (by omega), byte, Fil.byte, hsplit, hofs, hfptr]
  exact ⟨buff, f', hread, hopened, hcopied⟩

/-- A round copies bytes of the file, and moves the file pointer behind them. -/
theorem Sound.readRound_spec (h : f.Sound) (i : ι) {btr : Dword} (hpos : 0 < btr.toNat)
    (hle : (f.fil i).fptr.toNat + btr.toNat ≤ (f.fil i).objsize.toNat) :
    ∃ c o f', (f.opened i).readRound btr = (.ok c, o) ∧ o.advance c.rcnt = f'.opened i ∧
      f.Copied f' i btr c := by
  have hlt : (f.fil i).fptr.toNat < (f.fil i).objsize.toNat := by omega
  have hdiv := Opened.div512_toNat btr
  rw [Opened.readRound, opened_fp]
  by_cases hboundary : (f.fil i).fptr.toNat % 512 = 0
  case neg =>
    -- The buffer holds the sector already.
    have hfptr : 0 < (f.fil i).fptr.toNat := by omega
    have hclust := (h.placed i).cluster hfptr
    have hplace := place_pred f.volume.layout.csize.toNat hfptr
    rw [if_neg fun hand => hboundary hand.1, Nat.add_zero] at hplace
    rw [← hplace] at hclust
    obtain ⟨f', hopened, hcopied⟩ := h.extract_copied (h.quiet i) rfl rfl hpos hle
      (fun hand => hboundary hand.1) hclust ((h.placed i).current hboundary)
    refine ⟨_, f.opened i, f', ?_, hopened, hcopied⟩
    rw [if_neg (mt Opened.mod512_eq_zero.mp hboundary)]
  case pos =>
    obtain ⟨c, g, hcluster, hquiet, hchains, hfil, hclust⟩ := h.readCluster_spec hboundary hlt
    have hlayout := hquiet.layout
    have hfptr : (g.fil i).fptr = (f.fil i).fptr := by rw [hfil]
    obtain ⟨hzero, hsector⟩ := hquiet.stored.sector_spec (i := i) (by
      rw [hchains, hlayout, hfptr, hfil]
      exact hclust)
    rw [if_pos (Opened.mod512_eq_zero.mpr hboundary), hcluster]
    dsimp only
    rw [if_neg hzero, hsector]
    by_cases hwhole : 0 < btr.toNat / 512
    · have hif : (0 : Dword) < btr / 512 := by
        rw [BitVec.lt_def, hdiv]
        exact hwhole
      obtain ⟨buff, f', hread, hopened, hcopied⟩ :=
        h.direct_copied hquiet hchains hfil hpos hle hboundary hwhole hclust rfl rfl
      rw [if_pos hif, opened_volume, hread]
      exact ⟨_, _, f', rfl, hopened, hcopied⟩
    · have hif : ¬ (0 : Dword) < btr / 512 := by
        rw [BitVec.lt_def, hdiv]
        exact hwhole
      have hspan : (g.fil i).fptr.toNat / 512 < g.volume.layout.span (g.chains i) := by
        rw [hlayout, hchains, hfptr]
        exact h.place_lt hlt
      obtain ⟨d, b, g', hread, hquiet', hchains', hfil'⟩ := hquiet.stored.readSector_spec hspan
      obtain ⟨f', hopened, hcopied⟩ := h.extract_copied (hquiet.trans hquiet')
        (hchains'.trans hchains) (by rw [hfil', hfil]) hpos hle (fun hand => hwhole hand.2) hclust
        (by rw [hlayout, hchains])
      rw [if_neg hif, hread]
      exact ⟨_, _, f', rfl, hopened, hcopied⟩

/-! ## A run of `f_read` -/

omit [DecidableEq ι] in
theorem length_contents (f : Files ι) (i : ι) :
    (f.contents i).length = (f.fil i).objsize.toNat := by
  rw [contents, Fil.contents, List.length_map, List.length_range]

omit [DecidableEq ι] in
/-- A part of the file, byte by byte. -/
theorem slice_contents {p r : Nat} (h : p + r ≤ (f.fil i).objsize.toNat) :
    ((f.contents i).drop p).take r = (List.range r).map fun m => f.byte i (p + m) := by
  apply List.ext_getElem
  · rw [List.length_take, List.length_drop, length_contents, List.length_map, List.length_range]
    omega
  · intro m hm _
    rw [List.getElem_take, List.getElem_drop, List.getElem_map, List.getElem_range]
    simp only [contents, Fil.contents, List.getElem_map, List.getElem_range]

omit [DecidableEq ι] in
/-- What a step leaves the bytes of, if it does not change the size. -/
theorem Quiet.contents (h : f.Quiet f' i) (hstored : f.Stored)
    (hsize : (f'.fil i).objsize = (f.fil i).objsize) (j : ι) : f'.contents j = f.contents j := by
  have hsame : (f'.fil j).objsize = (f.fil j).objsize := by
    by_cases hj : j = i
    · rw [hj, hsize]
    · rw [(h.others j hj).1]
  rw [Files.contents, Files.contents, Fil.contents, Fil.contents, hsame]
  apply List.map_congr_left
  intro n hn
  exact h.bytes j n ((List.mem_range.mp hn).trans_le (hstored.fil j).capacity)

/-- The loop copies as many bytes as it is asked for. -/
theorem Sound.readLoop_spec (h : f.Sound) (i : ι) {fuel : Nat} (btr : Dword) (bytes : List Byte)
    (hle : (f.fil i).fptr.toNat + btr.toNat ≤ (f.fil i).objsize.toNat)
    (hfuel : btr.toNat < fuel) :
    ∃ f', Opened.readLoop fuel (f.opened i) btr bytes = some ⟨.ok,
        bytes ++ ((f.contents i).drop (f.fil i).fptr.toNat).take btr.toNat, f'.opened i⟩ ∧
      f.Quiet f' i ∧ f'.Sound ∧ f'.chains = f.chains ∧ (f.fil i).Alike (f'.fil i) ∧
      (f'.fil i).fptr.toNat = (f.fil i).fptr.toNat + btr.toNat := by
  induction fuel generalizing f btr bytes with
  | zero => exact absurd hfuel (Nat.not_lt_zero _)
  | succ fuel ih =>
      rw [Opened.readLoop]
      by_cases hzero : btr = 0
      · subst hzero
        refine ⟨f, ?_, h.quiet i, h, rfl, ⟨rfl, rfl, rfl⟩, rfl⟩
        rw [if_pos rfl]
        exact congrArg (fun l => some (Opened.Reading.mk .ok l (f.opened i)))
          (List.append_nil bytes).symm
      · have hpos : 0 < btr.toNat := Nat.pos_of_ne_zero fun hz =>
          hzero (BitVec.eq_of_toNat_eq hz)
        obtain ⟨c, o, f₁, hround, hadvance, hquiet, hsound, hchains, halike, hfptr, hn, hbytes⟩ :=
          h.readRound_spec i hpos hle
        obtain ⟨hmore, hbound, -⟩ :=
          Libk.wcnt_bounds h.laid.csize_pos (f.fil i).fptr.toNat hpos
        rw [← hn] at hmore hbound
        have hrest : (btr - c.rcnt).toNat = btr.toNat - c.rcnt.toNat :=
          BitVec.toNat_sub_of_le hbound
        have hcontents := hquiet.contents h.toStored halike.objsize i
        obtain ⟨f₂, hloop, hquiet', hsound', hchains', halike', hfptr'⟩ :=
          ih hsound (btr - c.rcnt) (bytes ++ (List.range c.rcnt.toNat).map c.bytes)
            (by rw [hfptr, hrest, halike.objsize]; omega) (by omega)
        refine ⟨f₂, ?_, hquiet.trans hquiet', hsound', hchains'.trans hchains,
          halike.trans halike', by omega⟩
        rw [if_neg hzero, hround]
        dsimp only
        rw [hadvance, hloop, hcontents, hfptr, hrest]
        -- The chunk of this round, and what is left of the request.
        have hchunk : (List.range c.rcnt.toNat).map c.bytes =
            ((f.contents i).drop (f.fil i).fptr.toNat).take c.rcnt.toNat := by
          rw [slice_contents (by omega)]
          exact List.map_congr_left fun m hm => hbytes m (List.mem_range.mp hm)
        have hsplit : btr.toNat = c.rcnt.toNat + (btr.toNat - c.rcnt.toNat) := by omega
        rw [hchunk, List.append_assoc, ← List.drop_drop, ← List.take_add, ← hsplit]

/-- `f_read` returns the bytes from the file pointer on, up to the end of the file, and leaves the
contents of all files as they are. -/
theorem Sound.fRead_spec (h : f.Sound) (i : ι) (hreadable : (f.fil i).readable = true)
    (btr : Dword) :
    ∃ f', (f.opened i).fRead btr = some ⟨.ok,
        ((f.contents i).drop (f.fil i).fptr.toNat).take btr.toNat, f'.opened i⟩ ∧
      f.Quiet f' i ∧ f'.Sound ∧ f'.chains = f.chains ∧ (f.fil i).Alike (f'.fil i) ∧
      (f'.fil i).fptr.toNat =
        min ((f.fil i).fptr.toNat + btr.toNat) (f.fil i).objsize.toNat := by
  have hwithin := (h.placed i).within
  have hremain : ((f.fil i).objsize - (f.fil i).fptr).toNat =
      (f.fil i).objsize.toNat - (f.fil i).fptr.toNat := BitVec.toNat_sub_of_le hwithin
  generalize hclip : (if (f.fil i).objsize - (f.fil i).fptr < btr then
    (f.fil i).objsize - (f.fil i).fptr else btr) = n
  have hn : n.toNat = min btr.toNat ((f.fil i).objsize.toNat - (f.fil i).fptr.toNat) := by
    rw [← hclip]
    split_ifs with hlt <;> rw [BitVec.lt_def, hremain] at hlt
    · rw [hremain]
      omega
    · omega
  obtain ⟨f', hloop, hquiet, hsound, hchains, halike, hfptr⟩ :=
    h.readLoop_spec i n [] (by omega) (Nat.lt_succ_self _)
  refine ⟨f', ?_, hquiet, hsound, hchains, halike, by omega⟩
  rw [Opened.fRead, opened_fp, if_neg (not_not_intro (h.placed i).err),
    if_neg (by rw [hreadable]; decide)]
  dsimp only
  rw [hclip, hloop, List.nil_append, hn, ← length_contents f i, ← List.length_drop,
    List.take_eq_take_iff.mpr]
  omega

/-! ## Empty files -/

/-- A file object as `f_open` makes it for a file without bytes, open for both. -/
def emptyFil : Fil where
  readable := true
  writable := true
  modified := false
  dirty := false
  err := .ok
  fptr := 0
  objsize := 0
  sclust := 0
  clust := 0
  sect := 0
  buf := fun _ => 0

/-- Two empty files on an empty volume. -/
def emptyFiles : Files Bool := ⟨Session.emptySession, fun _ => emptyFil⟩

theorem emptyFiles_laid : emptyVolume.layout.Laid where
  fats := emptyVolume_sound.fits
  reserved := by decide
  system := by decide
  cluster := ⟨0, rfl⟩
  data := by decide

theorem emptyFiles_sound : emptyFiles.Sound where
  toSound := Session.emptySession_sound
  laid := emptyFiles_laid
  serves := fun _ _ _ _ => ⟨rfl, rfl⟩
  away := fun _ _ hk => absurd hk (by
    rw [show emptyFiles.volume.layout.span (emptyFiles.chains _) = 0 from Nat.zero_mul _]
    exact Nat.not_lt_zero _)
  fil := fun _ => ⟨rfl, Nat.zero_le _, fun hne => absurd rfl hne, fun hne => absurd rfl hne,
    fun hdirty => absurd hdirty Bool.false_ne_true⟩
  placed := fun _ => ⟨rfl, Nat.le_refl _, fun hpos => absurd hpos (Nat.lt_irrefl 0),
    fun hne => absurd rfl hne⟩

/-! ## A file of two clusters -/

/-- A volume with a chain of the clusters 2 and 3. The bytes of the data area depend on their
sector and their place in it. -/
def chainVolume : Volume := { emptyVolume with
  drive := { emptyVolume.drive with
    sectors := fun s i =>
      if s = 1 ∨ s = 2 then
        if i.val = 3 then 0x03 else if i.val = 4 then 0xF0 else if i.val = 5 then 0xFF else 0
      else if s < 4 then 0
      else BitVec.ofNat 8 (s.toNat + i) } }

theorem chainVolume_image (s : Dword) : chainVolume.image s = chainVolume.drive.sectors s :=
  congrFun (Volume.image_of_clean rfl) s

theorem chainVolume_sound : chainVolume.Sound := by
  refine ⟨emptyVolume_sound.fits, fun _ _ => ⟨rfl, rfl⟩, fun _ _ => rfl,
    fun hdirty => absurd hdirty Bool.false_ne_true, fun s => ?_⟩
  by_cases hs : chainVolume.layout.InCopy s
  · have htwo : s = 2 := by
      have hlt : s - 1 - 1 < 1 := hs.2
      bv_omega
    subst htwo
    rw [chainVolume_image, chainVolume_image]
    rfl
  · rw [Layout.home, if_neg hs]

theorem chainVolume_entry :
    chainVolume.entry 2 = 3 ∧ chainVolume.entry 3 = 0xFFF ∧ chainVolume.entry 4 = 0 := by
  decide +kernel

/-- A file of 1000 bytes, with the file pointer in front of the end of its first sector. -/
def chainFil : Fil := { emptyFil with
  fptr := 500
  objsize := 1000
  sclust := 2
  clust := 2
  sect := 4
  buf := fun i => BitVec.ofNat 8 (4 + i) }

def chainFiles : Files Bool :=
  ⟨⟨chainVolume, fun i => if i then [2, 3] else []⟩, fun i => if i then chainFil else emptyFil⟩

theorem chainFiles_session : chainFiles.toSession.Sound where
  volume := chainVolume_sound
  covers := emptyVolume_covers
  regular := by
    rintro c ⟨hlow, hhigh⟩
    have hc : c = 2 ∨ c = 3 ∨ c = 4 := by
      have hhigh : c < 5 := hhigh
      bv_omega
    obtain ⟨htwo, hthree, hfour⟩ := chainVolume_entry
    change chainVolume.entry c ≠ 1
    rcases hc with rfl | rfl | rfl
    · rw [htwo]
      decide
    · rw [hthree]
      decide
    · rw [hfour]
      decide
  counted := .inr rfl
  valid := by
    intro i c hc
    cases i with
    | false => exact absurd hc List.not_mem_nil
    | true =>
        have htwo : emptyVolume.layout.Valid 2 := by decide
        have hthree : emptyVolume.layout.Valid 3 := by decide
        rcases List.mem_pair.mp hc with rfl | rfl
        · exact htwo
        · exact hthree
  threaded := by
    obtain ⟨htwo, hthree, -⟩ := chainVolume_entry
    constructor
    case visits =>
      intro i
      cases i with
      | false => exact ⟨_, rfl⟩
      | true =>
          have hnext : chainVolume.link 2 = 3 := by
            rw [Volume.link, htwo]
            rfl
          have hend : chainVolume.link 3 = 5 := by
            rw [Volume.link, hthree]
            rfl
          have hvisits : Visits 5 chainVolume.link 2 [2, 3] :=
            ⟨rfl, by decide, hnext, by decide, hend⟩
          exact ⟨2, hvisits⟩
    case exclusive =>
      intro i j c hi hj
      cases i with
      | false => exact absurd hi List.not_mem_nil
      | true =>
          cases j with
          | false => exact absurd hj List.not_mem_nil
          | true => rfl

theorem chainFiles_sound : chainFiles.Sound where
  toSound := chainFiles_session
  laid := emptyFiles_laid
  serves := fun _ _ _ _ => ⟨rfl, rfl⟩
  away := by
    intro i k hk
    cases i with
    | false => exact absurd hk (Nat.not_lt_zero _)
    | true =>
        have hall : ∀ k < 2, (0 : Dword) ≠ emptyVolume.layout.sectorAt [2, 3] k := by decide
        exact hall k hk
  fil := by
    intro i
    cases i with
    | false => exact ⟨rfl, Nat.zero_le _, fun hne => absurd rfl hne, fun hne => absurd rfl hne,
        fun hdirty => absurd hdirty Bool.false_ne_true⟩
    | true =>
        refine ⟨rfl, by decide, fun _ => ⟨0, by decide, rfl⟩, fun _ _ => ?_,
          fun hdirty => absurd hdirty Bool.false_ne_true⟩
        rw [show chainFiles.volume.image _ = _ from chainVolume_image _]
        rfl
  placed := by
    intro i
    cases i with
    | false => exact emptyFiles_sound.placed false
    | true => exact ⟨rfl, by decide, fun _ => rfl, fun _ => rfl⟩

/-- The bytes of the file, in the order of its clusters. -/
theorem contents_chainFiles : chainFiles.contents true =
    (List.range 1000).map fun n => BitVec.ofNat 8 (4 + n / 512 + n % 512) := by
  refine List.map_congr_left fun n hn => ?_
  have hn : n < 1000 := List.mem_range.mp hn
  have hsector : emptyVolume.layout.sectorAt [2, 3] (n / 512) = BitVec.ofNat 32 (4 + n / 512) := by
    have hall : ∀ k < 2,
        emptyVolume.layout.sectorAt [2, 3] k = BitVec.ofNat 32 (4 + k) := by decide
    exact hall _ (by omega)
  change chainVolume.image (emptyVolume.layout.sectorAt [2, 3] (n / 512)) (ofs n) = _
  have hlow : ¬ (BitVec.ofNat 32 (4 + n / 512) = 1 ∨ BitVec.ofNat 32 (4 + n / 512) = 2) := by
    bv_omega
  have hdata : ¬ BitVec.ofNat 32 (4 + n / 512) < 4 := by
    bv_omega
  have hnat : (BitVec.ofNat 32 (4 + n / 512)).toNat = 4 + n / 512 := by
    rw [BitVec.toNat_ofNat]
    omega
  rw [chainVolume_image, hsector, chainVolume]
  simp only [if_neg hlow, if_neg hdata, hnat, ofs, Fin.val_ofNat]

/-- 500 bytes of two sectors are read, up to the end of the file. -/
theorem fRead_spec_chainFiles :
    ∃ f', (chainFiles.opened true).fRead 600 = some ⟨.ok,
        ((List.range 1000).drop 500).map fun n => BitVec.ofNat 8 (4 + n / 512 + n % 512),
        f'.opened true⟩ ∧
      chainFiles.Quiet f' true ∧ f'.Sound ∧ (f'.fil true).fptr = 1000 := by
  obtain ⟨f', hread, hquiet, hsound, -, -, hfptr⟩ := chainFiles_sound.fRead_spec true rfl 600
  refine ⟨f', ?_, hquiet, hsound, BitVec.eq_of_toNat_eq hfptr⟩
  rw [hread, contents_chainFiles, ← List.map_drop, List.take_of_length_le (by simp; decide)]
  rfl

end Files

end Senob.Fat
