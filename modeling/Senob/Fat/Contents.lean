import Senob.Fat.DataArea

/-!
# The contents of files

What the bytes of a file are: those of its sectors in the image of the volume, with a dirty buffer
over them. The steps of the file functions that do not write data leave the bytes of all files
as they are.
-/

namespace Senob.Fat

open Foundation
open Libk (FResult)

/-- The files of a volume, with a file object for each of them. -/
structure Files (ι : Type*) extends Session ι where
  fil : ι → Fil

namespace Fil

variable {fp : Fil} {v v' : Volume} {cs cs' : List Dword} {k n : Nat}

/-- A sector of the file, which may be in the buffer. -/
def sector (fp : Fil) (v : Volume) (cs : List Dword) (k : Nat) : Sector :=
  if fp.dirty ∧ fp.sect = v.layout.sectorAt cs k then fp.buf else v.image (v.layout.sectorAt cs k)

def byte (fp : Fil) (v : Volume) (cs : List Dword) (n : Nat) : Byte :=
  fp.sector v cs (n / 512) (ofs n)

/-- The bytes of the file. -/
def contents (fp : Fil) (v : Volume) (cs : List Dword) : List Byte :=
  (List.range fp.objsize.toNat).map (fp.byte v cs)

/-- The chain of the file has room for its bytes, and the buffer holds a sector of it. -/
structure Stored (fp : Fil) (v : Volume) (cs : List Dword) : Prop where
  start : fp.sclust = cs.head?.getD 0
  capacity : fp.objsize.toNat ≤ v.layout.span cs * 512
  cached : fp.sect ≠ 0 → ∃ k < v.layout.span cs, fp.sect = v.layout.sectorAt cs k
  clean : fp.sect ≠ 0 → fp.dirty = false → fp.buf = v.image fp.sect
  dirty : fp.dirty = true → fp.sect ≠ 0

/-- A volume on which the sectors of the file are the same. -/
theorem sector_congr (hlayout : v'.layout = v.layout) (hchain : cs <+: cs')
    (himage : ∀ k < v.layout.span cs,
      v'.image (v.layout.sectorAt cs k) = v.image (v.layout.sectorAt cs k))
    (hk : k < v.layout.span cs) : fp.sector v' cs' k = fp.sector v cs k := by
  rw [sector, sector, hlayout, Layout.sectorAt_prefix hchain hk, himage k hk]

theorem byte_congr (hlayout : v'.layout = v.layout) (hchain : cs <+: cs')
    (himage : ∀ k < v.layout.span cs,
      v'.image (v.layout.sectorAt cs k) = v.image (v.layout.sectorAt cs k))
    (hn : n < v.layout.span cs * 512) : fp.byte v' cs' n = fp.byte v cs n := by
  rw [byte, byte, sector_congr hlayout hchain himage (Nat.div_lt_of_lt_mul (by omega))]

theorem Stored.congr (h : fp.Stored v cs) (hlayout : v'.layout = v.layout)
    (himage : ∀ k < v.layout.span cs,
      v'.image (v.layout.sectorAt cs k) = v.image (v.layout.sectorAt cs k)) :
    fp.Stored v' cs := by
  refine ⟨h.start, hlayout ▸ h.capacity, hlayout ▸ h.cached, fun hsect hdirty => ?_, h.dirty⟩
  obtain ⟨k, hk, heq⟩ := h.cached hsect
  rw [h.clean hsect hdirty, heq, himage k hk]

/-- What the buffer holds is the sector of the file, dirty or not. -/
theorem Stored.sector_eq (h : fp.Stored v cs) (hsect : fp.sect ≠ 0)
    (hk : fp.sect = v.layout.sectorAt cs k) : fp.sector v cs k = fp.buf := by
  rw [sector]
  split_ifs with hdirty
  · rfl
  · rw [← hk, h.clean hsect]
    simpa using fun htrue => hdirty ⟨htrue, hk⟩

end Fil

namespace Files

variable {ι : Type*} {f f' f'' : Files ι} {i j : ι} {k n : Nat}

def opened (f : Files ι) (i : ι) : Opened := ⟨f.volume, f.fil i⟩

@[simp] theorem opened_fp (f : Files ι) (i : ι) : (f.opened i).fp = f.fil i := rfl

@[simp] theorem opened_volume (f : Files ι) (i : ι) : (f.opened i).volume = f.volume := rfl

abbrev byte (f : Files ι) (i : ι) : Nat → Byte := (f.fil i).byte f.volume (f.chains i)

abbrev contents (f : Files ι) (i : ι) : List Byte := (f.fil i).contents f.volume (f.chains i)

/-- The bytes that the chain of a file has room for. -/
def room (f : Files ι) (i : ι) : Nat := f.volume.layout.span (f.chains i) * 512

/-- The FAT holds the chains of the files, the drive holds their sectors, and the window is not
among these. -/
structure Stored (f : Files ι) : Prop extends f.toSession.Sound where
  laid : f.volume.layout.Laid
  serves : f.volume.drive.Serves f.volume.layout
  away : ∀ i, ∀ k < f.volume.layout.span (f.chains i),
    f.volume.fs.winsect ≠ f.volume.layout.sectorAt (f.chains i) k
  fil : ∀ i, (f.fil i).Stored f.volume (f.chains i)

/-- A step for one file: the other files stay as they are, and its own bytes too. -/
structure Quiet (f f' : Files ι) (i : ι) : Prop where
  stored : f'.Stored
  layout : f'.volume.layout = f.volume.layout
  others : ∀ j, j ≠ i → f'.fil j = f.fil j ∧ f'.chains j = f.chains j
  chain : f.chains i <+: f'.chains i
  bytes : ∀ j, ∀ n < f.room j, f'.byte j n = f.byte j n

theorem Stored.quiet (h : f.Stored) (i : ι) : f.Quiet f i :=
  ⟨h, rfl, fun _ _ => ⟨rfl, rfl⟩, List.prefix_rfl, fun _ _ _ => rfl⟩

theorem Quiet.chain_all (h : f.Quiet f' i) (j : ι) : f.chains j <+: f'.chains j := by
  by_cases hj : j = i
  · exact hj ▸ h.chain
  · rw [(h.others j hj).2]

theorem Quiet.room_le (h : f.Quiet f' i) (j : ι) : f.room j ≤ f'.room j := by
  rw [room, room, h.layout]
  exact Nat.mul_le_mul_right _ (Layout.span_mono (h.chain_all j))

theorem Quiet.trans (h : f.Quiet f' i) (h' : f'.Quiet f'' i) : f.Quiet f'' i := by
  refine ⟨h'.stored, h'.layout.trans h.layout, fun j hj => ?_, h.chain.trans h'.chain,
    fun j n hn => ?_⟩
  · exact ⟨(h'.others j hj).1.trans (h.others j hj).1, (h'.others j hj).2.trans (h.others j hj).2⟩
  · rw [h'.bytes j n (hn.trans_le (h.room_le j)), h.bytes j n hn]

theorem Stored.sectorAt_inData (h : f.Stored) (hk : k < f.volume.layout.span (f.chains i)) :
    f.volume.layout.InData (f.volume.layout.sectorAt (f.chains i) k) :=
  h.laid.sectorAt_inData (h.valid i) hk

/-- The drive holds the sectors of the files as they are in the image. -/
theorem Stored.image_eq (h : f.Stored) (hk : k < f.volume.layout.span (f.chains i)) :
    f.volume.image (f.volume.layout.sectorAt (f.chains i) k) =
      f.volume.drive.sectors (f.volume.layout.sectorAt (f.chains i) k) :=
  Volume.image_of_away h.laid (h.sectorAt_inData hk) (h.away i k hk)

/-- Two files have no sector in common. -/
theorem Stored.sectorAt_ne (h : f.Stored) (hij : j ≠ i) {k' : Nat}
    (hk : k < f.volume.layout.span (f.chains i)) (hk' : k' < f.volume.layout.span (f.chains j)) :
    f.volume.layout.sectorAt (f.chains j) k' ≠ f.volume.layout.sectorAt (f.chains i) k := by
  intro heq
  obtain ⟨⟨c, hc', hc⟩, -⟩ := h.laid.sectorAt_cases (h.valid j) (h.valid i) hk' hk heq
  exact hij (h.threaded.exclusive (List.mem_of_getElem? hc') (List.mem_of_getElem? hc))

variable [DecidableEq ι]

/-- The files with another state of one of them. -/
def put (f : Files ι) (i : ι) (o : Opened) : Files ι :=
  ⟨⟨o.volume, f.chains⟩, Function.update f.fil i o.fp⟩

@[simp] theorem opened_put (f : Files ι) (i : ι) (o : Opened) : (f.put i o).opened i = o := by
  change (⟨o.volume, Function.update f.fil i o.fp i⟩ : Opened) = o
  rw [Function.update_self]

@[simp] theorem put_fil_self (f : Files ι) (i : ι) (o : Opened) : (f.put i o).fil i = o.fp :=
  Function.update_self ..

theorem put_fil_of_ne (f : Files ι) (o : Opened) (hj : j ≠ i) : (f.put i o).fil j = f.fil j :=
  Function.update_of_ne hj ..

@[simp] theorem put_chains (f : Files ι) (i : ι) (o : Opened) : (f.put i o).chains = f.chains :=
  rfl

@[simp] theorem put_volume (f : Files ι) (i : ι) (o : Opened) : (f.put i o).volume = o.volume :=
  rfl

/-- A new state of one file on a volume where the sectors of the others are the same. -/
theorem Stored.put (h : f.Stored) {o : Opened} (hsession : (Session.mk o.volume f.chains).Sound)
    (hlayout : o.volume.layout = f.volume.layout)
    (hbounds : o.volume.drive.toBounds = f.volume.drive.toBounds)
    (haway : ∀ j, ∀ k < f.volume.layout.span (f.chains j),
      o.volume.fs.winsect ≠ f.volume.layout.sectorAt (f.chains j) k)
    (himage : ∀ j, j ≠ i → ∀ k < f.volume.layout.span (f.chains j),
      o.volume.image (f.volume.layout.sectorAt (f.chains j) k) =
        f.volume.image (f.volume.layout.sectorAt (f.chains j) k))
    (hfil : o.fp.Stored o.volume (f.chains i)) :
    (f.put i o).Stored ∧ ∀ j, j ≠ i → ∀ n < f.room j, (f.put i o).byte j n = f.byte j n := by
  refine ⟨⟨hsession, ?_, ?_, ?_, ?_⟩, ?_⟩
  · change o.volume.layout.Laid
    rw [hlayout]
    exact h.laid
  · change o.volume.drive.Serves o.volume.layout
    rw [hlayout, hbounds]
    exact h.serves
  · change ∀ j, ∀ k < o.volume.layout.span (f.chains j),
      o.volume.fs.winsect ≠ o.volume.layout.sectorAt (f.chains j) k
    rw [hlayout]
    exact haway
  · intro j
    by_cases hj : j = i
    · subst hj
      rw [put_fil_self]
      exact hfil
    · rw [put_fil_of_ne f o hj]
      exact (h.fil j).congr hlayout (himage j hj)
  · intro j hj n hn
    rw [byte, put_fil_of_ne f o hj]
    exact Fil.byte_congr hlayout List.prefix_rfl (himage j hj) hn

/-! ## Moving the window -/

/-- A move of the window on the FAT. -/
theorem Stored.keeps (h : f.Stored) (i : ι) {v' : Volume} (hkeeps : f.volume.Keeps v') :
    f.Quiet (f.put i ⟨v', f.fil i⟩) i := by
  have hsame : ∀ j, ∀ k < f.volume.layout.span (f.chains j),
      v'.image (f.volume.layout.sectorAt (f.chains j) k) =
        f.volume.image (f.volume.layout.sectorAt (f.chains j) k) := fun j k _ => by
    rw [hkeeps.image]
  have haway : ∀ j, ∀ k < f.volume.layout.span (f.chains j),
      v'.fs.winsect ≠ f.volume.layout.sectorAt (f.chains j) k := by
    intro j k hk
    rcases hkeeps.stays with hstay | hfat
    · rw [hstay]
      exact h.away j k hk
    · intro heq
      exact h.laid.not_inFat (h.sectorAt_inData hk) (heq ▸ hfat)
  obtain ⟨hstored, hothers⟩ := h.put (i := i) (o := ⟨v', f.fil i⟩) (h.toSound.keeps hkeeps).1
    hkeeps.layout hkeeps.bounds haway (fun j _ => hsame j) ((h.fil i).congr hkeeps.layout (hsame i))
  refine ⟨hstored, hkeeps.layout, fun j hj => ⟨put_fil_of_ne f _ hj, rfl⟩, List.prefix_rfl, ?_⟩
  intro j n hn
  by_cases hj : j = i
  · subst hj
    rw [byte, put_fil_self]
    exact Fil.byte_congr hkeeps.layout List.prefix_rfl (hsame j) hn
  · exact hothers j hj n hn

/-! ## The file object alone -/

/-- Changes of a file object that leave its start, its size and its buffer. -/
theorem Stored.setFil (h : f.Stored) {fp : Fil} (hstart : fp.sclust = (f.fil i).sclust)
    (hsize : fp.objsize = (f.fil i).objsize) (hsect : fp.sect = (f.fil i).sect)
    (hdirty : fp.dirty = (f.fil i).dirty) (hbuf : fp.buf = (f.fil i).buf) :
    f.Quiet (f.put i ⟨f.volume, fp⟩) i := by
  have hfil : fp.Stored f.volume (f.chains i) := by
    obtain ⟨hs, hc, hcached, hclean, hd⟩ := h.fil i
    exact ⟨hstart ▸ hs, hsize ▸ hc, hsect ▸ hcached, by rw [hsect, hdirty, hbuf]; exact hclean,
      by rw [hsect, hdirty]; exact hd⟩
  obtain ⟨hstored, hothers⟩ := h.put (i := i) (o := ⟨f.volume, fp⟩) h.toSound rfl rfl h.away
    (fun _ _ _ _ => rfl) hfil
  refine ⟨hstored, rfl, fun j hj => ⟨put_fil_of_ne f _ hj, rfl⟩, List.prefix_rfl, ?_⟩
  intro j n hn
  by_cases hj : j = i
  · subst hj
    rw [byte, put_fil_self]
    change fp.byte f.volume (f.chains j) n = (f.fil j).byte f.volume (f.chains j) n
    rw [Fil.byte, Fil.byte, Fil.sector, Fil.sector, hsect, hdirty, hbuf]
  · exact hothers j hj n hn

/-- A clean buffer takes another sector of the file. -/
theorem Stored.setBuf (h : f.Stored) (hdirty : (f.fil i).dirty = false)
    (hk : k < f.volume.layout.span (f.chains i)) {fp : Fil} (hfp : fp = { f.fil i with
      sect := f.volume.layout.sectorAt (f.chains i) k
      buf := f.volume.image (f.volume.layout.sectorAt (f.chains i) k) }) :
    f.Quiet (f.put i ⟨f.volume, fp⟩) i := by
  have hclean : fp.dirty = false := by rw [hfp]; exact hdirty
  have hfil : fp.Stored f.volume (f.chains i) := by
    subst hfp
    refine ⟨(h.fil i).start, (h.fil i).capacity, fun _ => ⟨k, hk, rfl⟩, fun _ _ => rfl, ?_⟩
    intro htrue
    rw [hclean] at htrue
    exact absurd htrue Bool.false_ne_true
  obtain ⟨hstored, hothers⟩ := h.put (i := i) (o := ⟨f.volume, fp⟩) h.toSound rfl rfl h.away
    (fun _ _ _ _ => rfl) hfil
  refine ⟨hstored, rfl, fun j hj => ⟨put_fil_of_ne f _ hj, rfl⟩, List.prefix_rfl, ?_⟩
  intro j n hn
  by_cases hj : j = i
  · subst hj
    rw [byte, put_fil_self]
    change fp.byte f.volume (f.chains j) n = (f.fil j).byte f.volume (f.chains j) n
    rw [Fil.byte, Fil.byte, Fil.sector, Fil.sector, hclean, hdirty,
      if_neg fun hand => Bool.false_ne_true hand.1, if_neg fun hand => Bool.false_ne_true hand.1]
  · exact hothers j hj n hn

/-! ## Writing sectors of a file -/

omit [DecidableEq ι] in
/-- A direct write to sectors of a file changes these, and no other sector of any file. -/
theorem Stored.diskWrite (h : f.Stored) (hk : k < f.volume.layout.span (f.chains i)) {cc : Nat}
    (hcc : k % f.volume.layout.csize.toNat + cc ≤ f.volume.layout.csize.toNat)
    (buff : Nat → Sector) :
    ∃ drive, f.volume.drive.diskWrite buff (f.volume.layout.sectorAt (f.chains i) k) cc =
        some drive ∧
      (Session.mk { f.volume with drive := drive } f.chains).Sound ∧
      drive.toBounds = f.volume.drive.toBounds ∧
      (∀ j, j ≠ i → ∀ k' < f.volume.layout.span (f.chains j),
        ({ f.volume with drive := drive } : Volume).image
            (f.volume.layout.sectorAt (f.chains j) k') =
          f.volume.image (f.volume.layout.sectorAt (f.chains j) k')) ∧
      ∀ k' < f.volume.layout.span (f.chains i),
        ({ f.volume with drive := drive } : Volume).image
            (f.volume.layout.sectorAt (f.chains i) k') =
          if k ≤ k' ∧ k' < k + cc then buff (k' - k)
          else f.volume.image (f.volume.layout.sectorAt (f.chains i) k') := by
  have hin := h.sectorAt_inData hk
  obtain ⟨drive, hwrite, hsound, hbounds, himage⟩ := h.volume.diskWrite_spec h.laid
    (h.serves _ cc hin (h.laid.run_le (h.valid i) hk hcc)).2 (fun t ht => by
      obtain ⟨m, -, hm, rfl, -⟩ := (Layout.mem_run hk hcc t).mp ht
      exact ⟨h.sectorAt_inData hm, h.away i _ hm⟩) buff
  -- No sector of the FAT is among the sectors that are written.
  have hfat : ({ f.volume with drive := drive } : Volume).fat = f.volume.fat := by
    funext n
    rw [Volume.fat, Volume.fat]
    by_cases hn : n < f.volume.layout.fatBytes
    · have hn' : n < ({ f.volume with drive := drive } : Volume).layout.fatBytes := hn
      rw [if_pos hn, if_pos hn', himage, if_neg]
      intro hrun
      obtain ⟨m, -, hm, heq, -⟩ := (Layout.mem_run hk hcc _).mp hrun
      exact h.laid.not_inFat (h.sectorAt_inData hm) (heq ▸ h.laid.fats.inFat hn)
    · have hn' : ¬ n < ({ f.volume with drive := drive } : Volume).layout.fatBytes := hn
      rw [if_neg hn, if_neg hn']
  refine ⟨drive, hwrite, (h.toSound.congr hsound rfl rfl (Volume.entry_congr rfl hfat)).1, hbounds,
    fun j hj k' hk' => ?_, fun k' hk' => ?_⟩
  · rw [himage, if_neg]
    intro hrun
    obtain ⟨m, -, hm, heq, -⟩ := (Layout.mem_run hk hcc _).mp hrun
    exact h.sectorAt_ne hj hm hk' heq
  · rw [himage]
    by_cases hrange : k ≤ k' ∧ k' < k + cc
    · obtain ⟨m, rfl⟩ := Nat.exists_eq_add_of_le hrange.1
      have hm : m < cc := by omega
      have hcsize := f.volume.layout.csize.isLt
      have hsub : (f.volume.layout.sectorAt (f.chains i) (k + m) -
          f.volume.layout.sectorAt (f.chains i) k).toNat = m := by
        rw [Layout.sectorAt_add _ (by omega), add_sub_run (by omega)]
      rw [if_pos hrange, hsub, if_pos hm, Nat.add_sub_cancel_left]
    · rw [if_neg hrange, if_neg]
      intro hrun
      obtain ⟨m, hm, hspan, heq, -⟩ := (Layout.mem_run hk hcc _).mp hrun
      have hplace := (h.laid.sectorAt_inj (h.threaded.nodup i) (h.valid i) hk' hspan).mp heq
      exact hrange (by omega)

/-- Writing a dirty buffer back. -/
theorem Stored.writeBack_spec (h : f.Stored) (i : ι) :
    ∃ f', (f.opened i).writeBack = (.ok, f'.opened i) ∧ f.Quiet f' i ∧
      f'.chains = f.chains ∧ f'.fil i = { f.fil i with dirty := false } := by
  rw [Opened.writeBack]
  by_cases hdirty : (f.fil i).dirty = true
  · obtain ⟨k, hk, hsect⟩ := (h.fil i).cached ((h.fil i).dirty hdirty)
    have hcsize := h.laid.csize_pos
    have hone : k % f.volume.layout.csize.toNat + 1 ≤ f.volume.layout.csize.toNat :=
      Nat.mod_lt _ hcsize
    obtain ⟨drive, hwrite, hsession, hbounds, hothers, hself⟩ :=
      h.diskWrite hk hone fun _ => (f.fil i).buf
    rw [← hsect] at hwrite
    have himage : ∀ k' < f.volume.layout.span (f.chains i),
        ({ f.volume with drive := drive } : Volume).image
            (f.volume.layout.sectorAt (f.chains i) k') =
          (f.fil i).sector f.volume (f.chains i) k' := by
      intro k' hk'
      have hplace := h.laid.sectorAt_inj (h.threaded.nodup i) (h.valid i) hk hk'
      rw [hself k' hk', Fil.sector, hsect]
      by_cases heq : k = k'
      · rw [if_pos (by omega), if_pos ⟨hdirty, hplace.mpr heq⟩]
      · rw [if_neg (by omega), if_neg fun hand => heq (hplace.mp hand.2)]
    let o : Opened := ⟨{ f.volume with drive := drive }, { f.fil i with dirty := false }⟩
    have hfil : o.fp.Stored o.volume (f.chains i) := by
      refine ⟨(h.fil i).start, (h.fil i).capacity, (h.fil i).cached, fun hne _ => ?_, nofun⟩
      change (f.fil i).buf = ({ f.volume with drive := drive } : Volume).image (f.fil i).sect
      rw [hsect, himage k hk, (h.fil i).sector_eq hne hsect]
    obtain ⟨hstored, hbytes⟩ := h.put (o := o) hsession rfl hbounds h.away hothers hfil
    refine ⟨f.put i o, ?_, ⟨hstored, rfl, fun j hj => ⟨put_fil_of_ne f o hj, rfl⟩,
      List.prefix_rfl, fun j n hn => ?_⟩, rfl, put_fil_self f i o⟩
    · rw [opened_put]
      simp only [opened, hdirty, if_true, hwrite]
      rfl
    · by_cases hj : j = i
      · subst hj
        have hk' : n / 512 < f.volume.layout.span (f.chains j) :=
          Nat.div_lt_of_lt_mul (by rw [Nat.mul_comm]; exact hn)
        rw [byte, put_fil_self]
        change (Fil.sector o.fp o.volume (f.chains j) (n / 512)) (ofs n) = _
        rw [Fil.sector, if_neg fun hand => Bool.false_ne_true hand.1]
        exact congrFun (himage _ hk') _
      · exact hbytes j hj n hn
  · refine ⟨f, ?_, h.quiet i, rfl, ?_⟩
    · rw [opened_fp, if_neg hdirty]
    · rw [Bool.not_eq_true] at hdirty
      rw [← hdirty]

end Files

end Senob.Fat
