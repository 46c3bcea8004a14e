import Senob.Fat.FileReads
import Senob.Foundation.Overwrite

/-!
# Writing files

`f_write` puts its bytes over those of the file from the file pointer on, and stretches the chain
of the file where it needs to. No other file changes. It stops early only if no cluster is free.
-/

namespace Senob.Fat

open Foundation
open Libk (FResult)

/-- A direct write, with the buffer clean before. -/
theorem Opened.writeDirect_eq {o : Opened} (hclean : o.fp.dirty = false) {wbuff : Nat → Byte}
    {sect cc : Dword} {drive : Drive}
    (hwrite : o.volume.drive.diskWrite (sectors wbuff) sect cc.toNat = some drive) :
    o.writeDirect wbuff sect cc = (.next (512 * cc), ⟨{ o.volume with drive := drive }, { o.fp with
      buf := if o.fp.sect - sect < cc then sectors wbuff (o.fp.sect - sect).toNat else o.fp.buf
      dirty := false }⟩) := by
  rw [writeDirect, hwrite]
  dsimp only
  split_ifs with hin
  · rfl
  · rw [← hclean]

/-- A file object of which at most the place in the chain and the buffer have changed. -/
structure Fil.Unmoved (fp fp' : Fil) : Prop extends fp.Alike fp' where
  fptr : fp'.fptr = fp.fptr
  err : fp'.err = fp.err

/-- `grow` with a file pointer that does not wrap around. -/
theorem Opened.grow_toNat {o : Opened} {n : Dword} (hlt : o.fp.fptr.toNat + n.toNat < 2 ^ 32) :
    (o.grow n).fp.fptr.toNat = o.fp.fptr.toNat + n.toNat ∧
      (o.grow n).fp.objsize.toNat = max o.fp.objsize.toNat (o.fp.fptr.toNat + n.toNat) := by
  have hnat : (o.fp.fptr + n).toNat = o.fp.fptr.toNat + n.toNat := by
    rw [BitVec.toNat_add, Nat.mod_eq_of_lt hlt]
  refine ⟨hnat, ?_⟩
  rw [Opened.grow]
  dsimp only
  split_ifs with hgrows <;> rw [BitVec.lt_def, hnat] at hgrows
  · rw [hnat, max_eq_right (Nat.le_of_lt hgrows)]
  · rw [max_eq_left (Nat.not_lt.mp hgrows)]

theorem Opened.fit_eq (o : Opened) (wbuff : Nat → Byte) (btw : Dword) {w : Dword} {start : Nat}
    (hw : o.rest btw = w) (hstart : (o.fp.fptr % 512).toNat = start) :
    o.fit wbuff btw = (.next w, ⟨o.volume, { o.fp with
      buf := fun j => if start ≤ j.val ∧ j.val < start + w.toNat then wbuff (j.val - start)
        else o.fp.buf j
      dirty := true }⟩) := by
  subst hw hstart
  rw [Opened.fit]

/-- The file object of a file with one cluster more, which is the first one if it had none. -/
theorem Fil.Stored.append {fp : Fil} {v v' : Volume} {cs : List Dword} {r : Dword}
    (h : fp.Stored v cs) (hvalid : ∀ c ∈ cs, v.layout.Valid c) (hlayout : v'.layout = v.layout)
    (himage : ∀ k < v.layout.span cs,
      v'.image (v.layout.sectorAt cs k) = v.image (v.layout.sectorAt cs k)) :
    { fp with clust := r, sclust := if fp.sclust = 0 then r else fp.sclust : Fil }.Stored v'
      (cs ++ [r]) := by
  obtain ⟨hstart, hcapacity, hcached, hclean, hdirty⟩ := h
  have hspan := Layout.span_mono (l := v.layout) (List.prefix_append cs [r])
  refine ⟨?_, ?_, fun hne => ?_, fun hne hflag => ?_, hdirty⟩
  · change (if fp.sclust = 0 then r else fp.sclust) = _
    cases cs with
    | nil =>
        have hnone : fp.sclust = 0 := hstart
        rw [if_pos hnone]
        rfl
    | cons c rest =>
        have hc : fp.sclust = c := hstart
        have hlow := (hvalid c List.mem_cons_self).1
        rw [if_neg, hc]
        · rfl
        · rw [hc]
          rintro rfl
          exact absurd hlow (by decide)
  · rw [hlayout]
    exact hcapacity.trans (Nat.mul_le_mul_right _ hspan)
  · obtain ⟨k, hk, heq⟩ := hcached hne
    refine ⟨k, ?_, ?_⟩
    · rw [hlayout]
      exact hk.trans_le hspan
    · rw [hlayout, Layout.sectorAt_prefix (List.prefix_append _ _) hk]
      exact heq
  · obtain ⟨k, hk, heq⟩ := hcached hne
    change fp.buf = v'.image fp.sect
    rw [hclean hne hflag, heq, himage k hk]

namespace Files

variable {ι : Type*} [DecidableEq ι] {f f' f'' : Files ι} {i j : ι} {k n : Nat}

/-! ## The cluster of the file pointer -/

/-- A file with one cluster more. -/
def stretched (f : Files ι) (i : ι) (v : Volume) (fp : Fil) (r : Dword) : Files ι :=
  ⟨⟨v, Function.update f.chains i (f.chains i ++ [r])⟩, Function.update f.fil i fp⟩

/-- A new cluster behind the others of the file. -/
theorem Stored.stretched (h : f.Stored) {v' : Volume} {last r : Dword} {fp : Fil}
    (hlast : (f.chains i).getLast?.getD 0 = last) (hcreates : f.volume.Creates v' last r)
    (hfp : fp = { f.fil i with
      clust := r, sclust := if (f.fil i).sclust = 0 then r else (f.fil i).sclust }) :
    f.Quiet (f.stretched i v' fp r) i ∧ (f.stretched i v' fp r).fil i = fp ∧
      (f.stretched i v' fp r).chains i = f.chains i ++ [r] := by
  have hfil : (f.stretched i v' fp r).fil i = fp := Function.update_self ..
  have hchain : (f.stretched i v' fp r).chains i = f.chains i ++ [r] := Function.update_self ..
  have hothers : ∀ j, j ≠ i → (f.stretched i v' fp r).fil j = f.fil j ∧
      (f.stretched i v' fp r).chains j = f.chains j := fun j hj =>
    ⟨Function.update_of_ne hj .., Function.update_of_ne hj ..⟩
  have hprefix : f.chains i <+: (f.stretched i v' fp r).chains i := by
    rw [hchain]
    exact List.prefix_append _ _
  have hprefixes : ∀ j, f.chains j <+: (f.stretched i v' fp r).chains j := by
    intro j
    by_cases hj : j = i
    · exact hj ▸ hprefix
    · rw [(hothers j hj).2]
  have hsession := (h.toSound.creates (i := i) hlast hcreates).1
  have hlayout : (f.stretched i v' fp r).volume.layout = f.volume.layout := hcreates.layout
  -- The FAT has changed, but no sector of a file.
  have himage : ∀ j, ∀ k < f.volume.layout.span (f.chains j),
      v'.image (f.volume.layout.sectorAt (f.chains j) k) =
        f.volume.image (f.volume.layout.sectorAt (f.chains j) k) := by
    intro j k hk
    have hin := h.sectorAt_inData hk
    exact hcreates.data _ (h.laid.not_inFat hin) (h.laid.not_inCopy hin)
  have hstored : (f.stretched i v' fp r).Stored := by
    refine ⟨hsession, ?_, ?_, ?_, fun j => ?_⟩
    · rw [hlayout]
      exact h.laid
    · rw [hlayout]
      change v'.drive.toBounds.Serves _
      rw [hcreates.bounds]
      exact h.serves
    · intro j k hk heq
      have hin : f.volume.layout.InData (v'.fs.winsect) := by
        rw [show v'.fs.winsect = _ from heq, hlayout]
        rw [hlayout] at hk
        refine h.laid.sectorAt_inData (fun c hc => ?_) hk
        have hvalid := hsession.valid j c hc
        rwa [show (Session.mk v' _).volume.layout = _ from hcreates.layout] at hvalid
      exact h.laid.not_inFat hin hcreates.table
    · by_cases hj : j = i
      · subst hj
        rw [hfil, hchain]
        subst hfp
        exact (h.fil j).append (h.valid j) hlayout (himage j)
      · rw [(hothers j hj).1, (hothers j hj).2]
        exact (h.fil j).congr hlayout (himage j)
  refine ⟨⟨hstored, hlayout, hothers, hprefix, fun j n hn => ?_⟩, hfil, hchain⟩
  by_cases hj : j = i
  · subst hj
    rw [byte, hfil]
    have hsame : fp.byte (f.stretched j v' fp r).volume ((f.stretched j v' fp r).chains j) n =
        fp.byte f.volume (f.chains j) n :=
      Fil.byte_congr hlayout hprefix (himage j) hn
    rw [hsame]
    subst hfp
    rfl
  · rw [byte, (hothers j hj).1]
    exact Fil.byte_congr hlayout (hprefixes j) (himage j) hn

omit [DecidableEq ι] in
/-- A cluster is not taken for one of the other results of `create_chain`. -/
theorem Stored.cluster_ne (h : f.Stored) {c : Dword} (hc : f.volume.layout.Valid c) :
    c ≠ 0 ∧ c ≠ 1 ∧ c ≠ 0xFFFFFFFF := by
  refine ⟨?_, ?_, ?_⟩
  · rintro rfl
    exact absurd hc.1 (by decide)
  · rintro rfl
    exact absurd hc.1 (by decide)
  · rintro rfl
    refine absurd (hc.2.trans_le h.covers.limit) ?_
    cases f.volume.layout.fsType <;> decide

omit [DecidableEq ι] in
theorem Stored.sclust_ne (h : f.Stored) (hne : f.chains i ≠ []) : (f.fil i).sclust ≠ 0 := by
  obtain ⟨c, rest, hcs⟩ := List.exists_cons_of_ne_nil hne
  have hstart := (h.fil i).start
  rw [hcs] at hstart
  have hc : (f.fil i).sclust = c := hstart
  rw [hc]
  exact (h.cluster_ne (h.valid i c (hcs ▸ List.mem_cons_self))).1

/-- The fields that the way along the chain does not change. -/
structure Follows (f f' : Files ι) (i : ι) : Prop where
  quiet : f.Quiet f' i
  err : (f'.fil i).err = (f.fil i).err
  objsize : (f'.fil i).objsize = (f.fil i).objsize
  readable : (f'.fil i).readable = (f.fil i).readable
  writable : (f'.fil i).writable = (f.fil i).writable

omit [DecidableEq ι] in
theorem Follows.trans (h : f.Follows f' i) (h' : f'.Follows f'' i) : f.Follows f'' i :=
  ⟨h.quiet.trans h'.quiet, h'.err.trans h.err, h'.objsize.trans h.objsize,
    h'.readable.trans h.readable, h'.writable.trans h.writable⟩

/-- Only the place in the file changes, and the window of the filesystem object. -/
theorem Stored.moved (h : f.Stored) {v' : Volume} (hkeeps : f.volume.Keeps v') {fp : Fil}
    {p c : Dword} (hfp : fp = { f.fil i with fptr := p, clust := c }) :
    f.Follows (f.put i ⟨v', fp⟩) i ∧ (f.put i ⟨v', fp⟩).fil i = fp := by
  have hwindow := h.keeps i hkeeps
  have hquiet : (f.put i ⟨v', f.fil i⟩).Quiet
      ((f.put i ⟨v', f.fil i⟩).put i ⟨v', fp⟩) i :=
    hwindow.stored.setFil (by rw [put_fil_self, hfp]) (by rw [put_fil_self, hfp])
      (by rw [put_fil_self, hfp]) (by rw [put_fil_self, hfp]) (by rw [put_fil_self, hfp])
  have hput : (f.put i ⟨v', f.fil i⟩).put i ⟨v', fp⟩ = f.put i ⟨v', fp⟩ := by
    rw [Files.put, Files.put, Files.put]
    exact congrArg (Files.mk _) (Function.update_idem ..)
  rw [hput] at hquiet
  have hfil : (f.put i ⟨v', fp⟩).fil i = fp := put_fil_self ..
  refine ⟨⟨hwindow.trans hquiet, ?_, ?_, ?_, ?_⟩, hfil⟩ <;> rw [hfil, hfp]

/-- The next cluster, or a new one if there is none. -/
theorem Stored.createNext_spec (h : f.Stored) {clst : Dword}
    (hc : (f.chains i)[k]? = some clst) :
    ∃ r v', f.volume.createChain clst = some (r, v') ∧
      (r = 0 ∧ f.volume.Keeps v' ∧ f.volume.free = ∅ ∨
        ∃ f', f'.opened i = ⟨v', { f.fil i with clust := r }⟩ ∧ f.Follows f' i ∧
          (f'.chains i)[k + 1]? = some r) := by
  have hmem := List.mem_of_getElem? hc
  obtain ⟨hk, hget⟩ := List.getElem?_eq_some_iff.mp hc
  by_cases hinside : k + 1 < (f.chains i).length
  · have hnext : (f.chains i)[k + 1]? = some (f.chains i)[k + 1] := List.getElem?_eq_getElem hinside
    obtain ⟨v', hcreate, hkeeps⟩ := h.toSound.follow_spec hc hnext
    obtain ⟨hfollows, hfil⟩ := h.moved (i := i) hkeeps (p := (f.fil i).fptr)
      (c := (f.chains i)[k + 1]) rfl
    exact ⟨_, v', hcreate, .inr ⟨_, opened_put .., hfollows, hnext⟩⟩
  · have hlength : (f.chains i).length = k + 1 := by omega
    have hne : f.chains i ≠ [] := List.ne_nil_of_mem hmem
    have hlast : (f.chains i).getLast?.getD 0 = clst := by
      rw [List.getLast?_eq_some_getLast hne, Option.getD_some, List.getLast_eq_getElem, ← hget]
      congr 1
      omega
    obtain ⟨r, v', hcreate, hresult⟩ := h.toSound.stretch_spec i hlast
    refine ⟨r, v', hcreate, hresult.imp id fun hcreates => ?_⟩
    obtain ⟨hquiet, hfil, hchain⟩ := h.stretched hlast hcreates
      (show { f.fil i with clust := r } = _ by rw [if_neg (h.sclust_ne hne)])
    refine ⟨_, ?_, ⟨hquiet, by rw [hfil], by rw [hfil], by rw [hfil], by rw [hfil]⟩, ?_⟩
    · rw [opened, hfil]
      rfl
    · rw [hchain, ← hlength, List.getElem?_concat_length]

/-- The first cluster of a file. -/
theorem Stored.createFirst_spec (h : f.Stored) (hempty : f.chains i = []) :
    ∃ r v', f.volume.createChain 0 = some (r, v') ∧
      (r = 0 ∧ f.volume.Keeps v' ∧ f.volume.free = ∅ ∨
        ∃ f', f'.opened i = ⟨v', { f.fil i with sclust := r, clust := r }⟩ ∧ f.Follows f' i ∧
          (f'.chains i)[0]? = some r) := by
  have hlast : (f.chains i).getLast?.getD 0 = 0 := by
    rw [hempty]
    rfl
  have hnone : (f.fil i).sclust = 0 := by
    rw [(h.fil i).start, hempty]
    rfl
  obtain ⟨r, v', hcreate, hresult⟩ := h.toSound.stretch_spec i hlast
  refine ⟨r, v', hcreate, hresult.imp id fun hcreates => ?_⟩
  obtain ⟨hquiet, hfil, hchain⟩ := h.stretched hlast hcreates
    (show { f.fil i with sclust := r, clust := r } = _ by rw [if_pos hnone])
  refine ⟨_, ?_, ⟨hquiet, by rw [hfil], by rw [hfil], by rw [hfil], by rw [hfil]⟩, ?_⟩
  · rw [opened, hfil]
    rfl
  · rw [hchain, hempty]
    rfl

omit [DecidableEq ι] in
theorem Stored.head_sclust (h : f.Stored) (hne : (f.fil i).sclust ≠ 0) :
    (f.chains i)[0]? = some (f.fil i).sclust := by
  have hstart := (h.fil i).start
  rw [← List.head?_eq_getElem?]
  cases hcs : (f.chains i).head? with
  | none =>
      rw [hcs] at hstart
      exact absurd hstart hne
  | some c =>
      rw [hcs] at hstart
      rw [hstart]
      rfl

/-- What a round of `f_write` finds for its file pointer: a cluster of the file, which may be a new
one, or a full disk. -/
def ClusterFound (f : Files ι) (i : ι) (index : Nat) (r : Dword) (v' : Volume) : Prop :=
  r = 0 ∧ f.volume.Keeps v' ∧ f.volume.free = ∅ ∨
    ∃ f', f'.opened i = ⟨v', { f.fil i with
        clust := r, sclust := if (f.fil i).sclust = 0 then r else (f.fil i).sclust }⟩ ∧
      f.Follows f' i ∧ (f'.chains i)[index]? = some r

/-- At the top of the file it is the first cluster, which a file without bytes gets now. -/
theorem Sound.firstCluster_spec (h : f.Sound) (i : ι) :
    ∃ r v', (if (f.fil i).sclust = 0 then f.volume.createChain 0
        else some ((f.fil i).sclust, f.volume)) = some (r, v') ∧ f.ClusterFound i 0 r v' := by
  by_cases hnone : (f.fil i).sclust = 0
  · have hempty : f.chains i = [] := by_contra fun hne => h.sclust_ne hne hnone
    obtain ⟨r, v', hcreate, hresult⟩ := h.createFirst_spec hempty
    refine ⟨r, v', by rw [if_pos hnone, hcreate], hresult.imp id ?_⟩
    rintro ⟨f', hopened, hfollows, hc⟩
    exact ⟨f', by rw [hopened, if_pos hnone], hfollows, hc⟩
  · obtain ⟨hfollows, -⟩ := h.toStored.moved (i := i) h.volume.keeps (p := (f.fil i).fptr)
      (c := (f.fil i).sclust) rfl
    refine ⟨_, _, if_neg hnone, .inr ⟨_, ?_, hfollows, h.head_sclust hnone⟩⟩
    rw [opened_put, if_neg hnone]

/-- Behind it, it is the one that follows the current cluster. -/
theorem Sound.nextCluster_spec (h : f.Sound) (i : ι) (hpos : 0 < (f.fil i).fptr.toNat) :
    ∃ r v', f.volume.createChain (f.fil i).clust = some (r, v') ∧ f.ClusterFound i
      (((f.fil i).fptr.toNat - 1) / 512 / f.volume.layout.csize.toNat + 1) r v' := by
  have hclust := (h.placed i).cluster hpos
  have hne := h.sclust_ne (List.ne_nil_of_mem (List.mem_of_getElem? hclust))
  obtain ⟨r, v', hcreate, hresult⟩ := h.toStored.createNext_spec hclust
  refine ⟨r, v', hcreate, hresult.imp id ?_⟩
  rintro ⟨f', hopened, hfollows, hc⟩
  exact ⟨f', by rw [hopened, if_neg hne], hfollows, hc⟩

/-- The cluster of the file pointer is found or created, unless no cluster is free. -/
theorem Sound.writeCluster_spec (h : f.Sound) (i : ι)
    (hboundary : (f.fil i).fptr.toNat % 512 = 0) :
    (∃ v', (f.opened i).writeCluster = some (.full, ⟨v', f.fil i⟩) ∧ f.volume.Keeps v' ∧
      f.volume.free = ∅) ∨
    ∃ c s f', (f.opened i).writeCluster = some (.next (), f'.opened i) ∧ f.Quiet f' i ∧
      f'.fil i = { f.fil i with clust := c, sclust := s } ∧
      (f'.chains i)[(f.fil i).fptr.toNat / 512 / f.volume.layout.csize.toNat]? = some c := by
  have hcsect : (f.opened i).csect.toNat = _ := Opened.csect_toNat h.laid
  rw [opened_fp, opened_volume] at hcsect
  rw [Opened.writeCluster]
  by_cases hfirst : (f.fil i).fptr.toNat / 512 % f.volume.layout.csize.toNat = 0
  case neg =>
    have hne : (f.opened i).csect ≠ 0 := fun hzero => hfirst (by rw [← hcsect, hzero]; rfl)
    exact .inr ⟨_, (f.fil i).sclust, f, if_neg hne, h.quiet i, rfl, h.currentCluster i hfirst⟩
  have hzero : (f.opened i).csect = 0 := BitVec.eq_of_toNat_eq (hcsect.trans hfirst)
  have hfound : ∃ r v', (if (f.fil i).fptr = 0 then
      if (f.fil i).sclust = 0 then f.volume.createChain 0 else some ((f.fil i).sclust, f.volume)
      else f.volume.createChain (f.fil i).clust) = some (r, v') ∧ f.ClusterFound i
        ((f.fil i).fptr.toNat / 512 / f.volume.layout.csize.toNat) r v' := by
    by_cases htop : (f.fil i).fptr = 0
    · obtain ⟨r, v', hcreate, hresult⟩ := h.firstCluster_spec i
      have hplace : (f.fil i).fptr.toNat / 512 / f.volume.layout.csize.toNat = 0 := by
        rw [htop]
        simp
      exact ⟨r, v', by rw [if_pos htop, hcreate], hplace ▸ hresult⟩
    · have hpos : 0 < (f.fil i).fptr.toNat := Nat.pos_of_ne_zero fun hz =>
        htop (BitVec.eq_of_toNat_eq hz)
      obtain ⟨r, v', hcreate, hresult⟩ := h.nextCluster_spec i hpos
      have hplace := place_pred f.volume.layout.csize.toNat hpos
      rw [if_pos ⟨hboundary, hfirst⟩] at hplace
      exact ⟨r, v', by rw [if_neg htop, hcreate], hplace ▸ hresult⟩
  obtain ⟨r, v', hcreate, hresult⟩ := hfound
  rw [if_pos hzero]
  dsimp only
  rw [opened_fp, opened_volume, hcreate, Option.map_some]
  dsimp only
  rcases hresult with ⟨rfl, hkeeps, hfree⟩ | ⟨f', hopened, hfollows, hc⟩
  · exact .inl ⟨v', congrArg some (if_pos rfl), hkeeps, hfree⟩
  · obtain ⟨h0, h1, h2⟩ := hfollows.quiet.stored.cluster_ne
      (hfollows.quiet.stored.valid i r (List.mem_of_getElem? hc))
    refine .inr ⟨r, _, f', ?_, hfollows.quiet, congrArg Opened.fp hopened, hc⟩
    rw [if_neg h0, if_neg h1, if_neg h2, hopened]

/-! ## The bytes of a round -/

/-- What a step of `f_write` leaves, if it changes sectors of one file only. -/
structure Edited (f f' : Files ι) (i : ι) : Prop where
  stored : f'.Stored
  layout : f'.volume.layout = f.volume.layout
  others : ∀ j, j ≠ i → f'.fil j = f.fil j
  chains : f'.chains = f.chains
  bytes : ∀ j, j ≠ i → ∀ n < f.room j, f'.byte j n = f.byte j n

omit [DecidableEq ι] in
/-- The buffer is refilled if its sector is among those that are written. -/
theorem Stored.refilled (h : f.Stored) (hclean : (f.fil i).dirty = false)
    (hk : k < f.volume.layout.span (f.chains i)) {cc : Dword}
    (hcc : k % f.volume.layout.csize.toNat + cc.toNat ≤ f.volume.layout.csize.toNat)
    {buff : Nat → Sector} {v : Volume} (hlayout : v.layout = f.volume.layout)
    (hself : ∀ k' < f.volume.layout.span (f.chains i),
      v.image (f.volume.layout.sectorAt (f.chains i) k') =
        if k ≤ k' ∧ k' < k + cc.toNat then buff (k' - k)
        else f.volume.image (f.volume.layout.sectorAt (f.chains i) k')) :
    { f.fil i with
      buf := if (f.fil i).sect - f.volume.layout.sectorAt (f.chains i) k < cc then
          buff ((f.fil i).sect - f.volume.layout.sectorAt (f.chains i) k).toNat
        else (f.fil i).buf
      dirty := false : Fil }.Stored v (f.chains i) := by
  obtain ⟨hstart, hcapacity, hcached, hbuf, -⟩ := h.fil i
  refine ⟨hstart, by rw [hlayout]; exact hcapacity, by rw [hlayout]; exact hcached,
    fun hne _ => ?_, fun hflag => absurd hflag Bool.false_ne_true⟩
  obtain ⟨k', hk', hsect⟩ := hcached hne
  have himage := hself k' hk'
  rw [← hsect] at himage
  refine Eq.trans ?_ himage.symm
  simp only [BitVec.lt_def]
  by_cases hrange : k ≤ k' ∧ k' < k + cc.toNat
  · have hsub : ((f.fil i).sect - f.volume.layout.sectorAt (f.chains i) k).toNat = k' - k := by
      have hcsize := f.volume.layout.csize.isLt
      obtain ⟨m, rfl⟩ := Nat.exists_eq_add_of_le hrange.1
      rw [hsect, Layout.sectorAt_add _ (by omega), add_sub_run (by omega)]
      omega
    rw [if_pos hrange, hsub, if_pos (by omega)]
  · rw [if_neg hrange, if_neg, hbuf hne hclean]
    intro hlt
    -- A sector in the run that was written is the one of another index of the chain.
    obtain ⟨m, hm, hspan, heq, -⟩ := (Layout.mem_run hk hcc (f.fil i).sect).mp hlt
    have hplace := (h.laid.sectorAt_inj (h.threaded.nodup i) (h.valid i) hk' hspan).mp
      (hsect.symm.trans heq)
    exact hrange (by omega)

/-- Whole sectors are written directly. -/
theorem Stored.writeDirect_spec (h : f.Stored) (hclean : (f.fil i).dirty = false)
    (hk : k < f.volume.layout.span (f.chains i)) {cc : Dword}
    (hcc : k % f.volume.layout.csize.toNat + cc.toNat ≤ f.volume.layout.csize.toNat)
    (wbuff : Nat → Byte) :
    ∃ b f', (f.opened i).writeDirect wbuff (f.volume.layout.sectorAt (f.chains i) k) cc =
        (.next (512 * cc), f'.opened i) ∧ f.Edited f' i ∧
      f'.fil i = { f.fil i with buf := b, dirty := false } ∧
      ∀ n < f.room i, f'.byte i n =
        if k ≤ n / 512 ∧ n / 512 < k + cc.toNat then wbuff (n - k * 512) else f.byte i n := by
  obtain ⟨drive, hwrite, hsession, hbounds, hothers, hself⟩ :=
    h.diskWrite hk hcc (Opened.sectors wbuff)
  have hfil := h.refilled hclean hk hcc (v := { f.volume with drive := drive }) rfl hself
  have hresult := Opened.writeDirect_eq (o := f.opened i) hclean hwrite
  rw [opened_fp, opened_volume] at hresult
  generalize (if (f.fil i).sect - f.volume.layout.sectorAt (f.chains i) k < cc then
    Opened.sectors wbuff ((f.fil i).sect - f.volume.layout.sectorAt (f.chains i) k).toNat
    else (f.fil i).buf) = b at hfil hresult
  obtain ⟨hstored, hbytes⟩ := h.put (i := i)
    (o := ⟨{ f.volume with drive := drive }, { f.fil i with buf := b, dirty := false }⟩) hsession
    rfl hbounds h.away hothers hfil
  refine ⟨b, f.put i _, by rw [opened_put, hresult],
    ⟨hstored, rfl, fun j hj => put_fil_of_ne f _ hj, rfl, hbytes⟩, put_fil_self f i _,
    fun n hn => ?_⟩
  have hplace : n / 512 < f.volume.layout.span (f.chains i) :=
    Nat.div_lt_of_lt_mul (by rw [Nat.mul_comm]; exact hn)
  rw [byte, put_fil_self, Fil.byte, Fil.sector, if_neg fun hand => Bool.false_ne_true hand.1]
  change ({ f.volume with drive := drive } : Volume).image
    (f.volume.layout.sectorAt (f.chains i) (n / 512)) (ofs n) = _
  rw [hself _ hplace]
  split_ifs with hrange
  · change wbuff ((n / 512 - k) * 512 + n % 512) = _
    congr 1
    omega
  · rw [byte, Fil.byte, Fil.sector, hclean, if_neg fun hand => Bool.false_ne_true hand.1]

/-- Bytes are fitted into a sector of the file, which is then dirty in the buffer. -/
theorem Stored.fit_spec (h : f.Stored) (hk : k < f.volume.layout.span (f.chains i))
    (hdirty : (f.fil i).dirty = true → (f.fil i).sect = f.volume.layout.sectorAt (f.chains i) k)
    {fp : Fil} {b : Sector} (hfp : fp = { f.fil i with
      sect := f.volume.layout.sectorAt (f.chains i) k, buf := b, dirty := true }) :
    f.Edited (f.put i ⟨f.volume, fp⟩) i ∧ ∀ n < f.room i, (f.put i ⟨f.volume, fp⟩).byte i n =
      if n / 512 = k then b (ofs n) else f.byte i n := by
  have hne := (h.laid.inData_bounds (h.sectorAt_inData hk)).1
  have hfil : fp.Stored f.volume (f.chains i) := by
    subst hfp
    exact ⟨(h.fil i).start, (h.fil i).capacity, fun _ => ⟨k, hk, rfl⟩,
      fun _ hflag => absurd hflag.symm Bool.false_ne_true, fun _ => hne⟩
  obtain ⟨hstored, hbytes⟩ := h.put (i := i) (o := ⟨f.volume, fp⟩) h.toSound rfl rfl h.away
    (fun _ _ _ _ => rfl) hfil
  refine ⟨⟨hstored, rfl, fun j hj => put_fil_of_ne f _ hj, rfl, hbytes⟩, fun n hn => ?_⟩
  have hplace : n / 512 < f.volume.layout.span (f.chains i) :=
    Nat.div_lt_of_lt_mul (by rw [Nat.mul_comm]; exact hn)
  have hinj := h.laid.sectorAt_inj (h.threaded.nodup i) (h.valid i) hk hplace
  rw [byte, put_fil_self]
  change Fil.sector fp f.volume (f.chains i) (n / 512) (ofs n) = _
  subst hfp
  rw [Fil.sector]
  by_cases heq : n / 512 = k
  · rw [if_pos heq, if_pos ⟨rfl, hinj.mpr heq.symm⟩]
  · rw [if_neg heq, if_neg fun hand => heq (hinj.mp hand.2).symm, byte, Fil.byte, Fil.sector,
      if_neg]
    rintro ⟨hflag, hsect⟩
    exact heq (hinj.mp ((hdirty hflag).symm.trans hsect)).symm

/-- Bytes have been written over those of one file from its file pointer on. -/
structure Wrote (f f' : Files ι) (i : ι) (d : List Byte) : Prop where
  sound : f'.Sound
  layout : f'.volume.layout = f.volume.layout
  others : ∀ j, j ≠ i → f'.fil j = f.fil j ∧ f'.contents j = f.contents j
  written : f'.contents i = overwrite (f.contents i) (f.fil i).fptr.toNat d
  fptr : (f'.fil i).fptr.toNat = (f.fil i).fptr.toNat + d.length
  readable : (f'.fil i).readable = (f.fil i).readable
  writable : (f'.fil i).writable = (f.fil i).writable

omit [DecidableEq ι] in
theorem Wrote.trans {d e : List Byte} (h : f.Wrote f' i d) (h' : f'.Wrote f'' i e)
    (hsound : f.Sound) : f.Wrote f'' i (d ++ e) := by
  refine ⟨h'.sound, h'.layout.trans h.layout, fun j hj => ?_, ?_, ?_, h'.readable.trans h.readable,
    h'.writable.trans h.writable⟩
  · exact ⟨(h'.others j hj).1.trans (h.others j hj).1, (h'.others j hj).2.trans (h.others j hj).2⟩
  · rw [h'.written, h.written, h.fptr, overwrite_overwrite]
    rw [length_contents]
    exact (hsound.placed i).within
  · rw [h'.fptr, h.fptr, List.length_append, Nat.add_assoc]

omit [DecidableEq ι] in
/-- The contents of a file, if its bytes are known. -/
theorem contents_overwrite {p w : Nat} {wbuff : Nat → Byte} (hp : p ≤ (f.fil i).objsize.toNat)
    (hsize : (f'.fil i).objsize.toNat = max (f.fil i).objsize.toNat (p + w))
    (hbytes : ∀ n < max (f.fil i).objsize.toNat (p + w),
      f'.byte i n = if p ≤ n ∧ n < p + w then wbuff (n - p) else f.byte i n) :
    f'.contents i = overwrite (f.contents i) p ((List.range w).map wbuff) := by
  have hlength := length_contents f i
  have hpiece : ((List.range w).map wbuff).length = w := by
    rw [List.length_map, List.length_range]
  apply List.ext_getElem?
  intro n
  rw [getElem?_overwrite (by omega), hpiece]
  by_cases hn : n < max (f.fil i).objsize.toNat (p + w)
  · have hleft : (f'.contents i)[n]? = some (f'.byte i n) := by
      rw [contents, Fil.contents, List.getElem?_map, List.getElem?_range (by omega)]
      rfl
    rw [hleft, hbytes n hn]
    split_ifs with hrange
    · rw [List.getElem?_map, List.getElem?_range (by omega)]
      rfl
    · rw [contents, Fil.contents, List.getElem?_map, List.getElem?_range (by omega)]
      rfl
  · rw [if_neg (by omega), List.getElem?_eq_none, List.getElem?_eq_none]
    · omega
    · rw [length_contents]
      omega

omit [DecidableEq ι] in
/-- The bytes of the other files, and their positions, stay. -/
theorem Edited.contents_others {g : Files ι} (h : f'.Edited g i) (hquiet : f.Quiet f' i)
    (hstored : f.Stored) (hj : j ≠ i) : g.fil j = f.fil j ∧ g.contents j = f.contents j := by
  have hfil : g.fil j = f.fil j := (h.others j hj).trans (hquiet.others j hj).1
  refine ⟨hfil, ?_⟩
  rw [contents, contents, hfil, Fil.contents, Fil.contents]
  apply List.map_congr_left
  intro m hm
  have hm : m < f.room j := (List.mem_range.mp hm).trans_le (hstored.fil j).capacity
  have hbyte := (h.bytes j hj m (hm.trans_le (hquiet.room_le j))).trans (hquiet.bytes j m hm)
  rwa [byte, byte, hfil] at hbyte

omit [DecidableEq ι] in
theorem Edited.sound {g : Files ι} (h : f'.Edited g i) (hquiet : f.Quiet f' i) (hsound : f.Sound)
    (hplaced : (g.fil i).Placed f.volume.layout (g.chains i)) : g.Sound := by
  refine ⟨h.stored, fun j => ?_⟩
  rw [h.layout, hquiet.layout]
  by_cases hj : j = i
  · exact hj ▸ hplaced
  · rw [h.others j hj, (hquiet.others j hj).1, h.chains, (hquiet.others j hj).2]
    exact hsound.placed j

/-- Within the clusters of the file, the file pointer and the end of the file can be moved. -/
theorem Edited.grow {g : Files ι} (h : f.Edited g i) {n : Dword}
    (hlt : (g.fil i).fptr.toNat + n.toNat < 2 ^ 32)
    (hroom : (g.fil i).fptr.toNat + n.toNat ≤ g.room i) :
    f.Edited (g.put i ((g.opened i).grow n)) i ∧
      ∀ m, (g.put i ((g.opened i).grow n)).byte i m = g.byte i m := by
  have hfil : ((g.opened i).grow n).fp.Stored g.volume (g.chains i) := by
    obtain ⟨hstart, hcapacity, hcached, hclean, hdirty⟩ := h.stored.fil i
    refine ⟨hstart, ?_, hcached, hclean, hdirty⟩
    rw [(Opened.grow_toNat hlt).2]
    exact max_le hcapacity hroom
  obtain ⟨hstored, hothers⟩ := h.stored.put (i := i) (o := (g.opened i).grow n) h.stored.toSound
    rfl rfl h.stored.away (fun _ _ _ _ => rfl) hfil
  refine ⟨⟨hstored, h.layout, fun j hj => (put_fil_of_ne g _ hj).trans (h.others j hj), h.chains,
    fun j hj m hm => (hothers j hj m ?_).trans (h.bytes j hj m hm)⟩, fun m => ?_⟩
  · rwa [room, h.layout, h.chains]
  · rw [byte, put_fil_self]
    rfl

/-- The cluster of the file pointer has room for the bytes of a round. -/
theorem add_wcnt_le_span {l : Layout} (hcsize : 0 < l.csize.toNat) {cs : List Dword}
    {clst : Dword} {p count : Nat} (hcount : 0 < count)
    (hclust : cs[p / 512 / l.csize.toNat]? = some clst) :
    p + Libk.wcnt l.csize.toNat p count ≤ l.span cs * 512 := by
  obtain ⟨-, -, hstay⟩ := Libk.wcnt_bounds hcsize p hcount
  obtain ⟨hplace, -⟩ := List.getElem?_eq_some_iff.mp hclust
  have hsector : Libk.sectorSize = 512 := rfl
  rw [hsector] at hstay
  rw [Nat.div_div_eq_div_mul] at hplace
  have hsplit := Nat.div_add_mod p (512 * l.csize.toNat)
  have hspan : l.span cs * 512 = 512 * l.csize.toNat * cs.length := by
    rw [Layout.span]
    ring
  have hmul := Nat.mul_le_mul_left (512 * l.csize.toNat) hplace
  rw [Nat.mul_succ] at hmul
  rw [hspan]
  omega

/-- The file pointer moves behind the bytes that a round has put into the file. -/
theorem Sound.grow_spec (h : f.Sound) {g₁ g : Files ι} (hquiet : f.Quiet g₁ i)
    (hedited : g₁.Edited g i) (hunmoved : (f.fil i).Unmoved (g.fil i)) {n count : Dword}
    (hcount : 0 < count.toNat) (hlt : (f.fil i).fptr.toNat + count.toNat < 2 ^ 32)
    (hn : n.toNat =
      Libk.wcnt f.volume.layout.csize.toNat (f.fil i).fptr.toNat count.toNat)
    (hclust : (g.chains i)[(f.fil i).fptr.toNat / 512 / f.volume.layout.csize.toNat]? =
      some (g.fil i).clust)
    (hcurrent : ((f.fil i).fptr.toNat + n.toNat) % 512 ≠ 0 →
      (g.fil i).sect = f.volume.layout.sectorAt (g.chains i) ((f.fil i).fptr.toNat / 512))
    (wbuff : Nat → Byte)
    (hbytes : ∀ m < g₁.room i, m < (f.fil i).objsize.toNat ∨
        (f.fil i).fptr.toNat ≤ m ∧ m < (f.fil i).fptr.toNat + n.toNat →
      g.byte i m = if (f.fil i).fptr.toNat ≤ m ∧ m < (f.fil i).fptr.toNat + n.toNat then
        wbuff (m - (f.fil i).fptr.toNat) else g₁.byte i m) :
    ∃ f', (g.opened i).grow n = f'.opened i ∧
      f.Wrote f' i ((List.range n.toNat).map wbuff) := by
  obtain ⟨-, hbound, -⟩ := Libk.wcnt_bounds h.laid.csize_pos (f.fil i).fptr.toNat hcount
  have hlayout : g.volume.layout = f.volume.layout := hedited.layout.trans hquiet.layout
  have hsame : g₁.room i = g.room i := by rw [room, room, hedited.layout, hedited.chains]
  have hroom : (f.fil i).fptr.toNat + n.toNat ≤ g.room i := by
    rw [room, hlayout, hn]
    exact add_wcnt_le_span h.laid.csize_pos hcount hclust
  have hcapacity : (f.fil i).objsize.toNat ≤ g.room i := by
    rw [← hunmoved.objsize]
    exact (hedited.stored.fil i).capacity
  obtain ⟨hfptr, hosize⟩ := Opened.grow_toNat (o := g.opened i) (n := n) (by
    rw [opened_fp, hunmoved.fptr]
    omega)
  rw [opened_fp, hunmoved.fptr] at hfptr hosize
  rw [hunmoved.objsize] at hosize
  obtain ⟨hgrown, hself⟩ := hedited.grow (n := n) (by rw [hunmoved.fptr]; omega)
    (by rw [hunmoved.fptr]; exact hroom)
  have hfil : (g.put i ((g.opened i).grow n)).fil i = ((g.opened i).grow n).fp := put_fil_self ..
  refine ⟨_, (opened_put ..).symm, hgrown.sound hquiet h ?_, hlayout,
    fun j hj => hgrown.contents_others hquiet h.toStored hj, ?_, ?_, ?_, ?_⟩
  · rw [hfil]
    refine Fil.Placed.of_round h.laid.csize_pos hcount (hunmoved.err.trans (h.placed i).err)
      (hfptr.trans (by rw [hn])) ?_ hclust fun hinside => hcurrent (hfptr ▸ hinside)
    rw [hfptr, hosize]
    exact le_max_right _ _
  · have hwithin := (h.placed i).within
    refine contents_overwrite hwithin (by rw [hfil, hosize]) fun m hm => ?_
    have hm₁ : m < g₁.room i := by
      rw [hsame]
      exact hm.trans_le (max_le hcapacity hroom)
    rw [hself, hbytes m hm₁ (by omega)]
    split_ifs with hrange
    · rfl
    · refine hquiet.bytes i m (lt_of_lt_of_le ?_ (h.fil i).capacity)
      omega
  · rw [hfil, hfptr, List.length_map, List.length_range]
  · rw [hfil]
    exact hunmoved.readable
  · rw [hfil]
    exact hunmoved.writable

omit [DecidableEq ι] in
/-- The buffer takes the sector of the file pointer. What it holds of the file is right. -/
theorem Stored.writeSector_spec (h : f.Stored) (hclean : (f.fil i).dirty = false)
    (hboundary : (f.fil i).fptr.toNat % 512 = 0)
    (hk : (f.fil i).fptr.toNat / 512 < f.volume.layout.span (f.chains i)) {sect : Dword}
    (hsect : sect = f.volume.layout.sectorAt (f.chains i) ((f.fil i).fptr.toNat / 512)) :
    ∃ b, (f.opened i).writeSector sect =
        (.ok, ⟨f.volume, { f.fil i with sect := sect, buf := b }⟩) ∧
      ∀ n < (f.fil i).objsize.toNat, n / 512 = (f.fil i).fptr.toNat / 512 →
        b (ofs n) = f.byte i n := by
  have hin := h.sectorAt_inData hk
  have hbyte : ∀ n, n / 512 = (f.fil i).fptr.toNat / 512 →
      f.byte i n = f.volume.image sect (ofs n) := by
    intro n hn
    rw [byte, Fil.byte, Fil.sector, hclean, if_neg fun hand => Bool.false_ne_true hand.1, hn, hsect]
  rw [Opened.writeSector]
  by_cases hfill : (f.fil i).sect ≠ sect ∧ (f.fil i).fptr < (f.fil i).objsize
  · obtain ⟨buff, hread, hbuff⟩ := Drive.diskRead_one (h.serves _ 1 hin hin.2).1
    rw [← hsect] at hread hbuff
    have hfilled : (f.opened i).fill sect = (.ok, ⟨f.volume, { f.fil i with buf := buff 0 }⟩) := by
      rw [Opened.fill, opened_volume, hread]
      rfl
    refine ⟨buff 0, ?_, fun n _ hn => ?_⟩
    · rw [opened_fp, if_pos hfill, hfilled]
    · rw [hbyte n hn, hbuff, hsect, h.image_eq hk]
  · refine ⟨(f.fil i).buf, ?_, fun n hlt hn => ?_⟩
    · rw [opened_fp, if_neg hfill]
      rfl
    · by_cases hsame : (f.fil i).sect = sect
      · have hne : (f.fil i).sect ≠ 0 := by
          rw [hsame, hsect]
          exact (h.laid.inData_bounds hin).1
        rw [hbyte n hn, ← hsame, h.fil i |>.clean hne hclean]
      · have hend : ¬ (f.fil i).fptr.toNat < (f.fil i).objsize.toNat := fun hless =>
          hfill ⟨hsame, hless⟩
        omega

/-- A round that goes through the buffer. -/
theorem Sound.fit_spec (h : f.Sound) {g : Files ι} (hquiet : f.Quiet g i)
    (hunmoved : (f.fil i).Unmoved (g.fil i)) {btw : Dword} (hcount : 0 < btw.toNat)
    (hlt : (f.fil i).fptr.toNat + btw.toNat < 2 ^ 32)
    (hpart : ¬ ((f.fil i).fptr.toNat % 512 = 0 ∧ 0 < btw.toNat / 512))
    (hclust : (g.chains i)[(f.fil i).fptr.toNat / 512 / f.volume.layout.csize.toNat]? =
      some (g.fil i).clust)
    (hk : (f.fil i).fptr.toNat / 512 < g.volume.layout.span (g.chains i)) {sect : Dword}
    (hsect : sect = g.volume.layout.sectorAt (g.chains i) ((f.fil i).fptr.toNat / 512))
    (hdirty : (g.fil i).dirty = true → (g.fil i).sect = sect) {b : Sector}
    (hb : ∀ n < (f.fil i).objsize.toNat, n / 512 = (f.fil i).fptr.toNat / 512 →
      b (ofs n) = g.byte i n) (wbuff : Nat → Byte) :
    ∃ wcnt o f', (Opened.mk g.volume { g.fil i with sect := sect, buf := b }).fit wbuff btw =
        (.next wcnt, o) ∧ o.grow wcnt = f'.opened i ∧ 0 < wcnt.toNat ∧
      wcnt.toNat ≤ btw.toNat ∧ f.Wrote f' i ((List.range wcnt.toNat).map wbuff) := by
  obtain ⟨hmore, hbound, -⟩ :=
    Libk.wcnt_bounds h.laid.csize_pos (f.fil i).fptr.toNat hcount
  let o : Opened := ⟨g.volume, { g.fil i with sect := sect, buf := b }⟩
  have hofptr : o.fp.fptr = (f.fil i).fptr := hunmoved.fptr
  have hrest : (o.rest btw).toNat = _ := Opened.rest_toNat
  have hn : (o.rest btw).toNat = _ :=
    Opened.rest_wcnt f.volume.layout.csize.toNat (by rw [hofptr]; exact hpart)
  rw [hofptr] at hrest hn
  generalize hw : o.rest btw = w at hrest hn
  have hstart : (o.fp.fptr % 512).toNat = (f.fil i).fptr.toNat % 512 := by
    rw [Opened.mod512_toNat, hofptr]
  -- The buffer with the new bytes in it.
  let b' : Sector := fun j =>
    if (f.fil i).fptr.toNat % 512 ≤ j.val ∧ j.val < (f.fil i).fptr.toNat % 512 + w.toNat then
      wbuff (j.val - (f.fil i).fptr.toNat % 512) else b j
  let fp : Fil := { g.fil i with sect := sect, buf := b', dirty := true }
  have hfit : o.fit wbuff btw = (.next w, ⟨g.volume, fp⟩) := o.fit_eq wbuff btw hw hstart
  have hfp : fp = { g.fil i with
      sect := g.volume.layout.sectorAt (g.chains i) ((f.fil i).fptr.toNat / 512)
      buf := b', dirty := true } := by
    rw [← hsect]
  obtain ⟨hedited, hbytes⟩ := hquiet.stored.fit_spec hk (hsect ▸ hdirty) hfp
  have hfil : (g.put i ⟨g.volume, fp⟩).fil i = fp := put_fil_self ..
  have hgrow := h.grow_spec (g := g.put i ⟨g.volume, fp⟩) hquiet hedited (n := w)
    (by rw [hfil]; exact ⟨⟨hunmoved.readable, hunmoved.writable, hunmoved.objsize⟩, hunmoved.fptr,
      hunmoved.err⟩) hcount hlt hn (by rw [hfil]; exact hclust)
    (fun _ => by
      rw [hfil]
      change sect = _
      rw [hsect, hquiet.layout]
      rfl) wbuff (fun m hm hin => by
      rw [hbytes m hm]
      by_cases hsector : m / 512 = (f.fil i).fptr.toNat / 512
      · rw [if_pos hsector]
        have hval : (ofs m : Fin 512).val = m % 512 := rfl
        by_cases hrange : (f.fil i).fptr.toNat ≤ m ∧ m < (f.fil i).fptr.toNat + w.toNat
        · rw [if_pos hrange]
          change (if _ then _ else _) = _
          have hindex : m % 512 - (f.fil i).fptr.toNat % 512 = m - (f.fil i).fptr.toNat := by omega
          rw [if_pos (by omega), hval, hindex]
        · rw [if_neg hrange]
          change (if _ then _ else _) = _
          rw [if_neg (by omega)]
          exact hb m (hin.resolve_right hrange) hsector
      · rw [if_neg hsector, if_neg (by omega)])
  obtain ⟨f', hopened, hwrote⟩ := hgrow
  exact ⟨w, _, f', hfit, by rw [← hopened, opened_put], by omega, by omega, hwrote⟩

omit [DecidableEq ι] in
/-- The sector of the file pointer lies in the chain if its cluster does. -/
theorem lt_span_of_cluster {l : Layout} {cs : List Dword} {c : Dword} (hcsize : 0 < l.csize.toNat)
    (h : cs[k / l.csize.toNat]? = some c) : k < l.span cs := by
  obtain ⟨hplace, -⟩ := List.getElem?_eq_some_iff.mp h
  rw [Layout.span]
  exact (Nat.div_lt_iff_lt_mul hcsize).mp hplace

/-- A round that writes whole sectors. -/
theorem Sound.direct_spec (h : f.Sound) {g : Files ι} (hquiet : f.Quiet g i)
    (hunmoved : (f.fil i).Unmoved (g.fil i)) (hclean : (g.fil i).dirty = false)
    {btw : Dword} (hlt : (f.fil i).fptr.toNat + btw.toNat < 2 ^ 32)
    (hboundary : (f.fil i).fptr.toNat % 512 = 0) (hwhole : 0 < btw.toNat / 512)
    (hclust : (g.chains i)[(f.fil i).fptr.toNat / 512 / f.volume.layout.csize.toNat]? =
      some (g.fil i).clust) (wbuff : Nat → Byte) :
    ∃ wcnt o f', (g.opened i).writeDirect wbuff
        (g.volume.layout.sectorAt (g.chains i) ((f.fil i).fptr.toNat / 512))
        ((g.opened i).direct btw) = (.next wcnt, o) ∧ o.grow wcnt = f'.opened i ∧
      0 < wcnt.toNat ∧ wcnt.toNat ≤ btw.toNat ∧
      f.Wrote f' i ((List.range wcnt.toNat).map wbuff) := by
  have hcount : 0 < btw.toNat := by omega
  have hlayout := hquiet.layout
  have hcsize := hquiet.stored.laid.csize_pos
  obtain ⟨hmore, hbound, -⟩ :=
    Libk.wcnt_bounds h.laid.csize_pos (f.fil i).fptr.toNat hcount
  have hk : (f.fil i).fptr.toNat / 512 < g.volume.layout.span (g.chains i) := by
    rw [← hlayout] at hclust
    exact lt_span_of_cluster hcsize hclust
  have hfptr := hunmoved.fptr
  have hn : (512 * (g.opened i).direct btw).toNat = _ :=
    Opened.direct_wcnt hquiet.stored.laid (hfptr ▸ hboundary) hwhole
  have hcc : ((g.opened i).direct btw).toNat = _ := Opened.direct_toNat hquiet.stored.laid
  have hmod := Nat.mod_lt ((f.fil i).fptr.toNat / 512) hcsize
  rw [opened_fp, opened_volume, hfptr] at hn hcc
  generalize (g.opened i).direct btw = cc at hn hcc
  have hbytes : (512 * cc).toNat = 512 * cc.toNat := by
    have hsize : (512 : Dword).toNat = 512 := rfl
    have hmax := btw.isLt
    rw [BitVec.toNat_mul, hsize, hcc, Nat.mod_eq_of_lt (by omega)]
  rw [hlayout] at hn
  have hfits : (f.fil i).fptr.toNat / 512 % g.volume.layout.csize.toNat + cc.toNat ≤
      g.volume.layout.csize.toNat := by omega
  obtain ⟨b, g', hwrite, hedited, hfil, hself⟩ :=
    hquiet.stored.writeDirect_spec hclean hk hfits wbuff
  obtain ⟨f', hopened, hwrote⟩ := h.grow_spec hquiet hedited
    (hfil ▸ ⟨⟨hunmoved.readable, hunmoved.writable, hunmoved.objsize⟩, hfptr, hunmoved.err⟩)
    hcount hlt hn
    (by rw [hedited.chains, hfil]; exact hclust) (fun hinside => by
      rw [hbytes] at hinside
      omega) wbuff (fun m hm _ => by
      have hstart : (f.fil i).fptr.toNat / 512 * 512 = (f.fil i).fptr.toNat := by omega
      rw [hself m hm, hbytes, hstart]
      refine if_congr ?_ rfl rfl
      omega)
  exact ⟨512 * cc, g'.opened i, f', hwrite, hopened, by omega, by omega, hwrote⟩

/-- A round inside a sector, which the buffer holds already. -/
theorem Sound.writeRound_inside (h : f.Sound) (hinside : (f.fil i).fptr.toNat % 512 ≠ 0)
    {btw : Dword} (hcount : 0 < btw.toNat) (hlt : (f.fil i).fptr.toNat + btw.toNat < 2 ^ 32)
    (wbuff : Nat → Byte) :
    ∃ wcnt o f', (f.opened i).writeRound wbuff btw = some (.next wcnt, o) ∧
      o.grow wcnt = f'.opened i ∧ 0 < wcnt.toNat ∧ wcnt.toNat ≤ btw.toNat ∧
      f.Wrote f' i ((List.range wcnt.toNat).map wbuff) := by
  have hpos : 0 < (f.fil i).fptr.toNat := by omega
  have hsect := (h.placed i).current hinside
  have hclust := (h.placed i).cluster hpos
  have hplace := place_pred f.volume.layout.csize.toNat hpos
  rw [if_neg fun hand => hinside hand.1, Nat.add_zero] at hplace
  rw [← hplace] at hclust
  have hk := lt_span_of_cluster h.laid.csize_pos hclust
  have hne : (f.fil i).sect ≠ 0 := hsect ▸ (h.laid.inData_bounds (h.sectorAt_inData hk)).1
  obtain ⟨wcnt, o, f', hfit, hstep⟩ := h.fit_spec (h.quiet i) ⟨⟨rfl, rfl, rfl⟩, rfl, rfl⟩ hcount
    hlt (fun hand => hinside hand.1) hclust hk hsect (fun _ => rfl) (b := (f.fil i).buf)
    (fun n _ hn => by
      rw [byte, Fil.byte, hn, (h.fil i).sector_eq hne hsect]) wbuff
  refine ⟨wcnt, o, f', ?_, hstep⟩
  rw [Opened.writeRound, opened_fp, if_neg (mt Opened.mod512_eq_zero.mp hinside)]
  exact congrArg some hfit

/-- Nothing is written when only the window of the filesystem object has moved. -/
theorem Sound.wrote_of_keeps (h : f.Sound) (i : ι) {v' : Volume} (hkeeps : f.volume.Keeps v') :
    f.Wrote (f.put i ⟨v', f.fil i⟩) i [] := by
  have hquiet := h.toStored.keeps i hkeeps
  have hfil : (f.put i ⟨v', f.fil i⟩).fil i = f.fil i := put_fil_self ..
  have hsound : (f.put i ⟨v', f.fil i⟩).Sound := hquiet.sound h (by
    rw [hfil]
    exact h.placed i)
  refine ⟨hsound, hquiet.layout, fun j hj => ⟨(hquiet.others j hj).1, ?_⟩, ?_, ?_, ?_, ?_⟩
  · exact hquiet.contents h.toStored (by rw [hfil]) j
  · rw [overwrite_nil]
    exact hquiet.contents h.toStored (by rw [hfil]) i
  · rw [hfil]
    rfl
  · rw [hfil]
  · rw [hfil]

/-- A round writes its bytes over those of the file, unless it needs a cluster and none is free. -/
theorem Sound.writeRound_spec (h : f.Sound) (i : ι) {btw : Dword} (hcount : 0 < btw.toNat)
    (hlt : (f.fil i).fptr.toNat + btw.toNat < 2 ^ 32) (wbuff : Nat → Byte) :
    (∃ f', (f.opened i).writeRound wbuff btw = some (.full, f'.opened i) ∧ f.Wrote f' i [] ∧
      f'.volume.free = ∅) ∨
    ∃ wcnt o f', (f.opened i).writeRound wbuff btw = some (.next wcnt, o) ∧
      o.grow wcnt = f'.opened i ∧ 0 < wcnt.toNat ∧ wcnt.toNat ≤ btw.toNat ∧
      f.Wrote f' i ((List.range wcnt.toNat).map wbuff) := by
  by_cases hboundary : (f.fil i).fptr.toNat % 512 = 0
  case neg => exact .inr (h.writeRound_inside hboundary hcount hlt wbuff)
  have hdiv := Opened.div512_toNat btw
  rw [Opened.writeRound, opened_fp, if_pos (Opened.mod512_eq_zero.mpr hboundary)]
  rcases h.writeCluster_spec i hboundary with ⟨v', hcluster, hkeeps, hfree⟩ |
    ⟨c, s, g₀, hcluster, hquiet₀, hfil₀, hclust₀⟩
  · refine .inl ⟨_, ?_, h.wrote_of_keeps i hkeeps, hkeeps.free.trans hfree⟩
    rw [hcluster, Option.map_some, opened_put]
  -- The buffer is written back before another sector gets into it.
  obtain ⟨g, hback, hquiet₁, hchains₁, hfil₁⟩ := hquiet₀.stored.writeBack_spec i
  have hquiet := hquiet₀.trans hquiet₁
  have hfil : g.fil i = { f.fil i with clust := c, sclust := s, dirty := false } := by
    rw [hfil₁, hfil₀]
  have hfptr : (g.fil i).fptr = (f.fil i).fptr := by rw [hfil]
  have hclean : (g.fil i).dirty = false := by rw [hfil]
  have hunmoved : (f.fil i).Unmoved (g.fil i) := by
    rw [hfil]
    exact ⟨⟨rfl, rfl, rfl⟩, rfl, rfl⟩
  have hclust : (g.chains i)[(f.fil i).fptr.toNat / 512 / f.volume.layout.csize.toNat]? =
      some (g.fil i).clust := by
    rw [hchains₁, hfil]
    exact hclust₀
  have hclust' : (g.chains i)[(g.fil i).fptr.toNat / 512 / g.volume.layout.csize.toNat]? =
      some (g.fil i).clust := by
    rw [hfptr, hquiet.layout]
    exact hclust
  obtain ⟨hzero, hsector⟩ := hquiet.stored.sector_spec hclust'
  have hk := lt_span_of_cluster hquiet.stored.laid.csize_pos hclust'
  rw [hfptr] at hsector hk
  rw [hcluster, Option.map_some]
  dsimp only
  rw [hback]
  dsimp only
  rw [if_neg hzero, hsector]
  by_cases hwhole : 0 < btw.toNat / 512
  · have hif : (0 : Dword) < btw / 512 := by
      rw [BitVec.lt_def, hdiv]
      exact hwhole
    obtain ⟨wcnt, o, f', hwrite, hstep⟩ :=
      h.direct_spec hquiet hunmoved hclean hlt hboundary hwhole hclust wbuff
    refine .inr ⟨wcnt, o, f', ?_, hstep⟩
    rw [if_pos hif, hwrite]
  · have hif : ¬ (0 : Dword) < btw / 512 := by
      rw [BitVec.lt_def, hdiv]
      exact hwhole
    obtain ⟨b, hload, hbuf⟩ := hquiet.stored.writeSector_spec hclean (hfptr ▸ hboundary)
      (hfptr ▸ hk) rfl
    rw [hfptr] at hload hbuf
    rw [hunmoved.objsize] at hbuf
    obtain ⟨wcnt, o, f', hfit, hstep⟩ := h.fit_spec hquiet hunmoved hcount hlt
      (fun hand => hwhole hand.2) hclust hk rfl
      (fun hflag => absurd (hclean.symm.trans hflag) Bool.false_ne_true) hbuf wbuff
    refine .inr ⟨wcnt, o, f', ?_, hstep⟩
    rw [if_neg hif, hload]
    exact congrArg some hfit

/-! ## A run of `f_write` -/

omit [DecidableEq ι] in
theorem Sound.wrote_nil (h : f.Sound) (i : ι) : f.Wrote f i [] :=
  ⟨h, rfl, fun _ _ => ⟨rfl, rfl⟩, overwrite_nil.symm, rfl, rfl, rfl⟩

/-- The bytes that are left for the next round. -/
theorem range_add_map {α : Type*} (wbuff : Nat → α) (a b : Nat) :
    (List.range (a + b)).map wbuff =
      (List.range a).map wbuff ++ (List.range b).map fun m => wbuff (a + m) := by
  rw [List.range_add, List.map_append, List.map_map]
  rfl

/-- The loop writes as many bytes as it is asked for, or until no cluster is free. -/
theorem Sound.writeLoop_spec (h : f.Sound) (i : ι) {fuel : Nat} (wbuff : Nat → Byte)
    (btw bw : Dword) (hlt : (f.fil i).fptr.toNat + btw.toNat < 2 ^ 32) (hfuel : btw.toNat < fuel) :
    ∃ f' w, Opened.writeLoop fuel (f.opened i) wbuff btw bw = some ⟨.ok, bw + w, f'.opened i⟩ ∧
      w.toNat ≤ btw.toNat ∧ f.Wrote f' i ((List.range w.toNat).map wbuff) ∧
      (w.toNat < btw.toNat → f'.volume.free = ∅) := by
  induction fuel generalizing f wbuff btw bw with
  | zero => exact absurd hfuel (Nat.not_lt_zero _)
  | succ fuel ih =>
      rw [Opened.writeLoop]
      by_cases hzero : btw = 0
      · subst hzero
        refine ⟨f, 0, ?_, Nat.le_refl _, h.wrote_nil i, fun hless => absurd hless (Nat.lt_irrefl _)⟩
        rw [if_pos rfl]
        exact congrArg (fun n => some (Opened.Writing.mk .ok n (f.opened i)))
          (BitVec.add_zero bw).symm
      · have hcount : 0 < btw.toNat := Nat.pos_of_ne_zero fun hz =>
          hzero (BitVec.eq_of_toNat_eq hz)
        rw [if_neg hzero]
        rcases h.writeRound_spec i hcount hlt wbuff with ⟨f₁, hround, hwrote, hfree⟩ |
          ⟨wcnt, o, f₁, hround, hgrow, hmore, hbound, hwrote⟩
        · refine ⟨f₁, 0, ?_, Nat.zero_le _, hwrote, fun _ => hfree⟩
          rw [hround]
          exact congrArg (fun n => some (Opened.Writing.mk .ok n (f₁.opened i)))
            (BitVec.add_zero bw).symm
        · have hrest : (btw - wcnt).toNat = btw.toNat - wcnt.toNat :=
            BitVec.toNat_sub_of_le hbound
          have hfptr := hwrote.fptr
          rw [List.length_map, List.length_range] at hfptr
          obtain ⟨f₂, w, hloop, hle, hwrote', hfree⟩ :=
            ih hwrote.sound (fun m => wbuff (wcnt.toNat + m)) (btw - wcnt) (bw + wcnt)
              (by rw [hfptr, hrest]; omega) (by omega)
          have hsum : (wcnt + w).toNat = wcnt.toNat + w.toNat := by
            have hmax := btw.isLt
            rw [BitVec.toNat_add, Nat.mod_eq_of_lt (by omega)]
          refine ⟨f₂, wcnt + w, ?_, by omega, ?_, fun hless => hfree (by omega)⟩
          · rw [hround]
            dsimp only
            rw [hgrow, hloop, BitVec.add_assoc]
          · rw [hsum, range_add_map]
            exact hwrote.trans hwrote' h

/-- What `modify` changes is of no matter to the files. -/
theorem Wrote.modify {d : List Byte} (h : f.Wrote f' i d) :
    ∃ f'', (f'.opened i).modify = f''.opened i ∧ f.Wrote f'' i d ∧ f''.volume = f'.volume ∧
      (f''.fil i).modified = true := by
  have hquiet : f'.Quiet (f'.put i (f'.opened i).modify) i :=
    h.sound.toStored.setFil rfl rfl rfl rfl rfl
  have hfil : (f'.put i (f'.opened i).modify).fil i = { f'.fil i with modified := true } :=
    put_fil_self ..
  have hplaced := h.sound.placed i
  have hsame := hquiet.contents h.sound.toStored (by rw [hfil])
  refine ⟨f'.put i (f'.opened i).modify, (opened_put ..).symm,
    ⟨?_, ?_, ?_, ?_, ?_, ?_, ?_⟩, rfl, ?_⟩
  · refine hquiet.sound h.sound ?_
    rw [hfil]
    exact ⟨hplaced.err, hplaced.within, hplaced.cluster, hplaced.current⟩
  · exact hquiet.layout.trans h.layout
  · intro j hj
    exact ⟨(hquiet.others j hj).1.trans (h.others j hj).1, (hsame j).trans (h.others j hj).2⟩
  · exact (hsame i).trans h.written
  · rw [hfil]
    exact h.fptr
  · rw [hfil]
    exact h.readable
  · rw [hfil]
    exact h.writable
  · rw [hfil]

/-- `f_write` puts its bytes over those of the file from the file pointer on. The file grows where
they reach behind its end, and no other file changes. Bytes are left over only if the size of a
file does not allow for them or if no cluster is free. -/
theorem Sound.fWrite_spec (h : f.Sound) (i : ι) (hwritable : (f.fil i).writable = true)
    (wbuff : Nat → Byte) (btw : Dword) :
    ∃ f' bw, (f.opened i).fWrite wbuff btw = some ⟨.ok, bw, f'.opened i⟩ ∧
      f.Wrote f' i ((List.range bw.toNat).map wbuff) ∧ (f'.fil i).modified = true ∧
      bw.toNat ≤ btw.toNat ∧
      (bw.toNat < btw.toNat → f'.volume.free = ∅ ∨
        (f.fil i).fptr.toNat + bw.toNat = 0xFFFFFFFF ∧
          2 ^ 32 ≤ (f.fil i).fptr.toNat + btw.toNat) := by
  have hfptr := (f.fil i).fptr.isLt
  have hcount := btw.isLt
  have hmax : (0xFFFFFFFF : Dword).toNat = 2 ^ 32 - 1 := rfl
  have hroom : (0xFFFFFFFF - (f.fil i).fptr : Dword).toNat =
      2 ^ 32 - 1 - (f.fil i).fptr.toNat := by
    rw [BitVec.toNat_sub_of_le, hmax]
    rw [BitVec.le_def, hmax]
    omega
  generalize hclip : (if (f.fil i).fptr + btw < (f.fil i).fptr then
    0xFFFFFFFF - (f.fil i).fptr else btw) = n
  have hn : n.toNat = min btw.toNat (2 ^ 32 - 1 - (f.fil i).fptr.toNat) := by
    rw [← hclip]
    split_ifs with hwraps <;> rw [BitVec.lt_def, BitVec.toNat_add] at hwraps
    · rw [hroom]
      omega
    · omega
  obtain ⟨f₁, w, hloop, hle, hwrote, hfree⟩ :=
    h.writeLoop_spec i wbuff n 0 (by omega) (Nat.lt_succ_self _)
  obtain ⟨f', hmodify, hwrote', hvolume, hmodified⟩ := hwrote.modify
  have hsum : 0 + w = w := BitVec.zero_add w
  refine ⟨f', w, ?_, hwrote', hmodified, by omega, fun hless => ?_⟩
  · rw [Opened.fWrite, opened_fp, if_neg (not_not_intro (h.placed i).err),
      if_neg (by rw [hwritable]; decide)]
    dsimp only
    rw [hclip, hloop, hsum, Option.map_some, if_pos rfl, hmodify]
  · by_cases hshort : w.toNat < n.toNat
    · exact .inl (hvolume ▸ hfree hshort)
    · exact .inr (by omega)

theorem fWrite_spec_emptyFiles :
    ∃ f' bw, (emptyFiles.opened true).fWrite (fun m => BitVec.ofNat 8 m) 600 =
        some ⟨.ok, bw, f'.opened true⟩ ∧
      emptyFiles.Wrote f' true ((List.range bw.toNat).map fun m => BitVec.ofNat 8 m) ∧
      (f'.fil true).modified = true ∧ bw.toNat ≤ (600 : Dword).toNat ∧
      (bw.toNat < (600 : Dword).toNat → f'.volume.free = ∅ ∨
        (emptyFiles.fil true).fptr.toNat + bw.toNat = 0xFFFFFFFF ∧
          2 ^ 32 ≤ (emptyFiles.fil true).fptr.toNat + (600 : Dword).toNat) :=
  emptyFiles_sound.fWrite_spec true rfl (fun m => BitVec.ofNat 8 m) 600

end Files

end Senob.Fat
