import Senob.Fat.FileWrites

/-!
# Seeking

`f_lseek` follows the chain from the current cluster, or from the first one if the way leads back.
In write mode it stretches the chain on the way, so that a file pointer behind the end of the file
makes the file longer.
-/

namespace Senob.Fat

open Foundation
open Libk (FResult)

/-- A mask of low bits cleared. -/
theorem toNat_and_not_mask {x b : Dword} {m : Nat} (hb : b.toNat = 2 ^ m) :
    (x &&& ~~~(b - 1)).toNat = x.toNat / b.toNat * b.toNat := by
  have hone : (1 : Dword).toNat = 1 := rfl
  have hmask : (b - 1).toNat = 2 ^ m - 1 := by
    rw [BitVec.toNat_sub_of_le, hb, hone]
    rw [BitVec.le_def, hb, hone]
    exact Nat.one_le_two_pow
  rw [hb]
  apply Nat.eq_of_testBit_eq
  intro j
  rw [BitVec.testBit_toNat, BitVec.getLsbD_and, BitVec.getLsbD_not, ← BitVec.testBit_toNat,
    ← BitVec.testBit_toNat, hmask, Nat.testBit_two_pow_sub_one, Nat.testBit_mul_two_pow,
    Nat.testBit_div_two_pow]
  by_cases hj : j < 32
  · by_cases hm : j < m
    · simp [hm]
    · simp [hm, hj, Nat.not_lt.mp hm, Nat.sub_add_cancel (Nat.not_lt.mp hm)]
  · have hzero : x.toNat.testBit j = false :=
      Nat.testBit_lt_two_pow (x.isLt.trans_le (Nat.pow_le_pow_right (by decide) (by omega)))
    by_cases hm : j < m
    · simp [hm, hzero]
    · simp [hzero, Nat.sub_add_cancel (Nat.not_lt.mp hm)]

/-- The last byte before a place in cluster `k`, or at its end, is in cluster `k`. -/
theorem div_cluster_of_le {k n csize : Nat} (hpos : 0 < n) (hn : n ≤ 512 * csize) :
    (k * (512 * csize) + n - 1) / 512 / csize = k := by
  rw [Nat.div_div_eq_div_mul]
  generalize 512 * csize = bcs at hn
  have hsum : k * bcs + n - 1 = bcs * k + (n - 1) := by
    rw [Nat.mul_comm]
    omega
  rw [hsum, Nat.mul_add_div (hpos.trans_le hn), Nat.div_eq_of_lt (by omega), Nat.add_zero]

/-- The size of a cluster in bytes, which does not wrap around. -/
theorem Opened.bcs_toNat (o : Opened) : o.bcs.toNat = 512 * o.volume.layout.csize.toNat := by
  have hwide : (o.volume.fs.csize.setWidth 32 : Dword).toNat = o.volume.layout.csize.toNat :=
    BitVec.toNat_setWidth_of_le (by decide)
  have hsector : (512 : Dword).toNat = 512 := rfl
  have hsmall := o.volume.layout.csize.isLt
  rw [bcs, BitVec.toNat_mul, hwide, hsector, Nat.mod_eq_of_lt (by omega), Nat.mul_comm]

namespace Files

variable {ι : Type*} [DecidableEq ι] {f f' f'' : Files ι} {i j : ι} {k n : Nat}

/-! ## The way along the chain -/

/-- One step along the chain, in either mode. -/
theorem Stored.next_spec (h : f.Stored) {clst : Dword} (hc : (f.chains i)[k]? = some clst)
    (hmode : (f.fil i).writable = true ∨ k + 1 < (f.chains i).length) :
    ∃ r v', (if (f.fil i).writable then f.volume.createChain clst
        else some (f.volume.getFat clst)) = some (r, v') ∧
      ((f.fil i).writable = true ∧ r = 0 ∧ f.volume.Keeps v' ∧ f.volume.free = ∅ ∨
        ∃ f', f'.opened i = ⟨v', { f.fil i with clust := r }⟩ ∧ f.Follows f' i ∧
          (f'.chains i)[k + 1]? = some r) := by
  cases hwritable : (f.fil i).writable with
  | true =>
      obtain ⟨r, v', hcreate, hresult⟩ := h.createNext_spec hc
      exact ⟨r, v', hcreate, hresult.imp (fun hfull => ⟨rfl, hfull⟩) id⟩
  | false =>
      have hinside := hmode.resolve_left fun htrue =>
        Bool.false_ne_true (hwritable.symm.trans htrue)
      have hnext : (f.chains i)[k + 1]? = some (f.chains i)[k + 1] :=
        List.getElem?_eq_getElem hinside
      have hentry := h.toSound.entry_next hc hnext
      obtain ⟨v', hget, hkeeps⟩ :=
        h.volume.getFat_spec h.covers (h.valid i _ (List.mem_of_getElem? hc))
      rw [hentry] at hget
      obtain ⟨hfollows, hfil⟩ := h.moved (i := i) hkeeps (p := (f.fil i).fptr)
        (c := (f.chains i)[k + 1]) rfl
      exact ⟨_, v', congrArg some hget, .inr ⟨_, opened_put .., hfollows, hnext⟩⟩

/-- Where the walk along the chain ends: in a cluster of the file, not behind the offset, and only
a full disk keeps it from getting there. -/
structure Reached (f : Files ι) (i : ι) (p target : Nat) : Prop where
  le : p ≤ target
  full : p < target → p % 512 = 0 ∧ f.volume.free = ∅
  cluster : 0 < p →
    (f.chains i)[(p - 1) / 512 / f.volume.layout.csize.toNat]? = some (f.fil i).clust

omit [DecidableEq ι] in
/-- The walk ends in the cluster where it stands, at its end at the latest. -/
theorem Reached.of_cluster {p target : Nat} (hc : (f.chains i)[k]? = some (f.fil i).clust)
    (hp : p = k * (512 * f.volume.layout.csize.toNat) + n) (hpos : 0 < n)
    (hn : n ≤ 512 * f.volume.layout.csize.toNat) (hle : p ≤ target)
    (hfull : p < target → p % 512 = 0 ∧ f.volume.free = ∅) : f.Reached i p target := by
  refine ⟨hle, hfull, fun _ => ?_⟩
  rw [hp, div_cluster_of_le hpos hn, hc]

/-- The file pointer at the end of the cluster where the walk stands. -/
theorem Stored.advance_spec (h : f.Stored) (i : ι)
    (hfptr : (f.fil i).fptr.toNat = k * (512 * f.volume.layout.csize.toNat))
    (hlt : (k + 1) * (512 * f.volume.layout.csize.toNat) < 2 ^ 32) :
    ∃ f', (f.opened i).advance (f.opened i).bcs = f'.opened i ∧ f.Follows f' i ∧
      f'.chains = f.chains ∧ (f'.fil i).clust = (f.fil i).clust ∧
      (f'.fil i).fptr.toNat = (k + 1) * (512 * f.volume.layout.csize.toNat) := by
  have hbcs : (f.opened i).bcs.toNat = 512 * f.volume.layout.csize.toNat := Opened.bcs_toNat _
  have hsplit : (k + 1) * (512 * f.volume.layout.csize.toNat) =
      (f.fil i).fptr.toNat + 512 * f.volume.layout.csize.toNat := by
    rw [hfptr, Nat.add_one_mul]
  obtain ⟨hmoved, hfil⟩ := h.moved (i := i) h.volume.keeps
    (p := (f.fil i).fptr + (f.opened i).bcs) (c := (f.fil i).clust) rfl
  refine ⟨_, ?_, hmoved, rfl, by rw [hfil], ?_⟩
  · rw [opened_put]
    rfl
  · rw [hfil]
    dsimp only
    rw [BitVec.toNat_add, hbcs, ← hsplit, Nat.mod_eq_of_lt hlt]

/-- One round of the cluster following loop. It stops at the end of the cluster if the disk is
full, else it goes on at the next cluster. -/
theorem Stored.seekStep_spec (h : f.Stored) (fuel : Nat) {p : Opened.Place}
    (hc : (f.chains i)[k]? = some p.clst) (hclust : (f.fil i).clust = p.clst)
    (hfptr : (f.fil i).fptr.toNat = k * (512 * f.volume.layout.csize.toNat))
    (hlt : (k + 1) * (512 * f.volume.layout.csize.toNat) < 2 ^ 32)
    (hmode : (f.fil i).writable = true ∨ k + 1 < (f.chains i).length)
    (hmore : (f.opened i).bcs < p.ofs) :
    ∃ f' r, f.Follows f' i ∧
      (f'.fil i).fptr.toNat = (k + 1) * (512 * f.volume.layout.csize.toNat) ∧
      (Opened.seekLoop (fuel + 1) (f.opened i) p = some (.ok ⟨0, 0⟩, f'.opened i) ∧
          f'.volume.free = ∅ ∧ (f'.chains i)[k]? = some (f'.fil i).clust ∨
        Opened.seekLoop (fuel + 1) (f.opened i) p =
            Opened.seekLoop fuel (f'.opened i) ⟨p.ofs - (f.opened i).bcs, r⟩ ∧
          (f'.chains i)[k + 1]? = some r ∧ (f'.fil i).clust = r) := by
  obtain ⟨g, hopened, hmoved, hchains, hclustMoved, hend⟩ := h.advance_spec i hfptr hlt
  rw [← congrFun hchains i] at hc hmode
  rw [← hmoved.writable] at hmode
  obtain ⟨r, v', hfound, hresult⟩ := hmoved.quiet.stored.next_spec hc hmode
  rw [Opened.seekLoop, if_pos hmore, hopened]
  dsimp only
  rw [opened_fp, opened_volume, hfound]
  dsimp only
  rcases hresult with ⟨hwritable, rfl, hkeeps, hfree⟩ | ⟨f₁, hopened₁, hfollows, hnext⟩
  · have hquiet := hmoved.quiet.stored.keeps i hkeeps
    have hfil : (g.put i ⟨v', g.fil i⟩).fil i = g.fil i := put_fil_self ..
    have hfollows : g.Follows (g.put i ⟨v', g.fil i⟩) i :=
      ⟨hquiet, by rw [hfil], by rw [hfil], by rw [hfil], by rw [hfil]⟩
    refine ⟨_, 0, hmoved.trans hfollows, by rw [hfil, hend],
      .inl ⟨?_, hkeeps.free.trans hfree, ?_⟩⟩
    · rw [if_pos ⟨hwritable, rfl⟩, opened_put]
    · rw [put_chains, hfil, hclustMoved, hclust, hc]
  · have hfil₁ : f₁.fil i = { g.fil i with clust := r } := congrArg Opened.fp hopened₁
    have hvolume₁ : f₁.volume = v' := congrArg Opened.volume hopened₁
    have hvalid := hfollows.quiet.stored.valid i r (List.mem_of_getElem? hnext)
    obtain ⟨h0, -, h2⟩ := hfollows.quiet.stored.cluster_ne hvalid
    have hlow : ¬ r ≤ 1 := fun hle => Nat.not_succ_le_self 1 (hvalid.1.trans hle)
    have hhigh : ¬ v'.fs.nFatent ≤ r := by
      rw [← hvolume₁]
      exact BitVec.not_le.mpr hvalid.2
    refine ⟨f₁, r, hmoved.trans hfollows, by rw [hfil₁, hend], .inr ⟨?_, hnext, by rw [hfil₁]⟩⟩
    rw [if_neg fun hand => h0 hand.2, if_neg h2, if_neg fun hor => hor.elim hlow hhigh, hopened₁]

omit [DecidableEq ι] in
/-- A file that reaches behind cluster `k` has a cluster behind it. -/
theorem Stored.inside (h : f.Stored) (i : ι)
    (hless : (k + 1) * (512 * f.volume.layout.csize.toNat) < (f.fil i).objsize.toNat) :
    k + 1 < (f.chains i).length := by
  have hcapacity := (h.fil i).capacity
  rw [Layout.span] at hcapacity
  have hroom : (f.chains i).length * f.volume.layout.csize.toNat * 512 =
      (f.chains i).length * (512 * f.volume.layout.csize.toNat) := by ring
  exact lt_of_mul_lt_mul_right (hless.trans_le (hroom ▸ hcapacity)) (Nat.zero_le _)

/-- The walk stands at the start of cluster `k` of the file, and `p` has what is left of the
offset. -/
structure AtCluster (f : Files ι) (i : ι) (p : Opened.Place) (k target : Nat) : Prop where
  cluster : (f.chains i)[k]? = some p.clst
  clust : (f.fil i).clust = p.clst
  fptr : (f.fil i).fptr.toNat = k * (512 * f.volume.layout.csize.toNat)
  pos : 0 < p.ofs.toNat
  target : (f.fil i).fptr.toNat + p.ofs.toNat = target

/-- The cluster following loop, by induction on its rounds. -/
theorem Stored.seekLoop_spec (h : f.Stored) {fuel : Nat} {p : Opened.Place} {target : Nat}
    (hat : f.AtCluster i p k target) (hlt : target < 2 ^ 32)
    (hmode : (f.fil i).writable = true ∨ target ≤ (f.fil i).objsize.toNat)
    (hfuel : p.ofs.toNat < fuel) :
    ∃ f' p' m, Opened.seekLoop fuel (f.opened i) p = some (.ok p', f'.opened i) ∧
      f.Follows f' i ∧ f'.Reached i ((f'.fil i).fptr.toNat + p'.ofs.toNat) target ∧
      (f'.fil i).fptr.toNat = m * (512 * f'.volume.layout.csize.toNat) ∧
      (p'.ofs.toNat % 512 ≠ 0 → (f'.chains i)[m]? = some p'.clst ∧
        p'.ofs.toNat ≤ 512 * f'.volume.layout.csize.toNat) := by
  obtain ⟨hc, hclust, hfptr, hpos, htarget⟩ := hat
  induction fuel generalizing f k p with
  | zero => exact absurd hfuel (Nat.not_lt_zero _)
  | succ fuel ih =>
      have hcsize := h.laid.csize_pos
      have hbcs : (f.opened i).bcs.toNat = 512 * f.volume.layout.csize.toNat := Opened.bcs_toNat _
      by_cases hmore : (f.opened i).bcs < p.ofs
      case neg =>
        have hle : p.ofs.toNat ≤ 512 * f.volume.layout.csize.toNat := by
          rw [← hbcs]
          exact Nat.not_lt.mp hmore
        refine ⟨f, p, k, ?_, ⟨h.quiet i, rfl, rfl, rfl, rfl⟩, ?_, hfptr, fun _ => ⟨hc, hle⟩⟩
        · rw [Opened.seekLoop, if_neg hmore]
        · refine .of_cluster (hclust ▸ hc) (by rw [hfptr]) hpos hle (Nat.le_of_eq htarget) ?_
          exact fun hless => absurd hless (htarget ▸ Nat.lt_irrefl _)
      case pos =>
        have hmoreNat : 512 * f.volume.layout.csize.toNat < p.ofs.toNat := by
          rw [← hbcs]
          exact hmore
        have hofs : (p.ofs - (f.opened i).bcs).toNat =
            p.ofs.toNat - 512 * f.volume.layout.csize.toNat := by
          rw [BitVec.toNat_sub_of_le (Nat.le_of_lt hmore), hbcs]
        have hsplit : (k + 1) * (512 * f.volume.layout.csize.toNat) =
            (f.fil i).fptr.toNat + 512 * f.volume.layout.csize.toNat := by
          rw [hfptr, Nat.add_one_mul]
        obtain ⟨f₁, r, hfollows, hend, hresult⟩ := h.seekStep_spec fuel hc hclust hfptr
          (by omega) (hmode.imp id fun hsize => h.inside i (by omega)) hmore
        have hlayout := hfollows.quiet.layout
        rcases hresult with ⟨hstep, hfree, hlast⟩ | ⟨hstep, hnext, hclust₁⟩
        · -- The disk is full.
          refine ⟨f₁, ⟨0, 0⟩, k + 1, hstep, hfollows, ?_, by rw [hend, hlayout],
            fun hne => absurd rfl hne⟩
          refine .of_cluster hlast (by rw [hend, hlayout, Nat.add_one_mul]; rfl)
            (hlayout ▸ Nat.mul_pos (by decide) hcsize) (Nat.le_refl _) ?_ fun _ => ⟨?_, hfree⟩
          · rw [hend]
            exact (Nat.le_of_eq hsplit).trans (by omega)
          · rw [hend]
            change (k + 1) * (512 * _) % 512 = 0
            rw [Nat.mul_left_comm, Nat.mul_mod_right]
        · obtain ⟨f₂, p₂, m, hloop, hfollows₂, hrest⟩ :=
            ih hfollows.quiet.stored (p := ⟨p.ofs - (f.opened i).bcs, r⟩)
              (by rw [hfollows.writable, hfollows.objsize]; exact hmode) (by rw [hofs]; omega)
              hnext hclust₁ (by rw [hend, hlayout]) (by rw [hofs]; omega)
              (by rw [hend, hofs]; omega)
          exact ⟨f₂, p₂, m, hstep.trans hloop, hfollows.trans hfollows₂, hrest⟩

/-- The walk starts at the current cluster if the offset is in it or behind it. -/
theorem Sound.seekNear_spec (h : f.Sound) (i : ι) {ofs : Dword} (hpos : 0 < ofs.toNat)
    (hnear : 0 < (f.fil i).fptr ∧
      ((f.fil i).fptr - 1) / (f.opened i).bcs ≤ (ofs - 1) / (f.opened i).bcs) :
    ∃ f' p k, (f.opened i).seekStart ofs = some (.ok p, f'.opened i) ∧ f.Follows f' i ∧
      f'.AtCluster i p k ofs.toNat := by
  have hbcs : (f.opened i).bcs.toNat = 512 * f.volume.layout.csize.toNat := Opened.bcs_toNat _
  obtain ⟨m, hm⟩ := h.laid.cluster
  have hpow : (f.opened i).bcs.toNat = 2 ^ (m + 9) := by
    rw [hbcs, hm, Nat.pow_add, Nat.mul_comm]
  have hbefore : 0 < (f.fil i).fptr.toNat := hnear.1
  have hplace : ((f.fil i).fptr - 1).toNat = (f.fil i).fptr.toNat - 1 :=
    BitVec.toNat_sub_of_le hbefore
  have hgoal : (ofs - 1).toNat = ofs.toNat - 1 := BitVec.toNat_sub_of_le hpos
  have horder := hnear.2
  rw [BitVec.le_def, BitVec.toNat_udiv, BitVec.toNat_udiv, hplace, hgoal, hbcs] at horder
  have hclust := (h.placed i).cluster hbefore
  rw [Nat.div_div_eq_div_mul] at hclust
  -- The start of the current cluster.
  have hmask := toNat_and_not_mask (x := (f.fil i).fptr - 1) hpow
  rw [hplace, hbcs] at hmask
  have hstart : ((f.fil i).fptr.toNat - 1) / (512 * f.volume.layout.csize.toNat) *
      (512 * f.volume.layout.csize.toNat) ≤ ofs.toNat - 1 :=
    (Nat.mul_le_mul_right _ horder).trans (Nat.div_mul_le_self _ _)
  rw [Opened.seekStart, opened_fp]
  dsimp only
  rw [if_pos hnear]
  generalize ((f.fil i).fptr - 1) &&& ~~~((f.opened i).bcs - 1) = start at hmask ⊢
  have hrest : (ofs - start).toNat = ofs.toNat - start.toNat := by
    rw [BitVec.toNat_sub_of_le]
    rw [BitVec.le_def, hmask]
    omega
  obtain ⟨hmoved, hfil⟩ := h.toStored.moved (i := i) h.volume.keeps
    (p := start) (c := (f.fil i).clust) rfl
  refine ⟨_, ⟨ofs - start, (f.fil i).clust⟩, _, ?_, hmoved, hclust, by rw [hfil], ?_, ?_, ?_⟩
  · rw [opened_put]
    rfl
  · rw [hfil]
    exact hmask
  · rw [hrest, hmask]
    omega
  · rw [hfil, hrest]
    dsimp only
    rw [hmask]
    omega

/-- The walk of a file without clusters starts at its first one, if one is free. -/
theorem Sound.seekFirst_spec (h : f.Sound) (i : ι) {ofs : Dword} (hpos : 0 < ofs.toNat)
    (hnear : ¬ (0 < (f.fil i).fptr ∧
      ((f.fil i).fptr - 1) / (f.opened i).bcs ≤ (ofs - 1) / (f.opened i).bcs))
    (hnone : (f.fil i).sclust = 0) :
    (∃ f', (f.opened i).seekStart ofs = some (.ok ⟨ofs, 0⟩, f'.opened i) ∧ f.Follows f' i ∧
      (f'.fil i).fptr = 0 ∧ f'.volume.free = ∅) ∨
    ∃ f' p k, (f.opened i).seekStart ofs = some (.ok p, f'.opened i) ∧ f.Follows f' i ∧
      f'.AtCluster i p k ofs.toNat := by
  obtain ⟨hmoved, hfilMoved⟩ := h.toStored.moved (i := i) h.volume.keeps (p := 0)
    (c := (f.fil i).clust) rfl
  generalize hg : f.put i ⟨f.volume, { f.fil i with fptr := 0 }⟩ = g at hmoved hfilMoved
  have hvolume : g.volume = f.volume := by
    rw [← hg]
    rfl
  have hempty : g.chains i = [] := by
    rw [← hg]
    exact by_contra fun hne => h.sclust_ne hne hnone
  obtain ⟨r, v', hcreate, hresult⟩ := hmoved.quiet.stored.createFirst_spec hempty
  rw [hvolume] at hcreate
  rw [Opened.seekStart, opened_fp]
  dsimp only
  rw [if_neg hnear, if_pos hnone, opened_volume, hcreate, Option.map_some]
  dsimp only
  rcases hresult with ⟨rfl, hkeeps, hfree⟩ | ⟨f', hopened, hfollows, hc⟩
  · rw [hvolume] at hkeeps hfree
    obtain ⟨hend, hfil⟩ := h.toStored.moved (i := i) hkeeps (p := 0) (c := 0)
      (show { f.fil i with fptr := 0, sclust := 0, clust := 0 } = _ by rw [← hnone])
    refine .inl ⟨_, ?_, hend, by rw [hfil], hkeeps.free.trans hfree⟩
    rw [if_neg (by decide), if_neg (by decide), opened_put]
  · obtain ⟨-, h1, h2⟩ := hfollows.quiet.stored.cluster_ne
      (hfollows.quiet.stored.valid i r (List.mem_of_getElem? hc))
    have hfil : f'.fil i = { g.fil i with sclust := r, clust := r } := congrArg Opened.fp hopened
    refine .inr ⟨f', ⟨ofs, r⟩, 0, ?_, hmoved.trans hfollows, hc, by rw [hfil], ?_, hpos, ?_⟩
    · rw [if_neg h1, if_neg h2, hopened, hfilMoved]
    · rw [hfil, hfilMoved, Nat.zero_mul]
      rfl
    · rw [hfil, hfilMoved]
      exact Nat.zero_add _

/-- The loop starts at a cluster of the file, unless it has none and none is free. -/
theorem Sound.seekStart_spec (h : f.Sound) (i : ι) {ofs : Dword} (hpos : 0 < ofs.toNat) :
    (∃ f', (f.opened i).seekStart ofs = some (.ok ⟨ofs, 0⟩, f'.opened i) ∧ f.Follows f' i ∧
      (f'.fil i).fptr = 0 ∧ f'.volume.free = ∅) ∨
    ∃ f' p k, (f.opened i).seekStart ofs = some (.ok p, f'.opened i) ∧ f.Follows f' i ∧
      f'.AtCluster i p k ofs.toNat := by
  by_cases hnear : 0 < (f.fil i).fptr ∧
      ((f.fil i).fptr - 1) / (f.opened i).bcs ≤ (ofs - 1) / (f.opened i).bcs
  · exact .inr (h.seekNear_spec i hpos hnear)
  by_cases hnone : (f.fil i).sclust = 0
  · exact h.seekFirst_spec i hpos hnear hnone
  · obtain ⟨hmoved, hfil⟩ := h.toStored.moved (i := i) h.volume.keeps (p := 0)
      (c := (f.fil i).sclust) rfl
    refine .inr ⟨_, ⟨ofs, (f.fil i).sclust⟩, 0, ?_, hmoved, h.head_sclust hnone, by rw [hfil], ?_,
      hpos, ?_⟩
    · rw [Opened.seekStart, opened_fp]
      dsimp only
      rw [if_neg hnear, if_neg hnone, opened_put]
      rfl
    · rw [hfil, Nat.zero_mul]
      rfl
    · rw [hfil]
      exact Nat.zero_add _

/-- The file pointer moves from the start of the last cluster of the walk to where the walk ends. If
that is inside a sector, it is the sector that `seek` computes. -/
theorem Stored.seekEnd_spec (h : f.Stored) {p : Opened.Place} {target : Nat}
    (hlt : target < 2 ^ 32) (hreached : f.Reached i ((f.fil i).fptr.toNat + p.ofs.toNat) target)
    (hplace : (f.fil i).fptr.toNat = k * (512 * f.volume.layout.csize.toNat))
    (hcluster : p.ofs.toNat % 512 ≠ 0 → (f.chains i)[k]? = some p.clst ∧
      p.ofs.toNat ≤ 512 * f.volume.layout.csize.toNat) :
    ∃ f', (f.opened i).advance p.ofs = f'.opened i ∧ f.Follows f' i ∧
      f'.Reached i (f'.fil i).fptr.toNat target ∧
      ((f'.fil i).fptr.toNat % 512 ≠ 0 → p.ofs % 512 ≠ 0 ∧
        f'.volume.layout.clst2sect p.clst ≠ 0 ∧ f'.volume.layout.clst2sect p.clst + p.ofs / 512 =
          f'.volume.layout.sectorAt (f'.chains i) ((f'.fil i).fptr.toNat / 512)) ∧
      ((f'.fil i).fptr.toNat % 512 = 0 → p.ofs % 512 = 0) := by
  obtain ⟨hmoved, hfil⟩ := h.moved (i := i) h.volume.keeps (p := (f.fil i).fptr + p.ofs)
    (c := (f.fil i).clust) rfl
  have hfptr : ((f.fil i).fptr + p.ofs).toNat = (f.fil i).fptr.toNat + p.ofs.toNat := by
    have hle := hreached.le
    rw [BitVec.toNat_add, Nat.mod_eq_of_lt (by omega)]
  -- The walk stands at the start of a cluster, hence of a sector.
  have hmod : (f.fil i).fptr.toNat % 512 = 0 := by
    rw [hplace, Nat.mul_left_comm, Nat.mul_mod_right]
  refine ⟨_, by rw [opened_put]; rfl, hmoved, ?_, fun hinside => ?_, fun hboundary => ?_⟩
  · rw [hfil, hfptr]
    refine ⟨hreached.le, hreached.full, fun hmore => ?_⟩
    rw [hfil]
    exact hreached.cluster hmore
  · rw [hfil, hfptr] at hinside
    rw [hfil]
    dsimp only
    have hofs : p.ofs.toNat % 512 ≠ 0 := by omega
    obtain ⟨hclst, hbound⟩ := hcluster hofs
    have hq : (p.ofs / 512).toNat < f.volume.layout.csize.toNat := by
      rw [Opened.div512_toNat]
      omega
    refine ⟨mt Opened.mod512_eq_zero.mp hofs,
      h.laid.clst2sect_ne_zero (h.valid i _ (List.mem_of_getElem? hclst)), ?_⟩
    change f.volume.layout.clst2sect p.clst + p.ofs / 512 =
      f.volume.layout.sectorAt (f.chains i) (((f.fil i).fptr + p.ofs).toNat / 512)
    rw [Layout.sectorAt_cluster hclst hq, hfptr, hplace, Opened.div512_toNat]
    congr 1
    have hsplit : k * (512 * f.volume.layout.csize.toNat) =
        512 * (k * f.volume.layout.csize.toNat) := Nat.mul_left_comm ..
    omega
  · rw [hfil, hfptr] at hboundary
    exact Opened.mod512_eq_zero.mpr (by omega)

/-- The file pointer gets to the offset, unless the disk gets full on the way. -/
theorem Sound.seek_spec (h : f.Sound) (i : ι) (ofs : Dword)
    (hmode : (f.fil i).writable = true ∨ ofs.toNat ≤ (f.fil i).objsize.toNat) :
    ∃ f' nsect, (f.opened i).seek ofs = some (.ok nsect, f'.opened i) ∧ f.Follows f' i ∧
      f'.Reached i (f'.fil i).fptr.toNat ofs.toNat ∧
      ((f'.fil i).fptr.toNat % 512 ≠ 0 → nsect =
        f'.volume.layout.sectorAt (f'.chains i) ((f'.fil i).fptr.toNat / 512)) := by
  rw [Opened.seek]
  by_cases hzero : ofs = 0
  · subst hzero
    obtain ⟨hmoved, hfil⟩ := h.toStored.moved (i := i) h.volume.keeps (p := 0)
      (c := (f.fil i).clust) rfl
    refine ⟨_, 0, by rw [if_pos rfl, opened_put]; rfl, hmoved, ?_, fun hne => ?_⟩
    · rw [hfil]
      exact ⟨Nat.le_refl _, fun hless => absurd hless (Nat.lt_irrefl _),
        fun hpos => absurd hpos (Nat.lt_irrefl 0)⟩
    · rw [hfil] at hne
      exact absurd rfl hne
  have hpos : 0 < ofs.toNat := Nat.pos_of_ne_zero fun hz => hzero (BitVec.eq_of_toNat_eq hz)
  rw [if_neg hzero]
  rcases h.seekStart_spec i hpos with ⟨f₁, hstart, hfollows, hfptr, hfree⟩ |
    ⟨f₁, p, k, hstart, hfollows, hat⟩
  · refine ⟨f₁, 0, by rw [hstart]; rfl, hfollows, ?_, fun hne => ?_⟩
    · rw [hfptr]
      exact ⟨Nat.zero_le _, fun _ => ⟨rfl, hfree⟩, fun hless => absurd hless (Nat.lt_irrefl 0)⟩
    · rw [hfptr] at hne
      exact absurd rfl hne
  -- The start of the walk, the loop, and the last stretch inside of a cluster.
  obtain ⟨hne, -, -⟩ := hfollows.quiet.stored.cluster_ne
    (hfollows.quiet.stored.valid i _ (List.mem_of_getElem? hat.cluster))
  obtain ⟨f₂, p₂, m, hloop, hfollows₂, hreached, hplace, hcluster⟩ :=
    hfollows.quiet.stored.seekLoop_spec hat ofs.isLt
      (by rw [hfollows.writable, hfollows.objsize]; exact hmode) (Nat.lt_succ_self _)
  obtain ⟨f₃, hend, hfollows₃, hreached₃, hsector, hboundary⟩ :=
    hfollows₂.quiet.stored.seekEnd_spec ofs.isLt hreached hplace hcluster
  have hall := (hfollows.trans hfollows₂).trans hfollows₃
  rw [hstart]
  dsimp only
  rw [if_neg hne, hloop]
  dsimp only
  rw [hend]
  by_cases hinside : (f₃.fil i).fptr.toNat % 512 = 0
  · refine ⟨f₃, 0, ?_, hall, hreached₃, fun hne => absurd hinside hne⟩
    rw [if_pos (hboundary hinside)]
  · obtain ⟨hofs, hsect, heq⟩ := hsector hinside
    refine ⟨f₃, _, ?_, hall, hreached₃, fun _ => heq⟩
    rw [if_neg hofs, opened_volume, if_neg hsect]

/-! ## `f_lseek` -/

/-- The file ends behind the file pointer at least. -/
theorem Stored.extend_spec (h : f.Stored) (hroom : (f.fil i).fptr.toNat ≤ f.room i) :
    ∃ f' s m, (f.opened i).extend = f'.opened i ∧ f.Quiet f' i ∧ f'.chains = f.chains ∧
      f'.volume = f.volume ∧ f'.fil i = { f.fil i with objsize := s, modified := m } ∧
      s.toNat = max (f.fil i).objsize.toNat (f.fil i).fptr.toNat := by
  rw [Opened.extend, opened_fp]
  by_cases hlonger : (f.fil i).objsize < (f.fil i).fptr
  · have hsize : (f.fil i).fptr.toNat = max (f.fil i).objsize.toNat (f.fil i).fptr.toNat :=
      (max_eq_right (Nat.le_of_lt hlonger)).symm
    let fp : Fil := { f.fil i with objsize := (f.fil i).fptr, modified := true }
    have hfil : fp.Stored f.volume (f.chains i) := by
      obtain ⟨hstart, -, hcached, hclean, hdirty⟩ := h.fil i
      exact ⟨hstart, hroom, hcached, hclean, hdirty⟩
    obtain ⟨hstored, hothers⟩ := h.put (i := i) (o := ⟨f.volume, fp⟩) h.toSound rfl rfl h.away
      (fun _ _ _ _ => rfl) hfil
    have hself : (f.put i ⟨f.volume, fp⟩).fil i = fp := put_fil_self ..
    refine ⟨_, _, true, ?_, ⟨hstored, rfl, fun j hj => ⟨put_fil_of_ne f _ hj, rfl⟩,
      List.prefix_rfl, fun j n hn => ?_⟩, rfl, rfl, hself, hsize⟩
    · rw [if_pos hlonger, opened_put]
      rfl
    · by_cases hj : j = i
      · subst hj
        rw [byte, hself]
        rfl
      · exact hothers j hj n hn
  · refine ⟨f, (f.fil i).objsize, (f.fil i).modified, ?_, h.quiet i, rfl, rfl, rfl, ?_⟩
    · rw [if_neg hlonger]
    · exact (max_eq_left (Nat.not_lt.mp hlonger)).symm

/-- The file pointer of one file has moved; the file may have become longer. -/
structure Sought (f f' : Files ι) (i : ι) (target : Nat) : Prop where
  sound : f'.Sound
  layout : f'.volume.layout = f.volume.layout
  others : ∀ j, j ≠ i → f'.fil j = f.fil j ∧ f'.contents j = f.contents j
  kept : f.contents i <+: f'.contents i
  size : (f'.contents i).length = max (f.contents i).length (f'.fil i).fptr.toNat
  fptr_le : (f'.fil i).fptr.toNat ≤ target
  full : (f'.fil i).fptr.toNat < target → f'.volume.free = ∅
  readable : (f'.fil i).readable = (f.fil i).readable
  writable : (f'.fil i).writable = (f.fil i).writable

omit [DecidableEq ι] in
/-- The bytes of a file that becomes longer stay. -/
theorem Quiet.contents_prefix (h : f.Quiet f' i) (hstored : f.Stored)
    (hsize : (f.fil i).objsize.toNat ≤ (f'.fil i).objsize.toNat) :
    f.contents i <+: f'.contents i := by
  rw [List.prefix_iff_eq_take, length_contents]
  rw [Files.contents, Files.contents, Fil.contents, Fil.contents, ← List.map_take, List.take_range,
    Nat.min_eq_left hsize]
  apply List.map_congr_left
  intro n hn
  exact (h.bytes i n ((List.mem_range.mp hn).trans_le (hstored.fil i).capacity)).symm

omit [DecidableEq ι] in
theorem Quiet.contents_others (h : f.Quiet f' i) (hstored : f.Stored) (hj : j ≠ i) :
    f'.contents j = f.contents j := by
  rw [Files.contents, Files.contents, Fil.contents, Fil.contents, (h.others j hj).1]
  apply List.map_congr_left
  intro n hn
  have hbyte := h.bytes j n ((List.mem_range.mp hn).trans_le (hstored.fil j).capacity)
  rw [byte, byte, (h.others j hj).1] at hbyte
  exact hbyte

omit [DecidableEq ι] in
/-- What the ends of `f_lseek` have in common: the file `i` has the chain that the walk has left it,
and its file object differs in the size, the buffer and their flags only. -/
theorem Sound.sought_of_reached (h : f.Sound) {target : Nat} {s x : Dword} {m d : Bool}
    {b : Sector} (hfollows : f.Follows f' i)
    (hreached : f'.Reached i (f'.fil i).fptr.toNat target) (hquiet : f'.Quiet f'' i)
    (hchains : f''.chains = f'.chains)
    (hfil : f''.fil i =
      { f'.fil i with modified := m, dirty := d, objsize := s, sect := x, buf := b })
    (hsize : s.toNat = max (f'.fil i).objsize.toNat (f'.fil i).fptr.toNat)
    (hvolume : (f'.fil i).fptr.toNat % 512 = 0 → f''.volume = f'.volume)
    (hcurrent : (f'.fil i).fptr.toNat % 512 ≠ 0 → x =
      f'.volume.layout.sectorAt (f'.chains i) ((f'.fil i).fptr.toNat / 512)) :
    f.Sought f'' i target := by
  have hall := hfollows.quiet.trans hquiet
  have hsize' : (f''.fil i).objsize.toNat =
      max (f.fil i).objsize.toNat (f''.fil i).fptr.toNat := by
    rw [hfil, ← hfollows.objsize]
    exact hsize
  have hsound : f''.Sound := by
    refine hall.sound h ⟨?_, ?_, ?_, ?_⟩
    · rw [hfil, ← (h.placed i).err]
      exact hfollows.err
    · rw [hsize']
      exact le_max_right _ _
    · rw [hchains, hfil, ← hfollows.quiet.layout]
      exact hreached.cluster
    · rw [hchains, hfil, ← hfollows.quiet.layout]
      exact hcurrent
  refine ⟨hsound, hall.layout, fun j hj => ⟨(hall.others j hj).1,
    hall.contents_others h.toStored hj⟩, hall.contents_prefix h.toStored ?_, ?_, ?_, ?_, ?_, ?_⟩
  · rw [hsize']
    exact le_max_left _ _
  · rw [length_contents, length_contents, hsize']
  · rw [hfil]
    exact hreached.le
  · intro hless
    rw [hfil] at hless
    obtain ⟨hboundary, hfree⟩ := hreached.full hless
    rw [hvolume hboundary, hfree]
  · rw [hfil, ← hfollows.readable]
  · rw [hfil, ← hfollows.writable]

omit [DecidableEq ι] in
/-- The walk ends behind no byte that the chain has no room for. -/
theorem Reached.le_room {target : Nat} (h : f.Reached i (f.fil i).fptr.toNat target)
    (hstored : f.Stored) : (f.fil i).fptr.toNat ≤ f.room i := by
  by_cases hzero : (f.fil i).fptr.toNat = 0
  · omega
  · have hplace := lt_span_of_cluster hstored.laid.csize_pos (h.cluster (Nat.pos_of_ne_zero hzero))
    rw [room]
    omega

/-- The offset that `f_lseek` goes to, which the size of the file bounds in read-only mode. -/
theorem clipped_toNat (size ofs : Dword) (writable : Bool) :
    (if size < ofs ∧ writable = false then size else ofs).toNat =
      if writable then ofs.toNat else min ofs.toNat size.toNat := by
  cases writable with
  | true => rw [if_neg fun hand => Bool.false_ne_true hand.2.symm, if_pos rfl]
  | false =>
      rw [if_neg Bool.false_ne_true]
      split_ifs with hlonger
      · exact (min_eq_right (Nat.le_of_lt hlonger.1)).symm
      · exact (min_eq_left (Nat.not_lt.mp fun hlt => hlonger ⟨hlt, rfl⟩)).symm

/-- `f_lseek` moves the file pointer of one file to the offset: in read-only mode up to the end of
the file, else behind it too, and then the file gets longer. Only a full disk keeps the file pointer
from getting there. The bytes of all files stay. -/
theorem Sound.fLseek_spec (h : f.Sound) (i : ι) (ofs : Dword) :
    ∃ f', (f.opened i).fLseek ofs = some (.ok, f'.opened i) ∧
      f.Sought f' i (if (f.fil i).writable then ofs.toNat
        else min ofs.toNat (f.fil i).objsize.toNat) := by
  have hn := clipped_toNat (f.fil i).objsize ofs (f.fil i).writable
  generalize hclip : (if (f.fil i).objsize < ofs ∧ (f.fil i).writable = false then
    (f.fil i).objsize else ofs) = n at hn
  have hmode : (f.fil i).writable = true ∨ n.toNat ≤ (f.fil i).objsize.toNat := by
    rw [hn]
    cases (f.fil i).writable with
    | true => exact .inl rfl
    | false => exact .inr (min_le_right _ _)
  obtain ⟨f₁, nsect, hseek, hfollows, hreached, hsector⟩ := h.seek_spec i n hmode
  have hroom := hreached.le_room hfollows.quiet.stored
  -- Behind the old end the file is made longer, even if the disk got full.
  obtain ⟨f₂, s, m, hextend, hquiet₂, hchains₂, hvolume₂, hfil₂, hsize⟩ :=
    hfollows.quiet.stored.extend_spec hroom
  have hfptr₂ : (f₂.fil i).fptr = (f₁.fil i).fptr := by rw [hfil₂]
  rw [Opened.fLseek, opened_fp, if_neg (not_not_intro (h.placed i).err)]
  dsimp only
  rw [hclip, hseek, Option.map_some]
  dsimp only
  rw [hextend, opened_fp, ← hn]
  by_cases hboundary : (f₂.fil i).fptr % 512 = 0
  · refine ⟨f₂, ?_, h.sought_of_reached hfollows hreached hquiet₂ hchains₂ hfil₂ hsize
      (fun _ => hvolume₂) fun hinside => ?_⟩
    · rw [if_pos hboundary]
    · rw [hfptr₂] at hboundary
      exact absurd (Opened.mod512_eq_zero.mp hboundary) hinside
  · have hinside : (f₁.fil i).fptr.toNat % 512 ≠ 0 := by
      rw [← hfptr₂]
      exact mt Opened.mod512_eq_zero.mpr hboundary
    have hnsect : nsect =
        f₂.volume.layout.sectorAt (f₂.chains i) ((f₁.fil i).fptr.toNat / 512) := by
      rw [hvolume₂, hchains₂]
      exact hsector hinside
    have hspan : (f₁.fil i).fptr.toNat / 512 < f₂.volume.layout.span (f₂.chains i) := by
      rw [hvolume₂, hchains₂]
      rw [room] at hroom
      omega
    obtain ⟨d, b, f₃, hread, hquiet₃, hchains₃, hfil₃⟩ := hquiet₂.stored.readSector_spec hspan
    refine ⟨f₃, ?_, h.sought_of_reached hfollows hreached (hquiet₂.trans hquiet₃)
      (hchains₃.trans hchains₂) (by rw [hfil₃, hfil₂]) hsize (fun hzero => absurd hzero hinside)
      fun _ => by rw [hvolume₂, hchains₂]⟩
    rw [if_neg hboundary, hnsect, hread]

theorem fLseek_spec_emptyFiles :
    ∃ f', (emptyFiles.opened true).fLseek 600 = some (.ok, f'.opened true) ∧
      emptyFiles.Sought f' true (if (emptyFiles.fil true).writable then (600 : Dword).toNat
        else min (600 : Dword).toNat (emptyFiles.fil true).objsize.toNat) :=
  emptyFiles_sound.fLseek_spec true 600

end Files

end Senob.Fat
