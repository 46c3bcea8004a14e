import Mathlib.Data.Set.Card
import Mathlib.Order.Interval.Finset.Nat
import Senob.Fat.Entries

/-!
# Cluster chains

`create_chain` and `remove_chain`. The search for a free cluster starts behind the cluster that
was allocated last, wraps around at the end of the FAT and ends where it started; a chain is
removed link by link. Each loop gets as many rounds as there are FAT entries.
-/

namespace Senob.Fat

open Libk (FResult)

namespace Volume

/-- The search loop of `create_chain`, behind `ncl`: the free cluster that it finds, or what the
function returns. -/
def scan (scl : Dword) : Nat → Volume → Dword → Option (Except Dword Dword × Volume)
  | 0, _, _ => none
  | fuel + 1, v, ncl =>
      let wraps := v.fs.nFatent ≤ ncl + 1
      let ncl := if wraps then 2 else ncl + 1
      if wraps ∧ scl < ncl then some (.error 0, v) -- no free cluster found
      else
        let (cs, v) := v.getFat ncl
        if cs = 0 then some (.ok ncl, v)
        else if cs = 1 ∨ cs = 0xFFFFFFFF then some (.error cs, v)
        else if ncl = scl then some (.error 0, v)
        else scan scl fuel v ncl

/-- The cluster that the search starts at, or what `create_chain` returns before it: a cluster
that is followed by another one is not stretched. -/
def chainStart (v : Volume) (clst : Dword) : Except Dword Dword × Volume :=
  if clst = 0 then
    let scl := v.fs.lastClst
    (.ok (if scl = 0 ∨ v.fs.nFatent ≤ scl then 1 else scl), v)
  else
    let (cs, v) := v.getFat clst
    if cs < 2 then (.error 1, v)
    else if cs = 0xFFFFFFFF then (.error cs, v)
    else if cs < v.fs.nFatent then (.error cs, v)
    else (.ok clst, v)

/-- The new cluster: the next one for a chain that is stretched, if it is free. -/
def findFree (v : Volume) (clst scl : Dword) : Option (Except Dword Dword × Volume) :=
  if scl = clst then
    let ncl := if v.fs.nFatent ≤ scl + 1 then 2 else scl + 1
    let (cs, v) := v.getFat ncl
    if cs = 1 ∨ cs = 0xFFFFFFFF then some (.error cs, v)
    else if cs ≠ 0 then
      let last := v.fs.lastClst
      let scl := if 2 ≤ last ∧ last < v.fs.nFatent then last else scl
      scan scl v.fs.nFatent.toNat v scl
    else some (.ok ncl, v)
  else scan scl v.fs.nFatent.toNat v scl

def withAllocation (v : Volume) (a : Allocation) : Volume :=
  { v with fs := { v.fs with toAllocation := a } }

end Volume

namespace Allocation

/-- The FSInfo fields after a cluster was allocated. -/
def create (a : Allocation) (nFatent ncl : Dword) : Allocation where
  fsiFlag := a.fsiFlag ||| 1
  lastClst := ncl
  freeClst := if a.freeClst ≤ nFatent - 2 then a.freeClst - 1 else a.freeClst

/-- The FSInfo fields after a cluster was freed. -/
def remove (a : Allocation) (nFatent : Dword) : Allocation :=
  if a.freeClst < nFatent - 2 then
    { a with freeClst := a.freeClst + 1, fsiFlag := a.fsiFlag ||| 1 }
  else a

end Allocation

namespace Volume

/-- `create_chain`: a new cluster, linked from `clst` unless that is 0. The result is 0 if no
cluster is free, 1 after an internal error and 0xFFFFFFFF after a disk error. -/
def createChain (v : Volume) (clst : Dword) : Option (Dword × Volume) :=
  match v.chainStart clst with
  | (.error r, v) => some (r, v)
  | (.ok scl, v) =>
      if v.fs.freeClst = 0 then some (0, v)
      else
        match v.findFree clst scl with
        | none => none
        | some (.error r, v) => some (r, v)
        | some (.ok ncl, v) =>
            let (res, v) := v.putFat ncl 0xFFFFFFFF
            let (res, v) := if res = .ok ∧ clst ≠ 0 then v.putFat clst ncl else (res, v)
            if res = .ok then
              some (ncl, v.withAllocation (v.allocation.create v.fs.nFatent ncl))
            else some (if res = .diskErr then 0xFFFFFFFF else 1, v)

/-- The loop of `remove_chain`. -/
def removeLoop : Nat → Volume → Dword → Option (FResult × Volume)
  | 0, _, _ => none
  | fuel + 1, v, clst =>
      let (nxt, v) := v.getFat clst
      if nxt = 0 then some (.ok, v) -- empty cluster
      else if nxt = 1 then some (.intErr, v)
      else if nxt = 0xFFFFFFFF then some (.diskErr, v)
      else
        match v.putFat clst 0 with
        | (.ok, v) =>
            let v := v.withAllocation (v.allocation.remove v.fs.nFatent)
            if nxt < v.fs.nFatent then removeLoop fuel v nxt else some (.ok, v)
        | (res, v) => some (res, v)

/-- `remove_chain`: the chain is freed from `clst` on, and ends at `pclst` unless that is 0. -/
def removeChain (v : Volume) (clst pclst : Dword) : Option (FResult × Volume) :=
  if clst < 2 ∨ v.fs.nFatent ≤ clst then some (.intErr, v)
  else
    match if pclst ≠ 0 then v.putFat pclst 0xFFFFFFFF else (.ok, v) with
    | (.ok, v) => removeLoop v.fs.nFatent.toNat v clst
    | (res, v) => some (res, v)

end Volume

/-! ## Values of entries -/

namespace FsType

variable {f : FsType} {t : Table} {c : Nat}

/-- The value of an entry is never taken for a disk error. -/
theorem entry_ne_error (t : Table) (c : Nat) : f.entry t c ≠ 0xFFFFFFFF := by
  have hword : ∀ w : BitVec 16, w.setWidth 32 ≠ (0xFFFFFFFF : Dword) := by
    intro w hw
    have hlt := w.isLt
    have hnat := congrArg BitVec.toNat hw
    rw [BitVec.toNat_setWidth_of_le (by decide)] at hnat
    rw [hnat] at hlt
    exact absurd hlt (by decide)
  cases f with
  | none => exact (by decide : (1 : Dword) ≠ 0xFFFFFFFF)
  | fat12 => exact hword _
  | fat16 => exact hword _
  | fat32 =>
      intro h
      have hle := Nat.and_le_right (n := (t.dword (c * 4)).toNat) (m := 0x0FFFFFFF)
      have hnat := congrArg BitVec.toNat h
      rw [entry, BitVec.toNat_and] at hnat
      have hlast : (0xFFFFFFFF : Dword).toNat = 2 ^ 32 - 1 := rfl
      have hmask : (0x0FFFFFFF : Dword).toNat = 0x0FFFFFFF := rfl
      rw [hmask, hlast] at hnat
      omega

/-- The number of a cluster fits in an entry. -/
theorem and_mask {c : Dword} (h : c.toNat < f.maxEntries) : c &&& f.mask = c := by
  have hpow : ∀ k, c.toNat < 2 ^ k → ∀ m : Dword, m.toNat = 2 ^ k - 1 → c &&& m = c := by
    intro k hlt m hm
    apply BitVec.eq_of_toNat_eq
    rw [BitVec.toNat_and, hm, Nat.and_two_pow_sub_one_eq_mod, Nat.mod_eq_of_lt hlt]
  cases f with
  | none => exact absurd h (Nat.not_lt_zero _)
  | fat12 => exact hpow 12 (lt_trans h (by decide)) _ rfl
  | fat16 => exact hpow 16 (lt_trans h (by decide)) _ rfl
  | fat32 => exact hpow 28 (lt_trans h (by decide)) _ rfl

/-- The end mark is not the number of a cluster. -/
theorem maxEntries_le_mask (f : FsType) : f.maxEntries ≤ f.mask.toNat := by
  cases f <;> decide

end FsType

/-- The number of a valid cluster is stored as it is. -/
theorem Layout.Valid.and_mask {l : Layout} {c : Dword} (h : l.Valid c) (hcovers : l.Covers) :
    c &&& l.fsType.mask = c :=
  FsType.and_mask (lt_of_lt_of_le h.2 hcovers.limit)

namespace Volume

variable {v v' v₀ : Volume} {c clst scl ncl : Dword}

theorem entry_ne_error (v : Volume) (c : Dword) : v.entry c ≠ 0xFFFFFFFF :=
  FsType.entry_ne_error _ _

/-- The free clusters. -/
def free (v : Volume) : Set Dword := { c | v.layout.Valid c ∧ v.entry c = 0 }

/-- No entry has the value 1, which no chain contains. -/
def Regular (v : Volume) : Prop := ∀ c, v.layout.Valid c → v.entry c ≠ 1

theorem Keeps.free (h : v.Keeps v') : v'.free = v.free := by
  rw [Volume.free, Volume.free, h.layout, h.entry]

/-! ## The search for a free cluster -/

/-- A free cluster, or none if there is none. -/
def Finds (v : Volume) : Except Dword Dword → Prop
  | .ok ncl => ncl ∈ v.free
  | .error r => r = 0 ∧ v.free = ∅

/-- The cluster that the search looks at in round `k`, of `n` entries from `scl` on. -/
def cycle (n scl k : Nat) : Nat := if scl + k < n then scl + k else scl + k - n + 2

/-- Every cluster is looked at in one of the rounds. -/
theorem exists_cycle {n s c : Nat} (hs : 1 ≤ s) (hsn : s < n) (hc : 2 ≤ c) (hcn : c < n) :
    ∃ k, 1 ≤ k ∧ k ≤ n - 2 ∧ c = cycle n s k := by
  by_cases hlt : s < c
  · refine ⟨c - s, by omega, by omega, ?_⟩
    rw [cycle, if_pos (by omega)]
    omega
  · refine ⟨n - s + (c - 2), by omega, by omega, ?_⟩
    rw [cycle, if_neg (by omega)]
    omega

/-- From one round to the next. -/
theorem cycle_succ {n s k : Nat} (hs : 1 ≤ s) (hsn : s < n) (hk : k < n - 2) :
    cycle n s (k + 1) = (if n ≤ cycle n s k + 1 then 2 else cycle n s k + 1) ∧
      ¬ (n ≤ cycle n s k + 1 ∧ s < 2) ∧ (cycle n s (k + 1) = s ↔ k + 1 = n - 2 ∧ s ≠ 1) := by
  unfold cycle
  split_ifs <;> omega

theorem cycle_bounds {n s k : Nat} (hs : 1 ≤ s) (hsn : s < n) (hk : k ≤ n - 2) :
    cycle n s k < n ∧ (1 ≤ k → 2 ≤ cycle n s k) := by
  unfold cycle
  split_ifs <;> omega

/-- After a round for every cluster, none is left. -/
theorem free_eq_empty (hscl : 1 ≤ scl.toNat) (hlt : scl < v.layout.nFatent)
    (hsearched : ∀ c, v.layout.Valid c →
      (∃ j, 1 ≤ j ∧ j ≤ v.layout.nFatent.toNat - 2 ∧
        c.toNat = cycle v.layout.nFatent.toNat scl.toNat j) → v.entry c ≠ 0) : v.free = ∅ := by
  apply Set.eq_empty_of_forall_notMem
  rintro c ⟨hvalid, hfree⟩
  exact hsearched c hvalid (exists_cycle hscl hlt hvalid.1 hvalid.2) hfree

/-- The number that comes after `ncl`, and whether it is behind the last cluster. -/
theorem scan_incr {k : Nat} (hcovers : v.layout.Covers) (hscl : 1 ≤ scl.toNat)
    (hlt : scl < v.layout.nFatent) (hk : k ≤ v.layout.nFatent.toNat - 2)
    (hncl : ncl.toNat = cycle v.layout.nFatent.toNat scl.toNat k) :
    (ncl + 1).toNat = ncl.toNat + 1 ∧ (v.layout.nFatent ≤ ncl + 1 ↔
      v.layout.nFatent.toNat ≤ cycle v.layout.nFatent.toNat scl.toNat k + 1) := by
  have hlimit : v.layout.nFatent.toNat ≤ 0x0FFFFFF7 := by
    refine hcovers.limit.trans ?_
    cases v.layout.fsType <;> decide
  have hsn : scl.toNat < v.layout.nFatent.toNat := hlt
  have hincr : (ncl + 1).toNat = ncl.toNat + 1 := by
    obtain ⟨hbound, -⟩ := cycle_bounds hscl hsn (k := k) (by omega)
    have hone : (1 : Dword).toNat = 1 := rfl
    rw [BitVec.toNat_add, hone]
    omega
  refine ⟨hincr, ?_⟩
  rw [BitVec.le_def, hincr, hncl]

/-- The next cluster of the search: the one with the next number, or cluster 2 behind the last. -/
theorem scan_next {k : Nat} (hcovers : v.layout.Covers) (hscl : 1 ≤ scl.toNat)
    (hlt : scl < v.layout.nFatent) (hk : k < v.layout.nFatent.toNat - 2)
    (hncl : ncl.toNat = cycle v.layout.nFatent.toNat scl.toNat k) :
    ∃ next, (if v.layout.nFatent ≤ ncl + 1 then 2 else ncl + 1) = next ∧
      next.toNat = cycle v.layout.nFatent.toNat scl.toNat (k + 1) ∧ v.layout.Valid next ∧
      ¬ (v.layout.nFatent ≤ ncl + 1 ∧ scl < next) := by
  have hsn : scl.toNat < v.layout.nFatent.toNat := hlt
  obtain ⟨hincr, hwraps⟩ := scan_incr hcovers hscl hlt (Nat.le_of_lt hk) hncl
  obtain ⟨hnext, hmore, -⟩ := cycle_succ hscl hsn hk
  obtain ⟨hbelow, htwo⟩ := cycle_bounds hscl hsn (k := k + 1) (by omega)
  have hnat : (if v.layout.nFatent ≤ ncl + 1 then 2 else ncl + 1 : Dword).toNat =
      cycle v.layout.nFatent.toNat scl.toNat (k + 1) := by
    rw [hnext]
    by_cases hwrap : v.layout.nFatent ≤ ncl + 1
    · rw [if_pos hwrap, if_pos (hwraps.mp hwrap)]
      rfl
    · rw [if_neg hwrap, if_neg (mt hwraps.mpr hwrap), hincr, hncl]
  refine ⟨_, rfl, hnat, ⟨?_, ?_⟩, ?_⟩
  · rw [BitVec.le_def, hnat]
    exact htwo (Nat.le_add_left 1 k)
  · rw [BitVec.lt_def, hnat]
    exact hbelow
  · rintro ⟨hwrap, hless⟩
    rw [if_pos hwrap] at hless
    exact hmore ⟨hwraps.mp hwrap, hless⟩

/-- One more cluster has been looked at. -/
theorem searched_succ {next : Dword} {n k : Nat} (hfree : v.entry next ≠ 0)
    (hnext : next.toNat = cycle n scl.toNat (k + 1))
    (hsearched : ∀ c, v.layout.Valid c →
      (∃ j, 1 ≤ j ∧ j ≤ k ∧ c.toNat = cycle n scl.toNat j) → v.entry c ≠ 0)
    (c : Dword) (hc : v.layout.Valid c)
    (hplace : ∃ j, 1 ≤ j ∧ j ≤ k + 1 ∧ c.toNat = cycle n scl.toNat j) : v.entry c ≠ 0 := by
  obtain ⟨j, hj, hjk, hcj⟩ := hplace
  by_cases heq : j = k + 1
  · rw [heq, ← hnext] at hcj
    rwa [BitVec.eq_of_toNat_eq hcj]
  · exact hsearched c hc ⟨j, hj, by omega, hcj⟩

/-- The search finds a free cluster, or there is none. The induction is on the rounds: `k` clusters
behind `scl` have been looked at. -/
theorem scan_spec (hcovers : v₀.layout.Covers) (hregular : v₀.Regular)
    (hscl : 1 ≤ scl.toNat) (hlt : scl < v₀.layout.nFatent) (fuel k : Nat)
    (hfuel : v₀.layout.nFatent.toNat - 2 - k < fuel) (hkeeps : v₀.Keeps v)
    (hncl : ncl.toNat = cycle v₀.layout.nFatent.toNat scl.toNat k)
    (hk : k < v₀.layout.nFatent.toNat - 2 ∨ k = v₀.layout.nFatent.toNat - 2 ∧ scl.toNat = 1)
    (hsearched : ∀ c, v₀.layout.Valid c →
      (∃ j, 1 ≤ j ∧ j ≤ k ∧ c.toNat = cycle v₀.layout.nFatent.toNat scl.toNat j) →
      v₀.entry c ≠ 0) :
    ∃ r v', scan scl fuel v ncl = some (r, v') ∧ v₀.Keeps v' ∧ v₀.Finds r := by
  induction fuel generalizing v ncl k with
  | zero => exact absurd hfuel (Nat.not_lt_zero _)
  | succ fuel ih =>
      have hlayout : v.fs.nFatent = v₀.layout.nFatent := congrArg Layout.nFatent hkeeps.layout
      rw [scan, hlayout]
      rcases hk with hk | ⟨rfl, hone⟩
      · obtain ⟨next, hnew, hnat, hvalid, hstay⟩ := scan_next hcovers hscl hlt hk hncl
        obtain ⟨-, -, hlast⟩ := cycle_succ hscl hlt hk
        obtain ⟨v', hget, hkeeps'⟩ := hkeeps.sound.getFat_spec (hkeeps.layout ▸ hcovers)
          (hkeeps.layout ▸ hvalid)
        rw [hkeeps.entry] at hget
        simp only [hnew, if_neg hstay, hget]
        by_cases hfree : v₀.entry next = 0
        · exact ⟨.ok next, v', by rw [if_pos hfree], hkeeps.trans hkeeps', hvalid, hfree⟩
        · rw [if_neg hfree, if_neg (not_or_intro (hregular next hvalid) (v₀.entry_ne_error next))]
          have hsearched' := searched_succ hfree hnat hsearched
          by_cases hround : next = scl
          · rw [if_pos hround]
            have hdone : k + 1 = v₀.layout.nFatent.toNat - 2 :=
              (hlast.mp (hnat ▸ congrArg BitVec.toNat hround)).1
            exact ⟨_, v', rfl, hkeeps.trans hkeeps', rfl,
              free_eq_empty hscl hlt (hdone ▸ hsearched')⟩
          · rw [if_neg hround]
            refine ih (k + 1) (by omega) (hkeeps.trans hkeeps') hnat ?_ hsearched'
            have hends : ¬ (k + 1 = v₀.layout.nFatent.toNat - 2 ∧ scl.toNat ≠ 1) := by
              rw [← hlast, ← hnat]
              exact fun heq => hround (BitVec.eq_of_toNat_eq heq)
            omega
      · -- The search started at the first entry, and every other one has been looked at.
        obtain ⟨-, hwraps⟩ := scan_incr hcovers hscl hlt (Nat.le_refl _) hncl
        have hend : v₀.layout.nFatent.toNat ≤
            cycle v₀.layout.nFatent.toNat scl.toNat (v₀.layout.nFatent.toNat - 2) + 1 := by
          unfold cycle
          split_ifs <;> omega
        have hwrap := hwraps.mpr hend
        have hless : scl < 2 := by
          rw [BitVec.lt_def, hone]
          decide
        simp only [if_pos hwrap, if_pos (And.intro hwrap hless)]
        exact ⟨_, v, rfl, hkeeps, rfl, free_eq_empty hscl hlt hsearched⟩

/-- A whole search. -/
theorem Keeps.scan (hkeeps : v₀.Keeps v) (hcovers : v₀.layout.Covers) (hregular : v₀.Regular)
    (hscl : 1 ≤ scl.toNat) (hlt : scl < v₀.layout.nFatent) :
    ∃ r v', Volume.scan scl v.fs.nFatent.toNat v scl = some (r, v') ∧ v₀.Keeps v' ∧
      v₀.Finds r := by
  have hclusters := hcovers.clusters
  have hsn : scl.toNat < v₀.layout.nFatent.toNat := hlt
  have hlayout : v.fs.nFatent = v₀.layout.nFatent := congrArg Layout.nFatent hkeeps.layout
  rw [hlayout]
  refine scan_spec hcovers hregular hscl hlt _ 0 (by omega) hkeeps ?_ (.inl (by omega)) ?_
  · rw [cycle, Nat.add_zero, if_pos hsn]
  · rintro c - ⟨j, hj, hj', -⟩
    omega

theorem Sound.findFree_spec (h : v.Sound) (hcovers : v.layout.Covers) (hregular : v.Regular)
    (hscl : 1 ≤ scl.toNat ∧ scl < v.layout.nFatent ∧ (scl = clst → v.layout.Valid clst)) :
    ∃ r v', v.findFree clst scl = some (r, v') ∧ v.Keeps v' ∧ v.Finds r := by
  obtain ⟨hone, hlt, hvalid⟩ := hscl
  rw [findFree]
  -- To stretch a chain, the cluster behind its end is tried first.
  by_cases hstretch : scl = clst
  · subst hstretch
    have hclusters := hcovers.clusters
    have hsn : scl.toNat < v.layout.nFatent.toNat := hlt
    rw [if_pos rfl]
    generalize hncl : (if v.fs.nFatent ≤ scl + 1 then 2 else scl + 1 : Dword) = ncl
    have hnext : v.layout.Valid ncl := by
      subst hncl
      have htwo : (2 : Dword).toNat = 2 := rfl
      have hlow := (hvalid rfl).1
      split_ifs with hwraps
      · refine ⟨BitVec.le_refl _, ?_⟩
        rw [BitVec.lt_def, htwo]
        omega
      · refine ⟨?_, BitVec.not_le.mp hwraps⟩
        rw [BitVec.le_def, htwo] at hlow ⊢
        have hone : (1 : Dword).toNat = 1 := rfl
        rw [BitVec.le_def, BitVec.toNat_add, hone] at hwraps
        rw [BitVec.toNat_add, hone]
        have hbound := scl.isLt
        have hlimit : v.layout.nFatent.toNat ≤ 2 ^ 32 - 1 := Nat.le_pred_of_lt (BitVec.isLt _)
        omega
    obtain ⟨v', hget, hkeeps⟩ := h.getFat_spec hcovers hnext
    simp only [hget]
    rw [if_neg (not_or_intro (hregular ncl hnext) (v.entry_ne_error ncl))]
    by_cases hfree : v.entry ncl = 0
    · rw [if_neg (not_not_intro hfree)]
      exact ⟨.ok ncl, v', rfl, hkeeps, hnext, hfree⟩
    · rw [if_pos hfree]
      have hlayout : v'.fs.nFatent = v.layout.nFatent := congrArg Layout.nFatent hkeeps.layout
      split_ifs with hlast
      · exact hkeeps.scan hcovers hregular (Nat.le_of_succ_le hlast.1) (hlayout ▸ hlast.2)
      · exact hkeeps.scan hcovers hregular hone hlt
  · rw [if_neg hstretch]
    exact h.keeps.scan hcovers hregular hone hlt

/-- The cluster that is looked for behind, for a new chain and for one that is stretched. -/
theorem Sound.chainStart_spec (h : v.Sound) (hcovers : v.layout.Covers)
    (hclst : clst = 0 ∨ v.layout.Valid clst ∧ v.layout.nFatent ≤ v.entry clst) :
    ∃ scl v', v.chainStart clst = (.ok scl, v') ∧ v.Keeps v' ∧
      1 ≤ scl.toNat ∧ scl < v.layout.nFatent ∧ (scl = clst → v.layout.Valid clst) := by
  have hclusters := hcovers.clusters
  rcases hclst with rfl | ⟨hvalid, hend⟩
  · refine ⟨_, v, by rw [chainStart, if_pos rfl], h.keeps, ?_⟩
    split_ifs with hnone
    · refine ⟨le_rfl, ?_, fun hzero => absurd hzero (by decide)⟩
      rw [BitVec.lt_def]
      have hone : (1 : Dword).toNat = 1 := rfl
      omega
    · obtain ⟨hzero, hlt⟩ := not_or.mp hnone
      refine ⟨?_, BitVec.not_le.mp hlt, fun hz => absurd hz hzero⟩
      exact Nat.one_le_iff_ne_zero.mpr fun hz => hzero (BitVec.eq_of_toNat_eq hz)
  · obtain ⟨v', hget, hkeeps⟩ := h.getFat_spec hcovers hvalid
    have hlow : 2 ≤ clst.toNat := hvalid.1
    have hne : clst ≠ 0 := by
      rintro rfl
      exact absurd hlow (by decide)
    have hnot : ¬ v.entry clst < 2 := by
      rw [BitVec.le_def] at hend
      rw [BitVec.lt_def]
      have htwo : (2 : Dword).toNat = 2 := rfl
      omega
    have hlayout : v'.fs.nFatent = v.layout.nFatent := congrArg Layout.nFatent hkeeps.layout
    refine ⟨clst, v', ?_, hkeeps, by omega, hvalid.2, fun _ => hvalid⟩
    rw [chainStart, if_neg hne, hget]
    simp only [if_neg hnot, if_neg (v.entry_ne_error clst), hlayout,
      if_neg (BitVec.not_lt.mpr hend)]

/-! ## What the two functions leave -/

theorem Sound.withAllocation (h : v.Sound) (a : Allocation) : (v.withAllocation a).Sound :=
  ⟨h.fits, h.reachable, h.clean, h.dirty, h.mirrored⟩

theorem Edits.withAllocation (h : v.Edits v') (a : Allocation) :
    v.Changes (v'.withAllocation a) :=
  ⟨h.sound.withAllocation a, h.layout, h.bounds, h.stays, h.data⟩

/-- A new cluster ends the chain, and was free before. -/
structure Creates (v v' : Volume) (clst ncl : Dword) : Prop extends v.Changes v' where
  free : ncl ∈ v.free
  entry : v'.entry = if clst = 0 then Function.update v.entry ncl v.fs.fsType.mask
    else Function.update (Function.update v.entry ncl v.fs.fsType.mask) clst ncl
  allocation : v'.allocation = v.allocation.create v.layout.nFatent ncl
  table : v.layout.InFat v'.fs.winsect

theorem allOnes_and_mask (f : FsType) : (0xFFFFFFFF : Dword) &&& f.mask = f.mask := by
  cases f <;> decide

/-- `create_chain` for a new chain, or for the last cluster of one: it allocates a free cluster,
or returns 0 and leaves the volume as it is because there is none. -/
theorem Sound.createChain_spec (h : v.Sound) (hcovers : v.layout.Covers) (hregular : v.Regular)
    (hclst : clst = 0 ∨ v.layout.Valid clst ∧ v.layout.nFatent ≤ v.entry clst) :
    ∃ r v', v.createChain clst = some (r, v') ∧
      (r = 0 ∧ v.Keeps v' ∧ (v.fs.freeClst = 0 ∨ v.free = ∅) ∨
        v.fs.freeClst ≠ 0 ∧ v.Creates v' clst r) := by
  obtain ⟨scl, v₁, hstart, hkeeps₁, hscl⟩ := h.chainStart_spec hcovers hclst
  have hfreeClst : v₁.fs.freeClst = v.fs.freeClst :=
    congrArg Allocation.freeClst hkeeps₁.allocation
  rw [createChain, hstart]
  simp only [hfreeClst]
  -- A free count of 0 is believed without a look at the FAT.
  by_cases hfull : v.fs.freeClst = 0
  · exact ⟨0, v₁, by rw [if_pos hfull], .inl ⟨rfl, hkeeps₁, .inl hfull⟩⟩
  rw [if_neg hfull]
  have hregular₁ : v₁.Regular := by
    intro c hc
    rw [hkeeps₁.entry]
    exact hregular c (hkeeps₁.layout ▸ hc)
  have hcovers₁ : v₁.layout.Covers := hkeeps₁.layout ▸ hcovers
  obtain ⟨r, v₂, hfind, hkeeps₂, hfinds⟩ :=
    hkeeps₁.sound.findFree_spec hcovers₁ hregular₁
      (show 1 ≤ scl.toNat ∧ scl < v₁.layout.nFatent ∧ (scl = clst → v₁.layout.Valid clst) by
        rw [hkeeps₁.layout]
        exact hscl)
  have hkeeps := hkeeps₁.trans hkeeps₂
  rw [hfind]
  cases r with
  | error r =>
      obtain ⟨rfl, hnone⟩ := hfinds
      exact ⟨0, v₂, rfl, .inl ⟨rfl, hkeeps, .inr (hkeeps₁.free ▸ hnone)⟩⟩
  | ok ncl =>
      have hfree : ncl ∈ v.free := by
        rw [← hkeeps₁.free]
        exact hfinds
      obtain ⟨v₃, hput, hedits₃, hentry₃, hin₃⟩ := hkeeps₂.sound.putFat_spec
        (hkeeps.layout ▸ hcovers) (hkeeps.layout ▸ hfree.1) 0xFFFFFFFF
      have htype : v₂.fs.fsType = v.fs.fsType := congrArg Layout.fsType hkeeps.layout
      rw [allOnes_and_mask, htype, hkeeps.entry] at hentry₃
      have hedits := hkeeps.edits.trans hedits₃
      have hcount₃ : v₃.fs.nFatent = v.layout.nFatent := congrArg Layout.nFatent hedits.layout
      simp only [hput, true_and]
      -- A first cluster has no link to it; the others are linked from the end of the chain.
      rcases hclst with rfl | ⟨hvalid, hend⟩
      · refine ⟨ncl, _, rfl, .inr ⟨hfull, hedits.withAllocation _, hfree, ?_, ?_,
          hkeeps.layout ▸ hin₃⟩⟩
        · rw [if_pos rfl]
          exact hentry₃
        · simp only [ne_eq, not_true_eq_false, if_false, Volume.allocation, Volume.withAllocation]
          rw [hcount₃]
          exact congrArg (fun a => a.create v.layout.nFatent ncl) hedits.allocation
      · have hne : clst ≠ 0 := by
          rintro rfl
          exact absurd hvalid.1 (by decide)
        obtain ⟨v₄, hput₄, hedits₄, hentry₄, hin₄⟩ := hedits₃.sound.putFat_spec
          (hedits.layout ▸ hcovers) (hedits.layout ▸ hvalid) ncl
        have htype₃ : v₃.fs.fsType = v.layout.fsType := congrArg Layout.fsType hedits.layout
        rw [htype₃, hfree.1.and_mask hcovers, hentry₃] at hentry₄
        have hall := hedits.trans hedits₄
        have hcount₄ : v₄.fs.nFatent = v.layout.nFatent := congrArg Layout.nFatent hall.layout
        simp only [ne_eq, hne, not_false_eq_true, if_true, hput₄]
        refine ⟨ncl, _, rfl, .inr ⟨hfull, hall.withAllocation _, hfree, ?_, ?_,
          hedits.layout ▸ hin₄⟩⟩
        · rw [if_neg hne]
          exact hentry₄
        · rw [hcount₄]
          exact congrArg (fun a => a.create v.layout.nFatent ncl) hall.allocation

/-! ## Counting the free clusters -/

instance : Finite Dword := Finite.of_injective BitVec.toFin fun _ _ => BitVec.eq_of_toFin_eq

/-- `free_clst` is the number of free clusters, or says that it is not known. -/
def Counted (v : Volume) : Prop :=
  v.fs.freeClst.toNat = v.free.ncard ∨ v.fs.freeClst = 0xFFFFFFFF

/-- `free_clst` stays right: known if it was known, and unknown if it was not. -/
structure KeepsCount (v v' : Volume) : Prop where
  known : v.fs.freeClst.toNat = v.free.ncard → v'.fs.freeClst.toNat = v'.free.ncard
  unknown : v.fs.freeClst = 0xFFFFFFFF → v'.fs.freeClst = 0xFFFFFFFF

theorem KeepsCount.of_eq (hfreeClst : v'.fs.freeClst = v.fs.freeClst) (hfree : v'.free = v.free) :
    v.KeepsCount v' := by
  constructor
  · rw [hfreeClst, hfree]
    exact id
  · rw [hfreeClst]
    exact id

theorem KeepsCount.trans {v'' : Volume} (h : v.KeepsCount v') (h' : v'.KeepsCount v'') :
    v.KeepsCount v'' := ⟨h'.known ∘ h.known, h'.unknown ∘ h.unknown⟩

theorem KeepsCount.counted (h : v.KeepsCount v') (hcounted : v.Counted) : v'.Counted :=
  hcounted.imp h.known h.unknown

theorem Keeps.keepsCount (h : v.Keeps v') : v.KeepsCount v' :=
  .of_eq (congrArg Allocation.freeClst h.allocation) h.free

/-- The clusters of the volume. -/
def clusters (l : Layout) : Set Dword := { c | l.Valid c }

theorem ncard_clusters (l : Layout) : (clusters l).ncard = l.nFatent.toNat - 2 := by
  have himage : BitVec.toNat '' clusters l = Set.Ico 2 l.nFatent.toNat := by
    ext n
    constructor
    · rintro ⟨c, hc, rfl⟩
      exact hc
    · intro hn
      have hlt := l.nFatent.isLt
      have hnat : (BitVec.ofNat 32 n).toNat = n := by
        rw [BitVec.toNat_ofNat, Nat.mod_eq_of_lt (lt_trans hn.2 hlt)]
      refine ⟨BitVec.ofNat 32 n, ⟨?_, ?_⟩, hnat⟩
      · rw [BitVec.le_def, hnat]
        exact hn.1
      · rw [BitVec.lt_def, hnat]
        exact hn.2
  rw [← Set.ncard_image_of_injective _ fun _ _ => BitVec.eq_of_toNat_eq, himage,
    ← Finset.coe_Ico, Set.ncard_coe_finset, Nat.card_Ico]

theorem free_subset (v : Volume) : v.free ⊆ clusters v.layout := fun _ hc => hc.1

theorem ncard_free_le (v : Volume) : v.free.ncard ≤ v.layout.nFatent.toNat - 2 :=
  (Set.ncard_le_ncard v.free_subset).trans_eq (ncard_clusters v.layout)

/-- The entry of a cluster in a chain is not 0. -/
theorem ne_zero_of_end (hcovers : v.layout.Covers) (hend : v.layout.nFatent ≤ v.entry c) :
    v.entry c ≠ 0 := by
  intro hzero
  have hclusters := hcovers.clusters
  have hnat : v.layout.nFatent.toNat ≤ (v.entry c).toNat := hend
  rw [hzero] at hnat
  exact absurd (hclusters.trans hnat) (by decide)

theorem mask_ne_zero (hcovers : v.layout.Covers) : v.fs.fsType.mask ≠ 0 := by
  have hmounted := hcovers.mounted
  cases htype : v.fs.fsType with
  | none => exact absurd htype hmounted
  | fat12 => decide
  | fat16 => decide
  | fat32 => decide

/-- The entries of the new cluster, of the one before it and of all others. -/
theorem Creates.entries (h : v.Creates v' clst ncl) (hcovers : v.layout.Covers)
    (hclst : clst = 0 ∨ v.layout.nFatent ≤ v.entry clst) :
    v'.entry ncl = v.fs.fsType.mask ∧ (clst ≠ 0 → v'.entry clst = ncl) ∧
      ∀ c, c ≠ ncl → (clst ≠ 0 → c ≠ clst) → v'.entry c = v.entry c := by
  have hentry := h.entry
  by_cases hzero : clst = 0
  · rw [if_pos hzero] at hentry
    rw [hentry]
    refine ⟨Function.update_self .., fun hne => absurd hzero hne, fun c hc _ => ?_⟩
    exact Function.update_of_ne hc _ _
  · rw [if_neg hzero] at hentry
    have hne : ncl ≠ clst := by
      rintro rfl
      exact ne_zero_of_end hcovers (hclst.resolve_left hzero) h.free.2
    rw [hentry]
    refine ⟨?_, fun _ => Function.update_self .., fun c hc hlast => ?_⟩
    · rw [Function.update_of_ne hne, Function.update_self]
    · rw [Function.update_of_ne (hlast hzero), Function.update_of_ne hc]

/-- The only cluster that is no longer free is the new one. -/
theorem Creates.free_eq (h : v.Creates v' clst ncl) (hcovers : v.layout.Covers)
    (hclst : clst = 0 ∨ v.layout.nFatent ≤ v.entry clst) : v'.free = v.free \ {ncl} := by
  obtain ⟨hself, hprevious, hother⟩ := h.entries hcovers hclst
  ext c
  rw [Volume.free, Volume.free, h.layout]
  simp only [Set.mem_ofPred_eq, Set.mem_sdiff, Set.mem_singleton_iff, and_assoc]
  refine and_congr_right fun _ => ?_
  by_cases hc : c = ncl
  · rw [hc, hself]
    exact iff_of_false (mask_ne_zero hcovers) fun hand => hand.2 rfl
  · rw [and_iff_left hc]
    by_cases hlast : clst ≠ 0 ∧ c = clst
    · obtain ⟨hzero, rfl⟩ := hlast
      rw [hprevious hzero]
      refine iff_of_false (fun hncl => ?_) (ne_zero_of_end hcovers (hclst.resolve_left hzero))
      exact absurd h.free.1.1 (hncl ▸ by decide)
    · rw [hother c hc fun hzero heq => hlast ⟨hzero, heq⟩]

/-- The count stays right when a cluster is allocated. -/
theorem Creates.keepsCount (h : v.Creates v' clst ncl) (hcovers : v.layout.Covers)
    (hclst : clst = 0 ∨ v.layout.nFatent ≤ v.entry clst) : v.KeepsCount v' := by
  have hcreate : v'.fs.freeClst = (v.allocation.create v.layout.nFatent ncl).freeClst :=
    congrArg Allocation.freeClst h.allocation
  have hclusters := hcovers.clusters
  have hpos := (Set.ncard_pos (Set.toFinite _)).mpr ⟨ncl, h.free⟩
  have hle := v.ncard_free_le
  have htwo : (v.layout.nFatent - 2).toNat = v.layout.nFatent.toNat - 2 := by bv_omega
  constructor
  case known =>
    intro hcount
    have hin : v.fs.freeClst ≤ v.layout.nFatent - 2 := by
      rw [BitVec.le_def, htwo, hcount]
      exact hle
    rw [hcreate, Allocation.create, h.free_eq hcovers hclst,
      Set.ncard_sdiff_singleton_of_mem h.free, if_pos hin]
    have hone : (1 : Dword).toNat = 1 := rfl
    have hcount : v.allocation.freeClst.toNat = v.free.ncard := hcount
    have hlt := v.allocation.freeClst.isLt
    rw [BitVec.toNat_sub, hone]
    omega
  case unknown =>
    intro hunknown
    rw [hcreate, Allocation.create, if_neg, hunknown]
    rw [hunknown, BitVec.le_def, htwo]
    have hlast : (0xFFFFFFFF : Dword).toNat = 2 ^ 32 - 1 := rfl
    have hlt := v.layout.nFatent.isLt
    omega

/-- The count stays right when a cluster is freed. -/
theorem Edits.keepsCount_remove (h : v.Edits v') (hcovers : v.layout.Covers)
    (hvalid : v.layout.Valid c) (hused : v.entry c ≠ 0)
    (hentry : v'.entry = Function.update v.entry c 0) :
    v.KeepsCount (v'.withAllocation (v'.allocation.remove v'.fs.nFatent)) := by
  have hfree : v'.free = insert c v.free := by
    ext d
    rw [Volume.free, Volume.free, h.layout, hentry, Set.mem_insert_iff]
    simp only [Set.mem_ofPred_eq]
    by_cases hd : d = c
    · rw [hd, Function.update_self]
      exact iff_of_true ⟨hvalid, rfl⟩ (.inl rfl)
    · rw [Function.update_of_ne hd, or_iff_right hd]
  have hnot : c ∉ v.free := fun hmem => hused hmem.2
  have hcount := Set.ncard_insert_of_notMem hnot
  have hle := v'.ncard_free_le
  have hfreeClst : v'.allocation.freeClst = v.allocation.freeClst :=
    congrArg Allocation.freeClst h.allocation
  have hclusters := hcovers.clusters
  have htwo : (v.layout.nFatent - 2).toNat = v.layout.nFatent.toNat - 2 := by bv_omega
  have hlayout : v'.fs.nFatent = v.layout.nFatent := congrArg Layout.nFatent h.layout
  rw [h.layout, hfree, hcount] at hle
  have hset : (v'.withAllocation (v'.allocation.remove v'.fs.nFatent)).free =
      insert c v.free := hfree
  have hstored : (v'.withAllocation (v'.allocation.remove v'.fs.nFatent)).fs.freeClst =
      (v'.allocation.remove v'.fs.nFatent).freeClst := rfl
  -- `remove_chain` counts up below the number of clusters only, which skips an unknown count.
  constructor
  case known =>
    intro hknown
    have hknown : v.allocation.freeClst.toNat = v.free.ncard := hknown
    have hin : v.allocation.freeClst < v.layout.nFatent - 2 := by
      rw [BitVec.lt_def, htwo, hknown]
      omega
    rw [hset, hcount, hstored, Allocation.remove, hlayout, hfreeClst, if_pos hin]
    have hone : (1 : Dword).toNat = 1 := rfl
    have hlt := v.layout.nFatent.isLt
    rw [BitVec.toNat_add, hone]
    omega
  case unknown =>
    intro hunknown
    have hunknown : v.allocation.freeClst = 0xFFFFFFFF := hunknown
    have hout : ¬ v.allocation.freeClst < v.layout.nFatent - 2 := by
      rw [hunknown, BitVec.lt_def, htwo]
      have hlast : (0xFFFFFFFF : Dword).toNat = 2 ^ 32 - 1 := rfl
      have hlt := v.layout.nFatent.isLt
      omega
    rw [hstored, Allocation.remove, hlayout, hfreeClst, if_neg hout]
    exact hfreeClst.trans hunknown

end Volume

end Senob.Fat
