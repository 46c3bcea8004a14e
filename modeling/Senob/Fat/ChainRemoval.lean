import Senob.Fat.Chains
import Senob.Foundation.ChainTable

/-!
# Removing a chain

The loop of `remove_chain` frees the cluster that it looks at and goes on with the one that was
linked from it. On a well-formed chain it frees the clusters of the chain. It ends on every
other FAT too, even if the links run in a circle, since a cluster that was freed stops it. What
it leaves in the FAT is described for the entries after the previous cluster got the end mark.
-/

namespace Senob.Fat

open Foundation
open Libk (FResult)

namespace Volume

variable {v v' : Volume} {c clst : Dword}

/-- The next cluster of a chain; the number of entries stands for its end. -/
def link (v : Volume) (c : Dword) : Dword :=
  if v.entry c < v.layout.nFatent then v.entry c else v.layout.nFatent

theorem link_eq_end_iff : v.link c = v.layout.nFatent ↔ v.layout.nFatent ≤ v.entry c := by
  unfold link
  split_ifs with h
  · refine iff_of_false (fun heq => ?_) (BitVec.not_le.mpr h)
    rw [heq] at h
    exact BitVec.lt_irrefl _ h
  · exact iff_of_true rfl (BitVec.not_lt.mp h)

theorem entry_of_link {d : Dword} (h : v.link c = d) (hd : v.layout.Valid d) : v.entry c = d := by
  unfold link at h
  split_ifs at h with hlt
  · exact h
  · rw [← h] at hd
    exact absurd hd.2 (BitVec.lt_irrefl _)

/-- One round of the loop frees a cluster, unless its entry is 0 or 1. -/
theorem Sound.removeLoop_step (h : v.Sound) (hcovers : v.layout.Covers)
    (hvalid : v.layout.Valid clst) (hzero : v.entry clst ≠ 0) (hone : v.entry clst ≠ 1)
    (fuel : Nat) :
    ∃ v', removeLoop (fuel + 1) v clst =
        (if v.entry clst < v.layout.nFatent then removeLoop fuel v' (v.entry clst)
        else some (.ok, v')) ∧
      v.Changes v' ∧ v'.entry = Function.update v.entry clst 0 ∧ v.KeepsCount v' := by
  obtain ⟨v₁, hget, hkeeps⟩ := h.getFat_spec hcovers hvalid
  obtain ⟨v₂, hput, hedits, hentry, -⟩ := hkeeps.sound.putFat_spec (hkeeps.layout ▸ hcovers)
    (hkeeps.layout ▸ hvalid) 0
  have hall := hkeeps.edits.trans hedits
  have hlayout : v₂.fs.nFatent = v.layout.nFatent := congrArg Layout.nFatent hall.layout
  have hand : (0 : Dword) &&& v₁.fs.fsType.mask = 0 := BitVec.zero_and
  rw [hand, hkeeps.entry] at hentry
  refine ⟨v₂.withAllocation (v₂.allocation.remove v₂.fs.nFatent), ?_, hall.withAllocation _,
    hentry, hall.keepsCount_remove hcovers hvalid hzero hentry⟩
  rw [removeLoop, hget]
  simp only [if_neg hzero, if_neg hone, if_neg (v.entry_ne_error clst), hput]
  have hcount : (v₂.withAllocation (v₂.allocation.remove v₂.fs.nFatent)).fs.nFatent =
      v.layout.nFatent := hlayout
  rw [hcount]

/-- The clusters of a chain are freed one after the other. -/
theorem Sound.removeLoop_chain (h : v.Sound) (hcovers : v.layout.Covers) {rest : List Dword}
    (hvalid : ∀ c ∈ clst :: rest, v.layout.Valid c)
    (hchain : Visits v.layout.nFatent v.link clst (clst :: rest)) {fuel : Nat}
    (hfuel : rest.length < fuel) :
    ∃ v', removeLoop fuel v clst = some (.ok, v') ∧ v.Changes v' ∧
      (∀ c, v'.entry c = if c ∈ clst :: rest then 0 else v.entry c) ∧
      v.KeepsCount v' := by
  have hclusters := hcovers.clusters
  have hone : (1 : Dword).toNat = 1 := rfl
  have hzero : (0 : Dword).toNat = 0 := rfl
  induction rest generalizing v clst fuel with
  | nil =>
      obtain ⟨fuel, rfl⟩ := Nat.exists_eq_succ_of_ne_zero (Nat.ne_zero_of_lt hfuel)
      have hend : v.layout.nFatent ≤ v.entry clst := link_eq_end_iff.mp hchain.2.2
      have hnat : v.layout.nFatent.toNat ≤ (v.entry clst).toNat := hend
      obtain ⟨v', hstep, hchanges, hentry, hcount⟩ := h.removeLoop_step hcovers
        (hvalid clst List.mem_cons_self) (ne_zero_of_end hcovers hend) (by bv_omega) fuel
      rw [if_neg (BitVec.not_lt.mpr hend)] at hstep
      refine ⟨v', hstep, hchanges, fun c => ?_, hcount⟩
      rw [hentry, Function.update_apply]
      simp only [List.mem_singleton]
  | cons d rest ih =>
      obtain ⟨fuel, rfl⟩ := Nat.exists_eq_succ_of_ne_zero (Nat.ne_zero_of_lt hfuel)
      have hd : v.layout.Valid d := hvalid d (List.mem_cons_of_mem _ List.mem_cons_self)
      have hnext : v.entry clst = d := entry_of_link hchain.2.2.1 hd
      have hlow : 2 ≤ d.toNat := hd.1
      obtain ⟨v₁, hstep, hchanges₁, hentry₁, hcount₁⟩ := h.removeLoop_step hcovers
        (hvalid clst List.mem_cons_self) (by rw [hnext]; bv_omega) (by rw [hnext]; bv_omega) fuel
      rw [hnext, if_pos hd.2] at hstep
      -- The entries behind the freed cluster are the old ones.
      have hnodup := hchain.nodup
      have hlink : ∀ u ∈ d :: rest, v₁.link u = v.link u := by
        intro u hu
        have hne : u ≠ clst := fun heq => (List.nodup_cons.mp hnodup).1 (heq ▸ hu)
        rw [link, link, hentry₁, hchanges₁.layout, Function.update_of_ne hne]
      have hrest : Visits v.layout.nFatent v.link d (d :: rest) :=
        Visits.from_mem (l := [clst]) hchain
      obtain ⟨v₂, hloop, hchanges₂, hentry₂, hcount₂⟩ :=
        ih hchanges₁.sound (hchanges₁.layout ▸ hcovers)
          (fun c hc => hchanges₁.layout ▸ hvalid c (List.mem_cons_of_mem _ hc))
          (hchanges₁.layout ▸ hrest.congr hlink) (Nat.lt_of_succ_lt_succ hfuel)
          (hchanges₁.layout ▸ hclusters)
      refine ⟨v₂, hstep.trans hloop, hchanges₁.trans hchanges₂, fun c => ?_,
        hcount₁.trans hcount₂⟩
      rw [hentry₂, hentry₁]
      by_cases hin : c ∈ d :: rest
      · rw [if_pos hin, if_pos (List.mem_cons_of_mem _ hin)]
      · rw [if_neg hin, Function.update_apply]
        simp only [List.mem_cons (a := c) (b := clst), hin, or_false]

end Volume

/-! ## Any contents of the FAT -/

namespace Layout

variable {l : Layout} {entry entry' : Dword → Dword} {c clst : Dword} {res : FResult}

/-- In these entries, the cluster `d` is the next one behind `c`. -/
def Follows (l : Layout) (entry : Dword → Dword) (c d : Dword) : Prop := entry c = d ∧ l.Valid d

/-- The clusters that the links lead to from `clst` on, with `clst` itself. -/
def Reaches (l : Layout) (entry : Dword → Dword) : Dword → Dword → Prop :=
  Relation.ReflTransGen (l.Follows entry)

/-- The clusters whose entry is not 0. -/
def used (l : Layout) (entry : Dword → Dword) : Set Dword := { c | l.Valid c ∧ entry c ≠ 0 }

/-- What the loop makes of the entries: it frees no cluster that the links do not lead to, and
all of these when it succeeds, which it does unless it meets the value 1. -/
structure Frees (l : Layout) (entry entry' : Dword → Dword) (clst : Dword) (res : FResult) :
    Prop where
  kept_or_freed : ∀ c, entry' c = entry c ∨ entry' c = 0 ∧ l.Reaches entry clst c
  ok_iff : res = .ok ↔ ∀ c, l.Reaches entry clst c → entry c ≠ 1
  freed : res = .ok → ∀ c, l.Reaches entry clst c → entry' c = 0

theorem ncard_used_le (l : Layout) (entry : Dword → Dword) :
    (l.used entry).ncard ≤ l.nFatent.toNat - 2 :=
  (Set.ncard_le_ncard fun _ hc => hc.1).trans_eq (Volume.ncard_clusters l)

theorem ncard_used_lt (hvalid : l.Valid clst) (hused : entry clst ≠ 0) :
    (l.used (Function.update entry clst 0)).ncard < (l.used entry).ncard := by
  refine Set.ncard_lt_ncard ⟨?_, fun hsub => ?_⟩ (Set.toFinite _)
  · rintro d ⟨hd, hne⟩
    rw [Function.update_apply] at hne
    split_ifs at hne with heq
    · exact absurd rfl hne
    · exact ⟨hd, hne⟩
  · have hmem : clst ∈ l.used (Function.update entry clst 0) := hsub ⟨hvalid, hused⟩
    exact hmem.2 (Function.update_self clst 0 entry)

theorem reaches_of_removed {d : Dword} (h : l.Reaches (Function.update entry clst 0) d c) :
    l.Reaches entry d c := by
  refine Relation.ReflTransGen.mono (fun a b => ?_) _ _ h
  rintro ⟨hab, hb⟩
  rw [Function.update_apply] at hab
  split_ifs at hab with ha
  · rw [← hab] at hb
    exact absurd hb.1 (by decide)
  · exact ⟨hab, hb⟩

/-- What is reached from a cluster is reached from the next one without passing it again. -/
theorem reaches_cases (h : l.Reaches entry clst c) :
    c = clst ∨ l.Valid (entry clst) ∧
      l.Reaches (Function.update entry clst 0) (entry clst) c := by
  induction h with
  | refl => exact .inl rfl
  | @tail a b _ hab ih =>
      obtain ⟨hab, hb⟩ := hab
      by_cases ha : a = clst
      · subst ha
        rw [hab]
        exact .inr ⟨hb, .refl⟩
      · obtain ⟨hvalid, hreach⟩ := ih.resolve_left ha
        refine .inr ⟨hvalid, hreach.tail ⟨?_, hb⟩⟩
        rw [Function.update_of_ne ha, hab]

/-- From a cluster that is followed by none, only this cluster is reached. -/
theorem eq_of_reaches (hend : ¬ l.Valid (entry clst)) (h : l.Reaches entry clst c) : c = clst :=
  (reaches_cases h).resolve_right fun hnext => hend hnext.1

theorem frees_of_zero (hzero : entry clst = 0) : l.Frees entry entry clst .ok := by
  have hend : ¬ l.Valid (entry clst) := fun h => absurd (hzero ▸ h.1) (by decide)
  have hall : ∀ c, l.Reaches entry clst c → entry c = 0 := fun c h => eq_of_reaches hend h ▸ hzero
  refine ⟨fun _ => .inl rfl, iff_of_true rfl fun c h => ?_, fun _ => hall⟩
  rw [hall c h]
  decide

theorem frees_of_one (hone : entry clst = 1) : l.Frees entry entry clst .intErr where
  kept_or_freed _ := .inl rfl
  ok_iff := iff_of_false (fun h => by cases h) fun h => h clst .refl hone
  freed h := by cases h

/-- The loop ends behind the last cluster. -/
theorem frees_of_end (hend : ¬ l.Valid (entry clst)) (hone : entry clst ≠ 1) :
    l.Frees entry (Function.update entry clst 0) clst .ok where
  kept_or_freed c := by
    by_cases hc : c = clst
    · subst hc
      exact .inr ⟨Function.update_self c 0 entry, .refl⟩
    · exact .inl (Function.update_of_ne hc 0 entry)
  ok_iff := iff_of_true rfl fun _ h => eq_of_reaches hend h ▸ hone
  freed _ _ h := by rw [eq_of_reaches hend h, Function.update_self]

/-- The loop goes on with the next cluster. -/
theorem Frees.of_next (hvalid : l.Valid (entry clst)) (hone : entry clst ≠ 1)
    (h : l.Frees (Function.update entry clst 0) entry' (entry clst) res) :
    l.Frees entry entry' clst res where
  kept_or_freed c := by
    have hfirst : l.Reaches entry clst (entry clst) := .single ⟨rfl, hvalid⟩
    rcases h.kept_or_freed c with hkept | ⟨hfree, hreach⟩
    · by_cases hc : c = clst
      · subst hc
        rw [Function.update_self] at hkept
        exact .inr ⟨hkept, .refl⟩
      · rw [Function.update_of_ne hc] at hkept
        exact .inl hkept
    · exact .inr ⟨hfree, hfirst.trans (reaches_of_removed hreach)⟩
  ok_iff := by
    have hfirst : l.Reaches entry clst (entry clst) := .single ⟨rfl, hvalid⟩
    rw [h.ok_iff]
    constructor
    · intro hnext c hreach
      by_cases hc : c = clst
      · rwa [hc]
      · have hne := hnext c ((reaches_cases hreach).resolve_left hc).2
        rwa [Function.update_of_ne hc] at hne
    · intro hall c hreach
      rw [Function.update_apply]
      split_ifs
      · decide
      · exact hall c (hfirst.trans (reaches_of_removed hreach))
  freed hres c hreach := by
    rcases reaches_cases hreach with rfl | ⟨-, hnext⟩
    · rcases h.kept_or_freed c with hkept | ⟨hfree, -⟩
      · rw [hkept, Function.update_self]
      · exact hfree
    · exact h.freed hres c hnext

end Layout

namespace Volume

variable {v : Volume} {clst pclst : Dword}

/-- The loop ends whatever the FAT holds. -/
theorem Sound.removeLoop_total (h : v.Sound) (hcovers : v.layout.Covers)
    (hvalid : v.layout.Valid clst) {fuel : Nat} (hfuel : (v.layout.used v.entry).ncard < fuel) :
    ∃ res v', removeLoop fuel v clst = some (res, v') ∧ v.Changes v' ∧
      v.layout.Frees v.entry v'.entry clst res := by
  induction fuel generalizing v clst with
  | zero => exact absurd hfuel (Nat.not_lt_zero _)
  | succ fuel ih =>
      obtain ⟨v₀, hget, hkeeps⟩ := h.getFat_spec hcovers hvalid
      by_cases hzero : v.entry clst = 0
      · refine ⟨.ok, v₀, ?_, hkeeps.edits.toChanges, ?_⟩
        · rw [removeLoop, hget]
          simp only [if_pos hzero]
        · rw [hkeeps.entry]
          exact Layout.frees_of_zero hzero
      by_cases hone : v.entry clst = 1
      · refine ⟨.intErr, v₀, ?_, hkeeps.edits.toChanges, ?_⟩
        · rw [removeLoop, hget]
          simp only [if_neg hzero, if_pos hone]
        · rw [hkeeps.entry]
          exact Layout.frees_of_one hone
      obtain ⟨v₁, hstep, hchanges₁, hentry₁, -⟩ := h.removeLoop_step hcovers hvalid hzero hone fuel
      by_cases hnext : v.entry clst < v.layout.nFatent
      · rw [if_pos hnext] at hstep
        have hvalid₁ : v.layout.Valid (v.entry clst) := ⟨by bv_omega, hnext⟩
        have hless : (v₁.layout.used v₁.entry).ncard < (v.layout.used v.entry).ncard := by
          rw [hentry₁, hchanges₁.layout]
          exact Layout.ncard_used_lt hvalid hzero
        obtain ⟨res, v₂, hloop, hchanges₂, hfrees⟩ :=
          ih hchanges₁.sound (hchanges₁.layout ▸ hcovers) (hchanges₁.layout ▸ hvalid₁) (by omega)
        rw [hentry₁, hchanges₁.layout] at hfrees
        exact ⟨res, v₂, hstep.trans hloop, hchanges₁.trans hchanges₂, hfrees.of_next hvalid₁ hone⟩
      · rw [if_neg hnext] at hstep
        exact ⟨.ok, v₁, hstep, hchanges₁, hentry₁ ▸
          Layout.frees_of_end (fun hin => hnext hin.2) hone⟩

/-- The entries when `pclst`, unless it is 0, has got the end mark. -/
def marked (v : Volume) (pclst : Dword) : Dword → Dword :=
  if pclst = 0 then v.entry else Function.update v.entry pclst v.fs.fsType.mask

/-- `remove_chain` for any two clusters, on any contents of the FAT: it ends, and does nothing
but return an error when one of the clusters does not exist. -/
theorem Sound.removeChain_total (h : v.Sound) (hcovers : v.layout.Covers) (clst pclst : Dword) :
    ∃ res v', v.removeChain clst pclst = some (res, v') ∧ v.Changes v' ∧
      (v.layout.Valid clst → pclst = 0 ∨ v.layout.Valid pclst →
        v.layout.Frees (v.marked pclst) v'.entry clst res) ∧
      (¬ v.layout.Valid clst ∨ pclst ≠ 0 ∧ ¬ v.layout.Valid pclst → res = .intErr ∧ v' = v) := by
  by_cases hclst : v.layout.Valid clst
  case neg =>
    have hnone : clst < 2 ∨ v.fs.nFatent ≤ clst := by
      by_contra hin
      obtain ⟨hlow, hhigh⟩ := not_or.mp hin
      exact hclst ⟨BitVec.not_lt.mp hlow, BitVec.not_le.mp hhigh⟩
    rw [removeChain, if_pos hnone]
    exact ⟨.intErr, v, rfl, h.keeps.edits.toChanges, fun hin => absurd hin hclst,
      fun _ => ⟨rfl, rfl⟩⟩
  have hin : ¬ (clst < 2 ∨ v.fs.nFatent ≤ clst) :=
    not_or.mpr ⟨BitVec.not_lt.mpr hclst.1, BitVec.not_le.mpr hclst.2⟩
  have hclusters := hcovers.clusters
  -- The loop ends even on a chain with a circle: each round frees an entry that was in use.
  have hloop : ∀ v₁, v.Changes v₁ → ∃ res v', removeLoop v.layout.nFatent.toNat v₁ clst =
      some (res, v') ∧ v.Changes v' ∧ v.layout.Frees v₁.entry v'.entry clst res := by
    intro v₁ hchanges
    have hused := v.layout.ncard_used_le v₁.entry
    have hfuel : (v₁.layout.used v₁.entry).ncard < v.layout.nFatent.toNat := by
      rw [hchanges.layout]
      omega
    obtain ⟨res, v', hrun, hchanges', hfrees⟩ := hchanges.sound.removeLoop_total
      (hchanges.layout ▸ hcovers) (hchanges.layout ▸ hclst) hfuel
    exact ⟨res, v', hrun, hchanges.trans hchanges', hchanges.layout ▸ hfrees⟩
  rw [removeChain, if_neg hin]
  by_cases hnull : pclst = 0
  · obtain ⟨res, v', hrun, hchanges, hfrees⟩ := hloop v h.keeps.edits.toChanges
    rw [if_neg (not_not_intro hnull)]
    refine ⟨res, v', hrun, hchanges, fun _ _ => ?_, fun hout => ?_⟩
    · rwa [marked, if_pos hnull]
    · exact absurd hclst (hout.resolve_right fun hp => hp.1 hnull)
  rw [if_pos hnull]
  by_cases hpclst : v.layout.Valid pclst
  · obtain ⟨v₁, hput, hedits, hentry, -⟩ := h.putFat_spec hcovers hpclst 0xFFFFFFFF
    rw [allOnes_and_mask] at hentry
    obtain ⟨res, v', hrun, hchanges, hfrees⟩ := hloop v₁ hedits.toChanges
    have hcount : v₁.fs.nFatent = v.layout.nFatent := congrArg Layout.nFatent hedits.layout
    rw [hput]
    simp only [hcount]
    refine ⟨res, v', hrun, hchanges, fun _ _ => ?_, fun hout => ?_⟩
    · rwa [marked, if_neg hnull, ← hentry]
    · exact absurd hpclst (hout.resolve_left (not_not_intro hclst)).2
  · have hput : v.putFat pclst 0xFFFFFFFF = (.intErr, v) := by
      rw [putFat, if_neg (show ¬ (2 ≤ pclst ∧ pclst < v.fs.nFatent) from hpclst)]
    rw [hput]
    exact ⟨.intErr, v, rfl, h.keeps.edits.toChanges,
      fun _ hin => absurd hin (not_or.mpr ⟨hnull, hpclst⟩), fun _ => ⟨rfl, rfl⟩⟩

/-- A volume with a link from cluster 4 into a circle of the clusters 2 and 3. -/
def circularVolume : Volume := (((emptyVolume.putFat 2 3).2.putFat 3 2).2.putFat 4 2).2

def circularEntries (last : Dword) (c : Dword) : Dword :=
  if c = 2 then 3 else if c = 3 then 2 else if c = 4 then last else 0

theorem circularVolume_spec : circularVolume.Sound ∧ circularVolume.layout = emptyVolume.layout ∧
    circularVolume.entry = circularEntries 2 := by
  have hvalid₀ : emptyVolume.layout.Valid 2 := by decide
  obtain ⟨v₁, hput₁, hedits₁, hentry₁, -⟩ :=
    emptyVolume_sound.putFat_spec emptyVolume_covers hvalid₀ 3
  have hvalid₁ : v₁.layout.Valid 3 := by rw [hedits₁.layout]; decide
  obtain ⟨v₂, hput₂, hedits₂, hentry₂, -⟩ :=
    hedits₁.sound.putFat_spec (hedits₁.layout ▸ emptyVolume_covers) hvalid₁ 2
  have hlayout₂ := hedits₂.layout.trans hedits₁.layout
  have hvalid₂ : v₂.layout.Valid 4 := by rw [hlayout₂]; decide
  obtain ⟨v₃, hput₃, hedits₃, hentry₃, -⟩ :=
    hedits₂.sound.putFat_spec (hlayout₂ ▸ emptyVolume_covers) hvalid₂ 2
  have hvolume : circularVolume = v₃ := by
    rw [circularVolume, hput₁, hput₂, hput₃]
  have htype₁ : v₁.fs.fsType = .fat12 := congrArg Layout.fsType hedits₁.layout
  have htype₂ : v₂.fs.fsType = .fat12 := congrArg Layout.fsType hlayout₂
  have hthree : (3 : Dword) &&& emptyVolume.fs.fsType.mask = 3 := by decide
  have htwo : (2 : Dword) &&& FsType.fat12.mask = 2 := by decide
  refine ⟨hvolume ▸ hedits₃.sound, hvolume ▸ hedits₃.layout.trans hlayout₂, ?_⟩
  funext c
  rw [hvolume, hentry₃, hentry₂, hentry₁, htype₁, htype₂, hthree, htwo]
  simp only [Function.update_apply, emptyVolume_entry, circularEntries]
  grind

theorem circularVolume_marked : circularVolume.marked 4 = circularEntries 0xFFF := by
  obtain ⟨-, hlayout, hentry⟩ := circularVolume_spec
  have htype : circularVolume.fs.fsType = .fat12 := congrArg Layout.fsType hlayout
  have hmask : FsType.fat12.mask = 0xFFF := rfl
  funext c
  rw [marked, if_neg (by decide), hentry, htype, hmask, Function.update_apply]
  simp only [circularEntries]
  grind

/-- The circle is freed, and cluster 4 has the end mark. -/
theorem removeChain_total_circularVolume :
    ∃ v', circularVolume.removeChain 2 4 = some (.ok, v') ∧ v'.entry 2 = 0 ∧ v'.entry 3 = 0 ∧
      v'.entry 4 = 0xFFF := by
  obtain ⟨hsound, hlayout, -⟩ := circularVolume_spec
  have hvalid : ∀ c, emptyVolume.layout.Valid c → circularVolume.layout.Valid c := fun c h =>
    hlayout ▸ h
  obtain ⟨res, v', hrun, -, hfrees, -⟩ :=
    hsound.removeChain_total (hlayout ▸ emptyVolume_covers) 2 4
  have hfrees := hfrees (hvalid 2 (by decide)) (.inr (hvalid 4 (by decide)))
  rw [circularVolume_marked] at hfrees
  have hcircle : ∀ c, circularVolume.layout.Reaches (circularEntries 0xFFF) 2 c →
      c = 2 ∨ c = 3 := by
    intro c hreach
    induction hreach with
    | refl => exact .inl rfl
    | tail _ hstep ih =>
        rcases ih with rfl | rfl
        · exact .inr hstep.1.symm
        · exact .inl hstep.1.symm
  have hres : res = .ok := hfrees.ok_iff.mpr fun c hreach => by
    rcases hcircle c hreach with rfl | rfl <;> decide
  have hthree : circularVolume.layout.Follows (circularEntries 0xFFF) 2 3 :=
    ⟨rfl, hvalid 3 (by decide)⟩
  refine ⟨v', hres ▸ hrun, hfrees.freed hres 2 .refl, hfrees.freed hres 3 (.single hthree), ?_⟩
  exact (hfrees.kept_or_freed 4).resolve_right fun hfree =>
    absurd (hcircle 4 hfree.2) (by decide)

end Volume

end Senob.Fat
