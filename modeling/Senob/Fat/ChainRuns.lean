import Senob.Fat.ChainRemoval
import Senob.Foundation.Run

/-!
# The chains of all files

The files of a volume and the clusters that each of them owns, over any run of the calls that
FatFs makes of `create_chain` and `remove_chain`. The FAT threads the chain of every file through
its own clusters; no cluster is ever owned twice, none is lost, and the number of free clusters
that the filesystem object keeps is right.
-/

namespace Senob.Fat

open Foundation
open Libk (FResult)

/-- A volume and the cluster chain of each file; a file without clusters has the empty chain. -/
structure Session (ι : Type*) where
  volume : Volume
  chains : ι → List Dword

/-- A use of the two functions for a file. -/
inductive ChainCall (ι : Type*) where
  /-- `create_chain` at the end of the file: with 0 for a file without clusters, with its last
  cluster else. -/
  | stretch (i : ι)
  /-- `create_chain` with an earlier cluster of the file, which follows the chain. -/
  | follow (i : ι) (k : Nat)
  /-- `remove_chain` behind the first clusters of the file, or of all of them. -/
  | truncate (i : ι) (k : Nat)
  /-- Where `f_open` lets the next search start: at the hole that it has made. -/
  | suggest (clst : Dword)

namespace Session

variable {ι : Type*}

/-- `clst` and `pclst` are taken from the chain as the file objects know it. -/
def step [DecidableEq ι] (s : Session ι) : ChainCall ι → Option (Session ι)
  | .stretch i =>
      (s.volume.createChain ((s.chains i).getLast?.getD 0)).map fun out =>
        if out.1 = 0 ∨ out.1 = 1 ∨ out.1 = 0xFFFFFFFF then ⟨out.2, s.chains⟩
        else ⟨out.2, Function.update s.chains i (s.chains i ++ [out.1])⟩
  | .follow i k =>
      if k + 1 < (s.chains i).length then
        (s.volume.createChain ((s.chains i).getD k 0)).map fun out => ⟨out.2, s.chains⟩
      else some s
  | .truncate i k =>
      match (s.chains i).drop k with
      | [] => some s
      | clst :: _ =>
          (s.volume.removeChain clst (((s.chains i).take k).getLast?.getD 0)).map fun out =>
            ⟨out.2, Function.update s.chains i ((s.chains i).take k)⟩
  | .suggest clst =>
      some { s with
        volume := s.volume.withAllocation { s.volume.allocation with lastClst := clst } }

/-- The clusters that are neither free nor owned by a file. -/
def lost (s : Session ι) : Set Dword :=
  { c | s.volume.layout.Valid c ∧ s.volume.entry c ≠ 0 ∧ ∀ i, c ∉ s.chains i }

/-- The FAT holds the chains of the files. -/
structure Sound (s : Session ι) : Prop where
  volume : s.volume.Sound
  covers : s.volume.layout.Covers
  regular : s.volume.Regular
  counted : s.volume.Counted
  valid : ∀ i, ∀ c ∈ s.chains i, s.volume.layout.Valid c
  threaded : Threaded s.volume.layout.nFatent s.volume.link s.chains

variable {s : Session ι} {i : ι} {c r : Dword} {v' : Volume}

theorem Sound.entry_mem (h : s.Sound) (hc : c ∈ s.chains i) :
    s.volume.layout.nFatent ≤ s.volume.entry c ∨ s.volume.entry c ∈ s.chains i := by
  obtain ⟨x, hx⟩ := h.threaded.visits i
  refine (hx.link_mem hc).imp Volume.link_eq_end_iff.mp fun hmem => ?_
  rwa [Volume.entry_of_link rfl (h.valid i _ hmem)]

theorem Sound.entry_ne_zero (h : s.Sound) (hc : c ∈ s.chains i) : s.volume.entry c ≠ 0 := by
  rcases h.entry_mem hc with hend | hmem
  · exact Volume.ne_zero_of_end h.covers hend
  · intro hzero
    exact absurd (h.valid i _ hmem).1 (hzero ▸ by decide)

/-- The cluster behind which a file grows. -/
theorem Sound.last_spec (h : s.Sound) (i : ι) {last : Dword}
    (hlast : (s.chains i).getLast?.getD 0 = last) :
    s.chains i = [] ∧ last = 0 ∨ (∃ hne, (s.chains i).getLast hne = last) ∧ last ≠ 0 ∧
      s.volume.layout.Valid last ∧ s.volume.layout.nFatent ≤ s.volume.entry last := by
  by_cases hempty : s.chains i = []
  · rw [hempty] at hlast
    exact .inl ⟨hempty, hlast.symm⟩
  · rw [List.getLast?_eq_some_getLast hempty, Option.getD_some] at hlast
    have hmem : last ∈ s.chains i := hlast ▸ List.getLast_mem hempty
    obtain ⟨x, hx⟩ := h.threaded.visits i
    refine .inr ⟨⟨hempty, hlast⟩, ?_, h.valid i last hmem, ?_⟩
    · rintro rfl
      exact absurd (h.valid i 0 hmem).1 (by decide)
    · exact Volume.link_eq_end_iff.mp (hlast ▸ hx.link_getLast hempty)

theorem Sound.last_end (h : s.Sound) (i : ι) {last : Dword}
    (hlast : (s.chains i).getLast?.getD 0 = last) :
    last = 0 ∨ s.volume.layout.nFatent ≤ s.volume.entry last := by
  rcases h.last_spec i hlast with ⟨-, hzero⟩ | ⟨-, -, -, hend⟩
  · exact .inl hzero
  · exact .inr hend

/-- A volume with the same entries. -/
theorem Sound.congr (h : s.Sound) (hsound : v'.Sound) (hlayout : v'.layout = s.volume.layout)
    (hallocation : v'.allocation = s.volume.allocation) (hentry : v'.entry = s.volume.entry) :
    (Session.mk v' s.chains).Sound ∧ (Session.mk v' s.chains).lost = s.lost := by
  have hlink : v'.link = s.volume.link := by
    funext c
    rw [Volume.link, Volume.link, hentry, hlayout]
  have hfreeClst : v'.fs.freeClst = s.volume.fs.freeClst :=
    congrArg Allocation.freeClst hallocation
  have hfree : v'.free = s.volume.free := by
    rw [Volume.free, Volume.free, hlayout, hentry]
  refine ⟨⟨hsound, hlayout ▸ h.covers, ?_, ?_, ?_, ?_⟩, ?_⟩
  · intro c hc
    rw [hentry]
    exact h.regular c (hlayout ▸ hc)
  · change v'.Counted
    rw [Volume.Counted, hfreeClst, hfree]
    exact h.counted
  · intro i c hc
    rw [hlayout]
    exact h.valid i c hc
  · change Threaded v'.layout.nFatent v'.link s.chains
    rw [hlayout, hlink]
    exact h.threaded
  · rw [lost, lost, hlayout, hentry]

/-- Moving the window changes nothing that the files see. -/
theorem Sound.keeps (h : s.Sound) (hkeeps : s.volume.Keeps v') :
    (Session.mk v' s.chains).Sound ∧ (Session.mk v' s.chains).lost = s.lost :=
  h.congr hkeeps.sound hkeeps.layout hkeeps.allocation hkeeps.entry

/-- `create_chain` at the end of a file: it returns 0 only if no cluster is free. -/
theorem Sound.stretch_spec (h : s.Sound) (i : ι) {last : Dword}
    (hlast : (s.chains i).getLast?.getD 0 = last) :
    ∃ r v', s.volume.createChain last = some (r, v') ∧
      (r = 0 ∧ s.volume.Keeps v' ∧ s.volume.free = ∅ ∨ s.volume.Creates v' last r) := by
  have hclst : last = 0 ∨ s.volume.layout.Valid last ∧
      s.volume.layout.nFatent ≤ s.volume.entry last := by
    rcases h.last_spec i hlast with ⟨-, hzero⟩ | ⟨-, -, hvalid, hend⟩
    · exact .inl hzero
    · exact .inr ⟨hvalid, hend⟩
  obtain ⟨r, v', hcreate, hresult⟩ := h.volume.createChain_spec h.covers h.regular hclst
  refine ⟨r, v', hcreate, hresult.imp ?_ fun hcreates => hcreates.2⟩
  rintro ⟨hr, hkeeps, hfull | hnone⟩
  · refine ⟨hr, hkeeps, ?_⟩
    rcases h.counted with hcount | hunknown
    · rw [hfull] at hcount
      exact (Set.ncard_eq_zero (Set.toFinite _)).mp hcount.symm
    · exact absurd (hfull.symm.trans hunknown) (by decide)
  · exact ⟨hr, hkeeps, hnone⟩

/-- A list of different clusters is not longer than the volume has clusters. -/
theorem length_le {l : Layout} {cs : List Dword} (hnodup : cs.Nodup)
    (hvalid : ∀ c ∈ cs, l.Valid c) :
    cs.length ≤ l.nFatent.toNat - 2 := by
  rw [← List.toFinset_card_of_nodup hnodup, ← Set.ncard_coe_finset, ← Volume.ncard_clusters l]
  refine Set.ncard_le_ncard (fun c hc => hvalid c ?_) (Set.toFinite _)
  exact List.mem_toFinset.mp hc

/-- `remove_chain` in the middle of a chain, or at its start: the clusters behind the cut are
free, and the one before it ends the chain. -/
theorem Sound.removeChain_spec (h : s.Sound) {l rest : List Dword} {clst : Dword}
    (hl : s.chains i = l ++ clst :: rest) :
    ∃ v', s.volume.removeChain clst (l.getLast?.getD 0) = some (.ok, v') ∧
      s.volume.Changes v' ∧ s.volume.KeepsCount v' ∧ (∀ c ∈ clst :: rest, v'.entry c = 0) ∧
      (∀ hne, v'.entry (l.getLast hne) = s.volume.fs.fsType.mask) ∧
      ∀ c, c ∉ clst :: rest → c ∉ l.getLast? → v'.entry c = s.volume.entry c := by
  obtain ⟨x, hx⟩ := h.threaded.visits i
  rw [hl] at hx
  have hvalid : ∀ c ∈ l ++ clst :: rest, s.volume.layout.Valid c := by
    rw [← hl]
    exact h.valid i
  have hback : ∀ c ∈ clst :: rest, s.volume.layout.Valid c := fun c hc =>
    hvalid c (List.mem_append_right _ hc)
  have hchain : Visits s.volume.layout.nFatent s.volume.link clst (clst :: rest) := hx.from_mem
  have hdisjoint := (List.nodup_append.mp hx.nodup).2.2
  have hlength : rest.length < s.volume.layout.nFatent.toNat := by
    have hle := length_le hchain.nodup hback
    have hclusters := h.covers.clusters
    rw [List.length_cons] at hle
    omega
  rw [Volume.removeChain, if_neg (Volume.getFat_of_valid (hback clst List.mem_cons_self))]
  by_cases hempty : l = []
  · subst hempty
    obtain ⟨v', hloop, hchanges, hentry, hcount⟩ :=
      h.volume.removeLoop_chain h.covers hback hchain hlength
    refine ⟨v', hloop, hchanges, hcount, fun c hc => ?_, fun hne => absurd rfl hne,
      fun c hc _ => ?_⟩
    · rw [hentry, if_pos hc]
    · rw [hentry, if_neg hc]
  · -- The cluster before the cut is marked as the last one first.
    rw [List.getLast?_eq_some_getLast hempty, Option.getD_some]
    generalize hlast : l.getLast hempty = pclst
    have hmem : pclst ∈ l := hlast ▸ List.getLast_mem hempty
    have hpclst := hvalid pclst (List.mem_append_left _ hmem)
    have hzero : pclst ≠ 0 := by
      rintro rfl
      exact absurd hpclst.1 (by decide)
    have hnot : pclst ∉ clst :: rest := fun hin => hdisjoint _ hmem _ hin rfl
    obtain ⟨v₁, hput, hedits, hentry₁, -⟩ := h.volume.putFat_spec h.covers hpclst 0xFFFFFFFF
    rw [Volume.allOnes_and_mask] at hentry₁
    have hlink : ∀ u ∈ clst :: rest, v₁.link u = s.volume.link u := by
      intro u hu
      have hne : u ≠ pclst := fun heq => hnot (heq ▸ hu)
      rw [Volume.link, Volume.link, hentry₁, hedits.layout, Function.update_of_ne hne]
    have hused : s.volume.entry pclst ≠ 0 :=
      h.entry_ne_zero (i := i) (hl ▸ List.mem_append_left _ hmem)
    have hfree : v₁.free = s.volume.free := by
      ext c
      rw [Volume.free, Volume.free, hedits.layout, hentry₁]
      simp only [Set.mem_ofPred_eq]
      by_cases hc : c = pclst
      · rw [hc, Function.update_self]
        exact iff_of_false (fun hand => Volume.mask_ne_zero h.covers hand.2) fun hand =>
          hused hand.2
      · rw [Function.update_of_ne hc]
    have hcount₁ : s.volume.KeepsCount v₁ :=
      .of_eq (congrArg Allocation.freeClst hedits.allocation) hfree
    obtain ⟨v', hloop, hchanges, hentry, hcount⟩ :=
      hedits.sound.removeLoop_chain (hedits.layout ▸ h.covers)
        (fun c hc => hedits.layout ▸ hback c hc) (hedits.layout ▸ hchain.congr hlink)
        (hedits.layout ▸ hlength)
    refine ⟨v', ?_, hedits.toChanges.trans hchanges, hcount₁.trans hcount, fun c hc => ?_,
      fun _ => ?_, fun c hc hne => ?_⟩
    · simp only [ne_eq, hzero, not_false_eq_true, if_true, hput]
      exact hloop
    · rw [hentry, if_pos hc]
    · rw [hlast, hentry, if_neg hnot, hentry₁, Function.update_self]
    · rw [hentry, if_neg hc, hentry₁, Function.update_of_ne]
      rintro rfl
      exact hne rfl

variable [DecidableEq ι]

theorem mem_update {l : List Dword} {j : ι} (hc : c ∈ Function.update s.chains i l j) :
    j = i ∧ c ∈ l ∨ j ≠ i ∧ c ∈ s.chains j := by
  by_cases hj : j = i
  · rw [hj, Function.update_self] at hc
    exact .inl ⟨hj, hc⟩
  · rw [Function.update_of_ne hj] at hc
    exact .inr ⟨hj, hc⟩

/-- The links of the new cluster, and of the one before it, extend the chain. -/
theorem Sound.creates_threaded (h : s.Sound) {last : Dword}
    (hlast : (s.chains i).getLast?.getD 0 = last) (hcreates : s.volume.Creates v' last r) :
    Threaded v'.layout.nFatent v'.link (Function.update s.chains i (s.chains i ++ [r])) := by
  have hspec := h.last_spec i hlast
  have hr : s.volume.layout.Valid r := hcreates.free.1
  have hfresh : ∀ j, r ∉ s.chains j := fun j hmem => h.entry_ne_zero hmem hcreates.free.2
  obtain ⟨hself, hprevious, hother⟩ := hcreates.entries h.covers (h.last_end i hlast)
  have hmask : s.volume.layout.nFatent ≤ s.volume.fs.fsType.mask :=
    h.covers.limit.trans (FsType.maxEntries_le_mask _)
  have hlink : ∀ c, c ≠ r → (last ≠ 0 → c ≠ last) → v'.link c = s.volume.link c := by
    intro c hc hclast
    rw [Volume.link, Volume.link, hother c hc hclast, hcreates.layout]
  rw [hcreates.layout]
  have hrn : r ≠ s.volume.layout.nFatent := fun heq => BitVec.lt_irrefl _ (heq ▸ hr.2)
  refine h.threaded.extend i hrn hfresh ?_ ?_ ?_
  · rw [Volume.link, hself, hcreates.layout, if_neg (BitVec.not_lt.mpr hmask)]
  · intro hne
    rcases hspec with ⟨hempty, -⟩ | ⟨⟨_, hget⟩, hzero, -, -⟩
    · exact absurd hempty hne
    · rw [hget, Volume.link, hprevious hzero, hcreates.layout, if_pos hr.2]
  · intro j c hc hnot
    refine hlink c (fun heq => hfresh j (heq ▸ hc)) fun hzero heq => hnot ?_
    rcases hspec with ⟨-, hz⟩ | ⟨⟨hne, hget⟩, -, -, -⟩
    · exact absurd hz hzero
    · rw [List.getLast?_eq_some_getLast hne, hget, heq]
      rfl

/-- A new cluster is not lost: it was free, and now the file owns it. -/
theorem Sound.creates_lost (h : s.Sound) {last : Dword}
    (hlast : (s.chains i).getLast?.getD 0 = last) (hcreates : s.volume.Creates v' last r) :
    (Session.mk v' (Function.update s.chains i (s.chains i ++ [r]))).lost = s.lost := by
  have hspec := h.last_spec i hlast
  obtain ⟨-, -, hother⟩ := hcreates.entries h.covers (h.last_end i hlast)
  ext c
  rw [lost, lost]
  simp only [Set.mem_ofPred_eq, hcreates.layout]
  refine and_congr_right fun _ => ?_
  by_cases hcr : c = r
  · rw [hcr]
    refine iff_of_false (fun hand => hand.2 i ?_) fun hand => hand.1 hcreates.free.2
    rw [Function.update_self]
    exact List.mem_append_right _ (List.mem_singleton_self r)
  have howners : (∀ j, c ∉ Function.update s.chains i (s.chains i ++ [r]) j) ↔
      ∀ j, c ∉ s.chains j := by
    refine forall_congr' fun j => not_congr ?_
    by_cases hj : j = i
    · rw [hj, Function.update_self, List.mem_append, List.mem_singleton, or_iff_left hcr]
    · rw [Function.update_of_ne hj]
  rw [howners]
  by_cases hclast : last ≠ 0 ∧ c = last
  · -- The entry of the previous cluster has changed, but the file owns it before and after.
    rcases hspec with ⟨-, hz⟩ | ⟨⟨hne, hget⟩, -, -, -⟩
    · exact absurd hz hclast.1
    · have hmem : c ∈ s.chains i := by
        rw [hclast.2, ← hget]
        exact List.getLast_mem hne
      exact iff_of_false (fun hand => hand.2 i hmem) fun hand => hand.2 i hmem
  · rw [hother c hcr fun hzero heq => hclast ⟨hzero, heq⟩]

/-- The new cluster belongs to the file that was stretched. -/
theorem Sound.creates (h : s.Sound) {last : Dword}
    (hlast : (s.chains i).getLast?.getD 0 = last) (hcreates : s.volume.Creates v' last r) :
    (Session.mk v' (Function.update s.chains i (s.chains i ++ [r]))).Sound ∧
      (Session.mk v' (Function.update s.chains i (s.chains i ++ [r]))).lost = s.lost := by
  have hend := h.last_end i hlast
  have hr : s.volume.layout.Valid r := hcreates.free.1
  obtain ⟨hself, hprevious, hother⟩ := hcreates.entries h.covers hend
  have hmask : s.volume.layout.nFatent ≤ s.volume.fs.fsType.mask :=
    h.covers.limit.trans (FsType.maxEntries_le_mask _)
  have hcount := (hcreates.keepsCount h.covers hend).counted h.counted
  refine ⟨⟨hcreates.sound, hcreates.layout ▸ h.covers, ?_, hcount, ?_,
    h.creates_threaded hlast hcreates⟩, h.creates_lost hlast hcreates⟩
  · intro c hc
    rw [hcreates.layout] at hc
    change v'.entry c ≠ 1
    by_cases hcr : c = r
    · rw [hcr, hself]
      intro hone
      rw [hone] at hmask
      exact absurd (h.covers.clusters.trans hmask) (by decide)
    by_cases hclast : last ≠ 0 ∧ c = last
    · rw [hclast.2, hprevious hclast.1]
      rintro rfl
      exact absurd hr.1 (by decide)
    · rw [hother c hcr fun hzero heq => hclast ⟨hzero, heq⟩]
      exact h.regular c hc
  · intro j c hc
    rw [hcreates.layout]
    rcases mem_update hc with ⟨rfl, hc⟩ | ⟨-, hc⟩
    · rcases List.mem_append.mp hc with hc | hc
      · exact h.valid j c hc
      · exact List.mem_singleton.mp hc ▸ hr
    · exact h.valid j c hc

/-- The clusters behind the cut are free again. -/
theorem Sound.truncates (h : s.Sound) {l rest : List Dword} {clst : Dword}
    (hl : s.chains i = l ++ clst :: rest) (hchanges : s.volume.Changes v') (hcounted : v'.Counted)
    (hfreed : ∀ c ∈ clst :: rest, v'.entry c = 0)
    (hlast : ∀ hne, v'.entry (l.getLast hne) = s.volume.fs.fsType.mask)
    (hother : ∀ c, c ∉ clst :: rest → c ∉ l.getLast? → v'.entry c = s.volume.entry c) :
    (Session.mk v' (Function.update s.chains i l)).Sound ∧
      (Session.mk v' (Function.update s.chains i l)).lost = s.lost := by
  have hmask : s.volume.layout.nFatent ≤ s.volume.fs.fsType.mask :=
    h.covers.limit.trans (FsType.maxEntries_le_mask _)
  have hgetLast : ∀ {c}, c ∈ l.getLast? → v'.entry c = s.volume.fs.fsType.mask := by
    intro c hc
    obtain ⟨hne, rfl⟩ := List.mem_getLast?_eq_getLast hc
    exact hlast hne
  have hsub : ∀ c ∈ l, c ∈ s.chains i := fun c hc => hl ▸ List.mem_append_left _ hc
  refine ⟨⟨hchanges.sound, hchanges.layout ▸ h.covers, ?_, hcounted, ?_, ?_⟩, ?_⟩
  · intro c hc
    rw [hchanges.layout] at hc
    change v'.entry c ≠ 1
    by_cases hin : c ∈ clst :: rest
    · rw [hfreed c hin]
      decide
    by_cases hclast : c ∈ l.getLast?
    · rw [hgetLast hclast]
      intro hone
      rw [hone] at hmask
      exact absurd (h.covers.clusters.trans hmask) (by decide)
    · rw [hother c hin hclast]
      exact h.regular c hc
  · intro j c hc
    rw [hchanges.layout]
    rcases mem_update hc with ⟨rfl, hfront⟩ | ⟨-, hc⟩
    · exact h.valid j c (hsub c hfront)
    · exact h.valid j c hc
  · change Threaded v'.layout.nFatent v'.link _
    rw [hchanges.layout]
    refine h.threaded.cut i hl ?_ ?_
    · intro hne
      rw [Volume.link, hlast hne, hchanges.layout, if_neg (BitVec.not_lt.mpr hmask)]
    · intro j c _ hne hin
      rw [Volume.link, Volume.link, hother c hin hne, hchanges.layout]
  -- A freed cluster is free, not lost, and the rest is owned as before.
  · ext c
    rw [lost, lost]
    simp only [Set.mem_ofPred_eq, hchanges.layout]
    refine and_congr_right fun _ => ?_
    by_cases hin : c ∈ clst :: rest
    · have hmem : c ∈ s.chains i := hl ▸ List.mem_append_right _ hin
      exact iff_of_false (fun hand => hand.1 (hfreed c hin)) fun hand => hand.2 i hmem
    by_cases hclast : c ∈ l.getLast?
    · have hmem := List.mem_of_getLast? hclast
      refine iff_of_false (fun hand => hand.2 i ?_) fun hand => hand.2 i (hsub c hmem)
      rw [Function.update_self]
      exact hmem
    · rw [hother c hin hclast]
      refine and_congr_right fun _ => forall_congr' fun j => not_congr ?_
      by_cases hj : j = i
      · rw [hj, Function.update_self, hl, List.mem_append, or_iff_left hin]
      · rw [Function.update_of_ne hj]

omit [DecidableEq ι] in
/-- The entry of a cluster in a chain is the next one. -/
theorem Sound.entry_next (h : s.Sound) {k : Nat} {d : Dword} (hc : (s.chains i)[k]? = some c)
    (hd : (s.chains i)[k + 1]? = some d) : s.volume.entry c = d := by
  obtain ⟨hk, rfl⟩ := List.getElem?_eq_some_iff.mp hd
  obtain ⟨-, rfl⟩ := List.getElem?_eq_some_iff.mp hc
  have hl : s.chains i = (s.chains i).take k ++
      (s.chains i)[k] :: (s.chains i)[k + 1] :: (s.chains i).drop (k + 2) := by
    rw [List.getElem_cons_drop, List.getElem_cons_drop, List.take_append_drop]
  obtain ⟨x, hx⟩ := h.threaded.visits i
  rw [hl] at hx
  exact Volume.entry_of_link hx.link_mid (h.valid i _ (List.getElem_mem hk))

omit [DecidableEq ι] in
/-- `create_chain` inside a chain returns the next cluster. -/
theorem Sound.follow_spec (h : s.Sound) {k : Nat} {d : Dword} (hc : (s.chains i)[k]? = some c)
    (hd : (s.chains i)[k + 1]? = some d) :
    ∃ v', s.volume.createChain c = some (d, v') ∧ s.volume.Keeps v' := by
  have hnext := h.entry_next hc hd
  have hc := h.valid i c (List.mem_of_getElem? hc)
  have hd := h.valid i d (List.mem_of_getElem? hd)
  have hzero : c ≠ 0 := by
    rintro rfl
    exact absurd hc.1 (by decide)
  obtain ⟨v', hget, hkeeps⟩ := h.volume.getFat_spec h.covers hc
  have hlayout : v'.fs.nFatent = s.volume.layout.nFatent := congrArg Layout.nFatent hkeeps.layout
  refine ⟨v', ?_, hkeeps⟩
  rw [Volume.createChain, Volume.chainStart, if_neg hzero, hget]
  simp only [hnext, hlayout, if_neg (BitVec.not_lt.mpr hd.1), if_pos hd.2,
    if_neg (hnext ▸ s.volume.entry_ne_error c)]

/-- A call leaves the FAT with the chains that the files now have, and no data sector changed. -/
theorem Sound.step_spec (h : s.Sound) (call : ChainCall ι) :
    ∃ s', s.step call = some s' ∧ s'.Sound ∧ s.volume.Changes s'.volume ∧ s'.lost = s.lost ∧
      s.volume.KeepsCount s'.volume := by
  cases call with
  | stretch i =>
      obtain ⟨r, v', hcreate, hresult⟩ := h.stretch_spec i rfl
      rw [step, hcreate, Option.map_some]
      rcases hresult with ⟨rfl, hkeeps, -⟩ | hcreates
      · obtain ⟨hsound, hlost⟩ := h.keeps hkeeps
        exact ⟨_, rfl, hsound, hkeeps.edits.toChanges, hlost, hkeeps.keepsCount⟩
      · have hr := hcreates.free.1
        have hlimit := hr.2.trans_le h.covers.limit
        -- A cluster is not taken for one of the error codes of `create_chain`.
        have hcluster : ¬ (r = 0 ∨ r = 1 ∨ r = 0xFFFFFFFF) := by
          rintro (rfl | rfl | rfl)
          · exact absurd hr.1 (by decide)
          · exact absurd hr.1 (by decide)
          · refine absurd hlimit ?_
            cases s.volume.layout.fsType <;> decide
        obtain ⟨hsound, hlost⟩ := h.creates (i := i) rfl hcreates
        rw [if_neg hcluster]
        exact ⟨_, rfl, hsound, hcreates.toChanges, hlost,
          hcreates.keepsCount h.covers (h.last_end i rfl)⟩
  | follow i k =>
      rw [step]
      split_ifs with hk
      · obtain ⟨v', hcreate, hkeeps⟩ := h.follow_spec
          (List.getElem?_eq_getElem (Nat.lt_of_succ_lt hk)) (List.getElem?_eq_getElem hk)
        obtain ⟨hsound, hlost⟩ := h.keeps hkeeps
        rw [List.getD_eq_getElem?_getD, List.getElem?_eq_getElem (Nat.lt_of_succ_lt hk),
          Option.getD_some, hcreate, Option.map_some]
        exact ⟨_, rfl, hsound, hkeeps.edits.toChanges, hlost, hkeeps.keepsCount⟩
      · exact ⟨s, rfl, h, h.volume.keeps.edits.toChanges, rfl, .of_eq rfl rfl⟩
  | truncate i k =>
      cases hback : (s.chains i).drop k with
      | nil =>
          refine ⟨s, ?_, h, h.volume.keeps.edits.toChanges, rfl, .of_eq rfl rfl⟩
          simp only [step, hback]
      | cons clst rest =>
          have hchain : s.chains i = (s.chains i).take k ++ clst :: rest := by
            rw [← hback, List.take_append_drop]
          obtain ⟨v', hremove, hchanges, hcount, hfreed, hlast, hother⟩ :=
            h.removeChain_spec hchain
          obtain ⟨hsound, hlost⟩ :=
            h.truncates hchain hchanges (hcount.counted h.counted) hfreed hlast hother
          refine ⟨_, ?_, hsound, hchanges, hlost, hcount⟩
          simp only [step, hback, hremove, Option.map_some]
  | suggest clst =>
      refine ⟨_, rfl, ⟨h.volume.withAllocation _, h.covers, h.regular, h.counted, h.valid,
        h.threaded⟩, h.volume.keeps.edits.withAllocation _, rfl, .of_eq rfl rfl⟩

/-- Over any run of calls for any files, every call comes to its end, the FAT holds the chains of
the files, no cluster is owned twice, none is lost or found again, `free_clst` stays right, known
or not, and the data sectors are not touched. -/
theorem Sound.run_spec (h : s.Sound) (calls : List (ChainCall ι)) :
    ∃ s', runSteps step s calls = some s' ∧ s'.Sound ∧ s.volume.Changes s'.volume ∧
      s'.lost = s.lost ∧ s.volume.KeepsCount s'.volume := by
  induction calls generalizing s with
  | nil => exact ⟨s, rfl, h, h.volume.keeps.edits.toChanges, rfl, .of_eq rfl rfl⟩
  | cons call calls ih =>
      obtain ⟨s₁, hstep, hsound₁, hchanges₁, hlost₁, hcount₁⟩ := h.step_spec call
      obtain ⟨s₂, hrun, hsound₂, hchanges₂, hlost₂, hcount₂⟩ := ih hsound₁
      refine ⟨s₂, ?_, hsound₂, hchanges₁.trans hchanges₂, hlost₂.trans hlost₁,
        hcount₁.trans hcount₂⟩
      rw [runSteps_cons, hstep, Option.bind_some, hrun]

/-- Two files without clusters. -/
def emptySession : Session Bool := ⟨emptyVolume, fun _ => []⟩

theorem emptySession_sound : emptySession.Sound where
  volume := emptyVolume_sound
  covers := emptyVolume_covers
  regular := fun c _ => by
    change emptyVolume.entry c ≠ 1
    rw [emptyVolume_entry]
    decide
  counted := .inr rfl
  valid := fun _ _ hc => absurd hc List.not_mem_nil
  threaded := ⟨fun _ => ⟨_, rfl⟩, fun _ _ _ hc => absurd hc List.not_mem_nil⟩

/-- The same two files, when the number of free clusters is known. -/
def countedSession : Session Bool :=
  ⟨emptyVolume.withAllocation { emptyVolume.allocation with freeClst := 3 }, fun _ => []⟩

theorem countedSession_free : countedSession.volume.free.ncard = 3 := by
  have hfree : countedSession.volume.free = Volume.clusters emptyVolume.layout := by
    ext c
    exact and_iff_left (emptyVolume_entry c)
  rw [hfree, Volume.ncard_clusters]
  rfl

theorem countedSession_sound : countedSession.Sound :=
  { emptySession_sound with
    volume := emptyVolume_sound.withAllocation _
    counted := .inl countedSession_free.symm }

/-- Two files grow and one is cut again, and `free_clst` is the number of free clusters. -/
theorem run_spec_countedSession :
    ∃ s', runSteps step countedSession
        [.stretch true, .stretch false, .stretch true, .stretch false, .truncate true 1] = some s' ∧
      s'.Sound ∧ countedSession.volume.Changes s'.volume ∧ s'.lost = countedSession.lost ∧
      s'.volume.fs.freeClst.toNat = s'.volume.free.ncard := by
  obtain ⟨s', hrun, hsound, hchanges, hlost, hcount⟩ := countedSession_sound.run_spec
    [.stretch true, .stretch false, .stretch true, .stretch false, .truncate true 1]
  exact ⟨s', hrun, hsound, hchanges, hlost, hcount.known countedSession_free.symm⟩

end Session

end Senob.Fat
