import Mathlib.Data.List.Perm.Subperm
import Mathlib.Data.Nat.Basic
import Senob.Sys.TreeLayout

/-!
# Searching the process tree

A valid process tree is laid out as a red-black tree that is sorted by process
id. Both descents of `process.c` follow the search path for their id, and reach
the place where the id belongs.
-/

namespace Senob.Sys

open Senob.Foundation

namespace ProcTree

variable {s : ProcTree} {pid : Word} {t whole : RBTree Ptr} {path : RBPath Ptr}

/-- The tree is sorted by the value of the process id. -/
def rank (s : ProcTree) (p : Ptr) : Nat := (s.proc p).pid.toNat

theorem KeepsData.rank {s s' : ProcTree} (h : s.KeepsData s') : s'.rank = s.rank :=
  funext fun k => congrArg BitVec.toNat (Process.pid_eq_of_data (h.data k))

/-- The structures reachable from `root` form the red-black tree `t`, sorted by process
id. -/
structure Valid (s : ProcTree) (t : RBTree Ptr) : Prop where
  layout : s.Focus [] t
  sentinel : (s.proc s.nil).color = .black
  sorted : RBPath.Sorted s.rank t.toList
  balanced : ∃ n, t.Balanced .black n
  rootParent : (s.proc s.root).parent = null

/-- The same with ids that may repeat, as they do once the counters have wrapped around. -/
structure Sound (s : ProcTree) (t : RBTree Ptr) : Prop where
  layout : s.Focus [] t
  sentinel : (s.proc s.nil).color = .black
  ascending : RBPath.Ascending s.rank t.toList
  balanced : ∃ n, t.Balanced .black n
  rootParent : (s.proc s.root).parent = null

theorem Valid.sound (h : s.Valid t) : s.Sound t :=
  ⟨h.layout, h.sentinel, RBPath.Sorted.ascending h.sorted, h.balanced, h.rootParent⟩

theorem Sound.valid (h : s.Sound t) (hsorted : RBPath.Sorted s.rank t.toList) : s.Valid t :=
  ⟨h.layout, h.sentinel, hsorted, h.balanced, h.rootParent⟩

/-- The colour in memory is the colour of the tree in focus, also at a leaf. -/
theorem Focus.color_entry (h : s.Focus path t) (hnil : (s.proc s.nil).color = .black) :
    (s.proc (t.entry s.nil)).color = t.rootColor := by
  cases t with
  | leaf => exact hnil
  | node c l key r => exact h.subtree.1.color

theorem Focus.parent_entry (h : s.Focus path t) (ht : t ≠ .leaf) :
    (s.proc (t.entry s.nil)).parent = parentOf path := by
  cases t with
  | leaf => exact absurd rfl ht
  | node c l key r => exact h.subtree.1.parent

theorem Focus.entry_eq_nil (h : s.Focus path t) : t.entry s.nil = s.nil ↔ t = .leaf := by
  constructor
  · intro heq
    by_contra hleaf
    exact h.ne_nil (RBPath.mem_toList_plug.mpr (.inl (RBTree.entry_mem _ hleaf))) heq
  · rintro rfl
    rfl

theorem nodup_ranks (h : RBPath.Sorted s.rank t.toList) : (t.toList.map s.rank).Nodup := by
  rw [List.Nodup, List.pairwise_map]
  exact h.imp fun hlt => ne_of_lt hlt

/-- The ids are distinct 32-bit values, which bounds the size of the tree. -/
theorem size_le_of_sorted (h : RBPath.Sorted s.rank t.toList) : t.size ≤ 2 ^ 32 := by
  have hnodup := nodup_ranks h
  have hsub : t.toList.map s.rank ⊆ List.range (2 ^ 32) := by
    intro i hi
    obtain ⟨p, _, rfl⟩ := List.mem_map.mp hi
    exact List.mem_range.mpr (s.proc p).pid.isLt
  have hle := (List.subperm_of_subset hnodup hsub).length_le
  rwa [List.length_map, List.length_range, RBTree.length_toList] at hle

/-- A structure in the tree is determined by its id. -/
theorem Valid.eq_of_pid (h : s.Valid t) {p q : Ptr} (hp : p ∈ t.toList) (hq : q ∈ t.toList)
    (hpid : (s.proc p).pid = (s.proc q).pid) : p = q :=
  List.inj_on_of_nodup_map (nodup_ranks h.sorted) hp hq (congrArg BitVec.toNat hpid)

/-- The subtree `t` of `whole` is where a search for `pid` arrives. -/
structure Cursor (s : ProcTree) (whole : RBTree Ptr) (pid : Word) (path : RBPath Ptr)
    (t : RBTree Ptr) : Prop where
  focus : s.Focus path t
  plug : path.plug t = whole
  leads : RBPath.Leads s.rank pid.toNat path

/-- The subtree `t` of `whole` is where the insertion of `pid` arrives. -/
structure Descent (s : ProcTree) (whole : RBTree Ptr) (pid : Word) (path : RBPath Ptr)
    (t : RBTree Ptr) : Prop where
  focus : s.Focus path t
  plug : path.plug t = whole
  admits : RBPath.Admits s.rank pid.toNat path

theorem Cursor.descent (h : s.Cursor whole pid path t) : s.Descent whole pid path t :=
  ⟨h.focus, h.plug, h.leads.admits⟩

/-- A round of either descent goes to a smaller subtree. -/
theorem Descent.next (h : s.Descent whole pid path t) (ht : t ≠ .leaf) :
    ∃ f t', s.Descent whole pid (f :: path) t' ∧ t'.size < t.size ∧ f.key = t.entry s.nil ∧
      t'.entry s.nil =
        if pid < (s.proc (t.entry s.nil)).pid then (s.proc (t.entry s.nil)).left
        else (s.proc (t.entry s.nil)).right := by
  cases t with
  | leaf => exact absurd rfl ht
  | node c l key r =>
      have hlinks := h.focus.subtree.1
      rw [RBTree.entry_node]
      by_cases hlt : pid < (s.proc key).pid
      · refine ⟨⟨.left, c, key, r⟩, l, ⟨Focus.down h.focus, h.plug, ?_⟩, ?_, rfl, ?_⟩
        · exact List.forall_mem_cons.mpr
            ⟨⟨fun _ => BitVec.lt_def.mp hlt, fun hd => Side.noConfusion hd⟩, h.admits⟩
        · rw [RBTree.size]
          omega
        · rw [if_pos hlt]
          exact hlinks.near.symm
      · have hright : s.Focus path (.nodeOn .right c r key l) := h.focus
        refine ⟨⟨.right, c, key, l⟩, r, ⟨hright.down, h.plug, ?_⟩, ?_, rfl, ?_⟩
        · refine List.forall_mem_cons.mpr ⟨⟨fun hd => Side.noConfusion hd, fun _ => ?_⟩, h.admits⟩
          rw [BitVec.lt_def] at hlt
          exact Nat.not_lt.mp hlt
        · rw [RBTree.size]
          omega
        · rw [if_neg hlt]
          exact hlinks.far.symm

/-- A round of the search, which stops at an equal id. -/
theorem Cursor.next (h : s.Cursor whole pid path t) (ht : t ≠ .leaf)
    (hne : (s.proc (t.entry s.nil)).pid ≠ pid) :
    ∃ f t', s.Cursor whole pid (f :: path) t' ∧ t'.size < t.size ∧ t'.entry s.nil =
        if pid < (s.proc (t.entry s.nil)).pid then (s.proc (t.entry s.nil)).left
        else (s.proc (t.entry s.nil)).right := by
  obtain ⟨f, t', ⟨hfocus, hplug, hadmits⟩, hsize, hkey, hentry⟩ := h.descent.next ht
  refine ⟨f, t', ⟨hfocus, hplug, hadmits.leads ?_⟩, hsize, hentry⟩
  refine List.forall_mem_cons.mpr ⟨fun heq => hne ?_, fun g hg heq => ?_⟩
  · exact BitVec.eq_of_toNat_eq (hkey ▸ heq)
  · obtain ⟨hleft, hright⟩ := h.leads g hg
    cases hside : g.side with
    | left => exact absurd heq (ne_of_gt (hleft hside))
    | right => exact absurd heq (ne_of_lt (hright hside))

theorem Descent.size_le (h : s.Descent whole pid path t) (hsize : whole.size ≤ 2 ^ 32) :
    t.size ≤ loopFuel := by
  have hplug := RBPath.length_le_size_plug path t
  rw [h.plug] at hplug
  unfold loopFuel
  omega

theorem Sound.root_eq (h : s.Sound whole) : s.root = whole.entry s.nil := h.layout.above

/-- The descent of `rbInsert` reaches the leaf at which the new id belongs. -/
theorem Sound.descend (h : s.Sound whole) (hsize : whole.size ≤ 2 ^ 32) (pid : Word) :
    ∃ path, s.Descent whole pid path .leaf ∧ s.descend pid = some (parentOf path, s.nil) := by
  let inv (n : Nat) (k : Ptr × Ptr) : Prop :=
    ∃ path t, s.Descent whole pid path t ∧ t.size = n ∧ k = (parentOf path, t.entry s.nil)
  have hstart : s.Descent whole pid [] whole := ⟨h.layout, rfl, nofun⟩
  have hstep : ∀ n k, inv n k → decide (k.2 ≠ s.nil) = true → ∃ m < n, inv m
      (k.2, if pid < (s.proc k.2).pid then (s.proc k.2).left else (s.proc k.2).right) := by
    rintro n _ ⟨path, t, hdescent, rfl, rfl⟩ hguard
    have ht : t ≠ .leaf := fun heq => by simp [heq, RBTree.entry] at hguard
    obtain ⟨f, t', hnext, hsize, hkey, hentry⟩ := hdescent.next ht
    exact ⟨t'.size, hsize, f :: path, t', hnext, rfl, by rw [parentOf, hkey, hentry]⟩
  obtain ⟨_, _, hrun, ⟨path, t, hdescent, _, rfl⟩, hguard⟩ := whileFuel_rule hstep
    ⟨[], whole, hstart, rfl, rfl⟩ (hstart.size_le hsize)
  obtain rfl := hdescent.focus.entry_eq_nil.mp (by simpa using hguard)
  refine ⟨path, hdescent, ?_⟩
  unfold ProcTree.descend
  rw [h.root_eq]
  exact hrun

/-- `rbSearch` finds a structure with the id, or the sentinel when there is none. -/
theorem Sound.rbSearch (h : s.Sound whole) (hsize : whole.size ≤ 2 ^ 32) (pid : Word) :
    ∃ path t, s.Cursor whole pid path t ∧ s.rbSearch pid = some (t.entry s.nil) ∧
      (t ≠ .leaf → (s.proc (t.entry s.nil)).pid = pid) := by
  let inv (n : Nat) (x : Ptr) : Prop :=
    ∃ path t, s.Cursor whole pid path t ∧ t.size = n ∧ x = t.entry s.nil
  have hstart : s.Cursor whole pid [] whole := ⟨h.layout, rfl, nofun⟩
  have hstep : ∀ n x, inv n x → decide (x ≠ s.nil ∧ (s.proc x).pid ≠ pid) = true → ∃ m < n, inv m
      (if pid < (s.proc x).pid then (s.proc x).left else (s.proc x).right) := by
    rintro n _ ⟨path, t, hcursor, rfl, rfl⟩ hguard
    obtain ⟨hnil, hne⟩ := of_decide_eq_true hguard
    obtain ⟨f, t', hnext, hsize, hentry⟩ :=
      hcursor.next (fun heq => hnil (hcursor.focus.entry_eq_nil.mpr heq)) hne
    exact ⟨t'.size, hsize, f :: path, t', hnext, rfl, hentry.symm⟩
  obtain ⟨_, _, hrun, ⟨path, t, hcursor, _, rfl⟩, hguard⟩ := whileFuel_rule hstep
    ⟨[], whole, hstart, rfl, rfl⟩ (hstart.descent.size_le hsize)
  refine ⟨path, t, hcursor, by rw [ProcTree.rbSearch, h.root_eq]; exact hrun, fun ht => ?_⟩
  have hnil : t.entry s.nil ≠ s.nil := fun heq => ht (hcursor.focus.entry_eq_nil.mp heq)
  have := of_decide_eq_false hguard
  tauto

/-- An id that occurs in the tree is found. -/
theorem Sound.rbSearch_mem (h : s.Sound whole) (hsize : whole.size ≤ 2 ^ 32) {p : Ptr}
    (hp : p ∈ whole.toList) :
    ∃ q ∈ whole.toList, s.rbSearch (s.proc p).pid = some q ∧ (s.proc q).pid = (s.proc p).pid := by
  obtain ⟨path, t, ⟨hfocus, hplug, hleads⟩, hsearch, hfound⟩ := h.rbSearch hsize (s.proc p).pid
  have hleaf : t ≠ .leaf := by
    rintro rfl
    exact hleads.rank_ne (hplug ▸ h.ascending) p (hplug ▸ hp) rfl
  refine ⟨t.entry s.nil, ?_, hsearch, hfound hleaf⟩
  rw [← hplug]
  exact RBPath.mem_toList_plug.mpr (.inl (RBTree.entry_mem _ hleaf))

theorem Valid.size_le (h : s.Valid whole) : whole.size ≤ 2 ^ 32 := size_le_of_sorted h.sorted

theorem le_loopFuel {n : Nat} (h : n ≤ 2 ^ 32) : n ≤ loopFuel := by
  unfold loopFuel
  omega

theorem Valid.rbSearch (h : s.Valid whole) (pid : Word) :
    ∃ path t, s.Cursor whole pid path t ∧ s.rbSearch pid = some (t.entry s.nil) ∧
      (t ≠ .leaf → (s.proc (t.entry s.nil)).pid = pid) := h.sound.rbSearch h.size_le pid

/-- A structure of the tree is found under its own id. -/
theorem Valid.rbSearch_mem (h : s.Valid whole) {p : Ptr} (hp : p ∈ whole.toList) :
    s.rbSearch (s.proc p).pid = some p := by
  obtain ⟨q, hq, hsearch, hpid⟩ := h.sound.rbSearch_mem h.size_le hp
  rw [hsearch, h.eq_of_pid hq hp hpid]

end ProcTree

end Senob.Sys
