import Senob.Sys.TreeDeleteFixup

/-!
# Deletion from the process tree

`rbDelete` takes out a node with at most one child by hanging the child in its
place. A node with two children is replaced by its successor, which has no left
child. In each case the structure that is removed is the one that was found, and
what remains is short of a black node where a black node was taken away.
-/

namespace Senob.Sys

open Senob.Foundation

namespace ProcTree

variable {s s' : ProcTree} {k p u v x y z : Ptr} {d : Side} {c c' : Color}
  {t l r near far sibling whole : RBTree Ptr} {path lpath : RBPath Ptr} {n : Nat}

/-! ## Transplanting -/

/-- The memory after the subtree at `v` is hung at the end of the path. -/
def moved (s : ProcTree) (v : Ptr) (path : RBPath Ptr) : ProcTree :=
  (s.hook v path).setParent v (parentOf path)

theorem moved_proc_of_ne (hkv : k ≠ v) (hk : k ∉ path.keys) :
    (s.moved v path).proc k = s.proc k := by
  rw [moved, modify_proc_of_ne _ _ hkv, hook_proc hk]

theorem moved_proc_self (hv : v ∉ path.keys) :
    (s.moved v path).proc v = { s.proc v with parent := parentOf path } := by
  rw [moved, modify_proc_self, hook_proc hv]

theorem moved_keepsData : s.KeepsData (s.moved v path) :=
  ⟨by simp [moved], fun k => by rw [moved, data_setParent, data_hook]⟩

theorem moved_ownsPath (h : s.OwnsPath u path) (hnodup : path.keys.Nodup)
    (hv : v ∉ path.keys) : (s.moved v path).OwnsPath v path := by
  refine (h.hook hnodup).congr rfl rfl fun k hk => ?_
  have hkv : k ≠ v := fun heq => hv (heq ▸ hk)
  rw [moved, modify_proc_of_ne _ _ hkv]

/-- `rbTransplant` finds the pointer that holds `u`. -/
theorem rbTransplant_eq_moved (h : s.OwnsPath u path) (hparent : (s.proc u).parent = parentOf path)
    (hu : u ∉ path.keys) (hunil : u ≠ s.nil) (hnull : ∀ k ∈ path.keys, k ≠ null) :
    s.rbTransplant u v = s.moved v path := by
  rw [rbTransplant, relink_eq_hook h hparent hu hunil hnull, hook_proc hu, hparent, moved]

/-- A node without a second child makes room for its only subtree. -/
theorem Focus.transplant (h : s.Focus path (.nodeOn d c t u .leaf)) :
    (s.rbTransplant u (t.entry s.nil)).Focus path t ∧
      s.KeepsData (s.rbTransplant u (t.entry s.nil)) ∧
      ((s.rbTransplant u (t.entry s.nil)).proc (t.entry s.nil)).parent = parentOf path ∧
      ((s.rbTransplant u (t.entry s.nil)).proc s.nil).color = (s.proc s.nil).color := by
  obtain ⟨hlinks, hsub, -⟩ := owns_nodeOn.mp h.subtree
  obtain ⟨hut, _, hupath, hunull, hunil⟩ := h.distinct
  have habove := h.above
  rw [RBTree.entry_nodeOn] at habove
  have hpathnode : ∀ k ∈ path.keys, k ≠ null ∧ k ≠ s.nil :=
    fun k hk => h.node k (RBPath.mem_toList_plug.mpr (.inr hk))
  have hnilpath : s.nil ∉ path.keys := fun hmem => (hpathnode _ hmem).2 rfl
  have htree : ∀ k ∈ t.toList, k ∈ (RBTree.nodeOn d c t u .leaf).toList :=
    fun k hk => RBTree.mem_toList_nodeOn.mpr (.inr (.inl hk))
  have hentry : t.entry s.nil ∉ path.keys := by
    by_cases ht : t = .leaf
    · rw [ht]
      exact hnilpath
    · exact h.notMem_keys (htree _ (RBTree.entry_mem _ ht))
  have hnodup := RBPath.nodup_toList_plug.mp h.down.nodup
  rw [rbTransplant_eq_moved habove hlinks.parent hupath hunil fun k hk => (hpathnode k hk).1]
  have hnil : (s.moved (t.entry s.nil) path).nil = s.nil := moved_keepsData.nil
  refine ⟨⟨?_, ?_, ?_, ?_⟩, moved_keepsData, by rw [moved_proc_self hentry], ?_⟩
  · refine hsub.reparent hnil hnodup.1 (fun _ => moved_proc_self hentry) fun k hk hne => ?_
    exact moved_proc_of_ne hne (h.notMem_keys (htree k hk))
  · rw [hnil]
    exact moved_ownsPath habove (RBPath.nodup_toList_plug.mp h.nodup).2.1 hentry
  · exact RBPath.nodup_toList_plug.mpr ⟨hnodup.1, (RBPath.nodup_toList_plug.mp h.nodup).2.1,
      fun k hk => h.notMem_keys (htree k hk)⟩
  · intro k hk
    rw [hnil]
    refine h.node k (RBPath.mem_toList_plug.mpr ?_)
    exact (RBPath.mem_toList_plug.mp hk).imp (htree k) id
  · by_cases ht : s.nil = t.entry s.nil
    · have hself := moved_proc_self (s := s) hentry
      rw [← ht] at hself ⊢
      rw [hself]
    · rw [moved_proc_of_ne ht hnilpath]

/-! ## The successor -/

/-- Every step of the path goes left. -/
def LeftMost (path : RBPath Ptr) : Prop := ∀ f ∈ path, f.side = .left

theorem LeftMost.before (h : LeftMost path) : path.before = [] := by
  induction path with
  | nil => rfl
  | cons f path ih =>
      rcases f with ⟨d, c, key, sibling⟩
      obtain rfl : d = .left := h _ List.mem_cons_self
      exact ih fun f hf => h f (List.mem_cons_of_mem _ hf)

/-- `treeMinimum` follows the left children down to a node without one. -/
theorem Focus.treeMinimum (h : s.Focus path t) (ht : t ≠ .leaf) (hsize : t.size ≤ loopFuel) :
    ∃ lpath c y r, s.treeMinimum (t.entry s.nil) = some y ∧ LeftMost lpath ∧
      t = lpath.plug (.node c .leaf y r) := by
  let inv (n : Nat) (x : Ptr) : Prop :=
    ∃ lpath t', s.Focus (lpath ++ path) t' ∧ t' ≠ .leaf ∧ x = t'.entry s.nil ∧ t'.size = n ∧
      LeftMost lpath ∧ t = lpath.plug t'
  have hstep : ∀ n x, inv n x → decide ((s.proc x).left ≠ s.nil) = true →
      ∃ m < n, inv m (s.proc x).left := by
    rintro n _ ⟨lpath, t', hfocus, hleaf, rfl, rfl, hleft, rfl⟩ hguard
    cases t' with
    | leaf => exact absurd rfl hleaf
    | node c l key r =>
        have hdown : s.Focus (⟨.left, c, key, r⟩ :: (lpath ++ path)) l := Focus.down hfocus
        have hl : (s.proc key).left = l.entry s.nil := hfocus.subtree.1.near
        rw [RBTree.entry_node, hl] at hguard ⊢
        refine ⟨l.size, ?_, ⟨.left, c, key, r⟩ :: lpath, l, hdown, ?_, rfl, rfl,
          List.forall_mem_cons.mpr ⟨rfl, hleft⟩, rfl⟩
        · rw [RBTree.size]
          omega
        · exact fun heq => of_decide_eq_true hguard (hdown.entry_eq_nil.mpr heq)
  obtain ⟨_, _, hrun, ⟨lpath, t', hfocus, hleaf, rfl, -, hleft, hplug⟩, hguard⟩ :=
    whileFuel_rule hstep ⟨[], t, h, ht, rfl, rfl, List.forall_mem_nil _, rfl⟩ hsize
  cases t' with
  | leaf => exact absurd rfl hleaf
  | node c l key r =>
      have hdown : s.Focus (⟨.left, c, key, r⟩ :: (lpath ++ path)) l := Focus.down hfocus
      have hl : (s.proc key).left = l.entry s.nil := hfocus.subtree.1.near
      obtain rfl := hdown.entry_eq_nil.mp (by simpa [hl] using hguard)
      exact ⟨lpath, c, key, r, hrun, hleft, hplug⟩

/-! ## Replacing a node by its successor -/

/-- The part of `rbDeleteSplice` that the two ways to detach `y` share. -/
def replaced (s : ProcTree) (z y : Ptr) : ProcTree :=
  let s := s.rbTransplant z y
  let s := s.setChild .left y (s.proc z).left
  let s := s.setParent (s.proc y).left y
  s.setColor y (s.proc z).color

/-- The structure `y` is ready to take the place of `z`: it holds the right subtree, and
`z` still holds the left one. -/
structure Ready (s : ProcTree) (path : RBPath Ptr) (c : Color) (l : RBTree Ptr) (z y : Ptr)
    (r : RBTree Ptr) : Prop where
  above : s.OwnsPath z path
  parent : (s.proc z).parent = parentOf path
  color : (s.proc z).color = c
  near : (s.proc z).left = l.entry s.nil
  left : s.Owns z l
  far : (s.proc y).right = r.entry s.nil
  right : s.Owns y r
  inner : l ≠ .leaf
  nodup : (path.plug (.node c l y r)).toList.Nodup
  node : ∀ k ∈ (path.plug (.node c l y r)).toList, k ≠ null ∧ k ≠ s.nil ∧ k ≠ z
  removed : z ≠ s.nil

/-- The structures of a ready node are different. -/
theorem Ready.distinct (h : s.Ready path c l z y r) :
    (y ∉ l.toList ∧ y ∉ r.toList) ∧ l.toList.Nodup ∧ (∀ k ∈ l.toList, k ∉ r.toList) ∧
      path.keys.Nodup ∧ y ∉ path.keys ∧ (∀ k ∈ l.toList, k ∉ path.keys) ∧
      (∀ k ∈ r.toList, k ∉ path.keys) ∧ z ∉ path.keys ∧ z ≠ y ∧ z ∉ l.toList := by
  obtain ⟨htree, hpath, hdisjoint⟩ := RBPath.nodup_toList_plug.mp h.nodup
  have hz : z ∉ (path.plug (.node c l y r)).toList := fun hmem => (h.node z hmem).2.2 rfl
  simp only [RBTree.toList, List.nodup_cons, List.nodup_append'] at htree
  simp only [RBPath.mem_toList_plug, RBTree.toList, List.mem_append, List.mem_cons, not_or] at hz
  refine ⟨⟨fun hy => htree.2.2 hy List.mem_cons_self, htree.2.1.1⟩, htree.1,
    fun k hk hr => htree.2.2 hk (List.mem_cons_of_mem y hr), hpath, ?_, ?_, ?_, hz.2, hz.1.2.1,
    hz.1.1⟩
  · exact hdisjoint y (by simp [RBTree.toList])
  · exact fun k hk => hdisjoint k (by simp [RBTree.toList, hk])
  · exact fun k hk => hdisjoint k (by simp [RBTree.toList, hk])

theorem Ready.rbTransplant (h : s.Ready path c l z y r) :
    s.rbTransplant z y = s.moved y path :=
  rbTransplant_eq_moved h.above h.parent h.distinct.2.2.2.2.2.2.2.1 h.removed
    fun k hk => (h.node k (RBPath.mem_toList_plug.mpr (.inr hk))).1

/-- The assignments of the replacement, with what they read. -/
theorem Ready.replaced_eq (h : s.Ready path c l z y r) :
    s.replaced z y = ((((s.moved y path).setChild .left y (l.entry s.nil)).setParent
      (l.entry s.nil) y).setColor y c) := by
  obtain ⟨⟨hyl, -⟩, -, -, -, -, -, -, hzpath, hzy, hzl⟩ := h.distinct
  have hlmem := RBTree.entry_mem s.nil h.inner
  have hzl' : z ≠ l.entry s.nil := fun heq => hzl (heq ▸ hlmem)
  have hread : ((s.moved y path).proc z).left = l.entry s.nil := by
    rw [moved_proc_of_ne hzy hzpath, h.near]
  have hleft : (((s.moved y path).setChild .left y (l.entry s.nil)).proc y).left =
      l.entry s.nil := by
    rw [modify_proc_self]
    rfl
  have hcolor : ((((s.moved y path).setChild .left y (l.entry s.nil)).setParent
      (l.entry s.nil) y).proc z).color = c := by
    rw [modify_proc_of_ne _ _ hzl', modify_proc_of_ne _ _ hzy, moved_proc_of_ne hzy hzpath,
      h.color]
  unfold replaced
  simp only [h.rbTransplant, hread, hleft, hcolor]

/-- The successor takes the place of the node. -/
theorem Ready.replaced (h : s.Ready path c l z y r) :
    (s.replaced z y).Focus path (.node c l y r) ∧ s.Keeps (s.replaced z y) := by
  obtain ⟨⟨hyl, hyr⟩, hlnodup, hlr, hpath, hypath, hlpath, hrpath, -⟩ := h.distinct
  have hlmem := RBTree.entry_mem s.nil h.inner
  have hyl' : y ≠ l.entry s.nil := fun heq => hyl (heq ▸ hlmem)
  rw [h.replaced_eq]
  have hother : ∀ k, k ≠ y → k ≠ l.entry s.nil → k ∉ path.keys →
      (((((s.moved y path).setChild .left y (l.entry s.nil)).setParent
        (l.entry s.nil) y).setColor y c)).proc k = s.proc k := by
    intro k hky hkl hk
    rw [modify_proc_of_ne _ _ hky, modify_proc_of_ne _ _ hkl, modify_proc_of_ne _ _ hky,
      moved_proc_of_ne hky hk]
  have hnil : (((((s.moved y path).setChild .left y (l.entry s.nil)).setParent
      (l.entry s.nil) y).setColor y c)).nil = s.nil := moved_keepsData.nil
  refine ⟨⟨⟨?_, ?_, ?_⟩, ?_, h.nodup, fun k hk => ?_⟩, ⟨hnil, fun k => ?_⟩, ?_⟩
  · rw [modify_proc_self, modify_proc_of_ne _ _ hyl', modify_proc_self, moved_proc_self hypath,
      hnil]
    exact ⟨rfl, rfl, rfl, h.far⟩
  · refine h.left.reparent hnil hlnodup (fun _ => ?_) fun k hk hne => ?_
    · rw [modify_proc_of_ne _ _ hyl'.symm, modify_proc_self, modify_proc_of_ne _ _ hyl'.symm,
        moved_proc_of_ne hyl'.symm (hlpath _ hlmem)]
    · exact hother k (fun heq => hyl (heq ▸ hk)) hne (hlpath k hk)
  · refine h.right.congr hnil fun k hk => hother k (fun heq => hyr (heq ▸ hk)) ?_ (hrpath k hk)
    exact fun heq => hlr _ hlmem (heq ▸ hk)
  · rw [RBTree.entry_node]
    refine (moved_ownsPath h.above hpath hypath).congr rfl rfl fun k hk => ?_
    have hky : k ≠ y := fun heq => hypath (heq ▸ hk)
    have hkl : k ≠ l.entry s.nil := fun heq => hlpath _ hlmem (heq ▸ hk)
    rw [modify_proc_of_ne _ _ hky, modify_proc_of_ne _ _ hkl, modify_proc_of_ne _ _ hky]
  · rw [hnil]
    exact ⟨(h.node k hk).1, (h.node k hk).2.1⟩
  · rw [data_setColor, data_setParent, data_setChild]
    exact moved_keepsData.data k
  · have hnode : ∀ k ∈ (path.plug (.node c l y r)).toList, s.nil ≠ k :=
      fun k hk => (h.node k hk).2.1.symm
    refine hother _ (hnode y ?_) (hnode _ ?_) fun hmem => ?_
    · simp [RBPath.mem_toList_plug, RBTree.toList]
    · simp [RBPath.mem_toList_plug, RBTree.toList, hlmem]
    · exact hnode _ (RBPath.mem_toList_plug.mpr (.inr hmem)) rfl

/-! ## The two ways to detach the successor -/

/-- Without its successor `y`, and with `y` in the place of `z`, the tree lacks `z`. -/
theorem toList_splice (path : RBPath Ptr) (c c' : Color) (l t : RBTree Ptr) (z y : Ptr)
    (hleft : LeftMost lpath) :
    (path.plug (.node c l z (lpath.plug (.node c' .leaf y t)))).toList =
        path.before ++ l.toList ++ z :: (y :: (lpath.plug t).toList ++ path.after) ∧
      (path.plug (.node c l y (lpath.plug t))).toList =
        path.before ++ l.toList ++ (y :: (lpath.plug t).toList ++ path.after) := by
  simp [RBPath.toList_plug, RBTree.toList, hleft.before]

/-- Whatever lies beside the right subtree of a node is not in it. -/
theorem Focus.notMem_right (h : s.Focus path (.node c l z r))
    (hk : k = z ∨ k ∈ l.toList ∨ k ∈ path.keys) :
    k ∉ r.toList ∧ k ∈ (path.plug (.node c l z r)).toList := by
  have hnode : s.Focus path (.nodeOn .right c r z l) := h
  have hwhole : k ∈ (path.plug (.node c l z r)).toList := by
    simp only [RBPath.mem_toList_plug, RBTree.toList, List.mem_append, List.mem_cons]
    tauto
  refine ⟨fun hkr => ?_, hwhole⟩
  refine hnode.down.notMem_keys hkr ?_
  simp only [RBPath.keys, List.mem_cons, List.mem_append]
  exact hk

/-- What makes `y` ready, when the memory beside the right subtree is untouched. -/
theorem Focus.ready (h : s.Focus path (.node c l z far)) (hl : l ≠ .leaf)
    (hnil : s'.nil = s.nil) (hroot : s'.root = s.root)
    (hproc : ∀ k, k = z ∨ k ∈ l.toList ∨ k ∈ path.keys → s'.proc k = s.proc k)
    (hfar : (s'.proc y).right = r.entry s.nil) (hright : s'.Owns y r)
    (hnodup : (path.plug (.node c l y r)).toList.Nodup)
    (hnode : ∀ k ∈ (path.plug (.node c l y r)).toList, k ≠ null ∧ k ≠ s.nil ∧ k ≠ z) :
    s'.Ready path c l z y r := by
  obtain ⟨hlinks, hleft, -⟩ := h.subtree
  have hz : s'.proc z = s.proc z := hproc z (.inl rfl)
  refine ⟨?_, hz ▸ hlinks.parent, hz ▸ hlinks.color, ?_, ?_, hnil ▸ hfar, hright, hl, hnodup,
    hnil ▸ hnode, ?_⟩
  · have habove : s.OwnsPath z path := h.above
    exact habove.congr hnil hroot fun k hk => hproc k (.inr (.inr hk))
  · rw [hz, hnil]
    exact hlinks.near
  · exact hleft.congr hnil fun k hk => hproc k (.inr (.inl hk))
  · rw [hnil]
    exact h.ne_nil (h.notMem_right (.inl rfl)).2

/-- The successor is the right child: it keeps its own right subtree. -/
theorem Focus.ready_child (h : s.Focus path (.node c l z (.node c' .leaf y t)))
    (hl : l ≠ .leaf) (hnodup : (path.plug (.node c l y t)).toList.Nodup)
    (hnode : ∀ k ∈ (path.plug (.node c l y t)).toList, k ≠ null ∧ k ≠ s.nil ∧ k ≠ z) :
    (s.setParent (t.entry s.nil) y).Ready path c l z y t := by
  have hright : s.Focus path (.nodeOn .right c (.nodeOn .right c' t y .leaf) z l) := h
  have hy := hright.down
  have hyt : y ≠ t.entry s.nil :=
    hy.ne_entry (RBPath.mem_toList_plug.mpr (.inl (by simp [RBTree.mem_toList_nodeOn])))
      hy.distinct.1
  refine h.ready hl rfl rfl (fun k hk => ?_) ?_ ?_ hnodup hnode
  · obtain ⟨hkr, hkwhole⟩ := h.notMem_right hk
    exact modify_proc_of_ne _ _ (h.ne_entry hkwhole fun hkt => hkr (by simp [RBTree.toList, hkt]))
  · rw [modify_proc_of_ne _ _ hyt]
    exact hy.links.near
  · refine hy.down.subtree.reparent rfl (RBPath.nodup_toList_plug.mp hy.down.nodup).1
      (fun _ => modify_proc_self ..) fun k _ hne => modify_proc_of_ne _ _ hne

/-- The successor lies deeper: its right subtree takes its place, and it takes over the
right subtree of `z`. -/
theorem Focus.ready_detached (h : s.Focus path (.node c l z r)) (hl : l ≠ .leaf)
    (hr : r ≠ .leaf) (hnodup : (path.plug (.node c l y r)).toList.Nodup)
    (hnode : ∀ k ∈ (path.plug (.node c l y r)).toList, k ≠ null ∧ k ≠ s.nil ∧ k ≠ z)
    (hy : y ∉ (path.plug (.node c l z r)).toList) :
    ((s.setChild .right y (r.entry s.nil)).setParent (r.entry s.nil) y).Ready path c l z y r := by
  have hright : s.Focus path (.nodeOn .right c r z l) := h
  have hrmem := RBTree.entry_mem s.nil hr
  have hrwhole : ∀ k ∈ r.toList, k ∈ (path.plug (.node c l z r)).toList :=
    fun k hk => RBPath.mem_toList_plug.mpr (.inl (by simp [RBTree.toList, hk]))
  have hyr : y ≠ r.entry s.nil := fun heq => hy (heq ▸ hrwhole _ hrmem)
  refine h.ready hl rfl rfl (fun k hk => ?_) ?_ ?_ hnodup hnode
  · obtain ⟨hkr, hkwhole⟩ := h.notMem_right hk
    have hkentry : k ≠ r.entry s.nil := fun heq => hkr (heq ▸ hrmem)
    have hky : k ≠ y := fun heq => hy (heq ▸ hkwhole)
    rw [modify_proc_of_ne _ _ hkentry, modify_proc_of_ne _ _ hky]
  · rw [modify_proc_of_ne _ _ hyr, modify_proc_self]
    rfl
  · have hky : ∀ k ∈ r.toList, k ≠ y := fun k hk heq => hy (heq ▸ hrwhole k hk)
    refine hright.down.subtree.reparent rfl (RBPath.nodup_toList_plug.mp hright.down.nodup).1
      (fun _ => ?_) fun k hk hne => ?_
    · rw [modify_proc_self, modify_proc_of_ne _ _ (hky _ hrmem)]
    · rw [modify_proc_of_ne _ _ hne, modify_proc_of_ne _ _ (hky k hk)]

/-! ## Taking a node out -/

/-- The state before the fix-up: `z` is out of the tree, the subtree at `x` stands where a
node of colour `c` was taken away, and `x` knows its parent. -/
structure Unlinked (s : ProcTree) (whole : RBTree Ptr) (z : Ptr) (s' : ProcTree) (x : Ptr)
    (c : Color) (path : RBPath Ptr) (t : RBTree Ptr) : Prop where
  focus : s'.Focus path t
  entry : t.entry s'.nil = x
  parent : (s'.proc x).parent = parentOf path
  sentinel : (s'.proc s'.nil).color = .black
  keeps : s.KeepsData s'
  red : c = .red → ∃ m, (path.plug t).Balanced .black m
  black : c = .black → ∃ m, t.Short m ∧ path.Accepts .black (m + 1)
  removed : ∃ before after, whole.toList = before ++ z :: after ∧
    (path.plug t).toList = before ++ after

/-- A node that lacks a child is replaced by the other one. -/
theorem Sound.unlink_half (h : s.Sound (path.plug (.nodeOn d c t z .leaf)))
    (hfocus : s.Focus path (.nodeOn d c t z .leaf)) :
    s.Unlinked (path.plug (.nodeOn d c t z .leaf)) z (s.rbTransplant z (t.entry s.nil))
      (t.entry s.nil) c path t := by
  obtain ⟨hfocus', hkeeps, hparent, hcolor⟩ := hfocus.transplant
  obtain ⟨m, hbalanced⟩ := h.balanced
  obtain ⟨c', n, hnode, haccepts⟩ := RBPath.Accepts.of_plug hbalanced
  obtain ⟨hred, hblack⟩ := haccepts.remove hnode
  refine ⟨hfocus', by rw [hkeeps.nil], hparent, ?_, hkeeps, hred, hblack, ?_⟩
  · rw [hkeeps.nil, hcolor]
    exact h.sentinel
  · cases d with
    | left =>
        exact ⟨path.before ++ t.toList, path.after, by simp [RBPath.toList_plug, RBTree.nodeOn,
          RBTree.toList], by simp [RBPath.toList_plug]⟩
    | right =>
        exact ⟨path.before, t.toList ++ path.after, by simp [RBPath.toList_plug, RBTree.nodeOn,
          RBTree.toList], by simp [RBPath.toList_plug]⟩

/-- The part of `rbDeleteSplice` that takes `y` from its place. -/
def detached (s : ProcTree) (z y : Ptr) : ProcTree :=
  if (s.proc y).parent = z then s.setParent (s.proc y).right y
  else
    let s := s.rbTransplant y (s.proc y).right
    let s := s.setChild .right y (s.proc z).right
    s.setParent (s.proc y).right y

theorem rbDeleteSplice_eq : s.rbDeleteSplice z =
    (s.treeMinimum (s.proc z).right).bind fun y =>
      some ((s.detached z y).replaced z y, (s.proc y).right, (s.proc y).color) := rfl

theorem Focus.detached_child (h : s.Focus path (.node c l z (.node c' .leaf y t)))
    (hl : l ≠ .leaf) (hnodup : (path.plug (.node c l y t)).toList.Nodup)
    (hnode : ∀ k ∈ (path.plug (.node c l y t)).toList, k ≠ null ∧ k ≠ s.nil ∧ k ≠ z) :
    (s.detached z y).Ready path c l z y t ∧ s.KeepsData (s.detached z y) ∧
      ((s.detached z y).proc s.nil).color = (s.proc s.nil).color ∧
      (t = .leaf → ((s.detached z y).proc s.nil).parent = y) := by
  have hright : s.Focus path (.nodeOn .right c (.nodeOn .right c' t y .leaf) z l) := h
  have hlinks := hright.down.links
  have hparent : (s.proc y).parent = z := hlinks.parent
  have hfar : (s.proc y).right = t.entry s.nil := hlinks.near
  have hdetached : s.detached z y = s.setParent (t.entry s.nil) y := by
    rw [detached, if_pos hparent, hfar]
  rw [hdetached]
  refine ⟨h.ready_child hl hnodup hnode, ⟨rfl, fun k => data_setParent ..⟩, ?_, ?_⟩
  · exact modify_proc_apply s _ _ _ Process.color rfl
  · rintro rfl
    rw [RBTree.entry, modify_proc_self]

theorem Focus.detached_deep {g : Frame Ptr}
    (h : s.Focus path (.node c l z (RBPath.plug (g :: lpath) (.node c' .leaf y t))))
    (hl : l ≠ .leaf)
    (hnodup : (path.plug (.node c l y (RBPath.plug (g :: lpath) t))).toList.Nodup)
    (hnode : ∀ k ∈ (path.plug (.node c l y (RBPath.plug (g :: lpath) t))).toList,
      k ≠ null ∧ k ≠ s.nil ∧ k ≠ z) :
    (s.detached z y).Ready path c l z y (RBPath.plug (g :: lpath) t) ∧
      s.KeepsData (s.detached z y) ∧
      ((s.detached z y).proc s.nil).color = (s.proc s.nil).color ∧
      (t = .leaf → ((s.detached z y).proc s.nil).parent = g.key) := by
  have hright : s.Focus path
      (.nodeOn .right c (RBPath.plug (g :: lpath) (.nodeOn .right c' t y .leaf)) z l) := h
  have hy : s.Focus ((g :: lpath) ++ ⟨.right, c, z, l⟩ :: path) (.nodeOn .right c' t y .leaf) :=
    hright.down.descend
  obtain ⟨hyt, -, hypath, -, hynil⟩ := hy.distinct
  have hfar : (s.proc y).right = t.entry s.nil := hy.links.near
  -- The successor is not the child of `z`, so it is replaced by its own child first.
  have hgz : (s.proc y).parent ≠ z := by
    rw [hy.links.parent]
    rintro heq
    refine (h.notMem_right (.inl rfl)).1 (RBPath.mem_toList_plug.mpr (.inr ?_))
    rw [← heq]
    exact List.mem_cons_self
  obtain ⟨htransplant, hkeeps, hparent, hcolor⟩ := hy.transplant
  rw [← hfar] at htransplant hkeeps hparent hcolor
  have hdetached : s.detached z y = _ := if_neg hgz
  generalize s.rbTransplant y (s.proc y).right = s₁ at *
  have hup : s₁.Focus path (.nodeOn .right c (RBPath.plug (g :: lpath) t) z l) :=
    htransplant.climb.up
  have hzright : (s₁.proc z).right = (RBPath.plug (g :: lpath) t).entry s₁.nil := hup.links.near
  have hleaf : RBPath.plug (g :: lpath) t ≠ .leaf := by
    rw [RBPath.plug]
    exact RBPath.plug_ne_leaf RBTree.nodeOn_ne_leaf
  have hyright : ((s₁.setChild .right y (s₁.proc z).right).proc y).right =
      (RBPath.plug (g :: lpath) t).entry s₁.nil := by
    rw [modify_proc_self, hzright]
    rfl
  simp only [hyright] at hdetached
  rw [hdetached, hzright]
  have hywhole : y ∉ (path.plug (.node c l z (RBPath.plug (g :: lpath) t))).toList := by
    have hplug : path.plug (.node c l z (RBPath.plug (g :: lpath) t)) =
        RBPath.plug ((g :: lpath) ++ ⟨.right, c, z, l⟩ :: path) t := by
      rw [RBPath.plug_append]
      rfl
    rw [hplug, RBPath.mem_toList_plug, not_or]
    exact ⟨hyt, hypath⟩
  -- The two writes behind that go to `y` and to a node, not to the sentinel.
  have hsentinel : (((s₁.setChild .right y ((RBPath.plug (g :: lpath) t).entry s₁.nil)).setParent
      ((RBPath.plug (g :: lpath) t).entry s₁.nil) y).proc s.nil) = s₁.proc s.nil := by
    have hentry : (RBPath.plug (g :: lpath) t).entry s₁.nil ≠ s₁.nil :=
      fun heq => hleaf (hup.down.entry_eq_nil.mp heq)
    rw [← hkeeps.nil, modify_proc_of_ne _ _ hentry.symm,
      modify_proc_of_ne _ _ (hkeeps.nil ▸ hynil.symm)]
  refine ⟨hup.ready_detached hl hleaf hnodup (hkeeps.nil ▸ hnode) hywhole,
    hkeeps.trans ⟨rfl, fun k => ?_⟩, ?_, ?_⟩
  · rw [data_setParent, data_setChild]
  · rw [hsentinel, hcolor]
  · rintro rfl
    rw [hsentinel, show s.nil = (s.proc y).right from hfar.symm, hparent]
    rfl

/-- A node with two children is replaced by its successor. -/
theorem Sound.unlink_splice (h : s.Sound (path.plug (.node c l z r)))
    (hsize : (path.plug (.node c l z r)).size ≤ 2 ^ 32) (hfocus : s.Focus path (.node c l z r))
    (hl : l ≠ .leaf) (hr : r ≠ .leaf) :
    ∃ s' x yc path' t', s.rbDeleteSplice z = some (s', x, yc) ∧
      s.Unlinked (path.plug (.node c l z r)) z s' x yc path' t' := by
  have hright : s.Focus path (.nodeOn .right c r z l) := hfocus
  have hfuel : r.size ≤ loopFuel := by
    have hle := RBPath.length_le_size_plug path (.node c l z r)
    rw [RBTree.size] at hle
    unfold loopFuel
    omega
  obtain ⟨lpath, c', y, t, hmin, hleft, rfl⟩ := hright.down.treeMinimum hr hfuel
  have hzright : (s.proc z).right = (lpath.plug (.node c' .leaf y t)).entry s.nil :=
    hright.links.near
  have hy : s.Focus (lpath ++ ⟨.right, c, z, l⟩ :: path) (.nodeOn .right c' t y .leaf) :=
    hright.down.descend
  obtain ⟨hbefore, hafter⟩ := toList_splice path c c' l t z y hleft
  have hsub : (path.plug (.node c l y (lpath.plug t))).toList.Sublist
      (path.plug (.node c l z (lpath.plug (.node c' .leaf y t)))).toList := by
    rw [hbefore, hafter]
    exact List.Sublist.append_left (List.sublist_cons_self ..) _
  have hnodup := hfocus.nodup.sublist hsub
  have hz : z ∉ (path.plug (.node c l y (lpath.plug t))).toList := by
    have := hfocus.nodup
    rw [hbefore, List.nodup_middle, List.nodup_cons] at this
    rw [hafter]
    exact this.1
  have hnode : ∀ k ∈ (path.plug (.node c l y (lpath.plug t))).toList,
      k ≠ null ∧ k ≠ s.nil ∧ k ≠ z := fun k hk =>
    ⟨(hfocus.node k (hsub.subset hk)).1, (hfocus.node k (hsub.subset hk)).2,
      fun heq => hz (heq ▸ hk)⟩
  -- The successor is the right child of `z`, or lies further down.
  have hdetached : (s.detached z y).Ready path c l z y (lpath.plug t) ∧
      s.KeepsData (s.detached z y) ∧
      ((s.detached z y).proc s.nil).color = (s.proc s.nil).color ∧
      (t = .leaf → ((s.detached z y).proc s.nil).parent =
        parentOf (lpath ++ ⟨.right, c, y, l⟩ :: path)) := by
    cases lpath with
    | nil => exact hfocus.detached_child hl hnodup hnode
    | cons g lpath => exact hfocus.detached_deep hl hnodup hnode
  obtain ⟨hready, hkeeps₁, hcolor, hhang⟩ := hdetached
  obtain ⟨hreplaced, hkeeps₂⟩ := hready.replaced
  have hkeeps := hkeeps₁.trans hkeeps₂.toKeepsData
  have hreplaced' : ((s.detached z y).replaced z y).Focus path
      (.nodeOn .right c (lpath.plug t) y l) := hreplaced
  have hfinal := hreplaced'.down.descend
  obtain ⟨m, hbalanced⟩ := h.balanced
  have hplug : path.plug (.node c l z (lpath.plug (.node c' .leaf y t))) =
      RBPath.plug (lpath ++ ⟨.right, c, z, l⟩ :: path) (.nodeOn .right c' t y .leaf) := by
    rw [RBPath.plug_append]
    rfl
  rw [hplug] at hbalanced
  -- What the tree may lack now is the colour that the successor had in its old place.
  obtain ⟨cy, n, hynode, haccepts⟩ := RBPath.Accepts.of_plug hbalanced
  obtain ⟨hred, hblack⟩ := (haccepts.rekey y).remove hynode
  refine ⟨_, t.entry s.nil, c', lpath ++ ⟨.right, c, y, l⟩ :: path, t, ?_, hfinal,
    by rw [hkeeps.nil], ?_, ?_, hkeeps, hred, hblack, path.before ++ l.toList,
    y :: (lpath.plug t).toList ++ path.after, hbefore, ?_⟩
  · have hfar : (s.proc y).right = t.entry s.nil := hy.links.near
    have hcy : (s.proc y).color = c' := hy.links.color
    rw [rbDeleteSplice_eq, hzright, hmin, Option.bind_some, hfar, hcy]
  · by_cases ht : t = .leaf
    · rw [ht, RBTree.entry, ← hkeeps₁.nil, hkeeps₂.sentinel, hkeeps₁.nil]
      exact hhang ht
    · rw [← hkeeps.nil]
      exact hfinal.parent_entry ht
  · rw [hkeeps₂.nil, hkeeps₂.sentinel, hkeeps₁.nil, hcolor]
    exact h.sentinel
  · rw [RBPath.plug_append]
    exact hafter

/-- The node `z` is gone, and everything else is as before. -/
structure Deleted (s : ProcTree) (whole : RBTree Ptr) (z : Ptr) (s' : ProcTree)
    (whole' : RBTree Ptr) : Prop where
  valid : s'.Valid whole'
  keeps : s.KeepsData s'
  removed : ∃ before after, whole.toList = before ++ z :: after ∧
    whole'.toList = before ++ after

theorem Unlinked.rootParent {yc : Color} (h : s.Unlinked whole z s' x yc path t) :
    (s'.proc s'.root).parent = null := by
  rw [h.focus.zoomOut.above]
  by_cases hpath : path = []
  · subst hpath
    exact (congrArg (fun p => (s'.proc p).parent) h.entry).trans h.parent
  · refine h.focus.zoomOut.parent_entry fun hleaf => ?_
    have hmem := RBPath.entry_plug_mem s'.nil t hpath
    rw [hleaf] at hmem
    exact h.focus.ne_nil (RBPath.mem_toList_plug.mpr (.inr hmem)) rfl

/-- The same for a tree whose ids may repeat. -/
structure TakenOut (s : ProcTree) (whole : RBTree Ptr) (z : Ptr) (s' : ProcTree)
    (whole' : RBTree Ptr) : Prop where
  sound : s'.Sound whole'
  keeps : s.KeepsData s'
  removed : ∃ before after, whole.toList = before ++ z :: after ∧
    whole'.toList = before ++ after

/-- An order of the structures outlives the removal of one of them. -/
theorem pairwise_of_removed {whole' : RBTree Ptr} {r : Ptr → Ptr → Prop}
    (h : ∃ before after, whole.toList = before ++ z :: after ∧ whole'.toList = before ++ after)
    (hpairs : whole.toList.Pairwise r) : whole'.toList.Pairwise r := by
  obtain ⟨before, after, hwhole, hlist⟩ := h
  rw [hlist]
  rw [hwhole] at hpairs
  exact hpairs.sublist (List.Sublist.append_left (List.sublist_cons_self ..) _)

theorem TakenOut.deleted {whole' : RBTree Ptr} (h : s.TakenOut whole z s' whole')
    (hsorted : RBPath.Sorted s.rank whole.toList) : s.Deleted whole z s' whole' := by
  refine ⟨h.sound.valid ?_, h.keeps, h.removed⟩
  rw [h.keeps.rank]
  exact pairwise_of_removed h.removed hsorted

/-- Where a black node was taken away, the subtree at `x` is short of one. -/
theorem Unlinked.deficit (h : s.Unlinked whole z s' x .black path t) :
    ∃ m, s'.Deficit x path t m := by
  obtain ⟨m, hshort, haccepts⟩ := h.black rfl
  exact ⟨m, h.focus, h.entry, h.parent, hshort, haccepts, h.sentinel⟩

/-- The fix-up is called exactly when a black node was taken away. -/
theorem Unlinked.finish {yc : Color} (h : s.Unlinked whole z s' x yc path t)
    (hwhole : s.Sound whole) (hsize : whole.size ≤ 2 ^ 32) :
    ∃ s'' whole', (if yc = .black then s'.rbDeleteFixup x else some s') = some s'' ∧
      s.TakenOut whole z s'' whole' := by
  have hsorted : RBPath.Ascending s'.rank (path.plug t).toList := by
    rw [h.keeps.rank]
    exact pairwise_of_removed h.removed hwhole.ascending
  cases yc with
  | red =>
      exact ⟨s', path.plug t, if_neg nofun, ⟨h.focus.zoomOut, h.sentinel, hsorted, h.red rfl,
        h.rootParent⟩, h.keeps, h.removed⟩
  | black =>
      obtain ⟨m, hdeficit⟩ := h.deficit
      have hlength : path.length ≤ loopFuel := by
        have hplug := RBPath.length_le_size_plug path t
        have hfewer : (path.plug t).size < whole.size := by
          obtain ⟨before, after, hbefore, hafter⟩ := h.removed
          rw [← RBTree.length_toList, ← RBTree.length_toList, hbefore, hafter]
          simp
        unfold loopFuel
        omega
      obtain ⟨s'', whole', hrun, hlayout, hbalanced, hlist', hkeeps⟩ :=
        hdeficit.rbDeleteFixup hlength
      refine ⟨s'', whole', (if_pos rfl).trans hrun, ⟨hlayout, ?_, ?_, hbalanced, ?_⟩,
        h.keeps.trans hkeeps.toKeepsData, ?_⟩
      · rw [hkeeps.nil, hkeeps.sentinel]
        exact h.sentinel
      · rw [hkeeps.rank, hlist']
        exact hsorted
      · -- The fix-up does not touch the sentinel, which is the root of an empty tree.
        by_cases hleaf : whole' = .leaf
        · have hempty : path.plug t = .leaf := by
            rw [hleaf] at hlist'
            cases hplug : path.plug t with
            | leaf => rfl
            | node c l key r => simp [hplug, RBTree.toList] at hlist'
          have hroot' : s''.root = s''.nil := by rw [hlayout.above, hleaf, RBTree.entry]
          have hroot : s'.root = s'.nil := by rw [h.focus.zoomOut.above, hempty, RBTree.entry]
          rw [hroot', hkeeps.nil, hkeeps.sentinel, ← hroot]
          exact h.rootParent
        · rw [hlayout.above]
          exact hlayout.parent_entry hleaf
      · rw [hlist']
        exact h.removed

/-- The first part of `rbUnlink`, up to the fix-up. -/
def rbUnlinkFirst (s : ProcTree) (z : Ptr) : Option (ProcTree × Ptr × Color) :=
  if (s.proc z).left = s.nil then
    some (s.rbTransplant z (s.proc z).right, (s.proc z).right, (s.proc z).color)
  else if (s.proc z).right = s.nil then
    some (s.rbTransplant z (s.proc z).left, (s.proc z).left, (s.proc z).color)
  else s.rbDeleteSplice z

/-- `rbUnlink`, with what is done to the tree at its end. -/
def rbUnlinkBy (fixup : ProcTree → Ptr → Option ProcTree) (s : ProcTree) (z : Ptr) :
    Option ProcTree := do
  let (s, x, yOriginalColor) ← s.rbUnlinkFirst z
  if yOriginalColor = .black then fixup s x else some s

theorem rbUnlink_eq_by (s : ProcTree) (z : Ptr) :
    s.rbUnlink z = s.rbUnlinkBy rbDeleteFixup z := by
  unfold ProcTree.rbUnlink rbUnlinkBy rbUnlinkFirst
  split_ifs <;> rfl

/-- The structure that was found is taken out, whatever its children are. -/
theorem Sound.unlink (h : s.Sound (path.plug (.node c l z r)))
    (hsize : (path.plug (.node c l z r)).size ≤ 2 ^ 32)
    (hfocus : s.Focus path (.node c l z r)) :
    ∃ s' x yc path' t', s.rbUnlinkFirst z = some (s', x, yc) ∧
      s.Unlinked (path.plug (.node c l z r)) z s' x yc path' t' := by
  have hright : s.Focus path (.nodeOn .right c r z l) := hfocus
  have hnear : (s.proc z).left = l.entry s.nil := hright.links.far
  have hfar : (s.proc z).right = r.entry s.nil := hright.links.near
  have hcolor : (s.proc z).color = c := hright.links.color
  unfold rbUnlinkFirst
  by_cases hl : l = .leaf
  · subst hl
    rw [if_pos (show (s.proc z).left = s.nil from hnear), hfar, hcolor]
    exact ⟨_, _, _, _, _, rfl, h.unlink_half (d := .right) hright⟩
  · have hl' : l.entry s.nil ≠ s.nil := fun heq => hl (hright.down.across.entry_eq_nil.mp heq)
    by_cases hr : r = .leaf
    · subst hr
      rw [hnear, if_neg hl', if_pos (show (s.proc z).right = s.nil from hfar), hcolor]
      exact ⟨_, _, _, _, _, rfl, h.unlink_half (d := .left) hfocus⟩
    · have hr' : r.entry s.nil ≠ s.nil := fun heq => hr (hright.down.entry_eq_nil.mp heq)
      rw [hnear, if_neg hl', hfar, if_neg hr']
      exact h.unlink_splice hsize hfocus hl hr

/-- The part of `rbDelete` after the search takes out the structure that was found. -/
theorem Sound.rbUnlink (h : s.Sound (path.plug (.node c l z r)))
    (hsize : (path.plug (.node c l z r)).size ≤ 2 ^ 32)
    (hfocus : s.Focus path (.node c l z r)) :
    ∃ s' whole', s.rbUnlink z = some s' ∧
      s.TakenOut (path.plug (.node c l z r)) z s' whole' := by
  obtain ⟨s₁, x, yc, path', t', hfirst, hunlinked⟩ := h.unlink hsize hfocus
  obtain ⟨s', whole', hrun, htaken⟩ := hunlinked.finish h hsize
  refine ⟨s', whole', ?_, htaken⟩
  rw [rbUnlink_eq_by, rbUnlinkBy, hfirst]
  exact hrun

/-! ## `rbDelete` -/

variable {stackStart : Ptr → Ptr} {pid : Word}

/-- Deleting an id that is not in the tree changes nothing. -/
theorem Sound.rbDelete_absent (h : s.Sound whole) (hsize : whole.size ≤ 2 ^ 32)
    (hpid : ∀ p ∈ whole.toList, (s.proc p).pid ≠ pid) :
    s.rbSearch pid = some s.nil ∧ s.rbDelete stackStart pid = some (s, []) := by
  obtain ⟨path, t, hcursor, hsearch, hfound⟩ := h.rbSearch hsize pid
  have ht : t = .leaf := by
    by_contra ht
    refine hpid _ ?_ (hfound ht)
    rw [← hcursor.plug]
    exact RBPath.mem_toList_plug.mpr (.inl (RBTree.entry_mem _ ht))
  subst ht
  refine ⟨hsearch, ?_⟩
  unfold ProcTree.rbDelete
  rw [hsearch]
  exact if_pos rfl

/-- Deleting an id that is in the tree takes out a structure with this id, and releases the
memory of the structure, of its first thread and of the stack of this thread. -/
theorem Sound.rbDelete_present (stackStart : Ptr → Ptr) (h : s.Sound whole)
    (hsize : whole.size ≤ 2 ^ 32) (hpid : ∃ p ∈ whole.toList, (s.proc p).pid = pid) :
    ∃ z s' whole', z ∈ whole.toList ∧ (s.proc z).pid = pid ∧ s.rbSearch pid = some z ∧
      s.rbDelete stackStart pid =
        some (s', [stackStart (s.proc z).headThread, (s.proc z).headThread, z]) ∧
      s.TakenOut whole z s' whole' := by
  obtain ⟨p, hp, hppid⟩ := hpid
  obtain ⟨path, t, ⟨hfocus, rfl, hleads⟩, hsearch, hfound⟩ := h.rbSearch hsize pid
  cases t with
  | leaf =>
      refine absurd ?_ (hleads.rank_ne h.ascending p hp)
      rw [← hppid]
      rfl
  | node c l z r =>
      have hz : z ∈ (path.plug (.node c l z r)).toList :=
        RBPath.mem_toList_plug.mpr (.inl (by simp [RBTree.toList]))
      obtain ⟨s', whole', hrun, htaken⟩ := h.rbUnlink hsize hfocus
      refine ⟨z, s', whole', hz, hfound (fun hleaf => by cases hleaf), hsearch, ?_, htaken⟩
      have hnil : z ≠ s.nil := by
        intro heq
        cases hfocus.entry_eq_nil.mp heq
      unfold ProcTree.rbDelete
      rw [hsearch]
      simp only [RBTree.entry_node, Option.bind_eq_bind, Option.bind_some, if_neg hnil, hrun]
      have hthread : (s'.proc z).headThread = (s.proc z).headThread :=
        congrArg (fun x => x.2.2.2.1) (htaken.keeps.data z)
      rw [hthread]
      rfl

theorem Valid.rbDelete_absent (h : s.Valid whole)
    (hpid : ∀ p ∈ whole.toList, (s.proc p).pid ≠ pid) :
    s.rbDelete stackStart pid = some (s, []) :=
  (h.sound.rbDelete_absent h.size_le hpid).2

theorem Valid.rbDelete_present (h : s.Valid whole) (hz : z ∈ whole.toList)
    (hpid : (s.proc z).pid = pid) :
    ∃ s' whole', s.rbDelete stackStart pid =
        some (s', [stackStart (s.proc z).headThread, (s.proc z).headThread, z]) ∧
      s.Deleted whole z s' whole' := by
  obtain ⟨z', s', whole', hz', hpid', -, hrun, htaken⟩ :=
    h.sound.rbDelete_present stackStart h.size_le ⟨z, hz, hpid⟩
  obtain rfl : z' = z := h.eq_of_pid hz' hz (hpid'.trans hpid.symm)
  exact ⟨s', whole', hrun, htaken.deleted h.sorted⟩

end ProcTree

end Senob.Sys
