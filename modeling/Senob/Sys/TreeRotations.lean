import Senob.Sys.TreeLayout

/-!
# Rotations and their inverses

A rotation of one node and the opposite one of its new parent. Both turn the layout, and the layout
determines the pointers of its structures, so the second takes back what the first has done.
-/

namespace Senob.Sys

open Senob.Foundation

attribute [ext] Process ProcTree

/-- The links of a structure and its data are all of its fields. -/
theorem Process.Links.eq {x x' : Process} {par near far : Ptr} {c : Color}
    (h : x.Links par c .left near far) (h' : x'.Links par c .left near far)
    (hdata : x'.data = x.data) : x' = x := by
  obtain ⟨hpid, hdirectory, huser, hhead, htail⟩ : _ ∧ _ ∧ _ ∧ _ ∧ _ := by
    simpa [Process.data] using hdata
  apply Process.ext
  · exact hpid
  · exact hdirectory
  · exact huser
  · exact h'.color.trans h.color.symm
  · exact h'.parent.trans h.parent.symm
  · exact h'.near.trans h.near.symm
  · exact h'.far.trans h.far.symm
  · exact hhead
  · exact htail

namespace ProcTree

variable {s s' : ProcTree} {k par x y : Ptr} {d : Side} {cx cy : Color}
  {t a b e : RBTree Ptr} {path : RBPath Ptr}

/-! ## What a layout determines -/

theorem Owns.proc_eq (h : s.Owns par t) (h' : s'.Owns par t) (hkeeps : s.KeepsData s')
    (hk : k ∈ t.toList) : s'.proc k = s.proc k := by
  induction t generalizing par with
  | leaf => exact absurd hk List.not_mem_nil
  | node c l key r ihl ihr =>
      obtain ⟨hlinks, hl, hr⟩ := h
      obtain ⟨hlinks', hl', hr'⟩ := h'
      rw [RBTree.toList, List.mem_append, List.mem_cons] at hk
      rcases hk with hk | rfl | hk
      · exact ihl hl hl' hk
      · rw [hkeeps.nil] at hlinks'
        exact hlinks.eq hlinks' (hkeeps.data k)
      · exact ihr hr hr' hk

/-- Two states with one layout are the same if they agree outside of it. -/
theorem Focus.ext (h : s.Focus path t) (h' : s'.Focus path t) (hkeeps : s.KeepsData s')
    (houtside : ∀ k, k ∉ (path.plug t).toList → s'.proc k = s.proc k) : s' = s := by
  apply ProcTree.ext
  · funext k
    by_cases hk : k ∈ (path.plug t).toList
    · exact h.zoomOut.subtree.proc_eq h'.zoomOut.subtree hkeeps hk
    · exact houtside k hk
  · have hroot : s'.root = (path.plug t).entry s'.nil := h'.zoomOut.above
    rw [hroot, hkeeps.nil]
    exact h.zoomOut.above.symm
  · exact hkeeps.nil

/-- Every node of the tree can be brought into focus. -/
theorem Focus.exists_focus (h : s.Focus path t) (hx : x ∈ t.toList) :
    ∃ path' c l r, s.Focus path' (.node c l x r) ∧ path'.plug (.node c l x r) = path.plug t := by
  induction t generalizing path with
  | leaf => exact absurd hx List.not_mem_nil
  | node c l key r ihl ihr =>
      rw [RBTree.toList, List.mem_append, List.mem_cons] at hx
      rcases hx with hx | rfl | hx
      · have hleft : s.Focus path (.nodeOn .left c l key r) := h
        exact ihl hleft.down hx
      · exact ⟨path, c, l, r, h, rfl⟩
      · have hright : s.Focus path (.nodeOn .right c r key l) := h
        exact ihr hright.down hx

/-! ## There and back -/

/-- A rotation changes structures of the tree only. -/
theorem Focus.rotate_proc_of_notMem
    (h : s.Focus path (.nodeOn d cx a x (.nodeOn d cy b y e)))
    (hk : k ∉ (path.plug (.nodeOn d cx a x (.nodeOn d cy b y e))).toList) :
    (s.rotate d x).proc k = s.proc k := by
  simp only [RBPath.mem_toList_plug, RBTree.mem_toList_nodeOn, not_or] at hk
  obtain ⟨⟨hkx, -, hky, hkb, -⟩, hkpath⟩ := hk
  rw [h.rotate_eq_turned, turned_proc hkx hky hkpath]
  by_cases hb : b = .leaf
  · -- The middle subtree is empty, and the sentinel is no one's child.
    subst hb
    have hnone : ¬ RBTree.entry s.nil (.leaf : RBTree Ptr) ≠ s.nil := not_not_intro rfl
    rw [adopt, if_neg hnone]
  · apply adopt_proc_of_ne
    rintro rfl
    exact hkb (RBTree.entry_mem s.nil hb)

/-- The opposite rotation of the new parent leads back. -/
theorem Focus.rotate_rotate (h : s.Focus path (.nodeOn d cx a x (.nodeOn d cy b y e))) :
    (s.rotate d x).rotate d.other y = s := by
  obtain ⟨hturned, hkeeps⟩ := h.rotate
  have hmirror : (s.rotate d x).Focus path
      (.nodeOn d.other cy e y (.nodeOn d.other cx b x a)) := by
    rwa [RBTree.nodeOn_other, RBTree.nodeOn_other]
  obtain ⟨hback, hkeeps'⟩ := hmirror.rotate
  rw [RBTree.nodeOn_other, RBTree.nodeOn_other] at hback
  refine h.ext hback (hkeeps.trans hkeeps').toKeepsData fun k hk => ?_
  have hk' : k ∉ (path.plug (.nodeOn d.other cy e y (.nodeOn d.other cx b x a))).toList := by
    rw [RBTree.nodeOn_other, RBTree.nodeOn_other,
      ← RBPath.toList_plug_congr path (RBTree.toList_rotate d cx cy cy cx a b e x y)]
    exact hk
  rw [hmirror.rotate_proc_of_notMem hk', h.rotate_proc_of_notMem hk]

/-- For every tree whose links are consistent and every node with a right child, `leftRotate` leaves
such a tree with the same nodes in the same order and does not touch the sentinel, and
`rightRotate` of the new parent gives back the state before it. -/
theorem leftRotate_rightRotate (h : s.Focus [] t) (hx : x ∈ t.toList)
    (hright : (s.proc x).right ≠ s.nil) :
    (∃ t', (s.leftRotate x).Focus [] t' ∧ t'.toList = t.toList) ∧
      (s.leftRotate x).nil = s.nil ∧ (s.leftRotate x).proc s.nil = s.proc s.nil ∧
      (s.leftRotate x).rightRotate ((s.leftRotate x).proc x).parent = s := by
  obtain ⟨path, c, a, r, hfocus, hplug⟩ := h.exists_focus hx
  have hnode : s.Focus path (.nodeOn .left c a x r) := hfocus
  cases r with
  | leaf => exact absurd hnode.links.far hright
  | node cy b y e =>
      have hdeep : s.Focus path (.nodeOn .left c a x (.nodeOn .left cy b y e)) := hfocus
      obtain ⟨hturned, hkeeps⟩ := hdeep.rotate
      have hlist : (path.plug (.nodeOn .left cy (.nodeOn .left c a x b) y e)).toList =
          t.toList := by
        rw [← RBPath.toList_plug_congr path (RBTree.toList_rotate .left c cy cy c a b e x y)]
        exact congrArg RBTree.toList hplug
      have hparent : ((s.leftRotate x).proc x).parent = y := hturned.down.links.parent
      refine ⟨⟨_, hturned.zoomOut, hlist⟩, hkeeps.nil, hkeeps.sentinel, ?_⟩
      rw [hparent]
      exact hdeep.rotate_rotate

/-- A root with a right child. -/
def twoNodes : ProcTree where
  proc p :=
    if p = 1 then { Process.zero with left := 9, right := 2 }
    else if p = 2 then { Process.zero with parent := 1, left := 9, right := 9 }
    else Process.zero
  root := 1
  nil := 9

theorem leftRotate_rightRotate_twoNodes :
    (twoNodes.leftRotate 1).rightRotate ((twoNodes.leftRotate 1).proc 1).parent = twoNodes :=
  have hfocus : twoNodes.Focus [] (.node .black .leaf 1 (.node .black .leaf 2 .leaf)) :=
    ⟨⟨⟨rfl, rfl, rfl, rfl⟩, trivial, ⟨rfl, rfl, rfl, rfl⟩, trivial, trivial⟩, rfl, by decide,
      by decide⟩
  (leftRotate_rightRotate hfocus (by decide) (by decide)).2.2.2

end ProcTree

end Senob.Sys
