import Senob.Sys.TreeInsert

/-!
# The deletion fix-up

`rbDeleteFixup` carries a missing black node up the tree. The subtree in focus is
short of one black node; each round either moves the shortage to the parent or
repairs it with at most three rotations. The shared sentinel stands for an empty
subtree in focus, and its parent field says where that subtree hangs.
-/

namespace Senob.Sys

open Senob.Foundation

namespace ProcTree

variable {s : ProcTree} {p q v w x y z : Ptr} {d : Side} {c : Color}
  {t near far sibling whole w₁ w₂ u₁ u₂ v₁ v₂ : RBTree Ptr} {path rest : RBPath Ptr} {n : Nat}

/-! ## The rotations of the fix-up -/

/-- The sibling is red: it takes the place of the parent, which becomes red. -/
theorem Focus.turnSibling
    (h : s.Focus (⟨d, .black, p, .nodeOn d .red w₁ w w₂⟩ :: path) t) :
    (((s.setColor w .black).setColor p .red).rotate d p).Focus
        (⟨d, .red, p, w₁⟩ :: ⟨d, .black, w, w₂⟩ :: path) t ∧
      s.Keeps (((s.setColor w .black).setColor p .red).rotate d p) := by
  obtain ⟨hsibling, hkeeps₁⟩ := h.across.setColor .black
  obtain ⟨hparent, hkeeps₂⟩ := hsibling.up.setColor .red
  rw [RBTree.nodeOn_other] at hparent
  obtain ⟨hturned, hkeeps₃⟩ := hparent.rotate
  exact ⟨hturned.down.down, (hkeeps₁.trans hkeeps₂).trans hkeeps₃⟩

/-- The near child of the sibling is red: it takes the place of the sibling. -/
theorem Focus.turnNephew
    (h : s.Focus (⟨d, c, p, .nodeOn d .black (.nodeOn d .red u₁ q u₂) w w₂⟩ :: path) t) :
    (((s.setColor q .black).setColor w .red).rotate d.other w).Focus
        (⟨d, c, p, .nodeOn d .black u₁ q (.nodeOn d .red u₂ w w₂)⟩ :: path) t ∧
      s.Keeps (((s.setColor q .black).setColor w .red).rotate d.other w) := by
  obtain ⟨hnephew, hkeeps₁⟩ := h.across.down.setColor .black
  obtain ⟨hsibling, hkeeps₂⟩ := hnephew.up.setColor .red
  rw [← RBTree.nodeOn_other d .red, ← RBTree.nodeOn_other d .black] at hsibling
  obtain ⟨hturned, hkeeps₃⟩ := hsibling.rotate
  rw [RBTree.nodeOn_other, RBTree.nodeOn_other] at hturned
  have hacross := hturned.across
  rw [Side.other_other] at hacross
  exact ⟨hacross, (hkeeps₁.trans hkeeps₂).trans hkeeps₃⟩

/-- The far child of the sibling is red: the sibling takes the place of the parent, with
its colour. -/
theorem Focus.turnLast
    (h : s.Focus (⟨d, c, p, .nodeOn d .black w₁ w (.nodeOn d .red v₁ v v₂)⟩ :: path) t) :
    ((((s.setColor w c).setColor p .black).setColor v .black).rotate d p).Focus path
        (.nodeOn d c (.nodeOn d .black t p w₁) w (.nodeOn d .black v₁ v v₂)) ∧
      s.Keeps ((((s.setColor w c).setColor p .black).setColor v .black).rotate d p) := by
  obtain ⟨hsibling, hkeeps₁⟩ := h.across.setColor c
  obtain ⟨hparent, hkeeps₂⟩ := hsibling.up.setColor .black
  rw [RBTree.nodeOn_other] at hparent
  obtain ⟨hfar, hkeeps₃⟩ := hparent.down.across.down.across.setColor .black
  have hup := hfar.up.up
  rw [RBTree.nodeOn_other, RBTree.nodeOn_other] at hup
  obtain ⟨hturned, hkeeps₄⟩ := hup.rotate
  exact ⟨hturned, ((hkeeps₁.trans hkeeps₂).trans hkeeps₃).trans hkeeps₄⟩

/-! ## One round -/

/-- What holds at the head of the loop of `rbDeleteFixup`. -/
structure Deficit (s : ProcTree) (x : Ptr) (path : RBPath Ptr) (t : RBTree Ptr) (n : Nat) :
    Prop where
  focus : s.Focus path t
  entry : t.entry s.nil = x
  parent : (s.proc x).parent = parentOf path
  short : t.Short n
  accepts : path.Accepts .black (n + 1)
  sentinel : (s.proc s.nil).color = .black

/-- A rearrangement above the subtree in focus does not change where it hangs. -/
theorem Deficit.transfer {s' : ProcTree} {path' : RBPath Ptr} {n' : Nat}
    (h : s.Deficit x path t n) (hfocus : s'.Focus path' t) (hkeeps : s.Keeps s')
    (hparent : parentOf path' = parentOf path) (hshort : t.Short n')
    (haccepts : path'.Accepts .black (n' + 1)) : s'.Deficit x path' t n' := by
  refine ⟨hfocus, by rw [hkeeps.nil, h.entry], ?_, hshort, haccepts, ?_⟩
  · rw [← h.entry]
    cases t with
    | leaf =>
        have hx : s.nil = x := h.entry
        rw [RBTree.entry, hkeeps.sentinel, hx, h.parent, hparent]
    | node c l key r => exact hfocus.subtree.1.parent
  · rw [hkeeps.nil, hkeeps.sentinel]
    exact h.sentinel

/-- The comparison with the left child of the parent tells the side. -/
theorem Deficit.eq_left_iff (h : s.Deficit x (⟨d, c, p, sibling⟩ :: path) t n)
    (hsibling : sibling ≠ .leaf) : x = (s.proc p).left ↔ d = .left := by
  have hp := h.focus.above.1
  cases d with
  | left => exact iff_of_true (h.entry.symm.trans hp.near.symm) rfl
  | right =>
      have hne : sibling.entry s.nil ≠ x := by
        rw [← h.entry]
        exact h.focus.across.entry_ne_sibling hsibling
      exact iff_of_false (fun heq => hne (heq.trans hp.far).symm) nofun

/-- The two halves of the loop body differ in the side only. -/
theorem Deficit.body_eq (h : s.Deficit x (⟨d, c, p, sibling⟩ :: path) t n)
    (hsibling : sibling ≠ .leaf) : s.rbDeleteFixupBody x = s.rbDeleteFixupSide d x := by
  have hside := h.eq_left_iff hsibling
  rw [rbDeleteFixupBody, h.parent]
  cases d with
  | left => exact if_pos (hside.mpr rfl)
  | right => exact if_neg (mt hside.mp nofun)

/-- With a red sibling, the round goes on as it would in the turned tree. -/
theorem rbDeleteFixupSide_of_red (hx : (s.proc x).parent = p)
    (hw : (s.proc p).child d.other = w) (hred : (s.proc w).color = .red)
    {s' : ProcTree} (hs' : ((s.setColor w .black).setColor p .red).rotate d p = s')
    (hblack : (s'.proc ((s'.proc (s'.proc x).parent).child d.other)).color = .black) :
    s.rbDeleteFixupSide d x = s'.rbDeleteFixupSide d x := by
  have hfirst : ((((s.setColor w .black).proc x).parent)) = p := by rw [setColor_parent, hx]
  have hsecond : ((((s.setColor w .black).setColor p .red).proc x).parent) = p := by
    rw [setColor_parent, hfirst]
  simp only [rbDeleteFixupSide, hx, hw, hred, if_true, hfirst, hsecond, hs', hblack]
  rfl

theorem rbDeleteFixupRotate_of_near
    (hblack : (s.proc ((s.proc w).child d.other)).color = .black)
    (hq : (s.proc w).child d = q) {s' : ProcTree}
    (hs' : ((s.setColor q .black).setColor w .red).rotate d.other w = s')
    (hred : (s'.proc ((s'.proc ((s'.proc (s'.proc x).parent).child d.other)).child
      d.other)).color = .red) :
    s.rbDeleteFixupRotate d x w =
      s'.rbDeleteFixupRotate d x ((s'.proc (s'.proc x).parent).child d.other) := by
  simp only [rbDeleteFixupRotate, hblack, if_true, hq, hs', hred]
  rfl

theorem rbDeleteFixupRotate_of_far (hx : (s.proc x).parent = p)
    (hv : (s.proc w).child d.other = v) (hred : (s.proc v).color = .red)
    (hp : (s.proc p).color = c) :
    s.rbDeleteFixupRotate d x w =
      (((((s.setColor w c).setColor p .black).setColor v .black).rotate d p),
        ((((s.setColor w c).setColor p .black).setColor v .black).rotate d p).root) := by
  simp only [rbDeleteFixupRotate, hv, hred, hx, hp, setColor_parent, setColor_child,
    reduceCtorEq, if_false]

/-- The last rotation removes the shortage, and the loop goes on at the root. -/
theorem Deficit.last {c₁ : Color}
    (h : s.Deficit x (⟨d, c, p, .nodeOn d .black w₁ w w₂⟩ :: path) t n)
    (ht : t.Balanced .black n) (hw₁ : w₁.Balanced c₁ n) (hw₂ : w₂.Balanced .red n)
    (hpath : path.Accepts c (if c = .black then n + 1 + 1 else n + 1)) :
    ∃ s' x' t' n', s.rbDeleteFixupRotate d x w = (s', x') ∧ s'.Deficit x' [] t' n' ∧
      t'.toList = (path.plug (.nodeOn d c t p (.nodeOn d .black w₁ w w₂))).toList ∧
      s.Keeps s' := by
  obtain ⟨v₁, v, v₂, rfl, hv₁, hv₂⟩ := hw₂.cases_red d
  have hx : (s.proc x).parent = p := h.parent
  have hv := h.focus.across.links.far.trans (RBTree.entry_nodeOn ..)
  have hred : (s.proc v).color = .red := h.focus.across.down.across.links.color
  have hcolor : (s.proc p).color = c := h.focus.above.1.color
  obtain ⟨hturned, hkeeps⟩ := h.focus.turnLast
  have hbalanced : ∃ m, (path.plug (.nodeOn d c (.nodeOn d .black t p w₁) w
      (.nodeOn d .black v₁ v v₂))).Balanced .black m := by
    have hnear : (RBTree.nodeOn d .black t p w₁).Balanced .black (n + 1) := .nodeOn_black ht hw₁
    have hfar : (RBTree.nodeOn d .black v₁ v v₂).Balanced .black (n + 1) := .nodeOn_black hv₁ hv₂
    cases c with
    | black => exact hpath.plug (.nodeOn_black hnear hfar)
    | red => exact hpath.plug (.nodeOn_red hnear hfar)
  obtain ⟨m, hm⟩ := hbalanced
  have hzoom := hturned.zoomOut
  refine ⟨_, _, _, m, rbDeleteFixupRotate_of_far hx hv hred hcolor,
    ⟨hzoom, hzoom.above.symm, ?_, .black hm, .root _, ?_⟩, ?_, hkeeps⟩
  · rw [hzoom.above]
    exact hzoom.parent_entry (RBPath.plug_ne_leaf RBTree.nodeOn_ne_leaf)
  · rw [hkeeps.nil, hkeeps.sentinel]
    exact h.sentinel
  · refine RBPath.toList_plug_congr path ?_
    cases d <;> simp [RBTree.nodeOn, RBTree.toList]

/-- With a black sibling, a round moves the shortage to the parent or removes it. -/
theorem Deficit.side_of_black {c₁ c₂ : Color}
    (h : s.Deficit x (⟨d, c, p, .nodeOn d .black w₁ w w₂⟩ :: path) t n)
    (ht : t.Balanced .black n) (hw₁ : w₁.Balanced c₁ n) (hw₂ : w₂.Balanced c₂ n)
    (hpath : path.Accepts c (if c = .black then n + 1 + 1 else n + 1)) :
    ∃ s' x' path' t' n', s.rbDeleteFixupSide d x = (s', x') ∧ s'.Deficit x' path' t' n' ∧
      (path' = [] ∨ path' = path ∧ t'.rootColor = c) ∧
      (path'.plug t').toList =
        (path.plug (.nodeOn d c t p (.nodeOn d .black w₁ w w₂))).toList ∧
      s.Keeps s' := by
  have hp := h.focus.above.1
  have hwlinks := h.focus.across.links
  have hx : (s.proc x).parent = p := h.parent
  have hw : (s.proc p).child d.other = w := hp.far.trans (RBTree.entry_nodeOn ..)
  have hcolor₁ := h.focus.across.down.color_entry h.sentinel
  have hcolor₂ := h.focus.across.down.across.color_entry h.sentinel
  rw [hw₁.rootColor, ← hwlinks.near] at hcolor₁
  rw [hw₂.rootColor, ← hwlinks.far] at hcolor₂
  have hwblack : ¬ (s.proc w).color = .red := by rw [hwlinks.color]; nofun
  simp only [rbDeleteFixupSide, hx, hw, if_neg hwblack, hcolor₁, hcolor₂]
  cases c₂ with
  | red =>
      -- The far child is red: a rotation about the parent ends the loop.
      rw [if_neg fun hand => nomatch hand.2]
      obtain ⟨s', x', t', n', hrun, hdeficit, hlist, hkeeps⟩ := h.last ht hw₁ hw₂ hpath
      exact ⟨s', x', [], t', n', hrun, hdeficit, .inl rfl, hlist, hkeeps⟩
  | black =>
      cases c₁ with
      | red =>
          -- The near child is red: one more rotation leads to the case above.
          rw [if_neg fun hand => nomatch hand.1]
          obtain ⟨u₁, q, u₂, rfl, hu₁, hu₂⟩ := hw₁.cases_red d
          obtain ⟨hturned, hkeeps₁⟩ := h.focus.turnNephew
          have hfar : (RBTree.nodeOn d .red u₂ w w₂).Balanced .red n := .nodeOn_red hu₂ hw₂
          have hdeficit := h.transfer hturned hkeeps₁ rfl h.short
            (.cons (.nodeOn_black hu₁ hfar) hpath)
          obtain ⟨s', x', t', n', hrun, hdeficit', hlist, hkeeps₂⟩ :=
            hdeficit.last ht hu₁ hfar hpath
          refine ⟨s', x', [], t', n', ?_, hdeficit', .inl rfl, ?_, hkeeps₁.trans hkeeps₂⟩
          · have hq := hwlinks.near.trans (RBTree.entry_nodeOn ..)
            have hw' := hturned.above.1.far.trans (RBTree.entry_nodeOn ..)
            have hfar' := hturned.across.links.far.trans (RBTree.entry_nodeOn ..)
            have hx' := hdeficit.parent
            simp only [parentOf] at hx'
            rw [rbDeleteFixupRotate_of_near hcolor₂ hq rfl, hx', hw']
            · exact hrun
            · rw [hx', hw', hfar']
              exact hturned.across.down.across.links.color
          · refine hlist.trans (RBPath.toList_plug_congr path ?_)
            cases d <;> simp [RBTree.nodeOn, RBTree.toList]
      | black =>
          -- Both children are black: the sibling turns red, and the parent has the shortage now.
          rw [if_pos ⟨rfl, rfl⟩]
          obtain ⟨hsibling, hkeeps⟩ := h.focus.across.setColor .red
          have hup := hsibling.up
          rw [RBTree.nodeOn_other] at hup
          have hred : (RBTree.nodeOn d .red w₁ w w₂).Balanced .red n := .nodeOn_red hw₁ hw₂
          have hlist : (path.plug (.nodeOn d c t p (.nodeOn d .red w₁ w w₂))).toList =
              (path.plug (.nodeOn d c t p (.nodeOn d .black w₁ w w₂))).toList :=
            RBPath.toList_plug_congr path
              (RBTree.toList_nodeOn_congr rfl (RBTree.toList_nodeOn_congr rfl rfl))
          have hsentinel : ((s.setColor w .red).proc (s.setColor w .red).nil).color = .black := by
            rw [hkeeps.nil, hkeeps.sentinel]
            exact h.sentinel
          cases c with
          | black =>
              exact ⟨_, p, path, _, n + 1, rfl, ⟨hup, RBTree.entry_nodeOn .., hup.links.parent,
                .black (.nodeOn_black ht hred), hpath, hsentinel⟩,
                .inr ⟨rfl, RBTree.rootColor_nodeOn ..⟩, hlist, hkeeps⟩
          | red =>
              exact ⟨_, p, path, _, n, rfl, ⟨hup, RBTree.entry_nodeOn .., hup.links.parent,
                .nodeOn_red ht hred, hpath.to_black, hsentinel⟩,
                .inr ⟨rfl, RBTree.rootColor_nodeOn ..⟩, hlist, hkeeps⟩

/-- A bound on the rounds that are left. -/
def roundsLeft (path : RBPath Ptr) (t : RBTree Ptr) : Nat :=
  if t.rootColor = .red then 0 else path.length

theorem roundsLeft_le (path : RBPath Ptr) (t : RBTree Ptr) : roundsLeft path t ≤ path.length := by
  unfold roundsLeft
  split
  · exact Nat.zero_le _
  · exact Nat.le_refl _

theorem Deficit.step_of_black (h : s.Deficit x (⟨d, c, p, sibling⟩ :: path) t n)
    (ht : t.Balanced .black n) (hsibling : sibling.Balanced .black (n + 1))
    (hpath : path.Accepts c (if c = .black then n + 1 + 1 else n + 1)) :
    ∃ s' x' path' t' n', s.rbDeleteFixupBody x = (s', x') ∧ s'.Deficit x' path' t' n' ∧
      path'.length < (⟨d, c, p, sibling⟩ :: path).length ∧
      (path'.plug t').toList = (RBPath.plug (⟨d, c, p, sibling⟩ :: path) t).toList ∧
      s.Keeps s' := by
  obtain ⟨w₁, w, w₂, c₁, c₂, rfl, hw₁, hw₂⟩ := hsibling.cases_black d
  obtain ⟨s', x', path', t', n', hrun, hdeficit, hcases, hlist, hkeeps⟩ :=
    h.side_of_black ht hw₁ hw₂ hpath
  refine ⟨s', x', path', t', n', ?_, hdeficit, ?_, hlist, hkeeps⟩
  · rw [h.body_eq RBTree.nodeOn_ne_leaf, hrun]
  · rcases hcases with rfl | ⟨rfl, _⟩ <;> simp

/-- One round of the fix-up at a black node that is not the root. -/
theorem Deficit.step (h : s.Deficit x path t n) (hroot : x ≠ s.root)
    (hcolor : (s.proc x).color = .black) :
    ∃ s' x' path' t' n', s.rbDeleteFixupBody x = (s', x') ∧ s'.Deficit x' path' t' n' ∧
      roundsLeft path' t' < roundsLeft path t ∧
      (path'.plug t').toList = (path.plug t).toList ∧ s.Keeps s' := by
  have htcolor : t.rootColor = .black := by
    rw [← h.focus.color_entry h.sentinel, h.entry, hcolor]
  have ht := h.short.balanced htcolor
  have hleft : roundsLeft path t = path.length := by simp [roundsLeft, htcolor]
  rw [hleft]
  have haccepts := h.accepts
  cases haccepts with
  | root => exact absurd (h.entry.symm.trans h.focus.above.symm) hroot
  | @red d p sibling path _ hsibling hpath =>
      obtain ⟨s', x', path', t', n', hbody, hdeficit, hlt, hrest⟩ :=
        h.step_of_black ht hsibling hpath
      exact ⟨s', x', path', t', n', hbody, hdeficit,
        Nat.lt_of_le_of_lt (roundsLeft_le _ _) hlt, hrest⟩
  | @black d p sibling path _ c' _ hsibling hpath =>
      cases c' with
      | black =>
          obtain ⟨s', x', path', t', n', hbody, hdeficit, hlt, hrest⟩ :=
            h.step_of_black ht hsibling hpath
          exact ⟨s', x', path', t', n', hbody, hdeficit,
            Nat.lt_of_le_of_lt (roundsLeft_le _ _) hlt, hrest⟩
      | red =>
          -- The turn makes the sibling black and the parent red, so this round is the last.
          obtain ⟨w₁, w, w₂, rfl, hw₁, hw₂⟩ := hsibling.cases_red d
          obtain ⟨a, q, b, c₁, c₂, rfl, ha, hb⟩ := hw₁.cases_black d
          obtain ⟨hturned, hkeeps₁⟩ := h.focus.turnSibling
          have hup : RBPath.Accepts (⟨d, .black, w, w₂⟩ :: path) .red (n + 1) := .black hw₂ hpath
          have hdeficit := h.transfer hturned hkeeps₁ rfl h.short (.red hw₁ hup)
          obtain ⟨s', x', path', t', n', hrun, hdeficit', hcases, hlist, hkeeps₂⟩ :=
            hdeficit.side_of_black ht ha hb hup
          refine ⟨s', x', path', t', n', ?_, hdeficit', ?_, ?_, hkeeps₁.trans hkeeps₂⟩
          · have hx : (s.proc x).parent = p := h.parent
            have hw : (s.proc p).child d.other = w :=
              h.focus.above.1.far.trans (RBTree.entry_nodeOn ..)
            have hwred := h.focus.across.links.color
            have hx' := hdeficit.parent
            have hq := hturned.above.1.far.trans (RBTree.entry_nodeOn ..)
            simp only [parentOf] at hx'
            rw [h.body_eq RBTree.nodeOn_ne_leaf, rbDeleteFixupSide_of_red hx hw hwred rfl, hrun]
            rw [hx', hq]
            exact hturned.across.links.color
          · rcases hcases with rfl | ⟨rfl, htred⟩
            · exact Nat.lt_of_le_of_lt (roundsLeft_le _ _) (by simp)
            · simp [roundsLeft, htred]
          · refine hlist.trans (RBPath.toList_plug_congr path ?_)
            cases d <;> simp [Frame.fill, RBTree.nodeOn, RBTree.toList]

/-! ## The loop -/

/-- When the guard fails, painting the node in focus black ends the shortage. -/
theorem Deficit.paint (h : s.Deficit x path t n)
    (hguard : decide (x ≠ s.root ∧ (s.proc x).color = .black) = false) :
    ∃ t', (s.setColor x .black).Focus [] t' ∧ (∃ m, t'.Balanced .black m) ∧
      t'.toList = (path.plug t).toList ∧ s.Keeps (s.setColor x .black) := by
  have hcolor : (s.proc x).color = t.rootColor := h.entry ▸ h.focus.color_entry h.sentinel
  cases hc : t.rootColor with
  | black =>
      have hroot : x = s.root := by
        have := of_decide_eq_false hguard
        rw [hcolor, hc] at this
        tauto
      have hpath : path = [] := by
        by_contra hne
        have hmem := RBPath.entry_plug_mem s.nil t hne
        rw [← h.focus.zoomOut.above.trans rfl, ← hroot, ← h.entry] at hmem
        by_cases ht : t = .leaf
        · rw [ht] at hmem
          exact h.focus.ne_nil (RBPath.mem_toList_plug.mpr (.inr hmem)) rfl
        · exact h.focus.notMem_keys (RBTree.entry_mem _ ht) hmem
      subst hpath
      rw [setColor_eq_self s x (hcolor.trans hc)]
      exact ⟨t, h.focus, ⟨n, h.short.balanced hc⟩, rfl, .refl s⟩
  | red =>
      cases t with
      | leaf => exact nomatch hc
      | node c l key r =>
          obtain rfl : c = .red := hc
          obtain rfl : key = x := h.entry
          have hred : s.Focus path (.nodeOn .left .red l key r) := h.focus
          obtain ⟨hfocus, hkeeps⟩ := hred.setColor .black
          refine ⟨_, hfocus.zoomOut, h.accepts.plug h.short.blacken, ?_, hkeeps⟩
          exact RBPath.toList_plug_congr path rfl

/-- `rbDeleteFixup` returns, and leaves a red-black tree with the same keys. -/
theorem Deficit.rbDeleteFixup (h : s.Deficit x path t n) (hlength : path.length ≤ loopFuel) :
    ∃ s' t', s.rbDeleteFixup x = some s' ∧ s'.Focus [] t' ∧ (∃ m, t'.Balanced .black m) ∧
      t'.toList = (path.plug t).toList ∧ s.Keeps s' := by
  let inv (k : Nat) (r : ProcTree × Ptr) : Prop :=
    ∃ path' t' n', r.1.Deficit r.2 path' t' n' ∧ roundsLeft path' t' = k ∧
      (path'.plug t').toList = (path.plug t).toList ∧ s.Keeps r.1
  have hstep : ∀ k r, inv k r →
      decide (r.2 ≠ r.1.root ∧ (r.1.proc r.2).color = .black) = true →
      ∃ m < k, inv m (r.1.rbDeleteFixupBody r.2) := by
    rintro k ⟨s₁, x₁⟩ ⟨path₁, t₁, n₁, hdeficit, rfl, hlist, hkeeps⟩ hguard
    obtain ⟨hroot, hcolor⟩ := of_decide_eq_true hguard
    obtain ⟨s₂, x₂, path₂, t₂, n₂, hbody, hdeficit₂, hlt, hlist₂, hkeeps₂⟩ :=
      hdeficit.step hroot hcolor
    rw [show (s₁, x₁).1.rbDeleteFixupBody (s₁, x₁).2 = _ from hbody]
    exact ⟨_, hlt, path₂, t₂, n₂, hdeficit₂, rfl, hlist₂.trans hlist, hkeeps.trans hkeeps₂⟩
  have hinit : inv (roundsLeft path t) (s, x) := ⟨path, t, n, h, rfl, rfl, .refl s⟩
  obtain ⟨⟨s₁, x₁⟩, k, hrun, ⟨path₁, t₁, n₁, hdeficit, rfl, hlist, hkeeps⟩, hguard⟩ :=
    whileFuel_rule hstep hinit (Nat.le_trans (roundsLeft_le path t) hlength)
  obtain ⟨t₂, hfocus, hbalanced, hlist₂, hkeeps₂⟩ := hdeficit.paint hguard
  refine ⟨s₁.setColor x₁ .black, t₂, ?_, hfocus, hbalanced, hlist₂.trans hlist,
    hkeeps.trans hkeeps₂⟩
  unfold ProcTree.rbDeleteFixup
  rw [show whileFuel _ _ loopFuel (s, x) = _ from hrun]
  rfl

end ProcTree

end Senob.Sys
