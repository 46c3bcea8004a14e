import Senob.Sys.TreeRuns

/-!
# Missing relatives

The fix-ups once more, with a check before each step that rests on a relative of the node: the
result is `none` when a relative is missing. Where the tree is a red-black tree but for the repair,
the checks hold, and the fix-ups with them do the same as those without.
-/

namespace Senob.Sys

open Senob.Foundation

namespace ProcTree

/-! ## The fix-ups with checks -/

variable (s : ProcTree)

/-- A rotation, of a node whose child on the other side is not `NIL`. -/
def rotateChecked (d : Side) (x : Ptr) : Option ProcTree :=
  if (s.proc x).child d.other = s.nil then none else some (s.rotate d x)

def fixupInsertRotateChecked (d : Side) (newNode : Ptr) : Option (ProcTree × Ptr × Bool) := do
  let (s, newNode) ←
    if newNode = (s.proc (s.proc newNode).parent).child d.other then
      (s.rotateChecked d (s.proc newNode).parent).map fun s' => (s', (s.proc newNode).parent)
    else some (s, newNode)
  let s := s.setColor (s.proc newNode).parent .black
  let s := s.setColor (s.proc (s.proc newNode).parent).parent .red
  let s ← s.rotateChecked d.other (s.proc (s.proc newNode).parent).parent
  return (s, newNode, false)

/-- The early exit is taken for a missing grandparent. -/
def fixupInsertBodyChecked (newNode : Ptr) : Option (ProcTree × Ptr × Bool) :=
  s.fixupInsertBranch newNode none (fun y => some (s.fixupInsertRecolor newNode y))
    (s.fixupInsertRotateChecked · newNode)

def fixupInsertChecked (newNode : Ptr) : Option ProcTree := do
  let r ← whileFuel (fun r => r.any fixupInsertGuard)
    (fun r => r.bind fun (s, newNode, _) => s.fixupInsertBodyChecked newNode) loopFuel
    (some (s, newNode, false))
  let (s, _, _) ← r
  return s.setColor s.root .black

/-- The sibling of a node that has a parent. It is not `NIL`. -/
def siblingChecked (d : Side) (x : Ptr) : Option Ptr :=
  let parent := (s.proc x).parent
  if parent = null then none
  else
    let w := (s.proc parent).child d.other
    if w = s.nil then none else some w

def rbDeleteFixupRotateChecked (d : Side) (x w : Ptr) : Option (ProcTree × Ptr) := do
  let (s, w) ←
    if (s.proc ((s.proc w).child d.other)).color = .black then do
      let s := s.setColor ((s.proc w).child d) .black
      let s := s.setColor w .red
      let s ← s.rotateChecked d.other w
      let w ← s.siblingChecked d x
      pure (s, w)
    else some (s, w)
  let s := s.setColor w (s.proc (s.proc x).parent).color
  let s := s.setColor (s.proc x).parent .black
  let s := s.setColor ((s.proc w).child d.other) .black
  let s ← s.rotateChecked d (s.proc x).parent
  return (s, s.root)

/-- What follows when the sibling `w` is black. -/
def rbDeleteFixupBlackChecked (d : Side) (x w : Ptr) : Option (ProcTree × Ptr) :=
  if (s.proc ((s.proc w).child d)).color = .black ∧
      (s.proc ((s.proc w).child d.other)).color = .black then
    some (s.setColor w .red, (s.proc x).parent)
  else s.rbDeleteFixupRotateChecked d x w

def rbDeleteFixupSideChecked (d : Side) (x : Ptr) : Option (ProcTree × Ptr) := do
  let w ← s.siblingChecked d x
  if (s.proc w).color = .red then
    let s := s.setColor w .black
    let s := s.setColor (s.proc x).parent .red
    let s ← s.rotateChecked d (s.proc x).parent
    let w ← s.siblingChecked d x
    s.rbDeleteFixupBlackChecked d x w
  else s.rbDeleteFixupBlackChecked d x w

def rbDeleteFixupBodyChecked (x : Ptr) : Option (ProcTree × Ptr) :=
  if (s.proc x).parent = null then none
  else if x = (s.proc (s.proc x).parent).left then s.rbDeleteFixupSideChecked .left x
  else s.rbDeleteFixupSideChecked .right x

def rbDeleteFixupChecked (x : Ptr) : Option ProcTree := do
  let r ← whileFuel
    (fun r => r.any fun (s, x) => decide (x ≠ s.root ∧ (s.proc x).color = .black))
    (fun r => r.bind fun (s, x) => s.rbDeleteFixupBodyChecked x) loopFuel (some (s, x))
  let (s, x) ← r
  return s.setColor x .black

/-- `rbInsert` with the checks. -/
def rbInsertChecked (newProcess : Ptr) : Option ProcTree :=
  s.rbInsertBy fixupInsertChecked newProcess

/-- `rbDelete` with the checks. -/
def rbDeleteChecked (stackStart : Ptr → Ptr) (pid : Word) : Option (ProcTree × List Ptr) := do
  let z ← s.rbSearch pid
  if z = s.nil then return (s, [])
  else
    let s ← s.rbUnlinkBy rbDeleteFixupChecked z
    return (s, [stackStart (s.proc z).headThread, (s.proc z).headThread, z])

/-! ## The checks of the insertion -/

variable {s} {p g q v w x y z : Ptr} {d d' : Side} {c : Color}
  {t near far sibling uncle whole w₁ w₂ u₁ u₂ : RBTree Ptr} {path : RBPath Ptr} {n : Nat}

theorem rotateChecked_eq (h : (s.proc x).child d.other ≠ s.nil) :
    s.rotateChecked d x = some (s.rotate d x) := if_neg h

/-- The node is a child of its parent, and the parent one of the grandparent. -/
theorem fixupInsertRotateChecked_eq (hx : (s.proc x).parent = p) (hp : (s.proc p).parent = g)
    (hne : x ≠ (s.proc p).child d.other) (hg : (s.proc g).child d ≠ s.nil) :
    s.fixupInsertRotateChecked d x = some (s.fixupInsertRotate d x) := by
  have hturn : (((s.setColor p .black).setColor g .red).proc g).child d.other.other ≠
      ((s.setColor p .black).setColor g .red).nil := by
    rw [setColor_child, setColor_child, Side.other_other]
    exact hg
  rw [fixupInsertRotate_eq hx hp hne]
  simp only [fixupInsertRotateChecked, hx, if_neg hne, Option.bind_eq_bind, Option.bind_some,
    setColor_parent, hp, rotateChecked_eq hturn]
  rfl

/-- The node lies between its parent and its grandparent. -/
theorem fixupInsertRotateChecked_of_bend (hx : (s.proc x).parent = p)
    (hp : (s.proc p).child d.other = x) (hnil : x ≠ s.nil)
    (hp' : ((s.rotate d p).proc p).parent = x) (hx' : ((s.rotate d p).proc x).parent = g)
    (hg : ((s.rotate d p).proc g).child d ≠ (s.rotate d p).nil) :
    s.fixupInsertRotateChecked d x = some (s.fixupInsertRotate d x) := by
  have hfirst : s.rotateChecked d p = some (s.rotate d p) := rotateChecked_eq (hp ▸ hnil)
  have hturn : ((((s.rotate d p).setColor x .black).setColor g .red).proc g).child d.other.other ≠
      (((s.rotate d p).setColor x .black).setColor g .red).nil := by
    rw [setColor_child, setColor_child, Side.other_other]
    exact hg
  rw [fixupInsertRotate_eq_of_bend hx hp]
  simp only [fixupInsertRotateChecked, hx, if_pos hp.symm, hfirst, Option.map_some,
    Option.bind_eq_bind, Option.bind_some, setColor_parent, hp', hx', rotateChecked_eq hturn]
  rfl

theorem Focus.parent_ne_null {f : Frame Ptr} (h : s.Focus (f :: path) t) : f.key ≠ null :=
  h.up.distinct.2.2.2.1

/-- A tree with a node has an entry that is not the sentinel. -/
theorem Focus.entry_ne_nil (h : s.Focus path t) (ht : t ≠ .leaf) : t.entry s.nil ≠ s.nil :=
  fun heq => ht (h.entry_eq_nil.mp heq)

theorem Focus.node_ne_nil (h : s.Focus path (.nodeOn d c near x far)) : x ≠ s.nil := by
  have hne := h.entry_ne_nil RBTree.nodeOn_ne_leaf
  rwa [RBTree.entry_nodeOn] at hne

/-- Where the guard of `fixupInsert` holds, the checks of its body do. -/
theorem RedFocus.bodyChecked (h : s.RedFocus x path t n)
    (hguard : fixupInsertGuard (s, x, false) = true) :
    s.fixupInsertBodyChecked x = some (s.fixupInsertBody x) := by
  obtain ⟨d', p, sibling, d, g, uncle, rest, c, hsibling, huncle, hrest, rfl⟩ := h.of_guard hguard
  have hx : (s.proc x).parent = p := h.parent
  have hp : (s.proc p).parent = g := h.focus.up.links.parent
  have hg : (s.proc g).child d = p := h.focus.up.up.links.near.trans (RBTree.entry_nodeOn ..)
  have hpnil : p ≠ s.nil := h.focus.up.node_ne_nil
  rw [fixupInsertBodyChecked, fixupInsertBody_eq_branch, fixupInsertBranch_eq h.focus hx h.sentinel,
    fixupInsertBranch_eq h.focus hx h.sentinel, huncle.rootColor]
  cases c with
  | red => rfl
  | black =>
      rw [if_neg nofun, if_neg nofun]
      -- Both rotations turn a node over to one that is red, and so no sentinel.
      by_cases hd : d' = d
      · subst hd
        have hne : x ≠ (s.proc p).child d'.other := by
          rw [h.focus.up.links.far, ← h.entry]
          exact h.focus.entry_ne_sibling h.red.ne_leaf
        exact fixupInsertRotateChecked_eq hx hp hne (hg ▸ hpnil)
      · obtain rfl : d' = d.other := by cases d <;> cases d' <;> first | rfl | exact absurd rfl hd
        obtain ⟨near, y, far, rfl, hnear, hfar⟩ := h.red.cases_red d
        obtain rfl : y = x := by simpa using h.entry
        obtain ⟨hbend, hkeeps⟩ := h.bend hnear hfar
        have hchild : (s.proc p).child d.other = y := by
          simpa using h.focus.up.links.near
        have hnil : y ≠ s.nil := by
          rw [← h.entry]
          exact h.focus.entry_ne_nil h.red.ne_leaf
        have hturned : ((s.rotate d p).proc g).child d = y :=
          hbend.focus.up.up.links.near.trans (RBTree.entry_nodeOn ..)
        have hgrand : ((s.rotate d p).proc y).parent = g := hbend.focus.up.links.parent
        refine fixupInsertRotateChecked_of_bend hx hchild hnil hbend.focus.links.parent hgrand ?_
        rw [hturned, hkeeps.nil]
        exact hnil

/-- The checks hold in every round of `fixupInsert`. -/
theorem RedFocus.fixupInsertChecked (h : s.RedFocus x path t n) :
    s.fixupInsertChecked x = s.fixupInsert x := by
  let inv (r : ProcTree × Ptr × Bool) : Prop :=
    r.2.2 = false ∧ ∃ path' t' n', r.1.RedFocus r.2.1 path' t' n'
  have hstep : ∀ r, inv r → fixupInsertGuard r = true →
      r.1.fixupInsertBodyChecked r.2.1 = some (r.1.fixupInsertBody r.2.1) ∧
        inv (r.1.fixupInsertBody r.2.1) := by
    rintro ⟨s₁, x₁, broke⟩ ⟨rfl, path₁, t₁, n₁, hred⟩ hguard
    obtain ⟨s₂, x₂, path₂, t₂, n₂, hbody, hred₂, -⟩ := hred.step hguard
    refine ⟨hred.bodyChecked hguard, ?_⟩
    rw [show (s₁, x₁, false).1.fixupInsertBody (s₁, x₁, false).2.1 = _ from hbody]
    exact ⟨rfl, path₂, t₂, n₂, hred₂⟩
  have hrun := whileFuel_bind inv hstep loopFuel (s := (s, x, false)) ⟨rfl, path, t, n, h⟩
  unfold ProcTree.fixupInsertChecked ProcTree.fixupInsert
  rw [show whileFuel (fun r => r.any fixupInsertGuard) _ loopFuel (some (s, x, false)) = _
    from hrun]
  cases whileFuel fixupInsertGuard _ loopFuel (s, x, false) <;> rfl

/-! ## The checks of the deletion -/

/-- The sibling of a subtree that is short of a black node has nodes. -/
theorem Deficit.siblingChecked (h : s.Deficit x (⟨d, c, p, sibling⟩ :: path) t n)
    (hsibling : sibling ≠ .leaf) : s.siblingChecked d x = some (sibling.entry s.nil) := by
  have hx : (s.proc x).parent = p := h.parent
  have hw : (s.proc p).child d.other = sibling.entry s.nil := h.focus.above.1.far
  have hnil : sibling.entry s.nil ≠ s.nil := h.focus.across.entry_ne_nil hsibling
  have hnull : p ≠ null := h.focus.parent_ne_null
  simp only [ProcTree.siblingChecked, hx, if_neg hnull, hw, if_neg hnil]

/-- The far child of the sibling is red: only the last rotation is left. -/
theorem Deficit.rotateChecked_of_far
    (h : s.Deficit x (⟨d, c, p, .nodeOn d .black w₁ w w₂⟩ :: path) t n)
    (hfar : (s.proc ((s.proc w).child d.other)).color = .red) :
    s.rbDeleteFixupRotateChecked d x w = some (s.rbDeleteFixupRotate d x w) := by
  have hx : (s.proc x).parent = p := h.parent
  have hw : (s.proc p).child d.other = w := h.focus.above.1.far.trans (RBTree.entry_nodeOn ..)
  have hnil : w ≠ s.nil := h.focus.across.node_ne_nil
  have hcolor : (s.proc p).color = c := h.focus.above.1.color
  have hturn : ((((s.setColor w c).setColor p .black).setColor ((s.proc w).child d.other)
      .black).proc p).child d.other ≠ s.nil := by
    rw [setColor_child, setColor_child, setColor_child, hw]
    exact hnil
  rw [rbDeleteFixupRotate_of_far hx rfl hfar hcolor]
  simp only [rbDeleteFixupRotateChecked, hfar, reduceCtorEq, if_false, Option.bind_eq_bind,
    Option.bind_some, setColor_parent, setColor_child, hx, hcolor, rotateChecked_eq hturn]
  rfl

/-- The near child of the sibling is red: one more rotation leads to the case above. -/
theorem Deficit.rotateChecked_of_near
    (h : s.Deficit x (⟨d, c, p, .nodeOn d .black (.nodeOn d .red u₁ q u₂) w w₂⟩ :: path) t n)
    (hfar : (s.proc ((s.proc w).child d.other)).color = .black)
    (hu₁ : u₁.Balanced .black n) (hu₂ : u₂.Balanced .black n) (hw₂ : w₂.Balanced .black n)
    (hpath : path.Accepts c (if c = .black then n + 1 + 1 else n + 1)) :
    s.rbDeleteFixupRotateChecked d x w = some (s.rbDeleteFixupRotate d x w) := by
  obtain ⟨hturned, hkeeps⟩ := h.focus.turnNephew
  have hq : (s.proc w).child d = q := h.focus.across.links.near.trans (RBTree.entry_nodeOn ..)
  have hqnil : q ≠ s.nil := h.focus.across.down.node_ne_nil
  have hturn : (((s.setColor q .black).setColor w .red).proc w).child d.other.other ≠ s.nil := by
    rw [setColor_child, setColor_child, Side.other_other, hq]
    exact hqnil
  have hfirst := rotateChecked_eq hturn
  generalize hs' : ((s.setColor q .black).setColor w .red).rotate d.other w = s'
    at hturned hkeeps hfirst
  have hdeficit := h.transfer hturned hkeeps rfl h.short
    (.cons (.nodeOn_black hu₁ (.nodeOn_red hu₂ hw₂)) hpath)
  have hx' : (s'.proc x).parent = p := hdeficit.parent
  have hw' : (s'.proc p).child d.other = q := hturned.above.1.far.trans (RBTree.entry_nodeOn ..)
  have hred : (s'.proc ((s'.proc q).child d.other)).color = .red := by
    rw [hturned.across.links.far, RBTree.entry_nodeOn]
    exact hturned.across.down.across.links.color
  have hsibling := hdeficit.siblingChecked RBTree.nodeOn_ne_leaf
  rw [RBTree.entry_nodeOn] at hsibling
  rw [rbDeleteFixupRotate_of_near hfar hq hs' (by rw [hx', hw']; exact hred), hx', hw',
    ← hdeficit.rotateChecked_of_far hred]
  simp only [rbDeleteFixupRotateChecked, hfar, if_true, hq, hfirst, Option.bind_eq_bind,
    Option.bind_some, hsibling, hred]
  rfl

theorem Deficit.sideChecked_of_black {c₁ c₂ : Color}
    (h : s.Deficit x (⟨d, c, p, .nodeOn d .black w₁ w w₂⟩ :: path) t n)
    (hw₁ : w₁.Balanced c₁ n) (hw₂ : w₂.Balanced c₂ n)
    (hpath : path.Accepts c (if c = .black then n + 1 + 1 else n + 1)) :
    s.rbDeleteFixupSideChecked d x = some (s.rbDeleteFixupSide d x) := by
  have hwlinks := h.focus.across.links
  have hx : (s.proc x).parent = p := h.parent
  have hw : (s.proc p).child d.other = w := h.focus.above.1.far.trans (RBTree.entry_nodeOn ..)
  have hcolor₁ := h.focus.across.down.color_entry h.sentinel
  have hcolor₂ := h.focus.across.down.across.color_entry h.sentinel
  rw [hw₁.rootColor, ← hwlinks.near] at hcolor₁
  rw [hw₂.rootColor, ← hwlinks.far] at hcolor₂
  have hwblack : ¬ (s.proc w).color = .red := by rw [hwlinks.color]; nofun
  have hsibling := h.siblingChecked RBTree.nodeOn_ne_leaf
  rw [RBTree.entry_nodeOn] at hsibling
  simp only [rbDeleteFixupSideChecked, rbDeleteFixupBlackChecked, rbDeleteFixupSide, hsibling,
    Option.bind_eq_bind, Option.bind_some, hx, hw, if_neg hwblack, hcolor₁, hcolor₂]
  cases c₂ with
  | red =>
      simp only [reduceCtorEq, and_false, if_false]
      exact h.rotateChecked_of_far hcolor₂
  | black =>
      cases c₁ with
      | red =>
          simp only [reduceCtorEq, false_and, if_false]
          obtain ⟨u₁, q, u₂, rfl, hu₁, hu₂⟩ := hw₁.cases_red d
          exact h.rotateChecked_of_near hcolor₂ hu₁ hu₂ hw₂ hpath
      | black => simp only [and_self, if_true]

/-- The sibling is red: the turn gives a black one. -/
theorem Deficit.sideChecked_of_red
    (h : s.Deficit x (⟨d, .black, p, .nodeOn d .red w₁ w w₂⟩ :: path) t n)
    (hw₁ : w₁.Balanced .black (n + 1)) (hw₂ : w₂.Balanced .black (n + 1))
    (hpath : path.Accepts .black (n + 1 + 1)) :
    s.rbDeleteFixupSideChecked d x = some (s.rbDeleteFixupSide d x) := by
  obtain ⟨a, q, b, c₁, c₂, rfl, ha, hb⟩ := hw₁.cases_black d
  obtain ⟨hturned, hkeeps⟩ := h.focus.turnSibling
  have hx : (s.proc x).parent = p := h.parent
  have hw : (s.proc p).child d.other = w := h.focus.above.1.far.trans (RBTree.entry_nodeOn ..)
  have hred := h.focus.across.links.color
  have hwnil : w ≠ s.nil := h.focus.across.node_ne_nil
  have hturn : (((s.setColor w .black).setColor p .red).proc p).child d.other ≠ s.nil := by
    rw [setColor_child, setColor_child, hw]
    exact hwnil
  have hfirst := rotateChecked_eq hturn
  generalize hs' : ((s.setColor w .black).setColor p .red).rotate d p = s'
    at hturned hkeeps hfirst
  have hup : RBPath.Accepts (⟨d, .black, w, w₂⟩ :: path) .red (n + 1) := .black hw₂ hpath
  have hdeficit := h.transfer hturned hkeeps rfl h.short (.red hw₁ hup)
  have hx' : (s'.proc x).parent = p := hdeficit.parent
  have hq : (s'.proc p).child d.other = q := hturned.above.1.far.trans (RBTree.entry_nodeOn ..)
  have hblack : (s'.proc q).color = .black := hturned.across.links.color
  have hsibling := h.siblingChecked RBTree.nodeOn_ne_leaf
  have hsibling' := hdeficit.siblingChecked RBTree.nodeOn_ne_leaf
  rw [RBTree.entry_nodeOn] at hsibling hsibling'
  rw [rbDeleteFixupSide_of_red hx hw hred hs' (by rw [hx', hq]; exact hblack),
    ← hdeficit.sideChecked_of_black ha hb hup]
  simp only [rbDeleteFixupSideChecked, hsibling, Option.bind_eq_bind, Option.bind_some, hred,
    if_true, setColor_parent, hx, hfirst, hsibling', hblack, reduceCtorEq, if_false]

/-- The two halves of the loop body differ in the side only. -/
theorem Deficit.bodyChecked_eq (h : s.Deficit x (⟨d, c, p, sibling⟩ :: path) t n)
    (hsibling : sibling ≠ .leaf) :
    s.rbDeleteFixupBodyChecked x = s.rbDeleteFixupSideChecked d x := by
  have hnull : p ≠ null := h.focus.parent_ne_null
  have hside := h.eq_left_iff hsibling
  rw [rbDeleteFixupBodyChecked, show (s.proc x).parent = p from h.parent, if_neg hnull]
  cases d with
  | left => exact if_pos (hside.mpr rfl)
  | right => exact if_neg (mt hside.mp nofun)

/-- At a node that is not the root, the checks of the body of `rbDeleteFixup` hold. -/
theorem Deficit.bodyChecked (h : s.Deficit x path t n) (hroot : x ≠ s.root) :
    s.rbDeleteFixupBodyChecked x = some (s.rbDeleteFixupBody x) := by
  have hbody : ∀ {d : Side} {c : Color} {p : Ptr} {sibling : RBTree Ptr} {path : RBPath Ptr},
      s.Deficit x (⟨d, c, p, sibling⟩ :: path) t n → sibling ≠ .leaf →
      s.rbDeleteFixupSideChecked d x = some (s.rbDeleteFixupSide d x) →
        s.rbDeleteFixupBodyChecked x = some (s.rbDeleteFixupBody x) := by
    intro d c p sibling path hdeficit hsibling hside
    rw [hdeficit.bodyChecked_eq hsibling, hdeficit.body_eq hsibling, hside]
  -- The black nodes that are missing at the node are present at its sibling.
  have haccepts := h.accepts
  cases haccepts with
  | root => exact absurd (h.entry.symm.trans h.focus.above.symm) hroot
  | @red d p sibling path _ hsibling hpath =>
      obtain ⟨w₁, w, w₂, c₁, c₂, rfl, hw₁, hw₂⟩ := hsibling.cases_black d
      exact hbody h RBTree.nodeOn_ne_leaf (h.sideChecked_of_black hw₁ hw₂ hpath)
  | @black d p sibling path _ c' _ hsibling hpath =>
      cases c' with
      | black =>
          obtain ⟨w₁, w, w₂, c₁, c₂, rfl, hw₁, hw₂⟩ := hsibling.cases_black d
          exact hbody h RBTree.nodeOn_ne_leaf (h.sideChecked_of_black hw₁ hw₂ hpath)
      | red =>
          obtain ⟨w₁, w, w₂, rfl, hw₁, hw₂⟩ := hsibling.cases_red d
          exact hbody h RBTree.nodeOn_ne_leaf (h.sideChecked_of_red hw₁ hw₂ hpath)

/-- The checks hold in every round of `rbDeleteFixup`. -/
theorem Deficit.rbDeleteFixupChecked (h : s.Deficit x path t n) :
    s.rbDeleteFixupChecked x = s.rbDeleteFixup x := by
  let inv (r : ProcTree × Ptr) : Prop := ∃ path' t' n', r.1.Deficit r.2 path' t' n'
  have hstep : ∀ r, inv r → decide (r.2 ≠ r.1.root ∧ (r.1.proc r.2).color = .black) = true →
      r.1.rbDeleteFixupBodyChecked r.2 = some (r.1.rbDeleteFixupBody r.2) ∧
        inv (r.1.rbDeleteFixupBody r.2) := by
    rintro ⟨s₁, x₁⟩ ⟨path₁, t₁, n₁, hdeficit⟩ hguard
    obtain ⟨hroot, hcolor⟩ := of_decide_eq_true hguard
    obtain ⟨s₂, x₂, path₂, t₂, n₂, hbody, hdeficit₂, -⟩ := hdeficit.step hroot hcolor
    refine ⟨hdeficit.bodyChecked hroot, ?_⟩
    rw [show (s₁, x₁).1.rbDeleteFixupBody (s₁, x₁).2 = _ from hbody]
    exact ⟨path₂, t₂, n₂, hdeficit₂⟩
  have hrun := whileFuel_bind inv hstep loopFuel (s := (s, x)) ⟨path, t, n, h⟩
  unfold ProcTree.rbDeleteFixupChecked ProcTree.rbDeleteFixup
  rw [show whileFuel (fun r => r.any fun (s, x) => decide (x ≠ s.root ∧ (s.proc x).color = .black))
    _ loopFuel (some (s, x)) = _ from hrun]
  cases whileFuel _ _ loopFuel (s, x) <;> rfl

/-! ## The operations -/

variable {stackStart : Ptr → Ptr} {pid : Word} {l r : RBTree Ptr}

/-- The insertion of a fresh structure does not miss a relative. -/
theorem Valid.rbInsertChecked (h : s.Valid whole) (hp : p ∉ whole.toList) (hnull : p ≠ null)
    (hnil : p ≠ s.nil) : s.rbInsertChecked p = s.rbInsert p := by
  obtain ⟨path, -, hred, -, -, hinsert⟩ := h.sound.attach h.size_le hp hnull hnil
  rw [ProcTree.rbInsertChecked, rbInsert_eq_by, hinsert, hinsert]
  exact hred.fixupInsertChecked

/-- Neither does taking out a structure that was found. -/
theorem Valid.rbUnlinkChecked (h : s.Valid (path.plug (.node c l z r)))
    (hfocus : s.Focus path (.node c l z r)) :
    s.rbUnlinkBy ProcTree.rbDeleteFixupChecked z = s.rbUnlink z := by
  obtain ⟨s', x, yc, path', t', hfirst, hunlinked⟩ := h.sound.unlink h.size_le hfocus
  rw [rbUnlink_eq_by, rbUnlinkBy, rbUnlinkBy, hfirst]
  simp only [Option.bind_eq_bind, Option.bind_some]
  cases yc with
  | red => rfl
  | black =>
      obtain ⟨m, hdeficit⟩ := hunlinked.deficit
      exact hdeficit.rbDeleteFixupChecked

/-- The deletion of an id, whether it is in the tree or not. -/
theorem Valid.rbDeleteChecked (stackStart : Ptr → Ptr) (h : s.Valid whole) (pid : Word) :
    s.rbDeleteChecked stackStart pid = s.rbDelete stackStart pid := by
  obtain ⟨path, t, ⟨hfocus, rfl, -⟩, hsearch, -⟩ := h.rbSearch pid
  unfold ProcTree.rbDeleteChecked ProcTree.rbDelete
  rw [hsearch]
  cases t with
  | leaf => simp only [RBTree.entry, Option.bind_eq_bind, Option.bind_some, if_true]
  | node c l z r =>
      simp only [RBTree.entry_node, Option.bind_eq_bind, Option.bind_some,
        h.rbUnlinkChecked hfocus]

end ProcTree

namespace TreeSession

open ProcTree

/-- A step of a session, with the checks. -/
def stepChecked (stackStart : Ptr → Ptr) (s : TreeSession) : Op → Option TreeSession
  | .insert p x =>
      ((s.tree.modify p fun _ => x).rbInsertChecked p).map fun tree =>
        ⟨tree, Function.update s.stored x.pid (some p)⟩
  | .delete pid =>
      (s.tree.rbDeleteChecked stackStart pid).map fun (tree, _) =>
        ⟨tree, Function.update s.stored pid none⟩

variable {s : TreeSession} {t : RBTree Ptr}

theorem Represents.stepChecked (stackStart : Ptr → Ptr) (h : s.Represents t) (op : Op)
    (hop : s.enabled op) : s.stepChecked stackStart op = s.step stackStart op := by
  cases op with
  | insert p x =>
      obtain ⟨hnull, hnil, hfresh, -⟩ := hop
      have hp : p ∉ t.toList := fun hmem => hfresh _ ((h.stored _ p).mpr ⟨hmem, rfl⟩)
      rw [TreeSession.stepChecked, TreeSession.step,
        (h.valid.place hp hnil x).rbInsertChecked hp hnull hnil]
  | delete pid =>
      rw [TreeSession.stepChecked, TreeSession.step, h.valid.rbDeleteChecked]

/-- In no sequence of insertions of fresh structures and of deletions does a fix-up meet a missing
relative: with the checks, the operations return what they return without them. -/
theorem stepChecked_run (stackStart : Ptr → Ptr) (memory : ProcTree) (block : Ptr)
    (ops : List Op) (hops : Admissible (step stackStart) enabled (start memory block) ops) :
    ∃ s, runSteps (step stackStart) (start memory block) ops = some s ∧
      runSteps (stepChecked stackStart) (start memory block) ops = some s := by
  obtain ⟨s, hrun, -⟩ := exists_run hops
  have hchecked := runSteps_congr (fun s : TreeSession => ∃ t, s.Represents t)
    (fun s op s' hs hop hstep => Represents.of_step hs hop hstep)
    (fun s op ⟨t, ht⟩ hop => ht.stepChecked stackStart op hop)
    ⟨_, start_represents memory block⟩ hops
  exact ⟨s, hrun, hchecked.trans hrun⟩

/-- The guards hold in the rotations and fix-up rounds of these operations. -/
theorem stepChecked_run_fiveOps :
    ∃ s, runSteps (step id) (start ⟨fun _ => .zero, 0, 0⟩ 0xD0000000) fiveOps = some s ∧
      runSteps (stepChecked id) (start ⟨fun _ => .zero, 0, 0⟩ 0xD0000000) fiveOps = some s :=
  stepChecked_run id ⟨fun _ => .zero, 0, 0⟩ 0xD0000000 fiveOps fiveOps_admissible

end TreeSession

end Senob.Sys
