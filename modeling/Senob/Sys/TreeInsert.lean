import Senob.Sys.TreeSearch

/-!
# Insertion into the process tree

`rbInsert` attaches the new structure as a red leaf, and `fixupInsert` moves the
red node up until its parent is black. The tree above the red node accepts a
black subtree throughout; only the two colours at that point can clash.
-/

namespace Senob.Sys

open Senob.Foundation

namespace ProcTree

variable {s : ProcTree} {p g x y : Ptr} {d d' : Side} {c : Color}
  {t near far sibling uncle whole : RBTree Ptr} {path : RBPath Ptr} {n : Nat}

/-! ## The new leaf -/

/-- The memory after the first part of `rbInsert`. -/
def attached (s : ProcTree) (p : Ptr) (path : RBPath Ptr) : ProcTree :=
  ((((s.setParent p (parentOf path)).hook p path).setChild .left p s.nil).setChild .right p
    s.nil).setColor p .red

/-- Away from the path only the new structure changes. -/
theorem attached_proc_of_ne {k : Ptr} (hkp : k ≠ p) (hk : k ∉ path.keys) :
    (s.attached p path).proc k = s.proc k := by
  rw [attached, modify_proc_of_ne _ _ hkp, modify_proc_of_ne _ _ hkp, modify_proc_of_ne _ _ hkp,
    hook_proc hk, modify_proc_of_ne _ _ hkp]

theorem attached_proc_self (hp : p ∉ path.keys) : (s.attached p path).proc p =
    { s.proc p with parent := parentOf path, left := s.nil, right := s.nil, color := .red } := by
  rw [attached, modify_proc_self, modify_proc_self, modify_proc_self, hook_proc hp,
    modify_proc_self]
  rfl

/-- A fresh structure becomes a red leaf at the end of the path. -/
theorem Focus.attach (h : s.Focus path .leaf) (hp : p ∉ path.keys) (hnull : p ≠ null)
    (hnil : p ≠ s.nil) :
    (s.attached p path).Focus path (.node .red .leaf p .leaf) ∧ s.Keeps (s.attached p path) := by
  have hnil' : (s.attached p path).nil = s.nil := by simp [attached]
  have hnilpath : s.nil ∉ path.keys :=
    fun hmem => h.ne_nil (RBPath.mem_toList_plug.mpr (.inr hmem)) rfl
  have hpathnodup := (RBPath.nodup_toList_plug.mp h.nodup).2.1
  have hpath : ∀ k ∈ path.keys, k ≠ p := fun k hk heq => hp (heq ▸ hk)
  refine ⟨⟨⟨?_, trivial, trivial⟩, ?_, ?_, ?_⟩, ⟨hnil', ?_⟩,
    attached_proc_of_ne hnil.symm hnilpath⟩
  · rw [attached_proc_self hp, hnil']
    exact ⟨rfl, rfl, rfl, rfl⟩
  · have hmid : (s.setParent p (parentOf path)).OwnsPath s.nil path :=
      h.above.congr rfl rfl fun k hk => modify_proc_of_ne _ _ (hpath k hk)
    refine (hmid.hook (v := p) hpathnodup).congr (by simp [attached]) rfl fun k hk => ?_
    rw [attached, modify_proc_of_ne _ _ (hpath k hk), modify_proc_of_ne _ _ (hpath k hk),
      modify_proc_of_ne _ _ (hpath k hk)]
  · exact RBPath.nodup_toList_plug.mpr
      ⟨by simp [RBTree.toList], hpathnodup, by simpa [RBTree.toList]⟩
  · intro k hk
    rw [hnil']
    rcases RBPath.mem_toList_plug.mp hk with hk | hk
    · obtain rfl : k = p := by simpa [RBTree.toList] using hk
      exact ⟨hnull, hnil⟩
    · exact h.node k (RBPath.mem_toList_plug.mpr (.inr hk))
  · intro k
    rw [attached, data_setColor, data_setChild, data_setChild, data_hook, data_setParent]

/-! ## The two cases of the fix-up -/

/-- The uncle is red: the parent and the uncle become black, the grandparent red. -/
theorem Focus.recolor {e : Side} {u₁ u₂ : RBTree Ptr}
    (h : s.Focus (⟨d', .red, p, sibling⟩ :: ⟨d, .black, g, .nodeOn e .red u₁ y u₂⟩ :: path) t) :
    (((s.setColor p .black).setColor y .black).setColor g .red).Focus path
        (.nodeOn d .red (.nodeOn d' .black t p sibling) g (.nodeOn e .black u₁ y u₂)) ∧
      s.Keeps (((s.setColor p .black).setColor y .black).setColor g .red) := by
  obtain ⟨hparent, hkeeps₁⟩ := h.up.setColor .black
  obtain ⟨huncle, hkeeps₂⟩ := hparent.across.setColor .black
  obtain ⟨hgrand, hkeeps₃⟩ := huncle.up.setColor .red
  rw [RBTree.nodeOn_other] at hgrand
  exact ⟨hgrand, (hkeeps₁.trans hkeeps₂).trans hkeeps₃⟩

/-- The node, its parent and its grandparent are in line: the parent takes the place of
the grandparent. -/
theorem Focus.turnLine
    (h : s.Focus (⟨d, .red, p, sibling⟩ :: ⟨d, .black, g, uncle⟩ :: path) t) :
    (((s.setColor p .black).setColor g .red).rotate d.other g).Focus
        (⟨d, .black, p, .nodeOn d .red sibling g uncle⟩ :: path) t ∧
      s.Keeps (((s.setColor p .black).setColor g .red).rotate d.other g) := by
  obtain ⟨hparent, hkeeps₁⟩ := h.up.setColor .black
  obtain ⟨hgrand, hkeeps₂⟩ := hparent.up.setColor .red
  rw [← RBTree.nodeOn_other d .red, ← RBTree.nodeOn_other d .black] at hgrand
  obtain ⟨hturned, hkeeps₃⟩ := hgrand.rotate
  rw [RBTree.nodeOn_other, RBTree.nodeOn_other] at hturned
  exact ⟨hturned.down, (hkeeps₁.trans hkeeps₂).trans hkeeps₃⟩

/-- The node lies between its parent and its grandparent: it takes the place of the
parent. -/
theorem Focus.turnBend (h : s.Focus (⟨d.other, .red, p, sibling⟩ :: path)
    (.nodeOn d .red near x far)) :
    (s.rotate d p).Focus (⟨d, .red, x, far⟩ :: path) (.nodeOn d .red sibling p near) ∧
      s.Keeps (s.rotate d p) := by
  have hup := h.up
  rw [RBTree.nodeOn_other] at hup
  obtain ⟨hturned, hkeeps⟩ := hup.rotate
  exact ⟨hturned.down, hkeeps⟩

/-! ## The loop of the fix-up -/

/-- What holds at the head of the loop: a red node in focus, and a tree around it that
would accept a black one. -/
structure RedFocus (s : ProcTree) (newNode : Ptr) (path : RBPath Ptr) (t : RBTree Ptr) (n : Nat) :
    Prop where
  focus : s.Focus path t
  entry : t.entry s.nil = newNode
  red : t.Balanced .red n
  accepts : path.Accepts .black n
  sentinel : (s.proc s.nil).color = .black

/-- The branches of the loop body, with what is done in each. -/
def fixupInsertBranch {α : Type} (s : ProcTree) (newNode : Ptr) (exit : α) (recolor : Ptr → α)
    (rotate : Side → α) : α :=
  let parent := (s.proc newNode).parent
  if parent = null ∨ (s.proc parent).parent = null then exit
  else
    let grand := (s.proc parent).parent
    if parent = (s.proc grand).left then
      let y := (s.proc grand).right
      if y ≠ s.nil ∧ (s.proc y).color = .red then recolor y else rotate .left
    else
      let y := (s.proc grand).left
      if (s.proc y).color = .red then recolor y else rotate .right

theorem fixupInsertBody_eq_branch (s : ProcTree) (newNode : Ptr) :
    s.fixupInsertBody newNode = s.fixupInsertBranch newNode (s, newNode, true)
      (s.fixupInsertRecolor newNode) (s.fixupInsertRotate · newNode) := rfl

/-- The two halves of the loop body, whose conditions differ, do the same. -/
theorem fixupInsertBranch_eq {α : Type} {exit : α} {recolor : Ptr → α} {rotate : Side → α}
    (h : s.Focus (⟨d', c, p, sibling⟩ :: ⟨d, .black, g, uncle⟩ :: path) t)
    (hx : (s.proc x).parent = p) (hnil : (s.proc s.nil).color = .black) :
    s.fixupInsertBranch x exit recolor rotate =
      if uncle.rootColor = .red then recolor (uncle.entry s.nil) else rotate d := by
  have hp := h.up.links
  have hg := h.up.up.links
  have hpmem : p ∈ (path.plug (.nodeOn d .black (.nodeOn d' c t p sibling) g uncle)).toList := by
    simp [RBPath.mem_toList_plug, RBTree.mem_toList_nodeOn]
  have hpu : p ≠ uncle.entry s.nil :=
    h.up.up.ne_entry hpmem fun hmem => h.up.notMem_keys (k := p)
      (RBTree.mem_toList_nodeOn.mpr (.inl rfl)) (by simp [RBPath.keys, hmem])
  have huncle := h.up.across.color_entry hnil
  have hpnull : p ≠ null := (h.up.up.node p hpmem).1
  have hgnull : g ≠ null := h.up.up.distinct.2.2.2.1
  have hred : uncle.rootColor = .red → uncle.entry s.nil ≠ s.nil := by
    intro hc heq
    rw [h.up.across.entry_eq_nil.mp heq] at hc
    cases hc
  simp only [fixupInsertBranch, hx, hp.parent, parentOf, hpnull, hgnull, or_self, if_false]
  cases d with
  | left =>
      have hleft : (s.proc g).left = p := hg.near.trans (RBTree.entry_nodeOn ..)
      have hright : (s.proc g).right = uncle.entry s.nil := hg.far
      rw [if_pos hleft.symm, hright, huncle]
      by_cases hc : uncle.rootColor = .red
      · rw [if_pos ⟨hred hc, hc⟩, if_pos hc]
      · rw [if_neg fun hand => hc hand.2, if_neg hc]
  | right =>
      have hleft : (s.proc g).left = uncle.entry s.nil := hg.far
      rw [hleft, if_neg hpu, huncle]

/-- The two pointer reads of `fixupInsertRecolor` are stable under its colourings. -/
theorem fixupInsertRecolor_eq (hx : (s.proc x).parent = p) (hp : (s.proc p).parent = g) :
    s.fixupInsertRecolor x y =
      (((s.setColor p .black).setColor y .black).setColor g .red, g, false) := by
  simp [fixupInsertRecolor, hx, hp]

theorem fixupInsertRotate_eq (hx : (s.proc x).parent = p) (hp : (s.proc p).parent = g)
    (hne : x ≠ (s.proc p).child d.other) :
    s.fixupInsertRotate d x =
      (((s.setColor p .black).setColor g .red).rotate d.other g, x, false) := by
  simp [fixupInsertRotate, hx, hp, hne]

theorem fixupInsertRotate_eq_of_bend (hx : (s.proc x).parent = p)
    (hp : (s.proc p).child d.other = x) :
    s.fixupInsertRotate d x =
      (((s.rotate d p).setColor ((s.rotate d p).proc p).parent .black).setColor
        ((s.rotate d p).proc ((s.rotate d p).proc p).parent).parent .red |>.rotate d.other
        ((s.rotate d p).proc ((s.rotate d p).proc p).parent).parent, p, false) := by
  simp [fixupInsertRotate, hx, hp]

theorem RedFocus.parent (h : s.RedFocus x path t n) : (s.proc x).parent = parentOf path := by
  rw [← h.entry]
  exact h.focus.parent_entry h.red.ne_leaf

theorem RedFocus.mem (h : s.RedFocus x path t n) : x ∈ (path.plug t).toList := by
  refine RBPath.mem_toList_plug.mpr (.inl ?_)
  rw [← h.entry]
  exact RBTree.entry_mem _ h.red.ne_leaf

/-- A node is not the sibling of itself. -/
theorem Focus.entry_ne_sibling (h : s.Focus (⟨d, c, p, sibling⟩ :: path) t) (ht : t ≠ .leaf) :
    t.entry s.nil ≠ sibling.entry s.nil := by
  have hmem := RBTree.entry_mem s.nil ht
  refine h.ne_entry (RBPath.mem_toList_plug.mpr (.inl hmem)) fun hs => ?_
  exact h.notMem_keys hmem (by simp [RBPath.keys, hs])

/-- Where the guard holds, the parent is red, and so the grandparent exists and is
black. -/
theorem RedFocus.of_guard (h : s.RedFocus x path t n)
    (hguard : fixupInsertGuard (s, x, false) = true) :
    ∃ d' p sibling d g uncle rest c, sibling.Balanced .black n ∧ uncle.Balanced c n ∧
      RBPath.Accepts rest .black (n + 1) ∧
      path = ⟨d', .red, p, sibling⟩ :: ⟨d, .black, g, uncle⟩ :: rest := by
  have hparent := h.parent
  simp only [fixupInsertGuard, hparent, Bool.not_false, Bool.true_and, decide_eq_true_eq] at hguard
  obtain ⟨hnull, hred⟩ := hguard
  cases path with
  | nil => exact absurd rfl hnull
  | cons f path =>
      have hcolor : f.color = .red := h.focus.above.1.color.symm.trans hred
      have haccepts := h.accepts
      cases haccepts with
      | black => exact nomatch hcolor
      | red hsibling hrest =>
          cases hrest with
          | black huncle hrest =>
              exact ⟨_, _, _, _, _, _, _, _, hsibling, huncle, hrest, rfl⟩

/-- The last turn: with a black uncle, the parent of the red node ends up black. -/
theorem RedFocus.line
    (h : s.RedFocus x (⟨d, .red, p, sibling⟩ :: ⟨d, .black, g, uncle⟩ :: path) t n)
    (huncle : uncle.Balanced .black n) :
    (((s.setColor p .black).setColor g .red).rotate d.other g).RedFocus x
        (⟨d, .black, p, .nodeOn d .red sibling g uncle⟩ :: path) t n ∧
      s.Keeps (((s.setColor p .black).setColor g .red).rotate d.other g) := by
  obtain ⟨hfocus, hkeeps⟩ := h.focus.turnLine
  have haccepts := h.accepts
  cases haccepts with
  | red hsibling hrest =>
      cases hrest with
      | black _ hrest =>
          refine ⟨⟨hfocus, ?_, h.red, .black (.nodeOn_red hsibling huncle) hrest, ?_⟩, hkeeps⟩
          · rw [hkeeps.nil]
            exact h.entry
          · rw [hkeeps.nil, hkeeps.sentinel]
            exact h.sentinel

theorem RedFocus.bend (h : s.RedFocus x (⟨d.other, .red, p, sibling⟩ :: path)
    (.nodeOn d .red near x far) n)
    (hnear : near.Balanced .black n) (hfar : far.Balanced .black n) :
    (s.rotate d p).RedFocus p (⟨d, .red, x, far⟩ :: path) (.nodeOn d .red sibling p near) n ∧
      s.Keeps (s.rotate d p) := by
  obtain ⟨hfocus, hkeeps⟩ := h.focus.turnBend
  have haccepts := h.accepts
  cases haccepts with
  | red hsibling hrest =>
      refine ⟨⟨hfocus, RBTree.entry_nodeOn .., .nodeOn_red hsibling hnear, .red hfar hrest, ?_⟩,
        hkeeps⟩
      rw [hkeeps.nil, hkeeps.sentinel]
      exact h.sentinel

/-- One round of the fix-up moves the red node up, or ends with a black parent. -/
theorem RedFocus.step (h : s.RedFocus x path t n)
    (hguard : fixupInsertGuard (s, x, false) = true) :
    ∃ s' x' path' t' n', s.fixupInsertBody x = (s', x', false) ∧ s'.RedFocus x' path' t' n' ∧
      path'.length < path.length ∧ (path'.plug t').toList = (path.plug t).toList ∧
      s.Keeps s' := by
  obtain ⟨d', p, sibling, d, g, uncle, rest, c, hsibling, huncle, hrest, rfl⟩ := h.of_guard hguard
  have hx : (s.proc x).parent = p := h.parent
  have hp : (s.proc p).parent = g := h.focus.up.links.parent
  rw [fixupInsertBody_eq_branch, fixupInsertBranch_eq h.focus hx h.sentinel, huncle.rootColor]
  cases c with
  | red =>
      -- A red uncle: both are recoloured, and the grandparent may be the next red child.
      obtain ⟨u₁, y, u₂, rfl, hu₁, hu₂⟩ := huncle.cases_red .left
      obtain ⟨hfocus, hkeeps⟩ := h.focus.recolor
      rw [if_pos rfl, fixupInsertRecolor_eq hx hp, RBTree.entry_nodeOn]
      refine ⟨_, _, rest, _, n + 1, rfl, ⟨hfocus, RBTree.entry_nodeOn .., ?_, hrest, ?_⟩, ?_, ?_,
        hkeeps⟩
      · exact .nodeOn_red (.nodeOn_black h.red hsibling) (.nodeOn_black hu₁ hu₂)
      · rw [hkeeps.nil, hkeeps.sentinel]
        exact h.sentinel
      · simp only [List.length_cons]
        omega
      · exact RBPath.toList_plug_congr rest (RBTree.toList_nodeOn_congr
          (RBTree.toList_nodeOn_congr rfl rfl) (RBTree.toList_nodeOn_congr rfl rfl))
  | black =>
      rw [if_neg nofun]
      -- A black uncle: one rotation in a line, two in a bend.
      by_cases hd : d' = d
      · subst hd
        obtain ⟨hline, hkeeps⟩ := h.line huncle
        have hne : x ≠ (s.proc p).child d'.other := by
          rw [h.focus.up.links.far, ← h.entry]
          exact h.focus.entry_ne_sibling h.red.ne_leaf
        rw [fixupInsertRotate_eq hx hp hne]
        refine ⟨_, _, _, _, _, rfl, hline, ?_, ?_, hkeeps⟩
        · simp only [List.length_cons]
          omega
        · exact RBPath.toList_plug_congr rest (RBTree.toList_rotate ..)
      · obtain rfl : d' = d.other := by cases d <;> cases d' <;> first | rfl | exact absurd rfl hd
        obtain ⟨near, y, far, rfl, hnear, hfar⟩ := h.red.cases_red d
        obtain rfl : y = x := by simpa using h.entry
        obtain ⟨hbend, hkeeps₁⟩ := h.bend hnear hfar
        obtain ⟨hline, hkeeps₂⟩ := hbend.line huncle
        have hfar' : (s.proc p).child d.other = y := by
          simpa using h.focus.up.links.near
        have hx' : ((s.rotate d p).proc p).parent = y := hbend.focus.links.parent
        have hy' : ((s.rotate d p).proc y).parent = g := hbend.focus.up.links.parent
        rw [fixupInsertRotate_eq_of_bend hx hfar', hx', hy']
        refine ⟨_, _, _, _, _, rfl, hline, ?_, ?_, hkeeps₁.trans hkeeps₂⟩
        · simp only [List.length_cons]
          omega
        · refine RBPath.toList_plug_congr rest ?_
          cases d <;> simp [Frame.fill, Side.other, RBTree.nodeOn, RBTree.toList]

/-- When the guard fails, the tree is balanced but for the colour of its root. -/
theorem RedFocus.balanced_of_exit (h : s.RedFocus x path t n)
    (hguard : fixupInsertGuard (s, x, false) = false) :
    ∃ c m, (path.plug t).Balanced c m := by
  have hparent : (s.proc x).parent = parentOf path := h.parent
  cases path with
  | nil => exact ⟨_, _, h.red⟩
  | cons f path =>
      rcases f with ⟨d, c, p, sibling⟩
      have hcolor : (s.proc p).color = c := h.focus.above.1.color
      have hnull : p ≠ null := h.focus.up.distinct.2.2.2.1
      simp only [fixupInsertGuard, hparent, parentOf, hcolor] at hguard
      have haccepts := h.accepts
      cases haccepts with
      | red => exact absurd (by simpa using hguard) hnull
      | black hsibling hrest =>
          obtain ⟨m, hm⟩ := hrest.plug (RBTree.Balanced.nodeOn_black h.red hsibling)
          exact ⟨_, _, hm⟩

/-- `fixupInsert` returns, and leaves a red-black tree with the same keys. -/
theorem RedFocus.fixupInsert (h : s.RedFocus x path t n) (hlength : path.length ≤ loopFuel) :
    ∃ s' t', s.fixupInsert x = some s' ∧ s'.Focus [] t' ∧ (∃ m, t'.Balanced .black m) ∧
      t'.toList = (path.plug t).toList ∧ s.Keeps s' := by
  let inv (k : Nat) (r : ProcTree × Ptr × Bool) : Prop :=
    ∃ path' t' n', r.2.2 = false ∧ r.1.RedFocus r.2.1 path' t' n' ∧ path'.length = k ∧
      (path'.plug t').toList = (path.plug t).toList ∧ s.Keeps r.1
  have hstep : ∀ k r, inv k r → fixupInsertGuard r = true →
      ∃ m < k, inv m (r.1.fixupInsertBody r.2.1) := by
    rintro k ⟨s₁, x₁, broke⟩ ⟨path₁, t₁, n₁, rfl, hred, rfl, hlist, hkeeps⟩ hguard
    obtain ⟨s₂, x₂, path₂, t₂, n₂, hbody, hred₂, hlt, hlist₂, hkeeps₂⟩ := hred.step hguard
    rw [show (s₁, x₁, false).1.fixupInsertBody (s₁, x₁, false).2.1 = _ from hbody]
    exact ⟨path₂.length, hlt, path₂, t₂, n₂, rfl, hred₂, rfl, hlist₂.trans hlist,
      hkeeps.trans hkeeps₂⟩
  have hinit : inv path.length (s, x, false) := ⟨path, t, n, rfl, h, rfl, rfl, .refl s⟩
  obtain ⟨⟨s₁, x₁, broke⟩, k, hrun, ⟨path₁, t₁, n₁, rfl, hred, rfl, hlist, hkeeps⟩, hguard⟩ :=
    whileFuel_rule hstep hinit hlength
  obtain ⟨c, m, hwhole⟩ := hred.balanced_of_exit hguard
  have hzoom := hred.focus.zoomOut
  have hmem : x₁ ∈ (path₁.plug t₁).toList := hred.mem
  have hroot : s₁.root = (path₁.plug t₁).entry s₁.nil := hzoom.above
  generalize path₁.plug t₁ = t₂ at hlist hwhole hzoom hroot hmem
  cases t₂ with
  | leaf => exact nomatch hmem
  | node c₂ l key r =>
      have hfocus : s₁.Focus [] (.nodeOn .left c₂ l key r) := hzoom
      obtain ⟨hblack, hkeeps₂⟩ := hfocus.setColor .black
      rw [RBTree.entry_node] at hroot
      refine ⟨s₁.setColor key .black, .node .black l key r, ?_, hblack, hwhole.blacken, hlist,
        hkeeps.trans hkeeps₂⟩
      unfold ProcTree.fixupInsert
      rw [show whileFuel fixupInsertGuard _ loopFuel (s, x, false) = _ from hrun]
      exact congrArg (fun p => some (s₁.setColor p .black)) hroot

/-! ## `rbInsert` -/

/-- The assignment by comparison of ids fills the pointer that the descent read. -/
theorem insert_eq_hook {pid : Word} (h : s.Descent whole pid path .leaf) (hp : p ∉ path.keys)
    (hpid : (s.proc p).pid = pid) :
    (if parentOf path = null then (s.setParent p (parentOf path)).setRoot p
      else if ((s.setParent p (parentOf path)).proc p).pid <
          ((s.setParent p (parentOf path)).proc (parentOf path)).pid then
        (s.setParent p (parentOf path)).setChild .left (parentOf path) p
      else (s.setParent p (parentOf path)).setChild .right (parentOf path) p) =
      (s.setParent p (parentOf path)).hook p path := by
  cases path with
  | nil => rfl
  | cons f path =>
      rcases f with ⟨d, c, key, sibling⟩
      have hnull : key ≠ null := h.focus.up.distinct.2.2.2.1
      have hkey : key ≠ p := fun heq => hp (by simp [RBPath.keys, heq])
      have hside := h.admits _ List.mem_cons_self
      simp only [parentOf, if_neg hnull, hook, modify_proc_self, modify_proc_of_ne _ _ hkey, hpid]
      cases d with
      | left => exact if_pos (BitVec.lt_def.mpr (hside.1 rfl))
      | right =>
          have hle : (s.proc key).pid.toNat ≤ pid.toNat := hside.2 rfl
          refine if_neg fun hlt => ?_
          rw [BitVec.lt_def] at hlt
          omega

/-- `rbInsert`, with what is done to the tree at its end. -/
def rbInsertBy (fixup : ProcTree → Ptr → Option ProcTree) (s : ProcTree) (newProcess : Ptr) :
    Option ProcTree := do
  let (y, _) ← s.descend (s.proc newProcess).pid
  let s := s.setParent newProcess y
  let s :=
    if y = null then s.setRoot newProcess
    else if (s.proc newProcess).pid < (s.proc y).pid then s.setChild .left y newProcess
    else s.setChild .right y newProcess
  let s := s.setChild .left newProcess s.nil
  let s := s.setChild .right newProcess s.nil
  let s := s.setColor newProcess .red
  fixup s newProcess

theorem rbInsert_eq_by (s : ProcTree) (newProcess : Ptr) :
    s.rbInsert newProcess = s.rbInsertBy fixupInsert newProcess := rfl

/-- The fix-up starts with the new red leaf in focus. -/
theorem Sound.attach (h : s.Sound whole) (hsize : whole.size ≤ 2 ^ 32) (hp : p ∉ whole.toList)
    (hnull : p ≠ null) (hnil : p ≠ s.nil) :
    ∃ path, s.Descent whole (s.proc p).pid path .leaf ∧
      (s.attached p path).RedFocus p path (.node .red .leaf p .leaf) 0 ∧
      s.Keeps (s.attached p path) ∧ path.length ≤ loopFuel ∧
      ∀ fixup, s.rbInsertBy fixup p = fixup (s.attached p path) p := by
  obtain ⟨path, hdescent, hdescend⟩ := h.descend hsize (s.proc p).pid
  have hplug : whole = path.plug .leaf := hdescent.plug.symm
  have hppath : p ∉ path.keys := fun hmem => hp (hplug ▸ RBPath.mem_toList_plug.mpr (.inr hmem))
  obtain ⟨hfocus, hkeeps⟩ := hdescent.focus.attach hppath hnull hnil
  obtain ⟨m, hbalanced⟩ := h.balanced
  rw [hplug] at hbalanced
  obtain ⟨c, n, hleaf, haccepts⟩ := RBPath.Accepts.of_plug hbalanced
  cases hleaf
  refine ⟨path, hdescent, ⟨hfocus, rfl, .red .leaf .leaf, haccepts, ?_⟩, hkeeps, ?_,
    fun fixup => ?_⟩
  · rw [hkeeps.nil, hkeeps.sentinel]
    exact h.sentinel
  · have := RBPath.length_le_size_plug path .leaf
    rw [← hplug] at this
    unfold loopFuel
    omega
  · unfold rbInsertBy
    rw [hdescend]
    simp only [Option.bind_eq_bind, Option.bind_some]
    rw [insert_eq_hook hdescent hppath rfl]
    simp only [modify_nil, hook_nil]
    rfl

/-- `rbInsert` of a fresh structure returns. The structure is put where the search for its id
goes on beyond equal ids. -/
theorem Sound.rbInsert (h : s.Sound whole) (hsize : whole.size ≤ 2 ^ 32) (hp : p ∉ whole.toList)
    (hnull : p ≠ null) (hnil : p ≠ s.nil) :
    ∃ s' whole' path, s.rbInsert p = some s' ∧ s'.Sound whole' ∧ s.Keeps s' ∧
      s.Descent whole (s.proc p).pid path .leaf ∧
      whole'.toList = (path.plug (.node .red .leaf p .leaf)).toList := by
  obtain ⟨path, hdescent, hred, hkeeps₁, hlength, hinsert⟩ := h.attach hsize hp hnull hnil
  obtain ⟨s', whole', hrun, hlayout, hbalanced', hlist, hkeeps₂⟩ := hred.fixupInsert hlength
  have hkeeps := hkeeps₁.trans hkeeps₂
  refine ⟨s', whole', path, (hinsert _).trans hrun, ⟨hlayout, ?_, ?_, hbalanced', ?_⟩, hkeeps,
    hdescent, hlist⟩
  · rw [hkeeps.nil, hkeeps.sentinel]
    exact h.sentinel
  · rw [hkeeps.rank, hlist]
    exact hdescent.admits.ascending_insert (hdescent.plug ▸ h.ascending)
  · rw [hlayout.above]
    refine hlayout.parent_entry ?_
    rintro rfl
    have hmem : p ∈ (path.plug (.node .red .leaf p .leaf)).toList :=
      RBPath.mem_toList_plug.mpr (.inl (by simp [RBTree.toList]))
    cases hlist.symm ▸ hmem

/-- The new structure joins the others. -/
theorem Descent.perm {whole' : RBTree Ptr} {pid : Word} (h : s.Descent whole pid path .leaf)
    (hlist : whole'.toList = (path.plug (.node .red .leaf p .leaf)).toList) :
    whole'.toList.Perm (p :: whole.toList) := by
  rw [hlist, ← h.plug]
  refine (RBPath.perm_toList_plug _ _).trans ?_
  exact List.Perm.cons p (RBPath.perm_toList_plug path .leaf).symm

/-- `rbInsert` of a fresh structure with a new id returns, and adds this structure. -/
theorem Valid.rbInsert (h : s.Valid whole) (hp : p ∉ whole.toList) (hnull : p ≠ null)
    (hnil : p ≠ s.nil) (hpid : ∀ q ∈ whole.toList, (s.proc q).pid ≠ (s.proc p).pid) :
    ∃ s' whole', s.rbInsert p = some s' ∧ s'.Valid whole' ∧
      whole'.toList.Perm (p :: whole.toList) ∧ s.Keeps s' := by
  obtain ⟨s', whole', path, hrun, hsound, hkeeps, hdescent, hlist⟩ :=
    h.sound.rbInsert h.size_le hp hnull hnil
  refine ⟨s', whole', hrun, hsound.valid ?_, hdescent.perm hlist, hkeeps⟩
  rw [hkeeps.rank, hlist]
  refine (hdescent.admits.leads fun f hf heq => ?_).sorted_insert (hdescent.plug ▸ h.sorted)
  have hmem : f.key ∈ whole.toList :=
    hdescent.plug ▸ RBPath.mem_toList_plug.mpr (.inr (RBPath.key_mem_keys hf))
  exact hpid f.key hmem (BitVec.eq_of_toNat_eq heq)

end ProcTree

end Senob.Sys
