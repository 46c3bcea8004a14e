import Senob.Sys.ProcessTree

/-!
# The layout of the process tree

The relation between the memory of the process structures and a tree of their
addresses. `Focus s path t` says that the structures of `s` form the tree that
has `t` at the end of `path`. The pointer operations of `process.c` act on such a
layout as the operations on trees that their names promise.
-/

namespace Senob.Sys

open Senob.Foundation

/-- The fields of a structure that the tree uses, seen from side `d`. -/
structure Process.Links (x : Process) (par : Ptr) (c : Color) (d : Side) (near far : Ptr) :
    Prop where
  parent : x.parent = par
  color : x.color = c
  near : x.child d = near
  far : x.child d.other = far

theorem Process.Links.flip {x : Process} {par : Ptr} {c : Color} {d : Side} {near far : Ptr}
    (h : x.Links par c d near far) : x.Links par c d.other far near :=
  ⟨h.parent, h.color, h.far, by rw [Side.other_other]; exact h.near⟩

@[simp] theorem Process.child_setChild (x : Process) (d : Side) (v : Ptr) :
    (x.setChild d v).child d = v := by cases d <;> rfl

@[simp] theorem Process.child_setChild_other (x : Process) (d : Side) (v : Ptr) :
    (x.setChild d v).child d.other = x.child d.other := by cases d <;> rfl

@[simp] theorem Process.child_setChild_other' (x : Process) (d : Side) (v : Ptr) :
    (x.setChild d.other v).child d = x.child d := by cases d <;> rfl

@[simp] theorem Process.parent_setChild (x : Process) (d : Side) (v : Ptr) :
    (x.setChild d v).parent = x.parent := by cases d <;> rfl

@[simp] theorem Process.color_setChild (x : Process) (d : Side) (v : Ptr) :
    (x.setChild d v).color = x.color := by cases d <;> rfl

/-- The fields of a structure that the tree does not link. -/
def Process.data (x : Process) : Word × Ptr × Word × Ptr × Ptr :=
  (x.pid, x.pageDirectory, x.isUserProc, x.headThread, x.tailThread)

/-- The fields of a structure that the tree reads. -/
def Process.node (x : Process) : Word × Color × Ptr × Ptr × Ptr :=
  (x.pid, x.color, x.parent, x.left, x.right)

theorem Process.Links.of_node {x y : Process} {par : Ptr} {c : Color} {near far : Ptr}
    (h : x.Links par c .left near far) (hnode : y.node = x.node) :
    y.Links par c .left near far := by
  obtain ⟨-, hcolor, hparent, hleft, hright⟩ : _ ∧ _ ∧ _ ∧ _ ∧ _ := by
    simpa [Process.node] using hnode
  exact ⟨hparent.trans h.parent, hcolor.trans h.color, hleft.trans h.near, hright.trans h.far⟩

@[simp] theorem Process.data_setChild (x : Process) (d : Side) (v : Ptr) :
    (x.setChild d v).data = x.data := by cases d <;> rfl

theorem Process.pid_eq_of_data {x y : Process} (h : x.data = y.data) : x.pid = y.pid :=
  congrArg Prod.fst h

/-- The node that the last step of a path leaves. -/
def parentOf : RBPath Ptr → Ptr
  | [] => null
  | f :: _ => f.key

namespace ProcTree

variable {s s' : ProcTree} {p k par par' u v x y : Ptr} {d : Side} {c c' cx cy : Color}
  {t near far a b e : RBTree Ptr} {path : RBPath Ptr}

/-! ## Memory updates -/

section Updates

variable (s p k) (f : Process → Process)

@[simp] theorem modify_proc_self : (s.modify p f).proc p = f (s.proc p) :=
  Function.update_self ..

variable {p k} in
@[simp] theorem modify_proc_of_ne (h : k ≠ p) : (s.modify p f).proc k = s.proc k :=
  Function.update_of_ne h ..

/-- A property of structures that an update respects holds at every address. -/
theorem modify_proc_apply {γ : Type} (g : Process → γ) (hf : g (f (s.proc p)) = g (s.proc p)) :
    g ((s.modify p f).proc k) = g (s.proc k) := by
  by_cases h : k = p
  · rw [h, modify_proc_self, hf]
  · rw [modify_proc_of_ne s f h]

@[simp] theorem modify_root : (s.modify p f).root = s.root := rfl

@[simp] theorem modify_nil : (s.modify p f).nil = s.nil := rfl

@[simp] theorem setRoot_proc : (s.setRoot p).proc = s.proc := rfl

@[simp] theorem setRoot_root : (s.setRoot p).root = p := rfl

@[simp] theorem setRoot_nil : (s.setRoot p).nil = s.nil := rfl

@[simp] theorem setColor_parent (c : Color) : ((s.setColor p c).proc k).parent =
    (s.proc k).parent := modify_proc_apply s p k _ Process.parent rfl

theorem setColor_eq_self {c : Color} (h : (s.proc p).color = c) : s.setColor p c = s := by
  have hproc : Function.update s.proc p { s.proc p with color := c } = s.proc := by
    rw [← h]
    exact Function.update_eq_self p s.proc
  exact congrArg (fun f => { s with proc := f }) hproc

@[simp] theorem setColor_child (c : Color) : ((s.setColor p c).proc k).child d =
    (s.proc k).child d :=
  modify_proc_apply s p k _ (Process.child · d) (by cases d <;> rfl)

theorem data_setColor (c : Color) : ((s.setColor p c).proc k).data = (s.proc k).data :=
  modify_proc_apply s p k _ Process.data rfl

theorem data_setParent (v : Ptr) : ((s.setParent p v).proc k).data = (s.proc k).data :=
  modify_proc_apply s p k _ Process.data rfl

theorem data_setChild (d : Side) (v : Ptr) :
    ((s.setChild d p v).proc k).data = (s.proc k).data :=
  modify_proc_apply s p k (fun x => x.setChild d v) Process.data (Process.data_setChild ..)

end Updates

/-- The data of every structure is the same in both states. -/
structure KeepsData (s s' : ProcTree) : Prop where
  nil : s'.nil = s.nil
  data : ∀ k, (s'.proc k).data = (s.proc k).data

theorem KeepsData.trans {s s' s'' : ProcTree} (h : s.KeepsData s') (h' : s'.KeepsData s'') :
    s.KeepsData s'' :=
  ⟨h'.nil.trans h.nil, fun k => (h'.data k).trans (h.data k)⟩

/-- In addition the sentinel is the same. -/
structure Keeps (s s' : ProcTree) : Prop extends s.KeepsData s' where
  sentinel : s'.proc s.nil = s.proc s.nil

theorem Keeps.refl (s : ProcTree) : s.Keeps s := ⟨⟨rfl, fun _ => rfl⟩, rfl⟩

theorem Keeps.trans {s s' s'' : ProcTree} (h : s.Keeps s') (h' : s'.Keeps s'') : s.Keeps s'' :=
  ⟨h.toKeepsData.trans h'.toKeepsData, (h.nil ▸ h'.sentinel).trans h.sentinel⟩

theorem Keeps.setColor (hp : p ≠ s.nil) (c : Color) : s.Keeps (s.setColor p c) :=
  ⟨⟨rfl, fun k => data_setColor s p k c⟩, modify_proc_of_ne s _ hp.symm⟩

/-! ## Layouts -/

/-- The structures at the keys of the tree hold its links, and `par` is the parent of
its root. -/
def Owns (s : ProcTree) (par : Ptr) : RBTree Ptr → Prop
  | .leaf => True
  | .node c l key r =>
      (s.proc key).Links par c .left (l.entry s.nil) (r.entry s.nil) ∧
        s.Owns key l ∧ s.Owns key r

theorem owns_nodeOn : s.Owns par (.nodeOn d c near k far) ↔
    (s.proc k).Links par c d (near.entry s.nil) (far.entry s.nil) ∧
      s.Owns k near ∧ s.Owns k far := by
  cases d
  · rfl
  · constructor
    · rintro ⟨hlinks, hl, hr⟩
      exact ⟨hlinks.flip, hr, hl⟩
    · rintro ⟨hlinks, hl, hr⟩
      exact ⟨hlinks.flip, hr, hl⟩

/-- The structures on the path and beside it hold their links, and the hole of the
path holds the pointer `p`. -/
def OwnsPath (s : ProcTree) (p : Ptr) : RBPath Ptr → Prop
  | [] => s.root = p
  | f :: path =>
      (s.proc f.key).Links (parentOf path) f.color f.side p (f.sibling.entry s.nil) ∧
        s.Owns f.key f.sibling ∧ s.OwnsPath f.key path

theorem Owns.congr_node (h : s.Owns par t) (hnil : s'.nil = s.nil)
    (hproc : ∀ k ∈ t.toList, (s'.proc k).node = (s.proc k).node) : s'.Owns par t := by
  induction t generalizing par with
  | leaf => trivial
  | node c l key r ihl ihr =>
      obtain ⟨hlinks, hl, hr⟩ := h
      refine ⟨?_, ihl hl fun k hk => hproc k ?_, ihr hr fun k hk => hproc k ?_⟩
      · rw [hnil]
        exact hlinks.of_node (hproc key (by simp [RBTree.toList]))
      · simp [RBTree.toList, hk]
      · simp [RBTree.toList, hk]

theorem Owns.congr (h : s.Owns par t) (hnil : s'.nil = s.nil)
    (hproc : ∀ k ∈ t.toList, s'.proc k = s.proc k) : s'.Owns par t :=
  h.congr_node hnil fun k hk => congrArg Process.node (hproc k hk)

theorem OwnsPath.congr (h : s.OwnsPath p path) (hnil : s'.nil = s.nil)
    (hroot : s'.root = s.root) (hproc : ∀ k ∈ path.keys, s'.proc k = s.proc k) :
    s'.OwnsPath p path := by
  induction path generalizing p with
  | nil => exact hroot.trans h
  | cons f path ih =>
      obtain ⟨hlinks, hsibling, hpath⟩ := h
      refine ⟨?_, hsibling.congr hnil fun k hk => hproc k ?_, ih hpath fun k hk => hproc k ?_⟩
      · rw [hproc f.key (by simp [RBPath.keys]), hnil]
        exact hlinks
      · simp [RBPath.keys, hk]
      · simp [RBPath.keys, hk]

/-- Only the structure at the root knows the parent. -/
theorem Owns.reparent (h : s.Owns par t) (hnil : s'.nil = s.nil) (hnodup : t.toList.Nodup)
    (hroot : t ≠ .leaf →
      s'.proc (t.entry s.nil) = { s.proc (t.entry s.nil) with parent := par' })
    (hproc : ∀ k ∈ t.toList, k ≠ t.entry s.nil → s'.proc k = s.proc k) :
    s'.Owns par' t := by
  cases t with
  | leaf => trivial
  | node c l key r =>
      obtain ⟨hlinks, hl, hr⟩ := h
      simp only [RBTree.toList, List.nodup_middle, List.nodup_cons, List.mem_append,
        not_or] at hnodup
      refine ⟨?_, hl.congr hnil fun k hk => hproc k ?_ ?_, hr.congr hnil fun k hk => hproc k ?_ ?_⟩
      · have hkey := hroot fun hleaf => by cases hleaf
        rw [RBTree.entry] at hkey
        rw [hkey, hnil]
        exact ⟨rfl, hlinks.color, hlinks.near, hlinks.far⟩
      · simp [RBTree.toList, hk]
      · rintro rfl
        exact hnodup.1.1 hk
      · simp [RBTree.toList, hk]
      · rintro rfl
        exact hnodup.1.2 hk

/-- The structures form a tree that has `t` at the end of `path`. -/
structure Focus (s : ProcTree) (path : RBPath Ptr) (t : RBTree Ptr) : Prop where
  subtree : s.Owns (parentOf path) t
  above : s.OwnsPath (t.entry s.nil) path
  nodup : (path.plug t).toList.Nodup
  node : ∀ k ∈ (path.plug t).toList, k ≠ null ∧ k ≠ s.nil

namespace Focus

theorem up (h : s.Focus (⟨d, c, k, far⟩ :: path) near) :
    s.Focus path (.nodeOn d c near k far) :=
  ⟨owns_nodeOn.mpr ⟨h.above.1, h.subtree, h.above.2.1⟩,
    by rw [RBTree.entry_nodeOn]; exact h.above.2.2, h.nodup, h.node⟩

theorem down (h : s.Focus path (.nodeOn d c near k far)) :
    s.Focus (⟨d, c, k, far⟩ :: path) near := by
  obtain ⟨hlinks, hnear, hfar⟩ := owns_nodeOn.mp h.subtree
  exact ⟨hnear, ⟨hlinks, hfar, by have := h.above; rwa [RBTree.entry_nodeOn] at this⟩,
    h.nodup, h.node⟩

/-- The other subtree of the last step comes into focus. -/
theorem across (h : s.Focus (⟨d, c, k, far⟩ :: path) near) :
    s.Focus (⟨d.other, c, k, near⟩ :: path) far := by
  have hup := h.up
  rw [← RBTree.nodeOn_other] at hup
  exact hup.down

theorem climb {lpath : RBPath Ptr} (h : s.Focus (lpath ++ path) t) :
    s.Focus path (lpath.plug t) := by
  induction lpath generalizing t with
  | nil => exact h
  | cons f lpath ih => exact ih (up h)

theorem descend {lpath : RBPath Ptr} (h : s.Focus path (lpath.plug t)) :
    s.Focus (lpath ++ path) t := by
  induction lpath generalizing t with
  | nil => exact h
  | cons f lpath ih => exact down (ih h)

/-- The whole tree is laid out from `root`. -/
theorem zoomOut (h : s.Focus path t) : s.Focus [] (path.plug t) :=
  climb (by rwa [List.append_nil])

/-- The keys of the subtree in focus are not on the path. -/
theorem notMem_keys (h : s.Focus path t) (hk : k ∈ t.toList) : k ∉ path.keys :=
  (RBPath.nodup_toList_plug.mp h.nodup).2.2 k hk

theorem ne_nil (h : s.Focus path t) (hk : k ∈ (path.plug t).toList) : k ≠ s.nil :=
  (h.node k hk).2

/-- What is known of the node in focus and of its subtrees. -/
theorem distinct (h : s.Focus path (.nodeOn d c near k far)) :
    k ∉ near.toList ∧ k ∉ far.toList ∧ k ∉ path.keys ∧ k ≠ null ∧ k ≠ s.nil := by
  have hnodup := (RBPath.nodup_toList_plug.mp h.nodup).1
  rw [(RBTree.perm_toList_nodeOn d c near k far).nodup_iff, List.nodup_cons, List.mem_append,
    not_or] at hnodup
  have hk : k ∈ (RBTree.nodeOn d c near k far).toList := RBTree.mem_toList_nodeOn.mpr (.inl rfl)
  exact ⟨hnodup.1.1, hnodup.1.2, h.notMem_keys hk, h.node k (RBPath.mem_toList_plug.mpr (.inl hk))⟩

theorem links (h : s.Focus path (.nodeOn d c near k far)) :
    (s.proc k).Links (parentOf path) c d (near.entry s.nil) (far.entry s.nil) :=
  (owns_nodeOn.mp h.subtree).1

/-- Recolour the node in focus. -/
theorem setColor (h : s.Focus path (.nodeOn d c near k far)) (c' : Color) :
    (s.setColor k c').Focus path (.nodeOn d c' near k far) ∧ s.Keeps (s.setColor k c') := by
  obtain ⟨hlinks, hnear, hfar⟩ := owns_nodeOn.mp h.subtree
  obtain ⟨hknear, hkfar, hkpath, _, _⟩ := h.distinct
  have hproc : ∀ j, j ≠ k → (s.setColor k c').proc j = s.proc j :=
    fun j hj => modify_proc_of_ne s _ hj
  have hlist : (path.plug (.nodeOn d c near k far)).toList =
      (path.plug (.nodeOn d c' near k far)).toList :=
    RBPath.toList_plug_congr path (RBTree.toList_nodeOn_congr rfl rfl)
  refine ⟨⟨owns_nodeOn.mpr ⟨?_, hnear.congr rfl fun j hj => hproc j ?_,
    hfar.congr rfl fun j hj => hproc j ?_⟩, ?_, hlist ▸ h.nodup, hlist ▸ h.node⟩,
    .setColor h.distinct.2.2.2.2 c'⟩
  · rw [ProcTree.setColor, modify_proc_self]
    cases d
    · exact ⟨hlinks.parent, rfl, hlinks.near, hlinks.far⟩
    · exact ⟨hlinks.parent, rfl, hlinks.near, hlinks.far⟩
  · exact fun heq => hknear (heq ▸ hj)
  · exact fun heq => hkfar (heq ▸ hj)
  · have habove := h.above
    rw [RBTree.entry_nodeOn] at habove ⊢
    exact habove.congr rfl rfl fun j hj => hproc j fun heq => hkpath (heq ▸ hj)

end Focus

/-! ## The pointer to the node in focus -/

/-- Make the pointer in the hole of the path point to `v`. -/
def hook (s : ProcTree) (v : Ptr) : RBPath Ptr → ProcTree
  | [] => s.setRoot v
  | f :: _ => s.setChild f.side f.key v

@[simp] theorem hook_nil : (s.hook v path).nil = s.nil := by cases path <;> rfl

theorem hook_proc (hk : k ∉ path.keys) : (s.hook v path).proc k = s.proc k := by
  cases path with
  | nil => rfl
  | cons f path =>
      have hne : k ≠ f.key := fun heq => hk (by simp [RBPath.keys, heq])
      exact modify_proc_of_ne s (fun x => x.setChild f.side v) hne

theorem OwnsPath.hook (h : s.OwnsPath u path) (hnodup : path.keys.Nodup) :
    (s.hook v path).OwnsPath v path := by
  cases path with
  | nil => rfl
  | cons f path =>
      obtain ⟨hlinks, hsibling, hpath⟩ := h
      simp only [RBPath.keys, List.nodup_cons, List.mem_append, not_or] at hnodup
      have hproc : ∀ j, j ≠ f.key → (s.hook v (f :: path)).proc j = s.proc j :=
        fun j hj => modify_proc_of_ne s (fun x => x.setChild f.side v) hj
      refine ⟨?_, hsibling.congr rfl fun j hj => hproc j ?_,
        hpath.congr rfl rfl fun j hj => hproc j ?_⟩
      · simp only [ProcTree.hook, ProcTree.setChild, modify_proc_self, modify_nil]
        exact ⟨by simp [hlinks.parent], by simp [hlinks.color], by simp, by simp [hlinks.far]⟩
      · exact fun heq => hnodup.1.1 (heq ▸ hj)
      · exact fun heq => hnodup.1.2 (heq ▸ hj)

/-- The assignment through the parent of `u` finds the pointer that holds `u`. -/
theorem relink_eq_hook (h : s.OwnsPath u path) (hpar : (s.proc u).parent = parentOf path)
    (hu : u ∉ path.keys) (hunil : u ≠ s.nil) (hnull : ∀ k ∈ path.keys, k ≠ null) :
    s.relink u v = s.hook v path := by
  cases path with
  | nil => simp [relink, hpar, parentOf, ProcTree.hook]
  | cons f path =>
      obtain ⟨hlinks, -, -⟩ := h
      have hne : f.key ≠ null := hnull f.key (by simp [RBPath.keys])
      have hother : u ≠ f.sibling.entry s.nil := by
        intro heq
        by_cases hleaf : f.sibling = .leaf
        · exact hunil (by simpa [hleaf, RBTree.entry] using heq)
        · have := RBTree.entry_mem s.nil hleaf
          exact hu (by simp [RBPath.keys, heq, this])
      simp only [relink, hpar, parentOf, if_neg hne, ProcTree.hook]
      rcases f with ⟨_ | _, c, key, sibling⟩
      · exact if_pos hlinks.near.symm
      · exact if_neg fun heq => hother (heq.trans hlinks.far)

/-! ## Rotation -/

/-- Make `x` the parent of `p`, unless `p` is the sentinel. -/
def adopt (s : ProcTree) (p x : Ptr) : ProcTree := if p ≠ s.nil then s.setParent p x else s

@[simp] theorem adopt_nil : (s.adopt p x).nil = s.nil := by
  rw [adopt]; split <;> rfl

@[simp] theorem adopt_root : (s.adopt p x).root = s.root := by
  rw [adopt]; split <;> rfl

theorem adopt_proc (h : p ≠ s.nil) :
    (s.adopt p x).proc p = { s.proc p with parent := x } := by
  rw [adopt, if_pos h]; exact modify_proc_self ..

theorem adopt_proc_of_ne (h : k ≠ p) : (s.adopt p x).proc k = s.proc k := by
  rw [adopt]
  split
  · exact modify_proc_of_ne _ _ h
  · rfl

theorem adopt_proc_nil : (s.adopt p x).proc s.nil = s.proc s.nil := by
  rw [adopt]
  split
  next hp => exact modify_proc_of_ne _ _ (Ne.symm hp)
  next => rfl

/-- The rotation as a change of the pointers between three nodes. -/
def turned (s : ProcTree) (d : Side) (x y p : Ptr) (path : RBPath Ptr) : ProcTree :=
  let s := (s.setChild d.other x p).adopt p x
  let s := (s.setParent y (parentOf path)).hook y path
  (s.setChild d y x).setParent x y

theorem turned_proc (hkx : k ≠ x) (hky : k ≠ y) (hk : k ∉ path.keys) :
    (s.turned d x y p path).proc k = (s.adopt p x).proc k := by
  rw [turned, modify_proc_of_ne _ _ hkx, modify_proc_of_ne _ _ hky, hook_proc hk,
    modify_proc_of_ne _ _ hky]
  by_cases hkp : k = p
  · by_cases hp : p = s.nil
    · simp [adopt, hp, modify_proc_of_ne _ _ hkx]
    · subst hkp
      rw [adopt_proc hp, adopt_proc (by simpa using hp), modify_proc_of_ne _ _ hkx]
  · rw [adopt_proc_of_ne hkp, adopt_proc_of_ne hkp, modify_proc_of_ne _ _ hkx]

theorem turned_proc_top (hxy : x ≠ y) (hyp : y ≠ p) (hy : y ∉ path.keys) :
    (s.turned d x y p path).proc y =
      Process.setChild { s.proc y with parent := parentOf path } d x := by
  rw [turned, modify_proc_of_ne _ _ hxy.symm, modify_proc_self, hook_proc hy, modify_proc_self,
    adopt_proc_of_ne hyp, modify_proc_of_ne _ _ hxy.symm]

theorem turned_proc_bottom (hxy : x ≠ y) (hxp : x ≠ p) (hx : x ∉ path.keys) :
    (s.turned d x y p path).proc x = { (s.proc x).setChild d.other p with parent := y } := by
  rw [turned, modify_proc_self, modify_proc_of_ne _ _ hxy, hook_proc hx,
    modify_proc_of_ne _ _ hxy, adopt_proc_of_ne hxp, modify_proc_self]

theorem Focus.ne_entry (h : s.Focus path t) (hk : k ∈ (path.plug t).toList) {t' : RBTree Ptr}
    (hkt : k ∉ t'.toList) : k ≠ t'.entry s.nil := by
  rintro rfl
  by_cases hleaf : t' = .leaf
  · exact h.ne_nil hk (by rw [hleaf]; rfl)
  · exact hkt (RBTree.entry_mem _ hleaf)

/-- The three nodes whose links a rotation changes are different, and not on the path. -/
theorem Focus.rotate_distinct (h : s.Focus path (.nodeOn d cx a x (.nodeOn d cy b y e))) :
    x ≠ y ∧ x ≠ b.entry s.nil ∧ y ≠ b.entry s.nil ∧ y ∉ path.keys ∧
      ∀ k ∈ path.keys, k ≠ x ∧ k ≠ y ∧ k ≠ b.entry s.nil := by
  obtain ⟨_, hxfar, hxpath, _, _⟩ := h.distinct
  have hy : y ∈ (RBTree.nodeOn d cx a x (.nodeOn d cy b y e)).toList := by
    simp [RBTree.mem_toList_nodeOn]
  have hypath := h.notMem_keys hy
  have hxy : x ≠ y := fun heq => hxfar (by simp [heq, RBTree.mem_toList_nodeOn])
  refine ⟨hxy, h.ne_entry ?_ ?_, h.ne_entry ?_ h.down.across.distinct.1, hypath, ?_⟩
  · simp [RBPath.mem_toList_plug, RBTree.mem_toList_nodeOn]
  · exact fun hmem => hxfar (by simp [RBTree.mem_toList_nodeOn, hmem])
  · exact RBPath.mem_toList_plug.mpr (.inl hy)
  · intro k hk
    refine ⟨fun heq => hxpath (heq ▸ hk), fun heq => hypath (heq ▸ hk),
      h.ne_entry (RBPath.mem_toList_plug.mpr (.inr hk)) fun hmem => ?_⟩
    exact h.notMem_keys (by simp [RBTree.mem_toList_nodeOn, hmem]) hk

theorem Focus.rotate_eq_turned (h : s.Focus path (.nodeOn d cx a x (.nodeOn d cy b y e))) :
    s.rotate d x = s.turned d x y (b.entry s.nil) path := by
  have hx := h.links
  have hy := h.down.across.links
  obtain ⟨hxy, hxp, hyp, hypath, hpath⟩ := h.rotate_distinct
  have hxpath := h.distinct.2.2.1
  rw [RBTree.entry_nodeOn] at hx
  generalize b.entry s.nil = p at *
  -- The state in which the pointer to `x` is moved to `y`.
  let mid := ((s.setChild d.other x p).adopt p x).setParent y (parentOf path)
  have hmidx : mid.proc x = (s.proc x).setChild d.other p := by
    rw [modify_proc_of_ne _ _ hxy, adopt_proc_of_ne hxp, modify_proc_self]
  have hmid : mid.OwnsPath x path := by
    have habove := h.above
    rw [RBTree.entry_nodeOn] at habove
    refine habove.congr (by simp [mid]) (by simp [mid]) fun k hk => ?_
    obtain ⟨hkx, hky, hkp⟩ := hpath k hk
    rw [modify_proc_of_ne _ _ hky, adopt_proc_of_ne hkp, modify_proc_of_ne _ _ hkx]
  have hrelink : mid.relink x y = mid.hook y path := by
    refine relink_eq_hook hmid ?_ hxpath (by simpa [mid] using h.distinct.2.2.2.2)
      fun k hk => (h.node k (RBPath.mem_toList_plug.mpr (.inr hk))).1
    rw [hmidx]
    simpa using hx.parent
  have hparent : (((s.setChild d.other x p).adopt p x).proc x).parent = parentOf path := by
    rw [adopt_proc_of_ne hxp, modify_proc_self]
    simpa using hx.parent
  have hchild : ((s.setChild d.other x p).proc y).child d = p := by
    rw [modify_proc_of_ne _ _ hxy.symm]
    exact hy.near
  unfold rotate turned
  simp only [hx.far, hy.near, hchild]
  change (((((s.setChild d.other x p).adopt p x).setParent y
    (((s.setChild d.other x p).adopt p x).proc x).parent).relink x y).setChild d y x).setParent
      x y = _
  rw [hparent, hrelink]

theorem turned_nil : (s.turned d x y p path).nil = s.nil := by simp [turned]

theorem turned_ownsPath (h : s.OwnsPath x path) (hnodup : path.keys.Nodup)
    (hpath : ∀ k ∈ path.keys, k ≠ x ∧ k ≠ y ∧ k ≠ p) :
    (s.turned d x y p path).OwnsPath y path := by
  have hmid : (((s.setChild d.other x p).adopt p x).setParent y (parentOf path)).OwnsPath x
      path := by
    refine h.congr (by simp) (by simp) fun k hk => ?_
    obtain ⟨hkx, hky, hkp⟩ := hpath k hk
    rw [modify_proc_of_ne _ _ hky, adopt_proc_of_ne hkp, modify_proc_of_ne _ _ hkx]
  refine (hmid.hook hnodup).congr rfl rfl fun k hk => ?_
  rw [turned, modify_proc_of_ne _ _ (hpath k hk).1, modify_proc_of_ne _ _ (hpath k hk).2.1]

@[simp] theorem data_adopt : ((s.adopt p x).proc k).data = (s.proc k).data := by
  rw [adopt]
  split
  · exact data_setParent ..
  · rfl

@[simp] theorem data_hook : ((s.hook v path).proc k).data = (s.proc k).data := by
  cases path with
  | nil => rfl
  | cons f path => exact data_setChild ..

theorem data_turned : ((s.turned d x y p path).proc k).data = (s.proc k).data := by
  unfold turned
  rw [data_setParent, data_setChild, data_hook, data_setParent, data_adopt, data_setChild]

/-- A rotation turns the tree in focus. -/
theorem Focus.rotate (h : s.Focus path (.nodeOn d cx a x (.nodeOn d cy b y e))) :
    (s.rotate d x).Focus path (.nodeOn d cy (.nodeOn d cx a x b) y e) ∧
      s.Keeps (s.rotate d x) := by
  obtain ⟨hxy, hxp, hyp, hypath, hpath⟩ := h.rotate_distinct
  have hxpath := h.distinct.2.2.1
  have hbelow := h.down.across
  obtain ⟨hxlinks, howna, -⟩ := owns_nodeOn.mp h.subtree
  obtain ⟨hylinks, hownb, howne⟩ := owns_nodeOn.mp hbelow.subtree
  have habove := h.above
  rw [RBTree.entry_nodeOn] at habove hxlinks
  have hlist := RBPath.toList_plug_congr path (RBTree.toList_rotate d cx cy cy cx a b e x y)
  rw [h.rotate_eq_turned]
  have hnil : (s.turned d x y (b.entry s.nil) path).nil = s.nil := turned_nil
  have hchanged : ∀ k ∈ (RBTree.nodeOn d cx a x (.nodeOn d cy b y e)).toList, k ≠ x → k ≠ y →
      (s.turned d x y (b.entry s.nil) path).proc k = (s.adopt (b.entry s.nil) x).proc k :=
    fun k hk hkx hky => turned_proc hkx hky (h.notMem_keys hk)
  have hsame : ∀ k ∈ (RBTree.nodeOn d cx a x (.nodeOn d cy b y e)).toList, k ≠ x → k ≠ y →
      k ∉ b.toList → (s.turned d x y (b.entry s.nil) path).proc k = s.proc k := by
    intro k hk hkx hky hkb
    rw [hchanged k hk hkx hky, adopt_proc_of_ne]
    exact h.ne_entry (RBPath.mem_toList_plug.mpr (.inl hk)) hkb
  obtain ⟨hxa, hxrest, _, _, hxnil⟩ := h.distinct
  obtain ⟨hyb, hye, hyabove, _, hynil⟩ := hbelow.distinct
  refine ⟨⟨owns_nodeOn.mpr ⟨?_, owns_nodeOn.mpr ⟨?_, ?_, ?_⟩, ?_⟩, ?_, hlist ▸ h.nodup,
    fun k hk => hnil.symm ▸ h.node k (hlist ▸ hk)⟩, ⟨⟨hnil, fun k => data_turned⟩, ?_⟩⟩
  · rw [turned_proc_top hxy hyp hypath, RBTree.entry_nodeOn, hnil]
    cases d
    · exact ⟨rfl, hylinks.color, rfl, hylinks.far⟩
    · exact ⟨rfl, hylinks.color, rfl, hylinks.far⟩
  · rw [turned_proc_bottom hxy hxp hxpath, hnil]
    cases d
    · exact ⟨rfl, hxlinks.color, hxlinks.near, rfl⟩
    · exact ⟨rfl, hxlinks.color, hxlinks.near, rfl⟩
  · -- The first subtree stays where it is.
    refine howna.congr hnil fun k hk => hsame k ?_ ?_ ?_ ?_
    · simp [RBTree.mem_toList_nodeOn, hk]
    · exact fun heq => hxa (heq ▸ hk)
    · exact fun heq => hyabove (by simp [RBPath.keys, ← heq, hk])
    · exact fun hkb => hbelow.notMem_keys (k := k) (by simp [RBTree.mem_toList_nodeOn, hkb])
        (by simp [RBPath.keys, hk])
  · -- The middle subtree gets a new parent.
    have hk : ∀ k ∈ b.toList, k ∈ (RBTree.nodeOn d cx a x (.nodeOn d cy b y e)).toList ∧ k ≠ x ∧
        k ≠ y := fun k hk => ⟨by simp [RBTree.mem_toList_nodeOn, hk],
      fun heq => hxrest (by simp [RBTree.mem_toList_nodeOn, ← heq, hk]), fun heq => hyb (heq ▸ hk)⟩
    refine hownb.reparent hnil (RBPath.nodup_toList_plug.mp hbelow.down.nodup).1 (fun hb => ?_)
      fun k hkb hne => ?_
    · have hmem := RBTree.entry_mem s.nil hb
      obtain ⟨htree, hkx, hky⟩ := hk _ hmem
      rw [hchanged _ htree hkx hky, adopt_proc]
      exact h.ne_nil (RBPath.mem_toList_plug.mpr (.inl htree))
    · obtain ⟨htree, hkx, hky⟩ := hk k hkb
      rw [hchanged _ htree hkx hky, adopt_proc_of_ne hne]
  · -- The last subtree stays where it is.
    refine howne.congr hnil fun k hk => hsame k ?_ ?_ ?_ ?_
    · simp [RBTree.mem_toList_nodeOn, hk]
    · exact fun heq => hxrest (by simp [RBTree.mem_toList_nodeOn, ← heq, hk])
    · exact fun heq => hye (heq ▸ hk)
    · exact fun hkb => hbelow.down.notMem_keys hkb (by simp [RBPath.keys, hk])
  · rw [RBTree.entry_nodeOn]
    exact turned_ownsPath habove (RBPath.nodup_toList_plug.mp h.nodup).2.1 hpath
  · rw [turned_proc hxnil.symm hynil.symm, adopt_proc_nil]
    exact fun hmem => h.ne_nil (RBPath.mem_toList_plug.mpr (.inr hmem)) rfl

end ProcTree

end Senob.Sys
