import Senob.Sys.TreeDelete

/-!
# Runs of the process tree

A session of the process tree is its memory together with the finite map from
process ids to structures that it stands for. The map is not part of the program:
insertion and deletion update it as one would update a map, and the results below
say that the tree stays a red-black tree and that its operations are those of the
map.
-/

namespace Senob.Sys

open Senob.Foundation

namespace ProcTree

variable {s s' : ProcTree} {t whole : RBTree Ptr} {path : RBPath Ptr} {p par : Ptr}

/-! ## The empty tree -/

/-- `nodePreparation` leaves an empty tree, whatever was in memory. -/
theorem nodePreparation_valid (s : ProcTree) (block : Ptr) :
    (s.nodePreparation block).Valid .leaf := by
  refine ⟨⟨trivial, rfl, List.nodup_nil, fun _ hk => nomatch hk⟩, ?_, List.Pairwise.nil,
    ⟨0, .leaf⟩, ?_⟩
  · simp [nodePreparation]
  · simp [nodePreparation]

/-! ## Traversal -/

/-- The two states have the same child pointers. -/
structure SameShape (s s' : ProcTree) : Prop where
  nil : s'.nil = s.nil
  left : ∀ p, (s'.proc p).left = (s.proc p).left
  right : ∀ p, (s'.proc p).right = (s.proc p).right

theorem SameShape.refl (s : ProcTree) : s.SameShape s := ⟨rfl, fun _ => rfl, fun _ => rfl⟩

theorem SameShape.trans {s s' s'' : ProcTree} (h : s.SameShape s') (h' : s'.SameShape s'') :
    s.SameShape s'' :=
  ⟨h'.nil.trans h.nil, fun p => (h'.left p).trans (h.left p),
    fun p => (h'.right p).trans (h.right p)⟩

/-- The traversal calls its callback on each key of the tree, from left to right, as long
as the callback does not change child pointers. -/
theorem inOrderTraversal_spec {σ : Type} {tree : σ → ProcTree} {callback : σ → Ptr → Option σ}
    (hcallback : ∀ m q m', callback m q = some m' → (tree m).SameShape (tree m'))
    (howns : s.Owns par t) (hnode : ∀ q ∈ t.toList, q ≠ s.nil) {fuel : Nat}
    (hfuel : t.size ≤ fuel) {m : σ} (hm : s.SameShape (tree m)) :
    inOrderTraversal tree callback fuel (t.entry s.nil) m = t.toList.foldlM callback m ∧
      ∀ m', t.toList.foldlM callback m = some m' → s.SameShape (tree m') := by
  induction t generalizing par fuel m with
  | leaf =>
      refine ⟨?_, fun m' hm' => ?_⟩
      · cases fuel <;> simp [inOrderTraversal, RBTree.entry, RBTree.toList, hm.nil]
      · obtain rfl : m = m' := by simpa [RBTree.toList] using hm'
        exact hm
  | node c l key r ihl ihr =>
      obtain ⟨hlinks, hl, hr⟩ := howns
      rw [RBTree.size] at hfuel
      obtain ⟨fuel, rfl⟩ : ∃ k, fuel = k + 1 := ⟨fuel - 1, by omega⟩
      have hsizel : l.size ≤ fuel := by omega
      have hsizer : r.size ≤ fuel := by omega
      have hkey : key ≠ (tree m).nil := by
        rw [hm.nil]
        exact hnode key (by simp [RBTree.toList])
      have hnear : ((tree m).proc key).left = l.entry s.nil := (hm.left key).trans hlinks.near
      obtain ⟨hleft, hleft'⟩ := ihl hl (fun q hq => hnode q (by simp [RBTree.toList, hq])) hsizel hm
      have hafter : ∀ m₂, ((l.toList.foldlM callback m).bind fun m₁ => callback m₁ key) = some m₂ →
          s.SameShape (tree m₂) := by
        intro m₂ hm₂
        obtain ⟨m₁, hm₁, hcall⟩ := Option.bind_eq_some_iff.mp hm₂
        exact (hleft' m₁ hm₁).trans (hcallback m₁ key m₂ hcall)
      rw [RBTree.entry_node, inOrderTraversal, if_neg hkey, hnear, hleft, RBTree.toList,
        List.foldlM_append]
      simp only [List.foldlM_cons, Option.bind_eq_bind]
      cases hm₁ : l.toList.foldlM callback m with
      | none => exact ⟨rfl, fun _ hm' => by cases hm'⟩
      | some m₁ =>
          simp only [Option.bind_some]
          cases hm₂ : callback m₁ key with
          | none => exact ⟨rfl, fun _ hm' => by cases hm'⟩
          | some m₂ =>
              have hshape := hafter m₂ (by rw [hm₁, Option.bind_some, hm₂])
              -- The callback has kept the shape: this is still the right child in the tree.
              have hfar : ((tree m₂).proc key).right = r.entry s.nil :=
                (hshape.right key).trans hlinks.far
              simp only [Option.bind_some, hfar]
              exact ihr hr (fun q hq => hnode q (by simp [RBTree.toList, hq])) hsizer hshape

/-! ## What the source promises -/

/-- The pointer structure reachable from `root` is a valid red-black tree, with the
addresses of its structures arranged as in `t`. -/
structure IsRedBlack (s : ProcTree) (t : RBTree Ptr) : Prop where
  root : s.root = t.entry s.nil
  owns : s.Owns null t
  node : ∀ p ∈ t.toList, p ≠ null ∧ p ≠ s.nil
  increasing : t.toList.Pairwise fun p q => (s.proc p).pid < (s.proc q).pid
  black : (s.proc s.nil).color = .black ∧ (s.proc s.root).color = .black
  noRedRed : t.NoRedRed
  blackCounts : ∃ n, ∀ k ∈ t.blackCounts, k = n
  parents : ∀ p ∈ t.toList, ∀ d, (s.proc p).child d ≠ s.nil →
    (s.proc ((s.proc p).child d)).parent = p
  rootParent : (s.proc s.root).parent = null

theorem Owns.parent_child (h : s.Owns par t) (hp : p ∈ t.toList) (d : Side)
    (hchild : (s.proc p).child d ≠ s.nil) : (s.proc ((s.proc p).child d)).parent = p := by
  induction t generalizing par with
  | leaf => exact nomatch hp
  | node c l key r ihl ihr =>
      obtain ⟨hlinks, hl, hr⟩ := h
      simp only [RBTree.toList, List.mem_append, List.mem_cons] at hp
      rcases hp with hp | rfl | hp
      · exact ihl hl hp
      · -- The root of a subtree of the node has the node as its parent.
        have hsub : ∀ sub : RBTree Ptr, s.Owns p sub → (s.proc p).child d = sub.entry s.nil →
            (s.proc ((s.proc p).child d)).parent = p := by
          intro sub hsub heq
          cases sub with
          | leaf => exact absurd heq hchild
          | node c' l' key' r' => rw [heq]; exact hsub.1.parent
        cases d with
        | left => exact hsub l hl hlinks.near
        | right => exact hsub r hr hlinks.far
      · exact ihr hr hp

theorem Valid.isRedBlack (h : s.Valid t) : s.IsRedBlack t := by
  obtain ⟨n, hbalanced⟩ := h.balanced
  have hroot : s.root = t.entry s.nil := h.layout.above
  refine ⟨hroot, h.layout.subtree, h.layout.node, ?_, ⟨h.sentinel, ?_⟩, hbalanced.noRedRed,
    ⟨n, hbalanced.blackCounts⟩, fun p hp d hd => h.layout.subtree.parent_child hp d hd,
    h.rootParent⟩
  · exact h.sorted.imp fun hlt => BitVec.lt_def.mpr hlt
  · rw [hroot, h.layout.color_entry h.sentinel, hbalanced.rootColor]

theorem pairwise_rank_congr {r : Nat → Nat → Prop}
    (hproc : ∀ q, q ∈ t.toList ∨ q = s.nil → (s'.proc q).node = (s.proc q).node)
    (h : t.toList.Pairwise fun p q => r (s.rank p) (s.rank q)) :
    t.toList.Pairwise fun p q => r (s'.rank p) (s'.rank q) := by
  have hrank : ∀ q ∈ t.toList, s'.rank q = s.rank q := fun q hq =>
    congrArg (fun x => x.1.toNat) (hproc q (.inl hq))
  refine h.imp_of_mem fun {p q} hp hq hpq => ?_
  rw [hrank p hp, hrank q hq]
  exact hpq

/-- Only the fields that the tree reads matter, in its structures and in the sentinel. -/
theorem Sound.congr (h : s.Sound t) (hnil : s'.nil = s.nil) (hroot : s'.root = s.root)
    (hproc : ∀ q, q ∈ t.toList ∨ q = s.nil → (s'.proc q).node = (s.proc q).node) :
    s'.Sound t := by
  have hcolor : (s'.proc s.nil).color = (s.proc s.nil).color :=
    congrArg (·.2.1) (hproc s.nil (.inr rfl))
  have hentry : t.entry s.nil ∈ t.toList ∨ t.entry s.nil = s.nil := by
    by_cases ht : t = .leaf
    · exact .inr (ht ▸ rfl)
    · exact .inl (RBTree.entry_mem _ ht)
  have hparent : (s'.proc (t.entry s.nil)).parent = (s.proc (t.entry s.nil)).parent :=
    congrArg (·.2.2.1) (hproc _ hentry)
  have habove := h.root_eq
  refine ⟨⟨?_, ?_, h.layout.nodup, ?_⟩, ?_, ?_, h.balanced, ?_⟩
  · exact h.layout.subtree.congr_node hnil fun q hq => hproc q (.inl hq)
  · exact hroot.trans (habove.trans (by rw [hnil]))
  · rw [hnil]
    exact h.layout.node
  · rw [hnil, hcolor]
    exact h.sentinel
  · exact pairwise_rank_congr hproc h.ascending
  · rw [hroot, habove, hparent, ← habove]
    exact h.rootParent

theorem Valid.congr (h : s.Valid t) (hnil : s'.nil = s.nil) (hroot : s'.root = s.root)
    (hproc : ∀ q, q ∈ t.toList ∨ q = s.nil → (s'.proc q).node = (s.proc q).node) :
    s'.Valid t :=
  (h.sound.congr hnil hroot hproc).valid (pairwise_rank_congr hproc h.sorted)

/-- What is written outside the tree does not matter to it. -/
theorem Sound.place (h : s.Sound t) (hp : p ∉ t.toList) (hnil : p ≠ s.nil) (x : Process) :
    (s.modify p fun _ => x).Sound t := by
  refine h.congr rfl rfl fun q hq => congrArg Process.node (modify_proc_of_ne s _ ?_)
  rintro rfl
  exact hq.elim hp hnil

theorem Valid.place (h : s.Valid t) (hp : p ∉ t.toList) (hnil : p ≠ s.nil) (x : Process) :
    (s.modify p fun _ => x).Valid t := by
  refine (h.sound.place hp hnil x).valid (pairwise_rank_congr ?_ h.sorted)
  intro q hq
  refine congrArg Process.node (modify_proc_of_ne s _ ?_)
  rintro rfl
  exact hq.elim hp hnil

/-- Neither does what is written to the data of a structure. -/
theorem Valid.modify (h : s.Valid t) {f : Process → Process} (hf : ∀ x, (f x).node = x.node) :
    (s.modify p f).Valid t :=
  h.congr rfl rfl fun q _ => modify_proc_apply s p q f Process.node (hf _)

end ProcTree

/-! ## Sessions -/

/-- A finite map from process ids to the addresses of structures. -/
abbrev ProcessMap := Word → Option Ptr

structure TreeSession where
  tree : ProcTree
  stored : ProcessMap

namespace TreeSession

/-- Insert the structure at `p`, whose contents are `x`, or delete an id. -/
inductive Op where
  | insert (p : Ptr) (x : Process)
  | delete (pid : Word)

def step (stackStart : Ptr → Ptr) (s : TreeSession) : Op → Option TreeSession
  | .insert p x =>
      ((s.tree.modify p fun _ => x).rbInsert p).map fun tree =>
        ⟨tree, Function.update s.stored x.pid (some p)⟩
  | .delete pid =>
      (s.tree.rbDelete stackStart pid).map fun (tree, _) =>
        ⟨tree, Function.update s.stored pid none⟩

/-- A structure is inserted when it is not in the tree and its id is not in use. -/
def enabled (s : TreeSession) : Op → Prop
  | .insert p x => p ≠ null ∧ p ≠ s.tree.nil ∧ (∀ k, s.stored k ≠ some p) ∧ s.stored x.pid = none
  | .delete _ => True

/-- The session after `nodePreparation`. -/
def start (memory : ProcTree) (block : Ptr) : TreeSession :=
  ⟨memory.nodePreparation block, fun _ => none⟩

/-- The tree is valid, and its structures are those of the map. -/
structure Represents (s : TreeSession) (t : RBTree Ptr) : Prop where
  valid : s.tree.Valid t
  stored : ∀ k p, s.stored k = some p ↔ p ∈ t.toList ∧ (s.tree.proc p).pid = k

variable {s : TreeSession} {t : RBTree Ptr} {p z : Ptr} {x : Process} {pid : Word}
  {stackStart : Ptr → Ptr}

/-- Ids that the map does not know are not in the tree. -/
theorem Represents.pid_ne (h : s.Represents t) (hpid : s.stored pid = none) :
    ∀ q ∈ t.toList, (s.tree.proc q).pid ≠ pid := by
  intro q hq heq
  rw [(h.stored pid q).mpr ⟨hq, heq⟩] at hpid
  exact nomatch hpid

/-- Insertion refines the update of the map. -/
theorem Represents.insert (h : s.Represents t) (hop : s.enabled (.insert p x)) :
    ∃ tree t', s.step stackStart (.insert p x) =
        some ⟨tree, Function.update s.stored x.pid (some p)⟩ ∧ tree.nil = s.tree.nil ∧
      (⟨tree, Function.update s.stored x.pid (some p)⟩ : TreeSession).Represents t' := by
  obtain ⟨hnull, hnil, hfresh, hpid⟩ := hop
  have hp : p ∉ t.toList := fun hmem => hfresh _ ((h.stored _ p).mpr ⟨hmem, rfl⟩)
  have hplaced := h.valid.place hp hnil x
  have hself : (s.tree.modify p fun _ => x).proc p = x := ProcTree.modify_proc_self ..
  have hother : ∀ q ∈ t.toList, (s.tree.modify p fun _ => x).proc q = s.tree.proc q :=
    fun q hq => ProcTree.modify_proc_of_ne _ _ fun heq => hp (heq ▸ hq)
  obtain ⟨tree, t', hrun, hvalid, hperm, hkeeps⟩ := hplaced.rbInsert hp hnull hnil (by
    intro q hq
    rw [hself, hother q hq]
    exact h.pid_ne hpid q hq)
  refine ⟨tree, t', by rw [step, hrun]; rfl, hkeeps.nil, hvalid, fun k q => ?_⟩
  have hdata : (tree.proc q).pid = ((s.tree.modify p fun _ => x).proc q).pid :=
    Process.pid_eq_of_data (hkeeps.data q)
  change Function.update s.stored x.pid (some p) k = some q ↔ _
  rw [hperm.mem_iff, List.mem_cons, hdata]
  by_cases hq : q = p
  · subst hq
    rw [hself]
    by_cases hk : k = x.pid
    · simp [hk]
    · simp [Function.update_of_ne hk, hfresh k, Ne.symm hk]
  · by_cases hk : k = x.pid
    · subst hk
      have hne : ¬ (q ∈ t.toList ∧ ((s.tree.modify p fun _ => x).proc q).pid = x.pid) := by
        rintro ⟨hmem, heq⟩
        rw [hother q hmem] at heq
        exact h.pid_ne hpid q hmem heq
      simpa [hq, Ne.symm hq] using hne
    · rw [Function.update_of_ne hk, h.stored, ProcTree.modify_proc_of_ne _ _ hq]
      simp [hq]

theorem Represents.delete_absent (h : s.Represents t) (hpid : s.stored pid = none) :
    s.tree.rbDelete stackStart pid = some (s.tree, []) :=
  h.valid.rbDelete_absent (h.pid_ne hpid)

/-- Deletion refines the update of the map. -/
theorem Represents.delete_present (stackStart : Ptr → Ptr) (h : s.Represents t)
    (hz : s.stored pid = some z) :
    ∃ tree t', s.tree.rbDelete stackStart pid = some (tree,
        [stackStart (s.tree.proc z).headThread, (s.tree.proc z).headThread, z]) ∧
      s.tree.KeepsData tree ∧
      (⟨tree, Function.update s.stored pid none⟩ : TreeSession).Represents t' := by
  obtain ⟨hmem, hpid⟩ := (h.stored pid z).mp hz
  obtain ⟨tree, t', hrun, hvalid, hkeeps, before, after, hlist, hlist'⟩ :=
    h.valid.rbDelete_present hmem hpid
  refine ⟨tree, t', hrun, hkeeps, hvalid, fun k q => ?_⟩
  have hdata : (tree.proc q).pid = (s.tree.proc q).pid :=
    Process.pid_eq_of_data (hkeeps.data q)
  have hnodup := h.valid.layout.nodup
  rw [RBPath.plug, hlist, List.nodup_middle, List.nodup_cons] at hnodup
  have hmem' : q ∈ t'.toList ↔ q ∈ t.toList ∧ q ≠ z := by
    rw [hlist, hlist', List.mem_append, List.mem_append, List.mem_cons]
    refine ⟨fun hq => ⟨hq.imp_right .inr, ?_⟩, by tauto⟩
    rintro rfl
    exact hnodup.1 (List.mem_append.mpr hq)
  change Function.update s.stored pid none k = some q ↔ _
  rw [hmem', hdata]
  by_cases hk : k = pid
  · subst hk
    refine ⟨fun hnone => ?_, fun hq => ?_⟩
    · simp at hnone
    · exact absurd (h.valid.eq_of_pid hq.1.1 hmem (hq.2.trans hpid.symm)) hq.1.2
  · rw [Function.update_of_ne hk, h.stored]
    refine ⟨fun hq => ⟨⟨hq.1, ?_⟩, hq.2⟩, fun hq => ⟨hq.1.1, hq.2⟩⟩
    rintro rfl
    exact hk (hq.2.symm.trans hpid)

theorem Represents.delete (stackStart : Ptr → Ptr) (h : s.Represents t) (pid : Word) :
    ∃ tree t', s.step stackStart (.delete pid) = some ⟨tree, Function.update s.stored pid none⟩ ∧
      tree.nil = s.tree.nil ∧
      (⟨tree, Function.update s.stored pid none⟩ : TreeSession).Represents t' := by
  cases hz : s.stored pid with
  | none =>
      refine ⟨s.tree, t, ?_, rfl, ?_⟩
      · rw [TreeSession.step, h.delete_absent hz]
        rfl
      · rw [← hz, Function.update_eq_self]
        exact h
  | some z =>
      obtain ⟨tree, t', hrun, hkeeps, hrep⟩ := h.delete_present stackStart hz
      exact ⟨tree, t', by rw [TreeSession.step, hrun]; rfl, hkeeps.nil, hrep⟩

theorem Represents.step (stackStart : Ptr → Ptr) (h : s.Represents t) (op : Op)
    (hop : s.enabled op) :
    ∃ s', s.step stackStart op = some s' ∧ ∃ t', s'.Represents t' := by
  cases op with
  | insert p x =>
      obtain ⟨tree, t', hrun, -, hrep⟩ := h.insert hop
      exact ⟨_, hrun, t', hrep⟩
  | delete pid =>
      obtain ⟨tree, t', hrun, -, hrep⟩ := h.delete stackStart pid
      exact ⟨_, hrun, t', hrep⟩

theorem start_represents (memory : ProcTree) (block : Ptr) :
    (start memory block).Represents .leaf :=
  ⟨memory.nodePreparation_valid block, fun k p => by simp [start, RBTree.toList]⟩

/-- `rbSearch` looks the id up in the map. -/
theorem Represents.rbSearch (h : s.Represents t) (k : Word) :
    s.tree.rbSearch k = some ((s.stored k).getD s.tree.nil) := by
  obtain ⟨path, t', ⟨hfocus, hplug, hleads⟩, hsearch, hfound⟩ := h.valid.rbSearch k
  rw [hsearch]
  cases ht : t' with
  | leaf =>
      have hnone : s.stored k = none := by
        refine Option.eq_none_iff_forall_ne_some.mpr fun p hp => ?_
        obtain ⟨hmem, hpid⟩ := (h.stored k p).mp hp
        rw [ht] at hplug
        have hne := hleads.rank_ne (hplug ▸ h.valid.sound.ascending) p (hplug ▸ hmem)
        exact hne (congrArg BitVec.toNat hpid)
      rw [hnone]
      rfl
  | node c l key r =>
      have hleaf : t' ≠ .leaf := by rw [ht]; nofun
      have hmem : t'.entry s.tree.nil ∈ t.toList :=
        hplug ▸ RBPath.mem_toList_plug.mpr (.inl (RBTree.entry_mem _ hleaf))
      rw [← ht, (h.stored k _).mpr ⟨hmem, hfound hleaf⟩]
      rfl

/-! ## Results about runs -/

/-- The step that was taken keeps a session a map. -/
theorem Represents.of_step {s' : TreeSession} {op : Op} (hs : ∃ t, s.Represents t)
    (hop : s.enabled op) (hstep : s.step stackStart op = some s') : ∃ t, s'.Represents t := by
  obtain ⟨t, ht⟩ := hs
  obtain ⟨s'', hrun, hs''⟩ := ht.step stackStart op hop
  obtain rfl : s'' = s' := Option.some.inj (hrun.symm.trans hstep)
  exact hs''

/-- Every run returns, and ends in a session that stands for a map. -/
theorem exists_run {memory : ProcTree} {block : Ptr} {ops : List Op}
    (hops : Admissible (step stackStart) enabled (start memory block) ops) :
    ∃ s, runSteps (step stackStart) (start memory block) ops = some s ∧ ∃ t, s.Represents t :=
  runSteps_total (fun s : TreeSession => ∃ t, s.Represents t)
    (fun _ op ⟨_, ht⟩ hop => ht.step stackStart op hop) ⟨_, start_represents memory block⟩ hops

/-- The address and the id that an operation brings into the map. -/
def Op.inserted : Op → Option (Ptr × Word)
  | .insert p x => some (p, x.pid)
  | .delete _ => none

/-- The map, with the sentinel at `nil`, has neither the address nor the id. -/
def New (nil : Ptr) (stored : ProcessMap) (e : Ptr × Word) : Prop :=
  e.1 ≠ null ∧ e.1 ≠ nil ∧ (∀ k, stored k ≠ some e.1) ∧ stored e.2 = none

theorem New.insert {nil : Ptr} {stored : ProcessMap} {e : Ptr × Word} (h : New nil stored e)
    (haddress : p ≠ e.1) (hpid : pid ≠ e.2) : New nil (Function.update stored pid (some p)) e := by
  obtain ⟨hnull, hnil, hfresh, hid⟩ := h
  refine ⟨hnull, hnil, fun k => ?_, by rw [Function.update_of_ne (Ne.symm hpid), hid]⟩
  by_cases hk : k = pid
  · rw [hk, Function.update_self]
    exact fun heq => haddress (Option.some.inj heq)
  · rw [Function.update_of_ne hk]
    exact hfresh k

theorem New.delete {nil : Ptr} {stored : ProcessMap} {e : Ptr × Word} (h : New nil stored e)
    (pid : Word) : New nil (Function.update stored pid none) e := by
  obtain ⟨hnull, hnil, hfresh, hid⟩ := h
  refine ⟨hnull, hnil, fun k => ?_, by rw [Function.update_apply, hid, ite_self]⟩
  by_cases hk : k = pid
  · rw [hk, Function.update_self]
    exact fun heq => absurd heq (Option.some_ne_none _).symm
  · rw [Function.update_of_ne hk]
    exact hfresh k

/-- Operations that never insert an address or an id twice can be run in any order. -/
theorem Represents.admissible (h : s.Represents t) {ops : List Op}
    (hnew : ∀ e ∈ ops.filterMap Op.inserted, New s.tree.nil s.stored e)
    (hdistinct : (ops.filterMap Op.inserted).Pairwise fun e e' => e.1 ≠ e'.1 ∧ e.2 ≠ e'.2) :
    Admissible (TreeSession.step stackStart) enabled s ops := by
  induction ops generalizing s t with
  | nil => trivial
  | cons op rest ih =>
      cases op with
      | insert p x =>
          obtain ⟨hfirst, hdistinct⟩ := List.pairwise_cons.mp hdistinct
          have hop : s.enabled (.insert p x) := hnew (p, x.pid) List.mem_cons_self
          obtain ⟨tree, t', hrun, hnil, hrep⟩ := h.insert hop
          refine ⟨hop, fun s' hs' => ?_⟩
          obtain rfl := Option.some.inj (hrun.symm.trans hs')
          refine ih hrep (fun e he => ?_) hdistinct
          have hold := hnew e (List.mem_cons_of_mem _ he)
          rw [← hnil] at hold
          exact hold.insert (hfirst e he).1 (hfirst e he).2
      | delete pid =>
          obtain ⟨tree, t', hrun, hnil, hrep⟩ := h.delete stackStart pid
          refine ⟨trivial, fun s' hs' => ?_⟩
          obtain rfl := Option.some.inj (hrun.symm.trans hs')
          refine ih hrep (fun e he => ?_) hdistinct
          have hold := hnew e he
          rw [← hnil] at hold
          exact hold.delete pid

/-- Every sequence of insertions of fresh structures and of deletions is defined, and
after each operation the tree is a valid red-black tree. -/
theorem always_redBlack (stackStart : Ptr → Ptr) (memory : ProcTree) (block : Ptr)
    (ops : List Op) (hops : Admissible (step stackStart) enabled (start memory block) ops) :
    (∃ s, runSteps (step stackStart) (start memory block) ops = some s) ∧
      Always (step stackStart) (fun s => ∃ t, s.tree.IsRedBlack t) (start memory block) ops := by
  refine ⟨(exists_run hops).imp fun s hs => hs.1, ?_⟩
  have hinv := always_of_invariant (fun s : TreeSession => ∃ t, s.Represents t)
    (fun s op s' hs hop hstep => Represents.of_step hs hop hstep)
    ⟨_, start_represents memory block⟩ hops
  exact hinv.imp fun s ⟨t, ht⟩ => ⟨t, ht.valid.isRedBlack⟩

/-- Structures with the ids 21 to 24. The third insertion and the deletion rotate. -/
def fiveOps : List Op :=
  [.insert 0xD0001000 { Process.zero with pid := 21 },
    .insert 0xD0001100 { Process.zero with pid := 22 },
    .insert 0xD0001200 { Process.zero with pid := 23 },
    .insert 0xD0001300 { Process.zero with pid := 24 },
    .delete 21]

theorem fiveOps_admissible :
    Admissible (step id) enabled (start ⟨fun _ => .zero, 0, 0⟩ 0xD0000000) fiveOps :=
  (start_represents _ _).admissible
    (fun e he => ⟨by revert e; decide, by revert e; decide,
      fun _ => (Option.some_ne_none _).symm, rfl⟩) (by decide)

/-- The structure with the id 22 is the root behind the insertions, and the one with the id 23
is the root behind the deletion. -/
theorem always_redBlack_fiveOps :
    Always (step id) (fun s => ∃ t, s.tree.IsRedBlack t) (start ⟨fun _ => .zero, 0, 0⟩ 0xD0000000)
        fiveOps ∧
      (runSteps (step id) (start ⟨fun _ => .zero, 0, 0⟩ 0xD0000000) (fiveOps.take 4)).map
        (fun s => s.tree.root) = some 0xD0001100 ∧
      (runSteps (step id) (start ⟨fun _ => .zero, 0, 0⟩ 0xD0000000) fiveOps).map
        (fun s => s.tree.root) = some 0xD0001200 :=
  ⟨(always_redBlack id ⟨fun _ => .zero, 0, 0⟩ 0xD0000000 fiveOps fiveOps_admissible).2,
    by decide +kernel, by decide +kernel⟩

/-- After every sequence of insertions of fresh structures and of deletions, the tree is
the finite map that the operations built: `rbSearch` looks an id up, `rbDelete` of an
absent id changes nothing, `rbDelete` of a present id removes its structure from the map
and leaves the data of every structure alone, and `inOrderTraversal` calls its callback
once on each structure, in increasing order of the ids. -/
theorem run_refines_map (stackStart : Ptr → Ptr) (memory : ProcTree) (block : Ptr)
    (ops : List Op) (hops : Admissible (step stackStart) enabled (start memory block) ops) :
    ∃ s, runSteps (step stackStart) (start memory block) ops = some s ∧
      (∀ k, s.tree.rbSearch k = some ((s.stored k).getD s.tree.nil)) ∧
      (∀ k p, s.stored k = some p → p ≠ s.tree.nil ∧ (s.tree.proc p).pid = k) ∧
      (∀ k, s.stored k = none → s.tree.rbDelete stackStart k = some (s.tree, [])) ∧
      (∀ k p, s.stored k = some p → ∃ tree released,
        s.tree.rbDelete stackStart k = some (tree, released) ∧
        (∀ j, tree.rbSearch j = some (if j = k then tree.nil else (s.stored j).getD tree.nil)) ∧
        ∀ q, (tree.proc q).data = (s.tree.proc q).data) ∧
      ∃ l : List Ptr, (l.Pairwise fun p q => (s.tree.proc p).pid < (s.tree.proc q).pid) ∧
        (∀ p, p ∈ l ↔ ∃ k, s.stored k = some p) ∧
        ∀ (σ : Type) (tree : σ → ProcTree) (callback : σ → Ptr → Option σ) (m : σ),
          tree m = s.tree →
          (∀ m' p m'', callback m' p = some m'' → (tree m').SameShape (tree m'')) →
          ProcTree.inOrderTraversal tree callback ProcTree.loopFuel s.tree.root m =
            l.foldlM callback m := by
  obtain ⟨s, hrun, t, ht⟩ := exists_run hops
  refine ⟨s, hrun, ht.rbSearch, fun k p hp => ?_, fun k hk => ht.delete_absent hk,
    fun k p hp => ?_, t.toList, ?_, fun p => ?_, ?_⟩
  · obtain ⟨hmem, hpid⟩ := (ht.stored k p).mp hp
    exact ⟨ht.valid.layout.ne_nil hmem, hpid⟩
  · obtain ⟨tree, t', hdelete, hkeeps, hrep⟩ := ht.delete_present stackStart hp
    refine ⟨tree, _, hdelete, fun j => ?_, hkeeps.data⟩
    rw [hrep.rbSearch j]
    by_cases hj : j = k
    · simp [hj]
    · simp [hj]
  · exact ht.valid.isRedBlack.increasing
  · exact ⟨fun hmem => ⟨_, (ht.stored _ p).mpr ⟨hmem, rfl⟩⟩,
      fun ⟨k, hk⟩ => ((ht.stored k p).mp hk).1⟩
  · intro σ tree callback m hm hcallback
    have hsize : t.size ≤ ProcTree.loopFuel := ProcTree.le_loopFuel ht.valid.size_le
    have hroot : s.tree.root = t.entry s.tree.nil := ht.valid.layout.above
    rw [hroot]
    exact (ProcTree.inOrderTraversal_spec hcallback ht.valid.layout.subtree
      (fun q hq => ht.valid.layout.ne_nil hq) hsize (hm ▸ .refl s.tree)).1

/-- A callback that collects the ids. -/
def collect (m : ProcTree × List Word) (p : Ptr) : Option (ProcTree × List Word) :=
  some (m.1, m.2 ++ [(m.1.proc p).pid])

theorem foldlM_collect (s : ProcTree) (l : List Ptr) (ids : List Word) :
    l.foldlM collect (s, ids) = some (s, ids ++ l.map fun p => (s.proc p).pid) := by
  induction l generalizing ids with
  | nil => simp
  | cons p rest ih => simp [collect, ih]

/-- Looking up, deleting and visiting the structures that are left. -/
theorem run_refines_map_fiveOps :
    ∃ s, runSteps (step id) (start ⟨fun _ => .zero, 0, 0⟩ 0xD0000000) fiveOps = some s ∧
      s.tree.rbSearch 21 = some s.tree.nil ∧ s.tree.rbSearch 23 = some 0xD0001200 ∧
      s.tree.rbDelete id 21 = some (s.tree, []) ∧
      (∃ tree released, s.tree.rbDelete id 22 = some (tree, released) ∧
        tree.rbSearch 22 = some tree.nil ∧ tree.rbSearch 24 = some 0xD0001300) ∧
      ∃ l : List Ptr, (l.Pairwise fun p q => (s.tree.proc p).pid < (s.tree.proc q).pid) ∧
        (∀ p, p ∈ l ↔ ∃ k, s.stored k = some p) ∧
        ProcTree.inOrderTraversal Prod.fst collect ProcTree.loopFuel s.tree.root (s.tree, []) =
          some (s.tree, l.map fun p => (s.tree.proc p).pid) := by
  obtain ⟨s, hrun, hsearch, -, habsent, hpresent, l, hordered, hmem, htraversal⟩ :=
    run_refines_map id ⟨fun _ => .zero, 0, 0⟩ 0xD0000000 fiveOps fiveOps_admissible
  have hstored : ∀ s' ∈ runSteps (step id) (start ⟨fun _ => .zero, 0, 0⟩ 0xD0000000) fiveOps,
      s'.stored 21 = none ∧ s'.stored 22 = some 0xD0001100 ∧ s'.stored 23 = some 0xD0001200 ∧
        s'.stored 24 = some 0xD0001300 := by decide +kernel
  obtain ⟨hnone, hroot, hleft, hright⟩ := hstored s hrun
  obtain ⟨tree, released, hdelete, hafter, -⟩ := hpresent 22 _ hroot
  have hshape : ∀ m p m', collect m p = some m' → m.1.SameShape m'.1 := by
    rintro m p m' ⟨⟩
    exact .refl _
  refine ⟨s, hrun, ?_, ?_, habsent 21 hnone, ⟨tree, released, hdelete, ?_, ?_⟩, l, hordered, hmem,
    ?_⟩
  · rw [hsearch, hnone, Option.getD_none]
  · rw [hsearch, hleft, Option.getD_some]
  · rw [hafter, if_pos rfl]
  · rw [hafter, if_neg (by decide), hright, Option.getD_some]
  · rw [htraversal _ Prod.fst collect (s.tree, []) rfl hshape, foldlM_collect, List.nil_append]

end TreeSession

end Senob.Sys
