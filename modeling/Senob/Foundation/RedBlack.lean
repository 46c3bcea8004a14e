import Mathlib.Data.List.Basic
import Mathlib.Data.List.Nodup
import Mathlib.Data.List.Perm.Basic
import Mathlib.Order.Lattice

/-!
# Red-black trees with a hole

Trees with coloured nodes, and paths from a position up to the root. Filling a
path with a subtree gives a whole tree, so that an algorithm which works at a
position, with the rest of the tree above it, can be described without
recursion. Left and right are values: a statement about one side is a statement
about both.
-/

namespace Senob.Foundation

inductive Side where
  | left
  | right
  deriving DecidableEq

def Side.other : Side → Side
  | .left => .right
  | .right => .left

@[simp] theorem Side.other_other (d : Side) : d.other.other = d := by cases d <;> rfl

inductive Color where
  | black
  | red
  deriving DecidableEq

inductive RBTree (α : Type*) where
  | leaf
  | node (color : Color) (left : RBTree α) (key : α) (right : RBTree α)

variable {α : Type*}

namespace RBTree

/-- A node with the subtree `near` on side `d` and `far` on the other. -/
def nodeOn (d : Side) (c : Color) (near : RBTree α) (key : α) (far : RBTree α) : RBTree α :=
  match d with
  | .left => node c near key far
  | .right => node c far key near

theorem nodeOn_other (d : Side) (c : Color) (near : RBTree α) (key : α) (far : RBTree α) :
    nodeOn d.other c far key near = nodeOn d c near key far := by cases d <;> rfl

/-- The keys from left to right. -/
def toList : RBTree α → List α
  | leaf => []
  | node _ l key r => l.toList ++ key :: r.toList

def size : RBTree α → Nat
  | leaf => 0
  | node _ l _ r => l.size + 1 + r.size

theorem length_toList (t : RBTree α) : t.toList.length = t.size := by
  induction t with
  | leaf => rfl
  | node c l key r ihl ihr =>
      simp only [toList, List.length_append, List.length_cons, ihl, ihr, size]
      omega

/-- The colour of the root, where a leaf is black. -/
def rootColor : RBTree α → Color
  | leaf => .black
  | node c _ _ _ => c

@[simp] theorem rootColor_nodeOn (d : Side) (c : Color) (near : RBTree α) (key : α)
    (far : RBTree α) :
    (nodeOn d c near key far).rootColor = c := by cases d <;> rfl

/-- The key at the root, or `nil` for a leaf. -/
def entry (nil : α) : RBTree α → α
  | leaf => nil
  | node _ _ key _ => key

@[simp] theorem entry_node (nil : α) (c : Color) (l : RBTree α) (key : α) (r : RBTree α) :
    (node c l key r).entry nil = key := rfl

@[simp] theorem entry_nodeOn (nil : α) (d : Side) (c : Color) (near : RBTree α) (key : α)
    (far : RBTree α) : (nodeOn d c near key far).entry nil = key := by cases d <;> rfl

theorem entry_mem (nil : α) {t : RBTree α} (h : t ≠ leaf) : t.entry nil ∈ t.toList := by
  cases t with
  | leaf => exact absurd rfl h
  | node c l key r => simp [entry, toList]

theorem nodeOn_ne_leaf {d : Side} {c : Color} {near far : RBTree α} {key : α} :
    nodeOn d c near key far ≠ leaf := by cases d <;> nofun

theorem mem_toList_nodeOn {d : Side} {c : Color} {near far : RBTree α} {key x : α} :
    x ∈ (nodeOn d c near key far).toList ↔ x = key ∨ x ∈ near.toList ∨ x ∈ far.toList := by
  cases d <;> simp only [nodeOn, toList, List.mem_append, List.mem_cons] <;> grind

theorem perm_toList_nodeOn (d : Side) (c : Color) (near : RBTree α) (key : α) (far : RBTree α) :
    (nodeOn d c near key far).toList.Perm (key :: (near.toList ++ far.toList)) := by
  cases d
  · exact List.perm_middle
  · exact List.perm_middle.trans (List.Perm.cons _ List.perm_append_comm)

/-- The keys of a node do not depend on the colours in it. -/
theorem toList_nodeOn_congr {d : Side} {c c' : Color} {near near' far far' : RBTree α} {key : α}
    (hnear : near.toList = near'.toList) (hfar : far.toList = far'.toList) :
    (nodeOn d c near key far).toList = (nodeOn d c' near' key far').toList := by
  cases d <;> simp only [nodeOn, toList, hnear, hfar]

/-- A rotation keeps the keys in order. -/
theorem toList_rotate (d : Side) (c₁ c₂ c₃ c₄ : Color) (a b e : RBTree α) (x y : α) :
    (nodeOn d c₁ a x (nodeOn d c₂ b y e)).toList =
      (nodeOn d c₃ (nodeOn d c₄ a x b) y e).toList := by
  cases d <;> simp [nodeOn, toList]

/-- No red node has a red child. -/
def NoRedRed : RBTree α → Prop
  | leaf => True
  | node c l _ r => (c = .red → l.rootColor = .black ∧ r.rootColor = .black) ∧
      l.NoRedRed ∧ r.NoRedRed

/-- The number of black nodes on each path from the root to a leaf. -/
def blackCounts : RBTree α → List Nat
  | leaf => [0]
  | node c l _ r =>
      (l.blackCounts ++ r.blackCounts).map (· + if c = .black then 1 else 0)

/-- `Balanced t c n`: the root of `t` has colour `c`, every path has `n` black
nodes, and no red node has a red child. -/
inductive Balanced : RBTree α → Color → Nat → Prop
  | leaf : Balanced leaf .black 0
  | red {l r : RBTree α} {key : α} {n : Nat} : Balanced l .black n → Balanced r .black n →
      Balanced (node .red l key r) .red n
  | black {l r : RBTree α} {key : α} {n : Nat} {cl cr : Color} : Balanced l cl n →
      Balanced r cr n → Balanced (node .black l key r) .black (n + 1)

namespace Balanced

theorem nodeOn_red {d : Side} {near far : RBTree α} {key : α} {n : Nat}
    (hnear : Balanced near .black n) (hfar : Balanced far .black n) :
    Balanced (nodeOn d .red near key far) .red n := by
  cases d
  · exact .red hnear hfar
  · exact .red hfar hnear

theorem nodeOn_black {d : Side} {near far : RBTree α} {key : α} {n : Nat} {c c' : Color}
    (hnear : Balanced near c n) (hfar : Balanced far c' n) :
    Balanced (nodeOn d .black near key far) .black (n + 1) := by
  cases d
  · exact .black hnear hfar
  · exact .black hfar hnear

theorem of_nodeOn {d : Side} {near far : RBTree α} {key : α} {n : Nat} {c c' : Color}
    (h : Balanced (nodeOn d c near key far) c' n) :
    (c = .red ∧ c' = .red ∧ Balanced near .black n ∧ Balanced far .black n) ∨
      (c = .black ∧ c' = .black ∧ ∃ m c₁ c₂, n = m + 1 ∧ Balanced near c₁ m ∧
        Balanced far c₂ m) := by
  cases d <;> cases h with
  | red hl hr => simp_all
  | black hl hr => exact .inr ⟨rfl, rfl, _, _, _, rfl, by assumption, by assumption⟩

theorem rootColor {t : RBTree α} {c : Color} {n : Nat} (h : Balanced t c n) : t.rootColor = c := by
  cases h <;> rfl

theorem ne_leaf {t : RBTree α} {n : Nat} (h : Balanced t .red n) : t ≠ .leaf := by
  rintro rfl
  nomatch h

/-- A tree with a positive black height and a black root has a node there. -/
theorem cases_black {t : RBTree α} {n : Nat} (h : Balanced t .black (n + 1)) (d : Side) :
    ∃ near key far c c', t = nodeOn d .black near key far ∧ Balanced near c n ∧
      Balanced far c' n := by
  cases h with
  | black hl hr =>
      cases d
      · exact ⟨_, _, _, _, _, rfl, hl, hr⟩
      · exact ⟨_, _, _, _, _, rfl, hr, hl⟩

theorem cases_red {t : RBTree α} {n : Nat} (h : Balanced t .red n) (d : Side) :
    ∃ near key far, t = nodeOn d .red near key far ∧ Balanced near .black n ∧
      Balanced far .black n := by
  cases h with
  | red hl hr =>
      cases d
      · exact ⟨_, _, _, rfl, hl, hr⟩
      · exact ⟨_, _, _, rfl, hr, hl⟩

/-- The root of a balanced tree may be painted black. -/
theorem blacken {c c' : Color} {l r : RBTree α} {key : α} {n : Nat}
    (h : Balanced (node c l key r) c' n) : ∃ m, Balanced (node .black l key r) .black m := by
  cases h with
  | red hl hr => exact ⟨n + 1, .black hl hr⟩
  | black hl hr => exact ⟨_, .black hl hr⟩

theorem noRedRed {t : RBTree α} {c : Color} {n : Nat} (h : Balanced t c n) : t.NoRedRed := by
  induction h with
  | leaf => trivial
  | red hl hr ihl ihr => exact ⟨fun _ => ⟨hl.rootColor, hr.rootColor⟩, ihl, ihr⟩
  | black hl hr ihl ihr => exact ⟨(nomatch ·), ihl, ihr⟩

theorem blackCounts {t : RBTree α} {c : Color} {n : Nat} (h : Balanced t c n) :
    ∀ k ∈ t.blackCounts, k = n := by
  induction h with
  | leaf => simp [RBTree.blackCounts]
  | red hl hr ihl ihr =>
      intro k hk
      simp only [RBTree.blackCounts, List.mem_map, List.mem_append] at hk
      obtain ⟨j, hj, rfl⟩ := hk
      rcases hj with hj | hj
      · simpa using ihl j hj
      · simpa using ihr j hj
  | black hl hr ihl ihr =>
      intro k hk
      simp only [RBTree.blackCounts, List.mem_map, List.mem_append] at hk
      obtain ⟨j, hj, rfl⟩ := hk
      rcases hj with hj | hj
      · simpa using ihl j hj
      · simpa using ihr j hj

end Balanced

/-- `Short t n`: with one more black node on each path, `t` would have black height
`n + 1`. Painting a red root black is one way to provide it. -/
inductive Short : RBTree α → Nat → Prop
  | black {t : RBTree α} {n : Nat} : Balanced t .black n → Short t n
  | red {l r : RBTree α} {key : α} {n : Nat} {cl cr : Color} : Balanced l cl n →
      Balanced r cr n → Short (node .red l key r) n

theorem Balanced.short {t : RBTree α} {c : Color} {n : Nat} (h : Balanced t c n) : Short t n := by
  cases h with
  | leaf => exact .black .leaf
  | red hl hr => exact .red hl hr
  | black hl hr => exact .black (.black hl hr)

theorem Short.nodeOn_red {d : Side} {near far : RBTree α} {key : α} {n : Nat} {c c' : Color}
    (hnear : Balanced near c n) (hfar : Balanced far c' n) :
    Short (nodeOn d .red near key far) n := by
  cases d
  · exact .red hnear hfar
  · exact .red hfar hnear

theorem Short.blacken {l r : RBTree α} {key : α} {n : Nat} (h : Short (node .red l key r) n) :
    Balanced (node .black l key r) .black (n + 1) := by
  cases h with
  | black h => nomatch h
  | red hl hr => exact .black hl hr

theorem Short.balanced {t : RBTree α} {n : Nat} (h : Short t n) (hroot : t.rootColor = .black) :
    Balanced t .black n := by
  cases h with
  | black h => exact h
  | red => exact nomatch hroot

end RBTree

/-- One step of a path: the hole is the child on `side` of the node `key`, and
`sibling` is its other child. -/
structure Frame (α : Type*) where
  side : Side
  color : Color
  key : α
  sibling : RBTree α

def Frame.fill (f : Frame α) (t : RBTree α) : RBTree α :=
  RBTree.nodeOn f.side f.color t f.key f.sibling

/-- A path from a hole up to the root, innermost step first. -/
abbrev RBPath (α : Type*) := List (Frame α)

namespace RBPath

/-- The whole tree: the path with `t` in its hole. -/
def plug : RBPath α → RBTree α → RBTree α
  | [], t => t
  | f :: path, t => plug path (f.fill t)

/-- The keys of the path and of the subtrees that hang off it. -/
def keys : RBPath α → List α
  | [] => []
  | f :: path => f.key :: (f.sibling.toList ++ keys path)

theorem key_mem_keys {path : RBPath α} {f : Frame α} (hf : f ∈ path) : f.key ∈ path.keys := by
  induction path with
  | nil => exact nomatch hf
  | cons g path ih =>
      simp only [keys, List.mem_cons, List.mem_append]
      rcases List.mem_cons.mp hf with rfl | hf
      · exact .inl rfl
      · exact .inr (.inr (ih hf))

theorem plug_ne_leaf {path : RBPath α} {t : RBTree α} (h : t ≠ .leaf) : plug path t ≠ .leaf := by
  induction path generalizing t with
  | nil => exact h
  | cons f path ih => exact ih RBTree.nodeOn_ne_leaf

/-- The root of the whole tree is on the path, unless the hole is at the root. -/
theorem entry_plug_mem {path : RBPath α} (nil : α) (t : RBTree α) (h : path ≠ []) :
    (plug path t).entry nil ∈ keys path := by
  induction path generalizing t with
  | nil => exact absurd rfl h
  | cons f path ih =>
      by_cases hpath : path = []
      · subst hpath
        simp [plug, Frame.fill, keys]
      · exact List.mem_cons_of_mem _ (List.mem_append_right _ (ih (f.fill t) hpath))

theorem perm_toList_plug (path : RBPath α) (t : RBTree α) :
    (plug path t).toList.Perm (t.toList ++ keys path) := by
  induction path generalizing t with
  | nil => simp [plug, keys]
  | cons f path ih =>
      refine (ih (f.fill t)).trans ?_
      have hfill : (f.fill t).toList.Perm (f.key :: (t.toList ++ f.sibling.toList)) :=
        RBTree.perm_toList_nodeOn _ _ _ _ _
      refine (hfill.append_right _).trans ?_
      simp only [keys, List.cons_append, List.append_assoc]
      exact List.perm_middle.symm

theorem mem_toList_plug {path : RBPath α} {t : RBTree α} {x : α} :
    x ∈ (plug path t).toList ↔ x ∈ t.toList ∨ x ∈ keys path := by
  rw [(perm_toList_plug path t).mem_iff, List.mem_append]

theorem nodup_toList_plug {path : RBPath α} {t : RBTree α} :
    (plug path t).toList.Nodup ↔
      t.toList.Nodup ∧ (keys path).Nodup ∧ ∀ x ∈ t.toList, x ∉ keys path := by
  rw [(perm_toList_plug path t).nodup_iff, List.nodup_append']
  rfl

/-- The keys before the hole, from left to right. -/
def before : RBPath α → List α
  | [] => []
  | ⟨.left, _, _, _⟩ :: path => before path
  | ⟨.right, _, key, sibling⟩ :: path => before path ++ (sibling.toList ++ [key])

/-- The keys after the hole, from left to right. -/
def after : RBPath α → List α
  | [] => []
  | ⟨.left, _, key, sibling⟩ :: path => key :: sibling.toList ++ after path
  | ⟨.right, _, _, _⟩ :: path => after path

theorem toList_plug (path : RBPath α) (t : RBTree α) :
    (plug path t).toList = before path ++ t.toList ++ after path := by
  induction path generalizing t with
  | nil => simp [plug, before, after]
  | cons f path ih =>
      rcases f with ⟨_ | _, c, key, sibling⟩
      · simp [plug, ih, Frame.fill, RBTree.nodeOn, RBTree.toList, before, after]
      · simp [plug, ih, Frame.fill, RBTree.nodeOn, RBTree.toList, before, after]

theorem toList_plug_congr (path : RBPath α) {t t' : RBTree α} (h : t.toList = t'.toList) :
    (plug path t).toList = (plug path t').toList := by
  rw [toList_plug, toList_plug, h]

theorem plug_append (path path' : RBPath α) (t : RBTree α) :
    plug (path ++ path') t = plug path' (plug path t) := by
  induction path generalizing t with
  | nil => rfl
  | cons f path ih => exact ih (f.fill t)

theorem length_le_size_plug (path : RBPath α) (t : RBTree α) :
    path.length + t.size ≤ (plug path t).size := by
  rw [← RBTree.length_toList (plug path t), (perm_toList_plug path t).length_eq, List.length_append,
    RBTree.length_toList]
  have : path.length ≤ (keys path).length := by
    induction path with
    | nil => exact Nat.le_refl _
    | cons f path ih =>
        simp only [keys, List.length_cons, List.length_append]
        omega
  omega

/-- `Accepts path c n`: with a subtree of root colour `c` and black height `n` in
its hole, the path is a red-black tree. -/
inductive Accepts : RBPath α → Color → Nat → Prop
  | root (n : Nat) : Accepts [] .black n
  | red {d : Side} {key : α} {sibling : RBTree α} {path : RBPath α} {n : Nat} :
      sibling.Balanced .black n → Accepts path .red n →
      Accepts (⟨d, .red, key, sibling⟩ :: path) .black n
  | black {d : Side} {key : α} {sibling : RBTree α} {path : RBPath α} {c c' : Color} {n : Nat} :
      sibling.Balanced c' n → Accepts path .black (n + 1) →
      Accepts (⟨d, .black, key, sibling⟩ :: path) c n

theorem Accepts.plug {path : RBPath α} {c : Color} {n : Nat} (h : Accepts path c n) {t : RBTree α}
    (ht : t.Balanced c n) : ∃ m, (path.plug t).Balanced .black m := by
  induction h generalizing t with
  | root n => exact ⟨n, ht⟩
  | red hsibling _ ih => exact ih (RBTree.Balanced.nodeOn_red ht hsibling)
  | black hsibling _ ih => exact ih (RBTree.Balanced.nodeOn_black ht hsibling)

/-- With a black sibling, a node of either colour stands above a black subtree. -/
theorem Accepts.cons {d : Side} {c : Color} {key : α} {sibling : RBTree α} {path : RBPath α}
    {n : Nat}
    (hsibling : sibling.Balanced .black n)
    (h : Accepts path c (if c = .black then n + 1 else n)) :
    Accepts (⟨d, c, key, sibling⟩ :: path) .black n := by
  cases c with
  | black => exact .black hsibling h
  | red => exact .red hsibling h

/-- A hole that takes a red root takes a black one. -/
theorem Accepts.to_black {path : RBPath α} {c : Color} {n : Nat} (h : Accepts path c n) :
    Accepts path .black n := by
  cases h with
  | root => exact .root n
  | red hsibling h => exact .red hsibling h
  | black hsibling h => exact .black hsibling h

/-- In a balanced tree the path to any subtree accepts it. -/
theorem Accepts.of_plug {path : RBPath α} {t : RBTree α} {m : Nat}
    (h : (path.plug t).Balanced .black m) :
    ∃ c n, t.Balanced c n ∧ Accepts path c n := by
  induction path generalizing t with
  | nil => exact ⟨.black, m, h, .root m⟩
  | cons f path ih =>
      obtain ⟨c, n, hfill, hpath⟩ := ih h
      rcases f with ⟨d, fc, key, sibling⟩
      cases d <;> cases hfill with
      | red hl hr =>
          first
            | exact ⟨_, _, hl, .red hr hpath⟩
            | exact ⟨_, _, hr, .red hl hpath⟩
      | black hl hr =>
          first
            | exact ⟨_, _, hl, .black hr hpath⟩
            | exact ⟨_, _, hr, .black hl hpath⟩

/-- Taking away a node that has at most one child leaves a balanced tree when the node
was red, and one black node short when it was black. -/
theorem Accepts.remove {path : RBPath α} {d : Side} {c c' : Color} {t : RBTree α} {key : α}
    {n : Nat}
    (h : Accepts path c' n) (hnode : (RBTree.nodeOn d c t key .leaf).Balanced c' n) :
    (c = .red → ∃ m, (path.plug t).Balanced .black m) ∧
      (c = .black → ∃ m, t.Short m ∧ Accepts path .black (m + 1)) := by
  rcases hnode.of_nodeOn with ⟨rfl, rfl, ht, hleaf⟩ | ⟨rfl, rfl, m, c₁, c₂, rfl, ht, hleaf⟩
  · cases hleaf
    exact ⟨fun _ => h.to_black.plug ht, nofun⟩
  · exact ⟨nofun, fun _ => ⟨m, ht.short, h⟩⟩

/-- The key of a node on the path plays no role for the colours. -/
theorem Accepts.rekey {path path' : RBPath α} {d : Side} {fc : Color} {key : α} (key' : α)
    {sibling : RBTree α} {c : Color} {n : Nat}
    (h : Accepts (path ++ ⟨d, fc, key, sibling⟩ :: path') c n) :
    Accepts (path ++ ⟨d, fc, key', sibling⟩ :: path') c n := by
  induction path generalizing c n with
  | nil =>
      cases h with
      | red hsibling h => exact .red hsibling h
      | black hsibling h => exact .black hsibling h
  | cons f path ih =>
      cases h with
      | red hsibling h => exact .red hsibling (ih h)
      | black hsibling h => exact .black hsibling (ih h)

/-! ## Search paths -/

section Search

variable {β : Type*} [LinearOrder β] (rank : α → β)

/-- The keys are in strictly increasing order of rank. -/
abbrev Sorted (l : List α) : Prop := l.Pairwise (rank · < rank ·)

/-- The keys are in increasing order of rank, and ranks may repeat. -/
abbrev Ascending (l : List α) : Prop := l.Pairwise (rank · ≤ rank ·)

/-- The path is the one that a search for the rank `b` takes. -/
def Leads (b : β) (path : RBPath α) : Prop :=
  ∀ f ∈ path, (f.side = .left → b < rank f.key) ∧ (f.side = .right → rank f.key < b)

/-- The path is the one that the insertion of the rank `b` takes, to the right of equal
ranks. -/
def Admits (b : β) (path : RBPath α) : Prop :=
  ∀ f ∈ path, (f.side = .left → b < rank f.key) ∧ (f.side = .right → rank f.key ≤ b)

variable {rank} {b : β} {path : RBPath α} {t : RBTree α}

theorem Sorted.ascending {l : List α} (h : Sorted rank l) : Ascending rank l :=
  h.imp fun hlt => le_of_lt hlt

theorem Leads.admits (h : Leads rank b path) : Admits rank b path :=
  fun f hf => ⟨(h f hf).1, fun hside => le_of_lt ((h f hf).2 hside)⟩

theorem Admits.leads (h : Admits rank b path) (hne : ∀ f ∈ path, rank f.key ≠ b) :
    Leads rank b path :=
  fun f hf => ⟨(h f hf).1, fun hside => lt_of_le_of_ne ((h f hf).2 hside) (hne f hf)⟩

/-- What comes before the path is at most the key of some right turn. -/
theorem exists_of_mem_before (hsorted : Ascending rank (before path)) {x : α}
    (hx : x ∈ before path) : ∃ f ∈ path, f.side = .right ∧ rank x ≤ rank f.key := by
  induction path with
  | nil => exact nomatch hx
  | cons f path ih =>
      rcases f with ⟨_ | _, c, key, sibling⟩
      · obtain ⟨f, hf, hside, hle⟩ := ih hsorted hx
        exact ⟨f, List.mem_cons_of_mem _ hf, hside, hle⟩
      · obtain ⟨hbefore, hlast, -⟩ := List.pairwise_append.mp hsorted
        rcases List.mem_append.mp hx with hx | hx
        · obtain ⟨f, hf, hside, hle⟩ := ih hbefore hx
          exact ⟨f, List.mem_cons_of_mem _ hf, hside, hle⟩
        · refine ⟨_, List.mem_cons_self, rfl, ?_⟩
          rcases List.mem_append.mp hx with hx | hx
          · exact (List.pairwise_append.mp hlast).2.2 x hx key (by simp)
          · rw [List.mem_singleton.mp hx]

/-- What comes after the path is at least the key of some left turn. -/
theorem exists_of_mem_after (hsorted : Ascending rank (after path)) {x : α}
    (hx : x ∈ after path) : ∃ f ∈ path, f.side = .left ∧ rank f.key ≤ rank x := by
  induction path with
  | nil => exact nomatch hx
  | cons f path ih =>
      rcases f with ⟨_ | _, c, key, sibling⟩
      · obtain ⟨hfirst, hafter, -⟩ := List.pairwise_append.mp hsorted
        rcases List.mem_append.mp hx with hx | hx
        · refine ⟨_, List.mem_cons_self, rfl, ?_⟩
          rcases List.mem_cons.mp hx with rfl | hx
          · exact le_rfl
          · exact (List.pairwise_cons.mp hfirst).1 x hx
        · obtain ⟨f, hf, hside, hle⟩ := ih hafter hx
          exact ⟨f, List.mem_cons_of_mem _ hf, hside, hle⟩
      · obtain ⟨f, hf, hside, hle⟩ := ih hsorted hx
        exact ⟨f, List.mem_cons_of_mem _ hf, hside, hle⟩

theorem Leads.lt_of_mem_before (h : Leads rank b path) (hsorted : Ascending rank (before path)) :
    ∀ x ∈ before path, rank x < b := by
  intro x hx
  obtain ⟨f, hf, hside, hle⟩ := exists_of_mem_before hsorted hx
  exact lt_of_le_of_lt hle ((h f hf).2 hside)

theorem Admits.le_of_mem_before (h : Admits rank b path) (hsorted : Ascending rank (before path)) :
    ∀ x ∈ before path, rank x ≤ b := by
  intro x hx
  obtain ⟨f, hf, hside, hle⟩ := exists_of_mem_before hsorted hx
  exact le_trans hle ((h f hf).2 hside)

theorem Admits.lt_of_mem_after (h : Admits rank b path) (hsorted : Ascending rank (after path)) :
    ∀ x ∈ after path, b < rank x := by
  intro x hx
  obtain ⟨f, hf, hside, hle⟩ := exists_of_mem_after hsorted hx
  exact lt_of_lt_of_le ((h f hf).1 hside) hle

/-- A search that ends at a leaf finds that the rank does not occur. -/
theorem Leads.rank_ne (h : Leads rank b path) (hsorted : Ascending rank (plug path .leaf).toList) :
    ∀ x ∈ (plug path .leaf).toList, rank x ≠ b := by
  simp only [toList_plug, RBTree.toList, List.append_nil] at hsorted ⊢
  obtain ⟨hbefore, hafter, -⟩ := List.pairwise_append.mp hsorted
  intro x hx
  rcases List.mem_append.mp hx with hx | hx
  · exact ne_of_lt (h.lt_of_mem_before hbefore x hx)
  · exact ne_of_gt (h.admits.lt_of_mem_after hafter x hx)

/-- A new key at the end of the insertion path for its rank keeps an order that relates what
comes before the path to the key, and the key to what comes after it. -/
theorem pairwise_insert {r : α → α → Prop} {x : α} {c : Color}
    (hpairs : (plug path .leaf).toList.Pairwise r) (hbefore : ∀ y ∈ before path, r y x)
    (hafter : ∀ y ∈ after path, r x y) : (plug path (.node c .leaf x .leaf)).toList.Pairwise r := by
  simp only [toList_plug, RBTree.toList, List.append_nil, List.nil_append] at hpairs ⊢
  obtain ⟨hfirst, hlast, hcross⟩ := List.pairwise_append.mp hpairs
  rw [List.append_assoc, List.singleton_append]
  refine List.pairwise_append.mpr ⟨hfirst, List.pairwise_cons.mpr ⟨hafter, hlast⟩,
    fun y hy z hz => ?_⟩
  rcases List.mem_cons.mp hz with rfl | hz
  · exact hbefore y hy
  · exact hcross y hy z hz

theorem ascending_parts (hsorted : Ascending rank (plug path .leaf).toList) :
    Ascending rank (before path) ∧ Ascending rank (after path) := by
  simp only [toList_plug, RBTree.toList, List.append_nil] at hsorted
  obtain ⟨hbefore, hafter, -⟩ := List.pairwise_append.mp hsorted
  exact ⟨hbefore, hafter⟩

theorem Leads.sorted_insert {x : α} {c : Color} (h : Leads rank (rank x) path)
    (hsorted : Sorted rank (plug path .leaf).toList) :
    Sorted rank (plug path (.node c .leaf x .leaf)).toList := by
  obtain ⟨hbefore, hafter⟩ := ascending_parts (Sorted.ascending hsorted)
  exact pairwise_insert hsorted (h.lt_of_mem_before hbefore) (h.admits.lt_of_mem_after hafter)

theorem Admits.ascending_insert {x : α} {c : Color} (h : Admits rank (rank x) path)
    (hsorted : Ascending rank (plug path .leaf).toList) :
    Ascending rank (plug path (.node c .leaf x .leaf)).toList := by
  obtain ⟨hbefore, hafter⟩ := ascending_parts hsorted
  exact pairwise_insert hsorted (h.le_of_mem_before hbefore) fun y hy =>
    le_of_lt (h.lt_of_mem_after hafter y hy)

end Search

end RBPath

end Senob.Foundation
