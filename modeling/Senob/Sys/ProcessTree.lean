import Mathlib.Logic.Function.Basic
import Senob.Foundation.RedBlack
import Senob.Foundation.Run

/-!
# The process tree

`process.c` keeps the processes in a red-black tree of `struct process` with
parent pointers and a shared sentinel `NIL`. Memory is a function from addresses
to structures. The mirrored halves of the source are one definition with a side;
the functions of the source are its two instances.
-/

namespace Senob.Sys

open Senob.Foundation

/-- Addresses of structures; zero is the null pointer. -/
abbrev Ptr := Nat

def null : Ptr := 0

/-- `uint32_t`. -/
abbrev Word := BitVec 32

/-- `struct process`, without `filename`, which nothing reads. -/
structure Process where
  pid : Word
  pageDirectory : Ptr
  isUserProc : Word
  color : Color
  parent : Ptr
  left : Ptr
  right : Ptr
  headThread : Ptr
  tailThread : Ptr

namespace Process

/-- The structure after `memset(…, 0x00, sizeof(struct process))`. -/
def zero : Process := ⟨0, null, 0, .black, null, null, null, null, null⟩

def child (x : Process) : Side → Ptr
  | .left => x.left
  | .right => x.right

def setChild (x : Process) (d : Side) (v : Ptr) : Process :=
  match d with
  | .left => { x with left := v }
  | .right => { x with right := v }

end Process

/-- The memory of the process structures, with the variables `root` and `NIL`. -/
structure ProcTree where
  proc : Ptr → Process
  root : Ptr
  nil : Ptr

namespace ProcTree

variable (s : ProcTree)

def modify (p : Ptr) (f : Process → Process) : ProcTree :=
  { s with proc := Function.update s.proc p (f (s.proc p)) }

def setRoot (p : Ptr) : ProcTree := { s with root := p }

abbrev setColor (p : Ptr) (c : Color) : ProcTree := s.modify p fun x => { x with color := c }

abbrev setParent (p v : Ptr) : ProcTree := s.modify p fun x => { x with parent := v }

abbrev setChild (d : Side) (p v : Ptr) : ProcTree := s.modify p fun x => x.setChild d v

/-- The three-way assignment that makes the parent of `u` point to `v`. It occurs
in both rotations and in `rbTransplant`. -/
def relink (u v : Ptr) : ProcTree :=
  let parent := (s.proc u).parent
  if parent = null then s.setRoot v
  else if u = (s.proc parent).left then s.setChild .left parent v
  else s.setChild .right parent v

/-- The rotation that moves `x` down on side `d`. -/
def rotate (d : Side) (x : Ptr) : ProcTree :=
  let y := (s.proc x).child d.other
  let s := s.setChild d.other x ((s.proc y).child d)
  let s := if (s.proc y).child d ≠ s.nil then s.setParent ((s.proc y).child d) x else s
  let s := s.setParent y (s.proc x).parent
  let s := s.relink x y
  let s := s.setChild d y x
  s.setParent x y

def leftRotate (x : Ptr) : ProcTree := s.rotate .left x

def rightRotate (y : Ptr) : ProcTree := s.rotate .right y

/-- More rounds than a loop over nodes with distinct 32-bit ids can make. -/
def loopFuel : Nat := 2 ^ 33

/-! ## Insertion -/

/-- The uncle `y` is red: recolour, and continue at the grandparent. -/
def fixupInsertRecolor (newNode y : Ptr) : ProcTree × Ptr × Bool :=
  let s := s.setColor (s.proc newNode).parent .black
  let s := s.setColor y .black
  let s := s.setColor (s.proc (s.proc newNode).parent).parent .red
  (s, (s.proc (s.proc newNode).parent).parent, false)

/-- The uncle is black, and the parent is a child on side `d`: cases 2 and 3. -/
def fixupInsertRotate (d : Side) (newNode : Ptr) : ProcTree × Ptr × Bool :=
  let (s, newNode) :=
    if newNode = (s.proc (s.proc newNode).parent).child d.other then
      (s.rotate d (s.proc newNode).parent, (s.proc newNode).parent)
    else (s, newNode)
  let s := s.setColor (s.proc newNode).parent .black
  let s := s.setColor (s.proc (s.proc newNode).parent).parent .red
  let s := s.rotate d.other (s.proc (s.proc newNode).parent).parent
  (s, newNode, false)

/-- The body of the loop of `fixupInsert`. The flag is set by `break`. Only the left
half tests the uncle against `NIL`. -/
def fixupInsertBody (newNode : Ptr) : ProcTree × Ptr × Bool :=
  let parent := (s.proc newNode).parent
  if parent = null ∨ (s.proc parent).parent = null then (s, newNode, true)
  else
    let grand := (s.proc parent).parent
    if parent = (s.proc grand).left then
      let y := (s.proc grand).right
      if y ≠ s.nil ∧ (s.proc y).color = .red then s.fixupInsertRecolor newNode y
      else s.fixupInsertRotate .left newNode
    else
      let y := (s.proc grand).left
      if (s.proc y).color = .red then s.fixupInsertRecolor newNode y
      else s.fixupInsertRotate .right newNode

def fixupInsertGuard : ProcTree × Ptr × Bool → Bool
  | (s, newNode, broke) => !broke &&
      decide ((s.proc newNode).parent ≠ null ∧ (s.proc (s.proc newNode).parent).color = .red)

def fixupInsert (newNode : Ptr) : Option ProcTree := do
  let (s, _, _) ← whileFuel fixupInsertGuard (fun (s, newNode, _) => s.fixupInsertBody newNode)
    loopFuel (s, newNode, false)
  return s.setColor s.root .black

/-- The descent of `rbInsert`: the pair of `y` and `x`, with `pid` the new id. -/
def descend (pid : Word) : Option (Ptr × Ptr) :=
  whileFuel (fun (_, x) => decide (x ≠ s.nil))
    (fun (_, x) => (x, if pid < (s.proc x).pid then (s.proc x).left else (s.proc x).right))
    loopFuel (null, s.root)

def rbInsert (newProcess : Ptr) : Option ProcTree := do
  let (y, _) ← s.descend (s.proc newProcess).pid
  let s := s.setParent newProcess y
  let s :=
    if y = null then s.setRoot newProcess
    else if (s.proc newProcess).pid < (s.proc y).pid then s.setChild .left y newProcess
    else s.setChild .right y newProcess
  let s := s.setChild .left newProcess s.nil
  let s := s.setChild .right newProcess s.nil
  let s := s.setColor newProcess .red
  s.fixupInsert newProcess

/-! ## Search -/

/-- `rbSearch`. Taking and releasing `rbTreeLock` has no effect on the tree. -/
def rbSearch (pid : Word) : Option Ptr :=
  whileFuel (fun current => decide (current ≠ s.nil ∧ (s.proc current).pid ≠ pid))
    (fun current =>
      if pid < (s.proc current).pid then (s.proc current).left else (s.proc current).right)
    loopFuel s.root

def treeMinimum (x : Ptr) : Option Ptr :=
  whileFuel (fun x => decide ((s.proc x).left ≠ s.nil)) (fun x => (s.proc x).left) loopFuel x

/-! ## Deletion -/

def rbTransplant (u v : Ptr) : ProcTree :=
  let s := s.relink u v
  s.setParent v (s.proc u).parent

/-- The last part of the body of `rbDeleteFixup` for `x` on side `d`: the sibling `w`
is black and one of its children is red. -/
def rbDeleteFixupRotate (d : Side) (x w : Ptr) : ProcTree × Ptr :=
  let (s, w) :=
    if (s.proc ((s.proc w).child d.other)).color = .black then
      let s := s.setColor ((s.proc w).child d) .black
      let s := s.setColor w .red
      let s := s.rotate d.other w
      (s, (s.proc (s.proc x).parent).child d.other)
    else (s, w)
  let s := s.setColor w (s.proc (s.proc x).parent).color
  let s := s.setColor (s.proc x).parent .black
  let s := s.setColor ((s.proc w).child d.other) .black
  let s := s.rotate d (s.proc x).parent
  (s, s.root)

/-- The body of `rbDeleteFixup` when `x` is the child on side `d` of its parent. -/
def rbDeleteFixupSide (d : Side) (x : Ptr) : ProcTree × Ptr :=
  let w := (s.proc (s.proc x).parent).child d.other
  let (s, w) :=
    if (s.proc w).color = .red then
      let s := s.setColor w .black
      let s := s.setColor (s.proc x).parent .red
      let s := s.rotate d (s.proc x).parent
      (s, (s.proc (s.proc x).parent).child d.other)
    else (s, w)
  if (s.proc ((s.proc w).child d)).color = .black ∧
      (s.proc ((s.proc w).child d.other)).color = .black then
    (s.setColor w .red, (s.proc x).parent)
  else s.rbDeleteFixupRotate d x w

def rbDeleteFixupBody (x : Ptr) : ProcTree × Ptr :=
  if x = (s.proc (s.proc x).parent).left then s.rbDeleteFixupSide .left x
  else s.rbDeleteFixupSide .right x

def rbDeleteFixup (x : Ptr) : Option ProcTree := do
  let (s, x) ← whileFuel (fun (s, x) => decide (x ≠ s.root ∧ (s.proc x).color = .black))
    (fun (s, x) => s.rbDeleteFixupBody x) loopFuel (s, x)
  return s.setColor x .black

/-- The last branch of `rbDelete`: `z` has two children, and its successor `y` takes
its place. The result holds the child `x` of `y` and the old colour of `y`. -/
def rbDeleteSplice (z : Ptr) : Option (ProcTree × Ptr × Color) := do
  let y ← s.treeMinimum (s.proc z).right
  let yOriginalColor := (s.proc y).color
  let x := (s.proc y).right
  let s :=
    if (s.proc y).parent = z then s.setParent x y
    else
      let s := s.rbTransplant y (s.proc y).right
      let s := s.setChild .right y (s.proc z).right
      s.setParent (s.proc y).right y
  let s := s.rbTransplant z y
  let s := s.setChild .left y (s.proc z).left
  let s := s.setParent (s.proc y).left y
  let s := s.setColor y (s.proc z).color
  return (s, x, yOriginalColor)

/-- The part of `rbDelete` between the search and the frees: take `z` out of the
tree. -/
def rbUnlink (z : Ptr) : Option ProcTree := do
  let (s, x, yOriginalColor) ←
    if (s.proc z).left = s.nil then
      some (s.rbTransplant z (s.proc z).right, (s.proc z).right, (s.proc z).color)
    else if (s.proc z).right = s.nil then
      some (s.rbTransplant z (s.proc z).left, (s.proc z).left, (s.proc z).color)
    else s.rbDeleteSplice z
  if yOriginalColor = .black then s.rbDeleteFixup x else some s

/-- `rbDelete`, with the arguments of its calls of `kfree` in order. The start of the
kernel stack of a thread is `stackStart`. -/
def rbDelete (stackStart : Ptr → Ptr) (pid : Word) : Option (ProcTree × List Ptr) := do
  let z ← s.rbSearch pid
  if z = s.nil then return (s, [])
  else
    let s ← s.rbUnlink z
    return (s, [stackStart (s.proc z).headThread, (s.proc z).headThread, z])

/-! ## Traversal -/

/-- `inOrderTraversal` with a callback on the states `σ`, which hold the tree. -/
def inOrderTraversal {σ : Type*} (tree : σ → ProcTree) (callback : σ → Ptr → Option σ) :
    Nat → Ptr → σ → Option σ
  | 0, x, k => if x = (tree k).nil then some k else none
  | fuel + 1, x, k =>
      if x = (tree k).nil then some k
      else do
        let k ← inOrderTraversal tree callback fuel ((tree k).proc x).left k
        let k ← callback k x
        inOrderTraversal tree callback fuel ((tree k).proc x).right k

/-- `nodePreparation`, where `kmalloc` returned `block`. The remaining fields of the
sentinel keep what the memory held. -/
def nodePreparation (block : Ptr) : ProcTree :=
  let s := { s with nil := block }
  let s := s.setColor block .black
  let s := s.setChild .left block block
  let s := s.setChild .right block block
  let s := s.setParent block null
  s.setRoot block

end ProcTree

end Senob.Sys
