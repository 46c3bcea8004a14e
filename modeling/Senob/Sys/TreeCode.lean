import Senob.Foundation.Locking
import Senob.Sys.TreeLayout

/-!
# The process tree, one access at a time

The functions of `process.c` on the tree as programs whose steps are the reads and writes of
the fields, in the order in which the source evaluates them. Executed alone, each computes
what the function of the same name on whole states computes.
-/

namespace Senob.Sys

open Senob.Foundation

inductive TreeRead where
  /-- The variable `NIL`, which is not written after `nodePreparation`. -/
  | nil
  | root
  | child (d : Side) (p : Ptr)
  | parent (p : Ptr)
  | color (p : Ptr)
  | pid (p : Ptr)
  /-- A search or a traversal begins at `root`. -/
  | followRoot
  /-- A search or a traversal goes on to a child. -/
  | follow (d : Side) (p : Ptr)

def TreeRead.Result : TreeRead → Type
  | .color _ => Color
  | .pid _ => Word
  | _ => Ptr

inductive TreeWrite where
  | root (v : Ptr)
  | child (d : Side) (p v : Ptr)
  | parent (p v : Ptr)
  | color (p : Ptr) (c : Color)
  /-- All of a structure that was just allocated. -/
  | fresh (p : Ptr) (x : Process)

/-- The memory of the tree. The lock is there for the writes of `root` and of the fields that
link and colour the nodes, and for the steps that a search or a traversal makes along them. -/
abbrev treeMemory : SharedMemory where
  State := ProcTree
  Read := TreeRead
  Result := TreeRead.Result
  eval
    | .nil, s => s.nil
    | .root, s => s.root
    | .child d p, s => (s.proc p).child d
    | .parent p, s => (s.proc p).parent
    | .color p, s => (s.proc p).color
    | .pid p, s => (s.proc p).pid
    | .followRoot, s => s.root
    | .follow d p, s => (s.proc p).child d
  Write := TreeWrite
  apply
    | .root v, s => s.setRoot v
    | .child d p v, s => s.setChild d p v
    | .parent p v, s => s.setParent p v
    | .color p c, s => s.setColor p c
    | .fresh p x, s => s.modify p fun _ => x
  guardsRead
    | .followRoot | .follow _ _ => true
    | _ => false
  guardsWrite
    | .fresh _ _ => false
    | _ => true

/-- The parts of the functions with respect to the lock. -/
inductive Part where
  | create
  | search
  /-- In `rbDelete`, behind its call of `rbSearch`. -/
  | unlink
  /-- In `fillRunqueuesFromBST`. -/
  | traverse
  deriving DecidableEq

abbrev TreeCode := Code treeMemory Part

namespace TreeCode

def nil : TreeCode Ptr := .read .nil .done

def root : TreeCode Ptr := .read .root .done

def child (d : Side) (p : Ptr) : TreeCode Ptr := .read (.child d p) .done

def parent (p : Ptr) : TreeCode Ptr := .read (.parent p) .done

def color (p : Ptr) : TreeCode Color := .read (.color p) .done

def pid (p : Ptr) : TreeCode Word := .read (.pid p) .done

def followRoot : TreeCode Ptr := .read .followRoot .done

def follow (d : Side) (p : Ptr) : TreeCode Ptr := .read (.follow d p) .done

def setRoot (v : Ptr) : TreeCode Unit := .write (.root v) (.done ())

def setChild (d : Side) (p v : Ptr) : TreeCode Unit := .write (.child d p v) (.done ())

def setParent (p v : Ptr) : TreeCode Unit := .write (.parent p v) (.done ())

def setColor (p : Ptr) (c : Color) : TreeCode Unit := .write (.color p c) (.done ())

section Exec

variable (s : ProcTree) (d : Side) (p v : Ptr) (c : Color)

@[simp] theorem nil_exec : nil.exec s = some (s, s.nil) := rfl

@[simp] theorem root_exec : root.exec s = some (s, s.root) := rfl

@[simp] theorem child_exec : (child d p).exec s = some (s, (s.proc p).child d) := rfl

@[simp] theorem parent_exec : (parent p).exec s = some (s, (s.proc p).parent) := rfl

@[simp] theorem color_exec : (color p).exec s = some (s, (s.proc p).color) := rfl

@[simp] theorem pid_exec : (pid p).exec s = some (s, (s.proc p).pid) := rfl

@[simp] theorem followRoot_exec : followRoot.exec s = some (s, s.root) := rfl

@[simp] theorem follow_exec : (follow d p).exec s = some (s, (s.proc p).child d) := rfl

@[simp] theorem setRoot_exec : (setRoot v).exec s = some (s.setRoot v, ()) := rfl

@[simp] theorem setChild_exec : (setChild d p v).exec s = some (s.setChild d p v, ()) := rfl

@[simp] theorem setParent_exec : (setParent p v).exec s = some (s.setParent p v, ()) := rfl

@[simp] theorem setColor_exec : (setColor p c).exec s = some (s.setColor p c, ()) := rfl

end Exec

/-! ## Rotations -/

def relink (u v : Ptr) : TreeCode Unit := do
  if (← parent u) = null then setRoot v
  else if u = (← child .left (← parent u)) then setChild .left (← parent u) v
  else setChild .right (← parent u) v

def rotate (d : Side) (x : Ptr) : TreeCode Unit := do
  let y ← child d.other x
  setChild d.other x (← child d y)
  if (← child d y) ≠ (← nil) then setParent (← child d y) x
  setParent y (← parent x)
  relink x y
  setChild d y x
  setParent x y

/-- Run alone, the accesses of `relink` hang the node in as the function on states does. -/
@[simp] theorem relink_exec (s : ProcTree) (u v : Ptr) :
    (relink u v).exec s = some (s.relink u v, ()) := by
  unfold relink ProcTree.relink
  by_cases hroot : (s.proc u).parent = null
  · simp [hroot]
  · by_cases hleft : u = (s.proc (s.proc u).parent).left
    · simp [hroot, ← hleft, Process.child]
    · simp [hroot, hleft, Process.child]

/-- Both rotations at once: `leftRotate` is the side `.left`, `rightRotate` the side `.right`. -/
@[simp] theorem rotate_exec (s : ProcTree) (d : Side) (x : Ptr) :
    (rotate d x).exec s = some (s.rotate d x, ()) := by
  unfold rotate ProcTree.rotate
  simp only [Code.exec_bind, Code.exec_ite, child_exec, parent_exec, nil_exec, setChild_exec,
    setParent_exec, relink_exec, Option.bind_some, ne_eq, ite_not]
  split
  · rfl
  · rfl

/-! ## Insertion -/

def fixupInsertRecolor (newNode y : Ptr) : TreeCode (Ptr × Bool) := do
  setColor (← parent newNode) .black
  setColor y .black
  setColor (← parent (← parent newNode)) .red
  return (← parent (← parent newNode), false)

def fixupInsertRotate (d : Side) (newNode : Ptr) : TreeCode (Ptr × Bool) := do
  let newNode ←
    if newNode = (← child d.other (← parent newNode)) then do
      let newNode ← parent newNode
      rotate d newNode
      pure newNode
    else pure newNode
  setColor (← parent newNode) .black
  setColor (← parent (← parent newNode)) .red
  rotate d.other (← parent (← parent newNode))
  return (newNode, false)

/-- The body of the loop of `fixupInsert`, whose flag is set by `break`. -/
def fixupInsertBody : Ptr × Bool → TreeCode (Ptr × Bool)
  | (newNode, _) => do
    if (← parent newNode) = null then return (newNode, true)
    if (← parent (← parent newNode)) = null then return (newNode, true)
    if (← parent newNode) = (← child .left (← parent (← parent newNode))) then
      let y ← child .right (← parent (← parent newNode))
      if y ≠ (← nil) then
        if (← color y) = .red then fixupInsertRecolor newNode y
        else fixupInsertRotate .left newNode
      else fixupInsertRotate .left newNode
    else
      let y ← child .left (← parent (← parent newNode))
      if (← color y) = .red then fixupInsertRecolor newNode y
      else fixupInsertRotate .right newNode

def fixupInsertGuard : Ptr × Bool → TreeCode Bool
  | (newNode, broke) => do
    if broke then return false
    if (← parent newNode) = null then return false
    return (← color (← parent newNode)) = .red

def fixupInsert (fuel : Nat) (newNode : Ptr) : TreeCode Unit := do
  let _ ← Code.whileLoop fixupInsertGuard fixupInsertBody fuel (newNode, false)
  setColor (← root) .black

@[simp] theorem fixupInsertRecolor_exec (s : ProcTree) (newNode y : Ptr) :
    (fixupInsertRecolor newNode y).exec s = some (s.fixupInsertRecolor newNode y) := by
  simp [fixupInsertRecolor, ProcTree.fixupInsertRecolor]

@[simp] theorem fixupInsertRotate_exec (s : ProcTree) (d : Side) (newNode : Ptr) :
    (fixupInsertRotate d newNode).exec s = some (s.fixupInsertRotate d newNode) := by
  unfold fixupInsertRotate ProcTree.fixupInsertRotate
  by_cases hchild : newNode = (s.proc (s.proc newNode).parent).child d.other
  · simp [← hchild]
  · simp [hchild]

/-- One round of `fixupInsert`. The flag of the pair is not read: it only tells the guard whether
the round before it has left the loop by `break`. -/
theorem fixupInsertBody_exec (s : ProcTree) (x : Ptr × Bool) :
    (fixupInsertBody x).exec s = some (s.fixupInsertBody x.1) := by
  obtain ⟨newNode, broke⟩ := x
  unfold fixupInsertBody ProcTree.fixupInsertBody
  by_cases hparent : (s.proc newNode).parent = null
  · simp [hparent]
  by_cases hgrand : (s.proc (s.proc newNode).parent).parent = null
  · simp [hparent, hgrand]
  simp only [Code.exec_bind, Code.exec_ite, parent_exec, child_exec, color_exec, nil_exec,
    fixupInsertRecolor_exec, fixupInsertRotate_exec, Option.bind_some, hparent, hgrand, if_false,
    Process.child, false_or]
  split
  · by_cases hnil : (s.proc (s.proc (s.proc newNode).parent).parent).right = s.nil
    · simp [hnil]
    · simp only [ne_eq, hnil, not_false_eq_true, if_true, true_and]
      split <;> rfl
  · split <;> rfl

/-- The condition of the loop only reads. It looks at no colour when there is no parent. -/
theorem fixupInsertGuard_exec (s : ProcTree) (x : Ptr × Bool) :
    (fixupInsertGuard x).exec s = some (s, ProcTree.fixupInsertGuard (s, x)) := by
  obtain ⟨newNode, broke⟩ := x
  unfold fixupInsertGuard ProcTree.fixupInsertGuard
  cases broke with
  | true => rfl
  | false =>
      by_cases hparent : (s.proc newNode).parent = null
      · simp [hparent]
      · simp [hparent]

/-- The loop with its bound on the rounds runs as the one on states, and what follows it blackens
the root. -/
@[simp] theorem fixupInsert_exec (s : ProcTree) (newNode : Ptr) :
    (fixupInsert ProcTree.loopFuel newNode).exec s =
      (s.fixupInsert newNode).map fun s => (s, ()) := by
  have hloop : (Code.whileLoop fixupInsertGuard fixupInsertBody ProcTree.loopFuel
      (newNode, false)).exec s = whileFuel ProcTree.fixupInsertGuard
        (fun x => x.1.fixupInsertBody x.2.1) ProcTree.loopFuel (s, newNode, false) :=
    Code.exec_whileLoop fixupInsertGuard_exec fixupInsertBody_exec _ _ _
  have hprogram : s.fixupInsert newNode =
      (whileFuel ProcTree.fixupInsertGuard (fun x => x.1.fixupInsertBody x.2.1) ProcTree.loopFuel
        (s, newNode, false)).bind fun x => some (x.1.setColor x.1.root .black) := rfl
  unfold fixupInsert
  rw [hprogram, Code.exec_bind, hloop]
  cases whileFuel _ _ _ _ <;> rfl

def descendGuard : Ptr × Ptr → TreeCode Bool
  | (_, x) => return x ≠ (← nil)

def descendBody (newProcess : Ptr) : Ptr × Ptr → TreeCode (Ptr × Ptr)
  | (_, x) => do
    if (← pid newProcess) < (← pid x) then return (x, ← follow .left x)
    else return (x, ← follow .right x)

def rbInsert (fuel : Nat) (newProcess : Ptr) : TreeCode Unit := do
  let (y, _) ← Code.whileLoop descendGuard (descendBody newProcess) fuel (null, ← followRoot)
  setParent newProcess y
  if y = null then setRoot newProcess
  else if (← pid newProcess) < (← pid y) then setChild .left y newProcess
  else setChild .right y newProcess
  setChild .left newProcess (← nil)
  setChild .right newProcess (← nil)
  setColor newProcess .red
  fixupInsert fuel newProcess

/-- Executed without interruption, the accesses of `rbInsert` are the function on states. -/
theorem rbInsert_exec (s : ProcTree) (newProcess : Ptr) :
    (rbInsert ProcTree.loopFuel newProcess).exec s =
      (s.rbInsert newProcess).map fun s => (s, ()) := by
  have hloop : (Code.whileLoop descendGuard (descendBody newProcess) ProcTree.loopFuel
      (null, s.root)).exec s = (s.descend (s.proc newProcess).pid).map fun y => (s, y) := by
    refine Code.exec_whileLoop_read (fun x => ?_) (fun x => ?_) _ _
    · simp [descendGuard]
    · by_cases hpid : (s.proc newProcess).pid < (s.proc x.2).pid
      · simp [descendBody, hpid, Process.child]
      · simp [descendBody, hpid, Process.child]
  unfold rbInsert ProcTree.rbInsert
  rw [Code.exec_bind, followRoot_exec, Option.bind_some, Code.exec_bind, hloop]
  cases s.descend (s.proc newProcess).pid with
  | none => rfl
  | some x =>
      simp only [Option.map_some, Option.bind_eq_bind, Option.bind_some, Code.exec_bind,
        Code.exec_ite, setParent_exec, setRoot_exec, setChild_exec, setColor_exec, pid_exec,
        nil_exec]
      split
      · simp
      · split
        · simp
        · simp

/-! ## Search -/

def searchGuard (pid : Word) (current : Ptr) : TreeCode Bool := do
  if current = (← nil) then return false
  return (← TreeCode.pid current) ≠ pid

def searchBody (pid : Word) (current : Ptr) : TreeCode Ptr := do
  if pid < (← TreeCode.pid current) then follow .left current else follow .right current

/-- `rbSearch`. -/
def rbSearch (fuel : Nat) (pid : Word) : TreeCode Ptr := do
  Code.goto .search (.done ())
  Code.acquire (.done ())
  let current ← Code.whileLoop (searchGuard pid) (searchBody pid) fuel (← followRoot)
  Code.release (.done ())
  return current

/-- A search leaves the tree as it is. Taking and giving back the lock changes nothing in a
program that runs alone. -/
theorem rbSearch_exec (s : ProcTree) (pid : Word) :
    (rbSearch ProcTree.loopFuel pid).exec s = (s.rbSearch pid).map fun p => (s, p) := by
  have hloop : (Code.whileLoop (searchGuard pid) (searchBody pid) ProcTree.loopFuel
      s.root).exec s = (s.rbSearch pid).map fun p => (s, p) := by
    refine Code.exec_whileLoop_read (fun x => ?_) (fun x => ?_) _ _
    · by_cases hnil : x = s.nil
      · simp [searchGuard, hnil]
      · simp [searchGuard, hnil]
    · by_cases hpid : pid < (s.proc x).pid
      · simp [searchBody, hpid, Process.child]
      · simp [searchBody, hpid, Process.child]
  change ((Code.whileLoop (searchGuard pid) (searchBody pid) ProcTree.loopFuel s.root >>=
    fun current => Code.release (.done ()) >>= fun _ => pure current).exec s) = _
  rw [Code.exec_bind, hloop]
  cases s.rbSearch pid <;> rfl

/-! ## Deletion -/

def treeMinimum (fuel : Nat) (x : Ptr) : TreeCode Ptr :=
  Code.whileLoop (fun x => return (← child .left x) ≠ (← nil)) (follow .left) fuel x

def rbTransplant (u v : Ptr) : TreeCode Unit := do
  relink u v
  setParent v (← parent u)

def rbDeleteFixupRotate (d : Side) (x w : Ptr) : TreeCode Ptr := do
  let w ←
    if (← color (← child d.other w)) = .black then do
      setColor (← child d w) .black
      setColor w .red
      rotate d.other w
      child d.other (← parent x)
    else pure w
  setColor w (← color (← parent x))
  setColor (← parent x) .black
  setColor (← child d.other w) .black
  rotate d (← parent x)
  root

/-- The body of `rbDeleteFixup` from case 2 on, where the sibling `w` is black. -/
def rbDeleteFixupBlack (d : Side) (x w : Ptr) : TreeCode Ptr := do
  if (← color (← child d w)) = .black then
    if (← color (← child d.other w)) = .black then do
      setColor w .red
      parent x
    else rbDeleteFixupRotate d x w
  else rbDeleteFixupRotate d x w

def rbDeleteFixupSide (d : Side) (x : Ptr) : TreeCode Ptr := do
  let w ← child d.other (← parent x)
  let w ←
    if (← color w) = .red then do
      setColor w .black
      setColor (← parent x) .red
      rotate d (← parent x)
      child d.other (← parent x)
    else pure w
  rbDeleteFixupBlack d x w

def rbDeleteFixupBody (x : Ptr) : TreeCode Ptr := do
  if x = (← child .left (← parent x)) then rbDeleteFixupSide .left x
  else rbDeleteFixupSide .right x

def rbDeleteFixupGuard (x : Ptr) : TreeCode Bool := do
  if x = (← root) then return false
  return (← color x) = .black

def rbDeleteFixup (fuel : Nat) (x : Ptr) : TreeCode Unit := do
  let x ← Code.whileLoop rbDeleteFixupGuard rbDeleteFixupBody fuel x
  setColor x .black

def rbDeleteSplice (fuel : Nat) (z : Ptr) : TreeCode (Ptr × Color) := do
  let y ← treeMinimum fuel (← follow .right z)
  let yOriginalColor ← color y
  let x ← child .right y
  if (← parent y) = z then setParent x y
  else do
    rbTransplant y (← child .right y)
    setChild .right y (← child .right z)
    setParent (← child .right y) y
  rbTransplant z y
  setChild .left y (← child .left z)
  setParent (← child .left y) y
  setColor y (← color z)
  return (x, yOriginalColor)

/-- The part of `rbDelete` behind the search. What it frees in the end is not in the tree. -/
def rbUnlink (fuel : Nat) (z : Ptr) : TreeCode Unit := do
  let yOriginalColor ← color z
  let (x, yOriginalColor) ←
    if (← child .left z) = (← nil) then do
      let x ← child .right z
      rbTransplant z (← child .right z)
      pure (x, yOriginalColor)
    else do
      if (← child .right z) = (← nil) then do
        let x ← child .left z
        rbTransplant z (← child .left z)
        pure (x, yOriginalColor)
      else rbDeleteSplice fuel z
  if yOriginalColor = .black then rbDeleteFixup fuel x

def rbDelete (fuel : Nat) (pid : Word) : TreeCode Unit := do
  let z ← rbSearch fuel pid
  if z ≠ (← nil) then do
    Code.goto .unlink (.done ())
    rbUnlink fuel z

@[simp] theorem rbTransplant_exec (s : ProcTree) (u v : Ptr) :
    (rbTransplant u v).exec s = some (s.rbTransplant u v, ()) := by
  simp [rbTransplant, ProcTree.rbTransplant]

/-- The descent to the least node of a subtree writes nothing. -/
@[simp] theorem treeMinimum_exec (s : ProcTree) (x : Ptr) :
    (treeMinimum ProcTree.loopFuel x).exec s = (s.treeMinimum x).map fun y => (s, y) := by
  refine Code.exec_whileLoop_read (fun x => ?_) (fun x => ?_) _ _
  · simp [Process.child]
  · simp [Process.child]

/-- The cases of `rbDeleteFixup` that end with a rotation about the parent and leave the loop. -/
@[simp] theorem rbDeleteFixupRotate_exec (s : ProcTree) (d : Side) (x w : Ptr) :
    (rbDeleteFixupRotate d x w).exec s = some (s.rbDeleteFixupRotate d x w) := by
  unfold rbDeleteFixupRotate ProcTree.rbDeleteFixupRotate
  by_cases hcolor : (s.proc ((s.proc w).child d.other)).color = .black
  · simp [hcolor]
  · simp [hcolor]

/-- A black sibling with two black children is recoloured and the loop goes on at the parent. In
every other case there is a rotation. -/
theorem rbDeleteFixupBlack_exec (s : ProcTree) (d : Side) (x w : Ptr) :
    (rbDeleteFixupBlack d x w).exec s = some
      (if (s.proc ((s.proc w).child d)).color = .black ∧
          (s.proc ((s.proc w).child d.other)).color = .black then
        (s.setColor w .red, (s.proc x).parent)
      else s.rbDeleteFixupRotate d x w) := by
  unfold rbDeleteFixupBlack
  by_cases hinner : (s.proc ((s.proc w).child d)).color = .black
  · by_cases houter : (s.proc ((s.proc w).child d.other)).color = .black
    · simp [hinner, houter]
    · simp [hinner, houter]
  · simp [hinner]

/-- A round of `rbDeleteFixup`, with the red sibling turned into a black one first. -/
@[simp] theorem rbDeleteFixupSide_exec (s : ProcTree) (d : Side) (x : Ptr) :
    (rbDeleteFixupSide d x).exec s = some (s.rbDeleteFixupSide d x) := by
  unfold rbDeleteFixupSide ProcTree.rbDeleteFixupSide
  by_cases hcolor : (s.proc ((s.proc (s.proc x).parent).child d.other)).color = .red
  · simp only [Code.exec_bind, Code.exec_ite, parent_exec, child_exec, color_exec, setColor_exec,
      rotate_exec, rbDeleteFixupBlack_exec, Option.bind_some, hcolor, if_true]
  · simp only [Code.exec_bind, Code.exec_ite, Code.exec_pure, parent_exec, child_exec, color_exec,
      rbDeleteFixupBlack_exec, Option.bind_some, hcolor, if_false]

theorem rbDeleteFixupBody_exec (s : ProcTree) (x : Ptr) :
    (rbDeleteFixupBody x).exec s = some (s.rbDeleteFixupBody x) := by
  unfold rbDeleteFixupBody ProcTree.rbDeleteFixupBody
  by_cases hleft : x = (s.proc (s.proc x).parent).left
  · simp [← hleft, Process.child]
  · simp [hleft, Process.child]

/-- The condition of the loop reads the root anew in every round, for a rotation may change it. -/
theorem rbDeleteFixupGuard_exec (s : ProcTree) (x : Ptr) :
    (rbDeleteFixupGuard x).exec s =
      some (s, decide (x ≠ s.root ∧ (s.proc x).color = .black)) := by
  unfold rbDeleteFixupGuard
  by_cases hroot : x = s.root
  · simp [hroot]
  · simp [hroot]

/-- The loop of `rbDeleteFixup` and the assignment behind it. -/
@[simp] theorem rbDeleteFixup_exec (s : ProcTree) (x : Ptr) :
    (rbDeleteFixup ProcTree.loopFuel x).exec s = (s.rbDeleteFixup x).map fun s => (s, ()) := by
  have hloop : (Code.whileLoop rbDeleteFixupGuard rbDeleteFixupBody ProcTree.loopFuel x).exec s =
      whileFuel (fun y => decide (y.2 ≠ y.1.root ∧ (y.1.proc y.2).color = .black))
        (fun y => y.1.rbDeleteFixupBody y.2) ProcTree.loopFuel (s, x) :=
    Code.exec_whileLoop rbDeleteFixupGuard_exec rbDeleteFixupBody_exec _ _ _
  have hprogram : s.rbDeleteFixup x =
      (whileFuel (fun y => decide (y.2 ≠ y.1.root ∧ (y.1.proc y.2).color = .black))
        (fun y => y.1.rbDeleteFixupBody y.2) ProcTree.loopFuel (s, x)).bind
          fun y => some (y.1.setColor y.2 .black) := rfl
  unfold rbDeleteFixup
  rw [hprogram, Code.exec_bind, hloop]
  cases whileFuel _ _ _ _ <;> rfl

/-- The case of two children, in which the successor takes the place of `z`. -/
@[simp] theorem rbDeleteSplice_exec (s : ProcTree) (z : Ptr) :
    (rbDeleteSplice ProcTree.loopFuel z).exec s = s.rbDeleteSplice z := by
  unfold rbDeleteSplice ProcTree.rbDeleteSplice
  simp only [Code.exec_bind, follow_exec, Option.bind_some, treeMinimum_exec, Process.child]
  cases s.treeMinimum (s.proc z).right with
  | none => rfl
  | some y =>
      simp only [Option.map_some, Option.bind_eq_bind, Option.bind_some, Code.exec_bind,
        Code.exec_ite, Code.exec_pure, parent_exec, child_exec, color_exec, setParent_exec,
        setChild_exec, setColor_exec, rbTransplant_exec, Process.child]
      split
      · rfl
      · rfl

/-- `rbDelete` from the found node on, with its cases of no left and no right child. -/
theorem rbUnlink_exec (s : ProcTree) (z : Ptr) :
    (rbUnlink ProcTree.loopFuel z).exec s = (s.rbUnlink z).map fun s => (s, ()) := by
  unfold rbUnlink ProcTree.rbUnlink
  by_cases hleft : (s.proc z).left = s.nil
  · simp only [Code.exec_bind, Code.exec_ite, Code.exec_pure, color_exec, child_exec, nil_exec,
      rbTransplant_exec, rbDeleteFixup_exec, Option.bind_eq_bind, Option.bind_some, Process.child,
      hleft, if_true]
    split <;> rfl
  by_cases hright : (s.proc z).right = s.nil
  · simp only [Code.exec_bind, Code.exec_ite, Code.exec_pure, color_exec, child_exec, nil_exec,
      rbTransplant_exec, rbDeleteFixup_exec, Option.bind_eq_bind, Option.bind_some, Process.child,
      hleft, hright, if_true, if_false]
    split <;> rfl
  · simp only [Code.exec_bind, Code.exec_ite, color_exec, child_exec, nil_exec,
      rbDeleteSplice_exec, Option.bind_eq_bind, Option.bind_some, Process.child, hleft, hright,
      if_false]
    cases s.rbDeleteSplice z with
    | none => rfl
    | some x =>
        simp only [Option.bind_some, Code.exec_pure, rbDeleteFixup_exec]
        split <;> rfl

/-- Executed without interruption, the accesses of `rbDelete` are the function on states, as far
as the tree goes. -/
theorem rbDelete_exec (s : ProcTree) (stackStart : Ptr → Ptr) (pid : Word) :
    (rbDelete ProcTree.loopFuel pid).exec s =
      (s.rbDelete stackStart pid).map fun x => (x.1, ()) := by
  unfold rbDelete ProcTree.rbDelete
  rw [Code.exec_bind, rbSearch_exec]
  cases s.rbSearch pid with
  | none => rfl
  | some z =>
      simp only [Option.map_some, Option.bind_eq_bind, Option.bind_some, Code.exec_bind,
        Code.exec_ite, nil_exec]
      by_cases hnil : z = s.nil
      · simp [hnil]
      · simp only [ne_eq, hnil, not_false_eq_true, if_true, if_false]
        refine (Option.bind_some _ _).trans ((rbUnlink_exec s z).trans ?_)
        cases s.rbUnlink z <;> rfl

/-! ## Traversal and creation -/

def inOrderTraversal (callback : Ptr → TreeCode Unit) : Nat → Ptr → TreeCode Unit
  | 0, x => do
    if x = (← nil) then return else Code.stuck
  | fuel + 1, x => do
    if x = (← nil) then return
    else do
      inOrderTraversal callback fuel (← follow .left x)
      let _ ← pid x
      let _ ← color x
      callback x
      inOrderTraversal callback fuel (← follow .right x)

/-- `fillRunqueuesFromBST`. What `enqueueRunnableThread` reads and writes is not part of the
tree. -/
def fillRunqueuesFromBST (fuel : Nat) : TreeCode Unit := do
  Code.goto .traverse (.done ())
  inOrderTraversal (fun _ => return) fuel (← followRoot)

/-- `createKernelProcess` and `createUserProcess`, which allocate the structure `newProcess` and
prepare it as `x`. -/
def createProcess (fuel : Nat) (newProcess : Ptr) (x : Process) : TreeCode Unit := do
  Code.goto .create (.done ())
  Code.write (.fresh newProcess x) (.done ())
  Code.acquire (.done ())
  rbInsert fuel newProcess
  Code.release (.done ())

/-- A traversal whose callback runs as a function on states is the traversal on states with this
callback. The callback may change the tree: a child is read when the traversal gets to it. -/
theorem inOrderTraversal_exec {codeCallback : Ptr → TreeCode Unit}
    {callback : ProcTree → Ptr → Option ProcTree}
    (hcallback : ∀ s p, (codeCallback p).exec s = (callback s p).map fun s => (s, ()))
    (fuel : Nat) (x : Ptr) (s : ProcTree) :
    (inOrderTraversal codeCallback fuel x).exec s =
      (ProcTree.inOrderTraversal id callback fuel x s).map fun s => (s, ()) := by
  induction fuel generalizing x s with
  | zero =>
      by_cases hnil : x = s.nil
      · simp [inOrderTraversal, ProcTree.inOrderTraversal, hnil]
      · simp [inOrderTraversal, ProcTree.inOrderTraversal, hnil]
        rfl
  | succ fuel ih =>
      unfold inOrderTraversal ProcTree.inOrderTraversal
      by_cases hnil : x = s.nil
      · simp [hnil]
      · simp only [Code.exec_bind, Code.exec_ite, nil_exec, follow_exec, pid_exec, color_exec, ih,
          hcallback, Option.bind_eq_bind, Option.bind_some, Process.child, id, hnil, if_false]
        cases ProcTree.inOrderTraversal id callback fuel (s.proc x).left s with
        | none => rfl
        | some s₁ =>
            simp only [Option.map_some, Option.bind_some]
            cases callback s₁ x with
            | none => rfl
            | some s₂ => rfl

/-- The creation of a process is, on the tree, a new structure and its insertion. -/
theorem createProcess_exec (s : ProcTree) (newProcess : Ptr) (x : Process) :
    (createProcess ProcTree.loopFuel newProcess x).exec s =
      ((s.modify newProcess fun _ => x).rbInsert newProcess).map fun s => (s, ()) := by
  change (rbInsert _ newProcess >>= fun _ => Code.release (.done ())).exec
    (s.modify newProcess fun _ => x) = _
  rw [Code.exec_bind, rbInsert_exec]
  cases ProcTree.rbInsert _ newProcess <;> rfl

end TreeCode

end Senob.Sys
