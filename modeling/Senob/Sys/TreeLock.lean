import Senob.Sys.TreeCode

/-!
# The lock of the process tree

`rbTreeLock` is taken at different levels: inside `rbSearch`, and around the calls of
`rbInsert`. Whether a CPU has it when it gets to a field of the tree is read off the text of
the functions, and holds in every interleaving of them.
-/

namespace Senob.Sys

open Senob.Foundation

namespace TreeCode

/-! ## Code that leaves the lock alone -/

section Plain

variable (fuel : Nat) (d : Side) (u v x y z newNode newProcess : Ptr)

theorem relink_plain : (relink u v).Plain :=
  fun _ => .ite trivial fun _ _ => .ite (fun _ => trivial) fun _ => trivial

theorem rotate_plain : (rotate d x).Plain :=
  fun y _ _ _ => .ite (fun _ _ => (relink_plain x y).bind fun _ => trivial)
    fun _ => (relink_plain x y).bind fun _ => trivial

theorem fixupInsertRecolor_plain : (fixupInsertRecolor newNode y).Plain :=
  fun _ _ _ _ _ => trivial

theorem fixupInsertRotate_plain : (fixupInsertRotate d newNode).Plain :=
  fun _ _ => .ite
    (fun newNode => (rotate_plain d newNode).bind
      fun _ _ _ _ _ _ => (rotate_plain _ _).bind fun _ => trivial)
    fun _ _ _ _ _ => (rotate_plain _ _).bind fun _ => trivial

theorem fixupInsertBody_plain (x : Ptr × Bool) : (fixupInsertBody x).Plain :=
  fun _ => .ite trivial fun _ _ => .ite trivial fun _ _ _ _ => .ite
    (fun _ _ _ _ => .ite
      (fun _ => .ite (fixupInsertRecolor_plain _ _) (fixupInsertRotate_plain _ _))
      (fixupInsertRotate_plain _ _))
    fun _ _ _ _ => .ite (fixupInsertRecolor_plain _ _) (fixupInsertRotate_plain _ _)

theorem fixupInsertGuard_plain (x : Ptr × Bool) : (fixupInsertGuard x).Plain :=
  .ite trivial fun _ => .ite trivial fun _ _ => trivial

theorem fixupInsert_plain : (fixupInsert fuel newNode).Plain :=
  (Code.Plain.whileLoop fixupInsertGuard_plain fixupInsertBody_plain _ _).bind
    fun _ _ => trivial

theorem descendGuard_plain (x : Ptr × Ptr) : (descendGuard x).Plain := fun _ => trivial

theorem descendBody_plain (x : Ptr × Ptr) : (descendBody newProcess x).Plain :=
  fun _ _ => .ite (fun _ => trivial) fun _ => trivial

theorem rbInsert_plain : (rbInsert fuel newProcess).Plain :=
  fun _ => (Code.Plain.whileLoop descendGuard_plain (descendBody_plain newProcess) _ _).bind
    fun _ => .ite (fun _ _ => fixupInsert_plain fuel newProcess)
      fun _ _ => .ite (fun _ _ => fixupInsert_plain fuel newProcess)
        fun _ _ => fixupInsert_plain fuel newProcess

theorem searchGuard_plain (pid : Word) : (searchGuard pid x).Plain :=
  fun _ => .ite trivial fun _ => trivial

theorem searchBody_plain (pid : Word) : (searchBody pid x).Plain :=
  fun _ => .ite (fun _ => trivial) fun _ => trivial

theorem treeMinimum_plain : (treeMinimum fuel x).Plain := by
  refine .whileLoop (fun x => ?_) (fun x => ?_) _ _
  · exact fun _ _ => trivial
  · exact fun _ => trivial

theorem rbTransplant_plain : (rbTransplant u v).Plain :=
  (relink_plain u v).bind fun _ _ => trivial

theorem rbDeleteFixupRotate_plain (w : Ptr) : (rbDeleteFixupRotate d x w).Plain :=
  fun _ _ => .ite
    (fun _ => (rotate_plain d.other w).bind
      fun _ _ _ _ _ _ _ _ => (rotate_plain _ _).bind fun _ _ => trivial)
    fun _ _ _ _ _ => (rotate_plain _ _).bind fun _ _ => trivial

theorem rbDeleteFixupBlack_plain (w : Ptr) : (rbDeleteFixupBlack d x w).Plain :=
  fun _ _ => .ite
    (fun _ _ => .ite (fun _ => trivial) (rbDeleteFixupRotate_plain d x w))
    (rbDeleteFixupRotate_plain d x w)

theorem rbDeleteFixupSide_plain : (rbDeleteFixupSide d x).Plain :=
  fun _ w _ => .ite
    (fun _ _ => (rotate_plain _ _).bind fun _ _ _ => rbDeleteFixupBlack_plain d x _)
    (rbDeleteFixupBlack_plain d x w)

theorem rbDeleteFixupBody_plain : (rbDeleteFixupBody x).Plain :=
  fun _ _ => .ite (rbDeleteFixupSide_plain .left x) (rbDeleteFixupSide_plain .right x)

theorem rbDeleteFixupGuard_plain : (rbDeleteFixupGuard x).Plain :=
  fun _ => .ite trivial fun _ => trivial

theorem rbDeleteFixup_plain : (rbDeleteFixup fuel x).Plain :=
  (Code.Plain.whileLoop rbDeleteFixupGuard_plain rbDeleteFixupBody_plain _ _).bind
    fun _ => trivial

theorem rbDeleteSplice_plain : (rbDeleteSplice fuel z).Plain :=
  fun _ => (treeMinimum_plain fuel _).bind fun y _ _ _ => .ite
    ((rbTransplant_plain z y).bind fun _ _ _ _ => trivial)
    fun _ => (rbTransplant_plain y _).bind
      fun _ _ _ => (rbTransplant_plain z y).bind fun _ _ _ _ => trivial

theorem rbUnlink_plain : (rbUnlink fuel z).Plain := by
  have hfixup : ∀ (x : Ptr) (c : Color), Code.Plain
      (if c = .black then rbDeleteFixup fuel x else pure () : TreeCode Unit) :=
    fun x c => .ite (rbDeleteFixup_plain fuel x) trivial
  refine fun c _ _ => .ite (fun x _ => ?_) fun _ _ => .ite (fun x _ => ?_) ?_
  · exact (rbTransplant_plain _ _).bind fun _ => hfixup x c
  · exact (rbTransplant_plain _ _).bind fun _ => hfixup x c
  · exact (rbDeleteSplice_plain fuel z).bind fun x => hfixup x.1 x.2

theorem inOrderTraversal_plain (callback : Ptr → TreeCode Unit)
    (hcallback : ∀ p, (callback p).Plain) : (inOrderTraversal callback fuel x).Plain := by
  induction fuel generalizing x with
  | zero => exact fun _ => .ite trivial trivial
  | succ fuel ih =>
      exact fun _ => .ite trivial fun _ => (ih _).bind fun _ _ _ =>
        (hcallback x).bind fun _ _ => ih _

end Plain

/-! ## The discipline of the functions -/

/-- The parts that run without the lock. -/
def Unlocked : Part → Prop
  | .unlink | .traverse => True
  | .create | .search => False

/-- A CPU that ends a call does not have the lock. -/
def Returns (_ : Part) (held : Prop) (_ : Unit) : Prop := ¬ held

variable (fuel : Nat) {l : Part}

theorem createProcess_obeys (newProcess : Ptr) (x : Process) :
    (createProcess fuel newProcess x).Obeys Unlocked Returns l False := by
  have hheld : True ↔ ¬ Unlocked .create := iff_of_true trivial not_false
  refine ⟨nofun, not_false, ?_⟩
  exact (rbInsert_plain fuel newProcess).obeys_bind hheld fun _ => ⟨trivial, not_false⟩

/-- `rbSearch` has the lock as long as it walks, and not when it returns. -/
theorem rbSearch_obeys (pid : Word) {post : Part → Prop → Ptr → Prop}
    (hpost : ∀ p, post .search False p) :
    (rbSearch fuel pid).Obeys Unlocked post l False := by
  have hheld : True ↔ ¬ Unlocked .search := iff_of_true trivial not_false
  refine ⟨not_false, fun _ => hheld, fun root => ?_⟩
  have hwalk := Code.Plain.whileLoop (searchGuard_plain · pid) (searchBody_plain · pid) fuel root
  exact hwalk.obeys_bind hheld fun p => ⟨trivial, hpost p⟩

/-- What `rbDelete` does behind the search, it does without the lock. -/
theorem rbDelete_obeys (pid : Word) :
    (rbDelete fuel pid).Obeys Unlocked Returns l False := by
  have hheld : False ↔ ¬ Unlocked .unlink := iff_of_false not_false (not_not.mpr trivial)
  refine Code.Obeys.bind (rbSearch_obeys fuel pid fun z => ⟨nofun, fun nil => .ite ?_ ?_⟩)
  · exact (rbUnlink_plain fuel z).obeys hheld fun _ => not_false
  · exact not_false

theorem fillRunqueuesFromBST_obeys :
    (fillRunqueuesFromBST fuel).Obeys Unlocked Returns l False := by
  have hheld : False ↔ ¬ Unlocked .traverse := iff_of_false not_false (not_not.mpr trivial)
  refine ⟨fun _ => hheld, fun root => ?_⟩
  have hwalk := inOrderTraversal_plain fuel root (fun _ => pure ()) fun _ => trivial
  exact hwalk.obeys hheld fun _ => not_false

end TreeCode

/-! ## The CPUs -/

/-- The calls that the CPUs make. -/
inductive TreeCall where
  | createKernelProcess (newProcess : Ptr) (x : Process)
  | createUserProcess (newProcess : Ptr) (x : Process)
  | rbSearch (pid : Word)
  | rbDelete (pid : Word)
  | fillRunqueuesFromBST

namespace TreeCall

/-- What a CPU executes. A run of any length is a run with enough fuel. -/
def body (fuel : Nat) : TreeCall → TreeCode Unit
  | .createKernelProcess newProcess x => TreeCode.createProcess fuel newProcess x
  | .createUserProcess newProcess x => TreeCode.createProcess fuel newProcess x
  | .rbSearch pid => do let _ ← TreeCode.rbSearch fuel pid
  | .rbDelete pid => TreeCode.rbDelete fuel pid
  | .fillRunqueuesFromBST => TreeCode.fillRunqueuesFromBST fuel

theorem body_obeys (fuel : Nat) (call : TreeCall) (l : Part) :
    (call.body fuel).Obeys TreeCode.Unlocked TreeCode.Returns l False := by
  cases call with
  | createKernelProcess newProcess x => exact TreeCode.createProcess_obeys fuel newProcess x
  | createUserProcess newProcess x => exact TreeCode.createProcess_obeys fuel newProcess x
  | rbSearch pid =>
      exact Code.Obeys.bind (TreeCode.rbSearch_obeys fuel pid fun _ => not_false)
  | rbDelete pid => exact TreeCode.rbDelete_obeys fuel pid
  | fillRunqueuesFromBST => exact TreeCode.fillRunqueuesFromBST_obeys fuel

variable {ι : Type} [DecidableEq ι]

/-- The CPUs before their first call. -/
abbrev boot (tree : ProcTree) : Processors treeMemory Part ι := .start tree .create

/-- One step of one CPU. -/
abbrev step (fuel : Nat) (s : Processors treeMemory Part ι) :
    Processors.Event ι TreeCall → Option (Processors treeMemory Part ι) :=
  s.step (body fuel)

/-- Any number of CPUs make these calls on any tree, and their steps interleave in any order.
All writes of the tree and all steps along it are made with `rbTreeLock` in exactly the runs in
which no CPU makes one in `fillRunqueuesFromBST`, or in `rbDelete` behind a search that found
the process. -/
theorem always_treeLocked_iff (fuel : Nat) (tree : ProcTree)
    (events : List (Processors.Event ι TreeCall)) :
    Always (step fuel) Processors.Covered (boot tree) events ↔
      Admissible (step fuel) (Processors.Lawful TreeCode.Unlocked) (boot tree) events :=
  Processors.always_covered_iff (body_obeys fuel) tree .create events

/-- The tree behind `nodePreparation`. -/
def emptyTree : ProcTree := ProcTree.nodePreparation ⟨fun _ => .zero, null, null⟩ 0xD0000000

/-- One CPU creates a process, and another one deletes it. -/
def createThenDelete : List (Processors.Event (Fin 2) TreeCall) :=
  let first : Fin 2 := ⟨0, Nat.two_pos⟩
  let second : Fin 2 := ⟨1, Nat.one_lt_two⟩
  .start first (.createUserProcess 0xD0000100 { Process.zero with pid := 1 }) ::
    (List.replicate 30 (.step first) ++
      .start second (.rbDelete 1) :: List.replicate 30 (.step second))

/-- `rbDelete` takes the process out of the tree without the lock. -/
theorem not_always_treeLocked :
    ¬ ∀ (fuel n : Nat) (tree : ProcTree) (events : List (Processors.Event (Fin n) TreeCall)),
      Always (step fuel) Processors.Covered (boot tree) events := by
  intro hclaim
  have hlast : (runSteps (step 3) (boot emptyTree) createThenDelete).any (fun s =>
      s.accesses.any fun a => !a.2) = true := by decide +kernel
  obtain ⟨s, hrun, hs⟩ := (Option.any_eq_true _ _).mp hlast
  obtain ⟨a, ha, hunheld⟩ := List.any_eq_true.mp hs
  have hheld := (hclaim 3 2 emptyTree createThenDelete).last hrun a ha
  rw [hheld] at hunheld
  exact nomatch hunheld

end TreeCall

end Senob.Sys
