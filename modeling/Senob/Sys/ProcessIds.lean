import Mathlib.Data.List.Perm.Basic
import Senob.Sys.Thread

/-!
# Process ids

`getProcessID` counts kernel processes from 20 and user processes from 100, in one number
space. The two counters keep apart until the kernel counter has passed 100.
-/

namespace Senob.Sys

namespace Kernel

/-- The results of calls of `getProcessID`. Each call gets the address of a structure, with
what the structure holds at that moment. -/
def getProcessIDs (k : Kernel) : List (Ptr × Process) → List Word
  | [] => []
  | (proc, x) :: rest =>
      let (k, pid) := (k.modifyProc proc fun _ => x).getProcessID proc
      pid :: k.getProcessIDs rest

/-- The calls for kernel processes. -/
def kernelCalls (calls : List (Ptr × Process)) : Nat := calls.countP fun c => c.2.isUserProc = 0

/-- The calls for user processes. -/
def userCalls (calls : List (Ptr × Process)) : Nat := calls.countP fun c => c.2.isUserProc ≠ 0

/-- The `n` ids after the value of a counter. -/
def idsAfter (counter : Word) (n : Nat) : List Word :=
  (List.range n).map fun i => counter + BitVec.ofNat 32 (i + 1)

variable {k : Kernel} {calls : List (Ptr × Process)} {counter id : Word} {m n : Nat}

theorem idsAfter_succ (counter : Word) (n : Nat) :
    idsAfter counter (n + 1) = (counter + 1) :: idsAfter (counter + 1) n := by
  rw [idsAfter, List.range_succ_eq_map, List.map_cons, List.map_map, idsAfter]
  congr 1
  refine List.map_congr_left fun i _ => ?_
  rw [Function.comp_apply, Nat.succ_eq_add_one, BitVec.ofNat_add (i + 1), BitVec.ofNat_add i,
    BitVec.add_comm _ (BitVec.ofNat 32 1), BitVec.add_assoc]
  rfl

/-- A counter that does not wrap around yields different ids. -/
theorem idsAfter_nodup (h : counter.toNat + n < 2 ^ 32) : (idsAfter counter n).Nodup := by
  refine List.nodup_range.map_on fun i hi j hj heq => ?_
  have hi := List.mem_range.mp hi
  have hj := List.mem_range.mp hj
  have hnat := congrArg BitVec.toNat heq
  rw [BitVec.toNat_add, BitVec.toNat_add, BitVec.toNat_ofNat, BitVec.toNat_ofNat] at hnat
  omega

theorem mem_idsAfter (h : counter.toNat + n < 2 ^ 32) :
    id ∈ idsAfter counter n ↔ counter.toNat < id.toNat ∧ id.toNat ≤ counter.toNat + n := by
  rw [idsAfter, List.mem_map]
  constructor
  · rintro ⟨i, hi, rfl⟩
    have hi := List.mem_range.mp hi
    rw [BitVec.toNat_add, BitVec.toNat_ofNat]
    omega
  · rintro ⟨hlow, hhigh⟩
    refine ⟨id.toNat - counter.toNat - 1, List.mem_range.mpr (by omega), ?_⟩
    refine BitVec.eq_of_toNat_eq ?_
    rw [BitVec.toNat_add, BitVec.toNat_ofNat]
    omega

/-- The ids are those after the two counters, in some order. -/
theorem getProcessIDs_perm (k : Kernel) (calls : List (Ptr × Process)) :
    (k.getProcessIDs calls).Perm (idsAfter k.kProcessID (kernelCalls calls) ++
      idsAfter k.uProcessID (userCalls calls)) := by
  induction calls generalizing k with
  | nil => exact .refl _
  | cons c rest ih =>
      obtain ⟨p, x⟩ := c
      have hself : ((k.modifyProc p fun _ => x).tree.proc p) = x := Function.update_self ..
      unfold getProcessIDs getProcessID
      rw [hself]
      by_cases hkernel : x.isUserProc = 0
      · have hkernelCalls : kernelCalls ((p, x) :: rest) = kernelCalls rest + 1 := by
          simp [kernelCalls, hkernel]
        have huserCalls : userCalls ((p, x) :: rest) = userCalls rest := by
          simp [userCalls, hkernel]
        rw [if_neg (not_not.mpr hkernel), hkernelCalls, huserCalls, idsAfter_succ,
          List.cons_append]
        exact (ih _).cons _
      · have hkernelCalls : kernelCalls ((p, x) :: rest) = kernelCalls rest :=
          List.countP_cons_of_neg (by simpa using hkernel)
        have huserCalls : userCalls ((p, x) :: rest) = userCalls rest + 1 :=
          List.countP_cons_of_pos (by simpa using hkernel)
        rw [if_pos hkernel, hkernelCalls, huserCalls, idsAfter_succ]
        exact ((ih _).cons _).trans List.perm_middle.symm

/-- With the counters as the source initialises them, fewer than `2 ^ 32 - 101` calls return
different ids exactly if at most 80 of them are for kernel processes, or all of them. -/
theorem getProcessIDs_nodup_iff (hkernel : k.kProcessID = 20) (huser : k.uProcessID = 100)
    (hlength : calls.length < 2 ^ 32 - 101) :
    (k.getProcessIDs calls).Nodup ↔ kernelCalls calls ≤ 80 ∨ userCalls calls = 0 := by
  have hkernelCalls : kernelCalls calls ≤ calls.length := List.countP_le_length
  have huserCalls : userCalls calls ≤ calls.length := List.countP_le_length
  have hkernelNat : (20 : Word).toNat = 20 := rfl
  have huserNat : (100 : Word).toNat = 100 := rfl
  have hkernelRoom : (20 : Word).toNat + kernelCalls calls < 2 ^ 32 := by omega
  have huserRoom : (100 : Word).toNat + userCalls calls < 2 ^ 32 := by omega
  rw [(getProcessIDs_perm k calls).nodup_iff, hkernel, huser, List.nodup_append']
  constructor
  · rintro ⟨-, -, hdisjoint⟩
    by_contra hboth
    -- The first id of a user process is also one of a kernel process.
    have hfirst : (101 : Word).toNat = 101 := rfl
    have hmem : (101 : Word) ∈ idsAfter 20 (kernelCalls calls) :=
      (mem_idsAfter hkernelRoom).mpr (by omega)
    exact hdisjoint hmem ((mem_idsAfter huserRoom).mpr (by omega))
  · intro hapart
    refine ⟨idsAfter_nodup hkernelRoom, idsAfter_nodup huserRoom, fun id hid hid' => ?_⟩
    have hbelow := (mem_idsAfter hkernelRoom).mp hid
    have habove := (mem_idsAfter huserRoom).mp hid'
    omega

/-- The ids of the 81st kernel process and of the first user process are the same. -/
theorem not_forall_getProcessIDs_nodup :
    ¬ ∀ calls : List (Ptr × Process), calls.length < 2 ^ 32 - 101 →
      (initial.getProcessIDs calls).Nodup := by
  intro hclaim
  have hnodup := hclaim (List.replicate 81 (0xD0001000, Process.zero) ++
    [(0xD0002000, { Process.zero with isUserProc := 1 })]) (by decide)
  revert hnodup
  decide +kernel

/-- A kernel process and a user process. -/
theorem getProcessIDs_nodup_twoProcesses :
    (initial.getProcessIDs [(0xD0001000, Process.zero),
      (0xD0002000, { Process.zero with isUserProc := 1 })]).Nodup :=
  (getProcessIDs_nodup_iff rfl rfl (by decide)).mpr (.inl (by decide))

end Kernel

end Senob.Sys
