import Mathlib.Tactic.FinCases
import Senob.Memory.Paging

/-!
# What the paging functions do

One description for each function of `paging.c`, in terms of the directory that it edits.
The facts that make these descriptions true are collected in `Core`: the current directory
is one of the kernel's, directories map themselves, and no entry that the functions follow
leads into a directory.
-/

namespace Senob.Memory

/-! ## Bits of entries -/

theorem pageFlagPresent_eq : pageFlagPresent = BitVec.twoPow 32 0 := by decide

theorem pageFlagUser_eq : pageFlagUser = BitVec.twoPow 32 2 := by decide

theorem pageFlagOwner_eq : pageFlagOwner = BitVec.twoPow 32 9 := by decide

/-- A mask of one bit asks for that bit. -/
theorem has_twoPow (e : Word) {n : Nat} (hn : n < 32) :
    Has e (BitVec.twoPow 32 n) ↔ e.getLsbD n = true := by
  unfold Has
  rw [BitVec.and_twoPow]
  split
  next hbit =>
    refine iff_of_true (fun hzero => ?_) hbit
    have hget := congrArg (fun x : Word => x.getLsbD n) hzero
    simp [hn] at hget
  next hbit => simpa using hbit

@[simp] theorem has_present (e : Word) : Has e pageFlagPresent ↔ e.getLsbD 0 = true := by
  rw [pageFlagPresent_eq, has_twoPow e (by decide)]

@[simp] theorem has_owner (e : Word) : Has e pageFlagOwner ↔ e.getLsbD 9 = true := by
  rw [pageFlagOwner_eq, has_twoPow e (by decide)]

/-- The frame number is what an entry holds above its twelve flag bits. -/
theorem getLsbD_frameOf (e : Word) {i : Nat} (hi : i < 20) :
    (frameOf e).getLsbD i = e.getLsbD (12 + i) := by
  simp [frameOf, hi]

/-- Adding flags to an entry, and merging two entries, can be done on the frame numbers. -/
theorem frameOf_or (x y : Word) : frameOf (x ||| y) = frameOf x ||| frameOf y := by
  apply BitVec.eq_of_getLsbD_eq
  intro i hi
  simp [getLsbD_frameOf _ hi]

@[simp] theorem frameOf_zero : frameOf 0 = 0 := by decide

@[simp] theorem frameOf_present : frameOf pageFlagPresent = 0 := by decide

@[simp] theorem frameOf_write : frameOf pageFlagWrite = 0 := by decide

@[simp] theorem frameOf_owner : frameOf pageFlagOwner = 0 := by decide

/-- An entry that is made of a frame address, without flags, points to that frame. -/
@[simp] theorem frameOf_frameAddress (f : Frame) : frameOf (frameAddress f) = f := by
  apply BitVec.eq_of_getLsbD_eq
  intro i hi
  rw [getLsbD_frameOf _ hi]
  have hword : 12 + i < 32 := by omega
  simp [frameAddress, hi, hword]

/-- The last entry of a directory points to the directory. -/
@[simp] theorem frameOf_selfEntry (f : Frame) : frameOf (selfEntry f) = f := by
  simp [selfEntry, frameOf_or]

/-- Dropping the ownership leaves the frame. -/
@[simp] theorem frameOf_disown (e : Word) : frameOf (e &&& ~~~pageFlagOwner) = frameOf e := by
  apply BitVec.eq_of_getLsbD_eq
  intro i hi
  rw [getLsbD_frameOf _ hi, getLsbD_frameOf _ hi, pageFlagOwner_eq, BitVec.getLsbD_and,
    BitVec.getLsbD_not, BitVec.getLsbD_twoPow]
  simp
  omega

/-- As a number, the frame of an address is its quotient by the size of a page. -/
theorem toNat_frameOf (e : Word) : (frameOf e).toNat = e.toNat / 4096 := by
  have hlt := e.isLt
  simp only [frameOf, BitVec.toNat_setWidth, BitVec.toNat_ushiftRight, Nat.shiftRight_eq_div_pow]
  omega

/-- `P_PHYS_ADDR` masks the flags off, so that the quotient by the size of a page is the frame
number that the frame allocator counts with. -/
theorem pPhysAddr_div (e : Word) : (pPhysAddr e).toNat / 4096 = (frameOf e).toNat := by
  rw [← toNat_frameOf]
  congr 1
  apply BitVec.eq_of_getLsbD_eq
  intro i hi
  rw [getLsbD_frameOf _ hi, getLsbD_frameOf _ hi, pPhysAddr, BitVec.getLsbD_and,
    BitVec.getLsbD_not]
  have hmask : (0xFFF#32).getLsbD (12 + i) = false := by
    rw [show (0xFFF#32) = BitVec.setWidth 32 (0xFFF#12) from rfl, BitVec.getLsbD_setWidth,
      BitVec.getLsbD_of_ge _ _ (by omega), Bool.and_false]
  simp [hmask]
  omega

/-! ## Addresses -/

/-- An entry of a directory stands for 4 MiB. -/
theorem toNat_pdIndex (virtAddr : Word) : (pdIndex virtAddr).toNat = virtAddr.toNat / 2 ^ 22 := by
  have hlt := virtAddr.isLt
  simp only [pdIndex, BitVec.toNat_setWidth, BitVec.toNat_ushiftRight, Nat.shiftRight_eq_div_pow]
  omega

/-- An entry of a table stands for 4 KiB, and a table has 1024 of them. -/
theorem toNat_ptIndex (virtAddr : Word) :
    (ptIndex virtAddr).toNat = virtAddr.toNat / 2 ^ 12 % 1024 := by
  have hmask := Nat.and_two_pow_sub_one_eq_mod (virtAddr.toNat / 2 ^ 12) 10
  simp only [ptIndex, BitVec.toNat_setWidth, BitVec.toNat_and, BitVec.toNat_ushiftRight,
    Nat.shiftRight_eq_div_pow]
  rw [show (0x3FF : Word).toNat = 2 ^ 10 - 1 from rfl, hmask]
  omega

/-- The upper quarter of a directory belongs to the kernel. -/
theorem kernelStart_le_iff (virtAddr : Word) :
    virtAddr ≥ kernelStart ↔ 768 ≤ (pdIndex virtAddr).toNat := by
  rw [toNat_pdIndex, ge_iff_le, BitVec.le_def, show kernelStart.toNat = 768 * 2 ^ 22 from rfl]
  omega

/-- Every table but the window's own is one of the 1023 that the window shows below it. -/
theorem toNat_lt_window {k : Index} (hk : k ≠ 1023) : k.toNat < 1023 := by
  have hsize := k.isLt
  have hne : k.toNat ≠ 1023 := fun heq => hk (BitVec.eq_of_toNat_eq heq)
  omega

/-! ## Directories -/

/-- The page directories: the kernel's, and the array. -/
inductive Dir where
  | kernel
  | user (i : Fin 256)
  deriving DecidableEq

namespace Layout

variable (L : Layout)

def frame : Dir → Frame
  | .kernel => L.kernelDirectory
  | .user i => L.pageDir i

/-- The directories of the array lie one behind the other, and do not wrap around. -/
theorem toNat_pageDir (i : Fin 256) : (L.pageDir i).toNat = L.pageDirs.toNat + i := by
  have hfit := L.pageDirs_fit
  have hi := i.isLt
  simp only [pageDir, BitVec.toNat_add, BitVec.toNat_ofNat]
  omega

/-- The array of directories does not contain the kernel's directory. -/
theorem pageDir_ne_kernelDirectory (i : Fin 256) : L.pageDir i ≠ L.kernelDirectory := by
  intro heq
  have hnat := congrArg BitVec.toNat heq
  rw [toNat_pageDir] at hnat
  have happart := L.apart
  omega

/-- Different places of the array are different frames. -/
theorem pageDir_injective : Function.Injective L.pageDir := by
  intro i j heq
  have hnat := congrArg BitVec.toNat heq
  rw [toNat_pageDir, toNat_pageDir] at hnat
  omega

/-- Different directories lie in different frames, so that a write to one leaves the others. -/
theorem frame_injective : Function.Injective L.frame := by
  intro D D' heq
  cases D with
  | kernel =>
      cases D' with
      | kernel => rfl
      | user j => exact absurd heq.symm (L.pageDir_ne_kernelDirectory j)
  | user i =>
      cases D' with
      | kernel => exact absurd heq (L.pageDir_ne_kernelDirectory i)
      | user j => exact congrArg Dir.user (L.pageDir_injective heq)

/-- No directory lies in frame 0, the frame that an empty entry points to. -/
theorem frame_ne_zero (D : Dir) : L.frame D ≠ 0 := by
  intro heq
  have hnat := congrArg BitVec.toNat heq
  cases D with
  | kernel => exact absurd hnat (Nat.pos_iff_ne_zero.mp L.kernelDirectory_pos)
  | user i =>
      have hpos := L.pageDirs_pos
      rw [frame, toNat_pageDir] at hnat
      exact absurd hnat (by simp; omega)

end Layout

/-! ## Memory -/

namespace PhysicalMemory

variable (m : PhysicalMemory) {f f' : Frame} {i i' : Index} {e : Word}

@[simp] theorem write_self : m.write f i e f i = e := by simp [write]

/-- A write changes one entry of one frame. -/
theorem write_of_ne (h : f' ≠ f ∨ i' ≠ i) : m.write f i e f' i' = m f' i' := by
  unfold write
  rw [if_neg]
  rintro ⟨hf, hi⟩
  exact h.elim (fun hne => hne hf) fun hne => hne hi

@[simp] theorem zero_self : m.zero f f i = 0 := by simp [zero]

/-- Clearing a frame leaves the other frames. -/
theorem zero_of_ne (h : f' ≠ f) : m.zero f f' i = m f' i := by simp [zero, h]

end PhysicalMemory

namespace Paging

section Sync

variable (L : Layout) (used : Fin 256 → Bool) (m : PhysicalMemory)

/-- What an entry is after the loop over the directories: a copy of the kernel's entry, without
its owner flag, in the kernel's part of each directory in use, and as before elsewhere. -/
theorem syncKernelHalves_apply (f : Frame) (i : Index) :
    syncKernelHalves L used m f i =
      if (∃ d, used d = true ∧ f = L.pageDir d) ∧ 768 ≤ i.toNat ∧ i.toNat < 1023 then
        m L.kernelDirectory i &&& ~~~pageFlagOwner
      else m f i := by
  have hloop : ∀ (dirs : List (Fin 256)) (m : PhysicalMemory),
      dirs.foldl (fun m d => if used d then copyKernelHalf L m (L.pageDir d) else m) m f i =
        if (∃ d ∈ dirs, used d = true ∧ f = L.pageDir d) ∧ 768 ≤ i.toNat ∧ i.toNat < 1023 then
          m L.kernelDirectory i &&& ~~~pageFlagOwner
        else m f i := by
    intro dirs
    induction dirs with
    | nil => simp
    | cons d rest ih =>
        intro m
        rw [List.foldl_cons, ih]
        by_cases hused : used d = true
        · have hkernel : copyKernelHalf L m (L.pageDir d) L.kernelDirectory i =
              m L.kernelDirectory i := by
            unfold copyKernelHalf
            rw [if_neg fun h => L.pageDir_ne_kernelDirectory d h.1.symm]
          simp only [hused, if_true, hkernel]
          by_cases hf : f = L.pageDir d
          · subst hf
            by_cases hi : 768 ≤ i.toNat ∧ i.toNat < 1023
            · simp [copyKernelHalf, hi, hused]
            · simp [copyKernelHalf, hi]
          · simp [copyKernelHalf, hf]
        · simp [hused]
  simpa [syncKernelHalves] using hloop (List.finRange 256) m

/-- Only the upper entries of directories in use are synchronised. -/
theorem syncKernelHalves_of_ne {f : Frame} {i : Index}
    (h : (∀ d, f ≠ L.pageDir d) ∨ i.toNat < 768 ∨ i = 1023) :
    syncKernelHalves L used m f i = m f i := by
  rw [syncKernelHalves_apply, if_neg]
  rintro ⟨⟨d, -, hf⟩, hlow, hhigh⟩
  rcases h with hdir | hi | rfl
  · exact hdir d hf
  · omega
  · exact absurd hhigh (by decide)

/-- The kernel's part of a directory in use is a copy of the kernel's entries. -/
theorem syncKernelHalves_used {d : Fin 256} {i : Index} (hused : used d = true)
    (hlow : 768 ≤ i.toNat) (hhigh : i.toNat < 1023) :
    syncKernelHalves L used m (L.pageDir d) i = m L.kernelDirectory i &&& ~~~pageFlagOwner := by
  rw [syncKernelHalves_apply, if_pos ⟨⟨d, hused, rfl⟩, hlow, hhigh⟩]

end Sync

end Paging

end Senob.Memory
