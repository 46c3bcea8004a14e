import Senob.Memory.ProgramExact
import Senob.Sys.Housing

/-!
# The creation of a user process

`createUserProcess` hears of no failure on its way: of `kmalloc`, of `mem_alloc_page_dir`, of FatFs.
The process joins the tree whatever was read of its program, and null pointers are followed. Below
four mebibytes the image is whole if, and only if, nothing fails.
-/

namespace Senob.Memory

open Senob.Foundation

namespace SpaceCall

variable {L : Layout} {s t : Paging} {i : Fin 256} {file : FatFile} {b : ProcessBlocks}
  {bytes : List (BitVec 8)}

/-! ## The copy of the file -/

theorem store_mem_memcpyStores (dest : Word) (src : List (BitVec 8)) {j : Nat}
    (hj : j < src.length) :
    store (dest + BitVec.ofNat 32 j) src[j] ∈ FatFile.copyStores.memcpyStores dest src := by
  induction src generalizing dest j with
  | nil => exact absurd hj (Nat.not_lt_zero j)
  | cons b rest ih =>
      rw [FatFile.copyStores.memcpyStores, List.mem_cons]
      cases j with
      | zero => exact .inl (congrArg (store · b) (BitVec.add_zero dest))
      | succ j =>
          have hrest := ih (dest + 1) (Nat.lt_of_succ_lt_succ hj)
          rw [show dest + 1 = dest + BitVec.ofNat 32 1 from rfl, add_ofNat, Nat.add_comm] at hrest
          exact .inr hrest

/-- What the reads up to a round deliver is stored. -/
theorem store_mem_stores (hopens : file.opens = true) {r : Nat} (hr : r < file.pagesNeeded)
    (hreads : ∀ r' ≤ r, (file.read r').isSome) {buffer : List (BitVec 8)}
    (hbuffer : file.read r = some buffer) {j : Nat} (hj : j < buffer.length) :
    store (programmVirtualAddressStart + BitVec.ofNat 32 (4096 * r + j)) buffer[j] ∈
      file.stores := by
  have hcopy : ∀ left k, k ≤ r → r < k + left →
      store (programmVirtualAddressStart + BitVec.ofNat 32 (4096 * r + j)) buffer[j] ∈
        file.copyStores programmVirtualAddressStart k left := by
    intro left
    induction left with
    | zero => exact fun k hk hlast => absurd hlast (Nat.not_lt.mpr hk)
    | succ left ih =>
        intro k hk hlast
        obtain ⟨first, hfirst⟩ := Option.isSome_iff_exists.mp (hreads k hk)
        rw [FatFile.copyStores, Nat.mul_comm k, hfirst]
        rcases Nat.eq_or_lt_of_le hk with rfl | hk
        · obtain rfl := Option.some.inj (hbuffer.symm.trans hfirst)
          have hstore := store_mem_memcpyStores
            (programmVirtualAddressStart + BitVec.ofNat 32 (4096 * k)) buffer hj
          rw [add_ofNat] at hstore
          exact List.mem_append_left _ hstore
        · exact List.mem_append_right _ (ih (k + 1) hk (by omega))
  unfold FatFile.stores
  rw [if_pos hopens]
  exact hcopy _ 0 (Nat.zero_le r) (by rwa [Nat.zero_add])

end SpaceCall

/-- The image of a program has been read from the file, byte for byte, into pages of the directory
that the process may use, and no other part of the process has been mapped over it. -/
structure Paging.HoldsImage (s : Paging) (dir : Frame) (file : FatFile) (bytes : List (BitVec 8)) :
    Prop where
  read : ∀ n (hn : n < bytes.length), SpaceCall.store
    (programmVirtualAddressStart + BitVec.ofNat 32 n) bytes[n] ∈ file.stores
  user : ∀ n < bytes.length,
    (userWalk s.memory dir (programmVirtualAddressStart + BitVec.ofNat 32 n)).isSome
  holds : s.HoldsProgram dir bytes
  own : ∀ n < bytes.length, ∀ w ∈ SpaceCall.stackPages ++ SpaceCall.heapPages,
    (programmVirtualAddressStart + BitVec.ofNat 32 n) >>> 12 ≠ w >>> 12

namespace SpaceCall

variable {L : Layout} {s s₁ s₂ s₃ t : Paging} {i : Fin 256} {file : FatFile} {b : ProcessBlocks}
  {bytes : List (BitVec 8)} {dir : Frame}

/-- Behind four mebibytes, the heap is mapped over the image. -/
theorem length_le_of_own (hown : ∀ n < bytes.length, ∀ w ∈ stackPages ++ heapPages,
    (programmVirtualAddressStart + BitVec.ofNat 32 n) >>> 12 ≠ w >>> 12) :
    bytes.length ≤ 0x400000 := by
  by_contra hlong
  have hheap : (0x00800000 : Word) ∈ heapPages := mem_pageRange.mpr ⟨0, by decide, rfl⟩
  exact hown 0x400000 (Nat.lt_of_not_le hlong) _ (List.mem_append_right _ hheap) rfl

/-- An image that is there was read by calls that all succeeded. -/
theorem succeeds_of_holdsImage (hfile : file.Contains bytes) (hne : bytes ≠ [])
    (h : t.HoldsImage dir file bytes) : file.Succeeds ∧ bytes.length ≤ 0x400000 := by
  have hlength := length_le_of_own h.own
  have hfirst := h.read 0 (List.length_pos_iff.mpr hne)
  obtain ⟨hopens, r, hr, -⟩ := mem_stores hfirst
  have hstat : file.stat.isSome := by
    cases hnone : file.stat with
    | none =>
        unfold FatFile.pagesNeeded at hr
        rw [hnone] at hr
        exact absurd hr (Nat.not_lt_zero r)
    | some size => rfl
  have hpages := pagesNeeded_eq hfile hstat
  refine ⟨⟨hstat, hopens, fun r hr => ?_⟩, hlength⟩
  obtain ⟨-, r', hr', hread, j, hj, byte, hstore⟩ := mem_stores (h.read (4096 * r) (by omega))
  have haddr := congrArg BitVec.toNat (SpaceCall.store.inj hstore).1
  rw [toNat_program (by omega), toNat_program (by omega)] at haddr
  obtain rfl : r = r' := by omega
  exact hread

theorem Created.holdsImage (h : Created L file b i s s₁ s₂ s₃ t) (hfile : file.Contains bytes)
    (hsucceeds : file.Succeeds) (hlength : bytes.length ≤ 0x400000) :
    t.HoldsImage (L.pageDir i) file bytes := by
  have hholds := h.holdsProgram hfile hsucceeds hlength
  obtain ⟨hstat, hopens, hreads⟩ := hsucceeds
  have huser : PagingCall.UserTables L i t := h.thread.user i h.inUse.2.1
    (h.copied.user i h.inUse.1 (h.program.user i h.fresh.inUse h.fresh.user))
  refine ⟨fun n hn => ?_, fun n hn => ?_, hholds, fun n hn w hw hpage => ?_⟩
  · have hpages : n / 4096 < file.pagesNeeded := by
      rw [pagesNeeded_eq hfile hstat]
      omega
    have hsplit : 4096 * (n / 4096) + n % 4096 = n := Nat.div_add_mod n 4096
    obtain ⟨buffer, hread, hj, hbyte⟩ := read_byte hfile hn (hreads _ hpages)
    have hstore := store_mem_stores hopens hpages
      (fun r hr => hreads r (Nat.lt_of_le_of_lt hr hpages)) hread hj
    rwa [hsplit, hbyte] at hstore
  · have hlow : programmVirtualAddressStart + BitVec.ofNat 32 n < kernelStart := by
      rw [lt_kernelStart_iff, toNat_program (by omega)]
      omega
    obtain ⟨f, hf, -⟩ := Option.map_eq_some_iff.mp (hholds n hn)
    rw [huser.userWalk hlow h.thread.orderly.translating.small hf]
    rfl
  · have hlater := later_le hw
    rw [page_eq_iff, toNat_program (by omega)] at hpage
    omega

end SpaceCall

end Senob.Memory

namespace Senob.Sys

open Senob.Foundation
open Senob.Memory (Paging Layout FatFile Kmalloc ProcessBlocks SpaceCall PagingCall PhysicalMemory
  frameAddress kernelStart)

/-! ## The process in memory and in the tree -/

/-- Physical memory with the page directories, and the structures of the kernel. -/
structure Computer where
  paging : Paging
  kernel : Kernel

/-- The address of `pageDirs[i]`. -/
def directory (L : Layout) (i : Fin 256) : Ptr := (frameAddress (L.pageDir i) + kernelStart).toNat

/-- The blocks of the first thread. -/
def firstThread (b : ProcessBlocks) : ThreadBlocks :=
  ⟨b.thread.address, b.kernelStack.address, b.regs.address⟩

namespace Computer

variable (L : Layout) (s : Computer)

/-- `createUserProcess`, with the pointer that it returns. `none` is a page fault. -/
def createUserProcess (file : FatFile) (b : ProcessBlocks) : Option (Ptr × Computer) := do
  let (pageDirectory, paging) ← s.paging.createUserProcessOf L file b
  let kernel ← s.kernel.createUserProcess b.process.address (directory L pageDirectory)
    (firstThread b)
  return (b.process.address, ⟨paging, kernel⟩)

/-- The process tree, `pageDirsUsed`, the bitmap of the allocator and the current directory are as
they were. -/
structure Unchanged (s s' : Computer) : Prop where
  tree : s'.kernel.tree = s.kernel.tree
  pageDirsUsed : s'.paging.pageDirsUsed = s.paging.pageDirsUsed
  bitmap : s'.paging.pmm.physicalMemoryBitmap = s.paging.pmm.physicalMemoryBitmap
  cr3 : s'.paging.cr3 = s.paging.cr3

/-- The call returns a process of the tree that has its whole image, or it returns the null pointer
and has changed nothing. -/
def AllOrNothing (file : FatFile) (bytes : List (BitVec 8)) (b : ProcessBlocks) : Prop :=
  ∃ newProcess s', s.createUserProcess L file b = some (newProcess, s') ∧
    ((newProcess ≠ null ∧ s'.kernel.tree.Reaches newProcess ∧
        ∃ i, (s'.kernel.tree.proc newProcess).pageDirectory = directory L i ∧
          s'.paging.HoldsImage (L.pageDir i) file bytes) ∨
      (newProcess = null ∧ s.Unchanged s'))

/-- No call on the way fails, for an image that ends below the heap. -/
structure Provided (file : FatFile) (bytes : List (BitVec 8)) (b : ProcessBlocks) : Prop where
  blocks : b.NonNull
  directory : ∃ i, s.paging.pageDirsUsed i = false
  image : bytes = [] ∨ (file.Succeeds ∧ bytes.length ≤ 0x400000)

/-- The allocator has the frames that the call asks for. -/
def Stocked (file : FatFile) (b : ProcessBlocks) : Prop :=
  ∀ i, (s.paging.memAllocPageDir L).1 = some i →
    Admissible (SpaceCall.step L) (SpaceCall.Stocked L) s.paging (SpaceCall.processCalls file b i)

variable {L} {s} {tree : RBTree Ptr} {blocks : List Ptr} {file : FatFile} {b : ProcessBlocks}
  {bytes : List (BitVec 8)} {i : Fin 256}

theorem exists_pageDir (s : Paging) :
    (∃ i, (s.memAllocPageDir L).1 = some i) ↔ ∃ i, s.pageDirsUsed i = false := by
  cases hresult : s.memAllocPageDir L with
  | mk result t =>
      rcases Paging.memAllocPageDir_cases hresult with ⟨rfl, -, hused⟩ | ⟨i, rfl, hfree, -⟩
      · constructor
        · rintro ⟨i, hi⟩
          exact absurd hi (Option.some_ne_none i).symm
        · rintro ⟨i, hi⟩
          exact absurd (hused i) (Bool.eq_false_iff.mp hi)
      · exact ⟨fun _ => ⟨i, hfree⟩, fun _ => ⟨i, rfl⟩⟩

/-- The code never returns the null pointer, and follows it where it gets one. -/
theorem AllOrNothing.provided (hfile : file.Contains bytes) (h : s.AllOrNothing L file bytes b) :
    s.Provided file bytes b := by
  obtain ⟨newProcess, s', hrun, h⟩ := h
  obtain ⟨⟨i, paging⟩, hpaging, hrun⟩ := Option.bind_eq_some_iff.mp hrun
  obtain ⟨kernel, -, hrun⟩ := Option.bind_eq_some_iff.mp hrun
  obtain ⟨rfl, rfl⟩ := Prod.mk.inj (Option.some.inj hrun)
  obtain ⟨hb, hdir⟩ := SpaceCall.createUserProcessOf_some hpaging
  refine ⟨hb, (exists_pageDir s.paging).mp ⟨i, hdir⟩, ?_⟩
  rcases h with ⟨-, -, j, -, himage⟩ | ⟨hnull, -⟩
  · by_cases hempty : bytes = []
    · exact .inl hempty
    · exact .inr (SpaceCall.succeeds_of_holdsImage hfile hempty himage)
  · exact absurd hnull hb.1

/-- The process joins the tree, whatever FatFs answers. -/
theorem exists_created (horderly : PagingCall.Orderly L s.paging)
    (hplanted : s.kernel.Planted tree blocks) (hnew : b.process.address ∉ blocks)
    (hbound : b.process.address < 2 ^ 32) (hb : b.NonNull)
    (hdir : (s.paging.memAllocPageDir L).1 = some i)
    (hstocked : Admissible (SpaceCall.step L) (SpaceCall.Stocked L) s.paging
      (SpaceCall.processCalls file b i)) :
    ∃ s' s₁ s₂ s₃, s.createUserProcess L file b = some (b.process.address, s') ∧
      SpaceCall.Created L file b i s.paging s₁ s₂ s₃ s'.paging ∧
      s'.kernel.tree.Reaches b.process.address ∧
      (s'.kernel.tree.proc b.process.address).pageDirectory = directory L i := by
  obtain ⟨s₁, s₂, s₃, paging, hpaging, hcreated⟩ :=
    SpaceCall.exists_created horderly hb hdir hstocked
  obtain ⟨kernel, tree', hkernel, hplanted', hjoined, hdirectory⟩ :=
    hplanted.createProcess (directory L i)
      (Kernel.createUserThread_creates b.process.address (firstThread b)) hnew hb.1 hbound
      (List.subset_cons_self b.process.address blocks) List.mem_cons_self
  refine ⟨⟨paging, kernel⟩, s₁, s₂, s₃, ?_, hcreated, ?_, hdirectory⟩
  · rw [createUserProcess, hpaging]
    simp only [Option.bind_eq_bind, Option.bind_some, Kernel.createUserProcess, hkernel]
    rfl
  · exact hplanted'.sound.reaches_iff.mpr (hjoined.perm.mem_iff.mpr List.mem_cons_self)

theorem Provided.allOrNothing (h : s.Provided file bytes b)
    (horderly : PagingCall.Orderly L s.paging) (hplanted : s.kernel.Planted tree blocks)
    (hnew : b.process.address ∉ blocks) (hbound : b.process.address < 2 ^ 32)
    (hfile : file.Contains bytes) (hstocked : s.Stocked L file b) :
    s.AllOrNothing L file bytes b := by
  obtain ⟨i, hdir⟩ := (exists_pageDir s.paging).mpr h.directory
  obtain ⟨s', s₁, s₂, s₃, hrun, hcreated, hreaches, hdirectory⟩ :=
    exists_created horderly hplanted hnew hbound h.blocks hdir (hstocked i hdir)
  refine ⟨_, s', hrun, .inl ⟨h.blocks.1, hreaches, i, hdirectory, ?_⟩⟩
  rcases h.image with rfl | ⟨hsucceeds, hlength⟩
  · exact ⟨nofun, nofun, nofun, nofun⟩
  · exact hcreated.holdsImage hfile hsucceeds hlength

/-- `createUserProcess` is all or nothing only if no call on its way fails, and then it is as long
as there are frames. -/
theorem createUserProcess_allOrNothing (m : PhysicalMemory) (memHigh : Nat)
    {physicalAllocstart : Nat} (hbehind : PagingCall.Behind L physicalAllocstart)
    {calls : List SpaceCall}
    (hcalls : Admissible (SpaceCall.step L) (SpaceCall.Supplied L)
      (Paging.initDirectories L m memHigh physicalAllocstart) calls)
    (hrun : runSteps (SpaceCall.step L) (Paging.initDirectories L m memHigh physicalAllocstart)
      calls = some s.paging)
    (hplanted : s.kernel.Planted tree blocks) (hnew : b.process.address ∉ blocks)
    (hbound : b.process.address < 2 ^ 32) (hfile : file.Contains bytes) :
    (s.AllOrNothing L file bytes b → s.Provided file bytes b) ∧
      (s.Provided file bytes b → s.Stocked L file b → s.AllOrNothing L file bytes b) :=
  ⟨AllOrNothing.provided hfile, fun h hstocked =>
    h.allOrNothing (SpaceCall.orderly_run m memHigh hbehind hcalls hrun) hplanted hnew hbound hfile
      hstocked⟩

/-- The state after `nodePreparation`, where the sentinel is at `0xD0000000`. -/
def exampleComputer : Computer where
  paging := SpaceCall.exampleBoot
  kernel := { Kernel.initial with tree := Kernel.initial.tree.nodePreparation 0xD0000000 }

theorem planted_exampleComputer : exampleComputer.kernel.Planted .leaf [0xD0000000] :=
  ⟨(ProcTree.nodePreparation_valid _ _).sound, List.mem_singleton_self _, nofun⟩

theorem stocked_exampleComputer {file : FatFile}
    (hpages : (SpaceCall.programPages (file.stat.map BitVec.toNat)).length ≤ 8448) :
    exampleComputer.Stocked PagingCall.exampleLayout file SpaceCall.exampleBlocks :=
  fun i _ => SpaceCall.exampleBoot_stocked file hpages i

theorem allOrNothing_exampleComputer :
    exampleComputer.AllOrNothing PagingCall.exampleLayout (FatFile.ofBytes [0x90, 0xC3])
      [0x90, 0xC3] SpaceCall.exampleBlocks := by
  have hcalls : Admissible (SpaceCall.step PagingCall.exampleLayout)
      (SpaceCall.Supplied PagingCall.exampleLayout) SpaceCall.exampleBoot [] := trivial
  refine (createUserProcess_allOrNothing (fun _ _ => 0) 0x8000000
    PagingCall.behind_exampleLayout hcalls rfl planted_exampleComputer (by decide) (by decide)
    (SpaceCall.contains_ofBytes (by decide))).2 ?_ (stocked_exampleComputer ?_)
  · exact ⟨by decide, ⟨0, rfl⟩, .inr ⟨SpaceCall.succeeds_ofBytes _, by decide⟩⟩
  · rw [SpaceCall.ofBytes_programPages, SpaceCall.length_pageRange]
    decide

/-- Every call of FatFs fails. -/
def unreadableFile : FatFile := ⟨none, false, fun _ => none, nofun⟩

/-- The process joins the tree without its program. -/
theorem not_allOrNothing_unreadableFile :
    ∃ s', exampleComputer.createUserProcess PagingCall.exampleLayout unreadableFile
        SpaceCall.exampleBlocks = some (0xD0000010, s') ∧
      s'.kernel.tree.Reaches 0xD0000010 ∧
      ¬ exampleComputer.AllOrNothing PagingCall.exampleLayout unreadableFile [0x90, 0xC3]
        SpaceCall.exampleBlocks := by
  have horderly := PagingCall.orderly_initDirectories PagingCall.behind_exampleLayout
    (fun _ _ => 0) 0x8000000
  obtain ⟨s', -, -, -, hrun, -, hreaches, -⟩ := exists_created (s := exampleComputer) (i := 0)
    horderly planted_exampleComputer (b := SpaceCall.exampleBlocks) (by decide) (by decide)
    (by decide) (by decide) (SpaceCall.exampleBoot_stocked unreadableFile (Nat.zero_le _) 0)
  refine ⟨s', hrun, hreaches, fun h => ?_⟩
  have hfile : unreadableFile.Contains [0x90, 0xC3] :=
    ⟨fun size h => absurd h.symm (Option.some_ne_none size),
      fun r buffer h => absurd h.symm (Option.some_ne_none buffer)⟩
  rcases (h.provided hfile).image with hempty | ⟨⟨hstat, -⟩, -⟩
  · exact absurd hempty (List.cons_ne_nil _ _)
  · exact absurd hstat Bool.false_ne_true

end Computer

end Senob.Sys
