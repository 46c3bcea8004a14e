import Senob.Sys.Execve
import Senob.Sys.UserProcess

/-!
# Entering a program

`execve` creates a process and switches to its first thread. The registers that `switchTask`
loads are those of `createUserThread`, and the directory it loads is that of the process. So
the CPU fetches the first byte of the file next, in user mode and with a stack.
-/

namespace Senob.Sys

open Senob.Foundation
open Senob.Memory (Paging Layout FatFile ProcessBlocks SpaceCall PagingCall PhysicalMemory Frame
  frameAddress frameOf kernelStart walk userWalk userStackTop
  programmVirtualAddressStart)

namespace Kernel

variable {k k' : Kernel} {p : Ptr} {b : ThreadBlocks} {pageDirectory : Ptr}

/-- The registers of a new thread. -/
theorem createThread_regs (k : Kernel) (p : Ptr) (b : ThreadBlocks)
    (segmentSelector cs eip esp : Word) :
    (k.createThread p b segmentSelector cs eip esp).regs b.regs = { k.regs b.regs with
      ss := segmentSelector
      eflags := 0x202
      cs := cs
      eip := eip
      ds := segmentSelector
      es := segmentSelector
      fs := segmentSelector
      gs := segmentSelector
      esp := esp
      cr3 := BitVec.ofNat 32 (k.tree.proc p).pageDirectory } := by
  have happend : ∀ k₁ : Kernel, (k₁.appendThread b.thread).regs = k₁.regs := by
    intro k₁
    unfold appendThread
    dsimp only
    split <;> rfl
  rw [createThread, happend]
  simp [modifyRegs, modifyThread, getThreadID]

/-- The structure that `createUserThread` fills, over what was in memory. -/
def userRegs (old : Regs) (pageDirectory : Ptr) : Regs :=
  { old with
    ss := 0x23
    eflags := 0x202
    cs := 0x1B
    eip := 0x00400000
    ds := 0x23
    es := 0x23
    fs := 0x23
    gs := 0x23
    esp := 0xB0000000 - 4
    cr3 := BitVec.ofNat 32 pageDirectory }

/-- The registers with which the CPU enters a user process. -/
structure EntersAt (k : Kernel) (cpu : Nat) (pageDirectory : Ptr) : Prop where
  eip : (k.context cpu).eip = 0x00400000
  esp : (k.context cpu).esp = 0xB0000000 - 4
  eflags : (k.context cpu).eflags = 0x202
  cs : (k.context cpu).cs = 0x1B
  ss : (k.context cpu).ss = 0x23
  segments : (k.context cpu).ds = 0x23 ∧ (k.context cpu).es = 0x23 ∧
    (k.context cpu).fs = 0x23 ∧ (k.context cpu).gs = 0x23
  cr3 : (k.context cpu).cr3 = BitVec.ofNat 32 pageDirectory - 0xC0000000

theorem createUserProcess_regs (h : k.createUserProcess p pageDirectory b = some k') :
    ∃ old, k'.regs b.regs = userRegs old pageDirectory := by
  obtain ⟨tree, -, rfl⟩ := Option.map_eq_some_iff.mp h
  refine ⟨(k.prepareProcess p pageDirectory).regs b.regs, ?_⟩
  have hregs := (k.prepareProcess p pageDirectory).createThread_regs p b 0x23 0x1B 0x00400000
    (0xB0000000 - 4)
  have hdirectory : ((k.prepareProcess p pageDirectory).tree.proc p).pageDirectory =
      pageDirectory := by
    simp [prepareProcess_eq]
  rw [hdirectory] at hregs
  exact hregs

theorem enter_entersAt {old : Regs} {regs : Ptr} (cpu : Nat)
    (h : k.regs regs = userRegs old pageDirectory) :
    (k.enter cpu regs).EntersAt cpu pageDirectory := by
  have hcontext :
      (k.enter cpu regs).context cpu = switchTask regs (userRegs old pageDirectory) := by
    rw [← h]
    exact Function.update_self _ _ _
  have huser : privilege (userRegs old pageDirectory).cs ≠ 0 := by
    change privilege 0x1B ≠ 0
    decide
  constructor
  all_goals rw [hcontext]
  case segments => exact ⟨rfl, rfl, rfl, rfl⟩
  case esp => exact if_pos huser
  case ss => exact if_pos huser
  all_goals rfl

end Kernel

namespace Computer

variable {L : Layout} {s : Computer} {tree : RBTree Ptr} {blocks : List Ptr} {file : FatFile}
  {b : ProcessBlocks} {bytes : List (BitVec 8)}

/-- `execve` on a CPU, of a file name that FatFs answers for as `file` says. -/
def execve (L : Layout) (s : Computer) (cpu : Nat) (file : FatFile) (b : ProcessBlocks) :
    Option Computer := do
  let (newProcess, s) ← s.createUserProcess L file b
  let headThread := (s.kernel.tree.proc newProcess).headThread
  return { s with kernel := s.kernel.enter cpu (s.kernel.thread headThread).regs }

/-- The stack that `createUserThread` maps, and the window for the heap. -/
def OwnPage (a : Word) : Prop :=
  (0xAFF9C000 ≤ a ∧ a < 0xB0000000) ∨ (0x00800000 ≤ a ∧ a < 0x01800000)

/-- The CPU runs in user mode at the first byte of the program. Under the directory it has
loaded, the program lies behind the instruction pointer byte for byte, stack and heap are
mapped, and no store into them reaches the program. -/
structure Enters (s : Computer) (cpu : Nat) (dir : Frame) (bytes : List (BitVec 8)) : Prop where
  cr3 : (s.kernel.context cpu).cr3 = frameAddress dir
  user : privilege (s.kernel.context cpu).cs = 3 ∧ privilege (s.kernel.context cpu).ss = 3
  interruptible : (s.kernel.context cpu).eflags &&& 0x200 ≠ 0
  program : ∀ n, ∀ hn : n < bytes.length,
    (userWalk s.paging.memory dir ((s.kernel.context cpu).eip + BitVec.ofNat 32 n)).isSome ∧
      s.paging.loadByte dir ((s.kernel.context cpu).eip + BitVec.ofNat 32 n) = some bytes[n]
  stack : OwnPage (s.kernel.context cpu).esp
  own : ∀ a, OwnPage a → (userWalk s.paging.memory dir a).isSome
  apart : ∀ n < bytes.length, ∀ a, OwnPage a → walk s.paging.memory dir a ≠
    walk s.paging.memory dir ((s.kernel.context cpu).eip + BitVec.ofNat 32 n)

/-- An address of the own pages lies in one of the pages that were mapped for them. -/
theorem OwnPage.exists_page {a : Word} (h : OwnPage a) :
    ∃ w ∈ SpaceCall.stackPages ++ SpaceCall.heapPages, a >>> 12 = w >>> 12 := by
  have hrange : ∀ (start : Word) (pages : Nat), start.toNat % 4096 = 0 →
      start.toNat + 4096 * pages < 2 ^ 32 → start.toNat ≤ a.toNat →
      a.toNat < start.toNat + 4096 * pages →
        ∃ w ∈ SpaceCall.pageRange start pages, a >>> 12 = w >>> 12 := by
    intro start pages haligned hfit hlow hhigh
    refine ⟨_, SpaceCall.mem_pageRange.mpr ⟨(a.toNat - start.toNat) / 4096, by omega, rfl⟩, ?_⟩
    rw [SpaceCall.page_eq_iff, SpaceCall.toNat_add_ofNat (by omega)]
    omega
  have hstack : SpaceCall.stackPages = SpaceCall.pageRange 0xAFF9C000 100 :=
    congrArg (SpaceCall.pageRange · 100) (by decide)
  rcases h with ⟨hlow, hhigh⟩ | ⟨hlow, hhigh⟩
  · have hstart : (0xAFF9C000 : Word).toNat = 0xAFF9C000 := rfl
    have hstop : a.toNat < 0xB0000000 := hhigh
    obtain ⟨w, hw, hpage⟩ := hrange 0xAFF9C000 100 (by decide) (by decide) hlow
      (by rw [hstart]; omega)
    exact ⟨w, List.mem_append_left _ (hstack ▸ hw), hpage⟩
  · have hstart : (0x00800000 : Word).toNat = 0x00800000 := rfl
    have hstop : a.toNat < 0x01800000 := hhigh
    obtain ⟨w, hw, hpage⟩ := hrange 0x00800000 4096 (by decide) (by decide) hlow
      (by rw [hstart]; omega)
    exact ⟨w, List.mem_append_right _ hw, hpage⟩

theorem OwnPage.low {a : Word} (h : OwnPage a) : a < kernelStart ∧ 0x00800000 ≤ a.toNat := by
  rw [SpaceCall.lt_kernelStart_iff]
  rcases h with ⟨hlow, hhigh⟩ | ⟨hlow, hhigh⟩
  · have hstart : 0xAFF9C000 ≤ a.toNat := hlow
    have hstop : a.toNat < 0xB0000000 := hhigh
    omega
  · have hstart : 0x00800000 ≤ a.toNat := hlow
    have hstop : a.toNat < 0x01800000 := hhigh
    omega

/-- What the process finds in its own space. -/
theorem enters_of_created {s' : Computer} {s₁ s₂ s₃ : Paging} {i : Fin 256} {cpu : Nat}
    (hcreated : SpaceCall.Created L file b i s.paging s₁ s₂ s₃ s'.paging)
    (himage : s'.paging.HoldsImage (L.pageDir i) file bytes)
    (hentry : s'.kernel.EntersAt cpu (directory L i)) (hlength : bytes.length ≤ 0x400000) :
    s'.Enters cpu (L.pageDir i) bytes := by
  have horderly := hcreated.thread.orderly
  obtain ⟨-, hused₃, hused⟩ := hcreated.inUse
  have huser : PagingCall.UserTables L i s'.paging := hcreated.thread.user i hused₃
    (hcreated.copied.user i hcreated.inUse.1
      (hcreated.program.user i hcreated.fresh.inUse hcreated.fresh.user))
  have hcr3 : s₃.cr3 = L.pageDir i := by
    rw [hcreated.copied.cr3, hcreated.program.cr3, hcreated.fresh.cr3]
  have hmapped : ∀ a, OwnPage a → ∃ f, walk s'.paging.memory (L.pageDir i) a = some f := by
    intro a ha
    obtain ⟨w, hw, hpage⟩ := ha.exists_page
    obtain ⟨f, hf⟩ := hcreated.thread.mapped i hused₃ hcr3 w
      (List.mem_append_right _ (List.mem_append_left _ hw)) (SpaceCall.low_thread w hw)
    exact ⟨f, (PagingCall.walk_page hpage).trans hf⟩
  constructor
  case cr3 =>
    have hstart : (0xC0000000 : Word) = kernelStart := rfl
    rw [hentry.cr3, directory, BitVec.ofNat_toNat, BitVec.setWidth_eq, hstart,
      BitVec.add_sub_cancel]
  case user => exact ⟨by rw [hentry.cs]; decide, by rw [hentry.ss]; decide⟩
  case interruptible =>
    rw [hentry.eflags]
    decide
  case program =>
    rw [hentry.eip]
    exact fun n hn => ⟨himage.user n hn, himage.holds n hn⟩
  case stack =>
    rw [hentry.esp]
    exact .inl (by decide)
  case own =>
    intro a ha
    obtain ⟨f, hf⟩ := hmapped a ha
    rw [huser.userWalk ha.low.1 horderly.translating.small hf]
    rfl
  case apart =>
    intro n hn a ha heq
    rw [hentry.eip] at heq
    have haddress := SpaceCall.toNat_program (n := n) (by omega)
    have hbelow : programmVirtualAddressStart + BitVec.ofNat 32 n < kernelStart := by
      rw [SpaceCall.lt_kernelStart_iff, haddress]
      omega
    obtain ⟨f, hf⟩ := hmapped a ha
    have hpage : ∀ v < kernelStart, walk s'.paging.memory (L.pageDir i) v = some f →
        PagingCall.PageAt L s'.paging (.user i) v f := by
      intro v hv hwalk
      have hindex := PagingCall.pdIndex_of_low hv
      exact ⟨hused, BitVec.lt_trans hv (by decide : kernelStart < 0xFFC00000),
        horderly.translating.small (.user i) _ hindex, hwalk⟩
    -- Frames are not shared, so that the two addresses would lie on one page.
    have hsame := (PagingCall.isolated horderly.translating.coherent horderly.exclusive).page _ _
      _ _ f (hpage a ha.low.1 hf) (hpage _ hbelow (heq.symm.trans hf))
    rw [SpaceCall.page_eq_iff, haddress] at hsame
    have hown := ha.low.2
    omega

/-- The registers of the first thread of a process that was created. -/
theorem createUserProcess_thread {s' : Computer} {i : Fin 256}
    (hplanted : s.kernel.Planted tree blocks) (hnew : b.process.address ∉ blocks)
    (hbound : b.process.address < 2 ^ 32) (hdir : (s.paging.memAllocPageDir L).1 = some i)
    (h : s.createUserProcess L file b = some (b.process.address, s')) :
    (s'.kernel.thread (s'.kernel.tree.proc b.process.address).headThread).regs = b.regs.address ∧
      ∃ old, s'.kernel.regs b.regs.address = Kernel.userRegs old (directory L i) := by
  obtain ⟨⟨j, paging⟩, hpaging, h⟩ := Option.bind_eq_some_iff.mp h
  obtain ⟨kernel, hkernel, h⟩ := Option.bind_eq_some_iff.mp h
  obtain ⟨-, rfl⟩ := Prod.mk.inj (Option.some.inj h)
  obtain ⟨hb, hj⟩ := SpaceCall.createUserProcessOf_some hpaging
  obtain rfl : i = j := Option.some.inj (hdir.symm.trans hj)
  obtain ⟨k', tree', hcreate, -, hjoined, -⟩ :=
    hplanted.createProcess (directory L i)
      (Kernel.createUserThread_creates b.process.address (firstThread b)) hnew hb.1 hbound
      (List.subset_cons_self b.process.address blocks) List.mem_cons_self
  obtain rfl : k' = kernel := Option.some.inj (hcreate.symm.trans hkernel)
  obtain ⟨-, hnewborn⟩ :=
    Kernel.createProcess_added (Kernel.createUserThread_creates b.process.address _) hkernel
  exact ⟨by rw [hjoined.head]; exact hnewborn.regs, Kernel.createUserProcess_regs hkernel⟩

/-- `execve` of a file that can be read, of up to four mebibytes, enters the program. -/
theorem execve_enters (m : PhysicalMemory) (memHigh : Nat) {physicalAllocstart : Nat}
    (hbehind : PagingCall.Behind L physicalAllocstart) {calls : List SpaceCall}
    (hcalls : Admissible (SpaceCall.step L) (SpaceCall.Supplied L)
      (Paging.initDirectories L m memHigh physicalAllocstart) calls)
    (hrun : runSteps (SpaceCall.step L) (Paging.initDirectories L m memHigh physicalAllocstart)
      calls = some s.paging)
    (hplanted : s.kernel.Planted tree blocks) (hnew : b.process.address ∉ blocks)
    (hbound : b.process.address < 2 ^ 32) (hfile : file.Contains bytes)
    (hprovided : s.Provided file bytes b) (hstocked : s.Stocked L file b) (cpu : Nat) :
    ∃ s' i, s.execve L cpu file b = some s' ∧ s.paging.pageDirsUsed i = false ∧
      s'.Enters cpu (L.pageDir i) bytes := by
  obtain ⟨i, hdir⟩ := (exists_pageDir s.paging).mpr hprovided.directory
  have horderly := SpaceCall.orderly_run m memHigh hbehind hcalls hrun
  obtain ⟨s', s₁, s₂, s₃, hcreate, hcreated, -, -⟩ :=
    exists_created horderly hplanted hnew hbound hprovided.blocks hdir (hstocked i hdir)
  have himage : s'.paging.HoldsImage (L.pageDir i) file bytes ∧ bytes.length ≤ 0x400000 := by
    rcases hprovided.image with rfl | ⟨hsucceeds, hlength⟩
    · exact ⟨⟨nofun, nofun, nofun, nofun⟩, Nat.zero_le _⟩
    · exact ⟨hcreated.holdsImage hfile hsucceeds hlength, hlength⟩
  obtain ⟨hregs, old, hold⟩ := createUserProcess_thread hplanted hnew hbound hdir hcreate
  refine ⟨{ s' with kernel := s'.kernel.enter cpu b.regs.address }, i, ?_, ?_,
    enters_of_created hcreated himage.1 (Kernel.enter_entersAt cpu hold) himage.2⟩
  · rw [execve, hcreate]
    simp only [Option.bind_eq_bind, Option.bind_some, hregs]
    rfl
  · rcases Paging.memAllocPageDir_cases
      (Prod.mk.eta : (_, _) = s.paging.memAllocPageDir L).symm with
      ⟨hnone, -, -⟩ | ⟨j, hj, hfree, -⟩
    · exact absurd (hdir.symm.trans hnone) (Option.some_ne_none i)
    · obtain rfl : i = j := Option.some.inj (hdir.symm.trans hj)
      exact hfree

theorem execve_enters_example :
    ∃ s' i, exampleComputer.execve PagingCall.exampleLayout 0 (FatFile.ofBytes [0x90, 0xC3])
        SpaceCall.exampleBlocks = some s' ∧ exampleComputer.paging.pageDirsUsed i = false ∧
      s'.Enters 0 (PagingCall.exampleLayout.pageDir i) [0x90, 0xC3] := by
  have hcalls : Admissible (SpaceCall.step PagingCall.exampleLayout)
      (SpaceCall.Supplied PagingCall.exampleLayout) SpaceCall.exampleBoot [] := trivial
  refine execve_enters (fun _ _ => 0) 0x8000000 PagingCall.behind_exampleLayout hcalls rfl
    planted_exampleComputer (by decide) (by decide) (SpaceCall.contains_ofBytes (by decide)) ?_
    (stocked_exampleComputer ?_) 0
  · exact ⟨by decide, ⟨0, rfl⟩, .inr ⟨SpaceCall.succeeds_ofBytes _, by decide⟩⟩
  · rw [SpaceCall.ofBytes_programPages, SpaceCall.length_pageRange]
    decide

end Computer

end Senob.Sys
