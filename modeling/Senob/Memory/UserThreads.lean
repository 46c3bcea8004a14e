import Senob.Memory.ProgramExact

/-!
# Further threads of a user process

`createUserThread` maps the stack of every thread to the same hundred pages below
`USER_STACK_TOP`, and with it the heap of the process. Whatever was mapped there loses its frames.
-/

namespace Senob.Memory

open Senob.Foundation
open SpaceCall (stackPages heapPages processCalls threadCalls)

/-- The pages of the stack that a thread was given, and its first stack pointer. -/
structure UserThread where
  stack : List Word
  esp : Word

/-- The memory, and the threads of one process in the order of their creation. -/
structure UserProcess where
  paging : Paging
  threads : List UserThread

namespace UserProcess

variable (L : Layout)

/-- What `createUserThread` gives a thread, whatever threads there are. -/
def newThread : UserThread := ⟨stackPages, userStackTop - 4⟩

/-- `createUserProcess`. -/
def create (s : Paging) (file : FatFile) (b : ProcessBlocks) : Option (Fin 256 × UserProcess) :=
  (s.createUserProcessOf L file b).map fun (i, t) => (i, ⟨t, [newThread]⟩)

def createUserThread (p : UserProcess) (b : ProcessBlocks) : Option UserProcess :=
  (p.paging.createUserThreadOf L b).map fun t => ⟨t, p.threads ++ [newThread]⟩

/-- What may happen after the creation: any call of the paging functions, any store, and further
threads. -/
inductive Op where
  | space (call : SpaceCall)
  | createUserThread (b : ProcessBlocks)

def step (p : UserProcess) : Op → Option UserProcess
  | .space call => (call.step L p.paging).map fun t => ⟨t, p.threads⟩
  | .createUserThread b => p.createUserThread L b

/-- The pages of the process keep their frames, and these their contents. -/
def KeepsPages (i : Fin 256) (p q : UserProcess) : Prop :=
  ∀ v < kernelStart, ∀ f, walk p.paging.memory (L.pageDir i) v = some f →
    walk q.paging.memory (L.pageDir i) v = some f ∧ q.paging.memory f = p.paging.memory f

/-- The new thread starts in a page that is in no stack of an earlier one. -/
def StackApart (p q : UserProcess) : Prop :=
  ∀ new ∈ q.threads.getLast?, ∀ u ∈ p.threads, ∀ w ∈ u.stack, new.esp >>> 12 ≠ w >>> 12

/-- The creation of a thread does not disturb the process. -/
def Undisturbed (i : Fin 256) (p q : UserProcess) : Prop :=
  KeepsPages L i p q ∧ StackApart p q

variable {L} {s t : Paging} {i : Fin 256} {p q r : UserProcess} {b : ProcessBlocks}

/-! ## The stack -/

/-- All threads of the process, of which there are some, have the same stack. -/
def Stacked (p : UserProcess) : Prop := p.threads ≠ [] ∧ ∀ u ∈ p.threads, u = newThread

theorem stacked_create {file : FatFile} (h : create L s file b = some (i, p)) : p.Stacked := by
  obtain ⟨⟨j, t⟩, -, heq⟩ := Option.map_eq_some_iff.mp h
  obtain ⟨-, rfl⟩ := Prod.mk.inj heq
  exact ⟨List.cons_ne_nil _ _, fun u hu => List.mem_singleton.mp hu⟩

theorem createUserThread_threads (h : p.createUserThread L b = some q) :
    q.threads = p.threads ++ [newThread] := by
  obtain ⟨t, -, rfl⟩ := Option.map_eq_some_iff.mp h
  rfl

theorem Stacked.step (h : p.Stacked) {op : Op} (hstep : p.step L op = some q) : q.Stacked := by
  cases op with
  | space call =>
      obtain ⟨t, -, rfl⟩ := Option.map_eq_some_iff.mp hstep
      exact h
  | createUserThread b =>
      unfold Stacked
      rw [createUserThread_threads hstep]
      refine ⟨List.append_ne_nil_of_right_ne_nil _ (List.cons_ne_nil _ _), ?_⟩
      exact List.forall_mem_append.mpr ⟨h.2, fun u hu => List.mem_singleton.mp hu⟩

/-- The stack pointer of every thread points into the last page of the stack of every thread. -/
theorem Stacked.not_stackApart (h : p.Stacked) (hcall : p.createUserThread L b = some q) :
    ¬ StackApart p q := by
  intro hapart
  obtain ⟨u, hu⟩ := List.exists_mem_of_ne_nil _ h.1
  have hlast : newThread ∈ q.threads.getLast? := by
    rw [createUserThread_threads hcall, List.getLast?_append]
    rfl
  have hpage : userStackTop - 4096 ∈ u.stack := by
    rw [h.2 u hu]
    exact SpaceCall.mem_pageRange.mpr ⟨99, by decide, by decide⟩
  exact hapart newThread hlast u hu _ hpage (by decide)

/-! ## The pages -/

open PagingCall (Orderly)

/-- A frame that was free when the mapping began. -/
theorem renews_lowPages (h : Orderly L s) (hi : s.pageDirsUsed i = true)
    (hcr3 : s.cr3 = L.pageDir i) {pages : List Word} (hlow : ∀ w ∈ pages, w < kernelStart)
    (hstocked : Admissible (PagingCall.step L) (PagingCall.Stocked L) s
      (pages.map (PagingCall.mapNewFrame · userFlags)))
    (hrun : runSteps (PagingCall.step L) s (pages.map (PagingCall.mapNewFrame · userFlags)) =
      some t) :
    ∀ w ∈ pages, ∃ f, walk t.memory (L.pageDir i) w = some f ∧ s.pmm.used f.toNat = false := by
  induction pages generalizing s with
  | nil => exact fun w hw => absurd hw List.not_mem_nil
  | cons w rest ih =>
      rw [List.forall_mem_cons] at hlow
      have hplain := PagingCall.plainFlags_userFlags
      have hsupplied : (PagingCall.mapNewFrame w userFlags).Supplied L s :=
        ⟨⟨SpaceCall.ordinary_low hcr3 hlow.1, hplain.frameOf_eq⟩, hplain, hstocked.1⟩
      obtain ⟨u, D, physAddr, F, hcall, hn⟩ := h.exists_newPage hsupplied
      have hframe := hn.edits.frame
      rw [if_neg (BitVec.not_le.mpr hlow.1), hcr3] at hframe
      obtain rfl : D = .user i := L.frame_injective hframe
      have hu := h.step hsupplied hcall
      have hused : u.pageDirsUsed i = true := by rw [hn.mapped.used]; exact hi
      have hcurrent : u.cr3 = L.pageDir i := hn.cr3_eq.trans hcr3
      have hrest : runSteps (PagingCall.step L) u
          (rest.map (PagingCall.mapNewFrame · userFlags)) = some t := by
        rw [List.map_cons, runSteps_cons, hcall, Option.bind_some] at hrun
        exact hrun
      have hlater := ih hu hused hcurrent hlow.2 (hstocked.2 u hcall) hrest
      have hfree : ∀ f : Frame, u.pmm.used f.toNat = false → s.pmm.used f.toNat = false := by
        intro f hf
        by_contra hmarked
        rw [Bool.not_eq_false] at hmarked
        exact Bool.false_ne_true (hf.symm.trans (hn.marked (Or.inl hmarked)))
      rw [List.forall_mem_cons]
      refine ⟨?_, fun w' hw' => ?_⟩
      · -- The page may be among the rest again.
        by_cases hagain : ∃ w' ∈ rest, w >>> 12 = w' >>> 12
        · obtain ⟨w', hw', hpage⟩ := hagain
          obtain ⟨f, hwalk, hf⟩ := hlater w' hw'
          exact ⟨f, (PagingCall.walk_page hpage).trans hwalk, hfree f hf⟩
        · obtain ⟨t', hrun', hextends⟩ :=
            SpaceCall.extends_lowPages hu hcurrent hlow.2 (hstocked.2 u hcall)
          obtain rfl : t' = t := Option.some.inj (hrun'.symm.trans hrest)
          have hkept := hextends.walk i hused w hlow.1 fun w' hw' hpage =>
            hagain ⟨w', hw', hpage⟩
          exact ⟨_, hkept.trans (hn.walk_self hi hlow.1 hplain), hn.clear.2.2.2⟩
      · obtain ⟨f, hwalk, hf⟩ := hlater w' hw'
        exact ⟨f, hwalk, hfree f hf⟩

/-- Where there are frames, the stack and the heap get frames that were free. -/
theorem renews_thread (h : Orderly L s) (hi : s.pageDirsUsed i = true)
    (hcr3 : s.cr3 = L.pageDir i)
    (hstocked : Admissible (PagingCall.step L) (PagingCall.Stocked L) s (threadCalls b i))
    (hrun : runSteps (PagingCall.step L) s (threadCalls b i) = some t) :
    ∀ w ∈ stackPages ++ heapPages, ∃ f, walk t.memory (L.pageDir i) w = some f ∧
      s.pmm.used f.toNat = false := by
  obtain ⟨s₁, s₂, t', hrun', hstages, -⟩ := SpaceCall.threadStages h hcr3 b hstocked
  obtain rfl := Option.some.inj (hrun'.symm.trans hrun)
  have hused₁ : s₁.pageDirsUsed i = true := by rw [hstages.thread.used]; exact hi
  have hused₂ : s₂.pageDirsUsed i = true := by rw [hstages.pages.used]; exact hused₁
  intro w hw
  have hlow := SpaceCall.low_thread w hw
  obtain ⟨f, hwalk, hf⟩ := renews_lowPages hstages.thread.orderly hused₁
    (hstages.thread.cr3.trans hcr3) SpaceCall.low_thread hstages.stocked hstages.mapping w hw
  refine ⟨f, (hstages.rest.walk i hused₂ w hlow fun w' hw' => ?_).trans hwalk, ?_⟩
  · have hkernel : ∀ k : Kmalloc, w' ∈ k.grown → w >>> 12 ≠ w' >>> 12 := fun k hk =>
      SpaceCall.page_ne_of_kernel hlow (k.kernel w' hk)
    exact (List.mem_append.mp hw').elim (hkernel _) (hkernel _)
  · by_contra hmarked
    rw [Bool.not_eq_false] at hmarked
    exact Bool.false_ne_true (hf.symm.trans (hstages.thread.marks f.toNat hmarked))

/-- The thread and its registers are not at the null pointer. -/
theorem createUserThread_calls (hcall : p.createUserThread L b = some q) (i : Fin 256) :
    ∃ t, runSteps (PagingCall.step L) p.paging (threadCalls b i) = some t ∧
      t.memory = q.paging.memory := by
  obtain ⟨t, hthread, rfl⟩ := Option.map_eq_some_iff.mp hcall
  have haddresses := SpaceCall.createUserThreadOf_some hthread
  refine ⟨t.memChangePageDirectory (L.pageDir i), ?_, rfl⟩
  rw [← SpaceCall.createUserThreadOf_eq_runSteps haddresses, hthread]
  rfl

/-- Every page of the stack and of the heap that was mapped loses its frame. -/
theorem createUserThread_renews (h : Orderly L p.paging) (hi : p.paging.pageDirsUsed i = true)
    (hcr3 : p.paging.cr3 = L.pageDir i)
    (hstocked : Admissible (PagingCall.step L) (PagingCall.Stocked L) p.paging (threadCalls b i))
    (hcall : p.createUserThread L b = some q) {w : Word} (hw : w ∈ stackPages ++ heapPages)
    {f : Frame} (hwalk : walk p.paging.memory (L.pageDir i) w = some f) :
    ∃ g, walk q.paging.memory (L.pageDir i) w = some g ∧ g ≠ f := by
  obtain ⟨t, hrun, hmemory⟩ := createUserThread_calls hcall i
  obtain ⟨g, hnew, hfree⟩ := renews_thread h hi hcr3 hstocked hrun w hw
  refine ⟨g, hmemory ▸ hnew, ?_⟩
  rintro rfl
  have hold : p.paging.frames L (.inr ((.user i, pdIndex w), ptIndex w)) = some g :=
    h.page_of_walk hi (SpaceCall.low_thread w hw) hwalk
  exact Bool.false_ne_true (hfree.symm.trans (h.exclusive.used hold))

/-! ## Threads of a process -/

theorem stacked_run {file : FatFile} {b₀ : ProcessBlocks} {ops : List Op}
    (hcreate : create L s file b₀ = some (i, p)) (hrun : runSteps (step L) p ops = some q) :
    q.Stacked :=
  runSteps_of_mem Stacked (fun _ _ _ _ h hstep => h.step hstep) (stacked_create hcreate) hrun

variable (L) in
/-- There are frames for what is mapped, and threads are made under the directory of the
process. -/
def Op.Supplied (i : Fin 256) (p : UserProcess) : Op → Prop
  | .space call => call.Supplied L p.paging
  | .createUserThread b => p.paging.cr3 = L.pageDir i ∧
      Admissible (PagingCall.step L) (PagingCall.Stocked L) p.paging (threadCalls b i)

theorem orderly_step (h : Orderly L p.paging) {op : Op} (hsupplied : op.Supplied L i p)
    (hstep : p.step L op = some q) : Orderly L q.paging := by
  cases op with
  | space call =>
      obtain ⟨t, hcall, rfl⟩ := Option.map_eq_some_iff.mp hstep
      exact SpaceCall.orderly_step h hsupplied hcall
  | createUserThread b =>
      obtain ⟨t, hthread, rfl⟩ := Option.map_eq_some_iff.mp hstep
      obtain ⟨t', hcreate, hextends⟩ := SpaceCall.extends_createUserThread h hsupplied.1
        (SpaceCall.createUserThreadOf_some hthread) hsupplied.2
      obtain rfl := Option.some.inj (hcreate.symm.trans hthread)
      exact hextends.orderly

theorem orderly_run {ops : List Op} (h : Orderly L p.paging)
    (hops : Admissible (step L) (fun p op => op.Supplied L i p) p ops)
    (hrun : runSteps (step L) p ops = some q) : Orderly L q.paging :=
  runSteps_invariant (fun p => Orderly L p.paging)
    (fun _ _ _ h hsupplied hstep => orderly_step h hsupplied hstep) h hops hrun

/-- Every creation of a further thread disturbs the process: the thread starts in the stacks of
the others, and where there are frames for it, the stack and the heap lose theirs. -/
theorem createUserThread_disturbs {file : FatFile} {b₀ : ProcessBlocks} {ops : List Op}
    (hcreate : create L s file b₀ = some (i, p)) (hrun : runSteps (step L) p ops = some q)
    (hcall : q.createUserThread L b = some r) :
    ¬ Undisturbed L i q r ∧ (Orderly L q.paging → q.paging.pageDirsUsed i = true →
      q.paging.cr3 = L.pageDir i →
      Admissible (PagingCall.step L) (PagingCall.Stocked L) q.paging (threadCalls b i) →
      ∀ w ∈ stackPages ++ heapPages, ∀ f, walk q.paging.memory (L.pageDir i) w = some f →
        ∃ g, walk r.paging.memory (L.pageDir i) w = some g ∧ g ≠ f) := by
  constructor
  · exact fun h => (stacked_run hcreate hrun).not_stackApart hcall h.2
  · intro horderly hi hcr3 hstocked w hw f hwalk
    exact createUserThread_renews horderly hi hcr3 hstocked hcall hw hwalk

/-! ## Two threads on a machine of 128 MiB -/

open SpaceCall (exampleBoot exampleBlocks)

/-- The pages of a small program and of two threads fit into the memory. -/
theorem stocked_twoThreads :
    Admissible (SpaceCall.step PagingCall.exampleLayout)
      (SpaceCall.Stocked PagingCall.exampleLayout) exampleBoot
      (processCalls (FatFile.ofBytes [0x90, 0xC3]) exampleBlocks 0 ++
        (threadCalls exampleBlocks 0).map .paging) := by
  have hroomy := (PagingCall.initRound_initDirectories PagingCall.behind_exampleLayout
    (fun _ _ => 0) 0x8000000).roomy
  refine SpaceCall.stocked_of_creates (by decide) (by decide) hroomy ?_ ?_
  · exact List.forall_mem_append.mpr
      ⟨SpaceCall.creates_processCalls _ _ _, SpaceCall.creates_threadCalls _ _⟩
  · have hstart : (Pmm.init 0x1000000 0x8000000).startByte = 512 := by decide
    have hstop : (Pmm.init 0x1000000 0x8000000).endByte = 4096 := by decide
    rw [List.map_append, List.sum_append, SpaceCall.frames_processCalls,
      SpaceCall.frames_threadCalls, SpaceCall.length_allPages, SpaceCall.length_laterPages,
      SpaceCall.ofBytes_programPages, SpaceCall.length_pageRange,
      SpaceCall.ofBytes_pagesNeeded (by decide), List.length_cons, List.length_singleton]
    omega

theorem exists_twoThreads :
    ∃ p q,
      create PagingCall.exampleLayout exampleBoot (FatFile.ofBytes [0x90, 0xC3]) exampleBlocks =
        some (0, p) ∧
      p.paging.cr3 = PagingCall.exampleLayout.pageDir 0 ∧
      p.createUserThread PagingCall.exampleLayout exampleBlocks = some q := by
  have horderly := PagingCall.orderly_initDirectories PagingCall.behind_exampleLayout
    (fun _ _ => 0) 0x8000000
  have hstocked := stocked_twoThreads
  obtain ⟨s₁, s₂, s₃, t, hcreate, hcreated⟩ :=
    SpaceCall.exists_created horderly (by decide) (by decide) hstocked.of_append
  have hcurrent : t.cr3 = PagingCall.exampleLayout.pageDir 0 :=
    (hcreated.thread.cr3.trans hcreated.copied.cr3).trans
      (hcreated.program.cr3.trans hcreated.fresh.cr3)
  have hdir : ∀ u, exampleBoot.kmalloc PagingCall.exampleLayout exampleBlocks.process = some u →
      (u.memAllocPageDir PagingCall.exampleLayout).1 = some 0 := by
    intro u hu
    obtain rfl := Option.some.inj hu
    decide
  have hcalls := (SpaceCall.createUserProcessOf_eq_runSteps (by decide) hdir).symm.trans hcreate
  obtain ⟨t', hrun, heq⟩ := Option.map_eq_some_iff.mp hcalls
  obtain rfl := (Prod.mk.inj heq).2
  have hrest := SpaceCall.admissible_paging.mp (hstocked.after hrun)
  obtain ⟨r, hthread, -⟩ := SpaceCall.extends_createUserThread hcreated.thread.orderly hcurrent
    (by decide) hrest
  exact ⟨⟨t', [newThread]⟩, ⟨r, [newThread, newThread]⟩, congrArg (Option.map _) hcreate, hcurrent,
    congrArg (Option.map _) hthread⟩

theorem createUserThread_disturbs_small :
    ∃ p q,
      create PagingCall.exampleLayout exampleBoot (FatFile.ofBytes [0x90, 0xC3]) exampleBlocks =
        some (0, p) ∧
      p.createUserThread PagingCall.exampleLayout exampleBlocks = some q ∧
      ¬ Undisturbed PagingCall.exampleLayout 0 p q := by
  obtain ⟨p, q, hcreate, -, hcall⟩ := exists_twoThreads
  have hnone : runSteps (step PagingCall.exampleLayout) p [] = some p := rfl
  exact ⟨p, q, hcreate, hcall, (createUserThread_disturbs hcreate hnone hcall).1⟩

/-- The second thread of a process disturbs the first. -/
theorem not_undisturbed :
    ¬ ∀ (L : Layout) (s : Paging) (file : FatFile) (b₀ b : ProcessBlocks) (i : Fin 256)
      (p q r : UserProcess) (ops : List Op), create L s file b₀ = some (i, p) →
      runSteps (step L) p ops = some q → q.paging.cr3 = L.pageDir i →
      q.createUserThread L b = some r → Undisturbed L i q r := by
  intro hundisturbed
  obtain ⟨p, q, hcreate, hcurrent, hcall⟩ := exists_twoThreads
  have hapart := hundisturbed PagingCall.exampleLayout exampleBoot (FatFile.ofBytes [0x90, 0xC3])
    exampleBlocks exampleBlocks 0 p p q [] hcreate rfl hcurrent hcall
  exact (stacked_create hcreate).not_stackApart hcall hapart.2

end UserProcess

end Senob.Memory
