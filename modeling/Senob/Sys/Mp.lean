import Mathlib.Data.List.Induction
import Mathlib.Data.List.TakeWhile
import Senob.Sys.Sched

/-!
# Discovery and start of the processors

`mp.c`, `smp.c` and what they mean for the scheduler. A CPU calls itself by its local APIC
id: `apicTimerHandler` passes it to `schedule`, and `initializeAP` picks the task state
segment by it. `mpSearch` counts table entries, `smpInit` sends startup IPIs to loop indices
and `leastLoadedCPU` returns an index below `ncpus`.
-/

namespace Senob.Sys

abbrev Byte := BitVec 8

/-! ## The MP configuration table -/

/-- The fields of `struct entryProcessor` that are read. -/
structure EntryProcessor where
  localAPICID : Byte
  localAPICVersion : Byte
  flags : Byte
  deriving DecidableEq

namespace EntryProcessor

/-- Bit 0 of the flags; without it the CPU must be ignored. -/
def Enabled (p : EntryProcessor) : Prop := p.flags &&& 1 ≠ 0

/-- Bit 1 of the flags marks the bootstrap processor. -/
def IsBSP (p : EntryProcessor) : Prop := p.flags &&& 2 ≠ 0

instance : DecidablePred Enabled := fun p => inferInstanceAs (Decidable (p.flags &&& 1 ≠ 0))

instance : DecidablePred IsBSP := fun p => inferInstanceAs (Decidable (p.flags &&& 2 ≠ 0))

/-- The index that this CPU uses for everything that there is one of for each CPU:
`get_local_apic_id_cpuid`. -/
def cpu (p : EntryProcessor) : Nat := p.localAPICID.toNat

end EntryProcessor

/-- A table in memory: the address behind the header, and `entryCount`. -/
structure MpConfigurationTable where
  memory : Nat → Byte
  entries : Nat
  entryCount : BitVec 16

/-- The fields of `struct cpu` that are set. -/
structure Cpu where
  id : Word
  isBSP : Word
  lapicVersion : Word

/-- `cpus` and `ncpus`. -/
structure MpState where
  cpus : Nat → Cpu
  ncpus : Nat

def MpState.initial : MpState := ⟨fun _ => ⟨0, 0, 0⟩, 0⟩

/-- The processor entry at an address. -/
def processorAt (memory : Nat → Byte) (entryPtr : Nat) : EntryProcessor :=
  ⟨memory (entryPtr + 1), memory (entryPtr + 2), memory (entryPtr + 3)⟩

/-- The case of a processor entry in `mpSearch`. -/
def MpState.addProcessor (s : MpState) (p : EntryProcessor) : MpState :=
  if s.ncpus < maxCpus then
    ⟨Function.update s.cpus s.ncpus
      ⟨p.localAPICID.setWidth 32, (p.flags &&& 0x02).setWidth 32,
        p.localAPICVersion.setWidth 32⟩, s.ncpus + 1⟩
  else s

/-- The loop of `mpSearch`. All entries but those of processors have 8 bytes. -/
def mpSearchLoop (memory : Nat → Byte) : Nat → Nat → MpState → MpState
  | 0, _, s => s
  | entries + 1, entryPtr, s =>
      if memory entryPtr = 0 then
        mpSearchLoop memory entries (entryPtr + 20) (s.addProcessor (processorAt memory entryPtr))
      else mpSearchLoop memory entries (entryPtr + 8) s

def mpSearch (table : MpConfigurationTable) (s : MpState) : MpState :=
  mpSearchLoop table.memory table.entryCount.toNat table.entries { s with ncpus := 0 }

/-- An interprocessor interrupt, with its target. -/
inductive Ipi where
  | init (apicID : Nat)
  | startup (apicID page : Nat)
  deriving DecidableEq

/-- `apStartup`: one INIT and two startup IPIs. -/
def apStartup (apicID trampolineAddr : Nat) : List Ipi :=
  [.init apicID, .startup apicID (trampolineAddr / 2 ^ 12),
    .startup apicID (trampolineAddr / 2 ^ 12)]

/-- The loop of `smpInit`, which gives up behind index 8. -/
def smpInit (s : MpState) : List Ipi :=
  (((List.range s.ncpus).drop 1).takeWhile fun i => i ≤ 8).flatMap fun i => apStartup i 0x7000

/-! ## What the table says -/

/-- The processor entries from an address on. -/
def processorEntries (memory : Nat → Byte) : Nat → Nat → List EntryProcessor
  | 0, _ => []
  | entries + 1, entryPtr =>
      if memory entryPtr = 0 then
        processorAt memory entryPtr :: processorEntries memory entries (entryPtr + 20)
      else processorEntries memory entries (entryPtr + 8)

namespace MpConfigurationTable

variable (table : MpConfigurationTable)

def processors : List EntryProcessor :=
  processorEntries table.memory table.entryCount.toNat table.entries

/-- The processors that exist. -/
def enabled : List EntryProcessor := table.processors.filter fun p => p.Enabled

/-- Up to `MAX_CPUS` processors with different ids, one of which runs the boot code. -/
structure Lists (bsp : EntryProcessor) : Prop where
  count : table.enabled.length ≤ maxCpus
  distinct : (table.enabled.map EntryProcessor.cpu).Nodup
  bootstrap : table.enabled.filter (fun p => p.IsBSP) = [bsp]

/-- The state after `mpInit`. -/
def discovered (s : MpState) : MpState := mpSearch table s

/-- The processor receives a startup IPI. -/
def Signalled (s : MpState) (cpu : Nat) : Prop :=
  ∃ page, .startup cpu page ∈ smpInit (table.discovered s)

/-- The index of a processor that runs once `smpInit` is done. -/
def Started (s : MpState) (cpu : Nat) : Prop :=
  ∃ p ∈ table.enabled, p.cpu = cpu ∧ (p.IsBSP ∨ table.Signalled s cpu)

/-- The queues that `leastLoadedCPU` can return, whatever the load. -/
def Chosen (s : MpState) (cpu : Nat) : Prop :=
  ∃ k : Kernel, k.ncpus = (table.discovered s).ncpus ∧ k.leastLoadedCPU = cpu

/-- All parts of the kernel mean the same by the number of a CPU. -/
structure Agrees (s : MpState) : Prop where
  bounded : ∀ cpu, table.Started s cpu → cpu < maxCpus
  drained : ∀ cpu, table.Chosen s cpu ↔ table.Started s cpu
  signalled : ∀ cpu, table.Signalled s cpu ↔ ∃ p ∈ table.enabled, ¬ p.IsBSP ∧ p.cpu = cpu

end MpConfigurationTable

/-! ## The number of CPUs -/

theorem MpState.addProcessor_ncpus (s : MpState) (p : EntryProcessor) (h : s.ncpus ≤ maxCpus) :
    (s.addProcessor p).ncpus = min maxCpus (s.ncpus + 1) := by
  unfold addProcessor
  split
  next hroom => exact (Nat.min_eq_right hroom).symm
  next hfull => omega

theorem mpSearchLoop_ncpus (memory : Nat → Byte) (entries entryPtr : Nat) (s : MpState)
    (h : s.ncpus ≤ maxCpus) :
    (mpSearchLoop memory entries entryPtr s).ncpus =
      min maxCpus (s.ncpus + (processorEntries memory entries entryPtr).length) := by
  induction entries generalizing entryPtr s with
  | zero => exact (Nat.min_eq_right h).symm
  | succ entries ih =>
      unfold mpSearchLoop processorEntries
      split
      next _ =>
        have hadd := s.addProcessor_ncpus (processorAt memory entryPtr) h
        rw [ih (entryPtr + 20) (s.addProcessor (processorAt memory entryPtr)) (by omega), hadd,
          List.length_cons]
        omega
      next _ => exact ih (entryPtr + 8) s h

theorem discovered_ncpus (table : MpConfigurationTable) (s : MpState) :
    (table.discovered s).ncpus = min maxCpus table.processors.length := by
  have hloop := mpSearchLoop_ncpus table.memory table.entryCount.toNat table.entries
    { s with ncpus := 0 } (Nat.zero_le _)
  simpa [MpConfigurationTable.discovered, mpSearch, MpConfigurationTable.processors] using hloop

/-- The startup IPIs go to the indices from 1 on. -/
theorem startup_mem_smpInit {s : MpState} (h : s.ncpus ≤ maxCpus) (cpu : Nat) :
    (∃ page, .startup cpu page ∈ smpInit s) ↔ 0 < cpu ∧ cpu < s.ncpus := by
  have hall : ((List.range s.ncpus).drop 1).takeWhile (fun i => decide (i ≤ 8)) =
      (List.range s.ncpus).drop 1 := by
    refine List.takeWhile_eq_self_iff.mpr fun i hi => ?_
    have hlt := List.mem_range.mp (List.mem_of_mem_drop hi)
    exact decide_eq_true (by unfold maxCpus at h; omega)
  have hdrop : cpu ∈ (List.range s.ncpus).drop 1 ↔ 0 < cpu ∧ cpu < s.ncpus := by
    rw [List.range_eq_range', List.drop_range', List.mem_range'_1]
    omega
  unfold smpInit
  rw [hall, ← hdrop]
  simp only [List.mem_flatMap, apStartup, List.mem_cons, Ipi.startup.injEq, reduceCtorEq,
    List.not_mem_nil, or_false, false_or, or_self]
  constructor
  · rintro ⟨page, i, hi, rfl, -⟩
    exact hi
  · intro hcpu
    exact ⟨_, cpu, hcpu, rfl, rfl⟩

/-! ## The least loaded CPU -/

/-- The search keeps an index seen so far whose load is the least. -/
theorem leastLoaded_foldl (loads : Nat → Word) (seen : List Nat) :
    let found := seen.foldl (fun (min, idx) i => if loads i < min then (loads i, i)
      else (min, idx)) (loads 0, 0)
    found.1 = loads found.2 ∧ found.2 ∈ 0 :: seen ∧ ∀ i ∈ seen, loads found.2 ≤ loads i := by
  induction seen using List.reverseRecOn with
  | nil => simp
  | append_singleton seen i ih =>
      rw [List.foldl_append]
      generalize seen.foldl _ _ = found at ih ⊢
      obtain ⟨hload, hmem, hleast⟩ := ih
      simp only [List.foldl_cons, List.foldl_nil]
      split
      next hless =>
        refine ⟨rfl, by simp, fun j hj => ?_⟩
        rw [hload] at hless
        rcases List.mem_append.mp hj with hj | hj
        · exact BitVec.le_trans (BitVec.le_of_lt hless) (hleast j hj)
        · exact List.mem_singleton.mp hj ▸ BitVec.le_refl _
      next hmore =>
        refine ⟨hload, by simp only [List.mem_cons, List.mem_append] at hmem ⊢; tauto,
          fun j hj => ?_⟩
        rcases List.mem_append.mp hj with hj | hj
        · exact hleast j hj
        · rw [List.mem_singleton.mp hj]
          exact hload ▸ BitVec.not_lt.mp hmore

namespace Kernel

variable (k : Kernel)

theorem leastLoadedCPU_lt (h : 0 < k.ncpus) : k.leastLoadedCPU < k.ncpus := by
  obtain ⟨-, hmem, -⟩ := leastLoaded_foldl k.threadsPerCPU (List.range k.ncpus)
  rcases List.mem_cons.mp hmem with hzero | hmem
  · have hidx : k.leastLoadedCPU = 0 := hzero
    rw [hidx]
    exact h
  · exact List.mem_range.mp hmem

theorem leastLoadedCPU_le {i : Nat} (h : i < k.ncpus) :
    k.threadsPerCPU k.leastLoadedCPU ≤ k.threadsPerCPU i :=
  (leastLoaded_foldl k.threadsPerCPU (List.range k.ncpus)).2.2 i (List.mem_range.mpr h)

end Kernel

/-- Every CPU that was counted is chosen under some load, and no other one. -/
theorem chosen_iff {table : MpConfigurationTable} (s : MpState) (h : table.processors ≠ [])
    (cpu : Nat) : table.Chosen s cpu ↔ cpu < (table.discovered s).ncpus := by
  have hncpus := discovered_ncpus table s
  have hlength : 0 < table.processors.length := List.length_pos_iff.mpr h
  have hmax : 0 < maxCpus := by decide
  constructor
  · rintro ⟨k, hk, rfl⟩
    rw [← hk]
    exact k.leastLoadedCPU_lt (by omega)
  · intro hcpu
    -- Every CPU but this one has a thread.
    let k : Kernel := { Kernel.initial with
      ncpus := (table.discovered s).ncpus, ncpus_le := by omega,
      threadsPerCPU := fun i => if i = cpu then 0 else 1 }
    refine ⟨k, rfl, ?_⟩
    have hle := k.leastLoadedCPU_le (i := cpu) hcpu
    by_contra hne
    have hload : k.threadsPerCPU k.leastLoadedCPU = 1 := if_neg hne
    have hfree : k.threadsPerCPU cpu = 0 := if_pos rfl
    rw [hload, hfree] at hle
    exact absurd hle (by decide)

/-! ## Agreement -/

namespace MpConfigurationTable

variable {table : MpConfigurationTable} {bsp : EntryProcessor}

theorem Lists.bsp_mem (h : table.Lists bsp) : bsp ∈ table.enabled ∧ bsp.IsBSP := by
  have hmem : bsp ∈ table.enabled.filter (fun p => p.IsBSP) := by simp [h.bootstrap]
  simpa using List.mem_filter.mp hmem

/-- Whoever has the id of the bootstrap processor is it. -/
theorem Lists.eq_bsp (h : table.Lists bsp) {p : EntryProcessor} (hp : p ∈ table.enabled)
    (hbsp : p.IsBSP) : p = bsp := by
  have hmem : p ∈ table.enabled.filter (fun p => p.IsBSP) :=
    List.mem_filter.mpr ⟨hp, by simpa using hbsp⟩
  rw [h.bootstrap] at hmem
  exact List.mem_singleton.mp hmem

theorem Lists.cpu_inj (h : table.Lists bsp) {p q : EntryProcessor} (hp : p ∈ table.enabled)
    (hq : q ∈ table.enabled) (hcpu : p.cpu = q.cpu) : p = q :=
  List.inj_on_of_nodup_map h.distinct hp hq hcpu

/-- The numbers agree exactly when the bootstrap processor has id 0 and the processors have
the ids below the number that `mpSearch` counts. -/
theorem agrees_iff (s : MpState) (h : table.Lists bsp) :
    table.Agrees s ↔ bsp.cpu = 0 ∧
      ∀ cpu, (∃ p ∈ table.enabled, p.cpu = cpu) ↔ cpu < min maxCpus table.processors.length := by
  obtain ⟨hmem, hbsp⟩ := h.bsp_mem
  have hprocessors : table.processors ≠ [] :=
    List.ne_nil_of_mem (List.mem_of_mem_filter hmem)
  have hncpus := discovered_ncpus table s
  have hsignal : ∀ cpu, table.Signalled s cpu ↔ 0 < cpu ∧ cpu < (table.discovered s).ncpus :=
    startup_mem_smpInit (by omega)
  have hlength : 0 < table.processors.length := List.length_pos_iff.mpr hprocessors
  have hmax : 0 < maxCpus := by decide
  rw [← hncpus]
  constructor
  · intro hagrees
    have hothers : ∀ p ∈ table.enabled, ¬ p.IsBSP → 0 < p.cpu ∧
        p.cpu < (table.discovered s).ncpus := by
      intro p hp hap
      exact (hsignal p.cpu).mp ((hagrees.signalled p.cpu).mpr ⟨p, hp, hap, rfl⟩)
    -- CPU 0 drains a queue, and the signals go to the others only.
    have hzero : bsp.cpu = 0 := by
      obtain ⟨p, hp, hcpu, -⟩ := (hagrees.drained 0).mp ((chosen_iff s hprocessors 0).mpr
        (by omega))
      by_cases hp_bsp : p.IsBSP
      · rwa [← h.eq_bsp hp hp_bsp]
      · exact absurd hcpu (Nat.pos_iff_ne_zero.mp (hothers p hp hp_bsp).1)
    refine ⟨hzero, fun cpu => ⟨?_, fun hcpu => ?_⟩⟩
    · rintro ⟨p, hp, rfl⟩
      by_cases hp_bsp : p.IsBSP
      · rw [h.eq_bsp hp hp_bsp, hzero]
        omega
      · exact (hothers p hp hp_bsp).2
    · obtain ⟨p, hp, hpcpu, -⟩ :=
        (hagrees.drained cpu).mp ((chosen_iff s hprocessors cpu).mpr hcpu)
      exact ⟨p, hp, hpcpu⟩
  · rintro ⟨hzero, hids⟩
    -- Every number below the count is the id of a processor that runs.
    have hstarted : ∀ cpu, table.Started s cpu ↔ cpu < (table.discovered s).ncpus := by
      intro cpu
      constructor
      · rintro ⟨p, hp, rfl, -⟩
        exact (hids p.cpu).mp ⟨p, hp, rfl⟩
      · intro hcpu
        obtain ⟨p, hp, rfl⟩ := (hids cpu).mpr hcpu
        by_cases hp_bsp : p.IsBSP
        · exact ⟨p, hp, rfl, Or.inl hp_bsp⟩
        · have hpos : p.cpu ≠ 0 := fun hp_zero =>
            hp_bsp (h.cpu_inj hp hmem (hp_zero.trans hzero.symm) ▸ hbsp)
          exact ⟨p, hp, rfl, Or.inr ((hsignal p.cpu).mpr ⟨Nat.pos_of_ne_zero hpos, hcpu⟩)⟩
    refine ⟨fun cpu hcpu => ?_, fun cpu => ?_, fun cpu => ?_⟩
    · have hlt := (hstarted cpu).mp hcpu
      omega
    · exact (chosen_iff s hprocessors cpu).trans (hstarted cpu).symm
    · rw [hsignal cpu]
      constructor
      · rintro ⟨hpos, hcpu⟩
        obtain ⟨p, hp, rfl⟩ := (hids cpu).mpr hcpu
        refine ⟨p, hp, fun hp_bsp => ?_, rfl⟩
        rw [h.eq_bsp hp hp_bsp, hzero] at hpos
        exact Nat.lt_irrefl 0 hpos
      · rintro ⟨p, hp, hap, rfl⟩
        refine ⟨Nat.pos_of_ne_zero fun hp_zero => hap ?_, (hids p.cpu).mp ⟨p, hp, rfl⟩⟩
        exact h.cpu_inj hp hmem (hp_zero.trans hzero.symm) ▸ hbsp

/-- A table with the bootstrap processor, which has id 0, and one more processor. -/
def twoProcessors (apicID : Byte) : MpConfigurationTable :=
  ⟨fun a => ([0, 0, 0x14, 3] ++ List.replicate 16 0 ++ [0, apicID, 0x14, 1]).getD a 0, 0, 2⟩

/-- With ids 0 and 1 the numbers agree, as on the machine that the kernel is run on. -/
theorem agrees_contiguous :
    (twoProcessors 1).Agrees .initial ↔ EntryProcessor.cpu ⟨0, 0x14, 3⟩ = 0 ∧
      ∀ cpu, (∃ p ∈ (twoProcessors 1).enabled, p.cpu = cpu) ↔
        cpu < min maxCpus (twoProcessors 1).processors.length :=
  agrees_iff .initial ⟨by decide, by decide, by decide⟩

/-- With ids 0 and 2 the startup IPIs go to a processor that is not there. -/
theorem not_agrees_sparse :
    ¬ ∀ (table : MpConfigurationTable) (bsp : EntryProcessor) (s : MpState),
      table.Lists bsp → table.Agrees s := by
  intro hclaim
  have hagrees :=
    hclaim (twoProcessors 2) ⟨0, 0x14, 3⟩ .initial ⟨by decide, by decide, by decide⟩
  have hsignal := (hagrees.signalled 2).mpr ⟨⟨2, 0x14, 1⟩, by decide, by decide, by decide⟩
  have hcounted := (startup_mem_smpInit (by decide) 2).mp hsignal
  exact absurd hcounted (by decide)

end MpConfigurationTable

end Senob.Sys
