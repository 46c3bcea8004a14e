import Mathlib.Data.List.Pairwise
import Senob.Foundation.Run

/-!
# The program break

System call 4 of `syscalls.c`. The break is one static variable of the kernel, although
`createUserThread` maps a heap window into every process. A log records what each caller is
answered, so that the answers of one process can be compared with those it gets alone.
-/

namespace Senob.Syscalls

open Foundation

/-- `ALIGN_UP`. -/
def alignUp (x align : BitVec 32) : BitVec 32 := (x + (align - 1)) &&& ~~~(align - 1)

/-- `heap_limit`. -/
def heapLimit : BitVec 32 := 0x01800000

/-- The value that `heap_end` is initialised with. -/
def initialHeapEnd : BitVec 32 := 0x00800000

/-- What `syscall_4_sbrk` leaves in `eax` and in `heap_end`. -/
structure SbrkResult where
  eax : BitVec 32
  heapEnd : BitVec 32

/-- `syscall_4_sbrk`, with the increment from `ebx`. -/
def syscall4Sbrk (heapEnd increment : BitVec 32) : SbrkResult :=
  let newHeapEnd := alignUp (heapEnd + increment) 0x1000
  if newHeapEnd > heapLimit then ⟨-1, heapEnd⟩ else ⟨heapEnd, newHeapEnd⟩

/-- The pages that `createUserThread` maps for the heap of a process, 4096 from
`0x00800000` on. -/
def heapWindowStart : BitVec 32 := 0x00800000

def heapWindowEnd : BitVec 32 := heapWindowStart + 4096 * 0x1000

section Processes

variable {P : Type*}

/-- A call of `sbrk` by a process. -/
structure SbrkCall (P : Type*) where
  process : P
  increment : BitVec 32

/-- What the kernel answers, and where the break is then. -/
structure SbrkAnswer (P : Type*) where
  process : P
  result : BitVec 32
  heapEnd : BitVec 32

namespace SbrkAnswer

/-- The call did not fail. -/
def Successful (answer : SbrkAnswer P) : Prop := answer.result ≠ -1

/-- The caller may use the byte from now on. -/
def Gives (answer : SbrkAnswer P) (a : BitVec 32) : Prop :=
  answer.Successful ∧ answer.result ≤ a ∧ a < answer.heapEnd

/-- The result and all bytes that are given belong to the heap window. -/
def InWindow (answer : SbrkAnswer P) : Prop :=
  answer.Successful →
    (heapWindowStart ≤ answer.result ∧ answer.result ≤ heapWindowEnd) ∧
      ∀ a, answer.Gives a → heapWindowStart ≤ a ∧ a < heapWindowEnd

/-- A later answer neither points to nor gives a byte that this one gave. -/
def Apart (earlier later : SbrkAnswer P) : Prop :=
  later.Successful → ¬ earlier.Gives later.result ∧ ∀ a, later.Gives a → ¬ earlier.Gives a

end SbrkAnswer

namespace SbrkSession

def answer (heapEnd : BitVec 32) (call : SbrkCall P) : SbrkAnswer P :=
  let result := syscall4Sbrk heapEnd call.increment
  ⟨call.process, result.eax, result.heapEnd⟩

/-- The answers to a list of calls, in their order. -/
def log (heapEnd : BitVec 32) : List (SbrkCall P) → List (SbrkAnswer P)
  | [] => []
  | call :: rest => answer heapEnd call :: log (answer heapEnd call).heapEnd rest

/-- The break as the state of a run. -/
def step (heapEnd : BitVec 32) (call : SbrkCall P) : Option (BitVec 32) :=
  some (answer heapEnd call).heapEnd

variable [DecidableEq P]

/-- The answers that one process receives. -/
def received (process : P) (calls : List (SbrkCall P)) : List (SbrkAnswer P) :=
  (log initialHeapEnd calls).filter fun answer => answer.process = process

/-- The calls of one process alone. -/
def alone (process : P) (calls : List (SbrkCall P)) : List (SbrkCall P) :=
  calls.filter fun call => call.process = process

/-- The heap of the process does not depend on the others: it gets the results of the run
in which only it calls, inside its window and never twice the same memory. -/
def Independent (process : P) (calls : List (SbrkCall P)) : Prop :=
  (received process calls).map SbrkAnswer.result =
      (received process (alone process calls)).map SbrkAnswer.result ∧
    (∀ answer ∈ received process calls, answer.InWindow) ∧
      (received process calls).Pairwise SbrkAnswer.Apart

/-- The call asks for more than the limit allows, or it does not lower the break and asks
for another one only if it is a call of that process. -/
def Orderly (process : P) (heapEnd : BitVec 32) (call : SbrkCall P) : Prop :=
  let newHeapEnd := alignUp (heapEnd + call.increment) 0x1000
  newHeapEnd > heapLimit ∨
    if call.process = process then heapEnd ≤ newHeapEnd else newHeapEnd = heapEnd

instance (process : P) (heapEnd : BitVec 32) (call : SbrkCall P) :
    Decidable (Orderly process heapEnd call) := by
  unfold Orderly
  infer_instance

/-! ## One call -/

omit [DecidableEq P] in
@[simp] theorem answer_process (heapEnd : BitVec 32) (call : SbrkCall P) :
    (answer heapEnd call).process = call.process := rfl

omit [DecidableEq P] in
/-- A call fails and keeps the break, or returns the old break and stays below the limit. -/
theorem answer_cases (heapEnd : BitVec 32) (call : SbrkCall P) :
    ((answer heapEnd call).result = -1 ∧ (answer heapEnd call).heapEnd = heapEnd) ∨
      ((answer heapEnd call).result = heapEnd ∧ (answer heapEnd call).heapEnd ≤ heapLimit) := by
  unfold answer syscall4Sbrk
  dsimp only
  split
  next _ => exact Or.inl ⟨rfl, rfl⟩
  next hlimit => exact Or.inr ⟨rfl, BitVec.not_lt.mp hlimit⟩

omit [DecidableEq P] in
theorem answer_result {heapEnd : BitVec 32} {call : SbrkCall P}
    (h : (answer heapEnd call).Successful) : (answer heapEnd call).result = heapEnd := by
  rcases answer_cases heapEnd call with hfail | hgrant
  · exact absurd hfail.1 h
  · exact hgrant.1

omit [DecidableEq P] in
/-- The break stays at or below the limit. -/
theorem answer_le_limit {heapEnd : BitVec 32} (hlimit : heapEnd ≤ heapLimit)
    (call : SbrkCall P) : (answer heapEnd call).heapEnd ≤ heapLimit := by
  rcases answer_cases heapEnd call with hfail | hgrant
  · rw [hfail.2]
    exact hlimit
  · exact hgrant.2

theorem Orderly.kept {process : P} {heapEnd : BitVec 32} {call : SbrkCall P}
    (h : Orderly process heapEnd call) (hprocess : call.process ≠ process) :
    (answer heapEnd call).heapEnd = heapEnd := by
  unfold answer syscall4Sbrk
  dsimp only
  rcases h with hrefused | horderly
  · rw [if_pos hrefused]
  · rw [if_neg hprocess] at horderly
    split
    next _ => rfl
    next _ => exact horderly

theorem Orderly.le {process : P} {heapEnd : BitVec 32} {call : SbrkCall P}
    (h : Orderly process heapEnd call) : heapEnd ≤ (answer heapEnd call).heapEnd := by
  by_cases hprocess : call.process = process
  · unfold answer syscall4Sbrk
    dsimp only
    rcases h with hrefused | horderly
    · rw [if_pos hrefused]
      exact BitVec.le_refl _
    · rw [if_pos hprocess] at horderly
      split
      next _ => exact BitVec.le_refl _
      next _ => exact horderly
  · rw [h.kept hprocess]
    exact BitVec.le_refl _

/-! ## All calls -/

/-- Calls of the others change nothing for the process. -/
theorem log_alone {process : P} {heapEnd : BitVec 32} {calls : List (SbrkCall P)}
    (horderly : Admissible step (Orderly process) heapEnd calls) :
    (log heapEnd calls).filter (fun answer => answer.process = process) =
      log heapEnd (alone process calls) := by
  induction calls generalizing heapEnd with
  | nil => rfl
  | cons call rest ih =>
      have hrest := ih (horderly.2 _ rfl)
      by_cases hprocess : call.process = process
      · simp only [log, alone, List.filter_cons, answer_process, hprocess, decide_true, if_true]
        rw [hrest]
        rfl
      · have hkept := horderly.1.kept hprocess
        rw [hkept] at hrest
        simpa only [log, alone, List.filter_cons, answer_process, hprocess, hkept, decide_false,
          Bool.false_eq_true, if_false] using hrest

omit [DecidableEq P] in
theorem log_process_mem {process : P} {heapEnd : BitVec 32} {calls : List (SbrkCall P)}
    (hcalls : ∀ call ∈ calls, call.process = process) :
    ∀ answer ∈ log heapEnd calls, answer.process = process := by
  induction calls generalizing heapEnd with
  | nil => simp [log]
  | cons call rest ih =>
      intro given hgiven
      rcases List.mem_cons.mp hgiven with rfl | hgiven
      · exact hcalls call (by simp)
      · exact ih (fun later hlater => hcalls later (by simp [hlater])) given hgiven

/-- What is answered from some break on lies between it and the limit. -/
theorem log_bounds {process : P} {heapEnd : BitVec 32} {calls : List (SbrkCall P)}
    (hlimit : heapEnd ≤ heapLimit)
    (horderly : Admissible step (Orderly process) heapEnd calls) :
    ∀ given ∈ log heapEnd calls, given.heapEnd ≤ heapLimit ∧
      (given.Successful → heapEnd ≤ given.result ∧ given.result ≤ heapLimit) := by
  induction calls generalizing heapEnd with
  | nil => simp [log]
  | cons call rest ih =>
      intro given hgiven
      rcases List.mem_cons.mp hgiven with rfl | hgiven
      · refine ⟨answer_le_limit hlimit call, fun hsuccess => ?_⟩
        rw [answer_result hsuccess]
        exact ⟨BitVec.le_refl _, hlimit⟩
      · obtain ⟨hend, hresult⟩ :=
          ih (answer_le_limit hlimit call) (horderly.2 _ rfl) given hgiven
        refine ⟨hend, fun hsuccess => ?_⟩
        exact ⟨BitVec.le_trans horderly.1.le (hresult hsuccess).1, (hresult hsuccess).2⟩

theorem log_pairwise {process : P} {heapEnd : BitVec 32} {calls : List (SbrkCall P)}
    (hlimit : heapEnd ≤ heapLimit)
    (horderly : Admissible step (Orderly process) heapEnd calls) :
    (log heapEnd calls).Pairwise SbrkAnswer.Apart := by
  induction calls generalizing heapEnd with
  | nil => exact List.Pairwise.nil
  | cons call rest ih =>
      have hnext := answer_le_limit hlimit call
      refine List.Pairwise.cons ?_ (ih hnext (horderly.2 _ rfl))
      -- Everything given later starts at the break that this call leaves.
      intro later hlater hsuccess
      have habove := ((log_bounds hnext (horderly.2 _ rfl) later hlater).2 hsuccess).1
      refine ⟨fun hgives => ?_, fun a hlate hgives => ?_⟩
      · exact absurd habove (BitVec.not_le.mpr hgives.2.2)
      · exact absurd (BitVec.le_trans habove hlate.2.1) (BitVec.not_le.mpr hgives.2.2)

/-- In every run in which no call lowers the break and only calls of the process move it,
its heap is its own. -/
theorem always_independent {process : P} {calls : List (SbrkCall P)}
    (horderly : Admissible step (Orderly process) initialHeapEnd calls) :
    Independent process calls := by
  have hlimit : initialHeapEnd ≤ heapLimit := by decide
  have hown : ∀ call ∈ alone process calls, call.process = process := by
    intro call hcall
    simpa using (List.mem_filter.mp hcall).2
  refine ⟨?_, ?_, ?_⟩
  · unfold received
    rw [log_alone horderly]
    congr 1
    refine (List.filter_eq_self.mpr fun given hgiven => ?_).symm
    simpa using log_process_mem hown given hgiven
  · intro given hgiven hsuccess
    obtain ⟨hend, hresult⟩ := log_bounds hlimit horderly given (List.mem_filter.mp hgiven).1
    have hwindow : heapWindowEnd = heapLimit := by decide
    rw [hwindow]
    refine ⟨hresult hsuccess, fun a ha => ?_⟩
    have habove : initialHeapEnd ≤ a := BitVec.le_trans (hresult hsuccess).1 ha.2.1
    have hbelow : a.toNat < heapLimit.toNat :=
      Nat.lt_of_lt_of_le (BitVec.lt_def.mp ha.2.2) (BitVec.le_def.mp hend)
    exact ⟨habove, BitVec.lt_def.mpr hbelow⟩
  · exact (log_pairwise hlimit horderly).filter _

/-- Two processes, of which the second only reads the break. -/
theorem always_independent_twoProcesses :
    Independent 1 [⟨1, 0x1000⟩, ⟨2, 0⟩, ⟨1, 0x1234⟩] :=
  always_independent (by decide)

/-- Process 2 grows the heap between two calls of process 1, which then receives the page
behind. -/
theorem not_independent :
    ¬ ∀ calls : List (SbrkCall Nat), Independent 1 calls := by
  intro hclaim
  have hresults := (hclaim [⟨1, 0x1000⟩, ⟨2, 0x1000⟩, ⟨1, 0x1000⟩]).1
  exact absurd hresults (by decide)

end SbrkSession

end Processes

end Senob.Syscalls
