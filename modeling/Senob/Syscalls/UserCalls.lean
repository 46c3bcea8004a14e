import Senob.Syscalls.Dispatch
import Senob.Sys.DescriptorReads

/-!
# User programs and their system calls

The functions of the user library give a program what the same calls inside the kernel would
give it: the trap through the descriptor table, the stub and the table of functions is not
seen. This goes for one call, and by induction for everything a program does.
-/

namespace Senob.Syscalls

open Senob.Foundation Senob.Sys

variable {K : Type*} (c : KernelCalls K)

theorem UserCall.ring_load (s : Processor) (call : UserCall) : (call.load s).ring = s.ring := by
  cases call <;> rfl

theorem UserCall.ring_returned (s : Processor) (call : UserCall) (result : Word) :
    (call.returned s result).ring = s.ring := call.ring_load s

theorem UserCall.load_memory (s : Processor) (call : UserCall) (m : ByteMemory) :
    call.load { s with memory := m } = { call.load s with memory := m } := by
  cases call <;> rfl

/-- What a call leaves in the registers does not depend on the stack of the kernel. -/
theorem UserCall.returned_memory (s : Processor) (call : UserCall) (result : Word)
    (m m' : ByteMemory) :
    { call.returned { s with memory := m } result with memory := m' } =
      { call.returned s result with memory := m' } := by
  simp only [returned, load_memory]

/-- The table holds the function that the library means, and the function stores the result. -/
theorem isrHandler_frame (call : UserCall) (s : Processor) (tss : TaskState) (k : K) :
    isrHandler c ((call.load s).frame tss (.isr 128) none) k =
      (call.direct c k).map fun out =>
        ({ (call.load s).frame tss (.isr 128) none with eax := out.1 }, out.2) := by
  cases call with
  | execve path argv envp =>
      simp only [UserCall.direct, Option.map_bind]
      change (strcpyName c path k).bind _ = _
      refine Option.bind_congr fun name _ => ?_
      simp only [Function.comp_apply, Option.map_map]
      rfl
  | _ => rfl

/-- The kernel as a user program meets it: the linked handlers, the instructions in memory and
the compiled C functions. -/
structure Linked (K : Type*) where
  address : IdtHandler → Word
  /-- The instructions at an address. -/
  code : Word → List StubInstr
  returnAddress : Word
  calls : CFunction → Word → ByteMemory → K → Option (Returned K)

/-- The stubs in the descriptor table lie at their addresses, and `isr_handler` does what its C
code says. -/
structure Linked.Built (l : Linked K) : Prop where
  code_stub : ∀ n stub dpl, (n, .stub stub, dpl) ∈ idtEntries →
    l.code (l.address (.stub stub)) = stub.code
  isrHandler : Processor.Implements (l.calls .isrHandler) (isrHandler c)

/-- `int n` in a program, up to the instruction after it. -/
def trap (l : Linked K) (tss : TaskState) (n : BitVec 8) (s : Processor) (k : K) :
    Option (Processor × K) :=
  let idt := idtInit l.address
  let taken := s.softwareInterrupt idt n
  let handler := (idt taken.1).offset
  Processor.exec l.returnAddress l.calls (l.code handler) (s.interrupt tss handler taken.2) k

variable {c} {l : Linked K}

/-- One call of a function of the user library is the call inside the kernel. -/
theorem trap_load (hbuilt : l.Built c) (tss : TaskState) {s : Processor} (huser : s.ring = 3)
    (call : UserCall) (k : K) :
    match call.direct c k with
    | none => trap l tss 0x80 (call.load s) k = none
    | some (r, k') => ∃ m, trap l tss 0x80 (call.load s) k =
        some ({ call.returned s r with memory := m }, k') := by
  have hring : (call.load s).ring = 3 := (UserCall.ring_load s call).trans huser
  obtain ⟨hvector, hoffset⟩ := softwareInterrupt_idtInit l.address (call.load s) hring 0x80
  have htrap : trap l tss 0x80 (call.load s) k =
      Processor.exec l.returnAddress l.calls (Stub.isr 128).code
        ((call.load s).interrupt tss (l.address (.stub (.isr 128))) none) k := by
    have hcode := hbuilt.code_stub 128 (.isr 128) 3 (by simp [idtEntries])
    simp only [trap, hoffset]
    rw [hvector, if_pos rfl]
    exact congrArg (fun code => Processor.exec l.returnAddress l.calls code _ k) hcode
  have hexec := Processor.exec_of_implements l.returnAddress l.calls (.isr 128) hbuilt.isrHandler
    (call.load s) tss (l.address (.stub (.isr 128)))
    (show (none : Option Word).isSome ↔ _ by simp [Stub.TakesErrorCode]) k
  rw [isrHandler_frame] at hexec
  cases hdirect : call.direct c k with
  | none =>
      simp only [hdirect, Option.map_none] at hexec ⊢
      rw [htrap, hexec]
  | some out =>
      simp only [hdirect, Option.map_some] at hexec ⊢
      obtain ⟨m, hm⟩ := hexec
      have hresume : (call.load s).resume tss m
          { (call.load s).frame tss (.isr 128) none with eax := out.1 } =
            { (call.load s).resume tss m ((call.load s).frame tss (.isr 128) none) with
              eax := out.1 } := rfl
      refine ⟨m, ?_⟩
      rw [htrap, hm, hresume, Processor.resume_frame]
      rfl

/-- Vector 128 is the only one through which a user program comes back from the kernel: any
other `int` instruction raises a general protection fault, whose handler stays in a loop. -/
theorem trap_only_syscalls (hbuilt : l.Built c) (tss : TaskState) (s : Processor)
    (huser : s.ring = 3) (n : BitVec 8) (k : K) :
    (n = 128 → s.softwareInterrupt (idtInit l.address) n = (128, none) ∧
        (idtInit l.address 128).offset = l.address (.stub (.isr 128))) ∧
      (n ≠ 128 → s.softwareInterrupt (idtInit l.address) n =
          (13, some (n.setWidth 32 * 8 + 2)) ∧ trap l tss n s k = none) := by
  obtain ⟨hvector, hoffset⟩ := softwareInterrupt_idtInit l.address s huser n
  refine ⟨?_, ?_⟩
  · intro hn
    rw [hvector, if_pos hn, if_pos hn] at hoffset
    exact ⟨by rw [hvector, if_pos hn], hoffset⟩
  · intro hn
    rw [if_neg hn] at hvector hoffset
    refine ⟨hvector, ?_⟩
    have hcode := hbuilt.code_stub 13 (.isr 13) 1 (isr_mem_idtEntries (n := 13) (by decide))
    have hexec := Processor.exec_of_implements l.returnAddress l.calls (.isr 13)
      hbuilt.isrHandler s tss (l.address (.stub (.isr 13)))
      (show (some (n.setWidth 32 * 8 + 2)).isSome ↔ _ by simp [Stub.TakesErrorCode]) k
    have hloop : isrHandler c (s.frame tss (.isr 13) (some (n.setWidth 32 * 8 + 2))) k = none := rfl
    simp only [hloop] at hexec
    simp only [trap, hoffset]
    rw [hvector]
    exact (congrArg (fun code => Processor.exec l.returnAddress l.calls code _ k) hcode).trans hexec

/-- A user program, as seen from the kernel: between two calls it changes its registers and its
memory, and both decide on the next call. It stays in its ring and does not see the stack of the
kernel, which is what `Processor.memory` holds. -/
structure UserProgram (K : Type*) where
  compute : Processor → K → Processor × K
  call : Processor → K → UserCall
  ring_compute : ∀ s k, (compute s k).1.ring = s.ring
  compute_memory : ∀ s k m,
    compute { s with memory := m } k = ({ (compute s k).1 with memory := m }, (compute s k).2)
  call_memory : ∀ s k m, call { s with memory := m } k = call s k

namespace UserProgram

variable (p : UserProgram K)

/-- The first calls, when they are made in the kernel: their results, and the registers and the
system after them. -/
def runDirect (c : KernelCalls K) : Nat → Processor → K → Option (List Word × Processor × K)
  | 0, s, k => some ([], s, k)
  | n + 1, s, k => do
      let computed := p.compute s k
      let call := p.call computed.1 computed.2
      let out ← call.direct c computed.2
      let rest ← runDirect c n (call.returned computed.1 out.1) out.2
      some (out.1 :: rest.1, rest.2)

/-- The first calls, when they are made by traps. The kernel stack may be another one at every
trap. -/
def runTraps (l : Linked K) (tss : Nat → TaskState) :
    Nat → Processor → K → Option (List Word × Processor × K)
  | 0, s, k => some ([], s, k)
  | n + 1, s, k => do
      let computed := p.compute s k
      let call := p.call computed.1 computed.2
      let out ← trap l (tss n) 0x80 (call.load computed.1) computed.2
      let rest ← runTraps l tss n out.1 out.2
      some (out.1.eax :: rest.1, rest.2)

/-- The run by traps follows the direct one from any stack of the kernel. -/
theorem runTraps_memory (hbuilt : l.Built c) (tss : Nat → TaskState) (n : Nat) (s : Processor)
    (huser : s.ring = 3) (m : ByteMemory) (k : K) :
    match p.runDirect c n s k with
    | none => p.runTraps l tss n { s with memory := m } k = none
    | some (answers, s', k') => s'.ring = 3 ∧ ∃ m',
        p.runTraps l tss n { s with memory := m } k =
          some (answers, { s' with memory := m' }, k') := by
  induction n generalizing s m k with
  | zero => exact ⟨huser, m, rfl⟩
  | succ n ih =>
      obtain ⟨⟨t, j⟩, hcomputed⟩ : ∃ computed, p.compute s k = computed := ⟨_, rfl⟩
      have ht : t.ring = 3 := by
        rw [← huser, ← p.ring_compute s k, hcomputed]
      have htrap := trap_load hbuilt (tss n) (s := { t with memory := m }) ht (p.call t j) j
      have hmemory : p.compute { s with memory := m } k = ({ t with memory := m }, j) := by
        rw [p.compute_memory, hcomputed]
      have hcall : p.call { t with memory := m } j = p.call t j := p.call_memory t j m
      simp only [runDirect, runTraps, hmemory, hcomputed, hcall]
      -- The frame on the kernel stack is the only memory in which the two differ.
      cases hdirect : (p.call t j).direct c j with
      | none =>
          simp only [hdirect] at htrap
          rw [htrap]
          rfl
      | some out =>
          simp only [hdirect] at htrap
          obtain ⟨m', hm'⟩ := htrap
          rw [UserCall.returned_memory] at hm'
          have hrest := ih ((p.call t j).returned t out.1)
            ((UserCall.ring_returned t _ _).trans ht) m' out.2
          simp only [hm', Option.bind_eq_bind, Option.bind_some]
          cases hrun : p.runDirect c n ((p.call t j).returned t out.1) out.2 with
          | none =>
              simp only [hrun] at hrest
              rw [hrest]
              rfl
          | some rest =>
              simp only [hrun] at hrest
              obtain ⟨hring, m'', hm''⟩ := hrest
              rw [hm'']
              exact ⟨hring, m'', rfl⟩

/-- For every program and every number of calls: the traps give the same results, the same user
registers and the same system as direct calls would, and one of them does not return exactly
when the direct call does not. -/
theorem runTraps_eq (hbuilt : l.Built c) (tss : Nat → TaskState) (n : Nat) (s : Processor)
    (huser : s.ring = 3) (k : K) :
    match p.runDirect c n s k with
    | none => p.runTraps l tss n s k = none
    | some (answers, s', k') => s'.ring = 3 ∧ ∃ m,
        p.runTraps l tss n s k = some (answers, { s' with memory := m }, k') :=
  p.runTraps_memory hbuilt tss n s huser s.memory k

end UserProgram

/-- The number in the label of a handler in the descriptor table. -/
def label : IdtHandler → Nat
  | .stub (.isr n) => n
  | .stub (.irq n) => n + 256
  | .apicErrorHandler => 512
  | .spuriousInterruptHandler => 513

theorem label_lt : ∀ e ∈ idtEntries,
    label e.2.1 < 1024 ∧ ∀ n, e.2.1 = .stub (.isr n) → n < 256 := by
  intro e he
  rcases List.mem_append.mp he with hexception | hother
  · obtain ⟨i, hi, rfl⟩ := List.mem_map.mp hexception
    rw [List.mem_range] at hi
    refine ⟨by simp only [label]; omega, ?_⟩
    rintro n ⟨⟩
    omega
  · simp only [List.mem_cons, List.not_mem_nil, or_false] at hother
    rcases hother with rfl | rfl | rfl | rfl | rfl | rfl
    all_goals
      refine ⟨by decide, fun n hn => ?_⟩
      cases hn
    decide

def codeAt (a : Word) : List StubInstr :=
  if a.toNat < 256 then (Stub.isr a.toNat).code else (Stub.irq (a.toNat - 256)).code

/-- A kernel that is built around C functions, with the handlers at their labels. -/
def linked (c : KernelCalls K) : Linked K where
  address := fun handler => BitVec.ofNat 32 (label handler)
  code := codeAt
  returnAddress := 0xC0000000
  calls := fun _ => Processor.compile (isrHandler c)

theorem built_linked (c : KernelCalls K) : (linked c).Built c where
  code_stub := by
    intro n stub dpl hmem
    obtain ⟨hlabel, hisr⟩ := label_lt _ hmem
    cases stub with
    | isr i =>
        have hi := hisr i rfl
        have haddress : (BitVec.ofNat 32 i).toNat = i := by
          rw [BitVec.toNat_ofNat]
          omega
        simp only [linked, codeAt, label, haddress, if_pos hi]
    | irq i =>
        simp only [label] at hlabel
        have haddress : (BitVec.ofNat 32 (i + 256)).toNat = i + 256 := by
          rw [BitVec.toNat_ofNat]
          omega
        have hnot : ¬ i + 256 < 256 := by omega
        simp only [linked, codeAt, label, haddress, if_neg hnot, Nat.add_sub_cancel]
  isrHandler := Processor.implements_compile _

/-- A kernel in which only the break changes. -/
def breakCalls : KernelCalls Word where
  kernelWrite := fun _ k => k
  reportNumber := fun _ k => k
  clearScreenSys2 := fun _ k => k
  write := fun _ _ len k => (len, k)
  heapEnd := id
  setHeapEnd := fun heapEnd _ => heapEnd
  open_ := fun _ _ k => (3, k)
  readdir := fun _ k => (0, k)
  close := fun _ k => (0, k)
  read := fun _ _ _ k => (0, k)
  lseek := fun _ offset _ k => (offset, k)
  stat := fun _ _ k => (0, k)
  fstat := fun _ _ k => (0, k)
  mkdir := fun _ _ k => (0, k)
  getKeyFromBuffer := fun k => (0, k)
  drawFrame := fun _ _ k => k
  pitTicks := fun _ => 100
  string := fun _ _ => some []
  printf := fun _ k => k
  execve := fun _ _ _ _ => none

/-- A program that asks for a page, and writes as many bytes as the result says. -/
def growingProgram : UserProgram Word where
  compute := fun s k => ({ s with eip := s.eip + 2 }, k)
  call := fun s _ => if s.eip = 0x00400002 then .sbrk 0x1000 else .write 1 s.eax s.eax
  ring_compute := fun _ _ => rfl
  compute_memory := fun _ _ _ => rfl
  call_memory := fun _ _ _ => rfl

theorem runTraps_growingProgram :
    (Processor.userExample.ring = 3) ∧ ∃ m,
    growingProgram.runTraps (linked breakCalls) (fun _ => ⟨0x10, 0xC0400000⟩) 2
        Processor.userExample initialHeapEnd =
      some ([0x00800000, 0x00800000], { Processor.userExample with
        eax := 0x00800000
        ebx := 1
        ecx := 0x00800000
        edx := 0x00800000
        eip := 0x00400004
        memory := m }, 0x00801000) :=
  growingProgram.runTraps_eq (built_linked breakCalls) (fun _ => ⟨0x10, 0xC0400000⟩)
    2 Processor.userExample (by decide) initialHeapEnd

theorem trap_only_syscalls_userExample :
    trap (linked breakCalls) ⟨0x10, 0xC0400000⟩ 0x21 Processor.userExample initialHeapEnd = none :=
  ((trap_only_syscalls (built_linked breakCalls) ⟨0x10, 0xC0400000⟩ Processor.userExample
    (by decide) 0x21 initialHeapEnd).2 (by decide)).2

end Senob.Syscalls
