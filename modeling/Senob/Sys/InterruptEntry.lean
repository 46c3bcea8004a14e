import Senob.Foundation.StackMemory
import Senob.Sys.Sched

/-!
# The entry stubs of interrupts

The macros and the two common stubs of `idt.s`, instruction by instruction, with what the
CPU does before and after them. The stubs build a `struct Interrupt_registers` on the stack,
pass its address to a C function and load the registers back from it. A C function may do
anything to the memory. It keeps `ebx`, `esi`, `edi`, `ebp` and `esp`, and returns to the
stub only when its return address is still in place.
-/

namespace Senob.Sys

open Senob.Foundation

/-- The registers of a CPU that an interrupt concerns, and the memory it sees. -/
structure Processor where
  eax : Word
  ebx : Word
  ecx : Word
  edx : Word
  esi : Word
  edi : Word
  ebp : Word
  esp : Word
  eip : Word
  eflags : Word
  cs : BitVec 16
  ss : BitVec 16
  ds : BitVec 16
  es : BitVec 16
  fs : BitVec 16
  gs : BitVec 16
  cr2 : Word
  memory : ByteMemory

/-- The fields of `struct tss` that the CPU reads. -/
structure TaskState where
  ss0 : BitVec 16
  esp0 : Word

inductive SegmentRegister where
  | ds
  | es
  | fs
  | gs

/-- The C functions that `idt.s` declares as `extern`. -/
inductive CFunction where
  | isrHandler
  | irqHandler

/-- The instructions that the stubs consist of. -/
inductive StubInstr where
  | cli
  | sti
  | push (v : Word)
  | pusha
  | movEaxDs
  | movEaxCr2
  | pushEax
  | movAx (v : BitVec 16)
  | movSegAx (r : SegmentRegister)
  | pushEsp
  | call (f : CFunction)
  | addEsp (n : Word)
  | popEbx
  | movSegBx (r : SegmentRegister)
  | popa
  | iret

/-- The exceptions with which the CPU pushes an error code: #DF, #TS, #NP, #SS, #GP, #PF, #AC,
#CP, #VC and #SX. -/
def errorCodeVectors : List Nat := [8, 10, 11, 12, 13, 14, 17, 21, 29, 30]

/-- What makes the CPU take an interrupt. -/
inductive Cause where
  /-- An exception of the CPU. The word is its error code, if the vector has one. -/
  | exception (code : Word)
  /-- An `int` instruction, or the line of a device. -/
  | request

/-- The labels `isr0`, …, `irq32`. -/
inductive Stub where
  | isr (n : Nat)
  | irq (n : Nat)
  deriving DecidableEq

namespace Stub

open StubInstr SegmentRegister

/-- `isr_common_stub` and `irq_common_stub`. -/
def commonStub (f : CFunction) : List StubInstr :=
  [pusha, movEaxDs, pushEax, movEaxCr2, pushEax,
    movAx 0x10, movSegAx ds, movSegAx es, movSegAx fs, movSegAx gs,
    pushEsp, call f,
    addEsp 8, popEbx, movSegBx ds, movSegBx es, movSegBx fs, movSegBx gs,
    popa, addEsp 8, sti, iret]

def isrNoerrcode (n : Nat) : List StubInstr :=
  [cli, push 0, push (BitVec.ofNat 32 n)] ++ commonStub .isrHandler

def isrErrcode (n : Nat) : List StubInstr :=
  [cli, push (BitVec.ofNat 32 n)] ++ commonStub .isrHandler

/-- The macro `IRQ`. The `%0` that it pushes is the number of its parameters. -/
def irqMacro (n : Nat) : List StubInstr :=
  [cli, push 2, push (BitVec.ofNat 32 n)] ++ commonStub .irqHandler

/-- The stubs that are made by `ISR_ERRCODE`. -/
def TakesErrorCode : Stub → Prop
  | isr n => n ∈ [8, 10, 11, 12, 13, 14]
  | irq _ => False

instance : DecidablePred TakesErrorCode
  | isr n => inferInstanceAs (Decidable (n ∈ [8, 10, 11, 12, 13, 14]))
  | irq _ => inferInstanceAs (Decidable False)

/-- The number that the stub pushes. -/
def number : Stub → Nat
  | isr n => n
  | irq n => n + 32

def target : Stub → CFunction
  | isr _ => .isrHandler
  | irq _ => .irqHandler

def code : Stub → List StubInstr
  | isr n => if (isr n).TakesErrorCode then isrErrcode n else isrNoerrcode n
  | irq n => irqMacro (irq n).number

/-- The error code that the CPU pushes before it goes on in the stub. -/
def error : Stub → Cause → Option Word
  | isr n, .exception code => if n ∈ errorCodeVectors then some code else none
  | isr _, .request => none
  | irq _, _ => none

/-- The stub is made for what the CPU pushes. The stubs 17, 21, 29 and 30 are made for
exceptions without an error code, which these are not, and an `int` never pushes one. -/
def Expects : Stub → Cause → Prop
  | isr n, .exception _ => n ∉ [17, 21, 29, 30]
  | isr n, .request => ¬ (isr n).TakesErrorCode
  | irq _, _ => True

instance : (stub : Stub) → (cause : Cause) → Decidable (stub.Expects cause)
  | isr n, .exception _ => inferInstanceAs (Decidable (n ∉ [17, 21, 29, 30]))
  | isr n, .request => inferInstanceAs (Decidable (¬ (isr n).TakesErrorCode))
  | irq _, .exception _ => isTrue trivial
  | irq _, .request => isTrue trivial

theorem expects_iff (stub : Stub) (cause : Cause) :
    stub.Expects cause ↔ ((stub.error cause).isSome ↔ stub.TakesErrorCode) := by
  cases stub with
  | irq n => cases cause <;> simp [Expects, error, TakesErrorCode]
  | isr n =>
      cases cause with
      | request => simp [Expects, error]
      | exception code =>
          by_cases hpushes : n ∈ errorCodeVectors
          · rw [error, if_pos hpushes]
            simp only [errorCodeVectors, List.mem_cons, List.not_mem_nil, or_false] at hpushes
            simp only [Expects, TakesErrorCode, List.mem_cons, List.not_mem_nil, or_false,
              Option.isSome_some, true_iff]
            omega
          · rw [error, if_neg hpushes]
            simp only [errorCodeVectors, List.mem_cons, List.not_mem_nil, or_false] at hpushes
            simp only [Expects, TakesErrorCode, List.mem_cons, List.not_mem_nil, or_false,
              Option.isSome_none, Bool.false_eq_true, false_iff]
            omega

/-- The word that is found in `err_code`, when the CPU pushes this error code or none. -/
def errCode : Stub → Option Word → Word
  | isr _, error => error.getD 0
  | irq _, _ => 2

end Stub

/-- What a C function leaves: the memory, the registers that it need not keep and the rest
of the kernel. -/
structure Returned (K : Type*) where
  memory : ByteMemory
  eax : Word
  ecx : Word
  edx : Word
  eflags : Word
  kernel : K

/-- The `struct Interrupt_registers` at an address. -/
def frameAt (m : ByteMemory) (a : Word) : InterruptRegisters where
  cr2 := m.load a
  ds := m.load (a + 4)
  edi := m.load (a + 8)
  esi := m.load (a + 12)
  ebp := m.load (a + 16)
  esp := m.load (a + 20)
  ebx := m.load (a + 24)
  edx := m.load (a + 28)
  ecx := m.load (a + 32)
  eax := m.load (a + 36)
  interruptNumber := m.load (a + 40)
  errCode := m.load (a + 44)
  eip := m.load (a + 48)
  csm := m.load (a + 52)
  eflags := m.load (a + 56)
  useresp := m.load (a + 60)
  ss := m.load (a + 64)

namespace InterruptRegisters

/-- The structure as it lies in memory. -/
def words (r : InterruptRegisters) : List Word :=
  [r.cr2, r.ds, r.edi, r.esi, r.ebp, r.esp, r.ebx, r.edx, r.ecx, r.eax, r.interruptNumber,
    r.errCode, r.eip, r.csm, r.eflags, r.useresp, r.ss]

end InterruptRegisters

namespace Processor

/-- The interrupt flag in `eflags`. -/
def flagIF : Word := 0x200

def setSeg (s : Processor) (v : BitVec 16) : SegmentRegister → Processor
  | .ds => { s with ds := v }
  | .es => { s with es := v }
  | .fs => { s with fs := v }
  | .gs => { s with gs := v }

def push (s : Processor) (v : Word) : Processor :=
  { s with esp := s.esp - 4, memory := s.memory.store (s.esp - 4) v }

def pushAll (s : Processor) (vs : List Word) : Processor :=
  { s with esp := s.esp - BitVec.ofNat 32 (4 * vs.length), memory := s.memory.pushAll s.esp vs }

/-- The word at an offset from the stack pointer. -/
def top (s : Processor) (offset : Word) : Word := s.memory.load (s.esp + offset)

section Exec

variable {K : Type*} (returnAddress : Word)
  (calls : CFunction → Word → ByteMemory → K → Option (Returned K))

/-- The call of a C function whose argument is on top of the stack. -/
def callC (f : CFunction) (s : Processor) (k : K) : Option (Processor × K) := do
  let called := s.push returnAddress
  let out ← calls f (called.top 4) called.memory k
  if out.memory.load called.esp = returnAddress then
    some ({ s with
      eax := out.eax
      ecx := out.ecx
      edx := out.edx
      eflags := out.eflags
      memory := out.memory }, out.kernel)
  else none

/-- `iret` in ring 0. The stack pointer and segment are on the stack when it returns to another
ring. -/
def iret (s : Processor) : Processor :=
  let outer := privilege (s.top 4) ≠ 0
  { s with
    eip := s.top 0
    cs := (s.top 4).setWidth 16
    eflags := s.top 8
    esp := if outer then s.top 12 else s.esp + 12
    ss := if outer then (s.top 16).setWidth 16 else s.ss }

def step (s : Processor) (k : K) : StubInstr → Option (Processor × K)
  | .cli => some ({ s with eflags := s.eflags &&& ~~~flagIF }, k)
  | .sti => some ({ s with eflags := s.eflags ||| flagIF }, k)
  | .push v => some (s.push v, k)
  | .pusha => some (s.pushAll [s.eax, s.ecx, s.edx, s.ebx, s.esp, s.ebp, s.esi, s.edi], k)
  | .movEaxDs => some ({ s with eax := s.ds.setWidth 32 }, k)
  | .movEaxCr2 => some ({ s with eax := s.cr2 }, k)
  | .pushEax => some (s.push s.eax, k)
  | .movAx v => some ({ s with eax := s.eax.extractLsb' 16 16 ++ v }, k)
  | .movSegAx r => some (s.setSeg (s.eax.setWidth 16) r, k)
  | .pushEsp => some (s.push s.esp, k)
  | .call f => s.callC returnAddress calls f k
  | .addEsp n => some ({ s with esp := s.esp + n }, k)
  | .popEbx => some ({ s with ebx := s.top 0, esp := s.esp + 4 }, k)
  | .movSegBx r => some (s.setSeg (s.ebx.setWidth 16) r, k)
  | .popa => some ({ s with
      edi := s.top 0
      esi := s.top 4
      ebp := s.top 8
      ebx := s.top 16
      edx := s.top 20
      ecx := s.top 24
      eax := s.top 28
      esp := s.esp + 32 }, k)
  | .iret => some (s.iret, k)

def exec : List StubInstr → Processor → K → Option (Processor × K)
  | [], s, k => some (s, k)
  | i :: is, s, k => (s.step returnAddress calls k i).bind fun next => exec is next.1 next.2

end Exec

/-- The ring in which the processor runs. -/
def ring (s : Processor) : Word := privilege (s.cs.setWidth 32)

/-- The stack that the CPU pushes on when it takes an interrupt. -/
def switchStack (s : Processor) (tss : TaskState) : Processor :=
  if s.ring ≠ 0 then
    ({ s with ss := tss.ss0, esp := tss.esp0 } : Processor).pushAll [s.ss.setWidth 32, s.esp]
  else s

/-- What the CPU does when it takes an interrupt through a gate of the kernel code segment. -/
def interrupt (s : Processor) (tss : TaskState) (handler : Word) (error : Option Word) :
    Processor :=
  let pushed := (s.switchStack tss).pushAll
    ([s.eflags, s.cs.setWidth 32, s.eip] ++ error.toList)
  { pushed with eflags := s.eflags &&& ~~~flagIF, cs := 0x08, eip := handler }

end Processor

end Senob.Sys
