import Mathlib.Logic.Function.Basic
import Senob.Foundation.Run
import Senob.Sys.InterruptEntry

/-!
# Descriptor tables

`gdt.c` and the part of `idt.c` that fills the table of interrupts. Both store an address in
pieces between other fields, and the CPU puts the pieces together again. The gates decide
which interrupts a user program may raise itself, and the task states decide which kernel
stack it enters.
-/

namespace Senob.Sys

open Senob.Foundation

section Interrupts

/-- `struct idt_entry_t`. -/
structure IdtEntry where
  isrLow : BitVec 16
  kernelCs : BitVec 16
  reserved : BitVec 8
  type : BitVec 8
  isrHigh : BitVec 16

abbrev Idt := BitVec 8 → IdtEntry

def idtSetDescriptor (idtDescriptors : Idt) (interruptNumber : BitVec 8) (isr : Word)
    (dpl : BitVec 8) : Idt :=
  Function.update idtDescriptors interruptNumber {
    isrLow := (isr &&& 0xFFFF).setWidth 16
    kernelCs := 0x08
    reserved := 0x00
    type := 0x8E ||| dpl <<< 5
    isrHigh := (isr >>> 16 &&& 0xFFFF).setWidth 16 }

/-- What `idt_init` enters in the table: the stubs, and two C functions. -/
inductive IdtHandler where
  | stub (stub : Stub)
  | apicErrorHandler
  | spuriousInterruptHandler

/-- The entries that `idt_init` makes, with their privilege level. -/
def idtEntries : List (BitVec 8 × IdtHandler × BitVec 8) :=
  (List.range 32).map (fun n => (BitVec.ofNat 8 n, .stub (.isr n), 1)) ++
    [(0x20, .stub (.irq 0), 1), (0x21, .stub (.irq 1), 1), (0x40, .stub (.irq 32), 1),
      (0xFE, .apicErrorHandler, 1), (0xFF, .spuriousInterruptHandler, 1),
      (128, .stub (.isr 128), 3)]

/-- `idt_init`, with the addresses that the linker gives to the handlers. -/
def idtInit (address : IdtHandler → Word) : Idt :=
  idtEntries.foldl (fun idt e => idtSetDescriptor idt e.1 (address e.2.1) e.2.2)
    fun _ => ⟨0, 0, 0, 0, 0⟩

namespace IdtEntry

variable (e : IdtEntry)

/-- The address that the CPU jumps to. -/
def offset : Word := e.isrHigh ++ e.isrLow

/-- A present interrupt gate of 32 bits. -/
def IsGate : Prop := e.type &&& 0x9F = 0x8E

/-- The least privileged ring that may use the gate by an `int` instruction. -/
def dpl : BitVec 8 := e.type >>> 5 &&& 3

instance : Decidable e.IsGate := inferInstanceAs (Decidable (_ = _))

end IdtEntry

/-- The vector that is taken when the processor executes `int n`, with its error code: `n`
itself, or a general protection fault. -/
def Processor.softwareInterrupt (s : Processor) (idt : Idt) (n : BitVec 8) :
    BitVec 8 × Option Word :=
  if (idt n).IsGate ∧ s.ring ≤ (idt n).dpl.setWidth 32 then (n, none)
  else (13, some (n.setWidth 32 * 8 + 2))

end Interrupts

section Segments

/-- `struct gdt_entry_struct`. -/
structure GdtEntry where
  limit : BitVec 16
  baseLow : BitVec 16
  baseMiddle : BitVec 8
  access : BitVec 8
  flags : BitVec 8
  baseHigh : BitVec 8

abbrev Gdt := Nat → GdtEntry

def setGdtEntry (gdtEntries : Gdt) (num : Nat) (base limit : Word) (access : BitVec 8)
    (flags : Word) : Gdt :=
  Function.update gdtEntries num {
    baseLow := (base &&& 0xFFFF).setWidth 16
    baseMiddle := (base >>> 16 &&& 0xFF).setWidth 8
    baseHigh := (base >>> 24 &&& 0xFF).setWidth 8
    limit := (limit &&& 0xFFFF).setWidth 16
    flags := (limit >>> 16 &&& 0x0F).setWidth 8 ||| (flags &&& 0xF0).setWidth 8
    access := access }

namespace GdtEntry

variable (e : GdtEntry)

/-- The address at which the CPU finds the segment. -/
def base : Word := e.baseHigh ++ e.baseMiddle ++ e.baseLow

/-- The last offset in the segment, in bytes or in pages. -/
def lastOffset : Word :=
  let limit := (e.flags.setWidth 4 ++ e.limit).setWidth 32
  if e.flags &&& 0x80 = 0 then limit else limit <<< 12 ||| 0xFFF

def dpl : BitVec 8 := e.access >>> 5 &&& 3

/-- A present segment of code or data. -/
def IsSegment : Prop := e.access &&& 0x90 = 0x90

/-- A present task state of 32 bits that no CPU uses yet. -/
def IsTaskState : Prop := e.access &&& 0x9F = 0x89

instance : Decidable e.IsSegment := inferInstanceAs (Decidable (_ = _))

instance : Decidable e.IsTaskState := inferInstanceAs (Decidable (_ = _))

end GdtEntry

/-- `sizeof(struct tss)`. -/
def sizeofTss : Nat := 104

/-- `&tss[i]`. -/
def tssAddress (tss : Word) (i : Nat) : Word := tss + BitVec.ofNat 32 (sizeofTss * i)

/-- The structure `tss[i]` as `init_gdt` sets it up. -/
def initTss (m : ByteMemory) (a : Word) : ByteMemory :=
  let m := m.storeBytes a sizeofTss fun _ => 0
  let m := m.storeBytes (a + 8) 2 (byteOf 0x10)
  let m := m.store (a + 4) 0
  m.storeBytes (a + 102) 2 (byteOf (BitVec.ofNat 32 sizeofTss))

/-- `init_gdt`, with `tss` at an address. -/
def initGdt (gdtEntries : Gdt) (m : ByteMemory) (tss : Word) : Gdt × ByteMemory :=
  let gdt := setGdtEntry gdtEntries 0 0 0 0 0
  let gdt := setGdtEntry gdt 1 0 0xFFFFFFFF 0x9A 0xCF
  let gdt := setGdtEntry gdt 2 0 0xFFFFFFFF 0x92 0xCF
  let gdt := setGdtEntry gdt 3 0 0xFFFFFFFF 0xFA 0xCF
  let gdt := setGdtEntry gdt 4 0 0xFFFFFFFF 0xF2 0xCF
  (List.range maxCpus).foldl
    (fun s i => (setGdtEntry s.1 (5 + i) (tssAddress tss i) (BitVec.ofNat 32 (sizeofTss - 1)) 0xE9
      0x00, initTss s.2 (tssAddress tss i))) (gdt, m)

/-- `gdt_ptr.limit`. -/
def gdtLimit : Nat := 8 * (5 + maxCpus) - 1

def updateTssEsp0 (m : ByteMemory) (tss : Word) (esp0 : Word) (apNr : Nat) : ByteMemory :=
  m.store (tssAddress tss apNr + 4) esp0

/-- The selector that `tss_flush` loads on the first CPU. -/
def tssFlushSelector : Word := 0x2B

/-- The selector that `initializeAP` loads on another one. -/
def apTssSelector (lapicID : Word) : Word := (5 + lapicID) <<< 3

/-- The base of the task state that `ltr` loads. -/
def ltr (gdt : Gdt) (selector : Word) : Option Word :=
  let e := gdt (selector >>> 3).toNat
  if (selector ||| 7).toNat ≤ gdtLimit ∧ e.IsTaskState then some e.base else none

/-- The stack that the CPU takes from its task state when it enters ring 0. -/
def taskState (m : ByteMemory) (a : Word) : TaskState :=
  ⟨(m.load (a + 8)).setWidth 16, m.load (a + 4)⟩

end Segments

end Senob.Sys
