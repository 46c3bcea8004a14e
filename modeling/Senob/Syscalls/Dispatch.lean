import Senob.Syscalls.Sbrk
import Senob.Sys.DescriptorTables
import Senob.Sys.InterruptReturn

/-!
# System calls

`isr_handler` and `syscall_handler` of `idt.c`, the table of `syscalls.c` with its functions,
and the functions of the user library that raise the interrupt. What the functions of the
table call is a parameter. The state `K` is all of the system but the registers and the kernel
stack, so it holds the memory of the user program as well.
-/

namespace Senob.Syscalls

open Senob.Sys

/-- What the functions of the table call. A pointer argument is passed on as it is. -/
structure KernelCalls (K : Type*) where
  /-- `kernel_write("%s", …)`. -/
  kernelWrite : Word → K → K
  /-- `kernel_write("not a valid syscall nr: %u\n", …)`. -/
  reportNumber : Word → K → K
  clearScreenSys2 : Word → K → K
  write : Word → Word → Word → K → Word × K
  /-- The variable `heap_end`. -/
  heapEnd : K → Word
  setHeapEnd : Word → K → K
  open_ : Word → Word → K → Word × K
  /-- The loop over `f_readdir`, with the last `fresult`. -/
  readdir : Word → K → Word × K
  close : Word → K → Word × K
  read : Word → Word → Word → K → Word × K
  lseek : Word → Word → Word → K → Word × K
  stat : Word → Word → K → Word × K
  fstat : Word → Word → K → Word × K
  mkdir : Word → Word → K → Word × K
  getKeyFromBuffer : K → Word × K
  /-- The loops that draw a frame. -/
  drawFrame : Word → Word → K → K
  pitTicks : K → BitVec 64
  /-- The bytes at an address of the program, up to a zero byte. -/
  string : Word → K → Option (List (BitVec 8))
  /-- `printf("%s\n", …)`. -/
  printf : List (BitVec 8) → K → K
  /-- `execve`, which returns only when it fails. -/
  execve : List (BitVec 8) → Word → Word → K → Option (Word × K)

/-- A function of the table, which may not return. -/
abbrev SyscallsFunPtr (K : Type*) :=
  InterruptRegisters → K → Option (InterruptRegisters × K)

section Functions

variable {K : Type*} (c : KernelCalls K)

/-- The pattern of the functions that pass arguments on and store the result. -/
def answer (call : Word → Word → Word → K → Word × K) : SyscallsFunPtr K := fun regs k =>
  let result := call regs.ebx regs.ecx regs.edx k
  some ({ regs with eax := result.1 }, result.2)

def syscall0Print : SyscallsFunPtr K := fun regs k => some (regs, c.kernelWrite regs.ebx k)

def syscall2ClearScreen : SyscallsFunPtr K := fun regs k =>
  some ({ regs with eax := 1 }, c.clearScreenSys2 regs.ebx k)

def syscall3Write : SyscallsFunPtr K := answer c.write

def syscall4SbrkCall : SyscallsFunPtr K := fun regs k =>
  let result := syscall4Sbrk (c.heapEnd k) regs.ebx
  some ({ regs with eax := result.eax }, c.setHeapEnd result.heapEnd k)

def syscall5Open : SyscallsFunPtr K := answer fun name flags _ => c.open_ name flags

def syscall6Readdir : SyscallsFunPtr K := answer fun path _ _ => c.readdir path

def syscall7Close : SyscallsFunPtr K := answer fun file _ _ => c.close file

def syscall8Read : SyscallsFunPtr K := answer c.read

def syscall9Lseek : SyscallsFunPtr K := answer c.lseek

def syscall10Stat : SyscallsFunPtr K := answer fun path st _ => c.stat path st

def syscall11Fstat : SyscallsFunPtr K := answer fun file st _ => c.fstat file st

def syscall12Mkdir : SyscallsFunPtr K := answer fun path mode _ => c.mkdir path mode

def syscall13GetKeyFromBuffer : SyscallsFunPtr K := answer fun _ _ _ => c.getKeyFromBuffer

def syscall14DrawFrameDoom : SyscallsFunPtr K := fun regs k =>
  some (regs, c.drawFrame regs.ebx regs.ecx k)

def syscall15GetTicks : SyscallsFunPtr K := fun regs k =>
  some ({ regs with eax := (c.pitTicks k).setWidth 32 }, k)

/-- `strcpy(name, path)` into the 20 bytes of `name`. A longer string goes on over the stack of
`syscall_16_execve`, its return address included, and is taken as a call that does not return. -/
def strcpyName (path : Word) (k : K) : Option (List (BitVec 8)) :=
  (c.string path k).filter fun name => name.length < 20

def syscall16Execve : SyscallsFunPtr K := fun regs k =>
  (strcpyName c regs.ebx k).bind fun name =>
    (c.execve name regs.ecx regs.edx (c.printf name k)).map fun result =>
      ({ regs with eax := 1 }, result.2)

/-- The assignment in `syscall_17_getpid` is commented out. -/
def syscall17Getpid : SyscallsFunPtr K := fun regs k => some (regs, k)

/-- `syscall_functions`. -/
abbrev SyscallFunctions (K : Type*) := Nat → Option (SyscallsFunPtr K)

def addSyscalls (functions : SyscallFunctions K) (syscallNumber : Nat)
    (sysFunction : SyscallsFunPtr K) : SyscallFunctions K :=
  Function.update functions syscallNumber (some sysFunction)

/-- `register_syscalls`, from the empty table. -/
def registerSyscalls : SyscallFunctions K :=
  let functions := addSyscalls (fun _ => none) 0 (syscall0Print c)
  let functions := addSyscalls functions 2 (syscall2ClearScreen c)
  let functions := addSyscalls functions 3 (syscall3Write c)
  let functions := addSyscalls functions 4 (syscall4SbrkCall c)
  let functions := addSyscalls functions 5 (syscall5Open c)
  let functions := addSyscalls functions 6 (syscall6Readdir c)
  let functions := addSyscalls functions 7 (syscall7Close c)
  let functions := addSyscalls functions 8 (syscall8Read c)
  let functions := addSyscalls functions 9 (syscall9Lseek c)
  let functions := addSyscalls functions 10 (syscall10Stat c)
  let functions := addSyscalls functions 11 (syscall11Fstat c)
  let functions := addSyscalls functions 12 (syscall12Mkdir c)
  let functions := addSyscalls functions 13 (syscall13GetKeyFromBuffer c)
  let functions := addSyscalls functions 14 (syscall14DrawFrameDoom c)
  let functions := addSyscalls functions 15 (syscall15GetTicks c)
  let functions := addSyscalls functions 16 (syscall16Execve c)
  addSyscalls functions 17 syscall17Getpid

/-- `syscall_handler`. A number without a function calls the address 0, from which nothing
returns. -/
def syscallHandler : SyscallsFunPtr K := fun regs k =>
  if 1024 ≤ regs.eax then some (regs, c.reportNumber regs.eax k)
  else match registerSyscalls c regs.eax.toNat with
    | some sysFunction => sysFunction regs k
    | none => none

/-- `isr_handler`, which stays in a loop after an exception. -/
def isrHandler : SyscallsFunPtr K := fun regs k =>
  if regs.interruptNumber < 32 then none
  else if regs.interruptNumber = 128 then syscallHandler c regs k
  else some (regs, k)

end Functions

/-- A call of a function of the user library. -/
inductive UserCall where
  | clearScreen (color : Word)
  | write (fd buf len : Word)
  | sbrk (increment : Word)
  | open_ (name flags : Word)
  | readdir (path : Word)
  | close (file : Word)
  | read (file buf len : Word)
  | lseek (file offset whence : Word)
  | stat (path st : Word)
  | fstat (file st : Word)
  | mkdir (path mode : Word)
  | getKeyFromBuffer
  | drawFrameDoom (buffer pitch : Word)
  | getTicksDoom
  | execve (path argv envp : Word)
  | getpid

namespace UserCall

/-- The registers at the `int $0x80` of the function. -/
def load (s : Processor) : UserCall → Processor
  | clearScreen color => { s with eax := 2, ebx := color }
  | write fd buf len => { s with eax := 3, ebx := fd, ecx := buf, edx := len }
  | sbrk increment => { s with eax := 4, ebx := increment }
  | open_ name flags => { s with eax := 5, ebx := name, ecx := flags }
  | readdir path => { s with eax := 6, ebx := path }
  | close file => { s with eax := 7, ebx := file }
  | read file buf len => { s with eax := 8, ebx := file, ecx := buf, edx := len }
  | lseek file offset whence => { s with eax := 9, ebx := file, ecx := offset, edx := whence }
  | stat path st => { s with eax := 10, ebx := path, ecx := st }
  | fstat file st => { s with eax := 11, ebx := file, ecx := st }
  | mkdir path mode => { s with eax := 12, ebx := path, ecx := mode }
  | getKeyFromBuffer => { s with eax := 13 }
  | drawFrameDoom buffer pitch => { s with eax := 14, ebx := buffer, ecx := pitch }
  | getTicksDoom => { s with eax := 15 }
  | execve path argv envp => { s with eax := 16, ebx := path, ecx := argv, edx := envp }
  | getpid => { s with eax := 17 }

/-- The registers after the call. The stub leaves the selector of `ds` in the other segment
registers for data. -/
def returned (s : Processor) (call : UserCall) (result : Word) : Processor :=
  let s := call.load s
  { s with eax := result, es := s.ds, fs := s.ds, gs := s.ds }

/-- The same call made in the kernel. Where the function of the table stores no result, `eax`
still holds the number of the call. -/
def direct {K : Type*} (c : KernelCalls K) (k : K) : UserCall → Option (Word × K)
  | clearScreen color => some (1, c.clearScreenSys2 color k)
  | write fd buf len => some (c.write fd buf len k)
  | sbrk increment =>
      let result := syscall4Sbrk (c.heapEnd k) increment
      some (result.eax, c.setHeapEnd result.heapEnd k)
  | open_ name flags => some (c.open_ name flags k)
  | readdir path => some (c.readdir path k)
  | close file => some (c.close file k)
  | read file buf len => some (c.read file buf len k)
  | lseek file offset whence => some (c.lseek file offset whence k)
  | stat path st => some (c.stat path st k)
  | fstat file st => some (c.fstat file st k)
  | mkdir path mode => some (c.mkdir path mode k)
  | getKeyFromBuffer => some (c.getKeyFromBuffer k)
  | drawFrameDoom buffer pitch => some (14, c.drawFrame buffer pitch k)
  | getTicksDoom => some ((c.pitTicks k).setWidth 32, k)
  | execve path argv envp =>
      (strcpyName c path k).bind fun name =>
        (c.execve name argv envp (c.printf name k)).map fun result => (1, result.2)
  | getpid => some (17, k)

end UserCall

end Senob.Syscalls
