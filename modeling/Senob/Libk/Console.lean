import Senob.Libk.Descriptors

/-!
# Console output

`kernel_write` of `stdiok.c`, and `write`, which hands the caller's bytes to it as a format
string. A run of the interpreter is recorded by the characters that reach `putc_kernel` and
by what it reads besides the format: words of the argument list, counted from the first one
behind `fmt`, and bytes of memory. The copy of the caller's bytes is taken to fit on the
kernel stack.
-/

namespace Senob.Libk

def ascii (c : Char) : Byte := BitVec.ofNat 8 c.toNat

/-- Something other than the format that is read. -/
inductive Read where
  | argument (i : Nat)
  | byte (a : Word)

/-- `PRINTF_STATE_*`. -/
inductive PrintfState where
  | start
  | length
  | short
  | long
  | spec

/-- `PRINTF_LENGTH_*`. -/
inductive PrintfLength where
  | start
  | shortShort
  | short
  | long
  | longLong
  deriving DecidableEq

/-- The variables of `kernel_write`, and what it has done so far. -/
structure Printf where
  state : PrintfState
  length : PrintfLength
  argp : Nat
  output : List Byte
  reads : List Read

namespace Printf

def initial : Printf := ⟨.start, .start, 0, [], []⟩

/-- Calls of `putc_kernel`. -/
def put (s : Printf) (chars : List Byte) : Printf := { s with output := s.output ++ chars }

def read (s : Printf) (reads : List Read) : Printf := { s with reads := s.reads ++ reads }

def advance (s : Printf) (words : Nat) : Printf := { s with argp := s.argp + words }

/-- The end of `PRINTF_STATE_SPEC_`. -/
def restart (s : Printf) : Printf := { s with state := .start, length := .start }

end Printf

section Interpreter

variable (memory : Word → Byte) (args : Nat → Word)

/-- The characters and the addresses that `puts_kernel` goes through; `none` when no byte
of the memory ends the string. -/
def putsKernel (s : Word) : Option (List Byte × List Read) := go (2 ^ 32) s
where
  go : Nat → Word → Option (List Byte × List Read)
    | 0, _ => none
    | rounds + 1, s =>
        if memory s = 0 then some ([], [.byte s])
        else (go rounds (s + 1)).map fun rest => (memory s :: rest.1, .byte s :: rest.2)

def possibleChars (rem : Word) : Byte :=
  if rem < 10 then ascii '0' + rem.setWidth 8 else ascii 'a' + (rem - 10).setWidth 8

/-- The `do` loop of `printf_number_kernel`, whose buffer has 32 places. -/
def numberDigits (radix : Word) : Nat → Word → List Byte
  | 0, _ => []
  | places + 1, number =>
      possibleChars (number % radix) ::
        if number / radix > 0 then numberDigits radix places (number / radix) else []

/-- The number that is printed and whether it gets a sign. -/
def printfNumber (length : PrintfLength) (argp : Nat) (sign : Bool) : Word × Bool :=
  if length = .longLong ∧ sign then
    let n := args (argp + 1) ++ args argp
    if n.slt 0 then ((-n).setWidth 32, true) else (n.setWidth 32, false)
  else
    let n := args argp
    if sign ∧ n.slt 0 then (-n, true) else (n, false)

/-- `printf_number_kernel`. -/
def printfNumberKernel (s : Printf) (sign : Bool) (radix : Word) : Printf :=
  let (number, negative) := printfNumber args s.length s.argp sign
  let digits := numberDigits radix 32 number
  let chars := (if negative then digits ++ [ascii '-'] else digits).reverse
  let words := match s.length with
    | .long => 2
    | .longLong => 4
    | _ => 1
  let slots := if s.length = .longLong ∧ sign then [s.argp, s.argp + 1] else [s.argp]
  ((s.read (slots.map .argument)).put chars).advance words

/-- What stands under the label `PRINTF_STATE_SPEC_`. -/
def specifier (c : Byte) (s : Printf) : Option Printf :=
  let value := args s.argp
  if c = ascii 'c' then
    some (((s.read [.argument s.argp]).put [value.setWidth 8]).advance 1).restart
  else if c = ascii 's' then
    let words := if s.length = .long ∨ s.length = .longLong then 2 else 1
    (putsKernel memory value).map fun string =>
      (((s.read (.argument s.argp :: string.2)).put string.1).advance words).restart
  else if c = ascii '%' then some (s.put [ascii '%']).restart
  else if c = ascii 'd' ∨ c = ascii 'i' then some (printfNumberKernel args s true 10).restart
  else if c = ascii 'u' then some (printfNumberKernel args s false 10).restart
  else if c = ascii 'X' ∨ c = ascii 'x' ∨ c = ascii 'p' then
    some (printfNumberKernel args s false 16).restart
  else if c = ascii 'o' then some (printfNumberKernel args s false 8).restart
  else some s.restart

/-- One round of the loop of `kernel_write`. -/
def formatChar (c : Byte) (s : Printf) : Option Printf :=
  match s.state with
  | .start => if c = ascii '%' then some { s with state := .length } else some (s.put [c])
  | .length =>
      if c = ascii 'h' then some { s with length := .short, state := .short }
      else if c = ascii 'l' then some { s with length := .long, state := .long }
      else specifier memory args c s
  | .short =>
      if c = ascii 'h' then some { s with length := .shortShort, state := .spec }
      else specifier memory args c s
  | .long =>
      if c = ascii 'l' then some { s with length := .longLong, state := .spec }
      else specifier memory args c s
  | .spec => specifier memory args c s

/-- `while (*fmt)`. -/
def formatLoop : List Byte → Printf → Option Printf
  | [], s => some s
  | c :: rest, s =>
      if c = 0 then some s else (formatChar memory args c s).bind (formatLoop rest)

def kernelWrite (fmt : List Byte) : Option Printf := formatLoop memory args fmt .initial

end Interpreter

def stdoutFileno : Int := 1

def stderrFileno : Int := 2

/-- What `write` leaves, and its `int` result. -/
structure WriteCall where
  files : Files
  output : List Byte
  reads : List Read
  result : Word

/-- The addresses of a buffer. -/
def bufferAddresses (buf len : Word) : List Word :=
  (List.range len.toNat).map fun i => buf + BitVec.ofNat 32 i

section Write

variable (memory : Word → Byte) (args : Nat → Word)

/-- `write`, with the result of `f_write` on a valid object and the number of bytes it
reports. What FatFs reads is not recorded. -/
def write (files : Files) (fd : Int) (buf len : Word) (fatfs : FResult) (bw : Word) :
    Option WriteCall :=
  if buf = 0 then some ⟨files.setErrno .einval, [], [], -1⟩
  else if fd = stdoutFileno ∨ fd = stderrFileno then
    let tempBuf := (bufferAddresses buf len).map memory ++ [0]
    (kernelWrite memory args tempBuf).map fun s =>
      ⟨files, s.output, (bufferAddresses buf len).map .byte ++ s.reads, len⟩
  else
    match files.slot fd with
    | none => some ⟨files.setErrno .ebadf, [], [], -1⟩
    | some fil =>
        let res := if files.valid fil then fatfs else .invalidObject
        if res = .ok then some ⟨files, [], [], bw⟩
        else some ⟨files.setErrno (mapFresultToErrno res), [], [], -1⟩

/-- `syscall_3_write`, with its arguments in `ebx`, `ecx` and `edx`; the result is left in
`eax`. -/
def syscall3Write (files : Files) (ebx ecx edx : Word) (fatfs : FResult) (bw : Word) :
    Option WriteCall :=
  write memory args files ebx.toInt ecx edx fatfs bw

/-- The call returns, having passed exactly the bytes of the buffer to the console, reports
its length and has read nothing outside of it. -/
def Transparent (buf len : Word) (call : Option WriteCall) : Prop :=
  ∃ r, call = some r ∧ r.output = (bufferAddresses buf len).map memory ∧ r.result = len ∧
    ∀ read ∈ r.reads, ∃ a ∈ bufferAddresses buf len, read = .byte a

/-- The buffer is not `NULL`, and none of its bytes means anything to `kernel_write`. -/
def Plain (buf len : Word) : Prop :=
  buf ≠ 0 ∧ ∀ a ∈ bufferAddresses buf len, memory a ≠ 0 ∧ memory a ≠ ascii '%'

end Write

/-! ## Formats that read no argument -/

namespace Printf

/-- No word of the argument list was read. -/
def Quiet (s : Printf) : Prop := ∀ i, .argument i ∉ s.reads

@[simp] theorem restart_reads (s : Printf) : s.restart.reads = s.reads := rfl

@[simp] theorem restart_output (s : Printf) : s.restart.output = s.output := rfl

@[simp] theorem put_reads (s : Printf) (chars : List Byte) : (s.put chars).reads = s.reads := rfl

@[simp] theorem put_output (s : Printf) (chars : List Byte) :
    (s.put chars).output = s.output ++ chars := rfl

@[simp] theorem put_state (s : Printf) (chars : List Byte) : (s.put chars).state = s.state := rfl

@[simp] theorem read_reads (s : Printf) (reads : List Read) :
    (s.read reads).reads = s.reads ++ reads := rfl

@[simp] theorem advance_reads (s : Printf) (words : Nat) : (s.advance words).reads = s.reads := rfl

theorem not_quiet_of_mem {s : Printf} {i : Nat} (h : .argument i ∈ s.reads) : ¬ s.Quiet :=
  fun hquiet => hquiet i h

/-- The second state is reached from the first by one character that put out at most one,
without reading an argument. -/
structure Spent (s t : Printf) : Prop where
  reads : t.reads = s.reads
  output : t.output.length ≤ s.output.length + 1

end Printf

section Loop

open Printf

variable {memory : Word → Byte} {args : Nat → Word}

theorem printfNumberKernel_not_quiet (s : Printf) (sign : Bool) (radix : Word) :
    ¬ (printfNumberKernel args s sign radix).restart.Quiet := by
  refine not_quiet_of_mem (i := s.argp) ?_
  simp only [printfNumberKernel, restart_reads, advance_reads, put_reads, read_reads]
  split <;> simp

/-- A specifier that reads no argument puts out at most one character. -/
theorem specifier_spent {c : Byte} {s t : Printf} (h : specifier memory args c s = some t)
    (hquiet : t.Quiet) : s.Spent t := by
  unfold specifier at h
  dsimp only at h
  split at h
  next _ =>
    obtain rfl := Option.some.inj h
    exact absurd hquiet (not_quiet_of_mem (i := s.argp) (by simp))
  split at h
  next _ =>
    obtain ⟨string, -, rfl⟩ := Option.map_eq_some_iff.mp h
    exact absurd hquiet (not_quiet_of_mem (i := s.argp) (by simp))
  split at h
  next _ =>
    obtain rfl := Option.some.inj h
    exact ⟨rfl, by simp⟩
  split at h
  next _ =>
    obtain rfl := Option.some.inj h
    exact absurd hquiet (printfNumberKernel_not_quiet s true 10)
  split at h
  next _ =>
    obtain rfl := Option.some.inj h
    exact absurd hquiet (printfNumberKernel_not_quiet s false 10)
  split at h
  next _ =>
    obtain rfl := Option.some.inj h
    exact absurd hquiet (printfNumberKernel_not_quiet s false 16)
  split at h
  next _ =>
    obtain rfl := Option.some.inj h
    exact absurd hquiet (printfNumberKernel_not_quiet s false 8)
  next _ =>
    obtain rfl := Option.some.inj h
    exact ⟨rfl, by simp⟩

theorem formatChar_spent {c : Byte} {s t : Printf} (h : formatChar memory args c s = some t)
    (hquiet : t.Quiet) : s.Spent t := by
  unfold formatChar at h
  split at h
  next _ =>
    split at h
    next _ =>
      obtain rfl := Option.some.inj h
      exact ⟨rfl, by simp⟩
    next _ =>
      obtain rfl := Option.some.inj h
      exact ⟨rfl, by simp⟩
  next _ =>
    split at h
    next _ =>
      obtain rfl := Option.some.inj h
      exact ⟨rfl, by simp⟩
    split at h
    next _ =>
      obtain rfl := Option.some.inj h
      exact ⟨rfl, by simp⟩
    next _ => exact specifier_spent h hquiet
  next _ =>
    split at h
    next _ =>
      obtain rfl := Option.some.inj h
      exact ⟨rfl, by simp⟩
    next _ => exact specifier_spent h hquiet
  next _ =>
    split at h
    next _ =>
      obtain rfl := Option.some.inj h
      exact ⟨rfl, by simp⟩
    next _ => exact specifier_spent h hquiet
  next _ => exact specifier_spent h hquiet

/-- A format that reads no argument puts out at most as many characters as it has. -/
theorem formatLoop_length {bytes : List Byte} {s t : Printf}
    (h : formatLoop memory args (bytes ++ [0]) s = some t) (hquiet : t.Quiet) :
    t.reads = s.reads ∧ t.output.length ≤ s.output.length + bytes.length := by
  induction bytes generalizing s with
  | nil =>
      obtain rfl : s = t := by simpa [formatLoop] using h
      exact ⟨rfl, by simp⟩
  | cons c rest ih =>
      simp only [List.cons_append, formatLoop] at h
      split at h
      next _ =>
        obtain rfl := Option.some.inj h
        exact ⟨rfl, by simp⟩
      next _ =>
        obtain ⟨u, hu, hrest⟩ := Option.bind_eq_some_iff.mp h
        obtain ⟨hreads, hlength⟩ := ih hrest
        have hspent : s.Spent u := formatChar_spent hu fun i hi => hquiet i (hreads ▸ hi)
        refine ⟨hreads.trans hspent.reads, ?_⟩
        have hround := hspent.output
        rw [List.length_cons]
        omega

/-- If one of the bytes ends the format or starts a directive, something is missing. -/
theorem formatLoop_length_lt {bytes : List Byte} {s t : Printf} (hstart : s.state = .start)
    (hbyte : ∃ c ∈ bytes, c = 0 ∨ c = ascii '%')
    (h : formatLoop memory args (bytes ++ [0]) s = some t) (hquiet : t.Quiet) :
    t.output.length < s.output.length + bytes.length := by
  induction bytes generalizing s with
  | nil => simp at hbyte
  | cons c rest ih =>
      simp only [List.cons_append, formatLoop] at h
      split at h
      next _ =>
        obtain rfl := Option.some.inj h
        simp
      next hzero =>
        obtain ⟨u, hu, hrest⟩ := Option.bind_eq_some_iff.mp h
        simp only [formatChar, hstart] at hu
        rw [List.length_cons]
        split at hu
        next _ =>
          -- The percent sign itself is not put out.
          obtain rfl := Option.some.inj hu
          have hlength : t.output.length ≤ s.output.length + rest.length :=
            (formatLoop_length hrest hquiet).2
          omega
        next hpercent =>
          obtain rfl := Option.some.inj hu
          obtain ⟨d, hd, hbad⟩ := hbyte
          have hd_rest : d ∈ rest := by
            rcases List.mem_cons.mp hd with rfl | hd
            · exact absurd hbad (not_or.mpr ⟨hzero, hpercent⟩)
            · exact hd
          have hlength := ih (s := s.put [c]) hstart ⟨d, hd_rest, hbad⟩ hrest
          simp only [put_output, List.length_append, List.length_singleton] at hlength
          omega

/-- Other bytes are put out one by one. -/
theorem formatLoop_plain {bytes : List Byte} {s : Printf} (hstart : s.state = .start)
    (hplain : ∀ c ∈ bytes, c ≠ 0 ∧ c ≠ ascii '%') :
    formatLoop memory args (bytes ++ [0]) s = some (s.put bytes) := by
  induction bytes generalizing s with
  | nil => simp [formatLoop, put]
  | cons c rest ih =>
      obtain ⟨hzero, hpercent⟩ := hplain c (by simp)
      have hround : formatChar memory args c s = some (s.put [c]) := by
        simp only [formatChar, hstart, hpercent, if_false]
      have hrest := ih (s := s.put [c]) hstart fun d hd => hplain d (by simp [hd])
      simp only [List.cons_append, formatLoop, hzero, if_false, hround, Option.bind_some, hrest]
      simp [put]

end Loop

/-! ## Transparency -/

section Transparency

variable (memory : Word → Byte) (args : Nat → Word)

/-- Writing to one of the console descriptors is transparent exactly for plain buffers. -/
theorem write_transparent_iff (files : Files) {fd : Int} (buf len : Word) (fatfs : FResult)
    (bw : Word) (hfd : fd = stdoutFileno ∨ fd = stderrFileno) :
    Transparent memory buf len (write memory args files fd buf len fatfs bw) ↔
      Plain memory buf len := by
  by_cases hnull : buf = 0
  · refine iff_of_false ?_ fun hplain => hplain.1 hnull
    rintro ⟨r, hcall, houtput, hresult, -⟩
    rw [write, if_pos hnull] at hcall
    obtain rfl := Option.some.inj hcall
    have hlength := congrArg List.length houtput
    subst hresult
    simp [bufferAddresses] at hlength
  · have hcall : write memory args files fd buf len fatfs bw =
        (kernelWrite memory args ((bufferAddresses buf len).map memory ++ [0])).map fun s =>
          ⟨files, s.output, (bufferAddresses buf len).map .byte ++ s.reads, len⟩ := by
      rw [write, if_neg hnull, if_pos hfd]
    rw [hcall]
    constructor
    · rintro ⟨r, hr, houtput, -, hreads⟩
      obtain ⟨t, ht, rfl⟩ := Option.map_eq_some_iff.mp hr
      refine ⟨hnull, fun a ha => ?_⟩
      by_contra hbad
      have hquiet : t.Quiet := by
        intro i hi
        obtain ⟨a, -, hread⟩ := hreads (.argument i) (List.mem_append_right _ hi)
        cases hread
      have hbyte : ∃ c ∈ (bufferAddresses buf len).map memory, c = 0 ∨ c = ascii '%' := by
        refine ⟨memory a, List.mem_map_of_mem ha, ?_⟩
        by_contra hplain
        exact hbad (not_or.mp hplain)
      -- A NUL or a directive costs a byte of the output.
      have hlt := formatLoop_length_lt rfl hbyte ht hquiet
      have houtput : t.output = (bufferAddresses buf len).map memory := houtput
      simp [houtput, Printf.initial] at hlt
    · rintro ⟨-, hplain⟩
      have hloop : kernelWrite memory args ((bufferAddresses buf len).map memory ++ [0]) =
          some (Printf.initial.put ((bufferAddresses buf len).map memory)) := by
        refine formatLoop_plain rfl fun c hc => ?_
        obtain ⟨a, ha, rfl⟩ := List.mem_map.mp hc
        exact hplain a ha
      rw [hloop]
      refine ⟨_, rfl, rfl, rfl, fun read hread => ?_⟩
      simp only [Printf.put_reads, Printf.initial, List.append_nil, List.mem_map] at hread
      obtain ⟨a, ha, rfl⟩ := hread
      exact ⟨a, ha, rfl⟩

/-- `write` to either console descriptor, and system call 3 with it, is transparent exactly
for the buffers without a NUL and without a percent sign. -/
theorem console_transparent_iff (files : Files) (buf len : Word) (fatfs : FResult) (bw : Word) :
    (Transparent memory buf len (write memory args files stdoutFileno buf len fatfs bw) ↔
      Plain memory buf len) ∧
    (Transparent memory buf len (write memory args files stderrFileno buf len fatfs bw) ↔
      Plain memory buf len) ∧
    (Transparent memory buf len (syscall3Write memory args files 1 buf len fatfs bw) ↔
      Plain memory buf len) ∧
    (Transparent memory buf len (syscall3Write memory args files 2 buf len fatfs bw) ↔
      Plain memory buf len) := by
  refine ⟨?_, ?_, ?_, ?_⟩
  · exact write_transparent_iff memory args files buf len fatfs bw (Or.inl rfl)
  · exact write_transparent_iff memory args files buf len fatfs bw (Or.inr rfl)
  · exact write_transparent_iff memory args files buf len fatfs bw (Or.inl rfl)
  · exact write_transparent_iff memory args files buf len fatfs bw (Or.inr rfl)

/-- Two percent signs come out as one. -/
theorem write_not_transparent :
    ¬ ∀ (memory : Word → Byte) (args : Nat → Word) (files : Files) (buf len : Word)
        (fatfs : FResult) (bw : Word),
      buf ≠ 0 → Transparent memory buf len (write memory args files 1 buf len fatfs bw) := by
  intro hclaim
  obtain ⟨r, hcall, houtput, -⟩ :=
    hclaim (fun _ => ascii '%') (fun _ => 0) Files.initial 0x00400000 2 .ok 0 (by decide)
  obtain rfl := Option.some.inj hcall
  exact absurd houtput (by decide)

end Transparency

end Senob.Libk
