import Senob.Sys.InterruptReturn

/-!
# The routine `switchTask`

`thread.s`, instruction by instruction. It changes the page directory first, so that every
later access goes through the address space of the next thread, and it pushes the words for
`iret` on the stack of that thread. A user thread gets its saved registers; for a thread of the
kernel `iret` takes only three of the five words. These are the registers that the scheduler's
model counts on. The selectors are taken to pass the checks of the CPU.
-/

namespace Senob.Sys

open Senob.Foundation

/-- The instructions of `switchTask`. The offsets are into `struct regs`. -/
inductive SwitchInstr where
  | movEsiArgument
  | movEax (offset : Word)
  | subEax (v : Word)
  | movCr3Eax
  | movSegEax (r : SegmentRegister)
  | movEbx (offset : Word)
  | movEcx (offset : Word)
  | movEdx (offset : Word)
  | movEdi (offset : Word)
  | movEbp (offset : Word)
  | movEsp (offset : Word)
  | push (offset : Word)
  | iret

open SwitchInstr in
def switchTaskCode : List SwitchInstr :=
  [movEsiArgument,
    movEax 60, subEax 0xC0000000, movCr3Eax,
    movEax 44, movSegEax .ds, movEax 48, movSegEax .es,
    movEax 52, movSegEax .fs, movEax 56, movSegEax .gs,
    movEax 0, movEbx 4, movEcx 8, movEdx 12, movEdi 24, movEbp 20,
    movEsp 16, push 40, push 16, push 32, push 36, push 28,
    iret]

/-- The `struct regs` at an address. -/
def regsAt (m : ByteMemory) (a : Word) : Regs where
  eax := m.load a
  ebx := m.load (a + 4)
  ecx := m.load (a + 8)
  edx := m.load (a + 12)
  esp := m.load (a + 16)
  ebp := m.load (a + 20)
  edi := m.load (a + 24)
  eip := m.load (a + 28)
  eflags := m.load (a + 32)
  cs := m.load (a + 36)
  ss := m.load (a + 40)
  ds := m.load (a + 44)
  es := m.load (a + 48)
  fs := m.load (a + 52)
  gs := m.load (a + 56)
  cr3 := m.load (a + 60)

namespace SwitchTask

/-- A processor with its page directory. -/
structure State where
  processor : Processor
  cr3 : Word

/-- The memory that a page directory shows. -/
abbrev Views := Word → ByteMemory

variable (views : Views)

/-- The word at an offset from `esi`. -/
def field (s : Processor) (offset : Word) : Word := s.memory.load (s.esi + offset)

def step (s : State) : SwitchInstr → State
  | .movEsiArgument => { s with processor.esi := s.processor.top 4 }
  | .movEax offset => { s with processor.eax := field s.processor offset }
  | .subEax v => { s with processor.eax := s.processor.eax - v }
  | .movCr3Eax => { s with processor.memory := views s.processor.eax, cr3 := s.processor.eax }
  | .movSegEax r => { s with processor := s.processor.setSeg (s.processor.eax.setWidth 16) r }
  | .movEbx offset => { s with processor.ebx := field s.processor offset }
  | .movEcx offset => { s with processor.ecx := field s.processor offset }
  | .movEdx offset => { s with processor.edx := field s.processor offset }
  | .movEdi offset => { s with processor.edi := field s.processor offset }
  | .movEbp offset => { s with processor.ebp := field s.processor offset }
  | .movEsp offset => { s with processor.esp := field s.processor offset }
  | .push offset => { s with processor := s.processor.push (field s.processor offset) }
  | .iret => { s with processor := s.processor.iret }

def exec (code : List SwitchInstr) (s : State) : State := code.foldl (step views) s

/-- What a thread with the saved registers `r` at the address `a` goes on with, when the routine
was called in `s`. Its register `esi` is not saved and holds the address. -/
structure Restores (s t : State) (a : Word) (r : Regs) : Prop where
  eax : t.processor.eax = r.eax
  ebx : t.processor.ebx = r.ebx
  ecx : t.processor.ecx = r.ecx
  edx : t.processor.edx = r.edx
  esi : t.processor.esi = a
  edi : t.processor.edi = r.edi
  ebp : t.processor.ebp = r.ebp
  eip : t.processor.eip = r.eip
  eflags : t.processor.eflags = r.eflags
  cs : t.processor.cs = r.cs.setWidth 16
  ds : t.processor.ds = r.ds.setWidth 16
  es : t.processor.es = r.es.setWidth 16
  fs : t.processor.fs = r.fs.setWidth 16
  gs : t.processor.gs = r.gs.setWidth 16
  cr3 : t.cr3 = r.cr3 - 0xC0000000
  user : privilege r.cs ≠ 0 →
    t.processor.esp = r.esp ∧ t.processor.ss = r.ss.setWidth 16
  -- `iret` leaves the words for `esp` and `ss` where they are
  kernel : privilege r.cs = 0 →
    t.processor.esp = r.esp - 8 ∧ t.processor.ss = s.processor.ss

/-- The processor has these registers. -/
structure Loaded (s : State) (c : Context) : Prop where
  eax : s.processor.eax = c.eax
  ebx : s.processor.ebx = c.ebx
  ecx : s.processor.ecx = c.ecx
  edx : s.processor.edx = c.edx
  esi : s.processor.esi = c.esi
  edi : s.processor.edi = c.edi
  ebp : s.processor.ebp = c.ebp
  esp : s.processor.esp = c.esp
  eip : s.processor.eip = c.eip
  eflags : s.processor.eflags = c.eflags
  cs : s.processor.cs = c.cs.setWidth 16
  ss : s.processor.ss = c.ss.setWidth 16
  ds : s.processor.ds = c.ds.setWidth 16
  es : s.processor.es = c.es.setWidth 16
  fs : s.processor.fs = c.fs.setWidth 16
  gs : s.processor.gs = c.gs.setWidth 16
  cr3 : s.cr3 = c.cr3

/-- The structure lies in memory that both address spaces show, and not where the next thread
would push. -/
structure Placed (s : State) (a : Word) (r : Regs) : Prop where
  argument : s.processor.top 4 = a
  here : regsAt s.processor.memory a = r
  there : regsAt (views (r.cr3 - 0xC0000000)) a = r
  apart : 20 ≤ (a - (r.esp - 20)).toNat ∧ (a - (r.esp - 20)).toNat + 64 ≤ 2 ^ 32

theorem exec_append (is js : List SwitchInstr) (s : State) :
    exec views (is ++ js) s = exec views js (exec views is s) := List.foldl_append

/-- The instructions that load registers. -/
def loads : List SwitchInstr :=
  [.movEsiArgument, .movEax 60, .subEax 0xC0000000, .movCr3Eax,
    .movEax 44, .movSegEax .ds, .movEax 48, .movSegEax .es,
    .movEax 52, .movSegEax .fs, .movEax 56, .movSegEax .gs,
    .movEax 0, .movEbx 4, .movEcx 8, .movEdx 12, .movEdi 24, .movEbp 20, .movEsp 16]

/-- The processor after the instructions that load registers. -/
def loaded (a : Word) (r : Regs) (s : State) : State where
  processor := {
    eax := r.eax
    ebx := r.ebx
    ecx := r.ecx
    edx := r.edx
    esi := a
    edi := r.edi
    ebp := r.ebp
    esp := r.esp
    eip := s.processor.eip
    eflags := s.processor.eflags
    cs := s.processor.cs
    ss := s.processor.ss
    ds := r.ds.setWidth 16
    es := r.es.setWidth 16
    fs := r.fs.setWidth 16
    gs := r.gs.setWidth 16
    cr2 := s.processor.cr2
    memory := views (r.cr3 - 0xC0000000) }
  cr3 := r.cr3 - 0xC0000000

variable {views}

theorem exec_loads {s : State} {a : Word} {r : Regs} (h : Placed views s a r) :
    exec views loads s = loaded views a r s := by
  have hcr3 : s.processor.memory.load (a + 60) = r.cr3 := congrArg Regs.cr3 h.here
  have hthere := h.there
  simp only [exec, loads, List.foldl_cons, List.foldl_nil, step, field, Processor.setSeg,
    h.argument, hcr3, add_zero, loaded]
  generalize views (r.cr3 - 0xC0000000) = m at hthere ⊢
  subst hthere
  rfl

/-- The structure is still read after some of the words were pushed. -/
theorem field_pushAll {a : Word} {r : Regs} {s : State} (h : Placed views s a r)
    {ws : List Word} (hws : ws.length ≤ 5) {offset : Word} (hoffset : offset.toNat ≤ 60) :
    field ((loaded views a r s).processor.pushAll ws) offset =
      (views (r.cr3 - 0xC0000000)).load (a + offset) := by
  obtain ⟨hafter, hroom⟩ := h.apart
  have hdistance : (a + offset - (r.esp - BitVec.ofNat 32 (4 * ws.length))).toNat + 20 =
      (a - (r.esp - 20)).toNat + offset.toNat + 4 * ws.length := by
    have hlength : (BitVec.ofNat 32 (4 * ws.length)).toNat = 4 * ws.length := by
      rw [BitVec.toNat_ofNat]
      omega
    generalize BitVec.ofNat 32 (4 * ws.length) = n at hlength
    bv_omega
  have hbelow : 4 * ws.length ≤
      (a + offset - (r.esp - BitVec.ofNat 32 (4 * ws.length))).toNat := by omega
  have habove : (a + offset - (r.esp - BitVec.ofNat 32 (4 * ws.length))).toNat + 4 ≤ 2 ^ 32 := by
    omega
  exact ByteMemory.load_pushAll_of_apart hbelow habove

def State.pushAll (s : State) (ws : List Word) : State :=
  { s with processor := s.processor.pushAll ws }

theorem step_push {a : Word} {r : Regs} {s : State} (h : Placed views s a r) {ws : List Word}
    (hws : ws.length ≤ 5) {offset : Word} (hoffset : offset.toNat ≤ 60) :
    step views ((loaded views a r s).pushAll ws) (.push offset) =
      (loaded views a r s).pushAll (ws ++ [(views (r.cr3 - 0xC0000000)).load (a + offset)]) := by
  simp only [State.pushAll, step]
  rw [field_pushAll h hws hoffset, Processor.push_eq, Processor.pushAll_pushAll]

def pushes : List SwitchInstr := [.push 40, .push 16, .push 32, .push 36, .push 28]

/-- The five pushes leave what `iret` expects. -/
theorem exec_pushes {a : Word} {r : Regs} {s : State} (h : Placed views s a r) :
    exec views pushes (loaded views a r s) =
      (loaded views a r s).pushAll [r.ss, r.esp, r.eflags, r.cs, r.eip] := by
  have hstart : loaded views a r s = (loaded views a r s).pushAll [] := by
    simp [State.pushAll, Processor.pushAll, ByteMemory.pushAll]
  have hss := congrArg Regs.ss h.there
  have hesp := congrArg Regs.esp h.there
  have heflags := congrArg Regs.eflags h.there
  have hcs := congrArg Regs.cs h.there
  have heip := congrArg Regs.eip h.there
  simp only [regsAt] at hss hesp heflags hcs heip
  rw [hstart]
  simp only [exec, pushes, List.foldl_cons, List.foldl_nil]
  rw [step_push h (by simp) (by decide), step_push h (by simp) (by decide),
    step_push h (by simp) (by decide), step_push h (by simp) (by decide),
    step_push h (by simp) (by decide), hss, hesp, heflags, hcs, heip]
  simp [State.pushAll, Processor.pushAll_pushAll]

/-- What `iret` finds on the stack. -/
theorem top_pushed (views : Views) (a : Word) (r : Regs) (s : State) :
    let t := ((loaded views a r s).pushAll [r.ss, r.esp, r.eflags, r.cs, r.eip]).processor
    t.top 0 = r.eip ∧ t.top 4 = r.cs ∧ t.top 8 = r.eflags ∧ t.top 12 = r.esp ∧
      t.top 16 = r.ss := by
  have hrow := ByteMemory.Holds.pushAll [r.ss, r.esp, r.eflags, r.cs, r.eip]
    (ByteMemory.holds_nil : (views (r.cr3 - 0xC0000000)).Holds r.esp []) (by simp)
  obtain ⟨heip, hcs, heflags, hesp, hss, -⟩ := hrow
  simp only [add_assoc] at hcs heflags hesp hss
  exact ⟨by simpa [Processor.top, State.pushAll, Processor.pushAll, loaded] using heip,
    hcs, heflags, hesp, hss⟩

/-- `switchTask` ends with the saved registers, and writes nothing but the five words below the
stack pointer of the next thread. -/
theorem exec_switchTaskCode (s : State) (a : Word) (r : Regs) (h : Placed views s a r) :
    Restores s (exec views switchTaskCode s) a r ∧
      (exec views switchTaskCode s).processor.memory =
        (views (r.cr3 - 0xC0000000)).pushAll r.esp [r.ss, r.esp, r.eflags, r.cs, r.eip] := by
  have hcode : switchTaskCode = loads ++ (pushes ++ [.iret]) := rfl
  have hrun : exec views switchTaskCode s =
      step views ((loaded views a r s).pushAll [r.ss, r.esp, r.eflags, r.cs, r.eip]) .iret := by
    rw [hcode, exec_append, exec_append, exec_loads h, exec_pushes h]
    rfl
  obtain ⟨heip, hcs, heflags, hesp, hss⟩ := top_pushed views a r s
  rw [hrun]
  generalize hpushed : (loaded views a r s).pushAll [r.ss, r.esp, r.eflags, r.cs, r.eip] = t at *
  have ht : t.processor.esp = r.esp - 20 := by rw [← hpushed]; rfl
  have hstack : t.processor.ss = s.processor.ss := by rw [← hpushed]; rfl
  refine ⟨?_, by rw [← hpushed]; rfl⟩
  have hreturn : r.esp - 20 + 12 = r.esp - 8 := by bv_omega
  simp only [step, Processor.iret, heip, hcs, heflags, hesp, hss, ht, hreturn, hstack]
  subst hpushed
  constructor
  case user => exact fun houter => ⟨if_pos houter, if_pos houter⟩
  case kernel => exact fun hinner => ⟨if_neg (not_not.mpr hinner), if_neg (not_not.mpr hinner)⟩
  all_goals rfl

/-- These are the registers of the scheduler's model, when the kernel calls the routine. -/
theorem Restores.loaded {s t : State} {a : Word} {r : Regs} (h : Restores s t a r)
    (hkernel : s.processor.ss = 0x10) : Loaded t (switchTask a.toNat r) where
  eax := h.eax
  ebx := h.ebx
  ecx := h.ecx
  edx := h.edx
  esi := by simp [switchTask, h.esi]
  edi := h.edi
  ebp := h.ebp
  esp := by
    by_cases hring : privilege r.cs ≠ 0
    · simp only [switchTask, if_pos hring, (h.user hring).1]
    · simp only [switchTask, if_neg hring, (h.kernel (not_not.mp hring)).1]
  eip := h.eip
  eflags := h.eflags
  cs := h.cs
  ss := by
    by_cases hring : privilege r.cs ≠ 0
    · simp only [switchTask, if_pos hring, (h.user hring).2]
    · have hsame : (switchTask a.toNat r).ss = 0x10 := if_neg hring
      rw [(h.kernel (not_not.mp hring)).2, hkernel, hsame]
      rfl
  ds := h.ds
  es := h.es
  fs := h.fs
  gs := h.gs
  cr3 := h.cr3

/-- The registers of a user thread. -/
def exampleRegs : Regs where
  eax := 0
  ebx := 0
  ecx := 0
  edx := 0
  esp := 0xAFFFFFFC
  ebp := 0
  edi := 0
  eip := 0x00400000
  eflags := 0x202
  cs := 0x1B
  ss := 0x23
  ds := 0x23
  es := 0x23
  fs := 0x23
  gs := 0x23
  cr3 := 0xC0300000

/-- A memory with these registers at `0xD0000100`, and their address on the kernel stack. -/
def exampleMemory : ByteMemory :=
  (ByteMemory.pushAll (fun _ => 0) 0xD0000140 [0xC0300000, 0x23, 0x23, 0x23, 0x23, 0x23, 0x1B,
    0x202, 0x00400000, 0, 0, 0xAFFFFFFC, 0, 0, 0, 0]).store 0xC0400004 0xD0000100

def exampleState : State where
  processor := { Processor.userExample with
    esp := 0xC0400000
    cs := 0x08
    ss := 0x10
    memory := exampleMemory }
  cr3 := 0x00101000

theorem exec_exampleState :
    Restores exampleState (exec (fun _ => exampleMemory) switchTaskCode exampleState) 0xD0000100
        exampleRegs ∧
      (exec (fun _ => exampleMemory) switchTaskCode exampleState).processor.memory =
        exampleMemory.pushAll 0xAFFFFFFC [0x23, 0xAFFFFFFC, 0x202, 0x1B, 0x00400000] :=
  exec_switchTaskCode exampleState 0xD0000100 exampleRegs ⟨rfl, rfl, rfl, by decide⟩

end SwitchTask

end Senob.Sys
