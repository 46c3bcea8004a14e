import Senob.Sys.InterruptEntry

/-!
# Returning from an interrupt

The stubs are executed once for all vectors, handlers and states. A C function finds the
interrupted registers in the structure that it is given, and the CPU goes on with the
registers that are in the structure when the function returns.
-/

namespace Senob.Sys

open Senob.Foundation

theorem frameAt_eq_of_holds {m : ByteMemory} {a : Word} {r : InterruptRegisters}
    (h : m.Holds a r.words) : frameAt m a = r := by
  cases r
  simp only [InterruptRegisters.words, ByteMemory.Holds, add_assoc] at h
  simpa [frameAt] using h

namespace Stub

open StubInstr SegmentRegister

/-- The instructions of a macro before the jump to the common stub. -/
def saveNumber : Stub → List StubInstr
  | isr n =>
      if (isr n).TakesErrorCode then [cli, push (BitVec.ofNat 32 n)]
      else [cli, push 0, push (BitVec.ofNat 32 n)]
  | irq n => [cli, push 2, push (BitVec.ofNat 32 (irq n).number)]

/-- The instructions of a common stub before its call. -/
def saveRegisters : List StubInstr :=
  [pusha, movEaxDs, pushEax, movEaxCr2, pushEax,
    movAx 0x10, movSegAx ds, movSegAx es, movSegAx fs, movSegAx gs, pushEsp]

/-- The instructions after the call. -/
def restore : List StubInstr :=
  [addEsp 8, popEbx, movSegBx ds, movSegBx es, movSegBx fs, movSegBx gs,
    popa, addEsp 8, sti, iret]

theorem code_eq (stub : Stub) :
    stub.code = stub.saveNumber ++ (saveRegisters ++ call stub.target :: restore) := by
  cases stub with
  | isr n =>
      rw [code, saveNumber]
      split <;> rfl
  | irq n => rfl

end Stub

namespace Processor

variable {K : Type*} (returnAddress : Word)
  (calls : CFunction → Word → ByteMemory → K → Option (Returned K))

theorem exec_append (is js : List StubInstr) (s : Processor) (k : K) :
    exec returnAddress calls (is ++ js) s k =
      (exec returnAddress calls is s k).bind fun next =>
        exec returnAddress calls js next.1 next.2 := by
  induction is generalizing s k with
  | nil => rfl
  | cons i is ih =>
      rw [List.cons_append, exec, exec, Option.bind_assoc]
      exact Option.bind_congr fun next _ => ih next.1 next.2

/-- Where the structure that the stub builds begins. -/
def framePointer (s : Processor) (tss : TaskState) : Word := (s.switchStack tss).esp - 60

/-- The words that the CPU and the stub push above the argument of the C function. -/
def savedWords (s : Processor) (tss : TaskState) (error number : Word) : List Word :=
  [s.eflags, s.cs.setWidth 32, s.eip, error, number, s.eax, s.ecx, s.edx, s.ebx,
    (s.switchStack tss).esp - 20, s.ebp, s.esi, s.edi, s.ds.setWidth 32, s.cr2]

theorem pushAll_pushAll (s : Processor) (vs ws : List Word) :
    (s.pushAll vs).pushAll ws = s.pushAll (vs ++ ws) := by
  have hesp : s.esp - BitVec.ofNat 32 (4 * vs.length) - BitVec.ofNat 32 (4 * ws.length) =
      s.esp - BitVec.ofNat 32 (4 * (vs ++ ws).length) := by
    rw [List.length_append]
    bv_omega
  simp only [pushAll, ByteMemory.pushAll_append, hesp]

theorem push_eq (s : Processor) (v : Word) : s.push v = s.pushAll [v] := rfl

section Pushed

variable (s : Processor) (ws : List Word) (k : K)

theorem step_cli : step returnAddress calls (s.pushAll ws) k .cli =
    some (({ s with eflags := s.eflags &&& ~~~flagIF } : Processor).pushAll ws, k) := rfl

theorem step_push (v : Word) : step returnAddress calls (s.pushAll ws) k (.push v) =
    some (s.pushAll (ws ++ [v]), k) := by
  rw [step, push_eq, pushAll_pushAll]

theorem step_pusha : step returnAddress calls (s.pushAll ws) k .pusha =
    some (s.pushAll (ws ++ [s.eax, s.ecx, s.edx, s.ebx,
      s.esp - BitVec.ofNat 32 (4 * ws.length), s.ebp, s.esi, s.edi]), k) := by
  rw [step, pushAll_pushAll]
  rfl

theorem step_movEaxDs : step returnAddress calls (s.pushAll ws) k .movEaxDs =
    some (({ s with eax := s.ds.setWidth 32 } : Processor).pushAll ws, k) := rfl

theorem step_movEaxCr2 : step returnAddress calls (s.pushAll ws) k .movEaxCr2 =
    some (({ s with eax := s.cr2 } : Processor).pushAll ws, k) := rfl

theorem step_pushEax : step returnAddress calls (s.pushAll ws) k .pushEax =
    some (s.pushAll (ws ++ [s.eax]), k) := by
  rw [← step_push returnAddress calls]
  rfl

theorem step_movAx (v : BitVec 16) : step returnAddress calls (s.pushAll ws) k (.movAx v) =
    some (({ s with eax := s.eax.extractLsb' 16 16 ++ v } : Processor).pushAll ws, k) := rfl

theorem step_movSegAx (r : SegmentRegister) :
    step returnAddress calls (s.pushAll ws) k (.movSegAx r) =
      some ((s.setSeg (s.eax.setWidth 16) r).pushAll ws, k) := by
  cases r <;> rfl

theorem step_pushEsp : step returnAddress calls (s.pushAll ws) k .pushEsp =
    some (s.pushAll (ws ++ [s.esp - BitVec.ofNat 32 (4 * ws.length)]), k) := by
  rw [← step_push returnAddress calls]
  rfl

/-- The words that are pushed before the segments of the kernel are loaded. -/
theorem exec_pushRegisters :
    exec returnAddress calls [.pusha, .movEaxDs, .pushEax, .movEaxCr2, .pushEax] (s.pushAll ws) k =
      some (({ s with eax := s.cr2 } : Processor).pushAll (ws ++ [s.eax, s.ecx, s.edx, s.ebx,
        s.esp - BitVec.ofNat 32 (4 * ws.length), s.ebp, s.esi, s.edi, s.ds.setWidth 32, s.cr2]),
        k) := by
  simp only [exec, step_pusha, step_movEaxDs, step_movEaxCr2, step_pushEax, Option.bind_some,
    List.append_assoc, List.cons_append, List.nil_append]

/-- The segments of the kernel are loaded through `eax`. -/
def inKernel (s : Processor) : Processor :=
  { s with
    eax := s.cr2.extractLsb' 16 16 ++ 0x10#16
    ds := 0x10
    es := 0x10
    fs := 0x10
    gs := 0x10 }

theorem exec_loadSegments :
    exec returnAddress calls
        [.movAx 0x10, .movSegAx .ds, .movSegAx .es, .movSegAx .fs, .movSegAx .gs]
        (({ s with eax := s.cr2 } : Processor).pushAll ws) k =
      some (s.inKernel.pushAll ws, k) := by
  have hselector (v : BitVec 16) : (v ++ 0x10#16).setWidth 16 = 0x10#16 := by
    apply BitVec.eq_of_getLsbD_eq
    intro i hi
    simp only [BitVec.getLsbD_setWidth, BitVec.getLsbD_append]
    grind
  simp only [exec, step_movAx, step_movSegAx, Option.bind_some, setSeg]
  simp [inKernel, hselector]

theorem exec_saveRegisters : exec returnAddress calls Stub.saveRegisters (s.pushAll ws) k =
    some (s.inKernel.pushAll (ws ++ [s.eax, s.ecx, s.edx, s.ebx,
      s.esp - BitVec.ofNat 32 (4 * ws.length), s.ebp, s.esi, s.edi, s.ds.setWidth 32, s.cr2,
      s.esp - BitVec.ofNat 32 (4 * (ws.length + 10))]), k) := by
  have hcode : Stub.saveRegisters = [.pusha, .movEaxDs, .pushEax, .movEaxCr2, .pushEax] ++
      ([.movAx 0x10, .movSegAx .ds, .movSegAx .es, .movSegAx .fs, .movSegAx .gs] ++
        [.pushEsp]) := rfl
  rw [hcode, exec_append, exec_pushRegisters, Option.bind_some, exec_append, exec_loadSegments,
    Option.bind_some, exec, step_pushEsp, Option.bind_some, exec]
  simp [inKernel]

end Pushed

/-- The CPU pushes an error code exactly for the stubs that expect one. -/
theorem exec_saveNumber (stub : Stub) {error : Option Word}
    (herror : error.isSome ↔ stub.TakesErrorCode) (s : Processor) (ws : List Word) (k : K) :
    exec returnAddress calls stub.saveNumber (s.pushAll (ws ++ error.toList)) k =
      some (({ s with eflags := s.eflags &&& ~~~flagIF } : Processor).pushAll
        (ws ++ [stub.errCode error, BitVec.ofNat 32 stub.number]), k) := by
  cases stub with
  | irq n =>
      obtain rfl : error = none := by simpa [Stub.TakesErrorCode] using herror
      simp [Stub.saveNumber, exec, step_cli, step_push, Stub.errCode]
  | isr n =>
      by_cases htakes : (Stub.isr n).TakesErrorCode
      · obtain ⟨e, rfl⟩ := Option.isSome_iff_exists.mp (herror.mpr htakes)
        simp [Stub.saveNumber, htakes, exec, step_cli, step_push, Stub.errCode, Stub.number]
      · obtain rfl : error = none := by simpa [htakes] using herror
        simp [Stub.saveNumber, htakes, exec, step_cli, step_push, Stub.errCode, Stub.number]

/-- The stack that the C function is called with. -/
def called (s : Processor) (tss : TaskState) (stub : Stub) (error : Option Word) : Processor :=
  (s.switchStack tss).pushAll (s.savedWords tss (stub.errCode error) (BitVec.ofNat 32 stub.number)
    ++ [s.framePointer tss, returnAddress])

/-- The structure that the C function finds. The words `useresp` and `ss` are what lies above
the others: in an interrupt of the kernel, words of the interrupted stack. -/
def frame (s : Processor) (tss : TaskState) (stub : Stub) (error : Option Word) :
    InterruptRegisters where
  cr2 := s.cr2
  ds := s.ds.setWidth 32
  edi := s.edi
  esi := s.esi
  ebp := s.ebp
  esp := (s.switchStack tss).esp - 20
  ebx := s.ebx
  edx := s.edx
  ecx := s.ecx
  eax := s.eax
  interruptNumber := BitVec.ofNat 32 stub.number
  errCode := stub.errCode error
  eip := s.eip
  csm := s.cs.setWidth 32
  eflags := s.eflags
  useresp := (s.switchStack tss).top 0
  ss := (s.switchStack tss).top 4

theorem holds_called (s : Processor) (tss : TaskState) (stub : Stub) (error : Option Word) :
    (s.called returnAddress tss stub error).memory.Holds (s.framePointer tss - 8)
      ([returnAddress, s.framePointer tss] ++ (s.frame tss stub error).words) := by
  have hbelow : (s.switchStack tss).memory.Holds (s.switchStack tss).esp
      [(s.switchStack tss).top 0, (s.switchStack tss).top 4] := by
    simp [ByteMemory.Holds, top]
  have hall := hbelow.pushAll
    (s.savedWords tss (stub.errCode error) (BitVec.ofNat 32 stub.number)
      ++ [s.framePointer tss, returnAddress]) (by simp [savedWords])
  simpa [savedWords, called, pushAll, framePointer, sub_sub, frame, InterruptRegisters.words]
    using hall

/-- The registers with which the CPU goes on, when the C function leaves this structure and
the memory. -/
def resume (s : Processor) (tss : TaskState) (m : ByteMemory) (r : InterruptRegisters) :
    Processor where
  eax := r.eax
  ebx := r.ebx
  ecx := r.ecx
  edx := r.edx
  esi := r.esi
  edi := r.edi
  ebp := r.ebp
  esp := if privilege r.csm ≠ 0 then r.useresp else s.framePointer tss + 60
  eip := r.eip
  eflags := r.eflags
  cs := r.csm.setWidth 16
  ss := if privilege r.csm ≠ 0 then r.ss.setWidth 16 else (s.switchStack tss).ss
  ds := r.ds.setWidth 16
  es := r.ds.setWidth 16
  fs := r.ds.setWidth 16
  gs := r.ds.setWidth 16
  cr2 := s.cr2
  memory := m

theorem exec_restore (s : Processor) (k : K) :
    exec returnAddress calls Stub.restore s k =
      let r := frameAt s.memory (s.esp + 4)
      some ({
        eax := r.eax
        ebx := r.ebx
        ecx := r.ecx
        edx := r.edx
        esi := r.esi
        edi := r.edi
        ebp := r.ebp
        esp := if privilege r.csm ≠ 0 then r.useresp else s.esp + 64
        eip := r.eip
        eflags := r.eflags
        cs := r.csm.setWidth 16
        ss := if privilege r.csm ≠ 0 then r.ss.setWidth 16 else s.ss
        ds := r.ds.setWidth 16
        es := r.ds.setWidth 16
        fs := r.ds.setWidth 16
        gs := r.ds.setWidth 16
        cr2 := s.cr2
        memory := s.memory }, k) := by
  simp [Stub.restore, exec, step, setSeg, top, iret, frameAt, add_assoc]

theorem exists_switchStack (s : Processor) (tss : TaskState) : ∃ ss esp m,
    s.switchStack tss = { s with ss := ss, esp := esp, memory := m } := by
  unfold switchStack
  split
  · exact ⟨_, _, _, rfl⟩
  · exact ⟨s.ss, s.esp, s.memory, rfl⟩

/-- Where the stub stands when it calls the C function. -/
def atCall (s : Processor) (tss : TaskState) (handler : Word) (stub : Stub)
    (error : Option Word) : Processor :=
  ({ s.switchStack tss with
    eflags := s.eflags &&& ~~~flagIF &&& ~~~flagIF
    cs := 0x08
    eip := handler } : Processor).inKernel.pushAll
      (s.savedWords tss (stub.errCode error) (BitVec.ofNat 32 stub.number) ++
        [s.framePointer tss])

theorem exec_save (stub : Stub) (s : Processor) (tss : TaskState) (handler : Word)
    {error : Option Word} (herror : error.isSome ↔ stub.TakesErrorCode) (k : K) :
    exec returnAddress calls (stub.saveNumber ++ Stub.saveRegisters)
      (s.interrupt tss handler error) k = some (s.atCall tss handler stub error, k) := by
  obtain ⟨ss, esp, m, hstack⟩ := s.exists_switchStack tss
  have hentry : s.interrupt tss handler error =
      ({ s.switchStack tss with
        eflags := s.eflags &&& ~~~flagIF
        cs := 0x08
        eip := handler } : Processor).pushAll
        ([s.eflags, s.cs.setWidth 32, s.eip] ++ error.toList) := rfl
  rw [hentry, exec_append, exec_saveNumber returnAddress calls stub herror, Option.bind_some,
    exec_saveRegisters]
  simp [atCall, savedWords, framePointer, inKernel, hstack]

/-- A stub from the interrupt to the instruction after `iret`, for every C function. -/
theorem exec_code (stub : Stub) (s : Processor) (tss : TaskState) (handler : Word)
    {error : Option Word} (herror : error.isSome ↔ stub.TakesErrorCode) (k : K) :
    exec returnAddress calls stub.code (s.interrupt tss handler error) k =
      (calls stub.target (s.framePointer tss) (s.called returnAddress tss stub error).memory
        k).bind fun out =>
          if out.memory.load (s.framePointer tss - 8) = returnAddress then
            some (s.resume tss out.memory (frameAt out.memory (s.framePointer tss)), out.kernel)
          else none := by
  have hcalled : (s.atCall tss handler stub error).push returnAddress =
      { s.atCall tss handler stub error with
        esp := s.framePointer tss - 8
        memory := (s.called returnAddress tss stub error).memory } := by
    rw [push_eq, atCall, pushAll_pushAll]
    simp [pushAll, called, framePointer, savedWords, inKernel, sub_sub]
  have hargument : (s.called returnAddress tss stub error).memory.load (s.framePointer tss - 8 + 4)
      = s.framePointer tss := (s.holds_called returnAddress tss stub error).2.1
  have hesp : (s.atCall tss handler stub error).esp = s.framePointer tss - 4 := by
    simp [atCall, pushAll, framePointer, savedWords, inKernel, sub_sub]
  rw [Stub.code_eq, ← List.append_assoc, exec_append,
    exec_save returnAddress calls stub s tss handler herror, Option.bind_some, exec, step, callC]
  simp only [hcalled, top, hargument]
  change ((calls _ _ _ k).bind _).bind _ = _
  rw [Option.bind_assoc]
  refine Option.bind_congr fun out _ => ?_
  by_cases hslot : out.memory.load (s.framePointer tss - 8) = returnAddress
  · have hframe : s.framePointer tss - 4 + 4 = s.framePointer tss := by bv_omega
    have hcr2 : (s.atCall tss handler stub error).cr2 = s.cr2 := by
      obtain ⟨ss, esp, m, hstack⟩ := s.exists_switchStack tss
      simp [atCall, pushAll, inKernel, hstack]
    have hend : s.framePointer tss - 4 + 64 = s.framePointer tss + 60 := by bv_omega
    simp only [if_pos hslot, Option.bind_some, exec_restore, hesp, hframe, hcr2, hend]
    rfl
  · simp only [if_neg hslot, Option.bind_none]

theorem frameAt_called (s : Processor) (tss : TaskState) (stub : Stub) (error : Option Word) :
    frameAt (s.called returnAddress tss stub error).memory (s.framePointer tss) =
      s.frame tss stub error := by
  have hrow := ByteMemory.Holds.append_right (s.holds_called returnAddress tss stub error)
  have hstart : s.framePointer tss - 8 +
      BitVec.ofNat 32 (4 * [returnAddress, s.framePointer tss].length) = s.framePointer tss := by
    simp
  rw [hstart] at hrow
  exact frameAt_eq_of_holds hrow

/-- The number of words that are pushed up to the call. -/
def pushedWords (s : Processor) : Nat := if s.ring ≠ 0 then 19 else 17

theorem switchStack_of_outer {s : Processor} (h : s.ring ≠ 0) (tss : TaskState) :
    s.switchStack tss = ({ s with ss := tss.ss0, esp := tss.esp0 } : Processor).pushAll
      [s.ss.setWidth 32, s.esp] := if_pos h

theorem switchStack_of_inner {s : Processor} (h : s.ring = 0) (tss : TaskState) :
    s.switchStack tss = s := if_neg (not_not.mpr h)

/-- The entry of an interrupt writes nothing outside the words that it pushes. -/
theorem called_memory_of_le (s : Processor) (tss : TaskState) (stub : Stub)
    (error : Option Word) {a : Word}
    (h : 4 * s.pushedWords ≤ (a - (s.framePointer tss - 8)).toNat) :
    (s.called returnAddress tss stub error).memory a = s.memory a := by
  have hrow : 4 * 17 ≤ (a - ((s.switchStack tss).esp - BitVec.ofNat 32 (4 * 17))).toNat := by
    have hbottom : s.framePointer tss - 8 = (s.switchStack tss).esp - BitVec.ofNat 32 (4 * 17) := by
      simp [framePointer, sub_sub]
    rw [← hbottom]
    refine le_trans ?_ h
    unfold pushedWords
    split <;> decide
  have hinner : (s.called returnAddress tss stub error).memory a = (s.switchStack tss).memory a :=
    ByteMemory.pushAll_of_le (by simp [savedWords]) hrow
  rw [hinner]
  by_cases houter : s.ring ≠ 0
  · rw [framePointer, pushedWords, if_pos houter, switchStack_of_outer houter] at h
    rw [switchStack_of_outer houter]
    refine ByteMemory.pushAll_of_le (by simp) ?_
    simp only [pushAll, List.length_cons, List.length_nil] at h ⊢
    bv_omega
  · rw [switchStack_of_inner (not_not.mp houter)]

theorem frame_of_outer {s : Processor} (h : s.ring ≠ 0) (tss : TaskState) (stub : Stub)
    (error : Option Word) : (s.frame tss stub error).useresp = s.esp ∧
      (s.frame tss stub error).ss = s.ss.setWidth 32 := by
  have hrow : (s.switchStack tss).memory.Holds (s.switchStack tss).esp
      [s.esp, s.ss.setWidth 32] := by
    rw [switchStack_of_outer h]
    exact ByteMemory.Holds.pushAll [s.ss.setWidth 32, s.esp] ByteMemory.holds_nil (by simp)
  exact ⟨by simpa [frame, top] using hrow.1, hrow.2.1⟩

/-- A structure that was not changed brings everything back but the data segments other than
`ds`. -/
theorem resume_frame (s : Processor) (tss : TaskState) (stub : Stub) (error : Option Word)
    (m : ByteMemory) : s.resume tss m (s.frame tss stub error) =
      { s with es := s.ds, fs := s.ds, gs := s.ds, memory := m } := by
  by_cases houter : s.ring ≠ 0
  · obtain ⟨hesp, hss⟩ := frame_of_outer houter tss stub error
    have hprivilege : privilege (s.frame tss stub error).csm ≠ 0 := houter
    simp only [resume, hesp, hss, if_pos hprivilege]
    simp [frame]
  · have hinner := switchStack_of_inner (not_not.mp houter) tss
    have hprivilege : ¬ privilege (s.frame tss stub error).csm ≠ 0 := houter
    simp only [resume, if_neg hprivilege, framePointer, hinner, sub_add_cancel]
    simp [frame]

/-- For every stub, every cause that it is made for, every interrupted state in any ring and
every C function: the function is given the interrupted registers, nothing but the top of the
stack is written before it runs, and if it leaves the structure alone, the interrupted code goes
on as if nothing had happened, with `ds` in the other data segment registers. -/
theorem interrupt_roundTrip (stub : Stub) (cause : Cause) (hexpects : stub.Expects cause)
    (s : Processor) (tss : TaskState) (handler : Word) (k : K) :
    frameAt (s.called returnAddress tss stub (stub.error cause)).memory (s.framePointer tss) =
        s.frame tss stub (stub.error cause) ∧
      (∀ a, 4 * s.pushedWords ≤ (a - (s.framePointer tss - 8)).toNat →
        (s.called returnAddress tss stub (stub.error cause)).memory a = s.memory a) ∧
      ∀ out, calls stub.target (s.framePointer tss)
          (s.called returnAddress tss stub (stub.error cause)).memory k = some out →
        out.memory.load (s.framePointer tss - 8) = returnAddress →
        frameAt out.memory (s.framePointer tss) = s.frame tss stub (stub.error cause) →
        exec returnAddress calls stub.code (s.interrupt tss handler (stub.error cause)) k =
          some ({ s with es := s.ds, fs := s.ds, gs := s.ds, memory := out.memory },
            out.kernel) := by
  refine ⟨s.frameAt_called returnAddress tss stub _,
    fun a => s.called_memory_of_le returnAddress tss stub _, ?_⟩
  intro out hout hreturn hkept
  rw [exec_code returnAddress calls stub s tss handler ((stub.expects_iff cause).mp hexpects),
    hout, Option.bind_some, if_pos hreturn, hkept, resume_frame]

/-- What the stubs make of the exceptions that they are not made for: the structure lies one word
too low, and `isr_handler` finds the error code in `eip` and the interrupted `eip` in `csm`. -/
theorem frameAt_unexpected {n : Nat} {code : Word}
    (hn : ¬ (Stub.isr n).Expects (.exception code)) (s : Processor) (tss : TaskState)
    (handler : Word) (k : K) :
    ∃ t, exec returnAddress calls ((Stub.isr n).saveNumber ++ Stub.saveRegisters)
        (s.interrupt tss handler ((Stub.isr n).error (.exception code))) k = some (t, k) ∧
      (frameAt t.memory (t.esp + 4)).errCode = 0 ∧ (frameAt t.memory (t.esp + 4)).eip = code ∧
      (frameAt t.memory (t.esp + 4)).csm = s.eip := by
  obtain ⟨hpushes, htakes⟩ : (Stub.isr n).error (.exception code) = some code ∧
      ¬ (Stub.isr n).TakesErrorCode := by
    have hmem : n ∈ [17, 21, 29, 30] := not_not.mp hn
    obtain rfl | rfl | rfl | rfl : n = 17 ∨ n = 21 ∨ n = 29 ∨ n = 30 := by simpa using hmem
    all_goals exact ⟨rfl, by decide⟩
  have hentry : s.interrupt tss handler (some code) =
      ({ s.switchStack tss with
        eflags := s.eflags &&& ~~~flagIF
        cs := 0x08
        eip := handler } : Processor).pushAll
        ([s.eflags, s.cs.setWidth 32, s.eip, code] ++ (none : Option Word).toList) := rfl
  rw [hpushes, hentry, exec_append, exec_saveNumber returnAddress calls (.isr n)
    (by simpa using htakes), Option.bind_some, exec_saveRegisters]
  refine ⟨_, rfl, ?_⟩
  generalize ({ s.switchStack tss with
    eflags := s.eflags &&& ~~~flagIF &&& ~~~flagIF
    cs := 0x08
    eip := handler } : Processor) = u
  -- The words that are read lie above the registers, so their values do not matter.
  generalize u.esp - BitVec.ofNat 32 _ = old
  generalize u.esp - BitVec.ofNat 32 _ = pointer
  have hrow := ByteMemory.Holds.pushAll ([s.eflags, s.cs.setWidth 32, s.eip, code] ++
    [(Stub.isr n).errCode none, BitVec.ofNat 32 (Stub.isr n).number] ++ [u.eax, u.ecx, u.edx, u.ebx,
      old, u.ebp, u.esi, u.edi, u.ds.setWidth 32, u.cr2, pointer])
    (ByteMemory.holds_nil : u.inKernel.memory.Holds u.inKernel.esp []) (by simp)
  obtain ⟨-, -, -, -, -, -, -, -, -, -, -, -, hcode, heip, hcsm, -⟩ := hrow
  simp only [frameAt, pushAll, add_assoc] at hcode heip hcsm ⊢
  exact ⟨hcode, heip, hcsm⟩

/-- A processor in user mode, at the entry point of a program. -/
def userExample : Processor where
  eax := 0
  ebx := 0
  ecx := 0
  edx := 0
  esi := 0
  edi := 0
  ebp := 0
  esp := 0xAFFFFFFC
  eip := 0x00400000
  eflags := 0x202
  cs := 0x1B
  ss := 0x23
  ds := 0x23
  es := 0x23
  fs := 0x23
  gs := 0x23
  cr2 := 0
  memory := fun _ => 0

/-- A C function that only returns. -/
def keepAll (_f : CFunction) (_a : Word) (m : ByteMemory) (_k : Unit) : Option (Returned Unit) :=
  some ⟨m, 0, 0, 0, 0, ()⟩

theorem interrupt_roundTrip_userExample :
    exec 0xC0000000 keepAll (Stub.irq 32).code
        (userExample.interrupt ⟨0x10, 0xC0400000⟩ 0xC0100000 none) () =
      some ({ userExample with
        memory := (userExample.called 0xC0000000 ⟨0x10, 0xC0400000⟩ (.irq 32) none).memory }, ()) :=
  (interrupt_roundTrip 0xC0000000 keepAll (.irq 32) .request trivial userExample
    ⟨0x10, 0xC0400000⟩ 0xC0100000 ()).2.2 _ rfl (holds_called _ _ _ _ _).1
    (frameAt_called _ _ _ _ _)

/-- What the compiled function does is what the C code says of the structure that its argument
points to. It may leave anything below its return address. -/
def Implements (compiled : Word → ByteMemory → K → Option (Returned K))
    (code : InterruptRegisters → K → Option (InterruptRegisters × K)) : Prop :=
  ∀ a m k,
    match code (frameAt m a) k with
    | none => compiled a m k = none
    | some (r, k') => ∃ out, compiled a m k = some out ∧ frameAt out.memory a = r ∧
        out.memory.load (a - 8) = m.load (a - 8) ∧ out.kernel = k'

/-- The function that stores the whole structure. -/
def compile (code : InterruptRegisters → K → Option (InterruptRegisters × K)) (a : Word)
    (m : ByteMemory) (k : K) : Option (Returned K) :=
  (code (frameAt m a) k).map fun out =>
    { memory := m.pushAll (a + 68) out.1.words.reverse
      eax := 0
      ecx := 0
      edx := 0
      eflags := 0
      kernel := out.2 }

theorem implements_compile (code : InterruptRegisters → K → Option (InterruptRegisters × K)) :
    Implements (compile code) code := by
  intro a m k
  cases hrun : code (frameAt m a) k with
  | none => simp [compile, hrun]
  | some out =>
      obtain ⟨r, k'⟩ := out
      have hbottom : a + 68 - BitVec.ofNat 32 (4 * r.words.reverse.length) = a := by
        simp [InterruptRegisters.words]
      have hrow := ByteMemory.Holds.pushAll r.words.reverse
        (ByteMemory.holds_nil : m.Holds (a + 68) []) (by simp [InterruptRegisters.words])
      rw [hbottom, List.reverse_reverse, List.append_nil] at hrow
      have hslot : (m.pushAll (a + 68) r.words.reverse).load (a - 8) = m.load (a - 8) := by
        apply ByteMemory.load_congr
        intro i hi
        have hroom : 4 * r.words.reverse.length = 68 := by simp [InterruptRegisters.words]
        apply ByteMemory.pushAll_of_le
        · omega
        · rw [hbottom, hroom]
          bv_omega
      have hout := congrArg (Option.map fun out : InterruptRegisters × K =>
        { memory := m.pushAll (a + 68) out.1.words.reverse, eax := 0, ecx := 0, edx := 0,
          eflags := 0, kernel := out.2 : Returned K }) hrun
      exact ⟨_, hout, frameAt_eq_of_holds hrow, hslot, rfl⟩

/-- A stub around a C function resumes with the registers that the function stores. -/
theorem exec_of_implements {code : InterruptRegisters → K → Option (InterruptRegisters × K)}
    (stub : Stub) (hcode : Implements (calls stub.target) code) (s : Processor) (tss : TaskState)
    (handler : Word) {error : Option Word} (herror : error.isSome ↔ stub.TakesErrorCode) (k : K) :
    match code (s.frame tss stub error) k with
    | none => exec returnAddress calls stub.code (s.interrupt tss handler error) k = none
    | some (r, k') => ∃ m,
        exec returnAddress calls stub.code (s.interrupt tss handler error) k =
          some (s.resume tss m r, k') := by
  have hcall := hcode (s.framePointer tss) (s.called returnAddress tss stub error).memory k
  rw [frameAt_called] at hcall
  rw [exec_code returnAddress calls stub s tss handler herror]
  cases hrun : code (s.frame tss stub error) k with
  | none =>
      simp only [hrun] at hcall
      simp [hcall]
  | some result =>
      simp only [hrun] at hcall
      obtain ⟨out, hout, hframe, hslot, hkernel⟩ := hcall
      have hreturn := (s.holds_called returnAddress tss stub error).1
      refine ⟨out.memory, ?_⟩
      rw [hout, Option.bind_some, hslot, if_pos hreturn, hframe, hkernel]

end Processor

end Senob.Sys
