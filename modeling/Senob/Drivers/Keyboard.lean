import Senob.Foundation.RingBuffer
import Senob.Foundation.Run

/-!
# The keyboard

The interrupt handler of `keyboard.c` puts keys into a ring buffer, and readers take them out.
The calls are atomic, and `0` is the answer when no key is pending.
-/

namespace Senob.Drivers

open Senob.Foundation

abbrev Byte := BitVec 8
abbrev Word := BitVec 32

/-! ## Special keys -/

def unknown : Word := 0xFFFFFFE0
def esc : Word := 0xFFFFFFE1
def ctrl : Word := 0xFFFFFFE2
def lshft : Word := 0xFFFFFFE3
def rshft : Word := 0xFFFFFFE4
def alt : Word := 0xFFFFFFE5
def f1 : Word := 0xFFFFFFE6
def f2 : Word := 0xFFFFFFE7
def f3 : Word := 0xFFFFFFE8
def f4 : Word := 0xFFFFFFE9
def f5 : Word := 0xFFFFFFEA
def f6 : Word := 0xFFFFFFEB
def f7 : Word := 0xFFFFFFEC
def f8 : Word := 0xFFFFFFED
def f9 : Word := 0xFFFFFFEE
def f10 : Word := 0xFFFFFFEF
def f11 : Word := 0xFFFFFFF0
def f12 : Word := 0xFFFFFFF1
def scrlck : Word := 0xFFFFFFF2
def home : Word := 0xFFFFFFF3
def up : Word := 0xFFFFFFF4
def left : Word := 0xFFFFFFF5
def right : Word := 0xFFFFFFF6
def down : Word := 0xFFFFFFF7
def pgup : Word := 0xFFFFFFF8
def pgdown : Word := 0xFFFFFFF9
def keyEnd : Word := 0xFFFFFFFA
def ins : Word := 0xFFFFFFFB
def del : Word := 0xFFFFFFFC
def caps : Word := 0xFFFFFFFD
def numlck : Word := 0xFFFFFFC0
def backspace : Word := 0xFFFFFFBF

def apostrophe : Word := 0x27
def quotationMark : Word := 0x22
def graveAccent : Word := 0x60

def keyBufferSize : Nat := 128

/-- A character constant. In UTF-8 an umlaut is two characters, and the constant has a byte for
each. -/
def char (c : Char) : Word :=
  if c.toNat < 0x80 then BitVec.ofNat 32 c.toNat
  else BitVec.ofNat 32 ((0xC0 + c.toNat / 64) * 256 + (0x80 + c.toNat % 64))

/-- The second half of both tables. -/
def cursorKeys : List Word :=
  [caps, f1, f2, f3, f4, f5, f6, f7, f8, f9, f10, numlck, scrlck, home, up, pgup, char '-', left,
    unknown, right, char '+', keyEnd, down, pgdown, ins, del, unknown, unknown, unknown, f11, f12]
    ++ List.replicate 39 unknown

def lowercase : List Word :=
  [unknown, esc, char '1', char '2', char '3', char '4', char '5', char '6', char '7', char '8',
    char '9', char '0', apostrophe, char '^', backspace, char '\t', char 'q', char 'w', char 'e',
    char 'r', char 't', char 'z', char 'u', char 'i', char 'o', char 'p', char 'ü', char '*',
    char '\n', ctrl, char 'a', char 's', char 'd', char 'f', char 'g', char 'h', char 'j',
    char 'k', char 'l', char 'ö', char 'ä', char '$', lshft, char '<', char 'y', char 'x',
    char 'c', char 'v', char 'b', char 'n', char 'm', char ',', char '.', char '-', rshft,
    char '*', alt, char ' '] ++ cursorKeys

/-- The source has two more initializers, for which the array has no place. -/
def uppercase : List Word :=
  [unknown, esc, char '+', quotationMark, char '*', char 'ç', char '%', char '&', char '/',
    char '(', char ')', char '=', char '?', graveAccent, backspace, char '\t', char 'Q',
    char 'W', char 'E', char 'R', char 'T', char 'Z', char 'U', char 'I', char 'O', char 'P',
    char 'Ü', char '!', char '\n', ctrl, char 'A', char 'S', char 'D', char 'F', char 'G',
    char 'H', char 'J', char 'K', char 'L', char 'Ö', char 'Ä', char '£', lshft, char '>',
    char 'Y', char 'X', char 'C', char 'V', char 'B', char 'N', char 'M', char ';', char ':',
    char '_', rshft, char '*', alt, char ' '] ++ cursorKeys

def isSpecialKey (key : Word) : Bool :=
  key ∈ [esc, ctrl, lshft, rshft, alt, f1, f2, f3, f4, f5, f6, f7, f8, f9, f10, f11, f12, scrlck,
    caps, numlck, backspace]

/-! ## The buffer -/

/-- `key_buffer`, `key_buffer_head` and `key_buffer_tail`. -/
structure KeyBuffer where
  keyBuffer : Nat → Word
  keyBufferHead : Nat
  keyBufferTail : Nat

namespace KeyBuffer

def initial : KeyBuffer := ⟨fun _ => 0, 0, 0⟩

def addKeyToBuffer (s : KeyBuffer) (key : Word) : KeyBuffer :=
  let nextHead := (s.keyBufferHead + 1) % keyBufferSize
  if nextHead ≠ s.keyBufferTail then
    ⟨Function.update s.keyBuffer s.keyBufferHead key, nextHead, s.keyBufferTail⟩
  else s

def getKeyFromBuffer (s : KeyBuffer) : KeyBuffer × Word :=
  if s.keyBufferHead = s.keyBufferTail then (s, 0)
  else
    let key := s.keyBuffer s.keyBufferTail
    ({ s with keyBufferTail := (s.keyBufferTail + 1) % keyBufferSize }, key)

end KeyBuffer

/-- The calls, as they follow each other. -/
inductive KeyOp where
  | addKeyToBuffer (key : Word)
  | getKeyFromBuffer

/-- A call with the key that it returns. -/
def KeyBuffer.exec (s : KeyBuffer) : KeyOp → KeyBuffer × Option Word
  | .addKeyToBuffer key => (s.addKeyToBuffer key, none)
  | .getKeyFromBuffer => (s.getKeyFromBuffer.1, some s.getKeyFromBuffer.2)

/-- What the buffer is for: the pending keys, oldest first, of which there are fewer than its
size. A further key is dropped. -/
def pendingExec (q : List Word) : KeyOp → List Word × Option Word
  | .addKeyToBuffer key => (if q.length < keyBufferSize - 1 then q ++ [key] else q, none)
  | .getKeyFromBuffer => (q.tail, some (q.headD 0))

/-! ## The handler -/

/-- The shift keys, the buffer, and what was passed to `putc_kernel`. -/
structure Keyboard where
  capsOn : Bool
  capsLock : Bool
  buffer : KeyBuffer
  output : List Byte

namespace Keyboard

def putcKernel (k : Keyboard) (c : Byte) : Keyboard := { k with output := k.output ++ [c] }

def handleSpecialKey (k : Keyboard) (key : Word) (pressed : Bool) : Keyboard :=
  if key = lshft ∨ key = rshft then { k with capsOn := pressed }
  else if key = caps then if pressed then { k with capsLock := !k.capsLock } else k
  else if key = backspace then if pressed then k.putcKernel 0x08 else k
  else k

/-- `irq1_handler`, which reads the port twice. -/
def irq1Handler (k : Keyboard) (first second : Byte) : Keyboard :=
  let scancode := (first &&& 0x7F).toNat
  let pressed := second &&& 0x80 == 0
  if isSpecialKey (lowercase.getD scancode 0) then
    k.handleSpecialKey (lowercase.getD scancode 0) pressed
  else if pressed then
    let key :=
      if k.capsOn || k.capsLock then uppercase.getD scancode 0 else lowercase.getD scancode 0
    -- `kernel_write("%c", key)`
    let k := k.putcKernel (key.setWidth 8)
    { k with buffer := k.buffer.addKeyToBuffer key }
  else k

end Keyboard

/-! ## One call -/

/-- The buffer holds the pending keys, and none of them is the answer for an empty buffer. -/
structure Pending (s : KeyBuffer) (q : List Word) : Prop where
  holds : RingHolds keyBufferSize s.keyBuffer s.keyBufferHead s.keyBufferTail q
  nonzero : ∀ key ∈ q, key ≠ 0

variable {s : KeyBuffer} {q : List Word} {key : Word}

theorem pending_initial : Pending .initial [] :=
  ⟨ringHolds_nil (by decide), nofun⟩

theorem Pending.full (h : Pending s q) (hfull : ¬ q.length < keyBufferSize - 1) (key : Word) :
    s.addKeyToBuffer key = s := by
  have hlength := h.holds.length_lt
  have hnext : (s.keyBufferHead + 1) % keyBufferSize = s.keyBufferTail :=
    h.holds.next_head_eq_tail_iff.mpr (by omega)
  unfold KeyBuffer.addKeyToBuffer
  exact if_neg (not_not.mpr hnext)

theorem Pending.add (h : Pending s q) (hroom : q.length < keyBufferSize - 1) (hkey : key ≠ 0) :
    Pending (s.addKeyToBuffer key) (q ++ [key]) := by
  have hnext : (s.keyBufferHead + 1) % keyBufferSize ≠ s.keyBufferTail :=
    fun heq => absurd (h.holds.next_head_eq_tail_iff.mp heq) (by omega)
  have hstate : s.addKeyToBuffer key =
      ⟨Function.update s.keyBuffer s.keyBufferHead key, (s.keyBufferHead + 1) % keyBufferSize,
        s.keyBufferTail⟩ := if_pos hnext
  rw [hstate]
  refine ⟨h.holds.put (by omega) key, fun k hk => ?_⟩
  rcases List.mem_append.mp hk with hk | hk
  · exact h.nonzero k hk
  · exact List.mem_singleton.mp hk ▸ hkey

/-- A reader gets the oldest key, or learns that there is none. -/
theorem Pending.get (h : Pending s q) :
    s.getKeyFromBuffer.2 = q.headD 0 ∧ Pending s.getKeyFromBuffer.1 q.tail := by
  unfold KeyBuffer.getKeyFromBuffer
  cases q with
  | nil =>
      rw [if_pos (h.holds.head_eq_tail_iff.mpr rfl)]
      exact ⟨rfl, h⟩
  | cons oldest rest =>
      rw [if_neg fun heq => List.cons_ne_nil _ _ (h.holds.head_eq_tail_iff.mp heq)]
      obtain ⟨hslot, hrest⟩ := h.holds.take
      exact ⟨hslot, hrest, fun k hk => h.nonzero k (List.mem_cons_of_mem _ hk)⟩

theorem Pending.get_eq_zero_iff (h : Pending s q) : s.getKeyFromBuffer.2 = 0 ↔ q = [] := by
  rw [h.get.1]
  cases q with
  | nil => exact iff_of_true rfl rfl
  | cons oldest rest =>
      exact iff_of_false (h.nonzero oldest List.mem_cons_self) (List.cons_ne_nil _ _)

theorem Pending.exec (h : Pending s q) (op : KeyOp) (hop : op ≠ .addKeyToBuffer 0) :
    (s.exec op).2 = (pendingExec q op).2 ∧ Pending (s.exec op).1 (pendingExec q op).1 := by
  cases op with
  | addKeyToBuffer key =>
      refine ⟨rfl, ?_⟩
      unfold KeyBuffer.exec pendingExec
      dsimp only
      split
      next hroom => exact h.add hroom fun hzero => hop (hzero ▸ rfl)
      next hfull =>
        rw [h.full hfull]
        exact h
  | getKeyFromBuffer => exact ⟨congrArg some h.get.1, h.get.2⟩

/-! ## The keys that interrupts add -/

theorem lowercase_ne_zero : ∀ scancode < 128, lowercase.getD scancode 0 ≠ 0 := by decide +kernel

theorem uppercase_ne_zero : ∀ scancode < 128, uppercase.getD scancode 0 ≠ 0 := by decide +kernel

theorem scancode_lt (first : Byte) : (first &&& 0x7F).toNat < 128 := by
  rw [BitVec.toNat_and]
  exact lt_of_le_of_lt Nat.and_le_right (by decide)

@[simp] theorem handleSpecialKey_buffer (k : Keyboard) (key : Word) (pressed : Bool) :
    (k.handleSpecialKey key pressed).buffer = k.buffer := by
  unfold Keyboard.handleSpecialKey Keyboard.putcKernel
  split_ifs <;> rfl

/-- An interrupt adds no key, or one that readers can tell from none. -/
theorem irq1Handler_buffer (k : Keyboard) (first second : Byte) :
    (k.irq1Handler first second).buffer = k.buffer ∨
      ∃ key ≠ 0, (k.irq1Handler first second).buffer = k.buffer.addKeyToBuffer key := by
  unfold Keyboard.irq1Handler
  dsimp only
  split
  next _ => exact Or.inl (handleSpecialKey_buffer k _ _)
  split
  next _ =>
    refine Or.inr ⟨_, ?_, rfl⟩
    split
    next _ => exact uppercase_ne_zero _ (scancode_lt first)
    next _ => exact lowercase_ne_zero _ (scancode_lt first)
  next _ => exact Or.inl rfl

/-! ## All calls -/

theorem pending_execute {ops : List KeyOp} (hops : .addKeyToBuffer 0 ∉ ops) :
    (execute KeyBuffer.exec .initial ops).2 = (execute pendingExec [] ops).2 ∧
      Pending (execute KeyBuffer.exec .initial ops).1 (execute pendingExec [] ops).1 :=
  execute_refines Pending (fun op hop _ _ h => h.exec op fun heq => hops (heq ▸ hop))
    pending_initial

/-- Whatever the order of the calls, the buffer answers like the queue of the pending keys, and
`0` says that none is pending. The indices stay in the array, and interrupts add only such keys. -/
theorem keyBuffer_refines {ops : List KeyOp} (hops : .addKeyToBuffer 0 ∉ ops) :
    let s := (execute KeyBuffer.exec .initial ops).1
    let q := (execute pendingExec [] ops).1
    (execute KeyBuffer.exec .initial ops).2 = (execute pendingExec [] ops).2 ∧
      (∀ key, ¬ q.length < keyBufferSize - 1 → s.addKeyToBuffer key = s) ∧
      (s.getKeyFromBuffer.2 = 0 ↔ q = []) ∧
      s.keyBufferHead < keyBufferSize ∧ s.keyBufferTail < keyBufferSize ∧
      ∀ k first second, (Keyboard.irq1Handler k first second).buffer = k.buffer ∨
        ∃ key ≠ 0, (k.irq1Handler first second).buffer = k.buffer.addKeyToBuffer key := by
  obtain ⟨hanswers, hpending⟩ := pending_execute hops
  exact ⟨hanswers, fun key hfull => hpending.full hfull key, hpending.get_eq_zero_iff,
    hpending.holds.head_lt, hpending.holds.tail_lt, irq1Handler_buffer⟩

theorem keyBuffer_refines_two :
    (execute KeyBuffer.exec .initial [.addKeyToBuffer 0x61, .getKeyFromBuffer]).2 =
      [none, some 0x61] := by
  have hops : .addKeyToBuffer 0 ∉ [KeyOp.addKeyToBuffer 0x61, .getKeyFromBuffer] := nofun
  exact (keyBuffer_refines hops).1

end Senob.Drivers
