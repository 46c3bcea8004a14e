import Senob.Drivers.Modifiers
import Senob.Libk.ConsoleLine

/-!
# Typed lines

A line as it is typed, shown and read. The handler shows every ordinary key and takes a character
from the screen at Backspace, and the reader gets the ordinary keys.
-/

namespace Senob.Libk

open Senob.Drivers

def enterCode : Byte := 0x1C

def IsOrdinary (code : Byte) : Prop := isMake code ∧ ¬ isSpecialKey (keyOf code)

instance : DecidablePred IsOrdinary := fun _ => inferInstanceAs (Decidable (_ ∧ _))

def IsBackspace (code : Byte) : Prop := isMake code ∧ keyOf code = backspace

instance : DecidablePred IsBackspace := fun _ => inferInstanceAs (Decidable (_ ∧ _))

def typed (k : Keyboard) (codes : List Byte) : Keyboard := codes.foldl Keyboard.deliver k

/-- What the scancodes pass to `putc_kernel`. -/
def shown (k : Keyboard) (codes : List Byte) : List Byte :=
  (typed k codes).output.drop k.output.length

/-- The line that the characters leave on the screen. Each `\b` removes the last one. -/
def visibleLine (chars : List Byte) : List Byte :=
  chars.foldl (fun line c => if c = 0x08 then line.dropLast else line ++ [c]) []

/-- `read` of the typed line and Enter returns the visible line, its newline and the `0`
behind it. -/
def ReadsVisible (k : Keyboard) (codes : List Byte) (files : Files) (len : Word) (fatfs : FResult)
    (br : Word) : Prop :=
  ∃ r, read files ⟨(typed k (codes ++ [enterCode])).buffer, []⟩ 0 len fatfs br = some r ∧
    r.stored.map Prod.snd = visibleLine (shown k codes) ++ [0x0A, 0]

/-- Every Backspace comes before the first ordinary key. -/
def NothingDeleted (codes : List Byte) : Prop :=
  codes.Pairwise fun before after => ¬ (IsOrdinary before ∧ IsBackspace after)

instance : DecidablePred NothingDeleted := fun _ => inferInstanceAs (Decidable (List.Pairwise _ _))

/-! ## One scancode -/

/-- No ordinary key has the character that Backspace shows, and only Enter has the newline. -/
theorem ordinary_keys : ∀ scancode < 128, ¬ isSpecialKey (lowercase.getD scancode 0) →
    ∀ table ∈ [lowercase, uppercase],
      (table.getD scancode 0).setWidth 8 ≠ (0x08 : Byte) ∧
        (table.getD scancode 0 = newline ↔ lowercase.getD scancode 0 = newline) := by
  decide +kernel

variable {k : Keyboard} {codes : List Byte} {code : Byte}

theorem deliver_ordinary (k : Keyboard) (h : IsOrdinary code) :
    ∃ key, (k.deliver code).output = k.output ++ [key.setWidth 8] ∧
      (k.deliver code).buffer = k.buffer.addKeyToBuffer key ∧
      key.setWidth 8 ≠ (0x08 : Byte) ∧ key ≠ 0 ∧ (key = newline ↔ keyOf code = newline) := by
  have hlt := scancode_lt code
  have htable : ∀ table ∈ [lowercase, uppercase], ∀ scancode < 128, table.getD scancode 0 ≠ 0 := by
    simp only [List.forall_mem_cons]
    exact ⟨lowercase_ne_zero, uppercase_ne_zero, nofun⟩
  obtain ⟨houtput, hbuffer⟩ := translatedBy_deliver code k h.1 h.2
  have hmem : (if k.capsOn || k.capsLock then uppercase else lowercase) ∈
      [lowercase, uppercase] := by
    split <;> simp
  generalize (if k.capsOn || k.capsLock then uppercase else lowercase) = table
    at houtput hbuffer hmem
  obtain ⟨hshown, henter⟩ := ordinary_keys _ hlt h.2 table hmem
  exact ⟨_, houtput, hbuffer, hshown, htable table hmem _ hlt, henter⟩

theorem deliver_backspace (k : Keyboard) (h : IsBackspace code) :
    (k.deliver code).output = k.output ++ [0x08] ∧ (k.deliver code).buffer = k.buffer := by
  have hspecial : isSpecialKey backspace := by decide
  rw [deliver_eq, h.2, h.1, if_pos hspecial]
  exact ⟨rfl, rfl⟩

theorem deliver_silent (k : Keyboard) (hordinary : ¬ IsOrdinary code)
    (hbackspace : ¬ IsBackspace code) :
    (k.deliver code).output = k.output ∧ (k.deliver code).buffer = k.buffer := by
  rw [deliver_eq]
  by_cases hspecial : isSpecialKey (keyOf code)
  · rw [if_pos hspecial]
    refine ⟨?_, handleSpecialKey_buffer k _ _⟩
    by_cases hkey : keyOf code = backspace
    · have hbreak : isMake code = false := by
        simpa using fun hmake => hbackspace ⟨hmake, hkey⟩
      rw [hbreak, hkey]
      rfl
    · unfold Keyboard.handleSpecialKey
      rw [if_neg hkey]
      split_ifs <;> rfl
  · have hbreak : ¬ isMake code := fun hmake => hordinary ⟨hmake, hspecial⟩
    rw [if_neg hspecial, if_neg hbreak]
    exact ⟨rfl, rfl⟩

theorem typed_append (k : Keyboard) (codes : List Byte) (code : Byte) :
    typed k (codes ++ [code]) = (typed k codes).deliver code := List.foldl_concat ..

theorem visibleLine_append (chars : List Byte) (c : Byte) :
    visibleLine (chars ++ [c]) =
      if c = 0x08 then (visibleLine chars).dropLast else visibleLine chars ++ [c] :=
  List.foldl_concat ..

theorem shown_append {chars : List Byte} (hpre : k.output <+: (typed k codes).output)
    (h : ((typed k codes).deliver code).output = (typed k codes).output ++ chars) :
    shown k (codes ++ [code]) = shown k codes ++ chars := by
  rw [shown, typed_append, h, List.drop_append_of_le_length hpre.length_le, shown]

theorem nothingDeleted_append :
    NothingDeleted (codes ++ [code]) ↔
      NothingDeleted codes ∧ (IsBackspace code → ∀ before ∈ codes, ¬ IsOrdinary before) := by
  rw [NothingDeleted, List.pairwise_append, NothingDeleted]
  simp only [List.pairwise_singleton, List.mem_singleton, true_and, forall_eq, not_and]
  exact and_congr_right fun _ => ⟨fun h hback before hb ho => h before hb ho hback,
    fun h before hb ho hback => h hback before hb ho⟩

/-! ## A line while it is typed -/

/-- The pending keys are those of the ordinary scancodes. On the screen there are at most as many
characters, and the same ones if nothing was deleted. -/
structure Typing (k : Keyboard) (codes : List Byte) (q : List Word) : Prop where
  pending : Pending (typed k codes).buffer q
  output_extends : k.output <+: (typed k codes).output
  length_eq : q.length = codes.countP IsOrdinary
  newline_not_mem : newline ∉ q
  visible_length_le : (visibleLine (shown k codes)).length ≤ q.length
  visible_iff : visibleLine (shown k codes) = q.map (·.setWidth 8) ↔ NothingDeleted codes

namespace Typing

variable {q : List Word}

theorem nil (h : Pending k.buffer []) : Typing k [] [] where
  pending := h
  output_extends := List.prefix_rfl
  length_eq := rfl
  newline_not_mem := List.not_mem_nil
  visible_length_le := by
    rw [shown, typed, List.foldl_nil, List.drop_length]
    exact Nat.le_refl 0
  visible_iff := by
    rw [shown, typed, List.foldl_nil, List.drop_length]
    exact iff_of_true rfl List.Pairwise.nil

theorem ordinary (h : Typing k codes q) (hcode : IsOrdinary code) (henter : keyOf code ≠ newline)
    (hroom : q.length < 127) : ∃ key, Typing k (codes ++ [code]) (q ++ [key]) := by
  obtain ⟨key, houtput, hbuffer, hshown, hzero, hnewline⟩ := deliver_ordinary (typed k codes) hcode
  have hchars := shown_append h.output_extends houtput
  have hback : ¬ IsBackspace code := fun hback => hcode.2 (hback.2 ▸ by decide)
  have hvisible : visibleLine (shown k (codes ++ [code])) =
      visibleLine (shown k codes) ++ [key.setWidth 8] := by
    rw [hchars, visibleLine_append, if_neg hshown]
  refine ⟨key, ?_, ?_, ?_, ?_, ?_, ?_⟩
  · rw [typed_append, hbuffer]
    exact h.pending.add hroom hzero
  · rw [typed_append, houtput]
    exact h.output_extends.trans (List.prefix_append _ _)
  · rw [List.length_append, h.length_eq, List.countP_append]
    simp [hcode]
  · rw [List.mem_append, List.mem_singleton, not_or]
    exact ⟨h.newline_not_mem, fun heq => henter (hnewline.mp heq.symm)⟩
  · rw [hvisible, List.length_append, List.length_append]
    exact Nat.add_le_add_right h.visible_length_le 1
  · rw [hvisible, List.map_append, nothingDeleted_append, ← h.visible_iff]
    simp [hback]

theorem backspace (h : Typing k codes q) (hcode : IsBackspace code) :
    Typing k (codes ++ [code]) q := by
  obtain ⟨houtput, hbuffer⟩ := deliver_backspace (typed k codes) hcode
  have hchars := shown_append h.output_extends houtput
  have hordinary : ¬ IsOrdinary code := fun hord => hord.2 (hcode.2 ▸ by decide)
  have hvisible : visibleLine (shown k (codes ++ [code])) =
      (visibleLine (shown k codes)).dropLast := by
    rw [hchars, visibleLine_append, if_pos rfl]
  have hlength := h.visible_length_le
  have hnone : (∀ before ∈ codes, ¬ IsOrdinary before) ↔ q = [] := by
    rw [← List.length_eq_zero_iff, h.length_eq, List.countP_eq_zero]
    simp
  refine ⟨?_, ?_, ?_, h.newline_not_mem, ?_, ?_⟩
  · rw [typed_append, hbuffer]
    exact h.pending
  · rw [typed_append, houtput]
    exact h.output_extends.trans (List.prefix_append _ _)
  · rw [h.length_eq, List.countP_append]
    simp [hordinary]
  · rw [hvisible, List.length_dropLast]
    omega
  · rw [hvisible, nothingDeleted_append, hnone]
    constructor
    · intro heq
      -- the shown line was no longer than the pending keys, so there was nothing to remove
      have hle : q.length ≤ q.length - 1 := by
        have := congrArg List.length heq
        rw [List.length_dropLast, List.length_map] at this
        omega
      obtain rfl : q = [] := List.length_eq_zero_iff.mp (by omega)
      have hempty : visibleLine (shown k codes) = [] :=
        List.length_eq_zero_iff.mp (Nat.le_zero.mp hlength)
      exact ⟨h.visible_iff.mp hempty, fun _ => rfl⟩
    · rintro ⟨hnothing, hq⟩
      obtain rfl := hq hcode
      rw [h.visible_iff.mpr hnothing]
      rfl

theorem silent (h : Typing k codes q) (hordinary : ¬ IsOrdinary code)
    (hback : ¬ IsBackspace code) : Typing k (codes ++ [code]) q := by
  obtain ⟨houtput, hbuffer⟩ := deliver_silent (typed k codes) hordinary hback
  have hchars := shown_append h.output_extends (houtput.trans (List.append_nil _).symm)
  rw [List.append_nil] at hchars
  refine ⟨?_, ?_, ?_, h.newline_not_mem, ?_, ?_⟩
  · rw [typed_append, hbuffer]
    exact h.pending
  · rw [typed_append, houtput]
    exact h.output_extends
  · rw [h.length_eq, List.countP_append]
    simp [hordinary]
  · rw [hchars]
    exact h.visible_length_le
  · rw [hchars, nothingDeleted_append, h.visible_iff]
    exact ⟨fun hnothing => ⟨hnothing, fun h => absurd h hback⟩, And.left⟩

end Typing

/-- The keys of a line, before Enter. -/
theorem exists_typing (hempty : Pending k.buffer [])
    (henter : ∀ code ∈ codes, isMake code → keyOf code ≠ newline)
    (hroom : codes.countP IsOrdinary ≤ 127) : ∃ q, Typing k codes q := by
  induction codes using List.reverseRecOn with
  | nil => exact ⟨[], .nil hempty⟩
  | append_singleton codes code ih =>
      rw [List.countP_append, List.countP_singleton] at hroom
      obtain ⟨q, h⟩ := ih (fun c hc => henter c (List.mem_append_left _ hc)) (by omega)
      by_cases hordinary : IsOrdinary code
      · rw [if_pos (by simpa using hordinary)] at hroom
        obtain ⟨key, hkey⟩ := h.ordinary hordinary
          (henter code (List.mem_append_right _ (List.mem_singleton_self _)) hordinary.1)
          (by rw [h.length_eq]; omega)
        exact ⟨_, hkey⟩
      · by_cases hback : IsBackspace code
        · exact ⟨q, h.backspace hback⟩
        · exact ⟨q, h.silent hordinary hback⟩

/-! ## The line -/

theorem read_stdin (files : Files) (source : KeySource) (len : Word) (fatfs : FResult) (br : Word) :
    read files source 0 len fatfs br = consoleReadLine files source len := by
  have hstdin : (0 : Int) = stdinFileno := rfl
  unfold read
  rw [if_neg (by decide), if_pos hstdin]

theorem lineStores_snd (line : List Word) :
    (lineStores line).map Prod.snd = line.map (·.setWidth 8) ++ [0] := by
  rw [lineStores, List.map_append]
  exact congrArg (· ++ [0]) (List.ext_getElem (by simp) fun i _ _ => by simp)

theorem firstLine_of_newline {q : List Word} {len : Word} (hq : newline ∉ q)
    (hlen : q.length + 2 ≤ len.toNat) : FirstLine len (q ++ [newline]) (q ++ [newline]) where
  isPrefix := List.prefix_rfl
  isLine := Or.inl List.getLast?_concat
  shortest := by
    intro shorter hpre hline
    rcases List.prefix_concat_iff.mp hpre with hwhole | hinner
    · exact hwhole
    · rcases hline with hlast | hfull
      · exact absurd (hinner.subset (List.mem_of_getLast? hlast)) hq
      · have := hinner.length_le
        omega

theorem Typing.enter {q : List Word} (h : Typing k codes q) (hroom : q.length < 127) :
    Pending (typed k (codes ++ [enterCode])).buffer (q ++ [newline]) := by
  obtain ⟨key, -, hbuffer, -, hzero, hnewline⟩ :=
    deliver_ordinary (typed k codes) (by decide : IsOrdinary enterCode)
  obtain rfl : key = newline := hnewline.mpr (by decide)
  rw [typed_append, hbuffer]
  exact h.pending.add hroom hzero

/-- From an empty line on, whatever is typed before Enter, what is read is what is shown just when
every Backspace came before the first ordinary key. -/
theorem readsVisible_iff (files : Files) {len : Word} (fatfs : FResult) (br : Word)
    (hempty : Pending k.buffer []) (henter : ∀ code ∈ codes, isMake code → keyOf code ≠ newline)
    (hroom : codes.countP IsOrdinary < 127) (hlen : codes.countP IsOrdinary + 2 ≤ len.toNat) :
    ReadsVisible k codes files len fatfs br ↔ NothingDeleted codes := by
  obtain ⟨q, h⟩ := exists_typing hempty henter (Nat.le_of_lt hroom)
  rw [← h.length_eq] at hroom hlen
  have hserves : Serves ⟨(typed k (codes ++ [enterCode])).buffer, []⟩ (q ++ [newline]) :=
    ⟨_, h.enter hroom, nofun, rfl⟩
  obtain ⟨r, hr, -, hstored, -⟩ :=
    consoleReadLine_line files hserves (firstLine_of_newline h.newline_not_mem hlen)
  have hbytes : r.stored.map Prod.snd = q.map (·.setWidth 8) ++ [0x0A, 0] := by
    rw [hstored, lineStores_snd, List.map_append, List.append_assoc]
    rfl
  rw [← h.visible_iff, ReadsVisible, read_stdin, hr]
  constructor
  · rintro ⟨r', hr', hvisible⟩
    obtain rfl := Option.some.inj hr'
    exact (List.append_cancel_right (hbytes.symm.trans hvisible)).symm
  · intro hvisible
    exact ⟨r, rfl, by rw [hbytes, hvisible]⟩

theorem readsVisible_iff_letter :
    ReadsVisible .initial [0x0E, 0x1E] .initial 16 .ok 0 ↔ NothingDeleted [0x0E, 0x1E] :=
  readsVisible_iff .initial .ok 0 pending_initial (by decide) (by decide) (by decide)

/-- A letter, and Backspace. -/
theorem not_readsVisible :
    ¬ ∀ k codes files len fatfs br, Pending k.buffer [] →
      (∀ code ∈ codes, isMake code → keyOf code ≠ newline) → codes.countP IsOrdinary < 127 →
        codes.countP IsOrdinary + 2 ≤ len.toNat → ReadsVisible k codes files len fatfs br := by
  intro h
  obtain ⟨r, hr, hbytes⟩ := h .initial [0x1E, 0x0E] .initial 16 .ok 0 pending_initial (by decide)
    (by decide) (by decide)
  obtain rfl := Option.some.inj hr
  exact absurd hbytes (by decide +kernel)

end Senob.Libk
