import Mathlib.Data.List.Infix
import Mathlib.Data.List.Range
import Mathlib.Logic.Function.Basic
import Senob.Video.Font

/-!
# VGA text

`print` of `vga.c`. The cells are counted from `vga_address` on, and those before it have negative
indices. Every index that is written is recorded.
-/

namespace Senob.Video

abbrev Cell := BitVec 16

def widthScreen : Nat := 80

def heightScreen : Nat := 25

/-- The cursor, the colour, and the memory around `vga_address`. -/
structure Vga where
  column : Nat
  line : Nat
  currColor : Cell
  memory : Int → Cell
  written : List Int

namespace Vga

def store (s : Vga) (i : Int) (cell : Cell) : Vga :=
  { s with memory := Function.update s.memory i cell, written := s.written ++ [i] }

def blank (s : Vga) : Cell := 0x20 ||| s.currColor

/-- One round of the copying loops. -/
def copyCell (y : Nat) (s : Vga) (x : Nat) : Vga :=
  s.store ((y - 1 : Int) * widthScreen + x) (s.memory (y * widthScreen + x))

def copyRow (s : Vga) (y : Nat) : Vga := (List.range widthScreen).foldl (copyCell y) s

def clearCell (s : Vga) (x : Nat) : Vga :=
  s.store ((heightScreen - 1 : Int) * widthScreen + x) s.blank

def scrollUp (s : Vga) : Vga :=
  (List.range widthScreen).foldl clearCell ((List.range heightScreen).foldl copyRow s)

def newLine (s : Vga) : Vga :=
  if s.line < heightScreen - 1 then { s with line := s.line + 1, column := 0 }
  else { s.scrollUp with column := 0 }

def handleBackspace (s : Vga) : Vga :=
  if s.column > 0 then
    let s := { s with column := s.column - 1 }
    s.store (s.line * widthScreen + s.column) s.blank
  else if s.line > 0 then
    let s := { s with line := s.line - 1, column := widthScreen - 1 }
    s.store (s.line * widthScreen + s.column) s.blank
  else s

/-- `vga_address[line * width_screen + (column++)] = cell`. -/
def put (s : Vga) (cell : Cell) : Vga :=
  { s.store (s.line * widthScreen + s.column) cell with column := s.column + 1 }

/-- `while (tablen != 0)`. -/
def tab (s : Vga) : Nat → Vga
  | 0 => s
  | tablen + 1 => (s.put s.blank).tab tablen

/-- The line break before a character that does not fit. -/
def wrap (s : Vga) : Vga := if s.column = widthScreen then s.newLine else s

/-- One round of `print`. A character is signed. -/
def printChar (s : Vga) (c : Byte) : Vga :=
  if c = 0x0A then s.newLine
  else if c = 0x0D then { s with column := 0 }
  else if c = 0x09 then
    let s := s.wrap
    s.tab (4 - s.column % 4)
  else if c = 0x08 then s.handleBackspace
  else
    let s := s.wrap
    s.put (c.signExtend 16 ||| s.currColor)

/-- `print`, with the bytes before the end of the string. -/
def print (s : Vga) (str : List Byte) : Vga := str.foldl printChar s

/-! ## What a call should do -/

/-- The cursor is on the screen or behind a line, and so far only the screen was written. -/
structure Wf (s : Vga) : Prop where
  line_lt : s.line < heightScreen
  column_le : s.column ≤ widthScreen
  written : ∀ i ∈ s.written, 0 ≤ i ∧ i < 2000

/-- The character continues past the last line. -/
def Continues (s : Vga) (c : Byte) : Prop :=
  s.line = heightScreen - 1 ∧
    (c = 0x0A ∨ s.column = widthScreen ∧ c ≠ 0x0D ∧ c ≠ 0x08)

instance (s : Vga) (c : Byte) : Decidable (s.Continues c) := inferInstanceAs (Decidable (_ ∧ _))

/-- The screen has the old rows from the second one on, and a blank one. No other memory is
modified. -/
def Scrolled (before after : Vga) : Prop :=
  ∀ i, after.memory i =
    if 0 ≤ i ∧ i < 1920 then before.memory (i + 80)
    else if 1920 ≤ i ∧ i < 2000 then before.blank
    else before.memory i

structure PrintsCorrectly (s : Vga) (str : List Byte) : Prop where
  wf : (s.print str).Wf
  scrolls : ∀ before c after, str = before ++ c :: after → (s.print before).Continues c →
    Scrolled (s.print before) (s.print before).newLine

/-- The line and the column behind a character, on a page that never scrolls. -/
def placeAfter (place : Nat × Nat) (c : Byte) : Nat × Nat :=
  if c = 0x0A then (place.1 + 1, 0)
  else if c = 0x0D then (place.1, 0)
  else if c = 0x08 then
    if 0 < place.2 then (place.1, place.2 - 1)
    else if 0 < place.1 then (place.1 - 1, widthScreen - 1)
    else place
  else
    let place := if place.2 = widthScreen then (place.1 + 1, 0) else place
    (place.1, place.2 + if c = 0x09 then 4 - place.2 % 4 else 1)

/-- Laid out from the place on, the text stays in the lines of the screen. -/
def FitsScreen (place : Nat × Nat) (str : List Byte) : Prop :=
  ∀ before ∈ str.inits, (before.foldl placeAfter place).1 < heightScreen

instance (place : Nat × Nat) (str : List Byte) : Decidable (FitsScreen place str) :=
  inferInstanceAs (Decidable (∀ before ∈ str.inits, _))

/-! ## Without scrolling -/

variable {s : Vga}

theorem Wf.store (h : s.Wf) {i : Int} (hi : 0 ≤ i ∧ i < 2000) (cell : Cell) :
    (s.store i cell).Wf where
  line_lt := h.line_lt
  column_le := h.column_le
  written j hj := by
    rcases List.mem_append.mp hj with hj | hj
    · exact h.written j hj
    · exact List.mem_singleton.mp hj ▸ hi

theorem Wf.put (h : s.Wf) (hcolumn : s.column < widthScreen) (cell : Cell) :
    (s.put cell).Wf := by
  have hline := h.line_lt
  have hcell : 0 ≤ (s.line * widthScreen + s.column : Int) ∧
      (s.line * widthScreen + s.column : Int) < 2000 := by
    unfold widthScreen at hcolumn ⊢
    unfold heightScreen at hline
    omega
  exact ⟨h.line_lt, hcolumn, (h.store hcell cell).written⟩

theorem Wf.tab (h : s.Wf) {tablen : Nat} (htab : s.column + tablen ≤ widthScreen) :
    (s.tab tablen).Wf := by
  induction tablen generalizing s with
  | zero => exact h
  | succ tablen ih =>
      apply ih (h.put (by omega) _)
      have hcolumn : (s.put s.blank).column = s.column + 1 := rfl
      omega

theorem Wf.newLine_eq (h : s.Wf) (hline : s.line ≠ heightScreen - 1) :
    s.newLine = { s with line := s.line + 1, column := 0 } := by
  have hlt := h.line_lt
  apply if_pos
  unfold heightScreen at hlt hline ⊢
  omega

theorem Wf.newLine (h : s.Wf) (hline : s.line ≠ heightScreen - 1) : s.newLine.Wf := by
  have hlt := h.line_lt
  rw [h.newLine_eq hline]
  refine ⟨?_, Nat.zero_le _, h.written⟩
  unfold heightScreen at hlt hline ⊢
  dsimp only
  omega

/-- After the line break there is room for a character. -/
theorem Wf.wrap (h : s.Wf) (hfits : ¬ (s.line = heightScreen - 1 ∧ s.column = widthScreen)) :
    s.wrap.Wf ∧ s.wrap.column < widthScreen := by
  unfold Vga.wrap
  split
  next hcolumn =>
    have hline : s.line ≠ heightScreen - 1 := fun hline => hfits ⟨hline, hcolumn⟩
    refine ⟨h.newLine hline, ?_⟩
    rw [h.newLine_eq hline]
    exact Nat.zero_lt_succ 79
  next hcolumn => exact ⟨h, lt_of_le_of_ne h.column_le hcolumn⟩

theorem Wf.handleBackspace (h : s.Wf) : s.handleBackspace.Wf := by
  have hline := h.line_lt
  have hcolumn := h.column_le
  unfold heightScreen at hline
  unfold widthScreen at hcolumn
  unfold Vga.handleBackspace
  split
  next hpos =>
    have hwf : ({ s with column := s.column - 1 } : Vga).Wf :=
      ⟨h.line_lt, Nat.le_trans (Nat.sub_le _ _) h.column_le, h.written⟩
    refine hwf.store ?_ _
    unfold widthScreen
    dsimp only
    omega
  split
  next hpos =>
    have hwf : ({ s with line := s.line - 1, column := widthScreen - 1 } : Vga).Wf :=
      ⟨Nat.lt_of_le_of_lt (Nat.sub_le _ _) h.line_lt, Nat.sub_le _ _, h.written⟩
    refine hwf.store ?_ _
    unfold widthScreen
    dsimp only
    omega
  next _ => exact h

theorem Wf.printChar (h : s.Wf) {c : Byte} (hc : ¬ s.Continues c) : (s.printChar c).Wf := by
  unfold Continues at hc
  unfold Vga.printChar
  split
  next hchar => exact h.newLine fun hline => hc ⟨hline, Or.inl hchar⟩
  split
  next _ => exact ⟨h.line_lt, Nat.zero_le _, h.written⟩
  next hreturn =>
  split
  next hchar =>
    have hfits : ¬ (s.line = heightScreen - 1 ∧ s.column = widthScreen) := fun hfull =>
      hc ⟨hfull.1, Or.inr ⟨hfull.2, hreturn, by rw [hchar]; decide⟩⟩
    obtain ⟨hwf, hroom⟩ := h.wrap hfits
    apply hwf.tab
    unfold widthScreen at hroom ⊢
    omega
  split
  next _ => exact h.handleBackspace
  next hback =>
    have hfits : ¬ (s.line = heightScreen - 1 ∧ s.column = widthScreen) := fun hfull =>
      hc ⟨hfull.1, Or.inr ⟨hfull.2, hreturn, hback⟩⟩
    obtain ⟨hwf, hroom⟩ := h.wrap hfits
    exact hwf.put hroom _

/-! ## Scrolling -/

/-- The row above gets the row, and nothing else changes. -/
theorem copyRow_memory (s : Vga) (y : Nat) (i : Int) :
    (s.copyRow y).memory i =
      if ((y : Int) - 1) * 80 ≤ i ∧ i < y * 80 then s.memory (i + 80) else s.memory i := by
  have hrounds : ∀ n ≤ 80, ∀ i, ((List.range n).foldl (copyCell y) s).memory i =
      if ((y : Int) - 1) * 80 ≤ i ∧ i < (y - 1) * 80 + n then s.memory (i + 80)
      else s.memory i := by
    intro n
    induction n with
    | zero =>
        intro _ i
        rw [if_neg (by omega)]
        rfl
    | succ n ih =>
        intro hn i
        have hprev := ih (Nat.le_of_succ_le hn)
        rw [List.range_succ, List.foldl_concat]
        generalize (List.range n).foldl (copyCell y) s = t at hprev ⊢
        -- the cell that is read now is in the row itself, which has not been written
        have hread : t.memory ((y : Int) * 80 + n) = s.memory (y * 80 + n) := by
          rw [hprev, if_neg (by omega)]
        have hstep : (copyCell y t n).memory i =
            if i = ((y : Int) - 1) * 80 + n then s.memory (y * 80 + n) else t.memory i := by
          rw [← hread]
          exact Function.update_apply _ _ _ _
        -- The rounds so far wrote the cells before `i`, the new one writes `i` if it is next.
        rw [hstep, hprev]
        by_cases hi : i = ((y : Int) - 1) * 80 + n
        · have hcell : (y : Int) * 80 + n = i + 80 := by omega
          rw [if_pos hi, hcell, if_pos (by omega)]
        · rw [if_neg hi]
          refine if_congr ?_ rfl rfl
          omega
  have hrow := hrounds 80 (Nat.le_refl _) i
  have hend : ((y : Int) - 1) * 80 + (80 : Nat) = y * 80 := by omega
  rw [hend] at hrow
  exact hrow

theorem copyRows_memory (s : Vga) (n : Nat) (i : Int) :
    ((List.range n).foldl copyRow s).memory i =
      if -80 ≤ i ∧ i < (n - 1) * 80 then s.memory (i + 80) else s.memory i := by
  induction n generalizing i with
  | zero =>
      rw [if_neg (by omega)]
      rfl
  | succ n ih =>
      rw [List.range_succ, List.foldl_concat, copyRow_memory, ih,
        ih]
      split_ifs <;> first | rfl | omega

theorem clearCells_memory (s : Vga) (n : Nat) (i : Int) :
    ((List.range n).foldl clearCell s).memory i =
        (if 1920 ≤ i ∧ i < 1920 + n then s.blank else s.memory i) ∧
      ((List.range n).foldl clearCell s).blank = s.blank := by
  induction n with
  | zero =>
      rw [if_neg (by omega)]
      exact ⟨rfl, rfl⟩
  | succ n ih =>
      rw [List.range_succ, List.foldl_concat]
      generalize (List.range n).foldl clearCell s = t at ih ⊢
      have hstep : (clearCell t n).memory i = if i = 1920 + n then t.blank else t.memory i :=
        Function.update_apply _ _ _ _
      refine ⟨?_, ih.2⟩
      rw [hstep, ih.1, ih.2]
      split_ifs <;> first | rfl | omega

/-- The loops store cells, and do nothing else. -/
structure Stores (s t : Vga) : Prop where
  line_eq : t.line = s.line
  column_eq : t.column = s.column
  currColor_eq : t.currColor = s.currColor
  written : s.written ⊆ t.written

theorem stores_foldl {f : Vga → Nat → Vga} (hf : ∀ s n, Stores s (f s n)) (l : List Nat)
    (s : Vga) : Stores s (l.foldl f s) := by
  induction l generalizing s with
  | nil => exact ⟨rfl, rfl, rfl, List.Subset.refl _⟩
  | cons n rest ih =>
      have hfirst := hf s n
      have hrest := ih (f s n)
      exact ⟨hrest.line_eq.trans hfirst.line_eq, hrest.column_eq.trans hfirst.column_eq,
        hrest.currColor_eq.trans hfirst.currColor_eq,
        List.Subset.trans hfirst.written hrest.written⟩

theorem stores_store (s : Vga) (i : Int) (cell : Cell) : Stores s (s.store i cell) :=
  ⟨rfl, rfl, rfl, List.subset_append_left _ _⟩

theorem stores_copyRow (s : Vga) (y : Nat) : Stores s (s.copyRow y) :=
  stores_foldl (fun s _ => stores_store s _ _) _ s

/-- The last row is blank, the others have the row below, and the row before the screen has its
first one. -/
theorem scrollUp_memory (s : Vga) (i : Int) :
    s.scrollUp.memory i =
      if -80 ≤ i ∧ i < 1920 then s.memory (i + 80)
      else if 1920 ≤ i ∧ i < 2000 then s.blank
      else s.memory i := by
  have hrows := copyRows_memory s heightScreen i
  have hblank : ((List.range heightScreen).foldl copyRow s).blank = s.blank :=
    congrArg (0x20 ||| ·) (stores_foldl stores_copyRow _ s).currColor_eq
  have hlast : ((heightScreen : Nat) - 1 : Int) * 80 = 1920 := rfl
  have hend : (1920 : Int) + (widthScreen : Nat) = 2000 := rfl
  unfold scrollUp
  rw [(clearCells_memory _ _ i).1, hrows, hblank, hlast, hend]
  split_ifs <;> first | rfl | omega

/-- The first cell that is copied goes before the screen. -/
theorem scrollUp_written (s : Vga) : -80 ∈ s.scrollUp.written := by
  have hcells : List.range widthScreen = 0 :: (List.range 79).map Nat.succ :=
    List.range_succ_eq_map
  have hrows : List.range heightScreen = 0 :: (List.range 24).map Nat.succ :=
    List.range_succ_eq_map
  have hcell : -80 ∈ (copyCell 0 s 0).written :=
    List.mem_append_right _ (List.mem_singleton.mpr (by decide))
  have hrow : -80 ∈ (s.copyRow 0).written := by
    unfold copyRow
    rw [hcells, List.foldl_cons]
    exact (stores_foldl (fun s _ => stores_store s _ _) _ _).written hcell
  unfold scrollUp
  rw [hrows, List.foldl_cons]
  exact (stores_foldl (fun s _ => stores_store s _ _) _ _).written
    ((stores_foldl stores_copyRow _ _).written hrow)

theorem newLine_last (hline : s.line = heightScreen - 1) :
    s.newLine = { s.scrollUp with column := 0 } := by
  unfold newLine
  rw [if_neg (by rw [hline]; exact Nat.lt_irrefl _)]

/-! ## What is written stays written -/

theorem written_put (s : Vga) (cell : Cell) : s.written ⊆ (s.put cell).written :=
  List.subset_append_left _ _

theorem written_tab (s : Vga) (tablen : Nat) : s.written ⊆ (s.tab tablen).written := by
  induction tablen generalizing s with
  | zero => exact List.Subset.refl _
  | succ tablen ih => exact List.Subset.trans (written_put s _) (ih _)

theorem written_newLine (s : Vga) : s.written ⊆ s.newLine.written := by
  unfold newLine
  split
  next _ => exact List.Subset.refl _
  next _ =>
    exact List.Subset.trans (stores_foldl stores_copyRow _ s).written
      (stores_foldl (fun s _ => stores_store s _ _) _ _).written

theorem written_wrap (s : Vga) : s.written ⊆ s.wrap.written := by
  unfold wrap
  split
  next _ => exact written_newLine s
  next _ => exact List.Subset.refl _

theorem written_handleBackspace (s : Vga) : s.written ⊆ s.handleBackspace.written := by
  unfold handleBackspace
  split_ifs
  · exact List.subset_append_left _ _
  · exact List.subset_append_left _ _
  · exact List.Subset.refl _

theorem written_printChar (s : Vga) (c : Byte) : s.written ⊆ (s.printChar c).written := by
  unfold printChar
  split_ifs
  · exact written_newLine s
  · exact List.Subset.refl _
  · exact List.Subset.trans (written_wrap s) (written_tab _ _)
  · exact written_handleBackspace s
  · exact List.Subset.trans (written_wrap s) (written_put _ _)

theorem written_print (s : Vga) (str : List Byte) : s.written ⊆ (s.print str).written := by
  induction str generalizing s with
  | nil => exact List.Subset.refl _
  | cons c str ih => exact List.Subset.trans (written_printChar s c) (ih _)

/-- Continuing past the last line stores cells before the screen. -/
theorem written_of_continues {c : Byte} (h : s.Continues c) : -80 ∈ (s.printChar c).written := by
  obtain ⟨hline, hchar⟩ := h
  have hnew : -80 ∈ s.newLine.written := by
    rw [newLine_last hline]
    exact scrollUp_written s
  unfold printChar
  rcases hchar with rfl | ⟨hcolumn, hreturn, hback⟩
  · exact hnew
  · have hwrap : s.wrap = s.newLine := if_pos hcolumn
    rw [if_neg hreturn, if_neg hback, hwrap]
    split_ifs
    · exact hnew
    · exact written_tab _ _ hnew
    · exact written_put _ _ hnew

/-! ## The text on a page -/

theorem Wf.wrap_place (h : s.Wf)
    (hfits : ¬ (s.line = heightScreen - 1 ∧ s.column = widthScreen)) :
    (s.wrap.line, s.wrap.column) =
      if s.column = widthScreen then (s.line + 1, 0) else (s.line, s.column) := by
  unfold Vga.wrap
  split
  next hcolumn => rw [h.newLine_eq fun hline => hfits ⟨hline, hcolumn⟩]
  next _ => rfl

theorem tab_place (s : Vga) (tablen : Nat) :
    ((s.tab tablen).line, (s.tab tablen).column) = (s.line, s.column + tablen) := by
  induction tablen generalizing s with
  | zero => rfl
  | succ tablen ih =>
      rw [tab, ih, Nat.add_comm tablen 1, ← Nat.add_assoc]
      rfl

theorem handleBackspace_place (s : Vga) :
    (s.handleBackspace.line, s.handleBackspace.column) = placeAfter (s.line, s.column) 0x08 := by
  unfold handleBackspace
  split_ifs with hcolumn hline
  · exact (if_pos hcolumn).symm
  · exact ((if_neg hcolumn).trans (if_pos hline)).symm
  · exact ((if_neg hcolumn).trans (if_neg hline)).symm

/-- Without scrolling, the cursor goes where the character leads on a page. -/
theorem Wf.printChar_place (h : s.Wf) {c : Byte} (hc : ¬ s.Continues c) :
    ((s.printChar c).line, (s.printChar c).column) = placeAfter (s.line, s.column) c := by
  unfold Continues at hc
  unfold Vga.printChar
  split
  next hchar =>
    rw [h.newLine_eq fun hline => hc ⟨hline, Or.inl hchar⟩]
    exact (if_pos hchar).symm
  next hnewline =>
  split
  next hchar => exact ((if_neg hnewline).trans (if_pos hchar)).symm
  next hreturn =>
  by_cases hback : c = 0x08
  · subst hback
    exact handleBackspace_place s
  · have hfits : ¬ (s.line = heightScreen - 1 ∧ s.column = widthScreen) := fun hfull =>
      hc ⟨hfull.1, Or.inr ⟨hfull.2, hreturn, hback⟩⟩
    have hwrap := h.wrap_place hfits
    rw [placeAfter, if_neg hnewline, if_neg hreturn, if_neg hback]
    dsimp only
    rw [← hwrap, if_neg hback]
    split
    next _ => exact tab_place _ _
    next _ => rfl

/-- A character that continues past the last line leads out of the screen. -/
theorem Wf.continues_iff (h : s.Wf) {c : Byte} :
    s.Continues c ↔ heightScreen ≤ (placeAfter (s.line, s.column) c).1 := by
  have hline := h.line_lt
  have hcolumn := h.column_le
  unfold Continues placeAfter
  unfold heightScreen at hline ⊢
  split
  next hchar =>
    rw [and_iff_left (Or.inl hchar)]
    dsimp only
    omega
  next hnewline =>
  split
  next hreturn =>
    refine iff_of_false (fun hcontinues => ?_) (Nat.not_le.mpr hline)
    exact (hcontinues.2.resolve_left hnewline).2.1 hreturn
  next hreturn =>
  split
  next hback =>
    refine iff_of_false (fun hcontinues => (hcontinues.2.resolve_left hnewline).2.2 hback) ?_
    split_ifs <;> dsimp only <;> omega
  next hback =>
    rw [or_iff_right hnewline, and_iff_left (⟨hreturn, hback⟩ : c ≠ 0x0D ∧ c ≠ 0x08)]
    dsimp only
    split
    next hfull => rw [and_iff_left hfull]; omega
    next hfull => exact iff_of_false (fun hcontinues => hfull hcontinues.2) (Nat.not_le.mpr hline)

theorem fitsScreen_cons {place : Nat × Nat} (hline : place.1 < heightScreen) {c : Byte}
    {str : List Byte} :
    FitsScreen place (c :: str) ↔ FitsScreen (placeAfter place c) str := by
  simp [FitsScreen, hline]

theorem FitsScreen.line_lt {place : Nat × Nat} {str : List Byte} (h : FitsScreen place str) :
    place.1 < heightScreen :=
  h [] ((List.mem_inits _ _).mpr List.nil_prefix)

/-- A text that stays on the screen is printed without scrolling. -/
theorem Wf.print (h : s.Wf) {str : List Byte} (hfits : FitsScreen (s.line, s.column) str) :
    (s.print str).Wf ∧
      ∀ before c after, str = before ++ c :: after → ¬ (s.print before).Continues c := by
  induction str generalizing s with
  | nil => exact ⟨h, fun before c after heq => by simp at heq⟩
  | cons c str ih =>
      have hrest := (fitsScreen_cons h.line_lt).mp hfits
      -- The character leads to a line of the screen, so it does not continue past the last one.
      have hc : ¬ s.Continues c := fun hcontinues =>
        absurd hrest.line_lt (Nat.not_lt.mpr (h.continues_iff.mp hcontinues))
      rw [← h.printChar_place hc] at hrest
      obtain ⟨hwf, hnever⟩ := ih (h.printChar hc) hrest
      refine ⟨hwf, fun before c' after heq => ?_⟩
      cases before with
      | nil =>
          obtain ⟨rfl, rfl⟩ := List.cons.inj heq
          exact hc
      | cons first before =>
          obtain ⟨rfl, rfl⟩ := List.cons.inj heq
          exact hnever before c' after rfl

/-- A text that leaves the screen is printed with cells before it. -/
theorem Wf.written_of_not_fits (h : s.Wf) {str : List Byte}
    (hfits : ¬ FitsScreen (s.line, s.column) str) : -80 ∈ (s.print str).written := by
  induction str generalizing s with
  | nil =>
      refine absurd (fun before hmem => ?_) hfits
      obtain rfl : before = [] := by simpa using hmem
      exact h.line_lt
  | cons c str ih =>
      by_cases hc : s.Continues c
      · exact written_print _ str (written_of_continues hc)
      · rw [fitsScreen_cons h.line_lt, ← h.printChar_place hc] at hfits
        exact ih (h.printChar hc) hfits

/-! ## Every string -/

/-- For every string and every cursor on the screen, `print` is right and in bounds just when the
text, laid out from the cursor on, stays in the lines of the screen. -/
theorem printsCorrectly_iff (h : s.Wf) (str : List Byte) :
    s.PrintsCorrectly str ↔ FitsScreen (s.line, s.column) str := by
  constructor
  · intro hprints
    by_contra hfits
    exact absurd (hprints.wf.written _ (h.written_of_not_fits hfits)).1 (by decide)
  · intro hfits
    obtain ⟨hwf, hnever⟩ := h.print hfits
    exact ⟨hwf, fun before c after heq hcontinues => absurd hcontinues (hnever before c after heq)⟩

/-- The screen of `reset`. -/
def start : Vga := ⟨0, 0, 0x7000, fun _ => 0x7020, []⟩

theorem wf_start : start.Wf := ⟨by decide, by decide, nofun⟩

theorem printsCorrectly_letter : start.PrintsCorrectly [0x41] :=
  (printsCorrectly_iff wf_start _).mpr (by decide)

/-- A newline in the last line. -/
theorem not_printsCorrectly : ¬ ∀ (s : Vga) str, s.Wf → s.PrintsCorrectly str := by
  intro h
  have hwf : ({ start with line := 24 } : Vga).Wf := ⟨by decide, by decide, nofun⟩
  have hprints := h _ [0x0A] hwf
  have hmem := written_of_continues (s := { start with line := 24 }) (c := 0x0A) (by decide)
  exact absurd (hprints.wf.written _ hmem).1 (by decide)

end Vga

end Senob.Video
