import Senob.Libk.OpenClose

/-!
# Duplicated descriptors

`dup2` checks its source and `dup` does not, and `dup2` closes its target also when that is the
source.
-/

namespace Senob.Libk

open Foundation

namespace Files

/-- The call reads the table outside of its bounds. -/
def Strays (s : Files) : Op → Prop
  | .dup fd _ => ¬ getFreeFd s < 0 ∧ ¬ (0 ≤ fd ∧ fd < maxFiles)
  | _ => False

/-- A call that was to duplicate `oldfd` has refused a descriptor that is not open, or what it
returned is bound to the same object. -/
structure Duplicates (s : Files) (oldfd : Int) (o : Outcome) : Prop where
  refused : s.slot oldfd = none → o = s.fail .ebadf
  returned : s.slot oldfd ≠ none → 0 ≤ o.result →
    o.files.slot o.result = s.slot oldfd ∧ o.files.slot oldfd ≠ none

/-- What is expected of `dup` and `dup2`. -/
def Usable (s : Files) (op : Op) : Prop :=
  match op with
  | .dup fd _ => ¬ s.Strays op ∧ s.Duplicates fd (s.outcome op)
  | .dup2 oldfd _ _ => ¬ s.Strays op ∧ s.Duplicates oldfd (s.outcome op)
  | _ => True

/-- The source of `dup` is open. The source of `dup2` is not also its target, unless it is not open
or cannot be closed. -/
def Sensible (s : Files) : Op → Prop
  | .dup fd _ => s.slot fd ≠ none
  | .dup2 oldfd newfd sync =>
      oldfd = newfd → ∀ fil, s.slot oldfd = some fil → ¬ (s.valid fil = true ∧ sync = .ok)
  | _ => True

/-! ## One call -/

variable {s : Files} {fd oldfd newfd : Int} {sync : FResult}

theorem fail_errno_inj {errno errno' : Errno} (h : s.fail errno = s.fail errno') :
    errno = errno' := congrArg (fun o => o.files.errno) h

theorem dup_result (s : Files) (fd : Int) (stray : Option Fil) :
    (Libk.dup s fd stray).result = getFreeFd s := by
  rcases FileHistory.getFreeFd_cases s with hnone | ⟨hlow, -, -⟩
  · simp only [Libk.dup, hnone]
    rfl
  · simp only [Libk.dup, if_neg (show ¬ getFreeFd s < 0 by omega)]

theorem dup_usable_iff (s : Files) (fd : Int) (stray : Option Fil) :
    s.Usable (.dup fd stray) ↔ s.Sensible (.dup fd stray) := by
  have hresult := dup_result s fd stray
  constructor
  · rintro ⟨-, hduplicates⟩ hclosed
    have hrefused : Libk.dup s fd stray = s.fail .ebadf := hduplicates.refused hclosed
    rcases FileHistory.getFreeFd_cases s with hnone | ⟨hlow, -, -⟩
    · have hfull : Libk.dup s fd stray = s.fail .emfile := by
        simp only [Libk.dup, hnone]
        rfl
      exact absurd (fail_errno_inj (hfull.symm.trans hrefused)) (by decide)
    · rw [hrefused] at hresult
      have hneg : (-1 : Int) = getFreeFd s := hresult
      omega
  · intro hopen
    have hopen : s.slot fd ≠ none := hopen
    obtain ⟨fil, hslot⟩ := Option.ne_none_iff_exists'.mp hopen
    obtain ⟨hrange, htable⟩ := mem_table_of_slot hslot
    refine ⟨fun hstrays => hstrays.2 hrange, fun hclosed => absurd hclosed hopen, fun _ hpos => ?_⟩
    change 0 ≤ (Libk.dup s fd stray).result at hpos
    change (Libk.dup s fd stray).files.slot (Libk.dup s fd stray).result = _ ∧
      (Libk.dup s fd stray).files.slot fd ≠ none
    rw [hresult] at hpos ⊢
    rcases FileHistory.dup_cases s fd stray with ⟨hfull, -⟩ | ⟨-, hnew, -, -, hothers⟩
    · omega
    rcases FileHistory.getFreeFd_cases s with hnone | ⟨hlow, hhigh, hfree⟩
    · omega
    have hne : fd ≠ getFreeFd s := by
      rintro rfl
      exact nomatch hfree.symm.trans htable
    refine ⟨?_, ?_⟩
    · rw [hnew, FileHistory.dupSource, if_pos hrange, htable, hslot]
    · rw [(hothers fd hne).slot]
      exact hopen

theorem dup2_eq (sync : FResult) (hopen : s.slot oldfd ≠ none)
    (hrange : ¬ (newfd < 0 ∨ newfd ≥ maxFiles)) :
    ∃ u, u = (if s.fileTable newfd ≠ none then (Libk.close s newfd sync).files else s) ∧
      Libk.dup2 s oldfd newfd sync = ⟨(u.setTable newfd (u.fileTable oldfd)).setPath newfd
        (strncpy (u.entryPath oldfd) maxLfn), newfd⟩ := by
  refine ⟨_, rfl, ?_⟩
  unfold Libk.dup2
  rw [if_neg hopen, if_neg hrange]
  rfl

/-- Onto itself, a descriptor is closed, and then an empty slot is copied. -/
theorem dup2_self (sync : FResult) (hopen : s.slot fd ≠ none) :
    (Libk.dup2 s fd fd sync).result = fd ∧
      ((Libk.dup2 s fd fd sync).files.slot fd = s.slot fd ↔
        ∀ fil, s.slot fd = some fil → ¬ (s.valid fil = true ∧ sync = .ok)) := by
  obtain ⟨fil, hslot⟩ := Option.ne_none_iff_exists'.mp hopen
  obtain ⟨hrange, htable⟩ := mem_table_of_slot hslot
  obtain ⟨u, hu, hcall⟩ := dup2_eq sync hopen (show ¬ (fd < 0 ∨ fd ≥ maxFiles) by omega)
  rw [if_pos (htable ▸ Option.some_ne_none fil)] at hu
  have hcopied : (Libk.dup2 s fd fd sync).files.slot fd = u.slot fd := by
    rw [hcall]
    refine (FileHistory.slot_setTable_self hrange.1 hrange.2 _).trans ?_
    rw [slot, if_pos hrange]
  refine ⟨congrArg Outcome.result hcall, ?_⟩
  rw [hcopied, hu]
  constructor
  · rintro hkept fil' hslot' ⟨hvalid, rfl⟩
    rw [close_eq hslot' hvalid, hslot] at hkept
    have hempty : ((s.setValid fil' false).setTable fd none).slot fd = none :=
      FileHistory.slot_setTable_self hrange.1 hrange.2 none
    cases hempty.symm.trans hkept
  · intro hfails
    obtain ⟨errno, hclose⟩ := close_fails hfails
    rw [hclose]
    rfl

/-- Between two descriptors, the target takes the source's object and the source keeps it. -/
theorem dup2_other (hopen : s.slot oldfd ≠ none) (hrange : ¬ (newfd < 0 ∨ newfd ≥ maxFiles))
    (hne : oldfd ≠ newfd) :
    s.Duplicates oldfd (Libk.dup2 s oldfd newfd sync) := by
  obtain ⟨u, -, hcall⟩ := dup2_eq sync hopen hrange
  have hresult : (Libk.dup2 s oldfd newfd sync).result = newfd := congrArg Outcome.result hcall
  rcases FileHistory.dup2_cases s oldfd newfd sync with
    ⟨hrefused, -⟩ | ⟨t, ht, hnew, -, -, hothers⟩
  · exact absurd hrefused (not_or_intro hopen hrange)
  have hold : t.slot oldfd = s.slot oldfd := by
    rcases ht oldfd with ⟨hsame, -⟩ | hsame
    · exact absurd hsame hne
    · exact hsame.slot
  refine ⟨fun hclosed => absurd hclosed hopen, fun _ _ => ⟨?_, ?_⟩⟩
  · rw [hresult, hnew, hold]
  · rw [(hothers oldfd hne).slot]
    exact hopen

theorem dup2_self_iff (hopen : s.slot fd ≠ none) (hlow : 0 ≤ fd) :
    s.Duplicates fd (Libk.dup2 s fd fd sync) ↔ s.Sensible (.dup2 fd fd sync) := by
  obtain ⟨hresult, hkept⟩ := dup2_self sync hopen
  constructor
  · intro hduplicates _
    obtain ⟨hsame, -⟩ := hduplicates.returned hopen (hresult.symm ▸ hlow)
    rw [hresult] at hsame
    exact hkept.mp hsame
  · intro hfails
    have hsame := hkept.mpr (hfails rfl)
    refine ⟨fun hclosed => absurd hclosed hopen, fun _ _ => ?_⟩
    rw [hresult, hsame]
    exact ⟨rfl, hopen⟩

theorem dup2_usable_iff (s : Files) (oldfd newfd : Int) (sync : FResult) :
    s.Usable (.dup2 oldfd newfd sync) ↔ s.Sensible (.dup2 oldfd newfd sync) := by
  have husable : s.Usable (.dup2 oldfd newfd sync) ↔
      s.Duplicates oldfd (Libk.dup2 s oldfd newfd sync) := and_iff_right id
  rw [husable]
  by_cases hopen : s.slot oldfd = none
  · have hcall : Libk.dup2 s oldfd newfd sync = s.fail .ebadf := by
      unfold Libk.dup2
      rw [if_pos hopen]
    refine iff_of_true ⟨fun _ => hcall, fun hslot => absurd hopen hslot⟩ fun _ fil hfil => ?_
    exact nomatch hopen.symm.trans hfil
  obtain ⟨fil, hslot⟩ := Option.ne_none_iff_exists'.mp hopen
  obtain ⟨hlow, hhigh⟩ := (mem_table_of_slot hslot).1
  by_cases hrange : newfd < 0 ∨ newfd ≥ maxFiles
  · have hcall : Libk.dup2 s oldfd newfd sync = s.fail .ebadf := by
      unfold Libk.dup2
      rw [if_neg hopen, if_pos hrange]
    refine iff_of_true ⟨fun hclosed => absurd hclosed hopen, fun _ hpos => ?_⟩
      fun hself => by omega
    rw [hcall] at hpos
    exact absurd hpos (show ¬ (0 : Int) ≤ -1 by decide)
  by_cases hself : oldfd = newfd
  · subst hself
    exact dup2_self_iff hopen hlow
  · exact iff_of_true (dup2_other hopen hrange hself) fun hself' => absurd hself' hself

theorem usable_iff_sensible (s : Files) (op : Op) : s.Usable op ↔ s.Sensible op := by
  cases op with
  | openFile => exact Iff.rfl
  | close => exact Iff.rfl
  | dup fd stray => exact dup_usable_iff s fd stray
  | dup2 oldfd newfd sync => exact dup2_usable_iff s oldfd newfd sync

/-! ## All calls -/

/-- In a history from the empty table, `dup` and `dup2` all do what is expected of them if and only
if every one of them has a source that it may duplicate. -/
theorem always_usable_iff (ops : List Op) :
    Admissible step Usable initial ops ↔ Admissible step Sensible initial ops := by
  constructor
  · exact Admissible.imp fun s op => (usable_iff_sensible s op).mp
  · exact Admissible.imp fun s op => (usable_iff_sensible s op).mpr

/-- A descriptor that is not open is duplicated to the first free one, and a descriptor that is
duplicated onto itself is closed. -/
theorem not_always_usable : (¬ ∀ ops : List Op, Admissible step Usable initial ops) ∧
    ¬ Admissible step Usable initial
      [.openFile (some [0x41]) 0 (some 0xD0000000) (fun _ _ => .ok), .dup2 3 3 .ok] := by
  constructor
  · intro hclaim
    have hopen := (usable_iff_sensible _ _).mp (hclaim [.dup 5 none]).1
    exact hopen rfl
  · rintro ⟨-, hrun⟩
    have hself := (usable_iff_sensible _ _).mp (hrun _ rfl).1
    exact hself rfl 0xD0000000 (by decide) (by decide)

end Files

end Senob.Libk
