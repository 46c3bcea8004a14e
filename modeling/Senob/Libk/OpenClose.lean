import Senob.Libk.DescriptorPaths

/-!
# Opening and closing

A table that only `open` and `close` have changed. `open` binds the smallest free descriptor, and
the partial changes of a failing `open` stay in the entry of a descriptor that is not open.
-/

namespace Senob.Libk

open Foundation

namespace Files

/-- A call of `open` or `close`. -/
def Op.OpensOrCloses : Op → Prop
  | .openFile .. => True
  | .close .. => True
  | .dup .. => False
  | .dup2 .. => False

/-- The block that `kmalloc` returns is not the object of an open descriptor. -/
def Fresh (s : Files) : Op → Prop
  | .openFile _ _ (some fil) _ => ∀ fd, s.slot fd ≠ some fil
  | _ => True

/-- The descriptor is bound to the same object, and has its path if it is open. -/
def KeptAt (s t : Files) (fd : Int) : Prop :=
  t.slot fd = s.slot fd ∧ (s.slot fd ≠ none → t.entryPath fd = s.entryPath fd)

/-- The smallest free descriptor is bound to an object of its own. -/
structure Binds (s t : Files) (fd : Int) : Prop where
  low : 3 ≤ fd
  high : fd < maxFiles
  free : s.slot fd = none
  smallest : ∀ fd', 3 ≤ fd' → fd' < fd → s.slot fd' ≠ none
  own : ∃ fil, t.slot fd = some fil ∧ ∀ fd' ≠ fd, t.slot fd' ≠ some fil
  others : ∀ fd' ≠ fd, KeptAt s t fd'

/-- What `open` and `close` are to do. -/
def Meets (s : Files) : Op → Outcome → Prop
  | .openFile .., o =>
      o.result = -1 ∧ (∀ fd, KeptAt s o.files fd) ∨ Binds s o.files o.result
  | .close file _, o =>
      o.result = -1 ∧ (∀ fd, KeptAt s o.files fd) ∨
        o.result = 0 ∧ s.slot file ≠ none ∧ o.files.slot file = none ∧
          ∀ fd ≠ file, KeptAt s o.files fd
  | _, _ => True

/-- No descriptor below 3 is open. -/
def Confined (s : Files) : Prop := ∀ fd, s.slot fd ≠ none → 3 ≤ fd ∧ fd < maxFiles

/-! ## The free descriptor -/

/-- The descriptors that `get_free_fd` goes through, in this order. -/
def candidates : List Int := (List.range maxFiles).drop 3

theorem candidates_ordered : candidates.Pairwise (· < ·) := by decide

theorem mem_candidates {fd : Int} (hlow : 3 ≤ fd) (hhigh : fd < maxFiles) : fd ∈ candidates := by
  have hall : ∀ n < maxFiles, 3 ≤ n → (n : Int) ∈ candidates := by decide
  obtain ⟨n, rfl⟩ := Int.eq_ofNat_of_zero_le (by omega : 0 ≤ fd)
  exact hall n (by omega) (by omega)

theorem getFreeFd_eq (s : Files) :
    getFreeFd s = (candidates.find? fun fd => (s.fileTable fd).isNone).getD (-1) := by
  unfold getFreeFd
  split
  next free hfree => exact (congrArg (Option.getD · (-1)) hfree).symm
  next hfree => exact (congrArg (Option.getD · (-1)) hfree).symm

theorem getFreeFd_smallest {s : Files} {fd : Int} (hlow : 3 ≤ fd) (hlt : fd < getFreeFd s)
    (hhigh : getFreeFd s < maxFiles) : s.fileTable fd ≠ none := by
  rw [getFreeFd_eq] at hlt hhigh
  cases hfree : candidates.find? fun fd => (s.fileTable fd).isNone with
  | none =>
      rw [hfree, Option.getD_none] at hlt
      omega
  | some free =>
      rw [hfree, Option.getD_some] at hlt hhigh
      obtain ⟨-, before, after, hsplit, htaken⟩ := List.find?_eq_some_iff_append.mp hfree
      have hmem := mem_candidates hlow (Int.lt_trans hlt hhigh)
      have hordered := candidates_ordered
      rw [hsplit] at hmem hordered
      rcases List.mem_append.mp hmem with hbefore | hafter
      · intro hnone
        have hsome := htaken fd hbefore
        rw [hnone] at hsome
        exact absurd hsome (by decide)
      · -- Behind the free one there are only larger ones.
        rcases List.mem_cons.mp hafter with rfl | hafter
        · exact absurd hlt (Int.lt_irrefl _)
        · have hlater := (List.pairwise_cons.mp (List.pairwise_append.mp hordered).2.1).1 fd hafter
          exact absurd hlt (Int.not_lt.mpr (Int.le_of_lt hlater))

/-! ## One call -/

variable {s t : Files} {fd : Int}

theorem KeptAt.refl (s : Files) (fd : Int) : KeptAt s s fd := ⟨rfl, fun _ => rfl⟩

theorem KeptAt.of_sameAt (h : FileHistory.SameAt s t fd) : KeptAt s t fd :=
  ⟨h.slot, fun _ => h.path⟩

/-- The entry of the free descriptor changes first, whatever comes of the call. -/
theorem keptAt_prepared (s : Files) (kmalloc : Option Fil) (path : Path)
    (hfree : s.slot fd = none) (fd' : Int) :
    KeptAt s ({ s with entryFil := Function.update s.entryFil fd kmalloc }.setPath fd path)
      fd' := by
  refine ⟨rfl, fun hopen => Function.update_of_ne ?_ _ _⟩
  rintro rfl
  exact hopen hfree

theorem openFile_meets {name : Option Path} {flags : Word} {kmalloc : Option Fil}
    {fatfs : Path → Byte → FResult} (hfresh : s.Fresh (.openFile name flags kmalloc fatfs)) :
    s.Meets (.openFile name flags kmalloc fatfs) (Libk.openFile s name flags kmalloc fatfs) := by
  cases name with
  | none => exact Or.inl ⟨rfl, KeptAt.refl s⟩
  | some name =>
      simp only [Libk.openFile]
      rcases FileHistory.getFreeFd_cases s with hnone | ⟨hlow, hhigh, hfree⟩
      · rw [hnone, if_pos (by decide)]
        exact Or.inl ⟨rfl, KeptAt.refl s⟩
      rw [if_neg (by omega)]
      have hclosed : s.slot (getFreeFd s) = none := by
        rw [slot, if_pos ⟨by omega, hhigh⟩]
        exact hfree
      have hprepared := keptAt_prepared s kmalloc (strncpy name maxLfn) hclosed
      cases kmalloc with
      | none => exact Or.inl ⟨rfl, hprepared⟩
      | some fil =>
          generalize fatfs (strncpy name maxLfn) (translateFlags flags) = res
          by_cases hok : res = .ok
          · have hunbound : ∀ fd, s.slot fd ≠ some fil := hfresh
            simp only [fOpen, hok, if_true]
            refine Or.inr ⟨hlow, hhigh, hclosed, fun fd hfd hlt => ?_, ⟨fil, ?_, fun fd hne => ?_⟩,
              fun fd hne => ?_⟩
            · have hlt : fd < getFreeFd s := hlt
              rw [slot, if_pos (show 0 ≤ fd ∧ fd < maxFiles by omega)]
              exact getFreeFd_smallest hfd hlt hhigh
            · refine (FileHistory.slot_setTable_self (by omega) hhigh _).trans ?_
              exact Function.update_self _ _ _
            · rw [slot_setTable_of_ne _ _ hne]
              exact hunbound fd
            · exact ⟨slot_setTable_of_ne _ _ hne, (hprepared fd).2⟩
          · simp only [fOpen, hok, if_false]
            exact Or.inl ⟨rfl, hprepared⟩

theorem openFile_result (s : Files) (name : Path) (flags : Word) (fil : Fil)
    (fatfs : Path → Byte → FResult) :
    (Libk.openFile s (some name) flags (some fil) fatfs).result =
      if getFreeFd s < 0 then -1
      else if fatfs (strncpy name maxLfn) (translateFlags flags) = .ok then getFreeFd s
      else -1 := by
  by_cases hnone : getFreeFd s < 0
  · simp only [Libk.openFile, if_pos hnone]
    rfl
  · simp only [Libk.openFile, fOpen, if_neg hnone]
    generalize fatfs (strncpy name maxLfn) (translateFlags flags) = res
    by_cases hok : res = .ok
    · simp only [hok, if_true]
    · simp only [hok, if_false]
      rfl

theorem openFile_slot {name : Path} {flags : Word} {fil : Fil} {fatfs : Path → Byte → FResult}
    (hfree : ¬ getFreeFd s < 0) (hok : fatfs (strncpy name maxLfn) (translateFlags flags) = .ok) :
    (Libk.openFile s (some name) flags (some fil) fatfs).files.slot (getFreeFd s) = some fil := by
  have hresult := openFile_result s name flags fil fatfs
  rw [if_neg hfree, if_pos hok] at hresult
  rcases FileHistory.openFile_cases s (some name) flags (some fil) fatfs with
    ⟨hfailed, -⟩ | ⟨_, fil', fd, -, hfil, hfd, -, hslot, -⟩
  · exact absurd (hresult.symm.trans hfailed) (by omega)
  · rw [← hresult, hfd, hslot, hfil]

theorem close_meets (s : Files) (file : Int) (sync : FResult) :
    s.Meets (.close file sync) (Libk.close s file sync) := by
  by_cases hcloses : ∃ fil, s.slot file = some fil ∧ s.valid fil = true ∧ sync = .ok
  · obtain ⟨fil, hslot, hvalid, rfl⟩ := hcloses
    obtain ⟨hlow, hhigh⟩ := (mem_table_of_slot hslot).1
    refine Or.inr ⟨?_, ?_, ?_, fun fd hne => ?_⟩
    · rw [close_eq hslot hvalid]
    · rw [hslot]
      exact Option.some_ne_none fil
    · rw [close_eq hslot hvalid]
      exact FileHistory.slot_setTable_self hlow hhigh none
    · have hsame := FileHistory.close_sameAt s file .ok fd
      exact .of_sameAt (hsame.resolve_left fun hclosed => hne hclosed.1)
  · have hfails : ∀ fil, s.slot file = some fil → ¬ (s.valid fil = true ∧ sync = .ok) :=
      fun fil hslot hclosed => hcloses ⟨fil, hslot, hclosed⟩
    obtain ⟨errno, hcall⟩ := close_fails hfails
    rw [hcall]
    exact Or.inl ⟨rfl, fun fd => ⟨rfl, fun _ => rfl⟩⟩

/-! ## All calls -/

theorem meets_of_fresh {op : Op} (hop : op.OpensOrCloses) (hfresh : s.Fresh op) :
    s.Meets op (s.outcome op) := by
  cases op with
  | openFile name flags kmalloc fatfs => exact openFile_meets hfresh
  | close file sync => exact close_meets s file sync
  | dup fd stray => exact hop.elim
  | dup2 oldfd newfd sync => exact hop.elim

theorem Confined.of_kept (h : s.Confined) (hkept : ∀ fd, t.slot fd = none ∨ KeptAt s t fd) :
    t.Confined := by
  intro fd hopen
  have hsame := (hkept fd).resolve_left hopen
  rw [hsame.1] at hopen
  exact h fd hopen

theorem Confined.step (h : s.Confined) {op : Op} (hop : op.OpensOrCloses)
    (hmeets : s.Meets op (s.outcome op)) : (s.outcome op).files.Confined := by
  cases op with
  | openFile name flags kmalloc fatfs =>
      rcases hmeets with ⟨-, hkept⟩ | hbinds
      · exact h.of_kept fun fd => Or.inr (hkept fd)
      · intro fd hopen
        by_cases hfd : fd = (s.outcome (.openFile name flags kmalloc fatfs)).result
        · rw [hfd]
          exact ⟨hbinds.low, hbinds.high⟩
        · rw [(hbinds.others fd hfd).1] at hopen
          exact h fd hopen
  | close file sync =>
      rcases hmeets with ⟨-, hkept⟩ | ⟨-, -, hclosed, hkept⟩
      · exact h.of_kept fun fd => Or.inr (hkept fd)
      · refine h.of_kept fun fd => ?_
        by_cases hfd : fd = file
        · exact Or.inl (hfd ▸ hclosed)
        · exact Or.inr (hkept fd hfd)
  | dup fd stray => exact hop.elim
  | dup2 oldfd newfd sync => exact hop.elim

theorem confined_initial : initial.Confined := by
  intro fd hopen
  refine absurd ?_ hopen
  unfold slot
  split <;> rfl

/-- In every run of `open` and `close`, each call does what it is to do, and the descriptors stay
between 3 and 31. -/
theorem openClose_meets {ops : List Op} (hops : ∀ op ∈ ops, op.OpensOrCloses)
    (hfresh : Admissible step Fresh initial ops) :
    Admissible step (fun s op => s.Meets op (s.outcome op)) initial ops ∧
      Always step Confined initial ops := by
  have hadmissible := hfresh.and hops
  constructor
  · exact hadmissible.imp fun s op h => meets_of_fresh h.2 h.1
  · refine always_of_invariant Confined (fun s op t h henabled hstep => ?_) confined_initial
      hadmissible
    obtain rfl := Option.some.inj hstep
    exact h.step henabled.2 (meets_of_fresh henabled.2 henabled.1)

theorem openClose_meets_once :
    Admissible step (fun s op => s.Meets op (s.outcome op)) initial
      [.openFile (some [0x41]) 0 (some 0xD0000000) (fun _ _ => .ok), .close 3 .ok] := by
  have hops : ∀ op ∈ [Op.openFile (some [0x41]) 0 (some 0xD0000000) (fun _ _ => .ok),
      .close 3 .ok], op.OpensOrCloses := by
    simp [Op.OpensOrCloses]
  exact (openClose_meets hops
    ⟨FileHistory.slot_initial_ne 0xD0000000, fun _ _ => ⟨trivial, fun _ _ => trivial⟩⟩).1

end Files

end Senob.Libk
