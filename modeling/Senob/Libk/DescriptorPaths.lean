import Senob.Libk.Descriptors

/-!
# Descriptors and their paths

`lseek` and `fstat` ask FatFs about the path in `file_entries`, `read` and `write` about the file
object in `file_table`. `open` fills in both, `dup` and `dup2` only a part of the entry.
-/

namespace Senob.Libk

open Foundation

/-- The tables, and the path with which each file object was opened last. -/
structure FileHistory where
  files : Files
  opened : Fil → Path

namespace FileHistory

def initial : FileHistory := ⟨.initial, fun _ => []⟩

/-- An `open` that succeeds has opened the file of its truncated name. -/
def step (s : FileHistory) (op : Files.Op) : Option FileHistory :=
  let outcome := s.files.outcome op
  match op with
  | .openFile (some name) _ (some fil) _ =>
      some ⟨outcome.files,
        if 0 ≤ outcome.result then Function.update s.opened fil (strncpy name maxLfn) else s.opened⟩
  | _ => some ⟨outcome.files, s.opened⟩

/-- `kmalloc` does not return the file object of an open descriptor, which is allocated. -/
def Enabled (s : FileHistory) : Files.Op → Prop
  | .openFile _ _ (some fil) _ => ∀ fd, s.files.slot fd ≠ some fil
  | _ => True

/-- Both tables are about the file that was opened. -/
def Coherent (s : FileHistory) : Prop :=
  ∀ fd fil, s.files.slot fd = some fil →
    s.files.entryFil fd = some fil ∧ s.files.entryPath fd = s.opened fil

/-- The file object that `dup` copies. -/
def dupSource (s : Files) (fd : Int) (stray : Option Fil) : Option Fil :=
  if 0 ≤ fd ∧ fd < maxFiles then s.fileTable fd else stray

/-- The call makes no second descriptor of an open file, unless the entry of that descriptor
happens to be left from the very same file. -/
def Good (s : FileHistory) : Files.Op → Prop
  | .dup fd stray =>
      getFreeFd s.files < 0 ∨ ∀ fil, dupSource s.files fd stray = some fil →
        s.files.entryFil (getFreeFd s.files) = some fil ∧ s.opened fil = []
  | .dup2 oldfd newfd _ =>
      s.files.slot oldfd = none ∨ newfd < 0 ∨ newfd ≥ maxFiles ∨ oldfd = newfd ∨
        s.files.entryFil newfd = s.files.slot oldfd
  | _ => True

/-! ## One call -/

theorem getFreeFd_cases (s : Files) :
    getFreeFd s = -1 ∨ 3 ≤ getFreeFd s ∧ getFreeFd s < maxFiles ∧
      s.fileTable (getFreeFd s) = none := by
  unfold getFreeFd
  split
  next fd hfind =>
    right
    have hnone := List.find?_some hfind
    have hbounds : ∀ fd : Int, (fd ∈ do let a ← (List.range maxFiles).drop 3; pure (a : Int)) →
        3 ≤ fd ∧ fd < (maxFiles : Int) := by decide
    obtain ⟨hlow, hhigh⟩ := hbounds fd (List.mem_of_find?_eq_some hfind)
    exact ⟨hlow, hhigh, Option.isNone_iff_eq_none.mp hnone⟩
  next _ => exact Or.inl rfl

variable {s t : FileHistory}

theorem slot_setTable_self {s : Files} {fd : Int} (hlow : 0 ≤ fd) (hhigh : fd < maxFiles)
    (fil : Option Fil) : (s.setTable fd fil).slot fd = fil := by
  rw [Files.slot, if_pos ⟨hlow, hhigh⟩]
  exact Function.update_self _ _ _

/-- The invariant: names are stored with at most 254 bytes. -/
structure Inv (s : FileHistory) : Prop where
  coherent : s.Coherent
  short : ∀ fil, (s.opened fil).length ≤ maxLfn - 1

/-- The two tables are the same at `fd`. -/
structure SameAt (s t : Files) (fd : Int) : Prop where
  slot : t.slot fd = s.slot fd
  fil : t.entryFil fd = s.entryFil fd
  path : t.entryPath fd = s.entryPath fd

theorem SameAt.refl (s : Files) (fd : Int) : SameAt s s fd := ⟨rfl, rfl, rfl⟩

/-- A descriptor stays as it was or is closed. -/
theorem Inv.of_sameAt (h : Inv s) {files : Files}
    (hsame : ∀ fd, files.slot fd = none ∨ SameAt s.files files fd) :
    Inv ⟨files, s.opened⟩ := by
  refine ⟨fun fd fil hfd => ?_, h.short⟩
  rcases hsame fd with hnone | hsame
  · exact nomatch hnone.symm.trans hfd
  · obtain ⟨hfil, hpath⟩ := h.coherent fd fil (hsame.slot.symm.trans hfd)
    exact ⟨hsame.fil.trans hfil, hsame.path.trans hpath⟩

theorem sameAt_setTable {s : Files} {fd fd' : Int} (hne : fd' ≠ fd) (fil : Option Fil)
    (path : Path) : SameAt s ((s.setTable fd fil).setPath fd path) fd' :=
  ⟨Files.slot_setTable_of_ne s fil hne, rfl, Function.update_of_ne hne _ _⟩

/-- `close` empties its slot or, if FatFs refuses, leaves it. -/
theorem close_sameAt (s : Files) (file : Int) (sync : FResult) (fd : Int) :
    (fd = file ∧ (close s file sync).files.slot fd = none ∧
        (close s file sync).files.entryFil fd = s.entryFil fd) ∨
      SameAt s (close s file sync).files fd := by
  cases hslot : s.slot file with
  | none =>
      right
      unfold close
      rw [hslot]
      exact ⟨rfl, rfl, rfl⟩
  | some fil =>
      have hrange := (Files.mem_table_of_slot hslot).1
      by_cases hclosed : s.valid fil = true ∧ sync = .ok
      swap
      · have hfails : ∀ fil', s.slot file = some fil' → ¬ (s.valid fil' = true ∧ sync = .ok) :=
          fun fil' hslot' => Option.some.inj (hslot.symm.trans hslot') ▸ hclosed
        obtain ⟨errno, hrefused⟩ := Files.close_fails hfails
        rw [hrefused]
        exact Or.inr ⟨rfl, rfl, rfl⟩
      rw [hclosed.2, Files.close_eq hslot hclosed.1]
      by_cases hfd : fd = file
      · left
        rw [hfd]
        exact ⟨rfl, slot_setTable_self hrange.1 hrange.2 none, rfl⟩
      · right
        have hother := sameAt_setTable (s := s.setValid fil false) hfd none []
        exact ⟨hother.slot, hother.fil, hother.path⟩

/-- `dup` fills the table of a free descriptor, but not its entry. -/
theorem dup_cases (s : Files) (fd : Int) (stray : Option Fil) :
    (getFreeFd s < 0 ∧ ∀ fd', SameAt s (dup s fd stray).files fd') ∨
      0 ≤ getFreeFd s ∧ (dup s fd stray).files.slot (getFreeFd s) = dupSource s fd stray ∧
      (dup s fd stray).files.entryFil = s.entryFil ∧
      (dup s fd stray).files.entryPath (getFreeFd s) = [] ∧
      ∀ fd' ≠ getFreeFd s, SameAt s (dup s fd stray).files fd' := by
  unfold dup
  rcases getFreeFd_cases s with hnone | ⟨hlow, hhigh, -⟩
  · left
    dsimp only
    rw [hnone, if_pos (by decide)]
    exact ⟨by decide, fun _ => ⟨rfl, rfl, rfl⟩⟩
  · right
    dsimp only
    rw [if_neg (by omega)]
    exact ⟨by omega, slot_setTable_self (by omega) hhigh _, rfl, Function.update_self _ _ _,
      fun fd' hne => sameAt_setTable hne _ _⟩

/-- `dup2` copies the path with the file object. Onto itself, a descriptor is closed. -/
theorem dup2_cases (s : Files) (oldfd newfd : Int) (sync : FResult) :
    (s.slot oldfd = none ∨ newfd < 0 ∨ newfd ≥ maxFiles) ∧
        (∀ fd, SameAt s (dup2 s oldfd newfd sync).files fd) ∨
      ∃ u : Files,
        (∀ fd, (fd = newfd ∧ u.slot fd = none ∧ u.entryFil fd = s.entryFil fd) ∨ SameAt s u fd) ∧
        (dup2 s oldfd newfd sync).files.slot newfd = u.slot oldfd ∧
        (dup2 s oldfd newfd sync).files.entryFil newfd = s.entryFil newfd ∧
        (dup2 s oldfd newfd sync).files.entryPath newfd = strncpy (u.entryPath oldfd) maxLfn ∧
        ∀ fd ≠ newfd, SameAt s (dup2 s oldfd newfd sync).files fd := by
  by_cases hfail : s.slot oldfd = none ∨ newfd < 0 ∨ newfd ≥ maxFiles
  · refine Or.inl ⟨hfail, fun fd => ?_⟩
    unfold dup2
    split
    next _ => exact ⟨rfl, rfl, rfl⟩
    next hopen =>
      rw [if_pos (hfail.resolve_left hopen)]
      exact ⟨rfl, rfl, rfl⟩
  right
  rw [not_or] at hfail
  obtain ⟨fil, hold⟩ := Option.ne_none_iff_exists'.mp hfail.1
  obtain ⟨hrange, -⟩ := Files.mem_table_of_slot hold
  -- `newfd` is closed first, also when it is `oldfd`.
  have hclosed : ∃ u : Files,
      u = (if s.fileTable newfd ≠ none then (close s newfd sync).files else s) ∧
        ∀ fd, (fd = newfd ∧ u.slot fd = none ∧ u.entryFil fd = s.entryFil fd) ∨
          SameAt s u fd := by
    refine ⟨_, rfl, fun fd => ?_⟩
    split
    · exact close_sameAt s newfd sync fd
    · exact Or.inr (.refl s fd)
  obtain ⟨u, hu, hsame⟩ := hclosed
  refine ⟨u, hsame, ?_⟩
  have hstate : (dup2 s oldfd newfd sync).files =
      (u.setTable newfd (u.fileTable oldfd)).setPath newfd
        (strncpy (u.entryPath oldfd) maxLfn) := by
    unfold dup2
    rw [if_neg hfail.1, if_neg hfail.2, ← hu]
    rfl
  have hkept : u.entryFil newfd = s.entryFil newfd := by
    rcases hsame newfd with ⟨-, -, hfil⟩ | hsame
    · exact hfil
    · exact hsame.fil
  rw [hstate]
  refine ⟨?_, hkept, Function.update_self _ _ _, fun fd hne => ?_⟩
  · refine (slot_setTable_self (by omega) (by omega) _).trans ?_
    rw [Files.slot, if_pos hrange]
  · have hother := (hsame fd).resolve_left fun hclosed => hne hclosed.1
    have hset := sameAt_setTable (s := u) hne (u.fileTable oldfd)
      (strncpy (u.entryPath oldfd) maxLfn)
    exact ⟨hset.slot.trans hother.slot, hset.fil.trans hother.fil, hset.path.trans hother.path⟩

/-- `open` fails, and at most the entry of a closed descriptor is changed, or it fills both
tables. -/
theorem openFile_cases (s : Files) (name : Option Path) (flags : Word) (kmalloc : Option Fil)
    (fatfs : Path → Byte → FResult) :
    ((openFile s name flags kmalloc fatfs).result = -1 ∧
      ∀ fd, (openFile s name flags kmalloc fatfs).files.slot fd = none ∨
        SameAt s (openFile s name flags kmalloc fatfs).files fd) ∨
      ∃ path fil fd, name = some path ∧ kmalloc = some fil ∧
        (openFile s name flags kmalloc fatfs).result = fd ∧ 0 ≤ fd ∧
        (openFile s name flags kmalloc fatfs).files.slot fd = some fil ∧
        (openFile s name flags kmalloc fatfs).files.entryFil fd = some fil ∧
        (openFile s name flags kmalloc fatfs).files.entryPath fd = strncpy path maxLfn ∧
        ∀ fd' ≠ fd, SameAt s (openFile s name flags kmalloc fatfs).files fd' := by
  cases name with
  | none => exact Or.inl ⟨rfl, fun _ => Or.inr ⟨rfl, rfl, rfl⟩⟩
  | some path =>
      simp only [openFile]
      rcases getFreeFd_cases s with hnone | ⟨hlow, hhigh, hfree⟩
      · rw [hnone, if_pos (by decide)]
        exact Or.inl ⟨rfl, fun _ => Or.inr ⟨rfl, rfl, rfl⟩⟩
      rw [if_neg (by omega)]
      have hclosed : s.slot (getFreeFd s) = none := by
        rw [Files.slot, if_pos ⟨by omega, hhigh⟩]
        exact hfree
      -- The pointer and the path are stored whatever `kmalloc` and `f_open` answer.
      have hother : ∀ fd ≠ getFreeFd s,
          SameAt s ({ s with entryFil := Function.update s.entryFil (getFreeFd s) kmalloc }.setPath
            (getFreeFd s) (strncpy path maxLfn)) fd := fun fd hne =>
        ⟨rfl, Function.update_of_ne hne _ _, Function.update_of_ne hne _ _⟩
      cases kmalloc with
      | none =>
          refine Or.inl ⟨rfl, fun fd => ?_⟩
          by_cases hfd : fd = getFreeFd s
          · left
            rw [hfd]
            exact hclosed
          · exact Or.inr ⟨rfl, (hother fd hfd).fil, (hother fd hfd).path⟩
      | some fil =>
          generalize fatfs (strncpy path maxLfn) (translateFlags flags) = res
          by_cases hok : res = .ok
          · right
            simp only [fOpen, hok, if_true]
            refine ⟨path, fil, getFreeFd s, rfl, rfl, rfl, by omega, ?_,
              Function.update_self _ _ _, Function.update_self _ _ _, fun fd hne => ?_⟩
            · refine (slot_setTable_self (by omega) hhigh _).trans ?_
              exact Function.update_self _ _ _
            · refine ⟨?_, (hother fd hne).fil, (hother fd hne).path⟩
              exact Files.slot_setTable_of_ne _ _ hne
          · left
            simp only [fOpen, hok, if_false]
            refine ⟨rfl, fun fd => ?_⟩
            by_cases hfd : fd = getFreeFd s
            · left
              rw [hfd]
              exact hclosed
            · exact Or.inr ⟨rfl, (hother fd hfd).fil, (hother fd hfd).path⟩

/-! ## One step -/

theorem step_openFile {name : Option Path} {flags : Word} {kmalloc : Option Fil}
    {fatfs : Path → Byte → FResult} (h : Inv s)
    (henabled : s.Enabled (.openFile name flags kmalloc fatfs))
    (hstep : s.step (.openFile name flags kmalloc fatfs) = some t) : Inv t := by
  rcases openFile_cases s.files name flags kmalloc fatfs with
    ⟨hresult, hsame⟩ | ⟨path, fil, fd, rfl, rfl, hresult, hpos, hslot, hfil, hpath, hother⟩
  · have hstate : t = ⟨(openFile s.files name flags kmalloc fatfs).files, s.opened⟩ := by
      unfold step at hstep
      split at hstep
      next name' flags' fil' fatfs' hop =>
        injection hop with hname hflags hkmalloc hfatfs
        subst hname hflags hkmalloc hfatfs
        simp only [Files.outcome, hresult] at hstep
        exact (Option.some.inj hstep).symm
      next _ => exact (Option.some.inj hstep).symm
    rw [hstate]
    exact h.of_sameAt hsame
  have hstate : t = ⟨(openFile s.files (some path) flags (some fil) fatfs).files,
      Function.update s.opened fil (strncpy path maxLfn)⟩ := by
    simp only [step, Files.outcome, hresult, if_pos hpos] at hstep
    exact (Option.some.inj hstep).symm
  have hfresh : ∀ fd', s.files.slot fd' ≠ some fil := henabled
  rw [hstate]
  refine ⟨fun fd' fil' hfd' => ?_, fun fil' => ?_⟩
  · by_cases hsame : fd' = fd
    · subst hsame
      obtain rfl := Option.some.inj (hslot.symm.trans hfd')
      have hopened : Function.update s.opened fil (strncpy path maxLfn) fil = strncpy path maxLfn :=
        Function.update_self _ _ _
      exact ⟨hfil, hpath.trans hopened.symm⟩
    · have hkept := hother fd' hsame
      have hold := hkept.slot.symm.trans hfd'
      have hne : fil' ≠ fil := fun heq => hfresh fd' (heq ▸ hold)
      obtain ⟨holdFil, holdPath⟩ := h.coherent fd' fil' hold
      refine ⟨hkept.fil.trans holdFil, (hkept.path.trans holdPath).trans ?_⟩
      exact (Function.update_of_ne hne _ _).symm
  · dsimp only
    by_cases hfil' : fil' = fil
    · rw [hfil', Function.update_self]
      exact List.length_take_le _ _
    · rw [Function.update_of_ne hfil']
      exact h.short fil'

/-- Where the source is open, the new descriptor of `dup` is coherent only by chance. -/
theorem coherent_dup_iff (h : Inv s) (fd : Int) (stray : Option Fil) :
    Coherent ⟨(dup s.files fd stray).files, s.opened⟩ ↔ s.Good (.dup fd stray) := by
  rcases dup_cases s.files fd stray with ⟨hnone, hsame⟩ | ⟨hpos, hslot, hfil, hpath, hother⟩
  · exact iff_of_true (h.of_sameAt fun fd' => Or.inr (hsame fd')).coherent (Or.inl hnone)
  constructor
  · intro hcoherent
    refine Or.inr fun fil hsource => ?_
    obtain ⟨hnewFil, hnewPath⟩ := hcoherent _ fil (hslot.trans hsource)
    dsimp only at hnewFil hnewPath
    rw [hfil] at hnewFil
    exact ⟨hnewFil, hnewPath.symm.trans hpath⟩
  · intro hgood fd' fil hfd'
    dsimp only at hfd' ⊢
    by_cases hnew : fd' = getFreeFd s.files
    · rw [hnew, hslot] at hfd'
      obtain ⟨hnewFil, hempty⟩ := hgood.resolve_left (by omega) fil hfd'
      rw [hnew, hfil, hpath]
      exact ⟨hnewFil, hempty.symm⟩
    · have hkept := hother fd' hnew
      obtain ⟨holdFil, holdPath⟩ := h.coherent fd' fil (hkept.slot.symm.trans hfd')
      exact ⟨hkept.fil.trans holdFil, hkept.path.trans holdPath⟩

/-- `dup2` copies no `fil`, so a second descriptor has the entry of another file or of none. -/
theorem coherent_dup2_iff (h : Inv s) (oldfd newfd : Int) (sync : FResult) :
    Coherent ⟨(dup2 s.files oldfd newfd sync).files, s.opened⟩ ↔
      s.Good (.dup2 oldfd newfd sync) := by
  rcases dup2_cases s.files oldfd newfd sync with
    ⟨hfail, hsame⟩ | ⟨u, hclosed, hslot, hfil, hpath, hother⟩
  · exact iff_of_true (h.of_sameAt fun fd' => Or.inr (hsame fd')).coherent
      (hfail.imp_right fun hrange => hrange.imp_right Or.inl)
  have hrest : ∀ fd ≠ newfd, ∀ fil, (dup2 s.files oldfd newfd sync).files.slot fd = some fil →
      (dup2 s.files oldfd newfd sync).files.entryFil fd = some fil ∧
        (dup2 s.files oldfd newfd sync).files.entryPath fd = s.opened fil := by
    intro fd hne fil hfd
    have hkept := hother fd hne
    obtain ⟨holdFil, holdPath⟩ := h.coherent fd fil (hkept.slot.symm.trans hfd)
    exact ⟨hkept.fil.trans holdFil, hkept.path.trans holdPath⟩
  have htake : ∀ fil, strncpy (s.opened fil) maxLfn = s.opened fil := fun fil =>
    List.take_of_length_le (h.short fil)
  by_cases hself : oldfd = newfd
  · subst hself
    refine iff_of_true (fun fd fil hfd => ?_) (Or.inr (Or.inr (Or.inr (Or.inl rfl))))
    by_cases hfd' : fd = oldfd
    swap
    · exact hrest fd hfd' fil hfd
    subst hfd'
    dsimp only at hfd ⊢
    rw [hslot] at hfd
    -- The slot is empty unless its file could not be closed.
    rcases hclosed fd with ⟨-, hnone, -⟩ | hsame
    · exact nomatch hnone.symm.trans hfd
    · obtain ⟨holdFil, holdPath⟩ := h.coherent fd fil (hsame.slot.symm.trans hfd)
      rw [hfil, hpath, hsame.path, holdPath]
      exact ⟨holdFil, htake fil⟩
  have hkept := (hclosed oldfd).resolve_left fun hclosed => hself hclosed.1
  rw [hkept.slot] at hslot
  rw [hkept.path] at hpath
  constructor
  · intro hcoherent
    cases hsource : s.files.slot oldfd with
    | none => exact Or.inl hsource
    | some fil =>
        obtain ⟨hnewFil, -⟩ := hcoherent newfd fil (hslot.trans hsource)
        right; right; right; right
        rw [hsource, ← hfil]
        exact hnewFil
  · intro hgood fd fil hfd
    by_cases hfd' : fd = newfd
    swap
    · exact hrest fd hfd' fil hfd
    rw [hfd'] at hfd ⊢
    have hsource : s.files.slot oldfd = some fil := hslot.symm.trans hfd
    obtain ⟨hlow, hhigh⟩ := (Files.mem_table_of_slot hfd).1
    obtain ⟨-, holdPath⟩ := h.coherent oldfd fil hsource
    rcases hgood with hnone | hneg | hlarge | hsame | hentry
    · exact nomatch hnone.symm.trans hsource
    · omega
    · omega
    · exact absurd hsame hself
    · dsimp only
      rw [hfil, hpath, holdPath]
      exact ⟨hentry.trans hsource, htake fil⟩

/-! ## Runs -/

theorem slot_initial_ne (fil : Fil) (fd : Int) : initial.files.slot fd ≠ some fil := by
  rw [Files.slot]
  split
  · intro hslot
    cases hslot
  · intro hslot
    cases hslot

theorem inv_initial : Inv initial :=
  ⟨fun fd fil hfd => absurd hfd (slot_initial_ne fil fd), fun _ => Nat.zero_le _⟩

theorem Inv.step (h : Inv s) {op : Files.Op} (henabled : s.Enabled op) (hgood : s.Good op)
    (hstep : s.step op = some t) : Inv t := by
  cases op with
  | openFile name flags kmalloc fatfs => exact step_openFile h henabled hstep
  | close file sync =>
      obtain rfl := Option.some.inj hstep
      refine h.of_sameAt fun fd => ?_
      exact (close_sameAt s.files file sync fd).imp_left fun hclosed => hclosed.2.1
  | dup fd stray =>
      obtain rfl := Option.some.inj hstep
      exact ⟨(coherent_dup_iff h fd stray).mpr hgood, h.short⟩
  | dup2 oldfd newfd sync =>
      obtain rfl := Option.some.inj hstep
      exact ⟨(coherent_dup2_iff h oldfd newfd sync).mpr hgood, h.short⟩

theorem Inv.bad (h : Inv s) {op : Files.Op} (hbad : ¬ s.Good op) :
    ∃ t, s.step op = some t ∧ ¬ t.Coherent := by
  cases op with
  | openFile name flags kmalloc fatfs => exact absurd trivial hbad
  | close file sync => exact absurd trivial hbad
  | dup fd stray => exact ⟨_, rfl, fun ht => hbad ((coherent_dup_iff h fd stray).mp ht)⟩
  | dup2 oldfd newfd sync =>
      exact ⟨_, rfl, fun ht => hbad ((coherent_dup2_iff h oldfd newfd sync).mp ht)⟩

/-- In every run of the calls the entries agree with the table throughout exactly if no call
duplicates an open descriptor. -/
theorem always_coherent_iff {ops : List Files.Op} (hops : Admissible step Enabled initial ops) :
    Always step Coherent initial ops ↔ Admissible step Good initial ops :=
  always_iff_admissible Inv (fun _ h => h.coherent)
    (fun _ _ _ h henabled hgood hstep => h.step henabled hgood hstep)
    (fun _ _ h _ hbad => h.bad hbad) inv_initial hops

theorem always_coherent_openClose :
    Always step Coherent initial
      [.openFile (some [0x41]) 0 (some 0xD0000000) (fun _ _ => .ok), .close 3 .ok] := by
  have hops : Admissible step Enabled initial
      [.openFile (some [0x41]) 0 (some 0xD0000000) (fun _ _ => .ok), .close 3 .ok] :=
    ⟨slot_initial_ne 0xD0000000, fun _ _ => ⟨trivial, fun _ _ => trivial⟩⟩
  exact (always_coherent_iff hops).mpr ⟨trivial, fun _ _ => ⟨trivial, fun _ _ => trivial⟩⟩

/-- The duplicate has no path. -/
theorem not_always_coherent :
    ¬ ∀ ops : List Files.Op, Admissible step Enabled initial ops →
      Always step Coherent initial ops := by
  intro hclaim
  have halways := hclaim [.openFile (some [0x41]) 0 (some 0xD0000000) (fun _ _ => .ok),
    .dup 3 none] ⟨slot_initial_ne 0xD0000000, fun _ _ => ⟨trivial, fun _ _ => trivial⟩⟩
  have hcoherent : Coherent _ := (halways.2 _ rfl).2 _ rfl
  have hpath := (hcoherent 4 0xD0000000 (by decide)).2
  exact absurd hpath (by decide)

end FileHistory

end Senob.Libk
