import Mathlib.Logic.Function.Basic
import Senob.Foundation.Run

/-!
# File descriptors

The descriptor table of `libk.c` and the calls that change it. FatFs enters through the
two facts that the table depends on: `f_open` makes a file object valid, and `f_close`
accepts only a valid object and leaves it invalid. Their other results are arguments.
-/

namespace Senob.Libk

open Foundation

abbrev Byte := BitVec 8
abbrev Word := BitVec 32

/-- The address of a `FIL`. -/
abbrev Fil := Nat

/-- A C string, without the terminator. -/
abbrev Path := List Byte

/-- `FRESULT`. -/
inductive FResult where
  | ok
  | diskErr
  | intErr
  | notReady
  | noFile
  | noPath
  | invalidName
  | denied
  | exist
  | invalidObject
  | writeProtected
  | invalidDrive
  | notEnabled
  | noFilesystem
  | mkfsAborted
  | timeout
  | locked
  | notEnoughCore
  | tooManyOpenFiles
  | invalidParameter
  deriving DecidableEq

/-- The values of `errno` that `libk.c` sets; `none` is 0. -/
inductive Errno where
  | none
  | eio
  | enodev
  | enoent
  | einval
  | eacces
  | eexist
  | ebadf
  | erofs
  | etimedout
  | ebusy
  | enomem
  | emfile
  deriving DecidableEq

def mapFresultToErrno : FResult → Errno
  | .ok => .none
  | .diskErr => .eio
  | .intErr => .eio
  | .notReady => .enodev
  | .noFile => .enoent
  | .noPath => .enoent
  | .invalidName => .einval
  | .denied => .eacces
  | .exist => .eexist
  | .invalidObject => .ebadf
  | .writeProtected => .erofs
  | .invalidDrive => .einval
  | .notEnabled => .enodev
  | .noFilesystem => .enodev
  | .mkfsAborted => .eio
  | .timeout => .etimedout
  | .locked => .ebusy
  | .notEnoughCore => .enomem
  | .tooManyOpenFiles => .emfile
  | .invalidParameter => .einval

def maxFiles : Nat := 32

def maxLfn : Nat := 255

/-- `strncpy` of `window.c`, which is the one that is linked: the last of the `count` bytes is
kept for the zero byte. -/
def strncpy (src : Path) (count : Nat) : Path := src.take (count - 1)

/-- `file_table`, `file_entries` and `errno`, and which file objects are valid. -/
structure Files where
  fileTable : Int → Option Fil
  entryFil : Int → Option Fil
  entryPath : Int → Path
  valid : Fil → Bool
  errno : Errno

namespace Files

/-- The table after boot. -/
def initial : Files := ⟨fun _ => none, fun _ => none, fun _ => [], fun _ => false, .none⟩

/-- The file object of a descriptor in the table: what the checks
`fd < 0 || fd >= MAX_FILES || file_table[fd] == NULL` let through. -/
def slot (s : Files) (fd : Int) : Option Fil :=
  if 0 ≤ fd ∧ fd < maxFiles then s.fileTable fd else none

def setTable (s : Files) (fd : Int) (fil : Option Fil) : Files :=
  { s with fileTable := Function.update s.fileTable fd fil }

def setPath (s : Files) (fd : Int) (path : Path) : Files :=
  { s with entryPath := Function.update s.entryPath fd path }

def setValid (s : Files) (fil : Fil) (valid : Bool) : Files :=
  { s with valid := Function.update s.valid fil valid }

def setErrno (s : Files) (errno : Errno) : Files := { s with errno := errno }

end Files

/-- What a call leaves, and its `int` result. -/
structure Outcome where
  files : Files
  result : Int

/-- `errno = …; return -1;` -/
def Files.fail (s : Files) (errno : Errno) : Outcome := ⟨s.setErrno errno, -1⟩

/-! ## FatFs -/

/-- `f_open` of a fresh object, with the result of everything but the check of `fp`. -/
def fOpen (s : Files) (fp : Option Fil) (res : FResult) : Files × FResult :=
  match fp with
  | none => (s, .invalidObject)
  | some fil => (s.setValid fil (res = .ok), res)

/-- `f_close`, with the result of `f_sync` on a valid object. -/
def fClose (s : Files) (fp : Fil) (sync : FResult) : Files × FResult :=
  if s.valid fp then
    if sync = .ok then (s.setValid fp false, .ok) else (s, sync)
  else (s, .invalidObject)

/-! ## The calls -/

/-- `get_free_fd`. -/
def getFreeFd (s : Files) : Int :=
  match ((List.range maxFiles).drop 3).find? fun fd => (s.fileTable fd).isNone with
  | some fd => fd
  | none => -1

/-- `translate_flags`, from the flags of newlib to those of FatFs. -/
def translateFlags (flags : Word) : Byte :=
  let mode : Byte :=
    if flags &&& 2 = 2 then 0x01 ||| 0x02 else if flags &&& 1 ≠ 0 then 0x02 else 0x01
  let mode := if flags &&& 0x200 ≠ 0 then mode ||| 0x08 else mode
  let mode := if flags &&& 0x8 ≠ 0 then mode ||| 0x30 else mode
  if flags &&& 0x400 ≠ 0 then mode ||| 0x08 else mode

/-- `open`, with the pointer that `kmalloc` returns and the result of `f_open`. -/
def openFile (s : Files) (name : Option Path) (flags : Word) (kmalloc : Option Fil)
    (fatfs : Path → Byte → FResult) : Outcome :=
  match name with
  | none => s.fail .einval
  | some name =>
      let fd := getFreeFd s
      if fd < 0 then s.fail .emfile
      else
        let path := strncpy name maxLfn
        let s := { s with entryFil := Function.update s.entryFil fd kmalloc }.setPath fd path
        let (s, res) := fOpen s kmalloc (fatfs path (translateFlags flags))
        if res = .ok then ⟨s.setTable fd (s.entryFil fd), fd⟩
        else s.fail (mapFresultToErrno res)

def close (s : Files) (file : Int) (sync : FResult) : Outcome :=
  match s.slot file with
  | none => s.fail .ebadf
  | some fil =>
      let (s, res) := fClose s fil sync
      if res = .ok then ⟨(s.setTable file none).setPath file [], 0⟩
      else s.fail (mapFresultToErrno res)

/-- `dup` does not check its argument: out of bounds it reads what `stray` says. -/
def dup (s : Files) (fd : Int) (stray : Option Fil) : Outcome :=
  let newFd := getFreeFd s
  if newFd < 0 then s.fail .emfile
  else
    let fil := if 0 ≤ fd ∧ fd < maxFiles then s.fileTable fd else stray
    ⟨(s.setTable newFd fil).setPath newFd [], newFd⟩

/-- `dup2`, which ignores the result of the `close`. -/
def dup2 (s : Files) (oldfd newfd : Int) (sync : FResult) : Outcome :=
  if s.slot oldfd = none then s.fail .ebadf
  else if newfd < 0 ∨ newfd ≥ maxFiles then s.fail .ebadf
  else
    let s := if s.fileTable newfd ≠ none then (close s newfd sync).files else s
    let s := s.setTable newfd (s.fileTable oldfd)
    ⟨s.setPath newfd (strncpy (s.entryPath oldfd) maxLfn), newfd⟩

namespace Files

/-! ## Runs -/

/-- The calls, each with what the code outside of the table answers in it. -/
inductive Op where
  | openFile (name : Option Path) (flags : Word) (kmalloc : Option Fil)
      (fatfs : Path → Byte → FResult)
  | close (file : Int) (sync : FResult)
  | dup (fd : Int) (stray : Option Fil)
  | dup2 (oldfd newfd : Int) (sync : FResult)

def outcome (s : Files) : Op → Outcome
  | .openFile name flags kmalloc fatfs => Libk.openFile s name flags kmalloc fatfs
  | .close file sync => Libk.close s file sync
  | .dup fd stray => Libk.dup s fd stray
  | .dup2 oldfd newfd sync => Libk.dup2 s oldfd newfd sync

def step (s : Files) (op : Op) : Option Files := some (s.outcome op).files

/-- The calls that work on a descriptor. -/
inductive Access where
  | read
  | write
  | lseek
  | close

/-- What such a call works on. -/
inductive Target where
  | keyboard
  | console
  | object (fil : Fil)
  deriving DecidableEq

/-- The file object behind a descriptor, if FatFs takes it for a valid one. -/
def object (s : Files) (fd : Int) : Option Target :=
  match s.slot fd with
  | some fil => if s.valid fil then some (.object fil) else none
  | none => none

/-- `read` serves descriptor 0 from the keyboard, `write` serves 1 and 2 from the console,
before they look at the table. -/
def reach (s : Files) (fd : Int) : Access → Option Target
  | .read => if fd = 0 then some .keyboard else s.object fd
  | .write => if fd = 1 ∨ fd = 2 then some .console else s.object fd
  | .lseek => s.object fd
  | .close => s.object fd

/-- The descriptor that the call closes, explicitly or on the way, with success. -/
def closes (s : Files) : Op → Option Int
  | .close file sync =>
      match s.slot file with
      | some fil => if s.valid fil ∧ sync = .ok then some file else none
      | none => none
  | .dup2 oldfd newfd sync =>
      match s.slot oldfd, s.slot newfd with
      | some _, some fil => if s.valid fil ∧ sync = .ok then some newfd else none
      | _, _ => none
  | .openFile .. => none
  | .dup .. => none

/-- Whatever the call closes, every other descriptor that was open is still open and all
calls on it reach what they reached before. -/
def Keeps (s : Files) (op : Op) : Prop :=
  ∀ closed ∈ s.closes op, ∀ fd ≠ closed, s.slot fd ≠ none →
    (s.outcome op).files.slot fd ≠ none ∧
      ∀ access, (s.outcome op).files.reach fd access = s.reach fd access

/-- No other descriptor has the file object of the one that the call closes. -/
def Unshared (s : Files) (op : Op) : Prop :=
  ∀ closed ∈ s.closes op, ∀ fd ≠ closed, s.slot fd ≠ s.slot closed

/-! ## One closing call -/

@[simp] theorem slot_setPath (s : Files) (fd fd' : Int) (path : Path) :
    (s.setPath fd path).slot fd' = s.slot fd' := rfl

theorem slot_setTable_of_ne (s : Files) {fd fd' : Int} (fil : Option Fil) (hne : fd' ≠ fd) :
    (s.setTable fd fil).slot fd' = s.slot fd' := by
  simp [slot, setTable, hne]

theorem mem_table_of_slot {s : Files} {fd : Int} {fil : Fil} (h : s.slot fd = some fil) :
    (0 ≤ fd ∧ fd < maxFiles) ∧ s.fileTable fd = some fil := by
  unfold slot at h
  split at h
  next hbounds => exact ⟨hbounds, h⟩
  next _ => cases h

/-- A close that FatFs accepts empties its slot and leaves the file object invalid. -/
theorem close_eq {s : Files} {fd : Int} {fil : Fil} (hslot : s.slot fd = some fil)
    (hvalid : s.valid fil) :
    Libk.close s fd .ok = ⟨((s.setValid fil false).setTable fd none).setPath fd [], 0⟩ := by
  simp [Libk.close, fClose, hslot, hvalid]

/-- A `close` that does not succeed leaves the tables alone. -/
theorem close_fails {s : Files} {file : Int} {sync : FResult}
    (hfails : ∀ fil, s.slot file = some fil → ¬ (s.valid fil = true ∧ sync = .ok)) :
    ∃ errno, Libk.close s file sync = s.fail errno := by
  unfold Libk.close
  cases hslot : s.slot file with
  | none => exact ⟨_, rfl⟩
  | some fil =>
      unfold fClose
      by_cases hvalid : s.valid fil = true
      · have hsync : sync ≠ .ok := fun hsync => hfails fil hslot ⟨hvalid, hsync⟩
        simp only [if_pos hvalid, if_neg hsync]
        exact ⟨_, rfl⟩
      · simp only [if_neg hvalid]
        exact ⟨_, rfl⟩

/-- What a call that closes a descriptor does to the others: their slots stay, and only the
file object of the closed one is invalidated. -/
theorem outcome_of_closes {s : Files} {op : Op} {closed : Int}
    (h : s.closes op = some closed) :
    ∃ fil, s.slot closed = some fil ∧ s.valid fil ∧
      (∀ fd ≠ closed, (s.outcome op).files.slot fd = s.slot fd) ∧
      (s.outcome op).files.valid = Function.update s.valid fil false := by
  cases op with
  | openFile name flags kmalloc fatfs => cases h
  | dup fd stray => cases h
  | close file sync =>
      cases hslot : s.slot file with
      | none => simp [closes, hslot] at h
      | some fil =>
          simp only [closes, hslot] at h
          split at h
          next hclosed =>
            obtain rfl := Option.some.inj h
            obtain ⟨hvalid, rfl⟩ := hclosed
            refine ⟨fil, hslot, hvalid, fun fd hne => ?_, ?_⟩
            · simp only [outcome, close_eq hslot hvalid, slot_setPath]
              exact slot_setTable_of_ne _ none hne
            · simp only [outcome, close_eq hslot hvalid]
              rfl
          next _ => cases h
  | dup2 oldfd newfd sync =>
      cases hold : s.slot oldfd with
      | none => simp [closes, hold] at h
      | some kept =>
          cases hnew : s.slot newfd with
          | none => simp [closes, hold, hnew] at h
          | some fil =>
              simp only [closes, hold, hnew] at h
              split at h
              next hclosed =>
                obtain rfl := Option.some.inj h
                obtain ⟨hvalid, rfl⟩ := hclosed
                obtain ⟨hbounds, htable⟩ := mem_table_of_slot hnew
                have hrange : ¬ (newfd < 0 ∨ newfd ≥ maxFiles) := by omega
                have hopen : s.fileTable newfd ≠ none := by simp [htable]
                refine ⟨fil, hnew, hvalid, fun fd hne => ?_, ?_⟩
                · simp only [outcome, Libk.dup2, hold, reduceCtorEq, if_false, hrange, hopen,
                    ne_eq, not_false_eq_true, if_true, close_eq hnew hvalid, slot_setPath]
                  rw [slot_setTable_of_ne _ _ hne, slot_setPath]
                  exact slot_setTable_of_ne _ none hne
                · simp only [outcome, Libk.dup2, hold, reduceCtorEq, if_false, hrange, hopen,
                    ne_eq, not_false_eq_true, if_true, close_eq hnew hvalid]
                  rfl
              next _ => cases h

/-- A descriptor whose slot and file object are as before reaches what it reached. -/
theorem reach_congr {s s' : Files} {fd : Int} (hslot : s'.slot fd = s.slot fd)
    (hvalid : ∀ fil, s.slot fd = some fil → s'.valid fil = s.valid fil) (access : Access) :
    s'.reach fd access = s.reach fd access := by
  have hobject : s'.object fd = s.object fd := by
    unfold object
    rw [hslot]
    cases hfil : s.slot fd with
    | none => rfl
    | some fil => simp only [hvalid fil hfil]
  cases access <;> simp only [reach, hobject]

/-- A call keeps the other descriptors exactly when what it closes is not shared. -/
theorem keeps_iff_unshared (s : Files) (op : Op) : s.Keeps op ↔ s.Unshared op := by
  constructor
  · intro hkeeps closed hclosed fd hne hshared
    obtain ⟨fil, hslot, hvalid, hslots, hinvalid⟩ := outcome_of_closes hclosed
    have hfil : s.slot fd = some fil := hshared.trans hslot
    have hreach := (hkeeps closed hclosed fd hne (by simp [hfil])).2 .lseek
    simp [reach, object, hslots fd hne, hfil, hinvalid, hvalid] at hreach
  · intro hunshared closed hclosed fd hne hopen
    obtain ⟨fil, hslot, hvalid, hslots, hinvalid⟩ := outcome_of_closes hclosed
    refine ⟨by rwa [hslots fd hne], reach_congr (hslots fd hne) fun other hother => ?_⟩
    have hother_ne : other ≠ fil := by
      rintro rfl
      exact hunshared closed hclosed fd hne (hother.trans hslot.symm)
    rw [hinvalid, Function.update_of_ne hother_ne]

/-! ## All calls -/

/-- In a run from boot, all closing calls keep the other descriptors exactly when none of
them closes a shared file object. -/
theorem closes_keep_iff (ops : List Op) :
    Admissible step Keeps initial ops ↔ Admissible step Unshared initial ops := by
  constructor
  · exact Admissible.imp fun s op => (keeps_iff_unshared s op).mp
  · exact Admissible.imp fun s op => (keeps_iff_unshared s op).mpr

/-- A file is opened and its descriptor duplicated; closing the original invalidates the
object under the duplicate. -/
theorem close_breaks_duplicate : ¬ ∀ ops : List Op, Admissible step Keeps initial ops := by
  intro hclaim
  have hrun := hclaim [.openFile (some [0x41]) 0 (some 0xD0000000) (fun _ _ => .ok),
    .dup 3 none, .close 3 .ok]
  have hclose := ((hrun.2 _ rfl).2 _ rfl).1
  have hreach := (hclose 3 (by decide) 4 (by decide) (by decide)).2 .lseek
  exact absurd hreach (by decide)

end Files

end Senob.Libk
