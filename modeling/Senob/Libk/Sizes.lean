import Senob.Libk.Console
import Senob.Libk.DescriptorPaths
import Senob.Libk.Seek

/-!
# The two sizes of an open file

The size of an open file is in its file object and in its directory entry. `write` and `lseek`
change the first, `fstat` and `lseek` from the end read the second, and only `f_sync` makes them
equal again.
-/

namespace Senob.Libk

open Foundation

/-- `struct stat`, as far as `stat` fills it in. -/
structure Stat where
  size : Int
  directory : Bool
  deriving DecidableEq

namespace FileSystem

/-- The result of `f_open`. -/
def openResult (v : Volume) (register : Register) (path : Path) (mode : Byte) : FResult :=
  match v.fOpen path mode register with
  | .ok _ => .ok
  | .error res => res

/-- `open`, with the pointer that `kmalloc` returns. -/
def openFile (s : FileSystem) (name : Option Path) (flags : Word) (kmalloc : Option Fil)
    (register : Register) : FileSystem × Int :=
  let outcome := Libk.openFile s.files name flags kmalloc (openResult s.volume register)
  let opened :=
    match name, kmalloc with
    | some name, some fil =>
        if 0 ≤ outcome.result then
          match s.volume.fOpen (strncpy name maxLfn) (translateFlags flags) register with
          | .ok (v, fp) => ⟨outcome.files, Function.update s.object fil fp, v⟩
          | .error _ => { s with files := outcome.files }
        else { s with files := outcome.files }
    | _, _ => { s with files := outcome.files }
  (opened, outcome.result)

/-- `write`. What goes to the console leaves the files alone. -/
def write (s : FileSystem) (fd : Int) (buf len : Word) : FileSystem × Int :=
  if buf = 0 then s.fail .einval
  else if fd = stdoutFileno ∨ fd = stderrFileno then (s, len.toInt)
  else
    match s.files.slot fd with
    | none => s.fail .ebadf
    | some fil =>
        let (t, res) := s.apply fil fun v fp => fWrite v fp len
        if res ≠ .ok then t.fail (mapFresultToErrno res)
        else (t, ((t.object fil).fptr - (s.object fil).fptr).toInt)

/-- `fstat`, which asks for the path of the descriptor. -/
def fstat (s : FileSystem) (file : Int) : FileSystem × Option Stat :=
  match s.files.slot file with
  | none => (s.setErrno .ebadf, none)
  | some _ =>
      match s.volume.fStat (s.files.entryPath file) with
      | .error res => (s.setErrno (mapFresultToErrno res), none)
      | .ok fno => (s, some ⟨fno.fsize.toInt, fno.fattrib &&& 0x10 ≠ 0⟩)

/-! ## Runs on one descriptor -/

/-- The calls on an open descriptor that may change its size. -/
inductive SizeOp where
  | write (buf len : Word)
  | lseek (offset : Word) (whence : Option Whence)

/-- The files, and the maximum of the size at `open` and the largest offset written so far. -/
structure Tracked where
  fs : FileSystem
  high : Nat

/-- The size of the open file. -/
def sizeOf (s : FileSystem) (fd : Int) : Nat :=
  match s.files.slot fd with
  | some fil => (s.object fil).objsize.toNat
  | none => 0

namespace Tracked

/-- What `open` leaves. -/
def start (s : FileSystem) (fd : Int) : Tracked := ⟨s, s.sizeOf fd⟩

/-- The end of what was written between two states, if anything was. -/
def written (s t : FileSystem) (fd : Int) : Nat :=
  match t.files.slot fd with
  | some fil =>
      if (t.object fil).fptr = (s.object fil).fptr then 0 else (t.object fil).fptr.toNat
  | none => 0

def step (fd : Int) (s : Tracked) : SizeOp → Option Tracked
  | .write buf len =>
      let t := (s.fs.write fd buf len).1
      some ⟨t, max s.high (written s.fs t fd)⟩
  | .lseek offset whence => some ⟨(s.fs.lseek fd offset whence).1, s.high⟩

/-- Both `lseek` to the end and `fstat` would give the size of the file, which is the maximum of
its size at `open` and the largest offset written. -/
structure Current (fd : Int) (s : Tracked) : Prop where
  size : s.fs.sizeOf fd = s.high
  lseek : (s.fs.lseek fd 0 (some .seekEnd)).2 = s.high
  fstat : ∃ st, (s.fs.fstat fd).2 = some st ∧ st.size = s.high

/-- The offset that a call on the file object is to go to, or 0 if it goes nowhere. -/
def reach (s : FileSystem) (fd : Int) (fil : Fil) : SizeOp → Nat
  | .write buf len =>
      if buf = 0 then 0 else min ((s.object fil).fptr.toNat + len.toNat) (2 ^ 32 - 1)
  | .lseek offset (some .seekSet) => offset.toNat
  | .lseek offset (some .seekCur) => ((s.object fil).fptr + offset).toNat
  | .lseek offset (some .seekEnd) =>
      match s.volume.fStat (s.files.entryPath fd) with
      | .ok fno => (fno.fsize + offset).toNat
      | .error _ => 0
  | .lseek _ none => 0

/-- The call stays within the file: the file is not open for writing, the call does not go behind
its end, or no cluster is free to go there. -/
def Keeps (fd : Int) (s : Tracked) (op : SizeOp) : Prop :=
  ∀ fil, s.fs.files.slot fd = some fil → (s.fs.object fil).write = true →
    min (reach s.fs fd fil op) ((s.fs.object fil).capacity s.fs.volume) ≤
      (s.fs.object fil).objsize.toNat

end Tracked

/-! ## One call -/

variable {s t : FileSystem} {fd : Int} {fil : Fil}

/-- What a call leaves of an open file: the directory, the tables, and a size that grew to
`size`. -/
structure Grown (s t : FileSystem) (fd : Int) (fil : Fil) (size : Nat) : Prop where
  isOpen : t.Open fd fil
  path : t.files.entryPath = s.files.entryPath
  stat : ∀ path, t.volume.fStat path = s.volume.fStat path
  size : (t.object fil).objsize.toNat = size

theorem Open.unchanged (h : s.Open fd fil) (errno : Errno) :
    Grown s (s.setErrno errno) fd fil (s.object fil).objsize.toNat :=
  ⟨h.setErrno errno, rfl, fun _ => rfl, rfl⟩

theorem Open.moved (h : s.Open fd fil) {goal : Nat} (hfiles : t.files = s.files)
    (hmoved : Moved s.volume (s.object fil) goal ⟨t.volume, t.object fil, .ok⟩) :
    Grown s t fd fil (max (s.object fil).objsize.toNat goal) := by
  obtain ⟨free, hvolume⟩ := hmoved.volume
  have hvolume : t.volume = s.volume.setFree free := hvolume
  refine ⟨⟨?_, ?_, ?_⟩, ?_, fun path => ?_, hmoved.objsize⟩
  · rw [hfiles, h.slot]
  · rw [hfiles, h.valid]
  · rw [hvolume]
    exact hmoved.sound
  · rw [hfiles]
  · rw [hvolume, Volume.fStat_setFree]

/-- The size after a call that is to go to `reach`. -/
def grownSize (s : FileSystem) (fil : Fil) (reach : Nat) : Nat :=
  if (s.object fil).write then
    max (s.object fil).objsize.toNat (min reach ((s.object fil).capacity s.volume))
  else (s.object fil).objsize.toNat

theorem grownSize_zero (s : FileSystem) (fil : Fil) :
    grownSize s fil 0 = (s.object fil).objsize.toNat := by
  simp [grownSize]

theorem Open.seekTo_grown (h : s.Open fd fil) (ofs : Word) :
    Grown s (s.seekTo fil ofs).1 fd fil (grownSize s fil ofs.toNat) := by
  have hsought := h.seekTo ofs
  have hgrown := h.moved hsought.files hsought.moved
  have hsize : max (s.object fil).objsize.toNat
      ((s.object fil).seekEnd s.volume ofs.toNat) = grownSize s fil ofs.toNat := by
    unfold FileObject.seekEnd grownSize
    split_ifs
    · rfl
    · exact Nat.max_eq_left (Nat.min_le_right _ _)
  rwa [hsize] at hgrown

theorem Open.lseek_grown (h : s.Open fd fil) (offset : Word) (whence : Option Whence) :
    Grown s (s.lseek fd offset whence).1 fd fil
      (grownSize s fil (Tracked.reach s fd fil (.lseek offset whence))) := by
  unfold FileSystem.lseek Tracked.reach
  rw [h.slot]
  cases whence with
  | none =>
      rw [grownSize_zero]
      exact h.unchanged _
  | some whence =>
      cases whence with
      | seekSet => exact h.seekTo_grown offset
      | seekCur => exact h.seekTo_grown _
      | seekEnd =>
          cases hstat : s.volume.fStat (s.files.entryPath fd) with
          | ok fno => exact h.seekTo_grown _
          | error res =>
              rw [grownSize_zero]
              exact h.unchanged _

theorem Open.write_grown (h : s.Open fd fil) (hfd : 3 ≤ fd) (buf len : Word) :
    Grown s (s.write fd buf len).1 fd fil
      (grownSize s fil (Tracked.reach s fd fil (.write buf len))) := by
  have hconsole : ¬ (fd = stdoutFileno ∨ fd = stderrFileno) := by
    unfold stdoutFileno stderrFileno
    omega
  have hreach : Tracked.reach s fd fil (.write buf len) =
      if buf = 0 then 0 else min ((s.object fil).fptr.toNat + len.toNat) (2 ^ 32 - 1) := rfl
  rw [hreach]
  unfold FileSystem.write
  by_cases hbuf : buf = 0
  · rw [if_pos hbuf, if_pos hbuf, grownSize_zero]
    exact h.unchanged _
  rw [if_neg hbuf, if_neg hbuf, if_neg hconsole, h.slot]
  simp only [apply, if_pos h.valid]
  cases hwrite : (s.object fil).write with
  | false =>
      have hdenied : fWrite s.volume (s.object fil) len =
          ⟨s.volume, s.object fil, .denied⟩ := by
        unfold fWrite
        rw [if_neg (not_not.mpr h.sound.err), if_pos hwrite]
      have hsize : grownSize s fil (min ((s.object fil).fptr.toNat + len.toNat) (2 ^ 32 - 1)) =
          (s.object fil).objsize.toNat := by
        rw [grownSize, hwrite, if_neg Bool.false_ne_true]
      rw [hdenied, if_pos (show FResult.denied ≠ .ok by decide), hsize, Function.update_eq_self]
      exact h.unchanged _
  | true =>
      have hmoved := fWrite_moved h.sound hwrite len
      rw [hmoved.res, if_neg (by decide), grownSize, hwrite, if_pos rfl]
      refine h.moved rfl ?_
      dsimp only
      rw [Function.update_self, ← hmoved.res]
      exact hmoved

/-- FatFs has accepted what `open` returns a descriptor for. -/
theorem accepted_of_result {s : Files} {path : Path} {flags : Word} {fil : Fil}
    {fatfs : Path → Byte → FResult}
    (hopen : 0 ≤ (Libk.openFile s (some path) flags (some fil) fatfs).result) :
    3 ≤ (Libk.openFile s (some path) flags (some fil) fatfs).result ∧
      fatfs (strncpy path maxLfn) (translateFlags flags) = .ok ∧
      (Libk.openFile s (some path) flags (some fil) fatfs).files.valid fil = true := by
  simp only [Libk.openFile] at hopen ⊢
  rcases FileHistory.getFreeFd_cases s with hnone | ⟨hlow, -, -⟩
  · rw [hnone, if_pos (by decide)] at hopen
    exact absurd hopen (show ¬ (0 : Int) ≤ -1 by decide)
  rw [if_neg (by omega)] at hopen ⊢
  generalize fatfs (strncpy path maxLfn) (translateFlags flags) = res at hopen ⊢
  by_cases hok : res = .ok
  · simp only [fOpen, hok, if_true]
    exact ⟨hlow, trivial, Function.update_self _ _ _⟩
  · simp only [fOpen, hok, if_false] at hopen
    exact absurd hopen (show ¬ (0 : Int) ≤ -1 by decide)

/-- A successful `open`: FatFs has opened the file of the truncated name, and the descriptor is
bound to its object. -/
structure Opened (s t : FileSystem) (fd : Int) (path : Path) (flags : Word) (fil : Fil)
    (register : Register) : Prop where
  low : 3 ≤ fd
  fOpen : s.volume.fOpen (strncpy path maxLfn) (translateFlags flags) register =
    .ok (t.volume, t.object fil)
  slot : t.files.slot fd = some fil
  valid : t.files.valid fil = true
  path : t.files.entryPath fd = strncpy path maxLfn

theorem openFile_opened {name : Option Path} {flags : Word} {kmalloc : Option Fil}
    {register : Register} (hcall : s.openFile name flags kmalloc register = (t, fd))
    (hopen : 0 ≤ fd) :
    ∃ path fil, name = some path ∧ kmalloc = some fil ∧ Opened s t fd path flags fil register := by
  have hfd : (Libk.openFile s.files name flags kmalloc (openResult s.volume register)).result =
      fd := congrArg Prod.snd hcall
  rcases FileHistory.openFile_cases s.files name flags kmalloc (openResult s.volume register) with
    ⟨hfailed, -⟩ | ⟨path, fil, fd', rfl, rfl, hresult, -, hslot, -, hpath, -⟩
  · omega
  obtain rfl : fd' = fd := hresult.symm.trans hfd
  obtain ⟨hlow, haccepted, hvalid⟩ := accepted_of_result (hfd.symm ▸ hopen)
  cases hfatfs : s.volume.fOpen (strncpy path maxLfn) (translateFlags flags) register with
  | error res =>
      unfold openResult at haccepted
      rw [hfatfs] at haccepted
      exact absurd haccepted res.2
  | ok opened =>
      obtain ⟨v, fp⟩ := opened
      simp only [FileSystem.openFile, hfatfs, hfd, if_pos hopen] at hcall
      obtain ⟨rfl, -⟩ := Prod.mk.inj hcall
      refine ⟨path, fil, rfl, rfl, hfd ▸ hlow, ?_, hslot, hvalid, hpath⟩
      dsimp only
      rw [Function.update_self]
      exact hfatfs

/-- What `open` returns with success: the descriptor is open, and the directory has the size of
the file. -/
theorem openFile_open (hsound : s.volume.Sound) {name : Option Path} {flags : Word}
    {kmalloc : Option Fil} {register : Register}
    (hcall : s.openFile name flags kmalloc register = (t, fd)) (hopen : 0 ≤ fd) :
    3 ≤ fd ∧ ∃ fil fno, t.Open fd fil ∧ t.volume.fStat (t.files.entryPath fd) = .ok fno ∧
      fno.fsize = (t.object fil).objsize := by
  obtain ⟨path, fil, -, -, hopened⟩ := openFile_opened hcall hopen
  obtain ⟨hobject, fno, hstat, hsize⟩ := Volume.fOpen_spec hsound hopened.fOpen
  refine ⟨hopened.low, fil, fno, ⟨hopened.slot, hopened.valid, hobject⟩, ?_, hsize⟩
  rw [hopened.path]
  exact hstat

/-! ## All calls -/

namespace Tracked

/-- The invariant of a run without growth. -/
structure Settled (fd : Int) (size : Word) (s : Tracked) : Prop where
  isOpen : ∃ fil, s.fs.Open fd fil ∧ (s.fs.object fil).objsize = size
  stat : ∃ fno, s.fs.volume.fStat (s.fs.files.entryPath fd) = .ok fno ∧ fno.fsize = size
  high : s.high = size.toNat

variable {size : Word} {s t : Tracked}

theorem sizeOf_eq {s : FileSystem} (h : s.Open fd fil) :
    s.sizeOf fd = (s.object fil).objsize.toNat := by
  rw [sizeOf, h.slot]

/-- A word below 2^31 is the same number as an `off_t`. -/
theorem toInt_eq_toNat_iff (size : Word) : size.toInt = size.toNat ↔ size.toNat < 2 ^ 31 := by
  have htoInt := BitVec.toInt_eq_toNat_cond size
  have hlt := size.isLt
  split_ifs at htoInt <;> omega

theorem Settled.fstat_eq (h : Settled fd size s) :
    ∃ directory, (s.fs.fstat fd).2 = some ⟨size.toInt, directory⟩ := by
  obtain ⟨fil, hopen, -⟩ := h.isOpen
  obtain ⟨fno, hstat, rfl⟩ := h.stat
  simp only [FileSystem.fstat, hopen.slot, hstat]
  exact ⟨_, rfl⟩

/-- Without growth both answers are right, if the size is an `off_t`. -/
theorem Settled.current_iff (h : Settled fd size s) : Current fd s ↔ size.toNat < 2 ^ 31 := by
  obtain ⟨directory, hfstat⟩ := h.fstat_eq
  constructor
  · intro hcurrent
    obtain ⟨st, hst, hsize⟩ := hcurrent.fstat
    obtain rfl := Option.some.inj (hst.symm.trans hfstat)
    rw [h.high] at hsize
    exact (toInt_eq_toNat_iff size).mp hsize
  · intro hsmall
    obtain ⟨fil, hopen, hobject⟩ := h.isOpen
    obtain ⟨fno, hstat, hfno⟩ := h.stat
    have htarget : s.fs.target fil 0 .seekEnd = size.toNat := by
      rw [← hobject]
      exact Int.add_zero _
    have hcall : s.fs.lseek fd 0 (some .seekEnd) = s.fs.seekTo fil (fno.fsize + 0) := by
      simp only [FileSystem.lseek, hopen.slot, hstat]
    have harrives : Arrives fil (s.fs.target fil 0 .seekEnd) (s.fs.seekTo fil (fno.fsize + 0)) :=
      (hopen.arrives_stat_iff (by omega) (by rw [hobject]; omega)).mpr
        ⟨by rw [htarget]; exact_mod_cast hsmall, Or.inl (hfno.trans hobject.symm)⟩
    refine ⟨?_, ?_, ⟨_, hfstat, ?_⟩⟩
    · rw [sizeOf_eq hopen, hobject, h.high]
    · rw [hcall, harrives.result, htarget, h.high]
    · rw [h.high]
      exact (toInt_eq_toNat_iff size).mpr hsmall

/-- One call of a run, by the size that it leaves. -/
theorem Settled.called (h : Settled fd size s) (hfd : 3 ≤ fd) {op : SizeOp}
    (hopen : s.fs.Open fd fil) (hstep : step fd s op = some t) :
    Grown s.fs t.fs fd fil (grownSize s.fs fil (reach s.fs fd fil op)) ∧
      (t.high = size.toNat ∨
        t.high = max size.toNat (t.fs.object fil).fptr.toNat) := by
  cases op with
  | write buf len =>
      have hgrown := hopen.write_grown hfd buf len
      obtain rfl := Option.some.inj hstep
      refine ⟨hgrown, ?_⟩
      simp only [written, hgrown.isOpen.slot, h.high]
      split_ifs
      · exact Or.inl (Nat.max_zero _)
      · exact Or.inr rfl
  | lseek offset whence =>
      obtain rfl := Option.some.inj hstep
      exact ⟨hopen.lseek_grown offset whence, Or.inl h.high⟩

/-- A call that stays within the file keeps the two sizes equal. -/
theorem Settled.keeps (h : Settled fd size s) (hfd : 3 ≤ fd) {op : SizeOp}
    (hkeeps : Keeps fd s op) (hstep : step fd s op = some t) : Settled fd size t := by
  obtain ⟨fil, hopen, hobject⟩ := h.isOpen
  obtain ⟨fno, hstat, hfno⟩ := h.stat
  obtain ⟨hgrown, hhigh⟩ := h.called hfd hopen hstep
  have hsame : grownSize s.fs fil (reach s.fs fd fil op) = size.toNat := by
    unfold grownSize
    rw [hobject]
    split_ifs with hwrite
    · have hwithin := hkeeps fil hopen.slot hwrite
      rw [hobject] at hwithin
      exact Nat.max_eq_left hwithin
    · rfl
  have hsize : (t.fs.object fil).objsize = size := BitVec.eq_of_toNat_eq (hgrown.size.trans hsame)
  refine ⟨⟨fil, hgrown.isOpen, hsize⟩, ⟨fno, ?_, hfno⟩, ?_⟩
  · rw [hgrown.stat, hgrown.path]
    exact hstat
  · have hin := hgrown.isOpen.sound.fptr_le
    rw [hsize] at hin
    omega

/-- A call that makes the file grow leaves the old size in the directory. -/
theorem Settled.grows (h : Settled fd size s) (hfd : 3 ≤ fd) {op : SizeOp}
    (hgrows : ¬ Keeps fd s op) (hstep : step fd s op = some t) : ¬ Current fd t := by
  obtain ⟨fil, hopen, hobject⟩ := h.isOpen
  obtain ⟨fno, hstat, hfno⟩ := h.stat
  obtain ⟨hgrown, -⟩ := h.called hfd hopen hstep
  unfold Keeps at hgrows
  push Not at hgrows
  obtain ⟨fil', hslot, hwrite, hlt⟩ := hgrows
  obtain rfl : fil = fil' := Option.some.inj (hopen.slot.symm.trans hslot)
  intro hcurrent
  obtain ⟨st, hst, hsize⟩ := hcurrent.fstat
  have hlarger : size.toNat < t.high := by
    rw [← hcurrent.size, sizeOf_eq hgrown.isOpen, hgrown.size, grownSize, if_pos hwrite,
      Nat.max_eq_right hlt.le]
    rwa [hobject] at hlt
  have hold : st.size = size.toInt := by
    have hpath : t.fs.volume.fStat (t.fs.files.entryPath fd) = .ok fno := by
      rw [hgrown.stat, hgrown.path]
      exact hstat
    simp only [FileSystem.fstat, hgrown.isOpen.slot, hpath, hfno] at hst
    rw [← Option.some.inj hst]
  have htoInt := BitVec.toInt_eq_toNat_cond size
  split_ifs at htoInt <;> omega

/-- In every run on a descriptor that `open` returned, both answers give the actual size
throughout exactly when the file is opened with less than 2^31 bytes and no call makes it
grow. -/
theorem always_current_iff {s t : FileSystem} {fd : Int} (hsound : s.volume.Sound)
    {name : Option Path} {flags : Word} {kmalloc : Option Fil} {register : Register}
    (hcall : s.openFile name flags kmalloc register = (t, fd)) (hopen : 0 ≤ fd)
    (ops : List SizeOp) :
    Always (step fd) (Current fd) (start t fd) ops ↔
      t.sizeOf fd < 2 ^ 31 ∧ Admissible (step fd) (Keeps fd) (start t fd) ops := by
  obtain ⟨hfd, fil, fno, hfile, hstat, hsize⟩ := openFile_open hsound hcall hopen
  have hstart : Settled fd (t.object fil).objsize (start t fd) :=
    ⟨⟨fil, hfile, rfl⟩, ⟨fno, hstat, hsize⟩, sizeOf_eq hfile⟩
  have hadmissible : Admissible (step fd) (fun _ _ => True) (start t fd) ops :=
    .of_forall fun _ _ _ => trivial
  have hgrows : ∀ u op, Settled fd (t.object fil).objsize u → True → ¬ Keeps fd u op →
      ∃ v, step fd u op = some v ∧ ¬ Current fd v := by
    intro u op hu _ hgrows
    obtain ⟨v, hv⟩ : ∃ v, step fd u op = some v := by
      cases op <;> exact ⟨_, rfl⟩
    exact ⟨v, hv, hu.grows hfd hgrows hv⟩
  have hrun := fun hsmall : (t.object fil).objsize.toNat < 2 ^ 31 =>
    always_iff_admissible (Settled fd (t.object fil).objsize)
      (fun u hu => hu.current_iff.mpr hsmall)
      (fun u op v hu _ hkeeps hv => hu.keeps hfd hkeeps hv) hgrows hstart hadmissible
  rw [sizeOf_eq hfile]
  constructor
  · intro halways
    have hsmall := hstart.current_iff.mp halways.head
    exact ⟨hsmall, (hrun hsmall).mp halways⟩
  · rintro ⟨hsmall, hkeeps⟩
    exact (hrun hsmall).mpr hkeeps

/-- A volume of two clusters, with a file of three bytes in one of them. -/
def oneFree : FileSystem :=
  ⟨.initial, fun _ => ⟨false, .ok, 0, 0, 0⟩, { oneFile with free := 1 }⟩

theorem oneFree_sound : oneFree.volume.Sound := fun _ => show 3 ≤ 1 * (512 * 1) by decide

theorem denied_ne_ok : FResult.denied ≠ .ok := by decide

/-- The file, opened for reading and writing. -/
def oneFreeOpened : FileSystem × Int :=
  oneFree.openFile (some [0x41]) 2 (some 0xD0000000) (.error ⟨.denied, denied_ne_ok⟩)

theorem always_current_oneFree :
    Always (step 3) (Current 3) (start oneFreeOpened.1 3) [.write 0x1000 4] ↔
      oneFreeOpened.1.sizeOf 3 < 2 ^ 31 ∧
        Admissible (step 3) (Keeps 3) (start oneFreeOpened.1 3) [.write 0x1000 4] :=
  always_current_iff oneFree_sound (show oneFreeOpened = (oneFreeOpened.1, 3) from
    Prod.ext rfl (by decide)) (by decide) [.write 0x1000 4]

/-- Four bytes are written over three, and the directory still has the size of three. -/
theorem written_size_is_stale :
    ¬ ∀ (s t : FileSystem) (fd : Int) (name : Option Path) (flags : Word) (kmalloc : Option Fil)
      (register : Register), s.volume.Sound →
      s.openFile name flags kmalloc register = (t, fd) → 0 ≤ fd →
      ∀ ops, Always (step fd) (Current fd) (start t fd) ops := by
  intro hclaim
  have hrun := hclaim oneFree oneFreeOpened.1 3 _ _ _ _ oneFree_sound
    (show oneFreeOpened = (oneFreeOpened.1, 3) from Prod.ext rfl (by decide)) (by decide)
    [.write 0x1000 4]
  obtain ⟨st, hst, hsize⟩ := (hrun.2 _ rfl).fstat
  have hstale : (((oneFreeOpened.1.write 3 0x1000 4).1).fstat 3).2 = some ⟨3, false⟩ := by decide
  obtain rfl := Option.some.inj (hst.symm.trans hstale)
  exact absurd hsize (by decide)

end Tracked

end FileSystem

end Senob.Libk
