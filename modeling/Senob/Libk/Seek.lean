import Senob.Libk.FileObjects

/-!
# Seeking

`lseek` adds a signed offset to an unsigned one and hands the sum to `f_lseek`. It is correct for
targets within the file, and only by an error of `f_stat` for targets before its start.
-/

namespace Senob.Libk

/-- The descriptor table, the file objects and the volume. -/
structure FileSystem where
  files : Files
  object : Fil → FileObject
  volume : Volume

inductive Whence where
  | seekSet
  | seekCur
  | seekEnd
  deriving DecidableEq

namespace FileSystem

def setErrno (s : FileSystem) (errno : Errno) : FileSystem :=
  { s with files := s.files.setErrno errno }

/-- A FatFs function on a file object, after `validate`. -/
def apply (s : FileSystem) (fil : Fil) (f : Volume → FileObject → Reply) : FileSystem × FResult :=
  if s.files.valid fil then
    let r := f s.volume (s.object fil)
    (⟨s.files, Function.update s.object fil r.object, r.volume⟩, r.res)
  else (s, .invalidObject)

/-- `errno = …; return -1;` -/
def fail (s : FileSystem) (errno : Errno) : FileSystem × Int := (s.setErrno errno, -1)

/-- `f_lseek`, and `f_tell` if it succeeds. -/
def seekTo (s : FileSystem) (fil : Fil) (ofs : Word) : FileSystem × Int :=
  let (t, res) := s.apply fil fun v fp => fLseek v fp ofs
  if res ≠ .ok then t.fail (mapFresultToErrno res) else (t, (t.object fil).fptr.toInt)

/-- `lseek`, where `whence` is `none` for any other number. -/
def lseek (s : FileSystem) (file : Int) (offset : Word) (whence : Option Whence) :
    FileSystem × Int :=
  match s.files.slot file with
  | none => s.fail .ebadf
  | some fil =>
      match whence with
      | some .seekSet => s.seekTo fil offset
      | some .seekCur => s.seekTo fil ((s.object fil).fptr + offset)
      | some .seekEnd =>
          match s.volume.fStat (s.files.entryPath file) with
          | .error res => s.fail (mapFresultToErrno res)
          | .ok fno => s.seekTo fil (fno.fsize + offset)
      | none => s.fail .einval

/-- The descriptor is in the table, with a valid file object as FatFs keeps them. -/
structure Open (s : FileSystem) (fd : Int) (fil : Fil) : Prop where
  slot : s.files.slot fd = some fil
  valid : s.files.valid fil = true
  sound : (s.object fil).Sound s.volume.bcs

/-- What the offset of a call counts from. -/
def base (s : FileSystem) (fil : Fil) : Whence → Word
  | .seekSet => 0
  | .seekCur => (s.object fil).fptr
  | .seekEnd => (s.object fil).objsize

/-- The exact target of a call. -/
def target (s : FileSystem) (fil : Fil) (offset : Word) (whence : Whence) : Int :=
  (s.base fil whence).toNat + offset.toInt

/-- The call fails with `EINVAL` and leaves the position, the size and the disk alone. -/
structure Refuses (s : FileSystem) (fil : Fil) (call : FileSystem × Int) : Prop where
  result : call.2 = -1
  errno : call.1.files.errno = .einval
  object : call.1.object fil = s.object fil
  volume : call.1.volume = s.volume

/-- The call returns the target and goes there. -/
structure Arrives (fil : Fil) (t : Int) (call : FileSystem × Int) : Prop where
  result : call.2 = t
  fptr : ((call.1.object fil).fptr.toNat : Int) = t

/-- Whatever `errno` was before, a target before the start of the file is refused and one within
the file is reached. -/
def SeeksInBounds (s : FileSystem) (fd : Int) (fil : Fil) (offset : Word) (whence : Whence) :
    Prop :=
  ∀ errno,
    (s.target fil offset whence < 0 →
      s.Refuses fil ((s.setErrno errno).lseek fd offset (some whence))) ∧
    (0 ≤ s.target fil offset whence → s.target fil offset whence ≤ (s.object fil).objsize.toNat →
      Arrives fil (s.target fil offset whence) ((s.setErrno errno).lseek fd offset (some whence)))

/-- The directory gives the current size. A larger size does no harm if `f_lseek` is to go to it
exactly and cannot let the file grow. -/
def KnowsSize (s : FileSystem) (fd : Int) (fil : Fil) (offset : Word) : Prop :=
  ∃ fno, s.volume.fStat (s.files.entryPath fd) = .ok fno ∧
    (fno.fsize = (s.object fil).objsize ∨
      (s.object fil).objsize < fno.fsize ∧ offset = 0 ∧
        ((s.object fil).write = false ∨
          (s.object fil).capacity s.volume = (s.object fil).objsize.toNat))

/-- A negative target meets a path that FatFs calls invalid, and a target within the file is an
`off_t`, counted from the current size where it is counted from the end. -/
def Seekable (s : FileSystem) (fd : Int) (fil : Fil) (offset : Word) (whence : Whence) : Prop :=
  (s.target fil offset whence < 0 →
    whence = .seekEnd ∧ ∃ res, s.volume.fStat (s.files.entryPath fd) = .error res ∧
      mapFresultToErrno res = .einval) ∧
  (0 ≤ s.target fil offset whence → s.target fil offset whence ≤ (s.object fil).objsize.toNat →
    s.target fil offset whence < 2 ^ 31 ∧ (whence = .seekEnd → s.KnowsSize fd fil offset))

/-! ## One seek -/

variable {s : FileSystem} {fd : Int} {fil : Fil}

@[simp] theorem setErrno_object (s : FileSystem) (errno : Errno) :
    (s.setErrno errno).object = s.object := rfl

@[simp] theorem setErrno_volume (s : FileSystem) (errno : Errno) :
    (s.setErrno errno).volume = s.volume := rfl

theorem Open.setErrno (h : s.Open fd fil) (errno : Errno) : (s.setErrno errno).Open fd fil :=
  ⟨h.slot, h.valid, h.sound⟩

/-- What `f_lseek` does in an open file. -/
structure Sought (s : FileSystem) (fil : Fil) (ofs : Word) (call : FileSystem × Int) : Prop where
  files : call.1.files = s.files
  result : call.2 = (call.1.object fil).fptr.toInt
  moved : Moved s.volume (s.object fil) ((s.object fil).seekEnd s.volume ofs.toNat)
    ⟨call.1.volume, call.1.object fil, .ok⟩

theorem Open.seekTo (h : s.Open fd fil) (ofs : Word) : s.Sought fil ofs (s.seekTo fil ofs) := by
  have hmoved := fLseek_moved h.sound ofs
  have happly : s.seekTo fil ofs =
      (⟨s.files, Function.update s.object fil (fLseek s.volume (s.object fil) ofs).object,
        (fLseek s.volume (s.object fil) ofs).volume⟩,
        (fLseek s.volume (s.object fil) ofs).object.fptr.toInt) := by
    simp only [FileSystem.seekTo, apply, if_pos h.valid, hmoved.res, ne_eq, not_true_eq_false,
      if_false, Function.update_self]
  rw [happly]
  refine ⟨rfl, ?_, ?_⟩
  · simp only [Function.update_self]
  · simp only [Function.update_self]
    rw [← hmoved.res]
    exact hmoved

/-- `f_lseek` ends at a place within the file if that is its target, or if it is the end of the
file and the target lies behind it out of reach. -/
theorem seekEnd_eq_iff {v : Volume} {fp : FileObject} (h : fp.Sound v.bcs) {ofs t : Nat}
    (ht : t ≤ fp.objsize.toNat) :
    fp.seekEnd v ofs = t ↔
      ofs = t ∨ t = fp.objsize.toNat ∧ fp.objsize.toNat < ofs ∧
        (fp.write = false ∨ fp.capacity v = fp.objsize.toNat) := by
  have hcapacity := h.le_capacity
  unfold FileObject.seekEnd
  cases hwrite : fp.write with
  | true =>
      rw [if_pos rfl]
      simp only [Bool.true_eq_false, false_or]
      omega
  | false =>
      rw [if_neg Bool.false_ne_true]
      simp only [true_or, and_true]
      omega

/-- A seek arrives at a target that is an `off_t`. -/
theorem Sought.arrives_iff {ofs : Word} {call : FileSystem × Int} (h : s.Sought fil ofs call)
    {t : Int} (hpos : 0 ≤ t) :
    Arrives fil t call ↔
      t < 2 ^ 31 ∧ ((s.object fil).seekEnd s.volume ofs.toNat : Int) = t := by
  have hfptr : (call.1.object fil).fptr.toNat =
      (s.object fil).seekEnd s.volume ofs.toNat := h.moved.fptr
  have hresult := h.result
  have htoInt := BitVec.toInt_eq_toNat_cond (call.1.object fil).fptr
  have hlt := (call.1.object fil).fptr.isLt
  constructor
  · rintro ⟨hreturned, hat⟩
    split_ifs at htoInt <;> omega
  · rintro ⟨hsmall, hend⟩
    have hat : ((call.1.object fil).fptr.toNat : Int) = t := by rw [hfptr, hend]
    refine ⟨?_, hat⟩
    split_ifs at htoInt <;> omega

/-- The sum that `f_lseek` is given is the target if that is a file offset. -/
theorem toNat_add_offset {base offset : Word} {t : Int} (ht : t = base.toNat + offset.toInt)
    (hpos : 0 ≤ t) (hlt : t < 2 ^ 32) : ((base + offset).toNat : Int) = t := by
  have hoffset := BitVec.toInt_eq_toNat_cond offset
  have hbase := base.isLt
  have hword := offset.isLt
  rw [BitVec.toNat_add]
  split_ifs at hoffset <;> omega

theorem target_lt {offset : Word} {whence : Whence}
    (hle : s.target fil offset whence ≤ (s.object fil).objsize.toNat) :
    s.target fil offset whence < 2 ^ 32 := by
  have hsize := (s.object fil).objsize.isLt
  omega

/-- From the start or the position, a target within the file is reached if it is an `off_t`. -/
theorem Open.arrives_iff (h : s.Open fd fil) {offset : Word} {whence : Whence}
    (hpos : 0 ≤ s.target fil offset whence)
    (hle : s.target fil offset whence ≤ (s.object fil).objsize.toNat) :
    Arrives fil (s.target fil offset whence)
        (s.seekTo fil (s.base fil whence + offset)) ↔ s.target fil offset whence < 2 ^ 31 := by
  rw [(h.seekTo _).arrives_iff hpos]
  refine and_iff_left ?_
  have hofs : ((s.base fil whence + offset).toNat : Int) = s.target fil offset whence :=
    toNat_add_offset rfl hpos (target_lt hle)
  have hin : (s.base fil whence + offset).toNat ≤ (s.object fil).objsize.toNat := by omega
  rw [(seekEnd_eq_iff h.sound hin).mpr (Or.inl rfl), hofs]

/-- From the end as the directory has it, the target is reached if the size there is right. -/
theorem Open.arrives_stat_iff (h : s.Open fd fil) {offset : Word} {fno : DirEntry}
    (hpos : 0 ≤ s.target fil offset .seekEnd)
    (hle : s.target fil offset .seekEnd ≤ (s.object fil).objsize.toNat) :
    Arrives fil (s.target fil offset .seekEnd) (s.seekTo fil (fno.fsize + offset)) ↔
      s.target fil offset .seekEnd < 2 ^ 31 ∧
        (fno.fsize = (s.object fil).objsize ∨
          (s.object fil).objsize < fno.fsize ∧ offset = 0 ∧
            ((s.object fil).write = false ∨
              (s.object fil).capacity s.volume = (s.object fil).objsize.toNat)) := by
  rw [(h.seekTo _).arrives_iff hpos]
  refine and_congr_right fun _ => ?_
  have hofs : (((s.object fil).objsize + offset).toNat : Int) = s.target fil offset .seekEnd :=
    toNat_add_offset rfl hpos (target_lt hle)
  have hin : ((s.object fil).objsize + offset).toNat ≤ (s.object fil).objsize.toNat := by omega
  rw [← hofs, Nat.cast_inj, seekEnd_eq_iff h.sound hin]
  refine or_congr ?_ ?_
  · rw [BitVec.toNat_inj]
    exact BitVec.add_left_inj offset
  · rw [BitVec.toNat_inj]
    have hzero : (s.object fil).objsize + offset = (s.object fil).objsize ↔ offset = 0 :=
      BitVec.add_right_eq_self
    rw [hzero]
    refine Iff.trans (and_congr_right fun hoffset => ?_) and_left_comm
    have hsum : fno.fsize + offset = fno.fsize := BitVec.add_right_eq_self.mpr hoffset
    rw [hsum, BitVec.lt_def]

/-- What `lseek` does with an open file, by `whence`. -/
theorem Open.lseek (h : s.Open fd fil) (offset : Word) (whence : Whence) :
    (∃ res, whence = .seekEnd ∧ s.volume.fStat (s.files.entryPath fd) = .error res ∧
        s.lseek fd offset (some whence) = s.fail (mapFresultToErrno res)) ∨
      (∃ fno, whence = .seekEnd ∧ s.volume.fStat (s.files.entryPath fd) = .ok fno ∧
        s.lseek fd offset (some whence) = s.seekTo fil (fno.fsize + offset)) ∨
      whence ≠ .seekEnd ∧
        s.lseek fd offset (some whence) = s.seekTo fil (s.base fil whence + offset) := by
  simp only [FileSystem.lseek, h.slot]
  cases whence with
  | seekSet =>
      have hbase : s.base fil .seekSet + offset = offset := BitVec.zero_add offset
      refine Or.inr (Or.inr ⟨by decide, ?_⟩)
      rw [hbase]
  | seekCur => exact Or.inr (Or.inr ⟨by decide, rfl⟩)
  | seekEnd =>
      cases hstat : s.volume.fStat (s.files.entryPath fd) with
      | error res => exact Or.inl ⟨res, rfl, rfl, rfl⟩
      | ok fno => exact Or.inr (Or.inl ⟨fno, rfl, rfl, rfl⟩)

/-- A seek does not set `errno`. -/
theorem Sought.not_refuses {ofs : Word} {call : FileSystem × Int} (h : s.Sought fil ofs call)
    (herrno : s.files.errno ≠ .einval) (t : FileSystem) : ¬ t.Refuses fil call := by
  intro hrefuses
  refine herrno ?_
  rw [← h.files]
  exact hrefuses.errno

theorem not_arrives_fail {errno : Errno} {t : Int} (hpos : 0 ≤ t) :
    ¬ Arrives fil t (s.fail errno) := by
  intro harrives
  have hresult : (-1 : Int) = t := harrives.result
  omega

/-! ## All seeks -/

/-- For every open file, offset and `whence`, `lseek` respects the bounds of the file exactly when
it is asked for nothing before the start that `f_stat` does not refuse, and for no other place
within the file than an `off_t` counted from the right size. -/
theorem seeksInBounds_iff (h : s.Open fd fil) (offset : Word) (whence : Whence) :
    s.SeeksInBounds fd fil offset whence ↔ s.Seekable fd fil offset whence := by
  constructor
  · intro hbounds
    -- Taken at an `errno` that no refusal leaves behind.
    obtain ⟨hrefuses, harrives⟩ := hbounds .none
    have hopen := h.setErrno .none
    have herrno : (s.setErrno .none).files.errno ≠ .einval :=
      show Errno.none ≠ .einval by decide
    refine ⟨fun hneg => ?_, fun hpos hle => ?_⟩
    · have hrefused := hrefuses hneg
      rcases hopen.lseek offset whence with ⟨res, hend, hstat, hcall⟩ | ⟨fno, _, _, hcall⟩ |
        ⟨_, hcall⟩
      · rw [hcall] at hrefused
        exact ⟨hend, res, hstat, hrefused.errno⟩
      · rw [hcall] at hrefused
        exact absurd hrefused ((hopen.seekTo _).not_refuses herrno s)
      · rw [hcall] at hrefused
        exact absurd hrefused ((hopen.seekTo _).not_refuses herrno s)
    · have harrived := harrives hpos hle
      rcases hopen.lseek offset whence with ⟨res, _, _, hcall⟩ | ⟨fno, hend, hstat, hcall⟩ |
        ⟨hset, hcall⟩
      · rw [hcall] at harrived
        exact absurd harrived (not_arrives_fail hpos)
      · subst hend
        rw [hcall] at harrived
        obtain ⟨hsmall, hsize⟩ := (hopen.arrives_stat_iff hpos hle).mp harrived
        exact ⟨hsmall, fun _ => ⟨fno, hstat, hsize⟩⟩
      · rw [hcall] at harrived
        exact ⟨(hopen.arrives_iff hpos hle).mp harrived, fun hend => absurd hend hset⟩
  · rintro ⟨hnegative, hwithin⟩ errno
    have hopen := h.setErrno errno
    refine ⟨fun hneg => ?_, fun hpos hle => ?_⟩
    · obtain ⟨rfl, res, hstat, hinval⟩ := hnegative hneg
      -- A negative target is refused only by `f_stat`, on the way to the size.
      have hcall : (s.setErrno errno).lseek fd offset (some .seekEnd) =
          (s.setErrno errno).fail (mapFresultToErrno res) := by
        have hslot : (s.setErrno errno).files.slot fd = some fil := hopen.slot
        have hpath : (s.setErrno errno).volume.fStat ((s.setErrno errno).files.entryPath fd) =
          .error res := hstat
        simp only [FileSystem.lseek, hslot, hpath]
      rw [hcall]
      exact ⟨rfl, hinval, rfl, rfl⟩
    · obtain ⟨hsmall, hsize⟩ := hwithin hpos hle
      rcases hopen.lseek offset whence with ⟨res, hend, hstat, _⟩ | ⟨fno, hend, hstat, hcall⟩ |
        ⟨_, hcall⟩
      · obtain ⟨fno, hfound, _⟩ := hsize hend
        exact nomatch hstat.symm.trans hfound
      · subst hend
        obtain ⟨fno', hfound, hknown⟩ := hsize rfl
        obtain rfl : fno = fno' := Except.ok.inj (hstat.symm.trans hfound)
        rw [hcall]
        exact (hopen.arrives_stat_iff hpos hle).mpr ⟨hsmall, hknown⟩
      · rw [hcall]
        exact (hopen.arrives_iff hpos hle).mpr hsmall

/-- A volume of one cluster, with a file of three bytes in it. -/
def oneFile : Volume := ⟨1, by decide, 0, fun _ => .ok 0, fun _ => ⟨3, 0, 1⟩⟩

/-- The file of three bytes, open for reading at descriptor 3. -/
def reading : FileSystem where
  files :=
    { Files.initial with
      fileTable := fun fd => if fd = 3 then some 0xD0000000 else none
      valid := fun _ => true }
  object := fun _ => ⟨false, .ok, 0, 3, 1⟩
  volume := oneFile

theorem reading_open : reading.Open 3 0xD0000000 := ⟨rfl, rfl, ⟨rfl, by decide, by decide⟩⟩

theorem seeksInBounds_reading :
    reading.Open 3 0xD0000000 ∧
      (reading.SeeksInBounds 3 0xD0000000 (-1) .seekEnd ↔
        reading.Seekable 3 0xD0000000 (-1) .seekEnd) :=
  ⟨reading_open, seeksInBounds_iff reading_open (-1) .seekEnd⟩

/-- Going to -1 from the start ends at the end of the file, without an error. -/
theorem lseek_before_start :
    ¬ ∀ (s : FileSystem) (fd : Int) (fil : Fil), s.Open fd fil →
      ∀ offset whence, s.SeeksInBounds fd fil offset whence := by
  intro hclaim
  have hbounds := hclaim reading 3 0xD0000000 reading_open (-1) .seekSet .none
  have hresult := (hbounds.1 (by decide)).result
  exact absurd hresult (by decide)

end FileSystem

end Senob.Libk
