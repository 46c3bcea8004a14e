import Senob.Libk.Sizes

/-!
# The flags of `open`

`translate_flags` maps three independent flags of newlib to modes of FatFs that imply each other:
`FA_CREATE_ALWAYS` both creates and truncates, and `FA_OPEN_APPEND` creates.
-/

namespace Senob.Libk

def oAppend : Word := 0x8

def oCreat : Word := 0x200

def oTrunc : Word := 0x400

/-- The flag is set. -/
def Sets (flags flag : Word) : Prop := flags &&& flag ≠ 0

instance (flags flag : Word) : Decidable (Sets flags flag) := inferInstanceAs (Decidable (_ ≠ _))

/-- The entry leads to the same bytes. -/
def Volume.SameContents (v w : Volume) (e : Nat) : Prop :=
  (w.entry e).fsize = (v.entry e).fsize ∧
    ((v.entry e).fsize ≠ 0 → (w.entry e).clusters = (v.entry e).clusters)

namespace FileSystem

/-- What a successful `open` of the file has done is what its flags say. -/
structure FlagsKept (s t : FileSystem) (fd : Int) (path : Path) (flags : Word) : Prop where
  truncates : ∀ e, s.volume.follow path = .ok e → ¬ s.volume.SameContents t.volume e →
    Sets flags oTrunc
  creates : ∀ res, s.volume.follow path = .error res → Sets flags oCreat
  position : ∃ fil, t.files.slot fd = some fil ∧
    (t.object fil).fptr = if Sets flags oAppend then (t.object fil).objsize else 0

/-- An existing file is empty or not opened with `O_CREAT` alone. A missing one is not opened with
`O_APPEND` or `O_TRUNC` but without `O_CREAT`. -/
def Separable (v : Volume) (path : Path) (flags : Word) : Prop :=
  match v.follow path with
  | .ok e => Sets flags oCreat → Sets flags oTrunc ∨ (v.entry e).fsize = 0
  | .error _ => Sets flags oAppend ∨ Sets flags oTrunc → Sets flags oCreat

instance (v : Volume) (path : Path) (flags : Word) : Decidable (Separable v path flags) := by
  unfold Separable
  split <;> infer_instance

/-! ## The modes -/

theorem translateFlags_creates (flags : Word) :
    translateFlags flags &&& 0x1C ≠ 0 ↔
      Sets flags oCreat ∨ Sets flags oTrunc ∨ Sets flags oAppend := by
  unfold translateFlags Sets oCreat oTrunc oAppend
  split_ifs <;> simp_all

theorem translateFlags_truncates (flags : Word) :
    translateFlags flags &&& 0x08 ≠ 0 ↔ Sets flags oCreat ∨ Sets flags oTrunc := by
  unfold translateFlags Sets oCreat oTrunc
  split_ifs <;> simp_all

theorem translateFlags_appends (flags : Word) :
    translateFlags flags &&& 0x20 ≠ 0 ↔ Sets flags oAppend := by
  unfold translateFlags Sets oAppend
  split_ifs <;> simp_all

/-! ## One call of `f_open` -/

variable {v w : Volume} {path : Path} {mode : Byte} {register : Register} {fp : FileObject}

theorem create_of_truncate : ∀ mode : Byte, mode &&& 0x08 ≠ 0 → mode &&& 0x1C ≠ 0 := by decide

theorem openEntry_existing {found : Volume} {e e' : Nat} {truncates : Bool}
    (hfollow : v.follow path = .ok e)
    (hfound : v.openEntry path mode register = .ok (found, e', truncates)) :
    found = v ∧ e' = e ∧ (truncates = true ↔ mode &&& 0x08 ≠ 0) := by
  unfold Volume.openEntry at hfound
  simp only [hfollow] at hfound
  split_ifs at hfound with hcreates
  · cases hfound
    exact ⟨rfl, rfl, decide_eq_true_iff⟩
  all_goals
    cases hfound
    exact ⟨rfl, rfl, iff_of_false Bool.false_ne_true fun h => hcreates (create_of_truncate mode h)⟩

theorem openEntry_missing {found : Volume} {e : Nat} {truncates : Bool} {res : Failure}
    (hfollow : v.follow path = .error res)
    (hfound : v.openEntry path mode register = .ok (found, e, truncates)) :
    mode &&& 0x1C ≠ 0 := by
  unfold Volume.openEntry at hfound
  simp only [hfollow] at hfound
  split_ifs at hfound with hcreates
  exact hcreates.1

/-- The offset that a file is opened with. -/
theorem fOpen_fptr (h : v.fOpen path mode register = .ok (w, fp)) :
    fp.fptr = if mode &&& 0x20 ≠ 0 then fp.objsize else 0 := by
  unfold Volume.fOpen at h
  cases hfound : v.openEntry path mode register with
  | error res =>
      rw [hfound] at h
      cases h
  | ok found =>
      rw [hfound] at h
      cases h
      rfl

/-- An existing file keeps its contents if it is empty or not truncated. -/
theorem fOpen_existing {e : Nat} (hfollow : v.follow path = .ok e)
    (h : v.fOpen path mode register = .ok (w, fp)) :
    v.SameContents w e ↔ mode &&& 0x08 = 0 ∨ (v.entry e).fsize = 0 := by
  unfold Volume.fOpen at h
  cases hfound : v.openEntry path mode register with
  | error res =>
      rw [hfound] at h
      cases h
  | ok found =>
      obtain ⟨found, e', truncates⟩ := found
      obtain ⟨rfl, rfl, htruncates⟩ := openEntry_existing hfollow hfound
      rw [hfound] at h
      cases h
      cases truncates with
      | false =>
          have hkept : mode &&& 0x08 = 0 := by
            by_contra hset
            exact Bool.false_ne_true (htruncates.mpr hset)
          exact iff_of_true ⟨rfl, fun _ => rfl⟩ (Or.inl hkept)
      | true =>
          have hentry : ((found.truncate e').entry e') = ⟨0, 0x20, 0⟩ := Function.update_self _ _ _
          unfold Volume.SameContents
          rw [if_pos rfl, hentry]
          constructor
          · exact fun hsame => Or.inr hsame.1.symm
          · rintro (hkept | hempty)
            · exact absurd hkept (htruncates.mp rfl)
            · exact ⟨hempty.symm, fun hne => absurd hempty hne⟩

/-! ## `open` -/

variable {s t : FileSystem} {fd : Int} {name : Path} {flags : Word} {kmalloc : Option Fil}

/-- A successful `open` keeps the flags apart exactly if none of them is to do something that
another one does by the way. -/
theorem flagsKept_iff (hcall : s.openFile (some name) flags kmalloc register = (t, fd))
    (hopen : 0 ≤ fd) :
    FlagsKept s t fd (strncpy name maxLfn) flags ↔
      Separable s.volume (strncpy name maxLfn) flags := by
  obtain ⟨path, fil, hname, -, hopened⟩ := openFile_opened hcall hopen
  obtain rfl := Option.some.inj hname
  have hposition : (t.object fil).fptr =
      if Sets flags oAppend then (t.object fil).objsize else 0 := by
    rw [fOpen_fptr hopened.fOpen]
    exact if_congr (translateFlags_appends flags) rfl rfl
  unfold Separable
  -- Whether the file exists decides which flags can be seen in the result.
  cases hfollow : s.volume.follow (strncpy name maxLfn) with
  | ok e =>
      have hcontents := fOpen_existing hfollow hopened.fOpen
      constructor
      · intro h hcreat
        by_cases hsame : s.volume.SameContents t.volume e
        · refine Or.inr ((hcontents.mp hsame).resolve_left ?_)
          exact (translateFlags_truncates flags).mpr (Or.inl hcreat)
        · exact Or.inl (h.truncates e hfollow hsame)
      · intro h
        refine ⟨fun e' he' hlost => ?_, fun res hres => ?_, ⟨fil, hopened.slot, hposition⟩⟩
        · obtain rfl := Except.ok.inj (hfollow.symm.trans he')
          obtain ⟨hmode, hsize⟩ := not_or.mp (hcontents.not.mp hlost)
          rcases (translateFlags_truncates flags).mp hmode with hcreat | htrunc
          · exact (h hcreat).resolve_right hsize
          · exact htrunc
        · exact nomatch hfollow.symm.trans hres
  | error res =>
      constructor
      · exact fun h _ => h.creates res hfollow
      · intro h
        refine ⟨fun e he => (nomatch hfollow.symm.trans he), fun res hres => ?_,
          ⟨fil, hopened.slot, hposition⟩⟩
        have hmode : translateFlags flags &&& 0x1C ≠ 0 := by
          have hfound := hopened.fOpen
          unfold Volume.fOpen at hfound
          cases hentry : s.volume.openEntry (strncpy name maxLfn) (translateFlags flags)
              register with
          | error res =>
              rw [hentry] at hfound
              cases hfound
          | ok found => exact openEntry_missing hfollow hentry
        rcases (translateFlags_creates flags).mp hmode with hcreat | htrunc | happend
        · exact hcreat
        · exact h (Or.inr htrunc)
        · exact h (Or.inl happend)

/-- `open("A", O_RDWR)` of a file of three bytes. -/
theorem flagsKept_readWrite : FlagsKept Tracked.oneFree Tracked.oneFreeOpened.1 3 [0x41] 2 :=
  (flagsKept_iff (show Tracked.oneFreeOpened = (Tracked.oneFreeOpened.1, 3) from
    Prod.ext rfl (by decide)) (by decide)).mpr (by decide)

/-- With `O_CREAT`, the three bytes are lost. -/
theorem not_flagsKept :
    ¬ ∀ (s t : FileSystem) (fd : Int) (name : Path) (flags : Word) (kmalloc : Option Fil)
      (register : Register), s.openFile (some name) flags kmalloc register = (t, fd) → 0 ≤ fd →
      FlagsKept s t fd (strncpy name maxLfn) flags := by
  intro hclaim
  let call := Tracked.oneFree.openFile (some [0x41]) 0x202 (some 0xD0000000)
    (.error ⟨.denied, by decide⟩)
  have hkept := hclaim Tracked.oneFree call.1 3 [0x41] 0x202 _ _
    (show call = (call.1, 3) from Prod.ext rfl (by decide)) (by decide)
  exact absurd (hkept.truncates 0 rfl (by unfold Volume.SameContents; decide)) (by decide)

end FileSystem

end Senob.Libk
