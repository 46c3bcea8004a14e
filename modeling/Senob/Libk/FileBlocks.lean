import Mathlib.Data.Finset.Card
import Mathlib.Data.Finset.Image
import Mathlib.Data.Finset.Range
import Senob.Libk.OpenClose

/-!
# The blocks of file objects

`open` allocates a block for each file object, and nothing in `libk.c` frees one. The number of the
blocks grows with every `open` that fails behind the allocation and with every `close`.
-/

namespace Senob.Libk

open Foundation

/-- The tables, and the blocks that `open` has allocated. -/
structure FileBlocks where
  files : Files
  live : Finset Fil

namespace FileBlocks

def initial : FileBlocks := ⟨.initial, ∅⟩

/-- `open` calls `kmalloc` when it has found a descriptor. -/
def step (s : FileBlocks) (op : Files.Op) : Option FileBlocks :=
  let files := (s.files.outcome op).files
  match op with
  | .openFile (some _) _ (some fil) _ =>
      some ⟨files, if getFreeFd s.files < 0 then s.live else insert fil s.live⟩
  | _ => some ⟨files, s.live⟩

/-- `kmalloc` returns no block that is allocated. -/
def Enabled (s : FileBlocks) : Files.Op → Prop
  | .openFile _ _ (some fil) _ => fil ∉ s.live
  | _ => True

/-- The descriptors that are open. -/
def openFds (s : Files) : Finset Int :=
  ((Finset.range maxFiles).image fun fd : Nat => (fd : Int)).filter fun fd => s.slot fd ≠ none

/-- There is a block for each open descriptor, and no other one. -/
def Balanced (s : FileBlocks) : Prop := s.live.card = (openFds s.files).card

/-- No block is lost: FatFs opens the file that a block was allocated for, and the call closes no
descriptor. -/
def NoLeak (s : FileBlocks) : Files.Op → Prop
  | .openFile (some name) flags (some _) fatfs =>
      getFreeFd s.files < 0 ∨ fatfs (strncpy name maxLfn) (translateFlags flags) = .ok
  | .close file sync =>
      ∀ fil, s.files.slot file = some fil → ¬ (s.files.valid fil = true ∧ sync = .ok)
  | _ => True

/-! ## The open descriptors -/

variable {s t : FileBlocks} {u v : Files} {fd : Int}

theorem mem_openFds : fd ∈ openFds u ↔ u.slot fd ≠ none := by
  unfold openFds
  rw [Finset.mem_filter, Finset.mem_image, and_iff_right_iff_imp]
  intro hopen
  obtain ⟨fil, hslot⟩ := Option.ne_none_iff_exists'.mp hopen
  obtain ⟨hlow, hhigh⟩ := (Files.mem_table_of_slot hslot).1
  exact ⟨fd.toNat, Finset.mem_range.mpr (by omega), Int.toNat_of_nonneg hlow⟩

theorem openFds_congr (h : ∀ fd, v.slot fd = u.slot fd) : openFds v = openFds u := by
  ext fd
  rw [mem_openFds, mem_openFds, h fd]

/-- One more descriptor is open. -/
theorem card_openFds_insert (hopen : v.slot fd ≠ none) (hfree : u.slot fd = none)
    (hothers : ∀ fd' ≠ fd, v.slot fd' = u.slot fd') :
    (openFds v).card = (openFds u).card + 1 := by
  have hinsert : openFds v = insert fd (openFds u) := by
    ext fd'
    rw [Finset.mem_insert, mem_openFds, mem_openFds]
    by_cases hfd : fd' = fd
    · subst hfd
      exact iff_of_true hopen (Or.inl rfl)
    · rw [hothers fd' hfd, or_iff_right hfd]
  rw [hinsert, Finset.card_insert_of_notMem]
  exact fun hmem => mem_openFds.mp hmem hfree

/-! ## One call -/

/-- The invariant: the objects of open descriptors have their blocks. -/
structure Inv (s : FileBlocks) : Prop where
  balanced : s.Balanced
  housed : ∀ fd fil, s.files.slot fd = some fil → fil ∈ s.live

theorem inv_initial : Inv initial := by
  have hnone : ∀ fd, initial.files.slot fd = none := by
    intro fd
    by_contra hopen
    obtain ⟨fil, hslot⟩ := Option.ne_none_iff_exists'.mp hopen
    exact FileHistory.slot_initial_ne fil fd hslot
  refine ⟨?_, fun fd fil hslot => nomatch (hnone fd).symm.trans hslot⟩
  have hempty : openFds initial.files = ∅ := by
    ext fd
    exact iff_of_false (fun hmem => mem_openFds.mp hmem (hnone fd)) (Finset.notMem_empty fd)
  exact congrArg Finset.card hempty.symm

theorem Inv.fresh (h : Inv s) {op : Files.Op} (henabled : s.Enabled op) : s.files.Fresh op := by
  cases op with
  | openFile name flags kmalloc fatfs =>
      cases kmalloc with
      | none => trivial
      | some fil => exact fun fd hslot => henabled (h.housed fd fil hslot)
  | close file sync => trivial
  | dup fd stray => trivial
  | dup2 oldfd newfd sync => trivial

/-- The call neither opens nor closes a descriptor. -/
theorem Inv.of_kept (h : Inv s) (hkept : ∀ fd, u.slot fd = s.files.slot fd) :
    Inv ⟨u, s.live⟩ := by
  refine ⟨?_, fun fd fil hslot => h.housed fd fil ((hkept fd).symm.trans hslot)⟩
  unfold Balanced
  rw [openFds_congr hkept]
  exact h.balanced

/-- What `open` does when it gets a block. -/
theorem Inv.openFile_allocated (h : Inv s) {name : Path} {flags : Word} {fil : Fil}
    {fatfs : Path → Byte → FResult}
    (henabled : s.Enabled (.openFile (some name) flags (some fil) fatfs))
    (hfree : ¬ getFreeFd s.files < 0)
    (hstep : s.step (.openFile (some name) flags (some fil) fatfs) = some t) :
    if fatfs (strncpy name maxLfn) (translateFlags flags) = .ok then Inv t else ¬ t.Balanced := by
  have hmeets := Files.openFile_meets (h.fresh henabled)
  have hresult := Files.openFile_result s.files name flags fil fatfs
  rw [if_neg hfree] at hresult
  simp only [step, Files.outcome, if_neg hfree] at hstep
  obtain rfl := Option.some.inj hstep
  have hcard : (insert fil s.live).card = s.live.card + 1 := Finset.card_insert_of_notMem henabled
  split
  next hok =>
    rw [if_pos hok] at hresult
    have hbinds := hmeets.resolve_left fun hfailed => hfree (by rw [← hresult, hfailed.1]; decide)
    rw [hresult] at hbinds
    obtain ⟨fil', hslot, -⟩ := hbinds.own
    refine ⟨?_, fun fd fil'' hfd => ?_⟩
    · unfold Balanced
      rw [hcard, card_openFds_insert (hslot ▸ Option.some_ne_none fil') hbinds.free
        fun fd hne => (hbinds.others fd hne).1]
      exact congrArg (· + 1) h.balanced
    · by_cases hnew : fd = getFreeFd s.files
      · rw [hnew, Files.openFile_slot hfree hok] at hfd
        exact Option.some.inj hfd ▸ Finset.mem_insert_self _ _
      · rw [(hbinds.others fd hnew).1] at hfd
        exact Finset.mem_insert_of_mem (h.housed fd fil'' hfd)
  next hfails =>
    rw [if_neg hfails] at hresult
    rcases hmeets with ⟨-, hkept⟩ | hbinds
    · unfold Balanced
      rw [hcard, openFds_congr fun fd => (hkept fd).1, h.balanced]
      exact Nat.succ_ne_self _
    · have hlow := hbinds.low
      rw [hresult] at hlow
      exact absurd hlow (by decide)

/-- `open` gets a block. -/
def Allocates (s : FileBlocks) (name : Option Path) (kmalloc : Option Fil) : Prop :=
  name.isSome ∧ kmalloc.isSome ∧ ¬ getFreeFd s.files < 0

variable {name : Option Path} {flags : Word} {kmalloc : Option Fil} {fatfs : Path → Byte → FResult}

/-- Without a block, no descriptor is opened. -/
theorem openFile_unallocated (flags : Word) (fatfs : Path → Byte → FResult)
    (h : ¬ s.Allocates name kmalloc) :
    (Libk.openFile s.files name flags kmalloc fatfs).result = -1 ∧
      s.step (.openFile name flags kmalloc fatfs) =
        some ⟨(Libk.openFile s.files name flags kmalloc fatfs).files, s.live⟩ ∧
      s.NoLeak (.openFile name flags kmalloc fatfs) := by
  cases name with
  | none => exact ⟨rfl, rfl, trivial⟩
  | some name =>
      cases kmalloc with
      | none =>
          rcases FileHistory.openFile_cases s.files (some name) flags none fatfs with
            ⟨hfailed, -⟩ | ⟨_, _, _, -, hnull, -⟩
          · exact ⟨hfailed, rfl, trivial⟩
          · exact nomatch hnull
      | some fil =>
          have hfull : getFreeFd s.files < 0 := by
            by_contra hfree
            exact h ⟨rfl, rfl, hfree⟩
          refine ⟨?_, ?_, Or.inl hfull⟩
          · rw [Files.openFile_result, if_pos hfull]
          · simp only [step, Files.outcome, if_pos hfull]

/-- A block stays in use exactly if FatFs opens the file. -/
theorem Inv.openFile (h : Inv s) (henabled : s.Enabled (.openFile name flags kmalloc fatfs))
    (hstep : s.step (.openFile name flags kmalloc fatfs) = some t) :
    (s.NoLeak (.openFile name flags kmalloc fatfs) → Inv t) ∧
      (¬ s.NoLeak (.openFile name flags kmalloc fatfs) → ¬ t.Balanced) := by
  by_cases hallocates : s.Allocates name kmalloc
  · obtain ⟨hname, hkmalloc, hfree⟩ := hallocates
    obtain ⟨path, rfl⟩ := Option.isSome_iff_exists.mp hname
    obtain ⟨fil, rfl⟩ := Option.isSome_iff_exists.mp hkmalloc
    have hnoLeak : s.NoLeak (.openFile (some path) flags (some fil) fatfs) ↔
        fatfs (strncpy path maxLfn) (translateFlags flags) = .ok := or_iff_right hfree
    have hcall := h.openFile_allocated henabled hfree hstep
    rw [hnoLeak]
    split at hcall
    next hok => exact ⟨fun _ => hcall, fun hfails => absurd hok hfails⟩
    next hfails => exact ⟨fun hok => absurd hok hfails, fun _ => hcall⟩
  · obtain ⟨hresult, hstate, hnoLeak⟩ :=
      openFile_unallocated flags fatfs hallocates
    obtain rfl := Option.some.inj (hstate.symm.trans hstep)
    refine ⟨fun _ => ?_, fun hleak => absurd hnoLeak hleak⟩
    rcases Files.openFile_meets (h.fresh henabled) with ⟨-, hkept⟩ | hbinds
    · exact h.of_kept fun fd => (hkept fd).1
    · have hlow := hbinds.low
      rw [hresult] at hlow
      exact absurd hlow (by decide)

/-- Every `close` that succeeds leaves a block behind. -/
theorem Inv.close (h : Inv s) {file : Int} {sync : FResult}
    (hstep : s.step (.close file sync) = some t) :
    (s.NoLeak (.close file sync) → Inv t) ∧ (¬ s.NoLeak (.close file sync) → ¬ t.Balanced) := by
  obtain rfl := Option.some.inj hstep
  constructor
  · intro hfails
    obtain ⟨errno, hcall⟩ := Files.close_fails hfails
    refine h.of_kept fun fd => ?_
    change (Libk.close s.files file sync).files.slot fd = s.files.slot fd
    rw [hcall]
    rfl
  · intro hleak
    have hcloses : ∃ fil, s.files.slot file = some fil ∧ s.files.valid fil = true ∧ sync = .ok := by
      by_contra hnone
      exact hleak fun fil hslot hclosed => hnone ⟨fil, hslot, hclosed⟩
    obtain ⟨fil, hslot, hvalid, rfl⟩ := hcloses
    have hopen : s.files.slot file ≠ none := hslot ▸ Option.some_ne_none fil
    have hclosed : (Libk.close s.files file .ok).files.slot file = none := by
      obtain ⟨hlow, hhigh⟩ := (Files.mem_table_of_slot hslot).1
      rw [Files.close_eq hslot hvalid]
      exact FileHistory.slot_setTable_self hlow hhigh none
    have hothers : ∀ fd ≠ file,
        s.files.slot fd = (Libk.close s.files file .ok).files.slot fd := by
      intro fd hne
      have hsame := FileHistory.close_sameAt s.files file .ok fd
      exact (hsame.resolve_left fun hfd => hne hfd.1).slot.symm
    have hcard := card_openFds_insert hopen hclosed hothers
    have hbalanced := h.balanced
    unfold Balanced at hbalanced ⊢
    dsimp only [Files.outcome]
    omega

/-! ## All calls -/

theorem Inv.step (h : Inv s) {op : Files.Op} (hop : op.OpensOrCloses) (henabled : s.Enabled op)
    (hstep : s.step op = some t) :
    (s.NoLeak op → Inv t) ∧ (¬ s.NoLeak op → ¬ t.Balanced) := by
  cases op with
  | openFile name flags kmalloc fatfs => exact h.openFile henabled hstep
  | close file sync => exact h.close hstep
  | dup fd stray => exact hop.elim
  | dup2 oldfd newfd sync => exact hop.elim

/-- In every run of `open` and `close`, there are as many blocks as open descriptors throughout
exactly if every block is for a file that FatFs opens and nothing is closed. -/
theorem always_balanced_iff {ops : List Files.Op} (hops : ∀ op ∈ ops, op.OpensOrCloses)
    (henabled : Admissible step Enabled initial ops) :
    Always step Balanced initial ops ↔ Admissible step NoLeak initial ops := by
  refine always_iff_admissible Inv (fun _ h => h.balanced)
    (fun s op t h hop hgood hstep => (h.step hop.2 hop.1 hstep).1 hgood)
    (fun s op h hop hbad => ?_) inv_initial (henabled.and hops)
  obtain ⟨t, hstep⟩ : ∃ t, s.step op = some t := by
    unfold FileBlocks.step
    split <;> exact ⟨_, rfl⟩
  exact ⟨t, hstep, (h.step hop.2 hop.1 hstep).2 hbad⟩

theorem always_balanced_open :
    Always step Balanced initial
      [.openFile (some [0x41]) 0 (some 0xD0000000) (fun _ _ => .ok)] := by
  have hops : ∀ op ∈ [Files.Op.openFile (some [0x41]) 0 (some 0xD0000000) (fun _ _ => .ok)],
      op.OpensOrCloses := by
    simp [Files.Op.OpensOrCloses]
  exact (always_balanced_iff hops ⟨Finset.notMem_empty _, fun _ _ => trivial⟩).mpr
    ⟨Or.inr rfl, fun _ _ => trivial⟩

/-- A file is opened and closed, and its block is left. -/
theorem not_always_balanced :
    ¬ ∀ ops : List Files.Op, (∀ op ∈ ops, op.OpensOrCloses) →
      Admissible step Enabled initial ops → Always step Balanced initial ops := by
  intro hclaim
  have halways := hclaim
    [.openFile (some [0x41]) 0 (some 0xD0000000) (fun _ _ => .ok), .close 3 .ok]
    (by simp [Files.Op.OpensOrCloses])
    ⟨Finset.notMem_empty _, fun _ _ => ⟨trivial, fun _ _ => trivial⟩⟩
  have hbalanced : Balanced _ := (halways.2 _ rfl).2 _ rfl
  exact absurd hbalanced (by unfold Balanced; decide)

end FileBlocks

end Senob.Libk
