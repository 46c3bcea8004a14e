import Senob.Sys.Mp

/-!
# The entries of the MP configuration table

The table as its entries and not as bytes. The walk of `mpSearch` reads the entries back in
their order, and it stores the first `MAX_CPUS` processors whether they are enabled or not.
-/

namespace Senob.Sys

/-! ## Entries -/

/-- An entry of the table: 20 bytes for a processor, 8 bytes for everything else. -/
inductive MpEntry where
  | processor (p : EntryProcessor) (rest : Vector Byte 16)
  | other (type : Byte) (htype : type ≠ 0) (rest : Vector Byte 7)

namespace MpEntry

def bytes : MpEntry → List Byte
  | processor p rest => [0, p.localAPICID, p.localAPICVersion, p.flags] ++ rest.toList
  | other type _ rest => type :: rest.toList

def processor? : MpEntry → Option EntryProcessor
  | processor p _ => some p
  | other _ _ _ => none

end MpEntry

/-- The bytes from an address on. -/
def ReadsAs (memory : Nat → Byte) (entryPtr : Nat) (bytes : List Byte) : Prop :=
  ∀ i b, bytes[i]? = some b → memory (entryPtr + i) = b

/-- The table consists of the entries. -/
structure MpConfigurationTable.MadeOf (table : MpConfigurationTable) (entries : List MpEntry) :
    Prop where
  count : table.entryCount.toNat = entries.length
  bytes : ReadsAs table.memory table.entries (entries.flatMap MpEntry.bytes)

namespace ReadsAs

variable {memory : Nat → Byte} {entryPtr : Nat} {first second : List Byte}

theorem left (h : ReadsAs memory entryPtr (first ++ second)) : ReadsAs memory entryPtr first := by
  intro i b hb
  apply h i b
  rw [List.getElem?_append_left (List.getElem?_eq_some_iff.mp hb).1, hb]

theorem right (h : ReadsAs memory entryPtr (first ++ second)) :
    ReadsAs memory (entryPtr + first.length) second := by
  intro i b hb
  rw [Nat.add_assoc]
  apply h (first.length + i) b
  rw [List.getElem?_append_right (Nat.le_add_right _ _), Nat.add_sub_cancel_left, hb]

end ReadsAs

/-- The walk goes from entry to entry. -/
theorem processorEntries_eq {memory : Nat → Byte} {entryPtr : Nat} {entries : List MpEntry}
    (h : ReadsAs memory entryPtr (entries.flatMap MpEntry.bytes)) :
    processorEntries memory entries.length entryPtr = entries.filterMap MpEntry.processor? := by
  induction entries generalizing entryPtr with
  | nil => rfl
  | cons entry rest ih =>
      rw [List.flatMap_cons] at h
      cases entry with
      | processor p padding =>
          have hread := h.left
          have htype : memory entryPtr = 0 := hread 0 0 rfl
          have hp : processorAt memory entryPtr = p := by
            unfold processorAt
            rw [hread 1 p.localAPICID rfl, hread 2 p.localAPICVersion rfl, hread 3 p.flags rfl]
          have hlength : (MpEntry.processor p padding).bytes.length = 20 := by
            simp [MpEntry.bytes]
          have hrest := h.right
          rw [hlength] at hrest
          rw [List.length_cons, processorEntries, if_pos htype, hp, ih hrest]
          rfl
      | other type htype padding =>
          have hread : memory entryPtr = type := h.left 0 type rfl
          have hlength : (MpEntry.other type htype padding).bytes.length = 8 := by
            simp [MpEntry.bytes]
          have hrest := h.right
          rw [hlength] at hrest
          rw [List.length_cons, processorEntries, if_neg (hread ▸ htype), ih hrest]
          rfl

theorem MpConfigurationTable.MadeOf.processors_eq {table : MpConfigurationTable}
    {entries : List MpEntry} (h : table.MadeOf entries) :
    table.processors = entries.filterMap MpEntry.processor? := by
  unfold MpConfigurationTable.processors
  rw [h.count]
  exact processorEntries_eq h.bytes

/-! ## What is stored -/

/-- The fields that `mpSearch` sets for a processor. -/
def EntryProcessor.toCpu (p : EntryProcessor) : Cpu :=
  ⟨p.localAPICID.setWidth 32, (p.flags &&& 0x02).setWidth 32, p.localAPICVersion.setWidth 32⟩

theorem EntryProcessor.toCpu_isBSP (p : EntryProcessor) : p.toCpu.isBSP ≠ 0 ↔ p.IsBSP := by
  unfold toCpu IsBSP
  rw [not_iff_not]
  constructor
  · intro hzero
    have hlt := (p.flags &&& 0x02).isLt
    have htoNat := congrArg BitVec.toNat hzero
    rw [BitVec.toNat_setWidth, Nat.mod_eq_of_lt (by omega)] at htoNat
    exact BitVec.eq_of_toNat_eq htoNat
  · intro hzero
    have hflags : p.flags &&& 0x02 = 0 := hzero
    rw [hflags]
    rfl

theorem EntryProcessor.toCpu_id {p q : EntryProcessor} (h : p.toCpu.id = q.toCpu.id) :
    p.localAPICID = q.localAPICID := by
  apply BitVec.eq_of_toNat_eq
  have htoNat := congrArg BitVec.toNat h
  simp only [toCpu, BitVec.toNat_setWidth] at htoNat
  omega

theorem MpState.addProcessor_of_lt {s : MpState} (p : EntryProcessor) (h : s.ncpus < maxCpus) :
    s.addProcessor p = ⟨Function.update s.cpus s.ncpus p.toCpu, s.ncpus + 1⟩ := if_pos h

theorem MpState.addProcessor_of_full {s : MpState} (p : EntryProcessor)
    (h : ¬ s.ncpus < maxCpus) : s.addProcessor p = s := if_neg h

theorem mpSearchLoop_eq_foldl (memory : Nat → Byte) (entries entryPtr : Nat) (s : MpState) :
    mpSearchLoop memory entries entryPtr s =
      (processorEntries memory entries entryPtr).foldl MpState.addProcessor s := by
  induction entries generalizing entryPtr s with
  | zero => rfl
  | succ entries ih =>
      unfold mpSearchLoop processorEntries
      split
      next _ => exact ih _ _
      next _ => exact ih _ _

/-- What is stored stays. -/
theorem foldl_addProcessor_cpus_of_lt (ps : List EntryProcessor) (s : MpState) {i : Nat}
    (h : i < s.ncpus) : (ps.foldl MpState.addProcessor s).cpus i = s.cpus i := by
  induction ps generalizing s with
  | nil => rfl
  | cons p rest ih =>
      rw [List.foldl_cons]
      by_cases hroom : s.ncpus < maxCpus
      · rw [s.addProcessor_of_lt p hroom, ih _ (Nat.lt_succ_of_lt h)]
        exact Function.update_of_ne (Nat.ne_of_lt h) _ _
      · rw [s.addProcessor_of_full p hroom, ih s h]

/-- Every processor has its place while there is room. -/
theorem foldl_addProcessor_cpus (ps : List EntryProcessor) (s : MpState) {i : Nat}
    {p : EntryProcessor} (hp : ps[i]? = some p) (hroom : s.ncpus + i < maxCpus) :
    (ps.foldl MpState.addProcessor s).cpus (s.ncpus + i) = p.toCpu := by
  induction ps generalizing s i with
  | nil => simp at hp
  | cons q rest ih =>
      rw [List.foldl_cons, s.addProcessor_of_lt q (by omega)]
      cases i with
      | zero =>
          obtain rfl : q = p := by simpa using hp
          rw [foldl_addProcessor_cpus_of_lt _ _ (Nat.lt_succ_self _)]
          exact Function.update_self _ _ _
      | succ i =>
          have hrest := ih ⟨Function.update s.cpus s.ncpus q.toCpu, s.ncpus + 1⟩ (i := i)
            (by simpa using hp) (by dsimp only; omega)
          rw [← hrest]
          congr 1
          dsimp only
          omega

theorem mpSearch_cpus (table : MpConfigurationTable) (s : MpState) {i : Nat} {p : EntryProcessor}
    (hp : table.processors[i]? = some p) (hi : i < maxCpus) :
    (mpSearch table s).cpus i = p.toCpu := by
  have hfold :=
    foldl_addProcessor_cpus table.processors { s with ncpus := 0 } hp (by simpa using hi)
  unfold mpSearch
  rw [mpSearchLoop_eq_foldl]
  simpa [MpConfigurationTable.processors] using hfold

/-! ## Disabled processors -/

/-- The local APIC id and the bootstrap flag are the same. -/
def EntryProcessor.SameCpu (p q : EntryProcessor) : Prop :=
  p.localAPICID = q.localAPICID ∧ (p.IsBSP ↔ q.IsBSP)

/-- `cpus` lists the processors as far as there is room. -/
structure MpState.Describes (s : MpState) (existing : List EntryProcessor) : Prop where
  ncpus : s.ncpus = min maxCpus existing.length
  cpus : ∀ i < s.ncpus, ∃ p, existing[i]? = some p ∧
    (s.cpus i).id = p.localAPICID.setWidth 32 ∧ ((s.cpus i).isBSP ≠ 0 ↔ p.IsBSP)

/-- Up to `MAX_CPUS`, the enabled processors stand for the same CPUs as all of them. -/
def UnfilteredAlike (ps : List EntryProcessor) : Prop :=
  ∀ i < maxCpus, Option.Rel EntryProcessor.SameCpu ps[i]? (ps.filter fun p => p.Enabled)[i]?

/-- Of processors with different ids none in the first places may be disabled. -/
theorem unfilteredAlike_iff_enabled {ps : List EntryProcessor}
    (hdistinct : (ps.map EntryProcessor.localAPICID).Nodup) :
    UnfilteredAlike ps ↔ ∀ p ∈ ps.take maxCpus, p.Enabled := by
  constructor
  · intro halike p hp
    obtain ⟨i, hi, hget⟩ := List.mem_take_iff_getElem.mp hp
    have hrel := halike i (by omega)
    rw [List.getElem?_eq_some_iff.mpr ⟨by omega, hget⟩] at hrel
    generalize hq : (ps.filter fun p => p.Enabled)[i]? = found at hrel
    cases hrel with
    | some hsame =>
        obtain ⟨hmem, henabled⟩ := List.mem_filter.mp (List.mem_of_getElem? hq)
        have heq := List.inj_on_of_nodup_map hdistinct (List.mem_of_mem_take hp) hmem hsame.1
        rw [heq]
        simpa using henabled
  · intro henabled i hi
    have hfilter : (ps.take maxCpus).filter (fun p => p.Enabled) = ps.take maxCpus :=
      List.filter_eq_self.mpr fun p hp => by simpa using henabled p hp
    have hget : (ps.filter fun p => p.Enabled)[i]? = ps[i]? := by
      conv_lhs => rw [← List.take_append_drop maxCpus ps]
      rw [List.filter_append, hfilter]
      by_cases hlength : i < ps.length
      · rw [List.getElem?_append_left (by rw [List.length_take]; omega),
          List.getElem?_take_of_lt hi]
      · rw [List.drop_eq_nil_of_le (by omega), List.take_of_length_le (by omega)]
        simp
    rw [hget]
    cases ps[i]? with
    | none => exact Option.Rel.none
    | some p => exact Option.Rel.some ⟨rfl, Iff.rfl⟩

/-- The walk never looks at the enabled flags, so it lists the enabled processors exactly
when filtering makes no difference. -/
theorem describes_iff_unfilteredAlike (table : MpConfigurationTable) (s : MpState) :
    (mpSearch table s).Describes (table.processors.filter fun p => p.Enabled) ↔
      UnfilteredAlike table.processors := by
  have hncpus : (mpSearch table s).ncpus = min maxCpus table.processors.length :=
    discovered_ncpus table s
  have hcpus := @mpSearch_cpus table s
  generalize mpSearch table s = t at hncpus hcpus ⊢
  generalize table.processors = ps at hncpus hcpus ⊢
  have hle : (ps.filter fun p => p.Enabled).length ≤ ps.length := List.length_filter_le _ _
  constructor
  · intro hdescribes i hi
    have hcount := hdescribes.ncpus
    by_cases hlength : i < ps.length
    · obtain ⟨q, hq, hid, hbsp⟩ := hdescribes.cpus i (by omega)
      have hp := List.getElem?_eq_getElem hlength
      rw [hcpus hp hi] at hid hbsp
      rw [hp, hq]
      exact Option.Rel.some ⟨EntryProcessor.toCpu_id hid,
        (EntryProcessor.toCpu_isBSP _).symm.trans hbsp⟩
    · rw [List.getElem?_eq_none (by omega), List.getElem?_eq_none (by omega)]
      exact Option.Rel.none
  · intro halike
    have hall : ∀ i < maxCpus, i < ps.length → ∃ p q, ps[i]? = some p ∧
        (ps.filter fun p => p.Enabled)[i]? = some q ∧ p.SameCpu q := by
      intro i hi hlength
      have hrel := halike i hi
      have hp := List.getElem?_eq_getElem hlength
      rw [hp] at hrel
      generalize hq : (ps.filter fun p => p.Enabled)[i]? = found at hrel
      cases hrel with
      | some hsame => exact ⟨_, _, hp, rfl, hsame⟩
    constructor
    · by_contra hne
      -- The first place without an enabled processor.
      obtain ⟨_, _, _, hq, _⟩ :=
        hall (ps.filter fun p => p.Enabled).length (by omega) (by omega)
      simp at hq
    · intro i hi
      obtain ⟨p, q, hp, hq, hsame⟩ := hall i (by omega) (by omega)
      refine ⟨q, hq, ?_, ?_⟩
      · rw [hcpus hp (by omega), ← hsame.1]
        rfl
      · rw [hcpus hp (by omega)]
        exact p.toCpu_isBSP.trans hsame.2

/-- `mpSearch` finds the enabled processors exactly when ignoring the disabled ones makes no
difference. With different ids, that is when none of the first `MAX_CPUS` is disabled. -/
theorem mpSearch_describes_iff {table : MpConfigurationTable} {entries : List MpEntry}
    (h : table.MadeOf entries) (s : MpState) :
    ((mpSearch table s).Describes
        ((entries.filterMap MpEntry.processor?).filter fun p => p.Enabled) ↔
      UnfilteredAlike (entries.filterMap MpEntry.processor?)) ∧
    (((entries.filterMap MpEntry.processor?).map EntryProcessor.localAPICID).Nodup →
      (UnfilteredAlike (entries.filterMap MpEntry.processor?) ↔
        ∀ p ∈ (entries.filterMap MpEntry.processor?).take maxCpus, p.Enabled)) := by
  rw [← h.processors_eq]
  exact ⟨describes_iff_unfilteredAlike table s, unfilteredAlike_iff_enabled⟩

/-! ## Two tables -/

/-- The table that has the entries at address 0. -/
def tableOf (entries : List MpEntry) : MpConfigurationTable :=
  ⟨fun a => (entries.flatMap MpEntry.bytes).getD a 0, 0, BitVec.ofNat 16 entries.length⟩

theorem tableOf_madeOf {entries : List MpEntry} (h : entries.length < 2 ^ 16) :
    (tableOf entries).MadeOf entries := by
  refine ⟨Nat.mod_eq_of_lt h, fun i b hb => ?_⟩
  simp only [tableOf, Nat.zero_add, List.getD_eq_getElem?_getD]
  exact congrArg (Option.getD · 0) hb

/-- The bootstrap processor, an I/O APIC and a second processor. -/
def bootEntries (flags : Byte) : List MpEntry :=
  [.processor ⟨0, 0x14, 3⟩ (.replicate 16 0), .other 2 (by decide) (.replicate 7 0),
    .processor ⟨1, 0x14, flags⟩ (.replicate 16 0)]

theorem mpSearch_describes_enabled :
    ((mpSearch (tableOf (bootEntries 1)) .initial).Describes
        (((bootEntries 1).filterMap MpEntry.processor?).filter fun p => p.Enabled) ↔
      UnfilteredAlike ((bootEntries 1).filterMap MpEntry.processor?)) ∧
    ((((bootEntries 1).filterMap MpEntry.processor?).map EntryProcessor.localAPICID).Nodup →
      (UnfilteredAlike ((bootEntries 1).filterMap MpEntry.processor?) ↔
        ∀ p ∈ ((bootEntries 1).filterMap MpEntry.processor?).take maxCpus, p.Enabled)) :=
  mpSearch_describes_iff (tableOf_madeOf (by decide)) .initial

/-- A second processor that is disabled is counted like the first. -/
theorem not_mpSearch_describes_disabled :
    ¬ ∀ (table : MpConfigurationTable) (entries : List MpEntry) (s : MpState),
      table.MadeOf entries → (mpSearch table s).Describes
        ((entries.filterMap MpEntry.processor?).filter fun p => p.Enabled) := by
  intro hclaim
  have hdescribes := hclaim (tableOf (bootEntries 0)) (bootEntries 0) .initial
    (tableOf_madeOf (by decide))
  exact absurd hdescribes.ncpus (by decide)

end Senob.Sys
