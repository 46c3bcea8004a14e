import Senob.Sys.Mp

/-!
# The search for the MP tables

`mpInit` with the addresses that it reads behind the search: those of the floating pointer
structure, of the configuration table and of whatever else it takes for one of their entries. The
firmware's memory is taken not to change meanwhile, so that the loop bound of `mpSearch` is
`entryCount` as it was at the beginning.
-/

namespace Senob.Sys

namespace Firmware

variable (memory : Word → Byte)

/-! ## The search -/

def word (a : Word) : Word := memory (a + 3) ++ memory (a + 2) ++ memory (a + 1) ++ memory a

def halfword (a : Word) : BitVec 16 := memory (a + 1) ++ memory a

/-- `_MP_`. -/
def mpFloatingPointerSignature : List Byte := [0x5F, 0x4D, 0x50, 0x5F]

def HasSignature (ptr : Word) : Prop :=
  ((List.range 4).map fun i => memory (ptr + BitVec.ofNat 32 i)) = mpFloatingPointerSignature

def ValidateMPChecksum (mp : Word) : Prop :=
  (List.range 16).foldl (fun sum i => sum + memory (mp + BitVec.ofNat 32 i)) 0 = 0

instance : DecidablePred (HasSignature memory) := fun _ =>
  inferInstanceAs (Decidable (_ = mpFloatingPointerSignature))

instance : DecidablePred (ValidateMPChecksum memory) := fun _ =>
  inferInstanceAs (Decidable (_ = (0 : Byte)))

/-- Every sixteenth address from 0xA0000 on that is below 0xFFFFF. -/
def searched : List Word := (List.range 0x6000).map fun i => BitVec.ofNat 32 (0xA0000 + 16 * i)

def findMpFloatingPointer : Option Word :=
  searched.find? fun addr => HasSignature memory addr ∧ ValidateMPChecksum memory addr

/-! ## The table -/

/-- The configuration table at an address, whose header has 44 bytes. -/
def tableAt (table : Word) : MpConfigurationTable :=
  ⟨fun a => memory (BitVec.ofNat 32 a), table.toNat + 44, halfword memory (table + 34)⟩

/-- What `mpSearch` reads for one entry. The pointer to an I/O APIC entry is replaced by the id in
it before its `id` and its `address` are printed. -/
def entryReads (entryPtr : Word) (ncpus : Nat) : List Word :=
  if memory entryPtr = 0 then
    entryPtr :: (if ncpus < maxCpus then [entryPtr + 1, entryPtr + 3, entryPtr + 2] else []) ++
      [entryPtr + 3]
  else if memory entryPtr = 1 then
    let ioapic := (memory (entryPtr + 1)).setWidth 32
    [entryPtr, entryPtr + 1, ioapic + 1, ioapic + 4, ioapic + 5, ioapic + 6, ioapic + 7]
  else [entryPtr]

/-- What the loop of `mpSearch` reads of the entries, beside `mpSearchLoop`. -/
def mpSearchReads : Nat → Nat → MpState → List Word
  | 0, _, _ => []
  | entries + 1, entryPtr, s =>
      let flat : Nat → Byte := fun a => memory (BitVec.ofNat 32 a)
      entryReads memory (BitVec.ofNat 32 entryPtr) s.ncpus ++
        if flat entryPtr = 0 then
          mpSearchReads entries (entryPtr + 20) (s.addProcessor (processorAt flat entryPtr))
        else mpSearchReads entries (entryPtr + 8) s

/-- What is left of `mpInit`. -/
structure MpInit where
  state : MpState
  reads : List Word

/-- `mpInit`, which does not check what `find_mp_floating_pointer` returned. -/
def mpInit (s : MpState) : MpInit :=
  let fpStructure := (findMpFloatingPointer memory).getD 0
  let table := word memory (fpStructure + 4)
  let t := tableAt memory table
  ⟨mpSearch t s,
    [fpStructure + 4, fpStructure + 5, fpStructure + 6, fpStructure + 7,
      fpStructure + 12, fpStructure + 13, fpStructure + 14, fpStructure + 15,
      table + 34, table + 35] ++
      mpSearchReads memory t.entryCount.toNat t.entries { s with ncpus := 0 }⟩

/-! ## Safety -/

/-- The address is in the structure that was found or among the `length` bytes of its table. -/
def Inside (fpStructure a : Word) : Prop :=
  (a - fpStructure).toNat < 16 ∨
    (a - word memory (fpStructure + 4)).toNat <
      (halfword memory (word memory (fpStructure + 4) + 4)).toNat

/-- Only the structure and its table are read, and without a structure nothing changes. -/
structure Safe (s : MpState) : Prop where
  inside : ∀ a ∈ (mpInit memory s).reads,
    ∃ fpStructure, findMpFloatingPointer memory = some fpStructure ∧ Inside memory fpStructure a
  unchanged : findMpFloatingPointer memory = none → (mpInit memory s).state = s

/-- The address of the entry behind `i` others. -/
def entryAfter : Nat → Nat → Nat
  | 0, entryPtr => entryPtr
  | i + 1, entryPtr =>
      entryAfter i (entryPtr + if memory (BitVec.ofNat 32 entryPtr) = 0 then 20 else 8)

/-- What is read of an entry behind so many processors is in the structure or in its table. -/
structure EntryInside (fpStructure : Word) (entryPtr : Word) (processors : Nat) : Prop where
  type : Inside memory fpStructure entryPtr
  flags : memory entryPtr = 0 → Inside memory fpStructure (entryPtr + 3)
  stored : memory entryPtr = 0 → processors < maxCpus →
    Inside memory fpStructure (entryPtr + 1) ∧ Inside memory fpStructure (entryPtr + 2)
  ioapic : memory entryPtr = 1 → Inside memory fpStructure (entryPtr + 1) ∧
    ∀ k ∈ [1, 4, 5, 6, 7],
      Inside memory fpStructure ((memory (entryPtr + 1)).setWidth 32 + BitVec.ofNat 32 k)

/-- There is a structure, and its table has the bytes that are read of its header and of its
entries. -/
def Complete : Prop :=
  ∃ fpStructure, findMpFloatingPointer memory = some fpStructure ∧
    let t := tableAt memory (word memory (fpStructure + 4))
    Inside memory fpStructure (word memory (fpStructure + 4) + 34) ∧
    Inside memory fpStructure (word memory (fpStructure + 4) + 35) ∧
    ∀ i < t.entryCount.toNat,
      EntryInside memory fpStructure (BitVec.ofNat 32 (entryAfter memory i t.entries))
        (processorEntries t.memory i t.entries).length

/-! ## Entries -/

variable {memory} {fpStructure : Word}

theorem inside_structure (memory : Word → Byte) (fpStructure : Word) {k : Word}
    (hk : k.toNat < 16) : Inside memory fpStructure (fpStructure + k) := by
  left
  rwa [BitVec.add_comm, BitVec.add_sub_cancel]

theorem entryReads_iff (entryPtr : Word) (ncpus : Nat) :
    (∀ a ∈ entryReads memory entryPtr ncpus, Inside memory fpStructure a) ↔
      EntryInside memory fpStructure entryPtr ncpus := by
  unfold entryReads
  -- The type decides which fields are read.
  by_cases hprocessor : memory entryPtr = 0
  · have hother : ¬ memory entryPtr = 1 := by
      rw [hprocessor]
      decide
    rw [if_pos hprocessor]
    constructor
    · intro hreads
      refine ⟨hreads _ (by simp), fun _ => hreads _ (by simp), fun _ hroom => ?_,
        fun hioapic => absurd hioapic hother⟩
      rw [if_pos hroom] at hreads
      exact ⟨hreads _ (by simp), hreads _ (by simp)⟩
    · intro h a ha
      -- Once `cpus` is full, the id and the version are not read any more.
      split at ha
      next hroom =>
        obtain ⟨hid, hversion⟩ := h.stored hprocessor hroom
        have hflags := h.flags hprocessor
        simp only [List.cons_append, List.nil_append, List.mem_cons, List.not_mem_nil,
          or_false] at ha
        rcases ha with rfl | rfl | rfl | rfl | rfl
        · exact h.type
        · exact hid
        · exact hflags
        · exact hversion
        · exact hflags
      next _ =>
        simp only [List.cons_append, List.nil_append, List.mem_cons, List.not_mem_nil,
          or_false] at ha
        rcases ha with rfl | rfl
        · exact h.type
        · exact h.flags hprocessor
  · rw [if_neg hprocessor]
    by_cases hioapic : memory entryPtr = 1
    · rw [if_pos hioapic]
      constructor
      · intro hreads
        refine ⟨hreads _ (by simp), fun hzero => absurd hzero hprocessor,
          fun hzero => absurd hzero hprocessor, fun _ => ⟨hreads _ (by simp), fun k hk => ?_⟩⟩
        apply hreads
        simp only [List.mem_cons, List.not_mem_nil, or_false] at hk
        rcases hk with rfl | rfl | rfl | rfl | rfl <;> simp
      · intro h a ha
        obtain ⟨hid, hfields⟩ := h.ioapic hioapic
        simp only [List.mem_cons, List.not_mem_nil, or_false] at ha
        rcases ha with rfl | rfl | rfl | rfl | rfl | rfl | rfl
        · exact h.type
        · exact hid
        · exact hfields 1 (by simp)
        · exact hfields 4 (by simp)
        · exact hfields 5 (by simp)
        · exact hfields 6 (by simp)
        · exact hfields 7 (by simp)
    · rw [if_neg hioapic]
      constructor
      · intro hreads
        exact ⟨hreads _ (by simp), fun hzero => absurd hzero hprocessor,
          fun hzero => absurd hzero hprocessor, fun hone => absurd hone hioapic⟩
      · rintro h a ha
        exact List.mem_singleton.mp ha ▸ h.type

/-- Once `cpus` is full, it does not matter how many processors there were. -/
theorem EntryInside.congr {entryPtr : Word} {m n : Nat} (hroom : m < maxCpus ↔ n < maxCpus) :
    EntryInside memory fpStructure entryPtr m ↔ EntryInside memory fpStructure entryPtr n :=
  ⟨fun h => ⟨h.type, h.flags, fun hzero hn => h.stored hzero (hroom.mpr hn), h.ioapic⟩,
    fun h => ⟨h.type, h.flags, fun hzero hm => h.stored hzero (hroom.mp hm), h.ioapic⟩⟩

theorem MpState.addProcessor_lt_iff (s : MpState) (p : EntryProcessor) (n : Nat) :
    (s.addProcessor p).ncpus + n < maxCpus ↔ s.ncpus + (n + 1) < maxCpus := by
  unfold MpState.addProcessor
  split
  next _ =>
    dsimp only
    omega
  next _ => omega

/-- The loop reads of every entry what that entry is read for. -/
theorem mpSearchReads_iff (entries entryPtr : Nat) (s : MpState) :
    (∀ a ∈ mpSearchReads memory entries entryPtr s, Inside memory fpStructure a) ↔
      ∀ i < entries, EntryInside memory fpStructure (BitVec.ofNat 32 (entryAfter memory i entryPtr))
        (s.ncpus + (processorEntries (fun a => memory (BitVec.ofNat 32 a)) i entryPtr).length) := by
  induction entries generalizing entryPtr s with
  | zero => simp [mpSearchReads]
  | succ entries ih =>
      rw [mpSearchReads, List.forall_mem_append, entryReads_iff, Nat.forall_lt_succ_left]
      refine and_congr Iff.rfl ?_
      by_cases hprocessor : memory (BitVec.ofNat 32 entryPtr) = 0
      · simp only [hprocessor, if_true, ih, entryAfter, processorEntries, List.length_cons]
        refine forall₂_congr fun i _ => EntryInside.congr ?_
        exact MpState.addProcessor_lt_iff _ _ _
      · simp only [hprocessor, if_false, ih, entryAfter, processorEntries]

/-! ## All images -/

theorem mpInit_reads_of_some (hfound : findMpFloatingPointer memory = some fpStructure)
    (s : MpState) :
    (∀ a ∈ (mpInit memory s).reads, Inside memory fpStructure a) ↔
      Inside memory fpStructure (word memory (fpStructure + 4) + 34) ∧
      Inside memory fpStructure (word memory (fpStructure + 4) + 35) ∧
      ∀ a ∈ mpSearchReads memory
        (tableAt memory (word memory (fpStructure + 4))).entryCount.toNat
        (tableAt memory (word memory (fpStructure + 4))).entries { s with ncpus := 0 },
        Inside memory fpStructure a := by
  have hstructure : ∀ k < 16, Inside memory fpStructure (fpStructure + BitVec.ofNat 32 k) :=
    fun k hk => inside_structure memory fpStructure
      (by rwa [BitVec.toNat_ofNat, Nat.mod_eq_of_lt (by omega)])
  unfold mpInit
  rw [hfound]
  dsimp only [Option.getD_some]
  rw [List.forall_mem_append]
  simp only [List.forall_mem_cons, List.not_mem_nil, false_implies, implies_true, and_true]
  constructor
  · rintro ⟨⟨-, -, -, -, -, -, -, -, hlow, hhigh⟩, hentries⟩
    exact ⟨hlow, hhigh, hentries⟩
  · rintro ⟨hlow, hhigh, hentries⟩
    exact ⟨⟨hstructure 4 (by decide), hstructure 5 (by decide), hstructure 6 (by decide),
      hstructure 7 (by decide), hstructure 12 (by decide), hstructure 13 (by decide),
      hstructure 14 (by decide), hstructure 15 (by decide), hlow, hhigh⟩, hentries⟩

/-- `mpInit` is safe exactly for the images that have a structure with a complete table. -/
theorem safe_iff (memory : Word → Byte) (s : MpState) : Safe memory s ↔ Complete memory := by
  cases hfound : findMpFloatingPointer memory with
  | none =>
      -- What is behind address 0 is read all the same.
      refine iff_of_false (fun hsafe => ?_) ?_
      · obtain ⟨_, hsome, -⟩ := hsafe.inside _ List.mem_cons_self
        exact nomatch hfound.symm.trans hsome
      · rintro ⟨_, hsome, -⟩
        exact nomatch hfound.symm.trans hsome
  | some fpStructure =>
      have hsafe : Safe memory s ↔ ∀ a ∈ (mpInit memory s).reads, Inside memory fpStructure a := by
        constructor
        · intro h a ha
          obtain ⟨_, hsome, hinside⟩ := h.inside a ha
          obtain rfl := Option.some.inj (hfound.symm.trans hsome)
          exact hinside
        · exact fun h => ⟨fun a ha => ⟨fpStructure, hfound, h a ha⟩,
            fun hnone => nomatch hfound.symm.trans hnone⟩
      have hcomplete : Complete memory ↔
          Inside memory fpStructure (word memory (fpStructure + 4) + 34) ∧
          Inside memory fpStructure (word memory (fpStructure + 4) + 35) ∧ _ :=
        ⟨fun ⟨_, hsome, h⟩ => by
          obtain rfl := Option.some.inj (hfound.symm.trans hsome)
          exact h, fun h => ⟨fpStructure, hfound, h⟩⟩
      rw [hsafe, mpInit_reads_of_some hfound, mpSearchReads_iff, hcomplete]
      simp only [Nat.zero_add]
      rfl

/-- In a memory without a structure, one at address 0 is used. -/
theorem not_safe : ¬ ∀ (memory : Word → Byte) (s : MpState), Safe memory s := by
  intro hclaim
  obtain ⟨fpStructure, hfound, -⟩ := (safe_iff (fun _ => 0) .initial).mp (hclaim _ _)
  have hvalid := List.find?_some hfound
  have hsignature : [(0 : Byte), 0, 0, 0] = mpFloatingPointerSignature :=
    (decide_eq_true_iff.mp hvalid).1
  exact absurd hsignature (by decide)

end Firmware

end Senob.Sys
