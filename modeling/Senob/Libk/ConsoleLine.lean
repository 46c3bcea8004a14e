import Senob.Drivers.Keyboard
import Senob.Libk.Descriptors

/-!
# Lines from the keyboard

`console_read_line` of `libk.c`, and `read`, which calls it for the standard input. While it waits,
interrupts add keys to the buffer. The line is the shortest prefix of the keys to come that ends in
a newline or fills the caller's buffer but for its last byte.
-/

namespace Senob.Libk

open Senob.Drivers

def newline : Word := char '\n'

/-- The keyboard buffer, and the keys that interrupts add to it before each further call of
`get_key_from_buffer`. After the last of them no key is added any more. -/
structure KeySource where
  buffer : KeyBuffer
  interrupts : List (List Word)

/-- `do key = get_key_from_buffer(); while (!key)`. The result is `none` when it waits for
ever. -/
def waitForKey (buffer : KeyBuffer) : List (List Word) → Option (Word × KeySource)
  | [] =>
      let got := buffer.getKeyFromBuffer
      if got.2 = 0 then none else some (got.2, ⟨got.1, []⟩)
  | keys :: rest =>
      let got := (keys.foldl KeyBuffer.addKeyToBuffer buffer).getKeyFromBuffer
      if got.2 = 0 then waitForKey got.1 rest else some (got.2, ⟨got.1, rest⟩)

/-- `count`, and what was stored through `out`, with its offsets. -/
structure LineReader where
  source : KeySource
  count : Word
  stored : List (Nat × Byte)

def LineReader.store (r : LineReader) (c : Byte) : LineReader :=
  { r with stored := r.stored ++ [(r.count.toNat, c)] }

/-- The loop, cut off after a number of rounds. -/
def readKeys (len : Word) : Nat → LineReader → Option LineReader
  | 0, _ => none
  | fuel + 1, r =>
      if r.count + 1 < len then
        match waitForKey r.source.buffer r.source.interrupts with
        | none => none
        | some (key, source) =>
            let r := r.store (key.setWidth 8)
            let r : LineReader := { r with source, count := r.count + 1 }
            if key = newline then some r else readKeys len fuel r
      else some r

/-- What `console_read_line` and `read` leave, and the `int` result. -/
structure ReadCall where
  files : Files
  source : KeySource
  stored : List (Nat × Byte)
  result : Int

/-- `console_read_line`. -/
def consoleReadLine (files : Files) (source : KeySource) (len : Word) : Option ReadCall :=
  (readKeys len (len.toNat + 1) ⟨source, 0, []⟩).map fun r =>
    let r := r.store 0
    ⟨files, r.source, r.stored, r.count.toInt⟩

def stdinFileno : Int := 0

/-- `read`, with the result of `f_read` on a valid object and the number of bytes it reports. What
FatFs stores is not recorded. -/
def read (files : Files) (source : KeySource) (fd : Int) (len : Word) (fatfs : FResult)
    (br : Word) : Option ReadCall :=
  if fd < 0 ∨ fd ≥ maxFiles then some ⟨files.setErrno .ebadf, source, [], -1⟩
  else if fd = stdinFileno then consoleReadLine files source len
  else
    let valid :=
      match files.fileTable fd with
      | none => false
      | some fil => files.valid fil
    let res := if valid then fatfs else .invalidObject
    if res = .ok then some ⟨files, source, [], br.toInt⟩
    else some ⟨files.setErrno (mapFresultToErrno res), source, [], -1⟩

/-! ## What is to be read -/

/-- The keys that a reader gets, when it takes one after each round of interrupts that leaves one
in the buffer. -/
def keyStream : List Word → List (List Word) → List Word
  | q, [] => q
  | q, keys :: rest =>
      match keys.foldl (fun q key => (pendingExec q (.addKeyToBuffer key)).1) q with
      | [] => keyStream [] rest
      | key :: later => key :: keyStream later rest

/-- The reader will get these keys, none of which is `0`. -/
def Serves (source : KeySource) (keys : List Word) : Prop :=
  ∃ q, Pending source.buffer q ∧ (∀ added ∈ source.interrupts, 0 ∉ added) ∧
    keyStream q source.interrupts = keys

def IsLine (len : Word) (line : List Word) : Prop :=
  line.getLast? = some newline ∨ line.length = max len.toNat 1 - 1

instance (len : Word) (line : List Word) : Decidable (IsLine len line) :=
  inferInstanceAs (Decidable (_ ∨ _))

/-- The shortest prefix of the keys that is a line. -/
structure FirstLine (len : Word) (keys line : List Word) : Prop where
  isPrefix : line <+: keys
  isLine : IsLine len line
  shortest : ∀ shorter, shorter <+: line → IsLine len shorter → shorter = line

/-- The stores of a line of keys, and of the byte behind it. -/
def lineStores (line : List Word) : List (Nat × Byte) :=
  line.mapIdx (fun i key => (i, key.setWidth 8)) ++ [(line.length, 0)]

/-- The call returns the line. It stores nothing outside of the caller's buffer, reports the number
of keys and leaves the later ones to come. -/
def ReadsLine (len : Word) (keys line : List Word) (call : Option ReadCall) : Prop :=
  ∃ r, call = some r ∧ (∀ store ∈ r.stored, store.1 < len.toNat) ∧
    (1 ≤ len.toNat → r.stored = lineStores line) ∧ r.result = line.length ∧
    ∃ later, keys = line ++ later ∧ Serves r.source later

/-! ## One key -/

theorem pending_interrupted {s : KeyBuffer} {q : List Word} (h : Pending s q) {keys : List Word}
    (hkeys : 0 ∉ keys) :
    Pending (keys.foldl KeyBuffer.addKeyToBuffer s)
      (keys.foldl (fun q key => (pendingExec q (.addKeyToBuffer key)).1) q) := by
  induction keys generalizing s q with
  | nil => exact h
  | cons key rest ih =>
      obtain ⟨hkey, hrest⟩ := not_or.mp (mt List.mem_cons.mpr hkeys)
      have hop : KeyOp.addKeyToBuffer key ≠ .addKeyToBuffer 0 := fun heq =>
        hkey (KeyOp.addKeyToBuffer.inj heq).symm
      exact ih (h.exec (.addKeyToBuffer key) hop).2 hrest

/-- Every list of keys is served by interrupts that add one key each. -/
theorem serves_of_nonzero {keys : List Word} (hkeys : 0 ∉ keys) :
    Serves ⟨.initial, keys.map fun key => [key]⟩ keys := by
  refine ⟨[], pending_initial, fun added hadded => ?_, ?_⟩
  · obtain ⟨key, hkey, rfl⟩ := List.mem_map.mp hadded
    exact fun hzero => hkeys (List.mem_singleton.mp hzero ▸ hkey)
  · clear hkeys
    induction keys with
    | nil => rfl
    | cons key rest ih => exact congrArg (key :: ·) ih

theorem serves_wait {source : KeySource} {key : Word} {later : List Word}
    (h : Serves source (key :: later)) :
    ∃ next, waitForKey source.buffer source.interrupts = some (key, next) ∧
      Serves next later := by
  obtain ⟨s, interrupts⟩ := source
  obtain ⟨q, hpending, hnonzero, hstream⟩ := h
  dsimp only at hpending hnonzero hstream ⊢
  -- Each round of interrupts leaves the buffer empty, or gives the reader its key.
  induction interrupts generalizing s q with
  | nil =>
      obtain rfl : q = key :: later := hstream
      obtain ⟨hkey, hrest⟩ := hpending.get
      have hne : s.getKeyFromBuffer.2 ≠ 0 := fun hzero =>
        List.cons_ne_nil _ _ (hpending.get_eq_zero_iff.mp hzero)
      refine ⟨⟨s.getKeyFromBuffer.1, []⟩, ?_, later, hrest, nofun, rfl⟩
      rw [waitForKey, if_neg hne, hkey]
      rfl
  | cons keys rest ih =>
      obtain ⟨hkeys, hrest⟩ := List.forall_mem_cons.mp hnonzero
      have hadded := pending_interrupted hpending hkeys
      rw [waitForKey]
      rw [keyStream] at hstream
      generalize keys.foldl KeyBuffer.addKeyToBuffer s = s at hadded ⊢
      generalize keys.foldl (fun q key => (pendingExec q (.addKeyToBuffer key)).1) q = q
        at hadded hstream
      obtain ⟨hkey, htail⟩ := hadded.get
      cases q with
      | nil =>
          rw [if_pos (hadded.get_eq_zero_iff.mpr rfl)]
          exact ih _ _ htail hrest hstream
      | cons oldest others =>
          obtain ⟨rfl, rfl⟩ := List.cons.inj hstream
          have hne : s.getKeyFromBuffer.2 ≠ 0 := fun hzero =>
            List.cons_ne_nil _ _ (hadded.get_eq_zero_iff.mp hzero)
          refine ⟨⟨s.getKeyFromBuffer.1, rest⟩, ?_, others, htail, hrest, rfl⟩
          rw [if_neg hne, hkey]
          rfl

/-! ## The loop -/

theorem succ_lt_iff {count len : Word} (h : count.toNat < len.toNat ∨ count = 0) :
    count + 1 < len ↔ count.toNat + 1 < len.toNat := by
  have hlen := len.isLt
  have hsucc : (count + 1).toNat = count.toNat + 1 := by
    rw [BitVec.toNat_add]
    apply Nat.mod_eq_of_lt
    rcases h with h | rfl
    · have hone : (1 : Word).toNat = 1 := rfl
      omega
    · decide
  rw [BitVec.lt_def, hsucc]

/-- The loop reads what remains of a line, whose newline, if it has one, is its last key. -/
theorem readKeys_line {len : Word} {line later : List Word} {fuel : Nat} {r : LineReader}
    (hserves : Serves r.source (line ++ later)) (hinner : newline ∉ line.dropLast)
    (hlast : line.getLast? = some newline ∨ r.count.toNat + line.length = max len.toNat 1 - 1)
    (hroom : r.count.toNat + line.length ≤ max len.toNat 1 - 1) (hfuel : line.length < fuel) :
    ∃ t, readKeys len fuel r = some t ∧ Serves t.source later ∧
      t.count.toNat = r.count.toNat + line.length ∧
      t.stored = r.stored ++ line.mapIdx fun i key => (r.count.toNat + i, key.setWidth 8) := by
  have hlen := len.isLt
  induction line generalizing fuel r with
  | nil =>
      obtain ⟨fuel, rfl⟩ := Nat.exists_eq_add_one_of_ne_zero (Nat.ne_of_gt hfuel)
      have hcount : r.count.toNat = max len.toNat 1 - 1 := hlast.resolve_left nofun
      have hguard : ¬ r.count + 1 < len := by
        by_cases hzero : r.count = 0
        · rw [succ_lt_iff (Or.inr hzero)]
          omega
        · have hne : r.count.toNat ≠ 0 := fun h => hzero (BitVec.eq_of_toNat_eq h)
          rw [succ_lt_iff (Or.inl (by omega))]
          omega
      refine ⟨r, ?_, hserves, rfl, (List.append_nil _).symm⟩
      rw [readKeys, if_neg hguard]
  | cons key rest ih =>
      rw [List.length_cons] at hlast hroom hfuel
      obtain ⟨fuel, rfl⟩ := Nat.exists_eq_add_one_of_ne_zero (Nat.ne_of_gt (by omega : 0 < fuel))
      obtain ⟨next, hwait, hnext⟩ := serves_wait hserves
      have hguard : r.count + 1 < len := (succ_lt_iff (Or.inl (by omega))).mpr (by omega)
      rw [readKeys, if_pos hguard, hwait]
      dsimp only
      have hcount : (r.count + 1).toNat = r.count.toNat + 1 := by
        rw [BitVec.toNat_add]
        exact Nat.mod_eq_of_lt (by rw [show (1 : Word).toNat = 1 from rfl]; omega)
      have hstored : List.mapIdx (fun i key => (r.count.toNat + i, key.setWidth 8)) (key :: rest) =
          (r.count.toNat, key.setWidth 8) ::
            rest.mapIdx fun i key => (r.count.toNat + 1 + i, key.setWidth 8) := by
        rw [List.mapIdx_cons]
        simp only [Nat.add_zero, Nat.add_right_comm, Nat.add_assoc]
      rw [hstored, List.length_cons]
      by_cases hkey : key = newline
      · -- The loop ends here, and so does the line: its newline is its last key.
        obtain rfl : rest = [] := by
          cases rest with
          | nil => rfl
          | cons second others => exact absurd (hkey ▸ List.mem_cons_self) hinner
        rw [if_pos hkey]
        exact ⟨_, rfl, hnext, hcount, rfl⟩
      · have hinner' : newline ∉ rest.dropLast := by
          cases rest with
          | nil => exact List.not_mem_nil
          | cons second others => exact fun hmem => hinner (List.mem_cons_of_mem _ hmem)
        have hlast' : rest.getLast? = some newline ∨
            (r.count + 1).toNat + rest.length = max len.toNat 1 - 1 := by
          refine hlast.imp (fun heq => ?_) fun heq => by omega
          cases rest with
          | nil => exact absurd (Option.some.inj heq) hkey
          | cons second others => exact heq
        have hroom' : (r.count + 1).toNat + rest.length ≤ max len.toNat 1 - 1 := by omega
        rw [if_neg hkey]
        obtain ⟨t, ht, hlater, htcount, htstored⟩ :=
          ih (r := { r.store (key.setWidth 8) with source := next, count := r.count + 1 })
            hnext hinner' hlast' hroom' (Nat.lt_of_succ_lt_succ hfuel)
        refine ⟨t, ht, hlater, by rw [htcount, hcount]; omega, ?_⟩
        rw [htstored, hcount, LineReader.store, List.append_assoc]
        rfl

/-! ## The line -/

/-- The first line has its only newline at the end, and it fits. -/
theorem FirstLine.inner {len : Word} {keys line : List Word} (h : FirstLine len keys line) :
    newline ∉ line.dropLast := by
  intro hmem
  obtain ⟨before, after, hsplit⟩ := List.append_of_mem hmem
  have hpre : before ++ [newline] <+: line.dropLast := ⟨after, by rw [hsplit]; simp⟩
  have hwhole := h.shortest _ (hpre.trans (List.dropLast_prefix line)) (Or.inl (by simp))
  have hlength := hpre.length_le
  rw [hwhole, List.length_dropLast] at hlength
  have hne : line ≠ [] := by
    rintro rfl
    exact List.not_mem_nil hmem
  have hpos := List.length_pos_iff.mpr hne
  omega

theorem FirstLine.length_le {len : Word} {keys line : List Word} (h : FirstLine len keys line) :
    line.length ≤ max len.toNat 1 - 1 := by
  by_contra hlong
  have hlength : (line.take (max len.toNat 1 - 1)).length = max len.toNat 1 - 1 := by
    rw [List.length_take]
    omega
  have hwhole := h.shortest _ (List.take_prefix _ line) (Or.inr hlength)
  rw [hwhole] at hlength
  omega

theorem consoleReadLine_line (files : Files) {source : KeySource} {len : Word}
    {keys line : List Word} (hserves : Serves source keys) (hline : FirstLine len keys line) :
    ∃ r, consoleReadLine files source len = some r ∧ r.files = files ∧
      r.stored = lineStores line ∧ r.result = (BitVec.ofNat 32 line.length).toInt ∧
      ∃ later, keys = line ++ later ∧ Serves r.source later := by
  obtain ⟨later, rfl⟩ := hline.isPrefix
  have hlength := hline.length_le
  have hfuel : line.length < len.toNat + 1 := by omega
  obtain ⟨t, ht, hlater, hcount, hstored⟩ :=
    readKeys_line (r := ⟨source, 0, []⟩) hserves hline.inner
      (hline.isLine.imp_right fun h => by rw [h]; exact Nat.zero_add _)
      (by rw [show (0 : Word).toNat = 0 from rfl]; omega) hfuel
  have hcount' : t.count.toNat = line.length := hcount.trans (Nat.zero_add _)
  have hword : t.count = BitVec.ofNat 32 line.length := by
    rw [← hcount', BitVec.ofNat_toNat, BitVec.setWidth_eq]
  refine ⟨_, by rw [consoleReadLine, ht]; rfl, rfl, ?_, congrArg BitVec.toInt hword, later, rfl,
    hlater⟩
  simp only [LineReader.store, hstored, hcount', lineStores]
  simp

/-- The line has at most `n` keys just when it has to end there, or a newline comes early enough. -/
theorem FirstLine.length_le_iff {len : Word} {keys line : List Word} (h : FirstLine len keys line)
    (hlen : len ≠ 0) (n : Nat) :
    line.length ≤ n ↔ len.toNat ≤ n + 1 ∨ newline ∈ keys.take n := by
  have hpos : len.toNat ≠ 0 := fun hzero => hlen (BitVec.eq_of_toNat_eq hzero)
  have hlength := h.length_le
  obtain ⟨later, rfl⟩ := h.isPrefix
  constructor
  · intro hle
    rcases h.isLine with hlast | hfull
    · right
      rw [List.take_append]
      have hmem : newline ∈ line := List.mem_of_getLast? hlast
      rw [List.take_of_length_le hle]
      exact List.mem_append_left _ hmem
    · left
      omega
  · rintro (hle | hmem)
    · omega
    · by_contra hlong
      rw [List.take_append_of_le_length (by omega)] at hmem
      refine h.inner (List.IsPrefix.subset ?_ hmem)
      rw [List.dropLast_eq_take]
      exact List.take_prefix_take_left (by omega)

theorem toInt_ofNat_eq_iff {n : Nat} (hn : n < 2 ^ 32) :
    (BitVec.ofNat 32 n).toInt = n ↔ n ≤ 2 ^ 31 - 1 := by
  rw [BitVec.toInt_eq_toNat_cond, BitVec.toNat_ofNat, Nat.mod_eq_of_lt hn]
  split <;> omega

/-- For every stream of keys, `console_read_line` reads the line as it should when the buffer has
room for a byte and the number of keys is an `int`. -/
theorem readsLine_iff (files : Files) {source : KeySource} {len : Word} {keys line : List Word}
    (hserves : Serves source keys) (hline : FirstLine len keys line) :
    ReadsLine len keys line (consoleReadLine files source len) ↔
      len ≠ 0 ∧ (len.toNat ≤ 2 ^ 31 ∨ newline ∈ keys.take (2 ^ 31 - 1)) := by
  have hlength := hline.length_le
  have hlt := len.isLt
  obtain ⟨r, hr, -, hstored, hresult, hlater⟩ := consoleReadLine_line files hserves hline
  have hint := toInt_ofNat_eq_iff (n := line.length) (by omega)
  have hoffsets : ∀ store ∈ lineStores line, store.1 ≤ line.length := by
    intro store hmem
    rcases List.mem_append.mp hmem with hmem | hmem
    · obtain ⟨i, hi, rfl⟩ := List.mem_mapIdx.mp hmem
      exact Nat.le_of_lt hi
    · exact (List.mem_singleton.mp hmem) ▸ Nat.le_refl _
  constructor
  · rintro ⟨r', hr', hbounds, -, hcount, -⟩
    obtain rfl := Option.some.inj (hr.symm.trans hr')
    have hterminator : (line.length, 0) ∈ r.stored := by
      rw [hstored]
      exact List.mem_append_right _ (List.mem_singleton_self _)
    have hlen : len ≠ 0 := by
      rintro rfl
      exact Nat.not_lt_zero _ (hbounds _ hterminator)
    exact ⟨hlen, (hline.length_le_iff hlen _).mp (hint.mp (hresult.symm.trans hcount))⟩
  · rintro ⟨hlen, hshort⟩
    have hpos : len.toNat ≠ 0 := fun hzero => hlen (BitVec.eq_of_toNat_eq hzero)
    refine ⟨r, hr, fun store hmem => ?_, fun _ => hstored, ?_, hlater⟩
    · have := hoffsets store (hstored ▸ hmem)
      omega
    · exact hresult.trans (hint.mpr ((hline.length_le_iff hlen _).mpr hshort))

theorem firstLine_newline : FirstLine 4 [newline] [newline] where
  isPrefix := List.prefix_rfl
  isLine := by decide
  shortest := by
    intro shorter hpre hline
    cases shorter with
    | nil => exact absurd hline (by decide)
    | cons key rest => exact hpre.eq_of_length_le (by simp)

theorem readsLine_iff_newline :
    ReadsLine 4 [newline] [newline]
      (consoleReadLine .initial ⟨.initial, [[newline]]⟩ 4) :=
  (readsLine_iff .initial (serves_of_nonzero (by decide)) firstLine_newline).mpr
    ⟨by decide, Or.inl (by decide)⟩

/-- A length of `0` leaves no room for the byte that is stored behind the line. -/
theorem not_readsLine_zero :
    ¬ ∀ files source len keys line, Serves source keys → FirstLine len keys line →
      ReadsLine len keys line (consoleReadLine files source len) := by
  intro h
  have hline : FirstLine 0 [] [] :=
    ⟨List.prefix_rfl, by decide, fun shorter hpre _ => List.prefix_nil.mp hpre⟩
  obtain ⟨r, hr, hbounds, -⟩ := h .initial ⟨.initial, []⟩ 0 [] []
    (serves_of_nonzero List.not_mem_nil) hline
  obtain rfl := Option.some.inj hr
  exact absurd (hbounds (0, 0) (by decide)) (by decide)

end Senob.Libk
