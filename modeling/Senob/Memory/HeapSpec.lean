import Senob.Memory.Heap

/-!
# What the heap functions do to the block table

One specification for each function of `heap.c`. The search is a first fit; a
marked run is recognised by its flag bits alone; contraction removes the longest
free suffix. Frames come from a list of answers, where zero is a refusal.
-/

namespace Senob.Memory

open Senob.Foundation

namespace Heap

/-- The `n` blocks from `s` on are free. -/
def FreeRun (entries : Bytes) (s n : Nat) : Prop :=
  ∀ j < n, entries (s + j) = heapBlockTableEntryFree

theorem FreeRun.congr {entries entries' : Bytes} {s n : Nat} (h : FreeRun entries s n)
    (heq : ∀ i, s ≤ i → i < s + n → entries' i = entries i) : FreeRun entries' s n :=
  fun j hj => by rw [heq (s + j) (by omega) (by omega), h j hj]

/-! ## The search -/

/-- The outcome of a search for `n` blocks in the first `total` entries. -/
def FirstFit (entries : Bytes) (n total : Nat) : Option Nat → Prop
  | some s => s + n ≤ total ∧ FreeRun entries s n ∧ ∀ s' < s, ¬ FreeRun entries s' n
  | none => ∀ s, s + n ≤ total → ¬ FreeRun entries s n

/-- What the loop of `heap_get_start_block` knows at block `i`: the current run is
free and cannot be extended downwards, and no run of `wanted` blocks ends by
`i`. -/
structure Scanned (entries : Bytes) (wanted i : Nat) (runStart : Option Nat)
    (runLength : Nat) : Prop where
  length_le : runLength ≤ i
  short : runLength < wanted
  start : runStart = if runLength = 0 then none else some (i - runLength)
  current : FreeRun entries (i - runLength) runLength
  maximal : runLength < i → entries (i - runLength - 1) ≠ heapBlockTableEntryFree
  earlier : ∀ s, s + wanted ≤ i → ¬ FreeRun entries s wanted

theorem findRun_firstFit {entries : Bytes} {wanted i runLength : Nat} {runStart : Option Nat}
    (h : Scanned entries wanted i runStart runLength) (left : Nat) :
    FirstFit entries wanted (i + left) (findRun entries wanted i runStart runLength left) := by
  induction left generalizing i runStart runLength with
  | zero => exact h.earlier
  | succ left ih =>
      rw [show i + (left + 1) = i + 1 + left by omega]
      have hshort := h.short
      have hlength := h.length_le
      have hgetD : runStart.getD i = i - runLength := by
        rw [h.start]
        split <;> simp_all
      unfold findRun
      split
      -- A free block continues the run, and may complete it.
      next hfree =>
        have hcurrent : FreeRun entries (i - runLength) (runLength + 1) := by
          intro j hj
          by_cases hlast : j = runLength
          · rw [hlast, show i - runLength + runLength = i by omega, hfree]
          · exact h.current j (by omega)
        dsimp only
        rw [hgetD]
        split
        next hfound =>
          rw [← hfound] at h ⊢
          refine ⟨by omega, hcurrent, fun s' hs' => h.earlier s' (by omega)⟩
        next hnot =>
          refine ih ⟨by omega, by omega, ?_, ?_, ?_, ?_⟩
          · rw [if_neg (by omega), show i + 1 - (runLength + 1) = i - runLength by omega]
          · rwa [show i + 1 - (runLength + 1) = i - runLength by omega]
          · intro hlt
            rw [show i + 1 - (runLength + 1) - 1 = i - runLength - 1 by omega]
            exact h.maximal (by omega)
          · intro s hs hrun
            rcases Nat.lt_or_ge (s + wanted) (i + 1) with hlt | hge
            · exact h.earlier s (by omega) hrun
            · apply h.maximal (by omega)
              rw [← hrun (i - runLength - 1 - s) (by omega)]
              congr 1
              omega
      -- A taken block ends the run, and no run starts before it.
      next htaken =>
        refine ih ⟨by omega, by omega, rfl, fun j hj => by omega, fun _ => htaken, ?_⟩
        intro s hs hrun
        rcases Nat.lt_or_ge (s + wanted) (i + 1) with hlt | hge
        · exact h.earlier s (by omega) hrun
        · apply htaken
          rw [← hrun (i - s) (by omega)]
          congr 1
          omega

/-- `heap_get_start_block` finds the first fit. -/
theorem getStartBlock_firstFit (h : Heap) {n : Nat} (hn : 0 < n) :
    FirstFit h.entries n h.totalBlocks (h.getStartBlock n) := by
  have hstart : Scanned h.entries n 0 none 0 :=
    ⟨le_rfl, hn, rfl, fun j hj => by omega, fun hlt => by omega, fun s hs => by omega⟩
  have hfit := findRun_firstFit hstart h.totalBlocks
  rwa [Nat.zero_add] at hfit

/-- No run has zero blocks: the length of the current run is compared after it has
been counted up. -/
theorem getStartBlock_zero (h : Heap) : h.getStartBlock 0 = none := by
  have hloop : ∀ left i runStart runLength,
      findRun h.entries 0 i runStart runLength left = none := by
    intro left
    induction left with
    | zero => intros; rfl
    | succ left ih =>
        intro i runStart runLength
        unfold findRun
        split
        · simp [ih]
        · exact ih _ _ _
  exact hloop _ _ _ _

/-! ## Marking -/

theorem runEntry_ne_free (s n i : Nat) : runEntry s n i ≠ heapBlockTableEntryFree := by
  unfold runEntry
  dsimp only
  split
  · split <;> decide
  · split <;> decide

/-- The successor bit is set in every block of a run but the last. -/
theorem runEntry_hasNext_iff {s n i : Nat} (hlow : s ≤ i) (hhigh : i < s + n) :
    runEntry s n i &&& heapBlockHasNext = 0 ↔ i + 1 = s + n := by
  unfold runEntry
  dsimp only
  split
  next hi =>
    subst hi
    by_cases hn : n > 1
    · simp only [hn, ↓reduceIte]
      exact ⟨fun hbit => absurd hbit (by decide), fun heq => by omega⟩
    · simp only [hn, ↓reduceIte]
      exact ⟨fun _ => by omega, fun _ => by decide⟩
  next hi =>
    split
    next hend => exact ⟨fun _ => by omega, fun _ => by decide⟩
    next hend => exact ⟨fun hbit => absurd hbit (by decide), fun heq => by omega⟩

theorem markRun_apply (entries : Bytes) (s n i : Nat) :
    markRun entries s n i = if s ≤ i ∧ i < s + n then runEntry s n i else entries i := by
  have hloop : ∀ (m first : Nat) (entries : Bytes),
      (List.range' first m).foldl
        (fun entries i => Function.update entries i (runEntry s n i)) entries i =
        if first ≤ i ∧ i < first + m then runEntry s n i else entries i := by
    intro m
    induction m with
    | zero => intro first entries; simp
    | succ m ih =>
        intro first entries
        rw [List.range'_succ, List.foldl_cons, ih]
        by_cases hi : i = first
        · subst hi
          simp
        · rw [Function.update_of_ne hi]
          congr 1
          simp only [eq_iff_iff]
          omega
  exact hloop n s entries

/-! ## Expansion -/

/-- The number of frames that a list of answers supplies. -/
def grants (frames : List Nat) : Nat := (frames.filter (· ≠ 0)).length

/-- The number of frames supplied before the first refusal. -/
def available (frames : List Nat) : Nat := (frames.takeWhile (· ≠ 0)).length

/-- Paging with a frame allocator that gives the listed answers, and refuses when
the list is used up. -/
def oracle : PageServices (List Nat) where
  pmmAllocPageframe
    | [] => (0, [])
    | answer :: rest => (answer, rest)
  memMapPage _ _ _ frames := frames
  memUnmapPage _ frames := frames

/-- The heap after `k` free blocks have been appended. -/
structure Appended (h : Heap) (k : Nat) (h' : Heap) : Prop where
  startAddress : h'.startAddress = h.startAddress
  entriesAddress : h'.entriesAddress = h.entriesAddress
  totalBlocks : h'.totalBlocks = h.totalBlocks + k
  heapSize : h'.heapSize = h'.totalBlocks * heapBlockSize
  old : ∀ i < h.totalBlocks, h'.entries i = h.entries i
  new : ∀ i, h.totalBlocks ≤ i → i < h.totalBlocks + k →
    h'.entries i = heapBlockTableEntryFree

theorem Appended.refl {h : Heap} (hsize : h.heapSize = h.totalBlocks * heapBlockSize) :
    h.Appended 0 h :=
  ⟨rfl, rfl, rfl, hsize, fun _ _ => rfl, fun i hlow hhigh => by omega⟩

/-- One round of `heap_expand`, when the frame is granted. -/
def appendBlock (h : Heap) : Heap :=
  { h with
    entries := Function.update h.entries h.totalBlocks heapBlockTableEntryFree
    totalBlocks := (h.totalBlocks + 1) % 2 ^ 32
    heapSize := (h.heapSize + heapBlockSize) % 2 ^ 32 }

section Round

variable {ε : Type*} {svc : PageServices ε} {h : Heap} {env env' : ε}

theorem expandBlocks_of_refused (halloc : svc.pmmAllocPageframe env = (0, env')) (left : Nat) :
    h.expandBlocks svc env (left + 1) = (false, h, env') := by
  rw [expandBlocks, halloc]
  rfl

theorem expandBlocks_of_granted {physAddr : Nat} {env'' : ε}
    (halloc : svc.pmmAllocPageframe env = (physAddr, env')) (hne : physAddr ≠ 0)
    (hmap : svc.memMapPage ((heapStartAddress + h.heapSize) % 2 ^ 32) physAddr heapPageFlags env' =
      env'') (left : Nat) :
    h.expandBlocks svc env (left + 1) = h.appendBlock.expandBlocks svc env'' left := by
  rw [expandBlocks, halloc]
  dsimp only
  rw [if_neg hne, hmap]
  rfl

theorem initBlocks_of_granted {physAddr i : Nat} {env'' : ε}
    (halloc : svc.pmmAllocPageframe env = (physAddr, env')) (hne : physAddr ≠ 0)
    (hmap : svc.memMapPage (heapStartAddress + i * heapBlockSize) physAddr heapPageFlags env' =
      env'') (left : Nat) :
    h.initBlocks svc env i (left + 1) =
      { h with entries := Function.update h.entries i heapBlockTableEntryFree }.initBlocks svc
        env'' (i + 1) left := by
  rw [initBlocks, halloc]
  dsimp only
  rw [if_neg hne, hmap]

/-- What every round of `heap_expand` keeps holds at its end. -/
theorem expandBlocks_invariant {P : Heap → ε → Prop}
    (hrefused : ∀ {h env env'}, P h env → svc.pmmAllocPageframe env = (0, env') → P h env')
    (hgranted : ∀ {h env physAddr env'}, P h env → physAddr ≠ 0 →
      svc.pmmAllocPageframe env = (physAddr, env') →
      P h.appendBlock (svc.memMapPage ((heapStartAddress + h.heapSize) % 2 ^ 32) physAddr
        heapPageFlags env'))
    (hP : P h env) (left : Nat) :
    P (h.expandBlocks svc env left).2.1 (h.expandBlocks svc env left).2.2 := by
  induction left generalizing h env with
  | zero => exact hP
  | succ left ih =>
      rcases halloc : svc.pmmAllocPageframe env with ⟨physAddr, env'⟩
      by_cases hzero : physAddr = 0
      · subst hzero
        rw [expandBlocks_of_refused halloc]
        exact hrefused hP halloc
      · rw [expandBlocks_of_granted halloc hzero rfl]
        exact ih (hgranted hP hzero halloc)

end Round

theorem appended_one {h : Heap} (hsize : h.heapSize = h.totalBlocks * heapBlockSize)
    (hbound : h.totalBlocks < 131072) : h.Appended 1 h.appendBlock := by
  have hwrap : h.appendBlock.totalBlocks = h.totalBlocks + 1 := Nat.mod_eq_of_lt (by omega)
  refine ⟨rfl, rfl, hwrap, ?_, fun i hi => ?_, fun i hlow hhigh => ?_⟩
  · change (h.heapSize + heapBlockSize) % 2 ^ 32 = _
    rw [hwrap, hsize, heapBlockSize]
    omega
  · exact Function.update_of_ne (by omega) _ _
  · obtain rfl : i = h.totalBlocks := by omega
    exact Function.update_self _ _ _

theorem Appended.trans {h h₁ h₂ : Heap} {j k : Nat} (hfirst : h.Appended j h₁)
    (hsecond : h₁.Appended k h₂) : h.Appended (j + k) h₂ := by
  have hmiddle := hfirst.totalBlocks
  have htotal := hsecond.totalBlocks
  refine ⟨hsecond.startAddress.trans hfirst.startAddress,
    hsecond.entriesAddress.trans hfirst.entriesAddress, by omega, hsecond.heapSize,
    fun i hi => ?_, fun i hlow hhigh => ?_⟩
  · rw [hsecond.old i (by omega), hfirst.old i hi]
  · by_cases hi : i < h₁.totalBlocks
    · rw [hsecond.old i hi, hfirst.new i hlow (by omega)]
    · exact hsecond.new i (by omega) (by omega)

/-- `heap_expand` appends one free block for each frame, up to the first refusal,
and succeeds when there was none. -/
theorem expandBlocks_appended {h : Heap} {frames : List Nat}
    (hsize : h.heapSize = h.totalBlocks * heapBlockSize)
    (hbound : h.totalBlocks + grants frames ≤ 131072) (left : Nat) :
    ∃ k h' frames', expandBlocks oracle h frames left =
        (decide (left ≤ available frames), h', frames') ∧
      h.Appended k h' ∧ k + grants frames' = grants frames ∧
      k ≤ left ∧ (left ≤ available frames → k = left) := by
  induction left generalizing h frames with
  | zero =>
      exact ⟨0, h, frames, by simp [expandBlocks], Appended.refl hsize, Nat.zero_add _, le_rfl,
        fun _ => rfl⟩
  | succ left ih =>
      -- A refusal ends the loop, with what it has appended so far.
      have hstop (hans : (oracle.pmmAllocPageframe frames).1 = 0)
          (hgrants : grants (oracle.pmmAllocPageframe frames).2 = grants frames)
          (havail : available frames = 0) :
          ∃ k h' frames', expandBlocks oracle h frames (left + 1) =
              (decide (left + 1 ≤ available frames), h', frames') ∧
            h.Appended k h' ∧ k + grants frames' = grants frames ∧
            k ≤ left + 1 ∧ (left + 1 ≤ available frames → k = left + 1) := by
        refine ⟨0, h, (oracle.pmmAllocPageframe frames).2, ?_, Appended.refl hsize, ?_, by omega,
          fun hle => by omega⟩
        · simp [expandBlocks, hans, havail]
        · omega
      cases frames with
      | nil => exact hstop rfl rfl rfl
      | cons answer rest =>
          by_cases hans : answer = 0
          · subst hans
            exact hstop rfl (by simp [oracle, grants]) (by simp [available])
          have hgrants : grants (answer :: rest) = grants rest + 1 := by simp [grants, hans]
          have havail : available (answer :: rest) = available rest + 1 := by
            simp [available, hans]
          have hone := appended_one hsize (by omega)
          obtain ⟨k, h', frames', hres, happ, hsupply, hk, hfull⟩ :=
            @ih _ rest hone.heapSize (by rw [hone.totalBlocks]; omega)
          refine ⟨k + 1, h', frames', ?_, ?_, by omega, by omega, fun hle => by omega⟩
          · have hdecide : decide (left + 1 ≤ available (answer :: rest)) =
                decide (left ≤ available rest) := by
              rw [havail]
              simp
            rw [hdecide, ← hres]
            simp [expandBlocks, oracle, hans, appendBlock]
          · rw [Nat.add_comm]
            exact hone.trans happ

theorem initBlocks_spec {h : Heap} {frames : List Nat} {i left : Nat}
    (hleft : left ≤ available frames) :
    ∃ entries frames',
      initBlocks oracle h frames i left = ({ h with entries := entries }, frames') ∧
      (∀ j, i ≤ j → j < i + left → entries j = heapBlockTableEntryFree) ∧
      (∀ j < i, entries j = h.entries j) ∧ grants frames' + left = grants frames := by
  induction left generalizing h frames i with
  | zero => exact ⟨h.entries, frames, rfl, fun j _ _ => by omega, fun _ _ => rfl, rfl⟩
  | succ left ih =>
      match frames with
      | [] => exact absurd hleft (by simp [available])
      | answer :: rest =>
          by_cases hans : answer = 0
          · exact absurd hleft (by simp [available, hans])
          have hgrants : grants (answer :: rest) = grants rest + 1 := by simp [grants, hans]
          have havail : available (answer :: rest) = available rest + 1 := by
            simp [available, hans]
          obtain ⟨entries, frames', hres, hnew, hold, hsupply⟩ := ih
            (h := { h with entries := Function.update h.entries i heapBlockTableEntryFree })
            (i := i + 1) (show left ≤ available rest by omega)
          refine ⟨entries, frames', ?_, ?_, ?_, by omega⟩
          · rw [← hres]
            simp [initBlocks, oracle, hans]
          · intro j hlow hhigh
            by_cases hj : j = i
            · subst hj
              rw [hold j (by omega)]
              exact Function.update_self _ _ _
            · exact hnew j (by omega) (by omega)
          · intro j hj
            rw [hold j (by omega)]
            exact Function.update_of_ne (by omega) _ _

theorem init_eq {ε : Type*} {svc : PageServices ε} {memory : Bytes} {env env' : ε} {h : Heap}
    (hloop :
      initBlocks svc ⟨memory, heapStartAddress, 4, heapStartAddress, 0⟩ env 0 4 = (h, env')) :
    init svc memory env = ({ h with heapSize := initialHeapSize }, env') := by
  have hfour : initialHeapSize / heapBlockSize = 4 := by decide
  simp only [init, hfour, hloop]

/-- After `heap_init` with four frames granted, the table has four free blocks. -/
theorem init_spec (memory : Bytes) {frames : List Nat} (hinit : 4 ≤ available frames) :
    ∃ h frames', init oracle memory frames = (h, frames') ∧ h.totalBlocks = 4 ∧
      h.startAddress = heapStartAddress ∧ h.entriesAddress = heapStartAddress ∧
      h.heapSize = h.totalBlocks * heapBlockSize ∧
      (∀ i < 4, h.entries i = heapBlockTableEntryFree) ∧ grants frames' + 4 = grants frames := by
  obtain ⟨entries, frames', hres, hnew, _, hsupply⟩ := initBlocks_spec
    (h := ⟨memory, heapStartAddress, 4, heapStartAddress, 0⟩) (i := 0) hinit
  refine ⟨⟨entries, heapStartAddress, 4, heapStartAddress, initialHeapSize⟩, frames',
    init_eq hres, rfl, rfl, rfl, ?_, ?_, hsupply⟩
  · simp only [initialHeapSize, Nat.mul_comm]
  · intro i hi
    refine hnew i (Nat.zero_le i) ?_
    rwa [Nat.zero_add]

/-! ## Freeing -/

/-- Freeing reads a marked run to its end by the successor bits. -/
theorem freeRun_apply {entries : Bytes} {s n : Nat} (hn : 0 < n)
    (hrun : ∀ i, s ≤ i → i < s + n → entries i = runEntry s n i) {left : Nat} (hleft : n ≤ left)
    (i : Nat) :
    freeRun entries s left i =
      if s ≤ i ∧ i < s + n then heapBlockTableEntryFree else entries i := by
  -- The loop stands at the block that is `m` blocks before the end of the run.
  have hloop : ∀ (m left : Nat) (entries : Bytes), 0 < m → m ≤ n → m ≤ left →
      (∀ i, s + n - m ≤ i → i < s + n → entries i = runEntry s n i) →
      freeRun entries (s + n - m) left i =
        if s + n - m ≤ i ∧ i < s + n then heapBlockTableEntryFree else entries i := by
    intro m
    induction m with
    | zero => intro left entries hpos; omega
    | succ m ih =>
        intro left entries _ hmn hml hrun
        obtain ⟨left, rfl⟩ : ∃ k, left = k + 1 := ⟨left - 1, by omega⟩
        unfold freeRun
        dsimp only
        rw [hrun _ le_rfl (by omega)]
        split
        next hlast =>
          have := (runEntry_hasNext_iff (by omega) (by omega)).mp hlast
          by_cases hi : i = s + n - (m + 1)
          · subst hi
            rw [Function.update_self, if_pos (by omega)]
          · rw [Function.update_of_ne hi, if_neg (by omega)]
        next hmore =>
          have hm : 0 < m := by
            by_contra hzero
            exact hmore ((runEntry_hasNext_iff (by omega) (by omega)).mpr (by omega))
          rw [show s + n - (m + 1) + 1 = s + n - m by omega, ih _ _ hm (by omega) (by omega) ?_]
          · by_cases hi : i = s + n - (m + 1)
            · subst hi
              rw [if_neg (by omega), Function.update_self, if_pos (by omega)]
            · rw [Function.update_of_ne hi]
              congr 1
              simp only [eq_iff_iff]
              omega
          · intro j hlow hhigh
            rw [Function.update_of_ne (by omega), hrun j (by omega) hhigh]
  have := hloop n left entries hn le_rfl hleft
  rw [show s + n - n = s by omega] at this
  exact this hrun

/-- A free table stays free, wherever freeing starts. -/
theorem freeRun_of_free {entries : Bytes} {total : Nat}
    (h : ∀ i < total, entries i = heapBlockTableEntryFree) (first left : Nat) :
    ∀ i < total, freeRun entries first left i = heapBlockTableEntryFree := by
  induction left generalizing entries first with
  | zero => exact h
  | succ left ih =>
      have hupdate : ∀ i < total,
          Function.update entries first heapBlockTableEntryFree i = heapBlockTableEntryFree := by
        intro i hi
        by_cases heq : i = first
        · rw [heq, Function.update_self]
        · rw [Function.update_of_ne heq, h i hi]
      unfold freeRun
      dsimp only
      split
      · exact hupdate
      · exact ih hupdate _

/-! ## Contraction -/

/-- The heap after its longest free suffix has been dropped. -/
structure Contracted (h h' : Heap) : Prop where
  startAddress : h'.startAddress = h.startAddress
  entriesAddress : h'.entriesAddress = h.entriesAddress
  entries : h'.entries = h.entries
  totalBlocks_le : h'.totalBlocks ≤ h.totalBlocks
  heapSize : h'.heapSize = h'.totalBlocks * heapBlockSize
  dropped : ∀ i, h'.totalBlocks ≤ i → i < h.totalBlocks → h.entries i = heapBlockTableEntryFree
  last : 0 < h'.totalBlocks → h'.entries (h'.totalBlocks - 1) ≠ heapBlockTableEntryFree

/-- `heap_contract` drops free trailing blocks only, and all of them. -/
theorem contract_contracted {ε : Type*} (svc : PageServices ε) {h : Heap} (env : ε)
    (hsize : h.heapSize = h.totalBlocks * heapBlockSize) (hbound : h.totalBlocks ≤ 131072) :
    ∃ h' env', h.contract svc env = (h', env') ∧ h.Contracted h' ∧
      ((∀ virtAddr env, svc.memUnmapPage virtAddr env = env) → env' = env) := by
  unfold contract
  induction htotal : h.totalBlocks generalizing h env with
  | zero =>
      refine ⟨h, env, rfl, ⟨rfl, rfl, rfl, by omega, hsize, ?_, ?_⟩, fun _ => rfl⟩ <;> omega
  | succ n ih =>
      unfold contractBlocks
      split
      next hfree =>
        have hn : (h.totalBlocks + 2 ^ 32 - 1) % 2 ^ 32 = n := by omega
        have hsz : (h.heapSize + 2 ^ 32 - heapBlockSize) % 2 ^ 32 = n * heapBlockSize := by
          rw [hsize, htotal]
          simp only [heapBlockSize]
          omega
        rw [hn, hsz]
        obtain ⟨h', env', hres, hcon, henv⟩ := ih
          (h := { h with totalBlocks := n, heapSize := n * heapBlockSize })
          (svc.memUnmapPage ((h.startAddress + n * heapBlockSize) % 2 ^ 32) env)
          rfl (by dsimp only; omega) rfl
        refine ⟨h', env', hres, ⟨hcon.startAddress, hcon.entriesAddress, hcon.entries, ?_,
          hcon.heapSize, ?_, hcon.last⟩, fun hid => (henv hid).trans (hid _ _)⟩
        · have := hcon.totalBlocks_le
          dsimp only at this
          omega
        · intro i hlow hhigh
          by_cases hi : i = n
          · rw [hi, hfree]
          · exact hcon.dropped i hlow (by dsimp only; omega)
      next htaken =>
        refine ⟨h, env, rfl, ⟨rfl, rfl, rfl, le_rfl, hsize, fun i hlow hhigh => by omega, ?_⟩,
          fun _ => rfl⟩
        intro _
        rwa [htotal]

/-! ## Sizes -/

/-- The block count rounds the size up; near 2^32 it wraps to zero. -/
theorem decimalTotalBlocks_eq {size : Nat} (hsize : size < 2 ^ 32) :
    decimalTotalBlocks size = if size + 4095 < 2 ^ 32 then (size + 4095) / 4096 else 0 := by
  unfold decimalTotalBlocks
  dsimp only
  rw [and_frameMask (Nat.mod_lt _ (by decide))]
  simp only [heapBlockSize]
  split <;> omega

/-- The block of a heap address. -/
theorem addressToBlock_eq {h : Heap} (hstart : h.startAddress = heapStartAddress) {s : Nat}
    (hs : s ≤ 131072) :
    h.addressToBlock (heapStartAddress + s * heapBlockSize) = s := by
  have hdiff : ((heapStartAddress + s * heapBlockSize : Nat) : Int) - heapStartAddress =
      s * heapBlockSize := by
    push_cast
    omega
  rw [addressToBlock, hstart, hdiff, Int.bmod_eq_of_le (by simp only [heapBlockSize]; omega)
    (by simp only [heapBlockSize]; omega)]
  exact Int.mul_tdiv_cancel _ (by decide)

theorem decimalTotalBlocks_lt (size : Nat) : decimalTotalBlocks size < 2 ^ 20 := by
  unfold decimalTotalBlocks heapBlockSize
  dsimp only
  omega

/-! ## Allocation -/

/-- The request for `n` blocks is refused: it asks for none, or for a run that the
table does not have and that the frame allocator does not supply. -/
def Refused (h : Heap) (frames : List Nat) (n : Nat) : Prop :=
  n = 0 ∨ (∀ s, s + n ≤ h.totalBlocks → ¬ FreeRun h.entries s n) ∧ available frames < n

/-- As many blocks as were appended are found. -/
theorem Appended.exists_startBlock {h h' : Heap} {n : Nat} (happ : h.Appended n h') (hn : 0 < n) :
    ∃ s, h'.getStartBlock n = some s ∧ FirstFit h'.entries n h'.totalBlocks (some s) := by
  have hfit := h'.getStartBlock_firstFit hn
  cases hsearch : h'.getStartBlock n with
  | none =>
      rw [hsearch] at hfit
      exact absurd (fun j hj => happ.new _ (by omega) (by omega))
        (hfit h.totalBlocks (by rw [happ.totalBlocks]))
  | some s =>
      rw [hsearch] at hfit
      exact ⟨s, rfl, hfit⟩

theorem mallocBlocks_eq {h : Heap} {n s : Nat} (hstart : h.startAddress = heapStartAddress)
    (hs : s ≤ 131072) (hfound : h.getStartBlock n = some s) :
    h.mallocBlocks n = (heapStartAddress + s * heapBlockSize,
      { h with entries := markRun h.entries s n }) := by
  have hwrap : (heapStartAddress + s * heapBlockSize) % 2 ^ 32 =
      heapStartAddress + s * heapBlockSize :=
    Nat.mod_eq_of_lt (by simp only [heapStartAddress, heapBlockSize]; omega)
  simp only [mallocBlocks, hfound, hstart, hwrap]

section Outcome

variable {ε : Type*} {svc : PageServices ε} {h h' : Heap} {env env' : ε} {size : Nat}

theorem expand_blocks_eq (svc : PageServices ε) (h : Heap) (env : ε) (size : Nat) :
    h.expand svc env (decimalTotalBlocks size * heapBlockSize % 2 ^ 32) =
      h.expandBlocks svc env (decimalTotalBlocks size) := by
  have hlt := decimalTotalBlocks_lt size
  have hargs : decimalTotalBlocks size * heapBlockSize % 2 ^ 32 / heapBlockSize =
      decimalTotalBlocks size := by
    simp only [heapBlockSize]
    omega
  rw [expand, hargs]

/-- A run that is in the table is marked. -/
theorem malloc_found (hstart : h.startAddress = heapStartAddress) {s : Nat} (hs : s ≤ 131072)
    (hfound : h.getStartBlock (decimalTotalBlocks size) = some s) :
    h.malloc svc env size = (heapStartAddress + s * heapBlockSize,
      { h with entries := markRun h.entries s (decimalTotalBlocks size) }, env) := by
  simp only [malloc, hfound, mallocBlocks_eq hstart hs hfound]

/-- If the frames run out, the null pointer is returned from the middle of the expansion. -/
theorem malloc_exhausted (hnone : h.getStartBlock (decimalTotalBlocks size) = none)
    (hexpand : h.expandBlocks svc env (decimalTotalBlocks size) = (false, h', env')) :
    h.malloc svc env size = (0, h', env') := by
  simp only [malloc, hnone, expand_blocks_eq, hexpand]

theorem malloc_unfound (hnone : h.getStartBlock (decimalTotalBlocks size) = none)
    (hexpand : h.expandBlocks svc env (decimalTotalBlocks size) = (true, h', env'))
    (hunfound : h'.getStartBlock (decimalTotalBlocks size) = none) :
    h.malloc svc env size = (0, h', env') := by
  simp only [malloc, hnone, expand_blocks_eq, hexpand, hunfound]

/-- After an expansion the run is searched for again. -/
theorem malloc_expanded (hnone : h.getStartBlock (decimalTotalBlocks size) = none)
    (hexpand : h.expandBlocks svc env (decimalTotalBlocks size) = (true, h', env'))
    (hstart : h'.startAddress = heapStartAddress) {s : Nat} (hs : s ≤ 131072)
    (hfound : h'.getStartBlock (decimalTotalBlocks size) = some s) :
    h.malloc svc env size = (heapStartAddress + s * heapBlockSize,
      { h' with entries := markRun h'.entries s (decimalTotalBlocks size) }, env') := by
  simp only [malloc, hnone, expand_blocks_eq, hexpand, hfound, mallocBlocks_eq hstart hs hfound]

end Outcome

/-- `heap_malloc` appends free blocks if it must, then marks the first fit of the
appended table; it returns the null pointer exactly when the request is refused. -/
theorem malloc_outcome {h : Heap} {frames : List Nat} (size : Nat)
    (hstart : h.startAddress = heapStartAddress)
    (hsize : h.heapSize = h.totalBlocks * heapBlockSize)
    (hbound : h.totalBlocks + grants frames ≤ 131072) :
    ∃ k h₁ frames', h.Appended k h₁ ∧ k + grants frames' = grants frames ∧
      ((0 < decimalTotalBlocks size ∧ ∃ s,
          FirstFit h₁.entries (decimalTotalBlocks size) h₁.totalBlocks (some s) ∧
          h.malloc oracle frames size = (heapStartAddress + s * heapBlockSize,
            { h₁ with entries := markRun h₁.entries s (decimalTotalBlocks size) }, frames')) ∨
        (h.Refused frames (decimalTotalBlocks size) ∧
          h.malloc oracle frames size = (0, h₁, frames'))) := by
  set n := decimalTotalBlocks size with hn
  rcases Nat.eq_zero_or_pos n with hzero | hpos
  · obtain ⟨k, h₁, frames', hexp, happ, hsupply, _, hfull⟩ :=
      expandBlocks_appended hsize hbound 0
    refine ⟨k, h₁, frames', happ, hsupply, Or.inr ⟨Or.inl hzero, ?_⟩⟩
    simp [malloc, ← hn, hzero, getStartBlock_zero, expand, hexp]
  have hfit := h.getStartBlock_firstFit hpos
  -- The heap grows only if the search finds nothing.
  cases hsearch : h.getStartBlock n with
  | some s =>
      rw [hsearch] at hfit
      refine ⟨0, h, frames, Appended.refl hsize, Nat.zero_add _, Or.inl ⟨hpos, s, hfit, ?_⟩⟩
      have hs : s ≤ 131072 := by
        have := hfit.1
        omega
      exact malloc_found hstart hs hsearch
  | none =>
      rw [hsearch] at hfit
      obtain ⟨k, h₁, frames', hexp, happ, hsupply, _, hfull⟩ :=
        expandBlocks_appended hsize hbound n
      refine ⟨k, h₁, frames', happ, hsupply, ?_⟩
      by_cases havail : n ≤ available frames
      · left
        obtain rfl := hfull havail
        obtain ⟨s, hsearch₁, hfit₁⟩ := happ.exists_startBlock hpos
        refine ⟨hpos, s, hfit₁, ?_⟩
        have hs : s ≤ 131072 := by
          have := hfit₁.1
          have := happ.totalBlocks
          omega
        rw [decide_eq_true havail] at hexp
        exact malloc_expanded hsearch hexp (happ.startAddress.trans hstart) hs hsearch₁
      · right
        refine ⟨Or.inr ⟨hfit, by omega⟩, ?_⟩
        rw [decide_eq_false havail] at hexp
        exact malloc_exhausted hsearch hexp

end Heap

end Senob.Memory
