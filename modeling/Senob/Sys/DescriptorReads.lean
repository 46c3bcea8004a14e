import Senob.Foundation.Writes
import Senob.Sys.DescriptorTables

/-!
# What the CPU reads from the descriptor tables

The pieces of a descriptor give back the address that was stored. A user program can enter
the kernel through vector 128 only, and every CPU finds its own kernel stack.
-/

namespace Senob.Sys

open Senob.Foundation

/-- A mask does nothing before a cast to its own width. -/
theorem setWidth_and_mask (v : Word) {n : Nat} (h : n ≤ 32) :
    (v &&& BitVec.ofNat 32 (2 ^ n - 1)).setWidth n = v.setWidth n := by
  apply BitVec.eq_of_toNat_eq
  have hmask : 2 ^ n - 1 < 2 ^ 32 := by
    have := Nat.pow_le_pow_right (show 0 < 2 by decide) h
    omega
  rw [BitVec.toNat_setWidth, BitVec.toNat_setWidth, BitVec.toNat_and, BitVec.toNat_ofNat,
    Nat.mod_eq_of_lt hmask, Nat.and_two_pow_sub_one_eq_mod, Nat.mod_mod]

theorem halves_of_word (v : Word) :
    (v >>> 16 &&& 0xFFFF).setWidth 16 ++ (v &&& 0xFFFF).setWidth 16 = v := by
  rw [show (0xFFFF : Word) = BitVec.ofNat 32 (2 ^ 16 - 1) from rfl,
    setWidth_and_mask v (by decide), setWidth_and_mask _ (by decide)]
  apply BitVec.eq_of_getLsbD_eq
  intro i hi
  simp only [BitVec.getLsbD_append, BitVec.getLsbD_setWidth, BitVec.getLsbD_ushiftRight]
  grind

section Interrupts

/-- The descriptor that `idt_set_descriptor` stores. -/
def gate (isr : Word) (dpl : BitVec 8) : IdtEntry where
  isrLow := (isr &&& 0xFFFF).setWidth 16
  kernelCs := 0x08
  reserved := 0x00
  type := 0x8E ||| dpl <<< 5
  isrHigh := (isr >>> 16 &&& 0xFFFF).setWidth 16

theorem offset_gate (isr : Word) (dpl : BitVec 8) : (gate isr dpl).offset = isr :=
  halves_of_word isr

variable (address : IdtHandler → Word)

theorem idtInit_eq : idtInit address = applyWrites (fun _ => ⟨0, 0, 0, 0, 0⟩)
    (idtEntries.map fun e => (e.1, gate (address e.2.1) e.2.2)) := by
  rw [idtInit, applyWrites, List.foldl_map]
  rfl

theorem nodup_idtEntries : (idtEntries.map Prod.fst).Nodup := by decide

theorem idtInit_of_mem {e : BitVec 8 × IdtHandler × BitVec 8} (h : e ∈ idtEntries) :
    idtInit address e.1 = gate (address e.2.1) e.2.2 := by
  rw [idtInit_eq]
  apply applyWrites_of_mem
  · exact List.mem_map.mpr ⟨e, h, rfl⟩
  · intro write hwrite hsame
    obtain ⟨e', he', rfl⟩ := List.mem_map.mp hwrite
    obtain rfl := List.inj_on_of_nodup_map nodup_idtEntries he' h hsame
    rfl

theorem idtInit_of_not_mem {n : BitVec 8} (h : n ∉ idtEntries.map Prod.fst) :
    idtInit address n = ⟨0, 0, 0, 0, 0⟩ := by
  rw [idtInit_eq]
  apply applyWrites_of_forall_ne
  rintro write hwrite rfl
  obtain ⟨e, he, rfl⟩ := List.mem_map.mp hwrite
  exact h (List.mem_map.mpr ⟨e, he, rfl⟩)

theorem dpl_of_mem_idtEntries : ∀ e ∈ idtEntries, e.1 ≠ 128 → e.2.2 = 1 := by
  intro e he hne
  rcases List.mem_append.mp he with hexception | hother
  · obtain ⟨n, -, rfl⟩ := List.mem_map.mp hexception
    rfl
  · simp only [List.mem_cons, List.not_mem_nil, or_false] at hother
    rcases hother with rfl | rfl | rfl | rfl | rfl | rfl
    all_goals first | rfl | exact absurd rfl hne

theorem isr_mem_idtEntries {n : Nat} (h : n < 32) :
    (BitVec.ofNat 8 n, .stub (.isr n), 1) ∈ idtEntries := by
  simp [idtEntries, h]

/-- A user program enters the kernel through vector 128 only. Every other `int` instruction
ends in the stub of the general protection fault, with an error code that names the vector. -/
theorem softwareInterrupt_idtInit (s : Processor) (huser : s.ring = 3) (n : BitVec 8) :
    s.softwareInterrupt (idtInit address) n =
        (if n = 128 then (128, none) else (13, some (n.setWidth 32 * 8 + 2))) ∧
      (idtInit address (s.softwareInterrupt (idtInit address) n).1).offset =
        address (.stub (.isr (if n = 128 then 128 else 13))) := by
  by_cases hn : n = 128
  · subst hn
    have hgate := idtInit_of_mem address (e := (128, .stub (.isr 128), 3)) (by simp [idtEntries])
    have hopen : (idtInit address 128).IsGate ∧
        s.ring ≤ (idtInit address 128).dpl.setWidth 32 := by
      rw [hgate, huser]
      simp [gate, IdtEntry.IsGate, IdtEntry.dpl]
    have hvector : s.softwareInterrupt (idtInit address) 128 = (128, none) := if_pos hopen
    rw [hvector]
    exact ⟨rfl, by rw [hgate, offset_gate]; rfl⟩
  · have hclosed : ¬ ((idtInit address n).IsGate ∧
        s.ring ≤ (idtInit address n).dpl.setWidth 32) := by
      rw [huser]
      rintro ⟨hpresent, hring⟩
      by_cases hmem : n ∈ idtEntries.map Prod.fst
      · obtain ⟨e, he, rfl⟩ := List.mem_map.mp hmem
        rw [idtInit_of_mem address he, dpl_of_mem_idtEntries e he hn] at hring
        exact absurd hring (by simp [gate, IdtEntry.dpl])
      · rw [idtInit_of_not_mem address hmem] at hpresent
        exact absurd hpresent (by decide)
    have hvector : s.softwareInterrupt (idtInit address) n = (13, some (n.setWidth 32 * 8 + 2)) :=
      if_neg hclosed
    rw [hvector, if_neg hn, if_neg hn]
    have hfault := idtInit_of_mem address (isr_mem_idtEntries (n := 13) (by decide))
    exact ⟨rfl, by rw [show (13 : BitVec 8) = BitVec.ofNat 8 13 from rfl, hfault, offset_gate]⟩

end Interrupts

section Segments

/-- The descriptor that `setGdtEntry` stores. -/
def GdtEntry.ofFields (base limit : Word) (access : BitVec 8) (flags : Word) : GdtEntry where
  baseLow := (base &&& 0xFFFF).setWidth 16
  baseMiddle := (base >>> 16 &&& 0xFF).setWidth 8
  baseHigh := (base >>> 24 &&& 0xFF).setWidth 8
  limit := (limit &&& 0xFFFF).setWidth 16
  flags := (limit >>> 16 &&& 0x0F).setWidth 8 ||| (flags &&& 0xF0).setWidth 8
  access := access

theorem GdtEntry.base_ofFields (base limit : Word) (access : BitVec 8) (flags : Word) :
    (GdtEntry.ofFields base limit access flags).base = base := by
  have hbyte (v : Word) : (v &&& 0xFF).setWidth 8 = v.setWidth 8 := setWidth_and_mask v (by decide)
  have hhalf : (base &&& 0xFFFF).setWidth 16 = base.setWidth 16 := setWidth_and_mask _ (by decide)
  simp only [GdtEntry.base, GdtEntry.ofFields, hbyte, hhalf]
  apply BitVec.eq_of_getLsbD_eq
  intro i hi
  simp only [BitVec.getLsbD_append, BitVec.getLsbD_setWidth, BitVec.getLsbD_ushiftRight]
  grind

variable {m m' : ByteMemory} {tss a b : Word}

theorem taskState_congr
    (h : ∀ k < sizeofTss, m (a + BitVec.ofNat 32 k) = m' (a + BitVec.ofNat 32 k)) :
    taskState m a = taskState m' a := by
  have hload (d : Nat) (hd : d + 4 ≤ sizeofTss) :
      m.load (a + BitVec.ofNat 32 d) = m'.load (a + BitVec.ofNat 32 d) := by
    apply ByteMemory.load_congr
    intro i hi
    rw [add_assoc, ← BitVec.ofNat_add]
    exact h _ (by omega)
  have hss0 := hload 8 (by decide)
  have hesp0 := hload 4 (by decide)
  simp only [taskState] at *
  exact congrArg₂ _ (congrArg _ hss0) hesp0

theorem initTss_of_le (h : sizeofTss ≤ (b - a).toNat) : initTss m a b = m b := by
  have hsize : 104 ≤ (b - a).toNat := h
  simp only [initTss, ByteMemory.store]
  rw [ByteMemory.storeBytes_of_le (by bv_omega), ByteMemory.storeBytes_of_le (by bv_omega),
    ByteMemory.storeBytes_of_le (by bv_omega), ByteMemory.storeBytes_of_le h]

theorem updateTssEsp0_of_le {esp0 : Word} {apNr : Nat}
    (h : sizeofTss ≤ (b - tssAddress tss apNr).toNat) :
    updateTssEsp0 m tss esp0 apNr b = m b := by
  simp only [sizeofTss] at h
  exact ByteMemory.storeBytes_of_le (by bv_omega)

/-- The structures of different CPUs do not overlap. -/
theorem task_apart {i j k : Nat} (hi : i < maxCpus) (hj : j < maxCpus) (hne : i ≠ j)
    (hk : k < sizeofTss) :
    sizeofTss ≤ (tssAddress tss i + BitVec.ofNat 32 k - tssAddress tss j).toNat := by
  have hcancel : tssAddress tss i + BitVec.ofNat 32 k - tssAddress tss j =
      BitVec.ofNat 32 (sizeofTss * i) + BitVec.ofNat 32 k - BitVec.ofNat 32 (sizeofTss * j) := by
    rw [tssAddress, tssAddress, add_assoc, add_sub_add_left_eq_sub]
  rw [hcancel]
  simp only [maxCpus, sizeofTss] at hi hj hk ⊢
  have htoNat : (BitVec.ofNat 32 (104 * i) + BitVec.ofNat 32 k - BitVec.ofNat 32 (104 * j)).toNat =
      (104 * i + k + (2 ^ 32 - 104 * j)) % 2 ^ 32 := by
    rw [BitVec.toNat_sub, BitVec.toNat_add]
    simp only [BitVec.toNat_ofNat]
    omega
  rw [htoNat]
  rcases Nat.lt_or_gt_of_ne hne with hbefore | hafter
  · rw [Nat.mod_eq_of_lt (by omega)]
    omega
  · rw [show 104 * i + k + (2 ^ 32 - 104 * j) = 104 * i + k - 104 * j + 2 ^ 32 by omega,
      Nat.add_mod_right, Nat.mod_eq_of_lt (by omega)]
    omega

theorem load_initTss_ss0 : (initTss m a).load (a + 8) = 0x10 := by
  have hbyte : ∀ i < 4, initTss m a (a + 8 + BitVec.ofNat 32 i) = byteOf 0x10 i := by
    intro i hi
    simp only [initTss, ByteMemory.store]
    rw [ByteMemory.storeBytes_of_le (by bv_omega), ByteMemory.storeBytes_of_le (by bv_omega)]
    have hoffset : (a + 8 + BitVec.ofNat 32 i - (a + 8)).toNat = i := by bv_omega
    by_cases hlow : i < 2
    · rw [ByteMemory.storeBytes_of_lt (by omega), hoffset]
    · rw [ByteMemory.storeBytes_of_le (by omega),
        ByteMemory.storeBytes_of_lt (by simp only [sizeofTss]; bv_omega)]
      obtain rfl | rfl : i = 2 ∨ i = 3 := by omega
      all_goals decide
  calc (initTss m a).load (a + 8) = joinBytes (byteOf 0x10) := joinBytes_congr hbyte
    _ = 0x10 := joinBytes_byteOf _

theorem taskState_initTss : taskState (initTss m a) a = ⟨0x10, 0⟩ := by
  have hesp0 : (initTss m a).load (a + 4) = 0 := by
    simp only [initTss]
    rw [ByteMemory.load_storeBytes_of_apart (by bv_omega) (by bv_omega), ByteMemory.load_store]
  rw [taskState, hesp0, load_initTss_ss0]
  rfl

theorem taskState_updateTssEsp0_self {esp0 : Word} {i : Nat} :
    taskState (updateTssEsp0 m tss esp0 i) (tssAddress tss i) =
      { taskState m (tssAddress tss i) with esp0 := esp0 } := by
  simp only [taskState, updateTssEsp0, ByteMemory.load_store]
  rw [ByteMemory.load_store_of_apart (by bv_omega) (by bv_omega)]

theorem taskState_updateTssEsp0_of_ne {esp0 : Word} {i j : Nat} (hi : i < maxCpus)
    (hj : j < maxCpus) (hne : i ≠ j) :
    taskState (updateTssEsp0 m tss esp0 j) (tssAddress tss i) = taskState m (tssAddress tss i) :=
  taskState_congr fun _ hk => updateTssEsp0_of_le (task_apart hi hj hne hk)

/-- The loop of `init_gdt` over the task states. -/
def initTasks (gdt : Gdt) (m : ByteMemory) (tss : Word) (n : Nat) : Gdt × ByteMemory :=
  (List.range n).foldl
    (fun s i => (setGdtEntry s.1 (5 + i) (tssAddress tss i) (BitVec.ofNat 32 (sizeofTss - 1)) 0xE9
      0x00, initTss s.2 (tssAddress tss i))) (gdt, m)

theorem initTasks_succ (gdt : Gdt) (m : ByteMemory) (tss : Word) (n : Nat) :
    initTasks gdt m tss (n + 1) =
      (Function.update (initTasks gdt m tss n).1 (5 + n)
        (GdtEntry.ofFields (tssAddress tss n) (BitVec.ofNat 32 (sizeofTss - 1)) 0xE9 0x00),
        initTss (initTasks gdt m tss n).2 (tssAddress tss n)) := by
  rw [initTasks, List.range_succ, List.foldl_append]
  rfl

theorem initTasks_spec (gdt : Gdt) (m : ByteMemory) (tss : Word) {n : Nat} (hn : n ≤ maxCpus) :
    (∀ j < 5, (initTasks gdt m tss n).1 j = gdt j) ∧
      ∀ i < n, (initTasks gdt m tss n).1 (5 + i) =
          GdtEntry.ofFields (tssAddress tss i) (BitVec.ofNat 32 (sizeofTss - 1)) 0xE9 0x00 ∧
        taskState (initTasks gdt m tss n).2 (tssAddress tss i) = ⟨0x10, 0⟩ := by
  induction n with
  | zero => exact ⟨fun _ _ => rfl, by simp⟩
  | succ n ih =>
      obtain ⟨hlow, hhigh⟩ := ih (by omega)
      rw [initTasks_succ]
      refine ⟨?_, ?_⟩
      · intro j hj
        dsimp only
        rw [Function.update_of_ne (by omega), hlow j hj]
      · intro i hi
        dsimp only
        rcases Nat.lt_succ_iff_lt_or_eq.mp hi with hold | rfl
        · rw [Function.update_of_ne (by omega)]
          refine ⟨(hhigh i hold).1, ?_⟩
          rw [← (hhigh i hold).2]
          exact taskState_congr fun k hk =>
            initTss_of_le (task_apart (by omega) (by omega) (by omega) hk)
        · exact ⟨Function.update_self _ _ _, taskState_initTss⟩

/-- The value that was last stored for a CPU. -/
def lastEsp0 (updates : List (Nat × Word)) (cpu : Nat) : Word :=
  ((updates.filter fun u => u.1 = cpu).getLast?.map Prod.snd).getD 0

/-- The memory after calls of `updateTssEsp0`. -/
def updateAll (m : ByteMemory) (tss : Word) (updates : List (Nat × Word)) : ByteMemory :=
  updates.foldl (fun m u => updateTssEsp0 m tss u.2 u.1) m

theorem taskState_updateAll {i : Nat} (hi : i < maxCpus)
    (hinit : taskState m (tssAddress tss i) = ⟨0x10, 0⟩) {updates : List (Nat × Word)}
    (hcpus : ∀ u ∈ updates, u.1 < maxCpus) :
    taskState (updateAll m tss updates) (tssAddress tss i) = ⟨0x10, lastEsp0 updates i⟩ := by
  induction updates using List.reverseRecOn with
  | nil => exact hinit
  | append_singleton updates u ih =>
      have hrest := ih fun v hv => hcpus v (List.mem_append_left _ hv)
      have hu := hcpus u (by simp)
      rw [updateAll, List.foldl_append, List.foldl_cons, List.foldl_nil, ← updateAll]
      by_cases hsame : i = u.1
      · subst hsame
        rw [taskState_updateTssEsp0_self, hrest]
        simp [lastEsp0, List.filter_append]
      · rw [taskState_updateTssEsp0_of_ne hi hu hsame, hrest]
        simp [lastEsp0, List.filter_append, Ne.symm hsame]

/-- The entries before the loop of `init_gdt`. -/
def flatGdt (gdt : Gdt) : Gdt :=
  let gdt := setGdtEntry gdt 0 0 0 0 0
  let gdt := setGdtEntry gdt 1 0 0xFFFFFFFF 0x9A 0xCF
  let gdt := setGdtEntry gdt 2 0 0xFFFFFFFF 0x92 0xCF
  let gdt := setGdtEntry gdt 3 0 0xFFFFFFFF 0xFA 0xCF
  setGdtEntry gdt 4 0 0xFFFFFFFF 0xF2 0xCF

theorem initGdt_eq (gdt : Gdt) (m : ByteMemory) (tss : Word) :
    initGdt gdt m tss = initTasks (flatGdt gdt) m tss maxCpus := rfl

/-- A segment of the whole address space, for the privilege level in the selector. -/
def Flat (gdt : Gdt) (selector : Word) : Prop :=
  let e := gdt (selector >>> 3).toNat
  e.IsSegment ∧ e.base = 0 ∧ e.lastOffset = 0xFFFFFFFF ∧
    e.dpl.setWidth 32 = privilege selector

theorem flat_of_eq_ofFields {gdt : Gdt} {selector : Word} {access : BitVec 8}
    (h : gdt (selector >>> 3).toNat = GdtEntry.ofFields 0 0xFFFFFFFF access 0xCF)
    (hpresent : access &&& 0x90 = 0x90)
    (hdpl : (access >>> 5 &&& 3).setWidth 32 = privilege selector) : Flat gdt selector := by
  rw [Flat, h]
  refine ⟨hpresent, GdtEntry.base_ofFields _ _ _ _, ?_, hdpl⟩
  simp [GdtEntry.lastOffset, GdtEntry.ofFields]

theorem flat_initGdt (gdt : Gdt) (m : ByteMemory) (tss : Word) :
    ∀ selector ∈ [0x08, 0x10, 0x1B, 0x23], Flat (initGdt gdt m tss).1 selector := by
  have hlow := (initTasks_spec (flatGdt gdt) m tss le_rfl).1
  intro selector hselector
  simp only [List.mem_cons, List.not_mem_nil, or_false] at hselector
  rcases hselector with rfl | rfl | rfl | rfl
  · exact flat_of_eq_ofFields (hlow 1 (by decide)) (by decide) (by decide)
  · exact flat_of_eq_ofFields (hlow 2 (by decide)) (by decide) (by decide)
  · exact flat_of_eq_ofFields (hlow 3 (by decide)) (by decide) (by decide)
  · exact flat_of_eq_ofFields (hlow 4 (by decide)) (by decide) (by decide)

theorem ltr_initGdt (gdt : Gdt) (m : ByteMemory) (tss : Word) {i : Nat} (hi : i < maxCpus)
    {selector : Word} (hselector : (selector >>> 3).toNat = 5 + i) :
    ltr (initGdt gdt m tss).1 selector = some (tssAddress tss i) := by
  have hentry := ((initTasks_spec (flatGdt gdt) m tss le_rfl).2 i hi).1
  have hlimit : (selector ||| 7).toNat ≤ gdtLimit := by
    have hor : (selector ||| 7) >>> 3 = selector >>> 3 := by
      rw [BitVec.ushiftRight_or_distrib]
      simp
    have hshift : (selector ||| 7).toNat / 8 = 5 + i := by
      rw [← hselector, ← hor, BitVec.toNat_ushiftRight, Nat.shiftRight_eq_div_pow]
    simp only [gdtLimit, maxCpus] at hi ⊢
    omega
  have htask : (GdtEntry.ofFields (tssAddress tss i) (BitVec.ofNat 32 (sizeofTss - 1)) 0xE9
      0x00).IsTaskState := by
    simp [GdtEntry.ofFields, GdtEntry.IsTaskState]
  rw [ltr, initGdt_eq, hselector, hentry, if_pos ⟨hlimit, htask⟩, GdtEntry.base_ofFields]

/-- Every CPU finds its own task state, and enters ring 0 with the flat data segment of the
kernel and on the stack that was last set for it, whatever was set for the others. -/
theorem initGdt_ownStack (gdt : Gdt) (m : ByteMemory) (tss : Word) (updates : List (Nat × Word))
    (hcpus : ∀ u ∈ updates, u.1 < maxCpus) (i : Nat) (hi : i < maxCpus) :
    ltr (initGdt gdt m tss).1 (apTssSelector (BitVec.ofNat 32 i)) = some (tssAddress tss i) ∧
      ltr (initGdt gdt m tss).1 tssFlushSelector = some (tssAddress tss 0) ∧
      taskState (updateAll (initGdt gdt m tss).2 tss updates) (tssAddress tss i) =
        ⟨0x10, lastEsp0 updates i⟩ ∧
      ∀ selector ∈ [0x08, 0x10, 0x1B, 0x23], Flat (initGdt gdt m tss).1 selector := by
  have hselector : (apTssSelector (BitVec.ofNat 32 i) >>> 3).toNat = 5 + i := by
    rw [apTssSelector, BitVec.toNat_ushiftRight, BitVec.toNat_shiftLeft, BitVec.toNat_add,
      BitVec.toNat_ofNat, Nat.shiftLeft_eq, Nat.shiftRight_eq_div_pow]
    simp only [maxCpus] at hi
    have hfive : (5 : Word).toNat = 5 := rfl
    omega
  refine ⟨ltr_initGdt gdt m tss hi hselector, ltr_initGdt gdt m tss (by decide) (by decide), ?_,
    flat_initGdt gdt m tss⟩
  exact taskState_updateAll hi ((initTasks_spec (flatGdt gdt) m tss le_rfl).2 i hi).2 hcpus

theorem initGdt_ownStack_example :
    let gdt := initGdt (fun _ => ⟨0, 0, 0, 0, 0, 0⟩) (fun _ => 0xFF) 0xC0110000
    let updates := [(0, 0xC0400000), (3, 0xC0500000), (0, 0xC0600000)]
    ltr gdt.1 (apTssSelector 3) = some (tssAddress 0xC0110000 3) ∧
      ltr gdt.1 tssFlushSelector = some (tssAddress 0xC0110000 0) ∧
      taskState (updateAll gdt.2 0xC0110000 updates) (tssAddress 0xC0110000 3) =
        ⟨0x10, 0xC0500000⟩ ∧
      ∀ selector ∈ [0x08, 0x10, 0x1B, 0x23], Flat gdt.1 selector :=
  initGdt_ownStack _ _ _ [(0, 0xC0400000), (3, 0xC0500000), (0, 0xC0600000)] (by decide) 3
    (by decide)

end Segments

end Senob.Sys
