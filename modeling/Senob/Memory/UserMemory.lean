import Mathlib.Data.Finset.Card
import Senob.Memory.PagingFrames
import Senob.Memory.PagingIsolation

/-!
# The bytes of address spaces

What the kernel stores through the page tables, byte by byte, along with the calls of
`paging.c`. A store into a page of a process changes that page and nothing else: no table, no
directory and no other page.
-/

namespace Senob.Memory

open Senob.Foundation

/-! ## Bytes -/

/-- The word in which the byte lies, among the words of its page. -/
def wordIndex (virtAddr : Word) : Index := (virtAddr >>> 2 &&& 0x3FF).setWidth 10

/-- The byte of the word that lies at the address. -/
def byteAt (x virtAddr : Word) : BitVec 8 := (x >>> (8 * (virtAddr.toNat % 4))).setWidth 8

def withByteAt (x virtAddr : Word) (b : BitVec 8) : Word :=
  x &&& ~~~(0xFF#32 <<< (8 * (virtAddr.toNat % 4))) |||
    b.setWidth 32 <<< (8 * (virtAddr.toNat % 4))

theorem getLsbD_byteAt (x virtAddr : Word) {i : Nat} (hi : i < 8) :
    (byteAt x virtAddr).getLsbD i = x.getLsbD (8 * (virtAddr.toNat % 4) + i) := by
  simp [byteAt, hi]

theorem getLsbD_withByteAt (x virtAddr : Word) (b : BitVec 8) {n i : Nat} (hn : n < 4)
    (hi : i < 8) :
    (withByteAt x virtAddr b).getLsbD (8 * n + i) =
      if n = virtAddr.toNat % 4 then b.getLsbD i else x.getLsbD (8 * n + i) := by
  have hlane : virtAddr.toNat % 4 < 4 := Nat.mod_lt _ (by decide)
  have hmask : ∀ j, (0xFF#32).getLsbD j = decide (j < 8) := by
    intro j
    rw [show (0xFF#32) = (BitVec.allOnes 8).setWidth 32 from rfl, BitVec.getLsbD_setWidth,
      BitVec.getLsbD_allOnes]
    simp only [Bool.and_eq_right_iff_imp, decide_eq_true_eq]
    omega
  have hword : 8 * n + i < 32 := by omega
  simp only [withByteAt, BitVec.getLsbD_or, BitVec.getLsbD_and, BitVec.getLsbD_not,
    BitVec.getLsbD_shiftLeft, BitVec.getLsbD_setWidth, hmask, hword, decide_true, Bool.true_and]
  split
  next heq =>
    rw [← heq, show 8 * n + i - 8 * n = i by omega]
    simp [show i < 32 by omega, hi, Nat.not_lt.mpr (Nat.le_add_right (8 * n) i)]
  next hne =>
    by_cases hbelow : n < virtAddr.toNat % 4
    · simp [show 8 * n + i < 8 * (virtAddr.toNat % 4) by omega]
    · have hlow : ¬ 8 * n + i < 8 * (virtAddr.toNat % 4) := by omega
      have hhigh : ¬ 8 * n + i - 8 * (virtAddr.toNat % 4) < 8 := by omega
      simp [hlow, hhigh, BitVec.getLsbD_of_ge b _ (Nat.le_of_not_lt hhigh)]

theorem byteAt_withByteAt (x v d : Word) (b : BitVec 8) :
    byteAt (withByteAt x d b) v = if v.toNat % 4 = d.toNat % 4 then b else byteAt x v := by
  apply BitVec.eq_of_getLsbD_eq
  intro i hi
  rw [getLsbD_byteAt _ _ hi, getLsbD_withByteAt _ _ _ (Nat.mod_lt _ (by decide)) hi]
  split
  · rfl
  · rw [getLsbD_byteAt _ _ hi]

theorem toNat_wordIndex (virtAddr : Word) :
    (wordIndex virtAddr).toNat = virtAddr.toNat / 4 % 1024 := by
  have hmask := Nat.and_two_pow_sub_one_eq_mod (virtAddr.toNat / 2 ^ 2) 10
  simp only [wordIndex, BitVec.toNat_setWidth, BitVec.toNat_and, BitVec.toNat_ushiftRight,
    Nat.shiftRight_eq_div_pow]
  rw [show (0x3FF : Word).toNat = 2 ^ 10 - 1 from rfl, hmask]
  omega

/-- Two addresses of one page with the same word and the same byte of it are one address. -/
theorem eq_of_byte {v d : Word} (hpage : v >>> 12 = d >>> 12) (hword : wordIndex v = wordIndex d)
    (hbyte : v.toNat % 4 = d.toNat % 4) : v = d := by
  rw [← BitVec.toNat_inj] at hpage hword ⊢
  rw [BitVec.toNat_ushiftRight, BitVec.toNat_ushiftRight, Nat.shiftRight_eq_div_pow,
    Nat.shiftRight_eq_div_pow] at hpage
  rw [toNat_wordIndex, toNat_wordIndex] at hword
  omega

namespace PhysicalMemory

/-- The byte of frame `f` at the offset of the address. -/
def byte (m : PhysicalMemory) (f : Frame) (virtAddr : Word) : BitVec 8 :=
  byteAt (m f (wordIndex virtAddr)) virtAddr

def setByte (m : PhysicalMemory) (f : Frame) (virtAddr : Word) (b : BitVec 8) : PhysicalMemory :=
  m.write f (wordIndex virtAddr) (withByteAt (m f (wordIndex virtAddr)) virtAddr b)

variable (m : PhysicalMemory) {f f' : Frame} {v d : Word} (b : BitVec 8)

theorem setByte_of_ne (h : f' ≠ f) : m.setByte f d b f' = m f' := by
  funext i
  exact m.write_of_ne (Or.inl h)

theorem byte_setByte_self : (m.setByte f d b).byte f d = b := by
  rw [byte, setByte, write_self, byteAt_withByteAt, if_pos rfl]

theorem byte_setByte_of_ne_frame (h : f' ≠ f) : (m.setByte f d b).byte f' v = m.byte f' v := by
  rw [byte, setByte_of_ne m b h, byte]

theorem byte_setByte_of_ne (hpage : v >>> 12 = d >>> 12) (h : v ≠ d) :
    (m.setByte f d b).byte f v = m.byte f v := by
  by_cases hword : wordIndex v = wordIndex d
  · have hbyte : v.toNat % 4 ≠ d.toNat % 4 := fun hbyte => h (eq_of_byte hpage hword hbyte)
    rw [byte, setByte, hword, write_self, byteAt_withByteAt, if_neg hbyte, byte, hword]
  · rw [byte, setByte, write_of_ne _ (Or.inr hword), byte]

end PhysicalMemory

/-! ## What the runs keep -/

namespace Pmm

variable {p p' : Pmm}

/-- Only frames of the window are marked. -/
def Windowed (p : Pmm) : Prop := ∀ f, p.used f = true → 8 * p.startByte ≤ f

theorem Windowed.alloc (h : p.Windowed) {addr : Nat}
    (halloc : p.allocPageframe = some (addr, p')) : p'.Windowed := by
  rcases allocPageframe_cases halloc with ⟨-, rfl⟩ | ⟨f, hlow, -, -, -, rfl⟩
  · exact h
  · intro g hg
    rw [used_take] at hg
    split at hg
    next heq => exact heq ▸ hlow
    next hne => exact h g hg

theorem Windowed.released (h : p.Windowed) (hreleased : Paging.Released p p') : p'.Windowed := by
  intro f hf
  rw [hreleased.startByte]
  exact h f (hreleased.used f hf)

instance (p : Pmm) : DecidablePred p.Clear := fun _ => inferInstanceAs (Decidable (_ ∧ _ ∧ _ ∧ _))

/-- How many frames the allocator may still hand out. -/
def availableFrames (p : Pmm) : Nat := ((Finset.range (8 * bitmapLength)).filter p.Clear).card

theorem availableFrames_le (p : Pmm) : p.availableFrames ≤ 8 * bitmapLength :=
  (Finset.card_filter_le _ _).trans_eq (Finset.card_range _)

theorem Clear.of_take {f g : Nat} (h : (p.take f).Clear g) : g ≠ f ∧ p.Clear g := by
  obtain ⟨hlow, hhigh, hlength, hclear⟩ := h
  rw [used_take] at hclear
  split at hclear
  next => exact nomatch hclear
  next hne => exact ⟨hne, hlow, hhigh, hlength, hclear⟩

theorem availableFrames_take_le (p : Pmm) (f : Nat) :
    (p.take f).availableFrames ≤ p.availableFrames :=
  Finset.card_le_card (Finset.monotone_filter_right _ fun _ _ hg => hg.of_take.2)

theorem Clear.availableFrames_take {f : Nat} (h : p.Clear f) :
    (p.take f).availableFrames < p.availableFrames := by
  refine Finset.card_lt_card ⟨Finset.monotone_filter_right _ fun _ _ hg => hg.of_take.2, ?_⟩
  intro hsub
  have hf := hsub (Finset.mem_filter.mpr ⟨Finset.mem_range.mpr h.2.2.1, h⟩)
  exact (Finset.mem_filter.mp hf).2.of_take.1 rfl

theorem availableFrames_alloc {addr : Nat} (halloc : p.allocPageframe = some (addr, p')) :
    p'.availableFrames ≤ p.availableFrames := by
  rcases allocPageframe_cases halloc with ⟨-, rfl⟩ | ⟨f, -, -, -, -, rfl⟩
  · exact le_rfl
  · exact p.availableFrames_take_le _

theorem Windowed.init (memLow memHigh : Nat) : (Pmm.init memLow memHigh).Windowed := by
  intro f hf
  have hclear : (Pmm.init memLow memHigh).used f = false := BitVec.getLsbD_zero
  exact absurd (hclear.symm.trans hf) Bool.false_ne_true

end Pmm

namespace PagingCall

variable {L : Layout} {s t : Paging}

theorem windowed_step (h : s.pmm.Windowed) {call : PagingCall} (hcall : call.step L s = some t) :
    t.pmm.Windowed := by
  refine pmm_step (P := Pmm.Windowed) (fun p addr p' hp halloc => hp.alloc halloc) ?_ h hcall
  intro p addr p' hp hfree
  obtain ⟨-, rfl⟩ := Pmm.freePageframe_cases hfree
  exact hp.released (.freed p _)

/-- In every state that a run reaches without a failed allocation. -/
structure Orderly (L : Layout) (s : Paging) : Prop where
  translating : Translating L s
  exclusive : s.Exclusive L
  windowed : s.pmm.Windowed

theorem Orderly.core (h : Orderly L s) : s.Core L := h.translating.coherent.core

theorem Orderly.step (h : Orderly L s) {call : PagingCall} (hsupplied : call.Supplied L s)
    (hcall : call.step L s = some t) : Orderly L t := by
  obtain ⟨henabled, hallocates, hstocked⟩ := hsupplied
  obtain ⟨hallots, hplain⟩ := hstocked.allots h.core hallocates
  exact ⟨h.translating.step henabled hallots hplain hcall,
    exclusive_step h.exclusive h.translating.tables h.core henabled hallocates hstocked hcall,
    windowed_step h.windowed hcall⟩

theorem orderly_initDirectories {physicalAllocstart : Nat} (hbehind : Behind L physicalAllocstart)
    (m : PhysicalMemory) (memHigh : Nat) :
    Orderly L (Paging.initDirectories L m memHigh physicalAllocstart) :=
  ⟨translating_initDirectories hbehind m memHigh, exclusive_initDirectories m memHigh _,
    .init physicalAllocstart memHigh⟩

/-! ## Pages -/

/-- A frame that is marked is no directory. -/
theorem Orderly.ne_frame (h : Orderly L s) {f : Frame} (hf : s.pmm.used f.toNat = true)
    (D : Dir) : f ≠ L.frame D := by
  rintro rfl
  have hwindow := h.windowed _ hf
  have hbelow := h.core.below D
  omega

/-- A frame of a page is neither a directory nor a table. -/
theorem Orderly.page_apart (h : Orderly L s) {slot : (Dir × Index) × Index} {f : Frame}
    (hf : s.pages L slot = some f) :
    (∀ D, f ≠ L.frame D) ∧ ∀ slot' F, s.tables L slot' = some F → F ≠ f := by
  have hpage : s.frames L (.inr slot) = some f := hf
  refine ⟨h.ne_frame (h.exclusive.used hpage), ?_⟩
  rintro slot' F htable rfl
  have htable' : s.frames L (.inl slot') = some F := htable
  exact nomatch h.exclusive.exclusive htable' hpage

/-- The contents of a frame that is neither a directory nor a table may change. -/
theorem Orderly.of_apart (h : Orderly L s) {f : Frame} (hdir : ∀ D, f ≠ L.frame D)
    (htable : ∀ slot F, s.tables L slot = some F → F ≠ f) {m : PhysicalMemory}
    (hm : ∀ f', f' ≠ f → m f' = s.memory f') : Orderly L { s with memory := m } := by
  have hdirs : ∀ D i, m (L.frame D) i = s.memory (L.frame D) i := fun D i =>
    congrFun (hm _ (hdir D).symm) i
  have hkeeps : Paging.KeepsTables L s { s with memory := m } := by
    intro D k F hF
    rw [Paging.tables_congr (s := s) (t := { s with memory := m }) rfl rfl (hdirs D k)] at hF
    exact ⟨hF, hdirs D k, hm F (htable (D, k) F hF), h.translating.tables.accounted.used hF⟩
  have hhalves := h.translating.coherent.halves
  refine ⟨⟨⟨⟨h.core.current, h.core.sound.of_dirs hdirs, h.core.below⟩, ?_⟩,
    hkeeps.tables h.translating.tables, fun D k hk => ?_⟩,
    h.exclusive.restrict hkeeps fun _ => Or.inl, h.windowed⟩
  · intro d hd i hlow hhigh
    have huser := hdirs (.user d) i
    have hkernel := hdirs .kernel i
    dsimp only [Layout.frame] at huser hkernel ⊢
    rw [huser, hkernel]
    exact hhalves d hd i hlow hhigh
  · dsimp only
    rw [hdirs]
    exact h.translating.small D k hk

/-- The contents of a page may change. -/
theorem Orderly.of_page (h : Orderly L s) {slot : (Dir × Index) × Index} {f : Frame}
    (hf : s.pages L slot = some f) {m : PhysicalMemory} (hm : ∀ f', f' ≠ f → m f' = s.memory f') :
    Orderly L { s with memory := m } := by
  obtain ⟨hdir, htable⟩ := h.page_apart hf
  exact h.of_apart hdir htable hm

theorem lt_window_of_low {v : Word} (hlow : v < kernelStart) : v < 0xFFC00000 := by
  rw [BitVec.lt_def] at hlow ⊢
  exact lt_of_lt_of_le hlow (by decide)

/-- The page of a process that an address is in. -/
theorem Orderly.page_of_walk (h : Orderly L s) {i : Fin 256} (hi : s.pageDirsUsed i = true)
    {v : Word} (hlow : v < kernelStart) {f : Frame}
    (hwalk : walk s.memory (L.pageDir i) v = some f) :
    s.pages L ((.user i, pdIndex v), ptIndex v) = some f := by
  have hindex : (pdIndex v).toNat < 768 := Nat.lt_of_not_le fun hhigh =>
    BitVec.not_le.mpr hlow ((kernelStart_le_iff v).mpr hhigh)
  have hpage : PageAt L s (.user i) v f :=
    ⟨hi, lt_window_of_low hlow, h.translating.small (.user i) _ hindex, hwalk⟩
  have hframes := hpage.frames h.translating.coherent
  rwa [holder, if_pos hindex] at hframes

/-- Two addresses below `KERNEL_START` with one frame are in one page. -/
theorem Orderly.page_eq (h : Orderly L s) {i : Fin 256} (hi : s.pageDirsUsed i = true) {v w : Word}
    (hv : v < kernelStart) (hw : w < kernelStart) {f : Frame}
    (hwalk : walk s.memory (L.pageDir i) v = some f)
    (hwalk' : walk s.memory (L.pageDir i) w = some f) : v >>> 12 = w >>> 12 := by
  have hpage : s.frames L (.inr ((.user i, pdIndex v), ptIndex v)) = some f :=
    h.page_of_walk hi hv hwalk
  have hpage' : s.frames L (.inr ((.user i, pdIndex w), ptIndex w)) = some f :=
    h.page_of_walk hi hw hwalk'
  have heq := Sum.inr.inj (h.exclusive.exclusive hpage hpage')
  exact shiftRight_eq_iff.mpr ⟨congrArg (·.1.2) heq, congrArg (·.2) heq⟩

end PagingCall

end Senob.Memory
