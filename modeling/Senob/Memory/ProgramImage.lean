import Senob.Memory.ProgramLoad

/-!
# The image of a program

What `createUserProcess` leaves in the address space of the new process: where the program, the
stack and the heap lie, and which bytes of the file are found there.
-/

namespace Senob.Memory

open Senob.Foundation

namespace SpaceCall

open PagingCall (Orderly UserTables)

variable {L : Layout} {s t : Paging} {i : Fin 256}

/-! ## Stores -/

/-- The contents of a frame that is neither a directory nor a table do not lead anywhere. -/
theorem walk_of_apart {f : Frame} (hdir : ∀ D, f ≠ L.frame D)
    (htable : ∀ slot F, s.tables L slot = some F → F ≠ f) {m : PhysicalMemory}
    (hm : ∀ f', f' ≠ f → m f' = s.memory f') {j : Fin 256} (hj : s.pageDirsUsed j = true)
    {v : Word} (hlow : v < kernelStart) :
    walk m (L.pageDir j) v = walk s.memory (L.pageDir j) v := by
  have hentry : m (L.pageDir j) = s.memory (L.pageDir j) := hm _ (hdir (.user j)).symm
  refine walk_congr (by rw [hentry]; exact .refl _) fun hpresent _ => ?_
  have hF := htable (.user j, pdIndex v) _ (Paging.tables_eq_some.mpr
    ⟨Or.inl hj, PagingCall.pdIndex_of_low hlow, hpresent.ne_zero, rfl⟩)
  dsimp only [Layout.frame] at hF
  rw [hm _ hF]
  exact .refl _

/-- The contents of a page do not lead anywhere. -/
theorem walk_of_page (h : Orderly L s) {slot : (Dir × Index) × Index} {f : Frame}
    (hf : s.pages L slot = some f) {m : PhysicalMemory} (hm : ∀ f', f' ≠ f → m f' = s.memory f')
    {j : Fin 256} (hj : s.pageDirsUsed j = true) {v : Word} (hlow : v < kernelStart) :
    walk m (L.pageDir j) v = walk s.memory (L.pageDir j) v := by
  obtain ⟨hdir, htable⟩ := h.page_apart hf
  exact walk_of_apart hdir htable hm hj hlow

theorem userTables_of_page (h : Orderly L s) {slot : (Dir × Index) × Index} {f : Frame}
    (hf : s.pages L slot = some f) {m : PhysicalMemory} (hm : ∀ f', f' ≠ f → m f' = s.memory f')
    {j : Fin 256} (hj : s.pageDirsUsed j = true) (hu : UserTables L j s) :
    UserTables L j { s with memory := m } := by
  obtain ⟨hdir, htable⟩ := h.page_apart hf
  have hentry : m (L.pageDir j) = s.memory (L.pageDir j) := hm _ (hdir (.user j)).symm
  intro k hk hpresent
  dsimp only at hpresent ⊢
  rw [hentry] at hpresent ⊢
  have hF := htable (.user j, k) _ (Paging.tables_eq_some.mpr
    ⟨Or.inl hj, hk, hpresent.ne_zero, rfl⟩)
  dsimp only [Layout.frame] at hF
  rw [hm _ hF]
  exact hu k hk hpresent

variable (L) in
/-- `t` is `s` after stores between the addresses `lo` and `hi` in the address space of
directory `i`. -/
structure Fills (i : Fin 256) (lo hi : Nat) (s t : Paging) : Prop where
  orderly : Orderly L t
  cr3 : t.cr3 = s.cr3
  used : t.pageDirsUsed = s.pageDirsUsed
  pmm : t.pmm = s.pmm
  user : ∀ j, s.pageDirsUsed j = true → UserTables L j s → UserTables L j t
  walk : ∀ j, s.pageDirsUsed j = true → ∀ v, v < kernelStart →
    Memory.walk t.memory (L.pageDir j) v = Memory.walk s.memory (L.pageDir j) v
  kept : ∀ v, v < kernelStart → v.toNat < lo ∨ hi ≤ v.toNat →
    t.loadByte (L.pageDir i) v = s.loadByte (L.pageDir i) v

namespace Fills

theorem refl (h : Orderly L s) (i : Fin 256) (n : Nat) : Fills L i n n s s :=
  ⟨h, rfl, rfl, rfl, fun _ _ hu => hu, fun _ _ _ _ => rfl, fun _ _ _ => rfl⟩

theorem trans {u : Paging} {lo mid hi : Nat} (h : Fills L i lo mid s t)
    (h' : Fills L i mid hi t u) (hlo : lo ≤ mid) (hhi : mid ≤ hi) : Fills L i lo hi s u := by
  have hused : ∀ {j}, s.pageDirsUsed j = true → t.pageDirsUsed j = true := fun hj => by
    rwa [h.used]
  refine ⟨h'.orderly, h'.cr3.trans h.cr3, h'.used.trans h.used, h'.pmm.trans h.pmm,
    fun j hj hu => h'.user j (hused hj) (h.user j hj hu), fun j hj v hv => ?_,
    fun v hv hout => ?_⟩
  · rw [h'.walk j (hused hj) v hv, h.walk j hj v hv]
  · rw [h'.kept v hv (by omega), h.kept v hv (by omega)]

theorem mono {lo hi hi' : Nat} (h : Fills L i lo hi s t) (hle : hi ≤ hi') :
    Fills L i lo hi' s t :=
  { h with kept := fun v hv hout => h.kept v hv (by omega) }

end Fills

/-- A store into a page that is there. -/
theorem fills_store (h : Orderly L s) (hcr3 : s.cr3 = L.pageDir i)
    (hi : s.pageDirsUsed i = true) {d : Word} (hlow : d < kernelStart)
    (hmapped : ∃ f, walk s.memory (L.pageDir i) d = some f) (b : BitVec 8) :
    ∃ t, step L s (.store d b) = some t ∧ Fills L i d.toNat (d.toNat + 1) s t ∧
      t.loadByte (L.pageDir i) d = some b := by
  obtain ⟨f, hf⟩ := hmapped
  have hpage := h.page_of_walk hi hlow hf
  have hm : ∀ f', f' ≠ f → s.memory.setByte f d b f' = s.memory f' := fun f' hne =>
    s.memory.setByte_of_ne b hne
  have hwalk : ∀ {j}, s.pageDirsUsed j = true → ∀ {v}, v < kernelStart →
      walk (s.memory.setByte f d b) (L.pageDir j) v = walk s.memory (L.pageDir j) v :=
    fun hj _ hv => walk_of_page h hpage hm hj hv
  refine ⟨{ s with memory := s.memory.setByte f d b }, ?_, ⟨h.of_page hpage hm, rfl, rfl, rfl,
    fun j hj hu => userTables_of_page h hpage hm hj hu, fun j hj v hv => hwalk hj hv,
    fun v hv hout => ?_⟩, ?_⟩
  · rw [step, Paging.storeByte, hcr3, hf]
    rfl
  · have hne : v ≠ d := by
      rintro rfl
      omega
    rw [Paging.loadByte, Paging.loadByte, hwalk hi hv]
    cases hv' : walk s.memory (L.pageDir i) v with
    | none => rfl
    | some f' =>
        refine congrArg some ?_
        by_cases hframe : f' = f
        · subst hframe
          exact s.memory.byte_setByte_of_ne b (h.page_eq hi hv hlow hv' hf) hne
        · exact s.memory.byte_setByte_of_ne_frame b hframe
  · rw [Paging.loadByte, hwalk hi hlow, hf]
    exact congrArg some (s.memory.byte_setByte_self b)

theorem add_ofNat (dest : Word) (m n : Nat) :
    dest + BitVec.ofNat 32 m + BitVec.ofNat 32 n = dest + BitVec.ofNat 32 (m + n) := by
  rw [BitVec.add_assoc, BitVec.ofNat_add]

theorem toNat_add_ofNat {dest : Word} {n : Nat} (h : dest.toNat + n < 2 ^ 32) :
    (dest + BitVec.ofNat 32 n).toNat = dest.toNat + n := by
  rw [BitVec.toNat_add, BitVec.toNat_ofNat]
  omega

theorem lt_kernelStart_iff {v : Word} : v < kernelStart ↔ v.toNat < 0xC0000000 := BitVec.lt_def

/-- `memcpy` to pages that are there. -/
theorem fills_memcpy (h : Orderly L s) (hcr3 : s.cr3 = L.pageDir i)
    (hi : s.pageDirsUsed i = true) (dest : Word) (src : List (BitVec 8))
    (hfit : dest.toNat + src.length ≤ 0xC0000000)
    (hmapped : ∀ j < src.length, ∃ f,
      walk s.memory (L.pageDir i) (dest + BitVec.ofNat 32 j) = some f) :
    ∃ t, runSteps (step L) s (FatFile.copyStores.memcpyStores dest src) = some t ∧
      Fills L i dest.toNat (dest.toNat + src.length) s t ∧
      ∀ j (hj : j < src.length),
        t.loadByte (L.pageDir i) (dest + BitVec.ofNat 32 j) = some src[j] := by
  induction src generalizing s dest with
  | nil => exact ⟨s, rfl, .refl h i _, fun j hj => absurd hj (Nat.not_lt_zero j)⟩
  | cons b rest ih =>
      rw [List.length_cons] at hfit hmapped
      have hlow : dest < kernelStart := lt_kernelStart_iff.mpr (by omega)
      have hnext : (dest + 1).toNat = dest.toNat + 1 := toNat_add_ofNat (n := 1) (by omega)
      have hshift : ∀ j, dest + 1 + BitVec.ofNat 32 j = dest + BitVec.ofNat 32 (j + 1) := fun j =>
        (add_ofNat dest 1 j).trans (by rw [Nat.add_comm])
      have hfirst : ∃ f, walk s.memory (L.pageDir i) dest = some f := by
        have hzero := hmapped 0 (Nat.succ_pos _)
        rwa [show dest + BitVec.ofNat 32 0 = dest from BitVec.add_zero dest] at hzero
      obtain ⟨u, hu, hstored, hbyte⟩ := fills_store h hcr3 hi hlow hfirst b
      obtain ⟨t, ht, hrest, hbytes⟩ := ih hstored.orderly (hstored.cr3.trans hcr3)
        (by rw [hstored.used]; exact hi) (dest + 1) (by omega) fun j hj => by
          rw [hshift, hstored.walk i hi]
          · exact hmapped (j + 1) (by omega)
          · rw [lt_kernelStart_iff, toNat_add_ofNat (by omega)]
            omega
      rw [hnext] at hrest
      refine ⟨t, ?_, ?_, fun j hj => ?_⟩
      · rw [FatFile.copyStores.memcpyStores, runSteps_cons, hu]
        exact ht
      · rw [List.length_cons, Nat.add_comm rest.length, ← Nat.add_assoc]
        exact hstored.trans hrest (Nat.le_succ _) (Nat.le_add_right _ _)
      · cases j with
        | zero =>
            rw [show dest + BitVec.ofNat 32 0 = dest from BitVec.add_zero dest,
              hrest.kept dest hlow (Or.inl (Nat.lt_succ_self _))]
            exact hbyte
        | succ j =>
            rw [← hshift]
            exact hbytes j (Nat.lt_of_succ_lt_succ hj)

/-- The loop of `copyProgramToAddress` stores what `f_read` delivers, until it fails. -/
theorem fills_copyPages (h : Orderly L s) (hcr3 : s.cr3 = L.pageDir i)
    (hi : s.pageDirsUsed i = true) (file : FatFile) (start : Word) (k left : Nat)
    (hfit : start.toNat + 4096 * (k + left) ≤ 0xC0000000)
    (hmapped : ∀ n, 4096 * k ≤ n → n < 4096 * (k + left) → ∃ f,
      walk s.memory (L.pageDir i) (start + BitVec.ofNat 32 n) = some f) :
    ∃ t, runSteps (step L) s (file.copyStores start k left) = some t ∧
      Fills L i (start.toNat + 4096 * k) (start.toNat + 4096 * (k + left)) s t ∧
      ∀ r, k ≤ r → r < k + left → (∀ r', k ≤ r' → r' ≤ r → (file.read r').isSome) →
        ∀ buffer, file.read r = some buffer → ∀ j (hj : j < buffer.length),
          t.loadByte (L.pageDir i) (start + BitVec.ofNat 32 (4096 * r + j)) = some buffer[j] := by
  induction left generalizing s k with
  | zero =>
      refine ⟨s, rfl, .refl h i _, fun r hk hr => absurd hk (Nat.not_le_of_lt hr)⟩
  | succ left ih =>
      rw [FatFile.copyStores, Nat.mul_comm k]
      cases hread : file.read k with
      | none =>
          -- `f_read` has failed, and the loop stores nothing from here on.
          refine ⟨s, rfl, (Fills.refl h i _).mono (by omega), fun r hk _ hall => ?_⟩
          have hsome := hall k le_rfl hk
          rw [hread] at hsome
          cases hsome
      | some buffer =>
          have hlength := file.read_length k buffer hread
          have haddr : (start + BitVec.ofNat 32 (4096 * k)).toNat = start.toNat + 4096 * k :=
            toNat_add_ofNat (by omega)
          obtain ⟨u, hu, hfirst, hbytes⟩ := fills_memcpy h hcr3 hi
            (start + BitVec.ofNat 32 (4096 * k)) buffer (by omega)
            fun j hj => by
              rw [add_ofNat]
              exact hmapped (4096 * k + j) (by omega) (by omega)
          rw [haddr] at hfirst
          obtain ⟨t, ht, hrest, hlater⟩ := ih hfirst.orderly (hfirst.cr3.trans hcr3)
            (by rw [hfirst.used]; exact hi) (k + 1) (by omega) fun n hlow hhigh => by
              rw [hfirst.walk i hi]
              · exact hmapped n (by omega) (by omega)
              · rw [lt_kernelStart_iff, toNat_add_ofNat (by omega)]
                omega
          have hround : Fills L i (start.toNat + 4096 * k) (start.toNat + 4096 * (k + 1)) s u :=
            hfirst.mono (by omega)
          refine ⟨t, ?_, ?_, fun r hk hr hall buffer' hbuffer j hj => ?_⟩
          · dsimp only
            rw [runSteps_append, hu]
            exact ht
          · rw [show k + (left + 1) = k + 1 + left by omega]
            have hlast : 4096 * (k + 1) ≤ 4096 * (k + 1 + left) :=
              Nat.mul_le_mul_left _ (Nat.le_add_right _ _)
            exact hround.trans hrest (by omega) (Nat.add_le_add_left hlast _)
          -- What the first round has stored is not overwritten by the later ones.
          · by_cases hfirstRound : r = k
            · subst hfirstRound
              obtain rfl := Option.some.inj (hread.symm.trans hbuffer)
              have haddr' : (start + BitVec.ofNat 32 (4096 * r + j)).toNat =
                  start.toNat + (4096 * r + j) := toNat_add_ofNat (by omega)
              rw [hrest.kept _ (lt_kernelStart_iff.mpr (by omega)) (Or.inl (by omega)),
                ← add_ofNat]
              exact hbytes j hj
            · exact hlater r (by omega) (by omega)
                (fun r' hr' hle => hall r' (by omega) hle) buffer' hbuffer j hj

/-! ## The pages of the loops -/

/-- The pages that a mapping loop goes through. -/
@[irreducible]
def pageRange (start : Word) (pages : Nat) : List Word :=
  (List.range pages).map fun n => start + BitVec.ofNat 32 (n * 4096)

theorem mem_pageRange {start w : Word} {pages : Nat} :
    w ∈ pageRange start pages ↔ ∃ n < pages, w = start + BitVec.ofNat 32 (4096 * n) := by
  unfold pageRange
  simp only [List.mem_map, List.mem_range, Nat.mul_comm, eq_comm]

theorem length_pageRange (start : Word) (pages : Nat) : (pageRange start pages).length = pages := by
  unfold pageRange
  rw [List.length_map, List.length_range]

theorem mapPagesCalls_eq (start : Word) (pages : Nat) :
    PagingCall.mapPagesCalls start pages =
      (pageRange start pages).map (PagingCall.mapNewFrame · userFlags) := by
  unfold PagingCall.mapPagesCalls pageRange
  rw [List.map_map]
  rfl

theorem pageRange_add (start : Word) (m n : Nat) :
    ∃ rest, pageRange start (m + n) = pageRange start m ++ rest := by
  unfold pageRange
  rw [List.range_add, List.map_append]
  exact ⟨_, rfl⟩

def programPages (fileSize : Option Nat) : List Word :=
  fileSize.elim [] fun size =>
    pageRange programmVirtualAddressStart (Pmm.ceilDiv size pageFrameSize + 256)

def stackPages : List Word := pageRange (userStackTop - 4096 * 100) 100

def heapPages : List Word := pageRange 0x00800000 4096

theorem programCalls_eq (fileSize : Option Nat) :
    PagingCall.programCalls fileSize =
      (programPages fileSize).map (PagingCall.mapNewFrame · userFlags) := by
  cases fileSize with
  | none => rfl
  | some size => exact mapPagesCalls_eq ..

theorem createUserThreadCalls_eq :
    PagingCall.createUserThreadCalls =
      (stackPages ++ heapPages).map (PagingCall.mapNewFrame · userFlags) := by
  unfold PagingCall.createUserThreadCalls
  rw [mapPagesCalls_eq, mapPagesCalls_eq, List.map_append]
  rfl

/-! ## The mappings -/

/-- Below `KERNEL_START` a process may map any page. -/
theorem ordinary_low (hcr3 : s.cr3 = L.pageDir i) {w : Word} (hlow : w < kernelStart) :
    s.Ordinary L w := by
  refine ⟨PagingCall.lt_window_of_low hlow, ?_⟩
  rintro (hhigh | hkernel)
  · exact absurd hhigh (BitVec.not_le.mpr hlow)
  · exact absurd (hcr3.symm.trans hkernel) (L.pageDir_ne_kernelDirectory i)

theorem extends_kmalloc (h : Orderly L s) (k : Kmalloc)
    (hstocked : Admissible (PagingCall.step L) (PagingCall.Stocked L) s k.calls) :
    ∃ t, runSteps (PagingCall.step L) s k.calls = some t ∧
      PagingCall.Extends L k.grown s t := by
  refine h.extends_mapNewFrames (by decide) (fun w hw => ?_) hstocked
  obtain ⟨hhigh, hwindow, hboot⟩ := k.kernel w hw
  exact ⟨⟨hwindow, fun _ => hboot⟩, fun hlow => absurd hhigh (BitVec.not_le.mpr hlow)⟩

theorem extends_lowPages (h : Orderly L s) (hcr3 : s.cr3 = L.pageDir i) {pages : List Word}
    (hlow : ∀ w ∈ pages, w < kernelStart)
    (hstocked : Admissible (PagingCall.step L) (PagingCall.Stocked L) s
      (pages.map (PagingCall.mapNewFrame · userFlags))) :
    ∃ t, runSteps (PagingCall.step L) s (pages.map (PagingCall.mapNewFrame · userFlags)) =
        some t ∧ PagingCall.Extends L pages s t :=
  h.extends_mapNewFrames PagingCall.plainFlags_userFlags
    (fun w hw => ⟨ordinary_low hcr3 (hlow w hw), fun _ => by decide⟩) hstocked

theorem low_pageRange {start : Word} {pages : Nat}
    (hfit : PagingCall.BelowKernel start pages) : ∀ w ∈ pageRange start pages, w < kernelStart := by
  intro w hw
  obtain ⟨n, hn, rfl⟩ := mem_pageRange.mp hw
  rw [Nat.mul_comm]
  exact hfit.page hn

/-- There are not enough frames for a program that reaches the kernel. -/
theorem pages_le_of_stocked (h : Orderly L s) (hcr3 : s.cr3 = L.pageDir i) {pages : Nat}
    (hstocked : Admissible (PagingCall.step L) (PagingCall.Stocked L) s
      (PagingCall.mapPagesCalls programmVirtualAddressStart pages)) :
    pages ≤ 8 * bitmapLength := by
  by_contra hmany
  obtain ⟨rest, hrest⟩ :=
    pageRange_add programmVirtualAddressStart (8 * bitmapLength + 1)
      (pages - (8 * bitmapLength + 1))
  rw [Nat.add_sub_cancel' (Nat.lt_of_not_le hmany)] at hrest
  rw [mapPagesCalls_eq, hrest, List.map_append] at hstocked
  obtain ⟨t, -, ht⟩ := extends_lowPages h hcr3
    (low_pageRange (PagingCall.belowKernel_program (by decide))) hstocked.of_append
  have htaken := ht.taken
  have hclear := s.pmm.availableFrames_le
  rw [length_pageRange] at htaken
  omega

/-! ## The whole call -/

theorem memAllocPageDir_congr (hused : t.pageDirsUsed = s.pageDirsUsed) :
    (t.memAllocPageDir L).1 = (s.memAllocPageDir L).1 := by
  unfold Paging.memAllocPageDir
  rw [hused]
  cases (List.finRange 256).find? fun i => !s.pageDirsUsed i <;> rfl

variable (L) in
/-- The directory is current and maps nothing below `KERNEL_START`. -/
structure Fresh (i : Fin 256) (s : Paging) : Prop where
  orderly : Orderly L s
  cr3 : s.cr3 = L.pageDir i
  inUse : s.pageDirsUsed i = true
  entries : ∀ k : Index, k.toNat < 768 → s.memory (L.pageDir i) k = 0

theorem Fresh.walk (h : Fresh L i s) {v : Word} (hlow : v < kernelStart) :
    walk s.memory (L.pageDir i) v = none := by
  refine walk_of_absent rfl ?_
  rw [h.entries _ (PagingCall.pdIndex_of_low hlow)]
  decide

theorem Fresh.user (h : Fresh L i s) : UserTables L i s := by
  intro k hk hpresent
  rw [h.entries k hk] at hpresent
  exact absurd hpresent (by decide)

theorem exists_fresh (h : Orderly L s) (hdir : (s.memAllocPageDir L).1 = some i) :
    ∃ t, runSteps (PagingCall.step L) s [.memAllocPageDir, .memChangePageDirectory (.user i)] =
        some t ∧ Fresh L i t ∧ t.pmm = s.pmm := by
  have hused : (s.memAllocPageDir L).2.pageDirsUsed i = true ∧
      ∀ k : Index, k.toNat < 768 → (s.memAllocPageDir L).2.memory (L.pageDir i) k = 0 := by
    cases hresult : s.memAllocPageDir L with
    | mk result u =>
        rw [hresult] at hdir
        rcases Paging.memAllocPageDir_cases hresult with ⟨rfl, -, -⟩ | ⟨j, rfl, -, rfl⟩
        · exact nomatch hdir
        · obtain rfl := Option.some.inj hdir
          refine ⟨Function.update_self .., fun k hk => ?_⟩
          have hwindow : k ≠ 1023 := by
            rintro rfl
            exact absurd hk (by decide)
          simp only [if_true, Paging.freshDirectory, if_neg hwindow, if_neg (Nat.not_le_of_lt hk)]
  have hmake : Orderly L (s.memAllocPageDir L).2 :=
    h.step (show PagingCall.memAllocPageDir.Supplied L s from ⟨trivial, trivial, trivial⟩) rfl
  have hchange :
      PagingCall.Supplied L (s.memAllocPageDir L).2 (.memChangePageDirectory (.user i)) :=
    ⟨hused.1, trivial, trivial⟩
  exact ⟨_, rfl, ⟨hmake.step hchange rfl, rfl, hused.1, hused.2⟩, Paging.pmm_memAllocPageDir⟩

/-- The pages that are mapped behind the copying. -/
def laterPages (b : ProcessBlocks) : List Word :=
  b.thread.grown ++ ((stackPages ++ heapPages) ++ (b.regs.grown ++ b.kernelStack.grown))

variable (L) in
/-- The states of one call of `createUserProcess`: with the new directory, with the pages of the
program, with the copy of the file, and at the end. -/
structure Created (file : FatFile) (b : ProcessBlocks) (i : Fin 256) (s s₁ s₂ s₃ t : Paging) :
    Prop where
  marks : ∀ f, s.pmm.used f = true → s₁.pmm.used f = true
  fresh : Fresh L i s₁
  program : PagingCall.Extends L (programPages (file.stat.map BitVec.toNat)) s₁ s₂
  copied : Fills L i programmVirtualAddressStart.toNat
    (programmVirtualAddressStart.toNat + 4096 * file.pagesNeeded) s₂ s₃
  bytes : file.opens = true → ∀ r < file.pagesNeeded, (∀ r' ≤ r, (file.read r').isSome) →
    ∀ buffer, file.read r = some buffer → ∀ j (hj : j < buffer.length),
      s₃.loadByte (L.pageDir i) (programmVirtualAddressStart + BitVec.ofNat 32 (4096 * r + j)) =
        some buffer[j]
  thread : PagingCall.Extends L (laterPages b) s₃ t

/-- What the allocator has frames for ends below the kernel. -/
theorem low_program (h : Orderly L s) (hcr3 : s.cr3 = L.pageDir i) {fileSize : Option Nat}
    (hstocked : Admissible (PagingCall.step L) (PagingCall.Stocked L) s
      ((programPages fileSize).map (PagingCall.mapNewFrame · userFlags))) :
    ∀ w ∈ programPages fileSize, w < kernelStart := by
  intro w hw
  cases fileSize with
  | none => exact absurd hw List.not_mem_nil
  | some size =>
      have hpages : Pmm.ceilDiv size pageFrameSize + 256 ≤ 8 * bitmapLength := by
        refine pages_le_of_stocked h hcr3 ?_
        rw [mapPagesCalls_eq]
        exact hstocked
      exact low_pageRange (PagingCall.belowKernel_program (hpages.trans (by decide))) w hw

theorem extends_program (h : Orderly L s) (hcr3 : s.cr3 = L.pageDir i) (fileSize : Option Nat)
    (hstocked : Admissible (PagingCall.step L) (PagingCall.Stocked L) s
      (PagingCall.programCalls fileSize)) :
    ∃ t, runSteps (PagingCall.step L) s (PagingCall.programCalls fileSize) = some t ∧
      PagingCall.Extends L (programPages fileSize) s t := by
  rw [programCalls_eq] at hstocked ⊢
  exact extends_lowPages h hcr3 (low_program h hcr3 hstocked) hstocked

theorem low_thread : ∀ w ∈ stackPages ++ heapPages, w < kernelStart :=
  List.forall_mem_append.mpr ⟨low_pageRange PagingCall.belowKernel_stack,
    low_pageRange PagingCall.belowKernel_heap⟩

variable (L) in
/-- The states of one call of `createUserThread`: with the thread, with its stack and the heap, and
at the end. -/
structure ThreadStages (b : ProcessBlocks) (s s₁ s₂ t : Paging) : Prop where
  thread : PagingCall.Extends L b.thread.grown s s₁
  stocked : Admissible (PagingCall.step L) (PagingCall.Stocked L) s₁
    ((stackPages ++ heapPages).map (PagingCall.mapNewFrame · userFlags))
  mapping : runSteps (PagingCall.step L) s₁
    ((stackPages ++ heapPages).map (PagingCall.mapNewFrame · userFlags)) = some s₂
  pages : PagingCall.Extends L (stackPages ++ heapPages) s₁ s₂
  rest : PagingCall.Extends L (b.regs.grown ++ b.kernelStack.grown) s₂ t

theorem threadStages (h : Orderly L s) (hcr3 : s.cr3 = L.pageDir i) (b : ProcessBlocks)
    (hstocked : Admissible (PagingCall.step L) (PagingCall.Stocked L) s (threadCalls b i)) :
    ∃ s₁ s₂ t, runSteps (PagingCall.step L) s (threadCalls b i) = some t ∧
      ThreadStages L b s s₁ s₂ t ∧
      (b.thread.address ≠ 0 ∧ b.regs.address ≠ 0 → s.createUserThreadOf L b = some t) := by
  unfold threadCalls at hstocked ⊢
  obtain ⟨s₁, hrun₁, h₁⟩ := extends_kmalloc h b.thread hstocked.of_append
  have hstocked₁ := hstocked.after hrun₁
  rw [createUserThreadCalls_eq] at hstocked₁ ⊢
  obtain ⟨s₂, hrun₂, h₂⟩ :=
    extends_lowPages h₁.orderly (h₁.cr3.trans hcr3) low_thread hstocked₁.of_append
  have hstocked₂ := hstocked₁.after hrun₂
  obtain ⟨s₃, hrun₃, h₃⟩ := extends_kmalloc h₂.orderly b.regs hstocked₂.of_append
  have hstocked₃ := hstocked₂.after hrun₃
  obtain ⟨t, hrun, ht⟩ := extends_kmalloc h₃.orderly b.kernelStack hstocked₃.of_append
  have hcurrent : t.cr3 = L.pageDir i :=
    (ht.cr3.trans h₃.cr3).trans ((h₂.cr3.trans h₁.cr3).trans hcr3)
  have hsame : t.memChangePageDirectory (L.pageDir i) = t := by
    rw [Paging.memChangePageDirectory, ← hcurrent]
  refine ⟨s₁, s₂, t, ?_, ⟨h₁, hstocked₁.of_append, hrun₂, h₂, h₃.trans ht⟩, fun hb => ?_⟩
  · rw [runSteps_append, hrun₁, Option.bind_some, runSteps_append, hrun₂, Option.bind_some,
      runSteps_append, hrun₃, Option.bind_some, runSteps_append, hrun, Option.bind_some]
    exact congrArg some hsame
  · rw [Paging.createUserThreadOf, newStructure_eq_runSteps hb.1, hrun₁, Option.bind_eq_bind,
      Option.bind_some, PagingCall.createUserThread_eq_runSteps, createUserThreadCalls_eq, hrun₂,
      Option.bind_some, newStructure_eq_runSteps hb.2, hrun₃, Option.bind_some,
      kmalloc_eq_runSteps, hrun]

theorem extends_thread (h : Orderly L s) (hcr3 : s.cr3 = L.pageDir i) (b : ProcessBlocks)
    (hstocked : Admissible (PagingCall.step L) (PagingCall.Stocked L) s (threadCalls b i)) :
    ∃ t, runSteps (PagingCall.step L) s (threadCalls b i) = some t ∧
      PagingCall.Extends L (laterPages b) s t := by
  obtain ⟨s₁, s₂, t, hrun, hstages, -⟩ := threadStages h hcr3 b hstocked
  exact ⟨t, hrun, hstages.thread.trans (hstages.pages.trans hstages.rest)⟩

theorem extends_createUserThread (h : Orderly L s) (hcr3 : s.cr3 = L.pageDir i)
    {b : ProcessBlocks} (hb : b.thread.address ≠ 0 ∧ b.regs.address ≠ 0)
    (hstocked : Admissible (PagingCall.step L) (PagingCall.Stocked L) s (threadCalls b i)) :
    ∃ t, s.createUserThreadOf L b = some t ∧ PagingCall.Extends L (laterPages b) s t := by
  obtain ⟨s₁, s₂, t, -, hstages, hthread⟩ := threadStages h hcr3 b hstocked
  exact ⟨t, hthread hb, hstages.thread.trans (hstages.pages.trans hstages.rest)⟩

theorem pagesNeeded_le (file : FatFile) :
    file.pagesNeeded ≤ (programPages (file.stat.map BitVec.toNat)).length := by
  unfold FatFile.pagesNeeded
  cases file.stat with
  | none => exact Nat.zero_le _
  | some size =>
      refine (Nat.le_add_right _ 256).trans (ge_of_eq ?_)
      exact length_pageRange _ _

/-- Each byte of the pages that `mapMemoryForProgramm` returns the number of is mapped. -/
theorem mapped_program {file : FatFile}
    (h : PagingCall.Extends L (programPages (file.stat.map BitVec.toNat)) s t)
    (hi : s.pageDirsUsed i = true) (hcr3 : s.cr3 = L.pageDir i)
    (hfit : programmVirtualAddressStart.toNat + 4096 * file.pagesNeeded ≤ 0xC0000000) {n : Nat}
    (hn : n < 4096 * file.pagesNeeded) :
    ∃ f, walk t.memory (L.pageDir i) (programmVirtualAddressStart + BitVec.ofNat 32 n) =
      some f := by
  have hpage : programmVirtualAddressStart + BitVec.ofNat 32 (4096 * (n / 4096)) ∈
      programPages (file.stat.map BitVec.toNat) := by
    unfold FatFile.pagesNeeded at hn
    cases hstat : file.stat with
    | none =>
        rw [hstat] at hn
        exact absurd hn (Nat.not_lt_zero n)
    | some size =>
        rw [hstat, Option.elim_some] at hn
        exact mem_pageRange.mpr ⟨n / 4096, by omega, rfl⟩
  have haddr : ∀ m, m ≤ n → (programmVirtualAddressStart + BitVec.ofNat 32 m).toNat =
      programmVirtualAddressStart.toNat + m := fun m hm => toNat_add_ofNat (by omega)
  have hbase := haddr (4096 * (n / 4096)) (Nat.mul_div_le n 4096)
  obtain ⟨f, hf⟩ := h.mapped i hi hcr3 _ hpage (lt_kernelStart_iff.mpr (by omega))
  refine ⟨f, (PagingCall.walk_page ?_).trans hf⟩
  rw [← BitVec.toNat_inj, BitVec.toNat_ushiftRight, BitVec.toNat_ushiftRight, hbase, haddr n le_rfl,
    show programmVirtualAddressStart.toNat = 4096 * 1024 from rfl, Nat.shiftRight_eq_div_pow,
    Nat.shiftRight_eq_div_pow]
  omega

/-- Each page that was mapped took a frame. -/
theorem program_fits {file : FatFile}
    (h : PagingCall.Extends L (programPages (file.stat.map BitVec.toNat)) s t) :
    programmVirtualAddressStart.toNat + 4096 * file.pagesNeeded ≤ 0xC0000000 := by
  have htaken := h.taken
  have hclear := s.pmm.availableFrames_le
  have hpages := pagesNeeded_le file
  have hlength : bitmapLength = 16384 := rfl
  rw [show programmVirtualAddressStart.toNat = 0x00400000 from rfl]
  omega

/-- `copyProgramToAddress` behind `mapMemoryForProgramm`. -/
theorem exists_copied (h : Fresh L i s) (file : FatFile)
    (ht : PagingCall.Extends L (programPages (file.stat.map BitVec.toNat)) s t) :
    ∃ u, runSteps (step L) t file.stores = some u ∧
      Fills L i programmVirtualAddressStart.toNat
        (programmVirtualAddressStart.toNat + 4096 * file.pagesNeeded) t u ∧
      (file.opens = true → ∀ r < file.pagesNeeded, (∀ r' ≤ r, (file.read r').isSome) →
        ∀ buffer, file.read r = some buffer → ∀ j (hj : j < buffer.length),
          u.loadByte (L.pageDir i)
            (programmVirtualAddressStart + BitVec.ofNat 32 (4096 * r + j)) = some buffer[j]) := by
  have hused : t.pageDirsUsed i = true := by rw [ht.used]; exact h.inUse
  have hfit := program_fits ht
  unfold FatFile.stores
  split
  next hopens =>
    obtain ⟨u, hrun, hu, hbytes⟩ := fills_copyPages ht.orderly (ht.cr3.trans h.cr3) hused file
      programmVirtualAddressStart 0 file.pagesNeeded (by rwa [Nat.zero_add]) fun n _ hn =>
        mapped_program ht h.inUse h.cr3 hfit (by rwa [Nat.zero_add] at hn)
    rw [Nat.zero_add] at hu
    exact ⟨u, hrun, hu, fun _ r hr hall =>
      hbytes r (Nat.zero_le r) (by omega) fun r' _ => hall r'⟩
  next hopens =>
    exact ⟨t, rfl, (Fills.refl ht.orderly i _).mono (Nat.le_add_right _ _),
      fun htrue => absurd htrue hopens⟩

/-- While there are frames and directories, `createUserProcess` returns. -/
theorem exists_created (h : Orderly L s) {file : FatFile} {b : ProcessBlocks} (hb : b.NonNull)
    (hdir : (s.memAllocPageDir L).1 = some i)
    (hstocked : Admissible (step L) (Stocked L) s (processCalls file b i)) :
    ∃ s₁ s₂ s₃ t, s.createUserProcessOf L file b = some (i, t) ∧
      Created L file b i s s₁ s₂ s₃ t := by
  unfold processCalls at hstocked
  have hmapping := admissible_paging.mp hstocked.of_append
  unfold mappingCalls at hmapping
  obtain ⟨s₀, hrun₀, h₀⟩ := extends_kmalloc h b.process hmapping.of_append
  have hdir₀ : (s₀.memAllocPageDir L).1 = some i := (memAllocPageDir_congr h₀.used).trans hdir
  obtain ⟨s₁, hrun₁, h₁, hpmm⟩ := exists_fresh h₀.orderly hdir₀
  have hfirst : runSteps (PagingCall.step L) s
      (b.process.calls ++ [.memAllocPageDir, .memChangePageDirectory (.user i)]) = some s₁ := by
    rw [runSteps_append, hrun₀]
    exact hrun₁
  have hcalls : mappingCalls file b i =
      (b.process.calls ++ [.memAllocPageDir, .memChangePageDirectory (.user i)]) ++
        PagingCall.programCalls (file.stat.map BitVec.toNat) := by
    rw [List.append_assoc]
    rfl
  have hprogram := admissible_paging.mp hstocked.of_append
  rw [hcalls] at hprogram
  obtain ⟨s₂, hrun₂, h₂⟩ := extends_program h₁.orderly h₁.cr3 _ (hprogram.after hfirst)
  have hmapped : runSteps (step L) s ((mappingCalls file b i).map paging) = some s₂ := by
    rw [runSteps_paging, hcalls, runSteps_append, hfirst]
    exact hrun₂
  obtain ⟨s₃, hrun₃, h₃, hbytes⟩ := exists_copied h₁ file h₂
  have hthread := (hstocked.after hmapped).after hrun₃
  obtain ⟨t, hrun, ht⟩ := extends_thread h₃.orderly (h₃.cr3.trans (h₂.cr3.trans h₁.cr3)) b
    (admissible_paging.mp hthread)
  refine ⟨s₁, s₂, s₃, t, ?_, ⟨fun f hf => ?_, h₁, h₂, h₃, hbytes, ht⟩⟩
  · rw [createUserProcessOf_eq_runSteps hb fun u hu => ?_, processCalls, runSteps_append, hmapped,
      Option.bind_some, runSteps_append, hrun₃, Option.bind_some, runSteps_paging, hrun]
    · rfl
    · rw [kmalloc_eq_runSteps, hrun₀] at hu
      obtain rfl := Option.some.inj hu
      exact hdir₀
  · rw [hpmm]
    exact h₀.marks f hf

end SpaceCall

end Senob.Memory
