import Senob.Memory.ProgramImage

/-!
# Memory for a process

The allocator takes the lowest clear frame of its window. As long as two frames for each page
are left there, one for a table, `createUserProcess` gets all that it asks for.
-/

namespace Senob.Memory

open Senob.Foundation

variable {L : Layout} {s t : Paging} {i : Fin 256}

namespace PagingCall

theorem Roomy.step {start stop n : Nat} (h : Roomy start stop n s.pmm) (hstart : 0 < start)
    (hstop : stop ≤ bitmapLength) (hroom : 8 * start + (n + 2) ≤ 8 * stop) {virtAddr flags : Word} :
    (mapNewFrame virtAddr flags).Stocked L s ∧
      ∀ t, PagingCall.step L s (mapNewFrame virtAddr flags) = some t →
        Roomy start stop (n + 2) t.pmm := by
  have hpage := h.clear_of_le le_rfl (by omega) hstop
  have htable := h.clear_of_le (Nat.le_succ _) (by omega) hstop
  refine ⟨⟨_, hpage, Or.inr ⟨_, Nat.succ_ne_self _, htable⟩⟩, fun t hcall => ?_⟩
  obtain ⟨addr, pmm, halloc, -, hroomy⟩ := h.alloc (by omega) hstop hstart
  obtain ⟨⟨addr', pmm'⟩, halloc', hmap⟩ := Option.bind_eq_some_iff.mp hcall
  obtain ⟨rfl, rfl⟩ := Prod.mk.inj (Option.some.inj (halloc.symm.trans halloc'))
  rcases Paging.pmm_memMapPage hmap with hsame | ⟨ptPaddr, hlast⟩
  · rw [hsame]
    exact hroomy.mono (Nat.le_succ _)
  · obtain ⟨addr', pmm', hnext, -, hroomy'⟩ := hroomy.alloc (by omega) hstop hstart
    obtain ⟨-, rfl⟩ := Prod.mk.inj (Option.some.inj (hnext.symm.trans hlast))
    exact hroomy'

end PagingCall

namespace SpaceCall

open PagingCall (Roomy)

/-- The frames that a step takes at most. -/
def frames : SpaceCall → Nat
  | paging (.mapNewFrame _ _) => 2
  | _ => 0

/-- The steps of `createUserProcess`. -/
inductive Creates : SpaceCall → Prop
  | map (virtAddr flags : Word) : Creates (paging (.mapNewFrame virtAddr flags))
  | alloc : Creates (paging .memAllocPageDir)
  | change (D : Dir) : Creates (paging (.memChangePageDirectory D))
  | store (d : Word) (b : BitVec 8) : Creates (store d b)

theorem Creates.roomy {call : SpaceCall} (hcall : call.Creates) {start stop n : Nat}
    (hstart : 0 < start) (hstop : stop ≤ bitmapLength) (h : Roomy start stop n s.pmm)
    (hroom : 8 * start + (n + call.frames) ≤ 8 * stop) :
    call.Stocked L s ∧ ∀ t, call.step L s = some t → Roomy start stop (n + call.frames) t.pmm := by
  cases hcall with
  | map virtAddr flags => exact h.step hstart hstop hroom
  | alloc =>
      refine ⟨trivial, fun t ht => ?_⟩
      obtain rfl := Option.some.inj ht
      rw [Paging.pmm_memAllocPageDir]
      exact h
  | change D =>
      refine ⟨trivial, fun t ht => ?_⟩
      obtain rfl := Option.some.inj ht
      exact h
  | store d b =>
      refine ⟨trivial, fun t ht => ?_⟩
      obtain ⟨f, -, ht⟩ := Option.bind_eq_some_iff.mp ht
      obtain rfl := Option.some.inj ht
      exact h

/-- The calls for pages, and what they take. -/
theorem creates_pages (pages : List Word) (flags : Word) :
    ∀ call ∈ (pages.map (PagingCall.mapNewFrame · flags)).map paging, call.Creates := by
  intro call hcall
  rw [List.map_map] at hcall
  obtain ⟨w, -, rfl⟩ := List.mem_map.mp hcall
  exact .map w flags

theorem frames_pages (pages : List Word) (flags : Word) :
    (((pages.map (PagingCall.mapNewFrame · flags)).map paging).map frames).sum =
      2 * pages.length := by
  induction pages with
  | nil => rfl
  | cons w rest ih =>
      rw [List.map_cons, List.map_cons, List.map_cons, List.sum_cons, ih, List.length_cons, frames]
      omega

theorem mem_memcpyStores {call : SpaceCall} (dest : Word) (src : List (BitVec 8))
    (hcall : call ∈ FatFile.copyStores.memcpyStores dest src) :
    ∃ j < src.length, ∃ b, call = store (dest + BitVec.ofNat 32 j) b := by
  induction src generalizing dest with
  | nil => exact absurd hcall List.not_mem_nil
  | cons b rest ih =>
      rcases List.mem_cons.mp hcall with rfl | hcall
      · exact ⟨0, Nat.succ_pos _, b, by rw [show dest + BitVec.ofNat 32 0 = dest from
          BitVec.add_zero dest]⟩
      · obtain ⟨j, hj, b', rfl⟩ := ih (dest + 1) hcall
        refine ⟨j + 1, Nat.succ_lt_succ hj, b', ?_⟩
        rw [show dest + 1 = dest + BitVec.ofNat 32 1 from rfl, add_ofNat, Nat.add_comm]

/-- A store comes from a read that succeeded, and goes to a page that `mapMemoryForProgramm`
counted. -/
theorem mem_stores {call : SpaceCall} {file : FatFile} (hcall : call ∈ file.stores) :
    file.opens = true ∧ ∃ r < file.pagesNeeded, (file.read r).isSome ∧ ∃ j < 4096, ∃ b,
      call = store (programmVirtualAddressStart + BitVec.ofNat 32 (4096 * r + j)) b := by
  have hcopy : ∀ programAddress i left, call ∈ file.copyStores programAddress i left →
      ∃ r < i + left, (file.read r).isSome ∧ ∃ j < 4096, ∃ b,
        call = store (programAddress + BitVec.ofNat 32 (4096 * r + j)) b := by
    intro programAddress i left hcall
    induction left generalizing i with
    | zero => exact absurd hcall List.not_mem_nil
    | succ left ih =>
        rw [FatFile.copyStores] at hcall
        cases hread : file.read i with
        | none =>
            rw [hread] at hcall
            exact absurd hcall List.not_mem_nil
        | some buffer =>
            rw [hread] at hcall
            rcases List.mem_append.mp hcall with hcall | hcall
            · obtain ⟨j, hj, b, rfl⟩ := mem_memcpyStores _ _ hcall
              have hlength := file.read_length i buffer hread
              exact ⟨i, by omega, by rw [hread]; rfl, j, by omega, b,
                by rw [add_ofNat, Nat.mul_comm]⟩
            · obtain ⟨r, hr, hstore⟩ := ih (i + 1) hcall
              exact ⟨r, by omega, hstore⟩
  unfold FatFile.stores at hcall
  split at hcall
  case isTrue hopens =>
    obtain ⟨r, hr, hstore⟩ := hcopy _ _ _ hcall
    exact ⟨hopens, r, by rwa [Nat.zero_add] at hr, hstore⟩
  case isFalse => exact absurd hcall List.not_mem_nil

theorem frames_stores (file : FatFile) : (file.stores.map frames).sum = 0 := by
  refine List.sum_eq_zero fun n hn => ?_
  obtain ⟨call, hcall, rfl⟩ := List.mem_map.mp hn
  obtain ⟨-, r, -, -, j, -, b, rfl⟩ := mem_stores hcall
  rfl

/-- The pages that `createUserProcess` maps. -/
def allPages (file : FatFile) (b : ProcessBlocks) : List Word :=
  b.process.grown ++ (programPages (file.stat.map BitVec.toNat) ++ laterPages b)

theorem threadCalls_eq (b : ProcessBlocks) (i : Fin 256) :
    (threadCalls b i).map paging =
      b.thread.calls.map paging ++ (((stackPages ++ heapPages).map
        (PagingCall.mapNewFrame · userFlags)).map paging ++ (b.regs.calls.map paging ++
      (b.kernelStack.calls.map paging ++ [paging (.memChangePageDirectory (.user i))]))) := by
  unfold threadCalls
  rw [createUserThreadCalls_eq]
  simp only [List.map_append, List.map_cons, List.map_nil]

theorem processCalls_eq (file : FatFile) (b : ProcessBlocks) (i : Fin 256) :
    processCalls file b i =
      b.process.calls.map paging ++ ([paging .memAllocPageDir,
        paging (.memChangePageDirectory (.user i))] ++
      (((programPages (file.stat.map BitVec.toNat)).map
        (PagingCall.mapNewFrame · userFlags)).map paging ++
      (file.stores ++ (threadCalls b i).map paging))) := by
  unfold processCalls mappingCalls
  rw [programCalls_eq]
  simp only [List.map_append, List.map_cons, List.append_assoc, List.cons_append, List.nil_append]

theorem creates_kmalloc (k : Kmalloc) : ∀ call ∈ k.calls.map paging, call.Creates :=
  creates_pages k.grown heapFlags

theorem creates_change (D : Dir) :
    ∀ call ∈ [paging (.memChangePageDirectory D)], call.Creates := by
  intro call hcall
  obtain rfl := List.mem_singleton.mp hcall
  exact .change _

theorem creates_threadCalls (b : ProcessBlocks) (i : Fin 256) :
    ∀ call ∈ (threadCalls b i).map paging, call.Creates := by
  rw [threadCalls_eq]
  simp only [List.forall_mem_append]
  exact ⟨creates_kmalloc _, creates_pages _ _, creates_kmalloc _, creates_kmalloc _,
    creates_change _⟩

theorem creates_processCalls (file : FatFile) (b : ProcessBlocks) (i : Fin 256) :
    ∀ call ∈ processCalls file b i, call.Creates := by
  rw [processCalls_eq]
  simp only [List.forall_mem_append]
  refine ⟨creates_kmalloc _, ?_, creates_pages _ _, ?_, creates_threadCalls b i⟩
  · rintro call hcall
    rcases List.mem_cons.mp hcall with rfl | hcall
    · exact .alloc
    · exact creates_change _ call hcall
  · intro call hcall
    obtain ⟨-, r, -, -, j, -, b, rfl⟩ := mem_stores hcall
    exact .store _ b

theorem frames_kmalloc (k : Kmalloc) :
    ((k.calls.map paging).map frames).sum = 2 * k.grown.length :=
  frames_pages k.grown heapFlags

theorem frames_threadCalls (b : ProcessBlocks) (i : Fin 256) :
    (((threadCalls b i).map paging).map frames).sum = 2 * (laterPages b).length := by
  rw [threadCalls_eq, laterPages]
  simp only [List.map_append, List.sum_append, frames_kmalloc, frames_pages, List.length_append,
    List.map_cons, List.map_nil, List.sum_cons, List.sum_nil, frames]
  omega

theorem frames_processCalls (file : FatFile) (b : ProcessBlocks) (i : Fin 256) :
    ((processCalls file b i).map frames).sum = 2 * (allPages file b).length := by
  rw [processCalls_eq, allPages]
  simp only [List.map_append, List.sum_append, frames_kmalloc, frames_pages, frames_stores,
    frames_threadCalls, List.length_append, List.map_cons, List.map_nil, List.sum_cons,
    List.sum_nil, frames]
  omega

/-- Where the allocator has two frames for each page, the steps do not run out of memory. -/
theorem stocked_of_creates {start stop n : Nat} (hstart : 0 < start) (hstop : stop ≤ bitmapLength)
    (h : Roomy start stop n s.pmm) {calls : List SpaceCall}
    (hcreates : ∀ call ∈ calls, call.Creates)
    (hroom : 8 * start + (n + (calls.map frames).sum) ≤ 8 * stop) :
    Admissible (step L) (Stocked L) s calls := by
  have hlimit : n + (calls.map frames).sum ≤ 8 * stop - 8 * start := by omega
  exact .of_cost (fun n s => Roomy start stop n s.pmm) frames
    (fun call hcall n s h hleft =>
      (hcreates call hcall).roomy hstart hstop h (by omega)) h hlimit

theorem stocked_of_roomy {start stop n : Nat} (hstart : 0 < start) (hstop : stop ≤ bitmapLength)
    (h : Roomy start stop n s.pmm) {file : FatFile} {b : ProcessBlocks}
    (hroom : 8 * start + (n + 2 * (allPages file b).length) ≤ 8 * stop) (i : Fin 256) :
    Admissible (step L) (Stocked L) s (processCalls file b i) := by
  refine stocked_of_creates hstart hstop h (creates_processCalls file b i) ?_
  rwa [frames_processCalls]

end SpaceCall

end Senob.Memory
