import Senob.Memory.HeapAtomic
import Senob.Memory.HeapFirstFit
import Senob.Memory.PagingFrames
import Senob.Memory.PmmExhaustion

/-!
# The window of the heap

`HEAP_SIZE` is declared and not used: `heap_expand` goes on as long as there are frames. Behind
256 MiB the heap meets the page of 4 MiB that `boot.s` has put at `0xE0000000`.
-/

namespace Senob.Memory

open Senob.Foundation

/-- The start of the framebuffer, where the window of the heap ends. -/
def framebufferAddress : Nat := 0xE0000000

/-- The services with a record of the addresses that are mapped and unmapped. -/
def PageServices.logged {ε : Type*} (svc : PageServices ε) : PageServices (ε × List Nat) where
  pmmAllocPageframe env :=
    let (physAddr, rest) := svc.pmmAllocPageframe env.1
    (physAddr, rest, env.2)
  memMapPage virtAddr physAddr flags env :=
    (svc.memMapPage virtAddr physAddr flags env.1, virtAddr :: env.2)
  memUnmapPage virtAddr env := (svc.memUnmapPage virtAddr env.1, virtAddr :: env.2)

section Logged

variable {ε : Type*} {svc : PageServices ε} {env env' : ε}

theorem logged_alloc {physAddr : Nat} (h : svc.pmmAllocPageframe env = (physAddr, env'))
    (log : List Nat) : svc.logged.pmmAllocPageframe (env, log) = (physAddr, env', log) := by
  simp only [PageServices.logged, h]

theorem logged_map {virtAddr physAddr flags : Nat}
    (h : svc.memMapPage virtAddr physAddr flags env = env') (log : List Nat) :
    svc.logged.memMapPage virtAddr physAddr flags (env, log) = (env', virtAddr :: log) := by
  simp only [PageServices.logged, h]

/-- The record changes nothing else. -/
theorem expandBlocks_logged (svc : PageServices ε) (h : Heap) (env : ε) (log : List Nat)
    (left : Nat) :
    ∃ log', h.expandBlocks svc.logged (env, log) left =
      ((h.expandBlocks svc env left).1, (h.expandBlocks svc env left).2.1,
        (h.expandBlocks svc env left).2.2, log') := by
  induction left generalizing h env log with
  | zero => exact ⟨log, rfl⟩
  | succ left ih =>
      rcases halloc : svc.pmmAllocPageframe env with ⟨physAddr, env'⟩
      by_cases hzero : physAddr = 0
      · subst hzero
        refine ⟨log, ?_⟩
        rw [Heap.expandBlocks_of_refused halloc,
          Heap.expandBlocks_of_refused (logged_alloc halloc log)]
      · rw [Heap.expandBlocks_of_granted halloc hzero rfl,
          Heap.expandBlocks_of_granted (logged_alloc halloc log) hzero (logged_map rfl log)]
        exact ih _ _ _

theorem initBlocks_logged (svc : PageServices ε) (h : Heap) (env : ε) (log : List Nat)
    (i left : Nat) :
    ∃ log', h.initBlocks svc.logged (env, log) i left =
        ((h.initBlocks svc env i left).1, (h.initBlocks svc env i left).2, log') ∧
      ∀ virtAddr ∈ log', virtAddr ∈ log ∨
        ∃ j < i + left, virtAddr = heapStartAddress + j * heapBlockSize := by
  induction left generalizing h env log i with
  | zero => exact ⟨log, rfl, fun _ => Or.inl⟩
  | succ left ih =>
      rcases halloc : svc.pmmAllocPageframe env with ⟨physAddr, env'⟩
      simp only [Heap.initBlocks, logged_alloc halloc log, halloc]
      split
      · exact ⟨log, rfl, fun v hv => Or.inl hv⟩
      · obtain ⟨log', hlogged, hnew⟩ := ih
          { h with entries := Function.update h.entries i heapBlockTableEntryFree }
          (svc.memMapPage (heapStartAddress + i * heapBlockSize) physAddr heapPageFlags env')
          ((heapStartAddress + i * heapBlockSize) :: log) (i + 1)
        refine ⟨log', hlogged, fun v hv => ?_⟩
        rcases hnew v hv with hold | ⟨j, hj, rfl⟩
        · rcases List.mem_cons.mp hold with rfl | hold
          · exact Or.inr ⟨i, by omega, rfl⟩
          · exact Or.inl hold
        · exact Or.inr ⟨j, by omega, rfl⟩

end Logged

namespace HeapWindow

open Paging (HeapReady Pooled heapDemand services)

/-- The heap of a running kernel. -/
abbrev State := HeapHistory (Option Paging × List Nat)

/-- The heap keeps to its window, with the pages that it maps and unmaps and with the blocks that
it hands out. -/
structure Within (s : State) : Prop where
  heapSize : heapStartAddress + s.heap.heapSize ≤ framebufferAddress
  touched : ∀ virtAddr ∈ s.env.2, virtAddr + heapBlockSize ≤ framebufferAddress
  handed : ∀ a ∈ s.live,
    a.ptr + Heap.decimalTotalBlocks a.size * heapBlockSize ≤ framebufferAddress

/-- The request can be served in the window, or the frames run out before its end. -/
def Good (L : Layout) (s : State) : HeapSession.Op → Prop
  | .kmalloc size =>
      s.heap.Fits (Heap.decimalTotalBlocks size) ∨
      s.heap.totalBlocks + Heap.decimalTotalBlocks size ≤ 65536 ∨
      ∀ p, s.env.1 = some p →
        p.pmm.clearFrames < heapDemand L p s.heap.totalBlocks (65537 - s.heap.totalBlocks)
  | .kfree _ => True

/-- What holds of the heap and the paging as long as the heap keeps to its window. -/
structure Contained (L : Layout) (h : Heap) (env : Option Paging × List Nat) : Prop where
  startAddress : h.startAddress = heapStartAddress
  heapSize : h.heapSize = h.totalBlocks * heapBlockSize
  totalBlocks : h.totalBlocks ≤ 65536
  ready : ∀ p, env.1 = some p → p.Core L ∧ Pooled p.pmm
  touched : ∀ virtAddr ∈ env.2, virtAddr + heapBlockSize ≤ framebufferAddress

variable {L : Layout} {h : Heap} {env : Option Paging × List Nat}

/-- The block behind the table is still in the window. -/
theorem touched_cons (h : ∀ virtAddr ∈ env.2, virtAddr + heapBlockSize ≤ framebufferAddress)
    {i : Nat} (hi : i < 65536) :
    ∀ virtAddr ∈ (heapStartAddress + i * heapBlockSize) % 2 ^ 32 :: env.2,
      virtAddr + heapBlockSize ≤ framebufferAddress := by
  refine List.forall_mem_cons.mpr ⟨?_, h⟩
  rw [heapStartAddress, heapBlockSize, framebufferAddress]
  omega

/-! ## Growing -/

/-- The expansion stops inside the window. -/
theorem Contained.expandBlocks (hc : Contained L h env) {left : Nat}
    (hgood : h.totalBlocks + left ≤ 65536 ∨ ∀ p, env.1 = some p →
      p.pmm.clearFrames < heapDemand L p h.totalBlocks (65537 - h.totalBlocks)) :
    ∃ granted h' env', Heap.expandBlocks (services L).logged h env left = (granted, h', env') ∧
      Contained L h' env' := by
  induction left generalizing h env with
  | zero => exact ⟨true, h, env, rfl, hc⟩
  | succ left ih =>
      obtain ⟨paging, log⟩ := env
      cases paging with
      | none =>
          have hlogged := logged_alloc (Paging.services_alloc_none L) log
          exact ⟨_, _, _, Heap.expandBlocks_of_refused hlogged left, hc⟩
      | some p =>
          obtain ⟨hcore, hpool⟩ := hc.ready p rfl
          have hready : HeapReady L h p := ⟨hc.startAddress, hc.heapSize, hcore, hpool⟩
          have hbound := hc.totalBlocks
          rcases hready.round (fun _ => by omega) with ⟨hnone, halloc⟩ |
            ⟨physAddr, u, t, halloc, hne, hmap, ht, hpresent, hpos, hclear⟩
          · exact ⟨_, _, _, Heap.expandBlocks_of_refused (logged_alloc halloc log) left, hc⟩
          -- At the last block of the window the frames would not have sufficed.
          have hopen : h.totalBlocks < 65536 := by
            by_contra hfull
            obtain hfull : h.totalBlocks = 65536 := by omega
            have hdemand := hgood.resolve_left (by omega) p rfl
            rw [hfull] at hdemand
            rw [show 65537 - 65536 = 0 + 1 from rfl, heapDemand,
              Paging.absentTables_zero] at hdemand
            omega
          have hone := Heap.appended_one hc.heapSize (by omega)
          rw [Heap.expandBlocks_of_granted (logged_alloc halloc log) hne (logged_map hmap log)]
          refine ih ⟨ht.startAddress, ht.heapSize, ?_, fun q hq => ?_, ?_⟩ ?_
          · rw [hone.totalBlocks]
            exact hopen
          · obtain rfl := Option.some.inj hq
            exact ⟨ht.core, ht.pool⟩
          · rw [hc.heapSize]
            exact touched_cons hc.touched hopen
          · rw [hone.totalBlocks]
            refine hgood.imp (fun hroom => by omega) fun hlack q hq => ?_
            obtain rfl := Option.some.inj hq
            have hdemand := hlack p rfl
            obtain ⟨m, hm⟩ : ∃ m, 65537 - h.totalBlocks = m + 1 + 1 :=
              ⟨65535 - h.totalBlocks, by omega⟩
            rw [hm, heapDemand, Paging.absentTables_succ hpresent] at hdemand
            rw [show 65537 - (h.totalBlocks + 1) = m + 1 by omega, heapDemand, hclear]
            omega

/-! ## Shrinking -/

theorem pooled_step {s t : Paging} (h : Pooled s.pmm) {call : PagingCall}
    (hcall : call.step L s = some t) : Pooled t.pmm := by
  refine PagingCall.pmm_step (fun p addr p' hp halloc => ?_) (fun p addr p' hp hfree => ?_) h hcall
  · rcases Pmm.allocPageframe_cases halloc with ⟨-, rfl⟩ | ⟨f, -, -, -, -, rfl⟩
    · exact hp
    · exact hp.take _
  · obtain ⟨-, rfl⟩ := Pmm.freePageframe_cases hfree
    unfold Pmm.freed
    split
    · exact ⟨hp.startByte_pos, hp.endByte_le⟩
    · exact hp

/-- The blocks of the window are no entries of `boot.s`. -/
theorem ordinary_block (p : Paging) {i : Nat} (hi : i < 65536) :
    p.Ordinary L (heapBlockAddress i) := by
  have htable := toNat_heapBlockTable (show i < 131072 by omega)
  unfold heapBlockTable at htable
  refine ⟨?_, fun _ => ?_⟩
  · rw [BitVec.lt_def]
    have hindex := toNat_pdIndex (heapBlockAddress i)
    rw [show (0xFFC00000 : Word).toNat = 1023 * 2 ^ 22 from rfl]
    omega
  · rintro (hboot | hboot | hboot)
    · rw [hboot] at htable
      exact absurd htable (by simp; omega)
    · omega
    · rw [hboot, show (896 : Index).toNat = 896 from rfl] at htable
      omega

theorem ready_memUnmapPage {p q : Paging} (hcore : p.Core L) (hpool : Pooled p.pmm) {i : Nat}
    (hi : i < 65536)
    (hcall : (services L).memUnmapPage ((heapStartAddress + i * heapBlockSize) % 2 ^ 32) (some p) =
      some q) : q.Core L ∧ Pooled q.pmm := by
  have hstep : (PagingCall.memUnmapPage (heapBlockAddress i)).step L p = some q := by
    rw [← Paging.ofNat_mod_heapBlockAddress]
    exact hcall
  have henabled : (PagingCall.memUnmapPage (heapBlockAddress i)).Enabled L p := ordinary_block p hi
  exact ⟨PagingCall.core_step hcore henabled hstep, pooled_step hpool hstep⟩

theorem Contained.contractBlocks (hc : Contained L h env) {last : Nat}
    (hlast : h.totalBlocks = last) :
    ∃ h' env', Heap.contractBlocks (services L).logged h env last = (h', env') ∧
      Contained L h' env' := by
  induction last generalizing h env with
  | zero => exact ⟨h, env, rfl, hc⟩
  | succ last ih =>
      have hbound := hc.totalBlocks
      unfold Heap.contractBlocks
      split
      swap
      · exact ⟨h, env, rfl, hc⟩
      have htotal : (h.totalBlocks + 2 ^ 32 - 1) % 2 ^ 32 = last := by omega
      have hsize : (h.heapSize + 2 ^ 32 - heapBlockSize) % 2 ^ 32 = last * heapBlockSize := by
        rw [hc.heapSize, hlast, heapBlockSize]
        omega
      rw [htotal, hsize, hc.startAddress]
      refine ih ⟨rfl, rfl, ?_, fun q hq => ?_, touched_cons hc.touched (by omega)⟩ rfl
      · dsimp only
        omega
      · obtain ⟨paging, log⟩ := env
        cases paging with
        | none => cases hq
        | some p =>
            obtain ⟨hcore, hpool⟩ := hc.ready p rfl
            exact ready_memUnmapPage hcore hpool (show last < 65536 by omega) hq

/-! ## Runs -/

theorem Contained.marked (hc : Contained L h env) (entries : Bytes) :
    Contained L { h with entries := entries } env :=
  ⟨hc.startAddress, hc.heapSize, hc.totalBlocks, hc.ready, hc.touched⟩

/-- The state as long as the heap keeps to its window. -/
structure Inv (L : Layout) (s : State) : Prop where
  contained : Contained L s.heap s.env
  handed : ∀ a ∈ s.live,
    a.ptr + Heap.decimalTotalBlocks a.size * heapBlockSize ≤ framebufferAddress

theorem Inv.within {s : State} (h : Inv L s) : Within s := by
  refine ⟨?_, h.contained.touched, h.handed⟩
  have hbound := h.contained.totalBlocks
  rw [h.contained.heapSize, heapStartAddress, heapBlockSize, framebufferAddress]
  omega

/-- A run that is handed out lies in the table. -/
theorem handed_of_fit {n first total : Nat} (htotal : total ≤ 65536) (hfit : first + n ≤ total) :
    heapStartAddress + first * heapBlockSize + n * heapBlockSize ≤ framebufferAddress := by
  rw [heapStartAddress, heapBlockSize, framebufferAddress]
  omega

theorem Contained.kmalloc {s : State} (hc : Contained L s.heap s.env) {size : Nat}
    (hgood : Good L s (.kmalloc size)) :
    ∃ ptr h' env', s.heap.kmalloc (services L).logged s.env size = (ptr, h', env') ∧
      Contained L h' env' ∧
      (ptr ≠ 0 → ptr + Heap.decimalTotalBlocks size * heapBlockSize ≤ framebufferAddress) := by
  have hbound := hc.totalBlocks
  rcases Nat.eq_zero_or_pos (Heap.decimalTotalBlocks size) with hzero | hpos
  · exact ⟨0, s.heap, s.env, Heap.malloc_zero _ _ _ hzero, hc, fun hne => absurd rfl hne⟩
  cases hsearch : s.heap.getStartBlock (Heap.decimalTotalBlocks size) with
  | some first =>
      have hfit := s.heap.getStartBlock_firstFit hpos
      rw [hsearch] at hfit
      have hfirst := hfit.1
      exact ⟨_, _, _, Heap.malloc_found hc.startAddress (by omega) hsearch, hc.marked _,
        fun _ => handed_of_fit hbound hfirst⟩
  | none =>
      have hroom := hgood.resolve_left ((Heap.getStartBlock_eq_none_iff hpos).mp hsearch)
      obtain ⟨granted, h', env', hexpand, hc'⟩ := hc.expandBlocks hroom
      cases granted with
      | false =>
          exact ⟨0, h', env', Heap.malloc_exhausted hsearch hexpand, hc', fun hne => absurd rfl hne⟩
      | true =>
          have hbound' := hc'.totalBlocks
          have hfit := h'.getStartBlock_firstFit hpos
          cases hfound : h'.getStartBlock (Heap.decimalTotalBlocks size) with
          | none =>
              refine ⟨0, h', env', ?_, hc', fun hne => absurd rfl hne⟩
              exact Heap.malloc_unfound hsearch hexpand hfound
          | some first =>
              rw [hfound] at hfit
              have hfirst := hfit.1
              exact ⟨_, _, _,
                Heap.malloc_expanded hsearch hexpand hc'.startAddress (by omega) hfound,
                hc'.marked _, fun _ => handed_of_fit hbound' hfirst⟩

theorem Inv.step {s t : State} (h : Inv L s) {op : HeapSession.Op} (hgood : Good L s op)
    (hstep : s.step (services L).logged op = some t) : Inv L t := by
  cases op with
  | kmalloc size =>
      obtain ⟨ptr, h', env', hcall, hc, hhanded⟩ := h.contained.kmalloc hgood
      obtain rfl := Option.some.inj ((HeapHistory.step_kmalloc hcall).symm.trans hstep)
      refine ⟨hc, ?_⟩
      dsimp only
      split
      next _ => exact h.handed
      next hne => exact List.forall_mem_cons.mpr ⟨hhanded hne, h.handed⟩
  | kfree ptr =>
      have hmarked : Contained L (s.heap.markBlocksFree (s.heap.addressToBlock ptr)) s.env :=
        h.contained.marked _
      obtain ⟨h', env', hcall, hc⟩ := hmarked.contractBlocks rfl
      have hstate : s.step (services L).logged (.kfree ptr) =
          some ⟨h', env', s.live.filter fun a => a.ptr ≠ ptr⟩ := by
        simp only [HeapHistory.step, Heap.kfree, Heap.free, Heap.contract]
        rw [hcall]
      obtain rfl := Option.some.inj (hstate.symm.trans hstep)
      exact ⟨hc, fun a ha => h.handed a (List.mem_filter.mp ha).1⟩

/-! ## From the boot on -/

/-- The heap after `heap_init`, with no address recorded yet. -/
def start (L : Layout) (memory : Bytes) (s : Paging) : State :=
  HeapHistory.start (services L).logged memory (some s, [])

theorem inv_start {p : Paging} (hcore : p.Core L) (hpool : Pooled p.pmm) (memory : Bytes) :
    ∃ h t log, Heap.init (services L) memory (some p) = (h, some t) ∧ h.totalBlocks = 4 ∧
      start L memory p = ⟨h, (some t, log), []⟩ ∧ Inv L (start L memory p) := by
  obtain ⟨entries, t, hloop, hcoreT, hpoolT, -⟩ : ∃ entries t,
      Heap.initBlocks (services L) ⟨memory, heapStartAddress, 4, heapStartAddress, 0⟩ (some p) 0 4 =
        (⟨entries, heapStartAddress, 4, heapStartAddress, 0⟩, some t) ∧
      t.Core L ∧ Pooled t.pmm ∧ p.pmm.clearFrames ≤ t.pmm.clearFrames + 2 * 4 :=
    Paging.initBlocks_services hcore hpool (by decide)
  obtain ⟨log, hlogged, hnew⟩ := initBlocks_logged (services L)
    ⟨memory, heapStartAddress, 4, heapStartAddress, 0⟩ (some p) [] 0 4
  rw [hloop] at hlogged
  have hstart : start L memory p =
      ⟨⟨entries, heapStartAddress, 4, heapStartAddress, initialHeapSize⟩, (some t, log), []⟩ := by
    rw [start, HeapHistory.start, Heap.init_eq hlogged]
  refine ⟨_, t, log, Heap.init_eq hloop, rfl, hstart, ?_⟩
  rw [hstart]
  refine ⟨⟨rfl, Nat.mul_comm heapBlockSize 4, ?_, fun q hq => ?_, fun v hv => ?_⟩, nofun⟩
  · change 4 ≤ 65536
    decide
  · obtain rfl := Option.some.inj hq
    exact ⟨hcoreT, hpoolT⟩
  · obtain ⟨j, hj, rfl⟩ := (hnew v hv).resolve_left List.not_mem_nil
    rw [heapStartAddress, heapBlockSize, framebufferAddress]
    omega

/-- A machine of at most 512 MiB. -/
theorem pooled_init {memHigh physicalAllocstart : Nat}
    (hbehind : PagingCall.Behind L physicalAllocstart) (hfit : physicalAllocstart ≤ memHigh)
    (hsize : memHigh ≤ 0x20000000) : Pooled (Pmm.init physicalAllocstart memHigh) := by
  have hkernel := hbehind.lt_startByte memHigh .kernel
  have hframe := hbehind.frame_lt (.user 255)
  have hlength : bitmapLength = 16384 := rfl
  have hpages : (L.frame (.user 255)).toNat = L.pageDirs.toNat + 255 := L.toNat_pageDir 255
  rw [pageFrameSize] at hframe
  refine ⟨by omega, ?_⟩
  rw [(Pmm.window_init _ _).2]
  split <;> omega

theorem core_pooled_initMemory {m : PhysicalMemory} {memHigh physicalAllocstart : Nat}
    (hbehind : PagingCall.Behind L physicalAllocstart) (hfit : physicalAllocstart ≤ memHigh)
    (hsize : memHigh ≤ 0x20000000) {s : Paging}
    (hboot : Paging.initMemory L m memHigh physicalAllocstart = some s) :
    s.Core L ∧ Pooled s.pmm := by
  rw [PagingCall.initMemory_eq_runSteps] at hboot
  exact runSteps_invariant (fun s : Paging => s.Core L ∧ Pooled s.pmm)
    (fun u call t hu henabled hcall =>
      ⟨PagingCall.core_step hu.1 henabled hcall, pooled_step hu.2 hcall⟩)
    ⟨PagingCall.core_initDirectories hbehind m memHigh, pooled_init hbehind hfit hsize⟩
    PagingCall.admissible_initCalls hboot

/-- In every run of `kmalloc` and `kfree` whose requests fit, the heap keeps to its window. -/
theorem always_within (m : PhysicalMemory) {memHigh physicalAllocstart : Nat}
    (hbehind : PagingCall.Behind L physicalAllocstart) (hfit : physicalAllocstart ≤ memHigh)
    (hsize : memHigh ≤ 0x20000000) {s₀ : Paging}
    (hboot : Paging.initMemory L m memHigh physicalAllocstart = some s₀) (memory : Bytes)
    {ops : List HeapSession.Op}
    (hgood : Admissible (HeapHistory.step (services L).logged) (Good L) (start L memory s₀) ops) :
    Always (HeapHistory.step (services L).logged) Within (start L memory s₀) ops := by
  obtain ⟨hcore, hpool⟩ := core_pooled_initMemory hbehind hfit hsize hboot
  obtain ⟨-, -, -, -, -, -, hstart⟩ := inv_start hcore hpool memory
  exact (always_of_invariant (Inv L) (fun _ _ _ h hgood hstep => h.step hgood hstep) hstart
    hgood).imp fun _ h => h.within

theorem absentTables_lt (p : Paging) (first count : Nat) :
    Paging.absentTables L p first count ≤ 1024 := by
  have hmaps : ∀ k ∈ ((Finset.range count).image fun j => heapBlockTable (first + j)).filter
      fun k => ¬ Has (p.memory L.kernelDirectory k) pageFlagPresent,
        k.toNat ∈ Finset.range 1024 := fun k _ => Finset.mem_range.mpr k.isLt
  have hinjective : Function.Injective (BitVec.toNat (w := 10)) := fun _ _ => BitVec.eq_of_toNat_eq
  exact (Finset.card_le_card_of_injOn BitVec.toNat hmaps hinjective.injOn).trans
    (Finset.card_range 1024).le

/-- Marking blocks does not change the size. Stated apart from any call, this compares no tables. -/
theorem heapSize_marked (h : Heap) (entries : Bytes) :
    ({ h with entries } : Heap).heapSize = h.heapSize := rfl

/-- The window has room for 65536 blocks. -/
theorem Within.blocks_le {s : State} (h : Within s) {n : Nat}
    (hsize : s.heap.heapSize = n * heapBlockSize) : n ≤ 65536 := by
  have hwindow : framebufferAddress = heapStartAddress + 65536 * heapBlockSize := rfl
  have hle := h.heapSize
  rw [hsize, hwindow] at hle
  exact Nat.le_of_mul_le_mul_right (Nat.le_of_add_le_add_left hle) (by decide)

/-- With 512 MiB, the first request may go past the end of the window. -/
theorem exists_outside (m : PhysicalMemory) (memory : Bytes)
    (hbehind : PagingCall.Behind L 0x1000000) :
    ∃ s₀ t, Paging.initMemory L m 0x20000000 0x1000000 = some s₀ ∧
      HeapHistory.step (services L).logged (start L memory s₀) (.kmalloc 0x10000000) = some t ∧
      ¬ Within t := by
  have hample : PagingCall.Ample 0x20000000 0x1000000 := ⟨by decide, by decide⟩
  have hwindow : 8 * (Pmm.init 0x1000000 0x20000000).endByte = 131072 ∧
      8 * (Pmm.init 0x1000000 0x20000000).startByte = 4096 := by decide
  obtain ⟨s₀, h, s, hboot, hinit, hready, hbacked, htotal, hclear⟩ :=
    Paging.exists_booted hbehind hample m memory
  obtain ⟨hcore, hpool⟩ := core_pooled_initMemory hbehind (by decide) (by decide) hboot
  obtain ⟨h', s', log, hinit', -, hstart, -⟩ := inv_start hcore hpool memory
  obtain ⟨rfl, hstate⟩ := Prod.mk.inj (hinit'.symm.trans hinit)
  obtain rfl := Option.some.inj hstate
  have hblocks : Heap.decimalTotalBlocks 0x10000000 = 65535 + 1 := by decide
  have hsearch : h'.getStartBlock (Heap.decimalTotalBlocks 0x10000000) = none := by
    rw [Heap.getStartBlock_eq_none_iff (by decide)]
    rintro ⟨first, hfirst, -⟩
    rw [hblocks] at hfirst
    omega
  obtain ⟨k, h₁, t, hexpand, happended, -, -, -, hcount⟩ :=
    hready.expandBlocks hbacked (Heap.decimalTotalBlocks 0x10000000)
  -- There are frames enough for all of the blocks, and for the tables that map them.
  have hall : k = Heap.decimalTotalBlocks 0x10000000 := by
    have htables := absentTables_lt (L := L) s' h'.totalBlocks 65535
    have hle := ((hcount k).mp le_rfl).1
    have hge := (hcount (Heap.decimalTotalBlocks 0x10000000)).mpr
    rw [hblocks, Paging.heapDemand] at hge
    rw [hblocks] at hle ⊢
    have hsupply := hge ⟨le_rfl, by omega⟩
    omega
  obtain ⟨log', hlogged⟩ := expandBlocks_logged (services L) h' (some s') log
    (Heap.decimalTotalBlocks 0x10000000)
  rw [hexpand, decide_eq_true hall] at hlogged
  rw [hall] at happended
  obtain ⟨first, hfound, hfit⟩ := happended.exists_startBlock (by decide)
  have hgrown := happended.totalBlocks
  have hfirst := hfit.1
  rw [hblocks] at hgrown hfirst
  have hcall := Heap.malloc_expanded hsearch hlogged
    (happended.startAddress.trans hready.startAddress) (by omega) hfound
  have hstep := HeapHistory.step_kmalloc (s := ⟨h', (some s', log), []⟩) hcall
  rw [← hstart] at hstep
  refine ⟨s₀, _, hboot, hstep, fun hwithin => ?_⟩
  have hsize := hwithin.blocks_le ((heapSize_marked h₁ _).trans happended.heapSize)
  omega

/-- A request for 256 MiB on a machine with 512 MiB maps pages over the framebuffer. -/
theorem not_always_within :
    ¬ ∀ (L : Layout) (m : PhysicalMemory) (memHigh physicalAllocstart : Nat) (s₀ : Paging)
        (memory : Bytes) (ops : List HeapSession.Op),
      PagingCall.Behind L physicalAllocstart → physicalAllocstart ≤ memHigh →
      memHigh ≤ 0x20000000 → Paging.initMemory L m memHigh physicalAllocstart = some s₀ →
      Always (HeapHistory.step (services L).logged) Within (start L memory s₀) ops := by
  intro hclaim
  obtain ⟨s₀, t, hboot, hstep, hout⟩ :=
    exists_outside (fun _ _ => 0) (fun _ => 0) PagingCall.behind_exampleLayout
  have halways := hclaim _ _ _ _ s₀ (fun _ => 0) [.kmalloc 0x10000000]
    PagingCall.behind_exampleLayout (by decide) (by decide) hboot
  exact hout (halways.2 t hstep)

theorem always_within_exampleLayout :
    ∃ s₀, Paging.initMemory PagingCall.exampleLayout (fun _ _ => 0) 0x20000000 0x1000000 =
        some s₀ ∧
      Always (HeapHistory.step (services PagingCall.exampleLayout).logged) Within
        (start PagingCall.exampleLayout (fun _ => 0) s₀) [.kmalloc 0x100000] := by
  have hbehind := PagingCall.behind_exampleLayout
  obtain ⟨s₀, -, hboot, -, -⟩ := exists_outside (fun _ _ => 0) (fun _ => 0) hbehind
  obtain ⟨hcore, hpool⟩ := core_pooled_initMemory hbehind (by decide) (by decide) hboot
  have hgood : Admissible (HeapHistory.step (services PagingCall.exampleLayout).logged)
      (Good PagingCall.exampleLayout) (start PagingCall.exampleLayout (fun _ => 0) s₀)
        [.kmalloc 0x100000] := by
    obtain ⟨h, t, log, -, htotal, hstart, -⟩ := inv_start hcore hpool fun _ => 0
    refine ⟨Or.inr (Or.inl ?_), fun _ _ => trivial⟩
    rw [hstart]
    dsimp only
    rw [htotal]
    decide
  exact ⟨s₀, hboot, always_within _ hbehind (by decide) (by decide) hboot _ hgood⟩

end HeapWindow

end Senob.Memory
