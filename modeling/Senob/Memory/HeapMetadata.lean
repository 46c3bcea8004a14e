import Senob.Memory.HeapRuns

/-!
# The block table and the blocks

`heap_init` places the block table and the managed area at the same address, so
the first allocation that succeeds returns the memory of the table itself. A run
keeps the table apart from the allocations exactly when it serves none of them.
-/

namespace Senob.Memory

open Senob.Foundation

namespace HeapSession

/-- No live allocation shares a byte with the block table. -/
def MetadataDisjoint (s : HeapSession) : Prop :=
  ∀ a ∈ s.live, ∀ byte, a.ptr ≤ byte → byte < a.ptr + a.size →
    ¬ (s.heap.entriesAddress ≤ byte ∧ byte < s.heap.entriesAddress + s.heap.totalBlocks)

/-- The operation is not an allocation that the heap can serve. -/
def Unserved (s : HeapSession) : Op → Prop
  | .kmalloc size => s.heap.Refused s.frames (Heap.decimalTotalBlocks size)
  | .kfree _ => True

theorem expandBlocks_refused {h : Heap} {frames : List Nat} {left : Nat}
    (hleft : Heap.available frames < left) :
    ∃ h' frames', h.expandBlocks Heap.oracle frames left = (false, h', frames') := by
  induction left generalizing h frames with
  | zero => omega
  | succ left ih =>
      match frames with
      | [] => exact ⟨h, [], by simp [Heap.expandBlocks, Heap.oracle]⟩
      | answer :: rest =>
          by_cases hans : answer = 0
          · exact ⟨h, rest, by simp [Heap.expandBlocks, Heap.oracle, hans]⟩
          · have havail : Heap.available (answer :: rest) = Heap.available rest + 1 := by
              simp [Heap.available, hans]
            have hrest : Heap.available rest < left := by omega
            simpa [Heap.expandBlocks, Heap.oracle, hans] using ih hrest

/-- A refused request returns the null pointer, whatever the table holds. -/
theorem kmalloc_refused {h : Heap} {frames : List Nat} {size : Nat}
    (href : h.Refused frames (Heap.decimalTotalBlocks size)) :
    (h.kmalloc Heap.oracle frames size).1 = 0 := by
  have hargs : Heap.decimalTotalBlocks size * heapBlockSize % 2 ^ 32 / heapBlockSize =
      Heap.decimalTotalBlocks size := by
    have := Heap.decimalTotalBlocks_lt size
    simp only [heapBlockSize]
    omega
  rcases Nat.eq_zero_or_pos (Heap.decimalTotalBlocks size) with hzero | hpos
  · simp [Heap.kmalloc, Heap.malloc, hzero, Heap.getStartBlock_zero, Heap.expand,
      Heap.expandBlocks]
  · obtain hzero | ⟨hnone, havail⟩ := href
    · omega
    have hfit := h.getStartBlock_firstFit hpos
    cases hsearch : h.getStartBlock (Heap.decimalTotalBlocks size) with
    | some s =>
        rw [hsearch] at hfit
        exact absurd hfit.2.1 (hnone s hfit.1)
    | none =>
        obtain ⟨h', frames', hres⟩ := expandBlocks_refused (h := h) havail
        simp only [Heap.kmalloc, Heap.malloc, hsearch, Heap.expand, hargs, hres]

theorem step_unserved {s t : HeapSession} {op : Op} (hlive : s.live = [])
    (hop : s.Unserved op) (hstep : s.step op = some t) : t.live = [] := by
  cases op with
  | kmalloc size =>
      rcases hcall : s.heap.kmalloc Heap.oracle s.frames size with ⟨ptr, heap, frames⟩
      have hnull : ptr = 0 := by
        have := kmalloc_refused hop
        rwa [hcall] at this
      rw [step_kmalloc hcall, if_pos hnull] at hstep
      obtain rfl := Option.some.inj hstep
      exact hlive
  | kfree ptr =>
      obtain rfl := Option.some.inj hstep
      simp [hlive]

/-- A heap without allocations: every block of its table is free. -/
structure Idle (s : HeapSession) : Prop where
  live : s.live = []
  startAddress : s.heap.startAddress = heapStartAddress
  entriesAddress : s.heap.entriesAddress = heapStartAddress
  heapSize : s.heap.heapSize = s.heap.totalBlocks * heapBlockSize
  supply : s.heap.totalBlocks + Heap.grants s.frames ≤ 131072
  free : ∀ i < s.heap.totalBlocks, s.heap.entries i = heapBlockTableEntryFree

theorem start_idle (memory : Bytes) {frames : List Nat} (hinit : 4 ≤ Heap.available frames)
    (hsupply : Heap.grants frames ≤ 131072) : (start memory frames).Idle := by
  obtain ⟨h, frames', hres, htotal, hstart, hentries, hsize, hfree, hgrants⟩ :=
    Heap.init_spec memory hinit
  have hsession : start memory frames = ⟨h, frames', []⟩ := by simp [start, hres]
  rw [hsession]
  refine ⟨rfl, hstart, hentries, hsize, ?_, fun i hi => hfree i (by dsimp only at hi; omega)⟩
  dsimp only
  omega

/-- An idle heap serves a request from block zero, which is where the table is. -/
theorem Idle.kmalloc {s : HeapSession} (h : s.Idle) (size : Nat) :
    ∃ t, s.step (.kmalloc size) = some t ∧
      (s.Unserved (.kmalloc size) ∧ t.Idle ∨ ¬ t.MetadataDisjoint) := by
  obtain ⟨k, heap, frames, happ, hsupply, hres⟩ :=
    Heap.malloc_outcome size h.startAddress h.heapSize h.supply
  have htotal := happ.totalBlocks
  have hfree : ∀ i < heap.totalBlocks, heap.entries i = heapBlockTableEntryFree := by
    intro i hi
    rcases Nat.lt_or_ge i s.heap.totalBlocks with hold | hnew
    · rw [happ.old i hold, h.free i hold]
    · exact happ.new i hnew (by omega)
  rcases hres with ⟨hpos, first, hfit, hres⟩ | ⟨hrefused, hres⟩
  · refine ⟨_, step_kmalloc hres, Or.inr ?_⟩
    have hfirst : first = 0 := by
      by_contra hne
      have hend := hfit.1
      exact hfit.2.2 0 (by omega) fun j hj => hfree _ (by omega)
    have hsize : 0 < size := by
      by_contra hzero
      obtain rfl : size = 0 := by omega
      exact absurd hpos (by decide)
    have hnull : heapStartAddress + 0 * heapBlockSize ≠ 0 := by decide
    subst hfirst
    rw [if_neg hnull]
    intro hdisj
    have hend := hfit.1
    refine hdisj ⟨heapStartAddress + 0 * heapBlockSize, size⟩ List.mem_cons_self
      heapStartAddress (by simp) ?_ ?_
    · dsimp only
      omega
    · rw [happ.entriesAddress, h.entriesAddress]
      dsimp only
      omega
  · refine ⟨_, step_kmalloc hres, Or.inl ⟨hrefused, ?_⟩⟩
    have hbound := h.supply
    rw [if_pos rfl]
    exact ⟨h.live, happ.startAddress.trans h.startAddress,
      happ.entriesAddress.trans h.entriesAddress, happ.heapSize, by dsimp only; omega, hfree⟩

theorem Idle.kfree {s : HeapSession} (h : s.Idle) (ptr : Nat) :
    ∃ t, s.step (.kfree ptr) = some t ∧ t.Idle := by
  have hbound := h.supply
  have hfree := Heap.freeRun_of_free h.free
    ((s.heap.addressToBlock ptr % 2 ^ 32).toNat)
    (s.heap.totalBlocks - (s.heap.addressToBlock ptr % 2 ^ 32).toNat)
  obtain ⟨heap, frames, hres, hcon, hsame⟩ := Heap.contract_contracted Heap.oracle
    (h := s.heap.markBlocksFree (s.heap.addressToBlock ptr)) s.frames h.heapSize
    (by dsimp only [Heap.markBlocksFree]; omega)
  obtain rfl := hsame fun _ _ => rfl
  have htotal : heap.totalBlocks ≤ s.heap.totalBlocks := hcon.totalBlocks_le
  refine ⟨⟨heap, s.frames, []⟩, ?_, rfl, hcon.startAddress.trans h.startAddress,
    hcon.entriesAddress.trans h.entriesAddress, hcon.heapSize, by dsimp only; omega, ?_⟩
  · simp [step, Heap.kfree, Heap.free, hres, h.live]
  · intro i hi
    rw [hcon.entries]
    exact hfree i (by dsimp only at hi; omega)

/-- In every run of `kmalloc` and `kfree` whose requests are all refused, no live
allocation meets the table; and when the four frames of `heap_init` were granted,
only such runs keep them apart. -/
theorem metadata_disjoint_iff (memory : Bytes) (frames : List Nat) (ops : List Op) :
    (Admissible step Unserved (start memory frames) ops →
      Always step MetadataDisjoint (start memory frames) ops) ∧
    (4 ≤ Heap.available frames → Heap.grants frames ≤ 131072 →
      Always step MetadataDisjoint (start memory frames) ops →
      Admissible step Unserved (start memory frames) ops) := by
  constructor
  · intro hops
    have hempty := always_of_invariant (fun s => s.live = [])
      (fun s op t hs hop ht => step_unserved hs hop ht) (s := start memory frames) rfl hops
    exact hempty.imp fun s hs a ha => by simp [hs] at ha
  · intro hinit hsupply halways
    have hidle := start_idle memory hinit hsupply
    generalize start memory frames = s at halways hidle
    clear hinit hsupply
    induction ops generalizing s with
    | nil => trivial
    | cons op rest ih =>
        cases op with
        | kmalloc size =>
            obtain ⟨t, hstep, ⟨hunserved, ht⟩ | hbad⟩ := hidle.kmalloc size
            · refine ⟨hunserved, fun t' ht' => ?_⟩
              obtain rfl := Option.some.inj (hstep.symm.trans ht')
              exact ih t (halways.2 t hstep) ht
            · exact absurd (halways.2 t hstep).head hbad
        | kfree ptr =>
            obtain ⟨t, hstep, ht⟩ := hidle.kfree ptr
            refine ⟨trivial, fun t' ht' => ?_⟩
            obtain rfl := Option.some.inj (hstep.symm.trans ht')
            exact ih t (halways.2 t hstep) ht

/-- The first `kmalloc(1)` after `heap_init` returns the address of the table. -/
theorem first_kmalloc_overlaps_table :
    ¬ ∀ (memory : Bytes) (frames : List Nat) (ops : List Op),
      4 ≤ Heap.available frames → Heap.grants frames ≤ 131072 →
      Always step MetadataDisjoint (start memory frames) ops := by
  intro h
  have halways := h (fun _ => 0) [0x1000000, 0x1001000, 0x1002000, 0x1003000] [.kmalloc 1]
    (by decide) (by decide)
  have hdisj : MetadataDisjoint _ := halways.2 _ rfl
  exact hdisj ⟨0xD0000000, 1⟩ List.mem_cons_self 0xD0000000 (by decide) (by decide) (by decide)

end HeapSession

end Senob.Memory
