import Senob.Memory.PagingWalk

/-!
# The loop of `init_memory`

With enough memory behind the kernel, every page and every table of the loop is granted. Each
round takes at most two frames, and the allocator takes the lowest ones.
-/

namespace Senob.Memory

open Senob.Foundation

/-- The allocator takes the first clear frame of its window. -/
theorem Pmm.allocPageframe_first {p : Pmm} {n : Nat} (hlow : 8 * p.startByte ≤ n)
    (hclear : p.used n = false) (hhigh : n < 8 * p.endByte) (hlength : n < 8 * bitmapLength) :
    ∃ f, 8 * p.startByte ≤ f ∧ f ≤ n ∧
      p.allocPageframe = some (f * pageFrameSize, p.take f) := by
  rcases p.scanBytes_outcome p.startByte (p.endByte - p.startByte) with
    ⟨f, hstart, -, -, -, hfirst, hresult⟩ | ⟨hfull, -⟩
  · refine ⟨f, hstart, ?_, hresult⟩
    by_contra hlate
    exact Bool.false_ne_true (hclear.symm.trans (hfirst n hlow (Nat.lt_of_not_le hlate)))
  · exact absurd (hclear.symm.trans (hfull n hlow (by omega) hlength)) Bool.false_ne_true

namespace PagingCall

variable {L : Layout} {s t : Paging}

/-- The allocator at round `i`: its window is the one of `pmm_init`, and all but `n` frames at
the start of the window are clear. -/
structure Roomy (start stop n : Nat) (p : Pmm) : Prop where
  startByte : p.startByte = start
  endByte : p.endByte = stop
  clear : ∀ f, 8 * start + n ≤ f → p.used f = false

theorem Roomy.alloc {start stop n : Nat} {p : Pmm} (h : Roomy start stop n p)
    (hroom : 8 * start + n < 8 * stop) (hstop : stop ≤ bitmapLength) (hstart : 0 < start) :
    ∃ addr p', p.allocPageframe = some (addr, p') ∧ addr ≠ 0 ∧ Roomy start stop (n + 1) p' := by
  have hend := h.endByte
  have hbegin := h.startByte
  obtain ⟨f, hlow, hle, halloc⟩ := Pmm.allocPageframe_first (p := p) (n := 8 * start + n)
    (by omega) (h.clear _ le_rfl) (by omega) (by omega)
  refine ⟨_, _, halloc, ?_, hbegin, hend, fun g hg => ?_⟩
  · rw [pageFrameSize]
    omega
  · rw [Pmm.used_take, if_neg (by omega)]
    exact h.clear g (by omega)

theorem Roomy.mono {start stop n n' : Nat} {p : Pmm} (h : Roomy start stop n p) (hn : n ≤ n') :
    Roomy start stop n' p :=
  ⟨h.startByte, h.endByte, fun f hf => h.clear f (by omega)⟩

theorem Roomy.tableStep {start stop n : Nat} {p p' : Pmm} (h : Roomy start stop n p)
    (hroom : 8 * start + n < 8 * stop) (hstop : stop ≤ bitmapLength) (hstart : 0 < start)
    {m m' : PhysicalMemory} {D : Dir} {k : Index} {flags : Word} {F : Frame}
    (hstep : Paging.TableStep L m p D k flags F m' p') : Roomy start stop (n + 1) p' := by
  cases hstep with
  | present hpresent => exact h.mono (Nat.le_succ n)
  | created habsent ptPaddr p' halloc =>
      obtain ⟨addr, q, hq, -, hroomy⟩ := h.alloc hroom hstop hstart
      obtain ⟨-, rfl⟩ := Prod.mk.inj (Option.some.inj (hq.symm.trans halloc))
      exact hroomy

/-- The state before round `i` of the loop. Only eight entries of the directory are filled. -/
structure InitRound (L : Layout) (start stop i : Nat) (s : Paging) : Prop where
  translating : Translating L s
  current : s.cr3 = L.kernelDirectory
  unused : s.pageDirsUsed = fun _ => false
  roomy : Roomy start stop (2 * i) s.pmm
  entries : ∀ k : Index, Paging.Owns .kernel k → k.toNat < 780 ∨ 788 ≤ k.toNat →
    s.memory L.kernelDirectory k = 0

theorem InitRound.step {start stop i : Nat} (h : InitRound L start stop i s) (hi : i < 8192)
    (hroom : start + 2048 < stop) (hstop : stop ≤ bitmapLength) (hstart : 0 < start) :
    Ordered L s (mapNewFrame (initPage i) (pageFlagPresent ||| pageFlagWrite)) ∧
      ∃ t, PagingCall.step L s (mapNewFrame (initPage i) (pageFlagPresent ||| pageFlagWrite)) =
          some t ∧ InitRound L start stop (i + 1) t := by
  obtain ⟨addr, pmm, halloc, -, hroomy⟩ := h.roomy.alloc (by omega) hstop hstart
  obtain ⟨addr', pmm', halloc', hne, -⟩ := hroomy.alloc (by omega) hstop hstart
  -- One frame for the page, and one more in case its table is not there yet.
  have hsupplied : TableSupplied L { s with pmm := pmm } (initPage i) :=
    Or.inr ⟨addr', pmm', halloc', hne⟩
  have hordered : Ordered L s
      (mapNewFrame (initPage i) (pageFlagPresent ||| pageFlagWrite)) := by
    have hplain : PlainFlags (pageFlagPresent ||| pageFlagWrite) := by decide
    refine ⟨enabled_initCall hi s, ⟨by decide, fun a q hq => ?_⟩, hplain⟩
    obtain ⟨rfl, rfl⟩ := Prod.mk.inj (Option.some.inj (halloc.symm.trans hq))
    exact hsupplied.granted
  obtain ⟨t, hcall⟩ := hsupplied.memMapPage (BitVec.ofNat 32 addr)
    (pageFlagPresent ||| pageFlagWrite)
  have hstep : PagingCall.step L s
      (mapNewFrame (initPage i) (pageFlagPresent ||| pageFlagWrite)) = some t := by
    rw [PagingCall.step, Paging.mapNewFrame, halloc]
    exact hcall
  have ht := h.translating.step hordered.1 hordered.2.1 hordered.2.2 hstep
  refine ⟨hordered, t, hstep, ?_⟩
  have hcore := h.translating.coherent.core.of_pmm (Paging.startByte_allocPageframe halloc)
  obtain ⟨D, hD⟩ := hcore.edits (enabled_initCall (L := L) hi { s with pmm := pmm }).1
  obtain ⟨F, m, q, htable, rfl⟩ := Paging.memMapPage_cases hcore hD (by decide) hcall
  refine ⟨ht, h.current, h.unused, ?_, fun k hk hother => ?_⟩
  · rw [show 2 * (i + 1) = 2 * i + 1 + 1 by omega]
    exact hroomy.tableStep (by omega) hstop hstart htable
  · obtain ⟨-, hlow, hhigh⟩ := initPage_bounds hi
    have hne : k ≠ pdIndex (initPage i) := by
      rintro rfl
      omega
    have hentry : m (L.frame .kernel) k = s.memory (L.frame .kernel) k :=
      htable.dirs hcore (Or.inr hne)
    have hsynced := Paging.synced_owned (L := L) s.pageDirsUsed (initPage i)
      (m.write F (ptIndex (initPage i))
        (BitVec.ofNat 32 addr ||| pageFlagPresent ||| (pageFlagPresent ||| pageFlagWrite))) hk
    refine hsynced.trans ?_
    rw [PhysicalMemory.write_of_ne _ (Or.inl (htable.apart hcore hD.owns .kernel).symm)]
    exact hentry.trans (h.entries k hk hother)

/-- There are eight mebibytes and more behind the kernel, and all memory is in the bitmap. -/
structure Ample (memHigh physicalAllocstart : Nat) : Prop where
  room : (Pmm.init physicalAllocstart memHigh).startByte + 2048 <
    (Pmm.init physicalAllocstart memHigh).endByte
  fits : (Pmm.init physicalAllocstart memHigh).endByte ≤ bitmapLength

theorem ample_example : Ample 0x8000000 0x1000000 := ⟨by decide, by decide⟩

theorem initRound_initDirectories {physicalAllocstart : Nat}
    (hbehind : Behind L physicalAllocstart) (m : PhysicalMemory) (memHigh : Nat) :
    InitRound L (Pmm.init physicalAllocstart memHigh).startByte
      (Pmm.init physicalAllocstart memHigh).endByte 0
      (Paging.initDirectories L m memHigh physicalAllocstart) := by
  refine ⟨translating_initDirectories hbehind m memHigh, rfl, rfl, ⟨rfl, rfl, fun f _ => ?_⟩,
    fun k hk _ => initDirectories_owned (D := .kernel) m memHigh physicalAllocstart hk⟩
  exact BitVec.getLsbD_zero

/-- With ample memory, `init_memory` returns, and no allocation of its loop fails. -/
theorem initMemory_ordered {memHigh physicalAllocstart : Nat}
    (hbehind : Behind L physicalAllocstart) (hample : Ample memHigh physicalAllocstart)
    (m : PhysicalMemory) :
    Admissible (step L) (Ordered L) (Paging.initDirectories L m memHigh physicalAllocstart)
        initCalls ∧
      ∃ s, runSteps (step L) (Paging.initDirectories L m memHigh physicalAllocstart) initCalls =
          some s ∧
        InitRound L (Pmm.init physicalAllocstart memHigh).startByte
          (Pmm.init physicalAllocstart memHigh).endByte 8192 s := by
  have hstart : 0 < (Pmm.init physicalAllocstart memHigh).startByte := by
    have hbelow := hbehind.lt_startByte memHigh .kernel
    omega
  unfold initCalls
  exact runSteps_range _ (fun i hi s h => h.step hi hample.room hample.fits hstart)
    (initRound_initDirectories hbehind m memHigh)

end PagingCall

end Senob.Memory
