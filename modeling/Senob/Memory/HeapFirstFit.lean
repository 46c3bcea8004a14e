import Mathlib.Order.Bounds.Basic
import Senob.Memory.HeapRuns

/-!
# First fit on an unbounded tape

The heap over any frame allocator that supplies every frame it is asked for. The table is
then only a window onto an unbounded tape of blocks, and `kmalloc` is the first fit on that
tape: expanding and contracting the window never shows in an address. The heap of such a run
is compared with that of a session whose allocator answers from a list that is long enough.
-/

namespace Senob.Memory

open Senob.Foundation

section Supply

variable {ε : Type*}

/-- The allocator never refuses. -/
def PageServices.Supplies (svc : PageServices ε) : Prop :=
  ∀ env, (svc.pmmAllocPageframe env).1 ≠ 0

namespace Heap

variable (svc : PageServices ε)

/-- Frames for `k` blocks, as a list of answers. -/
def supply (k : Nat) : List Nat := List.replicate k 1

@[simp] theorem grants_supply (k : Nat) : grants (supply k) = k := by
  simp [grants, supply]

@[simp] theorem available_supply (k : Nat) : available (supply k) = k := by
  simp [available, supply]

/-! ## Independence of the allocator -/

variable {svc}

/-- With enough frames, the table after an expansion does not depend on who supplies
them. -/
theorem expandBlocks_supplied (hsvc : svc.Supplies) (h : Heap) (env : ε) (left : Nat) :
    (expandBlocks svc h env left).1 = (expandBlocks oracle h (supply left) left).1 ∧
      (expandBlocks svc h env left).2.1 = (expandBlocks oracle h (supply left) left).2.1 := by
  induction left generalizing h env with
  | zero => exact ⟨rfl, rfl⟩
  | succ left ih =>
      have hanswer : oracle.pmmAllocPageframe (supply (left + 1)) = (1, supply left) := rfl
      simp only [expandBlocks, if_neg (hsvc env), hanswer, one_ne_zero, if_false]
      exact ih _ _

/-- If the search succeeds or there is a frame for each block, the outcome of `kmalloc` does
not depend on who supplies the frames. -/
theorem malloc_supplied (hsvc : svc.Supplies) (h : Heap) (env : ε) (size : Nat)
    {frames : List Nat}
    (hframes : h.getStartBlock (decimalTotalBlocks size) ≠ none ∨
      frames = supply (decimalTotalBlocks size)) :
    (h.malloc svc env size).1 = (h.malloc oracle frames size).1 ∧
      (h.malloc svc env size).2.1 = (h.malloc oracle frames size).2.1 := by
  have hlt := decimalTotalBlocks_lt size
  have hargs : decimalTotalBlocks size * heapBlockSize % 2 ^ 32 / heapBlockSize =
      decimalTotalBlocks size := by
    simp only [heapBlockSize]
    omega
  unfold malloc
  dsimp only
  cases hsearch : h.getStartBlock (decimalTotalBlocks size) with
  | some s => exact ⟨rfl, rfl⟩
  | none =>
      obtain rfl := hframes.resolve_left (not_not_intro hsearch)
      obtain ⟨hdone, hheap⟩ := expandBlocks_supplied hsvc h env (decimalTotalBlocks size)
      simp only [expand, hargs]
      rcases hcall : expandBlocks svc h env (decimalTotalBlocks size) with ⟨done, h₁, env₁⟩
      rcases horacle : expandBlocks oracle h (supply (decimalTotalBlocks size))
        (decimalTotalBlocks size) with ⟨done', h₂, frames₂⟩
      rw [hcall, horacle] at hdone hheap
      dsimp only at hdone hheap
      subst hdone hheap
      cases done with
      | false => exact ⟨rfl, rfl⟩
      | true =>
          dsimp only
          split
          · exact ⟨rfl, rfl⟩
          · exact ⟨rfl, rfl⟩

theorem contractBlocks_heap (svc : PageServices ε) (h : Heap) (env : ε) (frames : List Nat)
    (last : Nat) :
    (contractBlocks svc h env last).1 = (contractBlocks oracle h frames last).1 := by
  induction last generalizing h env frames with
  | zero => rfl
  | succ last ih =>
      unfold contractBlocks
      split
      next _ => exact ih _ _ _
      next _ => rfl

/-- Nor does the table after `kfree`. -/
theorem kfree_heap (svc : PageServices ε) (h : Heap) (env : ε) (frames : List Nat) (ptr : Nat) :
    (h.kfree svc env ptr).1 = (h.kfree oracle frames ptr).1 :=
  contractBlocks_heap svc _ env frames _

theorem init_heap (hsvc : svc.Supplies) (memory : Bytes) (env : ε) :
    (init svc memory env).1 = (init oracle memory (supply 4)).1 := by
  have hinit : ∀ (left : Nat) (h : Heap) (env : ε) (i : Nat),
      (initBlocks svc h env i left).1 = (initBlocks oracle h (supply left) i left).1 := by
    intro left
    induction left with
    | zero => intros; rfl
    | succ left ih =>
        intro h env i
        have hanswer : oracle.pmmAllocPageframe (supply (left + 1)) = (1, supply left) := rfl
        simp only [initBlocks, if_neg (hsvc env), hanswer, one_ne_zero, if_false]
        exact ih _ _ _
  have hfour : initialHeapSize / heapBlockSize = 4 := by decide
  simp only [init, hfour]
  rw [hinit]

end Heap

end Supply

/-! ## Histories -/

/-- The heap over the state of an allocator, with the ledger of the live allocations. -/
structure HeapHistory (ε : Type*) where
  heap : Heap
  env : ε
  live : List Allocation

namespace HeapHistory

variable {ε : Type*} (svc : PageServices ε)

def step (s : HeapHistory ε) : HeapSession.Op → Option (HeapHistory ε)
  | .kmalloc size =>
      let (ptr, heap, env) := s.heap.kmalloc svc s.env size
      some ⟨heap, env, if ptr = 0 then s.live else ⟨ptr, size⟩ :: s.live⟩
  | .kfree ptr =>
      let (heap, env) := s.heap.kfree svc s.env ptr
      some ⟨heap, env, s.live.filter fun a => a.ptr ≠ ptr⟩

variable {svc} in
theorem step_kmalloc {s : HeapHistory ε} {size ptr : Nat} {heap : Heap} {env : ε}
    (h : s.heap.kmalloc svc s.env size = (ptr, heap, env)) :
    s.step svc (.kmalloc size) =
      some ⟨heap, env, if ptr = 0 then s.live else ⟨ptr, size⟩ :: s.live⟩ := by
  simp only [step, h]

/-- Sizes are 32-bit words, the table stays within the capacity of the frame allocator, and
only live pointers are freed. -/
def enabled (s : HeapHistory ε) : HeapSession.Op → Prop
  | .kmalloc size =>
      size < 2 ^ 32 ∧ (s.heap.kmalloc svc s.env size).2.1.totalBlocks ≤ 131072
  | .kfree ptr => ∃ a ∈ s.live, a.ptr = ptr

instance (s : HeapHistory ε) : ∀ op, Decidable (s.enabled svc op)
  | .kmalloc _ => inferInstanceAs (Decidable (_ ∧ _))
  | .kfree ptr => inferInstanceAs (Decidable (∃ a ∈ s.live, a.ptr = ptr))

/-- The history right after `heap_init`. -/
def start (memory : Bytes) (env : ε) : HeapHistory ε :=
  let (heap, env) := Heap.init svc memory env
  ⟨heap, env, []⟩

/-- The pointers that a sequence of `kmalloc` calls returns. -/
def addresses (s : HeapHistory ε) : List Nat → List Nat
  | [] => []
  | size :: rest =>
      let (ptr, heap, env) := s.heap.kmalloc svc s.env size
      ptr :: addresses ⟨heap, env, if ptr = 0 then s.live else ⟨ptr, size⟩ :: s.live⟩ rest

/-- Block `i` belongs to a live allocation. -/
def Occupied (s : HeapHistory ε) (i : Nat) : Prop := ∃ a ∈ s.live, a.Covers i

/-- On the unbounded tape, the `n` blocks from `first` on avoid all live allocations. -/
def Avoids (s : HeapHistory ε) (n first : Nat) : Prop :=
  ∀ i, first ≤ i → i < first + n → ¬ s.Occupied i

/-- Any `kmalloc` of at least one block returns the first fit on the tape. -/
def FirstFits (s : HeapHistory ε) : Prop :=
  ∀ size, 0 < size → size + 4095 < 2 ^ 32 → s.enabled svc (.kmalloc size) →
    ∃ first, IsLeast {f | s.Avoids ((size + 4095) / 4096) f} first ∧
      (s.heap.kmalloc svc s.env size).1 = s.heap.startAddress + 4096 * first

/-- The session with the same table whose allocator answers from a list. -/
def session (s : HeapHistory ε) (frames : List Nat) : HeapSession := ⟨s.heap, frames, s.live⟩

/-- The table is a picture of the live allocations. -/
def Wf (s : HeapHistory ε) : Prop := (s.session []).Wf

variable {svc}

theorem wf_of_session {s : HeapHistory ε} {frames : List Nat} (h : (s.session frames).Wf) :
    s.Wf :=
  ⟨h.startAddress, h.heapSize, le_trans (Nat.add_le_add_left (Nat.zero_le _) _) h.supply,
    h.placed, h.disjoint, h.run, h.free⟩

theorem start_wf (hsvc : svc.Supplies) (memory : Bytes) (env : ε) : (start svc memory env).Wf := by
  have hsession : (start svc memory env).session
      (HeapSession.start memory (Heap.supply 4)).frames =
        HeapSession.start memory (Heap.supply 4) := by
    have hheap : (start svc memory env).heap =
        (HeapSession.start memory (Heap.supply 4)).heap := Heap.init_heap hsvc memory env
    simp only [session, hheap]
    rfl
  apply wf_of_session
  rw [hsession]
  exact HeapSession.start_wf (by simp) (by simp)

/-! ## Placement -/

theorem Wf.free_iff {s : HeapHistory ε} (h : s.Wf) {i : Nat} (hi : i < s.heap.totalBlocks) :
    s.heap.entries i = heapBlockTableEntryFree ↔ ¬ s.Occupied i := by
  constructor
  · rintro hfree ⟨a, ha, hcovers⟩
    exact Heap.runEntry_ne_free _ _ _ ((h.run a ha i hcovers).symm.trans hfree)
  · intro hempty
    exact h.free i hi fun a ha hcovers => hempty ⟨a, ha, hcovers⟩

/-- A first fit in the table is one on the tape: what lies before it lies in the table. -/
theorem Wf.isLeast {s : HeapHistory ε} (h : s.Wf) {n first : Nat}
    (hfit : Heap.FirstFit s.heap.entries n s.heap.totalBlocks (some first)) :
    IsLeast {f | s.Avoids n f} first := by
  obtain ⟨hend, hrun, hleast⟩ := hfit
  constructor
  · intro i hlow hhigh
    have hfree := hrun (i - first) (by omega)
    rw [show first + (i - first) = i by omega] at hfree
    exact (h.free_iff (by omega)).mp hfree
  · intro f hf
    by_contra hlt
    refine hleast f (by omega) fun j hj => ?_
    exact (h.free_iff (by omega)).mpr (hf (f + j) (by omega) (by omega))

/-- When nothing is found, the table grows by the whole request. -/
theorem malloc_totalBlocks (hsvc : svc.Supplies) (h : Heap) (env : ε) (size : Nat)
    (htotal : h.totalBlocks ≤ 131072)
    (hsearch : h.getStartBlock (Heap.decimalTotalBlocks size) = none) :
    (h.malloc svc env size).2.1.totalBlocks =
      h.totalBlocks + Heap.decimalTotalBlocks size := by
  -- Every round gets a frame, and appends a block.
  have hgrow : ∀ (left : Nat) (h : Heap) (env : ε), h.totalBlocks + left < 2 ^ 32 →
      (Heap.expandBlocks svc h env left).1 = true ∧
        (Heap.expandBlocks svc h env left).2.1.totalBlocks = h.totalBlocks + left := by
    intro left
    induction left with
    | zero => intro h env _; exact ⟨rfl, rfl⟩
    | succ left ih =>
        intro h env hlt
        simp only [Heap.expandBlocks, if_neg (hsvc env)]
        obtain ⟨hdone, hblocks⟩ := ih
          { h with
            entries := Function.update h.entries h.totalBlocks heapBlockTableEntryFree
            totalBlocks := (h.totalBlocks + 1) % 2 ^ 32
            heapSize := (h.heapSize + heapBlockSize) % 2 ^ 32 }
          (svc.memMapPage ((heapStartAddress + h.heapSize) % 2 ^ 32)
            (svc.pmmAllocPageframe env).1 heapPageFlags (svc.pmmAllocPageframe env).2)
          (by dsimp only; omega)
        refine ⟨hdone, hblocks.trans ?_⟩
        dsimp only
        omega
  have hlt := Heap.decimalTotalBlocks_lt size
  have hargs : Heap.decimalTotalBlocks size * heapBlockSize % 2 ^ 32 / heapBlockSize =
      Heap.decimalTotalBlocks size := by
    simp only [heapBlockSize]
    omega
  obtain ⟨hdone, hblocks⟩ := hgrow (Heap.decimalTotalBlocks size) h env (by omega)
  simp only [Heap.malloc, hsearch, Heap.expand, hargs]
  rcases hcall : Heap.expandBlocks svc h env (Heap.decimalTotalBlocks size) with ⟨done, h₁, env₁⟩
  rw [hcall] at hdone hblocks
  dsimp only at hdone hblocks
  subst hdone
  dsimp only
  cases hagain : h₁.getStartBlock (Heap.decimalTotalBlocks size) with
  | none => exact hblocks
  | some first => simpa only [Heap.mallocBlocks, hagain] using hblocks

/-- What `kmalloc` does: a request for blocks gets the first fit on the tape, and one for
none the null pointer. -/
structure Placed (svc : PageServices ε) (s : HeapHistory ε) (size : Nat) (t : HeapHistory ε) :
    Prop where
  wf : t.Wf
  null : Heap.decimalTotalBlocks size = 0 → (s.heap.kmalloc svc s.env size).1 = 0
  found : 0 < Heap.decimalTotalBlocks size → ∃ first,
    IsLeast {f | s.Avoids (Heap.decimalTotalBlocks size) f} first ∧
      (s.heap.kmalloc svc s.env size).1 = heapStartAddress + first * heapBlockSize

theorem Wf.kmalloc (hsvc : svc.Supplies) {s : HeapHistory ε} (h : s.Wf) {size : Nat}
    (hop : s.enabled svc (.kmalloc size)) :
    ∃ t, s.step svc (.kmalloc size) = some t ∧ Placed svc s size t := by
  obtain ⟨hsize, hcapacity⟩ := hop
  set n := Heap.decimalTotalBlocks size with hn
  have htotal : s.heap.totalBlocks ≤ 131072 := le_trans (Nat.le_add_right _ _) h.supply
  -- The frames that this call may need.
  obtain ⟨frames, hbound, hframes⟩ : ∃ frames, s.heap.totalBlocks + Heap.grants frames ≤ 131072 ∧
      (s.heap.getStartBlock n ≠ none ∨ frames = Heap.supply n) := by
    by_cases hsearch : s.heap.getStartBlock n = none
    · refine ⟨Heap.supply n, ?_, Or.inr rfl⟩
      have hgrown := malloc_totalBlocks hsvc s.heap s.env size htotal hsearch
      unfold Heap.kmalloc at hcapacity
      rw [Heap.grants_supply]
      omega
    · exact ⟨[], htotal, Or.inl hsearch⟩
  have hsession : (s.session frames).Wf :=
    ⟨h.startAddress, h.heapSize, hbound, h.placed, h.disjoint, h.run, h.free⟩
  obtain ⟨hptr, hheap⟩ := Heap.malloc_supplied hsvc s.heap s.env size hframes
  obtain ⟨t, ht, hwf⟩ := hsession.kmalloc hsize
  rcases horacle : s.heap.kmalloc Heap.oracle frames size with ⟨ptr, heap, frames'⟩
  have hstep : (s.session frames).step (.kmalloc size) =
      some ⟨heap, frames', if ptr = 0 then s.live else ⟨ptr, size⟩ :: s.live⟩ :=
    HeapSession.step_kmalloc horacle
  obtain rfl := Option.some.inj (ht.symm.trans hstep)
  rcases hcall : s.heap.kmalloc svc s.env size with ⟨ptr', heap', env'⟩
  unfold Heap.kmalloc at horacle hcall
  rw [horacle, hcall] at hptr hheap
  dsimp only at hptr hheap
  subst hptr hheap
  refine ⟨⟨heap', env', if ptr' = 0 then s.live else ⟨ptr', size⟩ :: s.live⟩, ?_,
    wf_of_session hwf, ?_, ?_⟩
  · simp only [step, Heap.kmalloc, hcall]
  all_goals
    obtain ⟨k, h₁, frames₁, happ, hsupply, hres⟩ :=
      Heap.malloc_outcome (h := s.heap) size h.startAddress h.heapSize hbound
    rw [horacle] at hres
  · intro hzero
    rcases hres with ⟨hpos, -⟩ | ⟨-, hres⟩
    · exact absurd hzero (Nat.pos_iff_ne_zero.mp hpos)
    · simp only [Heap.kmalloc, hcall, (Prod.mk.inj hres).1]
  · intro hpos
    rcases hres with ⟨-, first, hfit, hres⟩ | ⟨hrefused, -⟩
    · have hgrown : HeapHistory.Wf (⟨h₁, s.env, s.live⟩ : HeapHistory ε) :=
        wf_of_session (hsession.append happ hsupply)
      refine ⟨first, hgrown.isLeast hfit, ?_⟩
      simp only [Heap.kmalloc, hcall, (Prod.mk.inj hres).1]
    · exfalso
      rcases hrefused with hzero | ⟨hnone, havail⟩
      · exact absurd hzero (Nat.pos_iff_ne_zero.mp hpos)
      · rcases hframes with hsearch | rfl
        · obtain ⟨first, hfirst⟩ := Option.ne_none_iff_exists'.mp hsearch
          have hfit := s.heap.getStartBlock_firstFit hpos
          rw [hfirst] at hfit
          exact hnone first hfit.1 hfit.2.1
        · rw [Heap.available_supply] at havail
          exact absurd havail (lt_irrefl _)

theorem Wf.kfree (svc : PageServices ε) {s : HeapHistory ε} (h : s.Wf) {a : Allocation}
    (ha : a ∈ s.live) : ∃ t, s.step svc (.kfree a.ptr) = some t ∧ t.Wf := by
  obtain ⟨t, ht, hwf, -⟩ := HeapSession.Wf.kfree h ha
  rcases horacle : s.heap.kfree Heap.oracle [] a.ptr with ⟨heap, frames⟩
  have hstep : (s.session []).step (.kfree a.ptr) =
      some ⟨heap, frames, s.live.filter fun b => b.ptr ≠ a.ptr⟩ := by
    simp only [session, HeapSession.step, horacle]
  obtain rfl := Option.some.inj (ht.symm.trans hstep)
  rcases hcall : s.heap.kfree svc s.env a.ptr with ⟨heap', env'⟩
  have hheap := Heap.kfree_heap svc s.heap s.env [] a.ptr
  rw [hcall, horacle] at hheap
  dsimp only at hheap
  subst hheap
  refine ⟨⟨heap', env', s.live.filter fun b => b.ptr ≠ a.ptr⟩, ?_, wf_of_session hwf⟩
  simp only [step, hcall]

/-! ## Runs -/

theorem Wf.step (hsvc : svc.Supplies) {s : HeapHistory ε} (h : s.Wf) {op : HeapSession.Op}
    (hop : s.enabled svc op) : ∃ t, s.step svc op = some t ∧ t.Wf := by
  cases op with
  | kmalloc size =>
      obtain ⟨t, ht, hplaced⟩ := h.kmalloc hsvc hop
      exact ⟨t, ht, hplaced.wf⟩
  | kfree ptr =>
      obtain ⟨a, ha, rfl⟩ := hop
      exact h.kfree svc ha

theorem decimalTotalBlocks_of_lt {size : Nat} (h : size + 4095 < 2 ^ 32) :
    Heap.decimalTotalBlocks size = (size + 4095) / 4096 := by
  rw [Heap.decimalTotalBlocks_eq (by omega), if_pos h]

theorem Wf.firstFits (hsvc : svc.Supplies) {s : HeapHistory ε} (h : s.Wf) : s.FirstFits svc := by
  intro size hpos hsize hop
  obtain ⟨t, -, hplaced⟩ := h.kmalloc hsvc hop
  have hblocks := decimalTotalBlocks_of_lt hsize
  have hfound := hplaced.found
  rw [hblocks] at hfound
  obtain ⟨first, hleast, hptr⟩ := hfound (by omega)
  have hstart : s.heap.startAddress = heapStartAddress := h.startAddress
  refine ⟨first, hleast, hptr.trans ?_⟩
  rw [hstart, heapBlockSize, Nat.mul_comm]

/-- The addresses depend on nothing but the blocks that are occupied. -/
theorem addresses_eq (hsvc : svc.Supplies) {s t : HeapHistory ε} (hs : s.Wf) (ht : t.Wf)
    (hoccupied : ∀ i, s.Occupied i ↔ t.Occupied i) {sizes : List Nat}
    (hs_sizes : Admissible (step svc) (enabled svc) s (sizes.map .kmalloc))
    (ht_sizes : Admissible (step svc) (enabled svc) t (sizes.map .kmalloc)) :
    s.addresses svc sizes = t.addresses svc sizes := by
  induction sizes generalizing s t with
  | nil => rfl
  | cons size rest ih =>
      obtain ⟨s', hs', hs_placed⟩ := hs.kmalloc hsvc hs_sizes.1
      obtain ⟨t', ht', ht_placed⟩ := ht.kmalloc hsvc ht_sizes.1
      have hptr : (s.heap.kmalloc svc s.env size).1 = (t.heap.kmalloc svc t.env size).1 := by
        rcases Nat.eq_zero_or_pos (Heap.decimalTotalBlocks size) with hzero | hpos
        · rw [hs_placed.null hzero, ht_placed.null hzero]
        · obtain ⟨first, hleast, hfirst⟩ := hs_placed.found hpos
          obtain ⟨first', hleast', hfirst'⟩ := ht_placed.found hpos
          have hsets : {f | s.Avoids (Heap.decimalTotalBlocks size) f} =
              {f | t.Avoids (Heap.decimalTotalBlocks size) f} := by
            ext f
            simp only [Set.mem_ofPred_eq, Avoids, hoccupied]
          rw [hsets] at hleast
          rw [hfirst, hfirst', hleast.unique hleast']
      have hnext := hs_sizes.2 s' hs'
      have hnext' := ht_sizes.2 t' ht'
      rcases hcall : s.heap.kmalloc svc s.env size with ⟨ptr, heap, env⟩
      rcases hcall' : t.heap.kmalloc svc t.env size with ⟨ptr', heap', env'⟩
      simp only [step, hcall, Option.some.injEq] at hs'
      simp only [step, hcall', Option.some.injEq] at ht'
      rw [hcall, hcall'] at hptr
      dsimp only at hptr
      subst hptr hs' ht'
      simp only [addresses, hcall, hcall']
      refine congrArg (ptr :: ·) (ih hs_placed.wf ht_placed.wf (fun i => ?_) hnext hnext')
      unfold Occupied at hoccupied ⊢
      split
      · exact hoccupied i
      · simp only [List.mem_cons, exists_eq_or_imp, hoccupied i]

/-- After every sequence of `kmalloc` and of `kfree` on live pointers, a `kmalloc` of at least
one block returns the least place on the unbounded tape; and whenever no allocation is live,
whatever happened before, a sequence of sizes gets the same addresses. -/
theorem always_firstFit (hsvc : svc.Supplies) (memory : Bytes) (env : ε)
    {ops : List HeapSession.Op}
    (hops : Admissible (step svc) (enabled svc) (start svc memory env) ops) :
    ∃ s, runSteps (step svc) (start svc memory env) ops = some s ∧ s.FirstFits svc ∧
      ∀ ops' t, Admissible (step svc) (enabled svc) (start svc memory env) ops' →
        runSteps (step svc) (start svc memory env) ops' = some t → s.live = [] → t.live = [] →
          ∀ sizes, Admissible (step svc) (enabled svc) s (sizes.map .kmalloc) →
            Admissible (step svc) (enabled svc) t (sizes.map .kmalloc) →
              s.addresses svc sizes = t.addresses svc sizes := by
  have hstep : ∀ (s : HeapHistory ε) op, s.Wf → s.enabled svc op →
      ∃ t, s.step svc op = some t ∧ t.Wf := fun _ _ hs hop => hs.step hsvc hop
  obtain ⟨s, hrun, hs⟩ := runSteps_total Wf hstep (start_wf hsvc memory env) hops
  refine ⟨s, hrun, hs.firstFits hsvc, ?_⟩
  intro ops' t hops' hrun' hs_live ht_live sizes hs_sizes ht_sizes
  obtain ⟨t', ht', ht⟩ := runSteps_total Wf hstep (start_wf hsvc memory env) hops'
  obtain rfl := Option.some.inj (hrun'.symm.trans ht')
  refine addresses_eq hsvc hs ht (fun i => ?_) hs_sizes ht_sizes
  simp [Occupied, hs_live, ht_live]

/-- An allocator that counts its frames up from 16 MiB. -/
def risingFrames : PageServices Nat where
  pmmAllocPageframe frame := (0x1000000 + frame * 4096, frame + 1)
  memMapPage _ _ _ frame := frame
  memUnmapPage _ frame := frame

theorem risingFrames_supplies : risingFrames.Supplies := fun _ => by
  simp only [risingFrames]
  omega

theorem always_firstFit_threeOps :
    ∃ s, runSteps (step risingFrames) (start risingFrames (fun _ => 0) 0)
        [.kmalloc 5000, .kmalloc 20000, .kfree 0xD0000000] = some s ∧ s.FirstFits risingFrames :=
  have hops : Admissible (step risingFrames) (enabled risingFrames)
      (start risingFrames (fun _ => 0) 0) [.kmalloc 5000, .kmalloc 20000, .kfree 0xD0000000] := by
    decide +kernel
  have ⟨s, hrun, hfits, _⟩ := always_firstFit risingFrames_supplies (fun _ => 0) 0 hops
  ⟨s, hrun, hfits⟩

end HeapHistory

end Senob.Memory
