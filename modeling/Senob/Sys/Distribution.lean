import Senob.Sys.Mp
import Senob.Sys.Runqueue
import Senob.Sys.SchedArrange

/-!
# The initial distribution

`fillRunqueuesFromBST` walks the tree of processes and the list of threads of each of
them, and puts every runnable thread on a CPU that is loaded least at that moment. When
all threads are of priority 0, the number of threads of a CPU is the length of one queue,
so that the queues grow evenly and none of them overflows before all are full.
-/

namespace Senob.Sys

open Senob.Foundation

namespace Kernel

/-- The slot `queues[prio][i]` of the run queue of a CPU, as `(cpu, prio, i)`. -/
abbrev Slot := Nat × Nat × Nat

/-- The thread that a slot holds, if it is a live one. -/
def slots (k : Kernel) : Placement Slot Ptr := fun s => k.place (.queued s.1 s.2.1 s.2.2)

/-- The slot is an element of `cpuRunqueues`. -/
def InBounds (s : Slot) : Prop := s.1 < maxCpus ∧ s.2.1 < maxPriority ∧ s.2.2 < maxRunqueueSize

/-- The processes form a tree with the addresses `t`, and following `next` from the first
thread of each visits the threads `threads p`. No thread occurs twice. -/
structure ThreadTree (k : Kernel) (t : RBTree Ptr) (threads : Ptr → List Ptr) : Prop where
  root : k.tree.root = t.entry k.tree.nil
  owns : k.tree.Owns null t
  processes : ∀ p ∈ t.toList, p ≠ k.tree.nil ∧ p ≠ null ∧ p < 2 ^ 32
  distinct : t.toList.Nodup
  chain : ∀ p ∈ t.toList, Chain k.thread (k.tree.proc p).headThread (threads p)
  nodup : (t.toList.flatMap threads).Nodup
  bounded : ∀ u ∈ t.toList.flatMap threads, u < 2 ^ 32

/-- The runnable threads of the processes. -/
def runnable (k : Kernel) (l : List Ptr) : List Ptr :=
  l.filter fun u => (k.thread u).state = .runnable

/-- Each of the threads is in exactly one slot, no other thread is in any, and the numbers
of threads of the CPUs differ by at most one. -/
structure Distributed (k : Kernel) (threads : List Ptr) : Prop where
  occupies : ∀ u ∈ threads, ∃! s, InBounds s ∧ k.slots s = some u
  only : ∀ s, InBounds s → ∀ u, k.slots s = some u → u ∈ threads
  balanced : ∀ c < k.ncpus, ∀ c' < k.ncpus,
    (k.threadsPerCPU c).toNat ≤ (k.threadsPerCPU c').toNat + 1

variable {k k₀ k' : Kernel} {t : RBTree Ptr} {threads : Ptr → List Ptr} {l placed : List Ptr}
  {u : Ptr} {cpu : Nat}

/-! ## One thread -/

/-- The threads that wait at level 0, by CPU. -/
def firstLevel (k : Kernel) : LevelQueues Ptr := fun c => k.waitingOn c 0

/-- The threads placed so far wait at level 0 of the CPUs in use, evenly. -/
structure Spread (k₀ k : Kernel) (placed : List Ptr) : Prop where
  requeued : k₀.Requeued k
  ordered : k.Ordered
  head : ∀ c p, (k.cpuRunqueues c).head p = 0
  higher : ∀ c p, p ≠ 0 → (k.cpuRunqueues c).tail p = 0
  unused : ∀ c, k.ncpus ≤ c → (k.cpuRunqueues c).tail 0 = 0
  room : ∀ c, (k.cpuRunqueues c).tail 0 ≤ maxRunqueueSize
  load : ∀ c, (k.threadsPerCPU c).toNat = (k.cpuRunqueues c).tail 0
  balanced : k.firstLevel.Balanced k.ncpus
  total : k.firstLevel.total k.ncpus = placed.length
  exclusive : k.slots.Exclusive
  holds : ∀ u, k.slots.Holds u ↔ u ∈ placed

theorem Spread.length_firstLevel (h : Spread k₀ k placed) (c : Nat) :
    (k.firstLevel c).length = (k.cpuRunqueues c).tail 0 := by
  rw [firstLevel, waitingOn, Runqueue.waiting, length_segment, h.head, Nat.sub_zero]

theorem slots_eq_some_iff {s : Slot} : k.slots s = some u ↔
    (k.cpuRunqueues s.1).head s.2.1 ≤ s.2.2 ∧ s.2.2 < (k.cpuRunqueues s.1).tail s.2.1 ∧
      (k.cpuRunqueues s.1).queues s.2.1 s.2.2 = u := by
  rw [slots, place, Option.ite_none_right_eq_some, Option.some_inj]
  tauto

theorem QueuesZero.spread (h : k.QueuesZero) : Spread k k [] where
  requeued := .refl k
  ordered := h.sound.ordered
  head := h.head
  higher c p _ := h.tail c p
  unused c _ := h.tail c 0
  room := fun c => h.bounded c 0
  load c := by rw [h.threadsPerCPU, h.tail]; rfl
  balanced i _ j _ := by simp [firstLevel, h.waitingOn_eq_nil]
  total := LevelQueues.total_eq_zero_iff.mpr fun c _ => h.waitingOn_eq_nil c 0
  exclusive s _ u hu _ := by
    have hlive := slots_eq_some_iff.mp hu
    rw [h.tail] at hlive
    omega
  holds u := by
    refine iff_of_false ?_ List.not_mem_nil
    rintro ⟨s, hu⟩
    have hlive := slots_eq_some_iff.mp hu
    rw [h.tail] at hlive
    omega

/-- The slots of a kernel after a thread has entered a queue. -/
theorem slots_enqueueThread (hordered : k.Ordered)
    (hroom : (k.cpuRunqueues cpu).tail (k.queueOf u) < maxRunqueueSize) :
    (k.enqueueThread u cpu).slots = k.slots.put
      (cpu, k.queueOf u, (k.cpuRunqueues cpu).tail (k.queueOf u)) u := by
  funext s
  obtain ⟨c, p, i⟩ := s
  rw [slots, (enqueueThread_place hordered hroom).2]
  by_cases hs : (c, p, i) = (cpu, k.queueOf u, (k.cpuRunqueues cpu).tail (k.queueOf u))
  · obtain ⟨rfl, rfl, rfl⟩ : c = cpu ∧ p = _ ∧ i = _ := by simpa using hs
    rw [Placement.put_self, Placement.put_self]
  · rw [Placement.put_of_ne hs, Placement.put_of_ne]
    · rfl
    · rintro heq
      obtain ⟨rfl, rfl, rfl⟩ : c = cpu ∧ p = _ ∧ i = _ := by simpa using heq
      exact hs rfl

/-- A thread of level 0 arrives at the first level of the CPU. -/
theorem firstLevel_enqueueThread (hordered : k.Ordered) (hlevel : k.queueOf u = 0)
    (hroom : (k.cpuRunqueues cpu).tail (k.queueOf u) < maxRunqueueSize) :
    (k.enqueueThread u cpu).firstLevel = k.firstLevel.arrive cpu u := by
  funext c
  rw [firstLevel, waitingOn_enqueueThread hordered hroom, hlevel, LevelQueues.arrive]
  by_cases hc : c = cpu
  · subst hc
    rw [if_pos rfl, Function.update_self, LevelQueues.arrive, Function.update_self]
    rfl
  · rw [if_neg hc, LevelQueues.arrive, Function.update_of_ne hc]
    rfl

/-- The slots hold one thread more. -/
theorem holds_enqueueThread (hordered : k.Ordered)
    (hroom : (k.cpuRunqueues cpu).tail (k.queueOf u) < maxRunqueueSize) (v : Ptr) :
    (k.enqueueThread u cpu).slots.Holds v ↔ k.slots.Holds v ∨ v = u := by
  rw [slots_enqueueThread hordered hroom]
  constructor
  · intro hheld
    exact hheld.of_put.symm
  · rintro (⟨s, hs⟩ | rfl)
    · refine ⟨s, ?_⟩
      rw [Placement.put_of_ne]
      · exact hs
      · -- The slot that is filled was not a live one.
        rintro rfl
        have hlive := (slots_eq_some_iff.mp hs).2.1
        exact absurd hlive (Nat.lt_irrefl _)
    · exact ⟨_, Placement.put_self⟩

/-- The counter of a CPU stays the length of its first level. -/
theorem Spread.load_enqueueThread (h : Spread k₀ k placed) (hlevel : k.queueOf u = 0)
    (hroom : (k.cpuRunqueues cpu).tail (k.queueOf u) < maxRunqueueSize) (c : Nat) :
    ((k.enqueueThread u cpu).threadsPerCPU c).toNat =
      ((k.enqueueThread u cpu).cpuRunqueues c).tail 0 := by
  have htail := enqueueThread_tail hroom
  rw [hlevel] at htail hroom
  rw [enqueueThread_threadsPerCPU (by rwa [hlevel]), htail]
  have hload := h.load c
  by_cases hc : c = cpu
  · subst hc
    have hone : (1 : Word).toNat = 1 := rfl
    have hbound : (k.cpuRunqueues c).tail 0 < 64 := hroom
    rw [Function.update_self, BitVec.toNat_add, if_pos ⟨rfl, rfl⟩]
    omega
  · rw [Function.update_of_ne hc, if_neg fun heq => hc heq.1, hload]
    rfl

/-- A thread of priority 0 enters the queue of a least loaded CPU. -/
theorem Spread.enqueueThread (h : Spread k₀ k placed) (hcpus : 1 ≤ k.ncpus)
    (hpriority : (k.thread u).dynamicPriority = 0) (hu : u ∉ placed)
    (hlength : placed.length < k.ncpus * maxRunqueueSize) :
    Spread k₀ (k.enqueueThread u k.leastLoadedCPU) (placed ++ [u]) := by
  have hlevel : k.queueOf u = 0 := by
    rw [queueOf, hpriority]
    rfl
  have hlt := k.leastLoadedCPU_lt hcpus
  have hleast : ∀ i < k.ncpus, (k.firstLevel k.leastLoadedCPU).length ≤
      (k.firstLevel i).length := fun i hi => by
    rw [h.length_firstLevel, h.length_firstLevel, ← h.load, ← h.load]
    exact BitVec.le_def.mp (k.leastLoadedCPU_le hi)
  have hshort := LevelQueues.length_lt_of_total_lt hleast (h.total.trans_lt hlength)
  rw [h.length_firstLevel] at hshort
  generalize k.leastLoadedCPU = cpu at hlt hleast hshort ⊢
  have hroom : (k.cpuRunqueues cpu).tail (k.queueOf u) < maxRunqueueSize := by rwa [hlevel]
  have hfirst := firstLevel_enqueueThread h.ordered hlevel hroom
  have htail := enqueueThread_tail hroom
  rw [hlevel] at htail
  have hrequeued := enqueueThread_requeued k u cpu
  have hncpus : (k.enqueueThread u cpu).ncpus = k.ncpus := by
    obtain ⟨_, _, heq⟩ := hrequeued
    rw [heq]
  have hnot :
      ¬ (k.slots.clear (cpu, k.queueOf u, (k.cpuRunqueues cpu).tail (k.queueOf u))).Holds u :=
    fun hheld => hu ((h.holds u).mp hheld.of_clear)
  refine ⟨h.requeued.trans hrequeued, h.ordered.enqueueThread u cpu, fun c p => ?_,
    fun c p hp => ?_, fun c hc => ?_, fun c => ?_, h.load_enqueueThread hlevel hroom, ?_, ?_, ?_,
    fun v => ?_⟩
  · rw [enqueueThread_head, h.head]
  · rw [htail, if_neg fun heq => hp heq.2, h.higher c p hp]
  · rw [hncpus] at hc
    rw [htail, if_neg fun heq => by omega, h.unused c hc]
  · rw [htail]
    have := h.room c
    split
    next heq =>
      obtain ⟨rfl, -⟩ := heq
      exact hshort
    next => omega
  · rw [hfirst, hncpus]
    exact h.balanced.arrive hleast
  · rw [hfirst, hncpus, LevelQueues.total_arrive hlt, h.total, List.length_append,
      List.length_singleton]
  · rw [slots_enqueueThread h.ordered hroom]
    exact h.exclusive.put hnot
  · rw [holds_enqueueThread h.ordered hroom, List.mem_append, List.mem_singleton, h.holds v]

/-! ## All threads -/

theorem Requeued.ncpus (h : k.Requeued k') : k'.ncpus = k.ncpus := by
  obtain ⟨_, _, rfl⟩ := h
  rfl

/-- The runnable threads of the list are placed, one after the other. -/
theorem Spread.foldl (h : Spread k₀ k placed) (hcpus : 1 ≤ k.ncpus)
    (hpriority : ∀ u ∈ k.runnable l, (k.thread u).dynamicPriority = 0) (hnodup : l.Nodup)
    (hnew : ∀ u ∈ l, u ∉ placed)
    (hlength : placed.length + (k.runnable l).length ≤ k.ncpus * maxRunqueueSize) :
    Spread k₀ (l.foldl enqueueIfRunnable k) (placed ++ k.runnable l) := by
  induction l generalizing k placed with
  | nil => simpa [runnable] using h
  | cons u rest ih =>
      obtain ⟨hu, hnodup⟩ := List.nodup_cons.mp hnodup
      rw [List.foldl_cons]
      have hrequeued := enqueueIfRunnable_requeued k u
      have hrest : (k.enqueueIfRunnable u).runnable rest = k.runnable rest := by
        rw [runnable, runnable, hrequeued.thread]
      -- Threads that are not runnable are skipped and change nothing.
      by_cases hstate : (k.thread u).state = .runnable
      · have hrunnable : k.runnable (u :: rest) = u :: k.runnable rest := by
          simp [runnable, hstate]
        rw [hrunnable, List.length_cons] at hlength
        rw [hrunnable] at hpriority ⊢
        have hstep : Spread k₀ (k.enqueueIfRunnable u) (placed ++ [u]) := by
          rw [enqueueIfRunnable, if_pos hstate]
          exact h.enqueueThread hcpus (hpriority u (by simp)) (hnew u (by simp)) (by omega)
        have hall := ih hstep (by rwa [hrequeued.ncpus])
          (fun v hv => by
            rw [hrest] at hv
            rw [hrequeued.thread]
            exact hpriority v (by simp [hv]))
          hnodup
          (fun v hv hplaced => by
            obtain hplaced | rfl := by simpa using hplaced
            · exact hnew v (by simp [hv]) hplaced
            · exact hu hv)
          (by
            rw [hrest, hrequeued.ncpus, List.length_append, List.length_singleton]
            omega)
        rwa [hrest, List.append_assoc, List.singleton_append] at hall
      · have hrunnable : k.runnable (u :: rest) = k.runnable rest := by simp [runnable, hstate]
        rw [hrunnable] at hlength hpriority ⊢
        have hsame : k.enqueueIfRunnable u = k := by rw [enqueueIfRunnable, if_neg hstate]
        rw [hsame]
        exact ih h hcpus hpriority hnodup (fun v hv => hnew v (by simp [hv])) hlength

/-- The walk over the processes is one walk over all their threads. -/
theorem foldlM_enqueueRunnableThread {ps : List Ptr}
    (hlists : ∀ p ∈ ps, Chain k.thread (k.tree.proc p).headThread (threads p) ∧
      (threads p).length ≤ ProcTree.loopFuel) :
    ps.foldlM enqueueRunnableThread k = some ((ps.flatMap threads).foldl enqueueIfRunnable k) := by
  induction ps generalizing k with
  | nil => rfl
  | cons p rest ih =>
      obtain ⟨hchain, hlength⟩ := hlists p (by simp)
      have hrequeued := foldl_enqueueIfRunnable_requeued k (threads p)
      rw [List.foldlM_cons, enqueueRunnableThread_eq hchain hlength, List.flatMap_cons,
        List.foldl_append]
      refine ih fun q hq => ?_
      rw [hrequeued.thread, hrequeued.tree]
      exact hlists q (by simp [hq])

theorem ThreadTree.length_le (h : k.ThreadTree t threads) {p : Ptr} (hp : p ∈ t.toList) :
    (threads p).length ≤ ProcTree.loopFuel := by
  have hnodup := (List.nodup_flatMap.mp h.nodup).1 p hp
  have hlt := length_lt_of_nodup hnodup (n := 2 ^ 32) (fun u hu =>
    ⟨(h.chain p hp).ne_null hu, h.bounded u (List.mem_flatMap.mpr ⟨p, hp, hu⟩)⟩) (by decide)
  exact ProcTree.le_loopFuel hlt.le

theorem ThreadTree.fillRunqueuesFromBST (h : k.ThreadTree t threads) :
    k.fillRunqueuesFromBST = some ((t.toList.flatMap threads).foldl enqueueIfRunnable k) := by
  have hcallback : ∀ (k : Kernel) p k', k.enqueueRunnableThread p = some k' →
      k.tree.SameShape k'.tree := fun k p k' hrun => by
    rw [(enqueueRunnableThread_requeued hrun).tree]
    exact .refl _
  have hsize : t.size ≤ ProcTree.loopFuel := by
    have hlt := length_lt_of_nodup h.distinct (n := 2 ^ 32)
      (fun p hp => ⟨(h.processes p hp).2.1, (h.processes p hp).2.2⟩) (by decide)
    rw [RBTree.length_toList] at hlt
    exact ProcTree.le_loopFuel hlt.le
  obtain ⟨htraverse, -⟩ := ProcTree.inOrderTraversal_spec hcallback h.owns
    (fun p hp => (h.processes p hp).1) hsize (.refl k.tree)
  rw [Kernel.fillRunqueuesFromBST, h.root, htraverse]
  exact foldlM_enqueueRunnableThread fun p hp => ⟨h.chain p hp, h.length_le hp⟩

/-- What is spread evenly over the first levels is distributed. -/
theorem Spread.distributed_of_placed (h : Spread k₀ k placed) : k.Distributed placed := by
  have hlive : ∀ s u, k.slots s = some u → InBounds s := by
    rintro ⟨c, p, i⟩ u hs
    have htail : i < (k.cpuRunqueues c).tail p := (slots_eq_some_iff.mp hs).2.1
    obtain rfl : p = 0 := by
      by_contra hp
      rw [h.higher c p hp] at htail
      exact Nat.not_lt_zero i htail
    have hc : c < k.ncpus := by
      by_contra hc
      rw [h.unused c (Nat.not_lt.mp hc)] at htail
      exact Nat.not_lt_zero i htail
    exact ⟨hc.trans_le k.ncpus_le, Nat.zero_lt_succ 4, htail.trans_le (h.room c)⟩
  refine ⟨fun u hu => ?_, fun s _ u hs => (h.holds u).mp ⟨s, hs⟩, fun c hc c' hc' => ?_⟩
  · obtain ⟨s, hs⟩ := (h.holds u).mpr hu
    exact ⟨s, ⟨hlive s u hs, hs⟩, fun s' hs' => h.exclusive hs'.2 hs⟩
  · have heven := h.balanced c hc c' hc'
    rwa [h.length_firstLevel, h.length_firstLevel, ← h.load, ← h.load] at heven

/-- When all runnable threads are of priority 0 and the queues of level 0 have room for them,
filling the queues returns and distributes them evenly. -/
theorem ThreadTree.distributed (h : k.ThreadTree t threads) (hzero : k.QueuesZero)
    (hcpus : 1 ≤ k.ncpus)
    (hpriority : ∀ u ∈ k.runnable (t.toList.flatMap threads), (k.thread u).dynamicPriority = 0)
    (hcount : (k.runnable (t.toList.flatMap threads)).length ≤ 64 * k.ncpus) :
    ∃ k', k.fillRunqueuesFromBST = some k' ∧
      k'.Distributed (k.runnable (t.toList.flatMap threads)) := by
  refine ⟨_, h.fillRunqueuesFromBST, ?_⟩
  have hspread := hzero.spread.foldl hcpus hpriority h.nodup (fun _ _ => List.not_mem_nil)
    (by
      rw [List.length_nil, Nat.zero_add, Nat.mul_comm]
      exact hcount)
  exact hspread.distributed_of_placed

/-- Three processes with six threads, one of which sleeps, and two CPUs. -/
def threeProcesses : Kernel := { Kernel.initial with
  tree := ⟨fun p =>
    if p = 0xD0001000 then { Process.zero with
      left := 0xD0001100, right := 0xD0001200, headThread := 0xD0002000 }
    else if p = 0xD0001100 then { Process.zero with
      parent := 0xD0001000, left := 0xD0000000, right := 0xD0000000, headThread := 0xD0002300 }
    else if p = 0xD0001200 then { Process.zero with
      parent := 0xD0001000, left := 0xD0000000, right := 0xD0000000, headThread := 0xD0002400 }
    else .zero, 0xD0001000, 0xD0000000⟩
  thread := fun u =>
    if u = 0xD0002000 then { Thread.zero with state := .runnable, next := 0xD0002100 }
    else if u = 0xD0002100 then { Thread.zero with state := .sleeping, next := 0xD0002200 }
    else if u = 0xD0002400 then { Thread.zero with state := .runnable, next := 0xD0002500 }
    else { Thread.zero with state := .runnable }
  ncpus := 2
  ncpus_le := by decide }

def threeProcessesTree : RBTree Ptr :=
  .node .black (.node .black .leaf 0xD0001100 .leaf) 0xD0001000
    (.node .black .leaf 0xD0001200 .leaf)

def threeProcessesThreads (p : Ptr) : List Ptr :=
  if p = 0xD0001000 then [0xD0002000, 0xD0002100, 0xD0002200]
  else if p = 0xD0001100 then [0xD0002300]
  else [0xD0002400, 0xD0002500]

theorem threeProcesses_tree :
    threeProcesses.ThreadTree threeProcessesTree threeProcessesThreads where
  root := rfl
  owns := ⟨⟨rfl, rfl, rfl, rfl⟩, ⟨⟨rfl, rfl, rfl, rfl⟩, trivial, trivial⟩,
    ⟨rfl, rfl, rfl, rfl⟩, trivial, trivial⟩
  processes := by decide
  distinct := by decide
  chain := by
    intro p hp
    simp only [threeProcessesTree, RBTree.toList, List.nil_append, List.cons_append,
      List.mem_cons, List.not_mem_nil, or_false] at hp
    rcases hp with rfl | rfl | rfl
    · exact ⟨rfl, by decide, rfl⟩
    · exact ⟨rfl, by decide, rfl, by decide, rfl, by decide, rfl⟩
    · exact ⟨rfl, by decide, rfl, by decide, rfl⟩
  nodup := by decide
  bounded := by decide

/-- The five threads that do not sleep are put on the two CPUs. -/
theorem threeProcesses_distributed :
    ∃ k', threeProcesses.fillRunqueuesFromBST = some k' ∧ k'.Distributed
      [0xD0002300, 0xD0002000, 0xD0002200, 0xD0002400, 0xD0002500] :=
  threeProcesses_tree.distributed ⟨fun _ _ => rfl, fun _ _ => rfl, fun _ => rfl⟩ (by decide)
    (by decide) (by decide)

end Kernel

end Senob.Sys
