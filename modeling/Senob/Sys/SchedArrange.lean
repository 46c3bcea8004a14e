import Senob.Sys.Growth

/-!
# Threads in their places

An arrangement of threads is exclusive, and the state of each thread says what kind of
place it is in: queued threads are runnable, current ones are running. `schedule` and
`fillRunqueuesFromBST` are sequences of moves that keep an arrangement.
-/

namespace Senob.Sys

open Senob.Foundation

/-- The state of the threads in such a place. -/
def Place.state : Place → ThreadState
  | .queued .. => .runnable
  | .current _ => .running

/-- Known threads are in one place each, in the state that fits it. -/
structure Arranged (thread : Ptr → Thread) (f : Placement Place Ptr) (known : Ptr → Prop) :
    Prop where
  exclusive : f.Exclusive
  state : ∀ pl u, f pl = some u → (thread u).state = pl.state
  known : ∀ u, f.Holds u → known u

namespace Arranged

variable {thread thread' : Ptr → Thread} {f : Placement Place Ptr} {known known' : Ptr → Prop}
  {pl : Place} {u : Ptr}

theorem clear (h : Arranged thread f known) (pl : Place) : Arranged thread (f.clear pl) known :=
  ⟨h.exclusive.clear pl, fun _ v hv => h.state _ v (Placement.eq_some_of_clear hv).2,
    fun v hv => h.known v hv.of_clear⟩

theorem put (h : Arranged thread f known) (hu : ¬ (f.clear pl).Holds u)
    (hstate : (thread u).state = pl.state) (hknown : known u) :
    Arranged thread (f.put pl u) known := by
  refine ⟨h.exclusive.put hu, fun pl' v hv => ?_, fun v hv => ?_⟩
  · obtain ⟨rfl, rfl⟩ | ⟨-, hv⟩ := Placement.eq_some_of_put hv
    · exact hstate
    · exact h.state pl' v hv
  · obtain rfl | hv := hv.of_put
    · exact hknown
    · exact h.known v hv

/-- Threads that are in no place may change. -/
theorem congr (h : Arranged thread f known)
    (hthread : ∀ u, f.Holds u → (thread' u).state = (thread u).state) :
    Arranged thread' f known :=
  ⟨h.exclusive, fun pl u hu => (hthread u ⟨pl, hu⟩).trans (h.state pl u hu), h.known⟩

theorem mono (h : Arranged thread f known) (hsub : ∀ u, known u → known' u) :
    Arranged thread f known' :=
  ⟨h.exclusive, h.state, fun u hu => hsub u (h.known u hu)⟩

theorem empty (h : ∀ pl, f pl = none) : Arranged thread f known := by
  have hnone : ∀ pl u, f pl ≠ some u := fun pl u hu => nomatch (h pl).symm.trans hu
  exact ⟨fun pl _ u hu _ => absurd hu (hnone pl u), fun pl u hu => absurd hu (hnone pl u),
    fun u ⟨pl, hu⟩ => absurd hu (hnone pl u)⟩

end Arranged

namespace Kernel

variable {k k' : Kernel} {u t next : Ptr} {cpu : Nat} {known : Ptr → Prop}

/-- A runnable thread that waits nowhere may enter a queue; it is dropped when the queue
has no room. -/
theorem arranged_enqueueThread (h : Arranged k.thread k.place known) (hordered : k.Ordered)
    (ht : ¬ k.place.Holds t) (hstate : (k.thread t).state = .runnable) (hknown : known t) :
    Arranged (k.enqueueThread t cpu).thread (k.enqueueThread t cpu).place known := by
  rw [(enqueueThread_requeued k t cpu).thread]
  by_cases hroom : (k.cpuRunqueues cpu).tail (k.queueOf t) < maxRunqueueSize
  · rw [(enqueueThread_place hordered hroom).2]
    exact h.put (fun hheld => ht hheld.of_clear) hstate hknown
  · rwa [enqueueThread_of_full (Nat.not_lt.mp hroom)]

/-! ## One call of `schedule` -/

/-- The places other than that of the CPU. -/
abbrev elsewhere (k : Kernel) (cpu : Nat) : Placement Place Ptr := k.place.clear (.current cpu)

/-- The preempted thread moves from the CPU to a queue, or is dropped. -/
theorem arranged_preempt (h : Arranged k.thread k.place known) (hordered : k.Ordered)
    (cpu : Nat) :
    Arranged (k.preempt cpu).thread ((k.preempt cpu).elsewhere cpu) known := by
  by_cases hpreempts : k.Preempts cpu
  · rw [preempt_of hpreempts]
    generalize hcurrent : k.currentThread cpu = current
    have hplace : k.place (.current cpu) = some current := hcurrent ▸ place_current hpreempts.1
    have hdemoted := (demoted_rethreaded k current).scheduler
    have hnot : ¬ (k.elsewhere cpu).Holds current := h.exclusive.not_holds_clear hplace
    have hrest : Arranged (k.demoted current).thread ((k.demoted current).elsewhere cpu) known := by
      rw [elsewhere, hdemoted.place]
      refine (h.clear (.current cpu)).congr fun u hu => ?_
      rw [demoted_thread_of_ne]
      rintro rfl
      exact hnot hu
    rw [(enqueueThread_requeued ..).thread]
    by_cases hroom : ((k.demoted current).cpuRunqueues cpu).tail
        ((k.demoted current).queueOf current) < maxRunqueueSize
    · rw [elsewhere, (enqueueThread_place (hdemoted.ordered hordered) hroom).2,
        Placement.clear_put_of_ne (by simp)]
      refine hrest.put (fun hheld => hnot ?_) demoted_state (h.known _ ⟨_, hplace⟩)
      rw [elsewhere, hdemoted.place] at hheld
      exact hheld.of_clear
    · rw [enqueueThread_of_full (Nat.not_lt.mp hroom)]
      exact hrest
  · rw [preempt_of_not hpreempts]
    exact h.clear _

/-- What `dequeueThread` returns is in no place other than that of the CPU. -/
theorem arranged_dequeueThread (h : Arranged k.thread (k.elsewhere cpu) known) :
    Arranged (k.dequeueThread cpu).1.thread ((k.dequeueThread cpu).1.elsewhere cpu) known ∧
      ((k.dequeueThread cpu).2 ≠ null → known (k.dequeueThread cpu).2 ∧
        ¬ ((k.dequeueThread cpu).1.elsewhere cpu).Holds (k.dequeueThread cpu).2) := by
  obtain hnone | ⟨prio, i, -, hslot, hclear⟩ := dequeueThread_cases k cpu
  · rw [hnone]
    exact ⟨h, fun hnull => absurd rfl hnull⟩
  · have hslot' : k.elsewhere cpu (.queued cpu prio i) = some (k.dequeueThread cpu).2 := by
      rwa [elsewhere, Placement.clear_of_ne (by simp)]
    rw [(dequeueThread_requeued k cpu).thread, elsewhere, hclear, Placement.clear_comm]
    exact ⟨h.clear _, fun _ => ⟨h.known _ ⟨_, hslot'⟩, h.exclusive.not_holds_clear hslot'⟩⟩

/-- The next thread takes the place of the CPU. -/
theorem arranged_dispatch (h : Arranged k.thread (k.elsewhere cpu) known) (hnext : next ≠ null)
    (hknown : known next) (hnot : ¬ (k.elsewhere cpu).Holds next) :
    Arranged (k.dispatch cpu next).thread (k.dispatch cpu next).place known := by
  rw [dispatch_place hnext, ← Placement.put_clear]
  refine Arranged.put (h.congr fun u hu => ?_) ?_ dispatch_state hknown
  · rw [dispatch_thread_of_ne]
    rintro rfl
    exact hnot hu
  · rwa [Placement.clear_clear]

/-! ## Filling the queues -/

variable {l threads : List Ptr} {x p : Ptr}

theorem enqueueIfRunnable_requeued (k : Kernel) (t : Ptr) : k.Requeued (k.enqueueIfRunnable t) := by
  unfold enqueueIfRunnable
  split
  · exact enqueueThread_requeued ..
  · exact .refl k

theorem foldl_enqueueIfRunnable_requeued (k : Kernel) (l : List Ptr) :
    k.Requeued (l.foldl enqueueIfRunnable k) := by
  induction l generalizing k with
  | nil => exact .refl k
  | cons u rest ih => exact (enqueueIfRunnable_requeued k u).trans (ih _)

/-- The loop of `enqueueRunnableThread` goes through the list of threads. -/
theorem enqueueRunnableThread_loop (h : Chain k.thread x l) {fuel : Nat} (hfuel : l.length ≤ fuel) :
    whileFuel (fun (_, thread) => decide (thread ≠ null))
      (fun (k, thread) => (k.enqueueIfRunnable thread, (k.thread thread).next)) fuel (k, x) =
    some (l.foldl enqueueIfRunnable k, null) := by
  induction l generalizing k x fuel with
  | nil =>
      obtain rfl : x = null := h
      exact whileFuel_of_false (by simp) fuel
  | cons u rest ih =>
      obtain ⟨rfl, hu, hrest⟩ := h
      obtain ⟨fuel, rfl⟩ : ∃ n, fuel = n + 1 := Nat.exists_eq_add_one.mpr (by simp at hfuel; omega)
      rw [whileFuel_of_true (by simpa using hu), List.foldl_cons]
      refine ih ?_ (by simpa using hfuel)
      rwa [(enqueueIfRunnable_requeued k x).thread]

theorem enqueueRunnableThread_eq (h : Chain k.thread (k.tree.proc p).headThread l)
    (hlength : l.length ≤ ProcTree.loopFuel) :
    k.enqueueRunnableThread p = some (l.foldl enqueueIfRunnable k) := by
  rw [enqueueRunnableThread, enqueueRunnableThread_loop h hlength]
  rfl

theorem enqueueRunnableThread_requeued (h : k.enqueueRunnableThread p = some k') :
    k.Requeued k' := by
  obtain ⟨⟨k', _⟩, hrun, rfl⟩ := Option.map_eq_some_iff.mp h
  refine whileFuel_invariant (fun s : Kernel × Ptr => k.Requeued s.1) (fun s hs => ?_)
    (.refl k) hrun
  exact hs.trans (enqueueIfRunnable_requeued ..)

/-- The threads of a list that wait nowhere yet enter the queues. -/
theorem arranged_foldl (h : Arranged k.thread k.place known) (hordered : k.Ordered)
    (hnodup : l.Nodup) (hl : ∀ u ∈ l, ¬ known u) :
    Arranged (l.foldl enqueueIfRunnable k).thread (l.foldl enqueueIfRunnable k).place
        (fun u => known u ∨ u ∈ l) ∧ (l.foldl enqueueIfRunnable k).Ordered := by
  induction l generalizing k known with
  | nil => exact ⟨h.mono fun _ => .inl, hordered⟩
  | cons u rest ih =>
      obtain ⟨hu, hnodup⟩ := List.nodup_cons.mp hnodup
      have hnot : ¬ k.place.Holds u := fun hheld => hl u (by simp) (h.known u hheld)
      have hwide : Arranged k.thread k.place fun v => known v ∨ v = u := h.mono fun _ => .inl
      have hstep : Arranged (k.enqueueIfRunnable u).thread (k.enqueueIfRunnable u).place
          (fun v => known v ∨ v = u) ∧ (k.enqueueIfRunnable u).Ordered := by
        unfold enqueueIfRunnable
        split
        case isTrue hstate =>
          exact ⟨arranged_enqueueThread hwide hordered hnot hstate (.inr rfl),
            hordered.enqueueThread u _⟩
        case isFalse => exact ⟨hwide, hordered⟩
      obtain ⟨hrest, hordered'⟩ := ih hstep.1 hstep.2 hnodup fun v hv hknown => by
        obtain hknown | rfl := hknown
        · exact hl v (by simp [hv]) hknown
        · exact hu hv
      refine ⟨hrest.mono fun v hv => ?_, hordered'⟩
      rw [List.mem_cons]
      tauto

/-- The traversal takes up the threads of one process after the other. -/
theorem arranged_foldlM {k₀ : Kernel} {ps : List Ptr} (hps : ps.Nodup) (hk : k₀.Requeued k)
    (hlists : ∀ p ∈ ps, ∃ l, k₀.ThreadList threads p l ∧ l.length ≤ ProcTree.loopFuel)
    (hordered : k.Ordered)
    (h : Arranged k.thread k.place fun u => u ∈ threads ∧ (k₀.thread u).owner ∉ ps) :
    ∃ k', ps.foldlM enqueueRunnableThread k = some k' ∧ k₀.Requeued k' ∧ k'.Ordered ∧
      Arranged k'.thread k'.place (· ∈ threads) := by
  induction ps generalizing k with
  | nil => exact ⟨k, rfl, hk, hordered, h.mono fun _ hu => hu.1⟩
  | cons p rest ih =>
      obtain ⟨hp, hnodup⟩ := List.nodup_cons.mp hps
      obtain ⟨l, hlist, hlength⟩ := hlists p (by simp)
      have hrun : k.enqueueRunnableThread p = some (l.foldl enqueueIfRunnable k) := by
        refine enqueueRunnableThread_eq ?_ hlength
        rw [hk.thread, hk.tree]
        exact hlist.chain
      -- Threads of `p` wait nowhere, because the waiting ones belong to other processes.
      obtain ⟨hl, hordered'⟩ := arranged_foldl h hordered hlist.nodup fun u hu hknown =>
        hknown.2 (by simp [(hlist.each u hu).2])
      have hnext : Arranged (l.foldl enqueueIfRunnable k).thread
          (l.foldl enqueueIfRunnable k).place
          fun u => u ∈ threads ∧ (k₀.thread u).owner ∉ rest := by
        refine hl.mono fun u hu => ?_
        obtain ⟨hmem, howner⟩ | hu := hu
        · exact ⟨hmem, fun hrest => howner (by simp [hrest])⟩
        · exact ⟨(hlist.each u hu).1, (hlist.each u hu).2.symm ▸ hp⟩
      obtain ⟨k', hfold, hk', hordered'', harranged⟩ := ih hnodup
        (hk.trans (foldl_enqueueIfRunnable_requeued k l)) (fun q hq => hlists q (by simp [hq]))
        hordered' hnext
      refine ⟨k', ?_, hk', hordered'', harranged⟩
      rw [List.foldlM_cons, hrun]
      exact hfold

end Kernel

end Senob.Sys
