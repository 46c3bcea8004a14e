import Senob.Sys.Housing

/-!
# Deletion of processes under the scheduler

`rbDelete` frees the structure of a process, its first thread and the stack of this thread.
The queues and the CPUs keep the pointers that they have. A session creates and deletes
processes, fills the queues and schedules; it keeps the blocks that `kmalloc` has returned
and `kfree` has not taken back.
-/

namespace Senob.Sys

open Senob.Foundation

structure ProcessSession where
  kernel : Kernel
  blocks : List Ptr

namespace ProcessSession

/-- The calls of a session, each with the blocks that `kmalloc` returns in it. -/
inductive Op where
  | createKernelProcess (newProcess : Ptr) (function : Word) (b : ThreadBlocks)
  | fillRunqueuesFromBST
  | schedule (cpu : Nat) (newProcess : Ptr) (b : ThreadBlocks)
  | rbDelete (pid : Word)

def step (s : ProcessSession) : Op → Option ProcessSession
  | .createKernelProcess newProcess function b =>
      (s.kernel.createKernelProcess newProcess function b).map
        fun kernel => ⟨kernel, newProcess :: b.all ++ s.blocks⟩
  | .fillRunqueuesFromBST =>
      s.kernel.fillRunqueuesFromBST.map fun kernel => ⟨kernel, s.blocks⟩
  | .schedule cpu newProcess b =>
      (s.kernel.schedule cpu newProcess b).map
        fun kernel => ⟨kernel, newProcess :: b.all ++ s.blocks⟩
  | .rbDelete pid =>
      (s.kernel.rbDelete pid).map
        fun (kernel, freed) => ⟨kernel, s.blocks.filter fun a => a ∉ freed⟩

/-- CPUs exist, and `kmalloc` returns blocks that are free. -/
def enabled (s : ProcessSession) : Op → Prop
  | .createKernelProcess newProcess _ b => Fresh s.blocks (newProcess :: b.all)
  | .fillRunqueuesFromBST => True
  | .schedule cpu newProcess b => cpu < maxCpus ∧ Fresh s.blocks (newProcess :: b.all)
  | .rbDelete _ => True

instance (s : ProcessSession) : ∀ op, Decidable (s.enabled op)
  | .createKernelProcess .. => inferInstanceAs (Decidable (Fresh _ _))
  | .fillRunqueuesFromBST => inferInstanceAs (Decidable True)
  | .schedule .. => inferInstanceAs (Decidable (_ ∧ _))
  | .rbDelete _ => inferInstanceAs (Decidable True)

/-- The session after `nodePreparation`, where the sentinel is at `block`. -/
def start (memory : Kernel) (block : Ptr) : ProcessSession :=
  ⟨{ memory with tree := memory.tree.nodePreparation block }, [block]⟩

/-- The structure of the thread is allocated, and the thread belongs to a process that is in
the tree. -/
def LiveThread (s : ProcessSession) (u : Ptr) : Prop :=
  u ∈ s.blocks ∧ ∃ p, s.kernel.tree.Reaches p ∧ s.kernel.HasThread p u

/-- The queues and the CPUs hold live threads only. -/
def NoDangling (s : ProcessSession) : Prop :=
  ∀ pl u, s.kernel.place pl = some u → s.LiveThread u

/-- No thread of the process that `rbDelete` finds is in a queue or on a CPU. -/
def Harmless (s : ProcessSession) : Op → Prop
  | .rbDelete pid => ∀ z u, s.kernel.tree.rbSearch pid = some z → z ≠ s.kernel.tree.nil →
      s.kernel.HasThread z u → ∀ pl, s.kernel.place pl ≠ some u
  | _ => True

/-! ## The invariant -/

/-- The processes of the tree house every thread that the scheduler holds. -/
structure Safe (s : ProcessSession) (t : RBTree Ptr) : Prop where
  housed : s.kernel.Housed t s.blocks
  ordered : s.kernel.Ordered
  homed : s.kernel.Homed t

variable {s : ProcessSession} {t : RBTree Ptr} {op : Op}

theorem Safe.liveThread_iff (h : s.Safe t) (u : Ptr) :
    s.LiveThread u ↔ ∃ p ∈ t.toList, (s.kernel.tree.proc p).headThread = u := by
  constructor
  · rintro ⟨-, p, hreaches, hthread⟩
    have hp := h.housed.sound.reaches_iff.mp hreaches
    exact ⟨p, hp, ((h.housed.hasThread_iff hp).mp hthread).symm⟩
  · rintro ⟨p, hp, rfl⟩
    exact ⟨(h.housed.head_used hp).1, p, h.housed.sound.reaches_iff.mpr hp,
      (h.housed.hasThread_iff hp).mpr rfl⟩

theorem Safe.noDangling (h : s.Safe t) : s.NoDangling :=
  fun pl u hu => (h.liveThread_iff u).mpr (h.homed u ⟨pl, hu⟩)

theorem start_safe {memory : Kernel} (hmemory : memory.Quiet) (block : Ptr) :
    (start memory block).Safe .leaf := by
  have hquiet : (start memory block).kernel.Quiet := ⟨hmemory.queues, hmemory.currents⟩
  refine ⟨⟨(memory.tree.nodePreparation_valid block).sound, ⟨List.mem_singleton_self _, nofun⟩,
    nofun, List.nodup_nil, nofun⟩, hquiet.ordered, ?_⟩
  rintro u ⟨pl, hu⟩
  exact nomatch (hquiet.place pl).symm.trans hu

/-- Every step is defined. It keeps the invariant if it is harmless, and leaves a dangling
thread if it is not. -/
theorem Safe.step (h : s.Safe t) (hop : s.enabled op) :
    ∃ s', s.step op = some s' ∧ (s.Harmless op → ∃ t', s'.Safe t') ∧
      (¬ s.Harmless op → ¬ s'.NoDangling) := by
  cases op with
  | createKernelProcess newProcess function b =>
      obtain ⟨k', t', hrun, hhoused, hjoined⟩ := h.housed.createKernelProcess function hop
      refine ⟨⟨k', newProcess :: b.all ++ s.blocks⟩, ?_, fun _ => ⟨t', hhoused,
        hjoined.scheduler.ordered h.ordered, hjoined.homed h.homed⟩,
        fun hbad => absurd trivial hbad⟩
      rw [ProcessSession.step, hrun, Option.map_some]
  | fillRunqueuesFromBST =>
      obtain ⟨k', hrun, hhoused, hordered, hhomed⟩ :=
        h.housed.fillRunqueuesFromBST h.ordered h.homed
      refine ⟨⟨k', s.blocks⟩, ?_, fun _ => ⟨t, hhoused, hordered, hhomed⟩,
        fun hbad => absurd trivial hbad⟩
      rw [ProcessSession.step, hrun, Option.map_some]
  | schedule cpu newProcess b =>
      obtain ⟨k', t', hrun, hhoused, hordered, hhomed⟩ :=
        h.housed.schedule h.ordered h.homed cpu hop.2
      refine ⟨⟨k', newProcess :: b.all ++ s.blocks⟩, ?_, fun _ => ⟨t', hhoused, hordered, hhomed⟩,
        fun hbad => absurd trivial hbad⟩
      rw [ProcessSession.step, hrun, Option.map_some]
  | rbDelete pid =>
      by_cases hpid : ∃ p ∈ t.toList, (s.kernel.tree.proc p).pid = pid
      · obtain ⟨z, k', t', hz, hsearch, hrun, hhoused, hreaped⟩ :=
          h.housed.rbDelete_present hpid
        have hstep : s.step (.rbDelete pid) =
            some ⟨k', s.blocks.filter fun a => a ∉ (s.kernel.blocksOf z).reverse⟩ := by
          rw [ProcessSession.step, hrun]
          rfl
        have hordered := hreaped.scheduler.ordered h.ordered
        have hnil : z ≠ s.kernel.tree.nil := h.housed.sound.layout.ne_nil hz
        refine ⟨_, hstep, fun hharmless => ⟨t', hhoused, hordered, fun u hu => ?_⟩,
          fun hbad hsafe => ?_⟩
        · rw [hreaped.scheduler.place] at hu
          obtain ⟨p, hp, hhead⟩ := h.homed u hu
          refine ⟨p, (hreaped.mem p).mpr ⟨hp, ?_⟩, (hreaped.heads p).trans hhead⟩
          rintro rfl
          obtain ⟨pl, hpl⟩ := hu
          have hthread := (h.housed.hasThread_iff hp).mpr hhead.symm
          exact hharmless p u hsearch hnil hthread pl hpl
        · refine hbad fun z' u hsearch' _ hthread pl hpl => ?_
          obtain rfl : z = z' := Option.some.inj (hsearch.symm.trans hsearch')
          obtain rfl := (h.housed.hasThread_iff hz).mp hthread
          -- Another process would have the same thread.
          obtain ⟨-, p, hreaches, hpthread⟩ :=
            hsafe pl _ ((congrFun hreaped.scheduler.place pl).trans hpl)
          have hp := hhoused.sound.reaches_iff.mp hreaches
          have hhead := (hhoused.hasThread_iff hp).mp hpthread
          obtain ⟨hpt, hne⟩ := (hreaped.mem p).mp hp
          exact hne (h.housed.head_inj hpt hz ((hreaped.heads p).symm.trans hhead.symm))
      · have habsent : ∀ p ∈ t.toList, (s.kernel.tree.proc p).pid ≠ pid :=
          fun p hp heq => hpid ⟨p, hp, heq⟩
        obtain ⟨hsearch, hrun⟩ := h.housed.rbDelete_absent habsent
        refine ⟨s, ?_, fun _ => ⟨t, h⟩, fun hbad => absurd ?_ hbad⟩
        · rw [ProcessSession.step, hrun]
          simp
        · intro z u hsearch' hnil
          exact absurd (Option.some.inj (hsearch'.symm.trans hsearch)) hnil

/-! ## Results about runs -/

/-- From empty queues, no thread dangles in exactly the runs that never delete a process
whose thread is in a queue or on a CPU, and these runs are defined. -/
theorem always_noDangling_iff {memory : Kernel} (hmemory : memory.Quiet) (block : Ptr)
    (ops : List Op) (hops : Admissible step enabled (start memory block) ops) :
    (Always step NoDangling (start memory block) ops ↔
      Admissible step Harmless (start memory block) ops) ∧
    (Admissible step Harmless (start memory block) ops →
      ∃ s, runSteps step (start memory block) ops = some s) := by
  have hstart : ∃ t, (start memory block).Safe t := ⟨_, start_safe hmemory block⟩
  have hgood : ∀ s op s', (∃ t, Safe s t) → s.enabled op → s.Harmless op → step s op = some s' →
      ∃ t, s'.Safe t := by
    rintro s op s' ⟨t, h⟩ hop hharmless hstep
    obtain ⟨s'', hstep', hsafe, -⟩ := h.step hop
    obtain rfl := Option.some.inj (hstep'.symm.trans hstep)
    exact hsafe hharmless
  constructor
  · refine always_iff_admissible (fun s => ∃ t, Safe s t) ?_ hgood ?_ hstart hops
    · rintro s ⟨t, h⟩
      exact h.noDangling
    · rintro s op ⟨t, h⟩ hop hbad
      obtain ⟨s', hstep, -, hdangling⟩ := h.step hop
      exact ⟨s', hstep, hdangling hbad⟩
  · intro hharmless
    obtain ⟨s, hrun, -⟩ := runSteps_total (fun s : ProcessSession => ∃ t, s.Safe t)
      (fun s op hs hop => by
        obtain ⟨t, h⟩ := hs
        obtain ⟨s', hstep, hsafe, -⟩ := h.step hop.1
        exact ⟨s', hstep, hsafe hop.2⟩) hstart (hops.inter hharmless)
    exact ⟨s, hrun⟩

theorem initial_quiet : Kernel.initial.Quiet := ⟨fun _ _ => rfl, fun _ => rfl⟩

/-- A process is created, queued and deleted. -/
def oneProcess : List Op :=
  [.createKernelProcess 0xD0000100 0xC0100000 ⟨0xD0000200, 0xD0001000, 0xD0000300⟩,
    .fillRunqueuesFromBST, .rbDelete 21]

theorem always_noDangling_oneProcess :
    (Always step NoDangling (start .initial 0xD0000000) oneProcess ↔
      Admissible step Harmless (start .initial 0xD0000000) oneProcess) ∧
    (Admissible step Harmless (start .initial 0xD0000000) oneProcess →
      ∃ s, runSteps step (start .initial 0xD0000000) oneProcess = some s) :=
  always_noDangling_iff initial_quiet 0xD0000000 oneProcess (by decide +kernel)

/-- A process that is deleted while its thread waits leaves its thread in the queue. -/
theorem not_always_noDangling :
    ¬ ∀ (memory : Kernel) (block : Ptr) (ops : List Op), memory.Quiet →
      Admissible step enabled (start memory block) ops →
      Always step NoDangling (start memory block) ops := by
  intro hclaim
  have halways := hclaim .initial 0xD0000000 oneProcess initial_quiet (by decide +kernel)
  have hfreed : (runSteps step (start .initial 0xD0000000) oneProcess).any (fun s => decide
      (s.kernel.place (.queued 0 0 0) = some 0xD0000200 ∧ 0xD0000200 ∉ s.blocks)) = true := by
    decide +kernel
  cases hrun : runSteps step (start .initial 0xD0000000) oneProcess with
  | none =>
      rw [hrun] at hfreed
      exact nomatch hfreed
  | some s =>
      rw [hrun] at hfreed
      obtain ⟨hplace, hblock⟩ := of_decide_eq_true hfreed
      exact hblock (halways.last hrun (.queued 0 0 0) _ hplace).1

end ProcessSession

end Senob.Sys
