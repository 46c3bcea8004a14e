import Senob.Sys.Dangling

/-!
# What scheduling allocates

`schedule` looks its idle process up by the id that `initIdle` returns, and `initIdle`
creates a process. So each call leaves another process in the tree, with four blocks that
nothing frees.
-/

namespace Senob.Sys

open Senob.Foundation

/-- A call of `schedule`, with the blocks that `kmalloc` returns in it. -/
structure ScheduleCall where
  cpu : Nat
  newProcess : Ptr
  b : ThreadBlocks

def ScheduleCall.op (c : ScheduleCall) : ProcessSession.Op := .schedule c.cpu c.newProcess c.b

namespace ProcessSession

/-- Since `s₀` at most one process has come, and no more memory was allocated than a process
takes. -/
structure NoNewWork (s₀ s : ProcessSession) : Prop where
  processes : ∃ idle : List Ptr, idle.length ≤ 1 ∧
    ∀ p, s.kernel.tree.Reaches p ↔ p ∈ idle ∨ s₀.kernel.tree.Reaches p
  allocations : s.blocks.length ≤ s₀.blocks.length + 4

/-- Since `s₀`, `n` processes have come, each with four blocks. -/
structure Grew (s₀ : ProcessSession) (n : Nat) (s : ProcessSession) : Prop where
  planted : ∃ t, s.kernel.Planted t s.blocks
  processes : ∃ new : List Ptr, new.Nodup ∧ new.length = n ∧
    (∀ p ∈ new, ¬ s₀.kernel.tree.Reaches p) ∧
    ∀ p, s.kernel.tree.Reaches p ↔ p ∈ new ∨ s₀.kernel.tree.Reaches p
  allocations : s.blocks.length = s₀.blocks.length + 4 * n

variable {s₀ s : ProcessSession} {n : Nat} {calls : List ScheduleCall}

theorem Grew.start (h : ∃ t, s₀.kernel.Planted t s₀.blocks) : Grew s₀ 0 s₀ :=
  ⟨h, ⟨[], List.nodup_nil, rfl, nofun, by simp⟩, rfl⟩

/-- A call of `schedule` adds one more. -/
theorem Grew.schedule (h : Grew s₀ n s) {c : ScheduleCall} (hop : s.enabled c.op) :
    ∃ s', s.step c.op = some s' ∧ Grew s₀ (n + 1) s' := by
  obtain ⟨t, hplanted⟩ := h.planted
  obtain ⟨new, hnodup, hlength, hnew, hreaches⟩ := h.processes
  obtain ⟨k', t', hrun, hplanted', hperm⟩ := hplanted.schedule c.cpu hop.2
  have hfresh : ¬ s.kernel.tree.Reaches c.newProcess := by
    rw [hplanted.sound.reaches_iff]
    exact fun hmem => hop.2.unused _ (by simp) (hplanted.used _ hmem).1
  rw [hreaches, not_or] at hfresh
  refine ⟨⟨k', c.newProcess :: c.b.all ++ s.blocks⟩, ?_, ⟨t', hplanted'⟩,
    ⟨c.newProcess :: new, ?_, by rw [List.length_cons, hlength], ?_, fun p => ?_⟩, ?_⟩
  · rw [ScheduleCall.op, step, hrun, Option.map_some]
  · exact List.nodup_cons.mpr ⟨hfresh.1, hnodup⟩
  · exact List.forall_mem_cons.mpr ⟨hfresh.2, hnew⟩
  · rw [hplanted'.sound.reaches_iff, hperm.mem_iff, List.mem_cons, List.mem_cons,
      ← hplanted.sound.reaches_iff, hreaches, or_assoc]
  · have hallocations := h.allocations
    simp only [ThreadBlocks.all, List.length_append, List.length_cons, List.length_nil]
    omega

/-- A run of `schedule` adds as many as it has calls. -/
theorem Grew.run (h : Grew s₀ n s) (hops : Admissible step enabled s (calls.map ScheduleCall.op)) :
    ∃ s', runSteps step s (calls.map ScheduleCall.op) = some s' ∧
      Grew s₀ (n + calls.length) s' := by
  induction calls generalizing n s with
  | nil => exact ⟨s, rfl, h⟩
  | cons c rest ih =>
      obtain ⟨s₁, hstep, hgrew⟩ := h.schedule hops.1
      obtain ⟨s', hrun, hgrew'⟩ := ih hgrew (hops.2 s₁ hstep)
      refine ⟨s', ?_, ?_⟩
      · rw [List.map_cons, runSteps_cons, hstep]
        exact hrun
      · rwa [List.length_cons, Nat.add_comm rest.length, ← Nat.add_assoc]

theorem Grew.noNewWork_iff (h : Grew s₀ n s) : NoNewWork s₀ s ↔ n ≤ 1 := by
  obtain ⟨new, hnodup, hlength, hnew, hreaches⟩ := h.processes
  constructor
  · rintro ⟨⟨idle, hidle, hreaches'⟩, -⟩
    have hsub : new ⊆ idle := by
      intro p hp
      have hp' := (hreaches' p).mp ((hreaches p).mpr (.inl hp))
      exact hp'.resolve_right (hnew p hp)
    rw [← hlength]
    exact Nat.le_trans (List.subperm_of_subset hnodup hsub).length_le hidle
  · intro hn
    have hallocations := h.allocations
    exact ⟨⟨new, hlength ▸ hn, hreaches⟩, by omega⟩

/-! ## Results about runs -/

/-- In a run of calls of `schedule`, from a state with a sound tree in allocated blocks, no
more than one process and its memory is created in exactly the runs with no more than one
call: every call adds one process and four blocks. -/
theorem always_noNewWork_iff (h : ∃ t, s₀.kernel.Planted t s₀.blocks)
    (hops : Admissible step enabled s₀ (calls.map ScheduleCall.op)) :
    (Always step (NoNewWork s₀) s₀ (calls.map ScheduleCall.op) ↔ calls.length ≤ 1) ∧
    ∃ s, runSteps step s₀ (calls.map ScheduleCall.op) = some s ∧ Grew s₀ calls.length s := by
  have hrun : ∀ {first : List ScheduleCall},
      Admissible step enabled s₀ (first.map ScheduleCall.op) →
      ∃ s, runSteps step s₀ (first.map ScheduleCall.op) = some s ∧ Grew s₀ first.length s := by
    intro first hfirst
    obtain ⟨s, hs, hgrew⟩ := (Grew.start h).run hfirst
    exact ⟨s, hs, by rwa [Nat.zero_add] at hgrew⟩
  obtain ⟨s, hs, hgrew⟩ := hrun hops
  refine ⟨⟨fun halways => hgrew.noNewWork_iff.mp (halways.last hs), fun hlength => ?_⟩,
    s, hs, hgrew⟩
  have hstart : NoNewWork s₀ s₀ := (Grew.start h).noNewWork_iff.mpr (Nat.zero_le 1)
  match calls, hlength with
  | [], _ => exact hstart
  | [c], hlength =>
      refine ⟨hstart, fun s' hs' => ?_⟩
      have hone : runSteps step s₀ [c.op] = some s' := by
        rw [runSteps_cons, hs', Option.bind_some, runSteps_nil]
      obtain rfl := Option.some.inj (hs.symm.trans hone)
      exact hgrew.noNewWork_iff.mpr hlength

/-- Two calls of `schedule` on CPU 0. -/
def twoCalls : List ScheduleCall :=
  [⟨0, 0xD0010000, ⟨0xD0010100, 0xD0011000, 0xD0010200⟩⟩,
    ⟨0, 0xD0020000, ⟨0xD0020100, 0xD0021000, 0xD0020200⟩⟩]

theorem start_planted (memory : Kernel) (block : Ptr) :
    ∃ t, (start memory block).kernel.Planted t (start memory block).blocks :=
  ⟨.leaf, (memory.tree.nodePreparation_valid block).sound, List.mem_singleton_self _, nofun⟩

theorem always_noNewWork_twoCalls :
    (Always step (NoNewWork (start .initial 0xD0000000)) (start .initial 0xD0000000)
        (twoCalls.map ScheduleCall.op) ↔ twoCalls.length ≤ 1) ∧
    ∃ s, runSteps step (start .initial 0xD0000000) (twoCalls.map ScheduleCall.op) = some s ∧
      Grew (start .initial 0xD0000000) twoCalls.length s :=
  always_noNewWork_iff (start_planted .initial 0xD0000000) (by decide +kernel)

/-- The second call takes more memory than a process needs. -/
theorem not_always_noNewWork :
    ¬ ∀ (s₀ : ProcessSession) (calls : List ScheduleCall),
      (∃ t, s₀.kernel.Planted t s₀.blocks) →
      Admissible step enabled s₀ (calls.map ScheduleCall.op) →
      Always step (NoNewWork s₀) s₀ (calls.map ScheduleCall.op) := by
  intro hclaim
  have halways := hclaim (start .initial 0xD0000000) twoCalls
    (start_planted .initial 0xD0000000) (by decide +kernel)
  have hblocks : (runSteps step (start .initial 0xD0000000)
      (twoCalls.map ScheduleCall.op)).any (fun s => decide (5 < s.blocks.length)) = true := by
    decide +kernel
  cases hrun : runSteps step (start .initial 0xD0000000) (twoCalls.map ScheduleCall.op) with
  | none =>
      rw [hrun] at hblocks
      exact nomatch hblocks
  | some s =>
      rw [hrun] at hblocks
      exact absurd (halways.last hrun).allocations (Nat.not_le.mpr (of_decide_eq_true hblocks))

end ProcessSession

end Senob.Sys
