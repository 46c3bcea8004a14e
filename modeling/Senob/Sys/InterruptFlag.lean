import Senob.Foundation.Run

/-!
# Spinlocks and the interrupt flag

`holding` and `acquire` disable the interrupts of the CPU, and `release` enables them, whatever
they were before and whatever else the CPU holds. The functions are lists of the instructions that
matter for this: an attempt to take a lock may fail any number of times, as other CPUs will have
it.
-/

namespace Senob.Sys

open Senob.Foundation

namespace InterruptFlag

/-- An instruction of `spinlock.c`. -/
inductive Instr (ι : Type*) where
  | cli
  | sti
  /-- `xchg(&lock->locked, 1)`, with its result. -/
  | xchg (lock : ι) (result : BitVec 32)
  /-- `lock->cpu = …`. -/
  | storeCpu (lock : ι)
  /-- `movl $0, lock->locked`. -/
  | storeLocked (lock : ι)

/-- The interrupt flag of a CPU, and the locks that it holds. -/
structure Cpu (ι : Type*) where
  interruptFlag : Bool
  held : List ι

variable {ι : Type*} [DecidableEq ι]

/-- The effect of an instruction. -/
def Cpu.step (s : Cpu ι) : Instr ι → Option (Cpu ι)
  | .cli => some { s with interruptFlag := false }
  | .sti => some { s with interruptFlag := true }
  | .xchg lock result => some (if result = 0 then { s with held := lock :: s.held } else s)
  | .storeCpu _ => some s
  | .storeLocked lock => some { s with held := s.held.erase lock }

/-- `holding`. What it reads changes nothing. -/
def holding (_lock : ι) : List (Instr ι) := [.cli]

/-- `acquire`, with the number of failing attempts. -/
def acquire (lock : ι) (fails : Nat) : List (Instr ι) :=
  holding lock ++ .cli :: List.replicate fails (.xchg lock 1) ++ [.xchg lock 0, .storeCpu lock]

def release (lock : ι) : List (Instr ι) :=
  holding lock ++ [.storeLocked lock, .storeCpu lock, .sti]

/-- Properly nested pairs of `acquire` and `release`. -/
inductive Nested (ι : Type*) where
  | nil
  | pair (lock : ι) (fails : Nat) (inner rest : Nested ι)

namespace Nested

def code : Nested ι → List (Instr ι)
  | nil => []
  | pair lock fails inner rest =>
      acquire lock fails ++ (inner.code ++ (release lock ++ rest.code))

/-- No pair encloses another one. -/
def Flat : Nested ι → Prop
  | nil => True
  | pair _ _ inner rest => inner = nil ∧ rest.Flat

end Nested

/-- `rbSearch` takes the lock of the tree once. -/
def rbSearch (rbTreeLock : ι) (fails : Nat) : Nested ι := .pair rbTreeLock fails .nil .nil

/-- Interrupts are disabled while the CPU holds a lock. -/
def Masked (s : Cpu ι) : Prop := s.held ≠ [] → s.interruptFlag = false

/-- The CPU is not interrupted while it holds a lock, and has the flag of before in the end. -/
def Preserved (flag : Bool) (w : Nested ι) : Prop :=
  Always Cpu.step Masked ⟨flag, []⟩ w.code ∧
    ∀ t, runSteps Cpu.step ⟨flag, []⟩ w.code = some t → t.interruptFlag = flag

variable {s t : Cpu ι} {lock : ι} {fails : Nat} {w inner rest : Nested ι}

/-! ## One function -/

theorem run_spin (s : Cpu ι) (lock : ι) (fails : Nat) (rest : List (Instr ι)) :
    runSteps Cpu.step s (List.replicate fails (.xchg lock 1) ++ rest) =
      runSteps Cpu.step s rest := by
  induction fails with
  | zero => rfl
  | succ fails ih => exact ih

theorem run_acquire (s : Cpu ι) (lock : ι) (fails : Nat) :
    runSteps Cpu.step s (acquire lock fails) = some ⟨false, lock :: s.held⟩ :=
  run_spin ⟨false, s.held⟩ lock fails _

theorem run_release (s : Cpu ι) (lock : ι) :
    runSteps Cpu.step s (release lock) = some ⟨true, s.held.erase lock⟩ := rfl

theorem always_acquire (h : Masked s) (lock : ι) (fails : Nat) :
    Always Cpu.step Masked s (acquire lock fails) := by
  have hspin : Always Cpu.step Masked ⟨false, s.held⟩
      (List.replicate fails (.xchg lock 1) ++ [.xchg lock 0, .storeCpu lock]) := by
    induction fails with
    | zero =>
        refine ⟨fun _ => rfl, fun t ht => ?_⟩
        obtain rfl := Option.some.inj ht
        refine ⟨fun _ => rfl, fun t ht => ?_⟩
        obtain rfl := Option.some.inj ht
        exact fun _ => rfl
    | succ fails ih =>
        refine ⟨fun _ => rfl, fun t ht => ?_⟩
        obtain rfl := Option.some.inj ht
        exact ih
  refine ⟨h, fun t ht => ?_⟩
  obtain rfl := Option.some.inj ht
  refine ⟨fun _ => rfl, fun t ht => ?_⟩
  obtain rfl := Option.some.inj ht
  exact hspin

/-- The last lock is released with its own instructions. -/
theorem always_release (lock : ι) :
    Always Cpu.step Masked ⟨false, [lock]⟩ (release lock) := by
  refine ⟨fun _ => rfl, fun t ht => ?_⟩
  obtain rfl := Option.some.inj ht
  refine ⟨fun _ => rfl, fun t ht => ?_⟩
  obtain rfl := Option.some.inj ht
  refine ⟨fun _ => rfl, fun t ht => ?_⟩
  obtain rfl := Option.some.inj ht
  refine ⟨fun _ => rfl, fun t ht => ?_⟩
  obtain rfl := Option.some.inj ht
  intro hheld
  exact absurd (List.erase_cons_head lock []) hheld

/-! ## Nested pairs -/

/-- A sequence gives back what it takes, and any pair leaves the interrupts enabled. -/
theorem run_code (s : Cpu ι) (w : Nested ι) :
    ∃ t, runSteps Cpu.step s w.code = some t ∧ t.held = s.held ∧
      t.interruptFlag = (match w with | .nil => s.interruptFlag | .pair .. => true) := by
  induction w generalizing s with
  | nil => exact ⟨s, rfl, rfl, rfl⟩
  | pair lock fails inner rest ihInner ihRest =>
      obtain ⟨u, hu, hheld, -⟩ := ihInner ⟨false, lock :: s.held⟩
      have hreleased : u.held.erase lock = s.held := by
        rw [hheld]
        exact List.erase_cons_head lock s.held
      obtain ⟨t, ht, hkept, hflag⟩ := ihRest ⟨true, s.held⟩
      refine ⟨t, ?_, hkept, ?_⟩
      · rw [Nested.code, runSteps_append, run_acquire, Option.bind_some, runSteps_append, hu,
          Option.bind_some, runSteps_append, run_release, Option.bind_some, hreleased]
        exact ht
      · rw [hflag]
        cases rest <;> rfl

/-- From enabled interrupts on, pairs one after the other are safe. -/
theorem always_flat (hflat : w.Flat) (flag : Bool) :
    Always Cpu.step Masked ⟨flag, []⟩ w.code := by
  induction w generalizing flag with
  | nil => exact fun hheld => absurd rfl hheld
  | pair lock fails inner rest _ ih =>
      obtain ⟨rfl, hrest⟩ := hflat
      refine (always_acquire (fun hheld => absurd rfl hheld) lock fails).append fun t ht => ?_
      rw [run_acquire] at ht
      obtain rfl := Option.some.inj ht
      refine (always_release lock).append fun t ht => ?_
      rw [run_release] at ht
      obtain rfl := Option.some.inj ht
      have hempty : [lock].erase lock = [] := List.erase_cons_head lock []
      rw [hempty]
      exact ih hrest true

/-- Behind an inner pair the interrupts are enabled, although the outer lock is still held. -/
theorem flat_of_always {flag : Bool} (h : Always Cpu.step Masked ⟨flag, []⟩ w.code) : w.Flat := by
  induction w generalizing flag with
  | nil => trivial
  | pair lock fails inner rest _ ih =>
      have hinside := h.after (run_acquire ⟨flag, []⟩ lock fails)
      have hinner : inner = .nil := by
        cases inner with
        | nil => rfl
        | pair lock' fails' inner' rest' =>
            obtain ⟨u, hu, hheld, hflag⟩ :=
              run_code ⟨false, [lock]⟩ (.pair lock' fails' inner' rest')
            have hlocked : u.held ≠ [] := hheld ▸ List.cons_ne_nil lock []
            have hmasked := hinside.of_append.last hu hlocked
            exact absurd (hmasked.symm.trans hflag) Bool.false_ne_true
      subst hinner
      have hinside : Always Cpu.step Masked ⟨false, [lock]⟩ (release lock ++ rest.code) := hinside
      have hbehind := hinside.after (run_release ⟨false, [lock]⟩ lock)
      have hempty : [lock].erase lock = [] := List.erase_cons_head lock []
      rw [hempty] at hbehind
      exact ⟨rfl, ih hbehind⟩

/-- The flag survives exactly a sequence without nesting that begins with interrupts enabled. -/
theorem preserved_iff (flag : Bool) (w : Nested ι) :
    Preserved flag w ↔ w = .nil ∨ flag = true ∧ w.Flat := by
  obtain ⟨t, ht, -, hflag⟩ := run_code ⟨flag, []⟩ w
  constructor
  · rintro ⟨hmasked, hlast⟩
    cases w with
    | nil => exact Or.inl rfl
    | pair lock fails inner rest =>
        exact Or.inr ⟨(hlast t ht).symm.trans hflag, flat_of_always hmasked⟩
  · rintro (rfl | ⟨rfl, hflat⟩)
    · exact ⟨fun hheld => absurd rfl hheld, fun t ht => (Option.some.inj ht) ▸ rfl⟩
    · refine ⟨always_flat hflat true, fun u hu => ?_⟩
      obtain rfl := Option.some.inj (ht.symm.trans hu)
      rw [hflag]
      cases w <;> rfl

/-- `rbSearch` enables the interrupts, also in an interrupt handler. -/
theorem not_preserved :
    ¬ ∀ (flag : Bool) (w : Nested Nat), Preserved flag w := by
  intro hclaim
  have hlast := (hclaim false (rbSearch 0 0)).2 ⟨true, []⟩ rfl
  exact Bool.false_ne_true hlast.symm

end InterruptFlag

end Senob.Sys
