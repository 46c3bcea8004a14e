import Senob.Sys.ProcessTree

/-!
# Spinlocks

`spinlock.c`, executed by any number of CPUs that take and release one lock in turns. Each
access to the memory of the lock is one step. The field `cpu` is written after the lock is
taken and cleared after it is given back, and `0` stands both for nobody and for the CPU with
the APIC id `0`.
-/

namespace Senob.Sys

open Senob.Foundation

namespace Spinlock

/-- Where a CPU is in its code. -/
inductive PC where
  /-- In front of `acquire`, whose `holding` reads `locked` first. -/
  | idle
  /-- In the `holding` of `acquire`, which has read `locked` as taken. -/
  | acquireReadCpu
  /-- The `holding` of `acquire` has returned. -/
  | acquireHeld (res : Bool)
  | xchg
  | storeCpu
  /-- Behind `acquire` and in front of `release`, whose `holding` reads `locked` first. -/
  | critical
  | releaseReadCpu
  | releaseHeld (res : Bool)
  | storeLocked
  /-- In front of `lock->cpu = 0`. -/
  | clearCpu
  deriving DecidableEq

/-- The `xchg` of the CPU has returned `0`, and it has not yet stored `locked = 0`. -/
def PC.Owns : PC → Prop
  | .storeCpu | .critical | .releaseReadCpu | .releaseHeld _ | .storeLocked => True
  | _ => False

/-- The CPU has stored its id, and it has not yet cleared the field. -/
def PC.Named : PC → Prop
  | .critical | .releaseReadCpu | .releaseHeld _ | .storeLocked | .clearCpu => True
  | _ => False

instance : DecidablePred PC.Owns := fun pc => by
  cases pc <;> unfold PC.Owns <;> infer_instance

instance : DecidablePred PC.Named := fun pc => by
  cases pc <;> unfold PC.Named <;> infer_instance

end Spinlock

/-- `struct spinlock`, without `name`, with the CPUs that use it. -/
structure Spinlock (ι : Type*) where
  locked : Word
  cpu : Word
  pc : ι → Spinlock.PC
  /-- What `kernel_write` was called with. -/
  printed : List String

namespace Spinlock

variable {ι : Type*} [DecidableEq ι]

/-- `initLock`. -/
def initLock : Spinlock ι := ⟨0, 0, fun _ => .idle, []⟩

def goto (s : Spinlock ι) (c : ι) (pc : PC) : Spinlock ι :=
  { s with pc := Function.update s.pc c pc }

def kernelWrite (s : Spinlock ι) (text : String) : Spinlock ι :=
  { s with printed := text :: s.printed }

variable (apicId : ι → Word)

/-- The next step of the CPU `c`. -/
def step (s : Spinlock ι) (c : ι) : Option (Spinlock ι) :=
  some <| match s.pc c with
  | .idle => s.goto c (if s.locked = 0 then .acquireHeld false else .acquireReadCpu)
  | .acquireReadCpu => s.goto c (.acquireHeld (s.cpu = apicId c))
  | .acquireHeld res =>
      if res then
        (s.kernelWrite "cpu is already holding the lock, smth has gone wrong").goto c .xchg
      else s.goto c .xchg
  | .xchg => { s with locked := 1 }.goto c (if s.locked = 0 then .storeCpu else .xchg)
  | .storeCpu => { s with cpu := apicId c }.goto c .critical
  | .critical => s.goto c (if s.locked = 0 then .releaseHeld false else .releaseReadCpu)
  | .releaseReadCpu => s.goto c (.releaseHeld (s.cpu = apicId c))
  | .releaseHeld res =>
      if res then s.goto c .storeLocked
      else (s.kernelWrite
        "cpu isnt even holding the lock, why are you trying to release it?").goto c .storeLocked
  | .storeLocked => { s with locked := 0 }.goto c .clearCpu
  | .clearCpu => { s with cpu := 0 }.goto c .idle

/-- The CPU owns the lock. -/
def Owns (s : Spinlock ι) (c : ι) : Prop := (s.pc c).Owns

/-- Whenever a `holding` returns, it has told the truth, and no diagnostic was printed. -/
structure Truthful (s : Spinlock ι) : Prop where
  acquire : ∀ c res, s.pc c = .acquireHeld res → (res = true ↔ s.Owns c)
  release : ∀ c res, s.pc c = .releaseHeld res → (res = true ↔ s.Owns c)
  printed : s.printed = []

/-- A CPU that reads the field `cpu` does not find it cleared: the CPU with the id `0` not in
`acquire`, and the others not in `release`. -/
def OwnerKnown (s : Spinlock ι) (c : ι) : Prop :=
  (s.pc c = .acquireReadCpu → apicId c = 0 → s.cpu ≠ 0) ∧
    (s.pc c = .releaseReadCpu → apicId c ≠ 0 → s.cpu ≠ 0)

instance (s : Spinlock ι) (c : ι) : Decidable (s.OwnerKnown apicId c) :=
  inferInstanceAs (Decidable ((_ → _ → _) ∧ (_ → _ → _)))

variable {apicId} {s t : Spinlock ι} {c d : ι} {pc : PC}

@[simp] theorem goto_pc_self : (s.goto c pc).pc c = pc := Function.update_self ..

@[simp] theorem goto_pc_of_ne (h : d ≠ c) : (s.goto c pc).pc d = s.pc d :=
  Function.update_of_ne h ..

omit [DecidableEq ι] in
theorem kernelWrite_pc (text : String) : (s.kernelWrite text).pc = s.pc := rfl

theorem taken_ne_zero : (1 : Word) ≠ 0 := by decide

/-! ## What holds in every run -/

variable (apicId) in
/-- At most one CPU owns the lock, and the field `cpu` holds the id of a CPU that has stored
it, or nothing. -/
structure Consistent (s : Spinlock ι) : Prop where
  exclusive : ∀ c d, s.Owns c → s.Owns d → c = d
  locked : s.locked ≠ 0 ↔ ∃ c, s.Owns c
  field : s.cpu = 0 ∨ ∃ d, (s.pc d).Named ∧ s.cpu = apicId d
  owner : ∀ c, s.Owns c → (s.pc c).Named → s.cpu = 0 ∨ s.cpu = apicId c

omit [DecidableEq ι] in
theorem initLock_consistent : (initLock : Spinlock ι).Consistent apicId :=
  ⟨nofun, iff_of_false (fun h => h rfl) nofun, .inl rfl, nofun⟩

/-- A step that only moves a CPU on. -/
theorem Consistent.goto (h : s.Consistent apicId) (howns : pc.Owns ↔ (s.pc c).Owns)
    (hnamed : pc.Named ↔ (s.pc c).Named) : (s.goto c pc).Consistent apicId := by
  have howns' : ∀ d, (s.goto c pc).Owns d ↔ s.Owns d := by
    intro d
    unfold Owns
    by_cases hd : d = c
    · rw [hd, goto_pc_self, howns]
    · rw [goto_pc_of_ne hd]
  have hnamed' : ∀ d, ((s.goto c pc).pc d).Named ↔ (s.pc d).Named := by
    intro d
    by_cases hd : d = c
    · rw [hd, goto_pc_self, hnamed]
    · rw [goto_pc_of_ne hd]
  refine ⟨fun d e hd he => ?_, ?_, ?_, fun d hd hn => ?_⟩
  · exact h.exclusive d e ((howns' d).mp hd) ((howns' e).mp he)
  · exact h.locked.trans (exists_congr fun d => (howns' d).symm)
  · exact h.field.imp_right fun ⟨d, hn, hcpu⟩ => ⟨d, (hnamed' d).mpr hn, hcpu⟩
  · exact h.owner d ((howns' d).mp hd) ((hnamed' d).mp hn)

omit [DecidableEq ι] in
theorem Consistent.kernelWrite (h : s.Consistent apicId) (text : String) :
    (s.kernelWrite text).Consistent apicId := ⟨h.exclusive, h.locked, h.field, h.owner⟩

/-- The lock was free, and the CPU takes it. -/
theorem Consistent.take (h : s.Consistent apicId) (hpc : s.pc c = .xchg) (hfree : s.locked = 0) :
    ({ s with locked := 1 }.goto c .storeCpu).Consistent apicId := by
  have hnone : ∀ d, ¬ s.Owns d := fun d hd => h.locked.mpr ⟨d, hd⟩ hfree
  have hother : ∀ d, ({ s with locked := 1 }.goto c .storeCpu).Owns d → d = c := by
    intro d hd
    by_contra hne
    rw [Owns, goto_pc_of_ne hne] at hd
    exact hnone d hd
  refine ⟨fun d e hd he => (hother d hd).trans (hother e he).symm, ?_, ?_, fun d hd hn => ?_⟩
  · refine iff_of_true taken_ne_zero ⟨c, ?_⟩
    rw [Owns, goto_pc_self]
    trivial
  · obtain hcpu | ⟨d, hn, hcpu⟩ := h.field
    · exact .inl hcpu
    · have hd : d ≠ c := by
        rintro rfl
        rw [hpc] at hn
        exact hn
      exact .inr ⟨d, by rwa [goto_pc_of_ne hd], hcpu⟩
  · rw [hother d hd, goto_pc_self] at hn
    exact hn.elim

/-- The lock was taken, and the CPU tries again. -/
theorem Consistent.spin (h : s.Consistent apicId) (hpc : s.pc c = .xchg) (htaken : s.locked ≠ 0) :
    ({ s with locked := 1 }.goto c .xchg).Consistent apicId := by
  have hlocked : { s with locked := 1 }.Consistent apicId :=
    ⟨h.exclusive, iff_of_true taken_ne_zero (h.locked.mp htaken), h.field, h.owner⟩
  exact hlocked.goto (by rw [← hpc]) (by rw [← hpc])

/-- The owner writes its id. -/
theorem Consistent.name (h : s.Consistent apicId) (hpc : s.pc c = .storeCpu) :
    ({ s with cpu := apicId c }.goto c .critical).Consistent apicId := by
  have hc : s.Owns c := by
    rw [Owns, hpc]
    trivial
  have hother : ∀ d, ({ s with cpu := apicId c }.goto c .critical).Owns d → d = c := by
    intro d hd
    by_contra hne
    rw [Owns, goto_pc_of_ne hne] at hd
    exact hne (h.exclusive d c hd hc)
  have howns : ({ s with cpu := apicId c }.goto c .critical).Owns c := by
    rw [Owns, goto_pc_self]
    trivial
  refine ⟨fun d e hd he => (hother d hd).trans (hother e he).symm, ?_, ?_, fun d hd _ => ?_⟩
  · exact iff_of_true (h.locked.mpr ⟨c, hc⟩) ⟨c, howns⟩
  · exact .inr ⟨c, by rw [goto_pc_self]; trivial, rfl⟩
  · rw [hother d hd]
    exact .inr rfl

/-- The owner gives the lock back, and its id stays in the field. -/
theorem Consistent.give (h : s.Consistent apicId) (hpc : s.pc c = .storeLocked) :
    ({ s with locked := 0 }.goto c .clearCpu).Consistent apicId := by
  have hc : s.Owns c := by
    rw [Owns, hpc]
    trivial
  have hnone : ∀ d, ¬ ({ s with locked := 0 }.goto c .clearCpu).Owns d := by
    intro d hd
    by_cases hne : d = c
    · rw [hne, Owns, goto_pc_self] at hd
      exact hd
    · rw [Owns, goto_pc_of_ne hne] at hd
      exact hne (h.exclusive d c hd hc)
  refine ⟨fun d e hd => absurd hd (hnone d), ?_, ?_, fun d hd => absurd hd (hnone d)⟩
  · exact iff_of_false (fun hlocked => hlocked rfl) fun ⟨d, hd⟩ => hnone d hd
  · obtain hcpu | ⟨d, hn, hcpu⟩ := h.field
    · exact .inl hcpu
    · refine .inr ⟨d, ?_, hcpu⟩
      by_cases hne : d = c
      · rw [hne, goto_pc_self]
        trivial
      · rwa [goto_pc_of_ne hne]

/-- The field is cleared, whoever may own the lock by now. -/
theorem Consistent.clear (h : s.Consistent apicId) (hpc : s.pc c = .clearCpu) :
    ({ s with cpu := 0 }.goto c .idle).Consistent apicId := by
  have howns : ∀ d, ({ s with cpu := 0 }.goto c .idle).Owns d ↔ s.Owns d := by
    intro d
    unfold Owns
    by_cases hd : d = c
    · rw [hd, goto_pc_self, hpc]
      rfl
    · rw [goto_pc_of_ne hd]
  refine ⟨fun d e hd he => ?_, ?_, .inl rfl, fun d _ _ => .inl rfl⟩
  · exact h.exclusive d e ((howns d).mp hd) ((howns e).mp he)
  · exact h.locked.trans (exists_congr fun d => (howns d).symm)

/-- Whatever the CPUs do, the lock has one owner at a time. -/
theorem Consistent.step (h : s.Consistent apicId) (hstep : s.step apicId c = some t) :
    t.Consistent apicId := by
  obtain rfl := Option.some.inj hstep
  cases hpc : s.pc c with
  | idle =>
      apply h.goto
      · rw [hpc]
        split <;> rfl
      · rw [hpc]
        split <;> rfl
  | acquireReadCpu => exact h.goto (by rw [hpc]; rfl) (by rw [hpc]; rfl)
  | acquireHeld res =>
      cases res with
      | false => exact h.goto (by rw [hpc]; rfl) (by rw [hpc]; rfl)
      | true =>
          exact (h.kernelWrite _).goto (by rw [kernelWrite_pc, hpc]; rfl)
            (by rw [kernelWrite_pc, hpc]; rfl)
  | xchg =>
      dsimp only
      split
      case isTrue hfree => exact h.take hpc hfree
      case isFalse htaken => exact h.spin hpc htaken
  | storeCpu => exact h.name hpc
  | critical =>
      apply h.goto
      · rw [hpc]
        split <;> rfl
      · rw [hpc]
        split <;> rfl
  | releaseReadCpu => exact h.goto (by rw [hpc]; rfl) (by rw [hpc]; rfl)
  | releaseHeld res =>
      cases res with
      | true => exact h.goto (by rw [hpc]; rfl) (by rw [hpc]; rfl)
      | false =>
          exact (h.kernelWrite _).goto (by rw [kernelWrite_pc, hpc]; rfl)
            (by rw [kernelWrite_pc, hpc]; rfl)
  | storeLocked => exact h.give hpc
  | clearCpu => exact h.clear hpc

/-! ## What `holding` returns -/

omit [DecidableEq ι] in
theorem initLock_truthful : (initLock : Spinlock ι).Truthful := ⟨nofun, nofun, rfl⟩

/-- A CPU moves on, and not with a wrong result. -/
theorem Truthful.goto (h : s.Truthful) (hacquire : pc ≠ .acquireHeld true)
    (hrelease : pc ≠ .releaseHeld false) : (s.goto c pc).Truthful := by
  refine ⟨fun d res hpc => ?_, fun d res hpc => ?_, h.printed⟩
  · by_cases hd : d = c
    · rw [hd, goto_pc_self] at hpc
      rw [Owns, hd, goto_pc_self, hpc]
      cases res with
      | false => exact iff_of_false Bool.false_ne_true id
      | true => exact absurd hpc hacquire
    · rw [goto_pc_of_ne hd] at hpc
      rw [Owns, goto_pc_of_ne hd]
      exact h.acquire d res hpc
  · by_cases hd : d = c
    · rw [hd, goto_pc_self] at hpc
      rw [Owns, hd, goto_pc_self, hpc]
      cases res with
      | false => exact absurd hpc hrelease
      | true => exact iff_of_true rfl trivial
    · rw [goto_pc_of_ne hd] at hpc
      rw [Owns, goto_pc_of_ne hd]
      exact h.release d res hpc

omit [DecidableEq ι] in
/-- In `acquire` the field `cpu` never holds the id of the CPU itself, unless that is `0`. -/
theorem Consistent.acquire_cpu (h : s.Consistent apicId) (hids : Function.Injective apicId)
    (hpc : s.pc c = .acquireReadCpu) (hgood : s.OwnerKnown apicId c) : s.cpu ≠ apicId c := by
  intro hcpu
  obtain hzero | ⟨d, hnamed, hd⟩ := h.field
  · exact hgood.1 hpc (hcpu.symm.trans hzero) hzero
  · obtain rfl := hids (hd.symm.trans hcpu)
    rw [hpc] at hnamed
    exact hnamed

omit [DecidableEq ι] in
/-- In `release` the field `cpu` holds the id of the CPU, unless it was cleared. -/
theorem Consistent.release_cpu (h : s.Consistent apicId) (hpc : s.pc c = .releaseReadCpu)
    (hgood : s.OwnerKnown apicId c) : s.cpu = apicId c := by
  obtain hzero | hcpu := h.owner c (by rw [Owns, hpc]; trivial) (by rw [hpc]; trivial)
  · by_cases hid : apicId c = 0
    · exact hzero.trans hid.symm
    · exact absurd hzero (hgood.2 hpc hid)
  · exact hcpu

theorem Truthful.step (h : s.Truthful) (hs : s.Consistent apicId)
    (hids : Function.Injective apicId) (hgood : s.OwnerKnown apicId c)
    (hstep : s.step apicId c = some t) : t.Truthful := by
  obtain rfl := Option.some.inj hstep
  cases hpc : s.pc c with
  | idle =>
      apply h.goto
      · split <;> exact nofun
      · split <;> exact nofun
  | acquireReadCpu =>
      -- The owner is known, so that the compare with `cpu` tells who holds the lock.
      have hcpu := hs.acquire_cpu hids hpc hgood
      exact h.goto (by simpa using hcpu) nofun
  | acquireHeld res =>
      cases res with
      | false => exact h.goto nofun nofun
      | true =>
          have howns := (h.acquire c true hpc).mp rfl
          rw [Owns, hpc] at howns
          exact howns.elim
  | xchg =>
      have hlocked : { s with locked := 1 }.Truthful := ⟨h.acquire, h.release, h.printed⟩
      apply hlocked.goto
      · split <;> exact nofun
      · split <;> exact nofun
  | storeCpu =>
      have hcpu : { s with cpu := apicId c }.Truthful := ⟨h.acquire, h.release, h.printed⟩
      exact hcpu.goto nofun nofun
  | critical =>
      have hlocked : s.locked ≠ 0 := hs.locked.mpr ⟨c, by rw [Owns, hpc]; trivial⟩
      dsimp only
      rw [if_neg hlocked]
      exact h.goto nofun nofun
  | releaseReadCpu =>
      have hcpu := hs.release_cpu hpc hgood
      exact h.goto nofun (by simpa using hcpu)
  | releaseHeld res =>
      cases res with
      | true => exact h.goto nofun nofun
      | false =>
          have howns : s.Owns c := by
            rw [Owns, hpc]
            trivial
          exact absurd ((h.release c false hpc).mpr howns) Bool.false_ne_true
  | storeLocked =>
      have hlocked : { s with locked := 0 }.Truthful := ⟨h.acquire, h.release, h.printed⟩
      exact hlocked.goto nofun nofun
  | clearCpu =>
      have hcpu : { s with cpu := 0 }.Truthful := ⟨h.acquire, h.release, h.printed⟩
      exact hcpu.goto nofun nofun

omit [DecidableEq ι] in
theorem not_ownerKnown (h : ¬ s.OwnerKnown apicId c) :
    (s.pc c = .acquireReadCpu ∧ s.cpu = apicId c) ∨
      (s.pc c = .releaseReadCpu ∧ s.cpu ≠ apicId c) := by
  obtain h | h := not_and_or.mp h
  · push Not at h
    obtain ⟨hpc, hid, hcpu⟩ := h
    exact .inl ⟨hpc, hcpu.trans hid.symm⟩
  · push Not at h
    obtain ⟨hpc, hid, hcpu⟩ := h
    exact .inr ⟨hpc, fun heq => hid (heq.symm.trans hcpu)⟩

/-- A CPU that finds the field cleared is told that it holds the lock, if its own id is `0`, or
that it does not hold it. -/
theorem not_truthful_step (hgood : ¬ s.OwnerKnown apicId c) :
    ∃ t, s.step apicId c = some t ∧ ¬ t.Truthful := by
  refine ⟨_, rfl, fun ht => ?_⟩
  obtain ⟨hpc, hcpu⟩ | ⟨hpc, hcpu⟩ := not_ownerKnown hgood
  · rw [hpc] at ht
    change (s.goto c (.acquireHeld (decide (s.cpu = apicId c)))).Truthful at ht
    rw [decide_eq_true hcpu] at ht
    have howns := (ht.acquire c true goto_pc_self).mp rfl
    rw [Owns, goto_pc_self] at howns
    exact howns
  · rw [hpc] at ht
    change (s.goto c (.releaseHeld (decide (s.cpu = apicId c)))).Truthful at ht
    rw [decide_eq_false hcpu] at ht
    have howns : (s.goto c (.releaseHeld false)).Owns c := by
      rw [Owns, goto_pc_self]
      trivial
    exact Bool.false_ne_true ((ht.release c false goto_pc_self).mpr howns)

/-- Any number of CPUs with distinct ids take and release a lock in turns. `holding` tells the
truth throughout exactly the runs in which no CPU finds the field `cpu` cleared: the CPU with
the id `0` in `acquire`, and the others in `release`. -/
theorem always_truthful_iff (hids : Function.Injective apicId) (cpus : List ι) :
    Always (step apicId) Truthful initLock cpus ↔
      Admissible (step apicId) (OwnerKnown apicId) initLock cpus := by
  refine always_iff_admissible (fun s : Spinlock ι => s.Consistent apicId ∧ s.Truthful)
    (fun s hs => hs.2)
    (fun s c t hs _ hgood hstep => ⟨hs.1.step hstep, hs.2.step hs.1 hids hgood hstep⟩)
    (fun s c hs _ hgood => not_truthful_step hgood) ⟨initLock_consistent, initLock_truthful⟩
    (.of_forall fun _ _ _ => trivial)

/-- Two CPUs with the ids `0` and `1`. -/
def twoCPUs (c : Fin 2) : Word := BitVec.ofNat 32 c

theorem twoCPUs_injective : Function.Injective twoCPUs := by
  have h : ∀ c d, twoCPUs c = twoCPUs d → c = d := by decide
  exact fun c d => h c d

/-- The second CPU takes the lock, and the first one asks for it before the id is stored. -/
def askedTooEarly : List (Fin 2) := [1, 1, 1, 0, 0]

theorem always_truthful_askedTooEarly :
    Always (step twoCPUs) Truthful initLock askedTooEarly ↔
      Admissible (step twoCPUs) (OwnerKnown twoCPUs) initLock askedTooEarly :=
  always_truthful_iff twoCPUs_injective askedTooEarly

/-- The CPU with the id `0` is told that it holds the lock of the other one. -/
theorem not_always_truthful :
    ¬ ∀ (n : Nat) (apicId : Fin n → Word) (cpus : List (Fin n)), Function.Injective apicId →
      Always (step apicId) Truthful initLock cpus := by
  intro hclaim
  have halways := hclaim 2 twoCPUs askedTooEarly twoCPUs_injective
  have hlast : (runSteps (step twoCPUs) initLock askedTooEarly).any (fun s => decide
      (s.pc 0 = .acquireHeld true ∧ ¬ (s.pc 0).Owns)) = true := by decide +kernel
  obtain ⟨s, hrun, hs⟩ := (Option.any_eq_true _ _).mp hlast
  obtain ⟨hpc, howns⟩ := of_decide_eq_true hs
  exact howns (((halways.last hrun).acquire 0 true hpc).mp rfl)

end Spinlock

end Senob.Sys
