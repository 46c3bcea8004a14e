import Mathlib.Algebra.Ring.Nat
import Mathlib.Data.List.Basic
import Mathlib.Data.Option.Basic

/-!
# Loops and runs

Two induction principles that every stateful component uses. A `while` loop is
its guard and its body, cut off after a number of rounds; a run is a partial
step function folded over a list of operations, or a total one with answers.
The rules below turn a fact about one round, or about one step, into a fact
about the whole.
-/

namespace Senob.Foundation

section Loop

variable {σ : Type*}

/-- `while (guard) body`, cut off after `fuel` rounds. The result is `none` when
the guard still holds at the cut-off. -/
def whileFuel (guard : σ → Bool) (body : σ → σ) : Nat → σ → Option σ
  | 0, s => if guard s then none else some s
  | fuel + 1, s => if guard s then whileFuel guard body fuel (body s) else some s

theorem whileFuel_of_false {guard : σ → Bool} {body : σ → σ} {s : σ} (h : guard s = false)
    (fuel : Nat) : whileFuel guard body fuel s = some s := by
  cases fuel <;> simp [whileFuel, h]

theorem whileFuel_of_true {guard : σ → Bool} {body : σ → σ} {s : σ} (h : guard s = true)
    (fuel : Nat) :
    whileFuel guard body (fuel + 1) s = whileFuel guard body fuel (body s) := by
  simp [whileFuel, h]

/-- What the body keeps holds when the loop returns. -/
theorem whileFuel_invariant {guard : σ → Bool} {body : σ → σ} (inv : σ → Prop)
    (hbody : ∀ s, inv s → inv (body s)) {fuel : Nat} {s t : σ} (hs : inv s)
    (hrun : whileFuel guard body fuel s = some t) : inv t := by
  induction fuel generalizing s with
  | zero =>
      cases hguard : guard s with
      | false =>
          obtain rfl := Option.some.inj ((whileFuel_of_false hguard 0).symm.trans hrun)
          exact hs
      | true => simp [whileFuel, hguard] at hrun
  | succ fuel ih =>
      cases hguard : guard s with
      | false =>
          obtain rfl := Option.some.inj ((whileFuel_of_false hguard _).symm.trans hrun)
          exact hs
      | true => exact ih (hbody s hs) ((whileFuel_of_true hguard fuel).symm.trans hrun)

/-- Total correctness of a bounded loop. The invariant is indexed by a bound on
the rounds that remain, so it may speak about data that the state itself does
not hold. -/
theorem whileFuel_rule {guard : σ → Bool} {body : σ → σ} {inv : Nat → σ → Prop}
    (hstep : ∀ n s, inv n s → guard s = true → ∃ m < n, inv m (body s)) :
    ∀ {fuel n : Nat} {s : σ}, inv n s → n ≤ fuel →
      ∃ t m, whileFuel guard body fuel s = some t ∧ inv m t ∧ guard t = false := by
  intro fuel
  induction fuel with
  | zero =>
      intro n s hinv hn
      cases hguard : guard s with
      | false => exact ⟨s, n, by simp [whileFuel, hguard], hinv, hguard⟩
      | true =>
          obtain ⟨m, hm, _⟩ := hstep n s hinv hguard
          omega
  | succ fuel ih =>
      intro n s hinv hn
      cases hguard : guard s with
      | false => exact ⟨s, n, by simp [whileFuel, hguard], hinv, hguard⟩
      | true =>
          obtain ⟨m, hm, hnext⟩ := hstep n s hinv hguard
          obtain ⟨t, k, hrun, hpost⟩ := ih hnext (by omega)
          exact ⟨t, k, by simp [whileFuel, hguard, hrun], hpost⟩

/-- A loop whose body may stop. Where the body never does, it is the loop of what the body
returns. -/
theorem whileFuel_bind {guard : σ → Bool} {body : σ → σ} {checked : σ → Option σ} (inv : σ → Prop)
    (hstep : ∀ s, inv s → guard s = true → checked s = some (body s) ∧ inv (body s))
    (fuel : Nat) {s : σ} (hs : inv s) :
    whileFuel (fun r => r.any guard) (fun r => r.bind checked) fuel (some s) =
      (whileFuel guard body fuel s).map some := by
  induction fuel generalizing s with
  | zero => cases hguard : guard s <;> simp [whileFuel, hguard]
  | succ fuel ih =>
      cases hguard : guard s with
      | false => simp [whileFuel, hguard]
      | true =>
          obtain ⟨hchecked, hnext⟩ := hstep s hs hguard
          rw [whileFuel_of_true (by simpa using hguard), whileFuel_of_true hguard,
            Option.bind_some, hchecked]
          exact ih hnext

/-- A loop whose rounds change nothing. -/
theorem foldlM_fixed {β : Type*} {f : σ → β → Option σ} {s : σ} {l : List β}
    (h : ∀ b ∈ l, f s b = some s) : l.foldlM f s = some s := by
  induction l with
  | nil => rfl
  | cons b rest ih =>
      rw [List.foldlM_cons, h b List.mem_cons_self]
      exact ih fun c hc => h c (List.mem_cons_of_mem b hc)

/-- A counting loop whose rounds return, and what they keep. -/
theorem exists_foldlM_range {f : σ → Nat → Option σ} (inv : Nat → σ → Prop) {n : Nat}
    (hstep : ∀ i < n, ∀ s, inv i s → ∃ t, f s i = some t ∧ inv (i + 1) t) {s : σ}
    (hs : inv 0 s) : ∃ t, (List.range n).foldlM f s = some t ∧ inv n t := by
  induction n with
  | zero => exact ⟨s, rfl, hs⟩
  | succ n ih =>
      obtain ⟨t, hrun, ht⟩ := ih fun i hi => hstep i (Nat.lt_succ_of_lt hi)
      obtain ⟨u, hcall, hu⟩ := hstep n (Nat.lt_succ_self n) t ht
      refine ⟨u, ?_, hu⟩
      rw [List.range_succ, List.foldlM_append, hrun]
      exact (bind_pure (f t n)).trans hcall

/-- What holds before a counting loop and moves on with every round holds at its end. -/
theorem foldlM_range_invariant {f : σ → Nat → Option σ} (inv : Nat → σ → Prop) {n : Nat}
    (hstep : ∀ i < n, ∀ s t, inv i s → f s i = some t → inv (i + 1) t) {s t : σ} (hs : inv 0 s)
    (hrun : (List.range n).foldlM f s = some t) : inv n t := by
  induction n generalizing t with
  | zero =>
      obtain rfl : s = t := by simpa using hrun
      exact hs
  | succ n ih =>
      rw [List.range_succ, List.foldlM_append] at hrun
      obtain ⟨u, hu, hrun⟩ := Option.bind_eq_some_iff.mp hrun
      have hlast : f u n = some t := by simpa using hrun
      exact hstep n (Nat.lt_succ_self n) u t
        (ih (fun i hi => hstep i (Nat.lt_succ_of_lt hi)) hu) hlast

end Loop

section Run

variable {σ α : Type*} (step : σ → α → Option σ)

/-- Execute a list of operations from a state. -/
def runSteps (s : σ) : List α → Option σ
  | [] => some s
  | a :: rest => (step s a).bind fun t => runSteps t rest

@[simp] theorem runSteps_nil (s : σ) : runSteps step s [] = some s := rfl

theorem runSteps_cons (s : σ) (a : α) (rest : List α) :
    runSteps step s (a :: rest) = (step s a).bind fun t => runSteps step t rest := rfl

theorem runSteps_append (s : σ) (first second : List α) :
    runSteps step s (first ++ second) =
      (runSteps step s first).bind fun t => runSteps step t second := by
  induction first generalizing s with
  | nil => rfl
  | cons a rest ih =>
      rw [List.cons_append, runSteps_cons, runSteps_cons, Option.bind_assoc]
      exact congrArg _ (funext fun t => ih t)

/-- A counting loop is the run of the operations that its rounds execute. -/
theorem runSteps_map {β : Type*} (op : β → α) (s : σ) (items : List β) :
    runSteps step s (items.map op) = items.foldlM (fun s b => step s (op b)) s := by
  induction items generalizing s with
  | nil => rfl
  | cons b rest ih =>
      rw [List.map_cons, runSteps_cons, List.foldlM_cons]
      exact congrArg _ (funext fun t => ih t)

/-- Every operation of the list is enabled in the state that it is executed in. -/
def Admissible (enabled : σ → α → Prop) (s : σ) : List α → Prop
  | [] => True
  | a :: rest => enabled s a ∧ ∀ t, step s a = some t → Admissible enabled t rest

variable {step} {enabled : σ → α → Prop}

theorem Admissible.of_append {s : σ} {first second : List α}
    (h : Admissible step enabled s (first ++ second)) : Admissible step enabled s first := by
  induction first generalizing s with
  | nil => trivial
  | cons a rest ih => exact ⟨h.1, fun t ht => ih (h.2 t ht)⟩

theorem Admissible.after {s t : σ} {first second : List α}
    (h : Admissible step enabled s (first ++ second)) (ht : runSteps step s first = some t) :
    Admissible step enabled t second := by
  induction first generalizing s with
  | nil =>
      obtain rfl : s = t := by simpa using ht
      exact h
  | cons a rest ih =>
      rw [runSteps_cons] at ht
      obtain ⟨u, hu, ht⟩ := Option.bind_eq_some_iff.mp ht
      exact ih (h.2 u hu) ht

theorem Admissible.append {s : σ} {first second : List α}
    (h : Admissible step enabled s first)
    (hsecond : ∀ t, runSteps step s first = some t → Admissible step enabled t second) :
    Admissible step enabled s (first ++ second) := by
  induction first generalizing s with
  | nil => exact hsecond s rfl
  | cons a rest ih =>
      refine ⟨h.1, fun t ht => ih (h.2 t ht) fun u hu => hsecond u ?_⟩
      rw [runSteps_cons, ht]
      exact hu

theorem Admissible.inter {good : σ → α → Prop} {s : σ} {ops : List α}
    (h : Admissible step enabled s ops) (h' : Admissible step good s ops) :
    Admissible step (fun s a => enabled s a ∧ good s a) s ops := by
  induction ops generalizing s with
  | nil => trivial
  | cons a rest ih => exact ⟨⟨h.1, h'.1⟩, fun t ht => ih (h.2 t ht) (h'.2 t ht)⟩

/-- What is true of every operation of the list may be added to what is enabled. -/
theorem Admissible.and {s : σ} {ops : List α} (h : Admissible step enabled s ops) {p : α → Prop}
    (hp : ∀ a ∈ ops, p a) : Admissible step (fun s a => enabled s a ∧ p a) s ops := by
  induction ops generalizing s with
  | nil => trivial
  | cons a rest ih =>
      exact ⟨⟨h.1, hp a (by simp)⟩, fun t ht => ih (h.2 t ht) fun a ha => hp a (by simp [ha])⟩

/-- An operation that is repeated, and enabled behind any smaller number of rounds. -/
theorem Admissible.replicate {a : α} {n : Nat} {s : σ}
    (h : ∀ i < n, ∀ t ∈ runSteps step s (List.replicate i a), enabled t a) :
    Admissible step enabled s (List.replicate n a) := by
  induction n generalizing s with
  | zero => trivial
  | succ n ih =>
      refine ⟨h 0 n.succ_pos s rfl, fun t ht => ih fun i hi u hu => ?_⟩
      refine h (i + 1) (Nat.succ_lt_succ hi) u ?_
      rw [List.replicate_succ, runSteps_cons, ht]
      exact hu

/-- Operations that are enabled under an invariant, which they keep. -/
theorem Admissible.of_invariant {ops : List α} (inv : σ → Prop)
    (henabled : ∀ a ∈ ops, ∀ s, inv s → enabled s a)
    (hstep : ∀ a ∈ ops, ∀ s t, inv s → step s a = some t → inv t) {s : σ} (hs : inv s) :
    Admissible step enabled s ops := by
  induction ops generalizing s with
  | nil => trivial
  | cons a rest ih =>
      refine ⟨henabled a List.mem_cons_self s hs, fun t ht => ?_⟩
      exact ih (fun b hb => henabled b (List.mem_cons_of_mem a hb))
        (fun b hb => hstep b (List.mem_cons_of_mem a hb)) (hstep a List.mem_cons_self s t hs ht)

/-- Operations with a cost, of which a limited amount is left. The invariant counts what is
spent. -/
theorem Admissible.of_cost {ops : List α} (inv : Nat → σ → Prop) (cost : α → Nat) {limit : Nat}
    (hstep : ∀ a ∈ ops, ∀ n s, inv n s → n + cost a ≤ limit →
      enabled s a ∧ ∀ t, step s a = some t → inv (n + cost a) t)
    {n : Nat} {s : σ} (hs : inv n s) (hlimit : n + (ops.map cost).sum ≤ limit) :
    Admissible step enabled s ops := by
  induction ops generalizing n s with
  | nil => trivial
  | cons a rest ih =>
      rw [List.map_cons, List.sum_cons, ← Nat.add_assoc] at hlimit
      obtain ⟨henabled, hnext⟩ := hstep a List.mem_cons_self n s hs (Nat.le_of_add_right_le hlimit)
      exact ⟨henabled, fun t ht => ih (fun b hb => hstep b (List.mem_cons_of_mem a hb))
        (hnext t ht) hlimit⟩

/-- Operations that every state enables. -/
theorem Admissible.of_forall {s : σ} {ops : List α} (h : ∀ a ∈ ops, ∀ s, enabled s a) :
    Admissible step enabled s ops := by
  induction ops generalizing s with
  | nil => trivial
  | cons a rest ih =>
      exact ⟨h a List.mem_cons_self s, fun t _ => ih fun b hb => h b (List.mem_cons_of_mem a hb)⟩

/-- Where good operations are defined and keep an invariant, a run of good operations is a
list of them. -/
theorem admissible_iff_forall (inv : σ → Prop) {good : α → Prop}
    (hstep : ∀ s a, inv s → enabled s a → good a → ∃ t, step s a = some t ∧ inv t)
    {s : σ} {ops : List α} (hs : inv s) (hops : Admissible step enabled s ops) :
    Admissible step (fun _ a => good a) s ops ↔ ∀ a ∈ ops, good a := by
  induction ops generalizing s with
  | nil => exact iff_of_true trivial nofun
  | cons a rest ih =>
      rw [List.forall_mem_cons]
      constructor
      · rintro ⟨ha, hrest⟩
        obtain ⟨t, ht, hinv⟩ := hstep s a hs hops.1 ha
        exact ⟨ha, (ih hinv (hops.2 t ht)).mp (hrest t ht)⟩
      · rintro ⟨ha, hrest⟩
        exact ⟨ha, fun _ _ => .of_forall fun a ha _ => hrest a ha⟩

theorem Admissible.imp {enabled' : σ → α → Prop} (himp : ∀ s a, enabled s a → enabled' s a)
    {s : σ} {ops : List α} (h : Admissible step enabled s ops) :
    Admissible step enabled' s ops := by
  induction ops generalizing s with
  | nil => trivial
  | cons a rest ih => exact ⟨himp s a h.1, fun t ht => ih (h.2 t ht)⟩

instance Admissible.decidable [∀ s a, Decidable (enabled s a)] :
    ∀ s ops, Decidable (Admissible step enabled s ops)
  | _, [] => isTrue trivial
  | s, a :: rest =>
      match hstep : step s a with
      | none => decidable_of_iff (enabled s a)
          ⟨fun h => ⟨h, fun _ ht => nomatch hstep.symm.trans ht⟩, And.left⟩
      | some t =>
          have := Admissible.decidable t rest
          decidable_of_iff (enabled s a ∧ Admissible step enabled t rest)
            ⟨fun h => ⟨h.1, fun _ hu => Option.some.inj (hstep.symm.trans hu) ▸ h.2⟩,
              fun h => ⟨h.1, h.2 t hstep⟩⟩

/-- An invariant that every enabled step keeps holds at the end of every run. -/
theorem runSteps_invariant (inv : σ → Prop)
    (hstep : ∀ s a t, inv s → enabled s a → step s a = some t → inv t)
    {s t : σ} {ops : List α} (hs : inv s) (hops : Admissible step enabled s ops)
    (hrun : runSteps step s ops = some t) : inv t := by
  induction ops generalizing s with
  | nil =>
      obtain rfl : s = t := by simpa using hrun
      exact hs
  | cons a rest ih =>
      rw [runSteps_cons] at hrun
      obtain ⟨u, hu, hrun⟩ := Option.bind_eq_some_iff.mp hrun
      exact ih (hstep s a u hs hops.1 hu) (hops.2 u hu) hrun

/-- An invariant that the operations of the list keep. -/
theorem runSteps_of_mem (inv : σ → Prop) {ops : List α}
    (hstep : ∀ a ∈ ops, ∀ s t, inv s → step s a = some t → inv t) {s t : σ} (hs : inv s)
    (hrun : runSteps step s ops = some t) : inv t := by
  induction ops generalizing s with
  | nil =>
      obtain rfl : s = t := by simpa using hrun
      exact hs
  | cons a rest ih =>
      rw [runSteps_cons] at hrun
      obtain ⟨u, hu, hrun⟩ := Option.bind_eq_some_iff.mp hrun
      exact ih (fun b hb => hstep b (List.mem_cons_of_mem a hb))
        (hstep a List.mem_cons_self s u hs hu) hrun

/-- If every enabled step from an invariant state is defined and keeps the
invariant, then every admissible run is defined and ends in the invariant. -/
theorem runSteps_total (inv : σ → Prop)
    (hstep : ∀ s a, inv s → enabled s a → ∃ t, step s a = some t ∧ inv t)
    {s : σ} {ops : List α} (hs : inv s) (hops : Admissible step enabled s ops) :
    ∃ t, runSteps step s ops = some t ∧ inv t := by
  induction ops generalizing s with
  | nil => exact ⟨s, rfl, hs⟩
  | cons a rest ih =>
      obtain ⟨u, hu, hinv⟩ := hstep s a hs hops.1
      obtain ⟨t, ht, htinv⟩ := ih hinv (hops.2 u hu)
      exact ⟨t, by rw [runSteps_cons, hu]; exact ht, htinv⟩

/-- Steps that agree under an invariant that they keep have the same runs. -/
theorem runSteps_congr {step' : σ → α → Option σ} (inv : σ → Prop)
    (hstep : ∀ s a t, inv s → enabled s a → step s a = some t → inv t)
    (hagree : ∀ s a, inv s → enabled s a → step' s a = step s a) {s : σ} {ops : List α}
    (hs : inv s) (hops : Admissible step enabled s ops) :
    runSteps step' s ops = runSteps step s ops := by
  induction ops generalizing s with
  | nil => rfl
  | cons a rest ih =>
      rw [runSteps_cons, runSteps_cons, hagree s a hs hops.1]
      refine Option.bind_congr fun u hu => ?_
      exact ih (hstep s a u hs hops.1 hu) (hops.2 u hu)

/-- A counting loop whose rounds are enabled and defined. The invariant counts the rounds. -/
theorem runSteps_range {op : Nat → α} (inv : Nat → σ → Prop) {n : Nat}
    (hstep : ∀ i < n, ∀ s, inv i s → enabled s (op i) ∧ ∃ t, step s (op i) = some t ∧ inv (i + 1) t)
    {s : σ} (hs : inv 0 s) :
    Admissible step enabled s ((List.range n).map op) ∧
      ∃ t, runSteps step s ((List.range n).map op) = some t ∧ inv n t := by
  induction n with
  | zero => exact ⟨trivial, s, rfl, hs⟩
  | succ n ih =>
      obtain ⟨hadmissible, t, hrun, ht⟩ := ih fun i hi => hstep i (Nat.lt_succ_of_lt hi)
      obtain ⟨henabled, u, hu, hinv⟩ := hstep n (Nat.lt_succ_self n) t ht
      rw [List.range_succ, List.map_append]
      refine ⟨hadmissible.append fun t' ht' => ?_, u, ?_, hinv⟩
      · obtain rfl := Option.some.inj (hrun.symm.trans ht')
        exact ⟨henabled, fun _ _ => trivial⟩
      · rw [runSteps_append, hrun, List.map_singleton, Option.bind_some, runSteps_cons, hu]
        rfl

variable (step) in
/-- The predicate holds in every state that the run passes, the first included. -/
def Always (inv : σ → Prop) (s : σ) : List α → Prop
  | [] => inv s
  | a :: rest => inv s ∧ ∀ t, step s a = some t → Always inv t rest

instance Always.decidable {inv : σ → Prop} [DecidablePred inv] :
    ∀ s ops, Decidable (Always step inv s ops)
  | s, [] => inferInstanceAs (Decidable (inv s))
  | s, a :: rest =>
      match hstep : step s a with
      | none => decidable_of_iff (inv s)
          ⟨fun h => ⟨h, fun _ ht => nomatch hstep.symm.trans ht⟩, And.left⟩
      | some t =>
          have : Decidable (Always step inv t rest) := Always.decidable t rest
          decidable_of_iff (inv s ∧ Always step inv t rest)
            ⟨fun h => ⟨h.1, fun _ hu => Option.some.inj (hstep.symm.trans hu) ▸ h.2⟩,
              fun h => ⟨h.1, h.2 t hstep⟩⟩

theorem Always.head {inv : σ → Prop} {s : σ} {ops : List α} (h : Always step inv s ops) :
    inv s := by
  cases ops with
  | nil => exact h
  | cons a rest => exact h.1

theorem Always.last {inv : σ → Prop} {s t : σ} {ops : List α} (h : Always step inv s ops)
    (hrun : runSteps step s ops = some t) : inv t := by
  induction ops generalizing s with
  | nil =>
      obtain rfl : s = t := by simpa using hrun
      exact h
  | cons a rest ih =>
      rw [runSteps_cons] at hrun
      obtain ⟨u, hu, hrun⟩ := Option.bind_eq_some_iff.mp hrun
      exact ih (h.2 u hu) hrun

theorem Always.of_append {inv : σ → Prop} {s : σ} {first second : List α}
    (h : Always step inv s (first ++ second)) : Always step inv s first := by
  induction first generalizing s with
  | nil => exact h.head
  | cons a rest ih => exact ⟨h.1, fun t ht => ih (h.2 t ht)⟩

theorem Always.after {inv : σ → Prop} {s t : σ} {first second : List α}
    (h : Always step inv s (first ++ second)) (ht : runSteps step s first = some t) :
    Always step inv t second := by
  induction first generalizing s with
  | nil =>
      obtain rfl : s = t := by simpa using ht
      exact h
  | cons a rest ih =>
      rw [runSteps_cons] at ht
      obtain ⟨u, hu, ht⟩ := Option.bind_eq_some_iff.mp ht
      exact ih (h.2 u hu) ht

/-- An invariant that every enabled step keeps holds throughout every run. -/
theorem always_of_invariant (inv : σ → Prop)
    (hstep : ∀ s a t, inv s → enabled s a → step s a = some t → inv t)
    {s : σ} {ops : List α} (hs : inv s) (hops : Admissible step enabled s ops) :
    Always step inv s ops := by
  induction ops generalizing s with
  | nil => exact hs
  | cons a rest ih => exact ⟨hs, fun t ht => ih (hstep s a t hs hops.1 ht) (hops.2 t ht)⟩

/-- If good steps keep an invariant and every other step ends in a state without the property
that the invariant implies, then the property holds throughout exactly the runs of good
steps. -/
theorem always_iff_admissible (inv : σ → Prop) {holds : σ → Prop} {good : σ → α → Prop}
    (hholds : ∀ s, inv s → holds s)
    (hgood : ∀ s a t, inv s → enabled s a → good s a → step s a = some t → inv t)
    (hbad : ∀ s a, inv s → enabled s a → ¬ good s a → ∃ t, step s a = some t ∧ ¬ holds t)
    {s : σ} {ops : List α} (hs : inv s) (hops : Admissible step enabled s ops) :
    Always step holds s ops ↔ Admissible step good s ops := by
  induction ops generalizing s with
  | nil => exact iff_of_true (hholds s hs) trivial
  | cons a rest ih =>
      constructor
      · rintro ⟨-, hrest⟩
        have ha : good s a := by
          by_contra ha
          obtain ⟨t, ht, hnot⟩ := hbad s a hs hops.1 ha
          exact hnot (hrest t ht).head
        exact ⟨ha, fun t ht => (ih (hgood s a t hs hops.1 ha ht) (hops.2 t ht)).mp (hrest t ht)⟩
      · rintro ⟨ha, hrest⟩
        exact ⟨hholds s hs, fun t ht =>
          (ih (hgood s a t hs hops.1 ha ht) (hops.2 t ht)).mpr (hrest t ht)⟩

/-- A run in two parts. -/
theorem Always.append {inv : σ → Prop} {s : σ} {first second : List α}
    (h : Always step inv s first)
    (hsecond : ∀ t, runSteps step s first = some t → Always step inv t second) :
    Always step inv s (first ++ second) := by
  induction first generalizing s with
  | nil => exact hsecond s rfl
  | cons a rest ih =>
      refine ⟨h.1, fun t ht => ih (h.2 t ht) fun u hu => hsecond u ?_⟩
      rw [runSteps_cons, ht]
      exact hu

theorem Always.imp {inv inv' : σ → Prop} (himp : ∀ s, inv s → inv' s) {s : σ} {ops : List α}
    (h : Always step inv s ops) : Always step inv' s ops := by
  induction ops generalizing s with
  | nil => exact himp s h
  | cons a rest ih => exact ⟨himp s h.1, fun t ht => ih (h.2 t ht)⟩

end Run

section Answers

variable {σ τ α β : Type*} (exec : σ → α → σ × β)

/-- Execute a list of calls, each with an answer. -/
def execute (s : σ) : List α → σ × List β
  | [] => (s, [])
  | a :: rest =>
      let last := execute (exec s a).1 rest
      (last.1, (exec s a).2 :: last.2)

variable {exec}

/-- Two machines whose calls answer alike in related states, and relate the states again. -/
theorem execute_refines {exec' : τ → α → τ × β} (rel : σ → τ → Prop) {ops : List α}
    (hcall : ∀ a ∈ ops, ∀ s t, rel s t →
      (exec s a).2 = (exec' t a).2 ∧ rel (exec s a).1 (exec' t a).1)
    {s : σ} {t : τ} (h : rel s t) :
    (execute exec s ops).2 = (execute exec' t ops).2 ∧
      rel (execute exec s ops).1 (execute exec' t ops).1 := by
  induction ops generalizing s t with
  | nil => exact ⟨rfl, h⟩
  | cons a rest ih =>
      obtain ⟨hanswer, hnext⟩ := hcall a List.mem_cons_self s t h
      obtain ⟨hanswers, hlast⟩ := ih (fun b hb => hcall b (List.mem_cons_of_mem a hb)) hnext
      exact ⟨congrArg₂ List.cons hanswer hanswers, hlast⟩

end Answers

end Senob.Foundation
