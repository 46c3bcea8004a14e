import Senob.Foundation.Run

/-!
# Programs that share memory under a lock

A program reads and writes shared memory one access at a time, and takes and gives back one
lock. Any number of processors execute such programs, and their steps interleave freely. What
each program does with the lock is a property of its text, whatever it reads; the rules below
turn it into a property of every interleaving.
-/

namespace Senob.Foundation

/-- A memory with its accesses, some of which the lock is there for. -/
structure SharedMemory where
  State : Type
  Read : Type
  Result : Read → Type
  eval : (r : Read) → State → Result r
  Write : Type
  apply : Write → State → State
  guardsRead : Read → Bool
  guardsWrite : Write → Bool

variable {M : SharedMemory} {L β γ : Type}

/-- A program with the result type `β`. The labels `L` name its parts. -/
inductive Code (M : SharedMemory) (L : Type) (β : Type) where
  | done (b : β)
  /-- A loop was cut off. -/
  | stuck
  | read (r : M.Read) (next : M.Result r → Code M L β)
  | write (w : M.Write) (next : Code M L β)
  | acquire (next : Code M L β)
  | release (next : Code M L β)
  /-- Control enters another part. -/
  | goto (l : L) (next : Code M L β)

namespace Code

def bind : Code M L β → (β → Code M L γ) → Code M L γ
  | done b, f => f b
  | stuck, _ => stuck
  | read r next, f => read r fun v => (next v).bind f
  | write w next, f => write w (next.bind f)
  | acquire next, f => acquire (next.bind f)
  | release next, f => release (next.bind f)
  | goto l next, f => goto l (next.bind f)

instance : Monad (Code M L) where
  pure := done
  bind := bind

/-- `while (guard) body`, cut off after `fuel` rounds. -/
def whileLoop (guard : β → Code M L Bool) (body : β → Code M L β) : Nat → β → Code M L β
  | 0, x => (guard x).bind fun b => if b then stuck else done x
  | fuel + 1, x => (guard x).bind fun b =>
      if b then (body x).bind (whileLoop guard body fuel) else done x

/-! ## Execution without interference -/

/-- What the program computes when nobody else runs. -/
def exec : Code M L β → M.State → Option (M.State × β)
  | done b, s => some (s, b)
  | stuck, _ => none
  | read r next, s => (next (M.eval r s)).exec s
  | write w next, s => next.exec (M.apply w s)
  | acquire next, s => next.exec s
  | release next, s => next.exec s
  | goto _ next, s => next.exec s

@[simp] theorem exec_pure (b : β) (s : M.State) :
    (pure b : Code M L β).exec s = some (s, b) := rfl

@[simp] theorem exec_bind (c : Code M L β) (f : β → Code M L γ) (s : M.State) :
    (c >>= f).exec s = (c.exec s).bind fun x => (f x.2).exec x.1 := by
  change (c.bind f).exec s = _
  induction c generalizing s with
  | done b => rfl
  | stuck => rfl
  | read r next ih => exact ih _ s
  | write w next ih => exact ih _
  | acquire next ih => exact ih s
  | release next ih => exact ih s
  | goto l next ih => exact ih s

@[simp] theorem exec_ite {p : Prop} [Decidable p] (c d : Code M L β) (s : M.State) :
    (if p then c else d).exec s = if p then c.exec s else d.exec s := by
  split <;> rfl

/-- A loop whose guard and body are functions of the memory and of the variables. -/
theorem exec_whileLoop {guard : β → Code M L Bool} {body : β → Code M L β}
    {g : M.State × β → Bool} {f : M.State × β → M.State × β}
    (hguard : ∀ s x, (guard x).exec s = some (s, g (s, x)))
    (hbody : ∀ s x, (body x).exec s = some (f (s, x))) (fuel : Nat) (s : M.State) (x : β) :
    (whileLoop guard body fuel x).exec s = whileFuel g f fuel (s, x) := by
  induction fuel generalizing s x with
  | zero =>
      refine (exec_bind (guard x) _ s).trans ?_
      rw [hguard, Option.bind_some, whileFuel]
      split <;> rfl
  | succ fuel ih =>
      refine (exec_bind (guard x) _ s).trans ?_
      rw [hguard, Option.bind_some, whileFuel]
      dsimp only
      split
      · refine (exec_bind (body x) _ s).trans ?_
        rw [hbody, Option.bind_some]
        exact ih _ _
      · rfl

/-- A loop that only reads. -/
theorem exec_whileLoop_read {guard : β → Code M L Bool} {body : β → Code M L β} {s : M.State}
    {g : β → Bool} {f : β → β} (hguard : ∀ x, (guard x).exec s = some (s, g x))
    (hbody : ∀ x, (body x).exec s = some (s, f x)) (fuel : Nat) (x : β) :
    (whileLoop guard body fuel x).exec s = (whileFuel g f fuel x).map fun y => (s, y) := by
  induction fuel generalizing x with
  | zero =>
      refine (exec_bind (guard x) _ s).trans ?_
      rw [hguard, Option.bind_some, whileFuel]
      split <;> rfl
  | succ fuel ih =>
      refine (exec_bind (guard x) _ s).trans ?_
      rw [hguard, Option.bind_some, whileFuel]
      dsimp only
      split
      · refine (exec_bind (body x) _ s).trans ?_
        rw [hbody, Option.bind_some]
        exact ih _
      · rfl

/-! ## The discipline of a program -/

/-- In its bad parts the program accesses what the lock is there for without the lock, and
everywhere else with it; it takes the lock only when it does not have it, and gives it back
only when it has it. At its end `post` holds of the part, the lock and the result. -/
def Obeys (bad : L → Prop) (post : L → Prop → β → Prop) : Code M L β → L → Prop → Prop
  | done b, l, held => post l held b
  | stuck, _, _ => True
  | read r next, l, held =>
      (M.guardsRead r → (held ↔ ¬ bad l)) ∧ ∀ v, (next v).Obeys bad post l held
  | write w next, l, held => (M.guardsWrite w → (held ↔ ¬ bad l)) ∧ next.Obeys bad post l held
  | acquire next, l, held => ¬ held ∧ next.Obeys bad post l True
  | release next, l, held => held ∧ next.Obeys bad post l False
  | goto l next, _, held => next.Obeys bad post l held

/-- The program leaves the lock and the part alone. -/
def Plain : Code M L β → Prop
  | done _ | stuck => True
  | read _ next => ∀ v, (next v).Plain
  | write _ next => next.Plain
  | acquire _ | release _ | goto _ _ => False

variable {bad : L → Prop} {post : L → Prop → γ → Prop} {c : Code M L β} {f : β → Code M L γ}
  {l : L} {held : Prop}

theorem Obeys.bind (h : c.Obeys bad (fun l held b => (f b).Obeys bad post l held) l held) :
    (c >>= f).Obeys bad post l held := by
  change (c.bind f).Obeys bad post l held
  induction c generalizing l held with
  | done b => exact h
  | stuck => trivial
  | read r next ih => exact ⟨h.1, fun v => ih v (h.2 v)⟩
  | write w next ih => exact ⟨h.1, ih h.2⟩
  | acquire next ih => exact ⟨h.1, ih h.2⟩
  | release next ih => exact ⟨h.1, ih h.2⟩
  | goto l next ih => exact ih h

theorem Plain.bind (h : c.Plain) (hf : ∀ b, (f b).Plain) : (c >>= f).Plain := by
  change (c.bind f).Plain
  induction c with
  | done b => exact hf b
  | stuck => trivial
  | read r next ih => exact fun v => ih v (h v)
  | write w next ih => exact ih h
  | acquire => exact h.elim
  | release => exact h.elim
  | goto => exact h.elim

theorem Plain.ite {p : Prop} {_ : Decidable p} {d : Code M L β} (h : c.Plain) (hd : d.Plain) :
    (if p then c else d).Plain := by
  split
  · exact h
  · exact hd

theorem Plain.whileLoop {guard : β → Code M L Bool} {body : β → Code M L β}
    (hguard : ∀ x, (guard x).Plain) (hbody : ∀ x, (body x).Plain) (fuel : Nat) (x : β) :
    (whileLoop guard body fuel x).Plain := by
  induction fuel generalizing x with
  | zero => exact (hguard x).bind fun b => .ite trivial trivial
  | succ fuel ih => exact (hguard x).bind fun b => .ite ((hbody x).bind ih) trivial

/-- A plain program obeys where it has the lock, or where it is bad not to have it. -/
theorem Plain.obeys {post : L → Prop → β → Prop} (h : c.Plain) (hheld : held ↔ ¬ bad l)
    (hpost : ∀ b, post l held b) : c.Obeys bad post l held := by
  induction c with
  | done b => exact hpost b
  | stuck => trivial
  | read r next ih => exact ⟨fun _ => hheld, fun v => ih v (h v)⟩
  | write w next ih => exact ⟨fun _ => hheld, ih h⟩
  | acquire => exact h.elim
  | release => exact h.elim
  | goto => exact h.elim

theorem Plain.obeys_bind {post : L → Prop → γ → Prop} (h : c.Plain) (hheld : held ↔ ¬ bad l)
    (hf : ∀ b, (f b).Obeys bad post l held) : (c >>= f).Obeys bad post l held :=
  Obeys.bind (h.obeys hheld hf)

theorem Obeys.ite {post : L → Prop → β → Prop} {p : Prop} {_ : Decidable p} {d : Code M L β}
    (h : c.Obeys bad post l held) (hd : d.Obeys bad post l held) :
    (if p then c else d).Obeys bad post l held := by
  split
  · exact h
  · exact hd

end Code

/-! ## Interleavings -/

/-- Processors that execute programs, with one shared memory and one lock. -/
structure Processors (M : SharedMemory) (L ι : Type) where
  memory : M.State
  owner : Option ι
  part : ι → L
  code : ι → Code M L Unit
  /-- Who has accessed what the lock is there for, and whether it had the lock. -/
  accesses : List (ι × Bool)

namespace Processors

variable {ι κ : Type} [DecidableEq ι] {bad : L → Prop}

/-- A processor begins with a call, or makes its next step. -/
inductive Event (ι κ : Type) where
  | start (c : ι) (call : κ)
  | step (c : ι)

def proceed (s : Processors M L ι) (c : ι) (next : Code M L Unit) : Processors M L ι :=
  { s with code := Function.update s.code c next }

def record (s : Processors M L ι) (c : ι) (guarded : Bool) : Processors M L ι :=
  if guarded then { s with accesses := (c, decide (s.owner = some c)) :: s.accesses } else s

/-- The next step of a processor. One that finds the lock taken tries again. -/
def advance (s : Processors M L ι) (c : ι) : Processors M L ι :=
  match s.code c with
  | .done _ | .stuck => s
  | .read r next => (s.record c (M.guardsRead r)).proceed c (next (M.eval r s.memory))
  | .write w next =>
      { s.record c (M.guardsWrite w) with memory := M.apply w s.memory }.proceed c next
  | .acquire next => if s.owner = none then { s with owner := some c }.proceed c next else s
  | .release next => { s with owner := none }.proceed c next
  | .goto l next => { s with part := Function.update s.part c l }.proceed c next

/-- Only a processor that is done begins with another call. -/
def step (body : κ → Code M L Unit) (s : Processors M L ι) : Event ι κ → Option (Processors M L ι)
  | .start c call =>
      match s.code c with
      | .done _ => some (s.proceed c (body call))
      | _ => none
  | .step c => some (s.advance c)

/-- Nobody has begun yet. -/
def start (memory : M.State) (l : L) : Processors M L ι :=
  ⟨memory, none, fun _ => l, fun _ => .done (), []⟩

/-- Every access was made with the lock. -/
def Covered (s : Processors M L ι) : Prop := ∀ a ∈ s.accesses, a.2 = true

/-- The next step of the processor is an access that the lock is there for. -/
def Accesses (s : Processors M L ι) (c : ι) : Prop :=
  match s.code c with
  | .read r _ => M.guardsRead r
  | .write w _ => M.guardsWrite w
  | _ => False

/-- The step is no access in a bad part of a program. -/
def Lawful (bad : L → Prop) (s : Processors M L ι) : Event ι κ → Prop
  | .start .. => True
  | .step c => s.Accesses c → ¬ bad (s.part c)

/-- What is left of each program obeys. -/
def Disciplined (bad : L → Prop) (s : Processors M L ι) : Prop :=
  ∀ c, (s.code c).Obeys bad (fun _ held _ => ¬ held) (s.part c) (s.owner = some c)

variable {s t : Processors M L ι} {c : ι} {next : Code M L Unit} {body : κ → Code M L Unit}

omit [DecidableEq ι] in
theorem start_disciplined (memory : M.State) (l : L) :
    (start memory l : Processors M L ι).Disciplined bad := fun _ => nofun

theorem record_covered {b : Bool} (h : s.Covered) (howner : b = true → s.owner = some c) :
    (s.record c b).Covered := by
  cases b with
  | false => exact h
  | true =>
      intro a ha
      obtain rfl | ha := List.mem_cons.mp ha
      · exact decide_eq_true (howner rfl)
      · exact h a ha

/-- What a step of one processor has to leave alone. -/
theorem Disciplined.proceed (h : s.Disciplined bad) (hpart : ∀ d, d ≠ c → t.part d = s.part d)
    (hcode : t.code = s.code)
    (howner : ∀ d, d ≠ c → (t.owner = some d ↔ s.owner = some d))
    (hnext : next.Obeys bad (fun _ held _ => ¬ held) (t.part c) (t.owner = some c)) :
    (t.proceed c next).Disciplined bad := by
  intro d
  by_cases hd : d = c
  · subst hd
    change (Function.update t.code d next d).Obeys bad _ (t.part d) (t.owner = some d)
    rwa [Function.update_self]
  · change (Function.update t.code c next d).Obeys bad _ (t.part d) (t.owner = some d)
    rw [Function.update_of_ne hd, hcode, hpart d hd, propext (howner d hd)]
    exact h d

theorem record_eq (s : Processors M L ι) (c : ι) (b : Bool) :
    ∃ accesses, s.record c b = { s with accesses := accesses } := by
  cases b with
  | false => exact ⟨_, rfl⟩
  | true => exact ⟨_, rfl⟩

/-- One step of a disciplined processor. -/
theorem Disciplined.advance (h : s.Disciplined bad) (c : ι) : (s.advance c).Disciplined bad := by
  have hc := h c
  unfold Processors.advance
  cases hcode : s.code c with
  | done b => exact h
  | stuck => exact h
  | read r next =>
      rw [hcode] at hc
      obtain ⟨accesses, heq⟩ := s.record_eq c (M.guardsRead r)
      dsimp only
      rw [heq]
      exact h.proceed (fun _ _ => rfl) rfl (fun _ _ => .rfl) (hc.2 _)
  | write w next =>
      rw [hcode] at hc
      obtain ⟨accesses, heq⟩ := s.record_eq c (M.guardsWrite w)
      dsimp only
      rw [heq]
      exact h.proceed (fun _ _ => rfl) rfl (fun _ _ => .rfl) hc.2
  | acquire next =>
      rw [hcode] at hc
      dsimp only
      split
      -- A processor that finds the lock taken stays where it is.
      case isFalse => exact h
      case isTrue hfree =>
        refine h.proceed (fun _ _ => rfl) rfl (fun d hd => ?_) ?_
        · rw [hfree]
          exact ⟨fun heq => absurd (Option.some.inj heq).symm hd, nofun⟩
        · rw [eq_self]
          exact hc.2
  | release next =>
      rw [hcode] at hc
      refine h.proceed (fun _ _ => rfl) rfl (fun d hd => ?_) ?_
      · rw [hc.1]
        exact ⟨nofun, fun heq => absurd (Option.some.inj heq).symm hd⟩
      · have hnone : (none = some c) = False := eq_false nofun
        change next.Obeys bad _ (s.part c) (none = some c)
        rw [hnone]
        exact hc.2
  | goto l next =>
      rw [hcode] at hc
      refine h.proceed (fun d hd => Function.update_of_ne hd ..) rfl (fun _ _ => .rfl) ?_
      dsimp only
      rw [Function.update_self]
      exact hc

/-- A lawful step makes its access with the lock. -/
theorem Covered.advance (h : s.Covered) (hs : s.Disciplined bad)
    (hlawful : s.Accesses c → ¬ bad (s.part c)) : (s.advance c).Covered := by
  have hc := hs c
  unfold Accesses at hlawful
  unfold Processors.advance
  cases hcode : s.code c with
  | done b => exact h
  | stuck => exact h
  | read r next =>
      rw [hcode] at hc hlawful
      exact record_covered h fun hguard => (hc.1 hguard).mpr (hlawful hguard)
  | write w next =>
      rw [hcode] at hc hlawful
      exact record_covered h fun hguard => (hc.1 hguard).mpr (hlawful hguard)
  | acquire next =>
      dsimp only
      split
      · exact h
      · exact h
  | release next => exact h
  | goto l next => exact h

/-- Any other step is an access without the lock. -/
theorem not_covered_advance (hs : s.Disciplined bad) (haccess : s.Accesses c)
    (hbad : bad (s.part c)) : ¬ (s.advance c).Covered := by
  have hc := hs c
  unfold Accesses at haccess
  unfold Processors.advance
  have hrecord : ∀ b, b = true → (b = true → (s.owner = some c ↔ ¬ bad (s.part c))) →
      ¬ (s.record c b).Covered := by
    rintro b rfl howner hcovered
    have hheld := hcovered (c, decide (s.owner = some c)) List.mem_cons_self
    exact (howner rfl).mp (of_decide_eq_true hheld) hbad
  cases hcode : s.code c with
  | read r next =>
      rw [hcode] at hc haccess
      exact hrecord _ haccess hc.1
  | write w next =>
      rw [hcode] at hc haccess
      exact hrecord _ haccess hc.1
  | done b =>
      rw [hcode] at haccess
      exact haccess.elim
  | stuck =>
      rw [hcode] at haccess
      exact haccess.elim
  | acquire next =>
      rw [hcode] at haccess
      exact haccess.elim
  | release next =>
      rw [hcode] at haccess
      exact haccess.elim
  | goto l next =>
      rw [hcode] at haccess
      exact haccess.elim

theorem Disciplined.begin (h : s.Disciplined bad)
    (hbody : ∀ call l, (body call).Obeys bad (fun _ held _ => ¬ held) l False)
    (hcovered : s.Covered) {call : κ} (hstep : s.step body (.start c call) = some t) :
    t.Disciplined bad ∧ t.Covered := by
  have hc := h c
  rw [step] at hstep
  cases hcode : s.code c with
  | done b =>
      rw [hcode] at hc hstep
      obtain rfl := Option.some.inj hstep
      refine ⟨h.proceed (fun _ _ => rfl) rfl (fun _ _ => .rfl) ?_, hcovered⟩
      rw [eq_false hc]
      exact hbody call _
  | _ =>
      rw [hcode] at hstep
      exact nomatch hstep

/-- When every program is disciplined, all accesses of an interleaving are made with the lock if
and only if no access is made in a bad part. -/
theorem always_covered_iff
    (hbody : ∀ call l, (body call).Obeys bad (fun _ held _ => ¬ held) l False)
    (memory : M.State) (l : L) (events : List (Event ι κ)) :
    Always (step body) Covered (start memory l) events ↔
      Admissible (step body) (Lawful bad) (start memory l) events := by
  refine always_iff_admissible
    (fun s : Processors M L ι => s.Disciplined bad ∧ s.Covered) (fun s hs => hs.2)
    (fun s e t hs _ hlawful hstep => ?_) (fun s e hs _ hlawful => ?_)
    ⟨start_disciplined memory l, fun _ ha => nomatch ha⟩ (.of_forall fun _ _ _ => trivial)
  · cases e with
    | start c call => exact hs.1.begin hbody hs.2 hstep
    | step c =>
        obtain rfl := Option.some.inj hstep
        exact ⟨hs.1.advance c, hs.2.advance hs.1 hlawful⟩
  · cases e with
    | start c call => exact absurd trivial hlawful
    | step c =>
        obtain ⟨haccess, hbad⟩ := Classical.not_imp.mp hlawful
        exact ⟨_, rfl, not_covered_advance hs.1 haccess (not_not.mp hbad)⟩

end Processors

end Senob.Foundation
