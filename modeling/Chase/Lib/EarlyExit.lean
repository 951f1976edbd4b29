import Mathlib.Logic.Basic

/-!
# Programs that can stop early

A program over a state returns a value or stops early with a reason; what it has done to the state
until then stays. This is the shape of a function with early returns on a mutable state.

`Triple P x Q E` says what `x` does from a state with `P`: it returns a value with `Q`, or stops
with `E`. The rules follow the constructors of a program. `Preserves I x` is the triple of an
invariant: `I` holds after `x` whichever way out it takes. A relation to the state before is such an
invariant, with that state fixed.
-/

/-- A program over the state `σ` that returns an `α` or stops early with an `ε`. -/
def EarlyExit (ε σ α : Type) := σ → Except ε α × σ

namespace EarlyExit

variable {ε σ τ α β : Type}

instance : Monad (EarlyExit ε σ) where
  pure a := fun s => (.ok a, s)
  bind x f := fun s =>
    match x s with
    | (.ok a, s) => f a s
    | (.error e, s) => (.error e, s)

/-- Stop early. -/
def exit (e : ε) : EarlyExit ε σ α := fun s => (.error e, s)

/-- A part of the state. -/
def read (f : σ → α) : EarlyExit ε σ α := fun s => (.ok (f s), s)

/-- A change of the state. -/
def update (f : σ → σ) : EarlyExit ε σ Unit := fun s => (.ok (), f s)

/-- A program on a part of the state, with the early exit as another reason. -/
def zoom {δ : Type} (get : τ → σ) (set : τ → σ → τ) (into : δ → ε) (x : EarlyExit δ σ α) :
    EarlyExit ε τ α := fun t =>
  match x (get t) with
  | (.ok a, s) => (.ok a, set t s)
  | (.error e, s) => (.error (into e), set t s)

/-! ## Steps of a program -/

/-- A bind goes on with the result. -/
theorem bind_ok {x : EarlyExit ε σ α} {f : α → EarlyExit ε σ β} {s s' : σ} {a : α}
    (h : x s = (.ok a, s')) : (x >>= f) s = f a s' := by
  show (match x s with | (.ok a, s) => f a s | (.error e, s) => (.error e, s)) = f a s'
  rw [h]

/-- A bind stops at an exit. -/
theorem bind_error {x : EarlyExit ε σ α} {f : α → EarlyExit ε σ β} {s s' : σ} {e : ε}
    (h : x s = (.error e, s')) : (x >>= f) s = (.error e, s') := by
  show (match x s with | (.ok a, s) => f a s | (.error e, s) => (.error e, s)) = (.error e, s')
  rw [h]

theorem read_bind (f : σ → α) (g : α → EarlyExit ε σ β) (s : σ) :
    (read f >>= g) s = g (f s) s :=
  rfl

/-! ## Rules -/

/-- What holds of the outcome of a program. -/
def Post (Q : α → σ → Prop) (E : ε → σ → Prop) : Except ε α × σ → Prop
  | (.ok a, s) => Q a s
  | (.error e, s) => E e s

/-- From a state with `P` the program returns with `Q` or stops with `E`. -/
def Triple (P : σ → Prop) (x : EarlyExit ε σ α) (Q : α → σ → Prop) (E : ε → σ → Prop) : Prop :=
  ∀ s, P s → Post Q E (x s)

variable {P P' : σ → Prop} {Q Q' : α → σ → Prop} {R : β → σ → Prop} {E E' : ε → σ → Prop}

/-- A result without a step. -/
theorem triple_pure {a : α} (h : ∀ s, P s → Q a s) : Triple P (pure a) Q E := fun s hs => h s hs

/-- An exit. -/
theorem triple_exit {e : ε} (h : ∀ s, P s → E e s) : Triple P (exit e : EarlyExit ε σ α) Q E :=
  fun s hs => h s hs

/-- A read. -/
theorem triple_read {f : σ → α} (h : ∀ s, P s → Q (f s) s) : Triple P (read f) Q E :=
  fun s hs => h s hs

/-- An update. -/
theorem triple_update {f : σ → σ} {Q : Unit → σ → Prop} (h : ∀ s, P s → Q () (f s)) :
    Triple P (update f) Q E :=
  fun s hs => h s hs

/-- The rule of composition: an exit of the first part skips the second. -/
theorem triple_bind {x : EarlyExit ε σ α} {f : α → EarlyExit ε σ β} (hx : Triple P x Q E)
    (hf : ∀ a, Triple (Q a) (f a) R E) : Triple P (x >>= f) R E := by
  intro s hs
  have hx := hx s hs
  cases h : x s with
  | mk r s' =>
    rw [h] at hx
    cases r with
    | ok a =>
      rw [bind_ok h]
      exact hf a s' hx
    | error e =>
      rw [bind_error h]
      exact hx

/-- The rule of conditionals, with the condition in each branch. -/
theorem triple_ite {c : Prop} [Decidable c] {x y : EarlyExit ε σ α}
    (hx : c → Triple P x Q E) (hy : ¬c → Triple P y Q E) :
    Triple P (if c then x else y) Q E := by
  split
  · exact hx ‹_›
  · exact hy ‹_›

/-- The rule of consequence. -/
theorem triple_mono {x : EarlyExit ε σ α} (h : Triple P x Q E) (hP : ∀ s, P' s → P s)
    (hQ : ∀ a s, Q a s → Q' a s) (hE : ∀ e s, E e s → E' e s) : Triple P' x Q' E' := by
  intro s hs
  have hx := h s (hP s hs)
  cases hr : x s with
  | mk r s' =>
    rw [hr] at hx
    cases r with
    | ok a => exact hQ a s' hx
    | error e => exact hE e s' hx

/-- An existential in the precondition can be opened. -/
theorem triple_exists {ι : Type} {P : ι → σ → Prop} {x : EarlyExit ε σ α}
    (h : ∀ i, Triple (P i) x Q E) : Triple (fun s => ∃ i, P i s) x Q E :=
  fun s hs => hs.elim fun i hi => h i s hi

theorem triple_and {p : Prop} {x : EarlyExit ε σ α} (h : p → Triple P x Q E) :
    Triple (fun s => p ∧ P s) x Q E :=
  fun s hs => h hs.1 s hs.2

/-- A program on a part of the state. -/
theorem triple_zoom {δ : Type} {get : τ → σ} {set : τ → σ → τ} {into : δ → ε}
    {x : EarlyExit δ σ α} {P : τ → Prop} {Q : α → τ → Prop} {E : ε → τ → Prop}
    (h : ∀ t, P t → Post (fun a s => Q a (set t s)) (fun e s => E (into e) (set t s)) (x (get t))) :
    Triple P (zoom get set into x) Q E := by
  intro t ht
  have hx := h t ht
  rw [zoom]
  cases hr : x (get t) with
  | mk r s =>
    rw [hr] at hx
    cases r with
    | ok a => exact hx
    | error e => exact hx

/-! ## Invariants -/

/-- The program keeps `I`, whether it returns or stops. -/
def Preserves (I : σ → Prop) (x : EarlyExit ε σ α) : Prop := Triple I x (fun _ => I) (fun _ => I)

variable {I : σ → Prop}

/-- What does not depend on the state is kept. -/
theorem preserves_const {p : Prop} {x : EarlyExit ε σ α} : Preserves (fun _ => p) x := by
  intro s hp
  cases x s with
  | mk r s' => cases r <;> exact hp

/-- An invariant is kept by the state at the end, whether it is reached by an exit or not. -/
theorem preserves_iff {x : EarlyExit ε σ α} : Preserves I x ↔ ∀ s, I s → I (x s).2 := by
  have hpost : ∀ s, Post (fun _ => I) (fun _ => I) (x s) ↔ I (x s).2 := by
    intro s
    cases x s with
    | mk r s' => cases r <;> exact Iff.rfl
  exact forall_congr' fun s => imp_congr_right fun _ => hpost s

theorem preserves_pure {a : α} : Preserves I (pure a : EarlyExit ε σ α) := triple_pure fun _ h => h

/-- An exit keeps every invariant. -/
theorem preserves_exit {e : ε} : Preserves I (exit e : EarlyExit ε σ α) := triple_exit fun _ h => h

/-- A read keeps every invariant. -/
theorem preserves_read {f : σ → α} : Preserves I (read f : EarlyExit ε σ α) :=
  triple_read fun _ h => h

theorem preserves_update {f : σ → σ} (h : ∀ s, I s → I (f s)) :
    Preserves I (update f : EarlyExit ε σ Unit) :=
  triple_update h

theorem Preserves.bind {x : EarlyExit ε σ α} {f : α → EarlyExit ε σ β} (hx : Preserves I x)
    (hf : ∀ a, Preserves I (f a)) : Preserves I (x >>= f) :=
  triple_bind hx hf

theorem Preserves.ite {c : Prop} [Decidable c] {x y : EarlyExit ε σ α} (hx : Preserves I x)
    (hy : Preserves I y) : Preserves I (if c then x else y) :=
  triple_ite (fun _ => hx) fun _ => hy

/-- A program on a part of the state keeps what holds of the whole for every part with `J`. -/
theorem Preserves.zoom {δ : Type} {get : τ → σ} {set : τ → σ → τ} {into : δ → ε}
    {x : EarlyExit δ σ α} {J : τ → Prop} (hx : Preserves I x) (hget : ∀ t, J t → I (get t))
    (hset : ∀ t s, J t → I s → J (set t s)) :
    Preserves J (zoom get set into x : EarlyExit ε τ α) := by
  refine triple_zoom fun t ht => ?_
  have hpost := hx (get t) (hget t ht)
  cases hr : x (get t) with
  | mk r s =>
    rw [hr] at hpost
    cases r with
    | ok a => exact hset t s ht hpost
    | error e => exact hset t s ht hpost

end EarlyExit
