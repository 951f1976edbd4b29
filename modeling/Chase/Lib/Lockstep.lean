import Mathlib.Data.List.Basic

/-!
# Two step functions run in lockstep

Two machines read the same list of inputs, one by `f` and one by `g`. When one step preserves a
relation between their states exactly under a condition on the second machine's state and the
input, the relation holds along the whole run exactly when every step of the run meets that
condition (`lockstep_iff`).
-/

namespace Lockstep

variable {σ τ ι : Type*} {f : σ → ι → σ} {g : τ → ι → τ} {R : σ → τ → Prop} {C : τ → ι → Prop}

/-- The condition `C` holds at every step of the run of `g` from `t`. -/
def Meets (g : τ → ι → τ) (C : τ → ι → Prop) : τ → List ι → Prop
  | _, [] => True
  | t, i :: is => C t i ∧ Meets g C (g t i) is

instance decidableMeets {g : τ → ι → τ} {C : τ → ι → Prop} [∀ t i, Decidable (C t i)] :
    ∀ (t : τ) (is : List ι), Decidable (Meets g C t is)
  | _, [] => .isTrue trivial
  | t, i :: is =>
    have := decidableMeets (g := g) (C := C) (g t i) is
    inferInstanceAs (Decidable (_ ∧ _))

/-- The relation `R` holds in every pair of states that the two runs reach together. -/
def Agree (f : σ → ι → σ) (g : τ → ι → τ) (R : σ → τ → Prop) (s : σ) (t : τ) (is : List ι) : Prop :=
  ∀ n, R ((is.take n).foldl f s) ((is.take n).foldl g t)

/-- The states agree at the start. -/
theorem Agree.start {s : σ} {t : τ} {is : List ι} (h : Agree f g R s t is) : R s t := h 0

/-- Agreement along `i :: is` is agreement now and along `is` after the step. -/
theorem agree_cons {s : σ} {t : τ} {i : ι} {is : List ι} :
    Agree f g R s t (i :: is) ↔ R s t ∧ Agree f g R (f s i) (g t i) is := by
  constructor
  · intro h
    exact ⟨h 0, fun n => h (n + 1)⟩
  · rintro ⟨h0, h⟩ n
    cases n with
    | zero => exact h0
    | succ n => exact h n

/-- The lockstep rule: if from related states a step leads to related states exactly when it meets
`C`, then two runs from related states agree throughout exactly when every step meets `C`. -/
theorem lockstep_iff (hstep : ∀ s t i, R s t → (R (f s i) (g t i) ↔ C t i)) {s : σ} {t : τ}
    (h0 : R s t) (is : List ι) : Agree f g R s t is ↔ Meets g C t is := by
  induction is generalizing s t with
  | nil => exact ⟨fun _ => trivial, fun _ n => by simpa using h0⟩
  | cons i is ih =>
    rw [agree_cons]
    constructor
    · rintro ⟨_, h⟩
      exact ⟨(hstep s t i h0).1 h.start, (ih h.start).1 h⟩
    · rintro ⟨hC, h⟩
      have h1 := (hstep s t i h0).2 hC
      exact ⟨h0, (ih h1).2 h⟩

end Lockstep
