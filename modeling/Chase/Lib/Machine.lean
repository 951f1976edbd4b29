import Mathlib.Order.WellFounded

/-!
# Runs of a deterministic machine

A machine is a partial step function. `run` follows it and stays in the last state when it halts.
`invariant` is the rule for what holds along a run, and `reaches` the one for what a run comes to: a
state is reached when, until then, every step leads on and decreases a well-founded measure.
-/

namespace Machine

variable {σ : Type*} (step : σ → Option σ)

/-- The state after `n` steps, or the last one. -/
def run (s : σ) : Nat → σ
  | 0 => s
  | n + 1 => (step (run s n)).getD (run s n)

variable {step}

/-- Steps add up. -/
theorem run_add (s : σ) (m n : Nat) : run step s (m + n) = run step (run step s m) n := by
  induction n with
  | zero => rfl
  | succ n ih => rw [Nat.add_succ, run, run, ih]

/-- One more step. -/
theorem run_succ_of_step {s s' : σ} {n : Nat} (h : step (run step s n) = some s') :
    run step s (n + 1) = s' := by
  rw [run, h, Option.getD_some]

/-- The run stays in the state in which the machine halts. -/
theorem run_add_of_halt {s : σ} {m : Nat} (h : step (run step s m) = none) (n : Nat) :
    run step s (m + n) = run step s m := by
  induction n with
  | zero => rfl
  | succ n ih => rw [Nat.add_succ, run, ih, h, Option.getD_none]

/-- What holds at the start, and after every step of the run when it holds before, holds along the
run. -/
theorem run_induction {I : σ → Prop} {s : σ} (hs : I s)
    (hstep : ∀ n s', I (run step s n) → step (run step s n) = some s' → I s') (n : Nat) :
    I (run step s n) := by
  induction n with
  | zero => exact hs
  | succ n ih =>
    rw [run]
    cases h : step (run step s n) with
    | none => exact ih
    | some s' => exact hstep n s' ih h

theorem invariant {I : σ → Prop} (hstep : ∀ s s', I s → step s = some s' → I s') {s : σ} (hs : I s)
    (n : Nat) : I (run step s n) :=
  run_induction hs (fun _ s' h => hstep _ s' h) n

variable (step) in
/-- The rule for reaching a state with `P`: until then, every step keeps `I` and decreases the
measure. -/
theorem reaches {α : Type*} {r : α → α → Prop} (hwf : WellFounded r) (measure : σ → α)
    {I P : σ → Prop}
    (hstep : ∀ s, I s → ¬P s → ∃ s', step s = some s' ∧ I s' ∧ r (measure s') (measure s)) {s : σ}
    (hs : I s) : ∃ n, I (run step s n) ∧ P (run step s n) := by
  induction hm : measure s using hwf.induction generalizing s with
  | _ m ih =>
    by_cases hP : P s
    · exact ⟨0, hs, hP⟩
    · obtain ⟨s', hs', hI, hr⟩ := hstep s hs hP
      obtain ⟨n, hn⟩ := ih (measure s') (hm ▸ hr) hI rfl
      refine ⟨1 + n, ?_⟩
      rwa [run_add, show run step s 1 = s' from run_succ_of_step hs']

end Machine
