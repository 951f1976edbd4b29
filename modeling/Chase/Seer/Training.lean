import Mathlib.Algebra.BigOperators.Intervals
import Chase.Seer.Predictor

/-!
# What the perceptron predicts with and what it trains

`run` goes through the history from its newest entry, and `update` adjusts the weights from its
oldest entry. The two meet the same entries only while the history has ten of them. A new perceptron
has ten uncertain entries and a history length of zero, so the first ten updates drop nothing and
the history grows to twenty entries (`Perceptron.Grown`). From the first update on, every weight is
trained with an older entry than the one it predicts with (`indices_coincide_iff`).
-/

namespace Chase.Seer

namespace Perceptron

/-! ## The entries of a run -/

/-- What a history entry makes of the weight that it meets in `run`. -/
def sign (h : Int) : Int := if h = uncertain then 0 else if h = taken then 1 else -1

/-- The place of the history entry that `run` multiplies with `weights[i]`, when there is no last
prediction. -/
def runIndex (p : Perceptron) (i : Nat) : Nat := p.lhr.length - 1 - (lhrLength - i)

/-- The place of the history entry that `update` adjusts `weights[i]` with. -/
def updateIndex (i : Nat) : Nat := i - 1

/-- A step of the loop adds the weight of the next entry, with the sign of the history. -/
theorem accumulate_cons (weights : List Int) (h : Int) (hs : List Int) (n : Nat)
    (prediction : Int) :
    accumulate weights (h :: hs) (n + 1, prediction) =
      accumulate weights hs (n, prediction + sign h * weights.getD (n + 1) 0) := by
  rw [accumulate, sign]
  split
  · rw [zero_mul, add_zero]
  · split
    · rw [one_mul]
    · rw [neg_one_mul, ← sub_eq_add_neg]

/-- A loop of `run` over a history that is long enough. -/
theorem accumulate_eq (weights : List Int) {hs : List Int} {n : Nat} (h : n ≤ hs.length)
    (prediction : Int) :
    (accumulate weights hs (n, prediction)).2 =
      prediction + ∑ k ∈ Finset.range n, sign (hs.getD k 0) * weights.getD (n - k) 0 := by
  induction n generalizing hs prediction with
  | zero =>
    rw [Finset.sum_range_zero, add_zero]
    cases hs with
    | nil => rfl
    | cons _ _ => rfl
  | succ n ih =>
    cases hs with
    | nil => cases h
    | cons e hs =>
      rw [accumulate_cons, ih (Nat.le_of_succ_le_succ h), Finset.sum_range_succ', add_assoc,
        add_comm (sign e * _)]
      congr 2
      refine Finset.sum_congr rfl fun k _ => ?_
      rw [List.getD_cons_succ, Nat.add_sub_add_right]

/-- The output of the perceptron is a weighted sum. -/
theorem run_eq {p : Perceptron} (hlast : p.lastPred = []) (hlength : lhrLength ≤ p.lhr.length) :
    p.run = p.weights.getD 0 0 +
      ∑ i ∈ Finset.range lhrLength,
        sign (p.lhr.getD (p.runIndex (i + 1)) 0) * p.weights.getD (i + 1) 0 := by
  have hreverse : lhrLength ≤ p.lhr.reverse.length := by rwa [List.length_reverse]
  rw [run, hlast]
  refine (accumulate_eq p.weights hreverse _).trans ?_
  rw [← Finset.sum_range_reflect]
  congr 1
  refine Finset.sum_congr rfl fun i hi => ?_
  rw [Finset.mem_range] at hi
  have hindex : p.lhr.length - 1 - (lhrLength - 1 - i) = p.runIndex (i + 1) := by
    rw [runIndex]
    omega
  have hweight : lhrLength - (lhrLength - 1 - i) = i + 1 := by omega
  rw [List.getD_eq_getElem?_getD, List.getElem?_reverse (by omega), hindex, hweight,
    ← List.getD_eq_getElem?_getD]

/-- The weights after an update that trains. -/
theorem weights_update {p : Perceptron} {dir predDir : Int}
    (htrains : predDir = uncertain ∨ predDir ≠ dir) {i : Nat} (hi : i < lhrLength) :
    (p.update dir predDir).weights.getD (i + 1) 0 =
      adjust dir (p.lhr.getD (updateIndex (i + 1)) 0) (p.weights.getD (i + 1) 0) := by
  have hweights : (p.update dir predDir).weights =
      (if dir = taken then p.weights.getD 0 0 + 1
        else if dir = notTaken then p.weights.getD 0 0 - 1 else p.weights.getD 0 0) ::
      (List.range lhrLength).map fun i =>
        adjust dir (p.lhr.getD i 0) (p.weights.getD (i + 1) 0) := if_pos htrains
  rw [hweights, List.getD_cons_succ, List.getD_eq_getElem?_getD, List.getElem?_map,
    List.getElem?_range hi]
  rfl

end Perceptron

/-! ## Runs -/

/-- A call on a perceptron. -/
inductive PerceptronCall where
  | update (dir predDir : Int)
  | predict (train : Bool)
  | pushLastPred (pred : Int)
  deriving DecidableEq

namespace PerceptronCall

/-- The perceptron after a call. -/
def apply (p : Perceptron) : PerceptronCall → Perceptron
  | .update dir predDir => p.update dir predDir
  | .predict train => (p.predict train).2
  | .pushLastPred pred => p.pushLastPred pred

/-- Whether a call is an update. -/
def isUpdate : PerceptronCall → Bool
  | .update _ _ => true
  | _ => false

end PerceptronCall

namespace Perceptron

/-- The perceptron after calls on a new one. -/
def after (calls : List PerceptronCall) : Perceptron := calls.foldl PerceptronCall.apply new

/-- What `predict` leaves alone. -/
theorem predict_frame (p : Perceptron) (train : Bool) :
    (p.predict train).2.lhr = p.lhr ∧ (p.predict train).2.historyLength = p.historyLength := by
  unfold predict
  dsimp only
  split_ifs <;> exact ⟨rfl, rfl⟩

/-- The history after a number of updates: it has ten entries more than the history length says. -/
structure Grown (updates : Nat) (p : Perceptron) : Prop where
  historyLength : p.historyLength = min updates historyLengthMin
  length : p.lhr.length = lhrLength + p.historyLength

/-- An update adds an entry to the history, until it has its full length. -/
theorem Grown.update {updates : Nat} {p : Perceptron} (h : p.Grown updates) (dir predDir : Int) :
    (p.update dir predDir).Grown (updates + 1) := by
  obtain ⟨hhistory, hlength⟩ := h
  rw [historyLengthMin] at hhistory
  by_cases hfull : p.historyLength + 1 > historyLengthMin
  · have hhistory' : (p.update dir predDir).historyLength = p.historyLength := if_pos hfull
    have hlhr : (p.update dir predDir).lhr = (p.lhr ++ [dir]).tail := if_pos hfull
    rw [historyLengthMin] at hfull
    refine ⟨?_, ?_⟩
    · rw [hhistory', historyLengthMin]
      omega
    · rw [hhistory', hlhr, List.length_tail, List.length_append, List.length_singleton, hlength]
      omega
  · have hhistory' : (p.update dir predDir).historyLength = p.historyLength + 1 := if_neg hfull
    have hlhr : (p.update dir predDir).lhr = p.lhr ++ [dir] := if_neg hfull
    rw [historyLengthMin] at hfull
    refine ⟨?_, ?_⟩
    · rw [hhistory', historyLengthMin]
      omega
    · rw [hhistory', hlhr, List.length_append, List.length_singleton, hlength]
      omega

/-- A prediction leaves the history. -/
theorem Grown.predict {updates : Nat} {p : Perceptron} (h : p.Grown updates) (train : Bool) :
    (p.predict train).2.Grown updates := by
  obtain ⟨hlhr, hhistory⟩ := p.predict_frame train
  exact ⟨hhistory.trans h.historyLength, by rw [hlhr, hhistory, h.length]⟩

/-- After any calls, the history has the length of its updates. -/
theorem grown_after (calls : List PerceptronCall) :
    (after calls).Grown (calls.countP (·.isUpdate)) := by
  induction calls using List.reverseRecOn with
  | nil => exact ⟨rfl, rfl⟩
  | append_singleton calls call ih =>
    rw [after, List.foldl_append, ← after, List.countP_append]
    cases call with
    | update dir predDir => exact ih.update dir predDir
    | predict train => exact ih.predict train
    | pushLastPred pred => exact ⟨ih.historyLength, ih.length⟩

/-- The history entries after any calls: `run` multiplies `weights[i]` with the entry at
`runIndex i`, an update adjusts it with the entry at `updateIndex i`, and these are the same places
exactly when no update was made, since each of the first ten updates makes the history longer. -/
theorem indices_coincide_iff (calls : List PerceptronCall) (hlast : (after calls).lastPred = []) :
    (∀ weights : List Int,
      run { after calls with weights } = weights.getD 0 0 +
        ∑ i ∈ Finset.range 10,
          sign ((after calls).lhr.getD ((after calls).runIndex (i + 1)) 0) *
            weights.getD (i + 1) 0) ∧
    (∀ dir predDir : Int, predDir = uncertain ∨ predDir ≠ dir → ∀ i < 10,
      ((after calls).update dir predDir).weights.getD (i + 1) 0 =
        adjust dir ((after calls).lhr.getD (updateIndex (i + 1)) 0)
          ((after calls).weights.getD (i + 1) 0)) ∧
    (after calls).lhr.length = 10 + min (calls.countP (·.isUpdate)) 10 ∧
    ((∀ i, 1 ≤ i → i ≤ 10 → (after calls).runIndex i = updateIndex i) ↔
      ∀ call ∈ calls, call.isUpdate = false) := by
  obtain ⟨hhistory, hlength⟩ := grown_after calls
  have hlhr : lhrLength ≤ (after calls).lhr.length := by omega
  rw [historyLengthMin] at hhistory
  rw [hhistory, lhrLength, historyLengthMin] at hlength
  refine ⟨?_, ?_, hlength, ?_⟩
  · intro weights
    have hrun := run_eq (p := { after calls with weights }) hlast hlhr
    exact hrun
  · intro dir predDir htrains i hi
    exact weights_update htrains hi
  · have hcount : (∀ call ∈ calls, call.isUpdate = false) ↔ calls.countP (·.isUpdate) = 0 := by
      simp [List.countP_eq_zero]
    rw [hcount]
    constructor
    · intro hindex
      have hfirst := hindex 10 (by decide) (Nat.le_refl _)
      rw [runIndex, updateIndex, lhrLength, historyLengthMin] at hfirst
      omega
    · intro hzero i hi hi'
      rw [runIndex, updateIndex, lhrLength, historyLengthMin]
      omega

/-- After two predictions and no update, the places are the same. -/
theorem indices_coincide_new :
    (after [.predict true, .predict false]).lastPred = [] ∧
      (∀ i, 1 ≤ i → i ≤ 10 → (after [.predict true, .predict false]).runIndex i = updateIndex i) :=
  ⟨by decide,
    (indices_coincide_iff [.predict true, .predict false] (by decide)).2.2.2.2 (by decide)⟩

/-- After one update, `run` multiplies `weights[10]` with the new entry, which is `TAKEN`, and an
update adjusts it with the entry before, which is `UNCERTAIN`: the weight stays as it is. -/
theorem indices_differ_after_update :
    let p := after [.update taken uncertain]
    let weights := List.replicate 10 0 ++ [5]
    p.lastPred = [] ∧ p.runIndex 10 = 10 ∧ updateIndex 10 = 9 ∧
      p.lhr.getD 10 0 = taken ∧ p.lhr.getD 9 0 = uncertain ∧
      run { p with weights } = 5 ∧
      (update { p with weights } taken uncertain).weights.getD 10 0 = 5 := by
  decide

end Perceptron

end Chase.Seer
