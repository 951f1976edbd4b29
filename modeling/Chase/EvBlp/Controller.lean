import Mathlib.Data.List.Induction
import Chase.EvBlp.Pipeline

/-!
# The accounting of the pipeline controller

`on_batch_enter` adds the weight of a batch with `fetch_add`, which wraps, and `on_batch_exit` takes
it off with `saturating_sub`. Over calls in which every exit belongs to a batch that is inside, the
weight of a stage is the sum of the batches in it as long as this sum fits into 64 bits, and the
number of batches is exact as long as it fits into 32 bits. When a sum does not fit, the weight is
what is left of it and not the largest number (`accounting_exact_iff`). The windows are within their
bound in any case.
-/

namespace Chase.EvBlp

open Function

/-- A call of a worker on the controller. -/
inductive ControllerCall where
  | enter (stage : StageId) (weight : UInt64)
  | exit (stage : StageId) (weight : UInt64)

namespace ControllerCall

/-- The controller after a call. -/
def apply (config : PipelineConfig) (c : PipelineController) : ControllerCall → PipelineController
  | .enter stage weight => c.onBatchEnter stage weight.toNat
  | .exit stage weight => c.onBatchExit config stage weight.toNat

/-- The weights of the batches inside each stage after a call. -/
def move (inside : StageId → List UInt64) : ControllerCall → StageId → List UInt64
  | .enter stage weight => update inside stage (weight :: inside stage)
  | .exit stage weight => update inside stage ((inside stage).erase weight)

/-- An exit belongs to a batch of its weight inside its stage. -/
def Matches (inside : StageId → List UInt64) : ControllerCall → Prop
  | .enter _ _ => True
  | .exit stage weight => weight ∈ inside stage

end ControllerCall

open ControllerCall

/-- The weights of the batches inside each stage after calls. -/
def inside (calls : List ControllerCall) : StageId → List UInt64 :=
  calls.foldl move fun _ => []

/-- Every exit belongs to an earlier enter that has not exited. -/
def Matched (calls : List ControllerCall) : Prop :=
  ∀ pre call, pre ++ [call] <+: calls → call.Matches (inside pre)

/-- No calls are matched. -/
theorem matched_nil : Matched [] := by
  intro pre call hpre
  exact absurd (List.prefix_nil.1 hpre)
    (List.append_ne_nil_of_right_ne_nil _ (List.cons_ne_nil _ _))

/-- A call that matches what is inside can follow. -/
theorem Matched.append {calls : List ControllerCall} (h : Matched calls) {call : ControllerCall}
    (hmatches : call.Matches (inside calls)) : Matched (calls ++ [call]) := by
  intro pre call' hpre
  rcases List.prefix_concat_iff.1 hpre with heq | hpre
  · obtain ⟨hcalls, hcall⟩ := List.append_inj' heq rfl
    obtain rfl := List.singleton_inj.1 hcall
    rw [hcalls]
    exact hmatches
  · exact h pre call' hpre

/-- A batch can enter after any calls. -/
theorem Matched.enter {calls : List ControllerCall} (h : Matched calls) (stage : StageId)
    (weight : UInt64) : Matched (calls ++ [.enter stage weight]) :=
  h.append trivial

/-- The states along calls and one more. -/
theorem forall_isPrefix_concat {calls : List ControllerCall} {call : ControllerCall}
    {P : List ControllerCall → Prop} :
    (∀ pre, pre <+: calls ++ [call] → P pre) ↔
      P (calls ++ [call]) ∧ ∀ pre, pre <+: calls → P pre := by
  simp only [List.prefix_concat_iff, or_imp, forall_and, forall_eq]

/-- The sum of the weights inside a stage. -/
def load (calls : List ControllerCall) (stage : StageId) : Nat :=
  ((inside calls stage).map UInt64.toNat).sum

namespace PipelineController

/-- The controller after calls on a new one. -/
def after (config : PipelineConfig) (calls : List ControllerCall) : PipelineController :=
  calls.foldl (ControllerCall.apply config) {}

/-- The accounting of a stage is exact: the number of batches inside, and the sum of their weights,
or `u64::MAX` if it is larger. -/
def Exact (config : PipelineConfig) (calls : List ControllerCall) (stage : StageId) : Prop :=
  (after config calls).inFlight stage = (inside calls stage).length ∧
    (after config calls).w stage = min (load calls stage) (2 ^ 64 - 1)

/-- The batches inside a stage fit into the counters. -/
def Fits (calls : List ControllerCall) (stage : StageId) : Prop :=
  (inside calls stage).length < 2 ^ 32 ∧ load calls stage < 2 ^ 64

section

variable {config : PipelineConfig} {calls : List ControllerCall} {call : ControllerCall}

/-- The controller after one more call. -/
theorem after_append (config : PipelineConfig) (calls : List ControllerCall)
    (call : ControllerCall) :
    after config (calls ++ [call]) = call.apply config (after config calls) := by
  rw [after, List.foldl_append]
  rfl

theorem inside_append (calls : List ControllerCall) (call : ControllerCall) :
    inside (calls ++ [call]) = call.move (inside calls) := by
  rw [inside, List.foldl_append]
  rfl

/-- A batch that enters adds its weight to the load. -/
theorem load_enter_self (calls : List ControllerCall) (stage : StageId) (weight : UInt64) :
    load (calls ++ [.enter stage weight]) stage = weight.toNat + load calls stage := by
  rw [load, inside_append, move, update_self, List.map_cons, List.sum_cons, load]

/-- A batch that exits takes its weight from the load. -/
theorem load_exit_self {stage : StageId} {weight : UInt64} (h : weight ∈ inside calls stage) :
    load (calls ++ [.exit stage weight]) stage + weight.toNat = load calls stage := by
  rw [load, inside_append, move, update_self, load]
  have hperm := (List.perm_cons_erase h).map UInt64.toNat
  rw [hperm.sum_nat, List.map_cons, List.sum_cons, Nat.add_comm]

/-- A batch that enters one stage is not inside another. -/
theorem inside_enter_of_ne (calls : List ControllerCall) {stage stage' : StageId}
    (hne : stage' ≠ stage) (weight : UInt64) :
    inside (calls ++ [.enter stage weight]) stage' = inside calls stage' := by
  rw [inside_append, move, update_of_ne hne]

/-- A batch that exits one stage stays inside the others. -/
theorem inside_exit_of_ne (calls : List ControllerCall) {stage stage' : StageId}
    (hne : stage' ≠ stage) (weight : UInt64) :
    inside (calls ++ [.exit stage weight]) stage' = inside calls stage' := by
  rw [inside_append, move, update_of_ne hne]

/-- The counters of a stage stay exact while a call changes neither them nor what is inside. -/
theorem exact_of_eq {stage : StageId} {calls' : List ControllerCall} (h : Exact config calls stage)
    (hinside : inside calls' stage = inside calls stage)
    (hinFlight : (after config calls').inFlight stage = (after config calls).inFlight stage)
    (hw : (after config calls').w stage = (after config calls).w stage) :
    Exact config calls' stage := by
  rw [Exact, load, hinside, hinFlight, hw]
  exact h

/-- A stage still fits while nothing enters or exits it. -/
theorem fits_of_eq {stage : StageId} {calls' : List ControllerCall}
    (hinside : inside calls' stage = inside calls stage) (h : Fits calls stage) :
    Fits calls' stage := by
  rw [Fits, load, hinside]
  exact h

/-- A batch enters a stage whose accounting is exact and which has room: it stays exact exactly when
there was room for the batch. A sum of two weights that wraps is never `u64::MAX`. -/
theorem exact_enter_iff {stage : StageId} (h : Exact config calls stage) (hfits : Fits calls stage)
    (weight : UInt64) :
    Exact config (calls ++ [.enter stage weight]) stage ↔
      Fits (calls ++ [.enter stage weight]) stage := by
  obtain ⟨hinFlight, hw⟩ := h
  obtain ⟨hlength, hload⟩ := hfits
  have hweight : weight.toNat < 2 ^ 64 := weight.toNat_lt
  rw [Exact, Fits, load_enter_self, after_append, apply, inFlight_onBatchEnter, w_onBatchEnter,
    update_self, update_self, inside_append, move, update_self, List.length_cons, hinFlight, hw]
  constructor
  · rintro ⟨hinFlight', hw'⟩
    omega
  · rintro ⟨hlength', hload'⟩
    omega

/-- A batch leaves a stage. -/
theorem exact_exit {stage : StageId} {weight : UInt64} (h : Exact config calls stage)
    (hfits : Fits calls stage) (hmem : weight ∈ inside calls stage) :
    Exact config (calls ++ [.exit stage weight]) stage ∧
      Fits (calls ++ [.exit stage weight]) stage := by
  obtain ⟨hinFlight, hw⟩ := h
  obtain ⟨hlength, hload⟩ := hfits
  have hsum := load_exit_self hmem
  have hpos := List.length_pos_of_mem hmem
  rw [Exact, Fits, after_append, apply, inFlight_onBatchExit, w_onBatchExit, update_self,
    update_self, inside_append, move, update_self, List.length_erase_of_mem hmem, hinFlight, hw]
  omega

/-- One call on a controller whose accounting is exact. -/
theorem exact_append_iff (h : ∀ stage, Exact config calls stage) (hfits : ∀ stage, Fits calls stage)
    (hmatches : call.Matches (inside calls)) :
    (∀ stage, Exact config (calls ++ [call]) stage) ↔ ∀ stage, Fits (calls ++ [call]) stage := by
  refine forall_congr' fun stage' => ?_
  cases call with
  | enter stage weight =>
    by_cases hstage : stage' = stage
    · subst hstage
      exact exact_enter_iff (h stage') (hfits stage') weight
    · have hinside := inside_enter_of_ne calls hstage weight
      refine ⟨fun _ => fits_of_eq hinside (hfits stage'),
        fun _ => exact_of_eq (h stage') hinside ?_ ?_⟩
      · rw [after_append, apply, inFlight_onBatchEnter, update_of_ne hstage]
      · rw [after_append, apply, w_onBatchEnter, update_of_ne hstage]
  | exit stage weight =>
    by_cases hstage : stage' = stage
    · subst hstage
      obtain ⟨hexact, hfits'⟩ := exact_exit (h stage') (hfits stage') hmatches
      exact ⟨fun _ => hfits', fun _ => hexact⟩
    · have hinside := inside_exit_of_ne calls hstage weight
      refine ⟨fun _ => fits_of_eq hinside (hfits stage'),
        fun _ => exact_of_eq (h stage') hinside ?_ ?_⟩
      · rw [after_append, apply, inFlight_onBatchExit, update_of_ne hstage]
      · rw [after_append, apply, w_onBatchExit, update_of_ne hstage]

theorem exact_nil (config : PipelineConfig) (stage : StageId) : Exact config [] stage :=
  ⟨rfl, rfl⟩

/-- The stages fit at the start. -/
theorem fits_nil (stage : StageId) : Fits [] stage :=
  ⟨Nat.two_pow_pos 32, Nat.two_pow_pos 64⟩

/-! ## The windows -/

theorem newZeta_le (config : PipelineConfig) (current wNext lambda : Nat) :
    newZeta config current wNext lambda ≤ max 1 config.zetaMax := by
  rw [newZeta]
  dsimp only
  split_ifs <;> omega

/-- A call keeps the windows at most the greatest one, or one. -/
theorem zeta_apply_le {c : PipelineController} (h : ∀ stage, c.zeta stage ≤ max 1 config.zetaMax)
    (call : ControllerCall) (stage' : StageId) :
    (call.apply config c).zeta stage' ≤ max 1 config.zetaMax := by
  cases call with
  | enter stage weight => exact h stage'
  | exit stage weight =>
    cases stage with
    | commit => exact h stage'
    | order | exec =>
      rw [apply, onBatchExit, tick, StageId.next]
      dsimp only
      rw [update_apply]
      split
      · exact newZeta_le config _ _ _
      · exact h stage'

/-- After any calls, the windows are at most the greatest one, or one. -/
theorem zeta_after_le (config : PipelineConfig) (calls : List ControllerCall) (stage : StageId) :
    (after config calls).zeta stage ≤ max 1 config.zetaMax := by
  induction calls using List.reverseRecOn generalizing stage with
  | nil => exact Nat.le_max_left _ _
  | append_singleton calls call ih =>
    rw [after_append]
    exact zeta_apply_le ih call stage

end

/-- Over calls in which every exit belongs to a batch inside, the accounting is exact after every
call exactly when the batches inside each stage fit into the counters after every call. The windows
are never larger than `max 1 zeta_max`. -/
theorem accounting_exact_iff (config : PipelineConfig) (calls : List ControllerCall)
    (hmatched : Matched calls) :
    ((∀ pre, pre <+: calls → ∀ stage, Exact config pre stage) ↔
      ∀ pre, pre <+: calls → ∀ stage, Fits pre stage) ∧
    ∀ pre, pre <+: calls → ∀ stage, (after config pre).zeta stage ≤ max 1 config.zetaMax := by
  refine ⟨?_, fun pre _ stage => zeta_after_le config pre stage⟩
  induction calls using List.reverseRecOn with
  | nil =>
    refine ⟨fun _ pre hpre => ?_, fun _ pre hpre => ?_⟩
    · rw [List.prefix_nil.1 hpre]
      exact fits_nil
    · rw [List.prefix_nil.1 hpre]
      exact exact_nil config
  | append_singleton calls call ih =>
    have hcalls := ih fun pre call' hpre => hmatched pre call' (hpre.trans (List.prefix_append _ _))
    have hmatches := hmatched calls call List.prefix_rfl
    rw [forall_isPrefix_concat, forall_isPrefix_concat, ← hcalls]
    refine and_congr_left fun hexact => ?_
    have hfits := hcalls.1 hexact
    exact exact_append_iff (hexact calls List.prefix_rfl) (hfits calls List.prefix_rfl) hmatches

/-- Two batches enter `Exec` and the first one leaves. -/
theorem accounting_exact_two :
    Matched [.enter .exec 5, .enter .exec 7, .exit .exec 5] ∧
      (after ⟨10, 10, 8⟩ [.enter .exec 5, .enter .exec 7, .exit .exec 5]).inFlight .exec = 1 ∧
      (after ⟨10, 10, 8⟩ [.enter .exec 5, .enter .exec 7, .exit .exec 5]).w .exec = 7 ∧
      (after ⟨10, 10, 8⟩ [.enter .exec 5, .enter .exec 7, .exit .exec 5]).zeta .exec ≤ 8 := by
  have hmatched : Matched ((([] ++ [.enter .exec 5]) ++ [.enter .exec 7]) ++ [.exit .exec 5]) :=
    ((matched_nil.enter .exec 5).enter .exec 7).append (by decide : (5 : UInt64) ∈ [7, 5])
  obtain ⟨hiff, hzeta⟩ := accounting_exact_iff ⟨10, 10, 8⟩ _ hmatched
  have hfits : ∀ pre, pre <+: (([] ++ [.enter .exec 5]) ++ [.enter .exec 7]) ++ [.exit .exec 5] →
      ∀ stage, Fits pre stage := by
    rw [forall_isPrefix_concat, forall_isPrefix_concat, forall_isPrefix_concat]
    refine ⟨?_, ?_, ?_, fun pre hpre => List.prefix_nil.1 hpre ▸ fits_nil⟩
    · rintro (_ | _ | _) <;> exact ⟨by decide, by decide⟩
    · rintro (_ | _ | _) <;> exact ⟨by decide, by decide⟩
    · rintro (_ | _ | _) <;> exact ⟨by decide, by decide⟩
  have hexact := hiff.2 hfits _ List.prefix_rfl .exec
  exact ⟨hmatched, hexact.1, hexact.2, hzeta _ List.prefix_rfl .exec⟩

/-- Two batches of weight 2⁶³ in `Exec` have no weight at all. -/
theorem weight_lost_at_overflow :
    Matched [.enter .exec 9223372036854775808, .enter .exec 9223372036854775808] ∧
      load [.enter .exec 9223372036854775808, .enter .exec 9223372036854775808] .exec = 2 ^ 64 ∧
      (after ⟨10, 10, 8⟩
        [.enter .exec 9223372036854775808, .enter .exec 9223372036854775808]).w .exec = 0 :=
  ⟨(matched_nil.enter .exec _).enter .exec _, by decide, by decide⟩

end PipelineController

end Chase.EvBlp
