import Chase.EvBlp.Sync
import Mathlib.Data.Prod.Lex
import Mathlib.Order.WellFounded

/-!
# The synchronous pipeline completes

The loops of `process_batches` wait for windows that only a batch that leaves a stage can open, but
a call never waits: whenever it asks for a window, nothing is in the stage and the window is open,
since every batch leaves `Order` and `Exec` while nothing is in the stage after it (`Balanced`). So
each call comes back once the commits stop failing, unless `PipelineBatch::new` panics. The measure
of a step is the number of failures that are left, then the batches to execute, then the pending
ones. The calls up to one are then completed exactly when the gas of every transaction of their
batches can be read (`process_batches_completes_iff`).
-/

namespace Chase.EvBlp

open Cache Stack Function

/-! ## A batch that passes through a stage -/

namespace PipelineController

variable (config : PipelineConfig) (c : PipelineController) (stage : StageId)

/-- A batch that passes through an empty stage leaves it empty. -/
theorem inFlight_through (hempty : c.inFlight stage = 0) (g : Nat) :
    ((c.onBatchEnter stage g).onBatchExit config stage g).inFlight = c.inFlight := by
  have hone : (c.inFlight stage + 1) % 2 ^ 32 - 1 = c.inFlight stage := by omega
  rw [inFlight_onBatchExit, inFlight_onBatchEnter, update_self, update_idem, hone, update_eq_self]

/-- A weight of 64 bits does not overflow an empty stage. -/
theorem w_through {g : Nat} (hg : g < 2 ^ 64) (hw : c.w stage = 0) :
    ((c.onBatchEnter stage g).onBatchExit config stage g).w = c.w := by
  rw [w_onBatchExit, w_onBatchEnter, update_self, update_idem, hw, Nat.zero_add,
    Nat.mod_eq_of_lt hg, Nat.sub_self, ← hw, update_eq_self]

end PipelineController

open PipelineController

/-- The batch that is in `Order`. -/
def Point.entered : Point → List OrderedBatch
  | waitExec b => [b]
  | idle | next | waitOrder _ | final | panicked _ => []

namespace Sync

variable {ε : Type} {config : EvBlpConfig} {ex : BatchExecutor ε} {s s' : Sync ε}

/-! ## The windows are open -/

/-- The windows are open, and nothing but the batch between `Order` and `Exec` is in a stage. -/
structure Balanced (s : Sync ε) : Prop where
  zeta : ∀ stage, 0 < s.controller.zeta stage
  order : s.controller.inFlight .order = s.point.entered.length
  wOrder : s.controller.w .order = (s.point.entered.map (·.gasWeight.toNat)).sum
  exec : s.controller.inFlight .exec = 0
  wExec : s.controller.w .exec = 0
  commit : s.controller.inFlight .commit = 0
  wCommit : s.controller.w .commit = 0

namespace Balanced

/-- The windows are open at the start. -/
theorem new (executor : ε) (db : Key → Option Value)
    (calls : List (List ExecutableEthereumBatch)) : Balanced (new config executor db calls) :=
  ⟨fun _ => Nat.one_pos, rfl, rfl, rfl, rfl, rfl, rfl⟩

/-- A step that keeps the batches in the stages and the windows. -/
theorem of_eq (h : Balanced s) (hzeta : s'.controller.zeta = s.controller.zeta)
    (hinFlight : s'.controller.inFlight = s.controller.inFlight)
    (hw : s'.controller.w = s.controller.w) (hentered : s'.point.entered = s.point.entered) :
    Balanced s' where
  zeta := hzeta ▸ h.zeta
  order := by rw [hinFlight, hentered, h.order]
  wOrder := by rw [hw, hentered, h.wOrder]
  exec := by rw [hinFlight, h.exec]
  wExec := by rw [hw, h.wExec]
  commit := by rw [hinFlight, h.commit]
  wCommit := by rw [hw, h.wCommit]

/-- A batch that enters `Order` is counted there. -/
theorem enterOrder (h : Balanced s) {b : OrderedBatch} (hpoint : s.point = .waitOrder b) :
    Balanced (s.enterOrder b) := by
  obtain ⟨hzeta, horder, hwOrder, hexec, hwExec, hcommit, hwCommit⟩ := h
  rw [hpoint] at horder hwOrder
  have hgas : b.gasWeight.toNat < 2 ^ 64 := b.gasWeight.toNat_lt
  refine ⟨hzeta, ?_, ?_, hexec, hwExec, hcommit, hwCommit⟩
  · rw [Sync.enterOrder, inFlight_onBatchEnter, update_self, horder]
    rfl
  · have hzero : s.controller.w .order = 0 := hwOrder
    rw [Sync.enterOrder, w_onBatchEnter, update_self, hzero, Nat.zero_add, Nat.mod_eq_of_lt hgas]
    rfl

/-- The batch leaves `Exec` while `Commit` is empty, and `Order` while `Exec` is, so both windows
open. -/
theorem execute (h : Balanced s) {b : OrderedBatch} (hpoint : s.point = .waitExec b) :
    Balanced (s.execute config ex b) := by
  obtain ⟨hzeta, horder, hwOrder, hexec, hwExec, hcommit, hwCommit⟩ := h
  rw [hpoint] at horder hwOrder
  have hgas : b.gasWeight.toNat < 2 ^ 64 := b.gasWeight.toNat_lt
  have hinFlight : (s.execute config ex b).controller.inFlight =
      update s.controller.inFlight .order (s.controller.inFlight .order - 1) := by
    rw [Sync.execute, inFlight_onBatchExit, inFlight_through _ _ _ hexec]
  have hw : (s.execute config ex b).controller.w =
      update s.controller.w .order (s.controller.w .order - b.gasWeight.toNat) := by
    rw [Sync.execute, w_onBatchExit, w_through _ _ _ hgas hwExec]
  refine ⟨fun stage => ?_, ?_, ?_, ?_, ?_, ?_, ?_⟩
  · rw [Sync.execute, zeta_onBatchExit_order, w_through _ _ _ hgas hwExec, hwExec]
    cases stage with
    | order =>
      rw [update_self]
      exact newZeta_zero_pos _ _ _
    | exec =>
      rw [update_of_ne (fun h => (by cases h)), zeta_onBatchExit_exec, update_self, w_onBatchEnter,
        update_of_ne (fun h => (by cases h)), hwCommit]
      exact newZeta_zero_pos _ _ _
    | commit => exact hzeta .commit
  · rw [hinFlight, update_self, horder]
    rfl
  · rw [hw, update_self, hwOrder]
    exact Nat.sub_self _
  · rw [hinFlight]
    exact hexec
  · rw [hw]
    exact hwExec
  · rw [hinFlight]
    exact hcommit
  · rw [hw]
    exact hwCommit

/-- A commit passes through the empty `Commit` stage. -/
theorem commit_step (config : EvBlpConfig) (h : Balanced s) (batch : OrderedBatch)
    (hcontroller : s'.controller = s.afterCommit config batch) (hpoint : s'.point = s.point) :
    Balanced s' := by
  refine h.of_eq ?_ ?_ ?_ (by rw [hpoint])
  · rw [hcontroller]
    rfl
  · rw [hcontroller, afterCommit, inFlight_through _ _ _ h.commit]
  · rw [hcontroller, afterCommit, w_through _ _ _ batch.deltaBytes.toNat_lt h.wCommit]

/-- A step keeps the windows open. -/
theorem step (h : Balanced s) (hstep : Step config ex s s') : Balanced s' := by
  cases hstep with
  | call _ hpoint _ | loopEnd _ hpoint _ | alloc _ hpoint _ _ | panic _ hpoint _ _
  | finish _ hpoint _ => exact h.of_eq rfl rfl rfl (by rw [hpoint]; rfl)
  | enterOrder _ hpoint _ => exact h.enterOrder hpoint
  | execute _ hpoint _ => exact h.execute hpoint
  | drain _ _ | drained _ _ | closed _ _ => exact h.of_eq rfl rfl rfl rfl
  | commitOk _ _ _ _ | commitErr _ _ _ _ => exact commit_step config h _ rfl rfl

/-- The windows are open in every state of a run. -/
theorem states (executor : ε) (db : Key → Option Value)
    (calls : List (List ExecutableEthereumBatch)) (n : Nat) :
    Balanced (states config ex executor db calls n) :=
  Machine.invariant (fun _ _ h hstep => h.step (.of_step hstep)) (.new executor db calls) n

theorem canPush (h : Balanced s) {stage : StageId} (hempty : s.controller.inFlight stage = 0) :
    s.controller.canPush stage = true := by
  rw [canPush_iff, hempty]
  exact h.zeta stage

/-- Between two calls nothing is in a stage. -/
theorem empty_of_idle (h : Balanced s) (hpoint : s.point = .idle) (stage : StageId) :
    s.controller.inFlight stage = 0 ∧ s.controller.w stage = 0 := by
  cases stage with
  | order =>
    rw [h.order, h.wOrder, hpoint]
    exact ⟨rfl, rfl⟩
  | exec => exact ⟨h.exec, h.wExec⟩
  | commit => exact ⟨h.commit, h.wCommit⟩

end Balanced

/-! ## The batches and the digests -/

/-- The number of batches of the running call. -/
def running (s : Sync ε) : List Nat :=
  match s.point with
  | .idle => []
  | _ => [s.digests.length + s.point.batches.length + s.todo.length]

/-- The batches are executed in their order, and the digests are those of the executed batches, call
by call. -/
structure Accounted (calls : List (List ExecutableEthereumBatch)) (s : Sync ε) : Prop where
  batches : s.executed.map (·.1.batch) ++ s.point.batches ++ s.todo ++ s.calls.flatten =
    calls.flatten
  digests : s.results.flatten ++ s.digests = s.executed.map (·.2)
  lengths : s.results.map List.length ++ s.running ++ s.calls.map List.length =
    calls.map List.length
  ended : s.point = .idle ∨ s.point = .final → s.todo = []
  idle : s.point = .idle → s.digests = []
  /-- The weight of an executed batch was computed, as was that of one on its way. -/
  weighed : ∀ batch ∈ s.executed.map (·.1.batch) ++ s.point.held.map (·.batch), HasGas batch
  panicked : ∀ batch, s.point = .panicked batch → ¬HasGas batch

namespace Accounted

variable {calls : List (List ExecutableEthereumBatch)}

/-- At the start, all batches are in the calls. -/
theorem new (executor : ε) (db : Key → Option Value) :
    Accounted calls (new config executor db calls) :=
  ⟨rfl, rfl, rfl, fun _ => rfl, fun _ => rfl, fun _ h => (by cases h), fun _ h => (by cases h)⟩

/-- A call takes its batches. -/
theorem call (h : Accounted calls s) {batches : List ExecutableEthereumBatch}
    {rest : List (List ExecutableEthereumBatch)} (hpoint : s.point = .idle)
    (hcalls : s.calls = batches :: rest) : Accounted calls (s.call batches rest) := by
  obtain ⟨hbatches, hdigests, hlengths, hended, hidle, hweighed, -⟩ := h
  rw [hpoint, hended (.inl hpoint), hcalls, List.flatten_cons] at hbatches
  rw [hidle hpoint] at hdigests
  rw [running, hpoint, hcalls, List.map_cons] at hlengths
  rw [hpoint] at hweighed
  refine ⟨?_, hdigests, ?_, fun h => (by rcases h with h | h <;> cases h), fun h => (by cases h),
    hweighed, fun _ h => (by cases h)⟩
  · simpa [Sync.call, Point.batches] using hbatches
  · simpa [Sync.call, running, Point.batches] using hlengths

/-- The next batch moves from the list to the point. -/
theorem next (h : Accounted calls s) {batch : ExecutableEthereumBatch}
    {todo : List ExecutableEthereumBatch} (hpoint : s.point = .next)
    (htodo : s.todo = batch :: todo)
    {point : Point} {nextBatchId : Nat} (hbatch : point.batches = [batch])
    (hheld : ∀ b ∈ point.held.map (·.batch), HasGas b)
    (hpanicked : ∀ b, point = .panicked b → ¬HasGas b) :
    Accounted calls { s with todo := todo, nextBatchId := nextBatchId, point := point } := by
  obtain ⟨hbatches, hdigests, hlengths, -, -, hweighed, -⟩ := h
  have hidle : point ≠ .idle := fun h => (by rw [h] at hbatch; cases hbatch)
  have hfinal : point ≠ .final := fun h => (by rw [h] at hbatch; cases hbatch)
  rw [hpoint, htodo] at hbatches
  rw [running, hpoint, htodo] at hlengths
  rw [hpoint, Point.held, List.map_nil, List.append_nil] at hweighed
  refine ⟨?_, hdigests, ?_, fun h => ?_, fun h => absurd h hidle, fun b hb => ?_, hpanicked⟩
  · change _ ++ point.batches ++ todo ++ _ = _
    rw [hbatch]
    simpa [Point.batches] using hbatches
  · have hsum : s.digests.length + (todo.length + 1) = s.digests.length + 1 + todo.length := by
      omega
    rw [running]
    split
    · exact absurd (by assumption) hidle
    · rw [hbatch]
      simpa [Point.batches, hsum] using hlengths
  · rcases h with h | h
    · exact absurd h hidle
    · exact absurd h hfinal
  · rcases List.mem_append.1 hb with hb | hb
    · exact hweighed b hb
    · exact hheld b hb

/-- An executed batch adds its digest. -/
theorem execute (h : Accounted calls s) {b : OrderedBatch} (hpoint : s.point = .waitExec b) :
    Accounted calls (s.execute config ex b) := by
  obtain ⟨hbatches, hdigests, hlengths, -, -, hweighed, -⟩ := h
  rw [hpoint] at hbatches hweighed
  rw [running, hpoint] at hlengths
  refine ⟨?_, ?_, ?_, fun h => (by rcases h with h | h <;> cases h), fun h => (by cases h), ?_,
    fun _ h => (by cases h)⟩
  · simpa [Sync.execute, Point.batches] using hbatches
  · simp [Sync.execute, ← hdigests]
  · simpa [Sync.execute, running, Point.batches] using hlengths
  · simpa [Sync.execute, Point.held] using hweighed

/-- A call that ends returns the digests of its batches. -/
theorem finish (h : Accounted calls s) (hpoint : s.point = .final) :
    Accounted calls (s.finish ex) := by
  obtain ⟨hbatches, hdigests, hlengths, hended, -, hweighed, -⟩ := h
  have htodo := hended (.inr hpoint)
  rw [hpoint] at hbatches hweighed
  rw [running, hpoint, htodo] at hlengths
  refine ⟨hbatches, ?_, ?_, fun _ => htodo, fun _ => rfl, hweighed, fun _ h => (by cases h)⟩
  · simpa [Sync.finish] using hdigests
  · simpa [Sync.finish, running, Point.batches] using hlengths

/-- A step keeps the batches and the digests accounted for. -/
theorem step (h : Accounted calls s) (hstep : Step config ex s s') : Accounted calls s' := by
  cases hstep with
  | call _ hpoint hcalls => exact h.call hpoint hcalls
  | loopEnd _ hpoint htodo =>
    obtain ⟨hbatches, hdigests, hlengths, -, -, hweighed, -⟩ := h
    rw [hpoint] at hbatches hweighed
    rw [running, hpoint] at hlengths
    exact ⟨hbatches, hdigests, hlengths, fun _ => htodo, fun h => (by cases h), hweighed,
      fun _ h => (by cases h)⟩
  | alloc _ hpoint htodo hnew =>
    obtain ⟨-, rfl, hgas⟩ := OrderedBatch.new_eq_some hnew
    exact h.next hpoint htodo rfl (fun _ hb => List.mem_singleton.1 hb ▸ hgas) fun _ h =>
      (by cases h)
  | panic _ hpoint htodo hnew =>
    refine h.next hpoint htodo rfl (fun _ hb => (by cases hb)) fun b hb => ?_
    cases hb
    exact OrderedBatch.new_eq_none hnew
  | enterOrder _ hpoint _ =>
    obtain ⟨hbatches, hdigests, hlengths, -, -, hweighed, -⟩ := h
    rw [hpoint] at hbatches hweighed
    rw [running, hpoint] at hlengths
    exact ⟨hbatches, hdigests, hlengths, fun h => (by rcases h with h | h <;> cases h),
      fun h => (by cases h), hweighed, fun _ h => (by cases h)⟩
  | execute _ hpoint _ => exact h.execute hpoint
  | finish _ hpoint _ => exact h.finish hpoint
  | drain _ _ | drained _ _ | closed _ _ | commitOk _ _ _ _ | commitErr _ _ _ _ =>
    exact ⟨h.batches, h.digests, h.lengths, h.ended, h.idle, h.weighed, h.panicked⟩

/-- The batches and the digests are accounted for in every state of a run. -/
theorem states (executor : ε) (db : Key → Option Value)
    (calls : List (List ExecutableEthereumBatch)) (n : Nat) :
    Accounted calls (states config ex executor db calls n) :=
  Machine.invariant (fun _ _ h hstep => h.step (.of_step hstep)) (.new executor db) n

end Accounted

/-! ## A call comes back -/

/-- The place of a point among the steps that change none of the larger parts of the measure. -/
def rankOf : Point → Nat
  | .idle | .panicked _ => 0
  | .final => 2
  | .waitExec _ => 3
  | .waitOrder _ => 4
  | .next => 5

/-- The place of a step: a pass of `drain_commit_stage` is followed by the loop that it returns to,
and the last loop by a pass that makes a commit. -/
def rank (s : Sync ε) : Nat :=
  match s.draining with
  | some i => if i < s.pendingCommit.length then 1 else 6
  | none => rankOf s.point

/-- The batches of the call that are not executed. -/
def unexecuted (s : Sync ε) : Nat := s.point.batches.length + s.todo.length

/-- The measure of a call when at most `bound` commits fail. -/
def measure (bound : Nat) (s : Sync ε) : ℕ ×ₗ ℕ ×ₗ ℕ ×ₗ ℕ :=
  toLex (bound - s.failures, toLex (s.unexecuted, toLex (s.pendingCommit.length, s.rank)))

/-- The measure is lexicographic: failures, executions, commits, and the point in the loop. -/
theorem measure_lt_iff {bound : Nat} : s'.measure bound < s.measure bound ↔
    bound - s'.failures < bound - s.failures ∨ bound - s'.failures = bound - s.failures ∧
      (s'.unexecuted < s.unexecuted ∨ s'.unexecuted = s.unexecuted ∧
        (s'.pendingCommit.length < s.pendingCommit.length ∨
          s'.pendingCommit.length = s.pendingCommit.length ∧ s'.rank < s.rank)) := by
  simp only [measure, Prod.Lex.toLex_lt_toLex]

/-- A step that only moves on. -/
theorem measure_lt_of_rank {bound : Nat} (hfailures : s'.failures = s.failures)
    (hunexecuted : s'.unexecuted = s.unexecuted)
    (hpending : s'.pendingCommit.length = s.pendingCommit.length) (hrank : s'.rank < s.rank) :
    s'.measure bound < s.measure bound :=
  measure_lt_iff.2 (.inr ⟨by rw [hfailures], .inr ⟨hunexecuted, .inr ⟨hpending, hrank⟩⟩⟩)

theorem rank_of_none (h : s.draining = none) : s.rank = rankOf s.point := by
  rw [rank, h]

/-- A step from one point to a later one. -/
theorem measure_lt_of_point {bound : Nat} {point : Point} (hdraining : s.draining = none)
    (hdraining' : s'.draining = none) (hpoint : s.point = point)
    (hfailures : s'.failures = s.failures)
    (hunexecuted : s'.unexecuted = point.batches.length + s.todo.length)
    (hpending : s'.pendingCommit.length = s.pendingCommit.length)
    (hlt : rankOf s'.point < rankOf point) : s'.measure bound < s.measure bound := by
  subst hpoint
  refine measure_lt_of_rank hfailures hunexecuted hpending ?_
  rwa [rank_of_none hdraining, rank_of_none hdraining']

/-- The rank of a point is below the factor of the passes. -/
theorem rankOf_lt_six (point : Point) : rankOf point < 6 := by
  cases point with
  | idle | next | final => decide
  | waitOrder b => exact (by decide : 4 < 6)
  | waitExec b => exact (by decide : 3 < 6)
  | panicked batch => exact (by decide : 0 < 6)

/-- Every step of a call decreases the measure. -/
theorem Step.measure_lt (hstep : Step config ex s s') {bound : Nat} (hs : Balanced s)
    (hbound : s'.failures ≤ bound) (hpoint : s.point ≠ .idle) :
    s'.measure bound < s.measure bound := by
  cases hstep with
  | call _ hidle _ => exact absurd hidle hpoint
  | loopEnd hdraining hpoint htodo =>
    exact measure_lt_of_point hdraining hdraining hpoint rfl rfl rfl (by decide : 2 < 5)
  | alloc hdraining hpoint htodo _ =>
    refine measure_lt_of_point hdraining hdraining hpoint rfl ?_ rfl (Nat.lt_succ_self 4)
    -- the batch moves from the list to the point
    rw [unexecuted, htodo, List.length_cons, Nat.add_comm]
    exact (Nat.zero_add _).symm
  | panic hdraining hpoint htodo _ =>
    refine measure_lt_of_point hdraining hdraining hpoint rfl ?_ rfl (by decide : 0 < 5)
    rw [unexecuted, htodo, List.length_cons, Nat.add_comm]
    exact (Nat.zero_add _).symm
  | enterOrder hdraining hpoint _ =>
    exact measure_lt_of_point hdraining hdraining hpoint rfl rfl rfl (Nat.lt_succ_self 3)
  | execute hdraining hpoint _ =>
    refine measure_lt_iff.2 (.inr ⟨rfl, .inl ?_⟩)
    rw [unexecuted, unexecuted, hpoint]
    exact Nat.add_lt_add_right Nat.one_pos _
  | finish hdraining hpoint _ =>
    exact measure_lt_of_point hdraining hdraining hpoint rfl rfl rfl Nat.two_pos
  | drain hdraining hwhere =>
    -- no window is closed, so this is the loop after the last batch
    rcases hwhere with ⟨b, hpoint, hclosed⟩ | ⟨b, hpoint, hclosed⟩ | ⟨hpoint, hpending⟩
    · have hempty : s.controller.inFlight .order = 0 := by
        rw [hs.order, hpoint]
        rfl
      rw [hs.canPush hempty] at hclosed
      cases hclosed
    · rw [hs.canPush hs.exec] at hclosed
      cases hclosed
    · refine measure_lt_of_rank rfl rfl rfl ?_
      rw [rank_of_none hdraining, hpoint, rank]
      dsimp only
      rw [if_pos (List.length_pos_iff.2 hpending)]
      decide
  | drained hdraining hnone =>
    refine measure_lt_of_rank rfl rfl rfl ?_
    have hrank : s.rank = 6 := by
      rw [rank, hdraining]
      dsimp only
      rw [if_neg (Nat.not_lt.2 (List.getElem?_eq_none_iff.1 hnone))]
    rw [hrank]
    exact rankOf_lt_six _
  | closed _ hclosed =>
    rw [hs.canPush hs.commit] at hclosed
    cases hclosed
  | commitOk hdraining hbatch _ _ =>
    refine measure_lt_iff.2 (.inr ⟨rfl, .inr ⟨rfl, .inl ?_⟩⟩)
    obtain ⟨hi, -⟩ := List.getElem?_eq_some_iff.1 hbatch
    rw [Sync.commitOk, List.length_eraseIdx_of_lt hi]
    exact Nat.sub_lt (Nat.zero_lt_of_lt hi) Nat.one_pos
  | commitErr _ _ _ _ =>
    refine measure_lt_iff.2 (.inl ?_)
    exact Nat.sub_lt_sub_left (Nat.lt_of_succ_le hbound) (Nat.lt_succ_self _)

/-- During a call there is always a next step, unless there was a panic. -/
theorem exists_step (hpoint : s.point ≠ .idle) (hpanicked : ∀ batch, s.point ≠ .panicked batch) :
    ∃ s', s.step config ex = some s' := by
  rw [step]
  cases s.draining with
  | some i => exact ⟨_, rfl⟩
  | none =>
    dsimp only
    rw [pointStep]
    cases hp : s.point with
    | idle => exact absurd hp hpoint
    | next =>
      cases s.todo with
      | nil => exact ⟨_, rfl⟩
      | cons batch todo =>
        dsimp only
        split <;> exact ⟨_, rfl⟩
    | waitOrder b | waitExec b =>
      dsimp only
      split <;> exact ⟨_, rfl⟩
    | final => cases s.pendingCommit <;> exact ⟨_, rfl⟩
    | panicked batch => exact absurd hp (hpanicked batch)

theorem Step.calls_eq (hstep : Step config ex s s') (hpoint : s.point ≠ .idle) :
    s'.calls = s.calls := by
  cases hstep with
  | call _ hidle _ => exact absurd hidle hpoint
  | _ => rfl

section Completes

variable (config ex) (executor : ε) (db : Key → Option Value)
  (calls : List (List ExecutableEthereumBatch))

/-- Not more than `bound` commits fail. -/
def FailsAtMost (bound : Nat) : Prop :=
  ∀ n, (states config ex executor db calls n).failures ≤ bound

/-- The calls have returned: every batch was executed once and in order, its commit has succeeded
once, the results are the digests, call by call, and the stages are empty. -/
structure Completed (calls : List (List ExecutableEthereumBatch)) (s : Sync ε) : Prop where
  executed : s.executed.map (·.1.batch) = calls.flatten
  ids : s.executedIds = List.range' 1 s.executed.length
  committed : s.committed.Perm s.executedIds
  digests : s.results.flatten = s.executed.map (·.2)
  lengths : s.results.map List.length = calls.map List.length
  empty : ∀ stage, s.controller.inFlight stage = 0 ∧ s.controller.w stage = 0

variable {config ex executor db calls}

/-- The batches of the calls that have begun are those that are executed, on their way or to come.
-/
theorem batches_of_calls {n k : Nat}
    (hcalls : (states config ex executor db calls n).calls = calls.drop k) :
    (states config ex executor db calls n).executed.map (·.1.batch) ++
        (states config ex executor db calls n).point.batches ++
          (states config ex executor db calls n).todo = (calls.take k).flatten := by
  have haccounted : Accounted calls (states config ex executor db calls n) :=
    .states executor db calls n
  have hbatches := haccounted.batches
  have htake : (calls.take k).flatten ++ (calls.drop k).flatten = calls.flatten := by
    rw [← List.flatten_append, List.take_append_drop]
  rw [hcalls, ← htake] at hbatches
  exact List.append_cancel_right hbatches

/-- The call that begins in a state comes back, when the gas of its batches can be read. -/
theorem call_returns {bound : Nat} (hbound : FailsAtMost config ex executor db calls bound)
    {n k : Nat} (hpoint : (states config ex executor db calls n).point = .idle)
    (hcalls : (states config ex executor db calls n).calls = calls.drop k)
    (hgas : ∀ batch ∈ (calls.take (k + 1)).flatten, HasGas batch) (hk : k < calls.length) :
    ∃ m, (states config ex executor db calls m).point = .idle ∧
      (states config ex executor db calls m).calls = calls.drop (k + 1) := by
  rw [List.drop_eq_getElem_cons hk] at hcalls
  have hnumbered : Numbered (states config ex executor db calls n) := .states executor db calls n
  have hstep : (states config ex executor db calls n).step config ex =
      some ((states config ex executor db calls n).call calls[k] (calls.drop (k + 1))) := by
    rw [step, (hnumbered.idle hpoint).2]
    dsimp only
    rw [pointStep, hpoint]
    dsimp only
    rw [hcalls]
  have hnext : states config ex executor db calls (n + 1) =
      (states config ex executor db calls n).call calls[k] (calls.drop (k + 1)) :=
    Machine.run_succ_of_step hstep
  have hleads : ∀ s : Sync ε,
      (∃ m, states config ex executor db calls m = s) ∧ s.calls = calls.drop (k + 1) →
      ¬s.point = .idle → ∃ s', s.step config ex = some s' ∧
        ((∃ m, states config ex executor db calls m = s') ∧ s'.calls = calls.drop (k + 1)) ∧
          s'.measure bound < s.measure bound := by
    rintro _ ⟨⟨m, rfl⟩, hrest⟩ hpoint
    have hpanicked : ∀ batch, (states config ex executor db calls m).point ≠ .panicked batch := by
      intro batch hbatch
      refine (Accounted.states executor db calls m).panicked batch hbatch (hgas batch ?_)
      rw [← batches_of_calls hrest, hbatch]
      exact List.mem_append_left _ (List.mem_append_right _ (List.mem_singleton.2 rfl))
    obtain ⟨s', hs'⟩ := exists_step hpoint hpanicked
    have hm : states config ex executor db calls (m + 1) = s' := Machine.run_succ_of_step hs'
    refine ⟨s', hs', ⟨⟨m + 1, hm⟩, ?_⟩, ?_⟩
    · rw [(Step.of_step hs').calls_eq hpoint, hrest]
    · exact (Step.of_step hs').measure_lt (.states executor db calls m) (hm ▸ hbound (m + 1)) hpoint
  obtain ⟨_, ⟨⟨m, hm⟩, hrest⟩, hidle⟩ := Machine.reaches (step config ex) wellFounded_lt
    (measure bound) hleads ⟨⟨n + 1, hnext⟩, rfl⟩
  exact ⟨m, hm ▸ hidle, hm ▸ hrest⟩

/-- Each of the calls comes back, when the gas of the batches up to it can be read. -/
theorem calls_return {bound : Nat} (hbound : FailsAtMost config ex executor db calls bound)
    {k : Nat} (hgas : ∀ batch ∈ (calls.take k).flatten, HasGas batch) :
    ∃ n, (states config ex executor db calls n).point = .idle ∧
      (states config ex executor db calls n).calls = calls.drop k := by
  induction k with
  | zero => exact ⟨0, rfl, rfl⟩
  | succ k ih =>
    have hsubset : (calls.take k).flatten ⊆ (calls.take (k + 1)).flatten := by
      rw [List.take_add_one, List.flatten_append]
      exact List.subset_append_left _ _
    obtain ⟨n, hpoint, hcalls⟩ := ih fun batch hbatch => hgas batch (hsubset hbatch)
    rcases Nat.lt_or_ge k calls.length with hk | hk
    · exact call_returns hbound hpoint hcalls hgas hk
    · refine ⟨n, hpoint, ?_⟩
      rw [hcalls, List.drop_eq_nil_of_le hk, List.drop_eq_nil_of_le (Nat.le_succ_of_le hk)]

/-- Between two calls, those before have been completed. -/
theorem completed_of_idle {k n : Nat}
    (hpoint : (states config ex executor db calls n).point = .idle)
    (hcalls : (states config ex executor db calls n).calls = calls.drop k) :
    Completed (calls.take k) (states config ex executor db calls n) := by
  have hnumbered : Numbered (states config ex executor db calls n) := .states executor db calls n
  have hbalanced : Balanced (states config ex executor db calls n) := .states executor db calls n
  obtain ⟨-, hdigests, hlengths, hended, hdone, -, -⟩ : Accounted calls
    (states config ex executor db calls n) := .states executor db calls n
  refine ⟨?_, hnumbered.ids, ?_, ?_, ?_, hbalanced.empty_of_idle hpoint⟩
  · have hbatches := batches_of_calls hcalls
    rwa [hpoint, hended (.inl hpoint), Point.batches, List.append_nil, List.append_nil] at hbatches
  · have hsplit := hnumbered.split
    rwa [pendingIds, (hnumbered.idle hpoint).1, List.map_nil, List.append_nil] at hsplit
  · rwa [hdone hpoint, List.append_nil] at hdigests
  · have htake : (calls.take k).map List.length ++ (calls.drop k).map List.length =
        calls.map List.length := by
      rw [← List.map_append, List.take_append_drop]
    rw [running, hpoint, hcalls, ← htake] at hlengths
    simpa using List.append_cancel_right hlengths

end Completes

/-- **The synchronous pipeline terminates and completes**: for every configuration and executor
whose commits fail a bounded number of times, the calls up to one on a new pipeline return, have
executed every batch once and in order, committed it once, returned the digests and left the stages
empty, exactly when the gas of every transaction of their batches can be read. -/
theorem process_batches_completes_iff (config : EvBlpConfig) (ex : BatchExecutor ε) (executor : ε)
    (db : Key → Option Value) (calls : List (List ExecutableEthereumBatch))
    (h : ∃ bound, FailsAtMost config ex executor db calls bound) (k : Nat) :
    (∃ n, (states config ex executor db calls n).point = .idle ∧
        (states config ex executor db calls n).calls = calls.drop k ∧
        Completed (calls.take k) (states config ex executor db calls n)) ↔
      ∀ batch ∈ (calls.take k).flatten, ∀ tx ∈ batch.data, tx.HasGasLimit := by
  constructor
  · rintro ⟨n, -, -, hcompleted⟩ batch hbatch
    rw [← hcompleted.executed] at hbatch
    exact (Accounted.states executor db calls n).weighed batch (List.mem_append_left _ hbatch)
  · intro hgas
    obtain ⟨bound, hbound⟩ := h
    obtain ⟨n, hpoint, hcalls⟩ := calls_return hbound hgas
    exact ⟨n, hpoint, hcalls, completed_of_idle hpoint hcalls⟩

end Sync

namespace SyncFixture

/-- The failures of the fixture are bounded, whatever the calls are. -/
theorem failing_failsAtMost (bound : Nat) (calls : List (List ExecutableEthereumBatch)) :
    Sync.FailsAtMost config (failing bound) 0 (fun _ => none) calls bound := by
  intro n
  have hinv : ∀ s s' : Sync Nat, s.failures ≤ s.executor ∧ s.failures ≤ bound →
      s.step config (failing bound) = some s' → s'.failures ≤ s'.executor ∧
        s'.failures ≤ bound := by
    rintro s s' ⟨hle, hbound⟩ hstep
    cases Sync.Step.of_step hstep with
    | commitOk _ _ _ _ => exact ⟨Nat.le_succ_of_le hle, hbound⟩
    | commitErr _ _ _ herr =>
      have hlt : s.executor < bound := by
        by_contra hnot
        dsimp only [failing] at herr
        rw [if_neg hnot] at herr
        cases herr
      exact ⟨Nat.succ_le_succ hle, Nat.lt_of_le_of_lt hle hlt⟩
    | _ => exact ⟨hle, hbound⟩
  exact (Machine.invariant hinv ⟨Nat.le_refl _, Nat.zero_le _⟩ n).2

/-- A call of a contract, with gas. -/
def callTx (gasLimit : UInt64) : EthereumTransaction := .ofCall 1 2 0 [] gasLimit 0

/-- A transaction that is parsed from JSON without a gas. -/
def withoutGas : EthereumTransaction := ⟨{ (callTx 0).inner with gas := none }⟩

/-- Two calls with commits that fail in the first one; the gas of a batch adds up to more than 64
bits. -/
theorem process_batches_completes_failing :
    let calls := [[⟨[callTx 21000, callTx 50000], 1⟩, ⟨[callTx 0xffffffffffffffff, callTx 1], 2⟩],
      [⟨[callTx 0], 3⟩]]
    ∃ n, (Sync.states config (failing 2) 0 (fun _ => none) calls n).calls = [] ∧
      Sync.Completed calls (Sync.states config (failing 2) 0 (fun _ => none) calls n) := by
  obtain ⟨n, -, hcalls, hcompleted⟩ := (Sync.process_batches_completes_iff config (failing 2) 0
    (fun _ => none)
    [[⟨[callTx 21000, callTx 50000], 1⟩, ⟨[callTx 0xffffffffffffffff, callTx 1], 2⟩],
      [⟨[callTx 0], 3⟩]] ⟨2, failing_failsAtMost 2 _⟩ 2).2 (by simp [callTx])
  exact ⟨n, hcalls, hcompleted⟩

/-- The second transaction of the batch has no gas: the call panics before the batch is executed,
and never returns. -/
theorem process_batches_panics :
    let run := Sync.states config (failing 0) 0 (fun _ => none)
      [[⟨[callTx 21000, withoutGas], 1⟩]]
    (run 2).point = .panicked ⟨[callTx 21000, withoutGas], 1⟩ ∧
      ∀ n, (run n).results = [] ∧ (run n).executed = [] := by
  intro run
  have hpanicked : (run 2).step config (failing 0) = none := rfl
  refine ⟨rfl, fun n => ?_⟩
  match n with
  | 0 | 1 => exact ⟨rfl, rfl⟩
  | n + 2 =>
    have hrun : run (n + 2) = run 2 := by
      rw [Nat.add_comm]
      exact Machine.run_add_of_halt hpanicked n
    rw [hrun]
    exact ⟨rfl, rfl⟩

end SyncFixture

end Chase.EvBlp
