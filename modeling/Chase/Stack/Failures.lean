import Chase.Cache.Runs
import Chase.Stack.Restart
import Chase.Stack.SlotTable

/-!
# Failures of the store

While a sub-dag is executed, the store is called by `persist_applies` for every committed effect
and, under EV-BLP, by `put_batch` for the commits of batches and the flush of frozen tables. Any
insert or remove may fail: the call returns the error, the caller logs it and goes on, and at the
end `handle_consensus_output` sets the executed index all the same. The effects of the sub-dag are
in the store when no write of `persist_applies` fails and the puts keep what it has written
(`executedIndex_durable_iff`).
-/

namespace Chase.Stack

open Cache LastWrite TableStep

/-- A `persist_applies` that fails after `made` of its point operations: the rest is not made. -/
def ChaseStorage.persistUntil : Nat → ChaseStorage → List Apply → ChaseStorage
  | _, d, [] => d
  | made, d, x :: applies =>
    let ops := d.persistOps x
    if ops.length ≤ made then persistUntil (made - ops.length) (ops.foldl exec d) applies
    else (ops.take made).foldl exec d

/-- The number of point operations of a `persist_applies`. -/
def ChaseStorage.persistCount : ChaseStorage → List Apply → Nat
  | _, [] => 0
  | d, x :: applies =>
    (d.persistOps x).length + persistCount ((d.persistOps x).foldl exec d) applies

/-- Nothing fails after the last point operation. -/
theorem ChaseStorage.persistUntil_eq {made : Nat} {d : ChaseStorage} {applies : List Apply}
    (h : d.persistCount applies ≤ made) :
    d.persistUntil made applies = d.persistApplies applies := by
  induction applies generalizing d made with
  | nil => rfl
  | cons x applies ih =>
    rw [persistCount] at h
    rw [persistUntil, if_pos (Nat.le_trans (Nat.le_add_right _ _) h)]
    exact ih (Nat.le_sub_of_add_le (by omega))

/-- A call of the store while a sub-dag is executed, with what becomes of it. -/
inductive StoreCall where
  /-- `persist_applies` by `PersistableCMemoryBackend::apply`, with the number of operations that
  are made before one fails. -/
  | apply (values : List Apply) (failsAfter : Option Nat)
  /-- `put_batch` by `commit_batch` or `flush_frozen_tables`. -/
  | put (entries : List (Key × Value)) (outcome : PutOutcome)

namespace StoreCall

/-- What the call does to the tables. -/
def run (d : ChaseStorage) : StoreCall → ChaseStorage
  | apply values none => d.persistApplies values
  | apply values (some made) => d.persistUntil made values
  | put entries outcome => RocksDbStateStore.putBatch d (outcome.entries entries)

/-- The effects that the call is to persist. -/
def effects : StoreCall → List Apply
  | apply values _ => values
  | put _ _ => []

/-- No operation of a `persist_applies` fails. -/
def Persists (d : ChaseStorage) : StoreCall → Prop
  | apply values failsAfter => ∀ made ∈ failsAfter, d.persistCount values ≤ made
  | put _ _ => True

/-- No operation of any `persist_applies` of the calls fails. -/
def AllPersist : ChaseStorage → List StoreCall → Prop
  | _, [] => True
  | d, call :: calls => call.Persists d ∧ AllPersist (call.run d) calls

/-- The call on the tables that is made when nothing of a `persist_applies` fails. -/
def step : StoreCall → TableStep
  | apply values _ => { applies := values }
  | put entries outcome => { puts := (outcome.entries entries).map fun e => (decodeKey e.1, e.2) }

/-- A call that persists is its step on the tables. -/
theorem run_eq_step {call : StoreCall} {d : ChaseStorage} (h : call.Persists d) :
    call.run d = call.step.run d := by
  cases call with
  | apply values failsAfter =>
    cases failsAfter with
    | none => rfl
    | some made => exact ChaseStorage.persistUntil_eq (h made rfl)
  | put entries outcome => exact RocksDbStateStore.putBatch_eq d _

end StoreCall

/-- `handle_consensus_output` by its calls of the store: those that the execution of the batches
makes, and then the write of the executed index. -/
def handleConsensusOutput (d : ChaseStorage) (subDagIndex : Nat) (calls : List StoreCall)
    (indexWritten : Bool) : ChaseStorage :=
  let d := calls.foldl StoreCall.run d
  if indexWritten then d.setLastExecutedSubDagIndex subDagIndex else d

/-- The tables hold what all effects of the calls leave. -/
def Durable (d : ChaseStorage) (calls : List StoreCall) (d' : ChaseStorage) : Prop :=
  (∀ a, d'.accounts.get a =
      (d.persistApplies (calls.flatMap StoreCall.effects)).accounts.get a) ∧
    ∀ slot, d'.storageSlots.get slot =
      (d.persistApplies (calls.flatMap StoreCall.effects)).storageSlots.get slot

/-- Calls that persist are their steps on the tables. -/
theorem foldl_run_eq_step {calls : List StoreCall} {d : ChaseStorage}
    (h : StoreCall.AllPersist d calls) :
    calls.foldl StoreCall.run d = (calls.map StoreCall.step).foldl TableStep.run d := by
  induction calls generalizing d with
  | nil => rfl
  | cons call calls ih =>
    rw [List.foldl_cons, List.map_cons, List.foldl_cons, ih h.2, StoreCall.run_eq_step h.1]

/-- The steps of calls persist their effects. -/
theorem persisted_step (calls : List StoreCall) :
    persisted (calls.map StoreCall.step) = calls.flatMap StoreCall.effects := by
  induction calls with
  | nil => rfl
  | cons call calls ih =>
    cases call with
    | apply values failsAfter => exact congrArg (values ++ ·) ih
    | put entries outcome => exact ih

/-- When no write of `persist_applies` fails, the effects are in the tables exactly when the puts
keep them. -/
theorem durable_iff {calls : List StoreCall} {d : ChaseStorage}
    (h : StoreCall.AllPersist d calls) :
    Durable d calls (calls.foldl StoreCall.run d) ↔
      ∀ slot, PutsKeep d.accounts (d.storageSlots.get slot) (calls.map StoreCall.step) slot := by
  obtain ⟨haccounts, -, hget⟩ := run_spec (calls.map StoreCall.step) d
  obtain ⟨haccounts', -, hget'⟩ := d.persistApplies_spec (calls.flatMap StoreCall.effects)
  rw [persisted_step] at haccounts
  rw [Durable, foldl_run_eq_step h, haccounts, haccounts']
  constructor
  · intro hdurable slot
    rw [← agrees_iff, ← hget, persisted_step, ← hget']
    exact hdurable.2 slot
  · intro hkeep
    refine ⟨fun a => rfl, fun slot => ?_⟩
    rw [hget, hget', ← persisted_step]
    exact (agrees_iff _ _ _ _).2 (hkeep slot)

/-- **The executed index is not ahead of the durable state** when no write of `persist_applies`
fails, exactly when the puts of the commits and of the flush, so far as they are made, keep what the
effects have left. -/
theorem executedIndex_durable_iff (d : ChaseStorage) (subDagIndex : Nat) {calls : List StoreCall}
    (h : StoreCall.AllPersist d calls) (indexWritten : Bool) :
    ((handleConsensusOutput d subDagIndex calls indexWritten).executionIndex = some subDagIndex →
        Durable d calls (handleConsensusOutput d subDagIndex calls indexWritten)) ↔
      (indexWritten = true ∨ d.executionIndex = some subDagIndex →
        ∀ slot, PutsKeep d.accounts (d.storageSlots.get slot) (calls.map StoreCall.step) slot) := by
  have hindex : (calls.foldl StoreCall.run d).executionIndex = d.executionIndex := by
    rw [foldl_run_eq_step h]
    exact (run_spec _ d).2.1
  cases indexWritten with
  | true =>
    have hwritten : (handleConsensusOutput d subDagIndex calls true).executionIndex =
        some subDagIndex := rfl
    rw [← durable_iff h]
    exact ⟨fun himp _ => himp hwritten, fun himp _ => himp (.inl rfl)⟩
  | false =>
    have hunwritten : (handleConsensusOutput d subDagIndex calls false).executionIndex =
        d.executionIndex := hindex
    rw [← durable_iff h, hunwritten]
    exact ⟨fun himp hor => himp (hor.resolve_left Bool.false_ne_true),
      fun himp heq => himp (.inr heq)⟩

namespace FailuresFixture

open RestartFixture

/-- The effect of an increment is persisted, and then committed. -/
def persistThenCommit : List StoreCall :=
  [.apply (effect 1) none, .put [(encodeKey (1, 5), 1)] .stored]

/-- A call that persists and commits leaves its index and its slot. -/
theorem executedIndex_durable_persistThenCommit :
    (handleConsensusOutput {} 1 persistThenCommit true).executionIndex = some 1 ∧
      (handleConsensusOutput {} 1 persistThenCommit true).storageSlots.get (1, 5) = some 1 := by
  have hpersists : StoreCall.AllPersist {} persistThenCommit :=
    ⟨fun made hmade => (nomatch hmade), trivial, trivial⟩
  refine ⟨rfl, ((executedIndex_durable_iff {} 1 hpersists true).2 (fun _ slot => ?_) rfl).2 (1, 5)⟩
  intro pre step post v hsteps hv hpost
  rcases pre with _ | ⟨s₁, _ | ⟨s₂, pre⟩⟩
  · cases hsteps
    cases hv
  · cases hsteps
    have hdecode : decodeKey (encodeKey (1, 5)) = (1, 5) := decodeKey_encodeKey (by decide)
    have hmem : (slot, v) = (decodeKey (encodeKey (1, 5)), 1) :=
      List.mem_singleton.1 (mem_of_lastWrite hv)
    rw [hdecode] at hmem
    cases hmem
    decide
  · have hlength := congrArg List.length hsteps
    simp [persistThenCommit] at hlength

/-- The first write for the effect of the sub-dag fails: nothing of the effect is in the store, and
the executed index is set. -/
theorem executedIndex_ahead :
    @Handles codec memoryApply RestartFixture.simulateTx 1 1 State.empty (incrementOutput 1)
        [effect 1] ∧
      (handleConsensusOutput {} 1 [.apply (effect 1) (some 0)] true).executionIndex = some 1 ∧
      (handleConsensusOutput {} 1 [.apply (effect 1) (some 0)] true).storageSlots.get (1, 5) =
        none ∧
      (ChaseStorage.persistApplies {} (effect 1)).storageSlots.get (1, 5) = some 1 :=
  ⟨(handles_increment rfl (.inl rfl)).2 rfl, rfl, rfl, by decide⟩

end FailuresFixture

end Chase.Stack
