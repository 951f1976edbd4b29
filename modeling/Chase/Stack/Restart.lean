import Chase.Core.Execute
import Chase.Stack.Adapter
import Chase.Stack.Storage
import Mathlib.Logic.Relation

/-!
# Restarts of a node

A node handles the committed sub-dags one after the other: it executes the batches of a sub-dag over
the memory backend, which writes every effect through to the store, and then sets the executed index
(`Node.Step`, with every store write a step of its own). It may stop after any step; when it starts
again (`Node.Restart`) it loads the memory from the store and is handed the committed sub-dags from
the executed index on, that index included.

`exactlyOnce` says when the restarts do not show: every state of the run is the state of a run
without restarts.
-/

namespace Chase.Stack

open Reading Relation

/-- The sub-dags of the two tables of the consensus store. The tables are iterated by index, the
second one starts above the first, and the first index is `1`. -/
structure ConsensusStore where
  committedSubDagsByIndex : List ConsensusOutput
  committedSubDagsByIndexV2 : List ConsensusOutput
  sorted : (committedSubDagsByIndex ++ committedSubDagsByIndexV2).Pairwise fun a b =>
    a.subDagIndex < b.subDagIndex
  pos : ∀ output ∈ committedSubDagsByIndex ++ committedSubDagsByIndexV2, 0 < output.subDagIndex

/-- `read_committed_sub_dags_from`, and with it `get_restored_consensus_output`. -/
def ConsensusStore.readCommittedSubDagsFrom (store : ConsensusStore) (index : Nat) :
    List ConsensusOutput :=
  store.committedSubDagsByIndex.filter (index ≤ ·.subDagIndex) ++
    store.committedSubDagsByIndexV2.filter (index ≤ ·.subDagIndex)

/-! ## The sub-dags that are handed out -/

namespace ConsensusStore

variable (store : ConsensusStore)

/-- The committed sub-dags above an index. -/
def above (index : Nat) : List ConsensusOutput :=
  (store.committedSubDagsByIndex ++ store.committedSubDagsByIndexV2).filter (index < ·.subDagIndex)

/-- The committed sub-dags from an index on, of both tables. -/
theorem readCommittedSubDagsFrom_eq (index : Nat) :
    store.readCommittedSubDagsFrom index =
      (store.committedSubDagsByIndex ++ store.committedSubDagsByIndexV2).filter
        (index ≤ ·.subDagIndex) := (List.filter_append _ _).symm

/-- Before the first sub-dag is executed, all of them are handed out. -/
theorem readCommittedSubDagsFrom_zero : store.readCommittedSubDagsFrom 0 = store.above 0 := by
  rw [readCommittedSubDagsFrom_eq, above]
  refine List.filter_congr fun output houtput => ?_
  simp [store.pos output houtput]

/-- Of outputs with increasing indices, the inclusive filter has at most one more. -/
theorem filter_sorted {l : List ConsensusOutput}
    (hsorted : l.Pairwise fun a b => a.subDagIndex < b.subDagIndex) (index : Nat) :
    l.filter (index ≤ ·.subDagIndex) = l.filter (index < ·.subDagIndex) ∨
      ∃ output ∈ l, output.subDagIndex = index ∧
        l.filter (index ≤ ·.subDagIndex) = output :: l.filter (index < ·.subDagIndex) := by
  induction l with
  | nil => exact .inl rfl
  | cons a l ih =>
    obtain ⟨ha, hl⟩ := List.pairwise_cons.1 hsorted
    rcases Nat.lt_trichotomy index a.subDagIndex with hlt | rfl | hgt
    · have hall : ∀ p : ConsensusOutput → Bool, (∀ b, index < b.subDagIndex → p b = true) →
          (a :: l).filter p = a :: l := fun p hp => List.filter_eq_self.2 fun b hb => by
        rcases List.mem_cons.1 hb with rfl | hb
        · exact hp _ hlt
        · exact hp _ (Nat.lt_trans hlt (ha b hb))
      left
      rw [hall _ fun b hb => decide_eq_true (Nat.le_of_lt hb), hall _ fun b hb => decide_eq_true hb]
    · refine .inr ⟨a, List.mem_cons_self, rfl, ?_⟩
      have hrest : ∀ b ∈ l, a.subDagIndex ≤ b.subDagIndex := fun b hb => Nat.le_of_lt (ha b hb)
      rw [List.filter_cons_of_pos (by simp), List.filter_cons_of_neg (by simp)]
      refine congrArg _ (List.filter_congr fun b hb => ?_)
      simp [hrest b hb, ha b hb]
    · rw [List.filter_cons_of_neg (by simpa using hgt),
        List.filter_cons_of_neg (by simpa using Nat.le_of_lt hgt)]
      refine (ih hl).imp_right ?_
      rintro ⟨output, houtput, h⟩
      exact ⟨output, List.mem_cons_of_mem _ houtput, h⟩

/-- From an index on, the sub-dag of the index comes first, if there is one. -/
theorem readCommittedSubDagsFrom_cases (index : Nat) :
    store.readCommittedSubDagsFrom index = store.above index ∨
      ∃ output ∈ store.committedSubDagsByIndex ++ store.committedSubDagsByIndexV2,
        output.subDagIndex = index ∧
          store.readCommittedSubDagsFrom index = output :: store.above index := by
  rw [readCommittedSubDagsFrom_eq]
  exact filter_sorted store.sorted index

/-- Above the first of them, the sub-dags above an index are the others. -/
theorem above_of_eq_cons {index : Nat} {output : ConsensusOutput} {queue : List ConsensusOutput}
    (h : store.above index = output :: queue) : queue = store.above output.subDagIndex := by
  have hsorted : (store.above index).Pairwise fun a b => a.subDagIndex < b.subDagIndex :=
    store.sorted.filter _
  rw [h] at hsorted
  obtain ⟨hlt, -⟩ := List.pairwise_cons.1 hsorted
  have houtput : index < output.subDagIndex := by
    have hmem : output ∈ store.above index := h ▸ List.mem_cons_self
    simpa using (List.mem_filter.1 hmem).2
  have hfilter : store.above output.subDagIndex =
      (store.above index).filter (output.subDagIndex < ·.subDagIndex) := by
    rw [above, above, List.filter_filter]
    refine List.filter_congr fun b _ => ?_
    have : output.subDagIndex < b.subDagIndex → index < b.subDagIndex := Nat.lt_trans houtput
    simpa using this
  rw [hfilter, h, List.filter_cons_of_neg (by simp)]
  refine (List.filter_eq_self.2 fun b hb => ?_).symm
  simpa using hlt b hb

end ConsensusStore

/-! ## Steps of a node -/

/-- What is left of the handling of a sub-dag: the calls of `apply`, the effects of the last call
that are not persisted, and the store writes for the last effect. -/
structure Handling where
  subDagIndex : Nat
  applies : List (List Apply)
  effects : List Apply := []
  ops : List DbOp := []

/-- The state of a node. -/
structure Node where
  storage : ChaseStorage
  memory : State
  queue : List ConsensusOutput
  handling : Option Handling := none
  /-- The storage and the memory when the node last had no sub-dag in hand, a history variable. -/
  atRest : ChaseStorage × State

/-- A node that starts over a storage. -/
def Node.start (store : ConsensusStore) (storage : ChaseStorage) : Node where
  storage
  memory := storage.hydrate
  queue := store.readCommittedSubDagsFrom storage.lastExecutedSubDagIndex
  atRest := (storage, storage.hydrate)

section

variable [TransactionCodec] (memoryApply : State → List Apply → State)
  (simulateTx : EthereumTransaction → State → Outcome) (ncpu concurrencyLevel : Nat)

/-- What `_execute` sees: the memory backend, with the calls of `apply` in the order in which they
are made. -/
def memoryWorld : World Unit State (State × List (List Apply)) :=
  .isolated (fun s _ => s.1) fun s values => (memoryApply s.1 values, s.2 ++ [values])

/-- `prepare_execution`: the batches are executed in groups of the concurrency level. -/
inductive PrepareExecution :
    List (List EthereumTransaction) → State × List (List Apply) → State × List (List Apply) → Prop
  | done (s : State × List (List Apply)) : PrepareExecution [] s s
  | group {target : List (List EthereumTransaction)} {s s' s'' : State × List (List Apply)} :
    target ≠ [] →
    (memoryWorld memoryApply).Execute (fun tx => .read () fun s => .ret (simulateTx tx s)) ncpu
      (target.take concurrencyLevel) s s' →
    PrepareExecution (target.drop concurrencyLevel) s' s'' → PrepareExecution target s s''

/-- The calls of `apply` that the execution of a sub-dag makes on a memory. A sub-dag whose bytes
are not decoded is not executed. -/
def Handles (memory : State) (output : ConsensusOutput) (applies : List (List Apply)) : Prop :=
  ∃ batches memory', consensusOutputToExecutableBatches output = some batches ∧
    PrepareExecution memoryApply simulateTx ncpu concurrencyLevel (batches.map (·.data))
      (memory, []) (memory', applies)

/-- A step of `handle_consensus_output`. -/
inductive Node.Step : Node → Node → Prop
  | handle {s : Node} {output : ConsensusOutput} {queue : List ConsensusOutput}
    {applies : List (List Apply)} : s.handling = none → s.queue = output :: queue →
    Handles memoryApply simulateTx ncpu concurrencyLevel s.memory output applies →
    Step s { s with queue, handling := some ⟨output.subDagIndex, applies, [], []⟩ }
  | apply {s : Node} {index : Nat} {values : List Apply} {applies : List (List Apply)} :
    s.handling = some ⟨index, values :: applies, [], []⟩ →
    Step s
      { s with
        memory := memoryApply s.memory values
        handling := some ⟨index, applies, values, []⟩ }
  | persist {s : Node} {index : Nat} {applies : List (List Apply)} {x : Apply} {xs : List Apply} :
    s.handling = some ⟨index, applies, x :: xs, []⟩ →
    Step s { s with handling := some ⟨index, applies, xs, s.storage.persistOps x⟩ }
  | write {s : Node} {index : Nat} {applies : List (List Apply)} {xs : List Apply} {op : DbOp}
    {ops : List DbOp} : s.handling = some ⟨index, applies, xs, op :: ops⟩ →
    Step s { s with storage := s.storage.exec op, handling := some ⟨index, applies, xs, ops⟩ }
  | executed {s : Node} {index : Nat} : s.handling = some ⟨index, [], [], []⟩ →
    Step s
      { s with
        storage := s.storage.setLastExecutedSubDagIndex index
        handling := none
        atRest := (s.storage.setLastExecutedSubDagIndex index, s.memory) }

/-- The node stops, and starts again over its storage. -/
def Node.Restart (store : ConsensusStore) (s s' : Node) : Prop := s' = .start store s.storage

/-- The condition on a restart: no store write has been made since the node last had no sub-dag in
hand, the storage loads the memory that it had then, and the sub-dag of the executed index, which is
handed out again, has no batches. -/
structure Node.RestartOk (store : ConsensusStore) (s : Node) : Prop where
  unwritten : s.storage = s.atRest.1
  loaded : s.storage.hydrate = s.atRest.2
  replayed : ∀ output ∈ store.committedSubDagsByIndex ++ store.committedSubDagsByIndexV2,
    s.storage.executionIndex = some output.subDagIndex →
      consensusOutputToExecutableBatches output = some []

variable {memoryApply simulateTx ncpu concurrencyLevel}

/-! ## Runs without restarts -/

/-- The node with no sub-dag in hand that the history variable remembers. -/
def Node.resting (store : ConsensusStore) (s : Node) : Node where
  storage := s.atRest.1
  memory := s.atRest.2
  queue := store.above s.atRest.1.lastExecutedSubDagIndex
  atRest := s.atRest

/-- A run without restarts, from a storage without an executed index. -/
def Node.Runs (memoryApply : State → List Apply → State)
    (simulateTx : EthereumTransaction → State → Outcome) (ncpu concurrencyLevel : Nat)
    (store : ConsensusStore) (storage : ChaseStorage) (s : Node) : Prop :=
  ReflTransGen (Node.Step memoryApply simulateTx ncpu concurrencyLevel) (.start store storage) s

/-- A node that waits for a sub-dag is at rest, and one that handles a sub-dag is to handle the ones
above it. In both cases the node was at rest on the way. -/
structure Node.Tracked (memoryApply : State → List Apply → State)
    (simulateTx : EthereumTransaction → State → Outcome) (ncpu concurrencyLevel : Nat)
    (store : ConsensusStore) (storage : ChaseStorage) (s : Node) : Prop where
  runs : s.Runs memoryApply simulateTx ncpu concurrencyLevel store storage
  rested : (s.resting store).Runs memoryApply simulateTx ncpu concurrencyLevel store storage
  waiting : s.handling = none → s = s.resting store
  handling : ∀ h, s.handling = some h → s.queue = store.above h.subDagIndex

variable {store : ConsensusStore} {storage : ChaseStorage} {s s' : Node}

/-- A node that starts is tracked. -/
theorem Node.tracked_start (h : storage.executionIndex = none) :
    (Node.start store storage).Tracked memoryApply simulateTx ncpu concurrencyLevel store
      storage := by
  have hrest : Node.start store storage = (Node.start store storage).resting store := by
    rw [start, resting]
    simp only [ChaseStorage.lastExecutedSubDagIndex, h, Option.getD_none,
      store.readCommittedSubDagsFrom_zero]
  refine ⟨.refl, ?_, fun _ => hrest, fun _ hnone => (nomatch hnone)⟩
  rw [← hrest]
  exact .refl

/-- A step keeps track. -/
theorem Node.Tracked.step
    (h : s.Tracked memoryApply simulateTx ncpu concurrencyLevel store storage)
    (hstep : s.Step memoryApply simulateTx ncpu concurrencyLevel s') :
    s'.Tracked memoryApply simulateTx ncpu concurrencyLevel store storage := by
  have hruns := h.runs.tail hstep
  cases hstep with
  | handle hnone hqueue _ =>
    refine ⟨hruns, h.rested, fun hsome => (nomatch hsome), ?_⟩
    rintro _ ⟨⟩
    have hwait := h.waiting hnone
    rw [hwait] at hqueue
    exact store.above_of_eq_cons hqueue
  | apply hsome | persist hsome | write hsome =>
    have hqueue := h.handling _ hsome
    refine ⟨hruns, h.rested, fun hnone => (nomatch hnone), ?_⟩
    rintro _ ⟨⟩
    exact hqueue
  | @executed index hsome =>
    have hqueue := h.handling _ hsome
    have hrest : { s with
        storage := s.storage.setLastExecutedSubDagIndex index
        handling := none
        atRest := (s.storage.setLastExecutedSubDagIndex index, s.memory) } =
      Node.resting store { s with
        storage := s.storage.setLastExecutedSubDagIndex index
        handling := none
        atRest := (s.storage.setLastExecutedSubDagIndex index, s.memory) } := by
      rw [resting]
      simp only [hqueue]
      rfl
    refine ⟨hruns, ?_, fun _ => hrest, fun _ hnone => (nomatch hnone)⟩
    rw [← hrest]
    exact hruns

/-! ## Runs with restarts -/

/-- A step of a run with restarts, where a restart meets its condition. -/
def Node.StepOrRestart (memoryApply : State → List Apply → State)
    (simulateTx : EthereumTransaction → State → Outcome) (ncpu concurrencyLevel : Nat)
    (store : ConsensusStore) (s s' : Node) : Prop :=
  s.Step memoryApply simulateTx ncpu concurrencyLevel s' ∨
    s.RestartOk store ∧ s.Restart store s'

/-- A node without a sub-dag in hand that is handed no further one. -/
def Node.Done (s : Node) : Prop := s.handling = none ∧ s.queue = []

/-- How a run with restarts is ahead of a run without: not at all, or by a sub-dag without batches
that is handed out again, or by the handling of such a sub-dag. -/
inductive Node.Replays (s₀ : Node) : Node → Prop
  | same : Replays s₀ s₀
  | queued {output : ConsensusOutput} : s₀.handling = none →
    s₀.storage.executionIndex = some output.subDagIndex →
    consensusOutputToExecutableBatches output = some [] →
    Replays s₀ { s₀ with queue := output :: s₀.queue }
  | handled {index : Nat} : s₀.handling = none → s₀.storage.executionIndex = some index →
    Replays s₀ { s₀ with handling := some ⟨index, [], [], []⟩ }

/-- A sub-dag without batches has no effects. -/
theorem Handles.eq_nil {memory : State} {output : ConsensusOutput} {applies : List (List Apply)}
    (h : Handles memoryApply simulateTx ncpu concurrencyLevel memory output applies)
    (hbatches : consensusOutputToExecutableBatches output = some []) : applies = [] := by
  obtain ⟨batches, memory', hdecoded, h⟩ := h
  cases hbatches.symm.trans hdecoded
  cases h with
  | done => rfl
  | group hne => exact absurd rfl hne

/-- Replays of a run without restarts are replays of one after a step. -/
theorem Node.Replays.step {s₀ : Node} (h : s₀.Replays s)
    (ht : s₀.Tracked memoryApply simulateTx ncpu concurrencyLevel store storage)
    (hstep : s.Step memoryApply simulateTx ncpu concurrencyLevel s') :
    ∃ s₁ : Node, s₁.Tracked memoryApply simulateTx ncpu concurrencyLevel store storage ∧
      s₁.Replays s' := by
  cases h with
  | same => exact ⟨s', ht.step hstep, .same⟩
  | queued hnone hindex hbatches =>
    cases hstep with
    | handle _ hqueue hhandles =>
      cases hqueue
      obtain rfl := hhandles.eq_nil hbatches
      exact ⟨s₀, ht, .handled hnone hindex⟩
    | apply hsome => cases hnone.symm.trans hsome
    | persist hsome => cases hnone.symm.trans hsome
    | write hsome => cases hnone.symm.trans hsome
    | executed hsome => cases hnone.symm.trans hsome
  | @handled index hnone hindex =>
    cases hstep with
    | handle hnone' => cases hnone'
    | apply hsome => cases hsome
    | persist hsome => cases hsome
    | write hsome => cases hsome
    | executed hsome =>
      cases hsome
      have hstorage : s₀.storage.setLastExecutedSubDagIndex index = s₀.storage := by
        rw [ChaseStorage.setLastExecutedSubDagIndex, ← hindex]
      have hrest : (s₀.storage, s₀.memory) = s₀.atRest := by
        rw [ht.waiting hnone]
        rfl
      refine ⟨s₀, ht, ?_⟩
      have hsame : { s₀ with
          storage := s₀.storage.setLastExecutedSubDagIndex index
          handling := none
          atRest := (s₀.storage.setLastExecutedSubDagIndex index, s₀.memory) } = s₀ := by
        rw [hstorage, hrest, ← hnone]
      exact cast (congrArg s₀.Replays hsame.symm) .same

/-- A node at rest is tracked. -/
theorem Node.Tracked.resting
    (h : s.Tracked memoryApply simulateTx ncpu concurrencyLevel store storage) :
    (s.resting store).Tracked memoryApply simulateTx ncpu concurrencyLevel store storage :=
  ⟨h.rested, h.rested, fun _ => rfl, fun _ hnone => (nomatch hnone)⟩

/-- After a restart that meets the condition, the node replays its last rest. -/
theorem Node.Replays.restart {s₀ : Node} (h : s₀.Replays s) (hok : s.RestartOk store)
    (hrestart : s.Restart store s') : (s₀.resting store).Replays s' := by
  have hstorage : s.storage = s₀.atRest.1 := by
    rw [hok.unwritten]
    cases h <;> rfl
  have hmemory : s.storage.hydrate = s₀.atRest.2 := by
    rw [hok.loaded]
    cases h <;> rfl
  have hreplayed := hok.replayed
  rw [hrestart, Node.start, hmemory, hstorage]
  rw [hstorage] at hreplayed
  cases hindex : s₀.atRest.1.executionIndex with
  | none =>
    rw [ChaseStorage.lastExecutedSubDagIndex, hindex, Option.getD_none,
      store.readCommittedSubDagsFrom_zero]
    have hrest : Node.resting store s₀ =
        { storage := s₀.atRest.1, memory := s₀.atRest.2, queue := store.above 0,
          atRest := (s₀.atRest.1, s₀.atRest.2) } := by
      rw [Node.resting, ChaseStorage.lastExecutedSubDagIndex, hindex, Option.getD_none]
    rw [← hrest]
    exact .same
  | some index =>
    rcases store.readCommittedSubDagsFrom_cases s₀.atRest.1.lastExecutedSubDagIndex with
      heq | ⟨output, houtput, hlast, heq⟩
    · rw [heq]
      exact .same
    · rw [heq]
      have hindex' : s₀.atRest.1.executionIndex = some output.subDagIndex := by
        rw [hlast, ChaseStorage.lastExecutedSubDagIndex, hindex, Option.getD_some]
      exact @Node.Replays.queued _ (s₀.resting store) output rfl hindex'
        (hreplayed output houtput hindex')

/-- Every run with restarts replays a run without. -/
theorem Node.exists_replays (hfresh : storage.executionIndex = none)
    (h : ReflTransGen (Node.StepOrRestart memoryApply simulateTx ncpu concurrencyLevel store)
      (.start store storage) s) :
    ∃ s₀ : Node, s₀.Tracked memoryApply simulateTx ncpu concurrencyLevel store storage ∧
      s₀.Replays s := by
  induction h with
  | refl => exact ⟨_, Node.tracked_start hfresh, .same⟩
  | tail _ hstep ih =>
    obtain ⟨s₀, htracked, hreplays⟩ := ih
    rcases hstep with hstep | ⟨hok, hrestart⟩
    · exact hreplays.step htracked hstep
    · exact ⟨_, htracked.resting, hreplays.restart hok hrestart⟩

end

/-- **Exactly once**: when every restart of a run meets its condition, the persisted state after the
run is the one after a run without restarts, which has handled all sub-dags if the run has. -/
theorem exactlyOnce [TransactionCodec] (memoryApply : State → List Apply → State)
    (simulateTx : EthereumTransaction → State → Outcome) (ncpu concurrencyLevel : Nat)
    (store : ConsensusStore) (storage : ChaseStorage) (hfresh : storage.executionIndex = none)
    (s : Node)
    (h : ReflTransGen (Node.StepOrRestart memoryApply simulateTx ncpu concurrencyLevel store)
      (.start store storage) s) :
    ∃ s₀ : Node, s₀.Runs memoryApply simulateTx ncpu concurrencyLevel store storage ∧
      s₀.storage = s.storage ∧ (s.Done → s₀.Done) := by
  obtain ⟨s₀, htracked, hreplays⟩ := Node.exists_replays hfresh h
  refine ⟨s₀, htracked.runs, ?_⟩
  cases hreplays with
  | same => exact ⟨rfl, id⟩
  | queued => exact ⟨rfl, fun hdone => (nomatch hdone.2)⟩
  | handled => exact ⟨rfl, fun hdone => (nomatch hdone.1)⟩

namespace RestartFixture

/-- A call that increments the slot `5` of the contract `1`. -/
def incrementTx : EthereumTransaction := .ofCall 3 1 0 [] 50000 0

/-- The effect of a call that leaves `v` in the slot. -/
def effect (v : H256) : List Apply := [.modify 1 ⟨0, 1⟩ none [(5, v)] false]

/-- The outcome of an increment that reads `v`. -/
def increment (v : H256) : Outcome :=
  .ok (some ⟨effect (v + 1), [], ⟨[(1, [(5, v)])], [(1, [(5, v + 1)])]⟩⟩)

/-- Every transaction is an increment. -/
def simulateTx (_ : EthereumTransaction) (s : State) : Outcome := increment (s.storage 1 5)

/-- The memory backend of the node, which does not delete empty accounts. -/
def memoryApply (s : State) (values : List Apply) : State := CMemoryBackend.apply s values false

/-- Every byte string is the JSON of an increment. -/
local instance codec : TransactionCodec where
  fromSlice _ := .ok incrementTx
  Signature := Unit
  decodeSigned _ := .error "decoder"
  verify _ _ := .ok ()

/-- A sub-dag with one increment. -/
def incrementOutput (index : Nat) : ConsensusOutput := ⟨index, [[⟨[[]], 0⟩]]⟩

/-- The schedule of the increment: one chain. -/
theorem schedule_increment {v : H256} (h : v = 0 ∨ v = 1) :
    parSchedule 1 (simulated (unpackBatches [[incrementTx]]) [increment v]) =
      some (.ok ⟨[[⟨0, effect (v + 1)⟩]], [], []⟩) := by
  rcases h with rfl | rfl
  · decide
  · decide

/-- The increment makes one call of `apply`, with the incremented value. -/
theorem handles_increment {memory : State} {index : Nat} {applies : List (List Apply)} {v : H256}
    (hread : memory.storage 1 5 = v) (hv : v = 0 ∨ v = 1) :
    Handles memoryApply simulateTx 1 1 memory (incrementOutput index) applies ↔
      applies = [effect (v + 1)] := by
  subst hread
  have hexec : ∀ s', (memoryWorld memoryApply).Execute
      (fun tx => .read () fun s => .ret (simulateTx tx s)) 1 [[incrementTx]] (memory, []) s' ↔
        s' = (memoryApply memory (effect (memory.storage 1 5 + 1)),
          [effect (memory.storage 1 5 + 1)]) := by
    intro s'
    refine Iff.trans (World.isolated_execute_chain (by exact schedule_increment hv)) ?_
    constructor
    · rintro ⟨_, ⟨⟩, hruns⟩
      exact World.isolated_runs_nil.1 hruns
    · exact fun h => ⟨[], .nil, World.isolated_runs_nil.2 h⟩
  constructor
  · rintro ⟨batches, memory', hbatches, h⟩
    cases hbatches
    obtain _ | ⟨-, hgroup, hrest⟩ := h
    cases (hexec _).1 hgroup
    cases hrest with
    | done => rfl
    | group hne => exact absurd rfl hne
  · rintro rfl
    exact ⟨_, _, rfl, .group (nofun) ((hexec _).2 rfl) (.done _)⟩

/-- The account that the increment leaves. -/
def contract (storage : ChaseStorage) : StoredAccount :=
  { nonce := 1, code := ((storage.accounts.get 1).getD {}).code }

/-- The store writes for the increment to `v`. -/
theorem persistOps_effect (storage : ChaseStorage) {v : H256} (hv : v ≠ 0#256) :
    storage.persistOps (.modify 1 ⟨0, 1⟩ none [(5, v)] false) =
      [.insertSlot (1, 5) v, .insertAccount 1 (contract storage)] := by
  have hslot : ChaseStorage.slotOp 1 (5, v) = .insertSlot (1, 5) v := if_neg hv
  rw [ChaseStorage.persistOps]
  simp only [Option.getD_none, List.map_cons, List.map_nil, hslot]
  exact if_neg fun h => absurd h.2.1 (by decide)

/-- The storage after the increment to `v` of a sub-dag. -/
def incremented (index : Nat) (storage : ChaseStorage) (v : H256) : ChaseStorage :=
  ((storage.exec (.insertSlot (1, 5) v)).exec
    (.insertAccount 1 (contract storage))).setLastExecutedSubDagIndex index

/-- A node that handles the increment. -/
theorem steps_increment {s : Node} {v : H256} {index : Nat} (hread : s.memory.storage 1 5 = v)
    (hv : v = 0 ∨ v = 1) (hnone : s.handling = none) (hqueue : s.queue = [incrementOutput index]) :
    ReflTransGen (Node.Step memoryApply simulateTx 1 1) s
      { storage := incremented index s.storage (v + 1)
        memory := memoryApply s.memory (effect (v + 1))
        queue := []
        atRest :=
          (incremented index s.storage (v + 1), memoryApply s.memory (effect (v + 1))) } := by
  have hne : v + 1 ≠ 0#256 := by
    rcases hv with rfl | rfl
    · decide
    · decide
  refine .head (.handle hnone hqueue ((handles_increment hread hv).2 rfl))
    (.head (.apply rfl) (.head (.persist rfl) ?_))
  rw [persistOps_effect _ hne]
  exact .head (.write rfl) (.head (.write rfl) (.head (.executed rfl) .refl))

/-- The two sub-dags of the first run, of which the first has no batches. -/
def emptyFirst : ConsensusStore where
  committedSubDagsByIndex := []
  committedSubDagsByIndexV2 := [⟨1, []⟩, incrementOutput 2]
  sorted := by decide
  pos := by decide

/-- An output without transactions before the increment: after a restart the increment is applied
once. -/
theorem exactlyOnce_emptyFirst :
    ∃ s s₀ : Node, ReflTransGen (Node.StepOrRestart memoryApply simulateTx 1 1 emptyFirst)
        (.start emptyFirst {}) s ∧ s.Done ∧ s.storage.executionIndex = some 2 ∧
      s.storage.storageSlots.get (1, 5) = some 1 ∧
      s₀.Runs memoryApply simulateTx 1 1 emptyFirst {} ∧ s₀.storage = s.storage ∧ s₀.Done := by
  -- the node stops when it has executed the second sub-dag and not yet written its effects
  have hstop : ReflTransGen (Node.StepOrRestart memoryApply simulateTx 1 1 emptyFirst)
      (.start emptyFirst {}) (.start emptyFirst { executionIndex := some 1 }) := by
    refine .head (.inl (.handle rfl rfl ⟨_, _, rfl, .done _⟩)) (.head (.inl (.executed rfl)) (.head
      (.inl (.handle rfl rfl ((handles_increment rfl (.inl rfl)).2 rfl)))
        (.single (.inr ⟨⟨rfl, rfl, ?_⟩, rfl⟩))))
    intro output houtput hindex
    rcases List.mem_cons.1 houtput with rfl | houtput
    · rfl
    · cases List.mem_singleton.1 houtput
      cases hindex
  -- the sub-dag without batches is handed out again, and then the increment is made
  have hempty : ReflTransGen (Node.Step memoryApply simulateTx 1 1)
      (.start emptyFirst { executionIndex := some 1 })
      { Node.start emptyFirst { executionIndex := some 1 } with queue := [incrementOutput 2] } :=
    .head (.handle rfl rfl ⟨_, _, rfl, .done _⟩) (.head (.executed rfl) .refl)
  have hend := hempty.trans (steps_increment rfl (.inl rfl) rfl rfl)
  have hsteps : ∀ s s', ReflTransGen (Node.Step memoryApply simulateTx 1 1) s s' →
      ReflTransGen (Node.StepOrRestart memoryApply simulateTx 1 1 emptyFirst) s s' :=
    ReflTransGen.mono fun _ _ => Or.inl
  have hrun := hstop.trans (hsteps _ _ hend)
  obtain ⟨s₀, hruns, hstorage, hdone⟩ :=
    exactlyOnce memoryApply simulateTx 1 1 emptyFirst {} rfl _ hrun
  exact ⟨_, s₀, hrun, ⟨rfl, rfl⟩, rfl, rfl, hruns, hstorage, hdone ⟨rfl, rfl⟩⟩

/-- The committed sub-dags of the failing run. -/
def increments : ConsensusStore where
  committedSubDagsByIndex := []
  committedSubDagsByIndexV2 := [incrementOutput 1]
  sorted := by decide
  pos := by decide

/-- What holds without restarts: the only value that is written to the slot is `1`. -/
structure Once (s : Node) : Prop where
  slot : s.storage.storageSlots.get (1, 5) = none ∨ s.storage.storageSlots.get (1, 5) = some 1
  queue : s.handling = none → s.queue ≠ [] → s = .start increments {}
  handling : ∀ h, s.handling = some h → s.queue = [] ∧
    (∀ values ∈ h.applies, values = effect 1) ∧ (∀ x ∈ h.effects, x ∈ effect 1) ∧
    ∀ op ∈ h.ops, op = .insertSlot (1, 5) 1 ∨ ∃ account, op = .insertAccount 1 account

/-- A step applies the increment at most once. -/
theorem Once.step {s s' : Node} (h : Once s) (hstep : s.Step memoryApply simulateTx 1 1 s') :
    Once s' := by
  cases hstep with
  | handle hnone hqueue hhandles =>
    obtain rfl := h.queue hnone (by rw [hqueue]; nofun)
    cases hqueue
    rw [handles_increment rfl (.inl rfl)] at hhandles
    refine ⟨h.slot, fun hsome => (nomatch hsome), ?_⟩
    rintro _ ⟨⟩
    subst hhandles
    exact ⟨rfl, fun values hvalues => List.mem_singleton.1 hvalues, nofun, nofun⟩
  | apply hsome =>
    obtain ⟨hqueue, happlies, -, -⟩ := h.handling _ hsome
    refine ⟨h.slot, fun hnone => (nomatch hnone), ?_⟩
    rintro _ ⟨⟩
    refine ⟨hqueue, fun values hvalues => happlies values (List.mem_cons_of_mem _ hvalues), ?_,
      nofun⟩
    rw [happlies _ List.mem_cons_self]
    exact fun x hx => hx
  | persist hsome =>
    obtain ⟨hqueue, happlies, heffects, -⟩ := h.handling _ hsome
    refine ⟨h.slot, fun hnone => (nomatch hnone), ?_⟩
    rintro _ ⟨⟩
    refine ⟨hqueue, happlies, fun x hx => heffects x (List.mem_cons_of_mem _ hx), fun op hop => ?_⟩
    have hops := persistOps_effect s.storage (v := 1) (by decide)
    rw [List.mem_singleton.1 (heffects _ List.mem_cons_self), hops] at hop
    rcases List.mem_cons.1 hop with hop | hop
    · exact .inl hop
    · exact .inr ⟨_, List.mem_singleton.1 hop⟩
  | write hsome =>
    obtain ⟨hqueue, happlies, heffects, hops⟩ := h.handling _ hsome
    refine ⟨?_, fun hnone => (nomatch hnone), ?_⟩
    · rcases hops _ List.mem_cons_self with rfl | ⟨account, rfl⟩
      · exact .inr rfl
      · exact h.slot
    · rintro _ ⟨⟩
      exact ⟨hqueue, happlies, heffects, fun op hop => hops op (List.mem_cons_of_mem _ hop)⟩
  | executed hsome =>
    obtain ⟨hqueue, -⟩ := h.handling _ hsome
    exact ⟨h.slot, fun _ hne => absurd hqueue hne, fun _ hnone => (nomatch hnone)⟩

/-- A run without a restart applies the increment at most once. -/
theorem Once.of_runs {s : Node} (h : s.Runs memoryApply simulateTx 1 1 increments {}) : Once s := by
  induction h with
  | refl => exact ⟨.inl rfl, fun _ _ => rfl, fun _ hnone => (nomatch hnone)⟩
  | tail _ hstep ih => exact ih.step hstep

/-- The node stops after it has set the executed index and starts again: the sub-dag is handed out
again, and its increment is made a second time. -/
theorem restart_executes_twice :
    ∃ s : Node, ReflTransGen
        (fun s s' => Node.Step memoryApply simulateTx 1 1 s s' ∨ Node.Restart increments s s')
        (.start increments {}) s ∧ s.Done ∧
      s.storage.storageSlots.get (1, 5) = some 2 ∧
      ∀ s₀ : Node, s₀.Runs memoryApply simulateTx 1 1 increments {} →
        s₀.storage.storageSlots.get (1, 5) ≠ some 2 := by
  have hsteps : ∀ s s', ReflTransGen (Node.Step memoryApply simulateTx 1 1) s s' → ReflTransGen
      (fun s s' => Node.Step memoryApply simulateTx 1 1 s s' ∨ Node.Restart increments s s') s s' :=
    ReflTransGen.mono fun _ _ => Or.inl
  have hfirst := steps_increment (s := .start increments {}) (v := 0) rfl (.inl rfl) rfl rfl
  have hsecond := steps_increment (s := .start increments (incremented 1 {} (0 + 1))) (v := 1) rfl
    (.inr rfl) rfl rfl
  have hrun := (hsteps _ _ hfirst).trans (.head (.inr rfl) (hsteps _ _ hsecond))
  refine ⟨_, hrun, ⟨rfl, rfl⟩, rfl, fun s₀ hruns => ?_⟩
  rcases (Once.of_runs hruns).slot with hslot | hslot
  · rw [hslot]
    nofun
  · rw [hslot]
    decide

end RestartFixture

end Chase.Stack
