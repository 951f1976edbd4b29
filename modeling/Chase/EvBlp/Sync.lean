import Chase.EvBlp.Pipeline
import Chase.Cache.Runs
import Chase.Lib.Machine
import Chase.Stack.Adapter

/-!
# The synchronous pipeline

`EvBlpPipeline::process_batches` takes the batches of a call through the three stages in one thread.
It waits for the windows of `Order` and `Exec` in loops that only drain the commit stage, executes
the batch, puts it into `pending_commit` and drains the commit stage; after the last batch it drains
until nothing is pending. `drain_commit_stage` goes through the pending batches once and steps over
those whose commit fails.

The model is a machine with a step for each decision: one test of a window, one execution, one call
of `commit_batch`. `PipelineBatch::new` reads the gas of every transaction of a batch and panics
where there is none, or one that does not fit in 64 bits; the machine then halts. A batch is then
committed out of turn exactly when its commit succeeds in a pass of `drain_commit_stage` in which
the commit of a batch before it has failed (`commits_in_order_iff`).
-/

namespace Chase.EvBlp

open Cache Stack

/-! ## The executor and the state -/

/-- `PipelineBatch`: its weights, its id and its content. -/
structure OrderedBatch extends PipelineBatch where
  batchId : Nat
  batch : ExecutableEthereumBatch

/-- `u64::saturating_add`. -/
def saturatingAdd (a b : UInt64) : UInt64 :=
  if a.toNat + b.toNat < 2 ^ 64 then a + b else UInt64.ofNat (2 ^ 64 - 1)

/-- The weight of `PipelineBatch::new`: the gas limits, added with saturation. There is none when
one of them cannot be read. -/
def gasWeight (batch : ExecutableEthereumBatch) : Option UInt64 :=
  batch.data.foldlM (fun acc tx => tx.checkedGasLimit.map (saturatingAdd acc)) 0

/-- `PipelineBatch::new`; `none` is its panic. -/
def OrderedBatch.new (batchId : Nat) (batch : ExecutableEthereumBatch) : Option OrderedBatch :=
  (gasWeight batch).map fun gas => { gasWeight := gas, deltaBytes := 0, batchId, batch }

/-- The gas of every transaction of a batch can be read. -/
def HasGas (batch : ExecutableEthereumBatch) : Prop := ∀ tx ∈ batch.data, tx.HasGasLimit

/-- A batch has a weight exactly when the gas of all its transactions can be read. -/
theorem gasWeight_isSome_iff (batch : ExecutableEthereumBatch) :
    (gasWeight batch).isSome = true ↔ HasGas batch := by
  have hfold : ∀ (txs : List EthereumTransaction) (acc : UInt64),
      (txs.foldlM (fun acc (tx : EthereumTransaction) =>
        tx.checkedGasLimit.map (saturatingAdd acc)) acc).isSome = true ↔
        ∀ tx ∈ txs, tx.HasGasLimit := by
    intro txs
    induction txs with
    | nil => exact fun acc => ⟨fun _ _ htx => absurd htx List.not_mem_nil, fun _ => rfl⟩
    | cons tx txs ih =>
      intro acc
      rw [List.foldlM_cons, List.forall_mem_cons, EthereumTransaction.HasGasLimit]
      cases tx.checkedGasLimit with
      | none => exact ⟨fun h => absurd h Bool.false_ne_true, fun h => absurd h.1 Bool.false_ne_true⟩
      | some gas => exact (ih _).trans (and_iff_right rfl).symm
  exact hfold batch.data 0

/-- An ordered batch has the id and the batch that it was made from, whose transactions have a gas
limit. -/
theorem OrderedBatch.new_eq_some {batchId : Nat} {batch : ExecutableEthereumBatch}
    {b : OrderedBatch} (h : OrderedBatch.new batchId batch = some b) :
    b.batchId = batchId ∧ b.batch = batch ∧ HasGas batch := by
  obtain ⟨gas, hgas, rfl⟩ := Option.map_eq_some_iff.1 h
  exact ⟨rfl, rfl, (gasWeight_isSome_iff batch).1 (by rw [hgas]; rfl)⟩

/-- A batch is not ordered only if one of its transactions has no gas limit. -/
theorem OrderedBatch.new_eq_none {batchId : Nat} {batch : ExecutableEthereumBatch}
    (h : OrderedBatch.new batchId batch = none) : ¬HasGas batch := by
  rw [← gasWeight_isSome_iff, Option.map_eq_none_iff.1 h]
  exact Bool.false_ne_true

/-- `TempBuffer::delta_bytes`. -/
def deltaBytes (records : List (Key × Value)) : UInt64 := UInt64.ofNat records.length * 64

/-- `BatchExecutor`, over a state of its own. An executor may hold the cache of the pipeline, so it
may change it. The store behind the cache answers the attempts of the last flush of a call. -/
structure BatchExecutor (ε : Type) where
  executeBatch : ExecutableEthereumBatch → Nat → ε × TwoLevelCache →
    (H256 × List (Key × Value)) × ε × TwoLevelCache
  commitBatch : OrderedBatch → ε × TwoLevelCache → Except String Unit × ε × TwoLevelCache
  flushOutcomes : ε × TwoLevelCache → Fin 3 → List PutOutcome

/-- `EvBlpConfig`. -/
structure EvBlpConfig where
  pipeline : PipelineConfig
  l1CapacityBytes : Nat
  l2CapacityBytes : Nat
  deltapageMaxRecords : Nat

/-- Where `process_batches` is. -/
inductive Point where
  /-- No call is running. -/
  | idle
  /-- At the head of the loop over the batches. -/
  | next
  /-- At the head of the loop that waits for the window of `Order`. -/
  | waitOrder (b : OrderedBatch)
  /-- At the head of the loop that waits for the window of `Exec`. -/
  | waitExec (b : OrderedBatch)
  /-- At the head of the loop that drains what is left. -/
  | final
  /-- `PipelineBatch::new` has panicked. -/
  | panicked (batch : ExecutableEthereumBatch)

/-- The batch that is on its way to the execution. -/
def Point.held : Point → List OrderedBatch
  | waitOrder b | waitExec b => [b]
  | idle | next | final | panicked _ => []

/-- The batch that has its id and is not executed. -/
def Point.batches : Point → List ExecutableEthereumBatch
  | waitOrder b | waitExec b => [b.batch]
  | panicked batch => [batch]
  | idle | next | final => []

/-- The state of the pipeline and of a call of `process_batches` on it. -/
structure Sync (ε : Type) where
  controller : PipelineController := {}
  cache : TwoLevelCache
  nextBatchId : Nat := 1
  lastExecComplete : Nat := 0
  executor : ε
  /-- The calls to come. -/
  calls : List (List ExecutableEthereumBatch)
  point : Point := .idle
  /-- The index of `drain_commit_stage` while it runs; it returns to `point`. -/
  draining : Option Nat := none
  todo : List ExecutableEthereumBatch := []
  pendingCommit : List OrderedBatch := []
  digests : List H256 := []
  /-- The executed batches with their digests, a history variable. -/
  executed : List (OrderedBatch × H256) := []
  /-- The ids of the batches whose commit has succeeded, a history variable. -/
  committed : List Nat := []
  /-- The number of commits that have failed, a history variable. -/
  failures : Nat := 0
  /-- What the calls have returned, a history variable. -/
  results : List (List H256) := []

namespace Sync

variable {ε : Type} (config : EvBlpConfig) (ex : BatchExecutor ε)

/-- A new pipeline, over an executor and a store, with the calls that will be made. -/
def new (executor : ε) (db : Key → Option Value) (calls : List (List ExecutableEthereumBatch)) :
    Sync ε where
  cache := .new config.l1CapacityBytes config.l2CapacityBytes db
  executor := executor
  calls := calls

/-! ## Steps -/

/-- A call begins. -/
def call (s : Sync ε) (batches : List ExecutableEthereumBatch)
    (calls : List (List ExecutableEthereumBatch)) : Sync ε :=
  { s with calls := calls, point := .next, todo := batches, pendingCommit := [], digests := [] }

/-- The next batch gets its id and its weight. -/
def alloc (s : Sync ε) (b : OrderedBatch) (todo : List ExecutableEthereumBatch) : Sync ε :=
  { s with
    todo := todo
    nextBatchId := s.nextBatchId + 1
    point := .waitOrder b }

/-- The next batch gets its id, and there is no weight to give it. -/
def panic (s : Sync ε) (batch : ExecutableEthereumBatch) (todo : List ExecutableEthereumBatch) :
    Sync ε :=
  { s with
    todo := todo
    nextBatchId := s.nextBatchId + 1
    point := .panicked batch }

/-- The batch enters `Order`. -/
def enterOrder (s : Sync ε) (b : OrderedBatch) : Sync ε :=
  { s with
    controller := s.controller.onBatchEnter .order b.gasWeight.toNat
    point := .waitExec b }

/-- The batch enters `Exec`, is executed and leaves `Exec` and `Order`. -/
def execute (s : Sync ε) (b : OrderedBatch) : Sync ε :=
  let gas := b.gasWeight.toNat
  let r := ex.executeBatch b.batch s.lastExecComplete (s.executor, s.cache)
  let b := { b with deltaBytes := deltaBytes r.1.2 }
  let pages := intoDeltaPages r.1.2 b.batchId b.batchId config.deltapageMaxRecords
  { s with
    executor := r.2.1
    cache := (r.2.2.writeDeltaPages b.batchId pages).markBatchComplete b.batchId
    lastExecComplete := b.batchId
    controller := ((s.controller.onBatchEnter .exec gas).onBatchExit config.pipeline .exec gas)
      |>.onBatchExit config.pipeline .order gas
    digests := s.digests ++ [r.1.1]
    pendingCommit := s.pendingCommit ++ [b]
    executed := s.executed ++ [(b, r.1.1)]
    point := .next
    draining := some 0 }

/-- The controller after a commit, which passes through `Commit` whether it succeeds or not. -/
def afterCommit (s : Sync ε) (batch : OrderedBatch) : PipelineController :=
  (s.controller.onBatchEnter .commit batch.deltaBytes.toNat).onBatchExit config.pipeline .commit
    batch.deltaBytes.toNat

/-- The commit of the pending batch at an index succeeds: the batch is removed. -/
def commitOk (s : Sync ε) (i : Nat) (batch : OrderedBatch) : Sync ε :=
  let r := ex.commitBatch batch (s.executor, s.cache)
  { s with
    executor := r.2.1
    cache := r.2.2
    controller := s.afterCommit config batch
    pendingCommit := s.pendingCommit.eraseIdx i
    committed := s.committed ++ [batch.batchId] }

/-- The commit of the pending batch at an index fails: the next index is tried. -/
def commitErr (s : Sync ε) (i : Nat) (batch : OrderedBatch) : Sync ε :=
  let r := ex.commitBatch batch (s.executor, s.cache)
  { s with
    executor := r.2.1
    cache := r.2.2
    controller := s.afterCommit config batch
    draining := some (i + 1)
    failures := s.failures + 1 }

/-- Nothing is pending: the frozen tables are flushed, and the call returns. -/
def finish (s : Sync ε) : Sync ε :=
  { s with
    cache := (s.cache.tryFlushWithRetry (.ofFn (ex.flushOutcomes (s.executor, s.cache)))).2
    results := s.results ++ [s.digests]
    digests := []
    point := .idle }

/-- `drain_commit_stage` at an index. -/
def drainStep (s : Sync ε) (i : Nat) : Sync ε :=
  match s.pendingCommit[i]? with
  | none => { s with draining := none }
  | some batch =>
    if s.controller.canPush .commit then
      match (ex.commitBatch batch (s.executor, s.cache)).1 with
      | .ok _ => s.commitOk config ex i batch
      | .error _ => s.commitErr config ex i batch
    else { s with draining := none }

/-- `process_batches` outside of `drain_commit_stage`; there is no step without a call to make and
after a panic. -/
def pointStep (s : Sync ε) : Option (Sync ε) :=
  match s.point with
  | .idle =>
    match s.calls with
    | [] => none
    | batches :: calls => some (s.call batches calls)
  | .next =>
    match s.todo with
    | [] => some { s with point := .final }
    | batch :: todo =>
      match OrderedBatch.new s.nextBatchId batch with
      | some b => some (s.alloc b todo)
      | none => some (s.panic batch todo)
  | .waitOrder b =>
    if s.controller.canPush .order then some (s.enterOrder b)
    else some { s with draining := some 0 }
  | .waitExec b =>
    if s.controller.canPush .exec then some (s.execute config ex b)
    else some { s with draining := some 0 }
  | .final =>
    match s.pendingCommit with
    | [] => some (s.finish ex)
    | _ :: _ => some { s with draining := some 0 }
  | .panicked _ => none

/-- A step of `process_batches`. -/
def step (s : Sync ε) : Option (Sync ε) :=
  match s.draining with
  | some i => some (s.drainStep config ex i)
  | none => s.pointStep config ex

/-- What a step can be. -/
inductive Step (s : Sync ε) : Sync ε → Prop
  | call {batches : List ExecutableEthereumBatch} {calls : List (List ExecutableEthereumBatch)} :
    s.draining = none → s.point = .idle → s.calls = batches :: calls → Step s (s.call batches calls)
  | loopEnd : s.draining = none → s.point = .next → s.todo = [] → Step s { s with point := .final }
  | alloc {batch : ExecutableEthereumBatch} {todo : List ExecutableEthereumBatch}
      {b : OrderedBatch} :
    s.draining = none → s.point = .next → s.todo = batch :: todo →
    OrderedBatch.new s.nextBatchId batch = some b → Step s (s.alloc b todo)
  | panic {batch : ExecutableEthereumBatch} {todo : List ExecutableEthereumBatch} :
    s.draining = none → s.point = .next → s.todo = batch :: todo →
    OrderedBatch.new s.nextBatchId batch = none → Step s (s.panic batch todo)
  | enterOrder {b : OrderedBatch} :
    s.draining = none → s.point = .waitOrder b → s.controller.canPush .order = true →
    Step s (s.enterOrder b)
  | execute {b : OrderedBatch} :
    s.draining = none → s.point = .waitExec b → s.controller.canPush .exec = true →
    Step s (s.execute config ex b)
  | finish : s.draining = none → s.point = .final → s.pendingCommit = [] → Step s (s.finish ex)
  /-- A window is closed, or there is something pending after the last batch. -/
  | drain : s.draining = none →
    (∃ b, s.point = .waitOrder b ∧ s.controller.canPush .order = false) ∨
      (∃ b, s.point = .waitExec b ∧ s.controller.canPush .exec = false) ∨
      s.point = .final ∧ s.pendingCommit ≠ [] →
    Step s { s with draining := some 0 }
  | drained {i : Nat} : s.draining = some i → s.pendingCommit[i]? = none →
    Step s { s with draining := none }
  | closed {i : Nat} : s.draining = some i → s.controller.canPush .commit = false →
    Step s { s with draining := none }
  | commitOk {i : Nat} {batch : OrderedBatch} :
    s.draining = some i → s.pendingCommit[i]? = some batch → s.controller.canPush .commit = true →
    (ex.commitBatch batch (s.executor, s.cache)).1.isOk = true →
    Step s (s.commitOk config ex i batch)
  | commitErr {i : Nat} {batch : OrderedBatch} :
    s.draining = some i → s.pendingCommit[i]? = some batch → s.controller.canPush .commit = true →
    (ex.commitBatch batch (s.executor, s.cache)).1.isOk = false →
    Step s (s.commitErr config ex i batch)

variable {config ex} {s s' : Sync ε}

/-- Every step of the function is one of the relation. -/
theorem Step.of_step (h : s.step config ex = some s') : Step config ex s s' := by
  rw [step] at h
  split at h
  · rename_i i hdraining
    obtain rfl := Option.some.inj h
    rw [drainStep]
    split
    · rename_i hnone
      exact .drained hdraining hnone
    · rename_i batch hbatch
      split
      · rename_i hpush
        split
        · rename_i hok
          exact .commitOk hdraining hbatch hpush (by rw [hok]; rfl)
        · rename_i herr
          exact .commitErr hdraining hbatch hpush (by rw [herr]; rfl)
      · rename_i hpush
        exact .closed hdraining (Bool.eq_false_of_not_eq_true hpush)
  · rename_i hdraining
    rw [pointStep] at h
    split at h
    · rename_i hpoint
      split at h
      · cases h
      · rename_i hcalls
        obtain rfl := Option.some.inj h
        exact .call hdraining hpoint hcalls
    · rename_i hpoint
      split at h
      · rename_i htodo
        obtain rfl := Option.some.inj h
        exact .loopEnd hdraining hpoint htodo
      · rename_i htodo
        split at h
        · rename_i hnew
          obtain rfl := Option.some.inj h
          exact .alloc hdraining hpoint htodo hnew
        · rename_i hnew
          obtain rfl := Option.some.inj h
          exact .panic hdraining hpoint htodo hnew
    · rename_i b hpoint
      split at h
      · rename_i hpush
        obtain rfl := Option.some.inj h
        exact .enterOrder hdraining hpoint hpush
      · rename_i hpush
        obtain rfl := Option.some.inj h
        exact .drain hdraining (.inl ⟨b, hpoint, Bool.eq_false_of_not_eq_true hpush⟩)
    · rename_i b hpoint
      split at h
      · rename_i hpush
        obtain rfl := Option.some.inj h
        exact .execute hdraining hpoint hpush
      · rename_i hpush
        obtain rfl := Option.some.inj h
        exact .drain hdraining (.inr (.inl ⟨b, hpoint, Bool.eq_false_of_not_eq_true hpush⟩))
    · rename_i hpoint
      split at h
      · rename_i hpending
        obtain rfl := Option.some.inj h
        exact .finish hdraining hpoint hpending
      · rename_i hpending
        obtain rfl := Option.some.inj h
        exact .drain hdraining (.inr (.inr ⟨hpoint, by rw [hpending]; exact List.cons_ne_nil _ _⟩))
    · cases h

/-- The states of the pipeline along its calls. -/
def states (config : EvBlpConfig) (ex : BatchExecutor ε) (executor : ε) (db : Key → Option Value)
    (calls : List (List ExecutableEthereumBatch)) : Nat → Sync ε :=
  Machine.run (step config ex) (new config executor db calls)

/-! ## The ids of the batches -/

/-- The ids of the pending batches. -/
def pendingIds (s : Sync ε) : List Nat := s.pendingCommit.map (·.batchId)

/-- The ids of the executed batches. -/
def executedIds (s : Sync ε) : List Nat := s.executed.map (·.1.batchId)

/-- The batches are executed in the order of their ids, each one is committed or pending, and the
pending ones stand in the order of their ids. -/
structure Numbered (s : Sync ε) : Prop where
  ids : s.executedIds = List.range' 1 s.executed.length
  nextId : s.nextBatchId = s.executed.length + s.point.batches.length + 1
  heldId : ∀ b ∈ s.point.held, b.batchId = s.executed.length + 1
  split : (s.committed ++ s.pendingIds).Perm s.executedIds
  sorted : s.pendingIds.Pairwise (· < ·)
  idle : s.point = .idle → s.pendingCommit = [] ∧ s.draining = none

namespace Numbered

theorem mem_executedIds (h : Numbered s) {id : Nat} :
    id ∈ s.executedIds ↔ 0 < id ∧ id ≤ s.executed.length := by
  rw [h.ids, List.mem_range'_1]
  omega

theorem mem_of_pending (h : Numbered s) {id : Nat} (hid : id ∈ s.pendingIds) :
    id ∈ s.executedIds :=
  h.split.mem_iff.1 (List.mem_append_right _ hid)

/-- No batch is pending and committed. -/
theorem disjoint (h : Numbered s) {id : Nat} (hid : id ∈ s.pendingIds) : id ∉ s.committed := by
  have hnodup : (s.committed ++ s.pendingIds).Nodup := by
    rw [h.split.nodup_iff, h.ids]
    exact List.nodup_range'
  exact fun hmem => (List.nodup_append.1 hnodup).2.2 id hmem id hid rfl

/-- A step that changes only where the pipeline is, between points without a batch. -/
theorem move (h : Numbered s) {point : Point} {draining : Option Nat}
    (hbatches : s.point.batches = point.batches) (hheld : point.held = [])
    (hpoint : point ≠ .idle) : Numbered { s with point := point, draining := draining } where
  ids := h.ids
  nextId := by
    have := h.nextId
    rwa [hbatches] at this
  heldId := by
    rw [hheld]
    exact fun b hb => (by cases hb)
  split := h.split
  sorted := h.sorted
  idle := fun hidle => absurd hidle hpoint

end Numbered

/-- The ids are numbered at the start. -/
theorem Numbered.new (executor : ε) (db : Key → Option Value)
    (calls : List (List ExecutableEthereumBatch)) : Numbered (new config executor db calls) where
  ids := rfl
  nextId := rfl
  heldId := fun b hb => (by cases hb)
  split := .refl _
  sorted := .nil
  idle := fun _ => ⟨rfl, rfl⟩

/-- A call keeps the numbering. -/
theorem Numbered.call (h : Numbered s) {batches : List ExecutableEthereumBatch}
    {calls : List (List ExecutableEthereumBatch)} (hpoint : s.point = .idle) :
    Numbered (s.call batches calls) where
  ids := h.ids
  nextId := by
    have := h.nextId
    rwa [hpoint] at this
  heldId := fun b hb => (by cases hb)
  split := by
    have := h.split
    rwa [pendingIds, (h.idle hpoint).1] at this
  sorted := .nil
  idle := fun hidle => (by cases hidle)

/-- A new batch takes the next id. -/
theorem Numbered.alloc (h : Numbered s) {b : OrderedBatch} {todo : List ExecutableEthereumBatch}
    (hpoint : s.point = .next) (hb : b.batchId = s.nextBatchId) : Numbered (s.alloc b todo) where
  ids := h.ids
  nextId := by
    have := h.nextId
    rw [hpoint] at this
    exact congrArg (· + 1) this
  heldId := by
    intro b' hb'
    obtain rfl := List.mem_singleton.1 hb'
    have := h.nextId
    rw [hpoint] at this
    exact hb.trans this
  split := h.split
  sorted := h.sorted
  idle := fun hidle => (by cases hidle)

/-- A batch that panics takes the next id, and is never executed. -/
theorem Numbered.panic (h : Numbered s) {batch : ExecutableEthereumBatch}
    {todo : List ExecutableEthereumBatch} (hpoint : s.point = .next) :
    Numbered (s.panic batch todo) where
  ids := h.ids
  nextId := by
    have := h.nextId
    rw [hpoint] at this
    exact congrArg (· + 1) this
  heldId := fun b hb => (by cases hb)
  split := h.split
  sorted := h.sorted
  idle := fun hidle => (by cases hidle)

/-- A batch that enters `Order` keeps its id. -/
theorem Numbered.enterOrder (h : Numbered s) {b : OrderedBatch} (hpoint : s.point = .waitOrder b) :
    Numbered (s.enterOrder b) where
  ids := h.ids
  nextId := by
    have := h.nextId
    rwa [hpoint] at this
  heldId := by
    have := h.heldId
    rwa [hpoint] at this
  split := h.split
  sorted := h.sorted
  idle := fun hidle => (by cases hidle)

/-- A batch that is executed is the next one. -/
theorem Numbered.execute (h : Numbered s) {b : OrderedBatch} (hpoint : s.point = .waitExec b) :
    Numbered (s.execute config ex b) := by
  have hid : b.batchId = s.executed.length + 1 := h.heldId b (by rw [hpoint]; exact .head _)
  have hexecuted : (s.execute config ex b).executedIds = s.executedIds ++ [b.batchId] := by
    rw [executedIds, executedIds]
    exact List.map_append
  have hpending : (s.execute config ex b).pendingIds = s.pendingIds ++ [b.batchId] := by
    rw [pendingIds, pendingIds]
    exact List.map_append
  have hlength : (s.execute config ex b).executed.length = s.executed.length + 1 :=
    List.length_append
  refine ⟨?_, ?_, fun b hb => (by cases hb), ?_, ?_, fun hidle => (by cases hidle)⟩
  · rw [hexecuted, hlength, List.range'_1_concat, h.ids, hid, Nat.add_comm 1]
  · have := h.nextId
    rw [hpoint] at this
    rw [hlength]
    exact this
  · rw [hexecuted, hpending, ← List.append_assoc]
    exact h.split.append_right _
  · rw [hpending, List.pairwise_append]
    refine ⟨h.sorted, List.pairwise_singleton _ _, fun id hmem id' hid' => ?_⟩
    rw [List.mem_singleton.1 hid', hid]
    exact Nat.lt_succ_of_le (h.mem_executedIds.1 (h.mem_of_pending hmem)).2

theorem pendingIds_commitOk {i : Nat} {batch : OrderedBatch} :
    (s.commitOk config ex i batch).pendingIds = s.pendingIds.eraseIdx i :=
  (List.eraseIdx_map _ _ _).symm

/-- A commit keeps the numbering: its batch was waiting and is now committed. -/
theorem Numbered.commitOk (h : Numbered s) {i : Nat} {batch : OrderedBatch}
    (hdraining : s.draining = some i) (hbatch : s.pendingCommit[i]? = some batch) :
    Numbered (s.commitOk config ex i batch) := by
  refine ⟨h.ids, h.nextId, h.heldId, ?_, ?_, fun hidle => ?_⟩
  · have hget : s.pendingIds[i]? = some batch.batchId := by
      rw [pendingIds, List.getElem?_map, hbatch]
      rfl
    obtain ⟨hi, hget⟩ := List.getElem?_eq_some_iff.1 hget
    have hperm := List.getElem_cons_eraseIdx_perm hi
    rw [hget] at hperm
    rw [pendingIds_commitOk]
    refine List.Perm.trans ?_ h.split
    change (s.committed ++ [batch.batchId] ++ s.pendingIds.eraseIdx i).Perm _
    rw [List.append_assoc]
    exact hperm.append_left _
  · rw [pendingIds_commitOk]
    exact h.sorted.sublist (List.eraseIdx_sublist _ _)
  · rw [(h.idle hidle).2] at hdraining
    cases hdraining

/-- A step keeps the numbering. -/
theorem Numbered.step (h : Numbered s) (hstep : Step config ex s s') : Numbered s' := by
  cases hstep with
  | call _ hpoint _ => exact h.call hpoint
  | loopEnd _ hpoint _ =>
    exact h.move (by rw [hpoint]; rfl) rfl (fun hidle => (by cases hidle))
  | alloc _ hpoint _ hnew => exact h.alloc hpoint (OrderedBatch.new_eq_some hnew).1
  | panic _ hpoint _ _ => exact h.panic hpoint
  | enterOrder _ hpoint _ => exact h.enterOrder hpoint
  | execute _ hpoint _ => exact h.execute hpoint
  | finish hdraining hpoint hpending =>
    refine ⟨h.ids, ?_, fun b hb => (by cases hb), h.split, h.sorted, fun _ => ⟨hpending, hdraining⟩⟩
    have := h.nextId
    rwa [hpoint] at this
  | drain _ hwhere =>
    refine ⟨h.ids, h.nextId, h.heldId, h.split, h.sorted, fun hidle => ?_⟩
    rcases hwhere with ⟨b, hpoint, -⟩ | ⟨b, hpoint, -⟩ | ⟨hpoint, -⟩
    all_goals
      change s.point = .idle at hidle
      rw [hpoint] at hidle
      cases hidle
  | drained _ _ | closed _ _ =>
    exact ⟨h.ids, h.nextId, h.heldId, h.split, h.sorted, fun hidle => ⟨(h.idle hidle).1, rfl⟩⟩
  | commitOk hdraining hbatch _ _ => exact h.commitOk hdraining hbatch
  | commitErr hdraining _ _ _ =>
    refine ⟨h.ids, h.nextId, h.heldId, h.split, h.sorted, fun hidle => ?_⟩
    rw [(h.idle hidle).2] at hdraining
    cases hdraining

/-- The numbering holds in every state of a run. -/
theorem Numbered.states (executor : ε) (db : Key → Option Value)
    (calls : List (List ExecutableEthereumBatch)) (n : Nat) :
    Numbered (states config ex executor db calls n) :=
  Machine.invariant (fun _ _ h hstep => h.step (.of_step hstep)) (.new executor db calls) n

/-! ## The order of the commits -/

/-- The committed batches are a prefix of the batches, in the order of the ids. -/
def InOrder (s : Sync ε) : Prop :=
  ∀ id ∈ s.committed, ∀ id', 0 < id' → id' < id → id' ∈ s.committed

variable (ex) in
/-- The commit that the pipeline makes next succeeds, after the commit of a batch before it has
failed in this pass of `drain_commit_stage`. -/
def Overtakes (s : Sync ε) : Prop :=
  ∃ i batch, s.draining = some i ∧ 0 < i ∧ s.pendingCommit[i]? = some batch ∧
    s.controller.canPush .commit = true ∧ (ex.commitBatch batch (s.executor, s.cache)).1.isOk = true

/-- A commit that succeeds takes the batch out of the waiting ones. -/
theorem step_eq_commitOk {i : Nat} {batch : OrderedBatch} (hdraining : s.draining = some i)
    (hbatch : s.pendingCommit[i]? = some batch) (hpush : s.controller.canPush .commit = true)
    (hok : (ex.commitBatch batch (s.executor, s.cache)).1.isOk = true) :
    s.step config ex = some (s.commitOk config ex i batch) := by
  rw [step, hdraining]
  dsimp only
  rw [drainStep, hbatch]
  dsimp only
  rw [if_pos hpush]
  split
  · rfl
  · rename_i herr
    rw [herr] at hok
    cases hok

/-- The first pending batch may be committed. -/
theorem InOrder.commit_first (h : InOrder s) (hs : Numbered s) {batch : OrderedBatch}
    (hbatch : s.pendingCommit[0]? = some batch) : InOrder (s.commitOk config ex 0 batch) := by
  intro id hid id' hpos hlt
  change id ∈ s.committed ++ [batch.batchId] at hid
  change id' ∈ s.committed ++ [batch.batchId]
  rcases List.mem_append.1 hid with hid | hid
  · exact List.mem_append_left _ (h id hid id' hpos hlt)
  · rw [List.mem_singleton.1 hid] at hlt
    obtain ⟨rest, hpending⟩ : ∃ rest, s.pendingIds = batch.batchId :: rest := by
      obtain ⟨rest, hrest⟩ : ∃ rest, s.pendingCommit = batch :: rest := by
        rw [← List.head?_eq_getElem?] at hbatch
        exact List.head?_eq_some_iff.1 hbatch
      exact ⟨rest.map (·.batchId), by rw [pendingIds, hrest, List.map_cons]⟩
    have hbatchId : batch.batchId ∈ s.executedIds :=
      hs.mem_of_pending (hpending ▸ List.mem_cons_self)
    have hid' : id' ∈ s.executedIds := hs.mem_executedIds.2
      ⟨hpos, Nat.le_trans (Nat.le_of_lt hlt) (hs.mem_executedIds.1 hbatchId).2⟩
    rcases List.mem_append.1 (hs.split.mem_iff.2 hid') with hcommitted | hmem
    · exact List.mem_append_left _ hcommitted
    · -- the first pending batch has the least id of the pending ones
      have hsorted := hs.sorted
      rw [hpending] at hsorted hmem
      rcases List.mem_cons.1 hmem with rfl | hmem
      · exact absurd hlt (Nat.lt_irrefl _)
      · exact absurd hlt (Nat.not_lt.2 (Nat.le_of_lt ((List.pairwise_cons.1 hsorted).1 _ hmem)))

/-- A batch that is committed before the first pending one is committed out of order. -/
theorem not_inOrder_commit_later (hs : Numbered s) {i : Nat} {batch : OrderedBatch} (hi : 0 < i)
    (hbatch : s.pendingCommit[i]? = some batch) : ¬InOrder (s.commitOk config ex i batch) := by
  intro h
  obtain ⟨hlt, hget⟩ := List.getElem?_eq_some_iff.1 hbatch
  have hlen : 0 < s.pendingIds.length := by
    rw [pendingIds, List.length_map]
    exact Nat.lt_of_le_of_lt (Nat.zero_le i) hlt
  have hfirst : s.pendingIds[0] ∈ s.pendingIds := List.getElem_mem hlen
  have hless : s.pendingIds[0] < batch.batchId := by
    have hpair :=
      List.pairwise_iff_getElem.1 hs.sorted 0 i hlen (by simpa [pendingIds] using hlt) hi
    simpa [pendingIds, hget] using hpair
  have hpos := (hs.mem_executedIds.1 (hs.mem_of_pending hfirst)).1
  have hmem := h batch.batchId (List.mem_append_right _ (List.mem_singleton.2 rfl)) _ hpos hless
  rcases List.mem_append.1 hmem with hcommitted | hself
  · exact hs.disjoint hfirst hcommitted
  · exact absurd (List.mem_singleton.1 hself) (Nat.ne_of_lt hless)

/-- A step that does not overtake keeps the commits in order. -/
theorem InOrder.step (h : InOrder s) (hs : Numbered s) (hstep : Step config ex s s')
    (hnot : ¬Overtakes ex s) : InOrder s' := by
  cases hstep with
  | commitOk hdraining hbatch hpush hok =>
    rename_i i batch
    rcases Nat.eq_zero_or_pos i with rfl | hi
    · exact h.commit_first hs hbatch
    · exact absurd ⟨i, batch, hdraining, hi, hbatch, hpush, hok⟩ hnot
  | _ => exact h

/-- **Commits happen in batch order** at every moment of every call exactly when no commit ever
succeeds in a pass of `drain_commit_stage` in which the commit of a batch before it has failed. -/
theorem commits_in_order_iff (config : EvBlpConfig) (ex : BatchExecutor ε) (executor : ε)
    (db : Key → Option Value) (calls : List (List ExecutableEthereumBatch)) :
    (∀ n, InOrder (states config ex executor db calls n)) ↔
      ∀ n, ¬Overtakes ex (states config ex executor db calls n) := by
  constructor
  · rintro h n ⟨i, batch, hdraining, hi, hbatch, hpush, hok⟩
    have hnext := h (n + 1)
    rw [states, Machine.run_succ_of_step (step_eq_commitOk hdraining hbatch hpush hok)] at hnext
    exact not_inOrder_commit_later (.states executor db calls n) hi hbatch hnext
  · intro h n
    refine Machine.run_induction (fun id hid => (by cases hid)) (fun n s' hin hstep => ?_) n
    exact InOrder.step hin (.states executor db calls n) (.of_step hstep) (h n)

end Sync

namespace SyncFixture

def config : EvBlpConfig where
  pipeline := ⟨1000, 1000, 4⟩
  l1CapacityBytes := 1024
  l2CapacityBytes := 1024
  deltapageMaxRecords := 128

/-- An executor that counts the calls of `commit_batch` and fails the first ones. -/
def failing (failures : Nat) : BatchExecutor Nat where
  executeBatch batch _ s := ((batch.digest, []), s)
  commitBatch _ s := (if s.1 < failures then .error "store" else .ok (), s.1 + 1, s.2)
  flushOutcomes _ _ := []

def batch (digest : H256) : ExecutableEthereumBatch := ⟨[], digest⟩

/-- The commit of the first batch fails in its own pass and in the one of the second batch, which is
then committed first. -/
theorem commits_out_of_order :
    let s := Sync.states config (failing 2) 0 (fun _ => none) [[batch 1, batch 2]] 11
    s.executedIds = [1, 2] ∧ s.committed = [2] ∧ ¬s.InOrder := by
  have hcommitted :
      (Sync.states config (failing 2) 0 (fun _ => none) [[batch 1, batch 2]] 11).committed =
        [2] := by
    decide
  refine ⟨by decide, hcommitted, fun h => ?_⟩
  have hmem := h 2 (hcommitted ▸ List.mem_singleton.2 rfl) 1 Nat.one_pos (Nat.lt_succ_self 1)
  rw [hcommitted] at hmem
  exact absurd hmem (by decide)

end SyncFixture

end Chase.EvBlp
