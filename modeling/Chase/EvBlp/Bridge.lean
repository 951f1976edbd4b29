import Chase.Cache.TwoLevel
import Chase.Core.Execute
import Chase.Evm.SlotBackend

/-!
# The EV-BLP bridge

`EvBlpChaseBridge::execute` runs batches through `exec_worker`, one at a time, over a backend whose
storage reads go through the two-level cache first (`CacheOverlayBackend`), while `commit_worker`
writes the pages of completed batches to the store and to L2. A batch changes the inner backend
while it runs; the cache takes its writes when it has ended.

`overlayWorld` is the state that `_execute` sees below the bridge, with every store write of the
commit worker a step of its own, and `directWorld` the inner backend without the overlay.
-/

namespace Chase

open LastWrite

/-- The storage writes that `applies_to_temp_buffer` takes from an effect. -/
def Apply.slotWrites : Apply → List (Slot × H256)
  | .modify a _ _ storage _ => storage.map fun e => ((a, e.1), e.2)
  | .delete _ => []

/-- The effect empties the storage of the account. -/
def Apply.Clears (a : H160) : Apply → Prop
  | .modify a' _ _ _ resetStorage => a' = a ∧ resetStorage = true
  | .delete a' => a' = a

instance (a : H160) : DecidablePred (Apply.Clears a) := fun x =>
  match x with
  | .modify a' _ _ _ resetStorage => inferInstanceAs (Decidable (a' = a ∧ resetStorage = true))
  | .delete a' => inferInstanceAs (Decidable (a' = a))

/-- The storage writes of a list of effects. -/
def slotWrites (effects : List Apply) : List (Slot × H256) := effects.flatMap Apply.slotWrites

/-- The slots that a committed transaction writes, by its effect. -/
def FinalizedTransaction.slots (tx : FinalizedTransaction) : List Slot :=
  (slotWrites tx.effect).map (·.1)

namespace EvBlp

open Cache Reading

/-- `applies_to_temp_buffer`: the records of a list of effects. -/
def appliesToTempBuffer (applies : List Apply) : List (Key × Value) :=
  (slotWrites applies).map fun e => (encodeKey e.1, e.2)

/-- The effects of a list of transactions. -/
def effects (txs : List FinalizedTransaction) : List Apply := txs.flatMap (·.effect)

/-- The state of the pipeline: the overlay backend with its cache, the effect collector, and the
two workers. -/
structure Bridge (β : Type) where
  inner : β
  cache : TwoLevelCache
  visibleBatch : Nat := 0
  nextBatchId : Nat := 1
  lastExecComplete : Nat := 0
  /-- The transactions whose effects the collector holds, in its order. -/
  collector : List FinalizedTransaction := []
  /-- The transactions of the threads that have extended the collector and not yet applied. -/
  inFlight : List FinalizedTransaction := []
  /-- The batches that are sent to the commit worker. -/
  commitQueue : List Nat := []
  /-- The store writes that are left of the commit in progress. -/
  committing : List StoreOp := []
  /-- The transactions of the completed batches, a history variable. -/
  completed : List FinalizedTransaction := []

/-- The pipeline over a new runtime. -/
def Bridge.new {β : Type} (l1CapacityBytes l2CapacityBytes : Nat) (db : Key → Option Value)
    (inner : β) : Bridge β where
  inner
  cache := .new l1CapacityBytes l2CapacityBytes db

section

variable {β : Type} (B : SlotBackend β)

/-- `CacheOverlayBackend::storage`. -/
def Bridge.storage (s : Bridge β) (slot : Slot) : H256 × Bridge β :=
  let r := s.cache.read (encodeKey slot) s.visibleBatch
  (r.1.getD (B.storage s.inner slot), { s with cache := r.2 })

/-- A thread of a commit extends the collector, or applies its effect to the inner backend. -/
def Bridge.commitEvent (s : Bridge β) : CommitEvent → Bridge β
  | .record tx => { s with collector := s.collector ++ [tx], inFlight := tx :: s.inFlight }
  | .apply tx =>
    { s with inner := B.apply s.inner tx.effect, inFlight := s.inFlight.erase tx }

/-- A step of `commit_worker`: it receives a batch and takes its pages, or makes a store write. -/
inductive CommitWorker : Bridge β → Bridge β → Prop
  | recv {s : Bridge β} {batchId : Nat} {queue : List Nat} :
    s.committing = [] → s.commitQueue = batchId :: queue →
    CommitWorker s
      { s with
        commitQueue := queue
        cache := (s.cache.takePages batchId).1
        committing := (s.cache.takePages batchId).2 }
  | store {s : Bridge β} {op : StoreOp} {ops : List StoreOp} :
    s.committing = op :: ops →
    CommitWorker s { s with cache := s.cache.storeOp op, committing := ops }

/-- What `_execute` sees below the bridge. -/
def overlayWorld : World Slot H256 (Bridge β) where
  reads s slot v s' := (v, s') = s.storage B slot
  env := CommitWorker
  step s event s' := s' = s.commitEvent B event

/-- What `_execute` sees without the overlay. -/
def directWorld : World Slot H256 β := .isolated B.storage B.apply

/-- The batch is taken up: completed batches become visible, and the collector is emptied. -/
def Bridge.beginBatch (s : Bridge β) : Bridge β :=
  { s with visibleBatch := s.lastExecComplete, collector := [] }

/-- The batch has run: its pages go to L1 and to the commit worker, and it becomes visible. -/
def Bridge.finishBatch (maxRecords : Nat) (s : Bridge β) : Bridge β :=
  let batchId := s.nextBatchId
  let pages :=
    intoDeltaPages (appliesToTempBuffer (effects s.collector)) batchId batchId maxRecords
  { s with
    cache := (s.cache.writeDeltaPages batchId pages).markBatchComplete batchId
    lastExecComplete := batchId
    visibleBatch := batchId
    nextBatchId := batchId + 1
    collector := []
    commitQueue := s.commitQueue ++ [batchId]
    completed := s.completed ++ s.collector }

variable (simulateTx : EthereumTransaction → Reader Slot H256 Outcome) (ncpu maxRecords : Nat)

/-- `exec_worker` takes up the batches one by one, interleaved with the commit worker. The state
that `_execute` sees is a parameter: `overlayWorld`, or a restriction of it. -/
inductive ExecWorker (W : World Slot H256 (Bridge β)) :
    Bridge β → List (List EthereumTransaction) → Bridge β → Prop
  | done (s : Bridge β) : ExecWorker W s [] s
  | env {s s' s'' : Bridge β} {batches : List (List EthereumTransaction)} :
    CommitWorker s s' → ExecWorker W s' batches s'' → ExecWorker W s batches s''
  | batch {s s' s'' : Bridge β} {batch : List EthereumTransaction}
    {batches : List (List EthereumTransaction)} :
    W.Execute simulateTx ncpu [batch] s.beginBatch s' →
    ExecWorker W (s'.finishBatch maxRecords) batches s'' → ExecWorker W s (batch :: batches) s''

/-- `EvBlpChaseBridge::execute`: both workers run to their end, and the frozen tables are
flushed. -/
def Bridge.Execute (W : World Slot H256 (Bridge β)) (s : Bridge β)
    (batches : List (List EthereumTransaction)) (s' : Bridge β) : Prop :=
  ∃ t, ExecWorker simulateTx ncpu maxRecords W s batches t ∧ t.commitQueue = [] ∧
    t.committing = [] ∧ s' = { t with cache := t.cache.flushFrozenTables }

/-- `_execute` on the batches one by one, without the overlay. -/
inductive DirectRun : β → List (List EthereumTransaction) → β → Prop
  | done (b : β) : DirectRun b [] b
  | batch {b b' b'' : β} {batch : List EthereumTransaction}
    {batches : List (List EthereumTransaction)} :
    (directWorld B).Execute simulateTx ncpu [batch] b b' → DirectRun b' batches b'' →
    DirectRun b (batch :: batches) b''

/-! ## The conditions on a step -/

/-- The key of the slot is the key of no other slot that a completed batch has written. -/
def Unaliased (completed : List FinalizedTransaction) (slot : Slot) : Prop :=
  ∀ tx ∈ completed, ∀ other ∈ tx.slots, encodeKey other = encodeKey slot → other = slot

/-- The condition on a read: the slot does not share its key, and if the cache has it, no
transaction of the present batch has written it. -/
structure ReadOk (s : Bridge β) (slot : Slot) : Prop where
  unaliased : Unaliased s.completed slot
  unwritten : s.cache.find (encodeKey slot) ≠ none → ∀ tx ∈ s.collector, slot ∉ tx.slots

/-- The condition on an application: the transaction that wrote a slot last in the collector is not
applied before this one, and an account whose storage is emptied has no slot in the cache and none
that the collector holds. -/
structure ApplyOk (s : Bridge β) (tx : FinalizedTransaction) : Prop where
  inOrder : ∀ slot ∈ tx.slots, ∀ last,
    Serial.lastWriter FinalizedTransaction.slots s.collector slot = some last → last ∈ s.inFlight
  clears : ∀ before x after, tx.effect = before ++ x :: after → ∀ slot : Slot, x.Clears slot.1 →
    s.cache.find (encodeKey slot) = none ∧ slot ∉ (slotWrites before).map (·.1) ∧
      ∀ other ∈ s.collector, other ≠ tx → slot ∉ other.slots

/-- The overlay, restricted to the steps that meet the conditions. -/
def guardedWorld : World Slot H256 (Bridge β) where
  reads s slot v s' := ReadOk s slot ∧ (overlayWorld B).reads s slot v s'
  env := CommitWorker
  step s event s' :=
    (∀ tx, event = .apply tx → ApplyOk s tx) ∧ (overlayWorld B).step s event s'

end

end EvBlp

end Chase
