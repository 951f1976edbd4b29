import Chase.Graph.Basic

/-!
# The CDS scheduler

`cds_scheduler.rs` and `ScheduledInfo::build_cds_schedule`. The transactions of the lowest sequence
number become dependency chains that commit in parallel (the conflict-free zone). The transactions
of the other sequence numbers, and the aborted ones, are sorted by id and put one by one into the
first epoch whose writes they neither read nor write (the conflict zone).

A hash set of keys is the list of its elements. The loops that end when every transaction is
assigned take their number of iterations as fuel.
-/

namespace Chase

open Chase.Graph

/-- `FinalizedTransaction`. -/
structure FinalizedTransaction where
  id : TxId
  effect : List Apply
  deriving DecidableEq, Repr

/-- `AbortedTransaction`. -/
structure AbortedTransaction where
  rawTx : IndexedEthereumTransaction
  prevReadKeys : List H256
  prevWriteKeys : List H256
  deriving DecidableEq, Repr

namespace Graph

/-- `Transaction::to_finalized`. -/
def Transaction.toFinalized (tx : Transaction) : FinalizedTransaction := ⟨tx.txId, tx.effects⟩

/-- `Transaction::to_aborted`. -/
def Transaction.toAborted (tx : Transaction) : AbortedTransaction :=
  ⟨tx.rawTx, tx.readKeys, tx.writeKeys⟩

end Graph

namespace Cds

/-- `TxWithKeys`, over the payload that is scheduled. -/
structure TxWithKeys (α : Type) where
  id : TxId
  readKeys : List H256
  writeKeys : List H256
  payload : α
  deriving DecidableEq, Repr

/-- `TxWithKeys::from_transaction`. -/
def TxWithKeys.fromTransaction (tx : Transaction) : TxWithKeys FinalizedTransaction :=
  ⟨tx.txId, tx.readKeys, tx.writeKeys, tx.toFinalized⟩

/-- The candidates of `schedule_conflict_zone_aborted`. -/
def TxWithKeys.fromAborted (tx : AbortedTransaction) : TxWithKeys AbortedTransaction :=
  ⟨tx.rawTx.id, tx.prevReadKeys, tx.prevWriteKeys, tx⟩

variable {α : Type}

/-- `sort_unstable_by_key(|tx| tx.id)`. -/
def sortById (txs : List (TxWithKeys α)) : List (TxWithKeys α) :=
  txs.insertionSort fun a b => a.id ≤ b.id

/-- `is_disjoint` of two sets of keys. -/
def disjointKeys (a b : List H256) : Bool := a.all fun k => decide (k ∉ b)

/-! ## Commit waves -/

/-- The order `(tx.sequence(), tx.id())`. -/
def waveLe (c : Cells) (a b : Transaction) : Prop :=
  (c a.txId).sequence < (c b.txId).sequence ∨
    (c a.txId).sequence = (c b.txId).sequence ∧ a.txId ≤ b.txId

instance (c : Cells) : DecidableRel (waveLe c) := fun _ _ => inferInstanceAs (Decidable (_ ∨ _))

/-- `group_by_sequence`. -/
def groupBySequence (c : Cells) (txList : List Transaction) : List (List Transaction) :=
  (txList.insertionSort (waveLe c)).splitBy fun a b =>
    (c a.txId).sequence == (c b.txId).sequence

/-! ## The conflict-free zone -/

/-- `depends_on[i]`: the other transactions that write a key which transaction `i` reads. -/
def dependsOn (txs : List (TxWithKeys α)) (i : Nat) : List Nat :=
  (List.range txs.length).filter fun j =>
    i != j && !disjointKeys ((txs[i]?.map (·.readKeys)).getD [])
      ((txs[j]?.map (·.writeKeys)).getD [])

section Chains

variable (n : Nat) (deps : Nat → List Nat)

/-- A transaction that is not assigned and whose dependencies all are. -/
def ready (assigned : List Nat) (i : Nat) : Bool :=
  decide (i ∉ assigned) && (deps i).all fun j => decide (j ∈ assigned)

/-- The inner loop: the chain grows by the first ready transaction that depends on its last one. -/
def extendChain : Nat → List Nat → List Nat → Nat → List Nat × List Nat
  | 0, assigned, chain, _ => (assigned, chain)
  | fuel + 1, assigned, chain, last =>
    match (List.range n).find? fun i => ready deps assigned i && decide (last ∈ deps i) with
    | some i => extendChain fuel (i :: assigned) (chain ++ [i]) i
    | none => (assigned, chain)

/-- The message of the panic on a dependency cycle. -/
def cycleMessage : String := "cycle in conflict-free zone dependency graph"

/-- The outer loop: a new chain starts at the first ready transaction, and there is a panic when
there is none. -/
def chainLoop : Nat → List Nat → List (List Nat) → Except String (List (List Nat))
  | 0, _, chains => .ok chains
  | fuel + 1, assigned, chains =>
    if (List.range n).all (fun i => decide (i ∈ assigned)) then .ok chains
    else
      match (List.range n).find? (ready deps assigned) with
      | none => .error cycleMessage
      | some start =>
        let (assigned, chain) := extendChain n deps n (start :: assigned) [start] start
        chainLoop fuel assigned (chains ++ [chain])

end Chains

/-- `build_conflict_free_chain_indices`. -/
def buildConflictFreeChainIndices (txs : List (TxWithKeys α)) : Except String (List (List Nat)) :=
  chainLoop txs.length (dependsOn txs) txs.length [] []

/-- `extract_conflict_free_chains`. -/
def extractConflictFreeChains (seq1Txs : List Transaction) :
    Except String (List (List FinalizedTransaction)) :=
  let txs := sortById (seq1Txs.map TxWithKeys.fromTransaction)
  (buildConflictFreeChainIndices txs).map fun chains =>
    chains.map fun chain => chain.filterMap fun i => txs[i]?.map (·.payload)

/-! ## The conflict zone -/

/-- `find_minimum_epoch`. -/
def findMinimumEpoch (readKeys writeKeys : List H256) (epochMap : List (List H256)) : Nat :=
  epochMap.findIdx fun writes => disjointKeys (readKeys ++ writeKeys) writes

/-- The state of the placement loop: the keys written in each epoch, and the epochs. -/
structure Placement (α : Type) where
  epochMap : List (List H256) := []
  schedule : List (List (TxWithKeys α)) := []

/-- One iteration of `place_into_epochs`. -/
def placeStep (p : Placement α) (tx : TxWithKeys α) : Placement α :=
  let epoch := findMinimumEpoch tx.readKeys tx.writeKeys p.epochMap
  if epoch < p.epochMap.length then
    { epochMap := p.epochMap.modify epoch (· ++ tx.writeKeys)
      schedule := p.schedule.modify epoch (· ++ [tx]) }
  else
    { epochMap := p.epochMap ++ [tx.writeKeys]
      schedule := p.schedule ++ [[tx]] }

/-- `place_into_epochs`. -/
def placeIntoEpochs (candidates : List (TxWithKeys α)) : List (List (TxWithKeys α)) :=
  (candidates.foldl placeStep {}).schedule

/-- `schedule_conflict_zone_finalized`. -/
def scheduleConflictZoneFinalized (seq2plusTxs : List Transaction) :
    List (List FinalizedTransaction) :=
  (placeIntoEpochs (sortById (seq2plusTxs.map TxWithKeys.fromTransaction))).map
    fun epoch => epoch.map (·.payload)

/-- `schedule_conflict_zone_aborted`. -/
def scheduleConflictZoneAborted (abortedTxs : List Transaction) : List (List AbortedTransaction) :=
  (placeIntoEpochs
    (sortById (abortedTxs.map fun tx => TxWithKeys.fromAborted tx.toAborted))).map
    fun epoch => epoch.map (·.payload)

end Cds

/-! ## The schedule -/

/-- `ScheduledInfo`. -/
structure ScheduledInfo where
  conflictFreeZone : List (List FinalizedTransaction)
  conflictZoneFinalized : List (List FinalizedTransaction)
  conflictZoneAborted : List (List AbortedTransaction)
  deriving DecidableEq, Repr

/-- The transactions of the lowest commit wave, `groups.remove(0)`. -/
def firstEpochTxs (c : Cells) (txList : List Transaction) : List Transaction :=
  (Cds.groupBySequence c txList).head?.getD []

/-- The transactions of the other commit waves. -/
def seq2plusTxs (c : Cells) (txList : List Transaction) : List Transaction :=
  (Cds.groupBySequence c txList).tail.flatten

/-- `ScheduledInfo::build_cds_schedule`; the error is the panic of the chain builder. -/
def ScheduledInfo.buildCdsSchedule (c : Cells) (txList abortedTxs : List Transaction) :
    Except String ScheduledInfo :=
  (Cds.extractConflictFreeChains (firstEpochTxs c txList)).map fun conflictFreeZone =>
    { conflictFreeZone
      conflictZoneFinalized := Cds.scheduleConflictZoneFinalized (seq2plusTxs c txList)
      conflictZoneAborted := Cds.scheduleConflictZoneAborted abortedTxs }

/-- `extract_schedule` (and `par_extract_schedule`, which differs only in the threads it uses). -/
def AddressBasedConflictGraph.extractSchedule (acg : AddressBasedConflictGraph) :
    Except String ScheduledInfo :=
  ScheduledInfo.buildCdsSchedule acg.cells acg.txList acg.abortedTxs

/-- `construct -> hierarchcial_sort -> reorder -> extract_schedule`. -/
def schedule (simulationResult : List SimulatedTransaction) : Except String ScheduledInfo :=
  (AddressBasedConflictGraph.construct simulationResult).hierarchcialSort.reorder.extractSchedule

/-- `par_construct -> hierarchcial_sort -> reorder -> par_extract_schedule`; `none` is the panic of
`par_construct`. -/
def parSchedule (ncpu : Nat) (simulationResult : List SimulatedTransaction) :
    Option (Except String ScheduledInfo) :=
  (AddressBasedConflictGraph.parConstruct ncpu simulationResult).map fun acg =>
    acg.hierarchcialSort.reorder.extractSchedule

end Chase
