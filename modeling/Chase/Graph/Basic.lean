import Chase.Evm.Transaction
import Chase.Lib.TreeMerge
import Mathlib.Data.List.Sort

/-!
# The address-based conflict graph

The data model of `address_based_conflict_graph.rs` and the functions that build the graph, assign
sequence numbers and reorder. A simulated transaction contributes one unit for each slot key it
reads and each slot key it writes; the units of a key are collected in an `Address`. The sequence
numbers are assigned address by address, in the order of `addressRank`.

The units of the source share their transaction through an `Arc`, and the sequence number and the
abort flag of a transaction are updated through every one of them. Here these two fields are in
`Cells`, indexed by transaction id (the ids of a list of simulated transactions are distinct), and a
unit holds the id. Sequence numbers and degrees are naturals; the subtraction of `Address::merge`,
which may leave them, wraps at 32 bits. A hash map that is iterated is the list of its entries.
-/

namespace Chase

/-- The id of a transaction (`u64`), its position in the executed batches. -/
abbrev TxId := Nat

/-- `SimulatedTransaction`. -/
structure SimulatedTransaction where
  rwSet : RwSet
  effects : List Apply
  logs : List Log
  rawTx : IndexedEthereumTransaction
  deriving DecidableEq, Repr

/-- `SimulatedTransaction::id`. -/
def SimulatedTransaction.id (tx : SimulatedTransaction) : TxId := tx.rawTx.id

namespace Graph

/-- `UnitType`. -/
inductive UnitType where
  | read
  | write
  deriving DecidableEq, Repr

/-- A `Unit` of the source: the access of the transaction `tx` to the key `address`. -/
structure TxUnit where
  tx : TxId
  unitType : UnitType
  address : H256
  wrDependencies : Nat
  coLocated : Bool
  deriving DecidableEq, Repr

/-- The fields of a transaction that change during scheduling. -/
structure Cell where
  sequence : Nat := 0
  aborted : Bool := false
  deriving DecidableEq, Repr

/-- The cells of all transactions. -/
abbrev Cells := TxId → Cell

namespace Cells

/-- `Transaction::abort`. -/
def abort (c : Cells) (t : TxId) : Cells := Function.update c t { c t with aborted := true }

/-- `Transaction::set_sequence`. -/
def setSequence (c : Cells) (t : TxId) (sequence : Nat) : Cells :=
  Function.update c t { c t with sequence }

/-- `Transaction::is_sorted`. -/
def isSorted (c : Cells) (t : TxId) : Bool := (c t).sequence != 0 || (c t).aborted

end Cells

/-- `Transaction`, without the two fields that are in `Cells`. -/
structure Transaction where
  txId : TxId
  prevReadKeys : AccessMap
  prevWriteKeys : AccessMap
  writeUnits : List TxUnit
  effects : List Apply
  logs : List Log
  rawTx : IndexedEthereumTransaction
  deriving DecidableEq, Repr

/-- `Transaction::from`. -/
def Transaction.ofSimulated (tx : SimulatedTransaction) : Transaction where
  txId := tx.id
  prevReadKeys := tx.rwSet.readSet
  prevWriteKeys := tx.rwSet.writeSet
  writeUnits := []
  effects := tx.effects
  logs := tx.logs
  rawTx := tx.rawTx

/-- `AbortInfo::read_keys`. -/
def Transaction.readKeys (tx : Transaction) : List H256 := tx.prevReadKeys.keys

/-- `AbortInfo::write_keys`. -/
def Transaction.writeKeys (tx : Transaction) : List H256 := tx.prevWriteKeys.keys

/-- `ReadUnits`. -/
structure ReadUnits where
  units : List TxUnit := []
  maxSeq : Nat := 0
  deriving DecidableEq, Repr

/-- `WriteUnits`. -/
structure WriteUnits where
  units : List TxUnit := []
  maxSeq : Nat := 0
  firstUpdaterFlag : Bool := false
  deriving DecidableEq, Repr

/-- `Address`. -/
structure Address where
  address : H256
  inDegree : Nat := 0
  outDegree : Nat := 0
  readUnits : ReadUnits := {}
  writeUnits : WriteUnits := {}
  firstUpdaterFlag : Bool := false
  deriving DecidableEq, Repr

/-! ## Sorting the units of one address -/

/-- The smallest and the greatest of the sequence numbers, or `1` and `1` if there is none. -/
def minMax : List Nat → Nat × Nat
  | [] => (1, 1)
  | s :: ss => (ss.foldl min s, ss.foldl max s)

/-- The sequence numbers of the live readers that have one. -/
def ReadUnits.liveSequences (ru : ReadUnits) (c : Cells) : List Nat :=
  ((ru.units.filter fun u => c.isSorted u.tx).filter fun u => !(c u.tx).aborted).map
    fun u => (c u.tx).sequence

/-- `ReadUnits::sort`: the readers without a sequence number take the smallest one of the readers
that have one, or `1`. -/
def ReadUnits.sort (ru : ReadUnits) (c : Cells) : ReadUnits × Cells :=
  let sorted := ru.units.filter fun u => c.isSorted u.tx
  let remaining := ru.units.filter fun u => !c.isSorted u.tx
  let range := minMax (ru.liveSequences c)
  ({ units := sorted ++ remaining, maxSeq := range.2 },
    remaining.foldl (fun c u => c.setSequence u.tx range.1) c)

/-- The state of the first loop of `WriteUnits::sort`. -/
structure UpdaterLoop where
  cells : Cells
  maxSeq : Nat
  flag : Bool

/-- One iteration of the first loop of `WriteUnits::sort`: the first live updater is put above every
reader, a second one is aborted. -/
def WriteUnits.updaterStep (l : UpdaterLoop) (u : TxUnit) : UpdaterLoop :=
  if (l.cells u.tx).aborted then l
  else if u.coLocated then
    match l.flag with
    | false => ⟨l.cells.setSequence u.tx (l.maxSeq + 1), l.maxSeq + 1, true⟩
    | true => { l with cells := l.cells.abort u.tx }
  else l

/-- One iteration of the second loop: a live writer below the readers' maximum is aborted. -/
def WriteUnits.abortStep (maxSeq : Nat) (c : Cells) (u : TxUnit) : Cells :=
  if (c u.tx).aborted then c
  else if (c u.tx).sequence < maxSeq then c.abort u.tx
  else c

/-- `while write_seq_set.contains(&write_seq) { write_seq += 1 }`. The loop leaves the set after at
most as many steps as it has elements. -/
def nextFree (used : List Nat) : Nat → Nat → Nat
  | 0, s => s
  | fuel + 1, s => if s ∈ used then nextFree used fuel (s + 1) else s

/-- The state of the third loop of `WriteUnits::sort`. -/
structure AssignLoop where
  cells : Cells
  writeSeq : Nat
  used : List Nat

/-- One iteration of the third loop: a writer without a sequence number takes the next one that no
writer of the address has. -/
def WriteUnits.assignStep (l : AssignLoop) (u : TxUnit) : AssignLoop :=
  let s := nextFree l.used l.used.length l.writeSeq
  ⟨l.cells.setSequence u.tx s, s, s :: l.used⟩

/-- The first loop of `WriteUnits::sort`, over the units whose transaction is sorted. -/
def WriteUnits.updaterLoop (wu : WriteUnits) (ru : ReadUnits) (c : Cells) : UpdaterLoop :=
  (wu.units.filter fun u => c.isSorted u.tx).foldl updaterStep ⟨c, ru.maxSeq, wu.firstUpdaterFlag⟩

/-- `WriteUnits::sort` (with the first-updater rule). -/
def WriteUnits.sort (wu : WriteUnits) (ru : ReadUnits) (c : Cells) :
    WriteUnits × ReadUnits × Cells :=
  let sorted := wu.units.filter fun u => c.isSorted u.tx
  let remaining := wu.units.filter fun u => !c.isSorted u.tx
  let l := wu.updaterLoop ru c
  let c := sorted.foldl (abortStep l.maxSeq) l.cells
  let writeSeq := l.maxSeq + 1
  let a := remaining.foldl assignStep ⟨c, writeSeq, sorted.map fun u => (c u.tx).sequence⟩
  ({ units := sorted ++ remaining, maxSeq := a.writeSeq, firstUpdaterFlag := l.flag },
    { ru with maxSeq := writeSeq }, a.cells)

/-- `sort_read_units` and `sort_write_units` of an address. -/
def Address.sort (a : Address) (c : Cells) : Address × Cells :=
  let r := a.readUnits.sort c
  let w := a.writeUnits.sort r.1 r.2
  ({ a with readUnits := w.2.1, writeUnits := w.1 }, w.2.2)

/-- `Address::add_unit`. -/
def Address.addUnit (a : Address) (u : TxUnit) : Address :=
  match u.unitType with
  | .read =>
    { a with
      inDegree := a.inDegree + u.wrDependencies
      readUnits := { a.readUnits with units := a.readUnits.units ++ [u] } }
  | .write =>
    { a with
      firstUpdaterFlag := a.firstUpdaterFlag || u.coLocated
      outDegree := a.outDegree + u.wrDependencies
      writeUnits := { a.writeUnits with units := a.writeUnits.units ++ [u] } }

/-- A `u32` subtraction that wraps around. -/
def wrappingSub (x y : Nat) : Nat := (x + (2 ^ 32 - y % 2 ^ 32)) % 2 ^ 32

/-- What `Address::merge` does with one of the two unit lists of `other` when both addresses have an
updater: it aborts the transaction of the first co-located unit and moves the in-degree. -/
def Address.unwind (units : List TxUnit) (otherInDegree : Nat) (a : Address) (c : Cells) :
    Address × Cells :=
  match units.find? (·.coLocated) with
  | some u =>
    ({ a with inDegree := wrappingSub (a.inDegree + otherInDegree) u.wrDependencies }, c.abort u.tx)
  | none => (a, c)

/-- `Address::merge`. -/
def Address.merge (a other : Address) (c : Cells) : Address × Cells :=
  if a.firstUpdaterFlag && other.firstUpdaterFlag then
    let r := a.unwind other.readUnits.units other.inDegree c
    r.1.unwind other.writeUnits.units other.inDegree r.2
  else
    ({ a with
        inDegree := a.inDegree + other.inDegree
        outDegree := a.outDegree + other.outDegree
        readUnits := { a.readUnits with units := a.readUnits.units ++ other.readUnits.units }
        writeUnits := { a.writeUnits with units := a.writeUnits.units ++ other.writeUnits.units }
        firstUpdaterFlag := a.firstUpdaterFlag || other.firstUpdaterFlag }, c)

end Graph

open Chase.Graph

/-- `AddressBasedConflictGraph`, with the cells of its transactions. -/
structure AddressBasedConflictGraph where
  addresses : List Address := []
  txList : List Transaction := []
  abortedTxs : List Transaction := []
  cells : Cells := fun _ => {}

namespace AddressBasedConflictGraph

/-- `addresses.get`. -/
def getAddress (addresses : List Address) (key : H256) : Option Address :=
  addresses.find? fun a => a.address = key

/-- Update the address of a key, or insert a new one. -/
def modifyAddress (key : H256) (f : Address → Address) : List Address → List Address
  | [] => [f { address := key }]
  | a :: as => if a.address = key then f a :: as else a :: modifyAddress key f as

/-- `tx_list.insert`. -/
def insertTx (txs : List Transaction) (tx : Transaction) : List Transaction :=
  txs.filter (fun t => t.txId ≠ tx.txId) ++ [tx]

/-! ## Construction -/

/-- `_convert_to_units`. -/
def convertToUnits (tx : TxId) (unitType : UnitType) (set : AccessMap)
    (readSet : Option AccessMap) : List TxUnit :=
  set.flatMap fun c => c.2.map fun e =>
    { tx, unitType, address := e.1, wrDependencies := 0
      coLocated := (readSet.map fun m => m.contains c.1 e.1).getD false }

/-- `_set_wr_dependencies` on the units of one side: a unit gets one dependency for each unit of the
other side at another key. -/
def setWrDependencies (others units : List TxUnit) : List TxUnit :=
  units.map fun u => { u with wrDependencies := others.countP fun o => o.address ≠ u.address }

/-- `_check_updater_already_exist_in_same_address`. -/
def checkUpdaterAlreadyExistInSameAddress (addresses : List Address) (writeUnits : List TxUnit) :
    Bool :=
  (writeUnits.filter (·.coLocated)).any fun u =>
    ((getAddress addresses u.address).map (·.firstUpdaterFlag)).getD false

/-- `_add_units_to_address`. -/
def addUnitsToAddress (addresses : List Address) (units : List TxUnit) : List Address :=
  units.foldl (fun as u => modifyAddress u.address (·.addUnit u) as) addresses

/-- One iteration of `construct`. -/
def constructStep (acg : AddressBasedConflictGraph) (sim : SimulatedTransaction) :
    AddressBasedConflictGraph :=
  let tx := Transaction.ofSimulated sim
  let writeUnits := convertToUnits tx.txId .write sim.rwSet.writeSet (some sim.rwSet.readSet)
  if checkUpdaterAlreadyExistInSameAddress acg.addresses writeUnits then
    { acg with cells := acg.cells.abort tx.txId, abortedTxs := acg.abortedTxs ++ [tx] }
  else
    let readUnits := convertToUnits tx.txId .read sim.rwSet.readSet none
    let writeUnits' := setWrDependencies readUnits writeUnits
    { acg with
      txList := insertTx acg.txList { tx with writeUnits := writeUnits' }
      addresses :=
        addUnitsToAddress
          (addUnitsToAddress acg.addresses (setWrDependencies writeUnits readUnits)) writeUnits' }

/-- `construct`. -/
def construct (simulationResult : List SimulatedTransaction) : AddressBasedConflictGraph :=
  simulationResult.foldl constructStep {}

/-! ## Parallel construction -/

/-- Whether the graph holds the transaction `t`. -/
def holds (acg : AddressBasedConflictGraph) (t : TxId) : Bool :=
  acg.txList.any (·.txId = t) || acg.abortedTxs.any (·.txId = t)

/-- One iteration of `merge`: an address of the other graph is merged into the one of its key. -/
def mergeStep (s : List Address × Cells) (address : Address) : List Address × Cells :=
  match getAddress s.1 address.address with
  | some mine =>
    let r := mine.merge address s.2
    (modifyAddress address.address (fun _ => r.1) s.1, r.2)
  | none => (s.1 ++ [address], s.2)

/-- The cells of the transactions of two graphs. -/
def mergedCells (acg other : AddressBasedConflictGraph) : Cells := fun t =>
  if other.holds t then other.cells t else acg.cells t

/-- `merge`. -/
def merge (acg other : AddressBasedConflictGraph) : AddressBasedConflictGraph :=
  let r := other.addresses.foldl mergeStep (acg.addresses, acg.mergedCells other)
  { addresses := r.1
    txList := other.txList.foldl insertTx acg.txList
    abortedTxs := acg.abortedTxs ++ other.abortedTxs
    cells := r.2 }

/-- The chunks that `par_construct` builds in parallel on a machine with `ncpu` cores. -/
def simulationChunks (ncpu : Nat) (simulationResult : List SimulatedTransaction) :
    List (List SimulatedTransaction) :=
  TreeMerge.chunks (max (simulationResult.length / ncpu) 1) simulationResult.length simulationResult

/-- The chunks are the simulations, in their order. -/
theorem flatten_simulationChunks (ncpu : Nat) (sims : List SimulatedTransaction) :
    (simulationChunks ncpu sims).flatten = sims :=
  TreeMerge.flatten_chunks (Nat.lt_of_lt_of_le Nat.one_pos (Nat.le_max_right _ _)) _ _
    (Nat.le_refl _)

/-- `par_construct` on a machine with `ncpu` cores; `none` is the panic on an empty input. -/
def parConstruct (ncpu : Nat) (simulationResult : List SimulatedTransaction) :
    Option AddressBasedConflictGraph :=
  let subGraphs := (simulationChunks ncpu simulationResult).map construct
  (TreeMerge.rounds merge subGraphs.length subGraphs).head?

/-! ## Sorting and reordering -/

/-- The order of `_address_rank`: in-degree ascending, then out-degree descending, then the key. -/
def rankLe (a b : Address) : Prop :=
  a.inDegree < b.inDegree ∨ a.inDegree = b.inDegree ∧
    (b.outDegree < a.outDegree ∨ a.outDegree = b.outDegree ∧ a.address.toNat ≤ b.address.toNat)

instance : DecidableRel rankLe := fun _ _ => inferInstanceAs (Decidable (_ ∨ _))

/-- `_address_rank`. -/
def addressRank (acg : AddressBasedConflictGraph) : List Address :=
  acg.addresses.insertionSort rankLe

/-- Sort the addresses of a list one after the other. -/
def sortAll : List Address → Cells → List Address × Cells
  | [], c => ([], c)
  | a :: as, c =>
    let r := a.sort c
    let rest := sortAll as r.2
    (r.1 :: rest.1, rest.2)

/-- `hierarchcial_sort`. -/
def hierarchcialSort (acg : AddressBasedConflictGraph) : AddressBasedConflictGraph :=
  let sorted := sortAll acg.addressRank acg.cells
  { acg with addresses := sorted.1, cells := sorted.2 }

/-- `_is_write_only`. -/
def isWriteOnly (tx : Transaction) : Bool :=
  tx.writeUnits.all fun u => u.wrDependencies == 0 && !u.coLocated

/-- `reorderable`. -/
def reorderable (tx : Transaction) : Bool := isWriteOnly tx && decide (tx.writeUnits.length > 1)

/-- `_extract_aborted_txs`: the aborted transactions of both kinds, by id. -/
def extractAbortedTxs (acg : AddressBasedConflictGraph) : List Transaction :=
  (acg.abortedTxs ++ acg.txList.filter fun tx => (acg.cells tx.txId).aborted).insertionSort
    fun a b => a.txId ≤ b.txId

/-- The sequence number that `reorder` gives to a transaction: the greatest one that its addresses
have used. -/
def reorderSequence (addresses : List Address) (tx : Transaction) : Nat :=
  (tx.writeUnits.map fun u =>
    ((getAddress addresses u.address).map fun a =>
      max a.writeUnits.maxSeq a.readUnits.maxSeq).getD 0).foldl max 0

/-- `reorder`. -/
def reorder (acg : AddressBasedConflictGraph) : AddressBasedConflictGraph :=
  let reorderTargets := acg.extractAbortedTxs.filter reorderable
  let aborted := acg.extractAbortedTxs.filter fun tx => !reorderable tx
  let kept := acg.txList.filter fun tx => !(acg.cells tx.txId).aborted
  { acg with
    abortedTxs := aborted
    txList := reorderTargets.foldl insertTx kept
    cells := reorderTargets.foldl
      (fun c tx => c.setSequence tx.txId (reorderSequence acg.addresses tx)) acg.cells }

end AddressBasedConflictGraph

end Chase
