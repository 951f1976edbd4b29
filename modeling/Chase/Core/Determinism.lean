import Chase.Cds.Iteration
import Chase.Core.Partition
import Chase.Graph.Iteration

/-!
# The schedule does not depend on the order of iteration

Between any two functions of the scheduling, the hash maps may turn out in another order
(`AddressBasedConflictGraph.Reordered`), and the read and write sets of the transactions may do so
from the start. All schedules that arise from a list of simulated transactions (`Schedules`) are the
same (`schedules_unique`): `reorder` and the waves sort what they collect from `tx_list` by id, or
by sequence number and id, and the ids are distinct.
-/

namespace Chase

open Chase.Graph AddressBasedConflictGraph

/-! ## Runs with different orders -/

/-- A transaction whose hash maps are iterated in another order. -/
structure Graph.Transaction.Reordered (tx tx' : Transaction) : Prop where
  txId : tx.txId = tx'.txId
  prevReadKeys : tx.prevReadKeys.Reordered tx'.prevReadKeys
  prevWriteKeys : tx.prevWriteKeys.Reordered tx'.prevWriteKeys
  writeUnits : tx.writeUnits = tx'.writeUnits
  effects : tx.effects = tx'.effects
  logs : tx.logs = tx'.logs
  rawTx : tx.rawTx = tx'.rawTx

/-- A graph whose hash maps are iterated in another order. -/
structure AddressBasedConflictGraph.Reordered (g g' : AddressBasedConflictGraph) : Prop where
  addresses : g.addresses.Perm g'.addresses
  txList : ∃ txs, g.txList.Perm txs ∧ List.Forall₂ Transaction.Reordered txs g'.txList
  abortedTxs : List.Forall₂ Transaction.Reordered g.abortedTxs g'.abortedTxs
  cells : g.cells = g'.cells

/-- The results of `construct -> hierarchcial_sort -> reorder -> extract_schedule` for the orders in
which the hash maps may be iterated. -/
def Schedules (sims : List SimulatedTransaction) (result : Except String ScheduledInfo) : Prop :=
  ∃ sims' g₁ g₂ g₃, List.Forall₂ SimulatedTransaction.Reordered sims sims' ∧
    (construct sims').Reordered g₁ ∧ g₁.hierarchcialSort.Reordered g₂ ∧ g₂.reorder.Reordered g₃ ∧
    g₃.extractSchedule = result

/-- An aborted transaction with its keys as sets. -/
def AbortedTransaction.view (tx : AbortedTransaction) :
    IndexedEthereumTransaction × Finset H256 × Finset H256 :=
  (tx.rawTx, tx.prevReadKeys.toFinset, tx.prevWriteKeys.toFinset)

/-- A schedule with the keys of its aborted transactions as sets. -/
def ScheduledInfo.view (s : ScheduledInfo) :
    List (List FinalizedTransaction) × List (List FinalizedTransaction) ×
      List (List (IndexedEthereumTransaction × Finset H256 × Finset H256)) :=
  (s.conflictFreeZone, s.conflictZoneFinalized, s.conflictZoneAborted.map (List.map (·.view)))

theorem Graph.Transaction.Reordered.refl (tx : Transaction) : tx.Reordered tx :=
  ⟨rfl, .refl _, .refl _, rfl, rfl, rfl, rfl⟩

/-- The maps of a graph can be iterated in the order they have. -/
theorem AddressBasedConflictGraph.Reordered.refl (g : AddressBasedConflictGraph) : g.Reordered g :=
  ⟨.refl _, ⟨_, .refl _, List.forall₂_same.2 fun tx _ => .refl tx⟩,
    List.forall₂_same.2 fun tx _ => .refl tx, rfl⟩

/-- The schedule of the transactions in any order of their sets is one of the results. -/
theorem schedules_schedule {sims sims' : List SimulatedTransaction}
    (h : List.Forall₂ SimulatedTransaction.Reordered sims sims') :
    Schedules sims (schedule sims') :=
  ⟨sims', _, _, _, h, .refl _, .refl _, .refl _, rfl⟩

/-! ## Graphs in another order -/

/-- The order of the sets of a transaction is not part of its view. -/
theorem Graph.Transaction.Reordered.view {tx tx' : Transaction} (h : tx.Reordered tx') :
    tx.view = tx'.view := by
  simp only [Transaction.view, Transaction.readKeys, Transaction.writeKeys, h.txId, h.effects,
    h.rawTx, h.writeUnits, toFinset_keys h.prevReadKeys, toFinset_keys h.prevWriteKeys]

/-- Transactions that differ in the order of their sets have the same views. -/
theorem map_view_of_forall₂ {txs txs' : List Transaction}
    (h : List.Forall₂ Transaction.Reordered txs txs') : txs.map (·.view) = txs'.map (·.view) := by
  induction h with
  | nil => rfl
  | cons h _ ih => rw [List.map_cons, List.map_cons, h.view, ih]

/-- A lookup does not depend on the order of the addresses, when each key has one. -/
theorem getAddress_eq_of_perm {as as' : List Address} (h : as.Perm as')
    (hnodup : (as.map (·.address)).Nodup) (k : H256) : getAddress as k = getAddress as' k := by
  have hnodup' : (as'.map (·.address)).Nodup := (h.map _).nodup_iff.1 hnodup
  have hkey : ∀ {as : List Address} {a : Address}, getAddress as k = some a → a.address = k :=
    fun hget => by simpa using List.find?_some hget
  ext a
  constructor
  · intro hget
    rw [← hkey hget]
    exact getAddress_of_mem hnodup' (h.mem_iff.1 (List.mem_of_find?_eq_some hget))
  · intro hget
    rw [← hkey hget]
    exact getAddress_of_mem hnodup (h.mem_iff.2 (List.mem_of_find?_eq_some hget))

section

variable {g g' g'' : AddressBasedConflictGraph}

/-- A graph whose maps are iterated in another order is the same graph. -/
theorem AddressBasedConflictGraph.Reordered.same (h : g.Reordered g')
    (hnodup : (g.addresses.map (·.address)).Nodup) : SameGraph g g' := by
  obtain ⟨txs, hperm, htxs⟩ := h.txList
  refine ⟨hnodup, (h.addresses.map _).nodup_iff.1 hnodup, getAddress_eq_of_perm h.addresses hnodup,
    ?_, map_view_of_forall₂ h.abortedTxs, h.cells⟩
  rw [← map_view_of_forall₂ htxs]
  exact hperm.map _

/-- Being the same graph is symmetric. -/
theorem SameGraph.symm (h : SameGraph g g') : SameGraph g' g :=
  ⟨h.nodup', h.nodup, fun k => (h.lookup k).symm, h.txList.symm, h.abortedTxs.symm, h.cells.symm⟩

/-- Being the same graph is transitive. -/
theorem SameGraph.trans (h : SameGraph g g') (h' : SameGraph g' g'') : SameGraph g g'' :=
  ⟨h.nodup, h'.nodup', fun k => (h.lookup k).trans (h'.lookup k), h.txList.trans h'.txList,
    h.abortedTxs.trans h'.abortedTxs, h.cells.trans h'.cells⟩

/-- Reordering both of two equal graphs. -/
theorem SameGraph.reordered {g₁ g₁' : AddressBasedConflictGraph} (h : SameGraph g g')
    (h₁ : g.Reordered g₁) (h₁' : g'.Reordered g₁') : SameGraph g₁ g₁' :=
  ((h₁.same h.nodup).symm.trans h).trans (h₁'.same h.nodup')

/-! ## Reordering -/

/-- The ids of the transactions are distinct. -/
def AddressBasedConflictGraph.Distinct (g : AddressBasedConflictGraph) : Prop :=
  ((g.txList ++ g.abortedTxs).map (·.txId)).Nodup

/-- The view keeps the ids. -/
theorem map_view_txId (txs : List Transaction) :
    (txs.map (·.view)).map (·.txId) = txs.map (·.txId) := by
  rw [List.map_map]
  rfl

/-- The same graph has the same ids, so they stay distinct. -/
theorem SameGraph.distinct (h : SameGraph g g') (hd : g.Distinct) : g'.Distinct := by
  have hperm : ((g.txList ++ g.abortedTxs).map (·.view)).Perm
      ((g'.txList ++ g'.abortedTxs).map (·.view)) := by
    rw [List.map_append, List.map_append, h.abortedTxs]
    exact h.txList.append_right _
  rw [AddressBasedConflictGraph.Distinct, ← map_view_txId] at hd ⊢
  exact (hperm.map _).nodup_iff.1 hd

theorem txId_eq_of_view {tx tx' : Transaction} (h : tx.view = tx'.view) : tx.txId = tx'.txId :=
  congrArg TxView.txId h

theorem aborted_factorsThrough (c : Cells) :
    Function.FactorsThrough (fun tx : Transaction => (c tx.txId).aborted) Transaction.view :=
  fun _ _ h => congrArg (fun v => (c v.txId).aborted) h

/-- Whether a transaction is reordered depends on its view only. -/
theorem reorderable_factorsThrough : Function.FactorsThrough reorderable Transaction.view := by
  intro tx tx' h
  have hunits : tx.writeUnits.Perm tx'.writeUnits :=
    Multiset.coe_eq_coe.1 (congrArg TxView.writeUnits h)
  rw [reorderable, reorderable, isWriteOnly, isWriteOnly, hunits.all_eq, hunits.length_eq]

/-- The transactions that `extract_schedule` puts in the order of their ids have distinct ids. -/
theorem AddressBasedConflictGraph.Distinct.abortCandidates (hd : g.Distinct) :
    ((g.abortedTxs ++ g.txList.filter fun tx => (g.cells tx.txId).aborted).map (·.txId)).Nodup := by
  have hsub : (g.abortedTxs ++ g.txList.filter fun tx => (g.cells tx.txId).aborted).Subperm
      (g.txList ++ g.abortedTxs) :=
    (List.filter_sublist.append_left _).subperm.trans List.perm_append_comm.subperm
  obtain ⟨l, hperm, hl⟩ := hsub
  exact (hperm.map _).nodup_iff.1 (hd.sublist (hl.map _))

/-- `_extract_aborted_txs` sorts by id. -/
theorem SameGraph.extractAbortedTxs (h : SameGraph g g') (hd : g.Distinct) :
    g.extractAbortedTxs.map (·.view) = g'.extractAbortedTxs.map (·.view) := by
  rw [AddressBasedConflictGraph.extractAbortedTxs, AddressBasedConflictGraph.extractAbortedTxs,
    ← h.cells]
  refine Views.map_insertionSort_eq (fun a a' b b' ha hb hab => ?_) (fun a ha b hb hab hba => ?_) ?_
  · rwa [← txId_eq_of_view ha, ← txId_eq_of_view hb]
  · rw [List.inj_on_of_nodup_map hd.abortCandidates ha hb (Nat.le_antisymm hab hba)]
  · rw [List.map_append, List.map_append, h.abortedTxs]
    exact (Views.map_filter_perm (aborted_factorsThrough g.cells) h.txList).append_left _

/-- The same graph has the same transactions to reorder. -/
theorem SameGraph.reorderTargets (h : SameGraph g g') (hd : g.Distinct) :
    (reorderTargets g).map (·.view) = (reorderTargets g').map (·.view) :=
  Views.map_filter_eq reorderable_factorsThrough (h.extractAbortedTxs hd)

/-- The sequence numbers that `reorder` gives are maxima over the addresses of a transaction. -/
theorem SameGraph.reorderSequence (h : SameGraph g g') {tx tx' : Transaction}
    (hview : tx.view = tx'.view) :
    reorderSequence g.addresses tx = reorderSequence g'.addresses tx' := by
  have hunits : tx.writeUnits.Perm tx'.writeUnits :=
    Multiset.coe_eq_coe.1 (congrArg TxView.writeUnits hview)
  simp only [AddressBasedConflictGraph.reorderSequence, h.lookup]
  exact (hunits.map _).foldl_eq 0

/-- `reorder` takes the same graph to the same graph. -/
theorem SameGraph.reorder (h : SameGraph g g') (hd : g.Distinct) :
    SameGraph g.reorder g'.reorder := by
  refine ⟨h.nodup, h.nodup', h.lookup, ?_, ?_, ?_⟩
  · rw [txList_reorder hd, txList_reorder (h.distinct hd), List.map_append, List.map_append,
      h.reorderTargets hd, live, live, ← h.cells]
    exact (Views.map_filter_perm (Views.factorsThrough_not (aborted_factorsThrough g.cells))
      h.txList).append_right _
  · exact Views.map_filter_eq (Views.factorsThrough_not reorderable_factorsThrough)
      (h.extractAbortedTxs hd)
  · have hcells : ∀ g : AddressBasedConflictGraph, g.reorder.cells =
        ((Graph.reorderTargets g).map fun tx =>
          (tx.txId, AddressBasedConflictGraph.reorderSequence g.addresses tx)).foldl
            (fun c p => c.setSequence p.1 p.2) g.cells := fun g => by
      rw [List.foldl_map]
      rfl
    rw [hcells, hcells, h.cells]
    refine congrArg (List.foldl _ _) (Views.map_eq_of_map_eq (h.reorderTargets hd) ?_)
    intro tx _ tx' _ hview
    rw [h.reorderSequence hview, txId_eq_of_view hview]

/-! ## The schedule -/

/-- Two transactions that stand before each other in the order of the waves have the same id. -/
theorem waveLe_antisymm {c : Cells} {a b : Transaction} (hab : Cds.waveLe c a b)
    (hba : Cds.waveLe c b a) : a.txId = b.txId := by
  rcases hab with hab | ⟨hab, hle⟩ <;> rcases hba with hba | ⟨hba, hle'⟩
  · exact absurd hba hab.not_gt
  · exact absurd hab (hba ▸ Nat.lt_irrefl _)
  · exact absurd hba (hab ▸ Nat.lt_irrefl _)
  · exact Nat.le_antisymm hle hle'

/-- `group_by_sequence` sorts by sequence number and id. -/
theorem map_view_groupBySequence (c : Cells) {txs txs' : List Transaction}
    (h : (txs.map (·.view)).Perm (txs'.map (·.view))) (hnodup : (txs.map (·.txId)).Nodup) :
    (Cds.groupBySequence c txs).map (List.map (·.view)) =
      (Cds.groupBySequence c txs').map (List.map (·.view)) := by
  have hsplit : ∀ txs : List Transaction, (txs.splitBy fun a b =>
      (c a.txId).sequence == (c b.txId).sequence).map (List.map (·.view)) =
        (txs.map (·.view)).splitBy fun v w => (c v.txId).sequence == (c w.txId).sequence :=
    Views.map_splitBy fun _ _ => rfl
  rw [Cds.groupBySequence, Cds.groupBySequence, hsplit, hsplit]
  refine congrArg _ (Views.map_insertionSort_eq (fun a a' b b' ha hb hab => ?_)
    (fun a ha b hb hab hba => ?_) h)
  · rwa [Cds.waveLe, ← txId_eq_of_view ha, ← txId_eq_of_view hb]
  · rw [List.inj_on_of_nodup_map hnodup ha hb (waveLe_antisymm hab hba)]

section

variable (c : Cells) {txs txs' : List Transaction}

/-- The first wave of the same groups is the same. -/
theorem map_view_firstEpochTxs (h : (Cds.groupBySequence c txs).map (List.map (·.view)) =
      (Cds.groupBySequence c txs').map (List.map (·.view))) :
    (firstEpochTxs c txs).map (·.view) = (firstEpochTxs c txs').map (·.view) := by
  have hhead : ∀ waves : List (List Transaction), (waves.head?.getD []).map (·.view) =
      ((waves.map (List.map (·.view))).head?).getD [] := fun waves => by cases waves <;> rfl
  rw [firstEpochTxs, firstEpochTxs, hhead, hhead, h]

/-- The waves after the first one of the same groups are the same. -/
theorem map_view_seq2plusTxs (h : (Cds.groupBySequence c txs).map (List.map (·.view)) =
      (Cds.groupBySequence c txs').map (List.map (·.view))) :
    (seq2plusTxs c txs).map (·.view) = (seq2plusTxs c txs').map (·.view) := by
  rw [seq2plusTxs, seq2plusTxs, List.map_flatten, List.map_flatten, List.map_tail, List.map_tail, h]

end

section

variable {txs txs' : List Transaction} (h : txs.map (·.view) = txs'.map (·.view))

include h

/-- The scheduler gets the same keys from transactions with the same views. -/
theorem map_view_fromTransaction :
    (Cds.sortById (txs.map Cds.TxWithKeys.fromTransaction)).map (·.view id) =
      (Cds.sortById (txs'.map Cds.TxWithKeys.fromTransaction)).map (·.view id) := by
  refine Cds.map_view_sortById ?_
  rw [List.map_map, List.map_map]
  refine Views.map_eq_of_map_eq h fun tx _ tx' _ hview => ?_
  exact congrArg (fun v : TxView => (v.txId, v.readKeys, v.writeKeys,
    (⟨v.txId, v.effects⟩ : FinalizedTransaction))) hview

/-- `extract_conflict_free_chains` depends on the views only. -/
theorem extractConflictFreeChains_eq :
    Cds.extractConflictFreeChains txs = Cds.extractConflictFreeChains txs' := by
  have hview := map_view_fromTransaction h
  have hpayload := congrArg (List.map (·.2.2.2)) hview
  rw [List.map_map, List.map_map] at hpayload
  rw [Cds.extractConflictFreeChains, Cds.extractConflictFreeChains,
    Cds.buildConflictFreeChainIndices_eq hview]
  simp only [← List.getElem?_map]
  exact congrArg (fun payloads : List FinalizedTransaction =>
    (Cds.buildConflictFreeChainIndices (Cds.sortById (txs'.map Cds.TxWithKeys.fromTransaction))).map
      fun chains => chains.map fun chain => chain.filterMap fun i => payloads[i]?) hpayload

theorem scheduleConflictZoneFinalized_eq :
    Cds.scheduleConflictZoneFinalized txs = Cds.scheduleConflictZoneFinalized txs' :=
  Cds.map_payload_placeIntoEpochs (map_view_fromTransaction h)

/-- `schedule_conflict_zone_aborted` depends on the views only, and returns the transactions. -/
theorem scheduleConflictZoneAborted_eq :
    (Cds.scheduleConflictZoneAborted txs).map (List.map (·.view)) =
      (Cds.scheduleConflictZoneAborted txs').map (List.map (·.view)) := by
  have hfrom : (txs.map fun tx => Cds.TxWithKeys.fromAborted tx.toAborted).map
      (·.view AbortedTransaction.view) =
        (txs'.map fun tx => Cds.TxWithKeys.fromAborted tx.toAborted).map
          (·.view AbortedTransaction.view) := by
    rw [List.map_map, List.map_map]
    refine Views.map_eq_of_map_eq h fun tx _ tx' _ hview => ?_
    exact congrArg (fun v : TxView => (v.rawTx.id, v.readKeys, v.writeKeys, v.rawTx, v.readKeys,
      v.writeKeys)) hview
  have hview := Cds.map_payload_placeIntoEpochs (Cds.map_view_sortById hfrom)
  simpa only [Cds.scheduleConflictZoneAborted, List.map_map, Function.comp_def] using hview

end

/-- `extract_schedule` gives the same graph the same schedule. -/
theorem SameGraph.extractSchedule (h : SameGraph g g') (hd : g.Distinct) :
    g.extractSchedule.map (·.view) = g'.extractSchedule.map (·.view) := by
  have hnodup : (g.txList.map (·.txId)).Nodup := hd.sublist ((List.sublist_append_left _ _).map _)
  have hwaves := map_view_groupBySequence g.cells h.txList hnodup
  rw [AddressBasedConflictGraph.extractSchedule, AddressBasedConflictGraph.extractSchedule,
    ScheduledInfo.buildCdsSchedule, ScheduledInfo.buildCdsSchedule, ← h.cells,
    extractConflictFreeChains_eq (map_view_firstEpochTxs g.cells hwaves),
    scheduleConflictZoneFinalized_eq (map_view_seq2plusTxs g.cells hwaves)]
  cases Cds.extractConflictFreeChains (firstEpochTxs g.cells g'.txList) with
  | error message => rfl
  | ok chains =>
    simp only [Except.map, ScheduledInfo.view, scheduleConflictZoneAborted_eq h.abortedTxs]

end

/-- **The order of iteration does not matter**: all schedules of simulated transactions with
distinct ids have the same chains and the same epochs, in the same order. -/
theorem schedules_unique (sims : List SimulatedTransaction) (hid : (sims.map (·.id)).Nodup)
    (result result' : Except String ScheduledInfo) (h : Schedules sims result)
    (h' : Schedules sims result') : result.map (·.view) = result'.map (·.view) := by
  obtain ⟨sims₁, g₁, g₂, g₃, hsims, h₁, h₂, h₃, rfl⟩ := h
  obtain ⟨sims₁', g₁', g₂', g₃', hsims', h₁', h₂', h₃', rfl⟩ := h'
  -- the two runs have the same graph after every function
  have hconstruct : SameGraph (construct sims₁) (construct sims₁') :=
    (construct_same hsims).symm.trans (construct_same hsims')
  have hd₁ : (construct sims₁).Distinct := (construct_same hsims).distinct
    ((construct_covers hid).nodup hid)
  have hsame₁ := hconstruct.reordered h₁ h₁'
  have hd₁ : g₁.Distinct := (h₁.same hconstruct.nodup).distinct hd₁
  have hsame₂ := hsame₁.hierarchcialSort.reordered h₂ h₂'
  have hd₂ : g₂.Distinct := (h₂.same hsame₁.hierarchcialSort.nodup).distinct hd₁
  have hreorder := hsame₂.reorder hd₂
  have hd₃ : g₂.reorder.Distinct := ((reorder_perm hd₂).map _).nodup_iff.2 hd₂
  exact (hreorder.reordered h₃ h₃').extractSchedule ((h₃.same hreorder.nodup).distinct hd₃)

namespace FirstPassFixture

/-- The transaction with its sets in the reverse order. -/
def reversed (sim : SimulatedTransaction) : SimulatedTransaction :=
  { sim with
    rwSet := ⟨sim.rwSet.readSet.map fun c => (c.1, c.2.reverse),
      sim.rwSet.writeSet.map fun c => (c.1, c.2.reverse)⟩ }

/-- A simulation with its sets reversed is one with its sets in another order. -/
theorem reordered_reversed (sims : List SimulatedTransaction) :
    List.Forall₂ SimulatedTransaction.Reordered sims (sims.map reversed) := by
  have hmap : ∀ m : AccessMap, m.Reordered (m.map fun c => (c.1, c.2.reverse)) := fun m =>
    List.forall₂_map_right_iff.2
      (List.forall₂_same.2 fun c _ => ⟨rfl, (List.reverse_perm c.2).symm⟩)
  exact List.forall₂_map_right_iff.2
    (List.forall₂_same.2 fun sim _ => ⟨rfl, rfl, rfl, hmap _, hmap _⟩)

/-- Two updaters of the slot `5`, which both access other slots. -/
def severalSlots : List SimulatedTransaction :=
  [sim 0 [9] [], sim 1 [5, 6] [5, 7], sim 2 [5] [8, 5]]

/-- A batch whose sets are reversed has the schedule it had. -/
theorem schedules_unique_reversed :
    severalSlots.map reversed ≠ severalSlots ∧
      (schedule severalSlots).map (·.view) =
        (schedule (severalSlots.map reversed)).map (·.view) := by
  refine ⟨by decide, schedules_unique severalSlots (by decide) _ _ (schedules_schedule ?_)
    (schedules_schedule (reordered_reversed severalSlots))⟩
  exact List.forall₂_same.2 fun sim _ => ⟨rfl, rfl, rfl, .refl _, .refl _⟩

end FirstPassFixture

end Chase
