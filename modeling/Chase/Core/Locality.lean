import Chase.Core.Accounts
import Chase.Core.Degrees
import Chase.Core.Determinism
import Chase.Graph.Alike
import Chase.Seer.Simulator

/-!
# The locality order

With the locality option, `_simulate` orders the transactions by the contract that they call before
it simulates them (`order_for_contract_locality`), and the conflict graph is built from the results
in this order. Two functions of the scheduling go by the order of the list: the first updater of a
slot is the one that `construct` keeps, and `WriteUnits::sort` numbers the blind writers of a slot,
which have no sequence number yet, one after the other. So the schedule may be another one when the
option puts two such transactions the other way round (`schedule_differs_by_locality`). Where both
orders choose the same updaters and keep the order of the chosen blind writers (`SameChoice`), they
build graphs that differ in nothing that is read later (`Permuted`), and the schedules are equal
(`schedule_orderForContractLocality`).
-/

namespace Chase

open Chase.Graph AddressBasedConflictGraph FirstWins

/-! ## Graphs of the same transactions -/

/-- Two graphs of the same transactions, which came in two orders. -/
structure Permuted (g g' : AddressBasedConflictGraph) : Prop where
  nodup : (g.addresses.map (·.address)).Nodup
  nodup' : (g'.addresses.map (·.address)).Nodup
  keys : (g.addresses.map (·.address)).Perm (g'.addresses.map (·.address))
  alike : ∀ k, (addressAt g.addresses k).Alike (addressAt g'.addresses k)
  txList : g.txList.Perm g'.txList
  abortedTxs : g.abortedTxs.Perm g'.abortedTxs
  cells : g.cells = g'.cells

/-- Two graphs of the same transactions after `hierarchcial_sort`. -/
structure SortedAlike (g g' : AddressBasedConflictGraph) : Prop where
  sequences : ∀ tx, reorderSequence g.addresses tx = reorderSequence g'.addresses tx
  txList : g.txList.Perm g'.txList
  abortedTxs : g.abortedTxs.Perm g'.abortedTxs
  cells : g.cells = g'.cells

/-- The addresses by their keys. -/
theorem map_addressAt {as : List Address} (h : (as.map (·.address)).Nodup) :
    (as.map (·.address)).map (addressAt as) = as := by
  rw [List.map_map]
  refine (List.map_congr_left fun a ha => ?_).trans (List.map_id as)
  rw [Function.comp_apply, addressAt, getAddress_of_mem h ha]
  rfl

section

variable {g g' : AddressBasedConflictGraph}

/-- `_address_rank` puts the keys into the same order. -/
theorem Permuted.exists_ranked (h : Permuted g g') :
    ∃ ranked : List H256, g.addressRank = ranked.map (addressAt g.addresses) ∧
      g'.addressRank = ranked.map (addressAt g'.addresses) := by
  let keyLe (k l : H256) : Prop := rankLe (addressAt g.addresses k) (addressAt g.addresses l)
  have : DecidableRel keyLe := fun _ _ => inferInstanceAs (Decidable (rankLe _ _))
  refine ⟨(g'.addresses.map (·.address)).insertionSort keyLe, ?_, ?_⟩
  · have hperm : g.addresses.Perm ((g'.addresses.map (·.address)).map (addressAt g.addresses)) := by
      conv_lhs => rw [← map_addressAt h.nodup]
      exact h.keys.map _
    rw [List.map_insertionSort keyLe rankLe _ _ fun _ _ _ _ => Iff.rfl]
    refine Views.insertionSort_eq_of_perm (fun a ha b hb hab hba => ?_) hperm
    refine eq_of_address_eq h.nodup ha hb (BitVec.eq_of_toNat_eq ?_)
    unfold rankLe at hab hba
    omega
  · have hrank : ∀ k l, keyLe k l ↔ rankLe (addressAt g'.addresses k)
        (addressAt g'.addresses l) := by
      intro k l
      simp only [keyLe, rankLe, (h.alike k).address, (h.alike k).inDegree, (h.alike k).outDegree,
        (h.alike l).address, (h.alike l).inDegree, (h.alike l).outDegree]
    rw [List.map_insertionSort keyLe rankLe _ _ fun k _ l _ => hrank k l, map_addressAt h.nodup']
    rfl

/-- The sort takes graphs of the same transactions to graphs that are sorted alike. -/
theorem Permuted.hierarchcialSort (h : Permuted g g') :
    SortedAlike g.hierarchcialSort g'.hierarchcialSort := by
  obtain ⟨ranked, hranked, hranked'⟩ := h.exists_ranked
  have halike : List.Forall₂ Address.Alike g.addressRank g'.addressRank := by
    rw [hranked, hranked']
    exact List.forall₂_map_left_iff.2
      (List.forall₂_map_right_iff.2 (List.forall₂_same.2 fun k _ => h.alike k))
  obtain ⟨hcells, hmaxima⟩ := sortAll_alike halike g.cells
  rw [AddressBasedConflictGraph.hierarchcialSort, AddressBasedConflictGraph.hierarchcialSort,
    ← h.cells]
  exact ⟨reorderSequence_eq hmaxima, h.txList, h.abortedTxs, hcells⟩

theorem SortedAlike.distinct (h : SortedAlike g g') (hd : g.Distinct) : g'.Distinct :=
  ((h.txList.append h.abortedTxs).map _).nodup_iff.1 hd

/-- `_extract_aborted_txs` sorts by id. -/
theorem SortedAlike.extractAbortedTxs (h : SortedAlike g g') (hd : g.Distinct) :
    g.extractAbortedTxs = g'.extractAbortedTxs := by
  rw [AddressBasedConflictGraph.extractAbortedTxs, AddressBasedConflictGraph.extractAbortedTxs,
    ← h.cells]
  refine Views.insertionSort_eq_of_perm (fun a ha b hb hab hba => ?_)
    (h.abortedTxs.append (h.txList.filter _))
  exact List.inj_on_of_nodup_map (Distinct.abortCandidates hd) ha hb (Nat.le_antisymm hab hba)

/-- `reorder` takes graphs that are sorted alike to the same transactions. -/
theorem SortedAlike.reorder (h : SortedAlike g g') (hd : g.Distinct) :
    g.reorder.txList.Perm g'.reorder.txList ∧ g.reorder.abortedTxs = g'.reorder.abortedTxs ∧
      g.reorder.cells = g'.reorder.cells := by
  have htargets : reorderTargets g = reorderTargets g' :=
    congrArg (List.filter reorderable) (h.extractAbortedTxs hd)
  refine ⟨?_, ?_, ?_⟩
  · rw [txList_reorder hd, txList_reorder (h.distinct hd), htargets, live, live, ← h.cells]
    exact (h.txList.filter _).append_right _
  · exact congrArg (List.filter fun tx => !reorderable tx) (h.extractAbortedTxs hd)
  · have hstep : (fun (c : Cells) tx => c.setSequence tx.txId (reorderSequence g.addresses tx)) =
        fun (c : Cells) tx => c.setSequence tx.txId (reorderSequence g'.addresses tx) := by
      funext c tx
      rw [h.sequences]
    change (reorderTargets g).foldl _ g.cells = (reorderTargets g').foldl _ g'.cells
    rw [htargets, h.cells, hstep]

/-- `group_by_sequence` sorts by sequence number and id. -/
theorem groupBySequence_perm (c : Cells) {txs txs' : List Transaction} (h : txs.Perm txs')
    (hnodup : (txs.map (·.txId)).Nodup) :
    Cds.groupBySequence c txs = Cds.groupBySequence c txs' := by
  rw [Cds.groupBySequence, Cds.groupBySequence]
  refine congrArg _ (Views.insertionSort_eq_of_perm (fun a ha b hb hab hba => ?_) h)
  exact List.inj_on_of_nodup_map hnodup ha hb (waveLe_antisymm hab hba)

/-- Graphs that are sorted alike have the same schedule. -/
theorem SortedAlike.schedule (h : SortedAlike g g') (hd : g.Distinct) :
    g.reorder.extractSchedule = g'.reorder.extractSchedule := by
  obtain ⟨htxList, haborted, hcells⟩ := h.reorder hd
  have hd' : g.reorder.Distinct := ((reorder_perm hd).map _).nodup_iff.2 hd
  have hnodup := hd'.sublist ((List.sublist_append_left _ _).map _)
  rw [extractSchedule, extractSchedule, ScheduledInfo.buildCdsSchedule,
    ScheduledInfo.buildCdsSchedule, firstEpochTxs, firstEpochTxs, seq2plusTxs, seq2plusTxs,
    ← hcells, ← haborted, groupBySequence_perm g.reorder.cells htxList hnodup]

end

/-! ## Construction -/

/-- The transaction writes the slot `k` without reading it. -/
def BlindlyWrites (sim : SimulatedTransaction) (k : H256) : Prop :=
  k ∈ sim.rwSet.writeKeys ∧ k ∉ sim.rwSet.readKeys

instance (k : H256) : DecidablePred (BlindlyWrites · k) := fun _ =>
  inferInstanceAs (Decidable (_ ∧ _))

/-- Two transactions that write a common slot blindly are in the order of their ids. -/
def BlindOrdered (sims : List SimulatedTransaction) : Prop :=
  sims.Pairwise fun x y => (∃ k, BlindlyWrites x k ∧ BlindlyWrites y k) → x.id < y.id

section

variable {kept kept' : List SimulatedTransaction} {as as' : List Address}

theorem Graph.Collects.readUnits (h : Collects kept as) (k : H256) :
    (addressAt as k).readUnits.units = (kept.flatMap (unitsOf · .read)).filter (·.address = k) :=
  h.units k .read

theorem Graph.Collects.writeUnits (h : Collects kept as) (k : H256) :
    (addressAt as k).writeUnits.units = (kept.flatMap (unitsOf · .write)).filter (·.address = k) :=
  h.units k .write

/-- The readers of an address are the transactions that read its key. -/
theorem Graph.Collects.reads_iff (h : Collects kept as) (hid : (kept.map (·.id)).Nodup)
    {sim : SimulatedTransaction} (hsim : sim ∈ kept) (k : H256) :
    (addressAt as k).Reads sim.id ↔ k ∈ sim.rwSet.readKeys := by
  simp only [Address.Reads, h.readUnits, List.mem_filter, List.mem_flatMap, decide_eq_true_eq]
  constructor
  · rintro ⟨u, ⟨⟨sim', hsim', hu⟩, rfl⟩, htx⟩
    obtain ⟨htx', -, hkey⟩ := of_mem_unitsOf hu
    rwa [List.inj_on_of_nodup_map hid hsim' hsim (htx'.symm.trans htx)] at hkey
  · intro hk
    have hk : k ∈ (accessMap sim .read).keys := hk
    obtain ⟨u, hu, hkey⟩ := exists_mem_unitsOf hk
    exact ⟨u, ⟨⟨sim, hsim, hu⟩, hkey⟩, (of_mem_unitsOf hu).1⟩

/-- A filter before a `flatMap` is a test in it. -/
theorem flatMap_filter_eq {α β : Type} (p : α → Bool) (f : α → List β) (l : List α) :
    (l.filter p).flatMap f = l.flatMap fun a => if p a then f a else [] := by
  induction l with
  | nil => rfl
  | cons a l ih =>
    rw [List.flatMap_cons, ← ih]
    cases hp : p a with
    | true => rw [List.filter_cons_of_pos hp, List.flatMap_cons, if_pos rfl]
    | false =>
      rw [List.filter_cons_of_neg (by simp [hp]), if_neg Bool.false_ne_true, List.nil_append]

/-- The units of the blind writers of a key come from the transactions that write it blindly. -/
theorem Graph.Collects.blindUnits (h : Collects kept as) (hid : (kept.map (·.id)).Nodup)
    (k : H256) :
    (addressAt as k).writeUnits.units.filter (fun u => ¬(addressAt as k).Reads u.tx) =
      (kept.filter (BlindlyWrites · k)).flatMap fun sim =>
        (unitsOf sim .write).filter (·.address = k) := by
  rw [h.writeUnits, List.filter_flatMap, List.filter_flatMap, flatMap_filter_eq]
  refine List.flatMap_congr fun sim hsim => ?_
  by_cases hblind : BlindlyWrites sim k
  · rw [if_pos (decide_eq_true hblind)]
    refine List.filter_eq_self.2 fun u hu => ?_
    rw [(of_mem_unitsOf (List.mem_of_mem_filter hu)).1, decide_eq_true_eq, h.reads_iff hid hsim]
    exact hblind.2
  · rw [if_neg (by simpa using hblind)]
    refine List.filter_eq_nil_iff.2 fun u hu => ?_
    obtain ⟨hu, hkey⟩ := List.mem_filter.1 hu
    obtain ⟨htx, -, hwrites⟩ := of_mem_unitsOf hu
    rw [htx, decide_eq_true_eq, h.reads_iff hid hsim]
    exact fun hreads => hblind ⟨of_decide_eq_true hkey ▸ hwrites, hreads⟩

/-- The blind writers of a key are in the order of their ids. -/
theorem filter_blindlyWrites_eq (hperm : kept.Perm kept') (hordered : BlindOrdered kept)
    (hordered' : BlindOrdered kept') (k : H256) :
    kept.filter (BlindlyWrites · k) = kept'.filter (BlindlyWrites · k) := by
  have hsorted : ∀ {kept : List SimulatedTransaction}, BlindOrdered kept →
      (kept.filter (BlindlyWrites · k)).Pairwise fun x y => x.id < y.id := by
    intro kept hordered
    refine (hordered.sublist List.filter_sublist).imp_of_mem fun {x y} hx hy hlt => ?_
    exact hlt ⟨k, of_decide_eq_true (List.mem_filter.1 hx).2,
      of_decide_eq_true (List.mem_filter.1 hy).2⟩
  refine (hperm.filter _).eq_of_pairwise (fun x y _ _ hxy hyx => ?_) (hsorted hordered)
    (hsorted hordered')
  exact absurd hxy (Nat.lt_asymm hyx)

/-- A co-located unit is one of a transaction that updates the key. -/
theorem Graph.Collects.updater (h : Collects kept as) {k : H256} {u : TxUnit}
    (hu : u ∈ (addressAt as k).writeUnits.units) (hco : u.coLocated = true) :
    ∃ sim ∈ kept, u.tx = sim.id ∧ k ∈ updatedKeys sim := by
  rw [h.writeUnits] at hu
  obtain ⟨hu, hkey⟩ := List.mem_filter.1 hu
  obtain ⟨sim, hsim, hu⟩ := List.mem_flatMap.1 hu
  refine ⟨sim, hsim, (of_mem_unitsOf hu).1, ?_⟩
  rw [← map_address_filter_coLocated, ← of_decide_eq_true hkey]
  exact List.mem_map_of_mem (List.mem_filter.2 ⟨hu, hco⟩)

/-- Added units keep the key of the address. -/
theorem address_foldl_addUnit (us : List TxUnit) (a : Address) :
    (us.foldl Address.addUnit a).address = a.address := by
  induction us generalizing a with
  | nil => rfl
  | cons u us ih => rw [List.foldl_cons, ih, Address.addUnit_address]

/-- The address of a key is exact, also where it is a new one. -/
theorem Graph.Address.Exact.addressAt {as : List Address} (h : ∀ a ∈ as, a.Exact) (k : H256) :
    (addressAt as k).Exact := by
  rw [Graph.addressAt]
  cases hget : getAddress as k with
  | none => exact ⟨rfl, rfl⟩
  | some a => exact h a (List.mem_of_find?_eq_some hget)

/-- The addresses of a key are alike when the transactions came in two orders. -/
theorem Graph.Collects.alike (h : Collects kept as) (h' : Collects kept' as')
    (hexact : ∀ a ∈ as, a.Exact) (hexact' : ∀ a ∈ as', a.Exact) (hperm : kept.Perm kept')
    (hid : (kept.map (·.id)).Nodup) (hclash : kept.Pairwise fun x y => ¬UpdateClash x y)
    (hordered : BlindOrdered kept) (hordered' : BlindOrdered kept') (k : H256) :
    (addressAt as k).Alike (addressAt as' k) := by
  have hunits : ∀ type, ((addressAt as k).units type).Perm ((addressAt as' k).units type) := by
    intro type
    rw [h.units, h'.units]
    exact (hperm.flatMap_right _).filter _
  have hid' : (kept'.map (·.id)).Nodup := (hperm.map _).nodup_iff.1 hid
  have hdegrees : ∀ {us us' : List TxUnit}, us.Perm us' → degrees us = degrees us' :=
    fun hus => (hus.map _).sum_nat
  refine ⟨?_, ?_, ?_, ?_, hunits .read, hunits .write, fun u hu v hv hco hco' => ?_, ?_⟩
  · rw [h k, h' k, address_foldl_addUnit, address_foldl_addUnit]
  · rw [(Address.Exact.addressAt hexact k).inDegree, (Address.Exact.addressAt hexact' k).inDegree]
    exact hdegrees (hunits .read)
  · rw [(Address.Exact.addressAt hexact k).outDegree, (Address.Exact.addressAt hexact' k).outDegree]
    exact hdegrees (hunits .write)
  · rw [h k, h' k, sortFlag_foldl_addUnit, sortFlag_foldl_addUnit]
  · obtain ⟨sim, hsim, htx, hk⟩ := h.updater hu hco
    obtain ⟨sim', hsim', htx', hk'⟩ := h.updater hv hco'
    by_cases hsame : sim = sim'
    · rw [htx, htx', hsame]
    · exact absurd ⟨k, hk, hk'⟩ (hclash.forall hsim hsim' hsame)
  · rw [h.blindUnits hid, h'.blindUnits hid', filter_blindlyWrites_eq hperm hordered hordered']

end

/-- Added units add their keys. -/
theorem mem_address_addUnitsToAddress {as : List Address} {us : List TxUnit} {k : H256} :
    k ∈ (addUnitsToAddress as us).map (·.address) ↔
      k ∈ as.map (·.address) ∨ ∃ u ∈ us, u.address = k := by
  unfold addUnitsToAddress
  induction us generalizing as with
  | nil => simp
  | cons u us ih =>
    rw [List.foldl_cons, ih, mem_address_modifyAddress fun a ha => (a.addUnit_address u).trans ha,
      List.exists_mem_cons_iff, or_assoc, eq_comm (a := k)]

/-- The addresses that `construct` builds are those of the units of the transactions that it keeps.
-/
theorem construct_addresses {sims : List SimulatedTransaction} (hid : (sims.map (·.id)).Nodup) :
    (construct sims).addresses =
      addUnitsToAddress [] (keptUnits (split UpdateClash sims).kept) := by
  induction sims using List.reverseRecOn with
  | nil => rfl
  | append_singleton sims sim ih =>
    rw [List.map_append, List.nodup_append] at hid
    have hcheck := (construct_split hid.1).2.check_iff sim
    rw [construct, List.foldl_append, List.foldl_cons, List.foldl_nil, ← construct,
      constructStep_eq, split_append_singleton]
    by_cases hclash : ∃ earlier ∈ (split UpdateClash sims).kept, UpdateClash earlier sim
    · rw [if_pos (hcheck.2 hclash), step_of_clash hclash]
      exact ih hid.1
    · rw [if_neg fun h => hclash (hcheck.1 h), step_of_not_clash hclash, keepTx, ih hid.1,
        keptUnits, keptUnits, List.flatMap_append, List.flatMap_singleton]
      simp only [addUnitsToAddress, List.foldl_append]

section

variable {sims sims' : List SimulatedTransaction} (hperm : sims.Perm sims')
  (hid : (sims.map (·.id)).Nodup)
  (hkept : (split UpdateClash sims).kept.Perm (split UpdateClash sims').kept)

include hperm hkept

/-- When the same transactions are kept, the same are aborted at once. -/
theorem rejected_perm_of_kept :
    (split UpdateClash sims).rejected.Perm (split UpdateClash sims').rejected := by
  have hall := ((split_perm UpdateClash sims).trans hperm).trans (split_perm UpdateClash sims').symm
  exact (List.perm_append_left_iff _).1 (hall.trans (hkept.symm.append_right _))

variable (hordered : BlindOrdered (split UpdateClash sims).kept)
  (hordered' : BlindOrdered (split UpdateClash sims').kept)

include hid hordered hordered'

/-- `construct` builds graphs of the same transactions. -/
theorem construct_permuted : Permuted (construct sims) (construct sims') := by
  have hrejected := rejected_perm_of_kept hperm hkept
  have hid' : (sims'.map (·.id)).Nodup := (hperm.map _).nodup_iff.1 hid
  obtain ⟨hbuilt, hcollects⟩ := construct_split hid
  obtain ⟨hbuilt', hcollects'⟩ := construct_split hid'
  have hsub := kept_sublist UpdateClash sims
  refine ⟨hbuilt.nodup, hbuilt'.nodup, ?_, fun k => ?_, ?_, ?_, ?_⟩
  · refine (List.perm_ext_iff_of_nodup hbuilt.nodup hbuilt'.nodup).2 fun k => ?_
    have hunits := hkept.flatMap_right fun sim => unitsOf sim .read ++ unitsOf sim .write
    rw [construct_addresses hid, construct_addresses hid', mem_address_addUnitsToAddress,
      mem_address_addUnitsToAddress, keptUnits, keptUnits]
    simp only [hunits.mem_iff]
  · exact hcollects.alike hcollects' (fun a ha => ((construct_sound sims).sound a ha).toExact)
      (fun a ha => ((construct_sound sims').sound a ha).toExact) hkept (hid.sublist (hsub.map _))
      (pairwise_kept UpdateClash sims) hordered hordered' k
  · rw [hbuilt.txList, hbuilt'.txList]
    exact hkept.map _
  · rw [hbuilt.abortedTxs, hbuilt'.abortedTxs]
    exact hrejected.map _
  · funext t
    rw [hbuilt.cells, hbuilt'.cells]
    simp only [(hrejected.map _).mem_iff]

/-- Two orders that keep the same transactions, with their blind writers in one order, have the same
schedule. -/
theorem schedule_eq_of_perm : schedule sims = schedule sims' := by
  have hd : (construct sims).hierarchcialSort.Distinct := (construct_covers hid).nodup hid
  exact (construct_permuted hperm hid hkept hordered hordered').hierarchcialSort.schedule hd

end

/-! ## The locality order -/

/-- The contract that a transaction calls, `to_addr` or the zero address. -/
def IndexedEthereumTransaction.target (tx : IndexedEthereumTransaction) : H160 :=
  tx.tx.toAddr.getD 0

/-- The comparison of `order_for_contract_locality`. -/
def localityLe (a b : IndexedEthereumTransaction) : Prop :=
  a.target.toNat < b.target.toNat ∨ a.target.toNat = b.target.toNat ∧ a.id ≤ b.id

instance : DecidableRel localityLe := fun _ _ => inferInstanceAs (Decidable (_ ∨ _))

instance : Std.Total localityLe := ⟨fun a b => by unfold localityLe; omega⟩

instance : IsTrans IndexedEthereumTransaction localityLe :=
  ⟨fun a b c hab hbc => by unfold localityLe at *; omega⟩

/-- `order_for_contract_locality`. -/
def orderForContractLocality (txs : List IndexedEthereumTransaction) :
    List IndexedEthereumTransaction :=
  txs.insertionSort localityLe

/-- The transactions in the order of their ids. -/
def orderById (txs : List IndexedEthereumTransaction) : List IndexedEthereumTransaction :=
  txs.insertionSort fun a b => a.id ≤ b.id

/-- The order in which `_simulate` goes through its transactions. -/
def simulationOrder (config : Seer.SeerConfig) (txs : List IndexedEthereumTransaction) :
    List IndexedEthereumTransaction :=
  if config.isEnabled then
    if config.contractLocalityOrdering then orderForContractLocality txs else txs
  else txs

/-- What `_simulate` returns for a list of transactions with the given outcomes. -/
def simulationResult (outcome : IndexedEthereumTransaction → Outcome)
    (txs : List IndexedEthereumTransaction) : List SimulatedTransaction :=
  simulated txs (txs.map outcome)

section

variable {outcome : IndexedEthereumTransaction → Outcome}
  {txs txs' : List IndexedEthereumTransaction}

/-- The simulations of a batch in another order are the same, in some order. -/
theorem simulationResult_perm (h : txs.Perm txs') :
    (simulationResult outcome txs).Perm (simulationResult outcome txs') := by
  unfold simulationResult
  induction h with
  | nil => exact .refl _
  | cons tx _ ih =>
    rw [List.map_cons, List.map_cons, simulated_cons, simulated_cons]
    exact ih.append_left _
  | swap tx tx' txs =>
    simp only [List.map_cons, simulated_cons]
    rw [← List.append_assoc, ← List.append_assoc]
    exact List.perm_append_comm.append_right _
  | trans _ _ ih ih' => exact ih.trans ih'

/-- The results are in the order of the transactions. -/
theorem simulationResult_pairwise
    {r : IndexedEthereumTransaction → IndexedEthereumTransaction → Prop}
    (h : txs.Pairwise r) : (simulationResult outcome txs).Pairwise fun x y => r x.rawTx y.rawTx :=
  List.pairwise_map.1 (h.sublist simulated_rawTx_sublist)

theorem simulationResult_ne (hid : (txs.map (·.id)).Nodup) :
    (simulationResult outcome txs).Pairwise fun x y => x.id ≠ y.id :=
  List.pairwise_map.1 (simulated_ids_nodup hid)

end

section

variable (sims : List SimulatedTransaction)

/-- The first transaction has the smaller id. -/
def IdBefore (x y : SimulatedTransaction) : Prop := x.id < y.id

/-- The locality order puts the first transaction in front. -/
def LocalityBefore (x y : SimulatedTransaction) : Prop :=
  x.rawTx.target.toNat < y.rawTx.target.toNat ∨
    x.rawTx.target.toNat = y.rawTx.target.toNat ∧ x.id < y.id

/-- The order by ids is asymmetric. -/
theorem IdBefore.asymm {x y : SimulatedTransaction} (h : IdBefore x y) : ¬IdBefore y x :=
  Nat.lt_asymm h

/-- The order by locality is asymmetric. -/
theorem LocalityBefore.asymm {x y : SimulatedTransaction} (h : LocalityBefore x y) :
    ¬LocalityBefore y x := by
  rintro (hlt' | ⟨heq', hid'⟩) <;> rcases h with hlt | ⟨heq, hid⟩
  · exact Nat.lt_asymm hlt hlt'
  · exact absurd heq hlt'.ne'
  · exact absurd heq' hlt.ne'
  · exact Nat.lt_asymm hid hid'

/-- A choice among the updaters that is the one of both orders: no two chosen transactions update a
common slot, and every other transaction updates a common slot with a chosen one of a smaller id,
and with a chosen one that the locality order puts before it. -/
def ChoiceOfBoth (chosen : Set SimulatedTransaction) : Prop :=
  Choice UpdateClash IdBefore sims chosen ∧ Choice UpdateClash LocalityBefore sims chosen

/-- Both orders choose the same updaters, and of two chosen ones that write a common slot blindly,
the one with the smaller id does not call the greater contract. -/
def SameChoice : Prop :=
  ∃ chosen, ChoiceOfBoth sims chosen ∧ ∀ x ∈ sims, x ∈ chosen → ∀ y ∈ sims, y ∈ chosen →
    (∃ k, BlindlyWrites x k ∧ BlindlyWrites y k) → x.id < y.id →
      x.rawTx.target.toNat ≤ y.rawTx.target.toNat

end

section

variable (outcome : IndexedEthereumTransaction → Outcome)
  {txs txs' : List IndexedEthereumTransaction}

theorem orderForContractLocality_perm (txs : List IndexedEthereumTransaction) :
    (orderForContractLocality txs).Perm txs :=
  List.perm_insertionSort _ _

/-- The order by ids is a permutation. -/
theorem orderById_perm (txs : List IndexedEthereumTransaction) : (orderById txs).Perm txs :=
  List.perm_insertionSort _ _

/-- The results in the order of the ids. -/
theorem simulationResult_orderById (hid : (txs.map (·.id)).Nodup) :
    (simulationResult outcome (orderById txs)).Pairwise IdBefore := by
  have hsorted : (orderById txs).Pairwise fun a b => a.id ≤ b.id := List.pairwise_insertionSort _ _
  have hid' := ((orderById_perm txs).map (·.id)).nodup_iff.2 hid
  exact ((simulationResult_pairwise hsorted).and (simulationResult_ne hid')).imp
    fun h => lt_of_le_of_ne h.1 h.2

/-- The results in the locality order. -/
theorem simulationResult_orderForContractLocality (hid : (txs.map (·.id)).Nodup) :
    (simulationResult outcome (orderForContractLocality txs)).Pairwise LocalityBefore := by
  have hsorted : (orderForContractLocality txs).Pairwise localityLe :=
    List.pairwise_insertionSort _ _
  have hid' := ((orderForContractLocality_perm txs).map (·.id)).nodup_iff.2 hid
  refine ((simulationResult_pairwise hsorted).and (simulationResult_ne hid')).imp ?_
  rintro x y ⟨hlt | ⟨heq, hle⟩, hne⟩
  · exact .inl hlt
  · exact .inr ⟨heq, lt_of_le_of_ne hle hne⟩

variable (hid : (txs.map (·.id)).Nodup) (hperm : txs'.Perm txs)

include hperm

/-- The results in the locality order of any list of the transactions are those in the order of the
ids. -/
theorem simulationResult_both_perm :
    (simulationResult outcome (orderForContractLocality txs')).Perm
      (simulationResult outcome (orderById txs)) :=
  simulationResult_perm
    (((orderForContractLocality_perm txs').trans hperm).trans (orderById_perm txs).symm)

include hid

/-- The same transactions are kept in both orders exactly when these have a common choice. -/
theorem kept_perm_iff :
    (split UpdateClash (simulationResult outcome (orderForContractLocality txs'))).kept.Perm
        (split UpdateClash (simulationResult outcome (orderById txs))).kept ↔
      ∃ chosen, ChoiceOfBoth (simulationResult outcome txs) chosen := by
  have hboth := simulationResult_both_perm outcome hperm
  have hidPerm : (simulationResult outcome (orderById txs)).Perm (simulationResult outcome txs) :=
    simulationResult_perm (orderById_perm txs)
  have hbyId := simulationResult_orderById outcome hid
  have hbyLocality := simulationResult_orderForContractLocality outcome
    ((hperm.map (·.id)).nodup_iff.2 hid)
  constructor
  · intro hkept
    refine ⟨_, (choice_kept hbyId IdBefore.asymm).of_perm hidPerm, ?_⟩
    have hchoice : Choice UpdateClash LocalityBefore (simulationResult outcome txs) _ :=
      (choice_kept hbyLocality LocalityBefore.asymm).of_perm (hboth.trans hidPerm)
    simpa only [hkept.mem_iff] using hchoice
  · rintro ⟨chosen, hchoiceId, hchoiceLocality⟩
    have hnodup := nodup_of_pairwise hbyId IdBefore.asymm
    refine (List.perm_ext_iff_of_nodup ((hboth.nodup_iff.2 hnodup).sublist (kept_sublist _ _))
      (hnodup.sublist (kept_sublist _ _))).2 fun x => ?_
    by_cases hx : x ∈ simulationResult outcome (orderById txs)
    · rw [(hchoiceId.of_perm hidPerm.symm).mem_kept_iff hbyId IdBefore.asymm hx,
        (hchoiceLocality.of_perm (hboth.trans hidPerm).symm).mem_kept_iff hbyLocality
          LocalityBefore.asymm (hboth.mem_iff.2 hx)]
    · exact iff_of_false (fun h => hx (hboth.mem_iff.1 ((kept_sublist _ _).subset h)))
        fun h => hx ((kept_sublist _ _).subset h)

/-- The schedule in the locality order of any list of the transactions. -/
theorem schedule_eq_orderById (hsame : SameChoice (simulationResult outcome txs)) :
    schedule (simulationResult outcome (orderForContractLocality txs')) =
      schedule (simulationResult outcome (orderById txs)) := by
  obtain ⟨chosen, hchoice, hblind⟩ := hsame
  have hid' : (txs'.map (·.id)).Nodup := (hperm.map _).nodup_iff.2 hid
  have hboth := simulationResult_both_perm outcome hperm
  have hidPerm : (simulationResult outcome (orderById txs)).Perm (simulationResult outcome txs) :=
    simulationResult_perm (orderById_perm txs)
  have hbyId := simulationResult_orderById outcome hid
  have hbyLocality := simulationResult_orderForContractLocality outcome hid'
  have hkept := (kept_perm_iff outcome hid hperm).2 ⟨chosen, hchoice⟩
  have hordered : BlindOrdered
      (split UpdateClash (simulationResult outcome (orderById txs))).kept := by
    refine (hbyId.sublist (kept_sublist UpdateClash _)).imp ?_
    exact fun hlt _ => hlt
  refine schedule_eq_of_perm hboth
    (simulated_ids_nodup (((orderForContractLocality_perm txs').map _).nodup_iff.2 hid')) hkept ?_
    hordered
  -- a kept transaction is a chosen one
  have hchosen : ∀ x ∈ (split UpdateClash
      (simulationResult outcome (orderForContractLocality txs'))).kept,
      x ∈ simulationResult outcome txs ∧ x ∈ chosen := by
    intro x hx
    have hmem := (kept_sublist _ _).subset hx
    refine ⟨(hboth.trans hidPerm).mem_iff.1 hmem, ?_⟩
    exact ((hchoice.2.of_perm (hboth.trans hidPerm).symm).mem_kept_iff hbyLocality
      LocalityBefore.asymm hmem).1 hx
  refine (hbyLocality.sublist (kept_sublist _ _)).imp_of_mem fun {x y} hx hy hbefore hblindly => ?_
  rcases hbefore with hlt | ⟨-, hlt⟩
  · -- the smaller contract is in front, so the greater id cannot be
    by_contra hnot
    obtain ⟨k, hxk, hyk⟩ := hblindly
    have hne : x.id ≠ y.id := fun heq => by
      have hnodup : ((simulationResult outcome txs).map (·.id)).Nodup := simulated_ids_nodup hid
      have := List.inj_on_of_nodup_map hnodup (hchosen x hx).1 (hchosen y hy).1 heq
      rw [this] at hlt
      exact Nat.lt_irrefl _ hlt
    have hle := hblind y (hchosen y hy).1 (hchosen y hy).2 x (hchosen x hx).1 (hchosen x hx).2
      ⟨k, hyk, hxk⟩ (lt_of_le_of_ne (Nat.le_of_not_lt hnot) hne.symm)
    exact absurd hlt (not_lt.2 hle)
  · exact hlt

end

/-- `construct` keeps transactions of which the first one wins, each under its id. -/
theorem construct_txList_perm_iff {sims sims' : List SimulatedTransaction} (hperm : sims.Perm sims')
    (hid : (sims.map (·.id)).Nodup) :
    (construct sims).txList.Perm (construct sims').txList ↔
      (split UpdateClash sims).kept.Perm (split UpdateClash sims').kept := by
  have hid' : (sims'.map (·.id)).Nodup := (hperm.map _).nodup_iff.1 hid
  rw [(construct_split hid).1.txList, (construct_split hid').1.txList]
  refine ⟨fun h => ?_, fun h => h.map _⟩
  have hsub := (kept_sublist UpdateClash sims).subset
  have hsub' : (split UpdateClash sims').kept ⊆ sims := fun x hx =>
    hperm.mem_iff.2 ((kept_sublist UpdateClash sims').subset hx)
  -- a transaction of the list is known by its id
  have hinj : ∀ {x y}, x ∈ sims → y ∈ sims → keptTransaction x = keptTransaction y → x = y :=
    fun hx hy heq => List.inj_on_of_nodup_map hid hx hy (congrArg Transaction.txId heq)
  refine (List.perm_ext_iff_of_nodup (hid.of_map.sublist (kept_sublist _ _))
    (hid'.of_map.sublist (kept_sublist _ _))).2 fun x => ⟨fun hx => ?_, fun hx => ?_⟩
  · obtain ⟨y, hy, heq⟩ := List.mem_map.1 (h.mem_iff.1 (List.mem_map_of_mem hx))
    exact hinj (hsub' hy) (hsub hx) heq ▸ hy
  · obtain ⟨y, hy, heq⟩ := List.mem_map.1 (h.mem_iff.2 (List.mem_map_of_mem hx))
    exact hinj (hsub hy) (hsub' hx) heq ▸ hy

namespace LocalityFixture

/-- A transaction that calls a contract. -/
def tx (id contract : Nat) : IndexedEthereumTransaction :=
  ⟨.ofCall (BitVec.ofNat 160 (id + 100)) (BitVec.ofNat 160 contract) 0 [] 50000 0, id⟩

/-- A transaction reads some slots of a third contract, and writes its id to some. -/
def outcome (reads writes : List Nat) (tx : IndexedEthereumTransaction) : Outcome :=
  let written := writes.map fun k => (BitVec.ofNat 256 k, BitVec.ofNat 256 tx.id)
  .ok (some
    { effects := [.modify 9 ⟨0, 0⟩ none written false]
      logs := []
      rwSet := ⟨[(9, reads.map fun k => (BitVec.ofNat 256 k, 0))], [(9, written)]⟩ })

/-- The second transaction calls the smaller contract. -/
def inverted : List IndexedEthereumTransaction := [tx 0 2, tx 1 1]

/-- The ids in the zones of a schedule. -/
def zones (s : ScheduledInfo) : List (List TxId) × List (List TxId) × List (List TxId) :=
  (s.conflictFreeZone.map (List.map (·.id)), s.conflictZoneFinalized.map (List.map (·.id)),
    s.conflictZoneAborted.map (List.map (·.rawTx.id)))

/-- Three transactions, of which the option inverts the last two. -/
def lastInverted : List IndexedEthereumTransaction := [tx 0 1, tx 1 3, tx 2 2]

/-- The transaction `0` is the first updater of the slot `5` in both orders. -/
theorem choiceOfBoth_lastInverted :
    ChoiceOfBoth (simulationResult (outcome [5] [5]) lastInverted) { x | x.id = 0 } := by
  have hfirst : ∃ x ∈ simulationResult (outcome [5] [5]) lastInverted, x.id = 0 ∧
      x.rawTx.target.toNat = 1 ∧ 5#256 ∈ updatedKeys x := by decide
  have hothers : ∀ y ∈ simulationResult (outcome [5] [5]) lastInverted, ¬y.id = 0 →
      1 < y.rawTx.target.toNat ∧ 5#256 ∈ updatedKeys y := by decide
  have hclash : ∀ y ∈ simulationResult (outcome [5] [5]) lastInverted, ¬y.id = 0 →
      ∃ x ∈ simulationResult (outcome [5] [5]) lastInverted, x.id = 0 ∧ x.id < y.id ∧
        x.rawTx.target.toNat < y.rawTx.target.toNat ∧ UpdateClash x y := by
    intro y hy hne
    obtain ⟨x, hx, hx0, htarget, hk⟩ := hfirst
    obtain ⟨hlt, hk'⟩ := hothers y hy hne
    exact ⟨x, hx, hx0, hx0 ▸ Nat.pos_of_ne_zero hne, htarget ▸ hlt, 5#256, hk, hk'⟩
  refine ⟨⟨fun x _ hx y _ hy hlt => ?_, fun y hy hnot => ?_⟩,
    ⟨fun x hx hx0 y hy hy0 hlt => ?_, fun y hy hnot => ?_⟩⟩
  · rw [IdBefore, hx, hy] at hlt
    exact absurd hlt (Nat.lt_irrefl _)
  · obtain ⟨x, hx, hx0, hlt, -, h⟩ := hclash y hy hnot
    exact ⟨x, hx, hx0, hlt, h⟩
  · have hids : ((simulationResult (outcome [5] [5]) lastInverted).map (·.id)).Nodup := by decide
    obtain rfl := List.inj_on_of_nodup_map hids hx hy (hx0.trans hy0.symm)
    exact absurd hlt hlt.asymm
  · obtain ⟨x, hx, hx0, -, hlt, h⟩ := hclash y hy hnot
    exact ⟨x, hx, hx0, .inl hlt, h⟩

end LocalityFixture

end Chase
