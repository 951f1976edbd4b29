import Chase.Graph.Order
import Chase.Lib.Views
import Mathlib.Data.Finset.Basic
import Mathlib.Data.List.Forall2

/-!
# Orders of iteration

The hash maps of a graph, and those of the read and write sets of its transactions, are iterated in
an order that differs from run to run. `construct` adds the units of one transaction in such an
order. But the units at one key come from different contracts, whose order is fixed, so the units of
every address are in the same order in every run (`filter_unitsOf`). Two graphs are the same
(`SameGraph`) when they have the same addresses, and the same transactions in the view that later
functions have of them. `construct` and `hierarchcial_sort` keep this, since `_address_rank` is a
total order on the addresses.
-/

namespace Chase

open Chase.Graph AddressBasedConflictGraph

/-- An access map whose inner hash maps are iterated in another order. -/
def AccessMap.Reordered (m m' : AccessMap) : Prop :=
  List.Forall₂ (fun c c' => c.1 = c'.1 ∧ c.2.Perm c'.2) m m'

/-- A simulated transaction whose hash maps are iterated in another order. -/
structure SimulatedTransaction.Reordered (sim sim' : SimulatedTransaction) : Prop where
  rawTx : sim.rawTx = sim'.rawTx
  effects : sim.effects = sim'.effects
  logs : sim.logs = sim'.logs
  readSet : sim.rwSet.readSet.Reordered sim'.rwSet.readSet
  writeSet : sim.rwSet.writeSet.Reordered sim'.rwSet.writeSet

/-! ## The units of a transaction -/

namespace AccessMap.Reordered

variable {m m' : AccessMap}

theorem refl (m : AccessMap) : m.Reordered m :=
  List.forall₂_same.2 fun _ _ => ⟨rfl, .refl _⟩

/-- A map in another order has the same slots, in some order. -/
theorem slots (h : m.Reordered m') : m.slots.Perm m'.slots := by
  induction h with
  | nil => exact .refl _
  | cons h _ ih =>
    obtain ⟨hcontract, hperm⟩ := h
    simp only [AccessMap.slots, List.flatMap_cons, hcontract] at ih ⊢
    exact (hperm.map _).append ih

theorem mem_keys (h : m.Reordered m') (k : H256) : k ∈ m.keys ↔ k ∈ m'.keys := by
  simp only [AccessMap.mem_keys, h.slots.mem_iff]

theorem contains (h : m.Reordered m') : m.contains = m'.contains := by
  funext contract k
  rw [Bool.eq_iff_iff, AccessMap.contains_iff, AccessMap.contains_iff, h.slots.mem_iff]

/-- A map in another order has the same units, in some order. -/
theorem convertToUnits_perm (h : m.Reordered m') (t : TxId) (type : UnitType)
    (rs : Option AccessMap) :
    (convertToUnits t type m rs).Perm (convertToUnits t type m' rs) := by
  induction h with
  | nil => exact .refl _
  | cons h _ ih =>
    obtain ⟨hcontract, hperm⟩ := h
    simp only [convertToUnits, List.flatMap_cons, hcontract] at ih ⊢
    exact (hperm.map _).append ih

/-- The units at one key are in the order of the contracts. -/
theorem filter_convertToUnits (h : m.Reordered m') (t : TxId) (type : UnitType)
    (rs : Option AccessMap) (k : H256) :
    (convertToUnits t type m rs).filter (·.address = k) =
      (convertToUnits t type m' rs).filter (·.address = k) := by
  induction h with
  | nil => rfl
  | @cons c c' m m' h _ ih =>
    obtain ⟨hcontract, hperm⟩ := h
    simp only [convertToUnits, List.flatMap_cons, hcontract, List.filter_append] at ih ⊢
    rw [ih]
    refine congrArg (· ++ _) (Views.eq_of_perm_of_forall_eq ((hperm.map _).filter _) ?_)
    -- the units of one contract at the key are all the same
    intro u hu v hv
    obtain ⟨hu, huk⟩ := List.mem_filter.1 hu
    obtain ⟨hv, hvk⟩ := List.mem_filter.1 hv
    obtain ⟨e, -, rfl⟩ := List.mem_map.1 hu
    obtain ⟨e', -, rfl⟩ := List.mem_map.1 hv
    have he : e.1 = e'.1 := (of_decide_eq_true huk).trans (of_decide_eq_true hvk).symm
    rw [he]

end AccessMap.Reordered

section

variable {sim sim' : SimulatedTransaction}

theorem SimulatedTransaction.Reordered.id (h : sim.Reordered sim') : sim.id = sim'.id :=
  congrArg IndexedEthereumTransaction.id h.rawTx

/-- The units of a transaction before their dependencies are counted. -/
def Graph.rawUnits (sim : SimulatedTransaction) : UnitType → List TxUnit
  | .read => convertToUnits sim.id .read sim.rwSet.readSet none
  | .write => convertToUnits sim.id .write sim.rwSet.writeSet (some sim.rwSet.readSet)

/-- The other type. -/
def Graph.UnitType.other : UnitType → UnitType
  | .read => .write
  | .write => .read

theorem unitsOf_eq (sim : SimulatedTransaction) (type : UnitType) :
    unitsOf sim type = setWrDependencies (rawUnits sim type.other) (rawUnits sim type) := by
  cases type <;> rfl

/-- The units depend on the read set through the keys that it contains only. -/
theorem convertToUnits_congr {t : TxId} {type : UnitType} {m rs rs' : AccessMap}
    (h : rs.contains = rs'.contains) :
    convertToUnits t type m (some rs) = convertToUnits t type m (some rs') := by
  simp only [convertToUnits, Option.map_some, h]

/-- A simulation with its sets in another order has the same units, in some order. -/
theorem rawUnits_perm (h : sim.Reordered sim') (type : UnitType) :
    (rawUnits sim type).Perm (rawUnits sim' type) := by
  cases type with
  | read =>
    rw [rawUnits, rawUnits, h.id]
    exact h.readSet.convertToUnits_perm _ _ _
  | write =>
    rw [rawUnits, rawUnits, h.id, convertToUnits_congr h.readSet.contains]
    exact h.writeSet.convertToUnits_perm _ _ _

/-- The units at a key stand in the same order, whatever the order of the sets. -/
theorem filter_rawUnits (h : sim.Reordered sim') (type : UnitType) (k : H256) :
    (rawUnits sim type).filter (·.address = k) = (rawUnits sim' type).filter (·.address = k) := by
  cases type with
  | read =>
    rw [rawUnits, rawUnits, h.id]
    exact h.readSet.filter_convertToUnits _ _ _ k
  | write =>
    rw [rawUnits, rawUnits, h.id, convertToUnits_congr h.readSet.contains]
    exact h.writeSet.filter_convertToUnits _ _ _ k

/-- The dependencies of a unit do not depend on the order of the others. -/
theorem setWrDependencies_congr {others others' : List TxUnit} (h : others.Perm others')
    (units : List TxUnit) : setWrDependencies others units = setWrDependencies others' units := by
  simp only [setWrDependencies, h.countP_eq]

/-- Setting the dependencies keeps the addresses of the units. -/
theorem filter_setWrDependencies (others units : List TxUnit) (k : H256) :
    (setWrDependencies others units).filter (·.address = k) =
      setWrDependencies others (units.filter (·.address = k)) := by
  rw [setWrDependencies, List.filter_map]
  rfl

/-- A simulation with its sets in another order has the same units with their dependencies, in some
order. -/
theorem unitsOf_perm (h : sim.Reordered sim') (type : UnitType) :
    (unitsOf sim type).Perm (unitsOf sim' type) := by
  rw [unitsOf_eq, unitsOf_eq, setWrDependencies_congr (rawUnits_perm h type.other)]
  exact (rawUnits_perm h type).map _

/-- The units at one key are in the same order. -/
theorem filter_unitsOf (h : sim.Reordered sim') (type : UnitType) (k : H256) :
    (unitsOf sim type).filter (·.address = k) = (unitsOf sim' type).filter (·.address = k) := by
  rw [unitsOf_eq, unitsOf_eq, setWrDependencies_congr (rawUnits_perm h type.other),
    filter_setWrDependencies, filter_setWrDependencies, filter_rawUnits h type k]

end

/-! ## Lookups -/

/-- An update changes the lookup of its key. -/
theorem getAddress_modifyAddress {f : Address → Address} (hf : ∀ a, (f a).address = a.address)
    (key k : H256) (as : List Address) :
    getAddress (modifyAddress key f as) k =
      if k = key then some (f ((getAddress as key).getD { address := key }))
      else getAddress as k := by
  induction as with
  | nil =>
    rw [modifyAddress, getAddress, List.find?_singleton, hf]
    by_cases hk : k = key
    · simp [hk, getAddress]
    · simp [hk, Ne.symm hk, getAddress]
  | cons a as ih =>
    rw [modifyAddress]
    by_cases ha : a.address = key
    · subst ha
      by_cases hk : k = a.address
      · simp [hk, getAddress, hf]
      · simp [hk, Ne.symm hk, getAddress, hf]
    · by_cases hk : a.address = k
      · subst hk
        simp [ha, getAddress]
      · simpa [ha, hk, getAddress] using ih

/-- An address after its units were added, by the lookups. -/
theorem getAddress_addUnitsToAddress (us : List TxUnit) (k : H256) (as : List Address) :
    getAddress (addUnitsToAddress as us) k =
      (us.filter (·.address = k)).foldl
        (fun a u => some ((a.getD { address := k }).addUnit u)) (getAddress as k) := by
  unfold addUnitsToAddress
  induction us generalizing as with
  | nil => rfl
  | cons u us ih =>
    rw [List.foldl_cons, ih, getAddress_modifyAddress fun a => a.addUnit_address u]
    by_cases hk : u.address = k
    · rw [if_pos hk.symm, List.filter_cons_of_pos (by simpa using hk), List.foldl_cons, hk]
    · rw [if_neg (Ne.symm hk), List.filter_cons_of_neg (by simpa using hk)]

/-! ## Graphs -/

/-- What the functions after `construct` see of a transaction. -/
structure Graph.TxView where
  txId : TxId
  effects : List Apply
  rawTx : IndexedEthereumTransaction
  readKeys : Finset H256
  writeKeys : Finset H256
  writeUnits : Multiset TxUnit

/-- The view of a transaction. -/
def Graph.Transaction.view (tx : Transaction) : TxView where
  txId := tx.txId
  effects := tx.effects
  rawTx := tx.rawTx
  readKeys := tx.readKeys.toFinset
  writeKeys := tx.writeKeys.toFinset
  writeUnits := tx.writeUnits

/-- Two graphs that differ only in what depends on the order of iteration. -/
structure SameGraph (g g' : AddressBasedConflictGraph) : Prop where
  nodup : (g.addresses.map (·.address)).Nodup
  nodup' : (g'.addresses.map (·.address)).Nodup
  lookup : ∀ k, getAddress g.addresses k = getAddress g'.addresses k
  txList : (g.txList.map (·.view)).Perm (g'.txList.map (·.view))
  abortedTxs : g.abortedTxs.map (·.view) = g'.abortedTxs.map (·.view)
  cells : g.cells = g'.cells

section

variable {sim sim' : SimulatedTransaction} {g g' : AddressBasedConflictGraph}

theorem toFinset_keys {m m' : AccessMap} (h : m.Reordered m') :
    m.keys.toFinset = m'.keys.toFinset := by
  ext k
  rw [List.mem_toFinset, List.mem_toFinset, h.mem_keys]

/-- The view of a transaction does not depend on the order of the sets. -/
theorem view_ofSimulated (h : sim.Reordered sim') :
    (Transaction.ofSimulated sim).view = (Transaction.ofSimulated sim').view := by
  simp only [Transaction.view, Transaction.ofSimulated, Transaction.readKeys, Transaction.writeKeys,
    h.id, h.effects, h.rawTx, toFinset_keys h.readSet, toFinset_keys h.writeSet]

/-- The view of a transaction that is kept does not depend on the order of the sets. -/
theorem view_keptTransaction (h : sim.Reordered sim') :
    (keptTransaction sim).view = (keptTransaction sim').view := by
  have hunits : (unitsOf sim .write : Multiset TxUnit) = unitsOf sim' .write :=
    Multiset.coe_eq_coe.2 (unitsOf_perm h .write)
  have hview := view_ofSimulated h
  simp only [Transaction.view, TxView.mk.injEq] at hview ⊢
  exact ⟨hview.1, hview.2.1, hview.2.2.1, hview.2.2.2.1, hview.2.2.2.2.1, hunits⟩

/-- An insertion replaces the view of the transaction with the same id. -/
theorem map_view_insertTx (txs : List Transaction) (tx : Transaction) :
    (insertTx txs tx).map (·.view) =
      (txs.map (·.view)).filter (fun v => v.txId ≠ tx.view.txId) ++ [tx.view] := by
  rw [insertTx, List.map_append, List.map_singleton, List.filter_map]
  rfl

/-- The early detection looks up the same updaters. -/
theorem SameGraph.checkUpdater (h : SameGraph g g') (hsim : sim.Reordered sim') :
    checkUpdaterAlreadyExistInSameAddress g.addresses (updates sim) =
      checkUpdaterAlreadyExistInSameAddress g'.addresses (updates sim') := by
  simp only [checkUpdaterAlreadyExistInSameAddress, h.lookup]
  exact ((rawUnits_perm hsim .write).filter _).any_eq

/-- A step of the construction takes the same graph to the same graph. -/
theorem SameGraph.constructStep (h : SameGraph g g') (hsim : sim.Reordered sim') :
    SameGraph (constructStep g sim) (constructStep g' sim') := by
  rw [constructStep_eq, constructStep_eq, h.checkUpdater hsim]
  split
  · refine ⟨h.nodup, h.nodup', h.lookup, h.txList, ?_, ?_⟩
    · simp only [abortTx, List.map_append, h.abortedTxs, List.map_singleton, view_ofSimulated hsim]
    · simp only [abortTx, h.cells, hsim.id]
  · refine ⟨nodup_addUnitsToAddress _ (nodup_addUnitsToAddress _ h.nodup),
      nodup_addUnitsToAddress _ (nodup_addUnitsToAddress _ h.nodup'), fun k => ?_, ?_, h.abortedTxs,
      h.cells⟩
    · simp only [keepTx, getAddress_addUnitsToAddress, h.lookup, filter_unitsOf hsim]
    · simp only [keepTx, map_view_insertTx, view_keptTransaction hsim]
      exact (h.txList.filter _).append_right _

/-- `construct` builds the same graph. -/
theorem construct_same {sims sims' : List SimulatedTransaction}
    (h : List.Forall₂ SimulatedTransaction.Reordered sims sims') :
    SameGraph (construct sims) (construct sims') := by
  have hfold : ∀ g g', SameGraph g g' →
      SameGraph (sims.foldl AddressBasedConflictGraph.constructStep g)
        (sims'.foldl AddressBasedConflictGraph.constructStep g') := by
    induction h with
    | nil => exact fun _ _ hg => hg
    | cons hsim _ ih => exact fun _ _ hg => ih _ _ (hg.constructStep hsim)
  exact hfold {} {} ⟨List.nodup_nil, List.nodup_nil, fun _ => rfl, .refl _, rfl, rfl⟩

/-! ## Sorting -/

/-- The same graph has the same addresses, in some order. -/
theorem SameGraph.addresses (h : SameGraph g g') : g.addresses.Perm g'.addresses := by
  have hmem : ∀ {as : List Address} {a : Address}, (as.map (·.address)).Nodup →
      (a ∈ as ↔ getAddress as a.address = some a) := fun hnodup =>
    ⟨getAddress_of_mem hnodup, List.mem_of_find?_eq_some⟩
  refine (List.perm_ext_iff_of_nodup (.of_map _ h.nodup) (.of_map _ h.nodup')).2 fun a => ?_
  rw [hmem h.nodup, hmem h.nodup', h.lookup]

instance : Std.Total rankLe := ⟨fun a b => by unfold rankLe; omega⟩

instance : IsTrans Address rankLe := ⟨fun a b c hab hbc => by unfold rankLe at *; omega⟩

/-- `_address_rank` fixes the order of the addresses. -/
theorem SameGraph.addressRank (h : SameGraph g g') : g.addressRank = g'.addressRank := by
  refine Views.insertionSort_eq_of_perm (fun a ha b hb hab hba => ?_) h.addresses
  refine eq_of_address_eq h.nodup ha hb (BitVec.eq_of_toNat_eq ?_)
  unfold rankLe at hab hba
  omega

/-- The sort takes the same graph to the same graph. -/
theorem SameGraph.hierarchcialSort (h : SameGraph g g') :
    SameGraph g.hierarchcialSort g'.hierarchcialSort := by
  have heq : g.hierarchcialSort.addresses = g'.hierarchcialSort.addresses := by
    rw [AddressBasedConflictGraph.hierarchcialSort, AddressBasedConflictGraph.hierarchcialSort,
      h.addressRank, h.cells]
  have hnodup := (hierarchcialSort_perm g).nodup_iff.2 h.nodup
  refine ⟨hnodup, heq ▸ hnodup, fun k => by rw [heq], h.txList, h.abortedTxs, ?_⟩
  rw [AddressBasedConflictGraph.hierarchcialSort, AddressBasedConflictGraph.hierarchcialSort,
    h.addressRank, h.cells]

end

end Chase
