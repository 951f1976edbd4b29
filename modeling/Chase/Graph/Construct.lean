import Chase.Graph.Sort

/-!
# What the construction builds

`construct` keeps a simulated transaction, or aborts it at once when it updates a slot that already
has an updater. The graph holds one address for each key, and at the address of a key the units of
the kept transactions that access it (`Built`). Which transactions are kept is the subject of
`Chase.Graph.FirstUpdater`.
-/

namespace Chase.Graph

open AddressBasedConflictGraph

/-- The units of an address of one type. -/
def Address.units (a : Address) : UnitType → List TxUnit
  | .read => a.readUnits.units
  | .write => a.writeUnits.units

/-- The unit `u` is at the address of the key `k`. -/
def HasUnit (type : UnitType) (as : List Address) (k : H256) (u : TxUnit) : Prop :=
  ∃ a ∈ as, a.address = k ∧ u ∈ a.units type

/-- The units that a kept transaction contributes. -/
def unitsOf (sim : SimulatedTransaction) : UnitType → List TxUnit
  | .read =>
    setWrDependencies (convertToUnits sim.id .write sim.rwSet.writeSet (some sim.rwSet.readSet))
      (convertToUnits sim.id .read sim.rwSet.readSet none)
  | .write =>
    setWrDependencies (convertToUnits sim.id .read sim.rwSet.readSet none)
      (convertToUnits sim.id .write sim.rwSet.writeSet (some sim.rwSet.readSet))

/-- A kept transaction. -/
def keptTransaction (sim : SimulatedTransaction) : Transaction :=
  { Transaction.ofSimulated sim with writeUnits := unitsOf sim .write }

/-- The access map of one type. -/
def accessMap (sim : SimulatedTransaction) : UnitType → AccessMap
  | .read => sim.rwSet.readSet
  | .write => sim.rwSet.writeSet

@[simp] theorem keptTransaction_txId (sim : SimulatedTransaction) :
    (keptTransaction sim).txId = sim.id := rfl

/-! ## The units of one transaction -/

/-- The units of a map are those of its slots. -/
theorem mem_convertToUnits {t : TxId} {type : UnitType} {m : AccessMap} {rs : Option AccessMap}
    {u : TxUnit} : u ∈ convertToUnits t type m rs ↔ ∃ slot ∈ m.slots,
      u = ⟨t, type, slot.2, 0, (rs.map fun r => r.contains slot.1 slot.2).getD false⟩ := by
  simp only [convertToUnits, AccessMap.slots, List.mem_flatMap, List.mem_map]
  constructor
  · rintro ⟨c, hc, e, he, rfl⟩
    exact ⟨(c.1, e.1), ⟨c, hc, e, he, rfl⟩, rfl⟩
  · rintro ⟨_, ⟨c, hc, e, he, rfl⟩, rfl⟩
    exact ⟨c, hc, e, he, rfl⟩

/-- A unit of a transaction carries its id and type and one of the keys it accesses. -/
theorem of_mem_unitsOf {sim : SimulatedTransaction} {type : UnitType} {u : TxUnit}
    (h : u ∈ unitsOf sim type) :
    u.tx = sim.id ∧ u.unitType = type ∧ u.address ∈ (accessMap sim type).keys := by
  cases type <;>
  · obtain ⟨v, hv, rfl⟩ := List.mem_map.1 h
    obtain ⟨slot, hslot, rfl⟩ := mem_convertToUnits.1 hv
    exact ⟨rfl, rfl, AccessMap.mem_keys.2 ⟨slot.1, hslot⟩⟩

/-- Every key that a transaction accesses has a unit. -/
theorem exists_mem_unitsOf {sim : SimulatedTransaction} {type : UnitType} {k : H256}
    (h : k ∈ (accessMap sim type).keys) : ∃ u ∈ unitsOf sim type, u.address = k := by
  obtain ⟨contract, hslot⟩ := AccessMap.mem_keys.1 h
  cases type <;>
    exact ⟨_, List.mem_map.2 ⟨_, mem_convertToUnits.2 ⟨_, hslot, rfl⟩, rfl⟩, rfl⟩

/-- A co-located write unit is at a key that the transaction reads. -/
theorem mem_keys_of_coLocated {sim : SimulatedTransaction} {u : TxUnit}
    (h : u ∈ unitsOf sim .write) (hco : u.coLocated = true) :
    u.address ∈ (accessMap sim .read).keys := by
  obtain ⟨v, hv, rfl⟩ := List.mem_map.1 h
  obtain ⟨slot, -, rfl⟩ := mem_convertToUnits.1 hv
  simp only [Option.map_some, Option.getD_some] at hco
  exact AccessMap.mem_keys.2 ⟨slot.1, AccessMap.contains_iff.1 hco⟩

/-! ## The addresses -/

@[simp] theorem Address.addUnit_address (a : Address) (u : TxUnit) :
    (a.addUnit u).address = a.address := by
  unfold Address.addUnit
  split <;> rfl

/-- An added unit is one of its type. -/
theorem Address.mem_addUnit {a : Address} {u v : TxUnit} {type : UnitType} :
    v ∈ (a.addUnit u).units type ↔ v ∈ a.units type ∨ v = u ∧ u.unitType = type := by
  unfold Address.addUnit
  split <;> rename_i hu <;> cases type <;> simp [Address.units, hu]

/-- An added unit stands at its key. -/
theorem hasUnit_modifyAddress {as : List Address} {u v : TxUnit} {k : H256} {type : UnitType} :
    HasUnit type (modifyAddress u.address (·.addUnit u) as) k v ↔
      HasUnit type as k v ∨ v = u ∧ u.unitType = type ∧ u.address = k := by
  induction as with
  | nil =>
    simp only [modifyAddress, HasUnit, List.mem_singleton, exists_eq_left, Address.addUnit_address,
      Address.mem_addUnit, List.not_mem_nil, false_and, exists_false, false_or]
    have hnil : v ∉ ({ address := u.address } : Address).units type := by
      cases type <;> simp [Address.units]
    tauto
  | cons a as ih =>
    rw [modifyAddress]
    split
    · rename_i hk
      simp only [HasUnit, List.mem_cons, exists_eq_or_imp, Address.addUnit_address,
        Address.mem_addUnit, hk]
      rw [and_or_left, or_right_comm, and_left_comm,
        and_comm (a := u.address = k) (b := u.unitType = type)]
    · simp only [HasUnit, List.mem_cons, exists_eq_or_imp] at ih ⊢
      rw [ih, or_assoc]

/-- Added units stand at their keys. -/
theorem hasUnit_addUnitsToAddress {as : List Address} {us : List TxUnit} {v : TxUnit} {k : H256}
    {type : UnitType} : HasUnit type (addUnitsToAddress as us) k v ↔
      HasUnit type as k v ∨ v ∈ us ∧ v.unitType = type ∧ v.address = k := by
  unfold addUnitsToAddress
  induction us generalizing as with
  | nil => simp
  | cons u us ih =>
    rw [List.foldl_cons, ih, hasUnit_modifyAddress, List.mem_cons]
    constructor
    · rintro ((h | ⟨rfl, h⟩) | ⟨hm, h⟩)
      · exact .inl h
      · exact .inr ⟨.inl rfl, h⟩
      · exact .inr ⟨.inr hm, h⟩
    · rintro (h | ⟨rfl | hm, h⟩)
      · exact .inl (.inl h)
      · exact .inl (.inr ⟨rfl, h⟩)
      · exact .inr ⟨hm, h⟩

/-- A key of the addresses that the first one does not have is one of the others. -/
theorem mem_address_of_ne {a : Address} {as : List Address} {k : H256}
    (h : k ∈ (a :: as).map (·.address)) (hne : a.address ≠ k) : k ∈ as.map (·.address) := by
  rw [List.map_cons, List.mem_cons] at h
  exact h.resolve_left hne.symm

/-- The keys after an update: a new key is added at the end. -/
theorem map_address_modifyAddress {f : Address → Address} (hf : ∀ a, (f a).address = a.address)
    (k : H256) (as : List Address) : (modifyAddress k f as).map (·.address) =
      if k ∈ as.map (·.address) then as.map (·.address) else as.map (·.address) ++ [k] := by
  induction as with
  | nil => simp [modifyAddress, hf]
  | cons a as ih =>
    rw [modifyAddress]
    by_cases h : a.address = k
    · simp [h, hf]
    · rw [if_neg h, List.map_cons, ih, List.map_cons]
      simp only [List.mem_cons, Ne.symm h, false_or]
      split <;> simp

/-- An update that keeps the key keeps the keys distinct. -/
theorem nodup_modifyAddress {f : Address → Address} (hf : ∀ a, (f a).address = a.address)
    (k : H256) {as : List Address} (h : (as.map (·.address)).Nodup) :
    ((modifyAddress k f as).map (·.address)).Nodup := by
  rw [map_address_modifyAddress hf]
  split
  · exact h
  · rename_i hk
    exact List.nodup_append.2 ⟨h, List.nodup_singleton _, by
      rintro _ hx _ hy rfl
      exact hk (List.mem_singleton.1 hy ▸ hx)⟩

/-- Added units keep the keys distinct. -/
theorem nodup_addUnitsToAddress {as : List Address} (us : List TxUnit)
    (h : (as.map (·.address)).Nodup) : ((addUnitsToAddress as us).map (·.address)).Nodup := by
  unfold addUnitsToAddress
  induction us generalizing as with
  | nil => exact h
  | cons u us ih => exact ih (nodup_modifyAddress (fun a => a.addUnit_address u) _ h)

/-! ## The graph -/

/-- The graph that is built when the transactions `kept` are kept and `early` are aborted at once.
-/
structure Built (kept early : List SimulatedTransaction) (g : AddressBasedConflictGraph) :
    Prop where
  nodup : (g.addresses.map (·.address)).Nodup
  txList : g.txList = kept.map keptTransaction
  abortedTxs : g.abortedTxs = early.map Transaction.ofSimulated
  cells : ∀ t, g.cells t = if t ∈ early.map (·.id) then ⟨0, true⟩ else {}
  units : ∀ type k u, HasUnit type g.addresses k u ↔
    u.address = k ∧ ∃ sim ∈ kept, u ∈ unitsOf sim type

theorem built_nil : Built [] [] {} :=
  ⟨List.nodup_nil, rfl, rfl, fun _ => rfl, fun _ _ _ => by simp [HasUnit]⟩

/-- The insertion of a new transaction appends it. -/
theorem insertTx_of_fresh {txs : List Transaction} {tx : Transaction}
    (h : tx.txId ∉ txs.map (·.txId)) : insertTx txs tx = txs ++ [tx] := by
  rw [insertTx, List.filter_eq_self.2]
  intro t ht
  have : t.txId ≠ tx.txId := fun he => h (he ▸ List.mem_map_of_mem ht)
  simpa using this

/-- The graph after a transaction was aborted at once. -/
def abortTx (g : AddressBasedConflictGraph) (sim : SimulatedTransaction) :
    AddressBasedConflictGraph :=
  { g with
    cells := g.cells.abort sim.id
    abortedTxs := g.abortedTxs ++ [Transaction.ofSimulated sim] }

/-- The graph after a transaction was kept. -/
def keepTx (g : AddressBasedConflictGraph) (sim : SimulatedTransaction) :
    AddressBasedConflictGraph :=
  { g with
    txList := insertTx g.txList (keptTransaction sim)
    addresses := addUnitsToAddress (addUnitsToAddress g.addresses (unitsOf sim .read))
      (unitsOf sim .write) }

/-- The write units of a transaction before their dependencies are counted. -/
def updates (sim : SimulatedTransaction) : List TxUnit :=
  convertToUnits sim.id .write sim.rwSet.writeSet (some sim.rwSet.readSet)

/-- The two outcomes of one iteration of `construct`. -/
theorem constructStep_eq (g : AddressBasedConflictGraph) (sim : SimulatedTransaction) :
    constructStep g sim = if checkUpdaterAlreadyExistInSameAddress g.addresses (updates sim) = true
      then abortTx g sim else keepTx g sim := rfl

/-- A transaction with an updater at a slot that has one is aborted at once. -/
theorem Built.abort {kept early : List SimulatedTransaction} {g : AddressBasedConflictGraph}
    (h : Built kept early g) (sim : SimulatedTransaction) :
    Built kept (early ++ [sim]) (abortTx g sim) := by
  refine ⟨h.nodup, h.txList, by simp [abortTx, h.abortedTxs], fun t => ?_, h.units⟩
  by_cases ht : t = sim.id
  · have := h.cells sim.id
    subst ht
    simp only [abortTx, Cells.abort, Function.update_self, this]
    simp only [List.map_append, List.map_cons, List.map_nil, List.mem_append, List.mem_singleton,
      or_true, if_true]
    split <;> rfl
  · change g.cells.abort sim.id t = _
    rw [Cells.abort_of_ne _ ht, h.cells t]
    simp [ht]

/-- A transaction that is kept adds its units to the addresses of their keys. -/
theorem Built.keep {kept early : List SimulatedTransaction} {g : AddressBasedConflictGraph}
    (h : Built kept early g) (sim : SimulatedTransaction) (hid : sim.id ∉ kept.map (·.id)) :
    Built (kept ++ [sim]) early (keepTx g sim) := by
  refine ⟨nodup_addUnitsToAddress _ (nodup_addUnitsToAddress _ h.nodup), ?_, h.abortedTxs, h.cells,
    fun type k u => ?_⟩
  · have hfresh : (keptTransaction sim).txId ∉ g.txList.map (·.txId) := by
      rw [h.txList, List.map_map]
      exact hid
    change insertTx g.txList (keptTransaction sim) = _
    rw [insertTx_of_fresh hfresh, h.txList, List.map_append]
    rfl
  · have hunits : u ∈ unitsOf sim type ↔
        (u ∈ unitsOf sim .read ∧ u.unitType = type) ∨
          (u ∈ unitsOf sim .write ∧ u.unitType = type) := by
      constructor
      · intro hu
        cases type
        · exact .inl ⟨hu, (of_mem_unitsOf hu).2.1⟩
        · exact .inr ⟨hu, (of_mem_unitsOf hu).2.1⟩
      · rintro (⟨hu, rfl⟩ | ⟨hu, rfl⟩)
        · rwa [(of_mem_unitsOf hu).2.1]
        · rwa [(of_mem_unitsOf hu).2.1]
    rw [keepTx, hasUnit_addUnitsToAddress, hasUnit_addUnitsToAddress, h.units]
    simp only [List.mem_append, List.mem_singleton, or_and_right, exists_or, exists_eq_left,
      hunits, or_assoc, and_comm (a := u.address = k), and_assoc]

end Chase.Graph
