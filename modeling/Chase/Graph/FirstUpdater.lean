import Chase.Graph.Construct
import Chase.Lib.FirstWins
import Mathlib.Data.List.Pairwise

/-!
# The first updater of a slot wins

A transaction updates a slot when a contract has the slot in its read map and in its write map.
`construct` keeps one flag for each key, and aborts a transaction at once when it updates a key
whose flag is set. The flag of a key is set exactly when a kept transaction updates it, since the
units at an address are those of the kept transactions (`Collects`). So `construct` is the rule that
the first updater wins (`construct_split`), where slots are told apart by their key alone.
-/

namespace Chase.Graph

open AddressBasedConflictGraph FirstWins

/-! ## Updates -/

/-- The slot `k` is in the read map and in the write map of a contract. -/
def Updates (readSet writeSet : AccessMap) (k : H256) : Prop :=
  ∃ contract, (contract, k) ∈ readSet.slots ∧ (contract, k) ∈ writeSet.slots

/-- The keys of the slots that a transaction updates, once for each contract. -/
def updatedKeys (sim : SimulatedTransaction) : List H256 :=
  (sim.rwSet.writeSet.slots.filter fun slot => sim.rwSet.readSet.contains slot.1 slot.2).map (·.2)

/-- The updated keys are those of the slots that are read and written. -/
theorem mem_updatedKeys {sim : SimulatedTransaction} {k : H256} :
    k ∈ updatedKeys sim ↔ Updates sim.rwSet.readSet sim.rwSet.writeSet k := by
  simp only [updatedKeys, Updates, List.mem_map, List.mem_filter, AccessMap.contains_iff]
  constructor
  · rintro ⟨slot, ⟨hwrite, hread⟩, rfl⟩
    exact ⟨slot.1, hread, hwrite⟩
  · rintro ⟨contract, hread, hwrite⟩
    exact ⟨(contract, k), ⟨hwrite, hread⟩, rfl⟩

/-- Two transactions update a common slot. -/
def UpdateClash (earlier sim : SimulatedTransaction) : Prop :=
  ∃ k ∈ updatedKeys earlier, k ∈ updatedKeys sim

instance : DecidableRel UpdateClash := fun _ _ => inferInstanceAs (Decidable (∃ k ∈ _, _))

/-- A clash of updates is symmetric. -/
theorem UpdateClash.symm {a b : SimulatedTransaction} : UpdateClash a b → UpdateClash b a := by
  rintro ⟨k, ha, hb⟩
  exact ⟨k, hb, ha⟩

instance : Std.Symm fun a b => ¬UpdateClash a b := ⟨fun _ _ h hclash => h (UpdateClash.symm hclash)⟩

/-- The write units are those of the slots, co-located where the slot is read. -/
theorem convertToUnits_eq_map (t : TxId) (m rs : AccessMap) :
    convertToUnits t .write m (some rs) =
      m.slots.map fun slot => ⟨t, .write, slot.2, 0, rs.contains slot.1 slot.2⟩ := by
  simp only [convertToUnits, AccessMap.slots, List.map_flatMap, List.map_map]
  rfl

/-- The co-located write units of a transaction stand at the keys that it updates. -/
theorem map_address_filter_coLocated (sim : SimulatedTransaction) :
    ((unitsOf sim .write).filter (·.coLocated)).map (·.address) = updatedKeys sim := by
  rw [unitsOf, convertToUnits_eq_map, setWrDependencies, List.map_map, List.filter_map,
    List.map_map]
  rfl

/-! ## The address of a key -/

/-- The address of a key, a new one if there is none. -/
def addressAt (as : List Address) (k : H256) : Address := (getAddress as k).getD { address := k }

/-- The address of a key is the first one that has it. -/
theorem addressAt_cons (a : Address) (as : List Address) (k : H256) :
    addressAt (a :: as) k = if a.address = k then a else addressAt as k := by
  rw [addressAt, getAddress, List.find?_cons]
  by_cases h : a.address = k
  · rw [decide_eq_true h, if_pos h]
    rfl
  · rw [decide_eq_false h, if_neg h]
    rfl

/-- An update changes the address of its key. -/
theorem addressAt_modifyAddress {f : Address → Address} (hf : ∀ a, (f a).address = a.address)
    (key k : H256) (as : List Address) :
    addressAt (modifyAddress key f as) k =
      if key = k then f (addressAt as k) else addressAt as k := by
  induction as with
  | nil =>
    rw [modifyAddress, addressAt_cons, hf]
    by_cases h : key = k
    · subst h
      rfl
    · rw [if_neg h, if_neg h]
  | cons a as ih =>
    rw [modifyAddress]
    by_cases ha : a.address = key
    · rw [if_pos ha, addressAt_cons, addressAt_cons, hf, ha]
      by_cases h : key = k
      · rw [if_pos h, if_pos h, if_pos h]
      · rw [if_neg h, if_neg h, if_neg h]
    · rw [if_neg ha, addressAt_cons, addressAt_cons, ih]
      by_cases h : a.address = k
      · have hne : key ≠ k := fun hk => ha (h.trans hk.symm)
        rw [if_pos h, if_pos h, if_neg hne]
      · rw [if_neg h, if_neg h]

/-- Adding units puts those of a key at its address, in their order. -/
theorem addressAt_addUnitsToAddress (as : List Address) (us : List TxUnit) (k : H256) :
    addressAt (addUnitsToAddress as us) k =
      (us.filter (·.address = k)).foldl Address.addUnit (addressAt as k) := by
  rw [addUnitsToAddress]
  induction us generalizing as with
  | nil => rfl
  | cons u us ih =>
    rw [List.foldl_cons, ih, addressAt_modifyAddress fun a => a.addUnit_address u]
    by_cases h : u.address = k
    · rw [if_pos h, List.filter_cons_of_pos (by simpa using h), List.foldl_cons]
    · rw [if_neg h, List.filter_cons_of_neg (by simpa using h)]

/-- The units of an address after some are added. -/
theorem units_foldl_addUnit (us : List TxUnit) (a : Address) (type : UnitType) :
    (us.foldl Address.addUnit a).units type = a.units type ++ us.filter (·.unitType = type) := by
  induction us generalizing a with
  | nil => rw [List.foldl_nil, List.filter_nil, List.append_nil]
  | cons u us ih =>
    rw [List.foldl_cons, ih, Address.addUnit]
    cases hu : u.unitType <;> cases type <;> simp [Address.units, hu]

/-- The flag of an address is set by a co-located write unit. -/
theorem flag_foldl_addUnit (us : List TxUnit) (a : Address) :
    (us.foldl Address.addUnit a).firstUpdaterFlag =
      (a.firstUpdaterFlag || (us.filter (·.unitType = .write)).any (·.coLocated)) := by
  induction us generalizing a with
  | nil => simp
  | cons u us ih =>
    rw [List.foldl_cons, ih, Address.addUnit]
    cases hu : u.unitType <;> simp [hu, Bool.or_assoc]

/-- Adding units leaves the flag of the writers alone, which only the sort sets. -/
theorem sortFlag_foldl_addUnit (us : List TxUnit) (a : Address) :
    (us.foldl Address.addUnit a).writeUnits.firstUpdaterFlag = a.writeUnits.firstUpdaterFlag := by
  induction us generalizing a with
  | nil => rfl
  | cons u us ih =>
    rw [List.foldl_cons, ih, Address.addUnit]
    cases u.unitType <;> rfl

/-! ## What the addresses collect -/

/-- The units of the kept transactions, in the order in which they are added. -/
def keptUnits (kept : List SimulatedTransaction) : List TxUnit :=
  kept.flatMap fun sim => unitsOf sim .read ++ unitsOf sim .write

/-- The address of every key has the units of the kept transactions at the key. -/
def Collects (kept : List SimulatedTransaction) (as : List Address) : Prop :=
  ∀ k, addressAt as k = ((keptUnits kept).filter (·.address = k)).foldl Address.addUnit
    { address := k }

theorem collects_nil : Collects [] [] := fun _ => rfl

variable {kept : List SimulatedTransaction} {as : List Address}

/-- A kept transaction adds its units. -/
theorem Collects.keep (h : Collects kept as) (sim : SimulatedTransaction) :
    Collects (kept ++ [sim])
      (addUnitsToAddress (addUnitsToAddress as (unitsOf sim .read)) (unitsOf sim .write)) := by
  intro k
  rw [addressAt_addUnitsToAddress, addressAt_addUnitsToAddress, h k, keptUnits, keptUnits,
    List.flatMap_append, List.flatMap_singleton, List.filter_append, List.filter_append,
    List.foldl_append, List.foldl_append]

/-- The units of one type of the kept transactions. -/
theorem filter_keptUnits (kept : List SimulatedTransaction) (type : UnitType) :
    (keptUnits kept).filter (·.unitType = type) = kept.flatMap (unitsOf · type) := by
  rw [keptUnits, List.filter_flatMap]
  refine List.flatMap_congr fun sim _ => ?_
  have hsame : ∀ type, (unitsOf sim type).filter (·.unitType = type) = unitsOf sim type :=
    fun type => List.filter_eq_self.2 fun u hu => decide_eq_true (of_mem_unitsOf hu).2.1
  have hother : ∀ {type' type}, type' ≠ type →
      (unitsOf sim type').filter (·.unitType = type) = [] := fun hne =>
    List.filter_eq_nil_iff.2 fun u hu => by rw [(of_mem_unitsOf hu).2.1]; simpa using hne
  cases type
  · rw [List.filter_append, hsame, hother (by decide), List.append_nil]
  · rw [List.filter_append, hsame, hother (by decide), List.nil_append]

/-- The units of a key come from the kept transactions. -/
theorem Collects.units (h : Collects kept as) (k : H256) (type : UnitType) :
    (addressAt as k).units type = (kept.flatMap (unitsOf · type)).filter (·.address = k) := by
  rw [h k, units_foldl_addUnit, List.filter_comm, filter_keptUnits]
  cases type <;> rfl

/-- The flag of a key is set exactly when a kept transaction updates it. -/
theorem Collects.flag_iff (h : Collects kept as) (k : H256) :
    (addressAt as k).firstUpdaterFlag = true ↔ ∃ sim ∈ kept, k ∈ updatedKeys sim := by
  rw [h k, flag_foldl_addUnit, Bool.false_or, List.filter_comm, filter_keptUnits, List.any_eq_true]
  simp only [← map_address_filter_coLocated, List.mem_filter, List.mem_flatMap, List.mem_map,
    decide_eq_true_eq]
  constructor
  · rintro ⟨u, ⟨⟨sim, hsim, hu⟩, hk⟩, hco⟩
    exact ⟨sim, hsim, u, ⟨hu, hco⟩, hk⟩
  · rintro ⟨sim, hsim, u, ⟨hu, hco⟩, hk⟩
    exact ⟨u, ⟨⟨sim, hsim, hu⟩, hk⟩, hco⟩

/-! ## Construction -/

/-- The test of `construct` finds a kept transaction that updates a common slot. -/
theorem Collects.check_iff (h : Collects kept as) (sim : SimulatedTransaction) :
    checkUpdaterAlreadyExistInSameAddress as (updates sim) = true ↔
      ∃ earlier ∈ kept, UpdateClash earlier sim := by
  have hflag : ∀ k, ((getAddress as k).map (·.firstUpdaterFlag)).getD false =
      (addressAt as k).firstUpdaterFlag := by
    intro k
    rw [addressAt]
    cases getAddress as k <;> rfl
  have hkeys : ((updates sim).filter (·.coLocated)).map (·.address) = updatedKeys sim := by
    rw [updates, convertToUnits_eq_map, List.filter_map, List.map_map]
    rfl
  rw [checkUpdaterAlreadyExistInSameAddress, List.any_eq_true]
  simp only [hflag, h.flag_iff, UpdateClash, ← hkeys, List.mem_map]
  constructor
  · rintro ⟨u, hu, earlier, hearlier, hk⟩
    exact ⟨earlier, hearlier, u.address, hk, u, hu, rfl⟩
  · rintro ⟨earlier, hearlier, k, hk, u, hu, rfl⟩
    exact ⟨u, hu, earlier, hearlier, hk⟩

/-- `construct` keeps the transactions that the rule keeps. -/
theorem construct_split {sims : List SimulatedTransaction} (hid : (sims.map (·.id)).Nodup) :
    Built (split UpdateClash sims).kept (split UpdateClash sims).rejected (construct sims) ∧
      Collects (split UpdateClash sims).kept (construct sims).addresses := by
  induction sims using List.reverseRecOn with
  | nil => exact ⟨built_nil, collects_nil⟩
  | append_singleton sims sim ih =>
    rw [List.map_append, List.nodup_append] at hid
    obtain ⟨hbuilt, hcollects⟩ := ih hid.1
    have hfresh : sim.id ∉ (split UpdateClash sims).kept.map (·.id) := by
      intro hmem
      obtain ⟨sim', hsim', heq⟩ := List.mem_map.1 hmem
      have hold := (split_perm UpdateClash sims).mem_iff.1 (List.mem_append_left _ hsim')
      exact hid.2.2 sim.id (heq ▸ List.mem_map_of_mem hold) sim.id (by simp) rfl
    rw [construct, List.foldl_append, List.foldl_cons, List.foldl_nil, ← construct,
      constructStep_eq, split_append_singleton]
    by_cases hclash : ∃ earlier ∈ (split UpdateClash sims).kept, UpdateClash earlier sim
    · rw [if_pos ((hcollects.check_iff sim).2 hclash), step_of_clash hclash]
      exact ⟨hbuilt.abort sim, hcollects⟩
    · rw [if_neg fun h => hclash ((hcollects.check_iff sim).1 h), step_of_not_clash hclash]
      exact ⟨hbuilt.keep sim hfresh, hcollects.keep sim⟩

/-- What `construct` builds from transactions with distinct ids. -/
theorem construct_built {sims : List SimulatedTransaction} (hid : (sims.map (·.id)).Nodup) :
    ∃ kept early, (kept ++ early).Perm sims ∧ Built kept early (construct sims) ∧
      ((kept ++ early).map (·.id)).Nodup :=
  have hperm := split_perm UpdateClash sims
  ⟨_, _, hperm, (construct_split hid).1, (hperm.map (·.id)).nodup_iff.2 hid⟩

section Construct

variable {sims : List SimulatedTransaction} (hid : (sims.map (·.id)).Nodup)
include hid

theorem split_ids_nodup :
    (((split UpdateClash sims).kept ++ (split UpdateClash sims).rejected).map (·.id)).Nodup :=
  ((split_perm UpdateClash sims).map (·.id)).nodup_iff.2 hid

/-- A kept and a rejected transaction have different ids. -/
theorem id_ne_of_rejected {sim sim' : SimulatedTransaction}
    (hsim : sim ∈ (split UpdateClash sims).kept)
    (hsim' : sim' ∈ (split UpdateClash sims).rejected) : sim.id ≠ sim'.id := by
  have hids := split_ids_nodup hid
  rw [List.map_append] at hids
  exact (List.nodup_append.1 hids).2.2 _ (List.mem_map_of_mem hsim) _ (List.mem_map_of_mem hsim')

/-- The construction aborts the rejected transactions. -/
theorem mem_abortedTxs_construct {sim : SimulatedTransaction} (hsim : sim ∈ sims) :
    sim.id ∈ (construct sims).abortedTxs.map (·.txId) ↔
      sim ∈ (split UpdateClash sims).rejected := by
  rw [(construct_split hid).1.abortedTxs, List.map_map]
  refine ⟨fun h => ?_, fun h => List.mem_map.2 ⟨sim, h, rfl⟩⟩
  obtain ⟨sim', hsim', heq⟩ := List.mem_map.1 h
  have hmem := (split_perm UpdateClash sims).mem_iff.1 (List.mem_append_right _ hsim')
  rwa [← List.inj_on_of_nodup_map hid hmem hsim heq]

/-- The construction keeps the kept transactions. -/
theorem mem_txList_construct {sim : SimulatedTransaction} (hsim : sim ∈ sims) :
    sim.id ∈ (construct sims).txList.map (·.txId) ↔ sim ∈ (split UpdateClash sims).kept := by
  rw [(construct_split hid).1.txList, List.map_map]
  refine ⟨fun h => ?_, fun h => List.mem_map.2 ⟨sim, h, rfl⟩⟩
  obtain ⟨sim', hsim', heq⟩ := List.mem_map.1 h
  have hmem := (split_perm UpdateClash sims).mem_iff.1 (List.mem_append_left _ hsim')
  rwa [← List.inj_on_of_nodup_map hid hmem hsim heq]

/-- A transaction is aborted at once exactly when it updates a slot that an earlier kept one
updates. -/
theorem aborted_iff_updateClash {before after : List SimulatedTransaction}
    {sim : SimulatedTransaction} (hsims : sims = before ++ sim :: after) :
    sim.id ∈ (construct sims).abortedTxs.map (·.txId) ↔
      ∃ earlier ∈ before, earlier.id ∈ (construct sims).txList.map (·.txId) ∧
        UpdateClash earlier sim := by
  subst hsims
  rw [mem_abortedTxs_construct hid (by simp), mem_rejected_iff hid.of_map]
  refine exists_congr fun earlier => and_congr_right fun hearlier => and_congr_left' ?_
  exact (mem_txList_construct hid (List.mem_append_left _ hearlier)).symm

/-- A slot has at most one updater among the kept transactions. -/
theorem eq_of_updates {tx tx' : Transaction} (htx : tx ∈ (construct sims).txList)
    (htx' : tx' ∈ (construct sims).txList) {k : H256}
    (hk : Updates tx.prevReadKeys tx.prevWriteKeys k)
    (hk' : Updates tx'.prevReadKeys tx'.prevWriteKeys k) : tx = tx' := by
  rw [(construct_split hid).1.txList] at htx htx'
  obtain ⟨sim, hsim, rfl⟩ := List.mem_map.1 htx
  obtain ⟨sim', hsim', rfl⟩ := List.mem_map.1 htx'
  have hclash : UpdateClash sim sim' := ⟨k, mem_updatedKeys.2 hk, mem_updatedKeys.2 hk'⟩
  by_contra hne
  exact (pairwise_kept UpdateClash sims).forall hsim hsim' (fun h => hne (congrArg _ h)) hclash

/-- An aborted transaction has left no unit. -/
theorem tx_ne_of_aborted {tx : Transaction} (htx : tx ∈ (construct sims).abortedTxs)
    {a : Address} (ha : a ∈ (construct sims).addresses) {type : UnitType} {u : TxUnit}
    (hu : u ∈ a.units type) : u.tx ≠ tx.txId := by
  obtain ⟨hbuilt, -⟩ := construct_split hid
  rw [hbuilt.abortedTxs] at htx
  obtain ⟨sim, hsim, rfl⟩ := List.mem_map.1 htx
  obtain ⟨-, sim', hsim', hu'⟩ := (hbuilt.units type a.address u).1 ⟨a, ha, rfl, hu⟩
  rw [(of_mem_unitsOf hu').1]
  exact id_ne_of_rejected hid hsim' hsim

/-- **Early detection is first-updater-wins.** After `construct`, a transaction is aborted exactly
when it updates a slot that an earlier kept transaction updates. So every slot has at most one
updater among the kept transactions, and no unit of an aborted one is in an address. -/
theorem firstUpdater_wins :
    (∀ before sim after, sims = before ++ sim :: after →
      (sim.id ∈ (construct sims).abortedTxs.map (·.txId) ↔
        ∃ earlier ∈ before, earlier.id ∈ (construct sims).txList.map (·.txId) ∧
          ∃ k, Updates earlier.rwSet.readSet earlier.rwSet.writeSet k ∧
            Updates sim.rwSet.readSet sim.rwSet.writeSet k)) ∧
    (∀ k, ∀ tx ∈ (construct sims).txList, ∀ tx' ∈ (construct sims).txList,
      Updates tx.prevReadKeys tx.prevWriteKeys k →
        Updates tx'.prevReadKeys tx'.prevWriteKeys k → tx = tx') ∧
    ∀ tx ∈ (construct sims).abortedTxs, ∀ a ∈ (construct sims).addresses, ∀ type,
      ∀ u ∈ a.units type, u.tx ≠ tx.txId := by
  refine ⟨fun before sim after hsims => ?_, fun k tx htx tx' htx' => eq_of_updates hid htx htx',
    fun tx htx a ha type u hu => tx_ne_of_aborted hid htx ha hu⟩
  rw [aborted_iff_updateClash hid hsims]
  simp only [UpdateClash, mem_updatedKeys]

end Construct

namespace UpdaterFixture

/-- A transaction that reads and writes the given slots of contracts. -/
def sim (id : TxId) (reads writes : List (H160 × List Nat)) : SimulatedTransaction where
  rwSet :=
    { readSet := reads.map fun c => (c.1, c.2.map fun k => (BitVec.ofNat 256 k, 0))
      writeSet := writes.map fun c => (c.1, c.2.map fun k => (BitVec.ofNat 256 k, 1)) }
  effects := []
  logs := []
  rawTx := ⟨.ofCall (BitVec.ofNat 160 (id + 2)) 1 0 [] 50000 0, id⟩

/-- Two updaters of the slot `5`, the second one also of the slot `7`, and an updater of the slot
`7` of another contract. -/
def updaters : List SimulatedTransaction :=
  [sim 0 [(1, [5])] [(1, [5])], sim 1 [(1, [5, 7])] [(1, [5, 7])], sim 2 [(2, [7])] [(2, [7])]]

/-- Of two updaters of a slot, the first one is kept. -/
theorem firstUpdater_wins_updaters :
    (updaters.map (·.id)).Nodup ∧ (construct updaters).abortedTxs.map (·.txId) = [1] ∧
      ∃ earlier ∈ [sim 0 [(1, [5])] [(1, [5])]],
        earlier.id ∈ (construct updaters).txList.map (·.txId) ∧
          ∃ k, Updates earlier.rwSet.readSet earlier.rwSet.writeSet k ∧
            Updates [(1, [(5, 0), (7, 0)])] [(1, [(5, 1), (7, 1)])] k :=
  ⟨by decide, by decide,
    ((firstUpdater_wins (by decide : (updaters.map (·.id)).Nodup)).1 _
      (sim 1 [(1, [5, 7])] [(1, [5, 7])]) _ rfl).1 (by decide)⟩

end UpdaterFixture

end Chase.Graph
