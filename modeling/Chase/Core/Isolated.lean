import Chase.Core.Partition
import Chase.Graph.FirstUpdater
import Chase.Graph.Ranks

/-!
# A transaction that shares no slot

A transaction whose slot keys no other transaction accesses meets only its own units in the graph.
No other transaction can abort it, but it can abort itself: units are kept by slot key, and a
transaction that updates one key in two contracts has two co-located write units at one address. The
first one is the first updater there, the second one is aborted as a late updater, and with it the
transaction (`Address.Lone.sort_aborts_iff`). So an isolated transaction stays out of the aborted
ones exactly when the keys of the slots it updates are distinct, and is then committed by the
schedule, which there is under the conditions on the sort of the first wave
(`isolated_survives_iff`).
-/

namespace Chase

open Chase.Graph AddressBasedConflictGraph FirstWins

namespace Graph

/-! ## An address with the units of one transaction -/

/-- The co-located write units of the transaction at the address. -/
def Address.ownUpdates (a : Address) (t : TxId) : Nat :=
  a.writeUnits.units.countP fun u => u.coLocated && decide (u.tx = t)

/-- All units of the address belong to the transaction. -/
structure Address.Lone (a : Address) (t : TxId) : Prop where
  reads : ∀ u ∈ a.readUnits.units, u.tx = t
  writes : ∀ u ∈ a.writeUnits.units, u.tx = t

/-- The first loop, over the units of one live transaction: the first co-located unit raises it
unless the flag is set already, the next one aborts it. -/
theorem aborted_foldl_updaterStep {t : TxId} {us : List TxUnit} (hus : ∀ u ∈ us, u.tx = t)
    (l : UpdaterLoop) (hlive : (l.cells t).aborted = false) :
    ((us.foldl WriteUnits.updaterStep l).cells t).aborted = true ↔
      (if l.flag then 1 else 2) ≤ us.countP (·.coLocated) := by
  induction us generalizing l with
  | nil =>
    rw [List.foldl_nil, hlive, List.countP_nil]
    cases l.flag <;> simp
  | cons u us ih =>
    have hrest := fun v hv => hus v (List.mem_cons_of_mem _ hv)
    obtain rfl := hus u List.mem_cons_self
    rw [List.foldl_cons, WriteUnits.updaterStep, if_neg (by simp [hlive])]
    cases hco : u.coLocated with
    | false =>
      rw [if_neg Bool.false_ne_true, ih hrest l hlive, List.countP_cons_of_neg (by simp [hco])]
    | true =>
      rw [if_pos rfl, List.countP_cons_of_pos hco]
      cases hflag : l.flag with
      | false =>
        rw [ih hrest _ (by simpa using hlive)]
        simp
      | true =>
        -- the unit aborts its transaction, and the rest of the loop does not revive it
        have hstays : ((us.foldl WriteUnits.updaterStep
            ⟨l.cells.abort u.tx, l.maxSeq, true⟩).cells u.tx).aborted = true :=
          (updaterSpec_of_flag us _ _).aborted _ (by simp)
        simp only [hstays, if_true, true_iff]
        exact Nat.le_add_left 1 _

namespace Address

variable {a : Address} {c : Cells} {t : TxId}

theorem Lone.ownUpdates (h : a.Lone t) :
    a.ownUpdates t = a.writeUnits.units.countP (·.coLocated) := by
  refine List.countP_congr fun u hu => ?_
  simp [h.writes u hu]

/-- The readers' maximum of an address with one transaction is the number of this transaction. -/
theorem Lone.readMax_le (h : a.Lone t) (hlive : (c t).aborted = false)
    (hs : (a.readCells c).isSorted t = true) : a.readMax c ≤ (a.readCells c t).sequence := by
  have hpos : 0 < (a.readCells c t).sequence := by
    have haborted : (a.readCells c t).aborted = false := by rw [readCells_aborted, hlive]
    rw [Cells.isSorted, haborted, Bool.or_false, bne_iff_ne] at hs
    exact Nat.pos_of_ne_zero hs
  rw [readMax, ReadUnits.sort]
  dsimp only
  have hseqs : ∀ n ∈ a.readUnits.liveSequences c, n = (a.readCells c t).sequence := by
    intro n hn
    obtain ⟨u, hu, -, hupos, rfl⟩ := ReadUnits.mem_liveSequences.1 hn
    rw [h.reads u hu] at hupos ⊢
    rw [readCells_of_sorted (Cells.isSorted_of_pos hupos)]
  cases hl : a.readUnits.liveSequences c with
  | nil => exact hpos
  | cons n l =>
    rw [hl] at hseqs
    exact foldl_max_le (hseqs n List.mem_cons_self).le
      fun n' hn' => (hseqs n' (List.mem_cons_of_mem _ hn')).le

/-- At an address of its own, a live transaction is aborted exactly when it has two co-located write
units there. -/
theorem Lone.sort_aborts_iff (h : a.Lone t) (ha : a.UpdatersRead)
    (hflag : a.writeUnits.firstUpdaterFlag = false) (hlive : (c t).aborted = false) :
    ((a.sort c).2 t).aborted = true ↔ 2 ≤ a.ownUpdates t := by
  rw [h.ownUpdates]
  have hlive' : (a.readCells c t).aborted = false := by rw [readCells_aborted, hlive]
  cases hs : (a.readCells c).isSorted t with
  | false =>
    -- the transaction has no number, so it does not read here and updates nothing
    have hnone : a.writeUnits.units.countP (·.coLocated) = 0 := by
      refine List.countP_eq_zero.2 fun u hu hco => ?_
      have hr := ha u hu hco
      rw [h.writes u hu] at hr
      rw [hr.isSorted] at hs
      cases hs
    have hkept : ((a.sort c).2 t).aborted = false := by
      by_cases hw : a.Writes t
      · exact (sort_cell_of_not_sorted ha hs hw).1
      · rw [sort_cell_of_not_writes ha hw, hlive']
    rw [hnone, hkept]
    simp
  | true =>
    have hloop := updaterLoop_spec (c := c) ha
    have hall : a.writeUnits.units.filter (fun u => (a.readCells c).isSorted u.tx) =
        a.writeUnits.units := List.filter_eq_self.2 fun u hu => by rw [h.writes u hu, hs]
    have haborted : ((a.updaterLoop c).cells t).aborted = true ↔
        2 ≤ a.writeUnits.units.countP (·.coLocated) := by
      rw [updaterLoop, WriteUnits.updaterLoop, hall, hflag]
      exact aborted_foldl_updaterStep h.writes _ hlive'
    -- the second loop compares the transaction with its own number
    have hge : a.top c ≤ ((a.updaterLoop c).cells t).sequence := by
      rw [top_eq ha, hloop.sequence t]
      cases hr : a.raised c with
      | none => simpa using h.readMax_le hlive hs
      | some t' =>
        obtain ⟨-, u, hu, rfl, -⟩ := hloop.raised t' hr
        rw [h.writes u (List.mem_of_mem_filter hu)]
        simp
    rw [(sort_cell_of_sorted hs).2, haborted]
    exact ⟨fun hor => hor.resolve_right fun hlt => absurd hlt.2 (not_lt.2 hge), .inl⟩

end Address

/-! ## The sweep -/

/-- Each address has units of the transaction only, or none of them. -/
def AloneAt (as : List Address) (t : TxId) : Prop :=
  ∀ a ∈ as, a.Lone t ∨ ¬a.Reads t ∧ ¬a.Writes t

/-- The sweep revives no transaction. -/
theorem sortAll_aborted {as : List Address} {c : Cells} {t : TxId} (has : ∀ a ∈ as, a.UpdatersRead)
    (h : (c t).aborted = true) : ((sortAll as c).2 t).aborted = true := by
  induction as generalizing c with
  | nil => exact h
  | cons a as ih =>
    refine ih (fun b hb => has b (List.mem_cons_of_mem _ hb)) ?_
    rw [(Address.sort_spec (has a List.mem_cons_self)).aborted t h]
    exact h

/-- The sweep aborts a transaction that is alone exactly at an address with two of its updates. -/
theorem sortAll_aborts_iff {as : List Address} {c : Cells} {t : TxId} (halone : AloneAt as t)
    (has : ∀ a ∈ as, a.UpdatersRead)
    (hflags : ∀ a ∈ as, a.writeUnits.firstUpdaterFlag = false) (hlive : (c t).aborted = false) :
    ((sortAll as c).2 t).aborted = true ↔ ∃ a ∈ as, 2 ≤ a.ownUpdates t := by
  induction as generalizing c with
  | nil => simp [sortAll, hlive]
  | cons a as ih =>
    have ha := has a List.mem_cons_self
    have hrest := fun b hb => has b (List.mem_cons_of_mem _ hb)
    have hstep : ((a.sort c).2 t).aborted = true ↔ 2 ≤ a.ownUpdates t := by
      rcases halone a List.mem_cons_self with hlone | ⟨hr, hw⟩
      · exact hlone.sort_aborts_iff ha (hflags a List.mem_cons_self) hlive
      · have hnone : a.ownUpdates t = 0 := List.countP_eq_zero.2 fun u hu hco => by
          rw [Bool.and_eq_true, decide_eq_true_eq] at hco
          exact hw ⟨u, hu, hco.2⟩
        rw [(Address.sort_spec ha).frame t hr hw, hlive, hnone]
        simp
    rw [sortAll, List.exists_mem_cons_iff, ← hstep]
    cases hab : ((a.sort c).2 t).aborted with
    | true => simpa using sortAll_aborted hrest hab
    | false =>
      rw [ih (fun b hb => halone b (List.mem_cons_of_mem _ hb)) hrest
        (fun b hb => hflags b (List.mem_cons_of_mem _ hb)) hab]
      simp

end Graph

/-! ## Isolation -/

/-- The keys of the slots that a transaction reads or writes. -/
def slotKeys (sim : SimulatedTransaction) : List H256 :=
  sim.rwSet.readSet.keys ++ sim.rwSet.writeSet.keys

/-- No other transaction of the list accesses a slot key of the transaction. -/
def Isolated (sims : List SimulatedTransaction) (tx : SimulatedTransaction) : Prop :=
  ∀ sim ∈ sims, sim.id ≠ tx.id → ∀ k ∈ slotKeys tx, k ∉ slotKeys sim

/-- A transaction is isolated when its keys are disjoint from those of the others. -/
theorem disjointKeys_iff_isolated {sims : List SimulatedTransaction} {tx : SimulatedTransaction} :
    (∀ sim ∈ sims, sim.id ≠ tx.id → Cds.disjointKeys (slotKeys tx) (slotKeys sim) = true) ↔
      Isolated sims tx := by
  simp only [Isolated, Cds.disjointKeys_iff]

instance (sims : List SimulatedTransaction) (tx : SimulatedTransaction) :
    Decidable (Isolated sims tx) :=
  decidable_of_iff _ disjointKeys_iff_isolated

/-- An accessed key is one of the keys of the slots. -/
theorem mem_slotKeys {sim : SimulatedTransaction} {type : UnitType} {k : H256}
    (h : k ∈ (accessMap sim type).keys) : k ∈ slotKeys sim := by
  cases type
  · exact List.mem_append_left _ h
  · exact List.mem_append_right _ h

/-- An updated key is one of the keys of the slots. -/
theorem mem_slotKeys_of_updatedKeys {sim : SimulatedTransaction} {k : H256}
    (h : k ∈ updatedKeys sim) : k ∈ slotKeys sim := by
  obtain ⟨contract, hread, -⟩ := mem_updatedKeys.1 h
  exact List.mem_append_left _ (AccessMap.mem_keys.2 ⟨contract, hread⟩)

section

variable {sims : List SimulatedTransaction} {tx : SimulatedTransaction}
  (hid : (sims.map (·.id)).Nodup) (htx : tx ∈ sims) (hiso : Isolated sims tx)
include hid htx hiso

/-- A transaction with a key of an isolated one is that one. -/
theorem Isolated.eq_of_common {sim : SimulatedTransaction} (hsim : sim ∈ sims) {k : H256}
    (hk : k ∈ slotKeys tx) (hk' : k ∈ slotKeys sim) : sim = tx := by
  by_contra hne
  have hids : sim.id ≠ tx.id := fun h => hne (List.inj_on_of_nodup_map hid hsim htx h)
  exact hiso sim hsim hids k hk hk'

/-- An isolated transaction is kept by `construct`. -/
theorem Isolated.mem_kept : tx ∈ (split UpdateClash sims).kept := by
  have hmem := (split_perm UpdateClash sims).mem_iff.2 htx
  refine (List.mem_append.1 hmem).resolve_right fun hrejected => ?_
  obtain ⟨before, after, rfl⟩ := List.append_of_mem htx
  obtain ⟨earlier, hearlier, -, k, hk, hk'⟩ := (mem_rejected_iff hid.of_map).1 hrejected
  have heq := hiso.eq_of_common hid htx (List.mem_append_left _ hearlier)
    (mem_slotKeys_of_updatedKeys hk') (mem_slotKeys_of_updatedKeys hk)
  have hnot := (List.nodup_middle.1 hid.of_map)
  rw [List.nodup_cons] at hnot
  exact hnot.1 (heq ▸ List.mem_append_left _ hearlier)

/-- The addresses of the keys of an isolated transaction hold its units only. -/
theorem Isolated.aloneAt : AloneAt (construct sims).addressRank tx.id := by
  obtain ⟨hbuilt, -⟩ := construct_split hid
  intro a ha
  rw [mem_addressRank] at ha
  have hunit : ∀ type, ∀ u ∈ a.units type,
      ∃ sim ∈ sims, u.tx = sim.id ∧ a.address ∈ slotKeys sim := by
    intro type u hu
    obtain ⟨hk, sim, hsim, hu'⟩ := (hbuilt.units type a.address u).1 ⟨a, ha, rfl, hu⟩
    have hmem := (split_perm UpdateClash sims).mem_iff.1 (List.mem_append_left _ hsim)
    obtain ⟨hutx, -, hkey⟩ := of_mem_unitsOf hu'
    exact ⟨sim, hmem, hutx, hk ▸ mem_slotKeys hkey⟩
  by_cases hk : a.address ∈ slotKeys tx
  · have hlone : ∀ type, ∀ u ∈ a.units type, u.tx = tx.id := by
      intro type u hu
      obtain ⟨sim, hsim, hutx, hkey⟩ := hunit type u hu
      rw [hutx, hiso.eq_of_common hid htx hsim hk hkey]
    exact .inl ⟨hlone .read, hlone .write⟩
  · have hnone : ∀ type, ¬∃ u ∈ a.units type, u.tx = tx.id := by
      rintro type ⟨u, hu, hutx⟩
      obtain ⟨sim, hsim, hutx', hkey⟩ := hunit type u hu
      rw [List.inj_on_of_nodup_map hid hsim htx (hutx'.symm.trans hutx)] at hkey
      exact hk hkey
    exact .inr ⟨hnone .read, hnone .write⟩

end

/-- The units of a kept transaction among those of all. -/
theorem filter_tx_flatMap_unitsOf {kept : List SimulatedTransaction} {tx : SimulatedTransaction}
    (hid : (kept.map (·.id)).Nodup) (htx : tx ∈ kept) (type : UnitType) :
    (kept.flatMap (unitsOf · type)).filter (·.tx = tx.id) = unitsOf tx type := by
  obtain ⟨before, after, rfl⟩ := List.append_of_mem htx
  rw [List.map_append, List.map_cons, List.nodup_middle, List.nodup_cons, List.mem_append,
    not_or] at hid
  have hnone : ∀ l : List SimulatedTransaction, tx.id ∉ l.map (·.id) →
      (l.flatMap (unitsOf · type)).filter (·.tx = tx.id) = [] := by
    intro l hl
    refine List.filter_eq_nil_iff.2 fun u hu heq => hl ?_
    obtain ⟨sim, hsim, hu⟩ := List.mem_flatMap.1 hu
    rw [← of_decide_eq_true heq, (of_mem_unitsOf hu).1]
    exact List.mem_map_of_mem hsim
  have hself : (unitsOf tx type).filter (·.tx = tx.id) = unitsOf tx type :=
    List.filter_eq_self.2 fun u hu => decide_eq_true (of_mem_unitsOf hu).1
  rw [List.flatMap_append, List.flatMap_cons, List.filter_append, List.filter_append,
    hnone before hid.1.1, hnone after hid.1.2, hself, List.nil_append, List.append_nil]

section

variable {sims : List SimulatedTransaction} (hid : (sims.map (·.id)).Nodup)
include hid

/-- An address of the graph is what the kept transactions have put there. -/
theorem addressAt_construct {a : Address} (ha : a ∈ (construct sims).addresses) :
    addressAt (construct sims).addresses a.address = a := by
  rw [addressAt, getAddress_of_mem (construct_split hid).1.nodup ha]
  rfl

/-- The co-located write units of a kept transaction at an address: one for each contract in which
it updates the key. -/
theorem ownUpdates_construct {tx : SimulatedTransaction}
    (hkept : tx ∈ (split UpdateClash sims).kept) {a : Address}
    (ha : a ∈ (construct sims).addresses) :
    a.ownUpdates tx.id = (updatedKeys tx).count a.address := by
  have hids : ((split UpdateClash sims).kept.map (·.id)).Nodup :=
    (split_ids_nodup hid).sublist ((List.sublist_append_left _ _).map _)
  have hunits : a.writeUnits.units = ((split UpdateClash sims).kept.flatMap
      (unitsOf · .write)).filter (·.address = a.address) := by
    rw [← (construct_split hid).2.units, addressAt_construct hid ha]
    rfl
  rw [Address.ownUpdates, hunits, List.countP_filter, ← map_address_filter_coLocated,
    ← filter_tx_flatMap_unitsOf hids hkept, List.count_eq_countP, List.countP_map,
    List.countP_filter, List.countP_filter]
  refine List.countP_congr fun u _ => ?_
  simp only [Function.comp_apply, Bool.and_eq_true, decide_eq_true_eq, beq_iff_eq]
  tauto

/-- The construction leaves the flag of the write units unset. -/
theorem sortFlag_construct {a : Address} (ha : a ∈ (construct sims).addresses) :
    a.writeUnits.firstUpdaterFlag = false := by
  rw [← addressAt_construct hid ha, (construct_split hid).2, sortFlag_foldl_addUnit]

/-- Some address has two updates of a kept transaction exactly when it updates a key twice. -/
theorem exists_two_updates_iff {tx : SimulatedTransaction}
    (hkept : tx ∈ (split UpdateClash sims).kept) :
    (∃ a ∈ (construct sims).addressRank, 2 ≤ a.ownUpdates tx.id) ↔ ¬(updatedKeys tx).Nodup := by
  rw [List.nodup_iff_count_le_one]
  push Not
  constructor
  · rintro ⟨a, ha, hcount⟩
    rw [ownUpdates_construct hid hkept (mem_addressRank.1 ha)] at hcount
    exact ⟨a.address, hcount⟩
  · rintro ⟨k, hcount⟩
    have hk : k ∈ updatedKeys tx := List.count_pos_iff.1 (by omega)
    obtain ⟨contract, -, hwrite⟩ := mem_updatedKeys.1 hk
    have hkey : k ∈ (accessMap tx .write).keys := AccessMap.mem_keys.2 ⟨contract, hwrite⟩
    obtain ⟨a, ha, rfl, -⟩ := (construct_split hid).1.exists_unit hkept .write hkey
    refine ⟨a, mem_addressRank.2 ha, ?_⟩
    rw [ownUpdates_construct hid hkept ha]
    exact hcount

end

/-! ## The schedule -/

/-- A transaction that updates a slot is not taken for write-only. -/
theorem not_reorderable_of_updates {tx : SimulatedTransaction} (h : updatedKeys tx ≠ []) :
    reorderable (keptTransaction tx) = false := by
  obtain ⟨k, hk⟩ := List.exists_mem_of_ne_nil _ h
  rw [← map_address_filter_coLocated] at hk
  obtain ⟨u, hu, -⟩ := List.mem_map.1 hk
  obtain ⟨hu, hco⟩ := List.mem_filter.1 hu
  have hnot : isWriteOnly (keptTransaction tx) = false := by
    rw [← Bool.not_eq_true, isWriteOnly, List.all_eq_true]
    intro hall
    have := hall u hu
    rw [hco] at this
    simp at this
  rw [reorderable, hnot, Bool.false_and]

section

variable {sims : List SimulatedTransaction} {tx : SimulatedTransaction}
  (hid : (sims.map (·.id)).Nodup) (htx : tx ∈ sims) (hiso : Isolated sims tx)
include hid htx hiso

/-- The sort aborts an isolated transaction exactly when it updates a key twice. -/
theorem Isolated.sort_aborts_iff :
    ((construct sims).hierarchcialSort.cells tx.id).aborted = true ↔ ¬(updatedKeys tx).Nodup := by
  have hkept := hiso.mem_kept hid htx
  obtain ⟨hbuilt, -⟩ := construct_split hid
  have hlive : ((construct sims).cells tx.id).aborted = false := by
    rw [hbuilt.cells, if_neg]
    intro hmem
    obtain ⟨sim, hsim, heq⟩ := List.mem_map.1 hmem
    exact id_ne_of_rejected hid hkept hsim heq.symm
  rw [← exists_two_updates_iff hid hkept]
  exact sortAll_aborts_iff (hiso.aloneAt hid htx)
    (fun a ha => hbuilt.updatersRead (mem_addressRank.1 ha))
    (fun a ha => sortFlag_construct hid (mem_addressRank.1 ha)) hlive

end

/-- The transaction is aborted by none of `construct`, `hierarchcial_sort` and `reorder`, there is a
schedule, and the transaction is in one of its two committed zones. -/
def Survives (sims : List SimulatedTransaction) (tx : SimulatedTransaction) : Prop :=
  tx.id ∉ (reordered sims).abortedTxs.map (·.txId) ∧
    tx.id ∈ (reordered sims).txList.map (·.txId) ∧
    ∃ s, schedule sims = .ok s ∧ tx.id ∈ s.committed.map (·.id)

/-- A transaction of the final list is in no other place. -/
theorem survives_of_mem_txList {sims : List SimulatedTransaction} (hid : (sims.map (·.id)).Nodup)
    (hmeets : FirstWaveMeets sims) {tx : SimulatedTransaction}
    (h : tx.id ∈ (reordered sims).txList.map (·.txId)) : Survives sims tx := by
  have hsorted := (construct_covers hid).hierarchcialSort.nodup hid
  have hids := ((reorder_perm hsorted).map (·.txId)).nodup_iff.2 hsorted
  rw [List.map_append] at hids
  obtain ⟨s, hs⟩ := hmeets.exists_schedule hid
  refine ⟨fun habort => (List.nodup_append.1 hids).2.2 _ h _ habort rfl, h, s, hs, ?_⟩
  have hzones := (extractSchedule_perm hs).1.map (·.id)
  rw [List.map_map] at hzones
  exact hzones.mem_iff.2 h

/-- **No spurious abort**, exactly when no slot key is updated in two contracts: a transaction whose
slot keys no other transaction accesses stays out of the aborted ones and is committed by the
schedule if and only if the keys of the slots that it updates are distinct. That there is a schedule
is asked of the steps of the sort, which the other transactions decide. -/
theorem isolated_survives_iff {sims : List SimulatedTransaction} {tx : SimulatedTransaction}
    (hid : (sims.map (·.id)).Nodup) (hmeets : FirstWaveMeets sims) (htx : tx ∈ sims)
    (hiso : Isolated sims tx) : Survives sims tx ↔ (updatedKeys tx).Nodup := by
  obtain ⟨hbuilt, -⟩ := construct_split hid
  have hlist : keptTransaction tx ∈ (construct sims).txList := by
    rw [hbuilt.txList]
    exact List.mem_map_of_mem (hiso.mem_kept hid htx)
  constructor
  · intro hsurvives
    by_contra hnodup
    -- the sort aborts the transaction, and an updater is not brought back
    have haborted := (hiso.sort_aborts_iff hid htx).2 hnodup
    have hre : reorderable (keptTransaction tx) = false :=
      not_reorderable_of_updates fun hnil => hnodup (by rw [hnil]; exact List.nodup_nil)
    refine hsurvives.1 (List.mem_map.2 ⟨keptTransaction tx, ?_, rfl⟩)
    exact List.mem_filter.2 ⟨mem_extractAbortedTxs.2 (.inr ⟨hlist, haborted⟩), by rw [hre]; rfl⟩
  · intro hnodup
    have hlive : ((construct sims).hierarchcialSort.cells tx.id).aborted ≠ true :=
      fun haborted => (hiso.sort_aborts_iff hid htx).1 haborted hnodup
    refine survives_of_mem_txList hid hmeets (List.mem_map.2 ⟨keptTransaction tx, ?_, rfl⟩)
    rw [reordered, hbuilt.txList_reorder (split_ids_nodup hid)]
    exact List.mem_append_left _ (List.mem_filter.2 ⟨hlist, by simpa using hlive⟩)

namespace IsolatedFixture

open UpdaterFixture

/-- An updater of one slot in each of two contracts. -/
def updater (k k' : Nat) : SimulatedTransaction := sim 0 [(1, [k]), (2, [k'])] [(1, [k]), (2, [k'])]

/-- An updater of two slots, and two others of which one reads what the other updates. -/
def besides : List SimulatedTransaction :=
  [updater 0 1, sim 1 [(1, [5, 6])] [(1, [5])], sim 2 [(1, [6])] [(1, [6])]]

/-- An updater beside others with other slots survives. -/
theorem isolated_survives_distinct :
    Isolated besides (updater 0 1) ∧ Survives besides (updater 0 1) :=
  ⟨by decide, (isolated_survives_iff (by decide) ⟨by decide, by decide⟩ List.mem_cons_self
    (by decide)).2 (by decide)⟩

/-- A transaction alone in its batch that updates the slot `0` of two contracts is aborted, and the
schedule commits nothing. -/
theorem isolated_aborts_itself :
    ([updater 0 0].map (·.id)).Nodup ∧ Isolated [updater 0 0] (updater 0 0) ∧
      ¬Survives [updater 0 0] (updater 0 0) ∧
      ∃ s, schedule [updater 0 0] = .ok s ∧ s.committed = [] :=
  ⟨by decide, by decide, fun h => h.1 (by decide),
    ⟨[], [], [[(keptTransaction (updater 0 0)).toAborted]]⟩, by decide, by decide⟩

end IsolatedFixture

end Chase
