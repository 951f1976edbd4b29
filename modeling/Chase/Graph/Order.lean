import Chase.Graph.Construct
import Chase.Graph.Sweep

/-!
# The order of the scheduled transactions

Sorting and reordering after `construct`. When every step of the sweep meets its conditions and a
transaction that `reorder` brings back reads nothing, the sequence numbers put every scheduled
transaction that reads a key below the other scheduled transactions that write it
(`Built.sequence_lt`).
-/

namespace Chase.Graph

open AddressBasedConflictGraph

variable {kept early : List SimulatedTransaction} {g : AddressBasedConflictGraph}

/-! ## The sweep over a built graph -/

/-- An address is determined by its key. -/
theorem eq_of_address_eq {as : List Address} (h : (as.map (·.address)).Nodup) {a b : Address}
    (ha : a ∈ as) (hb : b ∈ as) (hab : a.address = b.address) : a = b :=
  List.inj_on_of_nodup_map h ha hb hab

/-- The lookup of the key of an address finds it. -/
theorem getAddress_of_mem {as : List Address} (h : (as.map (·.address)).Nodup) {a : Address}
    (ha : a ∈ as) : getAddress as a.address = some a := by
  cases hfind : getAddress as a.address with
  | none => exact absurd (List.find?_eq_none.1 hfind a ha) (by simp)
  | some b =>
    have hb : b.address = a.address := by simpa using List.find?_some hfind
    rw [eq_of_address_eq h (List.mem_of_find?_eq_some hfind) ha hb]

/-- An updater of an address of the graph reads there too. -/
theorem Built.updatersRead (h : Built kept early g) {a : Address} (ha : a ∈ g.addresses) :
    a.UpdatersRead := by
  intro u hu hco
  obtain ⟨hk, sim, hsim, hmem⟩ := (h.units .write a.address u).1 ⟨a, ha, rfl, hu⟩
  obtain ⟨v, hv, hva⟩ := exists_mem_unitsOf (mem_keys_of_coLocated hmem hco)
  obtain ⟨b, hb, hbk, hvb⟩ := (h.units .read u.address v).2 ⟨hva, sim, hsim, hv⟩
  obtain rfl := eq_of_address_eq h.nodup hb ha (hbk.trans hk)
  exact ⟨v, hvb, (of_mem_unitsOf hv).1.trans (of_mem_unitsOf hmem).1.symm⟩

/-- A kept transaction has a unit at each key that it accesses. -/
theorem Built.exists_unit (h : Built kept early g) {sim : SimulatedTransaction} (hsim : sim ∈ kept)
    (type : UnitType) {k : H256} (hk : k ∈ (accessMap sim type).keys) :
    ∃ a ∈ g.addresses, a.address = k ∧ ∃ u ∈ a.units type, u.tx = sim.id := by
  obtain ⟨u, hu, huk⟩ := exists_mem_unitsOf hk
  obtain ⟨a, ha, hak, hua⟩ := (h.units type k u).2 ⟨huk, sim, hsim, hu⟩
  exact ⟨a, ha, hak, u, hua, (of_mem_unitsOf hu).1⟩

theorem mem_addressRank {a : Address} : a ∈ g.addressRank ↔ a ∈ g.addresses :=
  List.mem_insertionSort _

/-- Sorting keeps the keys and the units. -/
theorem map_address_sortAll (as : List Address) (c : Cells) :
    (sortAll as c).1.map (·.address) = as.map (·.address) := by
  induction as generalizing c with
  | nil => rfl
  | cons a as ih =>
    rw [sortAll, List.map_cons, List.map_cons, ih]
    rfl

/-- The sweep keeps an address, with its readers and writers. -/
theorem exists_mem_sortAll {as : List Address} {c : Cells} {a : Address} (ha : a ∈ as) :
    ∃ a' ∈ (sortAll as c).1, a'.address = a.address ∧ (∀ t, a'.Reads t ↔ a.Reads t) ∧
      ∀ t, a'.Writes t ↔ a.Writes t := by
  induction as generalizing c with
  | nil => cases ha
  | cons b as ih =>
    rw [sortAll]
    rcases List.mem_cons.1 ha with rfl | ha
    · exact ⟨_, List.mem_cons_self, rfl, Address.sort_reads a c, Address.sort_writes a c⟩
    · obtain ⟨a', ha', h⟩ := ih (c := (b.sort c).2) ha
      exact ⟨a', List.mem_cons_of_mem _ ha', h⟩

/-- An address of the sweep was there before, with its writers. -/
theorem exists_of_mem_sortAll {as : List Address} {c : Cells} {a' : Address}
    (ha : a' ∈ (sortAll as c).1) : ∃ a ∈ as, a'.address = a.address ∧
      ∀ t, a'.Writes t ↔ a.Writes t := by
  induction as generalizing c with
  | nil => cases ha
  | cons b as ih =>
    rw [sortAll] at ha
    rcases List.mem_cons.1 ha with rfl | ha
    · exact ⟨b, List.mem_cons_self, rfl, Address.sort_writes b c⟩
    · obtain ⟨a, ha, h⟩ := ih ha
      exact ⟨a, List.mem_cons_of_mem _ ha, h⟩

/-- The order after `hierarchcial_sort`. -/
theorem Built.swept {P : TxId → Prop} (h : Built kept early g)
    (hmeets : SweepMeets (StepOrdered P) [] g.addressRank g.cells) :
    Swept P g.hierarchcialSort.addresses g.hierarchcialSort.cells :=
  swept_sortAll (fun _ ha => h.updatersRead (mem_addressRank.1 ha)) hmeets

/-- A sweep that meets the condition leaves no reader with the number of another writer. -/
theorem Built.untied {P : TxId → Prop} (h : Built kept early g)
    (hmeets : SweepMeets (StepUntied P) [] g.addressRank g.cells) :
    Untied P g.hierarchcialSort.addresses g.hierarchcialSort.cells :=
  untied_sortAll (fun _ ha => h.updatersRead (mem_addressRank.1 ha)) hmeets

/-- The sort keeps the addresses of the graph. -/
theorem hierarchcialSort_perm (g : AddressBasedConflictGraph) :
    (g.hierarchcialSort.addresses.map (·.address)).Perm (g.addresses.map (·.address)) := by
  rw [hierarchcialSort, map_address_sortAll]
  exact (List.perm_insertionSort rankLe g.addresses).map _

/-- The sort keeps the keys distinct. -/
theorem Built.nodup_sorted (h : Built kept early g) :
    (g.hierarchcialSort.addresses.map (·.address)).Nodup :=
  (hierarchcialSort_perm g).nodup_iff.2 h.nodup

/-! ## Reordering -/

/-- The transactions that `reorder` brings back. -/
def reorderTargets (g : AddressBasedConflictGraph) : List Transaction :=
  g.extractAbortedTxs.filter reorderable

/-- The cells after `reorder`. -/
theorem reorder_cells (g : AddressBasedConflictGraph) (t : TxId)
    (hnodup : ((reorderTargets g).map (·.txId)).Nodup) :
    g.reorder.cells t = g.cells t ∧ t ∉ (reorderTargets g).map (·.txId) ∨
      ∃ tx ∈ reorderTargets g, tx.txId = t ∧
        g.reorder.cells t = { g.cells t with sequence := reorderSequence g.addresses tx } := by
  have hfold : ∀ (txs : List Transaction) (c : Cells), (txs.map (·.txId)).Nodup →
      (txs.foldl (fun c tx => c.setSequence tx.txId (reorderSequence g.addresses tx)) c t = c t ∧
          t ∉ txs.map (·.txId)) ∨
        ∃ tx ∈ txs, tx.txId = t ∧
          txs.foldl (fun c tx => c.setSequence tx.txId (reorderSequence g.addresses tx)) c t =
            { c t with sequence := reorderSequence g.addresses tx } := by
    intro txs
    induction txs with
    | nil => exact fun c _ => .inl ⟨rfl, List.not_mem_nil⟩
    | cons tx txs ih =>
      intro c hnd
      rw [List.map_cons, List.nodup_cons] at hnd
      rw [List.foldl_cons]
      rcases ih (c.setSequence tx.txId (reorderSequence g.addresses tx)) hnd.2 with
        ⟨hcell, hnot⟩ | ⟨tx', htx', rfl, hcell⟩
      · by_cases ht : t = tx.txId
        · subst ht
          exact .inr ⟨tx, List.mem_cons_self, rfl, by rw [hcell, Cells.setSequence_self]⟩
        · left
          rw [hcell, Cells.setSequence_of_ne _ _ ht]
          exact ⟨rfl, by simp only [List.map_cons, List.mem_cons, not_or]; exact ⟨ht, hnot⟩⟩
      · refine .inr ⟨tx', List.mem_cons_of_mem _ htx', rfl, ?_⟩
        have hne : tx'.txId ≠ tx.txId := fun he => hnd.1 (he ▸ List.mem_map_of_mem htx')
        rw [hcell, Cells.setSequence_of_ne _ _ hne]
  exact hfold _ _ hnodup

/-- The insertion of new transactions appends them. -/
theorem foldl_insertTx {txs targets : List Transaction}
    (h : ((txs ++ targets).map (·.txId)).Nodup) : targets.foldl insertTx txs = txs ++ targets := by
  induction targets generalizing txs with
  | nil => simp
  | cons tx targets ih =>
    have hfresh : tx.txId ∉ txs.map (·.txId) := by
      intro hmem
      rw [List.map_append, List.nodup_append] at h
      exact h.2.2 _ hmem _ (List.mem_map_of_mem List.mem_cons_self) rfl
    rw [List.foldl_cons, insertTx_of_fresh hfresh, ih (by simpa using h)]
    simp

/-- The aborted transactions are those of the construction and of the sort. -/
theorem mem_extractAbortedTxs {tx : Transaction} : tx ∈ g.extractAbortedTxs ↔
    tx ∈ g.abortedTxs ∨ tx ∈ g.txList ∧ (g.cells tx.txId).aborted = true := by
  rw [extractAbortedTxs, List.mem_insertionSort, List.mem_append, List.mem_filter]

/-- A transaction that was aborted by `construct` has no write units, so it is not reordered. -/
theorem Built.mem_reorderTargets (h : Built kept early g) {tx : Transaction}
    (htx : tx ∈ reorderTargets g.hierarchcialSort) :
    tx ∈ g.txList ∧ (g.hierarchcialSort.cells tx.txId).aborted = true ∧ reorderable tx = true := by
  obtain ⟨hmem, hre⟩ := List.mem_filter.1 htx
  rcases mem_extractAbortedTxs.1 hmem with hearly | ⟨hlist, hab⟩
  · have hearly : tx ∈ g.abortedTxs := hearly
    rw [h.abortedTxs] at hearly
    obtain ⟨sim, -, rfl⟩ := List.mem_map.1 hearly
    simp [reorderable, Transaction.ofSimulated] at hre
  · exact ⟨hlist, hab, hre⟩

/-- The live transactions and the reordered ones. -/
def scheduled (g : AddressBasedConflictGraph) : List Transaction :=
  (g.txList.filter fun tx => !(g.hierarchcialSort.cells tx.txId).aborted) ++
    reorderTargets g.hierarchcialSort

/-- A transaction is reordered above the maximum recorded at each address it writes. -/
theorem le_reorderSequence {as : List Address} (tx : Transaction) {u : TxUnit} {a : Address}
    (hu : u ∈ tx.writeUnits) (ha : getAddress as u.address = some a) :
    a.readUnits.maxSeq ≤ reorderSequence as tx := by
  refine le_trans (le_max_right a.writeUnits.maxSeq _) ?_
  refine (le_foldl_max _ 0).2 _ (List.mem_map.2 ⟨u, hu, ?_⟩)
  rw [ha]
  rfl

/-- A scheduled transaction was kept. -/
theorem Built.exists_sim (h : Built kept early g) {tx : Transaction} (htx : tx ∈ scheduled g) :
    ∃ sim ∈ kept, tx = keptTransaction sim := by
  have hmem : tx ∈ g.txList :=
    (List.mem_append.1 htx).elim List.mem_of_mem_filter fun htx => (h.mem_reorderTargets htx).1
  rw [h.txList] at hmem
  obtain ⟨sim, hsim, rfl⟩ := List.mem_map.1 hmem
  exact ⟨sim, hsim, rfl⟩

/-- Two transactions that access a key meet at the address of the key. -/
theorem Built.exists_common (h : Built kept early g) {sim sim' : SimulatedTransaction}
    (hsim : sim ∈ kept) (hsim' : sim' ∈ kept) (type type' : UnitType) {k : H256}
    (hk : k ∈ (accessMap sim type).keys) (hk' : k ∈ (accessMap sim' type').keys) :
    ∃ a ∈ g.addresses, (∃ u ∈ a.units type, u.tx = sim.id) ∧
      ∃ u ∈ a.units type', u.tx = sim'.id := by
  obtain ⟨a, ha, hak, hu⟩ := h.exists_unit hsim type hk
  obtain ⟨b, hb, hbk, hv⟩ := h.exists_unit hsim' type' hk'
  obtain rfl := eq_of_address_eq h.nodup ha hb (hak.trans hbk.symm)
  exact ⟨a, ha, hu, hv⟩

/-- A reader and a writer of a key meet at an address. -/
theorem Built.exists_address (h : Built kept early g) {simR simW : SimulatedTransaction}
    (hsimR : simR ∈ kept) (hsimW : simW ∈ kept) {k : H256}
    (hkr : k ∈ (keptTransaction simR).readKeys) (hkw : k ∈ (keptTransaction simW).writeKeys) :
    ∃ a ∈ g.hierarchcialSort.addresses, a.Reads simR.id ∧ a.Writes simW.id := by
  obtain ⟨a, ha, hr, hw⟩ := h.exists_common hsimR hsimW .read .write hkr hkw
  obtain ⟨a', ha', -, hreads, hwrites⟩ :=
    exists_mem_sortAll (c := g.cells) (mem_addressRank.2 ha)
  exact ⟨a', ha', (hreads _).2 hr, (hwrites _).2 hw⟩

section Distinct

variable (hid : ((kept ++ early).map (·.id)).Nodup)
include hid

theorem Built.nodup_txList (h : Built kept early g) : (g.txList.map (·.txId)).Nodup := by
  rw [h.txList, List.map_map]
  rw [List.map_append] at hid
  exact (List.nodup_append.1 hid).1

/-- The transactions that are reordered are distinct. -/
theorem Built.nodup_reorderTargets (h : Built kept early g) :
    ((reorderTargets g.hierarchcialSort).map (·.txId)).Nodup := by
  have hall : ((g.abortedTxs ++ g.txList).map (·.txId)).Nodup := by
    rw [h.abortedTxs, h.txList, List.map_append, List.map_map, List.map_map]
    rw [List.map_append] at hid
    exact (List.perm_append_comm.nodup_iff).1 hid
  refine (List.filter_sublist.map _).nodup ?_
  refine ((List.perm_insertionSort _ _).map _).nodup_iff.2 ?_
  exact ((List.filter_sublist.append_left _).map _).nodup hall

/-- The ids of the scheduled transactions are distinct. -/
theorem Built.nodup_scheduled (h : Built kept early g) : ((scheduled g).map (·.txId)).Nodup := by
  rw [scheduled, List.map_append, List.nodup_append]
  refine ⟨(List.filter_sublist.map _).nodup (h.nodup_txList hid), h.nodup_reorderTargets hid, ?_⟩
  rintro _ hx _ hy rfl
  obtain ⟨tx, htx, hxid⟩ := List.mem_map.1 hx
  obtain ⟨tx', htx', hyid⟩ := List.mem_map.1 hy
  obtain ⟨-, hab, -⟩ := h.mem_reorderTargets htx'
  have hlive := (List.mem_filter.1 htx).2
  rw [hyid, ← hxid] at hab
  simp [hab] at hlive

theorem Built.txList_reorder (h : Built kept early g) :
    g.hierarchcialSort.reorder.txList = scheduled g :=
  foldl_insertTx (h.nodup_scheduled hid)

/-- The sequence number of a live transaction after `reorder`. -/
theorem Built.sequence_of_live (h : Built kept early g) {t : TxId}
    (hlive : (g.hierarchcialSort.cells t).aborted = false) :
    (g.hierarchcialSort.reorder.cells t).sequence = (g.hierarchcialSort.cells t).sequence := by
  rcases reorder_cells g.hierarchcialSort t (h.nodup_reorderTargets hid) with
    ⟨hcell, -⟩ | ⟨tx, htx, rfl, -⟩
  · rw [hcell]
  · rw [(h.mem_reorderTargets htx).2.1] at hlive
    cases hlive

/-- The sequence number of a reordered transaction. -/
theorem Built.sequence_of_target (h : Built kept early g) {tx : Transaction}
    (htx : tx ∈ reorderTargets g.hierarchcialSort) :
    (g.hierarchcialSort.reorder.cells tx.txId).sequence =
      reorderSequence g.hierarchcialSort.addresses tx := by
  have hnodup := h.nodup_reorderTargets hid
  rcases reorder_cells g.hierarchcialSort tx.txId hnodup with ⟨-, hnot⟩ | ⟨tx', htx', hid', hcell⟩
  · exact absurd (List.mem_map_of_mem htx) hnot
  · obtain rfl := List.inj_on_of_nodup_map hnodup htx' htx hid'
    rw [hcell]

/-- A number below an aborted transaction is below the sequence number that `reorder` gives it. -/
theorem Built.lt_reorderSequence (h : Built kept early g) {sim : SimulatedTransaction}
    (hsim : sim ∈ kept) {s : Nat} (hab : (g.hierarchcialSort.cells sim.id).aborted = true)
    (hs : Below g.hierarchcialSort.addresses g.hierarchcialSort.cells s sim.id) :
    s < reorderSequence g.hierarchcialSort.addresses (keptTransaction sim) := by
  rw [Below, if_pos hab] at hs
  obtain ⟨j, hj, hjw, hlt⟩ := hs
  obtain ⟨b, hb, hjb, hwrites⟩ := exists_of_mem_sortAll hj
  obtain ⟨u, hu, hut⟩ := (hwrites _).1 hjw
  obtain ⟨hub, sim', hsim', hu'⟩ :=
    (h.units .write b.address u).1 ⟨b, mem_addressRank.1 hb, rfl, hu⟩
  have hkept : (kept.map (·.id)).Nodup := by
    rw [List.map_append] at hid
    exact (List.nodup_append.1 hid).1
  obtain rfl := List.inj_on_of_nodup_map hkept hsim' hsim ((of_mem_unitsOf hu').1.symm.trans hut)
  have hget : getAddress g.hierarchcialSort.addresses u.address = some j := by
    rw [hub, ← hjb]
    exact getAddress_of_mem h.nodup_sorted hj
  exact hlt.trans_le (le_reorderSequence (keptTransaction sim') hu' hget)

/-- The sequence numbers put a scheduled transaction that reads a key below the other scheduled
transactions that write it. -/
theorem Built.sequence_lt {P : TxId → Prop} (h : Built kept early g)
    (hmeets : SweepMeets (StepOrdered P) [] g.addressRank g.cells)
    (hre : ∀ tx ∈ reorderTargets g.hierarchcialSort, P tx.txId → tx.readKeys = [])
    {r w : Transaction} (hr : r ∈ scheduled g) (hw : w ∈ scheduled g) (hne : r.txId ≠ w.txId)
    (hPr : P r.txId) (hPw : P w.txId) {k : H256} (hkr : k ∈ r.readKeys) (hkw : k ∈ w.writeKeys) :
    (g.hierarchcialSort.reorder.cells r.txId).sequence <
      (g.hierarchcialSort.reorder.cells w.txId).sequence := by
  obtain ⟨simR, hsimR, rfl⟩ := h.exists_sim hr
  obtain ⟨simW, hsimW, rfl⟩ := h.exists_sim hw
  have hrlive : (g.hierarchcialSort.cells simR.id).aborted = false := by
    rcases List.mem_append.1 hr with hr | hr
    · simpa using (List.mem_filter.1 hr).2
    · rw [hre _ hr hPr] at hkr
      cases hkr
  obtain ⟨a, ha, har, haw⟩ := h.exists_address hsimR hsimW hkr hkw
  have hbelow := (h.swept hmeets).below a ha simR.id simW.id har haw hne hPr hPw hrlive
  rw [keptTransaction_txId, h.sequence_of_live hid hrlive]
  rcases List.mem_append.1 hw with hw | hw
  · have hwlive : (g.hierarchcialSort.cells simW.id).aborted = false := by
      simpa using (List.mem_filter.1 hw).2
    rw [keptTransaction_txId, h.sequence_of_live hid hwlive]
    rwa [Below, if_neg (by simp [hwlive])] at hbelow
  · rw [h.sequence_of_target hid hw]
    exact h.lt_reorderSequence hid hsimW (h.mem_reorderTargets hw).2.1 hbelow

/-- A live transaction that reads a key and another live transaction that writes it have different
sequence numbers. -/
theorem Built.sequence_ne {P : TxId → Prop} (h : Built kept early g)
    (hmeets : SweepMeets (StepUntied P) [] g.addressRank g.cells) {r w : Transaction}
    (hr : r ∈ scheduled g) (hw : w ∈ scheduled g) (hne : r.txId ≠ w.txId)
    (hrlive : r ∉ reorderTargets g.hierarchcialSort)
    (hwlive : w ∉ reorderTargets g.hierarchcialSort) (hPr : P r.txId) (hPw : P w.txId) {k : H256}
    (hkr : k ∈ r.readKeys) (hkw : k ∈ w.writeKeys) :
    (g.hierarchcialSort.reorder.cells r.txId).sequence ≠
      (g.hierarchcialSort.reorder.cells w.txId).sequence := by
  have hlive : ∀ tx ∈ scheduled g, tx ∉ reorderTargets g.hierarchcialSort →
      (g.hierarchcialSort.cells tx.txId).aborted = false := by
    intro tx htx hnot
    rcases List.mem_append.1 htx with htx | htx
    · simpa using (List.mem_filter.1 htx).2
    · exact absurd htx hnot
  have hrlive := hlive r hr hrlive
  have hwlive := hlive w hw hwlive
  obtain ⟨simR, hsimR, rfl⟩ := h.exists_sim hr
  obtain ⟨simW, hsimW, rfl⟩ := h.exists_sim hw
  obtain ⟨a, ha, har, haw⟩ := h.exists_address hsimR hsimW hkr hkw
  rw [h.sequence_of_live hid hrlive, h.sequence_of_live hid hwlive]
  exact (h.untied hmeets).ne a ha _ _ har haw hne hPr hPw hrlive hwlive

end Distinct

end Chase.Graph
