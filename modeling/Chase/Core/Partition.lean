import Chase.Core.FirstWave
import Chase.Core.Parallel
import Mathlib.Data.List.Perm.Basic

/-!
# Where the transactions of a batch go

Between `construct` and the finished schedule a transaction is in `tx_list` or in `aborted_txs`, and
moves between the two. Every function keeps both together a rearrangement of the simulated
transactions (`Covers`): a construction adds one, a merge puts two graphs together, `reorder` moves
the aborted ones, and the waves, the chains and the epochs distribute what is there. So a schedule
holds every transaction once, committed or aborted (`Covers.exists_partition`). There is no schedule
when the chain builder panics on a cycle of the first wave, or `par_construct` on an empty batch.
The first is excluded by the conditions on the sort (`FirstWaveMeets`), and then every transaction
is in the schedule (`schedule_keeps_all`).
-/

namespace Chase

open Chase.Graph AddressBasedConflictGraph List

/-! ## The transactions of a graph -/

/-- The transaction of the graph comes from the simulated one. -/
structure Graph.Transaction.From (tx : Transaction) (sim : SimulatedTransaction) : Prop where
  txId : tx.txId = sim.id
  effects : tx.effects = sim.effects
  rawTx : tx.rawTx = sim.rawTx

/-- The graph holds each simulated transaction once. The transactions of `tx_list` write at
addresses of the graph, those that `construct` aborted have no write units. -/
structure Covers (sims : List SimulatedTransaction) (acg : AddressBasedConflictGraph) : Prop where
  source : ∃ order, Forall₂ Transaction.From (acg.txList ++ acg.abortedTxs) order ∧ order.Perm sims
  known : ∀ tx ∈ acg.txList, ∀ u ∈ tx.writeUnits, u.address ∈ acg.addresses.map (·.address)
  early : ∀ tx ∈ acg.abortedTxs, tx.writeUnits = []

variable {sims sims' : List SimulatedTransaction} {acg acg' : AddressBasedConflictGraph}

/-- What the transactions of a graph take over from their simulations. -/
theorem map_eq_of_forall₂ {α : Type} {f : Transaction → α} {g : SimulatedTransaction → α}
    (hfg : ∀ tx sim, tx.From sim → f tx = g sim) {txs : List Transaction}
    {order : List SimulatedTransaction} (h : Forall₂ Transaction.From txs order) :
    txs.map f = order.map g := by
  induction h with
  | nil => rfl
  | cons h _ ih => rw [map_cons, map_cons, ih, hfg _ _ h]

/-- The transactions of a graph have the ids of their simulations. -/
theorem map_txId_of_forall₂ {txs : List Transaction} {order : List SimulatedTransaction}
    (h : Forall₂ Transaction.From txs order) : txs.map (·.txId) = order.map (·.id) :=
  map_eq_of_forall₂ (fun _ _ h => h.txId) h

/-- A graph that covers simulations with distinct ids has distinct ids. -/
theorem Covers.nodup (h : Covers sims acg) (hid : (sims.map (·.id)).Nodup) :
    ((acg.txList ++ acg.abortedTxs).map (·.txId)).Nodup := by
  obtain ⟨order, hfrom, hperm⟩ := h.source
  rw [map_txId_of_forall₂ hfrom]
  exact (hperm.map _).nodup_iff.2 hid

/-- Transactions that a function makes from simulations come from them. -/
theorem forall₂_map_from {f : SimulatedTransaction → Transaction} (hf : ∀ sim, (f sim).From sim)
    (sims : List SimulatedTransaction) : Forall₂ Transaction.From (sims.map f) sims := by
  induction sims with
  | nil => exact .nil
  | cons sim sims ih => exact .cons (hf sim) ih

/-- The construction covers its simulations. -/
theorem construct_covers (hid : (sims.map (·.id)).Nodup) : Covers sims (construct sims) := by
  obtain ⟨kept, early, hperm, hbuilt, -⟩ := construct_built hid
  refine ⟨⟨kept ++ early, ?_, hperm⟩, fun tx htx u hu => ?_, fun tx htx => ?_⟩
  · rw [hbuilt.txList, hbuilt.abortedTxs]
    exact rel_append (forall₂_map_from (fun _ => ⟨rfl, rfl, rfl⟩) kept)
      (forall₂_map_from (fun _ => ⟨rfl, rfl, rfl⟩) early)
  · rw [hbuilt.txList] at htx
    obtain ⟨sim, hsim, rfl⟩ := mem_map.1 htx
    obtain ⟨a, ha, hau, -⟩ := (hbuilt.units .write u.address u).2 ⟨rfl, sim, hsim, hu⟩
    exact mem_map.2 ⟨a, ha, hau⟩
  · rw [hbuilt.abortedTxs] at htx
    obtain ⟨sim, -, rfl⟩ := mem_map.1 htx
    rfl

/-! ## Merging -/

/-- An update of a key adds the key to the addresses. -/
theorem mem_address_modifyAddress {f : Address → Address} {key k : H256}
    (hf : ∀ a, a.address = key → (f a).address = key) {as : List Address} :
    k ∈ (modifyAddress key f as).map (·.address) ↔ k ∈ as.map (·.address) ∨ k = key := by
  induction as with
  | nil => simp [modifyAddress, hf]
  | cons a as ih =>
    rw [modifyAddress]
    split
    · rename_i ha
      simp only [map_cons, mem_cons, hf a ha, ha]
      tauto
    · simp only [map_cons, mem_cons, ih, or_assoc]

theorem Graph.Address.unwind_address (units : List TxUnit) (n : Nat) (a : Address) (c : Cells) :
    (a.unwind units n c).1.address = a.address := by
  rw [Address.unwind]
  split <;> rfl

/-- A merge keeps the key of the address. -/
theorem Graph.Address.merge_address (a other : Address) (c : Cells) :
    (a.merge other c).1.address = a.address := by
  rw [Address.merge]
  split
  · exact (Address.unwind_address ..).trans (Address.unwind_address ..)
  · rfl

/-- A step of the merge adds the key of its address. -/
theorem mem_address_mergeStep {s : List Address × Cells} {address : Address} {k : H256} :
    k ∈ (mergeStep s address).1.map (·.address) ↔
      k ∈ s.1.map (·.address) ∨ k = address.address := by
  rw [mergeStep]
  split
  · rename_i mine hmine
    have haddress : mine.address = address.address := by simpa using find?_some hmine
    refine mem_address_modifyAddress fun a _ => ?_
    rw [Address.merge_address, haddress]
  · simp

/-- A merge has the keys of both graphs. -/
theorem mem_address_merge {k : H256} : k ∈ (acg.merge acg').addresses.map (·.address) ↔
    k ∈ acg.addresses.map (·.address) ∨ k ∈ acg'.addresses.map (·.address) := by
  have hfold : ∀ (others : List Address) (s : List Address × Cells),
      k ∈ (others.foldl mergeStep s).1.map (·.address) ↔
        k ∈ s.1.map (·.address) ∨ k ∈ others.map (·.address) := by
    intro others
    induction others with
    | nil => simp
    | cons a others ih =>
      intro s
      rw [foldl_cons, ih, mem_address_mergeStep, map_cons, mem_cons, or_assoc]
  exact hfold _ _

/-- A merge puts the transactions of two graphs together. -/
theorem Covers.merge (h : Covers sims acg) (h' : Covers sims' acg')
    (hid : ((sims ++ sims').map (·.id)).Nodup) : Covers (sims ++ sims') (acg.merge acg') := by
  obtain ⟨order, hfrom, hperm⟩ := h.source
  obtain ⟨order', hfrom', hperm'⟩ := h'.source
  have hboth := rel_append hfrom hfrom'
  have hnodup : ((acg.txList ++ acg'.txList).map (·.txId)).Nodup := by
    have hall : ((acg.txList ++ acg.abortedTxs ++ (acg'.txList ++ acg'.abortedTxs)).map
        (·.txId)).Nodup := by
      rw [map_txId_of_forall₂ hboth]
      exact ((hperm.append hperm').map _).nodup_iff.2 hid
    refine hall.sublist (Sublist.map _ ?_)
    exact (sublist_append_left _ _).append (sublist_append_left _ _)
  have htxList : (acg.merge acg').txList = acg.txList ++ acg'.txList := foldl_insertTx hnodup
  have habortedTxs : (acg.merge acg').abortedTxs = acg.abortedTxs ++ acg'.abortedTxs := rfl
  refine ⟨?_, fun tx htx u hu => ?_, fun tx htx => ?_⟩
  · have hmove : (acg.txList ++ acg'.txList ++ (acg.abortedTxs ++ acg'.abortedTxs)).Perm
        (acg.txList ++ acg.abortedTxs ++ (acg'.txList ++ acg'.abortedTxs)) := by
      rw [append_assoc, append_assoc, ← append_assoc acg'.txList, ← append_assoc acg.abortedTxs]
      exact (perm_append_comm.append_right _).append_left _
    obtain ⟨order'', hfrom'', hperm''⟩ := perm_comp_forall₂ hmove hboth
    rw [htxList, habortedTxs]
    exact ⟨order'', hfrom'', hperm''.trans (hperm.append hperm')⟩
  · rw [htxList] at htx
    rw [mem_address_merge]
    exact (mem_append.1 htx).imp (fun h'' => h.known tx h'' u hu) fun h'' => h'.known tx h'' u hu
  · rw [habortedTxs] at htx
    exact (mem_append.1 htx).elim (h.early tx) (h'.early tx)

/-- `par_construct` on the given chunks; `none` is the panic when there is none. -/
def mergeChunks (chunks : List (List SimulatedTransaction)) : Option AddressBasedConflictGraph :=
  (TreeMerge.rounds merge (chunks.map construct).length (chunks.map construct)).head?

/-- The rounds of merging end with a graph that holds the transactions of all chunks. -/
theorem mergeChunks_covers {chunks : List (List SimulatedTransaction)} (hne : chunks ≠ [])
    (hid : (chunks.flatten.map (·.id)).Nodup) :
    ∃ acg, mergeChunks chunks = some acg ∧ Covers chunks.flatten acg := by
  have hparts : Forall₂ Covers chunks (chunks.map construct) := by
    rw [forall₂_map_right_iff, forall₂_same]
    intro chunk hchunk
    exact construct_covers (hid.sublist ((sublist_flatten_of_mem hchunk).map _))
  obtain ⟨acg, hacg, hcovers⟩ := TreeMerge.rounds_of_merge
    (P := fun sims : List SimulatedTransaction => (sims.map SimulatedTransaction.id).Nodup)
    (fun hid h h' => h.merge h' hid) (fun hsub hid => hid.sublist (hsub.map _))
    (chunks.map construct).length hne (by rw [length_map]; omega) hid hparts
  exact ⟨acg, by rw [mergeChunks, hacg]; rfl, hcovers⟩

/-! ## Sorting and reordering -/

/-- The sort keeps the transactions of the graph. -/
theorem Covers.hierarchcialSort (h : Covers sims acg) : Covers sims acg.hierarchcialSort := by
  refine ⟨h.source, fun tx htx u hu => ?_, h.early⟩
  exact (hierarchcialSort_perm acg).mem_iff.2 (h.known tx htx u hu)

/-- What `reorder` looks up is there: a transaction that it brings back has write units, and their
addresses are those of the graph. So none of its two calls of `unwrap` panics. -/
theorem Covers.reorder_defined (h : Covers sims acg) {tx : Transaction}
    (htx : tx ∈ reorderTargets acg) :
    tx.writeUnits ≠ [] ∧ ∀ u ∈ tx.writeUnits, (getAddress acg.addresses u.address).isSome := by
  obtain ⟨hmem, hre⟩ := mem_filter.1 htx
  have hunits : tx.writeUnits ≠ [] := by
    intro hnil
    rw [reorderable, hnil] at hre
    simp at hre
  refine ⟨hunits, fun u hu => ?_⟩
  rcases mem_extractAbortedTxs.1 hmem with hearly | ⟨hlist, -⟩
  · exact absurd (h.early tx hearly) hunits
  · obtain ⟨a, ha, hau⟩ := mem_map.1 (h.known tx hlist u hu)
    exact find?_isSome.2 ⟨a, ha, by simpa using hau⟩

theorem filter_append_filter_not_perm {α : Type} (p : α → Bool) (l : List α) :
    (l.filter (fun a => !p a) ++ l.filter p).Perm l :=
  perm_append_comm.trans (filter_append_perm p l)

/-- The transactions that are not aborted. -/
def AddressBasedConflictGraph.live (acg : AddressBasedConflictGraph) : List Transaction :=
  acg.txList.filter fun tx => !(acg.cells tx.txId).aborted

/-- What `reorder` distributes are the transactions of the two lists. -/
theorem live_append_perm (acg : AddressBasedConflictGraph) :
    (acg.live ++ reorderTargets acg ++ acg.reorder.abortedTxs).Perm
      (acg.txList ++ acg.abortedTxs) := by
  let hit := acg.txList.filter fun tx => (acg.cells tx.txId).aborted
  have hlist : (acg.live ++ hit).Perm acg.txList := filter_append_filter_not_perm _ _
  have haborted : acg.extractAbortedTxs.Perm (acg.abortedTxs ++ hit) := perm_insertionSort _ _
  have hsplit : (reorderTargets acg ++ acg.reorder.abortedTxs).Perm acg.extractAbortedTxs :=
    filter_append_perm _ _
  rw [append_assoc]
  refine ((hsplit.trans haborted).append_left acg.live).trans ?_
  refine (perm_append_comm.append_left acg.live).trans ?_
  rw [← append_assoc]
  exact hlist.append_right _

/-- `reorder` puts the live transactions before those that it has reordered. -/
theorem txList_reorder (hnodup : ((acg.txList ++ acg.abortedTxs).map (·.txId)).Nodup) :
    acg.reorder.txList = acg.live ++ reorderTargets acg := by
  refine foldl_insertTx ?_
  have hids := ((live_append_perm acg).map (·.txId)).nodup_iff.2 hnodup
  exact hids.sublist ((sublist_append_left _ _).map _)

/-- `reorder` moves transactions between the two lists. -/
theorem reorder_perm (hnodup : ((acg.txList ++ acg.abortedTxs).map (·.txId)).Nodup) :
    (acg.reorder.txList ++ acg.reorder.abortedTxs).Perm (acg.txList ++ acg.abortedTxs) := by
  rw [txList_reorder hnodup]
  exact live_append_perm acg

/-! ## The schedule -/

/-- The transactions that the first pass commits. -/
def ScheduledInfo.committed (s : ScheduledInfo) : List FinalizedTransaction :=
  s.conflictFreeZone.flatten ++ s.conflictZoneFinalized.flatten

/-- The ids of a schedule. -/
def ScheduledInfo.ids (s : ScheduledInfo) : List TxId :=
  s.committed.map (·.id) ++ s.conflictZoneAborted.flatten.map (·.rawTx.id)

/-- The transactions of the two zones, and the aborted ones. -/
theorem extractSchedule_perm {s : ScheduledInfo} (h : acg.extractSchedule = .ok s) :
    s.committed.Perm (acg.txList.map (·.toFinalized)) ∧
      s.conflictZoneAborted.flatten.Perm (acg.abortedTxs.map (·.toAborted)) := by
  rw [extractSchedule, ScheduledInfo.buildCdsSchedule] at h
  cases hzone : Cds.extractConflictFreeChains (firstEpochTxs acg.cells acg.txList) with
  | error e =>
    rw [hzone] at h
    cases h
  | ok zone =>
    rw [hzone] at h
    cases h
    have hplaced : ∀ {α : Type} (txs : List (Cds.TxWithKeys α)),
        ((Cds.placeIntoEpochs (Cds.sortById txs)).map fun epoch =>
          epoch.map (·.payload)).flatten.Perm (txs.map (·.payload)) := by
      intro α txs
      rw [← map_flatten]
      exact ((Cds.placeIntoEpochs_perm _).trans (Cds.sortById_perm txs)).map _
    constructor
    · refine ((Cds.extractConflictFreeChains_perm hzone).append (hplaced _)).trans ?_
      rw [map_map]
      exact (map_append ▸ (firstEpochTxs_append_perm acg.cells acg.txList).map _ :)
    · refine (hplaced _).trans ?_
      rw [map_map]
      exact .refl _

/-- The schedule of a graph that holds the simulated transactions: some are committed with their
effects, the others are aborted. -/
theorem Covers.exists_partition (h : Covers sims acg) (hid : (sims.map (·.id)).Nodup)
    {s : ScheduledInfo} (hs : acg.hierarchcialSort.reorder.extractSchedule = .ok s) :
    ∃ committed aborted : List SimulatedTransaction, (committed ++ aborted).Perm sims ∧
      s.committed.Perm (committed.map fun sim => ⟨sim.id, sim.effects⟩) ∧
      (s.conflictZoneAborted.flatten.map (·.rawTx)).Perm (aborted.map (·.rawTx)) := by
  have hsorted := h.hierarchcialSort
  obtain ⟨order, hfrom, hperm⟩ := hsorted.source
  obtain ⟨order', hfrom', hperm'⟩ :=
    perm_comp_forall₂ (reorder_perm (hsorted.nodup hid)) hfrom
  let n := acg.hierarchcialSort.reorder.txList.length
  have hcommitted := forall₂_take n hfrom'
  have haborted := forall₂_drop n hfrom'
  rw [take_left] at hcommitted
  rw [drop_left] at haborted
  obtain ⟨hzones, hrest⟩ := extractSchedule_perm hs
  refine ⟨order'.take n, order'.drop n, ?_, ?_, ?_⟩
  · rw [take_append_drop]
    exact hperm'.trans hperm
  · rwa [← map_eq_of_forall₂ (fun tx sim h => ?_) hcommitted]
    rw [Transaction.toFinalized, h.txId, h.effects]
  · have hraw := hrest.map (·.rawTx)
    rw [map_map] at hraw
    rwa [← map_eq_of_forall₂ (fun _ _ h => h.rawTx) haborted]

/-- A schedule of a graph has the ids of the simulations, each once. -/
theorem Covers.ids_perm (h : Covers sims acg) (hid : (sims.map (·.id)).Nodup)
    {s : ScheduledInfo} (hs : acg.hierarchcialSort.reorder.extractSchedule = .ok s) :
    s.ids.Perm (sims.map (·.id)) := by
  obtain ⟨committed, aborted, hperm, hcommitted, haborted⟩ := h.exists_partition hid hs
  have hids := (hcommitted.map (·.id)).append (haborted.map (·.id))
  rw [map_map, map_map, map_map] at hids
  have hall := hperm.map (·.id)
  rw [map_append] at hall
  exact hids.trans hall

/-- `par_construct -> hierarchcial_sort -> reorder -> par_extract_schedule` on the given chunks. -/
def scheduleChunks (chunks : List (List SimulatedTransaction)) :
    Option (Except String ScheduledInfo) :=
  (mergeChunks chunks).map fun acg => acg.hierarchcialSort.reorder.extractSchedule

theorem parSchedule_eq_scheduleChunks (ncpu : Nat) (sims : List SimulatedTransaction) :
    parSchedule ncpu sims = scheduleChunks (simulationChunks ncpu sims) := rfl

/-- The schedule of the parallel construction commits some of the simulated transactions, with their
effects, and aborts the others. -/
theorem parSchedule_partition {ncpu : Nat} (hid : (sims.map (·.id)).Nodup) {s : ScheduledInfo}
    (h : parSchedule ncpu sims = some (.ok s)) :
    ∃ committed aborted : List SimulatedTransaction, (committed ++ aborted).Perm sims ∧
      s.committed.Perm (committed.map fun sim => ⟨sim.id, sim.effects⟩) ∧
      (s.conflictZoneAborted.flatten.map (·.rawTx)).Perm (aborted.map (·.rawTx)) := by
  have hflatten := flatten_simulationChunks ncpu sims
  rw [parSchedule_eq_scheduleChunks, scheduleChunks, Option.map_eq_some_iff] at h
  obtain ⟨acg, hacg, hs⟩ := h
  have hne : simulationChunks ncpu sims ≠ [] := by
    intro hnil
    rw [hnil] at hacg
    cases hacg
  obtain ⟨acg', hacg', hcovers⟩ := mergeChunks_covers hne (by rwa [hflatten])
  obtain rfl := Option.some.inj (hacg.symm.trans hacg')
  rw [hflatten] at hcovers
  exact hcovers.exists_partition hid hs

/-- The graph of chunks without a common updater is that of the whole list. -/
theorem mergeChunks_eq {chunks : List (List SimulatedTransaction)} (hne : chunks ≠ [])
    (hid : (chunks.flatten.map (·.id)).Nodup)
    (hapart : chunks.Pairwise fun c c' => NoCommonUpdater (construct c) (construct c')) :
    mergeChunks chunks = some (construct chunks.flatten) := by
  have hrounds := mergeable_construct.rounds_eq chunks.length hne (Nat.le_succ _)
    (pairwise_apart hid hapart)
  rw [mergeChunks, length_map, hrounds]
  rfl

/-- No transaction is lost or duplicated between a graph and its schedule: what `reorder` looks up
is there, and a schedule that is returned has the ids of all transactions, each once. -/
structure KeepsAll (sims : List SimulatedTransaction) (acg : AddressBasedConflictGraph) : Prop where
  defined : ∀ tx ∈ reorderTargets acg.hierarchcialSort, tx.writeUnits ≠ [] ∧
    ∀ u ∈ tx.writeUnits, (getAddress acg.hierarchcialSort.addresses u.address).isSome
  ids : ∀ s, acg.hierarchcialSort.reorder.extractSchedule = .ok s → s.ids.Perm (sims.map (·.id))

theorem Covers.keepsAll (h : Covers sims acg) (hid : (sims.map (·.id)).Nodup) :
    KeepsAll sims acg :=
  ⟨fun _ htx => h.hierarchcialSort.reorder_defined htx, fun _ hs => h.ids_perm hid hs⟩

/-- **Scheduling keeps every transaction once**, in the sequential construction and in the parallel
one for every division into chunks. There is a schedule when the steps of the sort meet the
conditions for a first wave without a cycle and, in the parallel construction, there is a chunk and
no two chunks have an updater of a common slot. -/
theorem schedule_keeps_all (sims : List SimulatedTransaction) (hid : (sims.map (·.id)).Nodup) :
    KeepsAll sims (construct sims) ∧
    (FirstWaveMeets sims → ∃ s, schedule sims = .ok s ∧ s.ids.Perm (sims.map (·.id))) ∧
    ∀ chunks : List (List SimulatedTransaction), chunks.flatten = sims →
      (∀ acg, mergeChunks chunks = some acg → KeepsAll sims acg) ∧
      (FirstWaveMeets sims → chunks ≠ [] →
        (chunks.Pairwise fun c c' => NoCommonUpdater (construct c) (construct c')) →
          ∃ s, scheduleChunks chunks = some (.ok s) ∧ s.ids.Perm (sims.map (·.id))) := by
  have hkeeps := (construct_covers hid).keepsAll hid
  refine ⟨hkeeps, fun hmeets => ?_, fun chunks hchunks => ⟨fun acg hacg => ?_, ?_⟩⟩
  · obtain ⟨s, hs⟩ := hmeets.exists_schedule hid
    exact ⟨s, hs, hkeeps.ids s hs⟩
  · subst hchunks
    have hne : chunks ≠ [] := by
      rintro rfl
      cases hacg
    obtain ⟨acg', hacg', hcovers⟩ := mergeChunks_covers hne hid
    obtain rfl := Option.some.inj (hacg.symm.trans hacg')
    exact hcovers.keepsAll hid
  · intro hmeets hne hapart
    subst hchunks
    obtain ⟨s, hs⟩ := hmeets.exists_schedule hid
    refine ⟨s, ?_, hkeeps.ids s hs⟩
    rw [scheduleChunks, mergeChunks_eq hne hid hapart, Option.map_some]
    exact congrArg some hs

namespace FirstPassFixture

/-- The two schedules of an update and a blind write keep both. -/
theorem schedule_keeps_all_updateThenWrite :
    (∃ s, schedule updateThenWrite = .ok s ∧ s.ids.Perm (updateThenWrite.map (·.id))) ∧
      ∃ s, scheduleChunks [updateThenWrite.take 1, updateThenWrite.drop 1] = some (.ok s) ∧
        s.ids.Perm (updateThenWrite.map (·.id)) := by
  obtain ⟨-, hall, hchunks⟩ := schedule_keeps_all updateThenWrite (by decide)
  have hmeets : FirstWaveMeets updateThenWrite := ⟨by decide, by decide⟩
  exact ⟨hall hmeets, (hchunks _ rfl).2 hmeets (by decide) (by decide)⟩

/-- The two transactions of `writeSkew` are in no schedule, since the chain builder panics on their
cycle, and an empty batch has none from `par_construct`. -/
theorem schedule_loses_writeSkew :
    (writeSkew.map (·.id)).Nodup ∧
      (¬∃ s, schedule writeSkew = .ok s ∧ s.ids.Perm (writeSkew.map (·.id))) ∧
      ¬∃ s, parSchedule 2 [] = some (.ok s) ∧ s.ids.Perm [] := by
  have hpanic : schedule writeSkew = .error Cds.cycleMessage := by decide
  refine ⟨by decide, ?_, ?_⟩
  · rintro ⟨s, hs, -⟩
    rw [hpanic] at hs
    cases hs
  · rintro ⟨s, hs, -⟩
    cases hs

end FirstPassFixture

end Chase
