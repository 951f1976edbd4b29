import Chase.Core.Schedule
import Chase.Graph.FirstUpdater
import Chase.Graph.Order
import Chase.Lib.SerialOrder
import Mathlib.Data.List.Permutation

/-!
# The first pass

The first pass is serializable when, for every order in which `_commit_cds_schedule` may apply its
schedule, some serial order of the committed transactions explains the state: no transaction reads a
slot that an earlier one writes, and the last writer of a slot is the one that was applied last
(`FirstPassSerializable`).

The sequence numbers are such an order only under three conditions (`FirstPassMeets`), each about a
branch of the source: the two of the sweep (`SweepMeets`), that a transaction which `reorder` takes
for write-only reads nothing, and that the epochs, which are filled by transaction id, keep two
writers of a slot in the order of their waves (`WaveOrder`).
-/

namespace Chase

open Chase.Graph Interleave Serial AddressBasedConflictGraph

section Access

variable (sims : List SimulatedTransaction)

/-- The slots that a transaction reads, by its simulation. -/
def readSlots (tx : FinalizedTransaction) : List Slot :=
  ((sims.find? fun sim => sim.id = tx.id).map fun sim => sim.rwSet.readSet.slots).getD []

/-- The slots that a transaction writes, by its simulation. -/
def writeSlots (tx : FinalizedTransaction) : List Slot :=
  ((sims.find? fun sim => sim.id = tx.id).map fun sim => sim.rwSet.writeSet.slots).getD []

/-- Every order of the commits has a serial order that explains it. -/
def FirstPassSerializable (s : ScheduledInfo) : Prop :=
  ∀ applied, s.CommitOrder applied →
    ∃ serial, SerialOrder (readSlots sims) (writeSlots sims) applied serial

/-- Two transactions that write a common slot are in the order of their waves. -/
def WaveOrder (c : Cells) (a b : Cds.TxWithKeys FinalizedTransaction) : Prop :=
  ∀ slot ∈ writeSlots sims a.payload, slot ∈ writeSlots sims b.payload →
    (c a.id).sequence ≤ (c b.id).sequence

instance (c : Cells) : DecidableRel (WaveOrder sims c) := fun _ _ =>
  inferInstanceAs (Decidable (∀ slot ∈ _, _))

/-- The graph after `construct -> hierarchcial_sort -> reorder`. -/
def reordered : AddressBasedConflictGraph := (construct sims).hierarchcialSort.reorder

/-- The candidates of the conflict zone, in the order in which they are placed. -/
def conflictZoneCandidates : List (Cds.TxWithKeys FinalizedTransaction) :=
  Cds.sortById ((seq2plusTxs (reordered sims).cells (reordered sims).txList).map
    Cds.TxWithKeys.fromTransaction)

/-- The conditions under which the first pass is serializable. -/
structure FirstPassMeets : Prop where
  sweep : SweepMeets (StepOrdered fun _ => True) [] (construct sims).addressRank
    (construct sims).cells
  reorder : ∀ tx ∈ reorderTargets (construct sims).hierarchcialSort, tx.readKeys = []
  placement : Lockstep.Meets Cds.placeStep
    (Cds.InOrder (WaveOrder sims (reordered sims).cells)) {} (conflictZoneCandidates sims)

end Access

/-! ## The slots of a scheduled transaction -/

variable {sims kept early : List SimulatedTransaction}

/-- A scheduled transaction comes from a simulated one. -/
theorem exists_sim_of_scheduled (hbuilt : Built kept early (construct sims))
    (hperm : (kept ++ early).Perm sims) {tx : Transaction} (htx : tx ∈ scheduled (construct sims)) :
    ∃ sim ∈ sims, tx = keptTransaction sim := by
  obtain ⟨sim, hsim, rfl⟩ := hbuilt.exists_sim htx
  exact ⟨sim, hperm.mem_iff.1 (List.mem_append_left _ hsim), rfl⟩

section

variable (hid : (sims.map (·.id)).Nodup) {sim : SimulatedTransaction} (hsim : sim ∈ sims)

include hid hsim

/-- An id finds its simulation. -/
theorem find?_id :
    (sims.find? fun s => s.id = sim.id) = some sim := by
  cases hfind : sims.find? fun s => s.id = sim.id with
  | none => exact absurd (List.find?_eq_none.1 hfind sim hsim) (by simp)
  | some s =>
    have hs : s.id = sim.id := by simpa using List.find?_some hfind
    rw [List.inj_on_of_nodup_map hid (List.mem_of_find?_eq_some hfind) hsim hs]

/-- The read slots of a kept transaction are those of its simulation. -/
theorem readSlots_of_sim :
    readSlots sims (keptTransaction sim).toFinalized = sim.rwSet.readSet.slots := by
  have : (keptTransaction sim).toFinalized.id = sim.id := rfl
  rw [readSlots, this, find?_id hid hsim]
  rfl

/-- The write slots of a kept transaction are those of its simulation. -/
theorem writeSlots_of_sim :
    writeSlots sims (keptTransaction sim).toFinalized = sim.rwSet.writeSet.slots := by
  have : (keptTransaction sim).toFinalized.id = sim.id := rfl
  rw [writeSlots, this, find?_id hid hsim]
  rfl

/-- The key of a slot that a scheduled transaction reads is one of its read keys. -/
theorem mem_readKeys_of_mem_readSlots {slot : Slot}
    (h : slot ∈ readSlots sims (keptTransaction sim).toFinalized) :
    slot.2 ∈ (keptTransaction sim).readKeys := by
  rw [readSlots_of_sim hid hsim] at h
  exact AccessMap.mem_keys.2 ⟨slot.1, h⟩

/-- The key of a written slot is one of the write keys. -/
theorem mem_writeKeys_of_mem_writeSlots {slot : Slot}
    (h : slot ∈ writeSlots sims (keptTransaction sim).toFinalized) :
    slot.2 ∈ (keptTransaction sim).writeKeys := by
  rw [writeSlots_of_sim hid hsim] at h
  exact AccessMap.mem_keys.2 ⟨slot.1, h⟩

end

/-! ## The transactions of a schedule -/

section Schedule

variable (sims)

/-- The first commit wave. -/
def firstWave : List Transaction := firstEpochTxs (reordered sims).cells (reordered sims).txList

/-- The other commit waves. -/
def laterWaves : List Transaction := seq2plusTxs (reordered sims).cells (reordered sims).txList

/-- The epochs of the conflict zone, with the keys of their transactions. -/
def conflictZoneEpochs : List (List (Cds.TxWithKeys FinalizedTransaction)) :=
  Cds.placeIntoEpochs (conflictZoneCandidates sims)

variable {sims}

/-- A schedule is built from the graph after the reordering. -/
theorem buildCdsSchedule_of_schedule {s : ScheduledInfo} (h : schedule sims = .ok s) :
    ScheduledInfo.buildCdsSchedule (reordered sims).cells (reordered sims).txList
      (reordered sims).abortedTxs = .ok s := h

/-- The schedule exists when the chains of the first wave do. -/
theorem exists_schedule {zone : List (List FinalizedTransaction)}
    (h : Cds.extractConflictFreeChains (firstWave sims) = .ok zone) :
    ∃ s, schedule sims = .ok s := by
  rw [firstWave, reordered] at h
  rw [schedule, extractSchedule, ScheduledInfo.buildCdsSchedule, h]
  exact ⟨_, rfl⟩

/-- The conflict-free zone commits the first wave. -/
theorem conflictFreeZone_perm {s : ScheduledInfo} (h : schedule sims = .ok s) :
    s.conflictFreeZone.flatten.Perm ((firstWave sims).map (·.toFinalized)) :=
  Cds.extractConflictFreeChains_perm
    (buildCdsSchedule_zones (buildCdsSchedule_of_schedule h)).1

/-- A commit applies the scheduled transactions. -/
theorem commitOrder_perm (hid : ((kept ++ early).map (·.id)).Nodup)
    (hbuilt : Built kept early (construct sims)) {s : ScheduledInfo} (h : schedule sims = .ok s)
    {applied : List FinalizedTransaction} (happlied : s.CommitOrder applied) :
    applied.Perm ((scheduled (construct sims)).map (·.toFinalized)) := by
  rw [← hbuilt.txList_reorder hid]
  exact buildCdsSchedule_perm (buildCdsSchedule_of_schedule h) happlied

/-- The waves are the scheduled transactions. -/
theorem waves_perm (hid : ((kept ++ early).map (·.id)).Nodup)
    (hbuilt : Built kept early (construct sims)) :
    (firstWave sims ++ laterWaves sims).Perm (scheduled (construct sims)) := by
  rw [← hbuilt.txList_reorder hid]
  exact firstEpochTxs_append_perm ..

/-- A transaction of an epoch comes from a simulated one of a later wave. -/
theorem exists_sim_of_mem_epoch (hid : (sims.map (·.id)).Nodup)
    {epoch : List (Cds.TxWithKeys FinalizedTransaction)} (hepoch : epoch ∈ conflictZoneEpochs sims)
    {x : Cds.TxWithKeys FinalizedTransaction} (hx : x ∈ epoch) :
    ∃ sim ∈ sims, keptTransaction sim ∈ laterWaves sims ∧
      x = Cds.TxWithKeys.fromTransaction (keptTransaction sim) := by
  obtain ⟨kept, early, hperm, hbuilt, hid'⟩ := construct_built hid
  obtain ⟨tx, htx, rfl⟩ := exists_tx_of_mem_epoch hepoch hx
  obtain ⟨sim, hsim, rfl⟩ := exists_sim_of_scheduled hbuilt hperm
    ((waves_perm hid' hbuilt).mem_iff.1 (List.mem_append_right _ htx))
  exact ⟨sim, hsim, htx, rfl⟩

/-- Two transactions write different slots. -/
def DisjointWrites (sims : List SimulatedTransaction)
    (x y : Cds.TxWithKeys FinalizedTransaction) : Prop :=
  ∀ slot ∈ writeSlots sims x.payload, slot ∉ writeSlots sims y.payload

instance : Std.Symm (DisjointWrites sims) := ⟨fun _ _ h slot hy hx => h slot hx hy⟩

/-- Two transactions of an epoch write different slots. -/
theorem epoch_disjoint (hid : (sims.map (·.id)).Nodup)
    {epoch : List (Cds.TxWithKeys FinalizedTransaction)}
    (hepoch : epoch ∈ conflictZoneEpochs sims) : epoch.Pairwise (DisjointWrites sims) := by
  refine (Cds.placeIntoEpochs_disjoint _ epoch hepoch).imp_of_mem ?_
  intro x y hx hy hdisj slot hslot hslot'
  obtain ⟨simX, hsimX, -, rfl⟩ := exists_sim_of_mem_epoch hid hepoch hx
  obtain ⟨simY, hsimY, -, rfl⟩ := exists_sim_of_mem_epoch hid hepoch hy
  exact hdisj slot.2 (mem_writeKeys_of_mem_writeSlots hid hsimX hslot)
    (mem_writeKeys_of_mem_writeSlots hid hsimY hslot')

/-- The transactions that write a slot are committed in the order of their waves, when the epochs
keep them so. -/
theorem commitOrder_waves (hid : (sims.map (·.id)).Nodup)
    (hplace : Lockstep.Meets Cds.placeStep
      (Cds.InOrder (WaveOrder sims (reordered sims).cells)) {} (conflictZoneCandidates sims))
    {s : ScheduledInfo} (h : schedule sims = .ok s) {applied : List FinalizedTransaction}
    (happlied : s.CommitOrder applied) :
    applied.Pairwise fun a b => ∀ slot ∈ writeSlots sims a, slot ∈ writeSlots sims b →
      ((reordered sims).cells a.id).sequence ≤ ((reordered sims).cells b.id).sequence := by
  refine commitOrder_pairwise (buildCdsSchedule_of_schedule h)
    (fun t ht u hu _ _ _ => (firstEpochTxs_sequence ht hu).le)
    (fun t ht u hu _ _ _ => sequence_le_of_mem_seq2plusTxs ht hu)
    (fun epoch hepoch x hx y hy slot hslot hslot' => ?_) ?_ happlied
  · by_cases hxy : x = y
    · rw [hxy]
    · exact absurd hslot' ((epoch_disjoint hid hepoch).forall hx hy hxy slot hslot)
  · refine (Cds.placeIntoEpochs_ordered hplace).imp_of_mem fun {e e'} he he' hee' x hx y hy => ?_
    have hle := hee' x hx y hy
    obtain ⟨simX, -, -, rfl⟩ := exists_sim_of_mem_epoch hid he hx
    obtain ⟨simY, -, -, rfl⟩ := exists_sim_of_mem_epoch hid he' hy
    exact hle

end Schedule

/-! ## Serializability -/

/-- Under the conditions, the sequence numbers put the readers of a key below its other writers. -/
theorem sequence_lt_of_reads (hid : (sims.map (·.id)).Nodup) {P : TxId → Prop}
    (hsweep : SweepMeets (StepOrdered P) [] (construct sims).addressRank (construct sims).cells)
    (hre : ∀ tx ∈ reorderTargets (construct sims).hierarchcialSort, P tx.txId → tx.readKeys = [])
    {r w : Transaction} (hr : r ∈ scheduled (construct sims)) (hw : w ∈ scheduled (construct sims))
    (hne : r ≠ w) (hPr : P r.txId) (hPw : P w.txId) {k : H256} (hkr : k ∈ r.readKeys)
    (hkw : k ∈ w.writeKeys) :
    ((reordered sims).cells r.txId).sequence < ((reordered sims).cells w.txId).sequence := by
  obtain ⟨kept, early, -, hbuilt, hid'⟩ := construct_built hid
  have hne' : r.txId ≠ w.txId := fun he =>
    hne (List.inj_on_of_nodup_map (hbuilt.nodup_scheduled hid') hr hw he)
  exact hbuilt.sequence_lt hid' hsweep hre hr hw hne' hPr hPw hkr hkw

/-- The transactions of the first wave are scheduled, without repetition. -/
theorem firstWave_spec (hid : (sims.map (·.id)).Nodup) :
    (firstWave sims).Nodup ∧ ∀ tx ∈ firstWave sims, tx ∈ scheduled (construct sims) := by
  obtain ⟨kept, early, -, hbuilt, hid'⟩ := construct_built hid
  have hwaves := waves_perm hid' hbuilt
  have hnodup := hwaves.nodup_iff.2 (hbuilt.nodup_scheduled hid').of_map
  exact ⟨(List.nodup_append.1 hnodup).1, fun tx htx =>
    hwaves.mem_iff.1 (List.mem_append_left _ htx)⟩

/-- **The first pass is serializable** when the sweep keeps no writer beside a reader of the same
number and raises no updater past a writer, a reordered transaction reads nothing, and the epochs
keep the writers of a slot in the order of their waves. -/
theorem firstPass_serializable (sims : List SimulatedTransaction) (hid : (sims.map (·.id)).Nodup)
    (hmeets : FirstPassMeets sims) :
    ∃ s, schedule sims = .ok s ∧ FirstPassSerializable sims s := by
  obtain ⟨kept, early, hperm, hbuilt, hid'⟩ := construct_built hid
  have hlt := fun {r w : Transaction} hr hw hne {k : H256} hkr hkw =>
    sequence_lt_of_reads (r := r) (w := w) (k := k) hid hmeets.sweep
      (fun tx htx _ => hmeets.reorder tx htx) hr hw hne trivial trivial hkr hkw
  obtain ⟨hnodup, hsched⟩ := firstWave_spec hid
  -- the transactions of the first wave have one sequence number, so none reads what another writes
  have hnoedge : ∀ t u, ¬Cds.ReadsFrom (firstWave sims) t u := by
    rintro t u ⟨ht, hu, hne, k, hkr, hkw⟩
    exact absurd (firstEpochTxs_sequence ht hu) (hlt (hsched t ht) (hsched u hu) hne hkr hkw).ne
  obtain ⟨zone, hzone⟩ := Cds.extractConflictFreeChains_ok hnodup fun t hcycle => by
    obtain ⟨u, htu, -⟩ := Relation.TransGen.head'_iff.1 hcycle
    exact hnoedge t u htu
  obtain ⟨s, hs⟩ := exists_schedule hzone
  refine ⟨s, hs, fun applied happlied => ?_⟩
  have happ := commitOrder_perm hid' hbuilt hs happlied
  have hids : (applied.map (·.id)).Nodup := by
    refine commitOrder_nodup_ids (buildCdsSchedule_of_schedule hs) ?_ happlied
    rw [reordered, hbuilt.txList_reorder hid']
    exact hbuilt.nodup_scheduled hid'
  refine SerialOrder.exists_of_rank (fun tx => ((reordered sims).cells tx.id).sequence)
    hids.of_map (fun r hr w hw hne slot hslot hslot' => ?_)
    (commitOrder_waves hid hmeets.placement hs happlied)
  obtain ⟨R, hR, rfl⟩ := List.mem_map.1 (happ.mem_iff.1 hr)
  obtain ⟨W, hW, rfl⟩ := List.mem_map.1 (happ.mem_iff.1 hw)
  obtain ⟨simR, hsimR, rfl⟩ := exists_sim_of_scheduled hbuilt hperm hR
  obtain ⟨simW, hsimW, rfl⟩ := exists_sim_of_scheduled hbuilt hperm hW
  exact hlt hR hW (fun he => hne (congrArg _ he))
    (mem_readKeys_of_mem_readSlots hid hsimR hslot)
    (mem_writeKeys_of_mem_writeSlots hid hsimW hslot')

namespace FirstPassFixture

/-- A transaction that reads and writes the given slots of the contract `1`. -/
def sim (id : TxId) (reads writes : List Nat) : SimulatedTransaction where
  rwSet :=
    { readSet := [(1, reads.map fun k => (BitVec.ofNat 256 k, 0))]
      writeSet := [(1, writes.map fun k => (BitVec.ofNat 256 k, BitVec.ofNat 256 (id + 1)))] }
  effects := [.modify 1 ⟨0, 1⟩ none
    (writes.map fun k => (BitVec.ofNat 256 k, BitVec.ofNat 256 (id + 1))) false]
  logs := []
  rawTx := ⟨.ofCall (BitVec.ofNat 160 (id + 2)) 1 0 [] 50000 0, id⟩

/-- The commit of a transaction of the fixture. -/
def finalized (id : TxId) (writes : List Nat) : FinalizedTransaction :=
  ⟨id, (sim id [] writes).effects⟩

/-- A reader, an updater of the slot `5` and a blind writer of it. -/
def updateThenWrite : List SimulatedTransaction := [sim 0 [9] [], sim 1 [5] [5], sim 2 [] [5]]

/-- The same three transactions, with the ids of the updater and the blind writer exchanged. -/
def writeThenUpdate : List SimulatedTransaction := [sim 0 [9] [], sim 1 [] [5], sim 2 [5] [5]]

/-- An update and blind writes in later waves are committed in a serial order. -/
theorem firstPass_serializable_updateThenWrite :
    ∃ s, schedule updateThenWrite = .ok s ∧ FirstPassSerializable updateThenWrite s :=
  firstPass_serializable updateThenWrite (by decide) ⟨by decide, by decide, by decide⟩

/-- A serial order with the final value of the slot `5` that the commit leaves. -/
def EndsWithUpdate (serial : List FinalizedTransaction) : Prop :=
  (serial.Pairwise fun earlier later =>
      ∀ k ∈ readSlots writeThenUpdate later, k ∉ writeSlots writeThenUpdate earlier) ∧
    lastWriter (writeSlots writeThenUpdate) serial (1, 5) = some (finalized 2 [5])

instance : DecidablePred EndsWithUpdate := fun _ => inferInstanceAs (Decidable (_ ∧ _))

/-- The updater gets the lower sequence number, but the epochs are filled by id: the blind write is
applied before the update, which has not read it and overwrites it. -/
theorem firstPass_loses_write :
    (writeThenUpdate.map (·.id)).Nodup ∧
      ∃ s, schedule writeThenUpdate = .ok s ∧ ¬FirstPassSerializable writeThenUpdate s := by
  refine ⟨by decide, ⟨[[finalized 0 []]], [[finalized 1 [5]], [finalized 2 [5]]], []⟩, by decide,
    fun h => ?_⟩
  obtain ⟨serial, hperm, hno, hlast⟩ := h _ (Phased.flatten _)
  have hcases : ∀ serial ∈ [finalized 0 [], finalized 1 [5], finalized 2 [5]].permutations',
      ¬EndsWithUpdate serial := by
    decide
  exact hcases serial (List.mem_permutations'.2 hperm) ⟨hno, hlast (1, 5)⟩

end FirstPassFixture

end Chase
