import Chase.Cds.Chains
import Chase.Cds.Epochs
import Chase.Lib.Interleaving

/-!
# A schedule and its commits

`build_cds_schedule` makes chains of the first wave and places the transactions of the other waves
into epochs, by id (`buildCdsSchedule_zones`). `_commit_cds_schedule` applies the chains in
parallel, then the epochs one after the other (`ScheduledInfo.CommitOrder`). What holds of two
committed transactions in this order follows from the zones: from two of the first wave, two of an
epoch, and two in the order of their zones (`commitOrder_pairwise`).
-/

namespace Chase

open Chase.Graph Interleave

/-- The parallel parts of a commit: the chains, then each epoch with its transactions in any
order. -/
def ScheduledInfo.phases (s : ScheduledInfo) : List (List (List FinalizedTransaction)) :=
  s.conflictFreeZone :: s.conflictZoneFinalized.map fun epoch => epoch.map fun tx => [tx]

/-- An order in which `_commit_cds_schedule` may apply the transactions of a schedule. -/
def ScheduledInfo.CommitOrder (s : ScheduledInfo) (applied : List FinalizedTransaction) : Prop :=
  Phased s.phases applied

/-- The candidates of the conflict zone, in the order in which they are placed. -/
def waveCandidates (c : Cells) (txList : List Transaction) :
    List (Cds.TxWithKeys FinalizedTransaction) :=
  Cds.sortById ((seq2plusTxs c txList).map Cds.TxWithKeys.fromTransaction)

theorem flatten_map_singleton {α : Type} (l : List α) : (l.map fun a => [a]).flatten = l :=
  List.flatMap_singleton' l

/-- The phases have the finalized transactions of both zones. -/
theorem ScheduledInfo.flatten_phases (s : ScheduledInfo) : s.phases.flatten.flatten =
    s.conflictFreeZone.flatten ++ s.conflictZoneFinalized.flatten := by
  rw [ScheduledInfo.phases, List.flatten_cons, List.flatten_append]
  congr 1
  induction s.conflictZoneFinalized with
  | nil => rfl
  | cons epoch epochs ih =>
    rw [List.map_cons, List.flatten_cons, List.flatten_append, ih, flatten_map_singleton,
      List.flatten_cons]

/-- The transactions of an epoch, each as a chain of its own. -/
theorem mem_flatten_phase {epoch : List (Cds.TxWithKeys FinalizedTransaction)}
    {tx : FinalizedTransaction} :
    tx ∈ (epoch.map fun x => [x.payload]).flatten ↔ ∃ x ∈ epoch, x.payload = tx := by
  simp [List.mem_flatten, eq_comm]

variable {c : Cells} {txList abortedTxs : List Transaction} {s : ScheduledInfo}

/-- The zones of a schedule that was built. -/
theorem buildCdsSchedule_zones (h : ScheduledInfo.buildCdsSchedule c txList abortedTxs = .ok s) :
    Cds.extractConflictFreeChains (firstEpochTxs c txList) = .ok s.conflictFreeZone ∧
      s.conflictZoneFinalized = (Cds.placeIntoEpochs (waveCandidates c txList)).map
        fun epoch => epoch.map (·.payload) := by
  rw [ScheduledInfo.buildCdsSchedule] at h
  cases hzone : Cds.extractConflictFreeChains (firstEpochTxs c txList) with
  | error e =>
    rw [hzone] at h
    cases h
  | ok zone =>
    rw [hzone] at h
    cases h
    exact ⟨rfl, rfl⟩

/-- A candidate in an epoch is a transaction of a later wave. -/
theorem exists_tx_of_mem_epoch {epoch : List (Cds.TxWithKeys FinalizedTransaction)}
    (hepoch : epoch ∈ Cds.placeIntoEpochs (waveCandidates c txList))
    {x : Cds.TxWithKeys FinalizedTransaction} (hx : x ∈ epoch) :
    ∃ t ∈ seq2plusTxs c txList, Cds.TxWithKeys.fromTransaction t = x :=
  List.mem_map.1 (((Cds.placeIntoEpochs_perm (waveCandidates c txList)).trans
    (Cds.sortById_perm _)).mem_iff.1 (List.mem_flatten.2 ⟨epoch, hepoch, hx⟩))

section
variable (h : ScheduledInfo.buildCdsSchedule c txList abortedTxs = .ok s)
include h

/-- A commit applies the transactions of the list. -/
theorem buildCdsSchedule_perm {applied : List FinalizedTransaction}
    (happlied : s.CommitOrder applied) : applied.Perm (txList.map (·.toFinalized)) := by
  obtain ⟨hfirst, hlater⟩ := buildCdsSchedule_zones h
  have hzone := Cds.extractConflictFreeChains_perm hfirst
  have hepochs : s.conflictZoneFinalized.flatten.Perm
      ((seq2plusTxs c txList).map (·.toFinalized)) := by
    rw [hlater, ← List.map_flatten]
    have hperm := ((Cds.placeIntoEpochs_perm (waveCandidates c txList)).trans
      (Cds.sortById_perm _)).map (·.payload)
    rwa [List.map_map] at hperm
  have hrun := happlied.perm
  rw [s.flatten_phases] at hrun
  refine (hrun.trans (hzone.append hepochs)).trans ?_
  rw [← List.map_append]
  exact (firstEpochTxs_append_perm c txList).map _

/-- A commit applies a transaction once. -/
theorem commitOrder_nodup_ids (hid : (txList.map (·.txId)).Nodup)
    {applied : List FinalizedTransaction} (happlied : s.CommitOrder applied) :
    (applied.map (·.id)).Nodup := by
  refine ((buildCdsSchedule_perm h happlied).map (·.id)).nodup_iff.2 ?_
  rw [List.map_map]
  exact hid

/-- The phases after the first are the epochs, with each transaction as a chain of its own. -/
theorem exists_epoch_of_phase {cs : List (List FinalizedTransaction)}
    (hcs : cs ∈ s.conflictZoneFinalized.map fun epoch => epoch.map fun tx => [tx]) :
    ∃ epoch ∈ Cds.placeIntoEpochs (waveCandidates c txList),
      cs = epoch.map fun x => [x.payload] := by
  rw [(buildCdsSchedule_zones h).2, List.map_map] at hcs
  obtain ⟨epoch, hepoch, rfl⟩ := List.mem_map.1 hcs
  exact ⟨epoch, hepoch, List.map_map⟩

/-- A commit respects `R` when the first wave and the epochs do, each in any order of its own, the
first wave before the others, and the epochs in theirs. -/
theorem commitOrder_pairwise {R : FinalizedTransaction → FinalizedTransaction → Prop}
    (hfirst : ∀ t ∈ firstEpochTxs c txList, ∀ u ∈ firstEpochTxs c txList,
      R t.toFinalized u.toFinalized)
    (hcross : ∀ t ∈ firstEpochTxs c txList, ∀ u ∈ seq2plusTxs c txList,
      R t.toFinalized u.toFinalized)
    (hepoch : ∀ epoch ∈ Cds.placeIntoEpochs (waveCandidates c txList), ∀ x ∈ epoch, ∀ y ∈ epoch,
      R x.payload y.payload)
    (hord : Cds.EpochsOrdered (fun x y => R x.payload y.payload)
      (Cds.placeIntoEpochs (waveCandidates c txList)))
    {applied : List FinalizedTransaction} (happlied : s.CommitOrder applied) :
    applied.Pairwise R := by
  have hzone : ∀ a ∈ s.conflictFreeZone.flatten, ∃ t ∈ firstEpochTxs c txList, t.toFinalized = a :=
    fun a ha => List.mem_map.1
      ((Cds.extractConflictFreeChains_perm (buildCdsSchedule_zones h).1).mem_iff.1 ha)
  refine happlied.pairwise (fun cs hcs a ha b hb => ?_) (List.pairwise_cons.2 ⟨?_, ?_⟩)
  · rcases List.mem_cons.1 hcs with rfl | hcs
    · obtain ⟨t, ht, rfl⟩ := hzone a ha
      obtain ⟨u, hu, rfl⟩ := hzone b hb
      exact hfirst t ht u hu
    · obtain ⟨epoch, he, rfl⟩ := exists_epoch_of_phase h hcs
      obtain ⟨x, hx, rfl⟩ := mem_flatten_phase.1 ha
      obtain ⟨y, hy, rfl⟩ := mem_flatten_phase.1 hb
      exact hepoch epoch he x hx y hy
  · intro cs hcs a ha b hb
    obtain ⟨t, ht, rfl⟩ := hzone a ha
    obtain ⟨epoch, he, rfl⟩ := exists_epoch_of_phase h hcs
    obtain ⟨x, hx, rfl⟩ := mem_flatten_phase.1 hb
    obtain ⟨u, hu, rfl⟩ := exists_tx_of_mem_epoch he hx
    exact hcross t ht u hu
  · rw [(buildCdsSchedule_zones h).2, List.map_map, List.pairwise_map]
    refine hord.imp fun {e e'} hee' a ha b hb => ?_
    rw [Function.comp_apply, flatten_map_singleton] at ha hb
    obtain ⟨x, hx, rfl⟩ := List.mem_map.1 ha
    obtain ⟨y, hy, rfl⟩ := List.mem_map.1 hb
    exact hee' x hx y hy

end

end Chase
