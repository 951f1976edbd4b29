import Chase.Core.FirstPass
import Chase.Evm.SlotBackend
import Chase.Graph.Ranks

/-!
# Interleavings of a commit

The chains of the conflict-free zone are built from read-write dependencies only, so two
transactions of the first wave that write the same slot may be in different chains and be applied in
either order. The transactions of an epoch never write the same slot. So the storage after a commit
is the same for all interleavings, and no two transactions that may be applied in either order write
the same slot, exactly when the chain builder puts every two transactions of the first wave that
write a common slot into one chain (`commit_independent_iff`). The transactions of the first wave
have one number, so there are no such two when the sort and `reorder` keep the numbers of the
writers of a slot apart (`commit_independent`).
-/

namespace Chase

open Chase.Graph Interleave AddressBasedConflictGraph

/-- The two transactions may be applied in either order. -/
def ScheduledInfo.EitherOrder (s : ScheduledInfo) (t u : FinalizedTransaction) : Prop :=
  (∃ l, s.CommitOrder l ∧ List.Sublist [t, u] l) ∧ ∃ l, s.CommitOrder l ∧ List.Sublist [u, t] l

/-- The effects of every transaction change only the slots of its write set. -/
def EffectsInWriteSet {β : Type} (B : SlotBackend β) (sims : List SimulatedTransaction) : Prop :=
  ∀ sim ∈ sims, ∀ slot ∉ sim.rwSet.writeSet.slots, ∀ v, B.slotUpdate sim.effects slot v = v

/-- The backend after the effects of the transactions are applied one after the other. -/
def commit {β : Type} (B : SlotBackend β) (b : β) (applied : List FinalizedTransaction) : β :=
  applied.foldl (fun b tx => B.apply b tx.effect) b

/-- The storage does not depend on the interleaving of the commit, and two transactions that may be
applied in either order write different slots. -/
def CommitIndependent {β : Type} (B : SlotBackend β) (sims : List SimulatedTransaction)
    (s : ScheduledInfo) : Prop :=
  (∀ b l l', s.CommitOrder l → s.CommitOrder l' →
      ∀ slot, B.storage (commit B b l) slot = B.storage (commit B b l') slot) ∧
    ∀ t u, s.EitherOrder t u → ∀ slot ∈ writeSlots sims t, slot ∉ writeSlots sims u

/-- Two transactions of the first wave that write a common slot are in one chain. -/
def WritersChained (sims : List SimulatedTransaction) (s : ScheduledInfo) : Prop :=
  ∀ t ∈ firstWave sims, ∀ u ∈ firstWave sims, t ≠ u →
    ∀ slot ∈ writeSlots sims t.toFinalized, slot ∈ writeSlots sims u.toFinalized →
      ∃ chain ∈ s.conflictFreeZone, t.toFinalized ∈ chain ∧ u.toFinalized ∈ chain

variable {sims : List SimulatedTransaction} {s : ScheduledInfo}

/-! ## The storage after a commit -/

/-- Only the transactions that write a slot decide what it holds. -/
theorem storage_commit {β : Type} {B : SlotBackend β} {l : List FinalizedTransaction}
    {slot : Slot} {p : FinalizedTransaction → Bool}
    (hl : ∀ tx ∈ l, p tx = false → ∀ v, B.slotUpdate tx.effect slot v = v) (b : β) :
    B.storage (commit B b l) slot =
      (l.filter p).foldl (fun v tx => B.slotUpdate tx.effect slot v) (B.storage b slot) := by
  induction l generalizing b with
  | nil => rfl
  | cons tx l ih =>
    have ih := ih (fun tx htx => hl tx (List.mem_cons_of_mem _ htx)) (B.apply b tx.effect)
    rw [commit, List.foldl_cons, ← commit, ih, B.storage_apply]
    cases hp : p tx with
    | true => rw [List.filter_cons_of_pos hp, List.foldl_cons]
    | false =>
      rw [List.filter_cons_of_neg (by simp [hp]), hl tx List.mem_cons_self hp]

/-! ## The lanes of a slot -/

/-- The transaction writes the slot. -/
def writesSlot (sims : List SimulatedTransaction) (slot : Slot) (tx : FinalizedTransaction) :
    Bool :=
  decide (slot ∈ writeSlots sims tx)

/-- In an epoch, at most one transaction writes a slot. -/
theorem oneLane_epoch (hid : (sims.map (·.id)).Nodup) (slot : Slot)
    {epoch : List (Cds.TxWithKeys FinalizedTransaction)}
    (hepoch : epoch ∈ conflictZoneEpochs sims) :
    OneLane (writesSlot sims slot) (epoch.map fun x => [x.payload]) := by
  rw [OneLane, List.pairwise_map]
  refine (epoch_disjoint hid hepoch).imp fun hdisj a ha b hb => ?_
  obtain rfl := List.mem_singleton.1 ha
  obtain rfl := List.mem_singleton.1 hb
  rintro ⟨hwa, hwb⟩
  exact hdisj slot (of_decide_eq_true hwa) (of_decide_eq_true hwb)

/-- In the conflict-free zone, the writers of a slot are in one chain. -/
theorem oneLane_conflictFreeZone (hnodup : s.conflictFreeZone.flatten.Nodup)
    (hs : schedule sims = .ok s) (hchained : WritersChained sims s) (slot : Slot) :
    OneLane (writesSlot sims slot) s.conflictFreeZone := by
  refine OneLane.of_mem_lane hnodup fun a ha b hb hne hwa hwb => ?_
  obtain ⟨t, ht, rfl⟩ := List.mem_map.1 ((conflictFreeZone_perm hs).mem_iff.1 ha)
  obtain ⟨u, hu, rfl⟩ := List.mem_map.1 ((conflictFreeZone_perm hs).mem_iff.1 hb)
  exact hchained t ht u hu (fun he => hne (congrArg _ he)) slot (of_decide_eq_true hwa)
    (of_decide_eq_true hwb)

/-- Every interleaving applies the writers of a slot in the same order. -/
theorem filter_writesSlot (hid : (sims.map (·.id)).Nodup)
    (hnodup : s.conflictFreeZone.flatten.Nodup) (hs : schedule sims = .ok s)
    (hchained : WritersChained sims s) (slot : Slot) {l : List FinalizedTransaction}
    (hl : s.CommitOrder l) :
    l.filter (writesSlot sims slot) = s.phases.flatten.flatten.filter (writesSlot sims slot) := by
  refine Phased.filter_eq (fun cs hcs => ?_) hl
  rcases List.mem_cons.1 hcs with rfl | hcs
  · exact oneLane_conflictFreeZone hnodup hs hchained slot
  · obtain ⟨epoch, hepoch, rfl⟩ := exists_epoch_of_phase (buildCdsSchedule_of_schedule hs) hcs
    exact oneLane_epoch hid slot hepoch

/-- The commit of a schedule does not depend on the interleaving, and transactions that may be
applied in either order write different slots, exactly when the transactions of the first wave that
write a common slot are in one chain. -/
theorem commit_independent_iff {β : Type} (B : SlotBackend β) (sims : List SimulatedTransaction)
    (hid : (sims.map (·.id)).Nodup) (heff : EffectsInWriteSet B sims) (s : ScheduledInfo)
    (hs : schedule sims = .ok s) : CommitIndependent B sims s ↔ WritersChained sims s := by
  obtain ⟨kept, early, hperm, hbuilt, hid'⟩ := construct_built hid
  have hcommit := fun {l} (hl : s.CommitOrder l) => commitOrder_perm hid' hbuilt hs hl
  have hnodup : ∀ {l}, s.CommitOrder l → l.Nodup := by
    intro l hl
    have : (l.map (·.id)).Nodup := by
      refine ((hcommit hl).map (·.id)).nodup_iff.2 ?_
      rw [List.map_map]
      exact hbuilt.nodup_scheduled hid'
    exact this.of_map
  have hzone : s.conflictFreeZone.flatten.Nodup := by
    have hall := hnodup (Phased.flatten s.phases)
    rw [ScheduledInfo.phases, List.flatten_cons, List.flatten_append] at hall
    exact (List.nodup_append.1 hall).1
  have hframe : ∀ {l}, s.CommitOrder l → ∀ slot, ∀ tx ∈ l, writesSlot sims slot tx = false →
      ∀ v, B.slotUpdate tx.effect slot v = v := by
    intro l hl slot tx htx hw v
    obtain ⟨t, ht, rfl⟩ := List.mem_map.1 ((hcommit hl).mem_iff.1 htx)
    obtain ⟨sim, hsim, rfl⟩ := exists_sim_of_scheduled hbuilt hperm ht
    have hnot := of_decide_eq_false hw
    rw [writeSlots_of_sim hid hsim] at hnot
    exact heff sim hsim slot hnot v
  constructor
  · rintro ⟨-, heither⟩ t ht u hu hne slot hwt hwu
    have hmem : ∀ t ∈ firstWave sims, t.toFinalized ∈ s.conflictFreeZone.flatten := fun t ht =>
      (conflictFreeZone_perm hs).mem_iff.2 (List.mem_map_of_mem ht)
    rcases exists_lane_or_perm (hmem t ht) (hmem u hu) with hchain | ⟨c, c', rest, hcs, htc, huc⟩
    · exact hchain
    · refine absurd hwu (heither _ _ ⟨?_, ?_⟩ slot hwt)
      · exact Phased.exists_order [] hcs htc huc
      · exact Phased.exists_order [] (hcs.trans (.swap ..)) huc htc
  · intro hchained
    have hfilter := fun {l} slot (hl : s.CommitOrder l) =>
      filter_writesSlot hid hzone hs hchained slot hl
    refine ⟨fun b l l' hl hl' slot => ?_, ?_⟩
    · rw [storage_commit (hframe hl slot), storage_commit (hframe hl' slot), hfilter slot hl,
        hfilter slot hl']
    · rintro t u ⟨⟨l, hl, htu⟩, l', hl', hut⟩ slot hwt hwu
      have hp : ∀ tx ∈ [t, u], writesSlot sims slot tx = true := by
        simp [writesSlot, hwt, hwu]
      have h1 := htu.filter (writesSlot sims slot)
      have h2 := hut.filter (writesSlot sims slot)
      rw [List.filter_eq_self.2 hp, hfilter slot hl] at h1
      rw [List.filter_eq_self.2 fun tx htx => hp tx (by simp at htx ⊢; tauto),
        hfilter slot hl'] at h2
      exact not_sublist_swap ((hnodup (Phased.flatten s.phases)).filter _) h1 h2

/-- No two transactions of the first wave write a common slot when the writers of a slot have
different numbers. -/
theorem writersChained_of_keepsApart (hid : (sims.map (·.id)).Nodup)
    (hapart : KeepsApart WritesCommonSlot (construct sims)) : WritersChained sims s := by
  obtain ⟨kept, early, hperm, hbuilt, hid'⟩ := construct_built hid
  obtain ⟨-, hsched⟩ := firstWave_spec hid
  intro t ht u hu hne slot hslot hslot'
  have hids : t.txId ≠ u.txId := fun he =>
    hne (List.inj_on_of_nodup_map (hbuilt.nodup_scheduled hid') (hsched t ht) (hsched u hu) he)
  have hcommon : WritesCommonSlot t u := by
    obtain ⟨sim, hsim, rfl⟩ := exists_sim_of_scheduled hbuilt hperm (hsched t ht)
    obtain ⟨sim', hsim', rfl⟩ := exists_sim_of_scheduled hbuilt hperm (hsched u hu)
    rw [writeSlots_of_sim hid hsim] at hslot
    rw [writeSlots_of_sim hid hsim'] at hslot'
    exact ⟨slot, hslot, hslot'⟩
  exact absurd (firstEpochTxs_sequence ht hu)
    (hapart.sequence_ne (fun _ _ => WritesCommonSlot.symm) (fun _ _ => WritesCommonSlot.key) hbuilt
      hid' (hsched t ht) (hsched u hu) hids hcommon)

/-- **A commit does not depend on the interleaving** of its threads, and transactions that may be
applied in either order write different slots, when no step of the sort leaves two writers of a slot
at one number and `reorder` brings none back to the number of another. -/
theorem commit_independent {β : Type} (B : SlotBackend β) (sims : List SimulatedTransaction)
    (hid : (sims.map (·.id)).Nodup) (heff : EffectsInWriteSet B sims)
    (hapart : KeepsApart WritesCommonSlot (construct sims)) (s : ScheduledInfo)
    (hs : schedule sims = .ok s) : CommitIndependent B sims s :=
  (commit_independent_iff B sims hid heff s hs).2 (writersChained_of_keepsApart hid hapart)

namespace FirstPassFixture

/-- The effects of a transaction of the fixture change the slots that it writes. -/
theorem slotUpdate_sim (id : TxId) (reads writes : List Nat) {slot : Slot}
    (h : slot ∉ (sim id reads writes).rwSet.writeSet.slots) (v : H256) :
    memoryBackend.slotUpdate (sim id reads writes).effects slot v = v := by
  have hnone : (lastApplied (sim id reads writes).effects slot) = none := by
    simp only [sim, lastApplied, List.foldl_cons, List.foldl_nil, Apply.effectOn, Option.or_none]
    split
    · rename_i hslot
      rw [LastWrite.lastWrite_eq_none_iff.2]
      · rfl
      · intro hmem
        refine h ?_
        simp only [sim, AccessMap.slots, List.flatMap_cons, List.flatMap_nil, List.append_nil]
        obtain ⟨e, he, hek⟩ := List.mem_map.1 hmem
        exact List.mem_map.2 ⟨e, he, Prod.ext hslot hek⟩
    · rfl
  exact congrArg (Option.getD · v) hnone

/-- An update and blind writes in later waves commit independently of the interleaving. -/
theorem commit_independent_updateThenWrite :
    CommitIndependent memoryBackend updateThenWrite
      ⟨[[finalized 0 []]], [[finalized 1 [5]], [finalized 2 [5]]], []⟩ := by
  refine commit_independent memoryBackend updateThenWrite (by decide) ?_ ⟨by decide, by decide⟩ _
    (by decide)
  intro sim hsim slot hslot v
  simp only [updateThenWrite, List.mem_cons, List.not_mem_nil, or_false] at hsim
  rcases hsim with rfl | rfl | rfl <;> exact slotUpdate_sim _ _ _ hslot v

/-- Two blind writers of the slot `5`, each with a slot of its own that is sorted first. -/
def doubleWrite : List SimulatedTransaction := [sim 0 [] [1, 5], sim 1 [] [2, 5]]

/-- Both writers take the sequence number `2` at their own slots and keep it at the common one. They
are chains of their own in the first wave, and the slot `5` holds what is applied last. -/
theorem commit_depends_on_order :
    (doubleWrite.map (·.id)).Nodup ∧ EffectsInWriteSet memoryBackend doubleWrite ∧
      ∃ s l l', schedule doubleWrite = .ok s ∧ s.CommitOrder l ∧ s.CommitOrder l' ∧
        memoryBackend.storage (commit memoryBackend State.empty l) (1, 5) ≠
          memoryBackend.storage (commit memoryBackend State.empty l') (1, 5) := by
  refine ⟨by decide, fun sim hsim slot hslot v => ?_,
    ⟨[[finalized 0 [1, 5]], [finalized 1 [2, 5]]], [], []⟩,
    [finalized 0 [1, 5], finalized 1 [2, 5]], [finalized 1 [2, 5], finalized 0 [1, 5]], by decide,
    Phased.flatten _, ?_, by decide⟩
  · simp only [doubleWrite, List.mem_cons, List.not_mem_nil, or_false] at hsim
    rcases hsim with rfl | rfl <;> exact slotUpdate_sim _ _ _ hslot v
  · exact .cons ((Interleaving.flatten [[finalized 1 [2, 5]], [finalized 0 [1, 5]]]).of_perm
      (.swap ..)) .nil

end FirstPassFixture

end Chase
