import Chase.Core.FirstPass

/-!
# The first commit wave

The transactions of the lowest sequence number are handed to the chain builder, which panics on a
cycle of dependencies. Every transaction on a cycle both reads and writes (`Mixed`), and all of them
have the same sequence number. So there is no cycle when no step of the sweep gives one number to a
mixed reader of a key and another mixed writer of it (`StepUntied`), and a transaction that
`reorder` takes for write-only reads nothing.
-/

namespace Chase

open Chase.Graph AddressBasedConflictGraph

/-- The transaction reads something and writes something. -/
def Mixed (sims : List SimulatedTransaction) (t : TxId) : Prop :=
  ∃ sim ∈ sims, sim.id = t ∧ sim.rwSet.readSet.keys ≠ [] ∧ sim.rwSet.writeSet.keys ≠ []

instance (sims : List SimulatedTransaction) : DecidablePred (Mixed sims) := fun _ =>
  inferInstanceAs (Decidable (∃ sim ∈ sims, _))

variable {sims : List SimulatedTransaction}

/-- A scheduled transaction that reads a key and writes a key is mixed. -/
theorem mixed_of_scheduled (hid : (sims.map (·.id)).Nodup) {tx : Transaction}
    (htx : tx ∈ scheduled (construct sims)) {k k' : H256} (hk : k ∈ tx.readKeys)
    (hk' : k' ∈ tx.writeKeys) : Mixed sims tx.txId := by
  obtain ⟨kept, early, hperm, hbuilt, -⟩ := construct_built hid
  obtain ⟨sim, hsim, rfl⟩ := exists_sim_of_scheduled hbuilt hperm htx
  exact ⟨sim, hsim, rfl, List.ne_nil_of_mem hk, List.ne_nil_of_mem hk'⟩

/-- The conditions under which the first wave has no cycle: no step of the sweep gives a mixed
reader and another mixed writer of a key the same number, and a reordered transaction reads nothing.
-/
structure FirstWaveMeets (sims : List SimulatedTransaction) : Prop where
  sweep :
    SweepMeets (StepUntied (Mixed sims)) [] (construct sims).addressRank (construct sims).cells
  reorder : ∀ tx ∈ reorderTargets (construct sims).hierarchcialSort, tx.readKeys = []

/-- No transaction of the first wave reads, over any number of transactions, what it writes. -/
theorem FirstWaveMeets.acyclic (h : FirstWaveMeets sims) (hid : (sims.map (·.id)).Nodup)
    (t : Transaction) : ¬Relation.TransGen (Cds.ReadsFrom (firstWave sims)) t t := by
  obtain ⟨kept, early, -, hbuilt, hid'⟩ := construct_built hid
  obtain ⟨-, hsched⟩ := firstWave_spec hid
  have hlive : ∀ {tx : Transaction} {k : H256}, k ∈ tx.readKeys →
      tx ∉ reorderTargets (construct sims).hierarchcialSort := by
    intro tx k hk htx
    rw [h.reorder tx htx] at hk
    cases hk
  intro hcycle
  -- the edge out of `t` leads to a transaction on the cycle, and another edge leads into `t`
  obtain ⟨u, ⟨ht, hu, hne, k, hkt, hku⟩, hpath⟩ := Relation.TransGen.head'_iff.1 hcycle
  obtain ⟨v, -, ⟨-, -, -, k₁, -, hkt'⟩⟩ := Relation.TransGen.tail'_iff.1 hcycle
  rcases Relation.ReflTransGen.cases_head hpath with rfl | ⟨w, ⟨-, -, -, k₂, hku', -⟩, -⟩
  · exact hne rfl
  · have hmt := mixed_of_scheduled hid (hsched t ht) hkt hkt'
    have hmu := mixed_of_scheduled hid (hsched u hu) hku' hku
    have hne' : t.txId ≠ u.txId := fun he =>
      hne (List.inj_on_of_nodup_map (hbuilt.nodup_scheduled hid') (hsched t ht) (hsched u hu) he)
    exact hbuilt.sequence_ne hid' h.sweep (hsched t ht) (hsched u hu) hne' (hlive hkt)
      (hlive hku') hmt hmu hkt hku (firstEpochTxs_sequence ht hu)

/-- The chain builder returns, and so does the scheduling. -/
theorem FirstWaveMeets.exists_schedule (h : FirstWaveMeets sims) (hid : (sims.map (·.id)).Nodup) :
    ∃ s, schedule sims = .ok s := by
  obtain ⟨zone, hzone⟩ :=
    Cds.extractConflictFreeChains_ok (firstWave_spec hid).1 (h.acyclic hid)
  exact Chase.exists_schedule hzone

/-- **The first wave has no cycle** and its chains are built, when the sweep gives no mixed reader
and other mixed writer of a key the same number and a reordered transaction reads nothing. -/
theorem firstWave_acyclic (sims : List SimulatedTransaction) (hid : (sims.map (·.id)).Nodup)
    (hsweep : SweepMeets (StepUntied (Mixed sims)) [] (construct sims).addressRank
      (construct sims).cells)
    (hre : ∀ tx ∈ reorderTargets (construct sims).hierarchcialSort, tx.readKeys = []) :
    (∀ t, ¬Relation.TransGen (Cds.ReadsFrom (firstWave sims)) t t) ∧
      ∃ zone, Cds.extractConflictFreeChains (firstWave sims) = .ok zone := by
  have hmeets : FirstWaveMeets sims := ⟨hsweep, hre⟩
  exact ⟨hmeets.acyclic hid, Cds.extractConflictFreeChains_ok (firstWave_spec hid).1
    (hmeets.acyclic hid)⟩

namespace FirstPassFixture

/-- The first wave of an update and blind writes has no cycle. -/
theorem firstWave_acyclic_updateThenWrite :
    (∀ t, ¬Relation.TransGen (Cds.ReadsFrom (firstWave updateThenWrite)) t t) ∧
      ∃ zone, Cds.extractConflictFreeChains (firstWave updateThenWrite) = .ok zone :=
  firstWave_acyclic updateThenWrite (by decide) (by decide) (by decide)

/-- Two transactions that each read what the other writes, and each write a slot of their own that
is sorted first. -/
def writeSkew : List SimulatedTransaction := [sim 0 [10] [11, 1], sim 1 [11] [10, 2]]

/-- Both transactions take the sequence number `2` at their own slots. As readers they are then at
the maximum of the other two addresses, and as writers not below it, so both stay in the first wave
and the chain builder panics. -/
theorem firstWave_cycle :
    (writeSkew.map (·.id)).Nodup ∧
      (∃ t, Relation.TransGen (Cds.ReadsFrom (firstWave writeSkew)) t t) ∧
      Cds.extractConflictFreeChains (firstWave writeSkew) = .error Cds.cycleMessage := by
  have hwave : firstWave writeSkew =
      [keptTransaction (sim 0 [10] [11, 1]), keptTransaction (sim 1 [11] [10, 2])] := by decide
  refine ⟨by decide, ⟨keptTransaction (sim 0 [10] [11, 1]), ?_⟩, by decide⟩
  rw [hwave]
  refine .tail (.single (b := keptTransaction (sim 1 [11] [10, 2])) ?_) ?_
  · exact ⟨by simp, by simp, by decide, 10, by decide, by decide⟩
  · exact ⟨by simp, by simp, by decide, 11, by decide, by decide⟩

end FirstPassFixture

end Chase
