import Chase.Core.Validation

/-!
# Every transaction takes effect once

A transaction that an execution simulates with success, and again with success when its schedule
aborts it, should have the effects of its last simulation applied once (`EffectsOnce`). A
transaction of the first pass has, and so has an aborted one that is valid when it is simulated
again. The others are only written to a log: every transaction takes effect exactly when in no epoch
two re-executed transactions write a common key (`effectsOnce_iff`).
-/

namespace Chase

open Chase.Graph Interleave Reading LastWrite

/-- The simulations of the phases, with their outcomes. -/
def simulations (phases : List Phase) : List (IndexedEthereumTransaction × Outcome) :=
  phases.flatMap fun
    | .simulate txList outcomes => txList.zip outcomes
    | .commit _ => []

/-- Every transaction whose last simulation succeeds is committed once, with the effects of this
simulation. -/
def EffectsOnce (txList : List IndexedEthereumTransaction) (phases : List Phase) : Prop :=
  ∀ tx ∈ txList, ∀ s, lastWrite (simulations phases) tx = some (.ok (some s)) →
    (committedTxs phases).filter (·.id = tx.id) = [⟨tx.id, s.effects⟩]

/-- The transactions that are simulated with success. -/
def reExecutions (phases : List Phase) : List ReExecutedTransaction :=
  phases.flatMap fun
    | .simulate txList outcomes => reExecuted txList outcomes
    | .commit _ => []

/-- Those of them that are valid. -/
def validReExecutions (phases : List Phase) : List ReExecutedTransaction :=
  phases.flatMap fun
    | .simulate txList outcomes => validTxs (reExecuted txList outcomes)
    | .commit _ => []

/-- The transactions that are simulated together write different keys. -/
def WritesApartEach (phases : List Phase) : Prop :=
  ∀ txList outcomes, Phase.simulate txList outcomes ∈ phases →
    (reExecuted txList outcomes).Pairwise WriteSetsDisjoint

/-! ## Complete outcomes -/

/-- Every simulation of the phases has its outcome. -/
def OutcomesComplete (phases : List Phase) : Prop :=
  ∀ txList outcomes, Phase.simulate txList outcomes ∈ phases → outcomes.length = txList.length

/-- A run gives every transaction of a pass an outcome. -/
theorem World.Runs.outcomesComplete {ι o σ : Type} {W : World ι o σ}
    {simulateTx : EthereumTransaction → Reader ι o Outcome} {s s' : σ} {phases : List Phase}
    (h : W.Runs simulateTx s phases s') : OutcomesComplete phases := by
  induction h with
  | done s => exact fun _ _ h => (nomatch h)
  | env _ _ ih => exact ih
  | simulate hpool _ ih =>
    intro txList outcomes hmem
    rcases List.mem_cons.1 hmem with heq | hmem
    · cases heq
      have := hpool.length_eq
      rwa [List.length_map] at this
    · exact ih txList outcomes hmem
  | event _ _ ih =>
    intro txList outcomes hmem
    rcases List.mem_cons.1 hmem with heq | hmem
    · cases heq
    · exact ih txList outcomes (List.mem_cons_of_mem _ hmem)
  | committed _ ih =>
    intro txList outcomes hmem
    rcases List.mem_cons.1 hmem with heq | hmem
    · cases heq
    · exact ih txList outcomes hmem

/-! ## The re-executed transactions -/

section

variable {phases : List Phase} {epochs : List (List AbortedTransaction)}

/-- A simulation with success is the re-execution of its transaction. -/
theorem mem_reExecuted {txList : List IndexedEthereumTransaction} {outcomes : List Outcome}
    {tx : ReExecutedTransaction} : tx ∈ reExecuted txList outcomes ↔
      (tx.tx, .ok (some ⟨tx.effect, tx.log, tx.rwSet⟩)) ∈ txList.zip outcomes := by
  rw [reExecuted, List.mem_filterMap]
  constructor
  · rintro ⟨⟨tx', e | _ | s⟩, hmem, heq⟩
    · cases heq
    · cases heq
    · cases heq
      exact hmem
  · exact fun hmem => ⟨_, hmem, rfl⟩

/-- A transaction is executed again with what a simulation gave. -/
theorem mem_reExecutions {tx : ReExecutedTransaction} : tx ∈ reExecutions phases ↔
    (tx.tx, .ok (some ⟨tx.effect, tx.log, tx.rwSet⟩)) ∈ simulations phases := by
  rw [reExecutions, simulations, List.mem_flatMap, List.mem_flatMap]
  refine exists_congr fun phase => and_congr_right fun _ => ?_
  cases phase with
  | simulate txList outcomes => exact mem_reExecuted
  | commit events => exact ⟨nofun, nofun⟩

/-- The valid transactions are some of those that were executed again. -/
theorem validReExecutions_sublist :
    List.Sublist (validReExecutions phases) (reExecutions phases) := by
  induction phases with
  | nil => exact .slnil
  | cons phase phases ih =>
    cases phase with
    | commit events => exact ih
    | simulate txList outcomes => exact (validTxs_sublist _).append ih

/-- All transactions are valid exactly when those that are simulated together write different
keys. -/
theorem validReExecutions_eq_iff :
    validReExecutions phases = reExecutions phases ↔ WritesApartEach phases := by
  induction phases with
  | nil => exact ⟨fun _ _ _ h => (nomatch h), fun _ => rfl⟩
  | cons phase phases ih =>
    cases phase with
    | commit events =>
      refine ih.trans ⟨fun h txList outcomes hmem => ?_, fun h txList outcomes hmem => ?_⟩
      · rcases List.mem_cons.1 hmem with heq | hmem
        · cases heq
        · exact h txList outcomes hmem
      · exact h txList outcomes (List.mem_cons_of_mem _ hmem)
    | simulate txList outcomes =>
      have hsplit : validReExecutions (.simulate txList outcomes :: phases) =
          validTxs (reExecuted txList outcomes) ++ validReExecutions phases := rfl
      have hsplit' : reExecutions (.simulate txList outcomes :: phases) =
          reExecuted txList outcomes ++ reExecutions phases := rfl
      rw [hsplit, hsplit']
      constructor
      · intro heq txList' outcomes' hmem
        have hlength := congrArg List.length heq
        have hfirst := (validTxs_sublist (reExecuted txList outcomes)).length_le
        have hrest : (validReExecutions phases).length ≤ (reExecutions phases).length :=
          validReExecutions_sublist.length_le
        rw [List.length_append, List.length_append] at hlength
        obtain ⟨hvalid, hphases⟩ := List.append_inj heq (by omega)
        rcases List.mem_cons.1 hmem with heq | hmem
        · cases heq
          exact hvalid ▸ pairwise_validTxs _
        · exact ih.1 hphases txList' outcomes' hmem
      · intro h
        rw [validTxs_eq_self (h _ _ List.mem_cons_self),
          ih.2 fun txList' outcomes' hmem => h _ _ (List.mem_cons_of_mem _ hmem)]

/-- The loop over the aborted epochs simulates the transactions of the epochs. -/
theorem ReExecutes.simulations_fst (h : ReExecutes epochs phases)
    (hcomplete : OutcomesComplete phases) :
    (simulations phases).map (·.1) = epochs.flatten.map (·.rawTx) := by
  induction h with
  | nil => rfl
  | @cons epoch epochs outcomes events phases _ _ ih =>
    have hlength := hcomplete _ _ List.mem_cons_self
    have hrest := ih fun txList outcomes hmem =>
      hcomplete txList outcomes (List.mem_cons_of_mem _ (List.mem_cons_of_mem _ hmem))
    have hsplit :
        simulations (.simulate (epoch.map (·.rawTx)) outcomes :: .commit events :: phases) =
          (epoch.map (·.rawTx)).zip outcomes ++ simulations phases := rfl
    rw [hsplit, List.map_append, hrest, List.map_fst_zip hlength.ge, List.flatten_cons,
      List.map_append]

/-- The transactions that are simulated again with success are some of those of the epochs. -/
theorem ReExecutes.reExecutions_sublist (h : ReExecutes epochs phases) :
    List.Sublist ((reExecutions phases).map (·.tx)) (epochs.flatten.map (·.rawTx)) := by
  induction h with
  | nil => exact .slnil
  | @cons epoch epochs outcomes events phases _ _ ih =>
    have hsplit :
        reExecutions (.simulate (epoch.map (·.rawTx)) outcomes :: .commit events :: phases) =
          reExecuted (epoch.map (·.rawTx)) outcomes ++ reExecutions phases := rfl
    rw [hsplit, List.map_append, List.flatten_cons, List.map_append]
    exact reExecuted_tx_sublist.append ih

/-- The loop over the aborted epochs commits the valid transactions. -/
theorem ReExecutes.committedTxs_perm (h : ReExecutes epochs phases) :
    (committedTxs phases).Perm ((validReExecutions phases).map (·.toFinalized)) := by
  induction h with
  | nil => exact .refl _
  | @cons epoch epochs outcomes events phases hevents _ ih =>
    have hsplit :
        committedTxs (.simulate (epoch.map (·.rawTx)) outcomes :: .commit events :: phases) =
          applied events ++ committedTxs phases := rfl
    have hsplit' : validReExecutions
        (.simulate (epoch.map (·.rawTx)) outcomes :: .commit events :: phases) =
          validTxs (reExecuted (epoch.map (·.rawTx)) outcomes) ++ validReExecutions phases := rfl
    rw [hsplit, hsplit', List.map_append]
    exact (applied_reExecuted_perm hevents).append ih

end

/-! ## The whole execution -/

/-- The transactions with distinct ids that have the id of one of them are this one. -/
theorem filter_id_of_mem {txs : List FinalizedTransaction} (hid : (txs.map (·.id)).Nodup)
    {tx : FinalizedTransaction} (htx : tx ∈ txs) : txs.filter (·.id = tx.id) = [tx] := by
  obtain ⟨pre, post, rfl⟩ := List.append_of_mem htx
  rw [List.map_append, List.map_cons, List.nodup_middle, List.nodup_cons] at hid
  have hnone : ∀ tx' ∈ pre ++ post, ¬tx'.id = tx.id := fun tx' htx' heq =>
    hid.1 (heq ▸ List.map_append ▸ List.mem_map_of_mem htx')
  have hpre : pre.filter (·.id = tx.id) = [] :=
    List.filter_eq_nil_iff.2 fun tx' htx' => by simpa using hnone tx' (List.mem_append_left _ htx')
  have hpost : post.filter (·.id = tx.id) = [] :=
    List.filter_eq_nil_iff.2 fun tx' htx' => by simpa using hnone tx' (List.mem_append_right _ htx')
  rw [List.filter_append, List.filter_cons_of_pos (by simp), hpre, hpost]
  rfl

/-- What an execution commits: the transactions of the first pass that its schedule does not abort,
and the valid re-executions of those that it aborts. -/
structure CommitSpec (txList : List IndexedEthereumTransaction) (outcomes : List Outcome)
    (epochs : List (List AbortedTransaction)) (first : List FinalizedTransaction)
    (phases : List Phase) (committed : List SimulatedTransaction) : Prop where
  ids : ((committed.map (·.rawTx) ++ epochs.flatten.map (·.rawTx)).map (·.id)).Nodup
  covers : ∀ sim ∈ simulated txList outcomes,
    sim ∈ committed ∨ sim.rawTx ∈ epochs.flatten.map (·.rawTx)
  first : first.Perm (committed.map SimulatedTransaction.toFinalized)
  subset : epochs.flatten.map (·.rawTx) ⊆ txList
  reExecutes : ReExecutes epochs phases

/-- A schedule whose events are committed, with the loop over its aborted epochs, meets the
specification. -/
theorem commitSpec_of_parSchedule {ncpu : Nat} {txList : List IndexedEthereumTransaction}
    (hid : (txList.map (·.id)).Nodup) {outcomes : List Outcome} {schedule : ScheduledInfo}
    {events : List CommitEvent} {phases : List Phase}
    (hschedule : parSchedule ncpu (simulated txList outcomes) = some (.ok schedule))
    (hevents : Phased schedule.eventPhases events)
    (hre : ReExecutes schedule.conflictZoneAborted phases) :
    ∃ committed, CommitSpec txList outcomes schedule.conflictZoneAborted (applied events) phases
      committed := by
  have hsub : List.Sublist ((simulated txList outcomes).map (·.rawTx)) txList :=
    simulated_rawTx_sublist
  obtain ⟨committed, aborted, hperm, hcommitted, haborted⟩ :=
    parSchedule_partition (simulated_ids_nodup hid) hschedule
  have hraw : (committed.map (·.rawTx) ++
      schedule.conflictZoneAborted.flatten.map (·.rawTx)).Perm
        ((simulated txList outcomes).map (·.rawTx)) := by
    refine (haborted.append_left _).trans ?_
    rw [← List.map_append]
    exact hperm.map _
  refine ⟨committed, ?_, fun sim hsim => ?_, (ScheduledInfo.applied_perm hevents).trans hcommitted,
    fun tx htx => hsub.subset (hraw.mem_iff.1 (List.mem_append_right _ htx)), hre⟩
  · refine (hraw.map (·.id)).nodup_iff.2 ?_
    exact hid.sublist (hsub.map _)
  · refine (List.mem_append.1 (hperm.mem_iff.2 hsim)).imp_right fun hmem => ?_
    exact haborted.mem_iff.2 (List.mem_map_of_mem hmem)

section

variable {txList : List IndexedEthereumTransaction} {outcomes : List Outcome}
  {epochs : List (List AbortedTransaction)} {first : List FinalizedTransaction}
  {phases : List Phase} {committed : List SimulatedTransaction}

variable (h : CommitSpec txList outcomes epochs first phases committed)

include h

/-- The committed transactions, each once. -/
theorem CommitSpec.perm :
    (first ++ committedTxs phases).Perm (committed.map SimulatedTransaction.toFinalized ++
      (validReExecutions phases).map (·.toFinalized)) :=
  h.first.append h.reExecutes.committedTxs_perm

/-- The committed transactions have distinct ids. -/
theorem CommitSpec.nodup :
    ((first ++ committedTxs phases).map (·.id)).Nodup := by
  refine (h.perm.map (·.id)).nodup_iff.2 ?_
  have hsub : List.Sublist ((validReExecutions phases).map (·.tx)) (epochs.flatten.map (·.rawTx)) :=
    (validReExecutions_sublist.map _).trans h.reExecutes.reExecutions_sublist
  have hids := h.ids.sublist ((hsub.append_left (committed.map (·.rawTx))).map (·.id))
  rw [List.map_append, List.map_map, List.map_map] at hids ⊢
  exact hids

/-- The transactions of the epochs have distinct ids. -/
theorem CommitSpec.epochs_nodup : ((epochs.flatten.map (·.rawTx)).map (·.id)).Nodup := by
  have hids := h.ids
  rw [List.map_append] at hids
  exact hids.of_append_right

/-- A transaction of an epoch is not committed in the first pass. -/
theorem CommitSpec.not_mem_first {tx : IndexedEthereumTransaction}
    (htx : tx ∈ epochs.flatten.map (·.rawTx)) {effect : List Apply} :
    (⟨tx.id, effect⟩ : FinalizedTransaction) ∉ committed.map SimulatedTransaction.toFinalized := by
  intro hmem
  obtain ⟨sim, hsim, heq⟩ := List.mem_map.1 hmem
  have hids := h.ids
  rw [List.map_append, List.nodup_append] at hids
  exact hids.2.2 _ (List.mem_map_of_mem (List.mem_map_of_mem hsim)) _ (List.mem_map_of_mem htx)
    (congrArg FinalizedTransaction.id heq)

/-- When all re-executed transactions are valid, the last simulation of a transaction is committed.
-/
theorem CommitSpec.mem_of_valid (hcomplete : OutcomesComplete phases)
    (hvalid : validReExecutions phases = reExecutions phases)
    {tx : IndexedEthereumTransaction} {s : Simulated}
    (hlast : lastWrite (txList.zip outcomes ++ simulations phases) tx = some (.ok (some s))) :
    ⟨tx.id, s.effects⟩ ∈ first ++ committedTxs phases := by
  rw [h.perm.mem_iff, List.mem_append]
  rw [lastWrite_append] at hlast
  cases hre : lastWrite (simulations phases) tx with
  | some outcome =>
    right
    rw [hre, Option.some_or, Option.some.injEq] at hlast
    subst hlast
    have hmem : (⟨tx, s.effects, s.logs, s.rwSet⟩ : ReExecutedTransaction) ∈ reExecutions phases :=
      mem_reExecutions.2 (mem_of_lastWrite hre)
    rw [← hvalid] at hmem
    exact List.mem_map_of_mem hmem
  | none =>
    left
    rw [hre, Option.none_or] at hlast
    have hsim : (⟨s.rwSet, s.effects, s.logs, tx⟩ : SimulatedTransaction) ∈
        simulated txList outcomes :=
      List.mem_filterMap.2 ⟨_, mem_of_lastWrite hlast, rfl⟩
    rcases h.covers _ hsim with hmem | hmem
    · exact List.mem_map_of_mem hmem
    · rw [← h.reExecutes.simulations_fst hcomplete] at hmem
      exact absurd hmem (lastWrite_eq_none_iff.1 hre)

/-- A re-executed transaction whose effects are committed is valid. -/
theorem CommitSpec.valid_of_mem {r : ReExecutedTransaction} (hr : r ∈ reExecutions phases)
    (hmem : r.toFinalized ∈ first ++ committedTxs phases) : r ∈ validReExecutions phases := by
  have hsub := h.reExecutes.reExecutions_sublist
  have hraw : r.tx ∈ epochs.flatten.map (·.rawTx) := hsub.subset (List.mem_map_of_mem hr)
  rw [h.perm.mem_iff, List.mem_append] at hmem
  obtain ⟨r', hr', heq⟩ := List.mem_map.1 (hmem.resolve_left (h.not_mem_first hraw))
  have hids := h.epochs_nodup.sublist (hsub.map (·.id))
  rw [List.map_map] at hids
  have hrr : r' = r := List.inj_on_of_nodup_map hids (validReExecutions_sublist.subset hr') hr
    (congrArg FinalizedTransaction.id heq)
  exact hrr ▸ hr'

/-- The last simulation of a re-executed transaction. -/
theorem CommitSpec.lastWrite_of_mem (hcomplete : OutcomesComplete phases)
    {r : ReExecutedTransaction} (hr : r ∈ reExecutions phases) :
    lastWrite (txList.zip outcomes ++ simulations phases) r.tx =
      some (.ok (some ⟨r.effect, r.log, r.rwSet⟩)) := by
  have hmem := mem_reExecutions.1 hr
  have hnodup : ((simulations phases).map (·.1)).Nodup := by
    rw [h.reExecutes.simulations_fst hcomplete]
    exact h.epochs_nodup.of_map
  have hunique : ∀ e ∈ simulations phases, e.1 = r.tx →
      e.2 = .ok (some ⟨r.effect, r.log, r.rwSet⟩) := fun e he heq =>
    congrArg Prod.snd (List.inj_on_of_nodup_map hnodup he hmem heq)
  rw [lastWrite_append, lastWrite_of_unique (List.mem_map_of_mem hmem) hunique, Option.some_or]

end

/-- Every transaction of the batches whose last simulation succeeds takes effect exactly once,
exactly when no two transactions that are re-executed together write a common key. -/
theorem effectsOnce_iff {ι o σ : Type} (W : World ι o σ)
    (simulateTx : EthereumTransaction → Reader ι o Outcome) (ncpu : Nat)
    (batches : List (List EthereumTransaction)) (phases : List Phase) (s s' : σ)
    (hexecutes : Executes ncpu (unpackBatches batches) phases)
    (hruns : W.Runs simulateTx s phases s') :
    EffectsOnce (unpackBatches batches) phases ↔ WritesApartEach phases.tail := by
  have hcomplete := hruns.outcomesComplete
  cases hexecutes with
  | @mk outcomes schedule events phases hschedule hevents hre =>
    obtain ⟨committed, h⟩ :=
      commitSpec_of_parSchedule (unpackBatches_nodup batches) hschedule hevents hre
    have hcomplete' : OutcomesComplete phases := fun txList outcomes hmem =>
      hcomplete txList outcomes (List.mem_cons_of_mem _ (List.mem_cons_of_mem _ hmem))
    rw [List.tail_cons, ← validReExecutions_eq_iff]
    show _ ↔ validReExecutions phases = reExecutions phases
    constructor
    · intro honce
      have hsubset : reExecutions phases ⊆ validReExecutions phases := by
        intro r hr
        have hraw := h.reExecutes.reExecutions_sublist.subset (List.mem_map_of_mem hr)
        have hfilter := honce r.tx (h.subset hraw) _ (h.lastWrite_of_mem hcomplete' hr)
        have hmem : r.toFinalized ∈ (applied events ++ committedTxs phases).filter
            (·.id = r.tx.id) := by
          rw [show (applied events ++ committedTxs phases).filter (·.id = r.tx.id) = _ from hfilter]
          exact List.mem_singleton.2 rfl
        exact h.valid_of_mem hr (List.mem_filter.1 hmem).1
      have hnodup : (reExecutions phases).Nodup := by
        have hids := h.ids
        rw [List.map_append, List.nodup_append] at hids
        exact (hids.2.1.of_map.sublist h.reExecutes.reExecutions_sublist).of_map
      exact validReExecutions_sublist.eq_of_length_le (hnodup.subperm hsubset).length_le
    · intro hvalid tx _ sim hlast
      exact filter_id_of_mem h.nodup (h.mem_of_valid hcomplete' hvalid hlast)

namespace ExactlyOnceFixture

/-- The outcome of a call of the contract `1` that has read and written the given slots. -/
def accessed (reads writes : List (H256 × H256)) : Outcome :=
  .ok (some ⟨[.modify 1 ⟨0, 1⟩ none writes false], [],
    { readSet := [(1, reads)], writeSet := [(1, writes)] }⟩)

/-- A call with the value `0` sets the slots `5` and `6`. A call with another value sets the slot of
this number, or, when it is set already, the slot that `elsewhere` gives. -/
def setSlot (elsewhere : U256 → H256) (tx : EthereumTransaction) : Reader Slot H256 Outcome :=
  if tx.value = 0 then
    .read (1, 5) fun v => .read (1, 6) fun w => .ret (accessed [(5, v), (6, w)] [(5, 1), (6, 1)])
  else
    .read (1, tx.value) fun v => .ret
      (if v = 0 then accessed [(tx.value, v)] [(tx.value, 1)]
        else accessed [(tx.value, v)] [(elsewhere tx.value, 1)])

/-- A call with a value. -/
def call (value : U256) : EthereumTransaction := .ofCall 2 1 value [] 50000 0

/-- The first call updates the slots of the other two, which are aborted and share an epoch. -/
def calls : List (List EthereumTransaction) := [[call 0, call 5, call 6]]

/-- The transactions that are valid when the two calls are simulated again. -/
def secondPass (elsewhere : U256 → H256) : List ReExecutedTransaction :=
  validTxs (reExecuted [⟨call 5, 1⟩, ⟨call 6, 2⟩]
    [accessed [(5, 1)] [(elsewhere 5, 1)], accessed [(6, 1)] [(elsewhere 6, 1)]])

/-- The commit of the first call. -/
def firstCall : FinalizedTransaction := ⟨0, [.modify 1 ⟨0, 1⟩ none [(5, 1), (6, 1)] false]⟩

/-- The phases of the execution of the three calls. -/
def callPhases (elsewhere : U256 → H256) : List Phase :=
  [.simulate (unpackBatches calls) [accessed [(5, 0), (6, 0)] [(5, 1), (6, 1)],
      accessed [(5, 0)] [(5, 1)], accessed [(6, 0)] [(6, 1)]],
    .commit firstCall.events,
    .simulate [⟨call 5, 1⟩, ⟨call 6, 2⟩]
      [accessed [(5, 1)] [(elsewhere 5, 1)], accessed [(6, 1)] [(elsewhere 6, 1)]],
    .commit ((secondPass elsewhere).map fun tx => tx.toFinalized.events).flatten]

/-- The batch of the fixture runs through its phases. -/
theorem executes_calls (elsewhere : U256 → H256) :
    Executes 1 (unpackBatches calls) (callPhases elsewhere) := by
  have hschedule : parSchedule 1 (simulated (unpackBatches calls)
      [accessed [(5, 0), (6, 0)] [(5, 1), (6, 1)], accessed [(5, 0)] [(5, 1)],
        accessed [(6, 0)] [(6, 1)]]) =
      some (.ok ⟨[[firstCall]], [], [[⟨⟨call 5, 1⟩, [5], [5]⟩, ⟨⟨call 6, 2⟩, [6], [6]⟩]]⟩) := by
    decide
  exact .mk hschedule (Phased.flatten _) (.cons (Interleaving.flatten _) .nil)

/-- The storage that only the calls move. -/
def callsWorld : World Slot H256 State := .isolated memoryBackend.storage memoryBackend.apply

/-- The phases of the fixture run. -/
theorem runs_calls (elsewhere : U256 → H256) :
    ∃ s' : State, callsWorld.Runs (setSlot elsewhere) State.empty (callPhases elsewhere) s' := by
  refine ⟨_, World.isolated_runs_simulate.2 ⟨rfl, World.isolated_runs_commit.2
    (World.isolated_runs_simulate.2 ⟨?_, World.isolated_runs_commit.2
      (World.isolated_runs_nil.2 rfl)⟩)⟩⟩
  rfl

/-- When the calls are simulated again, each sets a slot of its own. -/
theorem effectsOnce_calls : ∃ s' : State,
    callsWorld.Runs (setSlot id) State.empty (callPhases id) s' ∧
      EffectsOnce (unpackBatches calls) (callPhases id) := by
  obtain ⟨s', hruns⟩ := runs_calls id
  refine ⟨s', hruns, (effectsOnce_iff callsWorld (setSlot id) 1 calls (callPhases id) State.empty s'
    (executes_calls id) hruns).2 fun txList outcomes hmem => ?_⟩
  rcases List.mem_cons.1 hmem with heq | hmem
  · cases heq
  · rcases List.mem_cons.1 hmem with heq | hmem
    · cases heq
      decide
    · cases List.mem_singleton.1 hmem

/-- When the calls are simulated again, both set the slot `7`, so the second one is dropped. -/
theorem effects_dropped : ∃ s' : State,
    callsWorld.Execute (setSlot fun _ => 7) 1 calls State.empty s' ∧
      Executes 1 (unpackBatches calls) (callPhases fun _ => 7) ∧
      callsWorld.Runs (setSlot fun _ => 7) State.empty (callPhases fun _ => 7) s' ∧
      ¬EffectsOnce (unpackBatches calls) (callPhases fun _ => 7) := by
  obtain ⟨s', hruns⟩ := runs_calls fun _ => 7
  have hexecutes := executes_calls fun _ => 7
  refine ⟨s', ⟨_, hexecutes, hruns⟩, hexecutes, hruns, fun honce => ?_⟩
  have hfilter := honce ⟨call 6, 2⟩ (by decide)
    ⟨[.modify 1 ⟨0, 1⟩ none [(7, 1)] false], [],
      { readSet := [(1, [(6, 1)])], writeSet := [(1, [(7, 1)])] }⟩ (by decide)
  exact absurd hfilter (by decide)

end ExactlyOnceFixture

end Chase
