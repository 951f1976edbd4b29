import Chase.Core.Execute
import Chase.Core.Partition
import Chase.Evm.Conservation

/-!
# Balances and nonces over an execution

The conflict graph sees storage slots only, while the effects of a transaction carry the balances
and nonces of all accounts that it touched, computed on the snapshot of its pass. Two transactions
that touch a common account which one of them changes may both be committed from one snapshot, and
then the later one undoes what the earlier one did to the account. An execution keeps the sum of the
balances, and adds to the nonce of each sender the number of its committed transactions, when no two
transactions that are simulated on one state touch such an account (`Apart`), and the simulations
meet the condition of one transaction (`SimulationOk`).
-/

namespace Chase

open LastWrite Snapshot Interleave Reading

/-! ## What a commit applies -/

/-- The transactions that commit events apply. -/
def applied (events : List CommitEvent) : List FinalizedTransaction :=
  events.filterMap fun
    | .apply tx => some tx
    | .record _ => none

/-- The transactions that the phases of an execution commit. -/
def committedTxs (phases : List Phase) : List FinalizedTransaction :=
  phases.flatMap fun
    | .commit events => applied events
    | .simulate _ _ => []

/-- The state after some events depends on the applied transactions only. -/
theorem foldl_applyEvent {σ : Type} (apply : σ → List Apply → σ) (events : List CommitEvent)
    (s : σ) : events.foldl (applyEvent apply) s =
      (applied events).foldl (fun s tx => apply s tx.effect) s := by
  induction events generalizing s with
  | nil => rfl
  | cons event events ih =>
    cases event with
    | record tx => exact ih s
    | apply tx => exact ih _

/-- The transactions of a chain are applied in its order. -/
theorem applied_flatMap_events (txs : List FinalizedTransaction) :
    applied (txs.flatMap FinalizedTransaction.events) = txs := by
  induction txs with
  | nil => rfl
  | cons tx txs ih =>
    have hcons : applied ((tx :: txs).flatMap FinalizedTransaction.events) =
        tx :: applied (txs.flatMap FinalizedTransaction.events) := rfl
    rw [hcons, ih]

/-- The threads of a commit apply the transactions of their lanes. -/
theorem applied_perm {lanes : List (List FinalizedTransaction)} {events : List CommitEvent}
    (h : events.Perm (lanes.map (List.flatMap FinalizedTransaction.events)).flatten) :
    (applied events).Perm lanes.flatten := by
  have hflat : (lanes.map (List.flatMap FinalizedTransaction.events)).flatten =
      lanes.flatten.flatMap FinalizedTransaction.events := by
    rw [List.flatMap_def, List.map_flatten, List.flatten_flatten, List.map_map]
    rfl
  have hperm := h.filterMap fun
    | .apply tx => some tx
    | .record _ => none
  rw [hflat] at hperm
  exact hperm.trans (.of_eq (applied_flatMap_events _))

/-! ## The passes of an execution -/

/-- The finalized form of a simulated transaction. -/
def SimulatedTransaction.toFinalized (sim : SimulatedTransaction) : FinalizedTransaction :=
  ⟨sim.id, sim.effects⟩

/-- Every commit of the phases applies some of the transactions that were simulated before it, each
once, and all of these are in `txList`. -/
inductive Passes (txList : List IndexedEthereumTransaction) : List Phase → Prop
  | nil : Passes txList []
  | cons {pass : List IndexedEthereumTransaction} {outcomes : List Outcome}
    {events : List CommitEvent} {phases : List Phase} {committed : List SimulatedTransaction} :
    pass ⊆ txList → committed.Subperm (simulated pass outcomes) →
    (applied events).Perm (committed.map SimulatedTransaction.toFinalized) →
    Passes txList phases →
    Passes txList (.simulate pass outcomes :: .commit events :: phases)

variable {txList : List IndexedEthereumTransaction} {outcomes : List Outcome} {phases : List Phase}

/-- A simulation comes from a transaction of the batch and from its outcome. -/
theorem mem_simulated {sim : SimulatedTransaction} (h : sim ∈ simulated txList outcomes) :
    sim.rawTx ∈ txList ∧
      (sim.rawTx, .ok (some ⟨sim.effects, sim.logs, sim.rwSet⟩)) ∈ txList.zip outcomes := by
  obtain ⟨⟨tx, outcome⟩, hmem, hsim⟩ := List.mem_filterMap.1 h
  match outcome, hsim with
  | .ok (some s), hsim =>
    cases hsim
    exact ⟨(List.of_mem_zip hmem).1, hmem⟩

/-- The simulations of one more transaction. -/
theorem simulated_cons (tx : IndexedEthereumTransaction) (outcome : Outcome) :
    simulated (tx :: txList) (outcome :: outcomes) =
      (match outcome with
        | .ok (some s) => [⟨s.rwSet, s.effects, s.logs, tx⟩]
        | _ => []) ++ simulated txList outcomes := by
  match outcome with
  | .ok (some s) => rfl
  | .ok none => rfl
  | .error e => rfl

/-- The raw transactions of the simulated ones are some of the list. -/
theorem simulated_rawTx_sublist :
    List.Sublist ((simulated txList outcomes).map (·.rawTx)) txList := by
  induction txList generalizing outcomes with
  | nil => exact .slnil
  | cons tx txList ih =>
    cases outcomes with
    | nil => exact List.nil_sublist _
    | cons outcome outcomes =>
      rw [simulated_cons, List.map_append]
      match outcome with
      | .ok (some s) => exact ih.cons_cons tx
      | .ok none => exact ih.cons tx
      | .error e => exact ih.cons tx

/-- The simulations of transactions with distinct ids have distinct ids. -/
theorem simulated_ids_nodup (hid : (txList.map (·.id)).Nodup) :
    ((simulated txList outcomes).map (·.id)).Nodup := by
  have hsub : List.Sublist ((simulated txList outcomes).map (·.rawTx)) txList :=
    simulated_rawTx_sublist
  have hids := hsub.map (·.id)
  rw [List.map_map] at hids
  exact hid.sublist hids

/-- The re-executed transactions are the simulated ones in another form. -/
theorem simulated_eq_map_reExecuted : simulated txList outcomes =
    (reExecuted txList outcomes).map fun tx => ⟨tx.rwSet, tx.effect, tx.log, tx.tx⟩ := by
  rw [simulated, reExecuted, List.map_filterMap]
  refine List.filterMap_congr fun e _ => ?_
  match e with
  | (tx, .ok (some s)) => rfl
  | (tx, .ok none) => rfl
  | (tx, .error e) => rfl

/-- The valid transactions are some of those that were executed again. -/
theorem validTxs_sublist (txs : List ReExecutedTransaction) :
    List.Sublist (validTxs txs) txs := by
  have hfold : ∀ (txs : List ReExecutedTransaction) (v : Validation),
      ∃ new, (txs.foldl validateStep v).validTxs = v.validTxs ++ new ∧ List.Sublist new txs := by
    intro txs
    induction txs with
    | nil => exact fun v => ⟨[], (List.append_nil _).symm, .slnil⟩
    | cons tx txs ih =>
      intro v
      obtain ⟨new, hnew, hsub⟩ := ih (validateStep v tx)
      rw [List.foldl_cons, hnew, validateStep]
      split
      · exact ⟨tx :: new, by simp, hsub.cons_cons tx⟩
      · exact ⟨new, rfl, hsub.cons tx⟩
  rw [validTxs]
  split
  · exact .refl _
  · obtain ⟨new, hnew, hsub⟩ := hfold txs {}
    rw [hnew]
    exact hsub

/-- The transactions that are re-executed are some of the list. -/
theorem reExecuted_tx_sublist : List.Sublist ((reExecuted txList outcomes).map (·.tx)) txList := by
  have hsub : List.Sublist ((simulated txList outcomes).map (·.rawTx)) txList :=
    simulated_rawTx_sublist
  rwa [simulated_eq_map_reExecuted, List.map_map] at hsub

/-- The commit events of re-executed transactions apply them. -/
theorem applied_reExecuted_perm {txs : List ReExecutedTransaction} {events : List CommitEvent}
    (h : Interleaving (txs.map fun tx => tx.toFinalized.events) events) :
    (applied events).Perm (txs.map (·.toFinalized)) := by
  have hlanes : (txs.map fun tx => tx.toFinalized.events) =
      (txs.map fun tx => [tx.toFinalized]).map (List.flatMap FinalizedTransaction.events) := by
    rw [List.map_map]
    refine List.map_congr_left fun tx _ => ?_
    simp
  have hsingle : (txs.map fun tx => [tx.toFinalized]) =
      (txs.map (·.toFinalized)).map fun tx => [tx] := by
    rw [List.map_map]
    rfl
  have hperm := h.perm
  rw [hlanes] at hperm
  refine (applied_perm hperm).trans (.of_eq ?_)
  rw [hsingle, flatten_map_singleton]

/-- The loop over the aborted epochs passes over transactions of the batch. -/
theorem ReExecutes.passes {epochs : List (List AbortedTransaction)} (h : ReExecutes epochs phases)
    (hepochs : epochs.flatten.map (·.rawTx) ⊆ txList) : Passes txList phases := by
  induction h with
  | nil => exact .nil
  | @cons epoch epochs outcomes events phases hevents _ ih =>
    rw [List.flatten_cons, List.map_append] at hepochs
    let valid := validTxs (reExecuted (epoch.map (·.rawTx)) outcomes)
    have hsub : (valid.map fun tx => (⟨tx.rwSet, tx.effect, tx.log, tx.tx⟩ :
        SimulatedTransaction)).Subperm (simulated (epoch.map (·.rawTx)) outcomes) := by
      rw [simulated_eq_map_reExecuted]
      exact ((validTxs_sublist _).map _).subperm
    refine .cons (fun _ h => hepochs (List.mem_append_left _ h)) hsub ?_
      (ih fun _ h => hepochs (List.mem_append_right _ h))
    refine (applied_reExecuted_perm hevents).trans (.of_eq ?_)
    rw [List.map_map]
    rfl

/-- The commit events of a schedule apply its committed transactions. -/
theorem ScheduledInfo.applied_perm {s : ScheduledInfo} {events : List CommitEvent}
    (h : Phased s.eventPhases events) : (applied events).Perm s.committed := by
  have hperm := h.perm
  rw [ScheduledInfo.eventPhases, ← List.map_flatten] at hperm
  rw [ScheduledInfo.committed, ← s.flatten_phases]
  exact Chase.applied_perm hperm

/-- An execution passes over transactions of the batch. -/
theorem Executes.passes {ncpu : Nat} (h : Executes ncpu txList phases)
    (hid : (txList.map (·.id)).Nodup) : Passes txList phases := by
  cases h with
  | @mk outcomes schedule events phases hschedule hevents hre =>
    have hsub : List.Sublist ((simulated txList outcomes).map (·.rawTx)) txList :=
      simulated_rawTx_sublist
    obtain ⟨committed, aborted, hperm, hcommitted, haborted⟩ :=
      parSchedule_partition (simulated_ids_nodup hid) hschedule
    have hcommits : committed.Subperm (simulated txList outcomes) :=
      (List.sublist_append_left _ _).subperm.trans hperm.subperm
    refine .cons (fun _ h => h) hcommits ?_ (hre.passes fun tx htx => ?_)
    · exact (ScheduledInfo.applied_perm hevents).trans hcommitted
    · have hraw : tx ∈ (committed ++ aborted).map (·.rawTx) := by
        rw [List.map_append]
        exact List.mem_append_right _ (haborted.mem_iff.1 htx)
      exact hsub.subset ((hperm.map _).mem_iff.1 hraw)

/-! ## One pass -/

/-- No account that both transactions touch is changed by one of them. -/
def Apart (s : State) (sim sim' : SimulatedTransaction) : Prop :=
  ∀ a b b', carried sim.effects a = some b → carried sim'.effects a = some b' →
    b = s.basic a ∧ b' = s.basic a

instance (s : State) : Std.Symm (Apart s) :=
  ⟨fun _ _ h a b b' hb hb' => (h a b' b hb' hb).symm⟩

/-- The transaction is one of those that `a` has sent. -/
def sentBy (txList : List IndexedEthereumTransaction) (a : H160) (tx : FinalizedTransaction) :
    Bool :=
  txList.any fun itx => itx.id = tx.id && itx.tx.caller = a

/-- A transaction of the batch is sent by its caller. -/
theorem sentBy_of_mem (hid : (txList.map (·.id)).Nodup) {itx : IndexedEthereumTransaction}
    (hitx : itx ∈ txList) {tx : FinalizedTransaction} (htx : tx.id = itx.id) (a : H160) :
    sentBy txList a tx = decide (a = itx.tx.caller) := by
  rw [Bool.eq_iff_iff, sentBy, List.any_eq_true, decide_eq_true_eq]
  constructor
  · rintro ⟨itx', hitx', heq⟩
    simp only [Bool.and_eq_true, decide_eq_true_eq] at heq
    rw [← heq.2, List.inj_on_of_nodup_map hid hitx' hitx (heq.1.trans htx)]
  · rintro rfl
    exact ⟨itx, hitx, by simp [htx]⟩

section Pass

variable (senders : List H160) (createIncreaseNonce : Bool) (interpreter : Interpreter)
  (newContract : EthereumTransaction → State → H160 × Bytes)

/-- `apply_local_effect` on the memory backend. -/
def applyLocalEffect (s : State) (effect : List Apply) : State := MemoryBackend.apply s effect false

/-- The state that `_execute` sees over the memory backend. -/
def accountsWorld : World Unit State State := .isolated (fun s _ => s) applyLocalEffect

/-- `simulate_tx` as a reader of the state. -/
def simulateOn (tx : EthereumTransaction) : Reader Unit State Outcome :=
  .read () fun s => .ret (simulateTx createIncreaseNonce interpreter newContract tx s)

/-- The condition on the phases of an execution: each simulation meets the condition of one
transaction, and no two transactions that are simulated on one state touch an account that one of
them changes. -/
def PhasesOk : State → List Phase → Prop
  | _, [] => True
  | s, .simulate pass outcomes :: phases =>
    (∀ tx ∈ pass, SimulationOk senders createIncreaseNonce interpreter tx.tx s) ∧
      (simulated pass outcomes).Pairwise (Apart s) ∧ PhasesOk s phases
  | s, .commit events :: phases =>
    PhasesOk (events.foldl (applyEvent applyLocalEffect) s) phases

end Pass

variable {senders : List H160} {createIncreaseNonce : Bool} {interpreter : Interpreter}
  {newContract : EthereumTransaction → State → H160 × Bytes} {s s' : State}

/-- The accounts after the effects of a commit. -/
theorem basic_foldl_applyEvent (events : List CommitEvent) (s : State) :
    (events.foldl (applyEvent applyLocalEffect) s).basic =
      ((applied events).map fun tx => carried tx.effect).foldl overwrite s.basic := by
  rw [foldl_applyEvent]
  induction applied events generalizing s with
  | nil => rfl
  | cons tx txs ih =>
    rw [List.foldl_cons, ih, List.map_cons, List.foldl_cons, applyLocalEffect, basic_apply]

/-- What one simulated call does alone, on the state of its pass. -/
structure Keeps (txList : List IndexedEthereumTransaction) (senders : List H160) (s : State)
    (tx : FinalizedTransaction) : Prop where
  total : totalBalance (overwrite s.basic (carried tx.effect)) = totalBalance s.basic
  nonce : ∀ a ∈ senders, (overwrite s.basic (carried tx.effect) a).nonce.toNat =
    (s.basic a).nonce.toNat + if sentBy txList a tx then 1 else 0

/-- **One pass**: separate transactions that each keep the sum of the balances keep it together, and
their nonces add up. -/
theorem pass_keeps {txs : List FinalizedTransaction}
    (hkeeps : ∀ tx ∈ txs, Keeps txList senders s tx)
    (hseparate : Separate s.basic (txs.map fun tx => carried tx.effect)) :
    totalBalance ((txs.map fun tx => carried tx.effect).foldl overwrite s.basic) =
        totalBalance s.basic ∧
      ∀ a ∈ senders, ((txs.map fun tx => carried tx.effect).foldl overwrite s.basic a).nonce.toNat =
        (s.basic a).nonce.toNat + txs.countP (sentBy txList a) := by
  constructor
  · refine total_foldl_overwrite (fun b : Basic => b.balance.toNat) hseparate fun w hw => ?_
    obtain ⟨tx, htx, rfl⟩ := List.mem_map.1 hw
    exact (hkeeps tx htx).total
  · intro a ha
    have hnonce := measure_foldl_overwrite (a := a) (g := s.basic)
      (fun b : Basic => (b.nonce.toNat : ℤ)) hseparate rfl
    rw [List.map_map] at hnonce
    have hcount : (txs.map ((fun w => (((w a).getD (s.basic a)).nonce.toNat : ℤ) -
        ((s.basic a).nonce.toNat : ℤ)) ∘ fun tx => carried tx.effect)).sum =
          (txs.countP (sentBy txList a) : ℤ) := by
      clear hnonce hseparate
      induction txs with
      | nil => rfl
      | cons tx txs ih =>
        have htx := (hkeeps tx List.mem_cons_self).nonce a ha
        rw [overwrite] at htx
        rw [List.map_cons, List.sum_cons, ih fun tx' h => hkeeps tx' (List.mem_cons_of_mem _ h),
          List.countP_cons, Function.comp_apply, htx]
        split <;> omega
    omega

/-! ## A run -/

/-- No two transactions that are committed from one state both change an account. -/
def CommitsApart : State → List Phase → Prop
  | _, [] => True
  | s, .simulate _ _ :: phases => CommitsApart s phases
  | s, .commit events :: phases =>
    ((applied events).Pairwise fun tx tx' => ∀ a b b', carried tx.effect a = some b →
      carried tx'.effect a = some b' → b = s.basic a ∨ b' = s.basic a) ∧
        CommitsApart (events.foldl (applyEvent applyLocalEffect) s) phases

/-- In a list that is zipped with its image, an element stands beside its own. -/
theorem mem_zip_map {α β : Type} {f : α → β} {l : List α} {a : α} {b : β}
    (h : (a, b) ∈ l.zip (l.map f)) : b = f a := by
  induction l with
  | nil => cases h
  | cons c l ih =>
    rcases List.mem_cons.1 h with heq | h
    · cases heq
      rfl
    · exact ih h

/-- A simulated call of a pass does alone what it should. -/
theorem keeps_of_simulated {pass : List IndexedEthereumTransaction}
    (hcalls : ∀ tx ∈ pass, tx.tx.toAddr.isSome) (hid : (txList.map (·.id)).Nodup)
    (hpass : pass ⊆ txList)
    (hok : ∀ tx ∈ pass, SimulationOk senders createIncreaseNonce interpreter tx.tx s)
    {sim : SimulatedTransaction}
    (hsim : sim ∈ simulated pass (pass.map fun tx =>
      simulateTx createIncreaseNonce interpreter newContract tx.tx s)) :
    Keeps txList senders s sim.toFinalized := by
  obtain ⟨hmem, hzip⟩ := mem_simulated hsim
  obtain ⟨toAddr, hto⟩ := Option.isSome_iff_exists.1 (hcalls _ hmem)
  have houtcome := mem_zip_map hzip
  rw [simulateTx, hto] at houtcome
  obtain ⟨htotal, hnonce⟩ := simulateCall_carried hto (hok _ hmem) houtcome.symm
  refine ⟨htotal, fun a ha => (hnonce a ha).trans ?_⟩
  rw [sentBy_of_mem hid (hpass hmem) rfl]
  simp

/-- The transactions of a commit are separate when the simulated ones are apart. -/
theorem separate_of_apart {sims committed : List SimulatedTransaction}
    {txs : List FinalizedTransaction} (hapart : sims.Pairwise (Apart s))
    (hsub : committed.Subperm sims)
    (htxs : txs.Perm (committed.map SimulatedTransaction.toFinalized)) :
    Separate s.basic (txs.map fun tx => carried tx.effect) := by
  obtain ⟨order, horder, hsublist⟩ := hsub
  have hcommitted : committed.Pairwise (Apart s) :=
    (horder.pairwise_iff fun h => Std.Symm.symm _ _ h).1 (hapart.sublist hsublist)
  have hall : (committed.map fun sim => carried sim.effects).Pairwise fun w w' =>
      ∀ a b b', w a = some b → w' a = some b' → b = s.basic a ∧ b' = s.basic a :=
    List.pairwise_map.2 hcommitted
  refine (List.Perm.pairwise_iff (fun h a b b' hb hb' => (h a b' b hb' hb).symm) ?_).1 hall
  have hperm := htxs.map fun tx => carried tx.effect
  rw [List.map_map] at hperm
  exact hperm.symm

/-- Passes over calls keep the total balance, and add to the nonce of a sender one for each
committed transaction that it sent. -/
theorem Passes.keeps (h : Passes txList phases) (hcalls : ∀ tx ∈ txList, tx.tx.toAddr.isSome)
    (hid : (txList.map (·.id)).Nodup)
    (hruns :
      accountsWorld.Runs (simulateOn createIncreaseNonce interpreter newContract) s phases s')
    (hok : PhasesOk senders createIncreaseNonce interpreter s phases) :
    (totalBalance s'.basic = totalBalance s.basic ∧
      ∀ a ∈ senders, (s'.basic a).nonce.toNat =
        (s.basic a).nonce.toNat + (committedTxs phases).countP (sentBy txList a)) ∧
      CommitsApart s phases := by
  induction h generalizing s with
  | nil =>
    obtain rfl := World.isolated_runs_nil.1 hruns
    exact ⟨⟨rfl, fun _ _ => rfl⟩, trivial⟩
  | @cons pass outcomes events phases committed hpass hsub happlied _ ih =>
    obtain ⟨hsimulations, hapart, hrest⟩ := hok
    obtain ⟨houtcomes, hruns⟩ := World.isolated_runs_simulate.1 hruns
    have hruns := World.isolated_runs_commit.1 hruns
    obtain ⟨⟨htotal, hnonce⟩, hcommits⟩ := ih hruns hrest
    have hseparate := separate_of_apart hapart hsub happlied
    have hkeeps : ∀ tx ∈ applied events, Keeps txList senders s tx := by
      intro tx htx
      obtain ⟨sim, hsim, rfl⟩ := List.mem_map.1 (happlied.mem_iff.1 htx)
      have hmem := hsub.subset hsim
      rw [houtcomes] at hmem
      exact keeps_of_simulated (fun tx h => hcalls tx (hpass h)) hid hpass hsimulations hmem
    obtain ⟨hpassTotal, hpassNonce⟩ := pass_keeps hkeeps hseparate
    rw [← basic_foldl_applyEvent] at hpassTotal hpassNonce
    refine ⟨⟨htotal.trans hpassTotal, fun a ha => ?_⟩, ?_, hcommits⟩
    · have hcommitted : committedTxs (.simulate pass outcomes :: .commit events :: phases) =
          applied events ++ committedTxs phases := rfl
      rw [hnonce a ha, hpassNonce a ha, hcommitted, List.countP_append]
      omega
    · refine (List.pairwise_map.1 hseparate).imp fun {tx tx'} h a b b' hb hb' => ?_
      exact .inl (h a b b' hb hb').1

/-- The transactions of a batch are numbered. -/
theorem unpackBatches_nodup (batches : List (List EthereumTransaction)) :
    ((unpackBatches batches).map (·.id)).Nodup := by
  rw [unpackBatches, List.map_map]
  have hids : ((fun x => x.id) ∘ fun x : EthereumTransaction × ℕ =>
      (⟨x.1, x.2⟩ : IndexedEthereumTransaction)) = Prod.snd := rfl
  rw [hids, List.zipIdx_map_snd]
  exact List.nodup_range'

/-- The senders of the transactions of the batches. -/
def callers (batches : List (List EthereumTransaction)) : List H160 :=
  batches.flatten.map (·.caller)

/-- **No lost update on accounts**: over every execution of a batch of calls whose simulations meet
the condition, the sum of all balances stays, the nonce of every sender grows by the number of its
committed transactions, and no two transactions that are committed from one state both change an
account. -/
theorem execute_keeps_accounts (createIncreaseNonce : Bool) (interpreter : Interpreter)
    (newContract : EthereumTransaction → State → H160 × Bytes) (ncpu : Nat)
    (batches : List (List EthereumTransaction))
    (hcalls : ∀ batch ∈ batches, ∀ tx ∈ batch, tx.toAddr.isSome) {s s' : State}
    {phases : List Phase} (hexecutes : Executes ncpu (unpackBatches batches) phases)
    (hruns :
      accountsWorld.Runs (simulateOn createIncreaseNonce interpreter newContract) s phases s')
    (hok : PhasesOk (callers batches) createIncreaseNonce interpreter s phases) :
    (totalBalance s'.basic = totalBalance s.basic ∧
      ∀ a ∈ callers batches, (s'.basic a).nonce.toNat = (s.basic a).nonce.toNat +
        (committedTxs phases).countP (sentBy (unpackBatches batches) a)) ∧
      CommitsApart s phases := by
  have hid := unpackBatches_nodup batches
  refine (hexecutes.passes hid).keeps (fun tx htx => ?_) hid hruns hok
  obtain ⟨⟨tx, i⟩, hmem, rfl⟩ := List.mem_map.1 htx
  obtain ⟨batch, hbatch, htx⟩ := List.mem_flatten.1 (List.fst_mem_of_mem_zipIdx hmem)
  exact hcalls batch hbatch tx htx

namespace AccountsFixture

/-- A transfer of value without data. -/
def transferTx (caller toAddr : H160) (value : U256) : EthereumTransaction :=
  .ofCall caller toAddr value [] 21000 0

/-- Accounts without code: a call makes no handler operation. -/
def noCode : Interpreter := fun _ _ => .ok (some [])

/-- No contract is deployed. -/
def noContract : EthereumTransaction → State → H160 × Bytes := fun _ _ => (0, [])

/-- Two accounts with a balance. -/
def funded : State :=
  Function.update (Function.update State.empty 1 (some { balance := 100 })) 4
    (some { balance := 100 })

/-- The effects of a first transfer of 10 from an account of `funded` to a new one. -/
def transferEffects (caller toAddr : H160) : List Apply :=
  [.modify caller ⟨90, 1⟩ none [] false, .modify toAddr ⟨10, 0⟩ none [] false]

/-- The outcome of such a transfer. -/
def transferOutcome (caller toAddr : H160) : Outcome :=
  .ok (some ⟨transferEffects caller toAddr, [], {}⟩)

/-- The phases of an execution of two transfers that commits the first one before the second. -/
def transferPhases (caller caller' : H160) : List Phase :=
  [.simulate (unpackBatches [[transferTx caller 5 10, transferTx caller' 6 10]])
      [transferOutcome caller 5, transferOutcome caller' 6],
    .commit ([⟨0, transferEffects caller 5⟩, ⟨1, transferEffects caller' 6⟩].flatMap
      FinalizedTransaction.events)]

/-- The accounts after the commit. -/
theorem basic_transfers (caller caller' : H160) :
    (([⟨0, transferEffects caller 5⟩, ⟨1, transferEffects caller' 6⟩].flatMap
      FinalizedTransaction.events).foldl (applyEvent applyLocalEffect) funded).basic =
        Function.update
          (Function.update (Function.update (Function.update funded.basic caller ⟨90, 1⟩)
          5 ⟨10, 0⟩) caller' ⟨90, 1⟩) 6 ⟨10, 0⟩ := by
  rw [basic_foldl_applyEvent, applied_flatMap_events, List.map_cons, List.map_cons, List.map_nil,
    List.foldl_cons, List.foldl_cons, List.foldl_nil, overwrite_carried, overwrite_carried]
  rfl

/-- The two transfers of the fixture run. -/
theorem runs_transfers {caller caller' : H160}
    (h : simulateTx true noCode noContract (transferTx caller 5 10) funded =
      transferOutcome caller 5)
    (h' : simulateTx true noCode noContract (transferTx caller' 6 10) funded =
      transferOutcome caller' 6) :
    accountsWorld.Runs (simulateOn true noCode noContract) funded (transferPhases caller caller')
      (([⟨0, transferEffects caller 5⟩, ⟨1, transferEffects caller' 6⟩].flatMap
        FinalizedTransaction.events).foldl (applyEvent applyLocalEffect) funded) := by
  refine World.isolated_runs_simulate.2 ⟨?_, World.isolated_runs_commit.2 ?_⟩
  · rw [← h, ← h']
    rfl
  · exact World.isolated_runs_nil.2 rfl

/-- The phases of the two transfers are those of their schedule. -/
theorem executes_transfers {caller caller' : H160}
    (h : parSchedule 1 (simulated
      (unpackBatches [[transferTx caller 5 10, transferTx caller' 6 10]])
      [transferOutcome caller 5, transferOutcome caller' 6]) =
        some (.ok ⟨[[⟨0, transferEffects caller 5⟩], [⟨1, transferEffects caller' 6⟩]], [], []⟩)) :
    Executes 1 (unpackBatches [[transferTx caller 5 10, transferTx caller' 6 10]])
      (transferPhases caller caller') :=
  .mk h (Phased.flatten _) .nil

theorem totalBalance_empty : totalBalance (fun _ => {}) = 0 := by
  rw [totalBalance]
  exact Finset.sum_eq_zero fun _ _ => rfl

/-- The sum of the balances when an account changes, by the numbers. -/
theorem totalBalance_set {f : H160 → Basic} {a : H160} {b : Basic} (total old new : Nat)
    (hf : totalBalance f = total + old) (hold : (f a).balance.toNat = old)
    (hnew : b.balance.toNat = new) : totalBalance (Function.update f a b) = total + new := by
  have h := totalBalance_update f a b
  omega

/-- The fixture has two accounts with a balance of 100. -/
theorem totalBalance_funded : totalBalance funded.basic = 200 := by
  have hbasic : funded.basic =
      Function.update (Function.update (fun _ => {}) 1 ⟨100, 0⟩) 4 ⟨100, 0⟩ := by
    funext a
    by_cases h4 : a = 4
    · subst h4
      rfl
    · by_cases h1 : a = 1
      · subst h1
        rfl
      · rw [State.basic, funded, Function.update_of_ne h4, Function.update_of_ne h1,
          Function.update_of_ne h4, Function.update_of_ne h1]
        rfl
  rw [hbasic]
  refine totalBalance_set 100 0 100 ?_ rfl rfl
  exact totalBalance_set 0 0 100 totalBalance_empty rfl rfl

/-- A transfer that does not saturate meets the condition on one transaction. -/
theorem simulationOk_transfer {senders : List H160} {caller toAddr : H160} {value : U256}
    (h : (funded.basic toAddr).balance.toNat + value.toNat < 2 ^ 256) :
    SimulationOk senders true noCode (transferTx caller toAddr value) funded := by
  intro to' hto ops hops
  cases hto
  cases hops
  refine ⟨⟨fun _ _ => ?_, fun hdeleted => ?_⟩, fun _ _ => trivial⟩
  · rw [balance_incNonce]
    exact h
  · obtain ⟨f, hf, hmem⟩ := (deletedIn_incNonce _ _).1 hdeleted
    cases List.mem_singleton.1 hf
    cases hmem

/-- Transfers between different accounts are apart. -/
theorem apart_transfers {caller caller' : H160} {sim sim' : SimulatedTransaction}
    (h : sim.effects = transferEffects caller 5) (h' : sim'.effects = transferEffects caller' 6)
    (hdisjoint : ∀ a ∈ [caller, 5], a ∉ [caller', 6]) : Apart funded sim sim' := by
  intro a b b' hb hb'
  rw [h] at hb
  rw [h'] at hb'
  have hmem : a ∈ [caller, 5] := by
    by_contra hnot
    rw [carried, lastWrite_eq_none_iff.2 hnot] at hb
    cases hb
  have hmem' : a ∈ [caller', 6] := by
    by_contra hnot
    rw [carried, lastWrite_eq_none_iff.2 hnot] at hb'
    cases hb'
  exact absurd hmem' (hdisjoint a hmem)

/-- Two transfers from different callers keep the total balance. -/
theorem execute_keeps_accounts_transfers :
    ∃ s' : State, accountsWorld.Runs (simulateOn true noCode noContract) funded
        (transferPhases 1 4) s' ∧ totalBalance s'.basic = totalBalance funded.basic := by
  have hruns := @runs_transfers 1 4 (by decide) (by decide)
  refine ⟨_, hruns, (execute_keeps_accounts true noCode noContract 1
    [[transferTx 1 5 10, transferTx 4 6 10]] (by decide) (executes_transfers (by decide))
    hruns ⟨fun tx htx => ?_, ?_, trivial⟩).1.1⟩
  · rcases List.mem_cons.1 htx with rfl | htx
    · exact simulationOk_transfer (by decide)
    · cases List.mem_singleton.1 htx
      exact simulationOk_transfer (by decide)
  · refine List.pairwise_pair.2 (@apart_transfers 1 4 _ _ rfl rfl ?_)
    simp

/-- Two transfers from the account 1 are both committed from one state: the second one sets the
balance of the account to the value that the first one has set, the account has sent 20 and paid 10,
and its nonce has grown by one. -/
theorem execute_loses_transfer :
    ∃ phases s', Executes 1 (unpackBatches [[transferTx 1 5 10, transferTx 1 6 10]]) phases ∧
      accountsWorld.Runs (simulateOn true noCode noContract) funded phases s' ∧
      totalBalance funded.basic = 200 ∧ totalBalance s'.basic = 210 ∧
      (funded.basic 1).nonce.toNat = 0 ∧ (s'.basic 1).nonce.toNat = 1 ∧
      (committedTxs phases).countP
        (sentBy (unpackBatches [[transferTx 1 5 10, transferTx 1 6 10]]) 1) = 2 := by
  refine ⟨transferPhases 1 1, _, executes_transfers (by decide),
    runs_transfers (by decide) (by decide), totalBalance_funded, ?_, rfl, ?_, by decide⟩
  · rw [basic_transfers]
    refine totalBalance_set 200 0 10 ?_ rfl rfl
    refine totalBalance_set 110 90 90 ?_ rfl rfl
    refine totalBalance_set 190 0 10 ?_ rfl rfl
    exact totalBalance_set 100 100 90 totalBalance_funded rfl rfl
  · rw [basic_transfers]
    rfl

end AccountsFixture

end Chase
