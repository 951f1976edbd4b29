import Chase.Core.FirstPass
import Chase.Lib.Acyclic
import Chase.Lib.Reader

/-!
# Executing a batch

`_execute` simulates the transactions of its batches on the present state, commits the schedule of
the outcomes, and then simulates and commits the aborted transactions epoch by epoch. A run of it is
a list of phases (`Executes`): which transactions are simulated with which outcomes, and in which
order the threads of a commit record and apply the effects. What the phases do to a state is up to
the state (`World`): how it answers reads, what a commit event does to it, and how other parties
move it meanwhile.
-/

namespace Chase

open Chase.Graph Interleave Reading

/-- What `simulate_tx` returns. -/
abbrev Outcome := Except String (Option Simulated)

/-- `ReExecutedTransaction`. -/
structure ReExecutedTransaction where
  tx : IndexedEthereumTransaction
  effect : List Apply
  log : List Log
  rwSet : RwSet
  deriving DecidableEq, Repr

namespace ReExecutedTransaction

/-- `ReExecutedTransaction::write_set`. -/
def writeSet (tx : ReExecutedTransaction) : List H256 := tx.rwSet.writeKeys

/-- `FinalizedTransaction::from`. -/
def toFinalized (tx : ReExecutedTransaction) : FinalizedTransaction := ⟨tx.tx.id, tx.effect⟩

end ReExecutedTransaction

/-- `_unpack_batches`: the transactions of all batches, numbered. -/
def unpackBatches (consensusOutput : List (List EthereumTransaction)) :
    List IndexedEthereumTransaction :=
  consensusOutput.flatten.zipIdx.map fun (tx, id) => ⟨tx, id⟩

/-- The result of `_simulate`: a transaction that fails is dropped. -/
def simulated (txList : List IndexedEthereumTransaction) (outcomes : List Outcome) :
    List SimulatedTransaction :=
  (txList.zip outcomes).filterMap fun
    | (tx, .ok (some s)) => some ⟨s.rwSet, s.effects, s.logs, tx⟩
    | _ => none

/-- The result of `_re_execute`: a transaction that fails is dropped. -/
def reExecuted (txList : List IndexedEthereumTransaction) (outcomes : List Outcome) :
    List ReExecutedTransaction :=
  (txList.zip outcomes).filterMap fun
    | (tx, .ok (some s)) => some ⟨tx, s.effects, s.logs, s.rwSet⟩
    | _ => none

/-- The state of the loop of `_validate_optimistic_assumption`. -/
structure Validation where
  validTxs : List ReExecutedTransaction := []
  invalidTxs : List ReExecutedTransaction := []
  writeSet : List H256 := []

/-- A transaction is valid when it writes no key that a valid transaction before it writes. -/
def validateStep (v : Validation) (tx : ReExecutedTransaction) : Validation :=
  if Cds.disjointKeys tx.writeSet v.writeSet then
    { v with validTxs := v.validTxs ++ [tx], writeSet := v.writeSet ++ tx.writeSet }
  else { v with invalidTxs := v.invalidTxs ++ [tx] }

/-- The transactions that `_validate_optimistic_assumption` commits; the others are dropped. -/
def validTxs (rwSet : List ReExecutedTransaction) : List ReExecutedTransaction :=
  if rwSet.length = 1 then rwSet else (rwSet.foldl validateStep {}).validTxs

/-! ## Commit events -/

/-- What a thread of a commit does with a transaction: it extends the effect collector, if there is
one, and then applies the effect. -/
inductive CommitEvent where
  | record (tx : FinalizedTransaction)
  | apply (tx : FinalizedTransaction)
  deriving DecidableEq, Repr

/-- The two events of a transaction. -/
def FinalizedTransaction.events (tx : FinalizedTransaction) : List CommitEvent :=
  [.record tx, .apply tx]

/-- The events of `_commit_cds_schedule`. -/
def ScheduledInfo.eventPhases (s : ScheduledInfo) : List (List (List CommitEvent)) :=
  s.phases.map (List.map (List.flatMap FinalizedTransaction.events))

/-- Every recorded transaction of `inFlight` is applied by the events, and every transaction that
they record, after it is recorded. -/
def Closes : List FinalizedTransaction → List CommitEvent → Prop
  | inFlight, [] => inFlight = []
  | inFlight, .record tx :: events => Closes (tx :: inFlight) events
  | inFlight, .apply tx :: events => tx ∈ inFlight ∧ Closes (inFlight.erase tx) events

/-- The transactions of a chain are recorded and applied one after another. -/
theorem closes_flatMap_events (txs : List FinalizedTransaction) :
    Closes [] (txs.flatMap FinalizedTransaction.events) := by
  induction txs with
  | nil => rfl
  | cons tx txs ih => simpa [FinalizedTransaction.events, Closes] using ih

/-- Threads that each apply what they record do so in every interleaving. -/
theorem Closes.of_interleaving {cs : List (List CommitEvent)} {events : List CommitEvent}
    (h : Interleaving cs events) (lanes : List (List FinalizedTransaction × List CommitEvent))
    {inFlight : List FinalizedTransaction} (hcs : (lanes.map (·.2)).Perm cs)
    (hopen : inFlight.Perm (lanes.flatMap (·.1))) (hlanes : ∀ lane ∈ lanes, Closes lane.1 lane.2) :
    Closes inFlight events := by
  induction h generalizing lanes inFlight with
  | done hnil =>
    have hempty : lanes.flatMap (·.1) = [] := by
      rw [List.flatMap_eq_nil_iff]
      intro lane hlane
      have hend := hlanes lane hlane
      rwa [hnil lane.2 (hcs.mem_iff.1 (List.mem_map_of_mem hlane)), Closes] at hend
    rw [hempty] at hopen
    exact hopen.eq_nil
  | @step cs rest event c l hp _ ih =>
    -- the lane of the event comes first
    obtain ⟨_, hsymm, hmap⟩ := Acyclic.exists_map_eq_of_perm Prod.snd (hcs.trans hp).symm
    obtain ⟨⟨held, _⟩, lanes', rfl, rfl, rfl⟩ := List.map_eq_cons_iff.1 hmap
    have hperm := hsymm.symm
    have hlane := hlanes _ (hperm.mem_iff.2 List.mem_cons_self)
    have hothers : ∀ lane ∈ lanes', Closes lane.1 lane.2 := fun lane hmem =>
      hlanes lane (hperm.mem_iff.2 (List.mem_cons_of_mem _ hmem))
    have hopen' : inFlight.Perm (held ++ lanes'.flatMap (·.1)) :=
      hopen.trans (hperm.flatMap_right _)
    cases event with
    | record tx =>
      refine ih ((tx :: held, c) :: lanes') .rfl (hopen'.cons tx) fun lane hmem => ?_
      rcases List.mem_cons.1 hmem with rfl | hmem
      · exact hlane
      · exact hothers lane hmem
    | apply tx =>
      obtain ⟨hheld, hclose⟩ := hlane
      refine ⟨hopen'.mem_iff.2 (List.mem_append_left _ hheld), ?_⟩
      refine ih ((held.erase tx, c) :: lanes') .rfl ?_ fun lane hmem => ?_
      · have := hopen'.erase tx
        rwa [List.erase_append_left _ hheld] at this
      · rcases List.mem_cons.1 hmem with rfl | hmem
        · exact hclose
        · exact hothers lane hmem

/-- The threads of a commit apply what they record. -/
theorem closes_of_lanes (lanes : List (List FinalizedTransaction)) {events : List CommitEvent}
    (h : Interleaving (lanes.map (List.flatMap FinalizedTransaction.events)) events) :
    Closes [] events := by
  refine Closes.of_interleaving h
    (lanes.map fun lane => ([], lane.flatMap FinalizedTransaction.events)) ?_ ?_ ?_
  · rw [List.map_map]
    rfl
  · simp
  · intro lane hlane
    obtain ⟨txs, -, rfl⟩ := List.mem_map.1 hlane
    exact closes_flatMap_events txs

/-- Closed events, one after another, are closed. -/
theorem Closes.append {inFlight : List FinalizedTransaction} {events events' : List CommitEvent}
    (h : Closes inFlight events) (h' : Closes [] events') :
    Closes inFlight (events ++ events') := by
  induction events generalizing inFlight with
  | nil =>
    rw [Closes] at h
    subst h
    exact h'
  | cons event events ih =>
    cases event with
    | record tx => exact ih h
    | apply tx => exact ⟨h.1, ih h.2⟩

/-- Every interleaving of the phases applies what it records. -/
theorem closes_of_phased {phases : List (List (List FinalizedTransaction))}
    {events : List CommitEvent}
    (h : Phased (phases.map (List.map (List.flatMap FinalizedTransaction.events))) events) :
    Closes [] events := by
  induction phases generalizing events with
  | nil =>
    cases h
    rfl
  | cons lanes phases ih =>
    cases h with
    | cons hl hrest => exact (closes_of_lanes lanes hl).append (ih hrest)

/-! ## The phases of an execution -/

/-- A phase of `_execute`: the transactions are simulated with these outcomes, or the threads of a
commit record and apply effects in this order. -/
inductive Phase where
  | simulate (txList : List IndexedEthereumTransaction) (outcomes : List Outcome)
  | commit (events : List CommitEvent)

/-- The loop of `_execute` over the epochs of aborted transactions. -/
inductive ReExecutes : List (List AbortedTransaction) → List Phase → Prop
  | nil : ReExecutes [] []
  | cons {epoch : List AbortedTransaction} {epochs : List (List AbortedTransaction)}
    {outcomes : List Outcome} {events : List CommitEvent} {phases : List Phase} :
    Interleaving ((validTxs (reExecuted (epoch.map (·.rawTx)) outcomes)).map
      fun tx => tx.toFinalized.events) events →
    ReExecutes epochs phases →
    ReExecutes (epoch :: epochs)
      (.simulate (epoch.map (·.rawTx)) outcomes :: .commit events :: phases)

/-- `_execute` on a machine with `ncpu` cores. A panic of `par_construct` or of the chain builder
has no phases. -/
inductive Executes (ncpu : Nat) (txList : List IndexedEthereumTransaction) : List Phase → Prop
  | mk {outcomes : List Outcome} {schedule : ScheduledInfo} {events : List CommitEvent}
    {phases : List Phase} :
    parSchedule ncpu (simulated txList outcomes) = some (.ok schedule) →
    Phased schedule.eventPhases events → ReExecutes schedule.conflictZoneAborted phases →
    Executes ncpu txList (.simulate txList outcomes :: .commit events :: phases)

/-- The threads of every commit of the phases apply what they record; `inFlight` are the
transactions that are recorded before the first phase. -/
def PhasesClose : List FinalizedTransaction → List Phase → Prop
  | inFlight, [] => inFlight = []
  | inFlight, .simulate _ _ :: phases => inFlight = [] ∧ PhasesClose [] phases
  | inFlight, .commit events :: phases => Closes inFlight events ∧ PhasesClose [] phases

/-- The loop over the aborted epochs applies what it records. -/
theorem ReExecutes.phasesClose {epochs : List (List AbortedTransaction)} {phases : List Phase}
    (h : ReExecutes epochs phases) : PhasesClose [] phases := by
  induction h with
  | nil => rfl
  | @cons epoch _ outcomes events _ hevents _ ih =>
    refine ⟨rfl, ?_, ih⟩
    refine closes_of_lanes ((validTxs (reExecuted (epoch.map (·.rawTx)) outcomes)).map
      fun tx => [tx.toFinalized]) ?_
    rw [List.map_map]
    refine cast (congrArg (Interleaving · events) ?_) hevents
    refine List.map_congr_left fun tx _ => ?_
    simp

/-- An execution applies what it records. -/
theorem Executes.phasesClose {ncpu : Nat} {txList : List IndexedEthereumTransaction}
    {phases : List Phase} (h : Executes ncpu txList phases) : PhasesClose [] phases := by
  cases h with
  | mk _ hevents hre => exact ⟨rfl, closes_of_phased hevents, hre.phasesClose⟩

/-! ## Running the phases -/

/-- A global state that `_execute` runs on: it answers reads and takes commit events, while other
parties may move it. -/
structure World (ι o σ : Type) extends Shared ι o σ where
  step : σ → CommitEvent → σ → Prop

section

variable {ι o σ : Type} (W : World ι o σ) (simulateTx : EthereumTransaction → Reader ι o Outcome)

/-- The phases lead from one state to another. -/
inductive World.Runs : σ → List Phase → σ → Prop
  | done (s : σ) : Runs s [] s
  | env {s s' s'' : σ} {phases : List Phase} :
    W.env s s' → Runs s' phases s'' → Runs s phases s''
  | simulate {s s' s'' : σ} {txList : List IndexedEthereumTransaction} {outcomes : List Outcome}
    {phases : List Phase} :
    PoolRun W.toShared s (txList.map fun tx => simulateTx tx.tx) outcomes s' →
    Runs s' phases s'' → Runs s (.simulate txList outcomes :: phases) s''
  | event {s s' s'' : σ} {event : CommitEvent} {events : List CommitEvent} {phases : List Phase} :
    W.step s event s' → Runs s' (.commit events :: phases) s'' →
    Runs s (.commit (event :: events) :: phases) s''
  | committed {s s' : σ} {phases : List Phase} :
    Runs s phases s' → Runs s (.commit [] :: phases) s'

/-- `_execute` leads from one state to another. -/
def World.Execute (ncpu : Nat) (consensusOutput : List (List EthereumTransaction)) (s s' : σ) :
    Prop :=
  ∃ phases, Executes ncpu (unpackBatches consensusOutput) phases ∧ W.Runs simulateTx s phases s'

end

/-! ## A state that only the batch moves -/

section

variable {ι o σ : Type} (view : σ → ι → o) (apply : σ → List Apply → σ)

/-- A commit event on a state without a collector. -/
def applyEvent (s : σ) : CommitEvent → σ
  | .record _ => s
  | .apply tx => apply s tx.effect

/-- A state that is read without being moved, and that nothing but the commits move. -/
def World.isolated : World ι o σ where
  reads s i v s' := v = view s i ∧ s' = s
  env _ _ := False
  step s event s' := s' = applyEvent apply s event

variable {view apply} {simulateTx : EthereumTransaction → Reader ι o Outcome} {s s' : σ}
  {phases : List Phase}

namespace World

/-- A run without phases does nothing. -/
theorem isolated_runs_nil : (isolated view apply).Runs simulateTx s [] s' ↔ s' = s := by
  constructor
  · intro h
    cases h with
    | done => rfl
    | env hstep => exact hstep.elim
  · rintro rfl
    exact .done _

/-- The outcomes are those on the state before the phase. -/
theorem isolated_runs_simulate {txList : List IndexedEthereumTransaction}
    {outcomes : List Outcome} :
    (isolated view apply).Runs simulateTx s (.simulate txList outcomes :: phases) s' ↔
      outcomes = txList.map (fun tx => (simulateTx tx.tx).run (view s)) ∧
        (isolated view apply).Runs simulateTx s phases s' := by
  constructor
  · intro h
    cases h with
    | env hstep => exact hstep.elim
    | simulate hpool hrest =>
      obtain ⟨rfl, rfl⟩ := hpool.eq_run (view s) (fun t => t = s)
        (fun _ _ _ hstep => False.elim hstep)
        (fun t i v t' ht hread => by
          obtain ⟨hv, rfl⟩ := hread
          subst ht
          exact ⟨rfl, hv⟩) rfl
      rw [List.map_map]
      exact ⟨rfl, hrest⟩
  · rintro ⟨rfl, hrest⟩
    have hread : ∀ i, (isolated view apply).reads s i (view s i) s := fun _ => ⟨rfl, rfl⟩
    have hpool := PoolRun.of_run _ hread (txList.map fun tx => simulateTx tx.tx)
    rw [List.map_map] at hpool
    exact .simulate hpool hrest

/-- A commit applies its events. -/
theorem isolated_runs_commit {events : List CommitEvent} :
    (isolated view apply).Runs simulateTx s (.commit events :: phases) s' ↔
      (isolated view apply).Runs simulateTx (events.foldl (applyEvent apply) s) phases s' := by
  induction events generalizing s with
  | nil =>
    constructor
    · intro h
      cases h with
      | env hstep => exact hstep.elim
      | committed hrest => exact hrest
    · exact .committed
  | cons event events ih =>
    rw [List.foldl_cons, ← ih]
    constructor
    · intro h
      cases h with
      | env hstep => exact hstep.elim
      | event hstep hrest =>
        cases hstep
        exact hrest
    · exact .event rfl

/-- A batch whose schedule is one chain has one order of commits. -/
theorem isolated_execute_chain {ncpu : Nat} {batches : List (List EthereumTransaction)}
    {chain : List FinalizedTransaction} {epochs : List (List AbortedTransaction)}
    (hs : parSchedule ncpu (simulated (unpackBatches batches)
      ((unpackBatches batches).map fun tx => (simulateTx tx.tx).run (view s))) =
        some (.ok ⟨[chain], [], epochs⟩)) :
    (isolated view apply).Execute simulateTx ncpu batches s s' ↔
      ∃ phases, ReExecutes epochs phases ∧ (isolated view apply).Runs simulateTx
        ((chain.flatMap FinalizedTransaction.events).foldl (applyEvent apply) s) phases s' := by
  constructor
  · rintro ⟨_, ⟨hschedule, hevents, hre⟩, hruns⟩
    obtain ⟨rfl, hrest⟩ := isolated_runs_simulate.1 hruns
    rw [hs] at hschedule
    cases hschedule
    cases hevents with
    | cons hchain hnil =>
      cases hnil
      rw [hchain.eq_of_singleton, List.append_nil, isolated_runs_commit] at hrest
      exact ⟨_, hre, hrest⟩
  · rintro ⟨phases, hre, hruns⟩
    refine ⟨_, .mk hs (.cons (.flatten _) .nil) hre, isolated_runs_simulate.2 ⟨rfl, ?_⟩⟩
    rw [List.map_singleton, List.flatten_singleton, List.append_nil, isolated_runs_commit]
    exact hruns

end World

end

end Chase
