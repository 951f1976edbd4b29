import Chase.Core.Accounts
import Chase.Stack.Restart

/-!
# When `prepare_execution` returns

`prepare_execution` splits the batches into groups of the concurrency level and executes one group
after the other. `_execute` panics when `simulate_tx` unwraps a field that a transaction of the
group does not have, when `par_construct` has no sub-graph to return, which is when no transaction
of the group is simulated, and when the chain builder meets a cycle. With a concurrency level of
zero the first group is empty, and there is a panic on every list of batches but the empty one.
Otherwise the call returns with all digests when, in every state in which a group is executed, its
transactions can be read, some of them are simulated, and the sort gives the first wave no cycle
(`prepare_execution_total`).
-/

namespace Chase

open Reading Relation Interleave

/-! ## Groups with a schedule -/

/-- What `_execute` asks of the simulated transactions of a group: there are some, no two chunks of
the parallel construction have an updater of a common slot, and the steps of the sort meet the
conditions for a first wave without a cycle. -/
structure Schedulable (ncpu : Nat) (sims : List SimulatedTransaction) : Prop where
  nonempty : sims ≠ []
  apart : Graph.ChunksApart ncpu sims
  meets : FirstWaveMeets sims

/-- Schedulable simulations have a schedule. -/
theorem Schedulable.exists_schedule {ncpu : Nat} {sims : List SimulatedTransaction}
    (h : Schedulable ncpu sims) (hid : (sims.map (·.id)).Nodup) :
    ∃ schedule, parSchedule ncpu sims = some (.ok schedule) := by
  obtain ⟨s, hs⟩ := h.meets.exists_schedule hid
  refine ⟨s, ?_⟩
  rw [parSchedule, Graph.parConstruct_eq h.nonempty hid h.apart]
  exact congrArg some hs

/-! ## A group with a schedule is executed -/

section

variable {ι o σ : Type} {view : σ → ι → o} {apply : σ → List Apply → σ}
  {simulateTx : EthereumTransaction → Reader ι o Outcome}

/-- The epochs of aborted transactions are always executed. -/
theorem World.isolated_reExecutes (epochs : List (List AbortedTransaction)) (s : σ) :
    ∃ phases s', ReExecutes epochs phases ∧ (isolated view apply).Runs simulateTx s phases s' := by
  induction epochs generalizing s with
  | nil => exact ⟨[], s, .nil, isolated_runs_nil.2 rfl⟩
  | cons epoch epochs ih =>
    let outcomes := (epoch.map (·.rawTx)).map fun tx => (simulateTx tx.tx).run (view s)
    let lanes := (validTxs (reExecuted (epoch.map (·.rawTx)) outcomes)).map
      fun tx => tx.toFinalized.events
    obtain ⟨phases, s', hre, hruns⟩ := ih (lanes.flatten.foldl (applyEvent apply) s)
    exact ⟨_, s', .cons (.flatten lanes) hre,
      isolated_runs_simulate.2 ⟨rfl, isolated_runs_commit.2 hruns⟩⟩

/-- `_execute` returns exactly when there is a schedule. -/
theorem World.isolated_execute_iff {ncpu : Nat} {batches : List (List EthereumTransaction)}
    {s : σ} :
    (∃ s', (isolated view apply).Execute simulateTx ncpu batches s s') ↔
      ∃ schedule, parSchedule ncpu (simulated (unpackBatches batches)
        ((unpackBatches batches).map fun tx => (simulateTx tx.tx).run (view s))) =
          some (.ok schedule) := by
  constructor
  · rintro ⟨s', _, ⟨hschedule, -, -⟩, hruns⟩
    obtain ⟨rfl, -⟩ := isolated_runs_simulate.1 hruns
    exact ⟨_, hschedule⟩
  · rintro ⟨schedule, hschedule⟩
    obtain ⟨phases, s', hre, hruns⟩ : ∃ phases s', ReExecutes schedule.conflictZoneAborted phases ∧
        (isolated view apply).Runs simulateTx
          (schedule.eventPhases.flatten.flatten.foldl (applyEvent apply) s) phases s' :=
      isolated_reExecutes _ _
    exact ⟨s', _, .mk hschedule (.flatten _) hre,
      isolated_runs_simulate.2 ⟨rfl, isolated_runs_commit.2 hruns⟩⟩

end

namespace Stack

/-! ## The loop -/

/-- `prepare_execution` at the head of its loop. -/
structure Prepare (σ : Type) where
  state : σ
  target : List ExecutableEthereumBatch
  result : List H256 := []
  /-- The batches that have been executed, a history variable. -/
  executed : List ExecutableEthereumBatch := []

namespace Prepare

variable {ι o σ : Type} (view : σ → ι → o) (apply : σ → List Apply → σ)
  (simulateTx : EthereumTransaction → Reader ι o Outcome) (ncpu concurrencyLevel : Nat)

/-- The group that `split_off` leaves in `target`. -/
def group (p : Prepare σ) : List ExecutableEthereumBatch := p.target.take concurrencyLevel

/-- The simulated transactions of the next group. -/
def simulations (p : Prepare σ) : List SimulatedTransaction :=
  let txList := unpackBatches ((p.group concurrencyLevel).map (·.data))
  simulated txList (txList.map fun tx => (simulateTx tx.tx).run (view p.state))

/-- `simulate_tx` finds the fields that it reads in all transactions of the next group. -/
def Readable (p : Prepare σ) : Prop :=
  ∀ batch ∈ p.group concurrencyLevel, ∀ tx ∈ batch.data, tx.Readable

/-- One iteration, in which the group is executed. -/
inductive Step : Prepare σ → Prepare σ → Prop
  | mk {p : Prepare σ} {s' : σ} : p.target ≠ [] → p.Readable concurrencyLevel →
    (World.isolated view apply).Execute simulateTx ncpu
      ((p.group concurrencyLevel).map (·.data)) p.state s' →
    Step p
      { state := s'
        target := p.target.drop concurrencyLevel
        result := p.result ++ (p.group concurrencyLevel).map (·.digest)
        executed := p.executed ++ p.group concurrencyLevel }

/-- The execution of the next group panics: in `simulate_tx`, in `par_construct` or in the chain
builder. -/
def Panics (p : Prepare σ) : Prop :=
  p.target ≠ [] ∧ (¬p.Readable concurrencyLevel ∨
    ¬∃ schedule, parSchedule ncpu (p.simulations view simulateTx concurrencyLevel) =
      some (.ok schedule))

/-- The states of a call, at the head of the loop. -/
def Reachable (batches : List ExecutableEthereumBatch) (s : σ) (p : Prepare σ) : Prop :=
  ReflTransGen (Step view apply simulateTx ncpu concurrencyLevel)
    { state := s, target := batches } p

/-- The call is total: it does not run forever, it does not panic, and where it ends it returns the
digests of all batches, each of which was executed once. -/
structure Total (batches : List ExecutableEthereumBatch) (s : σ) : Prop where
  terminates : Acc (fun p' p => Step view apply simulateTx ncpu concurrencyLevel p p')
    { state := s, target := batches }
  noPanic : ∀ p, Reachable view apply simulateTx ncpu concurrencyLevel batches s p →
    ¬p.Panics view simulateTx ncpu concurrencyLevel
  returns : ∀ p, Reachable view apply simulateTx ncpu concurrencyLevel batches s p →
    (∀ p', ¬Step view apply simulateTx ncpu concurrencyLevel p p') →
      p.target = [] ∧ p.result = batches.map (·.digest) ∧ p.executed = batches

variable {view apply simulateTx ncpu concurrencyLevel} {batches : List ExecutableEthereumBatch}
  {s : σ} {p p' : Prepare σ}

/-- A group is executed unless there is a panic. -/
theorem exists_step_iff (htarget : p.target ≠ []) :
    (∃ p', Step view apply simulateTx ncpu concurrencyLevel p p') ↔
      ¬p.Panics view simulateTx ncpu concurrencyLevel := by
  have hpanics : ¬p.Panics view simulateTx ncpu concurrencyLevel ↔ p.Readable concurrencyLevel ∧
      ∃ schedule, parSchedule ncpu (p.simulations view simulateTx concurrencyLevel) =
        some (.ok schedule) := by
    rw [Panics, and_iff_right htarget, not_or, not_not, not_not]
  rw [hpanics, simulations, ← World.isolated_execute_iff]
  constructor
  · rintro ⟨p', hstep⟩
    cases hstep with
    | mk _ hreadable hexecute => exact ⟨hreadable, _, hexecute⟩
  · rintro ⟨hreadable, s', hexecute⟩
    exact ⟨_, .mk htarget hreadable hexecute⟩

/-- The executed batches and those to come are all batches, and the result has the digests. -/
theorem Reachable.split
    (h : Reachable view apply simulateTx ncpu concurrencyLevel batches s p) :
    p.executed ++ p.target = batches ∧ p.result = p.executed.map (·.digest) := by
  induction h with
  | refl => exact ⟨rfl, rfl⟩
  | tail _ hstep ih =>
    obtain ⟨hsplit, hresult⟩ := ih
    cases hstep with
    | mk _ _ _ =>
      constructor
      · rw [List.append_assoc, group, List.take_append_drop, hsplit]
      · rw [List.map_append, hresult]

theorem simulations_nodup :
    ((p.simulations view simulateTx concurrencyLevel).map (·.id)).Nodup :=
  simulated_ids_nodup (unpackBatches_nodup _)

/-- When no group is empty, every group leaves fewer batches. -/
theorem Reachable.acc
    (hlevel : ∀ p, Reachable view apply simulateTx ncpu concurrencyLevel batches s p →
      p.target ≠ [] → 0 < concurrencyLevel)
    (hp : Reachable view apply simulateTx ncpu concurrencyLevel batches s p) :
    Acc (fun p' p => Step view apply simulateTx ncpu concurrencyLevel p p') p := by
  induction hn : p.target.length using Nat.strong_induction_on generalizing p with
  | _ n ih =>
    refine ⟨_, fun p' hstep => ?_⟩
    have hp' := hp.tail hstep
    cases hstep with
    | mk htarget _ _ =>
      refine ih _ ?_ hp' rfl
      rw [List.length_drop, ← hn]
      exact Nat.sub_lt (List.length_pos_iff.2 htarget) (hlevel p hp htarget)

/-- **`prepare_execution` is total** when, in every state in which a group is executed, the
concurrency level is not zero, the transactions of the group can be read, some of them are
simulated, and the sort of these meets the conditions for a first wave without a cycle. The level,
the readable transactions and the simulated one are also needed. -/
theorem prepare_execution_total (view : σ → ι → o) (apply : σ → List Apply → σ)
    (simulateTx : EthereumTransaction → Reader ι o Outcome) (ncpu concurrencyLevel : Nat)
    (batches : List ExecutableEthereumBatch) (s : σ) :
    ((∀ p, Reachable view apply simulateTx ncpu concurrencyLevel batches s p → p.target ≠ [] →
        0 < concurrencyLevel ∧ p.Readable concurrencyLevel ∧
          Schedulable ncpu (p.simulations view simulateTx concurrencyLevel)) →
      Total view apply simulateTx ncpu concurrencyLevel batches s) ∧
    (Total view apply simulateTx ncpu concurrencyLevel batches s →
      ∀ p, Reachable view apply simulateTx ncpu concurrencyLevel batches s p → p.target ≠ [] →
        0 < concurrencyLevel ∧ p.Readable concurrencyLevel ∧
          p.simulations view simulateTx concurrencyLevel ≠ []) := by
  constructor
  · intro h
    have hsafe : ∀ p, Reachable view apply simulateTx ncpu concurrencyLevel batches s p →
        ¬p.Panics view simulateTx ncpu concurrencyLevel := by
      rintro p hp ⟨htarget, hpanics⟩
      obtain ⟨-, hreadable, hschedulable⟩ := h p hp htarget
      rcases hpanics with hnot | hnot
      · exact hnot hreadable
      · exact hnot (hschedulable.exists_schedule simulations_nodup)
    have hlevel : ∀ p, Reachable view apply simulateTx ncpu concurrencyLevel batches s p →
        p.target ≠ [] → 0 < concurrencyLevel := fun p hp htarget => (h p hp htarget).1
    refine ⟨Reachable.acc hlevel .refl, hsafe, fun p hp hend => ?_⟩
    have htarget : p.target = [] := by
      by_contra hne
      obtain ⟨p', hstep⟩ := (exists_step_iff hne).2 (hsafe p hp)
      exact hend p' hstep
    obtain ⟨hsplit, hresult⟩ := hp.split
    rw [htarget, List.append_nil] at hsplit
    rw [hsplit] at hresult
    exact ⟨htarget, hresult, hsplit⟩
  · intro h p hp htarget
    have hnot : ¬(¬p.Readable concurrencyLevel ∨ ¬∃ schedule,
        parSchedule ncpu (p.simulations view simulateTx concurrencyLevel) = some (.ok schedule)) :=
      fun hpanics => h.noPanic p hp ⟨htarget, hpanics⟩
    rw [not_or, not_not, not_not] at hnot
    obtain ⟨hreadable, schedule, hschedule⟩ := hnot
    have hne : p.simulations view simulateTx concurrencyLevel ≠ [] := by
      intro hnil
      rw [hnil] at hschedule
      cases hschedule
    refine ⟨Nat.pos_of_ne_zero ?_, hreadable, hne⟩
    rintro rfl
    exact hne rfl

end Prepare

/-! ## The calls that return -/

section

variable {memoryApply : State → List Apply → State}
  {simulateTx : EthereumTransaction → State → Outcome} {ncpu concurrencyLevel : Nat}

/-- The loop over the memory backend. -/
abbrev Prepare.MemoryStep (memoryApply : State → List Apply → State)
    (simulateTx : EthereumTransaction → State → Outcome) (ncpu concurrencyLevel : Nat) :
    Prepare (State × List (List Apply)) → Prepare (State × List (List Apply)) → Prop :=
  Prepare.Step (fun s (_ : Unit) => s.1) (fun s values => (memoryApply s.1 values, s.2 ++ [values]))
    (fun tx => .read () fun s => .ret (simulateTx tx s)) ncpu concurrencyLevel

/-- An execution of the direct model is a run of the loop. -/
theorem PrepareExecution.exists_run {target : List (List EthereumTransaction)}
    {s s' : State × List (List Apply)}
    (h : PrepareExecution memoryApply simulateTx ncpu concurrencyLevel target s s')
    {p : Prepare (State × List (List Apply))} (htarget : p.target.map (·.data) = target)
    (hstate : p.state = s) (hreadable : ∀ batch ∈ p.target, ∀ tx ∈ batch.data, tx.Readable) :
    ∃ p', ReflTransGen (Prepare.MemoryStep memoryApply simulateTx ncpu concurrencyLevel) p p' ∧
      p'.target = [] ∧ p'.state = s' := by
  induction h generalizing p with
  | done s => exact ⟨p, .refl, List.map_eq_nil_iff.1 htarget, hstate⟩
  | group hne hexecute _ ih =>
    subst htarget hstate
    rw [← List.map_take] at hexecute
    obtain ⟨p', hrun, hend⟩ := ih (p := ⟨_, p.target.drop concurrencyLevel, _, _⟩)
      List.map_drop rfl fun batch hbatch => hreadable batch (List.mem_of_mem_drop hbatch)
    exact ⟨p', .head (.mk (fun hnil => hne (by rw [hnil]; rfl))
      (fun batch hbatch => hreadable batch (List.mem_of_mem_take hbatch)) hexecute) hrun, hend⟩

/-- A run of the loop that ends is an execution of the direct model. -/
theorem PrepareExecution.of_run {p p' : Prepare (State × List (List Apply))}
    (h : ReflTransGen (Prepare.MemoryStep memoryApply simulateTx ncpu concurrencyLevel) p p')
    (htarget : p'.target = []) :
    PrepareExecution memoryApply simulateTx ncpu concurrencyLevel (p.target.map (·.data)) p.state
      p'.state := by
  induction h using ReflTransGen.head_induction_on with
  | refl =>
    rw [htarget]
    exact .done _
  | head hstep _ ih =>
    cases hstep with
    | mk hne _ hexecute =>
      refine .group (fun hnil => hne (List.map_eq_nil_iff.1 hnil)) ?_ (List.map_drop ▸ ih)
      rw [← List.map_take]
      exact hexecute

/-- On transactions that can be read, the calls that return are those of `PrepareExecution`. -/
theorem prepareExecution_iff {batches : List ExecutableEthereumBatch}
    (hreadable : ∀ batch ∈ batches, ∀ tx ∈ batch.data, tx.Readable)
    {s s' : State × List (List Apply)} :
    PrepareExecution memoryApply simulateTx ncpu concurrencyLevel (batches.map (·.data)) s s' ↔
      ∃ p, ReflTransGen (Prepare.MemoryStep memoryApply simulateTx ncpu concurrencyLevel)
        { state := s, target := batches } p ∧ p.target = [] ∧ p.state = s' := by
  refine ⟨fun h => h.exists_run rfl rfl hreadable, ?_⟩
  rintro ⟨p, hrun, htarget, rfl⟩
  exact .of_run hrun htarget

end

namespace PrepareFixture

/-- A transaction; it is simulated when it has gas. -/
def transaction (gasLimit : UInt64) : EthereumTransaction := .ofCall 1 2 0 [] gasLimit 0

/-- A call that is parsed from JSON without data. -/
def withoutData : EthereumTransaction := ⟨{ (transaction 21000).inner with data := none }⟩

/-- The interpreter of the fixture, which writes one slot. -/
def simulateTx (tx : EthereumTransaction) : Reader Unit Unit Outcome :=
  .ret (if tx.gasLimit = 0 then .ok none else .ok (some ⟨[], [], ⟨[], [(2, [(5, 1)])]⟩⟩))

/-- A call on some batches, on two cores. -/
def Returns (concurrencyLevel : Nat) (batches : List ExecutableEthereumBatch) : Prop :=
  Prepare.Total (fun _ _ => ()) (fun s _ => s) simulateTx 2 concurrencyLevel batches ()

/-- Two groups, the first with a transaction that is not simulated, the second with two writers of a
slot. -/
def twoGroups : List ExecutableEthereumBatch :=
  [⟨[transaction 21000, transaction 0], 1⟩, ⟨[transaction 21000, transaction 21000], 2⟩]

/-- Two groups of batches are executed. -/
theorem prepare_execution_total_twoGroups : Returns 1 twoGroups := by
  refine (Prepare.prepare_execution_total _ _ simulateTx 2 1 twoGroups ()).1 fun p hp htarget => ?_
  have hall : ∀ batch ∈ twoGroups, ∀ tx ∈ batch.data, tx.Readable := by
    simp [twoGroups, transaction, EthereumTransaction.readable_ofCall]
  have hschedulable : ∀ n < 2, Schedulable 2 (Prepare.simulations (fun _ _ => ()) simulateTx 1
      { state := (), target := twoGroups.drop n }) := by
    intro n hn
    match n, hn with
    | 0, _ | 1, _ => exact ⟨by decide, by decide, ⟨by decide, by decide⟩⟩
  obtain ⟨hsplit, -⟩ := hp.split
  have hsuffix : p.target = twoGroups.drop p.executed.length := by
    rw [← hsplit, List.drop_left]
  refine ⟨Nat.one_pos, fun batch hbatch => hall batch ?_, ?_⟩
  · have hmem : batch ∈ p.target := List.mem_of_mem_take hbatch
    rw [hsuffix] at hmem
    exact List.mem_of_mem_drop hmem
  · have hlength : p.executed.length < 2 := by
      by_contra hge
      exact htarget (hsuffix.trans (List.drop_eq_nil_of_le (Nat.not_lt.1 hge)))
    have h := hschedulable _ hlength
    rw [← hsuffix] at h
    exact h

/-- There is a panic with a concurrency level of zero, on a batch without transactions, on one whose
transactions are not simulated, and on one with a call without data beside a transaction that is
simulated. -/
theorem prepare_execution_panics : ¬Returns 0 [⟨[transaction 21000], 1⟩] ∧ ¬Returns 4 [⟨[], 1⟩] ∧
    ¬Returns 4 [⟨[transaction 0], 1⟩] ∧ ¬Returns 4 [⟨[transaction 21000, withoutData], 1⟩] := by
  have hpanics : ∀ {concurrencyLevel : Nat} {data : List EthereumTransaction},
      Prepare.simulations (fun _ _ => ()) simulateTx concurrencyLevel
        { state := (), target := [⟨data, 1⟩] } = [] → ¬Returns concurrencyLevel [⟨data, 1⟩] := by
    intro concurrencyLevel data hnil h
    refine h.noPanic _ .refl ⟨List.cons_ne_nil _ _, .inr ?_⟩
    rw [hnil]
    rintro ⟨schedule, hschedule⟩
    cases hschedule
  refine ⟨hpanics (by decide), hpanics (by decide), hpanics (by decide), fun h => ?_⟩
  refine h.noPanic _ .refl ⟨List.cons_ne_nil _ _, .inl fun hreadable => ?_⟩
  have hdata := (hreadable _ (List.mem_singleton.2 rfl) withoutData (.tail _ (.head _))).data rfl
  exact absurd hdata (by decide)

end PrepareFixture

end Stack

end Chase
