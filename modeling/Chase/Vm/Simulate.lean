import Chase.Evm.WriteCover
import Chase.Vm.Operations

/-!
# Simulations of transactions over byte code

`simulateTx` is `simulate_tx` with the executor over byte code. A run of the executor is a list of
operations of the handler (`executes_performs`), so `simulateTx` is `Chase.simulateTx` for some
interpreter (`simulateTx_refines`), and what holds for every interpreter holds for byte code.
-/

namespace Chase.Vm

open EarlyExit

/-- `process_transact_call_result` and `process_transact_create_result`: whether the run has failed,
or the message of a fatal error. -/
def processTransactResult : ExitReason → Except String Bool
  | .succeed _ => .ok false
  | .revert _ => .ok true
  | .error _ => .ok true
  | .fatal _ => .error fatalMessage

/-- What `simulate_tx` returns for the outcome of a run. -/
def Outcome.simulated (backend : State) (o : Outcome) : Except String (Option Simulated) :=
  match processTransactResult o.reason with
  | .error message => .error message
  | .ok true => .ok none
  | .ok false =>
    .ok (some ⟨o.exec.inner.state.deconstruct backend, o.exec.inner.state.substate.logs,
      o.exec.inner.rwSet⟩)

/-- `simulate_tx` on a transaction that has the fields it reads, in so many rounds. -/
def simulateReadable (env : Environment) (rounds : Nat) (tx : EthereumTransaction) (s : State) :
    Option (Except String (Option Simulated)) :=
  let env := { env with backend := s }
  let gasLimit := tx.gasLimit.toNat
  match tx.toAddr with
  | some toAddr =>
    match tx.data with
    | some data =>
      (Exec.transactCall env rounds (.initial env gasLimit) tx.caller toAddr tx.value data gasLimit
        tx.accessList).map (Outcome.simulated s)
    | none => none
  | none =>
    match tx.data with
    | some data =>
      (Exec.transactCreate env rounds (.initial env gasLimit) tx.caller tx.value data gasLimit
        tx.accessList).map (Outcome.simulated s)
    | none => some (simulateNewAccount tx)

/-- `simulate_tx`, in so many rounds. There is no result when the rounds are not enough, and when a
field that is read is missing, on which the source panics. -/
def simulateTx (env : Environment) (rounds : Nat) (tx : EthereumTransaction) (s : State) :
    Option (Except String (Option Simulated)) :=
  if tx.Readable then simulateReadable env rounds tx s else none

section Cases

variable {env : Environment} {rounds : Nat} {tx : EthereumTransaction} {s : State}

theorem readable_of_simulateTx {r : Except String (Option Simulated)}
    (h : simulateTx env rounds tx s = some r) : tx.Readable := by
  by_contra hnot
  rw [simulateTx, if_neg hnot] at h
  cases h

/-- The simulation of a call is that of `transact_call`. -/
theorem simulateTx_call (h : tx.Readable) {toAddr : H160} {data : Bytes}
    (hto : tx.toAddr = some toAddr) (hdata : tx.data = some data) : simulateTx env rounds tx s =
      (Exec.transactCall { env with backend := s } rounds
        (.initial { env with backend := s } tx.gasLimit.toNat) tx.caller toAddr tx.value data
        tx.gasLimit.toNat tx.accessList).map (Outcome.simulated s) := by
  rw [simulateTx, if_pos h]
  unfold simulateReadable
  rw [hto, hdata]

/-- The simulation of a creation is that of `transact_create`. -/
theorem simulateTx_create (h : tx.Readable) {data : Bytes} (hto : tx.toAddr = none)
    (hdata : tx.data = some data) : simulateTx env rounds tx s =
      (Exec.transactCreate { env with backend := s } rounds
        (.initial { env with backend := s } tx.gasLimit.toNat) tx.caller tx.value data
        tx.gasLimit.toNat tx.accessList).map (Outcome.simulated s) := by
  rw [simulateTx, if_pos h]
  unfold simulateReadable
  rw [hto, hdata]

/-- The simulation of a transaction without address and data. -/
theorem simulateTx_newAccount (h : tx.Readable) (hto : tx.toAddr = none) (hdata : tx.data = none) :
    simulateTx env rounds tx s = some (simulateNewAccount tx) := by
  rw [simulateTx, if_pos h]
  unfold simulateReadable
  rw [hto, hdata]

/-- The three branches of `simulate_tx`. -/
theorem readable_cases (h : tx.Readable) {P : Prop}
    (hcall : ∀ toAddr data, tx.toAddr = some toAddr → tx.data = some data → P)
    (hcreate : ∀ data, tx.toAddr = none → tx.data = some data → P)
    (hnew : tx.toAddr = none → tx.data = none → P) : P := by
  cases hto : tx.toAddr with
  | some toAddr =>
    obtain ⟨data, hdata⟩ := Option.isSome_iff_exists.1 (h.data (by rw [hto]; rfl))
    exact hcall toAddr data hto hdata
  | none =>
    cases hdata : tx.data with
    | some data => exact hcreate data hto hdata
    | none => exact hnew hto hdata

end Cases

/-! ## Runs -/

/-- Every slot that is written is read. -/
def Guarded (ops : List HandlerOp) : Prop :=
  ∀ slot value, .setStorage slot value ∈ ops → .storage slot ∈ ops

/-- Guarded runs, one after another, are guarded. -/
theorem guarded_append {ops ops' : List HandlerOp} (h : Guarded ops) (h' : Guarded ops') :
    Guarded (ops ++ ops') := by
  intro slot value hmem
  rw [List.mem_append] at hmem ⊢
  exact hmem.imp (h slot value) (h' slot value)

/-- The operations that answer a question write a slot only for a `store`. -/
theorem Request.Answers.store {q : Request} {ops : List HandlerOp} (h : q.Answers ops) {slot : Slot}
    {value : H256} (hmem : .setStorage slot value ∈ ops) : q = .store slot value := by
  cases q with
  | none | load | log | delete =>
    cases h
    simp at hmem
  | store slot' value' =>
    cases h
    simp only [List.mem_singleton] at hmem
    cases hmem
    rfl
  | create =>
    rcases h with rfl | ⟨address, rfl⟩
    · cases hmem
    · simp at hmem
  | call =>
    rcases h with rfl | rfl | ⟨kind, rfl⟩
    · cases hmem
    · simp at hmem
    · simp at hmem

/-- A slot is read before it is written. -/
theorem guarded_of_answers {q : Request} {reads ops : List HandlerOp} (h : q.Answers ops)
    (hreads : ∀ op ∈ reads, op.Reads)
    (hstore : ∀ slot value, q = .store slot value → .storage slot ∈ reads) :
    Guarded (reads ++ ops) := by
  intro slot value hmem
  rw [List.mem_append] at hmem ⊢
  rcases hmem with hmem | hmem
  · exact (hreads _ hmem).elim
  · exact .inl (hstore slot value (h.store hmem))

/-- The end of a call writes no slot. -/
theorem Exec.Ends.guarded {kind : RuntimeKind} {result : ExitReason × Option H160 × Bytes}
    {op : HandlerOp} (h : Exec.Ends kind result op) : Guarded [op] := by
  intro slot value hmem
  rw [List.mem_singleton] at hmem
  subst hmem
  exact h.elim

namespace Execution

variable {env : Environment} {v v' : Execution} {o : Outcome}

/-- The kind of the first runtime of a transaction. -/
def rootKind (v : Execution) : Option RuntimeKind := (v.callStack.map (·.kind)).getLast?

/-- A step of the current runtime. -/
theorem top_performs (hreg : env.Regular) (hv : v.Sound env) {t : TaggedRuntime}
    {ts : List TaggedRuntime} (hstack : v.callStack = t :: ts)
    {res : Except (Capture ExitReason TaggedRuntime) Unit} {r : Runtime} {e : Exec}
    (hstep : t.inner.step env.keccak256 (Exec.handler env) v.exec = (res, r, e)) :
    ∃ ops, Exec.Performs env v.exec ops e ∧ Guarded ops := by
  obtain ⟨q, reads, ops, hanswers, hperforms, hreads, hstore, -⟩ := Exec.stepped_performs hreg hv.wf
    (Runtime.step_cases (hv.top hstack).status hstep)
  exact ⟨reads ++ ops, hperforms, guarded_of_answers hanswers hreads hstore⟩

/-- The end of the current runtime, in its substate. -/
theorem end_performs (hreg : env.Regular) (hv : v.Sound env) {t : TaggedRuntime}
    {ts : List TaggedRuntime} (hstack : v.callStack = t :: ts) {reason : ExitReason} {r : Runtime}
    {e : Exec}
    (hstep : t.inner.step env.keccak256 (Exec.handler env) v.exec = (.error (.exit reason), r, e)) :
    ∃ op, Exec.Ends t.kind (e.cleanup env t.kind reason r.machine.returnValue).1 op ∧
      Exec.Performs env e [op] (e.cleanup env t.kind reason r.machine.returnValue).2 ∧
      (e.cleanup env t.kind reason r.machine.returnValue).2.Wf ∧
      (e.cleanup env t.kind reason r.machine.returnValue).2.parents.length = ts.length := by
  obtain ⟨hmoves, hparents⟩ := hv.returned hreg hstack hstep
  have hne := List.ne_nil_of_length_eq_add_one hparents
  have hkind := (hv.top hstack).kind
  obtain ⟨op, hends, hperforms⟩ := Exec.cleanup_performs hreg hmoves.wf hne hkind reason
    r.machine.returnValue
  obtain ⟨hwf, hlength, -⟩ := Exec.cleanup_moves hreg hmoves.wf hne hkind reason
    r.machine.returnValue
  exact ⟨op, hends, hperforms, hwf, by omega⟩

/-- A round is a list of operations, and the first runtime stays below. -/
theorem Round.performs (h : Round env v v') (hreg : env.Regular) (hv : v.Sound env) :
    ∃ ops, Exec.Performs env v.exec ops v'.exec ∧ Guarded ops ∧ v'.rootKind = v.rootKind := by
  cases h with
  | @go t ts r e hstack hstep =>
    obtain ⟨ops, hperforms, hguarded⟩ := top_performs hreg hv hstack hstep
    refine ⟨ops, hperforms, hguarded, ?_⟩
    rw [rootKind, rootKind, hstack]
    rfl
  | @push t t' ts r e hstack hstep =>
    obtain ⟨ops, hperforms, hguarded⟩ := top_performs hreg hv hstack hstep
    refine ⟨ops, hperforms, hguarded, ?_⟩
    rw [rootKind, rootKind, hstack]
    simp only [List.map_cons, List.getLast?_cons_cons]
  | @back t c ts r r' e reason hstack hstep hfinish =>
    obtain ⟨ops, hperforms, hguarded⟩ := top_performs hreg hv hstack hstep
    obtain ⟨op, hends, hleaves, -⟩ := end_performs hreg hv hstack hstep
    refine ⟨ops ++ [op], hperforms.append hleaves, guarded_append hguarded hends.guarded, ?_⟩
    rw [rootKind, rootKind, hstack]
    simp only [List.map_cons, List.getLast?_cons_cons]

/-- The program does not exit with this success. -/
def Unsuccessful {σ α : Type} (s : ExitSucceed) (x : EarlyExit ExitReason σ α) : Prop :=
  Triple (fun _ => True) x (fun _ _ => True) fun reason _ => reason ≠ .succeed s

/-- A result does not make a caller succeed. -/
theorem finishRuntime_ne_succeed {kind : RuntimeKind} {result : ExitReason × Option H160 × Bytes}
    {e : Exec} {c : TaggedRuntime} {ts : List TaggedRuntime}
    (h : finishRuntime kind result e (c :: ts) = .inr o) (s : ExitSucceed) :
    o.reason ≠ .succeed s := by
  have hpush : ∀ v, Unsuccessful s (Runtime.onMachine (Eval.push v)) := by
    intro v
    have hmachine : Unsuccessful s (Eval.push v) := by
      refine triple_zoom fun m _ => ?_
      cases m.stack.push v with
      | mk x stack =>
        cases x with
        | ok => trivial
        | error e => exact ExitReason.noConfusion
    exact triple_zoom fun r _ => hmachine r.machine trivial
  have hany : ∀ {α : Type} (f : Runtime → Runtime) (g : Unit → EarlyExit ExitReason Runtime α),
      (∀ u, Unsuccessful s (g u)) → Unsuccessful s (update f >>= g) :=
    fun f g hg => triple_bind (triple_update fun _ _ => trivial) hg
  have hcopy : ∀ offset len data, Unsuccessful s (Runtime.tryCopyLarge offset len data) := by
    intro offset len data r _
    rw [Runtime.tryCopyLarge]
    split <;> trivial
  have hcreate : Unsuccessful s (Runtime.finishCreate result.1 result.2.1 result.2.2) := by
    refine hany _ _ fun _ => ?_
    cases result.1 with
    | succeed | revert | error => exact hpush _
    | fatal f => exact triple_bind (hpush _) fun _ => triple_exit fun _ _ => ExitReason.noConfusion
  have hcall : ∀ outLen outOffset,
      Unsuccessful s (Runtime.finishCall outLen outOffset result.1 result.2.2) := by
    intro outLen outOffset
    refine hany _ _ fun _ => ?_
    cases result.1 with
    | succeed => exact triple_bind (hcopy _ _ _) fun _ => hpush _
    | revert => exact triple_bind (hpush _) fun _ => triple_bind (hcopy _ _ _) fun _ =>
        triple_pure fun _ _ => trivial
    | error => exact hpush _
    | fatal f => exact triple_bind (hpush _) fun _ => triple_exit fun _ _ => ExitReason.noConfusion
  dsimp only [finishRuntime] at h
  split at h
  · cases h
  · rename_i reason r hfinish
    cases h
    cases kind with
    | create a =>
      have hpost := hcreate c.inner trivial
      dsimp only at hfinish
      rwa [hfinish] at hpost
    | call _ | execute =>
      have hpost := hcall c.inner.returnDataLen c.inner.returnDataOffset c.inner trivial
      dsimp only at hfinish
      rwa [hfinish] at hpost

/-- From `v` to its outcome: operations, and the end of the first runtime. -/
def Succeeds (env : Environment) (v : Execution) (o : Outcome) : Prop :=
  ∃ ops last, Exec.Performs env v.exec (ops ++ [last]) o.exec ∧ Guarded (ops ++ [last]) ∧
    o.exec.inner.state.parents = [] ∧
    ((∃ a, v.rootKind = some (.call a) ∧ last = .exit .succeeded) ∨
      ∃ a code, v.rootKind = some (.create a) ∧ last = .deploy a code)

/-- The last round of a run that succeeds. -/
theorem step_succeeded (hreg : env.Regular) (hv : v.Sound env) (hstep : v.step env = .inr o)
    {s : ExitSucceed} (hreason : o.reason = .succeed s) : Succeeds env v o := by
  rw [step] at hstep
  split at hstep
  · cases hstep
    cases hreason
  · rename_i t ts hstack
    split at hstep
    · cases hstep
    · cases hstep
    · rename_i reason r e htop
      cases ts with
      | cons c ts => exact absurd hreason (finishRuntime_ne_succeed hstep s)
      | nil =>
        obtain ⟨ops, hperforms, hguarded⟩ := top_performs hreg hv hstack htop
        obtain ⟨op, hends, hleaves, hwf, hlength⟩ := end_performs hreg hv hstack htop
        cases hstep
        refine ⟨ops, op, hperforms.append hleaves, guarded_append hguarded hends.guarded, ?_, ?_⟩
        · have haligned := hwf.aligned
          rw [hlength] at haligned
          exact List.length_eq_zero_iff.1 haligned
        · rw [rootKind, hstack]
          cases op with
          | exit k =>
            obtain ⟨rfl, a, ha⟩ := hends s hreason
            exact .inl ⟨a, by rw [List.map_singleton, ha]; rfl, rfl⟩
          | deploy a code =>
            exact .inr ⟨a, code, by rw [List.map_singleton, show t.kind = _ from hends]; rfl, rfl⟩
          | _ => exact hends.elim

/-- A run of the executor: rounds, and the one that ends it. -/
theorem executes_performs (hreg : env.Regular) {rounds : Nat} (hv : v.Sound env)
    (h : executeWithCallStack env rounds v = some o) :
    ∃ (v' : Execution) (ops : List HandlerOp), v'.Sound env ∧ Exec.Performs env v.exec ops v'.exec ∧
      Guarded ops ∧ v'.rootKind = v.rootKind ∧ v'.step env = .inr o := by
  induction rounds generalizing v with
  | zero => cases h
  | succ rounds ih =>
    rw [executeWithCallStack] at h
    cases hstep : v.step env with
    | inr o' =>
      rw [hstep] at h
      cases h
      exact ⟨v, [], hv, Exec.performs_nil rfl, fun _ _ hmem => (by cases hmem), rfl, hstep⟩
    | inl v₁ =>
      rw [hstep] at h
      have hround := round_of_step hstep
      obtain ⟨ops, hperforms, hguarded, hroot⟩ := hround.performs hreg hv
      obtain ⟨v', ops', hv', hperforms', hguarded', hroot', hend⟩ := ih (hround.sound hreg hv).1 h
      exact ⟨v', ops ++ ops', hv', hperforms.append hperforms', guarded_append hguarded hguarded',
        hroot'.trans hroot, hend⟩

/-- A run that succeeds is a list of operations that ends with the one of its first runtime. -/
theorem executes_succeeded (hreg : env.Regular) {rounds : Nat} (hv : v.Sound env)
    (h : executeWithCallStack env rounds v = some o) {s : ExitSucceed}
    (hreason : o.reason = .succeed s) : Succeeds env v o := by
  obtain ⟨v', ops, hv', hperforms, hguarded, hroot, hstep⟩ := executes_performs hreg hv h
  obtain ⟨ops', last, hperforms', hguarded', hparents, hlast⟩ :=
    step_succeeded hreg hv' hstep hreason
  rw [hroot] at hlast
  refine ⟨ops ++ ops', last, ?_, ?_, hparents, hlast⟩
  · rw [List.append_assoc]
    exact hperforms.append hperforms'
  · rw [List.append_assoc]
    exact guarded_append hguarded hguarded'

end Execution

/-! ## The interpreter of byte code -/

/-- The abstract run of a transaction that has an outcome. -/
theorem interpret_outcome (createIncreaseNonce : Bool) (tx : EthereumTransaction) (backend : State)
    (e : StackExecutor) (last : HandlerOp) (o : Outcome)
    (h : ∀ s, o.reason = .succeed s → ∃ ops,
      e.run createIncreaseNonce backend (ops ++ [last]) = some o.exec.inner ∧
        o.exec.inner.state.parents = []) :
    ∃ i, interpret createIncreaseNonce (fun _ _ => i) tx backend e last = o.simulated backend := by
  cases hreason : o.reason with
  | succeed s =>
    obtain ⟨ops, hrun, hparents⟩ := h s hreason
    refine ⟨.ok (some ops), ?_⟩
    rw [interpret, Outcome.simulated, hreason]
    dsimp only [processTransactResult]
    rw [hrun, Option.bind_some, StackExecutor.simulated, if_pos hparents]
  | revert r => exact ⟨.ok none, by rw [interpret, Outcome.simulated, hreason]; rfl⟩
  | error er => exact ⟨.ok none, by rw [interpret, Outcome.simulated, hreason]; rfl⟩
  | fatal f => exact ⟨.error "", by rw [interpret, Outcome.simulated, hreason]; rfl⟩

/-- A call without operations has no effects. -/
theorem simulateCall_none (createIncreaseNonce : Bool) (tx : EthereumTransaction) (toAddr : H160)
    (s : State) :
    simulateCall createIncreaseNonce (fun _ _ => .ok none) tx toAddr s = .ok none := by
  rw [simulateCall]
  split
  · rfl
  · split <;> rfl

/-- A creation without operations has no effects. -/
theorem simulateCreate_none (createIncreaseNonce : Bool)
    (newContract : EthereumTransaction → State → H160 × Bytes) (tx : EthereumTransaction)
    (s : State) :
    simulateCreate createIncreaseNonce (fun _ _ => .ok none) newContract tx s = .ok none := by
  rw [simulateCreate]
  dsimp only
  split <;> rfl

section Refines

variable {env : Environment} {gasLimit rounds : Nat} {o : Outcome} {tx : EthereumTransaction}

/-- The outcome of a call is the one of the operations that it makes. -/
theorem transactCall_simulates (hreg : env.Regular) (hlimit : gasLimit < gasBound) {toAddr : H160}
    {data : Bytes} (h : Exec.transactCall env rounds (.initial env gasLimit) tx.caller toAddr
      tx.value data gasLimit tx.accessList = some o) :
    ∃ i, simulateCall env.config.createIncreaseNonce (fun _ _ => i) tx toAddr env.backend =
      o.simulated env.backend := by
  obtain ⟨hwf, -⟩ := Exec.initial_wf env hlimit
  have hbegun := Exec.startCall_begun hreg hwf rfl tx.caller toAddr tx.value data gasLimit
    tx.accessList
  rw [Exec.transactCall] at h
  rcases Exec.startCall_cases env hwf tx.caller toAddr tx.value data gasLimit tx.accessList with
    ⟨er, e', heq, -⟩ | ⟨state, e', hn, hmoves, hinner, heq⟩
  · rw [heq] at h
    cases h
    exact ⟨.ok none, simulateCall_none ..⟩
  · rw [heq] at h hbegun
    have hcalled := Exec.callInner_called hreg hmoves.wf toAddr
      (some ⟨tx.caller, toAddr, tx.value⟩) data (some gasLimit) false false false
      ⟨toAddr, tx.caller, tx.value⟩ fun i _ => by
        rw [Exec.bonusOf_false]
        exact Nat.zero_le _
    have hroot : ∀ {x}, e'.inner.callInner env.backend toAddr
        (some ⟨tx.caller, toAddr, tx.value⟩) = (true, x) → ∀ i,
        simulateCall env.config.createIncreaseNonce (fun _ _ => i) tx toAddr env.backend =
          interpret env.config.createIncreaseNonce (fun _ _ => i) tx env.backend x
            (.exit .succeeded) := by
      intro x hcall i
      have hn : ({} : MemoryStackState).incNonce env.backend tx.caller = (true, state) := hn
      rw [simulateCall, hn]
      dsimp only
      rw [hinner] at hcall
      rw [show StackExecutor.callInner env.backend { state } toAddr
        (some ⟨tx.caller, toAddr, tx.value⟩) = _ from hcall]
    cases hc : e'.callInner env toAddr (some ⟨tx.caller, toAddr, tx.value⟩) data (some gasLimit)
        false false false ⟨toAddr, tx.caller, tx.value⟩ with
    | mk c e₁ =>
      rw [hc] at h hcalled hbegun
      dsimp only at hcalled
      cases hcalled with
      | refused hsame =>
        cases h
        exact ⟨.ok none, simulateCall_none ..⟩
      | @entered t _ hkind hcall =>
        obtain ⟨i, hi⟩ := interpret_outcome env.config.createIncreaseNonce tx env.backend
          e₁.inner (.exit .succeeded) o fun s hreason => by
            obtain ⟨ops, last, hperforms, -, hparents, hlast⟩ :=
              Execution.executes_succeeded hreg hbegun.1 h hreason
            obtain ⟨a, hkind⟩ := hkind
            rcases hlast with ⟨a', -, rfl⟩ | ⟨a', code, hroot, -⟩
            · exact ⟨ops, hperforms, hparents⟩
            · have hroot : some t.kind = _ := hroot
              rw [hkind] at hroot
              cases hroot
        exact ⟨i, (hroot hcall i).trans hi⟩
      | @precompiled result _ x kind hcall hexit hkind =>
        cases h
        obtain ⟨i, hi⟩ := interpret_outcome env.config.createIncreaseNonce tx env.backend
          x (.exit .succeeded) ⟨result.1, result.2, e₁⟩ fun s hreason => by
            refine ⟨[], ?_, ?_⟩
            · rw [hkind s hreason] at hexit
              rw [List.nil_append, StackExecutor.run, StackExecutor.step, hexit]
              rfl
            · have hm : Exec.Moves 0 0 (.initial env gasLimit) e₁ := hbegun
              have haligned := hm.wf.aligned
              rw [hm.parents] at haligned
              exact List.length_eq_zero_iff.1 haligned
        exact ⟨i, (hroot hcall i).trans hi⟩

/-- The outcome of a creation is the one of the operations that it makes. -/
theorem transactCreate_simulates (hreg : env.Regular) (hlimit : gasLimit < gasBound)
    {initCode : Bytes} (h : Exec.transactCreate env rounds (.initial env gasLimit) tx.caller
      tx.value initCode gasLimit tx.accessList = some o) :
    ∃ i contract, simulateCreate env.config.createIncreaseNonce (fun _ _ => i)
      (fun _ _ => contract) tx env.backend = o.simulated env.backend := by
  obtain ⟨hwf, -⟩ := Exec.initial_wf env hlimit
  have hbegun := Exec.startCreate_begun env hwf rfl (.legacy tx.caller) tx.caller tx.value initCode
    gasLimit tx.accessList
  rw [Exec.transactCreate] at h
  rcases Exec.startCreate_cases env hwf (.legacy tx.caller) tx.caller tx.value initCode gasLimit
      tx.accessList with
    ⟨er, e', heq, -⟩ | ⟨e', hmoves, hinner, heq⟩
  · rw [heq] at h
    cases h
    exact ⟨.ok none, (0#160, []), simulateCreate_none ..⟩
  · rw [heq] at h hbegun
    cases hc : e'.createInner env tx.caller (.legacy tx.caller) tx.value initCode (some gasLimit)
        false with
    | mk c e₁ =>
      rw [hc] at h hbegun
      cases Exec.createInner_created hmoves.wf.funded.sound tx.caller (.legacy tx.caller) tx.value
          initCode (some gasLimit) false hc with
      | refused | failed address =>
        cases h
        exact ⟨.ok none, (0#160, []), simulateCreate_none ..⟩
      | @entered t _ hkind hcreate =>
        generalize e'.createAddress env (.legacy tx.caller) = address at hkind hcreate
        -- The code of the contract is what a run that succeeds has deployed.
        obtain ⟨code, hcode⟩ : ∃ code, ∀ s, o.reason = .succeed s → ∃ ops,
            e₁.inner.run env.config.createIncreaseNonce env.backend
              (ops ++ [.deploy address code]) =
              some o.exec.inner ∧ o.exec.inner.state.parents = [] := by
          by_cases hsucceeds : ∃ s, o.reason = .succeed s
          · obtain ⟨s, hreason⟩ := hsucceeds
            obtain ⟨ops, last, hperforms, -, hparents, hlast⟩ :=
              Execution.executes_succeeded hreg hbegun.1 h hreason
            rcases hlast with ⟨a', hroot, -⟩ | ⟨a', code, hroot, rfl⟩
            · have hroot : some t.kind = _ := hroot
              rw [hkind] at hroot
              cases hroot
            · have hroot : some t.kind = _ := hroot
              rw [hkind] at hroot
              cases hroot
              exact ⟨code, fun _ _ => ⟨ops, hperforms, hparents⟩⟩
          · exact ⟨[], fun s hreason => absurd ⟨s, hreason⟩ hsucceeds⟩
        obtain ⟨i, hi⟩ := interpret_outcome env.config.createIncreaseNonce tx env.backend
          e₁.inner (.deploy address code) o hcode
        refine ⟨i, (address, code), ?_⟩
        rw [simulateCreate]
        dsimp only
        rw [hinner] at hcreate
        rw [show StackExecutor.createInner env.config.createIncreaseNonce env.backend {} tx.caller
          address tx.value = _ from hcreate]
        exact hi

end Refines

/-- The rounds are only a bound: a run has one outcome. -/
theorem executeWithCallStack_unique {env : Environment} {rounds rounds' : Nat} {v : Execution}
    {o o' : Outcome} (h : executeWithCallStack env rounds v = some o)
    (h' : executeWithCallStack env rounds' v = some o') : o = o' := by
  induction rounds generalizing rounds' v with
  | zero => cases h
  | succ rounds ih =>
    cases rounds' with
    | zero => cases h'
    | succ rounds' =>
      rw [executeWithCallStack] at h h'
      cases hstep : v.step env with
      | inl v₁ =>
        rw [hstep] at h h'
        exact ih h h'
      | inr o₁ =>
        rw [hstep] at h h'
        cases h
        cases h'
        rfl

/-- The outcome does not depend on the number of rounds, once there are enough. -/
theorem complete_unique {env : Environment} {rounds rounds' : Nat} {x : Execution ⊕ Outcome}
    {o o' : Outcome} (h : Exec.complete env rounds x = some o)
    (h' : Exec.complete env rounds' x = some o') : o = o' := by
  cases x with
  | inl v => exact executeWithCallStack_unique h h'
  | inr o₁ =>
    cases h
    cases h'
    rfl

theorem Environment.Regular.over {env : Environment} (h : env.Regular) (s : State) :
    ({ env with backend := s } : Environment).Regular :=
  ⟨h.small, h.precompiles⟩

/-- The result does not depend on the number of rounds. -/
theorem simulateTx_unique {env : Environment} {rounds rounds' : Nat} {tx : EthereumTransaction}
    {s : State} {r r' : Except String (Option Simulated)} (h : simulateTx env rounds tx s = some r)
    (h' : simulateTx env rounds' tx s = some r') : r = r' := by
  have htx := readable_of_simulateTx h
  refine readable_cases htx (fun toAddr data hto hdata => ?_) (fun data hto hdata => ?_)
    fun hto hdata => ?_
  · rw [simulateTx_call htx hto hdata] at h h'
    obtain ⟨o, ho, rfl⟩ := Option.map_eq_some_iff.1 h
    obtain ⟨o', ho', rfl⟩ := Option.map_eq_some_iff.1 h'
    rw [complete_unique ho ho']
  · rw [simulateTx_create htx hto hdata] at h h'
    obtain ⟨o, ho, rfl⟩ := Option.map_eq_some_iff.1 h
    obtain ⟨o', ho', rfl⟩ := Option.map_eq_some_iff.1 h'
    rw [complete_unique ho ho']
  · rw [simulateTx_newAccount htx hto hdata] at h h'
    exact Option.some.inj (h.symm.trans h')

/-- The simulation of one transaction on one state is a simulation by its operations. -/
theorem simulateTx_simulates {env : Environment} (hreg : env.Regular) {rounds : Nat}
    {tx : EthereumTransaction} {s : State} {r : Except String (Option Simulated)}
    (hlimit : tx.gasLimit.toNat < gasBound) (h : simulateTx env rounds tx s = some r) :
    ∃ i contract, Chase.simulateTx env.config.createIncreaseNonce (fun _ _ => i)
      (fun _ _ => contract) tx s = r := by
  have htx := readable_of_simulateTx h
  refine readable_cases htx (fun toAddr data hto hdata => ?_) (fun data hto hdata => ?_)
    fun hto hdata => ?_
  · rw [simulateTx_call htx hto hdata] at h
    obtain ⟨o, ho, rfl⟩ := Option.map_eq_some_iff.1 h
    obtain ⟨i, hi⟩ := transactCall_simulates (hreg.over s) hlimit ho
    refine ⟨i, (0#160, []), ?_⟩
    rw [Chase.simulateTx, hto]
    exact hi
  · rw [simulateTx_create htx hto hdata] at h
    obtain ⟨o, ho, rfl⟩ := Option.map_eq_some_iff.1 h
    obtain ⟨i, contract, hi⟩ := transactCreate_simulates (hreg.over s) hlimit ho
    refine ⟨i, contract, ?_⟩
    rw [Chase.simulateTx, hto, hdata]
    exact hi
  · rw [simulateTx_newAccount htx hto hdata] at h
    cases h
    refine ⟨.ok none, (0#160, []), ?_⟩
    rw [Chase.simulateTx, hto, hdata]

/-- A simulation has a result, after at most two rounds for each gas. -/
theorem simulateTx_ends {env : Environment} (hreg : env.Regular) (hpos : env.config.Positive)
    {rounds : Nat} {tx : EthereumTransaction} (s : State) (hlimit : tx.gasLimit.toNat < gasBound)
    (htx : tx.Readable) (hrounds : 2 * tx.gasLimit.toNat + 2 ≤ rounds) :
    ∃ r, simulateTx env rounds tx s = some r := by
  refine readable_cases htx (fun toAddr data hto hdata => ?_) (fun data hto hdata => ?_)
    fun hto hdata => ?_
  · obtain ⟨o, ho⟩ := transactCall_ends (hreg.over s) hpos hlimit hrounds tx.caller toAddr tx.value
      data tx.accessList
    rw [simulateTx_call htx hto hdata, ho]
    exact ⟨_, rfl⟩
  · obtain ⟨o, ho⟩ := transactCreate_ends (hreg.over s) hpos hlimit hrounds tx.caller tx.value data
      tx.accessList
    rw [simulateTx_create htx hto hdata, ho]
    exact ⟨_, rfl⟩
  · rw [simulateTx_newAccount htx hto hdata]
    exact ⟨_, rfl⟩

/-- The simulation of a transaction over byte code is a simulation by an interpreter: there is one,
the same for all transactions and states, that makes just the operations of the byte code. The
results of byte code are those of the interpreter, for every transaction that can be read and every
gas limit below `2 ^ 63`. -/
theorem simulateTx_refines {env : Environment} (hreg : env.Regular) (hpos : env.config.Positive) :
    ∃ interpreter newContract, ∀ (tx : EthereumTransaction) (s : State) (rounds : Nat),
      tx.gasLimit.toNat < gasBound → tx.Readable → 2 * tx.gasLimit.toNat + 2 ≤ rounds →
      simulateTx env rounds tx s =
        some (Chase.simulateTx env.config.createIncreaseNonce interpreter newContract tx s) := by
  have hone : ∀ (tx : EthereumTransaction) (s : State),
      ∃ i contract, ∀ (rounds : Nat) (r : Except String (Option Simulated)),
        tx.gasLimit.toNat < gasBound → simulateTx env rounds tx s = some r →
        Chase.simulateTx env.config.createIncreaseNonce (fun _ _ => i) (fun _ _ => contract) tx s =
          r := by
    intro tx s
    by_cases hends : ∃ rounds r, tx.gasLimit.toNat < gasBound ∧ simulateTx env rounds tx s = some r
    · obtain ⟨rounds₀, r₀, hlimit, h₀⟩ := hends
      obtain ⟨i, contract, hi⟩ := simulateTx_simulates hreg hlimit h₀
      exact ⟨i, contract, fun rounds r _ h => hi.trans (simulateTx_unique h₀ h)⟩
    · exact ⟨.ok none, (0#160, []), fun rounds r hlimit h => absurd ⟨rounds, r, hlimit, h⟩ hends⟩
  choose interpreter newContract hsimulates using hone
  refine ⟨interpreter, newContract, fun tx s rounds hlimit htx hrounds => ?_⟩
  obtain ⟨r, hr⟩ := simulateTx_ends hreg hpos s hlimit htx hrounds
  have heq : Chase.simulateTx env.config.createIncreaseNonce interpreter newContract tx s = r :=
    hsimulates tx s rounds r hlimit hr
  rw [hr, heq]

/-- A call of the contract of `jumpEnvironment`. -/
def jumpTx : EthereumTransaction := .ofCall 2 1 0 [] 100000 0

/-- The call of the fixture is simulated as the bottom layer says. -/
theorem simulateTx_refines_jump : ∃ interpreter newContract,
    simulateTx jumpEnvironment 200002 jumpTx jumpEnvironment.backend =
      some (Chase.simulateTx jumpEnvironment.config.createIncreaseNonce interpreter newContract
        jumpTx jumpEnvironment.backend) := by
  obtain ⟨interpreter, newContract, h⟩ :=
    simulateTx_refines jumpEnvironment_regular (small_of_mem_forks List.mem_cons_self).2
  have hgas : jumpTx.gasLimit.toNat = 100000 := rfl
  exact ⟨interpreter, newContract, h jumpTx jumpEnvironment.backend 200002
    (by rw [hgas, gasBound]; omega) (EthereumTransaction.readable_ofCall ..) (by rw [hgas])⟩

end Chase.Vm
