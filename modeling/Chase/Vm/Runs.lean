import Chase.Vm.Frames

/-!
# Runs of a transaction

`Started` is the state of the executor when the first runtime of a transaction begins, and `Reached`
are the states that the run of a transaction goes through. A round of the run is one of three things
(`Execution.Round`), and what holds in every state of a transaction is proved by induction over the
rounds: here that all the runtimes are well formed (`reached_runtimes`).
-/

namespace Chase.Vm

/-- The beginnings of the transactions over an environment. -/
inductive Started (env : Environment) (gasLimit : Nat) : Execution → Prop
  | call {caller address : H160} {value : U256} {data : Bytes}
      {accessList : List (H160 × List H256)} {v : Execution} :
    Exec.startCall env (.initial env gasLimit) caller address value data gasLimit accessList =
      .inl v →
    Started env gasLimit v
  | create {scheme : CreateScheme} {caller : H160} {value : U256} {initCode : Bytes}
    {accessList : List (H160 × List H256)} {v : Execution} :
    Exec.startCreate env scheme (.initial env gasLimit) caller value initCode gasLimit accessList =
      .inl v →
    Started env gasLimit v

/-- The states of the runs of the transactions over an environment. -/
inductive Reached (env : Environment) (gasLimit : Nat) : Execution → Prop
  | start {v : Execution} : Started env gasLimit v → Reached env gasLimit v
  | step {v v' : Execution} : Reached env gasLimit v → v.step env = .inl v' →
      Reached env gasLimit v'

/-- The runtime of a call or a creation at its beginning, with the limits of the configuration. -/
def Fresh (env : Environment) (t : TaggedRuntime) : Prop :=
  t.kind ≠ .execute ∧ ∃ code data context,
    t.inner = Runtime.new code data context env.config.stackLimit env.config.memoryLimit

namespace Exec

variable {env : Environment} {e e' : Exec} {t : TaggedRuntime}

/-- The runtime of a call is at its beginning. -/
theorem fresh_of_callInner {codeAddress : H160} {transfer : Option Transfer} {input : Bytes}
    {targetGas : Option Nat} {isStatic takeL64 takeStipend : Bool} {context : Context}
    (heq : e.callInner env codeAddress transfer input targetGas isStatic takeL64 takeStipend
      context = (.trap t, e')) : Fresh env t := by
  rw [callInner] at heq
  split at heq
  · cases heq
  · dsimp only [callInSubstate] at heq
    split at heq
    · cases heq
    · split at heq
      · cases heq
      · split at heq
        · cases heq
        · cases heq
          exact ⟨RuntimeKind.noConfusion, _, _, _, rfl⟩

/-- The runtime of a creation is at its beginning. -/
theorem fresh_of_createInner {caller : H160} {scheme : CreateScheme} {value : U256}
    {initCode : Bytes} {targetGas : Option Nat} {takeL64 : Bool}
    (heq : e.createInner env caller scheme value initCode targetGas takeL64 = (.trap t, e')) :
    Fresh env t := by
  dsimp only [createInner] at heq
  split at heq
  · cases heq
  split at heq
  · cases heq
  split at heq
  · cases heq
  split at heq
  · cases heq
  · rw [createInSubstate] at heq
    split at heq
    · cases heq
    dsimp only at heq
    split at heq
    · cases heq
    split at heq
    · split at heq
      · cases heq
      · cases heq
        exact ⟨RuntimeKind.noConfusion, _, _, _, rfl⟩
    · cases heq
      exact ⟨RuntimeKind.noConfusion, _, _, _, rfl⟩

/-- What a step puts on the call stack is at its beginning. -/
theorem fresh_of_perform {q : Request} (heq : q.perform (handler env) e = (some t, e')) :
    Fresh env t := by
  cases q with
  | none | load | store | log | delete => cases heq
  | create caller scheme value initCode =>
    rw [Request.perform] at heq
    dsimp only [handler, create] at heq
    split at heq
    · cases heq
    · rename_i e₁ _
      cases hc : e₁.createInner env caller scheme value initCode none true with
      | mk c e₂ =>
        rw [hc] at heq
        cases c with
        | exit => cases heq
        | trap t' =>
          cases heq
          exact fresh_of_createInner hc
  | call codeAddress transfer input gas isStatic context =>
    rw [Request.perform] at heq
    dsimp only [handler, call] at heq
    cases hc : e.callInner env codeAddress transfer input gas isStatic true true context with
    | mk c e₂ =>
      rw [hc] at heq
      cases c with
      | exit => cases heq
      | trap t' =>
        cases heq
        exact fresh_of_callInner hc

end Exec

/-- A runtime of the call stack, of a call or a creation: well formed, and it has not exited. -/
structure Runs (env : Environment) (t : TaggedRuntime) : Prop where
  kind : t.kind ≠ .execute
  wf : t.inner.Wf env.config.stackLimit env.config.memoryLimit
  status : t.inner.status = .ok ()

/-- A fresh runtime runs. -/
theorem Fresh.runs {env : Environment} {t : TaggedRuntime} (h : Fresh env t) : Runs env t := by
  obtain ⟨hkind, code, data, context, hnew⟩ := h
  refine ⟨hkind, ?_, ?_⟩
  · rw [hnew]
    exact Runtime.wf_new ..
  · rw [hnew]
    rfl

namespace Execution

variable {env : Environment} {v v' : Execution}

/-- What a round that goes on does: a step of the current runtime, a new runtime on top, or the
return to the caller. -/
inductive Round (env : Environment) (v : Execution) : Execution → Prop
  | go {t : TaggedRuntime} {ts : List TaggedRuntime} {r : Runtime} {e : Exec} :
    v.callStack = t :: ts →
    t.inner.step env.keccak256 (Exec.handler env) v.exec = (.ok (), r, e) →
    Round env v ⟨e, { t with inner := r } :: ts⟩
  | push {t t' : TaggedRuntime} {ts : List TaggedRuntime} {r : Runtime} {e : Exec} :
    v.callStack = t :: ts →
    t.inner.step env.keccak256 (Exec.handler env) v.exec = (.error (.trap t'), r, e) →
    Round env v ⟨e, t' :: { t with inner := r } :: ts⟩
  | back {t c : TaggedRuntime} {ts : List TaggedRuntime} {r r' : Runtime} {e : Exec}
    {reason : ExitReason} :
    v.callStack = t :: c :: ts →
    t.inner.step env.keccak256 (Exec.handler env) v.exec = (.error (.exit reason), r, e) →
    (∀ {L M : Nat}, c.inner.Wf L M → c.inner.Follows r') →
    Round env v
      ⟨(e.cleanup env t.kind reason r.machine.returnValue).2, { c with inner := r' } :: ts⟩

/-- The result of a runtime keeps its caller well formed. -/
theorem finished_spec {kind : RuntimeKind} {result : ExitReason × Option H160 × Bytes}
    {c r' : Runtime} {x : Except ExitReason Unit}
    (heq : (match kind with
      | .create _ => Runtime.finishCreate result.1 result.2.1 result.2.2 c
      | .call _ | .execute =>
        Runtime.finishCall c.returnDataLen c.returnDataOffset result.1 result.2.2 c) = (x, r'))
    {L M : Nat} (hwf : c.Wf L M) : c.Follows r' := by
  cases kind with
  | create a =>
    have hpost := EarlyExit.preserves_iff.1
      (Runtime.preserves_finishCreate result.1 result.2.1 result.2.2) c hwf.follows
    dsimp only at heq
    rwa [heq] at hpost
  | call _ | execute =>
    have hpost := Runtime.preserves_finishCall c.returnDataLen c.returnDataOffset result.1
      result.2.2 c ⟨hwf.follows, hwf.awaits⟩
    dsimp only at heq
    rw [heq] at hpost
    cases x <;> exact hpost

/-- The inversion of a round. -/
theorem round_of_step (h : v.step env = .inl v') : Round env v v' := by
  rw [step] at h
  split at h
  · cases h
  · rename_i t ts hstack
    split at h
    · rename_i r e hstep
      cases h
      exact .go hstack hstep
    · rename_i t' r e hstep
      cases h
      exact .push hstack hstep
    · rename_i reason r e hstep
      cases ts with
      | nil => cases h
      | cons c ts =>
        dsimp only [finishRuntime] at h
        split at h
        · rename_i r' hfinish
          cases h
          exact .back hstack hstep fun hwf => finished_spec hfinish hwf
        · cases h

/-- A round keeps the runtimes of the call stack running. -/
theorem Round.runs (h : Round env v v') (hv : ∀ t ∈ v.callStack, Runs env t) :
    ∀ t ∈ v'.callStack, Runs env t := by
  cases h with
  | @go t ts r e hstack hstep =>
    rw [hstack, List.forall_mem_cons] at hv
    obtain ⟨hwf, hstatus⟩ := hv.1.wf.step _ _ hv.1.status hstep
    rw [List.forall_mem_cons]
    refine ⟨⟨hv.1.kind, hwf, hstatus.resolve_right ?_⟩, hv.2⟩
    rintro ⟨reason, heq⟩
    cases heq
  | @push t t' ts r e hstack hstep =>
    rw [hstack, List.forall_mem_cons] at hv
    obtain ⟨hwf, hstatus⟩ := hv.1.wf.step _ _ hv.1.status hstep
    rw [List.forall_mem_cons, List.forall_mem_cons]
    refine ⟨?_, ⟨hv.1.kind, hwf, hstatus.resolve_right ?_⟩, hv.2⟩
    · cases Runtime.step_cases hv.1.status hstep with
      | asked _ _ _ hperform => exact (Exec.fresh_of_perform hperform).runs
    · rintro ⟨reason, heq⟩
      cases heq
  | @back t c ts r r' e reason hstack hstep hfinish =>
    rw [hstack, List.forall_mem_cons, List.forall_mem_cons] at hv
    have hfollows := hfinish hv.2.1.wf
    rw [List.forall_mem_cons]
    exact ⟨⟨hv.2.1.kind, hv.2.1.wf.of_follows hfollows, hfollows.status.trans hv.2.1.status⟩,
      hv.2.2⟩

end Execution

/-- A transaction begins with one fresh runtime. -/
theorem Started.fresh {env : Environment} {gasLimit : Nat} {v : Execution}
    (h : Started env gasLimit v) : ∃ t, v.callStack = [t] ∧ Fresh env t := by
  cases h with
  | call heq =>
    rw [Exec.startCall] at heq
    split at heq
    · cases heq
    dsimp only at heq
    split at heq
    · cases heq
    · rw [Exec.startCapture.eq_def] at heq
      split at heq
      · cases heq
      · rename_i t e hcall
        cases heq
        exact ⟨t, rfl, Exec.fresh_of_callInner hcall⟩
  | create heq =>
    rw [Exec.startCreate] at heq
    split at heq
    · cases heq
    split at heq
    · cases heq
    · rw [Exec.startCapture.eq_def] at heq
      split at heq
      · cases heq
      · rename_i t e hcreate
        cases heq
        exact ⟨t, rfl, Exec.fresh_of_createInner hcreate⟩

/-- In every state of a transaction, all the runtimes of the call stack run. -/
theorem Reached.runs {env : Environment} {gasLimit : Nat} {v : Execution}
    (h : Reached env gasLimit v) : ∀ t ∈ v.callStack, Runs env t := by
  induction h with
  | start hs =>
    obtain ⟨t, hstack, hfresh⟩ := hs.fresh
    rw [hstack]
    exact List.forall_mem_singleton.2 hfresh.runs
  | step _ hstep ih => exact (Execution.round_of_step hstep).runs ih

/-- In every state that a transaction reaches, every runtime of the call stack stands at the
beginning of an instruction, never inside of the bytes of a push; its stack is within the limit of
the configuration, and so are the bytes of its memory, which the effective length covers. -/
theorem reached_runtimes {env : Environment} {gasLimit : Nat} {v : Execution}
    (h : Reached env gasLimit v) {t : TaggedRuntime} (ht : t ∈ v.callStack) :
    (∀ p, t.inner.machine.position = .ok p → Boundary t.inner.machine.code 0 p) ∧
      t.inner.machine.stack.data.length ≤ env.config.stackLimit ∧
      t.inner.machine.memory.data.length ≤ env.config.memoryLimit ∧
      t.inner.machine.memory.data.length ≤ t.inner.machine.memory.effectiveLen.toNat := by
  have hwf := (h.runs t ht).wf.machine
  refine ⟨hwf.boundary, ?_, ?_, hwf.memory.length_le⟩
  · rw [← hwf.stackLimit]
    exact hwf.stack
  · rw [← hwf.memoryLimit]
    exact hwf.memory.length_le_limit

/-! ## A transaction -/

/-- An environment with one contract: `PUSH1 4; JUMP; INVALID; JUMPDEST; STOP`. -/
def jumpEnvironment : Environment where
  config := .istanbul
  precompiles _ := none
  vicinity :=
    { gasPrice := 0#256, origin := 2#160, blockHash := fun _ => 0#256, blockNumber := 0#256,
      blockCoinbase := 0#160, blockTimestamp := 0#256, blockDifficulty := 0#256,
      blockRandomness := none, blockGasLimit := 0#256, blockBaseFeePerGas := 0#256,
      chainId := 1#256 }
  backend a := if a = 1#160 then some { code := [0x60, 0x04, 0x56, 0xfe, 0x5b, 0x00] } else none
  keccak256 _ := 0#256
  rlpAddressNonce _ _ := []

/-- The left side of a sum, or another value. -/
def leftOr {α β : Type} (a : α) : α ⊕ β → α
  | .inl a => a
  | .inr _ => a

/-- The run of a call of the contract, after so many rounds. -/
def jumpRun : Nat → Execution
  | 0 =>
    leftOr ⟨.initial jumpEnvironment 100000, []⟩
      (Exec.startCall jumpEnvironment (.initial jumpEnvironment 100000) 2#160 1#160 0#256 []
        100000 [])
  | n + 1 => leftOr (jumpRun n) ((jumpRun n).step jumpEnvironment)

/-- The run of the fixture is reached. -/
theorem reached_jumpRun : Reached jumpEnvironment 100000 (jumpRun 2) := by
  have h₀ : Reached jumpEnvironment 100000 (jumpRun 0) :=
    .start (@Started.call _ _ 2#160 1#160 0#256 [] [] _ rfl)
  have h₁ : Reached jumpEnvironment 100000 (jumpRun 1) := .step h₀ rfl
  exact .step h₁ rfl

/-- The runtime of the fixture stands on a boundary after two rounds. -/
theorem reached_runtimes_jump :
    ∃ t ∈ (jumpRun 2).callStack, t.inner.machine.position = .ok 4 ∧
      Boundary t.inner.machine.code 0 4 := by
  have hmem : ∃ t ∈ (jumpRun 2).callStack, t.inner.machine.position = .ok 4 :=
    ⟨_, List.mem_cons_self, rfl⟩
  obtain ⟨t, ht, hp⟩ := hmem
  exact ⟨t, ht, hp, (reached_runtimes reached_jumpRun ht).1 4 hp⟩

end Chase.Vm
