import Chase.Evm.Executor
import Chase.Vm.Runtime

/-!
# The executor over the byte code

`Exec` is the stack executor with the metadata that `Chase.Evm` leaves out: for every substate a
gasometer, whether it is static, its depth and what it has accessed. The substates themselves and
the recorded reads and writes are those of `StackExecutor`, and every operation works on them
through the operations there.

`callInner` and `createInner` enter a substate and give a runtime for its code; `cleanupForCall` and
`cleanupForCreate` leave it. `Execution.step` is one instruction of the runtime on top of the call
stack, with the return to its caller when it exits.
-/

namespace Chase.Vm

open EarlyExit

/-! ## Metadata of a substate -/

/-- `Accessed`. -/
structure Accessed where
  addresses : List H160 := []
  storage : List Slot := []
  deriving DecidableEq, Repr

/-- `StackSubstateMetadata`. -/
structure Metadata where
  gasometer : Gasometer
  isStatic : Bool := false
  depth : Option Nat := none
  accessed : Option Accessed

namespace Metadata

variable (m : Metadata)

/-- `StackSubstateMetadata::new`. -/
def new (config : Config) (gasLimit : Nat) : Metadata where
  gasometer := { gasLimit }
  accessed := if config.increaseStateAccessGas then some {} else none

/-- `access_address`. -/
def accessAddress (a : H160) : Metadata :=
  { m with accessed := m.accessed.map fun s => { s with addresses := s.addresses.insert a } }

/-- `access_addresses`. -/
def accessAddresses (addresses : List H160) : Metadata := addresses.foldl accessAddress m

/-- `access_storage`. -/
def accessStorage (slot : Slot) : Metadata :=
  { m with accessed := m.accessed.map fun s => { s with storage := s.storage.insert slot } }

/-- `access_storages`. -/
def accessStorages (slots : List Slot) : Metadata := slots.foldl accessStorage m

/-- The accesses change only what is warm. -/
theorem accessAddresses_eq (addresses : List H160) :
    ∃ accessed, m.accessAddresses addresses = { m with accessed } := by
  induction addresses generalizing m with
  | nil => exact ⟨m.accessed, rfl⟩
  | cons a addresses ih => exact ih (m.accessAddress a)

/-- Accessed slots change the accessed ones only. -/
theorem accessStorages_eq (slots : List Slot) :
    ∃ accessed, m.accessStorages slots = { m with accessed } := by
  induction slots generalizing m with
  | nil => exact ⟨m.accessed, rfl⟩
  | cons slot slots ih => exact ih (m.accessStorage slot)

/-- What a commit merges of the accessed sets. -/
def mergeAccessed (accessed other : Option Accessed) : Option Accessed :=
  match other, accessed with
  | some other, some s =>
    some ⟨other.addresses.union s.addresses, other.storage.union s.storage⟩
  | _, _ => accessed

/-- `swallow_commit`. -/
def swallowCommit (other : Metadata) : Except ExitError Unit × Metadata :=
  match m.gasometer.recordStipend other.gasometer.gas with
  | (.error e, gasometer) => (.error e, { m with gasometer })
  | (.ok (), gasometer) =>
    match gasometer.recordRefund other.gasometer.refundedGas with
    | (.error e, gasometer) => (.error e, { m with gasometer })
    | (.ok (), gasometer) =>
      (.ok (), { m with gasometer, accessed := mergeAccessed m.accessed other.accessed })

/-- `swallow_revert`. -/
def swallowRevert (other : Metadata) : Except ExitError Unit × Metadata :=
  let (r, gasometer) := m.gasometer.recordStipend other.gasometer.gas
  (r, { m with gasometer })

/-- `swallow_discard`. -/
def swallowDiscard : Except ExitError Unit × Metadata := (.ok (), m)

/-- The depth of a child. -/
def nextDepth : Nat :=
  match m.depth with
  | none => 0
  | some n => n + 1

/-- `spit_child`. -/
def spitChild (gasLimit : Nat) (isStatic : Bool) : Metadata where
  gasometer := { gasLimit }
  isStatic := isStatic || m.isStatic
  depth := some m.nextDepth
  accessed := m.accessed.map fun _ => {}

end Metadata

/-! ## The executor -/

/-- `PrecompileFailure`. -/
inductive PrecompileFailure where
  | error (e : ExitError)
  | revert (r : ExitRevert) (output : Bytes)
  | fatal (f : ExitFatal)

/-- `PrecompileFn`: the exit and the output of a success, with the cost. -/
abbrev PrecompileFn :=
  Bytes → Option Nat → Context → Bool → Except PrecompileFailure ((ExitSucceed × Bytes) × Nat)

/-- What a run of the executor does not change: the configuration, the precompiles, the backend with
its block, the hash and the encoding of what is hashed. -/
structure Environment where
  config : Config
  precompiles : H160 → Option PrecompileFn
  vicinity : Vicinity
  backend : State
  keccak256 : Bytes → H256
  /-- The list of a caller and a nonce in the encoding of the crate `rlp`. -/
  rlpAddressNonce : H160 → U256 → Bytes

/-- `StackExecutor` with the metadata of its substates. -/
structure Exec where
  inner : StackExecutor := {}
  metadata : Metadata
  parents : List Metadata := []

/-- `RuntimeKind`. -/
inductive RuntimeKind where
  | create (address : H160)
  | call (codeAddress : H160)
  | execute

/-- `TaggedRuntime`. -/
structure TaggedRuntime where
  kind : RuntimeKind
  inner : Runtime

namespace Exec

variable (env : Environment) (e : Exec)

/-- A change of the state of the substates. -/
def withState (state : MemoryStackState) : Exec := { e with inner := { e.inner with state } }

/-- The frames of the substates. -/
def frames : List Substate := e.inner.state.frames

/-- `gas`. -/
def gas : Nat := e.metadata.gasometer.gas

/-- A change of the gasometer of the current substate. -/
def onGasometer {α : Type} (x : EarlyExit ExitError Gasometer α) : EarlyExit ExitError Exec α :=
  zoom (fun e => e.metadata.gasometer)
    (fun e gasometer => { e with metadata := { e.metadata with gasometer } }) id x

/-- `record_cost` on the gasometer of the current substate. -/
def recordCost (cost : Nat) : EarlyExit ExitError Exec Unit := onGasometer (·.recordCost cost)

/-- `gasometer.fail`. -/
def fail : Exec := { e with metadata := { e.metadata with gasometer := e.metadata.gasometer.fail } }

/-- `enter_substate`. -/
def enter (gasLimit : Nat) (isStatic : Bool) : Exec where
  inner := { e.inner with state := e.inner.state.enter }
  metadata := e.metadata.spitChild gasLimit isStatic
  parents := e.metadata :: e.parents

/-- `exit_substate`. The source panics on the root, where this does nothing. -/
def exitSubstate (kind : StackExitKind) : Except ExitError Unit × Exec :=
  match e.parents with
  | [] => (.ok (), e)
  | parent :: parents =>
    let dropped := e.inner.state.exitRevert.getD e.inner.state
    match kind with
    | .succeeded =>
      match parent.swallowCommit e.metadata with
      | (.ok (), metadata) =>
        (.ok (),
          { inner := { e.inner with state := e.inner.state.exitCommit.getD e.inner.state }
            metadata
            parents })
      | (.error er, metadata) =>
        (.error er, { inner := { e.inner with state := dropped }, metadata, parents })
    | .reverted =>
      let (r, metadata) := parent.swallowRevert e.metadata
      (r, { inner := { e.inner with state := dropped }, metadata, parents })
    | .failed =>
      let (r, metadata) := parent.swallowDiscard
      (r, { inner := { e.inner with state := dropped }, metadata, parents })

/-! ## What the handler asks -/

/-- `balance`. -/
def balance (a : H160) : U256 := e.inner.balance env.backend a

/-- `nonce`. -/
def nonce (a : H160) : U256 := e.inner.nonce env.backend a

/-- `code`. -/
def code (a : H160) : Bytes := codeIn env.backend e.frames a

/-- `code_size`. -/
def codeSize (a : H160) : U256 := BitVec.ofNat 256 (e.code env a).length

/-- `known_empty`. -/
def knownEmpty (a : H160) : Option Bool :=
  match knownAccount e.frames a with
  | none => none
  | some account =>
    if account.basic.balance ≠ 0#256 then some false
    else if account.basic.nonce ≠ 0#256 then some false
    else account.code.map (·.isEmpty)

/-- `is_empty`. -/
def isEmpty (a : H160) : Bool :=
  match e.knownEmpty a with
  | some empty => empty
  | none =>
    let basic := env.backend.basic a
    basic.balance = 0#256 && basic.nonce = 0#256 && (env.backend.code a).isEmpty

/-- `exists` of the state. -/
def stateExists (a : H160) : Bool := (knownAccount e.frames a).isSome || env.backend.exists a

/-- `exists`. -/
def «exists» (a : H160) : Bool :=
  if env.config.emptyConsideredExists then e.stateExists env a
  else e.stateExists env a && !e.isEmpty env a

/-- `code_hash`. -/
def codeHash (a : H160) : H256 :=
  if e.exists env a then env.keccak256 (e.code env a) else 0#256

/-- `deleted`. -/
def deleted (a : H160) : Bool := e.frames.any fun f => f.deletes.contains a

/-- `recursive_is_cold`. -/
def recursiveIsCold (f : Accessed → Bool) : Bool :=
  !(e.metadata :: e.parents).any fun m => (m.accessed.map f).getD false

/-- `is_cold`; for an address, the precompiles charge nothing for the question. -/
def isCold (a : H160) (index : Option H256) : EarlyExit ExitError Exec Bool :=
  match index with
  | none => do
    recordCost 0
    read fun e => !(env.precompiles a).isSome && e.recursiveIsCold fun s => s.addresses.contains a
  | some index => read fun e => e.recursiveIsCold fun s => s.storage.contains (a, index)

/-- `storage`. -/
def storage (slot : Slot) : EarlyExit ExitError Exec H256 := fun e =>
  (.ok (storageIn env.backend e.frames slot), { e with inner := e.inner.storage env.backend slot })

/-- `original_storage`. -/
def originalStorage (slot : Slot) : EarlyExit ExitError Exec H256 := fun e =>
  (.ok (originalStorageIn env.backend e.frames slot),
    { e with inner := e.inner.originalStorage env.backend slot })

/-- `set_storage`. -/
def setStorage (slot : Slot) (value : H256) : EarlyExit ExitError Exec Unit :=
  update fun e => { e with inner := e.inner.setStorage slot value }

/-- `log`. -/
def log (l : Log) : EarlyExit ExitError Exec Unit :=
  update fun e => e.withState (e.inner.state.log l)

/-- `mark_delete`; the transfer of the whole balance does not fail. -/
def markDelete (address target : H160) : EarlyExit ExitError Exec Unit := fun e =>
  match e.inner.state.transfer env.backend ⟨address, target, e.balance env address⟩ with
  | (false, state) => (.error .outOfFund, e.withState state)
  | (true, state) =>
    (.ok (), e.withState ((state.resetBalance env.backend address).setDeleted address))

/-- The part of the handler that the gasometer uses. -/
def stateHandler : StateHandler Exec where
  vicinity := env.vicinity
  balance e := e.balance env
  codeSize e := e.codeSize env
  codeHash e := e.codeHash env
  code e := e.code env
  storage := storage env
  originalStorage := originalStorage env
  gasLeft e := BitVec.ofNat 256 e.gas
  «exists» e := e.exists env
  deleted e := e.deleted
  isCold := isCold env
  setStorage := setStorage
  log := log
  markDelete := markDelete env

/-- The access that an instruction makes. -/
def access (target : StorageTarget) : Exec :=
  { e with
    metadata :=
      match target with
      | .address a => e.metadata.accessAddress a
      | .slot slot => e.metadata.accessStorage slot
      | .none => e.metadata }

/-- `record_dynamic_cost` on the gasometer of the current substate. -/
def recordDynamicCost (cost : GasCost) (memory : Option MemoryCost) :
    EarlyExit ExitError Exec Unit :=
  onGasometer (Gasometer.recordDynamicCost env.config · cost memory)

/-- `pre_validate`. -/
def preValidate (context : Context) (opcode : Opcode) (stack : Stack) :
    EarlyExit ExitError Exec Unit :=
  match staticOpcodeCost opcode with
  | some cost => recordCost cost
  | none => do
    let isStatic ← read fun e => e.metadata.isStatic
    let (gasCost, target, memoryCost) ←
      dynamicOpcodeCost (stateHandler env) env.config context.address opcode stack isStatic
    recordDynamicCost env gasCost memoryCost
    update fun e => e.access target

/-! ## Calls and creations -/

/-- `l64`. -/
def l64 (gas : Nat) : Nat := gas - gas / 64

/-- The gas that a call or a creation can have. -/
def afterGas (takeL64 : Bool) : EarlyExit ExitError Exec Nat := do
  let gas ← read fun e => e.gas
  if takeL64 && env.config.callL64AfterGas then
    if env.config.estimate then do
      recordCost (gas - l64 gas)
      read fun e => e.gas
    else pure (l64 gas)
  else pure gas

/-- The gas of the new substate is taken from the current one. -/
def takeGas (targetGas : Option Nat) (takeL64 : Bool) : EarlyExit ExitError Exec Nat := do
  let afterGas ← afterGas env takeL64
  let gasLimit := min (targetGas.getD afterGas) afterGas
  recordCost gasLimit
  pure gasLimit

/-- The limit of the new substate of a call, with the stipend of a transfer. -/
def withStipend (gasLimit : Nat) (transfer : Option Transfer) (takeStipend : Bool) : Nat :=
  match transfer with
  | some t =>
    if takeStipend ∧ t.value ≠ 0#256 then min (gasLimit + env.config.callStipend) u64Max
    else gasLimit
  | none => gasLimit

/-- Whether the current substate is too deep. -/
def tooDeep : Bool :=
  match e.metadata.depth with
  | some depth => env.config.callStackLimit < depth
  | none => false

/-- The run of a precompile in the current substate, which it leaves. -/
def runPrecompile (f : PrecompileFn) (input : Bytes) (gasLimit : Nat) (context : Context) :
    (ExitReason × Bytes) × Exec :=
  match f input (some gasLimit) context e.metadata.isStatic with
  | .ok ((status, output), cost) =>
    match recordCost cost e with
    | (.ok (), e) => ((.succeed status, output), (e.exitSubstate .succeeded).2)
    | (.error er, e) => ((.error er, []), (e.exitSubstate .failed).2)
  | .error (.error er) => ((.error er, []), (e.exitSubstate .failed).2)
  | .error (.revert r output) => ((.revert r, output), (e.exitSubstate .reverted).2)
  | .error (.fatal f) => ((.fatal f, []), (e.fail.exitSubstate .failed).2)

/-- The transfer of a call, with whether it is made. -/
def callTransfer (transfer : Option Transfer) : Bool × Exec :=
  match transfer with
  | none => (true, e)
  | some t =>
    let (ok, state) := e.inner.state.transfer env.backend t
    (ok, e.withState state)

/-- `call_inner` in the new substate. -/
def callInSubstate (codeAddress : H160) (transfer : Option Transfer) (input : Bytes)
    (gasLimit : Nat) (context : Context) : Capture (ExitReason × Bytes) TaggedRuntime × Exec :=
  let e := e.withState (e.inner.state.touch env.backend context.address)
  let code := e.code env codeAddress
  if e.tooDeep env then (.exit (.error .callTooDeep, []), (e.exitSubstate .reverted).2)
  else
    match e.callTransfer env transfer with
    | (false, e) => (.exit (.error .outOfFund, []), (e.exitSubstate .reverted).2)
    | (true, e) =>
      match env.precompiles codeAddress with
      | some f =>
        let (result, e) := e.runPrecompile f input gasLimit context
        (.exit result, e)
      | none =>
        (.trap ⟨.call codeAddress,
          .new code input context env.config.stackLimit env.config.memoryLimit⟩, e)

/-- `call_inner`. -/
def callInner (codeAddress : H160) (transfer : Option Transfer) (input : Bytes)
    (targetGas : Option Nat) (isStatic takeL64 takeStipend : Bool) (context : Context) :
    Capture (ExitReason × Bytes) TaggedRuntime × Exec :=
  match takeGas env targetGas takeL64 e with
  | (.error er, e) => (.exit (.error er, []), e)
  | (.ok gasLimit, e) =>
    let gasLimit := withStipend env gasLimit transfer takeStipend
    (e.enter gasLimit isStatic).callInSubstate env codeAddress transfer input gasLimit context

/-- `create_address`. -/
def createAddress (scheme : CreateScheme) : H160 :=
  match scheme with
  | .create2 caller codeHash salt =>
    addressOf (env.keccak256
      (0xff :: (toBytes (wordOf caller)).drop 12 ++ toBytes salt ++ toBytes codeHash))
  | .legacy caller => addressOf (env.keccak256 (env.rlpAddressNonce caller (e.nonce env caller)))
  | .fixed address => address

/-- `create_inner` in the new substate. The size of a code is zero just for the empty one, whose
length is a `usize`. -/
def createInSubstate (caller address : H160) (value : U256) (initCode : Bytes) :
    Capture (ExitReason × Option H160 × Bytes) TaggedRuntime × Exec :=
  if e.code env address ≠ [] ∨ 0#256 < e.nonce env address then
    (.exit (.error .createCollision, none, []), (e.exitSubstate .failed).2)
  else
    let e := e.withState (e.inner.state.resetStorage env.backend address)
    match e.inner.state.transfer env.backend ⟨caller, address, value⟩ with
    | (false, state) =>
      (.exit (.error .outOfFund, none, []), ((e.withState state).exitSubstate .reverted).2)
    | (true, state) =>
      let runtime : TaggedRuntime :=
        ⟨.create address,
          .new initCode [] ⟨address, caller, value⟩ env.config.stackLimit env.config.memoryLimit⟩
      if env.config.createIncreaseNonce then
        match state.incNonce env.backend address with
        | (false, state) => (.exit (.error .maxNonce, none, []), e.withState state)
        | (true, state) => (.trap runtime, e.withState state)
      else (.trap runtime, e.withState state)

/-- `create_inner`. -/
def createInner (caller : H160) (scheme : CreateScheme) (value : U256) (initCode : Bytes)
    (targetGas : Option Nat) (takeL64 : Bool) :
    Capture (ExitReason × Option H160 × Bytes) TaggedRuntime × Exec :=
  let address := e.createAddress env scheme
  let e := { e with metadata := (e.metadata.accessAddress caller).accessAddress address }
  if e.tooDeep env then (.exit (.error .callTooDeep, none, []), e)
  else if e.balance env caller < value then (.exit (.error .outOfFund, none, []), e)
  else
    match e.inner.state.incNonce env.backend caller with
    | (false, state) => (.exit (.error .maxNonce, none, []), e.withState state)
    | (true, state) =>
      match takeGas env targetGas takeL64 (e.withState state) with
      | (.error er, e) => (.exit (.error er, none, []), e)
      | (.ok gasLimit, e) =>
        (e.enter gasLimit false).createInSubstate env caller address value initCode

/-- `maybe_record_init_code_cost`. -/
def maybeRecordInitCodeCost (initCode : Bytes) : EarlyExit ExitError Exec Unit :=
  match env.config.maxInitcodeSize with
  | none => pure ()
  | some limit =>
    if limit < initCode.length then do
      update fail
      exit .createContractLimit
    else recordCost (initCodeCost initCode)

/-- `create` of the handler. -/
def create (caller : H160) (scheme : CreateScheme) (value : U256) (initCode : Bytes)
    (targetGas : Option Nat) : Capture (ExitReason × Option H160 × Bytes) TaggedRuntime × Exec :=
  match maybeRecordInitCodeCost env initCode e with
  | (.error er, e) => (.exit (.error er, none, []), e)
  | (.ok (), e) => e.createInner env caller scheme value initCode targetGas true

/-- `call` of the handler. -/
def call (codeAddress : H160) (transfer : Option Transfer) (input : Bytes) (targetGas : Option Nat)
    (isStatic : Bool) (context : Context) : Capture (ExitReason × Bytes) TaggedRuntime × Exec :=
  e.callInner env codeAddress transfer input targetGas isStatic true true context

/-- `Handler for StackExecutor`. -/
def handler : Handler Exec TaggedRuntime where
  toStateHandler := stateHandler env
  create caller scheme value initCode targetGas e :=
    e.create env caller scheme value initCode targetGas
  call codeAddress transfer input targetGas isStatic context e :=
    e.call env codeAddress transfer input targetGas isStatic context
  preValidate := preValidate env

/-- `check_first_byte`. -/
def checkFirstByte (code : Bytes) : Bool :=
  env.config.disallowExecutableFormat && code.head? = some eofmagic

/-- `cleanup_for_create`. -/
def cleanupForCreate (createdAddress : H160) (reason : ExitReason) (returnData : Bytes) :
    (ExitReason × Option H160 × Bytes) × Exec :=
  match reason with
  | .succeed s =>
    if checkFirstByte env returnData then
      ((.error (.invalidCode eofmagic), none, []), (e.fail.exitSubstate .failed).2)
    else if env.config.createContractLimit.any (· < returnData.length) then
      ((.error .createContractLimit, none, []), (e.fail.exitSubstate .failed).2)
    else
      match onGasometer (·.recordDeposit returnData.length) e with
      | (.error er, e) => ((.error er, none, []), (e.exitSubstate .failed).2)
      | (.ok (), e) =>
        let (exitResult, e) := e.exitSubstate .succeeded
        let e := e.withState (e.inner.state.setCode env.backend createdAddress returnData)
        match exitResult with
        | .error er => ((.error er, none, []), e)
        | .ok () => ((.succeed s, some createdAddress, []), e)
  | .error er => ((.error er, none, []), (e.fail.exitSubstate .failed).2)
  | .revert r => ((.revert r, none, returnData), (e.exitSubstate .reverted).2)
  | .fatal f => ((.fatal f, none, []), (e.fail.exitSubstate .failed).2)

/-- `cleanup_for_call`. -/
def cleanupForCall (reason : ExitReason) (returnData : Bytes) : Bytes × Exec :=
  match reason with
  | .succeed _ => (returnData, (e.exitSubstate .succeeded).2)
  | .error _ => ([], (e.exitSubstate .failed).2)
  | .revert _ => (returnData, (e.exitSubstate .reverted).2)
  | .fatal _ => ([], (e.fail.exitSubstate .failed).2)

/-- The clean-up of a runtime that has exited, by its kind: the reason, the address of a created
contract, and the return data. -/
def cleanup (kind : RuntimeKind) (reason : ExitReason) (returnData : Bytes) :
    (ExitReason × Option H160 × Bytes) × Exec :=
  match kind with
  | .create address => e.cleanupForCreate env address reason returnData
  | .call _ =>
    let (returnData, e) := e.cleanupForCall reason returnData
    ((reason, none, returnData), e)
  | .execute => ((reason, none, returnData), e)

end Exec

/-! ## Runs -/

/-- The executor with the runtimes that it runs, the current one first. -/
structure Execution where
  exec : Exec
  callStack : List TaggedRuntime

/-- What a run ends with. -/
structure Outcome where
  reason : ExitReason
  returnData : Bytes
  exec : Exec

/-- The result of a runtime goes to the one below it, or out of the run. -/
def finishRuntime (kind : RuntimeKind) (result : ExitReason × Option H160 × Bytes) (exec : Exec) :
    List TaggedRuntime → Execution ⊕ Outcome
  | [] => .inr ⟨result.1, result.2.2, exec⟩
  | caller :: callStack =>
    let finished :=
      match kind with
      | .create _ => Runtime.finishCreate result.1 result.2.1 result.2.2 caller.inner
      | .call _ | .execute =>
        Runtime.finishCall caller.inner.returnDataLen caller.inner.returnDataOffset result.1
          result.2.2 caller.inner
    match finished with
    | (.ok (), inner) => .inl ⟨exec, { caller with inner } :: callStack⟩
    | (.error reason, _) => .inr ⟨reason, [], exec⟩

/-- A round of the loops of `execute_with_call_stack` and `run`: a step of the current runtime,
which can push the runtime of a call on the stack or return to its caller. -/
def Execution.step (env : Environment) (v : Execution) : Execution ⊕ Outcome :=
  match v.callStack with
  | [] => .inr ⟨.fatal .unhandledInterrupt, [], v.exec⟩
  | top :: callStack =>
    match top.inner.step env.keccak256 (Exec.handler env) v.exec with
    | (.ok (), inner, exec) => .inl ⟨exec, { top with inner } :: callStack⟩
    | (.error (.trap runtime), inner, exec) =>
      .inl ⟨exec, runtime :: { top with inner } :: callStack⟩
    | (.error (.exit reason), inner, exec) =>
      let (result, exec) := exec.cleanup env top.kind reason inner.machine.returnValue
      finishRuntime top.kind result exec callStack

/-- `execute_with_call_stack`, in so many rounds. -/
def executeWithCallStack (env : Environment) : Nat → Execution → Option Outcome
  | 0, _ => none
  | rounds + 1, v =>
    match v.step env with
    | .inl v => executeWithCallStack env rounds v
    | .inr outcome => some outcome

/-! ## Transactions -/

namespace Exec

variable (env : Environment) (rounds : Nat)

/-- The executor at the beginning of a transaction. -/
def initial (gasLimit : Nat) : Exec := { metadata := .new env.config gasLimit }

/-- `initialize_with_access_list`. -/
def initializeWithAccessList (e : Exec) (accessList : List (H160 × List H256)) : Exec :=
  { e with
    metadata :=
      (e.metadata.accessAddresses (accessList.map (·.1))).accessStorages
        (accessList.flatMap fun entry => entry.2.map (entry.1, ·)) }

/-- The addresses that a call has accessed from its beginning. -/
def warmAddresses (caller address : H160) : List H160 :=
  if env.config.warmCoinbaseAddress then [caller, address, env.vicinity.blockCoinbase]
  else [caller, address]

/-- The access list of a call. -/
def initializeCall (e : Exec) (caller address : H160) (accessList : List (H160 × List H256)) :
    Exec :=
  if env.config.increaseStateAccessGas then
    initializeWithAccessList
      { e with metadata := e.metadata.accessAddresses (warmAddresses env caller address) }
        accessList
  else e

/-- A capture at the beginning of a transaction: its result, or the runtime to run. -/
def startCapture {ε : Type} (outcome : ε → ExitReason × Bytes) :
    Capture ε TaggedRuntime × Exec → Execution ⊕ Outcome
  | (.exit result, e) => .inr ⟨(outcome result).1, (outcome result).2, e⟩
  | (.trap runtime, e) => .inl ⟨e, [runtime]⟩

/-- `transact_call` until its runtime runs. -/
def startCall (e : Exec) (caller address : H160) (value : U256) (data : Bytes) (gasLimit : Nat)
    (accessList : List (H160 × List H256)) : Execution ⊕ Outcome :=
  match onGasometer
      (Gasometer.recordTransaction env.config · (callTransactionCost data accessList)) e with
  | (.error er, e) => .inr ⟨.error er, [], e⟩
  | (.ok (), e) =>
    let e := e.initializeCall env caller address accessList
    match e.inner.state.incNonce env.backend caller with
    | (false, state) => .inr ⟨.error .maxNonce, [], e.withState state⟩
    | (true, state) =>
      startCapture id
        ((e.withState state).callInner env address (some ⟨caller, address, value⟩) data
          (some gasLimit) false false false ⟨address, caller, value⟩)

/-- `transact_create` and `transact_create2`, by their schemes, until the runtime runs. -/
def startCreate (scheme : CreateScheme) (e : Exec) (caller : H160) (value : U256)
    (initCode : Bytes) (gasLimit : Nat) (accessList : List (H160 × List H256)) :
    Execution ⊕ Outcome :=
  if env.config.maxInitcodeSize.any (· < initCode.length) then
    .inr ⟨.error .createContractLimit, [], e.fail⟩
  else
    match onGasometer
        (Gasometer.recordTransaction env.config · (createTransactionCost initCode accessList)) e
      with
    | (.error er, e) => .inr ⟨.error er, [], e⟩
    | (.ok (), e) =>
      startCapture (fun result => (result.1, result.2.2))
        ((e.initializeWithAccessList accessList).createInner env caller scheme value initCode
          (some gasLimit) false)

/-- The run of what a transaction has started. -/
def complete : Execution ⊕ Outcome → Option Outcome
  | .inl v => executeWithCallStack env rounds v
  | .inr outcome => some outcome

/-- `transact_call`. -/
def transactCall (e : Exec) (caller address : H160) (value : U256) (data : Bytes) (gasLimit : Nat)
    (accessList : List (H160 × List H256)) : Option Outcome :=
  complete env rounds (startCall env e caller address value data gasLimit accessList)

/-- `transact_create`. -/
def transactCreate (e : Exec) (caller : H160) (value : U256) (initCode : Bytes) (gasLimit : Nat)
    (accessList : List (H160 × List H256)) : Option Outcome :=
  complete env rounds (startCreate env (.legacy caller) e caller value initCode gasLimit accessList)

/-- `transact_create2`. -/
def transactCreate2 (e : Exec) (caller : H160) (value : U256) (initCode : Bytes) (salt : H256)
    (gasLimit : Nat) (accessList : List (H160 × List H256)) : Option Outcome :=
  complete env rounds
    (startCreate env (.create2 caller (env.keccak256 initCode) salt) e caller value initCode
      gasLimit accessList)

/-- `used_gas`. -/
def usedGas (e : Exec) : Nat :=
  e.metadata.gasometer.totalUsedGas -
    min (e.metadata.gasometer.totalUsedGas / env.config.maxRefundQuotient)
      (e.metadata.gasometer.refundedGas % 2 ^ 64).toNat

end Exec

end Chase.Vm
