import Chase.Evm.Substate
import Chase.Evm.Transaction

/-!
# The stack executor

`StackExecutor` runs a transaction: the interpreter reaches the state only through the operations of
the handler (`HandlerOp`), which work on the stack of substates and record the storage slots that
are read and written. Balances, nonces and code are not recorded.

What the byte code does is a parameter: an `Interpreter` says which handler operations a transaction
makes on a state, or that it reverts or fails. Gas, the call depth and the address of a created
contract are its decisions. `simulateTx` is `simulate_tx` over such an interpreter.
-/

namespace Chase

/-- `record_read_key` and `record_write_key`: the value goes into the map of its contract. -/
def AccessMap.record (a : H160) (key value : H256) : AccessMap → AccessMap
  | [] => [(a, [(key, value)])]
  | (a', m) :: rest =>
    if a' = a then (a', AssocMap.insert m key value) :: rest
    else if a.toNat < a'.toNat then (a, [(key, value)]) :: (a', m) :: rest
    else (a', m) :: AccessMap.record a key value rest

/-- `StackExitKind`. -/
inductive StackExitKind where
  | succeeded
  | reverted
  | failed
  deriving DecidableEq, Repr

/-- What the interpreter asks of the handler. -/
inductive HandlerOp where
  | storage (slot : Slot)
  | originalStorage (slot : Slot)
  | setStorage (slot : Slot) (value : H256)
  | log (l : Log)
  | markDelete (address target : H160)
  /-- `call_inner`; the address is the one of the context. -/
  | call (address : H160) (transfer : Option Transfer)
  /-- `create_inner`, with the address of the new contract. -/
  | create (caller address : H160) (value : U256)
  /-- `exit_substate`. -/
  | exit (kind : StackExitKind)
  /-- The successful end of a creation: the substate is left and the code is stored. -/
  | deploy (address : H160) (code : Bytes)
  deriving DecidableEq, Repr

/-- `StackExecutor` in a simulation. -/
structure StackExecutor where
  state : MemoryStackState := {}
  rwSet : RwSet := {}
  deriving DecidableEq, Repr

namespace StackExecutor

variable (createIncreaseNonce : Bool) (backend : State) (e : StackExecutor)

/-- The handler's `balance`. -/
def balance (a : H160) : U256 := (basicIn backend e.state.frames a).balance

/-- `nonce`. -/
def nonce (a : H160) : U256 := (basicIn backend e.state.frames a).nonce

/-- The handler's `storage`. -/
def storage (slot : Slot) : StackExecutor :=
  let value := storageIn backend e.state.frames slot
  { e with rwSet := { e.rwSet with readSet := e.rwSet.readSet.record slot.1 slot.2 value } }

/-- The handler's `original_storage`. -/
def originalStorage (slot : Slot) : StackExecutor :=
  let value := originalStorageIn backend e.state.frames slot
  { e with rwSet := { e.rwSet with readSet := e.rwSet.readSet.record slot.1 slot.2 value } }

/-- The handler's `set_storage`. -/
def setStorage (slot : Slot) (value : H256) : StackExecutor where
  state := e.state.setStorage slot value
  rwSet := { e.rwSet with writeSet := e.rwSet.writeSet.record slot.1 slot.2 value }

/-- `mark_delete`. -/
def markDelete (address target : H160) : StackExecutor :=
  match e.state.transfer backend ⟨address, target, e.balance backend address⟩ with
  | (false, state) => { e with state }
  | (true, state) => { e with state := (state.resetBalance backend address).setDeleted address }

/-- `call_inner` up to the runtime, with whether there is one: the substate is entered, the address
is touched and the value is transferred. -/
def callInner (address : H160) (transfer : Option Transfer) : Bool × StackExecutor :=
  let state := e.state.enter.touch backend address
  match transfer with
  | none => (true, { e with state })
  | some t =>
    match state.transfer backend t with
    | (true, state) => (true, { e with state })
    | (false, _) => (false, e)

/-- The part of `create_inner` in the new substate. -/
def createIn (caller address : H160) (value : U256) : Bool × MemoryStackState :=
  let state := e.state.enter
  if codeIn backend state.frames address ≠ [] ∨
      0 < (basicIn backend state.frames address).nonce then
    (false, e.state)
  else
    match (state.resetStorage backend address).transfer backend ⟨caller, address, value⟩ with
    | (false, _) => (false, e.state)
    | (true, state) => if createIncreaseNonce then state.incNonce backend address else (true, state)

/-- `create_inner` up to the runtime, with whether there is one. -/
def createInner (caller address : H160) (value : U256) : Bool × StackExecutor :=
  if e.balance backend caller < value then (false, e)
  else
    match e.state.incNonce backend caller with
    | (false, state) => (false, { e with state })
    | (true, state) =>
      let r := { e with state }.createIn createIncreaseNonce backend caller address value
      (r.1, { e with state := r.2 })

/-- `exit_substate`; there is a panic on the root. -/
def exitSubstate (kind : StackExitKind) : Option StackExecutor :=
  (match kind with
    | .succeeded => e.state.exitCommit
    | .reverted | .failed => e.state.exitRevert).map fun state => { e with state }

/-- One operation of the handler. -/
def step : HandlerOp → Option StackExecutor
  | .storage slot => some (e.storage backend slot)
  | .originalStorage slot => some (e.originalStorage backend slot)
  | .setStorage slot value => some (e.setStorage slot value)
  | .log l => some { e with state := e.state.log l }
  | .markDelete address target => some (e.markDelete backend address target)
  | .call address transfer => some (e.callInner backend address transfer).2
  | .create caller address value =>
    some (e.createInner createIncreaseNonce backend caller address value).2
  | .exit kind => e.exitSubstate kind
  | .deploy address code =>
    (e.exitSubstate .succeeded).map fun e =>
      { e with state := e.state.setCode backend address code }

/-- The operations of the handler, one after the other. -/
def run : StackExecutor → List HandlerOp → Option StackExecutor
  | e, [] => some e
  | e, op :: ops => (e.step createIncreaseNonce backend op).bind fun e => run e ops

/-- The result of a simulation that has come back to the root. -/
def simulated : Option Simulated :=
  if e.state.parents = [] then
    some ⟨e.state.deconstruct backend, e.state.substate.logs, e.rwSet⟩
  else none

end StackExecutor

/-- What the byte code of a transaction does on a state: the handler operations of a run that
succeeds, `none` for a run that reverts or ends with an error, an error for a fatal one. -/
abbrev Interpreter := EthereumTransaction → State → Except String (Option (List HandlerOp))

section Simulate

variable (createIncreaseNonce : Bool) (interpreter : Interpreter)

/-- The message of `process_transact_call_result` and `process_transact_create_result`. -/
def fatalMessage : String := "Fatal error occurred on EVM!"

/-- The run of the byte code in the substate of the transaction, which is left at its end by the
operation `last`, and what `simulate_tx` returns of it. -/
def interpret (tx : EthereumTransaction) (s : State) (e : StackExecutor) (last : HandlerOp) :
    Except String (Option Simulated) :=
  match interpreter tx s with
  | .error _ => .error fatalMessage
  | .ok none => .ok none
  | .ok (some ops) =>
    .ok ((e.run createIncreaseNonce s (ops ++ [last])).bind fun e => e.simulated s)

/-- The branch of `simulate_tx` for a call (`transact_call`). -/
def simulateCall (tx : EthereumTransaction) (toAddr : H160) (s : State) :
    Except String (Option Simulated) :=
  match ({} : MemoryStackState).incNonce s tx.caller with
  | (false, _) => .ok none
  | (true, state) =>
    match StackExecutor.callInner s { state } toAddr (some ⟨tx.caller, toAddr, tx.value⟩) with
    | (false, _) => .ok none
    | (true, e) => interpret createIncreaseNonce interpreter tx s e (.exit .succeeded)

/-- The branch of `simulate_tx` for a deployment (`transact_create`). The address and the code of
the new contract are the interpreter's, which also checks the limits. -/
def simulateCreate (newContract : EthereumTransaction → State → H160 × Bytes)
    (tx : EthereumTransaction) (s : State) : Except String (Option Simulated) :=
  let (address, code) := newContract tx s
  match StackExecutor.createInner createIncreaseNonce s {} tx.caller address tx.value with
  | (false, _) => .ok none
  | (true, e) => interpret createIncreaseNonce interpreter tx s e (.deploy address code)

/-- The branch of `simulate_tx` for a new user account. -/
def simulateNewAccount (tx : EthereumTransaction) : Except String (Option Simulated) :=
  .ok (some ⟨[.modify tx.caller ⟨tx.value, tx.nonce⟩ none [] false], [⟨tx.caller, [], []⟩], {}⟩)

/-- `simulate_tx`, on a transaction that has the fields it reads (`EthereumTransaction.Readable`);
on the others the source panics. -/
def simulateTx (newContract : EthereumTransaction → State → H160 × Bytes)
    (tx : EthereumTransaction) (s : State) : Except String (Option Simulated) :=
  match tx.toAddr with
  | some toAddr => simulateCall createIncreaseNonce interpreter tx toAddr s
  | none =>
    match tx.data with
    | some _ => simulateCreate createIncreaseNonce interpreter newContract tx s
    | none => simulateNewAccount tx

end Simulate

end Chase
