import Chase.Vm.Gas

/-!
# The runtime

`Runtime` runs a machine in a context, over a handler: before an instruction the handler checks and
charges it (`preValidate`), and a trap of the machine is an instruction of the runtime (`eval`),
which works on the machine and the handler. A call or a creation that has code to run is an
interrupt; the results come back with `finishCall` and `finishCreate`.
-/

namespace Chase.Vm

open EarlyExit

/-- `Handler`. An interrupt is an `I`. -/
structure Handler (H I : Type) extends StateHandler H where
  create : H160 → CreateScheme → U256 → Bytes → Option Nat → H →
    Capture (ExitReason × Option H160 × Bytes) I × H
  call : H160 → Option Transfer → Bytes → Option Nat → Bool → Context → H →
    Capture (ExitReason × Bytes) I × H
  preValidate : Context → Opcode → Stack → EarlyExit ExitError H Unit

/-- `Runtime`. -/
structure Runtime where
  machine : Machine
  status : Except ExitReason Unit := .ok ()
  returnDataBuffer : Bytes := []
  returnDataLen : U256 := 0#256
  returnDataOffset : U256 := 0#256
  context : Context

/-- `Runtime::new`. -/
def Runtime.new (code data : Bytes) (context : Context) (stackLimit memoryLimit : Nat) :
    Runtime where
  machine := .new code data stackLimit memoryLimit
  context := context

/-- What an instruction of the runtime leads to, when it does not exit. -/
inductive RuntimeControl (I : Type) where
  | continue
  | interrupt (i : I)

/-- A program of the runtime over a handler. -/
abbrev RuntimeEval (H : Type) := EarlyExit ExitReason (Runtime × H)

namespace RuntimeEval

variable {H I : Type}

/-- A program of the machine. -/
def onMachine {α : Type} (x : Eval α) : RuntimeEval H α :=
  zoom (fun t => t.1.machine) (fun t machine => ({ t.1 with machine }, t.2)) id x

/-- A program of the handler. -/
def onHandler {α : Type} (x : EarlyExit ExitError H α) : RuntimeEval H α :=
  zoom (fun t => t.2) (fun t s => (t.1, s)) .error x

/-- The bytes of a range of the memory that was resized to it: none for an empty range. -/
def bytesAt (offset len : U256) : Eval Bytes :=
  if len = 0#256 then pure []
  else do
    let offset ← Eval.asUsizeOrFail offset
    let len ← Eval.asUsizeOrFail len
    read fun m => m.memory.get offset len

section Instructions

variable (keccak256 : Bytes → H256) (h : Handler H I)

/-- `sha3`. -/
def sha3 : RuntimeEval H (RuntimeControl I) := do
  onMachine (do
    let start ← Eval.pop
    let len ← Eval.pop
    Eval.resizeOffset start len
    let data ← bytesAt start len
    Eval.push (keccak256 data))
  pure .continue

/-- The word that an instruction without operands pushes: `address`, `selfbalance`, `origin`,
`caller`, `callvalue`, `gasprice`, `base_fee`, `returndatasize`, `coinbase`, `timestamp`, `number`,
`prevrandao`, `gaslimit`, `gas` and `chainid`. -/
def queryWord (q : Query) (r : Runtime) (s : H) : H256 :=
  match q with
  | .address => wordOf r.context.address
  | .selfbalance => h.balance s r.context.address
  | .origin => wordOf h.vicinity.origin
  | .caller => wordOf r.context.caller
  | .callvalue => r.context.apparentValue
  | .gasprice => h.vicinity.gasPrice
  | .basefee => h.vicinity.blockBaseFeePerGas
  | .returndatasize => BitVec.ofNat 256 r.returnDataBuffer.length
  | .coinbase => wordOf h.vicinity.blockCoinbase
  | .timestamp => h.vicinity.blockTimestamp
  | .number => h.vicinity.blockNumber
  | .difficulty => h.vicinity.blockRandomness.getD h.vicinity.blockDifficulty
  | .gaslimit => h.vicinity.blockGasLimit
  | .gas => h.gasLeft s
  | .chainid => h.vicinity.chainId

/-- The instructions of `queryWord`. -/
def query (q : Query) : RuntimeEval H (RuntimeControl I) := do
  let word ← read fun t => queryWord h q t.1 t.2
  onMachine (Eval.push word)
  pure .continue

/-- `balance`, `extcodesize` and `extcodehash`, with what they push. -/
def accountQuery (word : H → H160 → H256) : RuntimeEval H (RuntimeControl I) := do
  let address ← onMachine Eval.pop
  let word ← read fun t => word t.2 (addressOf address)
  onMachine (Eval.push word)
  pure .continue

/-- `extcodecopy`. -/
def extcodecopy : RuntimeEval H (RuntimeControl I) := do
  let address ← onMachine Eval.pop
  let memoryOffset ← onMachine Eval.pop
  let codeOffset ← onMachine Eval.pop
  let len ← onMachine Eval.pop
  onMachine (Eval.resizeOffset memoryOffset len)
  let code ← read fun t => h.code t.2 (addressOf address)
  onMachine (Eval.copyLarge memoryOffset codeOffset len code)
  pure .continue

/-- `returndatacopy`. -/
def returndatacopy : RuntimeEval H (RuntimeControl I) := do
  let memoryOffset ← onMachine Eval.pop
  let dataOffset ← onMachine Eval.pop
  let len ← onMachine Eval.pop
  onMachine (Eval.resizeOffset memoryOffset len)
  let buffer ← read fun t => t.1.returnDataBuffer
  if buffer.length < dataOffset.toNat + len.toNat then exit (.error .outOfOffset)
  else
    onMachine (Eval.copyLarge memoryOffset dataOffset len buffer)
    pure .continue

/-- `blockhash`. -/
def blockhash : RuntimeEval H (RuntimeControl I) := do
  let number ← onMachine Eval.pop
  onMachine (Eval.push (h.vicinity.blockHash number))
  pure .continue

/-- `sload`. -/
def sload : RuntimeEval H (RuntimeControl I) := do
  let index ← onMachine Eval.pop
  let address ← read fun t => t.1.context.address
  let value ← onHandler (h.storage (address, index))
  onMachine (Eval.push value)
  pure .continue

/-- `sstore`. -/
def sstore : RuntimeEval H (RuntimeControl I) := do
  let index ← onMachine Eval.pop
  let value ← onMachine Eval.pop
  let address ← read fun t => t.1.context.address
  onHandler (h.setStorage (address, index) value)
  pure .continue

/-- The topics that `log` pops. -/
def popTopics : Nat → Eval (List H256)
  | 0 => pure []
  | n + 1 => do
    let topic ← Eval.pop
    let topics ← popTopics n
    pure (topic :: topics)

/-- `log`. -/
def log (n : Nat) : RuntimeEval H (RuntimeControl I) := do
  let (topics, data) ← onMachine (do
    let offset ← Eval.pop
    let len ← Eval.pop
    Eval.resizeOffset offset len
    let data ← bytesAt offset len
    let topics ← popTopics n
    pure (topics, data))
  let address ← read fun t => t.1.context.address
  onHandler (h.log ⟨address, topics, data⟩)
  pure .continue

/-- `suicide`. -/
def suicide : RuntimeEval H (RuntimeControl I) := do
  let target ← onMachine Eval.pop
  let address ← read fun t => t.1.context.address
  onHandler (h.markDelete address (addressOf target))
  exit (.succeed .suicided)

end Instructions

end RuntimeEval

/-! ## The results of calls and creations -/

namespace Runtime

/-- A program of the machine of a runtime. -/
def onMachine {α : Type} (x : Eval α) : EarlyExit ExitReason Runtime α :=
  zoom Runtime.machine (fun r machine => { r with machine }) id x

/-- `finish_create`. -/
def finishCreate (reason : ExitReason) (address : Option H160) (returnData : Bytes) :
    EarlyExit ExitReason Runtime Unit := do
  update fun r => { r with returnDataBuffer := returnData }
  match reason with
  | .succeed _ => onMachine (Eval.push ((address.map wordOf).getD 0#256))
  | .revert _ => onMachine (Eval.push 0#256)
  | .error _ => onMachine (Eval.push 0#256)
  | .fatal e => do
    onMachine (Eval.push 0#256)
    exit (.fatal e)

/-- A copy into the memory whose failure is an answer. -/
def tryCopyLarge (memoryOffset len : U256) (data : Bytes) : EarlyExit ExitReason Runtime Bool :=
  fun r =>
    match r.machine.memory.copyLarge memoryOffset 0#256 len data with
    | (.ok (), memory) => (.ok true, { r with machine := { r.machine with memory } })
    | (.error _, memory) => (.ok false, { r with machine := { r.machine with memory } })

/-- `finish_call`. -/
def finishCall (outLen outOffset : U256) (reason : ExitReason) (returnData : Bytes) :
    EarlyExit ExitReason Runtime Unit := do
  update fun r => { r with returnDataBuffer := returnData }
  let targetLen :=
    if outLen.toNat ≤ returnData.length then outLen else BitVec.ofNat 256 returnData.length
  match reason with
  | .succeed _ => do
    let copied ← tryCopyLarge outOffset targetLen returnData
    onMachine (Eval.push (boolWord copied))
  | .revert _ => do
    onMachine (Eval.push 0#256)
    let _ ← tryCopyLarge outOffset targetLen returnData
    pure ()
  | .error _ => onMachine (Eval.push 0#256)
  | .fatal e => do
    onMachine (Eval.push 0#256)
    exit (.fatal e)

end Runtime

namespace RuntimeEval

variable {H I : Type}

/-- A program of the runtime alone. -/
def onRuntime {α : Type} (x : EarlyExit ExitReason Runtime α) : RuntimeEval H α :=
  zoom (fun t => t.1) (fun t r => (r, t.2)) id x

section Calls

variable (keccak256 : Bytes → H256) (h : Handler H I)

/-- The request that `create` reads from the stack and the memory: the value, the code and the salt
of a `CREATE2`. -/
def createRequest (isCreate2 : Bool) : Eval (U256 × Bytes × Option H256) := do
  let value ← Eval.pop
  let codeOffset ← Eval.pop
  let len ← Eval.pop
  Eval.resizeOffset codeOffset len
  let code ← bytesAt codeOffset len
  if isCreate2 then
    let salt ← Eval.pop
    pure (value, code, some salt)
  else pure (value, code, none)

/-- `create`. -/
def create (isCreate2 : Bool) : RuntimeEval H (RuntimeControl I) := do
  update fun t => ({ t.1 with returnDataBuffer := [] }, t.2)
  let (value, code, salt) ← onMachine (createRequest isCreate2)
  let address ← read fun t => t.1.context.address
  let scheme : CreateScheme :=
    match salt with
    | some salt => .create2 address (keccak256 code) salt
    | none => .legacy address
  let capture ← fun t =>
    let (capture, s) := h.create address scheme value code none t.2
    (.ok capture, (t.1, s))
  match capture with
  | .exit (reason, address, returnData) =>
    onRuntime (Runtime.finishCreate reason address returnData)
    pure .continue
  | .trap interrupt => pure (.interrupt interrupt)

/-- What `call` reads from the stack and the memory. -/
structure CallRequest where
  gas : Option Nat
  target : H160
  value : U256
  outOffset : U256
  outLen : U256
  input : Bytes

/-- The value of a call, which only a `CALL` and a `CALLCODE` have on the stack. -/
def callValue : CallScheme → Eval U256
  | .call | .callCode => Eval.pop
  | .delegateCall | .staticCall => pure 0#256

/-- The request of a call. -/
def callRequest (scheme : CallScheme) : Eval CallRequest := do
  let gas ← Eval.pop
  let target ← Eval.pop
  let gas := if u64Max < gas.toNat then none else some gas.toNat
  let value ← callValue scheme
  let inOffset ← Eval.pop
  let inLen ← Eval.pop
  let outOffset ← Eval.pop
  let outLen ← Eval.pop
  Eval.resizeOffset inOffset inLen
  Eval.resizeOffset outOffset outLen
  let input ← bytesAt inOffset inLen
  pure ⟨gas, addressOf target, value, outOffset, outLen, input⟩

/-- The context of a call. -/
def callContext (scheme : CallScheme) (context : Context) (target : H160) (value : U256) :
    Context :=
  match scheme with
  | .call | .staticCall => ⟨target, context.address, value⟩
  | .callCode => ⟨context.address, context.address, value⟩
  | .delegateCall => ⟨context.address, context.caller, context.apparentValue⟩

/-- The transfer of a call. -/
def callTransfer (scheme : CallScheme) (context : Context) (target : H160) (value : U256) :
    Option Transfer :=
  match scheme with
  | .call => some ⟨context.address, target, value⟩
  | .callCode => some ⟨context.address, context.address, value⟩
  | .delegateCall | .staticCall => none

/-- `call`. -/
def call (scheme : CallScheme) : RuntimeEval H (RuntimeControl I) := do
  update fun t => ({ t.1 with returnDataBuffer := [] }, t.2)
  let request ← onMachine (callRequest scheme)
  let context ← read fun t => t.1.context
  let capture ← fun t =>
    let (capture, s) :=
      h.call request.target (callTransfer scheme context request.target request.value)
      request.input request.gas (scheme = .staticCall)
      (callContext scheme context request.target request.value) t.2
    (.ok capture, (t.1, s))
  match capture with
  | .exit (reason, returnData) =>
    onRuntime (Runtime.finishCall request.outLen request.outOffset reason returnData)
    pure .continue
  | .trap interrupt =>
    update fun t =>
      ({ t.1 with returnDataLen := request.outLen, returnDataOffset := request.outOffset }, t.2)
    pure (.interrupt interrupt)

/-- `eval` of the runtime; a byte that is no opcode is an error of the handler. -/
def table (opcode : Opcode) : RuntimeEval H (RuntimeControl I) :=
  match decode opcode with
  | .sha3 => sha3 keccak256
  | .query q => query h q
  | .balance => accountQuery h.balance
  | .extcodesize => accountQuery h.codeSize
  | .extcodehash => accountQuery h.codeHash
  | .extcodecopy => extcodecopy h
  | .returndatacopy => returndatacopy
  | .blockhash => blockhash h
  | .sload => sload h
  | .sstore => sstore h
  | .log n => log h n
  | .suicide => suicide h
  | .create isCreate2 => create keccak256 h isCreate2
  | .call scheme => call h scheme
  | _ => exit (.error (.invalidCode opcode))

end Calls

end RuntimeEval

namespace Runtime

variable {H I : Type} (keccak256 : Bytes → H256) (h : Handler H I)

/-- The check of the handler before an instruction; an error is the status of the runtime. -/
def preStep (r : Runtime) (s : H) : Runtime × H :=
  match r.machine.inspect with
  | none => (r, s)
  | some (opcode, stack) =>
    match h.preValidate r.context opcode stack s with
    | (.ok (), s) => (r, s)
    | (.error e, s) =>
      ({ r with machine := r.machine.exit (.error e), status := .error (.error e) }, s)

/-- An exit: the machine and the status keep the reason. -/
def exitWith (r : Runtime) (reason : ExitReason) : Runtime :=
  { r with machine := r.machine.exit reason, status := .error reason }

/-- `Runtime::step`, which is also the body of the loop of `Runtime::run`. -/
def step (r : Runtime) (s : H) : Except (Capture ExitReason I) Unit × Runtime × H :=
  let (r, s) := r.preStep h s
  match r.status with
  | .error e => (.error (.exit e), r, s)
  | .ok () =>
    match r.machine.step with
    | (.ok (), machine) => (.ok (), { r with machine }, s)
    | (.error (.exit e), machine) => (.error (.exit e), { r with machine, status := .error e }, s)
    | (.error (.trap opcode), machine) =>
      match RuntimeEval.table keccak256 h opcode ({ r with machine }, s) with
      | (.ok .continue, r, s) => (.ok (), r, s)
      | (.ok (.interrupt interrupt), r, s) => (.error (.trap interrupt), r, s)
      | (.error reason, r, s) => (.error (.exit reason), r.exitWith reason, s)

end Runtime

end Chase.Vm
