import Chase.Evm.Substate
import Chase.Vm.Config
import Chase.Vm.Machine
import Mathlib.Data.Nat.Bits

/-!
# The gasometer

A gasometer meters one call: what was used so far, what the memory has cost, and the refunds. It
fails once and stays failed. Gas is an `u64`, which wraps in a release build (`u64`); the refunds
are an integer.

The cost of an instruction is fixed (`staticOpcodeCost`) or depends on the stack and the state
(`dynamicOpcodeCost`); an instruction that reads or writes memory also pays for the range it touches
(`MemoryCost`).
-/

namespace Chase.Vm

open EarlyExit

/-- The value of an `u64` after a wrapping operation. -/
def u64 (n : Nat) : Nat := n % 2 ^ 64

/-- A wrapping subtraction of an `u64`. -/
def subU64 (a b : Nat) : Nat := u64 (a + 2 ^ 64 - b)

/-- `u64::MAX`. -/
def u64Max : Nat := 2 ^ 64 - 1

/-! ## Constants -/

def gZero : Nat := 0
def gBase : Nat := 2
def gVerylow : Nat := 3
def gLow : Nat := 5
def gMid : Nat := 8
def gHigh : Nat := 10
def gJumpdest : Nat := 1
def rSuicide : Int := 24000
def gCreate : Nat := 32000
def gCallvalue : Nat := 9000
def gNewaccount : Nat := 25000
def gExp : Nat := 10
def gMemory : Nat := 3
def gLog : Nat := 375
def gLogdata : Nat := 8
def gLogtopic : Nat := 375
def gSha3 : Nat := 30
def gSha3word : Nat := 6
def gCopy : Nat := 3
def gBlockhash : Nat := 20
def gCodedeposit : Nat := 200

/-! ## What is paid for -/

/-- `GasCost`. -/
inductive GasCost where
  | zero
  | base
  | veryLow
  | low
  | invalid (opcode : Opcode)
  | extCodeSize (targetIsCold : Bool)
  | balance (targetIsCold : Bool)
  | blockHash
  | extCodeHash (targetIsCold : Bool)
  | call (value gas : U256) (targetIsCold targetExists : Bool)
  | callCode (value gas : U256) (targetIsCold targetExists : Bool)
  | delegateCall (gas : U256) (targetIsCold targetExists : Bool)
  | staticCall (gas : U256) (targetIsCold targetExists : Bool)
  | suicide (value : U256) (targetIsCold targetExists alreadyRemoved : Bool)
  | sStore (original current new : H256) (targetIsCold : Bool)
  | sha3 (len : U256)
  | log (n : Nat) (len : U256)
  | extCodeCopy (targetIsCold : Bool) (len : U256)
  | veryLowCopy (len : U256)
  | exp (power : U256)
  | create
  | create2 (len : U256)
  | sLoad (targetIsCold : Bool)
  deriving DecidableEq, Repr

/-- `StorageTarget`. -/
inductive StorageTarget where
  | none
  | address (a : H160)
  | slot (s : Slot)
  deriving DecidableEq, Repr

/-- `MemoryCost`. -/
structure MemoryCost where
  offset : U256
  len : U256
  deriving DecidableEq, Repr

/-- `MemoryCost::join`: the range that ends later. -/
def MemoryCost.join (c other : MemoryCost) : MemoryCost :=
  if c.len = 0#256 then other
  else if other.len = 0#256 then c
  else
    let selfEnd := saturatingAdd c.offset c.len
    let otherEnd := saturatingAdd other.offset other.len
    if otherEnd ≤ selfEnd then c else other

/-- `TransactionCost`. -/
inductive TransactionCost where
  | call (zeroDataLen nonZeroDataLen accessListAddressLen accessListStorageLen : Nat)
  | create (zeroDataLen nonZeroDataLen accessListAddressLen accessListStorageLen initcodeCost : Nat)
  deriving DecidableEq, Repr

/-! ## Costs -/

section Costs

variable (config : Config)

/-- `call_extra_check`. -/
def callExtraCheck (gas : U256) (afterGas : Nat) : Except ExitError Unit :=
  if config.errOnCallWithMoreGas ∧ afterGas < gas.toNat then .error .outOfGas else .ok ()

/-- `suicide_refund`. -/
def suicideRefund (alreadyRemoved : Bool) : Int := if alreadyRemoved then 0 else rSuicide

/-- `sstore_refund`. -/
def sstoreRefund (original current new : H256) : Int :=
  if config.sstoreGasMetering then
    if current = new then 0
    else if original = current ∧ new = 0#256 then config.refundSstoreClears
    else
      let refund : Int :=
        if original ≠ 0#256 then
          if current = 0#256 then -config.refundSstoreClears
          else if new = 0#256 then config.refundSstoreClears
          else 0
        else 0
      if original = new then
        if original = 0#256 then refund + (config.gasSstoreSet - config.gasSload)
        else refund + (config.gasSstoreReset - config.gasSload)
      else refund
  else if current ≠ 0#256 ∧ new = 0#256 then config.refundSstoreClears
  else 0

/-- A cost that is checked to be an `u64`. -/
def checkU64 (gas : Nat) : Except ExitError Nat :=
  if u64Max < gas then .error .outOfGas else .ok gas

/-- `base` and `perWord` for every 32 bytes: `create2_cost`, `verylowcopy_cost`, `extcodecopy_cost`
and `sha3_cost`. The checked operations on words do not fail before the last check. -/
def wordCost (base perWord : Nat) (len : U256) : Except ExitError Nat :=
  let words := len.toNat / 32 + if len.toNat % 32 = 0 then 0 else 1
  if 2 ^ 256 ≤ perWord * words then .error .outOfGas
  else if 2 ^ 256 ≤ base + perWord * words then .error .outOfGas
  else checkU64 (base + perWord * words)

/-- `create2_cost`. -/
def create2Cost (len : U256) : Except ExitError Nat := wordCost gCreate gSha3word len

/-- The bits of a limb above its highest one. -/
def leadingZeros (limb : Nat) : Nat := 64 - limb.size

/-- The loop of `log2floor` over the limbs from the highest one. -/
def log2floorLoop : Nat → List Nat → Nat
  | l, [] => l
  | l, limb :: limbs =>
    if limb = 0 then log2floorLoop (l - 64) limbs
    else
      let l := l - leadingZeros limb
      if l = 0 then l else l - 1

/-- `log2floor`, of a word that is not zero. -/
def log2floor (value : U256) : Nat :=
  log2floorLoop 256 ([3, 2, 1, 0].map fun i => value.toNat / 2 ^ (64 * i) % 2 ^ 64)

/-- `exp_cost`. -/
def expCost (power : U256) : Except ExitError Nat :=
  if power = 0#256 then .ok gExp
  else
    let gas := gExp + config.gasExpbyte * (log2floor power / 8 + 1)
    if 2 ^ 256 ≤ gas then .error .outOfGas else checkU64 gas

/-- `verylowcopy_cost`. -/
def verylowcopyCost (len : U256) : Except ExitError Nat := wordCost gVerylow gCopy len

/-- `address_access_cost`. -/
def addressAccessCost (isCold : Bool) (regularValue : Nat) : Nat :=
  if config.increaseStateAccessGas then
    if isCold then config.gasAccountAccessCold else config.gasStorageReadWarm
  else regularValue

/-- `extcodecopy_cost`. -/
def extcodecopyCost (len : U256) (isCold : Bool) : Except ExitError Nat :=
  wordCost (addressAccessCost config isCold config.gasExtCode) gCopy len

/-- `log_cost`. -/
def logCost (n : Nat) (len : U256) : Except ExitError Nat :=
  if 2 ^ 256 ≤ gLogdata * len.toNat then .error .outOfGas
  else if 2 ^ 256 ≤ gLog + gLogdata * len.toNat then .error .outOfGas
  else if 2 ^ 256 ≤ gLog + gLogdata * len.toNat + gLogtopic * n then .error .outOfGas
  else checkU64 (gLog + gLogdata * len.toNat + gLogtopic * n)

/-- `sha3_cost`. -/
def sha3Cost (len : U256) : Except ExitError Nat := wordCost gSha3 gSha3word len

/-- `sload_cost`. -/
def sloadCost (isCold : Bool) : Nat :=
  if config.increaseStateAccessGas then
    if isCold then config.gasSloadCold else config.gasStorageReadWarm
  else config.gasSload

/-- The part of `sstore_cost` without the access of a cold slot. -/
def sstoreBaseCost (original current new : H256) (gas : Nat) : Except ExitError Nat :=
  if config.estimate then .ok config.gasSstoreSet
  else if config.sstoreGasMetering then
    if config.sstoreRevertUnderStipend ∧ gas ≤ config.callStipend then .error .outOfGas
    else if new = current then .ok config.gasSload
    else if original = current then
      if original = 0#256 then .ok config.gasSstoreSet else .ok config.gasSstoreReset
    else .ok config.gasSload
  else if current = 0#256 ∧ new ≠ 0#256 then .ok config.gasSstoreSet
  else .ok config.gasSstoreReset

/-- `sstore_cost`. -/
def sstoreCost (original current new : H256) (gas : Nat) (isCold : Bool) : Except ExitError Nat :=
  (sstoreBaseCost config original current new gas).map fun cost =>
    if isCold then cost + config.gasSloadCold else cost

/-- `suicide_cost`. -/
def suicideCost (value : U256) (isCold targetExists : Bool) : Nat :=
  let eip161 := !config.emptyConsideredExists
  let shouldChargeTopup := if eip161 then value ≠ 0#256 ∧ !targetExists else !targetExists
  config.gasSuicide + (if shouldChargeTopup then config.gasSuicideNewAccount else 0) +
    if config.increaseStateAccessGas && isCold then config.gasAccountAccessCold else 0

/-- `xfer_cost`. -/
def xferCost (isCallOrCallcode transfersValue : Bool) : Nat :=
  if isCallOrCallcode && transfersValue then gCallvalue else 0

/-- `new_cost`. -/
def newCost (isCallOrStaticcall newAccount transfersValue : Bool) : Nat :=
  let eip161 := !config.emptyConsideredExists
  if isCallOrStaticcall then
    if eip161 then if transfersValue && newAccount then gNewaccount else 0
    else if newAccount then gNewaccount
    else 0
  else 0

/-- `call_cost`. -/
def callCost (value : U256) (isCold isCallOrCallcode isCallOrStaticcall newAccount : Bool) : Nat :=
  let transfersValue := value ≠ 0#256
  addressAccessCost config isCold config.gasCall + xferCost isCallOrCallcode transfersValue +
    newCost config isCallOrStaticcall newAccount transfersValue

/-- `memory::memory_gas`. -/
def memoryGas (a : Nat) : Except ExitError Nat :=
  if u64Max < gMemory * a then .error .outOfGas
  else if u64Max < a * a then .error .outOfGas
  else if u64Max < gMemory * a + a * a / 512 then .error .outOfGas
  else .ok (gMemory * a + a * a / 512)

end Costs

/-! ## The gasometer -/

/-- `Inner`. -/
structure Inner where
  memoryGas : Nat := 0
  usedGas : Nat := 0
  refundedGas : Int := 0
  deriving DecidableEq, Repr

/-- `Gasometer`. -/
structure Gasometer where
  gasLimit : Nat
  inner : Except ExitError Inner := .ok {}

namespace Inner

variable (config : Config) (i : Inner)

/-- `Inner::memory_gas`. -/
def memoryGasFor (memory : MemoryCost) : Except ExitError Nat :=
  if memory.len = 0#256 then .ok i.memoryGas
  else
    match checkedAdd memory.offset memory.len with
    | none => .error .outOfGas
    | some finish =>
      if usizeMax < finish.toNat then .error .outOfGas
      else
        let new := if finish.toNat % 32 = 0 then finish.toNat / 32 else finish.toNat / 32 + 1
        (Vm.memoryGas new).map (max i.memoryGas)

/-- The gas of the memory after an instruction with this range. -/
def memoryAfter (memory : Option MemoryCost) : Except ExitError Nat :=
  match memory with
  | some memory => i.memoryGasFor memory
  | none => .ok i.memoryGas

/-- `extra_check`. -/
def extraCheck (cost : GasCost) (afterGas : Nat) : Except ExitError Unit :=
  match cost with
  | .call _ gas _ _ | .callCode _ gas _ _ | .delegateCall gas _ _ | .staticCall gas _ _ =>
    callExtraCheck config gas afterGas
  | _ => .ok ()

/-- `Inner::gas_cost`. -/
def gasCost (cost : GasCost) (gas : Nat) : Except ExitError Nat :=
  match cost with
  | .call value _ isCold targetExists => .ok (callCost config value isCold true true !targetExists)
  | .callCode value _ isCold targetExists =>
    .ok (callCost config value isCold true false !targetExists)
  | .delegateCall _ isCold targetExists =>
    .ok (callCost config 0#256 isCold false false !targetExists)
  | .staticCall _ isCold targetExists =>
    .ok (callCost config 0#256 isCold false true !targetExists)
  | .suicide value isCold targetExists _ => .ok (suicideCost config value isCold targetExists)
  | .sStore original current new isCold => sstoreCost config original current new gas isCold
  | .sha3 len => sha3Cost len
  | .log n len => logCost n len
  | .veryLowCopy len => verylowcopyCost len
  | .exp power => expCost config power
  | .create => .ok gCreate
  | .create2 len => create2Cost len
  | .sLoad isCold => .ok (sloadCost config isCold)
  | .zero => .ok gZero
  | .base => .ok gBase
  | .veryLow => .ok gVerylow
  | .low => .ok gLow
  | .invalid opcode => .error (.invalidCode opcode)
  | .extCodeSize isCold => .ok (addressAccessCost config isCold config.gasExtCode)
  | .extCodeCopy isCold len => extcodecopyCost config len isCold
  | .balance isCold => .ok (addressAccessCost config isCold config.gasBalance)
  | .blockHash => .ok gBlockhash
  | .extCodeHash isCold => .ok (addressAccessCost config isCold config.gasExtCodeHash)

/-- `gas_refund`. -/
def gasRefund (cost : GasCost) : Int :=
  if config.estimate then 0
  else
    match cost with
    | .sStore original current new _ => sstoreRefund config original current new
    | .suicide _ _ _ alreadyRemoved =>
      if config.decreaseClearsRefund then 0 else suicideRefund alreadyRemoved
    | _ => 0

end Inner

namespace Gasometer

variable (config : Config) (g : Gasometer)

/-- `gas`: what remains. -/
def gas : Nat :=
  match g.inner with
  | .ok i => subU64 (subU64 g.gasLimit i.usedGas) i.memoryGas
  | .error _ => 0

/-- `total_used_gas`. -/
def totalUsedGas : Nat :=
  match g.inner with
  | .ok i => u64 (i.usedGas + i.memoryGas)
  | .error _ => g.gasLimit

/-- `refunded_gas`. -/
def refundedGas : Int :=
  match g.inner with
  | .ok i => i.refundedGas
  | .error _ => 0

/-- `fail`. -/
def fail : Gasometer := { g with inner := .error .outOfGas }

/-- An update of the meter, which a failed gasometer refuses (`inner_mut()?`). -/
def update (f : Inner → Inner) : Except ExitError Unit × Gasometer :=
  match g.inner with
  | .ok i => (.ok (), { g with inner := .ok (f i) })
  | .error e => (.error e, g)

/-- `record_cost`. -/
def recordCost (cost : Nat) : Except ExitError Unit × Gasometer :=
  if g.gasLimit < u64 (g.totalUsedGas + cost) then (.error .outOfGas, g.fail)
  else g.update fun i => { i with usedGas := u64 (i.usedGas + cost) }

/-- `record_refund`. -/
def recordRefund (refund : Int) : Except ExitError Unit × Gasometer :=
  g.update fun i => { i with refundedGas := i.refundedGas + refund }

/-- `record_deposit`. -/
def recordDeposit (len : Nat) : Except ExitError Unit × Gasometer :=
  g.recordCost (u64 (len * gCodedeposit))

/-- `record_stipend`. -/
def recordStipend (stipend : Nat) : Except ExitError Unit × Gasometer :=
  g.update fun i => { i with usedGas := subU64 i.usedGas stipend }

/-- A failure that the gasometer keeps (`try_or_fail!`). -/
def failWith (e : ExitError) : Except ExitError Unit × Gasometer :=
  (.error e, { g with inner := .error e })

/-- `record_dynamic_cost`. -/
def recordDynamicCost (cost : GasCost) (memory : Option MemoryCost) :
    Except ExitError Unit × Gasometer :=
  match g.inner with
  | .error e => (.error e, g)
  | .ok i =>
    match i.memoryAfter memory with
    | .error e => g.failWith e
    | .ok memoryGas =>
      match Inner.gasCost config cost g.gas with
      | .error e => g.failWith e
      | .ok gasCost =>
        let allGasCost := u64 (u64 (memoryGas + i.usedGas) + gasCost)
        if g.gasLimit < allGasCost then g.failWith .outOfGas
        else
          match Inner.extraCheck config cost (g.gasLimit - allGasCost) with
          | .error e => g.failWith e
          | .ok () =>
            (.ok (),
              { g with
                inner := .ok
                  { memoryGas, usedGas := u64 (i.usedGas + gasCost),
                    refundedGas := i.refundedGas + Inner.gasRefund config cost } })

/-- The cost in `record_transaction`. -/
def transactionCost : TransactionCost → Nat
  | .call zeroDataLen nonZeroDataLen accessListAddressLen accessListStorageLen =>
    u64 (config.gasTransactionCall + zeroDataLen * config.gasTransactionZeroData +
      nonZeroDataLen * config.gasTransactionNonZeroData +
      accessListAddressLen * config.gasAccessListAddress +
      accessListStorageLen * config.gasAccessListStorageKey)
  | .create zeroDataLen nonZeroDataLen accessListAddressLen accessListStorageLen initcodeCost =>
    u64 (config.gasTransactionCreate + zeroDataLen * config.gasTransactionZeroData +
      nonZeroDataLen * config.gasTransactionNonZeroData +
      accessListAddressLen * config.gasAccessListAddress +
      accessListStorageLen * config.gasAccessListStorageKey +
      if config.maxInitcodeSize.isSome then initcodeCost else 0)

/-- `record_transaction`. -/
def recordTransaction (cost : TransactionCost) : Except ExitError Unit × Gasometer :=
  if g.gas < transactionCost config cost then g.failWith .outOfGas
  else g.update fun i => { i with usedGas := u64 (i.usedGas + transactionCost config cost) }

end Gasometer

/-! ## Opcodes -/

/-- `static_opcode_cost`. -/
def staticOpcodeCost (opcode : Opcode) : Option Nat :=
  match decode opcode with
  | .stop => some gZero
  | .calldatasize | .codesize | .pop | .pc | .msize => some gBase
  | .query q =>
    match q with
    | .address | .origin | .caller | .callvalue | .coinbase | .timestamp | .number | .difficulty
    | .gaslimit | .gasprice | .gas => some gBase
    | .selfbalance | .basefee | .returndatasize | .chainid => none
  | .op1 _ | .calldataload | .dup _ | .swap _ => some gVerylow
  | .push n => if n = 0 then none else some gVerylow
  | .op2 f =>
    match f with
    | .add | .sub | .lt | .gt | .slt | .sgt | .eq | .and | .or | .xor | .byte => some gVerylow
    | .mul | .div | .sdiv | .mod | .smod | .signextend => some gLow
    | .exp | .shl | .shr | .sar => none
  | .op3 _ | .jump => some gMid
  | .jumpi => some gHigh
  | .jumpdest => some gJumpdest
  | _ => none

/-- What the gasometer and the runtime ask of the state (`Handler`, without calls). -/
structure StateHandler (H : Type) where
  vicinity : Vicinity
  balance : H → H160 → U256
  codeSize : H → H160 → U256
  codeHash : H → H160 → H256
  code : H → H160 → Bytes
  storage : Slot → EarlyExit ExitError H H256
  originalStorage : Slot → EarlyExit ExitError H H256
  gasLeft : H → U256
  «exists» : H → H160 → Bool
  deleted : H → H160 → Bool
  isCold : H160 → Option H256 → EarlyExit ExitError H Bool
  setStorage : Slot → H256 → EarlyExit ExitError H Unit
  log : Log → EarlyExit ExitError H Unit
  markDelete : H160 → H160 → EarlyExit ExitError H Unit

section Dynamic

variable {H : Type} (h : StateHandler H) (config : Config) (address : H160) (opcode : Opcode)
  (stack : Stack) (isStatic : Bool)

/-- `stack.peek(n)?`. -/
def peekWord (n : Nat) : EarlyExit ExitError H H256 := fun s => (stack.peek n, s)

/-- A cost that names an account: the account is the target. -/
def accountCost (n : Nat) (cost : Bool → GasCost) :
    EarlyExit ExitError H (GasCost × StorageTarget) := do
  let target ← peekWord stack n
  let isCold ← h.isCold (addressOf target) none
  pure (cost isCold, .address (addressOf target))

/-- The cost of a call: the target is the second word of the stack. -/
def callGasCost (value : Bool) (cost : U256 → U256 → Bool → Bool → GasCost) :
    EarlyExit ExitError H (GasCost × StorageTarget) := do
  let target ← peekWord stack 1
  let value ← if value then peekWord stack 2 else pure 0#256
  let gas ← peekWord stack 0
  let isCold ← h.isCold (addressOf target) none
  let targetExists ← read fun s => h.exists s (addressOf target)
  pure (cost value gas isCold targetExists, .address (addressOf target))

/-- A cost without a target. -/
def plainCost (cost : GasCost) : EarlyExit ExitError H (GasCost × StorageTarget) :=
  pure (cost, .none)

/-- A cost that depends on a length on the stack. -/
def lengthCost (n : Nat) (cost : U256 → GasCost) :
    EarlyExit ExitError H (GasCost × StorageTarget) := do
  let len ← peekWord stack n
  plainCost (cost len)

/-- The cost of a switched instruction. -/
def switched (enabled : Bool) (cost : GasCost) : EarlyExit ExitError H (GasCost × StorageTarget) :=
  plainCost (if enabled then cost else .invalid opcode)

/-- The first `match` of `dynamic_opcode_cost`. -/
def dynamicGasCost : EarlyExit ExitError H (GasCost × StorageTarget) :=
  match decode opcode with
  | .ret => plainCost .zero
  | .mload | .mstore | .mstore8 => plainCost .veryLow
  | .revert => switched opcode config.hasRevert .zero
  | .query .chainid => switched opcode config.hasChainId .base
  | .op2 .shl | .op2 .shr | .op2 .sar => switched opcode config.hasBitwiseShifting .veryLow
  | .query .selfbalance => switched opcode config.hasSelfBalance .low
  | .query .basefee => switched opcode config.hasBaseFee .base
  | .extcodesize => accountCost h stack 0 .extCodeSize
  | .balance => accountCost h stack 0 .balance
  | .blockhash => plainCost .blockHash
  | .extcodehash =>
    if config.hasExtCodeHash then accountCost h stack 0 .extCodeHash
    else plainCost (.invalid opcode)
  | .call .callCode => callGasCost h stack true .callCode
  | .call .staticCall => callGasCost h stack false fun _ => .staticCall
  | .sha3 => lengthCost stack 1 .sha3
  | .extcodecopy => do
    let target ← peekWord stack 0
    let isCold ← h.isCold (addressOf target) none
    let len ← peekWord stack 3
    pure (.extCodeCopy isCold len, .address (addressOf target))
  | .calldatacopy | .codecopy => lengthCost stack 2 .veryLowCopy
  | .op2 .exp => lengthCost stack 1 .exp
  | .sload => do
    let index ← peekWord stack 0
    let isCold ← h.isCold address (some index)
    pure (.sLoad isCold, .slot (address, index))
  | .call .delegateCall =>
    if config.hasDelegateCall then callGasCost h stack false fun _ => .delegateCall
    else plainCost (.invalid opcode)
  | .query .returndatasize => switched opcode config.hasReturnData .base
  | .returndatacopy =>
    if config.hasReturnData then lengthCost stack 2 .veryLowCopy
    else plainCost (.invalid opcode)
  | .sstore =>
    if !isStatic then do
      let index ← peekWord stack 0
      let value ← peekWord stack 1
      let original ← h.originalStorage (address, index)
      let current ← h.storage (address, index)
      let isCold ← h.isCold address (some index)
      pure (.sStore original current value isCold, .slot (address, index))
    else plainCost (.invalid opcode)
  | .log n => if !isStatic then lengthCost stack 1 (.log n) else plainCost (.invalid opcode)
  | .create isCreate2 =>
    if !isStatic ∧ !isCreate2 then plainCost .create
    else if !isStatic ∧ config.hasCreate2 then lengthCost stack 2 .create2
    else plainCost (.invalid opcode)
  | .suicide =>
    if !isStatic then do
      let target ← peekWord stack 0
      let value ← read fun s => h.balance s address
      let isCold ← h.isCold (addressOf target) none
      let targetExists ← read fun s => h.exists s (addressOf target)
      let alreadyRemoved ← read fun s => h.deleted s address
      pure (.suicide value isCold targetExists alreadyRemoved, .address (addressOf target))
    else plainCost (.invalid opcode)
  | .call .call =>
    if !isStatic then callGasCost h stack true .call
    else do
      let value ← peekWord stack 2
      if value = 0#256 then callGasCost h stack true .call else plainCost (.invalid opcode)
  | .push 0 => switched opcode config.hasPush0 .base
  | _ => plainCost (.invalid opcode)

/-- A range whose offset and length are on the stack. -/
def memoryRange (offset len : Nat) : EarlyExit ExitError H MemoryCost := do
  let offset ← peekWord stack offset
  let len ← peekWord stack len
  pure ⟨offset, len⟩

/-- The cost of one range. -/
def oneRange (offset len : Nat) : EarlyExit ExitError H (Option MemoryCost) := do
  let range ← memoryRange stack offset len
  pure (some range)

/-- A range whose offset is on top of the stack. -/
def memoryWord (len : U256) : EarlyExit ExitError H (Option MemoryCost) := do
  let offset ← peekWord stack 0
  pure (some ⟨offset, len⟩)

/-- The second `match` of `dynamic_opcode_cost`. -/
def dynamicMemoryCost : EarlyExit ExitError H (Option MemoryCost) :=
  match decode opcode with
  | .sha3 | .ret | .revert | .log _ => oneRange stack 0 1
  | .codecopy | .calldatacopy | .returndatacopy => oneRange stack 0 2
  | .extcodecopy => oneRange stack 1 3
  | .mload | .mstore => memoryWord stack 32#256
  | .mstore8 => memoryWord stack 1#256
  | .create _ => oneRange stack 1 2
  | .call .call | .call .callCode => do
    let input ← memoryRange stack 3 4
    let output ← memoryRange stack 5 6
    pure (some (input.join output))
  | .call .delegateCall | .call .staticCall => do
    let input ← memoryRange stack 2 3
    let output ← memoryRange stack 4 5
    pure (some (input.join output))
  | _ => pure none

/-- `dynamic_opcode_cost`. -/
def dynamicOpcodeCost : EarlyExit ExitError H (GasCost × StorageTarget × Option MemoryCost) := do
  let (gasCost, target) ← dynamicGasCost h config address opcode stack isStatic
  let memoryCost ← dynamicMemoryCost opcode stack
  pure (gasCost, target, memoryCost)

end Dynamic

/-! ## Transactions -/

/-- `init_code_cost`. -/
def initCodeCost (data : Bytes) : Nat := 2 * ((data.length + 31) / 32)

/-- `count_access_list`. -/
def countAccessList (accessList : List (H160 × List H256)) : Nat × Nat :=
  (accessList.length, (accessList.map fun e => e.2.length).sum)

/-- `call_transaction_cost`. -/
def callTransactionCost (data : Bytes) (accessList : List (H160 × List H256)) : TransactionCost :=
  let zeroDataLen := data.countP (· = 0)
  .call zeroDataLen (data.length - zeroDataLen) (countAccessList accessList).1
    (countAccessList accessList).2

/-- `create_transaction_cost`. -/
def createTransactionCost (data : Bytes) (accessList : List (H160 × List H256)) : TransactionCost :=
  let zeroDataLen := data.countP (· = 0)
  .create zeroDataLen (data.length - zeroDataLen) (countAccessList accessList).1
    (countAccessList accessList).2 (initCodeCost data)

end Chase.Vm
