import Chase.Vm.Memory

/-!
# Configuration and context

`Config` is the table of prices and switches of a hard fork; `forks` are the ones that a node can be
started with. `Context` and `Vicinity` are what a run of byte code knows about its call and its
block.
-/

namespace Chase.Vm

/-- `Config`. Gas is an `u64`, the refund of a cleared slot an `i64`. -/
structure Config where
  gasExtCode : Nat
  gasExtCodeHash : Nat
  gasSstoreSet : Nat
  gasSstoreReset : Nat
  refundSstoreClears : Int
  maxRefundQuotient : Nat
  gasBalance : Nat
  gasSload : Nat
  gasSloadCold : Nat
  gasSuicide : Nat
  gasSuicideNewAccount : Nat
  gasCall : Nat
  gasExpbyte : Nat
  gasTransactionCreate : Nat
  gasTransactionCall : Nat
  gasTransactionZeroData : Nat
  gasTransactionNonZeroData : Nat
  gasAccessListAddress : Nat
  gasAccessListStorageKey : Nat
  gasAccountAccessCold : Nat
  gasStorageReadWarm : Nat
  sstoreGasMetering : Bool
  sstoreRevertUnderStipend : Bool
  increaseStateAccessGas : Bool
  decreaseClearsRefund : Bool
  disallowExecutableFormat : Bool
  warmCoinbaseAddress : Bool
  errOnCallWithMoreGas : Bool
  callL64AfterGas : Bool
  emptyConsideredExists : Bool
  createIncreaseNonce : Bool
  stackLimit : Nat
  memoryLimit : Nat
  callStackLimit : Nat
  createContractLimit : Option Nat
  maxInitcodeSize : Option Nat
  callStipend : Nat
  hasDelegateCall : Bool
  hasCreate2 : Bool
  hasRevert : Bool
  hasReturnData : Bool
  hasBitwiseShifting : Bool
  hasChainId : Bool
  hasSelfBalance : Bool
  hasExtCodeHash : Bool
  hasBaseFee : Bool
  hasPush0 : Bool
  estimate : Bool

namespace Config

/-- `Config::frontier`. -/
def frontier : Config where
  gasExtCode := 20
  gasExtCodeHash := 20
  gasBalance := 20
  gasSload := 50
  gasSloadCold := 0
  gasSstoreSet := 20000
  gasSstoreReset := 5000
  refundSstoreClears := 15000
  maxRefundQuotient := 2
  gasSuicide := 0
  gasSuicideNewAccount := 0
  gasCall := 40
  gasExpbyte := 10
  gasTransactionCreate := 21000
  gasTransactionCall := 21000
  gasTransactionZeroData := 4
  gasTransactionNonZeroData := 68
  gasAccessListAddress := 0
  gasAccessListStorageKey := 0
  gasAccountAccessCold := 0
  gasStorageReadWarm := 0
  sstoreGasMetering := false
  sstoreRevertUnderStipend := false
  increaseStateAccessGas := false
  decreaseClearsRefund := false
  disallowExecutableFormat := false
  warmCoinbaseAddress := false
  errOnCallWithMoreGas := true
  emptyConsideredExists := true
  createIncreaseNonce := false
  callL64AfterGas := false
  stackLimit := 1024
  memoryLimit := usizeMax
  callStackLimit := 1024
  createContractLimit := none
  maxInitcodeSize := none
  callStipend := 2300
  hasDelegateCall := false
  hasCreate2 := false
  hasRevert := false
  hasReturnData := false
  hasBitwiseShifting := false
  hasChainId := false
  hasSelfBalance := false
  hasExtCodeHash := false
  hasBaseFee := false
  hasPush0 := false
  estimate := false

/-- `Config::istanbul`. -/
def istanbul : Config where
  gasExtCode := 700
  gasExtCodeHash := 700
  gasBalance := 700
  gasSload := 800
  gasSloadCold := 0
  gasSstoreSet := 20000
  gasSstoreReset := 5000
  refundSstoreClears := 15000
  maxRefundQuotient := 2
  gasSuicide := 5000
  gasSuicideNewAccount := 25000
  gasCall := 700
  gasExpbyte := 50
  gasTransactionCreate := 53000
  gasTransactionCall := 21000
  gasTransactionZeroData := 4
  gasTransactionNonZeroData := 16
  gasAccessListAddress := 0
  gasAccessListStorageKey := 0
  gasAccountAccessCold := 0
  gasStorageReadWarm := 0
  sstoreGasMetering := true
  sstoreRevertUnderStipend := true
  increaseStateAccessGas := false
  decreaseClearsRefund := false
  disallowExecutableFormat := false
  warmCoinbaseAddress := false
  errOnCallWithMoreGas := false
  emptyConsideredExists := false
  createIncreaseNonce := true
  callL64AfterGas := true
  stackLimit := 1024
  memoryLimit := usizeMax
  callStackLimit := 1024
  createContractLimit := some 0x6000
  maxInitcodeSize := none
  callStipend := 2300
  hasDelegateCall := true
  hasCreate2 := true
  hasRevert := true
  hasReturnData := true
  hasBitwiseShifting := true
  hasChainId := true
  hasSelfBalance := true
  hasExtCodeHash := true
  hasBaseFee := false
  hasPush0 := false
  estimate := false

/-- `DerivedConfigInputs`. -/
structure DerivedConfigInputs where
  gasStorageReadWarm : Nat := 100
  gasSloadCold : Nat := 2100
  gasAccessListStorageKey : Nat := 1900
  decreaseClearsRefund : Bool
  hasBaseFee : Bool
  hasPush0 : Bool
  disallowExecutableFormat : Bool
  warmCoinbaseAddress : Bool
  maxInitcodeSize : Option Nat

/-- `config_with_derived_values`. -/
def withDerivedValues (inputs : DerivedConfigInputs) : Config where
  gasExtCode := 0
  gasExtCodeHash := 0
  gasBalance := 0
  gasSload := inputs.gasStorageReadWarm
  gasSloadCold := inputs.gasSloadCold
  gasSstoreSet := 20000
  gasSstoreReset := 5000 - inputs.gasSloadCold
  refundSstoreClears :=
    if inputs.decreaseClearsRefund then
      (5000 - inputs.gasSloadCold + inputs.gasAccessListStorageKey : Nat)
    else 15000
  maxRefundQuotient := if inputs.decreaseClearsRefund then 5 else 2
  gasSuicide := 5000
  gasSuicideNewAccount := 25000
  gasCall := 0
  gasExpbyte := 50
  gasTransactionCreate := 53000
  gasTransactionCall := 21000
  gasTransactionZeroData := 4
  gasTransactionNonZeroData := 16
  gasAccessListAddress := 2400
  gasAccessListStorageKey := inputs.gasAccessListStorageKey
  gasAccountAccessCold := 2600
  gasStorageReadWarm := inputs.gasStorageReadWarm
  sstoreGasMetering := true
  sstoreRevertUnderStipend := true
  increaseStateAccessGas := true
  decreaseClearsRefund := inputs.decreaseClearsRefund
  disallowExecutableFormat := inputs.disallowExecutableFormat
  warmCoinbaseAddress := inputs.warmCoinbaseAddress
  errOnCallWithMoreGas := false
  emptyConsideredExists := false
  createIncreaseNonce := true
  callL64AfterGas := true
  stackLimit := 1024
  memoryLimit := usizeMax
  callStackLimit := 1024
  createContractLimit := some 0x6000
  maxInitcodeSize := inputs.maxInitcodeSize
  callStipend := 2300
  hasDelegateCall := true
  hasCreate2 := true
  hasRevert := true
  hasReturnData := true
  hasBitwiseShifting := true
  hasChainId := true
  hasSelfBalance := true
  hasExtCodeHash := true
  hasBaseFee := inputs.hasBaseFee
  hasPush0 := inputs.hasPush0
  estimate := false

/-- `Config::berlin`. -/
def berlin : Config :=
  withDerivedValues
    { decreaseClearsRefund := false, hasBaseFee := false, hasPush0 := false,
      disallowExecutableFormat := false, warmCoinbaseAddress := false, maxInitcodeSize := none }

/-- `Config::london`, and `Config::merge` with the same values. -/
def london : Config :=
  withDerivedValues
    { decreaseClearsRefund := true, hasBaseFee := true, hasPush0 := false,
      disallowExecutableFormat := true, warmCoinbaseAddress := false, maxInitcodeSize := none }

/-- `Config::shanghai`. -/
def shanghai : Config :=
  withDerivedValues
    { decreaseClearsRefund := true, hasBaseFee := true, hasPush0 := true,
      disallowExecutableFormat := true, warmCoinbaseAddress := true,
      maxInitcodeSize := some 0xC000 }

/-- The configurations that `ChainConfig::new` chooses from. -/
def forks : List Config := [frontier, istanbul, berlin, london, shanghai]

end Config

/-! ## Context -/

/-- `Context`. -/
structure Context where
  address : H160
  caller : H160
  apparentValue : U256
  deriving DecidableEq, Repr

/-- `CreateScheme`. -/
inductive CreateScheme where
  | legacy (caller : H160)
  | create2 (caller : H160) (codeHash salt : H256)
  | fixed (address : H160)
  deriving DecidableEq, Repr

/-- What the backend says about the block and the transaction. -/
structure Vicinity where
  gasPrice : U256
  origin : H160
  blockHash : U256 → H256
  blockNumber : U256
  blockCoinbase : H160
  blockTimestamp : U256
  blockDifficulty : U256
  blockRandomness : Option H256
  blockGasLimit : U256
  blockBaseFeePerGas : U256
  chainId : U256

/-- The address in a word (`From<H256> for H160`). -/
def addressOf (w : H256) : H160 := w.setWidth 160

/-- The word of an address (`From<H160> for H256`). -/
def wordOf (a : H160) : H256 := a.setWidth 256

end Chase.Vm
