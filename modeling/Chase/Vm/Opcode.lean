import Chase.Vm.Word

/-!
# Opcodes and exit reasons

An opcode is a byte. `decode` is the table of the source: which byte is which instruction. The
instructions that differ in one value only (the number of bytes that are pushed, the operator, the
word that is asked for) are one constructor with that value.
-/

namespace Chase.Vm

/-- `Opcode`. -/
abbrev Opcode := UInt8

/-- The instructions on one word. -/
inductive Op1 where
  | iszero
  | not
  deriving DecidableEq, Repr

/-- The instructions on two words. -/
inductive Op2 where
  | add
  | mul
  | sub
  | div
  | sdiv
  | mod
  | smod
  | exp
  | signextend
  | lt
  | gt
  | slt
  | sgt
  | eq
  | and
  | or
  | xor
  | byte
  | shl
  | shr
  | sar
  deriving DecidableEq, Repr

/-- The instructions on three words. -/
inductive Op3 where
  | addmod
  | mulmod
  deriving DecidableEq, Repr

/-- The instructions that push one word of the context, the block or the handler. -/
inductive Query where
  | address
  | selfbalance
  | origin
  | caller
  | callvalue
  | gasprice
  | basefee
  | returndatasize
  | coinbase
  | timestamp
  | number
  | difficulty
  | gaslimit
  | gas
  | chainid
  deriving DecidableEq, Repr

/-- `CallScheme`. -/
inductive CallScheme where
  | call
  | callCode
  | delegateCall
  | staticCall
  deriving DecidableEq, Repr

/-- The instruction of an opcode. -/
inductive Instruction where
  | stop
  | op1 (f : Op1)
  | op2 (f : Op2)
  | op3 (f : Op3)
  | sha3
  | query (q : Query)
  | balance
  | extcodesize
  | extcodehash
  | extcodecopy
  | blockhash
  | calldataload
  | calldatasize
  | calldatacopy
  | codesize
  | codecopy
  | returndatacopy
  | pop
  | mload
  | mstore
  | mstore8
  | sload
  | sstore
  | jump
  | jumpi
  | pc
  | msize
  | jumpdest
  | push (n : Nat)
  | dup (n : Nat)
  | swap (n : Nat)
  | log (n : Nat)
  | create (isCreate2 : Bool)
  | call (scheme : CallScheme)
  | ret
  | revert
  | suicide
  | invalid
  /-- A byte that is no opcode. -/
  | unknown
  deriving DecidableEq, Repr

/-- The opcodes that stand alone. -/
def opcodes : List (Nat × Instruction) :=
  [(0x00, .stop), (0x01, .op2 .add), (0x02, .op2 .mul), (0x03, .op2 .sub), (0x04, .op2 .div),
    (0x05, .op2 .sdiv), (0x06, .op2 .mod), (0x07, .op2 .smod), (0x08, .op3 .addmod),
    (0x09, .op3 .mulmod), (0x0a, .op2 .exp), (0x0b, .op2 .signextend), (0x10, .op2 .lt),
    (0x11, .op2 .gt), (0x12, .op2 .slt), (0x13, .op2 .sgt), (0x14, .op2 .eq), (0x15, .op1 .iszero),
    (0x16, .op2 .and), (0x17, .op2 .or), (0x18, .op2 .xor), (0x19, .op1 .not), (0x1a, .op2 .byte),
    (0x1b, .op2 .shl), (0x1c, .op2 .shr), (0x1d, .op2 .sar), (0x20, .sha3),
    (0x30, .query .address), (0x31, .balance), (0x32, .query .origin), (0x33, .query .caller),
    (0x34, .query .callvalue), (0x35, .calldataload), (0x36, .calldatasize), (0x37, .calldatacopy),
    (0x38, .codesize), (0x39, .codecopy), (0x3a, .query .gasprice), (0x3b, .extcodesize),
    (0x3c, .extcodecopy), (0x3d, .query .returndatasize), (0x3e, .returndatacopy),
    (0x3f, .extcodehash), (0x40, .blockhash), (0x41, .query .coinbase), (0x42, .query .timestamp),
    (0x43, .query .number), (0x44, .query .difficulty), (0x45, .query .gaslimit),
    (0x46, .query .chainid), (0x47, .query .selfbalance), (0x48, .query .basefee), (0x50, .pop),
    (0x51, .mload), (0x52, .mstore), (0x53, .mstore8), (0x54, .sload), (0x55, .sstore),
    (0x56, .jump), (0x57, .jumpi), (0x58, .pc), (0x59, .msize), (0x5a, .query .gas),
    (0x5b, .jumpdest), (0xf0, .create false), (0xf1, .call .call), (0xf2, .call .callCode),
    (0xf3, .ret), (0xf4, .call .delegateCall), (0xf5, .create true), (0xfa, .call .staticCall),
    (0xfd, .revert), (0xfe, .invalid), (0xff, .suicide)]

/-- The instruction of an opcode; `PUSH0` to `PUSH32`, `DUP1` to `DUP16`, `SWAP1` to `SWAP16` and
`LOG0` to `LOG4` are ranges. -/
def decode (opcode : Opcode) : Instruction :=
  let n := opcode.toNat
  match opcodes.lookup n with
  | some instruction => instruction
  | none =>
    if 0x5f ≤ n ∧ n ≤ 0x7f then .push (n - 0x5f)
    else if 0x80 ≤ n ∧ n ≤ 0x8f then .dup (n - 0x7f)
    else if 0x90 ≤ n ∧ n ≤ 0x9f then .swap (n - 0x8f)
    else if 0xa0 ≤ n ∧ n ≤ 0xa4 then .log (n - 0xa0)
    else .unknown

/-- `Opcode::JUMPDEST`. -/
def jumpdest : Opcode := 0x5b

/-- `Opcode::EOFMAGIC`. -/
def eofmagic : Opcode := 0xef

/-- `is_push`, which does not count `PUSH0`. -/
def isPush (opcode : Opcode) : Option Nat :=
  if 0x60 ≤ opcode.toNat ∧ opcode.toNat ≤ 0x7f then some (opcode.toNat - 0x60 + 1) else none

theorem forall_opcode {P : Opcode → Prop} (h : ∀ n : Fin 256, P (UInt8.ofFin n)) (o : Opcode) :
    P o :=
  h o.toFin

/-- The immediate bytes of an instruction. -/
def Instruction.immediate : Instruction → Nat
  | .push n => n
  | _ => 0

theorem isPush_getD (o : Opcode) : (isPush o).getD 0 = (decode o).immediate :=
  forall_opcode (P := fun o => (isPush o).getD 0 = (decode o).immediate) (by decide +kernel) o

/-- There is one opcode of `JUMPDEST`. -/
theorem decode_eq_jumpdest_iff (o : Opcode) : decode o = .jumpdest ↔ o = jumpdest :=
  forall_opcode (P := fun o => decode o = .jumpdest ↔ o = jumpdest) (by decide +kernel) o

/-! ## Exit reasons -/

/-- `ExitSucceed`. -/
inductive ExitSucceed where
  | stopped
  | returned
  | suicided
  deriving DecidableEq, Repr

/-- `ExitRevert`. -/
inductive ExitRevert where
  | reverted
  deriving DecidableEq, Repr

/-- `ExitError`. -/
inductive ExitError where
  | stackUnderflow
  | stackOverflow
  | invalidJump
  | invalidRange
  | designatedInvalid
  | callTooDeep
  | createCollision
  | createContractLimit
  | invalidCode (opcode : Opcode)
  | outOfOffset
  | outOfGas
  | outOfFund
  | pcUnderflow
  | createEmpty
  | other (message : String)
  | maxNonce
  | notEstimatedYet
  deriving DecidableEq, Repr

/-- `ExitFatal`. -/
inductive ExitFatal where
  | notSupported
  | unhandledInterrupt
  | callErrorAsFatal (e : ExitError)
  | other (message : String)
  deriving DecidableEq, Repr

/-- `ExitReason`. -/
inductive ExitReason where
  | succeed (s : ExitSucceed)
  | error (e : ExitError)
  | revert (r : ExitRevert)
  | fatal (f : ExitFatal)
  deriving DecidableEq, Repr

/-- `Capture`: the machine has exited, or waits for what is outside of it. -/
inductive Capture (ε τ : Type) where
  | exit (reason : ε)
  | trap (interrupt : τ)

end Chase.Vm
