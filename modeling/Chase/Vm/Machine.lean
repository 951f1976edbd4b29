import Chase.Vm.Memory
import Chase.Lib.EarlyExit

/-!
# The machine

`Machine` executes byte code: a position in the code, a stack, a memory, and the map of valid jump
destinations. `eval` is one instruction; what is outside of the machine (the accounts, the block,
the gas) is a trap, and the runtime goes on from there. An instruction that fails stops early, and
what it has popped until then is popped.
-/

namespace Chase.Vm

open EarlyExit

/-! ## Jump destinations -/

/-- `Valids`. -/
abbrev Valids := List Bool

/-- The loop of `Valids::new` at position `i`, in so many rounds. -/
def Valids.loop (code : Bytes) : Nat → Nat → Valids → Valids
  | 0, _, valids => valids
  | rounds + 1, i, valids =>
    match code[i]? with
    | none => valids
    | some opcode =>
      if opcode = jumpdest then loop code rounds (i + 1) (valids.set i true)
      else
        match isPush opcode with
        | some v => loop code rounds (i + v + 1) valids
        | none => loop code rounds (i + 1) valids

/-- `Valids::new`; every round goes at least one byte on. -/
def Valids.new (code : Bytes) : Valids := loop code code.length 0 (List.replicate code.length false)

/-- `is_valid`. -/
def Valids.isValid (valids : Valids) (position : Nat) : Bool := valids.getD position false

/-! ## The machine -/

/-- `Machine`. -/
structure Machine where
  data : Bytes
  code : Bytes
  position : Except ExitReason Nat := .ok 0
  returnRange : U256 × U256 := (0#256, 0#256)
  valids : Valids
  memory : Memory
  stack : Stack

/-- `Machine::new`. -/
def Machine.new (code data : Bytes) (stackLimit memoryLimit : Nat) : Machine where
  data := data
  code := code
  valids := .new code
  memory := { limit := memoryLimit }
  stack := { limit := stackLimit }

/-- `Machine::exit`. -/
def Machine.exit (m : Machine) (reason : ExitReason) : Machine :=
  { m with position := .error reason }

/-- `Machine::inspect`. -/
def Machine.inspect (m : Machine) : Option (Opcode × Stack) :=
  match m.position with
  | .ok position => (m.code[position]?).map fun opcode => (opcode, m.stack)
  | .error _ => none

/-- `Machine::return_value`. -/
def Machine.returnValue (m : Machine) : Bytes :=
  let (start, finish) := m.returnRange
  if usizeMax < start.toNat then List.replicate (finish - start).toNat 0
  else if usizeMax < finish.toNat then
    let ret := m.memory.get start.toNat (usizeMax - start.toNat)
    ret ++ List.replicate ((finish - start).toNat - ret.length) 0
  else m.memory.get start.toNat (finish - start).toNat

/-- `Control`. -/
inductive Control where
  | continue (n : Nat)
  | exit (reason : ExitReason)
  | jump (position : Nat)
  | trap (opcode : Opcode)

/-- An instruction of the machine: it returns where to go on, or stops early. -/
abbrev Eval := EarlyExit ExitReason Machine

namespace Eval

/-- `pop!`. -/
def pop : Eval H256 :=
  zoom Machine.stack (fun m stack => { m with stack }) .error Stack.pop

/-- `push!`. -/
def push (v : H256) : Eval Unit :=
  zoom Machine.stack (fun m stack => { m with stack }) .error (Stack.push · v)

/-- `peek` with an early exit. -/
def peek (noFromTop : Nat) : Eval H256 :=
  zoom Machine.stack (fun m stack => { m with stack }) .error fun s => (s.peek noFromTop, s)

/-- `set` on the stack with an early exit. -/
def setStack (noFromTop : Nat) (v : H256) : Eval Unit :=
  zoom Machine.stack (fun m stack => { m with stack }) .error (Stack.set · noFromTop v)

/-- `resize_offset` with an early exit. -/
def resizeOffset (offset len : U256) : Eval Unit :=
  zoom Machine.memory (fun m memory => { m with memory }) .error (Memory.resizeOffset · offset len)

/-- `set` on the memory with an early exit. -/
def setMemory (offset : Nat) (value : Bytes) (targetSize : Nat) : Eval Unit :=
  zoom Machine.memory (fun m memory => { m with memory }) .fatal
    (Memory.set · offset value (some targetSize))

/-- `copy_large` with an early exit. -/
def copyLarge (memoryOffset dataOffset len : U256) (data : Bytes) : Eval Unit :=
  zoom Machine.memory (fun m memory => { m with memory }) .fatal
    (Memory.copyLarge · memoryOffset dataOffset len data)

/-- `as_usize_or_fail!`. -/
def asUsizeOrFail (v : U256) (reason : ExitReason := .fatal .notSupported) : Eval Nat :=
  if usizeMax < v.toNat then exit reason else pure v.toNat

/-! ## Instructions on words -/

end Eval

/-- The instructions on one word. -/
def Op1.eval : Op1 → U256 → U256
  | .iszero => Vm.iszero
  | .not => fun a => ~~~a

/-- The instructions on two words. -/
def Op2.eval : Op2 → U256 → U256 → U256
  | .add => fun a b => a + b
  | .mul => fun a b => a * b
  | .sub => fun a b => a - b
  | .div => Vm.div
  | .sdiv => Vm.sdiv
  | .mod => Vm.rem
  | .smod => Vm.srem
  | .exp => Vm.exp
  | .signextend => Vm.signextend
  | .lt => fun a b => boolWord (a < b)
  | .gt => fun a b => boolWord (b < a)
  | .slt => Vm.slt
  | .sgt => Vm.sgt
  | .eq => fun a b => boolWord (a = b)
  | .and => fun a b => a &&& b
  | .or => fun a b => a ||| b
  | .xor => fun a b => a ^^^ b
  | .byte => Vm.byte
  | .shl => Vm.shl
  | .shr => Vm.shr
  | .sar => Vm.sar

/-- The instructions on three words. -/
def Op3.eval : Op3 → U256 → U256 → U256 → U256
  | .addmod => Vm.addmod
  | .mulmod => Vm.mulmod

namespace Eval

/-- `op1_u256_fn!`. -/
def op1 (f : Op1) : Eval Control := do
  let a ← pop
  push (f.eval a)
  pure (.continue 1)

/-- `op2_u256!`, `op2_u256_fn!`, `op2_u256_tuple!` and `op2_u256_bool_ref!`. -/
def op2 (f : Op2) : Eval Control := do
  let a ← pop
  let b ← pop
  push (f.eval a b)
  pure (.continue 1)

/-- `op3_u256_fn!`. -/
def op3 (f : Op3) : Eval Control := do
  let a ← pop
  let b ← pop
  let c ← pop
  push (f.eval a b c)
  pure (.continue 1)

/-! ## Other instructions -/

/-- `codesize`. -/
def codesize : Eval Control := do
  let size ← read fun m => m.code.length
  push (BitVec.ofNat 256 size)
  pure (.continue 1)

/-- `codecopy`. -/
def codecopy : Eval Control := do
  let memoryOffset ← pop
  let codeOffset ← pop
  let len ← pop
  resizeOffset memoryOffset len
  let code ← read Machine.code
  copyLarge memoryOffset codeOffset len code
  pure (.continue 1)

/-- The word that `calldataload` reads. -/
def dataWord (data : Bytes) (index : U256) : H256 :=
  ofBytes ((List.range 32).map fun i =>
    match checkedAdd index (BitVec.ofNat 256 i) with
    | some p => if p.toNat ≤ usizeMax then data.getD p.toNat 0 else 0
    | none => 0)

/-- `calldataload`. -/
def calldataload : Eval Control := do
  let index ← pop
  let data ← read Machine.data
  push (dataWord data index)
  pure (.continue 1)

/-- `calldatasize`. -/
def calldatasize : Eval Control := do
  let len ← read fun m => m.data.length
  push (BitVec.ofNat 256 len)
  pure (.continue 1)

/-- `calldatacopy`. -/
def calldatacopy : Eval Control := do
  let memoryOffset ← pop
  let dataOffset ← pop
  let len ← pop
  resizeOffset memoryOffset len
  if len = 0#256 then pure (.continue 1)
  else
    let data ← read Machine.data
    copyLarge memoryOffset dataOffset len data
    pure (.continue 1)

/-- `pop`. -/
def popWord : Eval Control := do
  let _ ← pop
  pure (.continue 1)

/-- `mload`. -/
def mload : Eval Control := do
  let index ← pop
  resizeOffset index 32#256
  let index ← asUsizeOrFail index
  let value ← read fun m => m.memory.get index 32
  push (ofBytes value)
  pure (.continue 1)

/-- `mstore`. -/
def mstore : Eval Control := do
  let index ← pop
  let value ← pop
  resizeOffset index 32#256
  let index ← asUsizeOrFail index
  setMemory index (toBytes value) 32
  pure (.continue 1)

/-- `mstore8`. -/
def mstore8 : Eval Control := do
  let index ← pop
  let value ← pop
  resizeOffset index 1#256
  let index ← asUsizeOrFail index
  setMemory index [UInt8.ofNat value.toNat] 1
  pure (.continue 1)

/-- The jump of `jump` and `jumpi`. -/
def jumpTo (dest : U256) : Eval Control := do
  let dest ← asUsizeOrFail dest (.error .invalidJump)
  let valids ← read Machine.valids
  if valids.isValid dest then pure (.jump dest) else pure (.exit (.error .invalidJump))

/-- `jump`. -/
def jump : Eval Control := do
  let dest ← pop
  jumpTo dest

/-- `jumpi`. -/
def jumpi : Eval Control := do
  let dest ← pop
  let value ← pop
  if value ≠ 0#256 then jumpTo dest else pure (.continue 1)

/-- `pc`. -/
def pc (position : Nat) : Eval Control := do
  push (BitVec.ofNat 256 position)
  pure (.continue 1)

/-- `msize`. -/
def msize : Eval Control := do
  let len ← read fun m => m.memory.effectiveLen
  push len
  pure (.continue 1)

/-- The word that `push` reads from the code: bytes past its end are zero. -/
def pushWord (code : Bytes) (n position : Nat) : H256 :=
  let slice := (code.take (position + 1 + n)).drop (position + 1)
  ofBytes (slice ++ List.replicate (n - slice.length) 0)

/-- `push`. -/
def pushCode (n position : Nat) : Eval Control := do
  let value ← read fun m => pushWord m.code n position
  push value
  pure (.continue (1 + n))

/-- `dup`. -/
def dup (n : Nat) : Eval Control := do
  let value ← peek (n - 1)
  push value
  pure (.continue 1)

/-- `swap`. -/
def swap (n : Nat) : Eval Control := do
  let val1 ← peek 0
  let val2 ← peek n
  setStack 0 val2
  setStack n val1
  pure (.continue 1)

/-- `ret` and `revert`, with their exit. -/
def retWith (reason : ExitReason) : Eval Control := do
  let start ← pop
  let len ← pop
  resizeOffset start len
  update fun m => { m with returnRange := (start, start + len) }
  pure (.exit reason)

/-- The table of `eval`. -/
def table (opcode : Opcode) (position : Nat) : Eval Control :=
  match decode opcode with
  | .stop => pure (.exit (.succeed .stopped))
  | .op1 f => op1 f
  | .op2 f => op2 f
  | .op3 f => op3 f
  | .codesize => codesize
  | .codecopy => codecopy
  | .calldataload => calldataload
  | .calldatasize => calldatasize
  | .calldatacopy => calldatacopy
  | .pop => popWord
  | .mload => mload
  | .mstore => mstore
  | .mstore8 => mstore8
  | .jump => jump
  | .jumpi => jumpi
  | .pc => pc position
  | .msize => msize
  | .jumpdest => pure (.continue 1)
  | .push n => pushCode n position
  | .dup n => dup n
  | .swap n => swap n
  | .ret => retWith (.succeed .returned)
  | .revert => retWith (.revert .reverted)
  | .invalid => pure (.exit (.error .designatedInvalid))
  | .sha3 | .query _ | .balance | .extcodesize | .extcodehash | .extcodecopy | .blockhash
  | .returndatacopy | .sload | .sstore | .log _ | .create _ | .call _ | .suicide | .unknown =>
    pure (.trap opcode)

end Eval

namespace Machine

/-- `eval`. -/
def eval (m : Machine) (opcode : Opcode) (position : Nat) : Control × Machine :=
  match Eval.table opcode position m with
  | (.ok control, m) => (control, m)
  | (.error reason, m) => (.exit reason, m)

/-- `Machine::step`. -/
def step (m : Machine) : Except (Capture ExitReason Opcode) Unit × Machine :=
  match m.position with
  | .error reason => (.error (.exit reason), m)
  | .ok position =>
    match m.code[position]? with
    | none =>
      (.error (.exit (.succeed .stopped)), { m with position := .error (.succeed .stopped) })
    | some opcode =>
      match m.eval opcode position with
      | (.continue n, m) => (.ok (), { m with position := .ok (position + n) })
      | (.exit reason, m) => (.error (.exit reason), { m with position := .error reason })
      | (.jump p, m) => (.ok (), { m with position := .ok p })
      | (.trap opcode, m) => (.error (.trap opcode), { m with position := .ok (position + 1) })

end Machine

end Chase.Vm
