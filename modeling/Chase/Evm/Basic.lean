import Mathlib.Data.BitVec
import Mathlib.Logic.Function.Basic

/-!
# Words, accounts and effects of the EVM

The fixed-width words the execution crates compute with, the state of one account, and the effects
(`Apply`) that a simulation returns and a backend applies. A hash map or B-tree map of the source is
a function into `Option`: no modelled function depends on the order in which such a map is iterated,
and a finite map that is only read, updated and filtered is its lookup function.
-/

namespace Chase

/-- A 20-byte account address (`H160`), ordered as its big-endian number. -/
abbrev H160 := BitVec 160

/-- A 32-byte word (`H256`): a storage key or a storage value, ordered as its big-endian number. -/
abbrev H256 := BitVec 256

/-- A 256-bit unsigned integer (`U256`). -/
abbrev U256 := BitVec 256

/-- A byte string (`Vec<u8>`). -/
abbrev Bytes := List UInt8

/-- A storage slot: a key of the storage of one contract. -/
abbrev Slot := H160 × H256

/-- A property of the slots of a list is decided on the list: `Slot` is a finite type as well, but
far too large to be searched. -/
instance (priority := 2000) (p : Slot → Prop) [DecidablePred p] (l : List Slot) :
    Decidable (∀ k ∈ l, p k) := List.decidableBAll p l

/-- Basic account information (`evm::backend::Basic`). -/
structure Basic where
  balance : U256 := 0#256
  nonce : U256 := 0#256
  deriving DecidableEq, Repr

/-- An emitted log (`ethereum::Log`). -/
structure Log where
  address : H160
  topics : List H256
  data : Bytes
  deriving DecidableEq, Repr

/-- A state operation (`evm::backend::Apply`). The storage of a `Modify` is a `BTreeMap` in the
source: here the list of its entries in key order. -/
inductive Apply where
  | modify (address : H160) (basic : Basic) (code : Option Bytes) (storage : List (H256 × H256))
      (resetStorage : Bool)
  | delete (address : H160)
  deriving DecidableEq, Repr

/-- The account an effect is about. -/
def Apply.address : Apply → H160
  | .modify a .. => a
  | .delete a => a

/-- The state of one account (`MemoryAccount`, and `CAccount` of the concurrent backend, which has
the same fields). -/
structure Account where
  nonce : U256 := 0#256
  balance : U256 := 0#256
  storage : H256 → Option H256 := fun _ => none
  code : Bytes := []

/-- The state of a memory backend: its map from addresses to accounts. -/
abbrev State := H160 → Option Account

/-- The state without accounts. -/
def State.empty : State := fun _ => none

/-! ## What a backend answers -/

namespace State
variable (s : State)

/-- `Backend::exists`. -/
def «exists» (a : H160) : Bool := (s a).isSome

/-- `Backend::basic`. -/
def basic (a : H160) : Basic := ((s a).map fun v => ⟨v.balance, v.nonce⟩).getD {}

/-- `Backend::code`. -/
def code (a : H160) : Bytes := ((s a).map (·.code)).getD []

/-- `Backend::storage`. -/
def storage (a : H160) (k : H256) : H256 := ((s a).bind fun v => v.storage k).getD 0#256

end State

/-- Two states give the same answers to `exists`, `basic`, `code` and `storage`, for every address
and slot. -/
structure SameAnswers (s t : State) : Prop where
  «exists» : ∀ a, s.exists a = t.exists a
  basic : ∀ a, s.basic a = t.basic a
  code : ∀ a, s.code a = t.code a
  storage : ∀ a k, s.storage a k = t.storage a k

/-- A state answers as it does. -/
theorem SameAnswers.refl (s : State) : SameAnswers s s :=
  ⟨fun _ => rfl, fun _ => rfl, fun _ => rfl, fun _ _ => rfl⟩

end Chase
