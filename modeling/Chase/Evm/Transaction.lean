import Chase.Evm.Basic
import Mathlib.Data.List.Dedup

/-!
# Transactions and what a simulation records

An Ethereum transaction with the fields that the execution crates read, the read and write sets that
the executor records while it simulates one (`RwSet`), and the outcome of a simulation.

A transaction that is parsed from JSON may lack any of its fields. The accessors of
`EthereumTransaction` unwrap them, so the execution of a transaction panics where one that it reads
is missing, or where the gas does not fit in 64 bits. Here an accessor has some value there, and a
predicate says where there is no panic: `checkedGasLimit` for the gas limit on its own, and
`Readable` for all the fields that `simulate_tx` reads.
-/

namespace Chase

/-- The fields of a `TypedTransaction` that execution reads; the sender is the field `from`. -/
structure TypedTransaction where
  sender : Option H160
  toAddr : Option H160
  value : Option U256
  data : Option Bytes
  gas : Option U256
  accessList : Option (List (H160 × List H256))
  nonce : Option U256
  deriving DecidableEq, Repr

/-- `EthereumTransaction`. -/
structure EthereumTransaction where
  inner : TypedTransaction
  deriving DecidableEq, Repr

namespace EthereumTransaction

variable (tx : EthereumTransaction)

/-- `to_addr`. -/
def toAddr : Option H160 := tx.inner.toAddr

/-- `caller`; there is a panic without a sender. -/
def caller : H160 := tx.inner.sender.getD 0

/-- `value`; there is a panic without one. -/
def value : U256 := tx.inner.value.getD 0

/-- `data`. -/
def data : Option Bytes := tx.inner.data

/-- `gas_limit`; `none` is the panic without a gas, or with one that does not fit in 64 bits. -/
def checkedGasLimit : Option UInt64 :=
  tx.inner.gas.bind fun gas => if gas.toNat < 2 ^ 64 then some (UInt64.ofNat gas.toNat) else none

/-- The gas limit where `gas_limit` has no panic. -/
def gasLimit : UInt64 := tx.checkedGasLimit.getD 0

/-- `access_list`. -/
def accessList : List (H160 × List H256) := tx.inner.accessList.getD []

/-- `nonce`; there is a panic without one. -/
def nonce : U256 := tx.inner.nonce.getD 0

/-- The gas limit can be read. -/
def HasGasLimit : Prop := tx.checkedGasLimit.isSome = true

instance : Decidable tx.HasGasLimit := inferInstanceAs (Decidable (_ = true))

/-- What `simulate_tx` reads of a transaction is there: the gas limit, the sender and the value, the
data of a call, and the nonce of a new user account, which has neither a target nor data. -/
structure Readable : Prop where
  gasLimit : tx.HasGasLimit
  sender : tx.inner.sender.isSome = true
  value : tx.inner.value.isSome = true
  data : tx.toAddr.isSome = true → tx.data.isSome = true
  nonce : tx.toAddr = none → tx.data = none → tx.inner.nonce.isSome = true

/-- Readability, field by field, as a decidable conjunction. -/
theorem readable_iff : tx.Readable ↔ tx.HasGasLimit ∧ tx.inner.sender.isSome = true ∧
    tx.inner.value.isSome = true ∧ (tx.toAddr.isSome = true → tx.data.isSome = true) ∧
      (tx.toAddr = none → tx.data = none → tx.inner.nonce.isSome = true) :=
  ⟨fun ⟨h₁, h₂, h₃, h₄, h₅⟩ => ⟨h₁, h₂, h₃, h₄, h₅⟩,
    fun ⟨h₁, h₂, h₃, h₄, h₅⟩ => ⟨h₁, h₂, h₃, h₄, h₅⟩⟩

instance : Decidable tx.Readable := decidable_of_iff _ tx.readable_iff.symm

/-- A call that has all of its fields. -/
def ofCall (caller toAddr : H160) (value : U256) (data : Bytes) (gasLimit : UInt64)
    (nonce : U256) : EthereumTransaction where
  inner :=
    { sender := some caller
      toAddr := some toAddr
      value := some value
      data := some data
      gas := some (BitVec.ofNat 256 gasLimit.toNat)
      accessList := some []
      nonce := some nonce }

section

variable (caller toAddr : H160) (value : U256) (data : Bytes) (gasLimit : UInt64) (nonce : U256)

@[simp] theorem value_ofCall : (ofCall caller toAddr value data gasLimit nonce).value = value := rfl

@[simp] theorem checkedGasLimit_ofCall :
    (ofCall caller toAddr value data gasLimit nonce).checkedGasLimit = some gasLimit := by
  have hlt : gasLimit.toNat < 2 ^ 64 := gasLimit.toNat_lt
  have hmod : gasLimit.toNat % 2 ^ 256 = gasLimit.toNat := Nat.mod_eq_of_lt (by omega)
  rw [checkedGasLimit, ofCall, Option.bind_some, BitVec.toNat_ofNat, hmod, if_pos hlt,
    UInt64.ofNat_toNat]

@[simp] theorem hasGasLimit_ofCall :
    (ofCall caller toAddr value data gasLimit nonce).HasGasLimit := by
  rw [HasGasLimit, checkedGasLimit_ofCall]
  rfl

theorem readable_ofCall : (ofCall caller toAddr value data gasLimit nonce).Readable :=
  ⟨hasGasLimit_ofCall .., rfl, rfl, fun _ => rfl, fun h => (nomatch h)⟩

end

end EthereumTransaction

/-- A transaction with its position in the batches that are executed together. -/
structure IndexedEthereumTransaction where
  tx : EthereumTransaction
  id : Nat
  deriving DecidableEq, Repr

/-- The entries of a `BTreeMap<H160, HashMap<H256, H256>>`, in the order of its iteration. -/
abbrev AccessMap := List (H160 × List (H256 × H256))

/-- The keys of an access map, without the contracts they belong to (`flat_map` over the inner maps
into a hash set). -/
def AccessMap.keys (m : AccessMap) : List H256 := (m.flatMap fun c => c.2.map (·.1)).dedup

/-- The storage slots of an access map. -/
def AccessMap.slots (m : AccessMap) : List Slot := m.flatMap fun c => c.2.map fun e => (c.1, e.1)

/-- `states.get(&key).is_some()` of the inner map of a contract, `false` without one. -/
def AccessMap.contains (m : AccessMap) (contract : H160) (key : H256) : Bool :=
  m.any fun c => c.1 = contract && c.2.any fun e => e.1 = key

/-- `RwSet`: the slots read and written by a simulation, with their values. -/
structure RwSet where
  readSet : AccessMap := []
  writeSet : AccessMap := []
  deriving DecidableEq, Repr

/-- `extract_read_set`. -/
def RwSet.readKeys (rw : RwSet) : List H256 := rw.readSet.keys

/-- `extract_write_set`. -/
def RwSet.writeKeys (rw : RwSet) : List H256 := rw.writeSet.keys

/-- The triple that a successful simulation returns. -/
structure Simulated where
  effects : List Apply
  logs : List Log
  rwSet : RwSet
  deriving DecidableEq, Repr

/-- A key is one of some contract. -/
theorem AccessMap.mem_keys {m : AccessMap} {k : H256} :
    k ∈ m.keys ↔ ∃ a, (a, k) ∈ m.slots := by
  simp only [keys, slots, List.mem_dedup, List.mem_flatMap, List.mem_map, Prod.mk.injEq]
  constructor
  · rintro ⟨c, hc, e, he, rfl⟩
    exact ⟨c.1, c, hc, e, he, rfl, rfl⟩
  · rintro ⟨_, c, hc, e, he, rfl, rfl⟩
    exact ⟨c, hc, e, he, rfl⟩

/-- The slots that a contract's inner map contains are the slots of the access map. -/
theorem AccessMap.contains_iff {m : AccessMap} {a : H160} {k : H256} :
    m.contains a k = true ↔ (a, k) ∈ m.slots := by
  simp only [contains, slots, List.any_eq_true, Bool.and_eq_true, decide_eq_true_eq,
    List.mem_flatMap, List.mem_map, Prod.mk.injEq]
  constructor
  · rintro ⟨c, hc, rfl, e, he, rfl⟩
    exact ⟨c, hc, e, he, rfl, rfl⟩
  · rintro ⟨c, hc, e, he, rfl, rfl⟩
    exact ⟨c, hc, rfl, e, he, rfl⟩

end Chase
