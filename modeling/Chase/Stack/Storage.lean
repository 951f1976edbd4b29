import Chase.Evm.Backend

/-!
# The durable storage of a node

`ChaseStorage` keeps the accounts, the storage slots and the index of the last executed sub-dag in
three RocksDB tables. `persist_applies` turns an effect into point operations on these tables
(`persistOps`), which are made one after the other, and `hydrate_memory_backend` loads the tables
into a memory backend when the node starts.
-/

namespace Chase.Stack

open Function

/-- A table of the store (`DBMap`): its entries, with distinct keys. -/
abbrev DBMap (κ υ : Type) := List (κ × υ)

namespace DBMap

variable {κ υ : Type} [DecidableEq κ]

/-- `DBMap::get`. -/
def get (m : DBMap κ υ) (k : κ) : Option υ := (m.find? (·.1 = k)).map (·.2)

/-- `DBMap::remove`. -/
def remove (m : DBMap κ υ) (k : κ) : DBMap κ υ := m.filter (·.1 ≠ k)

/-- `DBMap::insert`. -/
def insert (m : DBMap κ υ) (k : κ) (v : υ) : DBMap κ υ := (k, v) :: m.remove k

end DBMap

/-- `StoredAccount`. -/
structure StoredAccount where
  nonce : U256 := 0#256
  balance : U256 := 0#256
  code : Bytes := []
  deriving DecidableEq, Repr

/-- `ChaseStorage`; the table of the execution index has one key. -/
structure ChaseStorage where
  accounts : DBMap H160 StoredAccount := []
  storageSlots : DBMap Slot H256 := []
  executionIndex : Option Nat := none
  deriving DecidableEq, Repr

/-- A point operation on the tables. -/
inductive DbOp where
  | insertAccount (address : H160) (account : StoredAccount)
  | removeAccount (address : H160)
  | insertSlot (slot : Slot) (value : H256)
  | removeSlot (slot : Slot)
  deriving DecidableEq, Repr

namespace ChaseStorage

/-- `last_executed_sub_dag_index`. -/
def lastExecutedSubDagIndex (d : ChaseStorage) : Nat := d.executionIndex.getD 0

/-- `set_last_executed_sub_dag_index`. -/
def setLastExecutedSubDagIndex (d : ChaseStorage) (index : Nat) : ChaseStorage :=
  { d with executionIndex := some index }

/-- One point operation. -/
def exec (d : ChaseStorage) : DbOp → ChaseStorage
  | .insertAccount a account => { d with accounts := d.accounts.insert a account }
  | .removeAccount a => { d with accounts := d.accounts.remove a }
  | .insertSlot slot v => { d with storageSlots := d.storageSlots.insert slot v }
  | .removeSlot slot => { d with storageSlots := d.storageSlots.remove slot }

/-- The operations of `remove_storage_for_address`, with the keys that the table has now. -/
def removeStorageForAddress (d : ChaseStorage) (a : H160) : List DbOp :=
  ((d.storageSlots.map (·.1)).filter (·.1 = a)).map .removeSlot

/-- The write of one slot of a `Modify`. -/
def slotOp (a : H160) (e : H256 × H256) : DbOp :=
  if e.2 = 0#256 then .removeSlot (a, e.1) else .insertSlot (a, e.1) e.2

/-- The operations of `persist_applies` for one effect, from the tables that it meets. -/
def persistOps (d : ChaseStorage) : Apply → List DbOp
  | .modify a basic code storage resetStorage =>
    let stored := (d.accounts.get a).getD {}
    let account : StoredAccount :=
      { nonce := basic.nonce, balance := basic.balance, code := code.getD stored.code }
    let slotOps :=
      (if resetStorage then d.removeStorageForAddress a else []) ++ storage.map (slotOp a)
    if account.balance = 0#256 ∧ account.nonce = 0#256 ∧ account.code = [] then
      slotOps ++ .removeAccount a :: (slotOps.foldl exec d).removeStorageForAddress a
    else slotOps ++ [.insertAccount a account]
  | .delete a => .removeAccount a :: d.removeStorageForAddress a

/-- `hydrate_memory_backend`, into an empty backend. -/
def hydrate (d : ChaseStorage) : State := fun a =>
  (d.accounts.get a).map fun stored =>
    { nonce := stored.nonce
      balance := stored.balance
      storage := fun k => d.storageSlots.get (a, k)
      code := stored.code }

end ChaseStorage

end Chase.Stack
