import Chase.Evm.Basic
import Chase.Lib.AssocMap
import Mathlib.Data.List.Sort

/-!
# The stack of substates of the executor

`MemoryStackSubstate` collects what a transaction changes on top of a backend: accounts, storage
slots, logs and deleted addresses. A call or a creation enters a new substate; leaving it merges its
entries into the parent (`exitCommit`) or drops them (`exitRevert`). At the root the
entries become the effects of the transaction (`deconstruct`).

The frames of the stack are a list, the current one first. An account or a slot is looked up from
the current frame to the root, and then in the backend (`basicIn`, `storageIn`).
-/

namespace Chase

/-- `MemoryStackAccount`. -/
structure MemoryStackAccount where
  basic : Basic
  code : Option Bytes := none
  reset : Bool := false
  deriving DecidableEq, Repr

/-- `MemoryStackSubstate`, without the gas metadata and the parent. -/
structure Substate where
  logs : List Log := []
  accounts : AssocMap H160 MemoryStackAccount := []
  storages : AssocMap Slot H256 := []
  deletes : List H160 := []
  deriving DecidableEq, Repr

/-- `Transfer`. -/
structure Transfer where
  source : H160
  target : H160
  value : U256
  deriving DecidableEq, Repr

/-- `U256::saturating_add`. -/
def saturatingAdd (x y : U256) : U256 :=
  if x.toNat + y.toNat < 2 ^ 256 then x + y else BitVec.allOnes 256

/-! ## Lookups through the frames -/

/-- `known_account`. -/
def knownAccount (frames : List Substate) (a : H160) : Option MemoryStackAccount :=
  frames.findSome? fun f => f.accounts.get a

/-- `known_storage`. -/
def knownStorage : List Substate → Slot → Option H256
  | [], _ => none
  | f :: frames, slot =>
    match f.storages.get slot with
    | some value => some value
    | none =>
      if (f.accounts.get slot.1).any (·.reset) then some 0#256 else knownStorage frames slot

/-- `known_original_storage`. -/
def knownOriginalStorage (frames : List Substate) (a : H160) : Option H256 :=
  if frames.any fun f => (f.accounts.get a).any (·.reset) then some 0#256 else none

/-- `deleted`. -/
def deletedIn (frames : List Substate) (a : H160) : Prop := ∃ f ∈ frames, a ∈ f.deletes

/-- `basic` of the stack over a backend. -/
def basicIn (backend : State) (frames : List Substate) (a : H160) : Basic :=
  ((knownAccount frames a).map (·.basic)).getD (backend.basic a)

/-- `code` of the stack over a backend. -/
def codeIn (backend : State) (frames : List Substate) (a : H160) : Bytes :=
  ((knownAccount frames a).bind (·.code)).getD (backend.code a)

/-- `storage` of the stack over a backend. -/
def storageIn (backend : State) (frames : List Substate) (slot : Slot) : H256 :=
  (knownStorage frames slot).getD (backend.storage slot.1 slot.2)

/-- `original_storage` of the stack over a backend. -/
def originalStorageIn (backend : State) (frames : List Substate) (slot : Slot) : H256 :=
  (knownOriginalStorage frames slot.1).getD (backend.storage slot.1 slot.2)

/-! ## The stack -/

/-- `MemoryStackState`: the current substate and its parents, the root last. -/
structure MemoryStackState where
  substate : Substate := {}
  parents : List Substate := []
  deriving DecidableEq, Repr

namespace MemoryStackState

variable (backend : State) (st : MemoryStackState)

/-- The frames, the current one first. -/
def frames : List Substate := st.substate :: st.parents

/-- The account that `account_mut` returns: the one of the current frame, a copy of the one of a
parent, or what the backend has. -/
def account (a : H160) : MemoryStackAccount :=
  match st.substate.accounts.get a with
  | some account => account
  | none =>
    match knownAccount st.parents a with
    | some account => { account with reset := false }
    | none => { basic := backend.basic a }

/-- An assignment through the reference that `account_mut` returns. -/
def setAccount (a : H160) (f : MemoryStackAccount → MemoryStackAccount) : MemoryStackState :=
  { st with
    substate :=
      { st.substate with accounts := st.substate.accounts.insert a (f (st.account backend a)) } }

/-- `touch`. -/
def touch (a : H160) : MemoryStackState := st.setAccount backend a id

/-- `inc_nonce`, with whether it succeeds. -/
def incNonce (a : H160) : Bool × MemoryStackState :=
  if (st.account backend a).basic.nonce.toNat ≥ 2 ^ 64 - 1 then (false, st.touch backend a)
  else
    (true, st.setAccount backend a fun v =>
      { v with basic := { v.basic with nonce := v.basic.nonce + 1 } })

/-- `set_storage`. -/
def setStorage (slot : Slot) (value : H256) : MemoryStackState :=
  { st with substate := { st.substate with storages := st.substate.storages.insert slot value } }

/-- `reset_storage`. -/
def resetStorage (a : H160) : MemoryStackState :=
  let storages := st.substate.storages.filter (·.1.1 ≠ a)
  { st with substate := { st.substate with storages } }.setAccount backend a fun v =>
    { v with reset := true }

/-- `log`. -/
def log (l : Log) : MemoryStackState :=
  { st with substate := { st.substate with logs := st.substate.logs ++ [l] } }

/-- `set_deleted`. -/
def setDeleted (a : H160) : MemoryStackState :=
  { st with
    substate :=
      { st.substate with
        deletes :=
          if a ∈ st.substate.deletes then st.substate.deletes else a :: st.substate.deletes } }

/-- `set_code`. -/
def setCode (a : H160) (code : Bytes) : MemoryStackState :=
  st.setAccount backend a fun v => { v with code := some code }

/-- `reset_balance`. -/
def resetBalance (a : H160) : MemoryStackState :=
  st.setAccount backend a fun v => { v with basic := { v.basic with balance := 0#256 } }

/-- `transfer`, with whether the source has the value. -/
def transfer (t : Transfer) : Bool × MemoryStackState :=
  if (st.account backend t.source).basic.balance < t.value then (false, st.touch backend t.source)
  else
    let st := st.setAccount backend t.source fun v =>
      { v with basic := { v.basic with balance := v.basic.balance - t.value } }
    (true, st.setAccount backend t.target fun v =>
      { v with basic := { v.basic with balance := saturatingAdd v.basic.balance t.value } })

/-- `enter`. -/
def enter : MemoryStackState := { substate := {}, parents := st.frames }

/-- The entries of a substate that is left go to its parent; the slots of an account that was reset
go first. -/
def swallow (parent exited : Substate) : Substate where
  logs := parent.logs ++ exited.logs
  accounts := parent.accounts.append exited.accounts
  storages :=
    AssocMap.append
      (parent.storages.filter fun e => !(exited.accounts.get e.1.1).any (·.reset)) exited.storages
  deletes := exited.deletes ++ parent.deletes.filter (· ∉ exited.deletes)

/-- `exit_commit`; there is a panic on the root. -/
def exitCommit : Option MemoryStackState :=
  match st.parents with
  | [] => none
  | parent :: parents => some { substate := swallow parent st.substate, parents }

/-- `exit_revert` and `exit_discard`, which differ in the gas that they give back. -/
def exitRevert : Option MemoryStackState :=
  match st.parents with
  | [] => none
  | parent :: parents => some { substate := parent, parents }

/-- The entries of the storage of an account, in key order. -/
def storageOf (a : H160) : List (H256 × H256) :=
  ((st.substate.storages.filter (·.1.1 = a)).map fun e => (e.1.2, e.2)).insertionSort
    fun e e' => e.1.toNat ≤ e'.1.toNat

/-- The addresses that `deconstruct` goes through. -/
def addresses : List H160 :=
  ((st.substate.accounts.map (·.1) ++ st.substate.storages.map (·.1.1)).dedup).insertionSort
    fun a b => a.toNat ≤ b.toNat

/-- The `Modify` of an address. -/
def modifyOf (a : H160) : Apply :=
  let account := st.account backend a
  .modify a account.basic account.code (st.storageOf a) account.reset

/-- The effects of `deconstruct`, at the root. -/
def deconstruct : List Apply :=
  (st.addresses.filter (· ∉ st.substate.deletes)).map (st.modifyOf backend) ++
    (st.substate.deletes.insertionSort fun a b => a.toNat ≤ b.toNat).map .delete

end MemoryStackState

/-! ## What the operations do to the accounts -/

section Lookup

variable {backend : State} {f : Substate} {fs : List Substate} {a : H160}

theorem knownAccount_cons :
    knownAccount (f :: fs) a = (f.accounts.get a).or (knownAccount fs a) := by
  rw [knownAccount, List.findSome?_cons]
  cases f.accounts.get a <;> rfl

theorem basicIn_of_knownAccount {fs' : List Substate}
    (h : knownAccount fs a = knownAccount fs' a) :
    basicIn backend fs a = basicIn backend fs' a := by
  rw [basicIn, basicIn, h]

theorem deletedIn_cons : deletedIn (f :: fs) a ↔ a ∈ f.deletes ∨ deletedIn fs a := by
  simp only [deletedIn, List.mem_cons, exists_eq_or_imp]

theorem deletedIn_cons_congr {f' : Substate} (h : f'.deletes = f.deletes) :
    deletedIn (f' :: fs) a ↔ deletedIn (f :: fs) a := by
  rw [deletedIn_cons, deletedIn_cons, h]

end Lookup

namespace MemoryStackState

variable {backend : State} {st : MemoryStackState} {a : H160}

/-- The account of the effects has the basic information that the frames show. -/
theorem account_basic : (st.account backend a).basic = basicIn backend st.frames a := by
  rw [account, basicIn, frames, knownAccount_cons]
  cases st.substate.accounts.get a with
  | some v => rfl
  | none => cases knownAccount st.parents a <;> rfl

/-- The basic information after an assignment to one account. -/
theorem basicIn_setAccount (f : MemoryStackAccount → MemoryStackAccount) :
    basicIn backend (st.setAccount backend a f).frames =
      Function.update (basicIn backend st.frames) a (f (st.account backend a)).basic := by
  funext a'
  by_cases h : a' = a
  · subst h
    rw [Function.update_self, basicIn, frames, knownAccount_cons]
    dsimp only [setAccount]
    rw [AssocMap.get_insert_self]
    rfl
  · rw [Function.update_of_ne h]
    refine basicIn_of_knownAccount ?_
    rw [frames, knownAccount_cons, frames, knownAccount_cons]
    dsimp only [setAccount]
    rw [AssocMap.get_insert_of_ne h]

/-- An assignment that leaves the basic information of the account leaves all of it. -/
theorem basicIn_setAccount_of_basic {f : MemoryStackAccount → MemoryStackAccount}
    (hf : ∀ v, (f v).basic = v.basic) :
    basicIn backend (st.setAccount backend a f).frames = basicIn backend st.frames := by
  rw [basicIn_setAccount, hf, account_basic, Function.update_eq_self]

/-- A reset of the storage keeps balances and nonces. -/
theorem basicIn_resetStorage :
    basicIn backend (st.resetStorage backend a).frames = basicIn backend st.frames := by
  have hf : ∀ v : MemoryStackAccount,
      ({ v with reset := true } : MemoryStackAccount).basic = v.basic := fun _ => rfl
  rw [resetStorage, basicIn_setAccount_of_basic hf]
  rfl

theorem basicIn_enter : basicIn backend st.enter.frames = basicIn backend st.frames := by
  funext a'
  refine basicIn_of_knownAccount ?_
  rw [enter, frames, knownAccount_cons]
  rfl

/-- A substate that is merged into its parent leaves the accounts as it showed them. -/
theorem basicIn_swallow (parent exited : Substate) (parents : List Substate) :
    basicIn backend (swallow parent exited :: parents) =
      basicIn backend (exited :: parent :: parents) := by
  funext a'
  refine basicIn_of_knownAccount ?_
  rw [knownAccount_cons, knownAccount_cons, knownAccount_cons, swallow, AssocMap.get_append,
    Option.or_assoc]

/-- A merge of two frames keeps their deletions. -/
theorem deletedIn_swallow {parent exited : Substate} {parents : List Substate} :
    deletedIn (swallow parent exited :: parents) a ↔ deletedIn (exited :: parent :: parents) a := by
  rw [deletedIn_cons, deletedIn_cons, deletedIn_cons, swallow, List.mem_append, List.mem_filter]
  by_cases h : a ∈ exited.deletes <;> simp [h]

/-- A deletion adds its address. -/
theorem mem_setDeleted {a' : H160} :
    a' ∈ (st.setDeleted a).substate.deletes ↔ a' = a ∨ a' ∈ st.substate.deletes := by
  dsimp only [setDeleted]
  split
  · rename_i h
    constructor
    · exact Or.inr
    · rintro (rfl | h')
      · exact h
      · exact h'
  · exact List.mem_cons

end MemoryStackState

end Chase
