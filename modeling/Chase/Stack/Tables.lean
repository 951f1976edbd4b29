import Chase.Lib.AssocMap
import Chase.Stack.Storage

/-!
# What `persist_applies` leaves in the tables

The operations of `persist_applies` by their lookups. What an effect does to the accounts depends on
the accounts alone (`persistAccount`), and what it does to a slot is a list of overwrites, each of
them a write or the clearing of the slot (`slotEffects`, `persistOne_spec`).
-/

namespace Chase.Stack

open Function

namespace DBMap

variable {κ υ : Type} [DecidableEq κ] (m : DBMap κ υ) (k k' : κ) (v : υ)

/-- A removal takes the value of its key. -/
theorem get_remove : (m.remove k).get k' = if k' = k then none else m.get k' := by
  split
  · rename_i h
    exact h ▸ AssocMap.get_remove_self
  · rename_i h
    exact AssocMap.get_remove_of_ne h

/-- An insertion gives its key a value. -/
theorem get_insert : (m.insert k v).get k' = if k' = k then some v else m.get k' := by
  split
  · rename_i h
    exact h ▸ AssocMap.get_insert_self
  · rename_i h
    exact AssocMap.get_insert_of_ne h

end DBMap

/-! ## Overwrites of a slot -/

/-- What happens to a slot: it is cleared, or written. -/
inductive SlotEffect where
  | clear
  | write (value : H256)
  deriving DecidableEq, Repr

/-- The slot afterwards. A zero is not stored. -/
def SlotEffect.apply : SlotEffect → Option H256
  | .clear => none
  | .write value => if value = 0#256 then none else some value

/-- The slot after a list of overwrites. -/
def afterEffects (effects : List SlotEffect) (old : Option H256) : Option H256 :=
  match effects.getLast? with
  | some effect => effect.apply
  | none => old

@[simp] theorem afterEffects_nil (old : Option H256) : afterEffects [] old = old := rfl

@[simp] theorem afterEffects_singleton (effect : SlotEffect) (old : Option H256) :
    afterEffects [effect] old = effect.apply := rfl

/-- The last effect decides. -/
theorem afterEffects_of_getLast? {effects : List SlotEffect} {effect : SlotEffect}
    (h : effects.getLast? = some effect) (old : Option H256) :
    afterEffects effects old = effect.apply := by
  rw [afterEffects, h]

/-- Effects, one after another. -/
theorem afterEffects_append (effects effects' : List SlotEffect) (old : Option H256) :
    afterEffects (effects ++ effects') old = afterEffects effects' (afterEffects effects old) := by
  unfold afterEffects
  rw [List.getLast?_append]
  cases effects'.getLast? <;> rfl

namespace ChaseStorage

variable (d : ChaseStorage)

/-- `persist_applies` for one effect. -/
def persistOne (x : Apply) : ChaseStorage := (d.persistOps x).foldl exec d

/-- `ChaseStorage::persist_applies`, with a store whose operations succeed. -/
def persistApplies (applies : List Apply) : ChaseStorage := applies.foldl persistOne d

/-- A `Modify` leaves nothing in the stored account. -/
def Empties (accounts : DBMap H160 StoredAccount) (a : H160) (basic : Basic)
    (code : Option Bytes) : Prop :=
  basic.balance = 0#256 ∧ basic.nonce = 0#256 ∧ code.getD ((accounts.get a).getD {}).code = []

instance (accounts : DBMap H160 StoredAccount) (a : H160) (basic : Basic) (code : Option Bytes) :
    Decidable (Empties accounts a basic code) := inferInstanceAs (Decidable (_ ∧ _ ∧ _))

/-- The accounts after an effect. -/
def persistAccount (accounts : DBMap H160 StoredAccount) : Apply → DBMap H160 StoredAccount
  | .modify a basic code _ _ =>
    if Empties accounts a basic code then accounts.remove a
    else
      accounts.insert a ⟨basic.nonce, basic.balance, code.getD ((accounts.get a).getD {}).code⟩
  | .delete a => accounts.remove a

/-- What an effect does to a slot, from the accounts that it meets. -/
def slotEffects (accounts : DBMap H160 StoredAccount) (x : Apply) (slot : Slot) :
    List SlotEffect :=
  if x.address = slot.1 then
    match x with
    | .modify a basic code storage resetStorage =>
      (if resetStorage then [.clear] else []) ++
        ((storage.filter (·.1 = slot.2)).map fun e => .write e.2) ++
        if Empties accounts a basic code then [.clear] else []
    | .delete _ => [.clear]
  else []

theorem slotEffects_of_ne {accounts : DBMap H160 StoredAccount} {x : Apply} {slot : Slot}
    (h : x.address ≠ slot.1) : slotEffects accounts x slot = [] := by
  unfold slotEffects
  exact if_neg h

/-- A removed account has no slots. -/
theorem afterEffects_of_removed {accounts : DBMap H160 StoredAccount} {x : Apply}
    (h : (persistAccount accounts x).get x.address = none) (k : H256) (old : Option H256) :
    afterEffects (slotEffects accounts x (x.address, k)) old = none := by
  cases x with
  | delete a => exact congrArg (afterEffects · old) (if_pos rfl)
  | modify a basic code storage resetStorage =>
    rw [persistAccount, Apply.address] at h
    by_cases hempty : Empties accounts a basic code
    · rw [slotEffects, Apply.address, if_pos rfl, if_pos hempty, afterEffects_append]
      rfl
    · rw [if_neg hempty, DBMap.get_insert, if_pos rfl] at h
      cases h

/-- The rest of the tables: everything but the slots. -/
def SameAccounts (d d' : ChaseStorage) : Prop :=
  d'.accounts = d.accounts ∧ d'.executionIndex = d.executionIndex

variable {d}

/-- The removal of slots removes these slots only, and touches no account. -/
theorem foldl_removeSlot (slots : List Slot) (d : ChaseStorage) :
    SameAccounts d ((slots.map DbOp.removeSlot).foldl exec d) ∧
      ∀ slot, ((slots.map DbOp.removeSlot).foldl exec d).storageSlots.get slot =
        if slot ∈ slots then none else d.storageSlots.get slot := by
  induction slots generalizing d with
  | nil => exact ⟨⟨rfl, rfl⟩, fun slot => rfl⟩
  | cons removed slots ih =>
    obtain ⟨hrest, hget⟩ := ih (d.exec (.removeSlot removed))
    refine ⟨hrest, fun slot => (hget slot).trans ?_⟩
    rw [exec, DBMap.get_remove]
    by_cases hslot : slot = removed
    · simp [hslot]
    · simp [hslot]

/-- `remove_storage_for_address` clears the slots of the address. -/
theorem foldl_removeStorageForAddress (d : ChaseStorage) (a : H160) :
    SameAccounts d ((d.removeStorageForAddress a).foldl exec d) ∧
      ∀ slot, ((d.removeStorageForAddress a).foldl exec d).storageSlots.get slot =
        if a = slot.1 then none else d.storageSlots.get slot := by
  obtain ⟨hrest, hget⟩ := foldl_removeSlot ((d.storageSlots.map (·.1)).filter (·.1 = a)) d
  refine ⟨hrest, fun slot => (hget slot).trans ?_⟩
  by_cases ha : a = slot.1
  · rw [if_pos ha]
    by_cases hmem : slot ∈ d.storageSlots.map (·.1)
    · rw [if_pos (List.mem_filter.2 ⟨hmem, decide_eq_true ha.symm⟩)]
    · rw [if_neg fun h => hmem (List.mem_filter.1 h).1]
      exact AssocMap.get_eq_none_iff.2 hmem
  · rw [if_neg ha, if_neg fun h => ha (of_decide_eq_true (List.mem_filter.1 h).2).symm]

/-- A write of a slot has its effect there, and touches no account. -/
theorem exec_slotOp (d : ChaseStorage) (a : H160) (e : H256 × H256) :
    SameAccounts d (d.exec (slotOp a e)) ∧
      ∀ slot, (d.exec (slotOp a e)).storageSlots.get slot =
        if slot = (a, e.1) then (SlotEffect.write e.2).apply else d.storageSlots.get slot := by
  rw [slotOp, SlotEffect.apply]
  split
  · exact ⟨⟨rfl, rfl⟩, fun slot => DBMap.get_remove _ _ _⟩
  · exact ⟨⟨rfl, rfl⟩, fun slot => DBMap.get_insert _ _ _ _⟩

/-- The writes of a `Modify`. -/
theorem foldl_slotOp (a : H160) (storage : List (H256 × H256)) (d : ChaseStorage) :
    SameAccounts d ((storage.map (slotOp a)).foldl exec d) ∧
      ∀ slot, ((storage.map (slotOp a)).foldl exec d).storageSlots.get slot =
        if a = slot.1 then
          afterEffects ((storage.filter (·.1 = slot.2)).map fun e => .write e.2)
            (d.storageSlots.get slot)
        else d.storageSlots.get slot := by
  induction storage generalizing d with
  | nil =>
    refine ⟨⟨rfl, rfl⟩, fun slot => ?_⟩
    split <;> rfl
  | cons e storage ih =>
    obtain ⟨⟨haccounts, hindex⟩, hget⟩ := ih (d.exec (slotOp a e))
    obtain ⟨⟨haccounts', hindex'⟩, hget'⟩ := exec_slotOp d a e
    refine ⟨⟨haccounts.trans haccounts', hindex.trans hindex'⟩, fun slot => (hget slot).trans ?_⟩
    rw [hget']
    by_cases ha : a = slot.1
    · rw [if_pos ha, if_pos ha]
      by_cases he : e.1 = slot.2
      · have hslot : slot = (a, e.1) := Prod.ext ha.symm he.symm
        rw [if_pos hslot, List.filter_cons_of_pos (by simpa using he), List.map_cons,
          ← List.singleton_append, afterEffects_append]
        rfl
      · have hslot : ¬slot = (a, e.1) := fun h => he (by rw [h])
        rw [if_neg hslot, List.filter_cons_of_neg (by simpa using he)]
    · have hslot : ¬slot = (a, e.1) := fun h => ha (by rw [h])
      rw [if_neg ha, if_neg ha, if_neg hslot]

/-- The slots after the reset and the writes of a `Modify`. -/
theorem foldl_slotOps (d : ChaseStorage) (a : H160) (storage : List (H256 × H256))
    (resetStorage : Bool) :
    let d' := ((if resetStorage then d.removeStorageForAddress a else []) ++
      storage.map (slotOp a)).foldl exec d
    SameAccounts d d' ∧ ∀ slot, d'.storageSlots.get slot =
      if a = slot.1 then
        afterEffects ((if resetStorage then [.clear] else []) ++
          (storage.filter (·.1 = slot.2)).map fun e => .write e.2) (d.storageSlots.get slot)
      else d.storageSlots.get slot := by
  intro d'
  have hd' : d' = (storage.map (slotOp a)).foldl exec
      ((if resetStorage then d.removeStorageForAddress a else []).foldl exec d) :=
    List.foldl_append
  rw [hd']
  cases resetStorage with
  | false => exact foldl_slotOp a storage d
  | true =>
    obtain ⟨⟨haccounts, hindex⟩, hget⟩ := foldl_removeStorageForAddress d a
    obtain ⟨⟨haccounts', hindex'⟩, hget'⟩ :=
      foldl_slotOp a storage ((d.removeStorageForAddress a).foldl exec d)
    refine ⟨⟨haccounts'.trans haccounts, hindex'.trans hindex⟩, fun slot => (hget' slot).trans ?_⟩
    rw [hget]
    by_cases ha : a = slot.1
    · rw [if_pos ha, if_pos ha, if_pos ha, if_pos rfl, afterEffects_append]
      rfl
    · rw [if_neg ha, if_neg ha, if_neg ha]

/-- What `persist_applies` leaves for one effect. -/
theorem persistOne_spec (d : ChaseStorage) (x : Apply) :
    (d.persistOne x).accounts = persistAccount d.accounts x ∧
      (d.persistOne x).executionIndex = d.executionIndex ∧
      ∀ slot, (d.persistOne x).storageSlots.get slot =
        afterEffects (slotEffects d.accounts x slot) (d.storageSlots.get slot) := by
  cases x with
  | delete a =>
    obtain ⟨⟨haccounts, hindex⟩, hget⟩ :=
      foldl_removeStorageForAddress (d.exec (.removeAccount a)) a
    refine ⟨haccounts, hindex, fun slot => (hget slot).trans ?_⟩
    rw [slotEffects, Apply.address]
    split <;> rfl
  | modify a basic code storage resetStorage =>
    obtain ⟨⟨haccounts, hindex⟩, hget⟩ := foldl_slotOps d a storage resetStorage
    rw [persistOne, persistOps]
    dsimp only
    split
    · rename_i hempty
      have hempties : Empties d.accounts a basic code := hempty
      rw [List.foldl_append, List.foldl_cons]
      generalize hd' : ((if resetStorage then d.removeStorageForAddress a else []) ++
        storage.map (slotOp a)).foldl exec d = d' at haccounts hindex hget ⊢
      obtain ⟨⟨haccounts', hindex'⟩, hget'⟩ :=
        foldl_removeStorageForAddress (d'.exec (.removeAccount a)) a
      refine ⟨haccounts'.trans ?_, hindex'.trans hindex, fun slot => (hget' slot).trans ?_⟩
      · rw [persistAccount, if_pos hempties, exec, haccounts]
      · rw [slotEffects, Apply.address]
        by_cases ha : a = slot.1
        · rw [if_pos ha, if_pos ha, if_pos hempties, afterEffects_append]
          rfl
        · rw [if_neg ha, if_neg ha]
          exact (hget slot).trans (if_neg ha)
    · rename_i hnonempty
      have hnot : ¬Empties d.accounts a basic code := hnonempty
      rw [List.foldl_append, List.foldl_cons, List.foldl_nil]
      refine ⟨?_, hindex, fun slot => (hget slot).trans ?_⟩
      · rw [persistAccount, if_neg hnot, exec, haccounts]
      · rw [slotEffects, Apply.address, if_neg hnot, List.append_nil]
        split <;> rfl

end ChaseStorage

end Chase.Stack
