import Chase.Stack.Tables

/-!
# Recovery of the memory state

The memory that `hydrate_memory_backend` loads, after effects were persisted from empty tables, is
the state of a `MemoryBackend` that applied the same effects with `delete_empty`
(`hydrate_persistApplies`). The tables represent the state (`Represents`): besides the loaded state
being the same, an address without an account has no slots, and no slot is zero.
-/

namespace Chase.Stack

open Function

namespace ChaseStorage

/-! ## Loading -/

/-- The inner loop of `hydrate_memory_backend` takes the slots of the address. -/
def loadSlot (address : H160) (storage : H256 → Option H256) (e : Slot × H256) :
    H256 → Option H256 :=
  if e.1.1 = address then update storage e.1.2 (some e.2) else storage

/-- The account that `hydrate_memory_backend` makes of a stored one. -/
def loadAccount (d : ChaseStorage) (address : H160) (stored : StoredAccount) : Account where
  nonce := stored.nonce
  balance := stored.balance
  storage := d.storageSlots.foldl (loadSlot address) fun _ => none
  code := stored.code

/-- `hydrate_memory_backend`. -/
def hydrateMemoryBackend (d : ChaseStorage) (backend : State) : State :=
  d.accounts.foldl (fun (state : State) (e : H160 × StoredAccount) =>
    update state e.1 (some (d.loadAccount e.1 e.2))) backend

/-- The tables have distinct keys. -/
structure Keyed (d : ChaseStorage) : Prop where
  accounts : (d.accounts.map (·.1)).Nodup
  slots : (d.storageSlots.map (·.1)).Nodup

/-- A table operation keeps the keys distinct. -/
theorem Keyed.exec {d : ChaseStorage} (h : d.Keyed) (op : DbOp) : (d.exec op).Keyed := by
  cases op with
  | insertAccount a account => exact ⟨AssocMap.nodup_insert h.accounts, h.slots⟩
  | removeAccount a => exact ⟨AssocMap.nodup_remove h.accounts, h.slots⟩
  | insertSlot slot v => exact ⟨h.accounts, AssocMap.nodup_insert h.slots⟩
  | removeSlot slot => exact ⟨h.accounts, AssocMap.nodup_remove h.slots⟩

/-- Table operations keep the keys distinct. -/
theorem Keyed.foldl_exec {d : ChaseStorage} (h : d.Keyed) (ops : List DbOp) :
    (ops.foldl ChaseStorage.exec d).Keyed := by
  induction ops generalizing d with
  | nil => exact h
  | cons op ops ih => exact ih (h.exec op)

/-- The account that is loaded has the slots of its address. -/
theorem Keyed.loadAccount {d : ChaseStorage} (h : d.Keyed) (a : H160) (stored : StoredAccount) :
    d.loadAccount a stored =
      { nonce := stored.nonce
        balance := stored.balance
        storage := fun k => d.storageSlots.get (a, k)
        code := stored.code } := by
  have hfold : ∀ (slots : List (Slot × H256)) (f : H256 → Option H256) (g : Slot → Option H256),
      (∀ k, f k = g (a, k)) → ∀ k, slots.foldl (loadSlot a) f k =
        slots.foldl (fun (g : Slot → Option H256) (e : Slot × H256) => update g e.1 (some e.2)) g
          (a, k) := by
    intro slots
    induction slots with
    | nil => exact fun f g hfg => hfg
    | cons e slots ih =>
      intro f g hfg
      refine ih _ _ fun k => ?_
      show loadSlot a f e k = update g e.1 (some e.2) (a, k)
      rw [loadSlot]
      by_cases ha : e.1.1 = a
      · rw [if_pos ha]
        by_cases hk : k = e.1.2
        · have hslot : (a, k) = e.1 := Prod.ext ha.symm hk
          rw [hslot, update_self, hk, update_self]
        · have hslot : (a, k) ≠ e.1 := fun heq => hk (by rw [← heq])
          rw [update_of_ne hk, update_of_ne hslot, hfg]
      · have hslot : (a, k) ≠ e.1 := fun heq => ha (by rw [← heq])
        rw [if_neg ha, update_of_ne hslot, hfg]
  have hstorage : d.storageSlots.foldl (loadSlot a) (fun _ => none) =
      fun k => d.storageSlots.get (a, k) := by
    funext k
    refine (hfold d.storageSlots _ (fun _ => none) (fun _ => rfl) k).trans ?_
    rw [AssocMap.foldl_update h.slots, Option.or_none]
    rfl
  rw [ChaseStorage.loadAccount, hstorage]

/-- The loops of `hydrate_memory_backend` load the tables. -/
theorem Keyed.hydrateMemoryBackend {d : ChaseStorage} (h : d.Keyed) :
    d.hydrateMemoryBackend State.empty = d.hydrate := by
  have hfold : ∀ (accounts : List (H160 × StoredAccount)) (f : State)
      (g : H160 → Option StoredAccount), (∀ a, f a = (g a).map (d.loadAccount a)) → ∀ a,
        accounts.foldl (fun (state : State) (e : H160 × StoredAccount) =>
          update state e.1 (some (d.loadAccount e.1 e.2))) f a =
            (accounts.foldl (fun (g : H160 → Option StoredAccount) (e : H160 × StoredAccount) =>
              update g e.1 (some e.2)) g a).map (d.loadAccount a) := by
    intro accounts
    induction accounts with
    | nil => exact fun f g hfg => hfg
    | cons e accounts ih =>
      intro f g hfg
      refine ih _ _ fun a => ?_
      show update f e.1 _ a = (update g e.1 (some e.2) a).map _
      by_cases ha : a = e.1
      · subst ha
        rw [update_self, update_self]
        rfl
      · rw [update_of_ne ha, update_of_ne ha, hfg]
  funext a
  refine (hfold d.accounts _ (fun _ => none) (fun _ => rfl) a).trans ?_
  rw [AssocMap.foldl_update h.accounts, Option.or_none]
  exact congrArg (fun f => Option.map f (d.accounts.get a)) (funext (h.loadAccount a))

/-! ## The tables represent the state -/

/-- The tables hold the state `s`. -/
structure Represents (d : ChaseStorage) (s : State) : Prop where
  keyed : d.Keyed
  state : d.hydrate = s
  unowned : ∀ a, d.accounts.get a = none → ∀ k, d.storageSlots.get (a, k) = none
  nonzero : ∀ slot, d.storageSlots.get slot ≠ some 0#256

/-- The effects leave no zero in the table. -/
theorem afterEffects_ne_zero {effects : List SlotEffect} {old : Option H256}
    (h : old ≠ some 0#256) : afterEffects effects old ≠ some 0#256 := by
  unfold afterEffects
  cases effects.getLast? with
  | none => exact h
  | some effect =>
    cases effect with
    | clear => exact nofun
    | write v =>
      dsimp only [SlotEffect.apply]
      split
      · exact nofun
      · rename_i hv
        exact fun heq => hv (Option.some.inj heq)

/-- Writes of slots are their effects, one key at a time. -/
theorem foldl_writeSlot (storage : List (H256 × H256)) (m : H256 → Option H256) (k : H256) :
    storage.foldl writeSlot m k =
      afterEffects ((storage.filter (·.1 = k)).map fun e => .write e.2) (m k) := by
  induction storage generalizing m with
  | nil => rfl
  | cons e storage ih =>
    rw [List.foldl_cons, ih]
    by_cases hk : e.1 = k
    · rw [List.filter_cons_of_pos (by simpa using hk), List.map_cons, ← List.singleton_append,
        afterEffects_append, afterEffects_singleton, writeSlot, SlotEffect.apply, ← hk]
      split <;> rw [update_self]
    · rw [List.filter_cons_of_neg (by simpa using hk), writeSlot]
      split <;> rw [update_of_ne (Ne.symm hk)]

/-- Without zeros, there is nothing to remove. -/
theorem removeZeros_of_ne {m : H256 → Option H256} (h : ∀ k, m k ≠ some 0#256) :
    removeZeros m = m := by
  funext k
  rw [removeZeros]
  cases hk : m k with
  | none => rfl
  | some v =>
    refine if_neg fun hv => h k ?_
    rw [hk, hv]

/-- An apply touches the row of its own address only. -/
theorem get_persistAccount_of_ne {accounts : DBMap H160 StoredAccount} {x : Apply} {b : H160}
    (hb : x.address ≠ b) : (persistAccount accounts x).get b = accounts.get b := by
  cases x with
  | delete a => exact (DBMap.get_remove _ _ _).trans (if_neg (Ne.symm hb))
  | modify a basic code storage resetStorage =>
    rw [persistAccount]
    split
    · exact (DBMap.get_remove _ _ _).trans (if_neg (Ne.symm hb))
    · exact (DBMap.get_insert _ _ _ _).trans (if_neg (Ne.symm hb))

namespace Represents

variable {d : ChaseStorage} {s : State}

theorem empty : Represents {} State.empty :=
  ⟨⟨.nil, .nil⟩, rfl, fun _ _ _ => rfl, fun _ => nofun⟩

theorem code (h : Represents d s) (a : H160) : s.code a = ((d.accounts.get a).getD {}).code := by
  rw [← h.state, State.code, hydrate]
  cases d.accounts.get a <;> rfl

/-- Tables and state agree on whether an apply empties the account. -/
theorem empties_iff (h : Represents d s) (a : H160) (basic : Basic) (code : Option Bytes) :
    Chase.Empties s a basic code ↔ Empties d.accounts a basic code := by
  rw [Chase.Empties, h.code]
  rfl

/-- The storage of an account is what the table has under its address. -/
theorem storage (h : Represents d s) (a : H160) :
    ((s a).getD {}).storage = fun k => d.storageSlots.get (a, k) := by
  rw [← h.state, hydrate]
  cases ha : d.accounts.get a with
  | none =>
    funext k
    exact (h.unowned a ha k).symm
  | some stored => rfl

/-- The account that a `Modify` leaves is the one that is loaded from the tables. -/
theorem modify_storage (h : Represents d s) (a : H160) (basic : Basic) (code : Option Bytes)
    (storage : List (H256 × H256)) (resetStorage : Bool) (k : H256) :
    (((s a).getD {}).modify basic code storage resetStorage).storage k =
      afterEffects ((if resetStorage then [.clear] else []) ++
        (storage.filter (·.1 = k)).map fun e => .write e.2) (d.storageSlots.get (a, k)) := by
  have hbase : removeZeros (if resetStorage then fun _ => none else ((s a).getD {}).storage) k =
      afterEffects (if resetStorage then [.clear] else []) (d.storageSlots.get (a, k)) := by
    cases resetStorage with
    | true => rfl
    | false =>
      rw [h.storage, if_neg Bool.false_ne_true, if_neg Bool.false_ne_true,
        removeZeros_of_ne fun k => h.nonzero (a, k)]
      rfl
  rw [afterEffects_append, ← hbase]
  exact foldl_writeSlot storage _ k

/-- The account at an address that the effect is about. -/
theorem hydrate_persistOne (h : Represents d s) (x : Apply) :
    (d.persistOne x).hydrate x.address = MemoryBackend.applyOne true s x x.address := by
  obtain ⟨haccounts, -, hslots⟩ := d.persistOne_spec x
  rw [hydrate, haccounts]
  cases x with
  | delete a =>
    rw [persistAccount, Apply.address, DBMap.get_remove, if_pos rfl]
    exact (update_self a none s).symm
  | modify a basic code storage resetStorage =>
    rw [MemoryBackend.applyOne_modify, persistAccount, Apply.address]
    by_cases hempty : Empties d.accounts a basic code
    · rw [if_pos hempty, if_pos ⟨rfl, (h.empties_iff a basic code).2 hempty⟩, update_self,
        DBMap.get_remove, if_pos rfl]
      rfl
    · rw [if_neg hempty, if_neg fun hand => hempty ((h.empties_iff a basic code).1 hand.2),
        update_self, DBMap.get_insert, if_pos rfl, Option.map_some]
      have hstorage : (fun k =>
          (d.persistOne (.modify a basic code storage resetStorage)).storageSlots.get
          (a, k)) = (((s a).getD {}).modify basic code storage resetStorage).storage := by
        funext k
        rw [hslots, slotEffects, Apply.address, if_pos rfl, if_neg hempty, List.append_nil,
          h.modify_storage]
      rw [hstorage, ← h.code a, ← getD_code]
      rfl

/-- The tables and the memory make the same step. -/
theorem persistOne (h : Represents d s) (x : Apply) :
    Represents (d.persistOne x) (MemoryBackend.applyOne true s x) := by
  obtain ⟨haccounts, -, hslots⟩ := d.persistOne_spec x
  have hother : ∀ b, x.address ≠ b → ∀ k,
      (d.persistOne x).storageSlots.get (b, k) = d.storageSlots.get (b, k) := by
    intro b hb k
    rw [hslots, slotEffects_of_ne hb]
    rfl
  refine ⟨h.keyed.foldl_exec _, ?_, fun b hb k => ?_, fun slot => ?_⟩
  · funext b
    by_cases hb : x.address = b
    · exact hb ▸ h.hydrate_persistOne x
    · rw [hydrate, haccounts, get_persistAccount_of_ne hb, funext (hother b hb),
        MemoryBackend.applyOne_of_ne s hb, ← h.state]
      rfl
  · rw [haccounts] at hb
    by_cases hx : x.address = b
    · subst hx
      rw [hslots, afterEffects_of_removed hb]
    · rw [get_persistAccount_of_ne hx] at hb
      rw [hother b hx, h.unowned b hb]
  · rw [hslots]
    exact afterEffects_ne_zero (h.nonzero slot)

/-- The tables keep holding the state when an effect is persisted and applied. -/
theorem persistApplies (h : Represents d s) (applies : List Apply) :
    Represents (d.persistApplies applies) (MemoryBackend.apply s applies true) := by
  induction applies generalizing d s with
  | nil => exact h
  | cons x applies ih => exact ih (h.persistOne x)

end Represents

/-- **Recovery reproduces the state**: after any lists of effects are persisted from empty tables,
the loaded memory answers every read as a `MemoryBackend` that applied them with `delete_empty`. -/
theorem hydrate_persistApplies (lists : List (List Apply)) :
    SameAnswers ((lists.foldl persistApplies {}).hydrateMemoryBackend State.empty)
      (lists.foldl (fun s values => MemoryBackend.apply s values true) State.empty) := by
  have hlists : ∀ (lists : List (List Apply)) (d : ChaseStorage) (s : State), Represents d s →
      Represents (lists.foldl persistApplies d)
        (lists.foldl (fun s values => MemoryBackend.apply s values true) s) := by
    intro lists
    induction lists with
    | nil => exact fun d s h => h
    | cons applies lists ih => exact fun d s h => ih _ _ (h.persistApplies applies)
  have hrun := hlists lists {} State.empty .empty
  rw [hrun.keyed.hydrateMemoryBackend, hrun.state]
  exact .refl _

end ChaseStorage

end Chase.Stack
