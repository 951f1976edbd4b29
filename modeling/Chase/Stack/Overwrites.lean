import Chase.Stack.Tables

/-!
# Overwrites of the slot table

Two kinds of calls change the slot table: `persist_applies`, and `put_storage_slot` for the entries
that the cache stores. A run of such calls (`TableStep`) is a sequence of overwrites for every slot,
and the last one decides what the slot holds (`run_spec`). The accounts are changed by
`persist_applies` alone.
-/

namespace Chase.Stack

open LastWrite

/-- The accounts after a list of effects. -/
def persistAccounts (accounts : DBMap H160 StoredAccount) (applies : List Apply) :
    DBMap H160 StoredAccount :=
  applies.foldl ChaseStorage.persistAccount accounts

/-- What a list of effects does to a slot, when they are persisted. -/
def batchEffects : DBMap H160 StoredAccount → List Apply → Slot → List SlotEffect
  | _, [], _ => []
  | accounts, x :: applies, slot =>
    ChaseStorage.slotEffects accounts x slot ++
      batchEffects (ChaseStorage.persistAccount accounts x) applies slot

/-- What writes do to a slot. -/
def writeEffects (writes : List (Slot × H256)) (slot : Slot) : List SlotEffect :=
  (writes.filter (·.1 = slot)).map fun e => .write e.2

/-- The effects of two batches on a slot, the second over the accounts of the first. -/
theorem batchEffects_append (accounts : DBMap H160 StoredAccount) (applies applies' : List Apply)
    (slot : Slot) :
    batchEffects accounts (applies ++ applies') slot = batchEffects accounts applies slot ++
      batchEffects (persistAccounts accounts applies) applies' slot := by
  induction applies generalizing accounts with
  | nil => rfl
  | cons x applies ih =>
    rw [List.cons_append, batchEffects, ih, batchEffects, List.append_assoc]
    rfl

/-- Writes leave the last value. -/
theorem getLast?_writeEffects (writes : List (Slot × H256)) (slot : Slot) :
    (writeEffects writes slot).getLast? = (lastWrite writes slot).map SlotEffect.write := by
  rw [writeEffects, lastWrite_eq_getLast?, List.getLast?_map, List.getLast?_map, Option.map_map]
  rfl

namespace ChaseStorage

/-- `put_storage_slot`. -/
def putStorageSlot (d : ChaseStorage) (e : Slot × H256) : ChaseStorage :=
  if e.2 = 0#256 then { d with storageSlots := d.storageSlots.remove e.1 }
  else { d with storageSlots := d.storageSlots.insert e.1 e.2 }

theorem putStorageSlot_eq_exec (d : ChaseStorage) (e : Slot × H256) :
    d.putStorageSlot e = d.exec (slotOp e.1.1 (e.1.2, e.2)) := by
  rw [putStorageSlot, slotOp]
  split <;> rfl

/-- What persisting a batch does to the tables. -/
theorem persistApplies_spec (d : ChaseStorage) (applies : List Apply) :
    (d.persistApplies applies).accounts = persistAccounts d.accounts applies ∧
      (d.persistApplies applies).executionIndex = d.executionIndex ∧
      ∀ slot, (d.persistApplies applies).storageSlots.get slot =
        afterEffects (batchEffects d.accounts applies slot) (d.storageSlots.get slot) := by
  induction applies generalizing d with
  | nil => exact ⟨rfl, rfl, fun slot => rfl⟩
  | cons x applies ih =>
    obtain ⟨haccounts, hindex, hget⟩ := d.persistOne_spec x
    obtain ⟨haccounts', hindex', hget'⟩ := ih (d.persistOne x)
    refine ⟨haccounts'.trans ?_, hindex'.trans hindex, fun slot => (hget' slot).trans ?_⟩
    · rw [haccounts]
      rfl
    · rw [haccounts, hget, batchEffects, afterEffects_append]

/-- What the puts of slots do to the tables. -/
theorem foldl_putStorageSlot_spec (writes : List (Slot × H256)) (d : ChaseStorage) :
    SameAccounts d (writes.foldl putStorageSlot d) ∧
      ∀ slot, (writes.foldl putStorageSlot d).storageSlots.get slot =
        afterEffects (writeEffects writes slot) (d.storageSlots.get slot) := by
  induction writes generalizing d with
  | nil => exact ⟨⟨rfl, rfl⟩, fun slot => rfl⟩
  | cons e writes ih =>
    obtain ⟨⟨haccounts, hindex⟩, hget⟩ := exec_slotOp d e.1.1 (e.1.2, e.2)
    rw [← putStorageSlot_eq_exec] at haccounts hindex hget
    obtain ⟨⟨haccounts', hindex'⟩, hget'⟩ := ih (d.putStorageSlot e)
    refine ⟨⟨haccounts'.trans haccounts, hindex'.trans hindex⟩, fun slot => (hget' slot).trans ?_⟩
    rw [hget, writeEffects, writeEffects]
    by_cases hslot : e.1 = slot
    · rw [if_pos hslot.symm, List.filter_cons_of_pos (by simpa using hslot), List.map_cons,
        ← List.singleton_append, afterEffects_append]
      rfl
    · rw [if_neg (Ne.symm hslot), List.filter_cons_of_neg (by simpa using hslot)]

end ChaseStorage

/-! ## Runs -/

/-- A call on the tables: effects that are persisted, or slots that are put. -/
structure TableStep where
  applies : List Apply := []
  puts : List (Slot × H256) := []

namespace TableStep

/-- What the call does to the tables. -/
def run (d : ChaseStorage) (step : TableStep) : ChaseStorage :=
  step.puts.foldl ChaseStorage.putStorageSlot (d.persistApplies step.applies)

/-- What the call does to a slot. -/
def effects (accounts : DBMap H160 StoredAccount) (slot : Slot) (step : TableStep) :
    List SlotEffect :=
  batchEffects accounts step.applies slot ++ writeEffects step.puts slot

/-- What a run does to a slot. -/
def runEffects (slot : Slot) : DBMap H160 StoredAccount → List TableStep → List SlotEffect
  | _, [] => []
  | accounts, step :: steps =>
    step.effects accounts slot ++ runEffects slot (persistAccounts accounts step.applies) steps

/-- The effects that a run persists. -/
def persisted (steps : List TableStep) : List Apply := steps.flatMap (·.applies)

theorem persisted_append (steps steps' : List TableStep) :
    persisted (steps ++ steps') = persisted steps ++ persisted steps' := List.flatMap_append

/-- The effects of two runs on a slot, the second over the accounts of the first. -/
theorem runEffects_append (slot : Slot) (accounts : DBMap H160 StoredAccount)
    (steps steps' : List TableStep) :
    runEffects slot accounts (steps ++ steps') = runEffects slot accounts steps ++
      runEffects slot (persistAccounts accounts (persisted steps)) steps' := by
  induction steps generalizing accounts with
  | nil => rfl
  | cons step steps ih =>
    have hcons : persistAccounts accounts (persisted (step :: steps)) =
        persistAccounts (persistAccounts accounts step.applies) (persisted steps) :=
      List.foldl_append
    rw [List.cons_append, runEffects, ih, runEffects, List.append_assoc, hcons]

/-- The effects of one step. -/
theorem runEffects_single (slot : Slot) (accounts : DBMap H160 StoredAccount) (step : TableStep) :
    runEffects slot accounts [step] = step.effects accounts slot :=
  List.append_nil _

/-- A slot holds what the last overwrite of the run leaves. -/
theorem run_spec (steps : List TableStep) (d : ChaseStorage) :
    (steps.foldl run d).accounts = persistAccounts d.accounts (persisted steps) ∧
      (steps.foldl run d).executionIndex = d.executionIndex ∧
      ∀ slot, (steps.foldl run d).storageSlots.get slot =
        afterEffects (runEffects slot d.accounts steps) (d.storageSlots.get slot) := by
  induction steps generalizing d with
  | nil => exact ⟨rfl, rfl, fun slot => rfl⟩
  | cons step steps ih =>
    obtain ⟨haccounts, hindex, hget⟩ := d.persistApplies_spec step.applies
    obtain ⟨⟨haccounts', hindex'⟩, hget'⟩ :=
      ChaseStorage.foldl_putStorageSlot_spec step.puts (d.persistApplies step.applies)
    obtain ⟨haccounts'', hindex'', hget''⟩ := ih (step.run d)
    have hstep : (step.run d).accounts = persistAccounts d.accounts step.applies :=
      haccounts'.trans haccounts
    refine ⟨haccounts''.trans ?_, hindex''.trans (hindex'.trans hindex),
      fun slot => (hget'' slot).trans ?_⟩
    · rw [hstep]
      exact List.foldl_append.symm
    · rw [hstep, runEffects, effects, afterEffects_append, afterEffects_append, ← hget, ← hget']
      rfl

/-- What the persisted effects do to a slot is a part of what the run does to it. -/
theorem batchEffects_sublist (slot : Slot) (accounts : DBMap H160 StoredAccount)
    (steps : List TableStep) :
    List.Sublist (batchEffects accounts (persisted steps) slot)
      (runEffects slot accounts steps) := by
  induction steps generalizing accounts with
  | nil => exact .slnil
  | cons step steps ih =>
    have hcons : persisted (step :: steps) = step.applies ++ persisted steps := rfl
    rw [hcons, batchEffects_append, runEffects, effects]
    exact (List.sublist_append_left _ _).append (ih _)

/-- After a call that is the last to overwrite a slot, with a put, the slot holds the value of the
put, and the persisted effects do nothing to it any more. -/
theorem last_put {slot : Slot} {accounts : DBMap H160 StoredAccount} {pre post : List TableStep}
    {step : TableStep} {v : H256} (hv : lastWrite step.puts slot = some v)
    (hpost : runEffects slot (persistAccounts accounts (persisted (pre ++ [step]))) post = [])
    (old : Option H256) :
    afterEffects (runEffects slot accounts (pre ++ step :: post)) old = (SlotEffect.write v).apply ∧
      batchEffects accounts (persisted (pre ++ step :: post)) slot =
        batchEffects accounts (persisted (pre ++ [step])) slot := by
  have hsplit : pre ++ step :: post = pre ++ [step] ++ post := by
    rw [List.append_assoc]
    rfl
  have hput : (writeEffects step.puts slot).getLast? = some (.write v) := by
    rw [getLast?_writeEffects, hv]
    rfl
  rw [hsplit]
  constructor
  · rw [runEffects_append, hpost, List.append_nil, runEffects_append, runEffects_single, effects,
      ← List.append_assoc, afterEffects_append, afterEffects_of_getLast? hput]
  · have hnil :=
      batchEffects_sublist slot (persistAccounts accounts (persisted (pre ++ [step]))) post
    rw [hpost, List.sublist_nil] at hnil
    rw [persisted_append, batchEffects_append, hnil, List.append_nil]

/-- When a put is the last to overwrite the slot, it leaves there what the persisted effects had
left. -/
def PutsKeep (accounts : DBMap H160 StoredAccount) (old : Option H256) (steps : List TableStep)
    (slot : Slot) : Prop :=
  ∀ pre step post v, steps = pre ++ step :: post → lastWrite step.puts slot = some v →
    runEffects slot (persistAccounts accounts (persisted (pre ++ [step]))) post = [] →
    (SlotEffect.write v).apply =
      afterEffects (batchEffects accounts (persisted (pre ++ [step])) slot) old

/-- A run leaves in a slot what the persisted effects leave, exactly when its last put to the slot
keeps it. -/
theorem agrees_iff (accounts : DBMap H160 StoredAccount) (old : Option H256)
    (steps : List TableStep) (slot : Slot) :
    afterEffects (runEffects slot accounts steps) old =
        afterEffects (batchEffects accounts (persisted steps) slot) old ↔
      PutsKeep accounts old steps slot := by
  constructor
  · intro hagree pre step post v hsteps hv hpost
    subst hsteps
    obtain ⟨hrun, hbatch⟩ := last_put hv hpost old
    rw [← hrun, ← hbatch, hagree]
  · intro hkeep
    induction steps using List.reverseRecOn with
    | nil => rfl
    | append_singleton steps step ih =>
      cases hv : lastWrite step.puts slot with
      | some v =>
        have hpost :
            runEffects slot (persistAccounts accounts (persisted (steps ++ [step]))) [] = [] :=
          rfl
        rw [(last_put hv hpost old).1]
        exact hkeep steps step [] v rfl hv rfl
      | none =>
        have hputs : writeEffects step.puts slot = [] := by
          rw [← List.getLast?_eq_none_iff, getLast?_writeEffects, hv]
          rfl
        have happlies : persisted (steps ++ [step]) = persisted steps ++ step.applies := by
          rw [persisted_append]
          exact congrArg _ (List.append_nil _)
        rw [runEffects_append, runEffects_single, effects, hputs, List.append_nil, happlies,
          batchEffects_append, afterEffects_append, afterEffects_append]
        cases hlast : (batchEffects (persistAccounts accounts (persisted steps)) step.applies
            slot).getLast? with
        | some effect => rw [afterEffects_of_getLast? hlast, afterEffects_of_getLast? hlast]
        | none =>
          rw [List.getLast?_eq_none_iff] at hlast
          rw [hlast, afterEffects_nil, afterEffects_nil]
          refine ih fun pre step' post v hsteps hv' hpost => ?_
          refine hkeep pre step' (post ++ [step]) v ?_ hv' ?_
          · rw [hsteps, List.append_assoc]
            rfl
          · have haccounts : persistAccounts (persistAccounts accounts (persisted (pre ++ [step'])))
                (persisted post) = persistAccounts accounts (persisted steps) := by
              rw [hsteps]
              refine List.foldl_append.symm.trans (congrArg (persistAccounts accounts) ?_)
              rw [← persisted_append, List.append_assoc]
              rfl
            rw [runEffects_append, hpost, haccounts, runEffects_single, effects, hputs, hlast]
            rfl

end TableStep

end Chase.Stack
