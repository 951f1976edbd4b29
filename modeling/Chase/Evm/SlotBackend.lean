import Chase.Evm.Backend

/-!
# Backends as storage slots

A backend seen through the storage that it answers. Applying effects changes each slot on its own
(`SlotBackend`), for the serial backend to the value that the effects last apply to the slot
(`memoryBackend_lastApplied`).
-/

namespace Chase

open Function LastWrite

/-- A backend whose `apply_local_effect` changes the storage slot by slot. -/
structure SlotBackend (β : Type) where
  apply : β → List Apply → β
  storage : β → Slot → H256
  slotUpdate : List Apply → Slot → H256 → H256
  storage_apply : ∀ b effects slot,
    storage (apply b effects) slot = slotUpdate effects slot (storage b slot)

/-- The value that one effect applies to a slot, if it does. -/
def Apply.effectOn (slot : Slot) : Apply → Option H256
  | .modify a _ _ storage resetStorage =>
    if a = slot.1 then (lastWrite storage slot.2).or (if resetStorage then some 0#256 else none)
    else none
  | .delete a => if a = slot.1 then some 0#256 else none

/-- The value that a list of effects last applies to a slot, if it does. -/
def lastApplied (effects : List Apply) (slot : Slot) : Option H256 :=
  effects.foldl (fun acc x => (x.effectOn slot).or acc) none

/-- A fold over the effects ends with the last one that concerns the slot. -/
theorem foldl_effectOn (effects : List Apply) (slot : Slot) (acc : Option H256) :
    effects.foldl (fun acc x => (x.effectOn slot).or acc) acc =
      (lastApplied effects slot).or acc := by
  induction effects using List.reverseRecOn with
  | nil => rfl
  | append_singleton effects x ih =>
    simp only [lastApplied, List.foldl_append, List.foldl_cons, List.foldl_nil] at ih ⊢
    rw [ih, Option.or_assoc]

/-- The last effect on a slot, of one more effect before. -/
theorem lastApplied_cons (x : Apply) (effects : List Apply) (slot : Slot) :
    lastApplied (x :: effects) slot = (lastApplied effects slot).or (x.effectOn slot) := by
  rw [lastApplied, List.foldl_cons, foldl_effectOn, Option.or_none]

/-- The last effect on a slot, of two lists. -/
theorem lastApplied_append (effects effects' : List Apply) (slot : Slot) :
    lastApplied (effects ++ effects') slot =
      (lastApplied effects' slot).or (lastApplied effects slot) := by
  rw [lastApplied, List.foldl_append, ← lastApplied, foldl_effectOn]

/-! ## The serial backend -/

/-- An update of an account changes its slots only. -/
theorem State.storage_update (s : State) (a : H160) (acc : Option Account) (slot : Slot) :
    State.storage (update s a acc) slot.1 slot.2 =
      if a = slot.1 then ((acc.map fun acc => (acc.storage slot.2).getD 0#256).getD 0#256)
      else s.storage slot.1 slot.2 := by
  by_cases h : a = slot.1
  · subst h
    cases acc <;> simp [State.storage]
  · simp [State.storage, update_of_ne (Ne.symm h), h]

/-- An effect changes the slots that it concerns. -/
theorem MemoryBackend.storage_applyOne (s : State) (x : Apply) (slot : Slot) :
    (MemoryBackend.applyOne false s x).storage slot.1 slot.2 =
      (x.effectOn slot).getD (s.storage slot.1 slot.2) := by
  cases x with
  | modify a basic code storage resetStorage =>
    rw [MemoryBackend.applyOne_modify, if_neg (by simp), State.storage_update, Apply.effectOn]
    by_cases h : a = slot.1
    · subst h
      rw [if_pos rfl, if_pos rfl, Option.map_some, Option.getD_some, modify_storage_getD,
        modifiedSlot, Option.getD_or]
      cases resetStorage <;> rfl
    · rw [if_neg h, if_neg h, Option.getD_none]
  | delete a =>
    rw [MemoryBackend.applyOne, State.storage_update, Apply.effectOn]
    split <;> rfl

/-- Effects leave the value of the last one that concerns the slot. -/
theorem MemoryBackend.storage_apply (s : State) (effects : List Apply) (slot : Slot) :
    (MemoryBackend.apply s effects false).storage slot.1 slot.2 =
      (lastApplied effects slot).getD (s.storage slot.1 slot.2) := by
  induction effects generalizing s with
  | nil => rfl
  | cons x effects ih =>
    rw [MemoryBackend.apply, List.foldl_cons, ← MemoryBackend.apply, ih,
      MemoryBackend.storage_applyOne, lastApplied_cons, Option.getD_or]

/-- `MemoryBackend` as slots. -/
def memoryBackend : SlotBackend State where
  apply s effects := MemoryBackend.apply s effects false
  storage s slot := s.storage slot.1 slot.2
  slotUpdate effects slot v := (lastApplied effects slot).getD v
  storage_apply := MemoryBackend.storage_apply

/-- A storage read returns the value last applied to the slot. -/
def SlotBackend.LastApplied {β : Type} (B : SlotBackend β) : Prop :=
  ∀ effects slot v, B.slotUpdate effects slot v = (lastApplied effects slot).getD v

theorem memoryBackend_lastApplied : memoryBackend.LastApplied := fun _ _ _ => rfl

/-! ## Slots under `delete_empty` -/

/-- The effect leaves the slot empty, though its storage writes do not say so. -/
def Apply.ClearsSlot (deleteEmpty : Bool) (s : State) (slot : Slot) : Apply → Prop
  | .modify a basic code storage resetStorage =>
    a = slot.1 ∧ (deleteEmpty = true ∧ Empties s a basic code ∨
      resetStorage = true ∧ slot.2 ∉ storage.map (·.1))
  | .delete a => a = slot.1

/-- The value that an effect writes to a slot. -/
def Apply.writeOn (slot : Slot) : Apply → Option H256
  | .modify a _ _ storage _ => if a = slot.1 then lastWrite storage slot.2 else none
  | .delete _ => none

/-- An effect that clears a slot leaves zero there. -/
theorem MemoryBackend.storage_applyOne_of_clears {deleteEmpty : Bool} {s : State} {slot : Slot}
    {x : Apply} (h : x.ClearsSlot deleteEmpty s slot) :
    (MemoryBackend.applyOne deleteEmpty s x).storage slot.1 slot.2 = 0#256 := by
  cases x with
  | delete a =>
    have ha : a = slot.1 := h
    rw [MemoryBackend.applyOne, State.storage_update, if_pos ha]
    rfl
  | modify a basic code storage resetStorage =>
    obtain ⟨ha, hcase⟩ := h
    rw [MemoryBackend.applyOne_modify]
    by_cases hempty : deleteEmpty = true ∧ Empties s a basic code
    · rw [if_pos hempty, State.storage_update, if_pos ha]
      rfl
    · obtain ⟨hreset, hkey⟩ := hcase.resolve_left hempty
      rw [if_neg hempty, State.storage_update, if_pos ha, Option.map_some, Option.getD_some,
        modify_storage_getD, modifiedSlot, lastWrite_eq_none_iff.2 hkey, hreset]
      rfl

/-- An effect that does not clear a slot leaves what it writes there, or what there was. -/
theorem MemoryBackend.storage_applyOne_of_not_clears {deleteEmpty : Bool} {s : State} {slot : Slot}
    {x : Apply} (h : ¬x.ClearsSlot deleteEmpty s slot) :
    (MemoryBackend.applyOne deleteEmpty s x).storage slot.1 slot.2 =
      (x.writeOn slot).getD (s.storage slot.1 slot.2) := by
  cases x with
  | delete a =>
    have ha : ¬a = slot.1 := h
    rw [MemoryBackend.applyOne, State.storage_update, if_neg ha]
    rfl
  | modify a basic code storage resetStorage =>
    rw [MemoryBackend.applyOne_modify, Apply.writeOn]
    by_cases ha : a = slot.1
    · have hempty : ¬(deleteEmpty = true ∧ Empties s a basic code) := fun he => h ⟨ha, .inl he⟩
      rw [if_neg hempty, State.storage_update, if_pos ha, Option.map_some, Option.getD_some,
        modify_storage_getD, modifiedSlot, if_pos ha]
      cases hlast : lastWrite storage slot.2 with
      | some v => rfl
      | none =>
        have hreset : ¬resetStorage = true := fun hreset =>
          h ⟨ha, .inr ⟨hreset, lastWrite_eq_none_iff.1 hlast⟩⟩
        rw [if_neg hreset, ha]
    · rw [if_neg ha, Option.getD_none]
      split
      · rw [State.storage_update, if_neg ha]
      · rw [State.storage_update, if_neg ha]

end Chase
