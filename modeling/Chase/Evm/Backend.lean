import Chase.Evm.Basic
import Chase.Lib.LastWrite
import Chase.Lib.Lockstep

/-!
# The two memory backends

`MemoryBackend::apply` (`memory_backend.rs:129`) updates an account in place under the write lock of
the whole state. `CMemoryBackend::apply` (`concurrent_memory_backend.rs:157`) is the second copy of
the same transition over a concurrent map: it takes a clone of the account, updates the clone and
removes the address when the clone is empty, but never stores the clone. So the concurrent backend
follows the serial one only as long as every `Modify` either leaves the account as it was or empties
it under `delete_empty` (`KeepsOrEmpties`, `cmemoryBackend_agrees_iff`).
-/

namespace Chase

open Function LastWrite

/-! ## The transition of one account -/

/-- The entries with a zero value are dropped (the loop over `zeros`). -/
def removeZeros (m : H256 → Option H256) : H256 → Option H256 := fun k =>
  match m k with
  | some v => if v = 0#256 then none else some v
  | none => none

/-- One storage write: a zero removes the entry. -/
def writeSlot (m : H256 → Option H256) (e : H256 × H256) : H256 → Option H256 :=
  if e.2 = 0#256 then update m e.1 none else update m e.1 (some e.2)

/-- The block that both backends run on the account of a `Modify`. -/
def Account.modify (acc : Account) (basic : Basic) (code : Option Bytes)
    (storage : List (H256 × H256)) (resetStorage : Bool) : Account :=
  let base := if resetStorage then fun _ => none else acc.storage
  { balance := basic.balance
    nonce := basic.nonce
    code := code.getD acc.code
    storage := storage.foldl writeSlot (removeZeros base) }

/-- The value of the block: the account has no balance, no nonce and no code. -/
def Account.isEmpty (acc : Account) : Bool :=
  acc.balance = 0#256 && acc.nonce = 0#256 && acc.code.isEmpty

/-! ## The two `apply` functions -/

/-- One iteration of the loop of `MemoryBackend::apply`. -/
def MemoryBackend.applyOne (deleteEmpty : Bool) (s : State) : Apply → State
  | .modify a basic code storage resetStorage =>
    let account := ((s a).getD {}).modify basic code storage resetStorage
    let s := update s a (some account)
    if account.isEmpty && deleteEmpty then update s a none else s
  | .delete a => update s a none

/-- `MemoryBackend::apply`. -/
def MemoryBackend.apply (s : State) (values : List Apply) (deleteEmpty : Bool) : State :=
  values.foldl (MemoryBackend.applyOne deleteEmpty) s

/-- One iteration of the loop of `CMemoryBackend::apply`. The updated `account` is a clone that is
only asked whether it is empty. -/
def CMemoryBackend.applyOne (deleteEmpty : Bool) (s : State) : Apply → State
  | .modify a basic code storage resetStorage =>
    let account := ((s a).getD {}).modify basic code storage resetStorage
    if account.isEmpty && deleteEmpty then update s a none else s
  | .delete a => update s a none

/-- `CMemoryBackend::apply`. -/
def CMemoryBackend.apply (s : State) (values : List Apply) (deleteEmpty : Bool) : State :=
  values.foldl (CMemoryBackend.applyOne deleteEmpty) s

/-! ## Storage of a modified account -/

/-- Removing the zeros changes no answer. -/
theorem removeZeros_getD (m : H256 → Option H256) (k : H256) :
    (removeZeros m k).getD 0#256 = (m k).getD 0#256 := by
  unfold removeZeros
  cases h : m k with
  | none => rfl
  | some v => by_cases hv : v = 0#256 <;> simp [hv]

/-- A write changes the answer for its key. -/
theorem writeSlot_getD (m : H256 → Option H256) (e : H256 × H256) (k : H256) :
    (writeSlot m e k).getD 0#256 = if e.1 = k then e.2 else (m k).getD 0#256 := by
  unfold writeSlot
  by_cases hk : e.1 = k
  · subst hk
    by_cases hv : e.2 = 0#256 <;> simp [hv]
  · by_cases hv : e.2 = 0#256 <;> simp [hv, hk, update_of_ne (Ne.symm hk)]

/-- A slot reads, after the writes, the last value written to it, or what it read before. -/
theorem foldl_writeSlot_getD (storage : List (H256 × H256)) (m : H256 → Option H256) (k : H256) :
    (storage.foldl writeSlot m k).getD 0#256 = (lastWrite storage k).getD ((m k).getD 0#256) := by
  induction storage using List.reverseRecOn with
  | nil => rfl
  | append_singleton storage e ih =>
    rw [List.foldl_append, List.foldl_cons, List.foldl_nil, writeSlot_getD, ih,
      lastWrite_append_single]
    split <;> rfl

/-- The storage that a `Modify` of the account at `a` leaves in the slot `k`. -/
def modifiedSlot (s : State) (a : H160) (storage : List (H256 × H256)) (resetStorage : Bool)
    (k : H256) : H256 :=
  (lastWrite storage k).getD (if resetStorage then 0#256 else s.storage a k)

/-- The storage of a modified account, slot by slot. -/
theorem modify_storage_getD (s : State) (a : H160) (basic : Basic) (code : Option Bytes)
    (storage : List (H256 × H256)) (resetStorage : Bool) (k : H256) :
    ((((s a).getD {}).modify basic code storage resetStorage).storage k).getD 0#256 =
      modifiedSlot s a storage resetStorage k := by
  simp only [Account.modify, foldl_writeSlot_getD, modifiedSlot, removeZeros_getD]
  cases resetStorage
  · cases h : s a <;> simp [State.storage, h]
  · simp

/-- A `Modify` empties the account at `a`: it sets no balance, no nonce and leaves no code. -/
def Empties (s : State) (a : H160) (basic : Basic) (code : Option Bytes) : Prop :=
  basic.balance = 0#256 ∧ basic.nonce = 0#256 ∧ code.getD (s.code a) = []

instance (s : State) (a : H160) (basic : Basic) (code : Option Bytes) :
    Decidable (Empties s a basic code) := inferInstanceAs (Decidable (_ ∧ _ ∧ _))

theorem getD_code (s : State) (a : H160) : ((s a).getD {}).code = s.code a := by
  cases h : s a <;> simp [State.code, h]

/-- A modified account is empty when its balance, its nonce and its code are. -/
theorem modify_isEmpty_iff (s : State) (a : H160) (basic : Basic) (code : Option Bytes)
    (storage : List (H256 × H256)) (resetStorage : Bool) :
    (((s a).getD {}).modify basic code storage resetStorage).isEmpty = true ↔
      Empties s a basic code := by
  rw [Empties, ← getD_code, Account.isEmpty, Bool.and_eq_true, Bool.and_eq_true, decide_eq_true_iff,
    decide_eq_true_iff, List.isEmpty_iff, and_assoc]
  rfl

/-- A `Modify` on the serial backend removes an account that it empties under `delete_empty`, and
otherwise stores the modified account. -/
theorem MemoryBackend.applyOne_modify (deleteEmpty : Bool) (s : State) (a : H160) (basic : Basic)
    (code : Option Bytes) (storage : List (H256 × H256)) (resetStorage : Bool) :
    MemoryBackend.applyOne deleteEmpty s (.modify a basic code storage resetStorage) =
      if deleteEmpty = true ∧ Empties s a basic code then update s a none
      else update s a (some (((s a).getD {}).modify basic code storage resetStorage)) := by
  simp only [MemoryBackend.applyOne, update_idem, Bool.and_eq_true, modify_isEmpty_iff, and_comm]

/-- An effect changes its own account only. -/
theorem MemoryBackend.applyOne_of_ne {deleteEmpty : Bool} (s : State) {x : Apply} {a : H160}
    (h : x.address ≠ a) : MemoryBackend.applyOne deleteEmpty s x a = s a := by
  cases x with
  | delete b => exact update_of_ne (Ne.symm h) _ _
  | modify b basic code storage resetStorage =>
    rw [MemoryBackend.applyOne_modify]
    split <;> exact update_of_ne (Ne.symm h) _ _

/-- A `Modify` on the concurrent backend removes an account that it empties under `delete_empty`,
and otherwise leaves the state as it is. -/
theorem CMemoryBackend.applyOne_modify (deleteEmpty : Bool) (s : State) (a : H160) (basic : Basic)
    (code : Option Bytes) (storage : List (H256 × H256)) (resetStorage : Bool) :
    CMemoryBackend.applyOne deleteEmpty s (.modify a basic code storage resetStorage) =
      if deleteEmpty = true ∧ Empties s a basic code then update s a none else s := by
  simp only [CMemoryBackend.applyOne, Bool.and_eq_true, modify_isEmpty_iff, and_comm]

/-! ## One step -/

/-- The answers of a state in which the account at `a` was replaced are the account's at `a` and
the old ones elsewhere. -/
theorem sameAnswers_update_iff {s t : State} (h : SameAnswers s t) (a : H160) (acc : Account) :
    SameAnswers s (update t a (some acc)) ↔
      s.exists a = true ∧ s.basic a = ⟨acc.balance, acc.nonce⟩ ∧ s.code a = acc.code ∧
        ∀ k, s.storage a k = (acc.storage k).getD 0#256 := by
  constructor
  · rintro ⟨h1, h2, h3, h4⟩
    have h1 := h1 a; have h2 := h2 a; have h3 := h3 a
    refine ⟨?_, ?_, ?_, fun k => ?_⟩
    · simpa [State.exists] using h1
    · simpa [State.basic] using h2
    · simpa [State.code] using h3
    · simpa [State.storage] using h4 a k
  · rintro ⟨h1, h2, h3, h4⟩
    constructor
    · intro b
      by_cases hb : b = a
      · subst hb; simpa [State.exists] using h1
      · simpa [State.exists, update_of_ne hb] using h.exists b
    · intro b
      by_cases hb : b = a
      · subst hb; simpa [State.basic] using h2
      · simpa [State.basic, update_of_ne hb] using h.basic b
    · intro b
      by_cases hb : b = a
      · subst hb; simpa [State.code] using h3
      · simpa [State.code, update_of_ne hb] using h.code b
    · intro b k
      by_cases hb : b = a
      · subst hb; simpa [State.storage] using h4 k
      · simpa [State.storage, update_of_ne hb] using h.storage b k

/-- Removing the same address keeps the answers equal. -/
theorem SameAnswers.remove {s t : State} (h : SameAnswers s t) (a : H160) :
    SameAnswers (update s a none) (update t a none) := by
  constructor
  · intro b
    by_cases hb : b = a
    · subst hb; simp [State.exists]
    · simpa [State.exists, update_of_ne hb] using h.exists b
  · intro b
    by_cases hb : b = a
    · subst hb; simp [State.basic]
    · simpa [State.basic, update_of_ne hb] using h.basic b
  · intro b
    by_cases hb : b = a
    · subst hb; simp [State.code]
    · simpa [State.code, update_of_ne hb] using h.code b
  · intro b k
    by_cases hb : b = a
    · subst hb; simp [State.storage]
    · simpa [State.storage, update_of_ne hb] using h.storage b k

/-- What a step must be for the concurrent backend to follow: an account that it deletes, an account
that `delete_empty` removes, or an account that the step leaves as it was. -/
def KeepsOrEmpties (deleteEmpty : Bool) (s : State) : Apply → Prop
  | .modify a basic code storage resetStorage =>
    (deleteEmpty = true ∧ Empties s a basic code) ∨
      (s.exists a = true ∧ s.basic a = basic ∧ code.getD (s.code a) = s.code a ∧
        ∀ k, modifiedSlot s a storage resetStorage k = s.storage a k)
  | .delete _ => True

/-- From states with the same answers, one step of the two backends leads to states with the same
answers exactly when it keeps or empties its account. -/
theorem sameAnswers_applyOne_iff (deleteEmpty : Bool) (s t : State) (op : Apply)
    (h : SameAnswers s t) :
    SameAnswers (CMemoryBackend.applyOne deleteEmpty s op)
      (MemoryBackend.applyOne deleteEmpty t op) ↔ KeepsOrEmpties deleteEmpty t op := by
  cases op with
  | delete a => exact ⟨fun _ => trivial, fun _ => h.remove a⟩
  | modify a basic code storage resetStorage =>
    -- the two clones are empty together, since the answers for the code agree
    have hst : Empties s a basic code ↔ Empties t a basic code := by rw [Empties, Empties, h.code a]
    rw [CMemoryBackend.applyOne_modify, MemoryBackend.applyOne_modify, KeepsOrEmpties]
    simp only [hst]
    by_cases hd : deleteEmpty = true ∧ Empties t a basic code
    · rw [if_pos hd, if_pos hd]
      exact ⟨fun _ => .inl hd, fun _ => h.remove a⟩
    · rw [if_neg hd, if_neg hd, sameAnswers_update_iff h, or_iff_right hd]
      simp only [modify_storage_getD, h.exists a, h.basic a, h.code a, h.storage a]
      refine and_congr_right fun _ => and_congr_right fun _ => and_congr ?_ ?_
      · rw [eq_comm, Account.modify, getD_code]
      · exact forall_congr' fun _ => eq_comm

/-- The concurrent backend gives the answers of the serial one in every state of a run exactly when
every effect of the run keeps or empties its account in the state it meets. -/
theorem cmemoryBackend_agrees_iff (s : State) (values : List (List Apply)) (deleteEmpty : Bool) :
    (∀ n, SameAnswers (CMemoryBackend.apply s (values.flatten.take n) deleteEmpty)
        (MemoryBackend.apply s (values.flatten.take n) deleteEmpty)) ↔
      Lockstep.Meets (MemoryBackend.applyOne deleteEmpty) (KeepsOrEmpties deleteEmpty) s
        values.flatten :=
  Lockstep.lockstep_iff (sameAnswers_applyOne_iff deleteEmpty) (SameAnswers.refl s) values.flatten

/-- A `Modify` of an absent account: the serial backend creates it, the concurrent one does not. -/
theorem cmemoryBackend_drops_modify :
    ¬ SameAnswers
      ([[Apply.modify 1 ⟨5, 1⟩ none [(2, 3)] false]].foldl
        (fun s v => CMemoryBackend.apply s v false) State.empty)
      ([[Apply.modify 1 ⟨5, 1⟩ none [(2, 3)] false]].foldl
        (fun s v => MemoryBackend.apply s v false) State.empty) := by
  intro h
  have h1 := h.exists 1
  revert h1
  decide

end Chase
