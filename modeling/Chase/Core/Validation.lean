import Chase.Cds.Greedy
import Chase.Core.Accounts
import Chase.Core.Commit
import Chase.Lib.Acyclic
import Chase.Lib.FirstWins
import Chase.Lib.Optimistic

/-!
# Validation of re-executed transactions

The aborted transactions of an epoch are simulated again on one state, and those whose write sets
are disjoint are committed together (`_validate_optimistic_assumption`). When every re-execution
stays within the keys that were recorded before the abort, all transactions of the epoch are valid
and the commit is a serial run in the order of their ids (`abortedEpoch_serial`). When a
re-execution reads other slots, nothing checks what it has read: the valid transactions have a
serial order exactly when no transactions of the list that outlast their rivals read each other's
writes in a cycle (`validTxs_serializable_iff`).
-/

namespace Chase

open Chase.Graph Reading Acyclic
open Optimistic (Program runSerial runSerial_eq_commit commit_perm)

/-! ## Simulations that depend on the storage -/

/-- A simulation as a function of the storage: its outcome, and the slots that it reads, on which
alone the outcome depends. -/
structure StorageSimulation where
  outcome : EthereumTransaction → (Slot → H256) → Outcome
  reads : EthereumTransaction → (Slot → H256) → Set Slot
  depends : ∀ tx view view', (∀ slot ∈ reads tx view, view' slot = view slot) →
    outcome tx view' = outcome tx view

/-- A simulation that reads the storage slot by slot. -/
def StorageSimulation.ofReader (simulateTx : EthereumTransaction → Reader Slot H256 Outcome) :
    StorageSimulation where
  outcome tx view := (simulateTx tx).run view
  reads tx view := { slot | slot ∈ (simulateTx tx).reads view }
  depends tx _ _ h := (simulateTx tx).run_congr h

/-- What the outcome of a simulation does to a slot. -/
def Outcome.slotUpdate {β : Type} (B : SlotBackend β) : Outcome → Slot → H256 → H256
  | .ok (some s) => B.slotUpdate s.effects
  | _ => fun _ v => v

section

variable {β : Type} (B : SlotBackend β) (S : StorageSimulation)

/-- A transaction as a program over the storage. -/
def StorageSimulation.program (tx : EthereumTransaction) : Program Slot H256 where
  reads := S.reads tx
  update view := Outcome.slotUpdate B (S.outcome tx view)
  depends view view' h := by rw [S.depends tx view view' h]

/-- The backend after the transaction is simulated on it and committed. -/
def executeOne (b : β) (tx : EthereumTransaction) : β :=
  match S.outcome tx (B.storage b) with
  | .ok (some s) => B.apply b s.effects
  | _ => b

/-- The backend after the transactions are executed one at a time. -/
def executeSerial (b : β) (txs : List EthereumTransaction) : β := txs.foldl (executeOne B S) b

variable {B S}

/-- A transaction whose simulation fails changes nothing. -/
theorem StorageSimulation.program_keeps {tx : EthereumTransaction} {view : Slot → H256}
    (hfail : ∀ s, S.outcome tx view ≠ .ok (some s)) (slot : Slot) :
    (S.program B tx).Keeps view slot := by
  intro v
  rw [program]
  dsimp only
  match h : S.outcome tx view with
  | .ok (some s) => exact absurd h (hfail s)
  | .ok none => rfl
  | .error e => rfl

/-- An execution updates the slots as its program does. -/
theorem storage_executeOne (b : β) (tx : EthereumTransaction) (slot : Slot) :
    B.storage (executeOne B S b tx) slot =
      (S.program B tx).update (B.storage b) slot (B.storage b slot) := by
  rw [executeOne, StorageSimulation.program]
  dsimp only
  match S.outcome tx (B.storage b) with
  | .ok (some s) => exact B.storage_apply b s.effects slot
  | .ok none => rfl
  | .error e => rfl

/-- A serial execution runs the programs one after another. -/
theorem storage_executeSerial (b : β) (txs : List EthereumTransaction) :
    B.storage (executeSerial B S b txs) = runSerial (txs.map (S.program B)) (B.storage b) := by
  induction txs generalizing b with
  | nil => rfl
  | cons tx txs ih =>
    rw [executeSerial, List.foldl_cons, ← executeSerial, ih, List.map_cons, runSerial, runSerial,
      List.foldl_cons]
    congr 1
    exact funext (storage_executeOne b tx)

/-- The re-execution of a transaction on the backend. -/
def ReExecutedOn (B : SlotBackend β) (S : StorageSimulation) (b : β) (tx : ReExecutedTransaction) :
    Prop :=
  S.outcome tx.tx.tx (B.storage b) = .ok (some ⟨tx.effect, tx.log, tx.rwSet⟩)

/-- The program of a re-executed transaction. -/
def StorageSimulation.programOf (B : SlotBackend β) (S : StorageSimulation)
    (tx : ReExecutedTransaction) : Program Slot H256 := S.program B tx.tx.tx

/-- The effect of a re-execution is the update of its program. -/
theorem ReExecutedOn.update {b : β} {tx : ReExecutedTransaction} (h : ReExecutedOn B S b tx) :
    (S.programOf B tx).update (B.storage b) = B.slotUpdate tx.effect := by
  rw [StorageSimulation.programOf, StorageSimulation.program]
  dsimp only
  rw [h]
  rfl

/-- Committing re-executed transactions is committing their updates of the storage. -/
theorem storage_commit_reExecuted {b : β} {txs : List ReExecutedTransaction}
    (h : ∀ tx ∈ txs, ReExecutedOn B S b tx) (b' : β) :
    B.storage (Chase.commit B b' (txs.map (·.toFinalized))) =
      Optimistic.commit (B.storage b) (txs.map (S.programOf B)) (B.storage b') := by
  induction txs generalizing b' with
  | nil => rfl
  | cons tx txs ih =>
    have hstep : B.storage (B.apply b' tx.effect) =
        fun slot => (S.programOf B tx).update (B.storage b) slot (B.storage b' slot) := by
      funext slot
      rw [(h tx List.mem_cons_self).update]
      exact B.storage_apply b' tx.effect slot
    have ih := ih (fun tx htx => h tx (List.mem_cons_of_mem _ htx)) (B.apply b' tx.effect)
    rw [hstep] at ih
    exact ih

/-- Of two programs, one leaves the slot as it is. -/
def EitherKeeps (B : SlotBackend β) (S : StorageSimulation) (b : β)
    (tx tx' : ReExecutedTransaction) : Prop :=
  ∀ slot, (S.programOf B tx).Keeps (B.storage b) slot ∨ (S.programOf B tx').Keeps (B.storage b) slot

/-- Transactions that change different slots may be committed in any order. -/
theorem storage_commit_perm {b : β} {txs : List ReExecutedTransaction}
    (h : ∀ tx ∈ txs, ReExecutedOn B S b tx) (hkeeps : txs.Pairwise (EitherKeeps B S b))
    {applied : List FinalizedTransaction} (happlied : applied.Perm (txs.map (·.toFinalized))) :
    B.storage (Chase.commit B b applied) =
      Optimistic.commit (B.storage b) (txs.map (S.programOf B)) (B.storage b) := by
  obtain ⟨txs', hperm, rfl⟩ := exists_map_eq_of_perm _ happlied
  rw [storage_commit_reExecuted fun tx htx => h tx (hperm.mem_iff.1 htx)]
  exact commit_perm (hperm.map _) (List.pairwise_map.2 hkeeps) _

end

/-! ## The valid transactions -/

/-- The later transaction writes no key that the earlier one writes. -/
def WriteSetsDisjoint (earlier later : ReExecutedTransaction) : Prop :=
  ∀ k ∈ later.writeSet, k ∉ earlier.writeSet

instance : DecidableRel WriteSetsDisjoint := fun earlier later =>
  decidable_of_iff (Cds.disjointKeys later.writeSet earlier.writeSet = true) Cds.disjointKeys_iff

/-- The two transactions write a common key. -/
def Rivals (earlier later : ReExecutedTransaction) : Prop :=
  ∃ k ∈ later.writeSet, k ∈ earlier.writeSet

instance : DecidableRel Rivals := fun _ later =>
  inferInstanceAs (Decidable (∃ k ∈ later.writeSet, _))

theorem not_rivals_iff {earlier later : ReExecutedTransaction} :
    ¬Rivals earlier later ↔ WriteSetsDisjoint earlier later := by
  simp only [Rivals, WriteSetsDisjoint, not_exists, not_and]

/-- The loop knows the keys that the valid transactions write, so a transaction is invalid exactly
when it has a rival among them. -/
theorem Validation.disjointKeys_iff {v : Validation}
    (h : v.writeSet = v.validTxs.flatMap (·.writeSet)) (tx : ReExecutedTransaction) :
    Cds.disjointKeys tx.writeSet v.writeSet = true ↔ ¬∃ valid ∈ v.validTxs, Rivals valid tx := by
  rw [Cds.disjointKeys_iff, h]
  constructor
  · rintro hdisj ⟨valid, hvalid, k, hk, hk'⟩
    exact hdisj k hk (List.mem_flatMap.2 ⟨valid, hvalid, hk'⟩)
  · intro hnone k hk hmem
    obtain ⟨valid, hvalid, hk'⟩ := List.mem_flatMap.1 hmem
    exact hnone ⟨valid, hvalid, k, hk, hk'⟩

/-- The validation keeps the first one of two rivals. -/
theorem validTxs_eq_kept (txs : List ReExecutedTransaction) :
    validTxs txs = (FirstWins.split Rivals txs).kept := by
  have hfold : (txs.foldl validateStep {}).writeSet =
        (txs.foldl validateStep {}).validTxs.flatMap (·.writeSet) ∧
      (txs.foldl validateStep {}).validTxs = (FirstWins.split Rivals txs).kept := by
    induction txs using List.reverseRecOn with
    | nil => exact ⟨rfl, rfl⟩
    | append_singleton txs tx ih =>
      obtain ⟨hwrites, hkept⟩ := ih
      have hiff := Validation.disjointKeys_iff hwrites tx
      rw [List.foldl_append, List.foldl_cons, List.foldl_nil, FirstWins.split_append_singleton,
        validateStep]
      rw [hkept] at hiff
      split
      · rename_i hdisj
        rw [FirstWins.step_of_not_clash (hiff.1 hdisj)]
        exact ⟨by simp [hwrites], by rw [← hkept]⟩
      · rename_i hdisj
        rw [FirstWins.step_of_clash (not_not.1 (mt hiff.2 hdisj))]
        exact ⟨hwrites, hkept⟩
  rw [validTxs]
  split
  · rename_i hlength
    obtain ⟨tx, rfl⟩ := List.length_eq_one_iff.1 hlength
    exact (FirstWins.kept_eq_self (List.pairwise_singleton _ _)).symm
  · exact hfold.2

/-- The valid transactions write different keys. -/
theorem pairwise_validTxs (txs : List ReExecutedTransaction) :
    (validTxs txs).Pairwise WriteSetsDisjoint := by
  rw [validTxs_eq_kept]
  exact (FirstWins.pairwise_kept Rivals txs).imp not_rivals_iff.1

/-- Transactions that write different keys are all valid. -/
theorem validTxs_eq_self {txs : List ReExecutedTransaction} (h : txs.Pairwise WriteSetsDisjoint) :
    validTxs txs = txs := by
  rw [validTxs_eq_kept]
  exact FirstWins.kept_eq_self (h.imp not_rivals_iff.2)

/-! ## Epochs of aborted transactions -/

/-- The earlier transaction has recorded no write of a key that the later one has recorded. -/
def RecordedApart (earlier later : AbortedTransaction) : Prop :=
  ∀ k ∈ earlier.prevWriteKeys, k ∉ later.prevReadKeys ∧ k ∉ later.prevWriteKeys

/-- The transactions of an epoch are in the order of their ids, and none has recorded a key that an
earlier one writes. -/
theorem abortedEpoch_spec {abortedTxs : List Transaction}
    (hid : (abortedTxs.map (·.rawTx.id)).Nodup) {epoch : List AbortedTransaction}
    (hepoch : epoch ∈ Cds.scheduleConflictZoneAborted abortedTxs) :
    (epoch.Pairwise fun a b => a.rawTx.id < b.rawTx.id) ∧ epoch.Pairwise RecordedApart := by
  obtain ⟨placed, hplaced, rfl⟩ := List.mem_map.1 hepoch
  have hgreedy := Cds.placeIntoEpochs_greedy
    (Cds.sortById (abortedTxs.map fun tx => Cds.TxWithKeys.fromAborted tx.toAborted))
  have hsub := hgreedy.sublist hplaced
  have hperm := Cds.sortById_perm
    (abortedTxs.map fun tx => Cds.TxWithKeys.fromAborted tx.toAborted)
  -- a candidate has the recorded keys of its transaction
  have hfrom : ∀ x ∈ placed, Cds.TxWithKeys.fromAborted x.payload = x := by
    intro x hx
    obtain ⟨tx, -, rfl⟩ := List.mem_map.1 (hperm.mem_iff.1 (hsub.subset hx))
    rfl
  have hsorted : placed.Pairwise fun a b => a.id ≤ b.id :=
    (List.pairwise_insertionSort (fun a b : Cds.TxWithKeys AbortedTransaction => a.id ≤ b.id)
      _).sublist hsub
  have hids : (placed.map (·.id)).Nodup := by
    refine List.Nodup.sublist (hsub.map _) ((hperm.map (·.id)).nodup_iff.2 ?_)
    rw [List.map_map]
    exact hid
  constructor
  · refine List.pairwise_map.2 ((hsorted.and (List.pairwise_map.1 hids)).imp_of_mem ?_)
    rintro a b ha hb ⟨hle, hne⟩
    rw [← hfrom a ha, ← hfrom b hb] at hle hne
    exact lt_of_le_of_ne hle hne
  · refine List.pairwise_map.2 ((hgreedy.apart placed hplaced).imp_of_mem ?_)
    intro a b ha hb hapart k hk
    rw [← hfrom a ha, ← hfrom b hb] at hapart
    exact hapart k hk

section

variable {β : Type} (B : SlotBackend β) (S : StorageSimulation)

/-- The optimistic assumption: the re-execution of an aborted transaction reads only keys that it
has recorded as read, and writes only keys that it has recorded as written. -/
structure OptimisticAssumption (b : β) (a : AbortedTransaction) : Prop where
  reads : ∀ slot ∈ S.reads a.rawTx.tx (B.storage b), slot.2 ∈ a.prevReadKeys
  writes : ∀ s, S.outcome a.rawTx.tx (B.storage b) = .ok (some s) →
    (∀ slot ∈ s.rwSet.writeSet.slots, slot.2 ∈ a.prevWriteKeys) ∧
      ∀ slot, slot.2 ∉ a.prevWriteKeys → ∀ v, B.slotUpdate s.effects slot v = v

/-- The re-executed transactions of an epoch, all on one state. -/
def reExecuteEpoch (b : β) (epoch : List AbortedTransaction) : List ReExecutedTransaction :=
  reExecuted (epoch.map (·.rawTx)) (epoch.map fun a => S.outcome a.rawTx.tx (B.storage b))

variable {B S} {b : β} {epoch : List AbortedTransaction}

/-- The first transaction of an epoch is re-executed with success, or it is dropped. -/
theorem reExecuteEpoch_cons (a : AbortedTransaction) :
    (∃ s, S.outcome a.rawTx.tx (B.storage b) = .ok (some s) ∧ reExecuteEpoch B S b (a :: epoch) =
        ⟨a.rawTx, s.effects, s.logs, s.rwSet⟩ :: reExecuteEpoch B S b epoch) ∨
      (∀ s, S.outcome a.rawTx.tx (B.storage b) ≠ .ok (some s)) ∧
        reExecuteEpoch B S b (a :: epoch) = reExecuteEpoch B S b epoch := by
  rw [reExecuteEpoch, List.map_cons, List.map_cons, reExecuted, List.zip_cons_cons,
    List.filterMap_cons, ← reExecuted, ← reExecuteEpoch]
  rcases S.outcome a.rawTx.tx (B.storage b) with e | _ | s
  · exact .inr ⟨fun _ hs => (by cases hs), rfl⟩
  · exact .inr ⟨fun _ hs => (by cases hs), rfl⟩
  · exact .inl ⟨s, rfl, rfl⟩

/-- A re-executed transaction of an epoch is the result of one of its transactions. -/
theorem mem_reExecuteEpoch {tx : ReExecutedTransaction} (h : tx ∈ reExecuteEpoch B S b epoch) :
    ∃ a ∈ epoch, a.rawTx = tx.tx ∧ ReExecutedOn B S b tx := by
  induction epoch with
  | nil => cases h
  | cons a epoch ih =>
    have hrest : tx ∈ reExecuteEpoch B S b epoch →
        ∃ a' ∈ a :: epoch, a'.rawTx = tx.tx ∧ ReExecutedOn B S b tx := by
      intro h
      obtain ⟨a', ha', heq, hon⟩ := ih h
      exact ⟨a', List.mem_cons_of_mem _ ha', heq, hon⟩
    rcases reExecuteEpoch_cons a with ⟨s, hs, heq⟩ | ⟨-, heq⟩
    · rw [heq] at h
      rcases List.mem_cons.1 h with rfl | h
      · exact ⟨a, List.mem_cons_self, rfl, hs⟩
      · exact hrest h
    · exact hrest (heq ▸ h)

/-- A transaction that fails does not change the storage, so the programs of an epoch commit what
its re-executed transactions do. -/
theorem commit_reExecuteEpoch (store : Slot → H256) :
    Optimistic.commit (B.storage b) (epoch.map fun a => S.program B a.rawTx.tx) store =
      Optimistic.commit (B.storage b) ((reExecuteEpoch B S b epoch).map (S.programOf B)) store := by
  induction epoch generalizing store with
  | nil => rfl
  | cons a epoch ih =>
    rw [List.map_cons, Optimistic.commit, List.foldl_cons, ← Optimistic.commit, ih]
    rcases reExecuteEpoch_cons a with ⟨s, -, heq⟩ | ⟨hfail, heq⟩
    · rw [heq]
      rfl
    · rw [heq]
      congr 1
      funext slot
      exact StorageSimulation.program_keeps hfail slot _

/-- A relation between the re-executed transactions of an epoch follows from one between the
transactions. -/
theorem pairwise_reExecuteEpoch {R : ReExecutedTransaction → ReExecutedTransaction → Prop}
    (h : epoch.Pairwise fun a a' => ∀ tx tx', a.rawTx = tx.tx → a'.rawTx = tx'.tx →
      ReExecutedOn B S b tx → ReExecutedOn B S b tx' → R tx tx') :
    (reExecuteEpoch B S b epoch).Pairwise R := by
  induction epoch with
  | nil => exact .nil
  | cons a epoch ih =>
    obtain ⟨ha, hrest⟩ := List.pairwise_cons.1 h
    rcases reExecuteEpoch_cons a with ⟨s, hs, heq⟩ | ⟨-, heq⟩
    · rw [heq]
      refine List.pairwise_cons.2 ⟨fun tx' htx' => ?_, ih hrest⟩
      obtain ⟨a', ha', heq', hon⟩ := mem_reExecuteEpoch htx'
      exact ha a' ha' _ tx' rfl heq' hs hon
    · rw [heq]
      exact ih hrest

/-- Under the optimistic assumption a transaction changes only slots of the keys that it has
recorded as written. -/
theorem OptimisticAssumption.keeps {a : AbortedTransaction} (h : OptimisticAssumption B S b a)
    {slot : Slot} (hslot : slot.2 ∉ a.prevWriteKeys) :
    (S.program B a.rawTx.tx).Keeps (B.storage b) slot := by
  intro v
  rw [StorageSimulation.program]
  dsimp only
  match hs : S.outcome a.rawTx.tx (B.storage b) with
  | .ok (some s) => exact (h.writes s hs).2 slot hslot v
  | .ok none => rfl
  | .error e => rfl

end

/-- **The aborted epochs are serial runs**: when the re-execution of every transaction of an epoch
stays within its recorded keys, all are valid, and committing them in any order leaves the storage
that executing them one at a time leaves, in the order of their ids. -/
theorem abortedEpoch_serial {β : Type} (B : SlotBackend β) (S : StorageSimulation)
    (abortedTxs : List Transaction) (hid : (abortedTxs.map (·.rawTx.id)).Nodup)
    (epoch : List AbortedTransaction) (hepoch : epoch ∈ Cds.scheduleConflictZoneAborted abortedTxs)
    (b : β) (hoptimistic : ∀ a ∈ epoch, OptimisticAssumption B S b a) :
    validTxs (reExecuteEpoch B S b epoch) = reExecuteEpoch B S b epoch ∧
      (epoch.Pairwise fun a a' => a.rawTx.id < a'.rawTx.id) ∧
      ∀ applied : List FinalizedTransaction,
        applied.Perm ((reExecuteEpoch B S b epoch).map (·.toFinalized)) →
        B.storage (commit B b applied) =
          B.storage (executeSerial B S b (epoch.map fun a => a.rawTx.tx)) := by
  obtain ⟨hids, hapart⟩ := abortedEpoch_spec hid hepoch
  have hon : ∀ tx ∈ reExecuteEpoch B S b epoch, ReExecutedOn B S b tx := fun tx htx =>
    (mem_reExecuteEpoch htx).choose_spec.2.2
  -- the re-executed transactions write different keys
  have hdisjoint : (reExecuteEpoch B S b epoch).Pairwise WriteSetsDisjoint := by
    refine pairwise_reExecuteEpoch
      (hapart.imp_of_mem fun {a a'} ha ha' hapart tx tx' heq heq' h h' k hk' hk => ?_)
    rw [ReExecutedOn, ← heq] at h
    rw [ReExecutedOn, ← heq'] at h'
    obtain ⟨contract, hslot⟩ := AccessMap.mem_keys.1 hk
    obtain ⟨contract', hslot'⟩ := AccessMap.mem_keys.1 hk'
    exact (hapart k (((hoptimistic a ha).writes _ h).1 _ hslot)).2
      (((hoptimistic a' ha').writes _ h').1 _ hslot')
  have hkeeps : (reExecuteEpoch B S b epoch).Pairwise (EitherKeeps B S b) := by
    refine pairwise_reExecuteEpoch
      (hapart.imp_of_mem fun {a a'} ha ha' hapart tx tx' heq heq' _ _ slot => ?_)
    rw [StorageSimulation.programOf, StorageSimulation.programOf, ← heq, ← heq']
    by_cases hslot : slot.2 ∈ a.prevWriteKeys
    · exact .inr ((hoptimistic a' ha').keeps (hapart _ hslot).2)
    · exact .inl ((hoptimistic a ha).keeps hslot)
  -- no transaction reads a key that an earlier one writes
  have hserial : (epoch.map fun a => S.program B a.rawTx.tx).Pairwise fun earlier later =>
      ∀ slot ∈ later.reads (B.storage b), earlier.Keeps (B.storage b) slot := by
    refine List.pairwise_map.2 (hapart.imp_of_mem fun {a a'} ha ha' hapart slot hslot => ?_)
    exact (hoptimistic a ha).keeps fun hwrite =>
      (hapart _ hwrite).1 ((hoptimistic a' ha').reads slot hslot)
  refine ⟨validTxs_eq_self hdisjoint, hids, fun applied happlied => ?_⟩
  rw [storage_commit_perm hon hkeeps happlied, storage_executeSerial, List.map_map,
    Function.comp_def, runSerial_eq_commit hserial fun _ _ _ _ => rfl, commit_reExecuteEpoch]

/-! ## Serializable validation -/

/-- The transaction reads a slot that the other one writes. -/
def ReadsSlotOf (tx tx' : ReExecutedTransaction) : Prop :=
  ∃ slot ∈ tx.rwSet.readSet.slots, slot ∈ tx'.rwSet.writeSet.slots

instance : DecidableRel ReadsSlotOf := fun _ _ => inferInstanceAs (Decidable (∃ slot ∈ _, _))

/-- A re-execution whose read and write sets are complete: they have the slots on which its outcome
depends, and the slots that its effects change. -/
structure CompleteSets {β : Type} (B : SlotBackend β) (S : StorageSimulation) (b : β)
    (tx : ReExecutedTransaction) : Prop where
  reExecuted : ReExecutedOn B S b tx
  reads : ∀ slot ∈ S.reads tx.tx.tx (B.storage b), slot ∈ tx.rwSet.readSet.slots
  writes : ∀ slot ∉ tx.rwSet.writeSet.slots, ∀ v, B.slotUpdate tx.effect slot v = v

/-- A transaction with complete sets keeps the slots that it does not write. -/
theorem CompleteSets.keeps {β : Type} {B : SlotBackend β} {S : StorageSimulation} {b : β}
    {tx : ReExecutedTransaction} (h : CompleteSets B S b tx) {slot : Slot}
    (hslot : slot ∉ tx.rwSet.writeSet.slots) : (S.programOf B tx).Keeps (B.storage b) slot := by
  intro v
  rw [h.reExecuted.update]
  exact h.writes slot hslot v

/-- Valid transactions in an order in which none reads a slot that an earlier one writes: committing
them together is executing them one at a time in this order. -/
theorem storage_commit_validTxs {β : Type} {B : SlotBackend β} {S : StorageSimulation} {b : β}
    {txs order : List ReExecutedTransaction} (h : ∀ tx ∈ txs, CompleteSets B S b tx)
    (hperm : order.Perm (validTxs txs)) (horder : Respects ReadsSlotOf order)
    {applied : List FinalizedTransaction}
    (happlied : applied.Perm ((validTxs txs).map (·.toFinalized))) :
    B.storage (commit B b applied) =
      B.storage (executeSerial B S b (order.map fun tx => tx.tx.tx)) := by
  have hvalid : ∀ tx ∈ validTxs txs, CompleteSets B S b tx := fun tx htx =>
    h tx ((validTxs_sublist txs).subset htx)
  have hkeeps : (validTxs txs).Pairwise (EitherKeeps B S b) := by
    refine (pairwise_validTxs txs).imp_of_mem fun {tx tx'} htx htx' hdisjoint slot => ?_
    by_cases hslot : slot ∈ tx.rwSet.writeSet.slots
    · refine .inr ((hvalid tx' htx').keeps fun hslot' => ?_)
      exact hdisjoint slot.2 (AccessMap.mem_keys.2 ⟨slot.1, hslot'⟩)
        (AccessMap.mem_keys.2 ⟨slot.1, hslot⟩)
    · exact .inl ((hvalid tx htx).keeps hslot)
  have hserial : (order.map (S.programOf B)).Pairwise fun earlier later =>
      ∀ slot ∈ later.reads (B.storage b), earlier.Keeps (B.storage b) slot := by
    refine List.pairwise_map.2 (horder.imp_of_mem fun {tx tx'} htx htx' hnot slot hslot => ?_)
    refine (hvalid tx (hperm.mem_iff.1 htx)).keeps fun hwrite => hnot ⟨slot, ?_, hwrite⟩
    exact (hvalid tx' (hperm.mem_iff.1 htx')).reads slot hslot
  rw [storage_commit_perm (fun tx htx => (hvalid tx htx).reExecuted) hkeeps happlied,
    storage_executeSerial, List.map_map]
  refine (commit_perm (hperm.map _) (List.pairwise_map.2 hkeeps) _).symm.trans ?_
  exact (runSerial_eq_commit hserial fun _ _ _ _ => rfl).symm

section

variable (txs : List ReExecutedTransaction)

/-- Positions of the list whose transactions outlast their rivals: an earlier rival of one of them
is also the rival of one of them that is before it. -/
def Outlast (kept : Set (Fin txs.length)) : Prop :=
  ∀ j ∈ kept, ∀ i < j, Rivals (txs.get i) (txs.get j) →
    ∃ h ∈ kept, h < i ∧ Rivals (txs.get h) (txs.get i)

/-- Two different positions of which the first one reads a slot that the second one writes. -/
def ReadsWithin (kept : Set (Fin txs.length)) (i j : Fin txs.length) : Prop :=
  i ∈ kept ∧ j ∈ kept ∧ At ReadsSlotOf txs i j

/-- The positions of the valid transactions. -/
def validPositions : List (Fin txs.length) :=
  (FirstWins.split (fun i j => Rivals (txs.get i) (txs.get j)) (List.finRange txs.length)).kept

theorem map_validPositions : (validPositions txs).map txs.get = validTxs txs := by
  rw [validTxs_eq_kept, validPositions, ← FirstWins.kept_map, List.map_get_finRange]

theorem outlast_validPositions : Outlast txs { i | i ∈ validPositions txs } := fun j hj i hlt =>
  FirstWins.defended_kept (List.pairwise_lt_finRange _) lt_asymm j hj i (List.mem_finRange i) hlt

variable {txs}

/-- Transactions that outlast their rivals are valid. -/
theorem Outlast.mem_validPositions {kept : Set (Fin txs.length)} (h : Outlast txs kept)
    {i : Fin txs.length} (hi : i ∈ kept) : i ∈ validPositions txs :=
  FirstWins.Defended.mem_kept (List.pairwise_lt_finRange _) lt_asymm wellFounded_lt lt_trans
    (fun x hx y _ hlt => h x hx y hlt) (fun x _ => List.mem_finRange x) hi

/-- The valid transactions have an order in which none reads a slot that an earlier one writes
exactly when no transactions that outlast their rivals read each other's writes in a cycle. -/
theorem exists_order_validTxs_iff : (∃ order : List ReExecutedTransaction,
      order.Perm (validTxs txs) ∧ Respects ReadsSlotOf order) ↔
    ∀ kept, Outlast txs kept → ∀ i, ¬Relation.TransGen (ReadsWithin txs kept) i i := by
  rw [← map_validPositions]
  constructor
  · rintro ⟨order, hperm, horder⟩ kept hkept
    obtain ⟨positions, hpositions, rfl⟩ := exists_map_eq_of_perm txs.get hperm
    have hpairwise : positions.Pairwise fun i j => ¬ReadsWithin txs kept j i :=
      (List.pairwise_map.1 horder).imp fun hnot hji => hnot hji.2.2.2
    refine not_transGen_of_pairwise hpairwise (fun i hi => hi.2.2.1 rfl) ?_
    · exact fun i j hij => ⟨hpositions.mem_iff.2 (hkept.mem_validPositions hij.1),
        hpositions.mem_iff.2 (hkept.mem_validPositions hij.2.1)⟩
  · intro hacyclic
    have hnodup : (validPositions txs).Nodup :=
      (List.nodup_finRange _).sublist (FirstWins.kept_sublist _ _)
    -- a cycle on the positions of the valid transactions is one on the positions of the list
    have hlift : ∀ a, ¬Relation.TransGen
        (At (fun i j => ReadsSlotOf (txs.get i) (txs.get j)) (validPositions txs)) a a := by
      intro a hcycle
      refine hacyclic _ (outlast_validPositions txs) _ (hcycle.lift (validPositions txs).get ?_)
      rintro a b ⟨hne, hreads⟩
      exact ⟨List.get_mem _ a, List.get_mem _ b, fun heq => hne (hnodup.injective_get heq), hreads⟩
    obtain ⟨positions, hperm, hrespects⟩ := (exists_order_iff _).2 hlift
    exact ⟨positions.map txs.get, hperm.map _, List.pairwise_map.2 hrespects⟩

end

/-- The transactions that the validation commits have an order in which none reads a slot that an
earlier one writes exactly when no transactions of the list that outlast their rivals read each
other's writes in a cycle. In such an order, committing them together is executing them one at a
time. -/
theorem validTxs_serializable_iff (txs : List ReExecutedTransaction) :
    ((∃ order : List ReExecutedTransaction,
        order.Perm (validTxs txs) ∧ Respects ReadsSlotOf order) ↔
      ∀ kept, Outlast txs kept → ∀ i, ¬Relation.TransGen (ReadsWithin txs kept) i i) ∧
    ∀ (β : Type) (B : SlotBackend β) (S : StorageSimulation) (b : β),
      (∀ tx ∈ txs, CompleteSets B S b tx) → ∀ order : List ReExecutedTransaction,
        order.Perm (validTxs txs) → Respects ReadsSlotOf order →
          ∀ applied : List FinalizedTransaction,
            applied.Perm ((validTxs txs).map (·.toFinalized)) →
            B.storage (commit B b applied) =
              B.storage (executeSerial B S b (order.map fun tx => tx.tx.tx)) :=
  ⟨exists_order_validTxs_iff, fun _ _ _ _ h _ hperm horder _ happlied =>
    storage_commit_validTxs h hperm horder happlied⟩

namespace ValidationFixture

/-- A transaction that copies one slot of the contract `1` to another. -/
def copyTx (source target : H256) : EthereumTransaction :=
  .ofCall 2 1 source [] 50000 target

/-- The result of such a transaction that has read the value `v`. -/
def copied (source target v : H256) : Simulated :=
  ⟨[.modify 1 ⟨0, 1⟩ none [(target, v)] false], [],
    { readSet := [(1, [(source, v)])], writeSet := [(1, [(target, v)])] }⟩

/-- The simulation of these transactions. -/
def copies : StorageSimulation := .ofReader fun tx =>
  .read (1, tx.value) fun v => .ret (.ok (some (copied tx.value tx.nonce v)))

/-- A copy updates its target only. -/
theorem slotUpdate_copied (source : H256) {target v : H256} {slot : Slot} (h : slot ≠ (1, target))
    (x : H256) :
    memoryBackend.slotUpdate (copied source target v).effects slot x = x := by
  have hnone : lastApplied (copied source target v).effects slot = none := by
    rw [copied, lastApplied_cons, Apply.effectOn]
    split
    · rename_i hcontract
      have hkey : slot.2 ∉ [(target, v)].map (·.1) := by
        simp only [List.map_cons, List.map_nil, List.mem_singleton]
        exact fun hkey => h (Prod.ext hcontract.symm hkey)
      rw [LastWrite.lastWrite_eq_none_iff.2 hkey]
      rfl
    · rfl
  show (lastApplied (copied source target v).effects slot).getD x = x
  rw [hnone, Option.getD_none]

/-- An aborted copy that has recorded the slot it reads and the slot it writes. -/
def abortedCopy (id : TxId) (source target : H256) : Transaction where
  txId := id
  prevReadKeys := [(1, [(source, 0)])]
  prevWriteKeys := [(1, [(target, 0)])]
  writeUnits := []
  effects := []
  logs := []
  rawTx := ⟨copyTx source target, id⟩

/-- A copy reads and writes what it did before. -/
theorem optimistic_copy (b : State) (id : TxId) (source target : H256) :
    OptimisticAssumption memoryBackend copies b (abortedCopy id source target).toAborted := by
  refine ⟨fun slot hslot => ?_, fun s hs => ?_⟩
  · have heq : slot = (1, source) := by simpa [copies, StorageSimulation.ofReader, Reader.reads,
      abortedCopy, Transaction.toAborted, copyTx] using hslot
    exact AccessMap.mem_keys.2 ⟨1, by rw [heq]; exact List.mem_singleton.2 rfl⟩
  · cases hs
    refine ⟨fun slot hslot => ?_, fun slot hslot x =>
      slotUpdate_copied source (fun heq => hslot ?_) x⟩
    · rw [show slot = (1, target) from List.mem_singleton.1 hslot]
      exact AccessMap.mem_keys.2 ⟨1, List.mem_singleton.2 rfl⟩
    · rw [heq]
      exact AccessMap.mem_keys.2 ⟨1, List.mem_singleton.2 rfl⟩

/-- A copy of the slot `6` to the slot `5`, and one of the slot `7` to the slot `6`. -/
def abortedCopies : List Transaction := [abortedCopy 1 6 5, abortedCopy 2 7 6]

/-- A contract with the value `1` in its slot `5` and the value `2` in its slot `6`. -/
def start : State := Function.update State.empty 1
  (some { storage := Function.update (Function.update (fun _ => none) 5 (some 1)) 6 (some 2) })

/-- The first copy reads what the second one writes, so they share an epoch in this order. -/
theorem abortedEpoch_serial_copies :
    Cds.scheduleConflictZoneAborted abortedCopies = [abortedCopies.map (·.toAborted)] ∧
      ∀ applied : List FinalizedTransaction,
        applied.Perm ((reExecuteEpoch memoryBackend copies start
          (abortedCopies.map (·.toAborted))).map (·.toFinalized)) →
        memoryBackend.storage (commit memoryBackend start applied) =
          memoryBackend.storage (executeSerial memoryBackend copies start
            [copyTx 6 5, copyTx 7 6]) := by
  have hschedule : Cds.scheduleConflictZoneAborted abortedCopies =
      [abortedCopies.map (·.toAborted)] := by decide
  refine ⟨hschedule, (abortedEpoch_serial memoryBackend copies abortedCopies (by decide)
    (abortedCopies.map (·.toAborted)) (hschedule ▸ List.mem_singleton.2 rfl) start
    fun a ha => ?_).2.2⟩
  obtain ⟨tx, htx, rfl⟩ := List.mem_map.1 ha
  rcases List.mem_cons.1 htx with rfl | htx
  · exact optimistic_copy start 1 6 5
  · rw [List.mem_singleton.1 htx]
    exact optimistic_copy start 2 7 6

/-- The re-execution of a copy that has read the value `v`. -/
def reExecutedCopy (id : TxId) (source target v : H256) : ReExecutedTransaction :=
  ⟨⟨copyTx source target, id⟩, (copied source target v).effects, [], (copied source target v).rwSet⟩

/-- Two transactions that exchange the slots `5` and `6`: each reads what the other one writes. -/
def exchange : List ReExecutedTransaction := [reExecutedCopy 1 5 6 1, reExecutedCopy 2 6 5 2]

/-- A copy has complete sets. -/
theorem completeSets_copy {id : TxId} {source target v : H256}
    (h : memoryBackend.storage start (1, source) = v) :
    CompleteSets memoryBackend copies start (reExecutedCopy id source target v) := by
  refine ⟨?_, fun slot hslot => ?_, fun slot hslot =>
    slotUpdate_copied source fun heq => hslot ?_⟩
  · subst h
    rfl
  · have heq : slot = (1, source) := by simpa [copies, StorageSimulation.ofReader, Reader.reads,
      reExecutedCopy, copyTx] using hslot
    rw [heq]
    exact List.mem_singleton.2 rfl
  · rw [heq]
    exact List.mem_singleton.2 rfl

/-- The validation compares only the write sets, so it commits both transactions. The slots are
exchanged, while in either serial order both slots end with the same value. -/
theorem validTxs_exchange :
    (∀ tx ∈ exchange, CompleteSets memoryBackend copies start tx) ∧ validTxs exchange = exchange ∧
      (¬∃ order : List ReExecutedTransaction,
        order.Perm (validTxs exchange) ∧ Respects ReadsSlotOf order) ∧
      ∀ order : List ReExecutedTransaction, order.Perm (validTxs exchange) →
        memoryBackend.storage (commit memoryBackend start (exchange.map (·.toFinalized))) ≠
          memoryBackend.storage (executeSerial memoryBackend copies start
            (order.map fun tx => tx.tx.tx)) := by
  have hvalid : validTxs exchange = exchange := by decide
  have horders : ∀ order ∈ exchange.permutations', ¬Respects ReadsSlotOf order := by decide
  have hserial : ∀ order ∈ exchange.permutations', ∃ slot ∈ [((1, 5) : Slot), (1, 6)],
      memoryBackend.storage (commit memoryBackend start (exchange.map (·.toFinalized))) slot ≠
        memoryBackend.storage (executeSerial memoryBackend copies start
          (order.map fun tx => tx.tx.tx)) slot := by decide
  refine ⟨fun tx htx => ?_, hvalid, ?_, ?_⟩
  · rcases List.mem_cons.1 htx with rfl | htx
    · exact completeSets_copy rfl
    · rw [List.mem_singleton.1 htx]
      exact completeSets_copy rfl
  · rintro ⟨order, hperm, horder⟩
    exact horders order (List.mem_permutations'.2 (hvalid ▸ hperm)) horder
  · intro order hperm heq
    obtain ⟨slot, -, hslot⟩ := hserial order (List.mem_permutations'.2 (hvalid ▸ hperm))
    exact hslot (congrFun heq slot)

end ValidationFixture

end Chase
