import Chase.EvBlp.Bridge
import Chase.Stack.Overwrites

/-!
# The two writers of the slot table

Under EV-BLP the slots of a batch are written twice: by `persist_applies` when the batch is
executed, and by `commit_batch`, through `RocksDbStateStore`, at some time after it. A commit
repeats the writes of its batch, and not the clearing of slots by deleted, reset or emptied
accounts: the table ends as if `persist_applies` were alone exactly when no commit brings a cleared
slot back (`slots_agree_iff`).
-/

namespace Chase.Stack

open Cache EvBlp LastWrite TableStep

/-! ## The store behind the cache -/

/-- `decode_key`. -/
def decodeKey (key : Key) : Slot := (key.extractLsb' 96 160, (key.setWidth 96).setWidth 256)

/-- A slot key whose upper 20 bytes are zero is decoded as it was encoded. -/
theorem decodeKey_encodeKey {slot : Slot} (h : slot.2.toNat < 2 ^ 96) :
    decodeKey (encodeKey slot) = slot := by
  obtain ⟨a, k⟩ := slot
  refine Prod.ext ?_ ?_
  · refine BitVec.eq_of_getLsbD_eq fun i hi => ?_
    simp only [decodeKey, encodeKey, BitVec.getLsbD_extractLsb', BitVec.getLsbD_append, hi]
    simp
  · have hk : k.toNat % 2 ^ 96 % 2 ^ 256 = k.toNat := by
      rw [Nat.mod_eq_of_lt h, Nat.mod_eq_of_lt (Nat.lt_trans h (by decide))]
    have hlow : (a ++ k.setWidth 96).setWidth 96 = k.setWidth 96 := by
      refine BitVec.eq_of_getLsbD_eq fun i hi => ?_
      rw [BitVec.getLsbD_setWidth, BitVec.getLsbD_append, if_pos hi, decide_eq_true hi,
        Bool.true_and]
    refine BitVec.eq_of_toNat_eq ?_
    show (((a ++ k.setWidth 96).setWidth 96).setWidth 256).toNat = k.toNat
    rw [hlow, BitVec.toNat_setWidth, BitVec.toNat_setWidth, hk]

/-- Every key is the encoding of what it is decoded to. -/
theorem encodeKey_decodeKey (key : Key) : encodeKey (decodeKey key) = key := by
  refine BitVec.eq_of_getLsbD_eq fun i hi => ?_
  simp only [encodeKey, decodeKey, BitVec.getLsbD_append, BitVec.getLsbD_extractLsb',
    BitVec.getLsbD_setWidth]
  by_cases hlow : i < 96
  · simp [hlow, hi]
  · have hhigh : i - 96 < 160 := by omega
    simp [hlow, hhigh, Nat.add_sub_of_le (Nat.not_lt.1 hlow)]

theorem decodeKey_lt (key : Key) : (decodeKey key).2.toNat < 2 ^ 96 := by
  rw [decodeKey, BitVec.toNat_setWidth]
  exact Nat.lt_of_le_of_lt (Nat.mod_le _ _) (key.setWidth 96).isLt

namespace RocksDbStateStore

/-- `RocksDbStateStore::put`. -/
def put (d : ChaseStorage) (entry : Key × Value) : ChaseStorage :=
  d.putStorageSlot (decodeKey entry.1, entry.2)

/-- `put_batch`, with a store whose operations succeed. -/
def putBatch (d : ChaseStorage) (entries : List (Key × Value)) : ChaseStorage :=
  entries.foldl put d

/-- A batch of the cache is written to the decoded slots. -/
theorem putBatch_eq (d : ChaseStorage) (entries : List (Key × Value)) :
    putBatch d entries =
      (entries.map fun e => (decodeKey e.1, e.2)).foldl ChaseStorage.putStorageSlot d := by
  rw [List.foldl_map]
  rfl

end RocksDbStateStore

/-- The keys identify the slots of the set: they are decoded to the slots they encode, no two slots
have a common key, and the store writes the slot that was recorded. -/
structure FaithfulKeys (slots : Set Slot) : Prop where
  decode : ∀ slot ∈ slots, decodeKey (encodeKey slot) = slot
  encode : ∀ key, encodeKey (decodeKey key) = key
  apart : ∀ slot ∈ slots, ∀ slot' ∈ slots, slot ≠ slot' → encodeKey slot ≠ encodeKey slot'
  put : ∀ slot ∈ slots, ∀ d v,
    RocksDbStateStore.put d (encodeKey slot, v) = d.putStorageSlot (slot, v)

/-- **Cache keys are a faithful encoding** of the slots whose upper 20 bytes are zero, and of no
others. -/
theorem faithfulKeys_iff (slots : Set Slot) :
    FaithfulKeys slots ↔ ∀ slot ∈ slots, slot.2.toNat < 2 ^ 96 := by
  constructor
  · intro h slot hslot
    rw [← h.decode slot hslot]
    exact decodeKey_lt _
  · intro hlow
    have hdecode : ∀ slot ∈ slots, decodeKey (encodeKey slot) = slot :=
      fun slot hslot => decodeKey_encodeKey (hlow slot hslot)
    refine ⟨hdecode, encodeKey_decodeKey, fun slot hslot slot' hslot' hne hkey => hne ?_,
      fun slot hslot d v => ?_⟩
    · rw [← hdecode slot hslot, hkey, hdecode slot' hslot']
    · rw [RocksDbStateStore.put, hdecode slot hslot]

/-- Two slots that differ above their last 12 bytes have one key, and the store writes the lower
one. -/
theorem keys_collide : ¬FaithfulKeys Set.univ ∧
    encodeKey (1, .twoPow 256 96) = encodeKey (1, 0) ∧
    RocksDbStateStore.put {} (encodeKey (1, .twoPow 256 96), 7) =
      ({} : ChaseStorage).putStorageSlot ((1, 0), 7) := by
  have hkey : encodeKey (1, .twoPow 256 96) = encodeKey (1, 0) := by decide
  refine ⟨fun h => ?_, hkey, ?_⟩
  · exact h.apart (1, .twoPow 256 96) trivial (1, 0) trivial (by decide) hkey
  · rw [hkey]
    rfl

/-! ## The writers -/

/-- A batch that has been executed, by its effects. -/
structure ExecutedBatch where
  batchId : Nat
  applies : List Apply

/-- The delta pages that `exec_worker` makes of a batch. -/
def ExecutedBatch.pages (b : ExecutedBatch) (maxRecords : Nat) : List DeltaPage :=
  intoDeltaPages (appliesToTempBuffer b.applies) b.batchId b.batchId maxRecords

/-- A batch is executed, or committed. -/
inductive WriterStep where
  | exec (b : ExecutedBatch)
  | commit (b : ExecutedBatch)

/-- What the step does to the tables. -/
def WriterStep.run (maxRecords : Nat) (d : ChaseStorage) : WriterStep → ChaseStorage
  | .exec b => d.persistApplies b.applies
  | .commit b => RocksDbStateStore.putBatch d (pageRecords (b.pages maxRecords))

/-- The batch that the step executes. -/
def WriterStep.executed? : WriterStep → Option ExecutedBatch
  | .exec b => some b
  | .commit _ => none

/-- The executed batches, in order. -/
def executed (steps : List WriterStep) : List ExecutedBatch := steps.filterMap WriterStep.executed?

/-- The steps so far, and the batches that wait for their commit: a batch is committed after it is
executed, and in the order of execution. -/
inductive Waits : List WriterStep → List ExecutedBatch → Prop
  | nil : Waits [] []
  | exec {steps : List WriterStep} {waiting : List ExecutedBatch} (b : ExecutedBatch) :
    Waits steps waiting → Waits (steps ++ [.exec b]) (waiting ++ [b])
  | commit {steps : List WriterStep} {b : ExecutedBatch} {waiting : List ExecutedBatch} :
    Waits steps (b :: waiting) → Waits (steps ++ [.commit b]) waiting

/-- The slots of the batch have zeros in their upper 20 bytes. -/
def LowSlots (applies : List Apply) : Prop := ∀ e ∈ slotWrites applies, e.1.2.toNat < 2 ^ 96

/-- The call that the step makes on the tables. -/
def WriterStep.call : WriterStep → TableStep
  | .exec b => { applies := b.applies }
  | .commit b => { puts := slotWrites b.applies }

/-- A commit puts the slots of its batch. -/
theorem WriterStep.run_eq {step : WriterStep} (maxRecords : Nat) (d : ChaseStorage)
    (h : ∀ b, step = .commit b → LowSlots b.applies) :
    step.run maxRecords d = step.call.run d := by
  cases step with
  | exec b => rfl
  | commit b =>
    have hdecode : ((slotWrites b.applies).map fun e => (encodeKey e.1, e.2)).map
        (fun e => (decodeKey e.1, e.2)) = slotWrites b.applies := by
      rw [List.map_map]
      refine (List.map_congr_left fun e he => ?_).trans (List.map_id _)
      exact Prod.ext (decodeKey_encodeKey (h b rfl e he)) rfl
    rw [WriterStep.run, ExecutedBatch.pages, pageRecords_intoDeltaPages, appliesToTempBuffer,
      RocksDbStateStore.putBatch_eq, hdecode]
    rfl

/-- The steps of the writers are calls of the tables, while the keys fit. -/
theorem foldl_run_eq {steps : List WriterStep} (maxRecords : Nat) (d : ChaseStorage)
    (h : ∀ step ∈ steps, ∀ b, step = .commit b → LowSlots b.applies) :
    steps.foldl (WriterStep.run maxRecords) d =
      (steps.map WriterStep.call).foldl TableStep.run d := by
  induction steps generalizing d with
  | nil => rfl
  | cons step steps ih =>
    rw [List.foldl_cons, List.map_cons, List.foldl_cons,
      WriterStep.run_eq maxRecords d (h step List.mem_cons_self),
      ih _ fun step' hmem => h step' (List.mem_cons_of_mem _ hmem)]

/-- The effects of the executed batches are those that are persisted. -/
theorem persisted_call (steps : List WriterStep) :
    persisted (steps.map WriterStep.call) = (executed steps).flatMap (·.applies) := by
  induction steps with
  | nil => rfl
  | cons step steps ih =>
    cases step with
    | exec b => exact congrArg (b.applies ++ ·) ih
    | commit b => exact ih

/-! ## The order of the commits -/

theorem executed_append (steps steps' : List WriterStep) :
    executed (steps ++ steps') = executed steps ++ executed steps' :=
  List.filterMap_append

/-- The executed batches are the committed ones and those that wait. -/
theorem Waits.executed_eq {steps : List WriterStep} {waiting : List ExecutedBatch}
    (h : Waits steps waiting) : ∃ committed, executed steps = committed ++ waiting := by
  induction h with
  | nil => exact ⟨[], rfl⟩
  | @exec steps waiting b _ ih =>
    obtain ⟨committed, heq⟩ := ih
    refine ⟨committed, ?_⟩
    rw [executed_append, heq, List.append_assoc]
    rfl
  | @commit steps b waiting _ ih =>
    obtain ⟨committed, heq⟩ := ih
    refine ⟨committed ++ [b], ?_⟩
    have hnone : executed [.commit b] = [] := rfl
    rw [executed_append, heq, hnone, List.append_nil, List.append_assoc]
    rfl

/-- Before a commit its batch is the first that waits, and the other ones are committed later or
wait at the end. -/
theorem Waits.before_commit {steps : List WriterStep} {waiting : List ExecutedBatch}
    (h : Waits steps waiting) {pre post : List WriterStep} {b : ExecutedBatch}
    (hsteps : steps = pre ++ .commit b :: post) :
    ∃ rest, Waits pre (b :: rest) ∧ ∀ b' ∈ rest, b' ∈ waiting ∨ .commit b' ∈ post := by
  induction h generalizing post with
  | nil => exact absurd hsteps.symm (by simp)
  | @exec steps waiting last _ ih =>
    rcases LastWrite.append_singleton_eq_iff.1 hsteps with ⟨-, hlast, -⟩ | ⟨post', rfl, hpre⟩
    · cases hlast
    · obtain ⟨rest, hrest, hmem⟩ := ih hpre
      refine ⟨rest, hrest, fun b' hb' => ?_⟩
      exact (hmem b' hb').imp (List.mem_append_left _) (List.mem_append_left _)
  | @commit steps last waiting hwaits ih =>
    rcases LastWrite.append_singleton_eq_iff.1 hsteps with ⟨rfl, hlast, -⟩ | ⟨post', rfl, hpre⟩
    · cases hlast
      exact ⟨waiting, hwaits, fun b' hb' => .inl hb'⟩
    · obtain ⟨rest, hrest, hmem⟩ := ih hpre
      refine ⟨rest, hrest, fun b' hb' => ?_⟩
      rcases hmem b' hb' with hwaiting | hpost
      · rcases List.mem_cons.1 hwaiting with rfl | hwaiting
        · exact .inr (List.mem_append_right _ (List.mem_singleton_self _))
        · exact .inl hwaiting
      · exact .inr (List.mem_append_left _ hpost)

/-! ## When the writers agree -/

/-- The values that are written. -/
def SlotEffect.value? : SlotEffect → Option H256
  | .clear => none
  | .write v => some v

/-- The writes among the overwrites are the records of the slot. -/
theorem filterMap_batchEffects (accounts : DBMap H160 StoredAccount) (applies : List Apply)
    (slot : Slot) :
    (batchEffects accounts applies slot).filterMap SlotEffect.value? =
      ((slotWrites applies).filter (·.1 = slot)).map (·.2) := by
  induction applies generalizing accounts with
  | nil => rfl
  | cons x applies ih =>
    have hwrites : slotWrites (x :: applies) = x.slotWrites ++ slotWrites applies := rfl
    have hx : (ChaseStorage.slotEffects accounts x slot).filterMap SlotEffect.value? =
        (x.slotWrites.filter (·.1 = slot)).map (·.2) := by
      cases x with
      | delete a =>
        unfold ChaseStorage.slotEffects
        split <;> rfl
      | modify a basic code storage resetStorage =>
        rw [Apply.slotWrites, List.filter_map, List.map_map]
        by_cases ha : a = slot.1
        · have hfilter : ((fun e : Slot × H256 => decide (e.1 = slot)) ∘
              fun e : H256 × H256 => ((a, e.1), e.2)) = fun e => decide (e.1 = slot.2) := by
            funext e
            simp [Prod.ext_iff, ha]
          have hclear : [SlotEffect.clear].filterMap SlotEffect.value? = [] := rfl
          have hwrite : (SlotEffect.value? ∘ fun e : H256 × H256 => SlotEffect.write e.2) =
              fun e => some e.2 := rfl
          rw [ChaseStorage.slotEffects, Apply.address, if_pos ha, hfilter]
          simp only [List.filterMap_append, List.filterMap_map, hwrite, List.filterMap_eq_map']
          split <;> split <;> simp [hclear, Function.comp_def]
        · have hfilter : ((fun e : Slot × H256 => decide (e.1 = slot)) ∘
              fun e : H256 × H256 => ((a, e.1), e.2)) = fun _ => false := by
            funext e
            simp [Prod.ext_iff, ha]
          rw [ChaseStorage.slotEffects_of_ne (x := .modify a basic code storage resetStorage) ha,
            hfilter, List.filter_false]
          rfl
    rw [batchEffects, List.filterMap_append, hx, ih, hwrites, List.filter_append, List.map_append]

/-- A slot that is written last holds the value of its last record. -/
theorem lastWrite_of_getLast? {accounts : DBMap H160 StoredAccount} {applies : List Apply}
    {slot : Slot} {v : H256} (h : (batchEffects accounts applies slot).getLast? = some (.write v)) :
    lastWrite (slotWrites applies) slot = some v := by
  obtain ⟨init, hinit⟩ := List.getLast?_eq_some_iff.1 h
  rw [lastWrite_eq_getLast?, ← filterMap_batchEffects accounts, hinit, List.filterMap_append]
  exact List.getLast?_concat

/-- No commit brings the slot back: when a commit is the last to overwrite it, with a value that is
not zero, the executed batches have not left the slot cleared. -/
def StaysCleared (accounts : DBMap H160 StoredAccount) (steps : List WriterStep) (slot : Slot) :
    Prop :=
  ∀ pre b post v, steps = pre ++ .commit b :: post →
    lastWrite (slotWrites b.applies) slot = some v → v ≠ 0#256 →
    runEffects slot (persistAccounts accounts ((executed pre).flatMap (·.applies)))
      (post.map WriterStep.call) = [] →
    (batchEffects accounts ((executed pre).flatMap (·.applies)) slot).getLast? ≠ some .clear

/-- A commit among steps that leave the slot alone does not record it. -/
theorem lastWrite_eq_none_of_runEffects {slot : Slot} {accounts : DBMap H160 StoredAccount}
    {steps : List WriterStep} (h : runEffects slot accounts (steps.map WriterStep.call) = [])
    {b : ExecutedBatch} (hb : .commit b ∈ steps) :
    lastWrite (slotWrites b.applies) slot = none := by
  obtain ⟨pre, post, rfl⟩ := List.append_of_mem hb
  rw [List.map_append, runEffects_append, List.append_eq_nil_iff, List.map_cons, runEffects,
    List.append_eq_nil_iff] at h
  have hput : writeEffects (slotWrites b.applies) slot = [] := h.2.1
  rw [← List.getLast?_eq_none_iff, getLast?_writeEffects, Option.map_eq_none_iff] at hput
  exact hput

/-- Batches that do not write a slot have no last write of it. -/
theorem lastWrite_flatMap_eq_none {slot : Slot} {batches : List ExecutedBatch}
    (h : ∀ b ∈ batches, lastWrite (slotWrites b.applies) slot = none) :
    lastWrite (slotWrites (batches.flatMap (·.applies))) slot = none := by
  induction batches with
  | nil => rfl
  | cons b batches ih =>
    rw [List.flatMap_cons, slotWrites, List.flatMap_append, lastWrite_append, ← slotWrites,
      ← slotWrites, ih fun b' hb' => h b' (List.mem_cons_of_mem _ hb'), h b List.mem_cons_self]
    rfl

/-- The value of a commit that is the last to overwrite a slot is the last value that the executed
batches have written there. -/
theorem Waits.lastWrite_eq {steps : List WriterStep} (h : Waits steps [])
    {accounts : DBMap H160 StoredAccount} {pre post : List WriterStep} {b : ExecutedBatch}
    (hsteps : steps = pre ++ .commit b :: post) {slot : Slot} {v : H256}
    (hv : lastWrite (slotWrites b.applies) slot = some v)
    (hpost : runEffects slot accounts (post.map WriterStep.call) = []) :
    lastWrite (slotWrites ((executed pre).flatMap (·.applies))) slot = some v := by
  obtain ⟨rest, hwaits, hrest⟩ := h.before_commit hsteps
  obtain ⟨committed, hcommitted⟩ := hwaits.executed_eq
  have hnone : lastWrite (slotWrites (rest.flatMap (·.applies))) slot = none := by
    refine lastWrite_flatMap_eq_none fun b' hb' => ?_
    exact lastWrite_eq_none_of_runEffects hpost ((hrest b' hb').resolve_left List.not_mem_nil)
  rw [hcommitted, slotWrites, List.flatMap_append, List.flatMap_append, lastWrite_append,
    List.flatMap_cons, List.flatMap_append, lastWrite_append, ← slotWrites, ← slotWrites, hnone, hv]
  rfl

/-- A commit keeps what the executed batches have left, unless it brings a cleared slot back. -/
theorem Waits.putsKeep_iff {steps : List WriterStep} (h : Waits steps [])
    (accounts : DBMap H160 StoredAccount) (old : Option H256) (slot : Slot) :
    PutsKeep accounts old (steps.map WriterStep.call) slot ↔ StaysCleared accounts steps slot := by
  have hpersisted : ∀ (pre : List WriterStep) (b : ExecutedBatch),
      persisted (pre.map WriterStep.call ++ [WriterStep.call (.commit b)]) =
        (executed pre).flatMap (·.applies) := by
    intro pre b
    rw [persisted_append, persisted_call]
    exact List.append_nil _
  constructor
  · intro hkeep pre b post v hsteps hv hne hpost hclear
    have hsome : (SlotEffect.write v).apply = some v := if_neg hne
    have hvalue := hkeep (pre.map WriterStep.call) (WriterStep.call (.commit b))
      (post.map WriterStep.call) v (by rw [hsteps, List.map_append, List.map_cons]) hv
      (by rw [hpersisted]; exact hpost)
    rw [hpersisted, afterEffects_of_getLast? hclear, hsome] at hvalue
    cases hvalue
  · intro hcleared pre step post v hsteps hv hpost
    obtain ⟨pre, rest, rfl, rfl, hrest⟩ := List.map_eq_append_iff.1 hsteps
    obtain ⟨step, post, rfl, rfl, rfl⟩ := List.map_eq_cons_iff.1 hrest
    cases step with
    | exec b => cases hv
    | commit b =>
      rw [hpersisted] at hpost ⊢
      have hwritten := h.lastWrite_eq rfl hv hpost
      cases heffect : (batchEffects accounts ((executed pre).flatMap (·.applies))
        slot).getLast? with
      | none =>
        rw [List.getLast?_eq_none_iff] at heffect
        rw [lastWrite_eq_getLast?, ← filterMap_batchEffects accounts, heffect] at hwritten
        cases hwritten
      | some effect =>
        rw [afterEffects_of_getLast? heffect]
        cases effect with
        | write v' =>
          cases hwritten.symm.trans (lastWrite_of_getLast? heffect)
          rfl
        | clear =>
          have hzero : v = 0#256 := by
            by_contra hne
            exact hcleared pre b post v rfl hv hne hpost heffect
          rw [hzero]
          rfl

/-- **The two writers agree**: when every executed batch is committed, the slot table is the one
that `persist_applies` alone leaves, exactly when no commit brings a cleared slot back. -/
theorem slots_agree_iff (maxRecords : Nat) (d : ChaseStorage) {steps : List WriterStep}
    (hwaits : Waits steps []) (hlow : ∀ step ∈ steps, ∀ b, step = .commit b → LowSlots b.applies) :
    (∀ slot, (steps.foldl (WriterStep.run maxRecords) d).storageSlots.get slot =
        ((executed steps).foldl (fun d b => d.persistApplies b.applies) d).storageSlots.get slot) ↔
      ∀ slot, StaysCleared d.accounts steps slot := by
  have halone : (executed steps).foldl (fun d b => d.persistApplies b.applies) d =
      d.persistApplies (persisted (steps.map WriterStep.call)) := by
    rw [persisted_call]
    exact List.foldl_flatMap.symm
  refine forall_congr' fun slot => ?_
  rw [halone, foldl_run_eq maxRecords d hlow, (run_spec _ d).2.2, (d.persistApplies_spec _).2.2,
    agrees_iff, hwaits.putsKeep_iff]

namespace WritersFixture

/-- A batch that writes a slot of the contract 1. -/
def writeBatch : ExecutedBatch := ⟨1, [.modify 1 ⟨0, 1⟩ none [(5, 7)] false]⟩

/-- A batch that deletes the contract. -/
def deleteBatch : ExecutedBatch := ⟨2, [.delete 1]⟩

/-- The first batch is committed before, or after the second one is executed. -/
def earlyCommit : List WriterStep :=
  [.exec writeBatch, .commit writeBatch, .exec deleteBatch, .commit deleteBatch]

def lateCommit : List WriterStep :=
  [.exec writeBatch, .exec deleteBatch, .commit writeBatch, .commit deleteBatch]

theorem waits_earlyCommit : Waits earlyCommit [] :=
  .commit (.exec deleteBatch (.commit (.exec writeBatch .nil)))

theorem waits_lateCommit : Waits lateCommit [] :=
  .commit (.commit (.exec deleteBatch (.exec writeBatch .nil)))

/-- The batches of the fixture have small slots. -/
theorem lowSlots_of_mem {steps : List WriterStep}
    (h : ∀ step ∈ steps, step = .exec writeBatch ∨ step = .exec deleteBatch ∨
      step = .commit writeBatch ∨ step = .commit deleteBatch) :
    ∀ step ∈ steps, ∀ b, step = .commit b → LowSlots b.applies := by
  rintro step hmem b rfl
  rcases h _ hmem with heq | heq | heq | heq <;> cases heq
  · intro e he
    cases List.mem_singleton.1 he
    decide
  · exact fun e he => nomatch he

/-- A slot that is committed before the deletion agrees. -/
theorem slots_agree_earlyCommit : Waits earlyCommit [] ∧
    (earlyCommit.foldl (WriterStep.run 128) {}).storageSlots.get (1, 5) = none := by
  refine ⟨waits_earlyCommit, ((slots_agree_iff 128 {} waits_earlyCommit
    (lowSlots_of_mem (by simp [earlyCommit]))).2 fun slot pre b post v hsteps hv hne hpost => ?_)
    (1, 5)⟩
  have hlength : pre.length < 4 := by
    have h := congrArg List.length hsteps
    rw [List.length_append, List.length_cons] at h
    exact Nat.lt_of_lt_of_eq (Nat.lt_add_of_pos_right (Nat.succ_pos _)) h.symm
  rcases pre with _ | ⟨s₁, _ | ⟨s₂, _ | ⟨s₃, _ | ⟨s₄, pre⟩⟩⟩⟩
  · cases hsteps
  · cases hsteps
    cases List.mem_singleton.1 (mem_of_lastWrite hv)
    cases hpost
  · cases hsteps
  · cases hsteps
    cases mem_of_lastWrite hv
  · exact absurd hlength (Nat.not_lt.2 (Nat.le_add_left 4 _))

/-- The late commit writes the slot of the deleted contract again. -/
theorem slots_differ_lateCommit : Waits lateCommit [] ∧
    (∀ step ∈ lateCommit, ∀ b, step = .commit b → LowSlots b.applies) ∧
    (lateCommit.foldl (WriterStep.run 128) {}).storageSlots.get (1, 5) = some 7 ∧
    ((executed lateCommit).foldl (fun d b => d.persistApplies b.applies)
      ({} : ChaseStorage)).storageSlots.get (1, 5) = none :=
  ⟨waits_lateCommit, lowSlots_of_mem (by simp [lateCommit]), by decide, by decide⟩

end WritersFixture

end Chase.Stack
