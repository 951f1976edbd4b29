import Chase.EvBlp.Bridge

/-!
# EV-BLP and direct execution

A run of the bridge leaves the inner backend as a run of `_execute` without the overlay does
(`evBlp_agrees`), when its reads and applications meet the conditions `ReadOk` and `ApplyOk`. The
invariant (`Agrees`) compares the cache with the inner backend at the start of the present batch:
what the cache holds for a slot was there then, the slots that the batch has not written are as they
were, and those that it has written have the value that the collector holds last.
-/

namespace Chase

open LastWrite Serial

/-! ## Storage writes and what is applied -/

/-- The effect of an apply on a slot is its last write, or zero where it clears the account. -/
theorem lastWrite_slotWrites (x : Apply) (slot : Slot) :
    x.effectOn slot =
      (lastWrite x.slotWrites slot).or (if x.Clears slot.1 then some 0#256 else none) := by
  cases x with
  | delete a =>
    rw [Apply.effectOn, Apply.slotWrites, lastWrite_nil, Option.none_or]
    rfl
  | modify a basic code storage resetStorage =>
    rw [Apply.effectOn, Apply.slotWrites]
    by_cases ha : a = slot.1
    · have hmap := lastWrite_map (fun k : H256 => ((a, k) : Slot)) storage slot.2
        fun j _ hj => congrArg Prod.snd hj
      have hslot : (a, slot.2) = slot := by rw [ha]
      rw [hslot] at hmap
      rw [if_pos ha, hmap]
      cases resetStorage <;> simp [Apply.Clears, ha]
    · have hnone : lastWrite (storage.map fun e => ((a, e.1), e.2)) slot = none := by
        rw [lastWrite_eq_none_iff, List.map_map]
        intro hmem
        obtain ⟨e, -, rfl⟩ := List.mem_map.1 hmem
        exact ha rfl
      rw [if_neg ha, hnone]
      simp [Apply.Clears, ha]

theorem slotWrites_append (effects effects' : List Apply) :
    slotWrites (effects ++ effects') = slotWrites effects ++ slotWrites effects' :=
  List.flatMap_append

/-- The writes of one effect. -/
theorem slotWrites_singleton (x : Apply) : slotWrites [x] = x.slotWrites := by
  simp [slotWrites]

/-- The last storage write of a slot is what is applied to it, unless the account is emptied after a
write of the slot. -/
theorem lastApplied_of_lastWrite {effects : List Apply} {slot : Slot} {v : H256}
    (hclear : ∀ before x after, effects = before ++ x :: after → x.Clears slot.1 →
      slot ∉ (slotWrites before).map (·.1))
    (h : lastWrite (slotWrites effects) slot = some v) : lastApplied effects slot = some v := by
  induction effects using List.reverseRecOn with
  | nil => cases h
  | append_singleton effects x ih =>
    rw [slotWrites_append, slotWrites_singleton, lastWrite_append] at h
    rw [lastApplied_append, lastApplied_cons, lastApplied, List.foldl_nil, Option.none_or,
      lastWrite_slotWrites]
    cases hx : lastWrite x.slotWrites slot with
    | some w =>
      rw [hx, Option.some_or] at h
      rw [Option.some_or, Option.some_or, h]
    | none =>
      rw [hx, Option.none_or] at h
      have hnot : ¬x.Clears slot.1 := by
        intro hc
        rw [lastWrite_eq_none_iff.2 (hclear effects x [] rfl hc)] at h
        cases h
      rw [if_neg hnot, Option.or_none, Option.none_or]
      refine ih (fun before y after heq hy => ?_) h
      exact hclear before y (after ++ [x]) (by rw [heq, List.append_assoc]; rfl) hy

/-- What is applied to a slot without a storage write is the emptying of its account. -/
theorem clears_of_lastApplied {effects : List Apply} {slot : Slot}
    (h : lastWrite (slotWrites effects) slot = none) (hne : lastApplied effects slot ≠ none) :
    ∃ before x after, effects = before ++ x :: after ∧ x.Clears slot.1 := by
  induction effects using List.reverseRecOn with
  | nil => exact absurd rfl hne
  | append_singleton effects x ih =>
    rw [slotWrites_append, slotWrites_singleton, lastWrite_append, Option.or_eq_none_iff] at h
    by_cases hc : x.Clears slot.1
    · exact ⟨effects, x, [], rfl, hc⟩
    · rw [lastApplied_append, lastApplied_cons, lastApplied, List.foldl_nil, Option.none_or,
        lastWrite_slotWrites, h.1, if_neg hc, Option.none_or, Option.none_or] at hne
      obtain ⟨before, y, after, heq, hy⟩ := ih h.2 hne
      exact ⟨before, y, after ++ [x], by rw [heq, List.append_assoc]; rfl, hy⟩

theorem mem_slots_iff {tx : FinalizedTransaction} {slot : Slot} :
    slot ∈ tx.slots ↔ lastWrite (slotWrites tx.effect) slot ≠ none := by
  rw [Ne, lastWrite_eq_none_iff, not_not]
  rfl

namespace EvBlp

open Cache Reading TwoLevelCache

/-! ## The collector -/

/-- The value that a list of transactions writes last to a slot. -/
def lastValue (txs : List FinalizedTransaction) (slot : Slot) : Option H256 :=
  lastWrite (slotWrites (effects txs)) slot

/-- The last value of one more transaction is its own, where it writes the slot. -/
theorem lastValue_append_singleton (txs : List FinalizedTransaction) (tx : FinalizedTransaction)
    (slot : Slot) :
    lastValue (txs ++ [tx]) slot =
      (lastWrite (slotWrites tx.effect) slot).or (lastValue txs slot) := by
  have heffects : effects (txs ++ [tx]) = effects txs ++ tx.effect := by simp [effects]
  rw [lastValue, heffects, slotWrites_append, lastWrite_append]
  rfl

/-- The last writer of one more transaction is that transaction, where it writes the slot. -/
theorem lastWriter_append_singleton (txs : List FinalizedTransaction) (tx : FinalizedTransaction)
    (slot : Slot) :
    lastWriter FinalizedTransaction.slots (txs ++ [tx]) slot =
      if slot ∈ tx.slots then some tx else lastWriter FinalizedTransaction.slots txs slot := by
  rw [lastWriter, List.filter_append]
  by_cases h : slot ∈ tx.slots
  · simp [h]
  · simp [h, lastWriter]

/-- The last value of a slot is the one of the last transaction that writes it. -/
theorem lastValue_eq (txs : List FinalizedTransaction) (slot : Slot) :
    lastValue txs slot = (lastWriter FinalizedTransaction.slots txs slot).bind fun tx =>
      lastWrite (slotWrites tx.effect) slot := by
  induction txs using List.reverseRecOn with
  | nil => rfl
  | append_singleton txs tx ih =>
    rw [lastValue_append_singleton, lastWriter_append_singleton, ih]
    by_cases h : slot ∈ tx.slots
    · obtain ⟨v, hv⟩ := Option.ne_none_iff_exists'.1 (mem_slots_iff.1 h)
      rw [if_pos h, hv]
      exact hv.symm
    · have hnone : lastWrite (slotWrites tx.effect) slot = none := by
        rw [mem_slots_iff, not_not] at h
        exact h
      rw [if_neg h, hnone, Option.none_or]

/-- The last writer of a slot is one of the transactions, and writes it. -/
theorem lastWriter_spec {txs : List FinalizedTransaction} {slot : Slot} {tx : FinalizedTransaction}
    (h : lastWriter FinalizedTransaction.slots txs slot = some tx) :
    tx ∈ txs ∧ slot ∈ tx.slots := by
  have hmem := List.mem_of_getLast? h
  exact ⟨List.mem_of_mem_filter hmem, by simpa using (List.mem_filter.1 hmem).2⟩

/-- A slot has no last writer when no transaction writes it. -/
theorem lastWriter_eq_none {txs : List FinalizedTransaction} {slot : Slot} :
    lastWriter FinalizedTransaction.slots txs slot = none ↔ ∀ tx ∈ txs, slot ∉ tx.slots := by
  rw [lastWriter, List.getLast?_eq_none_iff, List.filter_eq_nil_iff]
  simp only [decide_eq_true_eq]

/-! ## The invariant -/

section

variable {β : Type} {B : SlotBackend β} {db : Key → Option Value} {base : β} {s : Bridge β}

/-- The records of a list of transactions. -/
def records (txs : List FinalizedTransaction) : List (Key × Value) :=
  appliesToTempBuffer (effects txs)

/-- What the cache holds for a slot, over a store that held `db` at first. -/
def held (db : Key → Option Value) (completed : List FinalizedTransaction) (slot : Slot) :
    Option Value :=
  (lastWrite (records completed) (encodeKey slot)).or (db (encodeKey slot))

/-- The cache and the inner backend agree; `base` is the inner backend at the start of the present
batch. -/
structure Agrees (B : SlotBackend β) (db : Key → Option Value) (base : β) (s : Bridge β) :
    Prop where
  holds : Holds db (records s.completed) s.cache s.committing
  atStart : ∀ slot v, Unaliased s.completed slot → held db s.completed slot = some v →
    v = B.storage base slot
  written : ∀ slot last, lastWriter FinalizedTransaction.slots s.collector slot = some last →
    last ∈ s.inFlight ∨ lastWrite (slotWrites last.effect) slot = some (B.storage s.inner slot)
  unwritten : ∀ slot, (∀ tx ∈ s.collector, slot ∉ tx.slots) → held db s.completed slot ≠ none →
    B.storage s.inner slot = B.storage base slot
  inFlight : ∀ tx ∈ s.inFlight, tx ∈ s.collector

namespace Agrees

theorem find_eq (h : Agrees B db base s) (slot : Slot) :
    s.cache.find (encodeKey slot) = held db s.completed slot := h.holds.find_eq _

/-- The commit worker keeps the invariant, and the inner backend. -/
theorem commitWorker (h : Agrees B db base s) {s' : Bridge β} (hstep : CommitWorker s s') :
    Agrees B db base s' ∧ s'.inner = s.inner ∧ s'.inFlight = s.inFlight := by
  cases hstep with
  | @recv batchId queue hnone hqueue =>
    have hholds := h.holds
    rw [hnone] at hholds
    exact ⟨⟨hholds.takePages batchId, h.atStart, h.written, h.unwritten, h.inFlight⟩, rfl, rfl⟩
  | store hops =>
    have hholds := h.holds
    rw [hops] at hholds
    exact ⟨⟨hholds.storeOp, h.atStart, h.written, h.unwritten, h.inFlight⟩, rfl, rfl⟩

/-- A read that meets its condition is answered as by the inner backend. -/
theorem read (h : Agrees B db base s) {slot : Slot} (hok : ReadOk s slot) :
    (s.storage B slot).1 = B.storage s.inner slot ∧ Agrees B db base (s.storage B slot).2 := by
  refine ⟨?_, h.holds.read _ _, h.atStart, h.written, h.unwritten, h.inFlight⟩
  rw [Bridge.storage, read_fst]
  split
  · rfl
  · rw [h.find_eq]
    cases hheld : held db s.completed slot with
    | none => rfl
    | some v =>
      have hne : held db s.completed slot ≠ none := by simp [hheld]
      rw [Option.getD_some, h.atStart slot v hok.unaliased hheld]
      exact (h.unwritten slot (hok.unwritten (by rwa [h.find_eq])) hne).symm

/-- A transaction is recorded. -/
theorem record (h : Agrees B db base s) (tx : FinalizedTransaction) :
    Agrees B db base (s.commitEvent B (.record tx)) := by
  refine ⟨h.holds, h.atStart, fun slot last hlast => ?_, fun slot hslot => ?_, fun tx' htx' => ?_⟩
  · rw [Bridge.commitEvent, lastWriter_append_singleton] at hlast
    split at hlast
    · cases hlast
      exact .inl List.mem_cons_self
    · exact (h.written slot last hlast).imp_left (List.mem_cons_of_mem _)
  · exact h.unwritten slot fun tx' htx' => hslot tx' (List.mem_append_left _ htx')
  · rcases List.mem_cons.1 htx' with rfl | htx'
    · exact List.mem_append_right _ (List.mem_singleton.2 rfl)
    · exact List.mem_append_left _ (h.inFlight tx' htx')

variable (hB : B.LastApplied)
include hB

/-- An apply leaves the last value that its effect writes. -/
theorem storage_apply_of_write {b : β} {tx : FinalizedTransaction} {slot : Slot}
    (hok : ApplyOk s tx) {v : H256} (hv : lastWrite (slotWrites tx.effect) slot = some v) :
    B.storage (B.apply b tx.effect) slot = v := by
  have happlied : lastApplied tx.effect slot = some v :=
    lastApplied_of_lastWrite
      (fun before x after heq hx => (hok.clears before x after heq slot hx).2.1) hv
  rw [B.storage_apply, hB, happlied]
  rfl

/-- A transaction that does not write a slot, and empties no account with the slot in the cache or
in the collector, leaves it alone. -/
theorem storage_apply_of_not_write {b : β} {tx : FinalizedTransaction} {slot : Slot}
    (hok : ApplyOk s tx) (hslot : slot ∉ tx.slots)
    (hheld : s.cache.find (encodeKey slot) ≠ none ∨ ∃ other ∈ s.collector, slot ∈ other.slots) :
    B.storage (B.apply b tx.effect) slot = B.storage b slot := by
  have hnone : lastWrite (slotWrites tx.effect) slot = none := by
    rw [mem_slots_iff, not_not] at hslot
    exact hslot
  have happlied : lastApplied tx.effect slot = none := by
    by_contra hne
    obtain ⟨before, x, after, heq, hx⟩ := clears_of_lastApplied hnone hne
    obtain ⟨hcache, -, hcollector⟩ := hok.clears before x after heq slot hx
    rcases hheld with hheld | ⟨other, hother, hmem⟩
    · exact hheld hcache
    · exact hcollector other hother (fun he => hslot (he ▸ hmem)) hmem
  rw [B.storage_apply, hB, happlied]
  rfl

/-- A transaction is applied. -/
theorem apply (h : Agrees B db base s) {tx : FinalizedTransaction} (htx : tx ∈ s.inFlight)
    (hok : ApplyOk s tx) : Agrees B db base (s.commitEvent B (.apply tx)) := by
  refine ⟨h.holds, h.atStart, fun slot last hlast => ?_, fun slot hslot hheld => ?_,
    fun tx' htx' => h.inFlight tx' (List.mem_of_mem_erase htx')⟩
  · obtain ⟨hmem, hslot⟩ := lastWriter_spec hlast
    by_cases hwrites : slot ∈ tx.slots
    · -- the last writer is still in flight: another thread's transaction, or this one
      have hlive := hok.inOrder slot hwrites last hlast
      by_cases heq : last = tx
      · obtain ⟨v, hv⟩ := Option.ne_none_iff_exists'.1 (mem_slots_iff.1 hwrites)
        refine .inr ?_
        rw [heq, hv, Bridge.commitEvent, storage_apply_of_write hB hok hv]
      · exact .inl ((List.mem_erase_of_ne heq).2 hlive)
    · have hne : last ≠ tx := fun heq => hwrites (heq ▸ hslot)
      rw [Bridge.commitEvent, storage_apply_of_not_write hB hok hwrites (.inr ⟨last, hmem, hslot⟩)]
      exact (h.written slot last hlast).imp_left (List.mem_erase_of_ne hne).2
  · have hwrites : slot ∉ tx.slots := hslot tx (h.inFlight tx htx)
    have hfind : s.cache.find (encodeKey slot) ≠ none := by rwa [h.find_eq]
    rw [Bridge.commitEvent, storage_apply_of_not_write hB hok hwrites (.inl hfind)]
    exact h.unwritten slot hslot hheld

omit hB

/-- Between batches, the inner backend is the start of the next one. -/
theorem finishBatch (h : Agrees B db base s) (hdone : s.inFlight = []) (maxRecords : Nat) :
    Agrees B db s.inner (s.finishBatch maxRecords) := by
  have hrecords : records (s.completed ++ s.collector) =
      records s.completed ++ records s.collector := by
    simp [records, appliesToTempBuffer, effects, slotWrites]
  refine ⟨?_, fun slot v hun hheld => ?_, fun slot last hlast => (nomatch hlast),
    fun _ _ _ => rfl, fun tx htx => ?_⟩
  · have hcomplete := h.holds.complete s.nextBatchId
      (intoDeltaPages (records s.collector) s.nextBatchId s.nextBatchId maxRecords)
    rw [pageRecords_intoDeltaPages, ← hrecords] at hcomplete
    exact hcomplete
  · have hunold : Unaliased s.completed slot := fun tx htx =>
      hun tx (List.mem_append_left _ htx)
    -- without another slot under the key, the records of the key are the writes of the slot
    have hlast : lastWrite (records s.collector) (encodeKey slot) = lastValue s.collector slot := by
      refine lastWrite_map encodeKey _ slot fun j hj hkey => ?_
      obtain ⟨tx, htx, hjtx⟩ : ∃ tx ∈ s.collector, j ∈ tx.slots := by
        have : ¬∀ tx ∈ s.collector, j ∉ tx.slots := by
          rw [← lastWriter_eq_none]
          intro hnone
          refine lastWrite_eq_none_iff.1 (?_ : lastValue s.collector j = none) hj
          rw [lastValue_eq, hnone]
          rfl
        simpa using this
      exact hun tx (List.mem_append_right _ htx) j hjtx hkey
    rw [held, Bridge.finishBatch, hrecords, lastWrite_append, hlast, Option.or_assoc] at hheld
    cases hwriter : lastWriter FinalizedTransaction.slots s.collector slot with
    | some last =>
      have hvalue : lastValue s.collector slot = some (B.storage s.inner slot) := by
        rw [lastValue_eq, hwriter]
        rcases h.written slot last hwriter with hlive | hwritten
        · rw [hdone] at hlive
          cases hlive
        · exact hwritten
      rw [hvalue, Option.some_or] at hheld
      exact (Option.some.inj hheld).symm
    | none =>
      have hvalue : lastValue s.collector slot = none := by
        rw [lastValue_eq, hwriter]
        rfl
      rw [hvalue, Option.none_or] at hheld
      have hne : held db s.completed slot ≠ none := by
        rw [held, hheld]
        exact Option.some_ne_none v
      rw [h.atStart slot v hunold hheld]
      exact (h.unwritten slot (lastWriter_eq_none.1 hwriter) hne).symm
  · have htx : tx ∈ s.inFlight := htx
    rw [hdone] at htx
    cases htx

/-- A new batch begins where the last one has ended. -/
theorem beginBatch (h : Agrees B db s.inner s) (hdone : s.inFlight = []) :
    Agrees B db s.inner s.beginBatch := by
  refine ⟨h.holds, h.atStart, fun slot last hlast => (nomatch hlast), fun _ _ _ => rfl,
    fun tx htx => ?_⟩
  have htx : tx ∈ s.inFlight := htx
  rw [hdone] at htx
  cases htx

end Agrees

/-! ## Runs of the bridge -/

variable {simulateTx : EthereumTransaction → Reader Slot H256 Outcome}

/-- The phases of a batch do to the inner backend what they do without the overlay. -/
theorem runs_direct (hB : B.LastApplied) {phases : List Phase} {s' : Bridge β}
    (h : (guardedWorld B).Runs simulateTx s phases s') (hagrees : Agrees B db base s)
    (hclose : PhasesClose s.inFlight phases) :
    (directWorld B).Runs simulateTx s.inner phases s'.inner ∧ Agrees B db base s' ∧
      s'.inFlight = [] := by
  induction h with
  | done s => exact ⟨.done _, hagrees, hclose⟩
  | env hstep _ ih =>
    obtain ⟨hagrees', hinner, hflight⟩ := hagrees.commitWorker hstep
    rw [hflight, hinner] at ih
    exact ih hagrees' hclose
  | @simulate s s₁ s₂ txList outcomes phases hpool _ ih =>
    have hres := hpool.eq_run (B.storage s.inner)
      (fun t => Agrees B db base t ∧ t.inner = s.inner ∧ t.inFlight = s.inFlight)
      (fun t t' ⟨ht, hinner, hflight⟩ hstep => by
        obtain ⟨ht', hinner', hflight'⟩ := ht.commitWorker hstep
        exact ⟨ht', hinner'.trans hinner, hflight'.trans hflight⟩)
      (fun t slot v t' ⟨ht, hinner, hflight⟩ hread => by
        obtain ⟨hok, hread⟩ := hread
        obtain ⟨hv, ht'⟩ := ht.read hok
        obtain ⟨rfl, rfl⟩ := Prod.mk.inj hread
        exact ⟨⟨ht', hinner, hflight⟩, hv.trans (by rw [hinner])⟩)
      ⟨hagrees, rfl, rfl⟩
    obtain ⟨rfl, hagrees', hinner, hflight⟩ := hres
    obtain ⟨hnone, hclose⟩ := hclose
    rw [hflight, hinner, hnone] at ih
    obtain ⟨hrun, hend⟩ := ih hagrees' hclose
    refine ⟨World.isolated_runs_simulate.2 ⟨?_, hrun⟩, hend⟩
    rw [List.map_map]
    rfl
  | @event s s₁ s₂ event events phases hstep _ ih =>
    obtain ⟨hok, rfl⟩ := hstep
    cases event with
    | record tx =>
      obtain ⟨hrun, hend⟩ := ih (hagrees.record tx) hclose
      exact ⟨.event rfl hrun, hend⟩
    | apply tx =>
      obtain ⟨⟨htx, hclose⟩, hrest⟩ := hclose
      obtain ⟨hrun, hend⟩ := ih (hagrees.apply hB htx (hok tx rfl)) ⟨hclose, hrest⟩
      exact ⟨.event rfl hrun, hend⟩
  | committed _ ih =>
    obtain ⟨hclose, hrest⟩ := hclose
    rw [Closes] at hclose
    rw [hclose] at ih
    obtain ⟨hrun, hend⟩ := ih hagrees hrest
    exact ⟨.committed hrun, hend⟩

/-- The batches do to the inner backend what they do without the overlay. -/
theorem execWorker_direct (hB : B.LastApplied) {ncpu maxRecords : Nat}
    {batches : List (List EthereumTransaction)} {s' : Bridge β}
    (h : ExecWorker simulateTx ncpu maxRecords (guardedWorld B) s batches s')
    (hagrees : Agrees B db s.inner s) (hdone : s.inFlight = []) :
    DirectRun B simulateTx ncpu s.inner batches s'.inner := by
  induction h with
  | done s => exact .done _
  | env hstep _ ih =>
    obtain ⟨hagrees', hinner, hflight⟩ := hagrees.commitWorker hstep
    rw [hinner, hflight] at ih
    exact ih hagrees' hdone
  | @batch s s₁ s₂ batch batches hexec _ ih =>
    obtain ⟨phases, hphases, hruns⟩ := hexec
    have hclose := hphases.phasesClose
    rw [← hdone] at hclose
    obtain ⟨hrun, hagrees', hflight⟩ := runs_direct hB hruns (hagrees.beginBatch hdone) hclose
    exact .batch ⟨phases, hphases, hrun⟩ (ih (hagrees'.finishBatch hflight maxRecords) hflight)

end

/-- **EV-BLP agrees with direct execution**: a run of the bridge over a new runtime, whose store
holds nothing that the inner backend does not answer, leaves the inner backend as `_execute` on the
same batches does without the overlay, when its steps meet the conditions of `guardedWorld`. -/
theorem evBlp_agrees {β : Type} (B : SlotBackend β) (hB : B.LastApplied)
    (simulateTx : EthereumTransaction → Reader Slot H256 Outcome)
    (ncpu maxRecords l1CapacityBytes l2CapacityBytes : Nat) (db : Key → Option Value) (b : β)
    (hdb : ∀ slot v, db (encodeKey slot) = some v → v = B.storage b slot)
    (batches : List (List EthereumTransaction)) (s' : Bridge β)
    (h : (Bridge.new l1CapacityBytes l2CapacityBytes db b).Execute simulateTx ncpu maxRecords
      (guardedWorld B) batches s') :
    DirectRun B simulateTx ncpu b batches s'.inner := by
  obtain ⟨t, hworker, -, -, rfl⟩ := h
  have hnew : Agrees B db b (Bridge.new l1CapacityBytes l2CapacityBytes db b) :=
    ⟨.new _ _ _, fun slot v _ hheld => hdb slot v hheld, fun slot last hlast => (nomatch hlast),
      fun _ _ _ => rfl, fun tx htx => (nomatch htx)⟩
  exact execWorker_direct hB hworker hnew rfl

/-! ## A stale read -/

/-- The commit worker can always run to its end. -/
theorem exists_drained {β : Type} (W : World Slot H256 (Bridge β))
    (simulateTx : EthereumTransaction → Reader Slot H256 Outcome) (ncpu maxRecords : Nat)
    (s : Bridge β) :
    ∃ t, ExecWorker simulateTx ncpu maxRecords W s [] t ∧ t.commitQueue = [] ∧ t.committing = [] ∧
      t.inner = s.inner := by
  -- first the store writes of the commit in progress, then the next batch of the queue
  have hstore : ∀ (ops : List StoreOp) (s : Bridge β), s.committing = ops →
      (∀ s' : Bridge β, s'.commitQueue = s.commitQueue → s'.committing = [] → s'.inner = s.inner →
        ∃ t, ExecWorker simulateTx ncpu maxRecords W s' [] t ∧ t.commitQueue = [] ∧
          t.committing = [] ∧ t.inner = s.inner) →
      ∃ t, ExecWorker simulateTx ncpu maxRecords W s [] t ∧ t.commitQueue = [] ∧
        t.committing = [] ∧ t.inner = s.inner := by
    intro ops
    induction ops with
    | nil => exact fun s hs hend => hend s rfl hs rfl
    | cons op ops ih =>
      intro s hs hend
      obtain ⟨t, hrun, ht⟩ := ih { s with cache := s.cache.storeOp op, committing := ops } rfl hend
      exact ⟨t, .env (.store hs) hrun, ht⟩
  have hqueue : ∀ (queue : List Nat) (s : Bridge β), s.commitQueue = queue → s.committing = [] →
      ∃ t, ExecWorker simulateTx ncpu maxRecords W s [] t ∧ t.commitQueue = [] ∧
        t.committing = [] ∧ t.inner = s.inner := by
    intro queue
    induction queue with
    | nil => exact fun s hs hnone => ⟨s, .done s, hs, hnone, rfl⟩
    | cons batchId queue ih =>
      intro s hs hnone
      obtain ⟨t, hrun, ht⟩ := hstore _
        { s with
          commitQueue := queue
          cache := (s.cache.takePages batchId).1
          committing := (s.cache.takePages batchId).2 } rfl
        fun s' hq hc hi => by
          obtain ⟨t, hrun, hq', hc', hi'⟩ := ih s' hq hc
          exact ⟨t, hrun, hq', hc', hi'.trans hi⟩
      exact ⟨t, .env (.recv hnone hs) hrun, ht⟩
  refine hstore _ s rfl fun s' hq hc hi => ?_
  obtain ⟨t, hrun, hq', hc', hi'⟩ := hqueue _ s' rfl hc
  exact ⟨t, hrun, hq', hc', hi'.trans hi⟩

namespace EvBlpFixture

/-- A call that writes `1` to the slot `5` of the contract `1`. -/
def writeTx : EthereumTransaction := .ofCall 2 1 0 [] 50000 0

/-- A call that increments the slot. -/
def incrementTx : EthereumTransaction := .ofCall 3 1 0 [1] 50000 0

/-- The effect of a call that leaves `v` in the slot. -/
def effect (v : H256) : List Apply := [.modify 1 ⟨0, 1⟩ none [(5, v)] false]

/-- The outcome of the write. -/
def write : Outcome := .ok (some ⟨effect 1, [], ⟨[], [(1, [(5, 1)])]⟩⟩)

/-- The outcome of an increment that reads `v`. -/
def increment (v : H256) : Outcome :=
  .ok (some ⟨effect (v + 1), [], ⟨[(1, [(5, v)])], [(1, [(5, v + 1)])]⟩⟩)

/-- The two calls, told apart by their data. -/
def simulateTx (tx : EthereumTransaction) : Reader Slot H256 Outcome :=
  if tx.data = some [] then .ret write else .read (1, 5) fun v => .ret (increment v)

/-- The commit of a call. -/
def finalized (id : Nat) (v : H256) : FinalizedTransaction := ⟨id, effect v⟩

/-- The pipeline before the first batch, over an empty store. -/
def start : Bridge State := .new 100 100 (fun _ => none) State.empty

/-- The phases of the batch with the write. -/
def writePhases : List Phase :=
  [.simulate [⟨writeTx, 0⟩] [write], .commit (finalized 0 1).events]

/-- The phases of a batch with one increment. -/
def incrementPhases : List Phase :=
  [.simulate [⟨incrementTx, 0⟩] [increment 1], .commit (finalized 0 2).events]

/-- The phases of a batch with two increments: the second one is aborted, and reads `v` when it is
executed again. -/
def incrementsPhases (v : H256) : List Phase :=
  [.simulate [⟨incrementTx, 0⟩, ⟨incrementTx, 1⟩] [increment 1, increment 1],
    .commit (finalized 0 2).events, .simulate [⟨incrementTx, 1⟩] [increment v],
    .commit (finalized 1 (v + 1)).events]

theorem schedule_write :
    parSchedule 1 (simulated (unpackBatches [[writeTx]]) [write]) =
      some (.ok ⟨[[finalized 0 1]], [], []⟩) := by
  decide

theorem schedule_increment :
    parSchedule 1 (simulated (unpackBatches [[incrementTx]]) [increment 1]) =
      some (.ok ⟨[[finalized 0 2]], [], []⟩) := by
  decide

/-- The schedule of two increments in a batch: the second one is aborted. -/
theorem schedule_increments :
    parSchedule 1
        (simulated (unpackBatches [[incrementTx, incrementTx]]) [increment 1, increment 1]) =
      some (.ok ⟨[[finalized 0 2]], [], [[⟨⟨incrementTx, 1⟩, [5], [5]⟩]]⟩) := by
  decide

theorem executes_write : Executes 1 (unpackBatches [[writeTx]]) writePhases :=
  .mk schedule_write (.cons (.flatten [(finalized 0 1).events]) .nil) .nil

theorem executes_increment : Executes 1 (unpackBatches [[incrementTx]]) incrementPhases :=
  .mk schedule_increment (.cons (.flatten [(finalized 0 2).events]) .nil) .nil

/-- The batch of two increments runs through its phases, whatever the second one reads again. -/
theorem executes_increments (v : H256) :
    Executes 1 (unpackBatches [[incrementTx, incrementTx]]) (incrementsPhases v) :=
  .mk schedule_increments (.cons (.flatten [(finalized 0 2).events]) .nil)
    (.cons (.flatten [(finalized 1 (v + 1)).events]) .nil)

/-- The pipeline when the first batch has ended. -/
def afterWrite : Bridge State :=
  (((start.beginBatch.commitEvent memoryBackend (.record (finalized 0 1))).commitEvent memoryBackend
    (.apply (finalized 0 1))).finishBatch 128).beginBatch

/-- The pipeline when the two increments have been simulated and the first one is committed. -/
def afterFirst : Bridge State :=
  (afterWrite.commitEvent memoryBackend (.record (finalized 0 2))).commitEvent memoryBackend
    (.apply (finalized 0 2))

theorem storage_afterWrite : afterWrite.storage memoryBackend (1, 5) = (1, afterWrite) := rfl

theorem storage_afterFirst : afterFirst.storage memoryBackend (1, 5) = (1, afterFirst) := rfl

/-- An apply of the fixture is guarded when the last writer of the slot is still in flight. -/
theorem applyOk_finalized {s : Bridge State} {id : Nat} {v : H256}
    (h : ∀ last, lastWriter FinalizedTransaction.slots s.collector (1, 5) = some last →
      last ∈ s.inFlight) : ApplyOk s (finalized id v) := by
  refine ⟨fun slot hslot => ?_, fun before x after heq slot hx => ?_⟩
  · obtain rfl : slot = (1, 5) := List.mem_singleton.1 hslot
    exact h
  · have hmem : x ∈ effect v := by
      rw [show effect v = before ++ x :: after from heq]
      simp
    rw [List.mem_singleton.1 hmem] at hx
    exact absurd hx.2 (by decide)

/-- The first batch runs on the bridge. -/
theorem runs_write : (guardedWorld memoryBackend).Runs simulateTx start.beginBatch writePhases
    ((start.beginBatch.commitEvent memoryBackend (.record (finalized 0 1))).commitEvent
      memoryBackend (.apply (finalized 0 1))) := by
  refine .simulate (PoolRun.ret_cons (.done _ []) write) (.event ⟨nofun, rfl⟩ (.event ⟨?_, rfl⟩
    (.committed (.done _))))
  rintro tx ⟨⟩
  refine applyOk_finalized fun last hlast => ?_
  cases hlast
  exact List.mem_singleton.2 rfl

/-- The second batch runs on the bridge, and reads what the first one has written. -/
theorem runs_increment :
    (guardedWorld memoryBackend).Runs simulateTx afterWrite incrementPhases afterFirst := by
  have hread : (guardedWorld memoryBackend).reads afterWrite (1, 5) 1 afterWrite := by
    refine ⟨⟨fun tx htx other hother _ => ?_, fun _ tx htx => (nomatch htx)⟩,
      storage_afterWrite.symm⟩
    rw [List.mem_singleton.1 htx] at hother
    exact List.mem_singleton.1 hother
  refine .simulate (.read_cons hread (.ret_cons (.done _ []) (increment 1)))
    (.event ⟨nofun, rfl⟩ (.event ⟨?_, rfl⟩ (.committed (.done _))))
  rintro tx ⟨⟩
  refine applyOk_finalized fun last hlast => ?_
  cases hlast
  exact List.mem_singleton.2 rfl

/-- The bridge and a direct run agree on a write and an increment in two batches. -/
theorem evBlp_agrees_increment :
    ∃ s',
      start.Execute simulateTx 1 128 (guardedWorld memoryBackend) [[writeTx], [incrementTx]] s' ∧
      DirectRun memoryBackend simulateTx 1 State.empty [[writeTx], [incrementTx]] s'.inner := by
  obtain ⟨t, hdrain, hqueue, hnone, -⟩ :=
    exists_drained (guardedWorld memoryBackend) simulateTx 1 128 (afterFirst.finishBatch 128)
  have hrun : start.Execute simulateTx 1 128 (guardedWorld memoryBackend)
      [[writeTx], [incrementTx]] { t with cache := t.cache.flushFrozenTables } :=
    ⟨t, .batch ⟨_, executes_write, runs_write⟩
      (.batch ⟨_, executes_increment, runs_increment⟩ hdrain),
      hqueue, hnone, rfl⟩
  exact ⟨_, hrun, evBlp_agrees memoryBackend memoryBackend_lastApplied simulateTx 1 128 100 100
    (fun _ => none) State.empty (fun _ _ h => nomatch h) [[writeTx], [incrementTx]] _ hrun⟩

/-- The batches of the failing run. -/
def batches : List (List EthereumTransaction) := [[writeTx], [incrementTx, incrementTx]]

/-- The inner backend after the first batch. -/
def stateAfterWrite : State := MemoryBackend.apply State.empty (effect 1) false

/-- Without the overlay, the second increment reads what the first one has written. -/
theorem directRun_batches {b : State} :
    DirectRun memoryBackend simulateTx 1 State.empty batches b ↔
      b = MemoryBackend.apply (MemoryBackend.apply stateAfterWrite (effect 2) false) (effect 3)
        false := by
  have hwrite : ∀ b, (directWorld memoryBackend).Execute simulateTx 1 [[writeTx]] State.empty b ↔
      b = stateAfterWrite := by
    intro b
    refine Iff.trans (World.isolated_execute_chain (by exact schedule_write)) ?_
    constructor
    · rintro ⟨_, ⟨⟩, hruns⟩
      exact World.isolated_runs_nil.1 hruns
    · exact fun h => ⟨[], .nil, World.isolated_runs_nil.2 h⟩
  have hincrements : ∀ b,
      (directWorld memoryBackend).Execute simulateTx 1 [[incrementTx, incrementTx]] stateAfterWrite
        b ↔ b = MemoryBackend.apply (MemoryBackend.apply stateAfterWrite (effect 2) false)
          (effect 3) false := by
    intro b
    refine Iff.trans (World.isolated_execute_chain (by exact schedule_increments)) ?_
    constructor
    · rintro ⟨_, hre, hruns⟩
      cases hre with
      | cons hevents hnil =>
        cases hnil
        obtain ⟨rfl, hrest⟩ := World.isolated_runs_simulate.1 hruns
        rw [hevents.eq_of_singleton, World.isolated_runs_commit, World.isolated_runs_nil] at hrest
        exact hrest
    · rintro rfl
      exact ⟨_, .cons (.flatten _) .nil,
        World.isolated_runs_simulate.2
          ⟨rfl, World.isolated_runs_commit.2 (World.isolated_runs_nil.2 rfl)⟩⟩
  constructor
  · rintro (_ | ⟨h₁, _ | ⟨h₂, ⟨⟩⟩⟩)
    rw [(hwrite _).1 h₁] at h₂
    exact (hincrements _).1 h₂
  · intro h
    exact .batch ((hwrite _).2 rfl) (.batch ((hincrements _).2 h) (.done _))

/-- The second increment of the second batch is aborted and executed again. It reads the slot from
the cache, which holds what the first batch wrote, and so the first increment is lost. -/
theorem evBlp_reads_stale :
    (∃ s', start.Execute simulateTx 1 128 (overlayWorld memoryBackend) batches s' ∧
        memoryBackend.storage s'.inner (1, 5) = 2) ∧
      (∃ b, DirectRun memoryBackend simulateTx 1 State.empty batches b) ∧
      ∀ b, DirectRun memoryBackend simulateTx 1 State.empty batches b →
        memoryBackend.storage b (1, 5) = 3 := by
  refine ⟨?_, ⟨_, directRun_batches.2 rfl⟩, fun b hb => ?_⟩
  · obtain ⟨t, hdrain, hqueue, hnone, hinner⟩ := exists_drained (overlayWorld memoryBackend)
      simulateTx 1 128
        (((afterFirst.commitEvent memoryBackend (.record (finalized 1 2))).commitEvent
        memoryBackend (.apply (finalized 1 2))).finishBatch 128)
    have hwrite : (overlayWorld memoryBackend).Runs simulateTx start.beginBatch writePhases
        ((start.beginBatch.commitEvent memoryBackend (.record (finalized 0 1))).commitEvent
          memoryBackend (.apply (finalized 0 1))) :=
      .simulate (PoolRun.ret_cons (.done _ []) write)
        (.event rfl (.event rfl (.committed (.done _))))
    have hread : (overlayWorld memoryBackend).reads afterWrite (1, 5) 1 afterWrite :=
      storage_afterWrite.symm
    have hread' : (overlayWorld memoryBackend).reads afterFirst (1, 5) 1 afterFirst :=
      storage_afterFirst.symm
    have hincrements : (overlayWorld memoryBackend).Runs simulateTx afterWrite (incrementsPhases 1)
        ((afterFirst.commitEvent memoryBackend (.record (finalized 1 2))).commitEvent
          memoryBackend (.apply (finalized 1 2))) :=
      .simulate (.read_cons hread (.ret_cons
          (.read_cons hread (.ret_cons (.done _ []) (increment 1))) (increment 1)))
        (.event rfl (.event rfl (.committed
          (.simulate (.read_cons hread' (.ret_cons (.done _ []) (increment 1)))
            (.event rfl (.event rfl (.committed (.done _))))))))
    refine ⟨_, ⟨t, .batch ⟨_, executes_write, hwrite⟩
      (.batch ⟨_, executes_increments 1, hincrements⟩ hdrain), hqueue, hnone, rfl⟩, ?_⟩
    rw [hinner]
    rfl
  · rw [directRun_batches.1 hb]
    rfl

end EvBlpFixture

end EvBlp

end Chase
