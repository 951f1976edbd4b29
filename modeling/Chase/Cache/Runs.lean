import Chase.Cache.TwoLevel

/-!
# Runs of the two-level cache

The operations of the cache over a store whose `put_batch` may fail after a part of its entries, and
the runs of a caller that writes batches with increasing ids, commits each of them once and in order
and flushes when nothing is left to be committed. A run keeps the cache serving the last record of
every key (`Serves`): what is not in L1 any more has been stored, and L2 holds it or nothing
(`read_latest`).
-/

namespace Chase.Cache

open LastWrite Function

/-! ## A store that may fail -/

/-- How a `put_batch` ends: all entries are stored, or the first ones and an error is returned. -/
inductive PutOutcome where
  | stored
  | failed (count : Nat) (error : String)
deriving DecidableEq

/-- The entries that are stored. -/
def PutOutcome.entries (entries : List (Key × Value)) : PutOutcome → List (Key × Value)
  | .stored => entries
  | .failed count _ => entries.take count

/-- `StateStore::put_batch`. -/
def putBatch (db : Key → Option Value) (entries : List (Key × Value)) : Key → Option Value :=
  entries.foldl (fun db entry => update db entry.1 (some entry.2)) db

/-- After a `put_batch`, a key has its last entry. -/
theorem putBatch_apply (db : Key → Option Value) (entries : List (Key × Value)) (key : Key) :
    putBatch db entries key = (lastWrite entries key).or (db key) := by
  induction entries using List.reverseRecOn with
  | nil => rfl
  | append_singleton entries entry ih =>
    rw [putBatch, List.foldl_append, List.foldl_cons, List.foldl_nil, ← putBatch,
      lastWrite_append_single]
    by_cases hkey : entry.1 = key
    · subst hkey
      rw [update_self, if_pos rfl, Option.some_or]
    · rw [update_of_ne (Ne.symm hkey), if_neg hkey, ih]

/-- A part of the entries touches no other key. -/
theorem putBatch_of_notMem {db : Key → Option Value} {entries : List (Key × Value)} {key : Key}
    (outcome : PutOutcome) (hkey : key ∉ entries.map (·.1)) :
    putBatch db (outcome.entries entries) key = db key := by
  have hsub : key ∉ (outcome.entries entries).map (·.1) := by
    intro hmem
    refine hkey (List.map_subset _ ?_ hmem)
    cases outcome with
    | stored => exact List.Subset.refl _
    | failed count error => exact List.take_subset _ _
  rw [putBatch_apply, lastWrite_eq_none_iff.2 hsub, Option.none_or]

namespace L2Cache

/-- `L2Cache::insert_batch`. -/
def insertBatch (c : L2Cache) (entries : List (Key × Value)) : L2Cache := entries.foldl insert c

/-- A key that the first entries hold is found among all of them, with the same value. -/
theorem find_of_isPrefix {c c' : L2Cache} {key : Key} {v : Value} (h : c'.entries <+: c.entries)
    (hv : c'.find key = some v) : c.find key = some v := by
  obtain ⟨entry, hentry, rfl⟩ := Option.map_eq_some_iff.1 hv
  rw [find, h.find?_eq_some hentry]
  rfl

/-- Shrinking keeps the first entries. -/
theorem shrink_isPrefix (capacityBytes fuel : Nat) (c : L2Cache) :
    (shrink capacityBytes fuel c).entries <+: c.entries := by
  induction fuel generalizing c with
  | zero => exact List.prefix_rfl
  | succ fuel ih =>
    rw [shrink]
    split
    · have hlast := List.dropLast_prefix c.entries
      exact (ih _).trans hlast
    · exact List.prefix_rfl

/-- A new first entry is found for its key. -/
theorem find_cons (entry : Key × Value) (c : L2Cache) (key : Key) :
    find { c with entries := entry :: c.entries } key =
      if entry.1 = key then some entry.2 else c.find key := by
  rw [find, List.find?_cons]
  by_cases hkey : entry.1 = key
  · rw [decide_eq_true hkey, if_pos hkey]
    rfl
  · rw [decide_eq_false hkey, if_neg hkey]
    rfl

/-- After a promotion, the promoted entry is found for its key. -/
theorem find_promote (c : L2Cache) (entry : Key × Value) (key : Key) :
    (c.promote entry).find key = if entry.1 = key then some entry.2 else c.find key := by
  refine (find_cons entry { c with entries := c.entries.filter (·.1 ≠ entry.1) } key).trans ?_
  by_cases hkey : entry.1 = key
  · rw [if_pos hkey, if_pos hkey]
  · rw [if_neg hkey, if_neg hkey, find, List.find?_filter, find]
    congr 2
    funext e
    by_cases hek : e.1 = key
    · simp [hek, Ne.symm hkey]
    · simp [hek]

/-- Reading an entry changes no answer. -/
theorem find_get (c : L2Cache) (read key : Key) : (c.get read).2.find key = c.find key := by
  rw [get]
  cases hread : c.find read with
  | none => rfl
  | some v =>
    refine (find_promote c (read, v) key).trans ?_
    split
    · rename_i hkey
      exact hkey ▸ hread.symm
    · rfl

/-- What `put` leaves under a key. -/
theorem find_put {c : L2Cache} {entry : Key × Value} {key : Key} {v : Value}
    (h : (c.put entry).find key = some v) :
    (if entry.1 = key then some entry.2 else c.find key) = some v := by
  rw [put] at h
  split at h
  · rwa [find_promote] at h
  · rw [← find_cons]
    refine find_of_isPrefix ?_ h
    refine List.cons_prefix_cons.2 ⟨rfl, ?_⟩
    split
    · exact List.dropLast_prefix _
    · exact List.prefix_rfl

/-- An entry of L2 is the last one inserted under its key, or was there before. -/
theorem find_insertBatch {c : L2Cache} {entries : List (Key × Value)} {key : Key} {v : Value}
    (h : (c.insertBatch entries).find key = some v) :
    (lastWrite entries key).or (c.find key) = some v := by
  induction entries using List.reverseRecOn generalizing v with
  | nil => exact h
  | append_singleton entries entry ih =>
    rw [insertBatch, List.foldl_append, List.foldl_cons, List.foldl_nil, ← insertBatch] at h
    have hput := find_put (find_of_isPrefix (shrink_isPrefix _ _ _) h)
    rw [lastWrite_append_single]
    split at hput
    · rename_i hkey
      rw [if_pos hkey, Option.some_or, hput]
    · rename_i hkey
      rw [if_neg hkey]
      exact ih hput

end L2Cache

/-! ## The records of L1 -/

/-- The index of a table points to the last record of every key. -/
def MemIndexTable.Consistent (t : MemIndexTable) : Prop :=
  ∀ key, t.lookup key = lastWrite (pageRecords t.pages) key

theorem pageRecords_append (pages pages' : List DeltaPage) :
    pageRecords (pages ++ pages') = pageRecords pages ++ pageRecords pages' :=
  List.flatMap_append

/-- A page that is inserted keeps the index of the table in step with its pages. -/
theorem MemIndexTable.Consistent.insertPage {t : MemIndexTable} (h : t.Consistent)
    (page : DeltaPage) : (t.insertPage page).Consistent := by
  intro key
  have hpages : pageRecords (t.insertPage page).pages = pageRecords t.pages ++ page.records := by
    rw [MemIndexTable.insertPage, pageRecords_append]
    exact congrArg _ (List.append_nil _)
  rw [lookup_insertPage, h key, hpages, lastWrite_append]
  rfl

namespace L1Cache

/-- The tables, from the oldest to the active one. -/
def tables (c : L1Cache) : List MemIndexTable := c.frozenTables ++ [c.active]

/-- The records of L1, from the oldest to the newest. -/
def records (c : L1Cache) : List (Key × Value) := c.tables.flatMap fun t => pageRecords t.pages

/-- The indices of all tables are consistent. -/
def Consistent (c : L1Cache) : Prop := ∀ t ∈ c.tables, t.Consistent

/-- The newest table that has a key answers with its last record. -/
theorem findSome?_lookup_reverse {tables : List MemIndexTable}
    (h : ∀ t ∈ tables, t.Consistent) (key : Key) :
    tables.reverse.findSome? (·.lookup key) =
      lastWrite (tables.flatMap fun t => pageRecords t.pages) key := by
  induction tables with
  | nil => rfl
  | cons t tables ih =>
    rw [List.reverse_cons, List.findSome?_append, ih fun t' ht => h t' (List.mem_cons_of_mem _ ht),
      List.flatMap_cons, lastWrite_append, List.findSome?_singleton, h t List.mem_cons_self key]

/-- L1 answers with the last of its records. -/
theorem read_eq {c : L1Cache} (h : c.Consistent) (key : Key) :
    c.read key = lastWrite c.records key := by
  rw [read, records, tables, List.flatMap_append, lastWrite_append,
    findSome?_lookup_reverse fun t ht => h t (List.mem_append_left _ ht),
    h c.active (List.mem_append_right _ (List.mem_singleton_self _)), List.flatMap_singleton]

/-- Freezing the active table moves records and drops none. -/
theorem records_freezeActive (c : L1Cache) : c.freezeActive.records = c.records := by
  rw [records, records, tables, tables, freezeActive, List.flatMap_append, List.flatMap_append,
    List.flatMap_append]
  exact List.append_nil _

/-- Freezing the active table keeps L1 consistent. -/
theorem Consistent.freezeActive {c : L1Cache} (h : c.Consistent) : c.freezeActive.Consistent := by
  intro t ht
  rcases List.mem_append.1 ht with ht | ht
  · rcases List.mem_append.1 ht with ht | ht
    · exact h t (List.mem_append_left _ ht)
    · cases List.mem_singleton.1 ht
      exact h c.active (List.mem_append_right _ (List.mem_singleton_self _))
  · cases List.mem_singleton.1 ht
    exact fun _ => rfl

/-- A page that is written keeps L1 consistent. -/
theorem Consistent.writeDeltaPage {c : L1Cache} (h : c.Consistent) (page : DeltaPage) :
    (c.writeDeltaPage page).Consistent := by
  have hinsert : ({ c with active := c.active.insertPage page } : L1Cache).Consistent := by
    intro t ht
    rcases List.mem_append.1 ht with ht | ht
    · exact h t (List.mem_append_left _ ht)
    · cases List.mem_singleton.1 ht
      exact (h c.active (List.mem_append_right _ (List.mem_singleton_self _))).insertPage page
  rw [L1Cache.writeDeltaPage]
  split
  · exact hinsert.freezeActive
  · exact hinsert

/-- A page that is written adds its records. -/
theorem records_writeDeltaPage (c : L1Cache) (page : DeltaPage) :
    (c.writeDeltaPage page).records = c.records ++ page.records := by
  have hinsert : ({ c with active := c.active.insertPage page } : L1Cache).records =
      c.records ++ page.records := by
    simp [records, tables, MemIndexTable.insertPage, pageRecords]
  rw [writeDeltaPage]
  split
  · rw [records_freezeActive, hinsert]
  · exact hinsert

/-- Pages that are written keep L1 consistent and add their records. -/
theorem writeDeltaPages {c : L1Cache} (h : c.Consistent) (pages : List DeltaPage) :
    (pages.foldl writeDeltaPage c).Consistent ∧
      (pages.foldl writeDeltaPage c).records = c.records ++ pageRecords pages := by
  induction pages generalizing c with
  | nil => exact ⟨h, (List.append_nil _).symm⟩
  | cons page pages ih =>
    obtain ⟨hconsistent, hrecords⟩ := ih (h.writeDeltaPage page)
    refine ⟨hconsistent, hrecords.trans ?_⟩
    rw [records_writeDeltaPage, List.append_assoc]
    rfl

end L1Cache

/-! ## The operations -/

namespace TwoLevelCache

/-- The durable and the cached copy of stored entries. -/
def storeEntries (c : TwoLevelCache) (entries : List (Key × Value)) : TwoLevelCache :=
  { c with db := putBatch c.db entries, l2 := c.l2.insertBatch entries }

/-- `TwoLevelCache::commit_batch`, with the outcome of its `put_batch`. -/
def commitBatch (c : TwoLevelCache) (batchId : Nat) (outcome : PutOutcome) :
    Except String Unit × TwoLevelCache :=
  let entries := pageRecords ((c.pendingBatchPages batchId).getD [])
  let c := { c with pendingBatchPages := update c.pendingBatchPages batchId none }
  if entries.isEmpty then (.ok (), c)
  else
    match outcome with
    | .stored => (.ok (), c.storeEntries entries)
    | .failed _ error => (.error error, { c with db := putBatch c.db (outcome.entries entries) })

/-- `remove_frozen_table` of the oldest table. -/
def removeOldest (c : TwoLevelCache) : TwoLevelCache :=
  { c with l1 := { c.l1 with frozenTables := c.l1.frozenTables.tail } }

/-- The loop of `flush_frozen_tables` over the frozen tables that are left, with the outcomes of the
next `put_batch` calls (where none is given, the entries are stored). -/
def flushLoop : List MemIndexTable → List PutOutcome → Nat → TwoLevelCache →
    Except String Nat × TwoLevelCache
  | [], _, flushed, c => (.ok flushed, c)
  | table :: tables, outcomes, flushed, c =>
    if table.pages.isEmpty then flushLoop tables outcomes flushed c.removeOldest
    else
      match outcomes.headD .stored with
      | .stored =>
        flushLoop tables outcomes.tail (flushed + table.pages.length)
          (c.storeEntries (pageRecords table.pages)).removeOldest
      | .failed count error =>
        (.error error, { c with db := putBatch c.db ((pageRecords table.pages).take count) })

/-- `TwoLevelCache::flush_frozen_tables`. -/
def tryFlushFrozenTables (c : TwoLevelCache) (outcomes : List PutOutcome) :
    Except String Nat × TwoLevelCache :=
  flushLoop c.l1.frozenTables outcomes 0 c

/-- The loop of `try_flush_with_retry`, with the outcomes of each attempt that is left. -/
def retryLoop (maxRetries : Nat) : List (List PutOutcome) → String → TwoLevelCache →
    Except String Nat × TwoLevelCache
  | [], lastErr, c => (.error s!"flush failed after {maxRetries} retries: {lastErr}", c)
  | outcomes :: attempts, _, c =>
    match c.tryFlushFrozenTables outcomes with
    | (.ok n, c) => (.ok n, c)
    | (.error e, c) => retryLoop maxRetries attempts e c

/-- `TwoLevelCache::try_flush_with_retry`, with the outcomes of each attempt. -/
def tryFlushWithRetry (c : TwoLevelCache) (attempts : List (List PutOutcome)) :
    Except String Nat × TwoLevelCache :=
  retryLoop attempts.length attempts "" c

/-- `commit_batch` does not touch L1. -/
theorem l1_commitBatch (c : TwoLevelCache) (batchId : Nat) (outcome : PutOutcome) :
    (c.commitBatch batchId outcome).2.l1 = c.l1 := by
  unfold commitBatch
  dsimp only
  split
  · rfl
  · cases outcome <;> rfl

/-- A read does not touch L1. -/
theorem l1_read (c : TwoLevelCache) (key : Key) (visibleUpTo : Nat) :
    (c.read key visibleUpTo).2.l1 = c.l1 := by
  rw [read]
  split
  · rfl
  · split
    · rfl
    · split <;> rfl

/-- The writes of entries to the store are one `put_batch`. -/
theorem foldl_put (entries : List (Key × Value)) (c : TwoLevelCache) :
    (entries.map StoreOp.put).foldl storeOp c = { c with db := putBatch c.db entries } := by
  induction entries generalizing c with
  | nil => rfl
  | cons entry entries ih =>
    rw [List.map_cons, List.foldl_cons, ih]
    rfl

/-- The insertions of entries into L2 are one `insert_batch`. -/
theorem foldl_insert (entries : List (Key × Value)) (c : TwoLevelCache) :
    (entries.map StoreOp.insert).foldl storeOp c =
      { c with l2 := c.l2.insertBatch entries } := by
  induction entries generalizing c with
  | nil => rfl
  | cons entry entries ih =>
    rw [List.map_cons, List.foldl_cons, ih]
    rfl

/-- The store writes of a list of pages, one by one, store its entries. -/
theorem foldl_storeOps (pages : List DeltaPage) (c : TwoLevelCache) :
    (storeOps pages).foldl storeOp c = c.storeEntries (pageRecords pages) := by
  rw [storeOps, List.foldl_append, foldl_put, foldl_insert]
  rfl

end TwoLevelCache

/-! ## Runs -/

/-- A call of the cache, with the outcomes of its store writes. -/
inductive CacheOp where
  | write (batchId : Nat) (pages : List DeltaPage)
  | complete (batchId : Nat)
  | commit (batchId : Nat) (outcome : PutOutcome)
  | flush (outcomes : List PutOutcome)
  | retry (attempts : List (List PutOutcome))
  | read (key : Key) (visibleUpTo : Nat)

/-- The batches that are written, and those whose `commit_batch` has been called. -/
structure History where
  written : List Nat := []
  committed : List Nat := []

namespace CacheOp

/-- What the call does to the cache. -/
def apply (c : TwoLevelCache) : CacheOp → TwoLevelCache
  | write batchId pages => c.writeDeltaPages batchId pages
  | complete batchId => c.markBatchComplete batchId
  | commit batchId outcome => (c.commitBatch batchId outcome).2
  | flush outcomes => (c.tryFlushFrozenTables outcomes).2
  | retry attempts => (c.tryFlushWithRetry attempts).2
  | read key visibleUpTo => (c.read key visibleUpTo).2

/-- The caller's history after the call. -/
def record (h : History) : CacheOp → History
  | write batchId _ => { h with written := h.written ++ [batchId] }
  | commit batchId _ => { h with committed := h.committed ++ [batchId] }
  | _ => h

/-- Batches are written with increasing ids, completed and committed after they are written, the
latter in increasing order, and flushes are made when every written batch has had its commit. -/
def Admissible (h : History) : CacheOp → Prop
  | write batchId _ => ∀ id ∈ h.written, id < batchId
  | complete batchId => batchId ∈ h.written
  | commit batchId _ => batchId ∈ h.written ∧ ∀ id ∈ h.committed, id < batchId
  | flush _ => ∀ id ∈ h.written, id ∈ h.committed
  | retry _ => ∀ id ∈ h.written, id ∈ h.committed
  | read _ _ => True

instance (h : History) : DecidablePred (Admissible h)
  | write _ _ => inferInstanceAs (Decidable (∀ _ ∈ _, _))
  | complete _ => inferInstanceAs (Decidable (_ ∈ _))
  | commit _ _ => inferInstanceAs (Decidable (_ ∧ _))
  | flush _ => inferInstanceAs (Decidable (∀ _ ∈ _, _))
  | retry _ => inferInstanceAs (Decidable (∀ _ ∈ _, _))
  | read _ _ => inferInstanceAs (Decidable True)

/-- The pages that the call writes. -/
def pages : CacheOp → List DeltaPage
  | write _ pages => pages
  | _ => []

end CacheOp

/-- Every call of the run is admissible. -/
def AdmissibleRun (h : History) : List CacheOp → Prop
  | [] => True
  | op :: ops => op.Admissible h ∧ AdmissibleRun (op.record h) ops

instance : ∀ (h : History) (ops : List CacheOp), Decidable (AdmissibleRun h ops)
  | _, [] => inferInstanceAs (Decidable True)
  | h, op :: ops =>
    have : Decidable (AdmissibleRun (op.record h) ops) := instDecidableAdmissibleRun _ ops
    inferInstanceAs (Decidable (op.Admissible h ∧ _))

/-- The records that a run writes, in order. -/
def writtenRecords (ops : List CacheOp) : List (Key × Value) :=
  pageRecords (ops.flatMap CacheOp.pages)

/-! ## The cache serves the last record -/

namespace TwoLevelCache

/-- The cache answers with the last of the records that were `flushed` and of those in L1. Below
L1, the store holds the former and L2 a part of them. Only batches that are written and not yet
committed have pages waiting, and their keys are in L1. -/
structure Serves (db₀ : Key → Option Value) (h : History) (flushed : List (Key × Value))
    (c : TwoLevelCache) : Prop where
  consistent : c.l1.Consistent
  l2 : ∀ key ∉ c.l1.records.map (·.1), ∀ v, c.l2.find key = some v →
    lastWrite flushed key = some v
  db : ∀ key ∉ c.l1.records.map (·.1), c.db key = (lastWrite flushed key).or (db₀ key)
  committed : ∀ id ∈ h.committed, id ∈ h.written
  pending : ∀ batchId pages, c.pendingBatchPages batchId = some pages →
    (batchId ∈ h.written ∧ batchId ∉ h.committed) ∧
      (pageRecords pages).map (·.1) ⊆ c.l1.records.map (·.1)

namespace Serves

variable {db₀ : Key → Option Value} {h : History} {flushed : List (Key × Value)}
  {c : TwoLevelCache}

/-- A new cache serves the store. -/
theorem new (l1CapacityBytes l2CapacityBytes : Nat) (db₀ : Key → Option Value) :
    Serves db₀ {} [] (TwoLevelCache.new l1CapacityBytes l2CapacityBytes db₀) where
  consistent t ht := by
    cases List.mem_singleton.1 ht
    exact fun _ => rfl
  l2 _ _ _ hv := nomatch hv
  db _ _ := rfl
  committed _ hid := nomatch hid
  pending _ _ hpages := nomatch hpages

/-- A lookup is answered with the last of the flushed records and of those in L1. -/
theorem find_eq (hc : Serves db₀ h flushed c) (key : Key) :
    c.find key = (lastWrite (flushed ++ c.l1.records) key).or (db₀ key) := by
  rw [find, L1Cache.read_eq hc.consistent, lastWrite_append, Option.or_assoc]
  cases hlast : lastWrite c.l1.records key with
  | some v => rfl
  | none =>
    have hkey := lastWrite_eq_none_iff.1 hlast
    rw [Option.none_or, Option.none_or, hc.db key hkey]
    cases hfind : c.l2.find key with
    | none => rfl
    | some v => rw [hc.l2 key hkey v hfind, Option.some_or, Option.some_or]

/-- Storing entries, or a part of them, changes nothing but their keys. -/
theorem frame {c' : TwoLevelCache} {entries : List (Key × Value)} (hc : Serves db₀ h flushed c)
    (hentries : entries.map (·.1) ⊆ c.l1.records.map (·.1)) (hl1 : c'.l1 = c.l1)
    (hpending : c'.pendingBatchPages = c.pendingBatchPages)
    (hdb : ∀ key ∉ entries.map (·.1), c'.db key = c.db key)
    (hl2 : ∀ key ∉ entries.map (·.1), ∀ v, c'.l2.find key = some v → c.l2.find key = some v) :
    Serves db₀ h flushed c' := by
  refine ⟨hl1 ▸ hc.consistent, fun key hkey v hv => ?_, fun key hkey => ?_, hc.committed,
    fun id pages hpages => ?_⟩
  · rw [hl1] at hkey
    exact hc.l2 key hkey v (hl2 key (fun hmem => hkey (hentries hmem)) v hv)
  · rw [hl1] at hkey
    rw [hdb key fun hmem => hkey (hentries hmem), hc.db key hkey]
  · rw [hpending] at hpages
    rw [hl1]
    exact hc.pending id pages hpages

/-- The pages of a new batch wait for its commit. -/
theorem writeDeltaPages (hc : Serves db₀ h flushed c) {batchId : Nat}
    (hid : ∀ id ∈ h.written, id < batchId) (pages : List DeltaPage) :
    Serves db₀ { h with written := h.written ++ [batchId] } flushed
      (c.writeDeltaPages batchId pages) := by
  obtain ⟨hconsistent, hrecords⟩ := L1Cache.writeDeltaPages hc.consistent pages
  have hold : ∀ key ∈ c.l1.records.map (·.1),
      key ∈ (pages.foldl L1Cache.writeDeltaPage c.l1).records.map (·.1) := by
    intro key hkey
    rw [hrecords, List.map_append]
    exact List.mem_append_left _ hkey
  refine ⟨hconsistent, fun key hkey => hc.l2 key fun hmem => hkey (hold key hmem),
    fun key hkey => hc.db key fun hmem => hkey (hold key hmem),
    fun id hmem => List.mem_append_left _ (hc.committed id hmem), fun id pages' hpages => ?_⟩
  by_cases heq : id = batchId
  · subst heq
    have hself : some pages = some pages' :=
      (update_self id _ c.pendingBatchPages).symm.trans hpages
    cases hself
    refine ⟨⟨List.mem_append_right _ (List.mem_singleton_self _), fun hmem => ?_⟩, ?_⟩
    · exact Nat.lt_irrefl _ (hid id (hc.committed id hmem))
    · intro key hkey
      change key ∈ (pages.foldl L1Cache.writeDeltaPage c.l1).records.map (·.1)
      rw [hrecords, List.map_append]
      exact List.mem_append_right _ hkey
  · obtain ⟨⟨hwritten, hnot⟩, hkeys⟩ :=
      hc.pending id pages' ((update_of_ne heq _ _).symm.trans hpages)
    exact ⟨⟨List.mem_append_left _ hwritten, hnot⟩, fun key hkey => hold key (hkeys hkey)⟩

/-- A read fills L2 with what the store has, and changes no answer. -/
theorem read (hc : Serves db₀ h flushed c) (key : Key) (visibleUpTo : Nat) :
    Serves db₀ h flushed (c.read key visibleUpTo).2 := by
  rw [TwoLevelCache.read]
  split
  · exact hc
  · cases c.l1.read key with
    | some v => exact hc
    | none =>
      cases hget : c.l2.get key with
      | mk found l2 =>
        cases found with
        | none => exact hc
        | some v =>
          refine ⟨hc.consistent, fun key' hkey' v' hv' => ?_, hc.db, hc.committed, hc.pending⟩
          have hfind := L2Cache.find_get c.l2 key key'
          rw [hget] at hfind
          exact hc.l2 key' hkey' v' (hfind.symm.trans hv')

/-- Entries of L1 are stored, or a part of them with an error. -/
theorem put (hc : Serves db₀ h flushed c) {entries : List (Key × Value)}
    (hentries : entries.map (·.1) ⊆ c.l1.records.map (·.1)) (outcome : PutOutcome) :
    Serves db₀ h flushed { c with db := putBatch c.db (outcome.entries entries) } :=
  hc.frame hentries rfl rfl (fun _ hkey => putBatch_of_notMem outcome hkey) fun _ _ _ hv => hv

/-- Entries whose keys are in L1 can be written below it without changing an answer. -/
theorem storeEntries (hc : Serves db₀ h flushed c) {entries : List (Key × Value)}
    (hentries : entries.map (·.1) ⊆ c.l1.records.map (·.1)) :
    Serves db₀ h flushed (c.storeEntries entries) := by
  refine hc.frame hentries rfl rfl (fun _ hkey => putBatch_of_notMem .stored hkey) ?_
  intro key hkey v hv
  have hfind := L2Cache.find_insertBatch hv
  rwa [lastWrite_eq_none_iff.2 hkey, Option.none_or] at hfind

/-- The pages of a batch are taken to be committed. -/
theorem takePending (hc : Serves db₀ h flushed c) {batchId : Nat} (hid : batchId ∈ h.written) :
    Serves db₀ { h with committed := h.committed ++ [batchId] } flushed
      { c with pendingBatchPages := update c.pendingBatchPages batchId none } := by
  refine ⟨hc.consistent, hc.l2, hc.db, fun id hmem => ?_, fun id pages hpages => ?_⟩
  · rcases List.mem_append.1 hmem with hmem | hmem
    · exact hc.committed id hmem
    · cases List.mem_singleton.1 hmem
      exact hid
  · by_cases heq : id = batchId
    · subst heq
      have hself : none = some pages := (update_self id _ c.pendingBatchPages).symm.trans hpages
      cases hself
    · obtain ⟨⟨hwritten, hnot⟩, hkeys⟩ :=
        hc.pending id pages ((update_of_ne heq _ _).symm.trans hpages)
      refine ⟨⟨hwritten, fun hmem => ?_⟩, hkeys⟩
      rcases List.mem_append.1 hmem with hmem | hmem
      · exact hnot hmem
      · exact heq (List.mem_singleton.1 hmem)

/-- A commit takes the pages of its batch, whether they are stored or lost. -/
theorem commitBatch (hc : Serves db₀ h flushed c) {batchId : Nat} (hid : batchId ∈ h.written)
    (outcome : PutOutcome) :
    Serves db₀ { h with committed := h.committed ++ [batchId] } flushed
      (c.commitBatch batchId outcome).2 := by
  have hentries : (pageRecords ((c.pendingBatchPages batchId).getD [])).map (·.1) ⊆
      c.l1.records.map (·.1) := by
    cases hpages : c.pendingBatchPages batchId with
    | none => exact List.nil_subset _
    | some pages => exact (hc.pending batchId pages hpages).2
  have htaken := hc.takePending hid
  unfold TwoLevelCache.commitBatch
  dsimp only
  split
  · exact htaken
  · cases outcome with
    | stored => exact htaken.storeEntries hentries
    | failed count error => exact htaken.put hentries (.failed count error)

/-- No pages wait when every written batch has had its commit. -/
theorem pending_eq_none (hc : Serves db₀ h flushed c) (hall : ∀ id ∈ h.written, id ∈ h.committed)
    (batchId : Nat) : c.pendingBatchPages batchId = none := by
  cases hpages : c.pendingBatchPages batchId with
  | none => rfl
  | some pages =>
    obtain ⟨⟨hwritten, hnot⟩, _⟩ := hc.pending batchId pages hpages
    exact absurd (hall batchId hwritten) hnot

/-- The records of the oldest table come first. -/
theorem records_removeOldest {table : MemIndexTable} {tables : List MemIndexTable}
    (entries : List (Key × Value)) (htables : c.l1.frozenTables = table :: tables) :
    c.l1.records = pageRecords table.pages ++ (c.storeEntries entries).removeOldest.l1.records := by
  rw [L1Cache.records, L1Cache.tables, htables, List.cons_append, List.flatMap_cons]
  simp [TwoLevelCache.removeOldest, TwoLevelCache.storeEntries, L1Cache.records, L1Cache.tables,
    htables]

/-- The oldest table is removed after its entries are stored. -/
theorem removeOldest (hc : Serves db₀ h flushed c) (hall : ∀ id ∈ h.written, id ∈ h.committed)
    {table : MemIndexTable} {tables : List MemIndexTable}
    (htables : c.l1.frozenTables = table :: tables) :
    Serves db₀ h (flushed ++ pageRecords table.pages)
      (c.storeEntries (pageRecords table.pages)).removeOldest := by
  have hrecords := records_removeOldest (pageRecords table.pages) htables
  have hbelow : ∀ key, lastWrite (pageRecords table.pages) key = none →
      key ∉ (c.storeEntries (pageRecords table.pages)).removeOldest.l1.records.map (·.1) →
      key ∉ c.l1.records.map (·.1) := by
    intro key hnone hkey hmem
    rw [hrecords, List.map_append] at hmem
    rcases List.mem_append.1 hmem with hmem | hmem
    · exact lastWrite_eq_none_iff.1 hnone hmem
    · exact hkey hmem
  refine ⟨fun t ht => ?_, fun key hkey v hv => ?_, fun key hkey => ?_, hc.committed, ?_⟩
  · refine hc.consistent t ?_
    rw [L1Cache.tables, htables]
    refine List.mem_cons_of_mem _ ?_
    have htail : c.l1.frozenTables.tail = tables := by rw [htables, List.tail_cons]
    rw [← htail]
    exact ht
  · have hfind := L2Cache.find_insertBatch hv
    rw [lastWrite_append]
    cases hlast : lastWrite (pageRecords table.pages) key with
    | some v' =>
      rw [hlast] at hfind
      exact hfind
    | none =>
      rw [hlast, Option.none_or] at hfind
      exact hc.l2 key (hbelow key hlast hkey) v hfind
  · refine (putBatch_apply c.db _ key).trans ?_
    rw [lastWrite_append, Option.or_assoc]
    cases hlast : lastWrite (pageRecords table.pages) key with
    | some v => rfl
    | none =>
      rw [hc.db key (hbelow key hlast hkey)]
  · intro id pages hpages
    cases (hc.pending_eq_none hall id).symm.trans hpages

/-- Removing flushed tables keeps the records of the run, whatever part of a table is stored when
the store fails. -/
theorem flushLoop (hc : Serves db₀ h flushed c) (hall : ∀ id ∈ h.written, id ∈ h.committed)
    {tables : List MemIndexTable} (htables : c.l1.frozenTables = tables)
    (outcomes : List PutOutcome) (count : Nat) :
    ∃ flushed', Serves db₀ h flushed' (TwoLevelCache.flushLoop tables outcomes count c).2 ∧
      flushed' ++ (TwoLevelCache.flushLoop tables outcomes count c).2.l1.records =
        flushed ++ c.l1.records := by
  induction tables generalizing outcomes count flushed c with
  | nil => exact ⟨flushed, hc, rfl⟩
  | cons table tables ih =>
    have htail : c.l1.frozenTables.tail = tables := by rw [htables, List.tail_cons]
    have hrecords := records_removeOldest (pageRecords table.pages) htables
    have hremoved := hc.removeOldest hall htables
    rw [TwoLevelCache.flushLoop]
    split
    · rename_i hempty
      rw [List.isEmpty_iff.1 hempty] at hrecords hremoved
      obtain ⟨flushed', hserves, heq⟩ := ih hremoved htail outcomes count
      refine ⟨flushed', hserves, heq.trans ?_⟩
      rw [hrecords, List.append_assoc]
    · split
      · obtain ⟨flushed', hserves, heq⟩ := ih hremoved htail outcomes.tail
          (count + table.pages.length)
        refine ⟨flushed', hserves, heq.trans ?_⟩
        rw [hrecords, List.append_assoc]
      · rename_i failed error _
        refine ⟨flushed, hc.put ?_ (.failed failed error), rfl⟩
        rw [hrecords, List.map_append]
        exact List.subset_append_left _ _

/-- The loop of the retries keeps what the cache serves, whichever attempts fail. -/
theorem retryLoop (hc : Serves db₀ h flushed c) (hall : ∀ id ∈ h.written, id ∈ h.committed)
    (maxRetries : Nat) (attempts : List (List PutOutcome)) (lastErr : String) :
    ∃ flushed', Serves db₀ h flushed' (TwoLevelCache.retryLoop maxRetries attempts lastErr c).2 ∧
      flushed' ++ (TwoLevelCache.retryLoop maxRetries attempts lastErr c).2.l1.records =
        flushed ++ c.l1.records := by
  induction attempts generalizing lastErr flushed c with
  | nil => exact ⟨flushed, hc, rfl⟩
  | cons outcomes attempts ih =>
    obtain ⟨flushed', hserves, heq⟩ := hc.flushLoop hall rfl outcomes 0
    rw [TwoLevelCache.retryLoop]
    rw [← tryFlushFrozenTables] at hserves heq
    split
    · rename_i hflush
      rw [hflush] at hserves heq
      exact ⟨flushed', hserves, heq⟩
    · rename_i hflush
      rw [hflush] at hserves heq
      obtain ⟨flushed'', hserves', heq'⟩ := ih hserves _
      exact ⟨flushed'', hserves', heq'.trans heq⟩

/-- A call of an admissible run. -/
theorem apply (hc : Serves db₀ h flushed c) {op : CacheOp} (hop : op.Admissible h) :
    ∃ flushed', Serves db₀ (op.record h) flushed' (op.apply c) ∧
      flushed' ++ (op.apply c).l1.records =
        flushed ++ c.l1.records ++ pageRecords op.pages := by
  have hnone : ∀ l : List (Key × Value), l ++ pageRecords [] = l := List.append_nil
  cases op with
  | write batchId pages =>
    refine ⟨flushed, hc.writeDeltaPages hop pages, ?_⟩
    rw [List.append_assoc]
    exact congrArg _ (L1Cache.writeDeltaPages hc.consistent pages).2
  | complete batchId =>
    exact ⟨flushed, ⟨hc.consistent, hc.l2, hc.db, hc.committed, hc.pending⟩, (hnone _).symm⟩
  | commit batchId outcome =>
    refine ⟨flushed, hc.commitBatch hop.1 outcome, Eq.trans ?_ (hnone _).symm⟩
    rw [CacheOp.apply, l1_commitBatch]
  | flush outcomes =>
    obtain ⟨flushed', hserves, heq⟩ := hc.flushLoop hop rfl outcomes 0
    exact ⟨flushed', hserves, heq.trans (hnone _).symm⟩
  | retry attempts =>
    obtain ⟨flushed', hserves, heq⟩ := hc.retryLoop hop attempts.length attempts ""
    exact ⟨flushed', hserves, heq.trans (hnone _).symm⟩
  | read key visibleUpTo =>
    refine ⟨flushed, hc.read key visibleUpTo, Eq.trans ?_ (hnone _).symm⟩
    rw [CacheOp.apply, l1_read]

/-- An admissible run. -/
theorem run (hc : Serves db₀ h flushed c) {ops : List CacheOp} (hops : AdmissibleRun h ops) :
    ∃ h' flushed', Serves db₀ h' flushed' (ops.foldl CacheOp.apply c) ∧
      flushed' ++ (ops.foldl CacheOp.apply c).l1.records =
        flushed ++ c.l1.records ++ writtenRecords ops := by
  induction ops generalizing h flushed c with
  | nil => exact ⟨h, flushed, hc, (List.append_nil _).symm⟩
  | cons op ops ih =>
    obtain ⟨flushed', hserves, heq⟩ := hc.apply hops.1
    obtain ⟨h', flushed'', hserves', heq'⟩ := ih hserves hops.2
    refine ⟨h', flushed'', hserves', heq'.trans ?_⟩
    rw [heq, List.append_assoc]
    refine congrArg _ ?_
    rw [writtenRecords, writtenRecords, List.flatMap_cons, pageRecords_append]

end Serves

/-- The cache holds the last record of every key after an admissible run. -/
theorem find_after_run (l1CapacityBytes l2CapacityBytes : Nat) (db₀ : Key → Option Value)
    {ops : List CacheOp} (hops : AdmissibleRun {} ops) (key : Key) :
    (ops.foldl CacheOp.apply (new l1CapacityBytes l2CapacityBytes db₀)).find key =
      (lastWrite (writtenRecords ops) key).or (db₀ key) := by
  obtain ⟨h, flushed, hserves, heq⟩ :=
    (Serves.new l1CapacityBytes l2CapacityBytes db₀).run hops
  rw [hserves.find_eq, heq]
  rfl

/-- **Reads return the latest write.** After every admissible run over a new cache, whatever parts
of its entries the store has kept, every key that is read at a visible batch has the value of its
last record or, without one, what the store held at first. -/
theorem read_latest (l1CapacityBytes l2CapacityBytes : Nat) (db₀ : Key → Option Value)
    {ops : List CacheOp} (hops : AdmissibleRun {} ops) (key : Key) {visibleUpTo : Nat}
    (hvisible : visibleUpTo ≤
      (ops.foldl CacheOp.apply (new l1CapacityBytes l2CapacityBytes db₀)).completedBatch) :
    ((ops.foldl CacheOp.apply (new l1CapacityBytes l2CapacityBytes db₀)).read key visibleUpTo).1 =
      (lastWrite (writtenRecords ops) key).or (db₀ key) := by
  rw [read_fst, if_neg (Nat.not_lt.2 hvisible), find_after_run _ _ _ hops]

end TwoLevelCache

namespace RunsFixture

/-- A readonly page with one record. -/
def page (key : Key) (v : Value) : DeltaPage := ⟨1, 1, [(key, v)], true⟩

/-- Two writes of a key, each followed by a commit, with failures of the store. -/
def failingRun : List CacheOp :=
  [.write 1 [page 5 1], .complete 1, .commit 1 (.failed 0 "io"), .flush [.failed 1 "io"],
    .write 2 [page 5 2], .complete 2, .commit 2 .stored, .retry [[.failed 0 "io"], []]]

/-- A run with a failed commit reads the last written record. -/
theorem read_latest_failingRun : AdmissibleRun {} failingRun ∧
    ((failingRun.foldl CacheOp.apply (.new 72 1024 fun _ => none)).read 5 2).1 = some 2 :=
  ⟨by decide, TwoLevelCache.read_latest 72 1024 (fun _ => none) (by decide) 5 (by decide)⟩

end RunsFixture

end Chase.Cache
