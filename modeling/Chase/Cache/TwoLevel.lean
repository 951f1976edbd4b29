import Chase.Evm.Basic
import Chase.Lib.LastWrite

/-!
# The two-level cache

The cache of the EV-BLP pipeline (`executor/cache`): delta pages with the storage writes of a batch,
the index tables of L1, the LRU cache L2, and the durable store behind them. L1 answers a key with
the last record written for it (`L1Cache.read_writeDeltaPages`); committing a batch copies its
records to the store and to L2 and leaves L1 alone.
-/

namespace Chase.Cache

open LastWrite Function

/-- A key of the cache (`[u8; 32]`). -/
abbrev Key := BitVec 256

/-- A value of the cache: the 32 bytes of a storage value, which `encode_value` and `decode_value`
copy. -/
abbrev Value := H256

/-- `encode_key`: the address, and the last 12 bytes of the slot. -/
def encodeKey (slot : Slot) : Key := slot.1 ++ slot.2.setWidth 96

/-! ## Delta pages -/

/-- `DELTA_PAGE_MAX_RECORDS`. -/
def deltaPageMaxRecords : Nat := 128

/-- `DeltaPage`. -/
structure DeltaPage where
  blockStart : Nat
  blockEnd : Nat
  records : List (Key × Value) := []
  isReadonly : Bool := false

namespace DeltaPage

/-- `DeltaPage::byte_size`. -/
def byteSize (page : DeltaPage) : Nat := page.records.length * (64 + 8)

/-- `DeltaPage::push_record`. -/
def pushRecord (page : DeltaPage) (record : Key × Value) : DeltaPage :=
  { page with records := page.records ++ [record] }

/-- `DeltaPage::freeze`. -/
def freeze (page : DeltaPage) : DeltaPage := { page with isReadonly := true }

/-- `DeltaPage::lookup`: the last record with the key. -/
def lookup (page : DeltaPage) (key : Key) : Option Value := lastWrite page.records key

end DeltaPage

/-- A step of the loop of `into_delta_pages`: the pages before, and the current one. -/
def pageStep (pageLimit blockStart blockEnd : Nat) (s : List DeltaPage × DeltaPage)
    (record : Key × Value) : List DeltaPage × DeltaPage :=
  if s.2.records.length ≥ pageLimit then
    (s.1 ++ [s.2.freeze], DeltaPage.pushRecord { blockStart, blockEnd } record)
  else (s.1, s.2.pushRecord record)

/-- `TempBuffer::into_delta_pages`. -/
def intoDeltaPages (records : List (Key × Value)) (blockStart blockEnd maxRecords : Nat) :
    List DeltaPage :=
  let s := records.foldl (pageStep (min maxRecords deltaPageMaxRecords) blockStart blockEnd)
    ([], { blockStart, blockEnd })
  if s.2.records.isEmpty then s.1 else s.1 ++ [s.2.freeze]

/-- The records of a list of pages. -/
def pageRecords (pages : List DeltaPage) : List (Key × Value) := pages.flatMap (·.records)

/-- Paging keeps the records and their order. -/
theorem pageRecords_intoDeltaPages (records : List (Key × Value))
    (blockStart blockEnd maxRecords : Nat) :
    pageRecords (intoDeltaPages records blockStart blockEnd maxRecords) = records := by
  have hfold : ∀ (s : List DeltaPage × DeltaPage),
      let s' := records.foldl (pageStep (min maxRecords deltaPageMaxRecords) blockStart blockEnd) s
      pageRecords s'.1 ++ s'.2.records = pageRecords s.1 ++ s.2.records ++ records := by
    induction records with
    | nil => intro s; simp
    | cons record records ih =>
      intro s
      have hstep := ih (pageStep (min maxRecords deltaPageMaxRecords) blockStart blockEnd s record)
      rw [List.foldl_cons]
      refine hstep.trans ?_
      unfold pageStep
      split <;> simp [pageRecords, DeltaPage.pushRecord, DeltaPage.freeze]
  have h := hfold ([], { blockStart, blockEnd })
  rw [intoDeltaPages]
  split
  · rename_i hempty
    rw [List.isEmpty_iff] at hempty
    simpa [hempty, pageRecords] using h
  · simpa [pageRecords, DeltaPage.freeze] using h

/-! ## Index tables and L1 -/

/-- `MemIndexTable`: the pages, and for each key the page that has it last. -/
structure MemIndexTable where
  index : Key → Option Nat := fun _ => none
  pages : List DeltaPage := []
  totalBytes : Nat := 0
  frozen : Bool := false
  index_lt : ∀ key i, index key = some i → i < pages.length := by nofun

namespace MemIndexTable

/-- The index after the records of page `i` are entered. -/
def enter (i : Nat) (index : Key → Option Nat) (records : List (Key × Value)) : Key → Option Nat :=
  records.foldl (fun index record => update index record.1 (some i)) index

/-- A page is entered in the index for its keys. -/
theorem enter_eq (i : Nat) (index : Key → Option Nat) (records : List (Key × Value)) (key : Key) :
    enter i index records key = if key ∈ records.map (·.1) then some i else index key := by
  induction records generalizing index with
  | nil => rfl
  | cons record records ih =>
    rw [enter, List.foldl_cons, ← enter, ih]
    by_cases hkey : key = record.1
    · subst hkey
      simp
    · simp [hkey]

/-- `MemIndexTable::insert_page`. -/
def insertPage (t : MemIndexTable) (page : DeltaPage) : MemIndexTable where
  index := enter t.pages.length t.index page.records
  pages := t.pages ++ [page]
  totalBytes := t.totalBytes + page.byteSize
  frozen := t.frozen
  index_lt key i h := by
    rw [enter_eq] at h
    rw [List.length_append, List.length_singleton]
    split at h
    · cases h
      exact Nat.lt_succ_self _
    · exact Nat.lt_succ_of_lt (t.index_lt key i h)

/-- `MemIndexTable::lookup`. -/
def lookup (t : MemIndexTable) (key : Key) : Option Value := do
  let i ← t.index key
  let page ← t.pages[i]?
  page.lookup key

/-- An inserted page answers first. -/
theorem lookup_insertPage (t : MemIndexTable) (page : DeltaPage) (key : Key) :
    (t.insertPage page).lookup key = (page.lookup key).or (t.lookup key) := by
  rw [lookup, insertPage]
  simp only [enter_eq]
  by_cases hkey : key ∈ page.records.map (·.1)
  · have hsome : page.lookup key ≠ none := fun hnone => lastWrite_eq_none_iff.1 hnone hkey
    obtain ⟨v, hv⟩ := Option.ne_none_iff_exists'.1 hsome
    simp [hkey, hv]
  · have hnone : page.lookup key = none := lastWrite_eq_none_iff.2 hkey
    rw [if_neg hkey, hnone, Option.none_or, lookup]
    cases hidx : t.index key with
    | none => rfl
    | some i => simp [List.getElem?_append_left (t.index_lt key i hidx)]

end MemIndexTable

/-- `L1Cache`. The frozen tables stand from the oldest to the newest; `table_order` of the source
lists the same tables in the same order. -/
structure L1Cache where
  active : MemIndexTable := {}
  frozenTables : List MemIndexTable := []
  capacityThreshold : Nat

namespace L1Cache

/-- `L1Cache::freeze_active`. -/
def freezeActive (c : L1Cache) : L1Cache :=
  { c with
    active := {}
    frozenTables := c.frozenTables ++ [{ c.active with frozen := true }] }

/-- `L1Cache::write_delta_page`. -/
def writeDeltaPage (c : L1Cache) (page : DeltaPage) : L1Cache :=
  let c' := { c with active := c.active.insertPage page }
  if c'.active.totalBytes ≥ c'.capacityThreshold then c'.freezeActive else c'

/-- `L1Cache::read`: the active table, then the frozen ones from the newest to the oldest. -/
def read (c : L1Cache) (key : Key) : Option Value :=
  (c.active.lookup key).or (c.frozenTables.reverse.findSome? (·.lookup key))

/-- Freezing the active table changes no answer. -/
theorem read_freezeActive (c : L1Cache) (key : Key) : c.freezeActive.read key = c.read key := by
  have hempty : (MemIndexTable.lookup {} key) = none := rfl
  rw [read, freezeActive, hempty, Option.none_or, List.reverse_append, List.reverse_singleton,
    List.singleton_append, List.findSome?_cons, read]
  cases hlookup : c.active.lookup key with
  | none =>
    have hfrozen : MemIndexTable.lookup { c.active with frozen := true } key = none := hlookup
    rw [hfrozen, Option.none_or]
  | some v =>
    have hfrozen : MemIndexTable.lookup { c.active with frozen := true } key = some v := hlookup
    rw [hfrozen, Option.some_or]

/-- A written page answers first. -/
theorem read_writeDeltaPage (c : L1Cache) (page : DeltaPage) (key : Key) :
    (c.writeDeltaPage page).read key = (page.lookup key).or (c.read key) := by
  have hinsert : ({ c with active := c.active.insertPage page } : L1Cache).read key =
      (page.lookup key).or (c.read key) := by
    rw [read, MemIndexTable.lookup_insertPage, Option.or_assoc, read]
  rw [writeDeltaPage]
  split
  · rw [read_freezeActive, hinsert]
  · exact hinsert

/-- Writing pages makes their last records the answers. -/
theorem read_writeDeltaPages (pages : List DeltaPage) (c : L1Cache) (key : Key) :
    (pages.foldl writeDeltaPage c).read key =
      (lastWrite (pageRecords pages) key).or (c.read key) := by
  induction pages generalizing c with
  | nil => rfl
  | cons page pages ih =>
    have hrecords : pageRecords (page :: pages) = page.records ++ pageRecords pages := rfl
    rw [List.foldl_cons, ih, read_writeDeltaPage, hrecords, lastWrite_append, Option.or_assoc]
    rfl

end L1Cache

/-! ## L2 -/

/-- `L2Cache`: the entries of the LRU cache from the most to the least recently used one. -/
structure L2Cache where
  entries : List (Key × Value) := []
  capacityBytes : Nat
  currentBytes : Nat := 0

namespace L2Cache

/-- The number of entries that `LruCache` is created with. -/
def cap : Nat := 1024

/-- The value of an entry. -/
def find (c : L2Cache) (key : Key) : Option Value := (c.entries.find? (·.1 = key)).map (·.2)

/-- An entry becomes the most recently used one. -/
def promote (c : L2Cache) (entry : Key × Value) : L2Cache :=
  { c with entries := entry :: c.entries.filter (·.1 ≠ entry.1) }

/-- `L2Cache::get`. -/
def get (c : L2Cache) (key : Key) : Option Value × L2Cache :=
  match c.find key with
  | some v => (some v, c.promote (key, v))
  | none => (none, c)

/-- `LruCache::put`: a new entry takes the place of the least recently used one of a full cache. -/
def put (c : L2Cache) (entry : Key × Value) : L2Cache :=
  match c.find entry.1 with
  | some _ => c.promote entry
  | none =>
    { c with
      entries := entry :: if c.entries.length ≥ cap then c.entries.dropLast else c.entries
      currentBytes := c.currentBytes + 64 }

/-- The loop of `insert` that pops the least recently used entries. -/
def shrink (capacityBytes : Nat) : Nat → L2Cache → L2Cache
  | 0, c => c
  | fuel + 1, c =>
    if c.currentBytes > capacityBytes ∧ c.entries.length > 1 then
      shrink capacityBytes fuel
        { c with entries := c.entries.dropLast, currentBytes := c.currentBytes - 64 }
    else c

/-- `L2Cache::insert`. -/
def insert (c : L2Cache) (entry : Key × Value) : L2Cache :=
  shrink c.capacityBytes (c.put entry).entries.length (c.put entry)

/-- A key is not found when no entry has it. -/
theorem find_eq_none_iff {c : L2Cache} {key : Key} :
    c.find key = none ↔ key ∉ c.entries.map (·.1) := by
  rw [find, Option.map_eq_none_iff, List.find?_eq_none]
  constructor
  · intro h hk
    obtain ⟨e, he, rfl⟩ := List.mem_map.1 hk
    exact h e he (decide_eq_true rfl)
  · intro h e he hek
    exact h (List.mem_map.2 ⟨e, he, of_decide_eq_true hek⟩)

/-- Reading an entry keeps the keys. -/
theorem find_get_eq_none {c : L2Cache} {key : Key} (read : Key) (h : c.find key = none) :
    (c.get read).2.find key = none := by
  rw [get]
  split
  · rename_i v hv
    rw [find_eq_none_iff] at h ⊢
    intro hmem
    rw [promote, List.map_cons, List.mem_cons] at hmem
    rcases hmem with rfl | hmem
    · exact h (not_not.1 fun hnot => by simp [find_eq_none_iff.2 hnot] at hv)
    · exact h (List.map_subset _ (List.filter_subset_self _) hmem)
  · exact h

/-- A `put` adds its entry only. -/
theorem entries_put_subset (c : L2Cache) (entry : Key × Value) :
    (c.put entry).entries ⊆ entry :: c.entries := by
  rw [put]
  split
  · exact List.cons_subset_cons _ (List.filter_subset_self _)
  · refine List.cons_subset_cons _ ?_
    split
    · exact List.dropLast_subset _
    · exact List.Subset.refl _

/-- Shrinking adds no entry. -/
theorem entries_shrink_subset (capacityBytes fuel : Nat) (c : L2Cache) :
    (shrink capacityBytes fuel c).entries ⊆ c.entries := by
  induction fuel generalizing c with
  | zero => exact List.Subset.refl _
  | succ fuel ih =>
    rw [shrink]
    split
    · exact List.Subset.trans (ih _) (List.dropLast_subset _)
    · exact List.Subset.refl _

/-- Inserting an entry adds no other key. -/
theorem find_insert_eq_none {c : L2Cache} {key : Key} {entry : Key × Value} (hne : entry.1 ≠ key)
    (h : c.find key = none) : (c.insert entry).find key = none := by
  rw [find_eq_none_iff] at h ⊢
  intro hmem
  obtain ⟨e, he, rfl⟩ := List.mem_map.1 hmem
  rcases List.mem_cons.1 (entries_put_subset c entry (entries_shrink_subset _ _ _ he)) with rfl | he
  · exact hne rfl
  · exact h (List.mem_map_of_mem he)

end L2Cache

/-! ## The cache -/

/-- `TwoLevelCache` with the contents of its `StateStore`. -/
structure TwoLevelCache where
  l1 : L1Cache
  l2 : L2Cache
  db : Key → Option Value
  completedBatch : Nat := 0
  pendingBatchPages : Nat → Option (List DeltaPage) := fun _ => none

/-- A store write of `commit_batch` or of a flush: to the durable store, or to L2. -/
inductive StoreOp where
  | put (entry : Key × Value)
  | insert (entry : Key × Value)

/-- The entry that is written. -/
def StoreOp.entry : StoreOp → Key × Value
  | .put entry => entry
  | .insert entry => entry

namespace TwoLevelCache

/-- `TwoLevelCache::new`, with the capacities of the configuration. -/
def new (l1CapacityBytes l2CapacityBytes : Nat) (db : Key → Option Value) : TwoLevelCache where
  l1 := { capacityThreshold := l1CapacityBytes }
  l2 := { capacityBytes := l2CapacityBytes }
  db

/-- `TwoLevelCache::write_delta_pages`. -/
def writeDeltaPages (c : TwoLevelCache) (batchId : Nat) (pages : List DeltaPage) : TwoLevelCache :=
  { c with
    l1 := pages.foldl L1Cache.writeDeltaPage c.l1
    pendingBatchPages := update c.pendingBatchPages batchId (some pages) }

/-- `TwoLevelCache::mark_batch_complete`. -/
def markBatchComplete (c : TwoLevelCache) (batchId : Nat) : TwoLevelCache :=
  { c with completedBatch := max c.completedBatch batchId }

/-- `TwoLevelCache::read`; a hit in L2 moves the entry to its front. -/
def read (c : TwoLevelCache) (key : Key) (visibleUpTo : Nat) : Option Value × TwoLevelCache :=
  if visibleUpTo > c.completedBatch then (none, c)
  else
    match c.l1.read key with
    | some v => (some v, c)
    | none =>
      match c.l2.get key with
      | (some v, l2) => (some v, { c with l2 })
      | (none, _) => (c.db key, c)

/-- One store write. -/
def storeOp (c : TwoLevelCache) : StoreOp → TwoLevelCache
  | .put entry => { c with db := update c.db entry.1 (some entry.2) }
  | .insert entry => { c with l2 := c.l2.insert entry }

/-- The store writes for a list of pages: `put_batch`, then `insert_batch`. -/
def storeOps (pages : List DeltaPage) : List StoreOp :=
  (pageRecords pages).map .put ++ (pageRecords pages).map .insert

/-- The first part of `commit_batch`: the pages of the batch are taken, and written entry by entry
afterwards. -/
def takePages (c : TwoLevelCache) (batchId : Nat) : TwoLevelCache × List StoreOp :=
  ({ c with pendingBatchPages := update c.pendingBatchPages batchId none },
    storeOps ((c.pendingBatchPages batchId).getD []))

/-- `flush_frozen_tables`, with a store whose writes succeed: the pages of the frozen tables are
written, and the tables removed. -/
def flushFrozenTables (c : TwoLevelCache) : TwoLevelCache :=
  c.l1.frozenTables.foldl
    (fun c table =>
      let c := (storeOps table.pages).foldl storeOp c
      { c with l1 := { c.l1 with frozenTables := c.l1.frozenTables.tail } }) c

/-- What the cache holds under a key, whatever is visible. -/
def find (c : TwoLevelCache) (key : Key) : Option Value :=
  (c.l1.read key).or ((c.l2.find key).or (c.db key))

/-- A read answers within the visible batches. -/
theorem read_fst (c : TwoLevelCache) (key : Key) (visibleUpTo : Nat) :
    (c.read key visibleUpTo).1 = if visibleUpTo > c.completedBatch then none else c.find key := by
  rw [read]
  split
  · rfl
  · rw [find]
    cases hl1 : c.l1.read key with
    | some v => rfl
    | none => cases hl2 : c.l2.find key <;> simp [L2Cache.get, hl2]

/-- The store operations of pages are about their keys. -/
theorem mem_storeOps {pages : List DeltaPage} {op : StoreOp} (h : op ∈ storeOps pages) :
    op.entry.1 ∈ (pageRecords pages).map (·.1) := by
  rcases List.mem_append.1 h with h | h <;>
  · obtain ⟨entry, hentry, rfl⟩ := List.mem_map.1 h
    exact List.mem_map_of_mem hentry

/-- The cache holds the last of the `records`, and below them what the store `db₀` held at first.
The pages and store writes that wait to be committed are about recorded keys. -/
structure Holds (db₀ : Key → Option Value) (records : List (Key × Value)) (c : TwoLevelCache)
    (waiting : List StoreOp) : Prop where
  l1 : ∀ key, c.l1.read key = lastWrite records key
  below : ∀ key ∉ records.map (·.1), c.l2.find key = none ∧ c.db key = db₀ key
  pending : ∀ batchId pages, c.pendingBatchPages batchId = some pages →
    ∀ key ∈ (pageRecords pages).map (·.1), key ∈ records.map (·.1)
  waiting : ∀ op ∈ waiting, op.entry.1 ∈ records.map (·.1)

namespace Holds

variable {db₀ : Key → Option Value} {records : List (Key × Value)} {c : TwoLevelCache}
  {waiting : List StoreOp}

/-- A new cache holds nothing above the store. -/
theorem new (l1CapacityBytes l2CapacityBytes : Nat) (db₀ : Key → Option Value) :
    Holds db₀ [] (TwoLevelCache.new l1CapacityBytes l2CapacityBytes db₀) [] :=
  ⟨fun _ => rfl, fun _ _ => ⟨rfl, rfl⟩, fun _ _ h => (nomatch h), fun _ h => (nomatch h)⟩

/-- A lookup is answered with the last record, or from the store. -/
theorem find_eq (h : Holds db₀ records c waiting) (key : Key) :
    c.find key = (lastWrite records key).or (db₀ key) := by
  rw [find, h.l1]
  cases hlast : lastWrite records key with
  | some v => rfl
  | none =>
    obtain ⟨hl2, hdb⟩ := h.below key (lastWrite_eq_none_iff.1 hlast)
    rw [hl2, hdb]
    rfl

/-- Reading moves an entry of L2 at most. -/
theorem read (h : Holds db₀ records c waiting) (key : Key) (visibleUpTo : Nat) :
    Holds db₀ records (c.read key visibleUpTo).2 waiting := by
  rw [TwoLevelCache.read]
  split
  · exact h
  · cases c.l1.read key with
    | some v => exact h
    | none =>
      cases hget : c.l2.get key with
      | mk found l2 =>
        cases found with
        | none => exact h
        | some v =>
          refine ⟨h.l1, fun key' hkey' => ⟨?_, (h.below key' hkey').2⟩, h.pending, h.waiting⟩
          have := L2Cache.find_get_eq_none key (h.below key' hkey').1
          rwa [hget] at this

/-- A store write that waits is made. -/
theorem storeOp {op : StoreOp} (h : Holds db₀ records c (op :: waiting)) :
    Holds db₀ records (c.storeOp op) waiting := by
  have hop := h.waiting op List.mem_cons_self
  have hrest := fun op' hop' => h.waiting op' (List.mem_cons_of_mem _ hop')
  have hne : ∀ key ∉ records.map (·.1), op.entry.1 ≠ key := fun key hkey he => hkey (he ▸ hop)
  cases op with
  | put entry =>
    refine ⟨h.l1, fun key hkey => ⟨(h.below key hkey).1, ?_⟩, h.pending, hrest⟩
    exact (update_of_ne (hne key hkey).symm _ _).trans (h.below key hkey).2
  | insert entry =>
    refine ⟨h.l1, fun key hkey => ⟨?_, (h.below key hkey).2⟩, h.pending, hrest⟩
    exact L2Cache.find_insert_eq_none (hne key hkey) (h.below key hkey).1

/-- The pages of a batch are taken to be committed. -/
theorem takePages (h : Holds db₀ records c []) (batchId : Nat) :
    Holds db₀ records (c.takePages batchId).1 (c.takePages batchId).2 := by
  refine ⟨h.l1, h.below, fun id pages hpages => ?_, fun op hop => ?_⟩
  · by_cases hid : id = batchId
    · subst hid
      rw [TwoLevelCache.takePages] at hpages
      simp at hpages
    · rw [TwoLevelCache.takePages] at hpages
      exact h.pending id pages ((update_of_ne hid _ _).symm.trans hpages)
  · have hmem := mem_storeOps hop
    cases hpages : c.pendingBatchPages batchId with
    | none =>
      rw [hpages] at hmem
      cases hmem
    | some pages =>
      rw [hpages] at hmem
      exact h.pending batchId pages hpages _ hmem

/-- A batch completes: its pages are written to L1. -/
theorem complete (h : Holds db₀ records c waiting) (batchId : Nat) (pages : List DeltaPage) :
    Holds db₀ (records ++ pageRecords pages)
      ((c.writeDeltaPages batchId pages).markBatchComplete batchId) waiting := by
  have hold : ∀ key ∈ records.map (·.1), key ∈ (records ++ pageRecords pages).map (·.1) := by
    intro key hkey
    rw [List.map_append]
    exact List.mem_append_left _ hkey
  refine ⟨fun key => ?_, fun key hkey => h.below key fun hmem => hkey (hold key hmem), ?_,
    fun op hop => hold _ (h.waiting op hop)⟩
  · rw [lastWrite_append, ← h.l1]
    exact L1Cache.read_writeDeltaPages pages c.l1 key
  · intro id pages' hpages key hkey
    by_cases hid : id = batchId
    · subst hid
      rw [markBatchComplete, writeDeltaPages] at hpages
      simp only [update_self, Option.some.injEq] at hpages
      subst hpages
      rw [List.map_append]
      exact List.mem_append_right _ hkey
    · refine hold key (h.pending id pages' ?_ key hkey)
      exact (update_of_ne hid _ _).symm.trans hpages

end Holds

end TwoLevelCache

end Chase.Cache
