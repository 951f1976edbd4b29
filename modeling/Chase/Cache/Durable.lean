import Chase.Cache.Runs
import Mathlib.Data.List.Sort

/-!
# What the store holds at the end

The batches of a run are written and committed, every store write succeeds, and the frozen tables
are flushed at the end. The commits leave the last record of every key in the store (`Stores`). The
flush then writes the records of the frozen tables once more, and not those of the active table: the
store keeps the last records exactly when no key has another value in the active table than the one
that the frozen tables leave (`flush_durable_iff`).

A commit takes the pages of its batch before it writes them. When the store fails, L1 and L2 are as
before, but the pages are gone: a second commit of the batch finds nothing, and reports success
(`failed_commit`).
-/

namespace Chase.Cache

open LastWrite Function

/-! ## Which tables are frozen -/

/-- A page enters the active table, whose pages are the second component; a table that has reached
its capacity joins the frozen ones. -/
def freezeStep (capacity : Nat) (s : List DeltaPage × List DeltaPage) (page : DeltaPage) :
    List DeltaPage × List DeltaPage :=
  if ((s.2 ++ [page]).map DeltaPage.byteSize).sum ≥ capacity then (s.1 ++ s.2 ++ [page], [])
  else (s.1, s.2 ++ [page])

/-- The pages that are in frozen tables, and those in the active one, after pages are written to an
empty L1. -/
def splitFrozen (capacity : Nat) (pages : List DeltaPage) : List DeltaPage × List DeltaPage :=
  pages.foldl (freezeStep capacity) ([], [])

namespace L1Cache

/-- The pages of the frozen tables, and of the active one. -/
def split (c : L1Cache) : List DeltaPage × List DeltaPage :=
  (c.frozenTables.flatMap (·.pages), c.active.pages)

/-- The active table knows its size. -/
def Sized (c : L1Cache) : Prop :=
  c.active.totalBytes = (c.active.pages.map DeltaPage.byteSize).sum

/-- A page that is written goes where `freezeStep` puts it. -/
theorem Sized.writeDeltaPage {c : L1Cache} (h : c.Sized) (page : DeltaPage) :
    (c.writeDeltaPage page).Sized ∧
      (c.writeDeltaPage page).capacityThreshold = c.capacityThreshold ∧
      (c.writeDeltaPage page).split = freezeStep c.capacityThreshold c.split page := by
  have hsum : (c.active.insertPage page).totalBytes =
      ((c.active.pages ++ [page]).map DeltaPage.byteSize).sum := by
    rw [List.map_append, List.sum_append, List.map_singleton, List.sum_singleton, ← h]
    rfl
  unfold L1Cache.writeDeltaPage freezeStep
  dsimp only
  rw [hsum]
  have hpages : c.split.2 = c.active.pages := rfl
  rw [hpages]
  split
  · refine ⟨rfl, rfl, ?_⟩
    simp [split, freezeActive, MemIndexTable.insertPage]
  · exact ⟨hsum, rfl, rfl⟩

/-- Pages that are written go where `freezeStep` puts them. -/
theorem Sized.writeDeltaPages {c : L1Cache} (h : c.Sized) (pages : List DeltaPage) :
    (pages.foldl L1Cache.writeDeltaPage c).Sized ∧
      (pages.foldl L1Cache.writeDeltaPage c).capacityThreshold = c.capacityThreshold ∧
      (pages.foldl L1Cache.writeDeltaPage c).split =
        pages.foldl (freezeStep c.capacityThreshold) c.split := by
  induction pages generalizing c with
  | nil => exact ⟨h, rfl, rfl⟩
  | cons page pages ih =>
    obtain ⟨hsized, hcapacity, hsplit⟩ := h.writeDeltaPage page
    obtain ⟨hsized', hcapacity', hsplit'⟩ := ih hsized
    refine ⟨hsized', hcapacity'.trans hcapacity, hsplit'.trans ?_⟩
    rw [List.foldl_cons, hcapacity, hsplit]

end L1Cache

/-- The frozen pages and the others are all pages. -/
theorem splitFrozen_append (capacity : Nat) (pages : List DeltaPage) :
    (splitFrozen capacity pages).1 ++ (splitFrozen capacity pages).2 = pages := by
  induction pages using List.reverseRecOn with
  | nil => rfl
  | append_singleton pages page ih =>
    have hstep : splitFrozen capacity (pages ++ [page]) =
        freezeStep capacity (splitFrozen capacity pages) page := by
      rw [splitFrozen, List.foldl_append]
      rfl
    rw [hstep, freezeStep]
    split
    · rw [List.append_nil, ih]
    · rw [← List.append_assoc, ih]

/-! ## A run whose store writes succeed -/

namespace CacheOp

/-- A call of a run without failures and flushes. -/
def Succeeds : CacheOp → Prop
  | write _ _ | complete _ | read _ _ => True
  | commit _ outcome => outcome = .stored
  | flush _ | retry _ => False

instance : DecidablePred Succeeds
  | write _ _ | complete _ | read _ _ => inferInstanceAs (Decidable True)
  | commit _ _ => inferInstanceAs (Decidable (_ = _))
  | flush _ | retry _ => inferInstanceAs (Decidable False)

/-- The batch that the call writes. -/
def batch? : CacheOp → Option (Nat × List DeltaPage)
  | write batchId pages => some (batchId, pages)
  | _ => none

theorem pages_eq (op : CacheOp) : op.pages = (op.batch?.toList).flatMap (·.2) := by
  cases op with
  | write batchId pages => exact (List.append_nil _).symm
  | _ => rfl

end CacheOp

/-- The pages of a batch. -/
def pagesOf (batches : List (Nat × List DeltaPage)) (batchId : Nat) : List DeltaPage :=
  (lastWrite batches batchId).getD []

/-- The store holds the records of the committed batches, in order, and the pages of the other ones
wait. -/
structure Stores (db₀ : Key → Option Value) (batches : List (Nat × List DeltaPage))
    (committed : List Nat) (c : TwoLevelCache) : Prop where
  increasing : (batches.map (·.1)).Pairwise (· < ·)
  committedIncreasing : committed.Pairwise (· < ·)
  written : committed ⊆ batches.map (·.1)
  pending : ∀ batchId ∉ committed, c.pendingBatchPages batchId = lastWrite batches batchId
  db : ∀ key, c.db key =
    (lastWrite (pageRecords (committed.flatMap (pagesOf batches))) key).or (db₀ key)

/-- A commit that succeeds stores the pages of its batch. -/
theorem TwoLevelCache.db_commitBatch (c : TwoLevelCache) (batchId : Nat) :
    (c.commitBatch batchId .stored).2.db =
      putBatch c.db (pageRecords ((c.pendingBatchPages batchId).getD [])) := by
  unfold commitBatch
  dsimp only
  split
  · rename_i hempty
    rw [List.isEmpty_iff.1 hempty]
    rfl
  · rfl

/-- A commit takes the pages of its batch from the waiting ones, also when it fails. -/
theorem TwoLevelCache.pending_commitBatch (c : TwoLevelCache) (batchId : Nat)
    (outcome : PutOutcome) :
    (c.commitBatch batchId outcome).2.pendingBatchPages =
      update c.pendingBatchPages batchId none := by
  unfold commitBatch
  dsimp only
  split
  · rfl
  · cases outcome <;> rfl

/-- A read touches neither the store nor the waiting pages. -/
theorem TwoLevelCache.read_below (c : TwoLevelCache) (key : Key) (visibleUpTo : Nat) :
    (c.read key visibleUpTo).2.db = c.db ∧
      (c.read key visibleUpTo).2.pendingBatchPages = c.pendingBatchPages := by
  rw [read]
  split
  · exact ⟨rfl, rfl⟩
  · split
    · exact ⟨rfl, rfl⟩
    · split <;> exact ⟨rfl, rfl⟩

namespace Stores

variable {db₀ : Key → Option Value} {batches : List (Nat × List DeltaPage)} {committed : List Nat}
  {c : TwoLevelCache}

/-- A batch with a new id changes no other pages. -/
theorem pagesOf_append {batchId id : Nat} (pages : List DeltaPage)
    (hid : ∀ id ∈ batches.map (·.1), id < batchId) (hmem : id ∈ batches.map (·.1)) :
    pagesOf (batches ++ [(batchId, pages)]) id = pagesOf batches id := by
  have hne : batchId ≠ id := Nat.ne_of_gt (hid id hmem)
  rw [pagesOf, lastWrite_append_single, if_neg hne, pagesOf]

/-- The pages of a new batch wait. -/
theorem write (h : Stores db₀ batches committed c) {batchId : Nat}
    (hid : ∀ id ∈ batches.map (·.1), id < batchId) (pages : List DeltaPage) :
    Stores db₀ (batches ++ [(batchId, pages)]) committed (c.writeDeltaPages batchId pages) := by
  refine ⟨?_, h.committedIncreasing, ?_, fun id hnot => ?_, fun key => ?_⟩
  · rw [List.map_append]
    refine List.pairwise_append.2 ⟨h.increasing, List.pairwise_singleton _ _, ?_⟩
    intro id hmem id' hmem'
    cases List.mem_singleton.1 hmem'
    exact hid id hmem
  · rw [List.map_append]
    exact fun id hmem => List.mem_append_left _ (h.written hmem)
  · rw [lastWrite_append_single]
    by_cases heq : id = batchId
    · subst heq
      rw [if_pos rfl]
      exact update_self id _ _
    · rw [if_neg (Ne.symm heq), ← h.pending id hnot]
      exact update_of_ne heq _ _
  · have hpages : committed.flatMap (pagesOf (batches ++ [(batchId, pages)])) =
        committed.flatMap (pagesOf batches) :=
      List.flatMap_congr fun id hmem => pagesOf_append pages hid (h.written hmem)
    rw [hpages]
    exact h.db key

/-- A commit in the order of the ids stores its batch over the ones before. -/
theorem commit (h : Stores db₀ batches committed c) {batchId : Nat}
    (hwritten : batchId ∈ batches.map (·.1)) (hid : ∀ id ∈ committed, id < batchId) :
    Stores db₀ batches (committed ++ [batchId]) (c.commitBatch batchId .stored).2 := by
  refine ⟨h.increasing, ?_, ?_, fun id hnot => ?_, fun key => ?_⟩
  · refine List.pairwise_append.2 ⟨h.committedIncreasing, List.pairwise_singleton _ _, ?_⟩
    intro id hmem id' hmem'
    cases List.mem_singleton.1 hmem'
    exact hid id hmem
  · intro id hmem
    rcases List.mem_append.1 hmem with hmem | hmem
    · exact h.written hmem
    · cases List.mem_singleton.1 hmem
      exact hwritten
  · have hne : id ≠ batchId := fun heq => hnot (List.mem_append_right _ (List.mem_singleton.2 heq))
    rw [TwoLevelCache.pending_commitBatch, update_of_ne hne,
      h.pending id fun hmem => hnot (List.mem_append_left _ hmem)]
  · have hpending := h.pending batchId fun hmem => Nat.lt_irrefl _ (hid batchId hmem)
    rw [TwoLevelCache.db_commitBatch, hpending, putBatch_apply, h.db, List.flatMap_append,
      pageRecords_append, lastWrite_append, Option.or_assoc, List.flatMap_singleton, pagesOf]

/-- A call that succeeds keeps what the store holds. -/
theorem apply {h : History} (hc : Stores db₀ batches h.committed c)
    (hbatches : h.written = batches.map (·.1)) {op : CacheOp} (hop : op.Admissible h)
    (hsucceeds : op.Succeeds) :
    Stores db₀ (batches ++ op.batch?.toList) (op.record h).committed (op.apply c) ∧
      (op.record h).written = (batches ++ op.batch?.toList).map (·.1) := by
  have hnone : ∀ l : List (Nat × List DeltaPage), l ++ [] = l := List.append_nil
  cases op with
  | write batchId pages =>
    refine ⟨hc.write (hbatches ▸ hop) pages, ?_⟩
    rw [List.map_append, ← hbatches]
    rfl
  | complete batchId =>
    refine ⟨?_, ?_⟩
    · exact (hnone batches).symm ▸
        ⟨hc.increasing, hc.committedIncreasing, hc.written, hc.pending, hc.db⟩
    · exact (hnone batches).symm ▸ hbatches
  | commit batchId outcome =>
    cases hsucceeds
    refine ⟨?_, ?_⟩
    · exact (hnone batches).symm ▸ hc.commit (hbatches ▸ hop.1) hop.2
    · exact (hnone batches).symm ▸ hbatches
  | flush outcomes => cases hsucceeds
  | retry attempts => cases hsucceeds
  | read key visibleUpTo =>
    obtain ⟨hdb, hpending⟩ := c.read_below key visibleUpTo
    refine ⟨?_, ?_⟩
    · refine (hnone batches).symm ▸ ⟨hc.increasing, hc.committedIncreasing, hc.written, ?_, ?_⟩
      · rw [CacheOp.apply, hpending]
        exact hc.pending
      · rw [CacheOp.apply, hdb]
        exact hc.db
    · exact (hnone batches).symm ▸ hbatches

/-- When every batch is committed, the store holds the last record of every key. -/
theorem db_eq (h : Stores db₀ batches committed c) (hall : batches.map (·.1) ⊆ committed)
    (key : Key) :
    c.db key = (lastWrite (pageRecords (batches.flatMap (·.2))) key).or (db₀ key) := by
  have hids : committed = batches.map (·.1) := by
    have hperm := (List.perm_ext_iff_of_nodup (h.committedIncreasing.imp Nat.ne_of_lt)
      (h.increasing.imp Nat.ne_of_lt)).2 fun id => ⟨fun hmem => h.written hmem,
        fun hmem => hall hmem⟩
    exact hperm.eq_of_pairwise (fun a b _ _ hab hba => absurd hab (Nat.lt_asymm hba))
      h.committedIncreasing h.increasing
  have hpages : (batches.map (·.1)).flatMap (pagesOf batches) = batches.flatMap (·.2) := by
    rw [List.flatMap_map]
    refine List.flatMap_congr fun batch hmem => ?_
    rw [pagesOf, lastWrite_of_unique (List.mem_map_of_mem hmem) (v := batch.2)]
    · rfl
    · intro e he heq
      exact congrArg Prod.snd (List.inj_on_of_nodup_map (h.increasing.imp Nat.ne_of_lt) he hmem heq)
  rw [h.db, hids, hpages]

/-- A run without failures keeps the store and L1 as described. -/
theorem run {h : History} (hc : Stores db₀ batches h.committed c)
    (hbatches : h.written = batches.map (·.1)) (hsized : c.l1.Sized) {ops : List CacheOp}
    (hops : AdmissibleRun h ops) (hsucceeds : ∀ op ∈ ops, op.Succeeds) :
    ∃ batches', Stores db₀ batches' (ops.foldl CacheOp.record h).committed
        (ops.foldl CacheOp.apply c) ∧
      (ops.foldl CacheOp.record h).written = batches'.map (·.1) ∧
      batches'.flatMap (·.2) = batches.flatMap (·.2) ++ ops.flatMap CacheOp.pages ∧
      (ops.foldl CacheOp.apply c).l1.split =
        (ops.flatMap CacheOp.pages).foldl (freezeStep c.l1.capacityThreshold) c.l1.split := by
  induction ops generalizing h batches c with
  | nil => exact ⟨batches, hc, hbatches, (List.append_nil _).symm, rfl⟩
  | cons op ops ih =>
    have hop := hsucceeds op List.mem_cons_self
    obtain ⟨hstores, hwritten⟩ := hc.apply hbatches hops.1 hop
    obtain ⟨hl1, hcapacity, hsplit⟩ : (op.apply c).l1.Sized ∧
        (op.apply c).l1.capacityThreshold = c.l1.capacityThreshold ∧
        (op.apply c).l1.split = op.pages.foldl (freezeStep c.l1.capacityThreshold) c.l1.split := by
      cases op with
      | write batchId pages => exact hsized.writeDeltaPages pages
      | complete batchId => exact ⟨hsized, rfl, rfl⟩
      | commit batchId outcome =>
        rw [CacheOp.apply, TwoLevelCache.l1_commitBatch]
        exact ⟨hsized, rfl, rfl⟩
      | flush outcomes => cases hop
      | retry attempts => cases hop
      | read key visibleUpTo =>
        rw [CacheOp.apply, TwoLevelCache.l1_read]
        exact ⟨hsized, rfl, rfl⟩
    obtain ⟨batches', hstores', hwritten', hpages, hsplit'⟩ := ih hstores hwritten hl1 hops.2
      fun op' hmem => hsucceeds op' (List.mem_cons_of_mem _ hmem)
    refine ⟨batches', hstores', hwritten', hpages.trans ?_, hsplit'.trans ?_⟩
    · rw [List.flatMap_append, List.flatMap_cons, List.append_assoc, CacheOp.pages_eq]
    · rw [List.flatMap_cons, List.foldl_append, hcapacity, hsplit]

end Stores

/-! ## The flush -/

/-- A flush writes the records of the frozen tables. -/
theorem TwoLevelCache.db_flushFrozenTables (c : TwoLevelCache) (key : Key) :
    c.flushFrozenTables.db key = (lastWrite (pageRecords c.l1.split.1) key).or (c.db key) := by
  have hfold : ∀ (tables : List MemIndexTable) (c : TwoLevelCache),
      (tables.foldl (fun c table => ((storeOps table.pages).foldl storeOp c).removeOldest) c).db
        key = (lastWrite (pageRecords (tables.flatMap (·.pages))) key).or (c.db key) := by
    intro tables
    induction tables with
    | nil => exact fun c => rfl
    | cons table tables ih =>
      intro c
      have hdb : ((storeOps table.pages).foldl storeOp c).removeOldest.db key =
          (lastWrite (pageRecords table.pages) key).or (c.db key) := by
        rw [foldl_storeOps]
        exact putBatch_apply _ _ _
      rw [List.foldl_cons, ih, hdb, List.flatMap_cons, pageRecords_append, lastWrite_append,
        Option.or_assoc]
  exact hfold c.l1.frozenTables c

/-- **The durable value is the last written one** after a run without failures and a final flush,
exactly when every key that is both in a frozen table and in the active one has the same last value
in both. -/
theorem flush_durable_iff (l1CapacityBytes l2CapacityBytes : Nat) (db₀ : Key → Option Value)
    {ops : List CacheOp} (hops : AdmissibleRun {} ops) (hsucceeds : ∀ op ∈ ops, op.Succeeds)
    (hcommitted : ∀ id ∈ (ops.foldl CacheOp.record {}).written,
      id ∈ (ops.foldl CacheOp.record {}).committed) :
    (∀ key, (ops.foldl CacheOp.apply
        (TwoLevelCache.new l1CapacityBytes l2CapacityBytes db₀)).flushFrozenTables.db key =
          (lastWrite (writtenRecords ops) key).or (db₀ key)) ↔
      ∀ key v v',
        lastWrite (pageRecords (splitFrozen l1CapacityBytes (ops.flatMap CacheOp.pages)).1) key =
          some v →
        lastWrite (pageRecords (splitFrozen l1CapacityBytes (ops.flatMap CacheOp.pages)).2) key =
          some v' → v = v' := by
  have hnew : Stores db₀ [] (History.committed {})
      (TwoLevelCache.new l1CapacityBytes l2CapacityBytes db₀) :=
    ⟨.nil, .nil, List.nil_subset _, fun _ _ => rfl, fun _ => rfl⟩
  obtain ⟨batches, hstores, hwritten, hpages, hsplit⟩ := hnew.run rfl rfl hops hsucceeds
  rw [hwritten] at hcommitted
  refine forall_congr' fun key => ?_
  have hsplit' : (ops.foldl CacheOp.apply
      (TwoLevelCache.new l1CapacityBytes l2CapacityBytes db₀)).l1.split =
        splitFrozen l1CapacityBytes (ops.flatMap CacheOp.pages) := hsplit
  have hrecords : pageRecords (batches.flatMap (·.2)) = writtenRecords ops := congrArg _ hpages
  have hall : writtenRecords ops =
      pageRecords (splitFrozen l1CapacityBytes (ops.flatMap CacheOp.pages)).1 ++
        pageRecords (splitFrozen l1CapacityBytes (ops.flatMap CacheOp.pages)).2 := by
    rw [← pageRecords_append, splitFrozen_append, writtenRecords]
  rw [TwoLevelCache.db_flushFrozenTables, hsplit', hstores.db_eq hcommitted, hrecords, hall,
    lastWrite_append]
  cases lastWrite (pageRecords (splitFrozen l1CapacityBytes (ops.flatMap CacheOp.pages)).1) key with
  | none => simp
  | some v =>
    cases lastWrite (pageRecords (splitFrozen l1CapacityBytes (ops.flatMap CacheOp.pages)).2)
      key with
    | none => simp
    | some v' => simp

/-! ## A commit that fails -/

namespace TwoLevelCache

/-- The records of a batch that waits for its commit. -/
def pendingRecords (c : TwoLevelCache) (batchId : Nat) : List (Key × Value) :=
  pageRecords ((c.pendingBatchPages batchId).getD [])

/-- The cache `c'` has the pages, L1 and L2 of `c`, and a commit of the batch on a working store
persists its records. -/
structure Retained (c : TwoLevelCache) (batchId : Nat) (c' : TwoLevelCache) : Prop where
  pending : c'.pendingBatchPages = c.pendingBatchPages
  l1 : c'.l1 = c.l1
  l2 : c'.l2 = c.l2
  retry : ∀ key v, lastWrite (c.pendingRecords batchId) key = some v →
    (c'.commitBatch batchId .stored).2.db key = some v

variable (c : TwoLevelCache) (batchId : Nat)

/-- A batch without records is committed without the store. -/
theorem commitBatch_of_nil (outcome : PutOutcome) (h : c.pendingRecords batchId = []) :
    c.commitBatch batchId outcome =
      (.ok (), { c with pendingBatchPages := update c.pendingBatchPages batchId none }) := by
  rw [pendingRecords] at h
  unfold commitBatch
  dsimp only
  rw [h]
  rfl

/-- A commit that fails has lost its pages, but for the records before the failure. -/
theorem commitBatch_failed (count : Nat) (error : String) (h : c.pendingRecords batchId ≠ []) :
    c.commitBatch batchId (.failed count error) =
      (.error error, { c with
        pendingBatchPages := update c.pendingBatchPages batchId none
        db := putBatch c.db ((c.pendingRecords batchId).take count) }) := by
  rw [pendingRecords] at h ⊢
  unfold commitBatch
  dsimp only
  rw [if_neg fun hempty => h (List.isEmpty_iff.1 hempty)]
  rfl

theorem commitBatch_stored :
    (c.commitBatch batchId .stored).1 = .ok () := by
  unfold commitBatch
  dsimp only
  split <;> rfl

/-- `commit_batch` fails when the store does and the batch has records. -/
theorem commitBatch_error_iff (outcome : PutOutcome) :
    (∃ e, (c.commitBatch batchId outcome).1 = .error e) ↔
      ¬(outcome = .stored ∨ c.pendingRecords batchId = []) := by
  cases outcome with
  | stored =>
    rw [commitBatch_stored]
    simp
  | failed count error =>
    by_cases hnil : c.pendingRecords batchId = []
    · rw [commitBatch_of_nil c batchId _ hnil]
      simp [hnil]
    · rw [commitBatch_failed c batchId count error hnil]
      simp [hnil]

/-- What a failed commit leaves: L1, L2 and the other batches as they were, and a batch without
pages, whose next commit succeeds and stores nothing. -/
theorem of_commitBatch_error {outcome : PutOutcome} {e : String}
    (h : (c.commitBatch batchId outcome).1 = .error e) :
    let c' := (c.commitBatch batchId outcome).2
    c'.l1 = c.l1 ∧ c'.l2 = c.l2 ∧
      (∀ id ≠ batchId, c'.pendingBatchPages id = c.pendingBatchPages id) ∧
      c'.pendingBatchPages batchId = none ∧ c'.commitBatch batchId .stored = (.ok (), c') := by
  have hnot := (commitBatch_error_iff c batchId outcome).1 ⟨e, h⟩
  rw [not_or] at hnot
  cases outcome with
  | stored => exact absurd rfl hnot.1
  | failed count error =>
    rw [commitBatch_failed c batchId count error hnot.2]
    refine ⟨rfl, rfl, fun id hid => update_of_ne hid _ _, update_self .., ?_⟩
    rw [commitBatch_of_nil]
    · simp
    · simp [pendingRecords, pageRecords]

/-- **A failed commit leaves the batch pending** only in the sense that there is no failed commit:
the cache is retained on every error exactly when the store does not fail or the batch has no
records. After an error L1, L2 and the other batches are as before, and the records of the batch are
never committed. -/
theorem failed_commit (outcome : PutOutcome) :
    ((∀ e, (c.commitBatch batchId outcome).1 = .error e →
        Retained c batchId (c.commitBatch batchId outcome).2) ↔
      outcome = .stored ∨ c.pendingRecords batchId = []) ∧
    ∀ e, (c.commitBatch batchId outcome).1 = .error e →
      let c' := (c.commitBatch batchId outcome).2
      c'.l1 = c.l1 ∧ c'.l2 = c.l2 ∧
        (∀ id ≠ batchId, c'.pendingBatchPages id = c.pendingBatchPages id) ∧
        c'.pendingBatchPages batchId = none ∧ c'.commitBatch batchId .stored = (.ok (), c') := by
  refine ⟨⟨fun h => ?_, fun hok e he => ?_⟩, fun e he => of_commitBatch_error c batchId he⟩
  · by_contra hnot
    obtain ⟨e, he⟩ := (commitBatch_error_iff c batchId outcome).2 hnot
    obtain ⟨-, -, -, hnone, -⟩ := of_commitBatch_error c batchId he
    -- the batch has records, so it had pages
    have hgone : c.pendingRecords batchId = [] := by
      rw [pendingRecords, ← (h e he).pending, hnone]
      rfl
    exact hnot (.inr hgone)
  · exact absurd hok ((commitBatch_error_iff c batchId outcome).1 ⟨e, he⟩)

end TwoLevelCache

namespace RunsFixture

/-- Two batches that are written and committed, with a capacity that two records reach. -/
def twoBatches (v : Value) : List CacheOp :=
  [.write 1 [⟨1, 1, [(5, 1), (6, 1)], true⟩], .write 2 [page 5 v], .commit 1 .stored,
    .commit 2 .stored]

/-- A run whose batches write the same value is durable. -/
theorem flush_durable_sameValue : AdmissibleRun {} (twoBatches 1) ∧
    ((twoBatches 1).foldl CacheOp.apply (.new 144 1024 fun _ => none)).flushFrozenTables.db 5 =
      some 1 := by
  refine ⟨by decide, ((flush_durable_iff 144 1024 (fun _ => none) (by decide) (by decide)
    (by decide)).2 fun key v v' hv hv' => ?_) 5⟩
  have hfrozen := mem_of_lastWrite hv
  have hactive := mem_of_lastWrite hv'
  change (key, v) ∈ [((5 : Key), (1 : Value)), (6, 1)] at hfrozen
  change (key, v') ∈ [((5 : Key), (1 : Value))] at hactive
  cases List.mem_singleton.1 hactive
  rcases List.mem_cons.1 hfrozen with heq | hmem
  · cases heq
    rfl
  · exact (congrArg Prod.snd (List.mem_singleton.1 hmem)).trans rfl

/-- The value 2 of the second batch is in the active table; the flush writes the first batch
again. -/
theorem flush_loses_value : AdmissibleRun {} (twoBatches 2) ∧
    (∀ op ∈ twoBatches 2, op.Succeeds) ∧
    lastWrite (writtenRecords (twoBatches 2)) 5 = some 2 ∧
    ((twoBatches 2).foldl CacheOp.apply (.new 144 1024 fun _ => none)).flushFrozenTables.db 5 =
      some 1 := by
  decide

/-- A cache with one record of the batch 1. -/
def onePending : TwoLevelCache :=
  (TwoLevelCache.new 1024 1024 fun _ => none).writeDeltaPages 1 [page 5 1]

/-- The retry of a failed commit succeeds and does nothing. -/
theorem failed_commit_onePending :
    (onePending.commitBatch 1 (.failed 0 "io")).2.commitBatch 1 .stored =
      (.ok (), (onePending.commitBatch 1 (.failed 0 "io")).2) :=
  ((TwoLevelCache.failed_commit onePending 1 (.failed 0 "io")).2 "io" rfl).2.2.2.2

/-- The retry of a failed commit succeeds, and the record is not in the store. -/
theorem failed_commit_drops_batch :
    (onePending.commitBatch 1 (.failed 0 "io")).1 = .error "io" ∧
      ¬onePending.Retained 1 (onePending.commitBatch 1 (.failed 0 "io")).2 ∧
      lastWrite (onePending.pendingRecords 1) 5 = some 1 ∧
      ((onePending.commitBatch 1 (.failed 0 "io")).2.commitBatch 1 .stored).2.db 5 = none := by
  have hnone :
      ((onePending.commitBatch 1 (.failed 0 "io")).2.commitBatch 1 .stored).2.db 5 = none :=
    rfl
  refine ⟨rfl, fun h => ?_, by decide, hnone⟩
  have hsome := h.retry 5 1 (by decide)
  rw [hnone] at hsome
  cases hsome

end RunsFixture

end Chase.Cache
