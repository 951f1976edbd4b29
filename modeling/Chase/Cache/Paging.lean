import Chase.Cache.Runs

/-!
# Paging and indexing

`into_delta_pages` cuts the records of a batch into read-only pages, and `insert_page` enters a page
into an index table after an assertion that it is read-only. The pages hold the records in their
order, the assertion holds for each of them, and the table answers every key with its last record
(`paging_lossless`).
-/

namespace Chase.Cache

open LastWrite

/-! ## The pages -/

/-- A finished page: it is read-only and not larger than the limit, where a limit of zero gives
pages of one record. -/
structure DeltaPage.Within (pageLimit : Nat) (page : DeltaPage) : Prop where
  isReadonly : page.isReadonly = true
  length_le : page.records.length ≤ max pageLimit 1
  ne_nil : 0 < pageLimit → page.records ≠ []

/-- What holds in the loop of `into_delta_pages`: the pages before are finished, and the current one
is writable. -/
structure Paging (pageLimit : Nat) (s : List DeltaPage × DeltaPage) : Prop where
  pages : ∀ page ∈ s.1, page.Within pageLimit
  writable : s.2.isReadonly = false
  length_le : s.2.records.length ≤ max pageLimit 1

namespace Paging

variable {pageLimit : Nat} {s : List DeltaPage × DeltaPage}

/-- An empty page fits. -/
theorem start (pageLimit blockStart blockEnd : Nat) :
    Paging pageLimit ([], { blockStart, blockEnd }) :=
  ⟨by nofun, rfl, Nat.zero_le _⟩

/-- The current page is frozen and put behind the others. -/
theorem freeze (h : Paging pageLimit s) (hcurrent : 0 < pageLimit → s.2.records ≠ []) :
    ∀ page ∈ s.1 ++ [s.2.freeze], page.Within pageLimit := by
  intro page hpage
  rcases List.mem_append.1 hpage with hpage | hpage
  · exact h.pages page hpage
  · rw [List.mem_singleton.1 hpage]
    exact ⟨rfl, h.length_le, hcurrent⟩

/-- A record goes into the current page or begins a new one. -/
theorem step (h : Paging pageLimit s) (blockStart blockEnd : Nat) (record : Key × Value) :
    Paging pageLimit (pageStep pageLimit blockStart blockEnd s record) := by
  rw [pageStep]
  split
  · rename_i hfull
    have hcurrent : 0 < pageLimit → s.2.records ≠ [] := by
      intro hlimit hnil
      rw [hnil] at hfull
      exact Nat.not_lt_zero _ (Nat.lt_of_lt_of_le hlimit hfull)
    exact ⟨h.freeze hcurrent, rfl, Nat.le_max_right _ _⟩
  · rename_i hroom
    refine ⟨h.pages, h.writable, ?_⟩
    rw [DeltaPage.pushRecord, List.length_append, List.length_singleton]
    omega

/-- Any records are paged. -/
theorem run (h : Paging pageLimit s) (blockStart blockEnd : Nat) (records : List (Key × Value)) :
    Paging pageLimit (records.foldl (pageStep pageLimit blockStart blockEnd) s) := by
  induction records generalizing s with
  | nil => exact h
  | cons record records ih => exact ih (h.step blockStart blockEnd record)

end Paging

/-- The pages of `into_delta_pages` are finished. -/
theorem intoDeltaPages_within (records : List (Key × Value))
    (blockStart blockEnd maxRecords : Nat) :
    ∀ page ∈ intoDeltaPages records blockStart blockEnd maxRecords,
      page.Within (min maxRecords deltaPageMaxRecords) := by
  have h := (Paging.start (min maxRecords deltaPageMaxRecords) blockStart blockEnd).run
    blockStart blockEnd records
  rw [intoDeltaPages]
  split
  · exact h.pages
  · rename_i hempty
    exact h.freeze fun _ hnil => hempty (List.isEmpty_iff.2 hnil)

/-! ## The index table -/

/-- `MemIndexTable::insert_page` with its assertion: `none` is the panic at a page that is not
read-only. -/
def MemIndexTable.insertPage? (t : MemIndexTable) (page : DeltaPage) : Option MemIndexTable :=
  if page.isReadonly then some (t.insertPage page) else none

/-- The pages are inserted one after the other. -/
def MemIndexTable.insertPages? (t : MemIndexTable) (pages : List DeltaPage) :
    Option MemIndexTable :=
  pages.foldlM insertPage? t

/-- A page that some call of `into_delta_pages` returned. -/
def DeltaPage.Paged (page : DeltaPage) : Prop :=
  ∃ records blockStart blockEnd maxRecords,
    page ∈ intoDeltaPages records blockStart blockEnd maxRecords

namespace MemIndexTable

/-- Readonly pages are all inserted. -/
theorem insertPages?_eq {pages : List DeltaPage} (h : ∀ page ∈ pages, page.isReadonly = true)
    (t : MemIndexTable) : t.insertPages? pages = some (pages.foldl insertPage t) := by
  induction pages generalizing t with
  | nil => rfl
  | cons page pages ih =>
    have hpage : t.insertPage? page = some (t.insertPage page) := if_pos (h page List.mem_cons_self)
    rw [insertPages?, List.foldlM_cons, hpage]
    exact ih (fun page' hpage' => h page' (List.mem_cons_of_mem _ hpage')) (t.insertPage page)

/-- What a table has after pages are inserted into the empty one. -/
structure Holds (t : MemIndexTable) (pages : List DeltaPage) : Prop where
  pages_eq : t.pages = pages
  consistent : t.Consistent
  totalBytes : t.totalBytes = 72 * (pageRecords pages).length

/-- An empty table holds no pages. -/
theorem holds_empty : Holds {} [] := ⟨rfl, fun _ => rfl, rfl⟩

/-- An inserted page is held after the others. -/
theorem Holds.insertPage {t : MemIndexTable} {pages : List DeltaPage} (h : t.Holds pages)
    (page : DeltaPage) : (t.insertPage page).Holds (pages ++ [page]) where
  pages_eq := congrArg (· ++ [page]) h.pages_eq
  consistent := h.consistent.insertPage page
  totalBytes := by
    have hbytes : (t.insertPage page).totalBytes = t.totalBytes + page.byteSize := rfl
    have hpage : pageRecords [page] = page.records := List.append_nil _
    rw [hbytes, h.totalBytes, pageRecords_append, hpage, List.length_append, DeltaPage.byteSize]
    omega

/-- Inserted pages are held in their order. -/
theorem holds_insertPages (pages : List DeltaPage) :
    Holds (pages.foldl MemIndexTable.insertPage {}) pages := by
  induction pages using List.reverseRecOn with
  | nil => exact holds_empty
  | append_singleton pages page ih =>
    rw [List.foldl_append]
    exact ih.insertPage page

end MemIndexTable

/-- A page of the paging is readonly. -/
theorem DeltaPage.Paged.isReadonly {page : DeltaPage} (h : page.Paged) :
    page.isReadonly = true := by
  obtain ⟨records, blockStart, blockEnd, maxRecords, hpage⟩ := h
  exact (intoDeltaPages_within records blockStart blockEnd maxRecords page hpage).isReadonly

/-- Paging and indexing lose nothing: the pages of `into_delta_pages` are read-only, within the
limits, and have the records in their order; and pages of any calls of it can be inserted into one
table, which then answers every key with the last record for it and counts 72 bytes a record. -/
theorem paging_lossless :
    (∀ (records : List (Key × Value)) (blockStart blockEnd maxRecords : Nat),
      let pages := intoDeltaPages records blockStart blockEnd maxRecords
      (∀ page ∈ pages, page.isReadonly = true ∧ page.records.length ≤ 128) ∧
      pageRecords pages = records ∧
      (1 ≤ maxRecords → ∀ page ∈ pages,
        page.records ≠ [] ∧ page.records.length ≤ min maxRecords 128)) ∧
    ∀ pages : List DeltaPage, (∀ page ∈ pages, page.Paged) →
      ∃ t, MemIndexTable.insertPages? {} pages = some t ∧
        (∀ key, t.lookup key = lastWrite (pageRecords pages) key) ∧
        t.totalBytes = 72 * (pageRecords pages).length := by
  refine ⟨?_, ?_⟩
  · intro records blockStart blockEnd maxRecords pages
    have hwithin := intoDeltaPages_within records blockStart blockEnd maxRecords
    rw [deltaPageMaxRecords] at hwithin
    refine ⟨?_, pageRecords_intoDeltaPages records blockStart blockEnd maxRecords, ?_⟩
    · intro page hpage
      have hlength := (hwithin page hpage).length_le
      exact ⟨(hwithin page hpage).isReadonly, by omega⟩
    · intro hmax page hpage
      have hlength := (hwithin page hpage).length_le
      exact ⟨(hwithin page hpage).ne_nil (by omega), by omega⟩
  · intro pages hpages
    have hholds := MemIndexTable.holds_insertPages pages
    refine ⟨_, MemIndexTable.insertPages?_eq (fun page hpage => (hpages page hpage).isReadonly) {},
      ?_, hholds.totalBytes⟩
    intro key
    rw [hholds.consistent key, hholds.pages_eq]

/-- Two batches in one table: three records in pages of two, then a record that overwrites the key
of the first page. -/
theorem paging_lossless_two_batches :
    ∃ t, MemIndexTable.insertPages? {}
        (intoDeltaPages [(1, 10), (2, 20), (1, 11)] 0 0 2 ++ intoDeltaPages [(2, 21)] 1 1 2) =
          some t ∧
      t.lookup 1 = some 11 ∧ t.lookup 2 = some 21 ∧ t.lookup 3 = none ∧ t.totalBytes = 288 := by
  have hpages : ∀ page ∈
      intoDeltaPages [(1, 10), (2, 20), (1, 11)] 0 0 2 ++ intoDeltaPages [(2, 21)] 1 1 2,
      page.Paged := by
    intro page hpage
    rcases List.mem_append.1 hpage with hpage | hpage
    · exact ⟨_, _, _, _, hpage⟩
    · exact ⟨_, _, _, _, hpage⟩
  obtain ⟨t, ht, hlookup, hbytes⟩ := paging_lossless.2 _ hpages
  rw [pageRecords_append, pageRecords_intoDeltaPages, pageRecords_intoDeltaPages] at hlookup hbytes
  refine ⟨t, ht, ?_, ?_, ?_, hbytes⟩
  · rw [hlookup]
    decide
  · rw [hlookup]
    decide
  · rw [hlookup]
    decide

end Chase.Cache
