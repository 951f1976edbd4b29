import Chase.Graph.Sort

/-!
# The order at one address

Sorting an address that has not been sorted yet leaves its live readers at or below its live
writers, whatever numbers and abort flags the transactions have before. At most one live transaction
both reads and writes there: the first loop of the writers raises the first live updater and aborts
every other one (`raised_of_live`). The result is `sort_local_order`.
-/

namespace Chase.Graph

/-- With the flag set, the first loop aborts every updater. -/
theorem aborted_of_flag {us : List TxUnit} {u : TxUnit} (hu : u ∈ us) (hco : u.coLocated = true)
    (c : Cells) (maxSeq : Nat) :
    ((us.foldl WriteUnits.updaterStep ⟨c, maxSeq, true⟩).cells u.tx).aborted = true := by
  induction us generalizing c with
  | nil => cases hu
  | cons v us ih =>
    rw [List.foldl_cons, WriteUnits.updaterStep]
    dsimp only
    rcases List.mem_cons.1 hu with rfl | hu
    · split
      · rename_i ha
        exact (updaterSpec_of_flag us c maxSeq).aborted _ ha
      · exact (updaterSpec_of_flag us _ maxSeq).aborted _ (by simp)
    · split_ifs
      · exact ih hu c
      · exact ih hu _
      · exact ih hu c

/-- Without the flag, it aborts every updater but the first live one. -/
theorem aborted_or_firstUpdater {us : List TxUnit} {u : TxUnit} (hu : u ∈ us)
    (hco : u.coLocated = true) (c : Cells) (maxSeq : Nat) :
    ((us.foldl WriteUnits.updaterStep ⟨c, maxSeq, false⟩).cells u.tx).aborted = true ∨
      firstUpdater us c = some u.tx := by
  induction us with
  | nil => cases hu
  | cons v us ih =>
    rw [List.foldl_cons, WriteUnits.updaterStep, firstUpdater, List.find?_cons]
    dsimp only
    cases ha : (c v.tx).aborted with
    | true =>
      rw [if_pos rfl, Bool.not_true, Bool.and_false]
      rcases List.mem_cons.1 hu with rfl | hu
      · exact .inl ((updaterSpec_of_not_flag us c maxSeq).aborted _ ha)
      · exact ih hu
    | false =>
      rw [if_neg Bool.false_ne_true]
      cases hco' : v.coLocated with
      | false =>
        rw [if_neg Bool.false_ne_true, Bool.false_and]
        rcases List.mem_cons.1 hu with rfl | hu
        · rw [hco] at hco'
          cases hco'
        · exact ih hu
      | true =>
        rw [if_pos rfl, Bool.not_false, Bool.and_self]
        rcases List.mem_cons.1 hu with rfl | hu
        · exact .inr rfl
        · exact .inl (aborted_of_flag hu hco _ _)

namespace Address

/-- `t` has a co-located write unit at the address. -/
def UpdatedBy (a : Address) (t : TxId) : Prop :=
  ∃ u ∈ a.writeUnits.units, u.tx = t ∧ u.coLocated = true

section

variable {a : Address} {c : Cells} {t : TxId} (h : a.UpdatersRead)

include h

/-- An updater that is live afterwards is the one that was raised. -/
theorem raised_of_live (hflag : a.writeUnits.firstUpdaterFlag = false) (hu : a.UpdatedBy t)
    (hlive : ((a.sort c).2 t).aborted = false) : a.raised c = some t := by
  obtain ⟨u, hu, rfl, hco⟩ := hu
  have hs := (h u hu hco).isSorted (c := c)
  have hfilter : u ∈ a.writeUnits.units.filter fun u => (a.readCells c).isSorted u.tx :=
    List.mem_filter.2 ⟨hu, hs⟩
  rw [raised, hflag, if_neg Bool.false_ne_true, ← firstUpdater_filter h]
  refine (aborted_or_firstUpdater hfilter hco (a.readCells c) (a.readMax c)).resolve_left ?_
  intro haborted
  have hloop : ((a.updaterLoop c).cells u.tx).aborted = true := by
    rw [updaterLoop, WriteUnits.updaterLoop, hflag]
    exact haborted
  rw [(sort_cell_of_sorted hs).2.2 (.inl hloop)] at hlive
  cases hlive

theorem updatedBy_of_raised (hr : a.raised c = some t) : a.UpdatedBy t := by
  obtain ⟨-, u, hu, htu, hco⟩ := (updaterLoop_spec h).raised t hr
  exact ⟨u, List.mem_of_mem_filter hu, htu, hco⟩

/-- A live reader that is not raised stays at or below the readers' maximum. -/
theorem sort_reader_le_readMax (hr : a.Reads t) (hlive : ((a.sort c).2 t).aborted = false)
    (hraised : a.raised c ≠ some t) : ((a.sort c).2 t).sequence ≤ a.readMax c := by
  rw [(sort_cell_of_sorted hr.isSorted).1, (updaterLoop_spec h).sequence t, if_neg hraised]
  exact (hr.bounds (live_of_sort_live h hlive)).2

/-- The raised updater is just above the readers' maximum. -/
theorem sort_raised (hr : a.raised c = some t) : ((a.sort c).2 t).sequence = a.readMax c + 1 := by
  have hs := (raised_reads h hr).1.isSorted (c := c)
  rw [(sort_cell_of_sorted hs).1, (updaterLoop_spec h).sequence t, if_pos hr]

/-- A writer without a number and without a read unit is not sorted when the writers are. -/
theorem not_isSorted_of_fresh (hr : ¬a.Reads t) (hseq : (c t).sequence = 0)
    (hlive : ((a.sort c).2 t).aborted = false) : (a.readCells c).isSorted t = false := by
  have hcell : a.readCells c t = c t :=
    (a.readUnits.sort_spec c).frame t fun u hu htu => hr ⟨u, hu, htu⟩
  rw [Cells.isSorted_eq_false, hcell]
  exact ⟨hseq, live_of_sort_live h hlive⟩

end

/-- Sorting one address establishes its local order, from arbitrary cells. In the order of the
conclusion: a live transaction with a unit has a number; a live reader is at or below every other
live writer; at most one live transaction updates; the live writers that had no number and read
nothing here are above every live reader and have numbers that no other writer has; a transaction
without a unit is unchanged; and a live transaction that had a number keeps it, or updates here and
ends above every other live reader. -/
theorem sort_local_order (a : Address) (c : Cells) (h : a.UpdatersRead)
    (hflag : a.writeUnits.firstUpdaterFlag = false) :
    let c' := (a.sort c).2
    (∀ t, a.Reads t ∨ a.Writes t → (c' t).aborted = false → (c' t).sequence ≠ 0) ∧
    (∀ r w, r ≠ w → a.Reads r → a.Writes w → (c' r).aborted = false → (c' w).aborted = false →
      (c' r).sequence ≤ (c' w).sequence) ∧
    (∀ t t', a.UpdatedBy t → a.UpdatedBy t' → (c' t).aborted = false → (c' t').aborted = false →
      t = t') ∧
    (∀ w, a.Writes w → ¬a.Reads w → (c w).sequence = 0 → (c' w).aborted = false →
      (∀ r, a.Reads r → (c' r).aborted = false → (c' r).sequence < (c' w).sequence) ∧
      ∀ w', a.Writes w' → w' ≠ w → (c' w').sequence ≠ (c' w).sequence) ∧
    (∀ t, ¬a.Reads t → ¬a.Writes t → c' t = c t) ∧
    (∀ t, (c t).sequence ≠ 0 → (c' t).aborted = false →
      (¬a.UpdatedBy t → (c' t).sequence = (c t).sequence) ∧
      (a.UpdatedBy t → ∀ r, a.Reads r → r ≠ t → (c' r).aborted = false →
        (c' r).sequence < (c' t).sequence)) := by
  dsimp only
  have hspec := sort_spec (c := c) h
  refine ⟨?_, ?_, ?_, ?_, hspec.frame, ?_⟩
  · intro t ht hlive hzero
    have hsorted := hspec.sorted t ht
    rw [Cells.isSorted_eq_false.2 ⟨hzero, hlive⟩] at hsorted
    cases hsorted
  · intro r w _ hr hw hliveR hliveW
    exact (hspec.reader_le r hr hliveR).trans (hspec.writer_ge w hw hliveW)
  · intro t t' ht ht' hlive hlive'
    have hraised := raised_of_live h hflag ht hlive
    rw [raised_of_live h hflag ht' hlive'] at hraised
    exact (Option.some.inj hraised).symm
  · intro w hw hr hzero hlive
    have hs := not_isSorted_of_fresh h hr hzero hlive
    refine ⟨fun r hreads hliveR => ?_, fun w' hw' hne => (sort_fresh_ne hs hw hw' hne.symm).symm⟩
    exact (hspec.reader_le r hreads hliveR).trans_lt (sort_cell_of_not_sorted h hs hw).2
  · intro t hseq hlive
    have hkept := hspec.kept t (Cells.isSorted_of_pos (Nat.pos_of_ne_zero hseq))
    refine ⟨fun hnot => ?_, fun hupdates r hr hne hliveR => ?_⟩
    · rw [hkept, if_neg fun hraised => hnot (updatedBy_of_raised h hraised)]
    · have hraised := raised_of_live h hflag hupdates hlive
      have hother : a.raised c ≠ some r := by
        rw [hraised]
        exact fun heq => hne (Option.some.inj heq).symm
      rw [sort_raised h hraised]
      exact Nat.lt_succ_of_le (sort_reader_le_readMax h hr hliveR hother)

/-- The address of a key that the transaction 1 updates, 2 reads and 3 writes. -/
def threeUnits : Address where
  address := 5
  readUnits := { units := [⟨1, .read, 5, 1, true⟩, ⟨2, .read, 5, 0, false⟩] }
  writeUnits := { units := [⟨1, .write, 5, 1, true⟩, ⟨3, .write, 5, 0, false⟩] }
  firstUpdaterFlag := true

/-- The writer ends above the reader and beside the updater. -/
theorem sort_local_order_three :
    threeUnits.UpdatersRead ∧ threeUnits.writeUnits.firstUpdaterFlag = false ∧
      ((threeUnits.sort fun _ => {}).2 2).sequence < ((threeUnits.sort fun _ => {}).2 3).sequence ∧
      ((threeUnits.sort fun _ => {}).2 1).sequence ≠
        ((threeUnits.sort fun _ => {}).2 3).sequence := by
  have hread : threeUnits.UpdatersRead := by
    unfold UpdatersRead
    decide
  obtain ⟨-, -, -, hfresh, -⟩ := sort_local_order threeUnits (fun _ => {}) hread rfl
  obtain ⟨hreaders, hwriters⟩ := hfresh 3 (by decide) (by decide) rfl (by decide)
  exact ⟨hread, rfl, hreaders 2 (by decide) (by decide), hwriters 1 (by decide) (by decide)⟩

end Address

end Chase.Graph
