import Chase.Graph.FirstUpdater
import Chase.Graph.Iteration

/-!
# Units in another order

When the simulated transactions come in another order, so do the units of every address. Most of the
sort of an address does not see this: the readers are numbered together, the writers are aborted one
by one, and only one transaction updates the slot. What is numbered in the order of the list are the
writers that reach the address without a sequence number. They read nothing there, so the order of
the units counts for the blind writers only (`Address.Alike`). From here to the end of
`hierarchcial_sort`, addresses that are alike stay so: the cells and the maxima are the same
(`sortAll_alike`).
-/

namespace Chase.Graph

open AddressBasedConflictGraph

/-! ## The loops on units in another order -/

/-- The least and the greatest of numbers do not depend on their order. -/
theorem minMax_perm {l l' : List Nat} (h : l.Perm l') : minMax l = minMax l' := by
  induction h with
  | nil => rfl
  | cons s h _ => rw [minMax, minMax, h.foldl_eq, h.foldl_eq]
  | swap s t l => rw [minMax, minMax, List.foldl_cons, List.foldl_cons, List.foldl_cons,
      List.foldl_cons, min_comm, max_comm]
  | trans _ _ ih ih' => exact ih.trans ih'

/-- A cell is its number and its flag. -/
theorem Cell.eq_of_iff {x y : Cell} (hsequence : x.sequence = y.sequence)
    (haborted : x.aborted = true ↔ y.aborted = true) : x = y := by
  obtain ⟨sequence, aborted⟩ := x
  obtain ⟨sequence', aborted'⟩ := y
  rw [Cell.mk.injEq]
  exact ⟨hsequence, Bool.eq_iff_iff.2 haborted⟩

/-- The first loop passes over the units that are not co-located. -/
theorem foldl_updaterStep_filter (us : List TxUnit) (l : UpdaterLoop) :
    (us.filter (·.coLocated)).foldl WriteUnits.updaterStep l =
      us.foldl WriteUnits.updaterStep l := by
  induction us generalizing l with
  | nil => rfl
  | cons u us ih =>
    cases hco : u.coLocated with
    | true => rw [List.filter_cons_of_pos hco, List.foldl_cons, List.foldl_cons, ih]
    | false =>
      have hskip : WriteUnits.updaterStep l u = l := by simp [WriteUnits.updaterStep, hco]
      rw [List.filter_cons_of_neg (by simp [hco]), List.foldl_cons, hskip, ih]

/-- The first loop for units of at most one updater. -/
theorem foldl_updaterStep_perm {us us' : List TxUnit} (h : us.Perm us')
    (hone : ∀ u ∈ us, ∀ v ∈ us, u.coLocated = true → v.coLocated = true → u.tx = v.tx)
    (l : UpdaterLoop) :
    us.foldl WriteUnits.updaterStep l = us'.foldl WriteUnits.updaterStep l := by
  -- the loop looks at the transaction and at the co-location of a unit only
  have hview : ∀ us : List TxUnit, us.foldl WriteUnits.updaterStep l =
      (us.map fun u => (u.tx, u.coLocated)).foldl
        (fun l v => WriteUnits.updaterStep l ⟨v.1, .write, 0, 0, v.2⟩) l := fun us => by
    rw [List.foldl_map]
    rfl
  rw [← foldl_updaterStep_filter us, ← foldl_updaterStep_filter us', hview, hview]
  refine congrArg (List.foldl _ l) (Views.eq_of_perm_of_forall_eq ((h.filter _).map _) ?_)
  intro v hv w hw
  obtain ⟨u, hu, rfl⟩ := List.mem_map.1 hv
  obtain ⟨u', hu', rfl⟩ := List.mem_map.1 hw
  obtain ⟨hu, hco⟩ := List.mem_filter.1 hu
  obtain ⟨hu', hco'⟩ := List.mem_filter.1 hu'
  rw [hone u hu u' hu' hco hco', hco, hco']

/-- The second loop decides for every transaction on its own. -/
theorem foldl_abortStep_perm {us us' : List TxUnit} (h : us.Perm us') (m : Nat) (c : Cells) :
    us.foldl (WriteUnits.abortStep m) c = us'.foldl (WriteUnits.abortStep m) c := by
  funext t
  obtain ⟨hsequence, haborted⟩ := foldl_abortStep m us c t
  obtain ⟨hsequence', haborted'⟩ := foldl_abortStep m us' c t
  refine Cell.eq_of_iff (hsequence.trans hsequence'.symm) ?_
  rw [haborted, haborted']
  simp only [h.mem_iff]

/-- The next free number does not depend on the order of the used ones. -/
theorem nextFree_congr {used used' : List Nat} (h : used.Perm used') (fuel s : Nat) :
    nextFree used fuel s = nextFree used' fuel s := by
  induction fuel generalizing s with
  | zero => rfl
  | succ fuel ih => simp only [nextFree, h.mem_iff, ih]

/-- The third loop uses the numbers in use as a set. -/
theorem foldl_assignStep_congr (us : List TxUnit) (c : Cells) (s : Nat) {used used' : List Nat}
    (h : used.Perm used') :
    (us.foldl WriteUnits.assignStep ⟨c, s, used⟩).cells =
        (us.foldl WriteUnits.assignStep ⟨c, s, used'⟩).cells ∧
      (us.foldl WriteUnits.assignStep ⟨c, s, used⟩).writeSeq =
        (us.foldl WriteUnits.assignStep ⟨c, s, used'⟩).writeSeq := by
  induction us generalizing c s used used' with
  | nil => exact ⟨rfl, rfl⟩
  | cons u us ih =>
    rw [List.foldl_cons, List.foldl_cons, WriteUnits.assignStep, WriteUnits.assignStep,
      nextFree_congr h, h.length_eq]
    exact ih _ _ (h.cons _)

/-! ## Addresses that are alike -/

namespace Address

/-- Two addresses with the same units, up to the order of those that the sort does not number in the
order of the list. -/
structure Alike (a a' : Address) : Prop where
  address : a.address = a'.address
  inDegree : a.inDegree = a'.inDegree
  outDegree : a.outDegree = a'.outDegree
  sortFlag : a.writeUnits.firstUpdaterFlag = a'.writeUnits.firstUpdaterFlag
  readUnits : a.readUnits.units.Perm a'.readUnits.units
  writeUnits : a.writeUnits.units.Perm a'.writeUnits.units
  oneUpdater : ∀ u ∈ a.writeUnits.units, ∀ v ∈ a.writeUnits.units, u.coLocated = true →
    v.coLocated = true → u.tx = v.tx
  blind : a.writeUnits.units.filter (fun u => ¬a.Reads u.tx) =
    a'.writeUnits.units.filter (fun u => ¬a'.Reads u.tx)

/-- The third loop of the writers of the address. -/
def assignLoop (a : Address) (c : Cells) : AssignLoop :=
  (a.writeUnits.units.filter fun u => !(a.readCells c).isSorted u.tx).foldl WriteUnits.assignStep
    ⟨a.abortCells c, a.top c + 1,
      (a.writeUnits.units.filter fun u => (a.readCells c).isSorted u.tx).map
        fun u => (a.abortCells c u.tx).sequence⟩

/-- What the functions after `hierarchcial_sort` read of an address. -/
structure SameMaxima (a a' : Address) : Prop where
  address : a.address = a'.address
  readMax : a.readUnits.maxSeq = a'.readUnits.maxSeq
  writeMax : a.writeUnits.maxSeq = a'.writeUnits.maxSeq

namespace Alike

variable {a a' : Address} (h : a.Alike a') (c : Cells)

include h

theorem liveSequences :
    (a.readUnits.liveSequences c).Perm (a'.readUnits.liveSequences c) :=
  ((h.readUnits.filter _).filter _).map _

theorem readMax : a.readMax c = a'.readMax c :=
  congrArg Prod.snd (minMax_perm (h.liveSequences c))

/-- The readers of addresses that are alike are sorted alike. -/
theorem readCells : a.readCells c = a'.readCells c := by
  funext t
  rw [Address.readCells, Address.readCells, ReadUnits.sort_cell, ReadUnits.sort_cell,
    minMax_perm (h.liveSequences c)]
  simp only [h.readUnits.mem_iff]

/-- The updaters of addresses that are alike are raised alike. -/
theorem updaterLoop : a.updaterLoop c = a'.updaterLoop c := by
  have hmax : (a.readUnits.sort c).1.maxSeq = (a'.readUnits.sort c).1.maxSeq := h.readMax c
  rw [Address.updaterLoop, Address.updaterLoop, WriteUnits.updaterLoop, WriteUnits.updaterLoop,
    ← h.readCells, ← h.sortFlag, ← hmax]
  refine foldl_updaterStep_perm (h.writeUnits.filter _) (fun u hu v hv => ?_) _
  exact h.oneUpdater u (List.mem_of_mem_filter hu) v (List.mem_of_mem_filter hv)

theorem top : a.top c = a'.top c := congrArg UpdaterLoop.maxSeq (h.updaterLoop c)

/-- The sort of addresses that are alike aborts the same writers. -/
theorem abortCells : a.abortCells c = a'.abortCells c := by
  rw [Address.abortCells, Address.abortCells, ← h.updaterLoop, ← h.top, ← h.readCells]
  exact foldl_abortStep_perm (h.writeUnits.filter _) _ _

omit h in
/-- The writers that are not sorted are blind writers. -/
theorem filter_not_isSorted (a : Address) (c : Cells) :
    a.writeUnits.units.filter (fun u => !(a.readCells c).isSorted u.tx) =
      (a.writeUnits.units.filter fun u => ¬a.Reads u.tx).filter
        fun u => !(a.readCells c).isSorted u.tx := by
  rw [List.filter_filter]
  refine List.filter_congr fun u _ => ?_
  cases hs : (a.readCells c).isSorted u.tx with
  | true => rfl
  | false =>
    have hr : ¬a.Reads u.tx := fun hr => by
      rw [hr.isSorted] at hs
      cases hs
    simp [hr]

/-- The third loop numbers the same transactions in the same order. -/
theorem remaining :
    a.writeUnits.units.filter (fun u => !(a.readCells c).isSorted u.tx) =
      a'.writeUnits.units.filter fun u => !(a'.readCells c).isSorted u.tx := by
  rw [filter_not_isSorted, filter_not_isSorted, h.blind, h.readCells]

/-- The writers of addresses that are alike get the same numbers. -/
theorem assignLoop : (a.assignLoop c).cells = (a'.assignLoop c).cells ∧
    (a.assignLoop c).writeSeq = (a'.assignLoop c).writeSeq := by
  rw [Address.assignLoop, Address.assignLoop, h.remaining, h.abortCells, h.top, h.readCells]
  exact foldl_assignStep_congr _ _ _ ((h.writeUnits.filter _).map _)

theorem sort : (a.sort c).2 = (a'.sort c).2 ∧ (a.sort c).1.SameMaxima (a'.sort c).1 :=
  ⟨(h.assignLoop c).1, h.address, congrArg (· + 1) (h.top c), (h.assignLoop c).2⟩

end Alike

end Address

/-! ## All addresses -/

/-- Sorting addresses that are alike one after the other gives the same cells and the same maxima.
-/
theorem sortAll_alike {as as' : List Address} (h : List.Forall₂ Address.Alike as as') (c : Cells) :
    (sortAll as c).2 = (sortAll as' c).2 ∧
      List.Forall₂ Address.SameMaxima (sortAll as c).1 (sortAll as' c).1 := by
  induction h generalizing c with
  | nil => exact ⟨rfl, .nil⟩
  | cons h _ ih =>
    obtain ⟨hcells, hmaxima⟩ := h.sort c
    simp only [sortAll, hcells]
    exact ⟨(ih _).1, .cons hmaxima (ih _).2⟩

/-- `reorder` reads only the maxima. -/
theorem reorderSequence_eq {as as' : List Address} (h : List.Forall₂ Address.SameMaxima as as')
    (tx : Transaction) : reorderSequence as tx = reorderSequence as' tx := by
  have hget : ∀ k, (getAddress as k).map (fun a => max a.writeUnits.maxSeq a.readUnits.maxSeq) =
      (getAddress as' k).map fun a => max a.writeUnits.maxSeq a.readUnits.maxSeq := by
    intro k
    induction h with
    | nil => rfl
    | @cons a a' as as' h _ ih =>
      rw [getAddress, getAddress, List.find?_cons, List.find?_cons, h.address]
      cases decide (a'.address = k) with
      | true => simp only [Option.map_some, h.readMax, h.writeMax]
      | false => exact ih
  simp only [reorderSequence, hget]

end Chase.Graph
