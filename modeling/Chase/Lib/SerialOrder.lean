import Mathlib.Data.List.Sort

/-!
# Serial orders

Transactions read and write items and their writes have been applied in some order. A serial order
of them explains what was applied when no transaction reads what an earlier one writes and the last
writer of every item is the one whose write was applied last (`SerialOrder`). Such an order exists
when there is a rank that puts the readers of an item below its other writers and does not decrease
along the applied writes of an item (`SerialOrder.exists_of_rank`).
-/

namespace Serial

variable {α κ : Type*} [DecidableEq κ]

/-- The last transaction of `l` that writes `k`. -/
def lastWriter (writes : α → List κ) (l : List α) (k : κ) : Option α :=
  (l.filter fun a => decide (k ∈ writes a)).getLast?

/-- `serial` is a serial order that explains the writes applied in the order `applied`. -/
structure SerialOrder (reads writes : α → List κ) (applied serial : List α) : Prop where
  perm : serial.Perm applied
  noEarlierWriter : serial.Pairwise fun earlier later => ∀ k ∈ reads later, k ∉ writes earlier
  sameLastWriter : ∀ k, lastWriter writes serial k = lastWriter writes applied k

variable {reads writes : α → List κ} {applied : List α}

/-- A sort by rank keeps the order of a sublist along which the rank does not decrease. -/
theorem filter_insertionSort (rank : α → Nat) (p : α → Bool)
    (h : (applied.filter p).Pairwise fun a b => rank a ≤ rank b) :
    (applied.insertionSort fun a b => rank a ≤ rank b).filter p = applied.filter p := by
  have hsub : List.Sublist (applied.filter p)
      ((applied.insertionSort fun a b => rank a ≤ rank b).filter p) := by
    have hs := (List.sublist_insertionSort h List.filter_sublist).filter p
    simpa only [List.filter_filter, Bool.and_self] using hs
  have hperm := (applied.perm_insertionSort fun a b => rank a ≤ rank b).filter p
  exact (hsub.eq_of_length hperm.length_eq.symm).symm

/-- If every reader of an item ranks below its other writers, and the rank does not decrease along
the applied writes of an item, then the order of the ranks is a serial order. -/
theorem SerialOrder.exists_of_rank (rank : α → Nat) (hnodup : applied.Nodup)
    (hreader : ∀ r ∈ applied, ∀ w ∈ applied, r ≠ w → ∀ k ∈ reads r, k ∈ writes w → rank r < rank w)
    (hwriters : applied.Pairwise fun a b => ∀ k ∈ writes a, k ∈ writes b → rank a ≤ rank b) :
    ∃ serial, SerialOrder reads writes applied serial := by
  have hperm := applied.perm_insertionSort fun a b => rank a ≤ rank b
  refine ⟨applied.insertionSort fun a b => rank a ≤ rank b, hperm, ?_, fun k => ?_⟩
  · have hsorted := List.pairwise_insertionSort (fun a b => rank a ≤ rank b) applied
    have hne := hperm.nodup_iff.2 hnodup
    refine (hsorted.and hne).imp_of_mem ?_
    rintro a b ha hb ⟨hle, hab⟩ k hr hw
    have := hreader b (hperm.mem_iff.1 hb) a (hperm.mem_iff.1 ha) (Ne.symm hab) k hr hw
    omega
  · rw [lastWriter, lastWriter, filter_insertionSort rank]
    rw [List.pairwise_filter]
    exact hwriters.imp fun h ha hb => h k (of_decide_eq_true ha) (of_decide_eq_true hb)

end Serial
