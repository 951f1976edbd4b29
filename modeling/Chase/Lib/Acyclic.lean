import Mathlib.Data.List.FinRange
import Mathlib.Data.List.Perm.Basic
import Mathlib.Data.List.Sort
import Mathlib.Logic.Relation
import Mathlib.Order.Extension.Linear

/-!
# Orders that respect a relation

The elements of a list are to be put in an order in which `a` comes before `b` whenever `r a b`.
There is such an order exactly when `r` has no cycle on the positions of the list
(`exists_order_iff`).
-/

namespace Acyclic

variable {α : Type*} (r : α → α → Prop)

/-- The elements at two different positions are related. -/
def At (l : List α) (i j : Fin l.length) : Prop := i ≠ j ∧ r (l.get i) (l.get j)

/-- No element comes before one that is to come before it. -/
def Respects (order : List α) : Prop := order.Pairwise fun a b => ¬r b a

instance [DecidableRel r] : DecidablePred (Respects r) := fun _ =>
  inferInstanceAs (Decidable (List.Pairwise _ _))

variable {r}

/-- A permutation of an image is the image of a permutation. -/
theorem exists_map_eq_of_perm {β : Type*} (f : α → β) {l : List α} {order : List β}
    (h : order.Perm (l.map f)) : ∃ l' : List α, l'.Perm l ∧ l'.map f = order := by
  have hmap : List.Forall₂ (fun b a => b = f a) (l.map f) l := by
    rw [List.forall₂_map_left_iff, List.forall₂_same]
    exact fun _ _ => rfl
  obtain ⟨l', horder, hperm⟩ := List.perm_comp_forall₂ h hmap
  refine ⟨l', hperm, ?_⟩
  rw [← List.forall₂_map_right_iff (R := Eq), List.forall₂_eq_eq_eq] at horder
  exact horder.symm

/-- A relation without a cycle extends to a linear order. -/
theorem exists_linear {ι : Type*} {s : ι → ι → Prop} (h : ∀ i, ¬Relation.TransGen s i i) :
    ∃ le : ι → ι → Prop, IsLinearOrder ι le ∧ ∀ i j, s i j → le i j := by
  have hpartial : IsPartialOrder ι (Relation.ReflTransGen s) :=
    { refl := fun _ => .refl
      trans := fun _ _ _ => .trans
      antisymm := fun i j hij hji => by
        rcases Relation.reflTransGen_iff_eq_or_transGen.1 hij with heq | hij
        · exact heq.symm
        · exact absurd (hij.trans_left hji) (h i) }
  obtain ⟨le, hle, hsub⟩ := extend_partialOrder (Relation.ReflTransGen s)
  exact ⟨le, hle, fun i j hij => hsub i j (.single hij)⟩

/-- Positions in an order that respects the relation have no cycle. -/
theorem not_transGen_of_pairwise {ι : Type*} {s : ι → ι → Prop} {order : List ι}
    (h : order.Pairwise fun i j => ¬s j i) (hirrefl : ∀ i, ¬s i i)
    (hmem : ∀ i j, s i j → i ∈ order ∧ j ∈ order) (i : ι) :
    ¬Relation.TransGen s i i := by
  classical
  have hlt : ∀ i j, s i j → order.idxOf i < order.idxOf j := by
    intro i j hij
    by_contra hle
    rw [not_lt] at hle
    have hj := List.idxOf_lt_length_of_mem (hmem i j hij).2
    have hi := List.idxOf_lt_length_of_mem (hmem i j hij).1
    rcases hle.lt_or_eq with hlt | heq
    · have := List.pairwise_iff_getElem.1 h _ _ hj hi hlt
      rw [List.getElem_idxOf hj, List.getElem_idxOf hi] at this
      exact this hij
    · have hji : j = i := by
        rw [← List.getElem_idxOf hj, ← List.getElem_idxOf hi]
        simp only [heq]
      exact hirrefl i (hji ▸ hij)
  intro hcycle
  have : order.idxOf i < order.idxOf i := by
    refine Relation.TransGen.trans_induction_on (motive := fun {i j} _ =>
      order.idxOf i < order.idxOf j) hcycle (fun hij => hlt _ _ hij) fun _ _ => lt_trans
  exact lt_irrefl _ this

/-- A list has an order that respects the relation exactly when the relation has no cycle on its
positions. -/
theorem exists_order_iff (l : List α) :
    (∃ order : List α, order.Perm l ∧ Respects r order) ↔
      ∀ i, ¬Relation.TransGen (At r l) i i := by
  classical
  constructor
  · rintro ⟨order, hperm, hrespects⟩
    rw [← List.map_get_finRange l] at hperm
    obtain ⟨positions, hpositions, rfl⟩ := exists_map_eq_of_perm l.get hperm
    have hpairwise : positions.Pairwise fun i j => ¬At r l j i :=
      (List.pairwise_map.1 hrespects).imp fun hnot hji => hnot hji.2
    have hmem : ∀ i, i ∈ positions := fun i => hpositions.mem_iff.2 (List.mem_finRange i)
    exact not_transGen_of_pairwise hpairwise (fun i hi => hi.1 rfl) fun i j _ => ⟨hmem i, hmem j⟩
  · intro hacyclic
    obtain ⟨le, hlinear, hle⟩ := exists_linear hacyclic
    let positions := (List.finRange l.length).insertionSort le
    have hperm : positions.Perm (List.finRange l.length) := List.perm_insertionSort le _
    refine ⟨positions.map l.get, ?_, ?_⟩
    · have := hperm.map l.get
      rwa [List.map_get_finRange] at this
    · have hsorted : positions.Pairwise le := List.pairwise_insertionSort le _
      have hnodup : positions.Nodup := hperm.nodup_iff.2 (List.nodup_finRange _)
      refine List.pairwise_map.2 ((hsorted.and hnodup).imp ?_)
      rintro i j ⟨hij, hne⟩ hr
      exact hne (antisymm_of le hij (hle j i ⟨Ne.symm hne, hr⟩))

end Acyclic
