import Mathlib.Algebra.BigOperators.Ring.Finset
import Mathlib.Data.Int.Basic
import Mathlib.Algebra.Ring.Int.Defs

/-!
# Writes computed from one snapshot

Several writers compute new values of the cells from one snapshot and then overwrite the cells one
after the other. A later writer undoes an earlier one where it carries a cell that the other has
changed. When no two of them carry a cell that one of them changes (`Separate`), nothing is undone:
at every cell, and for every measure of the values, the changes of the writers add up
(`measure_foldl_overwrite`).
-/

namespace Snapshot

variable {α β : Type}

/-- The cells after a write: those that the writer carries get its values. -/
def overwrite (g : α → β) (w : α → Option β) : α → β := fun a => (w a).getD (g a)

/-- No two writers carry a cell that one of them changes. -/
def Separate (f : α → β) (ws : List (α → Option β)) : Prop :=
  ws.Pairwise fun w w' => ∀ a b b', w a = some b → w' a = some b' → b = f a ∧ b' = f a

variable {f g : α → β} {ws : List (α → Option β)} {w : α → Option β} {a : α}

/-- A cell that none of the writers carries keeps its value. -/
theorem foldl_overwrite_of_none (h : ∀ w ∈ ws, w a = none) : ws.foldl overwrite g a = g a := by
  induction ws generalizing g with
  | nil => rfl
  | cons w ws ih =>
    rw [List.foldl_cons, ih fun w' hw' => h w' (List.mem_cons_of_mem _ hw'), overwrite,
      h w List.mem_cons_self]
    rfl

/-- **The changes add up**: after separate writers, the measure of a cell has changed by the sum of
what the writers change it by. -/
theorem measure_foldl_overwrite (measure : β → ℤ) (h : Separate f ws) (hg : g a = f a) :
    measure (ws.foldl overwrite g a) - measure (f a) =
      (ws.map fun w => measure ((w a).getD (f a)) - measure (f a)).sum := by
  induction ws generalizing g with
  | nil => simp [hg]
  | cons w ws ih =>
    obtain ⟨hw, hws⟩ := List.pairwise_cons.1 h
    rw [List.foldl_cons, List.map_cons, List.sum_cons]
    cases hwa : w a with
    | none =>
      have hg' : overwrite g w a = f a := by rw [overwrite, hwa, Option.getD_none, hg]
      rw [ih hws hg', Option.getD_none, sub_self, zero_add]
    | some b =>
      by_cases hb : b = f a
      · have hg' : overwrite g w a = f a := by rw [overwrite, hwa, Option.getD_some, hb]
        rw [ih hws hg', Option.getD_some, hb, sub_self, zero_add]
      · -- the other writers do not carry a cell that this one changes
        have hnone : ∀ w' ∈ ws, w' a = none := fun w' hw' => by
          cases hwa' : w' a with
          | none => rfl
          | some b' => exact absurd (hw w' hw' a b b' hwa hwa').1 hb
        have hzero : (ws.map fun w' => measure ((w' a).getD (f a)) - measure (f a)).sum = 0 := by
          refine List.sum_eq_zero fun z hz => ?_
          obtain ⟨w', hw', rfl⟩ := List.mem_map.1 hz
          rw [hnone w' hw', Option.getD_none, sub_self]
        rw [foldl_overwrite_of_none hnone, overwrite, hwa, hzero, add_zero, Option.getD_some,
          Option.getD_some]

/-- The sum over the cells of what several writers contribute, writer by writer. -/
theorem sum_list_sum [Fintype α] (F : (α → Option β) → α → ℤ) :
    ∑ a, (ws.map fun w => F w a).sum = (ws.map fun w => ∑ a, F w a).sum := by
  induction ws with
  | nil => simp
  | cons w ws ih => simp only [List.map_cons, List.sum_cons, Finset.sum_add_distrib, ih]

/-- The total of an integer measure stays when every overwrite keeps it. -/
theorem total_foldl_overwrite_int [Fintype α] (measure : β → ℤ) (h : Separate f ws)
    (hkeep : ∀ w ∈ ws, ∑ a, measure ((w a).getD (f a)) = ∑ a, measure (f a)) :
    ∑ a, measure (ws.foldl overwrite f a) = ∑ a, measure (f a) := by
  have hpoint : ∀ a, measure (ws.foldl overwrite f a) = measure (f a) +
      (ws.map fun w => measure ((w a).getD (f a)) - measure (f a)).sum := fun a => by
    rw [← measure_foldl_overwrite measure h rfl, add_sub_cancel]
  have hzero : ∑ a, (ws.map fun w => measure ((w a).getD (f a)) - measure (f a)).sum = 0 := by
    rw [sum_list_sum]
    refine List.sum_eq_zero fun z hz => ?_
    obtain ⟨w, hw, rfl⟩ := List.mem_map.1 hz
    rw [Finset.sum_sub_distrib, hkeep w hw, sub_self]
  rw [Finset.sum_congr rfl fun a _ => hpoint a, Finset.sum_add_distrib, hzero, add_zero]

/-- When every writer keeps the total of a measure over the cells, separate writers keep it
together. -/
theorem total_foldl_overwrite [Fintype α] (measure : β → ℕ) (h : Separate f ws)
    (hkeep : ∀ w ∈ ws, ∑ a, measure (overwrite f w a) = ∑ a, measure (f a)) :
    ∑ a, measure (ws.foldl overwrite f a) = ∑ a, measure (f a) := by
  have hsum := total_foldl_overwrite_int (fun b => (measure b : ℤ)) h fun w hw => by
    have := hkeep w hw
    simp only [overwrite] at this
    exact_mod_cast this
  exact_mod_cast hsum

/-- A change of one cell changes the total by the change of its measure. -/
theorem total_update [Fintype α] [DecidableEq α] (measure : β → ℕ) (f : α → β) (a : α) (b : β) :
    ∑ x, measure (Function.update f a b x) + measure (f a) = ∑ x, measure (f x) + measure b := by
  have hrest : ∑ x ∈ Finset.univ.erase a, measure (Function.update f a b x) =
      ∑ x ∈ Finset.univ.erase a, measure (f x) := by
    refine Finset.sum_congr rfl fun x hx => ?_
    rw [Function.update_of_ne (Finset.ne_of_mem_erase hx)]
  have hnew := Finset.add_sum_erase Finset.univ (fun x => measure (Function.update f a b x))
    (Finset.mem_univ a)
  have hold := Finset.add_sum_erase Finset.univ (fun x => measure (f x)) (Finset.mem_univ a)
  simp only [Function.update_self] at hnew
  rw [hrest] at hnew
  omega

end Snapshot
