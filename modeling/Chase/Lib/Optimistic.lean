import Mathlib.Data.Set.Defs
import Mathlib.Data.List.Pairwise
import Mathlib.Data.List.Perm.Basic

/-!
# Optimistic execution

Programs run on one view of a store of cells, and then their updates are applied to it. This is a
run of the programs one after the other, when no program changes a cell that a later one has read
(`runSerial_eq_commit`), and the order of the updates does not matter when no two programs change
the same cell (`commit_perm`).
-/

namespace Optimistic

/-- A program: the cells that it reads on a view, and how it changes each cell, which depends only
on what it has read. -/
structure Program (ι o : Type*) where
  reads : (ι → o) → Set ι
  update : (ι → o) → ι → o → o
  depends : ∀ view view', (∀ i ∈ reads view, view' i = view i) → update view' = update view

variable {ι o : Type*}

/-- The program run on the view leaves the cell as it is. -/
def Program.Keeps (p : Program ι o) (view : ι → o) (i : ι) : Prop := ∀ x, p.update view i x = x

/-- The store after the programs run one after the other, each on what the one before has left. -/
def runSerial (programs : List (Program ι o)) (store : ι → o) : ι → o :=
  programs.foldl (fun store p i => p.update store i (store i)) store

/-- The store after the updates that the programs make on one view. -/
def commit (view : ι → o) (programs : List (Program ι o)) (store : ι → o) : ι → o :=
  programs.foldl (fun store p i => p.update view i (store i)) store

variable {view : ι → o} {programs : List (Program ι o)}

/-- Running the programs one after the other is the same as running them on one view, when none of
them has read a cell that an earlier one changes. -/
theorem runSerial_eq_commit
    (h : programs.Pairwise fun earlier later => ∀ i ∈ later.reads view, earlier.Keeps view i)
    {store : ι → o} (hstore : ∀ p ∈ programs, ∀ i ∈ p.reads view, store i = view i) :
    runSerial programs store = commit view programs store := by
  induction programs generalizing store with
  | nil => rfl
  | cons p programs ih =>
    obtain ⟨hp, hrest⟩ := List.pairwise_cons.1 h
    have hupdate : p.update store = p.update view :=
      p.depends view store (hstore p List.mem_cons_self)
    rw [runSerial, commit, List.foldl_cons, List.foldl_cons, hupdate]
    refine ih hrest fun q hq i hi => ?_
    rw [hp q hq i hi]
    exact hstore q (List.mem_cons_of_mem _ hq) i hi

/-- The updates of one cell. -/
theorem commit_apply (store : ι → o) (i : ι) :
    commit view programs store i = programs.foldl (fun x p => p.update view i x) (store i) := by
  induction programs generalizing store with
  | nil => rfl
  | cons p programs ih => exact ih fun i => p.update view i (store i)

/-- When of any two programs one leaves the cell as it is, the updates may be applied in any order.
-/
theorem commit_perm {programs' : List (Program ι o)} (hperm : programs'.Perm programs)
    (h : programs.Pairwise fun p q => ∀ i, p.Keeps view i ∨ q.Keeps view i) (store : ι → o) :
    commit view programs' store = commit view programs store := by
  funext i
  rw [commit_apply, commit_apply]
  have hsymm : Std.Symm fun p q : Program ι o => ∀ i, p.Keeps view i ∨ q.Keeps view i :=
    ⟨fun _ _ h i => (h i).symm⟩
  refine (hperm.symm.foldl_eq' (fun p hp q hq x => ?_) _).symm
  by_cases hpq : p = q
  · rw [hpq]
  · rcases h.forall hp hq hpq i with hkeeps | hkeeps
    · rw [hkeeps, hkeeps]
    · rw [hkeeps, hkeeps]

end Optimistic
