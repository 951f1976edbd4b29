import Mathlib.Data.List.Basic

/-!
# Readers of a shared store

A program that reads a store cell by cell and then returns (`Reader`) has a result on every fixed
view of the store (`Reader.run`). Several such programs run in parallel against a store that does
not stand still: other parties move it, and a read may move it too (`PoolRun`). As long as all reads
of the run are answered as by one view, every program returns its result on that view
(`PoolRun.eq_run`).
-/

namespace Reading

/-- A program that reads cells `ι` with contents `o` and returns an `α`. -/
inductive Reader (ι o α : Type) : Type
  | ret (a : α)
  | read (i : ι) (k : o → Reader ι o α)

variable {ι o α σ : Type}

/-- The result of a program on a fixed view. -/
def Reader.run (view : ι → o) : Reader ι o α → α
  | .ret a => a
  | .read i k => (k (view i)).run view

/-- The cells that a program reads on a fixed view. -/
def Reader.reads (view : ι → o) : Reader ι o α → List ι
  | .ret _ => []
  | .read i k => i :: (k (view i)).reads view

/-- The result depends only on the cells that are read. -/
theorem Reader.run_congr {view view' : ι → o} (r : Reader ι o α)
    (h : ∀ i ∈ r.reads view, view' i = view i) : r.run view' = r.run view := by
  induction r with
  | ret a => rfl
  | read i k ih =>
    rw [run, run, h i List.mem_cons_self]
    exact ih (view i) fun j hj => h j (List.mem_cons_of_mem _ hj)

/-- A store that can be read while other parties move it. -/
structure Shared (ι o σ : Type) where
  reads : σ → ι → o → σ → Prop
  env : σ → σ → Prop

/-- The programs of a pool, running in parallel on a shared store, return the results. -/
inductive PoolRun (S : Shared ι o σ) : σ → List (Reader ι o α) → List α → σ → Prop
  | done (s : σ) (results : List α) : PoolRun S s (results.map .ret) results s
  | env {s s' s'' : σ} {rs : List (Reader ι o α)} {results : List α} :
    S.env s s' → PoolRun S s' rs results s'' → PoolRun S s rs results s''
  | read {s s' s'' : σ} {pre post : List (Reader ι o α)} {i : ι} {k : o → Reader ι o α} {v : o}
    {results : List α} : S.reads s i v s' → PoolRun S s' (pre ++ k v :: post) results s'' →
    PoolRun S s (pre ++ .read i k :: post) results s''

variable {S : Shared ι o σ} {s s' : σ} {rs : List (Reader ι o α)} {results : List α}

/-- When the reads of a run are answered as by the view, the programs return their results on it. -/
theorem PoolRun.eq_run (view : ι → o) (Inv : σ → Prop)
    (henv : ∀ s s', Inv s → S.env s s' → Inv s')
    (hread : ∀ s i v s', Inv s → S.reads s i v s' → Inv s' ∧ v = view i)
    (h : PoolRun S s rs results s') (hs : Inv s) : results = rs.map (·.run view) ∧ Inv s' := by
  induction h with
  | done s results =>
    refine ⟨?_, hs⟩
    rw [List.map_map]
    exact (List.map_id results).symm
  | env hstep _ ih => exact ih (henv _ _ hs hstep)
  | read hstep _ ih =>
    obtain ⟨hs', rfl⟩ := hread _ _ _ _ hs hstep
    obtain ⟨hresults, hinv⟩ := ih hs'
    refine ⟨hresults.trans ?_, hinv⟩
    rw [List.map_append, List.map_append, List.map_cons, List.map_cons]
    rfl

/-- Every program of a pool returns. -/
theorem PoolRun.length_eq (h : PoolRun S s rs results s') : results.length = rs.length := by
  induction h with
  | done s results => rw [List.length_map]
  | env _ _ ih => exact ih
  | read _ _ ih => simpa using ih

/-- A program that has returned takes no part in the run of the others. -/
theorem PoolRun.ret_cons (h : PoolRun S s rs results s') (a : α) :
    PoolRun S s (.ret a :: rs) (a :: results) s' := by
  induction h with
  | done s results => exact .done s (a :: results)
  | env hstep _ ih => exact .env hstep ih
  | @read _ _ _ pre _ _ _ _ _ hstep _ ih =>
    rw [← List.cons_append] at ih ⊢
    exact .read hstep ih

/-- The first program of the pool makes a read. -/
theorem PoolRun.read_cons {s'' : σ} {i : ι} {v : o} {k : o → Reader ι o α}
    (hread : S.reads s i v s') (h : PoolRun S s' (k v :: rs) results s'') :
    PoolRun S s (.read i k :: rs) results s'' := by
  rw [← List.nil_append (k v :: rs)] at h
  rw [← List.nil_append (Reader.read i k :: rs)]
  exact .read hread h

/-- A store that stands still and answers as the view lets the programs return their results on
it: they run one after the other. -/
theorem PoolRun.of_run (view : ι → o) (hread : ∀ i, S.reads s i (view i) s)
    (rs : List (Reader ι o α)) : PoolRun S s rs (rs.map (·.run view)) s := by
  induction rs with
  | nil => exact .done s []
  | cons r rs ih =>
    rw [List.map_cons]
    induction r with
    | ret a => exact ih.ret_cons a
    | read i k ihk => exact .read_cons (hread i) (ihk (view i))

end Reading
