import Chase.Graph.Basic
import Mathlib.Data.List.Find

/-!
# What sorting one address does

One specification lemma for each loop of `ReadUnits::sort` and `WriteUnits::sort`, and from them the
specification of `Address.sort` (`Address.SortSpec`). Its number `top` is the readers' maximum that
the writers are compared with: the live readers of the address end at or below `top`, the live
writers at or above it, and a writer that is aborted was at or below it before.

Two decisions of the source are left to a hypothesis of the caller. The test of the second loop is
strict, so a writer may stay at `top` beside a reader at `top` (`Address.TieFree` excludes this),
and the first updater is raised above the readers of this address whatever it reads elsewhere
(`Address.raised`).
-/

namespace Chase.Graph

/-! ## Cells -/

namespace Cells

variable (c : Cells) (s t : TxId) (n : Nat)

@[simp] theorem setSequence_self : c.setSequence t n t = { c t with sequence := n } := by
  simp [setSequence]

@[simp] theorem setSequence_aborted : (c.setSequence s n t).aborted = (c t).aborted := by
  by_cases h : t = s <;> simp [setSequence, Function.update, h]

theorem setSequence_of_ne {s t : TxId} (h : t ≠ s) : c.setSequence s n t = c t := by
  simp [setSequence, Function.update, h]

@[simp] theorem abort_sequence : (c.abort s t).sequence = (c t).sequence := by
  by_cases h : t = s <;> simp [abort, Function.update, h]

@[simp] theorem abort_aborted :
    (c.abort s t).aborted = ((c t).aborted || decide (t = s)) := by
  by_cases h : t = s <;> simp [abort, Function.update, h]

/-- An abort changes one cell. -/
theorem abort_of_ne {s t : TxId} (h : t ≠ s) : c.abort s t = c t := by
  simp [abort, Function.update, h]

theorem isSorted_eq_false {c : Cells} {t : TxId} :
    c.isSorted t = false ↔ (c t).sequence = 0 ∧ (c t).aborted = false := by
  simp [isSorted]

theorem isSorted_of_aborted {c : Cells} {t : TxId} (h : (c t).aborted = true) :
    c.isSorted t = true := by
  simp [isSorted, h]

theorem isSorted_of_pos {c : Cells} {t : TxId} (h : 0 < (c t).sequence) :
    c.isSorted t = true := by
  simp [isSorted, h.ne']

end Cells

/-! ## The readers -/

/-- A fold that sets a number sets it for the transactions of the units. -/
theorem foldl_setSequence (n : Nat) (us : List TxUnit) (c : Cells) (t : TxId) :
    us.foldl (fun c u => c.setSequence u.tx n) c t =
      if t ∈ us.map (·.tx) then { c t with sequence := n } else c t := by
  induction us generalizing c with
  | nil => simp
  | cons u us ih =>
    rw [List.foldl_cons, ih, List.map_cons]
    by_cases h : t = u.tx
    · subst h
      by_cases h' : u.tx ∈ us.map (·.tx) <;> simp [h']
    · rw [Cells.setSequence_of_ne c n h]
      simp [h]

/-- A fold of minima is below its start and its elements. -/
theorem foldl_min_le (l : List Nat) (s : Nat) :
    l.foldl min s ≤ s ∧ ∀ n ∈ l, l.foldl min s ≤ n := by
  induction l generalizing s with
  | nil => simp
  | cons m l ih =>
    obtain ⟨h1, h2⟩ := ih (min s m)
    simp only [List.foldl_cons, List.mem_cons, forall_eq_or_imp]
    exact ⟨by omega, by omega, h2⟩

/-- A fold of maxima is above its start and its elements. -/
theorem le_foldl_max (l : List Nat) (s : Nat) :
    s ≤ l.foldl max s ∧ ∀ n ∈ l, n ≤ l.foldl max s := by
  induction l generalizing s with
  | nil => simp
  | cons m l ih =>
    obtain ⟨h1, h2⟩ := ih (max s m)
    simp only [List.foldl_cons, List.mem_cons, forall_eq_or_imp]
    exact ⟨by omega, by omega, h2⟩

/-- A fold of maxima is below a bound of its start and its elements. -/
theorem foldl_max_le {l : List Nat} {s b : Nat} (hs : s ≤ b) (h : ∀ n ∈ l, n ≤ b) :
    l.foldl max s ≤ b := by
  induction l generalizing s with
  | nil => exact hs
  | cons m l ih =>
    rw [List.forall_mem_cons] at h
    exact ih (max_le hs h.1) h.2

/-- A fold of minima of positive numbers is positive. -/
theorem foldl_min_pos (l : List Nat) (s : Nat) (hs : 0 < s) (h : ∀ n ∈ l, 0 < n) :
    0 < l.foldl min s := by
  induction l generalizing s with
  | nil => simpa using hs
  | cons m l ih =>
    rw [List.foldl_cons]
    have hm := h m List.mem_cons_self
    exact ih (min s m) (by omega) fun n hn => h n (List.mem_cons_of_mem _ hn)

/-- The bounds that `minMax` returns, for positive numbers. -/
theorem minMax_spec {l : List Nat} (h : ∀ n ∈ l, 0 < n) :
    0 < (minMax l).1 ∧ (minMax l).1 ≤ (minMax l).2 ∧ ∀ n ∈ l, n ≤ (minMax l).2 := by
  cases l with
  | nil => simp [minMax]
  | cons s l =>
    have hmin := foldl_min_le l s
    have hmax := le_foldl_max l s
    simp only [List.mem_cons, forall_eq_or_imp, minMax] at h ⊢
    exact ⟨foldl_min_pos l s h.1 h.2, by omega, hmax.1, hmax.2⟩

/-- What `ReadUnits::sort` does: a sorted transaction keeps its cell, and every live reader ends
with a positive sequence number that is at most the recorded maximum. -/
structure ReadUnits.SortSpec (ru : ReadUnits) (c : Cells) (ru' : ReadUnits) (c' : Cells) :
    Prop where
  mem_units : ∀ u, u ∈ ru'.units ↔ u ∈ ru.units
  frame : ∀ t, (∀ u ∈ ru.units, u.tx ≠ t) → c' t = c t
  keeps : ∀ t, c.isSorted t = true → c' t = c t
  aborted : ∀ t, (c' t).aborted = (c t).aborted
  bounds : ∀ u ∈ ru.units, (c u.tx).aborted = false →
    0 < (c' u.tx).sequence ∧ (c' u.tx).sequence ≤ ru'.maxSeq

/-- The cell of a transaction after `ReadUnits::sort`. -/
theorem ReadUnits.sort_cell (ru : ReadUnits) (c : Cells) (t : TxId) :
    (ru.sort c).2 t =
      if (∃ u ∈ ru.units, u.tx = t) ∧ c.isSorted t = false then
        { c t with sequence := (minMax (ru.liveSequences c)).1 }
      else c t := by
  have hrem : t ∈ (ru.units.filter fun u => !c.isSorted u.tx).map (·.tx) ↔
      (∃ u ∈ ru.units, u.tx = t) ∧ c.isSorted t = false := by
    simp only [List.mem_map, List.mem_filter, Bool.not_eq_true']
    constructor
    · rintro ⟨u, ⟨hu, hs⟩, rfl⟩
      exact ⟨⟨u, hu, rfl⟩, hs⟩
    · rintro ⟨⟨u, hu, rfl⟩, hs⟩
      exact ⟨u, ⟨hu, hs⟩, rfl⟩
  simp only [← hrem]
  exact foldl_setSequence ..

/-- The numbers of the live readers. -/
theorem ReadUnits.mem_liveSequences {ru : ReadUnits} {c : Cells} {n : Nat} :
    n ∈ ru.liveSequences c ↔
      ∃ u ∈ ru.units, (c u.tx).aborted = false ∧ 0 < (c u.tx).sequence ∧
        (c u.tx).sequence = n := by
  simp only [liveSequences, List.mem_map, List.mem_filter, Bool.not_eq_true', Cells.isSorted,
    Bool.or_eq_true, bne_iff_ne, Nat.pos_iff_ne_zero]
  constructor
  · rintro ⟨u, ⟨⟨hu, hs⟩, ha⟩, rfl⟩
    rw [ha] at hs
    exact ⟨u, hu, ha, by simpa using hs, rfl⟩
  · rintro ⟨u, hu, ha, hs, rfl⟩
    exact ⟨u, ⟨⟨hu, .inl hs⟩, ha⟩, rfl⟩

/-- The sort of the readers does what its specification says. -/
theorem ReadUnits.sort_spec (ru : ReadUnits) (c : Cells) :
    ru.SortSpec c (ru.sort c).1 (ru.sort c).2 := by
  refine ⟨fun u => ?_, fun t ht => ?_, fun t ht => ?_, fun t => ?_, fun u hu hlive => ?_⟩
  · simp only [sort, List.mem_append, List.mem_filter, ← and_or_left]
    cases c.isSorted u.tx <;> simp
  · rw [sort_cell, if_neg]
    rintro ⟨⟨u, hu, rfl⟩, -⟩
    exact ht u hu rfl
  · rw [sort_cell, if_neg]
    rw [ht]
    simp
  · rw [sort_cell]
    split <;> rfl
  · have hspec := minMax_spec (l := ru.liveSequences c) fun n hn => by
      obtain ⟨v, -, -, hpos, rfl⟩ := mem_liveSequences.1 hn
      exact hpos
    rw [sort_cell]
    cases hs : c.isSorted u.tx with
    | false =>
      rw [if_pos ⟨⟨u, hu, rfl⟩, rfl⟩]
      exact ⟨hspec.1, hspec.2.1⟩
    | true =>
      have hpos : 0 < (c u.tx).sequence := by
        rw [Cells.isSorted, hlive] at hs
        simpa [Nat.pos_iff_ne_zero] using hs
      rw [if_neg (by simp)]
      exact ⟨hpos, hspec.2.2 _ (mem_liveSequences.2 ⟨u, hu, hlive, hpos, rfl⟩)⟩

/-! ## The first loop of the writers -/

/-- What the first loop of `WriteUnits::sort` does when it starts at the maximum `m`: it raises
at most one transaction `r`, a live updater, and aborts only updaters. -/
structure UpdaterSpec (us : List TxUnit) (c : Cells) (m : Nat) (r : Option TxId)
    (l : UpdaterLoop) : Prop where
  maxSeq : l.maxSeq = m + if r.isSome then 1 else 0
  sequence : ∀ t, (l.cells t).sequence = if r = some t then m + 1 else (c t).sequence
  aborted : ∀ t, (c t).aborted = true → (l.cells t).aborted = true
  newly : ∀ t, (l.cells t).aborted = true → (c t).aborted = true ∨
    ∃ u ∈ us, u.tx = t ∧ u.coLocated = true
  raised : ∀ t, r = some t → (c t).aborted = false ∧ ∃ u ∈ us, u.tx = t ∧ u.coLocated = true

/-- With the flag set, the loop raises no transaction. -/
theorem updaterSpec_of_flag (us : List TxUnit) (c : Cells) (maxSeq : Nat) :
    UpdaterSpec us c maxSeq none (us.foldl WriteUnits.updaterStep ⟨c, maxSeq, true⟩) := by
  induction us generalizing c with
  | nil => exact ⟨rfl, fun _ => rfl, fun _ h => h, fun _ h => .inl h, fun _ h => nomatch h⟩
  | cons u us ih =>
    rw [List.foldl_cons, WriteUnits.updaterStep]
    have hweaken : ∀ {c' l}, UpdaterSpec us c' maxSeq none l →
        (∀ t, (c' t).sequence = (c t).sequence) →
        (∀ t, (c t).aborted = true → (c' t).aborted = true) →
        (∀ t, (c' t).aborted = true → (c t).aborted = true ∨ u.tx = t ∧ u.coLocated = true) →
        UpdaterSpec (u :: us) c maxSeq none l := by
      intro c' l h hseq habort hnew
      refine ⟨h.maxSeq, fun t => ?_, fun t ht => h.aborted t (habort t ht), fun t ht => ?_,
        fun _ h => nomatch h⟩
      · rw [h.sequence t, hseq t]
      · rcases h.newly t ht with ht | ⟨v, hv, h1, h2⟩
        · rcases hnew t ht with ht | ⟨h1, h2⟩
          · exact .inl ht
          · exact .inr ⟨u, List.mem_cons_self, h1, h2⟩
        · exact .inr ⟨v, List.mem_cons_of_mem _ hv, h1, h2⟩
    split
    · exact hweaken (ih c) (fun _ => rfl) (fun _ h => h) fun _ h => .inl h
    · split
      · rename_i hco
        refine hweaken (ih (c.abort u.tx)) (fun t => by simp) (fun t h => by simp [h]) fun t h => ?_
        simp only [Cells.abort_aborted, Bool.or_eq_true, decide_eq_true_eq] at h
        exact h.imp id fun h => ⟨h.symm, hco⟩
      · exact hweaken (ih c) (fun _ => rfl) (fun _ h => h) fun _ h => .inl h

/-- The first live updater of a list. -/
def firstUpdater (us : List TxUnit) (c : Cells) : Option TxId :=
  (us.find? fun u => u.coLocated && !(c u.tx).aborted).map (·.tx)

/-- Without the flag, the loop raises the first live updater. -/
theorem updaterSpec_of_not_flag (us : List TxUnit) (c : Cells) (maxSeq : Nat) :
    UpdaterSpec us c maxSeq (firstUpdater us c)
      (us.foldl WriteUnits.updaterStep ⟨c, maxSeq, false⟩) := by
  induction us with
  | nil => exact ⟨rfl, fun _ => rfl, fun _ h => h, fun _ h => .inl h, fun _ h => nomatch h⟩
  | cons u us ih =>
    rw [List.foldl_cons, WriteUnits.updaterStep, firstUpdater, List.find?_cons]
    have hskip : UpdaterSpec (u :: us) c maxSeq (firstUpdater us c)
        (us.foldl WriteUnits.updaterStep ⟨c, maxSeq, false⟩) := by
      refine ⟨ih.maxSeq, ih.sequence, ih.aborted, fun t ht => ?_, fun t ht => ?_⟩
      · rcases ih.newly t ht with h | ⟨v, hv, h⟩
        · exact .inl h
        · exact .inr ⟨v, List.mem_cons_of_mem _ hv, h⟩
      · obtain ⟨h1, v, hv, h⟩ := ih.raised t ht
        exact ⟨h1, v, List.mem_cons_of_mem _ hv, h⟩
    cases ha : (c u.tx).aborted with
    | true => simpa [firstUpdater] using hskip
    | false =>
      cases hco : u.coLocated with
      | false => simpa [firstUpdater] using hskip
      | true =>
        -- the rest of the loop starts with the flag set, so it only aborts
        have hrest := updaterSpec_of_flag us (c.setSequence u.tx (maxSeq + 1)) (maxSeq + 1)
        simp only [Bool.false_eq_true, if_false, if_true, Bool.not_false, Bool.and_self,
          Option.map_some]
        refine ⟨by simpa using hrest.maxSeq, fun t => ?_, fun t ht => ?_, fun t ht => ?_,
          fun t ht => ?_⟩
        · rw [hrest.sequence t]
          by_cases h : t = u.tx
          · simp [h]
          · simp [Cells.setSequence_of_ne _ _ h, Ne.symm h]
        · exact hrest.aborted t (by simpa using ht)
        · rcases hrest.newly t ht with h | ⟨v, hv, h⟩
          · exact .inl (by simpa using h)
          · exact .inr ⟨v, List.mem_cons_of_mem _ hv, h⟩
        · obtain rfl : u.tx = t := by simpa using ht
          exact ⟨ha, u, List.mem_cons_self, rfl, hco⟩

/-! ## The second and the third loop -/

/-- A step of the second loop aborts its writer if this is live and below the maximum. -/
theorem abortStep_spec (m : Nat) (u : TxUnit) (c : Cells) (t : TxId) :
    (WriteUnits.abortStep m c u t).sequence = (c t).sequence ∧
      ((WriteUnits.abortStep m c u t).aborted = true ↔
        (c t).aborted = true ∨ u.tx = t ∧ (c t).sequence < m) := by
  unfold WriteUnits.abortStep
  split
  · rename_i ha
    refine ⟨rfl, .inl, ?_⟩
    rintro (h | ⟨rfl, -⟩)
    · exact h
    · exact ha
  · split
    · rename_i hlt
      simp only [Cells.abort_sequence, Cells.abort_aborted, Bool.or_eq_true, decide_eq_true_eq,
        true_and]
      refine or_congr_right ⟨?_, fun h => h.1.symm⟩
      rintro rfl
      exact ⟨rfl, hlt⟩
    · rename_i hge
      refine ⟨rfl, .inl, ?_⟩
      rintro (h | ⟨rfl, h⟩)
      · exact h
      · exact absurd h hge

/-- The second loop aborts the live writers below the maximum. -/
theorem foldl_abortStep (m : Nat) (us : List TxUnit) (c : Cells) (t : TxId) :
    (us.foldl (WriteUnits.abortStep m) c t).sequence = (c t).sequence ∧
      ((us.foldl (WriteUnits.abortStep m) c t).aborted = true ↔
        (c t).aborted = true ∨ (∃ u ∈ us, u.tx = t) ∧ (c t).sequence < m) := by
  induction us generalizing c with
  | nil => simp
  | cons u us ih =>
    obtain ⟨hseq, habort⟩ := ih (WriteUnits.abortStep m c u)
    obtain ⟨hseq', habort'⟩ := abortStep_spec m u c t
    rw [List.foldl_cons, hseq, habort, habort', hseq']
    refine ⟨rfl, ?_⟩
    rw [List.exists_mem_cons_iff, or_and_right, or_assoc]

/-- The next free number is not below the one asked for. -/
theorem le_nextFree (used : List Nat) (fuel s : Nat) : s ≤ nextFree used fuel s := by
  induction fuel generalizing s with
  | zero => exact le_rfl
  | succ fuel ih =>
    rw [nextFree]
    split
    · exact le_trans (Nat.le_succ s) (ih (s + 1))
    · exact le_rfl

/-- A number that is in use is left while there is fuel for all the used numbers from it on. -/
theorem nextFree_notMem (used : List Nat) (fuel s : Nat)
    (hfuel : (used.toFinset.filter (s ≤ ·)).card ≤ fuel) : nextFree used fuel s ∉ used := by
  induction fuel generalizing s with
  | zero =>
    intro hs
    have hempty := Finset.card_eq_zero.1 (Nat.le_zero.1 hfuel)
    exact Finset.notMem_empty s (hempty ▸ Finset.mem_filter.2 ⟨List.mem_toFinset.2 hs, le_rfl⟩)
  | succ fuel ih =>
    rw [nextFree]
    split
    · rename_i hs
      refine ih (s + 1) (Nat.le_of_lt_succ (lt_of_lt_of_le (Finset.card_lt_card ?_) hfuel))
      refine Finset.ssubset_iff_subset_ne.2
        ⟨Finset.monotone_filter_right _ fun n _ hn => (Nat.le_succ s).trans hn, fun heq => ?_⟩
      have hmem := Finset.mem_filter.2 ⟨List.mem_toFinset.2 hs, le_refl s⟩
      rw [← heq] at hmem
      exact absurd (Finset.mem_filter.1 hmem).2 (Nat.not_succ_le_self s)
    · assumption

/-- What the third loop does: a writer that it visits gets a sequence number which is at least the
one that the loop starts at. -/
structure AssignSpec (us : List TxUnit) (l l' : AssignLoop) : Prop where
  frame : ∀ t, (∀ u ∈ us, u.tx ≠ t) → l'.cells t = l.cells t
  aborted : ∀ t, (l'.cells t).aborted = (l.cells t).aborted
  assigned : ∀ u ∈ us, l.writeSeq ≤ (l'.cells u.tx).sequence
  writeSeq : l.writeSeq ≤ l'.writeSeq

/-- The loop over the writers does what its specification says. -/
theorem foldl_assignStep (us : List TxUnit) (l : AssignLoop) :
    AssignSpec us l (us.foldl WriteUnits.assignStep l) := by
  induction us generalizing l with
  | nil => exact ⟨fun _ _ => rfl, fun _ => rfl, fun _ h => (nomatch h), le_rfl⟩
  | cons u us ih =>
    rw [List.foldl_cons]
    have h := ih (WriteUnits.assignStep l u)
    have hle : l.writeSeq ≤ (WriteUnits.assignStep l u).writeSeq := le_nextFree ..
    refine ⟨fun t ht => ?_, fun t => ?_, fun v hv => ?_, hle.trans h.writeSeq⟩
    · rw [h.frame t fun v hv => ht v (List.mem_cons_of_mem _ hv)]
      exact Cells.setSequence_of_ne _ _ (ht u List.mem_cons_self).symm
    · rw [h.aborted t]
      exact Cells.setSequence_aborted ..
    · by_cases hlater : ∃ w ∈ us, w.tx = v.tx
      · obtain ⟨w, hw, hwv⟩ := hlater
        rw [← hwv]
        exact hle.trans (h.assigned w hw)
      · obtain rfl : v = u := by
          rcases List.mem_cons.1 hv with rfl | hv
          · rfl
          · exact absurd ⟨v, hv, rfl⟩ hlater
        rw [h.frame v.tx fun w hw hwv => hlater ⟨w, hw, hwv⟩]
        simpa [WriteUnits.assignStep] using hle

/-- The third loop gives a number that no writer of the address has, and different numbers to
different transactions. -/
theorem foldl_assignStep_fresh (us : List TxUnit) (l : AssignLoop) :
    (∀ u ∈ us, ((us.foldl WriteUnits.assignStep l).cells u.tx).sequence ∉ l.used) ∧
      ∀ u ∈ us, ∀ v ∈ us, u.tx ≠ v.tx →
        ((us.foldl WriteUnits.assignStep l).cells u.tx).sequence ≠
          ((us.foldl WriteUnits.assignStep l).cells v.tx).sequence := by
  induction us generalizing l with
  | nil => exact ⟨fun _ h => (nomatch h), fun _ h => (nomatch h)⟩
  | cons u us ih =>
    rw [List.foldl_cons]
    obtain ⟨hused, hne⟩ := ih (WriteUnits.assignStep l u)
    have hframe := (foldl_assignStep us (WriteUnits.assignStep l u)).frame
    generalize us.foldl WriteUnits.assignStep (WriteUnits.assignStep l u) = l' at hused hne hframe ⊢
    have hlater : ∀ v ∈ us, (l'.cells v.tx).sequence ≠ (WriteUnits.assignStep l u).writeSeq ∧
        (l'.cells v.tx).sequence ∉ l.used := fun v hv => by
      simpa [WriteUnits.assignStep] using hused v hv
    -- a transaction without a later unit keeps the number of this step
    have hlast : (∀ v ∈ us, v.tx ≠ u.tx) →
        (l'.cells u.tx).sequence = (WriteUnits.assignStep l u).writeSeq := fun h => by
      rw [hframe u.tx h]
      simp [WriteUnits.assignStep]
    have hfirst : ∀ v ∈ us, u.tx ≠ v.tx → (l'.cells u.tx).sequence ≠ (l'.cells v.tx).sequence := by
      intro v hv huv
      by_cases h : ∀ w ∈ us, w.tx ≠ u.tx
      · rw [hlast h]
        exact (hlater v hv).1.symm
      · push Not at h
        obtain ⟨w, hw, hwu⟩ := h
        rw [← hwu] at huv ⊢
        exact hne w hw v hv huv
    refine ⟨List.forall_mem_cons.2 ⟨?_, fun v hv => (hlater v hv).2⟩,
      List.forall_mem_cons.2 ⟨List.forall_mem_cons.2 ⟨fun h => absurd rfl h, hfirst⟩,
        fun v hv => List.forall_mem_cons.2 ⟨fun hvu => (hfirst v hv hvu.symm).symm, hne v hv⟩⟩⟩
    by_cases h : ∀ w ∈ us, w.tx ≠ u.tx
    · rw [hlast h]
      refine nextFree_notMem _ _ _ ?_
      exact (Finset.card_filter_le _ _).trans (List.toFinset_card_le _)
    · push Not at h
      obtain ⟨w, hw, hwu⟩ := h
      rw [← hwu]
      exact (hlater w hw).2

/-! ## One address -/

namespace Address

variable (a : Address) (c : Cells)

/-- The cells before the writers are sorted. -/
def readCells : Cells := (a.readUnits.sort c).2

/-- The maximum of the live readers. -/
def readMax : Nat := (a.readUnits.sort c).1.maxSeq

/-- The first loop of the writers of the address. -/
def updaterLoop : UpdaterLoop := a.writeUnits.updaterLoop (a.readUnits.sort c).1 (a.readCells c)

/-- The readers' maximum that the second loop compares the writers with. -/
def top : Nat := (a.updaterLoop c).maxSeq

/-- The updater that the first loop raises to `readMax + 1`. -/
def raised : Option TxId :=
  if a.writeUnits.firstUpdaterFlag then none else firstUpdater a.writeUnits.units c

/-- `t` has a read unit at the address. -/
def Reads (t : TxId) : Prop := ∃ u ∈ a.readUnits.units, u.tx = t

/-- `t` has a write unit at the address. -/
def Writes (t : TxId) : Prop := ∃ u ∈ a.writeUnits.units, u.tx = t

instance (t : TxId) : Decidable (a.Reads t) := inferInstanceAs (Decidable (∃ u ∈ _, _))

instance (t : TxId) : Decidable (a.Writes t) := inferInstanceAs (Decidable (∃ u ∈ _, _))

/-- Every updater of the address is one of its readers. -/
def UpdatersRead : Prop := ∀ u ∈ a.writeUnits.units, u.coLocated = true → a.Reads u.tx

variable {a c}

section

variable {t : TxId}

theorem readCells_aborted (t : TxId) : (a.readCells c t).aborted = (c t).aborted :=
  (a.readUnits.sort_spec c).aborted t

theorem readCells_of_sorted (hs : c.isSorted t = true) : a.readCells c t = c t :=
  (a.readUnits.sort_spec c).keeps t hs

theorem isSorted_readCells (hs : c.isSorted t = true) : (a.readCells c).isSorted t = true := by
  rw [Cells.isSorted, readCells_of_sorted hs]
  exact hs

/-- The sort of the readers lowers no number. -/
theorem sequence_le_readCells (t : TxId) : (c t).sequence ≤ (a.readCells c t).sequence := by
  cases hs : c.isSorted t with
  | true => rw [readCells_of_sorted hs]
  | false =>
    rw [(Cells.isSorted_eq_false.1 hs).1]
    exact Nat.zero_le _

/-- A live reader has a sequence number before the writers are sorted. -/
theorem Reads.bounds (hr : a.Reads t) (hlive : (c t).aborted = false) :
    0 < (a.readCells c t).sequence ∧ (a.readCells c t).sequence ≤ a.readMax c := by
  obtain ⟨u, hu, rfl⟩ := hr
  exact (a.readUnits.sort_spec c).bounds u hu hlive

/-- After the sort of the readers, they are sorted. -/
theorem Reads.isSorted (hr : a.Reads t) : (a.readCells c).isSorted t = true := by
  cases ha : (c t).aborted with
  | true => exact Cells.isSorted_of_aborted (by rw [readCells_aborted, ha])
  | false => exact Cells.isSorted_of_pos (hr.bounds ha).1

end

/-- Among the sorted units, the first live updater is the first one of all units. -/
theorem firstUpdater_filter (h : a.UpdatersRead) :
    firstUpdater (a.writeUnits.units.filter fun u => (a.readCells c).isSorted u.tx)
      (a.readCells c) = firstUpdater a.writeUnits.units c := by
  unfold firstUpdater
  rw [List.find?_filter]
  congr 1
  refine List.find?_congr fun u hu => ?_
  rw [readCells_aborted]
  cases hco : u.coLocated with
  | false => simp
  | true => simp [(h u hu hco).isSorted (c := c)]

/-- The first loop raises `raised` and nothing else. -/
theorem updaterLoop_spec (h : a.UpdatersRead) :
    UpdaterSpec (a.writeUnits.units.filter fun u => (a.readCells c).isSorted u.tx)
      (a.readCells c) (a.readMax c) (a.raised c) (a.updaterLoop c) := by
  unfold raised updaterLoop WriteUnits.updaterLoop
  cases a.writeUnits.firstUpdaterFlag with
  | true => exact updaterSpec_of_flag ..
  | false =>
    rw [if_neg Bool.false_ne_true, ← firstUpdater_filter h]
    exact updaterSpec_of_not_flag ..

/-- The cells between the second and the third loop. -/
def abortCells (a : Address) (c : Cells) : Cells :=
  (a.writeUnits.units.filter fun u => (a.readCells c).isSorted u.tx).foldl
    (WriteUnits.abortStep (a.top c)) (a.updaterLoop c).cells

/-- The third loop, over the writers that are not sorted. -/
theorem sort_assignSpec (a : Address) (c : Cells) :
    ∃ l l' : AssignLoop,
      AssignSpec (a.writeUnits.units.filter fun u => !(a.readCells c).isSorted u.tx) l l' ∧
        l.cells = a.abortCells c ∧ l.writeSeq = a.top c + 1 ∧ l'.cells = (a.sort c).2 :=
  ⟨_, _, foldl_assignStep _ _, rfl, rfl, rfl⟩

/-- The third loop does not visit a transaction that is sorted when the writers are. -/
theorem sort_cell_eq_abortCells {t : TxId} (hs : (a.readCells c).isSorted t = true) :
    (a.sort c).2 t = a.abortCells c t := by
  obtain ⟨l, l', hassign, hcells, -, hsort⟩ := a.sort_assignSpec c
  rw [← hsort, ← hcells]
  refine hassign.frame t fun u hu htu => ?_
  rw [List.mem_filter, htu, hs] at hu
  exact absurd hu.2 (by simp)

/-- The cell of a transaction that is sorted when the writers are. -/
theorem sort_cell_of_sorted {t : TxId} (hs : (a.readCells c).isSorted t = true) :
    ((a.sort c).2 t).sequence = ((a.updaterLoop c).cells t).sequence ∧
      (((a.sort c).2 t).aborted = true ↔ ((a.updaterLoop c).cells t).aborted = true ∨
        a.Writes t ∧ ((a.updaterLoop c).cells t).sequence < a.top c) := by
  rw [sort_cell_eq_abortCells hs]
  obtain ⟨hseq, habort⟩ := foldl_abortStep (a.top c)
    (a.writeUnits.units.filter fun u => (a.readCells c).isSorted u.tx) (a.updaterLoop c).cells t
  refine ⟨hseq, habort.trans (or_congr_right (and_congr_left' ?_))⟩
  constructor
  · rintro ⟨u, hu, rfl⟩
    exact ⟨u, List.mem_of_mem_filter hu, rfl⟩
  · rintro ⟨u, hu, rfl⟩
    exact ⟨u, List.mem_filter.2 ⟨hu, hs⟩, rfl⟩

/-- The cell of a writer that is not sorted when the writers are. -/
theorem sort_cell_of_not_sorted (h : a.UpdatersRead) {t : TxId}
    (hs : (a.readCells c).isSorted t = false) (hw : a.Writes t) :
    ((a.sort c).2 t).aborted = false ∧ a.top c < ((a.sort c).2 t).sequence := by
  obtain ⟨l, l', hassign, hcells, hseq, hsort⟩ := a.sort_assignSpec c
  obtain ⟨u, hu, rfl⟩ := hw
  refine ⟨?_, ?_⟩
  · rw [← hsort, hassign.aborted, hcells, ← Bool.not_eq_true, abortCells,
      (foldl_abortStep _ _ _ _).2]
    rintro (habort | ⟨⟨v, hv, hvu⟩, -⟩)
    · rcases (updaterLoop_spec h).newly _ habort with habort | ⟨v, hv, hvu, -⟩
      · exact absurd (Cells.isSorted_of_aborted habort) (by simp [hs])
      · rw [List.mem_filter, hvu, hs] at hv
        exact absurd hv.2 (by simp)
    · rw [List.mem_filter, hvu, hs] at hv
      exact absurd hv.2 (by simp)
  · have := hassign.assigned u (List.mem_filter.2 ⟨hu, by simp [hs]⟩)
    rw [hseq, hsort] at this
    exact this

/-- A writer that is not sorted when the writers are gets a number that no other writer has. -/
theorem sort_fresh_ne {t u : TxId} (hs : (a.readCells c).isSorted t = false) (ht : a.Writes t)
    (hu : a.Writes u) (hne : t ≠ u) :
    ((a.sort c).2 t).sequence ≠ ((a.sort c).2 u).sequence := by
  obtain ⟨hused, hfresh⟩ := foldl_assignStep_fresh
    (a.writeUnits.units.filter fun u => !(a.readCells c).isSorted u.tx)
    ⟨a.abortCells c, a.top c + 1,
      (a.writeUnits.units.filter fun u => (a.readCells c).isSorted u.tx).map
        fun u => (a.abortCells c u.tx).sequence⟩
  obtain ⟨x, hx, rfl⟩ := ht
  obtain ⟨y, hy, rfl⟩ := hu
  have hx : x ∈ a.writeUnits.units.filter fun u => !(a.readCells c).isSorted u.tx :=
    List.mem_filter.2 ⟨hx, by simp [hs]⟩
  cases hsy : (a.readCells c).isSorted y.tx with
  | false => exact hfresh x hx y (List.mem_filter.2 ⟨hy, by simp [hsy]⟩) hne
  | true =>
    intro heq
    refine hused x hx (List.mem_map.2 ⟨y, List.mem_filter.2 ⟨hy, hsy⟩, ?_⟩)
    rw [← sort_cell_eq_abortCells hsy, ← heq]
    rfl

/-- The cell of a transaction without a write unit at the address. -/
theorem sort_cell_of_not_writes (h : a.UpdatersRead) {t : TxId} (hw : ¬a.Writes t) :
    (a.sort c).2 t = a.readCells c t := by
  obtain ⟨l, l', hassign, hcells, -, hsort⟩ := a.sort_assignSpec c
  have hloop := updaterLoop_spec (c := c) h
  have hnot : ∀ u ∈ a.writeUnits.units.filter fun u => (a.readCells c).isSorted u.tx,
      u.tx ≠ t := fun u hu htu => hw ⟨u, List.mem_of_mem_filter hu, htu⟩
  have hraised : a.raised c ≠ some t := fun hr => by
    obtain ⟨-, u, hu, htu, -⟩ := hloop.raised t hr
    exact hnot u hu htu
  have hl : (a.updaterLoop c).cells t = a.readCells c t := by
    have hseq := hloop.sequence t
    rw [if_neg hraised] at hseq
    have habort : ((a.updaterLoop c).cells t).aborted = (a.readCells c t).aborted := by
      rw [Bool.eq_iff_iff]
      refine ⟨fun habort => ?_, hloop.aborted t⟩
      rcases hloop.newly t habort with habort | ⟨u, hu, htu, -⟩
      · exact habort
      · exact absurd htu (hnot u hu)
    calc (a.updaterLoop c).cells t
        = ⟨((a.updaterLoop c).cells t).sequence, ((a.updaterLoop c).cells t).aborted⟩ := rfl
      _ = a.readCells c t := by rw [hseq, habort]
  have habort : a.abortCells c t = (a.updaterLoop c).cells t := by
    obtain ⟨hseq, habort⟩ := foldl_abortStep (a.top c)
      (a.writeUnits.units.filter fun u => (a.readCells c).isSorted u.tx) (a.updaterLoop c).cells t
    have habort' : (a.abortCells c t).aborted = ((a.updaterLoop c).cells t).aborted := by
      rw [Bool.eq_iff_iff, abortCells, habort]
      refine ⟨?_, .inl⟩
      rintro (h | ⟨⟨u, hu, htu⟩, -⟩)
      · exact h
      · exact absurd htu (hnot u hu)
    calc a.abortCells c t = ⟨(a.abortCells c t).sequence, (a.abortCells c t).aborted⟩ := rfl
      _ = (a.updaterLoop c).cells t := by rw [habort', abortCells, hseq]
  rw [← hsort, hassign.frame t fun u hu htu => hw ⟨u, List.mem_of_mem_filter hu, htu⟩, hcells,
    habort, hl]

/-- What sorting an address does to the cells. -/
structure SortSpec (a : Address) (c : Cells) (a' : Address) (c' : Cells) : Prop where
  reads : ∀ t, a'.Reads t ↔ a.Reads t
  writes : ∀ t, a'.Writes t ↔ a.Writes t
  readMaxSeq : a'.readUnits.maxSeq = a.top c + 1
  frame : ∀ t, ¬a.Reads t → ¬a.Writes t → c' t = c t
  aborted : ∀ t, (c t).aborted = true → c' t = c t
  kept : ∀ t, c.isSorted t = true →
    (c' t).sequence = if a.raised c = some t then a.readMax c + 1 else (c t).sequence
  raised : ∀ t, a.raised c = some t → (c t).sequence ≤ a.readMax c
  sorted : ∀ t, a.Reads t ∨ a.Writes t → c'.isSorted t = true
  reader_le : ∀ t, a.Reads t → (c' t).aborted = false → (c' t).sequence ≤ a.top c
  writer_ge : ∀ t, a.Writes t → (c' t).aborted = false → a.top c ≤ (c' t).sequence
  newly : ∀ t, (c' t).aborted = true → (c t).aborted = false →
    a.Writes t ∧ (c t).sequence ≤ a.top c
  eq_top : ∀ t, a.Reads t ∨ a.Writes t → (c' t).aborted = false → (c' t).sequence = a.top c →
    ((a.updaterLoop c).cells t).sequence = a.top c ∧
      ((a.updaterLoop c).cells t).aborted = false

/-- The sort keeps the readers of the address. -/
theorem sort_reads (a : Address) (c : Cells) (t : TxId) : (a.sort c).1.Reads t ↔ a.Reads t := by
  have hmem := (a.readUnits.sort_spec c).mem_units
  exact exists_congr fun u => and_congr_left' (hmem u)

/-- The sort keeps the writers of the address. -/
theorem sort_writes (a : Address) (c : Cells) (t : TxId) : (a.sort c).1.Writes t ↔ a.Writes t := by
  have hmem : ∀ u, u ∈ (a.sort c).1.writeUnits.units ↔ u ∈ a.writeUnits.units := by
    intro u
    simp only [sort, WriteUnits.sort, List.mem_append, List.mem_filter, ← and_or_left]
    cases (a.readUnits.sort c).2.isSorted u.tx <;> simp
  exact exists_congr fun u => and_congr_left' (hmem u)

section

variable {t : TxId} (h : a.UpdatersRead)

include h

theorem top_eq : a.top c = a.readMax c + if (a.raised c).isSome then 1 else 0 :=
  (updaterLoop_spec h).maxSeq

/-- The updater that is raised is a live reader. -/
theorem raised_reads (hr : a.raised c = some t) : a.Reads t ∧ (c t).aborted = false := by
  obtain ⟨hlive, u, hu, rfl, hco⟩ := (updaterLoop_spec h).raised t hr
  refine ⟨h u (List.mem_of_mem_filter hu) hco, ?_⟩
  rw [← readCells_aborted (a := a)]
  exact hlive

theorem raised_le (hr : a.raised c = some t) : (c t).sequence ≤ a.readMax c := by
  obtain ⟨hreads, hlive⟩ := raised_reads h hr
  exact (sequence_le_readCells t).trans (hreads.bounds hlive).2

/-- An aborted transaction keeps its cell. -/
theorem sort_cell_of_aborted (ha : (c t).aborted = true) : (a.sort c).2 t = c t := by
  have hs := Cells.isSorted_of_aborted ha
  have hloop := updaterLoop_spec (c := c) h
  obtain ⟨hseq, habort⟩ := sort_cell_of_sorted (a := a) (isSorted_readCells hs)
  have hr : a.raised c ≠ some t := by
    intro hr
    rw [(raised_reads h hr).2] at ha
    cases ha
  rw [hloop.sequence t, if_neg hr, readCells_of_sorted hs] at hseq
  replace habort := habort.2 (.inl (hloop.aborted t (by rw [readCells_aborted, ha])))
  calc (a.sort c).2 t = ⟨((a.sort c).2 t).sequence, ((a.sort c).2 t).aborted⟩ := rfl
    _ = c t := by rw [hseq, habort, ← ha]

/-- A transaction that is live after the sort was live before. -/
theorem live_of_sort_live (hlive : ((a.sort c).2 t).aborted = false) : (c t).aborted = false := by
  by_contra ha
  rw [Bool.not_eq_false] at ha
  rw [sort_cell_of_aborted h ha, ha] at hlive
  cases hlive

/-- A transaction of the address is sorted afterwards. -/
theorem isSorted_sort (ht : a.Reads t ∨ a.Writes t) : (a.sort c).2.isSorted t = true := by
  cases hs : (a.readCells c).isSorted t with
  | false =>
    have hw : a.Writes t := ht.resolve_left fun hr => by simp [hr.isSorted] at hs
    exact Cells.isSorted_of_pos ((Nat.zero_le _).trans_lt (sort_cell_of_not_sorted h hs hw).2)
  | true =>
    have hloop := updaterLoop_spec (c := c) h
    obtain ⟨hseq, habort⟩ := sort_cell_of_sorted hs
    cases ha : (a.readCells c t).aborted with
    | true => exact Cells.isSorted_of_aborted (habort.2 (.inl (hloop.aborted t ha)))
    | false =>
      have hpos : (a.readCells c t).sequence ≠ 0 := by simpa [Cells.isSorted, ha] using hs
      apply Cells.isSorted_of_pos
      rw [hseq, hloop.sequence t]
      split <;> omega

/-- A live reader is at most at the maximum that the writers are compared with. -/
theorem sort_reader_le (hr : a.Reads t) (hlive : ((a.sort c).2 t).aborted = false) :
    ((a.sort c).2 t).sequence ≤ a.top c := by
  have hbound := hr.bounds (live_of_sort_live h hlive)
  rw [(sort_cell_of_sorted hr.isSorted).1, (updaterLoop_spec h).sequence t, top_eq h]
  split
  · rename_i hraised
    simp [hraised]
  · omega

/-- A live writer is at least at this maximum. -/
theorem sort_writer_ge (hw : a.Writes t) (hlive : ((a.sort c).2 t).aborted = false) :
    a.top c ≤ ((a.sort c).2 t).sequence := by
  cases hs : (a.readCells c).isSorted t with
  | false => exact (sort_cell_of_not_sorted h hs hw).2.le
  | true =>
    obtain ⟨hseq, habort⟩ := sort_cell_of_sorted hs
    rw [hseq]
    by_contra hlt
    rw [habort.2 (.inr ⟨hw, not_le.1 hlt⟩)] at hlive
    cases hlive

/-- Only writers are aborted. -/
theorem sort_newly_aborted (ha : ((a.sort c).2 t).aborted = true) (hlive : (c t).aborted = false) :
    a.Writes t ∧ (c t).sequence ≤ a.top c := by
  have hloop := updaterLoop_spec (c := c) h
  have htop := top_eq (c := c) h
  have hs : (a.readCells c).isSorted t = true := by
    by_contra hs
    rw [Bool.not_eq_true] at hs
    by_cases hw : a.Writes t
    · rw [(sort_cell_of_not_sorted h hs hw).1] at ha
      cases ha
    · rw [sort_cell_of_not_writes h hw, readCells_aborted, hlive] at ha
      cases ha
  rcases (sort_cell_of_sorted hs).2.1 ha with hL | ⟨hw, hlt⟩
  · -- by the first loop, as an updater beside the raised one
    rcases hloop.newly t hL with hc | ⟨u, hu, rfl, hco⟩
    · rw [readCells_aborted, hlive] at hc
      cases hc
    · have hu := List.mem_of_mem_filter hu
      have := ((h u hu hco).bounds hlive).2
      have := sequence_le_readCells (a := a) (c := c) u.tx
      exact ⟨⟨u, hu, rfl⟩, by omega⟩
  · -- by the second loop
    refine ⟨hw, ?_⟩
    rw [hloop.sequence t] at hlt
    have := sequence_le_readCells (a := a) (c := c) t
    split at hlt
    · rename_i hr
      have := raised_le h hr
      omega
    · omega

/-- A live transaction at the maximum is at it since the first loop. -/
theorem sort_eq_top (ht : a.Reads t ∨ a.Writes t) (hlive : ((a.sort c).2 t).aborted = false)
    (hseq : ((a.sort c).2 t).sequence = a.top c) :
    ((a.updaterLoop c).cells t).sequence = a.top c ∧
      ((a.updaterLoop c).cells t).aborted = false := by
  cases hs : (a.readCells c).isSorted t with
  | false =>
    have hw : a.Writes t := ht.resolve_left fun hr => by simp [hr.isSorted] at hs
    have := (sort_cell_of_not_sorted h hs hw).2
    omega
  | true =>
    obtain ⟨hseq', habort⟩ := sort_cell_of_sorted hs
    refine ⟨hseq' ▸ hseq, ?_⟩
    by_contra hL
    rw [Bool.not_eq_false] at hL
    rw [habort.2 (.inl hL)] at hlive
    cases hlive

/-- The sort of an address does what its specification says. -/
theorem sort_spec : SortSpec a c (a.sort c).1 (a.sort c).2 where
  reads := sort_reads a c
  writes := sort_writes a c
  readMaxSeq := rfl
  frame t hr hw := by
    rw [sort_cell_of_not_writes h hw]
    exact (a.readUnits.sort_spec c).frame t fun u hu htu => hr ⟨u, hu, htu⟩
  aborted _ ha := sort_cell_of_aborted h ha
  kept t hs := by
    rw [(sort_cell_of_sorted (isSorted_readCells hs)).1, (updaterLoop_spec h).sequence t,
      readCells_of_sorted hs]
  raised _ hr := raised_le h hr
  sorted _ ht := isSorted_sort h ht
  reader_le _ hr hlive := sort_reader_le h hr hlive
  writer_ge _ hw hlive := sort_writer_ge h hw hlive
  newly _ ha hlive := sort_newly_aborted h ha hlive
  eq_top _ ht hlive hseq := sort_eq_top h ht hlive hseq

end

end Address

end Chase.Graph
