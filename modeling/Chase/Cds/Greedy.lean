import Chase.Cds.Epochs
import Chase.Lib.LastWrite
import Mathlib.Order.Bounds.Basic

/-!
# Greedy placement

`place_into_epochs` and the loop of `schedule_conflict_zone_aborted` number the epochs as they open
them. What a placement decided is kept here beside its two vectors: the candidates that were placed,
each with the number of its epoch (`Placed`). Epoch `e` holds the candidates of number `e` in their
order, and the number of a candidate is the least one whose earlier candidates write none of its
keys (`GreedyEpochs`).
-/

namespace Chase.Cds

variable {α : Type}

/-- The earlier transaction writes no key of the later one. -/
def WritesApart (earlier later : TxWithKeys α) : Prop :=
  ∀ k ∈ earlier.writeKeys, k ∉ later.readKeys ∧ k ∉ later.writeKeys

/-- The candidates that were placed in epoch `e`, in their order. -/
def placedIn (placed : List (TxWithKeys α × Nat)) (e : Nat) : List (TxWithKeys α) :=
  (placed.filter fun x => x.2 == e).map (·.1)

/-- The numbers of the epochs in which the candidates are placed, one after the other. -/
def epochNumbers : Placement α → List (TxWithKeys α) → List Nat
  | _, [] => []
  | p, tx :: candidates =>
    findMinimumEpoch tx.readKeys tx.writeKeys p.epochMap :: epochNumbers (placeStep p tx) candidates

/-- The epochs are a greedy placement of the candidates, with the given numbers. -/
structure GreedyEpochs (candidates : List (TxWithKeys α)) (epochs : List (List (TxWithKeys α)))
    (numbers : List Nat) : Prop where
  perm : epochs.flatten.Perm candidates
  nonempty : ∀ epoch ∈ epochs, epoch ≠ []
  length : numbers.length = candidates.length
  lt : ∀ e ∈ numbers, e < epochs.length
  inOrder : epochs = (List.range epochs.length).map (placedIn (candidates.zip numbers))
  apart : ∀ epoch ∈ epochs, epoch.Pairwise WritesApart
  least : ∀ pre tx e post, candidates.zip numbers = pre ++ (tx, e) :: post →
    IsLeast {e | ∀ u ∈ placedIn pre e, WritesApart u tx} e

/-! ## The placement loop with its history -/

theorem mem_placedIn {placed : List (TxWithKeys α × Nat)} {e : Nat} {u : TxWithKeys α} :
    u ∈ placedIn placed e ↔ (u, e) ∈ placed := by
  simp [placedIn]

/-- A placed transaction joins its epoch. -/
theorem placedIn_append (placed : List (TxWithKeys α × Nat)) (tx : TxWithKeys α) (e e' : Nat) :
    placedIn (placed ++ [(tx, e)]) e' = placedIn placed e' ++ if e = e' then [tx] else [] := by
  rw [placedIn, List.filter_append, List.map_append, ← placedIn]
  by_cases h : e = e' <;> simp [h]

/-- The state of the loop after the candidates in `placed`. -/
structure Placed (p : Placement α) (placed : List (TxWithKeys α × Nat)) : Prop where
  inv : EpochInv p
  schedule : ∀ e, p.schedule[e]? = if e < p.schedule.length then some (placedIn placed e) else none
  lt : ∀ x ∈ placed, x.2 < p.schedule.length
  nonempty : ∀ epoch ∈ p.schedule, epoch ≠ []
  least : ∀ pre tx e post, placed = pre ++ (tx, e) :: post →
    IsLeast {e | ∀ u ∈ placedIn pre e, WritesApart u tx} e

/-- At the start nothing is placed. -/
theorem Placed.nil : Placed ({} : Placement α) [] :=
  ⟨.nil, fun _ => rfl, fun _ h => (nomatch h), fun _ h => (nomatch h),
    fun _ _ _ _ h => by simp at h⟩

variable {p : Placement α} {placed : List (TxWithKeys α × Nat)}

/-- Nothing was placed in an epoch that is not open yet. -/
theorem Placed.placedIn_eq_nil (h : Placed p placed) {e : Nat} (he : p.schedule.length ≤ e) :
    placedIn placed e = [] := by
  rw [placedIn, List.map_eq_nil_iff, List.filter_eq_nil_iff]
  intro x hx hxe
  have := h.lt x hx
  have := eq_of_beq hxe
  omega

/-- The keys of an epoch are those that the candidates placed in it write. -/
theorem Placed.epochMap_getElem (h : Placed p placed) {e : Nat} (he : e < p.epochMap.length) :
    p.epochMap[e] = (placedIn placed e).flatMap (·.writeKeys) := by
  have hlen : p.epochMap.length = p.schedule.length := by rw [h.inv.epochMap, List.length_map]
  have hmap : p.epochMap[e]? = some ((placedIn placed e).flatMap (·.writeKeys)) := by
    rw [h.inv.epochMap, List.getElem?_map, h.schedule, if_pos (hlen ▸ he), Option.map_some]
  exact (List.getElem?_eq_some_iff.1 hmap).2

/-- The keys of an epoch tell whether a transaction is apart from those that were placed there. -/
theorem Placed.apart_iff (h : Placed p placed) (tx : TxWithKeys α) {e : Nat}
    (he : e < p.epochMap.length) : disjointKeys (tx.readKeys ++ tx.writeKeys) p.epochMap[e] = true ↔
      ∀ u ∈ placedIn placed e, WritesApart u tx := by
  rw [disjointKeys_iff, h.epochMap_getElem he]
  constructor
  · intro hdisj u hu k hk
    have hmem : k ∈ (placedIn placed e).flatMap (·.writeKeys) := List.mem_flatMap.2 ⟨u, hu, hk⟩
    exact ⟨fun hr => hdisj k (List.mem_append_left _ hr) hmem,
      fun hw => hdisj k (List.mem_append_right _ hw) hmem⟩
  · intro hapart k hk hmem
    obtain ⟨u, hu, hku⟩ := List.mem_flatMap.1 hmem
    rcases List.mem_append.1 hk with hr | hw
    · exact (hapart u hu k hku).1 hr
    · exact (hapart u hu k hku).2 hw

/-- `find_minimum_epoch` finds the least epoch whose candidates write no key of the transaction. -/
theorem Placed.isLeast (h : Placed p placed) (tx : TxWithKeys α) :
    IsLeast {e | ∀ u ∈ placedIn placed e, WritesApart u tx}
      (findMinimumEpoch tx.readKeys tx.writeKeys p.epochMap) := by
  have hlen : p.epochMap.length = p.schedule.length := by rw [h.inv.epochMap, List.length_map]
  constructor
  · show ∀ u ∈ placedIn placed _, WritesApart u tx
    rcases Nat.lt_or_ge (findMinimumEpoch tx.readKeys tx.writeKeys p.epochMap) p.epochMap.length
      with hlt | hge
    · exact (h.apart_iff tx hlt).1 (List.findIdx_getElem (w := hlt))
    · rw [h.placedIn_eq_nil (hlen ▸ hge)]
      exact fun _ hu => (nomatch hu)
  · intro e he
    by_contra hlt
    rw [not_le] at hlt
    have hle : e < p.epochMap.length := hlt.trans_le List.findIdx_le_length
    have hnot := List.not_of_lt_findIdx hlt
    rw [(h.apart_iff tx hle).2 he] at hnot
    cases hnot

/-- The epochs after a placement. -/
theorem Placed.schedule_placeStep (h : Placed p placed) (tx : TxWithKeys α) :
    (∀ e, (placeStep p tx).schedule[e]? = if e < (placeStep p tx).schedule.length then
        some (placedIn (placed ++ [(tx, findMinimumEpoch tx.readKeys tx.writeKeys p.epochMap)]) e)
      else none) ∧
      p.schedule.length ≤ (placeStep p tx).schedule.length ∧
      findMinimumEpoch tx.readKeys tx.writeKeys p.epochMap < (placeStep p tx).schedule.length := by
  have hlen : p.epochMap.length = p.schedule.length := by rw [h.inv.epochMap, List.length_map]
  have hle : findMinimumEpoch tx.readKeys tx.writeKeys p.epochMap ≤ p.epochMap.length :=
    List.findIdx_le_length
  rw [placeStep]
  split
  · rename_i hlt
    refine ⟨fun e => ?_, ?_, ?_⟩
    · simp only [List.getElem?_modify, List.length_modify, h.schedule, placedIn_append]
      split
      · split <;> simp
      · simp
    · simp
    · simpa [← hlen] using hlt
  · rename_i hge
    have heq : findMinimumEpoch tx.readKeys tx.writeKeys p.epochMap = p.schedule.length := by omega
    refine ⟨fun e => ?_, by simp, by simp [heq]⟩
    simp only [List.length_append, List.length_singleton, placedIn_append, heq]
    rcases Nat.lt_trichotomy e p.schedule.length with hlt | rfl | hgt
    · rw [List.getElem?_append_left hlt, h.schedule, if_pos hlt, if_pos (by omega),
        if_neg (by omega), List.append_nil]
    · rw [List.getElem?_append_right le_rfl, Nat.sub_self, if_pos (by omega), if_pos rfl,
        h.placedIn_eq_nil le_rfl]
      rfl
    · rw [List.getElem?_eq_none (by simp; omega), if_neg (by omega)]

/-- One placement. -/
theorem Placed.placeStep (h : Placed p placed) (tx : TxWithKeys α) :
    Placed (placeStep p tx)
      (placed ++ [(tx, findMinimumEpoch tx.readKeys tx.writeKeys p.epochMap)]) := by
  obtain ⟨hschedule, hlength, hlt⟩ := h.schedule_placeStep tx
  refine ⟨h.inv.placeStep tx, hschedule, fun x hx => ?_, fun epoch hepoch => ?_,
    fun pre t e post heq => ?_⟩
  · rcases List.mem_append.1 hx with hx | hx
    · exact (h.lt x hx).trans_le hlength
    · rw [List.mem_singleton.1 hx]
      exact hlt
  · rcases placeStep_cases h.inv tx with ⟨pre, old, post, hsched, -, -, heq⟩ | ⟨-, heq⟩
    · rw [heq, List.mem_append, List.mem_cons] at hepoch
      rcases hepoch with hepoch | rfl | hepoch
      · exact h.nonempty epoch (hsched ▸ List.mem_append_left _ hepoch)
      · simp
      · exact h.nonempty epoch (hsched ▸ List.mem_append_right _ (List.mem_cons_of_mem _ hepoch))
    · rw [heq, List.mem_append, List.mem_singleton] at hepoch
      rcases hepoch with hepoch | rfl
      · exact h.nonempty epoch hepoch
      · simp
  · -- the last of the placed candidates is the new one, the others were placed before
    rcases LastWrite.append_singleton_eq_iff.1 heq with ⟨rfl, hlast, -⟩ | ⟨post', -, hpre⟩
    · cases hlast
      exact h.isLeast tx
    · exact h.least pre t e post' hpre

/-- The placement of a list of candidates. -/
theorem Placed.foldl (candidates : List (TxWithKeys α)) (h : Placed p placed) :
    Placed (candidates.foldl Cds.placeStep p)
      (placed ++ candidates.zip (epochNumbers p candidates)) := by
  induction candidates generalizing p placed with
  | nil => simpa [epochNumbers] using h
  | cons tx candidates ih =>
    have := ih (h.placeStep tx)
    rwa [List.append_assoc, List.singleton_append] at this

/-- Inside an epoch, the earlier transaction writes no key of the later one. -/
theorem Placed.apart (h : Placed p placed) (e : Nat) :
    (placedIn placed e).Pairwise WritesApart := by
  have hpre : ∀ pre post, placed = pre ++ post → (placedIn pre e).Pairwise WritesApart := by
    intro pre
    induction pre using List.reverseRecOn with
    | nil => exact fun _ _ => .nil
    | append_singleton pre x ih =>
      intro post heq
      rw [List.append_assoc, List.singleton_append] at heq
      obtain ⟨tx, e'⟩ := x
      rw [placedIn_append, List.pairwise_append]
      refine ⟨ih _ heq, ?_, fun u hu v hv => ?_⟩
      · split <;> simp
      · split at hv
        · rename_i he
          obtain rfl := List.mem_singleton.1 hv
          subst he
          exact (h.least pre v e' post heq).1 u hu
        · cases hv
  exact hpre placed [] (List.append_nil _).symm

/-- Every candidate gets an epoch. -/
theorem length_epochNumbers (p : Placement α) (candidates : List (TxWithKeys α)) :
    (epochNumbers p candidates).length = candidates.length := by
  induction candidates generalizing p with
  | nil => rfl
  | cons tx candidates ih => rw [epochNumbers, List.length_cons, ih, List.length_cons]

/-- `place_into_epochs` places its candidates greedily. -/
theorem placeIntoEpochs_greedy (candidates : List (TxWithKeys α)) :
    GreedyEpochs candidates (placeIntoEpochs candidates) (epochNumbers {} candidates) := by
  have h : Placed _ (candidates.zip (epochNumbers {} candidates)) := Placed.nil.foldl candidates
  have hlength := length_epochNumbers {} candidates
  have hepochs : placeIntoEpochs candidates = (List.range (placeIntoEpochs candidates).length).map
      (placedIn (candidates.zip (epochNumbers {} candidates))) := by
    refine List.ext_getElem? fun e => ?_
    rw [placeIntoEpochs, h.schedule e, List.getElem?_map]
    split
    · rename_i hlt
      rw [List.getElem?_range hlt, Option.map_some]
    · rename_i hge
      rw [List.getElem?_eq_none (by simpa using hge), Option.map_none]
  refine ⟨placeIntoEpochs_perm candidates, h.nonempty, hlength, fun e he => ?_, hepochs,
    fun epoch hepoch => ?_, h.least⟩
  · obtain ⟨i, hi⟩ := List.mem_iff_getElem?.1 he
    have hi' : i < candidates.length := hlength ▸ (List.getElem?_eq_some_iff.1 hi).1
    refine h.lt (candidates[i], e) (List.mem_of_getElem? (i := i) ?_)
    rw [List.getElem?_zip_eq_some]
    exact ⟨List.getElem?_eq_getElem hi', hi⟩
  · rw [hepochs] at hepoch
    obtain ⟨e, -, rfl⟩ := List.mem_map.1 hepoch
    exact h.apart e

/-- An epoch has its transactions in the order of the candidates. -/
theorem GreedyEpochs.sublist {candidates : List (TxWithKeys α)}
    {epochs : List (List (TxWithKeys α))} {numbers : List Nat}
    (h : GreedyEpochs candidates epochs numbers) {epoch : List (TxWithKeys α)}
    (hepoch : epoch ∈ epochs) : List.Sublist epoch candidates := by
  rw [h.inOrder] at hepoch
  obtain ⟨e, -, rfl⟩ := List.mem_map.1 hepoch
  have hfst : (candidates.zip numbers).map (·.1) = candidates := List.map_fst_zip h.length.ge
  have hsub : List.Sublist (placedIn (candidates.zip numbers) e)
      ((candidates.zip numbers).map (·.1)) := List.filter_sublist.map _
  rwa [hfst] at hsub

section

variable {candidates : List (TxWithKeys α)} {epochs : List (List (TxWithKeys α))}
  {numbers : List Nat}

/-- Epochs respect `R` when the numbers of their candidates do. -/
theorem GreedyEpochs.ordered_iff {R : TxWithKeys α → TxWithKeys α → Prop}
    (h : GreedyEpochs candidates epochs numbers) :
    EpochsOrdered R epochs ↔ ∀ x e, (x, e) ∈ candidates.zip numbers →
      ∀ y e', (y, e') ∈ candidates.zip numbers → e < e' → R x y := by
  rw [EpochsOrdered, h.inOrder, List.pairwise_map]
  constructor
  · intro hpair x e hx y e' hy hlt
    have hlen := h.lt e' (List.of_mem_zip hy).2
    refine (List.pairwise_iff_getElem.1 hpair e e' ?_ ?_ hlt) x ?_ y ?_
    · rw [List.length_range]; omega
    · rwa [List.length_range]
    · rwa [List.getElem_range, mem_placedIn]
    · rwa [List.getElem_range, mem_placedIn]
  · intro hall
    exact List.pairwise_lt_range.imp fun hlt x hx y hy =>
      hall x _ (mem_placedIn.1 hx) y _ (mem_placedIn.1 hy) hlt

/-- A candidate that no earlier one writes a key of goes into the first epoch. -/
theorem GreedyEpochs.eq_zero (h : GreedyEpochs candidates epochs numbers)
    {pre post : List (TxWithKeys α × Nat)} {x : TxWithKeys α} {e : Nat}
    (hzip : candidates.zip numbers = pre ++ (x, e) :: post)
    (hapart : ∀ v ∈ pre, WritesApart v.1 x) : e = 0 :=
  Nat.le_zero.1 ((h.least pre x e post hzip).2 fun _ hu => hapart _ (mem_placedIn.1 hu))

/-- A candidate is in another epoch than an earlier one that writes a key of it. -/
theorem GreedyEpochs.ne_of_not_apart (h : GreedyEpochs candidates epochs numbers)
    {pre post : List (TxWithKeys α × Nat)} {x y : TxWithKeys α} {e e' : Nat}
    (hzip : candidates.zip numbers = pre ++ (x, e) :: post) (hy : (y, e') ∈ pre)
    (hyx : ¬WritesApart y x) : e' ≠ e := by
  rintro rfl
  exact hyx ((h.least pre x e' post hzip).1 y (mem_placedIn.2 hy))

/-- A candidate is in a later epoch than an earlier one that writes a key of it, when whatever
pushed the earlier one out of an epoch also writes a key of the later one. -/
theorem GreedyEpochs.lt_of_pushed (h : GreedyEpochs candidates epochs numbers)
    {pre mid post : List (TxWithKeys α × Nat)} {x y : TxWithKeys α} {e e' : Nat}
    (hzip : candidates.zip numbers = (pre ++ (y, e') :: mid) ++ (x, e) :: post)
    (hyx : ¬WritesApart y x)
    (hpush : ∀ v ∈ pre, ¬WritesApart v.1 y → ¬WritesApart v.1 x) : e' < e := by
  have hne : e' ≠ e := h.ne_of_not_apart hzip (by simp) hyx
  have hle : e' ≤ e := by
    refine (h.least pre y e' (mid ++ (x, e) :: post) (by rw [hzip]; simp)).2 fun v hv => ?_
    by_contra hapart
    -- what pushes `y` out of the epoch of `x` would push `x` out of it
    have hpre : (v, e) ∈ pre := mem_placedIn.1 hv
    refine hpush _ hpre hapart ((h.least _ x e post hzip).1 v (mem_placedIn.2 ?_))
    exact List.mem_append_left _ hpre
  omega

end

/-- The epochs of `place_into_epochs`, and those of the aborted transactions in the order of their
ids, are greedy placements. -/
theorem epochs_greedy (candidates : List (TxWithKeys α)) (abortedTxs : List Graph.Transaction) :
    (∃ numbers, GreedyEpochs candidates (placeIntoEpochs candidates) numbers) ∧
      ∃ epochs numbers, GreedyEpochs
          (sortById (abortedTxs.map fun tx => TxWithKeys.fromAborted tx.toAborted)) epochs numbers ∧
        scheduleConflictZoneAborted abortedTxs = epochs.map fun epoch => epoch.map (·.payload) :=
  ⟨⟨_, placeIntoEpochs_greedy candidates⟩, _, _, placeIntoEpochs_greedy _, rfl⟩

end Chase.Cds
