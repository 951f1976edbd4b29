import Chase.Cds.Scheduler
import Chase.Lib.Lockstep

/-!
# Epochs

The placement of candidates into epochs. The transactions of one epoch write different keys and
every candidate is in one epoch (`placeIntoEpochs_disjoint`, `placeIntoEpochs_perm`). The epochs are
filled in the order of the candidates, not of their waves, so a candidate may come to stand after a
transaction of a later wave, or before one of an earlier wave. When no placement does this for two
transactions that a relation `R` orders (`InOrder`), the epochs respect `R`
(`placeIntoEpochs_ordered`).
-/

namespace Chase.Cds

variable {α : Type}

/-- The keys of the epoch map are those that the transactions of the epoch write, and they write
different keys. -/
structure EpochInv (p : Placement α) : Prop where
  epochMap : p.epochMap = p.schedule.map fun epoch => epoch.flatMap (·.writeKeys)
  disjoint : ∀ epoch ∈ p.schedule, epoch.Pairwise fun a b => ∀ k ∈ a.writeKeys, k ∉ b.writeKeys

/-- `disjointKeys` finds a common key. -/
theorem disjointKeys_iff {a b : List H256} : disjointKeys a b = true ↔ ∀ k ∈ a, k ∉ b := by
  simp [disjointKeys]

/-- Where a candidate is placed: in an epoch that writes none of its keys, or in a new one. -/
theorem placeStep_cases {p : Placement α} (h : EpochInv p) (tx : TxWithKeys α) :
    (∃ pre epoch post, p.schedule = pre ++ epoch :: post ∧
        pre.length = findMinimumEpoch tx.readKeys tx.writeKeys p.epochMap ∧
        (∀ u ∈ epoch, ∀ k ∈ u.writeKeys, k ∉ tx.readKeys ++ tx.writeKeys) ∧
        placeStep p tx =
          { epochMap := p.epochMap.modify pre.length (· ++ tx.writeKeys)
            schedule := pre ++ (epoch ++ [tx]) :: post }) ∨
      findMinimumEpoch tx.readKeys tx.writeKeys p.epochMap = p.schedule.length ∧
        placeStep p tx = ⟨p.epochMap ++ [tx.writeKeys], p.schedule ++ [[tx]]⟩ := by
  have hlen : p.epochMap.length = p.schedule.length := by rw [h.epochMap, List.length_map]
  rw [placeStep]
  split
  · rename_i hlt
    left
    have hlt' := hlen ▸ hlt
    refine ⟨p.schedule.take (findMinimumEpoch tx.readKeys tx.writeKeys p.epochMap),
      p.schedule[findMinimumEpoch tx.readKeys tx.writeKeys p.epochMap],
      p.schedule.drop (findMinimumEpoch tx.readKeys tx.writeKeys p.epochMap + 1), ?_, ?_, ?_, ?_⟩
    · rw [← List.drop_eq_getElem_cons hlt', List.take_append_drop]
    · rw [List.length_take, min_eq_left hlt'.le]
    · have hdisj := List.findIdx_getElem (w := hlt)
      rw [disjointKeys_iff] at hdisj
      intro u hu k hk hmem
      refine hdisj k hmem ?_
      simp only [h.epochMap, List.getElem_map]
      exact List.mem_flatMap.2 ⟨u, by simpa [findMinimumEpoch, h.epochMap] using hu, hk⟩
    · rw [List.length_take, min_eq_left hlt'.le, List.modify_eq_take_cons_drop hlt']
  · rename_i hge
    have hle : findMinimumEpoch tx.readKeys tx.writeKeys p.epochMap ≤ p.epochMap.length :=
      List.findIdx_le_length
    exact .inr ⟨by omega, rfl⟩

/-- The modification of the element after a prefix. -/
theorem modify_append_cons {β : Type} (pre : List β) (b : β) (post : List β) (f : β → β) :
    (pre ++ b :: post).modify pre.length f = pre ++ f b :: post := by
  induction pre with
  | nil => rfl
  | cons _ pre ih => simp [ih]

theorem EpochInv.nil : EpochInv ({} : Placement α) := ⟨rfl, fun _ h => (nomatch h)⟩

/-- One placement keeps the epochs disjoint. -/
theorem EpochInv.placeStep {p : Placement α} (h : EpochInv p) (tx : TxWithKeys α) :
    EpochInv (placeStep p tx) := by
  rcases placeStep_cases h tx with ⟨pre, epoch, post, hsched, hlen, hdisj, heq⟩ | ⟨-, heq⟩
  · rw [heq]
    refine ⟨?_, fun e he => ?_⟩
    · have := modify_append_cons (pre.map fun epoch => epoch.flatMap (·.writeKeys))
        (epoch.flatMap (·.writeKeys)) (post.map fun epoch => epoch.flatMap (·.writeKeys))
        (· ++ tx.writeKeys)
      simpa [h.epochMap, hsched] using this
    · rw [List.mem_append, List.mem_cons] at he
      rcases he with he | rfl | he
      · exact h.disjoint e (hsched ▸ List.mem_append_left _ he)
      · have hepoch := h.disjoint epoch (hsched ▸ List.mem_append_right _ List.mem_cons_self)
        refine List.pairwise_append.2 ⟨hepoch, List.pairwise_singleton _ _, ?_⟩
        intro a ha b hb k hk
        obtain rfl := List.mem_singleton.1 hb
        exact fun hk' => hdisj a ha k hk (List.mem_append_right _ hk')
      · exact h.disjoint e (hsched ▸ List.mem_append_right _ (List.mem_cons_of_mem _ he))
  · rw [heq]
    refine ⟨by simp [h.epochMap], fun e he => ?_⟩
    rcases List.mem_append.1 he with he | he
    · exact h.disjoint e he
    · obtain rfl := List.mem_singleton.1 he
      exact List.pairwise_singleton _ _

/-- One placement adds the candidate. -/
theorem EpochInv.flatten_perm {p : Placement α} (h : EpochInv p) (tx : TxWithKeys α) :
    (Cds.placeStep p tx).schedule.flatten.Perm (p.schedule.flatten ++ [tx]) := by
  rcases placeStep_cases h tx with ⟨pre, epoch, post, hsched, -, -, heq⟩ | ⟨-, heq⟩
  · rw [heq, hsched]
    simp only [List.flatten_append, List.flatten_cons, List.append_assoc]
    exact (List.perm_append_comm.append_left epoch).append_left pre.flatten
  · rw [heq]
    simp

/-- The epochs after all placements. -/
theorem foldl_placeStep (candidates : List (TxWithKeys α)) {p : Placement α} (h : EpochInv p) :
    EpochInv (candidates.foldl placeStep p) ∧
      (candidates.foldl placeStep p).schedule.flatten.Perm (p.schedule.flatten ++ candidates) := by
  induction candidates generalizing p with
  | nil => exact ⟨h, by simp⟩
  | cons tx candidates ih =>
    obtain ⟨hinv, hperm⟩ := ih (h.placeStep tx)
    refine ⟨hinv, hperm.trans ?_⟩
    have := (h.flatten_perm tx).append_right candidates
    simpa using this

/-- Two transactions of one epoch write different keys. -/
theorem placeIntoEpochs_disjoint (candidates : List (TxWithKeys α)) :
    ∀ epoch ∈ placeIntoEpochs candidates,
      epoch.Pairwise fun a b => ∀ k ∈ a.writeKeys, k ∉ b.writeKeys :=
  (foldl_placeStep candidates .nil).1.disjoint

/-- The epochs hold the candidates. -/
theorem placeIntoEpochs_perm (candidates : List (TxWithKeys α)) :
    (placeIntoEpochs candidates).flatten.Perm candidates := by
  simpa [placeIntoEpochs] using (foldl_placeStep candidates .nil).2

/-! ## Placements that respect an order -/

section

variable (R : TxWithKeys α → TxWithKeys α → Prop)

/-- The candidate is placed after the transactions of earlier epochs and before those of later
epochs, as `R` wants them. -/
def InOrder (p : Placement α) (tx : TxWithKeys α) : Prop :=
  (∀ epoch ∈ p.schedule.take (findMinimumEpoch tx.readKeys tx.writeKeys p.epochMap),
      ∀ u ∈ epoch, R u tx) ∧
    ∀ epoch ∈ p.schedule.drop (findMinimumEpoch tx.readKeys tx.writeKeys p.epochMap + 1),
      ∀ u ∈ epoch, R tx u

instance [DecidableRel R] (p : Placement α) (tx : TxWithKeys α) : Decidable (InOrder R p tx) :=
  inferInstanceAs (Decidable (_ ∧ _))

end

variable {R : TxWithKeys α → TxWithKeys α → Prop}

/-- Transactions of different epochs are as `R` wants them. -/
def EpochsOrdered (R : TxWithKeys α → TxWithKeys α → Prop)
    (schedule : List (List (TxWithKeys α))) : Prop :=
  schedule.Pairwise fun epoch epoch' => ∀ u ∈ epoch, ∀ v ∈ epoch', R u v

/-- A placement after the epochs that a transaction has to follow keeps the order. -/
theorem EpochsOrdered.placeStep {p : Placement α} (h : EpochInv p)
    (hord : EpochsOrdered R p.schedule) {tx : TxWithKeys α} (htx : InOrder R p tx) :
    EpochsOrdered R (placeStep p tx).schedule := by
  obtain ⟨hbefore, hafter⟩ := htx
  rcases placeStep_cases h tx with ⟨pre, epoch, post, hsched, hlen, -, heq⟩ | ⟨hlen, heq⟩
  · rw [heq]
    rw [← hlen, hsched, List.take_left] at hbefore
    rw [← hlen, hsched, ← List.drop_drop, List.drop_left, List.drop_one, List.tail_cons] at hafter
    rw [EpochsOrdered, hsched, List.pairwise_append, List.pairwise_cons] at hord
    obtain ⟨hpre, ⟨hepoch, hpost⟩, hcross⟩ := hord
    rw [EpochsOrdered, List.pairwise_append, List.pairwise_cons]
    refine ⟨hpre, ⟨fun e he u hu v hv => ?_, hpost⟩, fun e he e' he' u hu v hv => ?_⟩
    · rcases List.mem_append.1 hu with hu | hu
      · exact hepoch e he u hu v hv
      · exact List.mem_singleton.1 hu ▸ hafter e he v hv
    · rcases List.mem_cons.1 he' with rfl | he'
      · rcases List.mem_append.1 hv with hv | hv
        · exact hcross e he epoch List.mem_cons_self u hu v hv
        · exact List.mem_singleton.1 hv ▸ hbefore e he u hu
      · exact hcross e he e' (List.mem_cons_of_mem _ he') u hu v hv
  · rw [heq]
    rw [hlen, List.take_length] at hbefore
    refine List.pairwise_append.2 ⟨hord, List.pairwise_singleton _ _, ?_⟩
    intro e he e' he' u hu v hv
    obtain rfl := List.mem_singleton.1 he'
    obtain rfl := List.mem_singleton.1 hv
    exact hbefore e he u hu

/-- When every placement respects `R`, the epochs do. -/
theorem placeIntoEpochs_ordered {candidates : List (TxWithKeys α)}
    (h : Lockstep.Meets placeStep (InOrder R) {} candidates) :
    EpochsOrdered R (placeIntoEpochs candidates) := by
  have hrun : ∀ (cs : List (TxWithKeys α)) (p : Placement α), EpochInv p →
      EpochsOrdered R p.schedule → Lockstep.Meets placeStep (InOrder R) p cs →
      EpochsOrdered R (cs.foldl placeStep p).schedule := by
    intro cs
    induction cs with
    | nil => exact fun _ _ hord _ => hord
    | cons tx cs ih =>
      rintro p hinv hord ⟨htx, hrest⟩
      exact ih _ (hinv.placeStep tx) (hord.placeStep hinv htx) hrest
  exact hrun candidates {} .nil List.Pairwise.nil h

end Chase.Cds
