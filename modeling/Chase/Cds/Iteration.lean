import Chase.Cds.Epochs
import Chase.Lib.Views
import Mathlib.Data.Finset.Basic

/-!
# The scheduler and the order of sets

The scheduler reads the keys of a transaction as sets: it asks whether two of them are disjoint, and
adds one to another. So its chains and epochs depend on the candidates only as far as they can be
told apart by id, key sets and payload (`TxWithKeys.view`).
-/

namespace Chase.Cds

variable {α β : Type} {f : α → β}

/-- What the scheduler sees of a candidate, with a view of its payload. -/
def TxWithKeys.view (f : α → β) (tx : TxWithKeys α) : TxId × Finset H256 × Finset H256 × β :=
  (tx.id, tx.readKeys.toFinset, tx.writeKeys.toFinset, f tx.payload)

/-- `disjointKeys` depends on the sets of the keys only. -/
theorem disjointKeys_congr {a a' b b' : List H256} (ha : a.toFinset = a'.toFinset)
    (hb : b.toFinset = b'.toFinset) : disjointKeys a b = disjointKeys a' b' := by
  have ha' : ∀ k, k ∈ a ↔ k ∈ a' := fun k => by rw [← List.mem_toFinset, ha, List.mem_toFinset]
  have hb' : ∀ k, k ∈ b ↔ k ∈ b' := fun k => by rw [← List.mem_toFinset, hb, List.mem_toFinset]
  rw [Bool.eq_iff_iff, disjointKeys_iff, disjointKeys_iff]
  simp only [ha', hb']

/-- The order by ids depends on the views only. -/
theorem map_view_sortById {txs txs' : List (TxWithKeys α)}
    (h : txs.map (·.view f) = txs'.map (·.view f)) :
    (sortById txs).map (·.view f) = (sortById txs').map (·.view f) := by
  have hsort : ∀ txs : List (TxWithKeys α), (sortById txs).map (·.view f) =
      (txs.map (·.view f)).insertionSort fun v w => v.1 ≤ w.1 := fun txs =>
    List.map_insertionSort _ _ _ txs fun _ _ _ _ => Iff.rfl
  rw [hsort, hsort, h]

/-! ## Chains -/

section

variable {txs txs' : List (TxWithKeys α)} (h : txs.map (·.view f) = txs'.map (·.view f))

include h

theorem length_eq_of_view : txs.length = txs'.length := by
  simpa using congrArg List.length h

/-- The keys at a position depend on the views only. -/
theorem toFinset_getD {keys : TxWithKeys α → List H256}
    (hkeys : ∀ tx tx', tx.view f = tx'.view f → (keys tx).toFinset = (keys tx').toFinset)
    (i : Nat) : ((txs[i]?.map keys).getD []).toFinset = ((txs'[i]?.map keys).getD []).toFinset := by
  have hi : txs[i]?.map (·.view f) = txs'[i]?.map (·.view f) := by
    rw [← List.getElem?_map, h, List.getElem?_map]
  cases hx : txs[i]? with
  | none =>
    rw [hx, Option.map_none] at hi
    rw [Option.map_eq_none_iff.1 hi.symm]
  | some tx =>
    rw [hx, Option.map_some] at hi
    obtain ⟨tx', hx', hview⟩ := Option.map_eq_some_iff.1 hi.symm
    rw [hx', Option.map_some, Option.map_some, Option.getD_some, Option.getD_some,
      hkeys tx tx' hview.symm]

/-- The dependencies depend on the views only. -/
theorem dependsOn_eq : dependsOn txs = dependsOn txs' := by
  funext i
  rw [dependsOn, dependsOn, length_eq_of_view h]
  refine List.filter_congr fun j _ => ?_
  rw [disjointKeys_congr (toFinset_getD h (fun _ _ hview => congrArg (·.2.1) hview) i)
    (toFinset_getD h (fun _ _ hview => congrArg (·.2.2.1) hview) j)]

/-- The chains depend on the views only. -/
theorem buildConflictFreeChainIndices_eq :
    buildConflictFreeChainIndices txs = buildConflictFreeChainIndices txs' := by
  rw [buildConflictFreeChainIndices, buildConflictFreeChainIndices, dependsOn_eq h,
    length_eq_of_view h]

end

/-! ## Epochs -/

/-- Two placements with the same epochs. -/
structure SamePlacement (f : α → β) (p p' : Placement α) : Prop where
  epochMap : p.epochMap.map List.toFinset = p'.epochMap.map List.toFinset
  schedule : p.schedule.map (List.map (·.view f)) = p'.schedule.map (List.map (·.view f))

/-- A step of the placement takes the same placement to the same placement. -/
theorem SamePlacement.placeStep {p p' : Placement α} (h : SamePlacement f p p')
    {tx tx' : TxWithKeys α} (htx : tx.view f = tx'.view f) :
    SamePlacement f (placeStep p tx) (placeStep p' tx') := by
  have hreads : tx.readKeys.toFinset = tx'.readKeys.toFinset := congrArg (·.2.1) htx
  have hwrites : tx.writeKeys.toFinset = tx'.writeKeys.toFinset := congrArg (·.2.2.1) htx
  have hepoch : findMinimumEpoch tx.readKeys tx.writeKeys p.epochMap =
      findMinimumEpoch tx'.readKeys tx'.writeKeys p'.epochMap := by
    refine Views.findIdx_eq (fun writes writes' hw => disjointKeys_congr ?_ hw) h.epochMap
    rw [List.toFinset_append, List.toFinset_append, hreads, hwrites]
  have hlength : p.epochMap.length = p'.epochMap.length := by
    simpa using congrArg List.length h.epochMap
  rw [Cds.placeStep, Cds.placeStep, hepoch, hlength]
  split
  · constructor
    · have hmodify : ∀ (keys : List H256) (epochs : List (List H256)) (i : Nat),
          (epochs.modify i (· ++ keys)).map List.toFinset =
            (epochs.map List.toFinset).modify i (· ∪ keys.toFinset) := fun keys epochs i =>
        Views.map_modify (fun _ => by rw [List.toFinset_append]) i epochs
      rw [hmodify, hmodify, h.epochMap, hwrites]
    · have hmodify : ∀ (tx : TxWithKeys α) (epochs : List (List (TxWithKeys α))) (i : Nat),
          (epochs.modify i (· ++ [tx])).map (List.map (·.view f)) =
            (epochs.map (List.map (·.view f))).modify i (· ++ [tx.view f]) := fun tx epochs i =>
        Views.map_modify (fun _ => by rw [List.map_append, List.map_singleton]) i epochs
      rw [hmodify, hmodify, h.schedule, htx]
  · constructor
    · rw [List.map_append, List.map_append, h.epochMap, List.map_singleton, List.map_singleton,
        hwrites]
    · rw [List.map_append, List.map_append, h.schedule]
      simp only [List.map_singleton, htx]

/-- The epochs depend on what the scheduler sees. -/
theorem map_view_placeIntoEpochs {txs txs' : List (TxWithKeys α)}
    (h : txs.map (·.view f) = txs'.map (·.view f)) :
    (placeIntoEpochs txs).map (List.map (·.view f)) =
      (placeIntoEpochs txs').map (List.map (·.view f)) := by
  have hfold : ∀ p p' : Placement α, SamePlacement f p p' →
      SamePlacement f (txs.foldl Cds.placeStep p) (txs'.foldl Cds.placeStep p') := by
    induction txs generalizing txs' with
    | nil =>
      rw [List.map_eq_nil_iff.1 h.symm]
      exact fun _ _ hp => hp
    | cons tx txs ih =>
      cases txs' with
      | nil => cases h
      | cons tx' txs' =>
        obtain ⟨hhead, htail⟩ := List.cons.inj h
        exact fun p p' hp => ih htail _ _ (hp.placeStep hhead)
  exact (hfold {} {} ⟨rfl, rfl⟩).schedule

/-- The epochs depend on the views only. -/
theorem map_payload_placeIntoEpochs {txs txs' : List (TxWithKeys α)}
    (h : txs.map (·.view f) = txs'.map (·.view f)) :
    (placeIntoEpochs txs).map (List.map fun tx => f tx.payload) =
      (placeIntoEpochs txs').map (List.map fun tx => f tx.payload) := by
  have hview := congrArg (List.map (List.map (·.2.2.2))) (map_view_placeIntoEpochs h)
  simpa only [List.map_map, List.map_comp_map, Function.comp_def, TxWithKeys.view] using hview

end Chase.Cds
