import Chase.Cds.Greedy
import Chase.Core.FirstPass
import Chase.Graph.Ranks

/-!
# Commit waves in a schedule

`build_cds_schedule` flattens the waves after the first one and places their transactions into
epochs by id, each in the first epoch that writes none of its keys. So of two transactions that
write a common slot, the one of the later wave may come to stand in the earlier epoch: it has the
smaller id, or the other one was pushed further by a transaction that leaves it alone. Where neither
happens (`PlacedByNumber`), the commits keep the order of the waves (`waves_kept`).
-/

namespace Chase

open Chase.Graph Interleave

/-! ## The schedule of a map of transactions -/

section

variable (c : Cells) (txList : List Transaction)

/-- Of two transactions of the list that write a common slot, every commit applies the one of the
smaller sequence number first. -/
def KeepsWaves (s : ScheduledInfo) : Prop :=
  ∀ t ∈ txList, ∀ u ∈ txList, WritesCommonSlot t u →
    (c t.txId).sequence < (c u.txId).sequence →
      ∀ applied, s.CommitOrder applied → List.Sublist [t.toFinalized, u.toFinalized] applied

/-- Two candidates that write a common slot are in the order of their waves. -/
def InWaveOrder (a b : Cds.TxWithKeys FinalizedTransaction) : Prop :=
  ∀ t ∈ txList, ∀ u ∈ txList, t.txId = a.id → u.txId = b.id → WritesCommonSlot t u →
    (c t.txId).sequence ≤ (c u.txId).sequence

/-- The transactions of the list whose sequence number is not the lowest one. -/
def laterTxs : List Transaction :=
  txList.filter fun t => txList.any fun w =>
    decide ((c w.txId).sequence < (c t.txId).sequence)

/-- The transaction `v` writes a key that `t` reads or writes. -/
def WritesKeyOf (v t : Transaction) : Prop :=
  ∃ k ∈ v.writeKeys, k ∈ t.readKeys ∨ k ∈ t.writeKeys

instance : DecidableRel WritesKeyOf := fun v _ =>
  inferInstanceAs (Decidable (∃ k ∈ v.writeKeys, _))

/-- Of two later transactions that write a common slot, the one of the smaller number has the
smaller id, and what writes a key of it under a still smaller id also writes a key of the other one.
-/
def PlacedByNumber : Prop :=
  ∀ t ∈ laterTxs c txList, ∀ u ∈ laterTxs c txList, WritesCommonSlot t u →
    (c t.txId).sequence < (c u.txId).sequence →
      t.txId < u.txId ∧ ∀ v ∈ laterTxs c txList, v.txId < t.txId →
        WritesKeyOf v t → WritesKeyOf v u

instance : Decidable (PlacedByNumber c txList) :=
  inferInstanceAs (Decidable (∀ t ∈ laterTxs c txList, _))

end

variable {c : Cells} {txList abortedTxs : List Transaction} {s : ScheduledInfo}

/-- The order in which a commit applies two writers of a slot, when the epochs are in the order of
the waves. -/
theorem commit_inWaveOrder (hid : (txList.map (·.txId)).Nodup)
    (h : ScheduledInfo.buildCdsSchedule c txList abortedTxs = .ok s)
    (hord : Cds.EpochsOrdered (InWaveOrder c txList)
      (Cds.placeIntoEpochs (waveCandidates c txList)))
    {applied : List FinalizedTransaction} (happlied : s.CommitOrder applied) :
    applied.Pairwise fun a b => ∀ t ∈ txList, ∀ u ∈ txList, t.toFinalized = a → u.toFinalized = b →
      WritesCommonSlot t u → (c t.txId).sequence ≤ (c u.txId).sequence := by
  have hmem : ∀ {t}, t ∈ seq2plusTxs c txList → t ∈ txList := fun ht =>
    (firstEpochTxs_append_perm c txList).mem_iff.1 (List.mem_append_right _ ht)
  have hids : ∀ {t t' : Transaction}, t'.toFinalized = t.toFinalized → t'.txId = t.txId :=
    fun he => congrArg FinalizedTransaction.id he
  refine commitOrder_pairwise h ?_ ?_ ?_ ?_ happlied
  · intro t ht u hu t' _ u' _ htt huu _
    rw [hids htt, hids huu]
    exact (firstEpochTxs_sequence ht hu).le
  · intro t ht u hu t' _ u' _ htt huu _
    rw [hids htt, hids huu]
    exact sequence_le_of_mem_seq2plusTxs ht hu
  · intro epoch hepoch x hx y hy t ht u hu htx huy hslot
    by_cases htu : t = u
    · rw [htu]
    · -- two transactions of an epoch write different keys
      obtain ⟨t', ht', rfl⟩ := exists_tx_of_mem_epoch hepoch hx
      obtain ⟨u', hu', rfl⟩ := exists_tx_of_mem_epoch hepoch hy
      obtain rfl := List.inj_on_of_nodup_map hid ht (hmem ht') (hids htx)
      obtain rfl := List.inj_on_of_nodup_map hid hu (hmem hu') (hids huy)
      have hne : Cds.TxWithKeys.fromTransaction t ≠ Cds.TxWithKeys.fromTransaction u := fun he =>
        htu (List.inj_on_of_nodup_map hid ht hu (congrArg Cds.TxWithKeys.id he))
      have : Std.Symm fun a b : Cds.TxWithKeys FinalizedTransaction =>
          ∀ k ∈ a.writeKeys, k ∉ b.writeKeys := ⟨fun _ _ h k hb ha => h k ha hb⟩
      obtain ⟨k, hkt, hku⟩ := hslot.key
      exact absurd hku ((Cds.placeIntoEpochs_disjoint _ epoch hepoch).forall hx hy hne k hkt)
  · refine hord.imp_of_mem fun {e e'} he he' hee' x hx y hy t ht u hu htx huy => ?_
    obtain ⟨t', -, rfl⟩ := exists_tx_of_mem_epoch he hx
    obtain ⟨u', -, rfl⟩ := exists_tx_of_mem_epoch he' hy
    exact hee' _ hx _ hy t ht u hu (hids htx) (hids huy)

/-- Of two elements of a list, one stands before the other. -/
theorem sublist_pair {α : Type} {l : List α} {a b : α} (ha : a ∈ l) (hb : b ∈ l) (hab : a ≠ b) :
    List.Sublist [a, b] l ∨ List.Sublist [b, a] l := by
  obtain ⟨pre, post, rfl⟩ := List.append_of_mem ha
  rcases List.mem_append.1 hb with hb | hb
  · exact .inr ((List.singleton_sublist.2 hb).append (List.singleton_sublist.2 List.mem_cons_self))
  · have hpost : b ∈ post := (List.mem_cons.1 hb).resolve_left (Ne.symm hab)
    exact .inl (((List.singleton_sublist.2 hpost).cons_cons a).trans (List.sublist_append_right ..))

/-- A candidate carries the transaction of its id. -/
theorem payload_eq (hid : (txList.map (·.txId)).Nodup) {t : Transaction} (ht : t ∈ txList)
    {epoch : List (Cds.TxWithKeys FinalizedTransaction)}
    (hepoch : epoch ∈ Cds.placeIntoEpochs (waveCandidates c txList))
    {x : Cds.TxWithKeys FinalizedTransaction} (hx : x ∈ epoch) (htx : t.txId = x.id) :
    x.payload = t.toFinalized := by
  obtain ⟨t', ht', rfl⟩ := exists_tx_of_mem_epoch hepoch hx
  have hmem := (firstEpochTxs_append_perm c txList).mem_iff.1 (List.mem_append_right _ ht')
  rw [List.inj_on_of_nodup_map hid ht hmem htx]
  rfl

/-- Some commit applies two transactions in the order of their epochs. -/
theorem sublist_of_epochs (h : ScheduledInfo.buildCdsSchedule c txList abortedTxs = .ok s)
    {e e' : List (Cds.TxWithKeys FinalizedTransaction)}
    (hee' : List.Sublist [e, e'] (Cds.placeIntoEpochs (waveCandidates c txList)))
    {x y : Cds.TxWithKeys FinalizedTransaction} (hx : x ∈ e) (hy : y ∈ e') :
    List.Sublist [x.payload, y.payload] s.phases.flatten.flatten := by
  have hepochs : List.Sublist (e.map (·.payload) ++ e'.map (·.payload))
      s.conflictZoneFinalized.flatten := by
    rw [(buildCdsSchedule_zones h).2]
    have := (hee'.map fun epoch => epoch.map (·.payload)).flatten
    simpa using this
  rw [s.flatten_phases]
  have hpair : List.Sublist ([x.payload] ++ [y.payload])
      (e.map (·.payload) ++ e'.map (·.payload)) :=
    (List.singleton_sublist.2 (List.mem_map_of_mem hx)).append
      (List.singleton_sublist.2 (List.mem_map_of_mem hy))
  exact (hpair.trans hepochs).trans (List.sublist_append_right ..)

/-- The commits of a schedule keep the order of the waves of two writers of a slot exactly when the
epochs do. -/
theorem keepsWaves_iff_epochsOrdered (hid : (txList.map (·.txId)).Nodup)
    (hs : ScheduledInfo.buildCdsSchedule c txList abortedTxs = .ok s) :
    KeepsWaves c txList s ↔ Cds.EpochsOrdered (InWaveOrder c txList)
      (Cds.placeIntoEpochs (waveCandidates c txList)) := by
  constructor
  · intro hkeeps
    refine List.pairwise_iff_forall_sublist.2 fun {e e'} hee' x hx y hy => ?_
    rintro t ht u hu htx huy hslot
    by_contra hlt
    rw [not_le] at hlt
    -- the later wave is in the earlier epoch
    have hcommit := sublist_of_epochs hs hee' hx hy
    rw [payload_eq hid ht (hee'.subset (by simp)) hx htx,
      payload_eq hid hu (hee'.subset (by simp)) hy huy] at hcommit
    exact not_sublist_swap (commitOrder_nodup_ids hs hid (Phased.flatten s.phases)).of_map hcommit
      (hkeeps u hu t ht hslot.symm hlt _ (Phased.flatten s.phases))
  · intro hord t ht u hu hslot hlt applied happlied
    have hne : t.toFinalized ≠ u.toFinalized := by
      intro he
      rw [List.inj_on_of_nodup_map hid ht hu (congrArg FinalizedTransaction.id he)] at hlt
      exact Nat.lt_irrefl _ hlt
    have hperm := buildCdsSchedule_perm hs happlied
    rcases sublist_pair (hperm.mem_iff.2 (List.mem_map_of_mem ht))
      (hperm.mem_iff.2 (List.mem_map_of_mem hu)) hne with hsub | hsub
    · exact hsub
    · have hpair := (commit_inWaveOrder hid hs hord happlied).sublist hsub
      have hle := (List.pairwise_cons.1 hpair).1 _ List.mem_cons_self u hu t ht rfl rfl
        hslot.symm
      omega

/-! ## The placement by id -/

theorem mem_laterTxs {t : Transaction} : t ∈ laterTxs c txList ↔ t ∈ seq2plusTxs c txList := by
  simp [laterTxs, mem_seq2plusTxs_iff]

theorem mem_of_mem_laterTxs {t : Transaction} (ht : t ∈ laterTxs c txList) : t ∈ txList :=
  List.mem_of_mem_filter ht

/-- A candidate leaves another one alone when its transaction writes no key of the other's. -/
theorem writesApart_iff {v t : Transaction} :
    Cds.WritesApart (Cds.TxWithKeys.fromTransaction v) (Cds.TxWithKeys.fromTransaction t) ↔
      ¬WritesKeyOf v t := by
  simp only [Cds.WritesApart, Cds.TxWithKeys.fromTransaction, WritesKeyOf, not_exists, not_and,
    not_or]

/-- The candidates are the transactions of later waves. -/
theorem mem_waveCandidates {x : Cds.TxWithKeys FinalizedTransaction} :
    x ∈ waveCandidates c txList ↔
      ∃ t ∈ laterTxs c txList, Cds.TxWithKeys.fromTransaction t = x := by
  simp [waveCandidates, (Cds.sortById_perm _).mem_iff, mem_laterTxs]

/-- The candidates have different ids, in their order. -/
theorem waveCandidates_pairwise_lt (hid : (txList.map (·.txId)).Nodup) :
    (waveCandidates c txList).Pairwise fun x y => x.id < y.id := by
  have hsorted : (waveCandidates c txList).Pairwise fun x y => x.id ≤ y.id := by
    have : Std.Total fun a b : Cds.TxWithKeys FinalizedTransaction => a.id ≤ b.id :=
      ⟨fun a b => le_total a.id b.id⟩
    have : IsTrans (Cds.TxWithKeys FinalizedTransaction) fun a b => a.id ≤ b.id :=
      ⟨fun _ _ _ => le_trans⟩
    exact List.pairwise_insertionSort _ _
  have hnodup : ((waveCandidates c txList).map (·.id)).Nodup := by
    refine (((Cds.sortById_perm _).map _).nodup_iff).2 ?_
    rw [List.map_map]
    exact (((firstEpochTxs_append_perm c txList).map (·.txId)).nodup_iff.2 hid).sublist
      ((List.sublist_append_right ..).map _)
  exact (hsorted.and (List.pairwise_map.1 hnodup)).imp fun h => lt_of_le_of_ne h.1 h.2

section

variable {numbers : List Nat} {pre post : List (Cds.TxWithKeys FinalizedTransaction × Nat)}
  {x y : Cds.TxWithKeys FinalizedTransaction} {e e' : Nat}
  (hid : (txList.map (·.txId)).Nodup)
  (hlength : numbers.length = (waveCandidates c txList).length)
  (hzip : (waveCandidates c txList).zip numbers = pre ++ (x, e) :: post)
include hid hlength hzip

/-- The placed candidates stand in the order of their ids. -/
theorem pairwise_id_lt : (pre ++ (x, e) :: post).Pairwise fun a b => a.1.id < b.1.id := by
  have hpair := waveCandidates_pairwise_lt (c := c) hid
  rw [← List.map_fst_zip hlength.ge, List.pairwise_map, hzip] at hpair
  exact hpair

/-- The candidates placed before one are those of smaller ids. -/
theorem id_lt_of_mem_pre {v : Cds.TxWithKeys FinalizedTransaction × Nat} (hv : v ∈ pre) :
    v.1.id < x.id :=
  (List.pairwise_append.1 (pairwise_id_lt hid hlength hzip)).2.2 v hv _ List.mem_cons_self

/-- A candidate of a smaller id is placed before. -/
theorem mem_pre_of_id_lt (hy : (y, e') ∈ (waveCandidates c txList).zip numbers)
    (hlt : y.id < x.id) : (y, e') ∈ pre := by
  have hpair := (List.pairwise_append.1 (pairwise_id_lt hid hlength hzip)).2.1
  rw [hzip, List.mem_append, List.mem_cons] at hy
  rcases hy with hy | heq | hy
  · exact hy
  · cases heq
    exact absurd hlt (lt_irrefl _)
  · exact absurd ((List.pairwise_cons.1 hpair).1 _ hy) hlt.not_gt

end

variable {numbers : List Nat} {t u : Transaction} {e e' : Nat}

/-- A later transaction has an epoch. -/
theorem exists_number {epochs : List (List (Cds.TxWithKeys FinalizedTransaction))}
    (h : Cds.GreedyEpochs (waveCandidates c txList) epochs numbers) (ht : t ∈ laterTxs c txList) :
    ∃ e, (.fromTransaction t, e) ∈ (waveCandidates c txList).zip numbers := by
  have hmem : Cds.TxWithKeys.fromTransaction t ∈
      ((waveCandidates c txList).zip numbers).map (·.1) := by
    rw [List.map_fst_zip h.length.ge]
    exact mem_waveCandidates.2 ⟨t, ht, rfl⟩
  obtain ⟨⟨x, e⟩, hx, rfl⟩ := List.mem_map.1 hmem
  exact ⟨e, hx⟩

/-- The epochs of two later transactions, of which the second one has a key that the first one
writes, when what pushes the first one also pushes the second one. -/
theorem epoch_lt_of_pushed (hid : (txList.map (·.txId)).Nodup)
    {epochs : List (List (Cds.TxWithKeys FinalizedTransaction))}
    (h : Cds.GreedyEpochs (waveCandidates c txList) epochs numbers)
    (ht : (.fromTransaction t, e) ∈ (waveCandidates c txList).zip numbers)
    (hu : (.fromTransaction u, e') ∈ (waveCandidates c txList).zip numbers)
    (htu : WritesKeyOf t u) (hlt : t.txId < u.txId)
    (hpush : ∀ v ∈ laterTxs c txList, v.txId < t.txId → WritesKeyOf v t → WritesKeyOf v u) :
    e < e' := by
  obtain ⟨pre', post, hzip⟩ := List.append_of_mem hu
  obtain ⟨pre, mid, rfl⟩ := List.append_of_mem (mem_pre_of_id_lt hid h.length hzip ht hlt)
  have hzip' := hzip
  rw [List.append_assoc, List.cons_append] at hzip'
  refine h.lt_of_pushed hzip (fun hapart => writesApart_iff.1 hapart htu) fun v hv hvt => ?_
  obtain ⟨v', hv', heq⟩ := mem_waveCandidates.1
    (List.of_mem_zip (hzip' ▸ List.mem_append_left _ hv : v ∈ _)).1
  rw [← heq, writesApart_iff, not_not] at hvt ⊢
  have hid' := id_lt_of_mem_pre hid h.length hzip' hv
  rw [← heq] at hid'
  exact hpush v' hv' hid' hvt

/-- Where the placement by id cannot invert the numbers, the commits keep the order of the waves.
And where they keep it, a later transaction that writes a slot under a greater number and a smaller
id than another one was itself pushed by a transaction of a still smaller id. -/
theorem waves_kept (c : Cells) (txList abortedTxs : List Transaction)
    (hid : (txList.map (·.txId)).Nodup) (s : ScheduledInfo)
    (hs : ScheduledInfo.buildCdsSchedule c txList abortedTxs = .ok s) :
    (PlacedByNumber c txList → KeepsWaves c txList s) ∧
      (KeepsWaves c txList s → ∀ t ∈ laterTxs c txList, ∀ u ∈ laterTxs c txList,
        WritesCommonSlot t u → (c t.txId).sequence < (c u.txId).sequence → u.txId < t.txId →
          ∃ v ∈ laterTxs c txList, v.txId < u.txId ∧ WritesKeyOf v u) := by
  have hgreedy := Cds.placeIntoEpochs_greedy (waveCandidates c txList)
  rw [keepsWaves_iff_epochsOrdered hid hs, hgreedy.ordered_iff]
  constructor
  · intro hplaced x e hx y e' hy hlt t ht u hu htx huy hslot
    by_contra hseq
    rw [not_le] at hseq
    obtain ⟨t', ht', rfl⟩ := mem_waveCandidates.1 (List.of_mem_zip hx).1
    obtain ⟨u', hu', rfl⟩ := mem_waveCandidates.1 (List.of_mem_zip hy).1
    obtain rfl := List.inj_on_of_nodup_map hid ht (mem_of_mem_laterTxs ht') htx
    obtain rfl := List.inj_on_of_nodup_map hid hu (mem_of_mem_laterTxs hu') huy
    obtain ⟨hids, hpush⟩ := hplaced u hu' t ht' hslot.symm hseq
    obtain ⟨k, hkt, hku⟩ := hslot.key
    have := epoch_lt_of_pushed hid hgreedy hy hx ⟨k, hku, .inr hkt⟩ hids hpush
    omega
  · intro hord t ht u hu hslot hseq hids
    by_contra hnone
    simp only [not_exists, not_and] at hnone
    obtain ⟨e, hte⟩ := exists_number hgreedy ht
    obtain ⟨e', hue⟩ := exists_number hgreedy hu
    obtain ⟨pre, post, hzip⟩ := List.append_of_mem hue
    -- nothing pushes `u`, so it is in the first epoch, and `t` is in another one
    have hzero : e' = 0 := hgreedy.eq_zero hzip fun v hv => by
      obtain ⟨v', hv', heq⟩ := mem_waveCandidates.1
        (List.of_mem_zip (hzip ▸ List.mem_append_left _ hv : v ∈ _)).1
      have hlt := id_lt_of_mem_pre hid hgreedy.length hzip hv
      rw [← heq] at hlt ⊢
      exact writesApart_iff.2 (hnone v' hv' hlt)
    obtain ⟨pre', post', hzip'⟩ := List.append_of_mem hte
    have hne : e' ≠ e := by
      obtain ⟨k, hkt, hku⟩ := hslot.key
      exact hgreedy.ne_of_not_apart hzip' (mem_pre_of_id_lt hid hgreedy.length hzip' hue hids)
        fun hapart => writesApart_iff.1 hapart ⟨k, hku, .inr hkt⟩
    have := hord _ e' hue _ e hte (by omega) u (mem_of_mem_laterTxs hu) t (mem_of_mem_laterTxs ht)
      rfl rfl hslot.symm
    omega

namespace WavesFixture

open FirstPassFixture

/-- A transaction of the first wave, and two writers of the slot `5`. -/
def txs : List Transaction :=
  [keptTransaction (sim 0 [] [9]), keptTransaction (sim 1 [] [5]), keptTransaction (sim 2 [] [5])]

/-- The cells of the three transactions with the given sequence numbers. -/
def cells (sequence₁ sequence₂ : Nat) : Cells
  | 1 => { sequence := sequence₁ }
  | 2 => { sequence := sequence₂ }
  | _ => { sequence := 1 }

/-- The two zones of the schedule: one epoch for each of the two writers, by their ids. -/
def scheduledInfo : ScheduledInfo :=
  ⟨[[finalized 0 [9]]], [[finalized 1 [5]], [finalized 2 [5]]], []⟩

/-- The ids are in the order of the numbers, so the writer of the second wave is applied first. -/
theorem waves_kept_two_three :
    ScheduledInfo.buildCdsSchedule (cells 2 3) txs [] = .ok scheduledInfo ∧
      KeepsWaves (cells 2 3) txs scheduledInfo := by
  have hs : ScheduledInfo.buildCdsSchedule (cells 2 3) txs [] = .ok scheduledInfo := by decide
  exact ⟨hs, (waves_kept (cells 2 3) txs [] (by decide) scheduledInfo hs).1 (by decide)⟩

/-- The writer of the third wave has the smaller id, so it is placed first and applied first. -/
theorem waves_swapped : (txs.map (·.txId)).Nodup ∧
    ScheduledInfo.buildCdsSchedule (cells 3 2) txs [] = .ok scheduledInfo ∧
      ¬KeepsWaves (cells 3 2) txs scheduledInfo := by
  refine ⟨by decide, by decide, fun h => ?_⟩
  have hsub := h (keptTransaction (sim 2 [] [5])) (by decide) (keptTransaction (sim 1 [] [5]))
    (by decide) (by decide) (by decide) _ (Phased.flatten _)
  exact absurd hsub (by decide)

end WavesFixture

end Chase
