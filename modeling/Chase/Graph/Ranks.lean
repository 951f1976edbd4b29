import Chase.Graph.FirstUpdater
import Chase.Graph.Order

/-!
# The sequence numbers at the end of the sweep

Sorting an address puts its live readers at or below its live writers, and gives every writer that
has no number yet one that no other writer of the address has. A later step changes the number of a
sorted transaction only by raising an updater, and it does not look at the addresses before it. So
the readers of every slot stay at or below its writers when no step raises an updater above a live
transaction that writes, at an address before it, what the updater reads (`RaiseBounded`). The
writers of every slot have different numbers when no step raises an updater to the number of
another one, and no step leaves two writers that are numbered already at one number (`StepApart`).

`reorder` gives a transaction that it brings back the greatest of the maxima recorded at the
addresses it writes, which another writer may have (`RecordedApart`).

All conditions are about the cells that a step meets.
-/

namespace Chase

open Chase.Graph

/-- The first transaction reads a slot that the second one writes. -/
def ReadsSlotWritten (r w : Transaction) : Prop :=
  ∃ slot ∈ r.prevReadKeys.slots, slot ∈ w.prevWriteKeys.slots

instance : DecidableRel ReadsSlotWritten := fun _ _ => inferInstanceAs (Decidable (∃ slot ∈ _, _))

/-- The two transactions write a common slot. -/
def WritesCommonSlot (t u : Transaction) : Prop :=
  ∃ slot ∈ t.prevWriteKeys.slots, slot ∈ u.prevWriteKeys.slots

instance (t u : Transaction) : Decidable (WritesCommonSlot t u) :=
  inferInstanceAs (Decidable (∃ slot ∈ _, _))

/-- A read of a written slot is one of its key. -/
theorem ReadsSlotWritten.key {r w : Transaction} (h : ReadsSlotWritten r w) :
    ∃ k ∈ r.readKeys, k ∈ w.writeKeys := by
  obtain ⟨slot, hr, hw⟩ := h
  exact ⟨slot.2, AccessMap.mem_keys.2 ⟨slot.1, hr⟩, AccessMap.mem_keys.2 ⟨slot.1, hw⟩⟩

/-- Writes of a common slot are of its key. -/
theorem WritesCommonSlot.key {t u : Transaction} (h : WritesCommonSlot t u) :
    ∃ k ∈ t.writeKeys, k ∈ u.writeKeys := by
  obtain ⟨slot, ht, hu⟩ := h
  exact ⟨slot.2, AccessMap.mem_keys.2 ⟨slot.1, ht⟩, AccessMap.mem_keys.2 ⟨slot.1, hu⟩⟩

theorem WritesCommonSlot.symm {t u : Transaction} (h : WritesCommonSlot t u) :
    WritesCommonSlot u t := by
  obtain ⟨slot, ht, hu⟩ := h
  exact ⟨slot, hu, ht⟩

namespace Graph

open AddressBasedConflictGraph

/-! ## Readers and writers -/

section

variable (Q : TxId → TxId → Prop)

/-- The number to which the address raises an updater is not above the number of another live
transaction that writes, at a swept address, what the updater reads. -/
def RaiseBounded (done : List Address) (c : Cells) (a : Address) : Prop :=
  ∀ t ∈ a.raised c, ∀ j ∈ done, j.Reads t → ∀ w ∈ j.writeUnits.units, t ≠ w.tx → Q t w.tx →
    (c w.tx).aborted = false → a.readMax c + 1 ≤ (c w.tx).sequence

instance [DecidableRel Q] (done : List Address) (c : Cells) (a : Address) :
    Decidable (RaiseBounded Q done c a) :=
  match h : a.raised c with
  | none => .isTrue fun t ht => by simp [h] at ht
  | some t =>
    decidable_of_iff (∀ j ∈ done, j.Reads t → ∀ w ∈ j.writeUnits.units, t ≠ w.tx → Q t w.tx →
      (c w.tx).aborted = false → a.readMax c + 1 ≤ (c w.tx).sequence) (by simp [RaiseBounded, h])

/-- The live readers of the swept addresses are at or below the live writers. -/
structure ReadersBelow (done : List Address) (c : Cells) : Prop where
  sorted : AllSorted done c
  le : ∀ j ∈ done, ∀ r w, j.Reads r → j.Writes w → r ≠ w → Q r w → (c r).aborted = false →
    (c w).aborted = false → (c r).sequence ≤ (c w).sequence

/-- The number to which the address raises an updater is not the number of another live transaction
that writes, at a swept address, what the updater writes. -/
def RaiseApart (done : List Address) (c : Cells) (a : Address) : Prop :=
  ∀ t ∈ a.raised c, ∀ j ∈ done, j.Writes t → ∀ w ∈ j.writeUnits.units, t ≠ w.tx → Q t w.tx →
    (c w.tx).aborted = false → (c w.tx).sequence ≠ a.readMax c + 1

/-- Before the second loop of the writers, no two live writers of the address that are numbered
already, and not below the readers' maximum, have the same number. -/
def NumberedApart (c : Cells) (a : Address) : Prop :=
  ∀ t ∈ a.writeUnits.units, ∀ u ∈ a.writeUnits.units, t.tx ≠ u.tx → Q t.tx u.tx →
    (a.readCells c).isSorted t.tx = true → (a.readCells c).isSorted u.tx = true →
    ((a.updaterLoop c).cells t.tx).aborted = false →
    ((a.updaterLoop c).cells u.tx).aborted = false →
    a.top c ≤ ((a.updaterLoop c).cells t.tx).sequence →
      ((a.updaterLoop c).cells t.tx).sequence ≠ ((a.updaterLoop c).cells u.tx).sequence

/-- The condition on a step that keeps the writers apart. -/
def StepApart (done : List Address) (c : Cells) (a : Address) : Prop :=
  RaiseApart Q done c a ∧ NumberedApart Q c a

instance [DecidableRel Q] (done : List Address) (c : Cells) (a : Address) :
    Decidable (RaiseApart Q done c a) :=
  match h : a.raised c with
  | none => .isTrue fun t ht => by simp [h] at ht
  | some t =>
    decidable_of_iff (∀ j ∈ done, j.Writes t → ∀ w ∈ j.writeUnits.units, t ≠ w.tx → Q t w.tx →
      (c w.tx).aborted = false → (c w.tx).sequence ≠ a.readMax c + 1) (by simp [RaiseApart, h])

instance [DecidableRel Q] (c : Cells) (a : Address) : Decidable (NumberedApart Q c a) :=
  inferInstanceAs (Decidable (∀ t ∈ a.writeUnits.units, ∀ u ∈ a.writeUnits.units, _))

instance [DecidableRel Q] (done : List Address) (c : Cells) (a : Address) :
    Decidable (StepApart Q done c a) := inferInstanceAs (Decidable (_ ∧ _))

/-- The live writers of the swept addresses have different numbers. -/
structure NumbersApart (done : List Address) (c : Cells) : Prop where
  sorted : AllSorted done c
  ne : ∀ j ∈ done, ∀ t u, j.Writes t → j.Writes u → t ≠ u → Q t u → (c t).aborted = false →
    (c u).aborted = false → (c t).sequence ≠ (c u).sequence

end

variable {Q : TxId → TxId → Prop} {c : Cells} {a : Address} {done : List Address}

/-- Sorting the next address lowers no number of a sorted transaction. -/
theorem Address.SortSpec.sequence_le {a' : Address} {c' : Cells} (h : a.SortSpec c a' c') {t : TxId}
    (hs : c.isSorted t = true) : (c t).sequence ≤ (c' t).sequence := by
  rw [h.kept t hs]
  split
  · rename_i hr
    exact (h.raised t hr).trans (Nat.le_succ _)
  · exact le_rfl

/-- A step that raises no updater above a writer keeps the readers below the writers. -/
theorem ReadersBelow.sort (h : ReadersBelow Q done c) (ha : a.UpdatersRead)
    (hraise : RaiseBounded Q done c a) :
    ReadersBelow Q (done ++ [(a.sort c).1]) (a.sort c).2 := by
  have hspec := Address.sort_spec (c := c) ha
  refine ⟨h.sorted.sort ha, fun j hj r w hr hw hne hrw hrlive hwlive => ?_⟩
  rcases List.mem_append.1 hj with hj | hj
  · have hr' := hspec.live hrlive
    have hw' := hspec.live hwlive
    refine le_trans ?_ (hspec.sequence_le (h.sorted j hj w (.inr hw)))
    rw [hspec.kept r (h.sorted j hj r (.inl hr))]
    split
    · rename_i hraised
      obtain ⟨u, hu, rfl⟩ := hw
      exact hraise r hraised j hj hr u hu hne hrw hw'
    · exact h.le j hj r w hr hw hne hrw hr' hw'
  · -- at the address itself the readers' maximum separates them
    obtain rfl := List.mem_singleton.1 hj
    exact (hspec.reader_le r ((hspec.reads r).1 hr) hrlive).trans
      (hspec.writer_ge w ((hspec.writes w).1 hw) hwlive)

/-- At the address that is sorted, only writers that are numbered already can share a number. -/
theorem Address.sort_writers_ne (hapart : NumberedApart Q c a) {t u : TxId}
    (ht : a.Writes t) (hu : a.Writes u) (hne : t ≠ u) (htu : Q t u)
    (htlive : ((a.sort c).2 t).aborted = false) (hulive : ((a.sort c).2 u).aborted = false) :
    ((a.sort c).2 t).sequence ≠ ((a.sort c).2 u).sequence := by
  cases hst : (a.readCells c).isSorted t with
  | false => exact Address.sort_fresh_ne hst ht hu hne
  | true =>
    cases hsu : (a.readCells c).isSorted u with
    | false => exact (Address.sort_fresh_ne hsu hu ht hne.symm).symm
    | true =>
      obtain ⟨hseqt, habt⟩ := Address.sort_cell_of_sorted hst
      obtain ⟨hsequ, habu⟩ := Address.sort_cell_of_sorted hsu
      have hlive : ∀ {x : TxId} {p : Prop}, ((a.sort c).2 x).aborted = false →
          (((a.sort c).2 x).aborted = true ↔ p) → ¬p := by
        intro x p hx hiff hp
        rw [hiff.2 hp] at hx
        cases hx
      obtain ⟨htl, htop⟩ := not_or.1 (hlive htlive habt)
      obtain ⟨hul, -⟩ := not_or.1 (hlive hulive habu)
      rw [hseqt, hsequ]
      obtain ⟨x, hx, rfl⟩ := ht
      obtain ⟨y, hy, rfl⟩ := hu
      exact hapart x hx y hy hne htu hst hsu (by simpa using htl) (by simpa using hul)
        (Nat.le_of_not_lt fun hlt => htop ⟨⟨x, hx, rfl⟩, hlt⟩)

/-- A step that meets `StepApart` keeps the writers apart. -/
theorem NumbersApart.sort (h : NumbersApart Q done c) (hQ : ∀ t u, Q t u → Q u t)
    (ha : a.UpdatersRead) (hstep : StepApart Q done c a) :
    NumbersApart Q (done ++ [(a.sort c).1]) (a.sort c).2 := by
  have hspec := Address.sort_spec (c := c) ha
  obtain ⟨hraise, hapart⟩ := hstep
  refine ⟨h.sorted.sort ha, fun j hj t u ht hu hne htu htlive hulive => ?_⟩
  rcases List.mem_append.1 hj with hj | hj
  · have htlive := hspec.live htlive
    have hulive := hspec.live hulive
    rw [hspec.kept t (h.sorted j hj t (.inr ht)), hspec.kept u (h.sorted j hj u (.inr hu))]
    by_cases htr : a.raised c = some t
    · have hur : a.raised c ≠ some u := fun hur => hne (Option.some.inj (htr.symm.trans hur))
      rw [if_pos htr, if_neg hur]
      obtain ⟨w, hw, rfl⟩ := hu
      exact (hraise t htr j hj ht w hw hne htu hulive).symm
    · rw [if_neg htr]
      split
      · rename_i hur
        obtain ⟨w, hw, rfl⟩ := ht
        exact hraise u hur j hj hu w hw hne.symm (hQ _ _ htu) htlive
      · exact h.ne j hj t u ht hu hne htu htlive hulive
  · obtain rfl := List.mem_singleton.1 hj
    exact Address.sort_writers_ne hapart ((hspec.writes t).1 ht) ((hspec.writes u).1 hu) hne htu
      htlive hulive

/-! ## The transactions of a graph -/

/-- Two transactions of the graph that are related by `R`. -/
def Pair (R : Transaction → Transaction → Prop) (g : AddressBasedConflictGraph) (t u : TxId) :
    Prop :=
  ∃ x ∈ g.txList, ∃ y ∈ g.txList, x.txId = t ∧ y.txId = u ∧ R x y

instance (R : Transaction → Transaction → Prop) [DecidableRel R] (g : AddressBasedConflictGraph) :
    DecidableRel (Pair R g) := fun _ _ => inferInstanceAs (Decidable (∃ x ∈ _, _))

variable {kept early : List SimulatedTransaction} {g : AddressBasedConflictGraph}

/-- The order of the readers and the writers after `hierarchcial_sort`. -/
theorem Built.readersBelow (h : Built kept early g)
    (hmeets : SweepMeets (RaiseBounded Q) [] g.addressRank g.cells) :
    ReadersBelow Q g.hierarchcialSort.addresses g.hierarchcialSort.cells := by
  refine sweep_induction (fun _ _ _ ha hstep h => ReadersBelow.sort h ha hstep) []
    (fun _ ha => h.updatersRead (mem_addressRank.1 ha)) hmeets ?_
  exact ⟨fun _ h => (nomatch h), fun _ h => (nomatch h)⟩

/-- The numbers of the writers after `hierarchcial_sort`. -/
theorem Built.numbersApart (h : Built kept early g) (hQ : ∀ t u, Q t u → Q u t)
    (hmeets : SweepMeets (StepApart Q) [] g.addressRank g.cells) :
    NumbersApart Q g.hierarchcialSort.addresses g.hierarchcialSort.cells := by
  refine sweep_induction (fun _ _ _ ha hstep h => NumbersApart.sort h hQ ha hstep) []
    (fun _ ha => h.updatersRead (mem_addressRank.1 ha)) hmeets ?_
  exact ⟨fun _ h => (nomatch h), fun _ h => (nomatch h)⟩

/-- Two writers of a key meet at the address of the key. -/
theorem Built.exists_writers (h : Built kept early g) {sim sim' : SimulatedTransaction}
    (hsim : sim ∈ kept) (hsim' : sim' ∈ kept) {k : H256}
    (hk : k ∈ (keptTransaction sim).writeKeys) (hk' : k ∈ (keptTransaction sim').writeKeys) :
    ∃ a ∈ g.hierarchcialSort.addresses, a.Writes sim.id ∧ a.Writes sim'.id := by
  obtain ⟨a, ha, hw, hw'⟩ := h.exists_common hsim hsim' .write .write hk hk'
  obtain ⟨a', ha', -, -, hwrites⟩ := exists_mem_sortAll (c := g.cells) (mem_addressRank.2 ha)
  exact ⟨a', ha', (hwrites _).2 hw, (hwrites _).2 hw'⟩

end Graph

namespace AddressBasedConflictGraph

/-- A live transaction that reads a slot is not after another live transaction that writes it. -/
def ReadersFirst (g : AddressBasedConflictGraph) : Prop :=
  ∀ r ∈ g.txList, ∀ w ∈ g.txList, r.txId ≠ w.txId →
    (g.cells r.txId).aborted = false → (g.cells w.txId).aborted = false → ReadsSlotWritten r w →
      (g.cells r.txId).sequence ≤ (g.cells w.txId).sequence

/-- Two transactions that write a common slot have different numbers. -/
def WritersApart (g : AddressBasedConflictGraph) : Prop :=
  ∀ t ∈ g.txList, ∀ u ∈ g.txList, t.txId ≠ u.txId → WritesCommonSlot t u →
    (g.cells t.txId).sequence ≠ (g.cells u.txId).sequence

instance (g : AddressBasedConflictGraph) : Decidable g.ReadersFirst :=
  inferInstanceAs (Decidable (∀ r ∈ g.txList, ∀ w ∈ g.txList, _))

instance (g : AddressBasedConflictGraph) : Decidable g.WritersApart :=
  inferInstanceAs (Decidable (∀ t ∈ g.txList, ∀ u ∈ g.txList, _))

/-- The maxima recorded at the addresses that a transaction writes. -/
def recordedMaxima (g : AddressBasedConflictGraph) (tx : Transaction) : List Nat :=
  tx.writeUnits.map fun u =>
    ((getAddress g.addresses u.address).map fun a =>
      max a.writeUnits.maxSeq a.readUnits.maxSeq).getD 0

/-- A transaction that `reorder` brings back finds a recorded maximum above the number of every live
transaction that `R` relates to it, or only maxima below it. Of two that it brings back, one finds a
recorded maximum above all those of the other. -/
def RecordedApart (R : Transaction → Transaction → Prop) (g : AddressBasedConflictGraph) : Prop :=
  ∀ tx ∈ reorderTargets g, ∀ u ∈ g.txList, tx.txId ≠ u.txId → R tx u →
    ((g.cells u.txId).aborted = false →
      (∃ m ∈ g.recordedMaxima tx, (g.cells u.txId).sequence < m) ∨
        ∀ m ∈ g.recordedMaxima tx, m < (g.cells u.txId).sequence) ∧
    (u ∈ reorderTargets g →
      (∃ m ∈ g.recordedMaxima tx, ∀ n ∈ g.recordedMaxima u, n < m) ∨
        ∃ n ∈ g.recordedMaxima u, ∀ m ∈ g.recordedMaxima tx, m < n)

instance (R : Transaction → Transaction → Prop) [DecidableRel R] (g : AddressBasedConflictGraph) :
    Decidable (g.RecordedApart R) :=
  inferInstanceAs (Decidable (∀ tx ∈ reorderTargets g, ∀ u ∈ g.txList, _))

/-- The conditions under which two transactions that `R` relates get different numbers. -/
structure KeepsApart (R : Transaction → Transaction → Prop) (g : AddressBasedConflictGraph) :
    Prop where
  sweep : SweepMeets (StepApart (Pair R g)) [] g.addressRank g.cells
  recorded : g.hierarchcialSort.RecordedApart R

variable {kept early : List SimulatedTransaction} {g : AddressBasedConflictGraph}

theorem le_reorderSequence_of_mem {tx : Transaction} {m : Nat} (hm : m ∈ g.recordedMaxima tx) :
    m ≤ reorderSequence g.addresses tx :=
  (le_foldl_max _ 0).2 m hm

/-- What is above all recorded maxima is above the number that `reorder` gives. -/
theorem reorderSequence_lt {tx : Transaction} (htx : reorderable tx = true) {s : Nat}
    (h : ∀ m ∈ g.recordedMaxima tx, m < s) : reorderSequence g.addresses tx < s := by
  have hlength : 1 < tx.writeUnits.length := by
    simp only [reorderable, Bool.and_eq_true, decide_eq_true_eq] at htx
    exact htx.2
  obtain ⟨u, hu⟩ := List.exists_mem_of_length_pos (by omega : 0 < tx.writeUnits.length)
  have hpos := h _ (List.mem_map_of_mem hu)
  have hle : reorderSequence g.addresses tx ≤ s - 1 :=
    foldl_max_le (Nat.zero_le _) fun m hm => Nat.le_sub_one_of_lt (h m hm)
  omega

section

variable {R : Transaction → Transaction → Prop} (h : g.RecordedApart R) {tx u : Transaction}
  (htx : tx ∈ reorderTargets g) (hre : reorderable tx = true) (hu : u ∈ g.txList)
  (hne : tx.txId ≠ u.txId) (hR : R tx u)

include h htx hre hu hne hR

/-- The number that `reorder` gives is not the one of a live transaction. -/
theorem RecordedApart.ne_live (hlive : (g.cells u.txId).aborted = false) :
    reorderSequence g.addresses tx ≠ (g.cells u.txId).sequence := by
  rcases (h tx htx u hu hne hR).1 hlive with ⟨m, hm, hlt⟩ | hall
  · exact (hlt.trans_le (le_reorderSequence_of_mem hm)).ne'
  · exact (reorderSequence_lt hre hall).ne

/-- The numbers that `reorder` gives to two transactions are different. -/
theorem RecordedApart.ne_target (hu' : u ∈ reorderTargets g) (hre' : reorderable u = true) :
    reorderSequence g.addresses tx ≠ reorderSequence g.addresses u := by
  rcases (h tx htx u hu hne hR).2 hu' with ⟨m, hm, hall⟩ | ⟨n, hn, hall⟩
  · exact ((reorderSequence_lt hre' hall).trans_le (le_reorderSequence_of_mem hm)).ne'
  · exact ((reorderSequence_lt hre hall).trans_le (le_reorderSequence_of_mem hn)).ne

end

/-- Two scheduled transactions that write a common key and are related by `R` have different
numbers. -/
theorem KeepsApart.sequence_ne {R : Transaction → Transaction → Prop} (hapart : KeepsApart R g)
    (hsymm : ∀ t u, R t u → R u t) (hkey : ∀ t u, R t u → ∃ k ∈ t.writeKeys, k ∈ u.writeKeys)
    (h : Built kept early g) (hid : ((kept ++ early).map (·.id)).Nodup) {t u : Transaction}
    (ht : t ∈ scheduled g) (hu : u ∈ scheduled g) (hne : t.txId ≠ u.txId) (hR : R t u) :
    (g.hierarchcialSort.reorder.cells t.txId).sequence ≠
      (g.hierarchcialSort.reorder.cells u.txId).sequence := by
  have hcases : ∀ tx ∈ scheduled g, tx ∈ g.txList ∧
      ((g.hierarchcialSort.cells tx.txId).aborted = false ∨
        tx ∈ reorderTargets g.hierarchcialSort) := by
    intro tx htx
    rcases List.mem_append.1 htx with htx | htx
    · obtain ⟨hmem, hlive⟩ := List.mem_filter.1 htx
      exact ⟨hmem, .inl (by simpa using hlive)⟩
    · exact ⟨(h.mem_reorderTargets htx).1, .inr htx⟩
  obtain ⟨htmem, htcase⟩ := hcases t ht
  obtain ⟨humem, hucase⟩ := hcases u hu
  rcases htcase with htlive | httarget
  · rw [h.sequence_of_live hid htlive]
    rcases hucase with hulive | hutarget
    · -- two live transactions meet at the address of a key that both write
      rw [h.sequence_of_live hid hulive]
      have hpair : Pair R g t.txId u.txId := ⟨t, htmem, u, humem, rfl, rfl, hR⟩
      obtain ⟨sim, hsim, rfl⟩ := h.exists_sim ht
      obtain ⟨sim', hsim', rfl⟩ := h.exists_sim hu
      obtain ⟨k, hk, hk'⟩ := hkey _ _ hR
      obtain ⟨a, ha, hat, hau⟩ := h.exists_writers hsim hsim' hk hk'
      refine (h.numbersApart ?_ hapart.sweep).ne a ha _ _ hat hau hne hpair htlive hulive
      rintro x y ⟨x', hx, y', hy, hx', hy', hxy⟩
      exact ⟨y', hy, x', hx, hy', hx', hsymm _ _ hxy⟩
    · rw [h.sequence_of_target hid hutarget]
      exact (hapart.recorded.ne_live hutarget (h.mem_reorderTargets hutarget).2.2 htmem hne.symm
        (hsymm _ _ hR) htlive).symm
  · rw [h.sequence_of_target hid httarget]
    have hre := (h.mem_reorderTargets httarget).2.2
    rcases hucase with hulive | hutarget
    · rw [h.sequence_of_live hid hulive]
      exact hapart.recorded.ne_live httarget hre humem hne hR hulive
    · rw [h.sequence_of_target hid hutarget]
      exact hapart.recorded.ne_target httarget hre humem hne hR hutarget
        (h.mem_reorderTargets hutarget).2.2

/-- The readers come no later than the writers when no address of the sweep raises an updater above
a live transaction that writes, at an address before it, a slot that the updater reads. -/
theorem readersFirst {sims : List SimulatedTransaction} (hid : (sims.map (·.id)).Nodup)
    (hsweep : SweepMeets (RaiseBounded (Pair ReadsSlotWritten (construct sims))) []
      (construct sims).addressRank (construct sims).cells) :
    (construct sims).hierarchcialSort.ReadersFirst := by
  obtain ⟨kept, early, -, h, -⟩ := construct_built hid
  intro r hr w hw hne hrlive hwlive hslot
  have hpair : Pair ReadsSlotWritten (construct sims) r.txId w.txId :=
    ⟨r, hr, w, hw, rfl, rfl, hslot⟩
  have hlist : (construct sims).hierarchcialSort.txList = kept.map keptTransaction := h.txList
  rw [hlist] at hr hw
  obtain ⟨simR, hsimR, rfl⟩ := List.mem_map.1 hr
  obtain ⟨simW, hsimW, rfl⟩ := List.mem_map.1 hw
  obtain ⟨k, hkr, hkw⟩ := hslot.key
  obtain ⟨a, ha, har, haw⟩ := h.exists_address hsimR hsimW hkr hkw
  exact (h.readersBelow hsweep).le a ha _ _ har haw hne hpair hrlive hwlive

/-- The writers of a slot have different numbers when no address of the sweep raises an updater to
the number of another live writer of one of its slots or leaves two numbered writers of a slot at
one number, and no transaction is brought back to a recorded maximum that another writer has. -/
theorem writersApart {sims : List SimulatedTransaction} (hid : (sims.map (·.id)).Nodup)
    (hapart : KeepsApart WritesCommonSlot (construct sims)) :
    (construct sims).hierarchcialSort.reorder.WritersApart := by
  obtain ⟨kept, early, hperm, h, -⟩ := construct_built hid
  have hid' := (hperm.map (·.id)).nodup_iff.2 hid
  intro t ht u hu hne hslot
  rw [h.txList_reorder hid'] at ht hu
  exact hapart.sequence_ne (fun _ _ => WritesCommonSlot.symm) (fun _ _ => WritesCommonSlot.key) h
    hid' ht hu hne hslot

end AddressBasedConflictGraph

namespace RanksFixture

open AddressBasedConflictGraph

/-- The given slots of the contract `1`. -/
def access (slots : List Nat) : AccessMap := [(1, slots.map fun k => (BitVec.ofNat 256 k, 0))]

/-- A transaction that reads and writes the given slots. -/
def sim (id : TxId) (reads writes : List Nat) : SimulatedTransaction :=
  ⟨⟨access reads, access writes⟩, [], [], ⟨.ofCall 2 1 0 [] 50000 0, id⟩⟩

/-- An updater of the slot `5` that reads the slot `1`, and a writer of the slot `1`. -/
def updaterAndWriter : List SimulatedTransaction := [sim 0 [1, 5] [5], sim 1 [9] [1]]

/-- The updater is raised to the number of the writer, which is not above it. -/
theorem readersFirst_updaterAndWriter :
    (updaterAndWriter.map (·.id)).Nodup ∧
      (construct updaterAndWriter).hierarchcialSort.ReadersFirst :=
  ⟨by decide, readersFirst (by decide) (by decide)⟩

/-- A third transaction reads the slot `5` and has its number from the slot `2`. -/
def raisedReader : List SimulatedTransaction := updaterAndWriter ++ [sim 2 [5] [2]]

/-- The updater is raised above the third transaction, and with it above the writer of the slot `1`,
which it has read. -/
theorem reader_after_writer :
    (raisedReader.map (·.id)).Nodup ∧
      ¬(construct raisedReader).hierarchcialSort.ReadersFirst := by
  decide

/-- The second transaction has no number yet when it meets the first one at the slot `5`. -/
def numberedAndFresh : List SimulatedTransaction := [sim 0 [] [1, 5], sim 1 [] [5]]

/-- A numbered and a fresh writer of a key are apart. -/
theorem writersApart_numberedAndFresh :
    (numberedAndFresh.map (·.id)).Nodup ∧
      (construct numberedAndFresh).hierarchcialSort.reorder.WritersApart :=
  ⟨by decide, writersApart (by decide) ⟨by decide, by decide⟩⟩

/-- Two transactions that have the same number from different slots when they meet at the slot `5`.
-/
def twoNumbered : List SimulatedTransaction := [sim 0 [] [1, 5], sim 1 [] [2, 5]]

/-- Numbers that are there already are not compared: both writers of the slot `5` keep `2`. -/
theorem writers_share_number :
    (twoNumbered.map (·.id)).Nodup ∧
      ¬(construct twoNumbered).hierarchcialSort.reorder.WritersApart := by
  decide

end RanksFixture

end Chase
