import Chase.Graph.Sort

/-!
# The sweep over the addresses

`hierarchcial_sort` sorts the addresses one after the other. After an address is sorted, a live
reader of it should stay below the other transactions that write it; for an aborted writer, which
`reorder` may bring back, this means below the maximum that is recorded at an address it writes
(`Below`). Two branches of the source can break this:

* a writer that already has a sequence number is aborted only when it is strictly below the readers'
  maximum, so it stays beside a reader with the same number (`Address.TieFree`);
* an updater is raised above the readers of the address that is sorted, and the addresses before it,
  which the updater may read, are not looked at again (`RaiseSafe`).

In a sweep whose steps meet both conditions the order holds at every swept address
(`swept_sortAll`). A weaker condition (`RaiseUntied`) keeps a reader and another writer of a swept
address from having the same number (`untied_sortAll`). The predicate `P` restricts all of this to
some of the transactions.
-/

namespace Chase.Graph

open AddressBasedConflictGraph (sortAll)

/-- The number `s` is below the transaction `t`. -/
def Below (done : List Address) (c : Cells) (s : Nat) (t : TxId) : Prop :=
  if (c t).aborted = true then ∃ j ∈ done, j.Writes t ∧ s < j.readUnits.maxSeq
  else s < (c t).sequence

instance (done : List Address) (c : Cells) (s : Nat) (t : TxId) : Decidable (Below done c s t) :=
  if h : (c t).aborted = true then
    decidable_of_iff (∃ j ∈ done, j.Writes t ∧ s < j.readUnits.maxSeq) (by simp [Below, h])
  else decidable_of_iff (s < (c t).sequence) (by simp [Below, h])

/-! ## Sweeps -/

/-- The condition `C` holds at every step of the sweep, on the swept addresses, the cells and the
address that is sorted next. -/
def SweepMeets (C : List Address → Cells → Address → Prop) :
    List Address → List Address → Cells → Prop
  | _, [], _ => True
  | done, a :: as, c => C done c a ∧ SweepMeets C (done ++ [(a.sort c).1]) as (a.sort c).2

instance decidableSweepMeets {C : List Address → Cells → Address → Prop}
    [∀ done c a, Decidable (C done c a)] :
    ∀ (done as : List Address) (c : Cells), Decidable (SweepMeets C done as c)
  | _, [], _ => .isTrue trivial
  | done, a :: as, c =>
    have := decidableSweepMeets (C := C) (done ++ [(a.sort c).1]) as (a.sort c).2
    inferInstanceAs (Decidable (_ ∧ _))

/-- What every step that meets `C` keeps, the sweep keeps. -/
theorem sweep_induction {C : List Address → Cells → Address → Prop}
    {Inv : List Address → Cells → Prop}
    (hstep : ∀ done c a, a.UpdatersRead → C done c a → Inv done c →
      Inv (done ++ [(a.sort c).1]) (a.sort c).2)
    (done : List Address) {as : List Address} {c : Cells} (has : ∀ a ∈ as, a.UpdatersRead)
    (hmeets : SweepMeets C done as c) (h : Inv done c) :
    Inv (done ++ (sortAll as c).1) (sortAll as c).2 := by
  induction as generalizing done c with
  | nil => simpa [sortAll] using h
  | cons a as ih =>
    obtain ⟨ha, hrest⟩ := hmeets
    have := ih _ (fun a ha => has a (List.mem_cons_of_mem _ ha)) hrest
      (hstep done c a (has a List.mem_cons_self) ha h)
    rwa [List.append_assoc] at this

/-! ## The conditions on a step -/

section

variable (P : TxId → Prop)

/-- Before the second loop of the writers, no live writer and no other live reader of the address
are both at the readers' maximum. -/
def Address.TieFree (a : Address) (c : Cells) : Prop :=
  ∀ w ∈ a.writeUnits.units, ∀ u ∈ a.readUnits.units, u.tx ≠ w.tx → P u.tx → P w.tx →
    ((a.updaterLoop c).cells w.tx).aborted = false →
    ((a.updaterLoop c).cells u.tx).aborted = false →
    ¬(((a.updaterLoop c).cells w.tx).sequence = a.top c ∧
      ((a.updaterLoop c).cells u.tx).sequence = a.top c)

/-- The new sequence number of the updater that the address raises is below the other writers of
every swept address that the updater reads. -/
def RaiseSafe (done : List Address) (c : Cells) (a : Address) : Prop :=
  ∀ t ∈ a.raised c, P t → ∀ j ∈ done, j.Reads t → ∀ w ∈ j.writeUnits.units, w.tx ≠ t → P w.tx →
    Below done c (a.readMax c + 1) w.tx

/-- The new sequence number of the updater that the address raises is not the one of another live
transaction that, at a swept address, writes what the updater reads or reads what it writes. -/
def RaiseUntied (done : List Address) (c : Cells) (a : Address) : Prop :=
  ∀ t ∈ a.raised c, P t → ∀ j ∈ done,
    (j.Reads t → ∀ w ∈ j.writeUnits.units, w.tx ≠ t → P w.tx → (c w.tx).aborted = false →
      (c w.tx).sequence ≠ a.readMax c + 1) ∧
    (j.Writes t → ∀ u ∈ j.readUnits.units, u.tx ≠ t → P u.tx → (c u.tx).aborted = false →
      (c u.tx).sequence ≠ a.readMax c + 1)

/-- The condition on a step that keeps the order. -/
def StepOrdered (done : List Address) (c : Cells) (a : Address) : Prop :=
  RaiseSafe P done c a ∧ a.TieFree P c

/-- The condition on a step that keeps readers and writers apart. -/
def StepUntied (done : List Address) (c : Cells) (a : Address) : Prop :=
  RaiseUntied P done c a ∧ a.TieFree P c

instance [DecidablePred P] (a : Address) (c : Cells) : Decidable (a.TieFree P c) :=
  inferInstanceAs (Decidable (∀ w ∈ a.writeUnits.units, ∀ u ∈ a.readUnits.units, _))

instance [DecidablePred P] (done : List Address) (c : Cells) (a : Address) :
    Decidable (RaiseSafe P done c a) :=
  match h : a.raised c with
  | none => .isTrue fun t ht => by simp [h] at ht
  | some t =>
    decidable_of_iff (P t → ∀ j ∈ done, j.Reads t → ∀ w ∈ j.writeUnits.units, w.tx ≠ t → P w.tx →
      Below done c (a.readMax c + 1) w.tx) (by simp [RaiseSafe, h])

instance [DecidablePred P] (done : List Address) (c : Cells) (a : Address) :
    Decidable (RaiseUntied P done c a) :=
  match h : a.raised c with
  | none => .isTrue fun t ht => by simp [h] at ht
  | some t =>
    decidable_of_iff (P t → ∀ j ∈ done,
      (j.Reads t → ∀ w ∈ j.writeUnits.units, w.tx ≠ t → P w.tx → (c w.tx).aborted = false →
        (c w.tx).sequence ≠ a.readMax c + 1) ∧
      (j.Writes t → ∀ u ∈ j.readUnits.units, u.tx ≠ t → P u.tx → (c u.tx).aborted = false →
        (c u.tx).sequence ≠ a.readMax c + 1)) (by simp [RaiseUntied, h])

instance [DecidablePred P] (done : List Address) (c : Cells) (a : Address) :
    Decidable (StepOrdered P done c a) := inferInstanceAs (Decidable (_ ∧ _))

instance [DecidablePred P] (done : List Address) (c : Cells) (a : Address) :
    Decidable (StepUntied P done c a) := inferInstanceAs (Decidable (_ ∧ _))

/-- The transactions of the swept addresses are sorted. -/
def AllSorted (done : List Address) (c : Cells) : Prop :=
  ∀ j ∈ done, ∀ t, j.Reads t ∨ j.Writes t → c.isSorted t = true

/-- The order that the sweep keeps at the swept addresses. -/
structure Swept (done : List Address) (c : Cells) : Prop where
  sorted : AllSorted done c
  below : ∀ j ∈ done, ∀ r w, j.Reads r → j.Writes w → r ≠ w → P r → P w →
    (c r).aborted = false → Below done c (c r).sequence w

/-- A live reader and another live writer of a swept address have different numbers. -/
structure Untied (done : List Address) (c : Cells) : Prop where
  sorted : AllSorted done c
  ne : ∀ j ∈ done, ∀ r w, j.Reads r → j.Writes w → r ≠ w → P r → P w →
    (c r).aborted = false → (c w).aborted = false → (c r).sequence ≠ (c w).sequence

end

variable {P : TxId → Prop} {done : List Address} {c : Cells} {a : Address}

/-- What is below a swept transaction stays below it when the next address is sorted. -/
theorem Below.sort (ha : a.UpdatersRead) {s : Nat} {w : TxId} (hw : c.isSorted w = true)
    (h : Below done c s w) : Below (done ++ [(a.sort c).1]) (a.sort c).2 s w := by
  have hspec := Address.sort_spec (c := c) ha
  unfold Below at h ⊢
  cases hab : (c w).aborted with
  | true =>
    rw [if_pos hab] at h
    obtain ⟨j, hj, hjw, hlt⟩ := h
    rw [hspec.aborted w hab, if_pos hab]
    exact ⟨j, List.mem_append_left _ hj, hjw, hlt⟩
  | false =>
    rw [if_neg (by simp [hab])] at h
    split
    · rename_i hab'
      obtain ⟨haw, hle⟩ := hspec.newly w hab' hab
      refine ⟨(a.sort c).1, by simp, (hspec.writes w).2 haw, ?_⟩
      rw [hspec.readMaxSeq]
      omega
    · rw [hspec.kept w hw]
      split
      · rename_i hr
        have := hspec.raised w hr
        omega
      · exact h

/-- A transaction that is live after a sort was live before. -/
theorem Address.SortSpec.live {a' : Address} {c' : Cells} (h : a.SortSpec c a' c') {t : TxId}
    (hlive : (c' t).aborted = false) : (c t).aborted = false := by
  by_contra hab
  rw [Bool.not_eq_false] at hab
  rw [h.aborted t hab, hab] at hlive
  cases hlive

/-- A sort keeps the sorted ones sorted. -/
theorem Address.SortSpec.isSorted {a' : Address} {c' : Cells} (h : a.SortSpec c a' c') {t : TxId}
    (hs : c.isSorted t = true) : c'.isSorted t = true := by
  cases hab : (c t).aborted with
  | true => rwa [Cells.isSorted, h.aborted t hab]
  | false =>
    have hpos : (c t).sequence ≠ 0 := by simpa [Cells.isSorted, hab] using hs
    apply Cells.isSorted_of_pos
    rw [h.kept t hs]
    split <;> omega

/-- A sort leaves the transactions of its address sorted. -/
theorem AllSorted.sort (h : AllSorted done c) (ha : a.UpdatersRead) :
    AllSorted (done ++ [(a.sort c).1]) (a.sort c).2 := by
  have hspec := Address.sort_spec (c := c) ha
  intro j hj t ht
  rcases List.mem_append.1 hj with hj | hj
  · exact hspec.isSorted (h j hj t ht)
  · obtain rfl := List.mem_singleton.1 hj
    exact hspec.sorted t (ht.imp (hspec.reads t).1 (hspec.writes t).1)

/-- At the address that is sorted, a live reader ends below every other live writer. -/
theorem Address.sort_lt (ha : a.UpdatersRead) (htie : a.TieFree P c) {r w : TxId} (hr : a.Reads r)
    (hw : a.Writes w) (hne : r ≠ w) (hPr : P r) (hPw : P w)
    (hrlive : ((a.sort c).2 r).aborted = false) (hwlive : ((a.sort c).2 w).aborted = false) :
    ((a.sort c).2 r).sequence < ((a.sort c).2 w).sequence := by
  have hspec := Address.sort_spec (c := c) ha
  have hle := hspec.reader_le r hr hrlive
  have hge := hspec.writer_ge w hw hwlive
  by_contra hlt
  obtain ⟨h1, h2⟩ := hspec.eq_top r (.inl hr) hrlive (by omega)
  obtain ⟨h3, h4⟩ := hspec.eq_top w (.inr hw) hwlive (by omega)
  obtain ⟨u, hu, rfl⟩ := hr
  obtain ⟨v, hv, rfl⟩ := hw
  exact htie v hv u hu hne hPr hPw h4 h2 ⟨h3, h1⟩

/-- One step of the sweep keeps the order. -/
theorem Swept.sort (h : Swept P done c) (ha : a.UpdatersRead) (hstep : StepOrdered P done c a) :
    Swept P (done ++ [(a.sort c).1]) (a.sort c).2 := by
  have hspec := Address.sort_spec (c := c) ha
  obtain ⟨hraise, htie⟩ := hstep
  refine ⟨h.sorted.sort ha, fun j hj r w hr hw hne hPr hPw hlive => ?_⟩
  rcases List.mem_append.1 hj with hj | hj
  · have hb : Below done c ((a.sort c).2 r).sequence w := by
      rw [hspec.kept r (h.sorted j hj r (.inl hr))]
      split
      · rename_i hraised
        obtain ⟨u, hu, rfl⟩ := hw
        exact hraise r hraised hPr j hj hr u hu hne.symm hPw
      · exact h.below j hj r w hr hw hne hPr hPw (hspec.live hlive)
    exact hb.sort ha (h.sorted j hj w (.inr hw))
  · obtain rfl := List.mem_singleton.1 hj
    have hr := (hspec.reads r).1 hr
    unfold Below
    split
    · refine ⟨(a.sort c).1, by simp, hw, ?_⟩
      rw [hspec.readMaxSeq]
      exact Nat.lt_succ_of_le (hspec.reader_le r hr hlive)
    · rename_i hwlive
      rw [Bool.not_eq_true] at hwlive
      exact Address.sort_lt ha htie hr ((hspec.writes w).1 hw) hne hPr hPw hlive hwlive

/-- One step of the sweep keeps readers and writers apart. -/
theorem Untied.sort (h : Untied P done c) (ha : a.UpdatersRead) (hstep : StepUntied P done c a) :
    Untied P (done ++ [(a.sort c).1]) (a.sort c).2 := by
  have hspec := Address.sort_spec (c := c) ha
  obtain ⟨hraise, htie⟩ := hstep
  refine ⟨h.sorted.sort ha, fun j hj r w hr hw hne hPr hPw hrlive hwlive => ?_⟩
  rcases List.mem_append.1 hj with hj | hj
  · have hrlive := hspec.live hrlive
    have hwlive := hspec.live hwlive
    rw [hspec.kept r (h.sorted j hj r (.inl hr)), hspec.kept w (h.sorted j hj w (.inr hw))]
    by_cases hrr : a.raised c = some r
    · have hwr : a.raised c ≠ some w := fun hwr => hne (Option.some.inj (hrr.symm.trans hwr))
      rw [if_pos hrr, if_neg hwr]
      obtain ⟨u, hu, rfl⟩ := hw
      exact ((hraise r hrr hPr j hj).1 hr u hu hne.symm hPw hwlive).symm
    · rw [if_neg hrr]
      split
      · rename_i hwr
        obtain ⟨u, hu, rfl⟩ := hr
        exact (hraise w hwr hPw j hj).2 hw u hu hne hPr hrlive
      · exact h.ne j hj r w hr hw hne hPr hPw hrlive hwlive
  · obtain rfl := List.mem_singleton.1 hj
    exact (Address.sort_lt ha htie ((hspec.reads r).1 hr) ((hspec.writes w).1 hw) hne hPr hPw
      hrlive hwlive).ne

/-- The sweep over a list of addresses keeps the order. -/
theorem swept_sortAll {as : List Address} (has : ∀ a ∈ as, a.UpdatersRead)
    (hmeets : SweepMeets (StepOrdered P) [] as c) : Swept P (sortAll as c).1 (sortAll as c).2 := by
  refine sweep_induction (fun _ _ _ ha hstep h => Swept.sort h ha hstep) [] has hmeets ?_
  exact ⟨fun _ h => (nomatch h), fun _ h => (nomatch h)⟩

/-- The sweep over a list of addresses keeps readers and writers apart. -/
theorem untied_sortAll {as : List Address} (has : ∀ a ∈ as, a.UpdatersRead)
    (hmeets : SweepMeets (StepUntied P) [] as c) : Untied P (sortAll as c).1 (sortAll as c).2 := by
  refine sweep_induction (fun _ _ _ ha hstep h => Untied.sort h ha hstep) [] has hmeets ?_
  exact ⟨fun _ h => (nomatch h), fun _ h => (nomatch h)⟩

end Chase.Graph
