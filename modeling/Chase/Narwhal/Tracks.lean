import Chase.Narwhal.Dag

/-!
# The DAG of a validator

A validator's DAG holds the certificates that it was fed above the garbage collection round
(`Tracks`), and every round of it but the lowest has the round before (`Contiguous`). Inserting a
certificate and committing one keep this. A certificate whose parents the validator was fed passes
`check_parents`, unless it has no parents and its round before is missing. What
`process_certificate` does with a certificate that it has inserted is a rule
(`Tusk.processCertificate_rule`).
-/

namespace Chase.Narwhal

/-- The DAG of a validator is what it was fed, above the garbage collection round. -/
structure Tracks (gcDepth : Nat) (fed : List Certificate) (state : ConsensusState) : Prop where
  mem : ∀ r c, c ∈ state.dag.values r ↔ c ∈ fed ∧ c.round = r ∧ state.lastRound.gcRound < r
  nodup : ∀ r, ((state.dag.values r).map (·.origin)).Nodup
  gcRound_eq : state.lastRound.gcRound = gcRound state.lastRound.committedRound gcDepth
  depth : state.gcDepth = gcDepth

/-- No round of the DAG is missing between the garbage collection round and another one. -/
def Contiguous (state : ConsensusState) : Prop :=
  ∀ r, state.lastRound.gcRound + 1 < r → state.dag r ≠ none → state.dag (r - 1) ≠ none

variable {gcDepth : Nat} {fed : List Certificate} {state state' : ConsensusState} {c : Certificate}

/-- A new state has been fed nothing. -/
theorem Tracks.new (gcDepth : Nat) : Tracks gcDepth [] { gcDepth } :=
  ⟨fun _ _ => ⟨nofun, fun h => nomatch h.1⟩, fun _ => List.nodup_nil, (Nat.zero_sub gcDepth).symm,
    rfl⟩

theorem Tracks.gcRound_le (h : Tracks gcDepth fed state) :
    state.lastRound.gcRound ≤ state.lastRound.committedRound := by
  rw [h.gcRound_eq]
  exact Nat.sub_le _ _

/-- A round with a certificate has a table. -/
theorem Dag.eq_some_of_mem {dag : Dag} {r : Nat} (h : c ∈ dag.values r) :
    dag r = some (dag.values r) := by
  rw [Dag.values] at h ⊢
  cases hr : dag r with
  | none =>
    rw [hr] at h
    cases h
  | some table => rfl

/-- A new table replaces the one of its round. -/
theorem Dag.values_update (dag : Dag) (r r' : Nat) (table : List Certificate) :
    Dag.values (Function.update dag r (some table)) r' =
      if r' = r then table else dag.values r' := by
  rw [Dag.values]
  split
  · rename_i heq
    rw [heq, Function.update_self, Option.getD_some]
  · rename_i hne
    rw [Function.update_of_ne hne, Dag.values]

/-! ## Inserting a certificate -/

/-- When the parents were fed, `check_parents` panics only on a missing round. -/
theorem Tracks.checkParents (h : Tracks gcDepth fed state)
    (hparents : 2 ≤ c.round → ∀ digest ∈ c.parents,
      ∃ p ∈ fed, p.digest = digest ∧ p.round + 1 = c.round) :
    state.checkParents c = .ok () ∨
      (2 ≤ c.round ∧ c.parents = []) ∧ state.checkParents c = .error (.parentRoundNotFound c) := by
  rw [ConsensusState.checkParents]
  split
  · exact .inl rfl
  · rename_i hgc
    have hround : 2 ≤ c.round := by omega
    -- a parent that the validator was fed is in the table of the round before
    have htable : ∀ digest ∈ c.parents, ∃ p ∈ state.dag.values (c.round - 1),
        p.digest = digest := by
      intro digest hdigest
      obtain ⟨p, hp, hpd, hpr⟩ := hparents hround digest hdigest
      exact ⟨p, (h.mem _ p).2 ⟨hp, by omega, by omega⟩, hpd⟩
    cases hdag : state.dag (c.round - 1) with
    | none =>
      refine .inr ⟨⟨hround, List.eq_nil_iff_forall_not_mem.2 fun digest hdigest => ?_⟩, rfl⟩
      obtain ⟨p, hp, -⟩ := htable digest hdigest
      rw [Dag.values, hdag] at hp
      cases hp
    | some table =>
      have hvalues : state.dag.values (c.round - 1) = table := by rw [Dag.values, hdag]; rfl
      have hnone : c.parents.find? (fun parent => !table.any (·.digest = parent)) = none := by
        rw [List.find?_eq_none]
        intro digest hdigest
        obtain ⟨p, hp, rfl⟩ := htable digest hdigest
        simp only [Bool.not_eq_true', Bool.not_eq_false, List.any_eq_true, decide_eq_true_eq]
        exact ⟨p, hvalues ▸ hp, rfl⟩
      left
      simp only [hnone]

/-- A certificate whose parents are missing is not inserted. -/
theorem tryInsert_error {fault : Fault} (hcheck : state.checkParents c = .error fault) :
    state.tryInsert c = .error fault := by
  have hgc : ¬c.round ≤ state.lastRound.gcRound := by
    intro hle
    rw [ConsensusState.checkParents, if_pos (by omega)] at hcheck
    cases hcheck
  rw [ConsensusState.tryInsert, if_neg hgc, hcheck]
  rfl

/-- A certificate up to the garbage collection round does not count. -/
theorem Tracks.cons_of_le (h : Tracks gcDepth fed state) (hgc : c.round ≤ state.lastRound.gcRound) :
    Tracks gcDepth (c :: fed) state := by
  refine ⟨fun r d => ?_, h.nodup, h.gcRound_eq, h.depth⟩
  rw [h.mem, List.mem_cons]
  constructor
  · exact fun ⟨hd, hr⟩ => ⟨.inr hd, hr⟩
  · rintro ⟨rfl | hd, rfl, hr⟩
    · omega
    · exact ⟨hd, rfl, hr⟩

/-- The table of a round after a certificate has been inserted. -/
theorem Tracks.mem_insertedTable (h : Tracks gcDepth fed state)
    (hsame : ∀ d ∈ state.dag.values c.round, d.origin = c.origin → d = c)
    (hgc : state.lastRound.gcRound < c.round) (d : Certificate) :
    d ∈ state.insertedTable c ↔
      d ∈ c :: fed ∧ d.round = c.round ∧ state.lastRound.gcRound < c.round := by
  rw [ConsensusState.insertedTable, List.mem_cons, List.mem_filter, h.mem, List.mem_cons]
  constructor
  · rintro (rfl | ⟨⟨hd, hr⟩, -⟩)
    · exact ⟨.inl rfl, rfl, hgc⟩
    · exact ⟨.inr hd, hr⟩
  · rintro ⟨rfl | hd, hr⟩
    · exact .inl rfl
    · by_cases horigin : d.origin = c.origin
      · exact .inl (hsame d ((h.mem _ d).2 ⟨hd, hr⟩) horigin)
      · exact .inr ⟨⟨hd, hr⟩, by simpa using horigin⟩

/-- An insertion keeps one certificate for each authority. -/
theorem nodup_insertedTable (h : ((state.dag.values c.round).map (·.origin)).Nodup) :
    ((state.insertedTable c).map (·.origin)).Nodup := by
  rw [ConsensusState.insertedTable, List.map_cons, List.nodup_cons]
  refine ⟨fun hmem => ?_, h.sublist (List.filter_sublist.map _)⟩
  obtain ⟨d, hd, horigin⟩ := List.mem_map.1 hmem
  exact absurd horigin (by simpa using (List.mem_filter.1 hd).2)

/-- A certificate whose parents are there is inserted, unless its round is collected. -/
theorem Tracks.tryInsert (h : Tracks gcDepth fed state)
    (hunique : ∀ d ∈ fed, d.round = c.round → d.origin = c.origin → d = c)
    (hcheck : state.checkParents c = .ok ()) :
    ∃ inserted state', state.tryInsert c = .ok (inserted, state') ∧
      Tracks gcDepth (c :: fed) state' ∧ state'.ledger = state.ledger ∧
      (inserted = true → state.lastRound.gcRound < c.round) := by
  rw [ConsensusState.tryInsert]
  split
  · rename_i hgc
    exact ⟨false, state, rfl, h.cons_of_le hgc, rfl, nofun⟩
  · rename_i hgc
    have hsame : ∀ d ∈ state.dag.values c.round, d.origin = c.origin → d = c := by
      intro d hd horigin
      obtain ⟨hd, hr, -⟩ := (h.mem _ d).1 hd
      exact hunique d hd hr horigin
    have hfind : (state.dag.values c.round).find? (fun d =>
        d.origin = c.origin && d.digest ≠ c.digest) = none := by
      rw [List.find?_eq_none]
      intro d hd hne
      simp only [Bool.and_eq_true, decide_eq_true_eq] at hne
      exact hne.2 (hsame d hd hne.1 ▸ rfl)
    rw [hcheck]
    simp only [hfind]
    refine ⟨_, _, rfl, ⟨fun r d => ?_, fun r => ?_, h.gcRound_eq, h.depth⟩, rfl,
      fun _ => by omega⟩
    · rw [Dag.values_update]
      split
      · rename_i hr
        subst hr
        exact h.mem_insertedTable hsame (Nat.lt_of_not_le hgc) d
      · rename_i hr
        rw [h.mem, List.mem_cons]
        constructor
        · exact fun ⟨hd, hround⟩ => ⟨.inr hd, hround⟩
        · rintro ⟨rfl | hd, hround⟩
          · exact absurd hround.1.symm hr
          · exact ⟨hd, hround⟩
    · rw [Dag.values_update]
      split
      · rename_i hr
        subst hr
        exact nodup_insertedTable (h.nodup c.round)
      · exact h.nodup r

/-- A certificate that passes `check_parents` has the round before, above the lowest round. -/
theorem dag_ne_none_of_checkParents (hcheck : state.checkParents c = .ok ())
    (hgc : state.lastRound.gcRound + 1 < c.round) : state.dag (c.round - 1) ≠ none := by
  intro hnone
  rw [ConsensusState.checkParents, if_neg (Nat.not_le_of_lt hgc), hnone] at hcheck
  cases hcheck

/-- An insertion leaves no gap: the round before has the parents. -/
theorem Contiguous.tryInsert (h : Contiguous state) {inserted : Bool}
    (hcheck : state.checkParents c = .ok ())
    (hinsert : state.tryInsert c = .ok (inserted, state')) : Contiguous state' := by
  rw [ConsensusState.tryInsert] at hinsert
  split at hinsert
  · cases hinsert
    exact h
  rw [hcheck] at hinsert
  simp only [bind, Except.bind] at hinsert
  split at hinsert
  · cases hinsert
  cases hinsert
  intro r hgc hr
  dsimp only at hgc hr ⊢
  -- the round before is there already
  have hbefore : state.dag (r - 1) ≠ none := by
    by_cases hrc : r = c.round
    · rw [hrc] at hgc ⊢
      exact dag_ne_none_of_checkParents hcheck hgc
    · exact h r hgc (by rwa [Function.update_of_ne hrc] at hr)
  rw [Function.update_apply]
  split
  · exact Option.some_ne_none _
  · exact hbefore

/-! ## Committing a certificate -/

/-- An update moves the garbage collection round with the committed round. -/
theorem Tracks.gcRound_update (h : Tracks gcDepth fed state) (c : Certificate) :
    (state.update c).lastRound.gcRound =
      gcRound (max state.lastRound.committedRound c.round) gcDepth := by
  rw [← h.depth]
  rfl

/-- An update does not lower the garbage collection round. -/
theorem Tracks.gcRound_le_update (h : Tracks gcDepth fed state) (c : Certificate) :
    state.lastRound.gcRound ≤ (state.update c).lastRound.gcRound := by
  rw [h.gcRound_update, h.gcRound_eq]
  exact Nat.sub_le_sub_right (Nat.le_max_left _ _) _

/-- An update collects the rounds that fall below the garbage collection round. -/
theorem Tracks.update (h : Tracks gcDepth fed state) (c : Certificate) :
    Tracks gcDepth fed (state.update c) := by
  have hle := h.gcRound_le_update c
  have hvalues : ∀ r, (state.update c).dag.values r =
      if (state.update c).lastRound.gcRound < r then state.dag.values r else [] := fun r => by
    rw [Dag.values]
    change (if (state.update c).lastRound.gcRound < r then state.dag r else none).getD [] = _
    split <;> rfl
  refine ⟨fun r d => ?_, fun r => ?_, h.gcRound_update c, h.depth⟩
  · rw [hvalues]
    split
    · rename_i hr
      rw [h.mem]
      exact ⟨fun ⟨hd, hdr, _⟩ => ⟨hd, hdr, hr⟩, fun ⟨hd, hdr, _⟩ => ⟨hd, hdr, by omega⟩⟩
    · rename_i hr
      exact ⟨nofun, fun hd => absurd hd.2.2 hr⟩
  · rw [hvalues]
    split
    · exact h.nodup r
    · exact List.nodup_nil

/-- Updates keep the DAG in step with what was fed, and are the updates of the ledger. -/
theorem Tracks.foldl_update (h : Tracks gcDepth fed state) (sequence : List Certificate) :
    Tracks gcDepth fed (sequence.foldl ConsensusState.update state) ∧
      (sequence.foldl ConsensusState.update state).ledger =
        sequence.foldl (Ledger.update gcDepth) state.ledger := by
  induction sequence generalizing state with
  | nil => exact ⟨h, rfl⟩
  | cons c sequence ih =>
    have hledger : (state.update c).ledger = state.ledger.update gcDepth c := by
      rw [← h.depth]
      rfl
    rw [List.foldl_cons, List.foldl_cons, ← hledger]
    exact ih (h.update c)

/-- An update leaves no gap. -/
theorem Contiguous.update (h : Contiguous state) (htracks : Tracks gcDepth fed state)
    (c : Certificate) : Contiguous (state.update c) := by
  have hle := htracks.gcRound_le_update c
  intro r hgc hr
  have hdag : ∀ r', (state.update c).dag r' =
      if (state.update c).lastRound.gcRound < r' then state.dag r' else none := fun _ => rfl
  rw [hdag, if_pos (by omega)] at hr ⊢
  exact h r (by omega) hr

/-- Updates leave no gap. -/
theorem Contiguous.foldl_update (h : Contiguous state) (htracks : Tracks gcDepth fed state)
    (sequence : List Certificate) : Contiguous (sequence.foldl ConsensusState.update state) := by
  induction sequence generalizing state with
  | nil => exact h
  | cons c sequence ih => exact ih (h.update htracks c) (htracks.update c)

/-! ## Processing a certificate -/

/-- A rule for `process_certificate` up to its loop: after it has inserted the certificate there is
nothing to commit, or it finds the leader of the even round before, which has enough support. -/
theorem Tusk.pendingLeaders_rule (tusk : Tusk) {P : List Certificate → Prop} {inserted : Bool}
    (hinsert : state.tryInsert c = .ok (inserted, state')) (hstay : P [])
    (hcommit : inserted = true → (c.round - 1) % 2 = 0 → 2 ≤ c.round - 1 →
      state'.lastRound.committedRound < c.round - 1 → c ∈ state'.dag.values c.round ∧
      ∃ found, tusk.leaderCertificate (c.round - 1) state'.dag = .ok found ∧ ∀ leader ∈ found,
        tusk.committee.validityThreshold ≤ tusk.support leader (state'.dag.values c.round) →
        ∃ leaders, tusk.orderLeaders leader state' = .ok leaders ∧ P leaders.reverse) :
    ∃ outcome leaders, tusk.pendingLeaders state c = .ok ((outcome, leaders), state') ∧
      P leaders := by
  rw [Tusk.pendingLeaders, hinsert]
  simp only [bind, Except.bind]
  split
  · exact ⟨_, [], rfl, hstay⟩
  split
  · exact ⟨_, [], rfl, hstay⟩
  split
  · exact ⟨_, [], rfl, hstay⟩
  rename_i hnew hodd hcommitted
  obtain ⟨hc, found, hleader, hfound⟩ :=
    hcommit (by simpa using hnew) (by omega) (by omega) (by omega)
  rw [hleader]
  cases found with
  | none => exact ⟨_, [], rfl, hstay⟩
  | some leader =>
    simp only [Dag.eq_some_of_mem hc]
    split
    · exact ⟨_, [], rfl, hstay⟩
    · rename_i hsupport
      obtain ⟨leaders, horder, hP⟩ := hfound leader rfl (Nat.le_of_not_lt hsupport)
      rw [horder]
      exact ⟨_, leaders.reverse, rfl, hP⟩

/-- A rule for `process_certificate`: after it has inserted the certificate it commits nothing, or
it finds the leader of the even round before, which has enough support, and commits. -/
theorem Tusk.processCertificate_rule (tusk : Tusk)
    {P : List CommittedSubDag → ConsensusState → Prop} {inserted : Bool}
    (hinsert : state.tryInsert c = .ok (inserted, state')) (hstay : P [] state')
    (hcommit : inserted = true → (c.round - 1) % 2 = 0 → 2 ≤ c.round - 1 →
      state'.lastRound.committedRound < c.round - 1 → c ∈ state'.dag.values c.round ∧
      ∃ found, tusk.leaderCertificate (c.round - 1) state'.dag = .ok found ∧ ∀ leader ∈ found,
        tusk.committee.validityThreshold ≤ tusk.support leader (state'.dag.values c.round) →
        ∃ leaders new state'', tusk.orderLeaders leader state' = .ok leaders ∧
          tusk.commitLeaders leaders.reverse state' = .ok (new, state'') ∧ P new state'') :
    ∃ outcome new state'', tusk.processCertificate state c = .ok ((outcome, new), state'') ∧
      P new state'' := by
  obtain ⟨outcome, leaders, hpending, new, state'', hnew, hP⟩ := tusk.pendingLeaders_rule
    (P := fun leaders => ∃ new state'', tusk.commitLeaders leaders state' = .ok (new, state'') ∧
      P new state'') hinsert ⟨[], state', rfl, hstay⟩ fun hinserted heven hround hlt => by
    obtain ⟨hc, found, hleader, hfound⟩ := hcommit hinserted heven hround hlt
    refine ⟨hc, found, hleader, fun leader hmem hsupport => ?_⟩
    obtain ⟨leaders, new, state'', horder, hnew, hP⟩ := hfound leader hmem hsupport
    exact ⟨leaders, horder, new, state'', hnew, hP⟩
  refine ⟨outcome, new, state'', ?_, hP⟩
  rw [tusk.processCertificate_eq, hpending]
  simp only [bind, Except.bind, hnew]
  rfl

end Chase.Narwhal
