import Chase.Narwhal.Agreement
import Chase.Narwhal.Commits

/-!
# A validator commits every certificate at most once

The run of one validator, without a quorum of parents: it is fed certificates of which an authority
has at most one in a round, every one after its parents. The only panic of such a run is that of
`check_parents` on a certificate without parents whose round before is missing. What it commits is a
sequence of commits on its ledger (`Commits`), so no certificate is committed twice, the indices are
consecutive, and the rounds of the leaders go up (`tusk_progress`). With parents everywhere it does
not panic (`tusk_no_panic`).
-/

namespace Chase.Narwhal

open CertificateDag

/-- Certificates of a committee: the digests identify them, an authority has at most one of them in
a round, and parents are of the round before. -/
structure Certified (committee : Committee) (certificates : List Certificate) : Prop where
  digest_injective : ∀ c ∈ certificates, ∀ d ∈ certificates, c.digest = d.digest → c = d
  unique : ∀ c ∈ certificates, ∀ d ∈ certificates, c.round = d.round → c.origin = d.origin → c = d
  authority : ∀ c ∈ certificates, c.origin ∈ committee.authorities.map (·.id)
  parent_round : ∀ c ∈ certificates, ∀ p ∈ certificates, 2 ≤ c.round → p.digest ∈ c.parents →
    p.round + 1 = c.round

/-- The run of a validator: what it was fed, and what it has committed. -/
structure RunInv (gcDepth : Nat) (all fed : List Certificate) (subDags : List CommittedSubDag)
    (state : ConsensusState) : Prop where
  subset : ∀ c ∈ fed, c ∈ all
  parents : ∀ c ∈ fed, 2 ≤ c.round → ∀ digest ∈ c.parents, ∃ p ∈ fed, p.digest = digest
  tracks : Tracks gcDepth fed state
  contiguous : Contiguous state
  commits : Commits gcDepth subDags state.ledger

/-- A new state has run over nothing. -/
theorem RunInv.new (gcDepth : Nat) (all : List Certificate) :
    RunInv gcDepth all [] [] { gcDepth } :=
  ⟨nofun, nofun, .new gcDepth, fun _ _ h => absurd rfl h, .nil⟩

section

variable {tusk : Tusk} {gcDepth : Nat} {all fed : List Certificate} {subDags : List CommittedSubDag}
  {state : ConsensusState} {leader : Certificate}

/-! ## Leaders -/

/-- From a round of the DAG the rounds down to the garbage collection round are there. -/
theorem Contiguous.dag_ne_none (h : Contiguous state) {r : Nat} (hr : state.dag r ≠ none) (n : Nat)
    (hn : state.lastRound.gcRound + n < r) : state.dag (r - n) ≠ none := by
  induction n with
  | zero => exact hr
  | succ n ih => exact h (r - n) (by omega) (ih (by omega))

/-- `linked` does not miss a round. -/
theorem Contiguous.linked (h : Contiguous state) (hleader : state.dag leader.round ≠ none)
    {prevLeader : Certificate} (hgc : state.lastRound.gcRound < leader.round)
    (hprev : state.lastRound.gcRound < prevLeader.round) :
    ∃ b, Tusk.linked leader prevLeader state.dag = .ok b := by
  have hparents : ∀ n, state.lastRound.gcRound + n < leader.round →
      ∃ parents, Tusk.linkedParents leader state.dag n = .ok parents := by
    intro n
    induction n with
    | zero => exact fun _ => ⟨_, rfl⟩
    | succ n ih =>
      intro hn
      obtain ⟨parents, heq⟩ := ih (by omega)
      obtain ⟨table, htable⟩ := Option.ne_none_iff_exists'.1 (h.dag_ne_none hleader (n + 1) hn)
      rw [Tusk.linkedParents, heq]
      simp only [bind, Except.bind, htable]
      exact ⟨_, rfl⟩
  obtain ⟨parents, heq⟩ := hparents (leader.round - prevLeader.round) (by omega)
  exact ⟨_, by rw [Tusk.linked, heq]; rfl⟩

/-- The leader that is found in a round is a certificate of the round. -/
theorem Tracks.leaderCertificate (h : Tracks gcDepth fed state) (tusk : Tusk) {r : Nat}
    (hr : r % 2 = 0) :
    ∃ leader, tusk.leaderCertificate r state.dag = .ok leader ∧
      ∀ c ∈ leader, c ∈ fed ∧ c.round = r := by
  refine ⟨_, by rw [Tusk.leaderCertificate, Tusk.leader, if_pos hr]; rfl, fun c hc => ?_⟩
  obtain ⟨table, htable, hfind⟩ := Option.bind_eq_some_iff.1 hc
  have hvalues : c ∈ state.dag.values r := by
    rw [Dag.values, htable]
    exact List.mem_of_find?_eq_some hfind
  obtain ⟨hmem, hround, -⟩ := (h.mem r c).1 hvalues
  exact ⟨hmem, hround⟩

/-- A fed certificate that is not collected has its round in the DAG. -/
theorem Tracks.dag_ne_none (h : Tracks gcDepth fed state) {c : Certificate} (hc : c ∈ fed)
    (hgc : state.lastRound.gcRound < c.round) : state.dag c.round ≠ none := by
  rw [Dag.eq_some_of_mem ((h.mem _ c).2 ⟨hc, rfl, hgc⟩)]
  exact Option.some_ne_none _

/-- The loop of `order_leaders` returns leaders of some of the rounds. -/
theorem previousLeaders_spec (tusk : Tusk) (h : Tracks gcDepth fed state)
    (hcontiguous : Contiguous state)
    {rounds : List Nat} (hrounds : ∀ r ∈ rounds, r % 2 = 0 ∧ state.lastRound.gcRound < r)
    (hleader : leader ∈ fed) (hgc : state.lastRound.gcRound < leader.round) :
    ∃ previous, tusk.previousLeaders state.dag rounds leader = .ok previous ∧
      (previous.map (·.round)).Sublist rounds ∧ ∀ c ∈ previous, c ∈ fed := by
  induction rounds generalizing leader with
  | nil => exact ⟨[], rfl, .slnil, nofun⟩
  | cons r rounds ih =>
    have hrest : ∀ r' ∈ rounds, r' % 2 = 0 ∧ state.lastRound.gcRound < r' := fun r' hr' =>
      hrounds r' (List.mem_cons_of_mem _ hr')
    obtain ⟨heven, hr⟩ := hrounds r List.mem_cons_self
    obtain ⟨found, heq, hfound⟩ := h.leaderCertificate tusk heven
    -- the leader stays the same
    obtain ⟨previous, hprevious, hsub, hmem⟩ := ih hrest hleader hgc
    rw [Tusk.previousLeaders, heq]
    cases found with
    | none => exact ⟨previous, hprevious, hsub.cons r, hmem⟩
    | some prevLeader =>
      obtain ⟨hprev, hround⟩ := hfound prevLeader rfl
      obtain ⟨b, hlinked⟩ := hcontiguous.linked (h.dag_ne_none hleader hgc) hgc (hround ▸ hr)
      simp only [bind, Except.bind, hlinked]
      cases b with
      | false => exact ⟨previous, hprevious, hsub.cons r, hmem⟩
      | true =>
        obtain ⟨previous, hprevious, hsub, hmem⟩ := ih hrest hprev (hround ▸ hr)
        simp only [if_true, hprevious]
        refine ⟨prevLeader :: previous, rfl, ?_, ?_⟩
        · rw [List.map_cons, hround]
          exact hsub.cons_cons r
        · intro c hc
          rcases List.mem_cons.1 hc with rfl | hc
          · exact hprev
          · exact hmem c hc

variable (h : RunInv gcDepth all fed subDags state) (hall : Certified tusk.committee all)

include h hall

/-- `order_leaders` returns leaders of even rounds above the committed one, from the last to the
first. -/
theorem RunInv.orderLeaders (hleader : leader ∈ fed) (heven : leader.round % 2 = 0)
    (hlt : state.lastRound.committedRound < leader.round) :
    ∃ leaders, tusk.orderLeaders leader state = .ok leaders ∧
      (leaders.Pairwise fun a b => b.round < a.round) ∧
      ∀ c ∈ leaders, c ∈ fed ∧ c.round % 2 = 0 ∧ state.lastRound.committedRound < c.round := by
  have hgc := h.tracks.gcRound_le
  have hrounds : ∀ r ∈ Tusk.stepRounds (state.lastRound.committedRound + 2) (leader.round - 2),
      r % 2 = 0 ∧ state.lastRound.committedRound < r ∧ r < leader.round := fun r hr => by
    have := mem_stepRounds hr
    omega
  obtain ⟨previous, hprevious, hsub, hmem⟩ := previousLeaders_spec tusk h.tracks
    h.contiguous (fun r hr => ⟨(hrounds r hr).1, by have := (hrounds r hr).2.1; omega⟩) hleader
    (by omega)
  have hfed : ∀ c ∈ leader :: previous, c ∈ fed := fun c hc =>
    (List.mem_cons.1 hc).elim (fun heq => heq ▸ hleader) (hmem c)
  have hauthority : (leader :: previous).find?
      (fun c => !tusk.committee.authorities.any (·.id = c.origin)) = none := by
    rw [List.find?_eq_none]
    intro c hc
    obtain ⟨a, ha, hid⟩ := List.mem_map.1 (hall.authority c (h.subset c (hfed c hc)))
    simp only [Bool.not_eq_true', Bool.not_eq_false, List.any_eq_true, decide_eq_true_eq]
    exact ⟨a, ha, hid⟩
  have hbounds : ∀ c ∈ previous, c.round % 2 = 0 ∧ state.lastRound.committedRound < c.round ∧
      c.round < leader.round := fun c hc => hrounds _ (hsub.subset (List.mem_map_of_mem hc))
  refine ⟨leader :: previous, ?_, ?_, ?_⟩
  · rw [Tusk.orderLeaders, if_neg (by omega), hprevious]
    simp only [bind, Except.bind, hauthority]
  · exact List.pairwise_cons.2 ⟨fun c hc => (hbounds c hc).2.2,
      List.pairwise_map.1 ((pairwise_stepRounds _ _).sublist hsub)⟩
  · intro c hc
    refine ⟨hfed c hc, ?_⟩
    rcases List.mem_cons.1 hc with rfl | hc
    · exact ⟨heven, hlt⟩
    · exact ⟨(hbounds c hc).1, (hbounds c hc).2.1⟩

/-! ## Commits -/

/-- A certificate that a leader may commit. -/
def Committable (gcDepth : Nat) (fed : List Certificate) (leader x : Certificate) : Prop :=
  x ∈ fed ∧ gcRound leader.round gcDepth < x.round ∧ x.round ≤ leader.round

/-- `order_dag` returns, and the sub-dag has the leader and certificates that are not committed,
every one once. -/
theorem RunInv.orderDag (hgc : 1 ≤ gcDepth) (hleader : leader ∈ fed)
    (hlt : state.lastRound.committedRound < leader.round) :
    ∃ sequence, orderDag (tusk.fuel leader.round) leader state = .ok sequence ∧ leader ∈ sequence ∧
      (sequence.Pairwise fun a b => a.round ≤ b.round) ∧
      (∀ x ∈ sequence, x.round ≤ leader.round) ∧ sequence.Nodup ∧
      ∀ x ∈ sequence, x = leader ∨ isCommitted state.lastCommitted x = false := by
  have hgcle : state.lastRound.gcRound ≤ gcRound leader.round gcDepth := by
    rw [h.tracks.gcRound_eq]
    exact Nat.sub_le_sub_right (Nat.le_of_lt hlt) _
  -- the parents of a certificate above the lowest round are found, one round below
  have hparents : ∀ x, Committable gcDepth fed leader x ∧
      (x = leader ∨ isCommitted state.lastCommitted x = false) →
      x.round ≠ gcRound leader.round state.gcDepth + 1 → ∀ digest ∈ x.parents,
        ∃ p, state.dag.parentOf x digest = some p ∧
          Committable gcDepth fed leader p ∧ p.round < leader.round := by
    rintro x ⟨⟨hx, hlow, hhigh⟩, -⟩ hne digest hdigest
    rw [h.tracks.depth] at hne
    obtain ⟨p, hp, hpd⟩ := h.parents x hx (by omega) digest hdigest
    have hround := hall.parent_round x (h.subset x hx) p (h.subset p hp) (by omega) (hpd ▸ hdigest)
    have hvalues : p ∈ state.dag.values (x.round - 1) :=
      (h.tracks.mem _ p).2 ⟨hp, by omega, by omega⟩
    have hfound : ((state.dag.values (x.round - 1)).find? (·.digest = digest)).isSome :=
      List.find?_isSome.2 ⟨p, hvalues, decide_eq_true hpd⟩
    obtain ⟨q, hq⟩ := Option.isSome_iff_exists.1 hfound
    obtain ⟨hqfed, hqround, -⟩ := (h.tracks.mem _ q).1 (List.mem_of_find?_eq_some hq)
    refine ⟨q, ?_, ⟨hqfed, by omega, by omega⟩, by omega⟩
    rw [Dag.parentOf, Dag.eq_some_of_mem hvalues, Option.bind_some, hq]
  have hself : Committable gcDepth fed leader leader := by
    refine ⟨hleader, ?_, le_rfl⟩
    rw [gcRound]
    omega
  have hbound : ∀ l : List CertificateDigest, l.Nodup →
      (∀ d ∈ l, ∃ p, (Committable gcDepth fed leader p ∧ p.round < leader.round) ∧ p.digest = d) →
        l.length < tusk.fuel leader.round := fun l hnd hmem =>
    tusk.committee.length_digests_lt
      (fun c d hc hd => hall.unique c (h.subset c hc.1.1) d (h.subset d hd.1.1))
      (fun c hc => hall.authority c (h.subset c hc.1.1)) (by omega)
      (fun c hc => ⟨by have := hc.1.2.1; omega, hc.2⟩)
      (tusk.committee.authorities_length_pos (hall.authority leader (h.subset leader hleader)))
      hnd hmem
  obtain ⟨sequence, heq, hinv, hmem, hsorted, seen, hnodup, hseen, hperm⟩ :=
    orderFrom_spec state.lastCommitted hparents (fun p hp hopen => ⟨hp.1, .inr hopen⟩)
      ⟨hself, .inl rfl⟩ hbound (by omega)
  refine ⟨sequence, heq, hmem, hsorted, fun x hx => (hinv x hx).1.2.2, ?_,
    fun x hx => (hinv x hx).2⟩
  -- the leader is above the other certificates
  have hnew : leader.digest ∉ seen := by
    intro hdigest
    obtain ⟨p, ⟨⟨hp, -⟩, hround⟩, heq⟩ := hseen _ hdigest
    rw [hall.digest_injective p (h.subset p hp) leader (h.subset leader hleader) heq] at hround
    exact Nat.lt_irrefl _ hround
  exact List.Nodup.of_map _ (hperm.nodup_iff.2 (List.nodup_cons.2 ⟨hnew, hnodup⟩))

/-- A leader is committed. -/
theorem RunInv.commitLeader (hgc : 1 ≤ gcDepth) (hleader : leader ∈ fed)
    (heven : leader.round % 2 = 0) (hlt : state.lastRound.committedRound < leader.round) :
    ∃ subDag state', tusk.commitLeader leader state = .ok (subDag, state') ∧
      RunInv gcDepth all fed (subDags ++ [subDag]) state' ∧
      state'.lastRound.committedRound = leader.round := by
  obtain ⟨sequence, heq, hmem, hsorted, hle, hnodup, hfresh⟩ := h.orderDag hall hgc hleader hlt
  obtain ⟨htracks, hledger⟩ := h.tracks.foldl_update sequence
  have hcontiguous := h.contiguous.foldl_update h.tracks sequence
  generalize hsubDag : CommittedSubDag.new sequence leader state.nextSubDagIndex
    (sequence.foldl ConsensusState.update state).lastCommittedSubDag = subDag
  have hfollows : state.ledger.Follows subDag := by
    subst hsubDag
    exact ⟨rfl, heven, hlt, hmem, hsorted, hle, hnodup, hfresh⟩
  have hcommit : Ledger.commit gcDepth state.ledger subDag =
      { (sequence.foldl ConsensusState.update state).ledger with
        lastCommittedSubDag := some subDag } := by
    subst hsubDag
    rw [hledger]
    rfl
  refine ⟨subDag, { sequence.foldl ConsensusState.update state with
    lastCommittedSubDag := some subDag }, ?_, ⟨h.subset, h.parents,
      ⟨htracks.mem, htracks.nodup, htracks.gcRound_eq, htracks.depth⟩, hcontiguous, ?_⟩, ?_⟩
  · rw [Tusk.commitLeader, heq]
    simp only [bind, Except.bind, hsubDag]
  · have hcommits := h.commits.snoc hfollows
    rwa [hcommit] at hcommits
  · have hround : (state.ledger.commit gcDepth subDag).lastRound.committedRound =
        subDag.leader.round := hfollows.committedRound
    rw [hcommit] at hround
    subst hsubDag
    exact hround

/-- Leaders in the order of their rounds are committed. -/
theorem RunInv.commitLeaders (hgc : 1 ≤ gcDepth) {leaders : List Certificate}
    (hleaders : ∀ c ∈ leaders,
      c ∈ fed ∧ c.round % 2 = 0 ∧ state.lastRound.committedRound < c.round)
    (hsorted : leaders.Pairwise fun a b => a.round < b.round) :
    ∃ new state', tusk.commitLeaders leaders state = .ok (new, state') ∧
      RunInv gcDepth all fed (subDags ++ new) state' := by
  induction leaders generalizing state subDags with
  | nil => exact ⟨[], state, rfl, by rwa [List.append_nil]⟩
  | cons leader leaders ih =>
    obtain ⟨hfirst, hsorted⟩ := List.pairwise_cons.1 hsorted
    obtain ⟨hleader, heven, hlt⟩ := hleaders leader List.mem_cons_self
    obtain ⟨subDag, state₁, hcommit, hrun, hround⟩ := h.commitLeader hall hgc hleader heven hlt
    obtain ⟨new, state₂, hrest, hrun'⟩ := ih hrun (fun c hc => by
      obtain ⟨hc', hceven, -⟩ := hleaders c (List.mem_cons_of_mem _ hc)
      exact ⟨hc', hceven, hround ▸ hfirst c hc⟩) hsorted
    refine ⟨subDag :: new, state₂, ?_, by rwa [List.append_cons]⟩
    rw [Tusk.commitLeaders, hcommit]
    simp only [bind, Except.bind, hrest]

/-! ## Runs -/

/-- A certificate that comes after its parents is inserted, or `check_parents` panics on a missing
round. -/
theorem RunInv.insert {c : Certificate} (hc : c ∈ all)
    (hparents : 2 ≤ c.round → ∀ digest ∈ c.parents, ∃ p ∈ fed, p.digest = digest) :
    (∃ inserted state', state.tryInsert c = .ok (inserted, state') ∧
      RunInv gcDepth all (c :: fed) subDags state' ∧
      (inserted = true → state'.lastRound.gcRound < c.round)) ∨
    (2 ≤ c.round ∧ c.parents = []) ∧ state.tryInsert c = .error (.parentRoundNotFound c) := by
  have hcheck := h.tracks.checkParents (c := c) fun hround digest hdigest => by
    obtain ⟨p, hp, rfl⟩ := hparents hround digest hdigest
    exact ⟨p, hp, rfl, hall.parent_round c hc p (h.subset p hp) hround hdigest⟩
  refine hcheck.imp (fun hcheck => ?_) fun ⟨hempty, herror⟩ => ⟨hempty, tryInsert_error herror⟩
  obtain ⟨inserted, state', heq, htracks, hledger, hinserted⟩ := h.tracks.tryInsert (c := c)
    (fun d hd => hall.unique d (h.subset d hd) c hc) hcheck
  have hlastRound : state'.lastRound = state.lastRound := congrArg Ledger.lastRound hledger
  refine ⟨inserted, state', heq, ⟨fun d hd => ?_, fun d hd hround digest hdigest => ?_, htracks,
    h.contiguous.tryInsert hcheck heq, hledger ▸ h.commits⟩, hlastRound ▸ hinserted⟩
  · rcases List.mem_cons.1 hd with rfl | hd
    · exact hc
    · exact h.subset d hd
  · have hold : ∃ p ∈ fed, p.digest = digest := by
      rcases List.mem_cons.1 hd with rfl | hd
      · exact hparents hround digest hdigest
      · exact h.parents d hd hround digest hdigest
    obtain ⟨p, hp, hdigest⟩ := hold
    exact ⟨p, List.mem_cons_of_mem _ hp, hdigest⟩

/-- A certificate whose parents were fed is processed, unless it names no parents. -/
theorem RunInv.processCertificate (hgc : 1 ≤ gcDepth) {c : Certificate} (hc : c ∈ all)
    (hparents : 2 ≤ c.round → ∀ digest ∈ c.parents, ∃ p ∈ fed, p.digest = digest) :
    (∃ outcome new state', tusk.processCertificate state c = .ok ((outcome, new), state') ∧
      RunInv gcDepth all (c :: fed) (subDags ++ new) state') ∨
    (2 ≤ c.round ∧ c.parents = []) ∧
      tusk.processCertificate state c = .error (.parentRoundNotFound c) := by
  rcases h.insert hall hc hparents with
    ⟨inserted, state₁, hinsert, hrun, hinserted⟩ | ⟨hempty, herror⟩
  swap
  · refine .inr ⟨hempty, ?_⟩
    rw [Tusk.processCertificate, herror]
    rfl
  left
  refine tusk.processCertificate_rule
    (P := fun new state' => RunInv gcDepth all (c :: fed) (subDags ++ new) state')
    hinsert (by rwa [List.append_nil]) fun hnew heven hround hcommitted => ?_
  obtain ⟨found, hleader, hfound⟩ := hrun.tracks.leaderCertificate tusk (r := c.round - 1)
    (by omega)
  refine ⟨(hrun.tracks.mem _ c).2 ⟨List.mem_cons_self, rfl, hinserted hnew⟩, found, hleader,
    fun leader hmem _ => ?_⟩
  obtain ⟨hmem, hround⟩ := hfound leader hmem
  obtain ⟨leaders, horder, hsorted, hleaders⟩ := hrun.orderLeaders hall hmem (by omega) (by omega)
  obtain ⟨new, state', hcommit, hrun'⟩ := hrun.commitLeaders hall hgc
    (fun c hc => hleaders c (List.mem_reverse.1 hc)) (List.pairwise_reverse.2 hsorted)
  exact ⟨leaders, new, state', horder, hcommit, hrun'⟩

/-- A feed with the parents first is processed up to a certificate without parents. -/
theorem RunInv.processAll (hgc : 1 ≤ gcDepth) {feed : List Certificate}
    (hfeed : ∀ c ∈ feed, c ∈ all) (hfirst : parentsFirst fed feed = true) :
    (∃ new state', tusk.processAll feed state = .ok (new, state') ∧
      Commits gcDepth (subDags ++ new) state'.ledger) ∨
    ∃ c ∈ feed, (2 ≤ c.round ∧ c.parents = []) ∧
      tusk.processAll feed state = .error (.parentRoundNotFound c) := by
  induction feed generalizing fed state subDags with
  | nil => exact .inl ⟨[], state, rfl, by rw [List.append_nil]; exact h.commits⟩
  | cons c feed ih =>
    obtain ⟨hparents, hfirst⟩ := parentsFirst_cons hfirst
    rw [Tusk.processAll]
    rcases h.processCertificate hall hgc (hfeed c List.mem_cons_self) hparents with
      ⟨outcome, new, state₁, heq, hrun⟩ | ⟨hempty, herror⟩
    · rw [heq]
      simp only [bind, Except.bind]
      rcases ih hrun (fun d hd => hfeed d (List.mem_cons_of_mem _ hd)) hfirst with
        ⟨new', state₂, heq', hcommits⟩ | ⟨d, hd, hempty, herror⟩
      · rw [heq']
        exact .inl ⟨new ++ new', state₂, rfl, by rwa [← List.append_assoc]⟩
      · rw [herror]
        exact .inr ⟨d, List.mem_cons_of_mem _ hd, hempty, rfl⟩
    · rw [herror]
      exact .inr ⟨c, List.mem_cons_self, hempty, rfl⟩

end

/-- What a run has committed. -/
structure Progress (gcDepth : Nat) (subDags : List CommittedSubDag) (state : ConsensusState) :
    Prop where
  /-- No certificate is committed twice. -/
  once : (subDags.flatMap (·.certificates)).Nodup
  /-- The indices are consecutive from `1`. -/
  index : subDags.map (·.subDagIndex) = List.range' 1 subDags.length
  even : ∀ subDag ∈ subDags, subDag.leader.round % 2 = 0
  increasing : subDags.Pairwise fun a b => a.leader.round < b.leader.round
  sorted : ∀ subDag ∈ subDags, subDag.certificates.Pairwise fun a b => a.round ≤ b.round
  ends : ∀ subDag ∈ subDags,
    subDag.certificates.getLast?.map (·.round) = some subDag.leader.round
  /-- The ledger of the state is that of the commits. -/
  ledger : state.ledger = subDags.foldl (Ledger.commit gcDepth) {}
  /-- After every commit the round of the leader is the committed round and the maximum of
  `last_committed`, as `Consensus::spawn` asserts. -/
  current : ∀ pre subDag post, subDags = pre ++ subDag :: post →
    ((pre ++ [subDag]).foldl (Ledger.commit gcDepth) {}).Current subDag.leader
  /-- The highest round of the sub-dags that the last calls have returned is the committed round, as
  `Consensus::run_inner` asserts. -/
  highest : ∀ pre new, subDags = pre ++ new → ∀ leaderCommitRound,
    ((new.flatMap (·.certificates)).map (·.round)).max? = some leaderCommitRound →
      state.lastRound.committedRound = leaderCommitRound

/-- What a sequence of commits says of the run. -/
theorem Commits.progress {gcDepth : Nat} {subDags : List CommittedSubDag} {state : ConsensusState}
    (h : Commits gcDepth subDags state.ledger) : Progress gcDepth subDags state where
  once := h.once
  index := h.index
  even _ hmem := (h.follows hmem).choose_spec.even
  increasing := h.increasing
  sorted _ hmem := (h.follows hmem).choose_spec.sorted
  ends _ hmem := (h.follows hmem).choose_spec.ends
  ledger := h.ledger_eq
  current pre subDag post heq := by
    rw [List.append_cons] at heq
    exact (h.take heq).current List.getLast?_concat
  highest _ _ heq _ hmax := h.max_round heq hmax

/-- **Progress**: a validator that is fed certificates of which an authority has at most one in a
round, every one after its parents, commits every certificate at most once, with consecutive indices
and leaders of increasing even rounds. It panics only in `check_parents`, on a certificate without
parents. -/
theorem tusk_progress (tusk : Tusk) (gcDepth : Nat) (hgc : 1 ≤ gcDepth) (feed : List Certificate)
    (hfeed : Certified tusk.committee feed) (hfirst : parentsFirst [] feed = true) :
    (∃ subDags state, tusk.processAll feed { gcDepth } = .ok (subDags, state) ∧
      Progress gcDepth subDags state) ∨
    ∃ c ∈ feed, (2 ≤ c.round ∧ c.parents = []) ∧
      tusk.processAll feed { gcDepth } = .error (.parentRoundNotFound c) := by
  rcases (RunInv.new gcDepth feed).processAll hfeed hgc (fun _ hc => hc) hfirst with
    ⟨subDags, state, heq, hcommits⟩ | hpanic
  · exact .inl ⟨subDags, state, heq, hcommits.progress⟩
  · exact .inr hpanic

/-- **No panic**: a validator that is fed certificates of which an authority has at most one in a
round, every one after its parents and with a parent from the second round on, finds in its DAG all
that `check_parents`, `order_dag` and `linked` look up, so every call returns. -/
theorem tusk_no_panic (tusk : Tusk) (gcDepth : Nat) (hgc : 1 ≤ gcDepth) (feed : List Certificate)
    (hfeed : Certified tusk.committee feed) (hfirst : parentsFirst [] feed = true)
    (hparents : ∀ c ∈ feed, 2 ≤ c.round → c.parents ≠ []) :
    ∃ subDags state, tusk.processAll feed { gcDepth } = .ok (subDags, state) := by
  rcases (RunInv.new gcDepth feed).processAll hfeed hgc (fun _ hc => hc) hfirst with
    ⟨subDags, state, heq, -⟩ | ⟨c, hc, ⟨hround, hempty⟩, -⟩
  · exact ⟨subDags, state, heq⟩
  · exact absurd hempty (hparents c hc hround)

namespace TuskFixture

/-- The certificates of the rounds `1` to `5`. -/
def longFeed : List Certificate :=
  [1, 2, 3, 4, 5].flatMap fun round => (List.range 4).map (certificate round)

/-- The certificates of the fixture are certified. -/
theorem certified_longFeed : Certified tusk.committee longFeed where
  digest_injective := by decide +kernel
  unique := by decide +kernel
  authority := by decide +kernel
  parent_round := by decide +kernel

/-- The leaders of the rounds `2` and `4` are committed, with a depth of two rounds. -/
theorem tusk_progress_longFeed :
    (tusk.produced 2 longFeed).toOption.map (·.map (·.leader.round)) = some [2, 4] ∧
      ∃ subDags state, tusk.processAll longFeed { gcDepth := 2 } = .ok (subDags, state) ∧
        Progress 2 subDags state := by
  have hparents : ∀ c ∈ longFeed, ¬(2 ≤ c.round ∧ c.parents = []) := by decide +kernel
  refine ⟨by decide +kernel, (tusk_progress tusk 2 (by decide) longFeed certified_longFeed
    (by decide +kernel)).resolve_right ?_⟩
  rintro ⟨c, hc, hempty, -⟩
  exact hparents c hc hempty

/-- The run with a depth of one round, which drops the rounds below every leader. -/
theorem tusk_no_panic_longFeed : (∀ c ∈ longFeed, 2 ≤ c.round → c.parents ≠ []) ∧
    ∃ subDags state, tusk.processAll longFeed { gcDepth := 1 } = .ok (subDags, state) := by
  have hparents : ∀ c ∈ longFeed, 2 ≤ c.round → c.parents ≠ [] := by decide +kernel
  exact ⟨hparents,
    tusk_no_panic tusk 1 (by decide) longFeed certified_longFeed (by decide +kernel) hparents⟩

end TuskFixture

end Chase.Narwhal
