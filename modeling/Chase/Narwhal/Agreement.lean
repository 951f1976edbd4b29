import Chase.Narwhal.Tracks

/-!
# Agreement of the validators

Two validators that are fed certificates of one DAG, in different orders and different parts of it,
commit the same sub-dags, one of them possibly fewer. A validator is fed a certificate after all its
ancestors (`Fed`), so its traversals see what a traversal of the whole DAG sees. A commit of the
validator is then a commit on the ledger of the DAG (`commitLeaders_spec`), a call commits the
leaders that come next on the history of a supported one (`pendingLeaders_spec`), and what has been
committed is the history of the last leader that the validator saw supported (`Anchored`).
-/

namespace Chase.Narwhal

open QuorumDag AnchorChain CertificateDag

variable {committee : Committee} {G : CertificateDag committee}

/-- What a validator was fed: certificates of the DAG with their parents. -/
structure Fed (G : CertificateDag committee) (fed : List Certificate) : Prop where
  mem : ∀ c ∈ fed, c ∈ G.certificates
  parents : ∀ c ∈ fed, 2 ≤ c.round → ∀ digest ∈ c.parents, ∃ p ∈ fed, p.digest = digest

section

variable {gcDepth : Nat} {fed : List Certificate} {state : ConsensusState} {c p : Certificate}

/-- The parents of what was fed were fed. -/
theorem Fed.parent (h : Fed G fed) (hc : c ∈ fed) (hp : G.layered.Parent c p) : p ∈ fed := by
  obtain ⟨-, hmem, hround, hdigest⟩ := hp
  obtain ⟨q, hq, heq⟩ := h.parents c hc hround p.digest hdigest
  rwa [← G.digest_injective q (h.mem q hq) p hmem heq]

theorem Fed.reach (h : Fed G fed) (hc : c ∈ fed) (hp : G.layered.Reach c p) : p ∈ fed := by
  induction hp with
  | refl => exact hc
  | tail _ hparent ih => exact h.parent ih hparent

/-! ## Inserting a certificate -/

/-- A certificate of the DAG that comes after its parents is inserted. -/
theorem Tracks.insert (h : Tracks gcDepth fed state) (hfed : Fed G fed) (hc : c ∈ G.certificates)
    (hparents : 2 ≤ c.round → ∀ digest ∈ c.parents, ∃ p ∈ fed, p.digest = digest) :
    ∃ inserted state', state.tryInsert c = .ok (inserted, state') ∧
      Tracks gcDepth (c :: fed) state' ∧
      state'.ledger = state.ledger ∧ (inserted = true → state.lastRound.gcRound < c.round) := by
  refine h.tryInsert (fun d hd hround horigin => G.unique d (hfed.mem d hd) c hc hround horigin) ?_
  have hcheck := h.checkParents (c := c) fun hround digest hdigest => by
    obtain ⟨p, hp, rfl⟩ := hparents hround digest hdigest
    exact ⟨p, hp, rfl, G.layered.parent_round (c := c) ⟨hc, hfed.mem p hp, hround, hdigest⟩⟩
  refine hcheck.resolve_right fun hempty => ?_
  obtain ⟨q, hq⟩ := exists_parent hc hempty.1.1
  exact List.not_mem_nil (hempty.1.2 ▸ hq.2.2.2)

/-- Updates do not touch the last sub-dag. -/
theorem lastCommittedSubDag_foldl (sequence : List Certificate) (ledger : Ledger) :
    (sequence.foldl (Ledger.update gcDepth) ledger).lastCommittedSubDag =
      ledger.lastCommittedSubDag := by
  induction sequence generalizing ledger with
  | nil => rfl
  | cons c sequence ih => exact ih (ledger.update gcDepth c)

/-! ## Paths to earlier leaders -/

variable {tusk : Tusk} {G : CertificateDag tusk.committee}

section

variable (h : Tracks gcDepth fed state) (hfed : Fed G fed)

include h hfed

/-- The leader of a round that a validator finds is the leader of the DAG, if it was fed. -/
theorem leaderCertificate_spec {r : Nat}
    (hr : r % 2 = 0) (hgc : state.lastRound.gcRound < r) :
    ∃ leader, tusk.leaderCertificate r state.dag = .ok leader ∧
      ∀ c, leader = some c ↔ c ∈ fed ∧ G.leaderAt tusk.leaderSchedule r = some c := by
  refine ⟨_, by rw [Tusk.leaderCertificate, Tusk.leader, if_pos hr]; rfl, fun c => ?_⟩
  have hvalues : ((state.dag r).bind (·.find? (·.origin = tusk.leaderSchedule r))) =
      (state.dag.values r).find? (·.origin = tusk.leaderSchedule r) := by
    rw [Dag.values]
    cases state.dag r <;> rfl
  rw [hvalues, leaderAt_eq_some_iff]
  constructor
  · intro hfind
    obtain ⟨hc, hround, -⟩ := (h.mem r c).1 (List.mem_of_find?_eq_some hfind)
    exact ⟨hc, hfed.mem c hc, hround, by simpa using List.find?_some hfind⟩
  · rintro ⟨hc, -, hround, horigin⟩
    cases hfind : (state.dag.values r).find? (·.origin = tusk.leaderSchedule r) with
    | none =>
      have := List.find?_eq_none.1 hfind c ((h.mem r c).2 ⟨hc, hround, hgc⟩)
      simp [horigin] at this
    | some d =>
      obtain ⟨hd, hdr, -⟩ := (h.mem r d).1 (List.mem_of_find?_eq_some hfind)
      have hdo : d.origin = tusk.leaderSchedule r := by simpa using List.find?_some hfind
      rw [G.unique d (hfed.mem d hd) c (hfed.mem c hc) (hdr.trans hround.symm)
        (hdo.trans horigin.symm)]

/-- The loop of `linked` finds the certificates of a round that the leader reaches. -/
theorem linkedParents_spec {leader : Certificate}
    (hleader : leader ∈ fed) (n : Nat) (hn : state.lastRound.gcRound + n < leader.round) :
    ∃ parents, Tusk.linkedParents leader state.dag n = .ok parents ∧ parents ≠ [] ∧
      ∀ c, c ∈ parents ↔ G.layered.Reach leader c ∧ c.round + n = leader.round := by
  induction n with
  | zero =>
    refine ⟨[leader], rfl, nofun, fun c => ?_⟩
    rw [List.mem_singleton]
    constructor
    · rintro rfl
      exact ⟨.refl, rfl⟩
    · rintro ⟨hreach, hround⟩
      exact hreach.eq_of_round_le (Nat.le_of_eq hround.symm)
  | succ n ih =>
    obtain ⟨parents, heq, hne, hparents⟩ := ih (by omega)
    have hround : ∀ x ∈ parents, x.round = leader.round - n := fun x hx => by
      have := ((hparents x).1 hx).2
      omega
    have hmem : ∀ x ∈ parents, x ∈ fed := fun x hx => hfed.reach hleader ((hparents x).1 hx).1
    have hparent : ∀ x p, G.layered.Parent x p → p.round + 1 = x.round := fun x p hp =>
      G.layered.parent_round hp
    have hvalues : ∀ x ∈ parents, ∀ p, G.layered.Parent x p →
        p ∈ state.dag.values (leader.round - (n + 1)) := fun x hx p hp => by
      have := hround x hx
      have := hparent x p hp
      exact (h.mem _ p).2 ⟨hfed.parent (hmem x hx) hp, by omega, by omega⟩
    obtain ⟨x, hx⟩ := List.exists_mem_of_ne_nil _ hne
    have hx2 := hround x hx
    obtain ⟨p, hp⟩ := exists_parent (hfed.mem x (hmem x hx)) (by omega)
    have hpv := hvalues x hx p hp
    refine ⟨(state.dag.values (leader.round - (n + 1))).filter
      fun c => parents.any fun x => x.parents.contains c.digest, ?_, ?_, fun c => ?_⟩
    · rw [Tusk.linkedParents, heq, Dag.eq_some_of_mem hpv]
      rfl
    · refine List.ne_nil_of_mem (List.mem_filter.2 ⟨hpv, ?_⟩)
      rw [List.any_eq_true]
      exact ⟨x, hx, by simpa using hp.2.2.2⟩
    · rw [List.mem_filter, List.any_eq_true, h.mem]
      constructor
      · rintro ⟨⟨hc, hcr, -⟩, y, hy, hdigest⟩
        have hyr := hround y hy
        refine ⟨((hparents y).1 hy).1.tail ⟨hfed.mem y (hmem y hy), hfed.mem c hc, by omega, ?_⟩,
          by omega⟩
        simpa using hdigest
      · rintro ⟨hreach, hcr⟩
        obtain ⟨y, hy, hyc⟩ := hreach.exists_parent (show c.round < leader.round by omega)
        have := hparent y c hyc
        refine ⟨⟨hfed.reach hleader hreach, by omega, by omega⟩, y,
          (hparents y).2 ⟨hy, by omega⟩, by simpa using hyc.2.2.2⟩

/-- `linked` finds the paths. -/
theorem linked_spec {leader prevLeader : Certificate} (hleader : leader ∈ fed)
    (hgc : state.lastRound.gcRound < leader.round)
    (hprev : state.lastRound.gcRound < prevLeader.round) :
    ∃ b, Tusk.linked leader prevLeader state.dag = .ok b ∧
      (b = true ↔ G.layered.Reach leader prevLeader) := by
  obtain ⟨parents, heq, -, hparents⟩ :=
    linkedParents_spec h hfed hleader (leader.round - prevLeader.round) (by omega)
  refine ⟨parents.contains prevLeader, by rw [Tusk.linked, heq]; rfl, ?_⟩
  rw [List.contains_iff_mem, hparents]
  constructor
  · exact And.left
  · intro hreach
    have hle : prevLeader.round ≤ leader.round := hreach.round_le
    exact ⟨hreach, by omega⟩

/-- The loop of `order_leaders` follows the chain of leaders in the whole DAG. -/
theorem previousLeaders_eq {rounds : List Nat}
    (hrounds : ∀ r ∈ rounds, r % 2 = 0 ∧ state.lastRound.gcRound < r) {leader : Certificate}
    (hleader : leader ∈ fed) (hgc : state.lastRound.gcRound < leader.round) :
    tusk.previousLeaders state.dag rounds leader =
      .ok (chain (G.leaderAt tusk.leaderSchedule) G.layered.Reach rounds leader) := by
  induction rounds generalizing leader with
  | nil => rfl
  | cons r rounds ih =>
    have hrest : ∀ r' ∈ rounds, r' % 2 = 0 ∧ state.lastRound.gcRound < r' := fun r' hr' =>
      hrounds r' (List.mem_cons_of_mem _ hr')
    obtain ⟨heven, hr⟩ := hrounds r List.mem_cons_self
    obtain ⟨found, heq, hfound⟩ := leaderCertificate_spec h hfed heven hr
    rw [Tusk.previousLeaders, heq]
    cases hanchor : G.leaderAt tusk.leaderSchedule r with
    | none =>
      have hnone : found = none := Option.eq_none_iff_forall_ne_some.2 fun c hc => by
        rw [hfound, hanchor] at hc
        cases hc.2
      rw [hnone, chain_cons_none hanchor]
      exact ih hrest hleader hgc
    | some prevLeader =>
      obtain ⟨-, hround, -⟩ := leaderAt_eq_some_iff.1 hanchor
      by_cases hmem : prevLeader ∈ fed
      · obtain ⟨b, hlinked, hb⟩ := linked_spec h hfed hleader hgc (hround ▸ hr)
        rw [(hfound prevLeader).2 ⟨hmem, hanchor⟩]
        simp only [bind, Except.bind, hlinked]
        cases b with
        | true =>
          rw [chain_cons_linked hanchor (hb.1 rfl), if_pos rfl, ih hrest hmem (hround ▸ hr)]
        | false =>
          rw [chain_cons_unlinked hanchor fun hreach => nomatch hb.2 hreach]
          exact ih hrest hleader hgc
      · -- a leader that the validator was not fed is not reached
        have hunlinked : ¬G.layered.Reach leader prevLeader := fun hreach =>
          hmem (hfed.reach hleader hreach)
        have hnone : found = none := Option.eq_none_iff_forall_ne_some.2 fun c hc => by
          rw [hfound, hanchor, Option.some.injEq] at hc
          exact hmem (hc.2 ▸ hc.1)
        rw [hnone, chain_cons_unlinked hanchor hunlinked]
        exact ih hrest hleader hgc

/-- The leaders that a validator orders are the chain of the DAG, down to the committed round. -/
theorem orderLeaders_eq {leader : Certificate}
    (hleader : leader ∈ fed) (heven : leader.round % 2 = 0)
    (hlt : state.lastRound.committedRound < leader.round) :
    tusk.orderLeaders leader state =
      .ok (leader :: chain (G.leaderAt tusk.leaderSchedule) G.layered.Reach
        (Tusk.stepRounds (state.lastRound.committedRound + 2) (leader.round - 2)) leader) := by
  have hgc := h.gcRound_le
  have hrounds : ∀ r ∈ Tusk.stepRounds (state.lastRound.committedRound + 2) (leader.round - 2),
      r % 2 = 0 ∧ state.lastRound.gcRound < r := fun r hr => by
    have := mem_stepRounds hr
    omega
  have hprevious := previousLeaders_eq h hfed hrounds hleader (by omega)
  have hauthority : (leader :: chain (G.leaderAt tusk.leaderSchedule) G.layered.Reach
      (Tusk.stepRounds (state.lastRound.committedRound + 2) (leader.round - 2)) leader).find?
        (fun c => !tusk.committee.authorities.any (·.id = c.origin)) = none := by
    rw [List.find?_eq_none]
    intro c hc
    have hmem : c ∈ fed := by
      rcases List.mem_cons.1 hc with rfl | hc
      · exact hleader
      · exact hfed.reach hleader (linked_of_mem_chain (fun _ _ _ => Relation.ReflTransGen.trans) hc)
    obtain ⟨a, ha, hid⟩ := List.mem_map.1 (G.authority c (hfed.mem c hmem))
    simp only [Bool.not_eq_true', Bool.not_eq_false, List.any_eq_true, decide_eq_true_eq]
    exact ⟨a, ha, hid⟩
  rw [Tusk.orderLeaders, if_neg (by omega), hprevious]
  simp only [bind, Except.bind, hauthority]

/-! ## Committing a leader -/

/-- The traversal of the validator's DAG is the traversal of the whole DAG. -/
theorem orderDag_eq (hgc : 1 ≤ gcDepth)
    {leader : Certificate} (hleader : leader ∈ fed) (hround : 0 < leader.round)
    (hle : state.lastRound.committedRound ≤ leader.round) :
    orderDag (tusk.fuel leader.round) leader state =
      .ok (G.subDag gcDepth state.lastCommitted leader) := by
  obtain ⟨hfind, -, -⟩ := orderFrom_find hgc (hfed.mem leader hleader) hround state.lastCommitted
  have hgcle : state.lastRound.gcRound ≤ gcRound leader.round gcDepth := by
    rw [h.gcRound_eq]
    exact Nat.sub_le_sub_right hle _
  have hparents : ∀ x, G.InSubDag gcDepth leader x ∧ x ∈ fed →
      x.round ≠ gcRound leader.round gcDepth + 1 → ∀ digest ∈ x.parents,
        ∃ p, G.find digest = some p ∧ G.InSubDag gcDepth leader p ∧ p ∈ fed := by
    rintro x ⟨hx, hmem⟩ hne digest hdigest
    obtain ⟨p, hp, hparent, hsub, -⟩ := find_parent hx hne hdigest
    exact ⟨p, hp, hsub, hfed.parent hmem hparent⟩
  rw [orderDag, h.depth, ← hfind, Tusk.fuel]
  refine orderFrom_congr _ hparents (fun _ hp _ => hp)
    ⟨⟨hfed.mem leader hleader, by rw [gcRound]; omega, le_rfl⟩, hleader⟩ ?_
  intro x hx hne digest hdigest
  obtain ⟨p, hp, hsub, hmem⟩ := hparents x hx hne digest hdigest
  obtain ⟨hpG, rfl⟩ := find_eq_some_iff.1 hp
  have hlow := hx.1.2.1
  have hpr : p.round + 1 = x.round :=
    G.layered.parent_round (c := x) (p := p) ⟨hx.1.1, hpG, by omega, hdigest⟩
  have hpv : p ∈ state.dag.values (x.round - 1) :=
    (h.mem _ p).2 ⟨hmem, by omega, Nat.lt_of_le_of_lt hgcle (by have := hsub.2.1; omega)⟩
  rw [hp, Dag.parentOf, Dag.eq_some_of_mem hpv, Option.bind_some]
  cases hq : (state.dag.values (x.round - 1)).find? (·.digest = p.digest) with
  | none => simpa using List.find?_eq_none.1 hq p hpv
  | some q =>
    have hqmem := ((h.mem _ q).1 (List.mem_of_find?_eq_some hq)).1
    have hdigest : q.digest = p.digest := by simpa using List.find?_some hq
    rw [G.digest_injective q (hfed.mem q hqmem) p hpG hdigest]

/-- A commit of a validator is a commit on the ledger of the whole DAG. -/
theorem commitLeader_spec (hgc : 1 ≤ gcDepth)
    {leader : Certificate} (hleader : leader ∈ fed) (hround : 0 < leader.round)
    (hle : state.lastRound.committedRound ≤ leader.round) :
    ∃ state',
      tusk.commitLeader leader state = .ok ((G.commit gcDepth state.ledger leader).1, state') ∧
      state'.ledger = (G.commit gcDepth state.ledger leader).2 ∧ Tracks gcDepth fed state' := by
  obtain ⟨htracks, hledger⟩ := h.foldl_update (G.subDag gcDepth state.lastCommitted leader)
  have hlast : ((G.subDag gcDepth state.lastCommitted leader).foldl ConsensusState.update
      state).lastCommittedSubDag = state.lastCommittedSubDag := by
    have := congrArg Ledger.lastCommittedSubDag hledger
    rwa [lastCommittedSubDag_foldl] at this
  refine ⟨{ (G.subDag gcDepth state.lastCommitted leader).foldl ConsensusState.update state with
    lastCommittedSubDag := some (G.commit gcDepth state.ledger leader).1 }, ?_, ?_, ?_⟩
  · rw [Tusk.commitLeader, orderDag_eq h hfed hgc hleader hround hle]
    simp only [bind, Except.bind, hlast]
    rfl
  · exact congrArg (fun l : Ledger =>
      { l with lastCommittedSubDag := some (G.commit gcDepth state.ledger leader).1 }) hledger
  · exact ⟨htracks.mem, htracks.nodup, htracks.gcRound_eq, htracks.depth⟩

/-- The commits of a validator are commits on the ledger of the whole DAG. -/
theorem commitLeaders_spec (hgc : 1 ≤ gcDepth)
    {leaders : List Certificate} (hleaders : ∀ leader ∈ leaders, leader ∈ fed ∧ 0 < leader.round ∧
      state.lastRound.committedRound ≤ leader.round)
    (hsorted : leaders.Pairwise fun a b => a.round ≤ b.round) :
    ∃ state', tusk.commitLeaders leaders state =
        .ok ((G.commitAll gcDepth leaders state.ledger).1, state') ∧
      state'.ledger = (G.commitAll gcDepth leaders state.ledger).2 ∧ Tracks gcDepth fed state' ∧
      state'.lastRound.committedRound =
        (leaders.getLast?.map (·.round)).getD state.lastRound.committedRound := by
  induction leaders generalizing state with
  | nil => exact ⟨state, rfl, rfl, h, rfl⟩
  | cons leader leaders ih =>
    obtain ⟨hfirst, hsorted⟩ := List.pairwise_cons.1 hsorted
    obtain ⟨hleader, hround, hle⟩ := hleaders leader List.mem_cons_self
    obtain ⟨state₁, hcommit, hledger, htracks⟩ := commitLeader_spec h hfed hgc hleader hround hle
    have hcommitted : state₁.lastRound.committedRound = leader.round := by
      have := commit_committedRound hgc (hfed.mem leader hleader) hround state.ledger hle
      rwa [← hledger] at this
    obtain ⟨state₂, hrest, hledger', htracks', hlast⟩ := ih htracks (fun next hnext => by
      obtain ⟨hmem, hpos, -⟩ := hleaders next (List.mem_cons_of_mem _ hnext)
      exact ⟨hmem, hpos, hcommitted ▸ hfirst next hnext⟩) hsorted
    refine ⟨state₂, ?_, ?_, htracks', ?_⟩
    · rw [Tusk.commitLeaders, hcommit]
      simp only [bind, Except.bind, hrest, hledger]
      rfl
    · rw [hledger', hledger]
      rfl
    · rw [hlast, hcommitted, List.getLast?_cons]
      cases leaders.getLast? <;> rfl

end

/-! ## Runs -/

/-- A leader that a validator has seen supported. -/
structure IsAnchor (G : CertificateDag tusk.committee) (x : Certificate) : Prop where
  leader : G.leaderAt tusk.leaderSchedule x.round = some x
  supported : G.Supported x
  even : x.round % 2 = 0
  two_le : 2 ≤ x.round

/-- The leaders that are committed when `last` is the last one that was seen supported. -/
noncomputable def committedLeaders (G : CertificateDag tusk.committee) (last : Option Certificate) :
    List Certificate :=
  (last.elim [] (G.history tusk.leaderSchedule)).reverse

/-- The round of the last committed leader. -/
def committedRound (last : Option Certificate) : Nat := last.elim 0 (·.round)

/-- What a validator has produced, and its ledger, are those of the leaders that are committed with
the last leader that it has seen supported. -/
structure Anchored (G : CertificateDag tusk.committee) (gcDepth : Nat) (last : Option Certificate)
    (subDags : List CommittedSubDag) (ledger : Ledger) : Prop where
  anchor : ∀ x ∈ last, IsAnchor G x
  round : ledger.lastRound.committedRound = committedRound last
  eq : G.commitAll gcDepth (committedLeaders G last) {} = (subDags, ledger)

/-- A leader that is seen supported is committed with the leaders of its chain above the last one.
-/
theorem committedLeaders_some {last : Option Certificate} (hlast : ∀ x ∈ last, IsAnchor G x)
    {y : Certificate} (hy : IsAnchor G y) (hlt : committedRound last < y.round) :
    committedLeaders G (some y) = committedLeaders G last ++
      (y :: chain (G.leaderAt tusk.leaderSchedule) G.layered.Reach
        (Tusk.stepRounds (committedRound last + 2) (y.round - 2)) y).reverse := by
  cases last with
  | none => rfl
  | some x =>
    have hx := hlast x rfl
    have hmem := (leaderAt_eq_some_iff.1 hy.leader).1
    have heq := history_eq hx.leader hx.supported hx.even hx.two_le hmem hy.even hlt
    rw [committedLeaders, Option.elim_some, heq, List.reverse_append]
    rfl

/-- Of two validators, one has committed all leaders that the other has. -/
theorem committedLeaders_prefix_of_le {last last' : Option Certificate}
    (h : ∀ x ∈ last, IsAnchor G x)
    (h' : ∀ x ∈ last', IsAnchor G x) (hle : committedRound last ≤ committedRound last') :
    committedLeaders G last <+: committedLeaders G last' := by
  cases last' with
  | none =>
    cases last with
    | none => exact List.prefix_rfl
    | some x => exact absurd (Nat.le_trans (h x rfl).two_le hle) (by decide)
  | some y =>
    have hy := h' y rfl
    rcases Nat.lt_or_eq_of_le hle with hlt | heq
    · rw [committedLeaders_some h hy hlt]
      exact List.prefix_append _ _
    · cases last with
      | none => exact List.nil_prefix
      | some x =>
        have hround : x.round = y.round := heq
        have hx := (h x rfl).leader
        rw [hround, hy.leader, Option.some.injEq] at hx
        rw [hx]

/-! ## Leaders on a history -/

variable {last : Option Certificate} {y l : Certificate}

/-- The leader is on the history of one that is supported. -/
def OnHistory (G : CertificateDag tusk.committee) (l : Certificate) : Prop :=
  ∃ x, IsAnchor G x ∧ l ∈ G.history tusk.leaderSchedule x

/-- An anchor is on its own history. -/
theorem IsAnchor.onHistory (h : IsAnchor G y) : OnHistory G y := ⟨y, h, List.mem_cons_self⟩

/-- The rounds of the committed leaders go up. -/
theorem pairwise_committedLeaders (G : CertificateDag tusk.committee) (y : Certificate) :
    (committedLeaders G (some y)).Pairwise fun a b => a.round < b.round :=
  List.pairwise_reverse.2 (pairwise_history G tusk.leaderSchedule y)

theorem mem_committedLeaders_self (G : CertificateDag tusk.committee) (y : Certificate) :
    y ∈ committedLeaders G (some y) :=
  List.mem_reverse.2 List.mem_cons_self

/-- A leader on a history is on that of every later supported leader: the histories of two supported
leaders are one the end of the other. -/
theorem OnHistory.mem_history (h : OnHistory G l) (hy : IsAnchor G y) (hlt : l.round < y.round) :
    l ∈ G.history tusk.leaderSchedule y := by
  obtain ⟨x, hx, hl⟩ := h
  have hl : l ∈ committedLeaders G (some x) := List.mem_reverse.2 hl
  have hanchor : ∀ {z : Certificate}, IsAnchor G z → ∀ w ∈ some z, IsAnchor G w :=
    fun hz w hw => Option.some.inj hw ▸ hz
  rcases Nat.le_total x.round y.round with hle | hle
  · have hfirst := committedLeaders_prefix_of_le (hanchor hx) (hanchor hy) hle
    exact List.mem_reverse.1 (hfirst.subset hl)
  · obtain ⟨rest, heq⟩ := committedLeaders_prefix_of_le (hanchor hy) (hanchor hx) hle
    have hpair := pairwise_committedLeaders G x
    rw [← heq] at hl hpair
    refine List.mem_reverse.1 ((List.mem_append.1 hl).resolve_right fun hrest => ?_)
    have := (List.pairwise_append.1 hpair).2.2 y (mem_committedLeaders_self G y) l hrest
    omega

/-- A leader that is seen supported is committed with the leaders of its chain above the last one,
which need not have been supported itself. -/
theorem committedLeaders_of_onHistory (hlast : ∀ l ∈ last, OnHistory G l) (hy : IsAnchor G y)
    (hlt : committedRound last < y.round) :
    committedLeaders G (some y) = committedLeaders G last ++
      (y :: chain (G.leaderAt tusk.leaderSchedule) G.layered.Reach
        (Tusk.stepRounds (committedRound last + 2) (y.round - 2)) y).reverse := by
  cases last with
  | none => rfl
  | some l =>
    have hmem := (hlast l rfl).mem_history hy hlt
    have hchain := (List.mem_cons.1 hmem).resolve_left fun heq => by
      rw [heq] at hlt
      exact Nat.lt_irrefl _ hlt
    rw [committedLeaders, Option.elim_some, history_split hy.even hchain, List.reverse_append]
    rfl

/-! ## One call -/

/-- A certificate whose parents were fed can be fed. -/
theorem Fed.cons (hfed : Fed G fed) (hc : c ∈ G.certificates)
    (hparents : 2 ≤ c.round → ∀ digest ∈ c.parents, ∃ p ∈ fed, p.digest = digest) :
    Fed G (c :: fed) := by
  refine ⟨fun d hd => ?_, fun d hd hround digest hdigest => ?_⟩
  · rcases List.mem_cons.1 hd with rfl | hd
    · exact hc
    · exact hfed.mem d hd
  · have hold : ∃ p ∈ fed, p.digest = digest := by
      rcases List.mem_cons.1 hd with rfl | hd
      · exact hparents hround digest hdigest
      · exact hfed.parents d hd hround digest hdigest
    obtain ⟨p, hp, heq⟩ := hold
    exact ⟨p, List.mem_cons_of_mem _ hp, heq⟩

/-- The support that a validator sees is support in the DAG. -/
theorem Tracks.supported (h : Tracks gcDepth fed state) (hfed : Fed G fed) {leader : Certificate}
    (hleader : leader ∈ G.certificates) {r : Nat} (hr : 2 ≤ r)
    (hsupport : tusk.committee.validityThreshold ≤ tusk.support leader (state.dag.values r)) :
    G.Supported leader := by
  refine ⟨(state.dag.values r).filter fun x => x.parents.contains leader.digest,
    (h.nodup r).sublist (List.filter_sublist.map _), fun x hx => ?_, hsupport⟩
  obtain ⟨hx, hparent⟩ := List.mem_filter.1 hx
  obtain ⟨hmem, hround, -⟩ := (h.mem r x).1 hx
  exact ⟨hfed.mem x hmem, hleader, hround ▸ hr, by simpa using hparent⟩

/-- Before its loop, `process_certificate` inserts the certificate and finds the leaders that come
next. -/
theorem pendingLeaders_spec (h : Tracks gcDepth fed state) (hfed : Fed G fed)
    (hlast : ∀ l ∈ last, OnHistory G l)
    (hround : state.lastRound.committedRound = committedRound last) (hc : c ∈ G.certificates)
    (hparents : 2 ≤ c.round → ∀ digest ∈ c.parents, ∃ p ∈ fed, p.digest = digest) :
    ∃ outcome leaders state', tusk.pendingLeaders state c = .ok ((outcome, leaders), state') ∧
      Tracks gcDepth (c :: fed) state' ∧ state'.ledger = state.ledger ∧
      (leaders = [] ∨ ∃ y ∈ c :: fed, IsAnchor G y ∧ leaders.getLast? = some y ∧
        committedLeaders G (some y) = committedLeaders G last ++ leaders) := by
  obtain ⟨inserted, state', hinsert, htracks, hledger, -⟩ := h.insert hfed hc hparents
  have hfed' := hfed.cons hc hparents
  have hround : state'.lastRound.committedRound = committedRound last :=
    (congrArg (fun ledger => ledger.lastRound.committedRound) hledger).trans hround
  have hrule := tusk.pendingLeaders_rule (P := fun leaders => leaders = [] ∨ ∃ y ∈ c :: fed,
    IsAnchor G y ∧ leaders.getLast? = some y ∧
      committedLeaders G (some y) = committedLeaders G last ++ leaders) hinsert
    (.inl rfl) fun _ heven htwo hcommitted => ?_
  · obtain ⟨outcome, leaders, hpending, hleaders⟩ := hrule
    exact ⟨outcome, leaders, state', hpending, htracks, hledger, hleaders⟩
  have hgcle := htracks.gcRound_le
  obtain ⟨found, hleader, hfound⟩ := leaderCertificate_spec htracks hfed' (r := c.round - 1)
    heven (by omega)
  refine ⟨(htracks.mem _ c).2 ⟨List.mem_cons_self, rfl, by omega⟩, found, hleader,
    fun leader hmem hsupport => ?_⟩
  obtain ⟨hmem, hat⟩ := (hfound leader).1 hmem
  obtain ⟨hleaderG, hlr, -⟩ := leaderAt_eq_some_iff.1 hat
  have hanchor : IsAnchor G leader :=
    ⟨hlr ▸ hat, htracks.supported hfed' hleaderG (by omega) hsupport, by omega, by omega⟩
  refine ⟨_, orderLeaders_eq htracks hfed' hmem hanchor.even (by omega),
    .inr ⟨leader, hmem, hanchor, by rw [List.getLast?_reverse, List.head?_cons], ?_⟩⟩
  rw [hround]
  exact committedLeaders_of_onHistory hlast hanchor (by omega)

/-- The leaders that come next have been fed with a later one, and are not below the last one. -/
theorem of_mem_pending (hfed : Fed G fed) (hy : IsAnchor G y) (hyfed : y ∈ fed)
    {leaders : List Certificate}
    (hpending : committedLeaders G (some y) = committedLeaders G last ++ leaders)
    (hl : l ∈ leaders) : l ∈ fed ∧ 0 < l.round ∧ committedRound last ≤ l.round := by
  have hmem : l ∈ G.history tusk.leaderSchedule y :=
    List.mem_reverse.1 (hpending ▸ List.mem_append_right _ hl : l ∈ committedLeaders G (some y))
  refine ⟨hfed.reach hyfed (reach_of_mem_history hmem), ?_, ?_⟩
  · rcases List.mem_cons.1 hmem with rfl | hmem
    · exact Nat.lt_of_lt_of_le Nat.two_pos hy.two_le
    · exact Nat.lt_of_lt_of_le Nat.two_pos (of_mem_chain hmem).2.1
  · cases last with
    | none => exact Nat.zero_le _
    | some m =>
      have hpair := pairwise_committedLeaders G y
      rw [hpending] at hpair
      exact Nat.le_of_lt ((List.pairwise_append.1 hpair).2.2 m (mem_committedLeaders_self G m) l hl)

/-- A call commits the leaders that come next, or none. -/
theorem processCertificate_spec (h : Tracks gcDepth fed state) (hfed : Fed G fed)
    (hgc : 1 ≤ gcDepth)
    {subDags : List CommittedSubDag} (ha : Anchored G gcDepth last subDags state.ledger)
    (hc : c ∈ G.certificates)
    (hparents : 2 ≤ c.round → ∀ digest ∈ c.parents, ∃ p ∈ fed, p.digest = digest) :
    ∃ outcome new state' last', tusk.processCertificate state c = .ok ((outcome, new), state') ∧
      Tracks gcDepth (c :: fed) state' ∧
      Anchored G gcDepth last' (subDags ++ new) state'.ledger := by
  obtain ⟨outcome, leaders, state₁, hpending, htracks, hledger, hleaders⟩ :=
    pendingLeaders_spec h hfed (fun l hl => (ha.anchor l hl).onHistory) ha.round hc hparents
  rw [← hledger] at ha
  have hprocess : ∀ {new state'}, tusk.commitLeaders leaders state₁ = .ok (new, state') →
      tusk.processCertificate state c = .ok ((outcome, new), state') := by
    intro new state' hnew
    rw [tusk.processCertificate_eq, hpending]
    simp only [bind, Except.bind, hnew]
    rfl
  rcases hleaders with rfl | ⟨y, hyfed, hy, hgetLast, hnext⟩
  · exact ⟨outcome, [], state₁, last, hprocess rfl, htracks, by rwa [List.append_nil]⟩
  have hround : state₁.lastRound.committedRound = committedRound last := ha.round
  have hmem := fun l hl => of_mem_pending (l := l) (hfed.cons hc hparents) hy hyfed hnext hl
  have hsorted := pairwise_committedLeaders G y
  rw [hnext] at hsorted
  rw [← hround] at hmem
  obtain ⟨state', hcommit, hledger', htracks', hlast⟩ := commitLeaders_spec htracks
    (hfed.cons hc hparents) hgc hmem ((List.pairwise_append.1 hsorted).2.1.imp Nat.le_of_lt)
  refine ⟨outcome, _, state', some y, hprocess hcommit, htracks', fun x hx => ?_, ?_, ?_⟩
  · exact Option.some.inj hx ▸ hy
  · rw [hgetLast] at hlast
    exact hlast
  · rw [hnext, commitAll_append, ha.eq, hledger']

end

/-- The parents of the certificate are among the known certificates. -/
def parentsKnown (known : List Certificate) (c : Certificate) : Bool :=
  c.round < 2 || c.parents.all fun digest => known.any fun p => p.digest = digest

/-- The check of the parents looks for the digest of each. -/
theorem parentsKnown_iff {known : List Certificate} {c : Certificate} :
    parentsKnown known c = true ↔
      (2 ≤ c.round → ∀ digest ∈ c.parents, ∃ p ∈ known, p.digest = digest) := by
  rw [parentsKnown, Bool.or_eq_true, decide_eq_true_eq, ← Nat.not_le, ← imp_iff_not_or]
  simp

/-- A certificate of the feed comes after its parents, when the certificates of `fed` have come
before. It may come more than once. -/
def parentsFirst : List Certificate → List Certificate → Bool
  | _, [] => true
  | fed, c :: feed => parentsKnown fed c && parentsFirst (c :: fed) feed

/-- A feed of certificates of the DAG in an order in which a certificate comes after its parents. -/
structure Causal (G : CertificateDag committee) (fed feed : List Certificate) : Prop where
  mem : ∀ c ∈ feed, c ∈ G.certificates
  parentsFirst : parentsFirst fed feed = true

/-- In a feed with the parents first, the parents of the first certificate are known. -/
theorem parentsFirst_cons {fed feed : List Certificate} {c : Certificate}
    (h : parentsFirst fed (c :: feed) = true) :
    (2 ≤ c.round → ∀ digest ∈ c.parents, ∃ p ∈ fed, p.digest = digest) ∧
      parentsFirst (c :: fed) feed = true := by
  obtain ⟨hknown, hrest⟩ : parentsKnown fed c = true ∧ parentsFirst (c :: fed) feed = true :=
    Bool.and_eq_true_iff.1 h
  exact ⟨parentsKnown_iff.1 hknown, hrest⟩

/-- The first certificate of a causal feed can be fed, and the rest stays causal. -/
theorem Causal.cons {fed feed : List Certificate} {c : Certificate} (h : Causal G fed (c :: feed)) :
    c ∈ G.certificates ∧
      (2 ≤ c.round → ∀ digest ∈ c.parents, ∃ p ∈ fed, p.digest = digest) ∧
      Causal G (c :: fed) feed := by
  obtain ⟨hparents, hfirst⟩ := parentsFirst_cons h.parentsFirst
  exact ⟨h.mem c List.mem_cons_self, hparents, fun d hd => h.mem d (List.mem_cons_of_mem _ hd),
    hfirst⟩

/-- A causal feed is processed without an error, and what it commits stays anchored. -/
theorem processAll_spec {tusk : Tusk} {G : CertificateDag tusk.committee} {gcDepth : Nat}
    (hgc : 1 ≤ gcDepth) {feed fed : List Certificate} (hfeed : Causal G fed feed) (hfed : Fed G fed)
    {state : ConsensusState} (h : Tracks gcDepth fed state) {last : Option Certificate}
    {subDags : List CommittedSubDag} (ha : Anchored G gcDepth last subDags state.ledger) :
    ∃ new state' last', tusk.processAll feed state = .ok (new, state') ∧
      Anchored G gcDepth last' (subDags ++ new) state'.ledger := by
  induction feed generalizing fed state last subDags with
  | nil => exact ⟨[], state, last, rfl, by rwa [List.append_nil]⟩
  | cons c feed ih =>
    obtain ⟨hc, hparents, hfeed⟩ := hfeed.cons
    obtain ⟨outcome, new, state₁, last₁, heq, htracks, ha₁⟩ :=
      processCertificate_spec h hfed hgc ha hc hparents
    obtain ⟨new', state₂, last₂, heq', ha₂⟩ := ih hfeed (hfed.cons hc hparents) htracks ha₁
    refine ⟨new ++ new', state₂, last₂, ?_, by rwa [← List.append_assoc]⟩
    rw [Tusk.processAll, heq]
    simp only [bind, Except.bind, heq']

/-- The sub-dags that a validator produces from `ConsensusState::new` on. -/
def Tusk.produced (tusk : Tusk) (gcDepth : Nat) (feed : List Certificate) :
    Except Fault (List CommittedSubDag) :=
  (tusk.processAll feed { gcDepth }).map (·.1)

/-- What a validator produces is given by the last leader that it saw supported. -/
theorem exists_produced {tusk : Tusk} (G : CertificateDag tusk.committee) {gcDepth : Nat}
    (hgc : 1 ≤ gcDepth) {feed : List Certificate} (hfeed : Causal G [] feed) :
    ∃ last, (∀ x ∈ last, IsAnchor G x) ∧
      tusk.produced gcDepth feed = .ok (G.commitAll gcDepth (committedLeaders G last) {}).1 := by
  have hnone : Anchored G gcDepth none [] (ConsensusState.ledger { gcDepth }) := ⟨nofun, rfl, rfl⟩
  obtain ⟨new, state', last, heq, ha⟩ := processAll_spec hgc hfeed ⟨nofun, nofun⟩ (.new gcDepth)
    hnone
  refine ⟨last, ha.anchor, ?_⟩
  rw [Tusk.produced, heq, ha.eq]
  rfl

/-- **Agreement**: two validators that are fed certificates of one DAG, each in an order in which a
certificate comes after its parents, both produce committed sub-dags without a fault, and one of the
two sequences is a beginning of the other. -/
theorem tusk_agreement (tusk : Tusk) (G : CertificateDag tusk.committee) (gcDepth : Nat)
    (hgc : 1 ≤ gcDepth) (feed feed' : List Certificate) (hfeed : Causal G [] feed)
    (hfeed' : Causal G [] feed') :
    ∃ subDags subDags', tusk.produced gcDepth feed = .ok subDags ∧
      tusk.produced gcDepth feed' = .ok subDags' ∧
      (subDags <+: subDags' ∨ subDags' <+: subDags) := by
  obtain ⟨last, hanchor, heq⟩ := exists_produced G hgc hfeed
  obtain ⟨last', hanchor', heq'⟩ := exists_produced G hgc hfeed'
  refine ⟨_, _, heq, heq', ?_⟩
  rcases Nat.le_total (committedRound last) (committedRound last') with hle | hle
  · exact .inl (commitAll_mono (committedLeaders_prefix_of_le hanchor hanchor' hle) _)
  · exact .inr (commitAll_mono (committedLeaders_prefix_of_le hanchor' hanchor hle) _)

namespace TuskFixture

/-- Four authorities of equal stake, and a schedule in which they take turns. -/
def tusk : Tusk where
  committee := ⟨[⟨0, 1⟩, ⟨1, 1⟩, ⟨2, 1⟩, ⟨3, 1⟩], by decide⟩
  leaderSchedule round := round / 2 % 4

/-- The certificate of an authority in a round; its parents are all certificates of the round
before. -/
def certificate (round origin : Nat) : Certificate where
  digest := BitVec.ofNat 256 (4 * round + origin)
  round
  origin
  parents :=
    if round < 2 then [] else (List.range 4).map fun o => BitVec.ofNat 256 (4 * (round - 1) + o)

/-- The certificates of the rounds `1` to `3`. -/
def certificates : List Certificate :=
  [1, 2, 3].flatMap fun round => (List.range 4).map (certificate round)

/-- The certificates of the round before. -/
def previous (c : Certificate) : List Certificate :=
  certificates.filter fun p => p.round + 1 = c.round

/-- The parents of a certificate of the fixture are a quorum. -/
theorem quorum_previous : ∀ c ∈ certificates, 2 ≤ c.round →
    ((previous c).map (·.origin)).Nodup ∧
      (∀ p ∈ previous c, p ∈ certificates ∧ p.digest ∈ c.parents) ∧
      tusk.committee.quorumThreshold ≤
        ((previous c).map fun p => tusk.committee.stakeById p.origin).sum := by
  decide +kernel

/-- The parents of a certificate of the fixture are in the round before. -/
theorem parents_previous : ∀ c ∈ certificates, 2 ≤ c.round →
    (c.parents.all fun digest =>
      certificates.any fun p => p.digest = digest ∧ p.round + 1 = c.round) = true := by
  decide +kernel

/-- The DAG of the certificates. -/
def dag : CertificateDag tusk.committee where
  certificates := { c | c ∈ certificates }
  digest_injective := (by decide +kernel :
    ∀ c ∈ certificates, ∀ d ∈ certificates, c.digest = d.digest → c = d)
  unique := (by decide +kernel :
    ∀ c ∈ certificates, ∀ d ∈ certificates, c.round = d.round → c.origin = d.origin → c = d)
  authority := (by decide +kernel :
    ∀ c ∈ certificates, c.origin ∈ tusk.committee.authorities.map (·.id))
  parents c hc hround digest hdigest := by
    have h := List.all_eq_true.1 (parents_previous c hc hround) digest hdigest
    simpa using h
  quorum c hc hround := ⟨previous c, quorum_previous c hc hround⟩

/-- A feed in which the authorities of a round come in the reverse order, and of the last round only
one has come. -/
def reversedFeed : List Certificate :=
  (certificates.take 4).reverse ++ ((certificates.drop 4).take 4).reverse ++ [certificate 3 3]

/-- The first validator has seen the leader of round `2` supported, the second one has not. -/
theorem tusk_agreement_reversed :
    (tusk.produced 50 certificates).toOption.map (·.map (·.leader)) = some [certificate 2 1] ∧
      ∃ subDags subDags', tusk.produced 50 certificates = .ok subDags ∧
        tusk.produced 50 reversedFeed = .ok subDags' ∧
        (subDags <+: subDags' ∨ subDags' <+: subDags) := by
  have hmem : ∀ c ∈ reversedFeed, c ∈ certificates := by decide +kernel
  exact ⟨by decide +kernel, tusk_agreement tusk dag 50 (by decide) certificates reversedFeed
    ⟨fun c hc => hc, by decide +kernel⟩ ⟨hmem, by decide +kernel⟩⟩

end TuskFixture

end Chase.Narwhal
