import Chase.Narwhal.Consensus

/-!
# Tusk

`process_certificate`: a certificate of an odd round may complete the support for the leader of the
round before. If it does, the leader is committed, and before it the leaders of the earlier rounds
that are not committed and to which there is a path (`order_leaders`). Metrics are left out; the
writes to the store are modelled with the restarts (`Chase.Narwhal.Restart`).
-/

namespace Chase.Narwhal

/-- `Outcome`. -/
inductive Outcome where
  | certificateBelowCommitRound
  | noLeaderElectedForOddRound
  | leaderBelowCommitRound
  | leaderNotFound
  | notEnoughSupportForLeader
  | commit
  deriving DecidableEq, Repr

/-- `Tusk`, with a fixed leader schedule. -/
structure Tusk where
  committee : Committee
  leaderSchedule : Nat → AuthorityIdentifier

namespace Tusk

variable (tusk : Tusk)

/-- `LeaderSchedule::leader`. -/
def leader (round : Nat) : Except Fault AuthorityIdentifier :=
  if round % 2 = 0 then .ok (tusk.leaderSchedule round) else .error (.oddRound round)

/-- `leader_certificate`. -/
def leaderCertificate (round : Nat) (dag : Dag) : Except Fault (Option Certificate) := do
  let leader ← tusk.leader round
  .ok ((dag round).bind (·.find? (·.origin = leader)))

/-- The certificates of `linked` after `n` rounds of its loop. -/
def linkedParents (leader : Certificate) (dag : Dag) : Nat → Except Fault (List Certificate)
  | 0 => .ok [leader]
  | n + 1 => do
    let parents ← linkedParents leader dag n
    match dag (leader.round - (n + 1)) with
    | none => .error (.wholeHistory (leader.round - (n + 1)))
    | some table => .ok (table.filter fun c => parents.any fun x => x.parents.contains c.digest)

/-- `linked`. -/
def linked (leader prevLeader : Certificate) (dag : Dag) : Except Fault Bool := do
  let parents ← linkedParents leader dag (leader.round - prevLeader.round)
  .ok (parents.contains prevLeader)

/-- The rounds `(low..=high).rev().step_by(2)`. -/
def stepRounds (low high : Nat) : List Nat :=
  (List.range ((high + 2 - low) / 2)).map fun i => high - 2 * i

/-- The loop of `order_leaders`. -/
def previousLeaders (dag : Dag) : List Nat → Certificate → Except Fault (List Certificate)
  | [], _ => .ok []
  | r :: rounds, leader => do
    match ← tusk.leaderCertificate r dag with
    | none => previousLeaders dag rounds leader
    | some prevLeader =>
      if ← linked leader prevLeader dag then
        let toCommit ← previousLeaders dag rounds prevLeader
        .ok (prevLeader :: toCommit)
      else previousLeaders dag rounds leader

/-- `order_leaders`. -/
def orderLeaders (leader : Certificate) (state : ConsensusState) :
    Except Fault (List Certificate) := do
  if leader.round % 2 ≠ 0 then throw (.oddRound leader.round)
  let toCommit ← tusk.previousLeaders state.dag
    (stepRounds (state.lastRound.committedRound + 2) (leader.round - 2)) leader
  match (leader :: toCommit).find? fun c =>
      !tusk.committee.authorities.any (·.id = c.origin) with
  | some c => .error (.unknownAuthority c.origin)
  | none => .ok (leader :: toCommit)

/-- A bound for the traversals of `order_dag`: the number of certificates up to a round. -/
def fuel (round : Nat) : Nat := tusk.committee.authorities.length * round

/-- The body of the loop over the leaders. -/
def commitLeader (leader : Certificate) (state : ConsensusState) :
    Except Fault (CommittedSubDag × ConsensusState) := do
  let subDagIndex := state.nextSubDagIndex
  let sequence ← orderDag (tusk.fuel leader.round) leader state
  let state := sequence.foldl ConsensusState.update state
  let subDag := CommittedSubDag.new sequence leader subDagIndex state.lastCommittedSubDag
  .ok (subDag, { state with lastCommittedSubDag := some subDag })

/-- The loop over the leaders, from the oldest to the newest. -/
def commitLeaders : List Certificate → ConsensusState →
    Except Fault (List CommittedSubDag × ConsensusState)
  | [], state => .ok ([], state)
  | leader :: leaders, state => do
    let (subDag, state) ← tusk.commitLeader leader state
    let (subDags, state) ← commitLeaders leaders state
    .ok (subDag :: subDags, state)

/-- The stake of the certificates of a round that have the leader as a parent. -/
def support (leader : Certificate) (values : List Certificate) : Nat :=
  ((values.filter fun x => x.parents.contains leader.digest).map fun x =>
    tusk.committee.stakeById x.origin).sum

/-- `process_certificate`. -/
def processCertificate (state : ConsensusState) (certificate : Certificate) :
    Except Fault ((Outcome × List CommittedSubDag) × ConsensusState) := do
  let round := certificate.round
  let (inserted, state) ← state.tryInsert certificate
  if !inserted then return ((.certificateBelowCommitRound, []), state)
  let r := round - 1
  if r % 2 ≠ 0 ∨ r < 2 then return ((.noLeaderElectedForOddRound, []), state)
  let leaderRound := r
  if leaderRound ≤ state.lastRound.committedRound then
    return ((.leaderBelowCommitRound, []), state)
  match ← tusk.leaderCertificate leaderRound state.dag with
  | none => return ((.leaderNotFound, []), state)
  | some leader =>
    match state.dag round with
    | none => throw (.wholeHistory round)
    | some values =>
      if tusk.support leader values < tusk.committee.validityThreshold then
        return ((.notEnoughSupportForLeader, []), state)
      let leaders ← tusk.orderLeaders leader state
      let (subDags, state) ← tusk.commitLeaders leaders.reverse state
      return ((.commit, subDags), state)

/-- The part of `process_certificate` before its loop over the leaders: the certificate is inserted,
and the leaders are those that the loop commits, from the oldest to the newest. -/
def pendingLeaders (state : ConsensusState) (certificate : Certificate) :
    Except Fault ((Outcome × List Certificate) × ConsensusState) := do
  let round := certificate.round
  let (inserted, state) ← state.tryInsert certificate
  if !inserted then return ((.certificateBelowCommitRound, []), state)
  let r := round - 1
  if r % 2 ≠ 0 ∨ r < 2 then return ((.noLeaderElectedForOddRound, []), state)
  let leaderRound := r
  if leaderRound ≤ state.lastRound.committedRound then
    return ((.leaderBelowCommitRound, []), state)
  match ← tusk.leaderCertificate leaderRound state.dag with
  | none => return ((.leaderNotFound, []), state)
  | some leader =>
    match state.dag round with
    | none => throw (.wholeHistory round)
    | some values =>
      if tusk.support leader values < tusk.committee.validityThreshold then
        return ((.notEnoughSupportForLeader, []), state)
      let leaders ← tusk.orderLeaders leader state
      return ((.commit, leaders.reverse), state)

/-- `process_certificate` finds the leaders to commit and commits them. -/
theorem processCertificate_eq (state : ConsensusState) (certificate : Certificate) :
    tusk.processCertificate state certificate = do
      let ((outcome, leaders), state) ← tusk.pendingLeaders state certificate
      let (subDags, state) ← tusk.commitLeaders leaders state
      return ((outcome, subDags), state) := by
  rw [processCertificate, pendingLeaders]
  cases state.tryInsert certificate with
  | error fault => rfl
  | ok r =>
    simp only [bind, Except.bind]
    split
    · rfl
    split
    · rfl
    split
    · rfl
    cases tusk.leaderCertificate (certificate.round - 1) r.2.dag with
    | error fault => rfl
    | ok found =>
      cases found with
      | none => rfl
      | some leader =>
        dsimp only
        split
        · rfl
        split
        · rfl
        cases tusk.orderLeaders leader r.2 with
        | error fault => rfl
        | ok leaders => rfl

/-- The sub-dags that a validator produces when it is fed the certificates, and its state. -/
def processAll : List Certificate → ConsensusState →
    Except Fault (List CommittedSubDag × ConsensusState)
  | [], state => .ok ([], state)
  | certificate :: feed, state => do
    let ((_, subDags), state) ← tusk.processCertificate state certificate
    let (rest, state) ← processAll feed state
    .ok (subDags ++ rest, state)

end Tusk

end Chase.Narwhal
