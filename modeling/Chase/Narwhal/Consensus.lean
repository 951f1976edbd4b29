import Mathlib.Data.BitVec
import Mathlib.Data.List.Sort
import Mathlib.Logic.Function.Basic

/-!
# The state of the consensus

The committee with its thresholds, certificates, and `ConsensusState`: the DAG in memory, which is
cut off at the garbage collection round, and what has been committed of it. `try_insert` adds a
certificate to the DAG, `update` commits one, and `order_dag` collects the certificates that a
leader commits. Rounds and stakes are numbers. A panic or an error is a `Fault`, which ends the run.
-/

namespace Chase.Narwhal

/-- `AuthorityIdentifier`. -/
abbrev AuthorityIdentifier := Nat

/-- `CertificateDigest`. -/
abbrev CertificateDigest := BitVec 256

/-! ## Committee -/

/-- `Authority`. -/
structure Authority where
  id : AuthorityIdentifier
  stake : Nat
  deriving DecidableEq, Repr

/-- `Committee`. -/
structure Committee where
  authorities : List Authority
  nodup : (authorities.map (·.id)).Nodup

namespace Committee

variable (committee : Committee)

/-- `total_stake`. -/
def totalStake : Nat := (committee.authorities.map (·.stake)).sum

/-- `calculate_quorum_threshold`. -/
def quorumThreshold : Nat := 2 * committee.totalStake / 3 + 1

/-- `calculate_validity_threshold`. -/
def validityThreshold : Nat := (committee.totalStake + 2) / 3

/-- `stake_by_id`. -/
def stakeById (id : AuthorityIdentifier) : Nat :=
  ((committee.authorities.find? (·.id = id)).map (·.stake)).getD 0

end Committee

/-! ## Certificates -/

/-- `Certificate`, with the fields of its header that the consensus reads. The parents are a
`BTreeSet`: here the list of its elements in order. -/
structure Certificate where
  digest : CertificateDigest
  round : Nat
  origin : AuthorityIdentifier
  parents : List CertificateDigest
  createdAt : Nat := 0
  deriving DecidableEq, Repr

/-- `Dag`: the tables of the rounds. The table of a round is a `HashMap` from origins to
certificates with their digests: here the list of its certificates, whose order no modelled function
depends on. -/
abbrev Dag := Nat → Option (List Certificate)

/-- The certificates of a round. -/
def Dag.values (dag : Dag) (round : Nat) : List Certificate := (dag round).getD []

/-- `CommittedSubDag`, without its reputation scores, which are always zero here. -/
structure CommittedSubDag where
  certificates : List Certificate
  leader : Certificate
  subDagIndex : Nat
  commitTimestamp : Nat
  deriving DecidableEq, Repr

/-- `CommittedSubDag::new`. -/
def CommittedSubDag.new (certificates : List Certificate) (leader : Certificate) (subDagIndex : Nat)
    (previousSubDag : Option CommittedSubDag) : CommittedSubDag where
  certificates
  leader
  subDagIndex
  commitTimestamp := max ((previousSubDag.map (·.commitTimestamp)).getD 0) leader.createdAt

/-- How a call can fail. -/
inductive Fault where
  /-- The panics of `check_parents` and `order_dag`. -/
  | parentNotFound (parent : CertificateDigest) (certificate : Certificate)
  /-- The panic of `check_parents` on a missing round. -/
  | parentRoundNotFound (certificate : Certificate)
  /-- The `expect`s of `process_certificate` and `linked` on a missing round. -/
  | wholeHistory (round : Nat)
  /-- The assertions of `leader` and `order_leaders`. -/
  | oddRound (round : Nat)
  /-- The assertion of `order_dag`. -/
  | roundZero (leader : Certificate)
  /-- The `unwrap` of `order_leaders` on the authority of a leader. -/
  | unknownAuthority (id : AuthorityIdentifier)
  /-- `ConsensusError::CertificateEquivocation`. -/
  | equivocation (certificate existing : Certificate)
  /-- The traversal of `order_dag` has not ended within its bound. -/
  | outOfFuel
  deriving DecidableEq, Repr

/-! ## Rounds -/

/-- `gc_round`. -/
def gcRound (commitRound gcDepth : Nat) : Nat := commitRound - gcDepth

/-- `ConsensusRound`. -/
structure ConsensusRound where
  committedRound : Nat := 0
  gcRound : Nat := 0
  deriving DecidableEq, Repr

/-- `ConsensusRound::update`. -/
def ConsensusRound.update (r : ConsensusRound) (newCommittedRound gcDepth : Nat) :
    ConsensusRound :=
  let lastCommittedRound := max r.committedRound newCommittedRound
  ⟨lastCommittedRound, Narwhal.gcRound lastCommittedRound gcDepth⟩

/-! ## State -/

/-- `ConsensusState`; `{ gcDepth }` is `ConsensusState::new`. -/
structure ConsensusState where
  lastRound : ConsensusRound := {}
  gcDepth : Nat
  lastCommitted : AuthorityIdentifier → Option Nat := fun _ => none
  lastCommittedSubDag : Option CommittedSubDag := none
  dag : Dag := fun _ => none

namespace ConsensusState

variable (state : ConsensusState)

/-- `check_parents`. -/
def checkParents (certificate : Certificate) : Except Fault Unit :=
  -- the parents may be collected, or be those of the genesis
  if certificate.round ≤ state.lastRound.gcRound + 1 then .ok ()
  else
    match state.dag (certificate.round - 1) with
    | none => .error (.parentRoundNotFound certificate)
    | some roundTable =>
      match certificate.parents.find? fun parent => !roundTable.any (·.digest = parent) with
      | some parent => .error (.parentNotFound parent certificate)
      | none => .ok ()

/-- The table of the round of a certificate, with the certificate. -/
def insertedTable (certificate : Certificate) : List Certificate :=
  certificate :: (state.dag.values certificate.round).filter (·.origin ≠ certificate.origin)

/-- `try_insert`: whether the certificate is above the last committed round of its origin. It is
inserted also if it is not. -/
def tryInsert (certificate : Certificate) : Except Fault (Bool × ConsensusState) :=
  if certificate.round ≤ state.lastRound.gcRound then .ok (false, state)
  else do
    state.checkParents certificate
    match (state.dag.values certificate.round).find? fun c =>
        c.origin = certificate.origin && c.digest ≠ certificate.digest with
    | some existing => .error (.equivocation certificate existing)
    | none =>
      .ok ((state.lastCommitted certificate.origin).getD 0 < certificate.round,
        { state with
          dag := Function.update state.dag certificate.round
            (some (state.insertedTable certificate)) })

/-- `update`: the certificate is committed, and the rounds that are past the depth of the garbage
collection are dropped. -/
def update (certificate : Certificate) : ConsensusState :=
  let lastRound := state.lastRound.update certificate.round state.gcDepth
  { state with
    lastCommitted := Function.update state.lastCommitted certificate.origin
      (some (max ((state.lastCommitted certificate.origin).getD 0) certificate.round))
    lastRound
    dag := fun r => if lastRound.gcRound < r then state.dag r else none }

/-- `next_sub_dag_index`. -/
def nextSubDagIndex : Nat := ((state.lastCommittedSubDag.map (·.subDagIndex)).getD 0) + 1

end ConsensusState

/-! ## Sub-dags -/

/-- The variables of the loop of `order_dag`; the top of the buffer is its head. -/
structure Traversal where
  ordered : List Certificate := []
  alreadyOrdered : List CertificateDigest := []
  buffer : List Certificate

section

variable (parentOf : Certificate → CertificateDigest → Option Certificate)
  (lastCommitted : AuthorityIdentifier → Option Nat)

/-- A certificate that is already committed, or never will be, for its authority. -/
def isCommitted (certificate : Certificate) : Bool :=
  match lastCommitted certificate.origin with
  | some r => certificate.round ≤ r
  | none => false

/-- The loop of `order_dag` over the parents of a certificate. -/
def pushParents (x : Certificate) : List CertificateDigest → Traversal → Except Fault Traversal
  | [], t => .ok t
  | parent :: parents, t =>
    match parentOf x parent with
    | none => .error (.parentNotFound parent x)
    | some certificate =>
      if t.alreadyOrdered.contains certificate.digest || isCommitted lastCommitted certificate then
        pushParents x parents t
      else
        pushParents x parents
          { t with
            buffer := certificate :: t.buffer
            alreadyOrdered := certificate.digest :: t.alreadyOrdered }

/-- The loop of `order_dag` over its buffer. -/
def orderLoop (gcRound : Nat) : Nat → Traversal → Except Fault (List Certificate)
  | fuel, t =>
    match t.buffer with
    | [] => .ok t.ordered
    | x :: buffer =>
      match fuel with
      | 0 => .error .outOfFuel
      | fuel + 1 =>
        let t := { t with ordered := t.ordered ++ [x], buffer }
        if x.round = gcRound + 1 then orderLoop gcRound fuel t
        else
          match pushParents parentOf lastCommitted x x.parents t with
          | .error fault => .error fault
          | .ok t => orderLoop gcRound fuel t

/-- `order_dag`, over the lookup of a parent. The certificates are sorted by their rounds, with a
stable sort. -/
def orderFrom (gcDepth : Nat) (fuel : Nat) (leader : Certificate) :
    Except Fault (List Certificate) :=
  if leader.round = 0 then .error (.roundZero leader)
  else
    (orderLoop parentOf lastCommitted (gcRound leader.round gcDepth) fuel
      { buffer := [leader] }).map
      (List.insertionSort fun a b => a.round ≤ b.round)

end

/-- The lookup of a parent in the DAG. -/
def Dag.parentOf (dag : Dag) (x : Certificate) (parent : CertificateDigest) : Option Certificate :=
  (dag (x.round - 1)).bind (·.find? (·.digest = parent))

/-- `order_dag`. -/
def orderDag (fuel : Nat) (leader : Certificate) (state : ConsensusState) :
    Except Fault (List Certificate) :=
  orderFrom state.dag.parentOf state.lastCommitted state.gcDepth fuel leader

end Chase.Narwhal
