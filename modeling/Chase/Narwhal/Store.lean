import Chase.Lib.AssocMap
import Chase.Narwhal.Agreement
import Chase.Narwhal.Commits
import Mathlib.Data.List.MinMax

/-!
# The stores of a validator

What `write_consensus_state` and the certificate store keep on disk, and the state that
`Consensus::spawn` builds from it (`new_from_store`). The DAG is rebuilt from the certificates above
the garbage collection round, in the order of their rounds, so the parents of a certificate are
there before it, and the ledger is the one of the last write (`spawn_spec`). The table of the
sub-dags that an earlier version has written is left out: it is empty in a run of this version.
-/

namespace Chase.Narwhal

open CertificateDag

/-- How a restart can fail. -/
inductive RestartFault where
  /-- A fault of the consensus itself. -/
  | consensus (fault : Fault)
  /-- The `expect` on a certificate of the latest sub-dag, and the error of `after_round`. -/
  | certificateNotFound (digest : CertificateDigest)
  /-- The assertion of `Consensus::spawn`. -/
  | leaderRound (leaderRound lastCommittedRound : Nat)
  deriving DecidableEq, Repr

/-! ## The certificate store -/

/-- `CertificateStore`: the certificates by their digests, and the index of the digests by round and
origin. -/
structure CertificateStore where
  certificatesById : AssocMap CertificateDigest Certificate := []
  certificateIdByRound : AssocMap (Nat × AuthorityIdentifier) CertificateDigest := []

namespace CertificateStore

variable (store : CertificateStore)

/-- `write`. -/
def write (certificate : Certificate) : CertificateStore where
  certificatesById := store.certificatesById.insert certificate.digest certificate
  certificateIdByRound :=
    store.certificateIdByRound.insert (certificate.round, certificate.origin) certificate.digest

/-- `read`, where a missing certificate is a fault. -/
def read (digest : CertificateDigest) : Except RestartFault Certificate :=
  match store.certificatesById.get digest with
  | some certificate => .ok certificate
  | none => .error (.certificateNotFound digest)

/-- `read` for several digests. -/
def readAll : List CertificateDigest → Except RestartFault (List Certificate)
  | [] => .ok []
  | digest :: digests => do
    let certificate ← store.read digest
    let certificates ← readAll digests
    .ok (certificate :: certificates)

/-- The order of the rows of the index. -/
def rowLe (a b : (Nat × AuthorityIdentifier) × CertificateDigest) : Prop :=
  a.1.1 < b.1.1 ∨ a.1.1 = b.1.1 ∧ a.1.2 ≤ b.1.2

instance : DecidableRel rowLe := fun _ _ => inferInstanceAs (Decidable (_ ∨ _))

instance : Std.Total rowLe where
  total a b := by
    rcases Nat.lt_trichotomy a.1.1 b.1.1 with h | h | h
    · exact .inl (.inl h)
    · exact (Nat.le_total a.1.2 b.1.2).imp (fun hle => .inr ⟨h, hle⟩) fun hle => .inr ⟨h.symm, hle⟩
    · exact .inr (.inl h)

instance : IsTrans _ rowLe where
  trans a b c := by
    rintro (hab | ⟨hab, hle⟩) (hbc | ⟨hbc, hle'⟩)
    · exact .inl (hab.trans hbc)
    · exact .inl (hab.trans_eq hbc)
    · exact .inl (hab.trans_lt hbc)
    · exact .inr ⟨hab.trans hbc, Nat.le_trans hle hle'⟩

/-- `after_round`. -/
def afterRound (round : Nat) : Except RestartFault (List Certificate) :=
  store.readAll
    (((store.certificateIdByRound.filter fun row => round ≤ row.1.1).insertionSort rowLe).map (·.2))

end CertificateStore

/-! ## The consensus store -/

/-- `ConsensusCommit`, in its second version. -/
structure ConsensusCommit where
  certificates : List CertificateDigest
  leader : CertificateDigest
  leaderRound : Nat
  subDagIndex : Nat
  commitTimestamp : Nat
  deriving DecidableEq, Repr

/-- `ConsensusCommitV2::from_sub_dag`. -/
def ConsensusCommit.fromSubDag (subDag : CommittedSubDag) : ConsensusCommit where
  certificates := subDag.certificates.map (·.digest)
  leader := subDag.leader.digest
  leaderRound := subDag.leader.round
  subDagIndex := subDag.subDagIndex
  commitTimestamp := subDag.commitTimestamp

/-- `CommittedSubDag::from_commit`. -/
def CommittedSubDag.fromCommit (commit : ConsensusCommit) (certificates : List Certificate)
    (leader : Certificate) : CommittedSubDag where
  certificates
  leader
  subDagIndex := commit.subDagIndex
  commitTimestamp := commit.commitTimestamp

/-- `ConsensusStore`: the last committed rounds, and the commits by their indices. -/
structure ConsensusStore where
  lastCommitted : AuthorityIdentifier → Option Nat := fun _ => none
  committedSubDagsByIndex : AssocMap Nat ConsensusCommit := []

namespace ConsensusStore

/-- `write_consensus_state`: the rows of both tables are written at once. -/
def writeConsensusState (store : ConsensusStore) (lastCommitted : AuthorityIdentifier → Option Nat)
    (subDag : CommittedSubDag) : ConsensusStore where
  lastCommitted id := (lastCommitted id).or (store.lastCommitted id)
  committedSubDagsByIndex := store.committedSubDagsByIndex.insert subDag.subDagIndex
    (.fromSubDag subDag)

/-- `get_latest_sub_dag`. -/
def getLatestSubDag (store : ConsensusStore) : Option ConsensusCommit :=
  (store.committedSubDagsByIndex.argmax (·.1)).map (·.2)

end ConsensusStore

/-! ## Rebuilding the state -/

/-- `ConsensusRound::new_with_gc_depth`. -/
def ConsensusRound.newWithGcDepth (committedRound gcDepth : Nat) : ConsensusRound :=
  ⟨committedRound, Narwhal.gcRound committedRound gcDepth⟩

/-- `try_insert_in_dag`: what `try_insert` does with the fields that it reads. -/
def tryInsertInDag (dag : Dag) (lastCommitted : AuthorityIdentifier → Option Nat) (gcRound : Nat)
    (certificate : Certificate) : Except Fault (Bool × Dag) :=
  (ConsensusState.tryInsert { lastRound := { gcRound }, gcDepth := 0, lastCommitted, dag }
    certificate).map fun r => (r.1, r.2.dag)

/-- The loop of `construct_dag_from_cert_store`. -/
def insertAll (lastCommitted : AuthorityIdentifier → Option Nat) (gcRound : Nat) :
    List Certificate → Dag → Except Fault Dag
  | [], dag => .ok dag
  | certificate :: certificates, dag => do
    let (_, dag) ← tryInsertInDag dag lastCommitted gcRound certificate
    insertAll lastCommitted gcRound certificates dag

/-- `construct_dag_from_cert_store`. -/
def constructDagFromCertStore (certStore : CertificateStore)
    (lastCommitted : AuthorityIdentifier → Option Nat) (gcRound : Nat) :
    Except RestartFault Dag := do
  let certificates ← certStore.afterRound (gcRound + 1)
  (insertAll lastCommitted gcRound certificates fun _ => none).mapError .consensus

/-- The latest sub-dag, with its certificates. -/
def readSubDag (certStore : CertificateStore) :
    Option ConsensusCommit → Except RestartFault (Option CommittedSubDag)
  | none => .ok none
  | some commit => do
    let certificates ← certStore.readAll commit.certificates
    let leader ← certStore.read commit.leader
    .ok (some (.fromCommit commit certificates leader))

/-- `new_from_store`. -/
def ConsensusState.newFromStore (lastCommittedRound gcDepth : Nat)
    (recoveredLastCommitted : AuthorityIdentifier → Option Nat)
    (latestSubDag : Option ConsensusCommit)
    (certStore : CertificateStore) : Except RestartFault ConsensusState := do
  let lastRound := ConsensusRound.newWithGcDepth lastCommittedRound gcDepth
  let dag ← constructDagFromCertStore certStore recoveredLastCommitted lastRound.gcRound
  let lastCommittedSubDag ← readSubDag certStore latestSubDag
  .ok { lastRound, gcDepth, lastCommitted := recoveredLastCommitted, lastCommittedSubDag, dag }

/-- The highest of the last committed rounds, or `0`. Only authorities of the committee have one. -/
def highestCommitted (committee : Committee) (lastCommitted : AuthorityIdentifier → Option Nat) :
    Nat :=
  (committee.authorities.filterMap fun a => lastCommitted a.id).max?.getD 0

/-- The state that `Consensus::spawn` starts with. -/
def spawn (committee : Committee) (gcDepth : Nat) (store : ConsensusStore)
    (certStore : CertificateStore) : Except RestartFault ConsensusState := do
  let lastCommittedRound := highestCommitted committee store.lastCommitted
  match store.getLatestSubDag with
  | none =>
    ConsensusState.newFromStore lastCommittedRound gcDepth store.lastCommitted none certStore
  | some subDag =>
    if subDag.leaderRound ≠ lastCommittedRound then
      throw (.leaderRound subDag.leaderRound lastCommittedRound)
    ConsensusState.newFromStore lastCommittedRound gcDepth store.lastCommitted (some subDag)
      certStore

/-! ## What the certificate store holds -/

/-- The row of a certificate in the index. -/
def rowOf (c : Certificate) : (Nat × AuthorityIdentifier) × CertificateDigest :=
  ((c.round, c.origin), c.digest)

/-- The store holds the certificates of the list. -/
structure CertificateStore.Holds (store : CertificateStore) (stored : List Certificate) : Prop where
  byId : ∀ c ∈ stored, store.certificatesById.get c.digest = some c
  byRound : ∀ row, row ∈ store.certificateIdByRound ↔ ∃ c ∈ stored, rowOf c = row

section

variable {committee : Committee} {G : CertificateDag committee} {certStore : CertificateStore}
  {stored : List Certificate}

namespace CertificateStore.Holds

/-- An empty store holds nothing. -/
theorem nil : CertificateStore.Holds {} [] :=
  ⟨nofun, fun _ => ⟨nofun, fun ⟨_, hc, _⟩ => nomatch hc⟩⟩

/-- A certificate of the DAG is written. -/
theorem write (h : certStore.Holds stored) (hstored : ∀ d ∈ stored, d ∈ G.certificates)
    {c : Certificate} (hc : c ∈ G.certificates) : (certStore.write c).Holds (c :: stored) := by
  refine ⟨fun d hd => ?_, fun row => ?_⟩
  · by_cases hdigest : d.digest = c.digest
    · have hdc : d = c := by
        rcases List.mem_cons.1 hd with rfl | hd
        · rfl
        · exact G.digest_injective d (hstored d hd) c hc hdigest
      rw [hdc]
      exact AssocMap.get_insert_self
    · have hd : d ∈ stored := (List.mem_cons.1 hd).resolve_left fun heq => hdigest (heq ▸ rfl)
      exact (AssocMap.get_insert_of_ne hdigest).trans (h.byId d hd)
  · change row ∈ AssocMap.insert certStore.certificateIdByRound (rowOf c).1 (rowOf c).2 ↔ _
    rw [AssocMap.insert, List.mem_cons, AssocMap.remove, List.mem_filter, h.byRound,
      List.exists_mem_cons_iff, eq_comm]
    refine or_congr_right' fun hne => ⟨And.left, fun hrow => ⟨hrow, ?_⟩⟩
    -- another certificate with the key would be this one
    obtain ⟨d, hd, rfl⟩ := hrow
    refine decide_eq_true fun hkey => hne ?_
    obtain ⟨hround, horigin⟩ := Prod.mk.inj hkey
    rw [G.unique d (hstored d hd) c hc hround horigin]

/-- A stored certificate is read back. -/
theorem read (h : certStore.Holds stored) {c : Certificate} (hc : c ∈ stored) :
    certStore.read c.digest = .ok c := by
  rw [CertificateStore.read, h.byId c hc]

/-- Stored certificates are read back. -/
theorem readAll (h : certStore.Holds stored) {cs : List Certificate} (hcs : ∀ c ∈ cs, c ∈ stored) :
    certStore.readAll (cs.map (·.digest)) = .ok cs := by
  induction cs with
  | nil => rfl
  | cons c cs ih =>
    rw [List.map_cons, CertificateStore.readAll, h.read (hcs c List.mem_cons_self),
      ih fun d hd => hcs d (List.mem_cons_of_mem _ hd)]
    rfl

/-- `after_round` returns the certificates from a round on, in the order of their rounds. -/
theorem afterRound (h : certStore.Holds stored) (hstored : ∀ d ∈ stored, d ∈ G.certificates)
    (round : Nat) :
    ∃ cs, certStore.afterRound round = .ok cs ∧ (cs.Pairwise fun a b => a.round ≤ b.round) ∧
      ∀ c, c ∈ cs ↔ c ∈ stored ∧ round ≤ c.round := by
  have hrows : ∀ rows : List ((Nat × AuthorityIdentifier) × CertificateDigest),
      (∀ row ∈ rows, ∃ c ∈ stored, rowOf c = row) →
        ∃ cs : List Certificate, (∀ c ∈ cs, c ∈ stored) ∧ cs.map rowOf = rows := by
    intro rows hrows
    induction rows with
    | nil => exact ⟨[], nofun, rfl⟩
    | cons row rows ih =>
      obtain ⟨c, hc, rfl⟩ := hrows row List.mem_cons_self
      obtain ⟨cs, hcs, rfl⟩ := ih fun row hrow => hrows row (List.mem_cons_of_mem _ hrow)
      exact ⟨c :: cs, List.forall_mem_cons.2 ⟨hc, hcs⟩, rfl⟩
  have hperm := List.perm_insertionSort CertificateStore.rowLe
    (certStore.certificateIdByRound.filter fun row => round ≤ row.1.1)
  have hsorted := List.pairwise_insertionSort CertificateStore.rowLe
    (certStore.certificateIdByRound.filter fun row => round ≤ row.1.1)
  obtain ⟨cs, hcs, heq⟩ := hrows _ fun row hrow =>
    (h.byRound row).1 (List.mem_of_mem_filter (hperm.mem_iff.1 hrow))
  rw [← heq] at hperm hsorted
  refine ⟨cs, ?_, ?_, fun c => ⟨fun hc => ?_, fun hc => ?_⟩⟩
  · rw [CertificateStore.afterRound, ← heq, List.map_map]
    exact h.readAll hcs
  · refine (List.pairwise_map.1 hsorted).imp fun hle => ?_
    rcases hle with hlt | hle
    · exact Nat.le_of_lt hlt
    · exact Nat.le_of_eq hle.1
  · have := (List.mem_filter.1 (hperm.mem_iff.1 (List.mem_map_of_mem hc))).2
    exact ⟨hcs c hc, of_decide_eq_true this⟩
  · have hrow : rowOf c ∈ cs.map rowOf :=
      hperm.mem_iff.2 (List.mem_filter.2 ⟨(h.byRound _).2 ⟨c, hc.1, rfl⟩, decide_eq_true hc.2⟩)
    obtain ⟨d, hd, hdc⟩ := List.mem_map.1 hrow
    have hdigest : d.digest = c.digest := congrArg Prod.snd hdc
    rwa [← G.digest_injective d (hstored d (hcs d hd)) c (hstored c hc.1) hdigest]

end CertificateStore.Holds

/-! ## The DAG -/

/-- `try_insert` is the insertion into the DAG of the state. -/
theorem ConsensusState.tryInsert_eq (state : ConsensusState) (c : Certificate) :
    state.tryInsert c = (tryInsertInDag state.dag state.lastCommitted state.lastRound.gcRound c).map
      fun r => (r.1, { state with dag := r.2 }) := by
  rw [tryInsertInDag, ConsensusState.tryInsert, ConsensusState.tryInsert]
  split
  · rfl
  · change (state.checkParents c >>= _) = ((state.checkParents c >>= _).map _).map _
    cases state.checkParents c with
    | error fault => rfl
    | ok _ =>
      simp only [bind, Except.bind]
      split <;> rfl

/-- A certificate that passes `check_parents` is inserted in the DAG of a state. -/
theorem Tracks.tryInsertInDag {gcDepth : Nat} {fed : List Certificate} {state : ConsensusState}
    (h : Tracks gcDepth fed state) {c : Certificate}
    (hunique : ∀ d ∈ fed, d.round = c.round → d.origin = c.origin → d = c)
    (hcheck : state.checkParents c = .ok ()) :
    ∃ inserted dag, tryInsertInDag state.dag state.lastCommitted state.lastRound.gcRound c =
        .ok (inserted, dag) ∧ Tracks gcDepth (c :: fed) { state with dag } := by
  obtain ⟨inserted, state', heq, htracks, -⟩ := h.tryInsert hunique hcheck
  rw [ConsensusState.tryInsert_eq] at heq
  cases hdag : Narwhal.tryInsertInDag state.dag state.lastCommitted state.lastRound.gcRound c with
  | error fault =>
    rw [hdag] at heq
    cases heq
  | ok r =>
    rw [hdag] at heq
    cases heq
    exact ⟨_, _, rfl, htracks⟩

/-- The loop of `construct_dag_from_cert_store`: the certificates come in the order of their rounds,
so above the lowest round the parents of each have come before it. -/
theorem Tracks.insertAll {gcDepth : Nat} {fed rest : List Certificate} {state : ConsensusState}
    (h : Tracks gcDepth fed state) (hstored : Fed G stored)
    (hmem : ∀ c ∈ fed ++ rest, c ∈ stored)
    (hcover : ∀ p ∈ stored, state.lastRound.gcRound < p.round → p ∈ fed ∨ p ∈ rest)
    (hsorted : rest.Pairwise fun a b => a.round ≤ b.round) :
    ∃ dag, insertAll state.lastCommitted state.lastRound.gcRound rest state.dag = .ok dag ∧
      Tracks gcDepth (rest.reverse ++ fed) { state with dag } := by
  induction rest generalizing fed state with
  | nil => exact ⟨state.dag, rfl, h⟩
  | cons c rest ih =>
    obtain ⟨hfirst, hsorted⟩ := List.pairwise_cons.1 hsorted
    have hc : c ∈ stored := hmem c (by simp)
    have hcheck : state.checkParents c = .ok () := by
      by_cases hlow : c.round ≤ state.lastRound.gcRound + 1
      · rw [ConsensusState.checkParents, if_pos hlow]
      have hparents : ∀ digest ∈ c.parents, ∃ p ∈ fed, p.digest = digest ∧
          p.round + 1 = c.round := by
        intro digest hdigest
        obtain ⟨p, hp, rfl⟩ := hstored.parents c hc (by omega) digest hdigest
        have hround : p.round + 1 = c.round :=
          G.layered.parent_round (c := c) ⟨hstored.mem c hc, hstored.mem p hp, by omega, hdigest⟩
        refine ⟨p, (hcover p hp (by omega)).resolve_right fun hp => ?_, rfl, hround⟩
        rcases List.mem_cons.1 hp with rfl | hp
        · omega
        · have := hfirst p hp
          omega
      refine (h.checkParents fun _ => hparents).resolve_right fun hempty => ?_
      obtain ⟨q, hq⟩ := exists_parent (hstored.mem c hc) hempty.1.1
      exact List.not_mem_nil (hempty.1.2 ▸ hq.2.2.2)
    obtain ⟨inserted, dag, hinsert, htracks⟩ := h.tryInsertInDag (fun d hd hround horigin =>
      G.unique d (hstored.mem d (hmem d (List.mem_append_left _ hd))) c (hstored.mem c hc) hround
        horigin) hcheck
    obtain ⟨dag', hrest, htracks'⟩ := ih htracks
      (fun d hd => hmem d (List.perm_middle.mem_iff.2 hd)) (fun p hp hround => by
        rcases hcover p hp hround with hp | hp
        · exact .inl (List.mem_cons_of_mem _ hp)
        · rcases List.mem_cons.1 hp with rfl | hp
          · exact .inl List.mem_cons_self
          · exact .inr hp) hsorted
    refine ⟨dag', ?_, ?_⟩
    · rw [Narwhal.insertAll, hinsert]
      exact hrest
    · rw [List.reverse_cons, List.append_assoc]
      exact htracks'

/-- The rebuilt DAG is that of the stored certificates. -/
theorem constructDagFromCertStore_spec (hholds : certStore.Holds stored) (hstored : Fed G stored)
    {gcDepth : Nat} (state : ConsensusState) (hempty : state.dag = fun _ => none)
    (hgc : state.lastRound.gcRound = gcRound state.lastRound.committedRound gcDepth)
    (hdepth : state.gcDepth = gcDepth) :
    ∃ dag,
      constructDagFromCertStore certStore state.lastCommitted state.lastRound.gcRound = .ok dag ∧
      Tracks gcDepth stored { state with dag } := by
  obtain ⟨cs, hafter, hsorted, hmem⟩ :=
    hholds.afterRound hstored.mem (state.lastRound.gcRound + 1)
  have htracks : Tracks gcDepth [] state := by
    refine ⟨fun r c => ⟨fun hc => ?_, fun hc => nomatch hc.1⟩, fun r => ?_, hgc, hdepth⟩
    · rw [Dag.values, hempty] at hc
      cases hc
    · rw [Dag.values, hempty]
      exact List.nodup_nil
  obtain ⟨dag, hinsert, htracks⟩ := htracks.insertAll hstored (fun c hc => ((hmem c).1 hc).1)
    (fun p hp hround => .inr ((hmem p).2 ⟨hp, hround⟩)) hsorted
  refine ⟨dag, ?_, fun r c => ?_, htracks.nodup, htracks.gcRound_eq, htracks.depth⟩
  · rw [constructDagFromCertStore, hafter]
    simp only [bind, Except.bind]
    rw [← hempty, hinsert]
    rfl
  · rw [htracks.mem, List.append_nil, List.mem_reverse, hmem]
    constructor
    · rintro ⟨hc, hround⟩
      exact ⟨hc.1, hround⟩
    · rintro ⟨hc, rfl, hround⟩
      exact ⟨⟨hc, hround⟩, rfl, hround⟩

/-! ## What the consensus store holds -/

/-- The tables hold the ledger, and the certificate store has what is in its last sub-dag. -/
structure Persisted (committee : Committee) (stored : List Certificate) (store : ConsensusStore)
    (ledger : Ledger) : Prop where
  lastCommitted : store.lastCommitted = ledger.lastCommitted
  latest : store.getLatestSubDag = ledger.lastCommittedSubDag.map .fromSubDag
  index_le : ∀ row ∈ store.committedSubDagsByIndex,
    row.1 ≤ (ledger.lastCommittedSubDag.map (·.subDagIndex)).getD 0
  bounded : ledger.Bounded
  highest : highestCommitted committee ledger.lastCommitted = ledger.lastRound.committedRound
  leaderRound : ∀ subDag ∈ ledger.lastCommittedSubDag,
    subDag.leader.round = ledger.lastRound.committedRound
  subDag : ∀ subDag ∈ ledger.lastCommittedSubDag,
    subDag.leader ∈ stored ∧ ∀ c ∈ subDag.certificates, c ∈ stored

variable {store : ConsensusStore} {ledger : Ledger}

/-- An empty store has an empty ledger persisted. -/
theorem Persisted.new (committee : Committee) : Persisted committee [] {} {} := by
  refine ⟨rfl, rfl, nofun, fun _ _ h => (nomatch h), ?_, nofun, nofun⟩
  have hnone : committee.authorities.filterMap (fun a => (({} : Ledger).lastCommitted a.id)) = [] :=
    List.filterMap_eq_nil_iff.2 fun _ _ => rfl
  rw [highestCommitted, hnone]
  rfl

/-- More certificates in the store do no harm. -/
theorem Persisted.mono (h : Persisted committee stored store ledger) {stored' : List Certificate}
    (hsub : ∀ c ∈ stored, c ∈ stored') : Persisted committee stored' store ledger :=
  ⟨h.lastCommitted, h.latest, h.index_le, h.bounded, h.highest, h.leaderRound, fun subDag hmem =>
    ⟨hsub _ (h.subDag subDag hmem).1, fun c hc => hsub c ((h.subDag subDag hmem).2 c hc)⟩⟩

/-- A row with a new highest index is the latest sub-dag. -/
theorem getLatestSubDag_writeConsensusState {subDag : CommittedSubDag}
    (hindex : ∀ row ∈ store.committedSubDagsByIndex, row.1 < subDag.subDagIndex)
    (lastCommitted : AuthorityIdentifier → Option Nat) :
    (store.writeConsensusState lastCommitted subDag).getLatestSubDag =
      some (.fromSubDag subDag) := by
  have hmax : (store.writeConsensusState lastCommitted subDag).committedSubDagsByIndex.argmax
      (·.1) = some (subDag.subDagIndex, .fromSubDag subDag) := by
    rw [ConsensusStore.writeConsensusState, AssocMap.insert, List.argmax_cons]
    cases hrest : (AssocMap.remove store.committedSubDagsByIndex subDag.subDagIndex).argmax
      (·.1) with
    | none => rfl
    | some row =>
      have hrow := hindex row (List.mem_of_mem_filter (List.argmax_mem hrest))
      exact if_neg (Nat.not_lt_of_lt hrow)
  rw [ConsensusStore.getLatestSubDag, hmax]
  rfl

/-- The last committed rounds are not forgotten. -/
theorem lastCommitted_foldl_or (gcDepth : Nat) (sequence : List Certificate) (ledger : Ledger)
    (id : AuthorityIdentifier) :
    ((sequence.foldl (Ledger.update gcDepth) ledger).lastCommitted id).or
      (ledger.lastCommitted id) =
      (sequence.foldl (Ledger.update gcDepth) ledger).lastCommitted id := by
  cases hlast : ledger.lastCommitted id with
  | none => rw [Option.or_none]
  | some r =>
    have hcommitted : isCommitted ledger.lastCommitted ⟨0, 0, id, [], 0⟩ = true :=
      isCommitted_iff.2 ⟨r, hlast, Nat.zero_le r⟩
    obtain ⟨r', hr', -⟩ := isCommitted_iff.1
      (Ledger.isCommitted_foldl (.inl hcommitted) : isCommitted
        (sequence.foldl (Ledger.update gcDepth) ledger).lastCommitted _ = true)
    rw [hr']
    rfl

/-- A commit is written. -/
theorem Persisted.commit (h : Persisted committee stored store ledger) (hstored : Fed G stored)
    {gcDepth : Nat} (hgc : 1 ≤ gcDepth) {leader : Certificate} (hleader : leader ∈ stored)
    (hround : 0 < leader.round) (hle : ledger.lastRound.committedRound ≤ leader.round) :
    Persisted committee stored
      (store.writeConsensusState (G.commit gcDepth ledger leader).2.lastCommitted
        (G.commit gcDepth ledger leader).1) (G.commit gcDepth ledger leader).2 := by
  have hleaderG := hstored.mem leader hleader
  obtain ⟨-, hsub, hmem⟩ := orderFrom_find hgc hleaderG hround ledger.lastCommitted
  have hcommitted := commit_committedRound hgc hleaderG hround ledger hle
  have hbounded : (G.commit gcDepth ledger leader).2.Bounded :=
    h.bounded.foldl (G.subDag gcDepth ledger.lastCommitted leader)
  have hlater : ∀ row ∈ store.committedSubDagsByIndex,
      row.1 < (G.commit gcDepth ledger leader).1.subDagIndex := fun row hrow =>
    Nat.lt_succ_of_le (h.index_le row hrow)
  refine ⟨?_, getLatestSubDag_writeConsensusState hlater _, fun row hrow => ?_, hbounded, ?_,
    fun subDag hsubDag => ?_, fun subDag hsubDag => ?_⟩
  · funext id
    change ((G.commit gcDepth ledger leader).2.lastCommitted id).or (store.lastCommitted id) = _
    rw [h.lastCommitted]
    exact lastCommitted_foldl_or gcDepth (G.subDag gcDepth ledger.lastCommitted leader) ledger id
  · rcases List.mem_cons.1 hrow with rfl | hrow
    · exact le_rfl
    · exact Nat.le_of_lt (hlater row (List.mem_of_mem_filter hrow))
  · -- the leader is committed at its round, which bounds the others
    have hleaderCommitted : isCommitted (G.commit gcDepth ledger leader).2.lastCommitted
        leader = true :=
      Ledger.isCommitted_foldl (.inr hmem)
    obtain ⟨r, hr', hler⟩ := isCommitted_iff.1 hleaderCommitted
    have hrle := hbounded _ r hr'
    have hmax : (committee.authorities.filterMap fun a =>
        (G.commit gcDepth ledger leader).2.lastCommitted a.id).max? = some leader.round := by
      refine List.max?_eq_some_iff.2 ⟨?_, fun s hs => ?_⟩
      · obtain ⟨a, ha, hid⟩ := List.mem_map.1 (G.authority leader hleaderG)
        refine List.mem_filterMap.2 ⟨a, ha, ?_⟩
        rw [hid, hr', Nat.le_antisymm (hcommitted ▸ hrle) hler]
      · obtain ⟨a, -, ha⟩ := List.mem_filterMap.1 hs
        exact hcommitted ▸ hbounded _ s ha
    rw [highestCommitted, hmax, hcommitted]
    rfl
  · cases hsubDag
    exact hcommitted.symm
  · cases hsubDag
    exact ⟨hleader, fun c hc => hstored.reach hleader (hsub c hc).2⟩

/-! ## Restarting -/

/-- A sub-dag whose certificates are stored is read back. -/
theorem readSubDag_eq (hholds : certStore.Holds stored) {subDag : Option CommittedSubDag}
    (hmem : ∀ s ∈ subDag, s.leader ∈ stored ∧ ∀ c ∈ s.certificates, c ∈ stored) :
    readSubDag certStore (subDag.map .fromSubDag) = .ok subDag := by
  cases subDag with
  | none => rfl
  | some subDag =>
    obtain ⟨hleader, hcertificates⟩ := hmem subDag rfl
    rw [Option.map_some, readSubDag, ConsensusCommit.fromSubDag, hholds.readAll hcertificates]
    simp only [bind, Except.bind, hholds.read hleader]
    rfl

/-- A restart rebuilds the state: its ledger is that of the last write, and its DAG is that of the
stored certificates. -/
theorem spawn_spec (h : Persisted committee stored store ledger) (hholds : certStore.Holds stored)
    (hstored : Fed G stored) {gcDepth : Nat}
    (hgc : ledger.lastRound.gcRound = gcRound ledger.lastRound.committedRound gcDepth) :
    ∃ state, spawn committee gcDepth store certStore = .ok state ∧ Tracks gcDepth stored state ∧
      state.ledger = ledger := by
  have hround : ConsensusRound.newWithGcDepth ledger.lastRound.committedRound gcDepth =
      ledger.lastRound := by
    rw [ConsensusRound.newWithGcDepth, ← hgc]
  obtain ⟨dag, hdag, htracks⟩ := constructDagFromCertStore_spec hholds hstored
    ⟨ledger.lastRound, gcDepth, ledger.lastCommitted, ledger.lastCommittedSubDag, fun _ => none⟩
    rfl hgc rfl
  have hnew : ConsensusState.newFromStore ledger.lastRound.committedRound gcDepth
      ledger.lastCommitted (ledger.lastCommittedSubDag.map .fromSubDag) certStore =
        .ok ⟨ledger.lastRound, gcDepth, ledger.lastCommitted, ledger.lastCommittedSubDag, dag⟩ := by
    rw [ConsensusState.newFromStore, hround, hdag]
    simp only [bind, Except.bind, readSubDag_eq hholds h.subDag]
  refine ⟨_, ?_, htracks, rfl⟩
  rw [spawn, h.lastCommitted, h.latest, h.highest]
  cases hlast : ledger.lastCommittedSubDag with
  | none =>
    rw [hlast] at hnew
    exact hnew
  | some subDag =>
    rw [hlast] at hnew
    have hleader : (ConsensusCommit.fromSubDag subDag).leaderRound =
        ledger.lastRound.committedRound :=
      h.leaderRound subDag hlast
    simp only [Option.map_some, hleader, ne_eq, not_true_eq_false, if_false]
    exact hnew

end

end Chase.Narwhal
