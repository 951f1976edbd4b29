import Chase.Lib.AnchorChain
import Chase.Lib.QuorumDag
import Chase.Narwhal.OrderDag
import Chase.Narwhal.Tusk
import Mathlib.Order.Interval.Finset.Nat

/-!
# The DAG of certificates, and what is to be committed of it

All validators are fed from one DAG (`CertificateDag`), and what a validator commits is determined
by the DAG and the last leader that it has committed by support. Such a leader is reached from all
certificates two rounds above it (`CertificateDag.reach_of_supported`), so it is on the chain of
leaders (`CertificateDag.history`) of every later one (`CertificateDag.history_eq`). The sub-dags
are then given by a ledger that is kept over the whole DAG (`CertificateDag.commitAll`): nothing of
it is ever collected.
-/

namespace Chase.Narwhal

open QuorumDag AnchorChain

/-- The certificates of a DAG: the digests identify them, an authority has at most one of them in a
round, and from round `2` on the parents are certificates of the round before whose stake reaches
the quorum. -/
structure CertificateDag (committee : Committee) where
  certificates : Set Certificate
  digest_injective : ∀ c ∈ certificates, ∀ d ∈ certificates, c.digest = d.digest → c = d
  unique : ∀ c ∈ certificates, ∀ d ∈ certificates, c.round = d.round → c.origin = d.origin → c = d
  authority : ∀ c ∈ certificates, c.origin ∈ committee.authorities.map (·.id)
  parents : ∀ c ∈ certificates, 2 ≤ c.round → ∀ digest ∈ c.parents,
    ∃ p ∈ certificates, p.digest = digest ∧ p.round + 1 = c.round
  quorum : ∀ c ∈ certificates, 2 ≤ c.round → ∃ l : List Certificate, (l.map (·.origin)).Nodup ∧
    (∀ p ∈ l, p ∈ certificates ∧ p.digest ∈ c.parents) ∧
    committee.quorumThreshold ≤ (l.map fun p => committee.stakeById p.origin).sum

/-! ## Thresholds -/

namespace Committee

variable (committee : Committee)

theorem totalStake_lt : committee.totalStake <
    committee.validityThreshold + committee.quorumThreshold := by
  rw [validityThreshold, quorumThreshold]
  omega

/-- An authority has its own stake. -/
theorem stakeById_of_mem {a : Authority} (h : a ∈ committee.authorities) :
    committee.stakeById a.id = a.stake := by
  have hfind : committee.authorities.find? (·.id = a.id) = some a := by
    rw [List.find?_eq_some_iff_append]
    obtain ⟨pre, post, heq⟩ := List.append_of_mem h
    refine ⟨by simp, pre, post, heq, fun b hb => ?_⟩
    have hnodup := committee.nodup
    rw [heq, List.map_append, List.map_cons, List.nodup_append] at hnodup
    simpa using hnodup.2.2 b.id (List.mem_map_of_mem hb) a.id List.mem_cons_self
  rw [stakeById, hfind]
  rfl

/-- The stakes of the authorities are the total. -/
theorem sum_stakeById :
    ∑ id ∈ (committee.authorities.map (·.id)).toFinset, committee.stakeById id =
      committee.totalStake := by
  rw [List.sum_toFinset _ committee.nodup, List.map_map, totalStake]
  exact congrArg List.sum (List.map_congr_left fun a ha => committee.stakeById_of_mem ha)

/-- There are not more certificates below a round than authorities times rounds. -/
theorem length_digests_lt {P : Certificate → Prop}
    (hunique : ∀ c d, P c → P d → c.round = d.round → c.origin = d.origin → c = d)
    (hauthority : ∀ c, P c → c.origin ∈ committee.authorities.map (·.id)) {round : Nat}
    (hround : 0 < round) (hbounds : ∀ c, P c → 1 ≤ c.round ∧ c.round < round)
    (hpos : 0 < committee.authorities.length) {l : List CertificateDigest} (hnodup : l.Nodup)
    (hl : ∀ d ∈ l, ∃ p, P p ∧ p.digest = d) : l.length < committee.authorities.length * round := by
  have : Nonempty Certificate := ⟨⟨0, 0, 0, [], 0⟩⟩
  choose! cert hcert hdigest using hl
  -- a certificate is given by its authority and its round
  have hinj : Set.InjOn (fun d => ((cert d).origin, (cert d).round)) l.toFinset := by
    intro d hd e he heq
    have hd := List.mem_toFinset.1 hd
    have he := List.mem_toFinset.1 he
    obtain ⟨horigin, hround⟩ := Prod.mk.inj heq
    rw [← hdigest d hd, ← hdigest e he, hunique _ _ (hcert d hd) (hcert e he) hround horigin]
  have hmaps : Set.MapsTo (fun d => ((cert d).origin, (cert d).round)) l.toFinset
      ((committee.authorities.map (·.id)).toFinset ×ˢ Finset.Ico 1 round :) := by
    intro d hd
    have hd := hcert d (List.mem_toFinset.1 hd)
    refine Finset.mem_coe.2 (Finset.mem_product.2 ⟨List.mem_toFinset.2 (hauthority _ hd), ?_⟩)
    exact Finset.mem_Ico.2 (hbounds _ hd)
  have hcard := Finset.card_le_card_of_injOn _ hmaps hinj
  rw [List.toFinset_card_of_nodup hnodup, Finset.card_product,
    List.toFinset_card_of_nodup committee.nodup, List.length_map, Nat.card_Ico] at hcard
  exact Nat.lt_of_le_of_lt hcard (Nat.mul_lt_mul_of_pos_left (by omega) hpos)

/-- A committee with an authority is not empty. -/
theorem authorities_length_pos {id : AuthorityIdentifier}
    (h : id ∈ committee.authorities.map (·.id)) : 0 < committee.authorities.length := by
  rw [← List.length_map (·.id)]
  exact List.length_pos_of_mem h

end Committee

namespace CertificateDag

variable {committee : Committee} (G : CertificateDag committee)

/-! ## Paths -/

/-- The DAG in its rounds. -/
def layered : Layered Certificate AuthorityIdentifier where
  nodes := G.certificates
  round := (·.round)
  author := (·.origin)
  Parent c p := c ∈ G.certificates ∧ p ∈ G.certificates ∧ 2 ≤ c.round ∧ p.digest ∈ c.parents
  parent_mem h := ⟨h.1, h.2.1⟩
  parent_round := fun {c p} ⟨hc, hp, hround, hdigest⟩ => by
    obtain ⟨q, hq, heq, hqr⟩ := G.parents c hc hround p.digest hdigest
    rwa [G.digest_injective q hq p hp heq] at hqr
  unique {c d} hc hd := G.unique c hc d hd

/-- The leader has the support of the next round. -/
def Supported (leader : Certificate) : Prop :=
  G.layered.HasWeight committee.stakeById (fun c => G.layered.Parent c leader)
    committee.validityThreshold

variable {G}

/-- The parents of a certificate have the weight of a quorum. -/
theorem hasWeight_parents {c : Certificate} (hc : c ∈ G.certificates) (hround : 2 ≤ c.round) :
    G.layered.HasWeight committee.stakeById (G.layered.Parent c) committee.quorumThreshold := by
  obtain ⟨l, hnodup, hl, hsum⟩ := G.quorum c hc hround
  exact ⟨l, hnodup, fun p hp => ⟨hc, (hl p hp).1, hround, (hl p hp).2⟩, hsum⟩

theorem exists_parent {c : Certificate} (hc : c ∈ G.certificates) (hround : 2 ≤ c.round) :
    ∃ p, G.layered.Parent c p :=
  (hasWeight_parents hc hround).exists_of_pos (Nat.succ_pos _)

/-- A supported leader is reached from every certificate two rounds later. -/
theorem reach_of_supported {x y : Certificate} (h : G.Supported x) (hy : y ∈ G.certificates)
    (hround : x.round + 2 ≤ y.round) : G.layered.Reach y x := by
  refine Layered.reach_of_support (committee.authorities.map (·.id)).toFinset
    (fun c hc => List.mem_toFinset.2 (G.authority c hc)) ?_ h (Nat.succ_pos _)
    (fun c hc hle => hasWeight_parents hc ?_) hy hround
  · rw [committee.sum_stakeById]
    exact committee.totalStake_lt
  · exact Nat.le_trans (Nat.le_add_left 2 _) hle

/-! ## Leaders -/

/-- The rounds of leaders between two rounds. -/
theorem mem_stepRounds {low high r : Nat} (h : r ∈ Tusk.stepRounds low high) :
    low ≤ r ∧ r ≤ high ∧ r % 2 = high % 2 := by
  obtain ⟨i, hi, rfl⟩ := List.mem_map.1 h
  have := List.mem_range.1 hi
  omega

/-- The rounds of leaders are descending. -/
theorem pairwise_stepRounds (low high : Nat) : (Tusk.stepRounds low high).Pairwise (· > ·) := by
  rw [Tusk.stepRounds, List.pairwise_map]
  refine List.pairwise_lt_range.imp_of_mem fun {i j} _ hj hij => ?_
  have := List.mem_range.1 hj
  omega

/-- The rounds of leaders below one of them, which is `r` itself or above or below `r`. -/
theorem stepRounds_append {r m : Nat} (hr : r % 2 = 0) (hm : m % 2 = 0) (hlt : r < m)
    (hle : 2 ≤ r) :
    Tusk.stepRounds 2 (m - 2) =
      Tusk.stepRounds (r + 2) (m - 2) ++ r :: Tusk.stepRounds 2 (r - 2) := by
  have hcount : (m - 2 + 2 - 2) / 2 = (m - 2 + 2 - (r + 2)) / 2 + (1 + (r - 2 + 2 - 2) / 2) := by
    omega
  rw [Tusk.stepRounds, hcount, List.range_add, List.map_append, List.range_add, List.map_append,
    List.map_append]
  rw [← List.singleton_append]
  refine congrArg _ (congrArg₂ (· ++ ·) ?_ ?_)
  · simp only [List.range_one, List.map_cons, List.map_nil, List.cons.injEq, and_true]
    omega
  · rw [List.map_map, List.map_map]
    refine List.map_congr_left fun i hi => ?_
    have := List.mem_range.1 hi
    simp only [Function.comp_apply]
    omega

variable (G) (schedule : Nat → AuthorityIdentifier)

open Classical in
/-- The certificate of the leader of a round. -/
noncomputable def leaderAt (r : Nat) : Option Certificate :=
  if h : ∃ c ∈ G.certificates, c.round = r ∧ c.origin = schedule r then some h.choose else none

/-- The leader with the earlier leaders that are committed before it, from the last to the first. -/
noncomputable def history (leader : Certificate) : List Certificate :=
  leader ::
    chain (G.leaderAt schedule) G.layered.Reach (Tusk.stepRounds 2 (leader.round - 2)) leader

variable {G schedule}

/-- The leader of a round is its certificate of the scheduled authority. -/
theorem leaderAt_eq_some_iff {r : Nat} {c : Certificate} :
    G.leaderAt schedule r = some c ↔ c ∈ G.certificates ∧ c.round = r ∧ c.origin = schedule r := by
  rw [leaderAt]
  split
  · rename_i h
    obtain ⟨hmem, hround, horigin⟩ := h.choose_spec
    rw [Option.some.injEq]
    constructor
    · rintro rfl
      exact ⟨hmem, hround, horigin⟩
    · rintro ⟨hc, hcr, hco⟩
      exact G.unique _ hmem c hc (hround.trans hcr.symm) (horigin.trans hco.symm)
  · rename_i h
    exact ⟨nofun, fun hc => absurd ⟨c, hc⟩ h⟩

/-- The leaders of a chain go back over the rounds. -/
theorem chain_sublist (G : CertificateDag committee) (schedule : Nat → AuthorityIdentifier)
    (rounds : List Nat) (leader : Certificate) :
    ((chain (G.leaderAt schedule) G.layered.Reach rounds leader).map (·.round)).Sublist rounds :=
  map_chain_sublist _ fun _ _ hb => (leaderAt_eq_some_iff.1 hb).2.1

/-- The history of a leader contains the history of every supported leader before it. -/
theorem history_eq {x y : Certificate} (hx : G.leaderAt schedule x.round = some x)
    (hsupport : G.Supported x) (hxr : x.round % 2 = 0) (hx2 : 2 ≤ x.round) (hy : y ∈ G.certificates)
    (hyr : y.round % 2 = 0) (hlt : x.round < y.round) :
    G.history schedule y =
      (y :: chain (G.leaderAt schedule) G.layered.Reach
        (Tusk.stepRounds (x.round + 2) (y.round - 2)) y) ++ G.history schedule x := by
  have hreach := fun {z : Certificate} => reach_of_supported (y := z) hsupport
  rw [history, stepRounds_append hxr hyr hlt hx2,
    chain_append_cons hx (hreach hy (by omega)) fun r hr b hb => ?_]
  · rfl
  · obtain ⟨hmem, rfl, -⟩ := leaderAt_eq_some_iff.1 hb
    exact hreach hmem (mem_stepRounds hr).1

/-- The leaders of a history are reached from its end. -/
theorem reach_of_mem_history {x l : Certificate} (h : l ∈ G.history schedule x) :
    G.layered.Reach x l := by
  rcases List.mem_cons.1 h with rfl | h
  · exact .refl
  · exact linked_of_mem_chain (fun _ _ _ => Relation.ReflTransGen.trans) h

/-- A leader on the chain of another one is of an earlier round with a leader. -/
theorem of_mem_chain {x y : Certificate}
    (h : x ∈ chain (G.leaderAt schedule) G.layered.Reach (Tusk.stepRounds 2 (y.round - 2)) y) :
    G.leaderAt schedule x.round = some x ∧ 2 ≤ x.round ∧ x.round < y.round ∧
      x.round % 2 = y.round % 2 := by
  obtain ⟨r, hr, hx⟩ := anchor_of_mem_chain h
  obtain ⟨-, rfl, -⟩ := leaderAt_eq_some_iff.1 hx
  have := mem_stepRounds hr
  exact ⟨hx, by omega, by omega, by omega⟩

/-- The rounds of a history go down. -/
theorem pairwise_history (G : CertificateDag committee) (schedule : Nat → AuthorityIdentifier)
    (y : Certificate) : (G.history schedule y).Pairwise fun a b => b.round < a.round := by
  refine List.pairwise_cons.2 ⟨fun x hx => (of_mem_chain hx).2.2.1, ?_⟩
  exact List.pairwise_map.1 ((pairwise_stepRounds _ _).sublist (chain_sublist G schedule _ y))

/-- The history of a leader contains the history of every leader on it. -/
theorem history_split {x y : Certificate} (hyr : y.round % 2 = 0)
    (hx : x ∈ chain (G.leaderAt schedule) G.layered.Reach (Tusk.stepRounds 2 (y.round - 2)) y) :
    G.history schedule y =
      (y :: chain (G.leaderAt schedule) G.layered.Reach
        (Tusk.stepRounds (x.round + 2) (y.round - 2)) y) ++ G.history schedule x := by
  obtain ⟨hleader, hx2, hlt, hparity⟩ := of_mem_chain hx
  -- the rounds above and below are other ones
  have hround : ∀ rounds : List Nat, x.round ∉ rounds →
      ∀ z, x ∉ chain (G.leaderAt schedule) G.layered.Reach rounds z := fun rounds hrounds z hmem =>
    hrounds ((chain_sublist G schedule rounds z).subset (List.mem_map_of_mem hmem))
  have hrounds := stepRounds_append (hparity.trans hyr) hyr hlt hx2
  rw [hrounds] at hx
  rw [history, hrounds, chain_split hleader hx
    (hround _ (fun hmem => by have := mem_stepRounds hmem; omega) y)
    (hround _ fun hmem => by have := mem_stepRounds hmem; omega)]
  rfl

/-- What is below a leader on a history is its history. -/
theorem history_of_append {y l : Certificate} {later earlier : List Certificate}
    (hyr : y.round % 2 = 0) (h : G.history schedule y = later ++ l :: earlier) :
    G.history schedule l = l :: earlier := by
  have hpair := pairwise_history G schedule y
  have hself : G.history schedule l = l :: (G.history schedule l).tail := rfl
  have hsplit : ∃ later', G.history schedule y = later' ++ G.history schedule l := by
    have hl : l ∈ G.history schedule y := h ▸ by simp
    rcases List.mem_cons.1 hl with rfl | hl
    · exact ⟨[], rfl⟩
    · exact ⟨_, history_split hyr hl⟩
  obtain ⟨later', heq⟩ := hsplit
  rw [hself] at heq
  -- the rounds are different, so there is only one place for the leader
  have hnotMem : ∀ {pre post : List Certificate}, G.history schedule y = pre ++ l :: post →
      l ∉ pre ∧ l ∉ post := by
    intro pre post heq
    rw [heq, List.pairwise_append, List.pairwise_cons] at hpair
    exact ⟨fun hmem => absurd (hpair.2.2 l hmem l List.mem_cons_self) (Nat.lt_irrefl _),
      fun hmem => absurd (hpair.2.1.1 l hmem) (Nat.lt_irrefl _)⟩
  have hnot := hnotMem h
  rw [heq] at h
  obtain ⟨-, -, htail⟩ := (List.append_cons_inj_of_notMem (hnotMem heq).1 (hnotMem heq).2).1 h
  rw [hself, htail]

/-! ## The ledger -/

end CertificateDag

/-- The part of the state that records what is committed. -/
structure Ledger where
  lastRound : ConsensusRound := {}
  lastCommitted : AuthorityIdentifier → Option Nat := fun _ => none
  lastCommittedSubDag : Option CommittedSubDag := none

/-- The ledger of a state. -/
def ConsensusState.ledger (state : ConsensusState) : Ledger :=
  ⟨state.lastRound, state.lastCommitted, state.lastCommittedSubDag⟩

/-- A certificate is committed. -/
def Ledger.update (gcDepth : Nat) (ledger : Ledger) (certificate : Certificate) : Ledger :=
  { ledger with
    lastCommitted := Function.update ledger.lastCommitted certificate.origin
      (some (max ((ledger.lastCommitted certificate.origin).getD 0) certificate.round))
    lastRound := ledger.lastRound.update certificate.round gcDepth }

namespace CertificateDag

variable {committee : Committee} (G : CertificateDag committee) (gcDepth : Nat)

open Classical in
/-- The certificate with a digest. -/
noncomputable def find (digest : CertificateDigest) : Option Certificate :=
  if h : ∃ c ∈ G.certificates, c.digest = digest then some h.choose else none

/-- The certificates that a leader commits. -/
noncomputable def subDag (lastCommitted : AuthorityIdentifier → Option Nat) (leader : Certificate) :
    List Certificate :=
  match orderFrom (fun _ => G.find) lastCommitted gcDepth
    (committee.authorities.length * leader.round) leader with
  | .ok sequence => sequence
  | .error _ => []

/-- A leader is committed. -/
noncomputable def commit (ledger : Ledger) (leader : Certificate) : CommittedSubDag × Ledger :=
  let sequence := G.subDag gcDepth ledger.lastCommitted leader
  let subDag := CommittedSubDag.new sequence leader
    (((ledger.lastCommittedSubDag.map (·.subDagIndex)).getD 0) + 1) ledger.lastCommittedSubDag
  (subDag,
    { sequence.foldl (Ledger.update gcDepth) ledger with lastCommittedSubDag := some subDag })

/-- Leaders are committed, from the first to the last. -/
noncomputable def commitAll : List Certificate → Ledger → List CommittedSubDag × Ledger
  | [], ledger => ([], ledger)
  | leader :: leaders, ledger =>
    let committed := G.commit gcDepth ledger leader
    let rest := commitAll leaders committed.2
    (committed.1 :: rest.1, rest.2)

variable {G gcDepth}

/-- The leaders can be committed in two parts. -/
theorem commitAll_append (leaders leaders' : List Certificate) (ledger : Ledger) :
    G.commitAll gcDepth (leaders ++ leaders') ledger =
      ((G.commitAll gcDepth leaders ledger).1 ++
        (G.commitAll gcDepth leaders' (G.commitAll gcDepth leaders ledger).2).1,
      (G.commitAll gcDepth leaders' (G.commitAll gcDepth leaders ledger).2).2) := by
  induction leaders generalizing ledger with
  | nil => rfl
  | cons leader leaders ih =>
    simp only [List.cons_append, commitAll, ih]

/-- More leaders commit more sub-dags, and the first ones are the same. -/
theorem commitAll_mono {leaders leaders' : List Certificate} (h : leaders <+: leaders')
    (ledger : Ledger) :
    (G.commitAll gcDepth leaders ledger).1 <+: (G.commitAll gcDepth leaders' ledger).1 := by
  obtain ⟨rest, rfl⟩ := h
  rw [commitAll_append]
  exact List.prefix_append _ _

/-- The lookup of a digest finds its certificate. -/
theorem find_eq_some_iff {digest : CertificateDigest} {c : Certificate} :
    G.find digest = some c ↔ c ∈ G.certificates ∧ c.digest = digest := by
  rw [find]
  split
  · rename_i h
    obtain ⟨hmem, hdigest⟩ := h.choose_spec
    rw [Option.some.injEq]
    constructor
    · rintro rfl
      exact ⟨hmem, hdigest⟩
    · rintro ⟨hc, hcd⟩
      exact G.digest_injective _ hmem c hc (hdigest.trans hcd.symm)
  · rename_i h
    exact ⟨nofun, fun hc => absurd ⟨c, hc⟩ h⟩

/-- A certificate above the collected rounds of a leader. -/
def InSubDag (G : CertificateDag committee) (gcDepth : Nat) (leader x : Certificate) : Prop :=
  x ∈ G.certificates ∧ gcRound leader.round gcDepth < x.round ∧ x.round ≤ leader.round

/-- The parents of a certificate of a sub-dag are there too, above the garbage collection round. -/
theorem find_parent {leader x : Certificate} (hx : G.InSubDag gcDepth leader x)
    (hgc : x.round ≠ gcRound leader.round gcDepth + 1) {digest : CertificateDigest}
    (hdigest : digest ∈ x.parents) :
    ∃ p, G.find digest = some p ∧ G.layered.Parent x p ∧ G.InSubDag gcDepth leader p ∧
      p.round < leader.round := by
  obtain ⟨hmem, hlow, hhigh⟩ := hx
  obtain ⟨p, hp, rfl, hround⟩ := G.parents x hmem (by omega) digest hdigest
  exact ⟨p, find_eq_some_iff.2 ⟨hp, rfl⟩, ⟨hmem, hp, by omega, hdigest⟩, ⟨hp, by omega, by omega⟩,
    by omega⟩

/-- The traversal of the whole DAG ends, and collects certificates that the leader reaches. -/
theorem orderFrom_find (hgc : 1 ≤ gcDepth) {leader : Certificate}
    (hleader : leader ∈ G.certificates)
    (hround : 0 < leader.round) (lastCommitted : AuthorityIdentifier → Option Nat) :
    orderFrom (fun _ => G.find) lastCommitted gcDepth (committee.authorities.length * leader.round)
        leader = .ok (G.subDag gcDepth lastCommitted leader) ∧
      (∀ x ∈ G.subDag gcDepth lastCommitted leader,
        G.InSubDag gcDepth leader x ∧ G.layered.Reach leader x) ∧
      leader ∈ G.subDag gcDepth lastCommitted leader := by
  have hself : G.InSubDag gcDepth leader leader := by
    refine ⟨hleader, ?_, le_rfl⟩
    rw [gcRound]
    omega
  have hparents : ∀ x, G.InSubDag gcDepth leader x ∧ G.layered.Reach leader x →
      x.round ≠ gcRound leader.round gcDepth + 1 → ∀ digest ∈ x.parents,
        ∃ p, G.find digest = some p ∧ (G.InSubDag gcDepth leader p ∧ p.round < leader.round) ∧
          G.layered.Reach leader p := by
    rintro x ⟨hx, hreach⟩ hne digest hdigest
    obtain ⟨p, hp, hparent, hsub, hlt⟩ := find_parent hx hne hdigest
    exact ⟨p, hp, ⟨hsub, hlt⟩, hreach.tail hparent⟩
  have hbound : ∀ l : List CertificateDigest, l.Nodup →
      (∀ d ∈ l, ∃ p, ((G.InSubDag gcDepth leader p ∧ p.round < leader.round) ∧
        G.layered.Reach leader p) ∧ p.digest = d) →
        l.length < committee.authorities.length * leader.round := fun l hnd hmem =>
    committee.length_digests_lt (fun c d hc hd => G.unique c hc.1.1.1 d hd.1.1.1)
      (fun c hc => G.authority c hc.1.1.1) hround
      (fun c hc => ⟨by have := hc.1.1.2.1; omega, hc.1.2⟩)
      (committee.authorities_length_pos (G.authority leader hleader)) hnd hmem
  obtain ⟨l, heq, hl, hmem, -⟩ := orderFrom_spec lastCommitted hparents
    (fun p hp _ => ⟨hp.1.1, hp.2⟩) ⟨hself, .refl⟩ hbound (by omega)
  have hsub : G.subDag gcDepth lastCommitted leader = l := by rw [subDag, heq]
  rw [hsub]
  exact ⟨heq, hl, hmem⟩

/-- After the updates of a sub-dag, the committed round is the greatest of its rounds. -/
theorem committedRound_foldl {r : Nat} {sequence : List Certificate} {ledger : Ledger}
    (hle : ∀ x ∈ sequence, x.round ≤ r) (hcommitted : ledger.lastRound.committedRound ≤ r)
    (hr : ledger.lastRound.committedRound = r ∨ ∃ x ∈ sequence, x.round = r) :
    (sequence.foldl (Ledger.update gcDepth) ledger).lastRound.committedRound = r := by
  induction sequence generalizing ledger with
  | nil => exact hr.resolve_right fun ⟨x, hx, _⟩ => nomatch hx
  | cons x sequence ih =>
    have hx := hle x List.mem_cons_self
    have hupdate : (ledger.update gcDepth x).lastRound.committedRound =
        max ledger.lastRound.committedRound x.round := rfl
    refine ih (fun y hy => hle y (List.mem_cons_of_mem _ hy)) (by omega) ?_
    rcases hr with hr | ⟨y, hy, hr⟩
    · left
      omega
    · rcases List.mem_cons.1 hy with rfl | hy
      · left
        omega
      · exact .inr ⟨y, hy, hr⟩

/-- The round of a committed leader is the committed round. -/
theorem commit_committedRound (hgc : 1 ≤ gcDepth) {leader : Certificate}
    (hleader : leader ∈ G.certificates) (hround : 0 < leader.round) (ledger : Ledger)
    (hcommitted : ledger.lastRound.committedRound ≤ leader.round) :
    (G.commit gcDepth ledger leader).2.lastRound.committedRound = leader.round := by
  obtain ⟨-, hsub, hmem⟩ := orderFrom_find hgc hleader hround ledger.lastCommitted
  exact committedRound_foldl (fun x hx => (hsub x hx).1.2.2) hcommitted (.inr ⟨leader, hmem, rfl⟩)

end CertificateDag

end Chase.Narwhal
