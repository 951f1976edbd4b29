import Chase.Narwhal.Store

/-!
# Restarts

A validator that stops and is rebuilt from its stores. It may stop between two calls, or inside a
call of `process_certificate` after any of its writes. The leaders that the call has not committed
are then forgotten, but they stay on the history of every leader that is committed later: a leader
that has been committed is on the history of a supported one (`Reached`), and below it the history
is its own. So the validator goes on with the same sequence (`tusk_restart`).
-/

namespace Chase.Narwhal

open QuorumDag AnchorChain CertificateDag

/-! ## Runs -/

/-- A validator: its consensus state, its stores, and what it has committed. -/
structure Validator where
  state : ConsensusState
  store : ConsensusStore := {}
  certStore : CertificateStore := {}
  subDags : List CommittedSubDag := []

/-- What happens to a validator. -/
inductive Event where
  /-- A certificate is stored that is not delivered yet. -/
  | store (certificate : Certificate)
  /-- A certificate is stored and delivered. -/
  | deliver (certificate : Certificate)
  /-- A certificate is stored and delivered, and the validator stops after this many writes of the
  call and is rebuilt. -/
  | stop (certificate : Certificate) (writes : Nat)
  /-- The validator stops between two calls and is rebuilt. -/
  | restart
  deriving DecidableEq, Repr

/-- The certificate of an event. -/
def Event.certificate : Event → Option Certificate
  | .store certificate | .deliver certificate | .stop certificate _ => some certificate
  | .restart => none

namespace Tusk

variable (tusk : Tusk) (gcDepth : Nat)

/-- The loop over the leaders, with the writes to the store. -/
def commitAndWrite : List Certificate → Validator → Except Fault Validator
  | [], v => .ok v
  | leader :: leaders, v => do
    let (subDag, state) ← tusk.commitLeader leader v.state
    commitAndWrite leaders
      { v with
        state
        store := v.store.writeConsensusState state.lastCommitted subDag
        subDags := v.subDags ++ [subDag] }

/-- A call of `process_certificate`, after the certificate has been stored. With a number of writes
the loop ends after as many leaders. -/
def processUntil (writes : Option Nat) (certificate : Certificate) (v : Validator) :
    Except Fault Validator := do
  let ((_, leaders), state) ← tusk.pendingLeaders v.state certificate
  tusk.commitAndWrite (leaders.take (writes.getD leaders.length))
    { v with state, certStore := v.certStore.write certificate }

/-- The validator is rebuilt from its stores. -/
def restart (v : Validator) : Except RestartFault Validator := do
  let state ← spawn tusk.committee gcDepth v.store v.certStore
  .ok { v with state }

/-- One event. -/
def step (v : Validator) : Event → Except RestartFault Validator
  | .store certificate => .ok { v with certStore := v.certStore.write certificate }
  | .deliver certificate =>
    (tusk.processUntil none certificate v).mapError .consensus
  | .stop certificate writes => do
    let v ← (tusk.processUntil (some writes) certificate v).mapError .consensus
    tusk.restart gcDepth v
  | .restart => tusk.restart gcDepth v

/-- The events of a run, one after the other. -/
def run : List Event → Validator → Except RestartFault Validator
  | [], v => .ok v
  | event :: events, v => do
    let v ← tusk.step gcDepth v event
    run events v

end Tusk

/-- Every certificate is stored and delivered after its parents. What is stored when the validator
is rebuilt counts as delivered. -/
def causalEvents : List Certificate → List Certificate → List Event → Bool
  | _, _, [] => true
  | stored, fed, .store c :: events =>
    parentsKnown stored c && causalEvents (c :: stored) fed events
  | stored, fed, .deliver c :: events =>
    parentsKnown fed c && causalEvents (c :: stored) (c :: fed) events
  | stored, fed, .stop c _ :: events =>
    parentsKnown fed c && causalEvents (c :: stored) (c :: stored) events
  | stored, _, .restart :: events => causalEvents stored stored events

/-- Events with certificates of the DAG, in a causal order. -/
structure CausalRun {committee : Committee} (G : CertificateDag committee)
    (stored fed : List Certificate) (events : List Event) : Prop where
  mem : ∀ event ∈ events, ∀ c ∈ event.certificate, c ∈ G.certificates
  causal : causalEvents stored fed events = true

/-! ## Runs without a restart -/

namespace Tusk

variable (tusk : Tusk) (gcDepth : Nat)

/-- The commits with a write after each are the commits. -/
theorem commitAndWrite_eq (leaders : List Certificate) (v : Validator) :
    (tusk.commitAndWrite leaders v).map (fun v' => (v'.subDags, v'.state)) =
      (tusk.commitLeaders leaders v.state).map fun r => (v.subDags ++ r.1, r.2) := by
  induction leaders generalizing v with
  | nil => simp [commitAndWrite, commitLeaders, Except.map]
  | cons leader leaders ih =>
    rw [commitAndWrite, commitLeaders]
    cases tusk.commitLeader leader v.state with
    | error fault => rfl
    | ok r =>
      simp only [bind, Except.bind]
      rw [ih]
      cases tusk.commitLeaders leaders r.2 with
      | error fault => rfl
      | ok r' => simp [Except.map]

/-- A call that is not stopped is a call of `process_certificate`. -/
theorem processUntil_none (certificate : Certificate) (v : Validator) :
    (tusk.processUntil none certificate v).map (fun v' => (v'.subDags, v'.state)) =
      (tusk.processCertificate v.state certificate).map fun r => (v.subDags ++ r.1.2, r.2) := by
  rw [processUntil, processCertificate_eq]
  cases tusk.pendingLeaders v.state certificate with
  | error fault => rfl
  | ok r =>
    simp only [bind, Except.bind, Option.getD_none, List.take_length]
    rw [commitAndWrite_eq]
    dsimp only
    cases tusk.commitLeaders r.1.2 r.2 <;> rfl

/-- A run in which nothing stops is the run of a feed. -/
theorem run_deliver (feed : List Certificate) (v : Validator) :
    (tusk.run gcDepth (feed.map .deliver) v).map (fun v' => (v'.subDags, v'.state)) =
      ((tusk.processAll feed v.state).map fun r => (v.subDags ++ r.1, r.2)).mapError
        .consensus := by
  induction feed generalizing v with
  | nil => simp [run, processAll, Except.map, Except.mapError]
  | cons c feed ih =>
    have hcall := tusk.processUntil_none c v
    rw [List.map_cons, run, step, processAll]
    cases huntil : tusk.processUntil none c v with
    | error fault =>
      cases hprocess : tusk.processCertificate v.state c with
      | error fault' =>
        rw [huntil, hprocess] at hcall
        cases hcall
        rfl
      | ok r =>
        rw [huntil, hprocess] at hcall
        cases hcall
    | ok v' =>
      cases hprocess : tusk.processCertificate v.state c with
      | error fault =>
        rw [huntil, hprocess] at hcall
        cases hcall
      | ok r =>
        rw [huntil, hprocess] at hcall
        obtain ⟨hsubDags, hstate⟩ := Prod.mk.inj (Except.ok.inj hcall)
        simp only [bind, Except.bind, Except.mapError]
        rw [ih, hsubDags, hstate]
        cases tusk.processAll feed r.2 with
        | error fault => rfl
        | ok r' => simp [Except.map, Except.mapError]

end Tusk

/-! ## One validator -/

section

variable {tusk : Tusk} {G : CertificateDag tusk.committee} {gcDepth : Nat}
  {stored fed : List Certificate} {last : Option Certificate} {y l : Certificate}

/-- The leaders up to one of them are those that are committed with it. -/
theorem committedLeaders_of_append (hy : IsAnchor G y) {earlier later : List Certificate}
    (h : committedLeaders G (some y) = earlier ++ l :: later) :
    committedLeaders G (some l) = earlier ++ [l] := by
  have hhistory : G.history tusk.leaderSchedule y = later.reverse ++ l :: earlier.reverse := by
    have := congrArg List.reverse h
    rw [committedLeaders, Option.elim_some, List.reverse_reverse] at this
    simpa using this
  rw [committedLeaders, Option.elim_some, history_of_append hy.even hhistory]
  simp

/-- What a validator has committed, and its ledger, are those of the leaders up to the last one,
which is on the history of a supported leader. -/
structure Reached (G : CertificateDag tusk.committee) (gcDepth : Nat) (last : Option Certificate)
    (subDags : List CommittedSubDag) (ledger : Ledger) : Prop where
  onHistory : ∀ l ∈ last, OnHistory G l
  round : ledger.lastRound.committedRound = committedRound last
  eq : G.commitAll gcDepth (committedLeaders G last) {} = (subDags, ledger)

/-- A validator between two steps: it holds what was stored, and has been fed a part of it. -/
structure Validator.Inv (v : Validator) (G : CertificateDag tusk.committee) (gcDepth : Nat)
    (stored fed : List Certificate) (last : Option Certificate) : Prop where
  closed : Fed G stored
  closed_fed : Fed G fed
  subset : ∀ c ∈ fed, c ∈ stored
  holds : v.certStore.Holds stored
  tracks : Tracks gcDepth fed v.state
  persisted : Persisted tusk.committee stored v.store v.state.ledger
  reached : Reached G gcDepth last v.subDags v.state.ledger

variable {v : Validator}

/-- A new validator has nothing stored and nothing fed. -/
theorem Validator.Inv.new (G : CertificateDag tusk.committee) (gcDepth : Nat) :
    Validator.Inv { state := { gcDepth } } G gcDepth [] [] none :=
  ⟨⟨nofun, nofun⟩, ⟨nofun, nofun⟩, nofun, .nil, .new gcDepth, .new tusk.committee,
    ⟨nofun, rfl, rfl⟩⟩

/-- A certificate is stored after its parents. -/
theorem Validator.Inv.store (h : v.Inv G gcDepth stored fed last) {c : Certificate}
    (hc : c ∈ G.certificates)
    (hparents : 2 ≤ c.round → ∀ digest ∈ c.parents, ∃ p ∈ stored, p.digest = digest) :
    Validator.Inv { v with certStore := v.certStore.write c } G gcDepth (c :: stored) fed last where
  closed := h.closed.cons hc hparents
  closed_fed := h.closed_fed
  subset d hd := List.mem_cons_of_mem _ (h.subset d hd)
  holds := h.holds.write h.closed.mem hc
  tracks := h.tracks
  persisted := h.persisted.mono fun _ hd => List.mem_cons_of_mem _ hd
  reached := h.reached

/-- The leader that comes next is committed and written. -/
theorem Validator.Inv.commitLeader (h : v.Inv G gcDepth stored fed last) (hgc : 1 ≤ gcDepth)
    (hy : IsAnchor G y) (hyfed : y ∈ fed) {later : List Certificate}
    (hpending : committedLeaders G (some y) = committedLeaders G last ++ l :: later) :
    ∃ subDag state, tusk.commitLeader l v.state = .ok (subDag, state) ∧
      Validator.Inv
        { v with
          state
          store := v.store.writeConsensusState state.lastCommitted subDag
          subDags := v.subDags ++ [subDag] } G gcDepth stored fed (some l) := by
  have hl : l ∈ G.history tusk.leaderSchedule y :=
    List.mem_reverse.1 (hpending ▸ by simp : l ∈ committedLeaders G (some y))
  obtain ⟨hlfed, hpos, hle⟩ := of_mem_pending h.closed_fed hy hyfed hpending List.mem_cons_self
  rw [← h.reached.round] at hle
  obtain ⟨state, hcommit, hledger, htracks⟩ :=
    commitLeader_spec h.tracks h.closed_fed hgc hlfed hpos hle
  refine ⟨_, state, hcommit, h.closed, h.closed_fed, h.subset, h.holds, htracks, ?_, ?_⟩
  · have := h.persisted.commit h.closed hgc (h.subset l hlfed) hpos hle
    rw [← hledger] at this
    exact this
  · have hround := commit_committedRound hgc (h.closed_fed.mem l hlfed) hpos v.state.ledger hle
    rw [← hledger] at hround
    refine ⟨fun m hm => Option.some.inj hm ▸ ⟨y, hy, hl⟩, hround, ?_⟩
    rw [committedLeaders_of_append hy hpending, commitAll_append, h.reached.eq, hledger]
    rfl

/-- The leaders that come next are committed and written. -/
theorem Validator.Inv.commitAndWrite (h : v.Inv G gcDepth stored fed last) (hgc : 1 ≤ gcDepth)
    (hy : IsAnchor G y) (hyfed : y ∈ fed) {leaders later : List Certificate}
    (hpending : committedLeaders G (some y) = committedLeaders G last ++ (leaders ++ later)) :
    ∃ v' last', tusk.commitAndWrite leaders v = .ok v' ∧ v'.Inv G gcDepth stored fed last' := by
  induction leaders generalizing v last with
  | nil => exact ⟨v, last, rfl, h⟩
  | cons l leaders ih =>
    obtain ⟨subDag, state, hcommit, h'⟩ := h.commitLeader hgc hy hyfed hpending
    have hnext : committedLeaders G (some y) =
        committedLeaders G (some l) ++ (leaders ++ later) := by
      rw [committedLeaders_of_append hy hpending, hpending]
      simp
    obtain ⟨v', last', hrest, h''⟩ := ih h' hnext
    refine ⟨v', last', ?_, h''⟩
    rw [Tusk.commitAndWrite, hcommit]
    exact hrest

/-- A call of `process_certificate`, to its end or up to one of its writes. -/
theorem Validator.Inv.processUntil (h : v.Inv G gcDepth stored fed last) (hgc : 1 ≤ gcDepth)
    {c : Certificate} (hc : c ∈ G.certificates)
    (hparents : 2 ≤ c.round → ∀ digest ∈ c.parents, ∃ p ∈ fed, p.digest = digest)
    (writes : Option Nat) :
    ∃ v' last', tusk.processUntil writes c v = .ok v' ∧
      v'.Inv G gcDepth (c :: stored) (c :: fed) last' := by
  obtain ⟨outcome, leaders, state, hpending, htracks, hledger, hleaders⟩ :=
    pendingLeaders_spec h.tracks h.closed_fed h.reached.onHistory h.reached.round hc hparents
  have hstored := h.store hc fun hround digest hdigest => by
    obtain ⟨p, hp, hpd⟩ := hparents hround digest hdigest
    exact ⟨p, h.subset p hp, hpd⟩
  have h' : Validator.Inv { v with state, certStore := v.certStore.write c } G gcDepth (c :: stored)
      (c :: fed) last :=
    ⟨hstored.closed, h.closed_fed.cons hc hparents,
      List.forall_mem_cons.2 ⟨List.mem_cons_self, hstored.subset⟩, hstored.holds, htracks,
      hledger ▸ hstored.persisted, hledger ▸ hstored.reached⟩
  rw [Tusk.processUntil, hpending]
  simp only [bind, Except.bind]
  rcases hleaders with rfl | ⟨y, hyfed, hy, -, hleaders⟩
  · exact ⟨_, last, by rw [List.take_nil]; rfl, h'⟩
  · rw [← List.take_append_drop (writes.getD leaders.length) leaders] at hleaders
    exact h'.commitAndWrite hgc hy hyfed hleaders

/-- The validator that is rebuilt has been fed what is stored. -/
theorem Validator.Inv.restart (h : v.Inv G gcDepth stored fed last) :
    ∃ v', tusk.restart gcDepth v = .ok v' ∧ v'.Inv G gcDepth stored stored last := by
  obtain ⟨state, hspawn, htracks, hledger⟩ :=
    spawn_spec h.persisted h.holds h.closed h.tracks.gcRound_eq
  refine ⟨{ v with state }, ?_, h.closed, h.closed, fun _ hc => hc, h.holds, htracks,
    hledger ▸ h.persisted, hledger ▸ h.reached⟩
  rw [Tusk.restart, hspawn]
  rfl

/-- A causal run does not fail, and every state of it is that of some committed leaders. -/
theorem Validator.Inv.run (h : v.Inv G gcDepth stored fed last) (hgc : 1 ≤ gcDepth)
    {events : List Event} (hevents : CausalRun G stored fed events) :
    ∃ v' stored' fed' last', tusk.run gcDepth events v = .ok v' ∧
      v'.Inv G gcDepth stored' fed' last' := by
  induction events generalizing v stored fed last with
  | nil => exact ⟨v, stored, fed, last, rfl, h⟩
  | cons event events ih =>
    obtain ⟨hmem, hcausal⟩ := hevents
    obtain ⟨hevent, hmem⟩ := List.forall_mem_cons.1 hmem
    -- the step keeps the invariant, and the rest is causal from there
    have hstep : ∃ v' stored' fed' last', tusk.step gcDepth v event = .ok v' ∧
        v'.Inv G gcDepth stored' fed' last' ∧ causalEvents stored' fed' events = true := by
      cases event with
      | store c =>
        obtain ⟨hparents, hrest⟩ := Bool.and_eq_true_iff.1 hcausal
        exact ⟨_, _, _, _, rfl, h.store (hevent c rfl) (parentsKnown_iff.1 hparents), hrest⟩
      | deliver c =>
        obtain ⟨hparents, hrest⟩ := Bool.and_eq_true_iff.1 hcausal
        obtain ⟨v', last', heq, h'⟩ :=
          h.processUntil hgc (hevent c rfl) (parentsKnown_iff.1 hparents) none
        exact ⟨v', _, _, last', by rw [Tusk.step, heq]; rfl, h', hrest⟩
      | stop c writes =>
        obtain ⟨hparents, hrest⟩ := Bool.and_eq_true_iff.1 hcausal
        obtain ⟨v₁, last', heq, h₁⟩ :=
          h.processUntil hgc (hevent c rfl) (parentsKnown_iff.1 hparents) (some writes)
        obtain ⟨v', hrestart, h'⟩ := h₁.restart
        exact ⟨v', _, _, last', by rw [Tusk.step, heq]; exact hrestart, h', hrest⟩
      | restart =>
        obtain ⟨v', hrestart, h'⟩ := h.restart
        exact ⟨v', _, _, last, hrestart, h', hcausal⟩
    obtain ⟨v₁, stored₁, fed₁, last₁, heq, h₁, hrest⟩ := hstep
    obtain ⟨v', stored', fed', last', hrun, h'⟩ := ih h₁ ⟨hmem, hrest⟩
    refine ⟨v', stored', fed', last', ?_, h'⟩
    rw [Tusk.run, heq]
    exact hrun

/-- The leaders that are committed with one on a history are the first ones of a supported leader.
-/
theorem exists_isAnchor (hlast : ∀ l ∈ last, OnHistory G l) :
    ∃ last', (∀ x ∈ last', IsAnchor G x) ∧
      committedLeaders G last <+: committedLeaders G last' := by
  cases last with
  | none => exact ⟨none, nofun, List.prefix_rfl⟩
  | some l =>
    obtain ⟨x, hx, hl⟩ := hlast l rfl
    obtain ⟨earlier, later, heq⟩ : ∃ earlier later,
        committedLeaders G (some x) = earlier ++ l :: later :=
      List.append_of_mem (List.mem_reverse.2 hl)
    refine ⟨some x, fun y hy => Option.some.inj hy ▸ hx, ?_⟩
    rw [committedLeaders_of_append hx heq, heq]
    exact ⟨later, by simp⟩

end

/-- **Restarts**: a validator that is fed certificates of one DAG, every one after its parents, and
that is stopped and rebuilt from its stores any number of times, between two calls or after any
write of a call, commits without a fault, and of what it has committed over all its restarts and of
what a validator without a restart has committed, one is a beginning of the other. -/
theorem tusk_restart (tusk : Tusk) (G : CertificateDag tusk.committee) (gcDepth : Nat)
    (hgc : 1 ≤ gcDepth) (events : List Event) (hevents : CausalRun G [] [] events)
    (feed : List Certificate) (hfeed : Causal G [] feed) :
    ∃ v subDags, tusk.run gcDepth events { state := { gcDepth } } = .ok v ∧
      tusk.produced gcDepth feed = .ok subDags ∧
      (v.subDags <+: subDags ∨ subDags <+: v.subDags) := by
  obtain ⟨v, stored, fed, last, hrun, h⟩ := (Validator.Inv.new G gcDepth).run hgc hevents
  obtain ⟨last', hanchor', heq⟩ := exists_produced G hgc hfeed
  have hv : v.subDags = (G.commitAll gcDepth (committedLeaders G last) {}).1 := by
    rw [h.reached.eq]
  refine ⟨v, _, hrun, heq, ?_⟩
  rw [hv]
  obtain ⟨x, hanchor, hfirst⟩ := exists_isAnchor h.reached.onHistory
  rcases Nat.le_total (committedRound x) (committedRound last') with hle | hle
  · exact .inl (commitAll_mono
      (hfirst.trans (committedLeaders_prefix_of_le hanchor hanchor' hle)) _)
  · have hfirst' := committedLeaders_prefix_of_le hanchor' hanchor hle
    exact (List.prefix_or_prefix_of_prefix hfirst hfirst').imp
      (fun h => commitAll_mono h _) fun h => commitAll_mono h _

namespace TuskFixture

/-- Certificates of five rounds in which only one of the third round has the leader of round `2` as
a parent, so that this leader is committed through the one of round `4`. -/
def sparseCertificate (round origin : Nat) : Certificate :=
  { certificate round origin with
    parents := if round = 3 ∧ origin ≠ 0 then [8, 10, 11] else (certificate round origin).parents }

def sparse : List Certificate :=
  [1, 2, 3, 4, 5].flatMap fun round => (List.range 4).map (sparseCertificate round)

/-- The parents of a certificate. -/
def sparseParents (c : Certificate) : List Certificate :=
  sparse.filter fun p => p.digest ∈ c.parents

/-- The parents of a certificate of the sparse fixture are a quorum. -/
theorem quorum_sparse : ∀ c ∈ sparse, 2 ≤ c.round →
    ((sparseParents c).map (·.origin)).Nodup ∧
      (∀ p ∈ sparseParents c, p ∈ sparse ∧ p.digest ∈ c.parents) ∧
      tusk.committee.quorumThreshold ≤
        ((sparseParents c).map fun p => tusk.committee.stakeById p.origin).sum := by
  decide +kernel

theorem parents_sparse : ∀ c ∈ sparse, 2 ≤ c.round →
    (c.parents.all fun digest =>
      sparse.any fun p => p.digest = digest ∧ p.round + 1 = c.round) = true := by
  decide +kernel

/-- The DAG of these certificates. -/
def sparseDag : CertificateDag tusk.committee where
  certificates := { c | c ∈ sparse }
  digest_injective := (by decide +kernel :
    ∀ c ∈ sparse, ∀ d ∈ sparse, c.digest = d.digest → c = d)
  unique := (by decide +kernel :
    ∀ c ∈ sparse, ∀ d ∈ sparse, c.round = d.round → c.origin = d.origin → c = d)
  authority := (by decide +kernel : ∀ c ∈ sparse, c.origin ∈ tusk.committee.authorities.map (·.id))
  parents c hc hround digest hdigest := by
    have h := List.all_eq_true.1 (parents_sparse c hc hround) digest hdigest
    simpa using h
  quorum c hc hround := ⟨sparseParents c, quorum_sparse c hc hround⟩

/-- The second certificate of round `5` makes the call commit two leaders. The validator stops after
the write of the first one. -/
def stoppedRun : List Event :=
  (sparse.take 17).map .deliver ++
    [.stop (sparseCertificate 5 1) 1, .deliver (sparseCertificate 5 2)]

/-- The second leader is committed with the next certificate. -/
theorem tusk_restart_stopped :
    ((tusk.run 50 stoppedRun { state := { gcDepth := 50 } }).toOption.map
        fun v => v.subDags.map (·.leader.round)) = some [2, 4] ∧
      ∃ v subDags, tusk.run 50 stoppedRun { state := { gcDepth := 50 } } = .ok v ∧
        tusk.produced 50 sparse = .ok subDags ∧
        (v.subDags <+: subDags ∨ subDags <+: v.subDags) := by
  have hmem : ∀ event ∈ stoppedRun, ∀ c ∈ event.certificate, c ∈ sparse := by decide +kernel
  exact ⟨by decide +kernel, tusk_restart tusk sparseDag 50 (by decide) stoppedRun
    ⟨hmem, by decide +kernel⟩ sparse ⟨fun c hc => hc, by decide +kernel⟩⟩

end TuskFixture

end Chase.Narwhal
