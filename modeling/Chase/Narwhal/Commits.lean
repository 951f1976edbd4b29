import Chase.Narwhal.Tracks
import Mathlib.Order.Bounds.Basic

/-!
# Sequences of commits

A ledger from which sub-dags are committed one after the other (`Commits`), each of them with what
one pass of the loop over the leaders gives it (`Ledger.Follows`): its leader is above the committed
round, and its other certificates are above the last committed round of their authorities. That is
enough for every certificate to be committed at most once (`Commits.once`), since the ledger never
forgets: a certificate that is committed stays below the last committed round of its authority
(`Commits.isCommitted`).
-/

namespace Chase.Narwhal

open CertificateDag

/-! ## The last committed rounds -/

/-- A certificate is committed when its authority has one of its round or a later one. -/
theorem isCommitted_iff {lastCommitted : AuthorityIdentifier → Option Nat} {x : Certificate} :
    isCommitted lastCommitted x = true ↔ ∃ r, lastCommitted x.origin = some r ∧ x.round ≤ r := by
  rw [isCommitted]
  cases lastCommitted x.origin with
  | none => simp
  | some r => simp

namespace Ledger

variable {gcDepth : Nat} {ledger : Ledger} {x y : Certificate}

/-- The committed round bounds the last committed rounds of the authorities. -/
def Bounded (ledger : Ledger) : Prop :=
  ∀ id r, ledger.lastCommitted id = some r → r ≤ ledger.lastRound.committedRound

/-- A committed certificate is not after the committed round. -/
theorem Bounded.round_le (h : ledger.Bounded) (hx : isCommitted ledger.lastCommitted x = true) :
    x.round ≤ ledger.lastRound.committedRound := by
  obtain ⟨r, hr, hle⟩ := isCommitted_iff.1 hx
  exact Nat.le_trans hle (h _ r hr)

theorem committedRound_update (x : Certificate) :
    (ledger.update gcDepth x).lastRound.committedRound =
    max ledger.lastRound.committedRound x.round := rfl

/-- An update raises the last round of its authority. -/
theorem lastCommitted_update (x : Certificate) (id : AuthorityIdentifier) :
    (ledger.update gcDepth x).lastCommitted id =
      if id = x.origin then some (max ((ledger.lastCommitted x.origin).getD 0) x.round)
      else ledger.lastCommitted id :=
  Function.update_apply _ _ _ _

/-- An update keeps the last rounds of the authorities within the committed round. -/
theorem Bounded.update (h : ledger.Bounded) (x : Certificate) :
    (ledger.update gcDepth x).Bounded := by
  intro id r hr
  rw [lastCommitted_update] at hr
  rw [committedRound_update]
  split at hr
  · obtain rfl := Option.some.inj hr
    cases hlast : ledger.lastCommitted x.origin with
    | none => simp
    | some r =>
      have := h _ r hlast
      simp only [Option.getD_some]
      omega
  · have := h id r hr
    omega

/-- A certificate is committed after its update. -/
theorem isCommitted_update_self (ledger : Ledger) (x : Certificate) :
    isCommitted (ledger.update gcDepth x).lastCommitted x = true := by
  rw [isCommitted_iff]
  refine ⟨_, by rw [lastCommitted_update, if_pos rfl], Nat.le_max_right _ _⟩

/-- A committed certificate stays committed. -/
theorem isCommitted_update (h : isCommitted ledger.lastCommitted y = true) (x : Certificate) :
    isCommitted (ledger.update gcDepth x).lastCommitted y = true := by
  rw [isCommitted_iff] at h ⊢
  obtain ⟨r, hr, hle⟩ := h
  by_cases horigin : y.origin = x.origin
  · refine ⟨_, by rw [lastCommitted_update, if_pos horigin], ?_⟩
    rw [← horigin, hr, Option.getD_some]
    omega
  · exact ⟨r, by rw [lastCommitted_update, if_neg horigin, hr], hle⟩

/-- Updates keep the last rounds of the authorities within the committed round. -/
theorem Bounded.foldl (h : ledger.Bounded) (sequence : List Certificate) :
    (sequence.foldl (Ledger.update gcDepth) ledger).Bounded := by
  induction sequence generalizing ledger with
  | nil => exact h
  | cons x sequence ih => exact ih (h.update x)

/-- What is committed stays committed, and what is in the sequence gets committed. -/
theorem isCommitted_foldl {sequence : List Certificate}
    (h : isCommitted ledger.lastCommitted y = true ∨ y ∈ sequence) :
    isCommitted (sequence.foldl (Ledger.update gcDepth) ledger).lastCommitted y = true := by
  induction sequence generalizing ledger with
  | nil => exact h.resolve_right List.not_mem_nil
  | cons x sequence ih =>
    refine ih ?_
    rcases h with h | h
    · exact .inl (isCommitted_update h x)
    · rcases List.mem_cons.1 h with rfl | h
      · exact .inl (isCommitted_update_self ledger y)
      · exact .inr h

/-! ## Commits -/

/-- A sub-dag is committed. -/
def commit (gcDepth : Nat) (ledger : Ledger) (subDag : CommittedSubDag) : Ledger :=
  { subDag.certificates.foldl (Ledger.update gcDepth) ledger with
    lastCommittedSubDag := some subDag }

/-- A sub-dag that is committed after a ledger. -/
structure Follows (ledger : Ledger) (subDag : CommittedSubDag) : Prop where
  index : subDag.subDagIndex = ((ledger.lastCommittedSubDag.map (·.subDagIndex)).getD 0) + 1
  even : subDag.leader.round % 2 = 0
  later : ledger.lastRound.committedRound < subDag.leader.round
  leader : subDag.leader ∈ subDag.certificates
  sorted : subDag.certificates.Pairwise fun a b => a.round ≤ b.round
  round_le : ∀ x ∈ subDag.certificates, x.round ≤ subDag.leader.round
  nodup : subDag.certificates.Nodup
  fresh : ∀ x ∈ subDag.certificates, x = subDag.leader ∨ isCommitted ledger.lastCommitted x = false

/-- The leader is the last thing that is committed: its round is the committed round, and the
maximum of the last committed rounds of the authorities. -/
structure Current (ledger : Ledger) (leader : Certificate) : Prop where
  committedRound : ledger.lastRound.committedRound = leader.round
  greatest : IsGreatest { r | ∃ id, ledger.lastCommitted id = some r } leader.round

variable {subDag : CommittedSubDag}

/-- After a commit, the committed round is that of the leader. -/
theorem Follows.committedRound (h : ledger.Follows subDag) :
    (ledger.commit gcDepth subDag).lastRound.committedRound = subDag.leader.round :=
  committedRound_foldl h.round_le (Nat.le_of_lt h.later) (.inr ⟨subDag.leader, h.leader, rfl⟩)

/-- After a commit, its leader is the last thing that is committed. -/
theorem Follows.current (h : ledger.Follows subDag) (hbounded : ledger.Bounded) :
    (ledger.commit gcDepth subDag).Current subDag.leader := by
  have hbounded' : (ledger.commit gcDepth subDag).Bounded := hbounded.foldl subDag.certificates
  have hround : (ledger.commit gcDepth subDag).lastRound.committedRound = subDag.leader.round :=
    h.committedRound
  have hleader : isCommitted (ledger.commit gcDepth subDag).lastCommitted subDag.leader = true :=
    isCommitted_foldl (.inr h.leader)
  obtain ⟨r, hr, hle⟩ := isCommitted_iff.1 hleader
  have hr' := hbounded' _ r hr
  rw [hround] at hr'
  refine ⟨hround, ⟨subDag.leader.origin, ?_⟩, ?_⟩
  · rw [hr, Nat.le_antisymm hr' hle]
  · rintro s ⟨id, hs⟩
    rw [← hround]
    exact hbounded' id s hs

/-- The sub-dag ends with the round of its leader. -/
theorem Follows.ends (h : ledger.Follows subDag) :
    subDag.certificates.getLast?.map (·.round) = some subDag.leader.round := by
  obtain ⟨-, -, -, hleader, hsorted, hle, -, -⟩ := h
  rcases List.eq_nil_or_concat subDag.certificates with hnil | ⟨init, last, heq⟩
  · rw [hnil] at hleader
    cases hleader
  rw [List.concat_eq_append] at heq
  rw [heq, List.mem_append] at hleader
  rw [heq, List.pairwise_append] at hsorted
  rw [heq, List.getLast?_concat, Option.map_some, Option.some.injEq]
  refine Nat.le_antisymm (hle last (heq ▸ List.mem_concat_self)) ?_
  rcases hleader with hleader | hleader
  · exact hsorted.2.2 _ hleader _ (List.mem_singleton_self last)
  · rw [List.mem_singleton.1 hleader]

end Ledger

/-- The sub-dags are committed one after the other. -/
inductive Commits (gcDepth : Nat) : List CommittedSubDag → Ledger → Prop
  | nil : Commits gcDepth [] {}
  | snoc {subDags : List CommittedSubDag} {ledger : Ledger} {subDag : CommittedSubDag} :
    Commits gcDepth subDags ledger → ledger.Follows subDag →
    Commits gcDepth (subDags ++ [subDag]) (ledger.commit gcDepth subDag)

namespace Commits

variable {gcDepth : Nat} {subDags : List CommittedSubDag} {ledger : Ledger} {x : Certificate}

theorem bounded (h : Commits gcDepth subDags ledger) : ledger.Bounded := by
  induction h with
  | nil => exact fun _ _ hr => nomatch hr
  | snoc _ _ ih => exact ih.foldl _

/-- The ledger knows what is committed. -/
theorem isCommitted (h : Commits gcDepth subDags ledger)
    (hx : x ∈ subDags.flatMap (·.certificates)) : isCommitted ledger.lastCommitted x = true := by
  induction h with
  | nil => cases hx
  | snoc _ _ ih =>
    rw [List.flatMap_append, List.mem_append, List.flatMap_singleton] at hx
    exact Ledger.isCommitted_foldl (hx.imp_left ih)

theorem round_le (h : Commits gcDepth subDags ledger)
    (hx : x ∈ subDags.flatMap (·.certificates)) : x.round ≤ ledger.lastRound.committedRound :=
  h.bounded.round_le (h.isCommitted hx)

/-- No certificate is committed twice: the leader is above everything that is committed, and the
other certificates of a sub-dag are not committed before. -/
theorem once (h : Commits gcDepth subDags ledger) : (subDags.flatMap (·.certificates)).Nodup := by
  induction h with
  | nil => exact List.nodup_nil
  | snoc hcommits hfollows ih =>
    rw [List.flatMap_append, List.flatMap_singleton, List.nodup_append]
    refine ⟨ih, hfollows.nodup, ?_⟩
    rintro x hx y hy rfl
    rcases hfollows.fresh x hy with rfl | hfresh
    · exact absurd (hcommits.round_le hx) (Nat.not_le_of_lt hfollows.later)
    · rw [hcommits.isCommitted hx] at hfresh
      cases hfresh

theorem lastCommittedSubDag (h : Commits gcDepth subDags ledger) :
    ledger.lastCommittedSubDag = subDags.getLast? := by
  cases h with
  | nil => rfl
  | snoc _ _ => rw [List.getLast?_concat]; rfl

/-- The indices are consecutive. -/
theorem index (h : Commits gcDepth subDags ledger) :
    subDags.map (·.subDagIndex) = List.range' 1 subDags.length := by
  induction h with
  | nil => rfl
  | @snoc subDags ledger subDag hcommits hfollows ih =>
    have hlast : (ledger.lastCommittedSubDag.map (·.subDagIndex)).getD 0 = subDags.length := by
      rw [hcommits.lastCommittedSubDag, ← List.getLast?_map, ih]
      cases subDags.length with
      | zero => rfl
      | succ n => simp [List.range'_concat, Nat.add_comm]
    rw [List.map_append, ih, List.length_append, List.map_singleton, List.length_singleton,
      List.range'_concat, hfollows.index, hlast]
    simp [Nat.add_comm]

/-- Every sub-dag was committed after a ledger. -/
theorem follows (h : Commits gcDepth subDags ledger) {subDag : CommittedSubDag}
    (hmem : subDag ∈ subDags) : ∃ ledger : Ledger, ledger.Follows subDag := by
  induction h with
  | nil => cases hmem
  | snoc _ hfollows ih =>
    rcases List.mem_append.1 hmem with hmem | hmem
    · exact ih hmem
    · exact List.mem_singleton.1 hmem ▸ ⟨_, hfollows⟩

/-- A leader is one of the committed certificates. -/
theorem leader_mem (h : Commits gcDepth subDags ledger) {subDag : CommittedSubDag}
    (hmem : subDag ∈ subDags) : subDag.leader ∈ subDags.flatMap (·.certificates) := by
  obtain ⟨_, hfollows⟩ := h.follows hmem
  exact List.mem_flatMap.2 ⟨subDag, hmem, hfollows.leader⟩

/-- The leaders are of increasing rounds. -/
theorem increasing (h : Commits gcDepth subDags ledger) :
    subDags.Pairwise fun a b => a.leader.round < b.leader.round := by
  induction h with
  | nil => exact .nil
  | snoc hcommits hfollows ih =>
    refine List.pairwise_append.2 ⟨ih, List.pairwise_singleton _ _, fun a ha b hb => ?_⟩
    rw [List.mem_singleton.1 hb]
    exact Nat.lt_of_le_of_lt (hcommits.round_le (hcommits.leader_mem ha)) hfollows.later

theorem ledger_eq (h : Commits gcDepth subDags ledger) :
    ledger = subDags.foldl (Ledger.commit gcDepth) {} := by
  induction h with
  | nil => rfl
  | snoc _ _ ih => rw [List.foldl_concat, ← ih]

/-- The first sub-dags are commits as well. -/
theorem take (h : Commits gcDepth subDags ledger) {pre post : List CommittedSubDag}
    (heq : subDags = pre ++ post) : Commits gcDepth pre (pre.foldl (Ledger.commit gcDepth) {}) := by
  induction h generalizing post with
  | nil =>
    obtain ⟨rfl, rfl⟩ := List.append_eq_nil_iff.1 heq.symm
    exact .nil
  | @snoc subDags ledger subDag hcommits hfollows ih =>
    rcases List.eq_nil_or_concat post with rfl | ⟨post, last, rfl⟩
    · rw [List.append_nil] at heq
      rw [← heq, List.foldl_concat, ← hcommits.ledger_eq]
      exact .snoc hcommits hfollows
    · rw [List.concat_eq_append, ← List.append_assoc] at heq
      exact ih (List.append_inj_left' heq rfl)

/-- The last leader is current. -/
theorem current (h : Commits gcDepth subDags ledger) {subDag : CommittedSubDag}
    (hlast : subDags.getLast? = some subDag) : ledger.Current subDag.leader := by
  cases h with
  | nil => cases hlast
  | snoc hcommits hfollows =>
    rw [List.getLast?_concat, Option.some.injEq] at hlast
    exact hlast ▸ hfollows.current hcommits.bounded

/-- The highest round of the last sub-dags is the committed round. -/
theorem max_round (h : Commits gcDepth subDags ledger) {pre new : List CommittedSubDag}
    (heq : subDags = pre ++ new) {r : Nat}
    (hr : ((new.flatMap (·.certificates)).map (·.round)).max? = some r) :
    ledger.lastRound.committedRound = r := by
  obtain ⟨hmem, hmax⟩ := List.max?_eq_some_iff.1 hr
  obtain ⟨x, hx, rfl⟩ := List.mem_map.1 hmem
  obtain ⟨subDag, hsubDag, hxs⟩ := List.mem_flatMap.1 hx
  refine Nat.le_antisymm ?_ ?_
  · -- the leader of the last sub-dag has the committed round
    have hne := List.ne_nil_of_mem hsubDag
    have hlast : subDags.getLast? = some (new.getLast hne) := by
      rw [heq, List.getLast?_append_of_ne_nil _ hne, List.getLast?_eq_some_getLast hne]
    have hlastmem := List.getLast_mem hne
    obtain ⟨_, hfollows⟩ := h.follows (heq ▸ List.mem_append_right pre hlastmem)
    rw [(h.current hlast).committedRound]
    exact hmax _ (List.mem_map_of_mem (List.mem_flatMap.2 ⟨_, hlastmem, hfollows.leader⟩))
  · exact h.round_le (List.mem_flatMap.2 ⟨subDag, heq ▸ List.mem_append_right pre hsubDag, hxs⟩)

end Commits

end Chase.Narwhal
