import Mathlib.Data.List.Basic
import Mathlib.Data.List.Perm.Basic
import Mathlib.Data.List.Nodup

/-!
# Interleavings of sequences

Several sequences of events run in parallel, each in its own order (`Interleaving`). A run in phases
is a list of such groups, one after the other (`Phased`). When the events of interest of every phase
lie in a single sequence, every run meets them in the same order (`Phased.filter_eq`), and two
events of different sequences of a phase occur in both orders (`Phased.exists_order`).
-/

namespace Interleave

variable {α β : Type*}

/-- The events of the sequences `cs` in an order that keeps the order of each of them. -/
inductive Interleaving : List (List α) → List α → Prop
  | done {cs : List (List α)} : (∀ c ∈ cs, c = []) → Interleaving cs []
  | step {cs rest : List (List α)} {a : α} {c l : List α} :
    cs.Perm ((a :: c) :: rest) → Interleaving (c :: rest) l → Interleaving cs (a :: l)

namespace Interleaving

variable {cs cs' : List (List α)} {l : List α}

/-- The order in which the sequences are listed does not matter. -/
theorem of_perm (hp : cs'.Perm cs) (h : Interleaving cs l) : Interleaving cs' l := by
  cases h with
  | done h => exact .done fun c hc => h c (hp.mem_iff.1 hc)
  | step hp' h => exact .step (hp.trans hp') h

theorem perm (h : Interleaving cs l) : l.Perm cs.flatten := by
  induction h with
  | done h => rw [List.flatten_eq_nil_iff.2 h]
  | step hp _ ih => exact (ih.cons _).trans hp.flatten.symm

/-- An interleaving keeps the order of each sequence. -/
theorem sublist (h : Interleaving cs l) : ∀ c ∈ cs, List.Sublist c l := by
  induction h with
  | done h =>
    intro c hc
    rw [h c hc]
  | @step cs rest a c' l hp _ ih =>
    intro c hc
    rcases List.mem_cons.1 (hp.mem_iff.1 hc) with rfl | hc
    · exact (ih c' List.mem_cons_self).cons_cons a
    · exact (ih c (List.mem_cons_of_mem _ hc)).cons a

/-- A single sequence has one interleaving. -/
theorem eq_of_singleton {c : List α} (h : Interleaving [c] l) : l = c := by
  have hperm := h.perm
  rw [List.flatten_singleton] at hperm
  exact ((h.sublist c (List.mem_singleton.2 rfl)).eq_of_length hperm.length_eq.symm).symm

/-- A sequence without events adds nothing. -/
theorem nil_cons (h : Interleaving cs l) : Interleaving ([] :: cs) l := by
  induction h with
  | done h => exact .done fun c hc => (List.mem_cons.1 hc).elim id (h c)
  | step hp _ ih =>
    exact .step ((hp.cons _).trans (.swap ..)) (ih.of_perm (.swap ..))

theorem append (h : Interleaving cs l) : ∀ c : List α, Interleaving (c :: cs) (c ++ l)
  | [] => h.nil_cons
  | _ :: c => .step (.refl _) (h.append c)

theorem flatten : ∀ cs : List (List α), Interleaving cs cs.flatten
  | [] => .done fun _ h => nomatch h
  | c :: cs => (flatten cs).append c

/-- When the events that satisfy `p` all lie in the sequence `c`, they occur in the order of `c`. -/
theorem filter_eq {p : α → Bool} {c : List α} (h : Interleaving (c :: cs) l)
    (hp : ∀ c ∈ cs, ∀ a ∈ c, p a = false) : l.filter p = c.filter p := by
  have hsub : List.Sublist (c.filter p) (l.filter p) :=
    (h.sublist c List.mem_cons_self).filter p
  have hrest : cs.flatten.filter p = [] := by
    rw [List.filter_eq_nil_iff]
    intro a ha
    obtain ⟨c, hc, ha⟩ := List.mem_flatten.1 ha
    simp [hp c hc a ha]
  have hlen : (l.filter p).length = (c.filter p).length := by
    rw [(h.perm.filter p).length_eq, List.flatten_cons, List.filter_append, hrest,
      List.append_nil]
  exact (hsub.eq_of_length hlen.symm).symm

end Interleaving

/-! ## Runs in phases -/

/-- The sequences of each phase run in parallel, and a phase starts when the one before has ended.
-/
inductive Phased : List (List (List α)) → List α → Prop
  | nil : Phased [] []
  | cons {cs : List (List α)} {phases : List (List (List α))} {l l' : List α} :
    Interleaving cs l → Phased phases l' → Phased (cs :: phases) (l ++ l')

/-- In every phase, the events that satisfy `p` lie in at most one of the sequences. -/
def OneLane (p : α → Bool) (cs : List (List α)) : Prop :=
  cs.Pairwise fun c c' => ∀ a ∈ c, ∀ b ∈ c', ¬(p a = true ∧ p b = true)

/-- A group of sequences of which at most one has an event that satisfies `p` has one order of these
events. -/
theorem OneLane.filter_eq {p : α → Bool} {cs : List (List α)} {l : List α} (hone : OneLane p cs)
    (h : Interleaving cs l) : l.filter p = cs.flatten.filter p := by
  by_cases hex : ∃ c ∈ cs, ∃ a ∈ c, p a = true
  · obtain ⟨c, hc, a, ha, hpa⟩ := hex
    obtain ⟨pre, post, rfl⟩ := List.append_of_mem hc
    have hothers : ∀ c' ∈ pre ++ post, ∀ b ∈ c', p b = false := by
      intro c' hc' b hb
      rw [OneLane, List.pairwise_append, List.pairwise_cons] at hone
      obtain ⟨-, ⟨hpost, -⟩, hpre⟩ := hone
      by_contra hpb
      rw [Bool.not_eq_false] at hpb
      rcases List.mem_append.1 hc' with hc' | hc'
      · exact hpre c' hc' c List.mem_cons_self b hb a ha ⟨hpb, hpa⟩
      · exact hpost c' hc' a ha b hb ⟨hpa, hpb⟩
    have hperm : (c :: (pre ++ post)).Perm (pre ++ c :: post) := List.perm_middle.symm
    rw [(h.of_perm hperm).filter_eq hothers,
      ((Interleaving.flatten (pre ++ c :: post)).of_perm hperm).filter_eq hothers]
  · have hnone : ∀ l : List α, l.Perm cs.flatten → l.filter p = [] := by
      intro l hl
      rw [List.filter_eq_nil_iff]
      intro a ha hpa
      obtain ⟨c, hc, hac⟩ := List.mem_flatten.1 (hl.mem_iff.1 ha)
      exact hex ⟨c, hc, a, hac, hpa⟩
    rw [hnone l h.perm, hnone _ (.refl _)]

/-- The events of a list without repetition have one order. -/
theorem not_sublist_swap {l : List α} (h : l.Nodup) {a b : α}
    (hab : List.Sublist [a, b] l) : ¬List.Sublist [b, a] l := by
  intro hba
  induction l with
  | nil => cases hab
  | cons c l ih =>
    rw [List.nodup_cons] at h
    cases hab with
    | cons _ hab =>
      cases hba with
      | cons _ hba => exact ih h.2 hab hba
      | cons_cons _ hba => exact h.1 (hab.subset (by simp))
    | cons_cons _ hab =>
      cases hba with
      | cons _ hba => exact h.1 (hba.subset (by simp))
      | cons_cons _ hba => exact h.1 (List.singleton_sublist.1 hab)

/-- The events that satisfy `p` lie in one sequence when every two of them do. -/
theorem OneLane.of_mem_lane {p : α → Bool} {cs : List (List α)} (hnodup : cs.flatten.Nodup)
    (h : ∀ a ∈ cs.flatten, ∀ b ∈ cs.flatten, a ≠ b → p a = true → p b = true →
      ∃ c ∈ cs, a ∈ c ∧ b ∈ c) : OneLane p cs := by
  induction cs with
  | nil => exact List.Pairwise.nil
  | cons c₀ cs ih =>
    rw [List.flatten_cons, List.nodup_append] at hnodup
    obtain ⟨-, hrest, hdisj⟩ := hnodup
    refine List.pairwise_cons.2 ⟨fun c' hc' a ha b hb ⟨hpa, hpb⟩ => ?_, ih hrest ?_⟩
    · have hb' : b ∈ cs.flatten := List.mem_flatten.2 ⟨c', hc', hb⟩
      have hab : a ≠ b := hdisj a ha b hb'
      obtain ⟨c, hc, hac, hbc⟩ := h a (List.mem_append_left _ ha) b (List.mem_append_right _ hb')
        hab hpa hpb
      rcases List.mem_cons.1 hc with rfl | hc
      · exact hdisj b hbc b hb' rfl
      · exact hdisj a ha a (List.mem_flatten.2 ⟨c, hc, hac⟩) rfl
    · intro a ha b hb hab hpa hpb
      obtain ⟨c, hc, hac, hbc⟩ := h a (List.mem_append_right _ ha) b (List.mem_append_right _ hb)
        hab hpa hpb
      rcases List.mem_cons.1 hc with rfl | hc
      · exact absurd rfl (hdisj a hac a ha)
      · exact ⟨c, hc, hac, hbc⟩

/-- Two events are in one sequence, or in two of them. -/
theorem exists_lane_or_perm {cs : List (List α)} {a b : α} (ha : a ∈ cs.flatten)
    (hb : b ∈ cs.flatten) : (∃ c ∈ cs, a ∈ c ∧ b ∈ c) ∨
      ∃ c c' rest, cs.Perm (c :: c' :: rest) ∧ a ∈ c ∧ b ∈ c' := by
  obtain ⟨c, hc, hac⟩ := List.mem_flatten.1 ha
  obtain ⟨pre, post, rfl⟩ := List.append_of_mem hc
  obtain ⟨c', hc', hbc⟩ := List.mem_flatten.1 hb
  have hperm : (pre ++ c :: post).Perm (c :: (pre ++ post)) := List.perm_middle
  rcases List.mem_cons.1 (hperm.mem_iff.1 hc') with rfl | hc'
  · exact .inl ⟨c', hc, hac, hbc⟩
  · obtain ⟨pre', post', heq⟩ := List.append_of_mem hc'
    rw [heq] at hperm
    exact .inr ⟨c, c', pre' ++ post', hperm.trans (List.perm_middle.cons c), hac, hbc⟩

namespace Phased

variable {phases : List (List (List α))} {l : List α}

/-- The phases can run each sequence after the other. -/
theorem flatten : ∀ phases : List (List (List α)), Phased phases phases.flatten.flatten
  | [] => .nil
  | cs :: phases => by
    rw [List.flatten_cons, List.flatten_append]
    exact .cons (.flatten cs) (flatten phases)

theorem perm (h : Phased phases l) : l.Perm phases.flatten.flatten := by
  induction h with
  | nil => rfl
  | cons h _ ih =>
    rw [List.flatten_cons, List.flatten_append]
    exact h.perm.append ih

/-- When in every phase at most one sequence has events that satisfy `p`, these events occur in the
same order in every run. -/
theorem filter_eq {p : α → Bool} (hone : ∀ cs ∈ phases, OneLane p cs) (h : Phased phases l) :
    l.filter p = phases.flatten.flatten.filter p := by
  induction h with
  | nil => rfl
  | cons h _ ih =>
    rw [List.flatten_cons, List.flatten_append, List.filter_append, List.filter_append,
      (hone _ List.mem_cons_self).filter_eq h,
      ih fun cs hcs => hone cs (List.mem_cons_of_mem _ hcs)]

/-- A relation that holds within every phase and from every phase to the later ones holds along
every run. -/
theorem pairwise {R : α → α → Prop} (h : Phased phases l)
    (hin : ∀ cs ∈ phases, ∀ a ∈ cs.flatten, ∀ b ∈ cs.flatten, R a b)
    (hout : phases.Pairwise fun cs cs' => ∀ a ∈ cs.flatten, ∀ b ∈ cs'.flatten, R a b) :
    l.Pairwise R := by
  induction h with
  | nil => exact List.Pairwise.nil
  | @cons cs phases l l' h h' ih =>
    rw [List.pairwise_cons] at hout
    have hin' := fun cs hcs => hin cs (List.mem_cons_of_mem _ hcs)
    refine List.pairwise_append.2 ⟨?_, ih hin' hout.2, fun a ha b hb => ?_⟩
    · refine List.pairwise_of_forall_mem_list fun a ha b hb => ?_
      exact hin cs List.mem_cons_self a (h.perm.mem_iff.1 ha) b (h.perm.mem_iff.1 hb)
    · have hb := h'.perm.mem_iff.1 hb
      obtain ⟨c, hc, hb⟩ := List.mem_flatten.1 hb
      obtain ⟨cs', hcs', hc⟩ := List.mem_flatten.1 hc
      exact hout.1 cs' hcs' a (h.perm.mem_iff.1 ha) b (List.mem_flatten.2 ⟨c, hc, hb⟩)

/-- Two events of different sequences of one phase may occur in either order. -/
theorem exists_order (pre : List (List (List α))) {post : List (List (List α))}
    {cs rest : List (List α)}
    {c c' : List α} {a b : α} (hcs : cs.Perm (c :: c' :: rest)) (ha : a ∈ c) (hb : b ∈ c') :
    ∃ l, Phased (pre ++ cs :: post) l ∧ List.Sublist [a, b] l := by
  have hcs' : Interleaving cs (c ++ (c' ++ rest.flatten)) :=
    (Interleaving.flatten (c :: c' :: rest)).of_perm hcs
  have hsub : List.Sublist [a, b] (c ++ (c' ++ rest.flatten)) :=
    (List.singleton_sublist.2 ha).append
      (List.singleton_sublist.2 (List.mem_append_left _ hb))
  induction pre with
  | nil =>
    exact ⟨_, .cons hcs' (flatten post), hsub.trans (List.sublist_append_left ..)⟩
  | cons cs₀ pre ih =>
    obtain ⟨l, hl, hs⟩ := ih
    exact ⟨_, .cons (.flatten cs₀) hl, hs.trans (List.sublist_append_right ..)⟩

end Phased

end Interleave
