import Mathlib.Data.List.Basic
import Mathlib.Data.Nat.Notation

/-!
# Chains of anchors

A round may have an anchor. From an anchor one goes back over the earlier rounds and collects each
anchor that the one collected last is linked to (`chain`). An anchor that all later ones are linked
to is on every chain from above, and what is below it on the chain is its own chain
(`chain_append_cons`), so the chains of two such anchors, read from the oldest one on, are one a
beginning of the other.
-/

namespace AnchorChain

variable {α : Type} (anchor : ℕ → Option α) (Linked : α → α → Prop)

open Classical in
/-- The anchors that are collected from `a` over the rounds. -/
noncomputable def chain : List ℕ → α → List α
  | [], _ => []
  | r :: rounds, a =>
    match anchor r with
    | none => chain rounds a
    | some b => if Linked a b then b :: chain rounds b else chain rounds a

variable {anchor Linked} {r : ℕ} {rounds : List ℕ} {a b x : α}

theorem chain_cons_none (h : anchor r = none) :
    chain anchor Linked (r :: rounds) a = chain anchor Linked rounds a := by
  rw [chain, h]

/-- A linked anchor is the next one. -/
theorem chain_cons_linked (h : anchor r = some b) (hab : Linked a b) :
    chain anchor Linked (r :: rounds) a = b :: chain anchor Linked rounds b := by
  rw [chain, h]
  exact if_pos hab

theorem chain_cons_unlinked (h : anchor r = some b) (hab : ¬Linked a b) :
    chain anchor Linked (r :: rounds) a = chain anchor Linked rounds a := by
  rw [chain, h]
  exact if_neg hab

/-- A chain goes through an anchor that the anchors above it are linked to. -/
theorem chain_append_cons (hx : anchor r = some x) {above below : List ℕ} (ha : Linked a x)
    (habove : ∀ r' ∈ above, ∀ b, anchor r' = some b → Linked b x) :
    chain anchor Linked (above ++ r :: below) a =
      chain anchor Linked above a ++ x :: chain anchor Linked below x := by
  induction above generalizing a with
  | nil => exact chain_cons_linked hx ha
  | cons r' above ih =>
    have hrest : ∀ r'' ∈ above, ∀ b, anchor r'' = some b → Linked b x := fun r'' hr'' =>
      habove r'' (List.mem_cons_of_mem _ hr'')
    rw [List.cons_append]
    cases hr' : anchor r' with
    | none => rw [chain_cons_none hr', chain_cons_none hr', ih ha hrest]
    | some b =>
      by_cases hab : Linked a b
      · rw [chain_cons_linked hr' hab, chain_cons_linked hr' hab,
          ih (habove r' List.mem_cons_self b hr') hrest, List.cons_append]
      · rw [chain_cons_unlinked hr' hab, chain_cons_unlinked hr' hab, ih ha hrest]

/-- A chain goes on from the last anchor that it has collected. -/
theorem chain_append (above below : List ℕ) (a : α) :
    chain anchor Linked (above ++ below) a =
      chain anchor Linked above a ++
        chain anchor Linked below ((chain anchor Linked above a).getLastD a) := by
  induction above generalizing a with
  | nil => rfl
  | cons r above ih =>
    rw [List.cons_append]
    cases hr : anchor r with
    | none => rw [chain_cons_none hr, chain_cons_none hr, ih]
    | some b =>
      by_cases hab : Linked a b
      · rw [chain_cons_linked hr hab, chain_cons_linked hr hab, ih, List.getLastD_cons,
          List.cons_append]
      · rw [chain_cons_unlinked hr hab, chain_cons_unlinked hr hab, ih]

/-- Below an anchor of a chain is the chain of the anchor. -/
theorem chain_split {above below : List ℕ} (hx : anchor r = some x)
    (hmem : x ∈ chain anchor Linked (above ++ r :: below) a)
    (habove : x ∉ chain anchor Linked above a) (hbelow : ∀ b, x ∉ chain anchor Linked below b) :
    chain anchor Linked (above ++ r :: below) a =
      chain anchor Linked above a ++ x :: chain anchor Linked below x := by
  rw [chain_append] at hmem ⊢
  have hlinked : Linked ((chain anchor Linked above a).getLastD a) x := by
    by_contra hlinked
    rw [chain_cons_unlinked hx hlinked] at hmem
    exact (List.mem_append.1 hmem).elim habove (hbelow _)
  rw [chain_cons_linked hx hlinked]

/-- The chain has anchors of the rounds only. -/
theorem anchor_of_mem_chain (h : x ∈ chain anchor Linked rounds a) :
    ∃ r ∈ rounds, anchor r = some x := by
  induction rounds generalizing a with
  | nil => cases h
  | cons r rounds ih =>
    have hlater : ∀ b, x ∈ chain anchor Linked rounds b → ∃ r' ∈ r :: rounds, anchor r' = some x :=
      fun b hb => by
        obtain ⟨r', hr', hx⟩ := ih hb
        exact ⟨r', List.mem_cons_of_mem _ hr', hx⟩
    cases hr : anchor r with
    | none =>
      rw [chain_cons_none hr] at h
      exact hlater a h
    | some b =>
      by_cases hab : Linked a b
      · rw [chain_cons_linked hr hab] at h
        rcases List.mem_cons.1 h with rfl | h
        · exact ⟨r, List.mem_cons_self, hr⟩
        · exact hlater b h
      · rw [chain_cons_unlinked hr hab] at h
        exact hlater a h

/-- When links compose, the start of a chain is linked to all of it. -/
theorem linked_of_mem_chain (htrans : ∀ a b c, Linked a b → Linked b c → Linked a c)
    (h : x ∈ chain anchor Linked rounds a) : Linked a x := by
  induction rounds generalizing a with
  | nil => cases h
  | cons r rounds ih =>
    cases hr : anchor r with
    | none =>
      rw [chain_cons_none hr] at h
      exact ih h
    | some b =>
      by_cases hab : Linked a b
      · rw [chain_cons_linked hr hab] at h
        rcases List.mem_cons.1 h with rfl | h
        · exact hab
        · exact htrans a b x hab (ih h)
      · rw [chain_cons_unlinked hr hab] at h
        exact ih h

/-- The anchors of a chain are of some of the rounds, in their order. -/
theorem map_chain_sublist (round : α → ℕ) (h : ∀ r b, anchor r = some b → round b = r) :
    ((chain anchor Linked rounds a).map round).Sublist rounds := by
  induction rounds generalizing a with
  | nil => exact .slnil
  | cons r rounds ih =>
    cases hr : anchor r with
    | none =>
      rw [chain_cons_none hr]
      exact ih.cons r
    | some b =>
      by_cases hab : Linked a b
      · rw [chain_cons_linked hr hab, List.map_cons, h r b hr]
        exact ih.cons_cons r
      · rw [chain_cons_unlinked hr hab]
        exact ih.cons r

end AnchorChain
