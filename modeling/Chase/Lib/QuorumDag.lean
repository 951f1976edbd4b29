import Mathlib.Algebra.GroupWithZero.Nat
import Mathlib.Algebra.BigOperators.Group.Finset.Basic
import Mathlib.Algebra.Order.BigOperators.Group.Finset
import Mathlib.Logic.Relation

/-!
# Layered DAGs with weighted authors

The nodes of a layered DAG have a round and an author, their parents are one round below, and an
author has at most one node in a round. When the authors carry weights and every node has parents of
a quorum, a node whose children are heavy enough to meet every quorum is reached from everywhere two
rounds above it (`Layered.reach_of_support`).
-/

namespace QuorumDag

open Relation

/-- A DAG in layers. -/
structure Layered (α ν : Type) where
  nodes : Set α
  round : α → ℕ
  author : α → ν
  Parent : α → α → Prop
  parent_mem : ∀ {c p}, Parent c p → c ∈ nodes ∧ p ∈ nodes
  parent_round : ∀ {c p}, Parent c p → round p + 1 = round c
  unique : ∀ {c d}, c ∈ nodes → d ∈ nodes → round c = round d → author c = author d → c = d

namespace Layered

variable {α ν : Type} (G : Layered α ν)

/-- There is a path from a node to another. -/
def Reach : α → α → Prop := ReflTransGen G.Parent

variable {G} {c d p x y : α}

theorem Reach.round_le (h : G.Reach c d) : G.round d ≤ G.round c := by
  induction h with
  | refl => exact le_rfl
  | tail _ hp ih =>
    have := G.parent_round hp
    omega

theorem Reach.tail (h : G.Reach c p) (hp : G.Parent p d) : G.Reach c d :=
  ReflTransGen.tail h hp

/-- A path to a round below ends with a parent. -/
theorem Reach.exists_parent (h : G.Reach c d) (hlt : G.round d < G.round c) :
    ∃ p, G.Reach c p ∧ G.Parent p d := by
  cases h with
  | refl => exact absurd hlt (lt_irrefl _)
  | tail hr hp => exact ⟨_, hr, hp⟩

/-- There are no paths inside a round. -/
theorem Reach.eq_of_round_le (h : G.Reach c d) (hle : G.round c ≤ G.round d) : d = c := by
  cases h with
  | refl => rfl
  | tail hr hp =>
    have := Reach.round_le hr
    have := G.parent_round hp
    omega

/-! ## Weights -/

variable (G) (weight : ν → ℕ)

/-- Nodes with the property, of distinct authors, weigh at least `w`. -/
def HasWeight (P : α → Prop) (w : ℕ) : Prop :=
  ∃ l : List α, (l.map G.author).Nodup ∧ (∀ c ∈ l, P c) ∧
    w ≤ (l.map fun c => weight (G.author c)).sum

variable {G weight}

/-- A weight has someone behind it. -/
theorem HasWeight.exists_of_pos {P : α → Prop} {w : ℕ} (h : G.HasWeight weight P w) (hw : 0 < w) :
    ∃ c, P c := by
  obtain ⟨l, -, hP, hsum⟩ := h
  cases l with
  | nil => exact absurd (hw.trans_le hsum) (lt_irrefl 0)
  | cons c l => exact ⟨c, hP c List.mem_cons_self⟩

variable [DecidableEq ν]

/-- The weight of nodes with distinct authors. -/
theorem sum_weight_eq {l : List α} (h : (l.map G.author).Nodup) :
    (l.map fun c => weight (G.author c)).sum = ∑ v ∈ (l.map G.author).toFinset, weight v := by
  rw [List.sum_toFinset weight h, List.map_map]
  rfl

/-- Two sets of nodes of one round that weigh more than all authors together have a common node. -/
theorem HasWeight.exists_common {P Q : α → Prop} {v w r : ℕ} {authors : Finset ν}
    (hP : G.HasWeight weight P v) (hQ : G.HasWeight weight Q w)
    (hPr : ∀ c, P c → c ∈ G.nodes ∧ G.round c = r) (hQr : ∀ c, Q c → c ∈ G.nodes ∧ G.round c = r)
    (hauthors : ∀ c ∈ G.nodes, G.author c ∈ authors) (h : ∑ a ∈ authors, weight a < v + w) :
    ∃ c, P c ∧ Q c := by
  obtain ⟨l, hl, hP, hv⟩ := hP
  obtain ⟨m, hm, hQ, hw⟩ := hQ
  rw [sum_weight_eq hl] at hv
  rw [sum_weight_eq hm] at hw
  by_contra hno
  have hdisjoint : Disjoint (l.map G.author).toFinset (m.map G.author).toFinset := by
    rw [Finset.disjoint_left]
    intro a ha hb
    obtain ⟨c, hc, rfl⟩ := List.mem_map.1 (List.mem_toFinset.1 ha)
    obtain ⟨d, hd, heq⟩ := List.mem_map.1 (List.mem_toFinset.1 hb)
    obtain ⟨hcmem, hcr⟩ := hPr c (hP c hc)
    obtain ⟨hdmem, hdr⟩ := hQr d (hQ d hd)
    obtain rfl := G.unique hdmem hcmem (hdr.trans hcr.symm) heq
    exact hno ⟨d, hP d hc, hQ d hd⟩
  have hsubset : (l.map G.author).toFinset ∪ (m.map G.author).toFinset ⊆ authors := by
    intro a ha
    rcases Finset.mem_union.1 ha with ha | ha
    · obtain ⟨c, hc, rfl⟩ := List.mem_map.1 (List.mem_toFinset.1 ha)
      exact hauthors c (hPr c (hP c hc)).1
    · obtain ⟨c, hc, rfl⟩ := List.mem_map.1 (List.mem_toFinset.1 ha)
      exact hauthors c (hQr c (hQ c hc)).1
  have hle := Finset.sum_le_sum_of_subset (f := weight) hsubset
  rw [Finset.sum_union hdisjoint] at hle
  omega

/-- **Supported nodes are reached**: when the children of a node and the parents of every node two
rounds above it or higher weigh more than all authors together, they all reach the node. -/
theorem reach_of_support {v q : ℕ} (authors : Finset ν)
    (hauthors : ∀ c ∈ G.nodes, G.author c ∈ authors) (h : ∑ a ∈ authors, weight a < v + q)
    (hsupport : G.HasWeight weight (fun c => G.Parent c x) v) (hq : 0 < q)
    (hquorum : ∀ c ∈ G.nodes, G.round x + 2 ≤ G.round c → G.HasWeight weight (G.Parent c) q)
    (hy : y ∈ G.nodes) (hround : G.round x + 2 ≤ G.round y) : G.Reach y x := by
  induction hn : G.round y - (G.round x + 2) generalizing y with
  | zero =>
    -- the quorum of parents meets the children of the node
    have hparents : ∀ p, G.Parent y p → p ∈ G.nodes ∧ G.round p = G.round x + 1 := fun p hp => by
      have := G.parent_round hp
      exact ⟨(G.parent_mem hp).2, by omega⟩
    have hchildren : ∀ c, G.Parent c x → c ∈ G.nodes ∧ G.round c = G.round x + 1 := fun c hc =>
      ⟨(G.parent_mem hc).1, (G.parent_round hc).symm⟩
    obtain ⟨c, hcx, hyc⟩ :=
      hsupport.exists_common (hquorum y hy hround) hchildren hparents hauthors h
    exact .head hyc (.single hcx)
  | succ n ih =>
    obtain ⟨p, hp⟩ := (hquorum y hy hround).exists_of_pos hq
    have := G.parent_round hp
    exact .head hp (ih (G.parent_mem hp).2 (by omega) (by omega))

end Layered

end QuorumDag
