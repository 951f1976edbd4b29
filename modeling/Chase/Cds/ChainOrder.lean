import Chase.Cds.Chains
import Chase.Lib.LastWrite

/-!
# Chains as a topological order

The loops of `build_conflict_free_chain_indices` have no bound on their iterations. They are stated
here as the source has them (`ExtendsTo`, `BuildsChains`), and the bounded loops of the model end as
these do (`chainLoop_buildsChains`). The chains that are built, one after the other, are an order of
all transactions in which each one comes after those it depends on, and inside a chain each one
depends on the one before it (`ChainOrder`).
-/

namespace Chase.Cds

section

variable (n : Nat) (deps : Nat → List Nat)

/-- The inner loop, which ends when no ready transaction depends on the last one. -/
inductive ExtendsTo : List Nat → List Nat → Nat → List Nat × List Nat → Prop
  | stop {assigned chain : List Nat} {last : Nat} :
    (List.range n).find? (fun i => ready deps assigned i && decide (last ∈ deps i)) = none →
    ExtendsTo assigned chain last (assigned, chain)
  | next {assigned chain : List Nat} {last i : Nat} {result : List Nat × List Nat} :
    (List.range n).find? (fun i => ready deps assigned i && decide (last ∈ deps i)) = some i →
    ExtendsTo (i :: assigned) (chain ++ [i]) i result → ExtendsTo assigned chain last result

/-- The outer loop, which ends when all transactions are assigned, or panics when none is ready. -/
inductive BuildsChains : List Nat → List (List Nat) → Except String (List (List Nat)) → Prop
  | done {assigned : List Nat} {chains : List (List Nat)} :
    (∀ i < n, i ∈ assigned) → BuildsChains assigned chains (.ok chains)
  | cycle {assigned : List Nat} {chains : List (List Nat)} :
    (∃ i < n, i ∉ assigned) → (List.range n).find? (ready deps assigned) = none →
    BuildsChains assigned chains (.error cycleMessage)
  | chain {assigned assigned' chain : List Nat} {chains : List (List Nat)} {start : Nat}
    {result : Except String (List (List Nat))} :
    (∃ i < n, i ∉ assigned) → (List.range n).find? (ready deps assigned) = some start →
    ExtendsTo n deps (start :: assigned) [start] start (assigned', chain) →
    BuildsChains assigned' (chains ++ [chain]) result → BuildsChains assigned chains result

end

variable {n : Nat} {deps : Nat → List Nat} {assigned : List Nat} {chains : List (List Nat)}

/-! ## The bounded loops end as the unbounded ones -/

/-- As many iterations as there are unassigned transactions are enough for the inner loop. -/
theorem extendChain_extendsTo (fuel : Nat) (chain : List Nat) (last : Nat) (hnodup : assigned.Nodup)
    (hlt : ∀ i ∈ assigned, i < n) (hfuel : n ≤ fuel + assigned.length) :
    ExtendsTo n deps assigned chain last (extendChain n deps fuel assigned chain last) := by
  induction fuel generalizing assigned chain last with
  | zero =>
    -- all transactions are assigned
    have hall : ∀ i < n, i ∈ assigned := by
      have hinv : ChainInv n assigned [assigned] := ⟨hnodup, hlt, by simp⟩
      exact hinv.mem_of_length (by omega)
    refine .stop (List.find?_eq_none.2 fun i hi hready => ?_)
    rw [Bool.and_eq_true, ready_iff] at hready
    exact hready.1.1 (hall i (List.mem_range.1 hi))
  | succ fuel ih =>
    rw [extendChain]
    split
    · rename_i i hfind
      have hready := List.find?_some hfind
      rw [Bool.and_eq_true, ready_iff] at hready
      refine .next hfind (ih _ _ (List.nodup_cons.2 ⟨hready.1.1, hnodup⟩) (fun j hj => ?_) ?_)
      · rcases List.mem_cons.1 hj with rfl | hj
        · exact List.mem_range.1 (List.mem_of_find?_eq_some hfind)
        · exact hlt j hj
      · rw [List.length_cons]
        omega
    · rename_i hfind
      exact .stop hfind

/-- As many chains as there are unassigned transactions are enough for the outer loop. -/
theorem chainLoop_buildsChains (fuel : Nat) (h : ChainInv n assigned chains)
    (ha : Assigned deps assigned) (hfuel : n ≤ fuel + assigned.length) :
    BuildsChains n deps assigned chains (chainLoop n deps fuel assigned chains) := by
  induction fuel generalizing assigned chains with
  | zero => exact .done (h.mem_of_length (by omega))
  | succ fuel ih =>
    rw [chainLoop]
    split
    · rename_i hall
      exact .done (by simpa using hall)
    · rename_i hnot
      have hnot : ∃ i < n, i ∉ assigned := by simpa using hnot
      split
      · rename_i hfind
        exact .cycle hnot hfind
      · rename_i start hfind
        obtain ⟨assigned', chain, heq, hinv, ha', hlen⟩ := h.extend ha hfind
        have hready := ready_iff.1 (List.find?_some hfind)
        have hextends : ExtendsTo n deps (start :: assigned) [start] start
            (extendChain n deps n (start :: assigned) [start] start) := extendChain_extendsTo n _ _
          (List.nodup_cons.2 ⟨hready.1, h.nodup⟩) (fun i hi => by
            rcases List.mem_cons.1 hi with rfl | hi
            · exact List.mem_range.1 (List.mem_of_find?_eq_some hfind)
            · exact h.lt i hi) (Nat.le_add_right _ _)
        rw [heq] at hextends ⊢
        exact .chain hnot hfind hextends (ih hinv ha' (by omega))

/-! ## The order of the chains -/

/-- The chains hold the assigned transactions in the order of their assignment, and inside a chain
each transaction depends on the one before it. -/
structure ChainOrder (deps : Nat → List Nat) (assigned : List Nat) (chains : List (List Nat)) :
    Prop where
  order : chains.flatten = assigned.reverse
  nonempty : ∀ chain ∈ chains, chain ≠ []
  linked : ∀ chain ∈ chains, chain.IsChain fun last i => last ∈ deps i

theorem chainOrder_nil (deps : Nat → List Nat) : ChainOrder deps [] [] :=
  ⟨rfl, fun _ h => (nomatch h), fun _ h => (nomatch h)⟩

/-- The inner loop appends a path of dependencies. -/
theorem ExtendsTo.linked {chain : List Nat} {last : Nat} {result : List Nat × List Nat}
    (h : ExtendsTo n deps assigned chain last result) :
    ∃ new, result = (new.reverse ++ assigned, chain ++ new) ∧
      (last :: new).IsChain fun last i => last ∈ deps i := by
  induction h with
  | stop _ => exact ⟨[], by simp, .singleton _⟩
  | next hfind _ ih =>
    obtain ⟨new, rfl, hchain⟩ := ih
    have hready := List.find?_some hfind
    rw [Bool.and_eq_true, decide_eq_true_eq] at hready
    exact ⟨_ :: new, by simp, .cons_cons hready.2 hchain⟩

/-- An extended chain keeps what is assigned in the order of the dependencies. -/
theorem ExtendsTo.keeps_assigned {chain : List Nat} {last : Nat} {result : List Nat × List Nat}
    (h : ExtendsTo n deps assigned chain last result) (ha : Assigned deps assigned) :
    Assigned deps result.1 := by
  induction h with
  | stop _ => exact ha
  | next hfind _ ih =>
    have hready := List.find?_some hfind
    rw [Bool.and_eq_true] at hready
    exact ih (ha.cons hready.1)

/-- One chain of the outer loop. -/
theorem ChainOrder.extend (h : ChainOrder deps assigned chains) {start : Nat}
    {assigned' chain : List Nat}
    (hextends : ExtendsTo n deps (start :: assigned) [start] start (assigned', chain)) :
    ChainOrder deps assigned' (chains ++ [chain]) := by
  obtain ⟨new, heq, hchain⟩ := hextends.linked
  cases heq
  refine ⟨?_, fun chain hmem => ?_, fun chain hmem => ?_⟩
  · simp [h.order]
  · rcases List.mem_append.1 hmem with hmem | hmem
    · exact h.nonempty chain hmem
    · rw [List.mem_singleton.1 hmem]
      exact List.cons_ne_nil _ _
  · rcases List.mem_append.1 hmem with hmem | hmem
    · exact h.linked chain hmem
    · rw [List.mem_singleton.1 hmem]
      exact hchain

/-- The chains that the outer loop returns. -/
theorem BuildsChains.chainOrder {result : Except String (List (List Nat))}
    (h : BuildsChains n deps assigned chains result) (ha : Assigned deps assigned)
    (hchains : ChainOrder deps assigned chains) :
    ∀ chains', result = .ok chains' →
      ∃ order, Assigned deps order ∧ ChainOrder deps order chains' := by
  induction h with
  | done _ =>
    rintro _ ⟨⟩
    exact ⟨_, ha, hchains⟩
  | cycle _ _ =>
    intro _ hresult
    cases hresult
  | chain _ hfind hextends _ ih =>
    have hready := List.find?_some hfind
    exact ih (hextends.keeps_assigned (ha.cons hready)) (hchains.extend hextends)

/-- The only error of the outer loop is the panic on a cycle. -/
theorem BuildsChains.error_eq {result : Except String (List (List Nat))}
    (h : BuildsChains n deps assigned chains result) :
    ∀ e, result = .error e → e = cycleMessage := by
  induction h with
  | done _ =>
    intro e hresult
    cases hresult
  | cycle _ _ =>
    rintro _ ⟨⟩
    rfl
  | chain _ _ _ _ ih => exact ih

/-- In the order of their assignment, the transactions come after those they depend on. -/
theorem Assigned.mem_of_reverse {order : List Nat} (h : Assigned deps order) {pre post : List Nat}
    {i : Nat} (horder : order.reverse = pre ++ i :: post) : ∀ j ∈ deps i, j ∈ pre := by
  induction order generalizing post with
  | nil => simp at horder
  | cons c order ih =>
    rw [List.reverse_cons] at horder
    rcases LastWrite.append_singleton_eq_iff.1 horder with ⟨rfl, rfl, -⟩ | ⟨post', -, hpre⟩
    · exact fun j hj => List.mem_reverse.2 (h.1 j hj)
    · exact ih h.2 hpre

/-! ## The chains of a list of transactions -/

variable {α : Type}

/-- Transaction `i` reads a key that another transaction `j` writes. -/
def DependsOn (txs : List (TxWithKeys α)) (i j : Nat) : Prop :=
  i ≠ j ∧ ∃ t u, txs[i]? = some t ∧ txs[j]? = some u ∧ ∃ k ∈ t.readKeys, k ∈ u.writeKeys

/-- The chains are an order of the transactions by their dependencies. -/
structure TopologicalChains (txs : List (TxWithKeys α)) (chains : List (List Nat)) : Prop where
  nonempty : ∀ chain ∈ chains, chain ≠ []
  perm : chains.flatten.Perm (List.range txs.length)
  after : ∀ pre i post, chains.flatten = pre ++ i :: post → ∀ j, DependsOn txs i j → j ∈ pre
  linked : ∀ chain ∈ chains, chain.IsChain fun last i => DependsOn txs i last

/-- `build_conflict_free_chain_indices` builds chains from nothing. -/
theorem buildConflictFreeChainIndices_buildsChains (txs : List (TxWithKeys α)) :
    BuildsChains txs.length (dependsOn txs) [] [] (buildConflictFreeChainIndices txs) :=
  chainLoop_buildsChains _ (chainInv_nil _) trivial (by simp)

/-- Chains that are returned are in the order of the dependencies. -/
theorem topologicalChains_of_ok {txs : List (TxWithKeys α)} {chains : List (List Nat)}
    (h : buildConflictFreeChainIndices txs = .ok chains) : TopologicalChains txs chains := by
  obtain ⟨order, hassigned, horder⟩ :=
    (buildConflictFreeChainIndices_buildsChains txs).chainOrder trivial (chainOrder_nil _) chains h
  refine ⟨horder.nonempty, buildConflictFreeChainIndices_perm h, fun pre i post heq j hj => ?_,
    fun chain hchain => ?_⟩
  · rw [horder.order] at heq
    exact hassigned.mem_of_reverse heq j (mem_dependsOn.2 hj)
  · exact (horder.linked chain hchain).imp fun _ _ hdep => mem_dependsOn.1 hdep

/-- The chain builder ends. It panics exactly when the dependencies have a cycle, and otherwise
returns chains that are an order of the transactions by their dependencies. -/
theorem chains_topological (txs : List (TxWithKeys α)) :
    BuildsChains txs.length (dependsOn txs) [] [] (buildConflictFreeChainIndices txs) ∧
      (buildConflictFreeChainIndices txs = .error cycleMessage ↔
        ∃ i, Relation.TransGen (DependsOn txs) i i) ∧
      ((¬∃ i, Relation.TransGen (DependsOn txs) i i) →
        ∃ chains, buildConflictFreeChainIndices txs = .ok chains ∧
          TopologicalChains txs chains) := by
  have hdeps : (fun a b => b ∈ dependsOn txs a) = DependsOn txs :=
    funext₂ fun _ _ => propext mem_dependsOn
  have hok : (¬∃ i, Relation.TransGen (DependsOn txs) i i) →
      ∃ chains, buildConflictFreeChainIndices txs = .ok chains := by
    intro hacyclic
    exact buildConflictFreeChainIndices_ok txs fun i hcycle => hacyclic ⟨i, hdeps ▸ hcycle⟩
  refine ⟨buildConflictFreeChainIndices_buildsChains txs, ⟨fun herror => ?_, ?_⟩,
    fun hacyclic => ?_⟩
  · by_contra hacyclic
    obtain ⟨chains, hchains⟩ := hok hacyclic
    rw [hchains] at herror
    cases herror
  · rintro ⟨i, hcycle⟩
    cases hresult : buildConflictFreeChainIndices txs with
    | error e => rw [(buildConflictFreeChainIndices_buildsChains txs).error_eq e hresult]
    | ok chains =>
      rw [← hdeps] at hcycle
      exact absurd hcycle (buildConflictFreeChainIndices_acyclic hresult i)
  · obtain ⟨chains, hchains⟩ := hok hacyclic
    exact ⟨chains, hchains, topologicalChains_of_ok hchains⟩

end Chase.Cds
