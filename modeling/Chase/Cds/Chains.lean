import Chase.Cds.Scheduler
import Mathlib.Data.Fintype.Card
import Mathlib.Data.Finite.Prod
import Mathlib.Data.List.SplitBy
import Mathlib.Logic.Relation
import Mathlib.Order.WellFounded

/-!
# Waves and chains

The first commit wave holds the transactions of the lowest sequence number
(`firstEpochTxs_sequence`), and its transactions are distributed over the dependency chains
(`buildConflictFreeChainIndices_perm`). The chain builder panics exactly when the dependencies have
a cycle (`buildConflictFreeChainIndices_ok`, `buildConflictFreeChainIndices_acyclic`).
-/

namespace Chase

open Chase.Graph

namespace Cds

/-! ## The chain builder -/

/-- The assigned transactions, the last one first: each one depends on those assigned before it. -/
def Assigned (deps : Nat → List Nat) : List Nat → Prop
  | [] => True
  | i :: rest => (∀ j ∈ deps i, j ∈ rest) ∧ Assigned deps rest

/-- The state of the outer loop: the assigned transactions are those of the chains. -/
structure ChainInv (n : Nat) (assigned : List Nat) (chains : List (List Nat)) : Prop where
  nodup : assigned.Nodup
  lt : ∀ i ∈ assigned, i < n
  perm : chains.flatten.Perm assigned

/-- At the start nothing is assigned. -/
theorem chainInv_nil (n : Nat) : ChainInv n [] [] :=
  ⟨List.nodup_nil, fun _ h => (nomatch h), .refl _⟩

section

variable {n : Nat} {deps : Nat → List Nat} {assigned : List Nat} {chains : List (List Nat)}

theorem ready_iff {i : Nat} :
    ready deps assigned i = true ↔ i ∉ assigned ∧ ∀ j ∈ deps i, j ∈ assigned := by
  simp only [ready, Bool.and_eq_true, decide_eq_true_eq, List.all_eq_true]

/-- The inner loop assigns further transactions, each for the first time. -/
theorem extendChain_spec (deps : Nat → List Nat) (fuel : Nat) (chain : List Nat) (last : Nat)
    (hnodup : assigned.Nodup) (hlt : ∀ i ∈ assigned, i < n) :
    ∃ new, extendChain n deps fuel assigned chain last = (new.reverse ++ assigned, chain ++ new) ∧
      (new.reverse ++ assigned).Nodup ∧ ∀ i ∈ new.reverse ++ assigned, i < n := by
  induction fuel generalizing assigned chain last with
  | zero => exact ⟨[], by simp [extendChain], by simpa using hnodup, by simpa using hlt⟩
  | succ fuel ih =>
    rw [extendChain]
    split
    · rename_i i hfind
      have hi := List.mem_of_find?_eq_some hfind
      have hready := List.find?_some hfind
      rw [Bool.and_eq_true, ready_iff] at hready
      obtain ⟨new, heq, hnd, hb⟩ := ih (chain ++ [i]) i
        (List.nodup_cons.2 ⟨hready.1.1, hnodup⟩)
        (fun j hj => by
          rcases List.mem_cons.1 hj with rfl | hj
          · exact List.mem_range.1 hi
          · exact hlt j hj)
      refine ⟨i :: new, ?_, ?_, ?_⟩
      · rw [heq]
        simp
      · simpa using hnd
      · simpa using hb
    · exact ⟨[], by simp, by simpa using hnodup, by simpa using hlt⟩

theorem Assigned.cons (h : Assigned deps assigned) {i : Nat} (hi : ready deps assigned i = true) :
    Assigned deps (i :: assigned) :=
  ⟨(ready_iff.1 hi).2, h⟩

/-- A chain is extended by ready transactions. -/
theorem Assigned.extendChain (fuel : Nat) {chain : List Nat} {last : Nat}
    (h : Assigned deps assigned) :
    Assigned deps (extendChain n deps fuel assigned chain last).1 := by
  induction fuel generalizing assigned chain last with
  | zero => exact h
  | succ fuel ih =>
    rw [Cds.extendChain]
    split
    · rename_i i hfind
      have hready := List.find?_some hfind
      rw [Bool.and_eq_true] at hready
      exact ih (h.cons hready.1)
    · exact h

/-- When as many transactions are assigned as there are, all of them are. -/
theorem ChainInv.mem_of_length (h : ChainInv n assigned chains) (hlength : n ≤ assigned.length) :
    ∀ i < n, i ∈ assigned := by
  have hsub : assigned ⊆ List.range n := fun i hi => List.mem_range.2 (h.lt i hi)
  have hperm := (h.nodup.subperm hsub).perm_of_length_le (by simpa using hlength)
  exact fun i hi => hperm.mem_iff.2 (List.mem_range.2 hi)

/-- When all transactions are assigned, the chains have each of them once. -/
theorem ChainInv.perm_range (h : ChainInv n assigned chains) (hall : ∀ i < n, i ∈ assigned) :
    chains.flatten.Perm (List.range n) := by
  refine h.perm.trans ((List.perm_ext_iff_of_nodup h.nodup List.nodup_range).2 fun i => ?_)
  rw [List.mem_range]
  exact ⟨h.lt i, hall i⟩

/-- One chain of the outer loop. -/
theorem ChainInv.extend (h : ChainInv n assigned chains) (ha : Assigned deps assigned) {start : Nat}
    (hfind : (List.range n).find? (ready deps assigned) = some start) :
    ∃ assigned' chain, extendChain n deps n (start :: assigned) [start] start =
        (assigned', chain) ∧ ChainInv n assigned' (chains ++ [chain]) ∧ Assigned deps assigned' ∧
      assigned.length < assigned'.length := by
  have hready := List.find?_some hfind
  have hassigned : Assigned deps (extendChain n deps n (start :: assigned) [start] start).1 :=
    (ha.cons hready).extendChain n
  obtain ⟨new, heq, hnd, hb⟩ := extendChain_spec (n := n) deps n [start] start
    (List.nodup_cons.2 ⟨(ready_iff.1 hready).1, h.nodup⟩) (fun i hi => by
      rcases List.mem_cons.1 hi with rfl | hi
      · exact List.mem_range.1 (List.mem_of_find?_eq_some hfind)
      · exact h.lt i hi)
  rw [heq] at hassigned
  refine ⟨_, _, heq, ⟨hnd, hb, ?_⟩, hassigned, by simp; omega⟩
  rw [List.flatten_append, List.flatten_singleton]
  have h1 : (new.reverse ++ start :: assigned).Perm (start :: new ++ assigned) :=
    ((List.reverse_perm new).append_right _).trans List.perm_middle
  have h2 : (chains.flatten ++ (start :: new)).Perm (assigned ++ (start :: new)) :=
    h.perm.append_right _
  exact (h2.trans List.perm_append_comm).trans h1.symm

/-- A result of the outer loop has assigned all transactions to its chains, each after those it
depends on. -/
theorem chainLoop_spec (fuel : Nat) {result : List (List Nat)} (h : ChainInv n assigned chains)
    (ha : Assigned deps assigned) (hfuel : n ≤ fuel + assigned.length)
    (hok : chainLoop n deps fuel assigned chains = .ok result) :
    ∃ order, ChainInv n order result ∧ Assigned deps order ∧ ∀ i < n, i ∈ order := by
  induction fuel generalizing assigned chains with
  | zero =>
    cases hok
    exact ⟨assigned, h, ha, h.mem_of_length (by omega)⟩
  | succ fuel ih =>
    rw [chainLoop] at hok
    split at hok
    · rename_i hall
      cases hok
      exact ⟨assigned, h, ha, by simpa using hall⟩
    · split at hok
      · cases hok
      · rename_i start hfind
        obtain ⟨assigned', chain, heq, hinv, ha', hlen⟩ := h.extend ha hfind
        rw [heq] at hok
        exact ih hinv ha' (by omega) hok

/-- Without a cycle, an unassigned transaction exists only beside a ready one. -/
theorem exists_ready (hdeps : ∀ i, ∀ j ∈ deps i, j < n)
    (hacyclic : ∀ i, ¬Relation.TransGen (fun a b => b ∈ deps a) i i) {i : Nat} (hi : i < n)
    (hnot : i ∉ assigned) : ∃ start < n, ready deps assigned start = true := by
  -- the dependency order on the finitely many transactions is well-founded
  let r : Fin n → Fin n → Prop := fun a b => Relation.TransGen (fun a b => b ∈ deps a) b.1 a.1
  have : IsTrans (Fin n) r := ⟨fun _ _ _ hab hbc => hbc.trans hab⟩
  have : Std.Irrefl r := ⟨fun a => hacyclic a.1⟩
  have hwf : WellFounded r := Finite.wellFounded_of_trans_of_irrefl r
  obtain ⟨m, hm, hmin⟩ := hwf.has_min {a : Fin n | a.1 ∉ assigned} ⟨⟨i, hi⟩, hnot⟩
  refine ⟨m.1, m.2, ready_iff.2 ⟨hm, fun j hj => ?_⟩⟩
  by_contra hja
  exact hmin ⟨j, hdeps _ j hj⟩ hja (.single hj)

/-- Without a cycle the outer loop does not panic. -/
theorem chainLoop_ok (hdeps : ∀ i, ∀ j ∈ deps i, j < n)
    (hacyclic : ∀ i, ¬Relation.TransGen (fun a b => b ∈ deps a) i i) (fuel : Nat)
    (h : ChainInv n assigned chains) (ha : Assigned deps assigned) :
    ∃ result, chainLoop n deps fuel assigned chains = .ok result := by
  induction fuel generalizing assigned chains with
  | zero => exact ⟨chains, rfl⟩
  | succ fuel ih =>
    rw [chainLoop]
    split
    · exact ⟨chains, rfl⟩
    · rename_i hall
      obtain ⟨i, hi, hnot⟩ : ∃ i < n, i ∉ assigned := by
        simpa using hall
      obtain ⟨s, hs, hready⟩ := exists_ready hdeps hacyclic hi hnot
      split
      · rename_i hfind
        exact absurd hready (List.find?_eq_none.1 hfind s (List.mem_range.2 hs))
      · rename_i start hfind
        obtain ⟨assigned', chain, heq, hinv, ha', -⟩ := h.extend ha hfind
        rw [heq]
        exact ih hinv ha'

/-- What an assigned transaction depends on is assigned. -/
theorem Assigned.closed {order : List Nat} (h : Assigned deps order) {i j : Nat}
    (hi : i ∈ order) (hj : j ∈ deps i) : j ∈ order := by
  induction order with
  | nil => cases hi
  | cons c order ih =>
    rcases List.mem_cons.1 hi with rfl | hi
    · exact List.mem_cons_of_mem _ (h.1 j hj)
    · exact List.mem_cons_of_mem _ (ih h.2 hi)

/-- What an assigned transaction depends on through others is assigned. -/
theorem Assigned.mem_of_reflTransGen {order : List Nat} (h : Assigned deps order) {i j : Nat}
    (hi : i ∈ order) (hij : Relation.ReflTransGen (fun a b => b ∈ deps a) i j) : j ∈ order := by
  induction hij with
  | refl => exact hi
  | tail _ hb ih => exact h.closed ih hb

/-- Transactions that can be assigned one after the other have no cycle. -/
theorem Assigned.acyclic {order : List Nat} (h : Assigned deps order) (hnodup : order.Nodup)
    {i : Nat} (hi : i ∈ order) : ¬Relation.TransGen (fun a b => b ∈ deps a) i i := by
  induction order with
  | nil => cases hi
  | cons c order ih =>
    rw [List.nodup_cons] at hnodup
    rcases List.mem_cons.1 hi with rfl | hi
    · intro hcycle
      obtain ⟨j, hj, hpath⟩ := Relation.TransGen.head'_iff.1 hcycle
      exact hnodup.1 (h.2.mem_of_reflTransGen (h.1 j hj) hpath)
    · exact ih h.2 hnodup.2 hi

end

variable {α : Type}

/-- A transaction depends on the other ones that write what it reads. -/
theorem mem_dependsOn {txs : List (TxWithKeys α)} {i j : Nat} : j ∈ dependsOn txs i ↔
    i ≠ j ∧ ∃ t u, txs[i]? = some t ∧ txs[j]? = some u ∧ ∃ k ∈ t.readKeys, k ∈ u.writeKeys := by
  simp only [dependsOn, List.mem_filter, List.mem_range, Bool.and_eq_true, bne_iff_ne,
    Bool.not_eq_true', disjointKeys, List.all_eq_false, decide_eq_true_eq, not_not]
  constructor
  · rintro ⟨hj, hne, k, hk, hk'⟩
    cases hi : txs[i]? with
    | none => simp [hi] at hk
    | some t =>
      have hj' := List.getElem?_eq_getElem hj
      exact ⟨hne, t, _, rfl, hj', k, by simpa [hi] using hk, by simpa [hj'] using hk'⟩
  · rintro ⟨hne, t, u, hi, hj, k, hk, hk'⟩
    exact ⟨(List.getElem?_eq_some_iff.1 hj).1, hne, k, by simpa [hi] using hk,
      by simpa [hj] using hk'⟩

/-- The chains hold every transaction once. -/
theorem buildConflictFreeChainIndices_perm {txs : List (TxWithKeys α)} {chains : List (List Nat)}
    (h : buildConflictFreeChainIndices txs = .ok chains) :
    chains.flatten.Perm (List.range txs.length) := by
  obtain ⟨order, hinv, -, hall⟩ := chainLoop_spec _ (chainInv_nil _) trivial (by simp) h
  exact hinv.perm_range hall

/-- The chain builder does not panic on dependencies without a cycle. -/
theorem buildConflictFreeChainIndices_ok (txs : List (TxWithKeys α))
    (hacyclic : ∀ i, ¬Relation.TransGen (fun a b => b ∈ dependsOn txs a) i i) :
    ∃ chains, buildConflictFreeChainIndices txs = .ok chains := by
  refine chainLoop_ok (fun i j hj => ?_) hacyclic _ (chainInv_nil _) trivial
  obtain ⟨-, _, _, -, hj, -⟩ := mem_dependsOn.1 hj
  exact (List.getElem?_eq_some_iff.1 hj).1

/-- Dependencies with a cycle make the chain builder panic. -/
theorem buildConflictFreeChainIndices_acyclic {txs : List (TxWithKeys α)} {chains : List (List Nat)}
    (h : buildConflictFreeChainIndices txs = .ok chains) (i : Nat) :
    ¬Relation.TransGen (fun a b => b ∈ dependsOn txs a) i i := by
  obtain ⟨order, hinv, hassigned, hall⟩ := chainLoop_spec _ (chainInv_nil _) trivial (by simp) h
  intro hcycle
  obtain ⟨j, hj, -⟩ := Relation.TransGen.head'_iff.1 hcycle
  obtain ⟨-, _, _, hi, -⟩ := mem_dependsOn.1 hj
  exact hassigned.acyclic hinv.nodup (hall i (List.getElem?_eq_some_iff.1 hi).1) hcycle

/-- The order by ids is a permutation. -/
theorem sortById_perm (txs : List (TxWithKeys α)) : (sortById txs).Perm txs :=
  List.perm_insertionSort _ _

/-- A list by its positions. -/
theorem filterMap_range_getElem? {β γ : Type} (l : List β) (f : β → γ) :
    (List.range l.length).filterMap (fun i => l[i]?.map f) = l.map f := by
  induction l with
  | nil => rfl
  | cons b l ih =>
    rw [List.length_cons, List.range_succ_eq_map, List.filterMap_cons, List.filterMap_map]
    simp only [List.getElem?_cons_zero, Option.map_some, List.map_cons]
    congr 1

/-- The conflict-free zone holds the transactions of the first wave. -/
theorem extractConflictFreeChains_perm {txs : List Transaction}
    {zone : List (List FinalizedTransaction)} (h : extractConflictFreeChains txs = .ok zone) :
    zone.flatten.Perm (txs.map (·.toFinalized)) := by
  simp only [extractConflictFreeChains] at h
  cases hchains : buildConflictFreeChainIndices (sortById (txs.map TxWithKeys.fromTransaction)) with
  | error e =>
    rw [hchains] at h
    cases h
  | ok chains =>
    rw [hchains] at h
    cases h
    rw [← List.filterMap_flatten]
    refine ((buildConflictFreeChainIndices_perm hchains).filterMap _).trans ?_
    rw [filterMap_range_getElem?]
    refine ((sortById_perm _).map _).trans ?_
    rw [List.map_map]
    rfl

/-! ## Cycles among the transactions of a wave -/

/-- `t` and `u` are different transactions of the wave and `t` reads a key that `u` writes. -/
def ReadsFrom (txs : List Transaction) (t u : Transaction) : Prop :=
  t ∈ txs ∧ u ∈ txs ∧ t ≠ u ∧ ∃ k ∈ t.readKeys, k ∈ u.writeKeys

/-- The scheduler orders transactions by their ids. -/
theorem sortById_map (txs : List Transaction) :
    sortById (txs.map TxWithKeys.fromTransaction) =
      (txs.insertionSort fun a b => a.txId ≤ b.txId).map TxWithKeys.fromTransaction :=
  (List.map_insertionSort _ _ TxWithKeys.fromTransaction txs fun _ _ _ _ => Iff.rfl).symm

/-- A path of dependencies is a path among the transactions. -/
theorem transGen_readsFrom {txs order : List Transaction} (hperm : order.Perm txs)
    (hnodup : txs.Nodup) {i j : Nat}
    (h : Relation.TransGen
      (fun a b => b ∈ dependsOn (order.map TxWithKeys.fromTransaction) a) i j) :
    ∃ t u, order[i]? = some t ∧ order[j]? = some u ∧
      Relation.TransGen (ReadsFrom txs) t u := by
  have hedge : ∀ {a b}, b ∈ dependsOn (order.map TxWithKeys.fromTransaction) a →
      ∃ t u, order[a]? = some t ∧ order[b]? = some u ∧ ReadsFrom txs t u := by
    intro a b hab
    obtain ⟨hne, t, u, ht, hu, k, hk, hk'⟩ := mem_dependsOn.1 hab
    rw [List.getElem?_map, Option.map_eq_some_iff] at ht hu
    obtain ⟨t, ht, rfl⟩ := ht
    obtain ⟨u, hu, rfl⟩ := hu
    have hmem : ∀ {i t}, order[i]? = some t → t ∈ txs := fun h =>
      hperm.mem_iff.1 (List.mem_of_getElem? h)
    refine ⟨t, u, ht, hu, hmem ht, hmem hu, ?_, k, hk, hk'⟩
    rintro rfl
    obtain ⟨hla, hta⟩ := List.getElem?_eq_some_iff.1 ht
    obtain ⟨hlb, htb⟩ := List.getElem?_eq_some_iff.1 hu
    exact hne ((hperm.nodup_iff.2 hnodup).getElem_inj_iff.1 (hta.trans htb.symm))
  induction h with
  | single h =>
    obtain ⟨t, u, ht, hu, hr⟩ := hedge h
    exact ⟨t, u, ht, hu, .single hr⟩
  | tail _ h ih =>
    obtain ⟨t, u, ht, hu, hr⟩ := ih
    obtain ⟨u', v, hu', hv, hr'⟩ := hedge h
    obtain rfl := Option.some.inj (hu.symm.trans hu')
    exact ⟨t, v, ht, hv, hr.tail hr'⟩

/-- Without a cycle among its transactions, the chains of a wave are built. -/
theorem extractConflictFreeChains_ok {txs : List Transaction} (hnodup : txs.Nodup)
    (hacyclic : ∀ t, ¬Relation.TransGen (ReadsFrom txs) t t) :
    ∃ zone, extractConflictFreeChains txs = .ok zone := by
  obtain ⟨chains, hchains⟩ := buildConflictFreeChainIndices_ok
    (sortById (txs.map TxWithKeys.fromTransaction)) fun i hcycle => by
      rw [sortById_map] at hcycle
      obtain ⟨t, u, ht, hu, hpath⟩ :=
        transGen_readsFrom (List.perm_insertionSort _ txs) hnodup hcycle
      obtain rfl := Option.some.inj (ht.symm.trans hu)
      exact hacyclic t hpath
  rw [extractConflictFreeChains, hchains]
  exact ⟨_, rfl⟩

end Cds

/-! ## Commit waves -/

variable {c : Cells} {txList : List Transaction}

/-- The first wave and the others are the transactions in the order of their sequence numbers. -/
theorem firstEpochTxs_append (c : Cells) (txList : List Transaction) :
    firstEpochTxs c txList ++ seq2plusTxs c txList =
      txList.insertionSort (Cds.waveLe c) := by
  have hflat : (Cds.groupBySequence c txList).flatten = txList.insertionSort (Cds.waveLe c) :=
    List.flatten_splitBy ..
  rw [← hflat, firstEpochTxs, seq2plusTxs]
  cases Cds.groupBySequence c txList <;> rfl

/-- The waves hold the transactions of the list. -/
theorem firstEpochTxs_append_perm (c : Cells) (txList : List Transaction) :
    (firstEpochTxs c txList ++ seq2plusTxs c txList).Perm txList := by
  rw [firstEpochTxs_append]
  exact List.perm_insertionSort _ _

instance : Std.Total (Cds.waveLe c) where
  total a b := by
    rcases lt_trichotomy (c a.txId).sequence (c b.txId).sequence with h | h | h
    · exact .inl (.inl h)
    · exact (le_total a.txId b.txId).imp (fun h' => .inr ⟨h, h'⟩) fun h' => .inr ⟨h.symm, h'⟩
    · exact .inr (.inl h)

instance : IsTrans Transaction (Cds.waveLe c) where
  trans a b d := by
    rintro (h | ⟨h, h'⟩) (k | ⟨k, k'⟩)
    · exact .inl (h.trans k)
    · exact .inl (k ▸ h)
    · exact .inl (h ▸ k)
    · exact .inr ⟨h.trans k, h'.trans k'⟩

/-- The waves are in the order of the sequence numbers. -/
theorem pairwise_sequence_le (c : Cells) (txList : List Transaction) :
    (firstEpochTxs c txList ++ seq2plusTxs c txList).Pairwise fun a b =>
      (c a.txId).sequence ≤ (c b.txId).sequence := by
  rw [firstEpochTxs_append]
  exact (List.pairwise_insertionSort (Cds.waveLe c) txList).imp fun h => h.elim le_of_lt (·.1.le)

/-- The transactions of the first wave have one sequence number. -/
theorem firstEpochTxs_sequence {t u : Transaction} (ht : t ∈ firstEpochTxs c txList)
    (hu : u ∈ firstEpochTxs c txList) : (c t.txId).sequence = (c u.txId).sequence := by
  cases hg : Cds.groupBySequence c txList with
  | nil => simp [firstEpochTxs, hg] at ht
  | cons g gs =>
    rw [firstEpochTxs, hg] at ht hu
    have hchain := List.isChain_of_mem_splitBy
      (show g ∈ Cds.groupBySequence c txList from hg ▸ List.mem_cons_self)
    have hpair : g.Pairwise fun a b => (c a.txId).sequence = (c b.txId).sequence := by
      have : IsTrans Transaction fun a b => (c a.txId).sequence = (c b.txId).sequence :=
        ⟨fun _ _ _ => Eq.trans⟩
      exact (hchain.imp fun _ _ h => by simpa using h).pairwise
    have : Std.Symm fun a b : Transaction => (c a.txId).sequence = (c b.txId).sequence :=
      ⟨fun _ _ => Eq.symm⟩
    rcases eq_or_ne t u with rfl | hne
    · rfl
    · exact hpair.forall ht hu hne

/-- The first wave has the lowest sequence number. -/
theorem sequence_le_of_mem_seq2plusTxs {t u : Transaction} (ht : t ∈ firstEpochTxs c txList)
    (hu : u ∈ seq2plusTxs c txList) : (c t.txId).sequence ≤ (c u.txId).sequence :=
  (List.pairwise_append.1 (pairwise_sequence_le c txList)).2.2 t ht u hu

/-- The waves after the first one hold the transactions whose sequence number is not the lowest. -/
theorem mem_seq2plusTxs_iff {t : Transaction} : t ∈ seq2plusTxs c txList ↔
    t ∈ txList ∧ ∃ w ∈ txList, (c w.txId).sequence < (c t.txId).sequence := by
  have hperm := firstEpochTxs_append_perm c txList
  constructor
  · intro ht
    refine ⟨hperm.mem_iff.1 (List.mem_append_right _ ht), ?_⟩
    cases hg : Cds.groupBySequence c txList with
    | nil => simp [seq2plusTxs, hg] at ht
    | cons g gs =>
      cases gs with
      | nil => simp [seq2plusTxs, hg] at ht
      | cons g' gs =>
        have hchain := List.isChain_getLast_head_splitBy
          (fun a b => (c a.txId).sequence == (c b.txId).sequence)
          (txList.insertionSort (Cds.waveLe c))
        rw [← Cds.groupBySequence, hg, List.isChain_cons_cons] at hchain
        obtain ⟨⟨hne, hne', hdiff⟩, -⟩ := hchain
        have hfirst : firstEpochTxs c txList = g := by simp [firstEpochTxs, hg]
        have hlater : seq2plusTxs c txList = g' ++ gs.flatten := by simp [seq2plusTxs, hg]
        have hlast : g.getLast hne ∈ firstEpochTxs c txList := hfirst ▸ List.getLast_mem hne
        have hhead : g'.head hne' ∈ seq2plusTxs c txList :=
          hlater ▸ List.mem_append_left _ (List.head_mem hne')
        refine ⟨_, hperm.mem_iff.1 (List.mem_append_left _ hlast), ?_⟩
        have hlt : (c (g.getLast hne).txId).sequence < (c (g'.head hne').txId).sequence :=
          lt_of_le_of_ne (sequence_le_of_mem_seq2plusTxs hlast hhead) (by simpa using hdiff)
        -- the head of the second wave has the lowest number of the later ones
        have hpair := (List.pairwise_append.1 (pairwise_sequence_le c txList)).2.1
        rw [hlater, ← List.cons_head_tail hne', List.cons_append, List.pairwise_cons] at hpair
        rw [hlater, ← List.cons_head_tail hne', List.cons_append, List.mem_cons] at ht
        rcases ht with rfl | ht
        · exact hlt
        · exact hlt.trans_le (hpair.1 t ht)
  · rintro ⟨ht, w, hw, hlt⟩
    refine (List.mem_append.1 (hperm.mem_iff.2 ht)).resolve_left fun hfirst => ?_
    rcases List.mem_append.1 (hperm.mem_iff.2 hw) with hw | hw
    · exact absurd (firstEpochTxs_sequence hw hfirst) hlt.ne
    · exact absurd (sequence_le_of_mem_seq2plusTxs hfirst hw) (by omega)

end Chase
