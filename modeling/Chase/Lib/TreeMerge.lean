import Mathlib.Data.List.Forall2

/-!
# Building in chunks and merging pairwise

A structure is built from a list, or from the chunks of the list in parallel; the parts are then
merged with their neighbours, round after round, until one is left. When merging the parts of two
lists gives what is built from their concatenation, under a condition `Apart` on the two lists, the
rounds give what is built from the whole list (`rounds_eq`). When merging only keeps a relation
between a list and its part, the relation holds for the whole list in the end (`rounds_of_merge`).
The merges that the rounds make are the nodes of a tree over the chunks (`rounds_map_merged`), and
what is said about each merge is a predicate of the tree (`MergeTree.Forall`).
-/

namespace TreeMerge

variable {α β : Type*}

/-- The chunks of length `n` of a list; `fuel` bounds their number. -/
def chunks (n : Nat) : Nat → List α → List (List α)
  | 0, _ => []
  | _ + 1, [] => []
  | fuel + 1, a :: l => (a :: l).take n :: chunks n fuel ((a :: l).drop n)

/-- Neighbours are merged pairwise. -/
def pairs (op : β → β → β) : List β → List β
  | b :: b' :: bs => op b b' :: pairs op bs
  | bs => bs

/-- Rounds of merging, as long as there is more than one part. -/
def rounds (op : β → β → β) : Nat → List β → List β
  | 0, bs => bs
  | fuel + 1, bs => if bs.length > 1 then rounds op fuel (pairs op bs) else bs

/-- The chunks are the list. -/
theorem flatten_chunks {n : Nat} (hn : 0 < n) (fuel : Nat) (l : List α) (h : l.length ≤ fuel) :
    (chunks n fuel l).flatten = l := by
  induction fuel generalizing l with
  | zero => simpa [chunks] using (List.eq_nil_of_length_eq_zero (Nat.le_zero.1 h)).symm
  | succ fuel ih =>
    cases l with
    | nil => rfl
    | cons a l =>
      have hlen : ((a :: l).drop n).length ≤ fuel := by
        rw [List.length_drop, List.length_cons] at *
        omega
      rw [chunks, List.flatten_cons, ih _ hlen, List.take_append_drop]

/-- A list that is not empty has a chunk. -/
theorem chunks_ne_nil {n fuel : Nat} {l : List α} (hl : l ≠ []) (h : l.length ≤ fuel) :
    chunks n fuel l ≠ [] := by
  cases fuel with
  | zero => exact absurd (List.eq_nil_of_length_eq_zero (Nat.le_zero.1 h)) hl
  | succ fuel =>
    cases l with
    | nil => exact absurd rfl hl
    | cons a l => simp [chunks]

/-- A round of concatenations keeps the elements, in their order. -/
theorem flatten_pairs : ∀ cs : List (List α), (pairs (· ++ ·) cs).flatten = cs.flatten
  | c :: c' :: cs => by
    rw [pairs, List.flatten_cons, flatten_pairs cs, List.flatten_cons, List.flatten_cons,
      List.append_assoc]
  | [_] => rfl
  | [] => rfl

/-- A round makes the list no longer. -/
theorem length_pairs (op : β → β → β) : ∀ bs : List β, (pairs op bs).length ≤ bs.length
  | _ :: _ :: bs => by
    have := length_pairs op bs
    simp only [pairs, List.length_cons]
    omega
  | [_] => Nat.le_refl _
  | [] => Nat.le_refl _

/-- A round shortens a list of two or more. -/
theorem length_pairs_lt (op : β → β → β) {bs : List β} (h : bs.length > 1) :
    (pairs op bs).length < bs.length := by
  match bs, h with
  | _ :: _ :: bs, _ =>
    have := length_pairs op bs
    simp only [pairs, List.length_cons]
    omega

theorem pairs_ne_nil (op : β → β → β) {bs : List β} (h : bs ≠ []) : pairs op bs ≠ [] := by
  match bs, h with
  | _ :: _ :: _, _ => simp [pairs]
  | [_], _ => simp [pairs]

/-- The condition under which neighbours can be merged, closed under concatenation. -/
structure Mergeable (build : List α → β) (op : β → β → β) (Apart : List α → List α → Prop) :
    Prop where
  merge : ∀ l l', Apart l l' → op (build l) (build l') = build (l ++ l')
  append_left : ∀ l l' m, Apart l l' → Apart l m → Apart l' m → Apart (l ++ l') m
  append_right : ∀ l m m', Apart m m' → Apart l m → Apart l m' → Apart l (m ++ m')

variable {build : List α → β} {op : β → β → β} {Apart : List α → List α → Prop}

/-- A round of merges is a round of concatenations, where the neighbours are apart. -/
theorem Mergeable.pairs_map (h : Mergeable build op Apart) :
    ∀ {cs : List (List α)}, cs.Pairwise Apart →
      pairs op (cs.map build) = (pairs (· ++ ·) cs).map build
  | c :: c' :: cs, hcs => by
    obtain ⟨hc, hcs⟩ := List.pairwise_cons.1 hcs
    obtain ⟨-, hcs⟩ := List.pairwise_cons.1 hcs
    rw [List.map_cons, List.map_cons, pairs, pairs, List.map_cons,
      h.merge c c' (hc c' List.mem_cons_self), h.pairs_map hcs]
  | [_], _ => rfl
  | [], _ => rfl

/-- A list that is apart from every part is apart from the merged parts. -/
theorem Mergeable.apart_pairs (h : Mergeable build op Apart) {l : List α} :
    ∀ {cs : List (List α)}, cs.Pairwise Apart → (∀ c ∈ cs, Apart l c) →
      ∀ c ∈ pairs (· ++ ·) cs, Apart l c
  | c :: c' :: cs, hcs, hl, d, hd => by
    obtain ⟨hc, hcs⟩ := List.pairwise_cons.1 hcs
    obtain ⟨-, hcs⟩ := List.pairwise_cons.1 hcs
    rcases List.mem_cons.1 hd with rfl | hd
    · exact h.append_right l c c' (hc c' List.mem_cons_self) (hl c (by simp)) (hl c' (by simp))
    · exact h.apart_pairs hcs (fun c hc => hl c (by simp [hc])) d hd
  | [_], _, hl, d, hd => hl d hd
  | [], _, _, _, hd => nomatch hd

/-- After a round of concatenations, the chunks are still apart. -/
theorem Mergeable.pairwise_pairs (h : Mergeable build op Apart) :
    ∀ {cs : List (List α)}, cs.Pairwise Apart → (pairs (· ++ ·) cs).Pairwise Apart
  | c :: c' :: cs, hcs => by
    obtain ⟨hc, hcs⟩ := List.pairwise_cons.1 hcs
    obtain ⟨hc', hcs⟩ := List.pairwise_cons.1 hcs
    refine List.pairwise_cons.2 ⟨?_, h.pairwise_pairs hcs⟩
    refine h.apart_pairs hcs fun d hd => ?_
    exact h.append_left c c' d (hc c' List.mem_cons_self) (hc d (by simp [hd])) (hc' d hd)
  | [_], hcs => hcs
  | [], hcs => hcs

/-- The rounds end with the part that is built from the whole list. -/
theorem Mergeable.rounds_eq (h : Mergeable build op Apart) (fuel : Nat) {cs : List (List α)}
    (hne : cs ≠ []) (hfuel : cs.length ≤ fuel + 1) (hcs : cs.Pairwise Apart) :
    rounds op fuel (cs.map build) = [build cs.flatten] := by
  have hsingle : ∀ {cs : List (List α)}, cs ≠ [] → ¬cs.length > 1 →
      cs.map build = [build cs.flatten] := by
    intro cs hne hlen
    match cs, hne, hlen with
    | [c], _, _ => simp
    | _ :: _ :: _, _, hlen => simp at hlen
  induction fuel generalizing cs with
  | zero => exact hsingle hne (by omega)
  | succ fuel ih =>
    rw [rounds]
    split
    · rename_i hlen
      rw [List.length_map] at hlen
      have hlt := length_pairs_lt (· ++ · : List α → List α → List α) hlen
      rw [h.pairs_map hcs, ih (pairs_ne_nil _ hne) (by omega) (h.pairwise_pairs hcs),
        flatten_pairs]
    · rename_i hlen
      rw [List.length_map] at hlen
      exact hsingle hne hlen

/-! ## A relation that merging keeps -/

section Relation

variable {R : List α → β → Prop} {P : List α → Prop}

/-- A relation that merging keeps is kept by a round. -/
theorem pairs_of_merge (hmerge : ∀ {l l' b b'}, P (l ++ l') → R l b → R l' b' →
      R (l ++ l') (op b b')) (hsub : ∀ {l l'}, List.Sublist l l' → P l' → P l) :
    ∀ {cs : List (List α)} {bs : List β}, P cs.flatten → List.Forall₂ R cs bs →
      List.Forall₂ R (pairs (· ++ ·) cs) (pairs op bs)
  | c :: c' :: cs, b :: b' :: bs, hP, .cons hb (.cons hb' hbs) => by
    rw [List.flatten_cons, List.flatten_cons, ← List.append_assoc] at hP
    exact .cons (hmerge (hsub (List.sublist_append_left _ _) hP) hb hb')
      (pairs_of_merge hmerge hsub (hsub (List.sublist_append_right _ _) hP) hbs)
  | [_], [_], _, h => h
  | [], [], _, h => h

/-- The rounds end with one part, which is in relation to the whole list. -/
theorem rounds_of_merge (hmerge : ∀ {l l' b b'}, P (l ++ l') → R l b → R l' b' →
      R (l ++ l') (op b b')) (hsub : ∀ {l l'}, List.Sublist l l' → P l' → P l) (fuel : Nat)
    {cs : List (List α)} {bs : List β} (hne : cs ≠ []) (hfuel : cs.length ≤ fuel + 1)
    (hP : P cs.flatten) (h : List.Forall₂ R cs bs) :
    ∃ b, rounds op fuel bs = [b] ∧ R cs.flatten b := by
  have hsingle : ∀ {cs : List (List α)} {bs : List β}, cs ≠ [] → ¬cs.length > 1 →
      List.Forall₂ R cs bs → ∃ b, bs = [b] ∧ R cs.flatten b := by
    intro cs bs hne hlen h
    match cs, bs, hne, hlen, h with
    | [c], [b], _, _, .cons hb .nil => exact ⟨b, rfl, by simpa using hb⟩
    | _ :: _ :: _, _, _, hlen, _ => simp at hlen
  induction fuel generalizing cs bs with
  | zero => exact hsingle hne (by omega) h
  | succ fuel ih =>
    rw [rounds, ← h.length_eq]
    split
    · rename_i hlen
      have hlt := length_pairs_lt (· ++ · : List α → List α → List α) hlen
      have hpairs := pairs_of_merge hmerge hsub hP h
      obtain ⟨b, hb, hR⟩ := ih (pairs_ne_nil _ hne) (by omega) (by rwa [flatten_pairs]) hpairs
      rw [flatten_pairs] at hR
      exact ⟨b, hb, hR⟩
    · rename_i hlen
      exact hsingle hne hlen h

end Relation

/-! ## The tree of the merges -/

/-- A round commutes with a map that keeps the merge. -/
theorem pairs_map {γ : Type*} {f : γ → β} {op' : γ → γ → γ}
    (hf : ∀ c c', f (op' c c') = op (f c) (f c')) :
    ∀ cs : List γ, pairs op (cs.map f) = (pairs op' cs).map f
  | c :: c' :: cs => by
    rw [List.map_cons, List.map_cons, pairs, pairs, List.map_cons, hf, pairs_map hf cs]
  | [_] => rfl
  | [] => rfl

/-- All rounds commute with a map that keeps the merge. -/
theorem rounds_map {γ : Type*} {f : γ → β} {op' : γ → γ → γ}
    (hf : ∀ c c', f (op' c c') = op (f c) (f c')) (fuel : Nat) (cs : List γ) :
    rounds op fuel (cs.map f) = (rounds op' fuel cs).map f := by
  induction fuel generalizing cs with
  | zero => rfl
  | succ fuel ih =>
    rw [rounds, rounds, List.length_map]
    split
    · rw [pairs_map hf, ih]
    · rfl

/-- A tree of merges over chunks. -/
inductive MergeTree (γ : Type*) where
  | leaf (c : γ)
  | node (l r : MergeTree γ)

namespace MergeTree

variable {γ : Type*}

/-- The part that the merges of the tree end with. -/
def merged (f : γ → β) (op : β → β → β) : MergeTree γ → β
  | leaf c => f c
  | node l r => op (l.merged f op) (r.merged f op)

/-- The two parts of every merge of the tree are in relation. -/
def Forall (f : γ → β) (op : β → β → β) (P : β → β → Prop) : MergeTree γ → Prop
  | leaf _ => True
  | node l r => l.Forall f op P ∧ r.Forall f op P ∧ P (l.merged f op) (r.merged f op)

/-- What the leaves have, and a merge keeps when its parts are in relation, the whole tree has. -/
theorem Forall.merged {f : γ → β} {P : β → β → Prop} {Q : β → Prop} (hleaf : ∀ c, Q (f c))
    (hnode : ∀ {b b'}, Q b → Q b' → P b b' → Q (op b b')) :
    ∀ {t : MergeTree γ}, t.Forall f op P → Q (t.merged f op)
  | .leaf c, _ => hleaf c
  | .node _ _, h => hnode (Forall.merged hleaf hnode h.1) (Forall.merged hleaf hnode h.2.1) h.2.2

/-- Two relations that agree on the parts with `Q` hold for the same trees. -/
theorem forall_congr {f : γ → β} {P P' : β → β → Prop} {Q : β → Prop} (hleaf : ∀ c, Q (f c))
    (hnode : ∀ {b b'}, Q b → Q b' → P' b b' → Q (op b b'))
    (hiff : ∀ {b b'}, Q b → Q b' → (P b b' ↔ P' b b')) :
    ∀ t : MergeTree γ, t.Forall f op P ↔ t.Forall f op P'
  | .leaf _ => Iff.rfl
  | .node l r => by
    have hl := forall_congr hleaf hnode hiff l
    have hr := forall_congr hleaf hnode hiff r
    rw [MergeTree.Forall, MergeTree.Forall, hl, hr]
    refine and_congr_right fun h => and_congr_right fun h' => ?_
    exact hiff (Forall.merged hleaf hnode h) (Forall.merged hleaf hnode h')

end MergeTree

/-- The rounds over chunks make the merges of the tree that the rounds over the leaves give. -/
theorem rounds_map_merged {γ : Type*} (f : γ → β) (op : β → β → β) (fuel : Nat) (cs : List γ) :
    rounds op fuel (cs.map f) =
      (rounds MergeTree.node fuel (cs.map MergeTree.leaf)).map (MergeTree.merged f op) := by
  rw [← rounds_map (fun _ _ => rfl), List.map_map]
  rfl

end TreeMerge
