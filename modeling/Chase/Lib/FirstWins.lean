import Mathlib.Data.List.Induction
import Mathlib.Data.List.Nodup
import Mathlib.Data.Set.Basic

/-!
# The first one wins

Elements arrive one after the other, and an element is rejected when it clashes with one that was
kept before it. Whether an element is kept depends on which of the earlier ones were, so the rule is
recursive; over a list without repetition it is also a fixed point (`mem_rejected_iff`): an element
is rejected exactly when an earlier one that is kept in the end clashes with it. So the elements
that are kept are the only choice without a clash in which every other element clashes with a chosen
one before it (`Choice`), and they are the greatest set that defends itself (`Defended`): what comes
before an element of the set and clashes with it clashes with one of the set before that.
-/

namespace FirstWins

variable {α : Type*} (clash : α → α → Prop) [DecidableRel clash]

/-- The elements that are kept, and those that are rejected. -/
structure Split (α : Type*) where
  kept : List α := []
  rejected : List α := []

/-- An element arrives. -/
def step (s : Split α) (x : α) : Split α :=
  if ∃ y ∈ s.kept, clash y x then { s with rejected := s.rejected ++ [x] }
  else { s with kept := s.kept ++ [x] }

/-- The elements of a list arrive in order. -/
def split (xs : List α) : Split α := xs.foldl (step clash) {}

theorem split_append_singleton (xs : List α) (x : α) :
    split clash (xs ++ [x]) = step clash (split clash xs) x := by
  rw [split, List.foldl_append, List.foldl_cons, List.foldl_nil, split]

variable {clash}

theorem step_of_clash {s : Split α} {x : α} (h : ∃ y ∈ s.kept, clash y x) :
    step clash s x = { s with rejected := s.rejected ++ [x] } := if_pos h

theorem step_of_not_clash {s : Split α} {x : α} (h : ¬∃ y ∈ s.kept, clash y x) :
    step clash s x = { s with kept := s.kept ++ [x] } := if_neg h

variable (clash) in
/-- Later elements change nothing about the earlier ones. -/
theorem split_append (xs ys : List α) : ∃ kept rejected,
    (split clash (xs ++ ys)).kept = (split clash xs).kept ++ kept ∧
      (split clash (xs ++ ys)).rejected = (split clash xs).rejected ++ rejected ∧
      (kept ++ rejected).Perm ys := by
  induction ys using List.reverseRecOn with
  | nil => exact ⟨[], [], by simp⟩
  | append_singleton ys y ih =>
    obtain ⟨kept, rejected, hkept, hrejected, hperm⟩ := ih
    rw [← List.append_assoc, split_append_singleton]
    by_cases h : ∃ z ∈ (split clash (xs ++ ys)).kept, clash z y
    · refine ⟨kept, rejected ++ [y], ?_, ?_, ?_⟩
      · rw [step_of_clash h, hkept]
      · rw [step_of_clash h, hrejected, List.append_assoc]
      · rw [← List.append_assoc]
        exact hperm.append_right [y]
    · refine ⟨kept ++ [y], rejected, ?_, ?_, ?_⟩
      · rw [step_of_not_clash h, hkept, List.append_assoc]
      · rw [step_of_not_clash h, hrejected]
      · rw [List.append_assoc]
        refine (List.perm_append_comm.append_left _).trans ?_
        rw [← List.append_assoc]
        exact hperm.append_right [y]

variable (clash) in
/-- No element is lost. -/
theorem split_perm (xs : List α) :
    ((split clash xs).kept ++ (split clash xs).rejected).Perm xs := by
  obtain ⟨kept, rejected, hkept, hrejected, hperm⟩ := split_append clash [] xs
  rw [List.nil_append] at hkept hrejected
  rw [hkept, hrejected]
  exact hperm

variable (clash) in
/-- No two of the elements that are kept clash. -/
theorem pairwise_kept (xs : List α) :
    (split clash xs).kept.Pairwise fun y x => ¬clash y x := by
  induction xs using List.reverseRecOn with
  | nil => exact List.Pairwise.nil
  | append_singleton xs x ih =>
    rw [split_append_singleton]
    by_cases h : ∃ y ∈ (split clash xs).kept, clash y x
    · rwa [step_of_clash h]
    · rw [step_of_not_clash h]
      refine List.pairwise_append.2 ⟨ih, List.pairwise_singleton _ _, fun y hy x' hx' hclash => ?_⟩
      rw [List.mem_singleton.1 hx'] at hclash
      exact h ⟨y, hy, hclash⟩

/-- In a list without repetition, an element is rejected exactly when it clashes with an earlier one
that is kept. -/
theorem mem_rejected_iff {xs ys : List α} {x : α} (hnodup : (xs ++ x :: ys).Nodup) :
    x ∈ (split clash (xs ++ x :: ys)).rejected ↔
      ∃ y ∈ xs, y ∈ (split clash (xs ++ x :: ys)).kept ∧ clash y x := by
  have hx : x ∉ xs ∧ x ∉ ys := by
    have := List.nodup_middle.1 hnodup
    rw [List.nodup_cons, List.mem_append, not_or] at this
    exact this.1
  -- what the elements from `x` on add
  obtain ⟨kept, rejected, hkept, -, hperm⟩ := split_append clash xs (x :: ys)
  have hmem : ∀ y ∈ xs, (y ∈ (split clash (xs ++ x :: ys)).kept ↔ y ∈ (split clash xs).kept) := by
    intro y hy
    rw [hkept, List.mem_append]
    refine ⟨fun h => h.resolve_right fun hlater => ?_, .inl⟩
    have hy' : y ∈ x :: ys := hperm.mem_iff.1 (List.mem_append_left _ hlater)
    exact (List.nodup_append.1 hnodup).2.2 y hy y hy' rfl
  have hsub : ∀ y ∈ (split clash xs).kept, y ∈ xs := fun y hy =>
    (split_perm clash xs).mem_iff.1 (List.mem_append_left _ hy)
  -- the elements after `x` do not move it
  have hplace : x ∈ (split clash (xs ++ x :: ys)).rejected ↔
      x ∈ (step clash (split clash xs) x).rejected := by
    obtain ⟨kept', rejected', -, hrejected, hperm'⟩ :=
      split_append clash (xs ++ [x]) ys
    rw [List.append_assoc, List.singleton_append] at hrejected
    rw [hrejected, List.mem_append, split_append_singleton]
    refine ⟨fun h => h.resolve_right fun hlater => hx.2 ?_, .inl⟩
    exact hperm'.mem_iff.1 (List.mem_append_right _ hlater)
  have hfresh : x ∉ (split clash xs).rejected := fun h =>
    hx.1 ((split_perm clash xs).mem_iff.1 (List.mem_append_right _ h))
  rw [hplace]
  constructor
  · intro hrejected
    by_cases h : ∃ y ∈ (split clash xs).kept, clash y x
    · obtain ⟨y, hy, hclash⟩ := h
      exact ⟨y, hsub y hy, (hmem y (hsub y hy)).2 hy, hclash⟩
    · rw [step_of_not_clash h] at hrejected
      exact absurd hrejected hfresh
  · rintro ⟨y, hy, hykept, hclash⟩
    rw [step_of_clash ⟨y, (hmem y hy).1 hykept, hclash⟩]
    exact List.mem_append_right _ (List.mem_singleton_self x)

/-- Elements of which no two clash are all kept. -/
theorem kept_eq_self {xs : List α} (h : xs.Pairwise fun y x => ¬clash y x) :
    (split clash xs).kept = xs := by
  induction xs using List.reverseRecOn with
  | nil => rfl
  | append_singleton xs x ih =>
    obtain ⟨hxs, -, hx⟩ := List.pairwise_append.1 h
    have hnot : ¬∃ y ∈ (split clash xs).kept, clash y x := by
      rw [ih hxs]
      rintro ⟨y, hy, hclash⟩
      exact hx y hy x (List.mem_singleton.2 rfl) hclash
    rw [split_append_singleton, step_of_not_clash hnot, ih hxs]

variable (clash) in
/-- What is kept of the images of a list. -/
theorem kept_map {β : Type*} (f : β → α) (xs : List β) :
    (split clash (xs.map f)).kept = ((split (fun x y => clash (f x) (f y)) xs).kept).map f := by
  induction xs using List.reverseRecOn with
  | nil => rfl
  | append_singleton xs x ih =>
    rw [List.map_append, List.map_singleton, split_append_singleton, split_append_singleton, step,
      step, ih]
    simp only [List.mem_map, exists_exists_and_eq_and]
    split
    · rfl
    · simp

/-! ## Another order -/

variable (clash) in
/-- The elements that are kept stay in their order. -/
theorem kept_sublist (xs : List α) : (split clash xs).kept.Sublist xs := by
  induction xs using List.reverseRecOn with
  | nil => exact .slnil
  | append_singleton xs x ih =>
    rw [split_append_singleton]
    by_cases h : ∃ y ∈ (split clash xs).kept, clash y x
    · rw [step_of_clash h]
      exact ih.trans (List.sublist_append_left _ _)
    · rw [step_of_not_clash h]
      exact ih.append (.refl _)

/-- In a list without repetition, what is not rejected is kept. -/
theorem mem_kept_iff_not_rejected {xs : List α} (hnodup : xs.Nodup) {x : α} (hx : x ∈ xs) :
    x ∈ (split clash xs).kept ↔ x ∉ (split clash xs).rejected := by
  have hperm := split_perm clash xs
  have hdisjoint := (List.nodup_append.1 (hperm.nodup_iff.2 hnodup)).2.2
  constructor
  · intro hkept hrejected
    exact hdisjoint x hkept x hrejected rfl
  · intro hrejected
    exact (List.mem_append.1 (hperm.mem_iff.2 hx)).resolve_right hrejected

section Order

variable {before : α → α → Prop} {xs : List α} (hxs : xs.Pairwise before)
  (hasymm : ∀ {x y}, before x y → ¬before y x)

include hxs hasymm

omit [DecidableRel clash] in

theorem nodup_of_pairwise : xs.Nodup := by
  refine hxs.imp fun {x y} hbefore heq => ?_
  subst heq
  exact hasymm hbefore hbefore

/-- An element is rejected exactly when it clashes with a kept one that comes before it. -/
theorem mem_rejected_iff_of_pairwise {x : α} (hx : x ∈ xs) :
    x ∈ (split clash xs).rejected ↔ ∃ y ∈ (split clash xs).kept, before y x ∧ clash y x := by
  have hnodup := nodup_of_pairwise hxs hasymm
  obtain ⟨earlier, later, rfl⟩ := List.append_of_mem hx
  obtain ⟨-, hlater, hbetween⟩ := List.pairwise_append.1 hxs
  rw [mem_rejected_iff hnodup]
  constructor
  · rintro ⟨y, hy, hkept, hclash⟩
    exact ⟨y, hkept, hbetween y hy x List.mem_cons_self, hclash⟩
  · rintro ⟨y, hkept, hbefore, hclash⟩
    rcases List.mem_append.1 ((kept_sublist clash _).subset hkept) with hy | hy
    · exact ⟨y, hy, hkept, hclash⟩
    · rcases List.mem_cons.1 hy with rfl | hy
      · exact absurd hbefore (hasymm hbefore)
      · exact absurd hbefore (hasymm ((List.pairwise_cons.1 hlater).1 y hy))

end Order

/-! ## Choices -/

variable (clash) in
/-- A choice among elements that come in an order: no two chosen ones clash, and every other one
clashes with a chosen one before it. -/
structure Choice (before : α → α → Prop) (xs : List α) (s : Set α) : Prop where
  apart : ∀ x ∈ xs, x ∈ s → ∀ y ∈ xs, y ∈ s → before x y → ¬clash x y
  beaten : ∀ y ∈ xs, y ∉ s → ∃ x ∈ xs, x ∈ s ∧ before x y ∧ clash x y

section Choice

variable {before : α → α → Prop} {xs : List α} {s : Set α}

omit [DecidableRel clash] in
/-- A choice does not depend on how its elements are listed. -/
theorem Choice.of_perm {ys : List α} (h : Choice clash before xs s) (hperm : xs.Perm ys) :
    Choice clash before ys s where
  apart x hx hxs y hy := h.apart x (hperm.mem_iff.2 hx) hxs y (hperm.mem_iff.2 hy)
  beaten y hy hys := by
    obtain ⟨x, hx, hrest⟩ := h.beaten y (hperm.mem_iff.2 hy) hys
    exact ⟨x, hperm.mem_iff.1 hx, hrest⟩

variable (hxs : xs.Pairwise before) (hasymm : ∀ {x y}, before x y → ¬before y x)

include hxs hasymm

/-- The elements that are kept are a choice. -/
theorem choice_kept : Choice clash before xs { x | x ∈ (split clash xs).kept } := by
  have hnodup := nodup_of_pairwise hxs hasymm
  refine ⟨fun x hx hkept y hy hkept' hbefore hclash => ?_, fun y hy hnot => ?_⟩
  · refine (mem_kept_iff_not_rejected hnodup hy).1 hkept' ?_
    exact (mem_rejected_iff_of_pairwise hxs hasymm hy).2 ⟨x, hkept, hbefore, hclash⟩
  · have hrejected : y ∈ (split clash xs).rejected := by
      by_contra h
      exact hnot ((mem_kept_iff_not_rejected hnodup hy).2 h)
    obtain ⟨x, hkept, hrest⟩ := (mem_rejected_iff_of_pairwise hxs hasymm hy).1 hrejected
    exact ⟨x, (kept_sublist clash xs).subset hkept, hkept, hrest⟩

/-- There is one choice only: the elements that are kept. -/
theorem Choice.mem_kept_iff (h : Choice clash before xs s) {x : α} (hx : x ∈ xs) :
    x ∈ (split clash xs).kept ↔ x ∈ s := by
  have hnodup := nodup_of_pairwise hxs hasymm
  -- the induction is on the elements that have arrived
  have harrived : ∀ arrived rest, xs = arrived ++ rest →
      ∀ x ∈ arrived, x ∈ (split clash arrived).kept ↔ x ∈ s := by
    intro arrived
    induction arrived using List.reverseRecOn with
    | nil => exact fun _ _ _ hx => (by cases hx)
    | append_singleton arrived y ih =>
      intro rest heq x hx
      rw [List.append_assoc, List.singleton_append] at heq
      have ih := ih (y :: rest) heq
      rw [heq] at hxs hnodup
      obtain ⟨-, hrest, hbefore⟩ := List.pairwise_append.1 hxs
      have hfresh : y ∉ arrived := fun hy =>
        (List.nodup_append.1 hnodup).2.2 y hy y List.mem_cons_self rfl
      have hmem : ∀ z ∈ arrived, z ∈ xs := fun z hz => heq ▸ List.mem_append_left _ hz
      have hy : y ∈ xs := heq ▸ List.mem_append_right _ List.mem_cons_self
      have hsub := (kept_sublist clash arrived).subset
      have hys : y ∈ s ↔ ¬∃ z ∈ (split clash arrived).kept, clash z y := by
        constructor
        · rintro hys ⟨z, hz, hclash⟩
          exact h.apart z (hmem z (hsub hz)) ((ih z (hsub hz)).1 hz) y hy hys
            (hbefore z (hsub hz) y List.mem_cons_self) hclash
        · intro hnone
          by_contra hys
          obtain ⟨z, hz, hzs, hzy, hclash⟩ := h.beaten y hy hys
          rw [heq, List.mem_append, List.mem_cons] at hz
          rcases hz with hz | rfl | hz
          · exact hnone ⟨z, (ih z hz).2 hzs, hclash⟩
          · exact hasymm hzy hzy
          · exact hasymm hzy ((List.pairwise_cons.1 hrest).1 z hz)
      rw [split_append_singleton]
      by_cases hclash : ∃ z ∈ (split clash arrived).kept, clash z y
      · rw [step_of_clash hclash]
        rcases List.mem_append.1 hx with hx | hx
        · exact ih x hx
        · rw [List.mem_singleton.1 hx]
          exact iff_of_false (fun hkept => hfresh (hsub hkept)) fun h => hys.1 h hclash
      · rw [step_of_not_clash hclash, List.mem_append, List.mem_singleton]
        rcases List.mem_append.1 hx with hx | hx
        · have hne : x ≠ y := fun hxy => hfresh (hxy ▸ hx)
          rw [or_iff_left hne]
          exact ih x hx
        · rw [List.mem_singleton.1 hx]
          exact iff_of_true (.inr rfl) (hys.2 hclash)
  exact harrived xs [] (List.append_nil _).symm x hx

end Choice

/-! ## Sets that defend themselves -/

variable (clash) in
/-- Every element before one of the set that clashes with it clashes with one of the set that is
before that. -/
def Defended (before : α → α → Prop) (xs : List α) (s : Set α) : Prop :=
  ∀ x ∈ s, ∀ y ∈ xs, before y x → clash y x → ∃ z ∈ s, before z y ∧ clash z y

section Defended

variable {before : α → α → Prop} {xs : List α} (hxs : xs.Pairwise before)
  (hasymm : ∀ {x y}, before x y → ¬before y x)

include hxs hasymm

/-- The elements that are kept defend themselves. -/
theorem defended_kept : Defended clash before xs { x | x ∈ (split clash xs).kept } := by
  have hchoice : Choice clash before xs { x | x ∈ (split clash xs).kept } :=
    choice_kept hxs hasymm
  intro x hx y hy hbefore hclash
  have hx' := (kept_sublist clash xs).subset hx
  obtain ⟨z, -, hz⟩ := hchoice.beaten y hy fun hkept =>
    hchoice.apart y hy hkept x hx' hx hbefore hclash
  exact ⟨z, hz⟩

/-- A set that defends itself is kept. -/
theorem Defended.mem_kept (hwf : WellFounded before)
    (htrans : ∀ {x y z}, before x y → before y z → before x z) {s : Set α}
    (h : Defended clash before xs s) (hsub : ∀ x ∈ s, x ∈ xs) {x : α} (hx : x ∈ s) :
    x ∈ (split clash xs).kept := by
  have hchoice : Choice clash before xs { x | x ∈ (split clash xs).kept } :=
    choice_kept hxs hasymm
  induction x using hwf.induction with
  | h x ih =>
    by_contra hnot
    obtain ⟨y, hy, hkept, hyx, hclash⟩ := hchoice.beaten x (hsub x hx) hnot
    -- what keeps `y` out is kept, and `y` is kept too
    obtain ⟨z, hz, hzy, hclash'⟩ := h x hx y hy hyx hclash
    exact hchoice.apart z (hsub z hz) (ih z (htrans hzy hyx) hz) y hy hkept hzy hclash'

end Defended

end FirstWins
