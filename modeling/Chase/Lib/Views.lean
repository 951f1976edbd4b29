import Mathlib.Data.List.Nodup
import Mathlib.Data.List.Perm.Basic
import Mathlib.Data.List.Sort
import Mathlib.Data.List.SplitBy
import Mathlib.Logic.Function.Basic

/-!
# Lists up to a view of their elements

A program that collects what it finds in a hash map works on a list whose order, and whose elements
as far as they hold hash maps themselves, differ from run to run. A view `f` of the elements forgets
the difference. Two runs are compared by the views of their lists, which are equal, or permutations
of each other as long as the order is open: the operations on lists keep this when they look at the
elements through the view only, and a sort by a key that tells the views apart fixes the order
(`insertionSort_eq_of_perm`).
-/

namespace Views

variable {α β γ : Type}

/-- What is computed through the view is the same for lists of the same views. -/
theorem map_eq_of_map_eq {f : α → β} {g g' : α → γ} {l l' : List α} (h : l.map f = l'.map f)
    (hg : ∀ a ∈ l, ∀ a' ∈ l', f a = f a' → g a = g' a') : l.map g = l'.map g' := by
  induction l generalizing l' with
  | nil =>
    rw [List.map_eq_nil_iff.1 h.symm]
    rfl
  | cons a l ih =>
    cases l' with
    | nil => cases h
    | cons a' l' =>
      obtain ⟨hhead, htail⟩ := List.cons.inj h
      rw [List.map_cons, List.map_cons, hg a List.mem_cons_self a' List.mem_cons_self hhead,
        ih htail fun b hb b' hb' =>
          hg b (List.mem_cons_of_mem _ hb) b' (List.mem_cons_of_mem _ hb')]

/-- A filter that looks through the view is a filter of the views. -/
theorem exists_map_filter {f : α → β} {p : α → Bool} (hp : p.FactorsThrough f) :
    ∃ q : β → Bool, ∀ l : List α, (l.filter p).map f = (l.map f).filter q := by
  obtain ⟨q, rfl⟩ := (Function.factorsThrough_iff p).1 hp
  exact ⟨q, fun l => List.filter_map.symm⟩

/-- A test of the view can be negated. -/
theorem factorsThrough_not {f : α → β} {p : α → Bool} (hp : p.FactorsThrough f) :
    Function.FactorsThrough (fun a => !p a) f :=
  fun _ _ h => congrArg (!·) (hp h)

/-- A filter by the view keeps equal views equal. -/
theorem map_filter_eq {f : α → β} {p : α → Bool} (hp : p.FactorsThrough f) {l l' : List α}
    (h : l.map f = l'.map f) : (l.filter p).map f = (l'.filter p).map f := by
  obtain ⟨q, hq⟩ := exists_map_filter hp
  rw [hq, hq, h]

/-- A filter by the view keeps permuted views permuted. -/
theorem map_filter_perm {f : α → β} {p : α → Bool} (hp : p.FactorsThrough f) {l l' : List α}
    (h : (l.map f).Perm (l'.map f)) : ((l.filter p).map f).Perm ((l'.filter p).map f) := by
  obtain ⟨q, hq⟩ := exists_map_filter hp
  rw [hq, hq]
  exact h.filter q

/-- The first position with a property that is seen through the view. -/
theorem findIdx_eq {f : α → β} {p p' : α → Bool} (hp : ∀ a a', f a = f a' → p a = p' a')
    {l l' : List α} (h : l.map f = l'.map f) : l.findIdx p = l'.findIdx p' := by
  induction l generalizing l' with
  | nil =>
    rw [List.map_eq_nil_iff.1 h.symm]
    rfl
  | cons a l ih =>
    cases l' with
    | nil => cases h
    | cons a' l' =>
      obtain ⟨hhead, htail⟩ := List.cons.inj h
      rw [List.findIdx_cons, List.findIdx_cons, hp a a' hhead, ih htail]

/-- A change of one element is a change of its view. -/
theorem map_modify {f : α → β} {g : α → α} {g' : β → β} (hg : ∀ a, f (g a) = g' (f a)) (i : Nat)
    (l : List α) : (l.modify i g).map f = (l.map f).modify i g' := by
  induction l generalizing i with
  | nil => simp
  | cons a l ih =>
    cases i with
    | zero => simp [hg]
    | succ i => simp [ih]

/-- There is nothing to reorder among equal elements. -/
theorem eq_of_perm_of_forall_eq {l l' : List α} (h : l.Perm l') (hall : ∀ a ∈ l, ∀ b ∈ l, a = b) :
    l = l' := by
  have htrue : ∀ l : List α, l.Pairwise fun _ _ => True := fun l =>
    List.pairwise_of_forall fun _ _ => trivial
  exact h.eq_of_pairwise (fun a b ha hb _ _ => hall a ha b (h.mem_iff.2 hb)) (htrue l) (htrue l')

/-- A sort that looks through the view, and tells different views apart, fixes the order of the
views. -/
theorem map_insertionSort_eq {f : α → β} {r : α → α → Prop} [DecidableRel r] [Std.Total r]
    [IsTrans α r] (hr : ∀ a a' b b', f a = f a' → f b = f b' → r a b → r a' b') {l l' : List α}
    (hanti : ∀ a ∈ l, ∀ b ∈ l, r a b → r b a → f a = f b) (h : (l.map f).Perm (l'.map f)) :
    (l.insertionSort r).map f = (l'.insertionSort r).map f := by
  have hl := (List.perm_insertionSort r l).map f
  have hl' := ((List.perm_insertionSort r l').map f).trans h.symm
  have hsorted : ∀ l : List α, ((l.insertionSort r).map f).Pairwise fun v w =>
      ∃ a b, f a = v ∧ f b = w ∧ r a b := fun l =>
    List.pairwise_map.2 ((List.pairwise_insertionSort r l).imp fun {a b} hab =>
      ⟨a, b, rfl, rfl, hab⟩)
  refine (hl.trans hl'.symm).eq_of_pairwise ?_ (hsorted l) (hsorted l')
  rintro v w hv hw ⟨a, b, hav, hbw, hab⟩ ⟨b', a', hbw', hav', hba⟩
  obtain ⟨a₀, ha₀, rfl⟩ := List.mem_map.1 (hl.mem_iff.1 hv)
  obtain ⟨b₀, hb₀, rfl⟩ := List.mem_map.1 (hl'.mem_iff.1 hw)
  exact hanti a₀ ha₀ b₀ hb₀ (hr a a₀ b b₀ hav hbw hab) (hr b' b₀ a' a₀ hbw' hav' hba)

/-- A sort fixes the order of elements that it tells apart. -/
theorem insertionSort_eq_of_perm {r : α → α → Prop} [DecidableRel r] [Std.Total r] [IsTrans α r]
    {l l' : List α} (hanti : ∀ a ∈ l, ∀ b ∈ l, r a b → r b a → a = b) (h : l.Perm l') :
    l.insertionSort r = l'.insertionSort r := by
  have hid : ∀ a a' b b' : α, id a = id a' → id b = id b' → r a b → r a' b' := by
    rintro a _ b _ rfl rfl hab
    exact hab
  have heq := map_insertionSort_eq hid hanti (h.map id)
  rwa [List.map_id, List.map_id] at heq

/-- The loop of `List.splitBy` commutes with a map that keeps the test. -/
private theorem map_splitByLoop {f : α → β} {r : α → α → Bool} {s : β → β → Bool}
    (hr : ∀ a b, r a b = s (f a) (f b)) (l : List α) (a : α) (g : List α) (gs : List (List α)) :
    (List.splitBy.loop r l a g gs).map (List.map f) =
      List.splitBy.loop s (l.map f) (f a) (g.map f) (gs.map (List.map f)) := by
  induction l generalizing a g gs with
  | nil => simp [List.splitBy.loop]
  | cons b l ih =>
    rw [List.splitBy.loop, List.map_cons, List.splitBy.loop, ← hr]
    cases r a b with
    | true => exact ih b (a :: g) gs
    | false => simpa using ih b [] ((a :: g).reverse :: gs)

/-- The groups of a list are the groups of its views. -/
theorem map_splitBy {f : α → β} {r : α → α → Bool} {s : β → β → Bool}
    (hr : ∀ a b, r a b = s (f a) (f b)) (l : List α) :
    (l.splitBy r).map (List.map f) = (l.map f).splitBy s := by
  cases l with
  | nil => rfl
  | cons a l => exact map_splitByLoop hr l a [] []

end Views
