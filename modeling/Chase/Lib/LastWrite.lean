import Mathlib.Data.List.Induction

/-!
# The last value written under a key

A list of writes, each a key with a value, in the order in which they are made. What a reader of a
key finds afterwards is the last value written under it (`lastWrite`), if there is one.
-/

namespace LastWrite

/-- A place in a list with one more element at its end is the end, or a place in the list. -/
theorem append_singleton_eq_iff {α : Type*} {xs pre post : List α} {x y : α} :
    xs ++ [y] = pre ++ x :: post ↔
      (xs = pre ∧ y = x ∧ post = []) ∨ ∃ post', post = post' ++ [y] ∧ xs = pre ++ x :: post' := by
  constructor
  · intro h
    rcases List.eq_nil_or_concat post with rfl | ⟨post', z, rfl⟩
    · obtain ⟨hpre, hlast⟩ := List.append_inj' h rfl
      exact .inl ⟨hpre, List.singleton_inj.1 hlast, rfl⟩
    · rw [List.concat_eq_append, ← List.cons_append, ← List.append_assoc] at h
      obtain ⟨hpre, hlast⟩ := List.append_inj' h rfl
      obtain rfl := List.singleton_inj.1 hlast
      exact .inr ⟨post', List.concat_eq_append, hpre⟩
  · rintro (⟨rfl, rfl, rfl⟩ | ⟨post', rfl, rfl⟩)
    · rfl
    · rw [List.append_assoc, List.cons_append]

variable {κ κ' υ : Type*} [DecidableEq κ] [DecidableEq κ']

/-- The value that a list of writes leaves under the key `k`, if it writes it. -/
def lastWrite (writes : List (κ × υ)) (k : κ) : Option υ :=
  (writes.reverse.find? fun e => e.1 = k).map (·.2)

@[simp] theorem lastWrite_nil (k : κ) : lastWrite ([] : List (κ × υ)) k = none := rfl

/-- The later of two lists of writes decides, when it writes the key. -/
theorem lastWrite_append (writes writes' : List (κ × υ)) (k : κ) :
    lastWrite (writes ++ writes') k = (lastWrite writes' k).or (lastWrite writes k) := by
  rw [lastWrite, List.reverse_append, List.find?_append, Option.map_or]
  rfl

/-- One more write decides for its key. -/
theorem lastWrite_append_single (writes : List (κ × υ)) (e : κ × υ) (k : κ) :
    lastWrite (writes ++ [e]) k = if e.1 = k then some e.2 else lastWrite writes k := by
  rw [lastWrite_append]
  by_cases h : e.1 = k <;> simp [lastWrite, h]

/-- The last of the values that are written under the key. -/
theorem lastWrite_eq_getLast? (writes : List (κ × υ)) (k : κ) :
    lastWrite writes k = ((writes.filter (·.1 = k)).map (·.2)).getLast? := by
  induction writes using List.reverseRecOn with
  | nil => rfl
  | append_singleton writes e ih =>
    rw [lastWrite_append_single, List.filter_append, List.map_append]
    by_cases h : e.1 = k
    · rw [if_pos h, List.filter_cons_of_pos (by simpa using h), List.getLast?_append]
      rfl
    · rw [if_neg h, List.filter_cons_of_neg (by simpa using h), ih]
      simp

/-- A key has no last write when it is not written. -/
theorem lastWrite_eq_none_iff {writes : List (κ × υ)} {k : κ} :
    lastWrite writes k = none ↔ k ∉ writes.map (·.1) := by
  rw [lastWrite, Option.map_eq_none_iff, List.find?_eq_none]
  constructor
  · intro h hk
    obtain ⟨e, he, rfl⟩ := List.mem_map.1 hk
    exact h e (List.mem_reverse.2 he) (decide_eq_true rfl)
  · intro h e he hek
    exact h (List.mem_map.2 ⟨e, List.mem_reverse.1 he, of_decide_eq_true hek⟩)

/-- The last write is one of the writes. -/
theorem mem_of_lastWrite {writes : List (κ × υ)} {k : κ} {v : υ}
    (h : lastWrite writes k = some v) : (k, v) ∈ writes := by
  obtain ⟨e, hfind, rfl⟩ := Option.map_eq_some_iff.1 h
  have hkey : e.1 = k := by simpa using List.find?_some hfind
  subst hkey
  exact List.mem_reverse.1 (List.mem_of_find?_eq_some hfind)

/-- A key under which only one value is written. -/
theorem lastWrite_of_unique {writes : List (κ × υ)} {k : κ} {v : υ}
    (hk : k ∈ writes.map (·.1)) (hv : ∀ e ∈ writes, e.1 = k → e.2 = v) :
    lastWrite writes k = some v := by
  cases hlast : lastWrite writes k with
  | none => exact absurd hk (lastWrite_eq_none_iff.1 hlast)
  | some w =>
    rw [← hv (k, w) (mem_of_lastWrite hlast) rfl]

/-- Writes under encoded keys are found by the encoding of the key, when no other key that is
written has the same encoding. -/
theorem lastWrite_map (f : κ → κ') (writes : List (κ × υ)) (k : κ)
    (h : ∀ j ∈ writes.map (·.1), f j = f k → j = k) :
    lastWrite (writes.map fun e => (f e.1, e.2)) (f k) = lastWrite writes k := by
  induction writes using List.reverseRecOn with
  | nil => rfl
  | append_singleton writes e ih =>
    rw [List.map_append, List.map_singleton, lastWrite_append_single, lastWrite_append_single,
      ih fun j hj => h j (by rw [List.map_append]; exact List.mem_append_left _ hj)]
    by_cases he : e.1 = k
    · rw [if_pos he, if_pos (congrArg f he)]
    · have hne : ¬f e.1 = f k := fun hf => he (h e.1 (by simp) hf)
      rw [if_neg he, if_neg hne]

end LastWrite
