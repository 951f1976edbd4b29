import Mathlib.Data.List.Basic

/-!
# Finite maps as lists of entries

A finite map is the list of its entries. The operations keep the keys distinct, and every fact about
a map is a fact about its lookups.
-/

/-- A finite map: its entries, with distinct keys. -/
abbrev AssocMap (κ υ : Type) := List (κ × υ)

namespace AssocMap

variable {κ υ : Type} [DecidableEq κ]

/-- The value of a key. -/
def get (m : AssocMap κ υ) (k : κ) : Option υ := (m.find? (·.1 = k)).map (·.2)

/-- The map without a key. -/
def remove (m : AssocMap κ υ) (k : κ) : AssocMap κ υ := m.filter (·.1 ≠ k)

/-- The map with a value for a key. -/
def insert (m : AssocMap κ υ) (k : κ) (v : υ) : AssocMap κ υ := (k, v) :: m.remove k

/-- The entries of the second map, and those of the first one for other keys. -/
def append (m other : AssocMap κ υ) : AssocMap κ υ :=
  other ++ m.filter fun e => e.1 ∉ other.map (·.1)

variable {m other : AssocMap κ υ} {k k' : κ} {v : υ}

theorem get_eq_none_iff : m.get k = none ↔ k ∉ m.map (·.1) := by
  simp only [get, Option.map_eq_none_iff, List.find?_eq_none, decide_eq_true_eq, List.mem_map,
    not_exists, not_and]

/-- A filter that keeps a key keeps its value. -/
theorem get_filter {p : κ × υ → Bool} (h : ∀ v, p (k, v) = true) :
    get (m.filter p) k = m.get k := by
  induction m with
  | nil => rfl
  | cons e m ih =>
    rw [get] at ih
    by_cases hk : e.1 = k
    · have hp : p e = true := by
        rw [← h e.2, ← hk]
      rw [List.filter_cons_of_pos hp, get, get, List.find?_cons_of_pos (by simpa using hk),
        List.find?_cons_of_pos (by simpa using hk)]
    · have hrest : get (e :: m) k = get m k := by
        rw [get, List.find?_cons_of_neg (by simpa using hk)]
        rfl
      rw [hrest, ← ih]
      by_cases hp : p e = true
      · rw [List.filter_cons_of_pos hp, get, List.find?_cons_of_neg (by simpa using hk)]
      · rw [List.filter_cons_of_neg hp]
        rfl

/-- A removed key has no value. -/
theorem get_remove_self : (m.remove k).get k = none := by
  rw [get_eq_none_iff, remove]
  intro hmem
  obtain ⟨e, he, rfl⟩ := List.mem_map.1 hmem
  simp at he

/-- A removal keeps the other keys. -/
theorem get_remove_of_ne (h : k' ≠ k) : (m.remove k).get k' = m.get k' :=
  get_filter fun _ => by simpa using h

/-- An inserted key has its value. -/
theorem get_insert_self : (m.insert k v).get k = some v := by
  rw [insert, get, List.find?_cons_of_pos (by simp)]
  rfl

/-- An insertion keeps the other keys. -/
theorem get_insert_of_ne (h : k' ≠ k) : (m.insert k v).get k' = m.get k' := by
  have hrest : (m.remove k).get k' = m.get k' := get_remove_of_ne h
  rw [← hrest, insert, get, List.find?_cons_of_neg (by simpa using h.symm)]
  rfl

/-- An insertion adds its key. -/
theorem mem_keys_insert : k' ∈ (m.insert k v).map (·.1) ↔ k' = k ∨ k' ∈ m.map (·.1) := by
  by_cases h : k' = k
  · subst h
    exact ⟨fun _ => .inl rfl, fun _ => List.mem_cons_self⟩
  · rw [or_iff_right h, ← not_iff_not, ← get_eq_none_iff, ← get_eq_none_iff, get_insert_of_ne h]

/-- The appended map answers first. -/
theorem get_append : (m.append other).get k = (other.get k).or (m.get k) := by
  rw [append, get, List.find?_append]
  cases hother : other.find? (·.1 = k) with
  | some e =>
    rw [get, hother]
    rfl
  | none =>
    have hnone : other.get k = none := by
      rw [get, hother]
      rfl
    have hk := get_eq_none_iff.1 hnone
    rw [hnone, Option.none_or, Option.none_or]
    exact get_filter fun _ => by simpa using hk

/-- A removal keeps the keys distinct. -/
theorem nodup_remove (h : (m.map (·.1)).Nodup) : ((m.remove k).map (·.1)).Nodup :=
  h.sublist (List.filter_sublist.map _)

theorem nodup_insert (h : (m.map (·.1)).Nodup) : ((m.insert k v).map (·.1)).Nodup := by
  rw [insert, List.map_cons, List.nodup_cons]
  exact ⟨get_eq_none_iff.1 get_remove_self, nodup_remove h⟩

/-- The entries of a map with distinct keys, written to a function one after the other. -/
theorem foldl_update (h : (m.map (·.1)).Nodup) (f : κ → Option υ) (k : κ) :
    m.foldl (fun (f : κ → Option υ) (e : κ × υ) => Function.update f e.1 (some e.2)) f k =
      (m.get k).or (f k) := by
  induction m generalizing f with
  | nil => rfl
  | cons e m ih =>
    rw [List.map_cons, List.nodup_cons] at h
    rw [List.foldl_cons, ih h.2]
    by_cases hk : e.1 = k
    · subst hk
      rw [get_eq_none_iff.2 h.1, Function.update_self, get, List.find?_cons_of_pos (by simp)]
      rfl
    · rw [Function.update_of_ne (Ne.symm hk), get, get,
        List.find?_cons_of_neg (by simpa using hk)]

end AssocMap
