import Chase.Cache.Visibility

/-!
# The byte counter of L2

`insert` adds 64 bytes for a new key, and takes 64 bytes off for every entry that its own loop pops.
But `LruCache` has a limit of its own: at 1024 entries, a `put` of a new key drops the oldest entry
and returns nothing, and the counter does not follow. So the counter is 64 bytes an entry and 64
bytes for every such `put` so far (`Counted`), and it is right exactly as long as there was none
(`currentBytes_eq_iff`). The bound by the capacity holds anyway.
-/

namespace Chase.Cache

namespace L2Cache

/-- One, if a `put` of the entry drops the oldest one of a full cache. -/
def evicts (c : L2Cache) (entry : Key × Value) : Nat :=
  if c.find entry.1 = none ∧ cap ≤ c.entries.length then 1 else 0

/-- How often that happens while entries are inserted. -/
def evictions (c : L2Cache) : List (Key × Value) → Nat
  | [] => 0
  | entry :: entries => c.evicts entry + (c.insert entry).evictions entries

/-- The keys are distinct, and the counter has 64 bytes for every entry, and for every one that the
LRU cache dropped. -/
structure Counted (evicted : Nat) (c : L2Cache) : Prop where
  nodup : (c.entries.map (·.1)).Nodup
  length_le : c.entries.length ≤ cap
  bytes : c.currentBytes = 64 * (c.entries.length + evicted)
  fresh : c.entries = [] → evicted = 0

/-- The counter is within the capacity, or has one entry. -/
def Bounded (c : L2Cache) : Prop := c.currentBytes ≤ max c.capacityBytes 64

section

variable {c : L2Cache} {evicted : Nat}

theorem evicts_of_find {entry : Key × Value} {v : Value} (h : c.find entry.1 = some v) :
    c.evicts entry = 0 :=
  if_neg fun hnone => Option.some_ne_none v (h.symm.trans hnone.1)

theorem evicts_of_full {entry : Key × Value} (h : c.find entry.1 = none)
    (hfull : cap ≤ c.entries.length) : c.evicts entry = 1 :=
  if_pos ⟨h, hfull⟩

theorem evicts_of_room {entry : Key × Value} (hroom : c.entries.length < cap) :
    c.evicts entry = 0 :=
  if_neg fun hfull => Nat.not_le_of_lt hroom hfull.2

theorem put_of_find {entry : Key × Value} {v : Value} (h : c.find entry.1 = some v) :
    c.put entry = c.promote entry := by
  rw [put, h]

/-- A new entry of a full cache takes the place of the oldest one, and is counted. -/
theorem put_of_full {entry : Key × Value} (h : c.find entry.1 = none)
    (hfull : cap ≤ c.entries.length) :
    c.put entry =
      { c with
        entries := entry :: c.entries.dropLast
        currentBytes := c.currentBytes + 64 } := by
  rw [put, h]
  dsimp only
  rw [if_pos hfull]

/-- A `put` of a new entry in a cache with room adds it and counts its bytes. -/
theorem put_of_room {entry : Key × Value} (h : c.find entry.1 = none)
    (hroom : c.entries.length < cap) :
    c.put entry =
      { c with
        entries := entry :: c.entries
        currentBytes := c.currentBytes + 64 } := by
  rw [put, h]
  dsimp only
  rw [if_neg (Nat.not_le_of_lt hroom)]

/-- An entry that is there is moved, so there are as many as before. -/
theorem length_promote (hnodup : (c.entries.map (·.1)).Nodup) {entry : Key × Value}
    (hmem : entry.1 ∈ c.entries.map (·.1)) :
    (c.promote entry).entries.length = c.entries.length := by
  have herase : ((c.entries.filter (·.1 ≠ entry.1)).map (·.1)) =
      (c.entries.map (·.1)).erase entry.1 := by
    rw [hnodup.erase_eq_filter, List.filter_map]
    congr 1
    refine List.filter_congr fun e _ => ?_
    simp [bne, Bool.beq_eq_decide_eq]
  have hlength := congrArg List.length herase
  rw [List.length_map, List.length_erase_of_mem hmem, List.length_map] at hlength
  have hpos : 0 < c.entries.length := by
    rw [← List.length_map (·.1)]
    exact List.length_pos_of_mem hmem
  rw [promote, List.length_cons, hlength]
  omega

/-- A promotion changes the order of the entries only. -/
theorem Counted.promote (h : c.Counted evicted) {entry : Key × Value}
    (hmem : entry.1 ∈ c.entries.map (·.1)) : (c.promote entry).Counted evicted := by
  have hlength := length_promote h.nodup hmem
  refine ⟨?_, hlength ▸ h.length_le, hlength ▸ h.bytes, nofun⟩
  rw [L2Cache.promote, List.map_cons, List.nodup_cons]
  refine ⟨?_, h.nodup.sublist (List.filter_sublist.map _)⟩
  intro hkey
  obtain ⟨e, he, hek⟩ := List.mem_map.1 hkey
  exact of_decide_eq_true (List.mem_filter.1 he).2 hek

theorem mem_keys_of_find {key : Key} {v : Value} (h : c.find key = some v) :
    key ∈ c.entries.map (·.1) :=
  List.mem_map.2 ⟨_, mem_of_find h, rfl⟩

/-- A `get` keeps the account of the bytes. -/
theorem Counted.get (h : c.Counted evicted) (key : Key) : (c.get key).2.Counted evicted := by
  rw [L2Cache.get]
  cases hfind : c.find key with
  | none => exact h
  | some v => exact h.promote (mem_keys_of_find hfind)

/-- A `put` keeps the account of the bytes, with the entry that it evicts. -/
theorem Counted.put (h : c.Counted evicted) (entry : Key × Value) :
    (c.put entry).Counted (evicted + c.evicts entry) := by
  have hlength := h.length_le
  have hbytes := h.bytes
  cases hfind : c.find entry.1 with
  | some v =>
    rw [put_of_find hfind, evicts_of_find hfind]
    exact h.promote (mem_keys_of_find hfind)
  | none =>
    have hnew := find_eq_none_iff.1 hfind
    by_cases hfull : cap ≤ c.entries.length
    · have hcap : 0 < cap := by decide
      have hnodup : (entry.1 :: c.entries.dropLast.map (·.1)).Nodup :=
        List.nodup_cons.2 ⟨fun hkey => hnew (List.map_subset _ (List.dropLast_subset _) hkey),
          h.nodup.sublist ((List.dropLast_sublist _).map _)⟩
      rw [put_of_full hfind hfull, evicts_of_full hfind hfull]
      refine ⟨hnodup, ?_, ?_, nofun⟩
      · simp only [List.length_cons, List.length_dropLast]
        omega
      · simp only [List.length_cons, List.length_dropLast]
        omega
    · rw [put_of_room hfind (Nat.lt_of_not_le hfull), evicts_of_room (Nat.lt_of_not_le hfull)]
      refine ⟨List.nodup_cons.2 ⟨hnew, h.nodup⟩, ?_, ?_, nofun⟩
      · simp only [List.length_cons]
        omega
      · simp only [List.length_cons]
        omega

/-- The loop of `insert` follows the entries. -/
theorem Counted.shrink (h : c.Counted evicted) (capacityBytes fuel : Nat) :
    (shrink capacityBytes fuel c).Counted evicted := by
  induction fuel generalizing c with
  | zero => exact h
  | succ fuel ih =>
    rw [L2Cache.shrink]
    split
    · rename_i hloop
      have hlength := h.length_le
      have hbytes := h.bytes
      refine ih ⟨h.nodup.sublist ((List.dropLast_sublist _).map _), ?_, ?_, ?_⟩
      · simp only [List.length_dropLast]
        omega
      · simp only [List.length_dropLast]
        omega
      · intro hnil
        have hzero := congrArg List.length hnil
        simp only [List.length_dropLast, List.length_nil] at hzero
        omega
    · exact h

theorem Counted.insert (h : c.Counted evicted) (entry : Key × Value) :
    (c.insert entry).Counted (evicted + c.evicts entry) :=
  (h.put entry).shrink _ _

/-! ## The bound -/

@[simp] theorem capacityBytes_put (c : L2Cache) (entry : Key × Value) :
    (c.put entry).capacityBytes = c.capacityBytes := by
  rw [put]
  split <;> rfl

@[simp] theorem capacityBytes_shrink (capacityBytes fuel : Nat) (c : L2Cache) :
    (shrink capacityBytes fuel c).capacityBytes = c.capacityBytes := by
  induction fuel generalizing c with
  | zero => rfl
  | succ fuel ih =>
    rw [shrink]
    split
    · exact ih _
    · rfl

@[simp] theorem capacityBytes_insert (c : L2Cache) (entry : Key × Value) :
    (c.insert entry).capacityBytes = c.capacityBytes := by
  rw [insert, capacityBytes_shrink, capacityBytes_put]

@[simp] theorem capacityBytes_get (c : L2Cache) (key : Key) :
    (c.get key).2.capacityBytes = c.capacityBytes := by
  rw [get]
  split <;> rfl

theorem entries_put_ne_nil (c : L2Cache) (entry : Key × Value) : (c.put entry).entries ≠ [] := by
  rw [put]
  split
  · exact List.cons_ne_nil _ _
  · exact List.cons_ne_nil _ _

/-- Shrinking does not add bytes. -/
theorem currentBytes_shrink_le (capacityBytes fuel : Nat) (c : L2Cache) :
    (shrink capacityBytes fuel c).currentBytes ≤ c.currentBytes := by
  induction fuel generalizing c with
  | zero => exact Nat.le_refl _
  | succ fuel ih =>
    rw [shrink]
    split
    · exact (ih _).trans (Nat.sub_le _ _)
    · exact Nat.le_refl _

/-- One entry beyond the bound is popped, unless it is the only one. -/
theorem currentBytes_shrink_le_max {capacityBytes fuel : Nat}
    (hbytes : c.currentBytes ≤ max capacityBytes 64 + 64)
    (hlength : c.currentBytes ≤ max capacityBytes 64 ∨ 1 < c.entries.length) :
    (shrink capacityBytes (fuel + 1) c).currentBytes ≤ max capacityBytes 64 := by
  rw [shrink]
  split
  · refine (currentBytes_shrink_le _ _ _).trans ?_
    dsimp only
    omega
  · rename_i hloop
    rw [not_and_or] at hloop
    omega

/-- A `put` counts one more entry at most, and there is a second one when it goes beyond the
bound. -/
theorem currentBytes_put_le (h : c.Counted evicted) (hle : c.Bounded) (entry : Key × Value) :
    (c.put entry).currentBytes ≤ max c.capacityBytes 64 + 64 ∧
      ((c.put entry).currentBytes ≤ max c.capacityBytes 64 ∨ 1 < (c.put entry).entries.length) := by
  have hbytes := h.bytes
  rw [Bounded] at hle
  cases hfind : c.find entry.1 with
  | some v =>
    rw [put_of_find hfind]
    exact ⟨Nat.le_add_right_of_le hle, .inl hle⟩
  | none =>
    by_cases hfull : cap ≤ c.entries.length
    · have hcap : 1 < cap := by decide
      rw [put_of_full hfind hfull]
      refine ⟨Nat.add_le_add_right hle 64, .inr ?_⟩
      rw [List.length_cons, List.length_dropLast]
      omega
    · rw [put_of_room hfind (Nat.lt_of_not_le hfull)]
      refine ⟨Nat.add_le_add_right hle 64, ?_⟩
      rw [List.length_cons]
      rcases Nat.eq_zero_or_pos c.entries.length with hzero | hpos
      · have hevicted := h.fresh (List.eq_nil_of_length_eq_zero hzero)
        left
        dsimp only
        omega
      · right
        omega

/-- An `insert` keeps the bytes within the capacity and one entry. -/
theorem Bounded.insert (h : c.Bounded) (hcounted : c.Counted evicted) (entry : Key × Value) :
    (c.insert entry).Bounded := by
  obtain ⟨hbytes, hlength⟩ := currentBytes_put_le hcounted h entry
  have hput := entries_put_ne_nil c entry
  rw [Bounded, capacityBytes_insert, L2Cache.insert]
  obtain ⟨fuel, hfuel⟩ := Nat.exists_eq_succ_of_ne_zero (mt List.eq_nil_of_length_eq_zero hput)
  rw [hfuel]
  exact currentBytes_shrink_le_max hbytes hlength

theorem Bounded.get (h : c.Bounded) (key : Key) : (c.get key).2.Bounded := by
  rw [Bounded, capacityBytes_get]
  rw [L2Cache.get]
  split
  · exact h
  · exact h

/-- A capacity below 1024 entries keeps the LRU cache from its own limit. -/
theorem evicts_of_capacity (h : c.Counted 0) (hle : c.Bounded)
    (hcapacity : c.capacityBytes < 64 * cap) (entry : Key × Value) : c.evicts entry = 0 := by
  have hbytes := h.bytes
  have hcap : 1 < cap := by decide
  rw [Bounded] at hle
  exact evicts_of_room (by omega)

end

/-! ## Insertions -/

/-- An `insert_batch` keeps the account of the bytes and their bound. -/
theorem counted_insertBatch {c : L2Cache} {evicted : Nat} (h : c.Counted evicted) (hle : c.Bounded)
    (entries : List (Key × Value)) :
    (c.insertBatch entries).Counted (evicted + c.evictions entries) ∧
      (c.insertBatch entries).Bounded := by
  induction entries generalizing c evicted with
  | nil => exact ⟨h, hle⟩
  | cons entry entries ih =>
    rw [evictions, ← Nat.add_assoc]
    exact ih (h.insert entry) (hle.insert h entry)

@[simp] theorem capacityBytes_insertBatch (c : L2Cache) (entries : List (Key × Value)) :
    (c.insertBatch entries).capacityBytes = c.capacityBytes := by
  induction entries generalizing c with
  | nil => rfl
  | cons entry entries ih => exact (ih (c.insert entry)).trans (capacityBytes_insert c entry)

/-- A batch evicts nothing from a cache whose capacity is below `cap` entries. -/
theorem evictions_of_capacity {c : L2Cache} (h : c.Counted 0) (hle : c.Bounded)
    (hcapacity : c.capacityBytes < 64 * cap) (entries : List (Key × Value)) :
    c.evictions entries = 0 := by
  induction entries generalizing c with
  | nil => rfl
  | cons entry entries ih =>
    have hzero := evicts_of_capacity h hle hcapacity entry
    have hinsert := h.insert entry
    rw [hzero] at hinsert
    rw [evictions, hzero, Nat.zero_add]
    exact ih hinsert (hle.insert h entry) ((capacityBytes_insert c entry).symm ▸ hcapacity)

end L2Cache

/-! ## Runs -/

/-- A call on L2. -/
inductive L2Call where
  | insert (entry : Key × Value)
  | insertBatch (entries : List (Key × Value))
  | get (key : Key)

namespace L2Call

/-- The cache after a call. -/
def apply (c : L2Cache) : L2Call → L2Cache
  | .insert entry => c.insert entry
  | .insertBatch entries => c.insertBatch entries
  | .get key => (c.get key).2

/-- The entries that a call inserts. -/
def entries : L2Call → List (Key × Value)
  | .insert entry => [entry]
  | .insertBatch entries => entries
  | .get _ => []

end L2Call

namespace L2Cache

/-- The cache after calls on a new one. -/
def after (capacityBytes : Nat) (calls : List L2Call) : L2Cache :=
  calls.foldl L2Call.apply { capacityBytes }

/-- How often a `put` drops the oldest entry of a full cache during calls. -/
def evictionsOf (c : L2Cache) : List L2Call → Nat
  | [] => 0
  | call :: calls => c.evictions call.entries + (call.apply c).evictionsOf calls

/-- A call keeps the account of the bytes and their bound. -/
theorem counted_apply {c : L2Cache} {evicted : Nat} (h : c.Counted evicted) (hle : c.Bounded)
    (call : L2Call) :
    (call.apply c).Counted (evicted + c.evictions call.entries) ∧ (call.apply c).Bounded := by
  cases call with
  | insert entry => exact counted_insertBatch h hle [entry]
  | insertBatch entries => exact counted_insertBatch h hle entries
  | get key => exact ⟨h.get key, hle.get key⟩

/-- Any calls keep the account of the bytes and their bound. -/
theorem counted_run {c : L2Cache} {evicted : Nat} (h : c.Counted evicted) (hle : c.Bounded)
    (calls : List L2Call) :
    (calls.foldl L2Call.apply c).Counted (evicted + c.evictionsOf calls) ∧
      (calls.foldl L2Call.apply c).Bounded := by
  induction calls generalizing c evicted with
  | nil => exact ⟨h, hle⟩
  | cons call calls ih =>
    obtain ⟨hcall, hcall_le⟩ := counted_apply h hle call
    rw [evictionsOf, ← Nat.add_assoc]
    exact ih hcall hcall_le

/-- A call keeps the capacity. -/
theorem capacityBytes_apply (c : L2Cache) (call : L2Call) :
    (call.apply c).capacityBytes = c.capacityBytes := by
  cases call with
  | insert entry => exact capacityBytes_insert c entry
  | insertBatch entries => exact capacityBytes_insertBatch c entries
  | get key => exact capacityBytes_get c key

@[simp] theorem capacityBytes_after (capacityBytes : Nat) (calls : List L2Call) :
    (after capacityBytes calls).capacityBytes = capacityBytes := by
  induction calls using List.reverseRecOn with
  | nil => rfl
  | append_singleton calls call ih =>
    rw [after, List.foldl_append, ← after]
    exact (capacityBytes_apply _ call).trans ih

/-- The evictions of calls add up. -/
theorem evictionsOf_append (c : L2Cache) (calls calls' : List L2Call) :
    c.evictionsOf (calls ++ calls') =
      c.evictionsOf calls + (calls.foldl L2Call.apply c).evictionsOf calls' := by
  induction calls generalizing c with
  | nil => exact (Nat.zero_add _).symm
  | cons call calls ih => rw [List.cons_append, evictionsOf, ih, evictionsOf, Nat.add_assoc]; rfl

/-- The evictions of the first calls are some of those of all calls. -/
theorem evictionsOf_take_le (c : L2Cache) (calls : List L2Call) (n : Nat) :
    c.evictionsOf (calls.take n) ≤ c.evictionsOf calls := by
  conv_rhs => rw [← List.take_append_drop n calls, evictionsOf_append]
  exact Nat.le_add_right _ _

/-- Calls evict nothing from a cache whose capacity is below `cap` entries. -/
theorem evictionsOf_of_capacity {c : L2Cache} (h : c.Counted 0) (hle : c.Bounded)
    (hcapacity : c.capacityBytes < 64 * cap) (calls : List L2Call) : c.evictionsOf calls = 0 := by
  induction calls generalizing c with
  | nil => rfl
  | cons call calls ih =>
    have hzero := evictions_of_capacity h hle hcapacity call.entries
    obtain ⟨hcall, hcall_le⟩ := counted_apply h hle call
    rw [hzero] at hcall
    rw [evictionsOf, hzero, Nat.zero_add]
    exact ih hcall hcall_le ((capacityBytes_apply c call).symm ▸ hcapacity)

theorem counted_new (capacityBytes : Nat) : Counted 0 { capacityBytes } :=
  ⟨.nil, Nat.zero_le _, rfl, fun _ => rfl⟩

/-- After any calls from a new cache, the bytes are off by those of the evicted entries. -/
theorem counted_after (capacityBytes : Nat) (calls : List L2Call) :
    (after capacityBytes calls).Counted (evictionsOf { capacityBytes } calls) := by
  have h := (counted_run (counted_new capacityBytes) (Nat.zero_le _) calls).1
  rwa [Nat.zero_add] at h

/-- The byte counter is 64 bytes an entry after every call exactly when no new key is put while the
LRU cache has its 1024 entries, which a capacity below 64 KiB rules out; otherwise it is too large
by 64 bytes for every such `put`. It is within the capacity in any case, or at one entry. -/
theorem currentBytes_eq_iff (capacityBytes : Nat) (calls : List L2Call) :
    ((∀ n, (after capacityBytes (calls.take n)).currentBytes =
        64 * (after capacityBytes (calls.take n)).entries.length) ↔
      evictionsOf { capacityBytes } calls = 0) ∧
    (capacityBytes < 64 * 1024 → evictionsOf { capacityBytes } calls = 0) ∧
    (after capacityBytes calls).currentBytes =
      64 * ((after capacityBytes calls).entries.length + evictionsOf { capacityBytes } calls) ∧
    (∀ n, (after capacityBytes (calls.take n)).currentBytes ≤ max capacityBytes 64) := by
  refine ⟨⟨?_, ?_⟩, ?_, (counted_after capacityBytes calls).bytes, ?_⟩
  · intro h
    have hall := h calls.length
    rw [List.take_length] at hall
    have hbytes := (counted_after capacityBytes calls).bytes
    omega
  · intro hzero n
    have hbytes := (counted_after capacityBytes (calls.take n)).bytes
    have hle := evictionsOf_take_le { capacityBytes } calls n
    omega
  · exact fun hcapacity =>
      evictionsOf_of_capacity (counted_new capacityBytes) (Nat.zero_le _) hcapacity calls
  · intro n
    have hle := (counted_run (counted_new capacityBytes) (Nat.zero_le _) (calls.take n)).2
    rwa [Bounded, ← after, capacityBytes_after] at hle

/-- A cache within its capacity is not shrunk. -/
theorem shrink_of_le {capacityBytes : Nat} {c : L2Cache} (h : c.currentBytes ≤ capacityBytes)
    (fuel : Nat) : shrink capacityBytes fuel c = c := by
  cases fuel with
  | zero => rfl
  | succ fuel => exact if_neg fun hloop => Nat.not_lt_of_le h hloop.1

/-- Distinct keys that fit into the capacity are all counted, and the last 1024 of them are there.
-/
theorem insertBatch_distinct {capacityBytes : Nat} {entries : List (Key × Value)}
    (hnodup : (entries.map (·.1)).Nodup) (hcapacity : 64 * entries.length ≤ capacityBytes) :
    (insertBatch { capacityBytes } entries).currentBytes = 64 * entries.length ∧
      (insertBatch { capacityBytes } entries).entries.length = min entries.length cap := by
  induction entries using List.reverseRecOn with
  | nil => exact ⟨rfl, rfl⟩
  | append_singleton entries entry ih =>
    rw [List.map_append, List.nodup_append] at hnodup
    rw [List.length_append, List.length_singleton] at hcapacity ⊢
    obtain ⟨hbytes, hlength⟩ := ih hnodup.1 (by omega)
    have hnew : (insertBatch { capacityBytes } entries).find entry.1 = none := by
      refine find_eq_none_iff.2 fun hkey => ?_
      obtain ⟨e, he, hek⟩ := List.mem_map.1 hkey
      have hmem : e ∈ entries := by
        simpa using entries_insertBatch_subset { capacityBytes } entries he
      exact hnodup.2.2 e.1 (List.mem_map_of_mem hmem) entry.1 (List.mem_singleton_self _) hek
    have hinsert : insertBatch { capacityBytes } (entries ++ [entry]) =
        (insertBatch { capacityBytes } entries).insert entry := by
      rw [insertBatch, List.foldl_append]
      rfl
    rw [hinsert, insert, capacityBytes_insertBatch]
    have hcap : 0 < cap := by decide
    by_cases hfull : cap ≤ (insertBatch { capacityBytes } entries).entries.length
    · rw [put_of_full hnew hfull, shrink_of_le (by dsimp only; omega)]
      refine ⟨by dsimp only; omega, ?_⟩
      rw [List.length_cons, List.length_dropLast]
      omega
    · rw [put_of_room hnew (Nat.lt_of_not_le hfull), shrink_of_le (by dsimp only; omega)]
      refine ⟨by dsimp only; omega, ?_⟩
      rw [List.length_cons]
      omega

/-- Entries with the keys below `n`. -/
def entriesBelow (n : Nat) : List (Key × Value) :=
  (List.range n).map fun i => (BitVec.ofNat 256 i, 0)

/-- The entries below a number have distinct keys. -/
theorem nodup_entriesBelow {n : Nat} (h : n ≤ 2 ^ 256) : ((entriesBelow n).map (·.1)).Nodup := by
  rw [entriesBelow, List.map_map]
  refine List.Nodup.map_on ?_ List.nodup_range
  intro i hi j hj heq
  have hnat : i % 2 ^ 256 = j % 2 ^ 256 := congrArg BitVec.toNat heq
  rw [List.mem_range] at hi hj
  rwa [Nat.mod_eq_of_lt (hi.trans_le h), Nat.mod_eq_of_lt (hj.trans_le h)] at hnat

/-- The cache after one `insert_batch`. -/
theorem after_insertBatch (capacityBytes : Nat) (entries : List (Key × Value)) :
    after capacityBytes [.insertBatch entries] = insertBatch { capacityBytes } entries := rfl

/-- In the default capacity of 1 GiB, the counter has 1025 entries after 1025 keys are inserted, and
the LRU cache has 1024. -/
theorem currentBytes_ne_full :
    (after (1024 * 1024 * 1024) [.insertBatch (entriesBelow 1025)]).currentBytes = 64 * 1025 ∧
      (after (1024 * 1024 * 1024) [.insertBatch (entriesBelow 1025)]).entries.length = 1024 := by
  have hlength : (entriesBelow 1025).length = 1025 := by
    rw [entriesBelow, List.length_map, List.length_range]
  have hnodup : ((entriesBelow 1025).map (·.1)).Nodup := nodup_entriesBelow (by decide)
  have hcapacity : 64 * (entriesBelow 1025).length ≤ 1024 * 1024 * 1024 := by
    omega
  obtain ⟨hbytes, hentries⟩ := insertBatch_distinct hnodup hcapacity
  rw [hlength] at hbytes hentries
  rw [after_insertBatch]
  exact ⟨hbytes, hentries⟩

end L2Cache

end Chase.Cache
