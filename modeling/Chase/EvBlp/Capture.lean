import Chase.EvBlp.Agreement
import Chase.Stack.SlotTable

/-!
# What the cache captures of an effect

Under EV-BLP the effects of a batch reach the cache through `applies_to_temp_buffer`, which takes
the storage writes of a `Modify` and nothing else. The overlay answers a slot from the cache when it
can, so a slot that was cached keeps its value there when its account is deleted, reset or removed
as empty afterwards. The overlay and the backend below it agree exactly when no slot is cleared in
this way while the cache holds a value for it (`capture_agrees_iff`).
-/

namespace Chase

open Function LastWrite Cache

/-! ## Effects on one slot from an empty backend -/

/-- The captured writes of an apply are what it writes. -/
theorem Apply.lastWrite_slotWrites (x : Apply) (slot : Slot) :
    lastWrite x.slotWrites slot = x.writeOn slot := by
  cases x with
  | delete a => rfl
  | modify a basic code storage resetStorage =>
    rw [Apply.writeOn, Apply.slotWrites]
    by_cases ha : a = slot.1
    · subst ha
      rw [if_pos rfl]
      exact lastWrite_map (fun k : H256 => ((slot.1, k) : Slot)) storage slot.2
        fun j _ hj => congrArg Prod.snd hj
    · rw [if_neg ha, lastWrite_eq_none_iff, List.map_map]
      intro hmem
      obtain ⟨e, -, rfl⟩ := List.mem_map.1 hmem
      exact ha rfl

/-- Some effect clears the slot, and no later one writes it. -/
def Cleared (deleteEmpty : Bool) (effects : List Apply) (slot : Slot) : Prop :=
  ∃ before x after, effects = before ++ x :: after ∧
    x.ClearsSlot deleteEmpty (MemoryBackend.apply State.empty before deleteEmpty) slot ∧
    slot ∉ (slotWrites after).map (·.1)

/-- A slot is cleared by the last apply, or before it and not written again. -/
theorem cleared_append_singleton {deleteEmpty : Bool} {effects : List Apply} {x : Apply}
    {slot : Slot} : Cleared deleteEmpty (effects ++ [x]) slot ↔
      x.ClearsSlot deleteEmpty (MemoryBackend.apply State.empty effects deleteEmpty) slot ∨
        Cleared deleteEmpty effects slot ∧ slot ∉ x.slotWrites.map (·.1) := by
  constructor
  · rintro ⟨before, y, after, heq, hclears, hafter⟩
    rcases append_singleton_eq_iff.1 heq with ⟨rfl, rfl, rfl⟩ | ⟨after, rfl, rfl⟩
    · exact .inl hclears
    · rw [slotWrites_append, slotWrites_singleton, List.map_append,
        List.mem_append, not_or] at hafter
      exact .inr ⟨⟨before, y, after, rfl, hclears, hafter.1⟩, hafter.2⟩
  · rintro (hclears | ⟨⟨before, y, after, rfl, hclears, hafter⟩, hx⟩)
    · exact ⟨effects, x, [], rfl, hclears, List.not_mem_nil⟩
    · refine ⟨before, y, after ++ [x], by simp, hclears, ?_⟩
      rw [slotWrites_append, slotWrites_singleton, List.map_append, List.mem_append, not_or]
      exact ⟨hafter, hx⟩

/-- A slot is empty when it was cleared last, and otherwise has the last value written to it. -/
theorem MemoryBackend.storage_apply_empty (deleteEmpty : Bool) (effects : List Apply)
    (slot : Slot) :
    (Cleared deleteEmpty effects slot →
      (MemoryBackend.apply State.empty effects deleteEmpty).storage slot.1 slot.2 = 0#256) ∧
    (¬Cleared deleteEmpty effects slot →
      (MemoryBackend.apply State.empty effects deleteEmpty).storage slot.1 slot.2 =
        (lastWrite (slotWrites effects) slot).getD 0#256) := by
  induction effects using List.reverseRecOn with
  | nil =>
    refine ⟨fun hcleared => ?_, fun _ => rfl⟩
    obtain ⟨before, x, after, heq, -⟩ := hcleared
    simp at heq
  | append_singleton effects x ih =>
    have hstep : MemoryBackend.apply State.empty (effects ++ [x]) deleteEmpty =
        MemoryBackend.applyOne deleteEmpty
          (MemoryBackend.apply State.empty effects deleteEmpty) x := by
      rw [MemoryBackend.apply, List.foldl_append]
      rfl
    rw [cleared_append_singleton, hstep, slotWrites_append, slotWrites_singleton, lastWrite_append,
      ← lastWrite_eq_none_iff]
    by_cases hclears :
        x.ClearsSlot deleteEmpty (MemoryBackend.apply State.empty effects deleteEmpty) slot
    · rw [MemoryBackend.storage_applyOne_of_clears hclears]
      exact ⟨fun _ => rfl, fun hnot => absurd (.inl hclears) hnot⟩
    · rw [MemoryBackend.storage_applyOne_of_not_clears hclears, or_iff_right hclears,
        ← Apply.lastWrite_slotWrites]
      cases hlast : lastWrite x.slotWrites slot with
      | some v => exact ⟨fun h => (by cases h.2), fun _ => rfl⟩
      | none =>
        rw [and_iff_left rfl, Option.none_or]
        exact ih

namespace EvBlp

/-! ## The overlay -/

/-- `CacheOverlayBackend` over a memory backend, with the number of batches that went through it. -/
structure Overlay where
  cache : TwoLevelCache
  inner : State := State.empty
  visibleBatch : Nat := 0

namespace Overlay

/-- The overlay with an empty cache, store and backend. -/
def new (l1CapacityBytes l2CapacityBytes : Nat) : Overlay where
  cache := .new l1CapacityBytes l2CapacityBytes fun _ => none

/-- `CacheOverlayBackend::storage`. -/
def storage (o : Overlay) (slot : Slot) : H256 :=
  (o.cache.read (encodeKey slot) o.visibleBatch).1.getD (o.inner.storage slot.1 slot.2)

/-- A batch of effects: `apply` on the inner backend, and `on_batch_exec_complete` with the pages
that are captured of them. -/
def captureBatch (deleteEmpty : Bool) (maxRecords : Nat) (o : Overlay) (batch : List Apply) :
    Overlay :=
  let batchId := o.visibleBatch + 1
  { cache := (o.cache.writeDeltaPages batchId
      (intoDeltaPages (appliesToTempBuffer batch) batchId batchId maxRecords)).markBatchComplete
        batchId
    inner := MemoryBackend.apply o.inner batch deleteEmpty
    visibleBatch := batchId }

/-- The overlay after batches. -/
def capture (deleteEmpty : Bool) (maxRecords l1CapacityBytes l2CapacityBytes : Nat)
    (batches : List (List Apply)) : Overlay :=
  batches.foldl (captureBatch deleteEmpty maxRecords) (new l1CapacityBytes l2CapacityBytes)

/-- The cache of the overlay holds the records of the effects, and its backend has applied them. -/
structure Captured (deleteEmpty : Bool) (effects : List Apply) (o : Overlay) : Prop where
  holds : TwoLevelCache.Holds (fun _ => none) (appliesToTempBuffer effects) o.cache []
  inner : o.inner = MemoryBackend.apply State.empty effects deleteEmpty
  visible : o.visibleBatch ≤ o.cache.completedBatch

/-- A batch keeps the overlay in step with the effects. -/
theorem Captured.batch {deleteEmpty : Bool} {effects : List Apply} {o : Overlay}
    (h : Captured deleteEmpty effects o) (maxRecords : Nat) (batch : List Apply) :
    Captured deleteEmpty (effects ++ batch) (o.captureBatch deleteEmpty maxRecords batch) := by
  refine ⟨?_, ?_, Nat.le_max_right _ _⟩
  · have hcomplete := h.holds.complete (o.visibleBatch + 1)
      (intoDeltaPages (appliesToTempBuffer batch) (o.visibleBatch + 1) (o.visibleBatch + 1)
        maxRecords)
    rw [pageRecords_intoDeltaPages] at hcomplete
    rw [appliesToTempBuffer, slotWrites_append, List.map_append]
    exact hcomplete
  · rw [captureBatch, h.inner, MemoryBackend.apply, MemoryBackend.apply, MemoryBackend.apply,
      List.foldl_append]

/-- After any batches, the overlay is in step with the effects. -/
theorem captured (deleteEmpty : Bool) (maxRecords l1CapacityBytes l2CapacityBytes : Nat)
    (batches : List (List Apply)) : Captured deleteEmpty batches.flatten
      (capture deleteEmpty maxRecords l1CapacityBytes l2CapacityBytes batches) := by
  induction batches using List.reverseRecOn with
  | nil => exact ⟨.new _ _ _, rfl, le_rfl⟩
  | append_singleton batches batch ih =>
    rw [capture, List.foldl_append, List.flatten_append, List.flatten_singleton]
    exact ih.batch maxRecords batch

/-- The overlay answers a slot with the last value written to it, or from the backend. -/
theorem Captured.storage_eq {deleteEmpty : Bool} {effects : List Apply} {o : Overlay}
    (h : Captured deleteEmpty effects o) (hlow : Stack.LowSlots effects) {slot : Slot}
    (hslot : slot.2.toNat < 2 ^ 96) :
    o.storage slot =
      (lastWrite (slotWrites effects) slot).getD (o.inner.storage slot.1 slot.2) := by
  have hfind : o.cache.find (encodeKey slot) = lastWrite (slotWrites effects) slot := by
    rw [h.holds.find_eq, Option.or_none, appliesToTempBuffer]
    refine lastWrite_map encodeKey _ slot fun other hother hkey => ?_
    obtain ⟨e, he, rfl⟩ := List.mem_map.1 hother
    rw [← Stack.decodeKey_encodeKey (hlow e he), hkey, Stack.decodeKey_encodeKey hslot]
  rw [storage, TwoLevelCache.read_fst, if_neg (Nat.not_lt.2 h.visible), hfind]

/-- The overlay agrees with its backend at a slot exactly when the slot is not cleared while the
cache holds a value for it. -/
theorem Captured.agrees_iff {deleteEmpty : Bool} {effects : List Apply} {o : Overlay}
    (h : Captured deleteEmpty effects o) (hlow : Stack.LowSlots effects) {slot : Slot}
    (hslot : slot.2.toNat < 2 ^ 96) :
    o.storage slot = o.inner.storage slot.1 slot.2 ↔
      (Cleared deleteEmpty effects slot →
        ∀ v, lastWrite (slotWrites effects) slot = some v → v = 0#256) := by
  obtain ⟨hzero, hlast⟩ := MemoryBackend.storage_apply_empty deleteEmpty effects slot
  rw [h.storage_eq hlow hslot, h.inner]
  by_cases hcleared : Cleared deleteEmpty effects slot
  · rw [hzero hcleared, forall_prop_of_true hcleared]
    cases lastWrite (slotWrites effects) slot <;> simp
  · rw [hlast hcleared, forall_prop_of_false hcleared, iff_true]
    cases lastWrite (slotWrites effects) slot <;> rfl

/-- **Captured effects carry the same storage meaning** as applying them, after each batch and for
all slots whose upper 20 bytes are zero, exactly when no slot is cleared by a deletion, a reset or
the removal of its empty account while the cache holds a value for it. -/
theorem capture_agrees_iff (deleteEmpty : Bool)
    (maxRecords l1CapacityBytes l2CapacityBytes : Nat) {batches : List (List Apply)}
    (hlow : ∀ batch ∈ batches, Stack.LowSlots batch) :
    (∀ n (slot : Slot), slot.2.toNat < 2 ^ 96 →
      let o := capture deleteEmpty maxRecords l1CapacityBytes l2CapacityBytes (batches.take n)
      o.storage slot = o.inner.storage slot.1 slot.2) ↔
    ∀ n (slot : Slot), slot.2.toNat < 2 ^ 96 →
      Cleared deleteEmpty (batches.take n).flatten slot →
        ∀ v, lastWrite (slotWrites (batches.take n).flatten) slot = some v → v = 0#256 := by
  refine forall_congr' fun n => forall_congr' fun slot => forall_congr' fun hslot => ?_
  refine (captured deleteEmpty maxRecords l1CapacityBytes l2CapacityBytes _).agrees_iff ?_ hslot
  intro e he
  obtain ⟨x, hx, he⟩ := List.mem_flatMap.1 he
  obtain ⟨batch, hbatch, hx⟩ := List.mem_flatten.1 hx
  exact hlow batch (List.mem_of_mem_take hbatch) e (List.mem_flatMap.2 ⟨x, hx, he⟩)

end Overlay

namespace CaptureFixture

/-- A batch that writes the slot `5` of the contract `1`. -/
def writeSlots : List Apply := [.modify 1 ⟨0, 1⟩ none [(5, 7)] false]

theorem lowSlots_of_five {batch : List Apply} (h : ∀ e ∈ slotWrites batch, e.1 = (1, 5)) :
    Stack.LowSlots batch := by
  intro e he
  rw [h e he]
  decide

/-- The overlay and the backend agree after the writes of the fixture. -/
theorem capture_agrees_writeSlots :
    (Overlay.capture false 128 1024 1024 ([writeSlots].take 1)).storage (1, 5) =
      (Overlay.capture false 128 1024 1024 ([writeSlots].take 1)).inner.storage 1 5 := by
  have hlow : ∀ batch ∈ [writeSlots], Stack.LowSlots batch := by
    intro batch hbatch
    rw [List.mem_singleton.1 hbatch]
    exact lowSlots_of_five fun e he => congrArg Prod.fst (List.mem_singleton.1 he)
  refine (Overlay.capture_agrees_iff false 128 1024 1024 hlow).2 (fun n slot _ hcleared => ?_) 1
    (1, 5) (by decide)
  obtain ⟨before, x, after, heq, hclears, -⟩ := hcleared
  have hx : x ∈ [writeSlots].flatten :=
    ((List.take_sublist n _).flatten).subset (heq ▸ List.mem_append_right _ List.mem_cons_self)
  rw [List.mem_singleton.1 hx] at hclears
  simp [Apply.ClearsSlot] at hclears

/-- The deleted contract has no slots in the backend, but the overlay still answers with the cached
value. -/
theorem capture_keeps_deleted :
    (∀ batch ∈ [writeSlots, [.delete 1]], Stack.LowSlots batch) ∧
      (Overlay.capture false 128 1024 1024 [writeSlots, [.delete 1]]).storage (1, 5) = 7 ∧
      (Overlay.capture false 128 1024 1024 [writeSlots, [.delete 1]]).inner.storage 1 5 = 0 := by
  refine ⟨fun batch hbatch => lowSlots_of_five ?_, by decide, by decide⟩
  rcases List.mem_cons.1 hbatch with rfl | hbatch
  · exact fun e he => congrArg Prod.fst (List.mem_singleton.1 he)
  · rw [List.mem_singleton.1 hbatch]
    exact fun e he => nomatch he

end CaptureFixture

end EvBlp

end Chase
