import Chase.Evm.Executor
import Chase.Evm.SlotBackend

/-!
# What the recorded write set covers

The write set of a simulation is filled by the handler's `set_storage`, and by nothing else. It
stands outside of the stack of substates, so a substate that is dropped leaves its slots recorded,
and every slot that some substate holds is a recorded one (`Recorded`). The effects of `deconstruct`
change a slot in two ways: a storage entry of the root writes it, and then it is recorded, or the
account is deleted, reset or removed as empty, which clears all of its slots and records none. So
the write set covers the changed slots exactly when it covers those that are cleared with a value in
them (`covers_iff_clears`).
-/

namespace Chase

open Function LastWrite

namespace AccessMap

/-- The slots of an entry and of the rest of the map. -/
theorem mem_slots_cons {m : AccessMap} {a : H160} {entries : List (H256 × H256)} {slot : Slot} :
    slot ∈ AccessMap.slots ((a, entries) :: m) ↔
      slot.1 = a ∧ slot.2 ∈ entries.map (·.1) ∨ slot ∈ m.slots := by
  rw [slots, List.flatMap_cons, List.mem_append, ← slots, List.mem_map, List.mem_map]
  refine or_congr_left ⟨?_, ?_⟩
  · rintro ⟨e, he, rfl⟩
    exact ⟨rfl, e, he, rfl⟩
  · rintro ⟨rfl, e, he, hkey⟩
    exact ⟨e, he, Prod.ext rfl hkey⟩

/-- A recorded access adds its slot. -/
theorem mem_slots_record {m : AccessMap} {a : H160} {key value : H256} {slot : Slot} :
    slot ∈ (m.record a key value).slots ↔ slot = (a, key) ∨ slot ∈ m.slots := by
  have hslot : slot = (a, key) ↔ slot.1 = a ∧ slot.2 = key := Prod.ext_iff
  have hnew : ∀ m' : AccessMap, slot ∈ AccessMap.slots ((a, [(key, value)]) :: m') ↔
      slot = (a, key) ∨ slot ∈ m'.slots := by
    intro m'
    rw [mem_slots_cons, hslot, List.map_singleton, List.mem_singleton]
  induction m with
  | nil => exact hnew []
  | cons c m ih =>
    obtain ⟨a', entries⟩ := c
    rw [record]
    split
    · rename_i ha
      subst ha
      rw [mem_slots_cons, mem_slots_cons, AssocMap.mem_keys_insert, hslot, and_or_left, or_assoc]
    · split
      · exact hnew _
      · rw [mem_slots_cons, mem_slots_cons]
        exact (or_congr_right ih).trans or_left_comm

end AccessMap

/-! ## Operations on the stack -/

/-- What may happen on the stack: the operations of the handler, and the parts of `call_inner` and
`create_inner` on their own. -/
inductive StackOp where
  | handler (op : HandlerOp)
  /-- `enter_substate`. -/
  | enter
  /-- `reset_storage`. -/
  | resetStorage (a : H160)
  deriving DecidableEq, Repr

namespace StackExecutor

variable (createIncreaseNonce : Bool) (backend : State)

/-- One operation on the stack. -/
def stackStep (e : StackExecutor) : StackOp → Option StackExecutor
  | .handler op => e.step createIncreaseNonce backend op
  | .enter => some { e with state := e.state.enter }
  | .resetStorage a => some { e with state := e.state.resetStorage backend a }

/-- Operations on the stack, one after the other. -/
def stackRun : StackExecutor → List StackOp → Option StackExecutor
  | e, [] => some e
  | e, op :: ops => (e.stackStep createIncreaseNonce backend op).bind fun e => stackRun e ops

end StackExecutor

/-! ## The slots of the frames are recorded -/

/-- Every slot that the frames hold is one of the given ones. -/
def Recorded (slots : List Slot) (frames : List Substate) : Prop :=
  ∀ f ∈ frames, ∀ e ∈ f.storages, e.1 ∈ slots

namespace Recorded

open MemoryStackState

variable {backend : State} {slots : List Slot} {st : MemoryStackState} {f f' : Substate}
  {frames : List Substate} {a : H160}

theorem cons_iff : Recorded slots (f :: frames) ↔
    (∀ e ∈ f.storages, e.1 ∈ slots) ∧ Recorded slots frames :=
  List.forall_mem_cons

/-- A change of the current frame that adds no slot. -/
theorem of_subset (h : Recorded slots (f :: frames)) (hsub : f'.storages ⊆ f.storages) :
    Recorded slots (f' :: frames) := by
  rw [cons_iff] at h ⊢
  exact ⟨fun e he => h.1 e (hsub he), h.2⟩

theorem setAccount (h : Recorded slots st.frames) (g : MemoryStackAccount → MemoryStackAccount) :
    Recorded slots (st.setAccount backend a g).frames :=
  h.of_subset (List.Subset.refl _)

theorem resetStorage (h : Recorded slots st.frames) :
    Recorded slots (st.resetStorage backend a).frames :=
  h.of_subset (List.filter_subset_self _)

/-- A new nonce writes no slot. -/
theorem incNonce (h : Recorded slots st.frames) :
    Recorded slots (st.incNonce backend a).2.frames := by
  rw [MemoryStackState.incNonce]
  split
  · exact h.setAccount id
  · exact h.setAccount _

/-- A transfer writes no slot. -/
theorem transfer (h : Recorded slots st.frames) (t : Transfer) :
    Recorded slots (st.transfer backend t).2.frames := by
  rw [MemoryStackState.transfer]
  split
  · exact h.setAccount id
  · exact (h.setAccount _).setAccount _

/-- A new frame holds no slot. -/
theorem enter (h : Recorded slots st.frames) : Recorded slots st.enter.frames :=
  cons_iff.2 ⟨fun _ he => (by cases he), h⟩

/-- The merged frame has the slots of the two. -/
theorem swallow (h : Recorded slots (f :: f' :: frames)) :
    Recorded slots (MemoryStackState.swallow f' f :: frames) := by
  rw [cons_iff, cons_iff] at h
  refine cons_iff.2 ⟨fun e he => ?_, h.2.2⟩
  rcases List.mem_append.1 he with he | he
  · exact h.1 e he
  · exact h.2.1 e (List.mem_of_mem_filter (List.mem_of_mem_filter he))

variable {createIncreaseNonce : Bool} {e e' : StackExecutor}

/-- A deletion writes no slot. -/
theorem markDelete (h : Recorded slots e.state.frames) (address target : H160) :
    Recorded slots (e.markDelete backend address target).state.frames := by
  have htransfer : Recorded slots
      (e.state.transfer backend ⟨address, target, e.balance backend address⟩).2.frames :=
    h.transfer _
  rw [StackExecutor.markDelete]
  split
  · rename_i hst
    rwa [hst] at htransfer
  · rename_i hst
    rw [hst] at htransfer
    exact htransfer.of_subset (List.Subset.refl _)

/-- A call writes no slot. -/
theorem callInner (h : Recorded slots e.state.frames) (address : H160) (t : Option Transfer) :
    Recorded slots (e.callInner backend address t).2.state.frames := by
  have htouch : Recorded slots (e.state.enter.touch backend address).frames := h.enter.setAccount id
  cases t with
  | none => exact htouch
  | some t =>
    have htransfer : Recorded slots
        ((e.state.enter.touch backend address).transfer backend t).2.frames := htouch.transfer t
    dsimp only [StackExecutor.callInner]
    split
    · rename_i hst
      rwa [hst] at htransfer
    · exact h

/-- A creation writes no slot, in its new frame. -/
theorem createIn (h : Recorded slots e.state.frames) (caller address : H160) (value : U256) :
    Recorded slots
      (e.createIn createIncreaseNonce backend caller address value).2.frames := by
  have htransfer : Recorded slots ((e.state.enter.resetStorage backend address).transfer backend
      ⟨caller, address, value⟩).2.frames := h.enter.resetStorage.transfer _
  dsimp only [StackExecutor.createIn]
  split
  · exact h
  · split
    · exact h
    · rename_i hst
      rw [hst] at htransfer
      split
      · exact htransfer.incNonce
      · exact htransfer

/-- A creation writes no slot. -/
theorem createInner (h : Recorded slots e.state.frames) (caller address : H160) (value : U256) :
    Recorded slots
      (e.createInner createIncreaseNonce backend caller address value).2.state.frames := by
  have hnonce : Recorded slots (e.state.incNonce backend caller).2.frames := h.incNonce
  rw [StackExecutor.createInner]
  split
  · exact h
  · split
    · rename_i hst
      rwa [hst] at hnonce
    · rename_i st hst
      rw [hst] at hnonce
      exact createIn (e := { e with state := st }) hnonce caller address value

/-- The exit from a frame moves slots to the frame below or drops them. -/
theorem exitSubstate (h : Recorded slots e.state.frames) {kind : StackExitKind}
    (he : e.exitSubstate kind = some e') : Recorded slots e'.state.frames := by
  obtain ⟨st, hst, rfl⟩ := Option.map_eq_some_iff.1 he
  obtain ⟨⟨current, parents⟩, rwSet⟩ := e
  cases parents with
  | nil => cases kind <;> cases hst
  | cons parent parents =>
    cases kind with
    | succeeded =>
      cases hst
      exact h.swallow
    | reverted | failed =>
      cases hst
      exact (cons_iff.1 h).2

end Recorded

namespace StackExecutor

variable {createIncreaseNonce : Bool} {backend : State} {e e' : StackExecutor}

/-- The slots of the recorded write set. -/
def writes (e : StackExecutor) : List Slot := e.rwSet.writeSet.slots

/-- A deletion records no write. -/
theorem markDelete_writes (address target : H160) :
    (e.markDelete backend address target).writes = e.writes := by
  rw [markDelete]
  split <;> rfl

/-- A call records no write. -/
theorem callInner_writes (address : H160) (t : Option Transfer) :
    (e.callInner backend address t).2.writes = e.writes := by
  cases t with
  | none => rfl
  | some t =>
    dsimp only [callInner]
    split <;> rfl

/-- A creation records no write. -/
theorem createInner_writes (caller address : H160) (value : U256) :
    (e.createInner createIncreaseNonce backend caller address value).2.writes = e.writes := by
  rw [createInner]
  split
  · rfl
  · split <;> rfl

theorem exitSubstate_writes {kind : StackExitKind} (he : e.exitSubstate kind = some e') :
    e'.writes = e.writes := by
  obtain ⟨st, -, rfl⟩ := Option.map_eq_some_iff.1 he
  rfl

/-- A written slot is recorded with the entry that holds it. -/
theorem setStorage_recorded (h : Recorded e.writes e.state.frames) (slot : Slot) (value : H256) :
    Recorded (e.setStorage slot value).writes (e.setStorage slot value).state.frames := by
  have hsub : ∀ other ∈ e.writes, other ∈ (e.setStorage slot value).writes := fun _ hother =>
    AccessMap.mem_slots_record.2 (.inr hother)
  obtain ⟨hcurrent, hparents⟩ := Recorded.cons_iff.1 h
  refine Recorded.cons_iff.2 ⟨fun entry hentry => ?_, fun f hf entry hentry =>
    hsub _ (hparents f hf entry hentry)⟩
  rcases List.mem_cons.1 hentry with rfl | hentry
  · exact AccessMap.mem_slots_record.2 (.inl rfl)
  · exact hsub _ (hcurrent entry (List.mem_of_mem_filter hentry))

/-- A step of the handler writes only slots that it records. -/
theorem step_recorded {op : HandlerOp} (h : Recorded e.writes e.state.frames)
    (he : e.step createIncreaseNonce backend op = some e') :
    Recorded e'.writes e'.state.frames := by
  cases op with
  | storage slot | originalStorage slot =>
    cases he
    exact h
  | log l =>
    cases he
    exact h.of_subset (List.Subset.refl _)
  | setStorage slot value =>
    cases he
    exact setStorage_recorded h slot value
  | markDelete address target =>
    cases he
    rw [markDelete_writes]
    exact h.markDelete address target
  | call address t =>
    cases he
    rw [callInner_writes]
    exact h.callInner address t
  | create caller address value =>
    cases he
    rw [createInner_writes]
    exact h.createInner caller address value
  | exit kind =>
    rw [exitSubstate_writes he]
    exact h.exitSubstate he
  | deploy address code =>
    obtain ⟨e₁, he₁, rfl⟩ := Option.map_eq_some_iff.1 he
    have hwrites : e₁.writes = e.writes := exitSubstate_writes he₁
    exact (hwrites ▸ h.exitSubstate he₁).setAccount _

/-- A step of the stack writes only slots that it records. -/
theorem stackStep_recorded {op : StackOp} (h : Recorded e.writes e.state.frames)
    (he : e.stackStep createIncreaseNonce backend op = some e') :
    Recorded e'.writes e'.state.frames := by
  cases op with
  | handler op => exact step_recorded h he
  | enter =>
    cases he
    exact h.enter
  | resetStorage a =>
    cases he
    exact h.resetStorage

/-- Along a run every slot that a substate holds has been recorded. -/
theorem stackRun_recorded {ops : List StackOp} (h : Recorded e.writes e.state.frames)
    (he : e.stackRun createIncreaseNonce backend ops = some e') :
    Recorded e'.writes e'.state.frames := by
  induction ops generalizing e with
  | nil =>
    cases he
    exact h
  | cons op ops ih =>
    obtain ⟨e₁, hstep, hrest⟩ := Option.bind_eq_some_iff.1 he
    exact ih (stackStep_recorded h hstep) hrest

end StackExecutor

theorem Recorded.start :
    Recorded ({} : StackExecutor).writes ({} : StackExecutor).state.frames :=
  cons_iff.2 ⟨fun _ h => (by cases h), fun _ h => (by cases h)⟩

/-! ## The effects of the root, applied -/

section Deconstruct

variable {deleteEmpty : Bool} {backend : State} {st : MemoryStackState}

/-- What an effect does to its account depends on that account only. -/
theorem MemoryBackend.applyOne_congr {s s' : State} {x : Apply} {a : H160} (hx : x.address = a)
    (h : s a = s' a) :
    MemoryBackend.applyOne deleteEmpty s x a = MemoryBackend.applyOne deleteEmpty s' x a := by
  subst hx
  cases x with
  | delete a => simp only [MemoryBackend.applyOne, Apply.address, update_self]
  | modify a basic code storage resetStorage =>
    dsimp only [Apply.address] at h ⊢
    dsimp only [MemoryBackend.applyOne]
    rw [h]
    split
    · rw [update_self, update_self]
    · rw [update_self, update_self]

/-- Effects on different accounts are independent of each other. -/
theorem MemoryBackend.apply_map {g : H160 → Apply} (hg : ∀ a, (g a).address = a) {l : List H160}
    (hl : l.Nodup) (s : State) (a : H160) :
    MemoryBackend.apply s (l.map g) deleteEmpty a =
      if a ∈ l then MemoryBackend.applyOne deleteEmpty s (g a) a else s a := by
  induction l generalizing s with
  | nil => rfl
  | cons b l ih =>
    obtain ⟨hb, hl⟩ := List.nodup_cons.1 hl
    rw [MemoryBackend.apply, List.map_cons, List.foldl_cons, ← MemoryBackend.apply, ih hl]
    by_cases hab : a = b
    · subst hab
      rw [if_neg hb, if_pos List.mem_cons_self]
    · have hother : MemoryBackend.applyOne deleteEmpty s (g b) a = s a :=
        MemoryBackend.applyOne_of_ne s (by rw [hg]; exact Ne.symm hab)
      rw [MemoryBackend.applyOne_congr (hg a) hother, hother]
      simp only [List.mem_cons, hab, false_or]

/-- The deletions of the effects delete the accounts of the list. -/
theorem MemoryBackend.apply_delete (l : List H160) (s : State) (a : H160) :
    MemoryBackend.apply s (l.map .delete) deleteEmpty a = if a ∈ l then none else s a := by
  induction l generalizing s with
  | nil => rfl
  | cons b l ih =>
    rw [MemoryBackend.apply, List.map_cons, List.foldl_cons, ← MemoryBackend.apply, ih,
      MemoryBackend.applyOne]
    by_cases hab : a = b
    · subst hab
      rw [update_self, if_pos List.mem_cons_self]
      split <;> rfl
    · rw [update_of_ne hab]
      simp only [List.mem_cons, hab, false_or]

theorem MemoryStackState.addresses_nodup : st.addresses.Nodup :=
  (List.perm_insertionSort _ _).nodup_iff.2 (List.nodup_dedup _)

/-- The account that the effects of the root leave at an address. -/
theorem MemoryBackend.apply_deconstruct (a : H160) :
    MemoryBackend.apply backend (st.deconstruct backend) deleteEmpty a =
      if a ∈ st.substate.deletes then none
      else if a ∈ st.addresses then
        MemoryBackend.applyOne deleteEmpty backend (st.modifyOf backend a) a
      else backend a := by
  rw [MemoryStackState.deconstruct, MemoryBackend.apply, List.foldl_append, ← MemoryBackend.apply,
    ← MemoryBackend.apply, MemoryBackend.apply_delete,
    MemoryBackend.apply_map (fun _ => rfl) (MemoryStackState.addresses_nodup.filter _)]
  by_cases hdeletes : a ∈ st.substate.deletes
  · rw [if_pos hdeletes, if_pos ((List.mem_insertionSort _).2 hdeletes)]
  · rw [if_neg hdeletes, if_neg fun h => hdeletes ((List.mem_insertionSort _).1 h)]
    simp only [List.mem_filter, hdeletes, not_false_eq_true, decide_true, and_true]

/-- An account whose slots the effects of the root clear. -/
theorem MemoryStackState.clearsSlot_iff {slot : Slot} :
    (∃ x ∈ st.deconstruct backend, x.ClearsSlot deleteEmpty backend slot) ↔
      slot.1 ∈ st.substate.deletes ∨
        (slot.1 ∈ st.addresses ∧ slot.1 ∉ st.substate.deletes) ∧
          (st.modifyOf backend slot.1).ClearsSlot deleteEmpty backend slot := by
  simp only [deconstruct, List.mem_append, List.mem_map, List.mem_filter, decide_eq_true_eq,
    List.mem_insertionSort]
  constructor
  · rintro ⟨x, ⟨a, ha, rfl⟩ | ⟨a, ha, rfl⟩, hclears⟩
    · have haddr : a = slot.1 := hclears.1
      exact .inr ⟨haddr ▸ ha, haddr ▸ hclears⟩
    · have haddr : a = slot.1 := hclears
      exact .inl (haddr ▸ ha)
  · rintro (h | ⟨h, hclears⟩)
    · exact ⟨_, .inr ⟨slot.1, h, rfl⟩, rfl⟩
    · exact ⟨_, .inl ⟨slot.1, h, rfl⟩, hclears⟩

/-- A slot that the effects of the root clear is empty after them. -/
theorem MemoryBackend.storage_deconstruct_of_clears {slot : Slot}
    (h : ∃ x ∈ st.deconstruct backend, x.ClearsSlot deleteEmpty backend slot) :
    (MemoryBackend.apply backend (st.deconstruct backend) deleteEmpty).storage slot.1 slot.2 =
      0#256 := by
  rw [State.storage, MemoryBackend.apply_deconstruct]
  rcases MemoryStackState.clearsSlot_iff.1 h with hdeletes | ⟨⟨haddr, hdeletes⟩, hclears⟩
  · rw [if_pos hdeletes]
    rfl
  · rw [if_neg hdeletes, if_pos haddr]
    exact MemoryBackend.storage_applyOne_of_clears hclears

/-- A slot that the root does not hold has no entry in the storage of its account. -/
theorem MemoryStackState.not_mem_storageOf {slot : Slot}
    (hslot : ∀ e ∈ st.substate.storages, e.1 ≠ slot) :
    slot.2 ∉ (st.storageOf slot.1).map (·.1) := by
  intro hkey
  obtain ⟨written, hwritten, hkey⟩ := List.mem_map.1 hkey
  obtain ⟨e, he, rfl⟩ := List.mem_map.1 ((List.mem_insertionSort _).1 hwritten)
  obtain ⟨hmem, ha⟩ := List.mem_filter.1 he
  exact hslot e hmem (Prod.ext (by simpa using ha) hkey)

/-- Another slot changes only when the root holds it. -/
theorem MemoryBackend.storage_deconstruct_of_not_clears {slot : Slot}
    (h : ¬∃ x ∈ st.deconstruct backend, x.ClearsSlot deleteEmpty backend slot)
    (hslot : ∀ e ∈ st.substate.storages, e.1 ≠ slot) :
    (MemoryBackend.apply backend (st.deconstruct backend) deleteEmpty).storage slot.1 slot.2 =
      backend.storage slot.1 slot.2 := by
  rw [MemoryStackState.clearsSlot_iff, not_or] at h
  obtain ⟨hdeletes, hmodify⟩ := h
  rw [State.storage, MemoryBackend.apply_deconstruct, if_neg hdeletes]
  by_cases haddr : slot.1 ∈ st.addresses
  · have hwrite : (st.modifyOf backend slot.1).writeOn slot = none := by
      rw [MemoryStackState.modifyOf, Apply.writeOn, if_pos rfl, lastWrite_eq_none_iff]
      exact st.not_mem_storageOf hslot
    rw [if_pos haddr]
    have hclears : ¬(st.modifyOf backend slot.1).ClearsSlot deleteEmpty backend slot :=
      fun hclears => hmodify ⟨⟨haddr, hdeletes⟩, hclears⟩
    have := MemoryBackend.storage_applyOne_of_not_clears hclears
    rwa [hwrite] at this
  · rw [if_neg haddr, State.storage]

end Deconstruct

/-- The recorded write set covers what the effects change on the backend exactly when it has every
slot that the effects clear, by deleting, resetting or removing the account, while the slot has a
value. -/
theorem covers_iff_clears (deleteEmpty createIncreaseNonce : Bool) (backend : State)
    (ops : List StackOp) {r : Simulated}
    (h : (StackExecutor.stackRun createIncreaseNonce backend {} ops).bind
      (StackExecutor.simulated backend) = some r) :
    (∀ slot : Slot,
      (MemoryBackend.apply backend r.effects deleteEmpty).storage slot.1 slot.2 ≠
        backend.storage slot.1 slot.2 → slot ∈ r.rwSet.writeSet.slots) ↔
    ∀ slot : Slot, (∃ x ∈ r.effects, x.ClearsSlot deleteEmpty backend slot) →
      backend.storage slot.1 slot.2 ≠ 0#256 → slot ∈ r.rwSet.writeSet.slots := by
  obtain ⟨e, hrun, hsim⟩ := Option.bind_eq_some_iff.1 h
  obtain rfl : ⟨e.state.deconstruct backend, e.state.substate.logs, e.rwSet⟩ = r := by
    rw [StackExecutor.simulated] at hsim
    split at hsim
    · exact Option.some.inj hsim
    · cases hsim
  have hrecorded := StackExecutor.stackRun_recorded Recorded.start hrun
  refine forall_congr' fun slot => ⟨fun h hclears hvalue => h ?_, fun h hchanged => ?_⟩
  · rw [MemoryBackend.storage_deconstruct_of_clears hclears]
    exact Ne.symm hvalue
  · by_cases hclears : ∃ x ∈ e.state.deconstruct backend, x.ClearsSlot deleteEmpty backend slot
    · refine h hclears fun hzero => hchanged ?_
      rw [MemoryBackend.storage_deconstruct_of_clears hclears, hzero]
    · by_contra hnot
      refine hchanged
        (MemoryBackend.storage_deconstruct_of_not_clears hclears fun entry hentry => ?_)
      rintro rfl
      exact hnot (hrecorded _ List.mem_cons_self entry hentry)

end Chase
