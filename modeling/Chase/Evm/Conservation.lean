import Chase.Evm.Executor
import Chase.Evm.Backend
import Chase.Lib.Snapshot
import Mathlib.Data.FinEnum
import Mathlib.Data.Fintype.BigOperators

/-!
# What one transaction does to balances and nonces

A simulated call keeps the sum of all balances and adds one to the nonce of its caller, as long as
its handler operations meet a condition (`HandlerOp.Ok`): no addition to a balance saturates,
nothing is paid to an account that is already deleted, no account destroys itself in its own favour,
and no account of a sender creates a contract, is created or is deleted. The invariant is one of
every frame of the stack (`FrameOk`), since any frame may become the current one when those above it
are dropped.

The effects of the transaction carry the basic information of the accounts that it touched
(`carried`), as absolute values, and `MemoryBackend::apply` overwrites the accounts with them.
-/

namespace Chase

open Function LastWrite Snapshot

/-- The sum of the balances of all accounts. -/
def totalBalance (f : H160 → Basic) : ℕ := ∑ a, (f a).balance.toNat

/-- The total balance changes by the balance of the account that is updated. -/
theorem totalBalance_update (f : H160 → Basic) (a : H160) (b : Basic) :
    totalBalance (update f a b) + (f a).balance.toNat = totalBalance f + b.balance.toNat :=
  total_update (fun b : Basic => b.balance.toNat) f a b

/-- A change that keeps the balance of the account keeps the sum. -/
theorem totalBalance_update_of_eq {f : H160 → Basic} {a : H160} {b : Basic}
    (h : b.balance = (f a).balance) : totalBalance (update f a b) = totalBalance f := by
  have := totalBalance_update f a b
  rw [h] at this
  omega

/-! ## The condition on a handler operation -/

section Ok

variable (senders : List H160) (createIncreaseNonce : Bool) (backend : State)

/-- A transfer does not saturate the balance of its target, and pays nothing to an account that is
deleted. -/
structure Transfer.Ok (frames : List Substate) (t : Transfer) : Prop where
  unsaturated : t.source ≠ t.target → t.value ≤ (basicIn backend frames t.source).balance →
    (basicIn backend frames t.target).balance.toNat + t.value.toNat < 2 ^ 256
  alive : deletedIn frames t.target → t.value = 0#256

/-- The condition on a handler operation, on the frames that it meets. -/
def HandlerOp.Ok (frames : List Substate) : HandlerOp → Prop
  | .call _ (some t) => t.Ok backend frames
  | .create caller address value =>
    caller ∉ senders ∧ address ∉ senders ∧ Transfer.Ok backend frames ⟨caller, address, value⟩
  | .markDelete address target =>
    address ∉ senders ∧ (address = target → (basicIn backend frames address).balance = 0#256) ∧
      Transfer.Ok backend frames ⟨address, target, (basicIn backend frames address).balance⟩
  | _ => True

/-- Every operation of a run meets the condition. -/
def OpsOk : StackExecutor → List HandlerOp → Prop
  | _, [] => True
  | e, op :: ops =>
    op.Ok senders backend e.state.frames ∧
      ∀ e', e.step createIncreaseNonce backend op = some e' → OpsOk e' ops

end Ok

/-! ## The invariant of the frames -/

section Invariant

variable (senders : List H160) (caller : H160) (backend : State)

/-- The accounts, as the frames show them, have the balances of the backend in sum, and the nonces
of the backend but for the caller. -/
structure FrameOk (frames : List Substate) : Prop where
  total : totalBalance (basicIn backend frames) = totalBalance backend.basic
  nonce : ∀ a ∈ senders, (basicIn backend frames a).nonce.toNat =
    (backend.basic a).nonce.toNat + if a = caller then 1 else 0
  deleted : ∀ a, deletedIn frames a → (basicIn backend frames a).balance = 0#256 ∧ a ∉ senders

/-- The invariant of every frame of the stack. -/
def StackOk : List Substate → Prop
  | [] => True
  | f :: fs => FrameOk senders caller backend (f :: fs) ∧ StackOk fs

end Invariant

variable {senders : List H160} {createIncreaseNonce : Bool} {caller : H160} {backend : State}
  {frames frames' : List Substate} {st : MemoryStackState} {a : H160}

/-- A transfer stays possible when the balances stay and no account is newly deleted. -/
theorem Transfer.Ok.of_eq {t : Transfer} (h : t.Ok backend frames)
    (hb : ∀ a, (basicIn backend frames' a).balance = (basicIn backend frames a).balance)
    (hd : ∀ a, deletedIn frames' a → deletedIn frames a) : t.Ok backend frames' := by
  refine ⟨?_, fun h' => h.alive (hd _ h')⟩
  rw [hb, hb]
  exact h.unsaturated

/-- The invariant of a frame depends on the accounts and the deletions only. -/
theorem FrameOk.of_eq (h : FrameOk senders caller backend frames)
    (hb : basicIn backend frames' = basicIn backend frames)
    (hd : ∀ a, deletedIn frames' a → deletedIn frames a) :
    FrameOk senders caller backend frames' := by
  refine ⟨?_, ?_, fun a ha => ?_⟩
  · rw [hb]
    exact h.total
  · rw [hb]
    exact h.nonce
  · rw [hb]
    exact h.deleted a (hd a ha)

/-- A change of one account that keeps its balance, and its nonce if it is a sender. -/
theorem FrameOk.of_update (h : FrameOk senders caller backend frames) {b : Basic}
    (hb : basicIn backend frames' = update (basicIn backend frames) a b)
    (hbalance : b.balance = (basicIn backend frames a).balance)
    (hnonce : a ∈ senders → b.nonce = (basicIn backend frames a).nonce)
    (hd : ∀ a, deletedIn frames' a → deletedIn frames a) :
    FrameOk senders caller backend frames' := by
  have hbalances : ∀ a', (basicIn backend frames' a').balance =
      (basicIn backend frames a').balance := by
    intro a'
    rw [hb]
    by_cases h' : a' = a
    · subst h'
      rw [update_self, hbalance]
    · rw [update_of_ne h']
  refine ⟨?_, fun a' ha' => ?_, fun a' ha' => ?_⟩
  · rw [hb, totalBalance_update_of_eq hbalance]
    exact h.total
  · rw [← h.nonce a' ha', hb]
    by_cases h' : a' = a
    · subst h'
      rw [update_self, hnonce ha']
    · rw [update_of_ne h']
  · rw [hbalances]
    exact h.deleted a' (hd a' ha')

/-! ## The operations on the current frame -/

theorem deletedIn_setAccount (f : MemoryStackAccount → MemoryStackAccount) (a' : H160) :
    deletedIn (st.setAccount backend a f).frames a' ↔ deletedIn st.frames a' :=
  deletedIn_cons_congr rfl

/-- A change of the current frame that leaves its accounts and its deleted addresses. -/
theorem FrameOk.of_substate (h : FrameOk senders caller backend st.frames) {f : Substate}
    (ha : f.accounts = st.substate.accounts) (hd : f.deletes = st.substate.deletes) :
    FrameOk senders caller backend (f :: st.parents) := by
  refine h.of_eq (funext fun a => basicIn_of_knownAccount ?_) fun a => (deletedIn_cons_congr hd).1
  rw [knownAccount_cons, ha, MemoryStackState.frames, knownAccount_cons]

/-- An update of the code or of the storage of an account keeps the invariant. -/
theorem FrameOk.setAccount (h : FrameOk senders caller backend st.frames)
    {f : MemoryStackAccount → MemoryStackAccount} (hf : ∀ v, (f v).basic = v.basic) (a : H160) :
    FrameOk senders caller backend (st.setAccount backend a f).frames :=
  h.of_eq (MemoryStackState.basicIn_setAccount_of_basic hf)
    fun a' => (deletedIn_setAccount f a').1

/-- A new nonce of an account that is no sender keeps the invariant. -/
theorem FrameOk.incNonce (h : FrameOk senders caller backend st.frames) (ha : a ∉ senders) :
    FrameOk senders caller backend (st.incNonce backend a).2.frames := by
  rw [MemoryStackState.incNonce]
  split
  · exact h.setAccount (fun _ => rfl) a
  · refine h.of_update (MemoryStackState.basicIn_setAccount _) ?_ (fun h' => absurd h' ha)
      fun a' => (deletedIn_setAccount _ a').1
    rw [← MemoryStackState.account_basic]

theorem deletedIn_resetStorage (a' : H160) :
    deletedIn (st.resetStorage backend a).frames a' ↔ deletedIn st.frames a' :=
  deletedIn_cons_congr rfl

/-- The accounts without what a transfer takes. -/
def Transfer.debited (t : Transfer) (f : H160 → Basic) : H160 → Basic :=
  update f t.source { f t.source with balance := (f t.source).balance - t.value }

/-- The accounts after a transfer. -/
def Transfer.moved (t : Transfer) (f : H160 → Basic) : H160 → Basic :=
  update (t.debited f) t.target { t.debited f t.target with
    balance := saturatingAdd (t.debited f t.target).balance t.value }

/-- A transfer that is made moves its value. -/
theorem basicIn_transfer {t : Transfer} {st' : MemoryStackState}
    (h : st.transfer backend t = (true, st')) :
    t.value ≤ (basicIn backend st.frames t.source).balance ∧
      basicIn backend st'.frames = t.moved (basicIn backend st.frames) := by
  rw [MemoryStackState.transfer] at h
  split at h
  · cases h
  · rename_i hle
    rw [MemoryStackState.account_basic, BitVec.not_lt] at hle
    cases h
    refine ⟨hle, ?_⟩
    rw [MemoryStackState.basicIn_setAccount, MemoryStackState.account_basic,
      MemoryStackState.basicIn_setAccount, MemoryStackState.account_basic]
    rfl

/-- A transfer deletes no account. -/
theorem transfer_deletes {t : Transfer} {st' : MemoryStackState}
    (h : st.transfer backend t = (true, st')) (a : H160) :
    deletedIn st'.frames a ↔ deletedIn st.frames a := by
  rw [MemoryStackState.transfer] at h
  split at h
  · cases h
  · cases h
    rw [deletedIn_setAccount, deletedIn_setAccount]

/-- A transfer does not touch the frames below. -/
theorem transfer_parents {t : Transfer} {ok : Bool} {st' : MemoryStackState}
    (h : st.transfer backend t = (ok, st')) : st'.parents = st.parents := by
  rw [MemoryStackState.transfer] at h
  split at h <;> cases h <;> rfl

/-- A transfer that fails has touched the source only. -/
theorem transfer_false {t : Transfer} {st' : MemoryStackState}
    (h : st.transfer backend t = (false, st')) : st' = st.touch backend t.source := by
  rw [MemoryStackState.transfer] at h
  split at h <;> cases h
  rfl

theorem saturatingAdd_toNat {x y : U256} (h : x.toNat + y.toNat < 2 ^ 256) :
    (saturatingAdd x y).toNat = x.toNat + y.toNat := by
  rw [saturatingAdd, if_pos h, BitVec.toNat_add_of_lt h]

section

variable {t : Transfer} {f : H160 → Basic}

/-- A transfer keeps the sum of the balances. -/
theorem totalBalance_moved (hle : t.value ≤ (f t.source).balance)
    (hsat : t.source ≠ t.target → (f t.target).balance.toNat + t.value.toNat < 2 ^ 256) :
    totalBalance (t.moved f) = totalBalance f := by
  have hdebit : totalBalance (t.debited f) + _ = _ := totalBalance_update f t.source _
  have hcredit : totalBalance (t.moved f) + _ = _ := totalBalance_update (t.debited f) t.target _
  have hvalue : ((f t.source).balance - t.value).toNat =
      (f t.source).balance.toNat - t.value.toNat := BitVec.toNat_sub_of_le hle
  have hle' : t.value.toNat ≤ (f t.source).balance.toNat := hle
  have hlt : (t.debited f t.target).balance.toNat + t.value.toNat < 2 ^ 256 := by
    rw [Transfer.debited]
    by_cases hst : t.source = t.target
    · rw [← hst, update_self, hvalue]
      have := (f t.source).balance.isLt
      omega
    · rw [update_of_ne (Ne.symm hst)]
      exact hsat hst
  rw [saturatingAdd_toNat hlt] at hcredit
  rw [hvalue] at hdebit
  omega

/-- A transfer keeps the nonces. -/
theorem nonce_moved (t : Transfer) (f : H160 → Basic) (a : H160) :
    (t.moved f a).nonce = (f a).nonce := by
  have hnonce : (t.debited f a).nonce = (f a).nonce := by
    rw [Transfer.debited]
    by_cases h : a = t.source
    · rw [h, update_self]
    · rw [update_of_ne h]
  rw [Transfer.moved]
  by_cases h : a = t.target
  · rw [h, update_self, ← h]
    exact hnonce
  · rw [update_of_ne h, hnonce]

/-- An account without balance that a transfer gives nothing has none afterwards. -/
theorem balance_moved_of_zero (hle : t.value ≤ (f t.source).balance) (ha : (f a).balance = 0#256)
    (hzero : a = t.target → t.value = 0#256) : (t.moved f a).balance = 0#256 := by
  have hbalance : (t.debited f a).balance = 0#256 := by
    rw [Transfer.debited]
    by_cases h : a = t.source
    · subst h
      rw [ha] at hle ⊢
      have hv : t.value = 0#256 := BitVec.le_zero_iff.1 hle
      rw [update_self, hv]
      rfl
    · rw [update_of_ne h, ha]
  rw [Transfer.moved]
  by_cases h : a = t.target
  · have hv := hzero h
    subst h
    rw [update_self, hbalance, hv]
    rfl
  · rw [update_of_ne h, hbalance]

end

/-- A transfer between accounts that are not deleted keeps the total. -/
theorem FrameOk.transfer (h : FrameOk senders caller backend st.frames) {t : Transfer}
    {st' : MemoryStackState} (hok : t.Ok backend st.frames)
    (ht : st.transfer backend t = (true, st')) : FrameOk senders caller backend st'.frames := by
  obtain ⟨hle, hb⟩ := basicIn_transfer ht
  refine ⟨?_, fun a ha => ?_, fun a ha => ?_⟩
  · rw [hb, totalBalance_moved hle fun hne => hok.unsaturated hne hle]
    exact h.total
  · rw [hb, nonce_moved]
    exact h.nonce a ha
  · obtain ⟨hzero, hsender⟩ := h.deleted a ((transfer_deletes ht a).1 ha)
    refine ⟨?_, hsender⟩
    rw [hb]
    refine balance_moved_of_zero hle hzero fun ht' => hok.alive ?_
    rw [← ht']
    exact (transfer_deletes ht a).1 ha

/-! ## The handler operations -/

variable {e e' : StackExecutor}

theorem basicIn_touch : basicIn backend (st.touch backend a).frames = basicIn backend st.frames :=
  MemoryStackState.basicIn_setAccount_of_basic fun _ => rfl

/-- A new frame deletes no account. -/
theorem deletedIn_enter : deletedIn st.enter.frames a ↔ deletedIn st.frames a := by
  rw [MemoryStackState.frames, deletedIn_cons]
  constructor
  · rintro (ha | ha)
    · cases ha
    · exact ha
  · exact Or.inr

theorem FrameOk.enter (h : FrameOk senders caller backend st.frames) :
    FrameOk senders caller backend st.enter.frames :=
  h.of_eq MemoryStackState.basicIn_enter fun _ => deletedIn_enter.1

/-- The account of a self-destruct has no balance left after the transfer. -/
theorem balance_of_markDelete {address target : H160}
    (hself : address = target → (basicIn backend st.frames address).balance = 0#256)
    {st' : MemoryStackState}
    (ht : st.transfer backend
      ⟨address, target, (basicIn backend st.frames address).balance⟩ = (true, st')) :
    (basicIn backend st'.frames address).balance = 0#256 := by
  obtain ⟨hle, hb⟩ := basicIn_transfer ht
  rw [hb]
  by_cases h : address = target
  · exact balance_moved_of_zero hle (hself h) fun _ => hself h
  · rw [Transfer.moved, update_of_ne h, Transfer.debited, update_self]
    exact BitVec.sub_self _

/-- A deletion moves the balance to the target, so the total stays. -/
theorem FrameOk.markDelete {address target : H160}
    (h : FrameOk senders caller backend e.state.frames)
    (hok : (HandlerOp.markDelete address target).Ok senders backend e.state.frames) :
    FrameOk senders caller backend (e.markDelete backend address target).state.frames := by
  obtain ⟨hsender, hself, htransfer⟩ := hok
  rw [StackExecutor.markDelete]
  split
  · rename_i st' ht
    rw [transfer_false ht]
    exact h.setAccount (fun _ => rfl) _
  · rename_i st' ht
    have hzero := balance_of_markDelete hself ht
    have hreset : FrameOk senders caller backend (st'.resetBalance backend address).frames := by
      refine (h.transfer htransfer ht).of_update (MemoryStackState.basicIn_setAccount _) hzero.symm
        (fun _ => ?_) fun a => (deletedIn_setAccount _ a).1
      rw [MemoryStackState.account_basic]
    refine ⟨hreset.total, hreset.nonce, fun a ha => ?_⟩
    rw [MemoryStackState.frames, deletedIn_cons, MemoryStackState.mem_setDeleted] at ha
    rcases ha with (rfl | ha) | ha
    · refine ⟨?_, hsender⟩
      have : basicIn backend ((st'.resetBalance backend a).setDeleted a).frames =
          basicIn backend (st'.resetBalance backend a).frames := rfl
      rw [this, MemoryStackState.resetBalance, MemoryStackState.basicIn_setAccount, update_self]
    · exact hreset.deleted a (deletedIn_cons.2 (.inl ha))
    · exact hreset.deleted a (deletedIn_cons.2 (.inr ha))

/-- A deletion does not touch the frames below. -/
theorem markDelete_parents (address target : H160) :
    (e.markDelete backend address target).state.parents = e.state.parents := by
  rw [StackExecutor.markDelete]
  split
  · rename_i st' ht
    exact transfer_parents ht
  · rename_i st' ht
    have hparents : st'.parents = e.state.parents := transfer_parents ht
    exact hparents

/-- A call keeps the invariant of every frame. -/
theorem StackOk.callInner (h : StackOk senders caller backend e.state.frames) {address : H160}
    {transfer : Option Transfer}
    (hok : (HandlerOp.call address transfer).Ok senders backend e.state.frames) :
    StackOk senders caller backend (e.callInner backend address transfer).2.state.frames := by
  have hframe : FrameOk senders caller backend (e.state.enter.touch backend address).frames :=
    (FrameOk.enter h.1).setAccount (fun _ => rfl) _
  cases transfer with
  | none => exact ⟨hframe, h⟩
  | some t =>
    dsimp only [StackExecutor.callInner]
    split
    · rename_i st' ht
      refine ⟨hframe.transfer (Transfer.Ok.of_eq hok (fun a => ?_) fun a ha => ?_) ht, ?_⟩
      · rw [basicIn_touch, MemoryStackState.basicIn_enter]
      · exact deletedIn_enter.1 ((deletedIn_setAccount _ a).1 ha)
      · rw [transfer_parents ht]
        exact h
    · exact h

/-! ## Creations -/

theorem incNonce_parents (a : H160) : (st.incNonce backend a).2.parents = st.parents := by
  rw [MemoryStackState.incNonce]
  split <;> rfl

/-- A new nonce keeps the balances. -/
theorem balance_incNonce (a a' : H160) :
    (basicIn backend (st.incNonce backend a).2.frames a').balance =
      (basicIn backend st.frames a').balance := by
  rw [MemoryStackState.incNonce]
  split
  · rw [basicIn_touch]
  · rw [MemoryStackState.basicIn_setAccount]
    by_cases h : a' = a
    · rw [h, update_self, MemoryStackState.account_basic]
    · rw [update_of_ne h]

/-- A new nonce deletes no account. -/
theorem deletedIn_incNonce (a a' : H160) :
    deletedIn (st.incNonce backend a).2.frames a' ↔ deletedIn st.frames a' := by
  rw [MemoryStackState.incNonce]
  split
  · exact deletedIn_setAccount _ a'
  · exact deletedIn_setAccount _ a'

section

variable (h : StackOk senders caller backend e.state.frames)

include h

/-- The new substate of a creation, and what is left when there is none. -/
theorem StackOk.createIn {creator address : H160} {value : U256} (haddress : address ∉ senders)
    (hok : Transfer.Ok backend e.state.frames ⟨creator, address, value⟩) :
    StackOk senders caller backend
      (e.createIn createIncreaseNonce backend creator address value).2.frames := by
  rw [StackExecutor.createIn]
  split
  · exact h
  · split
    · exact h
    · rename_i st' ht
      have hframe : FrameOk senders caller backend st'.frames := by
        have hreset : FrameOk senders caller backend
            (e.state.enter.resetStorage backend address).frames :=
          (FrameOk.enter h.1).of_eq MemoryStackState.basicIn_resetStorage
            fun a => (deletedIn_resetStorage a).1
        refine hreset.transfer (hok.of_eq (fun a => ?_) fun a ha => ?_) ht
        · rw [MemoryStackState.basicIn_resetStorage, MemoryStackState.basicIn_enter]
        · exact deletedIn_enter.1 ((deletedIn_resetStorage a).1 ha)
      have hparents : st'.parents = e.state.frames := transfer_parents ht
      split
      · refine ⟨hframe.incNonce haddress, ?_⟩
        rw [incNonce_parents, hparents]
        exact h
      · refine ⟨hframe, ?_⟩
        rw [hparents]
        exact h

/-- A creation keeps the invariant of every frame. -/
theorem StackOk.createInner {creator address : H160} {value : U256}
    (hok : (HandlerOp.create creator address value).Ok senders backend e.state.frames) :
    StackOk senders caller backend
      (e.createInner createIncreaseNonce backend creator address value).2.state.frames := by
  obtain ⟨hcreator, haddress, htransfer⟩ := hok
  have hnonce : StackOk senders caller backend (e.state.incNonce backend creator).2.frames := by
    refine ⟨FrameOk.incNonce h.1 hcreator, ?_⟩
    rw [incNonce_parents]
    exact h.2
  rw [StackExecutor.createInner]
  split
  · exact h
  · split
    · rename_i st' hinc
      rw [hinc] at hnonce
      exact hnonce
    · rename_i st' hinc
      have hok' : Transfer.Ok backend (e.state.incNonce backend creator).2.frames
          ⟨creator, address, value⟩ :=
        htransfer.of_eq (balance_incNonce creator) fun a => (deletedIn_incNonce creator a).1
      rw [hinc] at hnonce hok'
      exact StackOk.createIn (e := { e with state := st' }) hnonce haddress hok'

/-! ## Leaving a substate -/

/-- The exit from a frame keeps the invariant of every frame that is left. -/
theorem StackOk.exitSubstate {kind : StackExitKind}
    (he : e.exitSubstate kind = some e') :
    StackOk senders caller backend e'.state.frames := by
  obtain ⟨⟨substate, parents⟩, rwSet⟩ := e
  cases parents with
  | nil => cases kind <;> cases he
  | cons parent parents =>
    obtain ⟨hexited, hrest⟩ := h
    cases kind with
    | succeeded =>
      cases he
      refine ⟨hexited.of_eq (MemoryStackState.basicIn_swallow _ _ _) fun a => ?_, hrest.2⟩
      exact MemoryStackState.deletedIn_swallow.1
    | reverted | failed =>
      cases he
      exact hrest

/-! ## A run -/

/-- A step of the handler keeps the invariant of every frame. -/
theorem StackOk.step {op : HandlerOp} (hok : op.Ok senders backend e.state.frames)
    (he : e.step createIncreaseNonce backend op = some e') :
    StackOk senders caller backend e'.state.frames := by
  cases op with
  | storage slot | originalStorage slot =>
    cases he
    exact h
  | setStorage slot value | log l =>
    cases he
    exact ⟨FrameOk.of_substate h.1 rfl rfl, h.2⟩
  | markDelete address target =>
    cases he
    refine ⟨FrameOk.markDelete h.1 hok, ?_⟩
    rw [markDelete_parents]
    exact h.2
  | call address transfer =>
    cases he
    exact h.callInner hok
  | create creator address value =>
    cases he
    exact h.createInner hok
  | exit kind => exact h.exitSubstate he
  | deploy address code =>
    obtain ⟨exited, hexited, rfl⟩ := Option.map_eq_some_iff.1 he
    have hstack := h.exitSubstate hexited
    have hframe := FrameOk.setAccount (f := fun v => { v with code := some code }) hstack.1
      (fun _ => rfl) address
    exact ⟨hframe, hstack.2⟩

/-- A run of the handler keeps the invariant of every frame. -/
theorem StackOk.run {ops : List HandlerOp}
    (hok : OpsOk senders createIncreaseNonce backend e ops)
    (he : e.run createIncreaseNonce backend ops = some e') :
    StackOk senders caller backend e'.state.frames := by
  induction ops generalizing e with
  | nil =>
    cases he
    exact h
  | cons op ops ih =>
    obtain ⟨next, hnext, hrest⟩ := Option.bind_eq_some_iff.1 he
    exact ih (h.step hok.1 hnext) (hok.2 next hnext) hrest

end

/-! ## What the effects carry -/

/-- The basic information that an effect leaves its account with. -/
def Apply.basic : Apply → Basic
  | .modify _ basic .. => basic
  | .delete _ => {}

/-- The basic information of an account that a list of effects carries, if it carries one. -/
def carried (effects : List Apply) : H160 → Option Basic :=
  lastWrite (effects.map fun x => (x.address, x.basic))

/-- An application overwrites the accounts with what the effects carry. -/
theorem basic_apply (s : State) (effects : List Apply) :
    (MemoryBackend.apply s effects false).basic = overwrite s.basic (carried effects) := by
  have hone : ∀ (s : State) (x : Apply) (a : H160), (MemoryBackend.applyOne false s x).basic a =
      if x.address = a then x.basic else s.basic a := by
    intro s x a
    cases x with
    | modify a' basic code storage resetStorage =>
      rw [MemoryBackend.applyOne_modify, if_neg fun h => Bool.false_ne_true h.1, State.basic]
      by_cases h : a' = a
      · subst h
        simp [Apply.address, Apply.basic, Account.modify]
      · rw [update_of_ne (Ne.symm h)]
        exact (if_neg h).symm
    | delete a' =>
      rw [MemoryBackend.applyOne, State.basic]
      by_cases h : a' = a
      · subst h
        simp [Apply.address, Apply.basic]
      · rw [update_of_ne (Ne.symm h)]
        exact (if_neg h).symm
  funext a
  rw [MemoryBackend.apply]
  induction effects using List.reverseRecOn with
  | nil => rfl
  | append_singleton effects x ih =>
    rw [List.foldl_append, List.foldl_cons, List.foldl_nil, hone, ih, overwrite, overwrite, carried,
      carried, List.map_append, List.map_singleton, lastWrite_append_single]
    split <;> rfl

/-- What the effects carry, account by account. -/
theorem overwrite_carried (f : H160 → Basic) (effects : List Apply) :
    overwrite f (carried effects) = effects.foldl (fun f x => update f x.address x.basic) f := by
  induction effects using List.reverseRecOn with
  | nil => rfl
  | append_singleton effects x ih =>
    rw [List.foldl_append, List.foldl_cons, List.foldl_nil, ← ih]
    funext a
    rw [overwrite, carried, List.map_append, List.map_singleton, lastWrite_append_single]
    by_cases h : a = x.address
    · rw [if_pos h.symm, h, update_self]
      rfl
    · rw [if_neg (Ne.symm h), update_of_ne h]
      rfl

/-- The effects of a root leave the accounts as it shows them, and the deleted ones empty. -/
theorem carried_deconstruct (hroot : st.parents = []) (a : H160) :
    (carried (st.deconstruct backend) a).getD (backend.basic a) =
      if a ∈ st.substate.deletes then {} else basicIn backend st.frames a := by
  have hmodify : ∀ a', (st.modifyOf backend a').address = a' ∧
      (st.modifyOf backend a').basic = basicIn backend st.frames a' := fun a' =>
    ⟨rfl, MemoryStackState.account_basic⟩
  rw [carried, MemoryStackState.deconstruct, List.map_append, lastWrite_append, List.map_map,
    List.map_map]
  by_cases hdeleted : a ∈ st.substate.deletes
  · rw [if_pos hdeleted, lastWrite_of_unique (v := {})]
    · rfl
    · rw [List.map_map]
      refine List.mem_map.2 ⟨a, ?_, rfl⟩
      exact (List.perm_insertionSort _ _).mem_iff.2 hdeleted
    · intro e he _
      obtain ⟨a', -, rfl⟩ := List.mem_map.1 he
      rfl
  · have hnone : lastWrite ((st.substate.deletes.insertionSort fun a b => a.toNat ≤ b.toNat).map
        ((fun x => (x.address, x.basic)) ∘ Apply.delete)) a = none := by
      rw [lastWrite_eq_none_iff, List.map_map]
      intro h
      obtain ⟨a', ha', rfl⟩ := List.mem_map.1 h
      exact hdeleted ((List.perm_insertionSort _ _).mem_iff.1 ha')
    rw [if_neg hdeleted, hnone, Option.none_or]
    by_cases ha : a ∈ st.addresses
    · rw [lastWrite_of_unique (v := basicIn backend st.frames a)]
      · rfl
      · rw [List.map_map]
        exact List.mem_map.2 ⟨a, List.mem_filter.2 ⟨ha, by simpa using hdeleted⟩, rfl⟩
      · intro e he hea
        obtain ⟨a', -, rfl⟩ := List.mem_map.1 he
        cases hea
        exact (hmodify _).2
    · have hunknown : knownAccount st.frames a = none := by
        rw [MemoryStackState.frames, hroot, knownAccount_cons, AssocMap.get_eq_none_iff.2]
        · rfl
        · intro h
          refine ha ((List.perm_insertionSort _ _).mem_iff.2 (List.mem_dedup.2 ?_))
          exact List.mem_append_left _ h
      have hmods : lastWrite ((st.addresses.filter (· ∉ st.substate.deletes)).map
          ((fun x => (x.address, x.basic)) ∘ st.modifyOf backend)) a = none := by
        rw [lastWrite_eq_none_iff, List.map_map]
        intro h
        obtain ⟨a', ha', rfl⟩ := List.mem_map.1 h
        exact ha (List.mem_filter.1 ha').1
      rw [hmods, basicIn, hunknown]
      rfl

/-! ## A simulated call -/

section Call

variable (senders : List H160) (createIncreaseNonce : Bool) (interpreter : Interpreter)

/-- The condition on the simulation of a call: its own transfer and the handler operations of its
byte code meet the condition on operations. -/
def SimulationOk (tx : EthereumTransaction) (s : State) : Prop :=
  ∀ toAddr, tx.toAddr = some toAddr → ∀ ops, interpreter tx s = .ok (some ops) →
    OpsOk senders createIncreaseNonce s
      { state := (({} : MemoryStackState).incNonce s tx.caller).2 }
      (.call toAddr (some ⟨tx.caller, toAddr, tx.value⟩) :: ops)

end Call

/-- The root frame after the nonce of the caller has grown. -/
theorem FrameOk.start {s : State} (h : ({} : MemoryStackState).incNonce s caller = (true, st)) :
    FrameOk senders caller s st.frames := by
  have hbasic : basicIn s ({} : MemoryStackState).frames = s.basic := rfl
  rw [MemoryStackState.incNonce] at h
  split at h
  · cases h
  · rename_i hnonce
    cases h
    rw [MemoryStackState.account_basic, hbasic] at hnonce
    have hframes : basicIn s (MemoryStackState.setAccount s {} caller fun v =>
        { v with basic := { v.basic with nonce := v.basic.nonce + 1 } }).frames =
          update s.basic caller { s.basic caller with nonce := (s.basic caller).nonce + 1 } := by
      rw [MemoryStackState.basicIn_setAccount, MemoryStackState.account_basic, hbasic]
    refine ⟨?_, fun a _ => ?_, fun a ha => ?_⟩
    · rw [hframes]
      exact totalBalance_update_of_eq rfl
    · rw [hframes]
      by_cases ha : a = caller
      · subst ha
        rw [update_self, if_pos rfl]
        have hlt : (s.basic a).nonce.toNat + (1 : U256).toNat < 2 ^ 256 := by
          have : (1 : U256).toNat = 1 := rfl
          omega
        exact BitVec.toNat_add_of_lt hlt
      · rw [update_of_ne ha, if_neg ha, Nat.add_zero]
    · rw [deletedIn_setAccount] at ha
      obtain ⟨f, hf, ha⟩ := ha
      cases List.mem_singleton.1 hf
      cases ha

/-- Runs of the handler operations one after the other. -/
theorem StackExecutor.run_append {ops ops' : List HandlerOp} :
    e.run createIncreaseNonce backend (ops ++ ops') =
      (e.run createIncreaseNonce backend ops).bind fun e =>
        e.run createIncreaseNonce backend ops' := by
  induction ops generalizing e with
  | nil => rfl
  | cons op ops ih =>
    rw [List.cons_append, StackExecutor.run, StackExecutor.run, Option.bind_assoc]
    exact congrArg _ (funext fun e => ih)

variable {interpreter : Interpreter} {tx : EthereumTransaction} {toAddr : H160} {s : State}
  {sim : Simulated} (hto : tx.toAddr = some toAddr)
  (hok : SimulationOk senders createIncreaseNonce interpreter tx s)
  (h : simulateCall createIncreaseNonce interpreter tx toAddr s = .ok (some sim))

include hto hok h

/-- The root of a simulated call, whose effects are those of the simulation. -/
theorem simulateCall_root :
    ∃ root : MemoryStackState, root.parents = [] ∧ FrameOk senders tx.caller s root.frames ∧
      sim.effects = root.deconstruct s := by
  rw [simulateCall] at h
  split at h
  · cases h
  · rename_i state hinc
    have hstart : StackOk senders tx.caller s state.frames := by
      refine ⟨FrameOk.start hinc, ?_⟩
      have hparents : (({} : MemoryStackState).incNonce s tx.caller).2.parents = [] :=
        incNonce_parents tx.caller
      rw [hinc] at hparents
      rw [hparents]
      trivial
    split at h
    · cases h
    · rename_i called hcall
      rw [interpret] at h
      split at h
      · cases h
      · cases h
      · rename_i ops hops
        have hopsOk := hok toAddr hto ops hops
        rw [hinc] at hopsOk
        have hcalled : StackOk senders tx.caller s called.state.frames := by
          have := StackOk.callInner (e := { state }) hstart hopsOk.1
          rwa [hcall] at this
        obtain ⟨last, hrun, hsim⟩ := Option.bind_eq_some_iff.1 (Except.ok.inj h)
        rw [StackExecutor.run_append] at hrun
        obtain ⟨ended, hended, hexit⟩ := Option.bind_eq_some_iff.1 hrun
        obtain ⟨left, hleft, hlast⟩ := Option.bind_eq_some_iff.1 hexit
        cases hlast
        have hcallOk : OpsOk senders createIncreaseNonce s called ops := by
          refine hopsOk.2 called ?_
          rw [StackExecutor.step, hcall]
        have hexited : ended.exitSubstate .succeeded = some last := hleft
        have hstack := (hcalled.run hcallOk hended).exitSubstate hexited
        rw [StackExecutor.simulated] at hsim
        split at hsim
        · rename_i hroot
          cases hsim
          exact ⟨last.state, hroot, hstack.1, rfl⟩
        · cases hsim

/-- **One transaction**: applied alone, the effects of a simulated call keep the sum of the balances
and add one to the nonce of the caller, and to that of no other sender. -/
theorem simulateCall_carried :
    totalBalance (overwrite s.basic (carried sim.effects)) = totalBalance s.basic ∧
      ∀ a ∈ senders, (overwrite s.basic (carried sim.effects) a).nonce.toNat =
        (s.basic a).nonce.toNat + if a = tx.caller then 1 else 0 := by
  obtain ⟨root, hroot, hframe, heffects⟩ := simulateCall_root hto hok h
  have hcarried : ∀ a, overwrite s.basic (carried sim.effects) a =
      if a ∈ root.substate.deletes then {} else basicIn s root.frames a := fun a => by
    rw [overwrite, heffects, carried_deconstruct hroot]
  have hdeleted : ∀ a, a ∈ root.substate.deletes →
      (basicIn s root.frames a).balance = 0#256 ∧ a ∉ senders := fun a ha =>
    hframe.deleted a (deletedIn_cons.2 (.inl ha))
  constructor
  · rw [← hframe.total, totalBalance, totalBalance]
    refine Finset.sum_congr rfl fun a _ => ?_
    rw [hcarried]
    split
    · rename_i ha
      rw [(hdeleted a ha).1]
    · rfl
  · intro a ha
    have hkept : a ∉ root.substate.deletes := fun h => (hdeleted a h).2 ha
    rw [hcarried, if_neg hkept]
    exact hframe.nonce a ha

end Chase
