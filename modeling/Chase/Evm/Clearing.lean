import Chase.Evm.WriteCover

/-!
# Slots that are cleared without a record

Deleting an account and resetting its storage clear all of its slots and record none. Whether they
do so in the end is decided by the operations alone: `mark_delete`, `reset_storage` and a creation
that enters its substate say it in the current substate (`Clearing.MadeBy`), and it reaches the root
when no substate that holds it is dropped and no merge overwrites it (`Clearing.Kept`). A merge
overwrites a reset, not a deletion: the entry of the account in the substate that is left takes the
place of the parent's entry, with its flag. So the write set covers the changed slots exactly when
every slot with a value, of an account whose clearing reaches the root, is written by some
`set_storage` (`writes_cover_iff`).
-/

namespace Chase

open MemoryStackState

/-- How an account loses its slots: it is deleted, or its storage is reset. -/
inductive Clearing where
  | deleted
  | reset
  deriving DecidableEq, Repr

/-- How an operation leaves the current substate, if it does. -/
def StackOp.exits : StackOp → Option StackExitKind
  | .handler (.exit kind) => some kind
  | .handler (.deploy _ _) => some .succeeded
  | _ => none

/-- The number of substates below the current one. -/
def StackExecutor.depth (e : StackExecutor) : Nat := e.state.parents.length

namespace Clearing

section

variable (createIncreaseNonce : Bool) (backend : State) (a : H160) (c : Clearing)

/-- The substate says that the account loses its slots. -/
def Holds : Clearing → Substate → Prop
  | .deleted, f => a ∈ f.deletes
  | .reset, f => (f.accounts.get a).any (·.reset) = true

/-- The substate has an entry of the account without the flag, which a merge puts in the place of
the parent's entry. -/
def Overwritten : Clearing → Substate → Prop
  | .deleted, _ => False
  | .reset, f => (f.accounts.get a).any (!·.reset) = true

/-- The operation says in the current substate that the account loses its slots. -/
def MadeBy (e : StackExecutor) : Clearing → StackOp → Prop
  | .deleted, .handler (.markDelete a' _) => a' = a
  | .reset, .resetStorage a' => a' = a
  | .reset, .handler (.create caller a' value) =>
    a' = a ∧ e.depth < (e.createInner createIncreaseNonce backend caller a' value).2.depth
  | _, _ => False

/-- What the substate above `d` others says is not lost when the current one is left: it is not the
one that is dropped, and if the current one is merged into it, it is not overwritten. -/
def Kept (exits : Option StackExitKind) (frames : List Substate) (d : Nat) : Prop :=
  (exits = some .reverted ∨ exits = some .failed → frames.length ≠ d + 1) ∧
    (exits = some .succeeded → frames.length = d + 2 →
      ∀ f ∈ frames.head?, ¬c.Overwritten a f)

/-- What the substate above `d` others says reaches the root through the operations. -/
def Remains : StackExecutor → Nat → List StackOp → Prop
  | _, _, [] => True
  | e, d, op :: ops => c.Kept a op.exits e.state.frames d ∧
      ∀ e' ∈ e.stackStep createIncreaseNonce backend op, Remains e' (min d e'.depth) ops

/-- One of the operations says that the account loses its slots, and this reaches the root. -/
def Reaches : StackExecutor → List StackOp → Prop
  | _, [] => False
  | e, op :: ops => ∃ e' ∈ e.stackStep createIncreaseNonce backend op,
      c.MadeBy createIncreaseNonce backend a e op ∧
          c.Remains createIncreaseNonce backend a e' e'.depth ops ∨
        Reaches e' ops

instance : ∀ (c : Clearing) (f : Substate), Decidable (c.Holds a f)
  | .deleted, _ => inferInstanceAs (Decidable (_ ∈ _))
  | .reset, _ => inferInstanceAs (Decidable (_ = true))

instance : ∀ (c : Clearing) (f : Substate), Decidable (c.Overwritten a f)
  | .deleted, _ => inferInstanceAs (Decidable False)
  | .reset, _ => inferInstanceAs (Decidable (_ = true))

instance (exits : Option StackExitKind) (frames : List Substate) (d : Nat) :
    Decidable (c.Kept a exits frames d) := inferInstanceAs (Decidable (_ ∧ _))

instance decidableMadeBy (e : StackExecutor) (c : Clearing) (op : StackOp) :
    Decidable (c.MadeBy createIncreaseNonce backend a e op) := by
  unfold MadeBy
  split <;> infer_instance

instance decidableRemains : ∀ (e : StackExecutor) (d : Nat) (ops : List StackOp),
    Decidable (c.Remains createIncreaseNonce backend a e d ops)
  | _, _, [] => .isTrue trivial
  | e, d, op :: ops =>
    have := fun e' => decidableRemains e' (min d e'.depth) ops
    inferInstanceAs (Decidable (c.Kept a op.exits e.state.frames d ∧
      ∀ e' ∈ e.stackStep createIncreaseNonce backend op,
        c.Remains createIncreaseNonce backend a e' (min d e'.depth) ops))

instance decidableReaches : ∀ (e : StackExecutor) (ops : List StackOp),
    Decidable (c.Reaches createIncreaseNonce backend a e ops)
  | _, [] => .isFalse id
  | e, op :: ops =>
    have := fun e' => decidableReaches e' ops
    inferInstanceAs (Decidable (∃ e' ∈ e.stackStep createIncreaseNonce backend op,
      c.MadeBy createIncreaseNonce backend a e op ∧
          c.Remains createIncreaseNonce backend a e' e'.depth ops ∨
        c.Reaches createIncreaseNonce backend a e' ops))

end

variable {createIncreaseNonce : Bool} {backend : State} {a : H160} {c : Clearing}
  {st st' st'' : MemoryStackState} {f f' : Substate} {frames frames' : List Substate}

/-! ## What the operations say in the substates -/

/-- The new state has the same parents, and its current substate says the same of the account. -/
structure Same (c : Clearing) (a : H160) (st st' : MemoryStackState) : Prop where
  parents : st'.parents = st.parents
  holds : c.Holds a st'.substate ↔ c.Holds a st.substate

namespace Same

theorem refl (st : MemoryStackState) : Same c a st st := ⟨rfl, Iff.rfl⟩

theorem trans (h : Same c a st st') (h' : Same c a st' st'') : Same c a st st'' :=
  ⟨h'.parents.trans h.parents, h'.holds.trans h.holds⟩

/-- An assignment to an account leaves the flags. -/
theorem setAccount (st : MemoryStackState) (b : H160)
    {g : MemoryStackAccount → MemoryStackAccount} (hg : ∀ v, (g v).reset = v.reset) :
    Same c a st (st.setAccount backend b g) := by
  refine ⟨rfl, ?_⟩
  cases c with
  | deleted => exact Iff.rfl
  | reset =>
    dsimp only [Holds, MemoryStackState.setAccount]
    by_cases hb : a = b
    · subst hb
      rw [AssocMap.get_insert_self, Option.any_some, hg, account]
      cases st.substate.accounts.get a with
      | some v => rfl
      | none => cases knownAccount st.parents a <;> simp
    · rw [AssocMap.get_insert_of_ne hb]

/-- A new nonce says nothing of the slots. -/
theorem incNonce (st : MemoryStackState) (b : H160) :
    Same c a st (st.incNonce backend b).2 := by
  rw [MemoryStackState.incNonce]
  split
  · exact setAccount st b fun _ => rfl
  · dsimp only
    exact setAccount st b fun _ => rfl

/-- A transfer says nothing of the slots. -/
theorem transfer (st : MemoryStackState) (t : Transfer) :
    Same c a st (st.transfer backend t).2 := by
  rw [MemoryStackState.transfer]
  split
  · exact setAccount st _ fun _ => rfl
  · dsimp only
    refine (setAccount st _ ?_).trans (setAccount _ _ ?_)
    · exact fun _ => rfl
    · exact fun _ => rfl

end Same

theorem not_holds_empty : ¬c.Holds a {} := by
  cases c <;> simp [Holds, AssocMap.get]

/-- A reset sets the flag of its account. -/
theorem holds_resetStorage {b : H160} : c.Holds a (st.resetStorage backend b).substate ↔
    c.Holds a st.substate ∨ c = .reset ∧ b = a := by
  cases c with
  | deleted => simp [Holds, MemoryStackState.resetStorage, MemoryStackState.setAccount]
  | reset =>
    dsimp only [Holds, MemoryStackState.resetStorage, MemoryStackState.setAccount]
    by_cases hb : a = b
    · subst hb
      simp [AssocMap.get_insert_self]
    · rw [AssocMap.get_insert_of_ne hb]
      simp [Ne.symm hb]

/-- A deletion says that the account loses its slots. -/
theorem holds_setDeleted {b : H160} : c.Holds a (st.setDeleted b).substate ↔
    c.Holds a st.substate ∨ c = .deleted ∧ b = a := by
  cases c with
  | deleted =>
    dsimp only [Holds]
    rw [mem_setDeleted]
    simp [eq_comm, or_comm]
  | reset => simp [Holds, setDeleted]

/-- What a merge leaves of the two substates. -/
theorem holds_swallow (parent exited : Substate) : c.Holds a (swallow parent exited) ↔
    c.Holds a exited ∨ c.Holds a parent ∧ ¬c.Overwritten a exited := by
  cases c with
  | deleted =>
    simp only [Holds, Overwritten, swallow, List.mem_append, List.mem_filter]
    by_cases h : a ∈ exited.deletes <;> simp [h]
  | reset =>
    simp only [Holds, Overwritten, swallow, AssocMap.get_append]
    cases exited.accounts.get a with
    | none => simp
    | some v => cases v.reset <;> simp_all

/-! ## One operation -/

/-- What an operation does to the substates, and to what they say of the account. -/
inductive Moves (c : Clearing) (a : H160) (made : Prop) :
    Option StackExitKind → List Substate → List Substate → Prop
  | stay {f f' : Substate} {frames : List Substate} :
      (c.Holds a f' ↔ c.Holds a f ∨ made) → Moves c a made none (f :: frames) (f' :: frames)
  | enter {f f₁ f' : Substate} {frames : List Substate} :
      (c.Holds a f₁ ↔ c.Holds a f) → (c.Holds a f' ↔ made) →
      Moves c a made none (f :: frames) (f' :: f₁ :: frames)
  | merge {f parent f' : Substate} {frames : List Substate} : ¬made →
      (c.Holds a f' ↔ c.Holds a f ∨ c.Holds a parent ∧ ¬c.Overwritten a f) →
      Moves c a made (some .succeeded) (f :: parent :: frames) (f' :: frames)
  | drop {f parent f' : Substate} {frames : List Substate} {kind : StackExitKind} : ¬made →
      kind = .reverted ∨ kind = .failed → (c.Holds a f' ↔ c.Holds a parent) →
      Moves c a made (some kind) (f :: parent :: frames) (f' :: frames)

/-- An operation in the current substate. -/
theorem Moves.of_same {made : Prop} (h : Same c a st st') (hmade : ¬made) :
    Moves c a made none st.frames st'.frames := by
  rw [frames, frames, h.parents]
  exact .stay (by simp [h.holds, hmade])

/-- An operation that enters a substate. -/
theorem Moves.of_enter {made : Prop} (h : Same c a st st') (hparents : st''.parents = st'.frames)
    (hmade : c.Holds a st''.substate ↔ made) : Moves c a made none st.frames st''.frames := by
  rw [frames, frames, hparents, frames, h.parents]
  exact .enter h.holds hmade

/-- A further step in the substate that is the current one then. -/
theorem Moves.trans_same {made : Prop} {exits : Option StackExitKind}
    (h : Moves c a made exits frames st.frames) (hsame : Same c a st st') :
    Moves c a made exits frames st'.frames := by
  obtain ⟨f, parents⟩ := st
  rw [MemoryStackState.frames, hsame.parents]
  cases h with
  | stay hiff => exact .stay (hsame.holds.trans hiff)
  | enter hiff hmade => exact .enter hiff (hsame.holds.trans hmade)
  | merge hmade hiff => exact .merge hmade (hsame.holds.trans hiff)
  | drop hmade hkind hiff => exact .drop hmade hkind (hsame.holds.trans hiff)

/-- The exit from a substate moves what it says to the parent, or drops it. -/
theorem moves_exitSubstate {made : Prop} (hmade : ¬made) {e e' : StackExecutor}
    {kind : StackExitKind} (he : e.exitSubstate kind = some e') :
    Moves c a made (some kind) e.state.frames e'.state.frames := by
  obtain ⟨st, hst, rfl⟩ := Option.map_eq_some_iff.1 he
  obtain ⟨⟨current, parents⟩, rwSet⟩ := e
  cases parents with
  | nil => cases kind <;> cases hst
  | cons parent parents =>
    cases kind with
    | succeeded =>
      cases hst
      exact .merge hmade (holds_swallow parent current)
    | reverted =>
      cases hst
      exact .drop hmade (.inl rfl) Iff.rfl
    | failed =>
      cases hst
      exact .drop hmade (.inr rfl) Iff.rfl

variable {e e' : StackExecutor}

/-- The source of a deletion has the balance that it transfers. -/
theorem markDelete_state (address target : H160) : ∃ st, Same c a e.state st ∧
    (e.markDelete backend address target).state = st.setDeleted address := by
  have htransfer : (e.state.transfer backend ⟨address, target, e.balance backend address⟩).1 =
      true := by
    have hbalance : ¬(e.state.account backend address).basic.balance <
        e.balance backend address := by
      rw [account_basic]
      exact BitVec.lt_irrefl _
    rw [MemoryStackState.transfer, if_neg hbalance]
  have hsame : Same c a e.state
      (e.state.transfer backend ⟨address, target, e.balance backend address⟩).2 := .transfer _ _
  rw [StackExecutor.markDelete]
  split
  · rename_i hst
    rw [hst] at htransfer
    cases htransfer
  · rename_i hst
    rw [hst] at hsame
    exact ⟨_, hsame.trans (.setAccount _ _ fun _ => by rfl), rfl⟩

/-- A call says nothing of the slots. -/
theorem moves_callInner {made : Prop} (hmade : ¬made) (address : H160) (t : Option Transfer) :
    Moves c a made none e.state.frames (e.callInner backend address t).2.state.frames := by
  have htouch : Same c a e.state.enter (e.state.enter.touch backend address) :=
    .setAccount _ _ fun _ => by rfl
  have hempty : c.Holds a e.state.enter.substate ↔ made := iff_of_false not_holds_empty hmade
  cases t with
  | none => exact .of_enter (.refl _) htouch.parents (htouch.holds.trans hempty)
  | some t =>
    have htransfer : Same c a e.state.enter
        ((e.state.enter.touch backend address).transfer backend t).2 := htouch.trans (.transfer _ t)
    dsimp only [StackExecutor.callInner]
    split
    · rename_i hst
      rw [hst] at htransfer
      exact .of_enter (.refl _) htransfer.parents (htransfer.holds.trans hempty)
    · exact .of_same (.refl _) hmade

variable (createIncreaseNonce backend a c e) in
/-- A creation is refused, or it enters a substate and resets the storage there. -/
theorem createIn_cases (caller address : H160) (value : U256) :
    (e.createIn createIncreaseNonce backend caller address value).2 = e.state ∨
      Same c a (e.state.enter.resetStorage backend address)
        (e.createIn createIncreaseNonce backend caller address value).2 := by
  have htransfer : Same c a (e.state.enter.resetStorage backend address)
      ((e.state.enter.resetStorage backend address).transfer backend ⟨caller, address, value⟩).2 :=
    .transfer _ _
  dsimp only [StackExecutor.createIn]
  split
  · exact .inl rfl
  · split
    · exact .inl rfl
    · rename_i hst
      rw [hst] at htransfer
      split
      · exact .inr (htransfer.trans (.incNonce _ _))
      · exact .inr htransfer

/-- A creation says that the new account loses its slots, when it enters a substate. -/
theorem moves_createInner (caller address : H160) (value : U256) :
    Moves c a (c = .reset ∧ address = a ∧
        e.depth < (e.createInner createIncreaseNonce backend caller address value).2.depth)
      none e.state.frames
      (e.createInner createIncreaseNonce backend caller address value).2.state.frames := by
  have hnonce : Same c a e.state (e.state.incNonce backend caller).2 := .incNonce _ _
  rw [StackExecutor.createInner]
  split
  · exact .of_same (.refl _) fun h => lt_irrefl _ h.2.2
  · split
    · rename_i hst
      rw [hst] at hnonce
      dsimp only at hnonce ⊢
      refine .of_same hnonce fun h => absurd h.2.2 ?_
      simp [StackExecutor.depth, hnonce.parents]
    · rename_i st hst
      rw [hst] at hnonce
      dsimp only at hnonce ⊢
      rcases createIn_cases createIncreaseNonce backend a c { e with state := st } caller address
        value with heq | hsame
      · rw [heq]
        refine .of_same hnonce fun h => absurd h.2.2 ?_
        simp [StackExecutor.depth, hnonce.parents]
      · refine .of_enter hnonce hsame.parents (hsame.holds.trans (holds_resetStorage.trans ?_))
        have hdepth : e.depth < (StackExecutor.createIn createIncreaseNonce backend
            { e with state := st } caller address value).2.parents.length := by
          rw [hsame.parents]
          simp [StackExecutor.depth, MemoryStackState.resetStorage, MemoryStackState.setAccount,
            enter, MemoryStackState.frames, hnonce.parents]
        have hempty : ¬c.Holds a st.enter.substate := not_holds_empty
        simp [hempty, StackExecutor.depth] at hdepth ⊢
        exact fun _ _ => hdepth

/-- What one operation on the stack does. -/
theorem stackStep_moves {op : StackOp}
    (he : e.stackStep createIncreaseNonce backend op = some e') :
    Moves c a (c.MadeBy createIncreaseNonce backend a e op) op.exits e.state.frames
      e'.state.frames := by
  cases op with
  | enter =>
    cases he
    refine .of_enter (.refl _) rfl (iff_of_false not_holds_empty ?_)
    cases c <;> exact id
  | resetStorage b =>
    cases he
    refine .stay (holds_resetStorage.trans (or_congr_right ?_))
    cases c <;> simp [MadeBy]
  | handler op =>
    cases op with
    | storage slot | originalStorage slot =>
      cases he
      refine .of_same (.refl _) ?_
      cases c <;> exact id
    | setStorage slot value | log l =>
      cases he
      refine .of_same ⟨rfl, ?_⟩ ?_
      · cases c <;> exact Iff.rfl
      · cases c <;> exact id
    | markDelete address target =>
      cases he
      obtain ⟨st, hsame, hstate⟩ : ∃ st, Same c a e.state st ∧
          (e.markDelete backend address target).state = st.setDeleted address :=
        markDelete_state address target
      rw [hstate, MemoryStackState.frames, MemoryStackState.frames]
      have hparents : (st.setDeleted address).parents = e.state.parents := hsame.parents
      rw [hparents]
      refine .stay (holds_setDeleted.trans (or_congr hsame.holds ?_))
      cases c <;> simp [MadeBy]
    | call address t =>
      cases he
      refine moves_callInner ?_ address t
      cases c <;> exact id
    | create caller address value =>
      cases he
      have hmade : c.MadeBy createIncreaseNonce backend a e
          (.handler (.create caller address value)) ↔ (c = .reset ∧ address = a ∧ e.depth <
            (e.createInner createIncreaseNonce backend caller address value).2.depth) := by
        cases c <;> simp [MadeBy]
      rw [propext hmade]
      exact moves_createInner caller address value
    | exit kind =>
      refine moves_exitSubstate ?_ he
      cases c <;> exact id
    | deploy address code =>
      obtain ⟨e₁, he₁, rfl⟩ := Option.map_eq_some_iff.1 he
      have hcode : Same c a e₁.state (e₁.state.setCode backend address code) := by
        rw [setCode]
        exact .setAccount _ _ fun _ => rfl
      refine (moves_exitSubstate ?_ he₁).trans_same hcode
      cases c <;> exact id

/-! ## Runs -/

/-- The substate above `d` others says that the account loses its slots. -/
def HoldsAt (c : Clearing) (a : H160) : List Substate → Nat → Prop
  | [], _ => False
  | f :: frames, d => if d = frames.length then c.Holds a f else HoldsAt c a frames d

/-- A substate that says something is one of the stack. -/
theorem HoldsAt.lt {d : Nat} (h : c.HoldsAt a frames d) : d < frames.length := by
  induction frames with
  | nil => exact h.elim
  | cons f frames ih =>
    rw [HoldsAt] at h
    split at h
    · simp [*]
    · exact (ih h).trans (Nat.lt_succ_self _)

/-- What the substates say is what the current one says or the others say. -/
theorem holdsAt_cons {d : Nat} : c.HoldsAt a (f :: frames) d ↔
    d = frames.length ∧ c.Holds a f ∨ c.HoldsAt a frames d := by
  rw [HoldsAt]
  split
  · rename_i hd
    have hnot : ¬c.HoldsAt a frames d := fun h => hd.not_lt h.lt
    simp [hd, hd ▸ hnot]
  · rename_i hd
    simp [hd]

theorem kept_none (d : Nat) : c.Kept a none frames d := by
  constructor <;> simp

/-- What the substates say after an operation is what they said before and is kept, or what the
operation says. -/
theorem Moves.holdsAt_iff {made : Prop} {exits : Option StackExitKind}
    (h : Moves c a made exits frames frames') {n d' : Nat} (hn : frames'.length = n + 1) :
    c.HoldsAt a frames' d' ↔
      (∃ d, c.HoldsAt a frames d ∧ c.Kept a exits frames d ∧ min d n = d') ∨ made ∧ d' = n := by
  obtain rfl : n = frames'.length - 1 := by omega
  cases h with
  | @stay f f' frames hiff =>
    rw [holdsAt_cons, hiff, List.length_cons, Nat.add_sub_cancel]
    constructor
    · rintro (⟨rfl, hf | hmade⟩ | hbelow)
      · exact .inl ⟨_, holdsAt_cons.2 (.inl ⟨rfl, hf⟩), kept_none _, min_self _⟩
      · exact .inr ⟨hmade, rfl⟩
      · exact .inl ⟨d', holdsAt_cons.2 (.inr hbelow), kept_none _, min_eq_left hbelow.lt.le⟩
    · rintro (⟨d, hd, -, rfl⟩ | ⟨hmade, rfl⟩)
      · rcases holdsAt_cons.1 hd with ⟨rfl, hf⟩ | hbelow
        · exact .inl ⟨min_self _, .inl hf⟩
        · exact .inr (by rwa [min_eq_left hbelow.lt.le])
      · exact .inl ⟨rfl, .inr hmade⟩
  | @enter f f₁ f' frames hiff hmade =>
    rw [holdsAt_cons, holdsAt_cons, hiff, hmade, ← holdsAt_cons, List.length_cons, List.length_cons,
      Nat.add_sub_cancel]
    constructor
    · rintro (⟨rfl, hmade⟩ | hbelow)
      · exact .inr ⟨hmade, rfl⟩
      · exact .inl ⟨d', hbelow, kept_none _, min_eq_left hbelow.lt.le⟩
    · rintro (⟨d, hd, -, rfl⟩ | ⟨hmade, rfl⟩)
      · have hle : d ≤ (f₁ :: frames).length := hd.lt.le
        exact .inr (by rwa [min_eq_left hle])
      · exact .inl ⟨rfl, hmade⟩
  | @merge f parent f' frames hmade hiff =>
    simp only [hmade, false_and, or_false]
    rw [holdsAt_cons, hiff, List.length_cons, Nat.add_sub_cancel]
    constructor
    · rintro (⟨rfl, hf | ⟨hparent, hkept⟩⟩ | hbelow)
      · exact ⟨_, holdsAt_cons.2 (.inl ⟨rfl, hf⟩), ⟨by simp, by simp⟩, by simp⟩
      · refine ⟨_, holdsAt_cons.2 (.inr (holdsAt_cons.2 (.inl ⟨rfl, hparent⟩))),
          ⟨by simp, fun _ _ g hg => ?_⟩, min_self _⟩
        cases hg
        exact hkept
      · have hlt := hbelow.lt
        refine ⟨d', holdsAt_cons.2 (.inr (holdsAt_cons.2 (.inr hbelow))),
          ⟨by simp, fun _ hlen => ?_⟩, min_eq_left hlt.le⟩
        simp only [List.length_cons] at hlen
        omega
    · rintro ⟨d, hd, hkept, rfl⟩
      rcases holdsAt_cons.1 hd with ⟨rfl, hf⟩ | hd
      · exact .inl ⟨by simp, .inl hf⟩
      · rcases holdsAt_cons.1 hd with ⟨rfl, hparent⟩ | hbelow
        · exact .inl ⟨min_self _, .inr ⟨hparent, hkept.2 rfl rfl f rfl⟩⟩
        · exact .inr (by rwa [min_eq_left hbelow.lt.le])
  | @drop f parent f' frames kind hmade hkind hiff =>
    have hdrop : some kind = some StackExitKind.reverted ∨ some kind = some .failed := by
      simpa using hkind
    have hnot : some kind ≠ some StackExitKind.succeeded := by
      rcases hkind with rfl | rfl <;> simp
    simp only [hmade, false_and, or_false]
    rw [holdsAt_cons, hiff, ← holdsAt_cons, List.length_cons, Nat.add_sub_cancel]
    constructor
    · intro hd
      have hlt := hd.lt
      refine ⟨d', holdsAt_cons.2 (.inr hd), ⟨fun _ hlen => ?_, fun h => absurd h hnot⟩, ?_⟩
      · simp only [List.length_cons] at hlen hlt
        omega
      · simp only [List.length_cons] at hlt
        exact min_eq_left (by omega)
    · rintro ⟨d, hd, hkept, rfl⟩
      rcases holdsAt_cons.1 hd with ⟨rfl, -⟩ | hd
      · exact absurd rfl (hkept.1 hdrop)
      · have hlt := hd.lt
        simp only [List.length_cons] at hlt
        rwa [min_eq_left (by omega)]

/-- What the root says after a run is what some substate said before, or what some operation says,
and remains. -/
theorem stackRun_holds {ops : List StackOp}
    (hrun : e.stackRun createIncreaseNonce backend ops = some e') (hroot : e'.state.parents = []) :
    c.Holds a e'.state.substate ↔
      (∃ d, c.HoldsAt a e.state.frames d ∧ c.Remains createIncreaseNonce backend a e d ops) ∨
        c.Reaches createIncreaseNonce backend a e ops := by
  induction ops generalizing e with
  | nil =>
    cases hrun
    simp [Remains, Reaches, MemoryStackState.frames, hroot, HoldsAt]
  | cons op ops ih =>
    obtain ⟨e₁, hstep, hrest⟩ := Option.bind_eq_some_iff.1 hrun
    have hmoves := stackStep_moves (c := c) (a := a) hstep
    have hlen : e₁.state.frames.length = e₁.depth + 1 := rfl
    have hmem : ∀ e₂, e₂ ∈ e.stackStep createIncreaseNonce backend op ↔ e₂ = e₁ := by
      intro e₂
      rw [hstep, Option.mem_some_iff, eq_comm]
    rw [ih hrest]
    simp only [hmoves.holdsAt_iff hlen, Remains, Reaches, hmem, forall_eq, exists_eq_left]
    constructor
    · rintro (⟨d', ⟨d, hd, hkept, rfl⟩ | ⟨hmade, rfl⟩, hremains⟩ | hreaches)
      · exact .inl ⟨d, hd, hkept, hremains⟩
      · exact .inr (.inl ⟨hmade, hremains⟩)
      · exact .inr (.inr hreaches)
    · rintro (⟨d, hd, hkept, hremains⟩ | ⟨hmade, hremains⟩ | hreaches)
      · exact .inl ⟨_, .inl ⟨d, hd, hkept, rfl⟩, hremains⟩
      · exact .inl ⟨_, .inr ⟨hmade, rfl⟩, hremains⟩
      · exact .inr hreaches

/-- What the root says after a run from the start. -/
theorem stackRun_empty_holds {ops : List StackOp}
    (hrun : ({} : StackExecutor).stackRun createIncreaseNonce backend ops = some e)
    (hroot : e.state.parents = []) :
    c.Holds a e.state.substate ↔ c.Reaches createIncreaseNonce backend a {} ops := by
  rw [stackRun_holds hrun hroot, or_iff_right]
  rintro ⟨d, hd, -⟩
  have hempty : ¬c.Holds a ({} : MemoryStackState).substate := not_holds_empty
  simp [MemoryStackState.frames, HoldsAt, hempty] at hd

end Clearing

namespace StackExecutor

variable {createIncreaseNonce : Bool} {backend : State} {e e' : StackExecutor}

/-- `set_storage` records its slot, and no other operation records one. -/
theorem stackStep_writes {op : StackOp} (he : e.stackStep createIncreaseNonce backend op = some e')
    (slot : Slot) :
    slot ∈ e'.writes ↔ slot ∈ e.writes ∨ ∃ v, op = .handler (.setStorage slot v) := by
  cases op with
  | enter | resetStorage a =>
    cases he
    simp [writes]
  | handler op =>
    cases op with
    | storage | originalStorage | log =>
      cases he
      simp [writes, storage, originalStorage]
    | setStorage written value =>
      cases he
      rw [writes, setStorage, AccessMap.mem_slots_record, or_comm, writes]
      simp [eq_comm]
    | markDelete address target =>
      cases he
      simp [markDelete_writes]
    | call address t =>
      cases he
      simp [callInner_writes]
    | create caller address value =>
      cases he
      simp [createInner_writes]
    | exit kind => simp [exitSubstate_writes he]
    | deploy address code =>
      obtain ⟨e₁, he₁, rfl⟩ := Option.map_eq_some_iff.1 he
      have hwrites : e₁.writes = e.writes := exitSubstate_writes he₁
      rw [← hwrites]
      simp [writes]

/-- The recorded slots are those of the `set_storage` operations, dropped ones included. -/
theorem stackRun_writes {ops : List StackOp}
    (he : e.stackRun createIncreaseNonce backend ops = some e') (slot : Slot) :
    slot ∈ e'.writes ↔ slot ∈ e.writes ∨ ∃ v, .handler (.setStorage slot v) ∈ ops := by
  induction ops generalizing e with
  | nil =>
    cases he
    simp
  | cons op ops ih =>
    obtain ⟨e₁, hstep, hrest⟩ := Option.bind_eq_some_iff.1 he
    rw [ih hrest, stackStep_writes hstep, or_assoc]
    simp only [List.mem_cons, exists_or, eq_comm]

end StackExecutor

section Root

variable {backend : State} {st : MemoryStackState} (hroot : st.parents = []) {slot : Slot}

include hroot

/-- The account of the effects is reset when the substate says so. -/
theorem account_reset_iff {a : H160} :
    (st.account backend a).reset = true ↔ Clearing.reset.Holds a st.substate := by
  rw [account, Clearing.Holds, hroot]
  cases st.substate.accounts.get a <;> simp [knownAccount]

/-- The effects of the root clear a slot only when the root says so of its account. -/
theorem Clearing.holds_of_clearsSlot
    (h : ∃ x ∈ st.deconstruct backend, x.ClearsSlot false backend slot) :
    ∃ c : Clearing, c.Holds slot.1 st.substate := by
  rcases clearsSlot_iff.1 h with hdeletes | ⟨-, -, hcase⟩
  · exact ⟨.deleted, hdeletes⟩
  · have hreset := hcase.resolve_left fun h => Bool.false_ne_true h.1
    exact ⟨.reset, (account_reset_iff hroot).1 hreset.1⟩

/-- When the root says that an account loses its slots, the effects clear those that the root does
not write. -/
theorem Clearing.Holds.clearsSlot {c : Clearing} (h : c.Holds slot.1 st.substate)
    (hslot : ∀ e ∈ st.substate.storages, e.1 ≠ slot) :
    ∃ x ∈ st.deconstruct backend, x.ClearsSlot false backend slot := by
  rw [clearsSlot_iff]
  by_cases hdeletes : slot.1 ∈ st.substate.deletes
  · exact .inl hdeletes
  · cases c with
    | deleted => exact absurd h hdeletes
    | reset =>
      have hentry : slot.1 ∈ st.substate.accounts.map (·.1) := by
        rw [Clearing.Holds] at h
        by_contra hnot
        simp [AssocMap.get_eq_none_iff.2 hnot] at h
      have hkey := not_mem_storageOf hslot
      refine .inr ⟨⟨?_, hdeletes⟩, rfl, .inr ⟨(account_reset_iff hroot).2 h, hkey⟩⟩
      rw [addresses, List.mem_insertionSort, List.mem_dedup]
      exact List.mem_append_left _ hentry

end Root

/-- **The recorded write set covers what the effects change** on the backend exactly when every slot
with a value, of an account whose clearing reaches the root, is written by some `set_storage`. -/
theorem writes_cover_iff (createIncreaseNonce : Bool) (backend : State) (ops : List StackOp)
    {r : Simulated} (h : (StackExecutor.stackRun createIncreaseNonce backend {} ops).bind
      (StackExecutor.simulated backend) = some r) :
    (∀ slot : Slot,
      (MemoryBackend.apply backend r.effects false).storage slot.1 slot.2 ≠
        backend.storage slot.1 slot.2 → slot ∈ r.rwSet.writeSet.slots) ↔
    ∀ slot : Slot, backend.storage slot.1 slot.2 ≠ 0#256 →
      (∃ c : Clearing, c.Reaches createIncreaseNonce backend slot.1 {} ops) →
        ∃ v, .handler (.setStorage slot v) ∈ ops := by
  rw [covers_iff_clears false createIncreaseNonce backend ops h]
  obtain ⟨e, hrun, hsim⟩ := Option.bind_eq_some_iff.1 h
  rw [StackExecutor.simulated] at hsim
  split at hsim
  · rename_i hroot
    cases hsim
    have hrecorded := StackExecutor.stackRun_recorded Recorded.start hrun
    have hwrites : ∀ slot, slot ∈ e.rwSet.writeSet.slots ↔
        ∃ v, .handler (.setStorage slot v) ∈ ops := fun slot => by
      have := StackExecutor.stackRun_writes hrun slot
      simpa [StackExecutor.writes, AccessMap.slots] using this
    refine forall_congr' fun slot => ?_
    simp only [← hwrites, ← Clearing.stackRun_empty_holds hrun hroot]
    constructor
    · rintro hcovers hvalue ⟨c, hholds⟩
      by_contra hnot
      refine hnot (hcovers (hholds.clearsSlot hroot fun entry hentry heq => hnot ?_) hvalue)
      exact heq ▸ hrecorded _ List.mem_cons_self entry hentry
    · exact fun hcovers hclears hvalue =>
        hcovers hvalue (Clearing.holds_of_clearsSlot hroot hclears)
  · cases hsim

namespace WriteCoverFixture

/-- A contract at `1` with a value in its slot `5`. -/
def contract : State := fun a =>
  if a = 1 then some { storage := fun k => if k = 5 then some 7 else none } else none

/-- The result of operations on the stack over the contract. -/
def simulate (ops : List StackOp) : Option Simulated :=
  (StackExecutor.stackRun true contract {} ops).bind (StackExecutor.simulated contract)

/-- A call in which the contract destroys itself and which is reverted, and one in which it writes
the slot and destroys itself. -/
def writeOps : List StackOp :=
  [.handler (.call 1 none), .handler (.markDelete 1 2), .handler (.exit .reverted),
    .handler (.call 1 none), .handler (.setStorage (1, 5) 9), .handler (.markDelete 1 2),
    .handler (.exit .succeeded)]

/-- The effects of the two calls. -/
def writeEffects : List Apply := [.modify 2 {} none [] false, .delete 1]

/-- The simulation of the write. -/
theorem simulate_writeOps :
    simulate writeOps = some ⟨writeEffects, [], { writeSet := [(1, [(5, 9)])] }⟩ := by
  decide

/-- The contract of the fixture has one slot. -/
theorem contract_storage {slot : Slot} (h : contract.storage slot.1 slot.2 ≠ 0#256) :
    slot = (1, 5) := by
  obtain ⟨a, k⟩ := slot
  by_cases ha : a = 1#160
  · by_cases hk : k = 5#256
    · rw [ha, hk]
      rfl
    · simp [State.storage, contract, ha, hk] at h
  · simp [State.storage, contract, ha] at h

/-- The deletion empties the slot `5`, and `set_storage` has recorded it. -/
theorem writes_cover_writeOps :
    (MemoryBackend.apply contract writeEffects false).storage 1 5 = 0 ∧
      ∀ slot : Slot, (MemoryBackend.apply contract writeEffects false).storage slot.1 slot.2 ≠
        contract.storage slot.1 slot.2 → slot ∈ [((1, 5) : Slot)] := by
  refine ⟨by decide, (writes_cover_iff true contract writeOps simulate_writeOps).2 ?_⟩
  intro slot hvalue _
  exact ⟨9, by rw [contract_storage hvalue]; decide⟩

/-- The reverted deletion alone does not reach the root. -/
example : ¬Clearing.deleted.Reaches true contract 1 {} (writeOps.take 3) := by decide

/-- A call in which the contract destroys itself. -/
def destroyOps : List StackOp :=
  [.handler (.call 1 none), .handler (.markDelete 1 2), .handler (.exit .succeeded)]

/-- A call that creates a contract there, since the account has neither code nor nonce. -/
def createOps : List StackOp := [.handler (.create 3 1 0), .handler (.deploy 1 [0])]

/-- The operations empty the slot and record nothing there. -/
def ClearsUnrecorded (ops : List StackOp) : Prop :=
  ∃ r, simulate ops = some r ∧ contract.storage 1 5 = 7 ∧
    (MemoryBackend.apply contract r.effects false).storage 1 5 = 0 ∧
    (1, 5) ∉ r.rwSet.writeSet.slots

/-- The deletion and the creation empty the slot, and nothing is recorded. -/
theorem writes_miss_cleared : ClearsUnrecorded destroyOps ∧ ClearsUnrecorded createOps :=
  ⟨⟨⟨[.modify 2 {} none [] false, .delete 1], [], {}⟩, by decide⟩,
    ⟨[.modify 1 ⟨0, 1⟩ (some [0]) [] true, .modify 3 ⟨0, 1⟩ none [] false], [], {}⟩, by decide⟩

end WriteCoverFixture

end Chase
