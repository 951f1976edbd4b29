import Chase.Vm.Metering
import Chase.Vm.Requests

/-!
# What an instruction is charged for

`Priced` says for every instruction what `dynamic_opcode_cost` charges it for, with the words of the
stack that the price depends on and what a static call refuses; `Ranged` says which range of the
memory it pays for. `dynamicOpcodeCost_spec` proves both for every handler, and what follows about
prices is proved from them: a price that depends on a length is paired with a range of this length,
and an instruction that goes on costs something.
-/

namespace Chase.Vm

open EarlyExit

/-- The costs that depend on nothing that matters here: no length, no transfer, and no write. -/
def GasCost.Flat : GasCost → Prop
  | .base | .veryLow | .low | .blockHash | .extCodeSize _ | .balance _ | .extCodeHash _ | .exp _
  | .sLoad _ => True
  | _ => False

/-- What an instruction is charged for; an instruction that is switched off, or that a static call
refuses, has an invalid cost. -/
def Priced (i : Instruction) (stack : Stack) (isStatic : Bool) (cost : GasCost) : Prop :=
  (∃ o, cost = .invalid o) ∨
    match i with
    | .ret | .revert => cost = .zero
    | .sha3 => ∃ len, stack.peek 1 = .ok len ∧ cost = .sha3 len
    | .extcodecopy => ∃ len isCold, stack.peek 3 = .ok len ∧ cost = .extCodeCopy isCold len
    | .calldatacopy | .codecopy | .returndatacopy =>
      ∃ len, stack.peek 2 = .ok len ∧ cost = .veryLowCopy len
    | .sstore => isStatic = false ∧ ∃ original current new isCold,
        stack.peek 1 = .ok new ∧ cost = .sStore original current new isCold
    | .log n => isStatic = false ∧ ∃ len, stack.peek 1 = .ok len ∧ cost = .log n len
    | .create _ => isStatic = false ∧
        (cost = .create ∨ ∃ len, stack.peek 2 = .ok len ∧ cost = .create2 len)
    | .suicide => isStatic = false ∧ ∃ value isCold targetExists alreadyRemoved,
        cost = .suicide value isCold targetExists alreadyRemoved
    | .call .call => ∃ value gas isCold targetExists, stack.peek 2 = .ok value ∧
        (isStatic = true → value = 0#256) ∧ cost = .call value gas isCold targetExists
    | .call .callCode => ∃ value gas isCold targetExists, stack.peek 2 = .ok value ∧
        cost = .callCode value gas isCold targetExists
    | .call .delegateCall => ∃ gas isCold targetExists, cost = .delegateCall gas isCold targetExists
    | .call .staticCall => ∃ gas isCold targetExists, cost = .staticCall gas isCold targetExists
    | _ => cost.Flat

/-- A range that is on the stack. -/
def RangeAt (stack : Stack) (offset len : Nat) (m : MemoryCost) : Prop :=
  stack.peek offset = .ok m.offset ∧ stack.peek len = .ok m.len

/-- The range of the memory that an instruction pays for. -/
def Ranged (i : Instruction) (stack : Stack) (memory : Option MemoryCost) : Prop :=
  match i with
  | .sha3 | .ret | .revert | .log _ => ∃ m, RangeAt stack 0 1 m ∧ memory = some m
  | .codecopy | .calldatacopy | .returndatacopy => ∃ m, RangeAt stack 0 2 m ∧ memory = some m
  | .extcodecopy => ∃ m, RangeAt stack 1 3 m ∧ memory = some m
  | .mload | .mstore => ∃ offset, stack.peek 0 = .ok offset ∧ memory = some ⟨offset, 32#256⟩
  | .mstore8 => ∃ offset, stack.peek 0 = .ok offset ∧ memory = some ⟨offset, 1#256⟩
  | .create _ => ∃ m, RangeAt stack 1 2 m ∧ memory = some m
  | .call .call | .call .callCode => ∃ m m', RangeAt stack 3 4 m ∧ RangeAt stack 5 6 m' ∧
      memory = some (m.join m')
  | .call .delegateCall | .call .staticCall => ∃ m m', RangeAt stack 2 3 m ∧
      RangeAt stack 4 5 m' ∧ memory = some (m.join m')
  | _ => memory = none

section

variable {H : Type} {h : StateHandler H} {config : Config} {address : H160} {opcode : Opcode}
  {stack : Stack} {isStatic : Bool} {J : H → Prop} {E : ExitError → H → Prop}

/-- The computation of a cost asks whether something is cold and what a slot holds; the questions
keep `J`, and an exit from `J` has `E`. -/
structure StateHandler.Keeps (h : StateHandler H) (J : H → Prop) (E : ExitError → H → Prop) :
    Prop where
  exit : ∀ e s, J s → E e s
  isCold : ∀ a index, Triple J (h.isCold a index) (fun _ => J) E
  storage : ∀ slot, Triple J (h.storage slot) (fun _ => J) E
  originalStorage : ∀ slot, Triple J (h.originalStorage slot) (fun _ => J) E

/-- The program keeps `J`, and its result has `P`. -/
def Yields {α : Type} (J : H → Prop) (E : ExitError → H → Prop) (x : EarlyExit ExitError H α)
    (P : α → Prop) : Prop :=
  Triple J x (fun a s => P a ∧ J s) E

theorem yields_pure {α : Type} {a : α} {P : α → Prop} (hP : P a) : Yields J E (pure a) P :=
  triple_pure fun _ hs => ⟨hP, hs⟩

/-- What the last part yields is what a bind yields. -/
theorem yields_bind {α β : Type} {x : EarlyExit ExitError H α} {f : α → EarlyExit ExitError H β}
    {P : β → Prop} (hx : Triple J x (fun _ => J) E) (hf : ∀ a, Yields J E (f a) P) :
    Yields J E (x >>= f) P :=
  triple_bind hx hf

/-- What is known of the first part can be used for the last one. -/
theorem yields_and {α β : Type} {x : EarlyExit ExitError H α} {f : α → EarlyExit ExitError H β}
    {P : α → Prop} {Q : β → Prop} (hx : Yields J E x P) (hf : ∀ a, P a → Yields J E (f a) Q) :
    Yields J E (x >>= f) Q :=
  triple_bind hx fun a => triple_and (hf a)

theorem yields_read {α β : Type} {g : H → α} {f : α → EarlyExit ExitError H β} {P : β → Prop}
    (hf : ∀ a, Yields J E (f a) P) : Yields J E (read g >>= f) P :=
  yields_bind (triple_read fun _ hs => hs) hf

section

variable (k : h.Keeps J E)

include k

/-- A word of the stack that the cost depends on. -/
theorem yields_peek {β : Type} {n : Nat} {f : H256 → EarlyExit ExitError H β} {P : β → Prop}
    (hf : ∀ a, stack.peek n = .ok a → Yields J E (f a) P) :
    Yields J E (peekWord stack n >>= f) P := by
  refine yields_and (P := fun a => stack.peek n = .ok a) (fun s hs => ?_) hf
  rw [peekWord]
  cases hp : stack.peek n with
  | ok a => exact ⟨rfl, hs⟩
  | error e => exact k.exit e s hs

/-- The price of an instruction that looks an account up. -/
theorem yields_accountCost {n : Nat} {cost : Bool → GasCost} {P : GasCost → Prop}
    (hP : ∀ isCold, P (cost isCold)) : Yields J E (accountCost h stack n cost) fun r => P r.1 :=
  yields_peek k fun _ _ => yields_bind (k.isCold _ _) fun isCold => yields_pure (hP isCold)

/-- The price of an instruction that takes a length from the stack. -/
theorem yields_lengthCost {n : Nat} {cost : U256 → GasCost} {P : GasCost → Prop}
    (hP : ∀ len, stack.peek n = .ok len → P (cost len)) :
    Yields J E (lengthCost stack n cost) fun r => P r.1 :=
  yields_peek k fun len hlen => yields_pure (hP len hlen)

/-- The price of a call with a value takes the value from the stack. -/
theorem yields_callGasCost_value {cost : U256 → U256 → Bool → Bool → GasCost} {P : GasCost → Prop}
    (hP : ∀ value gas isCold targetExists, stack.peek 2 = .ok value →
      P (cost value gas isCold targetExists)) :
    Yields J E (callGasCost h stack true cost) fun r => P r.1 :=
  yields_peek k fun _ _ => yields_peek k fun value hvalue => yields_peek k fun gas _ =>
    yields_bind (k.isCold _ _) fun isCold => yields_read fun targetExists =>
      yields_pure (hP value gas isCold targetExists hvalue)

/-- The price of a call without a value. -/
theorem yields_callGasCost {cost : U256 → U256 → Bool → Bool → GasCost} {P : GasCost → Prop}
    (hP : ∀ value gas isCold targetExists, P (cost value gas isCold targetExists)) :
    Yields J E (callGasCost h stack false cost) fun r => P r.1 :=
  yields_peek k fun _ _ => yields_bind (triple_pure fun _ hs => hs) fun value =>
    yields_peek k fun gas _ => yields_bind (k.isCold _ _) fun isCold =>
      yields_read fun targetExists => yields_pure (hP value gas isCold targetExists)

end

/-- The price of an instruction that a fork enables. -/
theorem yields_switched {enabled : Bool} {cost : GasCost} {P : GasCost → Prop} (hP : P cost)
    (hinvalid : P (.invalid opcode)) :
    Yields J E (switched opcode enabled cost) fun r => P r.1 := by
  rw [switched]
  split
  · exact yields_pure hP
  · exact yields_pure hinvalid

/-- The price of an instruction depends on it and on its operands. -/
theorem yields_dynamicGasCost (k : h.Keeps J E) :
    Yields J E (dynamicGasCost h config address opcode stack isStatic) fun r =>
      Priced (decode opcode) stack isStatic r.1 := by
  have hinvalid : ∀ i, Priced i stack isStatic (.invalid opcode) := fun _ => .inl ⟨opcode, rfl⟩
  rw [dynamicGasCost]
  cases hd : decode opcode with
  | ret => exact yields_pure (.inr rfl)
  | mload | mstore | mstore8 => exact yields_pure (.inr trivial)
  | revert => exact yields_switched (.inr rfl) (hinvalid _)
  | query q =>
    cases q with
    | chainid | selfbalance | basefee | returndatasize =>
      exact yields_switched (.inr trivial) (hinvalid _)
    | _ => exact yields_pure (hinvalid _)
  | op2 f =>
    cases f with
    | shl | shr | sar => exact yields_switched (.inr trivial) (hinvalid _)
    | exp => exact yields_lengthCost k fun _ _ => .inr trivial
    | _ => exact yields_pure (hinvalid _)
  | extcodesize | balance => exact yields_accountCost k fun _ => .inr trivial
  | blockhash => exact yields_pure (.inr trivial)
  | extcodehash =>
    refine triple_ite (fun _ => ?_) fun _ => yields_pure (hinvalid _)
    exact yields_accountCost k fun _ => .inr trivial
  | sha3 => exact yields_lengthCost k fun len hlen => .inr ⟨len, hlen, rfl⟩
  | extcodecopy =>
    exact yields_peek k fun _ _ => yields_bind (k.isCold _ _) fun isCold =>
      yields_peek k fun len hlen => yields_pure (.inr ⟨len, isCold, hlen, rfl⟩)
  | calldatacopy | codecopy => exact yields_lengthCost k fun len hlen => .inr ⟨len, hlen, rfl⟩
  | sload =>
    exact yields_peek k fun _ _ => yields_bind (k.isCold _ _) fun _ => yields_pure (.inr trivial)
  | returndatacopy =>
    refine triple_ite (fun _ => ?_) fun _ => yields_pure (hinvalid _)
    exact yields_lengthCost k fun len hlen => .inr ⟨len, hlen, rfl⟩
  | sstore =>
    refine triple_ite (fun hstatic => ?_) fun _ => yields_pure (hinvalid _)
    exact yields_peek k fun _ _ => yields_peek k fun new hnew =>
      yields_bind (k.originalStorage _) fun original => yields_bind (k.storage _) fun current =>
        yields_bind (k.isCold _ _) fun isCold =>
          yields_pure (.inr ⟨by simpa using hstatic, original, current, new, isCold, hnew, rfl⟩)
  | log n =>
    refine triple_ite (fun hstatic => ?_) fun _ => yields_pure (hinvalid _)
    exact yields_lengthCost k fun len hlen => .inr ⟨by simpa using hstatic, len, hlen, rfl⟩
  | create isCreate2 =>
    refine triple_ite (fun hstatic => ?_) fun _ => triple_ite (fun hstatic => ?_) fun _ =>
      yields_pure (hinvalid _)
    · exact yields_pure (.inr ⟨by simpa using hstatic.1, .inl rfl⟩)
    · exact yields_lengthCost k fun len hlen =>
        .inr ⟨by simpa using hstatic.1, .inr ⟨len, hlen, rfl⟩⟩
  | suicide =>
    refine triple_ite (fun hstatic => ?_) fun _ => yields_pure (hinvalid _)
    exact yields_peek k fun _ _ => yields_read fun value => yields_bind (k.isCold _ _) fun isCold =>
      yields_read fun targetExists => yields_read fun alreadyRemoved => yields_pure
        (.inr ⟨by simpa using hstatic, value, isCold, targetExists, alreadyRemoved, rfl⟩)
  | call scheme =>
    cases scheme with
    | call =>
      refine triple_ite (fun hstatic => ?_) fun _ => ?_
      · have hstatic : isStatic = false := by simpa using hstatic
        exact yields_callGasCost_value k fun value gas isCold targetExists hvalue =>
          .inr ⟨value, gas, isCold, targetExists, hvalue, fun h => by simp [hstatic] at h, rfl⟩
      · refine yields_peek k fun value hvalue =>
          triple_ite (fun hzero => ?_) fun _ => yields_pure (hinvalid _)
        refine yields_callGasCost_value k fun value' gas isCold targetExists hvalue' => ?_
        have hsame : value' = value := Except.ok.inj (hvalue'.symm.trans hvalue)
        exact .inr ⟨value', gas, isCold, targetExists, hvalue', fun _ => hsame.trans hzero, rfl⟩
    | callCode =>
      exact yields_callGasCost_value k fun value gas isCold targetExists hvalue =>
        .inr ⟨value, gas, isCold, targetExists, hvalue, rfl⟩
    | delegateCall =>
      refine triple_ite (fun _ => ?_) fun _ => yields_pure (hinvalid _)
      exact yields_callGasCost k fun _ gas isCold targetExists =>
        .inr ⟨gas, isCold, targetExists, rfl⟩
    | staticCall =>
      exact yields_callGasCost k fun _ gas isCold targetExists =>
        .inr ⟨gas, isCold, targetExists, rfl⟩
  | push n =>
    cases n with
    | zero => exact yields_switched (.inr trivial) (hinvalid _)
    | succ n => exact yields_pure (hinvalid _)
  | _ => exact yields_pure (hinvalid _)

/-! ## Ranges -/

section

variable (k : h.Keeps J E)

include k

/-- A range that is read has its offset and its length on the stack. -/
theorem yields_memoryRange (offset len : Nat) :
    Yields J E (memoryRange stack offset len) (RangeAt stack offset len) :=
  yields_peek k fun _ hoffset => yields_peek k fun _ hlen => yields_pure ⟨hoffset, hlen⟩

/-- The memory of an instruction with one range. -/
theorem yields_oneRange (offset len : Nat) :
    Yields J E (oneRange stack offset len) fun memory =>
      ∃ m, RangeAt stack offset len m ∧ memory = some m :=
  yields_and (yields_memoryRange k offset len) fun m hm => yields_pure ⟨m, hm, rfl⟩

/-- The memory of an instruction with one word or byte. -/
theorem yields_memoryWord (len : U256) :
    Yields J E (memoryWord stack len) fun memory =>
      ∃ offset, stack.peek 0 = .ok offset ∧ memory = some ⟨offset, len⟩ :=
  yields_peek k fun offset hoffset => yields_pure ⟨offset, hoffset, rfl⟩

/-- The memory of an instruction with two ranges covers both. -/
theorem yields_joined (a b c d : Nat) :
    Yields J E
      (do
        let input ← memoryRange stack a b
        let output ← memoryRange stack c d
        pure (some (input.join output)))
      fun memory => ∃ m m', RangeAt stack a b m ∧ RangeAt stack c d m' ∧
        memory = some (m.join m') :=
  yields_and (yields_memoryRange k a b) fun m hm =>
    yields_and (yields_memoryRange k c d) fun m' hm' => yields_pure ⟨m, m', hm, hm', rfl⟩

/-- The memory of an instruction is the range of its operands. -/
theorem yields_dynamicMemoryCost :
    Yields J E (dynamicMemoryCost opcode stack) (Ranged (decode opcode) stack) := by
  rw [dynamicMemoryCost]
  cases decode opcode with
  | sha3 | ret | revert | log => exact yields_oneRange k 0 1
  | codecopy | calldatacopy | returndatacopy => exact yields_oneRange k 0 2
  | extcodecopy => exact yields_oneRange k 1 3
  | mload | mstore => exact yields_memoryWord k 32#256
  | mstore8 => exact yields_memoryWord k 1#256
  | create => exact yields_oneRange k 1 2
  | call scheme =>
    cases scheme with
    | call | callCode => exact yields_joined k 3 4 5 6
    | delegateCall | staticCall => exact yields_joined k 2 3 4 5
  | _ => exact yields_pure rfl

/-- What `dynamic_opcode_cost` charges for, and what it does to the handler. -/
theorem yields_dynamicOpcodeCost :
    Yields J E (dynamicOpcodeCost h config address opcode stack isStatic) fun r =>
      Priced (decode opcode) stack isStatic r.1 ∧ Ranged (decode opcode) stack r.2.2 :=
  yields_and (yields_dynamicGasCost k) fun _ hpriced =>
    yields_and (yields_dynamicMemoryCost k) fun _ hranged => yields_pure ⟨hpriced, hranged⟩

/-- The computation of a cost keeps what its questions keep. -/
theorem triple_dynamicOpcodeCost :
    Triple J (dynamicOpcodeCost h config address opcode stack isStatic) (fun _ => J) E :=
  triple_mono (yields_dynamicOpcodeCost k) (fun _ hs => hs) (fun _ _ hs => hs.2) fun _ _ hs => hs

end

/-- What `dynamic_opcode_cost` charges for. -/
theorem dynamicOpcodeCost_spec {s s' : H} {cost : GasCost} {target : StorageTarget}
    {memory : Option MemoryCost}
    (heq : dynamicOpcodeCost h config address opcode stack isStatic s =
      (.ok (cost, target, memory), s')) :
    Priced (decode opcode) stack isStatic cost ∧ Ranged (decode opcode) stack memory := by
  have hspec : Yields (fun _ => True) (fun _ _ => True)
      (dynamicOpcodeCost h config address opcode stack isStatic) _ :=
    yields_dynamicOpcodeCost ⟨fun _ _ hs => hs, fun _ _ => preserves_const,
      fun _ => preserves_const, fun _ => preserves_const⟩
  have hpost := hspec s trivial
  rw [heq] at hpost
  exact hpost.1

end

/-! ## What follows about prices -/

/-- There are the logs `LOG0` to `LOG4`. -/
theorem decode_log_le (o : Opcode) (n : Nat) (h : decode o = .log n) : n ≤ 4 := by
  have hall : ∀ o : Opcode, (match decode o with | .log n => n | _ => 0) ≤ 4 :=
    forall_opcode (P := fun o => (match decode o with | .log n => n | _ => 0) ≤ 4)
      (by decide +kernel)
  have := hall o
  rwa [h] at this

/-- A price that depends on a length is paired with a range of this length. -/
theorem Priced.paired {i : Instruction} {stack : Stack} {isStatic : Bool} {cost : GasCost}
    {memory : Option MemoryCost} (hp : Priced i stack isStatic cost) (hr : Ranged i stack memory) :
    Paired cost memory := by
  have hsame : ∀ {n len len'}, stack.peek n = .ok len → stack.peek n = .ok len' → len = len' :=
    fun h h' => Except.ok.inj (h.symm.trans h')
  intro len hlen
  rcases hp with ⟨o, rfl⟩ | hp
  · cases hlen
  · cases i with
    | sha3 =>
      obtain ⟨len', hpeek, rfl⟩ := hp
      obtain ⟨m, hm, rfl⟩ := hr
      cases hlen
      exact ⟨m, rfl, hsame hm.2 hpeek⟩
    | extcodecopy =>
      obtain ⟨len', isCold, hpeek, rfl⟩ := hp
      obtain ⟨m, hm, rfl⟩ := hr
      cases hlen
      exact ⟨m, rfl, hsame hm.2 hpeek⟩
    | calldatacopy | codecopy | returndatacopy =>
      obtain ⟨len', hpeek, rfl⟩ := hp
      obtain ⟨m, hm, rfl⟩ := hr
      cases hlen
      exact ⟨m, rfl, hsame hm.2 hpeek⟩
    | log n =>
      obtain ⟨-, len', hpeek, rfl⟩ := hp
      obtain ⟨m, hm, rfl⟩ := hr
      cases hlen
      exact ⟨m, rfl, hsame hm.2 hpeek⟩
    | create isCreate2 =>
      obtain ⟨m, hm, rfl⟩ := hr
      rcases hp.2 with rfl | ⟨len', hpeek, rfl⟩
      · cases hlen
      · cases hlen
        exact ⟨m, rfl, hsame hm.2 hpeek⟩
    | ret | revert =>
      cases hp
      cases hlen
    | sstore =>
      obtain ⟨-, original, current, new, isCold, -, rfl⟩ := hp
      cases hlen
    | suicide =>
      obtain ⟨-, value, isCold, targetExists, alreadyRemoved, rfl⟩ := hp
      cases hlen
    | call scheme =>
      cases scheme with
      | call =>
        obtain ⟨value, gas, isCold, targetExists, -, -, rfl⟩ := hp
        cases hlen
      | callCode =>
        obtain ⟨value, gas, isCold, targetExists, -, rfl⟩ := hp
        cases hlen
      | delegateCall | staticCall =>
        obtain ⟨gas, isCold, targetExists, rfl⟩ := hp
        cases hlen
    | _ => cases cost <;> first | exact hp.elim | cases hlen

/-- Only a log has the price of a log. -/
theorem Priced.log {i : Instruction} {stack : Stack} {isStatic : Bool} {n : Nat} {len : U256}
    (hp : Priced i stack isStatic (.log n len)) : i = .log n := by
  rcases hp with ⟨o, h⟩ | hp
  · cases h
  · cases i with
    | log m =>
      obtain ⟨-, len', -, h⟩ := hp
      cases h
      rfl
    | call scheme => cases scheme <;> simp at hp
    | _ => simp [GasCost.Flat] at hp

/-- The prices of an instruction do not wrap. -/
theorem Priced.lt_gasBound {config : Config} (hs : config.Small) {o : Opcode} {stack : Stack}
    {isStatic : Bool} {cost : GasCost} {memory : Option MemoryCost} {g : Gasometer} (hg : g.Sound)
    (hp : Priced (decode o) stack isStatic cost) (hr : Ranged (decode o) stack memory) (i : Inner)
    (memoryGas gasCost : Nat) (hi : g.inner = .ok i)
    (hmemory : i.memoryAfter memory = .ok memoryGas)
    (hgas : Inner.gasCost config cost g.gas = .ok gasCost) : memoryGas + gasCost < gasBound := by
  have hm := memoryAfter_lt hmemory
  have hold := hg.memory i hi
  have hc : gasCost < 2 ^ 48 := by
    refine gasCost_lt hs (fun len hlen => ?_) (fun n len h => ?_) hgas
    · obtain ⟨m, rfl, rfl⟩ := hp.paired hr len hlen
      exact len_lt_of_memoryGasFor hmemory
    · exact decode_log_le o n (Priced.log (h ▸ hp))
  rw [gasBound]
  omega

/-! ## What is charged at least -/

/-- Everything that is not free costs something. -/
structure Config.Positive (config : Config) : Prop where
  warm : config.increaseStateAccessGas = true →
    0 < config.gasStorageReadWarm ∧ 0 < config.gasAccountAccessCold ∧ 0 < config.gasSloadCold
  regular : config.increaseStateAccessGas = false →
    0 < config.gasExtCode ∧ 0 < config.gasExtCodeHash ∧ 0 < config.gasBalance ∧ 0 < config.gasCall
  sload : 0 < config.gasSload
  sstore : 0 < config.gasSstoreSet ∧ 0 < config.gasSstoreReset

section Positive

variable {config : Config} (hpos : config.Positive)

include hpos

/-- The price of an access is positive. -/
theorem addressAccessCost_pos (isCold : Bool) {regular : Nat}
    (hr : config.increaseStateAccessGas = false → 0 < regular) :
    0 < addressAccessCost config isCold regular := by
  rw [addressAccessCost]
  split
  · rename_i hincrease
    obtain ⟨hwarm, hcold, -⟩ := hpos.warm hincrease
    split
    · exact hcold
    · exact hwarm
  · rename_i hincrease
    exact hr (by simpa using hincrease)

/-- The price of a call is positive. -/
theorem callCost_pos (value : U256) (isCold a b newAccount : Bool) :
    0 < callCost config value isCold a b newAccount := by
  have := addressAccessCost_pos hpos isCold fun h => (hpos.regular h).2.2.2
  rw [callCost]
  omega

/-- The price of a write into a slot is positive. -/
theorem sstoreCost_pos {original current new : H256} {gas c : Nat} {isCold : Bool}
    (h : sstoreCost config original current new gas isCold = .ok c) : 0 < c := by
  have hbase : ∀ c, sstoreBaseCost config original current new gas = .ok c → 0 < c := by
    intro c hc
    have hset := hpos.sstore.1
    have hreset := hpos.sstore.2
    have hload := hpos.sload
    rw [sstoreBaseCost] at hc
    repeat' split at hc
    all_goals
      first
      | cases hc; assumption
      | cases hc
  rw [sstoreCost] at h
  cases hb : sstoreBaseCost config original current new gas with
  | error e =>
    rw [hb] at h
    cases h
  | ok b =>
    rw [hb] at h
    have hb := hbase b hb
    have hc : (if isCold then b + config.gasSloadCold else b) = c := Except.ok.inj h
    rw [← hc]
    split <;> omega

/-- A price that does not depend on a length is positive. -/
theorem flat_pos {cost : GasCost} (hflat : cost.Flat) {gas c : Nat}
    (h : Inner.gasCost config cost gas = .ok c) : 0 < c := by
  rw [Inner.gasCost.eq_def] at h
  cases cost with
  | base | veryLow | low | blockHash =>
    cases h
    decide
  | extCodeSize isCold =>
    cases h
    exact addressAccessCost_pos hpos isCold fun h => (hpos.regular h).1
  | balance isCold =>
    cases h
    exact addressAccessCost_pos hpos isCold fun h => (hpos.regular h).2.2.1
  | extCodeHash isCold =>
    cases h
    exact addressAccessCost_pos hpos isCold fun h => (hpos.regular h).2.1
  | exp power =>
    dsimp only at h
    rw [expCost] at h
    split at h
    · cases h
      decide
    · dsimp only at h
      split at h
      · cases h
      · rw [checkU64_eq_ok h, gExp]
        omega
  | sLoad isCold =>
    cases h
    rw [sloadCost]
    split
    · rename_i hincrease
      obtain ⟨hwarm, -, hcold⟩ := hpos.warm hincrease
      split
      · exact hcold
      · exact hwarm
    · exact hpos.sload
  | _ => exact hflat.elim

/-- An instruction that goes on costs something. -/
theorem Priced.pos {i : Instruction} {stack : Stack} {isStatic : Bool} {cost : GasCost}
    (hp : Priced i stack isStatic cost) (hhalts : ¬i.Halts) {gas c : Nat}
    (h : Inner.gasCost config cost gas = .ok c) : 0 < c := by
  rcases hp with ⟨o, rfl⟩ | hp
  · cases h
  · cases i with
    | ret | revert | suicide | stop => exact absurd trivial hhalts
    | sha3 =>
      obtain ⟨len, -, rfl⟩ := hp
      rw [wordCost_eq_ok h, gSha3]
      omega
    | extcodecopy =>
      obtain ⟨len, isCold, -, rfl⟩ := hp
      have := addressAccessCost_pos hpos isCold fun h => (hpos.regular h).1
      rw [wordCost_eq_ok h]
      omega
    | calldatacopy | codecopy | returndatacopy =>
      obtain ⟨len, -, rfl⟩ := hp
      rw [wordCost_eq_ok h, gVerylow]
      omega
    | sstore =>
      obtain ⟨-, original, current, new, isCold, -, rfl⟩ := hp
      exact sstoreCost_pos hpos h
    | log n =>
      obtain ⟨-, len, -, rfl⟩ := hp
      rw [logCost_eq_ok h, gLog]
      omega
    | create isCreate2 =>
      rcases hp.2 with rfl | ⟨len, -, rfl⟩
      · cases h
        decide
      · rw [wordCost_eq_ok h, gCreate]
        omega
    | call scheme =>
      cases scheme with
      | call =>
        obtain ⟨value, g, isCold, targetExists, -, -, rfl⟩ := hp
        cases h
        exact callCost_pos hpos ..
      | callCode =>
        obtain ⟨value, g, isCold, targetExists, -, rfl⟩ := hp
        cases h
        exact callCost_pos hpos ..
      | delegateCall | staticCall =>
        obtain ⟨g, isCold, targetExists, rfl⟩ := hp
        cases h
        exact callCost_pos hpos ..
    | _ => exact flat_pos hpos hp h

end Positive

/-- A call that transfers a value pays for it. -/
theorem Priced.transfer {config : Config} {scheme : CallScheme} {stack : Stack} {isStatic : Bool}
    {cost : GasCost} (hp : Priced (.call scheme) stack isStatic cost)
    (hscheme : scheme = .call ∨ scheme = .callCode) {value : U256}
    (hvalue : stack.peek 2 = .ok value)
    (hne : value ≠ 0#256) {gas c : Nat} (h : Inner.gasCost config cost gas = .ok c) :
    gCallvalue ≤ c := by
  have hcost : ∀ isCold b newAccount,
      gCallvalue ≤ callCost config value isCold true b newAccount := by
    intro isCold b newAccount
    rw [callCost, xferCost]
    simp only [ne_eq, hne, not_false_eq_true, decide_true, Bool.and_self, if_true]
    omega
  rcases hp with ⟨o, rfl⟩ | hp
  · cases h
  · rcases hscheme with rfl | rfl
    · obtain ⟨value', g, isCold, targetExists, hpeek, -, rfl⟩ := hp
      cases h
      cases hvalue.symm.trans hpeek
      exact hcost ..
    · obtain ⟨value', g, isCold, targetExists, hpeek, rfl⟩ := hp
      cases h
      cases hvalue.symm.trans hpeek
      exact hcost ..

/-- The static costs are small, and only `STOP` is free. -/
theorem staticOpcodeCost_le (o : Opcode) (c : Nat) (h : staticOpcodeCost o = some c) :
    c ≤ 10 ∧ (¬(decode o).Halts → 0 < c) := by
  have hall : ∀ o : Opcode, ∀ c ∈ staticOpcodeCost o, c ≤ 10 ∧ (decode o ≠ .stop → 0 < c) :=
    forall_opcode (P := fun o => ∀ c ∈ staticOpcodeCost o, c ≤ 10 ∧ (decode o ≠ .stop → 0 < c))
      (by decide +kernel)
  obtain ⟨hle, hpos⟩ := hall o c h
  refine ⟨hle, fun hh => hpos fun hstop => hh ?_⟩
  rw [hstop]
  trivial

/-- From Istanbul on, the forks have small prices, and nothing but an end is free. -/
theorem small_of_mem_forks {config : Config} (h : config ∈ Config.forks.tail) :
    config.Small ∧ config.Positive := by
  have hle : ∀ config ∈ Config.forks.tail, (∀ p ∈ config.prices, p ≤ 2 ^ 40) ∧
      config.callStipend < gCallvalue := by decide
  have hpos : ∀ config ∈ Config.forks.tail,
      (0 < config.gasStorageReadWarm ∧ 0 < config.gasAccountAccessCold ∧ 0 < config.gasSloadCold ∨
        config.increaseStateAccessGas = false) ∧
      (0 < config.gasExtCode ∧ 0 < config.gasExtCodeHash ∧ 0 < config.gasBalance ∧
        0 < config.gasCall ∨ config.increaseStateAccessGas = true) ∧
      0 < config.gasSload ∧ 0 < config.gasSstoreSet ∧ 0 < config.gasSstoreReset := by decide
  have hcode : ∀ config ∈ Config.forks.tail, config.createContractLimit = some 0x6000 ∧
      (config.maxInitcodeSize = none ∨ config.maxInitcodeSize = some 0xC000) := by decide
  obtain ⟨hprices, hstipend⟩ := hle config h
  obtain ⟨hwarm, hregular, hsload, hsstore⟩ := hpos config h
  obtain ⟨hcontract, hinit⟩ := hcode config h
  refine ⟨⟨hprices, hstipend, ⟨_, hcontract, by decide⟩, fun limit hlimit => ?_⟩,
    ⟨fun htrue => ?_, fun hfalse => ?_, hsload, hsstore⟩⟩
  · rcases hinit with hinit | hinit
    · rw [hinit] at hlimit
      cases hlimit
    · rw [hinit] at hlimit
      cases hlimit
      decide
  · rw [htrue] at hwarm
    exact hwarm.resolve_right Bool.noConfusion
  · rw [hfalse] at hregular
    exact hregular.resolve_right Bool.noConfusion

end Chase.Vm
