import Chase.Vm.Gas

/-!
# What the gasometer keeps

Below a gas limit of `gasBound`, the arithmetic of the gasometer does not wrap (`Gasometer.Sound`):
what was used and what the memory has cost is within the limit. Every operation is described by one
lemma: it succeeds and moves so much gas, or the gasometer has failed.

The cost of an instruction can depend on a length of the stack, which can be any word; but such an
instruction also pays for a range of the memory of this length (`Paired`), and the price of the
memory keeps the length small.
-/

namespace Chase.Vm

open EarlyExit

/-- Below this limit the gas does not wrap. -/
def gasBound : Nat := 2 ^ 63

/-- A number that fits is not wrapped. -/
theorem u64_of_lt {n : Nat} (h : n < 2 ^ 64) : u64 n = n := Nat.mod_eq_of_lt h

theorem subU64_of_le {a b : Nat} (hb : b ≤ a) (ha : a < 2 ^ 64) : subU64 a b = a - b := by
  rw [subU64, u64]
  omega

namespace Gasometer

/-- The gas that was used, with the one of the memory, is within the limit; the one of the memory is
the price of some words. -/
structure Sound (g : Gasometer) : Prop where
  limit : g.gasLimit < gasBound
  total : ∀ i, g.inner = .ok i → i.usedGas + i.memoryGas ≤ g.gasLimit
  memory : ∀ i, g.inner = .ok i → i.memoryGas ≤ 2 ^ 56

variable {g : Gasometer} {i : Inner} {config : Config}

/-- A new gasometer is sound. -/
theorem sound_new {gasLimit : Nat} (h : gasLimit < gasBound) : Sound { gasLimit } where
  limit := h
  total i hi := by
    cases hi
    exact Nat.zero_le _
  memory i hi := by
    cases hi
    exact Nat.zero_le _

/-- Another meter within the limit. -/
theorem Sound.withInner (h : g.Sound) {i : Inner} (htotal : i.usedGas + i.memoryGas ≤ g.gasLimit)
    (hmemory : i.memoryGas ≤ 2 ^ 56) : Sound { g with inner := .ok i } where
  limit := h.limit
  total i' hi := by
    cases hi
    exact htotal
  memory i' hi := by
    cases hi
    exact hmemory

theorem Sound.failed (h : g.Sound) (e : ExitError) : Sound { g with inner := .error e } where
  limit := h.limit
  total i hi := by cases hi
  memory i hi := by cases hi

/-- The gas that is left is the limit without what was used and paid for the memory. -/
theorem Sound.gas_eq (h : g.Sound) (hi : g.inner = .ok i) :
    g.gas = g.gasLimit - (i.usedGas + i.memoryGas) := by
  have hlimit : g.gasLimit < 2 ^ 63 := h.limit
  have htotal := h.total i hi
  rw [gas, hi]
  dsimp only
  rw [subU64_of_le (a := g.gasLimit) (by omega) (by omega), subU64_of_le (by omega) (by omega)]
  omega

theorem gas_of_error {e : ExitError} (hi : g.inner = .error e) : g.gas = 0 := by rw [gas, hi]

theorem Sound.gas_le (h : g.Sound) : g.gas ≤ g.gasLimit := by
  cases hi : g.inner with
  | ok i =>
    rw [h.gas_eq hi]
    omega
  | error e =>
    rw [gas_of_error hi]
    exact Nat.zero_le _

/-- The total is what was used and paid for the memory. -/
theorem Sound.totalUsedGas_eq (h : g.Sound) (hi : g.inner = .ok i) :
    g.totalUsedGas = i.usedGas + i.memoryGas := by
  have hlimit : g.gasLimit < 2 ^ 63 := h.limit
  have htotal := h.total i hi
  rw [totalUsedGas, hi]
  exact u64_of_lt (by omega)

/-- What remains and what was used make up the limit, also after a failure. -/
theorem Sound.gas_add_totalUsedGas (h : g.Sound) : g.gas + g.totalUsedGas = g.gasLimit := by
  cases hi : g.inner with
  | ok i =>
    have htotal := h.total i hi
    rw [h.gas_eq hi, h.totalUsedGas_eq hi]
    omega
  | error e => rw [gas_of_error hi, totalUsedGas, hi, Nat.zero_add]

/-- The gasometer has failed. -/
def Failed (g g' : Gasometer) : Prop := ∃ e, g' = { g with inner := .error e }

theorem Failed.sound {g' : Gasometer} (h : g.Sound) (hf : Failed g g') : g'.Sound := by
  obtain ⟨e, rfl⟩ := hf
  exact h.failed e

theorem Failed.gas {g' : Gasometer} (hf : Failed g g') : g'.gas = 0 := by
  obtain ⟨e, rfl⟩ := hf
  rfl

/-- What `record_cost` does: the cost is used, or the gasometer fails. -/
theorem recordCost_cases (h : g.Sound) {cost : Nat} (hcost : cost < gasBound) :
    (∃ i, g.inner = .ok i ∧ i.usedGas + i.memoryGas + cost ≤ g.gasLimit ∧
      g.recordCost cost =
        (.ok (), { g with inner := .ok { i with usedGas := i.usedGas + cost } })) ∨
    ∃ e g', g.recordCost cost = (.error e, g') ∧ Failed g g' := by
  have hlimit : g.gasLimit < 2 ^ 63 := h.limit
  have hcost : cost < 2 ^ 63 := hcost
  rw [recordCost]
  cases hi : g.inner with
  | ok i =>
    have htotal := h.total i hi
    rw [h.totalUsedGas_eq hi, u64_of_lt (by omega)]
    split
    · exact .inr ⟨_, _, rfl, _, rfl⟩
    · rename_i hle
      refine .inl ⟨i, rfl, by omega, ?_⟩
      rw [update, hi]
      dsimp only
      rw [u64_of_lt (by omega)]
  | error e =>
    split
    · exact .inr ⟨_, _, rfl, _, rfl⟩
    · refine .inr ⟨e, g, ?_, e, ?_⟩
      · rw [update, hi]
      · rw [← hi]

/-- What `record_transaction` does: the cost is compared with what remains, so it cannot wrap. -/
theorem recordTransaction_cases (h : g.Sound) (config : Config) (cost : TransactionCost) :
    (∃ i, g.inner = .ok i ∧ i.usedGas + i.memoryGas + transactionCost config cost ≤ g.gasLimit ∧
      g.recordTransaction config cost = (.ok (),
        { g with inner := .ok { i with usedGas := i.usedGas + transactionCost config cost } })) ∨
    ∃ e g', g.recordTransaction config cost = (.error e, g') ∧ Failed g g' := by
  have hlimit : g.gasLimit < 2 ^ 63 := h.limit
  rw [recordTransaction]
  split
  · exact .inr ⟨_, _, rfl, _, rfl⟩
  rename_i hle
  rw [update]
  cases hi : g.inner with
  | ok i =>
    have htotal := h.total i hi
    rw [h.gas_eq hi] at hle
    refine .inl ⟨i, rfl, by omega, ?_⟩
    dsimp only
    rw [u64_of_lt (by omega)]
  | error e =>
    refine .inr ⟨e, g, rfl, e, ?_⟩
    rw [← hi]

/-- What `record_stipend` does, when the gas was used before. -/
theorem recordStipend_eq (h : g.Sound) (hi : g.inner = .ok i) {stipend : Nat}
    (hle : stipend ≤ i.usedGas) :
    g.recordStipend stipend =
      (.ok (), { g with inner := .ok { i with usedGas := i.usedGas - stipend } }) := by
  have hlimit : g.gasLimit < 2 ^ 63 := h.limit
  have htotal := h.total i hi
  rw [recordStipend, update, hi]
  dsimp only
  rw [subU64_of_le hle (by omega)]

/-- What `record_dynamic_cost` does, when the prices are small. -/
theorem recordDynamicCost_cases (h : g.Sound) {cost : GasCost} {memory : Option MemoryCost}
    (hbound : ∀ i memoryGas gasCost, g.inner = .ok i → i.memoryAfter memory = .ok memoryGas →
      Inner.gasCost config cost g.gas = .ok gasCost → memoryGas + gasCost < gasBound) :
    (∃ i memoryGas gasCost, g.inner = .ok i ∧ i.memoryAfter memory = .ok memoryGas ∧
      Inner.gasCost config cost g.gas = .ok gasCost ∧
      memoryGas + i.usedGas + gasCost ≤ g.gasLimit ∧
      g.recordDynamicCost config cost memory =
        (.ok (),
          { g with
            inner := .ok
              { memoryGas, usedGas := i.usedGas + gasCost,
                refundedGas := i.refundedGas + Inner.gasRefund config cost } })) ∨
    ∃ e g', g.recordDynamicCost config cost memory = (.error e, g') ∧ Failed g g' := by
  have hlimit : g.gasLimit < 2 ^ 63 := h.limit
  rw [recordDynamicCost]
  cases hi : g.inner with
  | error e => exact .inr ⟨e, g, rfl, e, by rw [← hi]⟩
  | ok i =>
    have htotal := h.total i hi
    dsimp only
    cases hmemory : i.memoryAfter memory with
    | error e => exact .inr ⟨e, _, rfl, e, rfl⟩
    | ok memoryGas =>
      dsimp only
      cases hgas : Inner.gasCost config cost g.gas with
      | error e => exact .inr ⟨e, _, rfl, e, rfl⟩
      | ok gasCost =>
        have hsmall : memoryGas + gasCost < 2 ^ 63 := hbound i memoryGas gasCost hi hmemory hgas
        dsimp only
        rw [u64_of_lt (n := memoryGas + i.usedGas) (by omega),
          u64_of_lt (n := memoryGas + i.usedGas + gasCost) (by omega),
          u64_of_lt (n := i.usedGas + gasCost) (by omega)]
        split
        · exact .inr ⟨_, _, rfl, _, rfl⟩
        · rename_i hle
          cases hcheck : Inner.extraCheck config cost
              (g.gasLimit - (memoryGas + i.usedGas + gasCost)) with
          | error e => exact .inr ⟨e, _, rfl, e, rfl⟩
          | ok u => exact .inl ⟨i, memoryGas, gasCost, rfl, hmemory, rfl, by omega, rfl⟩

end Gasometer

/-! ## The price of the memory -/

/-- A number of words that has a price: the price, and how many words there can be. -/
theorem memoryGas_eq_ok {a c : Nat} (h : memoryGas a = .ok c) :
    c = 3 * a + a * a / 512 ∧ a < 2 ^ 32 ∧ c < 2 ^ 56 := by
  rw [memoryGas] at h
  split at h
  · cases h
  split at h
  · cases h
  split at h
  · cases h
  · rename_i _ hsquare _
    have hsquare : a * a ≤ 2 ^ 64 - 1 := Nat.not_lt.1 hsquare
    have ha : a < 2 ^ 32 := by
      by_contra hle
      have := Nat.mul_le_mul (Nat.not_lt.1 hle) (Nat.not_lt.1 hle)
      omega
    have hc : 3 * a + a * a / 512 = c := Except.ok.inj h
    exact ⟨hc.symm, ha, by omega⟩

/-- What a range of the memory costs: nothing when it is empty, else the price of all the words up
to its end, or what was paid before when that is more. -/
theorem memoryGasFor_eq_ok {i : Inner} {m : MemoryCost} {c : Nat} (h : i.memoryGasFor m = .ok c) :
    (m.len = 0#256 ∧ c = i.memoryGas) ∨
      m.len ≠ 0#256 ∧ ∃ a d, memoryGas a = .ok d ∧ c = max i.memoryGas d ∧
        Memory.rangeEnd m.offset.toNat m.len.toNat = 32 * a := by
  rw [Inner.memoryGasFor] at h
  split at h
  · rename_i hzero
    exact .inl ⟨hzero, (Except.ok.inj h).symm⟩
  · rename_i hne
    refine .inr ⟨hne, ?_⟩
    split at h
    · cases h
    · rename_i finish hsome
      rw [checkedAdd_eq_some] at hsome
      split at h
      · cases h
      · dsimp only at h
        generalize ha : (if finish.toNat % 32 = 0 then finish.toNat / 32
          else finish.toNat / 32 + 1) = a at h
        cases hg : memoryGas a with
        | error e =>
          rw [hg] at h
          cases h
        | ok d =>
          rw [hg] at h
          refine ⟨a, d, hg, (Except.ok.inj h).symm, ?_⟩
          rw [Memory.rangeEnd, if_neg (I256.pos_of_ne_zero hne).ne', ceil32, ← hsome, ← ha]
          split <;> omega

/-- The price of the memory stays below a bound, whatever the range. -/
theorem memoryAfter_lt {i : Inner} {memory : Option MemoryCost} {c : Nat}
    (h : i.memoryAfter memory = .ok c) : c ≤ max i.memoryGas (2 ^ 56) := by
  cases memory with
  | none =>
    cases h
    exact le_max_left _ _
  | some m =>
    rcases memoryGasFor_eq_ok h with ⟨-, rfl⟩ | ⟨-, a, d, hd, rfl, -⟩
    · exact le_max_left _ _
    · have := (memoryGas_eq_ok hd).2.2
      omega

/-- A range that has a price is short. -/
theorem len_lt_of_memoryGasFor {i : Inner} {m : MemoryCost} {c : Nat}
    (h : i.memoryGasFor m = .ok c) : m.len.toNat < 2 ^ 37 := by
  rcases memoryGasFor_eq_ok h with ⟨hzero, -⟩ | ⟨hne, a, d, hd, -, hend⟩
  · rw [hzero]
    decide
  · have ha := (memoryGas_eq_ok hd).2.1
    rw [Memory.rangeEnd, if_neg (I256.pos_of_ne_zero hne).ne'] at hend
    have := le_ceil32 (m.offset.toNat + m.len.toNat)
    have hlt : a < 2 ^ 32 := ha
    -- `32 * a ≤ 32 * (2 ^ 32 - 1)`, and the range ends there.
    omega

/-! ## Prices -/

namespace Config

variable (config : Config)

/-- The prices that an instruction can have. -/
def prices : List Nat :=
  [config.gasExtCode, config.gasExtCodeHash, config.gasSstoreSet, config.gasSstoreReset,
    config.gasBalance, config.gasSload, config.gasSloadCold, config.gasSuicide,
    config.gasSuicideNewAccount, config.gasCall, config.gasExpbyte, config.gasAccountAccessCold,
    config.gasStorageReadWarm]

/-- The prices are far from the end of an `u64`, a call that transfers pays more than its stipend,
and the code of a contract has a limit, which it has from the Spurious Dragon fork on. -/
structure Small : Prop where
  le : ∀ p ∈ config.prices, p ≤ 2 ^ 40
  stipend : config.callStipend < gCallvalue
  contract : ∃ limit, config.createContractLimit = some limit ∧ limit ≤ 2 ^ 40
  initcode : ∀ limit, config.maxInitcodeSize = some limit → limit ≤ 2 ^ 40

end Config

/-- The length that a cost depends on. -/
def GasCost.length : GasCost → Option U256
  | .sha3 len | .log _ len | .extCodeCopy _ len | .veryLowCopy len | .create2 len => some len
  | _ => none

/-- Whoever pays for a length pays for a range of the memory of this length. -/
def Paired (cost : GasCost) (memory : Option MemoryCost) : Prop :=
  ∀ len, cost.length = some len → ∃ m, memory = some m ∧ m.len = len

theorem checkU64_eq_ok {gas c : Nat} (h : checkU64 gas = .ok c) : c = gas := by
  rw [checkU64] at h
  split at h
  · cases h
  · exact (Except.ok.inj h).symm

/-- The price by words is the base and the words, rounded up. -/
theorem wordCost_eq_ok {base perWord : Nat} {len : U256} {c : Nat}
    (h : wordCost base perWord len = .ok c) :
    c = base + perWord * (len.toNat / 32 + if len.toNat % 32 = 0 then 0 else 1) := by
  rw [wordCost] at h
  generalize (len.toNat / 32 + if len.toNat % 32 = 0 then 0 else 1) = words at h ⊢
  split at h
  · cases h
  split at h
  · cases h
  · exact checkU64_eq_ok h

/-- The price per word of a short length. -/
theorem wordCost_lt {base perWord : Nat} {len : U256} {c : Nat}
    (h : wordCost base perWord len = .ok c) (hlen : len.toNat < 2 ^ 37) (hper : perWord ≤ 6) :
    c < base + 2 ^ 36 := by
  have hwords : (len.toNat / 32 + if len.toNat % 32 = 0 then 0 else 1) ≤ 2 ^ 32 := by
    split <;> omega
  rw [wordCost_eq_ok h]
  have := Nat.mul_le_mul hper hwords
  omega

/-- The price of a log is that of its bytes and topics. -/
theorem logCost_eq_ok {n : Nat} {len : U256} {c : Nat} (h : logCost n len = .ok c) :
    c = gLog + gLogdata * len.toNat + gLogtopic * n := by
  rw [logCost] at h
  split at h
  · cases h
  split at h
  · cases h
  split at h
  · cases h
  · exact checkU64_eq_ok h

/-- The logarithm is at most the number of bits that it starts from. -/
theorem log2floorLoop_le (limbs : List Nat) (l : Nat) : log2floorLoop l limbs ≤ l := by
  induction limbs generalizing l with
  | nil => exact le_rfl
  | cons limb limbs ih =>
    rw [log2floorLoop]
    split
    · exact (ih _).trans (Nat.sub_le _ _)
    · dsimp only
      split <;> omega

/-- The price of an exponentiation is bounded. -/
theorem expCost_lt {config : Config} (hs : config.Small) {power : U256} {c : Nat}
    (h : expCost config power = .ok c) : c < 2 ^ 47 := by
  rw [expCost] at h
  split at h
  · cases h
    decide
  · dsimp only at h
    split at h
    · cases h
    · rw [checkU64_eq_ok h]
      have hprice : config.gasExpbyte ≤ 2 ^ 40 := hs.le _ (by simp [Config.prices])
      have hlog : log2floor power / 8 + 1 ≤ 33 := by
        have := log2floorLoop_le
          ([3, 2, 1, 0].map fun i => power.toNat / 2 ^ (64 * i) % 2 ^ 64) 256
        rw [log2floor]
        omega
      have := Nat.mul_le_mul hprice hlog
      rw [gExp]
      omega

section Bounds

variable {config : Config} (hs : config.Small)

include hs

/-- The price of an access is bounded. -/
theorem addressAccessCost_le (isCold : Bool) {regular : Nat} (hr : regular ≤ 2 ^ 40) :
    addressAccessCost config isCold regular ≤ 2 ^ 40 := by
  rw [addressAccessCost]
  split
  · split
    · exact hs.le _ (by simp [Config.prices])
    · exact hs.le _ (by simp [Config.prices])
  · exact hr

/-- The price of a call is bounded. -/
theorem callCost_lt (value : U256) (isCold a b newAccount : Bool) :
    callCost config value isCold a b newAccount < 2 ^ 41 := by
  have haccess := addressAccessCost_le hs isCold (hs.le config.gasCall (by simp [Config.prices]))
  have hxfer : xferCost a (value ≠ 0#256) ≤ gCallvalue := by
    rw [xferCost]
    split
    · exact le_rfl
    · exact Nat.zero_le _
  have hnew : newCost config b newAccount (value ≠ 0#256) ≤ gNewaccount := by
    rw [newCost]
    split
    · split
      · split
        · exact le_rfl
        · exact Nat.zero_le _
      · split
        · exact le_rfl
        · exact Nat.zero_le _
    · exact Nat.zero_le _
  rw [callCost]
  rw [gCallvalue] at hxfer
  rw [gNewaccount] at hnew
  omega

/-- The price of a deletion is bounded. -/
theorem suicideCost_lt (value : U256) (isCold targetExists : Bool) :
    suicideCost config value isCold targetExists < 2 ^ 43 := by
  have h₁ : config.gasSuicide ≤ 2 ^ 40 := hs.le _ (by simp [Config.prices])
  have h₂ : config.gasSuicideNewAccount ≤ 2 ^ 40 := hs.le _ (by simp [Config.prices])
  have h₃ : config.gasAccountAccessCold ≤ 2 ^ 40 := hs.le _ (by simp [Config.prices])
  rw [suicideCost]
  split <;> split <;> split <;> omega

/-- The price of a write into a slot is bounded. -/
theorem sstoreCost_lt {original current new : H256} {gas c : Nat} {isCold : Bool}
    (h : sstoreCost config original current new gas isCold = .ok c) : c < 2 ^ 42 := by
  have hset : config.gasSstoreSet ≤ 2 ^ 40 := hs.le _ (by simp [Config.prices])
  have hreset : config.gasSstoreReset ≤ 2 ^ 40 := hs.le _ (by simp [Config.prices])
  have hload : config.gasSload ≤ 2 ^ 40 := hs.le _ (by simp [Config.prices])
  have hcold : config.gasSloadCold ≤ 2 ^ 40 := hs.le _ (by simp [Config.prices])
  have hbase : ∀ c, sstoreBaseCost config original current new gas = .ok c → c ≤ 2 ^ 40 := by
    intro c hc
    rw [sstoreBaseCost] at hc
    repeat' split at hc
    all_goals
      first
      | cases hc; assumption
      | cases hc
  rw [sstoreCost] at h
  cases hb : sstoreBaseCost config original current new gas with
  | error e =>
    rw [hb] at h
    cases h
  | ok b =>
    rw [hb] at h
    have hb := hbase b hb
    have hc := Except.ok.inj h
    dsimp only at hc
    split at hc <;> omega

/-- The price of a read from a slot is bounded. -/
theorem sloadCost_le (isCold : Bool) : sloadCost config isCold ≤ 2 ^ 40 := by
  rw [sloadCost]
  split
  · split
    · exact hs.le _ (by simp [Config.prices])
    · exact hs.le _ (by simp [Config.prices])
  · exact hs.le _ (by simp [Config.prices])

/-- A price is small when the lengths are. -/
theorem gasCost_lt {cost : GasCost} {gas c : Nat}
    (hlen : ∀ len, cost.length = some len → len.toNat < 2 ^ 37)
    (htopics : ∀ n len, cost = .log n len → n ≤ 4)
    (h : Inner.gasCost config cost gas = .ok c) : c < 2 ^ 48 := by
  rw [Inner.gasCost.eq_def] at h
  cases cost with
  | call | callCode | delegateCall | staticCall =>
    cases h
    exact (callCost_lt hs ..).trans (by decide)
  | suicide =>
    cases h
    exact (suicideCost_lt hs ..).trans (by decide)
  | sStore => exact (sstoreCost_lt hs h).trans (by decide)
  | sha3 len =>
    have := wordCost_lt h (hlen len rfl) (by decide)
    rw [gSha3] at this
    omega
  | veryLowCopy len =>
    have := wordCost_lt h (hlen len rfl) (by decide)
    rw [gVerylow] at this
    omega
  | create2 len =>
    have := wordCost_lt h (hlen len rfl) (by decide)
    rw [gCreate] at this
    omega
  | extCodeCopy isCold len =>
    have haccess :=
      addressAccessCost_le hs isCold (hs.le config.gasExtCode (by simp [Config.prices]))
    have := wordCost_lt h (hlen len rfl) (by decide)
    omega
  | log n len =>
    have hn := htopics n len rfl
    have hl := hlen len rfl
    rw [logCost_eq_ok h, gLog, gLogdata, gLogtopic]
    omega
  | exp power => exact (expCost_lt hs h).trans (by decide)
  | sLoad isCold =>
    cases h
    exact (sloadCost_le hs isCold).trans_lt (by decide)
  | zero | base | veryLow | low | blockHash | create =>
    cases h
    decide
  | invalid opcode => cases h
  | extCodeSize isCold | balance isCold | extCodeHash isCold =>
    cases h
    exact (addressAccessCost_le hs isCold (hs.le _ (by simp [Config.prices]))).trans_lt (by decide)

end Bounds

end Chase.Vm
