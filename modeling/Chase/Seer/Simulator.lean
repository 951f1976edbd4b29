import Chase.Evm.Backend
import Chase.Seer.Predictor

/-!
# The fast path of Seer

`seer_simulate_tx` (`seer/simulator.rs:31`) answers from the pre-execution cache when a result is
stored under the transaction's fingerprint, and otherwise simulates and stores the result. An entry
is never checked against the storage and never replaced, and the fingerprint leaves out the nonce
and the access list. So the answer to a call is the result of the *first* earlier call with the same
fingerprint that simulated successfully (`servedBy`, `entries_run`), and the fast path agrees with
plain simulation exactly when that result is still the current one (`seerSimulateTx_agrees_iff`).
-/

namespace Chase.Seer

/-- The two hashes that a fingerprint stores in place of the value and of the data: `DefaultHasher`
over the words of the value, and over the data when there is some. -/
structure DefaultHasher where
  value : U256 → UInt64
  data : Option Bytes → UInt64

/-- `TxFingerprint`. -/
structure TxFingerprint where
  caller : H160
  toAddr : Option H160
  valueHash : UInt64
  dataHash : UInt64
  gasLimit : UInt64
  deriving DecidableEq, Repr

/-- `TxFingerprint::from_tx`. -/
def TxFingerprint.fromTx (h : DefaultHasher) (tx : EthereumTransaction) : TxFingerprint where
  caller := tx.caller
  toAddr := tx.toAddr
  valueHash := h.value tx.value
  dataHash := h.data tx.data
  gasLimit := tx.gasLimit

/-- `PreExecutionCache`. -/
structure PreExecutionCache where
  entries : TxFingerprint → Option Simulated := fun _ => none
  hits : Nat := 0
  misses : Nat := 0

/-- `PreExecutionCache::get`. -/
def PreExecutionCache.get (c : PreExecutionCache) (h : DefaultHasher) (tx : EthereumTransaction) :
    Option Simulated × PreExecutionCache :=
  match c.entries (.fromTx h tx) with
  | some cached => (some cached, { c with hits := c.hits + 1 })
  | none => (none, { c with misses := c.misses + 1 })

/-- `PreExecutionCache::insert`. -/
def PreExecutionCache.insert (c : PreExecutionCache) (h : DefaultHasher) (tx : EthereumTransaction)
    (cached : Simulated) : PreExecutionCache :=
  { c with entries := Function.update c.entries (.fromTx h tx) (some cached) }

/-- `SeerConfig`. -/
structure SeerConfig where
  enablePerceptron : Bool := true
  enableCache : Bool := true
  contractLocalityOrdering : Bool := true

/-- `SeerConfig::is_enabled`. -/
def SeerConfig.isEnabled (config : SeerConfig) : Bool :=
  config.enablePerceptron || config.enableCache || config.contractLocalityOrdering

/-- `SeerContext`. -/
structure SeerContext where
  config : SeerConfig
  varTable : VarTable := fun _ _ _ => none
  preExecutionCache : PreExecutionCache := {}

/-- `SeerContext::new`. -/
def SeerContext.new (config : SeerConfig) : SeerContext := { config }

section
variable {σ ε : Type} (h : DefaultHasher)
  (simulateTx : EthereumTransaction → σ → Except ε (Option Simulated))

/-- What `seer_simulate_tx` does with the result of a successful simulation: it stores it and lets
the predictor learn from it. -/
def SeerContext.record (seer : SeerContext) (tx : EthereumTransaction) (r : Simulated) :
    SeerContext :=
  let cache :=
    if seer.config.enableCache then seer.preExecutionCache.insert h tx r
    else seer.preExecutionCache
  let varTable :=
    match seer.config.enablePerceptron, tx.toAddr with
    | true, some addr => seer.varTable.learnFromRwAccess addr r.rwSet.readKeys r.rwSet.writeKeys
    | _, _ => seer.varTable
  { seer with preExecutionCache := cache, varTable }

/-- `seer_simulate_tx`, with `evm_utils::simulate_tx` a function of the transaction and of the
storage. -/
def seerSimulateTx (tx : EthereumTransaction) (snapshot : σ) (seer : SeerContext) :
    Except ε (Option Simulated) × SeerContext :=
  let (cached, cache) :=
    if seer.config.enableCache then seer.preExecutionCache.get h tx
    else (none, seer.preExecutionCache)
  let seer := { seer with preExecutionCache := cache }
  match cached with
  | some r => (.ok (some r), seer)
  | none =>
    match simulateTx tx snapshot with
    | .ok (some r) => (.ok (some r), seer.record h tx r)
    | result => (result, seer)

/-- The context after a sequence of calls, each with the storage it meets. -/
def SeerContext.run (seer : SeerContext) (calls : List (EthereumTransaction × σ)) : SeerContext :=
  calls.foldl (fun seer c => (seerSimulateTx h simulateTx c.1 c.2 seer).2) seer

/-- The call whose result the cache holds for the fingerprint `fp` after `calls`: the first one with
that fingerprint whose simulation succeeded. -/
def servedBy (fp : TxFingerprint) (calls : List (EthereumTransaction × σ)) :
    Option (EthereumTransaction × σ) :=
  calls.find? fun c => .fromTx h c.1 = fp ∧ (simulateTx c.1 c.2).toOption.join.isSome

variable {h simulateTx}

/-- With the cache off a call simulates. -/
theorem seerSimulateTx_off {tx : EthereumTransaction} {snapshot : σ} {seer : SeerContext}
    (hoff : seer.config.enableCache = false) :
    (seerSimulateTx h simulateTx tx snapshot seer).1 = simulateTx tx snapshot := by
  simp only [seerSimulateTx, hoff, Bool.false_eq_true, if_false]
  split <;> simp_all

/-- The result of a call with the cache on: the entry under its fingerprint, or a simulation. -/
theorem seerSimulateTx_on {tx : EthereumTransaction} {snapshot : σ} {seer : SeerContext}
    (hon : seer.config.enableCache = true) :
    (seerSimulateTx h simulateTx tx snapshot seer).1 =
      match seer.preExecutionCache.entries (.fromTx h tx) with
      | some r => .ok (some r)
      | none => simulateTx tx snapshot := by
  simp only [seerSimulateTx, hon, if_true, PreExecutionCache.get]
  cases he : seer.preExecutionCache.entries (.fromTx h tx) with
  | some r => simp
  | none => simp only; split <;> simp_all

/-- A call does not change the configuration. -/
theorem seerSimulateTx_config (tx : EthereumTransaction) (snapshot : σ) (seer : SeerContext) :
    (seerSimulateTx h simulateTx tx snapshot seer).2.config = seer.config := by
  simp only [seerSimulateTx]
  split
  · rfl
  · split <;> rfl

/-- One more call. -/
theorem run_append_single (seer : SeerContext) (calls : List (EthereumTransaction × σ))
    (c : EthereumTransaction × σ) :
    seer.run h simulateTx (calls ++ [c]) =
      (seerSimulateTx h simulateTx c.1 c.2 (seer.run h simulateTx calls)).2 := by
  rw [SeerContext.run, List.foldl_append]; rfl

/-- The calls keep the configuration. -/
theorem run_config (seer : SeerContext) (calls : List (EthereumTransaction × σ)) :
    (seer.run h simulateTx calls).config = seer.config := by
  induction calls using List.reverseRecOn with
  | nil => rfl
  | append_singleton calls c ih => rw [run_append_single, seerSimulateTx_config, ih]

/-- The call that serves a fingerprint has it and simulated successfully. -/
theorem servedBy_some {fp : TxFingerprint} {calls : List (EthereumTransaction × σ)}
    {c : EthereumTransaction × σ} (hs : servedBy h simulateTx fp calls = some c) :
    ∃ r, simulateTx c.1 c.2 = .ok (some r) := by
  have hsome := List.find?_some hs
  simp only [decide_eq_true_eq] at hsome
  cases hm : simulateTx c.1 c.2 with
  | error e => rw [hm] at hsome; simp [Except.toOption] at hsome
  | ok o =>
    cases o with
    | none => rw [hm] at hsome; simp [Except.toOption] at hsome
    | some r => exact ⟨r, rfl⟩

/-- The entries after one call with the cache on: a successful simulation is stored under a
fingerprint that had no entry, and nothing else changes. -/
theorem seerSimulateTx_entries {tx : EthereumTransaction} {snapshot : σ} {seer : SeerContext}
    (hon : seer.config.enableCache = true) (fp : TxFingerprint) :
    (seerSimulateTx h simulateTx tx snapshot seer).2.preExecutionCache.entries fp =
      (seer.preExecutionCache.entries fp).or
        (if .fromTx h tx = fp then (simulateTx tx snapshot).toOption.join else none) := by
  simp only [seerSimulateTx, hon, if_true, PreExecutionCache.get]
  cases he : seer.preExecutionCache.entries (.fromTx h tx) with
  | some r =>
    by_cases hfp : TxFingerprint.fromTx h tx = fp
    · subst hfp; simp [he]
    · simp [hfp]
  | none =>
    simp only
    cases hr : simulateTx tx snapshot with
    | error e => simp [Except.toOption]
    | ok o =>
      cases o with
      | none => simp [Except.toOption]
      | some r =>
        by_cases hfp : TxFingerprint.fromTx h tx = fp
        · subst hfp
          simp [SeerContext.record, hon, PreExecutionCache.insert, he, Except.toOption]
        · simp [SeerContext.record, hon, PreExecutionCache.insert, hfp,
            Function.update_of_ne (Ne.symm hfp)]

/-- The cache after a run holds, for each fingerprint, the result of the first call that simulated
successfully under it. -/
theorem entries_run {config : SeerConfig} (hon : config.enableCache = true)
    (calls : List (EthereumTransaction × σ)) (fp : TxFingerprint) :
    ((SeerContext.new config).run h simulateTx calls).preExecutionCache.entries fp =
      (servedBy h simulateTx fp calls).bind fun c => (simulateTx c.1 c.2).toOption.join := by
  induction calls using List.reverseRecOn with
  | nil => rfl
  | append_singleton calls c ih =>
    have hc : ((SeerContext.new config).run h simulateTx calls).config.enableCache = true := by
      rw [run_config]; exact hon
    rw [run_append_single, seerSimulateTx_entries hc, ih]
    -- an earlier success decides; otherwise the last call decides
    cases hs : servedBy h simulateTx fp calls with
    | some c₀ =>
      obtain ⟨r, hr⟩ := servedBy_some hs
      have happ : servedBy h simulateTx fp (calls ++ [c]) = some c₀ := by
        rw [servedBy] at hs ⊢
        rw [List.find?_append, hs, Option.some_or]
      simp [happ, hr, Except.toOption]
    | none =>
      have happ : servedBy h simulateTx fp (calls ++ [c]) = servedBy h simulateTx fp [c] := by
        rw [servedBy] at hs ⊢
        rw [List.find?_append, hs, Option.none_or, servedBy]
      rw [happ]
      by_cases hfp : TxFingerprint.fromTx h c.1 = fp
      · cases hr : (simulateTx c.1 c.2).toOption.join <;> simp [servedBy, hfp, hr]
      · simp [servedBy, hfp]

/-- After any sequence of calls on a new context, interleaved with any changes of the storage, the
answer to a call is the result of simulating it exactly when the cache is off, or when the first
earlier call with its fingerprint that simulated successfully, if any, had the result that the
present call has. -/
theorem seerSimulateTx_agrees_iff (config : SeerConfig) (calls : List (EthereumTransaction × σ))
    (tx : EthereumTransaction) (snapshot : σ) :
    (seerSimulateTx h simulateTx tx snapshot ((SeerContext.new config).run h simulateTx calls)).1 =
        simulateTx tx snapshot ↔
      config.enableCache = false ∨
        ∀ c, servedBy h simulateTx (.fromTx h tx) calls = some c →
          simulateTx c.1 c.2 = simulateTx tx snapshot := by
  cases hc : config.enableCache with
  | false =>
    have hoff : ((SeerContext.new config).run h simulateTx calls).config.enableCache = false := by
      rw [run_config]; exact hc
    simp [seerSimulateTx_off hoff]
  | true =>
    have hon : ((SeerContext.new config).run h simulateTx calls).config.enableCache = true := by
      rw [run_config]; exact hc
    rw [seerSimulateTx_on hon, entries_run hc]
    cases hs : servedBy h simulateTx (.fromTx h tx) calls with
    | none => simp
    | some c =>
      obtain ⟨r, hr⟩ := servedBy_some hs
      simp [hr, Except.toOption]

end

/-! ## A stale entry -/

namespace CounterFixture

/-- A call of the counter contract at address `1`. -/
def incrementTx : EthereumTransaction := .ofCall 9 1 0 [] 100000 0

/-- The simulation of a call of the counter: it reads slot `0` and writes its successor. -/
def increment (_ : EthereumTransaction) (s : State) : Except String (Option Simulated) :=
  let v := s.storage 1 0
  .ok (some
    { effects := [.modify 1 (s.basic 1) none [(0, v + 1)] false]
      logs := []
      rwSet := { readSet := [(1, [(0, v)])], writeSet := [(1, [(0, v + 1)])] } })

/-- A hasher; both calls of the fixture are of one transaction, so every hasher does. -/
def hasher : DefaultHasher := ⟨fun v => v.toNat.toUInt64, fun d => (d.getD []).length.toUInt64⟩

/-- The storage that the first pass leaves: the counter's slot holds `1`. -/
def afterFirst : State := MemoryBackend.apply State.empty [.modify 1 {} none [(0, 1)] false] false

/-- The second call of one transaction, on the storage that the first one's effects left, is
answered with the first one's effects. -/
theorem seerSimulateTx_stale :
    (seerSimulateTx hasher increment incrementTx afterFirst
        ((SeerContext.new {}).run hasher increment [(incrementTx, State.empty)])).1 ≠
      increment incrementTx afterFirst := by
  intro h
  have heff := congrArg (fun r => r.toOption.join.map (·.effects)) h
  revert heff
  decide

end CounterFixture

end Chase.Seer
