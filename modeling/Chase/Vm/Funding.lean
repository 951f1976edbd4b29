import Chase.Evm.Conservation
import Chase.Vm.Prices
import Chase.Vm.Executor

/-!
# The gas of the substates

The gas of a substate comes from its parent: `Funded` says that every gasometer of the stack is
sound, and that the limit of a substate was charged to its parent, so that what remains can be given
back. `totalGas` is what remains in all of them.

`Spends` is what the operations on the current gasometer do, and `Pays` what they do when they
change nothing else; `enter` and `exit_substate` change the stack. From these, `perform_moves` says
what a question to the handler does: the stack stays funded, and the total grows by no more than the
stipend of a transfer.
-/

namespace Chase.Vm

open EarlyExit

/-- Every gasometer is sound, and its limit was charged to the one of the parent; the depth of a
substate is the number of substates below it, without the root. -/
inductive Funded : List Metadata → Prop
  | root {m : Metadata} : m.gasometer.Sound → m.depth = none → Funded [m]
  | child {m p : Metadata} {ps : List Metadata} {i : Inner} : m.gasometer.Sound →
    m.depth = some ps.length → p.gasometer.inner = .ok i → m.gasometer.gasLimit ≤ i.usedGas →
    Funded (p :: ps) → Funded (m :: p :: ps)

/-- The gas that remains in the substates. -/
def totalGas (ms : List Metadata) : Nat := (ms.map fun m => m.gasometer.gas).sum

@[simp] theorem totalGas_nil : totalGas [] = 0 := rfl

@[simp] theorem totalGas_cons (m : Metadata) (ms : List Metadata) :
    totalGas (m :: ms) = m.gasometer.gas + totalGas ms := by
  simp [totalGas]

theorem totalGas_singleton {m : Metadata} (h : m.gasometer.Sound) :
    totalGas [m] ≤ m.gasometer.gasLimit := by
  rw [totalGas_cons, totalGas_nil, Nat.add_zero]
  exact h.gas_le

namespace Funded

variable {m m' p : Metadata} {ps : List Metadata}

theorem sound (h : Funded (m :: ps)) : m.gasometer.Sound := by
  cases h with
  | root hs => exact hs
  | child hs => exact hs

theorem tail (h : Funded (m :: p :: ps)) : Funded (p :: ps) := by
  cases h with
  | child _ _ _ _ hp => exact hp

/-- The current gasometer can change below its limit. -/
theorem withHead (h : Funded (m :: ps)) (hs : m'.gasometer.Sound) (hdepth : m'.depth = m.depth)
    (hlimit : m'.gasometer.gasLimit = m.gasometer.gasLimit) : Funded (m' :: ps) := by
  cases h with
  | root _ hd => exact .root hs (hdepth.trans hd)
  | child _ hd hi hle hp => exact .child hs (hdepth.trans hd) hi (hlimit.symm ▸ hle) hp

end Funded

/-- The environments that the gas is accounted for: the prices are small, and so are the costs of
the precompiles. -/
structure Environment.Regular (env : Environment) : Prop where
  small : env.config.Small
  precompiles : ∀ a f, env.precompiles a = some f → ∀ input gasLimit context isStatic output cost,
    f input gasLimit context isStatic = .ok (output, cost) → cost < gasBound

namespace Exec

variable {env : Environment} {e e' e'' : Exec}

/-- The metadata of the substates, the current one first. -/
def chain (e : Exec) : List Metadata := e.metadata :: e.parents

/-- A change of the current gasometer. -/
def withGasometer (e : Exec) (gasometer : Gasometer) : Exec :=
  { e with metadata := { e.metadata with gasometer } }

/-- The operations on the current substate spend at least `n` of its gas. -/
structure Spends (n : Nat) (e e' : Exec) : Prop where
  parents : e'.parents = e.parents
  isStatic : e'.metadata.isStatic = e.metadata.isStatic
  depth : e'.metadata.depth = e.metadata.depth
  limit : e'.metadata.gasometer.gasLimit = e.metadata.gasometer.gasLimit
  sound : e'.metadata.gasometer.Sound
  gas : e'.gas + n ≤ e.gas
  used : ∀ i', e'.metadata.gasometer.inner = .ok i' →
    ∃ i, e.metadata.gasometer.inner = .ok i ∧ i.usedGas + n ≤ i'.usedGas

/-- Doing nothing spends nothing. -/
theorem Spends.refl (h : e.metadata.gasometer.Sound) : Spends 0 e e :=
  ⟨rfl, rfl, rfl, rfl, h, le_rfl, fun i hi => ⟨i, hi, le_rfl⟩⟩

/-- A change of anything but the gasometers spends nothing. -/
theorem spends_same (h : e.metadata.gasometer.Sound) (hparents : e'.parents = e.parents)
    (hgasometer : e'.metadata.gasometer = e.metadata.gasometer)
    (hstatic : e'.metadata.isStatic = e.metadata.isStatic)
    (hdepth : e'.metadata.depth = e.metadata.depth) : Spends 0 e e' where
  parents := hparents
  isStatic := hstatic
  depth := hdepth
  limit := by rw [hgasometer]
  sound := by rwa [hgasometer]
  gas := by rw [Exec.gas, Exec.gas, hgasometer, Nat.add_zero]
  used i' hi' := ⟨i', by rwa [← hgasometer], le_rfl⟩

/-- What two operations spend adds up. -/
theorem Spends.trans {a b : Nat} (h : Spends a e e') (h' : Spends b e' e'') :
    Spends (a + b) e e'' where
  parents := h'.parents.trans h.parents
  isStatic := h'.isStatic.trans h.isStatic
  depth := h'.depth.trans h.depth
  limit := h'.limit.trans h.limit
  sound := h'.sound
  gas := by
    have h₁ := h.gas
    have h₂ := h'.gas
    omega
  used i'' hi'' := by
    obtain ⟨i', hi', hle'⟩ := h'.used i'' hi''
    obtain ⟨i, hi, hle⟩ := h.used i' hi'
    exact ⟨i, hi, by omega⟩

/-- An operation spends at least anything below what it spends. -/
theorem Spends.mono {a b : Nat} (h : Spends a e e') (hle : b ≤ a) : Spends b e e' :=
  { h with
    gas := (Nat.add_le_add_left hle _).trans h.gas
    used := fun i' hi' => by
      obtain ⟨i, hi, hu⟩ := h.used i' hi'
      exact ⟨i, hi, by omega⟩ }

/-- An operation that spends keeps the chain funded, and takes its gas from the total. -/
theorem Spends.funded {n : Nat} (h : Spends n e e') (hf : Funded e.chain) :
    Funded e'.chain ∧ totalGas e'.chain + n ≤ totalGas e.chain := by
  refine ⟨?_, ?_⟩
  · rw [chain, h.parents]
    exact hf.withHead h.sound h.depth h.limit
  · have hgas : e'.metadata.gasometer.gas + n ≤ e.metadata.gasometer.gas := h.gas
    rw [chain, chain, totalGas_cons, totalGas_cons, h.parents]
    omega

/-- A failure spends what was left. -/
theorem spends_failed {g : Gasometer} (h : e.metadata.gasometer.Sound)
    (hf : Gasometer.Failed e.metadata.gasometer g) : Spends 0 e (e.withGasometer g) where
  parents := rfl
  isStatic := rfl
  depth := rfl
  limit := by
    obtain ⟨er, rfl⟩ := hf
    rfl
  sound := hf.sound h
  gas := by
    have hzero : (e.withGasometer g).gas = 0 := hf.gas
    omega
  used i' hi' := by
    obtain ⟨er, rfl⟩ := hf
    cases hi'

/-- A success spends what it has used. -/
theorem spends_ok {i : Inner} (i' : Inner) {n : Nat} (h : e.metadata.gasometer.Sound)
    (hi : e.metadata.gasometer.inner = .ok i) (hused : i.usedGas + n ≤ i'.usedGas)
    (hmemory : i.memoryGas ≤ i'.memoryGas) (hbound : i'.memoryGas ≤ 2 ^ 56)
    (htotal : i'.usedGas + i'.memoryGas ≤ e.metadata.gasometer.gasLimit) :
    Spends n e (e.withGasometer { e.metadata.gasometer with inner := .ok i' }) := by
  have hsound := h.withInner htotal hbound
  refine ⟨rfl, rfl, rfl, rfl, hsound, ?_, ?_⟩
  · have hgas' : (e.withGasometer { e.metadata.gasometer with inner := .ok i' }).gas =
        e.metadata.gasometer.gasLimit - (i'.usedGas + i'.memoryGas) := hsound.gas_eq rfl
    have hgas : e.gas = e.metadata.gasometer.gasLimit - (i.usedGas + i.memoryGas) := h.gas_eq hi
    have := h.total i hi
    omega
  · intro i'' hi''
    cases hi''
    exact ⟨i, hi, hused⟩

/-- An operation of the current gasometer changes that gasometer. -/
theorem onGasometer_eq {α : Type} {x : EarlyExit ExitError Gasometer α} {r : Except ExitError α}
    {g : Gasometer} (h : x e.metadata.gasometer = (r, g)) :
    onGasometer x e = (r, e.withGasometer g) := by
  rw [onGasometer, zoom, h]
  cases r <;> rfl

theorem onGasometer_inner {α : Type} (x : EarlyExit ExitError Gasometer α) (e : Exec) :
    (onGasometer x e).2.inner = e.inner := by
  rw [onGasometer, zoom]
  split <;> rfl

/-- An operation that only pays: it spends at least `n`, and leaves the state as it is. -/
structure Pays (n : Nat) (e e' : Exec) : Prop extends Spends n e e' where
  inner : e'.inner = e.inner

namespace Pays

theorem refl (h : e.metadata.gasometer.Sound) : Pays 0 e e := ⟨.refl h, rfl⟩

theorem fail (h : e.metadata.gasometer.Sound) : Pays 0 e e.fail := ⟨spends_failed h ⟨_, rfl⟩, rfl⟩

/-- What is paid adds up. -/
theorem trans {a b : Nat} (h : Pays a e e') (h' : Pays b e' e'') : Pays (a + b) e e'' :=
  ⟨h.toSpends.trans h'.toSpends, h'.inner.trans h.inner⟩

theorem mono {a b : Nat} (h : Pays a e e') (hle : b ≤ a) : Pays b e e' :=
  ⟨h.toSpends.mono hle, h.inner⟩

end Pays

/-- `record_cost` pays the cost. -/
theorem recordCost_pays (h : e.metadata.gasometer.Sound) {cost : Nat} (hcost : cost < gasBound) :
    (∃ e', recordCost cost e = (.ok (), e') ∧ Pays cost e e' ∧
        ∃ i, e'.metadata.gasometer.inner = .ok i) ∨
      ∃ er e', recordCost cost e = (.error er, e') ∧ Pays 0 e e' := by
  rcases Gasometer.recordCost_cases h hcost with ⟨i, hi, htotal, heq⟩ | ⟨er, g', heq, hf⟩
  · refine .inl ⟨_, onGasometer_eq heq,
      ⟨spends_ok _ h hi le_rfl le_rfl (h.memory i hi) ?_, rfl⟩, _, rfl⟩
    dsimp only
    omega
  · exact .inr ⟨er, _, onGasometer_eq heq, spends_failed h hf, rfl⟩

/-- `record_transaction` pays the cost of the transaction. -/
theorem recordTransaction_pays (h : e.metadata.gasometer.Sound) (config : Config)
    (cost : TransactionCost) :
    (∃ e', onGasometer (Gasometer.recordTransaction config · cost) e = (.ok (), e') ∧
        Pays (Gasometer.transactionCost config cost) e e') ∨
      ∃ er e', onGasometer (Gasometer.recordTransaction config · cost) e = (.error er, e') ∧
        Pays 0 e e' := by
  rcases Gasometer.recordTransaction_cases h config cost with
    ⟨i, hi, htotal, heq⟩ | ⟨er, g', heq, hf⟩
  · refine .inl ⟨_, onGasometer_eq heq, spends_ok _ h hi le_rfl le_rfl (h.memory i hi) ?_, rfl⟩
    dsimp only
    omega
  · exact .inr ⟨er, _, onGasometer_eq heq, spends_failed h hf, rfl⟩

/-! ## The check before an instruction -/

/-- The questions of the computation of a cost leave the gasometer as it is, or it has failed. -/
theorem triple_dynamicCost (env : Environment) (h : e.metadata.gasometer.Sound) (context : Context)
    (o : Opcode) (stack : Stack) (isStatic : Bool) :
    Triple (fun e' => e'.parents = e.parents ∧ e'.metadata = e.metadata)
      (dynamicOpcodeCost (stateHandler env) env.config context.address o stack isStatic)
      (fun _ e' => e'.parents = e.parents ∧ e'.metadata = e.metadata) fun _ e' =>
        Spends 0 e e' := by
  have hsame : ∀ {e' : Exec}, e'.parents = e.parents ∧ e'.metadata = e.metadata →
      Spends 0 e e' := by
    rintro e' ⟨hparents, hmetadata⟩
    exact spends_same h hparents (by rw [hmetadata]) (by rw [hmetadata]) (by rw [hmetadata])
  refine triple_dynamicOpcodeCost ⟨fun _ _ he' => hsame he', ?_, ?_, ?_⟩
  · intro a index
    cases index with
    | some index => exact triple_read fun _ he' => he'
    | none =>
      refine triple_bind (Q := fun _ e' => e'.parents = e.parents ∧ e'.metadata = e.metadata) ?_
        fun _ => triple_read fun _ he' => he'
      rintro e' ⟨hparents, hmetadata⟩
      have hs : e'.metadata.gasometer.Sound := hmetadata ▸ h
      rcases Gasometer.recordCost_cases hs (show 0 < gasBound by decide) with
        ⟨i, hi, -, heq⟩ | ⟨er, g', heq, hf⟩
      · have heq : recordCost 0 e' = (.ok (), e') := by
          have hg : ({ e'.metadata.gasometer with
              inner := .ok { i with usedGas := i.usedGas + 0 } } : Gasometer) =
              e'.metadata.gasometer := by
            rw [Nat.add_zero, ← hi]
          rw [hg] at heq
          exact onGasometer_eq heq
        rw [heq]
        exact ⟨hparents, hmetadata⟩
      · rw [show recordCost 0 e' = _ from onGasometer_eq heq]
        exact (hsame ⟨hparents, hmetadata⟩).trans (spends_failed hs hf)
  · exact fun slot e' he' => he'
  · exact fun slot e' he' => he'

/-- What an instruction is charged, by the table or by its price. -/
inductive Charged (config : Config) (o : Opcode) (stack : Stack) (isStatic : Bool) (c : Nat) : Prop
  | table : staticOpcodeCost o = some c → Charged config o stack isStatic c
  | price {cost : GasCost} {gas : Nat} : Priced (decode o) stack isStatic cost →
    Inner.gasCost config cost gas = .ok c → Charged config o stack isStatic c

/-- What the check of an instruction spends. -/
theorem preValidate_spends (hreg : env.Regular) (h : e.metadata.gasometer.Sound) {context : Context}
    {o : Opcode} {stack : Stack} {r : Except ExitError Unit}
    (heq : preValidate env context o stack e = (r, e')) :
    (∃ er, r = .error er ∧ Spends 0 e e') ∨
      ∃ c, r = .ok () ∧ Spends c e e' ∧ Charged env.config o stack e.metadata.isStatic c := by
  rw [preValidate] at heq
  cases hstatic : staticOpcodeCost o with
  | some cost =>
    rw [hstatic] at heq
    have hle := (staticOpcodeCost_le o cost hstatic).1
    have hcost : cost < gasBound := by
      rw [gasBound]
      omega
    rcases recordCost_pays h hcost with ⟨e₁, heq₁, hs, -⟩ | ⟨er, e₁, heq₁, hs⟩
    · cases heq₁.symm.trans heq
      exact .inr ⟨cost, rfl, hs.toSpends, .table hstatic⟩
    · cases heq₁.symm.trans heq
      exact .inl ⟨er, rfl, hs.toSpends⟩
  | none =>
    rw [hstatic] at heq
    dsimp only at heq
    rw [read_bind] at heq
    have hpost := triple_dynamicCost env h context o stack e.metadata.isStatic e ⟨rfl, rfl⟩
    cases hd : dynamicOpcodeCost (stateHandler env) env.config context.address o stack
        e.metadata.isStatic e with
    | mk d e₁ =>
      rw [hd] at hpost
      cases d with
      | error er =>
        rw [bind_error hd] at heq
        cases heq
        exact .inl ⟨er, rfl, hpost⟩
      | ok d =>
        obtain ⟨cost, target, memory⟩ := d
        rw [bind_ok hd] at heq
        dsimp only at heq
        obtain ⟨hpriced, hranged⟩ := dynamicOpcodeCost_spec hd
        obtain ⟨hparents, hmetadata⟩ := hpost
        have hs₁ : e₁.metadata.gasometer.Sound := hmetadata ▸ h
        have hsame : Spends 0 e e₁ :=
          spends_same h hparents (by rw [hmetadata]) (by rw [hmetadata]) (by rw [hmetadata])
        rcases Gasometer.recordDynamicCost_cases hs₁
            (hpriced.lt_gasBound hreg.small hs₁ hranged) with
          ⟨i, memoryGas, gasCost, hi, hmemory, hgas, htotal, hrecord⟩ | ⟨er, g', hrecord, hf⟩
        · have hop : recordDynamicCost env cost memory e₁ = _ := onGasometer_eq hrecord
          rw [bind_ok hop] at heq
          cases heq
          have hbound : memoryGas ≤ 2 ^ 56 := by
            have := memoryAfter_lt hmemory
            have := hs₁.memory i hi
            omega
          have hmono : i.memoryGas ≤ memoryGas := by
            cases memory with
            | none =>
              cases hmemory
              exact le_rfl
            | some m =>
              rcases memoryGasFor_eq_ok hmemory with ⟨-, rfl⟩ | ⟨-, a, d, -, rfl, -⟩
              · exact le_rfl
              · exact le_max_left _ _
          have hspends := spends_ok
            { memoryGas := memoryGas, usedGas := i.usedGas + gasCost,
              refundedGas := i.refundedGas + Inner.gasRefund env.config cost }
            hs₁ hi le_rfl hmono hbound (by dsimp only; omega)
          refine .inr ⟨gasCost, rfl, ?_, .price hpriced hgas⟩
          have htwo := hsame.trans hspends
          rw [Nat.zero_add] at htwo
          -- The access changes only what is warm.
          cases target <;> exact { htwo with }
        · have hop : recordDynamicCost env cost memory e₁ = _ := onGasometer_eq hrecord
          rw [bind_error hop] at heq
          cases heq
          exact .inl ⟨er, rfl, hsame.trans (spends_failed hs₁ hf)⟩

/-- The check of an instruction does not change the substates. -/
theorem preValidate_aligned {context : Context} {o : Opcode} {stack : Stack}
    {r : Except ExitError Unit} (heq : preValidate env context o stack e = (r, e')) :
    e'.inner.state = e.inner.state := by
  have hrecord : ∀ {α : Type} (x : EarlyExit ExitError Gasometer α),
      Preserves (fun e' : Exec => e'.inner.state = e.inner.state) (onGasometer x) := fun x =>
    preserves_iff.2 fun e' he' => by rw [onGasometer_inner, he']
  have hkeeps : Preserves (fun e' : Exec => e'.inner.state = e.inner.state)
      (preValidate env context o stack) := by
    rw [preValidate]
    split
    · exact hrecord _
    · refine preserves_read.bind fun isStatic => Preserves.bind ?_ fun _ =>
        (hrecord _).bind fun _ => preserves_update fun _ he' => he'
      refine triple_dynamicOpcodeCost ⟨fun _ _ he' => he', fun a index => ?_,
        fun _ _ he' => he', fun _ _ he' => he'⟩
      cases index with
      | none => exact (hrecord _).bind fun _ => preserves_read
      | some index => exact preserves_read
  have := preserves_iff.1 hkeeps e rfl
  rwa [heq] at this

/-! ## The gas of a new substate -/

/-- The gas of the new substate is paid by the current one. -/
theorem takeGas_pays (env : Environment) (h : e.metadata.gasometer.Sound) (targetGas : Option Nat)
    (takeL64 : Bool) :
    (∃ gasLimit e', takeGas env targetGas takeL64 e = (.ok gasLimit, e') ∧ Pays gasLimit e e' ∧
      ∃ i, e'.metadata.gasometer.inner = .ok i) ∨
    ∃ er e', takeGas env targetGas takeL64 e = (.error er, e') ∧ Pays 0 e e' := by
  have hgas : ∀ {e : Exec}, e.metadata.gasometer.Sound → e.gas < gasBound := fun h =>
    h.gas_le.trans_lt h.limit
  -- What remains of the limit, possibly after a charge.
  have hafter : (∃ afterGas e₁, Exec.afterGas env takeL64 e = (.ok afterGas, e₁) ∧ Pays 0 e e₁ ∧
      afterGas ≤ e₁.gas) ∨
      ∃ er e₁, Exec.afterGas env takeL64 e = (.error er, e₁) ∧ Pays 0 e e₁ := by
    rw [Exec.afterGas, read_bind]
    split
    · split
      · have hlt : e.gas - l64 e.gas < gasBound := (Nat.sub_le _ _).trans_lt (hgas h)
        rcases recordCost_pays h hlt with ⟨e₁, heq, hs, -⟩ | ⟨er, e₁, heq, hs⟩
        · rw [bind_ok heq]
          exact .inl ⟨e₁.gas, e₁, rfl, hs.mono (Nat.zero_le _), le_rfl⟩
        · rw [bind_error heq]
          exact .inr ⟨er, e₁, rfl, hs⟩
      · exact .inl ⟨l64 e.gas, e, rfl, .refl h, Nat.sub_le _ _⟩
    · exact .inl ⟨e.gas, e, rfl, .refl h, le_rfl⟩
  rw [takeGas]
  rcases hafter with ⟨afterGas, e₁, heq, hs, hle⟩ | ⟨er, e₁, heq, hs⟩
  · rw [bind_ok heq]
    have hlt : min (targetGas.getD afterGas) afterGas < gasBound :=
      ((Nat.min_le_right _ _).trans hle).trans_lt (hgas hs.sound)
    rcases recordCost_pays hs.sound hlt with ⟨e₂, heq₂, hs₂, hi⟩ | ⟨er, e₂, heq₂, hs₂⟩
    · refine .inl ⟨_, e₂, by rw [bind_ok heq₂]; rfl, ?_, hi⟩
      have htwo := hs.trans hs₂
      rwa [Nat.zero_add] at htwo
    · exact .inr ⟨er, e₂, by rw [bind_error heq₂], hs.trans hs₂⟩
  · rw [bind_error heq]
    exact .inr ⟨er, e₁, rfl, hs⟩

/-- Taking gas leaves the state. -/
theorem takeGas_inner (h : e.metadata.gasometer.Sound) {targetGas : Option Nat} {takeL64 : Bool}
    {r : Except ExitError Nat} (heq : takeGas env targetGas takeL64 e = (r, e')) :
    e'.inner = e.inner := by
  rcases takeGas_pays env h targetGas takeL64 with ⟨_, e₁, heq₁, hs, -⟩ | ⟨_, e₁, heq₁, hs⟩
  · cases heq.symm.trans heq₁
    exact hs.inner
  · cases heq.symm.trans heq₁
    exact hs.inner

/-! ## Substates -/

/-- The substates and their metadata go in step, and the metadata is funded. -/
structure Wf (e : Exec) : Prop where
  funded : Funded e.chain
  aligned : e.inner.state.parents.length = e.parents.length

/-- From `e` to `e'` the executor stays well formed, goes up by `height` substates, and the total of
the gas grows by at most `bonus`. -/
structure Moves (height bonus : Nat) (e e' : Exec) : Prop where
  wf : e'.Wf
  parents : e'.parents.length = e.parents.length + height
  total : totalGas e'.chain ≤ totalGas e.chain + bonus

/-- An operation that spends gas and keeps the depth of the state is a move on one level. -/
theorem Spends.moves {n : Nat} (h : Spends n e e') (hwf : e.Wf)
    (hinner : e'.inner.state.parents.length = e.inner.state.parents.length) : Moves 0 0 e e' where
  wf :=
    { funded := (h.funded hwf.funded).1
      aligned := by rw [hinner, hwf.aligned, h.parents] }
  parents := by rw [h.parents, Nat.add_zero]
  total := by
    have := (h.funded hwf.funded).2
    omega

theorem Pays.moves {n : Nat} (h : Pays n e e') (hwf : e.Wf) : Moves 0 0 e e' :=
  h.toSpends.moves hwf (by rw [h.inner])

theorem Wf.withState (h : e.Wf) {state : MemoryStackState}
    (hparents : state.parents.length = e.inner.state.parents.length) : (e.withState state).Wf :=
  ⟨h.funded, hparents.trans h.aligned⟩

/-- The exit of a substate gives the gas that remains to the parent, or loses it. -/
theorem exitSubstate_moves (h : e.Wf) (kind : StackExitKind) (hparents : e.parents ≠ []) :
    (e.exitSubstate kind).2.Wf ∧
      (e.exitSubstate kind).2.parents.length + 1 = e.parents.length ∧
      totalGas (e.exitSubstate kind).2.chain ≤ totalGas e.chain := by
  obtain ⟨p, ps, hps⟩ := List.exists_cons_of_ne_nil hparents
  obtain ⟨hfunded, haligned⟩ := h
  rw [chain, hps] at hfunded
  have hsound := hfunded.sound
  have htail := hfunded.tail
  obtain ⟨i, hi, hle⟩ : ∃ i, p.gasometer.inner = .ok i ∧
      e.metadata.gasometer.gasLimit ≤ i.usedGas := by
    cases hfunded with
    | child _ _ hi hle => exact ⟨_, hi, hle⟩
  have hgas : e.metadata.gasometer.gas ≤ i.usedGas := hsound.gas_le.trans hle
  have hp := htail.sound
  have hptotal := hp.total i hi
  -- The parent with some gas given back, and any refund.
  have hback : ∀ (n : Nat) (refund : Int) (accessed : Option Accessed),
      n ≤ e.metadata.gasometer.gas → Funded ({ p with
        gasometer := { p.gasometer with
          inner := .ok { i with usedGas := i.usedGas - n, refundedGas := refund } }
        accessed } :: ps) ∧
      totalGas ({ p with
        gasometer := { p.gasometer with
          inner := .ok { i with usedGas := i.usedGas - n, refundedGas := refund } }
        accessed } :: ps) ≤ totalGas (e.metadata :: p :: ps) := by
    intro n refund accessed hn
    have hs := hp.withInner (i := { i with usedGas := i.usedGas - n, refundedGas := refund })
      (by dsimp only; omega) (hp.memory i hi)
    refine ⟨htail.withHead hs rfl rfl, ?_⟩
    have hold := hp.gas_eq hi
    rw [totalGas_cons, totalGas_cons, totalGas_cons, hs.gas_eq rfl]
    dsimp only
    omega
  have hlength : e.inner.state.parents.length = ps.length + 1 := by
    rw [haligned, hps, List.length_cons]
  have hdropped : (e.inner.state.exitRevert.getD e.inner.state).parents.length = ps.length := by
    rw [MemoryStackState.exitRevert]
    cases hs : e.inner.state.parents with
    | nil => simp [hs] at hlength
    | cons q qs => simpa [hs] using hlength
  have hcommitted : (e.inner.state.exitCommit.getD e.inner.state).parents.length = ps.length := by
    rw [MemoryStackState.exitCommit]
    cases hs : e.inner.state.parents with
    | nil => simp [hs] at hlength
    | cons q qs => simpa [hs] using hlength
  rw [exitSubstate, hps]
  cases kind with
  | succeeded =>
    have hcommit := hback e.metadata.gasometer.gas
      (i.refundedGas + e.metadata.gasometer.refundedGas)
      (Metadata.mergeAccessed p.accessed e.metadata.accessed) le_rfl
    simp only [Metadata.swallowCommit, Gasometer.recordStipend_eq hp hi hgas]
    refine ⟨⟨hcommit.1, hcommitted⟩, rfl, ?_⟩
    rw [chain, chain, hps]
    exact hcommit.2
  | reverted =>
    have hrevert := hback e.metadata.gasometer.gas i.refundedGas p.accessed le_rfl
    simp only [Metadata.swallowRevert, Gasometer.recordStipend_eq hp hi hgas]
    refine ⟨⟨hrevert.1, hdropped⟩, rfl, ?_⟩
    rw [chain, chain, hps]
    exact hrevert.2
  | failed =>
    refine ⟨⟨htail, hdropped⟩, rfl, ?_⟩
    rw [chain, chain, hps, totalGas_cons e.metadata]
    exact Nat.le_add_left _ _

namespace Moves

variable {height bonus : Nat}

/-- A move can change the state, as long as its depth stays. -/
theorem withState (h : Moves height bonus e e') (state : MemoryStackState)
    (hparents : state.parents.length = e'.inner.state.parents.length) :
    Moves height bonus e (e'.withState state) :=
  ⟨h.wf.withState hparents, h.parents, h.total⟩

/-- A move can be followed by an operation that pays. -/
theorem pays {n : Nat} (h : Moves height bonus e e') (hs : Pays n e' e'') :
    Moves height bonus e e'' := by
  have hmoves := hs.moves h.wf
  refine ⟨hmoves.wf, by rw [hmoves.parents, h.parents, Nat.add_zero], ?_⟩
  have h₁ := h.total
  have h₂ := hmoves.total
  omega

/-- The bonus of a move can be raised. -/
theorem mono {bonus' : Nat} (h : Moves height bonus e e') (hle : bonus ≤ bonus') :
    Moves height bonus' e e' :=
  { h with total := h.total.trans (Nat.add_le_add_left hle _) }

theorem parents_ne_nil (h : Moves 1 bonus e e') : e'.parents ≠ [] := by
  intro hnil
  have := h.parents
  rw [hnil, List.length_nil] at this
  omega

/-- Out of the new substate again. -/
theorem exit (h : Moves 1 bonus e e') (kind : StackExitKind) :
    Moves 0 bonus e (e'.exitSubstate kind).2 := by
  obtain ⟨hwf, hlength, htotal⟩ := exitSubstate_moves h.wf kind h.parents_ne_nil
  refine ⟨hwf, ?_, htotal.trans h.total⟩
  have := h.parents
  omega

end Moves

/-- Into a new substate, with gas that the current one has spent. -/
theorem enter_moves {gasLimit limit bonus : Nat} {i : Inner} (h : e.Wf) (hs : Pays gasLimit e e')
    (hi : e'.metadata.gasometer.inner = .ok i) (hlimit : limit ≤ gasLimit + bonus)
    (hused : limit ≤ i.usedGas) (isStatic : Bool) :
    Moves 1 bonus e (e'.enter limit isStatic) := by
  obtain ⟨hfunded, htotal⟩ := hs.funded h.funded
  have hle : i.usedGas ≤ e'.metadata.gasometer.gasLimit :=
    (Nat.le_add_right _ _).trans (hs.sound.total i hi)
  have hsound : Gasometer.Sound { gasLimit := limit } :=
    Gasometer.sound_new ((hused.trans hle).trans_lt hs.sound.limit)
  have hdepth : e'.metadata.nextDepth = e'.parents.length := by
    rw [chain] at hfunded
    rw [Metadata.nextDepth]
    cases hps : e'.parents with
    | nil =>
      rw [hps] at hfunded
      cases hfunded with
      | root _ hd => rw [hd, List.length_nil]
    | cons p ps =>
      rw [hps] at hfunded
      cases hfunded with
      | child _ hd => rw [hd, List.length_cons]
  refine ⟨⟨.child hsound (congrArg some hdepth) hi hused hfunded, ?_⟩, ?_, ?_⟩
  · dsimp only [enter, MemoryStackState.enter, MemoryStackState.frames]
    rw [List.length_cons, List.length_cons, hs.inner, h.aligned, hs.parents]
  · dsimp only [enter]
    rw [List.length_cons, hs.parents]
  · have hgas := hsound.gas_le
    have hchain : (e'.enter limit isStatic).chain =
        e'.metadata.spitChild limit isStatic :: e'.chain := rfl
    rw [hchain, totalGas_cons]
    dsimp only [Metadata.spitChild] at hgas ⊢
    omega

/-- The stipend that a call adds to the gas of its substate. -/
def bonusOf (env : Environment) (transfer : Option Transfer) (takeStipend : Bool) : Nat :=
  match transfer with
  | some t => if takeStipend ∧ t.value ≠ 0#256 then env.config.callStipend else 0
  | none => 0

/-- A stipend adds at most its bonus. -/
theorem withStipend_le (env : Environment) (gasLimit : Nat) (transfer : Option Transfer)
    (takeStipend : Bool) :
    withStipend env gasLimit transfer takeStipend ≤ gasLimit + bonusOf env transfer
      takeStipend := by
  cases transfer with
  | none => exact le_rfl
  | some t =>
    dsimp only [withStipend, bonusOf]
    split
    · exact Nat.min_le_left _ _
    · exact le_rfl

/-- A substate that is not too deep. -/
theorem parents_le_of_not_tooDeep (h : e.Wf) (hdeep : e.tooDeep env = false) :
    e.parents.length ≤ env.config.callStackLimit + 1 := by
  obtain ⟨hfunded, -⟩ := h
  rw [chain] at hfunded
  cases hps : e.parents with
  | nil => exact Nat.zero_le _
  | cons p ps =>
    rw [hps] at hfunded
    cases hfunded with
    | child _ hd =>
      rw [tooDeep, hd] at hdeep
      dsimp only at hdeep
      have : ¬env.config.callStackLimit < ps.length := by simpa using hdeep
      rw [List.length_cons]
      omega

/-- What a capture leaves: it is out of the substate again, or in it and not too deep. -/
def Captured {ε : Type} (env : Environment) (bonus : Nat) (e : Exec) :
    Capture ε TaggedRuntime × Exec → Prop
  | (.exit _, e') => Moves 0 bonus e e'
  | (.trap _, e') => Moves 1 bonus e e' ∧ e'.parents.length ≤ env.config.callStackLimit + 2

/-- A precompile pays its cost and leaves its substate, with the changes only if it succeeds. -/
theorem runPrecompile_cases (hreg : env.Regular) {codeAddress : H160} {f : PrecompileFn}
    (hf : env.precompiles codeAddress = some f) (hsound : e.metadata.gasometer.Sound)
    (input : Bytes) (gasLimit : Nat) (context : Context) :
    ∃ n e₁ kind, Pays n e e₁ ∧
      (e.runPrecompile f input gasLimit context).2 = (e₁.exitSubstate kind).2 ∧
      ∀ r, (e.runPrecompile f input gasLimit context).1.1 = .succeed r → kind = .succeeded := by
  rw [runPrecompile]
  split
  · rename_i status output cost hrun
    have hcost := hreg.precompiles codeAddress f hf _ _ _ _ _ _ hrun
    rcases recordCost_pays hsound hcost with ⟨e₁, heq, hs, -⟩ | ⟨er, e₁, heq, hs⟩
    · rw [heq]
      exact ⟨_, e₁, .succeeded, hs, rfl, fun _ _ => rfl⟩
    · rw [heq]
      exact ⟨_, e₁, .failed, hs, rfl, fun _ hr => (by cases hr)⟩
  · exact ⟨_, e, .failed, .refl hsound, rfl, fun _ hr => (by cases hr)⟩
  · exact ⟨_, e, .reverted, .refl hsound, rfl, fun _ hr => (by cases hr)⟩
  · exact ⟨_, _, .failed, .fail hsound, rfl, fun _ hr => (by cases hr)⟩

/-- A call is refused for its gas, or it goes on in a new substate. -/
theorem callInner_cases (h : e.Wf) (codeAddress : H160) (transfer : Option Transfer) (input : Bytes)
    (targetGas : Option Nat) (isStatic takeL64 takeStipend : Bool) (context : Context)
    (hbonus : ∀ i, e.metadata.gasometer.inner = .ok i →
      bonusOf env transfer takeStipend ≤ i.usedGas) :
    (∃ er e₁, e.callInner env codeAddress transfer input targetGas isStatic takeL64 takeStipend
        context = (.exit (.error er, []), e₁) ∧ Pays 0 e e₁) ∨
      ∃ gasLimit e₁, e.callInner env codeAddress transfer input targetGas isStatic takeL64
          takeStipend context = e₁.callInSubstate env codeAddress transfer input gasLimit context ∧
        Moves 1 (bonusOf env transfer takeStipend) e e₁ ∧
        e₁.inner = { e.inner with state := e.inner.state.enter } := by
  rw [callInner]
  rcases takeGas_pays env h.funded.sound targetGas takeL64 with
    ⟨gasLimit, e₁, heq, hs, i', hi'⟩ | ⟨er, e₁, heq, hs⟩
  · rw [heq]
    obtain ⟨i, hi, hused⟩ := hs.used i' hi'
    have hle := withStipend_le env gasLimit transfer takeStipend
    have hb := hbonus i hi
    refine .inr ⟨_, _, rfl, enter_moves h hs hi' hle (by omega) isStatic, ?_⟩
    dsimp only [enter]
    rw [hs.inner]
  · rw [heq]
    exact .inl ⟨er, e₁, rfl, hs⟩

/-- A call moves no gas but the stipend. -/
theorem callInner_moves (hreg : env.Regular) (h : e.Wf) (codeAddress : H160)
    (transfer : Option Transfer) (input : Bytes) (targetGas : Option Nat)
    (isStatic takeL64 takeStipend : Bool) (context : Context)
    (hbonus : ∀ i, e.metadata.gasometer.inner = .ok i →
      bonusOf env transfer takeStipend ≤ i.usedGas) :
    Captured env (bonusOf env transfer takeStipend) e
      (e.callInner env codeAddress transfer input targetGas isStatic takeL64 takeStipend
        context) := by
  rcases callInner_cases h codeAddress transfer input targetGas isStatic takeL64 takeStipend context
      hbonus with
    ⟨er, e₁, heq, hs⟩ | ⟨gasLimit, e₂, heq, hmoves, -⟩
  · rw [heq]
    exact (hs.moves h).mono (Nat.zero_le _)
  · rw [heq, callInSubstate]
    have htouch := hmoves.withState (e₂.inner.state.touch env.backend context.address) rfl
    dsimp only
    split
    · exact htouch.exit .reverted
    · rename_i hdeep
      have hparents := parents_le_of_not_tooDeep htouch.wf (by simpa using hdeep)
      have htransfer : ∀ ok e₃, callTransfer env
          (e₂.withState (e₂.inner.state.touch env.backend context.address)) transfer = (ok, e₃) →
          Moves 1 (bonusOf env transfer takeStipend) e e₃ ∧
            e₃.parents.length ≤ env.config.callStackLimit + 1 := by
        intro ok e₃ heq
        rw [callTransfer.eq_def] at heq
        cases transfer with
        | none =>
          cases heq
          exact ⟨htouch, hparents⟩
        | some t =>
          dsimp only at heq
          cases ht : MemoryStackState.transfer env.backend
              (e₂.withState (e₂.inner.state.touch env.backend context.address)).inner.state t with
          | mk ok' state =>
            rw [ht] at heq
            cases heq
            exact ⟨htouch.withState state (by rw [transfer_parents ht]), hparents⟩
      split
      · rename_i e₃ heq
        exact (htransfer _ _ heq).1.exit .reverted
      · rename_i e₃ heq
        obtain ⟨hm, hp⟩ := htransfer _ _ heq
        split
        · rename_i f hf
          obtain ⟨n, e₄, kind, hs, heq, -⟩ :=
            runPrecompile_cases hreg hf hm.wf.funded.sound input gasLimit context
          dsimp only [Captured]
          rw [heq]
          exact (hm.pays hs).exit kind
        · exact ⟨hm, by omega⟩

/-! ## Creations -/

/-- The nonce of an account without transactions can be increased. -/
theorem incNonce_of_zero {backend : State} {st : MemoryStackState} {a : H160}
    (h : (basicIn backend st.frames a).nonce = 0#256) : (st.incNonce backend a).1 = true := by
  rw [MemoryStackState.incNonce, if_neg]
  rw [MemoryStackState.account_basic, h]
  decide

/-- A creation in its substate. The branch of `inc_nonce` that returns inside of the substate is not
taken: the account has no nonce there. -/
theorem createInSubstate_moves (h : Moves 1 0 e e') (caller address : H160) (value : U256)
    (initCode : Bytes) (hparents : e'.parents.length ≤ env.config.callStackLimit + 2) :
    Captured env 0 e (e'.createInSubstate env caller address value initCode) := by
  rw [createInSubstate]
  split
  · exact h.exit .failed
  · rename_i hfree
    have hnonce : (basicIn env.backend e'.inner.state.frames address).nonce = 0#256 := by
      have hle : ¬0#256 < e'.nonce env address := fun hlt => hfree (.inr hlt)
      have hzero : (e'.nonce env address).toNat = 0 := by
        rw [BitVec.lt_def, BitVec.toNat_ofNat] at hle
        omega
      exact BitVec.eq_of_toNat_eq hzero
    dsimp only
    have hreset := h.withState (e'.inner.state.resetStorage env.backend address) rfl
    split
    · rename_i state ht
      exact (hreset.withState state (by rw [transfer_parents ht])).exit .reverted
    · rename_i state ht
      have hmoved := hreset.withState state (by rw [transfer_parents ht])
      split
      · have hnonce' : (basicIn env.backend state.frames address).nonce = 0#256 := by
          rw [(basicIn_transfer ht).2, nonce_moved]
          dsimp only [Exec.withState]
          rw [MemoryStackState.basicIn_resetStorage, hnonce]
        have hinc := incNonce_of_zero hnonce'
        have hlength :=
          (incNonce_parents address : (state.incNonce env.backend address).2.parents = _)
        split
        · rename_i state' heq
          rw [heq] at hinc
          cases hinc
        · rename_i state' heq
          rw [heq] at hlength
          refine ⟨hreset.withState state' ?_, hparents⟩
          rw [hlength, transfer_parents ht]
      · exact ⟨hmoved, hparents⟩

/-- A creation moves no gas. -/
theorem createInner_moves (env : Environment) (h : e.Wf) (caller : H160) (scheme : CreateScheme)
    (value : U256) (initCode : Bytes) (targetGas : Option Nat) (takeL64 : Bool) :
    Captured env 0 e (e.createInner env caller scheme value initCode targetGas takeL64) := by
  dsimp only [createInner]
  generalize haddress : e.createAddress env scheme = address
  have haccess : Spends 0 e
      { e with metadata := (e.metadata.accessAddress caller).accessAddress address } :=
    { Spends.refl h.funded.sound with }
  have hmoves := haccess.moves h rfl
  generalize hgen : ({ e with
    metadata := (e.metadata.accessAddress caller).accessAddress address } : Exec) = e₁
    at haccess hmoves ⊢
  have hsame : e₁.inner = e.inner := by rw [← hgen]
  split
  · exact hmoves
  rename_i hdeep
  have hparents := parents_le_of_not_tooDeep hmoves.wf (by simpa using hdeep)
  split
  · exact hmoves
  have hlength :=
    (incNonce_parents caller : (e.inner.state.incNonce env.backend caller).2.parents = _)
  split
  · rename_i state heq
    rw [heq] at hlength
    exact hmoves.withState state (by rw [hlength, hsame])
  · rename_i state heq
    rw [heq] at hlength
    have hnonce := hmoves.withState state (by rw [hlength, hsame])
    rcases takeGas_pays env hnonce.wf.funded.sound targetGas takeL64 with
      ⟨gasLimit, e₂, hgas, hs, i, hi⟩ | ⟨er, e₂, hgas, hs⟩
    · rw [hgas]
      dsimp only
      obtain ⟨i₀, -, hused⟩ := hs.used i hi
      have henter : Moves 1 0 (e₁.withState state) (e₂.enter gasLimit false) :=
        enter_moves hnonce.wf hs hi le_rfl (by omega) false
      have htwo : Moves 1 0 e (e₂.enter gasLimit false) := by
        refine ⟨henter.wf, ?_, ?_⟩
        · rw [henter.parents, hnonce.parents, Nat.add_zero]
        · exact henter.total.trans (Nat.add_le_add_right hnonce.total 0)
      refine createInSubstate_moves htwo caller address value initCode ?_
      rw [htwo.parents]
      have := hmoves.parents
      omega
    · rw [hgas]
      exact hnonce.pays hs

/-- The price of the init code is paid. -/
theorem maybeRecordInitCodeCost_pays (hreg : env.Regular) (h : e.metadata.gasometer.Sound)
    (initCode : Bytes) : Pays 0 e (maybeRecordInitCodeCost env initCode e).2 := by
  rw [maybeRecordInitCodeCost.eq_def]
  cases hlimit : env.config.maxInitcodeSize with
  | none => exact .refl h
  | some limit =>
    dsimp only
    by_cases hle : limit < initCode.length
    · rw [if_pos hle]
      exact .fail h
    · rw [if_neg hle]
      have hcost : initCodeCost initCode < gasBound := by
        have := hreg.small.initcode limit hlimit
        rw [initCodeCost, gasBound]
        omega
      rcases recordCost_pays h hcost with ⟨e₁, heq, hs, -⟩ | ⟨er, e₁, heq, hs⟩
      · rw [heq]
        exact hs.mono (Nat.zero_le _)
      · rw [heq]
        exact hs

/-! ## Questions to the handler -/

/-- The stipend that a question can add. -/
def bonusOfRequest (env : Environment) : Request → Nat
  | .call _ transfer _ _ _ _ => bonusOf env transfer true
  | _ => 0

/-- What an answer leaves: the same substate, or a new one with a runtime for it. -/
def Answered (env : Environment) (bonus : Nat) (e e' : Exec) : Option TaggedRuntime → Prop
  | none => Moves 0 bonus e e'
  | some _ => Moves 1 bonus e e' ∧ e'.parents.length ≤ env.config.callStackLimit + 2

/-- What a question to the handler does to the gas of the substates. -/
theorem perform_moves (hreg : env.Regular) (h : e.Wf) (q : Request)
    (hbonus : ∀ i, e.metadata.gasometer.inner = .ok i → bonusOfRequest env q ≤ i.usedGas)
    {t : Option TaggedRuntime} (heq : q.perform (handler env) e = (t, e')) :
    Answered env (bonusOfRequest env q) e e' t := by
  have hrefl : Moves 0 0 e e := (Spends.refl h.funded.sound).moves h rfl
  have hcaptured : ∀ {ε : Type} {bonus : Nat} (c : Capture ε TaggedRuntime × Exec),
      Captured env bonus e c → (c.1.interrupt, c.2) = (t, e') → Answered env bonus e e' t := by
    rintro ε bonus ⟨c, e''⟩ hc heq
    cases c with
    | exit => cases heq; exact hc
    | trap => cases heq; exact hc
  cases q with
  | none =>
    cases heq
    exact hrefl
  | load slot | store slot value | log l =>
    cases heq
    exact ⟨⟨h.funded, h.aligned⟩, rfl, le_rfl⟩
  | delete address target =>
    rw [Request.perform] at heq
    dsimp only [handler, stateHandler, markDelete] at heq
    split at heq
    · rename_i state ht
      cases heq
      exact hrefl.withState state (by rw [transfer_parents ht])
    · rename_i state ht
      cases heq
      refine hrefl.withState _ ?_
      change state.parents.length = _
      rw [transfer_parents ht]
  | create caller scheme value initCode =>
    rw [Request.perform] at heq
    refine hcaptured _ ?_ heq
    dsimp only [handler, create, bonusOfRequest]
    have hmoves := (maybeRecordInitCodeCost_pays hreg h.funded.sound initCode).moves h
    cases hr : maybeRecordInitCodeCost env initCode e with
    | mk r e₁ =>
      rw [hr] at hmoves
      cases r with
      | error er => exact hmoves
      | ok u =>
        have hc := createInner_moves env hmoves.wf caller scheme value initCode none true
        dsimp only
        cases hx : e₁.createInner env caller scheme value initCode none true with
        | mk c e₂ =>
          rw [hx] at hc
          have hp := hmoves.parents
          have ht := hmoves.total
          cases c with
          | exit =>
            have hc : Moves 0 0 e₁ e₂ := hc
            refine ⟨hc.wf, ?_, ?_⟩
            · rw [hc.parents, hp, Nat.add_zero]
            · exact hc.total.trans (by omega)
          | trap =>
            obtain ⟨hm, hdepth⟩ := hc
            refine ⟨⟨hm.wf, ?_, ?_⟩, hdepth⟩
            · rw [hm.parents, hp, Nat.add_zero]
            · exact hm.total.trans (by omega)
  | call codeAddress transfer input gas isStatic context =>
    rw [Request.perform] at heq
    exact hcaptured _
      (callInner_moves hreg h codeAddress transfer input gas isStatic true true context hbonus) heq

/-! ## The end of a runtime -/

/-- The deposit for a code within the limit is small. -/
theorem deposit_lt (hreg : env.Regular) {code : Bytes}
    (hlimit : ¬env.config.createContractLimit.any (· < code.length) = true) :
    u64 (code.length * gCodedeposit) < gasBound := by
  obtain ⟨limit, hcontract, hsmall⟩ := hreg.small.contract
  have hlen : code.length ≤ limit := by
    rw [hcontract] at hlimit
    simpa using hlimit
  rw [gCodedeposit, gasBound]
  exact (Nat.mod_le _ _).trans_lt (by omega)

/-- The clean-up of a call or a creation pays and leaves its substate. A creation that succeeds
stores its code then. -/
theorem cleanup_cases (hreg : env.Regular) (hsound : e.metadata.gasometer.Sound)
    {kind : RuntimeKind} (hkind : kind ≠ .execute) (reason : ExitReason) (returnData : Bytes) :
    ∃ n e₁, Pays n e e₁ ∧
      ((∃ k, (e.cleanup env kind reason returnData).2 = (e₁.exitSubstate k).2 ∧
          ∀ s, (e.cleanup env kind reason returnData).1.1 = .succeed s →
            k = .succeeded ∧ ∃ a, kind = .call a) ∨
        ∃ address, kind = .create address ∧ (e.cleanup env kind reason returnData).2 =
          (e₁.exitSubstate .succeeded).2.withState
            ((e₁.exitSubstate .succeeded).2.inner.state.setCode env.backend address
              returnData)) := by
  have hrefl := Pays.refl hsound
  have hfail := Pays.fail hsound
  cases kind with
  | execute => exact absurd rfl hkind
  | call codeAddress =>
    cases reason with
    | succeed => exact ⟨_, e, hrefl, .inl ⟨.succeeded, rfl, fun _ _ => ⟨rfl, _, rfl⟩⟩⟩
    | error => exact ⟨_, e, hrefl, .inl ⟨.failed, rfl, fun _ hr => (by cases hr)⟩⟩
    | revert => exact ⟨_, e, hrefl, .inl ⟨.reverted, rfl, fun _ hr => (by cases hr)⟩⟩
    | fatal => exact ⟨_, _, hfail, .inl ⟨.failed, rfl, fun _ hr => (by cases hr)⟩⟩
  | create address =>
    dsimp only [cleanup]
    cases reason with
    | error | fatal => exact ⟨_, _, hfail, .inl ⟨.failed, rfl, fun _ hr => (by cases hr)⟩⟩
    | revert => exact ⟨_, e, hrefl, .inl ⟨.reverted, rfl, fun _ hr => (by cases hr)⟩⟩
    | succeed s =>
      rw [cleanupForCreate]
      dsimp only
      split
      · exact ⟨_, _, hfail, .inl ⟨.failed, rfl, fun _ hr => (by cases hr)⟩⟩
      split
      · exact ⟨_, _, hfail, .inl ⟨.failed, rfl, fun _ hr => (by cases hr)⟩⟩
      rename_i hlimit
      rcases recordCost_pays hsound (deposit_lt hreg hlimit) with
        ⟨e₁, heq, hs, -⟩ | ⟨er, e₁, heq, hs⟩
      · have heq : onGasometer (·.recordDeposit returnData.length) e = (.ok (), e₁) := heq
        rw [heq]
        refine ⟨_, e₁, hs, .inr ⟨address, rfl, ?_⟩⟩
        dsimp only
        cases (e₁.exitSubstate .succeeded).1 <;> rfl
      · have heq : onGasometer (·.recordDeposit returnData.length) e = (.error er, e₁) := heq
        rw [heq]
        exact ⟨_, e₁, hs, .inl ⟨.failed, rfl, fun _ hr => (by cases hr)⟩⟩

/-- The clean-up of a call or a creation leaves its substate. -/
theorem cleanup_moves (hreg : env.Regular) (h : e.Wf) (hne : e.parents ≠ []) {kind : RuntimeKind}
    (hkind : kind ≠ .execute) (reason : ExitReason) (returnData : Bytes) :
    (e.cleanup env kind reason returnData).2.Wf ∧
      (e.cleanup env kind reason returnData).2.parents.length + 1 = e.parents.length ∧
      totalGas (e.cleanup env kind reason returnData).2.chain ≤ totalGas e.chain := by
  obtain ⟨n, e₁, hs, hcase⟩ := cleanup_cases hreg h.funded.sound hkind reason returnData
  have hmoves := hs.moves h
  have hexit := fun k => exitSubstate_moves hmoves.wf k (by rwa [hs.parents])
  rw [hs.parents] at hexit
  rcases hcase with ⟨k, heq, -⟩ | ⟨address, -, heq⟩
  · obtain ⟨hwf, hlength, htotal⟩ := hexit k
    rw [heq]
    exact ⟨hwf, hlength, htotal.trans hmoves.total⟩
  · obtain ⟨hwf, hlength, htotal⟩ := hexit .succeeded
    rw [heq]
    exact ⟨hwf.withState rfl, hlength, htotal.trans hmoves.total⟩

end Exec

end Chase.Vm
