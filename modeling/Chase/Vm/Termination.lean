import Chase.Vm.Funding
import Chase.Vm.Runs

/-!
# Every transaction ends

The gas that remains in all the substates is a bound for what a transaction can still do: an
instruction that goes on costs something, a call takes the gas of its substate from the caller and
pays for the stipend of its transfer, and what returns gives back no more than what was left. So
every round lowers `measure`, twice the gas with the height of the call stack, and a transaction
with a gas limit of `n` ends within `2 * n + 2` rounds (`transact_terminates`).

The same invariant gives the accounting of the gas in every state of a transaction (`reached_gas`)
and the bound of the depth of its calls (`reached_depth`).
-/

namespace Chase.Vm

open EarlyExit

namespace Exec

variable {env : Environment} {e e' : Exec}

theorem peek_two {s : Stack} {a b c : H256} {rest : List H256} (h : s.data = a :: b :: c :: rest) :
    s.peek 2 = .ok c := by
  rw [Stack.peek, h]
  rfl

/-- The check of an instruction, with the question that follows: the charge is above the stipend. -/
theorem bonus_lt {r : Runtime} {o : Opcode} {q : Request} {c : Nat} {isStatic : Bool}
    (hreg : env.Regular) (hq : Requests r (decode o) q)
    (hcharge : Charged env.config o r.machine.stack isStatic c) :
    bonusOfRequest env q = 0 ∨ bonusOfRequest env q < c := by
  cases hd : decode o with
  | call scheme =>
    rw [hd] at hq
    cases hq with
    | none => exact .inl rfl
    | @call _ gas target value rest input gasLimit hdata hvalue =>
      rw [bonusOfRequest]
      have hstipend := hreg.small.stipend
      -- Only a `CALL` and a `CALLCODE` transfer, and the value is on the stack.
      have hpaid : (scheme = .call ∨ scheme = .callCode) → rest.head? = some value →
          value ≠ 0#256 → gCallvalue ≤ c := by
        intro hscheme hhead hne
        cases hcharge with
        | table hstatic =>
          rw [staticOpcodeCost, hd] at hstatic
          cases hstatic
        | price hpriced hgas =>
          obtain ⟨rest', rfl⟩ : ∃ rest', rest = value :: rest' := by
            cases rest with
            | nil => cases hhead
            | cons v rest' =>
              cases hhead
              exact ⟨rest', rfl⟩
          rw [hd] at hpriced
          exact hpriced.transfer hscheme (peek_two hdata) hne hgas
      cases scheme with
      | delegateCall | staticCall => exact .inl rfl
      | call =>
        by_cases hne : value = 0#256
        · exact .inl (by simp [RuntimeEval.callTransfer, bonusOf, hne])
        · have := hpaid (.inl rfl) hvalue hne
          refine .inr ?_
          simp only [RuntimeEval.callTransfer, bonusOf, ne_eq, hne, not_false_eq_true, and_self,
            if_true]
          omega
      | callCode =>
        by_cases hne : value = 0#256
        · exact .inl (by simp [RuntimeEval.callTransfer, bonusOf, hne])
        · have := hpaid (.inr rfl) hvalue hne
          refine .inr ?_
          simp only [RuntimeEval.callTransfer, bonusOf, ne_eq, hne, not_false_eq_true, and_self,
            if_true]
          omega
  | sload | sstore | log | suicide | create =>
    rw [hd] at hq
    cases hq <;> exact .inl rfl
  | _ =>
    rw [hd] at hq
    cases hq
    exact .inl rfl

/-- An answer adds at most its bonus to the total of the gas. -/
theorem Answered.total {bonus : Nat} {t : Option TaggedRuntime} (h : Answered env bonus e e' t) :
    totalGas e'.chain ≤ totalGas e.chain + bonus := by
  cases t with
  | none => exact Moves.total h
  | some => exact h.1.total

/-- An answer after a charge that covers its stipend. -/
theorem Answered.charged {e₁ : Exec} {bonus c : Nat} {t : Option TaggedRuntime}
    (h : Answered env bonus e₁ e' t) (hparents : e₁.parents = e.parents)
    (htotal : totalGas e₁.chain + c ≤ totalGas e.chain) (hle : bonus ≤ c) :
    Answered env 0 e e' t := by
  have hadd := h.total
  cases t with
  | none =>
    have h : Moves 0 bonus e₁ e' := h
    exact ⟨h.wf, by rw [h.parents, hparents], by omega⟩
  | some t => exact ⟨⟨h.1.wf, by rw [h.1.parents, hparents], by omega⟩, h.2⟩

/-- What a step of a runtime does to the gas of the substates: it adds nothing, and when the runtime
goes on, it spends something. -/
theorem stepped_moves (hreg : env.Regular) (h : e.Wf) {r : Runtime}
    {res : Except (Capture ExitReason TaggedRuntime) Unit} (hs : Stepped (handler env) r e res e') :
    Answered env 0 e e' (trapOf res) ∧
      (env.config.Positive → (∀ reason, res ≠ .error (.exit reason)) →
        totalGas e'.chain < totalGas e.chain) := by
  cases hs with
  | stopped hi =>
    exact ⟨(Spends.refl h.funded.sound).moves h rfl, fun _ hne => absurd rfl (hne _)⟩
  | @refused o er _ hi hpre =>
    rcases preValidate_spends hreg h.funded.sound hpre with ⟨_, -, hs⟩ | ⟨c, heq, -⟩
    · exact ⟨hs.moves h (by rw [preValidate_aligned hpre]), fun _ hne => absurd rfl (hne _)⟩
    · cases heq
  | @asked o q e₁ _ _ hi hpre hq hperform hhalts =>
    rcases preValidate_spends hreg h.funded.sound hpre with ⟨_, heq, -⟩ | ⟨c, -, hs, hcharge⟩
    · cases heq
    · have hbonus := bonus_lt hreg hq hcharge
      have hmoves := hs.moves h (by rw [preValidate_aligned hpre])
      have htotal := (hs.funded h.funded).2
      have hused : ∀ i, e₁.metadata.gasometer.inner = .ok i → bonusOfRequest env q ≤ i.usedGas := by
        intro i hi
        obtain ⟨i₀, -, hle⟩ := hs.used i hi
        omega
      have hanswer := perform_moves hreg hmoves.wf q hused hperform
      refine ⟨hanswer.charged hs.parents htotal (by omega), fun hpositive hne => ?_⟩
      -- The instructions that are free end the runtime.
      have hnot : ¬(decode o).Halts := fun hh => by
        obtain ⟨reason, heq⟩ := hhalts hh
        exact hne reason heq
      have hpos : 0 < c := by
        cases hcharge with
        | table hstatic => exact (staticOpcodeCost_le o c hstatic).2 hnot
        | price hpriced hgas => exact hpriced.pos hpositive hnot hgas
      have hadd := hanswer.total
      omega

end Exec

/-! ## Rounds -/

namespace Execution

/-- The call stack and the substates of a run: they go in step, and the gas of the substates is
accounted for. -/
structure Sound (env : Environment) (v : Execution) : Prop where
  runs : ∀ t ∈ v.callStack, Runs env t
  wf : v.exec.Wf
  lockstep : v.callStack.length = v.exec.parents.length
  depth : v.exec.parents.length ≤ env.config.callStackLimit + 2

theorem Sound.top {env : Environment} {v : Execution} (hv : v.Sound env) {t : TaggedRuntime}
    {ts : List TaggedRuntime} (hstack : v.callStack = t :: ts) : Runs env t :=
  hv.runs t (by rw [hstack]; exact List.mem_cons_self)

/-- When the current runtime has exited, its substate is still there. -/
theorem Sound.returned {env : Environment} {v : Execution} (hv : v.Sound env) (hreg : env.Regular)
    {t : TaggedRuntime} {ts : List TaggedRuntime} (hstack : v.callStack = t :: ts)
    {reason : ExitReason} {r : Runtime} {e : Exec}
    (hstep : t.inner.step env.keccak256 (Exec.handler env) v.exec = (.error (.exit reason), r, e)) :
    Exec.Moves 0 0 v.exec e ∧ e.parents.length = ts.length + 1 := by
  have hmoves : Exec.Moves 0 0 v.exec e :=
    (Exec.stepped_moves hreg hv.wf (Runtime.step_cases (hv.top hstack).status hstep)).1
  have hlockstep := hv.lockstep
  rw [hstack, List.length_cons] at hlockstep
  exact ⟨hmoves, by rw [hmoves.parents, ← hlockstep]⟩

/-- What a run can still do: a call takes one gas at least, and a return none. -/
def measure (v : Execution) : Nat := 2 * totalGas v.exec.chain + v.callStack.length

variable {env : Environment} {v v' : Execution}

/-- A round keeps the accounts, adds no gas, and lowers the measure. -/
theorem Round.sound (h : Round env v v') (hreg : env.Regular) (hv : v.Sound env) :
    v'.Sound env ∧ totalGas v'.exec.chain ≤ totalGas v.exec.chain ∧
      (env.config.Positive → v'.measure < v.measure) := by
  have hruns := h.runs hv.runs
  have hlockstep := hv.lockstep
  have hdepth := hv.depth
  cases h with
  | @go t ts r e hstack hstep =>
    rw [hstack] at hlockstep
    obtain ⟨hanswer, hlt⟩ := Exec.stepped_moves hreg hv.wf
      (Runtime.step_cases (hv.top hstack).status hstep)
    have hmoves : Exec.Moves 0 0 v.exec e := hanswer
    have hparents := hmoves.parents
    refine ⟨⟨hruns, hmoves.wf, ?_, ?_⟩, hmoves.total, fun hpos => ?_⟩
    · exact hlockstep.trans hparents.symm
    · rwa [hparents]
    · have hlt := hlt hpos fun reason heq => by cases heq
      simp only [measure, hstack, List.length_cons]
      omega
  | @push t t' ts r e hstack hstep =>
    rw [hstack] at hlockstep
    obtain ⟨⟨hmoves, hdepth'⟩, hlt⟩ := Exec.stepped_moves hreg hv.wf
      (Runtime.step_cases (hv.top hstack).status hstep)
    refine ⟨⟨hruns, hmoves.wf, ?_, hdepth'⟩, hmoves.total, fun hpos => ?_⟩
    · rw [hmoves.parents, ← hlockstep]
      rfl
    · have hlt := hlt hpos fun reason heq => by cases heq
      simp only [measure, hstack, List.length_cons]
      omega
  | @back t c ts r r' e reason hstack hstep hfinish =>
    obtain ⟨hmoves, hparents⟩ := hv.returned hreg hstack hstep
    obtain ⟨hwf, hlength, hle⟩ := Exec.cleanup_moves hreg hmoves.wf
      (List.ne_nil_of_length_eq_add_one hparents) (hv.top hstack).kind reason r.machine.returnValue
    have htotal := hmoves.total
    rw [hparents] at hlength
    rw [hstack] at hlockstep
    simp only [List.length_cons] at hparents hlength hlockstep
    refine ⟨⟨hruns, hwf, ?_, ?_⟩, hle.trans htotal, fun _ => ?_⟩
    · simp only [List.length_cons]
      omega
    · dsimp only
      omega
    · simp only [measure, hstack, List.length_cons]
      omega

end Execution

/-! ## The beginning of a transaction -/

namespace Exec

variable {env : Environment} {e e' : Exec}

/-- The executor at the beginning of a transaction has its gas limit. -/
theorem initial_wf (env : Environment) {gasLimit : Nat} (h : gasLimit < gasBound) :
    (initial env gasLimit).Wf ∧ totalGas (initial env gasLimit).chain ≤ gasLimit := by
  have hsound : (initial env gasLimit).metadata.gasometer.Sound := Gasometer.sound_new h
  refine ⟨⟨.root hsound rfl, rfl⟩, ?_⟩
  have hle : totalGas [(initial env gasLimit).metadata] ≤
      (initial env gasLimit).metadata.gasometer.gasLimit := totalGas_singleton hsound
  exact hle

/-- The access list costs nothing by itself. -/
theorem initializeWithAccessList_pays (h : e.metadata.gasometer.Sound)
    (accessList : List (H160 × List H256)) :
    Pays 0 e (e.initializeWithAccessList accessList) := by
  rw [initializeWithAccessList]
  obtain ⟨addresses, haddresses⟩ := e.metadata.accessAddresses_eq (accessList.map (·.1))
  rw [haddresses]
  obtain ⟨slots, hslots⟩ := Metadata.accessStorages_eq { e.metadata with accessed := addresses }
    (accessList.flatMap fun entry => entry.2.map (entry.1, ·))
  rw [hslots]
  exact ⟨spends_same h rfl rfl rfl rfl, rfl⟩

/-- The access list of a call is about its accesses only. -/
theorem initializeCall_pays (env : Environment) (h : e.metadata.gasometer.Sound)
    (caller address : H160) (accessList : List (H160 × List H256)) :
    Pays 0 e (e.initializeCall env caller address accessList) := by
  rw [initializeCall]
  split
  · obtain ⟨addresses, haddresses⟩ :=
      e.metadata.accessAddresses_eq (warmAddresses env caller address)
    rw [haddresses]
    have hs : Pays 0 e { e with metadata := { e.metadata with accessed := addresses } } :=
      ⟨spends_same h rfl rfl rfl rfl, rfl⟩
    exact hs.trans (initializeWithAccessList_pays hs.sound accessList)
  · exact .refl h

/-- What the beginning of a transaction leaves: its first runtime, or its outcome. -/
def Begun (env : Environment) (e : Exec) : Execution ⊕ Outcome → Prop
  | .inl v => v.Sound env ∧ totalGas v.exec.chain ≤ totalGas e.chain
  | .inr o => Moves 0 0 e o.exec

/-- A call or a creation that traps begins a run. -/
theorem startCapture_begun {ε : Type} {f : ε → ExitReason × Bytes}
    {c : Capture ε TaggedRuntime × Exec} (hmoves : Moves 0 0 e e') (hparents : e.parents = [])
    (hc : Captured env 0 e' c) (hfresh : ∀ t e'', c = (.trap t, e'') → Fresh env t) :
    Begun env e (startCapture f c) := by
  have hzero : e'.parents.length = 0 := by
    rw [hmoves.parents, hparents]
    rfl
  have htotal := hmoves.total
  obtain ⟨c, e''⟩ := c
  cases c with
  | exit result =>
    have hc : Moves 0 0 e' e'' := hc
    have hle := hc.total
    refine ⟨hc.wf, ?_, hle.trans htotal⟩
    exact hc.parents.trans (by rw [hzero, hparents]; rfl)
  | trap t =>
    obtain ⟨hc, hdepth⟩ := hc
    have hle := hc.total
    refine ⟨⟨?_, hc.wf, ?_, hdepth⟩, ?_⟩
    · exact List.forall_mem_singleton.2 (hfresh t e'' rfl).runs
    · rw [hc.parents, hzero]
      rfl
    · exact hle.trans (by omega)

/-- A call transaction fails before its runtime, or it makes its call with one more nonce. -/
theorem startCall_cases (env : Environment) (h : e.Wf) (caller address : H160) (value : U256)
    (data : Bytes) (gasLimit : Nat) (accessList : List (H160 × List H256)) :
    (∃ er e', startCall env e caller address value data gasLimit accessList =
        .inr ⟨.error er, [], e'⟩ ∧ Moves 0 0 e e') ∨
      ∃ state e', e.inner.state.incNonce env.backend caller = (true, state) ∧ Moves 0 0 e e' ∧
        e'.inner = { e.inner with state } ∧
        startCall env e caller address value data gasLimit accessList =
          startCapture id (e'.callInner env address (some ⟨caller, address, value⟩) data
            (some gasLimit) false false false ⟨address, caller, value⟩) := by
  rw [startCall]
  rcases recordTransaction_pays h.funded.sound env.config
    (callTransactionCost data accessList) with ⟨e₁, heq, hs⟩ | ⟨er, e₁, heq, hs⟩
  · rw [heq]
    have hs₂ := hs.trans (initializeCall_pays env hs.sound caller address accessList)
    have hm₂ := hs₂.moves h
    have hsame := hs₂.inner
    dsimp only
    generalize e₁.initializeCall env caller address accessList = e₂ at hm₂ hsame
    rw [hsame]
    cases hn : e.inner.state.incNonce env.backend caller with
    | mk ok state =>
      have hlength : state.parents.length = e₂.inner.state.parents.length := by
        have hp : (e.inner.state.incNonce env.backend caller).2.parents = _ :=
          incNonce_parents caller
        rw [hn] at hp
        rw [hp, hsame]
      have hm₃ := hm₂.withState state hlength
      cases ok with
      | false => exact .inl ⟨_, _, rfl, hm₃⟩
      | true =>
        refine .inr ⟨state, e₂.withState state, rfl, hm₃, ?_, rfl⟩
        rw [withState, hsame]
  · rw [heq]
    exact .inl ⟨er, e₁, rfl, hs.moves h⟩

theorem bonusOf_false (env : Environment) (transfer : Option Transfer) :
    bonusOf env transfer false = 0 := by
  cases transfer <;> simp [bonusOf]

/-- `transact_call` begins a run or ends. -/
theorem startCall_begun (hreg : env.Regular) (h : e.Wf) (hparents : e.parents = [])
    (caller address : H160) (value : U256) (data : Bytes) (gasLimit : Nat)
    (accessList : List (H160 × List H256)) :
    Begun env e (startCall env e caller address value data gasLimit accessList) := by
  rcases startCall_cases env h caller address value data gasLimit accessList with
    ⟨er, e', heq, hmoves⟩ | ⟨state, e', -, hmoves, -, heq⟩
  · rw [heq]
    exact hmoves
  · rw [heq]
    have hc := callInner_moves hreg hmoves.wf address (some ⟨caller, address, value⟩) data
      (some gasLimit) false false false ⟨address, caller, value⟩ fun i _ => by
        rw [bonusOf_false]
        exact Nat.zero_le _
    rw [bonusOf_false] at hc
    exact startCapture_begun hmoves hparents hc fun t e'' heq => fresh_of_callInner heq

/-- A creation transaction fails before its runtime, or it makes its creation. -/
theorem startCreate_cases (env : Environment) (h : e.Wf) (scheme : CreateScheme) (caller : H160)
    (value : U256) (initCode : Bytes) (gasLimit : Nat) (accessList : List (H160 × List H256)) :
    (∃ er e', startCreate env scheme e caller value initCode gasLimit accessList =
        .inr ⟨.error er, [], e'⟩ ∧ Moves 0 0 e e') ∨
      ∃ e', Moves 0 0 e e' ∧ e'.inner = e.inner ∧
        startCreate env scheme e caller value initCode gasLimit accessList =
          startCapture (fun result => (result.1, result.2.2))
            (e'.createInner env caller scheme value initCode (some gasLimit) false) := by
  rw [startCreate]
  split
  · exact .inl ⟨_, _, rfl, (Pays.fail h.funded.sound).moves h⟩
  rcases recordTransaction_pays h.funded.sound env.config
      (createTransactionCost initCode accessList) with ⟨e₁, heq, hs⟩ | ⟨er, e₁, heq, hs⟩
  · rw [heq]
    have hs₂ := hs.trans (initializeWithAccessList_pays hs.sound accessList)
    exact .inr ⟨_, hs₂.moves h, hs₂.inner, rfl⟩
  · rw [heq]
    exact .inl ⟨er, e₁, rfl, hs.moves h⟩

/-- `transact_create` begins a run or ends. -/
theorem startCreate_begun (env : Environment) (h : e.Wf) (hparents : e.parents = [])
    (scheme : CreateScheme) (caller : H160) (value : U256) (initCode : Bytes) (gasLimit : Nat)
    (accessList : List (H160 × List H256)) :
    Begun env e (startCreate env scheme e caller value initCode gasLimit accessList) := by
  rcases startCreate_cases env h scheme caller value initCode gasLimit accessList with
    ⟨er, e', heq, hmoves⟩ | ⟨e', hmoves, -, heq⟩
  · rw [heq]
    exact hmoves
  · rw [heq]
    exact startCapture_begun hmoves hparents
      (createInner_moves env hmoves.wf caller scheme value initCode (some gasLimit) false)
      fun t e'' heq => fresh_of_createInner heq

end Exec

/-- A transaction begins with its accounts, and with no more gas than its limit. -/
theorem Started.sound {env : Environment} {gasLimit : Nat} {v : Execution}
    (h : Started env gasLimit v) (hreg : env.Regular) (hlimit : gasLimit < gasBound) :
    v.Sound env ∧ totalGas v.exec.chain ≤ gasLimit := by
  obtain ⟨hwf, htotal⟩ := Exec.initial_wf env hlimit
  cases h with
  | @call caller address value data accessList _ heq =>
    have hbegun := Exec.startCall_begun hreg hwf rfl caller address value data gasLimit accessList
    rw [heq] at hbegun
    exact ⟨hbegun.1, hbegun.2.trans htotal⟩
  | @create scheme caller value initCode accessList _ heq =>
    have hbegun := Exec.startCreate_begun env hwf rfl scheme caller value initCode gasLimit
      accessList
    rw [heq] at hbegun
    exact ⟨hbegun.1, hbegun.2.trans htotal⟩

/-- The accounts hold in every state of a transaction. -/
theorem Reached.sound {env : Environment} {gasLimit : Nat} {v : Execution}
    (h : Reached env gasLimit v) (hreg : env.Regular) (hlimit : gasLimit < gasBound) :
    v.Sound env ∧ totalGas v.exec.chain ≤ gasLimit := by
  induction h with
  | start hs => exact hs.sound hreg hlimit
  | step _ hstep ih =>
    obtain ⟨hsound, htotal, -⟩ := (Execution.round_of_step hstep).sound hreg ih.1
    exact ⟨hsound, htotal.trans ih.2⟩

/-- What the accounts of the substates say, without their induction. -/
theorem Funded.isChain {ms : List Metadata} (h : Funded ms) :
    (∀ m ∈ ms, m.gasometer.gas + m.gasometer.totalUsedGas = m.gasometer.gasLimit) ∧
      ms.IsChain fun m p => ∃ i, p.gasometer.inner = .ok i ∧ m.gasometer.gasLimit ≤ i.usedGas := by
  induction h with
  | root hs => exact ⟨List.forall_mem_singleton.2 hs.gas_add_totalUsedGas, .singleton _⟩
  | child hs _ hi hle _ ih =>
    exact ⟨List.forall_mem_cons.2 ⟨hs.gas_add_totalUsedGas, ih.1⟩, .cons_cons ⟨_, hi, hle⟩ ih.2⟩

/-- The depth of a substate is its position in the chain. -/
theorem Funded.depth_eq {ms : List Metadata} (h : Funded ms) {k : Nat} {m : Metadata}
    (hm : ms.reverse[k + 1]? = some m) : m.depth = some k := by
  induction h with
  | root => cases hm
  | @child m' p ps i _ hdepth _ _ _ ih =>
    rw [List.reverse_cons] at hm
    rcases Nat.lt_or_ge (k + 1) (p :: ps).reverse.length with hlt | hge
    · rw [List.getElem?_append_left hlt] at hm
      exact ih hm
    · rw [List.getElem?_append_right hge] at hm
      obtain ⟨hzero, rfl⟩ : k + 1 - (p :: ps).reverse.length = 0 ∧ m' = m := by
        cases hk : k + 1 - (p :: ps).reverse.length with
        | zero =>
          rw [hk] at hm
          cases hm
          exact ⟨rfl, rfl⟩
        | succ j =>
          rw [hk] at hm
          cases hm
      rw [List.length_reverse, List.length_cons] at hge hzero
      rw [hdepth]
      congr 1
      omega

/-- In every state of a transaction the gas adds up: no gasometer has wrapped, so what remains and
what was used make up its limit; the limit of a substate was charged to the one below it; and what
remains in all the substates together is at most the gas limit of the transaction, although a
transfer adds its stipend to the gas of the call. -/
theorem reached_gas {env : Environment} (hreg : env.Regular) {gasLimit : Nat}
    (hlimit : gasLimit < gasBound) {v : Execution} (h : Reached env gasLimit v) :
    (∀ m ∈ v.exec.chain, m.gasometer.gas + m.gasometer.totalUsedGas = m.gasometer.gasLimit) ∧
      (v.exec.chain.IsChain fun m p =>
        ∃ i, p.gasometer.inner = .ok i ∧ m.gasometer.gasLimit ≤ i.usedGas) ∧
      totalGas v.exec.chain ≤ gasLimit := by
  obtain ⟨hsound, htotal⟩ := h.sound hreg hlimit
  obtain ⟨hgas, hchain⟩ := hsound.wf.funded.isChain
  exact ⟨hgas, hchain, htotal⟩

/-- In every state of a transaction the runtimes, the metadata and the substates go in step: there
is one runtime for each substate above the root, and its depth is its place; the depth is at most
one above the limit of the configuration. -/
theorem reached_depth {env : Environment} (hreg : env.Regular) {gasLimit : Nat}
    (hlimit : gasLimit < gasBound) {v : Execution} (h : Reached env gasLimit v) :
    v.callStack.length = v.exec.parents.length ∧
      v.exec.inner.state.parents.length = v.exec.parents.length ∧
      (∀ (k : Nat) (m : Metadata), v.exec.chain.reverse[k + 1]? = some m →
        m.depth = some k ∧ k ≤ env.config.callStackLimit + 1) := by
  obtain ⟨hsound, -⟩ := h.sound hreg hlimit
  refine ⟨hsound.lockstep, hsound.wf.aligned, fun k m hm => ⟨hsound.wf.funded.depth_eq hm, ?_⟩⟩
  have hlt := (List.getElem?_eq_some_iff.1 hm).1
  have hdepth := hsound.depth
  rw [List.length_reverse, Exec.chain, List.length_cons] at hlt
  omega

/-! ## The end of a transaction -/

/-- The rounds of a run are fewer than its measure allows. -/
theorem executeWithCallStack_isSome {env : Environment} (hreg : env.Regular)
    (hpos : env.config.Positive) {rounds : Nat} {v : Execution} (hv : v.Sound env)
    (hlt : v.measure < rounds) : (executeWithCallStack env rounds v).isSome := by
  induction rounds generalizing v with
  | zero => exact absurd hlt (Nat.not_lt_zero _)
  | succ rounds ih =>
    rw [executeWithCallStack]
    cases hstep : v.step env with
    | inl v' =>
      obtain ⟨hsound, -, hdown⟩ := (Execution.round_of_step hstep).sound hreg hv
      have hdown := hdown hpos
      exact ih hsound (by omega)
    | inr o => rfl

/-- A run with two rounds for each unit of gas ends. -/
theorem complete_isSome {env : Environment} (hreg : env.Regular) (hpos : env.config.Positive)
    {gasLimit rounds : Nat} (hrounds : 2 * gasLimit + 2 ≤ rounds) {x : Execution ⊕ Outcome}
    (hx : ∀ v, x = .inl v → Started env gasLimit v) (hlimit : gasLimit < gasBound) :
    (Exec.complete env rounds x).isSome := by
  cases x with
  | inr o => rfl
  | inl v =>
    have hstarted := hx v rfl
    obtain ⟨hsound, htotal⟩ := hstarted.sound hreg hlimit
    obtain ⟨t, hstack, -⟩ := hstarted.fresh
    refine executeWithCallStack_isSome hreg hpos hsound ?_
    rw [Execution.measure, hstack, List.length_singleton]
    omega

section Transact

variable {env : Environment} (hreg : env.Regular) (hpos : env.config.Positive)
  {gasLimit rounds : Nat} (hlimit : gasLimit < gasBound) (hrounds : 2 * gasLimit + 2 ≤ rounds)
  (caller address : H160) (value : U256) (data : Bytes) (salt : H256)
  (accessList : List (H160 × List H256))

include hreg hpos hlimit hrounds

/-- `transact_call` returns. -/
theorem transactCall_ends : ∃ o, Exec.transactCall env rounds (.initial env gasLimit) caller address
    value data gasLimit accessList = some o :=
  Option.isSome_iff_exists.1
    (complete_isSome hreg hpos hrounds (fun _ heq => .call heq) hlimit)

/-- `transact_create` returns. -/
theorem transactCreate_ends : ∃ o, Exec.transactCreate env rounds (.initial env gasLimit) caller
    value data gasLimit accessList = some o :=
  Option.isSome_iff_exists.1
    (complete_isSome hreg hpos hrounds (fun _ heq => .create heq) hlimit)

/-- `transact_create2` returns. -/
theorem transactCreate2_ends : ∃ o, Exec.transactCreate2 env rounds (.initial env gasLimit) caller
    value data salt gasLimit accessList = some o :=
  Option.isSome_iff_exists.1
    (complete_isSome hreg hpos hrounds (fun _ heq => .create heq) hlimit)

/-- Every call, creation and `CREATE2` transaction with a gas limit below `2 ^ 63` ends, after at
most two rounds for each gas of its limit: no loop and no recursion of calls keeps the executor
going. -/
theorem transact_terminates :
    (∃ o, Exec.transactCall env rounds (.initial env gasLimit) caller address value data gasLimit
        accessList = some o) ∧
      (∃ o, Exec.transactCreate env rounds (.initial env gasLimit) caller value data gasLimit
        accessList = some o) ∧
      ∃ o, Exec.transactCreate2 env rounds (.initial env gasLimit) caller value data salt gasLimit
        accessList = some o :=
  ⟨transactCall_ends hreg hpos hlimit hrounds caller address value data accessList,
    transactCreate_ends hreg hpos hlimit hrounds caller value data accessList,
    transactCreate2_ends hreg hpos hlimit hrounds caller value data salt accessList⟩

end Transact

/-! ## A transaction -/

theorem jumpEnvironment_regular : jumpEnvironment.Regular where
  small := (small_of_mem_forks List.mem_cons_self).1
  precompiles a f h := by cases h

/-- The call of the fixture returns. -/
theorem transact_terminates_jump :
    ∃ o, Exec.transactCall jumpEnvironment 200002 (.initial jumpEnvironment 100000) 2#160 1#160
      0#256 [] 100000 [] = some o :=
  (transact_terminates jumpEnvironment_regular (small_of_mem_forks List.mem_cons_self).2 (by decide)
    (by omega) 2#160 1#160 0#256 [] 0#256 []).1

/-- The run of the fixture has two gasometers after two rounds, within the gas of the transaction.
-/
theorem reached_gas_jump :
    totalGas (jumpRun 2).exec.chain ≤ 100000 ∧ (jumpRun 2).exec.chain.length = 2 :=
  ⟨(reached_gas jumpEnvironment_regular (by decide) reached_jumpRun).2.2, rfl⟩

/-- The run of the fixture has one runtime and one substate after two rounds. -/
theorem reached_depth_jump :
    (jumpRun 2).callStack.length = 1 ∧ (jumpRun 2).exec.parents.length = 1 := by
  have h := (reached_depth jumpEnvironment_regular (by decide) reached_jumpRun).1
  exact ⟨rfl, h.symm.trans rfl⟩

end Chase.Vm
