import Chase.Vm.Termination

/-!
# The steps of the executor as operations of the handler

`Chase.StackExecutor` describes a simulation by the operations of the handler (`HandlerOp`), without
the byte code that makes them. Here every step of the executor over byte code is a list of such
operations: the check of an instruction only reads slots (`preValidate_looks`), a question of an
instruction is at most two operations (`Answers`), and the end of a runtime is one
(`cleanup_performs`).
-/

namespace Chase

/-- The operations that only read a slot. -/
def HandlerOp.Reads : HandlerOp → Prop
  | .storage _ | .originalStorage _ => True
  | _ => False

end Chase

namespace Chase.Vm

open EarlyExit

namespace Exec

variable {env : Environment} {e e' e'' : Exec} {ops ops' : List HandlerOp}

/-- From `e` to `e'` the state goes by these operations of the handler. -/
def Performs (env : Environment) (e : Exec) (ops : List HandlerOp) (e' : Exec) : Prop :=
  e.inner.run env.config.createIncreaseNonce env.backend ops = some e'.inner

theorem performs_nil (h : e'.inner = e.inner) : Performs env e [] e' := by
  rw [Performs, h]
  rfl

/-- A step of the inner executor performs its operation. -/
theorem performs_one {op : HandlerOp}
    (h : e.inner.step env.config.createIncreaseNonce env.backend op = some e'.inner) :
    Performs env e [op] e' := by
  rw [Performs, StackExecutor.run, h]
  rfl

/-- What is performed adds up. -/
theorem Performs.append (h : Performs env e ops e') (h' : Performs env e' ops' e'') :
    Performs env e (ops ++ ops') e'' := by
  rw [Performs, StackExecutor.run_append, h]
  exact h'

theorem Performs.congr (h : Performs env e ops e') (hinner : e''.inner = e'.inner) :
    Performs env e ops e'' := by
  rwa [Performs, hinner]

/-! ## The check before an instruction -/

/-- Only slots were read. -/
def Looks (env : Environment) (e e' : Exec) : Prop :=
  ∃ ops, Performs env e ops e' ∧ ∀ op ∈ ops, op.Reads

theorem looks_same (h : e'.inner = e.inner) : Looks env e e' :=
  ⟨[], performs_nil h, fun _ hop => (by cases hop)⟩

theorem Looks.congr (h : Looks env e e') (hinner : e''.inner = e'.inner) : Looks env e e'' := by
  obtain ⟨ops, hops, hreads⟩ := h
  exact ⟨ops, hops.congr hinner, hreads⟩

/-- A read is one more look. -/
theorem Looks.one (op : HandlerOp) (h : Looks env e e') (hop : op.Reads)
    (hstep : e'.inner.step env.config.createIncreaseNonce env.backend op = some e''.inner) :
    Looks env e e'' := by
  obtain ⟨ops, hops, hreads⟩ := h
  refine ⟨ops ++ [op], hops.append (performs_one hstep), fun op' hop' => ?_⟩
  rcases List.mem_append.1 hop' with hop' | hop'
  · exact hreads op' hop'
  · rwa [List.mem_singleton.1 hop']

/-- The gasometer only looks. -/
theorem preserves_looks_onGasometer {α : Type} (x : EarlyExit ExitError Gasometer α) :
    Preserves (Looks env e) (onGasometer x) :=
  preserves_iff.2 fun e' he' => he'.congr (onGasometer_inner x e')

/-- The check of an instruction only reads slots. -/
theorem preValidate_looks {context : Context} {o : Opcode} {stack : Stack}
    {r : Except ExitError Unit} (heq : preValidate env context o stack e = (r, e')) :
    Looks env e e' := by
  have hkeeps : Preserves (Looks env e) (preValidate env context o stack) := by
    rw [preValidate]
    split
    · exact preserves_looks_onGasometer _
    · refine preserves_read.bind fun isStatic => Preserves.bind ?_ fun _ =>
        (preserves_looks_onGasometer _).bind fun _ => preserves_update fun _ he' => he'
      refine triple_dynamicOpcodeCost ⟨fun _ _ he' => he', fun a index => ?_,
        fun slot e' he' => ?_, fun slot e' he' => ?_⟩
      · cases index with
        | none => exact (preserves_looks_onGasometer _).bind fun _ => preserves_read
        | some index => exact preserves_read
      · exact he'.one (.storage slot) trivial rfl
      · exact he'.one (.originalStorage slot) trivial rfl
  have hpost := preserves_iff.1 hkeeps e (looks_same rfl)
  rwa [heq] at hpost

/-- The check of an `SSTORE` reads the slot that it writes. -/
theorem preValidate_sstore {context : Context} {o : Opcode} {stack : Stack} {index : H256}
    {rest : List H256} (hd : decode o = .sstore) (hstatic : e.metadata.isStatic = false)
    (hdata : stack.data = index :: rest)
    (heq : preValidate env context o stack e = (.ok (), e')) :
    Performs env e
      [.originalStorage (context.address, index), .storage (context.address, index)] e' := by
  let slot : Slot := (context.address, index)
  let Read (e' : Exec) : Prop := Performs env e [.originalStorage slot, .storage slot] e'
  have hpeek : Triple (fun e' : Exec => e' = e) (peekWord stack 0)
      (fun v e' => v = index ∧ e' = e) fun _ _ => True := by
    rintro e' rfl
    rw [peekWord, Stack.peek, hdata]
    exact ⟨rfl, rfl⟩
  have hvalue : Triple (fun e' : Exec => e' = e) (peekWord stack 1) (fun _ e' => e' = e)
      fun _ _ => True := by
    rintro e' rfl
    rw [peekWord]
    cases stack.peek 1 <;> trivial
  have horiginal : Triple (fun e' => e' = e) (originalStorage env slot)
      (fun _ e' => Performs env e [.originalStorage slot] e') fun _ _ => True := by
    rintro e' rfl
    exact performs_one rfl
  have hcurrent : Triple (fun e' => Performs env e [.originalStorage slot] e') (storage env slot)
      (fun _ => Read) fun _ _ => True := by
    intro e₁ he₁
    exact he₁.append (performs_one rfl)
  have hgas : Triple (fun e' => e' = e)
      (dynamicGasCost (stateHandler env) env.config context.address o stack false)
      (fun _ => Read) fun _ _ => True := by
    rw [dynamicGasCost, hd]
    refine triple_bind hpeek fun v => triple_and fun hv => ?_
    subst hv
    exact triple_bind hvalue fun _ => triple_bind horiginal fun _ => triple_bind hcurrent fun _ =>
      triple_bind (triple_read fun _ he' => he') fun _ => triple_pure fun _ he' => he'
  have hmemory : Triple Read (dynamicMemoryCost o stack) (fun _ => Read) fun _ _ => True := by
    rw [dynamicMemoryCost, hd]
    exact triple_pure fun _ he' => he'
  have hrecord : ∀ cost memory,
      Triple Read (recordDynamicCost env cost memory) (fun _ => Read) fun _ _ => True := by
    intro cost memory
    have hkeeps : Preserves Read (recordDynamicCost env cost memory) :=
      preserves_iff.2 fun e' he' => Performs.congr he' (onGasometer_inner _ e')
    exact triple_mono hkeeps (fun _ he' => he') (fun _ _ he' => he') fun _ _ _ => trivial
  have hall : Triple (fun e' => e' = e) (preValidate env context o stack) (fun _ => Read)
      fun _ _ => True := by
    rw [preValidate, staticOpcodeCost, hd]
    refine triple_bind (Q := fun isStatic e' => isStatic = false ∧ e' = e) ?_ fun isStatic =>
      triple_and fun h => ?_
    · refine triple_read fun e' he' => ?_
      rw [he']
      exact ⟨hstatic, rfl⟩
    · subst h
      exact triple_bind (triple_bind hgas fun _ => triple_bind hmemory fun _ =>
        triple_pure fun _ he' => he') fun _ => triple_bind (hrecord _ _) fun _ =>
          triple_update fun _ he' => he'
  have hpost := hall e rfl
  rwa [heq] at hpost

/-! ## Substates -/

/-- The exit of a substate without its changes. -/
theorem exitSubstate_dropped {m : Metadata} {ms : List Metadata} {f : Substate} {fs : List Substate}
    (hparents : e.parents = m :: ms) (hstate : e.inner.state.parents = f :: fs)
    {kind : StackExitKind} (hkind : kind ≠ .succeeded) :
    (e.exitSubstate kind).2.inner = { e.inner with state := ⟨f, fs⟩ } := by
  have hdropped : e.inner.state.exitRevert.getD e.inner.state = ⟨f, fs⟩ := by
    rw [MemoryStackState.exitRevert, hstate]
    rfl
  rw [exitSubstate, hparents]
  cases kind with
  | succeeded => exact absurd rfl hkind
  | reverted => rw [hdropped]
  | failed => rw [hdropped]

/-- The exit of a substate is the one of the handler: the parent swallows what it has charged. -/
theorem exitSubstate_inner (h : e.Wf) (hne : e.parents ≠ []) (kind : StackExitKind) :
    e.inner.exitSubstate kind = some (e.exitSubstate kind).2.inner := by
  obtain ⟨p, ps, hps⟩ := List.exists_cons_of_ne_nil hne
  have hlength := h.aligned
  rw [hps, List.length_cons] at hlength
  obtain ⟨f, fs, hfs⟩ := List.exists_cons_of_length_eq_add_one hlength
  cases kind with
  | succeeded =>
    have hfunded := h.funded
    rw [chain, hps] at hfunded
    have hp := hfunded.tail.sound
    obtain ⟨i, hi, hle⟩ : ∃ i, p.gasometer.inner = .ok i ∧
        e.metadata.gasometer.gasLimit ≤ i.usedGas := by
      cases hfunded with
      | child _ _ hi hle => exact ⟨_, hi, hle⟩
    have hgas : e.metadata.gasometer.gas ≤ i.usedGas := hfunded.sound.gas_le.trans hle
    rw [exitSubstate, hps]
    dsimp only [StackExecutor.exitSubstate]
    simp only [Metadata.swallowCommit, Gasometer.recordStipend_eq hp hi hgas]
    rw [MemoryStackState.exitCommit, hfs]
    rfl
  | reverted | failed =>
    rw [exitSubstate_dropped hps hfs StackExitKind.noConfusion]
    dsimp only [StackExecutor.exitSubstate]
    rw [MemoryStackState.exitRevert, hfs]
    rfl

/-- The same after a payment. -/
theorem Pays.exit {n : Nat} (hs : Pays n e e') (h : e.Wf) (hne : e.parents ≠ [])
    (kind : StackExitKind) : e.inner.exitSubstate kind = some (e'.exitSubstate kind).2.inner := by
  rw [← hs.inner]
  exact exitSubstate_inner (hs.moves h).wf (by rwa [hs.parents]) kind

/-! ## Calls -/

/-- What a call leaves: the state as it was, the state of its runtime in a new substate, or what a
precompile leaves. -/
inductive Called (env : Environment) (e : Exec) (address : H160) (transfer : Option Transfer) :
    Capture (ExitReason × Bytes) TaggedRuntime → Exec → Prop
  | refused {er : ExitError} {e' : Exec} : e'.inner = e.inner →
    Called env e address transfer (.exit (.error er, [])) e'
  | entered {t : TaggedRuntime} {e' : Exec} : (∃ a, t.kind = .call a) →
    e.inner.callInner env.backend address transfer = (true, e'.inner) →
    Called env e address transfer (.trap t) e'
  | precompiled {result : ExitReason × Bytes} {e' : Exec} {x : StackExecutor}
    {kind : StackExitKind} : e.inner.callInner env.backend address transfer = (true, x) →
    x.exitSubstate kind = some e'.inner →
    (∀ r, result.1 = .succeed r → kind = .succeeded) →
    Called env e address transfer (.exit result) e'

/-- A precompile leaves its substate by one of the exits. -/
theorem runPrecompile_inner (hreg : env.Regular) {codeAddress : H160} {f : PrecompileFn}
    (hf : env.precompiles codeAddress = some f) (h : e.Wf) (hne : e.parents ≠ []) (input : Bytes)
    (gasLimit : Nat) (context : Context) :
    ∃ kind, e.inner.exitSubstate kind = some (e.runPrecompile f input gasLimit context).2.inner ∧
      ∀ r, (e.runPrecompile f input gasLimit context).1.1 = .succeed r → kind = .succeeded := by
  obtain ⟨n, e₁, kind, hs, heq, hkind⟩ :=
    runPrecompile_cases hreg hf h.funded.sound input gasLimit context
  refine ⟨kind, ?_, hkind⟩
  rw [heq]
  exact hs.exit h hne kind

/-- A call in its substate. -/
theorem callInSubstate_called (hreg : env.Regular) {e₁ : Exec} (h : e₁.Wf) (hne : e₁.parents ≠ [])
    (hinner : e₁.inner = { e.inner with state := e.inner.state.enter }) (codeAddress : H160)
    (transfer : Option Transfer) (input : Bytes) (gasLimit : Nat) (context : Context) :
    Called env e context.address transfer
      (e₁.callInSubstate env codeAddress transfer input gasLimit context).1
      (e₁.callInSubstate env codeAddress transfer input gasLimit context).2 := by
  rw [callInSubstate]
  dsimp only
  generalize hgen : e₁.withState (e₁.inner.state.touch env.backend context.address) = e₂
  have hstate : e₂.inner = { e.inner with
      state := e.inner.state.enter.touch env.backend context.address } := by
    rw [← hgen, withState, hinner]
  have hwf : e₂.Wf := by
    rw [← hgen]
    exact h.withState rfl
  obtain ⟨m, ms, hp⟩ : ∃ m ms, e₂.parents = m :: ms := by
    rw [← hgen]
    exact List.exists_cons_of_ne_nil hne
  have hfs : e₂.inner.state.parents = e.inner.state.substate :: e.inner.state.parents := by
    rw [hstate]
    rfl
  -- A state that was left without its changes is the one before the call.
  have hback : ∀ {e₃ : Exec} {kind : StackExitKind}, e₃.parents = m :: ms →
      e₃.inner.state.parents = e.inner.state.substate :: e.inner.state.parents →
      e₃.inner.rwSet = e.inner.rwSet → kind ≠ .succeeded →
      (e₃.exitSubstate kind).2.inner = e.inner := by
    intro e₃ kind hp hfs hrw hkind
    rw [exitSubstate_dropped hp hfs hkind]
    dsimp only
    rw [hrw]
  split
  · exact .refused (hback hp hfs (by rw [hstate]) StackExitKind.noConfusion)
  · cases transfer with
    | none =>
      have hcall : e.inner.callInner env.backend context.address none = (true, e₂.inner) := by
        rw [StackExecutor.callInner, hstate]
      dsimp only [callTransfer]
      split
      · rename_i f hf
        obtain ⟨kind, hexit, hkind⟩ := runPrecompile_inner hreg hf hwf
          (by rw [hp]; exact List.cons_ne_nil _ _) input gasLimit context
        exact .precompiled hcall hexit hkind
      · exact .entered ⟨_, rfl⟩ hcall
    | some t =>
      dsimp only [callTransfer]
      cases ht : e₂.inner.state.transfer env.backend t with
      | mk ok state =>
        have hlength : state.parents = e₂.inner.state.parents := transfer_parents ht
        have hwf₃ : (e₂.withState state).Wf := hwf.withState (by rw [hlength])
        cases ok with
        | false =>
          refine .refused (hback hp (hlength.trans hfs) ?_ StackExitKind.noConfusion)
          dsimp only [withState]
          rw [hstate]
        | true =>
          have hcall : e.inner.callInner env.backend context.address (some t) =
              (true, (e₂.withState state).inner) := by
            rw [hstate] at ht
            dsimp only [withState, StackExecutor.callInner]
            rw [ht, hstate]
          dsimp only
          split
          · rename_i f hf
            obtain ⟨kind, hexit, hkind⟩ := runPrecompile_inner hreg hf hwf₃
              (show e₂.parents ≠ [] by rw [hp]; exact List.cons_ne_nil _ _) input gasLimit context
            exact .precompiled hcall hexit hkind
          · exact .entered ⟨_, rfl⟩ hcall

/-- A call of the executor is a call of the handler. -/
theorem callInner_called (hreg : env.Regular) (h : e.Wf) (codeAddress : H160)
    (transfer : Option Transfer) (input : Bytes) (targetGas : Option Nat)
    (isStatic takeL64 takeStipend : Bool) (context : Context)
    (hbonus : ∀ i, e.metadata.gasometer.inner = .ok i →
      bonusOf env transfer takeStipend ≤ i.usedGas) :
    Called env e context.address transfer
      (e.callInner env codeAddress transfer input targetGas isStatic takeL64 takeStipend context).1
      (e.callInner env codeAddress transfer input targetGas isStatic takeL64 takeStipend
        context).2 := by
  rcases callInner_cases h codeAddress transfer input targetGas isStatic takeL64 takeStipend context
      hbonus with
    ⟨er, e₁, heq, hs⟩ | ⟨gasLimit, e₁, heq, hmoves, hinner⟩
  · rw [heq]
    exact .refused hs.inner
  · rw [heq]
    exact callInSubstate_called hreg hmoves.wf hmoves.parents_ne_nil hinner codeAddress transfer
      input gasLimit context

/-! ## Creations -/

/-- What a creation leaves: the state as it was, the nonce of the caller alone, or the state of its
runtime in a new substate. -/
inductive Created (env : Environment) (e : Exec) (caller : H160) (scheme : CreateScheme)
    (value : U256) : Capture (ExitReason × Option H160 × Bytes) TaggedRuntime → Exec → Prop
  | refused {er : ExitError} {e' : Exec} : e'.inner = e.inner →
    Created env e caller scheme value (.exit (.error er, none, [])) e'
  | failed {er : ExitError} {e' : Exec} (address : H160) :
    e.inner.createInner env.config.createIncreaseNonce env.backend caller address value =
      (false, e'.inner) →
    Created env e caller scheme value (.exit (.error er, none, [])) e'
  | entered {t : TaggedRuntime} {e' : Exec} : t.kind = .create (e.createAddress env scheme) →
    e.inner.createInner env.config.createIncreaseNonce env.backend caller
      (e.createAddress env scheme) value = (true, e'.inner) →
    Created env e caller scheme value (.trap t) e'

/-- After `inc_nonce` there is a nonce. -/
theorem incNonce_pos {backend : State} {st st' : MemoryStackState} {a : H160}
    (h : st.incNonce backend a = (true, st')) : 0 < (basicIn backend st'.frames a).nonce := by
  rw [MemoryStackState.incNonce] at h
  split at h
  · cases h
  · rename_i hlt
    cases h
    rw [MemoryStackState.basicIn_setAccount, Function.update_self]
    dsimp only
    rw [BitVec.lt_def, BitVec.toNat_add]
    simp only [BitVec.ofNat_eq_ofNat, BitVec.toNat_ofNat]
    omega

/-- A creation in its substate is the one of the handler. -/
theorem createInSubstate_inner (e e₁ : Exec) {m : Metadata} {ms : List Metadata}
    (hparents : e₁.parents = m :: ms)
    (hinner : e₁.inner = { e.inner with state := e.inner.state.enter }) (caller address : H160)
    (value : U256) (initCode : Bytes) {c : Capture (ExitReason × Option H160 × Bytes) TaggedRuntime}
    (heq : e₁.createInSubstate env caller address value initCode = (c, e')) :
    ∃ ok state, e.inner.createIn env.config.createIncreaseNonce env.backend caller address value =
        (ok, state) ∧ e'.inner = { e.inner with state } ∧
      ((ok = false ∧ ∃ er, c = .exit (.error er, none, [])) ∨
        ok = true ∧ ∃ t, c = .trap t ∧ t.kind = .create address) := by
  -- A state that was left without its changes is the one before the creation.
  have hback : ∀ {st : MemoryStackState} {kind : StackExitKind},
      st.parents = e.inner.state.frames → kind ≠ .succeeded →
      ((e₁.withState st).exitSubstate kind).2.inner = e.inner := by
    intro st kind hst hkind
    rw [exitSubstate_dropped (e := e₁.withState st) hparents hst hkind]
    dsimp only [withState]
    rw [hinner]
  have hrw : e₁.inner.rwSet = e.inner.rwSet := by rw [hinner]
  rw [createInSubstate] at heq
  simp only [code, nonce, StackExecutor.nonce, frames, hinner] at heq
  rw [StackExecutor.createIn]
  split at heq
  · rename_i htaken
    have htaken : codeIn env.backend e.inner.state.enter.frames address ≠ [] ∨
        0 < (basicIn env.backend e.inner.state.enter.frames address).nonce := htaken
    rw [if_pos htaken]
    cases heq
    refine ⟨false, _, rfl, ?_, .inl ⟨rfl, _, rfl⟩⟩
    have hself : e₁.withState e₁.inner.state = e₁ := rfl
    rw [← hself]
    exact hback (by rw [hinner]; rfl) StackExitKind.noConfusion
  · rename_i hfree
    have hfree : ¬(codeIn env.backend e.inner.state.enter.frames address ≠ [] ∨
        0 < (basicIn env.backend e.inner.state.enter.frames address).nonce) := hfree
    rw [if_neg hfree]
    dsimp only [withState] at heq
    cases ht : (e.inner.state.enter.resetStorage env.backend address).transfer env.backend
        ⟨caller, address, value⟩ with
    | mk ok state =>
      rw [ht] at heq
      have hlength : state.parents = e.inner.state.frames := transfer_parents ht
      cases ok with
      | false =>
        cases heq
        refine ⟨false, _, rfl, ?_, .inl ⟨rfl, _, rfl⟩⟩
        exact hback hlength StackExitKind.noConfusion
      | true =>
        dsimp only at heq ⊢
        split at heq
        · rename_i hinc
          rw [if_pos hinc]
          cases hn : state.incNonce env.backend address with
          | mk ok state' =>
            rw [hn] at heq
            cases ok with
            | false =>
              cases heq
              exact ⟨false, state', rfl, by rw [hrw], .inl ⟨rfl, _, rfl⟩⟩
            | true =>
              cases heq
              exact ⟨true, state', rfl, by rw [hrw], .inr ⟨rfl, _, rfl, rfl⟩⟩
        · rename_i hinc
          rw [if_neg hinc]
          cases heq
          exact ⟨true, state, rfl, by rw [hrw], .inr ⟨rfl, _, rfl, rfl⟩⟩

/-- A creation of the executor is a creation of the handler. -/
theorem createInner_created (h : e.metadata.gasometer.Sound) (caller : H160)
    (scheme : CreateScheme) (value : U256) (initCode : Bytes) (targetGas : Option Nat)
    (takeL64 : Bool) {c : Capture (ExitReason × Option H160 × Bytes) TaggedRuntime}
    (heq : e.createInner env caller scheme value initCode targetGas takeL64 = (c, e')) :
    Created env e caller scheme value c e' := by
  dsimp only [createInner] at heq
  split at heq
  · cases heq
    exact .refused rfl
  split at heq
  · cases heq
    exact .refused rfl
  rename_i hbalance
  have hbalance : ¬e.inner.balance env.backend caller < value := hbalance
  split at heq
  · rename_i state hn
    cases heq
    refine .failed caller ?_
    rw [StackExecutor.createInner, if_neg hbalance, hn]
    rfl
  · rename_i state hn
    have hn : e.inner.state.incNonce env.backend caller = (true, state) := hn
    split at heq
    · rename_i er e₂ hgas
      cases heq
      -- The nonce alone: the caller itself is no free address any more.
      refine .failed caller ?_
      have hin : StackExecutor.createIn env.config.createIncreaseNonce env.backend
          { e.inner with state } caller caller value = (false, state) := by
        rw [StackExecutor.createIn]
        refine if_pos (.inr ?_)
        rw [MemoryStackState.basicIn_enter]
        exact incNonce_pos hn
      rw [StackExecutor.createInner, if_neg hbalance, hn]
      dsimp only
      rw [hin, takeGas_inner (by exact h) hgas]
      rfl
    · rename_i gasLimit e₂ hgas
      obtain ⟨ok, state', hin, hinner', hcase⟩ := createInSubstate_inner
        (e.withState state) (e₂.enter gasLimit false) rfl
        (by dsimp only [enter]; rw [takeGas_inner (by exact h) hgas]; rfl) caller
        (e.createAddress env scheme) value initCode heq
      have habstract : e.inner.createInner env.config.createIncreaseNonce env.backend caller
          (e.createAddress env scheme) value = (ok, e'.inner) := by
        rw [StackExecutor.createInner, if_neg hbalance, hn, hinner']
        dsimp only
        rw [show StackExecutor.createIn env.config.createIncreaseNonce env.backend
          { e.inner with state } caller (e.createAddress env scheme) value = (ok, state') from hin]
        rfl
      rcases hcase with ⟨rfl, er, rfl⟩ | ⟨rfl, t, rfl, ht⟩
      · exact .failed _ habstract
      · exact .entered ht habstract

end Exec

/-! ## Questions -/

/-- The operations that answer a question. -/
def Request.Answers : Request → List HandlerOp → Prop
  | .none, ops => ops = []
  | .load slot, ops => ops = [.storage slot]
  | .store slot value, ops => ops = [.setStorage slot value]
  | .log l, ops => ops = [.log l]
  | .delete address target, ops => ops = [.markDelete address target]
  | .create caller _ value _, ops => ops = [] ∨ ∃ address, ops = [.create caller address value]
  | .call _ transfer _ _ _ context, ops =>
    ops = [] ∨ ops = [.call context.address transfer] ∨
      ∃ kind, ops = [.call context.address transfer, .exit kind]

/-- The questions of a static call: nothing is written, and a transfer moves nothing. -/
def Request.Static : Request → Prop
  | .none | .load _ => True
  | .call _ transfer _ _ _ _ => ∀ t ∈ transfer, t.value = 0#256 ∨ t.source = t.target
  | _ => False

/-- An instruction that was charged in a static call asks only such questions. -/
theorem Requests.static {config : Config} {r : Runtime} {o : Opcode} {q : Request} {c : Nat}
    (hq : Requests r (decode o) q) (hc : Exec.Charged config o r.machine.stack true c) :
    q.Static := by
  cases hc with
  | table hstatic =>
    cases hd : decode o with
    | sload | sstore | log | suicide | create | call =>
      rw [staticOpcodeCost, hd] at hstatic
      cases hstatic
    | _ =>
      rw [hd] at hq
      cases hq
      trivial
  | price hpriced hgas =>
    rcases hpriced with ⟨o', rfl⟩ | hpriced
    · cases hgas
    cases hd : decode o with
    | sstore | log | suicide | create =>
      rw [hd] at hpriced
      cases hpriced.1
    | sload =>
      rw [hd] at hq
      cases hq <;> trivial
    | call scheme =>
      rw [hd] at hpriced hq
      cases hq with
      | none => trivial
      | @call _ gas target value rest input gasLimit hdata hvalue =>
        rintro t ht
        cases scheme with
        | delegateCall | staticCall => cases ht
        | callCode =>
          cases ht
          exact .inr rfl
        | call =>
          cases ht
          obtain ⟨value', gas', isCold, targetExists, hpeek, hzero, -⟩ := hpriced
          refine .inl ?_
          cases rest with
          | nil => cases hvalue
          | cons v rest =>
            cases hvalue
            cases (Exec.peek_two hdata).symm.trans hpeek
            exact hzero rfl
    | _ =>
      rw [hd] at hq
      cases hq
      trivial

namespace Exec

variable {env : Environment} {e e' : Exec}

/-- A question is answered by operations of the handler. -/
theorem perform_performs (hreg : env.Regular) (h : e.Wf) (q : Request)
    (hbonus : ∀ i, e.metadata.gasometer.inner = .ok i → bonusOfRequest env q ≤ i.usedGas)
    {t : Option TaggedRuntime} (heq : q.perform (handler env) e = (t, e')) :
    ∃ ops, q.Answers ops ∧ Performs env e ops e' := by
  cases q with
  | none =>
    cases heq
    exact ⟨[], rfl, performs_nil rfl⟩
  | load slot =>
    cases heq
    exact ⟨[.storage slot], rfl, performs_one rfl⟩
  | store slot value =>
    cases heq
    exact ⟨[.setStorage slot value], rfl, performs_one rfl⟩
  | log l =>
    cases heq
    exact ⟨[.log l], rfl, performs_one rfl⟩
  | delete address target =>
    refine ⟨[.markDelete address target], rfl, performs_one ?_⟩
    rw [Request.perform] at heq
    dsimp only [handler, stateHandler, markDelete] at heq
    rw [StackExecutor.step, StackExecutor.markDelete]
    split at heq
    · rename_i state ht
      cases heq
      rw [show e.inner.state.transfer env.backend
        ⟨address, target, e.inner.balance env.backend address⟩ = _ from ht]
      rfl
    · rename_i state ht
      cases heq
      rw [show e.inner.state.transfer env.backend
        ⟨address, target, e.inner.balance env.backend address⟩ = _ from ht]
      rfl
  | create caller scheme value initCode =>
    rw [Request.perform] at heq
    dsimp only [handler, create] at heq
    have hs := maybeRecordInitCodeCost_pays hreg h.funded.sound initCode
    cases hr : maybeRecordInitCodeCost env initCode e with
    | mk r e₁ =>
      rw [hr] at heq hs
      have hinner := hs.inner
      cases r with
      | error er =>
        cases heq
        exact ⟨[], .inl rfl, performs_nil hinner⟩
      | ok u =>
        dsimp only at heq
        cases hc : e₁.createInner env caller scheme value initCode none true with
        | mk c e₂ =>
          rw [hc] at heq
          cases heq
          cases createInner_created hs.sound caller scheme value initCode none true hc with
          | refused hsame => exact ⟨[], .inl rfl, performs_nil (hsame.trans hinner)⟩
          | failed address hcreate =>
            refine ⟨[.create caller address value], .inr ⟨address, rfl⟩, performs_one ?_⟩
            rw [StackExecutor.step, ← hinner, hcreate]
          | entered _ hcreate =>
            refine ⟨[.create caller (e₁.createAddress env scheme) value], .inr ⟨_, rfl⟩,
              performs_one ?_⟩
            rw [StackExecutor.step, ← hinner, hcreate]
  | call codeAddress transfer input gas isStatic context =>
    rw [Request.perform] at heq
    dsimp only [handler, call] at heq
    have hcalled := callInner_called hreg h codeAddress transfer input gas isStatic true true
      context
      hbonus
    cases hc : e.callInner env codeAddress transfer input gas isStatic true true context with
    | mk c e₁ =>
      rw [hc] at heq hcalled
      cases heq
      dsimp only at hcalled
      cases hcalled with
      | refused hsame => exact ⟨[], .inl rfl, performs_nil hsame⟩
      | entered _ hcall =>
        refine ⟨[.call context.address transfer], .inr (.inl rfl), performs_one ?_⟩
        rw [StackExecutor.step, hcall]
      | @precompiled result _ x kind hcall hexit _ =>
        refine ⟨[.call context.address transfer, .exit kind], .inr (.inr ⟨kind, rfl⟩), ?_⟩
        rw [Performs, StackExecutor.run, StackExecutor.step, hcall]
        dsimp only [Option.bind_some]
        rw [StackExecutor.run, StackExecutor.step, hexit]
        rfl

/-- A step of a runtime: it reads slots, and then asks one question. A slot that it writes is among
those that it has read. -/
theorem stepped_performs (hreg : env.Regular) (h : e.Wf) {r : Runtime}
    {res : Except (Capture ExitReason TaggedRuntime) Unit} (hs : Stepped (handler env) r e res e') :
    ∃ (q : Request) (reads ops : List HandlerOp), q.Answers ops ∧ Performs env e (reads ++ ops) e' ∧
      (∀ op ∈ reads, op.Reads) ∧ (∀ slot value, q = .store slot value → .storage slot ∈ reads) ∧
      (e.metadata.isStatic = true → q.Static) := by
  cases hs with
  | stopped hi =>
    exact ⟨.none, [], [], rfl, performs_nil rfl, fun _ hop => (by cases hop),
      fun _ _ hq => (by cases hq), fun _ => trivial⟩
  | refused hi hpre =>
    obtain ⟨reads, hperforms, hreads⟩ := preValidate_looks hpre
    exact ⟨.none, reads, [], rfl, by rwa [List.append_nil], hreads, fun _ _ hq => (by cases hq),
      fun _ => trivial⟩
  | @asked o q e₁ _ _ hi hpre hq hperform hhalts =>
    rcases preValidate_spends hreg h.funded.sound hpre with ⟨_, heq, -⟩ | ⟨c, -, hs, hcharge⟩
    · cases heq
    have hbonus := bonus_lt hreg hq hcharge
    have hmoves := hs.moves h (by rw [preValidate_aligned hpre])
    have hused : ∀ i, e₁.metadata.gasometer.inner = .ok i → bonusOfRequest env q ≤ i.usedGas := by
      intro i hi
      obtain ⟨i₀, -, hle⟩ := hs.used i hi
      omega
    obtain ⟨ops, hanswers, hops⟩ := perform_performs hreg hmoves.wf q hused hperform
    have hstatic : e.metadata.isStatic = true → q.Static := fun hst => by
      rw [hst] at hcharge
      exact hq.static hcharge
    -- The reads of a write are known; those of the other instructions only read.
    cases hd : decode o with
    | sstore =>
      rw [hd] at hq
      cases hq with
      | none =>
        obtain ⟨reads, hperforms, hreads⟩ := preValidate_looks hpre
        exact ⟨.none, reads, ops, hanswers, hperforms.append hops, hreads,
          fun _ _ hq => (by cases hq), fun _ => trivial⟩
      | @store index value rest hdata =>
        have hfalse : e.metadata.isStatic = false := by
          cases hst : e.metadata.isStatic with
          | false => rfl
          | true => exact (hstatic hst).elim
        have hperforms := preValidate_sstore hd hfalse hdata hpre
        refine ⟨_, _, ops, hanswers, hperforms.append hops, ?_, ?_, hstatic⟩
        · intro op hop
          rcases List.mem_cons.1 hop with rfl | hop
          · trivial
          · rw [List.mem_singleton.1 hop]
            trivial
        · rintro slot value' hq
          cases hq
          exact List.mem_cons_of_mem _ (List.mem_singleton_self _)
    | _ =>
      obtain ⟨reads, hperforms, hreads⟩ := preValidate_looks hpre
      refine ⟨q, reads, ops, hanswers, hperforms.append hops, hreads, ?_, hstatic⟩
      rintro slot value rfl
      rw [hd] at hq
      cases hq

/-! ## The end of a runtime -/

/-- What the end of a runtime does: it leaves its substate, and a creation that succeeds stores its
code. -/
def Ends (kind : RuntimeKind) (result : ExitReason × Option H160 × Bytes) : HandlerOp → Prop
  | .exit exitKind => ∀ s, result.1 = .succeed s → exitKind = .succeeded ∧ ∃ a, kind = .call a
  | .deploy address _ => kind = .create address
  | _ => False

/-- The end of a runtime is one operation of the handler. -/
theorem cleanup_performs (hreg : env.Regular) (h : e.Wf) (hne : e.parents ≠ []) {kind : RuntimeKind}
    (hkind : kind ≠ .execute) (reason : ExitReason) (returnData : Bytes) :
    ∃ op, Ends kind (e.cleanup env kind reason returnData).1 op ∧
      Performs env e [op] (e.cleanup env kind reason returnData).2 := by
  obtain ⟨n, e₁, hs, hcase⟩ := cleanup_cases hreg h.funded.sound hkind reason returnData
  rcases hcase with ⟨k, heq, hk⟩ | ⟨address, rfl, heq⟩
  · refine ⟨.exit k, hk, performs_one ?_⟩
    rw [StackExecutor.step, heq]
    exact hs.exit h hne k
  · refine ⟨.deploy address returnData, rfl, performs_one ?_⟩
    rw [StackExecutor.step, hs.exit h hne .succeeded, heq]
    rfl

end Exec

end Chase.Vm
