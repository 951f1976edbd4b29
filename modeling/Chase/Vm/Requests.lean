import Chase.Vm.Runtime

/-!
# What a step asks of the handler

An instruction of the runtime asks the handler at most once (`Request`), and what it asks follows
from the instruction and the stack (`Requests`). `table_spec` says so for every instruction, and
`step_cases` for a step of the runtime with the check before it. What holds along runs of an
executor is proved from these two, without the instructions.
-/

namespace Chase.Vm

open EarlyExit

/-- What an instruction asks of the handler. -/
inductive Request where
  | none
  | load (slot : Slot)
  | store (slot : Slot) (value : H256)
  | log (l : Log)
  | delete (address target : H160)
  | create (caller : H160) (scheme : CreateScheme) (value : U256) (initCode : Bytes)
  | call (codeAddress : H160) (transfer : Option Transfer) (input : Bytes) (gas : Option Nat)
    (isStatic : Bool) (context : Context)

/-- The interrupt of a capture. -/
def Capture.interrupt {ε τ : Type} : Capture ε τ → Option τ
  | .exit _ => none
  | .trap i => some i

/-- The interrupt of an instruction. -/
def interruptOf {I : Type} : Except ExitReason (RuntimeControl I) → Option I
  | .ok (.interrupt i) => some i
  | _ => none

section Perform

variable {H I : Type} (h : Handler H I) (s : H)

/-- The answer of the handler, as far as it is an interrupt, and its state then. -/
def Request.perform : Request → Option I × H
  | .none => (Option.none, s)
  | .load slot => (Option.none, (h.storage slot s).2)
  | .store slot value => (Option.none, (h.setStorage slot value s).2)
  | .log l => (Option.none, (h.log l s).2)
  | .delete address target => (Option.none, (h.markDelete address target s).2)
  | .create caller scheme value initCode =>
    ((h.create caller scheme value initCode Option.none s).1.interrupt,
      (h.create caller scheme value initCode Option.none s).2)
  | .call codeAddress transfer input gas isStatic context =>
    ((h.call codeAddress transfer input gas isStatic context s).1.interrupt,
      (h.call codeAddress transfer input gas isStatic context s).2)

end Perform

/-- The value of a call is the third word of the stack, or zero. -/
def CallScheme.ValueIn (scheme : CallScheme) (rest : List H256) (value : U256) : Prop :=
  match scheme with
  | .call | .callCode => rest.head? = some value
  | .delegateCall | .staticCall => value = 0#256

/-- What an instruction of a runtime can ask; every instruction can fail before it asks. -/
inductive Requests (r : Runtime) : Instruction → Request → Prop
  | none (i : Instruction) : Requests r i .none
  | load {index : H256} {rest : List H256} : r.machine.stack.data = index :: rest →
    Requests r .sload (.load (r.context.address, index))
  | store {index value : H256} {rest : List H256} : r.machine.stack.data = index :: value :: rest →
    Requests r .sstore (.store (r.context.address, index) value)
  | log (n : Nat) (topics : List H256) (data : Bytes) :
    Requests r (.log n) (.log ⟨r.context.address, topics, data⟩)
  | delete {target : H256} {rest : List H256} : r.machine.stack.data = target :: rest →
    Requests r .suicide (.delete r.context.address (addressOf target))
  | create (isCreate2 : Bool) (scheme : CreateScheme) (value : U256) (initCode : Bytes) :
    Requests r (.create isCreate2) (.create r.context.address scheme value initCode)
  | call {scheme : CallScheme} {gas target value : H256} {rest : List H256} (input : Bytes)
    (gasLimit : Option Nat) : r.machine.stack.data = gas :: target :: rest →
    scheme.ValueIn rest value →
    Requests r (.call scheme)
      (.call (addressOf target)
        (RuntimeEval.callTransfer scheme r.context (addressOf target) value) input gasLimit
        (scheme = .staticCall) (RuntimeEval.callContext scheme r.context (addressOf target) value))

namespace RuntimeEval

variable {H I : Type} {h : Handler H I} {r : Runtime} {s : H}

/-- What an instruction has done when it ends: it has asked at most once. -/
def Asked (h : Handler H I) (r : Runtime) (s : H) (i : Instruction)
    (interrupt : Option I) (s' : H) : Prop :=
  ∃ q, Requests r i q ∧ q.perform h s = (interrupt, s')

theorem asked_none (i : Instruction) : Asked h r s i none s := ⟨.none, .none i, rfl⟩

/-- Before an instruction asks: the handler and the context are as they were, and the stack has
these words. -/
def At (r : Runtime) (s : H) (data : List H256) (t : Runtime × H) : Prop :=
  t.2 = s ∧ t.1.context = r.context ∧ t.1.machine.stack.data = data

/-- The same, when the stack does not matter any more. -/
def Quiet (r : Runtime) (s : H) (t : Runtime × H) : Prop := t.2 = s ∧ t.1.context = r.context

theorem preserves_quiet {α : Type} (x : Eval α) : Preserves (Quiet r s) (onMachine x) :=
  triple_zoom fun t ht => by
    cases x t.1.machine with
    | mk e machine => cases e <;> exact ht

/-- A computation on the runtime leaves the state of the handler. -/
theorem preserves_quiet_runtime {α : Type} {x : EarlyExit ExitReason Runtime α} {s' : H} :
    Triple (fun t : Runtime × H => t.2 = s') (onRuntime x)
      (fun _ t => t.2 = s') fun _ t => t.2 = s' :=
  triple_zoom fun t ht => by
    cases x t.1 with
    | mk e r' => cases e <;> exact ht

theorem pop_nil {m : Machine} (hdata : m.stack.data = []) :
    Eval.pop m = (.error (.error .stackUnderflow), m) := by
  simp only [Eval.pop, zoom, Stack.pop, hdata]

/-- A pop takes the top word. -/
theorem pop_cons {m : Machine} {v : H256} {rest : List H256} (hdata : m.stack.data = v :: rest) :
    Eval.pop m = (.ok v, { m with stack := { m.stack with data := rest } }) := by
  simp only [Eval.pop, zoom, Stack.pop, hdata]

/-- A pop takes the top word of the stack that the machine had, without asking the handler. -/
theorem triple_popAt (data : List H256) :
    Triple (At r s data) (onMachine Eval.pop) (fun v t => ∃ rest, data = v :: rest ∧ At r s rest t)
      fun _ => Quiet r s := by
  refine triple_zoom fun t ht => ?_
  obtain ⟨hs, hcontext, hdata⟩ := ht
  cases data with
  | nil =>
    rw [pop_nil hdata]
    exact ⟨hs, hcontext⟩
  | cons v rest =>
    rw [pop_cons hdata]
    exact ⟨rest, rfl, hs, hcontext, rfl⟩

/-- The post-condition of an instruction: it has asked at most once. -/
def Asks (h : Handler H I) (r : Runtime) (s : H) (i : Instruction)
    (P : Runtime × H → Prop) (x : RuntimeEval H (RuntimeControl I)) : Prop :=
  Triple P x (fun c t => Asked h r s i (interruptOf (.ok c)) t.2) fun _ t => Asked h r s i none t.2

theorem asks_continue {i : Instruction} :
    Asks h r s i (fun t => Asked h r s i none t.2) (pure .continue) :=
  triple_pure fun _ ht => ht

theorem asked_of_quiet {i : Instruction} {t : Runtime × H} (ht : Quiet r s t) :
    Asked h r s i none t.2 := by
  rw [ht.1]
  exact asked_none i

/-- An instruction that only works on the runtime and reads from the handler. -/
theorem asks_of_keeps {i : Instruction} {x : RuntimeEval H Unit} (hx : Preserves (Quiet r s) x) :
    Asks h r s i (Quiet r s) (do x; pure .continue) :=
  triple_bind (triple_mono hx (fun _ ht => ht) (fun _ _ ht => asked_of_quiet ht)
    fun _ _ ht => asked_of_quiet ht) fun _ => asks_continue

/-- A quiet computation can precede an instruction that asks. -/
theorem asks_bind {α : Type} {i : Instruction} {P : α → Runtime × H → Prop}
    {P₀ : Runtime × H → Prop} {x : RuntimeEval H α} {f : α → RuntimeEval H (RuntimeControl I)}
    (hx : Triple P₀ x P fun _ => Quiet r s) (hf : ∀ a, Asks h r s i (P a) (f a)) :
    Asks h r s i P₀ (x >>= f) :=
  triple_bind (triple_mono hx (fun _ ht => ht) (fun _ _ ht => ht) fun _ _ ht => asked_of_quiet ht)
    hf

/-- A pop in an instruction. -/
theorem asks_pop {i : Instruction} {data : List H256} {f : H256 → RuntimeEval H (RuntimeControl I)}
    (hf : ∀ v rest, data = v :: rest → Asks h r s i (At r s rest) (f v)) :
    Asks h r s i (At r s data) (onMachine Eval.pop >>= f) :=
  asks_bind (triple_popAt data) fun v => triple_exists fun rest => triple_and (hf v rest)

/-- The address of the context, in an instruction. -/
theorem asks_address {i : Instruction} {P : Runtime × H → Prop}
    {f : H160 → RuntimeEval H (RuntimeControl I)} (hP : ∀ t, P t → Quiet r s t)
    (hf : Asks h r s i (Quiet r s) (f r.context.address)) :
    Asks h r s i P (read (fun t => t.1.context.address) >>= f) := by
  refine asks_bind (P := fun address t => address = r.context.address ∧ Quiet r s t)
    (triple_read fun t ht => ⟨congrArg Context.address (hP t ht).2, hP t ht⟩) fun address =>
      triple_and fun haddress => ?_
  rwa [haddress]

theorem At.quiet {data : List H256} {t : Runtime × H} (ht : At r s data t) : Quiet r s t :=
  ⟨ht.1, ht.2.1⟩

/-- The precondition of an instruction can be strengthened. -/
theorem asks_mono {i : Instruction} {P P' : Runtime × H → Prop}
    {x : RuntimeEval H (RuntimeControl I)} (hx : Asks h r s i P x) (hP : ∀ t, P' t → P t) :
    Asks h r s i P' x :=
  triple_mono hx hP (fun _ _ ht => ht) fun _ _ ht => ht

/-- The question itself; its answer is the state of the handler, and what follows works on the
runtime. -/
theorem asks_handler {α : Type} {i : Instruction} {x : EarlyExit ExitError H α} {q : Request}
    {f : α → RuntimeEval H (RuntimeControl I)} (hq : Requests r i q)
    (hperform : q.perform h s = (none, (x s).2))
    (hf : ∀ a, Asks h r s i (fun t => Asked h r s i none t.2) (f a)) :
    Asks h r s i (Quiet r s) (onHandler x >>= f) := by
  refine triple_bind (Q := fun _ (t : Runtime × H) => Asked h r s i none t.2)
    (triple_zoom fun t ht => ?_) hf
  rw [ht.1]
  cases hx : x s with
  | mk e s' =>
    rw [hx] at hperform
    cases e <;> exact ⟨q, hq, hperform⟩

/-- A push at the end of an instruction asks nothing more. -/
theorem asks_push {i : Instruction} (v : H256) :
    Asks h r s i (fun t => Asked h r s i none t.2)
      (do onMachine (Eval.push v); pure .continue) :=
  triple_bind (Q := fun _ (t : Runtime × H) => Asked h r s i none t.2) (triple_zoom fun t ht => by
    cases Eval.push v t.1.machine with
    | mk e machine => cases e <;> exact ht) fun _ => asks_continue

/-! ## Instructions -/

/-- `SLOAD` asks for the slot that is on top of the stack. -/
theorem asks_sload : Asks h r s .sload (At r s r.machine.stack.data) (sload h) :=
  asks_pop fun _ _ hdata => asks_address (fun _ ht => ht.quiet) <|
    asks_handler (.load hdata) rfl fun _ => asks_push _

/-- `SSTORE` asks for the write of the two words on top of the stack. -/
theorem asks_sstore : Asks h r s .sstore (At r s r.machine.stack.data) (sstore h) :=
  asks_pop fun _ _ hdata => asks_pop fun _ _ hrest => asks_address (fun _ ht => ht.quiet) <|
    asks_handler (.store (hrest ▸ hdata)) rfl fun _ => asks_continue

/-- `SUICIDE` asks for the deletion in favour of the address on top of the stack. -/
theorem asks_suicide : Asks h r s .suicide (At r s r.machine.stack.data) (suicide h) :=
  asks_pop fun _ _ hdata => asks_address (fun _ ht => ht.quiet) <|
    asks_handler (.delete hdata) rfl fun _ => triple_exit fun _ ht => ht

/-- `LOGn` asks for one log. -/
theorem asks_log (n : Nat) : Asks h r s (.log n) (Quiet r s) (log h n) := by
  refine asks_bind (preserves_quiet _) fun result => ?_
  obtain ⟨topics, data⟩ := result
  exact asks_address (fun _ ht => ht) <|
    asks_handler (.log n topics data) rfl fun _ => asks_continue

theorem asks_quiet_push {i : Instruction} (v : H256) :
    Asks h r s i (Quiet r s) (do onMachine (Eval.push v); pure .continue) :=
  asks_of_keeps (preserves_quiet _)

/-- `SHA3` asks nothing. -/
theorem asks_sha3 (keccak256 : Bytes → H256) {i : Instruction} :
    Asks h r s i (Quiet r s) (sha3 keccak256) :=
  asks_of_keeps (preserves_quiet _)

theorem asks_query {i : Instruction} (q : Query) : Asks h r s i (Quiet r s) (query h q) :=
  asks_bind preserves_read fun _ => asks_quiet_push _

/-- A query of an account asks nothing that changes the handler. -/
theorem asks_accountQuery {i : Instruction} (word : H → H160 → H256) :
    Asks h r s i (Quiet r s) (accountQuery word) :=
  asks_bind (preserves_quiet _) fun _ => asks_bind preserves_read fun _ => asks_quiet_push _

/-- `EXTCODECOPY` asks nothing that changes the handler. -/
theorem asks_extcodecopy {i : Instruction} : Asks h r s i (Quiet r s) (extcodecopy h) :=
  asks_bind (preserves_quiet _) fun _ => asks_bind (preserves_quiet _) fun _ =>
    asks_bind (preserves_quiet _) fun _ => asks_bind (preserves_quiet _) fun _ =>
    asks_bind (preserves_quiet _) fun _ => asks_bind preserves_read fun _ =>
      asks_of_keeps (preserves_quiet _)

/-- `RETURNDATACOPY` asks nothing. -/
theorem asks_returndatacopy {i : Instruction} : Asks h r s i (Quiet r s) returndatacopy :=
  asks_bind (preserves_quiet _) fun _ => asks_bind (preserves_quiet _) fun _ =>
    asks_bind (preserves_quiet _) fun _ => asks_bind (preserves_quiet _) fun _ =>
    asks_bind preserves_read fun _ =>
      triple_ite (fun _ => triple_exit fun _ ht => asked_of_quiet ht) fun _ =>
        asks_of_keeps (preserves_quiet _)

theorem asks_blockhash {i : Instruction} : Asks h r s i (Quiet r s) (blockhash h) :=
  asks_bind (preserves_quiet _) fun _ => asks_quiet_push _

/-! ## Creations and calls -/

/-- Clearing the return data is quiet. -/
theorem preserves_quiet_clear :
    Preserves (Quiet r s)
      (update fun t => ({ t.1 with returnDataBuffer := [] }, t.2) : RuntimeEval H Unit) :=
  preserves_update fun _ ht => ht

/-- The results of a call or a creation that has ended do not concern the handler. -/
theorem asks_finish {i : Instruction} {x : EarlyExit ExitReason Runtime Unit} {s' : H}
    (hasked : Asked h r s i none s') :
    Asks h r s i (fun t => t.2 = s') (do onRuntime x; pure .continue) :=
  triple_bind (triple_mono preserves_quiet_runtime (fun _ ht => ht) (fun _ _ ht => ht)
    fun _ t ht => by
    rw [ht]
    exact hasked) fun _ => triple_pure fun t ht => by
      rw [ht]
      exact hasked

/-- The question of a call or a creation. -/
theorem triple_capture {α : Type} {E : ExitReason → Runtime × H → Prop} (f : H → α × H) :
    Triple (Quiet r s)
      (fun t =>
        let (capture, s) := f t.2
        (.ok capture, (t.1, s)) : RuntimeEval H α)
      (fun capture t => (capture, t.2) = f s) E := by
  rintro t ⟨rfl, -⟩
  dsimp only
  cases f t.2
  rfl

/-- `CREATE` and `CREATE2` ask for one creation by the address of the context. -/
theorem asks_create (keccak256 : Bytes → H256) (isCreate2 : Bool) :
    Asks h r s (.create isCreate2) (Quiet r s) (create keccak256 h isCreate2) := by
  refine asks_bind preserves_quiet_clear fun _ => asks_bind (preserves_quiet _) fun request => ?_
  obtain ⟨value, code, salt⟩ := request
  refine asks_address (fun _ ht => ht) ?_
  have hq := fun scheme => Requests.create (r := r) isCreate2 scheme value code
  refine triple_bind (triple_capture fun s => h.create r.context.address _ value code none s)
    fun capture => ?_
  cases capture with
  | exit result =>
    intro t ht
    exact asks_finish ⟨_, hq _, by rw [Request.perform, ← ht]; rfl⟩ t rfl
  | trap interrupt =>
    exact triple_pure fun t ht => ⟨_, hq _, by rw [Request.perform, ← ht]; rfl⟩

/-- The words of the stack that a request of a call is read from. -/
theorem triple_callRequest_stack (scheme : CallScheme) (data : List H256) :
    Triple (fun m => m.stack.data = data) (callRequest scheme)
      (fun q _ => ∃ gas target rest, data = gas :: target :: rest ∧ q.target = addressOf target ∧
        scheme.ValueIn rest q.value) fun _ _ => True := by
  have hpop : ∀ data, Triple (fun m => m.stack.data = data) Eval.pop
      (fun v m => ∃ rest, data = v :: rest ∧ m.stack.data = rest) fun _ _ => True := by
    intro data m hm
    cases data with
    | nil =>
      rw [pop_nil hm]
      trivial
    | cons v rest =>
      rw [pop_cons hm]
      exact ⟨rest, rfl, rfl⟩
  have hvalue : ∀ rest, Triple (fun m => m.stack.data = rest) (callValue scheme)
      (fun value _ => scheme.ValueIn rest value) fun _ _ => True := by
    intro rest
    cases scheme with
    | call | callCode =>
      exact triple_mono (hpop rest) (fun _ hm => hm)
        (fun v _ hv => hv.elim fun _ hv => by rw [CallScheme.ValueIn, hv.1, List.head?_cons])
        fun _ _ h => h
    | delegateCall | staticCall => exact triple_pure fun _ _ => rfl
  -- The rest of the request keeps what is known of the words read so far.
  have hkeep : ∀ {α : Type} (p : Prop) (x : Eval α),
      Triple (fun _ => p) x (fun _ _ => p) fun _ _ => True := by
    intro α p x m hp
    cases x m with
    | mk e m' => cases e <;> first | exact hp | trivial
  refine triple_bind (hpop data) fun gas => triple_exists fun rest => triple_and fun hdata =>
    triple_bind (hpop rest) fun target => triple_exists fun rest' => triple_and fun hrest =>
    triple_bind (hvalue rest') fun value =>
    triple_bind (hkeep _ _) fun _ => triple_bind (hkeep _ _) fun _ =>
    triple_bind (hkeep _ _) fun _ => triple_bind (hkeep _ _) fun _ =>
    triple_bind (hkeep _ _) fun _ => triple_bind (hkeep _ _) fun _ =>
    triple_bind (hkeep _ _) fun _ => triple_pure fun _ hv => ?_
  exact ⟨gas, target, rest', by rw [hdata, hrest], rfl, hv⟩

/-- The call instructions ask for one call, of the address and with the value on the stack. -/
theorem asks_call (scheme : CallScheme) :
    Asks h r s (.call scheme) (At r s r.machine.stack.data) (call h scheme) := by
  refine asks_bind (P := fun _ => At r s r.machine.stack.data)
    (triple_update fun _ ht => ht) fun _ => asks_bind
      (P := fun (q : CallRequest) t =>
        (∃ gas target rest, r.machine.stack.data = gas :: target :: rest ∧
          q.target = addressOf target ∧ scheme.ValueIn rest q.value) ∧ Quiet r s t)
      ?_ fun q => triple_and fun hwords => ?_
  · refine triple_zoom fun t ht => ?_
    have hpost := triple_callRequest_stack scheme r.machine.stack.data t.1.machine ht.2.2
    cases hx : callRequest scheme t.1.machine with
    | mk e machine =>
      rw [hx] at hpost
      cases e with
      | ok q => exact ⟨hpost, ht.1, ht.2.1⟩
      | error e => exact ⟨ht.1, ht.2.1⟩
  obtain ⟨gas, target, rest, hdata, htarget, hvalue⟩ := hwords
  refine asks_bind (P := fun context t => context = r.context ∧ Quiet r s t)
    (triple_read fun t ht => ⟨ht.2, ht⟩) fun context => triple_and fun hcontext => ?_
  subst hcontext
  rw [htarget]
  have hq := Requests.call (r := r) q.input q.gas hdata hvalue
  refine triple_bind
    (triple_capture fun s => h.call (addressOf target)
      (callTransfer scheme r.context (addressOf target) q.value) q.input q.gas
      (scheme = .staticCall) (callContext scheme r.context (addressOf target) q.value) s)
    fun capture => ?_
  cases capture with
  | exit result =>
    intro t ht
    exact asks_finish ⟨_, hq, by rw [Request.perform, ← ht]; rfl⟩ t rfl
  | trap interrupt =>
    refine triple_bind
      (Q := fun _ (t : Runtime × H) => Asked h r s (.call scheme) (some interrupt) t.2)
      (triple_update fun t ht => ?_) fun _ => triple_pure fun _ ht => ht
    exact ⟨_, hq, by rw [Request.perform, ← ht]; rfl⟩

/-- Every instruction of the runtime asks the handler at most once, and the interrupt is its
answer. -/
theorem table_spec (keccak256 : Bytes → H256) (opcode : Opcode)
    {res : Except ExitReason (RuntimeControl I)}
    {r' : Runtime} {s' : H} (heq : table keccak256 h opcode (r, s) = (res, r', s')) :
    Asked h r s (decode opcode) (interruptOf res) s' := by
  have hasks : Asks h r s (decode opcode) (At r s r.machine.stack.data)
      (table keccak256 h opcode) := by
    rw [table]
    cases decode opcode with
    | sha3 => exact asks_mono (asks_sha3 keccak256) fun _ ht => ht.quiet
    | query q => exact asks_mono (asks_query q) fun _ ht => ht.quiet
    | balance | extcodesize | extcodehash =>
      exact asks_mono (asks_accountQuery _) fun _ ht => ht.quiet
    | extcodecopy => exact asks_mono asks_extcodecopy fun _ ht => ht.quiet
    | returndatacopy => exact asks_mono asks_returndatacopy fun _ ht => ht.quiet
    | blockhash => exact asks_mono asks_blockhash fun _ ht => ht.quiet
    | sload => exact asks_sload
    | sstore => exact asks_sstore
    | log n => exact asks_mono (asks_log n) fun _ ht => ht.quiet
    | suicide => exact asks_suicide
    | create isCreate2 => exact asks_mono (asks_create keccak256 isCreate2) fun _ ht => ht.quiet
    | call scheme => exact asks_call scheme
    | _ => exact triple_exit fun _ ht => asked_of_quiet ht.quiet
  have hpost := hasks (r, s) ⟨rfl, rfl, rfl⟩
  rw [heq] at hpost
  cases res with
  | ok c => exact hpost
  | error e => exact hpost

/-- `SUICIDE` ends the run. -/
theorem table_suicide (keccak256 : Bytes → H256) {opcode : Opcode} {c : RuntimeControl I}
    {t t' : Runtime × H} (hd : decode opcode = .suicide) :
    table keccak256 h opcode t ≠ (.ok c, t') := by
  have hsuicide : Triple (fun _ => True) (suicide h) (fun _ _ => False) fun _ _ => True :=
    triple_bind preserves_const fun _ => triple_bind preserves_const fun _ =>
      triple_bind preserves_const fun _ => triple_exit fun _ _ => trivial
  intro heq
  have hpost := hsuicide t trivial
  rw [table, hd] at heq
  dsimp only at heq
  rwa [heq] at hpost

end RuntimeEval

/-! ## Traps of the machine -/

namespace Eval

/-- The instruction does not go to the runtime. -/
def Untrapped (x : Eval Control) : Prop := ∀ m o m', x m ≠ (.ok (.trap o), m')

theorem untrapped_pure {c : Control} (hc : ∀ o, c ≠ .trap o) : Untrapped (pure c) := by
  intro m o m' heq
  exact hc o (Except.ok.inj (Prod.mk.inj heq).1)

/-- Going on is no trap. -/
theorem untrapped_continue {n : Nat} : Untrapped (pure (.continue n)) :=
  untrapped_pure fun _ heq => by cases heq

/-- An exit is no trap. -/
theorem untrapped_exit {reason : ExitReason} : Untrapped (pure (.exit reason)) :=
  untrapped_pure fun _ heq => by cases heq

/-- A bind does not trap when its last part does not. -/
theorem untrapped_bind {α : Type} {x : Eval α} {f : α → Eval Control}
    (hf : ∀ a, Untrapped (f a)) : Untrapped (x >>= f) := by
  intro m o m' heq
  cases hx : x m with
  | mk e m₁ =>
    cases e with
    | ok a =>
      rw [bind_ok hx] at heq
      exact hf a m₁ o m' heq
    | error e =>
      rw [bind_error hx] at heq
      cases heq

theorem untrapped_ite {c : Prop} [Decidable c] {x y : Eval Control} (hx : Untrapped x)
    (hy : Untrapped y) : Untrapped (if c then x else y) := by
  split
  · exact hx
  · exact hy

/-- A jump does not trap. -/
theorem untrapped_jumpTo (dest : U256) : Untrapped (jumpTo dest) :=
  untrapped_bind fun _ => untrapped_bind fun _ =>
    untrapped_ite (untrapped_pure fun _ heq => by cases heq) untrapped_exit

/-- An instruction goes to the runtime as it is. -/
theorem table_trap {opcode o : Opcode} {position : Nat} {m m' : Machine}
    (heq : table opcode position m = (.ok (.trap o), m')) : o = opcode ∧ m' = m := by
  have hone : ∀ {α : Type} (x : Eval α) (n : Nat), Untrapped (do let _ ← x; pure (.continue n)) :=
    fun _ _ => untrapped_bind fun _ => untrapped_continue
  rw [table] at heq
  cases hd : decode opcode <;> rw [hd] at heq
  case stop | invalid => exact absurd heq (untrapped_exit m o m')
  case jumpdest => exact absurd heq (untrapped_continue m o m')
  case pop | pc => exact absurd heq (hone _ _ m o m')
  case op1 | codesize | calldatasize | msize | push | dup =>
    exact absurd heq (untrapped_bind (fun _ => hone _ _) m o m')
  case op2 | calldataload =>
    exact absurd heq (untrapped_bind (fun _ => untrapped_bind fun _ => hone _ _) m o m')
  case op3 | swap =>
    exact absurd heq (untrapped_bind
      (fun _ => untrapped_bind fun _ => untrapped_bind fun _ => hone _ _) m o m')
  case mload | mstore | mstore8 =>
    exact absurd heq (untrapped_bind (fun _ => untrapped_bind fun _ => untrapped_bind fun _ =>
      untrapped_bind fun _ => hone _ _) m o m')
  case codecopy =>
    exact absurd heq (untrapped_bind (fun _ => untrapped_bind fun _ => untrapped_bind fun _ =>
      untrapped_bind fun _ => untrapped_bind fun _ => hone _ _) m o m')
  case calldatacopy =>
    exact absurd heq (untrapped_bind (fun _ => untrapped_bind fun _ => untrapped_bind fun _ =>
      untrapped_bind fun _ => untrapped_ite untrapped_continue
        (untrapped_bind fun _ => hone _ _)) m o m')
  case jump => exact absurd heq (untrapped_bind untrapped_jumpTo m o m')
  case jumpi =>
    exact absurd heq (untrapped_bind (fun dest => untrapped_bind fun _ =>
      untrapped_ite (untrapped_jumpTo dest) untrapped_continue) m o m')
  case ret | revert =>
    exact absurd heq (untrapped_bind (fun _ => untrapped_bind fun _ => untrapped_bind fun _ =>
      untrapped_bind fun _ => untrapped_exit) m o m')
  all_goals
    obtain ⟨hc, hm⟩ := Prod.mk.inj heq
    exact ⟨(Control.trap.inj (Except.ok.inj hc)).symm, hm.symm⟩

end Eval

namespace Machine

/-- A trap: the machine stands after the opcode, with the stack as it was. -/
theorem step_trap {m m' : Machine} {o : Opcode} (heq : m.step = (.error (.trap o), m')) :
    ∃ position, m.position = .ok position ∧ m.code[position]? = some o ∧
      m' = { m with position := .ok (position + 1) } := by
  rw [step] at heq
  cases hp : m.position with
  | error reason =>
    rw [hp] at heq
    cases heq
  | ok position =>
    rw [hp] at heq
    dsimp only at heq
    cases ho : m.code[position]? with
    | none =>
      rw [ho] at heq
      cases heq
    | some opcode =>
      rw [ho] at heq
      dsimp only [eval] at heq
      cases ht : Eval.table opcode position m with
      | mk e m₁ =>
        rw [ht] at heq
        cases e with
        | error reason => cases heq
        | ok control =>
          cases control with
          | «continue» | exit | jump => cases heq
          | trap o' =>
            obtain ⟨rfl, rfl⟩ := Eval.table_trap ht
            cases heq
            exact ⟨position, rfl, ho, rfl⟩

end Machine

/-! ## Steps of a runtime -/

/-- The interrupt of a step. -/
def trapOf {I : Type} : Except (Capture ExitReason I) Unit → Option I
  | .error (.trap i) => some i
  | _ => none

/-- The instructions that end the run of a runtime, and can cost nothing. -/
def Instruction.Halts : Instruction → Prop
  | .stop | .ret | .revert | .suicide => True
  | _ => False

/-- What an instruction requests depends on the stack and the context of the runtime only. -/
theorem Requests.congr {r r' : Runtime} {i : Instruction} {q : Request} (hq : Requests r i q)
    (hdata : r.machine.stack.data = r'.machine.stack.data) (hcontext : r.context = r'.context) :
    Requests r' i q := by
  cases hq with
  | none => exact .none i
  | load h => rw [hcontext]; exact .load (hdata ▸ h)
  | store h => rw [hcontext]; exact .store (hdata ▸ h)
  | log n topics data => rw [hcontext]; exact .log n topics data
  | delete h => rw [hcontext]; exact .delete (hdata ▸ h)
  | create b scheme value code => rw [hcontext]; exact .create b scheme value code
  | call input gas h hvalue => rw [hcontext]; exact .call input gas (hdata ▸ h) hvalue

/-- What a step of a runtime that has not exited can be: there is no instruction, the handler
refuses it, or it is charged and asks at most once. -/
inductive Stepped {H I : Type} (h : Handler H I) (r : Runtime) (s : H) :
    Except (Capture ExitReason I) Unit → H → Prop
  | stopped {reason : ExitReason} : r.machine.inspect = none →
    Stepped h r s (.error (.exit reason)) s
  | refused {o : Opcode} {e : ExitError} {s' : H} :
    r.machine.inspect = some (o, r.machine.stack) →
    h.preValidate r.context o r.machine.stack s = (.error e, s') →
    Stepped h r s (.error (.exit (.error e))) s'
  | asked {o : Opcode} {q : Request} {s₁ s' : H} {res : Except (Capture ExitReason I) Unit} :
    r.machine.inspect = some (o, r.machine.stack) →
    h.preValidate r.context o r.machine.stack s = (.ok (), s₁) →
    Requests r (decode o) q → q.perform h s₁ = (trapOf res, s') →
    ((decode o).Halts → ∃ reason, res = .error (.exit reason)) → Stepped h r s res s'

namespace Machine

/-- `inspect` gives the opcode at the position and the stack. -/
theorem inspect_eq {m : Machine} {o : Opcode} {stack : Stack} (hi : m.inspect = some (o, stack)) :
    stack = m.stack ∧ ∃ position, m.position = .ok position ∧ m.code[position]? = some o := by
  rw [inspect] at hi
  cases hp : m.position with
  | error reason =>
    rw [hp] at hi
    cases hi
  | ok position =>
    rw [hp] at hi
    cases ho : m.code[position]? with
    | none => simp [ho] at hi
    | some o' =>
      simp only [ho, Option.map_some, Option.some.injEq, Prod.mk.injEq] at hi
      exact ⟨hi.2.symm, position, rfl, hi.1 ▸ ho⟩

/-- A machine without a next opcode exits. -/
theorem step_of_inspect_none {m : Machine} (hi : m.inspect = none) :
    ∃ reason m', m.step = (.error (.exit reason), m') := by
  rw [inspect] at hi
  rw [step]
  cases hp : m.position with
  | error reason => exact ⟨reason, m, rfl⟩
  | ok position =>
    rw [hp] at hi
    cases ho : m.code[position]? with
    | none =>
      refine ⟨.succeed .stopped, { m with position := .error (.succeed .stopped) }, ?_⟩
      simp only [ho]
    | some o => simp [ho] at hi

/-- `STOP`, `RETURN` and `REVERT` end the run. -/
theorem step_of_halts {m : Machine} {o : Opcode} {stack : Stack} (hi : m.inspect = some (o, stack))
    (hhalts : (decode o).Halts) (hsuicide : decode o ≠ .suicide) :
    ∃ reason m', m.step = (.error (.exit reason), m') := by
  obtain ⟨-, position, hp, ho⟩ := inspect_eq hi
  have hexit : ∃ reason m', m.eval o position = (.exit reason, m') := by
    have hret : ∀ reason, Eval.table o position = Eval.retWith reason →
        ∃ reason' m', m.eval o position = (.exit reason', m') := by
      intro reason htable
      rw [eval, htable]
      have hpost : Triple (fun _ => True) (Eval.retWith reason)
          (fun c _ => c = .exit reason) fun _ _ => True :=
        triple_bind preserves_const fun _ => triple_bind preserves_const fun _ =>
          triple_bind preserves_const fun _ => triple_bind preserves_const fun _ =>
            triple_pure fun _ _ => rfl
      have hpost := hpost m trivial
      cases hx : Eval.retWith reason m with
      | mk e m' =>
        rw [hx] at hpost
        cases e with
        | ok c =>
          cases hpost
          exact ⟨reason, m', rfl⟩
        | error e => exact ⟨e, m', rfl⟩
    cases hd : decode o <;> rw [hd] at hhalts <;> first | exact hhalts.elim | skip
    case stop => exact ⟨.succeed .stopped, m, by rw [eval, Eval.table, hd]; rfl⟩
    case ret => exact hret _ (by rw [Eval.table, hd])
    case revert => exact hret _ (by rw [Eval.table, hd])
    case suicide => exact absurd hd hsuicide
  obtain ⟨reason, m', heval⟩ := hexit
  refine ⟨reason, { m' with position := .error reason }, ?_⟩
  rw [step, hp]
  simp only [ho, heval]

end Machine

namespace Runtime

variable {H I : Type} {keccak256 : Bytes → H256} {h : Handler H I} {r r' : Runtime} {s s' : H}
  {res : Except (Capture ExitReason I) Unit}

/-- The part of a step after the check. -/
theorem stepped_of_preValidate {o : Opcode} {s₁ : H} (hstatus : r.status = .ok ())
    (hi : r.machine.inspect = some (o, r.machine.stack))
    (hpre : h.preValidate r.context o r.machine.stack s = (.ok (), s₁))
    (heq : r.step keccak256 h s = (res, r', s')) : Stepped h r s res s' := by
  have hstep : r.preStep h s = (r, s₁) := by
    rw [preStep, hi]
    dsimp only
    rw [hpre]
  rw [step, hstep] at heq
  dsimp only at heq
  rw [hstatus] at heq
  dsimp only at heq
  cases hm : r.machine.step with
  | mk e machine =>
    rw [hm] at heq
    have hhalts : (decode o).Halts → decode o ≠ .suicide → ∃ reason, e = .error (.exit reason) :=
      fun hh hs => by
        obtain ⟨reason, m', heq⟩ := Machine.step_of_halts hi hh hs
        rw [hm] at heq
        exact ⟨reason, (Prod.mk.inj heq).1⟩
    cases e with
    | ok u =>
      cases heq
      refine .asked hi hpre (.none _) rfl fun hh => ?_
      by_cases hs : decode o = .suicide
      · -- The machine does not run this one: it goes to the runtime.
        obtain ⟨-, position, hp, ho⟩ := Machine.inspect_eq hi
        rw [Machine.step, hp] at hm
        simp only [ho, Machine.eval, Eval.table, hs] at hm
        cases hm
      · obtain ⟨reason, heq⟩ := hhalts hh hs
        cases heq
    | error c =>
      cases c with
      | exit reason =>
        cases heq
        exact .asked hi hpre (.none _) rfl fun _ => ⟨reason, rfl⟩
      | trap opcode =>
        obtain ⟨position, hp, ho, hmachine⟩ := Machine.step_trap hm
        obtain ⟨-, position', hp', ho'⟩ := Machine.inspect_eq hi
        obtain rfl : position = position' := Except.ok.inj (hp.symm.trans hp')
        obtain rfl : opcode = o := Option.some.inj (ho.symm.trans ho')
        have hhalts : (decode opcode).Halts → decode opcode = .suicide := fun hh => by
          by_contra hs
          obtain ⟨reason, heq⟩ := hhalts hh hs
          cases heq
        dsimp only at heq
        cases ht : RuntimeEval.table keccak256 h opcode
            ({ r with machine, status := .ok () }, s₁) with
        | mk c t =>
          obtain ⟨r₂, s₂⟩ := t
          rw [ht] at heq
          obtain ⟨q, hq, hperform⟩ := RuntimeEval.table_spec keccak256 opcode ht
          have hstack : machine.stack.data = r.machine.stack.data := by rw [hmachine]
          have hq : Requests r (decode opcode) q := hq.congr hstack rfl
          cases c with
          | error reason =>
            cases heq
            exact .asked hi hpre hq hperform fun _ => ⟨reason, rfl⟩
          | ok c =>
            have hnot : ¬(decode opcode).Halts := fun hh =>
              RuntimeEval.table_suicide keccak256 (hhalts hh) ht
            cases c with
            | «continue» | interrupt i =>
              cases heq
              exact .asked hi hpre hq hperform fun hh => absurd hh hnot

/-- The inversion of a step of a runtime that has not exited. -/
theorem step_cases (hstatus : r.status = .ok ()) (heq : r.step keccak256 h s = (res, r', s')) :
    Stepped h r s res s' := by
  cases hi : r.machine.inspect with
  | none =>
    obtain ⟨reason, machine, hm⟩ := Machine.step_of_inspect_none hi
    have hpre : r.preStep h s = (r, s) := by rw [preStep, hi]
    rw [step, hpre] at heq
    dsimp only at heq
    rw [hstatus] at heq
    dsimp only at heq
    rw [hm] at heq
    cases heq
    exact .stopped hi
  | some inspected =>
    obtain ⟨o, stack⟩ := inspected
    obtain rfl := (Machine.inspect_eq hi).1
    cases hpre : h.preValidate r.context o r.machine.stack s with
    | mk e s₁ =>
      cases e with
      | ok u => exact stepped_of_preValidate hstatus hi hpre heq
      | error e =>
        have hstep : r.preStep h s =
            ({ r with machine := r.machine.exit (.error e), status := .error (.error e) }, s₁) := by
          rw [preStep, hi]
          dsimp only
          rw [hpre]
        rw [step, hstep] at heq
        cases heq
        exact .refused hi hpre

end Runtime

end Chase.Vm
