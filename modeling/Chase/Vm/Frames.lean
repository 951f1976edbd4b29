import Chase.Vm.Bounds
import Chase.Vm.Executor
import Chase.Vm.Requests
import Chase.Lib.Machine

/-!
# What holds of every runtime of a transaction

`Runtime.Wf` is `Machine.Wf` with one more fact: the memory covers the range where the result of the
last call goes. It is what makes the write of `finish_call` stay inside of the memory that the
caller has paid for, since that write happens long after the memory was resized.

A step of a runtime keeps it for every handler, and `Execution.step` keeps it for all the runtimes
of the call stack; so it holds in every state that a transaction reaches.
-/

namespace Chase.Vm

open EarlyExit

namespace Machine.Follows

variable {m₀ m m' : Machine}

theorem self (h : m₀.Follows m) : m.Follows m :=
  ⟨rfl, rfl, rfl, rfl, rfl, rfl, h.stack, h.memory, le_rfl⟩

/-- Following is transitive. -/
theorem trans (h : m₀.Follows m) (h' : m.Follows m') : m₀.Follows m' where
  code := h'.code.trans h.code
  data := h'.data.trans h.data
  valids := h'.valids.trans h.valids
  position := h'.position.trans h.position
  stackLimit := h'.stackLimit.trans h.stackLimit
  memoryLimit := h'.memoryLimit.trans h.memoryLimit
  stack := h'.stack
  memory := h'.memory
  effectiveLen_le := h.effectiveLen_le.trans h'.effectiveLen_le

theorem covers {offset len : Nat} (h : m.Follows m') (hc : m.memory.Covers offset len) :
    m'.memory.Covers offset len :=
  hc.imp_right fun hc => hc.trans h.effectiveLen_le

end Machine.Follows

/-- The memory covers the range of the result of the last call. -/
def Runtime.Awaits (r : Runtime) : Prop :=
  r.machine.memory.Covers r.returnDataOffset.toNat r.returnDataLen.toNat

/-- What holds of the runtime `r` in an instruction that began in `r₀`. -/
structure Runtime.Follows (r₀ r : Runtime) : Prop where
  machine : r₀.machine.Follows r.machine
  awaits : r.Awaits
  context : r.context = r₀.context
  status : r.status = r₀.status

namespace Runtime.Follows

variable {r₀ r : Runtime}

/-- A runtime whose machine takes steps still follows. -/
theorem withMachine {machine : Machine} (h : r₀.Follows r) (hm : r.machine.Follows machine) :
    r₀.Follows { r with machine } :=
  ⟨h.machine.trans hm, hm.covers h.awaits, h.context, h.status⟩

end Runtime.Follows

namespace RuntimeEval

variable {H I α β : Type} {r₀ : Runtime}

/-- `Runtime.Follows` in a program of the runtime, which says nothing about the handler. -/
def Within (r₀ : Runtime) (t : Runtime × H) : Prop := r₀.Follows t.1

/-- A program of the machine, with what it needs and gives of the machine. -/
theorem triple_onMachine {x : Eval α} {P : Machine → Prop} {Q : α → Machine → Prop}
    (h : ∀ m₀ : Machine, Triple (fun m => m₀.Follows m ∧ P m) x (fun a m => m₀.Follows m ∧ Q a m)
      fun _ => m₀.Follows) :
    Triple (fun t : Runtime × H => Within r₀ t ∧ P t.1.machine) (onMachine x)
      (fun a t => Within r₀ t ∧ Q a t.1.machine) fun _ => Within r₀ := by
  refine triple_zoom fun t ht => ?_
  have hpost := h t.1.machine t.1.machine ⟨ht.1.machine.self, ht.2⟩
  cases hr : x t.1.machine with
  | mk r machine =>
    rw [hr] at hpost
    cases r with
    | ok a => exact ⟨ht.1.withMachine hpost.1, hpost.2⟩
    | error e => exact ht.1.withMachine hpost

/-- A computation that keeps the machine keeps the runtime. -/
theorem preserves_onMachine {x : Eval α} (h : ∀ m₀ : Machine, Preserves m₀.Follows x) :
    Preserves (Within (H := H) r₀) (onMachine x) :=
  triple_mono
    (triple_onMachine (P := fun _ => True) (Q := fun _ _ => True) fun m₀ =>
      triple_mono (h m₀) (fun _ hm => hm.1) (fun _ _ hm => ⟨hm, trivial⟩) fun _ _ hm => hm)
    (fun _ ht => ⟨ht, trivial⟩) (fun _ _ ht => ht.1) fun _ _ ht => ht

theorem preserves_onHandler (x : EarlyExit ExitError H α) : Preserves (Within r₀) (onHandler x) :=
  triple_zoom fun t ht => by
    cases x t.2 with
    | mk r s => cases r <;> exact ht

/-- A pop keeps the runtime. -/
theorem preserves_popMachine : Preserves (Within (H := H) r₀) (onMachine Eval.pop) :=
  preserves_onMachine fun _ => Eval.preserves_pop

/-- A push keeps the runtime. -/
theorem preserves_pushMachine (v : H256) :
    Preserves (Within (H := H) r₀) (onMachine (Eval.push v)) :=
  preserves_onMachine fun _ => Eval.preserves_push v

/-- Reading the bytes of a range keeps the machine. -/
theorem preserves_bytesAt {m₀ : Machine} (offset len : U256) :
    Preserves m₀.Follows (bytesAt offset len) :=
  preserves_pure.ite
    ((Eval.preserves_asUsizeOrFail _ _).bind fun _ =>
      (Eval.preserves_asUsizeOrFail _ _).bind fun _ => preserves_read)

/-- Popping the topics of a log keeps the machine. -/
theorem preserves_popTopics {m₀ : Machine} (n : Nat) : Preserves m₀.Follows (popTopics n) := by
  induction n with
  | zero => exact preserves_pure
  | succ n ih => exact Eval.preserves_pop.bind fun _ => ih.bind fun _ => preserves_pure

/-! ## Instructions of the runtime -/

section Instructions

variable (keccak256 : Bytes → H256) (h : Handler H I)

/-- `SHA3` keeps the runtime. -/
theorem preserves_sha3 : Preserves (Within r₀) (sha3 (H := H) (I := I) keccak256) :=
  (preserves_onMachine fun _ => Eval.preserves_pop.bind fun _ => Eval.preserves_pop.bind fun _ =>
    (Eval.preserves_resizeOffset _ _).bind fun _ => (preserves_bytesAt _ _).bind fun _ =>
      Eval.preserves_push _).bind fun _ => preserves_pure

theorem preserves_query (q : Query) : Preserves (Within r₀) (query h q) :=
  preserves_read.bind fun _ => (preserves_pushMachine _).bind fun _ => preserves_pure

/-- The queries of an account keep the runtime. -/
theorem preserves_accountQuery (word : H → H160 → H256) :
    Preserves (Within r₀) (accountQuery (I := I) word) :=
  preserves_popMachine.bind fun _ => preserves_read.bind fun _ =>
    (preserves_pushMachine _).bind fun _ => preserves_pure

/-- `Within`, when the memory covers a range. -/
def WithinCovering (r₀ : Runtime) (offset len : U256) (t : Runtime × H) : Prop :=
  Within r₀ t ∧ t.1.machine.memory.Covers offset.toNat len.toNat

/-- After a `resize_offset` that succeeds, the memory of the runtime covers the range. -/
theorem triple_resizeMachine (offset len : U256) :
    Triple (Within (H := H) r₀) (onMachine (Eval.resizeOffset offset len))
      (fun _ => WithinCovering r₀ offset len) fun _ => Within r₀ :=
  triple_mono
    (triple_onMachine (P := fun _ => True)
      (Q := fun _ m => m.memory.Covers offset.toNat len.toNat) fun _ =>
        triple_mono (Eval.triple_resizeOffset offset len) (fun _ hm => hm.1)
          (fun _ _ hm => hm) fun _ _ hm => hm)
    (fun _ ht => ⟨ht, trivial⟩) (fun _ _ ht => ht) fun _ _ ht => ht

/-- The copy into the memory that was resized for it. -/
theorem triple_copyMachine (offset dataOffset len : U256) (data : Bytes) :
    Triple (WithinCovering (H := H) r₀ offset len)
      (do
        onMachine (Eval.copyLarge offset dataOffset len data)
        pure (RuntimeControl.continue (I := I)))
      (fun _ => Within r₀) fun _ => Within r₀ := by
  have hcopy : Triple (WithinCovering (H := H) r₀ offset len)
      (onMachine (Eval.copyLarge offset dataOffset len data)) (fun _ => Within r₀)
      fun _ => Within r₀ :=
    triple_mono
      (triple_onMachine (P := fun m => m.memory.Covers offset.toNat len.toNat)
        (Q := fun _ _ => True) fun m₀ =>
          triple_mono (Eval.triple_copyLarge offset dataOffset len data) (fun _ hm => hm)
            (fun _ _ hm => ⟨hm, trivial⟩) fun _ _ hm => hm)
      (fun _ ht => ht) (fun _ _ ht => ht.1) fun _ _ ht => ht
  exact triple_bind hcopy fun _ => preserves_pure

/-- `EXTCODECOPY` keeps the runtime: the copied range is resized before. -/
theorem preserves_extcodecopy : Preserves (Within r₀) (extcodecopy h) :=
  preserves_popMachine.bind fun _ => preserves_popMachine.bind fun memoryOffset =>
    preserves_popMachine.bind fun _ => preserves_popMachine.bind fun len =>
      triple_bind (triple_resizeMachine memoryOffset len) fun _ =>
        triple_bind (triple_read fun _ ht => ht) fun _ => triple_copyMachine _ _ _ _

/-- `RETURNDATACOPY` keeps the runtime: the copied range is resized before. -/
theorem preserves_returndatacopy : Preserves (Within r₀) (returndatacopy (H := H) (I := I)) :=
  preserves_popMachine.bind fun memoryOffset => preserves_popMachine.bind fun _ =>
    preserves_popMachine.bind fun len =>
      triple_bind (triple_resizeMachine memoryOffset len) fun _ =>
        triple_bind (triple_read fun _ ht => ht) fun _ =>
          triple_ite (fun _ => triple_exit fun _ ht => ht.1) fun _ => triple_copyMachine _ _ _ _

/-- `BLOCKHASH` keeps the runtime. -/
theorem preserves_blockhash : Preserves (Within r₀) (blockhash h) :=
  preserves_popMachine.bind fun _ => (preserves_pushMachine _).bind fun _ => preserves_pure

/-- `SLOAD` keeps the runtime. -/
theorem preserves_sload : Preserves (Within r₀) (sload h) :=
  preserves_popMachine.bind fun _ => preserves_read.bind fun _ =>
    (preserves_onHandler _).bind fun _ => (preserves_pushMachine _).bind fun _ => preserves_pure

/-- `SSTORE` keeps the runtime. -/
theorem preserves_sstore : Preserves (Within r₀) (sstore h) :=
  preserves_popMachine.bind fun _ => preserves_popMachine.bind fun _ => preserves_read.bind fun _ =>
    (preserves_onHandler _).bind fun _ => preserves_pure

/-- `LOGn` keeps the runtime. -/
theorem preserves_log (n : Nat) : Preserves (Within r₀) (log h n) :=
  (preserves_onMachine fun _ => Eval.preserves_pop.bind fun _ => Eval.preserves_pop.bind fun _ =>
    (Eval.preserves_resizeOffset _ _).bind fun _ => (preserves_bytesAt _ _).bind fun _ =>
      (preserves_popTopics n).bind fun _ => preserves_pure).bind fun _ =>
    preserves_read.bind fun _ => (preserves_onHandler _).bind fun _ => preserves_pure

theorem preserves_suicide : Preserves (Within r₀) (suicide h) :=
  preserves_popMachine.bind fun _ => preserves_read.bind fun _ =>
    (preserves_onHandler _).bind fun _ => preserves_exit

end Instructions

end RuntimeEval

/-! ## The results of calls and creations -/

namespace Runtime

variable {r₀ : Runtime}

/-- A push of a result keeps the runtime. -/
theorem preserves_pushRuntime (v : H256) : Preserves r₀.Follows (onMachine (Eval.push v)) := by
  refine triple_zoom fun r hr => ?_
  have hpost := (Eval.preserves_push v : Preserves r.machine.Follows _) r.machine hr.machine.self
  cases hx : Eval.push v r.machine with
  | mk e machine =>
    rw [hx] at hpost
    cases e <;> exact hr.withMachine hpost

/-- The return data are no part of what the runtime has to keep. -/
theorem preserves_setReturnData (returnData : Bytes) :
    Preserves r₀.Follows (update fun r => { r with returnDataBuffer := returnData } :
      EarlyExit ExitReason Runtime Unit) :=
  preserves_update fun _ hr => ⟨hr.machine, hr.awaits, hr.context, hr.status⟩

/-- `finish_create` keeps the runtime of the caller. -/
theorem preserves_finishCreate (reason : ExitReason) (address : Option H160) (returnData : Bytes) :
    Preserves r₀.Follows (finishCreate reason address returnData) := by
  refine (preserves_setReturnData returnData).bind fun _ => ?_
  cases reason with
  | succeed | revert | error => exact preserves_pushRuntime _
  | fatal e => exact (preserves_pushRuntime _).bind fun _ => preserves_exit

/-- The memory covers the range that `finish_call` can write. -/
theorem preserves_tryCopyLarge (offset len : U256) (data : Bytes) :
    Triple (fun r => r₀.Follows r ∧ r.machine.memory.Covers offset.toNat len.toNat)
      (tryCopyLarge offset len data)
      (fun _ r => r₀.Follows r ∧ r.machine.memory.Covers offset.toNat len.toNat)
      fun _ => r₀.Follows := by
  intro r hr
  have hlen := Memory.effectiveLen_copyLarge (m := r.machine.memory) offset 0#256 len data
  have hwf : (r.machine.memory.copyLarge offset 0#256 len data).2.Wf :=
    hr.1.machine.memory.copyLarge hr.2
  have hfollows := hr.1.machine.self.withMemory hwf hlen.2 (by rw [hlen.1])
  rw [tryCopyLarge]
  cases hx : r.machine.memory.copyLarge offset 0#256 len data with
  | mk e memory =>
    rw [hx] at hfollows
    cases e <;> exact ⟨hr.1.withMachine hfollows, hfollows.covers hr.2⟩

/-- A shorter range is covered too. -/
theorem covers_mono {m : Memory} {offset len len' : Nat} (h : m.Covers offset len)
    (hle : len' ≤ len) : m.Covers offset len' := by
  rcases h with h | h
  · exact .inl (by omega)
  · exact .inr (by omega)

/-- `finish_call` keeps the runtime of the caller, whose memory covers the range of the result. -/
theorem preserves_finishCall (outLen outOffset : U256) (reason : ExitReason) (returnData : Bytes) :
    Triple (fun r => r₀.Follows r ∧ r.machine.memory.Covers outOffset.toNat outLen.toNat)
      (finishCall outLen outOffset reason returnData)
      (fun _ => r₀.Follows) fun _ => r₀.Follows := by
  generalize htarget : (if outLen.toNat ≤ returnData.length then outLen
    else BitVec.ofNat 256 returnData.length) = targetLen
  have hle : targetLen.toNat ≤ outLen.toNat := by
    rw [← htarget]
    split
    · exact le_rfl
    · have := outLen.isLt
      rw [BitVec.toNat_ofNat, Nat.mod_eq_of_lt (by omega)]
      omega
  have hset : Triple (fun r => r₀.Follows r ∧ r.machine.memory.Covers outOffset.toNat outLen.toNat)
      (update fun r => { r with returnDataBuffer := returnData } : EarlyExit ExitReason Runtime
        Unit)
      (fun _ r => r₀.Follows r ∧ r.machine.memory.Covers outOffset.toNat targetLen.toNat)
      fun _ => r₀.Follows :=
    triple_update fun r hr =>
      ⟨⟨hr.1.machine, hr.1.awaits, hr.1.context, hr.1.status⟩, covers_mono hr.2 hle⟩
  rw [finishCall, htarget]
  refine triple_bind hset fun _ => ?_
  have hpush : ∀ v, Triple
      (fun r => r₀.Follows r ∧ r.machine.memory.Covers outOffset.toNat targetLen.toNat)
      (onMachine (Eval.push v)) (fun _ => r₀.Follows) fun _ => r₀.Follows := fun v =>
    triple_mono (preserves_pushRuntime v) (fun _ hr => hr.1) (fun _ _ hr => hr) fun _ _ hr => hr
  cases reason with
  | succeed s =>
    exact triple_bind (preserves_tryCopyLarge outOffset targetLen returnData) fun _ => hpush _
  | revert e =>
    -- The push is first here, and it leaves the memory as it is.
    have hpushCovers : Triple
        (fun r => r₀.Follows r ∧ r.machine.memory.Covers outOffset.toNat targetLen.toNat)
        (onMachine (Eval.push 0#256))
        (fun _ r => r₀.Follows r ∧ r.machine.memory.Covers outOffset.toNat targetLen.toNat)
        fun _ => r₀.Follows := by
      refine triple_zoom fun r hr => ?_
      have hpost := (Eval.preserves_push 0#256 : Preserves r.machine.Follows _) r.machine
        hr.1.machine.self
      cases hx : Eval.push 0#256 r.machine with
      | mk e machine =>
        rw [hx] at hpost
        cases e with
        | ok u => exact ⟨hr.1.withMachine hpost, hpost.covers hr.2⟩
        | error e => exact hr.1.withMachine hpost
    exact triple_bind hpushCovers fun _ =>
      triple_bind (preserves_tryCopyLarge outOffset targetLen returnData) fun _ =>
        triple_pure fun _ hr => hr.1
  | error e => exact hpush _
  | fatal e => exact triple_bind (hpush _) fun _ => preserves_exit

end Runtime

/-! ## Calls and creations -/

namespace RuntimeEval

variable {H I : Type} {r₀ : Runtime} (keccak256 : Bytes → H256) (h : Handler H I)

/-- A program that only asks the handler. -/
theorem triple_ask {α : Type} {P : Runtime → Prop} (f : H → α × H) :
    Triple (fun t : Runtime × H => P t.1)
      (fun t => (.ok (f t.2).1, (t.1, (f t.2).2)) : RuntimeEval H α) (fun _ t => P t.1)
      fun _ t => P t.1 :=
  fun _ ht => ht

/-- Clearing the return data keeps the runtime. -/
theorem preserves_clearReturnData :
    Preserves (Within r₀)
      (update fun t => ({ t.1 with returnDataBuffer := [] }, t.2) : RuntimeEval H Unit) :=
  preserves_update fun _ ht => ⟨ht.machine, ht.awaits, ht.context, ht.status⟩

/-- A program of the runtime alone. -/
theorem triple_onRuntime {α : Type} {x : EarlyExit ExitReason Runtime α} {P Q : Runtime → Prop}
    (hx : Triple P x (fun _ => Q) fun _ => Q) :
    Triple (fun t : Runtime × H => P t.1) (onRuntime x) (fun _ t => Q t.1) fun _ t => Q t.1 :=
  triple_zoom fun t ht => by
    have hpost := hx t.1 ht
    cases hr : x t.1 with
    | mk e r =>
      rw [hr] at hpost
      cases e <;> exact hpost

/-- The arguments of a creation are read from the stack and the memory. -/
theorem preserves_createRequest {m₀ : Machine} (isCreate2 : Bool) :
    Preserves m₀.Follows (createRequest isCreate2) :=
  Eval.preserves_pop.bind fun _ => Eval.preserves_pop.bind fun _ => Eval.preserves_pop.bind fun _ =>
    (Eval.preserves_resizeOffset _ _).bind fun _ => (preserves_bytesAt _ _).bind fun _ =>
      (Eval.preserves_pop.bind fun _ => preserves_pure).ite preserves_pure

/-- `CREATE` and `CREATE2` keep the runtime. -/
theorem preserves_create (isCreate2 : Bool) :
    Preserves (Within r₀) (create keccak256 h isCreate2) := by
  refine preserves_clearReturnData.bind fun _ =>
    (preserves_onMachine fun _ => preserves_createRequest isCreate2).bind fun request => ?_
  obtain ⟨value, code, salt⟩ := request
  refine preserves_read.bind fun address => Preserves.bind (triple_ask (P := r₀.Follows) _)
    fun capture => ?_
  cases capture with
  | exit result =>
    exact Preserves.bind (triple_onRuntime (Runtime.preserves_finishCreate _ _ _)) fun _ =>
      preserves_pure
  | trap interrupt => exact preserves_pure

/-- `as_usize_or_fail` keeps a covered range. -/
theorem keepsCovering_asUsizeOrFail {m₀ : Machine} {offset len : Nat} (v : U256)
    (reason : ExitReason) :
    Triple (Eval.FollowsCovering m₀ offset len) (Eval.asUsizeOrFail v reason)
      (fun _ => Eval.FollowsCovering m₀ offset len) fun _ => m₀.Follows :=
  triple_ite (fun _ => triple_exit fun _ hm => hm.1) fun _ => triple_pure fun _ hm => hm

/-- The memory covers the range of the result when the request is read. -/
theorem triple_callRequest {m₀ : Machine} (scheme : CallScheme) :
    Triple m₀.Follows (callRequest scheme)
      (fun q => Eval.FollowsCovering m₀ q.outOffset.toNat q.outLen.toNat) fun _ => m₀.Follows := by
  have hvalue : Preserves m₀.Follows (callValue scheme) := by
    cases scheme with
    | call | callCode => exact Eval.preserves_pop
    | delegateCall | staticCall => exact preserves_pure
  refine triple_bind Eval.preserves_pop fun gas => triple_bind Eval.preserves_pop fun target =>
    triple_bind hvalue fun value => triple_bind Eval.preserves_pop fun inOffset =>
    triple_bind Eval.preserves_pop fun inLen => triple_bind Eval.preserves_pop fun outOffset =>
    triple_bind Eval.preserves_pop fun outLen =>
    triple_bind (Eval.preserves_resizeOffset inOffset inLen) fun _ =>
    triple_bind (Eval.triple_resizeOffset outOffset outLen) fun _ => ?_
  -- What follows only reads the memory.
  have hbytes : Triple (Eval.FollowsCovering m₀ outOffset.toNat outLen.toNat)
      (bytesAt inOffset inLen)
      (fun _ => Eval.FollowsCovering m₀ outOffset.toNat outLen.toNat) fun _ => m₀.Follows :=
    triple_ite (fun _ => triple_pure fun _ hm => hm) fun _ =>
      triple_bind (keepsCovering_asUsizeOrFail _ _) fun _ =>
        triple_bind (keepsCovering_asUsizeOrFail _ _) fun _ =>
        triple_read fun _ hm => hm
  exact triple_bind hbytes fun _ => triple_pure fun _ hm => hm

/-- The call instructions keep the runtime; a call that traps waits for a range that is covered. -/
theorem preserves_call (scheme : CallScheme) : Preserves (Within r₀) (call h scheme) := by
  have hrequest : Triple (Within (H := H) r₀) (onMachine (callRequest scheme))
      (fun q => WithinCovering r₀ q.outOffset q.outLen) fun _ => Within r₀ :=
    triple_mono
      (triple_onMachine (P := fun _ => True)
        (Q := fun (q : CallRequest) m => m.memory.Covers q.outOffset.toNat q.outLen.toNat) fun m₀ =>
          triple_mono (triple_callRequest scheme) (fun _ hm => hm.1) (fun _ _ hm => hm)
            fun _ _ hm => hm)
      (fun _ ht => ⟨ht, trivial⟩) (fun _ _ ht => ht) fun _ _ ht => ht
  refine preserves_clearReturnData.bind fun _ => triple_bind hrequest fun request =>
    triple_bind (triple_read fun _ ht => ht) fun context =>
    triple_bind (triple_mono
      (triple_ask (P := fun r => r₀.Follows r ∧
        r.machine.memory.Covers request.outOffset.toNat request.outLen.toNat) _)
      (fun _ ht => ht) (fun _ _ ht => ht) fun _ _ ht => ht.1) fun capture => ?_
  cases capture with
  | exit result =>
    exact triple_bind (triple_onRuntime (Runtime.preserves_finishCall _ _ _ _)) fun _ =>
      preserves_pure
  | trap interrupt =>
    refine triple_bind (Q := fun _ => Within r₀) (triple_update ?_) fun _ => preserves_pure
    exact fun t ht => ⟨ht.1.machine, ht.2, ht.1.context, ht.1.status⟩

/-- Every instruction of the runtime keeps it well formed, whatever the handler does. -/
theorem preserves_table (opcode : Opcode) : Preserves (Within r₀) (table keccak256 h opcode) := by
  rw [table]
  cases decode opcode with
  | sha3 => exact preserves_sha3 keccak256
  | query q => exact preserves_query h q
  | balance | extcodesize | extcodehash => exact preserves_accountQuery _
  | extcodecopy => exact preserves_extcodecopy h
  | returndatacopy => exact preserves_returndatacopy
  | blockhash => exact preserves_blockhash h
  | sload => exact preserves_sload h
  | sstore => exact preserves_sstore h
  | log n => exact preserves_log h n
  | suicide => exact preserves_suicide h
  | create isCreate2 => exact preserves_create keccak256 h isCreate2
  | call scheme => exact preserves_call h scheme
  | _ => exact preserves_exit

end RuntimeEval

/-! ## Steps of a runtime -/

namespace Runtime

variable {H I : Type} {L M : Nat} (keccak256 : Bytes → H256) (h : Handler H I)

/-- The machine is well formed, and its memory covers where the result of the last call goes. -/
structure Wf (stackLimit memoryLimit : Nat) (r : Runtime) : Prop where
  machine : r.machine.Wf stackLimit memoryLimit
  awaits : r.Awaits

/-- A new runtime keeps its invariant. -/
theorem wf_new (code data : Bytes) (context : Context) (stackLimit memoryLimit : Nat) :
    (Runtime.new code data context stackLimit memoryLimit).Wf stackLimit memoryLimit :=
  ⟨Machine.wf_machineNew .., .inl rfl⟩

theorem Wf.follows {r : Runtime} (hr : r.Wf L M) : r.Follows r :=
  ⟨hr.machine.follows, hr.awaits, rfl, rfl⟩

/-- An instruction goes from a well formed runtime to one, when it exits too. -/
theorem Wf.of_follows {r r' : Runtime} (hr : r.Wf L M) (hf : r.Follows r') : r'.Wf L M where
  machine := by
    have hboundary : ∀ p, r'.machine.position = .ok p → Boundary r.machine.code 0 p := fun p hp =>
      hr.machine.boundary p (hf.machine.position.symm.trans hp)
    exact hr.machine.of_follows hf.machine hboundary
  awaits := hf.awaits

/-- An exit keeps the invariant of the runtime. -/
theorem Wf.withExit {r : Runtime} (hr : r.Wf L M) (reason : ExitReason)
    (status : Except ExitReason Unit) :
    Wf L M { r with machine := r.machine.exit reason, status } where
  machine := hr.machine.of_follows hr.machine.follows fun p hp => by cases hp
  awaits := hr.awaits

/-- The machine of a step follows, up to its position. -/
theorem Wf.withStep {r : Runtime} (hr : r.Wf L M) :
    Wf L M { r with machine := r.machine.step.2 } where
  machine := hr.machine.step
  awaits := by
    have hle : r.machine.memory.effectiveLen.toNat ≤
        r.machine.step.2.memory.effectiveLen.toNat := by
      rw [Machine.step]
      cases r.machine.position with
      | error reason => exact le_rfl
      | ok position =>
        dsimp only
        cases r.machine.code[position]? with
        | none => exact le_rfl
        | some opcode =>
          have hfollows := (Machine.eval_spec hr.machine opcode position).1.effectiveLen_le
          dsimp only
          cases hx : r.machine.eval opcode position with
          | mk control m =>
            rw [hx] at hfollows
            cases control <;> exact hfollows
    exact hr.awaits.imp_right fun hc => hc.trans hle

/-- A step keeps the runtime well formed, and running unless it exits. -/
theorem Wf.step {r r' : Runtime} {s s' : H} {res : Except (Capture ExitReason I) Unit}
    (hr : r.Wf L M) (hstatus : r.status = .ok ()) (heq : r.step keccak256 h s = (res, r', s')) :
    r'.Wf L M ∧ (r'.status = .ok () ∨ ∃ reason, res = .error (.exit reason)) := by
  have hpre : (r.preStep h s).1.Wf L M ∧
      ((r.preStep h s).1.status = .ok () ∨ ∃ e, (r.preStep h s).1.status = .error e) := by
    rw [preStep]
    split
    · exact ⟨hr, .inl hstatus⟩
    · split
      · exact ⟨hr, .inl hstatus⟩
      · exact ⟨hr.withExit _ _, .inr ⟨_, rfl⟩⟩
  rw [Runtime.step] at heq
  cases hp : r.preStep h s with
  | mk r₁ s₁ =>
    rw [hp] at heq hpre
    obtain ⟨hr₁, hs₁⟩ := hpre
    dsimp only at heq hr₁ hs₁
    rcases hs₁ with hs₁ | ⟨e, hs₁⟩
    · rw [hs₁] at heq
      dsimp only at heq
      have hwf := hr₁.withStep
      cases hm : r₁.machine.step with
      | mk c machine =>
        rw [hm] at heq hwf
        cases c with
        | ok u =>
          cases heq
          exact ⟨⟨hwf.machine, hwf.awaits⟩, .inl rfl⟩
        | error c =>
          cases c with
          | exit reason =>
            cases heq
            exact ⟨⟨hwf.machine, hwf.awaits⟩, .inr ⟨reason, rfl⟩⟩
          | trap opcode =>
            dsimp only at heq
            have hwf : Wf L M { r₁ with machine, status := .ok () } := ⟨hwf.machine, hwf.awaits⟩
            have hkeeps := preserves_iff.1 (RuntimeEval.preserves_table keccak256 h opcode)
              ({ r₁ with machine, status := .ok () }, s₁) hwf.follows
            cases ht : RuntimeEval.table keccak256 h opcode
                ({ r₁ with machine, status := .ok () }, s₁) with
            | mk c t =>
              obtain ⟨r₂, s₂⟩ := t
              rw [ht] at heq hkeeps
              have hr₂ := hwf.of_follows hkeeps
              have hs₂ : r₂.status = .ok () := hkeeps.status
              cases c with
              | error reason =>
                cases heq
                exact ⟨hr₂.withExit _ _, .inr ⟨reason, rfl⟩⟩
              | ok c =>
                cases c with
                | «continue» | interrupt i =>
                  cases heq
                  exact ⟨hr₂, .inl hs₂⟩
    · rw [hs₁] at heq
      cases heq
      exact ⟨hr₁, .inr ⟨e, rfl⟩⟩

end Runtime

end Chase.Vm
