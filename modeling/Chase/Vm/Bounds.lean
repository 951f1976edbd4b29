import Chase.Vm.Boundary

/-!
# What an instruction of the machine keeps

`Follows m₀ m` is what holds of the machine while it evaluates an instruction that began in `m₀`:
the program is the same, the stack and the memory are well formed, and the effective length has not
gone down. `Advances` adds where the instruction goes on: after its own bytes, or at a valid jump
destination. From that, `Machine.step` keeps `Machine.Wf`: the position is an instruction boundary,
the stack is within its limit, and the memory is well formed.
-/

namespace Chase.Vm

open EarlyExit

/-- What holds of the machine `m` in an instruction that began in `m₀`. -/
structure Machine.Follows (m₀ m : Machine) : Prop where
  code : m.code = m₀.code
  data : m.data = m₀.data
  valids : m.valids = m₀.valids
  position : m.position = m₀.position
  stackLimit : m.stack.limit = m₀.stack.limit
  memoryLimit : m.memory.limit = m₀.memory.limit
  stack : m.stack.Wf
  memory : m.memory.Wf
  effectiveLen_le : m₀.memory.effectiveLen.toNat ≤ m.memory.effectiveLen.toNat

namespace Machine.Follows

variable {m₀ m : Machine}

theorem withStack {stack : Stack} (h : Follows m₀ m) (hwf : stack.Wf)
    (hlimit : stack.limit = m₀.stack.limit) : Follows m₀ { m with stack } :=
  { h with stackLimit := hlimit, stack := hwf }

/-- A machine with a memory that has grown still follows. -/
theorem withMemory {memory : Memory} (h : Follows m₀ m) (hwf : memory.Wf)
    (hlimit : memory.limit = m.memory.limit)
    (hle : m.memory.effectiveLen.toNat ≤ memory.effectiveLen.toNat) :
    Follows m₀ { m with memory } :=
  { h with
    memoryLimit := hlimit.trans h.memoryLimit, memory := hwf,
    effectiveLen_le := h.effectiveLen_le.trans hle }

end Machine.Follows

/-! ## Operations -/

namespace Eval

variable {m₀ : Machine}

/-- A program on the stack that keeps its limit and stays within it. -/
theorem preserves_onStack {α : Type} {x : EarlyExit ExitError Stack α}
    (hwf : ∀ s : Stack, s.Wf → (x s).2.Wf) (hlimit : ∀ s, (x s).2.limit = s.limit) :
    Preserves m₀.Follows
      (zoom Machine.stack (fun m stack => { m with stack }) ExitReason.error x) := by
  have hx : Preserves (fun s : Stack => s.Wf ∧ s.limit = m₀.stack.limit) x :=
    preserves_iff.2 fun s hs => ⟨hwf s hs.1, (hlimit s).trans hs.2⟩
  exact hx.zoom (fun m hm => ⟨hm.stack, hm.stackLimit⟩) fun m s hm hs => hm.withStack hs.1 hs.2

theorem preserves_pop : Preserves m₀.Follows pop :=
  preserves_onStack (fun _ h => h.pop) fun _ => Stack.limit_pop

theorem preserves_push (v : H256) : Preserves m₀.Follows (push v) :=
  preserves_onStack (fun _ h => h.push) fun _ => Stack.limit_push

/-- A peek does not touch the machine. -/
theorem preserves_peek (n : Nat) : Preserves m₀.Follows (peek n) :=
  preserves_onStack (fun _ h => h) fun _ => rfl

theorem preserves_setStack (n : Nat) (v : H256) : Preserves m₀.Follows (setStack n v) :=
  preserves_onStack (fun _ h => h.set) fun _ => Stack.limit_set

/-- What holds of the machine once the memory covers a range. -/
def FollowsCovering (m₀ : Machine) (offset len : Nat) (m : Machine) : Prop :=
  m₀.Follows m ∧ m.memory.Covers offset len

/-- After a `resize_offset` that succeeds, the effective length covers the range. -/
theorem triple_resizeOffset (offset len : U256) :
    Triple m₀.Follows (resizeOffset offset len)
      (fun _ => FollowsCovering m₀ offset.toNat len.toNat) fun _ => m₀.Follows := by
  refine triple_zoom fun m hm => ?_
  rcases Memory.resizeOffset_cases hm.memory.dvd offset len with
    ⟨heq, -⟩ | ⟨effectiveLen, heq, hlen⟩
  · rw [heq]
    exact hm
  · rw [heq]
    refine ⟨hm.withMemory (hm.memory.withEffectiveLen hlen) rfl ?_, ?_⟩
    · exact hlen ▸ le_max_left _ _
    · exact Memory.covers_of_rangeEnd_le (hlen ▸ le_max_right _ _)

/-- `resize_offset` keeps the machine a follower, whether the range fits or not. -/
theorem preserves_resizeOffset (offset len : U256) :
    Preserves m₀.Follows (resizeOffset offset len) :=
  triple_mono (triple_resizeOffset offset len) (fun _ h => h) (fun _ _ h => h.1) fun _ _ h => h

/-- A write into a range that the effective length covers keeps the machine a follower. -/
theorem triple_setMemory (offset : Nat) (value : Bytes) (targetSize : Nat) :
    Triple (FollowsCovering m₀ offset targetSize) (setMemory offset value targetSize)
      (fun _ => m₀.Follows) fun _ => m₀.Follows := by
  refine triple_zoom fun m hm => ?_
  have hlen := Memory.effectiveLen_set (m := m.memory) offset value targetSize
  have hwf : (m.memory.set offset value (some targetSize)).2.Wf := hm.1.memory.set hm.2
  have hfollows := hm.1.withMemory hwf hlen.2 (by rw [hlen.1])
  cases hr : m.memory.set offset value (some targetSize) with
  | mk r memory =>
    rw [hr] at hfollows
    cases r <;> exact hfollows

/-- A copy into a range that the effective length covers keeps the machine a follower. -/
theorem triple_copyLarge (memoryOffset dataOffset len : U256) (data : Bytes) :
    Triple (FollowsCovering m₀ memoryOffset.toNat len.toNat)
      (copyLarge memoryOffset dataOffset len data) (fun _ => m₀.Follows) fun _ => m₀.Follows := by
  refine triple_zoom fun m hm => ?_
  have hlen := Memory.effectiveLen_copyLarge (m := m.memory) memoryOffset dataOffset len data
  have hwf : (m.memory.copyLarge memoryOffset dataOffset len data).2.Wf :=
    hm.1.memory.copyLarge hm.2
  have hfollows := hm.1.withMemory hwf hlen.2 (by rw [hlen.1])
  cases hr : m.memory.copyLarge memoryOffset dataOffset len data with
  | mk r memory =>
    rw [hr] at hfollows
    cases r <;> exact hfollows

/-- A word that `as_usize_or_fail` accepts is the number it stands for. -/
theorem triple_asUsizeOrFail {P : Machine → Prop} {E : ExitReason → Machine → Prop} (v : U256)
    (reason : ExitReason) (hE : ∀ m, P m → E reason m) :
    Triple P (asUsizeOrFail v reason) (fun n m => P m ∧ n = v.toNat) E :=
  triple_ite (fun _ => triple_exit hE) fun _ => triple_pure fun _ hm => ⟨hm, rfl⟩

/-! ## Where an instruction goes on -/

end Eval

/-- Where an instruction with so many immediate bytes goes on. -/
def Control.Lands (valids : Valids) (immediate : Nat) : Control → Prop
  | .continue n => n = 1 + immediate
  | .jump p => valids.isValid p = true
  | .trap _ => immediate = 0
  | .exit _ => True

namespace Eval

variable {m₀ : Machine}

/-- The instruction keeps the machine well formed and goes on where it may. -/
def Advances (m₀ : Machine) (immediate : Nat) (x : Eval Control) : Prop :=
  Triple m₀.Follows x (fun c m => m₀.Follows m ∧ c.Lands m₀.valids immediate) fun _ => m₀.Follows

theorem advances_pure {c : Control} {n : Nat} (h : c.Lands m₀.valids n) : Advances m₀ n (pure c) :=
  triple_pure fun _ hm => ⟨hm, h⟩

theorem advances_continue : Advances m₀ 0 (pure (.continue 1)) := advances_pure rfl

/-- A step that keeps the machine a follower can precede an instruction that advances. -/
theorem advances_bind {α : Type} {x : Eval α} {f : α → Eval Control} {n : Nat}
    (hx : Preserves m₀.Follows x) (hf : ∀ a, Advances m₀ n (f a)) : Advances m₀ n (x >>= f) :=
  triple_bind hx hf

theorem advances_op1 (f : Op1) : Advances m₀ 0 (op1 f) :=
  advances_bind preserves_pop fun _ => advances_bind (preserves_push _) fun _ => advances_continue

theorem advances_op2 (f : Op2) : Advances m₀ 0 (op2 f) :=
  advances_bind preserves_pop fun _ => advances_bind preserves_pop fun _ =>
    advances_bind (preserves_push _) fun _ => advances_continue

/-- The instructions with three operands advance by one position. -/
theorem advances_op3 (f : Op3) : Advances m₀ 0 (op3 f) :=
  advances_bind preserves_pop fun _ => advances_bind preserves_pop fun _ =>
    advances_bind preserves_pop fun _ =>
    advances_bind (preserves_push _) fun _ => advances_continue

/-- The instructions that push a word they read. -/
theorem advances_readPush {α : Type} (f : Machine → α) (word : α → H256) :
    Advances m₀ 0 (do let a ← read f; push (word a); pure (.continue 1)) :=
  advances_bind preserves_read fun _ => advances_bind (preserves_push _) fun _ => advances_continue

theorem advances_calldataload : Advances m₀ 0 calldataload :=
  advances_bind preserves_pop fun _ => advances_readPush _ _

/-- The memory is written where it was resized. -/
theorem advances_copy (memoryOffset dataOffset len : U256) (f : Machine → Bytes) :
    Triple (FollowsCovering m₀ memoryOffset.toNat len.toNat)
      (do
        let data ← read f
        copyLarge memoryOffset dataOffset len data
        pure (Control.continue 1))
      (fun c m => m₀.Follows m ∧ c.Lands m₀.valids 0) fun _ => m₀.Follows :=
  triple_bind (triple_read fun _ hm => hm) fun data =>
    triple_bind (triple_copyLarge memoryOffset dataOffset len data) fun _ => advances_continue

/-- `CODECOPY` advances by one position: the copied range is resized before. -/
theorem advances_codecopy : Advances m₀ 0 codecopy :=
  advances_bind preserves_pop fun memoryOffset => advances_bind preserves_pop fun _ =>
    advances_bind preserves_pop fun len =>
      triple_bind (triple_resizeOffset memoryOffset len) fun _ => advances_copy _ _ _ _

/-- `CALLDATACOPY` advances by one position: the copied range is resized before. -/
theorem advances_calldatacopy : Advances m₀ 0 calldatacopy :=
  advances_bind preserves_pop fun memoryOffset => advances_bind preserves_pop fun _ =>
    advances_bind preserves_pop fun len =>
      triple_bind (triple_resizeOffset memoryOffset len) fun _ =>
        triple_ite (fun _ => triple_pure fun _ hm => ⟨hm.1, rfl⟩) fun _ => advances_copy _ _ _ _

/-- `POP` advances by one position. -/
theorem advances_popWord : Advances m₀ 0 popWord :=
  advances_bind preserves_pop fun _ => advances_continue

/-- `as_usize_or_fail` does not touch the machine. -/
theorem preserves_asUsizeOrFail (v : U256) (reason : ExitReason) :
    Preserves m₀.Follows (asUsizeOrFail v reason) :=
  triple_mono (triple_asUsizeOrFail v reason fun _ hm => hm) (fun _ h => h) (fun _ _ h => h.1)
    fun _ _ h => h

/-- `MLOAD` advances by one position: the word it reads is resized before. -/
theorem advances_mload : Advances m₀ 0 mload :=
  advances_bind preserves_pop fun _ => advances_bind (preserves_resizeOffset _ _) fun _ =>
    advances_bind (preserves_asUsizeOrFail _ _) fun _ => advances_readPush _ _

/-- A write of so many bytes at the position that a word gives. -/
theorem advances_store (index len : U256) (value : Bytes) (targetSize : Nat)
    (hlen : len.toNat = targetSize) :
    Advances m₀ 0 (do
      resizeOffset index len
      let index ← asUsizeOrFail index
      setMemory index value targetSize
      pure (.continue 1)) := by
  subst hlen
  refine triple_bind (triple_resizeOffset index len) fun _ =>
    triple_bind (triple_asUsizeOrFail index _ fun _ hm => hm.1) fun n => ?_
  refine triple_bind (Q := fun _ => m₀.Follows) ?_ fun _ => advances_continue
  rintro m ⟨hm, rfl⟩
  exact triple_setMemory index.toNat value len.toNat m hm

theorem advances_mstore : Advances m₀ 0 mstore :=
  advances_bind preserves_pop fun _ => advances_bind preserves_pop fun _ =>
    advances_store _ _ _ _ rfl

theorem advances_mstore8 : Advances m₀ 0 mstore8 :=
  advances_bind preserves_pop fun _ => advances_bind preserves_pop fun _ =>
    advances_store _ _ _ _ rfl

/-- A jump lands on a valid destination or exits. -/
theorem advances_jumpTo (dest : U256) : Advances m₀ 0 (jumpTo dest) := by
  refine advances_bind (preserves_asUsizeOrFail _ _) fun n =>
    triple_bind (Q := fun valids m => m₀.Follows m ∧ valids = m₀.valids)
      (triple_read fun m hm => ⟨hm, hm.valids⟩) fun valids => ?_
  refine triple_ite (fun hvalid => triple_pure ?_) fun _ => triple_pure ?_
  · rintro m ⟨hm, rfl⟩
    exact ⟨hm, hvalid⟩
  · exact fun m hm => ⟨hm.1, trivial⟩

theorem advances_jump : Advances m₀ 0 jump := advances_bind preserves_pop advances_jumpTo

/-- `JUMPI` advances to a valid destination or by one position. -/
theorem advances_jumpi : Advances m₀ 0 jumpi :=
  advances_bind preserves_pop fun dest => advances_bind preserves_pop fun _ =>
    triple_ite (fun _ => advances_jumpTo dest) fun _ => advances_continue

/-- `PC` advances by one position. -/
theorem advances_pc (position : Nat) : Advances m₀ 0 (pc position) :=
  advances_bind (preserves_push _) fun _ => advances_continue

theorem advances_pushCode (n position : Nat) : Advances m₀ n (pushCode n position) :=
  advances_bind preserves_read fun _ => advances_bind (preserves_push _) fun _ => advances_pure rfl

/-- `DUPn` advances by one position. -/
theorem advances_dup (n : Nat) : Advances m₀ 0 (dup n) :=
  advances_bind (preserves_peek _) fun _ => advances_bind (preserves_push _) fun _ =>
    advances_continue

/-- An `insert` keeps the bytes within the capacity and one entry. -/
theorem advances_swap (n : Nat) : Advances m₀ 0 (swap n) :=
  advances_bind (preserves_peek _) fun _ => advances_bind (preserves_peek _) fun _ =>
    advances_bind (preserves_setStack _ _) fun _ => advances_bind (preserves_setStack _ _) fun _ =>
      advances_continue

/-- `RETURN` and `REVERT` exit, with the range of the result resized before. -/
theorem advances_retWith (reason : ExitReason) : Advances m₀ 0 (retWith reason) :=
  advances_bind preserves_pop fun _ => advances_bind preserves_pop fun _ =>
    advances_bind (preserves_resizeOffset _ _) fun _ =>
      advances_bind (preserves_update fun _ hm => { hm with }) fun _ => advances_pure trivial

/-- Every instruction of the table keeps the machine well formed and goes on where it may. -/
theorem advances_table (opcode : Opcode) (position : Nat) :
    Advances m₀ (decode opcode).immediate (table opcode position) := by
  rw [table]
  cases decode opcode with
  | stop | invalid => exact advances_pure trivial
  | op1 f => exact advances_op1 f
  | op2 f => exact advances_op2 f
  | op3 f => exact advances_op3 f
  | codesize | calldatasize | msize => exact advances_readPush _ _
  | codecopy => exact advances_codecopy
  | calldataload => exact advances_calldataload
  | calldatacopy => exact advances_calldatacopy
  | pop => exact advances_popWord
  | mload => exact advances_mload
  | mstore => exact advances_mstore
  | mstore8 => exact advances_mstore8
  | jump => exact advances_jump
  | jumpi => exact advances_jumpi
  | pc => exact advances_pc position
  | jumpdest => exact advances_continue
  | push n => exact advances_pushCode n position
  | dup n => exact advances_dup n
  | swap n => exact advances_swap n
  | ret | revert => exact advances_retWith _
  | _ => exact advances_pure rfl

end Eval

/-! ## Steps -/

/-- The machine is at an instruction boundary, and its stack and memory are well formed, with these
limits. -/
structure Machine.Wf (stackLimit memoryLimit : Nat) (m : Machine) : Prop where
  valids : m.valids = .new m.code
  boundary : ∀ p, m.position = .ok p → Boundary m.code 0 p
  stack : m.stack.Wf
  memory : m.memory.Wf
  stackLimit : m.stack.limit = stackLimit
  memoryLimit : m.memory.limit = memoryLimit

namespace Machine

variable {m : Machine} {L M : Nat}

/-- The machine of a new runtime keeps its invariant. -/
theorem wf_machineNew (code data : Bytes) (stackLimit memoryLimit : Nat) :
    (Machine.new code data stackLimit memoryLimit).Wf stackLimit memoryLimit where
  valids := rfl
  boundary p hp := by
    cases hp
    exact .refl
  stack := Nat.zero_le _
  memory := Memory.wf_new memoryLimit
  stackLimit := rfl
  memoryLimit := rfl

theorem Wf.follows (h : m.Wf L M) : m.Follows m :=
  ⟨rfl, rfl, rfl, rfl, rfl, rfl, h.stack, h.memory, le_rfl⟩

/-- A machine that follows a well formed one is well formed at every boundary. -/
theorem Wf.of_follows {m' : Machine} {position : Except ExitReason Nat} (h : m.Wf L M)
    (hm : m.Follows m') (hposition : ∀ p, position = .ok p → Boundary m.code 0 p) :
    Wf L M { m' with position } where
  valids := by
    dsimp only
    rw [hm.valids, h.valids, hm.code]
  boundary p hp := by
    dsimp only
    rw [hm.code]
    exact hposition p hp
  stack := hm.stack
  memory := hm.memory
  stackLimit := hm.stackLimit.trans h.stackLimit
  memoryLimit := hm.memoryLimit.trans h.memoryLimit

/-- What `eval` does, without the early exits. -/
theorem eval_spec (h : m.Wf L M) (opcode : Opcode) (position : Nat) :
    m.Follows (m.eval opcode position).2 ∧
      (m.eval opcode position).1.Lands m.valids (decode opcode).immediate := by
  have hpost := (Eval.advances_table opcode position : Eval.Advances m _ _) m h.follows
  rw [eval]
  cases hr : Eval.table opcode position m with
  | mk r m' =>
    rw [hr] at hpost
    cases r with
    | ok control => exact hpost
    | error reason => exact ⟨hpost, trivial⟩

/-- A step keeps the machine well formed. -/
theorem Wf.step (h : m.Wf L M) : m.step.2.Wf L M := by
  rw [Machine.step]
  cases hp : m.position with
  | error reason => exact h
  | ok position =>
    have hb := h.boundary position hp
    dsimp only
    cases ho : m.code[position]? with
    | none => exact h.of_follows h.follows fun p hp => by cases hp
    | some opcode =>
      obtain ⟨hfollows, hlands⟩ := eval_spec h opcode position
      dsimp only
      cases hr : m.eval opcode position with
      | mk control m' =>
        rw [hr] at hfollows hlands
        cases control with
        | «continue» n =>
          refine h.of_follows hfollows fun p hp => ?_
          cases hp
          cases hlands
          exact .next hb ho
        | exit reason => exact h.of_follows hfollows fun p hp => by cases hp
        | jump p =>
          refine h.of_follows hfollows fun p' hp => ?_
          cases hp
          dsimp only [Control.Lands] at hlands
          rw [h.valids] at hlands
          exact ((Valids.isValid_new_iff p).1 hlands).1
        | trap o =>
          refine h.of_follows hfollows fun p hp => ?_
          cases hp
          have hzero : (decode opcode).immediate = 0 := hlands
          have hnext := hb.next ho
          rwa [hzero] at hnext

end Machine

end Chase.Vm
