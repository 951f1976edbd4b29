import Mathlib.Algebra.GroupWithZero.Nat
import Mathlib.Data.List.Basic
import Mathlib.Logic.Function.Basic
import Mathlib.Logic.Relation

/-!
# The pipeline of the EV-BLP bridge

`EvBlpChaseBridge::execute` passes batches through three stages: the producer orders them,
`exec_worker` executes them and `commit_worker` commits them, with a channel before each worker. A
batch enters a stage when the window of the stage is open (`PipelineController::can_push`), and when
a batch leaves a stage the window of the stage is computed anew, from the load of the next stage at
that moment (`tick`).

The controller belongs to the runtime, so a call of `execute` starts with the windows that the calls
before it have left (`PipelineController.Idle`). A batch that leaves `Exec` while a heavy batch is
in `Commit` closes the window of `Exec`, and only a batch that leaves `Exec` could open it again. So
the pipeline blocks itself, unless it starts with an open window of `Exec` and every batch with two
batches behind it is light (`pipeline_live_iff`).
-/

namespace Chase.EvBlp

open Function Relation

/-! ## The controller -/

/-- `StageId`. -/
inductive StageId where
  | order
  | exec
  | commit
  deriving DecidableEq, Repr

/-- `StageId::next`. -/
def StageId.next : StageId → Option StageId
  | .order => some .exec
  | .exec => some .commit
  | .commit => none

/-- `PipelineConfig`. -/
structure PipelineConfig where
  lambda2 : Nat
  lambda3 : Nat
  zetaMax : Nat

/-- `lambda` of `PipelineController::new`. -/
def PipelineConfig.lambda (config : PipelineConfig) : StageId → Nat
  | .order => 0
  | .exec => config.lambda2
  | .commit => config.lambda3

/-- `PipelineController`: the windows, the weights and the number of batches in the stages. -/
structure PipelineController where
  zeta : StageId → Nat := fun _ => 1
  w : StageId → Nat := fun _ => 0
  inFlight : StageId → Nat := fun _ => 0

namespace PipelineController

variable (config : PipelineConfig) (c : PipelineController) (stage : StageId)

/-- `can_push`. -/
def canPush : Bool :=
  let window := c.zeta stage
  if window = 0 then false else c.inFlight stage < window

/-- `on_batch_enter`. The weights are 64 bits wide and the numbers of batches 32 bits. -/
def onBatchEnter (gasOrBytes : Nat) : PipelineController :=
  { c with
    w := update c.w stage ((c.w stage + gasOrBytes) % 2 ^ 64)
    inFlight := update c.inFlight stage ((c.inFlight stage + 1) % 2 ^ 32) }

/-- The window that `tick` computes. The windows are 32 bits wide. -/
def newZeta (current wNext lambda : Nat) : Nat :=
  if wNext = 0 then
    let doubled := min (current * 2) (2 ^ 32 - 1)
    let capped := min doubled config.zetaMax
    if capped = 0 then 1 else capped
  else if wNext < lambda then min (min (current + 1) (2 ^ 32 - 1)) config.zetaMax
  else 0

/-- `tick`. -/
def tick : PipelineController :=
  match stage.next with
  | none => c
  | some next =>
    { c with
      zeta := update c.zeta stage
        (newZeta config (c.zeta stage) (c.w next) (config.lambda next)) }

/-- `on_batch_exit`. -/
def onBatchExit (gasOrBytes : Nat) : PipelineController :=
  tick config
    { c with
      w := update c.w stage (c.w stage - gasOrBytes)
      inFlight := update c.inFlight stage (c.inFlight stage - 1) } stage

@[simp] theorem inFlight_onBatchEnter (g : Nat) :
    (c.onBatchEnter stage g).inFlight =
      update c.inFlight stage ((c.inFlight stage + 1) % 2 ^ 32) := rfl

@[simp] theorem w_onBatchEnter (g : Nat) :
    (c.onBatchEnter stage g).w = update c.w stage ((c.w stage + g) % 2 ^ 64) := rfl

@[simp] theorem inFlight_onBatchExit (g : Nat) :
    (c.onBatchExit config stage g).inFlight = update c.inFlight stage (c.inFlight stage - 1) := by
  cases stage <;> rfl

@[simp] theorem w_onBatchExit (g : Nat) :
    (c.onBatchExit config stage g).w = update c.w stage (c.w stage - g) := by
  cases stage <;> rfl

@[simp] theorem zeta_onBatchExit_order (g : Nat) :
    (c.onBatchExit config .order g).zeta =
      update c.zeta .order (newZeta config (c.zeta .order) (c.w .exec) config.lambda2) := rfl

@[simp] theorem zeta_onBatchExit_exec (g : Nat) :
    (c.onBatchExit config .exec g).zeta =
      update c.zeta .exec (newZeta config (c.zeta .exec) (c.w .commit) config.lambda3) := rfl

theorem canPush_iff : c.canPush stage = true ↔ c.inFlight stage < c.zeta stage := by
  rw [canPush]
  split
  · rename_i hzero
    simp [hzero]
  · simp

/-- A batch that the window lets in does not overflow the number of batches. -/
theorem inFlight_succ_of_canPush {c : PipelineController} {stage : StageId}
    (hzeta : c.zeta stage < 2 ^ 32) (hpush : c.canPush stage = true) :
    (c.inFlight stage + 1) % 2 ^ 32 = c.inFlight stage + 1 := by
  rw [canPush_iff] at hpush
  exact Nat.mod_eq_of_lt (by omega)

/-- A new window is a `u32`. -/
theorem newZeta_lt (current wNext lambda : Nat) :
    newZeta config current wNext lambda < 2 ^ 32 := by
  rw [newZeta]
  dsimp only
  split_ifs <;> omega

/-- The windows stay `u32`s. -/
theorem zeta_onBatchExit_lt {c : PipelineController} (h : ∀ stage, c.zeta stage < 2 ^ 32)
    (stage : StageId) (g : Nat) (stage' : StageId) :
    (c.onBatchExit config stage g).zeta stage' < 2 ^ 32 := by
  cases stage with
  | commit => exact h stage'
  | order | exec =>
    rw [onBatchExit, tick, StageId.next]
    dsimp only
    rw [update_apply]
    split
    · exact newZeta_lt config _ _ _
    · exact h stage'

theorem newZeta_zero_pos (current lambda : Nat) : 0 < newZeta config current 0 lambda := by
  rw [newZeta, if_pos rfl]
  dsimp only
  split <;> omega

/-- The window closes when the next stage has a load that is not light. -/
theorem newZeta_eq_zero_iff (current wNext lambda : Nat) :
    newZeta config current wNext lambda = 0 ↔
      wNext ≠ 0 ∧ ¬(wNext < lambda ∧ 0 < config.zetaMax) := by
  by_cases hw : wNext = 0
  · subst hw
    have hpos := newZeta_zero_pos config current lambda
    exact ⟨fun h => absurd h (Nat.ne_of_gt hpos), fun h => absurd rfl h.1⟩
  · rw [newZeta, if_neg hw]
    split <;> omega

/-- The controller between two calls of `execute`: no batch is in a stage. The window of `Exec` is
the one that the last call has left; the other two are never closed. -/
structure Idle (c : PipelineController) : Prop where
  inFlight : ∀ stage, c.inFlight stage = 0
  wExec : c.w .exec = 0
  wCommit : c.w .commit = 0
  zetaOrder : 0 < c.zeta .order
  zetaCommit : c.zeta .commit = 1
  zeta_lt : ∀ stage, c.zeta stage < 2 ^ 32

/-- `PipelineController::new`. -/
theorem Idle.new : Idle {} :=
  ⟨fun _ => rfl, rfl, rfl, Nat.one_pos, rfl, fun _ => Nat.one_lt_two_pow (by decide)⟩

end PipelineController

/-! ## The pipeline -/

/-- `PipelineBatch` by its weights. -/
structure PipelineBatch where
  gasWeight : UInt64
  deltaBytes : UInt64

/-- Where `exec_worker` is. -/
inductive ExecState where
  | idle
  | received (b : PipelineBatch)
  | waiting (b : PipelineBatch)
  | executing (b : PipelineBatch)
  | exited (b : PipelineBatch)

/-- Where `commit_worker` is. -/
inductive CommitState where
  | idle
  | waiting (b : PipelineBatch)
  | committing (b : PipelineBatch)
  | committed (b : PipelineBatch)

/-- The state of `EvBlpChaseBridge::execute`. -/
structure Pipeline where
  todo : List PipelineBatch
  /-- The batch that has entered `Order` and is not sent yet. -/
  sending : Option PipelineBatch := none
  execQueue : List PipelineBatch := []
  exec : ExecState := .idle
  commitQueue : List PipelineBatch := []
  commit : CommitState := .idle
  /-- The capacity of the two channels. -/
  capacity : Nat
  controller : PipelineController := {}
  /-- The committed batches, a history variable. -/
  committed : List PipelineBatch := []

/-- The pipeline at the start of `execute`, with the controller of the runtime. -/
def Pipeline.start (controller : PipelineController) (batches : List PipelineBatch) : Pipeline where
  todo := batches
  capacity := batches.length
  controller := controller

/-- A step of the producer, of `exec_worker` or of `commit_worker`. -/
inductive Pipeline.Step (config : PipelineConfig) : Pipeline → Pipeline → Prop
  | enterOrder {s : Pipeline} {b : PipelineBatch} {rest : List PipelineBatch} :
    s.todo = b :: rest → s.sending = none → s.controller.canPush .order = true →
    Step config s
      { s with
        todo := rest
        sending := some b
        controller := s.controller.onBatchEnter .order b.gasWeight.toNat }
  | sendExec {s : Pipeline} {b : PipelineBatch} :
    s.sending = some b → s.execQueue.length < s.capacity →
    Step config s { s with sending := none, execQueue := s.execQueue ++ [b] }
  | recvExec {s : Pipeline} {b : PipelineBatch} {queue : List PipelineBatch} :
    s.exec = .idle → s.execQueue = b :: queue →
    Step config s { s with exec := .received b, execQueue := queue }
  | exitOrder {s : Pipeline} {b : PipelineBatch} :
    s.exec = .received b →
    Step config s
      { s with
        exec := .waiting b
        controller := s.controller.onBatchExit config .order b.gasWeight.toNat }
  | enterExec {s : Pipeline} {b : PipelineBatch} :
    s.exec = .waiting b → s.controller.canPush .exec = true →
    Step config s
      { s with
        exec := .executing b
        controller := s.controller.onBatchEnter .exec b.gasWeight.toNat }
  | exitExec {s : Pipeline} {b : PipelineBatch} :
    s.exec = .executing b →
    Step config s
      { s with
        exec := .exited b
        controller := s.controller.onBatchExit config .exec b.gasWeight.toNat }
  | sendCommit {s : Pipeline} {b : PipelineBatch} :
    s.exec = .exited b → s.commitQueue.length < s.capacity →
    Step config s { s with exec := .idle, commitQueue := s.commitQueue ++ [b] }
  | recvCommit {s : Pipeline} {b : PipelineBatch} {queue : List PipelineBatch} :
    s.commit = .idle → s.commitQueue = b :: queue →
    Step config s { s with commit := .waiting b, commitQueue := queue }
  | enterCommit {s : Pipeline} {b : PipelineBatch} :
    s.commit = .waiting b → s.controller.canPush .commit = true →
    Step config s
      { s with
        commit := .committing b
        controller := s.controller.onBatchEnter .commit b.deltaBytes.toNat }
  | commitBatch {s : Pipeline} {b : PipelineBatch} :
    s.commit = .committing b →
    Step config s { s with commit := .committed b, committed := s.committed ++ [b] }
  | exitCommit {s : Pipeline} {b : PipelineBatch} :
    s.commit = .committed b →
    Step config s
      { s with
        commit := .idle
        controller := s.controller.onBatchExit config .commit b.deltaBytes.toNat }

/-- The states that `execute` may reach. -/
def Pipeline.Reachable (config : PipelineConfig) (controller : PipelineController)
    (batches : List PipelineBatch) (s : Pipeline) : Prop :=
  ReflTransGen (Pipeline.Step config) (.start controller batches) s

/-! ## Where the batches are -/

/-- The batch that `exec_worker` has. -/
def ExecState.held : ExecState → List PipelineBatch
  | idle => []
  | received b | waiting b | executing b | exited b => [b]

/-- The batch that `commit_worker` has and has not committed. -/
def CommitState.pending : CommitState → List PipelineBatch
  | idle | committed _ => []
  | waiting b | committing b => [b]

/-- The batch that is received and still in `Order`. -/
def ExecState.ordered : ExecState → List PipelineBatch
  | received b => [b]
  | _ => []

/-- The batch that is in `Exec`. -/
def ExecState.inside : ExecState → List PipelineBatch
  | executing b => [b]
  | _ => []

/-- The batch that is in `Commit`. -/
def CommitState.inside : CommitState → List PipelineBatch
  | committing b | committed b => [b]
  | _ => []

/-- The batch that `exec_worker` has and that has not left `Exec`. -/
def ExecState.unexecuted : ExecState → List PipelineBatch
  | received b | waiting b | executing b => [b]
  | _ => []

/-- The steps that are left for the batch of `exec_worker`. -/
def ExecState.steps : ExecState → Nat
  | idle => 0
  | received _ => 8
  | waiting _ => 7
  | executing _ => 6
  | exited _ => 5

/-- The steps that are left for the batch of `commit_worker`. -/
def CommitState.steps : CommitState → Nat
  | idle => 0
  | waiting _ => 3
  | committing _ => 2
  | committed _ => 1

/-- `commit_worker` has at most one batch inside. -/
theorem CommitState.inside_cases (c : CommitState) : c.inside = [] ∨ ∃ b, c.inside = [b] := by
  cases c with
  | idle | waiting _ => exact .inl rfl
  | committing b | committed b => exact .inr ⟨b, rfl⟩

namespace Pipeline

/-- The batches that are not committed, in order. -/
def uncommitted (s : Pipeline) : List PipelineBatch :=
  s.commit.pending ++ s.commitQueue ++ s.exec.held ++ s.execQueue ++ s.sending.toList ++ s.todo

/-- What holds in every reachable state: every batch is in one place, in order, and the controller
counts the batches that are in the stages. -/
structure Inv (batches : List PipelineBatch) (s : Pipeline) : Prop where
  split : s.committed ++ s.uncommitted = batches
  last : ∀ b, s.commit = .committed b → s.committed.getLast? = some b
  capacity : s.capacity = batches.length
  order : s.controller.inFlight .order =
    s.exec.ordered.length + s.execQueue.length + s.sending.toList.length
  exec : s.controller.inFlight .exec = s.exec.inside.length
  commit : s.controller.inFlight .commit = s.commit.inside.length
  wExec : s.controller.w .exec = (s.exec.inside.map (·.gasWeight.toNat)).sum
  wCommit : s.controller.w .commit = (s.commit.inside.map (·.deltaBytes.toNat)).sum
  zetaOrder : 0 < s.controller.zeta .order
  zetaCommit : s.controller.zeta .commit = 1
  zeta_lt : ∀ stage, s.controller.zeta stage < 2 ^ 32

variable {config : PipelineConfig} {controller : PipelineController} {batches : List PipelineBatch}
  {s s' : Pipeline}

/-- The invariant holds at the start. -/
theorem Inv.start (h : controller.Idle) (batches : List PipelineBatch) :
    Inv batches (.start controller batches) :=
  ⟨rfl, nofun, rfl, h.inFlight _, h.inFlight _, h.inFlight _, h.wExec, h.wCommit, h.zetaOrder,
    h.zetaCommit, h.zeta_lt⟩

/-- A step leaves every batch in its place in the order. -/
theorem Step.batches_eq (h : Step config s s') :
    s'.committed ++ s'.uncommitted = s.committed ++ s.uncommitted := by
  cases h with
  | enterOrder htodo hsending _ => simp [uncommitted, htodo, hsending]
  | sendExec hsending _ => simp [uncommitted, hsending]
  | recvExec hidle hqueue => simp [uncommitted, hidle, hqueue, ExecState.held]
  | exitOrder hexec | enterExec hexec _ | exitExec hexec =>
    simp [uncommitted, hexec, ExecState.held]
  | sendCommit hexited _ => simp [uncommitted, hexited, ExecState.held]
  | recvCommit hidle hqueue => simp [uncommitted, hidle, hqueue, CommitState.pending]
  | enterCommit hcommit _ | commitBatch hcommit | exitCommit hcommit =>
    simp [uncommitted, hcommit, CommitState.pending]

/-- A step keeps the invariant. -/
theorem Inv.step (h : Inv batches s) (hstep : Step config s s') : Inv batches s' := by
  have hsplit := hstep.batches_eq.trans h.split
  obtain ⟨-, hlast, hcapacity, horder, hexec, hcommit, hwExec, hwCommit, hzeta, hzeta', hlt⟩ := h
  cases hstep with
  | enterOrder htodo hsending hpush =>
    have hsucc := PipelineController.inFlight_succ_of_canPush (hlt .order) hpush
    rw [hsending] at horder
    refine ⟨hsplit, hlast, hcapacity, ?_, hexec, hcommit, hwExec, hwCommit, hzeta, hzeta', hlt⟩
    rw [PipelineController.inFlight_onBatchEnter, update_self, hsucc, horder]
    rfl
  | sendExec hsending _ =>
    rw [hsending] at horder
    refine ⟨hsplit, hlast, hcapacity, ?_, hexec, hcommit, hwExec, hwCommit, hzeta, hzeta', hlt⟩
    simp [horder, Nat.add_assoc]
  | recvExec hidle hqueue =>
    rw [hidle] at horder hexec hwExec
    rw [hqueue] at horder
    refine ⟨hsplit, hlast, hcapacity, ?_, hexec, hcommit, hwExec, hwCommit, hzeta, hzeta', hlt⟩
    simp [horder, ExecState.ordered, Nat.add_comm]
  | exitOrder hreceived =>
    rw [hreceived] at horder hexec hwExec
    refine ⟨hsplit, hlast, hcapacity, ?_, hexec, hcommit, hwExec, hwCommit, ?_, hzeta',
      PipelineController.zeta_onBatchExit_lt config hlt .order _⟩
    · simp [horder, ExecState.ordered, Nat.add_assoc]
    · -- nothing is in the next stage, so the window stays open
      have hnext : s.controller.w .exec = 0 := hwExec
      simpa [hnext] using PipelineController.newZeta_zero_pos config _ _
  | enterExec hwaiting _ =>
    rw [hwaiting] at horder hexec hwExec
    refine ⟨hsplit, hlast, hcapacity, horder, ?_, hcommit, ?_, hwCommit, hzeta, hzeta', hlt⟩
    · simp [hexec, ExecState.inside]
    · simp [hwExec, ExecState.inside]
  | exitExec hexecuting =>
    rw [hexecuting] at horder hexec hwExec
    refine ⟨hsplit, hlast, hcapacity, horder, ?_, hcommit, ?_, hwCommit, hzeta, hzeta',
      PipelineController.zeta_onBatchExit_lt config hlt .exec _⟩
    · simp [hexec, ExecState.inside]
    · simp [hwExec, ExecState.inside]
  | sendCommit hexited _ =>
    rw [hexited] at horder hexec hwExec
    exact ⟨hsplit, hlast, hcapacity, horder, hexec, hcommit, hwExec, hwCommit, hzeta, hzeta', hlt⟩
  | recvCommit hidle hqueue =>
    rw [hidle] at hcommit hwCommit
    exact ⟨hsplit, nofun, hcapacity, horder, hexec, hcommit, hwExec, hwCommit, hzeta, hzeta', hlt⟩
  | enterCommit hwaiting _ =>
    rw [hwaiting] at hcommit hwCommit
    refine ⟨hsplit, nofun, hcapacity, horder, hexec, ?_, hwExec, ?_, hzeta, hzeta', hlt⟩
    · simp [hcommit, CommitState.inside]
    · simp [hwCommit, CommitState.inside]
  | commitBatch hcommitting =>
    rw [hcommitting] at hcommit hwCommit
    refine ⟨hsplit, ?_, hcapacity, horder, hexec, hcommit, hwExec, hwCommit, hzeta, hzeta', hlt⟩
    rintro b' ⟨⟩
    exact List.getLast?_concat
  | exitCommit hcommitted =>
    rw [hcommitted] at hcommit hwCommit
    refine ⟨hsplit, nofun, hcapacity, horder, hexec, ?_, hwExec, ?_, hzeta, hzeta',
      PipelineController.zeta_onBatchExit_lt config hlt .commit _⟩
    · simp [hcommit, CommitState.inside]
    · simp [hwCommit, CommitState.inside]

/-- A run keeps the invariant. -/
theorem Inv.run (h : Inv batches s) (hrun : ReflTransGen (Step config) s s') : Inv batches s' := by
  induction hrun with
  | refl => exact h
  | tail _ hstep ih => exact ih.step hstep

theorem Reachable.inv (hidle : controller.Idle) (h : Reachable config controller batches s) :
    Inv batches s :=
  (Inv.start hidle batches).run h

/-- When the last batch has left `Commit`, the controller is idle again. -/
theorem Inv.idle (h : Inv batches s) (hdone : s.uncommitted = []) (hcommit : s.commit = .idle) :
    s.controller.Idle := by
  simp only [uncommitted, List.append_eq_nil_iff] at hdone
  obtain ⟨⟨⟨⟨-, hheld⟩, hqueue⟩, hsending⟩, -⟩ := hdone
  have hexec : s.exec = .idle := by
    cases hexec : s.exec with
    | idle => rfl
    | received b | waiting b | executing b | exited b =>
      rw [hexec] at hheld
      cases hheld
  refine ⟨fun stage => ?_, ?_, ?_, h.zetaOrder, h.zetaCommit, h.zeta_lt⟩
  · cases stage with
    | order =>
      rw [h.order, hexec, hqueue, hsending]
      rfl
    | exec =>
      rw [h.exec, hexec]
      rfl
    | commit =>
      rw [h.commit, hcommit]
      rfl
  · rw [h.wExec, hexec]
    rfl
  · rw [h.wCommit, hcommit]
    rfl

/-! ## Every run ends -/

/-- The steps that are left: eleven for each batch. -/
def steps (s : Pipeline) : Nat :=
  s.todo.length * 11 + s.sending.toList.length * 10 + s.execQueue.length * 9 + s.exec.steps +
    s.commitQueue.length * 4 + s.commit.steps

theorem Step.steps_lt (h : Step config s s') : s'.steps < s.steps := by
  cases h <;> simp_all [steps, ExecState.steps, CommitState.steps] <;> omega

/-- From every state the pipeline comes to a halt. -/
theorem exists_halt (config : PipelineConfig) (s : Pipeline) :
    ∃ s', ReflTransGen (Step config) s s' ∧ ¬∃ s'', Step config s' s'' := by
  induction hn : s.steps using Nat.strongRecOn generalizing s with
  | ind n ih =>
    by_cases hstep : ∃ s', Step config s s'
    · obtain ⟨s', hstep⟩ := hstep
      obtain ⟨halt, hrun, hhalt⟩ := ih _ (hn ▸ hstep.steps_lt) s' rfl
      exact ⟨halt, .head hstep hrun, hhalt⟩
    · exact ⟨s, .refl, hstep⟩

/-! ## Light batches -/

/-- The batches that have not left `Exec`, in order. -/
def unexecuted (s : Pipeline) : List PipelineBatch :=
  s.exec.unexecuted ++ s.execQueue ++ s.sending.toList ++ s.todo

/-- The window of `Exec` is closed only when no batch is left for it. -/
def Open (s : Pipeline) : Prop := s.controller.zeta .exec = 0 → s.unexecuted = []

end Pipeline

/-- A batch that does not close the window of `Exec` while it is committed. -/
def PipelineBatch.Light (config : PipelineConfig) (b : PipelineBatch) : Prop :=
  b.deltaBytes.toNat = 0 ∨ b.deltaBytes.toNat < config.lambda3 ∧ 0 < config.zetaMax

/-- Every batch with at least two batches behind it is light. -/
def LightBeforeLast (config : PipelineConfig) (batches : List PipelineBatch) : Prop :=
  ∀ pre b rest, batches = pre ++ b :: rest → 2 ≤ rest.length → b.Light config

namespace Pipeline

variable {config : PipelineConfig} {controller : PipelineController} {batches : List PipelineBatch}
  {s s' : Pipeline}

/-- The batch in `Commit` is light, when another one leaves `Exec` and there is a third one. -/
theorem Inv.light (h : Inv batches s) (hlight : LightBeforeLast config batches)
    {x b : PipelineBatch} (hx : x ∈ s.commit.inside) (hb : s.exec = .executing b)
    (hrest : s.execQueue ++ s.sending.toList ++ s.todo ≠ []) : x.Light config := by
  have hlength := List.length_pos_iff.2 hrest
  have hsplit := h.split
  rw [uncommitted, hb] at hsplit
  cases hcommit : s.commit with
  | idle | waiting y =>
    rw [hcommit] at hx
    cases hx
  | committing y =>
    rw [hcommit] at hx hsplit
    cases List.mem_singleton.1 hx
    refine hlight s.committed x (s.commitQueue ++ [b] ++ s.execQueue ++ s.sending.toList ++ s.todo)
      ?_ ?_
    · rw [← hsplit]
      simp [CommitState.pending, ExecState.held]
    · simp only [List.length_append, List.length_singleton] at hlength ⊢
      omega
  | committed y =>
    obtain ⟨init, hinit⟩ := List.getLast?_eq_some_iff.1 (h.last y hcommit)
    rw [hcommit] at hx hsplit
    cases List.mem_singleton.1 hx
    refine hlight init x (s.commitQueue ++ [b] ++ s.execQueue ++ s.sending.toList ++ s.todo) ?_ ?_
    · rw [← hsplit, hinit]
      simp [CommitState.pending, ExecState.held]
    · simp only [List.length_append, List.length_singleton] at hlength ⊢
      omega

/-- A step keeps the window of `Exec` open, when every batch before the last is light. -/
theorem Open.step (h : s.Open) (hinv : Inv batches s) (hlight : LightBeforeLast config batches)
    (hstep : Step config s s') : s'.Open := by
  intro hzero
  cases hstep with
  | @exitExec b hb =>
    rw [PipelineController.zeta_onBatchExit_exec, update_self,
      PipelineController.newZeta_eq_zero_iff, hinv.wCommit] at hzero
    by_contra hrest
    rcases s.commit.inside_cases with hinside | ⟨x, hinside⟩
    · rw [hinside] at hzero
      exact hzero.1 rfl
    · rw [hinside, List.map_singleton, List.sum_singleton] at hzero
      rcases hinv.light hlight (hinside ▸ List.mem_singleton_self x) hb hrest with hx | hx
      · exact hzero.1 hx
      · exact hzero.2 hx
  | exitOrder hb =>
    have hunexecuted := h (by simpa using hzero)
    simp_all [unexecuted, ExecState.unexecuted]
  | _ =>
    have hunexecuted := h hzero
    simp_all [unexecuted, ExecState.unexecuted]

/-- While the window of `Exec` is open for the batches that are left, some step is enabled. -/
theorem Inv.exists_step (h : Inv batches s) (hopen : s.Open) (hne : s.uncommitted ≠ []) :
    ∃ s', Step config s s' := by
  have hlength := congrArg List.length h.split
  rw [List.length_append, uncommitted, ← h.capacity] at hlength
  simp only [List.length_append] at hlength
  cases hcommit : s.commit with
  | waiting b =>
    refine ⟨_, .enterCommit hcommit ?_⟩
    rw [PipelineController.canPush_iff, h.commit, hcommit, h.zetaCommit]
    exact Nat.one_pos
  | committing b => exact ⟨_, .commitBatch hcommit⟩
  | committed b => exact ⟨_, .exitCommit hcommit⟩
  | idle =>
    cases hqueue : s.commitQueue with
    | cons b queue => exact ⟨_, .recvCommit hcommit hqueue⟩
    | nil =>
      cases hexec : s.exec with
      | received b => exact ⟨_, .exitOrder hexec⟩
      | waiting b =>
        refine ⟨_, .enterExec hexec ?_⟩
        have hzeta : s.controller.zeta .exec ≠ 0 := by
          intro hzero
          have hnil := hopen hzero
          rw [unexecuted, hexec] at hnil
          cases hnil
        rw [PipelineController.canPush_iff, h.exec, hexec]
        exact Nat.pos_of_ne_zero hzeta
      | executing b => exact ⟨_, .exitExec hexec⟩
      | exited b =>
        refine ⟨_, .sendCommit hexec ?_⟩
        rw [hexec] at hlength
        simp only [ExecState.held, List.length_singleton] at hlength
        omega
      | idle =>
        cases hexecQueue : s.execQueue with
        | cons b queue => exact ⟨_, .recvExec hexec hexecQueue⟩
        | nil =>
          cases hsending : s.sending with
          | some b =>
            refine ⟨_, .sendExec hsending ?_⟩
            rw [hsending] at hlength
            simp only [Option.toList_some, List.length_singleton] at hlength
            omega
          | none =>
            cases htodo : s.todo with
            | cons b rest =>
              refine ⟨_, .enterOrder htodo hsending ?_⟩
              rw [PipelineController.canPush_iff, h.order, hexec, hexecQueue, hsending]
              exact h.zetaOrder
            | nil =>
              refine absurd ?_ hne
              rw [uncommitted, hcommit, hqueue, hexec, hexecQueue, hsending, htodo]
              rfl

/-- In a run that starts with an open window, or without batches, the window of `Exec` is closed
only when no batch is left for it. -/
theorem Reachable.open (hidle : controller.Idle) (h : Reachable config controller batches s)
    (hopen : batches = [] ∨ 0 < controller.zeta .exec) (hlight : LightBeforeLast config batches) :
    s.Open := by
  induction h with
  | refl =>
    intro hzero
    rcases hopen with rfl | hpos
    · rfl
    · exact absurd hzero (Nat.ne_of_gt hpos)
  | tail hrun hstep ih => exact ih.step (Reachable.inv hidle hrun) hlight hstep

/-! ## A batch that is not light -/

/-- Nothing is between the producer and `exec_worker`, and the workers are where it is said. -/
structure At (todo : List PipelineBatch) (exec : ExecState) (commitQueue : List PipelineBatch)
    (commit : CommitState) (s : Pipeline) : Prop where
  todo : s.todo = todo
  sending : s.sending = none
  execQueue : s.execQueue = []
  exec : s.exec = exec
  commitQueue : s.commitQueue = commitQueue
  commit : s.commit = commit

section

variable {b : PipelineBatch} {todo commitQueue : List PipelineBatch} {commit : CommitState}

/-- The next batch is ordered, and `exec_worker` waits with it. -/
theorem At.order (config : PipelineConfig)
    (h : At (b :: todo) .idle commitQueue commit s) (hinv : Inv batches s) :
    ∃ s', ReflTransGen (Step config) s s' ∧ At todo (.waiting b) commitQueue commit s' ∧
      s'.controller.zeta .exec = s.controller.zeta .exec := by
  have hpush : s.controller.canPush .order = true := by
    rw [PipelineController.canPush_iff, hinv.order, h.exec, h.execQueue, h.sending]
    exact hinv.zetaOrder
  have hcapacity : s.execQueue.length < s.capacity := by
    rw [h.execQueue, hinv.capacity, ← hinv.split, uncommitted, h.todo]
    simp only [List.length_nil, List.length_append, List.length_cons]
    omega
  have hqueue : s.execQueue ++ [b] = [b] := by rw [h.execQueue, List.nil_append]
  refine ⟨_, .tail (.tail (.tail (.single (.enterOrder h.todo h.sending hpush))
    (.sendExec rfl hcapacity)) (.recvExec h.exec hqueue)) (.exitOrder rfl), ?_, ?_⟩
  · exact ⟨rfl, rfl, rfl, rfl, h.commitQueue, h.commit⟩
  · rfl

/-- The batch is executed and sent to `commit_worker`. -/
theorem At.execute (config : PipelineConfig) (h : At todo (.waiting b) [] commit s)
    (hinv : Inv batches s) (hzeta : 0 < s.controller.zeta .exec) :
    ∃ s', ReflTransGen (Step config) s s' ∧ At todo .idle [b] commit s' ∧
      s'.controller.zeta .exec =
        PipelineController.newZeta config (s.controller.zeta .exec)
          (commit.inside.map (·.deltaBytes.toNat)).sum config.lambda3 := by
  have hpush : s.controller.canPush .exec = true := by
    rw [PipelineController.canPush_iff, hinv.exec, h.exec]
    exact hzeta
  have hcapacity : s.commitQueue.length < s.capacity := by
    rw [h.commitQueue, hinv.capacity, ← hinv.split, uncommitted, h.exec]
    simp only [List.length_nil, List.length_append, ExecState.held, List.length_singleton]
    omega
  have hqueue : s.commitQueue ++ [b] = [b] := by rw [h.commitQueue, List.nil_append]
  refine ⟨_, .tail (.tail (.single (.enterExec h.exec hpush)) (.exitExec rfl))
    (.sendCommit rfl hcapacity), ?_, ?_⟩
  · exact ⟨h.todo, h.sending, h.execQueue, rfl, hqueue, h.commit⟩
  · rw [← h.commit, ← hinv.wCommit]
    rfl

/-- `commit_worker` receives the batch and starts to commit it. -/
theorem At.enterCommit (config : PipelineConfig) (h : At todo .idle [b] .idle s)
    (hinv : Inv batches s) :
    ∃ s', ReflTransGen (Step config) s s' ∧ At todo .idle [] (.committing b) s' ∧
      s'.controller.zeta .exec = s.controller.zeta .exec := by
  have hpush : s.controller.canPush .commit = true := by
    rw [PipelineController.canPush_iff, hinv.commit, h.commit, hinv.zetaCommit]
    exact Nat.one_pos
  refine ⟨_, .tail (.single (.recvCommit h.commit h.commitQueue)) (.enterCommit rfl hpush), ?_, ?_⟩
  · exact ⟨h.todo, h.sending, h.execQueue, h.exec, rfl, rfl⟩
  · rfl

/-- `commit_worker` commits the batch. -/
theorem At.exitCommit (config : PipelineConfig) (h : At todo .idle [] (.committing b) s) :
    ∃ s', ReflTransGen (Step config) s s' ∧ At todo .idle [] .idle s' ∧
      s'.controller.zeta .exec = s.controller.zeta .exec := by
  refine ⟨_, .tail (.single (.commitBatch h.commit)) (.exitCommit rfl), ?_, ?_⟩
  · exact ⟨h.todo, h.sending, h.execQueue, h.exec, h.commitQueue, rfl⟩
  · rfl

/-- A batch passes to `Commit` while no other one is in the pipeline. -/
theorem At.passToCommit (config : PipelineConfig) (h : At (b :: todo) .idle [] .idle s)
    (hinv : Inv batches s) (hzeta : 0 < s.controller.zeta .exec) :
    ∃ s', ReflTransGen (Step config) s s' ∧ At todo .idle [] (.committing b) s' ∧
      0 < s'.controller.zeta .exec := by
  obtain ⟨s₁, hrun₁, h₁, hzeta₁⟩ := h.order config hinv
  obtain ⟨s₂, hrun₂, h₂, hzeta₂⟩ :=
    h₁.execute config (hinv.run hrun₁) (hzeta₁ ▸ hzeta)
  obtain ⟨s₃, hrun₃, h₃, hzeta₃⟩ := h₂.enterCommit config (hinv.run (hrun₁.trans hrun₂))
  refine ⟨s₃, (hrun₁.trans hrun₂).trans hrun₃, h₃, ?_⟩
  rw [hzeta₃, hzeta₂]
  exact PipelineController.newZeta_zero_pos config _ _

/-- The batches before a batch pass through the pipeline one after the other. -/
theorem exists_committing (config : PipelineConfig) (pre : List PipelineBatch)
    (h : At (pre ++ b :: todo) .idle [] .idle s)
    (hinv : Inv batches s) (hzeta : 0 < s.controller.zeta .exec) :
    ∃ s', ReflTransGen (Step config) s s' ∧ At todo .idle [] (.committing b) s' ∧
      0 < s'.controller.zeta .exec := by
  induction pre generalizing s with
  | nil => exact h.passToCommit config hinv hzeta
  | cons p pre ih =>
    obtain ⟨s₁, hrun₁, h₁, hzeta₁⟩ := h.passToCommit config hinv hzeta
    obtain ⟨s₂, hrun₂, h₂, hzeta₂⟩ := h₁.exitCommit config
    have hrun := hrun₁.trans hrun₂
    obtain ⟨s', hrun', h', hzeta'⟩ := ih h₂ (hinv.run hrun) (hzeta₂ ▸ hzeta₁)
    exact ⟨s', hrun.trans hrun', h', hzeta'⟩

end

/-- `exec_worker` waits with a batch at a closed window. -/
def Blocked (b : PipelineBatch) (s : Pipeline) : Prop :=
  s.exec = .waiting b ∧ s.controller.zeta .exec = 0

/-- A worker that waits at a closed window waits after any step. -/
theorem Blocked.step {b : PipelineBatch} (h : s.Blocked b) (hstep : Step config s s') :
    s'.Blocked b := by
  obtain ⟨hexec, hzeta⟩ := h
  cases hstep with
  | enterOrder | sendExec | recvCommit | enterCommit | commitBatch | exitCommit =>
    exact ⟨hexec, hzeta⟩
  | enterExec _ hpush =>
    rw [PipelineController.canPush_iff, hzeta] at hpush
    cases hpush
  | recvExec h | exitOrder h | exitExec h | sendCommit h =>
    rw [hexec] at h
    cases h

/-- A worker that waits at a closed window waits forever. -/
theorem Blocked.run {b : PipelineBatch} (h : s.Blocked b)
    (hrun : ReflTransGen (Step config) s s') : s'.Blocked b := by
  induction hrun with
  | refl => exact h
  | tail _ hstep ih => exact ih.step hstep

/-- A run that reaches a blocked batch comes to a halt with a batch that is not committed. -/
theorem Blocked.stuck {b : PipelineBatch} (hidle : controller.Idle)
    (hs : Reachable config controller batches s) (h : s.Blocked b) :
    ∃ s, Reachable config controller batches s ∧ s.committed ≠ batches ∧
      ¬∃ s', Step config s s' := by
  obtain ⟨halt, hrun, hhalt⟩ := exists_halt config s
  refine ⟨halt, hs.trans hrun, ?_, hhalt⟩
  intro hcommitted
  have hsplit := (Reachable.inv hidle (hs.trans hrun)).split
  rw [← hcommitted, List.append_right_eq_self, uncommitted, (h.run hrun).1] at hsplit
  simp [ExecState.held] at hsplit

/-- A closed window of `Exec` at the start blocks the first batch. -/
theorem exists_blocked_first (config : PipelineConfig) (hidle : controller.Idle) (b : PipelineBatch)
    (rest : List PipelineBatch) (hzeta : controller.zeta .exec = 0) :
    ∃ s, Reachable config controller (b :: rest) s ∧ s.Blocked b := by
  have hstart : At (b :: rest) .idle [] .idle (start controller (b :: rest)) :=
    ⟨rfl, rfl, rfl, rfl, rfl, rfl⟩
  obtain ⟨s, hrun, h, hzeta'⟩ := hstart.order config (Inv.start hidle _)
  exact ⟨s, hrun, h.exec, hzeta'.trans hzeta⟩

/-- A batch that is not light blocks the second batch behind it, when the first one behind it leaves
`Exec` while it is committed. -/
theorem exists_blocked (hidle : controller.Idle) (hopen : 0 < controller.zeta .exec)
    (pre rest : List PipelineBatch) {b b₁ b₂ : PipelineBatch} (hb : ¬b.Light config) :
    ∃ s, Reachable config controller (pre ++ b :: b₁ :: b₂ :: rest) s ∧ s.Blocked b₂ := by
  have hinv := Inv.start hidle (pre ++ b :: b₁ :: b₂ :: rest)
  obtain ⟨s₁, hrun₁, h₁, hzeta₁⟩ := exists_committing config pre
    ⟨rfl, rfl, rfl, rfl, rfl, rfl⟩ hinv hopen
  obtain ⟨s₂, hrun₂, h₂, hzeta₂⟩ := h₁.order config (hinv.run hrun₁)
  have hrun := hrun₁.trans hrun₂
  obtain ⟨s₃, hrun₃, h₃, hzeta₃⟩ :=
    h₂.execute config (hinv.run hrun) (hzeta₂ ▸ hzeta₁)
  have hrun := hrun.trans hrun₃
  obtain ⟨s₄, hrun₄, h₄, hzeta₄⟩ := h₃.order config (hinv.run hrun)
  refine ⟨s₄, hrun.trans hrun₄, h₄.exec, ?_⟩
  rw [hzeta₄, hzeta₃, PipelineController.newZeta_eq_zero_iff]
  exact not_or.1 hb

/-- A call of `execute` does not block itself exactly when it has no batch or starts with an open
window of `Exec`, and every batch with two batches behind it is light: its delta is empty, or it is
below `lambda3` and `zeta_max` is not zero. A call that ends leaves the controller idle for the next
one. -/
theorem pipeline_live_iff (config : PipelineConfig) (controller : PipelineController)
    (hidle : controller.Idle) (batches : List PipelineBatch) :
    ((∀ s, Reachable config controller batches s → s.committed ≠ batches →
        ∃ s', Step config s s') ↔
      (batches = [] ∨ 0 < controller.zeta .exec) ∧ LightBeforeLast config batches) ∧
    ∀ s, Reachable config controller batches s → s.committed = batches → s.commit = .idle →
      s.controller.Idle := by
  refine ⟨⟨?_, ?_⟩, fun s hs hcommitted hcommit => ?_⟩
  · intro hlive
    have hblocked : ¬∃ s b, Reachable config controller batches s ∧ s.Blocked b := by
      rintro ⟨s, b, hs, hblocked⟩
      obtain ⟨halt, hhalt, hcommitted, hstuck⟩ := hblocked.stuck hidle hs
      exact hstuck (hlive halt hhalt hcommitted)
    have hopen : batches = [] ∨ 0 < controller.zeta .exec := by
      by_contra hclosed
      obtain ⟨hne, hzero⟩ := not_or.1 hclosed
      obtain ⟨b, rest, rfl⟩ := List.exists_cons_of_ne_nil hne
      obtain ⟨s, hs, h⟩ := exists_blocked_first config hidle b rest (Nat.eq_zero_of_not_pos hzero)
      exact hblocked ⟨s, b, hs, h⟩
    refine ⟨hopen, fun pre b rest hbatches hrest => ?_⟩
    by_contra hb
    match rest, hrest with
    | b₁ :: b₂ :: rest, _ =>
      subst hbatches
      obtain ⟨s, hs, h⟩ :=
        exists_blocked hidle (hopen.resolve_left (by simp)) pre rest hb
      exact hblocked ⟨s, b₂, hs, h⟩
  · rintro ⟨hopen, hlight⟩ s hs hcommitted
    have hinv := Reachable.inv hidle hs
    refine hinv.exists_step (Reachable.open hidle hs hopen hlight) ?_
    intro hnil
    have hsplit := hinv.split
    rw [hnil, List.append_nil] at hsplit
    exact hcommitted hsplit
  · have hinv := Reachable.inv hidle hs
    have hsplit := hinv.split
    rw [hcommitted, List.append_right_eq_self] at hsplit
    exact hinv.idle hsplit hcommit

end Pipeline

namespace PipelineFixture

/-- A batch of one transfer that leaves a delta of some bytes. -/
def batch (deltaBytes : UInt64) : PipelineBatch := ⟨21000, deltaBytes⟩

/-- With a new controller the last two batches may have any deltas. -/
theorem pipeline_live_lastTwoHeavy : PipelineController.Idle {} ∧ ∀ s,
    Pipeline.Reachable ⟨1000000, 64, 16⟩ {} [batch 63, batch 64, batch 64] s →
      s.committed ≠ [batch 63, batch 64, batch 64] →
      ∃ s', Pipeline.Step ⟨1000000, 64, 16⟩ s s' := by
  refine ⟨.new,
    (Pipeline.pipeline_live_iff ⟨1000000, 64, 16⟩ {} .new _).1.2 ⟨.inr Nat.one_pos, ?_⟩⟩
  intro pre b rest hbatches hrest
  have hlength := congrArg List.length hbatches
  simp only [List.length_append, List.length_cons, List.length_nil] at hlength
  obtain rfl : pre = [] := List.length_eq_zero_iff.1 (by omega)
  cases hbatches
  exact .inr (by decide)

/-- While a batch of `lambda3` bytes is committed the second one leaves `Exec`, and the third one
waits at a window that nothing opens. -/
theorem pipeline_stuck :
    ∃ s, Pipeline.Reachable ⟨1000000, 64, 16⟩ {} [batch 64, batch 0, batch 0] s ∧
      s.committed ≠ [batch 64, batch 0, batch 0] ∧
      ¬∃ s', Pipeline.Step ⟨1000000, 64, 16⟩ s s' := by
  have hheavy : ¬(batch 64).Light ⟨1000000, 64, 16⟩ := by
    unfold PipelineBatch.Light
    decide
  obtain ⟨s, hs, hblocked⟩ := Pipeline.exists_blocked .new Nat.one_pos [] [] hheavy
  exact hblocked.stuck .new hs

end PipelineFixture

end Chase.EvBlp
