import Chase.Evm.Transaction

/-!
# The branch predictor of Seer

`Perceptron` (`seer/perceptron.rs`) and the table of perceptrons per contract, slot and branch
(`seer/var_table.rs`). The predictor learns from the read and write sets of successful simulations;
no simulation reads it.
-/

namespace Chase.Seer

/-- A branch outcome: `TAKEN`. -/
def taken : Int := 1

/-- A branch outcome: `NOT_TAKEN`. -/
def notTaken : Int := -1

/-- A branch outcome: `UNCERTAIN`. -/
def uncertain : Int := 0

def historyLengthMin : Nat := 10
def lhrLength : Nat := historyLengthMin
def wtLength : Nat := historyLengthMin + 1
def maxWt : Int := 127
def minWt : Int := -128
def observerModeThreshold : Int := 10

/-- `THETA`, a float in the source that integers are compared with. -/
def theta : Nat := 33

/-- `Perceptron`. -/
structure Perceptron where
  historyLength : Nat
  weights : List Int
  lhr : List Int
  lastPred : List Int
  enabled : Bool
  round : Int
  uncertainNum : Int
  deriving DecidableEq, Repr

/-- `Perceptron::new`. -/
def Perceptron.new : Perceptron where
  historyLength := 0
  weights := List.replicate wtLength 0
  lhr := List.replicate lhrLength uncertain
  lastPred := []
  enabled := false
  round := 0
  uncertainNum := 0

/-- One of the two loops of `run`: it consumes a history from its newest entry, one weight index for
each entry, until the index reaches zero. -/
def Perceptron.accumulate (weights : List Int) : List Int → Nat × Int → Nat × Int
  | [], acc => acc
  | _ :: _, (0, prediction) => (0, prediction)
  | h :: hs, (n + 1, prediction) =>
    if h = uncertain then accumulate weights hs (n, prediction)
    else if h = taken then accumulate weights hs (n, prediction + weights.getD (n + 1) 0)
    else accumulate weights hs (n, prediction - weights.getD (n + 1) 0)

/-- `Perceptron::run`. -/
def Perceptron.run (p : Perceptron) : Int :=
  let start := (lhrLength, p.weights.getD 0 0)
  (accumulate p.weights p.lhr.reverse (accumulate p.weights p.lastPred.reverse start)).2

/-- `Perceptron::predict`. -/
def Perceptron.predict (p : Perceptron) (train : Bool) : Int × Perceptron :=
  if !train && p.historyLength < historyLengthMin then (uncertain, p)
  else if p.enabled then
    let p := { p with round := p.round + 1 }
    -- `round` is positive, so the source's remainder is the Euclidean one
    if p.round % 10 > 0 then (uncertain, p)
    else
      let prediction := p.run
      if prediction.natAbs < theta then (uncertain, p)
      else
        (if prediction > 0 then taken else notTaken, { p with enabled := false, round := 0 })
  else
    let prediction := p.run
    if prediction.natAbs < theta then
      let p := { p with uncertainNum := p.uncertainNum + 1 }
      (uncertain,
        if p.uncertainNum = observerModeThreshold then { p with enabled := true, uncertainNum := 0 }
        else p)
    else (if prediction > 0 then taken else notTaken, { p with uncertainNum := 0 })

/-- The adjustment of `weights[i + 1]` in `update`. -/
def Perceptron.adjust (dir h w : Int) : Int :=
  if h = uncertain then w
  else if dir = h then (if w < maxWt then w + 1 else w)
  else if w > minWt then w - 1 else w

/-- `Perceptron::update`. -/
def Perceptron.update (p : Perceptron) (dir predDir : Int) : Perceptron :=
  let historyLength := p.historyLength + 1
  let weights :=
    if predDir = uncertain ∨ predDir ≠ dir then
      let w0 := p.weights.getD 0 0
      let w0 := if dir = taken then w0 + 1 else if dir = notTaken then w0 - 1 else w0
      w0 :: (List.range lhrLength).map fun i =>
        adjust dir (p.lhr.getD i 0) (p.weights.getD (i + 1) 0)
    else p.weights
  let lhr := p.lhr ++ [dir]
  { p with
    weights
    historyLength := if historyLength > historyLengthMin then historyLength - 1 else historyLength
    lhr := if historyLength > historyLengthMin then lhr.tail else lhr
    lastPred := if p.lastPred.length > 1 then p.lastPred.tail else [] }

/-- `Perceptron::push_last_pred`. -/
def Perceptron.pushLastPred (p : Perceptron) (pred : Int) : Perceptron :=
  { p with lastPred := p.lastPred ++ [pred] }

/-- `BranchInfo`. -/
structure BranchInfo where
  perceptron : Perceptron := Perceptron.new
  regular : Bool := false

/-- `VarTable`: the nested maps from contracts to slots to branches. -/
abbrev VarTable := H160 → H256 → String → Option BranchInfo

/-- `VarTable::predict`. -/
def VarTable.predict (t : VarTable) (contract : H160) (slot : H256) (branchId : String) :
    Int × VarTable :=
  match t contract slot branchId with
  | none => (uncertain, t)
  | some branch =>
    let (res, p) := branch.perceptron.predict false
    let branch := ⟨p.pushLastPred res, res = taken || res = notTaken⟩
    (res, fun c s b => if c = contract ∧ s = slot ∧ b = branchId then some branch else t c s b)

/-- `VarTable::update` on a branch that `ensure_branch` created where it was missing. -/
def VarTable.update (t : VarTable) (contract : H160) (slot : H256) (branchId : String)
    (isTaken : Bool) : VarTable :=
  let branch := (t contract slot branchId).getD {}
  let dir := if isTaken then taken else notTaken
  let (pred, p) :=
    match branch.perceptron.lastPred with
    | last :: _ => (last, branch.perceptron)
    | [] => branch.perceptron.predict true
  let branch := { branch with perceptron := p.update dir pred }
  fun c s b => if c = contract ∧ s = slot ∧ b = branchId then some branch else t c s b

/-- The branch that a storage access stands for, `format!("rw:{slot:?}")`. -/
def rwBranchId (slot : H256) : String := "rw:0x" ++ slot.toHex

/-- `VarTable::learn_from_rw_access`. -/
def VarTable.learnFromRwAccess (t : VarTable) (contract : H160) (readKeys writeKeys : List H256) :
    VarTable :=
  (readKeys ++ writeKeys).foldl
    (fun t slot => t.update contract slot (rwBranchId slot) (writeKeys.contains slot)) t

end Chase.Seer
