import Chase.Evm.Transaction

/-!
# From consensus output to executable batches

A worker admits a transaction when `EthereumTxValidator::validate` accepts its bytes: they are the
JSON of a transaction, or the RLP of a signed one. `consensus_output_to_executable_batches` decodes
the bytes of the committed batches with `from_json`, which unwraps the result of the JSON decoder.
So it hands over what the workers have admitted only when all bytes are JSON
(`consensusOutputToExecutableBatches_iff`), and panics otherwise.
-/

namespace Chase.Stack

/-- What the libraries decode and check: fixed partial functions. -/
class TransactionCodec where
  /-- `serde_json::from_slice`. -/
  fromSlice : Bytes → Except String EthereumTransaction
  Signature : Type
  /-- `TypedTransaction::decode_signed`. -/
  decodeSigned : Bytes → Except String (EthereumTransaction × Signature)
  /-- `Signature::verify`, with the hash and the sender of the transaction. -/
  verify : EthereumTransaction → Signature → Except String Unit

/-- `TxValidationError`. -/
inductive TxValidationError where
  | signatureError (e : String)
  | decoderError (e : String)
  | serdeError (e : String)
  deriving DecidableEq, Repr

/-- `narwhal_types::Batch`, by its transactions and its digest. -/
structure Batch where
  transactions : List Bytes
  digest : H256
  deriving DecidableEq, Repr

/-- A committed sub-dag as handed to `handle_consensus_output`: its index, and its batches in their
groups. -/
structure ConsensusOutput where
  subDagIndex : Nat
  batches : List (List Batch)
  deriving DecidableEq, Repr

/-- `ExecutableEthereumBatch`. -/
structure ExecutableEthereumBatch where
  data : List EthereumTransaction
  digest : H256
  deriving DecidableEq, Repr

section

variable [TransactionCodec]

open TransactionCodec

/-! ## Validation -/

/-- `EthereumTxValidator::validate`. -/
def validate (t : Bytes) : Except TxValidationError Unit :=
  match fromSlice t with
  | .ok _ => .ok ()
  | .error _ =>
    match decodeSigned t with
    | .ok (tx, sig) =>
      match verify tx sig with
      | .ok _ => .ok ()
      | .error e => .error (.signatureError e)
    | .error e => .error (.decoderError e)

/-- `EthereumTxValidator::validate_batch`. -/
def validateBatch (b : Batch) : Except TxValidationError Unit :=
  b.transactions.forM validate

/-! ## Decoding -/

/-- `EthereumTransaction::from_json`; `none` is the panic of `unwrap`. -/
def fromJson (bytes : Bytes) : Option (Except TxValidationError EthereumTransaction) :=
  match fromSlice bytes with
  | .ok tx => some (.ok tx)
  | .error _ => none

/-- `EthereumTransaction::from_rlp`. -/
def fromRlp (bytes : Bytes) : Except TxValidationError EthereumTransaction :=
  match decodeSigned bytes with
  | .ok (tx, _) => .ok tx
  | .error e => .error (.decoderError e)

/-- The loop over the transactions of a batch, which skips those with an error. -/
def decodeTransactions : List Bytes → Option (List EthereumTransaction)
  | [] => some []
  | rawTx :: rest => do
    match ← fromJson rawTx with
    | .ok tx => (tx :: ·) <$> decodeTransactions rest
    | .error _ => decodeTransactions rest

/-- The loop over the batches of all groups. -/
def executableBatches : List Batch → Option (List ExecutableEthereumBatch)
  | [] => some []
  | batch :: rest => do
    let data ← decodeTransactions batch.transactions
    (⟨data, batch.digest⟩ :: ·) <$> executableBatches rest

/-- `consensus_output_to_executable_batches`; `none` is a panic. -/
def consensusOutputToExecutableBatches (output : ConsensusOutput) :
    Option (List ExecutableEthereumBatch) :=
  executableBatches output.batches.flatten

/-! ## What the workers have admitted -/

/-- The transaction that a worker admits with the bytes. -/
def admitted (t : Bytes) : Option EthereumTransaction :=
  match validate t with
  | .ok _ => (fromSlice t).toOption.or (fromRlp t).toOption
  | .error _ => none

/-- The executable batches of what the workers have admitted. -/
def admittedBatches (output : ConsensusOutput) : List ExecutableEthereumBatch :=
  output.batches.flatten.map fun batch => ⟨batch.transactions.filterMap admitted, batch.digest⟩

/-- The bytes are the JSON of a transaction. -/
def IsJson (t : Bytes) : Prop := (fromSlice t).isOk = true

instance : DecidablePred IsJson := fun t => inferInstanceAs (Decidable ((fromSlice t).isOk = true))

/-- Transactions that are JSON are decoded or skipped, never an error. -/
theorem decodeTransactions_of_json {raws : List Bytes} (h : ∀ t ∈ raws, IsJson t) :
    decodeTransactions raws = some (raws.filterMap admitted) := by
  induction raws with
  | nil => rfl
  | cons t raws ih =>
    have ht := h t List.mem_cons_self
    rw [IsJson] at ht
    rw [decodeTransactions, ih fun t' ht' => h t' (List.mem_cons_of_mem _ ht'),
      List.filterMap_cons, fromJson, admitted, validate]
    cases hslice : fromSlice t with
    | ok tx => rfl
    | error e =>
      rw [hslice] at ht
      cases ht

/-- Bytes that are not JSON stop the decoding of their batch. -/
theorem isJson_of_decodeTransactions {raws : List Bytes} {data : List EthereumTransaction}
    (h : decodeTransactions raws = some data) : ∀ t ∈ raws, IsJson t := by
  induction raws generalizing data with
  | nil => exact fun t ht => nomatch ht
  | cons t raws ih =>
    rw [decodeTransactions, fromJson] at h
    cases hslice : fromSlice t with
    | error e =>
      rw [hslice] at h
      cases h
    | ok tx =>
      rw [hslice] at h
      obtain ⟨rest, hrest, -⟩ := Option.map_eq_some_iff.1 h
      intro t' ht'
      rcases List.mem_cons.1 ht' with rfl | ht'
      · rw [IsJson, hslice]
        rfl
      · exact ih hrest t' ht'

/-- **What the worker admits, the executor decodes** when all bytes are JSON, and only then. -/
theorem consensusOutputToExecutableBatches_iff (output : ConsensusOutput) :
    consensusOutputToExecutableBatches output = some (admittedBatches output) ↔
      ∀ group ∈ output.batches, ∀ batch ∈ group, ∀ t ∈ batch.transactions, IsJson t := by
  have hloop : ∀ batches : List Batch, executableBatches batches =
      some (batches.map fun batch => ⟨batch.transactions.filterMap admitted, batch.digest⟩) ↔
        ∀ batch ∈ batches, ∀ t ∈ batch.transactions, IsJson t := by
    intro batches
    induction batches with
    | nil => exact ⟨fun _ _ hbatch => (nomatch hbatch), fun _ => rfl⟩
    | cons batch batches ih =>
      rw [executableBatches, List.forall_mem_cons, ← ih]
      constructor
      · intro h
        obtain ⟨data, hdata, hrest⟩ := Option.bind_eq_some_iff.1 h
        obtain ⟨rest, hbatches, heq⟩ := Option.map_eq_some_iff.1 hrest
        rw [List.map_cons, List.cons.injEq] at heq
        exact ⟨isJson_of_decodeTransactions hdata, heq.2 ▸ hbatches⟩
      · rintro ⟨hbatch, hrest⟩
        rw [decodeTransactions_of_json hbatch, hrest]
        rfl
  refine (hloop output.batches.flatten).trans ?_
  constructor
  · exact fun h group hgroup batch hbatch => h batch (List.mem_flatten.2 ⟨group, hgroup, hbatch⟩)
  · intro h batch hbatch
    obtain ⟨group, hgroup, hmem⟩ := List.mem_flatten.1 hbatch
    exact h group hgroup batch hmem

end

namespace AdapterFixture

/-- A transaction. -/
def someTx : EthereumTransaction := .ofCall 3 1 0 [] 50000 0

/-- A signed transaction in RLP: the nonce, the gas price, the gas limit, the target, the value, the
data and the three parts of the signature, in a list of 95 bytes. -/
def signedRlp : Bytes :=
  [0xf8, 95, 0x80, 1, 0x82, 0xc3, 0x50, 0x94] ++ List.replicate 19 0 ++ [1, 0x80, 0x80, 27] ++
    0xa0 :: List.replicate 32 0x11 ++ 0xa0 :: List.replicate 32 0x22

/-- Bytes that start with a brace are JSON of the transaction that `signedRlp` is the encoding of.
-/
@[reducible] def codec : TransactionCodec where
  fromSlice t := if t.head? = some 0x7b then .ok someTx else .error "expected value"
  Signature := Unit
  decodeSigned t := if t = signedRlp then .ok (someTx, ()) else .error "decoder"
  verify _ _ := .ok ()

/-- A signed transaction in RLP is admitted, and the executor panics on the sub-dag that has it. -/
theorem admitted_rlp_panics :
    @validateBatch codec ⟨[signedRlp], 0⟩ = .ok () ∧
      @consensusOutputToExecutableBatches codec ⟨1, [[⟨[signedRlp], 0⟩]]⟩ = none ∧
      @admittedBatches codec ⟨1, [[⟨[signedRlp], 0⟩]]⟩ = [⟨[someTx], 0⟩] :=
  ⟨rfl, rfl, by decide⟩

end AdapterFixture

end Chase.Stack
