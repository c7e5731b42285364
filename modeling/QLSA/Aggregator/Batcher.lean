import QLSA.Aggregator.Mempool

namespace QLSA
namespace Aggregator

open QLSA.Core

/-!
# The batch cycle

A cycle drains transactions, keeps the valid ones, builds a batch and has it
proved.  Between the drain and the end the transactions exist nowhere else.
The prover modules are arbitrary: every call may return any value or raise
anything.  What other threads do to the pool during the cycle is arbitrary
too, so the end of a cycle meets a pool of its own.

The valid transactions are accounted for exactly when no exception leaves the
cycle; and a batch comes out of it when the batch is not too large either.
-/

/-! ## Provers -/

/-- How a call of the batch prover ends. -/
inductive BatchProverCall where
  | proved (proof : Option Bytes) (commitment : Option String)
  | unavailable
  /-- Another `Exception`, possibly when the proof is stored already. -/
  | crashed (stored : Option Bytes)
  /-- Something raised that is not an `Exception`. -/
  | escapes

/-- How a call of a signature prover ends. -/
inductive WitnessCall where
  /-- A value, with its `log10.commitment` if it has this attribute. -/
  | returned (commitment : Option (Option String))
  | keyError
  /-- Another `Exception`. -/
  | skipped
  | escapes

/-- How a call of the tree prover ends. -/
inductive TreeCall where
  /-- A value, with its `leaf_count` if it has this attribute, and whether its
  other attributes can be printed. -/
  | returned (leafCount : Option ℤ) (printable : Bool)
  | skipped
  | escapes

structure ProverModules where
  proveBatch : Batch → BatchProverCall
  /-- number of the call, protocol, transaction, batch root, queries -/
  proveSignature : ℕ → String → Transaction → Bytes → Option ℤ → WitnessCall
  /-- transactions, queries -/
  proveTree : List Transaction → ℤ → TreeCall

/-- What leaves a cycle by an exception. -/
inductive Escape where
  | valueError (message : String)
  | keyError
  | attributeError
  | notException
  deriving DecidableEq

structure BatchResult where
  batch : Batch
  proof : Option Bytes
  commitment : Option String
  /-- Protocols with a witness proof. -/
  witnessProofs : List String
  witnessCommitment : Option String
  /-- Leaf count of the tree bundles. -/
  treeBundles : Option ℤ

def BatchResult.merkleRootOnchain (result : BatchResult) : Bytes := result.batch.merkleRoot.take 32

/-! ## The batcher -/

def maxProofRetries : ℕ := 3

def witnessProtocolNames : List String := ["vfri11", "recursive"]

def defaultWitnessProtocol : String := "vfri11"

/-- A batcher that passed the checks of its constructor. -/
structure Batcher where
  minBatchSize : ℤ
  maxBatchSize : ℤ
  algorithm : String
  nFriQueries : Option ℤ
  witnessProtocols : List String
  min_pos : 1 ≤ minBatchSize
  max_ge : minBatchSize ≤ maxBatchSize
  queries_range : ∀ queries ∈ nFriQueries, 1 ≤ queries ∧ queries ≤ 64
  protocols_known : ∀ protocol ∈ witnessProtocols, protocol ∈ witnessProtocolNames

def Batcher.init (minBatchSize maxBatchSize : ℤ) (algorithm : String) (nFriQueries : Option ℤ)
    (witnessProtocols : Option (List String)) : Except PoolError Batcher :=
  if min_pos : ¬ 1 ≤ minBatchSize then
    .error (.valueError "min_batch_size must be at least 1")
  else if max_ge : ¬ minBatchSize ≤ maxBatchSize then
    .error (.valueError "max_batch_size must be >= min_batch_size")
  else if range : ¬ ∀ queries ∈ nFriQueries, 1 ≤ queries ∧ queries ≤ 64 then
    .error (.valueError s!"n_fri_queries must be in [1, 64], got {nFriQueries.getD 0}")
  else
    let protocols := witnessProtocols.getD [defaultWitnessProtocol]
    if known : ¬ ∀ protocol ∈ protocols, protocol ∈ witnessProtocolNames then
      let unknown := protocols.filter (· ∉ witnessProtocolNames)
      .error (.valueError s!"unknown witness protocol(s): {unknown}; supported: {witnessProtocolNames}")
    else
      .ok ⟨minBatchSize, maxBatchSize, algorithm, nFriQueries, protocols, not_not.mp min_pos,
        not_not.mp max_ge, not_not.mp range, not_not.mp known⟩

/-- Failed attempts by batch root. -/
abbrev RetryDict := NonceDict

section Cycle

variable (crypto : Crypto) (provers : ProverModules) (batcher : Batcher)

/-- `core.signing.verify` -/
def sigVerify (tx : Transaction) (signature : Bytes) : Except Escape Bool :=
  if batcher.algorithm ∉ supportedAlgorithms then
    .error (.valueError s!"Unsupported algorithm '{batcher.algorithm}'")
  else
    .ok (verifySignature crypto tx.toBytes signature tx.publicKey batcher.algorithm)

/-- The transactions with a valid signature, in order. -/
def filterValid : List Transaction → Except Escape (List Transaction)
  | [] => .ok []
  | tx :: txs =>
      match tx.signature with
      | none => filterValid txs
      | some signature => do
          let ok ← sigVerify crypto batcher tx signature
          let valid ← filterValid txs
          return if ok then tx :: valid else valid

/-- The loop of `_prove_witnesses` from a call on.  What the prover modules return or raise is a
parameter, numbered by the call, since the same arguments may be proved twice. -/
def proveWitnesses (tx0 : Transaction) :
    ℕ → List String → BatchResult → Except Escape BatchResult
  | _, [], result => .ok result
  | call, protocol :: rest, result =>
      match provers.proveSignature call protocol tx0 result.merkleRootOnchain batcher.nFriQueries with
      | .keyError => .error .keyError
      | .escapes => .error .notException
      | .skipped => proveWitnesses tx0 (call + 1) rest result
      | .returned commitment =>
          let stored := { result with witnessProofs := result.witnessProofs.insert protocol }
          -- the attribute is read while no commitment is known
          if stored.witnessCommitment.isSome then proveWitnesses tx0 (call + 1) rest stored
          else
            match commitment with
            | none => .error .attributeError
            | some read =>
                proveWitnesses tx0 (call + 1) rest { stored with witnessCommitment := read }

def proveTree (result : BatchResult) (batch : Batch) : Except Escape BatchResult :=
  let entries := batch.transactions.filter fun tx => tx.signature.isSome
  if entries.isEmpty then .ok result
  else if entries.length ≠ batch.transactions.length then .ok result
  else
    match provers.proveTree entries (batcher.nFriQueries.getD 1) with
    | .escapes => .error .notException
    | .skipped => .ok result
    | .returned leafCount printable =>
        match leafCount with
        | none => .error .attributeError
        | some count =>
            if count ≠ batch.transactions.length then .ok result
            else if printable then .ok { result with treeBundles := some count }
            else .error .attributeError

/-- The result of the batch prover, and whether it crashed. -/
def proveStark (batch : Batch) : Except Escape (BatchResult × Bool) :=
  let result : BatchResult := ⟨batch, none, none, [], none, none⟩
  match provers.proveBatch batch with
  | .proved proof commitment =>
      .ok ({ result with proof := proof, commitment := commitment }, false)
  | .unavailable => .ok (result, false)
  | .crashed stored => .ok ({ result with proof := stored }, true)
  | .escapes => .error .notException

/-- The witnesses of the first transaction. -/
def addWitnesses (withWitnesses : Bool) (result : BatchResult) (batch : Batch) :
    Except Escape BatchResult :=
  match batch.transactions with
  | [] => .ok result
  | tx0 :: _ =>
      if withWitnesses && tx0.signature.isSome then
        proveWitnesses provers batcher tx0 0 batcher.witnessProtocols result
      else .ok result

def addTree (withTree : Bool) (result : BatchResult) (batch : Batch) : Except Escape BatchResult :=
  if withTree && !batch.transactions.isEmpty then proveTree provers batcher result batch
  else .ok result

/-- The result, and whether the batch prover crashed. -/
def tryProve (withWitnesses withTree : Bool) (batch : Batch) : Except Escape (BatchResult × Bool) := do
  let (result, proverCrashed) ← proveStark provers batch
  let witnessed ← addWitnesses provers batcher withWitnesses result batch
  let proved ← addTree provers batcher withTree witnessed batch
  return (proved, proverCrashed)

/-- One more failed attempt at a root, in a dictionary that is cleared when it
has grown. -/
def countAttempt (retries : RetryDict) (root : Bytes) : RetryDict × ℕ :=
  let bounded : RetryDict := if 256 < retries.length then [] else retries
  let attempts := NonceDict.get bounded root 0 + 1
  (NonceDict.set bounded root attempts, attempts)

def popAttempts (retries : RetryDict) (root : Bytes) : RetryDict :=
  retries.filter fun entry => entry.1 ≠ root

/-- A cycle over drained transactions that meets `pool` at its end: signatures are filtered, a
batch is made, proved and counted, and what is returned to the pool goes to its front.  An
exception that the source does not catch is an `Escape`, which ends the cycle with the
transactions in nobody's hands. -/
def createAndProve (withWitnesses withTree : Bool) (retries : RetryDict) (pool : Mempool)
    (txs : List Transaction) : RetryDict × Mempool × Except Escape (Option BatchResult) :=
  match filterValid crypto batcher txs with
  | .error escape => (retries, pool, .error escape)
  | .ok validTxs =>
    if validTxs.isEmpty then (retries, pool, .ok none)
    else
      match createBatch crypto validTxs batcher.algorithm with
      | .error (.unsupportedAlgorithm algorithm) =>
          (retries, pool, .error (.valueError
            s!"Unsupported algorithm {algorithm}. Choose from {supportedAlgorithms}"))
      | .error (.batchSize _) => (retries, (pool.prependBatch crypto validTxs).2, .ok none)
      | .error (.invalidSignature _) => (retries, (pool.prependBatch crypto validTxs).2, .ok none)
      | .ok batch =>
          match tryProve provers batcher withWitnesses withTree batch with
          | .error escape => (retries, pool, .error escape)
          | .ok (result, proverCrashed) =>
              if proverCrashed then
                let (retries, attempts) := countAttempt retries batch.merkleRoot
                if attempts ≤ maxProofRetries then
                  (retries, (pool.prependBatch crypto validTxs).2, .ok none)
                else
                  (popAttempts retries batch.merkleRoot, pool, .ok (some result))
              else
                (popAttempts retries batch.merkleRoot, pool, .ok (some result))

/-- `interference` is what other threads do to the pool between the drain and
the end of the cycle. -/
def tryBatch (withWitnesses withTree : Bool) (retries : RetryDict) (pool : Mempool)
    (interference : Mempool → Mempool) :
    RetryDict × Mempool × Except Escape (Option BatchResult) :=
  match pool.drainIfReady crypto batcher.minBatchSize batcher.maxBatchSize with
  | .error _ => (retries, pool, .error (.valueError "min_n must be at least 1"))
  | .ok (txs, rest) =>
      if txs.isEmpty then (retries, interference rest, .ok none)
      else
        createAndProve crypto provers batcher withWitnesses withTree retries (interference rest) txs

def forceBatch (withWitnesses withTree : Bool) (retries : RetryDict) (pool : Mempool)
    (interference : Mempool → Mempool) :
    RetryDict × Mempool × Except Escape (Option BatchResult) :=
  let (txs, rest) := pool.drain crypto batcher.maxBatchSize
  if txs.isEmpty then (retries, interference rest, .ok none)
  else createAndProve crypto provers batcher withWitnesses withTree retries (interference rest) txs

end Cycle

end Aggregator
end QLSA
