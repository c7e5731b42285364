import QLSA.Contracts.BatchRegistryV7

namespace QLSA
namespace Contracts
namespace V5

open Stwo Machine

/-!
# The direct-proof batch registry

The registry finalizes batches from two proofs that are verified directly,
each under a root that binds the other's trace root.  Its nonces are kept in a
mapping, by the same loop as in the recursive-proof registry.  Errors are those
of that registry; only its first eight and those of ownership occur here.
-/

/-- A serialized proof, with the 32 bytes that `calldataload` reads at its
eighth byte; they lie beyond the proof when it is shorter than 40 bytes. -/
structure ProofBlob (Word : Type*) where
  bytes : List (BitVec 8)
  traceRoot : Word

/-- Proof, commitment and hints of one trace group. -/
structure ProofBundle (Word : Type*) where
  proof : ProofBlob Word
  commitment : Bytes16
  hints : List (BitVec 8)

structure Registry (Word : Type*) where
  owner : Address
  verifier : Address
  finalizedBatches : Word → Bool
  batchTimestamps : Word → ℕ
  batchCommitmentsLog10 : Word → Bytes16
  batchCommitmentsLog8 : Word → Bytes16
  senderNonces : Bytes32 → U64

inductive RegistryEvent (Word : Type*) where
  | batchFinalized (merkleRoot : Word) (commitmentLog10 commitmentLog8 : Bytes16)
      (timestamp : ℕ)
  | verifierUpdated (oldVerifier newVerifier : Address)
  | nonceAdvanced (sender : Bytes32) (newNonce : U64)

/-- What a call finds outside the registry: who calls, when, and what the verifier contract
answers.  The answers are arbitrary and may differ from call to call, also within one transaction.
-/
structure Env (Word : Type*) where
  sender : Address
  timestamp : ℕ
  /-- Answer to the n-th verifier call of the transaction; `none` is a revert. -/
  verify : ℕ → Address → ProofBundle Word → Word → Option Bool

inductive RegistryCall (Word : Type*) where
  | submitBatch (merkleRoot : Word) (log10 log8 : ProofBundle Word)
  | submitBatchWithNonces (merkleRoot : Word) (log10 log8 : ProofBundle Word)
      (senders : List Bytes32) (newNonces : List U64)
  | setVerifier (newVerifier : Address)
  | changeOwner (newOwner : Address)

section Registry

variable {Word : Type*} [DecidableEq Word] (digests : Digests Word)

abbrev Outcome (Word : Type*) :=
  Except (RegistryError Word) (Registry Word × List (RegistryEvent Word))

def deploy (initialOwner verifier : Address) : Except (RegistryError Word) (Registry Word) :=
  if initialOwner = 0 then .error (.ownableInvalidOwner initialOwner)
  else if verifier = 0 then .error .zeroAddressVerifier
  else
    .ok {
      owner := initialOwner
      verifier := verifier
      finalizedBatches := fun _ => false
      batchTimestamps := fun _ => 0
      batchCommitmentsLog10 := fun _ => 0
      batchCommitmentsLog8 := fun _ => 0
      senderNonces := fun _ => 0 }

/-- The writes of a finalized batch. -/
def Registry.recordBatch (state : Registry Word) (merkleRoot : Word) (timestamp : ℕ)
    (commitmentLog10 commitmentLog8 : Bytes16) : Registry Word :=
  { state with
    finalizedBatches := Function.update state.finalizedBatches merkleRoot true
    batchTimestamps := Function.update state.batchTimestamps merkleRoot timestamp
    batchCommitmentsLog10 := Function.update state.batchCommitmentsLog10 merkleRoot commitmentLog10
    batchCommitmentsLog8 :=
      Function.update state.batchCommitmentsLog8 merkleRoot commitmentLog8 }

/-- Both proofs, each under the root that binds the other's trace root. -/
def verifyBoth (env : Env Word) (state : Registry Word) (merkleRoot : Word)
    (log10 log8 : ProofBundle Word) : Except (RegistryError Word) Unit :=
  let boundRoot10 := crossBoundRoot digests merkleRoot log8.proof.traceRoot
  let boundRoot8 := crossBoundRoot digests merkleRoot log10.proof.traceRoot
  match env.verify 0 state.verifier log10 boundRoot10 with
  | none => .error .verifierReverted
  | some false => .error .log10ProofInvalid
  | some true =>
    match env.verify 1 state.verifier log8 boundRoot8 with
    | none => .error .verifierReverted
    | some false => .error .log8ProofInvalid
    | some true => .ok ()

def submitBatch (env : Env Word) (state : Registry Word) (merkleRoot : Word)
    (log10 log8 : ProofBundle Word) : Outcome Word :=
  if merkleRoot = digests.zero then .error .invalidMerkleRoot
  else if state.finalizedBatches merkleRoot then .error (.batchAlreadyFinalized merkleRoot)
  else if log10.proof.bytes.length < 40 then .error .log10ProofInvalid
  else if log8.proof.bytes.length < 40 then .error .log8ProofInvalid
  else
    match verifyBoth digests env state merkleRoot log10 log8 with
    | .error error => .error error
    | .ok () =>
      .ok (state.recordBatch merkleRoot env.timestamp log10.commitment log8.commitment,
        [.batchFinalized merkleRoot log10.commitment log8.commitment env.timestamp])

/-- As `submitBatch`, with the nonce loop; short proofs are not refused here. -/
def submitBatchWithNonces (env : Env Word) (state : Registry Word) (merkleRoot : Word)
    (log10 log8 : ProofBundle Word) (senders : List Bytes32) (newNonces : List U64) :
    Outcome Word :=
  if merkleRoot = digests.zero then .error .invalidMerkleRoot
  else if state.finalizedBatches merkleRoot then .error (.batchAlreadyFinalized merkleRoot)
  else if senders.length ≠ newNonces.length then .error .noncesLengthMismatch
  else if maxSenders < senders.length then .error .senderCountExceedsLimit
  else
    match checkNonces state.senderNonces (senders.zip newNonces) with
    | .error error => .error error
    | .ok () =>
      match verifyBoth digests env state merkleRoot log10 log8 with
      | .error error => .error error
      | .ok () =>
        .ok ({ state.recordBatch merkleRoot env.timestamp log10.commitment log8.commitment with
            senderNonces := writeAll state.senderNonces (senders.zip newNonces) },
          ((senders.zip newNonces).map fun entry => .nonceAdvanced entry.1 entry.2) ++
            [.batchFinalized merkleRoot log10.commitment log8.commitment env.timestamp])

def setVerifier (env : Env Word) (state : Registry Word) (newVerifier : Address) :
    Outcome Word :=
  if env.sender ≠ state.owner then .error (.ownableUnauthorizedAccount env.sender)
  else if newVerifier = 0 then .error .zeroAddressVerifier
  else .ok ({ state with verifier := newVerifier }, [.verifierUpdated state.verifier newVerifier])

def changeOwner (env : Env Word) (state : Registry Word) (newOwner : Address) : Outcome Word :=
  if env.sender ≠ state.owner then .error (.ownableUnauthorizedAccount env.sender)
  else .ok ({ state with owner := newOwner }, [])

/-- One transaction. -/
def transact (state : Registry Word) (input : Env Word × RegistryCall Word) : Outcome Word :=
  match input.2 with
  | .submitBatch merkleRoot log10 log8 => submitBatch digests input.1 state merkleRoot log10 log8
  | .submitBatchWithNonces merkleRoot log10 log8 senders newNonces =>
      submitBatchWithNonces digests input.1 state merkleRoot log10 log8 senders newNonces
  | .setVerifier newVerifier => setVerifier input.1 state newVerifier
  | .changeOwner newOwner => changeOwner input.1 state newOwner

/-- The (sender, nonce) pairs a transaction submits. -/
def submittedNonces (call : RegistryCall Word) : List (Bytes32 × U64) :=
  match call with
  | .submitBatchWithNonces _ _ _ senders newNonces => senders.zip newNonces
  | _ => []

/-- A successful transaction passed the nonce loop and wrote the pairs it submitted. -/
theorem transact_nonces {digests : Digests Word} {state next : Registry Word}
    {input : Env Word × RegistryCall Word} {events : List (RegistryEvent Word)}
    (taken : transact digests state input = .ok (next, events)) :
    (checkNonces state.senderNonces (submittedNonces input.2) :
        Except (RegistryError Word) Unit) = .ok () ∧
      next.senderNonces = writeAll state.senderNonces (submittedNonces input.2) := by
  rcases input with ⟨env, call⟩
  cases call with
  | submitBatch merkleRoot log10 log8 =>
      change submitBatch digests env state merkleRoot log10 log8 = _ at taken
      unfold submitBatch at taken
      split_ifs at taken
      split at taken
      case h_1 => cases taken
      case h_2 =>
        cases taken
        exact ⟨rfl, rfl⟩
  | submitBatchWithNonces merkleRoot log10 log8 senders newNonces =>
      change submitBatchWithNonces digests env state merkleRoot log10 log8 senders newNonces = _
        at taken
      unfold submitBatchWithNonces at taken
      split_ifs at taken
      split at taken
      case h_1 => cases taken
      case h_2 checked =>
        split at taken
        case h_1 => cases taken
        case h_2 =>
          cases taken
          exact ⟨checked, rfl⟩
  | setVerifier newVerifier =>
      change setVerifier env state newVerifier = _ at taken
      unfold setVerifier at taken
      split_ifs at taken
      cases taken
      exact ⟨rfl, rfl⟩
  | changeOwner newOwner =>
      change changeOwner env state newOwner = _ at taken
      unfold changeOwner at taken
      split_ifs at taken
      cases taken
      exact ⟨rfl, rfl⟩

end Registry

end V5
end Contracts
end QLSA
