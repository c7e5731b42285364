import QLSA.Machine.KeyedLog
import QLSA.Machine.Run
import QLSA.Recursive.NonceStatement

namespace QLSA
namespace Contracts

open Stwo Recursive Machine

/-!
# The recursive-proof batch registry

The registry finalizes batches from two cross-bound recursive bundles and
protects nonces in one of two ways fixed at deployment: by a mapping from
senders to nonces, or by a single root that moves with a proved transition.

Roots and digests are elements of a type `Word`.  The contract computes
digests only as Keccak of packed fields, so `Digests` is all it needs to know
about words; the deployed registry takes them to be `bytes32`.  Senders are
read byte by byte and stay concrete.  A call runs in an environment that
fixes its caller, the block's timestamp and the answers of the verifier
contract.  Those answers are arbitrary: the verifier is called through
`view` functions and can neither write to the registry nor re-enter it, but it
may accept, reject or revert as it pleases.
-/

abbrev Address := BitVec 160

abbrev Bytes16 := BitVec 128

/-- One argument of a packed encoding. -/
inductive PackedField (Word : Type*) where
  | uint32 (value : ℕ)
  | uint64 (value : U64)
  | bytes32 (value : Word)
  deriving DecidableEq

/-- The digest type: its zero word and Keccak of packed fields. -/
structure Digests (Word : Type*) where
  zero : Word
  keccakPacked : List (PackedField Word) → Word

/-- Bytes of a packed encoding over `bytes32`, big-endian. -/
def PackedField.bytes : PackedField Bytes32 → List (BitVec 8)
  | .uint32 value => (List.range 4).reverse.map fun i => BitVec.ofNat 8 (value >>> (8 * i))
  | .uint64 value => (List.range 8).reverse.map fun i => BitVec.ofNat 8 (value.val >>> (8 * i))
  | .bytes32 value => (List.range 32).reverse.map fun i => BitVec.ofNat 8 (value.toNat >>> (8 * i))

/-- The digests of the deployed registry, from the Keccak function. -/
def Digests.ofKeccak (keccak256 : List (BitVec 8) → Bytes32) : Digests Bytes32 where
  zero := 0
  keccakPacked := fun fields => keccak256 (fields.flatMap PackedField.bytes)

/-- Public fields of the inner proof. -/
structure InnerPublics (Word : Type*) where
  traceRoot : Word
  oodsComboPos : ℕ
  oodsComboNeg : ℕ
  compRoot : Word
  friLayerRoots : List Word
  batchRoot : Word
  treeDepth : ℕ
  nQueries : ℕ

/-- One group's recursive bundle. -/
structure RecursiveBundle (Word : Type*) where
  inner : InnerPublics Word
  outerProof : List (BitVec 8)
  outerCommitment : Bytes16
  outerHints : List (BitVec 8)
  lastLayerEvals : List ℕ

/-- Storage. Mappings are total functions with the default as initial value. -/
structure Registry (Word : Type*) where
  owner : Address
  verifier : Address
  finalizedBatches : Word → Bool
  batchTimestamps : Word → ℕ
  batchCommitmentsLog10 : Word → Bytes16
  batchCommitmentsLog8 : Word → Bytes16
  batchTxListRoots : Word → Word
  senderNonces : Bytes32 → U64
  accumulatorMode : Bool
  nonceStateRoot : Word
  nonceTreeDepth : ℕ

inductive RegistryEvent (Word : Type*) where
  | batchFinalized (merkleRoot : Word) (commitmentLog10 commitmentLog8 : Bytes16)
      (txListRoot : Word) (timestamp : ℕ)
  | verifierUpdated (oldVerifier newVerifier : Address)
  | nonceAdvanced (sender : Bytes32) (newNonce : U64)
  | nonceStateAdvanced (oldRoot newRoot : Word) (updates : ℕ)

inductive RegistryError (Word : Type*) where
  | invalidMerkleRoot
  | batchAlreadyFinalized (merkleRoot : Word)
  | log10ProofInvalid
  | log8ProofInvalid
  | zeroAddressVerifier
  | senderNonceTooLow (sender : Bytes32) (provided expected : U64)
  | noncesLengthMismatch
  | senderCountExceedsLimit
  | crossBindingMismatch
  | wrongNoncePath
  | nonceRootMismatch (provided stored : Word)
  | nonceBindingMismatch
  | nonceProofInvalid
  | nonceIndexOutOfRange (index : ℕ)
  | nonceSlotMismatch (index provided expected : ℕ)
  | nonceDepthOutOfRange
  /-- The caller is not the owner. -/
  | ownableUnauthorizedAccount (account : Address)
  /-- The initial owner is the zero address. -/
  | ownableInvalidOwner (owner : Address)
  /-- Checked arithmetic failed. -/
  | panicOverflow
  /-- The verifier contract reverted. -/
  | verifierReverted

/-- What a call finds outside the registry: who calls, when, and what the verifier contract
answers.  The answers are arbitrary and may differ from call to call, also within one transaction.
-/
structure Env (Word : Type*) where
  sender : Address
  timestamp : ℕ
  /-- Answer to the n-th verifier call of the transaction; `none` is a revert. -/
  verifyRecursive : ℕ → Address → RecursiveBundle Word → Option Bool

/-- The entry points. `changeOwner` stands for the inherited transfer and
renouncement of ownership, which touch only the owner. -/
inductive RegistryCall (Word : Type*) where
  | submitBatch (merkleRoot txListRoot : Word) (bundle10 bundle8 : RecursiveBundle Word)
  | submitBatchWithNonces (merkleRoot txListRoot : Word)
      (bundle10 bundle8 : RecursiveBundle Word) (senders : List Bytes32) (newNonces : List U64)
  | submitNonceTransition (nonceBundle : RecursiveBundle Word) (senders : List Bytes32)
      (updates : List (NonceUpdate Word)) (newNonceRoot : Word)
  | setVerifier (newVerifier : Address)
  | changeOwner (newOwner : Address)

section Registry

variable {Word : Type*} [DecidableEq Word] (digests : Digests Word)

/-- Result of a call: the new storage and the emitted events. -/
abbrev Outcome (Word : Type*) :=
  Except (RegistryError Word) (Registry Word × List (RegistryEvent Word))

def maxSenders : ℕ := 3000

/-! ## Deployment -/

/-- Storage after the constructor's common part. -/
def emptyRegistry (initialOwner verifier : Address) : Registry Word where
  owner := initialOwner
  verifier := verifier
  finalizedBatches := fun _ => false
  batchTimestamps := fun _ => 0
  batchCommitmentsLog10 := fun _ => 0
  batchCommitmentsLog8 := fun _ => 0
  batchTxListRoots := fun _ => digests.zero
  senderNonces := fun _ => 0
  accumulatorMode := false
  nonceStateRoot := digests.zero
  nonceTreeDepth := 0

/-- The constructor.  A depth of zero deploys the mapping and asks for the zero root; any other
depth of at most 28 deploys the accumulator with a root that is not zero. -/
def deploy (initialOwner verifier : Address) (initialRoot : Word) (nonceDepth : Fin 256) :
    Except (RegistryError Word) (Registry Word) :=
  if initialOwner = 0 then .error (.ownableInvalidOwner initialOwner)
  else if verifier = 0 then .error .zeroAddressVerifier
  else if nonceDepth = 0 then
    if initialRoot ≠ digests.zero then .error (.nonceRootMismatch initialRoot digests.zero)
    else .ok (emptyRegistry digests initialOwner verifier)
  else if 28 < nonceDepth.val then .error .nonceDepthOutOfRange
  else if initialRoot = digests.zero then
    .error (.nonceRootMismatch initialRoot digests.zero)
  else
    .ok { emptyRegistry digests initialOwner verifier with
      accumulatorMode := true
      nonceTreeDepth := nonceDepth.val
      nonceStateRoot := initialRoot }

/-! ## Bindings -/

def crossBoundRoot (merkleRoot otherTraceRoot : Word) : Word :=
  digests.keccakPacked [.bytes32 merkleRoot, .bytes32 otherTraceRoot]

/-- The first four bytes of a sender, little-endian. -/
def senderPrefix (sender : Bytes32) : ℕ :=
  let byte (i : ℕ) := sender.toNat >>> (8 * (31 - i)) % 2 ^ 8
  byte 0 ||| byte 1 <<< 8 ||| byte 2 <<< 16 ||| byte 3 <<< 24

/-- The slot a sender owns: the low bits of its prefix. -/
def nonceSlot (nonceTreeDepth : ℕ) (sender : Bytes32) : ℕ :=
  senderPrefix sender &&& ((1 <<< nonceTreeDepth - 1) % 2 ^ 32)

/-- Fields one update contributes to the binding. -/
def packedUpdate (update : NonceUpdate Word) : List (PackedField Word) :=
  [.uint32 update.index, .uint64 update.oldNonce, .uint64 update.newNonce,
    .bytes32 update.postRoot]

def nonceStatementBinding (oldRoot newRoot : Word) (depth : ℕ)
    (updates : List (NonceUpdate Word)) : Word :=
  digests.keccakPacked
    ([.uint32 (updates.length % 2 ^ 32), .uint32 depth, .bytes32 oldRoot, .bytes32 newRoot] ++
      updates.flatMap packedUpdate)

/-! ## Finalization -/

/-- The writes of a finalized batch. -/
def Registry.recordBatch (state : Registry Word) (merkleRoot txListRoot : Word) (timestamp : ℕ)
    (commitmentLog10 commitmentLog8 : Bytes16) : Registry Word :=
  { state with
    finalizedBatches := Function.update state.finalizedBatches merkleRoot true
    batchTimestamps := Function.update state.batchTimestamps merkleRoot timestamp
    batchCommitmentsLog10 := Function.update state.batchCommitmentsLog10 merkleRoot commitmentLog10
    batchCommitmentsLog8 := Function.update state.batchCommitmentsLog8 merkleRoot commitmentLog8
    batchTxListRoots := Function.update state.batchTxListRoots merkleRoot txListRoot }

/-- The private finalizer shared by both batch entry points: the guards on the root, the two
cross-bindings, and the answers of the verifier contract, which come from the environment of the
call. -/
def finalize (env : Env Word) (state : Registry Word) (merkleRoot txListRoot : Word)
    (bundle10 bundle8 : RecursiveBundle Word) : Outcome Word :=
  if merkleRoot = digests.zero then .error .invalidMerkleRoot
  else if state.finalizedBatches merkleRoot then .error (.batchAlreadyFinalized merkleRoot)
  else if bundle10.inner.batchRoot ≠ crossBoundRoot digests merkleRoot bundle8.inner.traceRoot then
    .error .crossBindingMismatch
  else if bundle8.inner.batchRoot ≠ crossBoundRoot digests merkleRoot bundle10.inner.traceRoot then
    .error .crossBindingMismatch
  else
    match env.verifyRecursive 0 state.verifier bundle10 with
    | none => .error .verifierReverted
    | some false => .error .log10ProofInvalid
    | some true =>
      match env.verifyRecursive 1 state.verifier bundle8 with
      | none => .error .verifierReverted
      | some false => .error .log8ProofInvalid
      | some true =>
        .ok (state.recordBatch merkleRoot txListRoot env.timestamp bundle10.outerCommitment
            bundle8.outerCommitment,
          [.batchFinalized merkleRoot bundle10.outerCommitment bundle8.outerCommitment txListRoot
            env.timestamp])

def submitBatch (env : Env Word) (state : Registry Word) (merkleRoot txListRoot : Word)
    (bundle10 bundle8 : RecursiveBundle Word) : Outcome Word :=
  finalize digests env state merkleRoot txListRoot bundle10 bundle8

/-! ## The mapping path -/

/-- The revert for a nonce that does not exceed `current`; the expected value
is computed with checked arithmetic. -/
def nonceTooLow (sender : Bytes32) (provided current : U64) : RegistryError Word :=
  if current.val + 1 < 2 ^ 64 then .senderNonceTooLow sender provided (current + 1)
  else .panicOverflow

/-- Inner loop: later entries of the same sender must exceed this one. -/
def checkLater (sender : Bytes32) (nonce : U64) :
    List (Bytes32 × U64) → Except (RegistryError Word) Unit
  | [] => .ok ()
  | (other, later) :: rest =>
      if sender = other ∧ later ≤ nonce then .error (nonceTooLow other later nonce)
      else checkLater sender nonce rest

/-- Outer loop: every entry exceeds the stored nonce and its earlier entries. -/
def checkNonces (stored : Bytes32 → U64) :
    List (Bytes32 × U64) → Except (RegistryError Word) Unit
  | [] => .ok ()
  | (sender, nonce) :: rest =>
      if nonce ≤ stored sender then .error (nonceTooLow sender nonce (stored sender))
      else
        match checkLater sender nonce rest with
        | .error error => .error error
        | .ok () => checkNonces stored rest

/-- `submitBatchWithNonces` of the mapping mode.  All nonces are compared before the batch is
finalized, and written afterwards in the order of the arguments. -/
def submitBatchWithNonces (env : Env Word) (state : Registry Word)
    (merkleRoot txListRoot : Word) (bundle10 bundle8 : RecursiveBundle Word)
    (senders : List Bytes32) (newNonces : List U64) : Outcome Word :=
  if state.accumulatorMode then .error .wrongNoncePath
  else if senders.length ≠ newNonces.length then .error .noncesLengthMismatch
  else if maxSenders < senders.length then .error .senderCountExceedsLimit
  else
    match checkNonces state.senderNonces (senders.zip newNonces) with
    | .error error => .error error
    | .ok () =>
      match finalize digests env state merkleRoot txListRoot bundle10 bundle8 with
      | .error error => .error error
      | .ok (finalized, events) =>
        .ok ({ finalized with
            senderNonces := writeAll finalized.senderNonces (senders.zip newNonces) },
          events ++ (senders.zip newNonces).map fun entry => .nonceAdvanced entry.1 entry.2)

/-! ## The accumulator path -/

/-- The loop over the updates, each with its sender. -/
def checkUpdates (nonceTreeDepth : ℕ) :
    ℕ → List (Bytes32 × NonceUpdate Word) → Except (RegistryError Word) Unit
  | _, [] => .ok ()
  | i, (sender, update) :: rest =>
      let expected := nonceSlot nonceTreeDepth sender
      if update.index ≠ expected then .error (.nonceSlotMismatch i update.index expected)
      else if 1 <<< nonceTreeDepth ≤ update.index then .error (.nonceIndexOutOfRange i)
      else if update.newNonce ≤ update.oldNonce then
        .error (nonceTooLow sender update.newNonce update.oldNonce)
      else checkUpdates nonceTreeDepth (i + 1) rest

/-- `submitNonceTransition`: the guards in their order, the loop over the updates, the last root,
the binding of the bundle and the verifier's answer, which may be a revert of its own.  An empty
transition may only keep the root, and asks for no proof. -/
def submitNonceTransition (env : Env Word) (state : Registry Word)
    (nonceBundle : RecursiveBundle Word) (senders : List Bytes32)
    (updates : List (NonceUpdate Word)) (newNonceRoot : Word) : Outcome Word :=
  let oldRoot := state.nonceStateRoot
  let advanced : Outcome Word :=
    .ok ({ state with nonceStateRoot := newNonceRoot },
      [.nonceStateAdvanced oldRoot newNonceRoot updates.length])
  if !state.accumulatorMode then .error .wrongNoncePath
  else if senders.length ≠ updates.length then .error .noncesLengthMismatch
  else if maxSenders < senders.length then .error .senderCountExceedsLimit
  else
    match checkUpdates state.nonceTreeDepth 0 (senders.zip updates) with
    | .error error => .error error
    | .ok () =>
      match updates.getLast? with
      | none =>
        if newNonceRoot ≠ oldRoot then .error (.nonceRootMismatch newNonceRoot oldRoot)
        else advanced
      | some last =>
        if last.postRoot ≠ newNonceRoot then
          .error (.nonceRootMismatch newNonceRoot last.postRoot)
        else if nonceBundle.inner.batchRoot ≠ nonceStatementBinding digests oldRoot newNonceRoot
            state.nonceTreeDepth updates then
          .error .nonceBindingMismatch
        else
          match env.verifyRecursive 0 state.verifier nonceBundle with
          | none => .error .verifierReverted
          | some false => .error .nonceProofInvalid
          | some true => advanced

/-! ## Ownership -/

def setVerifier (env : Env Word) (state : Registry Word) (newVerifier : Address) :
    Outcome Word :=
  if env.sender ≠ state.owner then .error (.ownableUnauthorizedAccount env.sender)
  else if newVerifier = 0 then .error .zeroAddressVerifier
  else .ok ({ state with verifier := newVerifier }, [.verifierUpdated state.verifier newVerifier])

def changeOwner (env : Env Word) (state : Registry Word) (newOwner : Address) : Outcome Word :=
  if env.sender ≠ state.owner then .error (.ownableUnauthorizedAccount env.sender)
  else .ok ({ state with owner := newOwner }, [])

/-- One transaction. -/
def transact (state : Registry Word) (input : Env Word × RegistryCall Word) : Outcome Word :=
  match input.2 with
  | .submitBatch merkleRoot txListRoot bundle10 bundle8 =>
      submitBatch digests input.1 state merkleRoot txListRoot bundle10 bundle8
  | .submitBatchWithNonces merkleRoot txListRoot bundle10 bundle8 senders newNonces =>
      submitBatchWithNonces digests input.1 state merkleRoot txListRoot bundle10 bundle8 senders
        newNonces
  | .submitNonceTransition nonceBundle senders updates newNonceRoot =>
      submitNonceTransition digests input.1 state nonceBundle senders updates newNonceRoot
  | .setVerifier newVerifier => setVerifier input.1 state newVerifier
  | .changeOwner newOwner => changeOwner input.1 state newOwner

end Registry

end Contracts
end QLSA
