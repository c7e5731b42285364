import QLSA.Contracts.BatchRegistryV5
import QLSA.Contracts.RegistryRuns
import QLSA.Core.Batch

namespace QLSA
namespace Contracts

open QLSA.Core Stwo Recursive Machine

/-!
# Batches submitted with their nonces

The node submits a batch with the highest nonce of each of its senders.  The
registries compare only this nonce with the stored one, so a batch that also
contains a transaction finalized before is accepted as soon as its sender has
a new one in it.

What replay protection uses of a registry is said by `RaisesNonces`, which both
registries satisfy.  From it, by induction on the run: when every transaction
of every accepted batch lies above the nonce stored for its sender, no
transaction is finalized twice.
-/

/-! ## From a batch to the arguments of a call -/

/-- The number 32 bytes spell. -/
def wordOfBytes (bytes : Bytes) : Bytes32 :=
  BitVec.ofNat 256 (bytes.foldl (fun value byte => 256 * value + byte.toNat) 0)

/-- One entry as call arguments; other key lengths and larger nonces are refused. -/
def encodeEntry (entry : Bytes × ℕ) : Option (Bytes32 × U64) :=
  if fits : entry.1.length = 32 ∧ entry.2 < 2 ^ 64 then
    some (wordOfBytes entry.1, ⟨entry.2, fits.2⟩)
  else none

/-- The on-chain identifier of a transaction's sender. -/
def senderId (tx : Transaction) : Bytes32 := wordOfBytes (bytesOfHex tx.sender)

/-- Sender and nonce of a transaction. -/
def noncePair (tx : Transaction) : Bytes32 × ℕ := (senderId tx, tx.nonce)

/-- The entries submitted with a batch. -/
def batchEntries (txs : List Transaction) : Option (List (Bytes32 × U64)) :=
  (buildSenderNonces txs).mapM encodeEntry

theorem mem_of_mapM {Source Target : Type*} {encode : Source → Option Target}
    {sources : List Source} {targets : List Target} (encoded : sources.mapM encode = some targets)
    {source : Source} (member : source ∈ sources) :
    ∃ target ∈ targets, encode source = some target := by
  induction sources generalizing targets with
  | nil => exact absurd member List.not_mem_nil
  | cons first rest ih =>
      rw [List.mapM_cons] at encoded
      rcases Option.bind_eq_some_iff.mp encoded with ⟨head, atHead, more⟩
      rcases Option.bind_eq_some_iff.mp more with ⟨tail, atTail, made⟩
      cases made
      rcases List.mem_cons.mp member with rfl | later
      · exact ⟨head, List.mem_cons_self, atHead⟩
      · rcases ih atTail later with ⟨target, inside, found⟩
        exact ⟨target, List.mem_cons_of_mem head inside, found⟩

/-- Every transaction lies below an entry submitted for its sender. -/
theorem batchEntries_above {txs : List Transaction} {entries : List (Bytes32 × U64)}
    (encoded : batchEntries txs = some entries) {tx : Transaction} (member : tx ∈ txs) :
    ∃ nonce ∈ valuesOf (senderId tx) entries, tx.nonce < nonce.val := by
  have below := nonce_lt_buildSenderNonces member
  have listed := NonceDict.mem_of_get (lt_of_le_of_lt (Nat.zero_le tx.nonce) below)
  rcases mem_of_mapM encoded listed with ⟨target, inside, found⟩
  unfold encodeEntry at found
  split at found
  case isTrue fits =>
    cases found
    exact ⟨_, mem_valuesOf.mpr inside, below⟩
  case isFalse => cases found

/-! ## Registries that raise nonces -/

section RaisesNonces

variable {State Call Output Error : Type*}

/-- A successful call enters nonces above the stored ones, in increasing order
for each sender, and stores the last of them. -/
structure RaisesNonces (transition : State → Call → Except Error (State × Output))
    (stored : State → Bytes32 → U64) (entries : Call → List (Bytes32 × U64)) : Prop where
  increasing : ∀ {state next call output}, transition state call = .ok (next, output) →
    ∀ sender, (valuesOf sender (entries call)).Pairwise (· < ·) ∧
      ∀ nonce ∈ valuesOf sender (entries call), stored state sender < nonce
  written : ∀ {state next call output}, transition state call = .ok (next, output) →
    stored next = writeAll (stored state) (entries call)

variable {transition : State → Call → Except Error (State × Output)} {stored : State → Bytes32 → U64}
  {entries : Call → List (Bytes32 × U64)}

/-- The stored nonce of a sender after a call bounds the entered ones and the one before. -/
theorem RaisesNonces.le_stored (raises : RaisesNonces transition stored entries)
    {state next : State} {call : Call} {output : Output}
    (taken : transition state call = .ok (next, output)) (sender : Bytes32) :
    stored state sender ≤ stored next sender ∧
      ∀ nonce ∈ valuesOf sender (entries call), nonce ≤ stored next sender := by
  rcases raises.increasing taken sender with ⟨ascending, above⟩
  rw [raises.written taken, writeAll_apply]
  constructor
  · cases last : (valuesOf sender (entries call)).getLast? with
    | none => exact le_rfl
    | some nonce => exact (above nonce (List.mem_of_getLast? last)).le
  · intro nonce member
    exact le_getLast_of_pairwise ascending member _

/-- Calls with the transactions they finalize; calls of others carry none. -/
def posted (transition : State → Call → Except Error (State × Output)) :
    State → Call × List Transaction → Except Error (State × Output) :=
  fun state posting => transition state posting.1

/-- No pair of sender and nonce occurs in two different accepted submissions. -/
def NeverRepeats (log : List (Receipt State (Call × List Transaction) Output)) : Prop :=
  (log.map fun receipt => receipt.input.2.map noncePair).Pairwise List.Disjoint

/-- Every transaction, not only the last of its sender, lies above the stored nonce. -/
def AllAbove (stored : Bytes32 → U64) (txs : List Transaction) : Prop :=
  ∀ tx ∈ txs, (stored (senderId tx)).val < tx.nonce + 1

instance (stored : Bytes32 → U64) (txs : List Transaction) : Decidable (AllAbove stored txs) :=
  inferInstanceAs (Decidable (∀ tx ∈ txs, (stored (senderId tx)).val < tx.nonce + 1))

/-- The invariant of a run: the pairs finalized so far do not repeat and lie
below the stored nonces. -/
structure PairsTracked (stored : Bytes32 → U64)
    (log : List (Receipt State (Call × List Transaction) Output)) : Prop where
  apart : NeverRepeats log
  below : ∀ receipt ∈ log, ∀ tx ∈ receipt.input.2, tx.nonce + 1 ≤ (stored (senderId tx)).val

/-- The step lemma: a batch wholly above the stored nonces keeps the pairs tracked. -/
theorem PairsTracked.step (raises : RaisesNonces transition stored entries)
    {state next : State} {posting : Call × List Transaction} {output : Output}
    {log : List (Receipt State (Call × List Transaction) Output)}
    (tracked : PairsTracked (stored state) log)
    (taken : posted transition state posting = .ok (next, output))
    (submits : posting.2 = [] ∨ batchEntries posting.2 = some (entries posting.1))
    (above : AllAbove (stored state) posting.2) :
    PairsTracked (stored next) (log ++ [⟨state, posting, next, output⟩]) := by
  have grown := raises.le_stored taken
  constructor
  · unfold NeverRepeats
    rw [List.map_append]
    refine List.pairwise_append.mpr ⟨tracked.apart, List.pairwise_singleton _ _, ?_⟩
    intro earlier fromLog latest fromStep pair early late
    rcases List.mem_map.mp fromLog with ⟨receipt, member, rfl⟩
    rcases List.mem_map.mp early with ⟨old, inOld, rfl⟩
    rw [List.map_cons, List.map_nil, List.mem_singleton] at fromStep
    subst fromStep
    rcases List.mem_map.mp late with ⟨tx, inBatch, same⟩
    -- the old one is at most the stored nonce, the new one above it
    have sameSender : senderId tx = senderId old := congrArg Prod.fst same
    have sameNonce : tx.nonce = old.nonce := congrArg Prod.snd same
    have low := tracked.below receipt member old inOld
    have high := above tx inBatch
    rw [sameSender, sameNonce] at high
    omega
  · intro receipt member tx inside
    rcases List.mem_append.mp member with before | now
    · have low := tracked.below receipt before tx inside
      have raised : (stored state (senderId tx)).val ≤ (stored next (senderId tx)).val :=
        (grown (senderId tx)).1
      exact low.trans raised
    · rw [List.mem_singleton] at now
      subst now
      rcases submits with none | encoded
      · rw [show posting.2 = [] from none] at inside
        exact absurd inside List.not_mem_nil
      · rcases batchEntries_above encoded inside with ⟨nonce, entered, larger⟩
        have bounded : nonce.val ≤ (stored next (senderId tx)).val :=
          (grown (senderId tx)).2 nonce entered
        exact larger.trans_le bounded

/-- The run lemma. -/
theorem RaisesNonces.neverRepeats (raises : RaisesNonces transition stored entries)
    (initial : State) (postings : List (Call × List Transaction))
    (submits : ∀ posting ∈ postings,
      posting.2 = [] ∨ batchEntries posting.2 = some (entries posting.1))
    (above : ∀ receipt ∈ receipts (posted transition) initial postings,
      AllAbove (stored receipt.before) receipt.input.2) :
    NeverRepeats (receipts (posted transition) initial postings) := by
  suffices tracked : PairsTracked (stored (run (posted transition) initial postings))
      (receipts (posted transition) initial postings) from tracked.apart
  revert above
  refine run_induction (posted transition)
    (motive := fun state log =>
      (∀ receipt ∈ log, AllAbove (stored receipt.before) receipt.input.2) →
        PairsTracked (stored state) log) ?_ ?_
  · exact fun _ => ⟨List.Pairwise.nil, fun _ member => absurd member List.not_mem_nil⟩
  · intro state log posting next output tracked member taken all
    have earlier : ∀ receipt ∈ log, AllAbove (stored receipt.before) receipt.input.2 :=
      fun receipt inside => all receipt (List.mem_append_left _ inside)
    have latest := all ⟨state, posting, next, output⟩
      (List.mem_append_right _ (List.mem_singleton_self _))
    exact (tracked earlier).step raises taken (submits posting member) latest

end RaisesNonces

/-! ## The two registries -/

section Registries

variable {Word : Type*} [DecidableEq Word] {digests : Digests Word}

theorem Effect.senderNonces {env : Env Word} {state next : Registry Word}
    {call : RegistryCall Word} (effect : Effect digests env state call next) :
    (checkNonces state.senderNonces (submittedNonces call) :
        Except (RegistryError Word) Unit) = .ok () ∧
      next.senderNonces = writeAll state.senderNonces (submittedNonces call) := by
  cases effect with
  | submitBatchWithNonces mapping checked guards => exact ⟨checked, rfl⟩
  | submitBatch guards => exact ⟨rfl, rfl⟩
  | submitNonceTransition => exact ⟨rfl, rfl⟩
  | setVerifier => exact ⟨rfl, rfl⟩
  | changeOwner => exact ⟨rfl, rfl⟩

theorem raisesNonces :
    RaisesNonces (transact digests) Registry.senderNonces
      (fun input => submittedNonces input.2) where
  increasing taken := checkNonces_ok (transact_ok taken).senderNonces.1
  written taken := (transact_ok taken).senderNonces.2

theorem V5.raisesNonces :
    RaisesNonces (V5.transact digests) V5.Registry.senderNonces
      (fun input => V5.submittedNonces input.2) where
  increasing taken := checkNonces_ok (V5.transact_nonces taken).1
  written taken := (V5.transact_nonces taken).2

/-- A transaction of someone else, or the submission of a batch that was
created, with its senders and their nonces. -/
def Submits (crypto : Crypto) (posting : (Env Word × RegistryCall Word) × List Transaction) :
    Prop :=
  posting.2 = [] ∨
    (∃ algorithm batch, createBatch crypto posting.2 algorithm = .ok batch) ∧
    ∃ merkleRoot txListRoot bundle10 bundle8 entries,
      batchEntries posting.2 = some entries ∧
      posting.1.2 = .submitBatchWithNonces merkleRoot txListRoot bundle10 bundle8
        (entries.map Prod.fst) (entries.map Prod.snd)

def V5.Submits (crypto : Crypto)
    (posting : (V5.Env Word × V5.RegistryCall Word) × List Transaction) : Prop :=
  posting.2 = [] ∨
    (∃ algorithm batch, createBatch crypto posting.2 algorithm = .ok batch) ∧
    ∃ merkleRoot log10 log8 entries,
      batchEntries posting.2 = some entries ∧
      posting.1.2 = .submitBatchWithNonces merkleRoot log10 log8
        (entries.map Prod.fst) (entries.map Prod.snd)

omit [DecidableEq Word] in
theorem Submits.entries {crypto : Crypto}
    {posting : (Env Word × RegistryCall Word) × List Transaction}
    (submits : Submits crypto posting) :
    posting.2 = [] ∨ batchEntries posting.2 = some (submittedNonces posting.1.2) := by
  rcases submits with foreign | ⟨-, _, _, _, _, entries, encoded, called⟩
  · exact Or.inl foreign
  · right
    rw [encoded, called]
    have zipped : entries = (entries.map Prod.fst).zip (entries.map Prod.snd) :=
      List.zip_of_prod rfl rfl
    exact congrArg some zipped

omit [DecidableEq Word] in
theorem V5.Submits.entries {crypto : Crypto}
    {posting : (V5.Env Word × V5.RegistryCall Word) × List Transaction}
    (submits : V5.Submits crypto posting) :
    posting.2 = [] ∨ batchEntries posting.2 = some (V5.submittedNonces posting.1.2) := by
  rcases submits with foreign | ⟨-, _, _, _, entries, encoded, called⟩
  · exact Or.inl foreign
  · right
    rw [encoded, called]
    have zipped : entries = (entries.map Prod.fst).zip (entries.map Prod.snd) :=
      List.zip_of_prod rfl rfl
    exact congrArg some zipped

end Registries

/-- In every run of either registry whose accepted batches lie wholly above the stored nonces, no
transaction is finalized twice.  The run starts from any state and calls any entry points in any
order, with any verifier contracts.  The contracts are told the last nonce of each sender only, so
the condition on the batch behind it is one that they cannot check. -/
theorem batches_above_stored_never_repeat {Word : Type*} [DecidableEq Word]
    (digests : Digests Word) (crypto : Crypto) :
    (∀ (registry : Registry Word) (postings : List ((Env Word × RegistryCall Word) ×
          List Transaction)),
        (∀ posting ∈ postings, Submits crypto posting) →
        (∀ receipt ∈ receipts (posted (transact digests)) registry postings,
          AllAbove receipt.before.senderNonces receipt.input.2) →
        NeverRepeats (receipts (posted (transact digests)) registry postings)) ∧
      ∀ (registry : V5.Registry Word) (postings : List ((V5.Env Word × V5.RegistryCall Word) ×
          List Transaction)),
        (∀ posting ∈ postings, V5.Submits crypto posting) →
        (∀ receipt ∈ receipts (posted (V5.transact digests)) registry postings,
          AllAbove receipt.before.senderNonces receipt.input.2) →
        NeverRepeats (receipts (posted (V5.transact digests)) registry postings) := by
  constructor
  · intro registry postings submits above
    exact raisesNonces.neverRepeats registry postings
      (fun posting member => (submits posting member).entries) above
  · intro registry postings submits above
    exact V5.raisesNonces.neverRepeats registry postings
      (fun posting member => (submits posting member).entries) above

/-! ## A repeated transaction -/

/-- A crypto library that accepts every signature. -/
def sampleCrypto : Crypto where
  verify := fun _ _ _ _ => true
  sha3_256 := id
  sha3_512 := id

/-- A signed transaction of one sender. -/
def sampleTransaction (nonce : ℕ) (small : nonce ≤ uint64Max) : Transaction where
  sender := List.replicate 64 'a'
  recipient := List.replicate 64 'b'
  amount := 1000
  nonce := nonce
  publicKey := List.replicate 1312 1
  signature := some [1]
  amount_pos := by decide
  amount_le := by decide
  nonce_le := small
  sender_hex := by decide
  recipient_hex := by decide
  publicKey_size := List.length_replicate ▸ List.mem_cons_self

def firstBatch : List Transaction :=
  [sampleTransaction 0 (by decide), sampleTransaction 1 (by decide)]

/-- The first transaction again, below a new one. -/
def secondBatch : List Transaction :=
  [sampleTransaction 0 (by decide), sampleTransaction 2 (by decide)]

/-- The bundle of a batch root, cross-bound with the one of the other trace root. -/
def boundBundle (merkleRoot traceRoot otherTraceRoot : List ℕ) : RecursiveBundle (List ℕ) :=
  { crossBoundBundle traceRoot otherTraceRoot with
    inner := { (crossBoundBundle traceRoot otherTraceRoot).inner with
      batchRoot := crossBoundRoot freeDigests merkleRoot otherTraceRoot } }

/-- The submission of a batch under a root. -/
def postBatch (merkleRoot : List ℕ) (txs : List Transaction) :
    (Env (List ℕ) × RegistryCall (List ℕ)) × List Transaction :=
  let entries := (batchEntries txs).getD []
  ((acceptingEnv, .submitBatchWithNonces merkleRoot [6] (boundBundle merkleRoot [10] [8])
    (boundBundle merkleRoot [8] [10]) (entries.map Prod.fst) (entries.map Prod.snd)), txs)

theorem postBatch_submits {txs : List Transaction} {batch : Batch} (merkleRoot : List ℕ)
    (created : createBatch sampleCrypto txs "ML-DSA-44" = .ok batch)
    (encoded : (batchEntries txs).isSome) :
    Submits sampleCrypto (postBatch merkleRoot txs) := by
  rcases Option.isSome_iff_exists.mp encoded with ⟨entries, found⟩
  refine Or.inr ⟨⟨"ML-DSA-44", batch, created⟩, merkleRoot, [6], boundBundle merkleRoot [10] [8],
    boundBundle merkleRoot [8] [10], entries, found, ?_⟩
  simp [postBatch, found]

theorem repeated_transaction_accepted :
    let postings := [postBatch [1] firstBatch, postBatch [2] secondBatch]
    let log := receipts (posted (transact freeDigests)) (emptyRegistry freeDigests 1 1) postings
    (∀ posting ∈ postings, Submits sampleCrypto posting) ∧ ¬ NeverRepeats log := by
  intro postings log
  constructor
  · intro posting member
    rcases List.mem_cons.mp member with rfl | member
    · exact postBatch_submits [1] rfl (by decide +kernel)
    · rcases List.mem_singleton.mp member with rfl
      exact postBatch_submits [2] rfl (by decide +kernel)
  · have accepted : log.map (fun receipt => receipt.input.2.map noncePair) =
        [firstBatch.map noncePair, secondBatch.map noncePair] := by
      decide +kernel
    intro apart
    unfold NeverRepeats at apart
    rw [accepted] at apart
    have disjoint := (List.pairwise_cons.mp apart).1 _ (List.mem_singleton_self _)
    exact disjoint List.mem_cons_self List.mem_cons_self

/-- A batch wholly above the first one. -/
def thirdBatch : List Transaction := [sampleTransaction 2 (by decide)]

/-- The direct-proof registry as deployed. -/
def sampleRegistryV5 : V5.Registry (List ℕ) where
  owner := 1
  verifier := 1
  finalizedBatches := fun _ => false
  batchTimestamps := fun _ => 0
  batchCommitmentsLog10 := fun _ => 0
  batchCommitmentsLog8 := fun _ => 0
  senderNonces := fun _ => 0

/-- The submission of a batch to it. -/
def postBatchV5 (merkleRoot : List ℕ) (txs : List Transaction) :
    (V5.Env (List ℕ) × V5.RegistryCall (List ℕ)) × List Transaction :=
  let entries := (batchEntries txs).getD []
  let bundle (traceRoot : List ℕ) : V5.ProofBundle (List ℕ) := ⟨⟨[1], traceRoot⟩, 7, []⟩
  ((⟨1, 1700000000, fun _ _ _ _ => some true⟩,
    .submitBatchWithNonces merkleRoot (bundle [10]) (bundle [8]) (entries.map Prod.fst)
      (entries.map Prod.snd)), txs)

theorem postBatchV5_submits {txs : List Transaction} {batch : Batch} (merkleRoot : List ℕ)
    (created : createBatch sampleCrypto txs "ML-DSA-44" = .ok batch)
    (encoded : (batchEntries txs).isSome) :
    V5.Submits sampleCrypto (postBatchV5 merkleRoot txs) := by
  rcases Option.isSome_iff_exists.mp encoded with ⟨entries, found⟩
  refine Or.inr ⟨⟨"ML-DSA-44", batch, created⟩, merkleRoot, ⟨⟨[1], [10]⟩, 7, []⟩,
    ⟨⟨[1], [8]⟩, 7, []⟩, entries, found, ?_⟩
  simp [postBatchV5, found]

theorem batches_above_stored_never_repeat_sample :
    NeverRepeats (receipts (posted (transact freeDigests)) (emptyRegistry freeDigests 1 1)
        [postBatch [1] firstBatch, postBatch [2] thirdBatch]) ∧
      NeverRepeats (receipts (posted (V5.transact freeDigests)) sampleRegistryV5
        [postBatchV5 [1] firstBatch, postBatchV5 [2] thirdBatch]) := by
  have first : (batchEntries firstBatch).isSome := by decide +kernel
  have third : (batchEntries thirdBatch).isSome := by decide +kernel
  constructor
  · apply (batches_above_stored_never_repeat freeDigests sampleCrypto).1
    · intro posting member
      rcases List.mem_cons.mp member with rfl | member
      · exact postBatch_submits [1] rfl first
      · rcases List.mem_singleton.mp member with rfl
        exact postBatch_submits [2] rfl third
    · decide +kernel
  · apply (batches_above_stored_never_repeat freeDigests sampleCrypto).2
    · intro posting member
      rcases List.mem_cons.mp member with rfl | member
      · exact postBatchV5_submits [1] rfl first
      · rcases List.mem_singleton.mp member with rfl
        exact postBatchV5_submits [2] rfl third
    · decide +kernel

end Contracts
end QLSA
