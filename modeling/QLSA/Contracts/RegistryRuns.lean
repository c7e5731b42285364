import QLSA.Contracts.BatchRegistryV7

namespace QLSA
namespace Contracts

open Stwo Recursive Machine

/-!
# Runs of the batch registry

What one successful transaction does is said once, by `Effect`: which guards
it passed and which fields it wrote.  Replay protection in mapping mode and
the permanence of finalized batches are invariants of whole runs derived from
it, for every sequence of calls, every caller and every verifier.
-/

variable {Word : Type*} [DecidableEq Word] {digests : Digests Word}

/-! ## Free digests -/

/-- One field of a packed encoding as a self-delimiting list. -/
def encodeField : PackedField (List ℕ) → List ℕ
  | .uint32 value => [0, value]
  | .uint64 value => [1, value.val]
  | .bytes32 value => 2 :: value.length :: value

/-- Digests without any identifications: words are the encodings themselves. -/
def freeDigests : Digests (List ℕ) where
  zero := []
  keccakPacked := fun fields => 2 :: fields.flatMap encodeField

theorem encodeFields_injective {first second : List (PackedField (List ℕ))}
    (same : first.flatMap encodeField = second.flatMap encodeField) : first = second := by
  induction first generalizing second with
  | nil =>
      cases second with
      | nil => rfl
      | cons field rest => cases field <;> simp [encodeField] at same
  | cons field rest ih =>
      cases second with
      | nil => cases field <;> simp [encodeField] at same
      | cons other later =>
          have heads : field = other ∧ rest.flatMap encodeField = later.flatMap encodeField := by
            cases field with
            | uint32 value =>
                cases other with
                | uint32 another => simpa [encodeField] using same
                | uint64 another => simp [encodeField] at same
                | bytes32 another => simp [encodeField] at same
            | uint64 value =>
                cases other with
                | uint64 another => simpa [encodeField, Fin.val_inj] using same
                | uint32 another => simp [encodeField] at same
                | bytes32 another => simp [encodeField] at same
            | bytes32 value =>
                cases other with
                | bytes32 another =>
                    simp only [List.flatMap_cons, encodeField, List.cons_append,
                      List.cons.injEq, true_and] at same
                    obtain ⟨words, tails⟩ := List.append_inj same.2 same.1
                    exact ⟨congrArg PackedField.bytes32 words, tails⟩
                | uint32 another => simp [encodeField] at same
                | uint64 another => simp [encodeField] at same
          rw [heads.1, ih heads.2]

theorem freeDigests_injective : Function.Injective freeDigests.keccakPacked := by
  intro first second same
  exact encodeFields_injective (List.cons.inj same).2

/-! ## Effects of single transactions -/

/-- What the finalizer checked before it wrote. -/
structure FinalizeGuards (digests : Digests Word) (env : Env Word) (state : Registry Word)
    (merkleRoot : Word) (bundle10 bundle8 : RecursiveBundle Word) : Prop where
  nonzero : merkleRoot ≠ digests.zero
  fresh : state.finalizedBatches merkleRoot = false
  bound10 : bundle10.inner.batchRoot =
    crossBoundRoot digests merkleRoot bundle8.inner.traceRoot
  bound8 : bundle8.inner.batchRoot =
    crossBoundRoot digests merkleRoot bundle10.inner.traceRoot
  verified10 : env.verifyRecursive 0 state.verifier bundle10 = some true
  verified8 : env.verifyRecursive 1 state.verifier bundle8 = some true

theorem finalize_ok {env : Env Word} {state next : Registry Word} {merkleRoot txListRoot : Word}
    {bundle10 bundle8 : RecursiveBundle Word} {events : List (RegistryEvent Word)}
    (taken : finalize digests env state merkleRoot txListRoot bundle10 bundle8 =
      .ok (next, events)) :
    FinalizeGuards digests env state merkleRoot bundle10 bundle8 ∧
      next = state.recordBatch merkleRoot txListRoot env.timestamp bundle10.outerCommitment
        bundle8.outerCommitment := by
  unfold finalize at taken
  split_ifs at taken with zero finalized unbound10 unbound8
  split at taken
  · cases taken
  · cases taken
  · next verified10 =>
    split at taken
    · cases taken
    · cases taken
    · next verified8 =>
      cases taken
      exact ⟨⟨zero, by simpa using finalized, not_not.mp unbound10, not_not.mp unbound8,
        verified10, verified8⟩, rfl⟩

/-- Guards and writes of a successful transaction, one case for each entry point. -/
inductive Effect (digests : Digests Word) (env : Env Word) (state : Registry Word) :
    RegistryCall Word → Registry Word → Prop
  | submitBatch {merkleRoot txListRoot : Word} {bundle10 bundle8 : RecursiveBundle Word}
      (guards : FinalizeGuards digests env state merkleRoot bundle10 bundle8) :
      Effect digests env state (.submitBatch merkleRoot txListRoot bundle10 bundle8)
        (state.recordBatch merkleRoot txListRoot env.timestamp bundle10.outerCommitment
          bundle8.outerCommitment)
  | submitBatchWithNonces {merkleRoot txListRoot : Word}
      {bundle10 bundle8 : RecursiveBundle Word} {senders : List Bytes32} {newNonces : List U64}
      (mapping : state.accumulatorMode = false)
      (checked : (checkNonces state.senderNonces (senders.zip newNonces) :
        Except (RegistryError Word) Unit) = .ok ())
      (guards : FinalizeGuards digests env state merkleRoot bundle10 bundle8) :
      Effect digests env state
        (.submitBatchWithNonces merkleRoot txListRoot bundle10 bundle8 senders newNonces)
        { state.recordBatch merkleRoot txListRoot env.timestamp bundle10.outerCommitment
            bundle8.outerCommitment with
          senderNonces := writeAll state.senderNonces (senders.zip newNonces) }
  | submitNonceTransition {nonceBundle : RecursiveBundle Word} {senders : List Bytes32}
      {updates : List (NonceUpdate Word)} {newNonceRoot : Word}
      (accumulator : state.accumulatorMode = true)
      (lengths : senders.length = updates.length)
      (checked : checkUpdates state.nonceTreeDepth 0 (senders.zip updates) = .ok ())
      (empty : updates = [] → newNonceRoot = state.nonceStateRoot)
      (proved : updates ≠ [] →
        updates.getLast?.map NonceUpdate.postRoot = some newNonceRoot ∧
        nonceBundle.inner.batchRoot = nonceStatementBinding digests state.nonceStateRoot
          newNonceRoot state.nonceTreeDepth updates ∧
        env.verifyRecursive 0 state.verifier nonceBundle = some true) :
      Effect digests env state (.submitNonceTransition nonceBundle senders updates newNonceRoot)
        { state with nonceStateRoot := newNonceRoot }
  | setVerifier {newVerifier : Address} (owned : env.sender = state.owner)
      (nonzero : newVerifier ≠ 0) :
      Effect digests env state (.setVerifier newVerifier) { state with verifier := newVerifier }
  | changeOwner {newOwner : Address} (owned : env.sender = state.owner) :
      Effect digests env state (.changeOwner newOwner) { state with owner := newOwner }

theorem submitBatchWithNonces_ok {env : Env Word} {state next : Registry Word}
    {merkleRoot txListRoot : Word} {bundle10 bundle8 : RecursiveBundle Word}
    {senders : List Bytes32} {newNonces : List U64} {events : List (RegistryEvent Word)}
    (taken : submitBatchWithNonces digests env state merkleRoot txListRoot bundle10 bundle8
      senders newNonces = .ok (next, events)) :
    Effect digests env state
      (.submitBatchWithNonces merkleRoot txListRoot bundle10 bundle8 senders newNonces) next := by
  unfold submitBatchWithNonces at taken
  split_ifs at taken with mode
  split at taken
  · cases taken
  · next checked =>
    split at taken
    · cases taken
    · next finalized emitted done =>
      obtain ⟨guards, rfl⟩ := finalize_ok done
      cases taken
      exact .submitBatchWithNonces (by simpa using mode) checked guards

theorem submitNonceTransition_ok {env : Env Word} {state next : Registry Word}
    {nonceBundle : RecursiveBundle Word} {senders : List Bytes32}
    {updates : List (NonceUpdate Word)} {newNonceRoot : Word} {events : List (RegistryEvent Word)}
    (taken : submitNonceTransition digests env state nonceBundle senders updates newNonceRoot =
      .ok (next, events)) :
    Effect digests env state (.submitNonceTransition nonceBundle senders updates newNonceRoot)
      next := by
  unfold submitNonceTransition at taken
  by_cases accumulator : state.accumulatorMode = true
  swap
  · simp [accumulator] at taken
  by_cases lengths : senders.length = updates.length
  swap
  · simp [accumulator, lengths] at taken
  by_cases many : maxSenders < senders.length
  · simp [accumulator, lengths ▸ many, lengths] at taken
  rw [if_neg (by simp [accumulator]), if_neg (not_not.mpr lengths), if_neg many] at taken
  cases checked : checkUpdates state.nonceTreeDepth 0 (senders.zip updates) with
  | error failure =>
      rw [checked] at taken
      cases taken
  | ok done =>
      rw [checked] at taken
      cases found : updates.getLast? with
      | none =>
          have vacant : updates = [] := List.getLast?_eq_none_iff.mp found
          simp only [found] at taken
          split_ifs at taken with moved
          cases taken
          exact .submitNonceTransition accumulator lengths checked
            (fun _ => not_not.mp moved) (fun some => absurd vacant some)
      | some last =>
          have occupied : updates ≠ [] := by
            rintro rfl
            cases found
          simp only [found] at taken
          by_cases other : last.postRoot = newNonceRoot
          swap
          · simp [other] at taken
          by_cases bound : nonceBundle.inner.batchRoot = nonceStatementBinding digests
              state.nonceStateRoot newNonceRoot state.nonceTreeDepth updates
          swap
          · simp [other, bound] at taken
          rw [if_neg (not_not.mpr other), if_neg (not_not.mpr bound)] at taken
          split at taken
          · cases taken
          · cases taken
          · next verified =>
            cases taken
            refine .submitNonceTransition accumulator lengths checked
              (fun vacant => absurd vacant occupied) (fun _ => ⟨?_, bound, verified⟩)
            rw [found, Option.map_some, other]

/-- Every successful transaction has its effect. -/
theorem transact_ok {env : Env Word} {state next : Registry Word} {call : RegistryCall Word}
    {events : List (RegistryEvent Word)}
    (taken : transact digests state (env, call) = .ok (next, events)) :
    Effect digests env state call next := by
  cases call with
  | submitBatch merkleRoot txListRoot bundle10 bundle8 =>
      obtain ⟨guards, rfl⟩ := finalize_ok taken
      exact .submitBatch guards
  | submitBatchWithNonces merkleRoot txListRoot bundle10 bundle8 senders newNonces =>
      exact submitBatchWithNonces_ok taken
  | submitNonceTransition nonceBundle senders updates newNonceRoot =>
      exact submitNonceTransition_ok taken
  | setVerifier newVerifier =>
      change setVerifier env state newVerifier = _ at taken
      unfold setVerifier at taken
      split_ifs at taken with foreign zero
      cases taken
      exact .setVerifier (not_not.mp foreign) zero
  | changeOwner newOwner =>
      change changeOwner env state newOwner = _ at taken
      unfold changeOwner at taken
      split_ifs at taken with foreign
      cases taken
      exact .changeOwner (not_not.mp foreign)

/-! ## Replay protection in mapping mode -/

omit [DecidableEq Word] in
theorem checkLater_ok {sender : Bytes32} {nonce : U64} {entries : List (Bytes32 × U64)}
    (checked : (checkLater sender nonce entries : Except (RegistryError Word) Unit) = .ok ()) :
    ∀ later ∈ valuesOf sender entries, nonce < later := by
  induction entries with
  | nil => simp [valuesOf]
  | cons entry rest ih =>
      obtain ⟨other, later⟩ := entry
      simp only [checkLater] at checked
      split_ifs at checked with replayed
      by_cases own : other = sender
      · subst own
        have above : nonce < later := by
          by_contra low
          exact replayed ⟨rfl, not_lt.mp low⟩
        rw [valuesOf_cons_self (other, later)]
        intro next member
        rcases List.mem_cons.mp member with rfl | behind
        · exact above
        · exact ih checked next behind
      · have apart : (other, later).1 ≠ sender := own
        rw [valuesOf_cons_of_ne apart]
        exact ih checked

omit [DecidableEq Word] in
/-- Checked entries increase strictly for each sender, from the stored nonce on. -/
theorem checkNonces_ok {stored : Bytes32 → U64} {entries : List (Bytes32 × U64)}
    (checked : (checkNonces stored entries : Except (RegistryError Word) Unit) = .ok ())
    (sender : Bytes32) :
    (valuesOf sender entries).Pairwise (· < ·) ∧
      ∀ nonce ∈ valuesOf sender entries, stored sender < nonce := by
  induction entries with
  | nil => simp [valuesOf]
  | cons entry rest ih =>
      simp only [checkNonces] at checked
      split_ifs at checked with low
      split at checked
      · cases checked
      · next later =>
        obtain ⟨increasing, above⟩ := ih checked
        by_cases own : entry.1 = sender
        · subst own
          rw [valuesOf_cons_self]
          refine ⟨List.pairwise_cons.mpr ⟨checkLater_ok later, increasing⟩, ?_⟩
          intro nonce member
          rcases List.mem_cons.mp member with rfl | behind
          · exact not_le.mp low
          · exact above nonce behind
        · rw [valuesOf_cons_of_ne own]
          exact ⟨increasing, above⟩

/-- Steps and receipts of the registry. -/
abbrev RegistryReceipt (Word : Type*) :=
  Machine.Receipt (Registry Word) (Env Word × RegistryCall Word) (List (RegistryEvent Word))

/-- The (sender, nonce) pairs a transaction submitted, in order. -/
def submittedNonces (call : RegistryCall Word) : List (Bytes32 × U64) :=
  match call with
  | .submitBatchWithNonces _ _ _ _ senders newNonces => senders.zip newNonces
  | _ => []

/-- All pairs accepted over a run. -/
def acceptedNonces (log : List (RegistryReceipt Word)) : List (Bytes32 × U64) :=
  log.flatMap fun receipt => submittedNonces receipt.input.2

/-- In mapping mode the stored nonce is the last one accepted, and the accepted
ones increase strictly from one. -/
structure NoncesTracked (state : Registry Word) (accepted : List (Bytes32 × U64)) : Prop where
  mapping : state.accumulatorMode = false
  increasing : ∀ sender, (valuesOf sender accepted).Pairwise (· < ·)
  positive : ∀ sender, ∀ nonce ∈ valuesOf sender accepted, 0 < nonce
  stored : ∀ sender, state.senderNonces sender =
    (valuesOf sender accepted).getLast?.getD 0

/-- The step lemma: a successful transaction keeps the nonces tracked. -/
theorem NoncesTracked.step {env : Env Word} {state next : Registry Word}
    {call : RegistryCall Word} {accepted : List (Bytes32 × U64)}
    (tracked : NoncesTracked state accepted) (effect : Effect digests env state call next) :
    NoncesTracked next (accepted ++ submittedNonces call) := by
  obtain ⟨mapping, increasing, positive, stored⟩ := tracked
  cases effect with
  | submitBatch guards =>
      change NoncesTracked _ (accepted ++ [])
      rw [List.append_nil]
      exact ⟨mapping, increasing, positive, stored⟩
  | submitNonceTransition accumulator =>
      rw [mapping] at accumulator
      cases accumulator
  | setVerifier owned nonzero =>
      change NoncesTracked _ (accepted ++ [])
      rw [List.append_nil]
      exact ⟨mapping, increasing, positive, stored⟩
  | changeOwner owned =>
      change NoncesTracked _ (accepted ++ [])
      rw [List.append_nil]
      exact ⟨mapping, increasing, positive, stored⟩
  | @submitBatchWithNonces _ _ _ _ senders newNonces _ checked guards =>
      have entries (sender : Bytes32) := checkNonces_ok checked sender
      have appended (sender : Bytes32) := valuesOf_append sender accepted (senders.zip newNonces)
      refine ⟨mapping, fun sender => ?_, fun sender nonce member => ?_, fun sender => ?_⟩
      · change (valuesOf sender (accepted ++ senders.zip newNonces)).Pairwise _
        rw [appended]
        refine List.pairwise_append.mpr ⟨increasing sender, (entries sender).1, ?_⟩
        intro old before new after
        have bounded := le_getLast_of_pairwise (increasing sender) before 0
        rw [← stored sender] at bounded
        exact bounded.trans_lt ((entries sender).2 new after)
      · change nonce ∈ valuesOf sender (accepted ++ senders.zip newNonces) at member
        rw [appended] at member
        rcases List.mem_append.mp member with old | new
        · exact positive sender nonce old
        · exact (Fin.zero_le _).trans_lt ((entries sender).2 nonce new)
      · change writeAll state.senderNonces (senders.zip newNonces) sender =
          (valuesOf sender (accepted ++ senders.zip newNonces)).getLast?.getD 0
        rw [writeAll_apply, appended, List.getLast?_append, stored sender]
        cases (valuesOf sender (senders.zip newNonces)).getLast? <;> rfl

/-- A registry without accumulator starts with nothing accepted. -/
theorem deploy_mapping {initialOwner verifier : Address} {initialRoot : Word}
    {state : Registry Word}
    (deployed : deploy digests initialOwner verifier initialRoot 0 = .ok state) :
    state = emptyRegistry digests initialOwner verifier := by
  unfold deploy at deployed
  split_ifs at deployed
  · cases deployed
    rfl
  all_goals contradiction

theorem noncesTracked_run {initialOwner verifier : Address} {initialRoot : Word}
    {state : Registry Word}
    (deployed : deploy digests initialOwner verifier initialRoot 0 = .ok state)
    (inputs : List (Env Word × RegistryCall Word)) :
    NoncesTracked (run (transact digests) state inputs)
      (acceptedNonces (receipts (transact digests) state inputs)) := by
  obtain rfl := deploy_mapping deployed
  refine run_induction (transact digests)
    (motive := fun state log => NoncesTracked state (acceptedNonces log)) ?_ ?_
  · exact ⟨rfl, fun _ => List.Pairwise.nil, fun _ _ member => absurd member List.not_mem_nil,
      fun _ => rfl⟩
  · intro before log input after events tracked _ taken
    have stepped := tracked.step (transact_ok taken)
    simpa [acceptedNonces] using stepped

/-- Over every run of a registry deployed without accumulator, the nonces accepted for a sender
increase strictly, the stored nonce is the last of them, and no pair is accepted twice.  Nothing
is assumed of the verifier contracts: the nonce loop alone sees to it, for calls of all entry
points in any order and by anyone. -/
theorem mapping_nonces_never_replayed {initialOwner verifier : Address} {initialRoot : Word}
    {state : Registry Word}
    (deployed : deploy digests initialOwner verifier initialRoot 0 = .ok state)
    (inputs : List (Env Word × RegistryCall Word)) :
    let accepted := acceptedNonces (receipts (transact digests) state inputs)
    (∀ sender, (valuesOf sender accepted).Pairwise (· < ·) ∧
        (run (transact digests) state inputs).senderNonces sender =
          (valuesOf sender accepted).getLast?.getD 0) ∧
      accepted.Nodup ∧ ∀ entry ∈ accepted, 1 ≤ entry.2 := by
  intro accepted
  have tracked := noncesTracked_run deployed inputs
  refine ⟨fun sender => ⟨tracked.increasing sender, tracked.stored sender⟩, ?_, ?_⟩
  · exact nodup_of_valuesOf fun sender => (tracked.increasing sender).imp fun below => below.ne
  · rintro ⟨sender, nonce⟩ member
    exact Fin.one_le_of_ne_zero (tracked.positive sender nonce (mem_valuesOf.mpr member)).ne'

/-- Two bundles cross-bound for the batch `[1]`, with trace roots `[10]` and `[8]`. -/
def crossBoundBundle (traceRoot otherTraceRoot : List ℕ) : RecursiveBundle (List ℕ) where
  inner := {
    traceRoot := traceRoot
    oodsComboPos := 0
    oodsComboNeg := 0
    compRoot := [3]
    friLayerRoots := [[4], [5]]
    batchRoot := crossBoundRoot freeDigests [1] otherTraceRoot
    treeDepth := 2
    nQueries := 1 }
  outerProof := []
  outerCommitment := 7
  outerHints := []
  lastLayerEvals := [0, 0]

/-- A verifier that accepts everything. -/
def acceptingEnv : Env (List ℕ) where
  sender := 1
  timestamp := 1700000000
  verifyRecursive := fun _ _ _ => some true

/-- One batch with two nonces of one sender, in increasing order. -/
def sampleBatch : RegistryCall (List ℕ) :=
  .submitBatchWithNonces [1] [6] (crossBoundBundle [10] [8]) (crossBoundBundle [8] [10])
    [5, 5] [1, 2]

theorem mapping_nonces_never_replayed_sample :
    let accepted := acceptedNonces (receipts (transact freeDigests)
      (emptyRegistry freeDigests 1 1) [(acceptingEnv, sampleBatch), (acceptingEnv, sampleBatch)])
    (∀ sender, (valuesOf sender accepted).Pairwise (· < ·) ∧
        (run (transact freeDigests) (emptyRegistry freeDigests 1 1)
            [(acceptingEnv, sampleBatch), (acceptingEnv, sampleBatch)]).senderNonces sender =
          (valuesOf sender accepted).getLast?.getD 0) ∧
      accepted.Nodup ∧ ∀ entry ∈ accepted, 1 ≤ entry.2 :=
  mapping_nonces_never_replayed
    (show deploy freeDigests 1 1 [] 0 = .ok (emptyRegistry freeDigests 1 1) from rfl) _

/-! ## Finalized batches -/

/-- The record of one batch root. -/
structure BatchRecord (Word : Type*) where
  finalized : Bool
  timestamp : ℕ
  commitmentLog10 : Bytes16
  commitmentLog8 : Bytes16
  txListRoot : Word

/-- The fields of a root. -/
def Registry.recordOf (state : Registry Word) (merkleRoot : Word) : BatchRecord Word where
  finalized := state.finalizedBatches merkleRoot
  timestamp := state.batchTimestamps merkleRoot
  commitmentLog10 := state.batchCommitmentsLog10 merkleRoot
  commitmentLog8 := state.batchCommitmentsLog8 merkleRoot
  txListRoot := state.batchTxListRoots merkleRoot

theorem recordOf_recordBatch_of_ne (state : Registry Word) {merkleRoot other : Word}
    (apart : other ≠ merkleRoot) (txListRoot : Word) (timestamp : ℕ)
    (commitmentLog10 commitmentLog8 : Bytes16) :
    (state.recordBatch merkleRoot txListRoot timestamp commitmentLog10 commitmentLog8).recordOf
      other = state.recordOf other := by
  simp [Registry.recordOf, Registry.recordBatch, Function.update_of_ne apart]

/-- The batch a call asks to finalize, with its two bundles. -/
def submittedBatch (call : RegistryCall Word) :
    Option (Word × RecursiveBundle Word × RecursiveBundle Word) :=
  match call with
  | .submitBatch merkleRoot _ bundle10 bundle8 => some (merkleRoot, bundle10, bundle8)
  | .submitBatchWithNonces merkleRoot _ bundle10 bundle8 _ _ =>
      some (merkleRoot, bundle10, bundle8)
  | _ => none

/-- A transaction keeps the record of a root, or finalizes it under the guards. -/
theorem Effect.record {env : Env Word} {state next : Registry Word} {call : RegistryCall Word}
    (effect : Effect digests env state call next) (merkleRoot : Word) :
    next.recordOf merkleRoot = state.recordOf merkleRoot ∨
      ∃ bundle10 bundle8, submittedBatch call = some (merkleRoot, bundle10, bundle8) ∧
        FinalizeGuards digests env state merkleRoot bundle10 bundle8 ∧
        next.finalizedBatches merkleRoot = true := by
  cases effect with
  | @submitBatch root txListRoot bundle10 bundle8 guards =>
      by_cases own : merkleRoot = root
      · subst own
        exact Or.inr ⟨bundle10, bundle8, rfl, guards, Function.update_self ..⟩
      · exact Or.inl (recordOf_recordBatch_of_ne state own ..)
  | @submitBatchWithNonces root txListRoot bundle10 bundle8 _ _ _ _ guards =>
      by_cases own : merkleRoot = root
      · subst own
        exact Or.inr ⟨bundle10, bundle8, rfl, guards, Function.update_self ..⟩
      · exact Or.inl (recordOf_recordBatch_of_ne state own ..)
  | submitNonceTransition => exact Or.inl rfl
  | setVerifier => exact Or.inl rfl
  | changeOwner => exact Or.inl rfl

/-- Records of roots that are not finalized are empty, the zero root is never
finalized, and only the nonce path of the mode is in use. -/
structure RegistryInvariant (digests : Digests Word) (mode : Bool) (state : Registry Word) :
    Prop where
  open_default : ∀ merkleRoot, state.finalizedBatches merkleRoot = false →
    state.recordOf merkleRoot = ⟨false, 0, 0, 0, digests.zero⟩
  zero_open : state.finalizedBatches digests.zero = false
  mode_fixed : state.accumulatorMode = mode
  mapping_unused : mode = true → ∀ sender, state.senderNonces sender = 0
  accumulator_unused : mode = false → state.nonceStateRoot = digests.zero

theorem RegistryInvariant.step {mode : Bool} {env : Env Word} {state next : Registry Word}
    {call : RegistryCall Word} (holds : RegistryInvariant digests mode state)
    (effect : Effect digests env state call next) : RegistryInvariant digests mode next := by
  refine ⟨fun merkleRoot unfinished => ?_, ?_, ?_, ?_, ?_⟩
  · rcases effect.record merkleRoot with kept | ⟨_, _, -, -, finalized⟩
    · rw [kept]
      apply holds.open_default
      rw [← unfinished]
      exact (congrArg BatchRecord.finalized kept).symm
    · rw [finalized] at unfinished
      cases unfinished
  · rcases effect.record digests.zero with kept | ⟨_, _, -, guards, -⟩
    · exact (congrArg BatchRecord.finalized kept).trans holds.zero_open
    · exact absurd rfl guards.nonzero
  · cases effect <;> exact holds.mode_fixed
  · intro accumulator
    cases effect with
    | submitBatchWithNonces mapping =>
        rw [holds.mode_fixed, accumulator] at mapping
        cases mapping
    | submitBatch => exact holds.mapping_unused accumulator
    | submitNonceTransition => exact holds.mapping_unused accumulator
    | setVerifier => exact holds.mapping_unused accumulator
    | changeOwner => exact holds.mapping_unused accumulator
  · intro mapping
    cases effect with
    | submitNonceTransition accumulator =>
        rw [holds.mode_fixed, mapping] at accumulator
        cases accumulator
    | submitBatch => exact holds.accumulator_unused mapping
    | submitBatchWithNonces => exact holds.accumulator_unused mapping
    | setVerifier => exact holds.accumulator_unused mapping
    | changeOwner => exact holds.accumulator_unused mapping

theorem deploy_invariant {initialOwner verifier : Address} {initialRoot : Word}
    {nonceDepth : Fin 256} {state : Registry Word}
    (deployed : deploy digests initialOwner verifier initialRoot nonceDepth = .ok state) :
    RegistryInvariant digests state.accumulatorMode state := by
  unfold deploy at deployed
  split_ifs at deployed
  all_goals
    cases deployed
    exact ⟨fun _ _ => rfl, rfl, rfl, by simp [emptyRegistry], by simp [emptyRegistry]⟩

theorem invariant_run {mode : Bool} {state : Registry Word}
    (start : RegistryInvariant digests mode state) (inputs : List (Env Word × RegistryCall Word)) :
    RegistryInvariant digests mode (run (transact digests) state inputs) :=
  run_invariant (transact digests)
    (fun _ _ _ _ holds taken => holds.step (transact_ok taken)) start inputs

/-- A finalized root keeps its record over any further run. -/
theorem finalized_kept {state : Registry Word} {merkleRoot : Word}
    (finalized : state.finalizedBatches merkleRoot = true)
    (inputs : List (Env Word × RegistryCall Word)) :
    (run (transact digests) state inputs).recordOf merkleRoot =
      state.recordOf merkleRoot := by
  refine run_invariant (transact digests)
    (motive := fun later => later.recordOf merkleRoot = state.recordOf merkleRoot)
    (fun before input next events same taken => ?_) rfl inputs
  have stillFinalized : before.finalizedBatches merkleRoot = true :=
    (congrArg BatchRecord.finalized same).trans finalized
  rcases (transact_ok taken).record merkleRoot with kept | ⟨_, _, -, guards, -⟩
  · exact kept.trans same
  · rw [guards.fresh] at stillFinalized
    cases stillFinalized

/-- The finalization invariant over every run in either mode: a finalized record never changes, an
unfinalized one is empty, the zero root is never finalized, a root is finalized only by a
submission of two bundles that are cross-bound for it and that the verifier accepts, a failed
transaction changes nothing, and each mode leaves the other's state alone. -/
theorem finalization_invariant {initialOwner verifier : Address} {initialRoot : Word}
    {nonceDepth : Fin 256} {initial : Registry Word}
    (deployed : deploy digests initialOwner verifier initialRoot nonceDepth = .ok initial)
    (inputs : List (Env Word × RegistryCall Word)) :
    let state := run (transact digests) initial inputs
    (∀ merkleRoot, state.finalizedBatches merkleRoot = true → ∀ more,
        (run (transact digests) state more).recordOf merkleRoot =
          state.recordOf merkleRoot) ∧
      (∀ merkleRoot, state.finalizedBatches merkleRoot = false →
        state.recordOf merkleRoot = ⟨false, 0, 0, 0, digests.zero⟩) ∧
      state.finalizedBatches digests.zero = false ∧
      (∀ env call merkleRoot, state.finalizedBatches merkleRoot = false →
        (settle (transact digests) state (env, call)).finalizedBatches merkleRoot = true →
        ∃ bundle10 bundle8, submittedBatch call = some (merkleRoot, bundle10, bundle8) ∧
          bundle10.inner.batchRoot =
            crossBoundRoot digests merkleRoot bundle8.inner.traceRoot ∧
          bundle8.inner.batchRoot =
            crossBoundRoot digests merkleRoot bundle10.inner.traceRoot ∧
          env.verifyRecursive 0 state.verifier bundle10 = some true ∧
          env.verifyRecursive 1 state.verifier bundle8 = some true) ∧
      (∀ input error, transact digests state input = .error error →
        settle (transact digests) state input = state) ∧
      (initial.accumulatorMode = true → ∀ sender, state.senderNonces sender = 0) ∧
      (initial.accumulatorMode = false → state.nonceStateRoot = digests.zero) := by
  intro state
  have holds := invariant_run (deploy_invariant deployed) inputs
  refine ⟨fun merkleRoot finalized more => finalized_kept finalized more, holds.open_default,
    holds.zero_open, fun env call merkleRoot unfinished finalized => ?_,
    fun input error failed => settle_error _ failed, holds.mapping_unused,
    holds.accumulator_unused⟩
  cases taken : transact digests state (env, call) with
  | error failure =>
      rw [settle_error _ taken, unfinished] at finalized
      cases finalized
  | ok result =>
      obtain ⟨next, events⟩ := result
      rw [settle_ok _ taken] at finalized
      rcases (transact_ok taken).record merkleRoot with kept | ⟨bundle10, bundle8, asked, guards, -⟩
      · have same := congrArg BatchRecord.finalized kept
        change next.finalizedBatches merkleRoot = state.finalizedBatches merkleRoot at same
        rw [finalized, unfinished] at same
        cases same
      · exact ⟨bundle10, bundle8, asked, guards.bound10, guards.bound8, guards.verified10,
          guards.verified8⟩

theorem finalization_invariant_sample :
    let initial := emptyRegistry freeDigests 1 1
    let state := run (transact freeDigests) initial [(acceptingEnv, sampleBatch)]
    (∀ merkleRoot, state.finalizedBatches merkleRoot = true → ∀ more,
        (run (transact freeDigests) state more).recordOf merkleRoot =
          state.recordOf merkleRoot) ∧
      (∀ merkleRoot, state.finalizedBatches merkleRoot = false →
        state.recordOf merkleRoot = ⟨false, 0, 0, 0, freeDigests.zero⟩) ∧
      state.finalizedBatches freeDigests.zero = false ∧
      (∀ env call merkleRoot, state.finalizedBatches merkleRoot = false →
        (settle (transact freeDigests) state (env, call)).finalizedBatches merkleRoot = true →
        ∃ bundle10 bundle8, submittedBatch call = some (merkleRoot, bundle10, bundle8) ∧
          bundle10.inner.batchRoot =
            crossBoundRoot freeDigests merkleRoot bundle8.inner.traceRoot ∧
          bundle8.inner.batchRoot =
            crossBoundRoot freeDigests merkleRoot bundle10.inner.traceRoot ∧
          env.verifyRecursive 0 state.verifier bundle10 = some true ∧
          env.verifyRecursive 1 state.verifier bundle8 = some true) ∧
      (∀ input error, transact freeDigests state input = .error error →
        settle (transact freeDigests) state input = state) ∧
      (initial.accumulatorMode = true → ∀ sender, state.senderNonces sender = 0) ∧
      (initial.accumulatorMode = false → state.nonceStateRoot = freeDigests.zero) :=
  finalization_invariant
    (show deploy freeDigests 1 1 [] 0 = .ok (emptyRegistry freeDigests 1 1) from rfl) _

end Contracts
end QLSA
