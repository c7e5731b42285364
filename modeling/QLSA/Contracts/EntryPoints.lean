import QLSA.Contracts.BatchRegistryV5
import QLSA.Contracts.RegistryRuns

namespace QLSA
namespace Contracts
namespace V5

open Stwo

/-!
# Two ways to finalize the same batch

Without senders the nonce loop of `submitBatchWithNonces` is empty, and what is
left of the function is `submitBatch` but for its length checks.  A trace root
is loaded from the calldata behind the offset of a proof, so a short proof
yields whatever the caller has placed there.  Both functions accept the same
calls unless a short proof passes everything else.
-/

section EntryPoints

variable {Word : Type*} (digests : Digests Word)
variable (env : Env Word) (state : Registry Word) (merkleRoot : Word)
variable (log10 log8 : ProofBundle Word)

/-- Both proofs reach past the trace root, which ends at their fortieth byte. -/
def Whole : Prop := 40 ≤ log10.proof.bytes.length ∧ 40 ≤ log8.proof.bytes.length

/-- The checks that both functions make before and after the one for length. -/
def Refused : Prop :=
  merkleRoot = digests.zero ∨ state.finalizedBatches merkleRoot = true ∨
    ¬ (env.verify 0 state.verifier log10
          (crossBoundRoot digests merkleRoot log8.proof.traceRoot) = some true ∧
        env.verify 1 state.verifier log8
          (crossBoundRoot digests merkleRoot log10.proof.traceRoot) = some true)

variable [DecidableEq Word]

/-- The same calls succeed, with the same state, and none with a short proof. -/
structure SameAcceptance : Prop where
  agree : ∀ next, (∃ events,
      submitBatchWithNonces digests env state merkleRoot log10 log8 [] [] = .ok (next, events)) ↔
    ∃ events, submitBatch digests env state merkleRoot log10 log8 = .ok (next, events)
  whole : ∀ result, submitBatch digests env state merkleRoot log10 log8 = .ok result →
    Whole log10 log8
  wholeWithNonces : ∀ senders newNonces result,
    submitBatchWithNonces digests env state merkleRoot log10 log8 senders newNonces = .ok result →
    Whole log10 log8

variable {digests env state merkleRoot log10 log8}

omit [DecidableEq Word] in
theorem verifyBoth_ok :
    verifyBoth digests env state merkleRoot log10 log8 = .ok () ↔
      env.verify 0 state.verifier log10
          (crossBoundRoot digests merkleRoot log8.proof.traceRoot) = some true ∧
        env.verify 1 state.verifier log8
          (crossBoundRoot digests merkleRoot log10.proof.traceRoot) = some true := by
  unfold verifyBoth
  constructor
  · intro accepted
    dsimp only at accepted
    split at accepted
    case h_1 => cases accepted
    case h_2 => cases accepted
    case h_3 first =>
      split at accepted
      case h_1 => cases accepted
      case h_2 => cases accepted
      case h_3 second => exact ⟨first, second⟩
  · rintro ⟨first, second⟩
    dsimp only
    rw [first, second]

/-- What a finalization without nonces leaves and emits. -/
def finalized (env : Env Word) (state : Registry Word) (merkleRoot : Word)
    (log10 log8 : ProofBundle Word) : Registry Word × List (RegistryEvent Word) :=
  (state.recordBatch merkleRoot env.timestamp log10.commitment log8.commitment,
    [.batchFinalized merkleRoot log10.commitment log8.commitment env.timestamp])

theorem submitBatch_ok {result : Registry Word × List (RegistryEvent Word)} :
    submitBatch digests env state merkleRoot log10 log8 = .ok result ↔
      ¬ Refused digests env state merkleRoot log10 log8 ∧ Whole log10 log8 ∧
        finalized env state merkleRoot log10 log8 = result := by
  unfold submitBatch Refused Whole
  rw [← verifyBoth_ok]
  constructor
  · intro done
    split_ifs at done with zero final short10 short8
    split at done
    case h_1 => cases done
    case h_2 verified =>
      refine ⟨?_, ⟨not_lt.mp short10, not_lt.mp short8⟩, Except.ok.inj done⟩
      rintro (isZero | isFinal | rejected)
      · exact zero isZero
      · exact final isFinal
      · exact rejected verified
  · rintro ⟨passes, ⟨long10, long8⟩, rfl⟩
    rw [not_or, not_or, not_not] at passes
    rw [if_neg passes.1, if_neg passes.2.1, if_neg (not_lt.mpr long10), if_neg (not_lt.mpr long8),
      passes.2.2]
    rfl

/-- Whatever the nonces are, a refused call fails. -/
theorem submitBatchWithNonces_passes {senders : List Bytes32} {newNonces : List U64}
    {result : Registry Word × List (RegistryEvent Word)}
    (done : submitBatchWithNonces digests env state merkleRoot log10 log8 senders newNonces =
      .ok result) :
    ¬ Refused digests env state merkleRoot log10 log8 := by
  unfold submitBatchWithNonces at done
  unfold Refused
  rw [← verifyBoth_ok]
  split_ifs at done with zero final
  split at done
  case h_1 => cases done
  case h_2 =>
    split at done
    case h_1 => cases done
    case h_2 verified =>
      rintro (isZero | isFinal | rejected)
      · exact zero isZero
      · exact final isFinal
      · exact rejected verified

/-- Without senders the nonce loop checks and writes nothing. -/
theorem submitBatchWithNonces_ok {result : Registry Word × List (RegistryEvent Word)} :
    submitBatchWithNonces digests env state merkleRoot log10 log8 [] [] = .ok result ↔
      ¬ Refused digests env state merkleRoot log10 log8 ∧
        finalized env state merkleRoot log10 log8 = result := by
  constructor
  · intro done
    have passes := submitBatchWithNonces_passes done
    refine ⟨passes, ?_⟩
    unfold Refused at passes
    rw [← verifyBoth_ok, not_or, not_or, not_not] at passes
    unfold submitBatchWithNonces at done
    rw [if_neg passes.1, if_neg passes.2.1, passes.2.2] at done
    exact Except.ok.inj done
  · rintro ⟨passes, rfl⟩
    unfold Refused at passes
    rw [← verifyBoth_ok, not_or, not_or, not_not] at passes
    unfold submitBatchWithNonces
    rw [if_neg passes.1, if_neg passes.2.1, passes.2.2]
    rfl

/-- The functions accept the same calls exactly when no short proof passes all the checks that
they share.  Of the two entry points only one refuses proofs that end before the trace root; the
other reads what is there, so a short proof is a difference unless something else refuses it. -/
theorem entry_points_agree_iff (digests : Digests Word) (env : Env Word) (state : Registry Word)
    (merkleRoot : Word) (log10 log8 : ProofBundle Word) :
    SameAcceptance digests env state merkleRoot log10 log8 ↔
      Whole log10 log8 ∨ Refused digests env state merkleRoot log10 log8 := by
  constructor
  · intro same
    by_cases refused : Refused digests env state merkleRoot log10 log8
    · exact .inr refused
    · have done := submitBatchWithNonces_ok.mpr ⟨refused, rfl⟩
      exact .inl (same.wholeWithNonces [] [] _ done)
  · intro shape
    have whole (passes : ¬ Refused digests env state merkleRoot log10 log8) : Whole log10 log8 :=
      shape.resolve_right passes
    constructor
    · intro next
      apply exists_congr
      intro events
      rw [submitBatchWithNonces_ok, submitBatch_ok]
      constructor
      · rintro ⟨passes, result⟩
        exact ⟨passes, whole passes, result⟩
      · rintro ⟨passes, -, result⟩
        exact ⟨passes, result⟩
    · intro result done
      exact (submitBatch_ok.mp done).2.1
    · intro senders newNonces result done
      exact whole (submitBatchWithNonces_passes done)

/-- A registry that has just been deployed. -/
def freshRegistry : Registry (List ℕ) where
  owner := 1
  verifier := 1
  finalizedBatches := fun _ => false
  batchTimestamps := fun _ => 0
  batchCommitmentsLog10 := fun _ => 0
  batchCommitmentsLog8 := fun _ => 0
  senderNonces := fun _ => 0

/-- A verifier that looks at nothing accepts two empty proofs, and only one of
the functions then refuses them. -/
theorem empty_proofs_finalized :
    ¬ SameAcceptance freeDigests ⟨1, 1700000000, fun _ _ _ _ => some true⟩ freshRegistry [1]
      ⟨⟨[], [10]⟩, 7, []⟩ ⟨⟨[], [8]⟩, 7, []⟩ := by
  intro same
  have done : submitBatchWithNonces freeDigests ⟨1, 1700000000, fun _ _ _ _ => some true⟩
      freshRegistry [1] ⟨⟨[], [10]⟩, 7, []⟩ ⟨⟨[], [8]⟩, 7, []⟩ [] [] =
      .ok (finalized ⟨1, 1700000000, fun _ _ _ _ => some true⟩ freshRegistry [1]
        ⟨⟨[], [10]⟩, 7, []⟩ ⟨⟨[], [8]⟩, 7, []⟩) := rfl
  have whole := same.wholeWithNonces [] [] _ done
  exact absurd whole.1 (by decide)

end EntryPoints

end V5
end Contracts
end QLSA
