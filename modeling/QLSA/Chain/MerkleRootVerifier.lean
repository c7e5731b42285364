import QLSA.Chain.HashChainVerifier
import QLSA.Chain.Poseidon2MerkleAir

namespace QLSA
namespace Chain
namespace Poseidon2Merkle

open Mersenne Recursive

/-!
# The verifier of Merkle roots

The verifier takes both commitments of a proof as they are and mixes the field
element of the public commitment into the transcript.  The circuit says that each
block compresses the two words it is given.  That these words come from other blocks,
that the columns of round constants are those of the source, and that the public
value is the last result is checked by nobody.
-/

/-- `verify_merkle_root`.  It differs from the verifier of the hash chain in what it leaves out:
no preprocessed root is compared. -/
def verifyMerkleRoot (backend : Backend) (proofBytes commitmentHex : List UInt8) (logSize : ℕ)
    (seed : List UInt8) : Except String Bool :=
  if logSize < minLogSize ∨ maxLogSize < logSize then
    .error s!"log_size {logSize} out of valid range [{minLogSize}, {maxLogSize}]"
  else do
    let commitmentVal ← backend.parseCommitment128 commitmentHex proofBytes
    let proof ← backend.decode proofBytes
    let channel :=
      if seed = [] then backend.channel
      else backend.mixU32s backend.channel (seedToU32Words seed)
    match backend.commitments proof with
    | pre :: main :: _ =>
        let committed := backend.commit (backend.commit channel pre) main
        .ok (backend.verify logSize (backend.mixU32s committed [commitmentVal]) pre main proof)
    | few => .error s!"malformed proof: expected 2 commitments, got {few.length}"

/-- What the proof system is relied on for: the columns an accepted proof commits to
satisfy the circuit. -/
structure Opens (backend : Backend) : Prop where
  satisfied : ∀ {logSize channel pre main proof},
    backend.verify logSize channel pre main proof = true →
      Satisfies logSize (backend.columns pre) (backend.columns main)

/-- The value is the root of the words in the bottom blocks, in the layout of some
number of leaves that has a trace of this size. -/
def Attests (logSize : ℕ) (main : Columns) (value : ℕ) : Prop :=
  ∃ nLeaves ≥ 1, computeLogSize nLeaves = logSize ∧
    value = merkleRoot (bottomLeaves main (depth nLeaves))

/-- What the verifier leaves unchecked of a trace: that its preprocessed columns are
those of the source, and that every block above the bottom reads the results of its
children, in the layout of some number of leaves. -/
structure Wired (logSize : ℕ) (pre main : Columns) (nLeaves : ℕ) : Prop where
  some : 1 ≤ nLeaves
  size : computeLogSize nLeaves = logSize
  canonical : AgreeOn 3 logSize pre buildPreprocessed
  linked : Linked main (depth nLeaves)

/-- Result of the block of the root, from its last row. -/
def rootCell (main : Columns) (nLeaves : ℕ) : ℕ :=
  (main 0 (nRounds * nMerkleNodes (paddedLeafCount nLeaves) - 1)).val

section Accepted

variable {backend : Backend} {proofBytes commitmentHex seed : List UInt8} {logSize : ℕ}

/-- Everything an accepting run has checked. -/
theorem verifyMerkleRoot_ok
    (accepted : verifyMerkleRoot backend proofBytes commitmentHex logSize seed = .ok true) :
    ∃ value proof pre main rest channel,
      backend.parseCommitment128 commitmentHex proofBytes = .ok value ∧
      backend.decode proofBytes = .ok proof ∧ backend.commitments proof = pre :: main :: rest ∧
      backend.verify logSize channel pre main proof = true := by
  unfold verifyMerkleRoot at accepted
  split at accepted
  case isTrue => contradiction
  case isFalse =>
    cases parsed : backend.parseCommitment128 commitmentHex proofBytes with
    | error message =>
        rw [parsed] at accepted
        contradiction
    | ok value =>
        cases decoded : backend.decode proofBytes with
        | error message =>
            rw [parsed, decoded] at accepted
            contradiction
        | ok proof =>
            rw [parsed, decoded] at accepted
            dsimp only [bind, Except.bind] at accepted
            split at accepted
            case h_1 pre main rest roots =>
              exact ⟨value, proof, pre, main, rest, _, rfl, rfl, roots, Except.ok.inj accepted⟩
            case h_2 => contradiction

/-- A proof system that accepts the proof under every transcript accepts it for every
well-formed commitment. -/
theorem verifyMerkleRoot_of {value : ℕ} {proof : backend.Proof} {pre main : backend.Root}
    {rest : List backend.Root} (large : minLogSize ≤ logSize) (small : logSize ≤ maxLogSize)
    (parsed : backend.parseCommitment128 commitmentHex proofBytes = .ok value)
    (decoded : backend.decode proofBytes = .ok proof)
    (roots : backend.commitments proof = pre :: main :: rest)
    (verified : ∀ channel, backend.verify logSize channel pre main proof = true) :
    verifyMerkleRoot backend proofBytes commitmentHex logSize seed = .ok true := by
  have valid : ¬ (logSize < minLogSize ∨ maxLogSize < logSize) := by omega
  unfold verifyMerkleRoot
  rw [if_neg valid, parsed, decoded]
  dsimp only [bind, Except.bind]
  rw [roots]
  dsimp only
  rw [verified]

/-- A wired trace attests what its root block results in, and nothing else. -/
theorem Wired.attests_iff {pre main : Columns} {nLeaves value : ℕ}
    (wired : Wired logSize pre main nLeaves) (satisfies : Satisfies logSize pre main) :
    Attests logSize main value ↔ value = rootCell main nLeaves := by
  have honest : Satisfies logSize buildPreprocessed main :=
    readsRows wired.canonical (fun _ _ _ _ => rfl) satisfies
  have fits := computeLogSize_fits nLeaves
  rw [wired.size] at fits
  have root := root_of_linked honest (depth_pos nLeaves) fits wired.linked
  rw [rootCell, nMerkleNodes, paddedLeafCount, root]
  constructor
  · rintro ⟨others, -, sized, attested⟩
    rw [attested, depth_eq_of_size (sized.trans wired.size.symm)]
  · intro result
    exact ⟨nLeaves, wired.some, wired.size, result⟩

/-- The prover's trace is wired and ends in the root of its leaves. -/
theorem wired_mainColumns {leaves : List ℕ} (nonempty : leaves ≠ []) :
    Wired (computeLogSize leaves.length) buildPreprocessed (mainColumns leaves) leaves.length ∧
      rootCell (mainColumns leaves) leaves.length = merkleRoot leaves := by
  refine ⟨⟨List.length_pos_iff.mpr nonempty, rfl, fun _ _ _ _ => rfl, mainColumns_linked leaves⟩, ?_⟩
  rw [rootCell, Nat.mul_comm, mainColumns_root]

end Accepted

/-- Of a proof whose preprocessed columns are those of the source and whose blocks are
linked, an accepted commitment attests the root of the bottom words just when its value
is the result of the root block.  The verifier checks neither the columns, nor the
links, nor the value.  The prover's trace satisfies the circuit, its commitment is the
root of the leaves, and it meets all three. -/
theorem verified_root_attests_iff {backend : Backend} (opens : Opens backend) :
    (∀ (proofBytes commitmentHex : List UInt8) (logSize : ℕ) (seed : List UInt8),
      verifyMerkleRoot backend proofBytes commitmentHex logSize seed = .ok true →
      ∃ bytes proof pre main, hexDecode commitmentHex = .ok bytes ∧
        backend.decode proofBytes = .ok proof ∧ (backend.commitments proof)[0]? = some pre ∧
        (backend.commitments proof)[1]? = some main ∧
        ∀ nLeaves, Wired logSize (backend.columns pre) (backend.columns main) nLeaves →
          (Attests logSize (backend.columns main) (fromLeBytes (bytes.take 4)) ↔
            fromLeBytes (bytes.take 4) = rootCell (backend.columns main) nLeaves)) ∧
    ∀ leaves : List ℕ, leaves ≠ [] → ∃ main pre commitment,
      buildTrace leaves = .ok (main, pre, commitment) ∧
        Satisfies (computeLogSize leaves.length) pre main ∧
        commitment.val = merkleRoot leaves ∧
        Wired (computeLogSize leaves.length) pre main leaves.length ∧
        commitment.val = rootCell main leaves.length ∧
        (computeLogSize leaves.length ≤ maxCosetLogSize ↔
          nRounds * (2 ^ depth leaves.length - 1) ≤ 2 ^ maxCosetLogSize) := by
  constructor
  · intro proofBytes commitmentHex logSize seed accepted
    rcases verifyMerkleRoot_ok accepted with
      ⟨value, proof, pre, main, rest, channel, parsed, decoded, roots, verified⟩
    rcases backend.parseCommitment128_ok parsed with ⟨bytes, unhexed, -, -, -, -⟩
    refine ⟨bytes, proof, pre, main, unhexed, decoded, by rw [roots]; rfl, by rw [roots]; rfl, ?_⟩
    intro nLeaves wired
    exact wired.attests_iff (opens.satisfied verified)
  · intro leaves nonempty
    rcases wired_mainColumns nonempty with ⟨wired, result⟩
    have root := mainColumns_root leaves
    exact ⟨_, _, _, if_neg nonempty, mainColumns_satisfies leaves _, root, wired,
      root.trans result.symm, computeLogSize_le_iff (by decide)⟩

/-! ## A commitment to another value -/

/-- The one proof of the sample commits to the prover's trace of some leaves. -/
def merkleSample (leaves : List ℕ) : Backend where
  Proof := Unit
  Root := ProofSystem.Table
  Channel := Unit
  rootEq := inferInstance
  blake2s := sampleBlake2s
  hexError := fun _ => ""
  decode := fun _ => .ok ()
  commitments := fun _ =>
    [ProofSystem.tabulate 3 (computeLogSize leaves.length) buildPreprocessed,
      ProofSystem.tabulate 8 (computeLogSize leaves.length) (mainColumns leaves)]
  commitColumns := ProofSystem.tabulate 3
  channel := ()
  mixU32s := fun _ _ => ()
  commit := fun _ _ => ()
  verify := fun logSize _ pre main _ =>
    decide (Satisfies logSize (ProofSystem.untabulate pre) (ProofSystem.untabulate main))
  columns := ProofSystem.untabulate

section Sample

variable {leaves : List ℕ}

theorem merkleSample_verify {logSize : ℕ} {pre main : ProofSystem.Table} :
    (merkleSample leaves).verify logSize () pre main () = true ↔
      Satisfies logSize (ProofSystem.untabulate pre) (ProofSystem.untabulate main) :=
  decide_eq_true_iff

theorem merkleSample_opens : Opens (merkleSample leaves) where
  satisfied := merkleSample_verify.mp

/-- Its proof is accepted with any commitment that parses. -/
theorem merkleSample_accepts {commitmentHex : List UInt8} {value : ℕ}
    (small : computeLogSize leaves.length ≤ maxLogSize)
    (parsed : (merkleSample leaves).parseCommitment128 commitmentHex [1] = .ok value) :
    verifyMerkleRoot (merkleSample leaves) [1] commitmentHex (computeLogSize leaves.length) [] =
      .ok true := by
  have shown : Satisfies (computeLogSize leaves.length)
      (ProofSystem.untabulate
        (ProofSystem.tabulate 3 (computeLogSize leaves.length) buildPreprocessed))
      (ProofSystem.untabulate
        (ProofSystem.tabulate 8 (computeLogSize leaves.length) (mainColumns leaves))) := by
    apply readsRows _ _ (mainColumns_satisfies leaves _)
    · intro column valid row inside
      exact (ProofSystem.untabulate_tabulate 3 _ _ column valid row inside).symm
    · intro column valid row inside
      exact (ProofSystem.untabulate_tabulate 8 _ _ column valid row inside).symm
  have roots : (merkleSample leaves).commitments () =
      [ProofSystem.tabulate 3 (computeLogSize leaves.length) buildPreprocessed,
        ProofSystem.tabulate 8 (computeLogSize leaves.length) (mainColumns leaves)] := rfl
  exact verifyMerkleRoot_of (le_max_right _ _) small parsed rfl roots
    fun _ => merkleSample_verify.mpr shown

/-- Its trace is wired. -/
theorem merkleSample_wired (nonempty : leaves ≠ []) :
    Wired (computeLogSize leaves.length)
        (ProofSystem.untabulate
          (ProofSystem.tabulate 3 (computeLogSize leaves.length) buildPreprocessed))
        (ProofSystem.untabulate
          (ProofSystem.tabulate 8 (computeLogSize leaves.length) (mainColumns leaves)))
        leaves.length ∧
      rootCell (ProofSystem.untabulate
          (ProofSystem.tabulate 8 (computeLogSize leaves.length) (mainColumns leaves)))
        leaves.length = merkleRoot leaves := by
  rcases wired_mainColumns nonempty with ⟨wired, result⟩
  have fits := computeLogSize_fits leaves.length
  have columns := ProofSystem.untabulate_tabulate 8 (computeLogSize leaves.length)
    (mainColumns leaves)
  have wide : 2 ≤ 2 ^ depth leaves.length :=
    Nat.le_self_pow (Nat.one_le_iff_ne_zero.mp (depth_pos leaves.length)) 2
  refine ⟨⟨wired.some, rfl, ProofSystem.untabulate_tabulate 3 _ _, ?_⟩, ?_⟩
  · intro b inside above
    simp only [nRounds] at fits ⊢
    rw [columns 5 (by decide) _ (by omega), columns 7 (by decide) _ (by omega),
      columns 0 (by decide) _ (by omega), columns 0 (by decide) _ (by omega)]
    exact wired.linked b inside above
  · rw [← result, rootCell, rootCell, nMerkleNodes, paddedLeafCount]
    simp only [nRounds] at fits ⊢
    rw [columns 0 (by decide) _ (by omega)]

end Sample

/-- The characters `cfcfbe6154d9883711dbe21dfd3b8dbd`. -/
def honestRootCommitment : List UInt8 :=
  [99, 102, 99, 102, 98, 101, 54, 49, 53, 52, 100, 57, 56, 56, 51, 55,
    49, 49, 100, 98, 101, 50, 49, 100, 102, 100, 51, 98, 56, 100, 98, 100]

/-- The commitment that the prover makes for three leaves attests their root. -/
theorem verified_root_attests_honest :
    ∃ bytes proof pre main, hexDecode honestRootCommitment = .ok bytes ∧
      (merkleSample [5, 6, 7]).decode [1] = .ok proof ∧
      ((merkleSample [5, 6, 7]).commitments proof)[0]? = some pre ∧
      ((merkleSample [5, 6, 7]).commitments proof)[1]? = some main ∧
      Attests 5 ((merkleSample [5, 6, 7]).columns main) (fromLeBytes (bytes.take 4)) ∧
      fromLeBytes (bytes.take 4) = 1639894991 := by
  have size : computeLogSize 3 = 5 := by decide
  have root : merkleRoot [5, 6, 7] = 1639894991 := by decide +kernel
  have parsed : (merkleSample [5, 6, 7]).parseCommitment128 honestRootCommitment [1] =
      .ok 1639894991 := rfl
  rcases (verified_root_attests_iff (@merkleSample_opens [5, 6, 7])).1 [1] honestRootCommitment
      (computeLogSize 3) [] (merkleSample_accepts (by decide) parsed) with
    ⟨bytes, proof, pre, main, unhexed, decoded, first, second, attests⟩
  have word : fromLeBytes (bytes.take 4) = 1639894991 := by
    rw [← Except.ok.inj unhexed]
    rfl
  have preproc : ProofSystem.tabulate 3 (computeLogSize 3) buildPreprocessed = pre :=
    Option.some.inj first
  have trace : ProofSystem.tabulate 8 (computeLogSize 3) (mainColumns [5, 6, 7]) = main :=
    Option.some.inj second
  rcases merkleSample_wired (List.cons_ne_nil 5 [6, 7]) with ⟨wired, result⟩
  refine ⟨bytes, proof, pre, main, unhexed, decoded, first, second, ?_, word⟩
  rw [← preproc, ← trace] at attests
  rw [← size, ← trace]
  apply (attests 3 wired).mpr
  rw [word, ← root, ← result]
  rfl

theorem merkleSample_parsed :
    (merkleSample [0]).parseCommitment128 sampleCommitment [1] = .ok 5 := by
  rfl

/-- The one block of the sample is given zeros. -/
theorem blockInputs_zero : blockInputs [0] 0 = (0, 0) := by
  have one : depth [0].length = 1 := Nat.clog_pow 2 1 (by decide)
  have padded : (List.range (paddedLeafCount [0].length)).map (paddedLeaf [0]) = [0, 0] := by
    rw [paddedLeafCount, one]
    rfl
  have wide : 1 < [0, 0].length := by decide
  have inputs := Merkle.nodeInputs_of_wide compress wide
  unfold Merkle.nodeInputs at inputs
  rw [blockInputs, buildMerkleTree, padded, inputs]
  rfl

/-- A trace of eight rows holds one block. -/
theorem depth_of_eight {nLeaves : ℕ} (sized : computeLogSize nLeaves = 3) : depth nLeaves = 1 := by
  have fits := computeLogSize_fits nLeaves
  have positive := depth_pos nLeaves
  rw [sized] at fits
  by_contra deep
  have wide : 2 ^ 2 ≤ 2 ^ depth nLeaves := Nat.pow_le_pow_right (by decide) (by omega)
  simp only [nRounds] at fits
  omega

theorem verified_root_unattested :
    Opens (merkleSample [0]) ∧
      verifyMerkleRoot (merkleSample [0]) [1] sampleCommitment 3 [] = .ok true ∧
      (merkleSample [0]).parseCommitment128 sampleCommitment [1] = .ok 5 ∧
      ∀ main, ((merkleSample [0]).commitments ())[1]? = some main →
        ¬ Attests 3 ((merkleSample [0]).columns main) 5 := by
  refine ⟨merkleSample_opens, merkleSample_accepts (by decide) merkleSample_parsed,
    merkleSample_parsed, ?_⟩
  rintro main found ⟨nLeaves, -, sized, root⟩
  have trace : main = ProofSystem.tabulate 8 3 (mainColumns [0]) := (Option.some.inj found).symm
  have columns : AgreeOn 8 3 ((merkleSample [0]).columns main) (mainColumns [0]) := by
    rw [trace]
    exact ProofSystem.untabulate_tabulate 8 3 _
  rw [depth_of_eight sized, merkleRoot_bottomLeaves _ le_rfl] at root
  have words : ((merkleSample [0]).columns main 5 0).val = 0 ∧
      ((merkleSample [0]).columns main 7 0).val = 0 := by
    rw [columns 5 (by decide) 0 (by decide), columns 7 (by decide) 0 (by decide)]
    simp [mainColumns, blockInputs_zero]
  have compressed : 5 = compress 0 0 := by
    rw [root, Merkle.subtreeRoot, Merkle.subtreeRoot, Merkle.subtreeRoot, entry, entry]
    exact congrArg₂ compress words.1 words.2
  exact absurd compressed (by decide +kernel)

end Poseidon2Merkle
end Chain
end QLSA
