import QLSA.Contracts.Blake2s
import QLSA.Contracts.ChannelReplay
import QLSA.Contracts.ExactSums
import QLSA.Merkle.InPlaceLevels
import QLSA.Vfri2.QueryHintsAbi

namespace QLSA
namespace Contracts
namespace VFRI11

open Mersenne Verifier
open Machine (Byte bigEndian ofBigEndian)

/-!
# The entry of `QLSAVerifierVFRI11`

The entry checks the commitment, decodes the hints, rebuilds the last layer,
replays the transcript and checks every query.  `none` is a revert, of the
decoder, of checked arithmetic or of an array access; every other failure is
`false`.
-/

/-! ## Decoded hints -/

/-- `bytes16` -/
abbrev Bytes16 := { bytes : List Byte // bytes.length = 16 }

/-- What `abi.decode` returns. -/
structure DecodedHints where
  oodsComboPos : Uint128
  oodsComboNeg : Uint128
  compRoot : Bytes32
  lastLayerEvals : List Uint128
  friLayerRoots : List Bytes32
  hints : List QueryHints

def uint128Of (value : ℕ) : Uint128 := Fin.ofNat (2 ^ 128) value

def uint256Of (value : ℕ) : Uint256 := Fin.ofNat (2 ^ 256) value

def bytes32Of (bytes : List Byte) : Bytes32 := BitVec.ofNat 256 (ofBigEndian bytes)

def foldHintOf : ℕ × List (List Byte) × ℕ × List (List Byte) × Unit → FoldHint
  | (siblingValue, siblingProof, foldedValue, merkleProof, ()) =>
      { siblingValue := uint128Of siblingValue
        siblingProof := siblingProof.map bytes32Of
        foldedValue := uint128Of foldedValue
        merkleProof := merkleProof.map bytes32Of }

def queryHintsOf : ℕ × ℕ × ℕ × List (List Byte) × ℕ × List (List Byte) × ℕ × ℕ × ℕ ×
    List (List Byte) × List (ℕ × List (List Byte) × ℕ × List (List Byte) × Unit) × Unit → QueryHints
  | (queryIndex, treeDepth, compValue, compProof, compValueNeg, compProofNeg, foldedValue,
      queryPointX, queryPointY, friL1Siblings, folds, ()) =>
      { queryIndex := uint256Of queryIndex
        treeDepth := uint256Of treeDepth
        compValue := uint128Of compValue
        compProof := compProof.map bytes32Of
        compValueNeg := uint128Of compValueNeg
        compProofNeg := compProofNeg.map bytes32Of
        foldedValue := uint128Of foldedValue
        queryPointX := uint256Of queryPointX
        queryPointY := uint256Of queryPointY
        friL1Siblings := friL1Siblings.map bytes32Of
        folds := folds.map foldHintOf }

def decodeHints (data : List Byte) : Option DecodedHints := do
  let ((oodsComboPos, oodsComboNeg, compRoot, lastLayerEvals, friLayerRoots, hints, ()), _) ←
    Vfri2.queryHints data 0
  return {
    oodsComboPos := uint128Of oodsComboPos
    oodsComboNeg := uint128Of oodsComboNeg
    compRoot := bytes32Of compRoot
    lastLayerEvals := lastLayerEvals.map uint128Of
    friLayerRoots := friLayerRoots.map bytes32Of
    hints := hints.map queryHintsOf }

/-! ## The checks -/

def minProofLength : ℕ := 700

def maxProofLength : ℕ := 1048576

def minQueries : ℕ := 1

def maxQueries : ℕ := 64

def maxFoldRounds : ℕ := 28

def maxLastLayerSize : ℕ := 1 <<< 16

def checkCommitment (proof : List Byte) (commitment : Bytes16) (merkleRoot : Bytes32) : Bool :=
  let hInput := proof.take 32 ++ bigEndian 32 merkleRoot.toNat
  (Verifier.Blake2s.hash hInput).take 16 == commitment.val

/-- The inner loop and the loop around it write every level over the one below
it; their indices are below the length of `nodes`. -/
def checkLastLayer (evals : List Uint128) (expectedRoot : Bytes32) (lastDepth : ℕ) : Option Bool :=
  let lastLayerSize := oneShifted lastDepth
  if evals.length ≠ lastLayerSize then some false
  else if maxLastLayerSize < lastLayerSize then some false
  else do
    let root ← (Merkle.reduceInPlace hashPair 0 lastLayerSize (evals.map valueLeaf))[0]?
    some (root == expectedRoot)

/-- The last loop of `verify`. -/
def verifyQueries (ctx : VerifyCtx) : ℕ → List QueryHints → Option Bool
  | _, [] => some true
  | i, h :: hints => do
      let derived ← ctx.derivedIndices[i]?
      if h.queryIndex ≠ derived then some false
      else do
        let passed ← verifyQuery h ctx
        if !passed then some false else verifyQueries ctx (i + 1) hints

/-- `verify` behind the decoder: the checks of the decoded fields in their order, the last layer,
the replay of the transcript and the loop over the queries. -/
def verifyDecoded (proof : List Byte) (merkleRoot : Bytes32) (d : DecodedHints) : Option Bool :=
  if d.oodsComboPos = 0 ∧ d.oodsComboNeg = 0 then some false
  else if d.compRoot = 0 then some false
  else if d.lastLayerEvals.length = 0 then some false
  else if d.friLayerRoots.length < 2 then some false
  else if maxFoldRounds + 1 < d.friLayerRoots.length then some false
  else if d.hints.length < minQueries then some false
  else if maxQueries < d.hints.length then some false
  else if ∃ root ∈ d.friLayerRoots, root = 0 then some false
  else do
    let embeddedRoot := bytes32Of ((proof.drop 8).take 32)
    let first ← d.hints[0]?
    let logDomainSize := first.treeDepth.val
    let numFolds ← checkedSub d.friLayerRoots.length 1
    if logDomainSize < numFolds + 1 then some false
    else if 30 < logDomainSize then some false
    else if ∃ h ∈ d.hints, h.treeDepth.val ≠ logDomainSize ∨ h.folds.length ≠ numFolds then some false
    else do
      let lastRoot ← d.friLayerRoots[numFolds]?
      let lastDepth ← checkedSub logDomainSize numFolds
      let lastLayer ← checkLastLayer d.lastLayerEvals lastRoot lastDepth
      if !lastLayer then some false
      else do
        let ctx ← buildCtx embeddedRoot d.oodsComboPos d.oodsComboNeg d.compRoot d.friLayerRoots
          d.hints.length logDomainSize merkleRoot
        verifyQueries ctx 0 d.hints

def verify (proof : List Byte) (commitment : Bytes16) (merkleRoot : Bytes32)
    (queryHints : List Byte) : Option Bool :=
  if proof.length < minProofLength then some false
  else if maxProofLength < proof.length then some false
  else if commitment.val = List.replicate 16 0 then some false
  else if merkleRoot = 0 then some false
  else if queryHints.length = 0 then some false
  else if !checkCommitment proof commitment merkleRoot then some false
  else do
    let d ← decodeHints queryHints
    verifyDecoded proof merkleRoot d

end VFRI11
end Contracts
end QLSA
