import QLSA.Contracts.CirclePoint
import QLSA.Contracts.Poseidon2MerkleT8

namespace QLSA
namespace Contracts
namespace VFRI11

open Mersenne Verifier

/-!
# The query check of `QLSAVerifierVFRI11`

A query opens the composition at its index and at the antipode, folds the two
OODS quotients and follows the fold through the committed layers.  `none` is a
revert: of checked arithmetic, of an array access or of a `require`.
-/

abbrev Uint128 := Fin (2 ^ 128)

instance neZero_uint128 : NeZero (2 ^ 128) := ⟨by decide⟩

abbrev Uint256 := Fin (2 ^ 256)

instance neZero_uint256 : NeZero (2 ^ 256) := ⟨by decide⟩

structure FoldHint where
  siblingValue : Uint128
  siblingProof : List Bytes32
  foldedValue : Uint128
  merkleProof : List Bytes32

structure QueryHints where
  queryIndex : Uint256
  treeDepth : Uint256
  compValue : Uint128
  compProof : List Bytes32
  compValueNeg : Uint128
  compProofNeg : List Bytes32
  foldedValue : Uint128
  queryPointX : Uint256
  queryPointY : Uint256
  friL1Siblings : List Bytes32
  folds : List FoldHint

structure VerifyCtx where
  embeddedRoot : Bytes32
  z_x : Uint128
  compAlpha : Uint128
  compRoot : Bytes32
  friAlpha : Uint128
  oodsComboPos : Uint128
  oodsComboNeg : Uint128
  friLayerRoots : List Bytes32
  friAlphas : List Uint128
  derivedIndices : List Uint256

/-- Checked addition of `uint256` values. -/
def checkedAdd (a b : ℕ) : Option ℕ := if uintModulus ≤ a + b then none else some (a + b)

/-- Checked subtraction of `uint256` values. -/
def checkedSub (a b : ℕ) : Option ℕ := if b ≤ a then some (a - b) else none

/-- `uint256(1) << n` -/
def oneShifted (n : ℕ) : ℕ := 2 ^ n % uintModulus

def qm31ToWords (q : Uint128) : List ℕ :=
  [q.val >>> 96 % 2 ^ 32, q.val >>> 64 &&& (2 ^ 32 - 1), q.val >>> 32 &&& (2 ^ 32 - 1),
    q.val &&& (2 ^ 32 - 1)]

/-- The leaf of a layer that holds a value. -/
def valueLeaf (q : Uint128) : Bytes32 := hashLeaf (qm31ToWords q)

def verifyOODS (h : QueryHints) (ctx : VerifyCtx) : Option (Bool × ℕ × ℕ) := do
  let pxQM31 := qm31FromM31 h.queryPointX
  let denomPos ← qm31Sub pxQM31 ctx.z_x
  let pxNeg ← qm31Neg pxQM31
  let denomNeg ← qm31Sub pxNeg ctx.z_x
  if denomPos = 0 then some (false, 0, 0)
  else if denomNeg = 0 then some (false, 0, 0)
  else do
    let numerPos ← qm31Sub h.compValue ctx.oodsComboPos
    let numerNeg ← qm31Sub h.compValueNeg ctx.oodsComboNeg
    let invPos ← qm31Inv denomPos
    let fPlus ← qm31Mul numerPos invPos
    let invNeg ← qm31Inv denomNeg
    let fMinus ← qm31Mul numerNeg invNeg
    some (true, fPlus, fMinus)

def checkCircleFold (fPlus fMinus : ℕ) (h : QueryHints) (friAlpha : ℕ) : Option Bool :=
  if !isOnCircle h.queryPointX h.queryPointY then some false
  else if h.queryPointY.val = 0 then some false
  else if h.treeDepth.val < 1 ∨ 30 < h.treeDepth.val then some false
  else if oneShifted h.treeDepth ≤ h.queryIndex.val then some false
  else do
    let c ← cosetAt h.treeDepth h.queryIndex
    if c.1 ≠ h.queryPointX ∨ c.2 ≠ h.queryPointY then some false
    else do
      let yInv ← m31Inv h.queryPointY
      let folded ← circleFold fPlus fMinus friAlpha yInv
      some (folded == h.foldedValue)

/-- The inner loop of `_verifyFolds`. -/
def twiddleLoop : ℕ → ℕ → Option ℕ
  | 0, twiddle => some twiddle
  | rounds + 1, twiddle => do
      let t2 := m31Mul twiddle twiddle
      let next ← m31Sub (m31Add t2 t2) 1
      twiddleLoop rounds next

/-- Index of the sibling in the other half of the domain. -/
def oppositeIndex (curLineIdx domainHalf : ℕ) : Option ℕ :=
  if curLineIdx < domainHalf then checkedAdd curLineIdx domainHalf
  else checkedSub curLineIdx domainHalf

/-- One round of the loop of `_verifyFolds`: whether it passes, the next index and the next value.
The sibling is opened in the layer before, the value after folding in the layer behind, and the
arithmetic of indices reverts where the contract's would. -/
def foldRound (h : QueryHints) (ctx : VerifyCtx) (k curLineIdx curValue : ℕ) :
    Option (Bool × ℕ × ℕ) := do
  let above ← checkedSub h.treeDepth 1
  let rest ← checkedSub above k
  let domainHalf := oneShifted rest
  let mask ← checkedSub domainHalf 1
  let newLineIdx := curLineIdx &&& mask
  let sibling ← oppositeIndex curLineIdx domainHalf
  let root ← ctx.friLayerRoots[k]?
  let hint ← h.folds[k]?
  let depth ← checkedSub h.treeDepth k
  if !verifyMem root (valueLeaf hint.siblingValue) sibling depth hint.siblingProof then
    some (false, 0, 0)
  else do
    let xJ ← cosetAt h.treeDepth newLineIdx
    let twiddle ← twiddleLoop k xJ.1
    if twiddle = 0 then some (false, 0, 0)
    else do
      let gPlus := if curLineIdx < domainHalf then curValue else hint.siblingValue
      let gMinus := if curLineIdx < domainHalf then hint.siblingValue.val else curValue
      let alpha ← ctx.friAlphas[k]?
      let xInv ← m31Inv twiddle
      let folded ← lineFold gPlus gMinus alpha xInv
      if folded ≠ hint.foldedValue then some (false, 0, 0)
      else do
        let nextRoot ← ctx.friLayerRoots[k + 1]?
        let nextDepth ← checkedSub depth 1
        if !verifyMem nextRoot (valueLeaf hint.foldedValue) newLineIdx nextDepth
            hint.merkleProof then
          some (false, 0, 0)
        else some (true, newLineIdx, hint.foldedValue)

/-- The loop of `_verifyFolds` from round `k` on. -/
def verifyFoldsFrom (h : QueryHints) (ctx : VerifyCtx) : ℕ → ℕ → ℕ → ℕ → Option Bool
  | 0, _, _, _ => some true
  | remaining + 1, k, curLineIdx, curValue => do
      let next ← foldRound h ctx k curLineIdx curValue
      if next.1 then verifyFoldsFrom h ctx remaining (k + 1) next.2.1 next.2.2 else some false

def verifyFolds (h : QueryHints) (ctx : VerifyCtx) : Option Bool := do
  let numFolds ← checkedSub ctx.friLayerRoots.length 1
  verifyFoldsFrom h ctx numFolds 0 h.queryIndex h.foldedValue

/-- `_verifyQuery`: the openings of the composition at the index and at the antipode, the
quotients, the circle fold, the opening in the first layer and the folds behind it. -/
def verifyQuery (h : QueryHints) (ctx : VerifyCtx) : Option Bool :=
  if !verifyMem ctx.compRoot (valueLeaf h.compValue) h.queryIndex h.treeDepth h.compProof then
    some false
  else do
    let above ← checkedSub h.treeDepth 1
    let half := oneShifted above
    let shifted ← checkedAdd h.queryIndex half
    let mask ← checkedSub (oneShifted h.treeDepth) 1
    let anti := shifted &&& mask
    if !verifyMem ctx.compRoot (valueLeaf h.compValueNeg) anti h.treeDepth h.compProofNeg then
      some false
    else do
      let oods ← verifyOODS h ctx
      if !oods.1 then some false
      else do
        let folds ← checkCircleFold oods.2.1 oods.2.2 h ctx.friAlpha
        if !folds then some false
        else do
          let root ← ctx.friLayerRoots[0]?
          if !verifyMem root (valueLeaf h.foldedValue) h.queryIndex h.treeDepth
              h.friL1Siblings then
            some false
          else verifyFolds h ctx

end VFRI11
end Contracts
end QLSA
