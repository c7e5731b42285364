import QLSA.Merkle.Duplication
import QLSA.Vfri2.Channel
import QLSA.Vfri2.Geometry

namespace QLSA
namespace Vfri2

open Mersenne Hash Stwo

/-!
# The folding chain of the prover

One chain serves every hash width: the channel, the leaves and the nodes are
those of a backend.  The composition values are committed, folded once over
the circle and then round by round over the line, and every layer is committed
before the next challenge is drawn.
-/

/-! ## Backends -/

structure P2Backend where
  Chan : Type
  init : Chan
  mixRootFull : Chan → Bytes32 → Chan
  mixRootW : Chan → Bytes32 → Chan
  mixU32s : Chan → List ℕ → Chan
  drawSecureFelt : Chan → ℕ × Chan
  /-- log of the domain size, number of queries -/
  drawQueries : Chan → ℕ → ℕ → List ℕ × Chan
  hashLeafCols : List ℕ → Bytes32
  hashLeafQm31 : ℕ → Bytes32
  hashPair : Bytes32 → Bytes32 → Bytes32

def hashLeafQm31P2T8 (value : ℕ) : Bytes32 := p2t8Pack (spongeT8 (qm31Words value)).left

def t8Backend : P2Backend where
  Chan := P2T8Channel
  init := P2T8Channel.init
  mixRootFull := P2T8Channel.mixRootFull
  mixRootW := P2T8Channel.mixRootW
  mixU32s := P2T8Channel.mixU32s
  drawSecureFelt := P2T8Channel.drawSecureFelt
  drawQueries := P2T8Channel.drawQueries
  hashLeafCols := hashLeafColsP2T8
  hashLeafQm31 := hashLeafQm31P2T8
  hashPair := hashPairP2T8

/-- What a chain returns in place of a value; the last two are panics. -/
inductive ChainError where
  | emptyCols
  | rootLength (got : ℕ)
  | queryCount (got : ℕ)
  | treeDepth (got : ℕ)
  | columnLength (j got expected : ℕ)
  | oodsDenom (q : ℕ)
  | numFolds (f maxFolds : ℕ)
  | zeroTwiddle (k j : ℕ)
  | extractionMismatch (idx : ℕ)
  | notPowerOfTwo
  | indexOutOfBounds
  deriving DecidableEq

def ChainError.message : ChainError → String
  | .emptyCols => "cols must not be empty"
  | .rootLength got => s!"batch_merkle_root must be 32 bytes, got {got}"
  | .queryCount got => s!"n_queries must be 1..64, got {got}"
  | .treeDepth got => s!"tree_depth={got} must be in 2..=30"
  | .columnLength j got expected => s!"cols[{j}] has {got} entries, expected {expected}"
  | .oodsDenom q => s!"degenerate OODS denom at q={q}"
  | .numFolds f maxFolds => s!"num_folds={f} must be in 1..={maxFolds}"
  | .zeroTwiddle k j => s!"zero twiddle at k={k}, j={j}"
  | .extractionMismatch idx =>
      s!"recursion-input extraction mismatch at query idx {idx}: final fold != committed layer value"
  | .notPowerOfTwo => "leaves.len() must be power of 2"
  | .indexOutOfBounds => "index out of bounds"

/-! ## Trees -/

/-- All levels of a tree; on a power of two leaves no level is odd. -/
def buildTree (pair : Bytes32 → Bytes32 → Bytes32) (leaves : List Bytes32) :
    Except ChainError (List (List Bytes32)) :=
  if leaves.length = 2 ^ leaves.length.log2 then .ok (Merkle.levelsFrom pair leaves)
  else .error .notPowerOfTwo

/-- First node of the last level. -/
def levelsRoot (levels : List (List Bytes32)) : Bytes32 :=
  (levels.getLast?.bind List.head?).getD 0

/-- The siblings of an index, one from each level below the root. -/
def proofThrough : List (List Bytes32) → ℕ → Except ChainError (List Bytes32)
  | [], _ => .ok []
  | level :: levels, index =>
      match level[index ^^^ 1]? with
      | none => .error .indexOutOfBounds
      | some sibling => do
          let siblings ← proofThrough levels (index / 2)
          return sibling :: siblings

def proofPath (levels : List (List Bytes32)) (index : ℕ) : Except ChainError (List Bytes32) :=
  proofThrough levels.dropLast index

/-! ## The chain -/

structure Vfri11Chain where
  traceRoot : Bytes32
  zX : ℕ
  compAlpha : ℕ
  oodsComboPos : ℕ
  oodsComboNeg : ℕ
  compValues : List ℕ
  compLevels : List (List Bytes32)
  compRoot : Bytes32
  friAlpha : ℕ
  friAlphas : List ℕ
  layerValues : List (List ℕ)
  layerLevels : List (List (List Bytes32))
  layerRoots : List Bytes32
  numFolds : ℕ
  derivedIndices : List ℕ

/-- The first column whose length is not that of the domain. -/
def checkColumns (cols : List (List UInt32)) (n : ℕ) : Except ChainError Unit :=
  match cols.zipIdx.find? fun entry => entry.1.length ≠ n with
  | some (col, j) => .error (.columnLength j col.length n)
  | none => .ok ()

def checkInputs (cols : List (List UInt32)) (treeDepth : ℕ) (batchMerkleRoot : List UInt8)
    (nQueries : ℕ) : Except ChainError Unit :=
  if cols.isEmpty then .error .emptyCols
  else if batchMerkleRoot.length ≠ 32 then .error (.rootLength batchMerkleRoot.length)
  else if nQueries = 0 ∨ 64 < nQueries then .error (.queryCount nQueries)
  else if ¬ (2 ≤ treeDepth ∧ treeDepth ≤ 30) then .error (.treeDepth treeDepth)
  else checkColumns cols (2 ^ treeDepth)

/-- Entry `i` of every column. -/
def rowAt (cols : List (List UInt32)) (i : ℕ) : List ℕ := cols.map fun c => (c.getD i 0).toNat

section Chain

variable (B : P2Backend)

def traceRootOf (cols : List (List UInt32)) (treeDepth : ℕ) : Except ChainError Bytes32 :=
  let n := 2 ^ treeDepth
  if cols.isEmpty then .error .emptyCols
  else do
    checkColumns cols n
    let levels ← buildTree B.hashPair ((List.range n).map fun i => B.hashLeafCols (rowAt cols i))
    return levelsRoot levels

/-- Combination of evaluations by powers of a challenge. -/
def oodsCombo (evals : List ℕ) (compAlpha : ℕ) : ℕ :=
  (evals.foldl (fun (acc : ℕ × ℕ) ev =>
    (qm31Add acc.1 (qm31Mul acc.2 ev), qm31Mul acc.2 compAlpha)) (0, qm31FromM31 1)).1

def compValue (cols : List (List UInt32)) (compAlpha i : ℕ) : ℕ :=
  ((rowAt cols i).foldl (fun (acc : ℕ × ℕ) c =>
    (qm31Add acc.1 (qm31MulM31 acc.2 c), qm31Mul acc.2 compAlpha)) (0, qm31FromM31 1)).1

/-- The two quotients at an index. -/
def quotients (treeDepth : ℕ) (compValues : List ℕ) (zX oodsComboPos oodsComboNeg q : ℕ) : ℕ × ℕ :=
  let antiQ := antipodalOf q treeDepth
  let pxQm31 := qm31FromM31 (cosetAt treeDepth q).1
  (qm31Div (qm31Sub (compValues.getD q 0) oodsComboPos) (qm31Sub pxQm31 zX),
    qm31Div (qm31Sub (compValues.getD antiQ 0) oodsComboNeg) (qm31Sub (qm31Neg pxQm31) zX))

def l1Value (treeDepth : ℕ) (compValues : List ℕ) (zX oodsComboPos oodsComboNeg friAlpha q : ℕ) :
    Except ChainError ℕ :=
  let p := cosetAt treeDepth q
  let pxQm31 := qm31FromM31 p.1
  let denomPos := qm31Sub pxQm31 zX
  let denomNeg := qm31Sub (qm31Neg pxQm31) zX
  if denomPos = 0 ∨ denomNeg = 0 then .error (.oodsDenom q)
  else
    let f := quotients treeDepth compValues zX oodsComboPos oodsComboNeg q
    .ok (circleFold f.1 f.2 friAlpha (m31Inv p.2))

def foldCount (treeDepth : ℕ) (numFoldsOpt : Option ℕ) : Except ChainError ℕ :=
  let maxFolds := treeDepth - 1
  match numFoldsOpt with
  | none => .ok maxFolds
  | some f => if 1 ≤ f ∧ f ≤ maxFolds then .ok f else .error (.numFolds f maxFolds)

/-- One value of the next layer. -/
def foldedAt (treeDepth k alpha : ℕ) (prev : List ℕ) (j : ℕ) : Except ChainError ℕ :=
  let layerSz := prev.length / 2
  let xJ := (cosetAt treeDepth j).1
  let twiddle := chebyshevTwiddle xJ k
  if twiddle = 0 then .error (.zeroTwiddle k j)
  else .ok (lineFold (prev.getD j 0) (prev.getD (j + layerSz) 0) alpha (m31Inv twiddle))

/-- A committed layer, and the challenge it was folded with. -/
structure FriLayer where
  alpha : ℕ
  values : List ℕ
  levels : List (List Bytes32)
  root : Bytes32

/-- The rounds from `k` on. -/
def foldLayers (treeDepth : ℕ) :
    ℕ → ℕ → List ℕ → B.Chan → Except ChainError (List FriLayer × B.Chan)
  | 0, _, _, chan => .ok ([], chan)
  | remaining + 1, k, prev, chan => do
      let drawn := B.drawSecureFelt chan
      let newVals ← (List.range (prev.length / 2)).mapM (foldedAt treeDepth k drawn.1 prev)
      let newLevels ← buildTree B.hashPair (newVals.map B.hashLeafQm31)
      let newRoot := levelsRoot newLevels
      let later ← foldLayers treeDepth remaining (k + 1) newVals (B.mixRootW drawn.2 newRoot)
      return (⟨drawn.1, newVals, newLevels, newRoot⟩ :: later.1, later.2)

/-- Thirty-two bytes as one node. -/
def nodeOfBytes (bytes : List UInt8) : Bytes32 :=
  BitVec.ofNat 256 (bytes.foldl (fun n byte => n * 256 + byte.toNat) 0)

/-- `vfri_fri_chain` over either hash: the transcript from the trace root to the drawn queries,
with the composition, the first layer and the folds committed on the way.  A failed check, a
division by a twiddle of zero and an index beyond an array are errors in the order in which the
source meets them. -/
def vfriFriChain (cols : List (List UInt32)) (treeDepth : ℕ) (batchMerkleRoot : List UInt8)
    (nQueries : ℕ) (numFoldsOpt : Option ℕ) : Except ChainError Vfri11Chain := do
  checkInputs cols treeDepth batchMerkleRoot nQueries
  let n := 2 ^ treeDepth
  let traceRoot ← traceRootOf B cols treeDepth
  let z := B.drawSecureFelt (B.mixRootFull B.init traceRoot)
  let comp := B.drawSecureFelt z.2
  let weights := precomputeBaryWeights (xsHalf treeDepth)
  let evals := fun point => cols.map fun col =>
    evalCircleEven (col.map UInt32.toNat) (xsHalf treeDepth) weights point
  let oodsComboPos := oodsCombo (evals z.1) comp.1
  let oodsComboNeg := oodsCombo (evals (qm31Neg z.1)) comp.1
  let chan := B.mixU32s comp.2 (qm31Words oodsComboPos ++ qm31Words oodsComboNeg)
  let compValues := (List.range n).map (compValue cols comp.1)
  let compLevels ← buildTree B.hashPair (compValues.map B.hashLeafQm31)
  let compRoot := levelsRoot compLevels
  let fri := B.drawSecureFelt (B.mixRootW chan compRoot)
  let l1Values ← (List.range n).mapM
    (l1Value treeDepth compValues z.1 oodsComboPos oodsComboNeg fri.1)
  let l1Levels ← buildTree B.hashPair (l1Values.map B.hashLeafQm31)
  let l1Root := levelsRoot l1Levels
  let numFolds ← foldCount treeDepth numFoldsOpt
  let folded ← foldLayers B treeDepth numFolds 0 l1Values (B.mixRootW fri.2 l1Root)
  let batchRoot := nodeOfBytes batchMerkleRoot
  let queries := B.drawQueries (B.mixRootFull folded.2 batchRoot) treeDepth nQueries
  return {
    traceRoot := traceRoot
    zX := z.1
    compAlpha := comp.1
    oodsComboPos := oodsComboPos
    oodsComboNeg := oodsComboNeg
    compValues := compValues
    compLevels := compLevels
    compRoot := compRoot
    friAlpha := fri.1
    friAlphas := folded.1.map FriLayer.alpha
    layerValues := l1Values :: folded.1.map FriLayer.values
    layerLevels := l1Levels :: folded.1.map FriLayer.levels
    layerRoots := l1Root :: folded.1.map FriLayer.root
    numFolds := numFolds
    derivedIndices := queries.1 }

end Chain

/-- The production chain. -/
def vfri11FriChain (cols : List (List UInt32)) (treeDepth : ℕ) (batchMerkleRoot : List UInt8)
    (nQueries : ℕ) (numFoldsOpt : Option ℕ) : Except ChainError Vfri11Chain :=
  vfriFriChain t8Backend cols treeDepth batchMerkleRoot nQueries numFoldsOpt

end Vfri2
end QLSA
