import QLSA.Hash.Blake2s
import QLSA.Vfri2.ExtractedQueries
import QLSA.Vfri2.QueryHintsAbi

namespace QLSA
namespace Vfri2

open Mersenne Hash Stwo
open Machine (Byte bigEndian bigEndian_length bind_eq_ok)

/-!
# The hints of a chain

For every query the generator opens the composition at the index and at the
antipode, folds both quotients once over the circle and then round by round
over the line, and opens every committed layer on its way.  Whenever there is a
chain there are hints: each index has its siblings, and what is folded on the
way is the value of the layer it is opened in.
-/

/-! ## The generator -/

/-- The thirty-two bytes of a node. -/
def hashBytes (node : Bytes32) : HashBytes := ⟨bigEndian 32 node.toNat, bigEndian_length _ _⟩

/-- The loop over the folds of a query: the sibling of the running index with its path in this
layer, the fold of both, and the path of the result in the next layer.  The twiddle is that of the
folded index; a layer, level or value that is not there is an index out of bounds. -/
def foldHints (ch : Vfri11Chain) (treeDepth : ℕ) :
    ℕ → ℕ → ℕ → ℕ → Except ChainError (List FoldHintData)
  | 0, _, _, _ => .ok []
  | remaining + 1, k, curIdx, curVal =>
      match ch.layerValues[k]?, ch.friAlphas[k]?, ch.layerLevels[k]?, ch.layerLevels[k + 1]? with
      | some values, some alpha, some levels, some nextLevels =>
          let layerSz := values.length / 2
          let sibIdx := if curIdx < layerSz then curIdx + layerSz else curIdx - layerSz
          let newIdx := curIdx &&& (layerSz - 1)
          match values[sibIdx]? with
          | none => .error .indexOutOfBounds
          | some sibVal => do
              let sibProof ← proofPath levels sibIdx
              let xJ := (cosetAt treeDepth newIdx).1
              let g := if curIdx < layerSz then (curVal, sibVal) else (sibVal, curVal)
              let foldedK := lineFold g.1 g.2 alpha (m31Inv (chebyshevTwiddle xJ k))
              let merkleProof ← proofPath nextLevels newIdx
              let later ← foldHints ch treeDepth remaining (k + 1) newIdx foldedK
              return {
                siblingValue := BitVec.ofNat 128 sibVal
                siblingProof := sibProof.map hashBytes
                foldedValue := BitVec.ofNat 128 foldedK
                merkleProof := merkleProof.map hashBytes } :: later
      | _, _, _, _ => .error .indexOutOfBounds

/-- One pass of the loop over the derived indices: the values and paths of the composition at the
index and at the antipode, the circle fold computed again, and the hints of all folds. -/
def queryHintData (ch : Vfri11Chain) (treeDepth idx : ℕ) : Except ChainError QueryHintDataV5 :=
  let antiIdx := antipodalOf idx treeDepth
  let qp := cosetAt treeDepth idx
  match ch.compValues[idx]?, ch.compValues[antiIdx]?, ch.layerLevels[0]? with
  | some compValue, some compValueNeg, some l1Levels => do
      let compProof ← proofPath ch.compLevels idx
      let compProofNeg ← proofPath ch.compLevels antiIdx
      let friL1Sib ← proofPath l1Levels idx
      let f := quotients treeDepth ch.compValues ch.zX ch.oodsComboPos ch.oodsComboNeg idx
      let foldedValue := circleFold f.1 f.2 ch.friAlpha (m31Inv qp.2)
      let folds ← foldHints ch treeDepth ch.numFolds 0 idx foldedValue
      return {
        queryIndex := BitVec.ofNat 64 idx
        treeDepth := BitVec.ofNat 32 treeDepth
        compValue := BitVec.ofNat 128 compValue
        compProof := compProof.map hashBytes
        compValueNeg := BitVec.ofNat 128 compValueNeg
        compProofNeg := compProofNeg.map hashBytes
        foldedValue := BitVec.ofNat 128 foldedValue
        queryPointX := BitVec.ofNat 32 qp.1
        queryPointY := BitVec.ofNat 32 qp.2
        friL1Siblings := friL1Sib.map hashBytes
        folds := folds }
  | _, _, _ => .error .indexOutOfBounds

/-- Seven hundred bytes: the version, the trace root and filling. -/
def proofBytes (version : ℕ) (traceRoot : Bytes32) : List Byte :=
  (bigEndian 8 version).reverse ++ bigEndian 32 traceRoot.toNat ++ List.replicate 660 1

/-- What is hashed to a commitment. -/
def commitmentInput (proof batchMerkleRoot : List Byte) : List Byte :=
  proof.take 32 ++ batchMerkleRoot

/-- `hex::encode` -/
def hexEncode (bytes : List Byte) : String :=
  String.ofList (bytes.flatMap fun byte =>
    [Nat.digitChar (byte.toNat / 16), Nat.digitChar (byte.toNat % 16)])

/-- The proof, the commitment and the encoded hints. -/
structure GeneratedProof where
  proof : List Byte
  commitmentHex : String
  queryHints : List Byte

/-- The generator behind the chain: the bytes of the proof, of which the contract reads the trace
root only, the commitment to them and to the batch root, and the encoded hints. -/
def genVfriHintsFromChain (ch : Vfri11Chain) (treeDepth : ℕ) (batchMerkleRoot : List UInt8)
    (version : ℕ) : Except ChainError GeneratedProof :=
  match ch.layerValues[ch.numFolds]? with
  | none => .error .indexOutOfBounds
  | some lastLayerEvals => do
      let hintStructs ← ch.derivedIndices.mapM (queryHintData ch treeDepth)
      let proof := proofBytes version ch.traceRoot
      let h := Blake2s.digest (commitmentInput proof (batchMerkleRoot.map UInt8.toBitVec))
      return {
        proof := proof
        commitmentHex := hexEncode (h.take 16)
        queryHints := abiEncodeQueryHints (BitVec.ofNat 128 ch.oodsComboPos)
          (BitVec.ofNat 128 ch.oodsComboNeg) (hashBytes ch.compRoot)
          (lastLayerEvals.map (BitVec.ofNat 128)) (ch.layerRoots.map hashBytes) hintStructs }

/-- `gen_vfri_hints_from_cols_nfolds` -/
def genVfriHintsFromColsNfolds (B : P2Backend) (cols : List (List UInt32)) (treeDepth : ℕ)
    (batchMerkleRoot : List UInt8) (nQueries : ℕ) (numFoldsOpt : Option ℕ) (version : ℕ) :
    Except ChainError GeneratedProof := do
  let ch ← vfriFriChain B cols treeDepth batchMerkleRoot nQueries numFoldsOpt
  genVfriHintsFromChain ch treeDepth batchMerkleRoot version

def genVfri11HintsFromColsNfolds (cols : List (List UInt32)) (treeDepth : ℕ)
    (batchMerkleRoot : List UInt8) (nQueries : ℕ) (numFoldsOpt : Option ℕ) :
    Except ChainError GeneratedProof :=
  genVfriHintsFromColsNfolds t8Backend cols treeDepth batchMerkleRoot nQueries numFoldsOpt 5

/-! ## Openings -/

/-- A path from the leaf of a value to a root, over reduced nodes. -/
def Opening (height : ℕ) (root : Bytes32) (index value : ℕ) (path : List HashBytes) : Prop :=
  ∃ siblings : List Bytes32, path = siblings.map hashBytes ∧ siblings.length = height ∧
    (∀ sibling ∈ siblings, CanonicalNode sibling) ∧
    Merkle.pathRoot hashPairP2T8 (hashLeafQm31P2T8 value) siblings
      (Merkle.indexBits height index) = root

theorem Committed.opening {height : ℕ} {values : List ℕ} {levels : List (List Bytes32)}
    {root : Bytes32} (committed : Committed t8Backend height values levels root) {index value : ℕ}
    (valueAt : values[index]? = some value) :
    ∃ siblings, proofPath levels index = .ok siblings ∧
      Opening height root index value (siblings.map hashBytes) := by
  have count : (values.map hashLeafQm31P2T8).length = 2 ^ height := by
    rw [List.length_map, committed.length]
  have leaves : ∀ leaf ∈ values.map hashLeafQm31P2T8, CanonicalNode leaf := by
    intro leaf member
    rcases List.mem_map.mp member with ⟨other, -, rfl⟩
    exact hashLeafQm31P2T8_canonical other
  have leafAt : (values.map hashLeafQm31P2T8)[index]? = some (hashLeafQm31P2T8 value) := by
    rw [List.getElem?_map, valueAt]
    rfl
  rcases proofPath_spec hashPairP2T8_canonical count leaves leafAt committed.root_eq with
    ⟨siblings, read, length, kept, climbed⟩
  have levelsFrom : levels = Merkle.levelsFrom hashPairP2T8 (values.map hashLeafQm31P2T8) :=
    committed.levels_eq
  rw [← levelsFrom] at read
  exact ⟨siblings, read, siblings, rfl, length, kept, climbed⟩

/-! ## Folds of a query -/

section Folds

variable {ch : Vfri11Chain} {treeDepth : ℕ}

/-- Index in the other half. -/
def oppositeOf (curIdx half : ℕ) : ℕ := if curIdx < half then curIdx + half else curIdx - half

/-- A value and its sibling, that of the lower half first. -/
def inOrder (curIdx half value sibling : ℕ) : ℕ × ℕ :=
  if curIdx < half then (value, sibling) else (sibling, value)

/-- The committed fold of two values. -/
theorem FoldedFrom.ordered {k h alpha : ℕ} {prev next : List ℕ}
    (folded : FoldedFrom treeDepth k alpha prev next) (length : prev.length = 2 ^ (h + 1))
    {curIdx value : ℕ} (valueAt : prev[curIdx]? = some value) :
    ∃ sib, prev[oppositeOf curIdx (2 ^ h)]? = some sib ∧
      next[curIdx % 2 ^ h]? = some (lineFold (inOrder curIdx (2 ^ h) value sib).1
        (inOrder curIdx (2 ^ h) value sib).2 alpha
        (m31Inv (chebyshevTwiddle (cosetAt treeDepth (curIdx % 2 ^ h)).1 k))) := by
  have inside : curIdx < 2 ^ h * 2 := by
    rw [← pow_succ, ← length]
    exact (List.getElem?_eq_some_iff.mp valueAt).1
  have half : prev.length / 2 = 2 ^ h := by
    rw [length, pow_succ, Nat.mul_div_cancel _ (by decide)]
  have positive := Nat.two_pow_pos h
  have present : ∃ sib, prev[oppositeOf curIdx (2 ^ h)]? = some sib := by
    refine ⟨_, List.getElem?_eq_getElem ?_⟩
    rw [length, pow_succ, oppositeOf]
    split <;> omega
  rcases present with ⟨sib, sibAt⟩
  have entry := folded.2 (curIdx % 2 ^ h) (by rw [half]; exact Nat.mod_lt _ positive)
  refine ⟨sib, sibAt, ?_⟩
  rw [entry, half]
  by_cases low : curIdx < 2 ^ h
  · rw [oppositeOf, if_pos low] at sibAt
    rw [inOrder, if_pos low, Nat.mod_eq_of_lt low, getD_of_getElem? valueAt,
      getD_of_getElem? sibAt]
  · have folds : curIdx % 2 ^ h = curIdx - 2 ^ h := by
      rw [Nat.mod_eq_sub_mod (not_lt.mp low), Nat.mod_eq_of_lt (by omega)]
    rw [oppositeOf, if_neg low] at sibAt
    rw [inOrder, if_neg low, folds, Nat.sub_add_cancel (not_lt.mp low), getD_of_getElem? valueAt,
      getD_of_getElem? sibAt]

/-- One fold: the sibling is opened in the layer before it and the folded value
in the one behind it. -/
structure FoldOf (treeDepth k : ℕ) (prev next : FriLayer) (curIdx : ℕ) (hint : FoldHintData) :
    Prop where
  sibling : ∃ sib, prev.values[oppositeOf curIdx (2 ^ (treeDepth - (k + 1)))]? = some sib ∧
    hint.siblingValue = BitVec.ofNat 128 sib ∧
    Opening (treeDepth - k) prev.root (oppositeOf curIdx (2 ^ (treeDepth - (k + 1)))) sib
      hint.siblingProof
  folded : ∃ value, next.values[curIdx % 2 ^ (treeDepth - (k + 1))]? = some value ∧
    hint.foldedValue = BitVec.ofNat 128 value ∧
    Opening (treeDepth - (k + 1)) next.root (curIdx % 2 ^ (treeDepth - (k + 1))) value
      hint.merkleProof

/-- The folds from round `k` on, one for every layer that follows. -/
inductive FoldsOf (treeDepth : ℕ) : ℕ → FriLayer → List FriLayer → ℕ → List FoldHintData → Prop
  | nil {k prev curIdx} : FoldsOf treeDepth k prev [] curIdx []
  | cons {k prev next rest curIdx hint hints} (own : FoldOf treeDepth k prev next curIdx hint)
      (later : FoldsOf treeDepth (k + 1) next rest (curIdx % 2 ^ (treeDepth - (k + 1))) hints) :
      FoldsOf treeDepth k prev (next :: rest) curIdx (hint :: hints)

theorem FoldsOf.length {k curIdx : ℕ} {prev : FriLayer} {layers : List FriLayer}
    {hints : List FoldHintData} (folds : FoldsOf treeDepth k prev layers curIdx hints) :
    hints.length = layers.length := by
  induction folds with
  | nil => rfl
  | cons _ _ ih => rw [List.length_cons, List.length_cons, ih]

/-- Round by round the hints are those of the layers. -/
theorem foldHints_of {layers : List FriLayer} {k : ℕ} {prev : FriLayer}
    (layerValues : ch.layerValues.drop k = (prev :: layers).map FriLayer.values)
    (layerLevels : ch.layerLevels.drop k = (prev :: layers).map FriLayer.levels)
    (friAlphas : ch.friAlphas.drop k = layers.map FriLayer.alpha)
    (committed : Committed t8Backend (treeDepth - k) prev.values prev.levels prev.root)
    (rounds : Rounds t8Backend treeDepth k prev.values layers)
    (fits : k + layers.length + 1 ≤ treeDepth) {curIdx value : ℕ}
    (valueAt : prev.values[curIdx]? = some value) :
    ∃ hints, foldHints ch treeDepth layers.length k curIdx value = .ok hints ∧
      FoldsOf treeDepth k prev layers curIdx hints := by
  induction layers generalizing k prev curIdx value with
  | nil => exact ⟨[], rfl, .nil⟩
  | cons next rest ih =>
      rcases rounds with ⟨-, folded, nextCommitted, later⟩
      rw [List.length_cons] at fits ⊢
      have split : treeDepth - k = treeDepth - (k + 1) + 1 := by omega
      have length : prev.values.length = 2 ^ (treeDepth - (k + 1) + 1) :=
        split ▸ committed.length
      have half : prev.values.length / 2 = 2 ^ (treeDepth - (k + 1)) := by
        rw [length, pow_succ, Nat.mul_div_cancel _ (by decide)]
      have here : ch.layerValues[k]? = some prev.values := by
        rw [← List.head?_drop, layerValues]
        rfl
      have levelsAt : ch.layerLevels[k]? = some prev.levels := by
        rw [← List.head?_drop, layerLevels]
        rfl
      have alphaAt : ch.friAlphas[k]? = some next.alpha := by
        rw [← List.head?_drop, friAlphas]
        rfl
      have nextValues : ch.layerValues.drop (k + 1) = (next :: rest).map FriLayer.values := by
        rw [← List.tail_drop, layerValues]
        rfl
      have nextLevels : ch.layerLevels.drop (k + 1) = (next :: rest).map FriLayer.levels := by
        rw [← List.tail_drop, layerLevels]
        rfl
      have nextLevelsAt : ch.layerLevels[k + 1]? = some next.levels := by
        rw [← List.head?_drop, nextLevels]
        rfl
      have nextAlphas : ch.friAlphas.drop (k + 1) = rest.map FriLayer.alpha := by
        rw [← List.tail_drop, friAlphas]
        rfl
      rcases FoldedFrom.ordered folded length valueAt with ⟨sib, sibAt, nextAt⟩
      rcases committed.opening sibAt with ⟨sibProof, sibRead, sibOpening⟩
      rcases nextCommitted.opening nextAt with ⟨merkleProof, read, opening⟩
      rcases ih nextValues nextLevels nextAlphas nextCommitted later (by omega) nextAt with
        ⟨hints, rounds, folds⟩
      refine ⟨⟨BitVec.ofNat 128 sib, sibProof.map hashBytes, _, merkleProof.map hashBytes⟩ :: hints,
        ?_, .cons ⟨⟨sib, sibAt, rfl, sibOpening⟩, _, nextAt, rfl, opening⟩ folds⟩
      rw [foldHints, here, alphaAt, levelsAt, nextLevelsAt]
      dsimp only
      rw [half, Nat.and_two_pow_sub_one_eq_mod]
      rw [oppositeOf] at sibAt sibRead
      rw [sibAt]
      dsimp only
      rw [sibRead, ok_bind, read, ok_bind]
      rw [inOrder] at rounds
      rw [rounds]
      rfl

end Folds

/-! ## Queries -/

section Queries

variable {ch : Vfri11Chain} {treeDepth idx : ℕ}

/-- The layers of a chain. -/
structure Vfri11Chain.Layers (ch : Vfri11Chain) (treeDepth : ℕ) (first : FriLayer)
    (layers : List FriLayer) : Prop where
  count : layers.length = ch.numFolds
  friAlphas : ch.friAlphas = layers.map FriLayer.alpha
  layerValues : ch.layerValues = (first :: layers).map FriLayer.values
  layerLevels : ch.layerLevels = (first :: layers).map FriLayer.levels
  layerRoots : ch.layerRoots = (first :: layers).map FriLayer.root
  committed : Committed t8Backend treeDepth first.values first.levels first.root
  opened : ∀ q < 2 ^ treeDepth, first.values[q]? = some (circleFold
    (quotients treeDepth ch.compValues ch.zX ch.oodsComboPos ch.oodsComboNeg q).1
    (quotients treeDepth ch.compValues ch.zX ch.oodsComboPos ch.oodsComboNeg q).2 ch.friAlpha
    (m31Inv (cosetAt treeDepth q).2))
  rounds : Rounds t8Backend treeDepth 0 first.values layers

theorem Vfri11Chain.Built.exists_layers (built : ch.Built t8Backend treeDepth) :
    ∃ first layers, ch.Layers treeDepth first layers := by
  rcases built.layers with ⟨first, layers, count, friAlphas, layerValues, layerLevels, layerRoots,
    committed, opened, rounds⟩
  exact ⟨first, layers, count, friAlphas, layerValues, layerLevels, layerRoots, committed, opened,
    rounds⟩

/-- The hints of one query. -/
structure HintOf (ch : Vfri11Chain) (treeDepth : ℕ) (first : FriLayer) (layers : List FriLayer)
    (idx : ℕ) (data : QueryHintDataV5) : Prop where
  queryIndex : data.queryIndex = BitVec.ofNat 64 idx
  depth : data.treeDepth = BitVec.ofNat 32 treeDepth
  pointX : data.queryPointX = BitVec.ofNat 32 (cosetAt treeDepth idx).1
  pointY : data.queryPointY = BitVec.ofNat 32 (cosetAt treeDepth idx).2
  comp : ∃ value, ch.compValues[idx]? = some value ∧ data.compValue = BitVec.ofNat 128 value ∧
    Opening treeDepth ch.compRoot idx value data.compProof
  compNeg : ∃ value, ch.compValues[antipodalOf idx treeDepth]? = some value ∧
    data.compValueNeg = BitVec.ofNat 128 value ∧
    Opening treeDepth ch.compRoot (antipodalOf idx treeDepth) value data.compProofNeg
  folded : ∃ value, first.values[idx]? = some value ∧ data.foldedValue = BitVec.ofNat 128 value ∧
    Opening treeDepth first.root idx value data.friL1Siblings
  folds : FoldsOf treeDepth 0 first layers idx data.folds

theorem queryHintData_of {first : FriLayer} {layers : List FriLayer}
    (built : ch.Built t8Backend treeDepth) (layered : ch.Layers treeDepth first layers)
    (inside : idx < 2 ^ treeDepth) :
    ∃ data, queryHintData ch treeDepth idx = .ok data ∧
      HintOf ch treeDepth first layers idx data := by
  have posAt : ch.compValues[idx]? = some (ch.compValues.getD idx 0) :=
    getElem?_of_lt (by rwa [built.comp.length])
  have negAt : ch.compValues[antipodalOf idx treeDepth]? =
      some (ch.compValues.getD (antipodalOf idx treeDepth) 0) :=
    getElem?_of_lt (by rw [built.comp.length]; exact antipodalOf_lt idx treeDepth)
  have levelsAt : ch.layerLevels[0]? = some first.levels := by
    rw [layered.layerLevels]
    rfl
  have start := layered.opened idx inside
  have deep := built.depth_ge
  have folds := built.folds
  rcases built.comp.opening posAt with ⟨compProof, read, opening⟩
  rcases built.comp.opening negAt with ⟨compProofNeg, readNeg, openingNeg⟩
  rcases layered.committed.opening start with ⟨friL1Sib, readL1, openingL1⟩
  rcases @foldHints_of ch treeDepth layers 0 first layered.layerValues layered.layerLevels
    layered.friAlphas layered.committed layered.rounds (by rw [layered.count]; omega) _ _ start with
    ⟨hints, rounds, own⟩
  refine ⟨{
    queryIndex := BitVec.ofNat 64 idx
    treeDepth := BitVec.ofNat 32 treeDepth
    compValue := _
    compProof := compProof.map hashBytes
    compValueNeg := _
    compProofNeg := compProofNeg.map hashBytes
    foldedValue := _
    queryPointX := _
    queryPointY := _
    friL1Siblings := friL1Sib.map hashBytes
    folds := hints }, ?_, ⟨rfl, rfl, rfl, rfl, ⟨_, posAt, rfl, opening⟩, ⟨_, negAt, rfl, openingNeg⟩,
    ⟨_, start, rfl, openingL1⟩, own⟩⟩
  rw [layered.count] at rounds
  rw [queryHintData]
  dsimp only
  rw [posAt, negAt, levelsAt]
  dsimp only
  rw [read, ok_bind, readNeg, ok_bind, readL1, ok_bind, rounds]
  rfl

/-- Whenever there is a chain there are hints. -/
theorem genVfriHintsFromChain_of (batchMerkleRoot : List UInt8) (version : ℕ)
    {first : FriLayer} {layers : List FriLayer} (built : ch.Built t8Backend treeDepth)
    (layered : ch.Layers treeDepth first layers) :
    ∃ lastLayer hintStructs, (first :: layers)[ch.numFolds]? = some lastLayer ∧
      List.Forall₂ (HintOf ch treeDepth first layers) ch.derivedIndices hintStructs ∧
      genVfriHintsFromChain ch treeDepth batchMerkleRoot version = .ok {
        proof := proofBytes version ch.traceRoot
        commitmentHex := hexEncode ((Blake2s.digest (commitmentInput
          (proofBytes version ch.traceRoot) (batchMerkleRoot.map UInt8.toBitVec))).take 16)
        queryHints := abiEncodeQueryHints (BitVec.ofNat 128 ch.oodsComboPos)
          (BitVec.ofNat 128 ch.oodsComboNeg) (hashBytes ch.compRoot)
          (lastLayer.values.map (BitVec.ofNat 128)) (ch.layerRoots.map hashBytes) hintStructs } := by
  have inside : ch.numFolds < (first :: layers).length := by
    rw [List.length_cons, layered.count]
    exact Nat.lt_succ_self _
  have lastAt := List.getElem?_eq_getElem inside
  have valuesAt : ch.layerValues[ch.numFolds]? = some (first :: layers)[ch.numFolds].values := by
    rw [layered.layerValues, List.getElem?_map, lastAt]
    rfl
  have each (idx : ℕ) (member : idx ∈ ch.derivedIndices) :=
    queryHintData_of built layered (built.indices idx member)
  rcases mapM_succeeds fun idx member => (each idx member).imp fun data => And.left with
    ⟨hintStructs, pushed⟩
  refine ⟨_, hintStructs, lastAt, ?_, ?_⟩
  · rw [List.forall₂_iff_get]
    rcases Machine.mapM_ok pushed with ⟨lengths, entries⟩
    refine ⟨lengths.symm, ?_⟩
    intro i within within'
    have found := List.getElem?_eq_getElem within
    rcases entries i _ found with ⟨data, place, own⟩
    rcases each _ (List.getElem_mem within) with ⟨other, again, hint⟩
    have same : data = other := Except.ok.inj (own.symm.trans again)
    rw [List.getElem?_eq_getElem within', Option.some.injEq] at place
    have present : hintStructs.get ⟨i, within'⟩ = other := place.trans same
    rw [present]
    exact hint
  · rw [genVfriHintsFromChain, valuesAt]
    dsimp only
    rw [pushed]
    rfl

end Queries

end Vfri2
end QLSA
