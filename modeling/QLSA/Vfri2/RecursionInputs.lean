import QLSA.Vfri2.Domain
import QLSA.Vfri2.NodePaths

namespace QLSA
namespace Vfri2

open Mersenne Hash Stwo
open Machine (mapM_ok)
open Recursive.RecursiveVerifier (StepOp FoldRound foldTwo recursiveQueryFinal recursiveQueryFinal_eq)
open Recursive.CompositionT8 (qm31LeafHashT8)

/-!
# Inputs of the recursion

For every query of a chain the circle fold, the line folds and three paths are
read off.  The recursion keeps the folded value as its first operand: where the
index lies in the upper half the inverse is negated instead, which is the same
fold with its operands swapped.  Over all rounds the value stays the committed
one, at the index folded so far.
-/

/-! ## Extraction -/

/-- Paths of the two composition values of a query. -/
structure CompMembership where
  posSibs : List (Quad ℕ)
  posBits : List Bool
  negSibs : List (Quad ℕ)
  negBits : List Bool

/-- Public values that the channel absorbs. -/
structure Vfri11ChannelInputs where
  traceRoot : Bytes32
  oodsComboPos : ℕ
  oodsComboNeg : ℕ
  compRoot : Bytes32
  friLayerRoots : List Bytes32
  batchRoot : Bytes32
  treeDepth : ℕ
  nQueries : ℕ

structure Vfri11RecursionInputs where
  queries : List (StepOp × List FoldRound)
  paths : List (List (Quad ℕ) × List Bool)
  lastLayerRoot : Quad ℕ
  compPaths : List CompMembership
  compRoot : Quad ℕ
  finals : List ℕ
  traceRoot : Bytes32
  channelInputs : Vfri11ChannelInputs

/-- What one pass of the loop over queries pushes. -/
structure ExtractedQuery where
  query : StepOp × List FoldRound
  path : List (Quad ℕ) × List Bool
  compPath : CompMembership
  final : ℕ

/-- `((M31_P - inv as u64) % M31_P) as u32` -/
def negatedInv (inv : ℕ) : ℕ := (P + u64Modulus - inv) % u64Modulus % P

/-- The inverse, negated when the index lies in the upper half. -/
def invOriented (curIdx layerSz inv : ℕ) : UInt32 :=
  UInt32.ofNat (if curIdx < layerSz then inv else negatedInv inv)

/-- The rounds from `k` on, and the index they fold to.  A round takes the sibling of the running
index, the challenge and the inverse of the twiddle, turned by the half in which the index lies. -/
def extractRounds (ch : Vfri11Chain) (treeDepth : ℕ) :
    ℕ → ℕ → ℕ → Except ChainError (List FoldRound × ℕ)
  | 0, _, curIdx => .ok ([], curIdx)
  | remaining + 1, k, curIdx =>
      match ch.layerValues[k]?, ch.friAlphas[k]? with
      | some values, some alpha =>
          let layerSz := values.length / 2
          let sibIdx := if curIdx < layerSz then curIdx + layerSz else curIdx - layerSz
          let newIdx := curIdx &&& (layerSz - 1)
          match values[sibIdx]? with
          | none => .error .indexOutOfBounds
          | some sibVal => do
              let xJ := (cosetAt treeDepth newIdx).1
              let inv := m31Inv (chebyshevTwiddle xJ k)
              let later ← extractRounds ch treeDepth remaining (k + 1) newIdx
              return (⟨sibVal, alpha, invOriented curIdx layerSz inv⟩ :: later.1, later.2)
      | _, _ => .error .indexOutOfBounds

def stepOf (ch : Vfri11Chain) (treeDepth idx : ℕ) : StepOp :=
  let qp := cosetAt treeDepth idx
  let f := quotients treeDepth ch.compValues ch.zX ch.oodsComboPos ch.oodsComboNeg idx
  { fPlus := f.1
    fMinus := f.2
    px := UInt32.ofNat qp.1
    zX := ch.zX
    oodsComboPos := ch.oodsComboPos
    oodsComboNeg := ch.oodsComboNeg
    friAlpha := ch.friAlpha
    yInv := UInt32.ofNat (m31Inv qp.2) }

/-- Siblings as words, and the bits of the index. -/
def pathWords (levels : List (List Bytes32)) (index : ℕ) :
    Except ChainError (List (Quad ℕ) × List Bool) := do
  let siblings ← proofPath levels index
  return (siblings.map p2t8NodeWords,
    (List.range siblings.length).map fun i => (index >>> i) &&& 1 == 1)

/-- The extraction for one derived index: the step at the index and its antipode, the folds down
to the last layer, the comparison with the committed value, and the three paths. -/
def extractQuery (ch : Vfri11Chain) (treeDepth idx : ℕ) : Except ChainError ExtractedQuery :=
  let anti := antipodalOf idx treeDepth
  if ch.compValues.length ≤ idx ∨ ch.compValues.length ≤ anti then .error .indexOutOfBounds
  else do
    let step := stepOf ch treeDepth idx
    let folded ← extractRounds ch treeDepth ch.numFolds 0 idx
    let finalVal := recursiveQueryFinal step folded.1
    match ch.layerValues[ch.numFolds]?.bind fun values => values[folded.2]?,
        ch.layerLevels[ch.numFolds]? with
    | some committed, some levels =>
        if finalVal ≠ committed then .error (.extractionMismatch idx)
        else do
          let path ← pathWords levels folded.2
          let pos ← pathWords ch.compLevels idx
          let neg ← pathWords ch.compLevels anti
          return {
            query := (step, folded.1)
            path := path
            compPath := ⟨pos.1, pos.2, neg.1, neg.2⟩
            final := finalVal }
    | _, _ => .error .indexOutOfBounds

/-- `gen_vfri11_recursion_inputs`: the chain, one extraction for each derived index in the order
of the draws, and the public inputs of the transcript. -/
def genVfri11RecursionInputs (cols : List (List UInt32)) (treeDepth : ℕ)
    (batchMerkleRoot : List UInt8) (nQueries : ℕ) (numFoldsOpt : Option ℕ) :
    Except ChainError Vfri11RecursionInputs := do
  let ch ← vfri11FriChain cols treeDepth batchMerkleRoot nQueries numFoldsOpt
  let extracted ← ch.derivedIndices.mapM (extractQuery ch treeDepth)
  match ch.layerRoots[ch.numFolds]? with
  | none => .error .indexOutOfBounds
  | some lastRoot =>
      return {
        queries := extracted.map ExtractedQuery.query
        paths := extracted.map ExtractedQuery.path
        lastLayerRoot := p2t8NodeWords lastRoot
        compPaths := extracted.map ExtractedQuery.compPath
        compRoot := p2t8NodeWords ch.compRoot
        finals := extracted.map ExtractedQuery.final
        traceRoot := ch.traceRoot
        channelInputs := {
          traceRoot := ch.traceRoot
          oodsComboPos := ch.oodsComboPos
          oodsComboNeg := ch.oodsComboNeg
          compRoot := ch.compRoot
          friLayerRoots := ch.layerRoots
          batchRoot := nodeOfBytes batchMerkleRoot
          treeDepth := treeDepth
          nQueries := nQueries } }

/-! ## One fold -/

/-- The limbs of an element. -/
def quadOf (q : QM31) : Quad M31 := ⟨q.re.re, q.re.im, q.im.re, q.im.im⟩

theorem packed_quadOf (q : QM31) : Recursive.Qm31.packed (quadOf q) = qm31Word q := by
  rw [Recursive.Qm31.packed, Recursive.Qm31.pack_eq (words_small _), qm31Word,
    qm31PackC_eq (cm31Word_lt q.im), cm31Word, cm31Word, cm31Pack_eq (val_small _),
    cm31Pack_eq (val_small _)]
  simp only [words, quadOf, Quad.map]
  ring

theorem value_qm31Word (q : QM31) : Recursive.Qm31.value (qm31Word q) = quadOf q := by
  rw [← packed_quadOf, Recursive.Qm31.value_packed]

section Limbs

open Recursive.Qm31 (qadd qsub qscale qmul)

variable (a b : QM31)

theorem qadd_quadOf : qadd (quadOf a) (quadOf b) = quadOf (a + b) := by
  ext <;> simp only [qadd, quadOf, Quad.zipWith, QuadraticAlgebra.re_add, QuadraticAlgebra.im_add]

theorem qsub_quadOf : qsub (quadOf a) (quadOf b) = quadOf (a - b) := by
  ext <;> simp only [qsub, quadOf, Quad.zipWith, QuadraticAlgebra.re_sub, QuadraticAlgebra.im_sub]

theorem qmul_quadOf : qmul (quadOf a) (quadOf b) = quadOf (a * b) := by
  ext <;> simp only [qmul, quadOf, QuadraticAlgebra.re_mul, QuadraticAlgebra.im_mul,
    QuadraticAlgebra.re_add, QuadraticAlgebra.im_add, QuadraticAlgebra.re_zero,
    QuadraticAlgebra.im_zero] <;> ring

theorem qscale_quadOf (s : M31) : qscale (quadOf a) s = quadOf (a * baseValue s) := by
  ext <;> simp [qscale, quadOf, baseValue]

/-- The fold of limbs is the fold of the field. -/
theorem fold_quadOf (alpha : QM31) (inv : M31) :
    Recursive.RecursiveVerifier.fold (quadOf a) (quadOf b) (quadOf alpha) inv =
      quadOf (Mersenne.fold a b alpha inv⁻¹) := by
  rw [Recursive.RecursiveVerifier.fold, Mersenne.fold, inv_inv, qadd_quadOf, qsub_quadOf,
    qscale_quadOf, qmul_quadOf, qadd_quadOf]

end Limbs

theorem foldTwo_word (a b alpha : QM31) (inv : UInt32) :
    foldTwo (qm31Word a) (qm31Word b) (qm31Word alpha) inv =
      qm31Word (Mersenne.fold a b alpha (inv.toNat : M31)⁻¹) := by
  rw [← packed_quadOf a, ← packed_quadOf b, Recursive.RecursiveVerifier.foldTwo_packed,
    value_qm31Word, fold_quadOf, packed_quadOf]

/-- A fold with its operands swapped and its twiddle negated. -/
theorem fold_swapped (a b alpha : QM31) (twiddle : M31) :
    Mersenne.fold b a alpha twiddle = Mersenne.fold a b alpha (-twiddle) := by
  have negated : baseValue (-twiddle)⁻¹ = -baseValue twiddle⁻¹ := by
    rw [inv_neg, baseValue, map_neg, map_neg, baseValue]
  rw [Mersenne.fold, Mersenne.fold, negated]
  ring

theorem toNat_ofNat_val (x : M31) : ((UInt32.ofNat x.val).toNat : M31) = x := by
  rw [UInt32.toNat_ofNat_of_lt' (val_small x), ZMod.natCast_zmod_val]

theorem negatedInv_val (x : M31) : negatedInv x.val = (-x).val := by
  have small := ZMod.val_lt x
  have whole : (P + u64Modulus - x.val) % u64Modulus = P - x.val := by
    rw [u64Modulus, show P + 2 ^ 64 - x.val = P - x.val + 2 ^ 64 by omega, Nat.add_mod_right]
    apply Nat.mod_eq_of_lt
    simp only [P]
    omega
  rw [negatedInv, whole, ZMod.neg_val']

/-- The fold of the recursion is that of the layer, in either orientation. -/
theorem foldTwo_oriented (cur sib alpha : QM31) (twiddle : M31) (curIdx layerSz : ℕ) :
    foldTwo (qm31Word cur) (qm31Word sib) (qm31Word alpha)
        (invOriented curIdx layerSz (m31Inv twiddle.val)) =
      if curIdx < layerSz then
        lineFold (qm31Word cur) (qm31Word sib) (qm31Word alpha) (m31Inv twiddle.val)
      else lineFold (qm31Word sib) (qm31Word cur) (qm31Word alpha) (m31Inv twiddle.val) := by
  rw [foldTwo_word, lineFold_word, lineFold_word, invOriented, m31Inv_val]
  by_cases low : curIdx < layerSz
  · rw [if_pos low, if_pos low, toNat_ofNat_val, inv_inv]
  · rw [if_neg low, if_neg low, negatedInv_val, toNat_ofNat_val, fold_swapped, inv_neg, inv_inv,
      neg_neg]

theorem foldTwo_circle (plus minus alpha : QM31) (y : M31) :
    foldTwo (qm31Word plus) (qm31Word minus) (qm31Word alpha) (UInt32.ofNat (m31Inv y.val)) =
      circleFold (qm31Word plus) (qm31Word minus) (qm31Word alpha) (m31Inv y.val) := by
  rw [foldTwo_word, circleFold_word, m31Inv_val, toNat_ofNat_val, inv_inv]

/-! ## Rounds -/

/-- The line folds that follow a value. -/
def foldRounds (start : ℕ) (rounds : List FoldRound) : ℕ :=
  rounds.foldl (fun input r => foldTwo input r.sibling r.alpha r.xInv) start

theorem foldRounds_cons (start : ℕ) (first : FoldRound) (rest : List FoldRound) :
    foldRounds start (first :: rest) =
      foldRounds (foldTwo start first.sibling first.alpha first.xInv) rest := rfl

section Rounds

variable {B : P2Backend} {ch : Vfri11Chain} {treeDepth : ℕ}

/-- The committed fold of two values, seen from either of them. -/
theorem FoldedFrom.oriented (bounded : treeDepth ≤ 30) {k h alpha : ℕ} {prev next : List ℕ}
    (folded : FoldedFrom treeDepth k alpha prev next) (drawn : ∃ a : QM31, alpha = qm31Word a)
    (length : prev.length = 2 ^ (h + 1)) (packed : ∀ value ∈ prev, ∃ q : QM31, value = qm31Word q)
    {curIdx value : ℕ} (valueAt : prev[curIdx]? = some value) :
    ∃ sib, prev[if curIdx < 2 ^ h then curIdx + 2 ^ h else curIdx - 2 ^ h]? = some sib ∧
      next[curIdx % 2 ^ h]? = some (foldTwo value sib alpha (invOriented curIdx (2 ^ h)
        (m31Inv (chebyshevTwiddle (cosetAt treeDepth (curIdx % 2 ^ h)).1 k)))) := by
  have inside : curIdx < 2 ^ h * 2 := by
    rw [← pow_succ, ← length]
    exact (List.getElem?_eq_some_iff.mp valueAt).1
  have half : prev.length / 2 = 2 ^ h := by
    rw [length, pow_succ, Nat.mul_div_cancel _ (by decide)]
  have positive := Nat.two_pow_pos h
  have present : ∃ sib, prev[if curIdx < 2 ^ h then curIdx + 2 ^ h else curIdx - 2 ^ h]? =
      some sib := by
    refine ⟨_, List.getElem?_eq_getElem ?_⟩
    rw [length, pow_succ]
    split <;> omega
  rcases present with ⟨sib, sibAt⟩
  rcases drawn with ⟨a, rfl⟩
  rcases packed value (List.mem_of_getElem? valueAt) with ⟨cur, rfl⟩
  rcases packed sib (List.mem_of_getElem? sibAt) with ⟨other, rfl⟩
  have entry := folded.2 (curIdx % 2 ^ h) (by rw [half]; exact Nat.mod_lt _ positive)
  refine ⟨_, sibAt, ?_⟩
  rw [entry, half, twiddle_eq bounded, foldTwo_oriented]
  by_cases low : curIdx < 2 ^ h
  · rw [if_pos low] at sibAt
    rw [if_pos low, Nat.mod_eq_of_lt low, List.getD_eq_getElem?_getD, valueAt,
      List.getD_eq_getElem?_getD, sibAt]
    rfl
  · have folds : curIdx % 2 ^ h = curIdx - 2 ^ h := by
      rw [Nat.mod_eq_sub_mod (not_lt.mp low), Nat.mod_eq_of_lt (by omega)]
    rw [if_neg low] at sibAt
    rw [if_neg low, folds, Nat.sub_add_cancel (not_lt.mp low), List.getD_eq_getElem?_getD, sibAt,
      List.getD_eq_getElem?_getD, valueAt]
    rfl

/-- Round by round, the folded value is the committed one. -/
theorem extractRounds_spec (bounded : treeDepth ≤ 30) {layers : List FriLayer} {k : ℕ}
    {prev : List ℕ} (layerValues : ch.layerValues.drop k = prev :: layers.map FriLayer.values)
    (friAlphas : ch.friAlphas.drop k = layers.map FriLayer.alpha)
    (length : prev.length = 2 ^ (treeDepth - k))
    (packed : ∀ value ∈ prev, ∃ q : QM31, value = qm31Word q)
    (rounds : Rounds B treeDepth k prev layers) (fits : k + layers.length + 1 ≤ treeDepth)
    {curIdx value : ℕ} (valueAt : prev[curIdx]? = some value) :
    ∃ folds last, extractRounds ch treeDepth layers.length k curIdx =
        .ok (folds, curIdx % 2 ^ (treeDepth - (k + layers.length))) ∧
      ch.layerValues[k + layers.length]? = some last ∧
      last[curIdx % 2 ^ (treeDepth - (k + layers.length))]? = some (foldRounds value folds) ∧
      folds.length = layers.length := by
  have inside : curIdx < 2 ^ (treeDepth - k) := by
    rw [← length]
    exact (List.getElem?_eq_some_iff.mp valueAt).1
  have here : ch.layerValues[k]? = some prev := by
    rw [← List.head?_drop, layerValues, List.head?_cons]
  induction layers generalizing k prev curIdx value with
  | nil =>
      have whole : curIdx % 2 ^ (treeDepth - (k + 0)) = curIdx := Nat.mod_eq_of_lt inside
      refine ⟨[], prev, ?_, here, ?_, rfl⟩
      · rw [List.length_nil, whole]
        rfl
      · rw [List.length_nil, whole]
        exact valueAt
  | cons layer rest ih =>
      rcases rounds with ⟨drawn, folded, committed, later⟩
      rw [List.length_cons] at fits ⊢
      have split : treeDepth - k = treeDepth - (k + 1) + 1 := by omega
      have reorder : k + (rest.length + 1) = k + 1 + rest.length := by omega
      rw [split] at length
      have half : prev.length / 2 = 2 ^ (treeDepth - (k + 1)) := by
        rw [length, pow_succ, Nat.mul_div_cancel _ (by decide)]
      have alphaAt : ch.friAlphas[k]? = some layer.alpha := by
        rw [← List.head?_drop, friAlphas]
        rfl
      have nextValues : ch.layerValues.drop (k + 1) = layer.values :: rest.map FriLayer.values := by
        rw [← List.tail_drop, layerValues]
        rfl
      have nextAlphas : ch.friAlphas.drop (k + 1) = rest.map FriLayer.alpha := by
        rw [← List.tail_drop, friAlphas]
        rfl
      rcases FoldedFrom.oriented bounded folded drawn length packed valueAt with
        ⟨sib, sibAt, nextAt⟩
      rcases ih nextValues nextAlphas committed.length committed.packed later (by omega) nextAt
        (Nat.mod_lt _ (Nat.two_pow_pos _)) (by rw [← List.head?_drop, nextValues, List.head?_cons])
        with ⟨folds, last, read, lastAt, arrived, lengths⟩
      have index : curIdx % 2 ^ (treeDepth - (k + 1)) % 2 ^ (treeDepth - (k + 1 + rest.length)) =
          curIdx % 2 ^ (treeDepth - (k + 1 + rest.length)) := by
        apply Nat.mod_mod_of_dvd
        apply Nat.pow_dvd_pow
        omega
      rw [index] at read arrived
      rw [reorder]
      refine ⟨⟨sib, layer.alpha, invOriented curIdx (2 ^ (treeDepth - (k + 1))) (m31Inv
        (chebyshevTwiddle (cosetAt treeDepth (curIdx % 2 ^ (treeDepth - (k + 1)))).1 k))⟩ :: folds,
        last, ?_, lastAt, by rw [foldRounds_cons, arrived], by rw [List.length_cons, lengths]⟩
      rw [extractRounds, here, alphaAt]
      dsimp only
      rw [half, sibAt, Nat.and_two_pow_sub_one_eq_mod]
      dsimp only
      rw [read]
      rfl

end Rounds

/-! ## Faithful inputs -/

/-- What the inputs of one query say about the chain. -/
structure FaithfulQuery (ch : Vfri11Chain) (treeDepth idx : ℕ) (lastLayerRoot compRoot : Quad ℕ)
    (q : ExtractedQuery) : Prop where
  step : q.query.1 = stepOf ch treeDepth idx
  rounds : q.query.2.length = ch.numFolds
  /-- The folds end in the value committed at the folded index. -/
  folded : recursiveQueryFinal q.query.1 q.query.2 = q.final
  final : (ch.layerValues[ch.numFolds]?.bind fun values =>
    values[idx % 2 ^ (treeDepth - ch.numFolds)]?) = some q.final
  bits : q.path.2 =
    Merkle.indexBits (treeDepth - ch.numFolds) (idx % 2 ^ (treeDepth - ch.numFolds))
  path : merklePathRootT8 (qm31LeafHashT8 q.final) q.path.1 q.path.2 = lastLayerRoot
  posBits : q.compPath.posBits = Merkle.indexBits treeDepth idx
  negBits : q.compPath.negBits = Merkle.indexBits treeDepth (antipodalOf idx treeDepth)
  compPos : ∃ value, ch.compValues[idx]? = some value ∧
    merklePathRootT8 (qm31LeafHashT8 value) q.compPath.posSibs q.compPath.posBits = compRoot
  compNeg : ∃ value, ch.compValues[antipodalOf idx treeDepth]? = some value ∧
    merklePathRootT8 (qm31LeafHashT8 value) q.compPath.negSibs q.compPath.negBits = compRoot

/-- Inputs that represent the committed chain, query by query. -/
structure Vfri11RecursionInputs.Faithful (inputs : Vfri11RecursionInputs) (ch : Vfri11Chain)
    (treeDepth : ℕ) : Prop where
  lastLayerRoot : ch.layerRoots[ch.numFolds]?.map p2t8NodeWords = some inputs.lastLayerRoot
  compRoot : inputs.compRoot = p2t8NodeWords ch.compRoot
  queries : inputs.queries.length = ch.derivedIndices.length
  paths : inputs.paths.length = ch.derivedIndices.length
  compPaths : inputs.compPaths.length = ch.derivedIndices.length
  finals : inputs.finals.length = ch.derivedIndices.length
  query : ∀ i idx : ℕ, ch.derivedIndices[i]? = some idx → ∃ q : ExtractedQuery,
    inputs.queries[i]? = some q.query ∧ inputs.paths[i]? = some q.path ∧
      inputs.compPaths[i]? = some q.compPath ∧ inputs.finals[i]? = some q.final ∧
      FaithfulQuery ch treeDepth idx inputs.lastLayerRoot inputs.compRoot q

theorem Rounds.committed {B : P2Backend} {treeDepth k : ℕ} {prev : List ℕ} {layers : List FriLayer}
    (rounds : Rounds B treeDepth k prev layers) {i : ℕ} {layer : FriLayer}
    (layerAt : layers[i]? = some layer) :
    Committed B (treeDepth - (k + i + 1)) layer.values layer.levels layer.root := by
  induction layers generalizing k prev i with
  | nil => cases layerAt
  | cons first rest ih =>
      rcases rounds with ⟨-, -, own, later⟩
      cases i with
      | zero =>
          cases layerAt
          exact own
      | succ i =>
          have deeper := ih later layerAt
          rwa [show k + 1 + i + 1 = k + (i + 1) + 1 by omega] at deeper

/-- A path of a committed value, as words. -/
theorem pathWords_committed {height : ℕ} {values : List ℕ} {levels : List (List Bytes32)}
    {root : Bytes32} (committed : Committed t8Backend height values levels root) {index value : ℕ}
    (valueAt : values[index]? = some value) :
    ∃ siblings, pathWords levels index = .ok (siblings, Merkle.indexBits height index) ∧
      merklePathRootT8 (qm31LeafHashT8 value) siblings (Merkle.indexBits height index) =
        p2t8NodeWords root := by
  have count : (values.map hashLeafQm31P2T8).length = 2 ^ height := by
    rw [List.length_map, committed.length]
  have leaves : ∀ leaf ∈ values.map hashLeafQm31P2T8, CanonicalNode leaf := by
    intro leaf member
    rcases List.mem_map.mp member with ⟨other, -, rfl⟩
    exact hashLeafQm31P2T8_canonical other
  have leafAt : (values.map hashLeafQm31P2T8)[index]? = some (hashLeafQm31P2T8 value) := by
    rw [List.getElem?_map, valueAt]
    rfl
  rcases proofPath_spec hashPairP2T8_canonical count leaves leafAt committed.root_eq with
    ⟨siblings, read, length, kept, climbed⟩
  refine ⟨siblings.map p2t8NodeWords, ?_, ?_⟩
  · have levelsFrom : levels = Merkle.levelsFrom hashPairP2T8 (values.map hashLeafQm31P2T8) :=
      committed.levels_eq
    rw [pathWords, levelsFrom, read]
    simp only [Except.bind, bind, pure, Except.pure, map_bits_eq_indexBits, length]
  · rw [← p2t8NodeWords_hashLeafQm31, ← p2t8NodeWords_pathRoot _ (hashLeafQm31P2T8_canonical value)
      kept, climbed]

theorem antipodalOf_lt (idx treeDepth : ℕ) : antipodalOf idx treeDepth < 2 ^ treeDepth := by
  rw [antipodalOf, Nat.and_two_pow_sub_one_eq_mod]
  exact Nat.mod_lt _ (Nat.two_pow_pos _)

/-- The quotients at an index are elements. -/
theorem quotients_word {B : P2Backend} {ch : Vfri11Chain} {treeDepth idx : ℕ}
    (built : ch.Built B treeDepth) (inside : idx < 2 ^ treeDepth) :
    ∃ plus minus : QM31, quotients treeDepth ch.compValues ch.zX ch.oodsComboPos ch.oodsComboNeg
      idx = (qm31Word plus, qm31Word minus) := by
  have valueAt (i : ℕ) (within : i < 2 ^ treeDepth) :
      ∃ v : QM31, ch.compValues.getD i 0 = qm31Word v := by
    have bound : i < ch.compValues.length := by rwa [built.comp.length]
    rw [List.getD_eq_getElem _ _ bound]
    exact built.comp.packed _ (List.getElem_mem bound)
  have anti := antipodalOf_lt idx treeDepth
  rcases valueAt idx inside with ⟨v, own⟩
  rcases valueAt _ anti with ⟨w, opposite⟩
  rcases built.zX with ⟨z, zX⟩
  rcases built.comboPos with ⟨pos, comboPos⟩
  rcases built.comboNeg with ⟨neg, comboNeg⟩
  refine ⟨(v - pos) / (baseValue (cosetPoint treeDepth idx).re - z),
    (w - neg) / (-baseValue (cosetPoint treeDepth idx).re - z), ?_⟩
  rw [quotients, own, opposite, zX, comboPos, comboNeg, cosetAt_eq built.depth_le, coords]
  dsimp only
  rw [qm31FromM31_word, qm31Neg_word, qm31Sub_word, qm31Sub_word, qm31Sub_word, qm31Sub_word,
    qm31Div_word, qm31Div_word]

theorem ok_bind {α β ε : Type} (a : α) (f : α → Except ε β) : (Except.ok a >>= f) = f a := rfl

theorem getElem?_of_lt {values : List ℕ} {i : ℕ} (inside : i < values.length) :
    values[i]? = some (values.getD i 0) := by
  rw [List.getElem?_eq_getElem inside, List.getD_eq_getElem _ _ inside]

/-- Every query of a built chain is extracted, without a mismatch. -/
theorem extractQuery_faithful {ch : Vfri11Chain} {treeDepth idx : ℕ} {lastRoot : Bytes32}
    (built : ch.Built t8Backend treeDepth) (inside : idx < 2 ^ treeDepth)
    (lastRootAt : ch.layerRoots[ch.numFolds]? = some lastRoot) :
    ∃ q, extractQuery ch treeDepth idx = .ok q ∧
      FaithfulQuery ch treeDepth idx (p2t8NodeWords lastRoot) (p2t8NodeWords ch.compRoot) q := by
  rcases built.layers with ⟨first, layers, count, friAlphas, layerValues, layerLevels, layerRoots,
    committed, opened, rounds⟩
  rcases quotients_word built inside with ⟨plus, minus, quotient⟩
  rcases built.friAlpha with ⟨alpha, friAlpha⟩
  have deep := built.depth_ge
  have folds := built.folds
  have circle : foldTwo (stepOf ch treeDepth idx).fPlus (stepOf ch treeDepth idx).fMinus
      (stepOf ch treeDepth idx).friAlpha (stepOf ch treeDepth idx).yInv =
        circleFold (qm31Word plus) (qm31Word minus) ch.friAlpha
          (m31Inv (cosetAt treeDepth idx).2) := by
    simp only [stepOf, quotient, friAlpha]
    rw [cosetAt_eq built.depth_le]
    exact foldTwo_circle plus minus alpha _
  have start : first.values[idx]? = some (foldTwo (stepOf ch treeDepth idx).fPlus
      (stepOf ch treeDepth idx).fMinus (stepOf ch treeDepth idx).friAlpha
      (stepOf ch treeDepth idx).yInv) := by
    rw [circle, opened idx inside, quotient]
  rcases extractRounds_spec built.depth_le (by rw [List.drop_zero]; exact layerValues)
    (by rw [List.drop_zero]; exact friAlphas) committed.length committed.packed rounds (by omega)
    start with ⟨extracted, last, read, lastAt, arrived, lengths⟩
  rw [Nat.zero_add, count] at read lastAt arrived
  have layerAt : ∃ layer, (first :: layers)[ch.numFolds]? = some layer ∧
      Committed t8Backend (treeDepth - ch.numFolds) layer.values layer.levels layer.root := by
    rw [← count]
    cases layers with
    | nil => exact ⟨first, rfl, committed⟩
    | cons second rest =>
        have present : ∃ layer, (second :: rest)[rest.length]? = some layer :=
          ⟨_, List.getElem?_eq_getElem (by rw [List.length_cons]; exact Nat.lt_succ_self _)⟩
        rcases present with ⟨layer, found⟩
        have own := rounds.committed found
        rw [Nat.zero_add] at own
        exact ⟨layer, found, own⟩
  rcases layerAt with ⟨layer, found, lastCommitted⟩
  have valuesAt : ch.layerValues[ch.numFolds]? = some layer.values := by
    rw [layerValues, List.getElem?_map, found]
    rfl
  have levelsAt : ch.layerLevels[ch.numFolds]? = some layer.levels := by
    rw [layerLevels, List.getElem?_map, found]
    rfl
  have rootAt : ch.layerRoots[ch.numFolds]? = some layer.root := by
    rw [layerRoots, List.getElem?_map, found]
    rfl
  have sameValues : layer.values = last := Option.some.inj (valuesAt.symm.trans lastAt)
  have sameRoot : layer.root = lastRoot := Option.some.inj (rootAt.symm.trans lastRootAt)
  rw [← sameValues] at arrived
  have anti := antipodalOf_lt idx treeDepth
  have posAt : ch.compValues[idx]? = some (ch.compValues.getD idx 0) :=
    getElem?_of_lt (by rwa [built.comp.length])
  have negAt : ch.compValues[antipodalOf idx treeDepth]? =
      some (ch.compValues.getD (antipodalOf idx treeDepth) 0) :=
    getElem?_of_lt (by rwa [built.comp.length])
  rcases pathWords_committed lastCommitted arrived with ⟨sibs, path, climbed⟩
  rcases pathWords_committed built.comp posAt with ⟨posSibs, posPath, posClimbed⟩
  rcases pathWords_committed built.comp negAt with ⟨negSibs, negPath, negClimbed⟩
  have final : recursiveQueryFinal (stepOf ch treeDepth idx) extracted =
      foldRounds (foldTwo (stepOf ch treeDepth idx).fPlus (stepOf ch treeDepth idx).fMinus
        (stepOf ch treeDepth idx).friAlpha (stepOf ch treeDepth idx).yInv) extracted :=
    recursiveQueryFinal_eq _ _
  rw [← final] at arrived climbed
  have inRange : ¬ (ch.compValues.length ≤ idx ∨ ch.compValues.length ≤ antipodalOf idx treeDepth) := by
    rw [built.comp.length, not_or, not_le, not_le]
    exact ⟨inside, anti⟩
  have done : extractQuery ch treeDepth idx = .ok {
      query := (stepOf ch treeDepth idx, extracted)
      path := (sibs, Merkle.indexBits (treeDepth - ch.numFolds)
        (idx % 2 ^ (treeDepth - ch.numFolds)))
      compPath := ⟨posSibs, Merkle.indexBits treeDepth idx, negSibs,
        Merkle.indexBits treeDepth (antipodalOf idx treeDepth)⟩
      final := recursiveQueryFinal (stepOf ch treeDepth idx) extracted } := by
    rw [extractQuery]
    dsimp only
    rw [if_neg inRange, read, ok_bind, valuesAt, levelsAt, Option.bind_some, arrived]
    dsimp only
    rw [if_neg (not_not.mpr rfl), path, ok_bind, posPath, ok_bind, negPath, ok_bind]
    rfl
  exact ⟨_, done, {
    step := rfl
    rounds := lengths.trans count
    folded := rfl
    final := by rw [valuesAt, Option.bind_some, arrived]
    bits := rfl
    path := by rw [← sameRoot, climbed]
    posBits := rfl
    negBits := rfl
    compPos := ⟨_, posAt, posClimbed⟩
    compNeg := ⟨_, negAt, negClimbed⟩ }⟩

/-- The inputs extracted for a chain represent it, whenever the chain is returned: extraction
never fails on its own, and for every derived index, which may repeat, the steps, rounds, values
and paths are those of the chain at that index. -/
theorem genVfri11RecursionInputs_faithful {cols : List (List UInt32)} {treeDepth nQueries : ℕ}
    {batchMerkleRoot : List UInt8} {numFoldsOpt : Option ℕ} {ch : Vfri11Chain}
    (done : vfri11FriChain cols treeDepth batchMerkleRoot nQueries numFoldsOpt = .ok ch) :
    ∃ inputs, genVfri11RecursionInputs cols treeDepth batchMerkleRoot nQueries numFoldsOpt =
        .ok inputs ∧ inputs.Faithful ch treeDepth := by
  have built := vfriFriChain_built t8Draws done
  have lastRootAt : ∃ lastRoot, ch.layerRoots[ch.numFolds]? = some lastRoot := by
    rcases built.layers with ⟨first, layers, count, -, -, -, layerRoots, -⟩
    rw [layerRoots, ← count]
    exact ⟨_, List.getElem?_eq_getElem (by
      rw [List.length_map, List.length_cons]
      exact Nat.lt_succ_self _)⟩
  rcases lastRootAt with ⟨lastRoot, rootAt⟩
  have each (idx : ℕ) (member : idx ∈ ch.derivedIndices) :=
    extractQuery_faithful built (built.indices idx member) rootAt
  have extracts : ∃ extracted, ch.derivedIndices.mapM (extractQuery ch treeDepth) = .ok extracted :=
    mapM_succeeds fun idx member => (each idx member).imp fun q => And.left
  rcases extracts with ⟨extracted, pushed⟩
  rcases mapM_ok pushed with ⟨lengths, entries⟩
  refine ⟨_, by rw [genVfri11RecursionInputs, done, ok_bind, pushed, ok_bind, rootAt]; rfl, {
    lastLayerRoot := by rw [rootAt]; rfl
    compRoot := rfl
    queries := by rw [List.length_map, lengths]
    paths := by rw [List.length_map, lengths]
    compPaths := by rw [List.length_map, lengths]
    finals := by rw [List.length_map, lengths]
    query := ?_ }⟩
  intro i idx found
  rcases entries i idx found with ⟨q, place, extraction⟩
  rcases each idx (List.mem_of_getElem? found) with ⟨other, again, faithful⟩
  have same : q = other := Except.ok.inj (extraction.symm.trans again)
  subst same
  exact ⟨q, by rw [List.getElem?_map, place]; rfl, by rw [List.getElem?_map, place]; rfl,
    by rw [List.getElem?_map, place]; rfl, by rw [List.getElem?_map, place]; rfl, faithful⟩

/-- One column over four points. -/
def sampleCols : List (List UInt32) := [[1, 2, 3, 4]]

set_option maxRecDepth 10000 in
theorem sampleChain_seeded {seed : List UInt8} (length : seed.length = 32) :
    ∃ ch, vfri11FriChain sampleCols 2 seed 1 none = .ok ch := by
  have traced : traceRootOf t8Backend sampleCols 2 = _ := traceRootOf_eq rfl rfl
  have checked : checkInputs sampleCols 2 seed 1 = .ok () := by
    rw [checkInputs, length]
    rfl
  apply vfriFriChain_succeeds checked traced rfl
  decide +kernel

theorem sampleChain_succeeds :
    ∃ ch, vfri11FriChain sampleCols 2 (List.replicate 32 0) 1 none = .ok ch :=
  sampleChain_seeded List.length_replicate

theorem sampleInputs_faithful :
    ∃ ch inputs, vfri11FriChain sampleCols 2 (List.replicate 32 0) 1 none = .ok ch ∧
      genVfri11RecursionInputs sampleCols 2 (List.replicate 32 0) 1 none = .ok inputs ∧
        inputs.Faithful ch 2 := by
  rcases sampleChain_succeeds with ⟨ch, done⟩
  rcases genVfri11RecursionInputs_faithful done with ⟨inputs, extracted, faithful⟩
  exact ⟨ch, inputs, done, extracted, faithful⟩

end Vfri2
end QLSA
