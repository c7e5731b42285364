import QLSA.Contracts.HonestQueries

namespace QLSA
namespace Contracts
namespace VFRI11

open Mersenne Verifier
open Stwo (hashPairP2T8)
open Vfri2 (Vfri11Chain FriLayer HintOf QueryHintDataV5 FoldHintData HashBytes hashBytes qm31Word
  t8Backend CanonicalNode nodeOfBytes)
open Machine (Byte bigEndian ofBigEndian bigEndian_length bigEndian_succ ofBigEndian_cons)

/-!
# Generated proofs

What the generator returns for a chain is decoded to the hints it wrote, the
contract draws the challenges the chain was folded with, and every query
passes.  So a proof is refused for what its chain is, never for its hints: a
digest or a root that is zero, more rounds than the contract admits, or a last
layer that is too large for it.
-/

/-! ## Bytes -/

section Bytes

theorem ofBigEndian_lt (bytes : List Byte) : ofBigEndian bytes < 256 ^ bytes.length := by
  induction bytes with
  | nil => exact Nat.one_pos
  | cons byte rest ih =>
      have small := byte.isLt
      rw [ofBigEndian_cons, List.length_cons, pow_succ]
      nlinarith

/-- Bytes are read back from every value that ends on theirs. -/
theorem bigEndian_value (above : ℕ) (bytes : List Byte) :
    bigEndian bytes.length (above * 256 ^ bytes.length + ofBigEndian bytes) = bytes := by
  induction bytes generalizing above with
  | nil => rfl
  | cons byte rest ih =>
      have positive : 0 < 256 ^ rest.length := Nat.pow_pos (by decide)
      have power : 2 ^ (8 * rest.length) = 256 ^ rest.length := by rw [pow_mul]; rfl
      have split : above * 256 ^ (rest.length + 1) + ofBigEndian (byte :: rest) =
          (above * 256 + byte.toNat) * 256 ^ rest.length + ofBigEndian rest := by
        rw [ofBigEndian_cons, pow_succ]
        ring
      have high : (((above * 256 + byte.toNat) * 256 ^ rest.length + ofBigEndian rest) >>>
          (8 * rest.length)) = above * 256 + byte.toNat := by
        rw [Nat.shiftRight_eq_div_pow, power, Nat.mul_comm, Nat.mul_add_div positive,
          Nat.div_eq_of_lt (ofBigEndian_lt rest), Nat.add_zero]
      have first : BitVec.ofNat 8 (above * 256 + byte.toNat) = byte := by
        have small := byte.isLt
        apply BitVec.eq_of_toNat_eq
        rw [BitVec.toNat_ofNat]
        omega
      rw [List.length_cons, split, bigEndian_succ, high, first, ih]

theorem bigEndian_nodeOfBytes {bytes : List UInt8} (length : bytes.length = 32) :
    bigEndian 32 (nodeOfBytes bytes).toNat = bytes.map UInt8.toBitVec := by
  have value : bytes.foldl (fun n byte => n * 256 + byte.toNat) 0 =
      ofBigEndian (bytes.map UInt8.toBitVec) := by
    rw [ofBigEndian, List.foldl_map]
    rfl
  have count : (bytes.map UInt8.toBitVec).length = 32 := by rw [List.length_map, length]
  have small := ofBigEndian_lt (bytes.map UInt8.toBitVec)
  have own := bigEndian_value 0 (bytes.map UInt8.toBitVec)
  rw [count] at small own
  rw [nodeOfBytes, value, BitVec.toNat_ofNat, Nat.mod_eq_of_lt (small.trans_le (by decide))]
  rwa [Nat.zero_mul, Nat.zero_add] at own

end Bytes

/-! ## Queries -/

section Queries

variable {ch : Vfri11Chain} {ctx : VerifyCtx} {treeDepth idx : ℕ} {first : FriLayer}
  {layers : List FriLayer} {data : QueryHintDataV5}

/-- A query as the decoder returns it. -/
def decodedQuery (data : QueryHintDataV5) : QueryHints := queryHintsOf data.values

theorem decodedFold_map (data : QueryHintDataV5) :
    (decodedQuery data).folds = data.folds.map decodedFold :=
  List.map_map

/-- The context of a chain. -/
structure ContextOf (ctx : VerifyCtx) (ch : Vfri11Chain) : Prop where
  zX : ctx.z_x.val = ch.zX
  friAlpha : ctx.friAlpha.val = ch.friAlpha
  comboPos : ctx.oodsComboPos.val = ch.oodsComboPos
  comboNeg : ctx.oodsComboNeg.val = ch.oodsComboNeg
  compRoot : ctx.compRoot = ch.compRoot
  friLayerRoots : ctx.friLayerRoots = ch.layerRoots
  friAlphas : ctx.friAlphas.map Fin.val = ch.friAlphas
  derivedIndices : ctx.derivedIndices.map Fin.val = ch.derivedIndices

theorem uint256Of_val {value : ℕ} (small : value < 2 ^ 256) : (uint256Of value).val = value :=
  Nat.mod_eq_of_lt small

theorem decodedWord {width value : ℕ} {data : BitVec width} (same : data = BitVec.ofNat width value)
    (small : value < 2 ^ width) (narrow : width ≤ 256) : (uint256Of data.toNat).val = value := by
  rw [same, BitVec.toNat_ofNat, Nat.mod_eq_of_lt small]
  exact uint256Of_val (small.trans_le (Nat.pow_le_pow_right (by decide) narrow))

/-- The words of a decoded query. -/
structure DecodedOf (h : QueryHints) (treeDepth idx : ℕ) : Prop where
  queryIndex : h.queryIndex.val = idx
  depth : h.treeDepth.val = treeDepth
  pointX : h.queryPointX.val = (Vfri2.cosetAt treeDepth idx).1
  pointY : h.queryPointY.val = (Vfri2.cosetAt treeDepth idx).2

theorem decodedQuery_of (hint : HintOf ch treeDepth first layers idx data)
    (bounded : treeDepth ≤ 30) (inside : idx < 2 ^ treeDepth) :
    DecodedOf (decodedQuery data) treeDepth idx := by
  have index : idx < 2 ^ 64 := inside.trans_le (Nat.pow_le_pow_right (by decide) (by omega))
  have depth : treeDepth < 2 ^ 32 := by omega
  have coset : Vfri2.cosetAt treeDepth idx =
      ((cosetPoint treeDepth idx).re.val, (cosetPoint treeDepth idx).im.val) :=
    Vfri2.cosetAt_eq bounded idx
  have small (x : M31) : x.val < 2 ^ 32 := (ZMod.val_lt x).trans_le (by decide)
  have pointX := hint.pointX
  have pointY := hint.pointY
  refine ⟨decodedWord hint.queryIndex index (by decide),
    decodedWord hint.depth depth (by decide), decodedWord pointX ?_ (by decide),
    decodedWord pointY ?_ (by decide)⟩
  · rw [coset]
    exact small _
  · rw [coset]
    exact small _

theorem verifyQuery_passes (hint : HintOf ch treeDepth first layers idx data)
    (built : ch.Built t8Backend treeDepth) (regular : ch.Regular treeDepth)
    (layered : ch.Layers treeDepth first layers) (context : ContextOf ctx ch)
    (inside : idx < 2 ^ treeDepth) : verifyQuery (decodedQuery data) ctx = some true := by
  have deep := built.depth_ge
  have bounded := built.depth_le
  have few := built.folds
  have narrow : 2 ^ treeDepth ≤ 2 ^ 30 := Nat.pow_le_pow_right (by decide) bounded
  have halves : 2 ^ (treeDepth - 1) ≤ 2 ^ treeDepth :=
    Nat.pow_le_pow_right (by decide) (Nat.sub_le _ _)
  have positive := Nat.two_pow_pos treeDepth
  have words := decodedQuery_of hint bounded inside
  have antiInside := Vfri2.antipodalOf_lt idx treeDepth
  rcases hint.comp with ⟨value, valueAt, valueWord, opening⟩
  rcases hint.compNeg with ⟨valueNeg, valueNegAt, valueNegWord, openingNeg⟩
  rcases hint.folded with ⟨foldedValue, foldedAt, foldedWord, foldedOpening⟩
  rcases built.comp.packed value (List.mem_of_getElem? valueAt) with ⟨v, rfl⟩
  rcases built.comp.packed valueNeg (List.mem_of_getElem? valueNegAt) with ⟨w, rfl⟩
  rcases layered.committed.packed foldedValue (List.mem_of_getElem? foldedAt) with ⟨f, rfl⟩
  have own : (decodedQuery data).compValue = uint128Of (qm31Word v) := decodedValue valueWord
  have opposite : (decodedQuery data).compValueNeg = uint128Of (qm31Word w) :=
    decodedValue valueNegWord
  have start : (decodedQuery data).foldedValue = uint128Of (qm31Word f) := decodedValue foldedWord
  have startVal : (decodedQuery data).foldedValue.val = qm31Word f := by
    rw [start, uint128Of_val (qm31Word_lt f)]
  have quotientsOf : QuotientsOf (decodedQuery data) ctx ch treeDepth idx := by
    refine ⟨words.pointX, ?_, ?_, context.zX, context.comboPos, context.comboNeg⟩
    · rw [own, uint128Of_val (qm31Word_lt v), Vfri2.getD_of_getElem? valueAt]
    · rw [opposite, uint128Of_val (qm31Word_lt w), Vfri2.getD_of_getElem? valueNegAt]
  rcases verifyOODS_passes quotientsOf built regular inside with ⟨fPlus, fMinus, oods, quotient⟩
  rcases built.friAlpha with ⟨alpha, alphaWord⟩
  have committed := layered.opened idx inside
  rw [foldedAt, quotient, alphaWord] at committed
  have circle : checkCircleFold (qm31Word fPlus) (qm31Word fMinus) (decodedQuery data)
      (qm31Word alpha) = some true :=
    checkCircleFold_passes words.depth words.queryIndex words.pointX words.pointY
      (startVal.trans (Option.some.inj committed)) (by omega) bounded inside
  have compOpens : verifyMem ctx.compRoot (valueLeaf (decodedQuery data).compValue) idx treeDepth
      (decodedQuery data).compProof = true := by
    rw [own, context.compRoot]
    exact verifyMem_opening opening (by omega) inside (qm31Word_lt v)
  have compNegOpens : verifyMem ctx.compRoot (valueLeaf (decodedQuery data).compValueNeg)
      (Vfri2.antipodalOf idx treeDepth) treeDepth (decodedQuery data).compProofNeg = true := by
    rw [opposite, context.compRoot]
    exact verifyMem_opening openingNeg (by omega) antiInside (qm31Word_lt w)
  have firstOpens : verifyMem first.root (valueLeaf (decodedQuery data).foldedValue) idx treeDepth
      (decodedQuery data).friL1Siblings = true := by
    rw [start]
    exact verifyMem_opening foldedOpening (by omega) inside (qm31Word_lt f)
  have roots : ctx.friLayerRoots = (first :: layers).map FriLayer.root :=
    context.friLayerRoots.trans layered.layerRoots
  have firstRoot : ctx.friLayerRoots[0]? = some first.root := by
    rw [roots]
    rfl
  have rounds : verifyFolds (decodedQuery data) ctx = some true := by
    have count : checkedSub ctx.friLayerRoots.length 1 = some layers.length := by
      rw [roots, List.length_map, List.length_cons, checkedSub_eq (by omega),
        Nat.add_sub_cancel]
    have folds := decodedFold_map data
    rw [verifyFolds, count, words.queryIndex, startVal]
    exact verifyFoldsFrom_passes hint.folds (by rw [List.drop_zero, roots])
      (by rw [List.drop_zero, context.friAlphas, layered.friAlphas])
      (by rw [List.drop_zero, folds]) words.depth bounded (by rw [layered.count]; omega)
      layered.committed layered.rounds foldedAt
  have above : checkedSub treeDepth 1 = some (treeDepth - 1) := checkedSub_eq (by omega)
  have half : oneShifted (treeDepth - 1) = 2 ^ (treeDepth - 1) := oneShifted_eq (by omega)
  have size : oneShifted treeDepth = 2 ^ treeDepth := oneShifted_eq (by omega)
  have shifted : checkedAdd idx (2 ^ (treeDepth - 1)) = some (idx + 2 ^ (treeDepth - 1)) :=
    checkedAdd_eq (by simp only [uintModulus]; omega)
  have mask : checkedSub (2 ^ treeDepth) 1 = some (2 ^ treeDepth - 1) := checkedSub_eq positive
  have anti : idx + 2 ^ (treeDepth - 1) &&& 2 ^ treeDepth - 1 = Vfri2.antipodalOf idx treeDepth :=
    rfl
  have alphaVal : ctx.friAlpha.val = qm31Word alpha := context.friAlpha.trans alphaWord
  simp only [verifyQuery, words.queryIndex, words.depth, compOpens, above, half, shifted, size,
    mask, anti, compNegOpens, oods, alphaVal, circle, firstRoot, firstOpens, rounds,
    Option.bind_eq_bind, Option.bind_some, Bool.not_true, Bool.false_eq_true, if_false]

theorem hintOf_mem {indices : List ℕ} {hints : List QueryHintDataV5}
    (all : List.Forall₂ (HintOf ch treeDepth first layers) indices hints) (member : data ∈ hints) :
    ∃ idx ∈ indices, HintOf ch treeDepth first layers idx data := by
  rcases List.forall₂_iff_get.mp all with ⟨lengths, own⟩
  rcases List.getElem_of_mem member with ⟨i, within, rfl⟩
  exact ⟨_, List.getElem_mem _, own i (lengths ▸ within) within⟩

/-- The queries pass one after the other. -/
theorem verifyQueries_pass {indices : List ℕ} {hints : List QueryHintDataV5} {i : ℕ}
    (all : List.Forall₂ (HintOf ch treeDepth first layers) indices hints)
    (built : ch.Built t8Backend treeDepth) (regular : ch.Regular treeDepth)
    (layered : ch.Layers treeDepth first layers) (context : ContextOf ctx ch)
    (derived : (ctx.derivedIndices.map Fin.val).drop i = indices)
    (inside : ∀ idx ∈ indices, idx < 2 ^ treeDepth) :
    verifyQueries ctx i (hints.map decodedQuery) = some true := by
  induction all generalizing i with
  | nil => rfl
  | @cons idx data indices hints hint _ ih =>
      rw [List.forall_mem_cons] at inside
      rcases front_of_drop derived with ⟨derivedAt, later⟩
      rw [List.getElem?_map] at derivedAt
      rcases Option.map_eq_some_iff.mp derivedAt with ⟨query, queryAt, value⟩
      have words := decodedQuery_of hint built.depth_le inside.1
      have same : (decodedQuery data).queryIndex = query :=
        Fin.ext (words.queryIndex.trans value.symm)
      have passed := verifyQuery_passes hint built regular layered context inside.1
      rw [List.map_cons, verifyQueries, queryAt, Option.bind_eq_bind, Option.bind_some,
        if_neg (not_not.mpr same), passed]
      exact ih later inside.2

end Queries

/-! ## The last layer -/

section LastLayer

open Vfri2 (Committed)

variable {treeDepth : ℕ}

/-- The last of the layers is committed as the first is. -/
theorem committed_last {layers : List FriLayer} {k : ℕ} {prev last : FriLayer}
    (committed : Committed t8Backend (treeDepth - k) prev.values prev.levels prev.root)
    (rounds : Vfri2.Rounds t8Backend treeDepth k prev.values layers)
    (lastAt : (prev :: layers)[layers.length]? = some last) :
    Committed t8Backend (treeDepth - (k + layers.length)) last.values last.levels last.root := by
  induction layers generalizing k prev with
  | nil =>
      cases lastAt
      exact committed
  | cons next rest ih =>
      rcases rounds with ⟨-, -, nextCommitted, further⟩
      have later := ih nextCommitted further lastAt
      rwa [List.length_cons, Nat.add_comm rest.length, ← Nat.add_assoc]

theorem checkLastLayer_eq {height : ℕ} {values : List ℕ} {levels : List (List Bytes32)}
    {root : Bytes32} (committed : Committed t8Backend height values levels root)
    (shallow : height ≤ 30) :
    checkLastLayer (values.map uint128Of) root height = some (decide (height ≤ 16)) := by
  have size : oneShifted height = 2 ^ height := oneShifted_eq (by omega)
  have length : (values.map uint128Of).length = 2 ^ height := by
    rw [List.length_map, committed.length]
  have leaves : (values.map uint128Of).map valueLeaf = values.map Vfri2.hashLeafQm31P2T8 := by
    rw [List.map_map]
    apply List.map_congr_left
    intro value member
    rcases committed.packed value member with ⟨q, rfl⟩
    exact valueLeaf_eq (qm31Word_lt q)
  have canonical : ∀ leaf ∈ values.map Vfri2.hashLeafQm31P2T8, CanonicalNode leaf := by
    intro leaf member
    rcases List.mem_map.mp member with ⟨value, -, rfl⟩
    exact Vfri2.hashLeafQm31P2T8_canonical value
  have count : (values.map Vfri2.hashLeafQm31P2T8).length = 2 ^ height := by
    rw [List.length_map, committed.length]
  have nonempty : values.map Vfri2.hashLeafQm31P2T8 ≠ [] := by
    apply List.ne_nil_of_length_pos
    rw [count]
    exact Nat.two_pow_pos height
  have same (left right : Bytes32) (first : CanonicalNode left) (second : CanonicalNode right) :
      hashPair left right = hashPairP2T8 left right := by
    rw [hashPair_eq, fieldPair_eq left right first second]
  have reduced : (Merkle.reduceInPlace hashPair 0 (2 ^ height)
      (values.map Vfri2.hashLeafQm31P2T8))[0]? = some root := by
    rw [Merkle.reduceInPlace_root count.ge, ← count, List.take_length,
      Merkle.apex_congr same Vfri2.hashPairP2T8_canonical canonical nonempty]
    exact committed.root_eq
  by_cases small : height ≤ 16
  · have admitted : ¬ maxLastLayerSize < 2 ^ height :=
      not_lt.mpr (Nat.pow_le_pow_right (by decide) small)
    rw [checkLastLayer, size, length, if_neg (not_not.mpr rfl), if_neg admitted, leaves, reduced,
      Option.bind_eq_bind, Option.bind_some, beq_self_eq_true, decide_eq_true small]
  · have refused : maxLastLayerSize < 2 ^ height := by
      have above : 2 ^ 17 ≤ 2 ^ height := Nat.pow_le_pow_right (by decide) (by omega)
      exact lt_of_lt_of_le (by decide) above
    rw [checkLastLayer, size, length, if_neg (not_not.mpr rfl), if_pos refused,
      decide_eq_false small]

end LastLayer

/-! ## The context -/

section Context

variable {ch : Vfri11Chain} {ctx : VerifyCtx} {cols : List (List UInt32)}
  {treeDepth nQueries : ℕ} {batchMerkleRoot : List UInt8} {numFoldsOpt : Option ℕ}

/-- What a context has from its arguments. -/
theorem buildCtx_keeps {embeddedRoot compRoot merkleRoot : Bytes32} {pos neg : Uint128}
    {friLayerRoots : List Bytes32} {logDomainSize : ℕ}
    (built : buildCtx embeddedRoot pos neg compRoot friLayerRoots nQueries logDomainSize
      merkleRoot = some ctx) :
    ctx.oodsComboPos = pos ∧ ctx.oodsComboNeg = neg ∧ ctx.compRoot = compRoot ∧
      ctx.friLayerRoots = friLayerRoots := by
  cases friLayerRoots with
  | nil => cases built
  | cons first roots =>
      rcases Option.bind_eq_some_iff.mp built with ⟨drawn, -, made⟩
      cases made
      exact ⟨rfl, rfl, rfl, rfl⟩

theorem buildCtx_of (built : ch.Built t8Backend treeDepth)
    (done : Vfri2.vfri11FriChain cols treeDepth batchMerkleRoot nQueries numFoldsOpt = .ok ch)
    (capped : ch.numFolds ≤ 28) :
    ∃ ctx, buildCtx ch.traceRoot (uint128Of ch.oodsComboPos) (uint128Of ch.oodsComboNeg)
        ch.compRoot ch.layerRoots nQueries treeDepth (nodeOfBytes batchMerkleRoot) = some ctx ∧
      ContextOf ctx ch := by
  rcases Vfri2.vfri11FriChain_replayed done with ⟨first, roots, listed, count, -, replayed⟩
  rcases built.comboPos with ⟨pos, posWord⟩
  rcases built.comboNeg with ⟨neg, negWord⟩
  have posSmall : ch.oodsComboPos < 2 ^ 128 := by
    rw [posWord]
    exact qm31Word_lt pos
  have negSmall : ch.oodsComboNeg < 2 ^ 128 := by
    rw [negWord]
    exact qm31Word_lt neg
  have accepted := ch.published_accepted done listed count capped
  let inner : InnerPublics Bytes32 := {
    traceRoot := ch.traceRoot
    oodsComboPos := ch.oodsComboPos
    oodsComboNeg := ch.oodsComboNeg
    compRoot := ch.compRoot
    friLayerRoots := ch.layerRoots
    batchRoot := nodeOfBytes batchMerkleRoot
    treeDepth := treeDepth
    nQueries := nQueries }
  rcases @buildCtx_eq inner first roots ⟨posSmall, negSmall⟩ accepted listed with
    ⟨ctx, made, drawn⟩
  have same : ctx.challenges = ch.challenges := drawn.trans replayed
  have posVal : (⟨ch.oodsComboPos, posSmall⟩ : Uint128) = uint128Of ch.oodsComboPos :=
    Fin.ext (uint128Of_val posSmall).symm
  have negVal : (⟨ch.oodsComboNeg, negSmall⟩ : Uint128) = uint128Of ch.oodsComboNeg :=
    Fin.ext (uint128Of_val negSmall).symm
  rcases buildCtx_keeps made with ⟨comboPos, comboNeg, compRoot, friLayerRoots⟩
  refine ⟨ctx, ?_, ?_⟩
  · rw [← posVal, ← negVal]
    exact made
  · exact {
      zX := congrArg Vfri2.Vfri11ChannelChallenges.zX same
      friAlpha := congrArg Vfri2.Vfri11ChannelChallenges.friAlpha same
      comboPos := congrArg Fin.val comboPos
      comboNeg := congrArg Fin.val comboNeg
      compRoot := compRoot
      friLayerRoots := friLayerRoots
      friAlphas := congrArg Vfri2.Vfri11ChannelChallenges.friAlphas same
      derivedIndices := congrArg Vfri2.Vfri11ChannelChallenges.queryIndices same }

end Context

/-! ## Decoded hints -/

section Decoding

open Vfri2 (Opening FoldsOf encodeUint128Array encodeFoldHint
  encodeFoldHintsArray encodeQueryHintV5 encodeQueryHintsArrayV5 encodeTuplesArray
  abiEncodeQueryHints)

variable {ch : Vfri11Chain} {treeDepth idx : ℕ} {first : FriLayer} {layers : List FriLayer}

theorem opening_length {height index value : ℕ} {root : Bytes32} {path : List HashBytes}
    (opening : Opening height root index value path) : path.length = height := by
  rcases opening with ⟨siblings, rfl, length, -, -⟩
  rw [List.length_map, length]

theorem encodeTuplesArray_length_le {α : Type} {encode : α → List Byte} {list : List α}
    {bound : ℕ} (each : ∀ a ∈ list, (encode a).length ≤ bound) :
    (encodeTuplesArray encode list).length ≤ 32 + list.length * (32 + bound) := by
  have bodies : (list.flatMap encode).length ≤ list.length * bound := by
    rw [List.length_flatMap, ← smul_eq_mul, ← @List.length_map _ _ list fun a => (encode a).length]
    apply List.sum_le_card_nsmul
    intro length member
    rcases List.mem_map.mp member with ⟨a, inside, rfl⟩
    exact each a inside
  rw [Vfri2.encodeTuplesArray_length, Nat.mul_add]
  omega

/-- No path of a fold is longer than the domain is deep. -/
theorem foldsOf_length_le {k curIdx : ℕ} {prev : FriLayer} {hints : List FoldHintData}
    (folds : FoldsOf treeDepth k prev layers curIdx hints) :
    ∀ hint ∈ hints, (encodeFoldHint hint).length ≤ 192 + 64 * treeDepth := by
  induction folds with
  | nil => exact fun hint member => absurd member List.not_mem_nil
  | cons own _ ih =>
      rcases own.sibling with ⟨_, -, -, sibling⟩
      rcases own.folded with ⟨_, -, -, folded⟩
      have siblings := opening_length sibling
      have path := opening_length folded
      refine List.forall_mem_cons.mpr ⟨?_, ih⟩
      simp only [encodeFoldHint, List.length_append, Vfri2.abiWordU128_length,
        Vfri2.abiWordUsize_length, Vfri2.encodeBytes32Array_length]
      omega

theorem hintOf_length_le {data : QueryHintDataV5}
    (hint : HintOf ch treeDepth first layers idx data) (bounded : treeDepth ≤ 30)
    (few : layers.length ≤ 30) : (encodeQueryHintV5 data).length ≤ 2 ^ 17 := by
  rcases hint.comp with ⟨_, -, -, comp⟩
  rcases hint.compNeg with ⟨_, -, -, compNeg⟩
  rcases hint.folded with ⟨_, -, -, folded⟩
  have path := opening_length comp
  have pathNeg := opening_length compNeg
  have siblings := opening_length folded
  have count := hint.folds.length
  have each (fold : FoldHintData) (member : fold ∈ data.folds) :
      (encodeFoldHint fold).length ≤ 2112 :=
    (foldsOf_length_le hint.folds fold member).trans (by omega)
  have folds := encodeTuplesArray_length_le each
  simp only [encodeQueryHintV5, encodeFoldHintsArray, List.length_append,
    Vfri2.abiWordU128_length, Vfri2.abiWordU256_length, Vfri2.abiWordUsize_length,
    Vfri2.encodeBytes32Array_length]
  omega

variable {pos neg : BitVec 128} {comp : HashBytes} {evals : List (BitVec 128)}
  {roots : List HashBytes} {hints : List QueryHintDataV5}

theorem encoded_length_lt (sized : evals.length ≤ 2 ^ 30) (few : roots.length ≤ 30)
    (asked : hints.length ≤ 64)
    (each : ∀ data ∈ hints, (encodeQueryHintV5 data).length ≤ 2 ^ 17) :
    (abiEncodeQueryHints pos neg comp evals roots hints).length < 2 ^ 63 := by
  have queries := encodeTuplesArray_length_le each
  simp only [abiEncodeQueryHints, encodeQueryHintsArrayV5, encodeUint128Array, List.length_append,
    Vfri2.abiWordU128_length, Vfri2.abiWordBytes32_length, Vfri2.abiWordUsize_length,
    Vfri2.encodeBytes32Array_length, Machine.flatMap_length Vfri2.abiWordU128_length]
  omega

theorem decodeHints_encoded
    (fits : (abiEncodeQueryHints pos neg comp evals roots hints).length < 2 ^ 63) :
    decodeHints (abiEncodeQueryHints pos neg comp evals roots hints) = some {
      oodsComboPos := uint128Of pos.toNat
      oodsComboNeg := uint128Of neg.toNat
      compRoot := bytes32Of comp.val
      lastLayerEvals := (evals.map BitVec.toNat).map uint128Of
      friLayerRoots := (roots.map Subtype.val).map bytes32Of
      hints := hints.map decodedQuery } := by
  have encodes := Vfri2.encodes_queryHints pos neg comp evals roots hints fits
  rcases encodes (abiEncodeQueryHints pos neg comp evals roots hints) 0 (List.prefix_refl _) with
    ⟨positions, read, -⟩
  have queries : (hints.map QueryHintDataV5.values).map queryHintsOf = hints.map decodedQuery :=
    List.map_map
  rw [decodeHints, read, ← queries]
  rfl

end Decoding

/-! ## The proof -/

section Proof

open Vfri2 (proofBytes commitmentInput vfri11FriChain genVfri11HintsFromColsNfolds)

variable {ch : Vfri11Chain} {cols : List (List UInt32)} {treeDepth nQueries : ℕ}
  {batchMerkleRoot : List UInt8} {numFoldsOpt : Option ℕ} {first : FriLayer}
  {layers : List FriLayer}

/-- No revert, and acceptance under the condition only. -/
def Settled (computation : Option Bool) (condition : Prop) : Prop :=
  ∃ accepted, computation = some accepted ∧ (accepted = true ↔ condition)

theorem Settled.guard {guard condition : Prop} [Decidable guard] {rest : Option Bool}
    (refused : guard → ¬ condition) (behind : ¬ guard → Settled rest condition) :
    Settled (if guard then some false else rest) condition := by
  by_cases holds : guard
  · rw [if_pos holds]
    exact ⟨false, rfl, iff_of_false Bool.false_ne_true (refused holds)⟩
  · rw [if_neg holds]
    exact behind holds

theorem Settled.passed {condition : Prop} (holds : condition) : Settled (some true) condition :=
  ⟨true, rfl, iff_of_true rfl holds⟩

/-- The commitment to the proof of a chain. -/
def commitmentOf (ch : Vfri11Chain) (batchMerkleRoot : List UInt8) : Bytes16 :=
  ⟨(Hash.Blake2s.digest (commitmentInput (proofBytes 5 ch.traceRoot)
    (batchMerkleRoot.map UInt8.toBitVec))).take 16, by
      rw [List.length_take, Hash.Blake2s.digest_length]
      rfl⟩

/-- What the contract asks of a chain.  A zero root or two zero combinations can only come out of
a hash or a challenge; the numbers of folds and of values in the last layer are caps that the
generator does not know. -/
structure Admits (ch : Vfri11Chain) (treeDepth : ℕ) (batchMerkleRoot : List UInt8) : Prop where
  commitment : (commitmentOf ch batchMerkleRoot).val ≠ List.replicate 16 0
  merkleRoot : nodeOfBytes batchMerkleRoot ≠ 0
  combos : ¬ (ch.oodsComboPos = 0 ∧ ch.oodsComboNeg = 0)
  compRoot : ch.compRoot ≠ 0
  layerRoots : 0 ∉ ch.layerRoots
  folds : ch.numFolds ≤ 28
  lastLayer : treeDepth - ch.numFolds ≤ 16

theorem proofBytes_length (version : ℕ) (traceRoot : Bytes32) :
    (proofBytes version traceRoot).length = 700 := by
  rw [proofBytes, List.length_append, List.length_append, List.length_reverse, bigEndian_length,
    bigEndian_length, List.length_replicate]

/-- The root behind the version. -/
theorem proofBytes_root (version : ℕ) (traceRoot : Bytes32) :
    bytes32Of (((proofBytes version traceRoot).drop 8).take 32) = traceRoot := by
  have front : (bigEndian 8 version).reverse.length = 8 := by
    rw [List.length_reverse, bigEndian_length]
  rw [proofBytes, List.append_assoc, List.drop_left' front, List.take_left' (bigEndian_length _ _)]
  exact bytes32Of_hashBytes traceRoot

theorem commitmentInput_eq (length : batchMerkleRoot.length = 32) (proof : List Byte) :
    commitmentInput proof (batchMerkleRoot.map UInt8.toBitVec) =
      proof.take 32 ++ bigEndian 32 (nodeOfBytes batchMerkleRoot).toNat := by
  rw [commitmentInput, bigEndian_nodeOfBytes length]

theorem commitmentOf_val (length : batchMerkleRoot.length = 32) :
    (commitmentOf ch batchMerkleRoot).val = (Hash.Blake2s.digest
      ((proofBytes 5 ch.traceRoot).take 32 ++
        bigEndian 32 (nodeOfBytes batchMerkleRoot).toNat)).take 16 := by
  have input := commitmentInput_eq length (proofBytes 5 ch.traceRoot)
  exact congrArg (fun input => (Hash.Blake2s.digest input).take 16) input

theorem checkCommitment_passes (length : batchMerkleRoot.length = 32) :
    checkCommitment (proofBytes 5 ch.traceRoot) (commitmentOf ch batchMerkleRoot)
      (nodeOfBytes batchMerkleRoot) = true := by
  have short : ((proofBytes 5 ch.traceRoot).take 32 ++
      bigEndian 32 (nodeOfBytes batchMerkleRoot).toNat).length < 2 ^ 32 := by
    rw [List.length_append, List.length_take, proofBytes_length, bigEndian_length]
    omega
  have hashed := Verifier.Blake2s.hashWith_eq Verifier.Blake2s.compress_eq short
  rw [checkCommitment, Verifier.Blake2s.hash, hashed, commitmentOf_val length]
  exact beq_self_eq_true _

theorem uint128Of_eq_zero {value : ℕ} (small : value < 2 ^ 128) :
    uint128Of value = 0 ↔ value = 0 := by
  constructor
  · intro zero
    rw [← uint128Of_val small, zero]
    rfl
  · rintro rfl
    rfl

theorem checkInputs_root
    (passed : Vfri2.checkInputs cols treeDepth batchMerkleRoot nQueries = .ok ()) :
    batchMerkleRoot.length = 32 := by
  rw [Vfri2.checkInputs] at passed
  split at passed
  case isTrue => cases passed
  case isFalse =>
    split at passed
    case isTrue => cases passed
    case isFalse sized => exact not_not.mp sized

theorem foldCount_pos {numFolds : ℕ} (deep : 2 ≤ treeDepth)
    (counted : Vfri2.foldCount treeDepth numFoldsOpt = .ok numFolds) : 1 ≤ numFolds := by
  cases numFoldsOpt with
  | none =>
      cases counted
      omega
  | some f =>
      rw [Vfri2.foldCount] at counted
      split at counted
      case isTrue range =>
        cases counted
        exact range.1
      case isFalse => cases counted

/-- The hints of a chain as the generator encodes them. -/
def encodedHints (ch : Vfri11Chain) (last : FriLayer) (hints : List QueryHintDataV5) : List Byte :=
  Vfri2.abiEncodeQueryHints (BitVec.ofNat 128 ch.oodsComboPos) (BitVec.ofNat 128 ch.oodsComboNeg)
    (hashBytes ch.compRoot) (last.values.map (BitVec.ofNat 128)) (ch.layerRoots.map hashBytes) hints

/-- The hints of a chain as the decoder returns them. -/
def decodedHints (ch : Vfri11Chain) (last : FriLayer) (hints : List QueryHintDataV5) :
    DecodedHints where
  oodsComboPos := uint128Of ch.oodsComboPos
  oodsComboNeg := uint128Of ch.oodsComboNeg
  compRoot := ch.compRoot
  lastLayerEvals := last.values.map uint128Of
  friLayerRoots := ch.layerRoots
  hints := hints.map decodedQuery

theorem decodeHints_encodedHints {last : FriLayer} {hints : List QueryHintDataV5}
    (fits : (encodedHints ch last hints).length < 2 ^ 63) :
    decodeHints (encodedHints ch last hints) = some (decodedHints ch last hints) := by
  have evals : ((last.values.map (BitVec.ofNat 128)).map BitVec.toNat).map uint128Of =
      last.values.map uint128Of := by
    rw [List.map_map, List.map_map]
    exact List.map_congr_left fun value _ => decodedValue rfl
  have roots : ((ch.layerRoots.map hashBytes).map Subtype.val).map bytes32Of = ch.layerRoots :=
    decodedPath_hashBytes ch.layerRoots
  have pos : uint128Of (BitVec.ofNat 128 ch.oodsComboPos).toNat = uint128Of ch.oodsComboPos :=
    decodedValue rfl
  have neg : uint128Of (BitVec.ofNat 128 ch.oodsComboNeg).toNat = uint128Of ch.oodsComboNeg :=
    decodedValue rfl
  rw [encodedHints] at fits ⊢
  rw [decodeHints_encoded fits, evals, roots, pos, neg, bytes32Of_hashBytes, decodedHints]

theorem committed_at {last : FriLayer} (layered : ch.Layers treeDepth first layers)
    (lastAt : (first :: layers)[ch.numFolds]? = some last) :
    Vfri2.Committed t8Backend (treeDepth - ch.numFolds) last.values last.levels last.root := by
  have own := @committed_last treeDepth layers 0 first last layered.committed layered.rounds
    (by rwa [layered.count])
  rwa [Nat.zero_add, layered.count] at own

/-- The shape of the hints of a chain. -/
structure ShapedHints (ch : Vfri11Chain) (treeDepth : ℕ) (last : FriLayer)
    (hints : List QueryHintDataV5) : Prop where
  depth : treeDepth ≤ 30
  folds : 1 ≤ ch.numFolds ∧ ch.numFolds ≤ treeDepth - 1
  roots : ch.layerRoots.length = ch.numFolds + 1
  rootAt : ch.layerRoots[ch.numFolds]? = some last.root
  committed : Vfri2.Committed t8Backend (treeDepth - ch.numFolds) last.values last.levels last.root
  queries : 1 ≤ hints.length ∧ hints.length ≤ 64
  decoded : ∀ h ∈ hints.map decodedQuery, h.treeDepth.val = treeDepth ∧ h.folds.length = ch.numFolds
  encoded : ∀ data ∈ hints, (Vfri2.encodeQueryHintV5 data).length ≤ 2 ^ 17
  combos : (uint128Of ch.oodsComboPos = 0 ∧ uint128Of ch.oodsComboNeg = 0) ↔
    (ch.oodsComboPos = 0 ∧ ch.oodsComboNeg = 0)

theorem shapedHints_of {last : FriLayer} {hints : List QueryHintDataV5}
    (done : vfri11FriChain cols treeDepth batchMerkleRoot nQueries numFoldsOpt = .ok ch)
    (layered : ch.Layers treeDepth first layers)
    (lastAt : (first :: layers)[ch.numFolds]? = some last)
    (all : List.Forall₂ (HintOf ch treeDepth first layers) ch.derivedIndices hints) :
    ShapedHints ch treeDepth last hints := by
  have built := Vfri2.vfriFriChain_built Vfri2.t8Draws done
  rcases Vfri2.vfri11FriChain_replayed done with ⟨root, roots, listed, count, counted, -⟩
  rcases Machine.bind_eq_ok.mp done with ⟨_, checked, -⟩
  have bounded := built.depth_le
  have few := built.folds
  have queries : hints.length = nQueries :=
    all.length_eq.symm.trans (Vfri2.derivedIndices_length done)
  refine ⟨bounded, ⟨foldCount_pos built.depth_ge counted, few⟩, ?_, ?_,
    committed_at layered lastAt, queries ▸ Vfri2.checkInputs_queries checked, ?_, ?_, ?_⟩
  · rw [listed, List.length_cons, count]
  · rw [layered.layerRoots, List.getElem?_map, lastAt]
    rfl
  · intro h member
    rcases List.mem_map.mp member with ⟨data, inside, rfl⟩
    rcases hintOf_mem all inside with ⟨idx, drawn, hint⟩
    have words := decodedQuery_of hint bounded (built.indices idx drawn)
    refine ⟨words.depth, ?_⟩
    rw [decodedFold_map, List.length_map, ← layered.count]
    exact hint.folds.length
  · intro data member
    rcases hintOf_mem all member with ⟨idx, -, hint⟩
    exact hintOf_length_le hint bounded (by rw [layered.count]; omega)
  · rcases built.comboPos with ⟨pos, posWord⟩
    rcases built.comboNeg with ⟨neg, negWord⟩
    rw [uint128Of_eq_zero (posWord ▸ qm31Word_lt pos),
      uint128Of_eq_zero (negWord ▸ qm31Word_lt neg)]

theorem ShapedHints.encoded_lt {last : FriLayer} {hints : List QueryHintDataV5}
    (shaped : ShapedHints ch treeDepth last hints) :
    (encodedHints ch last hints).length < 2 ^ 63 := by
  have bounded := shaped.depth
  have few := shaped.folds
  have sized : (last.values.map (BitVec.ofNat 128)).length ≤ 2 ^ 30 := by
    rw [List.length_map, shaped.committed.length]
    exact Nat.pow_le_pow_right (by decide) (by omega)
  have roots : (ch.layerRoots.map hashBytes).length ≤ 30 := by
    rw [List.length_map, shaped.roots]
    omega
  exact encoded_length_lt sized roots shaped.queries.2 shaped.encoded

/-- The context of a chain is built, and its queries pass. -/
theorem queries_run {hints : List QueryHintDataV5}
    (done : vfri11FriChain cols treeDepth batchMerkleRoot nQueries numFoldsOpt = .ok ch)
    (layered : ch.Layers treeDepth first layers)
    (all : List.Forall₂ (HintOf ch treeDepth first layers) ch.derivedIndices hints)
    (capped : ch.numFolds ≤ 28) :
    ∃ ctx, buildCtx ch.traceRoot (uint128Of ch.oodsComboPos) (uint128Of ch.oodsComboNeg)
        ch.compRoot ch.layerRoots hints.length treeDepth (nodeOfBytes batchMerkleRoot) = some ctx ∧
      verifyQueries ctx 0 (hints.map decodedQuery) = some true := by
  have built := Vfri2.vfriFriChain_built Vfri2.t8Draws done
  have regular := Vfri2.vfri11FriChain_regular done
  have queries : hints.length = nQueries :=
    all.length_eq.symm.trans (Vfri2.derivedIndices_length done)
  rcases buildCtx_of built done capped with ⟨ctx, made, context⟩
  have drawn : (ctx.derivedIndices.map Fin.val).drop 0 = ch.derivedIndices :=
    List.drop_zero.trans context.derivedIndices
  exact ⟨ctx, queries ▸ made,
    verifyQueries_pass all built regular layered context drawn built.indices⟩

/-- Behind the decoder only the chain decides. -/
theorem verifyDecoded_settled {last : FriLayer} {hints : List QueryHintDataV5}
    (shaped : ShapedHints ch treeDepth last hints)
    (run : ch.numFolds ≤ 28 →
      ∃ ctx, buildCtx ch.traceRoot (uint128Of ch.oodsComboPos) (uint128Of ch.oodsComboNeg)
          ch.compRoot ch.layerRoots hints.length treeDepth (nodeOfBytes batchMerkleRoot) =
            some ctx ∧
        verifyQueries ctx 0 (hints.map decodedQuery) = some true)
    (commitment : (commitmentOf ch batchMerkleRoot).val ≠ List.replicate 16 0)
    (merkleRoot : nodeOfBytes batchMerkleRoot ≠ 0) :
    Settled (verifyDecoded (proofBytes 5 ch.traceRoot) (nodeOfBytes batchMerkleRoot)
      (decodedHints ch last hints)) (Admits ch treeDepth batchMerkleRoot) := by
  have bounded := shaped.depth
  have few := shaped.folds
  have roots := shaped.roots
  have queries := shaped.queries
  have present : ∃ query, (hints.map decodedQuery)[0]? = some query ∧
      query.treeDepth.val = treeDepth := by
    have within : 0 < (hints.map decodedQuery).length := by
      rw [List.length_map]
      exact queries.1
    exact ⟨_, List.getElem?_eq_getElem within,
      (shaped.decoded _ (List.getElem_mem within)).1⟩
  rcases present with ⟨query, queryAt, depth⟩
  have folds : checkedSub ch.layerRoots.length 1 = some ch.numFolds := by
    rw [roots, checkedSub_eq (by omega), Nat.add_sub_cancel]
  have lastDepth : checkedSub treeDepth ch.numFolds = some (treeDepth - ch.numFolds) :=
    checkedSub_eq (by omega)
  have lastLayer := checkLastLayer_eq shaped.committed (by omega)
  rw [verifyDecoded, decodedHints]
  dsimp only
  -- the guards in the order of the source; those of the shape cannot fail
  refine .guard (fun zero admits => admits.combos (shaped.combos.mp zero)) fun someCombo => ?_
  refine .guard (fun zero admits => admits.compRoot zero) fun compRoot => ?_
  refine .guard (fun empty => ?_) fun _ => ?_
  · rw [List.length_map, shaped.committed.length] at empty
    exact absurd empty (Nat.two_pow_pos _).ne'
  refine .guard (fun short => absurd short (by omega)) fun _ => ?_
  refine .guard (fun long admits => ?_) fun short => ?_
  · have capped := admits.folds
    rw [roots, maxFoldRounds] at long
    omega
  have capped : ch.numFolds ≤ 28 := by
    rw [roots, maxFoldRounds] at short
    omega
  refine .guard (fun empty => ?_) fun _ => ?_
  · rw [List.length_map, minQueries] at empty
    omega
  refine .guard (fun many => ?_) fun _ => ?_
  · rw [List.length_map, maxQueries] at many
    omega
  refine .guard ?_ fun noZero => ?_
  · rintro ⟨root, member, rfl⟩ admits
    exact admits.layerRoots member
  rw [queryAt, folds]
  simp only [Option.bind_eq_bind, Option.bind_some, depth]
  refine .guard (fun low => absurd low (by omega)) fun _ => ?_
  refine .guard (fun high => absurd high (by omega)) fun _ => ?_
  refine .guard ?_ fun _ => ?_
  · rintro ⟨h, member, other | other⟩
    · exact absurd (shaped.decoded h member).1 other
    · exact absurd (shaped.decoded h member).2 other
  rw [shaped.rootAt, lastDepth, Option.bind_some, Option.bind_some, lastLayer, Option.bind_some]
  refine .guard (fun large admits => ?_) fun small => ?_
  · rw [decide_eq_true admits.lastLayer] at large
    exact absurd large (by decide)
  have shallow : treeDepth - ch.numFolds ≤ 16 := by
    by_contra large
    exact small (by rw [decide_eq_false large]; rfl)
  rcases run capped with ⟨ctx, made, passed⟩
  rw [proofBytes_root, List.length_map, made, Option.bind_some, passed]
  exact .passed {
    commitment := commitment
    merkleRoot := merkleRoot
    combos := fun zero => someCombo (shaped.combos.mpr zero)
    compRoot := compRoot
    layerRoots := fun member => noZero ⟨0, member, rfl⟩
    folds := capped
    lastLayer := shallow }

/-- A proof under its commitment is accepted if and only if its chain is admitted. -/
theorem verify_settled {last : FriLayer} {hints : List QueryHintDataV5}
    (length : batchMerkleRoot.length = 32) (fits : (encodedHints ch last hints).length < 2 ^ 63)
    (decoded : (commitmentOf ch batchMerkleRoot).val ≠ List.replicate 16 0 →
      nodeOfBytes batchMerkleRoot ≠ 0 →
      Settled (verifyDecoded (proofBytes 5 ch.traceRoot) (nodeOfBytes batchMerkleRoot)
        (decodedHints ch last hints)) (Admits ch treeDepth batchMerkleRoot)) :
    Settled (verify (proofBytes 5 ch.traceRoot) (commitmentOf ch batchMerkleRoot)
      (nodeOfBytes batchMerkleRoot) (encodedHints ch last hints))
      (Admits ch treeDepth batchMerkleRoot) := by
  have size := proofBytes_length 5 ch.traceRoot
  rw [verify]
  refine .guard (fun short => ?_) fun _ => ?_
  · rw [size, minProofLength] at short
    omega
  refine .guard (fun long => ?_) fun _ => ?_
  · rw [size, maxProofLength] at long
    omega
  refine .guard (fun zero admits => admits.commitment zero) fun commitment => ?_
  refine .guard (fun zero admits => admits.merkleRoot zero) fun merkleRoot => ?_
  refine .guard (fun empty => ?_) fun _ => ?_
  · rw [encodedHints, Vfri2.abiEncodeQueryHints] at empty
    simp only [List.length_append, Vfri2.abiWordU128_length] at empty
    omega
  refine .guard (fun other => ?_) fun _ => ?_
  · rw [checkCommitment_passes length] at other
    exact absurd other (by decide)
  rw [decodeHints_encodedHints fits, Option.bind_eq_bind, Option.bind_some]
  exact decoded commitment merkleRoot

/-- Every proof that is generated for a chain is accepted, unless the chain is one that the
contract does not admit; its hints never revert.  `Admits` lists what is left: roots and
combinations that are not zero, at most 28 folds and a last layer of at most `2 ^ 16` values. -/
theorem generated_proof_accepted_iff
    (done : vfri11FriChain cols treeDepth batchMerkleRoot nQueries numFoldsOpt = .ok ch) :
    ∃ hints : List Byte,
      genVfri11HintsFromColsNfolds cols treeDepth batchMerkleRoot nQueries numFoldsOpt = .ok {
        proof := proofBytes 5 ch.traceRoot
        commitmentHex := Vfri2.hexEncode (commitmentOf ch batchMerkleRoot).val
        queryHints := hints } ∧
      ∃ accepted, verify (proofBytes 5 ch.traceRoot) (commitmentOf ch batchMerkleRoot)
          (nodeOfBytes batchMerkleRoot) hints = some accepted ∧
        (accepted = true ↔ Admits ch treeDepth batchMerkleRoot) := by
  have built := Vfri2.vfriFriChain_built Vfri2.t8Draws done
  rcases built.exists_layers with ⟨first, layers, layered⟩
  rcases Vfri2.genVfriHintsFromChain_of batchMerkleRoot 5 built layered with
    ⟨last, hints, lastAt, all, generated⟩
  rcases Machine.bind_eq_ok.mp done with ⟨_, checked, -⟩
  have shaped := shapedHints_of done layered lastAt all
  refine ⟨encodedHints ch last hints, ?_, ?_⟩
  · rw [genVfri11HintsFromColsNfolds, Vfri2.genVfriHintsFromColsNfolds]
    exact Machine.bind_eq_ok.mpr ⟨ch, done, generated⟩
  · exact verify_settled (checkInputs_root checked) shaped.encoded_lt
      (verifyDecoded_settled shaped (queries_run done layered all))

/-- The proof that is generated for the sample. -/
theorem sample_proof_accepted_iff :
    ∃ ch, vfri11FriChain Vfri2.sampleCols 2 (List.replicate 32 1) 1 none = .ok ch ∧
      ∃ hints : List Byte,
        genVfri11HintsFromColsNfolds Vfri2.sampleCols 2 (List.replicate 32 1) 1 none = .ok {
          proof := proofBytes 5 ch.traceRoot
          commitmentHex := Vfri2.hexEncode (commitmentOf ch (List.replicate 32 1)).val
          queryHints := hints } ∧
        ∃ accepted, verify (proofBytes 5 ch.traceRoot) (commitmentOf ch (List.replicate 32 1))
            (nodeOfBytes (List.replicate 32 1)) hints = some accepted ∧
          (accepted = true ↔ Admits ch 2 (List.replicate 32 1)) := by
  rcases @Vfri2.sampleChain_seeded (List.replicate 32 1) List.length_replicate with ⟨ch, done⟩
  exact ⟨ch, done, generated_proof_accepted_iff done⟩

end Proof

end VFRI11
end Contracts
end QLSA
