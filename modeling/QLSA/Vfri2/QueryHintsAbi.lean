import QLSA.Machine.AbiDecoding
import Mathlib.Algebra.Order.BigOperators.Group.List

namespace QLSA
namespace Vfri2

open Machine
open Machine.Abi hiding bytes32

/-!
# The query hints in the ABI

The encoders write every offset by hand: in a tuple from its start, in an array
of tuples from behind the length word, on three levels.  Each of them is compared
with the reader of its type, and the reader of the whole gives the values back
and reads every byte once.
-/

/-! ## The encoders -/

/-- `[u8; 32]` -/
abbrev HashBytes := { bytes : List Byte // bytes.length = 32 }

def abiWordU128 (v : BitVec 128) : List Byte := List.replicate 16 0 ++ bigEndian 16 v.toNat

def abiWordU256 (v : BitVec 64) : List Byte := List.replicate 24 0 ++ bigEndian 8 v.toNat

def abiWordBytes32 (v : HashBytes) : List Byte := v.val

def abiWordUsize (v : ℕ) : List Byte := abiWordU256 (BitVec.ofNat 64 v)

def encodeBytes32Array (arr : List HashBytes) : List Byte :=
  abiWordUsize arr.length ++ arr.flatMap abiWordBytes32

def encodeUint128Array (arr : List (BitVec 128)) : List Byte :=
  abiWordUsize arr.length ++ arr.flatMap abiWordU128

structure FoldHintData where
  siblingValue : BitVec 128
  siblingProof : List HashBytes
  foldedValue : BitVec 128
  merkleProof : List HashBytes

def encodeFoldHint (fh : FoldHintData) : List Byte :=
  let spBody := encodeBytes32Array fh.siblingProof
  let mpBody := encodeBytes32Array fh.merkleProof
  let headSize := 4 * 32
  let spOffset := headSize
  let mpOffset := headSize + spBody.length
  abiWordU128 fh.siblingValue ++ abiWordUsize spOffset ++ abiWordU128 fh.foldedValue ++
    abiWordUsize mpOffset ++ spBody ++ mpBody

/-- The body of an array of tuples: the loop over the encoded tuples collects
the offsets. -/
def encodeTuplesArray {α : Type} (encode : α → List Byte) (list : List α) : List Byte :=
  let n := list.length
  let encoded := list.map encode
  let offsetsSize := n * 32
  abiWordUsize n ++ (offsets offsetsSize encoded).flatMap abiWordUsize ++ encoded.flatten

def encodeFoldHintsArray (folds : List FoldHintData) : List Byte :=
  encodeTuplesArray encodeFoldHint folds

structure QueryHintDataV5 where
  queryIndex : BitVec 64
  treeDepth : BitVec 32
  compValue : BitVec 128
  compProof : List HashBytes
  compValueNeg : BitVec 128
  compProofNeg : List HashBytes
  foldedValue : BitVec 128
  queryPointX : BitVec 32
  queryPointY : BitVec 32
  friL1Siblings : List HashBytes
  folds : List FoldHintData

def encodeQueryHintV5 (qh : QueryHintDataV5) : List Byte :=
  let headSize := 11 * 32
  let cpBody := encodeBytes32Array qh.compProof
  let cpnBody := encodeBytes32Array qh.compProofNeg
  let l1sBody := encodeBytes32Array qh.friL1Siblings
  let foldBody := encodeFoldHintsArray qh.folds
  let cpOffset := headSize
  let cpnOffset := cpOffset + cpBody.length
  let l1sOffset := cpnOffset + cpnBody.length
  let foldOffset := l1sOffset + l1sBody.length
  abiWordUsize qh.queryIndex.toNat ++ abiWordUsize qh.treeDepth.toNat ++
    abiWordU128 qh.compValue ++ abiWordUsize cpOffset ++ abiWordU128 qh.compValueNeg ++
    abiWordUsize cpnOffset ++ abiWordU128 qh.foldedValue ++
    abiWordU256 (qh.queryPointX.setWidth 64) ++ abiWordU256 (qh.queryPointY.setWidth 64) ++
    abiWordUsize l1sOffset ++ abiWordUsize foldOffset ++ cpBody ++ cpnBody ++ l1sBody ++ foldBody

def encodeQueryHintsArrayV5 (hints : List QueryHintDataV5) : List Byte :=
  encodeTuplesArray encodeQueryHintV5 hints

def abiEncodeQueryHints (oodsComboPos oodsComboNeg : BitVec 128) (compRoot : HashBytes)
    (lastLayerEvals : List (BitVec 128)) (friLayerRoots : List HashBytes)
    (hints : List QueryHintDataV5) : List Byte :=
  let headSize := 6 * 32
  let evalsBody := encodeUint128Array lastLayerEvals
  let rootsBody := encodeBytes32Array friLayerRoots
  let hintsBody := encodeQueryHintsArrayV5 hints
  let evalsOffset := headSize
  let rootsOffset := evalsOffset + evalsBody.length
  let hintsOffset := rootsOffset + rootsBody.length
  abiWordU128 oodsComboPos ++ abiWordU128 oodsComboNeg ++ abiWordBytes32 compRoot ++
    abiWordUsize evalsOffset ++ abiWordUsize rootsOffset ++ abiWordUsize hintsOffset ++
    evalsBody ++ rootsBody ++ hintsBody

/-! ## The readers of the types -/

/-- `bytes32[]` -/
def bytes32Array : Component (List (List Byte)) := dynamic (array Abi.bytes32)

/-- `(uint128,bytes32[],uint128,bytes32[])` -/
def foldHint : Body (ℕ × List (List Byte) × ℕ × List (List Byte) × Unit) :=
  tuple (next (uint 128) (next bytes32Array (next (uint 128) (next bytes32Array last))))

/-- `(uint256,uint256,uint128,bytes32[],uint128,bytes32[],uint128,uint256,uint256,bytes32[],
foldHint[])` -/
def queryHint :=
  tuple (next (uint 256) (next (uint 256) (next (uint 128) (next bytes32Array
    (next (uint 128) (next bytes32Array (next (uint 128) (next (uint 256) (next (uint 256)
      (next bytes32Array (next (dynamic (array (dynamic foldHint))) last)))))))))))

/-- `(uint128, uint128, bytes32, uint128[], bytes32[], queryHint[])` -/
def queryHints :=
  tuple (next (uint 128) (next (uint 128) (next Abi.bytes32 (next (dynamic (array (uint 128)))
    (next bytes32Array (next (dynamic (array (dynamic queryHint))) last))))))

/-- The values of a fold hint, as its type lists them. -/
def FoldHintData.values (fh : FoldHintData) : ℕ × List (List Byte) × ℕ × List (List Byte) × Unit :=
  (fh.siblingValue.toNat, fh.siblingProof.map Subtype.val, fh.foldedValue.toNat,
    fh.merkleProof.map Subtype.val, ())

/-- The values of a query's hints, as their type lists them. -/
def QueryHintDataV5.values (qh : QueryHintDataV5) :=
  (qh.queryIndex.toNat, qh.treeDepth.toNat, qh.compValue.toNat,
    qh.compProof.map Subtype.val, qh.compValueNeg.toNat, qh.compProofNeg.map Subtype.val,
    qh.foldedValue.toNat, qh.queryPointX.toNat, qh.queryPointY.toNat,
    qh.friL1Siblings.map Subtype.val, qh.folds.map FoldHintData.values, ())

/-! ## Words -/

theorem bigEndian_add (zeros count : ℕ) {value : ℕ} (fits : value < 256 ^ count) :
    bigEndian (zeros + count) value = List.replicate zeros 0 ++ bigEndian count value := by
  induction zeros with
  | zero => rw [Nat.zero_add, List.replicate_zero, List.nil_append]
  | succ zeros ih =>
      have power : 2 ^ (8 * (zeros + count)) = 256 ^ (zeros + count) := by rw [pow_mul]; rfl
      have wide : value < 256 ^ (zeros + count) :=
        lt_of_lt_of_le fits (Nat.pow_le_pow_right (by decide) (Nat.le_add_left _ _))
      have high : value >>> (8 * (zeros + count)) = 0 := by
        rw [Nat.shiftRight_eq_div_pow, power, Nat.div_eq_of_lt wide]
      rw [Nat.add_right_comm, bigEndian_succ, high, ih, List.replicate_succ, List.cons_append]
      rfl

theorem abiWordU128_eq (v : BitVec 128) : abiWordU128 v = bigEndian 32 v.toNat :=
  (bigEndian_add 16 16 v.isLt).symm

theorem abiWordU256_eq (v : BitVec 64) : abiWordU256 v = bigEndian 32 v.toNat :=
  (bigEndian_add 24 8 v.isLt).symm

theorem abiWordUsize_eq {v : ℕ} (fits : v < 2 ^ 64) : abiWordUsize v = bigEndian 32 v := by
  rw [abiWordUsize, abiWordU256_eq, BitVec.toNat_ofNat, Nat.mod_eq_of_lt fits]

@[simp] theorem abiWordU128_length (v : BitVec 128) : (abiWordU128 v).length = 32 := by
  rw [abiWordU128_eq, bigEndian_length]

@[simp] theorem abiWordU256_length (v : BitVec 64) : (abiWordU256 v).length = 32 := by
  rw [abiWordU256_eq, bigEndian_length]

@[simp] theorem abiWordUsize_length (v : ℕ) : (abiWordUsize v).length = 32 :=
  abiWordU256_length _

@[simp] theorem abiWordBytes32_length (v : HashBytes) : (abiWordBytes32 v).length = 32 := v.property

theorem lays_u128 (v : BitVec 128) {offset : ℕ} :
    Lays (uint 128) v.toNat offset (abiWordU128 v) [] := by
  rw [abiWordU128_eq]
  exact lays_uint (by decide) v.isLt

theorem lays_u256 (v : BitVec 64) {offset : ℕ} :
    Lays (uint 256) v.toNat offset (abiWordU256 v) [] := by
  have fits : v.toNat < 2 ^ 256 := lt_trans v.isLt (by decide)
  rw [abiWordU256_eq]
  exact lays_uint le_rfl fits

theorem lays_usize {v : ℕ} (fits : v < 2 ^ 64) {offset : ℕ} :
    Lays (uint 256) v offset (abiWordUsize v) [] := by
  have value : (BitVec.ofNat 64 v).toNat = v := by
    rw [BitVec.toNat_ofNat, Nat.mod_eq_of_lt fits]
  have word : Lays (uint 256) _ offset _ [] := lays_u256 (BitVec.ofNat 64 v)
  rwa [value] at word

theorem lays_u32 (v : BitVec 32) {offset : ℕ} :
    Lays (uint 256) v.toNat offset (abiWordU256 (v.setWidth 64)) [] := by
  have word : Lays (uint 256) _ offset _ [] := lays_u256 (v.setWidth 64)
  rwa [BitVec.toNat_setWidth_of_le (by decide)] at word

theorem lays_bytes (v : HashBytes) {offset : ℕ} :
    Lays Abi.bytes32 v.val offset (abiWordBytes32 v) [] := lays_bytes32 v.property

/-- The written offset of a body. -/
theorem lays_body {α : Type} {body : Body α} {value : α} {bytes : List Byte} (offset : ℕ)
    (encodes : Encodes body value bytes) (fits : offset < 2 ^ 64) :
    Lays (dynamic body) value offset (abiWordUsize offset) bytes := by
  rw [abiWordUsize_eq fits]
  exact lays_dynamic encodes (lt_trans fits (by decide))

/-! ## Arrays -/

theorem encodeBytes32Array_length (arr : List HashBytes) :
    (encodeBytes32Array arr).length = 32 + 32 * arr.length := by
  rw [encodeBytes32Array, List.length_append, flatMap_length abiWordBytes32_length,
    abiWordUsize_length]

theorem encodes_bytes32Array (arr : List HashBytes)
    (fits : (encodeBytes32Array arr).length < 2 ^ 63) :
    Encodes (array Abi.bytes32) (arr.map Subtype.val) (encodeBytes32Array arr) := by
  rw [encodeBytes32Array_length] at fits
  have few : arr.length < 2 ^ 64 := by omega
  rw [encodeBytes32Array, abiWordUsize_eq few]
  exact encodes_words (lt_trans few (by decide)) (fun v _ _ => lays_bytes v)
    abiWordBytes32_length

theorem encodes_uint128Array (arr : List (BitVec 128))
    (fits : (encodeUint128Array arr).length < 2 ^ 63) :
    Encodes (array (uint 128)) (arr.map BitVec.toNat) (encodeUint128Array arr) := by
  rw [encodeUint128Array, List.length_append, flatMap_length abiWordU128_length] at fits
  have few : arr.length < 2 ^ 64 := by omega
  rw [encodeUint128Array, abiWordUsize_eq few]
  exact encodes_words (lt_trans few (by decide)) (fun v _ _ => lays_u128 v) abiWordU128_length

theorem length_flatMap_le {α : Type} (encode : α → List Byte) {list : List α} {a : α}
    (member : a ∈ list) : (encode a).length ≤ (list.flatMap encode).length := by
  rw [List.length_flatMap]
  exact List.single_le_sum (by simp) _ (List.mem_map_of_mem member)

theorem encodeTuplesArray_length {α : Type} (encode : α → List Byte) (list : List α) :
    (encodeTuplesArray encode list).length =
      32 + 32 * list.length + (list.flatMap encode).length := by
  rw [encodeTuplesArray, List.length_append, List.length_append, abiWordUsize_length,
    flatMap_length abiWordUsize_length, offsets_length, List.length_map, List.flatMap_def]

theorem encodes_tuplesArray {α β : Type} {body : Body β} {values : α → β}
    {encode : α → List Byte} {list : List α}
    (each : ∀ a ∈ list, (encode a).length < 2 ^ 63 → Encodes body (values a) (encode a))
    (fits : (encodeTuplesArray encode list).length < 2 ^ 63) :
    Encodes (array (dynamic body)) (list.map values) (encodeTuplesArray encode list) := by
  rw [encodeTuplesArray_length] at fits
  have count : abiWordUsize list.length = bigEndian 32 list.length := abiWordUsize_eq (by omega)
  have table : (offsets (list.length * 32) (list.map encode)).flatMap abiWordUsize =
      (offsets (32 * list.length) (list.map encode)).flatMap (bigEndian 32) := by
    rw [Nat.mul_comm]
    apply List.flatMap_congr
    intro offset member
    have bound := offsets_le member
    rw [← List.flatMap_def] at bound
    exact abiWordUsize_eq (by omega)
  have bytes : encodeTuplesArray encode list = bigEndian 32 list.length ++
      ((offsets (32 * list.length) (list.map encode)).flatMap (bigEndian 32) ++
        list.flatMap encode) := by
    rw [encodeTuplesArray, count, table, List.append_assoc, ← List.flatMap_def]
  rw [bytes]
  apply encodes_bodies
  · intro a member
    have inside := length_flatMap_le encode member
    exact each a member (by omega)
  · have power : (2 : ℕ) ^ 63 ≤ 256 ^ 32 := by decide
    omega

/-! ## Tuples -/

theorem encodes_foldHint {fh : FoldHintData} (fits : (encodeFoldHint fh).length < 2 ^ 63) :
    Encodes foldHint fh.values (encodeFoldHint fh) := by
  simp only [encodeFoldHint, List.length_append, abiWordU128_length, abiWordUsize_length] at fits
  have siblings := encodes_bytes32Array fh.siblingProof (by omega)
  have path := encodes_bytes32Array fh.merkleProof (by omega)
  have fields := lays_next_word (lays_u128 fh.siblingValue) (abiWordU128_length _)
    (lays_next (lays_body (4 * 32) siblings (by omega)) (abiWordUsize_length _)
      (lays_next_word (lays_u128 fh.foldedValue) (abiWordU128_length _)
        (lays_next (lays_body _ path (by omega)) (abiWordUsize_length _) lays_last)))
  have whole := encodes_tuple fields (by simp)
  simp only [List.append_nil, List.append_assoc] at whole
  simp only [encodeFoldHint, List.append_assoc]
  exact whole

theorem encodes_queryHint {qh : QueryHintDataV5} (fits : (encodeQueryHintV5 qh).length < 2 ^ 63) :
    Encodes queryHint qh.values (encodeQueryHintV5 qh) := by
  simp only [encodeQueryHintV5, List.length_append, abiWordU128_length, abiWordU256_length,
    abiWordUsize_length] at fits
  have path := encodes_bytes32Array qh.compProof (by omega)
  have pathNeg := encodes_bytes32Array qh.compProofNeg (by omega)
  have siblings := encodes_bytes32Array qh.friL1Siblings (by omega)
  have folds : Encodes (array (dynamic foldHint)) (qh.folds.map FoldHintData.values)
      (encodeFoldHintsArray qh.folds) :=
    encodes_tuplesArray (fun _ _ small => encodes_foldHint small) (by
      rw [encodeFoldHintsArray] at fits
      omega)
  have depth : qh.treeDepth.toNat < 2 ^ 64 := lt_trans qh.treeDepth.isLt (by decide)
  have fields := lays_next_word (lays_usize qh.queryIndex.isLt) (abiWordUsize_length _)
    (lays_next_word (lays_usize depth) (abiWordUsize_length _)
    (lays_next_word (lays_u128 qh.compValue) (abiWordU128_length _)
    (lays_next (lays_body (11 * 32) path (by omega)) (abiWordUsize_length _)
    (lays_next_word (lays_u128 qh.compValueNeg) (abiWordU128_length _)
    (lays_next (lays_body _ pathNeg (by omega)) (abiWordUsize_length _)
    (lays_next_word (lays_u128 qh.foldedValue) (abiWordU128_length _)
    (lays_next_word (lays_u32 qh.queryPointX) (abiWordU256_length _)
    (lays_next_word (lays_u32 qh.queryPointY) (abiWordU256_length _)
    (lays_next (lays_body _ siblings (by omega)) (abiWordUsize_length _)
    (lays_next (lays_body _ folds (by omega)) (abiWordUsize_length _) lays_last))))))))))
  have whole := encodes_tuple fields (by simp)
  simp only [List.append_nil, List.append_assoc] at whole
  simp only [encodeQueryHintV5, List.append_assoc]
  exact whole

/-! ## The whole -/

section Whole

variable (oodsComboPos oodsComboNeg : BitVec 128) (compRoot : HashBytes)
variable (lastLayerEvals : List (BitVec 128)) (friLayerRoots : List HashBytes)
variable (hints : List QueryHintDataV5)

/-- The values of the hints, as their type lists them. -/
def hintValues :=
  (oodsComboPos.toNat, oodsComboNeg.toNat, compRoot.val, lastLayerEvals.map BitVec.toNat,
    friLayerRoots.map Subtype.val, hints.map QueryHintDataV5.values, ())

theorem encodes_queryHints
    (fits : (abiEncodeQueryHints oodsComboPos oodsComboNeg compRoot lastLayerEvals friLayerRoots
      hints).length < 2 ^ 63) :
    Encodes queryHints
      (hintValues oodsComboPos oodsComboNeg compRoot lastLayerEvals friLayerRoots hints)
      (abiEncodeQueryHints oodsComboPos oodsComboNeg compRoot lastLayerEvals friLayerRoots
        hints) := by
  simp only [abiEncodeQueryHints, List.length_append, abiWordU128_length, abiWordBytes32_length,
    abiWordUsize_length] at fits
  have evals := encodes_uint128Array lastLayerEvals (by omega)
  have roots := encodes_bytes32Array friLayerRoots (by omega)
  have queries : Encodes (array (dynamic queryHint)) (hints.map QueryHintDataV5.values)
      (encodeQueryHintsArrayV5 hints) :=
    encodes_tuplesArray (fun _ _ small => encodes_queryHint small) (by
      rw [encodeQueryHintsArrayV5] at fits
      omega)
  have fields := lays_next_word (lays_u128 oodsComboPos) (abiWordU128_length _)
    (lays_next_word (lays_u128 oodsComboNeg) (abiWordU128_length _)
    (lays_next_word (lays_bytes compRoot) (abiWordBytes32_length _)
    (lays_next (lays_body (6 * 32) evals (by omega)) (abiWordUsize_length _)
    (lays_next (lays_body _ roots (by omega)) (abiWordUsize_length _)
    (lays_next (lays_body _ queries (by omega)) (abiWordUsize_length _) lays_last)))))
  have whole := encodes_tuple fields (by simp)
  simp only [List.append_nil, List.append_assoc] at whole
  simp only [abiEncodeQueryHints, List.append_assoc]
  exact whole

/-- What is encoded is read back, and every byte is read once.  Numbers of queries, folds,
siblings and values are arbitrary, and lists of different lengths may occur in one encoding; only
the whole string has to have a length that an offset can hold. -/
theorem query_hints_round_trip
    (fits : (abiEncodeQueryHints oodsComboPos oodsComboNeg compRoot lastLayerEvals friLayerRoots
      hints).length < 2 ^ 63) :
    ∃ positions,
      queryHints (abiEncodeQueryHints oodsComboPos oodsComboNeg compRoot lastLayerEvals
        friLayerRoots hints) 0 =
      some (hintValues oodsComboPos oodsComboNeg compRoot lastLayerEvals friLayerRoots hints,
        positions) ∧
      positions.Perm (List.range (abiEncodeQueryHints oodsComboPos oodsComboNeg compRoot
        lastLayerEvals friLayerRoots hints).length) := by
  have encodes := encodes_queryHints oodsComboPos oodsComboNeg compRoot lastLayerEvals
    friLayerRoots hints fits
  rcases encodes _ 0 (List.prefix_refl _) with ⟨positions, read, once⟩
  rw [← List.range_eq_range'] at once
  exact ⟨positions, read, once⟩

end Whole

/-- Two queries of different shape. -/
theorem ragged_hints_read_back :
    let root : HashBytes := ⟨List.replicate 32 7, rfl⟩
    let fold : FoldHintData := ⟨5, [root], 6, [root, root]⟩
    let short : QueryHintDataV5 := ⟨3, 4, 1, [], 2, [root], 9, 8, 7, [], []⟩
    let long : QueryHintDataV5 := ⟨2, 4, 1, [root], 2, [], 9, 8, 7, [root], [fold]⟩
    ∃ positions,
      queryHints (abiEncodeQueryHints 1 2 root [3] [root] [short, long]) 0 =
        some ((1, 2, root.val, [3], [root.val], [short.values, long.values], ()), positions) ∧
      positions.Perm
        (List.range (abiEncodeQueryHints 1 2 root [3] [root] [short, long]).length) := by
  intro root fold short long
  exact query_hints_round_trip 1 2 root [3] [root] [short, long] (by decide +kernel)

end Vfri2
end QLSA
