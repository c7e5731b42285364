import QLSA.Contracts.ExtensionAgreement
import QLSA.Contracts.MembershipAgreement
import QLSA.Contracts.VFRI11Verifier
import QLSA.Vfri2.HintGenerator

namespace QLSA
namespace Contracts
namespace VFRI11

open Mersenne Verifier
open Hash (State Quad)
open Stwo (fieldPair hashPairP2T8)
open Vfri2 (qm31Word cm31Word CanonicalNode HashBytes hashBytes)
open Machine (bigEndian ofBigEndian)

/-!
# Queries of generated hints

The hints of a chain hold words of field elements, and every node on their
paths is reduced.  On such words the contract computes what the generator
computed and no sum carries; the points of a domain have no zero coordinate to
divide by.  So a query passes, round by round, whatever was committed.
-/

/-! ## Words -/

section Words

variable (x y : QM31)

theorem qm31Word_lt : qm31Word x < 2 ^ 128 := by
  have re := Vfri2.cm31Word_lt x.re
  have im := Vfri2.cm31Word_lt x.im
  rw [qm31Word, Vfri2.qm31PackC_eq im]
  omega

@[simp] theorem cm31Re_word (z : CM31) : Verifier.cm31Re (cm31Word z) = z.re.val := by
  have im := Vfri2.val_small z.im
  rw [Verifier.cm31Re, cm31Word, Vfri2.cm31Pack_eq im, Nat.shiftRight_eq_div_pow]
  omega

@[simp] theorem cm31Im_word (z : CM31) : Verifier.cm31Im (cm31Word z) = z.im.val := by
  have im := Vfri2.val_small z.im
  rw [Verifier.cm31Im, cm31Word, Vfri2.cm31Pack_eq im, Nat.and_two_pow_sub_one_eq_mod]
  omega

@[simp] theorem qm31C0_word : Verifier.qm31C0 (qm31Word x) = cm31Word x.re := Vfri2.qm31C0_word x

@[simp] theorem qm31C1_word : Verifier.qm31C1 (qm31Word x) = cm31Word x.im := by
  rw [Verifier.qm31C1, Nat.and_two_pow_sub_one_eq_mod]
  exact Vfri2.qm31C1_word x

@[simp] theorem qm31Value_word : qm31Value (qm31Word x) = x := by
  ext <;> simp [qm31Value, cm31Value]

theorem canonicalWord : CanonicalWord (qm31Word x) := by
  refine ⟨qm31Word_lt x, ?_⟩
  simp only [CanonicalQM31, CanonicalCM31, qm31C0_word, qm31C1_word, cm31Re_word, cm31Im_word]
  exact ⟨⟨ZMod.val_lt _, ZMod.val_lt _⟩, ZMod.val_lt _, ZMod.val_lt _⟩

/-- What the libraries agree on is a word. -/
theorem library_eq_word {library checked : Option ℕ} {release : ℕ} {value : QM31}
    (agrees : Agrees library release checked value) : library = some (qm31Word value) := by
  rcases agrees with ⟨z, canonical, same, done, -⟩
  rw [done, canonical.eq_word, same]

theorem qm31Sub_word : Verifier.qm31Sub (qm31Word x) (qm31Word y) = some (qm31Word (x - y)) := by
  have agrees := library_eq_word (qm31Sub_agrees (canonicalWord x) (canonicalWord y))
  rwa [qm31Value_word, qm31Value_word] at agrees

theorem qm31Neg_word : Verifier.qm31Neg (qm31Word x) = some (qm31Word (-x)) := by
  have agrees := library_eq_word (qm31Neg_agrees (canonicalWord x))
  rwa [qm31Value_word] at agrees

theorem qm31Add_word : Verifier.qm31Add (qm31Word x) (qm31Word y) = qm31Word (x + y) := by
  have agrees := library_eq_word (qm31Add_agrees (canonicalWord x) (canonicalWord y))
  rw [qm31Value_word, qm31Value_word] at agrees
  exact Option.some.inj agrees

theorem qm31Mul_word : Verifier.qm31Mul (qm31Word x) (qm31Word y) = some (qm31Word (x * y)) := by
  have agrees := library_eq_word (qm31Mul_agrees (canonicalWord x) (canonicalWord y))
  rwa [qm31Value_word, qm31Value_word] at agrees

theorem qm31ScaleM31_word (s : M31) :
    Verifier.qm31ScaleM31 (qm31Word x) s.val = qm31Word (x * baseValue s) := by
  have agrees := library_eq_word (qm31ScaleM31_agrees (canonicalWord x) (ZMod.val_lt s))
  rw [qm31Value_word, ZMod.natCast_zmod_val] at agrees
  exact Option.some.inj agrees

theorem qm31FromM31_word (a : M31) : Verifier.qm31FromM31 a.val = qm31Word (baseValue a) := by
  have canonical := Verifier.qm31FromM31_word (ZMod.val_lt a)
  rw [canonical.eq_word, (qm31FromM31_spec (ZMod.val_lt a)).2, ZMod.natCast_zmod_val]

variable {x} in
theorem qm31Word_ne_zero (nonzero : x ≠ 0) : qm31Word x ≠ 0 := by
  rw [Ne, (canonicalWord x).eq_zero_iff, qm31Value_word]
  exact nonzero

variable {x} in
theorem qm31Inv_word (nonzero : x ≠ 0) : Verifier.qm31Inv (qm31Word x) = some (qm31Word x⁻¹) := by
  have agrees := library_eq_word (qm31Inv_agrees (canonicalWord x) (qm31Word_ne_zero nonzero))
  rwa [qm31Value_word] at agrees

/-- The inverse of a base field element that is not zero. -/
theorem m31Inv_val {t : M31} (nonzero : t ≠ 0) : Verifier.m31Inv t.val = some (t⁻¹).val := by
  have positive : t.val ≠ 0 := fun zero => nonzero ((ZMod.val_eq_zero t).mp zero)
  have present : ∃ r, Verifier.m31Inv t.val = some r := ⟨_, if_neg positive⟩
  rcases present with ⟨r, done⟩
  rcases m31Inv_spec (ZMod.val_lt t) done with ⟨-, canonical, inverse⟩
  rw [ZMod.natCast_zmod_val] at inverse
  rw [done, ← inverse, ZMod.val_cast_of_lt canonical]

/-- On words of elements a fold of the contract is the fold of the field. -/
theorem foldBody_word (alpha : QM31) (twiddle : M31) :
    foldBody (qm31Word x) (qm31Word y) (qm31Word alpha) (twiddle⁻¹).val =
      some (qm31Word (fold x y alpha twiddle)) := by
  rw [foldBody, qm31Sub_word]
  simp only [Option.bind_eq_bind, Option.bind_some]
  rw [qm31ScaleM31_word, qm31Mul_word, Option.bind_some, qm31Add_word, qm31Add_word]
  rfl

theorem uint128Of_val {value : ℕ} (small : value < 2 ^ 128) : (uint128Of value).val = value :=
  Nat.mod_eq_of_lt small

end Words

/-! ## Paths -/

section Paths

theorem hashLeaf_eq (value : ℕ) :
    hashLeaf (Vfri2.qm31Words value) = Vfri2.hashLeafQm31P2T8 value := by
  have small := Vfri2.qm31LeafHashT8_canonical value
  have bound : P ≤ 2 ^ 32 := by decide
  rw [hashLeaf, sponge4_eq, Vfri2.hashLeafQm31P2T8]
  exact pack4_eq ⟨small.1.trans_le bound, small.2.1.trans_le bound, small.2.2.1.trans_le bound,
    small.2.2.2.trans_le bound⟩

/-- The leaf of a value. -/
theorem valueLeaf_eq {value : ℕ} (small : value < 2 ^ 128) :
    valueLeaf (uint128Of value) = Vfri2.hashLeafQm31P2T8 value := by
  have same : qm31ToWords (uint128Of value) = Vfri2.qm31Words value := by
    rw [qm31ToWords, uint128Of_val small]
    simp only [Nat.and_two_pow_sub_one_eq_mod]
    rfl
  rw [valueLeaf, same, hashLeaf_eq]

/-- Reduced nodes are paired alike. -/
theorem fieldPair_eq (left right : Bytes32) (first : CanonicalNode left)
    (second : CanonicalNode right) : fieldPair left right = hashPairP2T8 left right :=
  (Vfri2.hashPairP2T8_of_canonical first second).symm

theorem bytes32Of_hashBytes (node : Bytes32) : bytes32Of (hashBytes node).val = node := by
  rw [bytes32Of, hashBytes, Machine.ofBigEndian_of_lt (node.isLt.trans_le (by decide)),
    BitVec.ofNat_toNat, BitVec.setWidth_eq]

/-- A path as the decoder returns it. -/
def decodedPath (path : List HashBytes) : List Bytes32 :=
  (path.map Subtype.val).map bytes32Of

theorem decodedPath_hashBytes (path : List Bytes32) : decodedPath (path.map hashBytes) = path := by
  rw [decodedPath, List.map_map, List.map_map]
  exact (List.map_congr_left fun node _ => bytes32Of_hashBytes node).trans (List.map_id _)

/-- An opening verifies. -/
theorem verifyMem_opening {height index value : ℕ} {root : Bytes32} {path : List HashBytes}
    (opening : Vfri2.Opening height root index value path) (shallow : height ≤ 32)
    (inside : index < 2 ^ height) (small : value < 2 ^ 128) :
    verifyMem root (valueLeaf (uint128Of value)) index height (decodedPath path) = true := by
  rcases opening with ⟨siblings, rfl, length, kept, climbed⟩
  subst length
  rw [decodedPath_hashBytes, valueLeaf_eq small, verifyMem_eq _ _ shallow inside,
    Merkle.pathRoot_congr fieldPair_eq Vfri2.hashPairP2T8_canonical _
      (Vfri2.hashLeafQm31P2T8_canonical value) kept, climbed]
  exact decide_eq_true rfl

end Paths

/-! ## Folds -/

section Folds

open Vfri2 (FriLayer FoldHintData FoldOf FoldsOf oppositeOf t8Backend)

variable {h : QueryHints} {ctx : VerifyCtx} {treeDepth : ℕ}

theorem checkedSub_eq {a b : ℕ} (ordered : b ≤ a) : checkedSub a b = some (a - b) := if_pos ordered

theorem checkedAdd_eq {a b : ℕ} (small : a + b < uintModulus) : checkedAdd a b = some (a + b) :=
  if_neg (not_le.mpr small)

theorem oppositeIndex_eq {curIdx half : ℕ} (small : curIdx + half < uintModulus) :
    oppositeIndex curIdx half = some (oppositeOf curIdx half) := by
  rw [oppositeIndex, oppositeOf]
  split
  case isTrue => exact checkedAdd_eq small
  case isFalse high => exact checkedSub_eq (not_lt.mp high)

theorem oppositeOf_lt {curIdx n : ℕ} (inside : curIdx < 2 ^ (n + 1)) :
    oppositeOf curIdx (2 ^ n) < 2 ^ (n + 1) := by
  rw [pow_succ] at inside ⊢
  rw [oppositeOf]
  split <;> omega

/-- A fold hint as the decoder returns it. -/
def decodedFold (hint : FoldHintData) : FoldHint := foldHintOf hint.values

theorem decodedValue {data : BitVec 128} {value : ℕ} (same : data = BitVec.ofNat 128 value) :
    uint128Of data.toNat = uint128Of value := by
  apply Fin.ext
  rw [same, BitVec.toNat_ofNat, uint128Of, uint128Of, Fin.val_ofNat, Fin.val_ofNat, Nat.mod_mod]

/-- The inverse that a round folds with. -/
theorem twiddle_inverse (bounded : treeDepth ≤ 30) {k index : ℕ} (fits : k + 2 ≤ treeDepth)
    (inside : index < 2 ^ treeDepth) :
    ∃ xJ t, Verifier.cosetAt treeDepth index = some xJ ∧ twiddleLoop k xJ.1 = some t ∧ t ≠ 0 ∧
      Verifier.m31Inv t = some (Vfri2.m31Inv (Vfri2.chebyshevTwiddle
        (Vfri2.cosetAt treeDepth index).1 k)) := by
  have nonzero := Vfri2.chebyshevTwiddle_ne_zero bounded fits index
  have value := Vfri2.twiddle_eq bounded index k
  rw [value] at nonzero
  have element : doubled^[k] (cosetPoint treeDepth index).re ≠ 0 :=
    fun zero => nonzero ((ZMod.val_eq_zero _).mpr zero)
  have coset := Vfri2.contract_cosetAt_eq (by omega) bounded inside
  refine ⟨_, _, coset, ?_, nonzero, ?_⟩
  · rw [← value, Vfri2.cosetAt_eq bounded]
    exact Vfri2.twiddleLoop_eq k _
  · rw [value, m31Inv_val element, Vfri2.m31Inv_val]

/-- On words both sides fold alike. -/
theorem lineFold_eq (x y alpha : QM31) (twiddle : M31) :
    Verifier.lineFold (qm31Word x) (qm31Word y) (qm31Word alpha) (Vfri2.m31Inv twiddle.val) =
      some (Vfri2.lineFold (qm31Word x) (qm31Word y) (qm31Word alpha)
        (Vfri2.m31Inv twiddle.val)) := by
  rw [Vfri2.lineFold_word, Vfri2.m31Inv_val]
  exact foldBody_word x y alpha twiddle

variable {k curIdx value : ℕ} {prev next : FriLayer} {hint : FoldHintData}

/-- A round over committed layers. -/
structure Round (h : QueryHints) (ctx : VerifyCtx) (k : ℕ) (prev next : FriLayer)
    (hint : FoldHintData) : Prop where
  prevRoot : ctx.friLayerRoots[k]? = some prev.root
  nextRoot : ctx.friLayerRoots[k + 1]? = some next.root
  hint : h.folds[k]? = some (decodedFold hint)
  alpha : ∃ alpha : Uint128, ctx.friAlphas[k]? = some alpha ∧ alpha.val = next.alpha

theorem foldRound_passes (round : Round h ctx k prev next hint) (depth : h.treeDepth.val = treeDepth)
    (bounded : treeDepth ≤ 30) (fits : k + 2 ≤ treeDepth)
    (committed : Vfri2.Committed t8Backend (treeDepth - k) prev.values prev.levels prev.root)
    (drawn : ∃ alpha : QM31, next.alpha = qm31Word alpha)
    (folded : Vfri2.FoldedFrom treeDepth k next.alpha prev.values next.values)
    (own : FoldOf treeDepth k prev next curIdx hint) (valueAt : prev.values[curIdx]? = some value) :
    ∃ nextValue, next.values[curIdx % 2 ^ (treeDepth - (k + 1))]? = some nextValue ∧
      foldRound h ctx k curIdx value =
        some (true, curIdx % 2 ^ (treeDepth - (k + 1)), nextValue) := by
  have split : treeDepth - k = treeDepth - (k + 1) + 1 := by omega
  have exponent : treeDepth - 1 - k = treeDepth - (k + 1) := by omega
  have length : prev.values.length = 2 ^ (treeDepth - (k + 1) + 1) := split ▸ committed.length
  have inside : curIdx < 2 ^ (treeDepth - (k + 1) + 1) := by
    rw [← length]
    exact (List.getElem?_eq_some_iff.mp valueAt).1
  have positive := Nat.two_pow_pos (treeDepth - (k + 1))
  have narrow : 2 ^ (treeDepth - (k + 1) + 1) ≤ 2 ^ 30 :=
    Nat.pow_le_pow_right (by decide) (by omega)
  have half : curIdx % 2 ^ (treeDepth - (k + 1)) < 2 ^ (treeDepth - (k + 1)) :=
    Nat.mod_lt _ positive
  have below : 2 ^ (treeDepth - (k + 1)) ≤ 2 ^ treeDepth :=
    Nat.pow_le_pow_right (by decide) (by omega)
  rcases own.sibling with ⟨sib, sibAt, sibWord, sibOpening⟩
  rcases own.folded with ⟨nextValue, nextAt, nextWord, nextOpening⟩
  rcases Vfri2.FoldedFrom.ordered folded length valueAt with ⟨sib', sibAt', nextAt'⟩
  have sameSib : sib' = sib := Option.some.inj (sibAt'.symm.trans sibAt)
  subst sameSib
  have nextIs := Option.some.inj (nextAt.symm.trans nextAt')
  rcases committed.packed value (List.mem_of_getElem? valueAt) with ⟨v, rfl⟩
  rcases committed.packed _ (List.mem_of_getElem? sibAt) with ⟨s, rfl⟩
  rcases drawn with ⟨a, alphaWord⟩
  rcases round.alpha with ⟨alpha, alphaAt, alphaIs⟩
  rcases twiddle_inverse bounded fits (half.trans_le below) with
    ⟨xJ, t, coset, doubled, nonzero, inverse⟩
  have sibling : (decodedFold hint).siblingValue = uint128Of (qm31Word s) := decodedValue sibWord
  have foldedValue : (decodedFold hint).foldedValue = uint128Of nextValue := decodedValue nextWord
  have siblingVal : (decodedFold hint).siblingValue.val = qm31Word s := by
    rw [sibling, uint128Of_val (qm31Word_lt s)]
  have value : ∃ q : QM31, nextValue = qm31Word q := nextIs ▸ Vfri2.lineFold_canonical _ _ _ _
  rcases value with ⟨q, rfl⟩
  have foldedVal : (decodedFold hint).foldedValue.val = qm31Word q := by
    rw [foldedValue, uint128Of_val (qm31Word_lt q)]
  have siblingOpens : verifyMem prev.root (valueLeaf (decodedFold hint).siblingValue)
      (oppositeOf curIdx (2 ^ (treeDepth - (k + 1)))) (treeDepth - k)
      (decodedFold hint).siblingProof = true := by
    rw [sibling]
    exact verifyMem_opening sibOpening (by omega) (split ▸ oppositeOf_lt inside) (qm31Word_lt s)
  have nextOpens : verifyMem next.root (valueLeaf (decodedFold hint).foldedValue)
      (curIdx % 2 ^ (treeDepth - (k + 1))) (treeDepth - (k + 1))
      (decodedFold hint).merkleProof = true := by
    rw [foldedValue]
    exact verifyMem_opening nextOpening (by omega) half (qm31Word_lt q)
  have folds : Verifier.lineFold
      (if curIdx < 2 ^ (treeDepth - (k + 1)) then qm31Word v
        else (decodedFold hint).siblingValue.val)
      (if curIdx < 2 ^ (treeDepth - (k + 1)) then (decodedFold hint).siblingValue.val
        else qm31Word v) alpha.val (Vfri2.m31Inv (Vfri2.chebyshevTwiddle
        (Vfri2.cosetAt treeDepth (curIdx % 2 ^ (treeDepth - (k + 1)))).1 k)) =
      some (qm31Word q) := by
    rw [siblingVal, alphaIs, alphaWord, nextIs, alphaWord, Vfri2.twiddle_eq bounded, Vfri2.inOrder]
    by_cases low : curIdx < 2 ^ (treeDepth - (k + 1))
    · rw [if_pos low, if_pos low, if_pos low]
      exact lineFold_eq v s a _
    · rw [if_neg low, if_neg low, if_neg low]
      exact lineFold_eq s v a _
  have above : checkedSub treeDepth 1 = some (treeDepth - 1) := checkedSub_eq (by omega)
  have rest : checkedSub (treeDepth - 1) k = some (treeDepth - (k + 1)) := by
    rw [checkedSub_eq (by omega), exponent]
  have size : oneShifted (treeDepth - (k + 1)) = 2 ^ (treeDepth - (k + 1)) :=
    oneShifted_eq (by omega)
  have mask : checkedSub (2 ^ (treeDepth - (k + 1))) 1 = some (2 ^ (treeDepth - (k + 1)) - 1) :=
    checkedSub_eq positive
  have opposite : oppositeIndex curIdx (2 ^ (treeDepth - (k + 1))) =
      some (oppositeOf curIdx (2 ^ (treeDepth - (k + 1)))) :=
    oppositeIndex_eq (by simp only [uintModulus]; omega)
  have opened : checkedSub treeDepth k = some (treeDepth - k) := checkedSub_eq (by omega)
  have nextDepth : checkedSub (treeDepth - k) 1 = some (treeDepth - (k + 1)) := by
    rw [checkedSub_eq (by omega), Nat.sub_sub]
  refine ⟨_, nextAt, ?_⟩
  simp only [foldRound, depth, above, rest, size, mask, Nat.and_two_pow_sub_one_eq_mod, opposite,
    round.prevRoot, round.hint, opened, siblingOpens, coset, doubled, if_neg nonzero, alphaAt,
    inverse, folds, foldedVal, round.nextRoot, nextDepth, nextOpens, Option.bind_eq_bind,
    Option.bind_some, Bool.not_true, Bool.false_eq_true, if_false, ne_eq, not_true_eq_false]

theorem front_of_drop {α : Type} {list tail : List α} {a : α} {k : ℕ}
    (front : list.drop k = a :: tail) : list[k]? = some a ∧ list.drop (k + 1) = tail := by
  rw [← List.head?_drop, ← List.tail_drop, front]
  exact ⟨rfl, rfl⟩

/-- Round by round a query is folded down to the last layer. -/
theorem verifyFoldsFrom_passes {layers : List FriLayer} {hints : List FoldHintData}
    (folds : FoldsOf treeDepth k prev layers curIdx hints)
    (roots : ctx.friLayerRoots.drop k = (prev :: layers).map FriLayer.root)
    (alphas : (ctx.friAlphas.map Fin.val).drop k = layers.map FriLayer.alpha)
    (listed : h.folds.drop k = hints.map decodedFold) (depth : h.treeDepth.val = treeDepth)
    (bounded : treeDepth ≤ 30) (fits : k + layers.length + 1 ≤ treeDepth)
    (committed : Vfri2.Committed t8Backend (treeDepth - k) prev.values prev.levels prev.root)
    (rounds : Vfri2.Rounds t8Backend treeDepth k prev.values layers)
    (valueAt : prev.values[curIdx]? = some value) :
    verifyFoldsFrom h ctx layers.length k curIdx value = some true := by
  induction folds generalizing value with
  | nil => rfl
  | @cons k prev next rest curIdx hint hints own later ih =>
      rcases rounds with ⟨drawn, folded, nextCommitted, further⟩
      rw [List.length_cons] at fits ⊢
      rcases front_of_drop roots with ⟨prevRoot, nextRoots⟩
      rcases front_of_drop alphas with ⟨alphaAt, nextAlphas⟩
      rcases front_of_drop listed with ⟨hintAt, nextHints⟩
      have nextRoot : ctx.friLayerRoots[k + 1]? = some next.root := by
        rw [← List.head?_drop, nextRoots]
        rfl
      rw [List.getElem?_map] at alphaAt
      have round : Round h ctx k prev next hint :=
        ⟨prevRoot, nextRoot, hintAt, Option.map_eq_some_iff.mp alphaAt⟩
      rcases foldRound_passes round depth bounded (by omega) committed drawn folded own valueAt with
        ⟨nextValue, nextAt, passed⟩
      rw [verifyFoldsFrom, passed]
      exact ih nextRoots nextAlphas nextHints (by omega) nextCommitted further nextAt

end Folds

/-! ## Quotients -/

section Quotients

open Vfri2 (Vfri11Chain antipodalOf)

variable {ch : Vfri11Chain} {ctx : VerifyCtx} {treeDepth idx : ℕ} {h : QueryHints}

/-- The words that the quotients of a query are computed from. -/
structure QuotientsOf (h : QueryHints) (ctx : VerifyCtx) (ch : Vfri11Chain) (treeDepth idx : ℕ) :
    Prop where
  pointX : h.queryPointX.val = (Vfri2.cosetAt treeDepth idx).1
  compValue : h.compValue.val = ch.compValues.getD idx 0
  compValueNeg : h.compValueNeg.val = ch.compValues.getD (antipodalOf idx treeDepth) 0
  zX : ctx.z_x.val = ch.zX
  comboPos : ctx.oodsComboPos.val = ch.oodsComboPos
  comboNeg : ctx.oodsComboNeg.val = ch.oodsComboNeg

theorem verifyOODS_passes (of : QuotientsOf h ctx ch treeDepth idx)
    (built : ch.Built Vfri2.t8Backend treeDepth) (regular : ch.Regular treeDepth)
    (inside : idx < 2 ^ treeDepth) :
    ∃ fPlus fMinus : QM31, verifyOODS h ctx = some (true, qm31Word fPlus, qm31Word fMinus) ∧
      Vfri2.quotients treeDepth ch.compValues ch.zX ch.oodsComboPos ch.oodsComboNeg idx =
        (qm31Word fPlus, qm31Word fMinus) := by
  have nonzero := regular idx inside
  rcases Vfri2.quotients_elements built inside with ⟨v, w, z, pos, neg, own, opposite, zX, comboPos,
    comboNeg, quotient⟩
  rw [Vfri2.cosetAt_eq built.depth_le, Vfri2.coords] at nonzero
  dsimp only at nonzero
  rw [zX, Vfri2.qm31FromM31_word, Vfri2.qm31Neg_word] at nonzero
  have apart := Vfri2.sub_ne_zero_of_word nonzero.1
  have apartNeg := Vfri2.sub_ne_zero_of_word nonzero.2
  have pointX := of.pointX
  rw [Vfri2.cosetAt_eq built.depth_le, Vfri2.coords] at pointX
  dsimp only at pointX
  refine ⟨_, _, ?_, quotient⟩
  simp only [verifyOODS, pointX, of.compValue, own, of.compValueNeg, opposite, of.zX, zX,
    of.comboPos, comboPos, of.comboNeg, comboNeg, qm31FromM31_word, qm31Sub_word, qm31Neg_word,
    if_neg (qm31Word_ne_zero apart), if_neg (qm31Word_ne_zero apartNeg), qm31Inv_word apart,
    qm31Inv_word apartNeg, qm31Mul_word, Option.bind_eq_bind, Option.bind_some, div_eq_mul_inv]

theorem isOnCircle_of {p : ℕ × ℕ} (point : OnCircle p) : isOnCircle p.1 p.2 = true := by
  have sum := m31Add_canonical (m31Mul_canonical p.1 p.1) (m31Mul_canonical p.2 p.2)
  have value := point.norm
  rw [norm_eq_sum, pointValue] at value
  have one : ((m31Add (m31Mul p.1 p.1) (m31Mul p.2 p.2) : ℕ) : M31) = ((1 : ℕ) : M31) := by
    rw [m31Add_cast (.of_canonical (m31Mul_canonical _ _)) (.of_canonical (m31Mul_canonical _ _)),
      m31Mul_cast, m31Mul_cast, Nat.cast_one, ← value]
    ring
  rw [isOnCircle, Canonical.eq_of_cast sum (by decide) one]
  rfl

/-- The circle fold of the committed quotients. -/
theorem checkCircleFold_passes {fPlus fMinus alpha : QM31} (depth : h.treeDepth.val = treeDepth)
    (index : h.queryIndex.val = idx) (pointX : h.queryPointX.val = (Vfri2.cosetAt treeDepth idx).1)
    (pointY : h.queryPointY.val = (Vfri2.cosetAt treeDepth idx).2)
    (folded : h.foldedValue.val = Vfri2.circleFold (qm31Word fPlus) (qm31Word fMinus)
      (qm31Word alpha) (Vfri2.m31Inv (Vfri2.cosetAt treeDepth idx).2)) (positive : 1 ≤ treeDepth)
    (bounded : treeDepth ≤ 30) (inside : idx < 2 ^ treeDepth) :
    checkCircleFold (qm31Word fPlus) (qm31Word fMinus) h (qm31Word alpha) = some true := by
  have onCircle := isOnCircle_of (Vfri2.cosetAt_onCircle bounded idx)
  have nonzero := Vfri2.cosetAt_y_ne_zero positive bounded idx
  have coset := Vfri2.contract_cosetAt_eq positive bounded inside
  have deep : ¬ (treeDepth < 1 ∨ 30 < treeDepth) := by omega
  have within : ¬ oneShifted treeDepth ≤ idx := by
    rw [oneShifted_eq (by omega)]
    exact not_le.mpr inside
  have element : (cosetPoint treeDepth idx).im ≠ 0 := cosetPoint_im_ne_zero positive bounded idx
  have second : (Vfri2.cosetAt treeDepth idx).2 = (cosetPoint treeDepth idx).im.val := by
    rw [Vfri2.cosetAt_eq bounded]
    rfl
  have inverse : Verifier.m31Inv (Vfri2.cosetAt treeDepth idx).2 =
      some ((cosetPoint treeDepth idx).im⁻¹).val := by
    rw [second, m31Inv_val element]
  have done : Verifier.circleFold (qm31Word fPlus) (qm31Word fMinus) (qm31Word alpha)
      ((cosetPoint treeDepth idx).im⁻¹).val = some h.foldedValue.val := by
    rw [folded, second, Vfri2.circleFold_word]
    exact foldBody_word _ _ _ _
  simp only [checkCircleFold, pointX, pointY, depth, index, onCircle, if_neg nonzero, if_neg deep,
    if_neg within, coset, inverse, done, Option.bind_eq_bind, Option.bind_some, Bool.not_true,
    Bool.false_eq_true, if_false, ne_eq, not_true_eq_false, or_self, beq_self_eq_true]

end Quotients

end VFRI11
end Contracts
end QLSA
