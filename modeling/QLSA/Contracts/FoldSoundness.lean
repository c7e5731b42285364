import QLSA.Contracts.VFRI11

namespace QLSA
namespace Contracts
namespace VFRI11

open Mersenne Verifier

/-!
# What an accepted query says about its values

An accepted query satisfies the field equations of its folds up to the carries
of packed sums.  Quotients are products and hence canonical, so the circle fold
is always right and the first line fold cannot carry; a folded value need not
be canonical, and from the second line fold on a limb of the sum of the two
folded values may leave its 32 bits.  The equations of a query hold exactly
when no limb does.
-/

/-- Every challenge of the context is canonical. -/
structure CanonicalChallenges (ctx : VerifyCtx) : Prop where
  z_x : CanonicalQM31 ctx.z_x
  compAlpha : CanonicalQM31 ctx.compAlpha
  friAlpha : CanonicalQM31 ctx.friAlpha
  friAlphas : ∀ alpha ∈ ctx.friAlphas, CanonicalQM31 alpha.val

/-! ## The equations -/

section Equations

variable (h : QueryHints) (ctx : VerifyCtx)

/-- Number of line folds. -/
def numFolds : ℕ := ctx.friLayerRoots.length - 1

/-- Index of the query in layer `k`. -/
def lineIndex (k : ℕ) : ℕ := h.queryIndex % 2 ^ (h.treeDepth.val - k)

/-- Value of the query in layer `k`. -/
def layerValue : ℕ → Option Uint128
  | 0 => some h.foldedValue
  | k + 1 => h.folds[k]?.map FoldHint.foldedValue

/-- The point of the domain at the query. -/
def queryPoint : CM31 := cosetPoint h.treeDepth h.queryIndex

/-- First coordinate of the folded point of round `k`, doubled `k` times. -/
def twiddle (k : ℕ) : M31 :=
  doubled^[k] (cosetPoint h.treeDepth (lineIndex h (k + 1))).re

/-- The quotient of the composition at a point. -/
def quotient (value combo point z : QM31) : QM31 := (value - combo) / (point - z)

/-- The first fold is the fold of the two OODS quotients. -/
def CircleEquation : Prop :=
  let point := baseValue (queryPoint h).re
  let z := qm31Value ctx.z_x
  qm31Value h.foldedValue =
    fold (quotient (qm31Value h.compValue) (qm31Value ctx.oodsComboPos) point z)
      (quotient (qm31Value h.compValueNeg) (qm31Value ctx.oodsComboNeg) (-point) z)
      (qm31Value ctx.friAlpha) (queryPoint h).im

/-- The values of round `k`, the half of the domain the query is in first. -/
def inOrder (k : ℕ) (value sibling : ℕ) : ℕ × ℕ :=
  if lineIndex h k < 2 ^ (h.treeDepth.val - 1 - k) then (value, sibling) else (sibling, value)

/-- A line fold of the query holds in the field. -/
def LineEquation (k : ℕ) : Prop :=
  ∃ hint alpha value, h.folds[k]? = some hint ∧ ctx.friAlphas[k]? = some alpha ∧
    layerValue h k = some value ∧ twiddle h k ≠ 0 ∧
    let g := inOrder h k value hint.siblingValue
    qm31Value hint.foldedValue =
      fold (qm31Value g.1) (qm31Value g.2) (qm31Value alpha) (twiddle h k)

/-- The claimed values of a query satisfy the equations of all folds. -/
structure FieldEquations : Prop where
  denominators : baseValue (queryPoint h).re - qm31Value ctx.z_x ≠ 0 ∧
    -baseValue (queryPoint h).re - qm31Value ctx.z_x ≠ 0
  coordinate : (queryPoint h).im ≠ 0
  circle : CircleEquation h ctx
  lines : ∀ k < numFolds ctx, LineEquation h ctx k

/-- In no line fold after the first does a limb of the sum of the folded value
and its sibling leave its 32 bits. -/
def NoFoldCarries : Prop :=
  ∀ k, k + 1 < numFolds ctx → ∀ earlier later, h.folds[k]? = some earlier →
    h.folds[k + 1]? = some later → NoCarry earlier.foldedValue.val later.siblingValue.val

end Equations

/-! ## The circle fold -/

/-- A check that passes goes on. -/
theorem of_guard {failed : Prop} [Decidable failed] {rest : Option Bool}
    (passed : (if failed then some false else rest) = some true) :
    ¬ failed ∧ rest = some true := by
  by_cases fails : failed
  · rw [if_pos fails] at passed
    exact absurd passed (by decide)
  · rw [if_neg fails] at passed
    exact ⟨fails, passed⟩

/-- A check with results that passes goes on. -/
theorem of_guard_results {failed : Prop} [Decidable failed] {a b : ℕ}
    {rest : Option (Bool × ℕ × ℕ)}
    (passed : (if failed then some (false, 0, 0) else rest) = some (true, a, b)) :
    ¬ failed ∧ rest = some (true, a, b) := by
  by_cases fails : failed
  · rw [if_pos fails] at passed
    exact absurd (congrArg Prod.fst (Option.some.inj passed)) (by simp)
  · rw [if_neg fails] at passed
    exact ⟨fails, passed⟩

/-- A check of the circle fold that passes. -/
theorem checkCircleFold_passed {fPlus fMinus alpha : ℕ} {h : QueryHints}
    (passed : checkCircleFold fPlus fMinus h alpha = some true) :
    h.queryPointY.val ≠ 0 ∧
      cosetAt h.treeDepth h.queryIndex = some (h.queryPointX.val, h.queryPointY.val) ∧
      ∃ yInv, m31Inv h.queryPointY = some yInv ∧
        circleFold fPlus fMinus alpha yInv = some h.foldedValue.val := by
  unfold checkCircleFold at passed
  rcases of_guard passed with ⟨-, afterCircle⟩
  rcases of_guard afterCircle with ⟨nonzero, afterZero⟩
  rcases of_guard afterZero with ⟨-, afterDepth⟩
  rcases of_guard afterDepth with ⟨-, afterIndex⟩
  simp only [Option.bind_eq_bind, Option.bind_eq_some_iff] at afterIndex
  rcases afterIndex with ⟨c, coset, afterCoset⟩
  rcases of_guard afterCoset with ⟨same, rest⟩
  rw [not_or, not_not, not_not] at same
  simp only [Option.bind_eq_some_iff] at rest
  rcases rest with ⟨yInv, inverse, folded, done, equal⟩
  have agree : folded = h.foldedValue.val := by simpa using equal
  subst agree
  rcases same with ⟨x, y⟩
  refine ⟨nonzero, ?_, yInv, inverse, done⟩
  rw [coset, ← x, ← y]

/-- The quotients of an OODS check that passes. -/
theorem verifyOODS_passed {h : QueryHints} {ctx : VerifyCtx} {fPlus fMinus : ℕ}
    (challenge : CanonicalQM31 ctx.z_x) (point : Canonical h.queryPointX.val)
    (passed : verifyOODS h ctx = some (true, fPlus, fMinus)) :
    let px := baseValue (h.queryPointX.val : M31)
    let z := qm31Value ctx.z_x
    (px - z ≠ 0 ∧ CanonicalQM31 fPlus ∧ qm31Value fPlus =
        quotient (qm31Value h.compValue) (qm31Value ctx.oodsComboPos) px z) ∧
      (-px - z ≠ 0 ∧ CanonicalQM31 fMinus ∧ qm31Value fMinus =
        quotient (qm31Value h.compValueNeg) (qm31Value ctx.oodsComboNeg) (-px) z) := by
  rcases qm31FromM31_spec point with ⟨pxCanonical, pxValue⟩
  rcases qm31Neg_spec pxCanonical with ⟨pxNeg, negated, negCanonical, negValue⟩
  simp only [verifyOODS, negated, Option.bind_eq_bind, Option.bind_eq_some_iff,
    Option.bind_some] at passed
  rcases passed with ⟨denomPos, posDifference, denomNeg, negDifference, guarded⟩
  rcases of_guard_results guarded with ⟨-, afterPos⟩
  rcases of_guard_results afterPos with ⟨-, rest⟩
  simp only [Option.bind_eq_some_iff] at rest
  rcases rest with ⟨numerPos, posNumerator, numerNeg, negNumerator, invPos, posInverse, first,
    posProduct, invNeg, negInverse, second, negProduct, equal⟩
  have agree : first = fPlus ∧ second = fMinus := by simpa using equal
  rcases agree with ⟨plus, minus⟩
  subst plus minus
  have posCanonical := qm31Sub_canonical pxCanonical challenge posDifference
  have negCanonical := qm31Sub_canonical negCanonical challenge negDifference
  rcases qm31Inv_spec posCanonical posInverse with ⟨-, posNonzero, posInverted⟩
  rcases qm31Inv_spec negCanonical negInverse with ⟨-, negNonzero, negInverted⟩
  rcases qm31Mul_spec numerPos invPos with ⟨found, again, plusCanonical, plusValue⟩
  have samePlus : found = first := Option.some.inj (again.symm.trans posProduct)
  subst samePlus
  rcases qm31Mul_spec numerNeg invNeg with ⟨found', again', minusCanonical, minusValue⟩
  have sameMinus : found' = second := Option.some.inj (again'.symm.trans negProduct)
  subst sameMinus
  rw [qm31Sub_spec posDifference, pxValue] at posNonzero posInverted
  rw [qm31Sub_spec negDifference, negValue, pxValue] at negNonzero negInverted
  refine ⟨⟨posNonzero, plusCanonical, ?_⟩, negNonzero, minusCanonical, ?_⟩
  · rw [plusValue, posInverted, qm31Sub_spec posNumerator, quotient, div_eq_mul_inv]
  · rw [minusValue, negInverted, qm31Sub_spec negNumerator, quotient, div_eq_mul_inv]

/-! ## Line folds -/

/-- The loop doubles the first coordinate. -/
theorem twiddleLoop_spec (rounds : ℕ) {x t : ℕ} (canonical : Canonical x)
    (done : twiddleLoop rounds x = some t) :
    Canonical t ∧ (t : M31) = doubled^[rounds] (x : M31) := by
  induction rounds generalizing x with
  | zero =>
      have same : x = t := Option.some.inj done
      subst same
      exact ⟨canonical, rfl⟩
  | succ rounds ih =>
      simp only [twiddleLoop, Option.bind_eq_bind, Option.bind_eq_some_iff] at done
      rcases done with ⟨next, difference, rest⟩
      have square := m31Mul_canonical x x
      have one : Canonical 1 := by decide
      rcases m31Sub_canonical (m31Add_canonical square square) one with
        ⟨found, again, nextCanonical, nextValue⟩
      have same : found = next := Option.some.inj (again.symm.trans difference)
      subst same
      rcases ih nextCanonical rest with ⟨tCanonical, tValue⟩
      refine ⟨tCanonical, ?_⟩
      have doubling : (found : M31) = doubled (x : M31) := by
        rw [nextValue, m31Add_cast (.of_canonical square) (.of_canonical square), m31Mul_cast,
          doubled, Nat.cast_one]
        ring
      rw [tValue, doubling, Function.iterate_succ_apply]

theorem checkedSub_eq_some {a b r : ℕ} (done : checkedSub a b = some r) : b ≤ a ∧ r = a - b := by
  unfold checkedSub at done
  split at done
  case isTrue ordered => exact ⟨ordered, (Option.some.inj done).symm⟩
  case isFalse => simp at done

theorem oneShifted_eq {n : ℕ} (small : n < 256) : oneShifted n = 2 ^ n :=
  Nat.mod_eq_of_lt (Nat.pow_lt_pow_right (by decide) small)

section Rounds

variable {h : QueryHints} {ctx : VerifyCtx} {k : ℕ}

theorem noCarry_inOrder (value sibling : ℕ) :
    NoCarry (inOrder h k value sibling).1 (inOrder h k value sibling).2 ↔
      NoCarry value sibling := by
  unfold inOrder
  split
  · exact Iff.rfl
  · exact ⟨NoCarry.symm, NoCarry.symm⟩

theorem lineIndex_mod (deep : k + 1 ≤ h.treeDepth.val) :
    lineIndex h k % 2 ^ (h.treeDepth.val - 1 - k) = lineIndex h (k + 1) := by
  have exponent : h.treeDepth.val - (k + 1) = h.treeDepth.val - 1 - k := by omega
  rw [lineIndex, lineIndex, exponent]
  apply Nat.mod_mod_of_dvd
  apply Nat.pow_dvd_pow
  omega

/-- A round that passes leads to the next index and the claimed fold, which is
the fold of the field exactly when the sum of the two values does not carry. -/
theorem foldRound_passed {value newLineIdx newValue : ℕ} (bounded : h.treeDepth.val ≤ 30)
    (passed : foldRound h ctx k (lineIndex h k) value = some (true, newLineIdx, newValue)) :
    newLineIdx = lineIndex h (k + 1) ∧ ∃ hint alpha,
      h.folds[k]? = some hint ∧ ctx.friAlphas[k]? = some alpha ∧
        newValue = hint.foldedValue.val ∧ twiddle h k ≠ 0 ∧
        (qm31Value hint.foldedValue =
            fold (qm31Value (inOrder h k value hint.siblingValue).1)
              (qm31Value (inOrder h k value hint.siblingValue).2) (qm31Value alpha)
              (twiddle h k) ↔
          NoCarry value hint.siblingValue.val) := by
  rcases Option.bind_eq_some_iff.mp passed with ⟨above, aboveDone, passed⟩
  rcases Option.bind_eq_some_iff.mp passed with ⟨rest, restDone, passed⟩
  rcases Option.bind_eq_some_iff.mp passed with ⟨mask, maskDone, passed⟩
  rcases Option.bind_eq_some_iff.mp passed with ⟨sibling, -, passed⟩
  rcases Option.bind_eq_some_iff.mp passed with ⟨root, -, passed⟩
  rcases Option.bind_eq_some_iff.mp passed with ⟨hint, isHint, passed⟩
  rcases Option.bind_eq_some_iff.mp passed with ⟨depth, -, afterOpening⟩
  rcases checkedSub_eq_some aboveDone with ⟨positive, aboveValue⟩
  rcases checkedSub_eq_some restDone with ⟨deepEnough, restValue⟩
  rcases checkedSub_eq_some maskDone with ⟨-, maskValue⟩
  subst aboveValue restValue
  have deep : k + 1 ≤ h.treeDepth.val := by omega
  rw [oneShifted_eq (by omega)] at maskValue afterOpening
  have newIndex : lineIndex h k &&& mask = lineIndex h (k + 1) := by
    rw [maskValue, Nat.and_two_pow_sub_one_eq_mod, lineIndex_mod deep]
  rw [newIndex] at afterOpening
  rcases of_guard_results afterOpening with ⟨-, opened⟩
  rcases Option.bind_eq_some_iff.mp opened with ⟨xJ, coset, opened⟩
  rcases Option.bind_eq_some_iff.mp opened with ⟨t, doubling, afterTwiddle⟩
  rcases of_guard_results afterTwiddle with ⟨-, invertible⟩
  rcases Option.bind_eq_some_iff.mp invertible with ⟨alpha, isAlpha, invertible⟩
  rcases Option.bind_eq_some_iff.mp invertible with ⟨xInv, inverse, invertible⟩
  rcases Option.bind_eq_some_iff.mp invertible with ⟨folded, done, afterFold⟩
  rcases of_guard_results afterFold with ⟨agree, matching⟩
  rcases Option.bind_eq_some_iff.mp matching with ⟨nextRoot, -, matching⟩
  rcases Option.bind_eq_some_iff.mp matching with ⟨nextDepth, -, afterNext⟩
  rcases of_guard_results afterNext with ⟨-, final⟩
  have results : lineIndex h (k + 1) = newLineIdx ∧ hint.foldedValue.val = newValue := by
    simpa using final
  rcases cosetAt_some coset with ⟨-, -, -, point, pointIs⟩
  rcases twiddleLoop_spec k point.x doubling with ⟨tCanonical, tValue⟩
  have first : ((xJ.1 : ℕ) : M31) = (cosetPoint h.treeDepth (lineIndex h (k + 1))).re := by
    rw [← pointIs]
    rfl
  have tTwiddle : (t : M31) = twiddle h k := by rw [tValue, first, twiddle]
  rcases m31Inv_spec tCanonical inverse with ⟨tNonzero, -, inverted⟩
  have ordered : (if lineIndex h k < 2 ^ (h.treeDepth.val - 1 - k) then value
        else hint.siblingValue.val) = (inOrder h k value hint.siblingValue).1 ∧
      (if lineIndex h k < 2 ^ (h.treeDepth.val - 1 - k) then hint.siblingValue.val
        else value) = (inOrder h k value hint.siblingValue).2 := by
    unfold inOrder
    split <;> exact ⟨rfl, rfl⟩
  rw [ordered.1, ordered.2, not_not.mp agree] at done
  refine ⟨results.1.symm, hint, alpha, isHint, isAlpha, results.2.symm, ?_, ?_⟩
  · rw [← tTwiddle]
    exact tNonzero
  · rw [← noCarry_inOrder (h := h) (k := k), ← foldBody_spec done, inverted, inv_inv, tTwiddle]

/-- Value of the query in a layer, as a word. -/
theorem layerValue_succ {hint : FoldHint} (isHint : h.folds[k]? = some hint) :
    layerValue h (k + 1) = some hint.foldedValue := by
  rw [layerValue, isHint]
  rfl

/-- Every round of a run that passes: its fold holds in the field exactly when
its sum does not carry. -/
theorem verifyFoldsFrom_passed (bounded : h.treeDepth.val ≤ 30) {remaining : ℕ} {value : Uint128}
    (isValue : layerValue h k = some value)
    (passed : verifyFoldsFrom h ctx remaining k (lineIndex h k) value = some true) :
    ∀ j, k ≤ j → j < k + remaining → ∃ hint value, h.folds[j]? = some hint ∧
      layerValue h j = some value ∧
        (LineEquation h ctx j ↔ NoCarry value.val hint.siblingValue.val) := by
  induction remaining generalizing k value with
  | zero =>
      intro j above below
      omega
  | succ remaining ih =>
      simp only [verifyFoldsFrom, Option.bind_eq_bind, Option.bind_eq_some_iff] at passed
      rcases passed with ⟨⟨ok, newLineIdx, newValue⟩, round, rest⟩
      cases ok with
      | false => simp at rest
      | true =>
        rcases foldRound_passed bounded round with
          ⟨newIndex, hint, alpha, isHint, isAlpha, newIs, nonzero, equation⟩
        simp only [if_true, newIndex, newIs] at rest
        have later := ih (layerValue_succ isHint) rest
        intro j above below
        by_cases here : j = k
        · subst here
          refine ⟨hint, value, isHint, isValue, ?_⟩
          rw [← equation]
          constructor
          · rintro ⟨hint', alpha', value', isHint', isAlpha', isValue', -, holds⟩
            have sameHint := Option.some.inj (isHint'.symm.trans isHint)
            have sameAlpha := Option.some.inj (isAlpha'.symm.trans isAlpha)
            have sameValue := Option.some.inj (isValue'.symm.trans isValue)
            subst sameHint sameAlpha sameValue
            exact holds
          · intro holds
            exact ⟨hint, alpha, value, isHint, isAlpha, isValue, nonzero, holds⟩
        · exact later j (by omega) (by omega)

end Rounds

/-! ## The whole query -/

/-- What a query that passes has checked, apart from the openings. -/
theorem verifyQuery_passed {h : QueryHints} {ctx : VerifyCtx}
    (passed : verifyQuery h ctx = some true) :
    (∃ fPlus fMinus, verifyOODS h ctx = some (true, fPlus, fMinus) ∧
      checkCircleFold fPlus fMinus h ctx.friAlpha = some true) ∧
    verifyFoldsFrom h ctx (numFolds ctx) 0 h.queryIndex h.foldedValue = some true := by
  unfold verifyQuery at passed
  rcases of_guard passed with ⟨-, afterComp⟩
  simp only [Option.bind_eq_bind, Option.bind_eq_some_iff] at afterComp
  rcases afterComp with ⟨above, -, shifted, -, mask, -, afterIndices⟩
  rcases of_guard afterIndices with ⟨-, afterAntipode⟩
  simp only [Option.bind_eq_some_iff] at afterAntipode
  rcases afterAntipode with ⟨⟨ok, fPlus, fMinus⟩, oods, afterOods⟩
  rcases of_guard afterOods with ⟨okay, quotients⟩
  simp only [Option.bind_eq_some_iff] at quotients
  rcases quotients with ⟨circle, checked, afterCircle⟩
  rcases of_guard afterCircle with ⟨folded, afterFold⟩
  simp only [Option.bind_eq_some_iff] at afterFold
  rcases afterFold with ⟨root, -, afterRoot⟩
  rcases of_guard afterRoot with ⟨-, lines⟩
  simp only [verifyFolds, Option.bind_eq_bind, Option.bind_eq_some_iff] at lines
  rcases lines with ⟨count, counted, run⟩
  rcases checkedSub_eq_some counted with ⟨-, countValue⟩
  rw [countValue] at run
  have isOkay : ok = true := by simpa using okay
  have isFolded : circle = true := by simpa using folded
  subst isOkay isFolded
  exact ⟨⟨fPlus, fMinus, oods, checked⟩, run⟩

/-- The circle fold of an accepted query. -/
theorem circle_passed {h : QueryHints} {ctx : VerifyCtx} (challenges : CanonicalChallenges ctx)
    {fPlus fMinus : ℕ} (oods : verifyOODS h ctx = some (true, fPlus, fMinus))
    (checked : checkCircleFold fPlus fMinus h ctx.friAlpha = some true) :
    h.treeDepth.val ≤ 30 ∧ h.queryIndex.val < 2 ^ h.treeDepth.val ∧
      (baseValue (queryPoint h).re - qm31Value ctx.z_x ≠ 0 ∧
        -baseValue (queryPoint h).re - qm31Value ctx.z_x ≠ 0) ∧
      (queryPoint h).im ≠ 0 ∧ CircleEquation h ctx ∧ CanonicalQM31 h.foldedValue.val := by
  rcases checkCircleFold_passed checked with ⟨-, coset, yInv, inverse, folded⟩
  rcases cosetAt_some coset with ⟨-, bounded, inside, point, pointIs⟩
  rcases m31Inv_spec point.y inverse with ⟨nonzero, -, inverted⟩
  have x : ((h.queryPointX.val : ℕ) : M31) = (queryPoint h).re := by
    rw [queryPoint, ← pointIs]
    rfl
  have y : ((h.queryPointY.val : ℕ) : M31) = (queryPoint h).im := by
    rw [queryPoint, ← pointIs]
    rfl
  rcases verifyOODS_passed challenges.z_x point.x oods with
    ⟨⟨posNonzero, plusCanonical, plus⟩, negNonzero, minusCanonical, minus⟩
  rw [x] at posNonzero negNonzero plus minus
  have carries : NoCarry fPlus fMinus := by
    apply NoCarry.of_canonical
    exact minusCanonical
  have equation := (foldBody_spec folded).mpr carries
  rw [inverted, inv_inv, y, plus, minus] at equation
  refine ⟨bounded, inside, ⟨posNonzero, negNonzero⟩, ?_, equation,
    foldBody_canonical plusCanonical minusCanonical folded⟩
  rw [← y]
  exact nonzero

/-- Every line fold of an accepted query holds in the field exactly when its
sum does not carry. -/
theorem lines_passed {h : QueryHints} {ctx : VerifyCtx} (challenges : CanonicalChallenges ctx)
    (accepted : verifyQuery h ctx = some true) {k : ℕ} (inRange : k < numFolds ctx) :
    ∃ hint value, h.folds[k]? = some hint ∧ layerValue h k = some value ∧
      (LineEquation h ctx k ↔ NoCarry value.val hint.siblingValue.val) := by
  rcases verifyQuery_passed accepted with ⟨⟨fPlus, fMinus, oods, checked⟩, run⟩
  rcases circle_passed challenges oods checked with ⟨bounded, inside, -⟩
  have start : lineIndex h 0 = h.queryIndex.val := Nat.mod_eq_of_lt inside
  rw [← start] at run
  have first : layerValue h 0 = some h.foldedValue := rfl
  exact verifyFoldsFrom_passed bounded first run k (Nat.zero_le k) (by omega)

/-- A line fold after the first whose sum carries is false in the field. -/
theorem not_fieldEquations_of_carry {h : QueryHints} {ctx : VerifyCtx}
    (challenges : CanonicalChallenges ctx) (accepted : verifyQuery h ctx = some true) {k : ℕ}
    (inRange : k + 1 < numFolds ctx) {earlier later : FoldHint}
    (isEarlier : h.folds[k]? = some earlier) (isLater : h.folds[k + 1]? = some later)
    (carries : ¬ NoCarry earlier.foldedValue.val later.siblingValue.val) :
    ¬ FieldEquations h ctx := by
  intro equations
  rcases lines_passed challenges accepted inRange with ⟨hint, value, isHint, isValue, equation⟩
  have sameHint := Option.some.inj (isHint.symm.trans isLater)
  have sameValue := Option.some.inj (isValue.symm.trans (layerValue_succ isEarlier))
  subst sameHint sameValue
  exact carries (equation.mp (equations.lines (k + 1) inRange))

/-- The field equations of an accepted query hold exactly when no fold after the first carries.
The limbs of the claimed values are any words of 32 bits, as the contract checks no more of them,
and the condition is read off these values alone. -/
theorem fold_equations_iff {h : QueryHints} {ctx : VerifyCtx}
    (challenges : CanonicalChallenges ctx) (accepted : verifyQuery h ctx = some true) :
    FieldEquations h ctx ↔ NoFoldCarries h ctx := by
  constructor
  · intro equations k inRange earlier later isEarlier isLater
    by_contra carries
    exact not_fieldEquations_of_carry challenges accepted inRange isEarlier isLater carries
      equations
  · intro fits
    rcases verifyQuery_passed accepted with ⟨⟨fPlus, fMinus, oods, checked⟩, -⟩
    rcases circle_passed challenges oods checked with
      ⟨-, -, denominators, coordinate, circle, canonical⟩
    refine ⟨denominators, coordinate, circle, ?_⟩
    intro k inRange
    rcases lines_passed challenges accepted inRange with ⟨hint, value, isHint, isValue, equation⟩
    apply equation.mpr
    cases k with
    | zero =>
        have sameValue := Option.some.inj isValue
        subst sameValue
        exact NoCarry.symm (.of_canonical hint.siblingValue.val canonical)
    | succ k =>
        rcases lines_passed challenges accepted (by omega : k < numFolds ctx) with
          ⟨earlier, -, isEarlier, -⟩
        have sameValue := Option.some.inj (isValue.symm.trans (layerValue_succ isEarlier))
        subst sameValue
        exact fits k inRange earlier hint isEarlier isHint

/-! ## Two queries -/

section Samples

/-- A packed element. -/
def limbs (a b c d : ℕ) : Uint128 :=
  Fin.ofNat (2 ^ 128) (((a * 2 ^ 32 + b) * 2 ^ 32 + c) * 2 ^ 32 + d)

/-- A subtree that holds a value at its last leaf and empty nodes beside the path. -/
def halfRoot (value : Uint128) (depth : ℕ) : Bytes32 :=
  climb (valueLeaf value) (2 ^ depth - 1) (List.replicate depth 0)

/-- The opening of the last leaf of one half beside the other half. -/
def halfProof (other : Uint128) (depth : ℕ) : List Bytes32 :=
  List.replicate depth 0 ++ [halfRoot other depth]

/-- A layer that holds a value at the last leaf of either half. -/
def layerRoot (first second : Uint128) (depth : ℕ) : Bytes32 :=
  hashPair (halfRoot first depth) (halfRoot second depth)

/-- A query at the last of eight points with two line folds. -/
def sampleQuery (folded sibling0 folded0 sibling1 folded1 : Uint128) : QueryHints where
  queryIndex := 7
  treeDepth := 3
  compValue := limbs 17 18 19 20
  compProof := halfProof (limbs 21 22 23 24) 2
  compValueNeg := limbs 21 22 23 24
  compProofNeg := halfProof (limbs 17 18 19 20) 2
  foldedValue := folded
  queryPointX := 590768354
  queryPointY := 1168891274
  friL1Siblings := halfProof sibling0 2
  folds := [⟨sibling0, halfProof folded 2, folded0, halfProof sibling1 1⟩,
    ⟨sibling1, halfProof folded0 1, folded1, [0]⟩]

/-- The context that commits to the values of the query. -/
def sampleContext (folded sibling0 folded0 sibling1 folded1 : Uint128) : VerifyCtx where
  embeddedRoot := 0
  z_x := limbs 1 2 3 4
  compAlpha := limbs 41 42 43 44
  compRoot := layerRoot (limbs 21 22 23 24) (limbs 17 18 19 20) 2
  friAlpha := limbs 5 6 7 8
  oodsComboPos := limbs 25 26 27 28
  oodsComboNeg := limbs 29 30 31 32
  friLayerRoots := [layerRoot sibling0 folded 2, layerRoot sibling1 folded0 1,
    halfRoot folded1 1]
  friAlphas := [limbs 9 10 11 12, limbs 13 14 15 16]
  derivedIndices := [7]

theorem sampleContext_canonical (folded sibling0 folded0 sibling1 folded1 : Uint128) :
    CanonicalChallenges (sampleContext folded sibling0 folded0 sibling1 folded1) := by
  have z_x : CanonicalQM31 (limbs 1 2 3 4).val := by decide +kernel
  have compAlpha : CanonicalQM31 (limbs 41 42 43 44).val := by decide +kernel
  have friAlpha : CanonicalQM31 (limbs 5 6 7 8).val := by decide +kernel
  have first : CanonicalQM31 (limbs 9 10 11 12).val := by decide +kernel
  have second : CanonicalQM31 (limbs 13 14 15 16).val := by decide +kernel
  refine ⟨z_x, compAlpha, friAlpha, ?_⟩
  intro alpha member
  rcases List.mem_pair.mp member with same | same
  · rwa [same]
  · rwa [same]

/-- With siblings of small limbs no sum carries and the equations hold. -/
theorem fold_equations_small :
    let folded := limbs 895619547 1593990995 2089791204 1420132731
    let folded0 := limbs 1581793164 1629344173 1895848737 124593974
    let folded1 := limbs 1866716602 1401113811 194047519 978087684
    let sibling0 := limbs 33 34 35 36
    let sibling1 := limbs 37 38 39 40
    FieldEquations (sampleQuery folded sibling0 folded0 sibling1 folded1)
      (sampleContext folded sibling0 folded0 sibling1 folded1) := by
  intro folded folded0 folded1 sibling0 sibling1
  have accepted : verifyQuery (sampleQuery folded sibling0 folded0 sibling1 folded1)
      (sampleContext folded sibling0 folded0 sibling1 folded1) = some true := by
    decide +kernel
  have fits : NoCarry folded0.val sibling1.val := by decide +kernel
  apply (fold_equations_iff (sampleContext_canonical _ _ _ _ _) accepted).mpr
  intro k inRange earlier later isEarlier isLater
  have first : k = 0 := by
    have twoRounds : k + 1 < 2 := inRange
    omega
  subst first
  have isHint := Option.some.inj isEarlier
  have isNext := Option.some.inj isLater
  subst isHint isNext
  exact fits

/-- With siblings of four full limbs the sum of the second line fold carries,
and an accepted query is false in the field. -/
theorem accepted_fold_false :
    ¬ ∀ (h : QueryHints) (ctx : VerifyCtx), CanonicalChallenges ctx →
      verifyQuery h ctx = some true → FieldEquations h ctx := by
  intro claim
  let folded := limbs 895619547 1593990995 2089791204 1420132731
  let full := limbs 4294967295 4294967295 4294967295 4294967295
  let folded0 := limbs 1827346959 2983065074 2713751214 2565563391
  let folded1 := limbs 3189260810 1172311303 274582605 76157053
  have canonical := sampleContext_canonical folded full folded0 full folded1
  have accepted : verifyQuery (sampleQuery folded full folded0 full folded1)
      (sampleContext folded full folded0 full folded1) = some true := by
    decide +kernel
  have carries : ¬ NoCarry folded0.val full.val := by decide +kernel
  have inRange : 0 + 1 < numFolds (sampleContext folded full folded0 full folded1) := by
    decide
  exact not_fieldEquations_of_carry canonical accepted inRange rfl rfl carries
    (claim _ _ canonical accepted)

end Samples

end VFRI11
end Contracts
end QLSA
