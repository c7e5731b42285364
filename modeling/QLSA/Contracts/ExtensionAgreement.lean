import QLSA.Contracts.VFRI11
import QLSA.Vfri2.CheckedArithmetic

namespace QLSA
namespace Contracts
namespace Verifier

open Mersenne
open Vfri2 (cm31Word qm31Word)

/-!
# The quartic extension in two languages

A `uint128` whose four limbs are below `P` is the word of one field element.
On such words the contracts' library and the hint generator return the words of
the field operations.  The library inverts by the norm, twice: the norm of a
non-zero element is not zero in either step, because neither `-1` nor `2 + i`
is a square, so only zero has no inverse.
-/

/-- A `uint128` with canonical limbs. -/
structure CanonicalWord (w : ℕ) : Prop where
  width : w < 2 ^ 128
  limbs : CanonicalQM31 w

/-- Library, release build and checked build return the canonical word of a value. -/
def Agrees (library : Option ℕ) (release : ℕ) (checked : Option ℕ) (value : QM31) : Prop :=
  ∃ z, CanonicalWord z ∧ qm31Value z = value ∧ library = some z ∧ release = z ∧ checked = some z

/-! ## Words of elements -/

section Words

variable {e w x y z : ℕ}

theorem cm31Word_of_canonical (canonical : CanonicalCM31 e) :
    e = cm31Word (cm31Value e) := by
  have re : ((cm31Re e : ℕ) : M31).val = cm31Re e := ZMod.val_cast_of_lt canonical.1
  have im : ((cm31Im e : ℕ) : M31).val = cm31Im e := ZMod.val_cast_of_lt canonical.2
  have split : e = cm31Re e * 2 ^ 32 + cm31Im e := by
    rw [cm31Re, cm31Im, Nat.shiftRight_eq_div_pow, Nat.and_two_pow_sub_one_eq_mod]
    omega
  rw [cm31Word, cm31Value, re, im, Vfri2.cm31Pack_eq (cm31Im_part e), ← split]

theorem CanonicalWord.eq_word (canonical : CanonicalWord w) : w = qm31Word (qm31Value w) := by
  have small := canonical.width
  have first := cm31Word_of_canonical canonical.limbs.1
  have second := cm31Word_of_canonical canonical.limbs.2
  have split : w = qm31C0 w * 2 ^ 64 + qm31C1 w := by
    rw [qm31C0, qm31C1, Nat.shiftRight_eq_div_pow, Nat.and_two_pow_sub_one_eq_mod]
    omega
  rw [qm31Word, qm31Value, ← first, ← second, Vfri2.qm31PackC_eq (qm31C1_lt w), ← split]

/-- Only the word of zero has the value zero. -/
theorem CanonicalWord.eq_zero_iff (canonical : CanonicalWord w) : w = 0 ↔ qm31Value w = 0 := by
  have zero : qm31Word 0 = 0 := rfl
  constructor
  · rintro rfl
    ext <;> simp [qm31Value, cm31Value, qm31C0, qm31C1, cm31Re, cm31Im]
  · intro vanishes
    rw [canonical.eq_word, vanishes, zero]

theorem qm31Pack_lt (a b : ℕ) : qm31Pack a b < 2 ^ 128 := Nat.mod_lt _ (by decide)

theorem qm31Sub_succeeds (first : CanonicalQM31 x) (second : CanonicalQM31 y) :
    ∃ z, qm31Sub x y = some z := by
  rcases cm31Sub_canonical first.1 second.1 with ⟨a, lower, -⟩
  rcases cm31Sub_canonical first.2 second.2 with ⟨b, upper, -⟩
  exact ⟨qm31Pack a b, by simp only [qm31Sub, lower, upper]; rfl⟩

theorem qm31Sub_lt (done : qm31Sub x y = some z) : z < 2 ^ 128 := by
  simp only [qm31Sub, Option.bind_eq_bind, Option.bind_eq_some_iff] at done
  rcases done with ⟨_, _, _, _, packed⟩
  exact Option.some.inj packed ▸ qm31Pack_lt _ _

theorem qm31Neg_lt (done : qm31Neg x = some z) : z < 2 ^ 128 := by
  simp only [qm31Neg, Option.bind_eq_bind, Option.bind_eq_some_iff] at done
  rcases done with ⟨_, _, _, _, packed⟩
  exact Option.some.inj packed ▸ qm31Pack_lt _ _

theorem qm31Mul_lt (done : qm31Mul x y = some z) : z < 2 ^ 128 := by
  simp only [qm31Mul, Option.bind_eq_bind, Option.bind_eq_some_iff] at done
  rcases done with ⟨_, _, _, _, _, _, _, _, _, _, packed⟩
  exact Option.some.inj packed ▸ qm31Pack_lt _ _

theorem qm31Inv_lt (done : qm31Inv x = some z) : z < 2 ^ 128 := by
  simp only [qm31Inv, Option.bind_eq_bind, Option.bind_eq_some_iff] at done
  rcases done with ⟨_, _, _, _, _, _, _, _, _, _, _, _, _, _, _, _, packed⟩
  exact Option.some.inj packed ▸ qm31Pack_lt _ _

theorem qm31FromM31_word {a : ℕ} (canonical : Canonical a) : CanonicalWord (qm31FromM31 a) :=
  ⟨qm31Pack_lt _ _, (qm31FromM31_spec canonical).1⟩

end Words

/-! ## Inverses -/

section Inverses

variable {a e w : ℕ}

theorem cm31Inv_succeeds (canonical : CanonicalCM31 e) (nonzero : cm31Value e ≠ 0) :
    ∃ z, cm31Inv e = some z := by
  have squareRe := m31Mul_canonical (cm31Re e) (cm31Re e)
  have squareIm := m31Mul_canonical (cm31Im e) (cm31Im e)
  have norm : ((m31Add (m31Mul (cm31Re e) (cm31Re e)) (m31Mul (cm31Im e) (cm31Im e)) : ℕ) : M31) =
      QuadraticAlgebra.norm (cm31Value e) := by
    rw [m31Add_cast (.of_canonical squareRe) (.of_canonical squareIm), m31Mul_cast, m31Mul_cast,
      QuadraticAlgebra.norm_def, cm31Value]
    ring
  have residue : m31Add (m31Mul (cm31Re e) (cm31Re e)) (m31Mul (cm31Im e) (cm31Im e)) ≠ 0 := by
    intro zero
    rw [zero, Nat.cast_zero] at norm
    exact nonzero (QuadraticAlgebra.norm_eq_zero_iff_eq_zero.mp norm.symm)
  rcases m31Neg_canonical canonical.2 with ⟨negated, negation, -⟩
  simp only [cm31Inv, m31Inv, if_neg residue, negation]
  exact ⟨_, rfl⟩

theorem qm31Inv_succeeds (canonical : CanonicalQM31 w) (nonzero : qm31Value w ≠ 0) :
    ∃ z, qm31Inv w = some z := by
  rcases cm31Mul_spec (qm31C0 w) (qm31C0 w) with ⟨aa, aaDone, aaCanonical, aaValue⟩
  rcases cm31Mul_spec (qm31C1 w) (qm31C1 w) with ⟨bb, bbDone, -, bbValue⟩
  rcases cm31Mul_spec qm31R bb with ⟨rbb, rbbDone, rbbCanonical, rbbValue⟩
  rcases cm31Sub_canonical aaCanonical rbbCanonical with ⟨norm, normDone, normCanonical, normValue⟩
  rcases cm31Neg_canonical canonical.2 with ⟨negated, negatedDone, -⟩
  have value : cm31Value norm = QuadraticAlgebra.norm (qm31Value w) := by
    rw [normValue, aaValue, rbbValue, bbValue, qm31R_value, QuadraticAlgebra.norm_def, qm31Value]
    ring
  have invertible : cm31Value norm ≠ 0 := by
    rw [value]
    exact fun zero => nonzero (QuadraticAlgebra.norm_eq_zero_iff_eq_zero.mp zero)
  rcases cm31Inv_succeeds normCanonical invertible with ⟨normInv, inverse⟩
  rcases cm31Mul_spec (qm31C0 w) normInv with ⟨first, firstDone, -⟩
  rcases cm31Mul_spec negated normInv with ⟨second, secondDone, -⟩
  simp only [qm31Inv, aaDone, bbDone, rbbDone, normDone, inverse, firstDone, negatedDone,
    secondDone, Option.bind_eq_bind, Option.bind_some]
  exact ⟨_, rfl⟩

/-- Only zero has no inverse. -/
theorem qm31Inv_none_iff (canonical : CanonicalWord w) : qm31Inv w = none ↔ w = 0 := by
  rw [canonical.eq_zero_iff]
  constructor
  · intro reverts
    by_contra nonzero
    rcases qm31Inv_succeeds canonical.limbs nonzero with ⟨z, done⟩
    cases reverts.symm.trans done
  · intro zero
    cases done : qm31Inv w with
    | none => rfl
    | some z => exact absurd zero (qm31Inv_spec canonical.limbs done).2.1

end Inverses

/-! ## Agreement -/

section Agreement

variable {x y s : ℕ}

/-- Agreement follows from the two generators' results on words of elements. -/
theorem agrees_of_word {library checked : Option ℕ} {release z : ℕ} {value : QM31}
    (done : library = some z) (canonical : CanonicalWord z) (same : qm31Value z = value)
    (released : release = qm31Word value) (panics : checked = some (qm31Word value)) :
    Agrees library release checked value := by
  have word : z = qm31Word value := by rw [canonical.eq_word, same]
  exact ⟨z, canonical, same, done, released.trans word.symm, by rw [panics, word]⟩

theorem qm31Add_agrees (first : CanonicalWord x) (second : CanonicalWord y) :
    Agrees (some (qm31Add x y)) (Vfri2.qm31Add x y) (Vfri2.Checked.qm31Add x y)
      (qm31Value x + qm31Value y) := by
  have canonical : CanonicalWord (qm31Add x y) :=
    ⟨qm31Pack_lt _ _, qm31Add_canonical first.limbs second.limbs⟩
  have value := (qm31Add_value_iff x y).mpr (.of_canonical x second.limbs)
  apply agrees_of_word rfl canonical value
  · conv_lhs => rw [first.eq_word, second.eq_word, Vfri2.qm31Add_word]
  · conv_lhs => rw [first.eq_word, second.eq_word, Vfri2.Checked.qm31Add_word]

theorem qm31Sub_agrees (first : CanonicalWord x) (second : CanonicalWord y) :
    Agrees (qm31Sub x y) (Vfri2.qm31Sub x y) (Vfri2.Checked.qm31Sub x y)
      (qm31Value x - qm31Value y) := by
  rcases qm31Sub_succeeds first.limbs second.limbs with ⟨z, done⟩
  have canonical : CanonicalWord z :=
    ⟨qm31Sub_lt done, qm31Sub_canonical first.limbs second.limbs done⟩
  apply agrees_of_word done canonical (qm31Sub_spec done)
  · conv_lhs => rw [first.eq_word, second.eq_word, Vfri2.qm31Sub_word]
  · conv_lhs => rw [first.eq_word, second.eq_word, Vfri2.Checked.qm31Sub_word]

theorem qm31Mul_agrees (first : CanonicalWord x) (second : CanonicalWord y) :
    Agrees (qm31Mul x y) (Vfri2.qm31Mul x y) (Vfri2.Checked.qm31Mul x y)
      (qm31Value x * qm31Value y) := by
  rcases qm31Mul_spec x y with ⟨z, done, limbs, value⟩
  apply agrees_of_word done ⟨qm31Mul_lt done, limbs⟩ value
  · conv_lhs => rw [first.eq_word, second.eq_word, Vfri2.qm31Mul_word]
  · conv_lhs => rw [first.eq_word, second.eq_word, Vfri2.Checked.qm31Mul_word]

theorem qm31Neg_agrees (first : CanonicalWord x) :
    Agrees (qm31Neg x) (Vfri2.qm31Neg x) (Vfri2.Checked.qm31Neg x) (-qm31Value x) := by
  rcases qm31Neg_spec first.limbs with ⟨z, done, limbs, value⟩
  apply agrees_of_word done ⟨qm31Neg_lt done, limbs⟩ value
  · conv_lhs => rw [first.eq_word, Vfri2.qm31Neg_word]
  · conv_lhs => rw [first.eq_word, Vfri2.Checked.qm31Neg_word]

theorem qm31ScaleM31_agrees (first : CanonicalWord x) (scalar : Canonical s) :
    Agrees (some (qm31ScaleM31 x s)) (Vfri2.qm31ScaleM31 x s) (Vfri2.Checked.qm31ScaleM31 x s)
      (qm31Value x * baseValue s) := by
  have spec := qm31ScaleM31_spec x s
  have word : s = (s : M31).val := (ZMod.val_cast_of_lt scalar).symm
  apply agrees_of_word rfl ⟨qm31Pack_lt _ _, spec.1⟩ spec.2
  · conv_lhs => rw [first.eq_word, word, Vfri2.qm31ScaleM31_word]
  · conv_lhs => rw [first.eq_word, word, Vfri2.Checked.qm31ScaleM31_word]

theorem qm31Inv_agrees (first : CanonicalWord x) (nonzero : x ≠ 0) :
    Agrees (qm31Inv x) (Vfri2.qm31Inv x) (Vfri2.Checked.qm31Inv x) (qm31Value x)⁻¹ := by
  rcases qm31Inv_succeeds first.limbs (mt first.eq_zero_iff.mpr nonzero) with ⟨z, done⟩
  rcases qm31Inv_spec first.limbs done with ⟨limbs, -, value⟩
  apply agrees_of_word done ⟨qm31Inv_lt done, limbs⟩ value
  · conv_lhs => rw [first.eq_word, Vfri2.qm31Inv_word]
  · conv_lhs => rw [first.eq_word, Vfri2.Checked.qm31Inv_word]

/-- The product with the inverse, where there is one. -/
theorem qm31Mul_inv (first : CanonicalWord x) (nonzero : x ≠ 0) :
    ∃ inverse product, qm31Inv x = some inverse ∧ qm31Mul x inverse = some product ∧
      CanonicalWord product ∧ qm31Value product = 1 := by
  rcases qm31Inv_agrees first nonzero with ⟨inverse, canonical, value, done, -⟩
  rcases qm31Mul_agrees first canonical with ⟨product, reduced, one, multiplied, -⟩
  refine ⟨inverse, product, done, multiplied, reduced, ?_⟩
  rw [one, value, mul_inv_cancel₀ (mt first.eq_zero_iff.mpr nonzero)]

end Agreement

/-! ## Out-of-domain quotients -/

section Quotients

open VFRI11 (QueryHints VerifyCtx verifyOODS)

/-- Every word that the quotients read is canonical. -/
structure CanonicalInputs (h : QueryHints) (ctx : VerifyCtx) : Prop where
  px : Canonical h.queryPointX
  z_x : CanonicalQM31 ctx.z_x
  compValue : CanonicalQM31 h.compValue
  compValueNeg : CanonicalQM31 h.compValueNeg
  oodsComboPos : CanonicalQM31 ctx.oodsComboPos
  oodsComboNeg : CanonicalQM31 ctx.oodsComboNeg

/-- The outcome for a canonical input: the guards refuse exactly where an
inversion would revert, and otherwise the two quotients are returned. -/
structure Guarded (h : QueryHints) (ctx : VerifyCtx) (denomPos denomNeg : ℕ) : Prop where
  positive : qm31Sub (qm31FromM31 h.queryPointX) ctx.z_x = some denomPos
  negative : (qm31Neg (qm31FromM31 h.queryPointX)).bind (fun px => qm31Sub px ctx.z_x) =
    some denomNeg
  refused : qm31Inv denomPos = none ∨ qm31Inv denomNeg = none →
    verifyOODS h ctx = some (false, 0, 0)
  returned : ¬ (qm31Inv denomPos = none ∨ qm31Inv denomNeg = none) →
    ∃ fPlus fMinus, verifyOODS h ctx = some (true, fPlus, fMinus) ∧
      qm31Value fPlus = (qm31Value h.compValue - qm31Value ctx.oodsComboPos) /
        (baseValue (h.queryPointX.val : M31) - qm31Value ctx.z_x) ∧
      qm31Value fMinus = (qm31Value h.compValueNeg - qm31Value ctx.oodsComboNeg) /
        (-baseValue (h.queryPointX.val : M31) - qm31Value ctx.z_x)

theorem verifyOODS_guarded {h : QueryHints} {ctx : VerifyCtx} (inputs : CanonicalInputs h ctx) :
    ∃ denomPos denomNeg, Guarded h ctx denomPos denomNeg := by
  have word {q : VFRI11.Uint128} (limbs : CanonicalQM31 q) : CanonicalWord q := ⟨q.isLt, limbs⟩
  have px := qm31FromM31_word inputs.px
  have pxValue := (qm31FromM31_spec inputs.px).2
  rcases qm31Sub_agrees px (word inputs.z_x) with ⟨denomPos, posWord, posValue, posDone, -⟩
  rcases qm31Neg_agrees px with ⟨pxNeg, pxNegWord, pxNegValue, pxNegDone, -⟩
  rcases qm31Sub_agrees pxNegWord (word inputs.z_x) with
    ⟨denomNeg, negWord, negValue, negDone, -⟩
  rcases qm31Sub_agrees (word inputs.compValue) (word inputs.oodsComboPos) with
    ⟨numerPos, numerPosWord, numerPosValue, numerPosDone, -⟩
  rcases qm31Sub_agrees (word inputs.compValueNeg) (word inputs.oodsComboNeg) with
    ⟨numerNeg, numerNegWord, numerNegValue, numerNegDone, -⟩
  refine ⟨denomPos, denomNeg, posDone, ?_, ?_, ?_⟩
  · rw [pxNegDone, Option.bind_some, negDone]
  · rw [qm31Inv_none_iff posWord, qm31Inv_none_iff negWord]
    intro zero
    simp only [verifyOODS, posDone, pxNegDone, negDone, Option.bind_eq_bind, Option.bind_some]
    by_cases first : denomPos = 0
    · rw [if_pos first]
    · rw [if_neg first, if_pos (zero.resolve_left first)]
  · rw [qm31Inv_none_iff posWord, qm31Inv_none_iff negWord, not_or]
    rintro ⟨first, second⟩
    rcases qm31Inv_agrees posWord first with ⟨invPos, invPosWord, invPosValue, invPosDone, -⟩
    rcases qm31Inv_agrees negWord second with ⟨invNeg, invNegWord, invNegValue, invNegDone, -⟩
    rcases qm31Mul_agrees numerPosWord invPosWord with ⟨fPlus, -, fPlusValue, fPlusDone, -⟩
    rcases qm31Mul_agrees numerNegWord invNegWord with ⟨fMinus, -, fMinusValue, fMinusDone, -⟩
    refine ⟨fPlus, fMinus, ?_, ?_, ?_⟩
    · simp only [verifyOODS, posDone, pxNegDone, negDone, numerPosDone, numerNegDone, invPosDone,
        invNegDone, fPlusDone, fMinusDone, Option.bind_eq_bind, Option.bind_some, if_neg first,
        if_neg second]
    · rw [fPlusValue, numerPosValue, invPosValue, posValue, pxValue, div_eq_mul_inv]
    · rw [fMinusValue, numerNegValue, invNegValue, negValue, pxNegValue, pxValue, div_eq_mul_inv]

/-- Both languages compute in the quartic extension, only zero has no inverse, and the two guards
of the quotients stand exactly before it.  The statement is about all words with canonical limbs;
the Rust functions are those of a release build and of a build that checks overflow, and the
Solidity functions revert where a checked operation would. -/
theorem qm31_is_the_field :
    (∀ x y s : ℕ, CanonicalWord x → CanonicalWord y → Canonical s →
      Agrees (some (qm31Add x y)) (Vfri2.qm31Add x y) (Vfri2.Checked.qm31Add x y)
        (qm31Value x + qm31Value y) ∧
      Agrees (qm31Sub x y) (Vfri2.qm31Sub x y) (Vfri2.Checked.qm31Sub x y)
        (qm31Value x - qm31Value y) ∧
      Agrees (qm31Mul x y) (Vfri2.qm31Mul x y) (Vfri2.Checked.qm31Mul x y)
        (qm31Value x * qm31Value y) ∧
      Agrees (qm31Neg x) (Vfri2.qm31Neg x) (Vfri2.Checked.qm31Neg x) (-qm31Value x) ∧
      Agrees (some (qm31ScaleM31 x s)) (Vfri2.qm31ScaleM31 x s) (Vfri2.Checked.qm31ScaleM31 x s)
        (qm31Value x * baseValue s)) ∧
    (∀ x : ℕ, CanonicalWord x →
      (qm31Inv x = none ↔ x = 0) ∧
      (x ≠ 0 → Agrees (qm31Inv x) (Vfri2.qm31Inv x) (Vfri2.Checked.qm31Inv x) (qm31Value x)⁻¹ ∧
        ∃ inverse product, qm31Inv x = some inverse ∧ qm31Mul x inverse = some product ∧
          CanonicalWord product ∧ qm31Value product = 1)) ∧
    ∀ (h : QueryHints) (ctx : VerifyCtx), CanonicalInputs h ctx →
      ∃ denomPos denomNeg, Guarded h ctx denomPos denomNeg :=
  ⟨fun _ _ _ first second scalar =>
      ⟨qm31Add_agrees first second, qm31Sub_agrees first second, qm31Mul_agrees first second,
        qm31Neg_agrees first, qm31ScaleM31_agrees first scalar⟩,
    fun _ first => ⟨qm31Inv_none_iff first,
      fun nonzero => ⟨qm31Inv_agrees first nonzero, qm31Mul_inv first nonzero⟩⟩,
    fun _ _ inputs => verifyOODS_guarded inputs⟩

/-- The word of four limbs. -/
def limbsWord (a b c d : ℕ) : ℕ := a * 2 ^ 96 + b * 2 ^ 64 + c * 2 ^ 32 + d

def firstLimbs : ℕ := limbsWord 3 2147483646 5 7

def secondLimbs : ℕ := limbsWord 2147483645 11 13 1717171717

/-- A query whose two quotients are defined unless the context names its point. -/
def oodsQuery : QueryHints where
  queryIndex := 0
  treeDepth := 0
  compValue := Fin.ofNat _ firstLimbs
  compProof := []
  compValueNeg := Fin.ofNat _ secondLimbs
  compProofNeg := []
  foldedValue := 0
  queryPointX := 9
  queryPointY := 0
  friL1Siblings := []
  folds := []

def oodsContext (z_x : ℕ) : VerifyCtx where
  embeddedRoot := 0
  z_x := Fin.ofNat _ z_x
  compAlpha := 0
  compRoot := 0
  friAlpha := 0
  oodsComboPos := Fin.ofNat _ (limbsWord 1 2 3 4)
  oodsComboNeg := Fin.ofNat _ (limbsWord 8 6 4 2)
  friLayerRoots := []
  friAlphas := []
  derivedIndices := []

/-- Words of four limbs, quotients off the poles, and a pole at the query point. -/
theorem qm31_is_the_field_sample :
    (Agrees (some (qm31Add firstLimbs secondLimbs)) (Vfri2.qm31Add firstLimbs secondLimbs)
        (Vfri2.Checked.qm31Add firstLimbs secondLimbs)
        (qm31Value firstLimbs + qm31Value secondLimbs) ∧
      Agrees (qm31Mul firstLimbs secondLimbs) (Vfri2.qm31Mul firstLimbs secondLimbs)
        (Vfri2.Checked.qm31Mul firstLimbs secondLimbs)
        (qm31Value firstLimbs * qm31Value secondLimbs) ∧
      ∃ inverse product, qm31Inv firstLimbs = some inverse ∧
        qm31Mul firstLimbs inverse = some product ∧ qm31Value product = 1) ∧
    (∃ fPlus fMinus, verifyOODS oodsQuery (oodsContext firstLimbs) = some (true, fPlus, fMinus) ∧
      qm31Value fPlus =
        (qm31Value oodsQuery.compValue - qm31Value (oodsContext firstLimbs).oodsComboPos) /
          (baseValue 9 - qm31Value (oodsContext firstLimbs).z_x)) ∧
    verifyOODS oodsQuery (oodsContext (limbsWord 9 0 0 0)) = some (false, 0, 0) := by
  rcases qm31_is_the_field with ⟨operations, inverses, quotients⟩
  have first : CanonicalWord firstLimbs := ⟨by decide, by decide⟩
  have second : CanonicalWord secondLimbs := ⟨by decide, by decide⟩
  have scalar : Canonical 0 := by decide
  have agree := operations firstLimbs secondLimbs 0 first second scalar
  refine ⟨⟨agree.1, agree.2.2.1, ?_⟩, ?_, ?_⟩
  · rcases ((inverses _ first).2 (by decide)).2 with ⟨inverse, product, done, multiplied, -, one⟩
    exact ⟨inverse, product, done, multiplied, one⟩
  · rcases quotients oodsQuery (oodsContext firstLimbs)
      ⟨by decide, by decide, by decide, by decide, by decide, by decide⟩ with
      ⟨denomPos, denomNeg, guarded⟩
    have positive : denomPos = limbsWord 6 1 2147483642 2147483640 :=
      Option.some.inj (guarded.positive.symm.trans (by decide))
    have negative : denomNeg = limbsWord 2147483635 1 2147483642 2147483640 :=
      Option.some.inj (guarded.negative.symm.trans (by decide))
    have inverted : ¬ (qm31Inv denomPos = none ∨ qm31Inv denomNeg = none) := by
      rw [positive, negative, (inverses _ ⟨by decide, by decide⟩).1,
        (inverses _ ⟨by decide, by decide⟩).1]
      decide
    rcases guarded.returned inverted with ⟨fPlus, fMinus, returned, value, -⟩
    exact ⟨fPlus, fMinus, returned, value⟩
  · rcases quotients oodsQuery (oodsContext (limbsWord 9 0 0 0))
      ⟨by decide, by decide, by decide, by decide, by decide, by decide⟩ with
      ⟨denomPos, denomNeg, guarded⟩
    have positive : denomPos = 0 := Option.some.inj (guarded.positive.symm.trans (by decide))
    rw [positive] at guarded
    exact guarded.refused (Or.inl ((inverses 0 ⟨by decide, by decide⟩).1.mpr rfl))

end Quotients

end Verifier
end Contracts
end QLSA
