import QLSA.Contracts.FieldLibraries

namespace QLSA
namespace Contracts
namespace Verifier

open Mersenne

/-!
# The circle library of the contracts

Points are pairs of words.  On canonical points of the circle no operation
reverts: scalar multiples of the generator are its powers, and a coset point is
the point of the canonic coset.  The two folds have one body and compute the
fold of the field exactly when the sum of the two values does not carry.
-/

def genX : ℕ := 2

def genY : ℕ := 1268011823

def isOnCircle (x y : ℕ) : Bool := m31Add (m31Mul x x) (m31Mul y y) == 1

def pointAdd (p q : ℕ × ℕ) : Option (ℕ × ℕ) := do
  let x ← m31Sub (m31Mul p.1 q.1) (m31Mul p.2 q.2)
  return (x, m31Add (m31Mul p.1 q.2) (m31Mul q.1 p.2))

def pointDouble (p : ℕ × ℕ) : Option (ℕ × ℕ) := do
  let x2 := m31Mul p.1 p.1
  let rx ← m31Sub (m31Add x2 x2) 1
  return (rx, m31Add (m31Mul p.1 p.2) (m31Mul p.1 p.2))

/-- The loop of `genMul`; a scalar below `2 ^ fuel` is used up. -/
def genMulLoop : ℕ → ℕ × ℕ → ℕ × ℕ → ℕ → Option (ℕ × ℕ)
  | 0, r, _, _ => some r
  | fuel + 1, r, c, s =>
      if s = 0 then some r
      else do
        let r ← if s % 2 = 1 then pointAdd r c else some r
        let c ← pointDouble c
        genMulLoop fuel r c (s / 2)

def genMul (scalar : ℕ) : Option (ℕ × ℕ) :=
  genMulLoop 31 (1, 0) (genX, genY) (scalar &&& (2 ^ 31 - 1))

def cosetAt (logN idx : ℕ) : Option (ℕ × ℕ) :=
  if ¬ (1 ≤ logN ∧ logN ≤ 30) then none
  else if ¬ idx < 2 ^ logN then none
  else
    let mod := 2 ^ 31
    let initialIndex := 2 ^ (30 - logN) % mod
    let stepSize := 2 ^ (31 - logN) % mod
    let pointIndex := (initialIndex + idx * stepSize % mod) % mod
    genMul pointIndex

/-- One body for both folds, as in the source. -/
def foldBody (fPlus fMinus alpha inv : ℕ) : Option ℕ := do
  let sum := qm31Add fPlus fMinus
  let diff ← qm31Sub fPlus fMinus
  let diffScaled := qm31ScaleM31 diff inv
  let product ← qm31Mul alpha diffScaled
  return qm31Add sum product

def circleFold (fPlus fMinus alpha yInv : ℕ) : Option ℕ := foldBody fPlus fMinus alpha yInv

def lineFold (fPlus fMinus alpha xInv : ℕ) : Option ℕ := foldBody fPlus fMinus alpha xInv

/-! ## Points -/

/-- The element of norm one a point stands for. -/
def pointValue (p : ℕ × ℕ) : CM31 := ⟨(p.1 : M31), (p.2 : M31)⟩

/-- Canonical coordinates on the circle. -/
structure OnCircle (p : ℕ × ℕ) : Prop where
  x : Canonical p.1
  y : Canonical p.2
  norm : QuadraticAlgebra.norm (pointValue p) = 1

theorem OnCircle.pointAdd {p q : ℕ × ℕ} (first : OnCircle p) (second : OnCircle q) :
    ∃ r, pointAdd p q = some r ∧ OnCircle r ∧ pointValue r = pointValue p * pointValue q := by
  rcases m31Sub_canonical (m31Mul_canonical p.1 q.1) (m31Mul_canonical p.2 q.2) with
    ⟨x, difference, xCanonical, xValue⟩
  have left := m31Mul_canonical p.1 q.2
  have right := m31Mul_canonical q.1 p.2
  have value : pointValue (x, m31Add (m31Mul p.1 q.2) (m31Mul q.1 p.2)) =
      pointValue p * pointValue q := by
    unfold pointValue
    rw [xValue, m31Add_cast (.of_canonical left) (.of_canonical right)]
    simp only [m31Mul_cast]
    ext <;> simp only [QuadraticAlgebra.re_mul, QuadraticAlgebra.im_mul] <;> ring
  refine ⟨_, ?_, ⟨xCanonical, m31Add_canonical left right, ?_⟩, value⟩
  · simp only [Verifier.pointAdd, difference]
    rfl
  · rw [value, map_mul, first.norm, second.norm, one_mul]

theorem OnCircle.pointDouble {p : ℕ × ℕ} (point : OnCircle p) :
    ∃ r, pointDouble p = some r ∧ OnCircle r ∧ pointValue r = pointValue p ^ 2 := by
  have square := m31Mul_canonical p.1 p.1
  have one : Canonical 1 := by decide
  rcases m31Sub_canonical (m31Add_canonical square square) one with
    ⟨x, difference, xCanonical, xValue⟩
  have product := m31Mul_canonical p.1 p.2
  have norm := point.norm
  have value : pointValue (x, m31Add (m31Mul p.1 p.2) (m31Mul p.1 p.2)) = pointValue p ^ 2 := by
    apply QuadraticAlgebra.ext
    · rw [re_sq_of_norm norm]
      simp only [pointValue, doubled]
      rw [xValue, m31Add_cast (.of_canonical square) (.of_canonical square), m31Mul_cast,
        Nat.cast_one]
      ring
    · simp only [pointValue, sq, QuadraticAlgebra.im_mul]
      rw [m31Add_cast (.of_canonical product) (.of_canonical product), m31Mul_cast]
      ring
  refine ⟨_, ?_, ⟨xCanonical, m31Add_canonical product product, ?_⟩, value⟩
  · simp only [Verifier.pointDouble, difference]
    rfl
  · rw [value, map_pow, norm, one_pow]

theorem onCircle_generator : OnCircle (genX, genY) :=
  ⟨by decide, by decide, generator_norm⟩

theorem pointValue_generator : pointValue (genX, genY) = generator := rfl

theorem onCircle_identity : OnCircle (1, 0) := by
  refine ⟨by decide, by decide, ?_⟩
  rw [norm_eq_sum]
  simp [pointValue]

theorem pointValue_identity : pointValue (1, 0) = 1 := by
  ext <;> simp [pointValue, QuadraticAlgebra.re_one, QuadraticAlgebra.im_one]

/-- The loop multiplies the accumulator by the power of the running double. -/
theorem genMulLoop_spec {fuel s : ℕ} (enough : s < 2 ^ fuel) {r c : ℕ × ℕ} (result : OnCircle r)
    (current : OnCircle c) :
    ∃ z, genMulLoop fuel r c s = some z ∧ OnCircle z ∧
      pointValue z = pointValue r * pointValue c ^ s := by
  induction fuel generalizing s r c with
  | zero =>
      have none : s = 0 := by simpa using enough
      exact ⟨r, rfl, result, by rw [none, pow_zero, mul_one]⟩
  | succ fuel ih =>
      by_cases none : s = 0
      · exact ⟨r, by rw [genMulLoop, if_pos none], result, by rw [none, pow_zero, mul_one]⟩
      · have half : s / 2 < 2 ^ fuel := by
          rw [pow_succ] at enough
          omega
        rcases current.pointDouble with ⟨next, doubling, nextPoint, nextValue⟩
        rcases Nat.mod_two_eq_zero_or_one s with even | odd
        · rcases ih half result nextPoint with ⟨z, rest, point, value⟩
          have whole : 2 * (s / 2) = s := by omega
          refine ⟨z, ?_, point, ?_⟩
          · simp [genMulLoop, none, even, doubling, rest]
          · rw [value, nextValue, ← pow_mul, whole]
        · rcases result.pointAdd current with ⟨added, addition, addedPoint, addedValue⟩
          rcases ih half addedPoint nextPoint with ⟨z, rest, point, value⟩
          have whole : 1 + 2 * (s / 2) = s := by omega
          refine ⟨z, ?_, point, ?_⟩
          · simp [genMulLoop, none, odd, addition, doubling, rest]
          · rw [value, nextValue, addedValue, ← pow_mul, mul_assoc, ← pow_succ', Nat.add_comm,
              whole]

theorem genMul_spec {scalar : ℕ} (small : scalar < 2 ^ 31) :
    ∃ z, genMul scalar = some z ∧ OnCircle z ∧ pointValue z = generator ^ scalar := by
  rcases genMulLoop_spec small onCircle_identity onCircle_generator with ⟨z, done, point, value⟩
  refine ⟨z, ?_, point, ?_⟩
  · rw [genMul, Nat.and_two_pow_sub_one_eq_mod, Nat.mod_eq_of_lt small, done]
  · rw [value, pointValue_identity, one_mul, pointValue_generator]

/-- Positions of a coset stay below the order of the group. -/
theorem coset_index_lt {logN idx : ℕ} (positive : 1 ≤ logN) (bounded : logN ≤ 30)
    (inside : idx < 2 ^ logN) : 2 ^ (30 - logN) + idx * 2 ^ (31 - logN) < 2 ^ 31 := by
  have step : 2 ^ (31 - logN) = 2 * 2 ^ (30 - logN) := by
    rw [← pow_succ']
    congr 1
    omega
  have whole : 2 ^ logN * 2 ^ (31 - logN) = 2 ^ 31 := by
    rw [← pow_add]
    congr 1
    omega
  have most : (idx + 1) * 2 ^ (31 - logN) ≤ 2 ^ 31 := by
    rw [← whole]
    exact Nat.mul_le_mul_right _ inside
  have unit : 0 < 2 ^ (30 - logN) := Nat.two_pow_pos _
  rw [add_mul, one_mul] at most
  omega

theorem cosetAt_spec {logN idx : ℕ} (positive : 1 ≤ logN) (bounded : logN ≤ 30)
    (inside : idx < 2 ^ logN) :
    ∃ p, cosetAt logN idx = some p ∧ OnCircle p ∧ pointValue p = cosetPoint logN idx := by
  have small := coset_index_lt positive bounded inside
  rcases genMul_spec small with ⟨p, done, point, value⟩
  have unit : 0 < 2 ^ (30 - logN) := Nat.two_pow_pos _
  refine ⟨p, ?_, point, value⟩
  have initial : 2 ^ (30 - logN) % 2 ^ 31 = 2 ^ (30 - logN) := Nat.mod_eq_of_lt (by omega)
  have stepSize : 2 ^ (31 - logN) % 2 ^ 31 = 2 ^ (31 - logN) := by
    apply Nat.mod_eq_of_lt
    apply Nat.pow_lt_pow_right (by decide)
    omega
  rw [cosetAt, if_neg (not_not.mpr ⟨positive, bounded⟩), if_neg (not_not.mpr inside)]
  dsimp only
  rw [initial, stepSize, Nat.mod_eq_of_lt (by omega : idx * 2 ^ (31 - logN) < 2 ^ 31),
    Nat.mod_eq_of_lt small, done]

/-- A coset point that is returned is the point of the canonic coset. -/
theorem cosetAt_some {logN idx : ℕ} {p : ℕ × ℕ} (done : cosetAt logN idx = some p) :
    1 ≤ logN ∧ logN ≤ 30 ∧ idx < 2 ^ logN ∧ OnCircle p ∧
      pointValue p = cosetPoint logN idx := by
  have range : 1 ≤ logN ∧ logN ≤ 30 := by
    by_contra outside
    rw [cosetAt, if_pos outside] at done
    exact absurd done (by simp)
  have inside : idx < 2 ^ logN := by
    by_contra outside
    rw [cosetAt, if_neg (not_not.mpr range), if_pos outside] at done
    exact absurd done (by simp)
  rcases cosetAt_spec range.1 range.2 inside with ⟨found, same, point, value⟩
  have equal : found = p := Option.some.inj (same.symm.trans done)
  subst equal
  exact ⟨range.1, range.2, inside, point, value⟩

/-! ## Folds -/

/-- With a canonical challenge the last sum of a fold never carries, so the
fold is right exactly when the first sum does not. -/
theorem foldBody_spec {fPlus fMinus alpha inv r : ℕ}
    (done : foldBody fPlus fMinus alpha inv = some r) :
    qm31Value r = fold (qm31Value fPlus) (qm31Value fMinus) (qm31Value alpha) (inv : M31)⁻¹ ↔
      NoCarry fPlus fMinus := by
  simp only [foldBody, Option.bind_eq_bind, Option.bind_eq_some_iff] at done
  rcases done with ⟨diff, difference, product, multiplied, total⟩
  have same := Option.some.inj total
  subst same
  rcases qm31Mul_spec alpha (qm31ScaleM31 diff inv) with ⟨found, again, canonical, value⟩
  have equal : found = product := Option.some.inj (again.symm.trans multiplied)
  subst equal
  have lastSum := (qm31Add_value_iff (qm31Add fPlus fMinus) found).mpr (.of_canonical _ canonical)
  rw [lastSum, value, (qm31ScaleM31_spec diff inv).2, qm31Sub_spec difference, fold, inv_inv,
    add_left_inj, qm31Add_value_iff]

/-- A fold of canonical values is canonical. -/
theorem foldBody_canonical {fPlus fMinus alpha inv r : ℕ} (first : CanonicalQM31 fPlus)
    (second : CanonicalQM31 fMinus) (done : foldBody fPlus fMinus alpha inv = some r) :
    CanonicalQM31 r := by
  simp only [foldBody, Option.bind_eq_bind, Option.bind_eq_some_iff] at done
  rcases done with ⟨diff, difference, product, multiplied, total⟩
  have same := Option.some.inj total
  subst same
  rcases qm31Mul_spec alpha (qm31ScaleM31 diff inv) with ⟨found, again, canonical, value⟩
  have equal : found = product := Option.some.inj (again.symm.trans multiplied)
  subst equal
  exact qm31Add_canonical (qm31Add_canonical first second) canonical

end Verifier
end Contracts
end QLSA
