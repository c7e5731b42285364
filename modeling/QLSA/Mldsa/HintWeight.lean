import QLSA.Mldsa.SelectorAir
import Mathlib.Algebra.BigOperators.Ring.Finset
import Mathlib.Algebra.BigOperators.Intervals

namespace QLSA
namespace Mldsa

open Mersenne Recursive

/-!
# Counting hints in a circuit

A column accumulates another when each of its rows adds a term to the row
before.  The row before the first is the last one, so that a fixed selector has
to cut it off there.  Nothing else is needed: such a column holds the partial
sums, whoever filled it, and of bits it holds the number of those set as long
as there are fewer rows than the modulus.
-/

/-! ## Accumulators -/

section Accumulators

variable {F : Type*} [CommRing F]

/-- The selector of the first row. -/
def isInit (row : ℕ) : F := if row = 0 then 1 else 0

/-- What a circuit requires of an accumulator on one row. -/
def accumulated (s prev term init : F) : F := s - term - prev + init * prev

/-- Rows that satisfy the constraint hold the partial sums. -/
theorem accumulator_sum {s term : ℕ → F} {logSize : ℕ}
    (rows : ∀ row < 2 ^ logSize,
      accumulated (s row) (s (previousRow logSize row)) (term row) (isInit row) = 0)
    {row : ℕ} (inside : row < 2 ^ logSize) : s row = ∑ p ∈ Finset.range (row + 1), term p := by
  have own := rows row inside
  induction row with
  | zero =>
      rw [Finset.sum_range_one]
      simp only [accumulated, isInit, if_true] at own
      linear_combination own
  | succ row ih =>
      have before : row < 2 ^ logSize := (Nat.lt_succ_self row).trans inside
      rw [Finset.sum_range_succ, ← ih before (rows row before)]
      simp only [accumulated, isInit, if_neg (Nat.succ_ne_zero row), previousRow_succ inside]
        at own
      linear_combination own

/-- Partial sums satisfy the constraint on every row. -/
theorem accumulated_of_sums {s term : ℕ → F} {logSize : ℕ}
    (sums : ∀ row < 2 ^ logSize, s row = ∑ p ∈ Finset.range (row + 1), term p) {row : ℕ}
    (inside : row < 2 ^ logSize) :
    accumulated (s row) (s (previousRow logSize row)) (term row) (isInit row) = 0 := by
  cases row with
  | zero =>
      have first := sums 0 inside
      rw [Finset.sum_range_one] at first
      simp only [accumulated, isInit, if_true, first]
      ring
  | succ row =>
      have before : row < 2 ^ logSize := (Nat.lt_succ_self row).trans inside
      rw [previousRow_succ inside, sums _ inside, sums _ before, Finset.sum_range_succ]
      simp only [accumulated, isInit, if_neg (Nat.succ_ne_zero row)]
      ring

/-- The sum of bits is their number. -/
theorem sum_bits {x : ℕ → F} [DecidableEq F] {count : ℕ}
    (bits : ∀ p < count, x p = 0 ∨ x p = 1) :
    ∑ p ∈ Finset.range count, x p = (((Finset.range count).filter fun p => x p = 1).card : ℕ) := by
  rw [Finset.card_filter, Nat.cast_sum]
  refine Finset.sum_congr rfl fun p member => ?_
  rcases bits p (Finset.mem_range.mp member) with zero | one
  · rw [zero]
    split
    case isTrue collapsed => rw [Nat.cast_one, collapsed]
    case isFalse => rw [Nat.cast_zero]
  · rw [one, if_pos rfl, Nat.cast_one]

end Accumulators

/-- The accumulator of a builder. -/
def runningSum (term : ℕ → ℤ) : ℕ → ℤ
  | 0 => 0
  | r + 1 => runningSum term r + term r

theorem runningSum_eq (term : ℕ → ℤ) (count : ℕ) :
    runningSum term count = ∑ p ∈ Finset.range count, term p := by
  induction count with
  | zero => rfl
  | succ count ih => rw [runningSum, ih, Finset.sum_range_succ]

/-- The bit of a hint. -/
def hintBit (hint : Bool) : ℤ := if hint then 1 else 0

/-- The number of set hints of a vector. -/
def weightOf (hints : ℕ → Bool) (count : ℕ) : ℕ :=
  ((Finset.range count).filter fun p => hints p = true).card

theorem weightOf_le (hints : ℕ → Bool) (count : ℕ) : weightOf hints count ≤ count :=
  (Finset.card_filter_le _ _).trans (Finset.card_range count).le

theorem sum_hintBit (hints : ℕ → Bool) (count : ℕ) :
    ∑ p ∈ Finset.range count, hintBit (hints p) = weightOf hints count := by
  rw [weightOf, Finset.card_filter, Nat.cast_sum]
  refine Finset.sum_congr rfl fun p _ => ?_
  rw [hintBit]
  split <;> rfl

/-! ## The circuit -/

/-- Rows of the trace, and those that hold hints. -/
def hintLogRows : ℕ := 11

def HINT_ROWS : ℕ := K * N

section Circuit

/-- Columns of one row of `HintWeightEval`, with the sum of the previous row. -/
structure HintWeightRow (F : Type*) where
  s : F
  sPrev : F
  h : F
  init : F
  valid : F

/-- `HintWeightEval::evaluate`. -/
def hintWeightConstraints {F : Type*} [CommRing F] (row : HintWeightRow F) : List F :=
  [row.h * (1 - row.h), (1 - row.valid) * row.h, accumulated row.s row.sPrev row.h row.init]

/-- One row of a trace: the sums stand before the hints. -/
def hintWeightRow (main preproc : Columns) (row : ℕ) : HintWeightRow M31 where
  s := main 0 row
  sPrev := main 0 (previousRow hintLogRows row)
  h := main 1 row
  init := preproc 0 row
  valid := preproc 1 row

/-- A trace satisfies `HintWeightEval`. -/
def HintWeightSatisfies (main preproc : Columns) : Prop :=
  ∀ row < 2 ^ hintLogRows, Vanish (hintWeightConstraints (hintWeightRow main preproc row))

/-- The hints one after the other, padded by zeros. -/
def hintFlat (hints : ℕ → ℕ → Bool) (r : ℕ) : ℤ :=
  if r < HINT_ROWS then hintBit (hints (r / N) (r % N)) else 0

/-- Selectors of `build_trace`. -/
def hintPreprocessed : Columns
  | 0, row => isInit row
  | _, row => bf (if row < HINT_ROWS then 1 else 0)

/-- `build_trace`: the columns, and the total it returns. -/
def hintWeightTrace (hints : ℕ → ℕ → Bool) : Columns × Columns × ℕ :=
  (fun column row =>
    match column with
    | 0 => bf (runningSum (hintFlat hints) (row + 1))
    | _ => bf (hintFlat hints row),
  hintPreprocessed, (runningSum (hintFlat hints) (2 ^ hintLogRows)).toNat)

end Circuit

/-! ## Soundness -/

section Soundness

variable {main : Columns} (satisfied : HintWeightSatisfies main hintPreprocessed)
include satisfied

theorem HintWeightSatisfies.bit {row : ℕ} (inside : row < 2 ^ hintLogRows) :
    main 1 row = 0 ∨ main 1 row = 1 := by
  have vanish := satisfied row inside
  simp only [hintWeightConstraints, hintWeightRow, vanish_cons] at vanish
  refine bit_cases ?_
  linear_combination -vanish.1

theorem HintWeightSatisfies.padding {row : ℕ} (inside : row < 2 ^ hintLogRows)
    (above : HINT_ROWS ≤ row) : main 1 row = 0 := by
  have vanish := satisfied row inside
  have invalid : hintPreprocessed 1 row = 0 := by
    simp only [hintPreprocessed, if_neg (not_lt.mpr above)]
    rfl
  simp only [hintWeightConstraints, hintWeightRow, vanish_cons, invalid, sub_zero, one_mul]
    at vanish
  exact vanish.2.1

/-- The last sum is the number of set hints. -/
theorem HintWeightSatisfies.weight :
    (main 0 2047).val = ((Finset.range HINT_ROWS).filter fun row => main 1 row = 1).card := by
  have rows : 2047 < 2 ^ hintLogRows := by decide
  have sums : main 0 2047 = ∑ p ∈ Finset.range (HINT_ROWS + 512), main 1 p := by
    refine @accumulator_sum _ _ _ _ hintLogRows (fun row inside => ?_) _ rows
    have vanish := satisfied row inside
    simp only [hintWeightConstraints, hintWeightRow, vanish_cons] at vanish
    exact vanish.2.2.1
  have padding : ∑ p ∈ Finset.range 512, main 1 (HINT_ROWS + p) = 0 := by
    refine Finset.sum_eq_zero fun p member => ?_
    have small := Finset.mem_range.mp member
    exact satisfied.padding (Nat.add_lt_add_left small HINT_ROWS) (Nat.le_add_right HINT_ROWS p)
  rw [Finset.sum_range_add, padding, add_zero, sum_bits fun p inside =>
    satisfied.bit (lt_trans inside (by decide))] at sums
  rw [sums]
  refine ZMod.val_natCast_of_lt (lt_of_le_of_lt (Finset.card_filter_le _ _) ?_)
  rw [Finset.card_range]
  decide

end Soundness

/-! ## Completeness -/

section Completeness

variable (hints : ℕ → ℕ → Bool)

theorem hintBit_cases (hint : Bool) : hintBit hint = 0 ∨ hintBit hint = 1 := by
  cases hint
  · exact .inl rfl
  · exact .inr rfl

theorem hintFlat_cases (r : ℕ) : hintFlat hints r = 0 ∨ hintFlat hints r = 1 := by
  rw [hintFlat]
  split
  case isTrue => exact hintBit_cases _
  case isFalse => exact .inl rfl

/-- A sum of bits is at most their number. -/
theorem sum_bound {term : ℕ → ℤ} (bits : ∀ p, term p = 0 ∨ term p = 1) (count : ℕ) :
    0 ≤ runningSum term count ∧ runningSum term count ≤ count := by
  induction count with
  | zero => exact ⟨le_rfl, le_rfl⟩
  | succ count ih =>
      rw [runningSum]
      rcases bits count with zero | one <;> omega

/-- The hints of the first polynomials, one after the other. -/
theorem sum_hintFlat {polynomials : ℕ} (within : polynomials ≤ K) :
    ∑ r ∈ Finset.range (polynomials * N), hintFlat hints r =
      ∑ i ∈ Finset.range polynomials, (weightOf (hints i) N : ℤ) := by
  induction polynomials with
  | zero => rw [Nat.zero_mul, Finset.sum_range_zero, Finset.sum_range_zero]
  | succ polynomials ih =>
      rw [Nat.succ_mul, Finset.sum_range_add, ih (by omega), Finset.sum_range_succ,
        ← sum_hintBit (hints polynomials) N]
      refine congrArg _ (Finset.sum_congr rfl fun j member => ?_)
      have small := Finset.mem_range.mp member
      have place : polynomials * N + j < HINT_ROWS ∧ (polynomials * N + j) / N = polynomials ∧
          (polynomials * N + j) % N = j := by
        simp only [N, K, HINT_ROWS] at *
        omega
      rw [hintFlat, if_pos place.1, place.2.1, place.2.2]

/-- `build_trace` counts the hints it is given. -/
theorem hintWeightTrace_total :
    (hintWeightTrace hints).2.2 = ∑ i ∈ Finset.range K, weightOf (hints i) N := by
  have rows : 2 ^ hintLogRows = HINT_ROWS + 512 := by decide
  have padding : ∑ p ∈ Finset.range 512, hintFlat hints (HINT_ROWS + p) = 0 := by
    refine Finset.sum_eq_zero fun p _ => ?_
    rw [hintFlat, if_neg (by omega)]
  simp only [hintWeightTrace]
  rw [rows, runningSum_eq, Finset.sum_range_add, padding, add_zero, HINT_ROWS,
    sum_hintFlat hints le_rfl, ← Nat.cast_sum, Int.toNat_natCast]

/-- The columns of `build_trace` satisfy the circuit. -/
theorem hintWeightTrace_satisfies :
    HintWeightSatisfies (hintWeightTrace hints).1 (hintWeightTrace hints).2.1 := by
  have cell (r : ℕ) : bf (hintFlat hints r) = (hintFlat hints r : M31) := by
    rcases hintFlat_cases hints r with zero | one
    · rw [zero]; rfl
    · rw [one]; rfl
  have sums : ∀ row < 2 ^ hintLogRows, (hintWeightTrace hints).1 0 row =
      ∑ p ∈ Finset.range (row + 1), (hintWeightTrace hints).1 1 p := by
    intro row inside
    have bound := sum_bound (hintFlat_cases hints) (row + 1)
    have rows : 2 ^ hintLogRows = 2048 := by decide
    have range : InRange (runningSum (hintFlat hints) (row + 1)) := by
      simp only [InRange, Q]
      omega
    simp only [hintWeightTrace, bf_eq_cast range, cell]
    rw [runningSum_eq, Int.cast_sum]
  intro row inside
  have sum := accumulated_of_sums sums inside
  simp only [hintWeightConstraints, vanish_cons]
  refine ⟨?_, ?_, sum, vanish_nil⟩
  · simp only [hintWeightRow, hintWeightTrace, cell]
    rcases hintFlat_cases hints row with zero | one
    · rw [zero, Int.cast_zero, zero_mul]
    · rw [one, Int.cast_one, sub_self, mul_zero]
  · by_cases valid : row < HINT_ROWS
    · refine mul_eq_zero_of_left ?_ _
      simp only [hintWeightRow, hintWeightTrace, hintPreprocessed, if_pos valid]
      decide
    · refine mul_eq_zero_of_right _ ?_
      simp only [hintWeightRow, hintWeightTrace, hintFlat, if_neg valid]
      decide

end Completeness

end Mldsa
end QLSA
