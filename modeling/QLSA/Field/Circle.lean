import QLSA.Field.SecureField
import Mathlib.Tactic.LinearCombination

namespace QLSA
namespace Mersenne

/-!
# The circle group and its cosets

Points of the circle `x^2 + y^2 = 1` are elements of norm one, and the group
law is multiplication.  Doubling a point maps its first coordinate by
`x ↦ 2 x^2 - 1`, so the first coordinates of a coset are carried onto those of
the coset of half the size.  Folding evaluates both halves of a polynomial
along these maps.
-/

section Doubling

variable {R : Type*} [CommRing R]

/-- The map of first coordinates under doubling. -/
def doubled (x : R) : R := 2 * x ^ 2 - 1

theorem norm_eq_sum (z : QuadraticAlgebra R (-1) 0) :
    QuadraticAlgebra.norm z = z.re ^ 2 + z.im ^ 2 := by
  rw [QuadraticAlgebra.norm_def]
  ring

theorem re_sq_of_norm {z : QuadraticAlgebra R (-1) 0} (norm : QuadraticAlgebra.norm z = 1) :
    (z ^ 2).re = doubled z.re := by
  rw [norm_eq_sum] at norm
  rw [sq, QuadraticAlgebra.re_mul, doubled]
  linear_combination -norm

theorem iterate_doubled {z : QuadraticAlgebra R (-1) 0} (norm : QuadraticAlgebra.norm z = 1)
    (rounds : ℕ) : doubled^[rounds] z.re = (z ^ 2 ^ rounds).re := by
  induction rounds with
  | zero => simp
  | succ rounds ih =>
      have power : QuadraticAlgebra.norm (z ^ 2 ^ rounds) = 1 := by
        rw [map_pow, norm, one_pow]
      rw [Function.iterate_succ_apply', ih, pow_succ 2 rounds, pow_mul, re_sq_of_norm power]

end Doubling

/-- The generator of the circle group. -/
def generator : CM31 := ⟨2, 1268011823⟩

theorem generator_norm : QuadraticAlgebra.norm generator = 1 := by
  rw [norm_eq_sum, generator]
  decide

/-- A point of the canonic coset of `2 ^ logSize` points. -/
def cosetPoint (logSize index : ℕ) : CM31 :=
  generator ^ (2 ^ (30 - logSize) + index * 2 ^ (31 - logSize))

theorem cosetPoint_norm (logSize index : ℕ) :
    QuadraticAlgebra.norm (cosetPoint logSize index) = 1 := by
  rw [cosetPoint, map_pow, generator_norm, one_pow]

theorem cosetPoint_pow {logSize rounds : ℕ} (bounded : logSize ≤ 30) (fewer : rounds ≤ logSize)
    (index : ℕ) : cosetPoint logSize index ^ 2 ^ rounds = cosetPoint (logSize - rounds) index := by
  have initial : 30 - (logSize - rounds) = 30 - logSize + rounds := by omega
  have step : 31 - (logSize - rounds) = 31 - logSize + rounds := by omega
  rw [cosetPoint, cosetPoint, ← pow_mul, initial, step, pow_add 2 (30 - logSize),
    pow_add 2 (31 - logSize), add_mul, mul_assoc]

/-- Doubling first coordinates leads through the smaller cosets. -/
theorem iterate_doubled_cosetPoint {logSize rounds : ℕ} (bounded : logSize ≤ 30)
    (fewer : rounds ≤ logSize) (index : ℕ) :
    doubled^[rounds] (cosetPoint logSize index).re = (cosetPoint (logSize - rounds) index).re := by
  rw [iterate_doubled (cosetPoint_norm logSize index), cosetPoint_pow bounded fewer]

/-- The base field inside the quartic extension. -/
def baseValue (s : M31) : QM31 := algebraMap CM31 QM31 (algebraMap M31 CM31 s)

/-- Combination of the values at a point and at its opposite under a challenge. -/
def fold (plus minus challenge : QM31) (twiddle : M31) : QM31 :=
  (plus + minus) + challenge * ((plus - minus) * baseValue twiddle⁻¹)

end Mersenne
end QLSA
