import QLSA.Field.Mersenne31
import Mathlib.Algebra.QuadraticAlgebra.Basic
import Mathlib.NumberTheory.LegendreSymbol.QuadraticReciprocity

namespace QLSA
namespace Mersenne

/-!
# The quartic extension

`CM31` adjoins a square root `i` of `-1` to the prime field and `QM31` adjoins
a square root `u` of `2 + i` to that.  Neither element is a square before it
is adjoined: `-1` because `P` is three modulo four, and `2 + i` because its
norm is five, which is no square modulo `P`.
-/

/-- `M31[i] / (i^2 + 1)` -/
abbrev CM31 := QuadraticAlgebra M31 (-1) 0

/-- `CM31[u] / (u^2 - (2 + i))` -/
abbrev QM31 := QuadraticAlgebra CM31 ⟨2, 1⟩ 0

theorem not_isSquare_neg_one : ¬ IsSquare (-1 : M31) := by
  rw [ZMod.exists_sq_eq_neg_one_iff]
  decide

theorem two_ne_square_mod_five : ∀ root : ZMod 5, 2 ≠ root * root := by
  decide

theorem P_mod_five : ((P : ℕ) : ZMod 5) = 2 := by
  decide

/-- Quadratic reciprocity: five is a square modulo `P` only if `P`, which is
two modulo five, is a square modulo five. -/
theorem not_isSquare_five : ¬ IsSquare (5 : M31) := by
  have prime : Fact (Nat.Prime 5) := ⟨Nat.prime_five⟩
  have odd : P ≠ 2 := by decide
  have reciprocity := ZMod.exists_sq_eq_prime_iff_of_mod_four_eq_one (p := 5) (q := P) rfl odd
  intro square
  rcases reciprocity.mpr square with ⟨root, equation⟩
  rw [P_mod_five] at equation
  exact two_ne_square_mod_five root equation

instance : Fact (∀ r : M31, r ^ 2 ≠ -1 + 0 * r) := by
  constructor
  intro root equation
  apply not_isSquare_neg_one
  exact ⟨root, by rw [← sq, equation, zero_mul, add_zero]⟩

instance : Fact (∀ z : CM31, z ^ 2 ≠ ⟨2, 1⟩ + 0 * z) := by
  constructor
  intro root equation
  apply not_isSquare_five
  have norms := congrArg QuadraticAlgebra.norm equation
  rw [zero_mul, add_zero, map_pow] at norms
  refine ⟨QuadraticAlgebra.norm root, ?_⟩
  rw [← sq, norms, QuadraticAlgebra.norm_def]
  norm_num

end Mersenne
end QLSA
