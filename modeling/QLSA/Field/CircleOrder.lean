import QLSA.Field.Circle
import Mathlib.GroupTheory.OrderOfElement

namespace QLSA
namespace Mersenne

/-!
# The order of the generator

Half of the group order leads the generator to `-1`, so its order is `2 ^ 31`.
A point of a canonic coset is an odd power of an element of this order, and
the powers where a coordinate vanishes are even.
-/

section Coordinates

variable {R : Type*} [CommRing R] {z w : QuadraticAlgebra R (-1) 0}

theorem sq_eq_one_of_im (norm : QuadraticAlgebra.norm z = 1) (flat : z.im = 0) : z ^ 2 = 1 := by
  rw [norm_eq_sum, flat] at norm
  rw [sq]
  ext
  · rw [QuadraticAlgebra.re_mul, flat, QuadraticAlgebra.re_one]
    linear_combination norm
  · rw [QuadraticAlgebra.im_mul, flat, QuadraticAlgebra.im_one]
    ring

theorem sq_eq_neg_one_of_re (norm : QuadraticAlgebra.norm z = 1) (upright : z.re = 0) :
    z ^ 2 = -1 := by
  rw [norm_eq_sum, upright] at norm
  rw [sq]
  ext
  · rw [QuadraticAlgebra.re_mul, upright, QuadraticAlgebra.re_neg, QuadraticAlgebra.re_one]
    linear_combination -norm
  · rw [QuadraticAlgebra.im_mul, upright, QuadraticAlgebra.im_neg, QuadraticAlgebra.im_one]
    ring

/-- The conjugate is the inverse. -/
theorem mul_star_of_norm (norm : QuadraticAlgebra.norm z = 1) : z * star z = 1 := by
  rw [← QuadraticAlgebra.algebraMap_norm_eq_mul_star, norm, map_one]

theorem star_eq_of_mul_eq_one (norm : QuadraticAlgebra.norm z = 1) (inverse : z * w = 1) :
    star z = w := by
  calc
    star z = star z * (z * w) := by rw [inverse, mul_one]
    _ = z * star z * w := by ring
    _ = w := by rw [mul_star_of_norm norm, one_mul]

/-- Points with one first coordinate are equal or conjugate. -/
theorem eq_or_star_eq_of_re [NoZeroDivisors R] (first : QuadraticAlgebra.norm z = 1)
    (second : QuadraticAlgebra.norm w = 1) (same : z.re = w.re) : z = w ∨ star z = w := by
  rw [norm_eq_sum] at first second
  have squares : (z.im - w.im) * (z.im + w.im) = 0 := by
    rw [same] at first
    linear_combination first - second
  rcases mul_eq_zero.mp squares with equal | opposite
  · left
    exact QuadraticAlgebra.ext same (sub_eq_zero.mp equal)
  · right
    apply QuadraticAlgebra.ext
    · rw [QuadraticAlgebra.re_star, zero_mul, add_zero, same]
    · rw [QuadraticAlgebra.im_star]
      linear_combination -opposite

end Coordinates

/-! ## Powers of the generator -/

/-- A quarter of the order leads to the top of the circle. -/
theorem generator_quarter_re : (generator ^ 2 ^ 29).re = 0 := by
  rw [← iterate_doubled generator_norm]
  decide +kernel

theorem generator_half : generator ^ 2 ^ 30 = -1 := by
  have norm : QuadraticAlgebra.norm (generator ^ 2 ^ 29) = 1 := by
    rw [map_pow, generator_norm, one_pow]
  rw [show 2 ^ 30 = 2 ^ 29 * 2 from rfl, pow_mul]
  exact sq_eq_neg_one_of_re norm generator_quarter_re

theorem generator_whole : generator ^ 2 ^ 31 = 1 := by
  rw [show 2 ^ 31 = 2 ^ 30 * 2 from rfl, pow_mul, generator_half, neg_one_sq]

theorem neg_one_ne_one : (-1 : CM31) ≠ 1 := by
  intro same
  have first := congrArg QuadraticAlgebra.re same
  rw [QuadraticAlgebra.re_neg, QuadraticAlgebra.re_one] at first
  revert first
  decide

theorem orderOf_generator : orderOf generator = 2 ^ 31 := by
  have notHalf : ¬ generator ^ 2 ^ 30 = 1 := by
    rw [generator_half]
    exact neg_one_ne_one
  exact orderOf_eq_prime_pow notHalf generator_whole

theorem generator_pow_eq_one_iff (exponent : ℕ) :
    generator ^ exponent = 1 ↔ 2 ^ 31 ∣ exponent := by
  rw [← orderOf_generator, orderOf_dvd_iff_pow_eq_one]

/-! ## Points of the cosets -/

section Points

variable {logSize : ℕ}

/-- The unit of a coset and an odd factor. -/
theorem cosetPoint_eq (bounded : logSize ≤ 30) (index : ℕ) :
    cosetPoint logSize index = generator ^ (2 ^ (30 - logSize) * (2 * index + 1)) := by
  have step : 2 ^ (31 - logSize) = 2 ^ (30 - logSize) * 2 := by
    rw [← pow_succ]
    congr 1
    omega
  rw [cosetPoint, step]
  congr 1
  ring

/-- A power of two short of the size of the coset does not lead to one. -/
theorem cosetPoint_pow_ne_one (bounded : logSize ≤ 30) {rounds : ℕ} (fewer : rounds ≤ logSize)
    (index : ℕ) : cosetPoint logSize index ^ 2 ^ rounds ≠ 1 := by
  rw [cosetPoint_eq bounded, ← pow_mul, Ne, generator_pow_eq_one_iff]
  intro divides
  have split : 2 ^ (30 - logSize) * (2 * index + 1) * 2 ^ rounds =
      2 ^ (30 - logSize + rounds) * (2 * index + 1) := by
    rw [pow_add]
    ring
  have whole : 2 ^ 31 = 2 ^ (30 - logSize + rounds) * 2 ^ (logSize - rounds + 1) := by
    rw [← pow_add]
    congr 1
    omega
  rw [split, whole] at divides
  have odd := Nat.dvd_of_mul_dvd_mul_left (Nat.two_pow_pos _) divides
  rw [pow_succ] at odd
  have even : 2 ∣ 2 * index + 1 := dvd_trans (Dvd.intro_left _ rfl) odd
  omega

/-- No point of a coset has second coordinate zero. -/
theorem cosetPoint_im_ne_zero (positive : 1 ≤ logSize) (bounded : logSize ≤ 30) (index : ℕ) :
    (cosetPoint logSize index).im ≠ 0 := by
  intro flat
  exact cosetPoint_pow_ne_one bounded positive index
    (sq_eq_one_of_im (cosetPoint_norm logSize index) flat)

theorem cosetPoint_re_ne_zero (positive : 2 ≤ logSize) (bounded : logSize ≤ 30) (index : ℕ) :
    (cosetPoint logSize index).re ≠ 0 := by
  intro upright
  apply cosetPoint_pow_ne_one bounded positive index
  rw [show 2 ^ 2 = 2 * 2 from rfl, pow_mul,
    sq_eq_neg_one_of_re (cosetPoint_norm logSize index) upright, neg_one_sq]

theorem cosetPoint_add_size (bounded : logSize ≤ 30) (index : ℕ) :
    cosetPoint logSize (index + 2 ^ logSize) = cosetPoint logSize index := by
  have whole : 2 ^ (30 - logSize) * (2 * 2 ^ logSize) = 2 ^ 31 := by
    rw [← pow_succ', ← pow_add]
    congr 1
    omega
  rw [cosetPoint_eq bounded, cosetPoint_eq bounded,
    show 2 * (index + 2 ^ logSize) + 1 = 2 * index + 1 + 2 * 2 ^ logSize by ring, mul_add, whole,
    pow_add, generator_whole, mul_one]

/-- Only the index within the coset counts. -/
theorem cosetPoint_mod (bounded : logSize ≤ 30) (index : ℕ) :
    cosetPoint logSize (index % 2 ^ logSize) = cosetPoint logSize index := by
  induction index using Nat.strong_induction_on with
  | _ index ih =>
      rcases lt_or_ge index (2 ^ logSize) with inside | beyond
      · rw [Nat.mod_eq_of_lt inside]
      · have positive := Nat.two_pow_pos logSize
        rw [Nat.mod_eq_sub_mod beyond, ih _ (by omega), ← cosetPoint_add_size bounded,
          Nat.sub_add_cancel beyond]

/-- Half of the coset away lies the opposite point. -/
theorem cosetPoint_add_half (positive : 1 ≤ logSize) (bounded : logSize ≤ 30) (index : ℕ) :
    cosetPoint logSize (index + 2 ^ (logSize - 1)) = -cosetPoint logSize index := by
  have half : 2 ^ (30 - logSize) * (2 * 2 ^ (logSize - 1)) = 2 ^ 30 := by
    rw [← pow_succ', ← pow_add]
    congr 1
    omega
  rw [cosetPoint_eq bounded, cosetPoint_eq bounded,
    show 2 * (index + 2 ^ (logSize - 1)) + 1 = 2 * index + 1 + 2 * 2 ^ (logSize - 1) by ring,
    mul_add, half, pow_add, generator_half, mul_neg_one]

/-- Two indices of inverse points. -/
theorem cosetPoint_mul_eq_one_iff (bounded : logSize ≤ 30) (first second : ℕ) :
    cosetPoint logSize first * cosetPoint logSize second = 1 ↔
      2 ^ logSize ∣ first + second + 1 := by
  have whole : 2 ^ 31 = 2 ^ (31 - logSize) * 2 ^ logSize := by
    rw [← pow_add]
    congr 1
    omega
  have step : 2 ^ (31 - logSize) = 2 ^ (30 - logSize) * 2 := by
    rw [← pow_succ]
    congr 1
    omega
  have sum : 2 ^ (30 - logSize) * (2 * first + 1) + 2 ^ (30 - logSize) * (2 * second + 1) =
      2 ^ (31 - logSize) * (first + second + 1) := by
    rw [step]
    ring
  rw [cosetPoint_eq bounded, cosetPoint_eq bounded, ← pow_add, sum, generator_pow_eq_one_iff, whole]
  exact Nat.mul_dvd_mul_iff_left (Nat.two_pow_pos _)

/-- The conjugate of a point is that of the mirrored index. -/
theorem cosetPoint_mirror (bounded : logSize ≤ 30) {index : ℕ} (inside : index < 2 ^ logSize) :
    cosetPoint logSize (2 ^ logSize - 1 - index) = star (cosetPoint logSize index) := by
  have sum : index + (2 ^ logSize - 1 - index) + 1 = 2 ^ logSize := by omega
  symm
  apply star_eq_of_mul_eq_one (cosetPoint_norm logSize index)
  rw [cosetPoint_mul_eq_one_iff bounded, sum]

/-- The first coordinates of the first half are distinct. -/
theorem cosetPoint_re_injective (positive : 1 ≤ logSize) (bounded : logSize ≤ 30)
    {first second : ℕ} (firstInside : first < 2 ^ (logSize - 1))
    (secondInside : second < 2 ^ (logSize - 1))
    (same : (cosetPoint logSize first).re = (cosetPoint logSize second).re) : first = second := by
  have double : 2 ^ logSize = 2 * 2 ^ (logSize - 1) := by
    rw [← pow_succ']
    congr 1
    omega
  have norm := cosetPoint_norm logSize first
  rcases eq_or_star_eq_of_re norm (cosetPoint_norm logSize second) same with equal | conjugate
  · have mirrored : second < 2 ^ logSize := by omega
    have inverse : cosetPoint logSize first * cosetPoint logSize (2 ^ logSize - 1 - second) = 1 := by
      rw [cosetPoint_mirror bounded mirrored, ← equal, mul_star_of_norm norm]
    rw [cosetPoint_mul_eq_one_iff bounded] at inverse
    rcases inverse with ⟨count, sum⟩
    have once : count = 1 := by
      rcases count with _ | _ | count
      · omega
      · rfl
      · have more : 2 ^ logSize * 2 ≤ 2 ^ logSize * (count + 1 + 1) :=
          Nat.mul_le_mul_left _ (by omega)
        omega
    rw [once, mul_one] at sum
    omega
  · have inverse : cosetPoint logSize first * cosetPoint logSize second = 1 := by
      rw [← conjugate, mul_star_of_norm norm]
    rw [cosetPoint_mul_eq_one_iff bounded] at inverse
    have large := Nat.le_of_dvd (Nat.succ_pos _) inverse
    omega

end Points

/-! ## First coordinates under doubling -/

/-- The first coordinate in the coset of `2 ^ (logSize - rounds)` points. -/
theorem twiddle_ne_zero {logSize rounds : ℕ} (bounded : logSize ≤ 30) (fewer : rounds + 2 ≤ logSize)
    (index : ℕ) : doubled^[rounds] (cosetPoint logSize index).re ≠ 0 := by
  rw [iterate_doubled_cosetPoint bounded (by omega)]
  exact cosetPoint_re_ne_zero (by omega) (by omega) index

theorem twiddle_add_half {logSize rounds : ℕ} (bounded : logSize ≤ 30) (fewer : rounds + 1 ≤ logSize)
    (index : ℕ) :
    doubled^[rounds] (cosetPoint logSize (index + 2 ^ (logSize - 1 - rounds))).re =
      -doubled^[rounds] (cosetPoint logSize index).re := by
  have half : logSize - 1 - rounds = logSize - rounds - 1 := by omega
  rw [iterate_doubled_cosetPoint bounded (by omega), iterate_doubled_cosetPoint bounded (by omega),
    half, cosetPoint_add_half (by omega) (by omega), QuadraticAlgebra.re_neg]

end Mersenne
end QLSA
