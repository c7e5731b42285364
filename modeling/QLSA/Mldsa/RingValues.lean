import QLSA.Mldsa.PolyMul
import Mathlib.RingTheory.Polynomial.Quotient

namespace QLSA
namespace Mldsa

open Finset Polynomial

/-!
# Elements of the ring and their values

An element of `Z_q[X] / (X ^ 256 + 1)` has a value at every odd power of `ZETA`,
and these values determine it: an array with the same values represents it.
The transform lists the values, so an array that was computed between the two
transforms represents an element as soon as its transform lists the right values.
-/

/-- The ring of the scheme. -/
abbrev Ring := AdjoinRoot (ringModulus N)

/-- The element that an array represents. -/
noncomputable def element (f : Coeffs) : Ring := AdjoinRoot.mk (ringModulus N) (toPoly f)

/-- The odd powers of `ZETA`, in the order of the transform. -/
def oddPower (k : ℕ) : Zq := (ZETA : Zq) ^ (2 * reverseBits k + 1)

theorem eval_ringModulus (k : ℕ) : (ringModulus N).eval₂ (RingHom.id Zq) (oddPower k) = 0 := by
  rw [ringModulus, eval₂_add, eval₂_X_pow, eval₂_one, oddPower, odd_power_root]
  ring

/-- The value at an odd power. -/
noncomputable def valueAt (k : ℕ) : Ring →+* Zq :=
  AdjoinRoot.lift (RingHom.id Zq) (oddPower k) (eval_ringModulus k)

theorem valueAt_element (k : ℕ) (f : Coeffs) :
    valueAt k (element f) = evaluate N f (oddPower k) := by
  rw [valueAt, element, AdjoinRoot.lift_mk, toPoly, evaluate, eval₂_finsetSum]
  apply sum_congr rfl
  intro t _
  rw [eval₂_mul, eval₂_C, eval₂_X_pow, RingHom.id_apply]

theorem ntt_valueAt {f : Coeffs} (reduced : Reduced f) {k : ℕ} (inside : k < N) :
    (ntt f k : Zq) = valueAt k (element f) := by
  rw [valueAt_element, ntt_value reduced inside]
  rfl

theorem element_congr {f g : Coeffs} (same : ∀ t < N, (f t : Zq) = g t) :
    element f = element g := by
  have polys : toPoly f = toPoly g := by
    rw [toPoly, toPoly]
    apply sum_congr rfl
    intro t member
    rw [same t (mem_range.mp member)]
  rw [element, element, polys]

theorem Agree.element_eq {f g : Coeffs} (agree : Agree f g) : element f = element g :=
  element_congr fun t inside => by rw [agree t inside]

/-- Arrays of representatives with the same values agree. -/
theorem agree_of_values {f g : Coeffs} (first : Reduced f) (second : Reduced g)
    (same : ∀ k < N, valueAt k (element f) = valueAt k (element g)) : Agree f g := by
  have transforms : Agree (ntt f) (ntt g) := by
    intro k inside
    apply (ntt_reduced first k inside).eq_of_cast (ntt_reduced second k inside)
    rw [ntt_valueAt first inside, ntt_valueAt second inside, same k inside]
  intro c inside
  rw [← nttInv_ntt first c inside, ← nttInv_ntt second c inside]
  exact transforms.nttInv c inside

theorem zq_nontrivial : Nontrivial Zq := ⟨0, 1, by decide⟩

theorem ringModulus_monic {n : ℕ} (positive : n ≠ 0) : (ringModulus n).Monic := by
  rw [ringModulus, ← C_1]
  exact monic_X_pow_add_C 1 positive

theorem ringModulus_degree {n : ℕ} (positive : 0 < n) : (ringModulus n).degree = n := by
  have nontrivial := zq_nontrivial
  rw [ringModulus, ← C_1]
  exact degree_X_pow_add_C positive 1

theorem toPoly_coeff (f : Coeffs) (n : ℕ) :
    (toPoly f).coeff n = if n < N then (f n : Zq) else 0 := by
  rw [toPoly, finsetSum_coeff]
  simp only [coeff_C_mul_X_pow, sum_ite_eq, mem_range]

/-- The polynomial of the representatives of its coefficients. -/
theorem toPoly_coefficients {p : Zq[X]} (small : p.degree < N) :
    toPoly (fun t => ((p.coeff t).val : ℤ)) = p := by
  ext n
  rw [toPoly_coeff]
  split
  case isTrue => rw [Int.cast_natCast, ZMod.natCast_zmod_val]
  case isFalse beyond =>
    have high : (N : WithBot ℕ) ≤ n := by exact_mod_cast Nat.le_of_not_lt beyond
    exact (coeff_eq_zero_of_degree_lt (small.trans_le high)).symm

/-- Every element is represented by an array of representatives. -/
theorem exists_array (e : Ring) : ∃ f, Reduced f ∧ element f = e := by
  rcases AdjoinRoot.mk_surjective e with ⟨p, rfl⟩
  have nontrivial := zq_nontrivial
  have monic : (ringModulus N).Monic := ringModulus_monic (by decide)
  have small : (p %ₘ ringModulus N).degree < N :=
    (degree_modByMonic_lt p monic).trans_eq (ringModulus_degree (by decide))
  refine ⟨fun t => ((p %ₘ ringModulus N).coeff t).val, ?_, ?_⟩
  · intro t _
    have bound := ZMod.val_lt ((p %ₘ ringModulus N).coeff t)
    have modulus : Q = (8380417 : ℕ) := rfl
    refine ⟨Int.natCast_nonneg _, ?_⟩
    rw [modulus]
    exact Int.ofNat_lt.mpr bound
  · rw [element, toPoly_coefficients small]
    conv_rhs => rw [← modByMonic_add_div p (ringModulus N)]
    rw [map_add, map_mul, AdjoinRoot.mk_self, zero_mul, add_zero]

/-- An array with the values of an element represents it. -/
theorem element_of_values {f : Coeffs} {e : Ring} (reduced : Reduced f)
    (same : ∀ k < N, valueAt k (element f) = valueAt k e) : element f = e := by
  rcases exists_array e with ⟨g, second, rfl⟩
  exact (agree_of_values reduced second same).element_eq

/-- An element has one array of representatives. -/
theorem Reduced.unique {f g : Coeffs} (first : Reduced f) (second : Reduced g)
    (same : element f = element g) : Agree f g :=
  agree_of_values first second fun k _ => by rw [same]

/-- Coefficients scaled by an integer. -/
theorem element_scaled {f g : Coeffs} {s : ℤ} (scaled : ∀ t < N, (f t : Zq) = g t * s) :
    element f = element g * (s : Ring) := by
  have poly : toPoly f = toPoly g * C (s : Zq) := by
    rw [toPoly, toPoly, sum_mul]
    apply sum_congr rfl
    intro t member
    rw [scaled t (mem_range.mp member), C_mul]
    ring
  rw [element, element, poly, map_mul, AdjoinRoot.mk_C, map_intCast]

/-! ## Listed values -/

/-- An array of representatives lists the values of an element. -/
structure Lists (f : Coeffs) (e : Ring) : Prop where
  reduced : Reduced f
  values : ∀ k < N, (f k : Zq) = valueAt k e

section Lists

variable {f g r : Coeffs} {e e' : Ring}

theorem Lists.of_ntt (reduced : Reduced f) : Lists (ntt f) (element f) where
  reduced := ntt_reduced reduced
  values := fun _ inside => ntt_valueAt reduced inside

/-- Whatever is listed, the transform back represents it. -/
theorem Lists.nttInv (lists : Lists f e) : Reduced (nttInv f) ∧ element (nttInv f) = e := by
  have back := (nttInv_spec lists.reduced).1
  refine ⟨back, element_of_values back fun k inside => ?_⟩
  rw [← ntt_valueAt back inside, ntt_nttInv lists.reduced k inside, lists.values k inside]

/-- An array of representatives lists what its transform back represents. -/
theorem Lists.of_reduced (reduced : Reduced f) : Lists f (element (Mldsa.nttInv f)) where
  reduced := reduced
  values := by
    intro k inside
    have back := (nttInv_spec reduced).1
    rw [← ntt_valueAt back inside, ntt_nttInv reduced k inside]

theorem Lists.zero : Lists (fun _ => 0) 0 where
  reduced := fun _ _ => (by decide : InRange 0)
  values := fun k _ => by rw [map_zero, Int.cast_zero]

/-- An operation on representatives that is one of the ring on values. -/
theorem Lists.of_emod {op : ℤ → ℤ → ℤ} {opRing : Ring} (first : Lists f e) (second : Lists g e')
    (agree : Agree r fun k => op (f k) (g k) % Q)
    (same : ∀ k, (f k : Zq) = valueAt k e → (g k : Zq) = valueAt k e' →
      ((op (f k) (g k) : ℤ) : Zq) = valueAt k opRing) : Lists r opRing where
  reduced := by
    intro k inside
    rw [agree k inside]
    exact emod_inRange _
  values := by
    intro k inside
    rw [agree k inside, cast_emod]
    exact same k (first.values k inside) (second.values k inside)

theorem Lists.add (first : Lists f e) (second : Lists g e')
    (agree : Agree r fun k => (f k + g k) % Q) : Lists r (e + e') := by
  apply first.of_emod second agree
  intro k left right
  rw [Int.cast_add, left, right, map_add]

theorem Lists.sub (first : Lists f e) (second : Lists g e')
    (agree : Agree r fun k => (f k - g k) % Q) : Lists r (e - e') := by
  apply first.of_emod second agree
  intro k left right
  rw [Int.cast_sub, left, right, map_sub]

theorem Lists.mul (first : Lists f e) (second : Lists g e')
    (agree : Agree r fun k => f k * g k % Q) : Lists r (e * e') := by
  apply first.of_emod second agree
  intro k left right
  rw [Int.cast_mul, left, right, map_mul]

end Lists

end Mldsa
end QLSA
