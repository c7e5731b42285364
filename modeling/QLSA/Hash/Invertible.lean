import QLSA.Hash.Poseidon2
import Mathlib.Algebra.BigOperators.Fin
import Mathlib.LinearAlgebra.Matrix.ToLinearEquiv
import Mathlib.Logic.Equiv.Fin.Basic
import Mathlib.Tactic.FieldSimp
import Mathlib.Tactic.FinCases
import Mathlib.Tactic.LinearCombination

namespace QLSA
namespace Hash

open Matrix

/-!
# The permutation is a bijection

`M4` has the determinant `-64`.  The external matrix loses nothing because the
sum of the mixed blocks can be read off its result, up to the number of blocks
and one; the internal one because the sum of the cells can, up to one and the
sum of the inverses of its diagonal.  With an injective fifth power every round
is injective, and over a finite field so is every permutation bijective.
-/

section Layers

variable {F : Type*} [Field F]

/-- `M4` has an inverse where two is not zero. -/
theorem blockMatrix_mulVec_eq_zero (odd : (8 : F) ≠ 0) {v : Fin 4 → F}
    (zero : blockMatrix *ᵥ v = 0) : v = 0 := by
  have row (k : Fin 4) : ∑ j, blockMatrix k j * v j = 0 := congrFun zero k
  have row0 := row 0
  have row1 := row 1
  have row2 := row 2
  have row3 := row 3
  simp only [blockMatrix, Fin.sum_univ_four, Matrix.of_apply, Matrix.cons_val] at row0 row1 row2 row3
  have cells : 8 * v 0 = 0 ∧ 8 * v 1 = 0 ∧ 8 * v 2 = 0 ∧ 8 * v 3 = 0 := by
    refine ⟨?_, ?_, ?_, ?_⟩
    · linear_combination -row0 + 3 * row1 - 6 * row2 + 7 * row3
    · linear_combination row0 - row1 + 4 * row2 - 5 * row3
    · linear_combination -6 * row0 + 7 * row1 - row2 + 3 * row3
    · linear_combination 4 * row0 - 5 * row1 + row2 - row3
  rcases cells with ⟨first, second, third, fourth⟩
  funext k
  fin_cases k
  · exact (mul_eq_zero.mp first).resolve_left odd
  · exact (mul_eq_zero.mp second).resolve_left odd
  · exact (mul_eq_zero.mp third).resolve_left odd
  · exact (mul_eq_zero.mp fourth).resolve_left odd

variable {n t : ℕ}

/-- Cell `k` of block `b`. -/
def cellOf (b : Fin n) (k : Fin 4) : Fin (n * 4) := finProdFinEquiv (b, k)

theorem cellOf_val (b : Fin n) (k : Fin 4) : (cellOf b k).val = k.val + 4 * b.val := rfl

/-- Block `b` of a vector, mixed. -/
def mixedBlock (v : Fin (n * 4) → F) (b : Fin n) : Fin 4 → F :=
  blockMatrix *ᵥ fun k => v (cellOf b k)

/-- The external matrix adds the sum of the mixed blocks to each of them. -/
theorem externalMatrix_cell (v : Fin (n * 4) → F) (b : Fin n) (k : Fin 4) :
    (externalMatrix (n * 4) *ᵥ v) (cellOf b k) = mixedBlock v b k + ∑ c, mixedBlock v c k := by
  have entry (c : Fin n) (j : Fin 4) : externalMatrix (n * 4) (cellOf b k) (cellOf c j) =
      (if b = c then (blockMatrix k j : F) else 0) + blockMatrix k j := by
    have block (d : Fin n) (i : Fin 4) : (cellOf d i).val / 4 = d.val := by
      rw [cellOf_val]
      omega
    have column (d : Fin n) (i : Fin 4) : (cellOf d i).val % 4 = i.val := by
      rw [cellOf_val]
      omega
    simp only [externalMatrix, block, column, Fin.eta, ← Fin.ext_iff]
    by_cases same : b = c
    · rw [if_pos same, if_pos same]
      ring
    · rw [if_neg same, if_neg same]
      ring
  have mixed (c : Fin n) : mixedBlock v c k = ∑ j, blockMatrix k j * v (cellOf c j) := rfl
  rw [Matrix.mulVec, dotProduct, ← finProdFinEquiv.sum_comp, Fintype.sum_prod_type]
  have rows (c : Fin n) : (∑ j : Fin 4, externalMatrix (n * 4) (cellOf b k) (finProdFinEquiv (c, j)) *
      v (finProdFinEquiv (c, j))) = (if b = c then mixedBlock v c k else 0) + mixedBlock v c k := by
    rw [mixed]
    by_cases same : b = c
    · rw [if_pos same, ← Finset.sum_add_distrib]
      apply Finset.sum_congr rfl
      intro j _
      have own := entry c j
      rw [if_pos same] at own
      rw [← cellOf, own]
      ring
    · rw [if_neg same, zero_add]
      apply Finset.sum_congr rfl
      intro j _
      have own := entry c j
      rw [if_neg same, zero_add] at own
      rw [← cellOf, own]
  rw [Finset.sum_congr rfl fun c _ => rows c, Finset.sum_add_distrib, Finset.sum_ite_eq,
    if_pos (Finset.mem_univ b)]

theorem externalMatrix_mulVec_eq_zero (odd : (8 : F) ≠ 0) (blocks : (n + 1 : F) ≠ 0)
    {v : Fin (n * 4) → F} (zero : externalMatrix (n * 4) *ᵥ v = 0) : v = 0 := by
  have cells (b : Fin n) (k : Fin 4) : mixedBlock v b k + ∑ c, mixedBlock v c k = 0 := by
    rw [← externalMatrix_cell, zero]
    rfl
  have sums (k : Fin 4) : ∑ c, mixedBlock v c k = 0 := by
    have total : ∑ b : Fin n, (mixedBlock v b k + ∑ c, mixedBlock v c k) = 0 :=
      Finset.sum_eq_zero fun b _ => cells b k
    rw [Finset.sum_add_distrib, Finset.sum_const, Finset.card_univ, Fintype.card_fin,
      nsmul_eq_mul] at total
    have scaled : (n + 1 : F) * ∑ c, mixedBlock v c k = 0 := by linear_combination total
    exact (mul_eq_zero.mp scaled).resolve_left blocks
  have mixed (b : Fin n) : mixedBlock v b = 0 := by
    funext k
    have cell := cells b k
    rw [sums, add_zero] at cell
    exact cell
  funext i
  have own := congrFun (blockMatrix_mulVec_eq_zero odd (mixed (finProdFinEquiv.symm i).1))
    (finProdFinEquiv.symm i).2
  rw [cellOf, Prod.mk.eta, Equiv.apply_symm_apply] at own
  exact own

theorem internalMatrix_cell (v : Fin t → F) (i : Fin t) :
    (internalMatrix t *ᵥ v) i = (∑ j, v j) + (i.val + 1) * v i := by
  rw [internalMatrix, Matrix.add_mulVec, Pi.add_apply, Matrix.mulVec_diagonal]
  simp [Matrix.mulVec, dotProduct]

theorem internalMatrix_mulVec_eq_zero (diagonal : ∀ i : Fin t, (i.val + 1 : F) ≠ 0)
    (trace : 1 + ∑ i : Fin t, (i.val + 1 : F)⁻¹ ≠ 0) {v : Fin t → F}
    (zero : internalMatrix t *ᵥ v = 0) : v = 0 := by
  have cell (i : Fin t) : v i = -(i.val + 1 : F)⁻¹ * ∑ j, v j := by
    have own := congrFun zero i
    rw [internalMatrix_cell, Pi.zero_apply] at own
    have unit := diagonal i
    field_simp
    linear_combination own
  have scaled : (1 + ∑ i : Fin t, (i.val + 1 : F)⁻¹) * ∑ j, v j = 0 := by
    have sums : ∑ i, v i = ∑ i : Fin t, -(i.val + 1 : F)⁻¹ * ∑ j, v j :=
      Finset.sum_congr rfl fun i _ => cell i
    rw [← Finset.sum_mul, Finset.sum_neg_distrib] at sums
    linear_combination sums
  have total := (mul_eq_zero.mp scaled).resolve_left trace
  funext i
  rw [cell, total, mul_zero]
  rfl

end Layers

section Rounds

variable {F : Type*} [Field F] {t : ℕ}

/-- A matrix that only takes zero to zero has an inverse. -/
theorem isUnit_of_mulVec_eq_zero {m : Matrix (Fin t) (Fin t) F}
    (zero : ∀ v, m *ᵥ v = 0 → v = 0) : IsUnit m := by
  rw [← Matrix.mulVec_injective_iff_isUnit]
  intro v w same
  have difference : m *ᵥ (v - w) = 0 := by
    rw [Matrix.mulVec_sub]
    exact sub_eq_zero.mpr same
  exact sub_eq_zero.mp (zero _ difference)

variable (constant : ℕ → F)

theorem externalStep_injective (power : Function.Injective fun x : F => x ^ 5)
    (unit : IsUnit (externalMatrix t : Matrix (Fin t) (Fin t) F)) (r : ℕ) :
    Function.Injective fun s : Fin t → F => externalStep constant s r := by
  intro first second same
  have powers := (Matrix.mulVec_injective_iff_isUnit.mpr unit) same
  funext i
  exact add_right_cancel (power (congrFun powers i))

theorem internalStep_injective [NeZero t] (power : Function.Injective fun x : F => x ^ 5)
    (unit : IsUnit (internalMatrix t : Matrix (Fin t) (Fin t) F)) (j : ℕ) :
    Function.Injective fun s : Fin t → F => internalStep constant s j := by
  intro first second same
  have updates := (Matrix.mulVec_injective_iff_isUnit.mpr unit) same
  funext i
  have cell := congrFun updates i
  by_cases zero : i = 0
  · subst zero
    rw [Function.update_self, Function.update_self] at cell
    exact add_right_cancel (power cell)
  · rw [Function.update_of_ne zero, Function.update_of_ne zero] at cell
    exact cell

theorem foldl_injective {α β : Type*} {step : α → β → α}
    (each : ∀ b, Function.Injective fun a => step a b) {list : List β} {first second : α}
    (same : list.foldl step first = list.foldl step second) : first = second := by
  induction list generalizing first second with
  | nil => exact same
  | cons b rest ih => exact each b (ih same)

theorem poseidon2_injective [NeZero t] (power : Function.Injective fun x : F => x ^ 5)
    (unit : IsUnit (externalMatrix t : Matrix (Fin t) (Fin t) F))
    (unit' : IsUnit (internalMatrix t : Matrix (Fin t) (Fin t) F)) :
    Function.Injective (poseidon2 constant : (Fin t → F) → Fin t → F) := by
  have external := externalStep_injective constant power unit
  have internal := internalStep_injective constant power unit'
  intro first second same
  rw [poseidon2, poseidon2] at same
  have middle := foldl_injective external same
  have early := foldl_injective internal middle
  exact Matrix.mulVec_injective_iff_isUnit.mpr unit (foldl_injective external early)

end Rounds

end Hash
end QLSA
