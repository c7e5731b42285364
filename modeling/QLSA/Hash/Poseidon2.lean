import QLSA.Hash.Permutation
import Mathlib.Data.Matrix.Mul
import Mathlib.LinearAlgebra.Matrix.Notation

namespace QLSA
namespace Hash

open Matrix

/-!
# The permutation over vectors

Poseidon2 of any width that is a multiple of four, by its matrices: the
external matrix has `2 M4` on the diagonal of blocks and `M4` elsewhere, the
internal one is the all-ones matrix plus a diagonal.  Eight external rounds
stand around fourteen internal ones.  States with named cells are vectors, and
their layers are products with these matrices.
-/

section Vectors

variable {F : Type*} [CommRing F] {t : ℕ}

/-- `M4` -/
def blockMatrix : Matrix (Fin 4) (Fin 4) F := !![5, 7, 1, 3; 4, 6, 1, 1; 1, 3, 5, 7; 1, 1, 4, 6]

/-- `M_E`: blocks `2 M4` on the diagonal, `M4` elsewhere. -/
def externalMatrix (t : ℕ) : Matrix (Fin t) (Fin t) F := fun i j =>
  (if i.val / 4 = j.val / 4 then 2 else 1) *
    blockMatrix ⟨i.val % 4, Nat.mod_lt _ (by decide)⟩ ⟨j.val % 4, Nat.mod_lt _ (by decide)⟩

/-- `M_I = J + diag(1, ..., t)` -/
def internalMatrix (t : ℕ) : Matrix (Fin t) (Fin t) F :=
  Matrix.of (fun _ _ => 1) + Matrix.diagonal fun i => (i.val + 1 : F)

/-- External round `r`. -/
def externalStep (constant : ℕ → F) (s : Fin t → F) (r : ℕ) : Fin t → F :=
  externalMatrix t *ᵥ fun i => (s i + constant (t * r + i.val)) ^ 5

/-- Internal round `j`. -/
def internalStep [NeZero t] (constant : ℕ → F) (s : Fin t → F) (j : ℕ) : Fin t → F :=
  internalMatrix t *ᵥ Function.update s 0 ((s 0 + constant (t * 8 + j)) ^ 5)

/-- The permutation of width `t` with a table of constants. -/
def poseidon2 [NeZero t] (constant : ℕ → F) (s : Fin t → F) : Fin t → F :=
  [4, 5, 6, 7].foldl (externalStep constant)
    ((List.range 14).foldl (internalStep constant)
      ([0, 1, 2, 3].foldl (externalStep constant) (externalMatrix t *ᵥ s)))

end Vectors

/-! ## Eight cells -/

/-- The cells of a state as a vector. -/
def State.vector {α : Type*} (s : State α) : Fin 8 → α :=
  ![s.s0, s.s1, s.s2, s.s3, s.s4, s.s5, s.s6, s.s7]

theorem State.vector_map {α β : Type*} (f : α → β) (s : State α) (i : Fin 8) :
    (s.map f).vector i = f (s.vector i) := by
  fin_cases i <;> rfl

section Cells

variable {F : Type*} [CommRing F] (constant : ℕ → F) (s : State F)

theorem vector_external : (external s).vector = externalMatrix 8 *ᵥ s.vector := by
  funext i
  fin_cases i <;>
    simp [State.vector, external, externalMatrix, blockMatrix, Matrix.mulVec, dotProduct,
      Fin.sum_univ_eight] <;> ring

theorem vector_internal : (internal s).vector = internalMatrix 8 *ᵥ s.vector := by
  funext i
  fin_cases i <;>
    simp [State.vector, internal, total, internalMatrix, Matrix.mulVec, dotProduct,
      Fin.sum_univ_eight, Matrix.diagonal] <;> ring

theorem vector_fullRound (r : ℕ) :
    (fullRound (State.tabulate constant (8 * r)) s).vector = externalStep constant s.vector r := by
  rw [fullRound, vector_external, externalStep]
  congr 1
  funext i
  fin_cases i <;> rfl

theorem vector_partialRound (j : ℕ) :
    (partialRound (constant (64 + j)) s).vector = internalStep constant s.vector j := by
  rw [partialRound, vector_internal, internalStep]
  congr 1
  funext i
  fin_cases i <;> rfl

theorem vector_firstRounds :
    (roundsFrom constant s 4).vector =
      [0, 1, 2, 3].foldl (externalStep constant) (externalMatrix 8 *ᵥ s.vector) := by
  have step (r : ℕ) (early : r < 4) : (roundsFrom constant s (r + 1)).vector =
      externalStep constant (roundsFrom constant s r).vector r := by
    rw [roundsFrom, round, if_pos early, vector_fullRound]
  have start : (roundsFrom constant s 0).vector = externalMatrix 8 *ᵥ s.vector :=
    vector_external s
  rw [step 3 (by decide), step 2 (by decide), step 1 (by decide), step 0 (by decide), start]
  rfl

theorem vector_middleRounds {count : ℕ} (bounded : count ≤ 14) :
    (roundsFrom constant s (4 + count)).vector =
      (List.range count).foldl (internalStep constant) (roundsFrom constant s 4).vector := by
  induction count with
  | zero => rfl
  | succ count ih =>
      have scheduled : ¬ 4 + count < 4 ∧ 4 + count < 18 ∧ 4 + count - 4 = count := by omega
      rw [List.range_succ, List.foldl_append, List.foldl_cons, List.foldl_nil, ← ih (by omega),
        ← Nat.add_assoc, roundsFrom, round, if_neg scheduled.1, if_pos scheduled.2.1,
        scheduled.2.2, vector_partialRound]

/-- The permutation of a state is the permutation of its vector. -/
theorem vector_permute : (permute constant s).vector = poseidon2 constant s.vector := by
  have step (r : ℕ) (late : 4 ≤ r) : (roundsFrom constant s (14 + r + 1)).vector =
      externalStep constant (roundsFrom constant s (14 + r)).vector r := by
    have scheduled : ¬ 14 + r < 4 ∧ ¬ 14 + r < 18 ∧ 14 + r - 14 = r := by omega
    rw [roundsFrom, round, if_neg scheduled.1, if_neg scheduled.2.1, scheduled.2.2,
      vector_fullRound]
  have middle := vector_middleRounds constant s (le_refl 14)
  rw [vector_firstRounds] at middle
  rw [permute, roundCount, step 7 (by decide), step 6 (by decide), step 5 (by decide),
    step 4 (by decide), middle]
  rfl

end Cells

end Hash
end QLSA
