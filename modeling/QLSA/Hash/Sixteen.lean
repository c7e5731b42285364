import QLSA.Hash.Poseidon2
import Mathlib.Algebra.BigOperators.Fin
import Mathlib.Logic.Equiv.Fin.Basic

namespace QLSA
namespace Hash

open Matrix

/-!
# Sixteen cells

A state of sixteen cells is four blocks of four.  The external matrix mixes
every block by `M4` and adds the sum of the mixed blocks, column by column, to
each of them; the internal one adds the sum of all cells to a multiple of each.
-/

/-- A state of sixteen cells. -/
abbrev Cells (α : Type*) := Vector α 16

namespace Cells

variable {α β : Type*}

def of (f : Fin 16 → α) : Cells α := Vector.ofFn f

@[simp] theorem get_of (f : Fin 16 → α) (i : Fin 16) : (of f).get i = f i := by
  simp only [of, Vector.get, Vector.toArray_ofFn, Array.getElem_ofFn]
  rfl

theorem ext {first second : Cells α} (same : ∀ i, first.get i = second.get i) : first = second := by
  apply Vector.ext
  intro i inside
  exact same ⟨i, inside⟩

end Cells

/-! ## Blocks -/

section Blocks

variable {α : Type*}

/-- The block of a cell, and its column. -/
def blockOf (i : Fin 16) : Fin 4 := ⟨i / 4, by omega⟩

def columnOf (i : Fin 16) : Fin 4 := ⟨i % 4, by omega⟩

/-- Four cells in a row. -/
def block (v : Fin 16 → α) (b : Fin 4) : Quad α :=
  ⟨v ⟨4 * b, by omega⟩, v ⟨4 * b + 1, by omega⟩, v ⟨4 * b + 2, by omega⟩, v ⟨4 * b + 3, by omega⟩⟩

def Quad.cell (q : Quad α) : Fin 4 → α := ![q.w0, q.w1, q.w2, q.w3]

theorem Quad.cell_map {β : Type*} (f : α → β) (q : Quad α) (k : Fin 4) :
    (q.map f).cell k = f (q.cell k) := by
  fin_cases k <;> rfl

theorem Quad.cell_zipWith {β γ : Type*} (f : α → β → γ) (first : Quad α) (second : Quad β)
    (k : Fin 4) : (Quad.zipWith f first second).cell k = f (first.cell k) (second.cell k) := by
  fin_cases k <;> rfl

theorem block_cell (v : Fin 16 → α) (b k : Fin 4) :
    (block v b).cell k = v ⟨4 * b + k, by omega⟩ := by
  fin_cases k <;> rfl

theorem block_all {p : α → Prop} {v : Fin 16 → α} (cells : ∀ i, p (v i)) (b : Fin 4) :
    (block v b).All p :=
  ⟨cells _, cells _, cells _, cells _⟩

end Blocks

/-! ## Layers -/

section Layers

variable {R : Type*} [CommSemiring R]

/-- Every block mixed, and the mixed blocks added to it. -/
def externalBlocks (v : Fin 16 → R) : Fin 16 → R := fun i =>
  (mix4 (block v (blockOf i))).cell (columnOf i) + ∑ b, (mix4 (block v b)).cell (columnOf i)

/-- The sum of all cells, and a multiple of each. -/
def internalCells (v : Fin 16 → R) : Fin 16 → R := fun i => (∑ j, v j) + (i.val + 1) * v i

variable {S : Type*} [CommSemiring S] (f : R →+* S)

theorem map_externalBlocks (v : Fin 16 → R) (i : Fin 16) :
    f (externalBlocks v i) = externalBlocks (fun j => f (v j)) i := by
  have mixed (b k : Fin 4) :
      f ((mix4 (block v b)).cell k) = (mix4 (block (fun j => f (v j)) b)).cell k := by
    rw [← Quad.cell_map (f : R → S), map_mix4]
    rfl
  simp only [externalBlocks, map_add, map_sum, mixed]

end Layers

section Matrices

variable {F : Type*} [CommRing F] (v : Fin 16 → F)

theorem internalMatrix_mulVec : internalMatrix 16 *ᵥ v = internalCells v := by
  funext i
  rw [internalMatrix, Matrix.add_mulVec, Pi.add_apply, Matrix.mulVec_diagonal, internalCells]
  simp [Matrix.mulVec, dotProduct]

/-- `M4` is the block matrix. -/
theorem mix4_cell (q : Quad F) (k : Fin 4) :
    (mix4 q).cell k = ∑ j, blockMatrix k j * q.cell j := by
  fin_cases k <;> simp [Quad.cell, mix4, blockMatrix, Fin.sum_univ_four]

/-- A sum over sixteen cells, block by block. -/
theorem sum_blocks (term : Fin 16 → F) :
    ∑ i, term i = ∑ b : Fin 4, ∑ k : Fin 4, term ⟨4 * b + k, by omega⟩ := by
  rw [← (finProdFinEquiv (m := 4) (n := 4)).sum_comp, Fintype.sum_prod_type]
  apply Finset.sum_congr rfl
  intro b _
  apply Finset.sum_congr rfl
  intro k _
  congr 1
  exact Fin.ext (Nat.add_comm _ _)

theorem externalMatrix_mulVec : externalMatrix 16 *ᵥ v = externalBlocks v := by
  funext i
  have own (b k : Fin 4) : externalMatrix 16 i ⟨4 * b + k, by omega⟩ * v ⟨4 * b + k, by omega⟩ =
      (if blockOf i = b then blockMatrix (columnOf i) k * (block v b).cell k else 0) +
        blockMatrix (columnOf i) k * (block v b).cell k := by
    have quotient : (4 * b.val + k.val) / 4 = b.val := by omega
    have remainder : (4 * b.val + k.val) % 4 = k.val := by omega
    have column : (⟨(4 * b.val + k.val) % 4, Nat.mod_lt _ (by decide)⟩ : Fin 4) = k :=
      Fin.ext remainder
    have blocks : i.val / 4 = b.val ↔ blockOf i = b := by
      rw [Fin.ext_iff, blockOf]
    rw [externalMatrix, block_cell]
    simp only [quotient, column, blocks]
    split
    case isTrue => rw [columnOf]; ring
    case isFalse => rw [columnOf]; ring
  rw [Matrix.mulVec, dotProduct, sum_blocks]
  simp only [own, Finset.sum_add_distrib]
  rw [externalBlocks]
  simp only [mix4_cell]
  congr 1
  have selected (b : Fin 4) :
      (∑ k, if blockOf i = b then blockMatrix (columnOf i) k * (block v b).cell k else 0) =
        if blockOf i = b then ∑ k, blockMatrix (columnOf i) k * (block v b).cell k else 0 := by
    split
    case isTrue => rfl
    case isFalse => exact Finset.sum_const_zero
  simp only [selected]
  rw [Finset.sum_ite_eq, if_pos (Finset.mem_univ _)]

end Matrices

end Hash
end QLSA
