import QLSA.Mldsa.NttBatchAir

namespace QLSA
namespace Mldsa

open Machine Mersenne Recursive

/-!
# The traces of the batch builders

Both builders run the loops of a transform over a copy of each polynomial and
write one row for every pass: the two coefficients that the pass reads, what it
computes from them, and the bits of two of these values.  The rows satisfy the
circuits, and they have all that the circuits take from their surroundings: a
pass finds the coefficients that the stage before has left, because no two
passes of a stage share a coefficient.
-/

/-! ## Cells of a row -/

/-- The cast of an `i64` to `u32`. -/
def lowWord (v : ℤ) : ℕ := (v % 2 ^ 32).toNat

/-- A bit of a value. -/
def bitOf (v : ℤ) (kb : ℕ) : ℤ := (lowWord v >>> kb &&& 1 : ℕ)

/-- What `build_trace` writes for a forward butterfly, by column of the polynomial: the inputs, the
product split by `Q`, the outputs with their carries, and the bits of the two parts of the
product. -/
def nttCells (zetaK aIn bIn : ℤ) : ℕ → ℤ :=
  let prod := zetaK * bIn
  let t := prod.tmod Q
  let carryT := prod.tdiv Q
  let sum := aIn + t
  let carryA := if Q ≤ sum then 1 else 0
  let diff := aIn - t
  let carryB := if diff < 0 then 1 else 0
  fun
    | 0 => aIn
    | 1 => bIn
    | 2 => t
    | 3 => carryT
    | 4 => sum - carryA * Q
    | 5 => diff + carryB * Q
    | 6 => carryA
    | 7 => carryB
    | kb + 8 => if kb < nBits then bitOf t kb else bitOf carryT (kb - nBits)

/-- What `build_trace` writes for an inverse butterfly, by column of the polynomial: the inputs, the
reduced difference and sum with their carries, the product of the difference split by `Q`, and the
bits of the two parts of this product. -/
def inttCells (zetaInvK aIn bIn : ℤ) : ℕ → ℤ :=
  let rawDiff := aIn - bIn
  let carryD := if rawDiff < 0 then 1 else 0
  let diff := rawDiff + carryD * Q
  let rawA := aIn + bIn
  let carryA := if Q ≤ rawA then 1 else 0
  let prod := zetaInvK * diff
  let carryB := prod.tdiv Q
  let bOut := prod.tmod Q
  fun
    | 0 => aIn
    | 1 => bIn
    | 2 => diff
    | 3 => carryD
    | 4 => rawA - carryA * Q
    | 5 => carryA
    | 6 => bOut
    | 7 => carryB
    | kb + 8 => if kb < nBits then bitOf bOut kb else bitOf carryB (kb - nBits)

/-! ## The builders -/

/-- What the two builders differ in: the passes with their twiddles, the cells of
a pass, and the columns that are written back to the coefficients. -/
structure BatchBuilder where
  passes : List Butterfly
  zeta : ℕ → ℤ
  cells : ℤ → ℤ → ℤ → ℕ → ℤ
  lower : ℕ
  upper : ℕ

namespace BatchBuilder

variable (builder : BatchBuilder)

/-- The coefficients that a pass writes back. -/
def pair (k : ℕ) (aIn bIn : ℤ) : ℤ × ℤ :=
  (builder.cells (builder.zeta k) aIn bIn builder.lower,
    builder.cells (builder.zeta k) aIn bIn builder.upper)

/-- The state of a polynomial before a row. -/
def stateAt (poly : Coeffs) (row : ℕ) : Coeffs :=
  ((builder.passes.take row).map (Butterfly.update builder.pair)).foldl PairUpdate.run poly

/-- Cells of a polynomial on the row of a pass. -/
def rowOfPass (poly : Coeffs) (row : ℕ) (pass : Butterfly) : ℕ → ℤ :=
  let state := builder.stateAt poly row
  builder.cells (builder.zeta pass.k) (state pass.j) (state (pass.j + pass.len))

/-- The columns of `build_trace`. -/
def columns (polys : List Coeffs) : Columns := fun column row =>
  match builder.passes[row]? with
  | none => 0
  | some pass =>
      match column with
      | 0 => bf (builder.zeta pass.k)
      | i + 1 =>
          match polys[i / colsPerPoly]? with
          | none => 0
          | some poly => bf (builder.rowOfPass poly row pass (i % colsPerPoly))

/-- The states that `build_trace` ends in. -/
def states (polys : List Coeffs) : List Coeffs :=
  polys.map fun poly => builder.stateAt poly builder.passes.length

end BatchBuilder

def nttBuilder : BatchBuilder := ⟨nttButterflies, zetaFwd, nttCells, 4, 5⟩

def inttBuilder : BatchBuilder := ⟨nttInvButterflies, zetaInv, inttCells, 4, 6⟩

/-- `build_trace` of the forward circuit: columns and outputs. -/
def nttBuildTrace (polys : List Coeffs) : Columns × List Coeffs :=
  (nttBuilder.columns polys, nttBuilder.states polys)

/-- `build_trace` of the inverse circuit: columns and scaled outputs. -/
def inttBuildTrace (polys : List Coeffs) : Columns × List Coeffs :=
  (inttBuilder.columns polys,
    (inttBuilder.states polys).map fun state c => mul (state c) N_INV)

/-! ## Values as field elements -/

theorem lowWord_of_nonneg {v : ℤ} (nonneg : 0 ≤ v) (small : v < 2 ^ 32) : (lowWord v : ℤ) = v := by
  rw [lowWord, Int.emod_eq_of_lt nonneg small, Int.toNat_of_nonneg nonneg]

theorem bf_eq_lowWord (v : ℤ) : bf v = (lowWord v : ℕ) := by
  have nonneg : 0 ≤ v % 2 ^ 32 := Int.emod_nonneg _ (by decide)
  rw [bf, lowWord, ← Int.cast_natCast, Int.toNat_of_nonneg nonneg]

@[simp] theorem bf_zero : bf 0 = 0 := rfl

@[simp] theorem bf_one : bf 1 = 1 := rfl

theorem bitOf_cases (v : ℤ) (kb : ℕ) : bitOf v kb = 0 ∨ bitOf v kb = 1 := by
  rw [bitOf, Nat.and_one_is_mod]
  rcases Nat.mod_two_eq_zero_or_one (lowWord v >>> kb) with zero | one
  · exact .inl (by rw [zero]; rfl)
  · exact .inr (by rw [one]; rfl)

theorem bf_bitOf (v : ℤ) (kb : ℕ) : bf (bitOf v kb) = (lowWord v / 2 ^ kb % 2 : ℕ) := by
  have range : InRange (bitOf v kb) := by
    rcases bitOf_cases v kb with zero | one
    · rw [zero]
      decide
    · rw [one]
      decide
  rw [bf_eq_cast range, bitOf, Nat.and_one_is_mod, Nat.shiftRight_eq_div_pow, Int.cast_natCast]

/-- The low bits of a number sum up to what they leave of it. -/
theorem bitSum_digits (number n : ℕ) :
    bitSum (fun k => ((number / 2 ^ k % 2 : ℕ) : M31)) n = (number % 2 ^ (n + 1) : ℕ) := by
  induction n with
  | zero => simp [bitSum]
  | succ n ih =>
      rw [bitSum, ih, Nat.mod_pow_succ (k := n + 1)]
      push_cast
      ring

/-- Bits of a reduced value decompose it. -/
theorem decompose_bits {v : ℤ} (range : InRange v) {bits : ℕ → M31}
    (same : ∀ kb < nBits, bits kb = bf (bitOf v kb)) : Vanish (decompose (bf v) bits) := by
  have small : lowWord v < 2 ^ nBits := by
    have word := lowWord_of_nonneg range.1 (range.2.trans (by decide))
    have below : v < 2 ^ nBits := range.2.trans (by decide)
    exact_mod_cast word.trans_lt below
  have sum : bitSum bits (nBits - 1) = bf v := by
    have digits : ∀ n < nBits,
        bitSum bits n = bitSum (fun k => ((lowWord v / 2 ^ k % 2 : ℕ) : M31)) n := by
      intro n bound
      induction n with
      | zero => rw [bitSum, bitSum, same 0 bound, bf_bitOf]
      | succ n ih => rw [bitSum, bitSum, ih (by omega), same (n + 1) bound, bf_bitOf]
    have width : nBits - 1 + 1 = nBits := rfl
    rw [digits _ (by decide), bitSum_digits, width, Nat.mod_eq_of_lt small, bf_eq_lowWord]
  rw [decompose, vanish_cons, sum, sub_self]
  refine ⟨rfl, ?_⟩
  intro value member
  rcases List.mem_map.mp member with ⟨kb, listed, rfl⟩
  rw [same kb (List.mem_range.mp listed)]
  rcases bitOf_cases v kb with zero | one
  · simp [zero]
  · simp [one]

/-- Quotient and remainder of a product of reduced values. -/
theorem product_split {zeta b : ℤ} (zetaRange : InRange zeta) (range : InRange b) :
    InRange ((zeta * b).tmod Q) ∧ InRange ((zeta * b).tdiv Q) ∧
      zeta * b = (zeta * b).tmod Q + (zeta * b).tdiv Q * Q := by
  have nonneg : 0 ≤ zeta * b := mul_nonneg zetaRange.1 range.1
  have positive : 0 < Q := by decide
  have below : zeta * b < Q * Q := mul_lt_mul'' zetaRange.2 range.2 zetaRange.1 range.1
  rw [Int.tmod_eq_emod_of_nonneg nonneg, Int.tdiv_eq_ediv_of_nonneg nonneg]
  refine ⟨emod_inRange _, ⟨Int.ediv_nonneg nonneg positive.le, ?_⟩, ?_⟩
  · exact Int.ediv_lt_of_lt_mul positive below
  · rw [mul_comm (zeta * b / Q)]
    exact (Int.emod_add_mul_ediv (zeta * b) Q).symm

theorem bit_inRange {v : ℤ} (bit : v = 0 ∨ v = 1) : InRange v := by
  rcases bit with rfl | rfl
  · decide
  · decide

theorem bf_bit {v : ℤ} (bit : v = 0 ∨ v = 1) : bf v * bf v - bf v = 0 := by
  rcases bit with rfl | rfl
  · simp
  · simp

/-- A sum that gives up its carry. -/
theorem sum_carried (a b : ℤ) : a + b - (if Q ≤ a + b then 1 else 0) * Q = add a b := by
  rw [add]
  split
  case isTrue => rw [one_mul]
  case isFalse => rw [zero_mul, sub_zero]

/-- A difference that gets back what it borrowed. -/
theorem difference_carried (a b : ℤ) : a - b + (if a - b < 0 then 1 else 0) * Q = sub a b := by
  rw [sub]
  split
  case isTrue => rw [one_mul]
  case isFalse => rw [zero_mul, add_zero]

theorem cast_modulus : ((Q : ℤ) : M31) = 8380417 := by
  simp [Q]

/-- The first group of bit columns. -/
theorem lowBits_eq {cells : ℕ → ℤ} {v : ℤ}
    (own : ∀ kb, kb < nBits → cells (kb + 8) = bitOf v kb) :
    ∀ kb < nBits, bf (cells (8 + kb)) = bf (bitOf v kb) := by
  intro kb bound
  rw [Nat.add_comm, own kb bound]

/-- The second group of bit columns. -/
theorem highBits_eq {cells : ℕ → ℤ} {v : ℤ}
    (own : ∀ kb, ¬ kb < nBits → cells (kb + 8) = bitOf v (kb - nBits)) :
    ∀ kb < nBits, bf (cells (8 + nBits + kb)) = bf (bitOf v kb) := by
  intro kb _
  have shift : 8 + nBits + kb = nBits + kb + 8 := by omega
  rw [shift, own _ (by omega), Nat.add_sub_cancel_left]

/-- What is known of the cells of a forward butterfly. -/
structure NttCellFacts (zetaK aIn bIn : ℤ) : Prop where
  pair : (nttCells zetaK aIn bIn 4, nttCells zetaK aIn bIn 5) = nttPair zetaK aIn bIn
  product : zetaK * bIn = nttCells zetaK aIn bIn 2 + nttCells zetaK aIn bIn 3 * Q
  carryA : nttCells zetaK aIn bIn 6 = 0 ∨ nttCells zetaK aIn bIn 6 = 1
  carryB : nttCells zetaK aIn bIn 7 = 0 ∨ nttCells zetaK aIn bIn 7 = 1
  range : ∀ i < 8, InRange (nttCells zetaK aIn bIn i)

/-- What is known of the cells of an inverse butterfly. -/
structure InttCellFacts (zetaInvK aIn bIn : ℤ) : Prop where
  pair : (inttCells zetaInvK aIn bIn 4, inttCells zetaInvK aIn bIn 6) = nttInvPair zetaInvK aIn bIn
  product : zetaInvK * inttCells zetaInvK aIn bIn 2 =
    inttCells zetaInvK aIn bIn 6 + inttCells zetaInvK aIn bIn 7 * Q
  carryD : inttCells zetaInvK aIn bIn 3 = 0 ∨ inttCells zetaInvK aIn bIn 3 = 1
  carryA : inttCells zetaInvK aIn bIn 5 = 0 ∨ inttCells zetaInvK aIn bIn 5 = 1
  range : ∀ i < 8, InRange (inttCells zetaInvK aIn bIn i)

section Cells

variable {zeta aIn bIn : ℤ} (zetaRange : InRange zeta) (first : InRange aIn)
  (second : InRange bIn)
include zetaRange first second

theorem nttCells_facts : NttCellFacts zeta aIn bIn := by
  rcases product_split zetaRange second with ⟨remainder, quotient, split⟩
  have carryA : nttCells zeta aIn bIn 6 = 0 ∨ nttCells zeta aIn bIn 6 = 1 :=
    (ite_eq_or_eq _ _ _).symm
  have carryB : nttCells zeta aIn bIn 7 = 0 ∨ nttCells zeta aIn bIn 7 = 1 :=
    (ite_eq_or_eq _ _ _).symm
  have pair : (nttCells zeta aIn bIn 4, nttCells zeta aIn bIn 5) = nttPair zeta aIn bIn := by
    have sum : nttCells zeta aIn bIn 4 = add aIn (mul zeta bIn) := sum_carried _ _
    have difference : nttCells zeta aIn bIn 5 = sub aIn (mul zeta bIn) := difference_carried _ _
    rw [sum, difference]
    rfl
  have outputs := pair.trans (nttPair_eq zetaRange first second)
  rw [Prod.mk.injEq] at outputs
  refine ⟨pair, split, carryA, carryB, ?_⟩
  intro i bound
  match i, bound with
  | 0, _ => exact first
  | 1, _ => exact second
  | 2, _ => exact remainder
  | 3, _ => exact quotient
  | 4, _ => exact outputs.1 ▸ emod_inRange _
  | 5, _ => exact outputs.2 ▸ emod_inRange _
  | 6, _ => exact bit_inRange carryA
  | 7, _ => exact bit_inRange carryB

theorem inttCells_facts : InttCellFacts zeta aIn bIn := by
  have difference : inttCells zeta aIn bIn 2 = sub aIn bIn := difference_carried _ _
  have reduced : InRange (inttCells zeta aIn bIn 2) := by
    rw [difference, sub_eq_emod first second]
    exact emod_inRange _
  rcases product_split zetaRange reduced with ⟨remainder, quotient, split⟩
  have carryD : inttCells zeta aIn bIn 3 = 0 ∨ inttCells zeta aIn bIn 3 = 1 :=
    (ite_eq_or_eq _ _ _).symm
  have carryA : inttCells zeta aIn bIn 5 = 0 ∨ inttCells zeta aIn bIn 5 = 1 :=
    (ite_eq_or_eq _ _ _).symm
  have sum : inttCells zeta aIn bIn 4 = add aIn bIn := sum_carried _ _
  have pair : (inttCells zeta aIn bIn 4, inttCells zeta aIn bIn 6) =
      nttInvPair zeta aIn bIn := by
    have product : inttCells zeta aIn bIn 6 = mul zeta (inttCells zeta aIn bIn 2) := rfl
    rw [sum, product, difference]
    rfl
  refine ⟨pair, split, carryD, carryA, ?_⟩
  intro i bound
  match i, bound with
  | 0, _ => exact first
  | 1, _ => exact second
  | 2, _ => exact reduced
  | 3, _ => exact bit_inRange carryD
  | 4, _ => exact sum ▸ add_eq_emod first second ▸ emod_inRange _
  | 5, _ => exact bit_inRange carryA
  | 6, _ => exact remainder
  | 7, _ => exact quotient

/-- The row of a forward butterfly satisfies the circuit. -/
theorem nttCells_vanish :
    Vanish (nttConstraints (bf zeta) (.ofCells fun i => bf (nttCells zeta aIn bIn i))) := by
  have facts := nttCells_facts zetaRange first second
  have value {i : ℕ} (bound : i < 8) := bf_eq_cast (facts.range i bound)
  have tBits := decompose_bits (facts.range 2 (by decide))
    (@lowBits_eq (nttCells zeta aIn bIn) _ fun _ bound => if_pos bound)
  have ctBits := decompose_bits (facts.range 3 (by decide))
    (@highBits_eq (nttCells zeta aIn bIn) _ fun _ past => if_neg past)
  have product := congrArg (Int.cast : ℤ → M31) facts.product
  have sum := congrArg (Int.cast : ℤ → M31)
    (show nttCells zeta aIn bIn 4 = nttCells zeta aIn bIn 0 + nttCells zeta aIn bIn 2 -
      nttCells zeta aIn bIn 6 * Q from rfl)
  have difference := congrArg (Int.cast : ℤ → M31)
    (show nttCells zeta aIn bIn 5 = nttCells zeta aIn bIn 0 - nttCells zeta aIn bIn 2 +
      nttCells zeta aIn bIn 7 * Q from rfl)
  push_cast [cast_modulus] at product sum difference
  simp only [nttConstraints, NttColumns.ofCells, vanish_append, vanish_cons, vanish_nil, and_true]
  refine ⟨⟨⟨?_, ?_, bf_bit facts.carryA, ?_, bf_bit facts.carryB⟩, tBits⟩, ctBits⟩
  · rw [bf_eq_cast zetaRange, value (by decide : 1 < 8), value (by decide : 2 < 8),
      value (by decide : 3 < 8)]
    exact sub_eq_zero.mpr (by rw [sub_eq_iff_eq_add, add_comm]; exact product)
  · rw [value (by decide : 0 < 8), value (by decide : 2 < 8), value (by decide : 4 < 8),
      value (by decide : 6 < 8), sum]
    ring
  · rw [value (by decide : 0 < 8), value (by decide : 2 < 8), value (by decide : 5 < 8),
      value (by decide : 7 < 8), difference]
    ring

/-- The row of an inverse butterfly satisfies the circuit. -/
theorem inttCells_vanish :
    Vanish (inttConstraints (bf zeta) (.ofCells fun i => bf (inttCells zeta aIn bIn i))) := by
  have facts := inttCells_facts zetaRange first second
  have value {i : ℕ} (bound : i < 8) := bf_eq_cast (facts.range i bound)
  have boBits := decompose_bits (facts.range 6 (by decide))
    (@lowBits_eq (inttCells zeta aIn bIn) _ fun _ bound => if_pos bound)
  have cbBits := decompose_bits (facts.range 7 (by decide))
    (@highBits_eq (inttCells zeta aIn bIn) _ fun _ past => if_neg past)
  have product := congrArg (Int.cast : ℤ → M31) facts.product
  have difference := congrArg (Int.cast : ℤ → M31)
    (show inttCells zeta aIn bIn 2 = inttCells zeta aIn bIn 0 - inttCells zeta aIn bIn 1 +
      inttCells zeta aIn bIn 3 * Q from rfl)
  have sum := congrArg (Int.cast : ℤ → M31)
    (show inttCells zeta aIn bIn 4 = inttCells zeta aIn bIn 0 + inttCells zeta aIn bIn 1 -
      inttCells zeta aIn bIn 5 * Q from rfl)
  push_cast [cast_modulus] at product sum difference
  simp only [inttConstraints, InttColumns.ofCells, vanish_append, vanish_cons, vanish_nil, and_true]
  refine ⟨⟨⟨?_, bf_bit facts.carryD, ?_, bf_bit facts.carryA, ?_⟩, boBits⟩, cbBits⟩
  · rw [value (by decide : 0 < 8), value (by decide : 1 < 8), value (by decide : 2 < 8),
      value (by decide : 3 < 8), difference]
    ring
  · rw [value (by decide : 0 < 8), value (by decide : 1 < 8), value (by decide : 4 < 8),
      value (by decide : 5 < 8), sum]
    ring
  · rw [bf_eq_cast zetaRange, value (by decide : 2 < 8), value (by decide : 6 < 8),
      value (by decide : 7 < 8)]
    exact sub_eq_zero.mpr (by rw [sub_eq_iff_eq_add, add_comm]; exact product)

end Cells

/-! ## Rows of a stage -/

section Stages

variable {builder : BatchBuilder} {lenOf : ℕ → ℕ}

/-- What makes a builder one of a transform: its passes are the stages in order, and
its pairs keep representatives. -/
structure BatchBuilder.Staged (builder : BatchBuilder) (lenOf : ℕ → ℕ) : Prop where
  inputs : ∀ zeta aIn bIn, builder.cells zeta aIn bIn 0 = aIn ∧ builder.cells zeta aIn bIn 1 = bIn
  outputs : builder.lower < colsPerPoly ∧ builder.upper < colsPerPoly
  twiddles : ∀ k, InRange (builder.zeta k)
  rows : builder.passes = (List.range nButterflies).map fun row =>
    passOf (lenOf (row / 128)) (row % 128)
  valid : ∀ s < 8, StageLen (lenOf s)
  keeps : KeepsRange builder.pair

/-- The passes of a stage, in the order of their rows. -/
theorem stage_rows {len : ℕ} (valid : StageLen len) :
    (List.range 128).map (passOf len) = stageButterflies len := by
  have all : ∀ len ∈ [1, 2, 4, 8, 16, 32, 64, 128],
      (List.range 128).map (passOf len) = stageButterflies len := by
    decide +kernel
  exact all len valid

theorem BatchBuilder.Staged.length_passes {builder : BatchBuilder} {lenOf : ℕ → ℕ}
    (staged : builder.Staged lenOf) : builder.passes.length = 128 * (7 + 1) := by
  rw [staged.rows, List.length_map, List.length_range, nButterflies]

/-- The coefficients of a pass. -/
theorem passOf_inside {len r : ℕ} (valid : StageLen len) (within : r < 128) :
    (passOf len r).j < N ∧ (passOf len r).j + (passOf len r).len < N := by
  simp only [StageLen, List.mem_cons, List.not_mem_nil, or_false] at valid
  simp only [passOf, N]
  rcases valid with rfl | rfl | rfl | rfl | rfl | rfl | rfl | rfl
  all_goals omega

variable (staged : builder.Staged lenOf)
include staged

theorem BatchBuilder.Staged.row {row : ℕ} (inside : row < nButterflies) :
    builder.passes[row]? = some (passOf (lenOf (row / 128)) (row % 128)) := by
  rw [staged.rows, List.getElem?_map, List.getElem?_range inside, Option.map_some]

/-- The rows up to one of a stage are the stages before and the first passes of this one. -/
theorem BatchBuilder.Staged.take {s r : ℕ} (bound : s < 8) (within : r ≤ 128) :
    builder.passes.take (128 * s + r) =
      builder.passes.take (128 * s) ++ (stageButterflies (lenOf s)).take r := by
  rw [List.take_add]
  congr 1
  apply List.ext_getElem?
  intro i
  rw [List.getElem?_take, List.getElem?_drop, ← stage_rows (staged.valid s bound)]
  by_cases early : i < r
  · have inside : 128 * s + i < nButterflies := by
      simp only [nButterflies]
      omega
    have stage : (128 * s + i) / 128 = s := by omega
    have place : (128 * s + i) % 128 = i := by omega
    rw [if_pos early, staged.row inside, stage, place, List.getElem?_take, if_pos early,
      List.getElem?_map, List.getElem?_range (by omega), Option.map_some]
  · rw [if_neg early, List.getElem?_take, if_neg early]

theorem BatchBuilder.Staged.stateAt_row {poly : Coeffs} {s r : ℕ} (bound : s < 8)
    (within : r ≤ 128) :
    builder.stateAt poly (128 * s + r) =
      (((stageButterflies (lenOf s)).map (Butterfly.update builder.pair)).take r).foldl
        PairUpdate.run (builder.stateAt poly (128 * s)) := by
  simp only [BatchBuilder.stateAt, staged.take bound within, List.map_append, List.foldl_append,
    List.map_take]

/-- After a stage the state is what the stage makes of the state before it. -/
theorem BatchBuilder.Staged.stateAt_stage {poly : Coeffs} {s : ℕ} (bound : s < 8) :
    Agree (builder.stateAt poly (128 * (s + 1)))
      (stage builder.pair (lenOf s) (builder.stateAt poly (128 * s))) := by
  intro c inside
  have valid := staged.valid s bound
  have all : ((stageButterflies (lenOf s)).map (Butterfly.update builder.pair)).length ≤ 128 := by
    rw [← stage_rows valid, List.length_map, List.length_map, List.length_range]
  rw [Nat.mul_succ, staged.stateAt_row bound le_rfl, List.take_of_length_le all]
  exact foldl_stage builder.pair valid _ inside

theorem BatchBuilder.Staged.reduced {poly : Coeffs} (start : Reduced poly) {s : ℕ} (bound : s ≤ 8) :
    Reduced (builder.stateAt poly (128 * s)) := by
  induction s with
  | zero => exact start
  | succ s ih =>
      intro c inside
      rw [staged.stateAt_stage bound c inside]
      exact (ih (by omega)).stage staged.keeps (staged.valid s bound) c inside

/-- A pass finds what the stage before has left. -/
theorem BatchBuilder.Staged.found {poly : Coeffs} {s r : ℕ} (bound : s < 8) (within : r < 128)
    {c : ℕ} (own : c ∈ [(passOf (lenOf s) r).j, (passOf (lenOf s) r).j + (passOf (lenOf s) r).len]) :
    builder.stateAt poly (128 * s + r) c = builder.stateAt poly (128 * s) c := by
  have valid := staged.valid s bound
  have turn : ((stageButterflies (lenOf s)).map (Butterfly.update builder.pair))[r]? =
      some ((passOf (lenOf s) r).update builder.pair) := by
    rw [← stage_rows valid, List.getElem?_map, List.getElem?_map, List.getElem?_range within]
    rfl
  rw [staged.stateAt_row bound within.le]
  exact PairUpdate.foldl_take_run (stage_disjoint builder.pair valid) turn own

end Stages

/-! ## Columns of a trace -/

/-- The constraints read no bit beyond the columns of their polynomial. -/
theorem decompose_congr {F : Type*} [CommRing F] {value : F} {bits others : ℕ → F}
    (same : ∀ kb < nBits, bits kb = others kb) : decompose value bits = decompose value others := by
  have sums : ∀ n < nBits, bitSum bits n = bitSum others n := by
    intro n bound
    induction n with
    | zero => exact same 0 bound
    | succ n ih => rw [bitSum, bitSum, ih (by omega), same (n + 1) bound]
  rw [decompose, decompose, sums _ (by decide)]
  congr 1
  apply List.map_congr_left
  intro kb listed
  rw [same kb (List.mem_range.mp listed)]

section Congruence

variable {F : Type*} [CommRing F] {zeta : F} {cells others : ℕ → F}
  (same : ∀ i < colsPerPoly, cells i = others i)
include same

theorem lowBits_congr (value : F) :
    decompose value (fun kb => cells (8 + kb)) = decompose value fun kb => others (8 + kb) :=
  decompose_congr fun kb bound => same (8 + kb) (by simp only [colsPerPoly, nBits] at *; omega)

theorem highBits_congr (value : F) :
    decompose value (fun kb => cells (8 + nBits + kb)) =
      decompose value fun kb => others (8 + nBits + kb) :=
  decompose_congr fun kb bound => same (8 + nBits + kb) (by
    simp only [colsPerPoly, nBits] at *
    omega)

theorem nttConstraints_congr :
    nttConstraints zeta (.ofCells cells) = nttConstraints zeta (.ofCells others) := by
  have column {i : ℕ} (bound : i < 8) := same i (bound.trans (by decide))
  simp only [nttConstraints, NttColumns.ofCells, column (by decide : 0 < 8),
    column (by decide : 1 < 8), column (by decide : 2 < 8), column (by decide : 3 < 8),
    column (by decide : 4 < 8), column (by decide : 5 < 8), column (by decide : 6 < 8),
    column (by decide : 7 < 8), lowBits_congr same, highBits_congr same]

theorem inttConstraints_congr :
    inttConstraints zeta (.ofCells cells) = inttConstraints zeta (.ofCells others) := by
  have column {i : ℕ} (bound : i < 8) := same i (bound.trans (by decide))
  simp only [inttConstraints, InttColumns.ofCells, column (by decide : 0 < 8),
    column (by decide : 1 < 8), column (by decide : 2 < 8), column (by decide : 3 < 8),
    column (by decide : 4 < 8), column (by decide : 5 < 8), column (by decide : 6 < 8),
    column (by decide : 7 < 8), lowBits_congr same, highBits_congr same]

end Congruence

/-- Columns that hold an array at the rows of the lower coefficients. -/
theorem coefficients_agree {lower upper : ℕ → M31} {s len : ℕ} {g : Coeffs} (valid : StageLen len)
    (bound : s < 8) (rows : ∀ c < N, c % (2 * len) < len →
      word (lower (rowOf s len c)) = g c ∧ word (upper (rowOf s len c)) = g (c + len)) :
    Agree (coefficients lower upper s len) g := by
  intro c inside
  by_cases half : c % (2 * len) < len
  · rw [(coefficients_pair valid bound inside half).1]
    exact (rows c inside half).1
  · rcases (rowFacts valid bound inside).lower half with ⟨-, below, -⟩
    have partner : c - len + len = c := by
      apply Nat.sub_add_cancel
      exact (Nat.le_of_not_lt half).trans (Nat.mod_le _ _)
    have before : c - len < N := (Nat.sub_le c len).trans_lt inside
    rw [← partner, (coefficients_pair valid bound before below).2]
    exact (rows _ before below).2

section Trace

variable {builder : BatchBuilder} {lenOf : ℕ → ℕ} (staged : builder.Staged lenOf)
  {polys : List Coeffs} {j : ℕ} {poly : Coeffs}
include staged

/-- The twiddle column holds the twiddles of the passes. -/
theorem BatchBuilder.Staged.twiddle {row : ℕ} (inside : row < nButterflies) :
    builder.columns polys 0 row =
      bf (builder.zeta (passOf (lenOf (row / 128)) (row % 128)).k) := by
  simp only [BatchBuilder.columns, staged.row inside]

variable (found : polys[j]? = some poly)
include found

/-- Cells of a polynomial on a row: those of the pass on the coefficients that the
stage before has left. -/
theorem BatchBuilder.Staged.cells {s r : ℕ} (bound : s < 8) (within : r < 128) {i : ℕ}
    (column : i < colsPerPoly) :
    builder.columns polys (polyBase j + i) (128 * s + r) =
      bf (builder.cells (builder.zeta (passOf (lenOf s) r).k)
        (builder.stateAt poly (128 * s) (passOf (lenOf s) r).j)
        (builder.stateAt poly (128 * s) ((passOf (lenOf s) r).j + (passOf (lenOf s) r).len)) i) := by
  have inside : 128 * s + r < nButterflies := by
    simp only [nButterflies]
    omega
  have stage : (128 * s + r) / 128 = s := by omega
  have turn : (128 * s + r) % 128 = r := by omega
  have number : polyBase j + i = j * colsPerPoly + i + 1 := by
    rw [polyBase]
    omega
  have block : (j * colsPerPoly + i) / colsPerPoly = j := by
    simp only [colsPerPoly, nBits] at *
    omega
  have offset : (j * colsPerPoly + i) % colsPerPoly = i := by
    simp only [colsPerPoly, nBits] at *
    omega
  rw [number]
  simp only [BatchBuilder.columns, staged.row inside, stage, turn, block, offset, found,
    BatchBuilder.rowOfPass]
  rw [staged.found bound within (by simp), staged.found bound within (by simp)]

variable (start : Reduced poly)
include start

/-- The pass on a lower coefficient finds representatives, and its row holds them. -/
theorem BatchBuilder.Staged.lower_row {s c : ℕ} (bound : s < 8) (inside : c < N)
    (half : c % (2 * lenOf s) < lenOf s) :
    ∃ k, k = 128 / lenOf s + c / (2 * lenOf s) ∧
      InRange (builder.stateAt poly (128 * s) c) ∧
      InRange (builder.stateAt poly (128 * s) (c + lenOf s)) ∧
      builder.columns polys 0 (rowOf s (lenOf s) c) = bf (builder.zeta k) ∧
      ∀ i < colsPerPoly, builder.columns polys (polyBase j + i) (rowOf s (lenOf s) c) =
        bf (builder.cells (builder.zeta k) (builder.stateAt poly (128 * s) c)
          (builder.stateAt poly (128 * s) (c + lenOf s)) i) := by
  have valid := staged.valid s bound
  have reduced := staged.reduced start bound.le
  have facts := rowFacts valid bound inside
  have within : rowOf s (lenOf s) c % 128 < 128 := Nat.mod_lt _ (by decide)
  have place : 128 * s + rowOf s (lenOf s) c % 128 = rowOf s (lenOf s) c := by
    have digits := Nat.div_add_mod (rowOf s (lenOf s) c) 128
    rwa [facts.stage] at digits
  have twiddle := @BatchBuilder.Staged.twiddle _ _ staged polys _ facts.inside
  rw [facts.stage, facts.k] at twiddle
  refine ⟨_, rfl, reduced c inside, reduced _ (valid.upper_lt inside half), twiddle, ?_⟩
  intro i column
  have cell := staged.cells found bound within column
  rw [place, facts.k, facts.j half] at cell
  exact cell

/-- The input columns of a stage hold the state before it. -/
theorem BatchBuilder.Staged.inputs_agree {s : ℕ} (bound : s < 8) :
    Agree (coefficients (builder.columns polys (polyBase j + 0))
      (builder.columns polys (polyBase j + 1)) s (lenOf s)) (builder.stateAt poly (128 * s)) := by
  apply coefficients_agree (staged.valid s bound) bound
  intro c inside half
  rcases staged.lower_row found start bound inside half with
    ⟨k, -, lower, upper, -, cells⟩
  have reads := staged.inputs (builder.zeta k) (builder.stateAt poly (128 * s) c)
    (builder.stateAt poly (128 * s) (c + lenOf s))
  rw [cells 0 (by decide), cells 1 (by decide), reads.1, reads.2, word_bf lower, word_bf upper]
  exact ⟨rfl, rfl⟩

/-- The output columns of a stage hold the state after it. -/
theorem BatchBuilder.Staged.outputs_agree {s : ℕ} (bound : s < 8) :
    Agree (coefficients (builder.columns polys (polyBase j + builder.lower))
      (builder.columns polys (polyBase j + builder.upper)) s (lenOf s))
      (builder.stateAt poly (128 * (s + 1))) := by
  have valid := staged.valid s bound
  have inputs := staged.inputs_agree found start bound
  have outputs := @coefficients_stage builder.pair (builder.columns polys (polyBase j + 0))
    (builder.columns polys (polyBase j + 1)) (builder.columns polys (polyBase j + builder.lower))
    (builder.columns polys (polyBase j + builder.upper)) s (lenOf s) valid bound (by
      intro c inside half
      rcases staged.lower_row found start bound inside half with
        ⟨k, rfl, lower, upper, -, cells⟩
      rcases staged.keeps _ _ _ lower upper with ⟨first, second⟩
      rcases coefficients_pair valid bound inside half with ⟨own, partner⟩
      rw [cells _ staged.outputs.1, cells _ staged.outputs.2, ← own, inputs c inside, ← partner,
        inputs _ (valid.upper_lt inside half)]
      exact Prod.ext (word_bf first) (word_bf second))
  intro c inside
  rw [outputs c inside, inputs.stage valid c inside, staged.stateAt_stage bound c inside]

/-- A row holds the cells of a butterfly of representatives. -/
theorem BatchBuilder.Staged.row_cells {row : ℕ} (inside : row < nButterflies) :
    ∃ k aIn bIn, InRange aIn ∧ InRange bIn ∧ builder.columns polys 0 row = bf (builder.zeta k) ∧
      ∀ i < colsPerPoly, builder.columns polys (polyBase j + i) row =
        bf (builder.cells (builder.zeta k) aIn bIn i) := by
  have bound : row / 128 < 8 := Nat.div_lt_of_lt_mul inside
  have within : row % 128 < 128 := Nat.mod_lt _ (by decide)
  have reduced := staged.reduced start bound.le
  rcases passOf_inside (staged.valid _ bound) within with ⟨lower, upper⟩
  refine ⟨_, _, _, reduced _ lower, reduced _ upper, staged.twiddle inside, ?_⟩
  intro i column
  have cell := staged.cells found bound within column
  rwa [Nat.div_add_mod] at cell

end Trace

/-! ## The traces satisfy the circuits -/

theorem nttBuilder_staged : nttBuilder.Staged nttLen where
  inputs := fun _ _ _ => ⟨rfl, rfl⟩
  outputs := by decide
  twiddles := fun k => (zetaFwd_spec k).1
  rows := nttButterflies_rows
  valid := nttLen_valid
  keeps := by
    intro k a b first second
    have facts := nttCells_facts (zetaFwd_spec k).1 first second
    exact ⟨facts.range 4 (by decide), facts.range 5 (by decide)⟩

theorem inttBuilder_staged : inttBuilder.Staged nttInvLen where
  inputs := fun _ _ _ => ⟨rfl, rfl⟩
  outputs := by decide
  twiddles := fun k => (zetaInv_spec k).1
  rows := nttInvButterflies_rows
  valid := nttInvLen_valid
  keeps := by
    intro k a b first second
    have facts := inttCells_facts (zetaInv_spec k).1 first second
    exact ⟨facts.range 4 (by decide), facts.range 6 (by decide)⟩

section Built

variable {polys : List Coeffs} (reduced : ∀ poly ∈ polys, Reduced poly)
include reduced

/-- Rows of the forward builder. -/
theorem nttBuildTrace_row {j row : ℕ} (inBatch : j < polys.length) (inside : row < nButterflies) :
    ∃ zeta aIn bIn, InRange zeta ∧ NttCellFacts zeta aIn bIn ∧
      (nttBuildTrace polys).1 0 row = bf zeta ∧
      Vanish (nttConstraints (bf zeta) (nttColumns (nttBuildTrace polys).1 j row)) ∧
      ∀ i < colsPerPoly, (nttBuildTrace polys).1 (polyBase j + i) row =
        bf (nttCells zeta aIn bIn i) := by
  have found := List.getElem?_eq_getElem inBatch
  rcases nttBuilder_staged.row_cells found (reduced _ (List.getElem_mem inBatch)) inside with
    ⟨k, aIn, bIn, first, second, twiddle, written⟩
  have cells : ∀ i < colsPerPoly, (nttBuildTrace polys).1 (polyBase j + i) row =
      bf (nttCells (zetaFwd k) aIn bIn i) := written
  have range := (zetaFwd_spec k).1
  refine ⟨_, aIn, bIn, range, nttCells_facts range first second, twiddle, ?_, cells⟩
  rw [nttColumns, nttConstraints_congr cells]
  exact nttCells_vanish range first second

theorem nttBuildTrace_satisfies : NttSatisfies polys.length (nttBuildTrace polys).1 := by
  intro row inside value member
  rcases List.mem_flatMap.mp member with ⟨j, listed, own⟩
  rcases nttBuildTrace_row reduced (List.mem_range.mp listed) inside with
    ⟨zeta, aIn, bIn, -, -, twiddle, vanish, -⟩
  rw [twiddle] at own
  exact vanish value own

theorem nttBuildTrace_surroundings : NttSurroundings polys.length (nttBuildTrace polys).1 where
  twiddles := by
    intro row pass found
    have inside : row < nButterflies := by
      by_contra outside
      rw [nttButterflies_rows, List.getElem?_eq_none (by simpa using outside)] at found
      cases found
    have own := @BatchBuilder.Staged.twiddle _ _ nttBuilder_staged polys _ inside
    rw [pass_eq nttButterflies_rows found] at own
    exact (congrArg word own).trans (word_bf (zetaFwd_spec _).1)
  wired := by
    intro j inBatch s bound c inside
    have found := List.getElem?_eq_getElem inBatch
    have start := reduced _ (List.getElem_mem inBatch)
    have inputs := nttBuilder_staged.inputs_agree found start (Nat.succ_lt_succ bound) c inside
    have outputs := nttBuilder_staged.outputs_agree found start (bound.trans (by decide)) c inside
    exact inputs.trans outputs.symm
  reduced := by
    intro j inBatch row inside
    rcases nttBuildTrace_row reduced inBatch inside with
      ⟨zeta, aIn, bIn, -, facts, -, -, cells⟩
    have aOut := cells 4 (by decide)
    have bOut := cells 5 (by decide)
    have first := facts.range 4 (by decide)
    have second := facts.range 5 (by decide)
    simp only [nttColumns, NttColumns.ofCells, aOut, bOut, word_bf first, word_bf second]
    exact ⟨first, second⟩
  exact := by
    intro j inBatch row inside
    rcases nttBuildTrace_row reduced inBatch inside with
      ⟨zeta, aIn, bIn, range, facts, twiddle, -, cells⟩
    have bIn' := cells 1 (by decide)
    have t := cells 2 (by decide)
    have carryT := cells 3 (by decide)
    simp only [nttColumns, NttColumns.ofCells, bIn', t, carryT, twiddle, word_bf range,
      word_bf (facts.range 1 (by decide)), word_bf (facts.range 2 (by decide)),
      word_bf (facts.range 3 (by decide))]
    exact facts.product

/-- Rows of the inverse builder. -/
theorem inttBuildTrace_row {j row : ℕ} (inBatch : j < polys.length) (inside : row < nButterflies) :
    ∃ zeta aIn bIn, InRange zeta ∧ InttCellFacts zeta aIn bIn ∧
      (inttBuildTrace polys).1 0 row = bf zeta ∧
      Vanish (inttConstraints (bf zeta) (inttColumns (inttBuildTrace polys).1 j row)) ∧
      ∀ i < colsPerPoly, (inttBuildTrace polys).1 (polyBase j + i) row =
        bf (inttCells zeta aIn bIn i) := by
  have found := List.getElem?_eq_getElem inBatch
  rcases inttBuilder_staged.row_cells found (reduced _ (List.getElem_mem inBatch)) inside with
    ⟨k, aIn, bIn, first, second, twiddle, written⟩
  have cells : ∀ i < colsPerPoly, (inttBuildTrace polys).1 (polyBase j + i) row =
      bf (inttCells (zetaInv k) aIn bIn i) := written
  have range := (zetaInv_spec k).1
  refine ⟨_, aIn, bIn, range, inttCells_facts range first second, twiddle, ?_, cells⟩
  rw [inttColumns, inttConstraints_congr cells]
  exact inttCells_vanish range first second

theorem inttBuildTrace_satisfies : InttSatisfies polys.length (inttBuildTrace polys).1 := by
  intro row inside value member
  rcases List.mem_flatMap.mp member with ⟨j, listed, own⟩
  rcases inttBuildTrace_row reduced (List.mem_range.mp listed) inside with
    ⟨zeta, aIn, bIn, -, -, twiddle, vanish, -⟩
  rw [twiddle] at own
  exact vanish value own

theorem inttBuildTrace_surroundings :
    InttSurroundings polys.length (inttBuildTrace polys).1 where
  twiddles := by
    intro row pass found
    have inside : row < nButterflies := by
      by_contra outside
      rw [nttInvButterflies_rows, List.getElem?_eq_none (by simpa using outside)] at found
      cases found
    have own := @BatchBuilder.Staged.twiddle _ _ inttBuilder_staged polys _ inside
    rw [pass_eq nttInvButterflies_rows found] at own
    exact (congrArg word own).trans (word_bf (zetaInv_spec _).1)
  wired := by
    intro j inBatch s bound c inside
    have found := List.getElem?_eq_getElem inBatch
    have start := reduced _ (List.getElem_mem inBatch)
    have inputs := inttBuilder_staged.inputs_agree found start (Nat.succ_lt_succ bound) c inside
    have outputs := inttBuilder_staged.outputs_agree found start (bound.trans (by decide)) c inside
    exact inputs.trans outputs.symm
  reduced := by
    intro j inBatch row inside
    rcases inttBuildTrace_row reduced inBatch inside with
      ⟨zeta, aIn, bIn, -, facts, -, -, cells⟩
    have diff := cells 2 (by decide)
    have aOut := cells 4 (by decide)
    have bOut := cells 6 (by decide)
    have first := facts.range 2 (by decide)
    have second := facts.range 4 (by decide)
    have third := facts.range 6 (by decide)
    simp only [inttColumns, InttColumns.ofCells, diff, aOut, bOut, word_bf first, word_bf second,
      word_bf third]
    exact ⟨first, second, third⟩
  exact := by
    intro j inBatch row inside
    rcases inttBuildTrace_row reduced inBatch inside with
      ⟨zeta, aIn, bIn, range, facts, twiddle, -, cells⟩
    have diff := cells 2 (by decide)
    have bOut := cells 6 (by decide)
    have carryB := cells 7 (by decide)
    simp only [inttColumns, InttColumns.ofCells, diff, bOut, carryB, twiddle, word_bf range,
      word_bf (facts.range 2 (by decide)), word_bf (facts.range 6 (by decide)),
      word_bf (facts.range 7 (by decide))]
    exact facts.product

/-- The columns of the forward builder hold the polynomials of a batch on their
first stage, and the outputs it returns are their transforms. -/
theorem nttBuildTrace_transforms {j : ℕ} (inBatch : j < polys.length) :
    Agree (nttInput (nttBuildTrace polys).1 j 0) polys[j] ∧
      ∃ output, (nttBuildTrace polys).2[j]? = some output ∧
        Agree (nttOutput (nttBuildTrace polys).1 j 7) output ∧ Agree output (ntt polys[j]) := by
  have found := List.getElem?_eq_getElem inBatch
  have start := reduced _ (List.getElem_mem inBatch)
  have inputs : Agree (nttInput (nttBuildTrace polys).1 j 0) polys[j] :=
    nttBuilder_staged.inputs_agree found start (by decide)
  have outputs := nttBuilder_staged.outputs_agree found start (by decide : 7 < 8)
  rw [← nttBuilder_staged.length_passes] at outputs
  have transform := nttOutput_agree (nttBuildTrace_satisfies reduced)
    (nttBuildTrace_surroundings reduced) inBatch start inputs
  refine ⟨inputs, nttBuilder.stateAt polys[j] nttBuilder.passes.length, ?_, ?_, ?_⟩
  · simp [nttBuildTrace, BatchBuilder.states, found]
  · exact outputs
  · intro c inside
    exact (outputs c inside).symm.trans (transform c inside)

theorem inttBuildTrace_transforms {j : ℕ} (inBatch : j < polys.length) :
    Agree (inttInput (inttBuildTrace polys).1 j 0) polys[j] ∧
      ∃ output, (inttBuildTrace polys).2[j]? = some output ∧
        Agree (fun c => mul (inttOutput (inttBuildTrace polys).1 j 7 c) N_INV) output ∧
        Agree output (nttInv polys[j]) := by
  have found := List.getElem?_eq_getElem inBatch
  have start := reduced _ (List.getElem_mem inBatch)
  have inputs : Agree (inttInput (inttBuildTrace polys).1 j 0) polys[j] :=
    inttBuilder_staged.inputs_agree found start (by decide)
  have outputs := inttBuilder_staged.outputs_agree found start (by decide : 7 < 8)
  rw [← inttBuilder_staged.length_passes] at outputs
  have transform := inttOutput_agree (inttBuildTrace_satisfies reduced)
    (inttBuildTrace_surroundings reduced) inBatch start inputs
  refine ⟨inputs, fun c => mul (inttBuilder.stateAt polys[j] inttBuilder.passes.length c) N_INV,
    ?_, ?_, ?_⟩
  · simp [inttBuildTrace, BatchBuilder.states, found]
  · intro c inside
    exact congrArg (mul · N_INV) (outputs c inside)
  · intro c inside
    have same : nttInv polys[j] c = mul (nttInvUnscaled polys[j] c) N_INV := rfl
    rw [same, ← transform c inside]
    exact congrArg (mul · N_INV) (outputs c inside).symm

end Built

end Mldsa
end QLSA
