import QLSA.Mldsa.SelectorAir

namespace QLSA
namespace Mldsa

open Mersenne Recursive

/-!
# Circuits of products

The matrix circuit and the challenge circuit state every product `x * y` as
`t + c * Q` over the field of `2^31 - 1` elements and bound `t` and `c` by 23
bits.  Products reach `2^46`, so the equation has about `2^15` solutions for
each pair of factors.  One of them is the division by `Q`, and a row is exact
when its carries are the quotients; the sums of the matrix circuit then follow
from the products, whatever their carries.
-/

/-! ## The circuits -/

section Constraints

variable {F : Type*} [CommRing F]

/-- The sum of the first bits by rising powers of two, from zero. -/
def powerSum (bits : ℕ → F) : ℕ → F
  | 0 => 0
  | k + 1 => powerSum bits k + bits k * 2 ^ k

/-- A value is the sum of 23 bits. -/
def decomposition (value : F) (bits : ℕ → F) : List F :=
  (value - powerSum bits nBits) :: (List.range nBits).map fun k => bits k * bits k - bits k

/-- Columns of one output on one row of `AzFullEval`. -/
structure AzColumns (F : Type*) where
  a : ℕ → F
  t : ℕ → F
  ct : ℕ → F
  s : ℕ → F
  cs : ℕ → F
  tBits : ℕ → ℕ → F
  ctBits : ℕ → ℕ → F

/-- `AzFullEval::evaluate` for one output. -/
def azConstraints (z : ℕ → F) (cols : AzColumns F) : List F :=
  ((List.range L).map fun j => cols.a j * z j - cols.t j - cols.ct j * 8380417) ++
  [cols.t 0 + cols.t 1 - cols.s 0 - cols.cs 0 * 8380417, cols.cs 0 * cols.cs 0 - cols.cs 0,
    cols.s 0 + cols.t 2 - cols.s 1 - cols.cs 1 * 8380417, cols.cs 1 * cols.cs 1 - cols.cs 1,
    cols.s 1 + cols.t 3 - cols.s 2 - cols.cs 2 * 8380417, cols.cs 2 * cols.cs 2 - cols.cs 2,
    cols.s 2 + cols.t 4 - cols.s 3 - cols.cs 3 * 8380417, cols.cs 3 * cols.cs 3 - cols.cs 3] ++
  ((List.range L).flatMap fun j => decomposition (cols.t j) (cols.tBits j)) ++
  (List.range L).flatMap fun j => decomposition (cols.ct j) (cols.ctBits j)

/-- Columns of one product on one row of `Ct1FullEval`. -/
structure Ct1Columns (F : Type*) where
  t1 : F
  ct1 : F
  carry : F
  ct1Bits : ℕ → F
  carryBits : ℕ → F

/-- `Ct1FullEval::evaluate` for one product. -/
def ct1Constraints (cHat : F) (cols : Ct1Columns F) : List F :=
  [cHat * cols.t1 - cols.ct1 - cols.carry * 8380417] ++
  decomposition cols.ct1 cols.ct1Bits ++ decomposition cols.carry cols.carryBits

/-- Columns of one polynomial on one row of `RangeQBatchEval`. -/
structure RangeQColumns (F : Type*) where
  v : F
  vBits : ℕ → F
  d : F
  dBits : ℕ → F

/-- `RangeQBatchEval::evaluate` for one polynomial; the column of `d` is read and not used. -/
def rangeQConstraints (cols : RangeQColumns F) : List F :=
  decompose cols.v cols.vBits ++
  (bitSum cols.dBits (nBits - 1) + cols.v - 8380416) ::
    (List.range nBits).map fun k => cols.dBits k * cols.dBits k - cols.dBits k

end Constraints

/-- Columns of one output in the order of the source. -/
def AzColumns.ofCells {F : Type*} (cells : ℕ → F) : AzColumns F :=
  ⟨fun j => cells j, fun j => cells (5 + j), fun j => cells (10 + j), fun r => cells (15 + r),
    fun r => cells (19 + r), fun j k => cells (23 + (23 * j + k)),
    fun j k => cells (138 + (23 * j + k))⟩

def Ct1Columns.ofCells {F : Type*} (cells : ℕ → F) : Ct1Columns F :=
  ⟨cells 0, cells 1, cells 2, fun k => cells (3 + k), fun k => cells (26 + k)⟩

def RangeQColumns.ofCells {F : Type*} (cells : ℕ → F) : RangeQColumns F :=
  ⟨cells 0, fun k => cells (1 + k), cells 24, fun k => cells (25 + k)⟩

/-- Columns of output `i` on a row, behind the five columns of `z`. -/
def azColumns (row : ℕ → M31) (i : ℕ) : AzColumns M31 :=
  .ofCells fun cell => row (5 + i * 253 + cell)

/-- Columns of product `i` on a row, behind the column of the challenge. -/
def ct1Columns (row : ℕ → M31) (i : ℕ) : Ct1Columns M31 :=
  .ofCells fun cell => row (1 + i * 49 + cell)

def rangeQColumns (row : ℕ → M31) (j : ℕ) : RangeQColumns M31 :=
  .ofCells fun cell => row (48 * j + cell)

/-- A row satisfies `AzFullEval`. -/
def AzSatisfies (row : ℕ → M31) : Prop :=
  Vanish ((List.range K).flatMap fun i => azConstraints row (azColumns row i))

/-- A row satisfies `Ct1FullEval`. -/
def Ct1Satisfies (row : ℕ → M31) : Prop :=
  Vanish ((List.range K).flatMap fun i => ct1Constraints (row 0) (ct1Columns row i))

/-- A row satisfies `RangeQBatchEval`. -/
def RangeQSatisfies (row : ℕ → M31) : Prop :=
  Vanish ((List.range K).flatMap fun j => rangeQConstraints (rangeQColumns row j))

instance (row : ℕ → M31) : Decidable (AzSatisfies row) := inferInstanceAs (Decidable (Vanish _))

instance (row : ℕ → M31) : Decidable (Ct1Satisfies row) := inferInstanceAs (Decidable (Vanish _))

instance (row : ℕ → M31) : Decidable (RangeQSatisfies row) := inferInstanceAs (Decidable (Vanish _))

/-! ## One product -/

section Products

theorem powerSum_eq_bitSum {F : Type*} [CommRing F] (bits : ℕ → F) (k : ℕ) :
    powerSum bits (k + 1) = bitSum bits k := by
  induction k with
  | zero => rw [powerSum, powerSum, bitSum, zero_add, pow_zero, mul_one]
  | succ k ih => rw [powerSum, ih, bitSum]

theorem decomposition_eq {F : Type*} [CommRing F] (value : F) (bits : ℕ → F) :
    decomposition value bits = decompose value bits := by
  rw [decomposition, decompose]
  congr 2
  exact powerSum_eq_bitSum bits (nBits - 1)

/-- A product is reduced exactly when its carry is the quotient. -/
theorem product_exact_iff {x y t carry : M31} (equation : x * y - t - carry * 8380417 = 0)
    (first : InRange (word x)) (second : InRange (word y)) (tSmall : t.val < 2 ^ 23)
    (carrySmall : carry.val < 2 ^ 23) :
    word t = word x * word y % Q ↔ word carry = word x * word y / Q := by
  rw [inRange_word] at first second
  have large : 2 ^ 23 < P := by decide
  have quotientSmall : x.val * y.val / 8380417 < 2 ^ 23 := by
    have bound : x.val * y.val ≤ 8380416 * 8380416 :=
      Nat.mul_le_mul (Nat.le_of_lt_succ first) (Nat.le_of_lt_succ second)
    omega
  have remainderSmall : x.val * y.val % 8380417 < 2 ^ 23 := by omega
  have divided : x * y = ((x.val * y.val % 8380417 : ℕ) : M31) +
      8380417 * ((x.val * y.val / 8380417 : ℕ) : M31) := by
    have whole := congrArg (fun n : ℕ => (n : M31)) (Nat.mod_add_div (x.val * y.val) 8380417)
    push_cast at whole ⊢
    rw [cast_word, cast_word] at whole
    exact whole.symm
  have unit : (8380417 : M31) ≠ 0 := by decide
  have words : word x * word y = ((x.val * y.val : ℕ) : ℤ) := by
    rw [word, word, Nat.cast_mul]
  have quotient : word x * word y / Q = ((x.val * y.val / 8380417 : ℕ) : ℤ) := by
    rw [words]
    exact (Int.natCast_div _ _).symm
  have remainder : word x * word y % Q = ((x.val * y.val % 8380417 : ℕ) : ℤ) := by
    rw [words]
    exact (Int.natCast_mod _ _).symm
  rw [quotient, remainder, word, word, Nat.cast_inj, Nat.cast_inj]
  constructor
  · intro reduced
    apply Canonical.eq_of_cast (by omega) (by omega)
    apply mul_left_cancel₀ unit
    rw [← reduced, cast_word] at divided
    rw [cast_word]
    linear_combination divided - equation
  · intro exact
    apply Canonical.eq_of_cast (by omega) (by omega)
    rw [← exact, cast_word] at divided
    rw [cast_word]
    linear_combination divided - equation

end Products

/-! ## One row -/

section Rows

theorem decomposition_small {value : M31} {bits : ℕ → M31}
    (vanish : Vanish (decomposition value bits)) : value.val < 2 ^ 23 := by
  rw [decomposition_eq] at vanish
  exact decompose_small vanish

/-- A bit is the cast of zero or one. -/
theorem bit_number {bit : M31} (boolean : bit * bit - bit = 0) :
    ∃ number : ℕ, number ≤ 1 ∧ bit = number := by
  rcases bit_cases boolean with zero | one
  · exact ⟨0, by decide, by rw [zero, Nat.cast_zero]⟩
  · exact ⟨1, le_rfl, by rw [one, Nat.cast_one]⟩

/-- What the constraints of one output say. -/
structure AzFacts (z : ℕ → M31) (cols : AzColumns M31) : Prop where
  product : ∀ j < L, cols.a j * z j - cols.t j - cols.ct j * 8380417 = 0
  tSmall : ∀ j < L, (cols.t j).val < 2 ^ 23
  ctSmall : ∀ j < L, (cols.ct j).val < 2 ^ 23
  sum : ∃ carries : ℕ, carries ≤ 4 ∧
    cols.t 0 + cols.t 1 + cols.t 2 + cols.t 3 + cols.t 4 = cols.s 3 + carries * 8380417

theorem azFacts {z : ℕ → M31} {cols : AzColumns M31} (vanish : Vanish (azConstraints z cols)) :
    AzFacts z cols := by
  unfold azConstraints at vanish
  simp only [vanish_append, vanish_cons, vanish_nil, and_true] at vanish
  rcases vanish with ⟨⟨⟨products, s0, cs0, s1, cs1, s2, cs2, s3, cs3⟩, tBits⟩, ctBits⟩
  rw [vanish_flatMap_iff] at tBits ctBits
  rcases bit_number cs0 with ⟨c0, small0, value0⟩
  rcases bit_number cs1 with ⟨c1, small1, value1⟩
  rcases bit_number cs2 with ⟨c2, small2, value2⟩
  rcases bit_number cs3 with ⟨c3, small3, value3⟩
  refine ⟨?_, fun j inside => decomposition_small (tBits j inside),
    fun j inside => decomposition_small (ctBits j inside), c0 + c1 + c2 + c3, by omega, ?_⟩
  · intro j inside
    exact products _ (List.mem_map_of_mem (List.mem_range.mpr inside))
  · push_cast
    rw [← value0, ← value1, ← value2, ← value3]
    linear_combination s0 + s1 + s2 + s3

/-- The last sum of reduced products is their sum modulo `Q`. -/
theorem azSum_exact {z : ℕ → M31} {cols : AzColumns M31} (facts : AzFacts z cols)
    (sRange : InRange (word (cols.s 3)))
    (products : ∀ j < L, word (cols.t j) = word (cols.a j) * word (z j) % Q) :
    word (cols.s 3) = (∑ j ∈ Finset.range L, word (cols.a j) * word (z j)) % Q := by
  have reduced (j : ℕ) (inside : j < L) : (cols.t j).val < 8380417 := by
    rw [← inRange_word, products j inside]
    exact emod_inRange _
  have large : 5 * 8380417 < P := by decide
  rcases facts.sum with ⟨carries, few, sum⟩
  rw [inRange_word] at sRange
  have t0 := reduced 0 (by decide)
  have t1 := reduced 1 (by decide)
  have t2 := reduced 2 (by decide)
  have t3 := reduced 3 (by decide)
  have t4 := reduced 4 (by decide)
  have whole : (cols.t 0).val + (cols.t 1).val + (cols.t 2).val + (cols.t 3).val + (cols.t 4).val =
      (cols.s 3).val + carries * 8380417 := by
    apply Canonical.eq_of_cast (by omega) (by omega)
    push_cast
    rw [cast_word, cast_word, cast_word, cast_word, cast_word, cast_word, sum]
  have terms : (∑ j ∈ Finset.range L, word (cols.a j) * word (z j)) % Q =
      (∑ j ∈ Finset.range L, word (cols.t j)) % Q := by
    rw [Finset.sum_int_mod]
    exact congrArg (· % Q)
      (Finset.sum_congr rfl fun j member => (products j (Finset.mem_range.mp member)).symm)
  rw [terms]
  simp only [L, Finset.sum_range_succ, Finset.sum_range_zero, word, Q]
  omega

theorem az_exact_iff {z : ℕ → M31} {cols : AzColumns M31} (vanish : Vanish (azConstraints z cols))
    (zRange : ∀ j < L, InRange (word (z j))) (aRange : ∀ j < L, InRange (word (cols.a j)))
    (sRange : InRange (word (cols.s 3))) :
    ((∀ j < L, word (cols.t j) = word (cols.a j) * word (z j) % Q) ∧
        word (cols.s 3) = (∑ j ∈ Finset.range L, word (cols.a j) * word (z j)) % Q) ↔
      ∀ j < L, word (cols.ct j) = word (cols.a j) * word (z j) / Q := by
  have facts := azFacts vanish
  have product (j : ℕ) (inside : j < L) := product_exact_iff (facts.product j inside)
    (aRange j inside) (zRange j inside) (facts.tSmall j inside) (facts.ctSmall j inside)
  constructor
  · rintro ⟨products, -⟩ j inside
    exact (product j inside).mp (products j inside)
  · intro quotients
    have products (j : ℕ) (inside : j < L) := (product j inside).mpr (quotients j inside)
    exact ⟨products, azSum_exact facts sRange products⟩

theorem ct1_exact_iff {cHat : M31} {cols : Ct1Columns M31}
    (vanish : Vanish (ct1Constraints cHat cols)) (cRange : InRange (word cHat))
    (t1Range : InRange (word cols.t1)) :
    word cols.ct1 = word cHat * word cols.t1 % Q ↔
      word cols.carry = word cHat * word cols.t1 / Q := by
  unfold ct1Constraints at vanish
  simp only [vanish_append, vanish_cons, vanish_nil, and_true] at vanish
  rcases vanish with ⟨⟨product, ct1Bits⟩, carryBits⟩
  exact product_exact_iff product cRange t1Range (decomposition_small ct1Bits)
    (decomposition_small carryBits)

theorem rangeQ_inRange {cols : RangeQColumns M31} (vanish : Vanish (rangeQConstraints cols)) :
    InRange (word cols.v) := by
  unfold rangeQConstraints at vanish
  rw [vanish_append, vanish_cons] at vanish
  rcases vanish with ⟨vBits, complement, dBits⟩
  have small := decompose_small vBits
  have boolean : ∀ k ≤ nBits - 1, cols.dBits k = 0 ∨ cols.dBits k = 1 := by
    intro k bound
    apply bit_cases
    apply dBits
    apply List.mem_map_of_mem (f := fun k => cols.dBits k * cols.dBits k - cols.dBits k)
    exact List.mem_range.mpr (lt_of_le_of_lt bound (by decide))
  rcases bitSum_small boolean with ⟨number, narrow, value⟩
  have width : nBits - 1 + 1 = 23 := rfl
  have large : 2 ^ 23 + 2 ^ 23 < P := by decide
  rw [width] at narrow
  have whole : number + cols.v.val = 8380416 := by
    apply Canonical.eq_of_cast (by omega) (by omega)
    rw [Nat.cast_add, cast_word, ← value, Nat.cast_ofNat]
    linear_combination complement
  rw [inRange_word]
  omega

end Rows

/-! ## Exact rows -/

/-- Rows with reduced factors are exact if and only if their carries are the quotients.  The
range circuit bounds the last sums as the matrix circuit needs them. -/
theorem product_circuits_exact_iff (az ct1 range : ℕ → M31) :
    (AzSatisfies az → (∀ j < L, InRange (word (az j))) →
      (∀ i < K, ∀ j < L, InRange (word ((azColumns az i).a j))) →
      (∀ i < K, InRange (word ((azColumns az i).s 3))) →
      ((∀ i < K, (∀ j < L, word ((azColumns az i).t j) =
            word ((azColumns az i).a j) * word (az j) % Q) ∧
          word ((azColumns az i).s 3) =
            (∑ j ∈ Finset.range L, word ((azColumns az i).a j) * word (az j)) % Q) ↔
        ∀ i < K, ∀ j < L, word ((azColumns az i).ct j) =
          word ((azColumns az i).a j) * word (az j) / Q)) ∧
    (Ct1Satisfies ct1 → InRange (word (ct1 0)) →
      (∀ i < K, InRange (word (ct1Columns ct1 i).t1)) →
      ((∀ i < K, word (ct1Columns ct1 i).ct1 = word (ct1 0) * word (ct1Columns ct1 i).t1 % Q) ↔
        ∀ i < K, word (ct1Columns ct1 i).carry =
          word (ct1 0) * word (ct1Columns ct1 i).t1 / Q)) ∧
    (RangeQSatisfies range → ∀ j < K, InRange (word (rangeQColumns range j).v)) := by
  refine ⟨?_, ?_, ?_⟩
  · intro satisfies zRange aRange sRange
    have each := vanish_flatMap_iff.mp satisfies
    exact forall₂_congr fun i inside =>
      az_exact_iff (each i inside) zRange (aRange i inside) (sRange i inside)
  · intro satisfies cRange t1Range
    have each := vanish_flatMap_iff.mp satisfies
    exact forall₂_congr fun i inside => ct1_exact_iff (each i inside) cRange (t1Range i inside)
  · intro satisfies j inside
    exact rangeQ_inRange (vanish_flatMap_iff.mp satisfies j inside)

/-- The first product is zero modulo `2^31 - 1` only, and the sums carry it on. -/
def forgedAz : ℕ → M31 := fun cell =>
  if cell = 10 then 2096895 else if cell = 15 then 256
  else if 20 ≤ cell ∧ cell < 24 then 2096895
  else if 28 ≤ cell ∧ cell < 51 then if Nat.testBit 2096895 (cell - 28) then 1 else 0
  else if 143 ≤ cell ∧ cell < 166 then if Nat.testBit 256 (cell - 143) then 1 else 0
  else 0

def forgedCt1 : ℕ → M31 := fun cell =>
  if cell = 2 then 2096895 else if cell = 3 then 256
  else if 4 ≤ cell ∧ cell < 27 then if Nat.testBit 2096895 (cell - 4) then 1 else 0
  else if 27 ≤ cell ∧ cell < 50 then if Nat.testBit 256 (cell - 27) then 1 else 0
  else 0

/-- Products that the circuits accept are not those of their factors. -/
theorem products_not_exact :
    (¬ ∀ row : ℕ → M31, AzSatisfies row → (∀ j < L, InRange (word (row j))) →
      (∀ i < K, ∀ j < L, InRange (word ((azColumns row i).a j))) →
      (∀ i < K, InRange (word ((azColumns row i).s 3))) →
      ∀ i < K, (∀ j < L, word ((azColumns row i).t j) =
          word ((azColumns row i).a j) * word (row j) % Q) ∧
        word ((azColumns row i).s 3) =
          (∑ j ∈ Finset.range L, word ((azColumns row i).a j) * word (row j)) % Q) ∧
    ¬ ∀ row : ℕ → M31, Ct1Satisfies row → InRange (word (row 0)) →
      (∀ i < K, InRange (word (ct1Columns row i).t1)) →
      ∀ i < K, word (ct1Columns row i).ct1 = word (row 0) * word (ct1Columns row i).t1 % Q := by
  constructor
  · intro claimed
    have first := claimed forgedAz (by decide +kernel) (by decide +kernel) (by decide +kernel)
      (by decide +kernel) 0 (by decide)
    exact absurd (first.1 0 (by decide)) (by decide +kernel)
  · intro claimed
    have first := claimed forgedCt1 (by decide +kernel) (by decide +kernel) (by decide +kernel) 0
      (by decide)
    exact absurd first (by decide +kernel)

/-! ## Rows of reduced products -/

def binaryDigit (number k : ℕ) : ℕ := if number.testBit k then 1 else 0

/-- The running sums of an output, reduced after every term. -/
def reducedSum (t : ℕ → ℕ) : ℕ → ℕ
  | 0 => (t 0 + t 1) % 8380417
  | r + 1 => (reducedSum t r + t (r + 2)) % 8380417

def reducedCarry (t : ℕ → ℕ) : ℕ → ℕ
  | 0 => (t 0 + t 1) / 8380417
  | r + 1 => (reducedSum t r + t (r + 2)) / 8380417

/-- The cells of one output for reduced factors, with quotients for carries. -/
def azCells (a z : ℕ → ℕ) (cell : ℕ) : ℕ :=
  let t := fun j => a j * z j % 8380417
  let ct := fun j => a j * z j / 8380417
  if cell < 5 then a cell
  else if cell < 10 then t (cell - 5)
  else if cell < 15 then ct (cell - 10)
  else if cell < 19 then reducedSum t (cell - 15)
  else if cell < 23 then reducedCarry t (cell - 19)
  else if cell < 138 then binaryDigit (t ((cell - 23) / 23)) ((cell - 23) % 23)
  else binaryDigit (ct ((cell - 138) / 23)) ((cell - 138) % 23)

/-- The cells of one product with the challenge. -/
def ct1Cells (c t1 cell : ℕ) : ℕ :=
  if cell = 0 then t1
  else if cell = 1 then c * t1 % 8380417
  else if cell = 2 then c * t1 / 8380417
  else if cell < 26 then binaryDigit (c * t1 % 8380417) (cell - 3)
  else binaryDigit (c * t1 / 8380417) (cell - 26)

/-- The cells of one value and its complement to `Q - 1`. -/
def rangeQCells (v cell : ℕ) : ℕ :=
  if cell = 0 then v
  else if cell < 24 then binaryDigit v (cell - 1)
  else if cell = 24 then 8380416 - v
  else binaryDigit (8380416 - v) (cell - 25)

def matrixFactor (i j : ℕ) : ℕ := 8380416 - 1200001 * i - 310007 * j

def vectorFactor (j : ℕ) : ℕ := 7654321 - 1000003 * j

def exactAz : ℕ → M31 := fun cell =>
  if cell < 5 then vectorFactor cell
  else azCells (matrixFactor ((cell - 5) / 253)) vectorFactor ((cell - 5) % 253)

def exactCt1 : ℕ → M31 := fun cell =>
  if cell = 0 then 8380416
  else ct1Cells 8380416 (matrixFactor ((cell - 1) / 49) 0) ((cell - 1) % 49)

def exactRangeQ : ℕ → M31 := fun cell => rangeQCells (matrixFactor (cell / 48) 1) (cell % 48)

/-- Rows of factors up to `Q - 1`, whose products all carry. -/
theorem large_products_exact :
    ((∀ i < K, (∀ j < L, word ((azColumns exactAz i).t j) =
          word ((azColumns exactAz i).a j) * word (exactAz j) % Q) ∧
        word ((azColumns exactAz i).s 3) =
          (∑ j ∈ Finset.range L, word ((azColumns exactAz i).a j) * word (exactAz j)) % Q) ∧
      (∀ i < K, ∀ j < L, (azColumns exactAz i).ct j ≠ 0)) ∧
    ((∀ i < K, word (ct1Columns exactCt1 i).ct1 =
        word (exactCt1 0) * word (ct1Columns exactCt1 i).t1 % Q) ∧
      ∀ i < K, (ct1Columns exactCt1 i).carry ≠ 0) ∧
    ∀ j < K, InRange (word (rangeQColumns exactRangeQ j).v) := by
  have each := product_circuits_exact_iff exactAz exactCt1 exactRangeQ
  refine ⟨⟨?_, by decide +kernel⟩, ⟨?_, by decide +kernel⟩, each.2.2 (by decide +kernel)⟩
  · exact (each.1 (by decide +kernel) (by decide +kernel) (by decide +kernel)
      (by decide +kernel)).mpr (by decide +kernel)
  · exact (each.2.1 (by decide +kernel) (by decide +kernel) (by decide +kernel)).mpr
      (by decide +kernel)

end Mldsa
end QLSA
