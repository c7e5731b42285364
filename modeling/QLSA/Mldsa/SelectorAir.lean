import QLSA.Mldsa.NttBatchAir

namespace QLSA
namespace Mldsa

open Mersenne Recursive

/-!
# Circuits with a selector

The subtraction circuit takes a carry and the norm circuit a selector from the
prover, and both constrain it to a bit.  Which bit it is depends on a
comparison that no constraint makes: a row computes its output when the bit is
the outcome of the comparison, and only then.  The rows that the builders write
take it from the comparison.
-/

/-! ## Subtraction -/

section WPrime

/-- Columns of one polynomial on one row of `WPrimeFullEval`. -/
structure WPrimeColumns (F : Type*) where
  az : F
  ct1Neg : F
  wPrime : F
  carry : F

def WPrimeColumns.ofCells {F : Type*} (cells : ℕ → F) : WPrimeColumns F :=
  ⟨cells 0, cells 1, cells 2, cells 3⟩

/-- `WPrimeFullEval::evaluate` for one polynomial. -/
def wPrimeConstraints {F : Type*} [CommRing F] (cols : WPrimeColumns F) : List F :=
  [cols.az + cols.ct1Neg - cols.wPrime - cols.carry * 8380417,
    cols.carry * cols.carry - cols.carry]

/-- Columns of polynomial `i` on a row. -/
def wPrimeColumns (row : ℕ → M31) (i : ℕ) : WPrimeColumns M31 :=
  .ofCells fun cell => row (4 * i + cell)

/-- A row satisfies `WPrimeFullEval`. -/
def WPrimeSatisfies (row : ℕ → M31) : Prop :=
  Vanish ((List.range K).flatMap fun i => wPrimeConstraints (wPrimeColumns row i))

/-- The negated second operand, `Q - b` modulo `Q`. -/
def negated (b : ℤ) : ℤ := if b = 0 then 0 else Q - b

instance (row : ℕ → M31) : Decidable (WPrimeSatisfies row) := inferInstanceAs (Decidable (Vanish _))

/-- The four values that `build_trace` writes for one coefficient. -/
def wPrimeCells (a b : ℤ) : WPrimeColumns ℤ :=
  let bn := negated b
  let s := a + bn
  ⟨a, bn, s - (if Q ≤ s then Q else 0), if Q ≤ s then 1 else 0⟩

/-- Columns of `build_trace`, and the differences it returns. -/
def wPrimeTrace (az ct1 : ℕ → Coeffs) : Columns × (ℕ → Coeffs) :=
  (fun column p =>
    let cells := wPrimeCells (az (column / 4) p) (ct1 (column / 4) p)
    match column % 4 with
    | 0 => bf cells.az
    | 1 => bf cells.ct1Neg
    | 2 => bf cells.wPrime
    | _ => bf cells.carry,
  fun i p => (wPrimeCells (az i p) (ct1 i p)).wPrime)

end WPrime

/-! ## Norms -/

section Norm

/-- Columns of one polynomial on one row of `NormCheckBatchEval`. -/
structure NormColumns (F : Type*) where
  z : F
  sel : F
  norm : F

def NormColumns.ofCells {F : Type*} (cells : ℕ → F) : NormColumns F :=
  ⟨cells 0, cells 1, cells 2⟩

/-- `NormCheckBatchEval::evaluate` for one polynomial. -/
def normConstraints {F : Type*} [CommRing F] (cols : NormColumns F) : List F :=
  [cols.sel * cols.sel - cols.sel,
    cols.norm - cols.z + cols.sel * cols.z + cols.sel * cols.z - cols.sel * 8380417]

/-- Columns of polynomial `j` on a row. -/
def normColumns (row : ℕ → M31) (j : ℕ) : NormColumns M31 :=
  .ofCells fun cell => row (3 * j + cell)

/-- A row satisfies `NormCheckBatchEval`. -/
def NormSatisfies (row : ℕ → M31) : Prop :=
  Vanish ((List.range L).flatMap fun j => normConstraints (normColumns row j))

instance (row : ℕ → M31) : Decidable (NormSatisfies row) := inferInstanceAs (Decidable (Vanish _))

/-- Values above it have their norm on the other side. -/
def HALF : ℤ := (Q - 1) / 2

/-- The three values that `build_trace` writes for one coefficient. -/
def normCells (z : ℤ) : NormColumns ℤ :=
  if HALF < z then ⟨z, 1, Q - z⟩ else ⟨z, 0, z⟩

/-- The largest norm of the first coefficients. -/
def largestNorm (z : Coeffs) (count : ℕ) : ℤ :=
  (List.range count).foldl
    (fun largest p => if largest < (normCells (z p)).norm then (normCells (z p)).norm
      else largest) 0

/-- Columns of `build_trace`, the norms it returns and the largest norm of each polynomial. -/
def normTrace (z : ℕ → Coeffs) : Columns × (ℕ → Coeffs) × (ℕ → ℤ) :=
  (fun column p =>
    let cells := normCells (z (column / 3) p)
    match column % 3 with
    | 0 => bf cells.z
    | 1 => bf cells.sel
    | _ => bf cells.norm,
  fun j p => (normCells (z j p)).norm,
  fun j => largestNorm (z j) N)

end Norm

/-! ## One row -/

section Rows

/-- A row satisfies all blocks. -/
theorem vanish_flatMap_iff {constraints : ℕ → List M31} {count : ℕ} :
    Vanish ((List.range count).flatMap constraints) ↔ ∀ i < count, Vanish (constraints i) := by
  constructor
  · exact fun vanish i inside => vanish_flatMap vanish inside
  · intro each value member
    rcases List.mem_flatMap.mp member with ⟨i, listed, own⟩
    exact each i (List.mem_range.mp listed) value own

/-- Words of equal residues are equal, or one modulus apart. -/
theorem cast_eq_cases {first second : ℕ} (same : (first : M31) = second) (low : first < P)
    (high : second < 2 * P) : second = first ∨ second = first + P := by
  have residues := (ZMod.natCast_eq_natCast_iff' first second P).mp same
  rw [Nat.mod_eq_of_lt low] at residues
  simp only [P] at *
  omega

/-- A bit is the outcome of a comparison. -/
theorem word_bit_eq_iff {bit : M31} {condition : Prop} [Decidable condition] :
    (bit = 0 → (word bit = (if condition then 1 else 0) ↔ ¬ condition)) ∧
      (bit = 1 → (word bit = (if condition then 1 else 0) ↔ condition)) := by
  have zero : word 0 = 0 := by decide
  have one : word 1 = 1 := by decide
  constructor
  · rintro rfl
    rw [zero]
    by_cases holds : condition <;> simp [holds]
  · rintro rfl
    rw [one]
    by_cases holds : condition <;> simp [holds]

/-- A row of the subtraction circuit subtracts exactly when its carry is the comparison. -/
theorem wPrime_exact_iff {cols : WPrimeColumns M31} (vanish : Vanish (wPrimeConstraints cols))
    (az : InRange (word cols.az)) (ct1Neg : InRange (word cols.ct1Neg)) :
    word cols.wPrime = (word cols.az + word cols.ct1Neg) % Q ∧ InRange (word cols.wPrime) ↔
      word cols.carry = if Q ≤ word cols.az + word cols.ct1Neg then 1 else 0 := by
  unfold wPrimeConstraints at vanish
  simp only [vanish_cons, vanish_nil, and_true] at vanish
  rcases vanish with ⟨sum, boolean⟩
  have large : 2 * 8380417 + 8380417 < P := by decide
  have small := Stwo.val_lt_P cols.wPrime
  rw [inRange_word] at az ct1Neg ⊢
  rcases bit_cases boolean with zero | one
  · have added : cols.az.val + cols.ct1Neg.val = cols.wPrime.val := by
      apply Canonical.eq_of_cast (by omega) small
      rw [Nat.cast_add, cast_word, cast_word, cast_word]
      linear_combination sum + 8380417 * zero
    rw [word_bit_eq_iff.1 zero]
    simp only [word, Q]
    omega
  · have carried : ((cols.az.val + cols.ct1Neg.val : ℕ) : M31) =
        (cols.wPrime.val + 8380417 : ℕ) := by
      rw [Nat.cast_add, Nat.cast_add, cast_word, cast_word, cast_word, Nat.cast_ofNat]
      linear_combination sum + 8380417 * one
    rw [word_bit_eq_iff.2 one]
    rcases cast_eq_cases carried (by omega) (by omega) with exact | wrapped
    · simp only [word, Q]
      omega
    · simp only [word, Q]
      omega

/-- A row of the norm circuit holds the norm exactly when its selector is the comparison. -/
theorem norm_exact_iff {cols : NormColumns M31} (vanish : Vanish (normConstraints cols))
    (z : InRange (word cols.z)) :
    word cols.norm = min (word cols.z) (Q - word cols.z) ↔
      word cols.sel = if HALF < word cols.z then 1 else 0 := by
  have half : HALF = 4190208 := by decide
  unfold normConstraints at vanish
  simp only [vanish_cons, vanish_nil, and_true] at vanish
  rcases vanish with ⟨boolean, definition⟩
  have large : 8380417 < P := by decide
  have small := Stwo.val_lt_P cols.norm
  rw [inRange_word] at z
  rcases bit_cases boolean with zero | one
  · have kept : cols.norm = cols.z := by
      linear_combination definition + (8380417 - 2 * cols.z) * zero
    rw [word_bit_eq_iff.1 zero, kept, half]
    simp only [word, Q]
    omega
  · have mirrored : cols.norm.val = 8380417 - cols.z.val := by
      apply Canonical.eq_of_cast small (by omega)
      rw [Nat.cast_sub z.le, cast_word, cast_word, Nat.cast_ofNat]
      linear_combination definition + (8380417 - 2 * cols.z) * one
    rw [word_bit_eq_iff.2 one, half]
    simp only [word, Q, mirrored]
    omega

end Rows

/-! ## The rows of the builders -/

section Builders

theorem negated_spec {b : ℤ} (range : InRange b) :
    InRange (negated b) ∧ ∀ a, (a + negated b) % Q = (a - b) % Q := by
  simp only [InRange, negated, Q] at *
  constructor
  · split <;> omega
  · intro a
    split <;> omega

theorem wPrimeCells_spec {a b : ℤ} (first : InRange a) (second : InRange b) :
    InRange (wPrimeCells a b).wPrime ∧ InRange (wPrimeCells a b).carry ∧
      (wPrimeCells a b).wPrime = (a - b) % Q ∧
      a + negated b = (wPrimeCells a b).wPrime + (wPrimeCells a b).carry * Q := by
  rcases negated_spec second with ⟨range, same⟩
  rw [← same a]
  generalize bn : negated b = n at range
  simp only [InRange, wPrimeCells, Q, bn] at *
  by_cases carried : 8380417 ≤ a + n
  · simp only [if_pos carried]
    omega
  · simp only [if_neg carried]
    omega

theorem normCells_spec {z : ℤ} (range : InRange z) :
    (normCells z).z = z ∧ InRange (normCells z).sel ∧ InRange (normCells z).norm ∧
      (normCells z).norm = min z (Q - z) ∧
      (normCells z).sel * (normCells z).sel = (normCells z).sel ∧
      (normCells z).norm - z + 2 * (normCells z).sel * z = (normCells z).sel * Q := by
  have half : HALF = 4190208 := by decide
  unfold normCells
  simp only [InRange, Q, half] at *
  split
  · simp only [mul_one, true_and]
    omega
  · simp only [mul_zero, zero_mul, true_and]
    omega

theorem wPrimeColumns_trace (az ct1 : ℕ → Coeffs) (i p : ℕ) :
    wPrimeColumns (fun column => (wPrimeTrace az ct1).1 column p) i =
      ⟨bf (az i p), bf (negated (ct1 i p)), bf (wPrimeCells (az i p) (ct1 i p)).wPrime,
        bf (wPrimeCells (az i p) (ct1 i p)).carry⟩ := by
  have place (cell : ℕ) (small : cell < 4) : (4 * i + cell) / 4 = i ∧ (4 * i + cell) % 4 = cell := by
    omega
  simp only [wPrimeColumns, WPrimeColumns.ofCells, wPrimeTrace, place 0 (by decide),
    place 1 (by decide), place 2 (by decide), place 3 (by decide)]
  rfl

theorem normColumns_trace (z : ℕ → Coeffs) (j p : ℕ) :
    normColumns (fun column => (normTrace z).1 column p) j =
      ⟨bf (normCells (z j p)).z, bf (normCells (z j p)).sel, bf (normCells (z j p)).norm⟩ := by
  have place (cell : ℕ) (small : cell < 3) : (3 * j + cell) / 3 = j ∧ (3 * j + cell) % 3 = cell := by
    omega
  simp only [normColumns, NormColumns.ofCells, normTrace, place 0 (by decide),
    place 1 (by decide), place 2 (by decide)]

/-- A row that `build_trace` writes, and what it returns for it. -/
structure WPrimeRow (az ct1 : ℕ → Coeffs) (p : ℕ) : Prop where
  satisfies : WPrimeSatisfies fun column => (wPrimeTrace az ct1).1 column p
  inputs : ∀ i < K,
    word (wPrimeColumns (fun column => (wPrimeTrace az ct1).1 column p) i).az = az i p ∧
      word (wPrimeColumns (fun column => (wPrimeTrace az ct1).1 column p) i).ct1Neg =
        negated (ct1 i p)
  output : ∀ i < K,
    word (wPrimeColumns (fun column => (wPrimeTrace az ct1).1 column p) i).wPrime =
      (wPrimeTrace az ct1).2 i p
  difference : ∀ i < K, (wPrimeTrace az ct1).2 i p = (az i p + negated (ct1 i p)) % Q ∧
    (wPrimeTrace az ct1).2 i p = (az i p - ct1 i p) % Q

theorem wPrimeTrace_row {az ct1 : ℕ → Coeffs}
    (reduced : ∀ i < K, Reduced (az i) ∧ Reduced (ct1 i)) {p : ℕ} (inside : p < N) :
    WPrimeRow az ct1 p where
  satisfies := by
    rw [WPrimeSatisfies, vanish_flatMap_iff]
    intro i polynomial
    rcases reduced i polynomial with ⟨first, second⟩
    rcases wPrimeCells_spec (first p inside) (second p inside) with ⟨out, carry, -, sum⟩
    have negative := (negated_spec (second p inside)).1
    have boolean : (wPrimeCells (az i p) (ct1 i p)).carry *
        (wPrimeCells (az i p) (ct1 i p)).carry = (wPrimeCells (az i p) (ct1 i p)).carry := by
      simp only [wPrimeCells]
      split <;> rfl
    have added := congrArg (fun v : ℤ => (v : M31)) sum
    have bit := congrArg (fun v : ℤ => (v : M31)) boolean
    simp only [Q] at added bit
    push_cast at added bit
    rw [wPrimeColumns_trace, wPrimeConstraints, vanish_cons, vanish_cons]
    simp only [bf_eq_cast (first p inside), bf_eq_cast negative, bf_eq_cast out, bf_eq_cast carry]
    refine ⟨?_, ?_, vanish_nil⟩
    · linear_combination added
    · linear_combination bit
  inputs := by
    intro i polynomial
    rcases reduced i polynomial with ⟨first, second⟩
    rw [wPrimeColumns_trace]
    exact ⟨word_bf (first p inside), word_bf (negated_spec (second p inside)).1⟩
  output := by
    intro i polynomial
    rcases reduced i polynomial with ⟨first, second⟩
    rw [wPrimeColumns_trace]
    exact word_bf (wPrimeCells_spec (first p inside) (second p inside)).1
  difference := by
    intro i polynomial
    rcases reduced i polynomial with ⟨first, second⟩
    have value : (wPrimeTrace az ct1).2 i p = (az i p - ct1 i p) % Q :=
      (wPrimeCells_spec (first p inside) (second p inside)).2.2.1
    rw [(negated_spec (second p inside)).2]
    exact ⟨value, value⟩

/-- A row that `build_trace` writes, and what it returns for it. -/
structure NormRow (z : ℕ → Coeffs) (p : ℕ) : Prop where
  satisfies : NormSatisfies fun column => (normTrace z).1 column p
  input : ∀ j < L, word (normColumns (fun column => (normTrace z).1 column p) j).z = z j p
  output : ∀ j < L,
    word (normColumns (fun column => (normTrace z).1 column p) j).norm = (normTrace z).2.1 j p
  norm : ∀ j < L, (normTrace z).2.1 j p = min (z j p) (Q - z j p)

theorem normTrace_row {z : ℕ → Coeffs} (reduced : ∀ j < L, Reduced (z j)) {p : ℕ}
    (inside : p < N) : NormRow z p where
  satisfies := by
    rw [NormSatisfies, vanish_flatMap_iff]
    intro j polynomial
    have range := reduced j polynomial p inside
    rcases normCells_spec range with ⟨same, sel, norm, -, boolean, definition⟩
    have bit := congrArg (fun v : ℤ => (v : M31)) boolean
    have value := congrArg (fun v : ℤ => (v : M31)) definition
    simp only [Q] at bit value
    push_cast at bit value
    rw [normColumns_trace, normConstraints, vanish_cons, vanish_cons, same]
    simp only [bf_eq_cast range, bf_eq_cast sel, bf_eq_cast norm]
    refine ⟨?_, ?_, vanish_nil⟩
    · linear_combination bit
    · linear_combination value
  input := by
    intro j polynomial
    have range := reduced j polynomial p inside
    rw [normColumns_trace, (normCells_spec range).1]
    exact word_bf range
  output := by
    intro j polynomial
    have range := reduced j polynomial p inside
    rw [normColumns_trace]
    exact word_bf (normCells_spec range).2.2.1
  norm := fun j polynomial => (normCells_spec (reduced j polynomial p inside)).2.2.2.1

theorem largestNorm_succ (z : Coeffs) (count : ℕ) :
    largestNorm z (count + 1) = if largestNorm z count < (normCells (z count)).norm then
      (normCells (z count)).norm else largestNorm z count := by
  rw [largestNorm, List.range_succ, List.foldl_append]
  rfl

/-- The largest norm is attained and bounds all others. -/
theorem normTrace_largest {z : ℕ → Coeffs} {j : ℕ} (reduced : Reduced (z j)) :
    (∀ p < N, (normTrace z).2.1 j p ≤ (normTrace z).2.2 j) ∧
      ∃ p < N, (normTrace z).2.2 j = (normTrace z).2.1 j p := by
  have loop (n : ℕ) (count : n < N) : (∀ p ≤ n, (normCells (z j p)).norm ≤
      largestNorm (z j) (n + 1)) ∧ ∃ p ≤ n, largestNorm (z j) (n + 1) = (normCells (z j p)).norm := by
    induction n with
    | zero =>
        have range := (normCells_spec (reduced 0 count)).2.2.1
        have first : largestNorm (z j) (0 + 1) = (normCells (z j 0)).norm := by
          rw [largestNorm_succ]
          split
          case isTrue => rfl
          case isFalse low => exact le_antisymm range.1 (not_lt.mp low)
        rw [first]
        refine ⟨fun p own => ?_, 0, le_rfl, rfl⟩
        rw [Nat.le_zero.mp own]
    | succ n ih =>
        rw [largestNorm_succ]
        rcases ih (by omega) with ⟨bounds, p, own, attained⟩
        split
        case isTrue higher =>
          refine ⟨fun other inside => ?_, n + 1, le_rfl, rfl⟩
          rcases Nat.le_succ_iff.mp inside with before | last
          · exact (bounds other before).trans higher.le
          · rw [last]
        case isFalse low =>
          refine ⟨fun other inside => ?_, p, own.trans (Nat.le_succ n), attained⟩
          rcases Nat.le_succ_iff.mp inside with before | last
          · exact bounds other before
          · rw [last]
            exact not_lt.mp low
  have size : N = 255 + 1 := rfl
  have largest : (normTrace z).2.2 j = largestNorm (z j) (255 + 1) := by rw [← size, normTrace]
  rcases loop 255 (by decide) with ⟨bounds, p, own, attained⟩
  rw [largest, size]
  exact ⟨fun other inside => bounds other (Nat.le_of_lt_succ inside), p, Nat.lt_succ_of_le own,
    attained⟩

end Builders

/-! ## Exact rows -/

/-- The outputs of a row are functions of its inputs exactly when every selector is the comparison
it stands for, and the builders write such rows.  The circuits constrain a selector to a bit and
to one linear equation, which two rows may solve; the inputs are any representatives. -/
theorem selector_circuits_exact_iff (sums norms : ℕ → M31) (az ct1 z : ℕ → Coeffs) :
    (WPrimeSatisfies sums →
      (∀ i < K, InRange (word (wPrimeColumns sums i).az) ∧
        InRange (word (wPrimeColumns sums i).ct1Neg)) →
      ((∀ i < K, word (wPrimeColumns sums i).wPrime =
          (word (wPrimeColumns sums i).az + word (wPrimeColumns sums i).ct1Neg) % Q ∧
          InRange (word (wPrimeColumns sums i).wPrime)) ↔
        ∀ i < K, word (wPrimeColumns sums i).carry =
          if Q ≤ word (wPrimeColumns sums i).az + word (wPrimeColumns sums i).ct1Neg
            then 1 else 0)) ∧
    (NormSatisfies norms → (∀ j < L, InRange (word (normColumns norms j).z)) →
      ((∀ j < L, word (normColumns norms j).norm =
          min (word (normColumns norms j).z) (Q - word (normColumns norms j).z)) ↔
        ∀ j < L, word (normColumns norms j).sel =
          if HALF < word (normColumns norms j).z then 1 else 0)) ∧
    ((∀ i < K, Reduced (az i) ∧ Reduced (ct1 i)) → ∀ p < N, WPrimeRow az ct1 p) ∧
    ((∀ j < L, Reduced (z j)) → ∀ p < N, NormRow z p) := by
  refine ⟨?_, ?_, fun reduced _ inside => wPrimeTrace_row reduced inside,
    fun reduced _ inside => normTrace_row reduced inside⟩
  · intro satisfies ranges
    rw [WPrimeSatisfies, vanish_flatMap_iff] at satisfies
    exact forall₂_congr fun i inside =>
      wPrime_exact_iff (satisfies i inside) (ranges i inside).1 (ranges i inside).2
  · intro satisfies ranges
    rw [NormSatisfies, vanish_flatMap_iff] at satisfies
    exact forall₂_congr fun j inside => norm_exact_iff (satisfies j inside) (ranges j inside)

/-- Zero polynomials: the rows of the builders are exact. -/
theorem zero_rows_exact :
    (∀ i < K, word (wPrimeColumns (fun _ => 0) i).wPrime =
        (word (wPrimeColumns (fun _ => 0) i).az + word (wPrimeColumns (fun _ => 0) i).ct1Neg) % Q ∧
        InRange (word (wPrimeColumns (fun _ => 0) i).wPrime)) ∧
      (∀ j < L, word (normColumns (fun _ => 0) j).norm =
        min (word (normColumns (fun _ => 0) j).z) (Q - word (normColumns (fun _ => 0) j).z)) ∧
      WPrimeRow (fun _ _ => 1) (fun _ _ => 2) 7 ∧ NormRow (fun _ _ => 8380416) 7 := by
  have each := selector_circuits_exact_iff (fun _ => 0) (fun _ => 0) (fun _ _ => 1) (fun _ _ => 2)
    (fun _ _ => 8380416)
  refine ⟨?_, ?_, ?_, ?_⟩
  · exact (each.1 (by decide +kernel) (by decide +kernel)).mpr (by decide +kernel)
  · exact (each.2.1 (by decide +kernel) (by decide +kernel)).mpr (by decide +kernel)
  · exact each.2.2.1 (fun _ _ => ⟨fun _ _ => (by decide : InRange 1),
      fun _ _ => (by decide : InRange 2)⟩) 7 (by decide)
  · exact each.2.2.2 (fun _ _ _ _ => (by decide : InRange 8380416)) 7 (by decide)

/-- Zero inputs with a needless carry in the first polynomial, and a needless selector. -/
def carriedRow : ℕ → M31 := rowCells [0, 0, P - 8380417, 1]

def selectedRow : ℕ → M31 := rowCells [0, 1, 8380417]

theorem selectors_not_functions :
    (¬ ∀ row : ℕ → M31, WPrimeSatisfies row →
      (∀ i < K, InRange (word (wPrimeColumns row i).az) ∧
        InRange (word (wPrimeColumns row i).ct1Neg)) →
      ∀ i < K, word (wPrimeColumns row i).wPrime =
        (word (wPrimeColumns row i).az + word (wPrimeColumns row i).ct1Neg) % Q ∧
        InRange (word (wPrimeColumns row i).wPrime)) ∧
    ¬ ∀ row : ℕ → M31, NormSatisfies row → (∀ j < L, InRange (word (normColumns row j).z)) →
      ∀ j < L, word (normColumns row j).norm =
        min (word (normColumns row j).z) (Q - word (normColumns row j).z) := by
  constructor
  · intro claimed
    have first := claimed carriedRow (by decide +kernel) (by decide +kernel) 0 (by decide)
    exact absurd first.2 (by decide +kernel)
  · intro claimed
    have first := claimed selectedRow (by decide +kernel) (by decide +kernel) 0 (by decide)
    exact absurd first (by decide +kernel)

end Mldsa
end QLSA
