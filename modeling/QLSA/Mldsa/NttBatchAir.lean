import QLSA.Mldsa.Ntt
import QLSA.Recursive.PathLane

namespace QLSA
namespace Mldsa

open Mersenne Recursive

/-!
# The batch circuits of the transforms

Each row of a trace is one butterfly, for every polynomial of a batch at once;
the twiddle column is shared.  The constraints see a single row: they bound the
quotient and the product by bits and relate inputs and outputs modulo
`2^31 - 1`.  They connect no row to another and fix no twiddle.  What the rows
compute when their surroundings supply the rest is the subject of this module.
-/

/-- Rows of a trace. -/
def nButterflies : ℕ := 1024

def nBits : ℕ := 23

/-- Columns of one polynomial. -/
def colsPerPoly : ℕ := 8 + 2 * nBits

section Constraints

variable {F : Type*} [CommRing F]

/-- The sum of bits by rising powers of two, up to a bit. -/
def bitSum (bits : ℕ → F) : ℕ → F
  | 0 => bits 0
  | k + 1 => bitSum bits k + bits (k + 1) * 2 ^ (k + 1)

/-- A value is the sum of 23 bits. -/
def decompose (value : F) (bits : ℕ → F) : List F :=
  (value - bitSum bits (nBits - 1)) ::
    (List.range nBits).map fun k => bits k * bits k - bits k

/-- Columns of one polynomial on one row of `NttBatchEval`. -/
structure NttColumns (F : Type*) where
  aIn : F
  bIn : F
  t : F
  carryT : F
  aOut : F
  bOut : F
  carryA : F
  carryB : F
  tBits : ℕ → F
  ctBits : ℕ → F

/-- `NttBatchEval::evaluate` for one polynomial. -/
def nttConstraints (zeta : F) (cols : NttColumns F) : List F :=
  [zeta * cols.bIn - cols.t - cols.carryT * 8380417,
    cols.aOut - cols.aIn - cols.t + cols.carryA * 8380417,
    cols.carryA * cols.carryA - cols.carryA,
    cols.bOut - cols.aIn + cols.t - cols.carryB * 8380417,
    cols.carryB * cols.carryB - cols.carryB] ++
  decompose cols.t cols.tBits ++ decompose cols.carryT cols.ctBits

/-- Columns of one polynomial on one row of `InttBatchEval`. -/
structure InttColumns (F : Type*) where
  aIn : F
  bIn : F
  diff : F
  carryD : F
  aOut : F
  carryA : F
  bOut : F
  carryB : F
  boBits : ℕ → F
  cbBits : ℕ → F

/-- `InttBatchEval::evaluate` for one polynomial. -/
def inttConstraints (zetaInv : F) (cols : InttColumns F) : List F :=
  [cols.diff - cols.aIn + cols.bIn - cols.carryD * 8380417,
    cols.carryD * cols.carryD - cols.carryD,
    cols.aOut - cols.aIn - cols.bIn + cols.carryA * 8380417,
    cols.carryA * cols.carryA - cols.carryA,
    zetaInv * cols.diff - cols.bOut - cols.carryB * 8380417] ++
  decompose cols.bOut cols.boBits ++ decompose cols.carryB cols.cbBits

end Constraints

/-- First column of a polynomial. -/
def polyBase (j : ℕ) : ℕ := 1 + j * colsPerPoly

/-- Columns of one polynomial in the order of the source. -/
def NttColumns.ofCells {F : Type*} (cells : ℕ → F) : NttColumns F :=
  ⟨cells 0, cells 1, cells 2, cells 3, cells 4, cells 5, cells 6, cells 7,
    fun k => cells (8 + k), fun k => cells (8 + nBits + k)⟩

def InttColumns.ofCells {F : Type*} (cells : ℕ → F) : InttColumns F :=
  ⟨cells 0, cells 1, cells 2, cells 3, cells 4, cells 5, cells 6, cells 7,
    fun k => cells (8 + k), fun k => cells (8 + nBits + k)⟩

/-- Columns of a polynomial on a row. -/
def nttColumns (main : Columns) (j row : ℕ) : NttColumns M31 :=
  .ofCells fun i => main (polyBase j + i) row

def inttColumns (main : Columns) (j row : ℕ) : InttColumns M31 :=
  .ofCells fun i => main (polyBase j + i) row

/-- A value written to a trace, by way of `u32`. -/
def bf (v : ℤ) : M31 := (v % 2 ^ 32 : ℤ)

/-- The words of a row as field elements. -/
def rowCells (cells : List ℕ) : ℕ → M31 := fun i => (cells.getD i 0 : ℕ)

/-- Every row satisfies `NttBatchEval`; the twiddle is column zero. -/
def NttSatisfies (nPolys : ℕ) (main : Columns) : Prop :=
  ∀ row < nButterflies,
    Vanish ((List.range nPolys).flatMap fun j =>
      nttConstraints (main 0 row) (nttColumns main j row))

/-- Every row satisfies `InttBatchEval`. -/
def InttSatisfies (nPolys : ℕ) (main : Columns) : Prop :=
  ∀ row < nButterflies,
    Vanish ((List.range nPolys).flatMap fun j =>
      inttConstraints (main 0 row) (inttColumns main j row))

/-! ## One row -/

theorem vanish_flatMap {F : Type*} [CommRing F] {constraints : ℕ → List F} {count : ℕ}
    (vanish : Vanish ((List.range count).flatMap constraints)) {j : ℕ} (inside : j < count) :
    Vanish (constraints j) := fun value member =>
  vanish value (List.mem_flatMap.mpr ⟨j, List.mem_range.mpr inside, member⟩)

theorem bit_cases {bit : M31} (boolean : bit * bit - bit = 0) : bit = 0 ∨ bit = 1 := by
  have product : bit * (bit - 1) = 0 := by
    rw [mul_sub, mul_one]
    exact boolean
  rcases mul_eq_zero.mp product with zero | one
  · exact .inl zero
  · exact .inr (sub_eq_zero.mp one)

/-- Sums of bits are numbers of as many bits. -/
theorem bitSum_small {bits : ℕ → M31} {n : ℕ} (boolean : ∀ k ≤ n, bits k = 0 ∨ bits k = 1) :
    ∃ number : ℕ, number < 2 ^ (n + 1) ∧ bitSum bits n = number := by
  induction n with
  | zero =>
      rcases boolean 0 le_rfl with zero | one
      · exact ⟨0, by decide, by simp [bitSum, zero]⟩
      · exact ⟨1, by decide, by simp [bitSum, one]⟩
  | succ n ih =>
      rcases ih (fun k bound => boolean k (by omega)) with ⟨number, small, value⟩
      have double : 2 ^ (n + 1 + 1) = 2 * 2 ^ (n + 1) := pow_succ' 2 (n + 1)
      rcases boolean (n + 1) le_rfl with zero | one
      · exact ⟨number, by omega, by simp [bitSum, zero, value]⟩
      · refine ⟨number + 2 ^ (n + 1), by omega, ?_⟩
        rw [bitSum, value, one]
        push_cast
        ring

theorem decompose_small {value : M31} {bits : ℕ → M31} (vanish : Vanish (decompose value bits)) :
    value.val < 2 ^ 23 := by
  rw [decompose, vanish_cons] at vanish
  rcases vanish with ⟨sum, booleans⟩
  have boolean : ∀ k ≤ nBits - 1, bits k = 0 ∨ bits k = 1 := by
    intro k bound
    apply bit_cases
    apply booleans
    apply List.mem_map_of_mem (f := fun k => bits k * bits k - bits k)
    exact List.mem_range.mpr (lt_of_le_of_lt bound (by decide))
  rcases bitSum_small boolean with ⟨number, small, same⟩
  have below : number < P := lt_trans small (by decide)
  rw [sub_eq_zero.mp sum, same, ZMod.val_cast_of_lt below]
  exact small

/-- A boolean carry of `Q` closes an equation of small words exactly. -/
theorem carry_exact {carry : M31} (boolean : carry * carry - carry = 0) {first second : ℕ}
    (same : (first : M31) + carry * 8380417 = second) (firstSmall : first < 2 ^ 25)
    (secondSmall : second < 2 ^ 25) : first = second ∨ first + 8380417 = second := by
  have wide : 2 ^ 25 + 8380417 < P := by decide
  rcases bit_cases boolean with zero | one
  · left
    apply Canonical.eq_of_cast (by omega) (by omega)
    rw [← same, zero, zero_mul, add_zero]
  · right
    apply Canonical.eq_of_cast (by omega) (by omega)
    rw [← same, one, one_mul, Nat.cast_add, Nat.cast_ofNat]

/-- The word of a field element. -/
def word (value : M31) : ℤ := value.val

theorem cast_word (value : M31) : ((value.val : ℕ) : M31) = value := ZMod.natCast_zmod_val value

theorem inRange_word {value : M31} : InRange (word value) ↔ value.val < 8380417 := by
  simp only [InRange, word, Q]
  omega

theorem word_intCast {value : ℤ} (range : InRange value) : word (value : M31) = value := by
  have small : value < (P : ℤ) := lt_trans range.2 (by decide)
  rw [word, ZMod.val_intCast, Int.emod_eq_of_lt range.1 small]

theorem bf_eq_cast {v : ℤ} (range : InRange v) : bf v = (v : M31) := by
  have small : v < 2 ^ 32 := lt_trans range.2 (by decide)
  rw [bf, Int.emod_eq_of_lt range.1 small]

theorem word_bf {v : ℤ} (range : InRange v) : word (bf v) = v := by
  rw [bf_eq_cast range, word_intCast range]

/-- A row is a forward butterfly when its product holds over the integers and
its outputs are reduced. -/
theorem nttRow {zeta : M31} {cols : NttColumns M31} (vanish : Vanish (nttConstraints zeta cols))
    (exact : word zeta * word cols.bIn = word cols.t + word cols.carryT * Q)
    (zetaRange : InRange (word zeta)) (aIn : InRange (word cols.aIn))
    (bIn : InRange (word cols.bIn)) (aOut : InRange (word cols.aOut))
    (bOut : InRange (word cols.bOut)) :
    (word cols.aOut, word cols.bOut) = nttPair (word zeta) (word cols.aIn) (word cols.bIn) := by
  rw [nttPair_eq zetaRange aIn bIn, exact]
  unfold nttConstraints at vanish
  simp only [vanish_append, vanish_cons, vanish_nil, and_true] at vanish
  rcases vanish with ⟨⟨⟨_, sum, carryA, difference, carryB⟩, tBits⟩, _⟩
  have tSmall := decompose_small tBits
  rw [inRange_word] at aIn aOut bOut
  have added : cols.aOut.val = cols.aIn.val + cols.t.val ∨
      cols.aOut.val + 8380417 = cols.aIn.val + cols.t.val := by
    apply carry_exact carryA _ (by omega) (by omega)
    rw [Nat.cast_add, cast_word, cast_word, cast_word]
    linear_combination sum
  have subtracted : cols.aIn.val = cols.bOut.val + cols.t.val ∨
      cols.aIn.val + 8380417 = cols.bOut.val + cols.t.val := by
    apply carry_exact carryB _ (by omega) (by omega)
    rw [Nat.cast_add, cast_word, cast_word, cast_word]
    linear_combination -difference
  simp only [word, Q] at *
  ext
  · dsimp only
    omega
  · dsimp only
    omega

/-- A row is an inverse butterfly when its product holds over the integers and
its difference and outputs are reduced. -/
theorem inttRow {zeta : M31} {cols : InttColumns M31} (vanish : Vanish (inttConstraints zeta cols))
    (exact : word zeta * word cols.diff = word cols.bOut + word cols.carryB * Q)
    (zetaRange : InRange (word zeta)) (aIn : InRange (word cols.aIn))
    (bIn : InRange (word cols.bIn)) (diff : InRange (word cols.diff))
    (aOut : InRange (word cols.aOut)) (bOut : InRange (word cols.bOut)) :
    (word cols.aOut, word cols.bOut) =
      nttInvPair (word zeta) (word cols.aIn) (word cols.bIn) := by
  have product : word zeta * word cols.diff % Q = word cols.bOut := by
    rw [exact, Int.add_mul_emod_self_right, Int.emod_eq_of_lt bOut.1 bOut.2]
  unfold inttConstraints at vanish
  simp only [vanish_append, vanish_cons, vanish_nil, and_true] at vanish
  rcases vanish with ⟨⟨⟨difference, carryD, sum, carryA, _⟩, _⟩, _⟩
  rw [inRange_word] at aIn bIn diff aOut
  have added : cols.aOut.val = cols.aIn.val + cols.bIn.val ∨
      cols.aOut.val + 8380417 = cols.aIn.val + cols.bIn.val := by
    apply carry_exact carryA _ (by omega) (by omega)
    rw [Nat.cast_add, cast_word, cast_word, cast_word]
    linear_combination sum
  have subtracted : cols.aIn.val = cols.diff.val + cols.bIn.val ∨
      cols.aIn.val + 8380417 = cols.diff.val + cols.bIn.val := by
    apply carry_exact carryD _ (by omega) (by omega)
    rw [Nat.cast_add, cast_word, cast_word, cast_word]
    linear_combination -difference
  have remainder : (word cols.aIn - word cols.bIn) % Q = word cols.diff := by
    simp only [word, Q]
    omega
  rw [nttInvPair_eq zetaRange (inRange_word.mpr aIn) (inRange_word.mpr bIn)]
  ext
  · simp only [word, Q]
    omega
  · dsimp only
    rw [← product, Int.mul_emod _ (word cols.aIn - word cols.bIn), remainder,
      Int.emod_eq_of_lt zetaRange.1 zetaRange.2]

/-! ## Rows and coefficients -/

/-- Row of the pass on a coefficient, in the stage of a number. -/
def rowOf (number len c : ℕ) : ℕ := 128 * number + c / (2 * len) * len + c % len

/-- Pass of a row of a stage. -/
def passOf (len within : ℕ) : Butterfly :=
  ⟨128 / len + within / len, 2 * len * (within / len) + within % len, len⟩

/-- Distance of a stage of `ntt`. -/
def nttLen (number : ℕ) : ℕ := 2 ^ (7 - number)

/-- Distance of a stage of `ntt_inv`. -/
def nttInvLen (number : ℕ) : ℕ := 2 ^ number

/-- The rows of `build_trace` are the passes of the loops, stage after stage. -/
theorem nttButterflies_rows :
    nttButterflies = (List.range nButterflies).map fun row =>
      passOf (nttLen (row / 128)) (row % 128) := by
  decide +kernel

theorem nttInvButterflies_rows :
    nttInvButterflies = (List.range nButterflies).map fun row =>
      passOf (nttInvLen (row / 128)) (row % 128) := by
  decide +kernel

/-- The row of a pass found in a schedule. -/
theorem pass_eq {passes : List Butterfly} {rows : ℕ → Butterfly}
    (scheduled : passes = (List.range nButterflies).map rows) {row : ℕ} {pass : Butterfly}
    (found : passes[row]? = some pass) : rows row = pass := by
  rw [scheduled, List.getElem?_map] at found
  rcases Option.map_eq_some_iff.mp found with ⟨own, listed, same⟩
  rcases List.getElem?_eq_some_iff.mp listed with ⟨bound, value⟩
  rw [List.getElem_range] at value
  rw [← same, value]

/-- Facts about the row of a coefficient. -/
structure RowFacts (number len c : ℕ) : Prop where
  inside : rowOf number len c < nButterflies
  stage : rowOf number len c / 128 = number
  k : (passOf len (rowOf number len c % 128)).k = 128 / len + c / (2 * len)
  j : c % (2 * len) < len → (passOf len (rowOf number len c % 128)).j = c
  upper : c % (2 * len) < len → rowOf number len (c + len) = rowOf number len c ∧
    ¬ (c + len) % (2 * len) < len
  lower : ¬ c % (2 * len) < len → rowOf number len (c - len) = rowOf number len c ∧
    (c - len) % (2 * len) < len ∧ (c - len) / (2 * len) = c / (2 * len)

theorem rowFacts {number len c : ℕ} (valid : StageLen len) (bound : number < 8)
    (inside : c < N) : RowFacts number len c := by
  simp only [StageLen, List.mem_cons, List.not_mem_nil, or_false] at valid
  simp only [N] at inside
  rcases valid with rfl | rfl | rfl | rfl | rfl | rfl | rfl | rfl
  all_goals
    constructor <;> simp only [rowOf, passOf, nButterflies] <;> omega

/-- The coefficients that the rows of a stage hold in two columns, for the lower
and the upper half of the pairs. -/
def coefficients (lower upper : ℕ → M31) (number len : ℕ) : Coeffs := fun c =>
  word ((if c % (2 * len) < len then lower else upper) (rowOf number len c))

/-- When every row of a stage is a butterfly, the columns of its outputs hold the
stage of the columns of its inputs. -/
theorem coefficients_stage {pair : ℕ → ℤ → ℤ → ℤ × ℤ} {aIn bIn aOut bOut : ℕ → M31}
    {number len : ℕ} (valid : StageLen len) (bound : number < 8)
    (rows : ∀ c < N, c % (2 * len) < len →
      (word (aOut (rowOf number len c)), word (bOut (rowOf number len c))) =
        pair (128 / len + c / (2 * len)) (word (aIn (rowOf number len c)))
          (word (bIn (rowOf number len c)))) :
    Agree (coefficients aOut bOut number len)
      (stage pair len (coefficients aIn bIn number len)) := by
  intro c inside
  have facts := rowFacts valid bound inside
  unfold stage coefficients
  by_cases half : c % (2 * len) < len
  · rcases facts.upper half with ⟨sameRow, upper⟩
    simp only [if_pos half, if_neg upper, sameRow]
    exact congrArg Prod.fst (rows c inside half)
  · rcases facts.lower half with ⟨sameRow, lower, quotient⟩
    have row := rows (c - len) (by omega) lower
    simp only [if_neg half, if_pos lower, sameRow]
    rw [sameRow, quotient] at row
    exact congrArg Prod.snd row

/-- Stages whose inputs are the outputs before them run through the transform. -/
theorem run_stages {pair : ℕ → ℤ → ℤ → ℤ × ℤ} (keeps : KeepsRange pair) {lenOf : ℕ → ℕ}
    (valid : ∀ s < 8, StageLen (lenOf s)) {input output : ℕ → Coeffs} {f : Coeffs}
    (start : Agree (input 0) f) (reduced : Reduced f)
    (wired : ∀ s < 7, Agree (input (s + 1)) (output s))
    (step : ∀ s < 8, Reduced (input s) → Agree (output s) (stage pair (lenOf s) (input s)))
    {s : ℕ} (bound : s < 8) :
    Reduced (output s) ∧
      Agree (output s) ((List.range (s + 1)).foldl (fun f s => stage pair (lenOf s) f) f) := by
  induction s with
  | zero =>
      have same : Reduced (input 0) := fun c inside => start c inside ▸ reduced c inside
      have stepped := step 0 bound same
      constructor
      · intro c inside
        rw [stepped c inside]
        exact same.stage keeps (valid 0 bound) c inside
      · intro c inside
        rw [stepped c inside]
        exact start.stage (valid 0 bound) c inside
  | succ s ih =>
      rcases ih (by omega) with ⟨before, agrees⟩
      have joined := wired s (by omega)
      have same : Reduced (input (s + 1)) := fun c inside => joined c inside ▸ before c inside
      have stepped := step (s + 1) bound same
      constructor
      · intro c inside
        rw [stepped c inside]
        exact same.stage keeps (valid (s + 1) bound) c inside
      · intro c inside
        have whole : Agree (input (s + 1)) _ := fun c inside =>
          (joined c inside).trans (agrees c inside)
        rw [stepped c inside, List.range_succ, List.foldl_append]
        exact whole.stage (valid (s + 1) bound) c inside

/-! ## The transforms -/

/-- Inputs of a polynomial to a stage of `NttBatchEval`. -/
def nttInput (main : Columns) (j s : ℕ) : Coeffs :=
  coefficients (fun row => (nttColumns main j row).aIn) (fun row => (nttColumns main j row).bIn)
    s (nttLen s)

/-- Outputs of a polynomial from a stage of `NttBatchEval`. -/
def nttOutput (main : Columns) (j s : ℕ) : Coeffs :=
  coefficients (fun row => (nttColumns main j row).aOut) (fun row => (nttColumns main j row).bOut)
    s (nttLen s)

/-- Inputs of a polynomial to a stage of `InttBatchEval`. -/
def inttInput (main : Columns) (j s : ℕ) : Coeffs :=
  coefficients (fun row => (inttColumns main j row).aIn)
    (fun row => (inttColumns main j row).bIn) s (nttInvLen s)

/-- Outputs of a polynomial from a stage of `InttBatchEval`. -/
def inttOutput (main : Columns) (j s : ℕ) : Coeffs :=
  coefficients (fun row => (inttColumns main j row).aOut)
    (fun row => (inttColumns main j row).bOut) s (nttInvLen s)

/-- The twiddle column is the table of the loops. -/
def NttTwiddles (main : Columns) : Prop :=
  ∀ row pass, nttButterflies[row]? = some pass → word (main 0 row) = zetaFwd pass.k

def InttTwiddles (main : Columns) : Prop :=
  ∀ row pass, nttInvButterflies[row]? = some pass → word (main 0 row) = zetaInv pass.k

/-- The inputs of a stage are the outputs of the stage before. -/
def NttWired (nPolys : ℕ) (main : Columns) : Prop :=
  ∀ j < nPolys, ∀ s < 7, Agree (nttInput main j (s + 1)) (nttOutput main j s)

def InttWired (nPolys : ℕ) (main : Columns) : Prop :=
  ∀ j < nPolys, ∀ s < 7, Agree (inttInput main j (s + 1)) (inttOutput main j s)

/-- Outputs are reduced. -/
def NttReduced (nPolys : ℕ) (main : Columns) : Prop :=
  ∀ j < nPolys, ∀ row < nButterflies,
    InRange (word (nttColumns main j row).aOut) ∧ InRange (word (nttColumns main j row).bOut)

/-- Differences and outputs are reduced. -/
def InttReduced (nPolys : ℕ) (main : Columns) : Prop :=
  ∀ j < nPolys, ∀ row < nButterflies,
    InRange (word (inttColumns main j row).diff) ∧
      InRange (word (inttColumns main j row).aOut) ∧ InRange (word (inttColumns main j row).bOut)

/-- Products hold over the integers. -/
def NttExact (nPolys : ℕ) (main : Columns) : Prop :=
  ∀ j < nPolys, ∀ row < nButterflies,
    word (main 0 row) * word (nttColumns main j row).bIn =
      word (nttColumns main j row).t + word (nttColumns main j row).carryT * Q

def InttExact (nPolys : ℕ) (main : Columns) : Prop :=
  ∀ j < nPolys, ∀ row < nButterflies,
    word (main 0 row) * word (inttColumns main j row).diff =
      word (inttColumns main j row).bOut + word (inttColumns main j row).carryB * Q

/-- What the rows of `NttBatchEval` take from their surroundings. -/
structure NttSurroundings (nPolys : ℕ) (main : Columns) : Prop where
  twiddles : NttTwiddles main
  wired : NttWired nPolys main
  reduced : NttReduced nPolys main
  exact : NttExact nPolys main

/-- What the rows of `InttBatchEval` take from their surroundings. -/
structure InttSurroundings (nPolys : ℕ) (main : Columns) : Prop where
  twiddles : InttTwiddles main
  wired : InttWired nPolys main
  reduced : InttReduced nPolys main
  exact : InttExact nPolys main

theorem nttLen_valid : ∀ s < 8, StageLen (nttLen s) := by decide

theorem nttInvLen_valid : ∀ s < 8, StageLen (nttInvLen s) := by decide

/-- The pass of the row of a coefficient. -/
theorem butterflies_get {passes : List Butterfly} {lenOf : ℕ → ℕ}
    (rows : passes = (List.range nButterflies).map fun row =>
      passOf (lenOf (row / 128)) (row % 128))
    (valid : ∀ s < 8, StageLen (lenOf s)) {s c : ℕ} (bound : s < 8) (inside : c < N) :
    ∃ pass, passes[rowOf s (lenOf s) c]? = some pass ∧
      pass.k = 128 / lenOf s + c / (2 * lenOf s) := by
  have facts := rowFacts (valid s bound) bound inside
  refine ⟨passOf (lenOf s) (rowOf s (lenOf s) c % 128), ?_, facts.k⟩
  rw [rows, List.getElem?_map, List.getElem?_range facts.inside, Option.map_some, facts.stage]

/-- Inputs of the pass of a lower coefficient. -/
theorem coefficients_pair {lower upper : ℕ → M31} {s len c : ℕ} (valid : StageLen len)
    (bound : s < 8) (inside : c < N) (half : c % (2 * len) < len) :
    coefficients lower upper s len c = word (lower (rowOf s len c)) ∧
      coefficients lower upper s len (c + len) = word (upper (rowOf s len c)) := by
  rcases (@rowFacts s len c valid bound inside).upper half with ⟨sameRow, upperHalf⟩
  simp only [coefficients, if_pos half, if_neg upperHalf, sameRow, and_self]

section Batch

variable {nPolys : ℕ} {main : Columns}

theorem nttOutput_agree (satisfies : NttSatisfies nPolys main)
    (surroundings : NttSurroundings nPolys main) {j : ℕ} (inBatch : j < nPolys) {f : Coeffs}
    (reduced : Reduced f) (start : Agree (nttInput main j 0) f) :
    Agree (nttOutput main j 7) (ntt f) := by
  have step : ∀ s < 8, Reduced (nttInput main j s) →
      Agree (nttOutput main j s)
        (stage (fun k => nttPair (zetaFwd k)) (nttLen s) (nttInput main j s)) := by
    intro s bound inputs
    apply coefficients_stage (nttLen_valid s bound) bound
    intro c inside half
    have valid := nttLen_valid s bound
    have row := (rowFacts valid bound inside).inside
    rcases coefficients_pair valid bound inside half with ⟨lower, upper⟩
    rcases butterflies_get nttButterflies_rows nttLen_valid bound inside with ⟨pass, found, k⟩
    have twiddle := surroundings.twiddles _ pass found
    have outputs := surroundings.reduced j inBatch _ row
    have aIn := inputs c inside
    have bIn := inputs (c + nttLen s) (valid.upper_lt inside half)
    rw [nttInput, lower] at aIn
    rw [nttInput, upper] at bIn
    rw [k] at twiddle
    have zetaRange : InRange (word (main 0 (rowOf s (nttLen s) c))) := by
      rw [twiddle]
      exact (zetaFwd_spec _).1
    rw [← twiddle]
    exact nttRow (vanish_flatMap (satisfies _ row) inBatch) (surroundings.exact j inBatch _ row)
      zetaRange aIn bIn outputs.1 outputs.2
  have run := run_stages nttPair_keepsRange nttLen_valid start reduced
    (surroundings.wired j inBatch) step (by decide : 7 < 8)
  intro c inside
  rw [run.2 c inside, ntt_agree f c inside]
  rfl

theorem inttOutput_agree (satisfies : InttSatisfies nPolys main)
    (surroundings : InttSurroundings nPolys main) {j : ℕ} (inBatch : j < nPolys) {f : Coeffs}
    (reduced : Reduced f) (start : Agree (inttInput main j 0) f) :
    Agree (inttOutput main j 7) (nttInvUnscaled f) := by
  have step : ∀ s < 8, Reduced (inttInput main j s) →
      Agree (inttOutput main j s)
        (stage (fun k => nttInvPair (zetaInv k)) (nttInvLen s) (inttInput main j s)) := by
    intro s bound inputs
    apply coefficients_stage (nttInvLen_valid s bound) bound
    intro c inside half
    have valid := nttInvLen_valid s bound
    have row := (rowFacts valid bound inside).inside
    rcases coefficients_pair valid bound inside half with ⟨lower, upper⟩
    rcases butterflies_get nttInvButterflies_rows nttInvLen_valid bound inside with
      ⟨pass, found, k⟩
    have twiddle := surroundings.twiddles _ pass found
    have outputs := surroundings.reduced j inBatch _ row
    have aIn := inputs c inside
    have bIn := inputs (c + nttInvLen s) (valid.upper_lt inside half)
    rw [inttInput, lower] at aIn
    rw [inttInput, upper] at bIn
    rw [k] at twiddle
    have zetaRange : InRange (word (main 0 (rowOf s (nttInvLen s) c))) := by
      rw [twiddle]
      exact (zetaInv_spec _).1
    rw [← twiddle]
    exact inttRow (vanish_flatMap (satisfies _ row) inBatch) (surroundings.exact j inBatch _ row)
      zetaRange aIn bIn outputs.1 outputs.2.1 outputs.2.2
  have run := run_stages nttInvPair_keepsRange nttInvLen_valid start reduced
    (surroundings.wired j inBatch) step (by decide : 7 < 8)
  intro c inside
  rw [run.2 c inside, nttInvUnscaled_agree f c inside]
  rfl

end Batch

end Mldsa
end QLSA
