import QLSA.Mldsa.NttBatchTrace

namespace QLSA
namespace Mldsa

open Mersenne Recursive

/-!
# The batch circuits against the transforms

A circuit constrains the rows one by one.  What makes the rows of a trace a
transform comes from its surroundings: the twiddle column, the wires from one
stage to the next, the ranges, and products that hold over the integers.  With
all four the outputs are the transform of the inputs; the builders provide all
four, and no one of them can be left out.
-/

/-- With the right surroundings the batch circuits prove the transforms: the outputs of the last
stage are the transform of the inputs of the first.  The circuits see one row at a time, so the
twiddles, the wiring between stages, the ranges of the outputs and the integer products are
conditions on the trace; every trace that the builders fill meets them. -/
theorem batch_circuits_transform :
    (∀ nPolys main, NttSatisfies nPolys main → NttSurroundings nPolys main →
      ∀ j < nPolys, ∀ f, Reduced f → Agree (nttInput main j 0) f →
        Agree (nttOutput main j 7) (ntt f)) ∧
    (∀ nPolys main, InttSatisfies nPolys main → InttSurroundings nPolys main →
      ∀ j < nPolys, ∀ f, Reduced f → Agree (inttInput main j 0) f →
        Agree (fun c => mul (inttOutput main j 7 c) N_INV) (nttInv f)) := by
  constructor
  · intro nPolys main satisfies surroundings j inBatch f reduced start
    exact nttOutput_agree satisfies surroundings inBatch reduced start
  · intro nPolys main satisfies surroundings j inBatch f reduced start c inside
    have same := inttOutput_agree satisfies surroundings inBatch reduced start c inside
    dsimp only
    rw [same]
    rfl

def risingPoly : Coeffs := fun c => (4190208 + 12345 * c) % Q

def fallingPoly : Coeffs := fun c => Q - 1 - c

theorem reduced_samplePolys : ∀ poly ∈ [risingPoly, fallingPoly], Reduced poly := by
  intro poly member
  rcases List.mem_pair.mp member with rfl | rfl
  · intro c _
    exact emod_inRange _
  · intro c inside
    rw [InRange, fallingPoly, Q]
    rw [N] at inside
    omega

/-- Built traces of two polynomials; their first rows multiply and carry. -/
theorem batch_circuits_transform_built :
    (Agree (nttOutput (nttBuildTrace [risingPoly, fallingPoly]).1 1 7) (ntt fallingPoly) ∧
      (nttColumns (nttBuildTrace [risingPoly, fallingPoly]).1 1 0).carryT = 4808119 ∧
      (nttColumns (nttBuildTrace [risingPoly, fallingPoly]).1 1 0).carryA = 1) ∧
    (Agree (fun c => mul (inttOutput (inttBuildTrace [risingPoly, fallingPoly]).1 0 7 c) N_INV)
        (nttInv risingPoly) ∧
      (inttColumns (inttBuildTrace [risingPoly, fallingPoly]).1 0 0).carryB = 730356 ∧
      (inttColumns (inttBuildTrace [risingPoly, fallingPoly]).1 0 0).carryD = 1) := by
  refine ⟨⟨?_, by decide +kernel, by decide +kernel⟩, ?_, by decide +kernel, by decide +kernel⟩
  · apply batch_circuits_transform.1 2 _ (nttBuildTrace_satisfies reduced_samplePolys)
      (nttBuildTrace_surroundings reduced_samplePolys) 1 (by decide)
    · exact reduced_samplePolys _ (by simp)
    · exact (nttBuildTrace_transforms reduced_samplePolys (by decide : 1 < 2)).1
  · apply batch_circuits_transform.2 2 _ (inttBuildTrace_satisfies reduced_samplePolys)
      (inttBuildTrace_surroundings reduced_samplePolys) 0 (by decide)
    · exact reduced_samplePolys _ (by simp)
    · exact (inttBuildTrace_transforms reduced_samplePolys (by decide : 0 < 2)).1

/-! ## Traces that satisfy the circuits

A trace of zeros with one other row satisfies the constraints as soon as that
row does.  Each part of the surroundings can fail on its own in this way, and
the outputs are then not the transform. -/

/-- A trace of one polynomial, zero but for its twiddles and one row. -/
def oneRowTrace (twiddles : ℕ → M31) (changed : ℕ) (cells : List ℕ) : Columns
  | 0, row => twiddles row
  | i + 1, row => if row = changed then rowCells cells i else 0

section OneRow

variable {twiddles : ℕ → M31} {changed : ℕ} {cells : List ℕ}

theorem oneRowTrace_cells (row : ℕ) :
    (fun i => oneRowTrace twiddles changed cells (polyBase 0 + i) row) =
      if row = changed then rowCells cells else fun _ => 0 := by
  have base : ∀ i, polyBase 0 + i = i + 1 := by
    intro i
    simp only [polyBase, zero_mul, add_zero]
    omega
  funext i
  rw [base, oneRowTrace]
  split <;> rfl

theorem nttColumns_oneRow (row : ℕ) :
    nttColumns (oneRowTrace twiddles changed cells) 0 row =
      .ofCells (if row = changed then rowCells cells else fun _ => 0) := by
  rw [nttColumns, oneRowTrace_cells]

theorem inttColumns_oneRow (row : ℕ) :
    inttColumns (oneRowTrace twiddles changed cells) 0 row =
      .ofCells (if row = changed then rowCells cells else fun _ => 0) := by
  rw [inttColumns, oneRowTrace_cells]

theorem vanish_decompose_zero : Vanish (decompose (0 : M31) fun _ => 0) := by
  decide +kernel

theorem nttConstraints_zero (zeta : M31) :
    Vanish (nttConstraints zeta (.ofCells fun _ => 0)) := by
  have bits := vanish_decompose_zero
  simp [nttConstraints, NttColumns.ofCells, bits]

theorem inttConstraints_zero (zeta : M31) :
    Vanish (inttConstraints zeta (.ofCells fun _ => 0)) := by
  have bits := vanish_decompose_zero
  simp [inttConstraints, InttColumns.ofCells, bits]

theorem nttSatisfies_oneRow
    (row : Vanish (nttConstraints (twiddles changed) (.ofCells (rowCells cells)))) :
    NttSatisfies 1 (oneRowTrace twiddles changed cells) := by
  intro other _
  rw [List.range_one, List.flatMap_singleton, nttColumns_oneRow]
  split
  case isTrue same =>
    rw [same]
    exact row
  case isFalse => exact nttConstraints_zero _

theorem inttSatisfies_oneRow
    (row : Vanish (inttConstraints (twiddles changed) (.ofCells (rowCells cells)))) :
    InttSatisfies 1 (oneRowTrace twiddles changed cells) := by
  intro other _
  rw [List.range_one, List.flatMap_singleton, inttColumns_oneRow]
  split
  case isTrue same =>
    rw [same]
    exact row
  case isFalse => exact inttConstraints_zero _

/-- Coefficients of two columns of such a trace. -/
theorem coefficients_oneRow (lower upper : ℕ) (s len c : ℕ) :
    coefficients
        (fun row => (if row = changed then rowCells cells else fun _ => 0) lower)
        (fun row => (if row = changed then rowCells cells else fun _ => 0) upper) s len c =
      if rowOf s len c = changed then
        word (rowCells cells (if c % (2 * len) < len then lower else upper))
      else 0 := by
  unfold coefficients
  by_cases half : c % (2 * len) < len <;> by_cases same : rowOf s len c = changed <;>
    simp [half, same, word]

theorem coefficients_oneRow_zero {lower upper s len c : ℕ}
    (zero : rowOf s len c = changed → rowCells cells lower = 0 ∧ rowCells cells upper = 0) :
    coefficients
        (fun row => (if row = changed then rowCells cells else fun _ => 0) lower)
        (fun row => (if row = changed then rowCells cells else fun _ => 0) upper) s len c = 0 := by
  rw [coefficients_oneRow]
  split
  case isTrue same =>
    rcases zero same with ⟨first, second⟩
    split <;> simp [first, second, word]
  case isFalse => rfl

/-- The other row keeps the wires when it has inputs only in the first stage and
outputs only in the last. -/
theorem wired_oneRow {lenOf : ℕ → ℕ} (valid : ∀ s < 8, StageLen (lenOf s)) {outUpper : ℕ}
    (inputs : changed / 128 ≠ 0 → rowCells cells 0 = 0 ∧ rowCells cells 1 = 0)
    (outputs : changed / 128 ≠ 7 → rowCells cells 4 = 0 ∧ rowCells cells outUpper = 0)
    {s : ℕ} (bound : s < 7) :
    Agree
      (coefficients (fun row => (if row = changed then rowCells cells else fun _ => 0) 0)
        (fun row => (if row = changed then rowCells cells else fun _ => 0) 1) (s + 1)
        (lenOf (s + 1)))
      (coefficients (fun row => (if row = changed then rowCells cells else fun _ => 0) 4)
        (fun row => (if row = changed then rowCells cells else fun _ => 0) outUpper) s
        (lenOf s)) := by
  intro c inside
  rw [coefficients_oneRow_zero, coefficients_oneRow_zero]
  · rintro rfl
    have number := (@rowFacts s _ c (valid s (by omega)) (by omega) inside).stage
    exact outputs (by omega)
  · rintro rfl
    have number := (@rowFacts (s + 1) _ c (valid (s + 1) (by omega)) (by omega) inside).stage
    exact inputs (by omega)

theorem nttInput_oneRow (s : ℕ) :
    nttInput (oneRowTrace twiddles changed cells) 0 s =
      coefficients (fun row => (if row = changed then rowCells cells else fun _ => 0) 0)
        (fun row => (if row = changed then rowCells cells else fun _ => 0) 1) s (nttLen s) := by
  simp only [nttInput, nttColumns_oneRow, NttColumns.ofCells]

theorem nttOutput_oneRow (s : ℕ) :
    nttOutput (oneRowTrace twiddles changed cells) 0 s =
      coefficients (fun row => (if row = changed then rowCells cells else fun _ => 0) 4)
        (fun row => (if row = changed then rowCells cells else fun _ => 0) 5) s (nttLen s) := by
  simp only [nttOutput, nttColumns_oneRow, NttColumns.ofCells]

theorem inttInput_oneRow (s : ℕ) :
    inttInput (oneRowTrace twiddles changed cells) 0 s =
      coefficients (fun row => (if row = changed then rowCells cells else fun _ => 0) 0)
        (fun row => (if row = changed then rowCells cells else fun _ => 0) 1) s
        (nttInvLen s) := by
  simp only [inttInput, inttColumns_oneRow, InttColumns.ofCells]

theorem inttOutput_oneRow (s : ℕ) :
    inttOutput (oneRowTrace twiddles changed cells) 0 s =
      coefficients (fun row => (if row = changed then rowCells cells else fun _ => 0) 4)
        (fun row => (if row = changed then rowCells cells else fun _ => 0) 6) s
        (nttInvLen s) := by
  simp only [inttOutput, inttColumns_oneRow, InttColumns.ofCells]

theorem word_zero : word 0 = 0 := by simp [word]

theorem nttReduced_oneRow
    (row : InRange (word (rowCells cells 4)) ∧ InRange (word (rowCells cells 5))) :
    NttReduced 1 (oneRowTrace twiddles changed cells) := by
  intro j inBatch other _
  rw [Nat.lt_one_iff.mp inBatch, nttColumns_oneRow]
  split
  · exact row
  · simp only [NttColumns.ofCells, word_zero]
    decide

theorem nttExact_oneRow
    (row : word (twiddles changed) * word (rowCells cells 1) =
      word (rowCells cells 2) + word (rowCells cells 3) * Q) :
    NttExact 1 (oneRowTrace twiddles changed cells) := by
  intro j inBatch other _
  rw [Nat.lt_one_iff.mp inBatch, nttColumns_oneRow]
  split
  case isTrue same =>
    rw [same]
    exact row
  case isFalse => simp [NttColumns.ofCells, word_zero]

theorem inttReduced_oneRow
    (row : InRange (word (rowCells cells 2)) ∧ InRange (word (rowCells cells 4)) ∧
      InRange (word (rowCells cells 6))) :
    InttReduced 1 (oneRowTrace twiddles changed cells) := by
  intro j inBatch other _
  rw [Nat.lt_one_iff.mp inBatch, inttColumns_oneRow]
  split
  · exact row
  · simp only [InttColumns.ofCells, word_zero]
    decide

theorem inttExact_oneRow
    (row : word (twiddles changed) * word (rowCells cells 2) =
      word (rowCells cells 6) + word (rowCells cells 7) * Q) :
    InttExact 1 (oneRowTrace twiddles changed cells) := by
  intro j inBatch other _
  rw [Nat.lt_one_iff.mp inBatch, inttColumns_oneRow]
  split
  case isTrue same =>
    rw [same]
    exact row
  case isFalse => simp [InttColumns.ofCells, word_zero]

end OneRow

/-- The twiddle columns of `build_trace`. -/
def nttTable (row : ℕ) : M31 := (zetaFwd (passOf (nttLen (row / 128)) (row % 128)).k : ℤ)

def inttTable (row : ℕ) : M31 := (zetaInv (passOf (nttInvLen (row / 128)) (row % 128)).k : ℤ)

theorem nttTwiddles_table {changed : ℕ} {cells : List ℕ} :
    NttTwiddles (oneRowTrace nttTable changed cells) := by
  intro row pass found
  rw [oneRowTrace, nttTable, pass_eq nttButterflies_rows found]
  exact word_intCast (zetaFwd_spec _).1

theorem inttTwiddles_table {changed : ℕ} {cells : List ℕ} :
    InttTwiddles (oneRowTrace inttTable changed cells) := by
  intro row pass found
  rw [oneRowTrace, inttTable, pass_eq nttInvButterflies_rows found]
  exact word_intCast (zetaInv_spec _).1

/-- The circuit accepts a trace whose outputs are not the transform of its inputs. -/
def NttFails (main : Columns) (f : Coeffs) : Prop :=
  NttSatisfies 1 main ∧ Reduced f ∧ Agree (nttInput main 0 0) f ∧
    ¬ Agree (nttOutput main 0 7) (ntt f)

def InttFails (main : Columns) (f : Coeffs) : Prop :=
  InttSatisfies 1 main ∧ Reduced f ∧ Agree (inttInput main 0 0) f ∧
    ¬ Agree (fun c => mul (inttOutput main 0 7 c) N_INV) (nttInv f)

/-- The last butterfly has an input that no stage put out. -/
def nttUnwired : Columns := oneRowTrace nttTable 1023 [1, 0, 0, 0, 1, 1]

/-- The last butterfly carries without need. -/
def nttUnreduced : Columns := oneRowTrace nttTable 1023 [0, 0, 0, 0, P - 8380417, 0, 1]

/-- The last product is zero modulo `2^31 - 1` only. -/
def nttInexact : Columns := oneRowTrace nttTable 1023
  [0, 0, 2096895, 256, 2096895, 6283522, 0, 1,
    1, 1, 1, 1, 1, 1, 1, 1, 0, 1, 1, 1, 1, 1, 1, 1, 1, 1, 1, 1, 1, 0, 0,
    0, 0, 0, 0, 0, 0, 0, 0, 1]

/-- Zero twiddles erase the upper coefficient of the first butterfly. -/
def nttUntwiddled : Columns := oneRowTrace (fun _ => 0) 0 [0, 1]

def inttUnwired : Columns := oneRowTrace inttTable 1023 [1, 1, 0, 0, 2]

def inttUnreduced : Columns := oneRowTrace inttTable 1023 [0, 0, 0, 0, P - 8380417, 1]

def inttInexact : Columns := oneRowTrace inttTable 1023
  [0, 0, 0, 0, 0, 0, 2096895, 256,
    1, 1, 1, 1, 1, 1, 1, 1, 0, 1, 1, 1, 1, 1, 1, 1, 1, 1, 1, 1, 1, 0, 0,
    0, 0, 0, 0, 0, 0, 0, 0, 1]

def inttUntwiddled : Columns := oneRowTrace (fun _ => 0) 0 [1, 8380416, 2, 1, 0, 1]

theorem reduced_zero : Reduced fun _ => 0 := fun _ _ => (by decide : InRange 0)

theorem ntt_zero_apply : ntt (fun _ => 0) 254 = 0 := by
  rw [ntt_agree _ 254 (by decide)]
  decide +kernel

theorem nttInv_zero_apply : nttInv (fun _ => 0) 127 = 0 ∧ nttInv (fun _ => 0) 255 = 0 := by
  constructor
  · rw [nttInv, nttInvUnscaled_agree _ 127 (by decide)]
    decide +kernel
  · rw [nttInv, nttInvUnscaled_agree _ 255 (by decide)]
    decide +kernel

/-- A last row without inputs leaves the first stage's inputs zero. -/
theorem lastRow_input {lenOf : ℕ → ℕ} (valid : StageLen (lenOf 0)) (cells : List ℕ) :
    Agree (coefficients (fun row => (if row = 1023 then rowCells cells else fun _ => 0) 0)
      (fun row => (if row = 1023 then rowCells cells else fun _ => 0) 1) 0 (lenOf 0))
      (fun _ => 0) := by
  intro c inside
  apply coefficients_oneRow_zero
  intro same
  have number := (@rowFacts 0 _ c valid (by decide) inside).stage
  omega

theorem nttFails_lastRow {cells : List ℕ}
    (row : Vanish (nttConstraints (nttTable 1023) (.ofCells (rowCells cells))))
    (output : word (rowCells cells 4) ≠ 0) :
    NttFails (oneRowTrace nttTable 1023 cells) fun _ => 0 := by
  refine ⟨nttSatisfies_oneRow row, reduced_zero, ?_, ?_⟩
  · rw [nttInput_oneRow]
    exact lastRow_input (nttLen_valid 0 (by decide)) cells
  · intro same
    have zero := same 254 (by decide)
    rw [nttOutput_oneRow, ntt_zero_apply, coefficients_oneRow] at zero
    exact output zero

theorem inttFails_lastRow {cells : List ℕ}
    (row : Vanish (inttConstraints (inttTable 1023) (.ofCells (rowCells cells))))
    (output : mul (word (rowCells cells 4)) N_INV ≠ 0 ∨
      mul (word (rowCells cells 6)) N_INV ≠ 0) :
    InttFails (oneRowTrace inttTable 1023 cells) fun _ => 0 := by
  refine ⟨inttSatisfies_oneRow row, reduced_zero, ?_, ?_⟩
  · rw [inttInput_oneRow]
    exact lastRow_input (nttInvLen_valid 0 (by decide)) cells
  · intro same
    rcases output with lower | upper
    · have zero := same 127 (by decide)
      dsimp only at zero
      rw [inttOutput_oneRow, nttInv_zero_apply.1, coefficients_oneRow] at zero
      exact lower zero
    · have zero := same 255 (by decide)
      dsimp only at zero
      rw [inttOutput_oneRow, nttInv_zero_apply.2, coefficients_oneRow] at zero
      exact upper zero

/-- The wires of a trace whose last row has no inputs. -/
theorem nttWired_lastRow {cells : List ℕ}
    (inputs : rowCells cells 0 = 0 ∧ rowCells cells 1 = 0) :
    NttWired 1 (oneRowTrace nttTable 1023 cells) := by
  intro j inBatch s bound
  rw [Nat.lt_one_iff.mp inBatch, nttInput_oneRow, nttOutput_oneRow]
  exact wired_oneRow nttLen_valid (fun _ => inputs) (fun other => absurd rfl other) bound

theorem inttWired_lastRow {cells : List ℕ}
    (inputs : rowCells cells 0 = 0 ∧ rowCells cells 1 = 0) :
    InttWired 1 (oneRowTrace inttTable 1023 cells) := by
  intro j inBatch s bound
  rw [Nat.lt_one_iff.mp inBatch, inttInput_oneRow, inttOutput_oneRow]
  exact wired_oneRow nttInvLen_valid (fun _ => inputs) (fun other => absurd rfl other) bound

/-- Input with a single upper coefficient in its first butterfly. -/
def upperInput : Coeffs := fun c => if c = 128 then 1 else 0

/-- Input whose first butterfly has the sum zero. -/
def oppositeInput : Coeffs := fun c => if c = 0 then 1 else if c = 1 then 8380416 else 0

theorem nttUntwiddled_fails : NttFails nttUntwiddled upperInput := by
  refine ⟨nttSatisfies_oneRow (by decide +kernel), ?_, ?_, ?_⟩
  · intro c _
    unfold upperInput
    split <;> decide
  · unfold nttUntwiddled
    rw [nttInput_oneRow]
    intro c inside
    rw [coefficients_oneRow]
    revert c
    decide +kernel
  · intro same
    have output := same 0 (by decide)
    unfold nttUntwiddled at output
    rw [nttOutput_oneRow, ntt_agree _ 0 (by decide), coefficients_oneRow] at output
    exact absurd output (by decide +kernel)

theorem inttUntwiddled_fails : InttFails inttUntwiddled oppositeInput := by
  refine ⟨inttSatisfies_oneRow (by decide +kernel), ?_, ?_, ?_⟩
  · intro c _
    unfold oppositeInput
    split
    · decide
    · split <;> decide
  · unfold inttUntwiddled
    rw [inttInput_oneRow]
    intro c inside
    rw [coefficients_oneRow]
    revert c
    decide +kernel
  · intro same
    have output := same 1 (by decide)
    unfold inttUntwiddled at output
    dsimp only at output
    rw [inttOutput_oneRow, nttInv, nttInvUnscaled_agree _ 1 (by decide),
      coefficients_oneRow] at output
    exact absurd output (by decide +kernel)

/-- No part of the surroundings can be left out: for each there is a trace that
the circuit accepts, that has all the other parts, and whose outputs are not the
transform. -/
theorem batch_circuits_need_surroundings :
    (NttFails nttUnwired (fun _ => 0) ∧
      NttTwiddles nttUnwired ∧ NttReduced 1 nttUnwired ∧ NttExact 1 nttUnwired) ∧
    (NttFails nttUnreduced (fun _ => 0) ∧
      NttTwiddles nttUnreduced ∧ NttWired 1 nttUnreduced ∧ NttExact 1 nttUnreduced) ∧
    (NttFails nttInexact (fun _ => 0) ∧
      NttTwiddles nttInexact ∧ NttWired 1 nttInexact ∧ NttReduced 1 nttInexact) ∧
    (NttFails nttUntwiddled upperInput ∧
      NttWired 1 nttUntwiddled ∧ NttReduced 1 nttUntwiddled ∧ NttExact 1 nttUntwiddled) ∧
    (InttFails inttUnwired (fun _ => 0) ∧
      InttTwiddles inttUnwired ∧ InttReduced 1 inttUnwired ∧ InttExact 1 inttUnwired) ∧
    (InttFails inttUnreduced (fun _ => 0) ∧
      InttTwiddles inttUnreduced ∧ InttWired 1 inttUnreduced ∧ InttExact 1 inttUnreduced) ∧
    (InttFails inttInexact (fun _ => 0) ∧
      InttTwiddles inttInexact ∧ InttWired 1 inttInexact ∧ InttReduced 1 inttInexact) ∧
    (InttFails inttUntwiddled oppositeInput ∧
      InttWired 1 inttUntwiddled ∧ InttReduced 1 inttUntwiddled ∧ InttExact 1 inttUntwiddled) := by
  refine ⟨⟨nttFails_lastRow (by decide +kernel) (by decide +kernel), nttTwiddles_table,
      nttReduced_oneRow (by decide +kernel), nttExact_oneRow (by decide +kernel)⟩,
    ⟨nttFails_lastRow (by decide +kernel) (by decide +kernel), nttTwiddles_table,
      nttWired_lastRow (by decide +kernel), nttExact_oneRow (by decide +kernel)⟩,
    ⟨nttFails_lastRow (by decide +kernel) (by decide +kernel), nttTwiddles_table,
      nttWired_lastRow (by decide +kernel), nttReduced_oneRow (by decide +kernel)⟩,
    ⟨nttUntwiddled_fails, ?_, nttReduced_oneRow (by decide +kernel),
      nttExact_oneRow (by decide +kernel)⟩,
    ⟨inttFails_lastRow (by decide +kernel) (by decide +kernel), inttTwiddles_table,
      inttReduced_oneRow (by decide +kernel), inttExact_oneRow (by decide +kernel)⟩,
    ⟨inttFails_lastRow (by decide +kernel) (by decide +kernel), inttTwiddles_table,
      inttWired_lastRow (by decide +kernel), inttExact_oneRow (by decide +kernel)⟩,
    ⟨inttFails_lastRow (by decide +kernel) (by decide +kernel), inttTwiddles_table,
      inttWired_lastRow (by decide +kernel), inttReduced_oneRow (by decide +kernel)⟩,
    ⟨inttUntwiddled_fails, ?_, inttReduced_oneRow (by decide +kernel),
      inttExact_oneRow (by decide +kernel)⟩⟩
  · intro j inBatch s bound
    unfold nttUntwiddled
    rw [Nat.lt_one_iff.mp inBatch, nttInput_oneRow, nttOutput_oneRow]
    exact wired_oneRow nttLen_valid (fun other => absurd rfl other)
      (fun _ => by decide +kernel) bound
  · intro j inBatch s bound
    unfold inttUntwiddled
    rw [Nat.lt_one_iff.mp inBatch, inttInput_oneRow, inttOutput_oneRow]
    exact wired_oneRow nttInvLen_valid (fun other => absurd rfl other)
      (fun _ => by decide +kernel) bound

end Mldsa
end QLSA
