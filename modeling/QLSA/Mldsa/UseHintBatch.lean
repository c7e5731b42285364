import QLSA.Mldsa.UseHint
import QLSA.Mldsa.HintWeight

namespace QLSA
namespace Mldsa

open Mersenne Recursive

/-!
# Hints of a batch

One row of the batch circuit corrects a coefficient of every polynomial and adds
its hints to an accumulator.  The parts and the output of each polynomial are
exact within the ranges of the single circuit.  The accumulator needs no range:
its last row is the number of hints set in the whole batch.
-/

/-! ## The circuit and its builder -/

/-- `UseHintBatchEval::evaluate`, the part that both batch circuits share. -/
def useHintBlocks (row : ℕ → M31) : List M31 :=
  (List.range K).flatMap fun i => useHintConstraints (useHintColumns row i)

/-- Column of the accumulator. -/
def sumColumn : ℕ := 10 * K

def useHintRowSum (row : ℕ → M31) : M31 := ∑ i ∈ Finset.range K, (useHintColumns row i).h

/-- `UseHintBatchV2Eval::evaluate`, on a row and the row before. -/
def useHintBatchV2Constraints (row prev : ℕ → M31) (init : M31) : List M31 :=
  useHintBlocks row ++ [accumulated (row sumColumn) (prev sumColumn) (useHintRowSum row) init]

/-- Binary logarithm of the number of rows. -/
def useHintLogRows : ℕ := 8

/-- A trace satisfies `UseHintBatchV2Eval`. -/
def UseHintBatchV2Satisfies (main preproc : Columns) : Prop :=
  ∀ row < 2 ^ useHintLogRows, Vanish (useHintBatchV2Constraints (fun column => main column row)
    (fun column => main column (previousRow useHintLogRows row)) (preproc 0 row))

/-- `build_preproc_v2`. -/
def buildPreprocV2 : Columns := fun _ row => isInit row

/-- The values that `build_trace_v2` writes for one coefficient. -/
def useHintCells (hi : Bool) (ri : ℤ) : UseHintColumns ℤ :=
  let parts := decomposeValSigned ri
  let r0Adj := if GAMMA2 < ri.tmod ALPHA then ri.tmod ALPHA - ALPHA else ri.tmod ALPHA
  { r := ri % Q
    h := hintBit hi
    r1 := parts.1
    r0Red := if parts.2 < 0 then parts.2 + Q else parts.2
    selNeg := if parts.2 < 0 then 1 else 0
    selSp := if ri - r0Adj = Q - 1 then 1 else 0
    selR0pos := if hi ∧ 0 < parts.2 then 1 else 0
    carryUp := if hi ∧ 0 < parts.2 ∧ parts.1 = M - 1 then 1 else 0
    carryDn := if hi ∧ parts.2 ≤ 0 ∧ parts.1 = 0 then 1 else 0
    w1 := useHintVal hi ri }

/-- A row of values in the order of the columns. -/
def UseHintColumns.cell {F : Type*} (cols : UseHintColumns F) : ℕ → F
  | 0 => cols.r
  | 1 => cols.h
  | 2 => cols.r1
  | 3 => cols.r0Red
  | 4 => cols.selNeg
  | 5 => cols.selSp
  | 6 => cols.selR0pos
  | 7 => cols.carryUp
  | 8 => cols.carryDn
  | _ => cols.w1

/-- Hints of one row of a batch. -/
def rowHintSum (hints : ℕ → ℕ → Bool) (p : ℕ) : ℤ := runningSum (fun i => hintBit (hints i p)) K

/-- `build_trace_v2`: the columns, the outputs and the total. -/
def buildTraceV2 (wPrime : ℕ → Coeffs) (hints : ℕ → ℕ → Bool) :
    Columns × Columns × (ℕ → Coeffs) × ℕ :=
  (fun column p =>
    if column < sumColumn then
      bf ((useHintCells (hints (column / 10) p) (wPrime (column / 10) p)).cell (column % 10))
    else bf (runningSum (rowHintSum hints) (p + 1)),
  buildPreprocV2, fun i p => useHintVal (hints i p) (wPrime i p),
  (runningSum (rowHintSum hints) N).toNat)

/-! ## Soundness -/

section Soundness

/-- What one row proves of a polynomial. -/
structure UseHintRow (cols : UseHintColumns M31) : Prop where
  bit : cols.h = 0 ∨ cols.h = 1
  parts : (word cols.r1, lowPart cols) = decomposeVal (word cols.r) ↔ PartRanges cols
  output : PartRanges cols →
    (word cols.w1 = useHintVal (decide (cols.h = 1)) (word cols.r) ↔ OutputRange cols)
  high : PartRanges cols → cols.h = 0 →
    (word cols.w1 = highBitsVal (word cols.r) ↔ word cols.w1 < M)

theorem useHintRow_of_vanish {cols : UseHintColumns M31}
    (vanish : Vanish (useHintConstraints cols)) (r : InRange (word cols.r)) : UseHintRow cols where
  bit := by
    simp only [useHintConstraints, vanish_cons] at vanish
    exact bit_cases vanish.1
  parts := parts_exact_iff vanish r
  output := fun ranges => output_exact_iff vanish r ((parts_exact_iff vanish r).mpr ranges)
  high := by
    intro ranges clear
    have exact := output_exact_iff vanish r ((parts_exact_iff vanish r).mpr ranges)
    have unset : decide (cols.h = 1) = false := by rw [clear]; decide
    have same : highBitsVal (word cols.r) = useHintVal false (word cols.r) := rfl
    rw [unset, OutputRange, clear] at exact
    rw [same]
    simpa only [zero_ne_one, false_imp_iff, and_true] using exact

variable {main : Columns} (satisfied : UseHintBatchV2Satisfies main buildPreprocV2)
include satisfied

theorem UseHintBatchV2Satisfies.bit {row : ℕ} (inside : row < 2 ^ useHintLogRows) {i : ℕ}
    (polynomial : i < K) : (useHintColumns (fun column => main column row) i).h = 0 ∨
      (useHintColumns (fun column => main column row) i).h = 1 := by
  have vanish := satisfied row inside
  rw [useHintBatchV2Constraints, vanish_append, useHintBlocks, vanish_flatMap_iff] at vanish
  have block := vanish.1 i polynomial
  simp only [useHintConstraints, vanish_cons] at block
  exact bit_cases block.1

/-- The last sum is the number of hints set in the batch. -/
theorem UseHintBatchV2Satisfies.weight : (main sumColumn 255).val = ∑ i ∈ Finset.range K,
    ((Finset.range N).filter fun row =>
      (useHintColumns (fun column => main column row) i).h = 1).card := by
  have sums : main sumColumn 255 = ∑ p ∈ Finset.range (255 + 1),
      useHintRowSum fun column => main column p := by
    refine @accumulator_sum _ _ _ _ useHintLogRows (fun row inside => ?_) _ (by decide)
    have vanish := satisfied row inside
    simp only [useHintBatchV2Constraints, vanish_append, vanish_cons] at vanish
    exact vanish.2.1
  have each (i : ℕ) (member : i ∈ Finset.range K) : ∑ p ∈ Finset.range N,
      (useHintColumns (fun column => main column p) i).h = (((Finset.range N).filter fun row =>
        (useHintColumns (fun column => main column row) i).h = 1).card : ℕ) :=
    sum_bits fun p inside => satisfied.bit inside (Finset.mem_range.mp member)
  have total : main sumColumn 255 = ((∑ i ∈ Finset.range K, ((Finset.range N).filter fun row =>
      (useHintColumns (fun column => main column row) i).h = 1).card : ℕ) : M31) := by
    have swapped := sums.trans Finset.sum_comm
    rw [swapped, Nat.cast_sum]
    exact Finset.sum_congr rfl each
  rw [total]
  refine ZMod.val_natCast_of_lt (lt_of_le_of_lt (Finset.sum_le_sum fun i _ =>
    Finset.card_filter_le _ _) ?_)
  rw [Finset.sum_const, Finset.card_range, Finset.card_range]
  decide

end Soundness

/-! ## Completeness -/

section Completeness

/-- A bit of a comparison squares to itself. -/
theorem indicator_sq (condition : Prop) [Decidable condition] :
    (if condition then (1 : ℤ) else 0) * (if condition then 1 else 0) -
      (if condition then 1 else 0) = 0 := by
  split <;> rfl

/-- The special case of a coefficient, by the comparison of the builder. -/
theorem special_iff {ri : ℤ} (range : InRange ri) :
    ri - (if GAMMA2 < ri.tmod ALPHA then ri.tmod ALPHA - ALPHA else ri.tmod ALPHA) = Q - 1 ↔
      Q - GAMMA2 ≤ ri := by
  have remainder : ri.tmod ALPHA = ri % ALPHA := Int.tmod_eq_emod_of_nonneg range.1
  rw [remainder]
  simp only [InRange, gamma2_eq, alpha_eq, Q] at *
  split <;> omega

/-- The values of one coefficient satisfy the constraints over the integers. -/
theorem useHintCells_vanish (hi : Bool) {ri : ℤ} (range : InRange ri) :
    Vanish (useHintConstraints (useHintCells hi ri)) := by
  have special := special_iff range
  have residue : ri % Q = ri := Int.emod_eq_of_lt range.1 range.2
  simp only [useHintConstraints, decomp, useHintCells, decomposeValSigned_eq, vanish_cons,
    indicator_sq, special, residue, useHintVal_eq hi range, true_and, m_eq]
  have boolean : hintBit hi * hintBit hi - hintBit hi = 0 := by cases hi <;> rfl
  refine ⟨boolean, ?_⟩
  rcases decomposeVal_cases range with ⟨above, parts⟩ | ⟨below, sum, low, high, lo, up⟩
  · have negative : ri - Q < 0 := by
      have bound := range.2
      omega
    rw [parts]
    simp only [if_pos above, if_pos negative, not_lt.mpr negative.le, false_and, and_false,
      if_false, negative.le, and_true]
    cases hi
    · simp [hintBit, Q]
    · simp [hintBit, Q]
  · simp only [if_neg (not_le.mpr below)]
    revert sum low high lo up
    generalize decomposeVal ri = parts
    rcases parts with ⟨r1, r0⟩
    intro sum low high lo up
    simp only [alpha_eq, m_eq] at sum low high
    simp only [zero_mul, sub_zero, add_zero, true_and, vanish_nil, and_true]
    refine ⟨?_, ?_, ?_, ?_⟩
    · by_cases negative : r0 < 0
      · simp only [if_pos negative, Q]
        omega
      · simp only [if_neg negative]
        omega
    · split
      case isTrue carried => rw [carried.2.2]; rfl
      case isFalse => simp only [zero_mul, sub_zero]
    · split
      case isTrue carried => rw [carried.2.2]; rfl
      case isFalse => simp only [zero_mul]
    · cases hi
      · simp [hintBit]
      · by_cases sign : 0 < r0
        · simp only [hintBit, sign, not_le.mpr sign, if_true, true_and, false_and, and_false,
            if_false]
          split <;> omega
        · simp only [hintBit, sign, not_lt.mp sign, if_true, true_and, false_and, and_false,
            if_false]
          split <;> omega

theorem InRange.of_lt {v : ℤ} (low : 0 ≤ v) (high : v < M) : InRange v :=
  ⟨low, high.trans (by decide)⟩

theorem indicator_inRange (condition : Prop) [Decidable condition] :
    InRange (if condition then 1 else 0) := by
  split <;> decide

/-- The values of one coefficient are representatives. -/
theorem useHintCells_inRange (hi : Bool) {ri : ℤ} (range : InRange ri) (i : ℕ) :
    InRange ((useHintCells hi ri).cell i) := by
  rcases decomposeVal_high range with ⟨low, high⟩
  have output := useHintVal_range hi range
  have sign : InRange (if (decomposeVal ri).2 < 0 then (decomposeVal ri).2 + Q
      else (decomposeVal ri).2) := by
    rcases decomposeVal_cases range with ⟨-, parts⟩ | ⟨-, -, -, -, lower, upper⟩
    · rw [parts]
      dsimp only
      rw [if_pos (sub_neg_of_lt range.2), sub_add_cancel]
      exact range
    · by_cases negative : (decomposeVal ri).2 < 0
      · rw [if_pos negative]
        simp only [InRange, Q, gamma2_eq] at *
        omega
      · rw [if_neg negative]
        simp only [InRange, Q, gamma2_eq] at *
        omega
  have hint : InRange (hintBit hi) := by cases hi <;> decide
  unfold UseHintColumns.cell useHintCells
  rw [decomposeValSigned_eq]
  split
  · exact emod_inRange ri
  · exact hint
  · exact .of_lt low high
  · exact sign
  · exact indicator_inRange _
  · exact indicator_inRange _
  · exact indicator_inRange _
  · exact indicator_inRange _
  · exact indicator_inRange _
  · exact .of_lt output.1 output.2

theorem sumColumn_eq : sumColumn = 60 := rfl

/-- The block of a polynomial on a row of `build_trace_v2`. -/
theorem useHintColumns_buildTraceV2 (wPrime : ℕ → Coeffs) (hints : ℕ → ℕ → Bool) (p : ℕ) {i : ℕ}
    (polynomial : i < K) :
    useHintColumns (fun column => (buildTraceV2 wPrime hints).1 column p) i =
      .ofCells fun cell => bf ((useHintCells (hints i p) (wPrime i p)).cell cell) := by
  have six : K = 6 := rfl
  have place (cell : ℕ) (small : cell < 10) : 10 * i + cell < 60 ∧
      (10 * i + cell) / 10 = i ∧ (10 * i + cell) % 10 = cell := by omega
  have own (cell : ℕ) (small : cell < 10) : (buildTraceV2 wPrime hints).1 (10 * i + cell) p =
      bf ((useHintCells (hints i p) (wPrime i p)).cell cell) := by
    simp only [buildTraceV2, sumColumn_eq, place cell small, if_true]
  simp only [useHintColumns, UseHintColumns.ofCells, own 0 (by decide), own 1 (by decide),
    own 2 (by decide), own 3 (by decide), own 4 (by decide), own 5 (by decide), own 6 (by decide),
    own 7 (by decide), own 8 (by decide), own 9 (by decide)]

/-- Integers that satisfy the constraints satisfy them as field elements. -/
theorem useHintConstraints_cast {cells : UseHintColumns ℤ}
    (vanish : Vanish (useHintConstraints cells)) :
    Vanish (useHintConstraints (.ofCells fun cell => (cells.cell cell : M31))) := by
  have mapped : useHintConstraints (.ofCells fun cell => (cells.cell cell : M31)) =
      (useHintConstraints cells).map fun v : ℤ => (v : M31) := by
    simp only [useHintConstraints, decomp, UseHintColumns.ofCells, UseHintColumns.cell,
      List.map_cons, List.map_nil]
    push_cast
    rfl
  rw [mapped]
  intro value member
  rcases List.mem_map.mp member with ⟨v, own, rfl⟩
  rw [vanish v own, Int.cast_zero]

/-- The hints of the first rows, polynomial by polynomial. -/
theorem runningSum_rowHintSum (hints : ℕ → ℕ → Bool) (count : ℕ) :
    runningSum (rowHintSum hints) count = (∑ i ∈ Finset.range K, weightOf (hints i) count : ℕ) := by
  have rows : runningSum (rowHintSum hints) count =
      ∑ p ∈ Finset.range count, ∑ i ∈ Finset.range K, hintBit (hints i p) := by
    rw [runningSum_eq]
    exact Finset.sum_congr rfl fun p _ => runningSum_eq _ K
  rw [rows, Finset.sum_comm, Nat.cast_sum]
  exact Finset.sum_congr rfl fun i _ => sum_hintBit (hints i) count

theorem weights_le (hints : ℕ → ℕ → Bool) (count : ℕ) :
    ∑ i ∈ Finset.range K, weightOf (hints i) count ≤ 6 * count := by
  refine (Finset.sum_le_sum fun i _ => weightOf_le (hints i) count).trans ?_
  rw [Finset.sum_const, Finset.card_range]
  exact le_rfl

variable {wPrime : ℕ → Coeffs} (reduced : ∀ i < K, Reduced (wPrime i)) (hints : ℕ → ℕ → Bool)

theorem buildTraceV2_total :
    (buildTraceV2 wPrime hints).2.2.2 = ∑ i ∈ Finset.range K, weightOf (hints i) N := by
  simp only [buildTraceV2]
  rw [runningSum_rowHintSum, Int.toNat_natCast]

include reduced

theorem buildTraceV2_block {p : ℕ} (inside : p < N) {i : ℕ} (polynomial : i < K) :
    useHintColumns (fun column => (buildTraceV2 wPrime hints).1 column p) i =
      .ofCells fun cell => ((useHintCells (hints i p) (wPrime i p)).cell cell : M31) := by
  rw [useHintColumns_buildTraceV2 wPrime hints p polynomial]
  congr 1
  funext cell
  exact bf_eq_cast (useHintCells_inRange _ (reduced i polynomial p inside) cell)

/-- The sums of `build_trace_v2` add up the hints of its rows. -/
theorem buildTraceV2_sum {row : ℕ} (inside : row < N) :
    (buildTraceV2 wPrime hints).1 sumColumn row =
      ∑ p ∈ Finset.range (row + 1),
        useHintRowSum fun column => (buildTraceV2 wPrime hints).1 column p := by
  have range : InRange (runningSum (rowHintSum hints) (row + 1)) := by
    have bound := weights_le hints (row + 1)
    have size : N = 256 := rfl
    rw [runningSum_rowHintSum, InRange, Q]
    omega
  have term (p : ℕ) (own : p < row + 1) :
      (useHintRowSum fun column => (buildTraceV2 wPrime hints).1 column p) =
        ((rowHintSum hints p : ℤ) : M31) := by
    rw [rowHintSum, runningSum_eq, Int.cast_sum, useHintRowSum]
    refine Finset.sum_congr rfl fun i member => ?_
    rw [buildTraceV2_block reduced hints (by omega) (Finset.mem_range.mp member)]
    rfl
  have sums : ∑ p ∈ Finset.range (row + 1),
      (useHintRowSum fun column => (buildTraceV2 wPrime hints).1 column p) =
        ∑ p ∈ Finset.range (row + 1), ((rowHintSum hints p : ℤ) : M31) :=
    Finset.sum_congr rfl fun p member => term p (Finset.mem_range.mp member)
  rw [sums, ← Int.cast_sum, ← runningSum_eq, ← bf_eq_cast range]
  simp only [buildTraceV2, lt_irrefl, if_false]

/-- The trace of `build_trace_v2` satisfies the circuit. -/
theorem buildTraceV2_satisfies : UseHintBatchV2Satisfies (buildTraceV2 wPrime hints).1
    (buildTraceV2 wPrime hints).2.1 := by
  intro row inside
  have rows : 2 ^ useHintLogRows = N := rfl
  rw [useHintBatchV2Constraints, vanish_append, useHintBlocks, vanish_flatMap_iff, vanish_cons]
  refine ⟨fun i polynomial => ?_, ?_, vanish_nil⟩
  · rw [buildTraceV2_block reduced hints (rows ▸ inside) polynomial]
    exact useHintConstraints_cast
      (useHintCells_vanish _ (reduced i polynomial row (rows ▸ inside)))
  · exact accumulated_of_sums (fun p own => buildTraceV2_sum reduced hints (rows ▸ own)) inside

/-- A row of `build_trace_v2` lies in the ranges and holds the output it returns. -/
theorem buildTraceV2_exact {p : ℕ} (inside : p < N) {i : ℕ} (polynomial : i < K)
    {cols : UseHintColumns M31}
    (own : cols = useHintColumns (fun column => (buildTraceV2 wPrime hints).1 column p) i) :
    word cols.r = wPrime i p ∧ (cols.h = 1 ↔ hints i p = true) ∧
      PartRanges cols ∧ OutputRange cols ∧
      word cols.w1 = (buildTraceV2 wPrime hints).2.2.1 i p := by
  have range := reduced i polynomial p inside
  have cells := useHintCells_inRange (hints i p) range
  have vanish := useHintConstraints_cast (useHintCells_vanish (hints i p) range)
  rw [buildTraceV2_block reduced hints inside polynomial] at own
  rw [← own] at vanish
  have residue : wPrime i p % Q = wPrime i p := Int.emod_eq_of_lt range.1 range.2
  have input : word cols.r = wPrime i p := by
    refine Eq.trans ?_ residue
    rw [own]
    exact word_intCast (cells 0)
  have hint : cols.h = 1 ↔ hints i p = true := by
    have cell : cols.h = (hintBit (hints i p) : ℤ) := by rw [own]; rfl
    rw [cell]
    cases hints i p
    · exact ⟨fun one => absurd one (by decide), fun one => absurd one (by decide)⟩
    · exact ⟨fun _ => rfl, fun _ => by decide⟩
  have output : word cols.w1 = useHintVal (hints i p) (wPrime i p) := by
    rw [own]
    exact word_intCast (cells 9)
  have high : word cols.r1 = (decomposeVal (wPrime i p)).1 := by
    rw [own, ← decomposeValSigned_eq]
    exact word_intCast (cells 2)
  have low : lowPart cols = (decomposeVal (wPrime i p)).2 := by
    have residueWord : word cols.r0Red = (useHintCells (hints i p) (wPrime i p)).r0Red := by
      rw [own]
      exact word_intCast (cells 3)
    have signWord : word cols.selNeg = (useHintCells (hints i p) (wPrime i p)).selNeg := by
      rw [own]
      exact word_intCast (cells 4)
    rw [lowPart, residueWord, signWord]
    simp only [useHintCells, decomposeValSigned_eq]
    split <;> omega
  have reducedInput : InRange (word cols.r) := input.symm ▸ range
  have parts : (word cols.r1, lowPart cols) = decomposeVal (word cols.r) := by
    rw [input, high, low]
  have direction : decide (cols.h = 1) = hints i p := by
    rw [Bool.eq_iff_iff, decide_eq_true_iff]
    exact hint
  refine ⟨input, hint, (parts_exact_iff vanish reducedInput).mp parts,
    (output_exact_iff vanish reducedInput parts).mp ?_, output⟩
  rw [output, direction, input]

end Completeness

/-! ## Exact rows and exact weights -/

/-- A row proves `UseHint` exactly within the ranges of its parts and output, and the builder
writes such rows.  `UseHintRow` says what a row proves and within which ranges, for each
polynomial of the batch circuit and for the single one; the rows that the builder fills for
representatives and any hints lie within them. -/
theorem useHint_circuit_exact_iff (row single : ℕ → M31) (wPrime : ℕ → Coeffs)
    (hints : ℕ → ℕ → Bool) :
    (Vanish (useHintBlocks row) → (∀ i < K, InRange (word (useHintColumns row i).r)) →
      ∀ i < K, UseHintRow (useHintColumns row i)) ∧
    (Vanish (useHintConstraints (.ofCells single)) → InRange (word (single 0)) →
      UseHintRow (.ofCells single)) ∧
    ((∀ i < K, Reduced (wPrime i)) →
      UseHintBatchV2Satisfies (buildTraceV2 wPrime hints).1 (buildTraceV2 wPrime hints).2.1 ∧
      ∀ p < N, ∀ i < K, ∀ cols,
        cols = useHintColumns (fun column => (buildTraceV2 wPrime hints).1 column p) i →
        word cols.r = wPrime i p ∧ (cols.h = 1 ↔ hints i p = true) ∧ PartRanges cols ∧
          OutputRange cols ∧ word cols.w1 = (buildTraceV2 wPrime hints).2.2.1 i p) := by
  refine ⟨?_, useHintRow_of_vanish, fun reduced => ⟨buildTraceV2_satisfies reduced hints,
    fun p inside i polynomial cols own => buildTraceV2_exact reduced hints inside polynomial own⟩⟩
  intro vanish ranges i polynomial
  rw [useHintBlocks, vanish_flatMap_iff] at vanish
  exact useHintRow_of_vanish (vanish i polynomial) (ranges i polynomial)

/-- At the largest value the special case applies, and a hint takes the output down. -/
theorem useHint_circuit_exact_last :
    UseHintRow (.ofCells (rowCells [8380416, 1, 0, 8380416, 1, 1, 0, 0, 1, 15])) ∧
      UseHintBatchV2Satisfies (buildTraceV2 (fun _ _ => 8380416) fun _ _ => true).1
        (buildTraceV2 (fun _ _ => 8380416) fun _ _ => true).2.1 := by
  have each := useHint_circuit_exact_iff (fun _ => 0)
    (rowCells [8380416, 1, 0, 8380416, 1, 1, 0, 0, 1, 15]) (fun _ _ => 8380416) fun _ _ => true
  exact ⟨each.2.1 (by decide +kernel) (by decide +kernel),
    (each.2.2 fun _ _ _ _ => (by decide : InRange 8380416)).1⟩

/-- A row whose first polynomial takes one from the wrong part. -/
def borrowedRow : ℕ → M31 := rowCells [0, 0, 1, P - 523776, 0, 0, 0, 0, 0, 1]

theorem useHint_not_proved :
    ¬ ∀ row : ℕ → M31, Vanish (useHintBlocks row) →
      (∀ i < K, InRange (word (useHintColumns row i).r)) → ∀ i < K,
        word (useHintColumns row i).w1 =
          useHintVal (decide ((useHintColumns row i).h = 1)) (word (useHintColumns row i).r) := by
  intro claimed
  exact absurd (claimed borrowedRow (by decide +kernel) (by decide +kernel) 0 (by decide))
    (by decide +kernel)

/-- The accumulators of both circuits hold the number of set hints, in every trace
that satisfies them, and the builders write such traces and return that number. -/
theorem hint_weights_exact (flat batch : Columns) (wPrime : ℕ → Coeffs) (hints : ℕ → ℕ → Bool) :
    (HintWeightSatisfies flat (hintWeightTrace hints).2.1 →
      (∀ row < 2 ^ hintLogRows, flat 1 row = 0 ∨ flat 1 row = 1) ∧
      (∀ row < 2 ^ hintLogRows, HINT_ROWS ≤ row → flat 1 row = 0) ∧
      (flat 0 2047).val = ((Finset.range HINT_ROWS).filter fun row => flat 1 row = 1).card) ∧
    (UseHintBatchV2Satisfies batch buildPreprocV2 →
      (∀ row < 2 ^ useHintLogRows, ∀ i < K,
        (useHintColumns (fun column => batch column row) i).h = 0 ∨
          (useHintColumns (fun column => batch column row) i).h = 1) ∧
      (batch sumColumn 255).val = ∑ i ∈ Finset.range K, ((Finset.range N).filter fun row =>
        (useHintColumns (fun column => batch column row) i).h = 1).card) ∧
    (HintWeightSatisfies (hintWeightTrace hints).1 (hintWeightTrace hints).2.1 ∧
      (hintWeightTrace hints).2.2 = ∑ i ∈ Finset.range K, weightOf (hints i) N) ∧
    ((∀ i < K, Reduced (wPrime i)) →
      UseHintBatchV2Satisfies (buildTraceV2 wPrime hints).1 (buildTraceV2 wPrime hints).2.1 ∧
      (buildTraceV2 wPrime hints).2.2.2 = ∑ i ∈ Finset.range K, weightOf (hints i) N) :=
  ⟨fun satisfied => ⟨fun _ inside => satisfied.bit inside,
      fun _ inside above => satisfied.padding inside above, satisfied.weight⟩,
    fun satisfied => ⟨fun _ inside _ polynomial => satisfied.bit inside polynomial,
      satisfied.weight⟩,
    ⟨hintWeightTrace_satisfies hints, hintWeightTrace_total hints⟩,
    fun reduced => ⟨buildTraceV2_satisfies reduced hints, buildTraceV2_total hints⟩⟩

/-- With every hint set the sums end at the number of coefficients. -/
theorem hint_weights_exact_full :
    ((hintWeightTrace fun _ _ => true).1 0 2047).val =
        ((Finset.range HINT_ROWS).filter fun row =>
          (hintWeightTrace fun _ _ => true).1 1 row = 1).card ∧
      (buildTraceV2 (fun _ _ => 7) fun _ _ => true).2.2.2 =
        ∑ _i ∈ Finset.range K, weightOf (fun _ => true) N := by
  have each := hint_weights_exact (hintWeightTrace fun _ _ => true).1 (fun _ _ => 0)
    (fun _ _ => 7) fun _ _ => true
  exact ⟨(each.1 each.2.2.1.1).2.2, (each.2.2.2 fun _ _ _ _ => (by decide : InRange 7)).2⟩

end Mldsa
end QLSA
