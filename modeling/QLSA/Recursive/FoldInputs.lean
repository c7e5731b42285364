import QLSA.Recursive.RecursiveVerifierAir
import Mathlib.Tactic.LinearCombination

namespace QLSA
namespace Recursive
namespace RecursiveVerifier

open Hash Mersenne Qm31

/-!
# The operands of the first fold

The composition values of a query are pinned, but each of them stands in one
equation with a folded value and a combination of out-of-domain values, and
nothing pins the combination.  Any two operands with the pinned output of the
first fold can start a chain, and the combinations follow from them.
-/

/-- Satisfying traces agree on the operands that the blocks start from. -/
def InputsFixed (preproc : ℕ → PreprocRow) (queries numFolds logSize : ℕ) : Prop :=
  ∀ first second : ℕ → MainRow,
    Satisfies first preproc logSize → Satisfies second preproc logSize →
    ∀ q < queries, (first (q * (1 + numFolds))).a = (second (q * (1 + numFolds))).a ∧
      (first (q * (1 + numFolds))).b = (second (q * (1 + numFolds))).b

/-! ## Rows from their operands -/

/-- The row with given operands whose other columns are the pinned ones or are
computed; the combinations are what the out-of-domain equations leave. -/
def rowOf (preproc : PreprocRow) (a b : Quad M31) : MainRow where
  px := preproc.px
  zX := preproc.zX
  alpha := preproc.alpha
  inv := preproc.inv
  a := a
  b := b
  comboPos := qsub preproc.compPos (qmul a (oodsPoint preproc.px 0 preproc.zX))
  comboNeg := qsub preproc.compNeg (qmul b (oodsPoint (-preproc.px) 0 preproc.zX))
  compPos := preproc.compPos
  compNeg := preproc.compNeg
  p := qscale (qsub a b) preproc.inv
  out := fold a b preproc.alpha preproc.inv

theorem vanish_gatedDifferences_self (gate : M31) (x : Quad M31) :
    Vanish (gatedDifferences gate x x) := by
  simp [gatedDifferences, Quad.toList, Quad.zipWith]

theorem qsub_qsub_cancel (x y : Quad M31) : y = qsub x (qsub x y) := by
  ext <;> simp [qsub]

/-- Only the chain and the pinned output are left to check. -/
theorem rowOf_vanish {preproc : PreprocRow} {a b : Quad M31} {previous : MainRow}
    (chained : Vanish (gatedDifferences preproc.chainOn a previous.out))
    (output : Vanish (gatedDifferences preproc.isOutput
      (fold a b preproc.alpha preproc.inv) preproc.fin)) :
    Vanish (evaluate (rowOf preproc a b) previous preproc) := by
  rw [fold] at output
  simp only [evaluate, rowOf, vanish_append, vanish_cons, vanish_nil, sub_self, mul_zero, zero_sub,
    vanish_qsub, ← qsub_qsub_cancel, vanish_gatedDifferences_self, chained, output, fold, and_self]

/-! ## Chains with given outputs -/

/-- Half of a value. -/
def half (x : Quad M31) : Quad M31 := qscale x 2⁻¹

theorem mul_half (t : M31) : t * 2⁻¹ + t * 2⁻¹ = t := by
  have two : (2 : M31) ≠ 0 := by decide
  rw [← mul_two, mul_assoc, inv_mul_cancel₀ two, mul_one]

/-- Equal operands fold to their sum, whatever the challenge is. -/
theorem fold_half (x alpha : Quad M31) (inv : M31) : fold (half x) (half x) alpha inv = x := by
  ext <;> simp [fold, half, qadd, qsub, qscale, qmul, Quad.zipWith, Quad.map, mul_half]

/-- Outputs of a chain of equal operands that ends in the pinned value. -/
def outputOf (finals : List ℕ) (numFolds row : ℕ) : Quad M31 :=
  match finals[row / (1 + numFolds)]? with
  | some final => half^[numFolds - row % (1 + numFolds)] (value final)
  | none => noWords

section Chains

variable {finals : List ℕ} {challenges : List QueryChallenges} {numFolds logSize : ℕ}

/-- Inside a block the output of a row is half the next one. -/
theorem outputOf_succ {row : ℕ} (within : (row + 1) % (1 + numFolds) ≠ 0) :
    outputOf finals numFolds row = half (outputOf finals numFolds (row + 1)) := by
  have block : (row + 1) / (1 + numFolds) = row / (1 + numFolds) := by
    rw [Nat.succ_div, if_neg (fun divides => within (Nat.mod_eq_zero_of_dvd divides)), Nat.add_zero]
  have place : (row + 1) % (1 + numFolds) = row % (1 + numFolds) + 1 := by
    have whole := Nat.div_add_mod row (1 + numFolds)
    have next := Nat.div_add_mod (row + 1) (1 + numFolds)
    rw [block] at next
    omega
  have bounded : (row + 1) % (1 + numFolds) < 1 + numFolds := Nat.mod_lt _ (by omega)
  have left : numFolds - row % (1 + numFolds) = numFolds - (row + 1) % (1 + numFolds) + 1 := by
    omega
  rw [outputOf, outputOf, block, left]
  cases finals[row / (1 + numFolds)]? with
  | none => simp [half, noWords, qscale, Quad.map]
  | some final => exact Function.iterate_succ_apply' half _ _

/-- Operands that fold to these outputs, each chained row starting from the
output before it, make a satisfying trace. -/
theorem chain_satisfies {operands : ℕ → Quad M31 × Quad M31}
    (folds : ∀ row, fold (operands row).1 (operands row).2
      (preprocRow finals challenges numFolds row).alpha
      (preprocRow finals challenges numFolds row).inv = outputOf finals numFolds row)
    (starts : ∀ row, row % (1 + numFolds) ≠ 0 →
      (operands row).1 = half (outputOf finals numFolds row)) :
    Satisfies (fun row => rowOf (preprocRow finals challenges numFolds row) (operands row).1
      (operands row).2) (preprocRow finals challenges numFolds) logSize := by
  intro row inside
  apply rowOf_vanish
  · by_cases first : row % (1 + numFolds) = 0
    · have off : (preprocRow finals challenges numFolds row).chainOn = 0 := by
        rw [preprocRow, first]
        split <;> rfl
      rw [off]
      exact vanish_gatedDifferences_zero _ _
    · cases row with
      | zero => exact absurd (Nat.zero_mod _) first
      | succ row =>
          have same : (operands (row + 1)).1 = outputOf finals numFolds row := by
            rw [starts _ first, outputOf_succ first]
          have previous : (rowOf (preprocRow finals challenges numFolds row) (operands row).1
              (operands row).2).out = outputOf finals numFolds row := folds row
          rw [previousRow_succ inside, previous, same]
          exact vanish_gatedDifferences_self _ _
  · rw [folds, preprocRow, outputOf]
    split
    case h_1 final ch found drawn =>
      rw [found]
      by_cases last : row % (1 + numFolds) = numFolds
      · simp only [blockRow, last, if_true, Nat.sub_self, Function.iterate_zero, id_eq]
        exact vanish_gatedDifferences_self _ _
      · simp only [blockRow, last, if_false]
        exact vanish_gatedDifferences_zero _ _
    case h_2 => exact vanish_gatedDifferences_zero _ _

/-! ## Another start -/

/-- Operands of equal halves. -/
def evenOperands (finals : List ℕ) (numFolds row : ℕ) : Quad M31 × Quad M31 :=
  (half (outputOf finals numFolds row), half (outputOf finals numFolds row))

/-- The fold circuit is satisfiable for every value and every challenge. -/
theorem folds_satisfiable (finals : List ℕ) (challenges : List QueryChallenges)
    (numFolds logSize : ℕ) :
    ∃ main, Satisfies main (preprocRow finals challenges numFolds) logSize :=
  ⟨_, @chain_satisfies finals challenges numFolds logSize (evenOperands finals numFolds)
    (fun _ => fold_half _ _ _) (fun _ _ => rfl)⟩

/-- `1` in the extension. -/
def unit : Quad M31 := ⟨1, 0, 0, 0⟩

/-- The first row with other operands, the rest with equal halves. -/
def shiftedOperands (finals : List ℕ) (numFolds : ℕ) (alpha : Quad M31) (inv : M31) (row : ℕ) :
    Quad M31 × Quad M31 :=
  if row = 0 then
    (qadd (half (outputOf finals numFolds row)) (qsub unit (qscale alpha inv)),
      qsub (half (outputOf finals numFolds row)) (qadd unit (qscale alpha inv)))
  else evenOperands finals numFolds row

/-- A shift of both operands that the fold does not see. -/
theorem fold_shifted (x alpha : Quad M31) (inv : M31) :
    fold (qadd (half x) (qsub unit (qscale alpha inv)))
      (qsub (half x) (qadd unit (qscale alpha inv))) alpha inv = x := by
  ext <;> simp only [fold, half, unit, qadd, qsub, qscale, qmul, Quad.zipWith, Quad.map]
  case w0 => linear_combination mul_half x.w0
  case w1 => linear_combination mul_half x.w1
  case w2 => linear_combination mul_half x.w2
  case w3 => linear_combination mul_half x.w3

/-- One of the operands moves. -/
theorem shift_moves (x u : Quad M31) :
    ¬ (x = qadd x (qsub unit u) ∧ x = qsub x (qadd unit u)) := by
  rintro ⟨first, second⟩
  have one : 1 - u.w0 = 0 := by simpa [qadd, qsub, unit, Quad.zipWith] using congrArg Quad.w0 first
  have other : x.w0 = x.w0 - (1 + u.w0) := congrArg Quad.w0 second
  have two : (2 : M31) = 0 := by linear_combination one + other
  exact absurd two (by decide)

/-- With a query there are two chains that start from different operands. -/
theorem inputs_free (query : finals ≠ []) :
    ¬ InputsFixed (preprocRow finals challenges numFolds) finals.length numFolds logSize := by
  intro fixed
  let alpha := (preprocRow finals challenges numFolds 0).alpha
  let inv := (preprocRow finals challenges numFolds 0).inv
  have even : Satisfies (fun row => rowOf (preprocRow finals challenges numFolds row)
      (evenOperands finals numFolds row).1 (evenOperands finals numFolds row).2)
      (preprocRow finals challenges numFolds) logSize :=
    chain_satisfies (fun row => fold_half _ _ _) (fun _ _ => rfl)
  have shifted : Satisfies (fun row => rowOf (preprocRow finals challenges numFolds row)
      (shiftedOperands finals numFolds alpha inv row).1
      (shiftedOperands finals numFolds alpha inv row).2)
      (preprocRow finals challenges numFolds) logSize := by
    apply chain_satisfies
    · intro row
      by_cases first : row = 0
      · rw [first, shiftedOperands, if_pos rfl]
        exact fold_shifted _ _ _
      · rw [shiftedOperands, if_neg first]
        exact fold_half _ _ _
    · intro row within
      have later : row ≠ 0 := by
        rintro rfl
        exact within (Nat.zero_mod _)
      rw [shiftedOperands, if_neg later]
      rfl
  have start := fixed _ _ even shifted 0 (List.length_pos_iff.mpr query)
  rw [Nat.zero_mul] at start
  simp only [rowOf, evenOperands, shiftedOperands, if_true] at start
  exact shift_moves _ _ start

/-- The operands are fixed only where there is no query.  The combinations of an out-of-domain
equation are columns of the prover, so for any operands whatever there are combinations that fit;
two traces with other operands therefore satisfy the circuit over the same pinned columns. -/
theorem inputs_fixed_iff {preproc : ℕ → PreprocRow}
    (built : buildPreproc finals challenges numFolds logSize = .ok preproc) :
    InputsFixed preproc finals.length numFolds logSize ↔ finals = [] := by
  have same : preprocRow finals challenges numFolds = preproc := by
    unfold buildPreproc at built
    dsimp only at built
    split_ifs at built
    exact Except.ok.inj built
  subst same
  constructor
  · intro fixed
    by_contra query
    exact inputs_free query fixed
  · rintro rfl first second _ _ q inside
    exact absurd inside (Nat.not_lt_zero q)

end Chains

/-- Two queries with one line fold each. -/
theorem two_queries_inputs_free : ∃ preproc,
    buildPreproc [8, 9] [⟨1, 0, [5, 6], [3, 4], 0, 0⟩, ⟨1, 0, [5, 6], [3, 4], 0, 0⟩] 1 2 =
      .ok preproc ∧ ¬ InputsFixed preproc 2 1 2 := by
  have built : buildPreproc [8, 9] [⟨1, 0, [5, 6], [3, 4], 0, 0⟩, ⟨1, 0, [5, 6], [3, 4], 0, 0⟩]
      1 2 = .ok _ := rfl
  refine ⟨_, built, ?_⟩
  intro fixed
  cases (inputs_fixed_iff built).mp fixed

/-- One query at `px = 1` and `z_x = 0`, without line folds. -/
theorem one_query_inputs_free : ∃ preproc,
    buildPreproc [0] [⟨1, 0, [1], [1], 0, 0⟩] 0 1 = .ok preproc ∧ ¬ InputsFixed preproc 1 0 1 :=
  ⟨_, rfl, inputs_free (List.cons_ne_nil 0 [])⟩

end RecursiveVerifier
end Recursive
end QLSA
