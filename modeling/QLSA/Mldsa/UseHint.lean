import QLSA.Mldsa.SelectorAir

namespace QLSA
namespace Mldsa

open Mersenne Recursive

/-!
# Hints and their circuit

`UseHint` corrects the high part of a value by a hint bit, in the direction the
sign of the low part gives.  The circuit takes both parts, the sign, the special
case of `Decompose`, the direction and the two carries from the prover.  Its
constraints relate them modulo `2^31 - 1`; the ranges of the parts and the
direction are left to range arguments outside the circuit.  Under these the
parts and the output of a row are those of the algorithm, and never otherwise.
-/

/-! ## The algorithm -/

def GAMMA2 : ℤ := (Q - 1) / 32

def ALPHA : ℤ := 2 * GAMMA2

/-- Number of high parts. -/
def M : ℤ := (Q - 1) / (2 * GAMMA2)

/-- `Decompose`, with the remainder of largest magnitude on the positive side. -/
def decomposeVal (r : ℤ) : ℤ × ℤ :=
  let alpha := 2 * GAMMA2
  let r := reduce r
  let rem := r.tmod alpha
  let r0 := if GAMMA2 < rem then rem - alpha else rem
  let r1 := if r - r0 = Q - 1 then 0 else (r - r0).tdiv alpha
  let r0Final := if r - r0 = Q - 1 then r0 - 1 else r0
  (r1, r0Final)

def highBitsVal (r : ℤ) : ℤ := (decomposeVal r).1

def lowBitsVal (r : ℤ) : ℤ := (decomposeVal r).2

/-- `UseHint`. -/
def useHintVal (h : Bool) (r : ℤ) : ℤ :=
  let parts := decomposeVal r
  if !h then parts.1
  else if 0 < parts.2 then (parts.1 + 1).tmod M
  else (parts.1 - 1 + M).tmod M

/-- The circuit's own copy of `Decompose`. -/
def decomposeValSigned (r : ℤ) : ℤ × ℤ :=
  let r := reduce r
  let rem := r.tmod ALPHA
  let r0 := if GAMMA2 < rem then rem - ALPHA else rem
  if r - r0 = Q - 1 then (0, r0 - 1) else ((r - r0).tdiv ALPHA, r0)

theorem decomposeValSigned_eq (r : ℤ) : decomposeValSigned r = decomposeVal r := by
  unfold decomposeValSigned decomposeVal ALPHA
  dsimp only
  generalize (if GAMMA2 < _ then _ else _ : ℤ) = r0
  by_cases special : reduce r - r0 = Q - 1
  · rw [if_pos special, if_pos special, if_pos special]
  · rw [if_neg special, if_neg special, if_neg special]

theorem gamma2_eq : GAMMA2 = 261888 := by decide

theorem alpha_eq : ALPHA = 523776 := by decide

theorem m_eq : M = 16 := by decide

/-- The two parts of a reduced value: the special case stands above all others. -/
theorem decomposeVal_cases {r : ℤ} (range : InRange r) :
    (Q - GAMMA2 ≤ r ∧ decomposeVal r = (0, r - Q)) ∨
      (r < Q - GAMMA2 ∧ (decomposeVal r).1 * ALPHA + (decomposeVal r).2 = r ∧
        0 ≤ (decomposeVal r).1 ∧ (decomposeVal r).1 < M ∧ -GAMMA2 < (decomposeVal r).2 ∧
        (decomposeVal r).2 ≤ GAMMA2) := by
  have reduced := reduce_of_inRange range
  simp only [InRange, Q] at range
  have alpha : (2 : ℤ) * 261888 = 523776 := rfl
  have remainder : r.tmod 523776 = r % 523776 := Int.tmod_eq_emod_of_nonneg range.1
  simp only [decomposeVal, reduced, gamma2_eq, alpha, remainder, alpha_eq, m_eq, Q]
  by_cases upper : 261888 < r % 523776
  · simp only [if_pos upper]
    have quotient : (r - (r % 523776 - 523776)).tdiv 523776 =
        (r - (r % 523776 - 523776)) / 523776 := Int.tdiv_eq_ediv_of_nonneg (by omega)
    rw [quotient]
    by_cases special : r - (r % 523776 - 523776) = 8380417 - 1
    · left
      simp only [if_pos special, Prod.mk.injEq, true_and]
      omega
    · right
      simp only [if_neg special]
      omega
  · simp only [if_neg upper]
    have quotient : (r - r % 523776).tdiv 523776 = (r - r % 523776) / 523776 :=
      Int.tdiv_eq_ediv_of_nonneg (by omega)
    rw [quotient]
    by_cases special : r - r % 523776 = 8380417 - 1
    · left
      simp only [if_pos special, Prod.mk.injEq, true_and]
      omega
    · right
      simp only [if_neg special]
      omega

/-- The parts outside the special case are determined by their ranges. -/
theorem decomposeVal_eq {r r1 r0 : ℤ} (range : InRange r) (sum : r1 * ALPHA + r0 = r)
    (high : r1 < M) (low : -GAMMA2 < r0) (up : r0 ≤ GAMMA2) : decomposeVal r = (r1, r0) := by
  rcases decomposeVal_cases range with ⟨special, -⟩ | ⟨-, other, first, bound, second, third⟩
  · simp only [alpha_eq, gamma2_eq, m_eq, Q] at *
    omega
  · simp only [alpha_eq, gamma2_eq, m_eq] at *
    ext
    · dsimp only
      omega
    · dsimp only
      omega

theorem decomposeVal_special {r : ℤ} (range : InRange r) (special : Q - GAMMA2 ≤ r) :
    decomposeVal r = (0, r - Q) := by
  rcases decomposeVal_cases range with ⟨-, parts⟩ | ⟨below, -⟩
  · exact parts
  · omega

/-- High parts are below their number in every case. -/
theorem decomposeVal_high {r : ℤ} (range : InRange r) :
    0 ≤ (decomposeVal r).1 ∧ (decomposeVal r).1 < M := by
  rcases decomposeVal_cases range with ⟨-, parts⟩ | ⟨-, -, low, high, -⟩
  · rw [parts]
    exact ⟨le_rfl, (by decide : 0 < M)⟩
  · exact ⟨low, high⟩

/-- `UseHint` with the carries written out. -/
theorem useHintVal_eq (h : Bool) {r : ℤ} (range : InRange r) :
    useHintVal h r = (decomposeVal r).1 +
      if h then
        if 0 < (decomposeVal r).2 then 1 - if (decomposeVal r).1 = M - 1 then M else 0
        else -1 + if (decomposeVal r).1 = 0 then M else 0
      else 0 := by
  rcases decomposeVal_high range with ⟨low, high⟩
  simp only [useHintVal, m_eq] at *
  cases h with
  | false => simp
  | true =>
      simp only [Bool.not_true, Bool.false_eq_true, if_false, if_true]
      have up : ((decomposeVal r).1 + 1).tmod 16 = ((decomposeVal r).1 + 1) % 16 :=
        Int.tmod_eq_emod_of_nonneg (by omega)
      have down : ((decomposeVal r).1 - 1 + 16).tmod 16 = ((decomposeVal r).1 - 1 + 16) % 16 :=
        Int.tmod_eq_emod_of_nonneg (by omega)
      rw [up, down]
      by_cases positive : 0 < (decomposeVal r).2
      · simp only [if_pos positive]
        split <;> omega
      · simp only [if_neg positive]
        split <;> omega

theorem useHintVal_range (hi : Bool) {ri : ℤ} (range : InRange ri) :
    0 ≤ useHintVal hi ri ∧ useHintVal hi ri < M := by
  rcases decomposeVal_high range with ⟨low, high⟩
  rw [useHintVal_eq hi range]
  simp only [m_eq] at *
  cases hi with
  | false => simpa using ⟨low, high⟩
  | true =>
      simp only [if_true]
      split
      · split <;> omega
      · split <;> omega

/-! ## The circuit -/

section Circuit

/-- Columns of one polynomial on one row of `UseHintEval`. -/
structure UseHintColumns (F : Type*) where
  r : F
  h : F
  r1 : F
  r0Red : F
  selNeg : F
  selSp : F
  selR0pos : F
  carryUp : F
  carryDn : F
  w1 : F

def UseHintColumns.ofCells {F : Type*} (cells : ℕ → F) : UseHintColumns F :=
  ⟨cells 0, cells 1, cells 2, cells 3, cells 4, cells 5, cells 6, cells 7, cells 8, cells 9⟩

/-- The left side of the recomposition. -/
def decomp {F : Type*} [CommRing F] (cols : UseHintColumns F) : F :=
  cols.r1 * 523776 + cols.r0Red - cols.selNeg * 8380417 - cols.r

/-- `UseHintEval::evaluate`; the batch circuits repeat it for each polynomial. -/
def useHintConstraints {F : Type*} [CommRing F] (cols : UseHintColumns F) : List F :=
  [cols.h * cols.h - cols.h,
    cols.selNeg * cols.selNeg - cols.selNeg,
    cols.selSp * cols.selSp - cols.selSp,
    cols.selR0pos * cols.selR0pos - cols.selR0pos,
    cols.carryUp * cols.carryUp - cols.carryUp,
    cols.carryDn * cols.carryDn - cols.carryDn,
    decomp cols - cols.selSp * decomp cols,
    cols.selSp * cols.r1,
    cols.selSp * cols.r0Red - cols.selSp * cols.r - cols.selSp * cols.selNeg * 8380417 +
      cols.selSp * 8380417,
    cols.carryUp * cols.r1 - cols.carryUp * 15,
    cols.carryDn * cols.r1,
    cols.w1 - cols.r1 - cols.h * cols.selR0pos - cols.h * cols.selR0pos + cols.h +
      cols.carryUp * 16 - cols.carryDn * 16]

/-- Columns of polynomial `i` on a row. -/
def useHintColumns (row : ℕ → M31) (i : ℕ) : UseHintColumns M31 :=
  .ofCells fun cell => row (10 * i + cell)

/-- The low part that a row encodes by its residue and its sign. -/
def lowPart (cols : UseHintColumns M31) : ℤ := word cols.r0Red - word cols.selNeg * Q

/-- The ranges of the parts, before the correction of the special case. -/
def PartRanges (cols : UseHintColumns M31) : Prop :=
  word cols.r1 < M ∧ -GAMMA2 < lowPart cols + word cols.selSp ∧
    lowPart cols + word cols.selSp ≤ GAMMA2

/-- The range of the output and the direction of the correction. -/
def OutputRange (cols : UseHintColumns M31) : Prop :=
  word cols.w1 < M ∧ (cols.h = 1 → (cols.selR0pos = 1 ↔ 0 < lowPart cols))

instance (cols : UseHintColumns M31) : Decidable (PartRanges cols) :=
  inferInstanceAs (Decidable (_ ∧ _))

instance (cols : UseHintColumns M31) : Decidable (OutputRange cols) :=
  inferInstanceAs (Decidable (_ ∧ _))

end Circuit

/-! ## One row -/

section Rows

/-- Integers of equal residues less than the modulus apart are equal. -/
theorem eq_of_cast_close {first second : ℤ} (same : (first : M31) = second)
    (low : first - second < P) (high : second - first < P) : first = second := by
  have divides : (P : ℤ) ∣ second - first :=
    (ZMod.intCast_eq_intCast_iff_dvd_sub first second P).mp same
  have zero := Int.eq_zero_of_abs_lt_dvd divides (by rw [abs_lt]; omega)
  omega

theorem intCast_word (value : M31) : ((word value : ℤ) : M31) = value := by
  rw [word, Int.cast_natCast, cast_word]

theorem lowPart_cast (cols : UseHintColumns M31) :
    ((lowPart cols : ℤ) : M31) = cols.r0Red - cols.selNeg * 8380417 := by
  rw [lowPart, Int.cast_sub, Int.cast_mul, intCast_word, intCast_word]
  rfl

theorem word_nonneg (value : M31) : 0 ≤ word value := Int.natCast_nonneg _

theorem word_lt (value : M31) : word value < P := Int.ofNat_lt.mpr (Stwo.val_lt_P value)

variable {cols : UseHintColumns M31}

/-- The parts of a row are those of `Decompose` exactly within their ranges. -/
theorem parts_exact_iff (vanish : Vanish (useHintConstraints cols)) (r : InRange (word cols.r)) :
    (word cols.r1, lowPart cols) = decomposeVal (word cols.r) ↔ PartRanges cols := by
  unfold useHintConstraints at vanish
  simp only [vanish_cons, vanish_nil, and_true] at vanish
  rcases vanish with ⟨-, -, spBit, -, -, -, sum, spHigh, spLow, -⟩
  have large : (P : ℤ) = 2147483647 := rfl
  have high := word_nonneg cols.r1
  have zeroWord : word 0 = 0 := by decide
  have oneWord : word 1 = 1 := by decide
  rcases bit_cases spBit with ordinary | special
  · have cast : ((word cols.r1 * ALPHA + lowPart cols : ℤ) : M31) = (word cols.r : ℤ) := by
      have alpha : ((ALPHA : ℤ) : M31) = 523776 := by decide
      rw [Int.cast_add, Int.cast_mul, lowPart_cast, intCast_word, intCast_word, alpha]
      unfold decomp at sum
      linear_combination sum + (cols.r1 * 523776 + cols.r0Red - cols.selNeg * 8380417 - cols.r) *
        ordinary
    rw [PartRanges, ordinary, zeroWord, add_zero]
    constructor
    · intro same
      rcases decomposeVal_cases r with ⟨-, parts⟩ | ⟨-, -, -, bound, low, up⟩
      · rw [parts, Prod.mk.injEq] at same
        rcases same with ⟨zero, below⟩
        rw [zero, below] at cast
        have wrapped := eq_of_cast_close cast (by simp only [Q, large]; omega)
          (by simp only [Q, large]; omega)
        simp only [Q] at wrapped
        omega
      · rw [← same] at bound low up
        exact ⟨bound, low, up⟩
    · rintro ⟨bound, low, up⟩
      have exact : word cols.r1 * ALPHA + lowPart cols = word cols.r := by
        apply eq_of_cast_close cast
        · simp only [alpha_eq, gamma2_eq, m_eq, InRange, Q, large] at *
          omega
        · simp only [alpha_eq, gamma2_eq, m_eq, InRange, Q, large] at *
          omega
      exact (decomposeVal_eq r exact bound low up).symm
  · have zero : cols.r1 = 0 := by
      rw [special, one_mul] at spHigh
      exact spHigh
    have cast : ((lowPart cols : ℤ) : M31) = (word cols.r - Q : ℤ) := by
      have modulus : ((Q : ℤ) : M31) = 8380417 := by decide
      rw [lowPart_cast, Int.cast_sub, intCast_word, modulus]
      linear_combination spLow - (cols.r0Red - cols.r - cols.selNeg * 8380417 + 8380417) * special
    rw [PartRanges, special, oneWord, zero, zeroWord]
    constructor
    · intro same
      rcases decomposeVal_cases r with ⟨above, parts⟩ | ⟨-, total, -⟩
      · rw [parts, Prod.mk.injEq] at same
        simp only [gamma2_eq, m_eq, InRange, Q] at *
        omega
      · rw [← same] at total
        simp only [zero_mul, zero_add] at total
        rw [total] at cast
        have wrapped := eq_of_cast_close cast (by simp only [Q, large]; omega)
          (by simp only [Q, large]; omega)
        simp only [Q] at wrapped
        omega
    · rintro ⟨-, low, up⟩
      have exact : lowPart cols = word cols.r - Q := by
        apply eq_of_cast_close cast
        · simp only [gamma2_eq, InRange, Q, large] at *
          omega
        · simp only [gamma2_eq, InRange, Q, large] at *
          omega
      rw [decomposeVal_special r (by simp only [gamma2_eq, Q] at *; omega), exact]

/-- A carry is taken only at the end of the range it carries from. -/
theorem carry_word {carry value : M31} {bound : ℕ} (small : bound < P)
    (boolean : carry * carry - carry = 0) (own : carry * value - carry * (bound : ℕ) = 0) :
    word carry = 0 ∨ word carry = 1 ∧ word value = bound := by
  rcases bit_cases boolean with rfl | rfl
  · exact .inl (by decide)
  · have same : value = (bound : ℕ) := by
      rw [one_mul, one_mul] at own
      exact sub_eq_zero.mp own
    have canonical : ((bound : ℕ) : M31).val = bound := ZMod.val_natCast_of_lt small
    refine .inr ⟨by decide, ?_⟩
    rw [same, word, canonical]

/-- With its parts right, a row computes `UseHint` exactly when its output is in
range and its direction is the sign of the low part. -/
theorem output_exact_iff (vanish : Vanish (useHintConstraints cols)) (r : InRange (word cols.r))
    (parts : (word cols.r1, lowPart cols) = decomposeVal (word cols.r)) :
    word cols.w1 = useHintVal (decide (cols.h = 1)) (word cols.r) ↔ OutputRange cols := by
  have bounds := decomposeVal_high r
  rw [useHintVal_eq _ r]
  rw [← parts] at bounds ⊢
  unfold useHintConstraints at vanish
  simp only [vanish_cons, vanish_nil, and_true] at vanish
  rcases vanish with ⟨hBit, -, -, directionBit, upBit, downBit, -, -, -, up, down, output⟩
  have large : (P : ℤ) = 2147483647 := rfl
  have small := word_lt cols.w1
  have positive := word_nonneg cols.w1
  simp only [m_eq] at bounds
  have upward : word cols.carryUp = 0 ∨ word cols.carryUp = 1 ∧ word cols.r1 = 15 :=
    carry_word (by decide) upBit up
  have downward : word cols.carryDn = 0 ∨ word cols.carryDn = 1 ∧ word cols.r1 = 0 :=
    carry_word (by decide) downBit (by rw [Nat.cast_zero, mul_zero, sub_zero]; exact down)
  -- what the last constraint says of the words, when it leaves the modulus aside
  have exact (step : ℤ) (named : ((step : ℤ) : M31) = 2 * cols.h * cols.selR0pos - cols.h)
      (unit : -1 ≤ step ∧ step ≤ 1) : 16 ≤ word cols.w1 ∨
      word cols.w1 = word cols.r1 + step - word cols.carryUp * 16 + word cols.carryDn * 16 := by
    refine or_iff_not_imp_left.mpr fun bound => eq_of_cast_close ?_ ?_ ?_
    · push_cast
      simp only [intCast_word, named]
      linear_combination output
    · omega
    · omega
  rw [OutputRange, m_eq]
  rcases bit_cases hBit with clear | set
  · have kept := exact 0 (by rw [clear]; simp) (by decide)
    have unset : decide (cols.h = 1) = false := by rw [clear]; decide
    rw [unset, clear]
    simp only [Bool.false_eq_true, if_false, zero_ne_one, false_imp_iff, and_true]
    omega
  · have hinted : decide (cols.h = 1) = true := by rw [set]; decide
    rw [hinted, set]
    simp only [if_true, true_imp_iff]
    rcases bit_cases directionBit with minus | plus
    · have lowered := exact (-1) (by rw [set, minus]; simp) (by decide)
      simp only [minus, zero_ne_one, false_iff]
      by_cases sign : 0 < lowPart cols
      · rw [if_pos sign]
        split <;> omega
      · rw [if_neg sign]
        split <;> omega
    · have raised := exact 1 (by rw [set, plus]; ring) (by decide)
      simp only [plus, true_iff]
      by_cases sign : 0 < lowPart cols
      · rw [if_pos sign]
        split <;> omega
      · rw [if_neg sign]
        split <;> omega

end Rows

end Mldsa
end QLSA
