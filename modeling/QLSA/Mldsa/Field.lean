import QLSA.Machine.Numerals
import Mathlib.Data.ZMod.Basic
import Mathlib.Tactic.Ring

namespace QLSA
namespace Mldsa

/-!
# Arithmetic modulo `8380417`

Values are `i64` integers.  The routines expect representatives in `[0, Q)` and
return such; on them they are the operations of the residue ring.
-/

/-- The modulus of the signature scheme. -/
def Q : ℤ := 8380417

instance atLeastTwo_modulus : Nat.AtLeastTwo 8380417 := ⟨by decide⟩

/-- Number of coefficients of a polynomial. -/
def N : ℕ := 256

/-- A root of unity of order 512. -/
def ZETA : ℤ := 1753

/-- The inverse of `N`. -/
def N_INV : ℤ := 8347681

/-- Rows of matrix `A`. -/
def K : ℕ := 6

/-- Columns of matrix `A`. -/
def L : ℕ := 5

/-- Greatest number of marked coefficients. -/
def OMEGA : ℕ := 55

def reduce (a : ℤ) : ℤ :=
  let r := a.tmod Q
  if r < 0 then r + Q else r

def add (a b : ℤ) : ℤ :=
  let r := a + b
  if Q ≤ r then r - Q else r

def sub (a b : ℤ) : ℤ :=
  let r := a - b
  if r < 0 then r + Q else r

def mul (a b : ℤ) : ℤ := (a * b).tmod Q

/-- Square and multiply; one step for each bit of a `u64` exponent. -/
def powLoop : ℕ → ℤ → ℤ → ℕ → ℤ
  | 0, result, _, _ => result
  | bits + 1, result, base, exp =>
      if exp = 0 then result
      else
        let result := if exp % 2 = 1 then (result * base).tmod Q else result
        powLoop bits result ((base * base).tmod Q) (exp / 2)

def pow (base : ℤ) (exp : ℕ) : ℤ := powLoop 64 1 (reduce base) exp

/-! ## Residues -/

/-- The residue ring. -/
abbrev Zq := ZMod 8380417

/-- Representatives of residues. -/
def InRange (a : ℤ) : Prop := 0 ≤ a ∧ a < Q

instance (a : ℤ) : Decidable (InRange a) := inferInstanceAs (Decidable (_ ∧ _))

theorem cast_eq_iff {a b : ℤ} : (a : Zq) = b ↔ a % Q = b % Q :=
  ZMod.intCast_eq_intCast_iff' a b 8380417

/-- Representatives are determined by their residues. -/
theorem InRange.eq_of_cast {a b : ℤ} (first : InRange a) (second : InRange b)
    (same : (a : Zq) = b) : a = b := by
  have residues := cast_eq_iff.mp same
  rwa [Int.emod_eq_of_lt first.1 first.2, Int.emod_eq_of_lt second.1 second.2] at residues

theorem cast_Q : ((Q : ℤ) : Zq) = 0 := by decide

theorem cast_emod (a : ℤ) : ((a % Q : ℤ) : Zq) = a := cast_eq_iff.mpr (Int.emod_emod_of_dvd a dvd_rfl)

theorem emod_inRange (a : ℤ) : InRange (a % Q) :=
  ⟨Int.emod_nonneg a (by decide), Int.emod_lt_of_pos a (by decide)⟩

theorem reduce_eq_emod (a : ℤ) : reduce a = a % Q := by
  have bound : Q.natAbs = 8380417 := rfl
  rw [reduce, Int.tmod_eq_emod, bound]
  by_cases exact : 0 ≤ a ∨ Q ∣ a
  · rw [if_pos exact]
    simp only [Q]
    omega
  · rw [if_neg exact]
    simp only [Q]
    omega

theorem reduce_of_inRange {a : ℤ} (range : InRange a) : reduce a = a := by
  rw [reduce_eq_emod, Int.emod_eq_of_lt range.1 range.2]

theorem add_eq_emod {a b : ℤ} (first : InRange a) (second : InRange b) :
    add a b = (a + b) % Q := by
  simp only [InRange, add, Q] at *
  omega

theorem sub_eq_emod {a b : ℤ} (first : InRange a) (second : InRange b) :
    sub a b = (a - b) % Q := by
  simp only [InRange, sub, Q] at *
  omega

theorem mul_eq_emod {a b : ℤ} (first : InRange a) (second : InRange b) :
    mul a b = a * b % Q :=
  Int.tmod_eq_emod_of_nonneg (mul_nonneg first.1 second.1)

/-- The accumulator times a power of the base is the power asked for. -/
theorem powLoop_spec {bits exp : ℕ} {result base : ℤ} (enough : exp < 2 ^ bits)
    (resultRange : InRange result) (baseRange : InRange base) :
    InRange (powLoop bits result base exp) ∧
      (powLoop bits result base exp : Zq) = result * base ^ exp := by
  induction bits generalizing result base exp with
  | zero =>
      have none : exp = 0 := by simpa using enough
      simp [powLoop, none, resultRange]
  | succ bits ih =>
      rw [powLoop]
      split
      case isTrue none => simp [none, resultRange]
      case isFalse some =>
        have half : exp / 2 < 2 ^ bits := by omega
        have product : mul result base = result * base % Q := mul_eq_emod resultRange baseRange
        have square : mul base base = base * base % Q := mul_eq_emod baseRange baseRange
        have squared : ((base * base).tmod Q : Zq) = (base : Zq) ^ 2 := by
          rw [show (base * base).tmod Q = base * base % Q from square, cast_emod]
          push_cast
          ring
        have squareRange : InRange ((base * base).tmod Q) := by
          rw [show (base * base).tmod Q = base * base % Q from square]
          exact emod_inRange _
        have digits : exp = 2 * (exp / 2) + exp % 2 := (Nat.div_add_mod exp 2).symm
        dsimp only
        split
        case isTrue odd =>
          have range : InRange ((result * base).tmod Q) := by
            rw [show (result * base).tmod Q = result * base % Q from product]
            exact emod_inRange _
          rcases ih half range squareRange with ⟨inRange, value⟩
          refine ⟨inRange, value.trans ?_⟩
          rw [show (result * base).tmod Q = result * base % Q from product, cast_emod, squared,
            ← pow_mul]
          conv_rhs => rw [digits, odd]
          push_cast
          ring
        case isFalse even =>
          rcases ih half resultRange squareRange with ⟨inRange, value⟩
          have zero : exp % 2 = 0 := by omega
          refine ⟨inRange, value.trans ?_⟩
          rw [squared, ← pow_mul]
          conv_rhs => rw [digits, zero, add_zero]

theorem pow_spec (base : ℤ) {exp : ℕ} (fits : exp < 2 ^ 64) :
    InRange (pow base exp) ∧ (pow base exp : Zq) = (base : Zq) ^ exp := by
  have range : InRange (reduce base) := by
    rw [reduce_eq_emod]
    exact emod_inRange base
  rcases powLoop_spec fits (by decide : InRange 1) range with ⟨inRange, value⟩
  refine ⟨inRange, value.trans ?_⟩
  rw [reduce_eq_emod, cast_emod]
  simp

end Mldsa
end QLSA
