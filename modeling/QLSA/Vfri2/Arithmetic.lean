import QLSA.Field.Circle
import QLSA.Stwo.FieldHash

namespace QLSA
namespace Vfri2

open Mersenne Hash

/-!
# Field arithmetic of the hint generator

Base field elements are `u32` values, those of the two extensions are packed
into a `u64` and a `u128`.  Sums and differences of `u64` values wrap as in a
release build and the casts to `u32` truncate.  On packed canonical words
nothing wraps or is cut off, and every routine is the field operation.
-/

/-! ## Base field -/

def m31Reduce (x : ℕ) : ℕ :=
  let r := (x &&& P) + x >>> 31
  if P ≤ r then (r - P) % 2 ^ 32 else r % 2 ^ 32

def m31Add (a b : ℕ) : ℕ := m31Reduce (a + b)

def m31Sub (a b : ℕ) : ℕ :=
  if b ≤ a then (a - b) % 2 ^ 32
  else (a + P + Stwo.u64Modulus - b) % Stwo.u64Modulus % 2 ^ 32

def m31Mul (a b : ℕ) : ℕ := m31Reduce (a * b)

/-- The loop of `m31_pow`; an exponent below `2 ^ fuel` is used up. -/
def m31PowLoop : ℕ → ℕ → ℕ → ℕ → ℕ
  | 0, r, _, _ => r
  | fuel + 1, r, a, e =>
      if e = 0 then r
      else m31PowLoop fuel (if e &&& 1 = 1 then m31Mul r a else r) (m31Mul a a) (e >>> 1)

def m31Pow (a e : ℕ) : ℕ := m31PowLoop 64 1 a e

def m31Inv (a : ℕ) : ℕ := m31Pow a (P - 2)

def m31Neg (a : ℕ) : ℕ := if a = 0 then 0 else (P + 2 ^ 32 - a) % 2 ^ 32

/-! ## Extensions -/

def cm31Pack (re im : ℕ) : ℕ := re <<< 32 ||| im

def cm31Re (x : ℕ) : ℕ := x >>> 32 % 2 ^ 32

def cm31Im (x : ℕ) : ℕ := x % 2 ^ 32

def cm31Add (x y : ℕ) : ℕ :=
  cm31Pack (m31Add (cm31Re x) (cm31Re y)) (m31Add (cm31Im x) (cm31Im y))

def cm31Sub (x y : ℕ) : ℕ :=
  cm31Pack (m31Sub (cm31Re x) (cm31Re y)) (m31Sub (cm31Im x) (cm31Im y))

def cm31Mul (x y : ℕ) : ℕ :=
  let a := cm31Re x
  let b := cm31Im x
  let c := cm31Re y
  let d := cm31Im y
  cm31Pack (m31Sub (m31Mul a c) (m31Mul b d)) (m31Add (m31Mul a d) (m31Mul b c))

def cm31Neg (x : ℕ) : ℕ := cm31Pack (m31Neg (cm31Re x)) (m31Neg (cm31Im x))

def cm31Scale (x s : ℕ) : ℕ := cm31Pack (m31Mul (cm31Re x) s) (m31Mul (cm31Im x) s)

def cm31Inv (x : ℕ) : ℕ :=
  let a := cm31Re x
  let b := cm31Im x
  let norm := m31Inv (m31Add (m31Mul a a) (m31Mul b b))
  cm31Pack (m31Mul a norm) (m31Mul (m31Neg b) norm)

/-- `R = 2 + i` -/
def rCm31 : ℕ := cm31Pack 2 1

def qm31C0 (q : ℕ) : ℕ := q >>> 64 % Stwo.u64Modulus

def qm31C1 (q : ℕ) : ℕ := q % Stwo.u64Modulus

def qm31PackC (c0 c1 : ℕ) : ℕ := c0 <<< 64 ||| c1

def qm31Add (x y : ℕ) : ℕ :=
  qm31PackC (cm31Add (qm31C0 x) (qm31C0 y)) (cm31Add (qm31C1 x) (qm31C1 y))

def qm31Sub (x y : ℕ) : ℕ :=
  qm31PackC (cm31Sub (qm31C0 x) (qm31C0 y)) (cm31Sub (qm31C1 x) (qm31C1 y))

def qm31Mul (x y : ℕ) : ℕ :=
  let a := qm31C0 x
  let b := qm31C1 x
  let c := qm31C0 y
  let d := qm31C1 y
  qm31PackC (cm31Add (cm31Mul a c) (cm31Mul rCm31 (cm31Mul b d)))
    (cm31Add (cm31Mul a d) (cm31Mul b c))

def qm31Neg (x : ℕ) : ℕ := qm31PackC (cm31Neg (qm31C0 x)) (cm31Neg (qm31C1 x))

def qm31ScaleM31 (x s : ℕ) : ℕ := qm31PackC (cm31Scale (qm31C0 x) s) (cm31Scale (qm31C1 x) s)

def qm31Inv (x : ℕ) : ℕ :=
  let a := qm31C0 x
  let b := qm31C1 x
  let norm := cm31Sub (cm31Mul a a) (cm31Mul rCm31 (cm31Mul b b))
  let ni := cm31Inv norm
  qm31PackC (cm31Mul a ni) (cm31Mul (cm31Neg b) ni)

def qm31Div (x y : ℕ) : ℕ := qm31Mul x (qm31Inv y)

def qm31FromM31 (v : ℕ) : ℕ := qm31PackC (cm31Pack v 0) 0

def qm31SubM31 (q m : ℕ) : ℕ := qm31Sub q (qm31FromM31 m)

def qm31MulM31 (q m : ℕ) : ℕ := qm31ScaleM31 q m

/-- The limbs of a packed value, the first one on top. -/
def qm31Words (v : ℕ) : List ℕ :=
  [v >>> 96 % 2 ^ 32, v >>> 64 % 2 ^ 32, v >>> 32 % 2 ^ 32, v % 2 ^ 32]

/-! ## Folds -/

def circleFold (fPlus fMinus alpha yInv : ℕ) : ℕ :=
  let sum := qm31Add fPlus fMinus
  let diff := qm31Sub fPlus fMinus
  let scaled := qm31ScaleM31 diff yInv
  qm31Add sum (qm31Mul alpha scaled)

def lineFold (gPlus gMinus alpha xInv : ℕ) : ℕ :=
  let sum := qm31Add gPlus gMinus
  let diff := qm31Sub gPlus gMinus
  let scaled := qm31ScaleM31 diff xInv
  qm31Add sum (qm31Mul alpha scaled)

/-! ## Canonical words -/

section Words

variable (a b : M31)

/-- One fold of the halves reduces what does not exceed the square of `P`. -/
theorem m31Reduce_eq {x : ℕ} (bounded : x ≤ P * P) : m31Reduce x = x % P := by
  have low : x &&& P = x % 2 ^ 31 := Nat.and_two_pow_sub_one_eq_mod x 31
  have high : x >>> 31 = x / 2 ^ 31 := Nat.shiftRight_eq_div_pow x 31
  have folded : x % P = (x % 2 ^ 31 + x / 2 ^ 31) % P := by
    have whole : x = P * (x / 2 ^ 31) + (x % 2 ^ 31 + x / 2 ^ 31) := by
      simp only [P]
      omega
    conv_lhs => rw [whole, Nat.mul_add_mod]
  have half : x / 2 ^ 31 ≤ P - 1 := by
    simp only [P] at *
    omega
  have digits : x % 2 ^ 31 ≤ P := by
    simp only [P]
    omega
  have twice : x % 2 ^ 31 + x / 2 ^ 31 < P + P := by
    have positive := P_prime.pos
    omega
  rw [m31Reduce, low, high, folded]
  generalize x % 2 ^ 31 + x / 2 ^ 31 = r at twice ⊢
  split
  case isTrue large =>
    rw [Nat.mod_eq_sub_mod large, Nat.mod_eq_of_lt (by omega : r - P < P)]
    apply Nat.mod_eq_of_lt
    simp only [P] at twice ⊢
    omega
  case isFalse below =>
    rw [Nat.mod_eq_of_lt (not_le.mp below)]
    apply Nat.mod_eq_of_lt
    simp only [P] at below
    omega

theorem m31Add_val : m31Add a.val b.val = (a + b).val := by
  have first := Stwo.val_lt_P a
  have second := Stwo.val_lt_P b
  rw [m31Add, m31Reduce_eq (by simp only [P] at *; omega), ZMod.val_add]

theorem m31Mul_val : m31Mul a.val b.val = (a * b).val := by
  have bounded : a.val * b.val ≤ P * P :=
    Nat.mul_le_mul (Stwo.val_lt_P a).le (Stwo.val_lt_P b).le
  rw [m31Mul, m31Reduce_eq bounded, ZMod.val_mul]

theorem m31Sub_val : m31Sub a.val b.val = (a - b).val := by
  have first := Stwo.val_lt_P a
  have second := Stwo.val_lt_P b
  rw [m31Sub]
  split
  case isTrue ordered =>
    rw [ZMod.val_sub ordered, Nat.mod_eq_of_lt]
    simp only [P] at *
    omega
  case isFalse below =>
    have wrapped : (a.val + P + Stwo.u64Modulus - b.val) % Stwo.u64Modulus % 2 ^ 32 =
        a.val + P - b.val := by
      simp only [P, Stwo.u64Modulus] at *
      omega
    rw [wrapped]
    apply Canonical.eq_of_cast (by omega) (Stwo.val_lt_P _)
    rw [Nat.cast_sub (by omega), Nat.cast_add, CharP.cast_eq_zero M31 P]
    simp

theorem m31Neg_val : m31Neg a.val = (-a).val := by
  have bound := Stwo.val_lt_P a
  rw [m31Neg, ZMod.neg_val]
  by_cases zero : a = 0
  · rw [if_pos ((ZMod.val_eq_zero a).mpr zero), if_pos zero]
  · have positive : a.val ≠ 0 := fun vanishes => zero ((ZMod.val_eq_zero a).mp vanishes)
    rw [if_neg positive, if_neg zero]
    simp only [P] at *
    omega

/-- The loop multiplies the accumulator by the power of the base. -/
theorem m31PowLoop_val {fuel e : ℕ} (enough : e < 2 ^ fuel) (r : M31) :
    m31PowLoop fuel r.val a.val e = (r * a ^ e).val := by
  induction fuel generalizing e r a with
  | zero =>
      have none : e = 0 := by simpa using enough
      rw [m31PowLoop, none, pow_zero, mul_one]
  | succ fuel ih =>
      rw [m31PowLoop]
      split
      case isTrue none => rw [none, pow_zero, mul_one]
      case isFalse =>
        have half : e >>> 1 < 2 ^ fuel := by
          rw [Nat.shiftRight_eq_div_pow]
          rw [pow_succ] at enough
          omega
        have whole : e = 2 * (e >>> 1) + e % 2 := by
          rw [Nat.shiftRight_eq_div_pow]
          omega
        rw [m31Mul_val a a, Nat.and_one_is_mod]
        rcases Nat.mod_two_eq_zero_or_one e with even | odd
        · rw [if_neg (by omega), ih _ half]
          conv_rhs => rw [whole, even, Nat.add_zero, pow_mul, sq]
        · rw [if_pos odd, m31Mul_val, ih _ half]
          conv_rhs => rw [whole, odd, pow_succ', pow_mul, sq, ← mul_assoc]

theorem pow_eq_inv : a ^ (P - 2) = a⁻¹ := by
  by_cases zero : a = 0
  · rw [zero, inv_zero]
    exact zero_pow (by decide)
  · apply eq_inv_of_mul_eq_one_left
    have exponent : P - 2 + 1 = P - 1 := by decide
    rw [← pow_succ, exponent, ZMod.pow_card_sub_one_eq_one zero]

/-- The inverse by Fermat's little theorem; that of zero is zero. -/
theorem m31Inv_val : m31Inv a.val = (a⁻¹).val := by
  have one : (1 : M31).val = 1 := ZMod.val_one P
  have fits : P - 2 < 2 ^ 64 := by decide
  have power := m31PowLoop_val a fits 1
  rw [one, one_mul, pow_eq_inv] at power
  exact power

end Words

/-! ## Packed elements -/

/-- The `u64` of an element. -/
def cm31Word (z : CM31) : ℕ := cm31Pack z.re.val z.im.val

/-- The `u128` of an element. -/
def qm31Word (q : QM31) : ℕ := qm31PackC (cm31Word q.re) (cm31Word q.im)

section Packed

theorem val_small (a : M31) : a.val < 2 ^ 32 :=
  lt_trans (Stwo.val_lt_P a) (by decide)

theorem cm31Pack_eq {re im : ℕ} (second : im < 2 ^ 32) : cm31Pack re im = re * 2 ^ 32 + im := by
  rw [cm31Pack, ← Nat.shiftLeft_add_eq_or_of_lt second, Nat.shiftLeft_eq]

theorem cm31Word_lt (z : CM31) : cm31Word z < 2 ^ 64 := by
  have first := val_small z.re
  have second := val_small z.im
  rw [cm31Word, cm31Pack_eq second]
  omega

@[simp] theorem cm31Re_word (z : CM31) : cm31Re (cm31Word z) = z.re.val := by
  have first := val_small z.re
  have second := val_small z.im
  rw [cm31Re, cm31Word, cm31Pack_eq second, Nat.shiftRight_eq_div_pow]
  omega

@[simp] theorem cm31Im_word (z : CM31) : cm31Im (cm31Word z) = z.im.val := by
  have second := val_small z.im
  rw [cm31Im, cm31Word, cm31Pack_eq second]
  omega

theorem qm31PackC_eq {c0 c1 : ℕ} (second : c1 < 2 ^ 64) : qm31PackC c0 c1 = c0 * 2 ^ 64 + c1 := by
  rw [qm31PackC, ← Nat.shiftLeft_add_eq_or_of_lt second, Nat.shiftLeft_eq]

@[simp] theorem qm31C0_word (q : QM31) : qm31C0 (qm31Word q) = cm31Word q.re := by
  have first := cm31Word_lt q.re
  have second := cm31Word_lt q.im
  rw [qm31C0, qm31Word, qm31PackC_eq second, Nat.shiftRight_eq_div_pow, Stwo.u64Modulus]
  omega

@[simp] theorem qm31C1_word (q : QM31) : qm31C1 (qm31Word q) = cm31Word q.im := by
  have second := cm31Word_lt q.im
  rw [qm31C1, qm31Word, qm31PackC_eq second, Stwo.u64Modulus]
  omega

theorem cm31Word_injective : Function.Injective cm31Word := by
  intro z w same
  have re := congrArg cm31Re same
  have im := congrArg cm31Im same
  rw [cm31Re_word, cm31Re_word] at re
  rw [cm31Im_word, cm31Im_word] at im
  exact QuadraticAlgebra.ext (ZMod.val_injective P re) (ZMod.val_injective P im)

theorem qm31Word_injective : Function.Injective qm31Word := by
  intro x y same
  have re := congrArg qm31C0 same
  have im := congrArg qm31C1 same
  rw [qm31C0_word, qm31C0_word] at re
  rw [qm31C1_word, qm31C1_word] at im
  exact QuadraticAlgebra.ext (cm31Word_injective re) (cm31Word_injective im)

theorem cm31Add_word (z w : CM31) : cm31Add (cm31Word z) (cm31Word w) = cm31Word (z + w) := by
  simp only [cm31Add, cm31Re_word, cm31Im_word, m31Add_val]
  rfl

theorem cm31Sub_word (z w : CM31) : cm31Sub (cm31Word z) (cm31Word w) = cm31Word (z - w) := by
  simp only [cm31Sub, cm31Re_word, cm31Im_word, m31Sub_val]
  rfl

theorem cm31Mul_word (z w : CM31) : cm31Mul (cm31Word z) (cm31Word w) = cm31Word (z * w) := by
  have re : z.re * w.re - z.im * w.im = (z * w).re := by
    rw [QuadraticAlgebra.re_mul]
    ring
  have im : z.re * w.im + z.im * w.re = (z * w).im := by
    rw [QuadraticAlgebra.im_mul]
    ring
  simp only [cm31Mul, cm31Re_word, cm31Im_word, m31Mul_val, m31Add_val, m31Sub_val, re, im]
  rfl

theorem cm31Neg_word (z : CM31) : cm31Neg (cm31Word z) = cm31Word (-z) := by
  simp only [cm31Neg, cm31Re_word, cm31Im_word, m31Neg_val]
  rfl

theorem cm31Scale_word (z : CM31) (s : M31) :
    cm31Scale (cm31Word z) s.val = cm31Word (z * algebraMap M31 CM31 s) := by
  have re : z.re * s = (z * algebraMap M31 CM31 s).re := by simp
  have im : z.im * s = (z * algebraMap M31 CM31 s).im := by simp
  simp only [cm31Scale, cm31Re_word, cm31Im_word, m31Mul_val, re, im]
  rfl

theorem cm31Inv_word (z : CM31) : cm31Inv (cm31Word z) = cm31Word z⁻¹ := by
  have norm : z.re * z.re + z.im * z.im = QuadraticAlgebra.norm z := by
    rw [norm_eq_sum]
    ring
  have re : z.re * (QuadraticAlgebra.norm z)⁻¹ = z⁻¹.re := by
    simp [QuadraticAlgebra.re_inv, mul_comm]
  have im : -z.im * (QuadraticAlgebra.norm z)⁻¹ = z⁻¹.im := by
    simp [QuadraticAlgebra.im_inv, mul_comm]
  simp only [cm31Inv, cm31Re_word, cm31Im_word, m31Mul_val, m31Add_val, m31Neg_val, m31Inv_val,
    norm, re, im]
  rfl

theorem qm31Add_word (x y : QM31) : qm31Add (qm31Word x) (qm31Word y) = qm31Word (x + y) := by
  simp only [qm31Add, qm31C0_word, qm31C1_word, cm31Add_word]
  rfl

theorem qm31Sub_word (x y : QM31) : qm31Sub (qm31Word x) (qm31Word y) = qm31Word (x - y) := by
  simp only [qm31Sub, qm31C0_word, qm31C1_word, cm31Sub_word]
  rfl

theorem rCm31_word : rCm31 = cm31Word ⟨2, 1⟩ := rfl

theorem qm31Mul_word (x y : QM31) : qm31Mul (qm31Word x) (qm31Word y) = qm31Word (x * y) := by
  have re : x.re * y.re + ⟨2, 1⟩ * (x.im * y.im) = (x * y).re := by
    rw [QuadraticAlgebra.re_mul]
    ring
  have im : x.re * y.im + x.im * y.re = (x * y).im := by
    rw [QuadraticAlgebra.im_mul]
    ring
  simp only [qm31Mul, rCm31_word, qm31C0_word, qm31C1_word, cm31Mul_word, cm31Add_word, re, im]
  rfl

theorem qm31Neg_word (x : QM31) : qm31Neg (qm31Word x) = qm31Word (-x) := by
  simp only [qm31Neg, qm31C0_word, qm31C1_word, cm31Neg_word]
  rfl

theorem qm31ScaleM31_word (x : QM31) (s : M31) :
    qm31ScaleM31 (qm31Word x) s.val = qm31Word (x * baseValue s) := by
  have re : x.re * algebraMap M31 CM31 s = (x * baseValue s).re := by simp [baseValue]
  have im : x.im * algebraMap M31 CM31 s = (x * baseValue s).im := by simp [baseValue]
  simp only [qm31ScaleM31, qm31C0_word, qm31C1_word, cm31Scale_word, re, im]
  rfl

theorem qm31Inv_word (x : QM31) : qm31Inv (qm31Word x) = qm31Word x⁻¹ := by
  have norm : x.re * x.re - ⟨2, 1⟩ * (x.im * x.im) = QuadraticAlgebra.norm x := by
    rw [QuadraticAlgebra.norm_def]
    ring
  have re : x.re * (QuadraticAlgebra.norm x)⁻¹ = x⁻¹.re := by
    simp [QuadraticAlgebra.re_inv, mul_comm]
  have im : -x.im * (QuadraticAlgebra.norm x)⁻¹ = x⁻¹.im := by
    simp [QuadraticAlgebra.im_inv, mul_comm]
  simp only [qm31Inv, rCm31_word, qm31C0_word, qm31C1_word, cm31Mul_word, cm31Sub_word,
    cm31Inv_word, cm31Neg_word, norm, re, im]
  rfl

theorem qm31Div_word (x y : QM31) : qm31Div (qm31Word x) (qm31Word y) = qm31Word (x / y) := by
  rw [qm31Div, qm31Inv_word, qm31Mul_word, div_eq_mul_inv]

theorem qm31FromM31_word (a : M31) : qm31FromM31 a.val = qm31Word (baseValue a) := by
  have zero : cm31Word 0 = 0 := rfl
  have re : cm31Pack a.val 0 = cm31Word (algebraMap M31 CM31 a) := by
    rw [cm31Word]
    simp
  rw [qm31FromM31, re, qm31Word]
  simp [baseValue, zero]

/-- Both folds are the fold of the field. -/
theorem circleFold_word (plus minus challenge : QM31) (twiddle : M31) :
    circleFold (qm31Word plus) (qm31Word minus) (qm31Word challenge) (m31Inv twiddle.val) =
      qm31Word (fold plus minus challenge twiddle) := by
  simp only [circleFold, m31Inv_val, qm31Add_word, qm31Sub_word, qm31ScaleM31_word, qm31Mul_word]
  rfl

theorem lineFold_word (plus minus challenge : QM31) (twiddle : M31) :
    lineFold (qm31Word plus) (qm31Word minus) (qm31Word challenge) (m31Inv twiddle.val) =
      qm31Word (fold plus minus challenge twiddle) :=
  circleFold_word plus minus challenge twiddle

end Packed

end Vfri2
end QLSA
