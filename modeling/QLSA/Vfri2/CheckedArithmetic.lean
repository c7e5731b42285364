import QLSA.Vfri2.Arithmetic

namespace QLSA
namespace Vfri2
namespace Checked

open Mersenne Hash

/-!
# Field arithmetic that panics

The same routines in a build that checks arithmetic: `none` is the panic of a
sum, a difference or a product that leaves its type.  The reduction fits
whatever it is given.  A difference and a negation fit on reduced words, and
all words that the routines for the extensions hand on are reduced, so on
canonical words no routine panics and each is the field operation.
-/

def u64Add (a b : ℕ) : Option ℕ := if a + b < Stwo.u64Modulus then some (a + b) else none

def u64Mul (a b : ℕ) : Option ℕ := if a * b < Stwo.u64Modulus then some (a * b) else none

/-- A difference of unsigned words of either size. -/
def unsignedSub (a b : ℕ) : Option ℕ := if b ≤ a then some (a - b) else none

/-! ## Base field -/

def m31Reduce (x : ℕ) : Option ℕ := do
  let r ← u64Add (x &&& P) (x >>> 31)
  if P ≤ r then
    let reduced ← unsignedSub r P
    return reduced % 2 ^ 32
  else return r % 2 ^ 32

def m31Add (a b : ℕ) : Option ℕ := do
  let sum ← u64Add a b
  m31Reduce sum

def m31Sub (a b : ℕ) : Option ℕ :=
  if b ≤ a then do
    let difference ← unsignedSub a b
    return difference % 2 ^ 32
  else do
    let raised ← u64Add a P
    let difference ← unsignedSub raised b
    return difference % 2 ^ 32

def m31Mul (a b : ℕ) : Option ℕ := do
  let product ← u64Mul a b
  m31Reduce product

/-- The loop of `m31_pow`; an exponent below `2 ^ fuel` is used up. -/
def m31PowLoop : ℕ → ℕ → ℕ → ℕ → Option ℕ
  | 0, r, _, _ => some r
  | fuel + 1, r, a, e =>
      if e = 0 then some r
      else do
        let next ← (if e &&& 1 = 1 then m31Mul r a else some r)
        let square ← m31Mul a a
        m31PowLoop fuel next square (e >>> 1)

def m31Pow (a e : ℕ) : Option ℕ := m31PowLoop 64 1 a e

def m31Inv (a : ℕ) : Option ℕ := m31Pow a (P - 2)

def m31Neg (a : ℕ) : Option ℕ := if a = 0 then some 0 else unsignedSub P a

/-! ## Extensions -/

def cm31Add (x y : ℕ) : Option ℕ := do
  let re ← m31Add (cm31Re x) (cm31Re y)
  let im ← m31Add (cm31Im x) (cm31Im y)
  return cm31Pack re im

def cm31Sub (x y : ℕ) : Option ℕ := do
  let re ← m31Sub (cm31Re x) (cm31Re y)
  let im ← m31Sub (cm31Im x) (cm31Im y)
  return cm31Pack re im

def cm31Mul (x y : ℕ) : Option ℕ := do
  let a := cm31Re x
  let b := cm31Im x
  let c := cm31Re y
  let d := cm31Im y
  let ac ← m31Mul a c
  let bd ← m31Mul b d
  let re ← m31Sub ac bd
  let ad ← m31Mul a d
  let bc ← m31Mul b c
  let im ← m31Add ad bc
  return cm31Pack re im

def cm31Neg (x : ℕ) : Option ℕ := do
  let re ← m31Neg (cm31Re x)
  let im ← m31Neg (cm31Im x)
  return cm31Pack re im

def cm31Scale (x s : ℕ) : Option ℕ := do
  let re ← m31Mul (cm31Re x) s
  let im ← m31Mul (cm31Im x) s
  return cm31Pack re im

def cm31Inv (x : ℕ) : Option ℕ := do
  let a := cm31Re x
  let b := cm31Im x
  let aa ← m31Mul a a
  let bb ← m31Mul b b
  let sum ← m31Add aa bb
  let norm ← m31Inv sum
  let re ← m31Mul a norm
  let negated ← m31Neg b
  let im ← m31Mul negated norm
  return cm31Pack re im

def qm31Add (x y : ℕ) : Option ℕ := do
  let c0 ← cm31Add (qm31C0 x) (qm31C0 y)
  let c1 ← cm31Add (qm31C1 x) (qm31C1 y)
  return qm31PackC c0 c1

def qm31Sub (x y : ℕ) : Option ℕ := do
  let c0 ← cm31Sub (qm31C0 x) (qm31C0 y)
  let c1 ← cm31Sub (qm31C1 x) (qm31C1 y)
  return qm31PackC c0 c1

def qm31Mul (x y : ℕ) : Option ℕ := do
  let a := qm31C0 x
  let b := qm31C1 x
  let c := qm31C0 y
  let d := qm31C1 y
  let ac ← cm31Mul a c
  let bd ← cm31Mul b d
  let rbd ← cm31Mul rCm31 bd
  let c0 ← cm31Add ac rbd
  let ad ← cm31Mul a d
  let bc ← cm31Mul b c
  let c1 ← cm31Add ad bc
  return qm31PackC c0 c1

def qm31Neg (x : ℕ) : Option ℕ := do
  let c0 ← cm31Neg (qm31C0 x)
  let c1 ← cm31Neg (qm31C1 x)
  return qm31PackC c0 c1

def qm31ScaleM31 (x s : ℕ) : Option ℕ := do
  let c0 ← cm31Scale (qm31C0 x) s
  let c1 ← cm31Scale (qm31C1 x) s
  return qm31PackC c0 c1

def qm31Inv (x : ℕ) : Option ℕ := do
  let a := qm31C0 x
  let b := qm31C1 x
  let aa ← cm31Mul a a
  let bb ← cm31Mul b b
  let rbb ← cm31Mul rCm31 bb
  let norm ← cm31Sub aa rbb
  let ni ← cm31Inv norm
  let c0 ← cm31Mul a ni
  let negated ← cm31Neg b
  let c1 ← cm31Mul negated ni
  return qm31PackC c0 c1

/-! ## Nothing leaves its type -/

section Base

variable (a b : M31)

/-- The halves of a `u64` have a small sum. -/
theorem m31Reduce_eq {x : ℕ} (fits : x < Stwo.u64Modulus) :
    m31Reduce x = some (Vfri2.m31Reduce x) := by
  have low : x &&& P ≤ P := Nat.and_le_right
  have high : x >>> 31 < 2 ^ 33 := by
    rw [Nat.shiftRight_eq_div_pow]
    simp only [Stwo.u64Modulus] at fits
    omega
  have small : (x &&& P) + x >>> 31 < Stwo.u64Modulus := by
    simp only [P, Stwo.u64Modulus] at *
    omega
  simp only [m31Reduce, u64Add, if_pos small, Option.bind_eq_bind, Option.bind_some,
    Vfri2.m31Reduce]
  split
  case isTrue large => rw [unsignedSub, if_pos large]; rfl
  case isFalse => rfl

theorem m31Add_val : m31Add a.val b.val = some (a + b).val := by
  have first := val_small a
  have second := val_small b
  have fits : a.val + b.val < Stwo.u64Modulus := by
    rw [Stwo.u64Modulus]
    omega
  rw [m31Add, u64Add, if_pos fits, Option.bind_eq_bind, Option.bind_some, m31Reduce_eq fits,
    ← Vfri2.m31Add_val, Vfri2.m31Add]

theorem m31Mul_val : m31Mul a.val b.val = some (a * b).val := by
  have fits : a.val * b.val < Stwo.u64Modulus := by
    calc
      a.val * b.val < 2 ^ 32 * 2 ^ 32 := Nat.mul_lt_mul'' (val_small a) (val_small b)
      _ = Stwo.u64Modulus := by decide
  rw [m31Mul, u64Mul, if_pos fits, Option.bind_eq_bind, Option.bind_some, m31Reduce_eq fits,
    ← Vfri2.m31Mul_val, Vfri2.m31Mul]

theorem m31Sub_val : m31Sub a.val b.val = some (a - b).val := by
  have first := Stwo.val_lt_P a
  have second := Stwo.val_lt_P b
  have raised : a.val + P < Stwo.u64Modulus := by
    simp only [P, Stwo.u64Modulus] at *
    omega
  rw [← Vfri2.m31Sub_val, m31Sub, Vfri2.m31Sub]
  split
  case isTrue ordered => rw [unsignedSub, if_pos ordered]; rfl
  case isFalse below =>
    have wrapped : (a.val + P + Stwo.u64Modulus - b.val) % Stwo.u64Modulus = a.val + P - b.val := by
      simp only [P, Stwo.u64Modulus] at *
      omega
    rw [u64Add, if_pos raised, Option.bind_eq_bind, Option.bind_some, unsignedSub,
      if_pos (by omega), wrapped]
    rfl

theorem m31Neg_val : m31Neg a.val = some (-a).val := by
  have bound := Stwo.val_lt_P a
  rw [← Vfri2.m31Neg_val, m31Neg, Vfri2.m31Neg]
  split
  case isTrue => rfl
  case isFalse nonzero =>
    rw [unsignedSub, if_pos bound.le]
    congr 1
    simp only [P] at *
    omega

theorem m31PowLoop_val (fuel e : ℕ) (r : M31) :
    m31PowLoop fuel r.val a.val e = some (Vfri2.m31PowLoop fuel r.val a.val e) := by
  induction fuel generalizing e r a with
  | zero => rfl
  | succ fuel ih =>
      rw [m31PowLoop, Vfri2.m31PowLoop]
      split
      case isTrue => rfl
      case isFalse =>
        have next : (if e &&& 1 = 1 then m31Mul r.val a.val else some r.val) =
            some (if e &&& 1 = 1 then r * a else r).val := by
          split
          · exact m31Mul_val r a
          · rfl
        have step : (if e &&& 1 = 1 then Vfri2.m31Mul r.val a.val else r.val) =
            (if e &&& 1 = 1 then r * a else r).val := by
          split
          · exact Vfri2.m31Mul_val r a
          · rfl
        rw [next, m31Mul_val, Option.bind_eq_bind, Option.bind_some, Option.bind_some, ih, step,
          Vfri2.m31Mul_val]

theorem m31Inv_val : m31Inv a.val = some (a⁻¹).val := by
  have power := m31PowLoop_val a 64 (P - 2) 1
  rw [ZMod.val_one P] at power
  rw [← Vfri2.m31Inv_val]
  exact power

end Base

section Words

variable (z w : CM31) (x y : QM31) (s : M31)

theorem cm31Add_word : cm31Add (cm31Word z) (cm31Word w) = some (cm31Word (z + w)) := by
  simp only [cm31Add, cm31Re_word, cm31Im_word, m31Add_val, Option.bind_eq_bind, Option.bind_some]
  rfl

theorem cm31Sub_word : cm31Sub (cm31Word z) (cm31Word w) = some (cm31Word (z - w)) := by
  simp only [cm31Sub, cm31Re_word, cm31Im_word, m31Sub_val, Option.bind_eq_bind, Option.bind_some]
  rfl

theorem cm31Mul_word : cm31Mul (cm31Word z) (cm31Word w) = some (cm31Word (z * w)) := by
  simp only [cm31Mul, cm31Re_word, cm31Im_word, m31Mul_val, m31Add_val, m31Sub_val,
    Option.bind_eq_bind, Option.bind_some, ← Vfri2.cm31Mul_word, Vfri2.cm31Mul, Vfri2.m31Mul_val,
    Vfri2.m31Sub_val, Vfri2.m31Add_val]
  rfl

theorem cm31Neg_word : cm31Neg (cm31Word z) = some (cm31Word (-z)) := by
  simp only [cm31Neg, cm31Re_word, cm31Im_word, m31Neg_val, Option.bind_eq_bind, Option.bind_some]
  rfl

theorem cm31Scale_word : cm31Scale (cm31Word z) s.val =
    some (cm31Word (z * algebraMap M31 CM31 s)) := by
  simp only [cm31Scale, cm31Re_word, cm31Im_word, m31Mul_val, Option.bind_eq_bind,
    Option.bind_some, ← Vfri2.cm31Scale_word, Vfri2.cm31Scale, Vfri2.m31Mul_val]
  rfl

theorem cm31Inv_word : cm31Inv (cm31Word z) = some (cm31Word z⁻¹) := by
  simp only [cm31Inv, cm31Re_word, cm31Im_word, m31Mul_val, m31Add_val, m31Neg_val, m31Inv_val,
    Option.bind_eq_bind, Option.bind_some, ← Vfri2.cm31Inv_word, Vfri2.cm31Inv, Vfri2.m31Mul_val,
    Vfri2.m31Neg_val, Vfri2.m31Add_val, Vfri2.m31Inv_val]
  rfl

theorem qm31Add_word : qm31Add (qm31Word x) (qm31Word y) = some (qm31Word (x + y)) := by
  simp only [qm31Add, qm31C0_word, qm31C1_word, cm31Add_word, Option.bind_eq_bind,
    Option.bind_some]
  rfl

theorem qm31Sub_word : qm31Sub (qm31Word x) (qm31Word y) = some (qm31Word (x - y)) := by
  simp only [qm31Sub, qm31C0_word, qm31C1_word, cm31Sub_word, Option.bind_eq_bind,
    Option.bind_some]
  rfl

theorem qm31Mul_word : qm31Mul (qm31Word x) (qm31Word y) = some (qm31Word (x * y)) := by
  simp only [qm31Mul, rCm31_word, qm31C0_word, qm31C1_word, cm31Mul_word, cm31Add_word,
    Option.bind_eq_bind, Option.bind_some, ← Vfri2.qm31Mul_word, Vfri2.qm31Mul,
    Vfri2.cm31Mul_word, Vfri2.cm31Add_word]
  rfl

theorem qm31Neg_word : qm31Neg (qm31Word x) = some (qm31Word (-x)) := by
  simp only [qm31Neg, qm31C0_word, qm31C1_word, cm31Neg_word, Option.bind_eq_bind,
    Option.bind_some]
  rfl

theorem qm31ScaleM31_word : qm31ScaleM31 (qm31Word x) s.val =
    some (qm31Word (x * baseValue s)) := by
  simp only [qm31ScaleM31, qm31C0_word, qm31C1_word, cm31Scale_word, Option.bind_eq_bind,
    Option.bind_some, ← Vfri2.qm31ScaleM31_word, Vfri2.qm31ScaleM31, Vfri2.cm31Scale_word]
  rfl

theorem qm31Inv_word : qm31Inv (qm31Word x) = some (qm31Word x⁻¹) := by
  simp only [qm31Inv, rCm31_word, qm31C0_word, qm31C1_word, cm31Mul_word, cm31Sub_word,
    cm31Inv_word, cm31Neg_word, Option.bind_eq_bind, Option.bind_some, ← Vfri2.qm31Inv_word,
    Vfri2.qm31Inv, Vfri2.cm31Mul_word, Vfri2.cm31Sub_word, Vfri2.cm31Inv_word, Vfri2.cm31Neg_word]
  rfl

end Words

end Checked
end Vfri2
end QLSA
