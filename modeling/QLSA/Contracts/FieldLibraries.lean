import QLSA.Field.Circle

namespace QLSA
namespace Contracts
namespace Verifier

open Mersenne

/-!
# The field libraries of the contracts

Elements of the extensions are packed into machine words: a `CM31` into a
`uint64` with the real part above, a `QM31` into a `uint128` with `c0` above
`c1`.  Words are natural numbers; `none` is a revert of checked arithmetic or
of a `require`.  No library checks that the parts it reads are below `P`, so
the operations are specified on words with arbitrary 32-bit parts: products
are always canonical, differences keep within 32 bits, and a sum is right
exactly when no part of it leaves its 32 bits.
-/

/-! ## M31 -/

/-- Size of the `uint256` range. -/
def uintModulus : ℕ := 2 ^ 256

def m31Add (a b : ℕ) : ℕ :=
  let r := (a + b) % uintModulus
  if P ≤ r then r - P else r

def m31Sub (a b : ℕ) : Option ℕ :=
  if b ≤ a then some (a - b)
  else if uintModulus ≤ a + P then none
  else if a + P < b then none
  else some (a + P - b)

def m31Mul (a b : ℕ) : ℕ := a * b % P

/-- The loop of `pow`; an exponent below `2 ^ fuel` is used up. -/
def powLoop : ℕ → ℕ → ℕ → ℕ → ℕ
  | 0, result, _, _ => result
  | fuel + 1, result, base, exp =>
      if exp = 0 then result
      else powLoop fuel (if exp % 2 = 1 then result * base % P else result) (base * base % P)
        (exp / 2)

def m31Pow (base exp : ℕ) : ℕ := powLoop 256 1 (base % P) exp

def m31Inv (a : ℕ) : Option ℕ :=
  if a = 0 then none else some (m31Pow a (P - 2))

def m31Neg (a : ℕ) : Option ℕ :=
  if a = 0 then some 0 else if P < a then none else some (P - a)

/-! ## CM31 -/

def cm31Pack (a b : ℕ) : ℕ := (a <<< 32 % uintModulus ||| b) % 2 ^ 64

def cm31Re (e : ℕ) : ℕ := e >>> 32

def cm31Im (e : ℕ) : ℕ := e &&& (2 ^ 32 - 1)

def cm31FromM31 (a : ℕ) : ℕ := cm31Pack a 0

def cm31Add (x y : ℕ) : ℕ :=
  cm31Pack (m31Add (cm31Re x) (cm31Re y)) (m31Add (cm31Im x) (cm31Im y))

def cm31Sub (x y : ℕ) : Option ℕ := do
  let r ← m31Sub (cm31Re x) (cm31Re y)
  let i ← m31Sub (cm31Im x) (cm31Im y)
  return cm31Pack r i

def cm31Mul (x y : ℕ) : Option ℕ := do
  let a := cm31Re x
  let b := cm31Im x
  let c := cm31Re y
  let d := cm31Im y
  let r ← m31Sub (m31Mul a c) (m31Mul b d)
  return cm31Pack r (m31Add (m31Mul a d) (m31Mul b c))

def cm31Neg (x : ℕ) : Option ℕ := do
  let r ← m31Neg (cm31Re x)
  let i ← m31Neg (cm31Im x)
  return cm31Pack r i

def cm31Scale (x s : ℕ) : ℕ := cm31Pack (m31Mul (cm31Re x) s) (m31Mul (cm31Im x) s)

def cm31Inv (x : ℕ) : Option ℕ := do
  let a := cm31Re x
  let b := cm31Im x
  let normInv ← m31Inv (m31Add (m31Mul a a) (m31Mul b b))
  let negated ← m31Neg b
  return cm31Pack (m31Mul a normInv) (m31Mul negated normInv)

/-! ## QM31 -/

/-- `R = 2 + i` -/
def qm31R : ℕ := (2 <<< 32) ||| 1

def qm31Pack (a b : ℕ) : ℕ := (a <<< 64 ||| b) % 2 ^ 128

def qm31C0 (q : ℕ) : ℕ := (q >>> 64) % 2 ^ 64

def qm31C1 (q : ℕ) : ℕ := q &&& (2 ^ 64 - 1)

def qm31FromM31 (a : ℕ) : ℕ := qm31Pack (cm31FromM31 a) 0

def qm31Add (x y : ℕ) : ℕ :=
  qm31Pack (cm31Add (qm31C0 x) (qm31C0 y)) (cm31Add (qm31C1 x) (qm31C1 y))

def qm31Sub (x y : ℕ) : Option ℕ := do
  let a ← cm31Sub (qm31C0 x) (qm31C0 y)
  let b ← cm31Sub (qm31C1 x) (qm31C1 y)
  return qm31Pack a b

def qm31Mul (x y : ℕ) : Option ℕ := do
  let a := qm31C0 x
  let b := qm31C1 x
  let c := qm31C0 y
  let d := qm31C1 y
  let ac ← cm31Mul a c
  let bd ← cm31Mul b d
  let rbd ← cm31Mul qm31R bd
  let ad ← cm31Mul a d
  let bc ← cm31Mul b c
  return qm31Pack (cm31Add ac rbd) (cm31Add ad bc)

def qm31Neg (x : ℕ) : Option ℕ := do
  let a ← cm31Neg (qm31C0 x)
  let b ← cm31Neg (qm31C1 x)
  return qm31Pack a b

def qm31ScaleM31 (x s : ℕ) : ℕ := qm31Pack (cm31Scale (qm31C0 x) s) (cm31Scale (qm31C1 x) s)

def qm31Inv (x : ℕ) : Option ℕ := do
  let a := qm31C0 x
  let b := qm31C1 x
  let aa ← cm31Mul a a
  let bb ← cm31Mul b b
  let rbb ← cm31Mul qm31R bb
  let norm ← cm31Sub aa rbb
  let normInv ← cm31Inv norm
  let first ← cm31Mul a normInv
  let negated ← cm31Neg b
  let second ← cm31Mul negated normInv
  return qm31Pack first second

/-! ## Words of base field elements -/

section Base

variable {a b r : ℕ}

/-- The bound of a 32-bit part. -/
abbrev Part (a : ℕ) : Prop := a < 2 ^ 32

theorem Part.of_canonical (canonical : Canonical a) : Part a := by
  simp only [Canonical, P] at canonical
  omega

/-- A sum of two parts, before any truncation. -/
theorem m31Add_eq (first : Part a) (second : Part b) :
    m31Add a b = if P ≤ a + b then a + b - P else a + b := by
  have small : (a + b) % uintModulus = a + b := by
    apply Nat.mod_eq_of_lt
    simp only [uintModulus]
    omega
  rw [m31Add, small]

theorem m31Add_cast (first : Part a) (second : Part b) : ((m31Add a b : ℕ) : M31) = a + b := by
  rw [m31Add_eq first second]
  split
  case isTrue large => rw [cast_sub_P large, Nat.cast_add]
  case isFalse => rw [Nat.cast_add]

theorem m31Add_canonical (first : Canonical a) (second : Canonical b) :
    Canonical (m31Add a b) := by
  rw [m31Add_eq (.of_canonical first) (.of_canonical second)]
  split <;> omega

theorem m31Sub_spec (first : Part a) (second : Part b) (done : m31Sub a b = some r) :
    Part r ∧ (r : M31) = a - b := by
  unfold m31Sub at done
  split at done
  case isTrue ordered =>
    have value := Option.some.inj done
    subst value
    exact ⟨by omega, Nat.cast_sub ordered⟩
  case isFalse below =>
    split at done
    case isTrue => exact absurd done (by simp)
    case isFalse =>
      split at done
      case isTrue => exact absurd done (by simp)
      case isFalse enough =>
        have value := Option.some.inj done
        subst value
        constructor
        · simp only [P] at *
          omega
        · rw [Nat.cast_sub (by omega), Nat.cast_add, CharP.cast_eq_zero M31 P, add_zero]

/-- On canonical words a difference never reverts and is canonical. -/
theorem m31Sub_canonical (first : Canonical a) (second : Canonical b) :
    ∃ r, m31Sub a b = some r ∧ Canonical r ∧ (r : M31) = a - b := by
  have inside : ¬ uintModulus ≤ a + P := by
    simp only [uintModulus, Canonical, P] at *
    omega
  by_cases ordered : b ≤ a
  · exact ⟨a - b, if_pos ordered, by omega, Nat.cast_sub ordered⟩
  · refine ⟨a + P - b, ?_, by omega, ?_⟩
    · rw [m31Sub, if_neg ordered, if_neg inside, if_neg (by omega)]
    · rw [Nat.cast_sub (by omega), Nat.cast_add, CharP.cast_eq_zero M31 P, add_zero]

theorem m31Mul_canonical (a b : ℕ) : Canonical (m31Mul a b) := Nat.mod_lt _ P_prime.pos

theorem m31Mul_cast (a b : ℕ) : ((m31Mul a b : ℕ) : M31) = a * b := by
  rw [m31Mul, cast_mod, Nat.cast_mul]

theorem m31Neg_canonical (first : Canonical a) :
    ∃ r, m31Neg a = some r ∧ Canonical r ∧ (r : M31) = -a := by
  by_cases zero : a = 0
  · exact ⟨0, if_pos zero, P_prime.pos, by simp [zero]⟩
  · refine ⟨P - a, ?_, by omega, ?_⟩
    · rw [m31Neg, if_neg zero, if_neg (by omega)]
    · rw [Nat.cast_sub (by omega), CharP.cast_eq_zero M31 P, zero_sub]

/-- The loop multiplies the accumulator by the power of the base. -/
theorem powLoop_cast {fuel exp : ℕ} (enough : exp < 2 ^ fuel) (result base : ℕ) :
    ((powLoop fuel result base exp : ℕ) : M31) = result * (base : M31) ^ exp := by
  induction fuel generalizing exp result base with
  | zero =>
      have none : exp = 0 := by simpa using enough
      rw [powLoop, none, pow_zero, mul_one]
  | succ fuel ih =>
      unfold powLoop
      split
      case isTrue none => rw [none, pow_zero, mul_one]
      case isFalse =>
        have half : exp / 2 < 2 ^ fuel := by
          rw [pow_succ] at enough
          omega
        rw [ih half, cast_mod, Nat.cast_mul, ← pow_two, ← pow_mul]
        rcases Nat.mod_two_eq_zero_or_one exp with even | odd
        · have whole : 2 * (exp / 2) = exp := by omega
          rw [if_neg (by omega), whole]
        · have whole : 1 + 2 * (exp / 2) = exp := by omega
          rw [if_pos odd, cast_mod, Nat.cast_mul, mul_assoc, ← pow_succ', Nat.add_comm, whole]

theorem powLoop_canonical (fuel : ℕ) {result : ℕ} (canonical : Canonical result)
    (base exp : ℕ) : Canonical (powLoop fuel result base exp) := by
  induction fuel generalizing result base exp with
  | zero => exact canonical
  | succ fuel ih =>
      unfold powLoop
      split
      · exact canonical
      · apply ih
        split
        · exact Nat.mod_lt _ P_prime.pos
        · exact canonical

/-- Fermat's little theorem makes the power the inverse. -/
theorem m31Inv_spec (canonical : Canonical a) (done : m31Inv a = some r) :
    (a : M31) ≠ 0 ∧ Canonical r ∧ (r : M31) = (a : M31)⁻¹ := by
  unfold m31Inv at done
  split at done
  case isTrue => exact absurd done (by simp)
  case isFalse nonzero =>
    have value := Option.some.inj done
    subst value
    have residue : (a : M31) ≠ 0 := by
      intro vanishes
      rw [ZMod.natCast_eq_zero_iff] at vanishes
      have whole := Nat.le_of_dvd (Nat.pos_of_ne_zero nonzero) vanishes
      omega
    refine ⟨residue, powLoop_canonical 256 (by decide) _ _, ?_⟩
    have fits : P - 2 < 2 ^ 256 := by decide
    rw [m31Pow, powLoop_cast fits, cast_mod, Nat.cast_one, one_mul]
    apply eq_inv_of_mul_eq_one_left
    have exponent : P - 2 + 1 = P - 1 := by decide
    rw [← pow_succ, exponent, ZMod.pow_card_sub_one_eq_one residue]

end Base

/-! ## Packed elements -/

section Packing

theorem cm31Pack_im (a b : ℕ) : cm31Im (cm31Pack a b) = b % 2 ^ 32 := by
  have low : a <<< 32 % uintModulus % 2 ^ 64 % 2 ^ 32 = 0 := by
    rw [Nat.shiftLeft_eq]
    simp only [uintModulus]
    omega
  rw [cm31Im, cm31Pack, Nat.and_two_pow_sub_one_eq_mod, Nat.or_mod_two_pow, Nat.or_mod_two_pow,
    low, Nat.zero_or]
  omega

theorem cm31Pack_re (a : ℕ) {b : ℕ} (fits : Part b) : cm31Re (cm31Pack a b) = a % 2 ^ 32 := by
  have high : (a <<< 32 % uintModulus % 2 ^ 64) >>> 32 = a % 2 ^ 32 := by
    rw [Nat.shiftLeft_eq, Nat.shiftRight_eq_div_pow]
    simp only [uintModulus]
    omega
  have low : (b % 2 ^ 64) >>> 32 = 0 := by
    rw [Nat.shiftRight_eq_div_pow]
    omega
  rw [cm31Re, cm31Pack, Nat.or_mod_two_pow, Nat.shiftRight_or_distrib, high, low, Nat.or_zero]

theorem cm31Pack_lt (a b : ℕ) : cm31Pack a b < 2 ^ 64 := Nat.mod_lt _ (by decide)

theorem qm31Pack_c0 {a b : ℕ} (first : a < 2 ^ 64) (second : b < 2 ^ 64) :
    qm31C0 (qm31Pack a b) = a := by
  have high : (a <<< 64 % 2 ^ 128) >>> 64 = a := by
    rw [Nat.shiftLeft_eq, Nat.shiftRight_eq_div_pow]
    omega
  have low : (b % 2 ^ 128) >>> 64 = 0 := by
    rw [Nat.shiftRight_eq_div_pow]
    omega
  rw [qm31C0, qm31Pack, Nat.or_mod_two_pow, Nat.shiftRight_or_distrib, high, low, Nat.or_zero,
    Nat.mod_eq_of_lt first]

theorem qm31Pack_c1 {a b : ℕ} (second : b < 2 ^ 64) : qm31C1 (qm31Pack a b) = b := by
  have low : a <<< 64 % 2 ^ 128 % 2 ^ 64 = 0 := by
    rw [Nat.shiftLeft_eq]
    omega
  rw [qm31C1, qm31Pack, Nat.and_two_pow_sub_one_eq_mod, Nat.or_mod_two_pow, Nat.or_mod_two_pow,
    low, Nat.zero_or]
  omega

theorem cm31Re_part {e : ℕ} (fits : e < 2 ^ 64) : Part (cm31Re e) := by
  rw [cm31Re, Nat.shiftRight_eq_div_pow]
  omega

theorem cm31Im_part (e : ℕ) : Part (cm31Im e) := by
  rw [cm31Im, Nat.and_two_pow_sub_one_eq_mod]
  exact Nat.mod_lt _ (by decide)

theorem qm31C0_lt (q : ℕ) : qm31C0 q < 2 ^ 64 := Nat.mod_lt _ (by decide)

theorem qm31C1_lt (q : ℕ) : qm31C1 q < 2 ^ 64 := by
  rw [qm31C1, Nat.and_two_pow_sub_one_eq_mod]
  exact Nat.mod_lt _ (by decide)

end Packing

/-- A packed element with its parts read modulo `P`. -/
def cm31Value (e : ℕ) : CM31 := ⟨(cm31Re e : ℕ), (cm31Im e : ℕ)⟩

/-- A packed element with its limbs read modulo `P`. -/
def qm31Value (q : ℕ) : QM31 := ⟨cm31Value (qm31C0 q), cm31Value (qm31C1 q)⟩

/-- Both parts are below `P`. -/
def CanonicalCM31 (e : ℕ) : Prop := Canonical (cm31Re e) ∧ Canonical (cm31Im e)

/-- All four limbs are below `P`. -/
def CanonicalQM31 (q : ℕ) : Prop := CanonicalCM31 (qm31C0 q) ∧ CanonicalCM31 (qm31C1 q)

/-- Neither part of a sum leaves its 32 bits. -/
def NoCarryCM31 (x y : ℕ) : Prop :=
  cm31Re x + cm31Re y < 2 ^ 32 + P ∧ cm31Im x + cm31Im y < 2 ^ 32 + P

/-- No limb of a sum leaves its 32 bits. -/
def NoCarry (x y : ℕ) : Prop :=
  NoCarryCM31 (qm31C0 x) (qm31C0 y) ∧ NoCarryCM31 (qm31C1 x) (qm31C1 y)

instance (e : ℕ) : Decidable (CanonicalCM31 e) := inferInstanceAs (Decidable (_ ∧ _))

instance (q : ℕ) : Decidable (CanonicalQM31 q) := inferInstanceAs (Decidable (_ ∧ _))

instance (x y : ℕ) : Decidable (NoCarryCM31 x y) := inferInstanceAs (Decidable (_ ∧ _))

instance (x y : ℕ) : Decidable (NoCarry x y) := inferInstanceAs (Decidable (_ ∧ _))

section Extension

variable {x y z s : ℕ}

/-- Packing canonical parts. -/
theorem cm31Pack_canonical {a b : ℕ} (first : Canonical a) (second : Canonical b) :
    CanonicalCM31 (cm31Pack a b) ∧
      cm31Value (cm31Pack a b) = ⟨(a : M31), (b : M31)⟩ := by
  have re : cm31Re (cm31Pack a b) = a := by
    rw [cm31Pack_re a (.of_canonical second), Nat.mod_eq_of_lt (Part.of_canonical first)]
  have im : cm31Im (cm31Pack a b) = b := by
    rw [cm31Pack_im, Nat.mod_eq_of_lt (Part.of_canonical second)]
  exact ⟨⟨by rwa [re], by rwa [im]⟩, by rw [cm31Value, re, im]⟩

/-- Packing parts that need not be canonical. -/
theorem cm31Pack_value {a b : ℕ} (first : Part a) (second : Part b) :
    cm31Value (cm31Pack a b) = ⟨(a : M31), (b : M31)⟩ := by
  rw [cm31Value, cm31Pack_re a second, cm31Pack_im, Nat.mod_eq_of_lt first,
    Nat.mod_eq_of_lt second]

/-- A sum truncated to 32 bits is right exactly when nothing was cut off: what
is cut off is two modulo `P`. -/
theorem m31Add_truncated_iff {a b : ℕ} (first : Part a) (second : Part b) :
    ((m31Add a b % 2 ^ 32 : ℕ) : M31) = a + b ↔ a + b < 2 ^ 32 + P := by
  rw [← m31Add_cast first second, m31Add_eq first second]
  constructor
  · intro same
    by_contra overflow
    have large : P ≤ a + b := by omega
    have cut : (a + b - P) % 2 ^ 32 = a + b - P - 2 ^ 32 := by omega
    have above : 2 ^ 32 ≤ a + b - P := by omega
    rw [if_pos large, cut, Nat.cast_sub above] at same
    have two : ((2 ^ 32 : ℕ) : M31) = 0 := by
      have moved := sub_eq_self.mp same
      exact moved
    exact absurd two (by decide)
  · intro fits
    split
    case isTrue large => rw [Nat.mod_eq_of_lt (by omega)]
    case isFalse below =>
      have small : Part (a + b) := Part.of_canonical (by omega)
      rw [Nat.mod_eq_of_lt small]

theorem cm31Add_value_iff (first : x < 2 ^ 64) (second : y < 2 ^ 64) :
    cm31Value (cm31Add x y) = cm31Value x + cm31Value y ↔ NoCarryCM31 x y := by
  have firstRe := cm31Re_part first
  have secondRe := cm31Re_part second
  have firstIm := cm31Im_part x
  have secondIm := cm31Im_part y
  have im : ((cm31Im (cm31Add x y) : ℕ) : M31) = cm31Im x + cm31Im y ↔
      cm31Im x + cm31Im y < 2 ^ 32 + P := by
    rw [cm31Add, cm31Pack_im]
    exact m31Add_truncated_iff firstIm secondIm
  have re (fits : cm31Im x + cm31Im y < 2 ^ 32 + P) :
      ((cm31Re (cm31Add x y) : ℕ) : M31) = cm31Re x + cm31Re y ↔
        cm31Re x + cm31Re y < 2 ^ 32 + P := by
    have part : Part (m31Add (cm31Im x) (cm31Im y)) := by
      rw [m31Add_eq firstIm secondIm]
      split
      · omega
      · exact Part.of_canonical (by omega)
    rw [cm31Add, cm31Pack_re _ part]
    exact m31Add_truncated_iff firstRe secondRe
  constructor
  · intro same
    have fits := im.mp (congrArg QuadraticAlgebra.im same)
    exact ⟨(re fits).mp (congrArg QuadraticAlgebra.re same), fits⟩
  · rintro ⟨reFits, imFits⟩
    exact QuadraticAlgebra.ext ((re imFits).mpr reFits) (im.mpr imFits)

theorem cm31Add_lt (x y : ℕ) : cm31Add x y < 2 ^ 64 := cm31Pack_lt _ _

theorem cm31Add_canonical (first : CanonicalCM31 x) (second : CanonicalCM31 y) :
    CanonicalCM31 (cm31Add x y) ∧ cm31Value (cm31Add x y) = cm31Value x + cm31Value y := by
  have packed := cm31Pack_canonical (m31Add_canonical first.1 second.1)
    (m31Add_canonical first.2 second.2)
  refine ⟨packed.1, ?_⟩
  rw [cm31Add, packed.2, m31Add_cast (.of_canonical first.1) (.of_canonical second.1),
    m31Add_cast (.of_canonical first.2) (.of_canonical second.2)]
  rfl

/-- Adding a canonical element never carries. -/
theorem NoCarryCM31.of_canonical (first : x < 2 ^ 64) (second : CanonicalCM31 y) :
    NoCarryCM31 x y := by
  have re := cm31Re_part first
  have im := cm31Im_part x
  have reCanonical := second.1
  have imCanonical := second.2
  simp only [Canonical] at reCanonical imCanonical
  exact ⟨by omega, by omega⟩

theorem cm31Sub_spec (first : x < 2 ^ 64) (second : y < 2 ^ 64)
    (done : cm31Sub x y = some z) :
    z < 2 ^ 64 ∧ cm31Value z = cm31Value x - cm31Value y := by
  simp only [cm31Sub, Option.bind_eq_bind, Option.bind_eq_some_iff] at done
  rcases done with ⟨r, re, i, im, packed⟩
  rcases m31Sub_spec (cm31Re_part first) (cm31Re_part second) re with ⟨rePart, reValue⟩
  rcases m31Sub_spec (cm31Im_part x) (cm31Im_part y) im with ⟨imPart, imValue⟩
  have value := Option.some.inj packed
  subst value
  refine ⟨cm31Pack_lt r i, ?_⟩
  rw [cm31Pack_value rePart imPart, reValue, imValue]
  rfl

theorem cm31Sub_canonical (first : CanonicalCM31 x) (second : CanonicalCM31 y) :
    ∃ z, cm31Sub x y = some z ∧ CanonicalCM31 z ∧
      cm31Value z = cm31Value x - cm31Value y := by
  rcases m31Sub_canonical first.1 second.1 with ⟨r, re, reCanonical, reValue⟩
  rcases m31Sub_canonical first.2 second.2 with ⟨i, im, imCanonical, imValue⟩
  have packed := cm31Pack_canonical reCanonical imCanonical
  refine ⟨cm31Pack r i, ?_, packed.1, ?_⟩
  · simp only [cm31Sub, re, im]
    rfl
  · rw [packed.2, reValue, imValue]
    rfl

/-- Products never revert and are canonical, whatever is multiplied. -/
theorem cm31Mul_spec (x y : ℕ) :
    ∃ z, cm31Mul x y = some z ∧ CanonicalCM31 z ∧
      cm31Value z = cm31Value x * cm31Value y := by
  rcases m31Sub_canonical (m31Mul_canonical (cm31Re x) (cm31Re y))
    (m31Mul_canonical (cm31Im x) (cm31Im y)) with ⟨r, re, reCanonical, reValue⟩
  have first := m31Mul_canonical (cm31Re x) (cm31Im y)
  have second := m31Mul_canonical (cm31Im x) (cm31Re y)
  have packed := cm31Pack_canonical reCanonical (m31Add_canonical first second)
  refine ⟨cm31Pack r _, ?_, packed.1, ?_⟩
  · simp only [cm31Mul, re]
    rfl
  · rw [packed.2, reValue, m31Add_cast (.of_canonical first) (.of_canonical second)]
    simp only [m31Mul_cast]
    ext <;> simp only [cm31Value, QuadraticAlgebra.re_mul, QuadraticAlgebra.im_mul] <;> ring

theorem cm31Neg_canonical (canonical : CanonicalCM31 x) :
    ∃ z, cm31Neg x = some z ∧ CanonicalCM31 z ∧ cm31Value z = -cm31Value x := by
  rcases m31Neg_canonical canonical.1 with ⟨r, re, reCanonical, reValue⟩
  rcases m31Neg_canonical canonical.2 with ⟨i, im, imCanonical, imValue⟩
  have packed := cm31Pack_canonical reCanonical imCanonical
  refine ⟨cm31Pack r i, ?_, packed.1, ?_⟩
  · simp only [cm31Neg, re, im]
    rfl
  · rw [packed.2, reValue, imValue]
    rfl

theorem cm31Scale_spec (x s : ℕ) :
    CanonicalCM31 (cm31Scale x s) ∧
      cm31Value (cm31Scale x s) = cm31Value x * algebraMap M31 CM31 (s : M31) := by
  have packed := cm31Pack_canonical (m31Mul_canonical (cm31Re x) s) (m31Mul_canonical (cm31Im x) s)
  refine ⟨packed.1, ?_⟩
  rw [cm31Scale, packed.2]
  ext <;> simp [m31Mul_cast, cm31Value]

/-- An inverse that is returned is the inverse. -/
theorem cm31Inv_spec (canonical : CanonicalCM31 x) (done : cm31Inv x = some z) :
    CanonicalCM31 z ∧ cm31Value x ≠ 0 ∧ cm31Value z = (cm31Value x)⁻¹ := by
  simp only [cm31Inv, Option.bind_eq_bind, Option.bind_eq_some_iff] at done
  rcases done with ⟨normInv, inverse, negated, negation, packed⟩
  have squareRe := m31Mul_canonical (cm31Re x) (cm31Re x)
  have squareIm := m31Mul_canonical (cm31Im x) (cm31Im x)
  rcases m31Inv_spec (m31Add_canonical squareRe squareIm) inverse with
    ⟨nonzero, -, inverseValue⟩
  rcases m31Neg_canonical canonical.2 with ⟨other, same, -, negatedValue⟩
  rw [negation] at same
  have value := Option.some.inj packed
  subst value
  have parts := cm31Pack_canonical (m31Mul_canonical (cm31Re x) normInv)
    (m31Mul_canonical negated normInv)
  rw [m31Add_cast (.of_canonical squareRe) (.of_canonical squareIm), m31Mul_cast, m31Mul_cast]
    at nonzero inverseValue
  have cancel := mul_inv_cancel₀ nonzero
  have product : cm31Value (cm31Pack (m31Mul (cm31Re x) normInv) (m31Mul negated normInv)) *
      cm31Value x = 1 := by
    rw [parts.2, m31Mul_cast, m31Mul_cast, inverseValue, Option.some.inj same, negatedValue]
    ext
    · simp only [cm31Value, QuadraticAlgebra.re_mul, QuadraticAlgebra.re_one]
      linear_combination cancel
    · simp only [cm31Value, QuadraticAlgebra.im_mul, QuadraticAlgebra.im_one]
      ring
  refine ⟨parts.1, ?_, eq_inv_of_mul_eq_one_left product⟩
  intro zero
  rw [zero, mul_zero] at product
  exact zero_ne_one product

/-! ### The quartic extension -/

theorem qm31Pack_value {a b : ℕ} (first : a < 2 ^ 64) (second : b < 2 ^ 64) :
    qm31Value (qm31Pack a b) = ⟨cm31Value a, cm31Value b⟩ := by
  rw [qm31Value, qm31Pack_c0 first second, qm31Pack_c1 second]

theorem CanonicalCM31.lt (canonical : CanonicalCM31 x) : x < 2 ^ 64 := by
  have high := canonical.1
  simp only [Canonical, cm31Re, Nat.shiftRight_eq_div_pow, P] at high
  omega

theorem qm31Pack_canonical {a b : ℕ} (first : CanonicalCM31 a) (second : CanonicalCM31 b) :
    CanonicalQM31 (qm31Pack a b) := by
  rw [CanonicalQM31, qm31Pack_c0 first.lt second.lt, qm31Pack_c1 second.lt]
  exact ⟨first, second⟩

/-- A sum is the field's exactly when no limb carries. -/
theorem qm31Add_value_iff (x y : ℕ) :
    qm31Value (qm31Add x y) = qm31Value x + qm31Value y ↔ NoCarry x y := by
  rw [qm31Add, qm31Pack_value (cm31Add_lt _ _) (cm31Add_lt _ _), NoCarry,
    ← cm31Add_value_iff (qm31C0_lt x) (qm31C0_lt y),
    ← cm31Add_value_iff (qm31C1_lt x) (qm31C1_lt y)]
  constructor
  · intro same
    exact ⟨congrArg QuadraticAlgebra.re same, congrArg QuadraticAlgebra.im same⟩
  · rintro ⟨first, second⟩
    exact QuadraticAlgebra.ext first second

theorem qm31Add_canonical (first : CanonicalQM31 x) (second : CanonicalQM31 y) :
    CanonicalQM31 (qm31Add x y) :=
  qm31Pack_canonical (cm31Add_canonical first.1 second.1).1 (cm31Add_canonical first.2 second.2).1

theorem NoCarry.of_canonical (x : ℕ) (second : CanonicalQM31 y) : NoCarry x y :=
  ⟨.of_canonical (qm31C0_lt x) second.1, .of_canonical (qm31C1_lt x) second.2⟩

theorem NoCarry.symm (fits : NoCarry x y) : NoCarry y x := by
  rcases fits with ⟨⟨first, second⟩, third, fourth⟩
  exact ⟨⟨by omega, by omega⟩, by omega, by omega⟩

theorem qm31Sub_spec (done : qm31Sub x y = some z) :
    qm31Value z = qm31Value x - qm31Value y := by
  simp only [qm31Sub, Option.bind_eq_bind, Option.bind_eq_some_iff] at done
  rcases done with ⟨a, first, b, second, packed⟩
  rcases cm31Sub_spec (qm31C0_lt x) (qm31C0_lt y) first with ⟨firstFits, firstValue⟩
  rcases cm31Sub_spec (qm31C1_lt x) (qm31C1_lt y) second with ⟨secondFits, secondValue⟩
  have value := Option.some.inj packed
  subst value
  rw [qm31Pack_value firstFits secondFits, firstValue, secondValue]
  rfl

theorem qm31Sub_canonical (first : CanonicalQM31 x) (second : CanonicalQM31 y)
    (done : qm31Sub x y = some z) : CanonicalQM31 z := by
  simp only [qm31Sub, Option.bind_eq_bind, Option.bind_eq_some_iff] at done
  rcases done with ⟨a, lower, b, upper, packed⟩
  rcases cm31Sub_canonical first.1 second.1 with ⟨a', lower', aCanonical, -⟩
  rcases cm31Sub_canonical first.2 second.2 with ⟨b', upper', bCanonical, -⟩
  rw [lower] at lower'
  rw [upper] at upper'
  have value := Option.some.inj packed
  subst value
  rw [Option.some.inj lower', Option.some.inj upper']
  exact qm31Pack_canonical aCanonical bCanonical

theorem qm31R_value : cm31Value qm31R = ⟨2, 1⟩ := by
  have re : cm31Re qm31R = 2 := by decide
  have im : cm31Im qm31R = 1 := by decide
  rw [cm31Value, re, im]
  ext <;> simp

/-- Products never revert and are canonical, whatever is multiplied. -/
theorem qm31Mul_spec (x y : ℕ) :
    ∃ z, qm31Mul x y = some z ∧ CanonicalQM31 z ∧
      qm31Value z = qm31Value x * qm31Value y := by
  rcases cm31Mul_spec (qm31C0 x) (qm31C0 y) with ⟨ac, acDone, acCanonical, acValue⟩
  rcases cm31Mul_spec (qm31C1 x) (qm31C1 y) with ⟨bd, bdDone, -, bdValue⟩
  rcases cm31Mul_spec qm31R bd with ⟨rbd, rbdDone, rbdCanonical, rbdValue⟩
  rcases cm31Mul_spec (qm31C0 x) (qm31C1 y) with ⟨ad, adDone, adCanonical, adValue⟩
  rcases cm31Mul_spec (qm31C1 x) (qm31C0 y) with ⟨bc, bcDone, bcCanonical, bcValue⟩
  have first := cm31Add_canonical acCanonical rbdCanonical
  have second := cm31Add_canonical adCanonical bcCanonical
  refine ⟨qm31Pack (cm31Add ac rbd) (cm31Add ad bc), ?_,
    qm31Pack_canonical first.1 second.1, ?_⟩
  · simp only [qm31Mul, acDone, bdDone, rbdDone, adDone, bcDone, Option.bind_eq_bind,
      Option.bind_some]
    rfl
  · rw [qm31Pack_value (cm31Add_lt _ _) (cm31Add_lt _ _), first.2, second.2, acValue, rbdValue,
      bdValue, adValue, bcValue, qm31R_value]
    ext1
    · simp only [qm31Value, QuadraticAlgebra.re_mul]
      ring
    · simp only [qm31Value, QuadraticAlgebra.im_mul]
      ring

theorem qm31Neg_spec (canonical : CanonicalQM31 x) :
    ∃ z, qm31Neg x = some z ∧ CanonicalQM31 z ∧ qm31Value z = -qm31Value x := by
  rcases cm31Neg_canonical canonical.1 with ⟨a, first, aCanonical, aValue⟩
  rcases cm31Neg_canonical canonical.2 with ⟨b, second, bCanonical, bValue⟩
  refine ⟨qm31Pack a b, ?_, qm31Pack_canonical aCanonical bCanonical, ?_⟩
  · simp only [qm31Neg, first, second]
    rfl
  · rw [qm31Pack_value aCanonical.lt bCanonical.lt, aValue, bValue]
    rfl

theorem qm31FromM31_spec {a : ℕ} (canonical : Canonical a) :
    CanonicalQM31 (qm31FromM31 a) ∧ qm31Value (qm31FromM31 a) = baseValue (a : M31) := by
  have zero : CanonicalCM31 0 := ⟨P_prime.pos, P_prime.pos⟩
  have packed := cm31Pack_canonical canonical (b := 0) P_prime.pos
  refine ⟨qm31Pack_canonical packed.1 zero, ?_⟩
  rw [qm31FromM31, cm31FromM31, qm31Pack_value packed.1.lt zero.lt, packed.2]
  ext <;> simp [baseValue, cm31Value, cm31Re, cm31Im]

theorem qm31ScaleM31_spec (x s : ℕ) :
    CanonicalQM31 (qm31ScaleM31 x s) ∧
      qm31Value (qm31ScaleM31 x s) = qm31Value x * baseValue s := by
  have first := cm31Scale_spec (qm31C0 x) s
  have second := cm31Scale_spec (qm31C1 x) s
  refine ⟨qm31Pack_canonical first.1 second.1, ?_⟩
  rw [qm31ScaleM31, qm31Pack_value first.1.lt second.1.lt, first.2, second.2]
  ext1
  · simp [baseValue, qm31Value]
  · simp [baseValue, qm31Value]

/-- An inverse that is returned is the inverse. -/
theorem qm31Inv_spec (canonical : CanonicalQM31 x) (done : qm31Inv x = some z) :
    CanonicalQM31 z ∧ qm31Value x ≠ 0 ∧ qm31Value z = (qm31Value x)⁻¹ := by
  rcases cm31Mul_spec (qm31C0 x) (qm31C0 x) with ⟨aa, aaDone, aaCanonical, aaValue⟩
  rcases cm31Mul_spec (qm31C1 x) (qm31C1 x) with ⟨bb, bbDone, -, bbValue⟩
  rcases cm31Mul_spec qm31R bb with ⟨rbb, rbbDone, rbbCanonical, rbbValue⟩
  rcases cm31Sub_canonical aaCanonical rbbCanonical with ⟨norm, normDone, normCanonical, normValue⟩
  rcases cm31Neg_canonical canonical.2 with ⟨negated, negatedDone, -, negatedValue⟩
  simp only [qm31Inv, aaDone, bbDone, rbbDone, normDone, negatedDone, Option.bind_eq_bind,
    Option.bind_some, Option.bind_eq_some_iff] at done
  rcases done with ⟨normInv, inverse, a, first, b, second, packed⟩
  rcases cm31Inv_spec normCanonical inverse with ⟨-, nonzero, inverseValue⟩
  rcases cm31Mul_spec (qm31C0 x) normInv with ⟨a', first', aCanonical, aValue⟩
  rcases cm31Mul_spec negated normInv with ⟨b', second', bCanonical, bValue⟩
  rw [first] at first'
  rw [second] at second'
  have value := Option.some.inj packed
  subst value
  rw [Option.some.inj first', Option.some.inj second']
  rw [normValue, aaValue, rbbValue, bbValue, qm31R_value] at nonzero inverseValue
  have cancel := mul_inv_cancel₀ nonzero
  have product : qm31Value (qm31Pack a' b') * qm31Value x = 1 := by
    rw [qm31Pack_value aCanonical.lt bCanonical.lt, aValue, bValue, inverseValue, negatedValue]
    ext1
    · simp only [qm31Value, QuadraticAlgebra.re_mul, QuadraticAlgebra.re_one]
      linear_combination cancel
    · simp only [qm31Value, QuadraticAlgebra.im_mul, QuadraticAlgebra.im_one]
      ring
  refine ⟨qm31Pack_canonical aCanonical bCanonical, ?_, eq_inv_of_mul_eq_one_left product⟩
  intro zero
  rw [zero, mul_zero] at product
  exact zero_ne_one product

end Extension

end Verifier
end Contracts
end QLSA
