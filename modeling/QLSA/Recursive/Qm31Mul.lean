import QLSA.Stwo.FieldHash

namespace QLSA
namespace Recursive
namespace Qm31

open Hash Mersenne Stwo

/-!
# Packed values of the quartic extension

A packed value holds four words of thirty-two bits, the first one on top.
The routines of the circuits take such values apart, work on their limbs and
pack the results.  Limbs that come out of a routine are reduced, so a result
is determined by the residues of what went in; the exception is a difference
whose second limb exceeds the first by more than `P`.
-/

/-! ## Words -/

def m31Mul (a b : ℕ) : ℕ := a * b % u64Modulus % P

def m31Add (a b : ℕ) : ℕ := (a + b) % u64Modulus % P

def m31Sub (a b : ℕ) : ℕ := (a + P + u64Modulus - b) % u64Modulus % P

theorem m31Mul_eq {a b : ℕ} (first : a < 2 ^ 32) (second : b < 2 ^ 32) :
    m31Mul a b = ((a : M31) * b).val := by
  have small : a * b < u64Modulus := by
    calc
      a * b < 2 ^ 32 * 2 ^ 32 := Nat.mul_lt_mul'' first second
      _ = u64Modulus := by decide
  rw [m31Mul, Nat.mod_eq_of_lt small, ← Nat.cast_mul, ZMod.val_natCast]

theorem m31Add_eq {a b : ℕ} (first : a < 2 ^ 32) (second : b < 2 ^ 32) :
    m31Add a b = ((a : M31) + b).val := by
  have small : a + b < u64Modulus := by
    rw [u64Modulus]
    omega
  rw [m31Add, Nat.mod_eq_of_lt small, ← Nat.cast_add, ZMod.val_natCast]

theorem m31Sub_eq {a b : ℕ} (first : a < 2 ^ 32) (near : b ≤ a + P) :
    m31Sub a b = ((a : M31) - b).val := by
  have wrapped : a + P + u64Modulus - b = a + P - b + u64Modulus := by omega
  have small : a + P - b < u64Modulus := by
    rw [u64Modulus, P]
    omega
  have cast : ((a + P - b : ℕ) : M31) = a - b := by
    rw [Nat.cast_sub near, Nat.cast_add, CharP.cast_eq_zero M31 P, add_zero]
  rw [m31Sub, wrapped, Nat.add_mod_right, Nat.mod_eq_of_lt small, ← cast, ZMod.val_natCast]

/-! ## Limbs -/

def addLimbs (x y : Quad ℕ) : Quad ℕ := Quad.zipWith m31Add x y

def subLimbs (x y : Quad ℕ) : Quad ℕ := Quad.zipWith m31Sub x y

def scaleLimbs (x : Quad ℕ) (s : ℕ) : Quad ℕ := x.map fun limb : ℕ => m31Mul limb s

def mulLimbs (x y : Quad ℕ) : Quad ℕ :=
  let u := m31Sub (m31Mul x.w2 y.w2) (m31Mul x.w3 y.w3)
  let v := m31Add (m31Mul x.w2 y.w3) (m31Mul x.w3 y.w2)
  let two := fun t => m31Add t t
  ⟨m31Add (m31Sub (m31Mul x.w0 y.w0) (m31Mul x.w1 y.w1)) (m31Sub (two u) v),
    m31Add (m31Add (m31Mul x.w0 y.w1) (m31Mul x.w1 y.w0)) (m31Add u (two v)),
    m31Add (m31Sub (m31Mul x.w0 y.w2) (m31Mul x.w1 y.w3))
      (m31Sub (m31Mul x.w2 y.w0) (m31Mul x.w3 y.w1)),
    m31Add (m31Add (m31Mul x.w0 y.w3) (m31Mul x.w1 y.w2))
      (m31Add (m31Mul x.w2 y.w1) (m31Mul x.w3 y.w0))⟩

/-- The four limbs of a packed value. -/
def limbs (q : ℕ) : Quad ℕ :=
  ⟨q >>> 96 % 2 ^ 32, q >>> 64 % 2 ^ 32, q >>> 32 % 2 ^ 32, q % 2 ^ 32⟩

/-- Four limbs in a `u128`. -/
def pack (l : Quad ℕ) : ℕ :=
  (l.w0 <<< 96 ||| l.w1 <<< 64 ||| l.w2 <<< 32 ||| l.w3) % 2 ^ 128

theorem limbs_small (q : ℕ) : (limbs q).All (· < 2 ^ 32) := by
  refine ⟨?_, ?_, ?_, ?_⟩ <;> exact Nat.mod_lt _ (Nat.two_pow_pos 32)

theorem pack_eq {l : Quad ℕ} (small : l.All (· < 2 ^ 32)) :
    pack l = ((l.w0 * 2 ^ 32 + l.w1) * 2 ^ 32 + l.w2) * 2 ^ 32 + l.w3 := by
  rcases small with ⟨first, second, third, fourth⟩
  have high : l.w0 <<< 96 ||| l.w1 <<< 64 = (l.w0 * 2 ^ 32 + l.w1) <<< 64 := by
    rw [← Nat.shiftLeft_add_eq_or_of_lt (by rw [Nat.shiftLeft_eq]; omega)]
    simp only [Nat.shiftLeft_eq]
    ring
  have middle : (l.w0 * 2 ^ 32 + l.w1) <<< 64 ||| l.w2 <<< 32 =
      ((l.w0 * 2 ^ 32 + l.w1) * 2 ^ 32 + l.w2) <<< 32 := by
    rw [← Nat.shiftLeft_add_eq_or_of_lt (by rw [Nat.shiftLeft_eq]; omega)]
    simp only [Nat.shiftLeft_eq]
    ring
  rw [pack, high, middle, ← Nat.shiftLeft_add_eq_or_of_lt fourth, Nat.shiftLeft_eq]
  exact Nat.mod_eq_of_lt (by omega)

theorem limbs_pack {l : Quad ℕ} (small : l.All (· < 2 ^ 32)) : limbs (pack l) = l := by
  rw [pack_eq small]
  rcases small with ⟨first, second, third, fourth⟩
  ext <;> simp only [limbs, Nat.shiftRight_eq_div_pow] <;> omega

/-! ## Values -/

/-- The field element of a packed value. -/
def value (q : ℕ) : Quad M31 := residues (limbs q)

/-- The packed value with reduced limbs of a field element. -/
def packed (x : Quad M31) : ℕ := pack (words x)

/-- A packed value with its limbs reduced. -/
def reduce (q : ℕ) : ℕ := pack (norm4 (limbs q))

@[simp] theorem limbs_packed (x : Quad M31) : limbs (packed x) = words x :=
  limbs_pack (words_small x)

@[simp] theorem value_packed (x : Quad M31) : value (packed x) = x := by
  rw [value, limbs_packed, residues_words]

theorem packed_value (q : ℕ) : packed (value q) = reduce q := by
  rw [packed, value, words_residues, reduce]

@[simp] theorem value_reduce (q : ℕ) : value (reduce q) = value q := by
  rw [← packed_value, value_packed]

section Expressions

variable {F : Type*} [CommRing F]

def qadd (x y : Quad F) : Quad F := Quad.zipWith (· + ·) x y

def qsub (x y : Quad F) : Quad F := Quad.zipWith (· - ·) x y

def qscale (x : Quad F) (s : F) : Quad F := x.map (· * s)

/-- Product in the quartic extension, as an expression. -/
def qmul (x y : Quad F) : Quad F :=
  let two : F := 2
  let u := x.w2 * y.w2 - x.w3 * y.w3
  let v := x.w2 * y.w3 + x.w3 * y.w2
  ⟨x.w0 * y.w0 - x.w1 * y.w1 + u * two - v,
    x.w0 * y.w1 + x.w1 * y.w0 + u + v * two,
    x.w0 * y.w2 - x.w1 * y.w3 + x.w2 * y.w0 - x.w3 * y.w1,
    x.w0 * y.w3 + x.w1 * y.w2 + x.w2 * y.w1 + x.w3 * y.w0⟩

end Expressions

theorem word_small (a : M31) : a.val < 2 ^ 32 := lt_trans (val_lt_P a) (by decide)

theorem word_near (a : ℕ) (b : M31) : b.val ≤ a + P :=
  le_trans (Nat.le_of_lt (val_lt_P b)) (Nat.le_add_left _ _)

theorem addLimbs_eq {x y : Quad ℕ} (first : x.All (· < 2 ^ 32)) (second : y.All (· < 2 ^ 32)) :
    addLimbs x y = words (qadd (residues x) (residues y)) := by
  rcases first with ⟨x0, x1, x2, x3⟩
  rcases second with ⟨y0, y1, y2, y3⟩
  ext <;> simp only [addLimbs, qadd, words, residues, Quad.zipWith, Quad.map] <;>
    exact m31Add_eq (by assumption) (by assumption)

theorem subLimbs_eq {x : Quad ℕ} (first : x.All (· < 2 ^ 32)) (y : Quad M31) :
    subLimbs x (words y) = words (qsub (residues x) y) := by
  have cast (b : M31) : ((b.val : ℕ) : M31) = b := ZMod.natCast_zmod_val b
  rcases first with ⟨x0, x1, x2, x3⟩
  ext <;> simp only [subLimbs, qsub, words, residues, Quad.zipWith, Quad.map] <;>
    rw [m31Sub_eq (by assumption) (word_near _ _), cast]

theorem scaleLimbs_eq {x : Quad ℕ} {s : ℕ} (first : x.All (· < 2 ^ 32)) (second : s < 2 ^ 32) :
    scaleLimbs x s = words (qscale (residues x) (s : M31)) := by
  rcases first with ⟨x0, x1, x2, x3⟩
  ext <;> simp only [scaleLimbs, qscale, words, residues, Quad.map] <;>
    exact m31Mul_eq (by assumption) second

theorem m31Add_val (a b : M31) : m31Add a.val b.val = (a + b).val := by
  rw [m31Add_eq (word_small a) (word_small b), ZMod.natCast_zmod_val, ZMod.natCast_zmod_val]

theorem m31Sub_val (a b : M31) : m31Sub a.val b.val = (a - b).val := by
  rw [m31Sub_eq (word_small a) (word_near _ b), ZMod.natCast_zmod_val, ZMod.natCast_zmod_val]

theorem mulLimbs_eq {x y : Quad ℕ} (first : x.All (· < 2 ^ 32)) (second : y.All (· < 2 ^ 32)) :
    mulLimbs x y = words (qmul (residues x) (residues y)) := by
  rcases first with ⟨x0, x1, x2, x3⟩
  rcases second with ⟨y0, y1, y2, y3⟩
  ext <;> simp only [mulLimbs, m31Mul_eq x0 y0, m31Mul_eq x0 y1, m31Mul_eq x0 y2,
    m31Mul_eq x0 y3, m31Mul_eq x1 y0, m31Mul_eq x1 y1, m31Mul_eq x1 y2, m31Mul_eq x1 y3,
    m31Mul_eq x2 y0, m31Mul_eq x2 y1, m31Mul_eq x2 y2, m31Mul_eq x2 y3, m31Mul_eq x3 y0,
    m31Mul_eq x3 y1, m31Mul_eq x3 y2, m31Mul_eq x3 y3, m31Add_val, m31Sub_val, qmul, words,
    residues, Quad.map] <;> congr 1 <;> ring

end Qm31
end Recursive
end QLSA
