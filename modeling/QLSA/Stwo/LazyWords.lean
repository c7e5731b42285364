import QLSA.Stwo.FieldHash

namespace QLSA
namespace Stwo

open Mersenne Hash

/-!
# Words up to `P`

A word of a hash may be `P`, which the compression does not reduce before it
adds.  One addition of a reduced word is enough: beside a canonical half, words
up to `P` are compressed as their residues are.
-/

/-- Words up to `P` with one residue. -/
structure SameResidue (a b : ℕ) : Prop where
  left_le : a ≤ P
  right_le : b ≤ P
  cast_eq : (a : M31) = b

section Lazy

variable {a b c d : ℕ}

theorem m31Add_cases (first : a ≤ P) (second : b ≤ P) :
    m31Add a b = if P ≤ a + b then a + b - P else a + b := by
  have small : (a + b) % u64Modulus = a + b := by
    apply Nat.mod_eq_of_lt
    simp only [P, u64Modulus] at *
    omega
  rw [m31Add, small]

theorem m31Add_le (first : a ≤ P) (second : b ≤ P) : m31Add a b ≤ P := by
  rw [m31Add_cases first second]
  split <;> omega

theorem m31Add_cast (first : a ≤ P) (second : b ≤ P) : (m31Add a b : M31) = a + b := by
  have zero : ((P : ℕ) : M31) = 0 := ZMod.natCast_self P
  rw [m31Add_cases first second]
  split
  case isTrue large => rw [Nat.cast_sub large, Nat.cast_add, zero, sub_zero]
  case isFalse => rw [Nat.cast_add]

/-- A sum with a reduced word is reduced. -/
theorem m31Add_lt (first : a ≤ P) (second : b < P) : m31Add a b < P := by
  rw [m31Add_cases first second.le]
  split <;> omega

theorem SameResidue.add (first : SameResidue a b) (second : SameResidue c d) :
    SameResidue (m31Add a c) (m31Add b d) where
  left_le := m31Add_le first.left_le second.left_le
  right_le := m31Add_le first.right_le second.right_le
  cast_eq := by
    rw [m31Add_cast first.left_le second.left_le, m31Add_cast first.right_le second.right_le,
      first.cast_eq, second.cast_eq]

theorem SameResidue.add_canonical (same : SameResidue a b) (reduced : c < P) :
    m31Add a c = m31Add b c := by
  apply Canonical.eq_of_cast (m31Add_lt same.left_le reduced) (m31Add_lt same.right_le reduced)
  rw [m31Add_cast same.left_le reduced.le, m31Add_cast same.right_le reduced.le, same.cast_eq]

end Lazy

/-- Quads of words up to `P` with the same residues. -/
structure SameResidues (first second : Quad ℕ) : Prop where
  w0 : SameResidue first.w0 second.w0
  w1 : SameResidue first.w1 second.w1
  w2 : SameResidue first.w2 second.w2
  w3 : SameResidue first.w3 second.w3

theorem SameResidues.m4 {first second : Quad ℕ} (same : SameResidues first second) :
    SameResidues (Stwo.m4 first) (Stwo.m4 second) := by
  rcases same with ⟨w0, w1, w2, w3⟩
  have t0 := w0.add w1
  have t1 := w2.add w3
  have t2 := (w1.add w1).add t1
  have t3 := (w3.add w3).add t0
  have t4 := ((t1.add t1).add (t1.add t1)).add t3
  have t5 := ((t0.add t0).add (t0.add t0)).add t2
  exact ⟨t3.add t5, t5, t2.add t4, t4⟩

/-- Beside a canonical half, words up to `P` mix as their residues do. -/
theorem SameResidues.matExternal {first second right : Quad ℕ} (same : SameResidues first second)
    (canonical : right.All Canonical) :
    Stwo.matExternal (State.ofQuads first right) = Stwo.matExternal (State.ofQuads second right) := by
  have mixed := same.m4
  have reduced : (Stwo.m4 right).All Canonical := by
    rw [← norm4_eq_self canonical, ← words_residues, m4_words]
    exact words_canonical _
  rcases reduced with ⟨r0, r1, r2, r3⟩
  have left : (State.ofQuads first right).left = first := rfl
  have left' : (State.ofQuads second right).left = second := rfl
  have half : (State.ofQuads first right).right = right := rfl
  have half' : (State.ofQuads second right).right = right := rfl
  unfold Stwo.matExternal
  rw [left, left', half, half']
  dsimp only
  rw [mixed.w0.add_canonical r0, mixed.w1.add_canonical r1, mixed.w2.add_canonical r2,
    mixed.w3.add_canonical r3,
    mixed.w0.add_canonical (m31Add_lt mixed.w0.right_le r0),
    mixed.w1.add_canonical (m31Add_lt mixed.w1.right_le r1),
    mixed.w2.add_canonical (m31Add_lt mixed.w2.right_le r2),
    mixed.w3.add_canonical (m31Add_lt mixed.w3.right_le r3)]

theorem sameResidues_norm4 {quad : Quad ℕ} (bounded : quad.All (· ≤ P)) :
    SameResidues quad (norm4 quad) := by
  rcases bounded with ⟨b0, b1, b2, b3⟩
  have reduce (x : ℕ) (small : x ≤ P) : SameResidue x (x % P) :=
    ⟨small, (Nat.mod_lt x P_prime.pos).le, (ZMod.natCast_mod x P).symm⟩
  exact ⟨reduce _ b0, reduce _ b1, reduce _ b2, reduce _ b3⟩

/-- Beside a canonical half, words up to `P` are compressed as their residues. -/
theorem compressT8_norm4 {left right : Quad ℕ} (bounded : left.All (· ≤ P))
    (canonical : right.All Canonical) :
    compressT8 (norm4 left) right = compressT8 left right := by
  rw [compressT8, compressT8, permuteT8, permuteT8,
    (sameResidues_norm4 bounded).matExternal canonical]

end Stwo
end QLSA
