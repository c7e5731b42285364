import QLSA.Machine.Numerals
import Mathlib.NumberTheory.LucasLehmer
import Mathlib.Algebra.Field.ZMod

namespace QLSA
namespace Mersenne

/-!
# The field of `2^31 - 1` elements

Every arithmetic routine of the repository works on representatives of
residues modulo the Mersenne prime `P = 2^31 - 1`.  A representative is
canonical when it is below `P`; the routines are compared with the field
through the residue of a natural number.
-/

/-- The Mersenne prime `2^31 - 1`. -/
def P : ℕ := 2147483647

theorem P_prime : P.Prime := by
  have mersenne : (mersenne 31).Prime := lucas_lehmer_sufficiency _ (by simp) (by norm_num)
  exact mersenne

instance : Fact P.Prime := ⟨P_prime⟩

instance : NeZero P := ⟨P_prime.ne_zero⟩

/-- The prime field. -/
abbrev M31 := ZMod P

/-- A word is canonical when it is its own residue. -/
abbrev Canonical (word : ℕ) : Prop := word < P

theorem cast_sub_P {word : ℕ} (large : P ≤ word) : ((word - P : ℕ) : M31) = word := by
  rw [Nat.cast_sub large, CharP.cast_eq_zero M31 P, sub_zero]

theorem cast_mod (word : ℕ) : ((word % P : ℕ) : M31) = word :=
  ZMod.natCast_mod word P

/-- Canonical words are determined by their residues. -/
theorem Canonical.eq_of_cast {first second : ℕ} (firstCanonical : Canonical first)
    (secondCanonical : Canonical second) (same : (first : M31) = second) : first = second := by
  have residues := (ZMod.natCast_eq_natCast_iff first second P).mp same
  rwa [Nat.ModEq, Nat.mod_eq_of_lt firstCanonical, Nat.mod_eq_of_lt secondCanonical] at residues

end Mersenne
end QLSA
