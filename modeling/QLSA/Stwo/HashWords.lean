import QLSA.Field.Mersenne31
import QLSA.Hash.Sixteen

namespace QLSA
namespace Stwo

open Mersenne Hash

/-!
# Words of a digest

The first 124 bits of a digest become four words of 31 bits.  The largest of
these words is `P`, which the field does not tell from zero: a word is reduced
unless its bits are all ones, and two digests can share their residues where
one has a limb of ones and the other a limb of zeros.
-/

/-- The first sixteen bytes as a number, the first one lowest. -/
def lowHalf (digest : Fin 32 → UInt8) : ℕ :=
  (List.finRange 16).foldl
    (fun bits i => bits ||| (digest (i.castLE (by decide))).toNat <<< (8 * i.val)) 0

def wordsFromHash (digest : Fin 32 → UInt8) : Quad ℕ :=
  let bits := lowHalf digest
  let word := fun i => bits >>> (31 * i) &&& 0x7fffffff
  ⟨word 0, word 1, word 2, word 3⟩

/-! ## Bits -/

/-- Bit of a digest, counted from the lowest of its first byte. -/
def digestBit (digest : Fin 32 → UInt8) (j : Fin 256) : Bool :=
  (digest ⟨j / 8, by omega⟩).toNat.testBit (j % 8)

/-- Bit of one of the four limbs. -/
def limbBit (digest : Fin 32 → UInt8) (i : Fin 4) (b : Fin 31) : Bool :=
  digestBit digest ⟨31 * i + b, by omega⟩

/-- Digests that differ in their first 124 bits. -/
def DifferEarly (first second : Fin 32 → UInt8) : Prop :=
  ∃ j : Fin 256, j.val < 124 ∧ digestBit first j ≠ digestBit second j

/-- A limb of ones, or of zeros. -/
def Limb (value : Bool) (digest : Fin 32 → UInt8) (i : Fin 4) : Prop :=
  ∀ b, limbBit digest i b = value

theorem testBit_foldl_or {ι : Type*} (f : ι → ℕ) (list : List ι) (bits j : ℕ) :
    (list.foldl (fun bits i => bits ||| f i) bits).testBit j =
      (bits.testBit j || list.any fun i => (f i).testBit j) := by
  induction list generalizing bits with
  | nil => simp
  | cons first rest ih => rw [List.foldl_cons, ih, Nat.testBit_or, List.any_cons, Bool.or_assoc]

theorem testBit_lowHalf (digest : Fin 32 → UInt8) {j : ℕ} (early : j < 128) :
    (lowHalf digest).testBit j = digestBit digest ⟨j, by omega⟩ := by
  rw [lowHalf, testBit_foldl_or, Nat.zero_testBit, Bool.false_or, Bool.eq_iff_iff, List.any_eq_true]
  simp only [Nat.testBit_shiftLeft, Bool.and_eq_true, decide_eq_true_eq, List.mem_finRange, true_and]
  constructor
  · rintro ⟨i, after, set⟩
    have within : j - 8 * i.val < 8 := by
      by_contra beyond
      have small : (digest (i.castLE (by decide))).toNat < 2 ^ (j - 8 * i.val) :=
        (UInt8.toNat_lt _).trans_le (Nat.pow_le_pow_right (by decide) (not_lt.mp beyond))
      rw [Nat.testBit_lt_two_pow small] at set
      cases set
    have byte : i.val = j / 8 := by omega
    have bit : j - 8 * i.val = j % 8 := by omega
    have place : i.castLE (by decide) = (⟨j / 8, by omega⟩ : Fin 32) := Fin.ext byte
    rw [bit, place] at set
    exact set
  · intro set
    refine ⟨⟨j / 8, by omega⟩, by simp only; omega, ?_⟩
    have bit : j - 8 * (j / 8) = j % 8 := by omega
    rw [bit]
    exact set

section Words

variable (digest : Fin 32 → UInt8) (i : Fin 4)

theorem cell_wordsFromHash :
    (wordsFromHash digest).cell i = lowHalf digest >>> (31 * i.val) % 2 ^ 31 := by
  have mask (w : ℕ) : w &&& 0x7fffffff = w % 2 ^ 31 := Nat.and_two_pow_sub_one_eq_mod w 31
  rw [← mask]
  fin_cases i <;> rfl

theorem testBit_cell (b : Fin 31) :
    ((wordsFromHash digest).cell i).testBit b.val = limbBit digest i b := by
  rw [cell_wordsFromHash, Nat.testBit_mod_two_pow, Nat.testBit_shiftRight, testBit_lowHalf _ (by omega)]
  simp [limbBit]

theorem cell_lt : (wordsFromHash digest).cell i < 2 ^ 31 := by
  rw [cell_wordsFromHash]
  exact Nat.mod_lt _ (by decide)

/-- A word below `2^31` is known by the bits of its limb. -/
theorem cell_eq_iff {w : ℕ} (small : w < 2 ^ 31) :
    (wordsFromHash digest).cell i = w ↔ ∀ b : Fin 31, limbBit digest i b = w.testBit b.val := by
  constructor
  · intro same b
    rw [← testBit_cell, same]
  · intro bits
    apply Nat.eq_of_testBit_eq
    intro j
    by_cases inside : j < 31
    · exact (testBit_cell digest i ⟨j, inside⟩).trans (bits ⟨j, inside⟩)
    · have power : 2 ^ 31 ≤ 2 ^ j := Nat.pow_le_pow_right (by decide) (not_lt.mp inside)
      rw [Nat.testBit_lt_two_pow ((cell_lt digest i).trans_le power),
        Nat.testBit_lt_two_pow (small.trans_le power)]

theorem cell_eq_P : (wordsFromHash digest).cell i = P ↔ Limb true digest i := by
  have ones (b : Fin 31) : P.testBit b.val = true := by
    have power : P = 2 ^ 31 - 1 := rfl
    rw [power, Nat.testBit_two_pow_sub_one]
    exact decide_eq_true b.isLt
  rw [cell_eq_iff digest i (by decide)]
  simp only [ones, Limb]

theorem cell_eq_zero : (wordsFromHash digest).cell i = 0 ↔ Limb false digest i := by
  rw [cell_eq_iff digest i (by decide)]
  simp only [Nat.zero_testBit, Limb]

end Words

/-- Words up to `P` with the same residue are equal, or one is `P` and the other zero. -/
theorem residue_eq_iff {a b : ℕ} (first : a < 2 ^ 31) (second : b < 2 ^ 31) :
    (a : M31) = b ↔ a = b ∨ a = 0 ∧ b = P ∨ a = P ∧ b = 0 := by
  rw [ZMod.natCast_eq_natCast_iff']
  simp only [P] at *
  omega

/-- A word is reduced exactly when its limb is not all ones, and digests that
differ early have different residues exactly when they do not differ only by
limbs of ones against limbs of zeros. -/
theorem words_from_hash_iff (first second : Fin 32 → UInt8) :
    ((∀ i, (wordsFromHash first).cell i < P) ↔ ∀ i, ¬ Limb true first i) ∧
      ((DifferEarly first second →
          ∃ i, ((wordsFromHash first).cell i : M31) ≠ (wordsFromHash second).cell i) ↔
        ¬ (DifferEarly first second ∧ ∀ i,
          (∀ b, limbBit first i b = limbBit second i b) ∨
            Limb false first i ∧ Limb true second i ∨
              Limb true first i ∧ Limb false second i)) := by
  have modulus : P = 2 ^ 31 - 1 := rfl
  constructor
  · apply forall_congr'
    intro i
    have small := cell_lt first i
    rw [← cell_eq_P]
    omega
  · have limbs (i : Fin 4) :
        ((wordsFromHash first).cell i : M31) = (wordsFromHash second).cell i ↔
          (∀ b, limbBit first i b = limbBit second i b) ∨
            Limb false first i ∧ Limb true second i ∨
              Limb true first i ∧ Limb false second i := by
      rw [residue_eq_iff (cell_lt first i) (cell_lt second i),
        cell_eq_iff first i (cell_lt second i), cell_eq_zero, cell_eq_zero, cell_eq_P, cell_eq_P]
      simp only [testBit_cell]
    simp only [ne_eq, limbs, not_and, not_forall]

/-- The digest whose first limb is ones and whose other bits are zeros. -/
def onesLimb : Fin 32 → UInt8 := fun i => if i.val < 3 then 255 else if i.val = 3 then 127 else 0

theorem words_from_hash_overlap :
    ¬ ((∀ digest : Fin 32 → UInt8, ∀ i, (wordsFromHash digest).cell i < P) ∧
      ∀ first second : Fin 32 → UInt8, DifferEarly first second →
        ∃ i, ((wordsFromHash first).cell i : M31) ≠ (wordsFromHash second).cell i) := by
  rintro ⟨-, apart⟩
  have differ : DifferEarly (fun _ => 0) onesLimb := ⟨0, by decide, by decide⟩
  rcases apart _ _ differ with ⟨i, different⟩
  apply different
  fin_cases i <;> decide +kernel

end Stwo
end QLSA
