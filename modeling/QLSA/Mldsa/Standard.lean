import QLSA.Mldsa.Encoding
import QLSA.Mldsa.RingValues
import QLSA.Mldsa.Sampling
import QLSA.Mldsa.UseHint

namespace QLSA
namespace Mldsa

open Finset Machine

/-!
# Verification as the standard defines it

What a signature with an empty context has to satisfy, in terms of the ring and
of numbers: packed coefficients are digits of a long number, products are taken
in the ring, the matrix is the one whose transforms are the sampled entries, and
rounding follows the definition of `Decompose` on integers.  The quantities of a
verification are determined by the key and the signature.
-/

def BETA : ℤ := 196

/-! ## Encodings -/

/-- The coefficient with a number in bytes of packed coefficients. -/
def packedValue (bytes : List Byte) (bits i : ℕ) : ℕ :=
  Nat.ofDigits 256 (bytes.map BitVec.toNat) / 2 ^ (bits * i) % 2 ^ bits

/-- Coefficients of polynomial `i` of `t1`. -/
def t1Of (pk : List Byte) (i : ℕ) : Coeffs := fun c =>
  packedValue (slice pk (32 + i * 320) (32 + (i + 1) * 320)) 10 c

/-- Coefficients of polynomial `j` of `z`. -/
def zOf (sig : List Byte) (j : ℕ) : Coeffs := fun c =>
  GAMMA1 - packedValue (slice sig (48 + j * 640) (48 + j * 640 + 640)) 20 c

/-- Two coefficients below 16 in each byte. -/
def packNibbles (w : Coeffs) : List Byte :=
  (List.range 128).map fun k => BitVec.ofInt 8 (w (2 * k) + 16 * w (2 * k + 1))

/-! ## Rounding -/

/-- The residue of smallest magnitude, the positive one of two. -/
def centered (r m : ℤ) : ℤ := if m < 2 * (r % m) then r % m - m else r % m

/-- High and low part. -/
def highLow (r : ℤ) : ℤ × ℤ :=
  let low := centered (r % Q) (2 * GAMMA2)
  if r % Q - low = Q - 1 then (0, low - 1) else ((r % Q - low) / (2 * GAMMA2), low)

def useHint (h : Bool) (r : ℤ) : ℤ :=
  let m := (Q - 1) / (2 * GAMMA2)
  if h then
    if 0 < (highLow r).2 then ((highLow r).1 + 1) % m else ((highLow r).1 - 1) % m
  else (highLow r).1

/-! ## Verification -/

section Standard

variable (shake128 shake256 : List Byte → Xof)

/-- The first bytes of an output. -/
def squeeze (xof : Xof) (count : ℕ) : List Byte := (List.range count).map fun k => (xof k).toBitVec

/-- The quantities that a verification computes from a key and a signature: the
hint, the matrix, the challenge and the approximation of the commitment. -/
structure Computation (pk sig : List Byte) (hints : List (List Bool)) (A : ℕ → ℕ → Coeffs)
    (c : Coeffs) (w : ℕ → Coeffs) : Prop where
  hint : IsHint hints
  encoded : sig.drop 3248 = hintBitPack hints
  reduced : ∀ i < K, ∀ j < L, Reduced (A i j)
  matrix : ∀ i < K, ∀ j < L, ∀ k < N, ∃ entry,
    Sampled (shake128 (pk.take 32 ++ [BitVec.ofNat 8 j, BitVec.ofNat 8 i])) k entry ∧
      ∑ t ∈ range N, (A i j t : Zq) * ((ZETA : Zq) ^ (2 * reverseBits k + 1)) ^ t = entry
  challenge : InBall (shake256 (sig.take 48)) c
  approximation : ∀ i < K, Reduced (w i)
  product : ∀ i < K, element (w i) =
    ∑ j ∈ range L, element (A i j) * element (zOf sig j) -
      element c * element (t1Of pk i) * 2 ^ 13

/-- The message representative, for an empty context. -/
def representative (pk msg : List Byte) : List Byte :=
  squeeze (shake256 (squeeze (shake256 pk) 64 ++ [0, 0] ++ msg)) 64

/-- The signature is valid for the message under the key.  The matrix is given by its values, the
challenge by its weight, places and signs, and the products are those of the ring, so that no
transform and no loop of the program occurs here. -/
def Valid (pk msg sig : List Byte) : Prop :=
  pk.length = 1952 ∧ sig.length = 3309 ∧ (∀ j < L, ∀ c < N, |zOf sig j c| < GAMMA1 - BETA) ∧
    ∃ hints A c w, Computation shake128 shake256 pk sig hints A c w ∧
      sig.take 48 = squeeze (shake256 (representative shake256 pk msg ++
        (List.range K).flatMap fun i =>
          packNibbles fun k => useHint (marks hints i k) (w i k))) 48

end Standard

/-! ## The quantities are determined -/

section Unique

variable {shake128 shake256 : List Byte → Xof} {xof : Xof}

/-- An entry is determined by its number. -/
theorem Sampled.unique {j : ℕ} {first second : ℤ} (sampled : Sampled xof j first)
    (sampled' : Sampled xof j second) : first = second := by
  rcases sampled with ⟨k, rfl, small, numbered⟩
  rcases sampled' with ⟨k', rfl, small', numbered'⟩
  have same : k = k' := @Nat.count_injective (fun k => triple xof k < Q) _ k k' small small'
    (numbered.trans numbered'.symm)
  rw [same]

/-- Draws are determined by how many there are. -/
theorem Drawn.unique {first second : List ℕ} {pos pos' : ℕ} (drawn : Drawn xof first pos)
    (drawn' : Drawn xof second pos') (lengths : first.length = second.length) :
    first = second ∧ pos = pos' := by
  induction drawn generalizing second pos' with
  | start =>
      cases drawn' with
      | start => exact ⟨rfl, rfl⟩
      | draw => simp at lengths
  | @draw draws pos skipped before rejected accepted ih =>
      cases drawn' with
      | start => simp at lengths
      | @draw draws' pos'' skipped' before' rejected' accepted' =>
          rw [List.length_cons, List.length_cons, Nat.succ_inj] at lengths
          rcases ih before' lengths with ⟨rfl, rfl⟩
          have same : skipped = skipped' := by
            rcases Nat.lt_trichotomy skipped skipped' with early | equal | late
            · exact absurd (rejected' skipped early) (Nat.not_lt.mpr accepted)
            · exact equal
            · exact absurd (rejected skipped' late) (Nat.not_lt.mpr accepted')
          rw [same]
          exact ⟨rfl, rfl⟩

/-- Coefficients of a challenge are zero away from the places of its signs. -/
theorem InBall.zero {c : Coeffs} (ball : InBall xof c) {draws : List ℕ} {pos : ℕ}
    (drawn : Drawn xof draws pos) (length : draws.length = TAU) {k : ℕ} (inside : k < N)
    (free : ∀ t < TAU, place draws t ≠ k) : c k = 0 := by
  rcases ball.placed with ⟨own, ownPos, ownDrawn, ownLength, apart, placed⟩
  have same := (ownDrawn.unique drawn (ownLength.trans length.symm)).1
  subst same
  by_contra nonzero
  -- The places of the signs are already as many as the coefficients that are not zero.
  have subset : insert k ((range TAU).image (place own)) ⊆ (range N).filter fun k => c k ≠ 0 := by
    intro i member
    rw [mem_insert, mem_image] at member
    rw [mem_filter, mem_range]
    rcases member with rfl | ⟨t, early, rfl⟩
    · exact ⟨inside, nonzero⟩
    · have spot := placed t (mem_range.mp early)
      refine ⟨spot.1, ?_⟩
      rw [spot.2]
      split <;> decide
  have new : k ∉ (range TAU).image (place own) := by
    intro member
    rcases mem_image.mp member with ⟨t, early, spot⟩
    exact free t (mem_range.mp early) spot
  have count := card_le_card subset
  have injective : Set.InjOn (place own) (range TAU : Set ℕ) := by
    intro s first t second spot
    exact apart (mem_range.mp first) (mem_range.mp second) spot
  rw [card_insert_of_notMem new, card_image_of_injOn injective, card_range, ball.weight] at count
  omega

/-- An output has one challenge. -/
theorem InBall.unique {first second : Coeffs} (ball : InBall xof first)
    (ball' : InBall xof second) : Agree first second := by
  intro k inside
  rcases ball.placed with ⟨draws, pos, drawn, length, -, placed⟩
  rcases ball'.placed with ⟨draws', pos', drawn', length', -, placed'⟩
  have same := (drawn'.unique drawn (length'.trans length.symm)).1
  subst same
  by_cases taken : ∃ t < TAU, place draws' t = k
  · rcases taken with ⟨t, early, rfl⟩
    rw [(placed t early).2, (placed' t early).2]
  · have free : ∀ t < TAU, place draws' t ≠ k := fun t early spot => taken ⟨t, early, spot⟩
    rw [ball.zero drawn' length' inside free, ball'.zero drawn' length' inside free]

/-- A key and a signature determine the hint and the approximation. -/
theorem Computation.unique {pk sig : List Byte} {hints hints' : List (List Bool)}
    {A A' : ℕ → ℕ → Coeffs} {c c' : Coeffs} {w w' : ℕ → Coeffs}
    (own : Computation shake128 shake256 pk sig hints A c w)
    (other : Computation shake128 shake256 pk sig hints' A' c' w') :
    hints = hints' ∧ ∀ i < K, Agree (w i) (w' i) := by
  refine ⟨hintBitPack_injective own.hint other.hint (own.encoded.symm.trans other.encoded), ?_⟩
  intro i row
  have entries (j : ℕ) (column : j < L) : element (A i j) = element (A' i j) := by
    apply element_of_values (own.reduced i row j column)
    intro k inside
    rcases own.matrix i row j column k inside with ⟨entry, sampled, value⟩
    rcases other.matrix i row j column k inside with ⟨entry', sampled', value'⟩
    rw [valueAt_element, valueAt_element]
    exact value.trans ((congrArg _ (sampled.unique sampled')).trans value'.symm)
  have products : ∑ j ∈ range L, element (A i j) * element (zOf sig j) =
      ∑ j ∈ range L, element (A' i j) * element (zOf sig j) := by
    apply sum_congr rfl
    intro j column
    rw [entries j (mem_range.mp column)]
  apply (own.approximation i row).unique (other.approximation i row)
  rw [own.product i row, other.product i row, products,
    (own.challenge.unique other.challenge).element_eq]

end Unique

end Mldsa
end QLSA
