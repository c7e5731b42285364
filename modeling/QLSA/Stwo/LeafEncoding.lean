import QLSA.Stwo.BatchMembership
import QLSA.Stwo.NonceTree
import Mathlib.Data.Nat.Digits.Lemmas

namespace QLSA
namespace Stwo

open Hash Mersenne

/-!
# Leaves have one encoding each

A byte string is packed three bytes to a word, with its length as the last
word, and a nonce into limbs of 30 bits.  All of these words are below the
modulus of the field, so nothing is lost when they are read as field elements.
-/

/-- Lists of canonical words are determined by their residues. -/
theorem map_cast_injective {words others : List ℕ} (canonical : ∀ word ∈ words, Canonical word)
    (canonicalOthers : ∀ word ∈ others, Canonical word)
    (same : words.map (Nat.cast : ℕ → M31) = others.map Nat.cast) : words = others := by
  induction words generalizing others with
  | nil => exact (List.map_eq_nil_iff.mp same.symm).symm
  | cons word rest ih =>
      cases others with
      | nil => simp at same
      | cons other tail =>
          rw [List.forall_mem_cons] at canonical canonicalOthers
          rw [List.map_cons, List.map_cons, List.cons.injEq] at same
          rw [canonical.1.eq_of_cast canonicalOthers.1 same.1,
            ih canonical.2 canonicalOthers.2 same.2]

/-! ## Byte strings -/

section Bytes

variable {chunk other data : List UInt8}

/-- The digits of a little-endian word. -/
def byteDigits (chunk : List UInt8) : List ℕ := chunk.map UInt8.toNat

theorem byteDigits_lt (chunk : List UInt8) : ∀ digit ∈ byteDigits chunk, digit < 256 := by
  intro digit member
  obtain ⟨byte, _, rfl⟩ := List.mem_map.mp member
  exact byte.toNat_lt

/-- Bytes put in above the bits of a word. -/
theorem foldl_or_shiftLeft (chunk : List UInt8) (place w : ℕ) (below : w < 2 ^ (8 * place)) :
    (chunk.zipIdx place).foldl (fun w entry => w ||| entry.1.toNat <<< (8 * entry.2)) w =
      w + 2 ^ (8 * place) * Nat.ofDigits 256 (byteDigits chunk) := by
  induction chunk generalizing place w with
  | nil => simp [byteDigits]
  | cons byte rest ih =>
      have added : w ||| byte.toNat <<< (8 * place) = w + 2 ^ (8 * place) * byte.toNat := by
        rw [Nat.or_comm, ← Nat.shiftLeft_add_eq_or_of_lt below, Nat.shiftLeft_eq]
        ring
      have width : 2 ^ (8 * (place + 1)) = 2 ^ (8 * place) * 256 := by
        rw [Nat.mul_succ, pow_add]
        norm_num
      have next : w + 2 ^ (8 * place) * byte.toNat < 2 ^ (8 * (place + 1)) := by
        have small : byte.toNat + 1 ≤ 256 := byte.toNat_lt
        calc w + 2 ^ (8 * place) * byte.toNat
            < 2 ^ (8 * place) + 2 ^ (8 * place) * byte.toNat := by omega
          _ = 2 ^ (8 * place) * (byte.toNat + 1) := by ring
          _ ≤ 2 ^ (8 * place) * 256 := Nat.mul_le_mul_left _ small
          _ = 2 ^ (8 * (place + 1)) := width.symm
      have digits : Nat.ofDigits 256 (byteDigits (byte :: rest)) =
          byte.toNat + 256 * Nat.ofDigits 256 (byteDigits rest) := Nat.ofDigits_cons
      rw [List.zipIdx_cons, List.foldl_cons, added, ih (place + 1) _ next, digits, width]
      ring

/-- A chunk is the little-endian number of its bytes. -/
theorem chunkWord_eq (chunk : List UInt8) :
    chunkWord chunk = Nat.ofDigits 256 (byteDigits chunk) := by
  rw [chunkWord, foldl_or_shiftLeft chunk 0 0 (by simp)]
  simp

theorem chunkWord_injective (lengths : chunk.length = other.length)
    (same : chunkWord chunk = chunkWord other) : chunk = other := by
  rw [chunkWord_eq, chunkWord_eq] at same
  have digits : byteDigits chunk = byteDigits other :=
    Nat.ofDigits_inj_of_len_eq (by norm_num) (by simpa [byteDigits] using lengths)
      (byteDigits_lt chunk) (byteDigits_lt other) same
  exact List.map_injective_iff.mpr (fun _ _ => UInt8.toNat_inj.mp) digits

theorem chunkWord_canonical (short : chunk.length ≤ bytesPerWord) :
    Canonical (chunkWord chunk) := by
  rw [chunkWord_eq]
  calc Nat.ofDigits 256 (byteDigits chunk)
      < 256 ^ (byteDigits chunk).length :=
        Nat.ofDigits_lt_base_pow_length (by norm_num) (byteDigits_lt chunk)
    _ ≤ 256 ^ bytesPerWord :=
        Nat.pow_le_pow_right (by norm_num) (by rwa [byteDigits, List.length_map])
    _ < P := by decide

/-- What is left behind the full chunks. -/
theorem chunks_short (short : data.length < bytesPerWord) (nonempty : data ≠ []) :
    chunks data = [data] := by
  rcases data with _ | ⟨b0, _ | ⟨b1, _ | ⟨b2, rest⟩⟩⟩
  · exact absurd rfl nonempty
  · rfl
  · rfl
  · simp only [bytesPerWord, List.length_cons] at short
    omega

theorem length_lt_of_ragged
    (ragged : ∀ b0 b1 b2 rest, data = b0 :: b1 :: b2 :: rest → False) :
    data.length < bytesPerWord := by
  rcases data with _ | ⟨b0, _ | ⟨b1, _ | ⟨b2, rest⟩⟩⟩
  · decide
  · exact Nat.one_lt_ofNat
  · exact Nat.lt_succ_self 2
  · exact absurd rfl (ragged b0 b1 b2 rest)

theorem chunks_length_le : ∀ chunk ∈ chunks data, chunk.length ≤ bytesPerWord := by
  induction data using chunks.induct with
  | case1 b0 b1 b2 rest ih =>
      rw [chunks, List.forall_mem_cons]
      exact ⟨le_rfl, ih⟩
  | case2 => simp [chunks]
  | case3 data ragged nonempty =>
      have short := length_lt_of_ragged ragged
      rw [chunks_short short nonempty, List.forall_mem_singleton]
      exact short.le

/-- Strings of one length have the same words only if they are equal. -/
theorem chunkWords_injective (lengths : data.length = other.length)
    (same : (chunks data).map chunkWord = (chunks other).map chunkWord) : data = other := by
  induction data using chunks.induct generalizing other with
  | case1 b0 b1 b2 rest ih =>
      rcases other with _ | ⟨c0, _ | ⟨c1, _ | ⟨c2, tail⟩⟩⟩
      · simp at lengths
      · simp at lengths
      · simp at lengths
      · simp only [chunks, List.map_cons, List.cons.injEq] at same
        have first : [b0, b1, b2] = [c0, c1, c2] := chunkWord_injective rfl same.1
        have others := ih (by simpa using lengths) same.2
        simp only [List.cons.injEq, and_true] at first
        obtain ⟨rfl, rfl, rfl⟩ := first
        rw [others]
  | case2 => exact (List.length_eq_zero_iff.mp lengths.symm).symm
  | case3 data ragged nonempty =>
      have short := length_lt_of_ragged ragged
      have filled : other ≠ [] := by
        rintro rfl
        exact nonempty (List.length_eq_zero_iff.mp lengths)
      rw [chunks_short short nonempty, chunks_short (lengths ▸ short) filled] at same
      exact chunkWord_injective lengths (List.singleton_inj.mp same)

theorem maxLeafBytes_le : maxLeafBytes ≤ P := by decide

/-- The words of a string that is not too long. -/
theorem bytesToM31Words_ok (short : data.length < maxLeafBytes) :
    bytesToM31Words data = .ok ((chunks data).map chunkWord ++ [data.length]) := by
  have bound : maxLeafBytes ≤ 2 ^ 32 := by decide
  rw [bytesToM31Words, if_neg (not_le.mpr short), Nat.mod_eq_of_lt (short.trans_le bound)]

theorem bytesToM31Words_canonical (short : data.length < maxLeafBytes) :
    ∀ word ∈ (chunks data).map chunkWord ++ [data.length], Canonical word := by
  intro word member
  rcases List.mem_append.mp member with packed | last
  · obtain ⟨chunk, among, rfl⟩ := List.mem_map.mp packed
    exact chunkWord_canonical (chunks_length_le chunk among)
  · rw [List.mem_singleton.mp last]
    exact short.trans_le maxLeafBytes_le

/-- The words of two strings are equal in the field only for one string. -/
theorem bytesToM31Words_injective {words others : List ℕ} (short : data.length < maxLeafBytes)
    (shortOther : other.length < maxLeafBytes) (packed : bytesToM31Words data = .ok words)
    (packedOther : bytesToM31Words other = .ok others)
    (same : words.map (Nat.cast : ℕ → M31) = others.map Nat.cast) : data = other := by
  rw [bytesToM31Words_ok short] at packed
  rw [bytesToM31Words_ok shortOther] at packedOther
  cases packed
  cases packedOther
  have equal := map_cast_injective (bytesToM31Words_canonical short)
    (bytesToM31Words_canonical shortOther) same
  obtain ⟨chunkWords, lengths⟩ := List.append_inj' equal rfl
  exact chunkWords_injective (List.singleton_inj.mp lengths) chunkWords

end Bytes

/-! ## Nonces -/

section Nonces

theorem limb_canonical (value : ℕ) : Canonical (value &&& limbMask) := by
  have small : value &&& limbMask ≤ limbMask := Nat.and_le_right
  exact small.trans_lt (by decide)

theorem nonceWords_canonical (nonce : U64) : (nonceWords nonce).All Canonical :=
  ⟨limb_canonical _, limb_canonical _, limb_canonical _, P_prime.pos⟩

/-- Three limbs hold all 64 bits. -/
theorem nonceWords_injective {first second : U64} (same : nonceWords first = nonceWords second) :
    first = second := by
  simp only [nonceWords, Quad.mk.injEq, limbMask, Nat.and_two_pow_sub_one_eq_mod,
    Nat.shiftRight_eq_div_pow, limbBits] at same
  obtain ⟨low, middle, high, -⟩ := same
  have firstBound := first.isLt
  have secondBound := second.isLt
  apply Fin.ext
  omega

theorem nonceWords_residues {first second : U64}
    (same : (nonceWords first).map (Nat.cast : ℕ → M31) = (nonceWords second).map Nat.cast) :
    first = second := by
  obtain ⟨w0, w1, w2, w3⟩ := nonceWords_canonical first
  obtain ⟨v0, v1, v2, v3⟩ := nonceWords_canonical second
  obtain ⟨s0, s1, s2, s3⟩ := Quad.ext_iff.mp same
  exact nonceWords_injective (Quad.ext (w0.eq_of_cast v0 s0) (w1.eq_of_cast v1 s1)
    (w2.eq_of_cast v2 s2) (w3.eq_of_cast v3 s3))

end Nonces

/-- Leaf encodings are injective in the field, and their words are canonical.  Strings may have
any two lengths below the bound, since the length is a word of its own; nonces are all words of 64
bits.  Both are compared as residues, which is all that a hash sees of them. -/
theorem leaf_encodings_injective :
    (∀ data : List UInt8, data.length < maxLeafBytes → ∃ words,
      bytesToM31Words data = .ok words ∧ ∀ word ∈ words, Canonical word) ∧
      (∀ (data other : List UInt8) (words others : List ℕ), data.length < maxLeafBytes →
        other.length < maxLeafBytes → bytesToM31Words data = .ok words →
        bytesToM31Words other = .ok others →
        words.map (Nat.cast : ℕ → M31) = others.map Nat.cast → data = other) ∧
      (∀ nonce : U64, (nonceWords nonce).All Canonical) ∧
      ∀ first second : U64,
        (nonceWords first).map (Nat.cast : ℕ → M31) = (nonceWords second).map Nat.cast →
          first = second :=
  ⟨fun _ short => ⟨_, bytesToM31Words_ok short, bytesToM31Words_canonical short⟩,
    fun _ _ _ _ short shortOther packed packedOther same =>
      bytesToM31Words_injective short shortOther packed packedOther same,
    nonceWords_canonical, fun _ _ same => nonceWords_residues same⟩

/-- A trailing zero changes the words, and so does adding the modulus to a nonce. -/
theorem leaf_encodings_apart :
    (∃ words others, bytesToM31Words [1, 2, 3] = .ok words ∧
      bytesToM31Words [1, 2, 3, 0] = .ok others ∧
      words.map (Nat.cast : ℕ → M31) ≠ others.map Nat.cast) ∧
      (nonceWords 0).map (Nat.cast : ℕ → M31) ≠ (nonceWords 2147483647).map Nat.cast := by
  obtain ⟨packs, injective, _, nonces⟩ := leaf_encodings_injective
  have short : [1, 2, 3].length < maxLeafBytes := by decide
  have shortOther : [1, 2, 3, 0].length < maxLeafBytes := by decide
  obtain ⟨words, packed, _⟩ := packs [1, 2, 3] short
  obtain ⟨others, packedOther, _⟩ := packs [1, 2, 3, 0] shortOther
  refine ⟨⟨words, others, packed, packedOther, fun same => ?_⟩, fun same => ?_⟩
  · exact absurd (injective _ _ _ _ short shortOther packed packedOther same) (by decide)
  · exact absurd (nonces _ _ same) (by decide)

end Stwo
end QLSA
