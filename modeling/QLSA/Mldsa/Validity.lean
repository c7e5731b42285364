import QLSA.Mldsa.Verification

namespace QLSA
namespace Mldsa

open Finset Machine

/-!
# The verifier decides validity

Once the rejection loops end, `ml_dsa_verify` returns, and it returns `true` for
the valid signatures alone.
-/

section Decides

variable {shake128 shake256 : List Byte → Xof}

theorem InBall.reduced {xof : Xof} {c : Coeffs} (ball : InBall xof c) : Reduced c := by
  intro k inside
  by_cases zero : c k = 0
  · rw [zero]
    decide
  · rcases ball.sign k inside zero with one | minus
    · rw [one]
      decide
    · rw [minus]
      decide

/-- With enough fuel the matrix is sampled. -/
theorem expandA_some (ends : RejectionEnds shake128 shake256) (rho : List Byte) :
    ∃ enough, ∀ fuel ≥ enough, ∃ aHat : ℕ → ℕ → Coeffs,
      expandA shake128 fuel rho =
        some ((List.range K).map fun i => (List.range L).map (aHat i)) ∧
      ∀ i < K, ∀ j < L, Reduced (aHat i j) ∧ ∀ k < N,
        Sampled (shake128 (rho ++ [BitVec.ofNat 8 j, BitVec.ofNat 8 i])) k (aHat i j k) := by
  choose needed ended using ends.matrix
  refine ⟨(range K).sup fun i => (range L).sup fun j =>
    needed (rho ++ [BitVec.ofNat 8 j, BitVec.ofNat 8 i]), ?_⟩
  intro fuel enough
  have entries : ∀ i < K, ∀ j < L, ∃ coeffs,
      rejNttPoly (shake128 (rho ++ [BitVec.ofNat 8 j, BitVec.ofNat 8 i])) fuel = some coeffs ∧
        Reduced coeffs ∧ ∀ k < N,
          Sampled (shake128 (rho ++ [BitVec.ofNat 8 j, BitVec.ofNat 8 i])) k (coeffs k) := by
    intro i row j column
    have own : needed (rho ++ [BitVec.ofNat 8 j, BitVec.ofNat 8 i]) ≤ fuel := by
      refine le_trans ?_ enough
      refine le_trans ?_ (le_sup (f := fun i => (range L).sup fun j =>
        needed (rho ++ [BitVec.ofNat 8 j, BitVec.ofNat 8 i])) (mem_range.mpr row))
      exact le_sup (f := fun j => needed (rho ++ [BitVec.ofNat 8 j, BitVec.ofNat 8 i]))
        (mem_range.mpr column)
    rcases Option.isSome_iff_exists.mp (ended _) with ⟨coeffs, early⟩
    have done := rejNttPoly_more own early
    have sampled := rejNttPoly_sampled done
    refine ⟨coeffs, done, ?_, sampled⟩
    intro k inside
    rcases sampled k inside with ⟨t, same, small, -⟩
    rw [same]
    exact ⟨triple_nonneg _ t, small⟩
  have rows : ∀ i < K, ∃ row : List Coeffs, ((List.range L).mapM fun j =>
      rejNttPoly (shake128 (rho ++ [BitVec.ofNat 8 j, BitVec.ofNat 8 i])) fuel) = some row ∧
      ∃ aHat : ℕ → Coeffs, row = (List.range L).map aHat ∧ ∀ j < L, Reduced (aHat j) ∧ ∀ k < N,
        Sampled (shake128 (rho ++ [BitVec.ofNat 8 j, BitVec.ofNat 8 i])) k (aHat j k) := by
    intro i row
    rcases mapM_range_some (entries i row) with ⟨aHat, done, known⟩
    exact ⟨_, done, aHat, rfl, known⟩
  rcases mapM_range_some rows with ⟨row, done, known⟩
  choose aHat listed facts using known
  refine ⟨fun i => if inside : i < K then aHat i inside else fun _ _ => 0, ?_, ?_⟩
  · rw [expandA, done, Option.some.injEq]
    apply List.map_congr_left
    intro i member
    simp only [dif_pos (List.mem_range.mp member)]
    exact listed i _
  · intro i inside j column
    simp only [dif_pos inside]
    exact facts i inside j column

theorem useHintPoly_some {p : Coeffs} (h : ℕ → Bool) (reduced : Reduced p) :
    ∃ r, useHintPoly p ((List.range N).map h) = some r ∧ Agree r fun k => useHint (h k) (p k) := by
  apply mapCoeffs_some
  intro k inside
  rw [List.getElem?_map, List.getElem?_range inside, Option.map_some, Option.bind_some,
    useHintValChecked_eq _ (reduced k inside), useHintVal_eq_useHint _ (reduced k inside)]

theorem useHintVec_some {w : ℕ → Coeffs} {hints : List (List Bool)} (hint : IsHint hints)
    (reduced : ∀ i < K, Reduced (w i)) :
    ∃ w1 : ℕ → Coeffs, useHintVec ((List.range K).map w) hints = some ((List.range K).map w1) ∧
      ∀ i < K, Agree (w1 i) fun k => useHint (marks hints i k) (w i k) := by
  have lengths : ((List.range K).map w).length = hints.length := by
    rw [List.length_map, List.length_range, hint.rows]
  rw [useHintVec, if_pos lengths]
  have pairs : ((List.range K).map w).zip hints =
      (List.range K).map fun i => (w i, (List.range N).map (marks hints i)) := by
    conv_lhs => rw [← table_marks hint]
    exact zip_range w _
  rw [pairs, List.mapM_map]
  exact mapM_range_some fun i inside => useHintPoly_some (marks hints i) (reduced i inside)

theorem w1Encode_eq {w w1 : ℕ → Coeffs} {hints : List (List Bool)}
    (reduced : ∀ i < K, Reduced (w i))
    (corrected : ∀ i < K, Agree (w1 i) fun k => useHint (marks hints i k) (w i k)) :
    w1Encode ((List.range K).map w1) = (List.range K).flatMap fun i =>
      packNibbles fun k => useHint (marks hints i k) (w i k) := by
  rw [w1Encode, List.flatMap_map]
  apply List.flatMap_congr
  intro i member
  have inside := List.mem_range.mp member
  have same : (List.range N).map (w1 i) =
      (List.range N).map fun k => useHint (marks hints i k) (w i k) := by
    apply List.map_congr_left
    intro k coefficient
    exact corrected i inside k (List.mem_range.mp coefficient)
  rw [same]
  apply simpleBitPack_nibbles
  intro k coefficient
  have range := useHintVal_range (marks hints i k) (reduced i inside k coefficient)
  rw [useHintVal_eq_useHint _ (reduced i inside k coefficient), m_eq] at range
  exact range

/-- What the verifier recomputes is the hash of the standard. -/
theorem recomputes_spec (ends : RejectionEnds shake128 shake256) {pk sig : List Byte}
    {hints : List (List Bool)} (msg : List Byte) (hint : IsHint hints)
    (encoded : sig.drop 3248 = hintBitPack hints) {z t1 : ℕ → Coeffs}
    (decoded : ∀ j < L, Agree (z j) (zOf sig j)) (keys : ∀ i < K, Agree (t1 i) (t1Of pk i)) :
    ∃ enough, ∀ fuel ≥ enough, ∃ A c w, Computation shake128 shake256 pk sig hints A c w ∧
      recomputes shake128 shake256 fuel pk msg (pk.take 32) (sig.take 48)
          ((List.range L).map z) ((List.range K).map t1) hints =
        some (sig.take 48 = squeeze (shake256 (representative shake256 pk msg ++
          (List.range K).flatMap fun i =>
            packNibbles fun k => useHint (marks hints i k) (w i k))) 48 : Bool) := by
  rcases expandA_some ends (pk.take 32) with ⟨enough, sampling⟩
  rcases ends.challenge (sig.take 48) with ⟨needed, ended⟩
  refine ⟨max enough needed, fun fuel large => ?_⟩
  rcases sampling fuel (le_of_max_le_left large) with ⟨aHat, aDone, entries⟩
  rcases Option.isSome_iff_exists.mp ended with ⟨c, drawn⟩
  have cDone := sampleInBall_more (le_of_max_le_right large) drawn
  have ball := sampleInBall_inBall cDone
  have small : ∀ i < K, Reduced (t1 i) := by
    intro i inside k coefficient
    have bound := packedValue_lt (slice pk (32 + i * 320) (32 + (i + 1) * 320)) 10 k
    have modulus : Q = 8380417 := rfl
    rw [keys i inside k coefficient, t1Of]
    exact ⟨by omega, by omega⟩
  rcases approximate_some (z := z) (fun i row j column => (entries i row j column).1) ball.reduced
    small with ⟨w, wDone, represents⟩
  rcases useHintVec_some hint fun i row => (represents i row).1 with ⟨w1, w1Done, corrected⟩
  refine ⟨fun i j => nttInv (aHat i j), c, w, ?_, ?_⟩
  · refine ⟨hint, encoded, ?_, ?_, ball, fun i row => (represents i row).1, ?_⟩
    · intro i row j column
      exact (nttInv_spec (entries i row j column).1).1
    · intro i row j column k inside
      refine ⟨_, (entries i row j column).2 k inside, ?_⟩
      rw [(Lists.of_reduced (entries i row j column).1).values k inside, valueAt_element]
      rfl
    · intro i row
      have products : ∑ j ∈ range L, element (nttInv (aHat i j)) * element (z j) =
          ∑ j ∈ range L, element (nttInv (aHat i j)) * element (zOf sig j) := by
        apply sum_congr rfl
        intro j column
        rw [(decoded j (mem_range.mp column)).element_eq]
      rw [(represents i row).2, products, (keys i row).element_eq]
  · rw [recomputes, aDone, cDone]
    simp only [Option.bind_eq_bind, Option.bind_some, wDone, w1Done,
      w1Encode_eq (fun i row => (represents i row).1) corrected]
    rw [representative, List.append_assoc]
    rfl

/-! ## The norm -/

/-- A loop of checks that all pass returns what it was given. -/
theorem mapM_unchanged {β : Type} {check : β → Option β} {values : List β}
    (passes : ∀ v ∈ values, check v = some v) : values.mapM check = some values := by
  induction values with
  | nil => rfl
  | cons v rest ih =>
      rw [List.forall_mem_cons] at passes
      rw [List.mapM_cons, passes.1, ih passes.2]
      rfl

theorem magnitudes_some {z : List (List ℤ)} (fits : ∀ p ∈ z, ∀ v ∈ p, |v| < 2 ^ 63) :
    magnitudes z = some (z.flatten.map abs) := by
  have absolute : ∀ v ∈ z.flatten.map abs, i64 v = some v := by
    intro v member
    rcases List.mem_map.mp member with ⟨value, inside, rfl⟩
    rcases List.mem_flatten.mp inside with ⟨p, poly, inside⟩
    have bound := fits p poly value inside
    have sign := abs_nonneg value
    rw [i64, if_pos ⟨by omega, bound⟩]
  rw [magnitudes, ← mapM_unchanged absolute, List.mapM_map]
  rfl

/-- The greatest of magnitudes is below a bound when all are. -/
theorem max_lt_iff {values : List ℤ} {bound : ℤ} (positive : 0 < bound) :
    values.max?.getD 0 < bound ↔ ∀ v ∈ values, v < bound := by
  cases greatest : values.max? with
  | none =>
      rw [List.max?_eq_none_iff] at greatest
      simp [greatest, positive]
  | some m =>
      have known := List.max?_eq_some_iff.mp greatest
      rw [Option.getD_some]
      constructor
      · intro below v member
        exact (known.2 v member).trans_lt below
      · intro all
        exact all m known.1

theorem mem_bitUnpack {bytes : List Byte} {upper v : ℤ} {bits : ℕ} :
    v ∈ bitUnpack bytes upper bits ↔ ∃ i < N, v = upper - packedValue bytes bits i := by
  have length : (unpackBits bytes bits N).length = N := (unpackFrom_spec bytes bits N 0).1
  rw [bitUnpack, List.mem_map]
  constructor
  · rintro ⟨value, member, rfl⟩
    rcases List.mem_iff_getElem?.mp member with ⟨i, found⟩
    have inside : i < N := by
      have bound := (List.getElem?_eq_some_iff.mp found).1
      omega
    rw [unpackBits_getElem? bytes inside, Option.some.injEq] at found
    exact ⟨i, inside, by rw [found]⟩
  · rintro ⟨i, inside, rfl⟩
    exact ⟨_, List.mem_iff_getElem?.mpr ⟨i, unpackBits_getElem? bytes inside⟩, rfl⟩

/-- The decoded vector of a signature. -/
def decodedZ (sig : List Byte) : List (List ℤ) :=
  (List.range L).map fun j =>
    bitUnpack (slice sig (48 + j * 640) (48 + j * 640 + 640)) GAMMA1 Z_BITS

theorem decodedZ_bounds (sig : List Byte) : ∀ p ∈ decodedZ sig, ∀ v ∈ p, |v| < 2 ^ 63 := by
  intro p poly v member
  rcases List.mem_map.mp poly with ⟨j, -, rfl⟩
  have bounds := (packings_roundTrip Z_BITS).shifted_range _ _ v member
  rw [GAMMA1, Z_BITS] at bounds
  rw [abs_lt]
  omega

/-- The norm check accepts small coefficients alone. -/
theorem decodedZ_norm (sig : List Byte) :
    ((decodedZ sig).flatten.map abs).max?.getD 0 < GAMMA1 - BETA ↔
      ∀ j < L, ∀ c < N, |zOf sig j c| < GAMMA1 - BETA := by
  rw [max_lt_iff (by decide)]
  constructor
  · intro small j column c inside
    apply small
    apply List.mem_map_of_mem
    apply List.mem_flatten_of_mem (List.mem_map_of_mem (List.mem_range.mpr column))
    exact mem_bitUnpack.mpr ⟨c, inside, rfl⟩
  · intro small v member
    rcases List.mem_map.mp member with ⟨value, inside, rfl⟩
    rcases List.mem_flatten.mp inside with ⟨p, poly, inside⟩
    rcases List.mem_map.mp poly with ⟨j, column, rfl⟩
    rcases mem_bitUnpack.mp inside with ⟨c, coefficient, rfl⟩
    exact small j (List.mem_range.mp column) c coefficient

/-! ## The decision -/

/-- With a well-formed hint the verifier checks the norm, then the hash. -/
theorem mlDsaVerify_decoded {pk sig : List Byte} {hints : List (List Bool)} (fuel : ℕ)
    (msg : List Byte) (keyLength : pk.length = PK_BYTES) (length : sig.length = SIG_BYTES)
    (hint : IsHint hints) (encoded : sig.drop 3248 = hintBitPack hints) :
    mlDsaVerify shake128 shake256 fuel pk msg sig =
      if GAMMA1 - BETA ≤ ((decodedZ sig).flatten.map abs).max?.getD 0 then some false
      else recomputes shake128 shake256 fuel pk msg (pk.take 32) (sig.take 48)
        ((List.range L).map fun j => toCoeffs
          (bitUnpack (slice sig (48 + j * 640) (48 + j * 640 + 640)) GAMMA1 Z_BITS))
        ((List.range K).map fun i => toCoeffs
          (simpleBitUnpack (slice pk (32 + i * 320) (32 + (i + 1) * 320)) T1_BITS)) hints := by
  have bounds := decodedZ_bounds sig
  have read : hintBitUnpack (slice sig 3248 3309) = .ok hints := by
    rw [slice_to_end (show sig.length = 3309 from length)]
    exact hintBitUnpack_eq_ok.mpr ⟨hint, encoded⟩
  have fits : (decodedZ sig).mapM (fun p => p.mapM i64) = some (decodedZ sig) := by
    apply mapM_unchanged
    intro p member
    apply mapM_unchanged
    intro v inside
    have bound := abs_lt.mp (bounds p member v inside)
    rw [i64, if_pos ⟨bound.1.le, bound.2⟩]
  rw [mlDsaVerify, if_neg (by simp [keyLength, length]), pkDecode_eq_ok.mpr ⟨keyLength, rfl⟩,
    sigDecode_eq_ok.mpr ⟨length, hints, read, rfl⟩]
  dsimp only
  rw [← decodedZ, fits, Option.bind_eq_bind, Option.bind_some, magnitudes_some bounds,
    Option.bind_eq_bind, Option.bind_some, decodedZ, List.map_map, List.map_map]
  rfl

/-- The encoded commitment depends on the coefficients alone. -/
theorem commitment_congr {w w' : ℕ → Coeffs} (hints : List (List Bool))
    (agree : ∀ i < K, Agree (w i) (w' i)) :
    ((List.range K).flatMap fun i => packNibbles fun k => useHint (marks hints i k) (w i k)) =
      (List.range K).flatMap fun i =>
        packNibbles fun k => useHint (marks hints i k) (w' i k) := by
  apply List.flatMap_congr
  intro i member
  have inside := List.mem_range.mp member
  rw [packNibbles, packNibbles]
  apply List.map_congr_left
  intro k byte
  have bound := List.mem_range.mp byte
  have low : 2 * k < N := by
    rw [N]
    omega
  have high : 2 * k + 1 < N := by
    rw [N]
    omega
  rw [agree i inside _ low, agree i inside _ high]

/-- The verifier returns, and returns `true` for the valid signatures alone.  Keys, messages and
signatures are any strings of bytes.  The two extendable-output functions are any functions to
streams on which the rejection loops end; the number of reads that the loops need is found here,
and every larger one gives the same result. -/
theorem mlDsaVerify_decides (ends : RejectionEnds shake128 shake256) (pk msg sig : List Byte) :
    ∃ enough, ∀ fuel ≥ enough, ∃ result,
      mlDsaVerify shake128 shake256 fuel pk msg sig = some result ∧
        (result = true ↔ Valid shake128 shake256 pk msg sig) := by
  by_cases lengths : pk.length = PK_BYTES ∧ sig.length = SIG_BYTES
  case neg =>
    refine ⟨0, fun fuel _ => ⟨false, ?_, ?_⟩⟩
    · rw [mlDsaVerify, if_pos]
      by_contra both
      rw [not_or, not_not, not_not] at both
      exact lengths both
    · rw [Bool.false_eq_true, false_iff]
      intro valid
      exact lengths ⟨valid.1, valid.2.1⟩
  rcases lengths with ⟨keyLength, length⟩
  by_cases decodes : ∃ hints, IsHint hints ∧ sig.drop 3248 = hintBitPack hints
  case neg =>
    refine ⟨0, fun fuel _ => ⟨false, ?_, ?_⟩⟩
    · have refused : ∀ r, sigDecode sig ≠ .ok r := by
        intro r decoded
        rcases sigDecode_eq_ok.mp decoded with ⟨-, hints, read, -⟩
        rw [slice_to_end (show sig.length = 3309 from length)] at read
        exact decodes ⟨hints, hintBitUnpack_eq_ok.mp read⟩
      rw [mlDsaVerify, if_neg (by simp [keyLength, length]), pkDecode_eq_ok.mpr ⟨keyLength, rfl⟩]
      cases decoded : sigDecode sig with
      | error _ => rfl
      | ok r => exact absurd decoded (refused r)
    · rw [Bool.false_eq_true, false_iff]
      rintro ⟨-, -, -, hints, A, c, w, computation, -⟩
      exact decodes ⟨hints, computation.hint, computation.encoded⟩
  rcases decodes with ⟨hints, hint, encoded⟩
  rcases recomputes_spec ends msg hint encoded
    (fun j _ => bitUnpack_agree (slice sig (48 + j * 640) (48 + j * 640 + 640)) GAMMA1 Z_BITS)
    (fun i _ => simpleBitUnpack_agree (slice pk (32 + i * 320) (32 + (i + 1) * 320)) T1_BITS) with
    ⟨enough, recomputed⟩
  refine ⟨enough, fun fuel large => ?_⟩
  rcases recomputed fuel large with ⟨A, c, w, computation, done⟩
  rw [mlDsaVerify_decoded fuel msg keyLength length hint encoded, done]
  have norm := decodedZ_norm sig
  split
  case isTrue large =>
    refine ⟨false, rfl, ?_⟩
    rw [Bool.false_eq_true, false_iff]
    intro valid
    have small := norm.mpr valid.2.2.1
    omega
  case isFalse small =>
    refine ⟨_, rfl, ?_⟩
    rw [decide_eq_true_iff]
    constructor
    · intro same
      exact ⟨keyLength, length, norm.mp (by omega), hints, A, c, w, computation, same⟩
    · rintro ⟨-, -, -, hints', A', c', w', other, same⟩
      -- The key and the signature determine what is hashed.
      rcases computation.unique other with ⟨rfl, agree⟩
      rw [same, commitment_congr hints agree]

end Decides

/-! ## Decided signatures -/

/-- Matrix entries that start with the last byte of the seed. -/
def seededXof (seed : List Byte) : Xof := fun k =>
  if k % 3 = 0 then UInt8.ofBitVec (seed.getLastD 0) else 1

def zeroXof (_ : List Byte) : Xof := fun _ => 0

theorem triple_seededXof (seed : List Byte) (k : ℕ) : triple (seededXof seed) k < Q := by
  have first : (seededXof seed (3 * k)).toNat < 256 := UInt8.toNat_lt _
  have second : seededXof seed (3 * k + 1) = 1 := if_neg (by omega)
  have third : seededXof seed (3 * k + 2) = 1 := if_neg (by omega)
  have modulus : Q = 8380417 := rfl
  rw [triple, second, third]
  simp only [UInt8.toNat_one]
  omega

theorem loops_end : RejectionEnds seededXof zeroXof where
  matrix := by
    intro seed
    refine ⟨N, ?_⟩
    rw [rejNttPoly_isSome, Nat.count_of_forall fun {k} _ => triple_seededXof seed k]
  challenge := fun _ => ⟨1, sampleInBall_zeros⟩

def smallVector : List (List ℤ) := sampleVector L (-5000) 10001 123

/-- A challenge of zeros after its first byte, small coefficients and a hint of four marks. -/
def smallSignature (first : Byte) : List Byte :=
  (first :: List.replicate 47 0) ++ smallVector.flatMap (bitPack · GAMMA1 Z_BITS) ++
    hintBitPack sampleHints

theorem smallVector_isPolyVec : IsPolyVec L (-5000) 5000 smallVector :=
  sampleVector_isPolyVec L (by decide) (by decide)

theorem smallSignature_isSignature (first : Byte) :
    IsSignature (smallSignature first) (first :: List.replicate 47 0) smallVector sampleHints where
  challenge := rfl
  vector := by
    refine ⟨smallVector_isPolyVec.1, fun w member => ?_⟩
    rcases smallVector_isPolyVec.2 w member with ⟨sized, range⟩
    refine ⟨sized, fun c listed => ?_⟩
    have bounds := range c listed
    rw [GAMMA1, Z_BITS]
    omega
  hint := sampleHints_isHint
  string := rfl

theorem smallSignature_length (first : Byte) : (smallSignature first).length = 3309 :=
  (sigDecode_eq_ok.mp (sigDecode_iff.mpr (smallSignature_isSignature first))).1

theorem smallSignature_encoded (first : Byte) :
    (smallSignature first).drop 3248 = hintBitPack sampleHints := by
  rcases sigDecode_eq_ok.mp (sigDecode_iff.mpr (smallSignature_isSignature first)) with
    ⟨length, hints, read, same⟩
  rw [Prod.mk.injEq, Prod.mk.injEq] at same
  rcases same with ⟨-, -, rfl⟩
  rw [slice_to_end (show (smallSignature first).length = 3309 from length)] at read
  exact (hintBitUnpack_eq_ok.mp read).2

/-- The decoded coefficients pass the norm check. -/
theorem smallSignature_norm (first : Byte) :
    ∀ j < L, ∀ c < N, |zOf (smallSignature first) j c| < GAMMA1 - BETA := by
  rcases sigDecode_eq_ok.mp (sigDecode_iff.mpr (smallSignature_isSignature first)) with
    ⟨-, hints, -, same⟩
  rw [Prod.mk.injEq, Prod.mk.injEq] at same
  have decoded : smallVector = decodedZ (smallSignature first) := same.2.1
  rw [← decodedZ_norm, ← decoded, max_lt_iff (by decide)]
  intro v member
  rcases List.mem_map.mp member with ⟨c, inside, rfl⟩
  rcases List.mem_flatten.mp inside with ⟨p, poly, listed⟩
  have bounds := (smallVector_isPolyVec.2 p poly).2 c listed
  have limit : GAMMA1 - BETA = 524092 := rfl
  rw [limit, abs_lt]
  omega

/-- A hash of zeros is met by a challenge of zeros alone. -/
theorem smallSignature_valid_iff (msg : List Byte) (first : Byte) :
    Valid seededXof zeroXof (sampleKey 1) msg (smallSignature first) ↔ first = 0 := by
  have challenge : (smallSignature first).take 48 = first :: List.replicate 47 0 := rfl
  have hashed : ∀ bytes, squeeze (zeroXof bytes) 48 = 0 :: List.replicate 47 0 := fun _ => rfl
  constructor
  · rintro ⟨-, -, -, hints, A, c, w, -, same⟩
    rw [challenge, hashed] at same
    exact (List.cons.inj same).1
  · rintro rfl
    rcases @recomputes_spec _ _ loops_end (sampleKey 1) _ _ msg sampleHints_isHint
      (smallSignature_encoded 0) _ _ (fun _ _ _ _ => rfl) (fun _ _ _ _ => rfl) with
      ⟨enough, recomputed⟩
    rcases recomputed enough le_rfl with ⟨A, c, w, computation, -⟩
    refine ⟨?_, smallSignature_length 0, smallSignature_norm 0, sampleHints, A, c, w, computation,
      ?_⟩
    · exact (pkDecode_eq_ok.mp (pkDecode_iff.mpr (sampleKey_isKey 1))).1
    · rw [challenge, hashed]

/-- Signatures that reach the comparison of the hash: one is accepted, the other refused. -/
theorem mlDsaVerify_decides_small :
    ∃ enough, ∀ fuel ≥ enough,
      mlDsaVerify seededXof zeroXof fuel (sampleKey 1) [7] (smallSignature 0) = some true ∧
        mlDsaVerify seededXof zeroXof fuel (sampleKey 1) [7] (smallSignature 1) = some false := by
  rcases mlDsaVerify_decides loops_end (sampleKey 1) [7] (smallSignature 0) with ⟨first, accepts⟩
  rcases mlDsaVerify_decides loops_end (sampleKey 1) [7] (smallSignature 1) with ⟨second, refuses⟩
  refine ⟨max first second, fun fuel enough => ⟨?_, ?_⟩⟩
  · rcases accepts fuel (le_of_max_le_left enough) with ⟨result, returned, decided⟩
    rw [returned, decided.mpr ((smallSignature_valid_iff [7] 0).mpr rfl)]
  · rcases refuses fuel (le_of_max_le_right enough) with ⟨result, returned, decided⟩
    have invalid := mt (smallSignature_valid_iff [7] 1).mp (by decide)
    rw [returned, Bool.eq_false_iff.mpr (mt decided.mp invalid)]

end Mldsa
end QLSA
