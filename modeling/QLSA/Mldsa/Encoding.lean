import QLSA.Mldsa.BitPacking
import QLSA.Mldsa.HintEncoding

namespace QLSA
namespace Mldsa

open Machine

/-!
# Encodings of keys and signatures

A public key is a seed and packed coefficients, a signature a challenge, packed
coefficients and a hint.  All parts but the hint may be any bytes; the hint has
one encoding.  What a decoder returns is therefore just what its string is the
encoding of, and it returns every value for one string at most.
-/

/-- Bits of a coefficient of `t1`. -/
def T1_BITS : ℕ := 10

/-- Bits of a coefficient of `z`. -/
def Z_BITS : ℕ := 20

/-- Greatest coefficient of `z`. -/
def GAMMA1 : ℤ := 2 ^ 19

/-- Bytes of the challenge. -/
def LAMBDA_BYTES : ℕ := 48

def PK_BYTES : ℕ := 32 + K * (N * T1_BITS / 8)

def SIG_BYTES : ℕ := LAMBDA_BYTES + L * (N * Z_BITS / 8) + OMEGA + K

/-- The bytes from one position up to another. -/
def slice (bytes : List Byte) (low high : ℕ) : List Byte := (bytes.take high).drop low

def pkDecode (pk : List Byte) : Except String (List Byte × List (List ℤ)) :=
  if pk.length ≠ PK_BYTES then .error s!"pk_decode: expected {PK_BYTES} bytes, got {pk.length}"
  else
    let t1Stride := N * T1_BITS / 8
    .ok (pk.take 32, (List.range K).map fun i =>
      simpleBitUnpack (slice pk (32 + i * t1Stride) (32 + (i + 1) * t1Stride)) T1_BITS)

def sigDecode (sig : List Byte) : Except String (List Byte × List (List ℤ) × List (List Bool)) := do
  if sig.length ≠ SIG_BYTES then
    .error s!"sig_decode: expected {SIG_BYTES} bytes, got {sig.length}"
  else
    let cTilde := sig.take LAMBDA_BYTES
    let zStride := N * Z_BITS / 8
    let zPolys := (List.range L).map fun j =>
      let off := LAMBDA_BYTES + j * zStride
      bitUnpack (slice sig off (off + zStride)) GAMMA1 Z_BITS
    let hintOff := LAMBDA_BYTES + L * zStride
    let hints ← hintBitUnpack (slice sig hintOff (hintOff + OMEGA + K))
    return (cTilde, zPolys, hints)

/-! ## Packed polynomials -/

/-- Packing and unpacking of polynomials at a width. -/
structure RoundTrips (bits : ℕ) : Prop where
  simple : ∀ w : List ℤ, w.length = N → (∀ c ∈ w, 0 ≤ c ∧ c < 2 ^ bits) →
    simpleBitUnpack (simpleBitPack w bits) bits = w
  simple_bytes : ∀ v : List Byte, v.length = 32 * bits →
    simpleBitPack (simpleBitUnpack v bits) bits = v
  shifted : ∀ (upper : ℤ) (w : List ℤ), w.length = N →
    (∀ c ∈ w, upper - 2 ^ bits + 1 ≤ c ∧ c ≤ upper) →
      bitUnpack (bitPack w upper bits) upper bits = w
  shifted_bytes : ∀ (upper : ℤ) (v : List Byte), v.length = 32 * bits →
    bitPack (bitUnpack v upper bits) upper bits = v
  shifted_range : ∀ (upper : ℤ) (v : List Byte), ∀ c ∈ bitUnpack v upper bits,
    upper - 2 ^ bits + 1 ≤ c ∧ c ≤ upper

theorem map_sub_sub (upper : ℤ) (w : List ℤ) : (w.map (upper - ·)).map (upper - ·) = w := by
  rw [List.map_map]
  refine (List.map_congr_left ?_).trans (List.map_id w)
  intro c _
  exact sub_sub_cancel upper c

theorem packings_roundTrip (bits : ℕ) : RoundTrips bits where
  simple := by
    intro w length range
    rw [simpleBitUnpack, simpleBitPack, ← length]
    exact unpackBits_packBits range
  simple_bytes := by
    intro v length
    apply packBits_unpackBits
    rw [length, N]
    ring
  shifted := by
    intro upper w length range
    have mapped : ∀ v ∈ w.map (upper - ·), 0 ≤ v ∧ v < 2 ^ bits := by
      intro v member
      rw [List.mem_map] at member
      rcases member with ⟨c, inside, rfl⟩
      have bounds := range c inside
      omega
    have unpacked := unpackBits_packBits mapped
    rw [List.length_map, length] at unpacked
    rw [bitUnpack, bitPack, unpacked, map_sub_sub]
  shifted_bytes := by
    intro upper v length
    rw [bitPack, bitUnpack, map_sub_sub]
    apply packBits_unpackBits
    rw [length, N]
    ring
  shifted_range := by
    intro upper v c member
    rw [bitUnpack, List.mem_map] at member
    rcases member with ⟨value, inside, rfl⟩
    have bounds := unpackBits_range value inside
    omega

/-- A polynomial with coefficients in a range. -/
def IsPoly (low high : ℤ) (w : List ℤ) : Prop := w.length = N ∧ ∀ c ∈ w, low ≤ c ∧ c ≤ high

/-- A vector of polynomials with coefficients in a range. -/
def IsPolyVec (count : ℕ) (low high : ℤ) (polys : List (List ℤ)) : Prop :=
  polys.length = count ∧ ∀ w ∈ polys, IsPoly low high w

/-- A packing of polynomials into strings of one length, which every such string is
the packing of. -/
structure Packing (low high : ℤ) (stride : ℕ) (pack : List ℤ → List Byte)
    (unpack : List Byte → List ℤ) : Prop where
  unpack_pack : ∀ {w}, IsPoly low high w → unpack (pack w) = w
  pack_unpack : ∀ {v}, v.length = stride → pack (unpack v) = v
  pack_length : ∀ {w}, IsPoly low high w → (pack w).length = stride
  unpack_poly : ∀ v, IsPoly low high (unpack v)

theorem simple_packing (bits : ℕ) :
    Packing 0 (2 ^ bits - 1) (32 * bits) (simpleBitPack · bits) (simpleBitUnpack · bits) where
  unpack_pack := by
    rintro w ⟨length, range⟩
    apply (packings_roundTrip bits).simple w length
    intro c member
    have bounds := range c member
    omega
  pack_unpack := (packings_roundTrip bits).simple_bytes _
  pack_length := by
    rintro w ⟨length, -⟩
    rw [simpleBitPack, (packBits_spec w bits).1, length, N]
    omega
  unpack_poly := by
    intro v
    refine ⟨(unpackFrom_spec v bits N 0).1, ?_⟩
    intro c member
    have bounds := unpackBits_range c member
    omega

theorem shifted_packing (upper : ℤ) (bits : ℕ) :
    Packing (upper - 2 ^ bits + 1) upper (32 * bits) (bitPack · upper bits)
      (bitUnpack · upper bits) where
  unpack_pack := fun poly => (packings_roundTrip bits).shifted upper _ poly.1 poly.2
  pack_unpack := (packings_roundTrip bits).shifted_bytes upper _
  pack_length := by
    rintro w ⟨length, -⟩
    rw [bitPack, (packBits_spec _ bits).1, List.length_map, length, N]
    omega
  unpack_poly := by
    intro v
    refine ⟨?_, (packings_roundTrip bits).shifted_range upper v⟩
    rw [bitUnpack, List.length_map]
    exact (unpackFrom_spec v bits N 0).1

/-! ## Parts of a string -/

theorem slice_length {bytes : List Byte} {low high : ℕ} (inside : high ≤ bytes.length) :
    (slice bytes low high).length = high - low := by
  rw [slice, List.length_drop, List.length_take, Nat.min_eq_left inside]

theorem take_append_slice (bytes : List Byte) {low high : ℕ} (order : low ≤ high) :
    bytes.take low ++ slice bytes low high = bytes.take high := by
  have split := List.take_append_drop low (bytes.take high)
  rw [List.take_take, Nat.min_eq_left order] at split
  exact split

theorem slice_to_end {bytes : List Byte} {low high : ℕ} (length : bytes.length = high) :
    slice bytes low high = bytes.drop low := by
  rw [slice, List.take_of_length_le length.le]

/-- The front of a string is a header and slices of one size. -/
theorem take_eq_slices (bytes : List Byte) (header stride count : ℕ) :
    bytes.take (header + count * stride) = bytes.take header ++
      (List.range count).flatMap fun i =>
        slice bytes (header + i * stride) (header + (i + 1) * stride) := by
  induction count with
  | zero => simp
  | succ count ih =>
      have order : header + count * stride ≤ header + (count + 1) * stride := by
        rw [Nat.succ_mul]
        omega
      rw [← take_append_slice bytes order, ih, List.range_succ, List.flatMap_append,
        List.flatMap_singleton, List.append_assoc]

section Packed

variable {low high : ℤ} {stride : ℕ} {pack : List ℤ → List Byte} {unpack : List Byte → List ℤ}
  (packing : Packing low high stride pack unpack)
include packing

/-- Slices unpack to polynomials that pack to them. -/
theorem unpack_slices {bytes : List Byte} {header count : ℕ}
    (inside : header + count * stride ≤ bytes.length) {polys : List (List ℤ)}
    (read : polys = (List.range count).map fun i =>
      unpack (slice bytes (header + i * stride) (header + (i + 1) * stride))) :
    IsPolyVec count low high polys ∧
      bytes.take (header + count * stride) = bytes.take header ++ polys.flatMap pack := by
  subst read
  constructor
  · refine ⟨by rw [List.length_map, List.length_range], ?_⟩
    intro w member
    rcases List.mem_map.mp member with ⟨i, -, rfl⟩
    exact packing.unpack_poly _
  · rw [take_eq_slices, List.flatMap_map]
    congr 1
    apply List.flatMap_congr
    intro i listed
    have within : header + (i + 1) * stride ≤ bytes.length :=
      (Nat.add_le_add_left (Nat.mul_le_mul_right stride (List.mem_range.mp listed)) header).trans
        inside
    have size : (slice bytes (header + i * stride) (header + (i + 1) * stride)).length =
        stride := by
      rw [slice_length within, Nat.succ_mul]
      omega
    exact (packing.pack_unpack size).symm

theorem flatMap_pack_length {count : ℕ} {polys : List (List ℤ)}
    (vector : IsPolyVec count low high polys) :
    (polys.flatMap pack).length = count * stride := by
  have sizes : polys.map (fun w => (pack w).length) = List.replicate polys.length stride := by
    rw [← List.map_const']
    exact List.map_congr_left fun w member => packing.pack_length (vector.2 w member)
  rw [List.length_flatMap, sizes, List.sum_replicate, smul_eq_mul, vector.1]

/-- A packed vector is read back. -/
theorem flatMap_pack_injective {count : ℕ} {first second : List (List ℤ)}
    (vector : IsPolyVec count low high first) (vector' : IsPolyVec count low high second)
    (same : first.flatMap pack = second.flatMap pack) : first = second := by
  apply flatMap_eq_of_length (vector.1.trans vector'.1.symm)
    (fun w member => packing.pack_length (vector.2 w member))
    (fun w member => packing.pack_length (vector'.2 w member)) _ same
  intro w member w' member' packed
  rw [← packing.unpack_pack (vector.2 w member), packed,
    packing.unpack_pack (vector'.2 w' member')]

end Packed

/-! ## Keys -/

theorem pkDecode_eq_ok {pk : List Byte} {r : List Byte × List (List ℤ)} :
    pkDecode pk = .ok r ↔ pk.length = PK_BYTES ∧
      r = (pk.take 32, (List.range K).map fun i =>
        simpleBitUnpack (slice pk (32 + i * 320) (32 + (i + 1) * 320)) T1_BITS) := by
  rw [pkDecode]
  by_cases length : pk.length = PK_BYTES
  · rw [if_neg (not_not.mpr length), Except.ok.injEq, eq_comm]
    exact (and_iff_right length).symm
  · rw [if_pos length]
    simp [length]

theorem pkDecode_accepts {pk : List Byte} : (∃ r, pkDecode pk = .ok r) ↔ pk.length = 1952 := by
  have whole : PK_BYTES = 1952 := rfl
  simp only [pkDecode_eq_ok, exists_and_left, exists_eq, and_true, whole]

/-- A seed and packed coefficients. -/
structure IsKey (pk rho : List Byte) (t1 : List (List ℤ)) : Prop where
  seed : rho.length = 32
  vector : IsPolyVec K 0 (2 ^ T1_BITS - 1) t1
  string : pk = rho ++ t1.flatMap (simpleBitPack · T1_BITS)

theorem isKey_of_pkDecode {pk rho : List Byte} {t1 : List (List ℤ)}
    (decoded : pkDecode pk = .ok (rho, t1)) : IsKey pk rho t1 := by
  rcases pkDecode_eq_ok.mp decoded with ⟨length, read⟩
  rw [Prod.mk.injEq] at read
  rcases read with ⟨rfl, read⟩
  have total : 32 + K * (32 * T1_BITS) = PK_BYTES := rfl
  have inside : 32 + K * (32 * T1_BITS) ≤ pk.length := (total.trans length.symm).le
  rcases unpack_slices (simple_packing T1_BITS) inside read with ⟨vector, front⟩
  rw [total, List.take_of_length_le length.le] at front
  exact ⟨List.length_take_of_le (by omega), vector, front⟩

/-- The decoder returns what its string is the encoding of. -/
theorem pkDecode_iff {pk rho : List Byte} {t1 : List (List ℤ)} :
    pkDecode pk = .ok (rho, t1) ↔ IsKey pk rho t1 := by
  refine ⟨isKey_of_pkDecode, ?_⟩
  intro key
  have length : pk.length = 1952 := by
    rw [key.string, List.length_append, key.seed,
      flatMap_pack_length (simple_packing T1_BITS) key.vector]
    rfl
  rcases pkDecode_accepts.mpr length with ⟨⟨rho', t1'⟩, decoded⟩
  have own := isKey_of_pkDecode decoded
  rcases List.append_inj (key.string.symm.trans own.string) (key.seed.trans own.seed.symm) with
    ⟨rfl, packed⟩
  rw [flatMap_pack_injective (simple_packing T1_BITS) key.vector own.vector packed]
  exact decoded

/-- A public key is determined by what it decodes to. -/
theorem pkDecode_injective {first second : List Byte} {r : List Byte × List (List ℤ)}
    (decoded : pkDecode first = .ok r) (decoded' : pkDecode second = .ok r) : first = second :=
  (isKey_of_pkDecode decoded).string.trans (isKey_of_pkDecode decoded').string.symm

/-! ## Signatures -/

theorem sigDecode_eq_ok {sig : List Byte} {r : List Byte × List (List ℤ) × List (List Bool)} :
    sigDecode sig = .ok r ↔ sig.length = SIG_BYTES ∧
      ∃ hints, hintBitUnpack (slice sig 3248 3309) = .ok hints ∧
        r = (sig.take 48, (List.range L).map fun j =>
          bitUnpack (slice sig (48 + j * 640) (48 + j * 640 + 640)) GAMMA1 Z_BITS, hints) := by
  rw [sigDecode]
  by_cases length : sig.length = SIG_BYTES
  · rw [if_neg (not_not.mpr length), bind_eq_ok]
    constructor
    · rintro ⟨hints, read, returned⟩
      cases returned
      exact ⟨length, hints, read, rfl⟩
    · rintro ⟨_, hints, read, rfl⟩
      exact ⟨hints, read, rfl⟩
  · rw [if_pos length]
    constructor
    · intro impossible
      cases impossible
    · rintro ⟨length', _⟩
      exact absurd length' length

/-- A signature decodes when its end is the encoding of one hint. -/
theorem sigDecode_accepts {sig : List Byte} (length : sig.length = 3309) :
    (∃ r, sigDecode sig = .ok r) ↔
      ∃! hints, IsHint hints ∧ sig.drop 3248 = hintBitPack hints := by
  simp only [sigDecode_eq_ok, slice_to_end length, hintBitUnpack_eq_ok]
  constructor
  · rintro ⟨_, _, hints, read, _⟩
    refine ⟨hints, read, ?_⟩
    rintro other ⟨hint, same⟩
    exact hintBitPack_injective hint read.1 (same.symm.trans read.2)
  · rintro ⟨hints, read, _⟩
    exact ⟨_, length, hints, read, rfl⟩

/-- A challenge, packed coefficients and the encoding of a hint. -/
structure IsSignature (sig cTilde : List Byte) (z : List (List ℤ)) (hints : List (List Bool)) :
    Prop where
  challenge : cTilde.length = LAMBDA_BYTES
  vector : IsPolyVec L (GAMMA1 - 2 ^ Z_BITS + 1) GAMMA1 z
  hint : IsHint hints
  string : sig = cTilde ++ z.flatMap (bitPack · GAMMA1 Z_BITS) ++ hintBitPack hints

theorem isSignature_of_sigDecode {sig cTilde : List Byte} {z : List (List ℤ)}
    {hints : List (List Bool)} (decoded : sigDecode sig = .ok (cTilde, z, hints)) :
    IsSignature sig cTilde z hints := by
  rcases sigDecode_eq_ok.mp decoded with ⟨length, own, read, returned⟩
  rw [Prod.mk.injEq, Prod.mk.injEq] at returned
  rcases returned with ⟨rfl, polys, rfl⟩
  have whole : SIG_BYTES = 3309 := rfl
  have total : LAMBDA_BYTES + L * (32 * Z_BITS) = 3248 := rfl
  have inside : LAMBDA_BYTES + L * (32 * Z_BITS) ≤ sig.length := by omega
  have slices : z = (List.range L).map fun j => bitUnpack
      (slice sig (LAMBDA_BYTES + j * (32 * Z_BITS)) (LAMBDA_BYTES + (j + 1) * (32 * Z_BITS)))
      GAMMA1 Z_BITS := by
    rw [polys]
    apply List.map_congr_left
    intro j _
    have next : 48 + (j + 1) * 640 = 48 + j * 640 + 640 := by ring
    exact congrArg (fun high => bitUnpack (slice sig (48 + j * 640) high) GAMMA1 Z_BITS) next.symm
  rcases unpack_slices (shifted_packing GAMMA1 Z_BITS) inside slices with ⟨vector, front⟩
  rcases hintBitUnpack_eq_ok.mp read with ⟨hint, last⟩
  rw [slice_to_end (length.trans whole)] at last
  refine ⟨List.length_take_of_le (by rw [length]; decide), vector, hint, ?_⟩
  rw [total] at front
  calc
    sig = sig.take 3248 ++ sig.drop 3248 := (List.take_append_drop 3248 sig).symm
    _ = sig.take 48 ++ z.flatMap (bitPack · GAMMA1 Z_BITS) ++ hintBitPack hints := by
      rw [front, last]
      rfl

/-- The decoder returns what its string is the encoding of. -/
theorem sigDecode_iff {sig cTilde : List Byte} {z : List (List ℤ)} {hints : List (List Bool)} :
    sigDecode sig = .ok (cTilde, z, hints) ↔ IsSignature sig cTilde z hints := by
  refine ⟨isSignature_of_sigDecode, ?_⟩
  intro signature
  have packing := shifted_packing GAMMA1 Z_BITS
  have front : (cTilde ++ z.flatMap (bitPack · GAMMA1 Z_BITS)).length = 3248 := by
    rw [List.length_append, signature.challenge, flatMap_pack_length packing signature.vector]
    rfl
  have length : sig.length = 3309 := by
    rw [signature.string, List.length_append, front, hintBitPack_length signature.hint.light]
    rfl
  have last : sig.drop 3248 = hintBitPack hints := by
    rw [signature.string, ← front, List.drop_left]
  have unique : ∃! hints, IsHint hints ∧ sig.drop 3248 = hintBitPack hints := by
    refine ⟨hints, ⟨signature.hint, last⟩, ?_⟩
    rintro other ⟨hint, same⟩
    exact hintBitPack_injective hint signature.hint (same.symm.trans last)
  rcases (sigDecode_accepts length).mpr unique with ⟨⟨cTilde', z', hints'⟩, decoded⟩
  have own := isSignature_of_sigDecode decoded
  have front' : (cTilde' ++ z'.flatMap (bitPack · GAMMA1 Z_BITS)).length = 3248 := by
    rw [List.length_append, own.challenge, flatMap_pack_length packing own.vector]
    rfl
  rcases List.append_inj (signature.string.symm.trans own.string) (front.trans front'.symm) with
    ⟨fronts, ends⟩
  rcases List.append_inj fronts (signature.challenge.trans own.challenge.symm) with ⟨rfl, packed⟩
  rw [flatMap_pack_injective packing signature.vector own.vector packed,
    hintBitPack_injective signature.hint own.hint ends]
  exact decoded

/-- A signature is determined by what it decodes to. -/
theorem sigDecode_injective {first second : List Byte}
    {r : List Byte × List (List ℤ) × List (List Bool)} (decoded : sigDecode first = .ok r)
    (decoded' : sigDecode second = .ok r) : first = second :=
  (isSignature_of_sigDecode decoded).string.trans (isSignature_of_sigDecode decoded').string.symm

/-- Packing and unpacking are inverse to each other at every width, hints have one
encoding, and the decoders accept the encodings: of keys all strings of 1952 bytes, of
signatures those that end in a hint.  They return what their string encodes, so every
value for one string at most. -/
theorem decoders_canonical :
    (∀ bits ≤ 23, RoundTrips bits) ∧
      (∀ sig : List Byte, sig.length = 3309 → ((∃ r, sigDecode sig = .ok r) ↔
        ∃! hints, IsHint hints ∧ sig.drop 3248 = hintBitPack hints)) ∧
      (∀ pk : List Byte, (∃ r, pkDecode pk = .ok r) ↔ pk.length = 1952) ∧
      (∀ sig cTilde z hints, sigDecode sig = .ok (cTilde, z, hints) ↔
        IsSignature sig cTilde z hints) ∧
      (∀ pk rho t1, pkDecode pk = .ok (rho, t1) ↔ IsKey pk rho t1) ∧
      (∀ (first second : List Byte) r, sigDecode first = .ok r → sigDecode second = .ok r →
        first = second) ∧
      ∀ (first second : List Byte) r, pkDecode first = .ok r → pkDecode second = .ok r →
        first = second :=
  ⟨fun bits _ => packings_roundTrip bits, fun _ length => sigDecode_accepts length,
    fun _ => pkDecode_accepts, fun _ _ _ _ => sigDecode_iff, fun _ _ _ => pkDecode_iff,
    fun _ _ _ decoded decoded' => sigDecode_injective decoded decoded',
    fun _ _ _ decoded decoded' => pkDecode_injective decoded decoded'⟩

/-! ## A key and a signature -/

/-- Coefficients spread over a range. -/
def sampleVector (count : ℕ) (low width step : ℤ) : List (List ℤ) :=
  (List.range count).map fun i : ℕ => (List.range N).map fun j : ℕ =>
    low + step * (i + j) % width

theorem sampleVector_isPolyVec (count : ℕ) {low width step high : ℤ} (positive : 0 < width)
    (reaches : low + width - 1 = high) :
    IsPolyVec count low high (sampleVector count low width step) := by
  refine ⟨by rw [sampleVector, List.length_map, List.length_range], ?_⟩
  intro w member
  rcases List.mem_map.mp member with ⟨i, -, rfl⟩
  refine ⟨by rw [List.length_map, List.length_range], ?_⟩
  intro c listed
  rcases List.mem_map.mp listed with ⟨j, -, rfl⟩
  have least := Int.emod_nonneg (step * (i + j)) positive.ne'
  have most := Int.emod_lt_of_pos (step * (i + j)) positive
  omega

def sampleSeed (first : Byte) : List Byte := first :: (List.range 31).map (BitVec.ofNat 8)

def sampleKey (first : Byte) : List Byte :=
  sampleSeed first ++ (sampleVector K 0 1024 37).flatMap (simpleBitPack · T1_BITS)

/-- Three marks in the second polynomial, one in the last. -/
def sampleMarks (i j : ℕ) : Bool := (i = 1 ∧ (j = 0 ∨ j = 7 ∨ j = 255)) ∨ (i = 5 ∧ j = 9)

def sampleHints : List (List Bool) :=
  (List.range K).map fun i => (List.range N).map (sampleMarks i)

theorem weight_sampleHints : weight sampleHints = 4 := by
  have marked : marks sampleHints = sampleMarks := by
    apply marks_table
    · intro i j beyond
      rw [N] at beyond
      rw [sampleMarks, decide_eq_false_iff_not]
      omega
    · intro i late
      funext j
      rw [K] at late
      rw [sampleMarks, decide_eq_false_iff_not]
      omega
  rw [weight, marked]
  decide +kernel

theorem sampleHints_isHint : IsHint sampleHints where
  rows := by rw [sampleHints, List.length_map, List.length_range]
  sizes := by
    intro row member
    rcases List.mem_map.mp member with ⟨i, -, rfl⟩
    rw [List.length_map, List.length_range]
  light := weight_sampleHints.trans_le (by decide)

def sampleChallenge (first : Byte) : List Byte := first :: (List.range 47).map (BitVec.ofNat 8)

def sampleSignature (first : Byte) : List Byte :=
  sampleChallenge first ++
    (sampleVector L (-524287) 1048576 12345).flatMap (bitPack · GAMMA1 Z_BITS) ++
    hintBitPack sampleHints

theorem sampleKey_isKey (first : Byte) :
    IsKey (sampleKey first) (sampleSeed first) (sampleVector K 0 1024 37) :=
  ⟨rfl, sampleVector_isPolyVec K (by decide) (by decide), rfl⟩

theorem sampleSignature_isSignature (first : Byte) :
    IsSignature (sampleSignature first) (sampleChallenge first)
      (sampleVector L (-524287) 1048576 12345) sampleHints :=
  ⟨rfl, sampleVector_isPolyVec L (by decide) (by decide),
    sampleHints_isHint, rfl⟩

/-- A key and a signature with four marks decode, their coefficients are read back, and
another first byte of either decodes to something else. -/
theorem decoders_canonical_sample :
    simpleBitUnpack (simpleBitPack ((List.range N).map fun j : ℕ => (j % 16 : ℤ)) 4) 4 =
        (List.range N).map (fun j : ℕ => (j % 16 : ℤ)) ∧
      pkDecode (sampleKey 1) = .ok (sampleSeed 1, sampleVector K 0 1024 37) ∧
      sigDecode (sampleSignature 1) =
        .ok (sampleChallenge 1, sampleVector L (-524287) 1048576 12345, sampleHints) ∧
      weight sampleHints = 4 ∧ pkDecode (sampleKey 2) ≠ pkDecode (sampleKey 1) ∧
      sigDecode (sampleSignature 2) ≠ sigDecode (sampleSignature 1) := by
  rcases decoders_canonical with
    ⟨roundTrips, -, -, signatures, keys, sigInjective, pkInjective⟩
  have key (first : Byte) := (keys _ _ _).mpr (sampleKey_isKey first)
  have signature (first : Byte) := (signatures _ _ _ _).mpr (sampleSignature_isSignature first)
  refine ⟨?_, key 1, signature 1, weight_sampleHints, ?_, ?_⟩
  · apply (roundTrips 4 (by decide)).simple _ (by simp)
    intro c member
    rcases List.mem_map.mp member with ⟨j, -, rfl⟩
    omega
  · intro same
    have strings := pkInjective _ _ _ (same.trans (key 1)) (key 1)
    exact absurd (congrArg List.head? strings) (by decide)
  · intro same
    have strings := sigInjective _ _ _ (same.trans (signature 1)) (signature 1)
    exact absurd (congrArg List.head? strings) (by decide)

end Mldsa
end QLSA
