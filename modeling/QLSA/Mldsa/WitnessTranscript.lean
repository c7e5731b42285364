import QLSA.Chain.HashChainVerifier
import QLSA.Machine.Fallible
import QLSA.Mldsa.Field
import Mathlib.Data.List.OfFn

namespace QLSA
namespace Mldsa

open Machine Mersenne Chain

/-!
# The transcript of the witness verifier

The verifier hashes the public polynomials of a bundle, compares the hashes
with the commitments of the bundle, and mixes the hashes and the two byte
strings of the bundle into the transcript.  A coefficient is hashed as its low
32 bits, an empty string is not mixed, and the last word of a string is padded
with zeros.  The hash, the proof system and the wording of its errors are
parameters.
-/

/-- Rows of the transform circuit, as a power of two. -/
def NTT_LOG : ℕ := 10

/-- Polynomials of `i64` coefficients. -/
abbrev Poly := Fin N → BitVec 64

/-! ## Fingerprints -/

/-- The cast of an `i64` to `u32`. -/
def asU32 (c : BitVec 64) : ℕ := (c.setWidth 32).toNat

/-- The bytes that are hashed. -/
def hashedBytes (coeffs : List (BitVec 64)) : List UInt8 :=
  coeffs.flatMap fun c => toLeBytes (asU32 c)

/-- The first four words of a hash, reduced. -/
def reducedWords (hash : Vector UInt8 32) : List ℕ :=
  (List.range 4).map fun i => fromLeBytes ((hash.toList.drop (4 * i)).take 4) % P

def hexDigit (n : ℕ) : UInt8 := UInt8.ofNat (if n < 10 then 48 + n else 87 + n)

/-- `hex::encode` to the characters of a string. -/
def hexEncode (bytes : List UInt8) : List UInt8 :=
  bytes.flatMap fun byte => [hexDigit (byte.toNat / 16), hexDigit (byte.toNat % 16)]

def buildPolyCommitment (fp : List ℕ) : List UInt8 := hexEncode (fp.flatMap toLeBytes)

/-- The coefficients of polynomials, one after the other. -/
def flat (polys : List Poly) : List (BitVec 64) := polys.flatMap List.ofFn

/-- Arguments of `verify_full_mldsa_witness_v23`. -/
structure FullWitness where
  proofBytes : List UInt8
  nttCm : List UInt8
  azCm : List UInt8
  ct1Cm : List UInt8
  inttCm : List UInt8
  wpCm : List UInt8
  normCm : List UInt8
  uhCm : List UInt8
  zHat : List Poly
  cHat : Poly
  t1Hat : List Poly
  azHat : Fin K → Poly
  ct1Hat : Fin K → Poly
  azOut : Fin K → Poly
  ct1Out : Fin K → Poly
  wPrime : Fin K → Poly
  w1Out : Fin K → Poly
  hintWeightTotal : BitVec 64
  cTildeSeed : List UInt8
  extraBinding : List UInt8

namespace FullWitness

variable (w : FullWitness)

def nttOut : List (BitVec 64) := flat w.zHat ++ List.ofFn w.cHat ++ flat w.t1Hat

def inttInputs : List Poly := List.ofFn w.azHat ++ List.ofFn w.ct1Hat

def uhFlat : List (BitVec 64) := flat (List.ofFn w.w1Out) ++ [w.hintWeightTotal]

/-- The coefficient lists that are hashed, in the order of the code. -/
def hashed : List (List (BitVec 64)) :=
  [w.nttOut, flat (List.ofFn w.azHat), flat (List.ofFn w.ct1Hat)] ++
    w.inttInputs.map List.ofFn ++
    [flat (List.ofFn w.azOut ++ List.ofFn w.ct1Out), flat (List.ofFn w.wPrime), w.uhFlat]

end FullWitness

/-! ## The verifier -/

/-- One operation on the channel. -/
inductive ChannelOp (Root : Type)
  | mixU32s (words : List ℕ)
  | mixRoot (root : Root)

/-- What lies outside the repository, and the columns it is asked to commit.  The final check is
given the whole list of channel operations, so two bundles that mix the same words can only differ
in their roots and proofs. -/
structure WitnessBackend where
  Proof : Type
  Root : Type
  rootEq : DecidableEq Root
  blake2s : List UInt8 → Vector UInt8 32
  hexError : FromHexError → String
  decode : List UInt8 → Except String Proof
  commitments : Proof → List Root
  canonicalUhPreprocRoot : ℕ → Root
  verify : List (ChannelOp Root) → Proof → Bool

namespace WitnessBackend

variable (backend : WitnessBackend)

instance : DecidableEq backend.Root := backend.rootEq

/-- The hash of a string and its reduction. -/
def digest (bytes : List UInt8) : List ℕ := reducedWords (backend.blake2s bytes)

def outputFingerprint (coeffs : List (BitVec 64)) : List ℕ := backend.digest (hashedBytes coeffs)

def parsePolyCommitment (commitmentHex : List UInt8) : Except String (List ℕ) :=
  match hexDecode commitmentHex with
  | .error e => .error ("invalid commitment hex: " ++ backend.hexError e)
  | .ok bytes =>
      if bytes.length ≠ 16 then
        .error s!"commitment must be 16 bytes (32 hex chars), got {bytes.length} bytes"
      else
        let words := (List.range 4).map fun i => fromLeBytes ((bytes.drop (4 * i)).take 4)
        match words.zipIdx.find? fun entry => P ≤ entry.1 with
        | some (w, i) => .error s!"commitment word {i} = {w} out of M31 range [0, 2^31-2]"
        | none => .ok words

/-- Words of the strings that are mixed before the roots. -/
def seedWords (seeds : List (List UInt8)) : List (List ℕ) :=
  (seeds.filter (· ≠ [])).map seedToU32Words

/-- The run of `verify_full_mldsa_witness_v23` up to the final check: `none` where a comparison
has failed, else the operations on the channel and the proof.  The order of the comparisons is the
source's, with the fingerprint of the norm read from its text in between. -/
def replay (w : FullWitness) :
    Except String (Option (List (ChannelOp backend.Root) × backend.Proof)) :=
  let nttOutFp := backend.outputFingerprint w.nttOut
  if buildPolyCommitment nttOutFp ≠ w.nttCm then .ok none else
  let azOutFp := backend.outputFingerprint (flat (List.ofFn w.azHat))
  if buildPolyCommitment azOutFp ≠ w.azCm then .ok none else
  let ct1OutFp := backend.outputFingerprint (flat (List.ofFn w.ct1Hat))
  if buildPolyCommitment ct1OutFp ≠ w.ct1Cm then .ok none else
  let inttInFps := w.inttInputs.map fun p => backend.outputFingerprint (List.ofFn p)
  let inttOutFp := backend.outputFingerprint (flat (List.ofFn w.azOut ++ List.ofFn w.ct1Out))
  if buildPolyCommitment inttOutFp ≠ w.inttCm then .ok none else
  let wpOutFp := backend.outputFingerprint (flat (List.ofFn w.wPrime))
  if buildPolyCommitment wpOutFp ≠ w.wpCm then .ok none else do
  let normFp ← backend.parsePolyCommitment w.normCm
  let uhFp := backend.outputFingerprint w.uhFlat
  if buildPolyCommitment uhFp ≠ w.uhCm then .ok none else do
  let proof ← backend.decode w.proofBytes
  match backend.commitments proof with
  | pre :: main :: _ =>
      if pre ≠ backend.canonicalUhPreprocRoot NTT_LOG then .ok none
      else
        let seeds := (seedWords [w.cTildeSeed, w.extraBinding]).map ChannelOp.mixU32s
        let fingerprints := [nttOutFp, azOutFp, ct1OutFp] ++ inttInFps ++
          [inttOutFp, wpOutFp, normFp, uhFp]
        .ok (some (seeds ++ [.mixRoot pre, .mixRoot main] ++ fingerprints.map .mixU32s, proof))
  | few => .error s!"malformed proof: expected ≥ 2 commitments, got {few.length}"

def verifyFullMldsaWitnessV23 (w : FullWitness) : Except String Bool := do
  match ← backend.replay w with
  | none => .ok false
  | some (ops, proof) => .ok (backend.verify ops proof)

end WitnessBackend

/-! ## Bundles -/

/-- A proof with its commitments and public values, as it is transmitted. -/
structure VerifyMldsaProofV23 where
  proofCombined : List UInt8
  nttCommitment : List UInt8
  azCommitment : List UInt8
  ct1Commitment : List UInt8
  inttCommitment : List UInt8
  wpCommitment : List UInt8
  normCommitment : List UInt8
  useHintCommitment : List UInt8
  zHat : List Poly
  cHat : Poly
  t1Hat : List Poly
  azHat : List Poly
  ct1Hat : List Poly
  azOut : List Poly
  ct1Out : List Poly
  wPrime : List Poly
  output : List Poly
  hintWeightTotal : BitVec 64
  merkleRoot : List UInt8
  cTilde : List UInt8

/-- `try_into` to an array of polynomials. -/
def entries (name letter : String) (count : ℕ) (polys : List Poly) :
    Except String (Fin count → Poly) :=
  if sized : polys.length = count then .ok fun i => polys.get (i.cast sized.symm)
  else .error s!"{name} must have {letter} entries"

namespace VerifyMldsaProofV23

variable (proof : VerifyMldsaProofV23)

/-- The arguments of the full verifier, with the arrays that are read from the bundle. -/
def arguments (azHat ct1Hat azOut ct1Out wPrime w1Out : Fin K → Poly) : FullWitness where
  proofBytes := proof.proofCombined
  nttCm := proof.nttCommitment
  azCm := proof.azCommitment
  ct1Cm := proof.ct1Commitment
  inttCm := proof.inttCommitment
  wpCm := proof.wpCommitment
  normCm := proof.normCommitment
  uhCm := proof.useHintCommitment
  zHat := proof.zHat
  cHat := proof.cHat
  t1Hat := proof.t1Hat
  azHat := azHat
  ct1Hat := ct1Hat
  azOut := azOut
  ct1Out := ct1Out
  wPrime := wPrime
  w1Out := w1Out
  hintWeightTotal := proof.hintWeightTotal
  cTildeSeed := proof.cTilde
  extraBinding := proof.merkleRoot

/-- What `verify_mldsa_witness_v23` hands on; `none` where it refuses the number of hints. -/
def handedOn : Except String (Option FullWitness) := do
  let _ ← entries "z_hat" "L" L proof.zHat
  let _ ← entries "t1_hat" "K" K proof.t1Hat
  let azHat ← entries "az_hat" "K" K proof.azHat
  let ct1Hat ← entries "ct1_hat" "K" K proof.ct1Hat
  let azOut ← entries "az_out" "K" K proof.azOut
  let ct1Out ← entries "ct1_out" "K" K proof.ct1Out
  let wPrime ← entries "w_prime" "K" K proof.wPrime
  let w1Out ← entries "output" "K" K proof.output
  if OMEGA < proof.hintWeightTotal.toNat then .ok none
  else .ok (some (proof.arguments azHat ct1Hat azOut ct1Out wPrime w1Out))

end VerifyMldsaProofV23

namespace WitnessBackend

variable (backend : WitnessBackend)

def verifyMldsaWitnessV23 (proof : VerifyMldsaProofV23) : Except String Bool := do
  match ← proof.handedOn with
  | none => .ok false
  | some w =>
      match backend.verifyFullMldsaWitnessV23 w with
      | .error e => .error ("verify_full_mldsa_witness_v23 (V23) failed: " ++ e)
      | .ok accepted => .ok accepted

/-- The full verifier takes the bundle past its comparisons, with these
operations on the channel. -/
def PastChecks (proof : VerifyMldsaProofV23) (ops : List (ChannelOp backend.Root)) : Prop :=
  ∃ w decoded, proof.handedOn = .ok (some w) ∧ backend.replay w = .ok (some (ops, decoded))

end WitnessBackend

/-- The word lists that are mixed, without the roots. -/
def wordLists {Root : Type} (ops : List (ChannelOp Root)) : List (List ℕ) :=
  ops.filterMap fun
    | .mixU32s words => some words
    | .mixRoot _ => none

/-! ## What the operations are -/

section Operations

variable {Root : Type}

theorem wordLists_append (first second : List (ChannelOp Root)) :
    wordLists (first ++ second) = wordLists first ++ wordLists second :=
  List.filterMap_append

theorem wordLists_map (words : List (List ℕ)) :
    wordLists (words.map (@ChannelOp.mixU32s Root)) = words := by
  induction words with
  | nil => rfl
  | cons first rest ih => exact congrArg (first :: ·) ih

end Operations

namespace FullWitness

variable (w : FullWitness)

/-- The coefficient lists that are hashed before the norm commitment. -/
def outputs : List (List (BitVec 64)) :=
  [w.nttOut, flat (List.ofFn w.azHat), flat (List.ofFn w.ct1Hat)] ++
    w.inttInputs.map List.ofFn ++
    [flat (List.ofFn w.azOut ++ List.ofFn w.ct1Out), flat (List.ofFn w.wPrime)]

theorem hashed_eq : w.hashed = w.outputs ++ [w.uhFlat] := by
  simp [hashed, outputs]

end FullWitness

namespace WitnessBackend

variable {backend : WitnessBackend}

/-- The commitments the full verifier compares. -/
structure Committed (backend : WitnessBackend) (w : FullWitness) : Prop where
  ntt : buildPolyCommitment (backend.outputFingerprint w.nttOut) = w.nttCm
  az : buildPolyCommitment (backend.outputFingerprint (flat (List.ofFn w.azHat))) = w.azCm
  ct1 : buildPolyCommitment (backend.outputFingerprint (flat (List.ofFn w.ct1Hat))) = w.ct1Cm
  intt : buildPolyCommitment (backend.outputFingerprint
    (flat (List.ofFn w.azOut ++ List.ofFn w.ct1Out))) = w.inttCm
  wp : buildPolyCommitment (backend.outputFingerprint (flat (List.ofFn w.wPrime))) = w.wpCm
  uh : buildPolyCommitment (backend.outputFingerprint w.uhFlat) = w.uhCm

/-- The operations of a run that gets past every comparison. -/
def operations (backend : WitnessBackend) (w : FullWitness) (normFp : List ℕ)
    (pre main : backend.Root) : List (ChannelOp backend.Root) :=
  (seedWords [w.cTildeSeed, w.extraBinding]).map .mixU32s ++ [.mixRoot pre, .mixRoot main] ++
    (([backend.outputFingerprint w.nttOut, backend.outputFingerprint (flat (List.ofFn w.azHat)),
        backend.outputFingerprint (flat (List.ofFn w.ct1Hat))] ++
      w.inttInputs.map (fun p => backend.outputFingerprint (List.ofFn p)) ++
      [backend.outputFingerprint (flat (List.ofFn w.azOut ++ List.ofFn w.ct1Out)),
        backend.outputFingerprint (flat (List.ofFn w.wPrime)), normFp,
        backend.outputFingerprint w.uhFlat]).map .mixU32s)

theorem wordLists_operations (w : FullWitness) (normFp : List ℕ) (pre main : backend.Root) :
    wordLists (backend.operations w normFp pre main) =
      seedWords [w.cTildeSeed, w.extraBinding] ++
        (w.outputs.map backend.outputFingerprint ++
          [normFp, backend.outputFingerprint w.uhFlat]) := by
  rw [operations, wordLists_append, wordLists_append, wordLists_map, wordLists_map]
  simp [wordLists, FullWitness.outputs, Function.comp_def]

/-- A comparison that a run gets past. -/
theorem compared_iff {α β ε : Type} [DecidableEq α] {first second : α}
    {later : Except ε (Option β)} {found : β} :
    (if first ≠ second then .ok none else later) = .ok (some found) ↔
      first = second ∧ later = .ok (some found) := by
  by_cases same : first = second
  · rw [if_neg (not_not.mpr same)]
    exact ⟨fun own => ⟨same, own⟩, fun own => own.2⟩
  · rw [if_pos same]
    exact ⟨nofun, fun own => absurd own.1 same⟩

/-- What a run past the comparisons has found. -/
theorem replay_eq_some {w : FullWitness} {ops : List (ChannelOp backend.Root)}
    {decoded : backend.Proof} :
    backend.replay w = .ok (some (ops, decoded)) ↔
      Committed backend w ∧ ∃ normFp main rest,
        backend.parsePolyCommitment w.normCm = .ok normFp ∧
        backend.decode w.proofBytes = .ok decoded ∧
        backend.commitments decoded = backend.canonicalUhPreprocRoot NTT_LOG :: main :: rest ∧
        ops = backend.operations w normFp (backend.canonicalUhPreprocRoot NTT_LOG) main := by
  simp only [replay, compared_iff, bind_eq_ok]
  constructor
  · rintro ⟨ntt, az, ct1, intt, wp, normFp, parsed, uh, proof, found, later⟩
    split at later
    case h_1 pre main rest roots =>
      rw [compared_iff] at later
      rcases later with ⟨pinned, finished⟩
      cases finished
      exact ⟨⟨ntt, az, ct1, intt, wp, uh⟩, normFp, main, rest, parsed, found, pinned ▸ roots,
        pinned ▸ rfl⟩
    case h_2 => contradiction
  · rintro ⟨⟨ntt, az, ct1, intt, wp, uh⟩, normFp, main, rest, parsed, found, roots, rfl⟩
    refine ⟨ntt, az, ct1, intt, wp, normFp, parsed, uh, decoded, found, ?_⟩
    rw [roots]
    exact compared_iff.mpr ⟨rfl, rfl⟩

end WitnessBackend

end Mldsa
end QLSA
