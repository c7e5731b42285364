import QLSA.Chain.Poseidon2Air

namespace QLSA
namespace Chain

open Mersenne Recursive

/-!
# The verifier of batch proofs

A commitment is a field element followed by a hash that binds it to the bytes of
the proof.  Anyone can compute that hash.  The verifier pins the preprocessed
columns and mixes the field element into the transcript; no constraint of the
circuit mentions it.  The proof system, the hash and the wording of decoding
errors are parameters.
-/

/-! ## Bytes -/

/-- Errors of hexadecimal decoding. -/
inductive FromHexError
  | oddLength
  | invalidHexCharacter (c : UInt8) (index : ℕ)

/-- Value of a hexadecimal digit of either case. -/
def hexVal (c : UInt8) (index : ℕ) : Except FromHexError ℕ :=
  let code := c.toNat
  if 65 ≤ code ∧ code ≤ 70 then .ok (code - 65 + 10)
  else if 97 ≤ code ∧ code ≤ 102 then .ok (code - 97 + 10)
  else if 48 ≤ code ∧ code ≤ 57 then .ok (code - 48)
  else .error (.invalidHexCharacter c index)

def hexPairs (index : ℕ) : List UInt8 → Except FromHexError (List UInt8)
  | first :: second :: rest => do
      let high ← hexVal first index
      let low ← hexVal second (index + 1)
      let bytes ← hexPairs (index + 2) rest
      return UInt8.ofNat (16 * high + low) :: bytes
  | _ => .ok []

/-- `hex::decode` of the characters of a string. -/
def hexDecode (data : List UInt8) : Except FromHexError (List UInt8) :=
  if data.length % 2 ≠ 0 then .error .oddLength else hexPairs 0 data

/-- `u32::to_le_bytes`. -/
def toLeBytes (word : ℕ) : List UInt8 :=
  [UInt8.ofNat word, UInt8.ofNat (word / 2 ^ 8), UInt8.ofNat (word / 2 ^ 16),
    UInt8.ofNat (word / 2 ^ 24)]

/-- `u32::from_le_bytes`. -/
def fromLeBytes : List UInt8 → ℕ
  | [] => 0
  | byte :: rest => byte.toNat + 2 ^ 8 * fromLeBytes rest

theorem fromLeBytes_toLeBytes {word : ℕ} (fits : word < 2 ^ 32) :
    fromLeBytes (toLeBytes word) = word := by
  simp only [toLeBytes, fromLeBytes, UInt8.toNat_ofNat']
  omega

theorem toLeBytes_fromLeBytes {bytes : List UInt8} (four : bytes.length = 4) :
    toLeBytes (fromLeBytes bytes) = bytes := by
  match bytes, four with
  | [b0, b1, b2, b3], _ =>
      have bound0 := b0.toNat_lt
      have bound1 := b1.toNat_lt
      have bound2 := b2.toNat_lt
      have bound3 := b3.toNat_lt
      have byte : ∀ (b : UInt8) (n : ℕ), n % 2 ^ 8 = b.toNat → UInt8.ofNat n = b := by
        intro b n same
        apply UInt8.toNat_inj.mp
        rw [UInt8.toNat_ofNat', same]
      simp only [toLeBytes, fromLeBytes]
      rw [byte b0 _ (by omega), byte b1 _ (by omega), byte b2 _ (by omega), byte b3 _ (by omega)]

/-- Words of four bytes; a shorter last chunk is padded with zeros. -/
def seedToU32Words (seed : List UInt8) : List ℕ := (seed.toChunks 4).map fromLeBytes

/-! ## The verifier -/

/-- What lies outside the repository: proofs and their bytes, the transcript, the hash, the final
check, and the columns a root commits to.  The last are only spoken of in the hypotheses on the
final check; no verifier reads them. -/
structure Backend where
  Proof : Type
  Root : Type
  Channel : Type
  rootEq : DecidableEq Root
  blake2s : List UInt8 → Vector UInt8 32
  hexError : FromHexError → String
  decode : List UInt8 → Except String Proof
  commitments : Proof → List Root
  commitColumns : ℕ → Columns → Root
  channel : Channel
  mixU32s : Channel → List ℕ → Channel
  commit : Channel → Root → Channel
  verify : ℕ → Channel → Root → Root → Proof → Bool
  columns : Root → Columns

namespace Backend

variable (backend : Backend)

instance : DecidableEq backend.Root := backend.rootEq

/-- Bytes of a commitment before they are written as hexadecimal digits. -/
def buildCommitment128 (m31Val : ℕ) (proofBytes : List UInt8) : List UInt8 :=
  toLeBytes m31Val ++
    (backend.blake2s (toLeBytes m31Val ++ proofBytes.take 32)).toList.take 12

def parseCommitment128 (commitmentHex proofBytes : List UInt8) : Except String ℕ :=
  match hexDecode commitmentHex with
  | .error e => .error ("invalid commitment hex: " ++ backend.hexError e)
  | .ok bytes =>
      if bytes.length ≠ 16 then
        .error s!"commitment must be 16 bytes (32 hex chars), got {bytes.length} bytes"
      else
        let m31Bytes := bytes.take 4
        let m31Val := fromLeBytes m31Bytes
        if P ≤ m31Val then
          .error "commitment M31 component out of M31 field range [0, 2^31 − 2]"
        else
          let expected := backend.blake2s (m31Bytes ++ proofBytes.take 32)
          if bytes.drop 4 ≠ expected.toList.take 12 then
            .error "commitment integrity check failed (suffix mismatch)"
          else .ok m31Val

def canonicalHashchainPreprocRoot (logSize : ℕ) : backend.Root :=
  backend.commitColumns logSize buildPreprocessed

/-- `verify_hash_chain_poseidon2`: the size, the text of the commitment, the proof, the pinned
preprocessed root, and the final check under a channel into which the committed value is mixed. -/
def verifyHashChainPoseidon2 (proofBytes commitmentHex : List UInt8) (logSize : ℕ)
    (seed : List UInt8) : Except String Bool :=
  if logSize < minLogSize ∨ maxLogSize < logSize then
    .error s!"log_size {logSize} out of valid range [{minLogSize}, {maxLogSize}]"
  else do
    let commitmentVal ← backend.parseCommitment128 commitmentHex proofBytes
    let proof ← backend.decode proofBytes
    let channel :=
      if seed = [] then backend.channel
      else backend.mixU32s backend.channel (seedToU32Words seed)
    match backend.commitments proof with
    | pre :: main :: _ =>
        if pre ≠ backend.canonicalHashchainPreprocRoot logSize then .ok false
        else
          let committed := backend.commit (backend.commit channel pre) main
          .ok (backend.verify logSize (backend.mixU32s committed [commitmentVal]) pre main proof)
    | few => .error s!"malformed proof: expected 2 commitments, got {few.length}"

/-- What the proof system is relied on for: the columns an accepted proof
commits to satisfy the circuit, and the root of the canonical preprocessed
columns commits to these. -/
structure Sound : Prop where
  satisfied : ∀ {logSize channel pre main proof},
    backend.verify logSize channel pre main proof = true →
      Satisfies logSize (backend.columns pre) (backend.columns main)
  canonical : ∀ logSize, ∀ row < 2 ^ logSize,
    preprocRow (backend.columns (backend.canonicalHashchainPreprocRoot logSize)) row =
      preprocRow buildPreprocessed row

variable {backend} {proofBytes commitmentHex : List UInt8}

theorem parseCommitment128_ok {value : ℕ}
    (parsed : backend.parseCommitment128 commitmentHex proofBytes = .ok value) :
    ∃ bytes, hexDecode commitmentHex = .ok bytes ∧ bytes.length = 16 ∧
      value = fromLeBytes (bytes.take 4) ∧ value < P ∧
      bytes = backend.buildCommitment128 value proofBytes := by
  unfold parseCommitment128 at parsed
  split at parsed
  case h_1 => contradiction
  case h_2 bytes decoded =>
    split at parsed
    case isTrue => contradiction
    case isFalse sized =>
      dsimp only at parsed
      split at parsed
      case isTrue => contradiction
      case isFalse inField =>
        split at parsed
        case isTrue => contradiction
        case isFalse suffix =>
          have length : bytes.length = 16 := not_not.mp sized
          have same : fromLeBytes (bytes.take 4) = value := Except.ok.inj parsed
          have word : toLeBytes value = bytes.take 4 := by
            rw [← same]
            apply toLeBytes_fromLeBytes
            rw [List.length_take, length]
            rfl
          refine ⟨bytes, decoded, length, same.symm, ?_, ?_⟩
          · rw [← same]
            exact Nat.lt_of_not_le inField
          · rw [buildCommitment128, word, ← not_not.mp suffix, List.take_append_drop]

/-- Everything an accepting run has checked. -/
theorem verifyHashChainPoseidon2_ok {logSize : ℕ} {seed : List UInt8}
    (accepted : backend.verifyHashChainPoseidon2 proofBytes commitmentHex logSize seed =
      .ok true) :
    ∃ value proof main rest channel,
      backend.parseCommitment128 commitmentHex proofBytes = .ok value ∧
      backend.decode proofBytes = .ok proof ∧
      backend.commitments proof =
        backend.canonicalHashchainPreprocRoot logSize :: main :: rest ∧
      backend.verify logSize channel (backend.canonicalHashchainPreprocRoot logSize) main
        proof = true := by
  unfold verifyHashChainPoseidon2 at accepted
  split at accepted
  case isTrue => contradiction
  case isFalse =>
    cases parsed : backend.parseCommitment128 commitmentHex proofBytes with
    | error message =>
        rw [parsed] at accepted
        contradiction
    | ok value =>
        cases decoded : backend.decode proofBytes with
        | error message =>
            rw [parsed, decoded] at accepted
            contradiction
        | ok proof =>
            rw [parsed, decoded] at accepted
            dsimp only [bind, Except.bind] at accepted
            split at accepted
            case h_1 pre main rest roots =>
              split at accepted
              case isTrue => exact absurd (Except.ok.inj accepted) (by decide)
              case isFalse pinned =>
                have canonical := not_not.mp pinned
                rw [canonical] at roots accepted
                exact ⟨value, proof, main, rest, _, rfl, rfl, roots, Except.ok.inj accepted⟩
            case h_2 => contradiction

/-- The value of a commitment does not decide whether its proof is accepted by a
proof system that accepts the proof under every transcript. -/
theorem verifyHashChainPoseidon2_of {logSize value : ℕ} {seed : List UInt8}
    {proof : backend.Proof} {main : backend.Root} {rest : List backend.Root}
    (large : minLogSize ≤ logSize) (small : logSize ≤ maxLogSize)
    (parsed : backend.parseCommitment128 commitmentHex proofBytes = .ok value)
    (decoded : backend.decode proofBytes = .ok proof)
    (roots : backend.commitments proof =
      backend.canonicalHashchainPreprocRoot logSize :: main :: rest)
    (verified : ∀ channel, backend.verify logSize channel
      (backend.canonicalHashchainPreprocRoot logSize) main proof = true) :
    backend.verifyHashChainPoseidon2 proofBytes commitmentHex logSize seed = .ok true := by
  have valid : ¬ (logSize < minLogSize ∨ maxLogSize < logSize) := by omega
  unfold verifyHashChainPoseidon2
  rw [if_neg valid, parsed, decoded]
  dsimp only [bind, Except.bind]
  rw [roots]
  dsimp only
  rw [if_neg (not_not.mpr rfl), verified]

end Backend

/-! ## What an accepted commitment says -/

/-- Digest of the first leaves of a trace. -/
def prefixDigest (main : Columns) (k : ℕ) : ℕ :=
  (poseidon2Chain ((leavesOf main k).map ZMod.val)).1

/-- The value is the state word at the end of a block of the trace, and so the
digest of the leaves absorbed up to there. -/
def Attests (logSize : ℕ) (main : Columns) (value : ℕ) : Prop :=
  ∃ k ≥ 1, nRounds * k ≤ 2 ^ logSize ∧ value = (main 0 (nRounds * k - 1)).val ∧
    value = prefixDigest main k

/-- The proof is one of an honest prover: the trace starts with the rows that
`build_trace` fills for some leaves, and the value mixed into the transcript is the
commitment that it returns with them.  What follows the rows of the leaves, where an
honest prover absorbs zeros, is left open. -/
def HonestRun (logSize : ℕ) (main : Columns) (value : ℕ) : Prop :=
  ∃ leaves size columns pre, ∃ commitment : M31,
    buildTraceOutput leaves = .ok (size, columns, pre, commitment) ∧ size ≤ logSize ∧
      (∀ row < nRounds * leaves.length, SameRow main columns row) ∧ value = commitment.val

/-- What the prover returns is an honest run. -/
theorem honestRun_buildTraceOutput {leaves : List ℕ} {logSize : ℕ} {main pre : Columns}
    {commitment : M31} (built : buildTraceOutput leaves = .ok (logSize, main, pre, commitment)) :
    HonestRun logSize main commitment.val :=
  ⟨leaves, logSize, main, pre, commitment, built, le_rfl, fun _ _ => ⟨rfl, fun _ => rfl⟩, rfl⟩

section HonestRun

variable {logSize value : ℕ} {main : Columns} (satisfies : Satisfies logSize buildPreprocessed main)
include satisfies

/-- A digest of a satisfying trace is what the prover returns for the leaves it absorbs:
their rows are those that the prover fills. -/
theorem honestRun_of_attests (attests : Attests logSize main value) :
    HonestRun logSize main value := by
  rcases attests with ⟨k, positive, inside, -, digest⟩
  have length : ((leavesOf main k).map ZMod.val).length = k := by
    rw [List.length_map, leavesOf, List.length_map, List.length_range]
  have nonempty : (leavesOf main k).map ZMod.val ≠ [] := by
    rw [← List.length_pos_iff, length]
    exact positive
  have block : 2 ^ minLogSize ≤ 2 ^ logSize :=
    (Nat.le_mul_of_pos_right nRounds positive).trans inside
  have large : minLogSize ≤ logSize := (Nat.pow_le_pow_iff_right (by decide)).mp block
  have absorbs : leavesOf main ((leavesOf main k).map ZMod.val).length =
      ((leavesOf main k).map ZMod.val).map fun leaf : ℕ => (leaf : M31) := by
    rw [length]
    simp
  have rows := sameRow_buildTrace satisfies (by rw [length]; exact inside) absorbs
  rcases buildTraceOutput_spec nonempty with ⟨commitment, built, -, own⟩
  refine ⟨_, _, _, _, commitment, built, ?_, rows, digest.trans own.symm⟩
  rw [computeLogSize_le_iff large, length, Nat.mul_comm]
  exact inside

/-- The value of an honest run is a digest of the trace: the last row of its leaves is
the one the prover reads the commitment off. -/
theorem HonestRun.attests (honest : HonestRun logSize main value) :
    Attests logSize main value := by
  rcases honest with ⟨leaves, size, columns, pre, commitment, built, fits, rows, own⟩
  have nonempty : leaves ≠ [] := by
    rintro rfl
    contradiction
  rcases buildTraceOutput_spec nonempty with ⟨digest, honest, last, -⟩
  rw [built, Except.ok.injEq, Prod.mk.injEq, Prod.mk.injEq, Prod.mk.injEq] at honest
  rcases honest with ⟨rfl, rfl, -, rfl⟩
  have positive := List.length_pos_iff.mpr nonempty
  have inside : nRounds * leaves.length ≤ 2 ^ logSize := by
    rw [Nat.mul_comm]
    exact (computeLogSize_fits _).trans (Nat.pow_le_pow_right (by decide) fits)
  have before : nRounds * leaves.length - 1 < nRounds * leaves.length := by
    simp only [nRounds]
    omega
  have cell : main 0 (nRounds * leaves.length - 1) = commitment :=
    (congrArg RoundRow.s0 (rows _ before).1).trans last.symm
  rcases Nat.exists_eq_add_of_le' positive with ⟨block, count⟩
  rw [count] at inside cell
  rw [own, ← cell]
  exact ⟨block + 1, Nat.le_add_left 1 block, inside, rfl, digest_eq satisfies block inside⟩

end HonestRun

/-- An accepted commitment attests a digest of the committed trace just when the proof
is one of an honest prover for some leaves.  The verifier does not see to that: the
value reaches it in the transcript and in a hash, and no constraint mentions it. -/
theorem verified_commitment_attests_iff {backend : Backend} (sound : backend.Sound)
    {proofBytes commitmentHex seed : List UInt8} {logSize : ℕ}
    (accepted : backend.verifyHashChainPoseidon2 proofBytes commitmentHex logSize seed =
      .ok true) :
    ∃ bytes proof root, hexDecode commitmentHex = .ok bytes ∧
      backend.decode proofBytes = .ok proof ∧ (backend.commitments proof)[1]? = some root ∧
      (Attests logSize (backend.columns root) (fromLeBytes (bytes.take 4)) ↔
        HonestRun logSize (backend.columns root) (fromLeBytes (bytes.take 4))) := by
  rcases backend.verifyHashChainPoseidon2_ok accepted with
    ⟨value, proof, root, rest, channel, parsed, decoded, roots, verified⟩
  rcases backend.parseCommitment128_ok parsed with ⟨bytes, unhexed, -, -, -, -⟩
  have satisfies : Satisfies logSize buildPreprocessed (backend.columns root) := by
    intro row inside
    rw [← sound.canonical logSize row inside]
    exact sound.satisfied verified row inside
  refine ⟨bytes, proof, root, unhexed, decoded, ?_, honestRun_of_attests satisfies,
    HonestRun.attests satisfies⟩
  rw [roots]
  rfl

/-! ## A commitment to another value -/

/-- Rows of seven columns. -/
abbrev SampleRoot := List (List M31)

/-- Rows of a table of columns. -/
def tabulateRows (logSize : ℕ) (columns : Columns) : SampleRoot :=
  (List.range (2 ^ logSize)).map fun row => (List.range 7).map fun column => columns column row

/-- Columns of a list of rows. -/
def columnsOfRows (rows : SampleRoot) : Columns := fun column row =>
  (rows.getD row []).getD column 0

theorem columnsOfRows_tabulateRows {logSize : ℕ} (columns : Columns) {column row : ℕ}
    (valid : column < 7) (inside : row < 2 ^ logSize) :
    columnsOfRows (tabulateRows logSize columns) column row = columns column row := by
  simp [columnsOfRows, tabulateRows, List.getD_eq_getElem?_getD, valid, inside]

theorem preprocRow_tabulateRows {logSize : ℕ} (columns : Columns) {row : ℕ}
    (inside : row < 2 ^ logSize) :
    preprocRow (columnsOfRows (tabulateRows logSize columns)) row = preprocRow columns row := by
  simp [preprocRow, columnsOfRows_tabulateRows, inside]

theorem mainRow_tabulateRows {logSize : ℕ} (columns : Columns) {row : ℕ}
    (inside : row < 2 ^ logSize) :
    mainRow logSize (columnsOfRows (tabulateRows logSize columns)) row =
      mainRow logSize columns row := by
  have before : previousRow logSize row < 2 ^ logSize := Nat.mod_lt _ (Nat.two_pow_pos _)
  simp [mainRow, columnsOfRows_tabulateRows, inside, before]

/-- Blake2s on the inputs that occur. -/
def sampleBlake2s (input : List UInt8) : Vector UInt8 32 :=
  if input = [5, 0, 0, 0, 1] then
    #v[114, 181, 219, 108, 227, 71, 160, 126, 223, 23, 209, 50, 65, 26, 52, 1,
      247, 194, 78, 169, 195, 113, 180, 31, 40, 68, 204, 154, 64, 69, 61, 121]
  else if input = [86, 184, 48, 73, 1] then
    #v[92, 149, 8, 143, 5, 101, 186, 166, 17, 167, 30, 32, 2, 156, 10, 208,
      74, 35, 241, 86, 180, 247, 246, 8, 241, 201, 46, 79, 2, 57, 34, 109]
  else if input = [207, 207, 190, 97, 1] then
    #v[84, 217, 136, 55, 17, 219, 226, 29, 253, 59, 141, 189, 69, 33, 106, 124,
      238, 34, 212, 203, 126, 64, 207, 81, 26, 245, 7, 104, 241, 237, 226, 32]
  else Vector.replicate 32 0

/-- The one proof of the sample commits to the prover's trace of some leaves. -/
def sampleBackend (leaves : List ℕ) : Backend where
  Proof := Unit
  Root := SampleRoot
  Channel := Unit
  rootEq := inferInstance
  blake2s := sampleBlake2s
  hexError := fun _ => ""
  decode := fun _ => .ok ()
  commitments := fun _ =>
    [tabulateRows (computeLogSize leaves.length) buildPreprocessed,
      tabulateRows (computeLogSize leaves.length) (buildTrace leaves)]
  commitColumns := tabulateRows
  channel := ()
  mixU32s := fun _ _ => ()
  commit := fun _ _ => ()
  verify := fun logSize _ pre main _ => Satisfies logSize (columnsOfRows pre) (columnsOfRows main)
  columns := columnsOfRows

section Sample

variable {leaves : List ℕ}

theorem sampleBackend_verify {logSize : ℕ} {pre main : SampleRoot} :
    (sampleBackend leaves).verify logSize () pre main () = true ↔
      Satisfies logSize (columnsOfRows pre) (columnsOfRows main) :=
  decide_eq_true_iff

theorem sampleBackend_sound : (sampleBackend leaves).Sound where
  satisfied := sampleBackend_verify.mp
  canonical := fun _ _ inside => preprocRow_tabulateRows buildPreprocessed inside

/-- Its proof is accepted with any commitment that parses. -/
theorem sampleBackend_accepts {commitmentHex : List UInt8} {value : ℕ}
    (small : computeLogSize leaves.length ≤ maxLogSize)
    (parsed : (sampleBackend leaves).parseCommitment128 commitmentHex [1] = .ok value) :
    (sampleBackend leaves).verifyHashChainPoseidon2 [1] commitmentHex
      (computeLogSize leaves.length) [] = .ok true := by
  have verified : (sampleBackend leaves).verify (computeLogSize leaves.length) ()
      (tabulateRows (computeLogSize leaves.length) buildPreprocessed)
      (tabulateRows (computeLogSize leaves.length) (buildTrace leaves)) () = true := by
    apply sampleBackend_verify.mpr
    intro row inside
    rw [preprocRow_tabulateRows _ inside, mainRow_tabulateRows _ inside]
    exact buildTrace_satisfies leaves _ row inside
  have roots : (sampleBackend leaves).commitments () =
      [(sampleBackend leaves).canonicalHashchainPreprocRoot (computeLogSize leaves.length),
        tabulateRows (computeLogSize leaves.length) (buildTrace leaves)] := rfl
  exact (sampleBackend leaves).verifyHashChainPoseidon2_of (le_max_right _ _) small parsed
    rfl roots (fun _ => verified)

/-- Its trace is that of an honest run. -/
theorem sampleBackend_honest (nonempty : leaves ≠ []) :
    HonestRun (computeLogSize leaves.length)
      (columnsOfRows (tabulateRows (computeLogSize leaves.length) (buildTrace leaves)))
      (poseidon2Chain leaves).1 := by
  rcases buildTraceOutput_spec nonempty with ⟨commitment, built, -, digest⟩
  refine ⟨leaves, _, _, _, commitment, built, le_rfl, ?_, digest.symm⟩
  intro row before
  have fits := computeLogSize_fits leaves.length
  rw [Nat.mul_comm] at fits
  have inside := before.trans_le fits
  simp [SameRow, roundRow, columnsOfRows_tabulateRows, inside]

end Sample

/-- The characters `56b830495c95088f0565baa611a71e20`. -/
def honestCommitment : List UInt8 :=
  [53, 54, 98, 56, 51, 48, 52, 57, 53, 99, 57, 53, 48, 56, 56, 102,
    48, 53, 54, 53, 98, 97, 97, 54, 49, 49, 97, 55, 49, 101, 50, 48]

/-- The commitment that the prover makes for two leaves attests their digest. -/
theorem verified_commitment_attests_honest :
    ∃ bytes proof root, hexDecode honestCommitment = .ok bytes ∧
      (sampleBackend [5, 6]).decode [1] = .ok proof ∧
      ((sampleBackend [5, 6]).commitments proof)[1]? = some root ∧
      Attests 4 ((sampleBackend [5, 6]).columns root) (fromLeBytes (bytes.take 4)) ∧
      fromLeBytes (bytes.take 4) = (poseidon2Chain [5, 6]).1 := by
  have size : computeLogSize 2 = 4 := by decide
  have parsed : (sampleBackend [5, 6]).parseCommitment128 honestCommitment [1] =
      .ok 1227929686 := rfl
  have digest : (poseidon2Chain [5, 6]).1 = 1227929686 := by decide +kernel
  rcases verified_commitment_attests_iff (@sampleBackend_sound [5, 6])
      (sampleBackend_accepts (by decide) parsed) with
    ⟨bytes, proof, root, unhexed, decoded, found, attests⟩
  have word : fromLeBytes (bytes.take 4) = (poseidon2Chain [5, 6]).1 := by
    rw [digest, ← Except.ok.inj unhexed]
    rfl
  have trace : tabulateRows (computeLogSize 2) (buildTrace [5, 6]) = root := Option.some.inj found
  have honest := sampleBackend_honest (List.cons_ne_nil 5 [6])
  refine ⟨bytes, proof, root, unhexed, decoded, found, ?_, word⟩
  rw [← size]
  apply attests.mpr
  rw [word, ← trace]
  exact honest

/-- The characters `0500000072b5db6ce347a07edf17d132`. -/
def sampleCommitment : List UInt8 :=
  [48, 53, 48, 48, 48, 48, 48, 48, 55, 50, 98, 53, 100, 98, 54, 99,
    101, 51, 52, 55, 97, 48, 55, 101, 100, 102, 49, 55, 100, 49, 51, 50]

theorem sampleCommitment_parsed :
    (sampleBackend [0]).parseCommitment128 sampleCommitment [1] = .ok 5 := by
  rfl

/-- A commitment to five is accepted for the trace that absorbs a zero. -/
theorem verified_commitment_unattested :
    (sampleBackend [0]).Sound ∧
      (sampleBackend [0]).verifyHashChainPoseidon2 [1] sampleCommitment 3 [] = .ok true ∧
      (sampleBackend [0]).parseCommitment128 sampleCommitment [1] = .ok 5 ∧
      ∀ root, ((sampleBackend [0]).commitments ())[1]? = some root →
        ¬ Attests 3 ((sampleBackend [0]).columns root) 5 := by
  refine ⟨sampleBackend_sound, sampleBackend_accepts (by decide) sampleCommitment_parsed,
    sampleCommitment_parsed, ?_⟩
  rintro root found ⟨k, positive, inside, _, digest⟩
  have only : k = 1 := by
    simp only [nRounds] at inside
    omega
  have trace : root = tabulateRows 3 (buildTrace [0]) := (Option.some.inj found).symm
  have leaf : columnsOfRows (tabulateRows 3 (buildTrace [0])) 5 0 = 0 := by
    rw [columnsOfRows_tabulateRows _ (by decide) (by decide)]
    simp [buildTrace, leafAt]
  have leaves : (leavesOf ((sampleBackend [0]).columns root) k).map ZMod.val = [0] := by
    rw [only, trace]
    change [ZMod.val (columnsOfRows (tabulateRows 3 (buildTrace [0])) 5 0)] = [0]
    rw [leaf, ZMod.val_zero]
  rw [prefixDigest, leaves] at digest
  exact absurd digest (by decide +kernel)

end Chain
end QLSA
