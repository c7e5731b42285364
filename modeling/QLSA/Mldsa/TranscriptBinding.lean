import QLSA.Machine.PackedBytes
import QLSA.Mldsa.WitnessTranscript
import Mathlib.Data.BitVec

namespace QLSA
namespace Mldsa

open Machine Mersenne Chain

/-!
# What the transcript of a bundle determines

The hashes stand for the coefficients modulo `2 ^ 32`, and a word list for the
bytes of a string up to zeros at its end.  Bundles that are taken past the
comparisons mix the same words just when they agree in this much.
-/

/-! ## Words of strings -/

theorem fromLeBytes_injective {first second : List UInt8} (sized : first.length = second.length)
    (same : fromLeBytes first = fromLeBytes second) : first = second := by
  induction first generalizing second with
  | nil => exact (List.length_eq_zero_iff.mp sized.symm).symm
  | cons byte rest ih =>
      cases second with
      | nil => contradiction
      | cons other later =>
          have bound := byte.toNat_lt
          have otherBound := other.toNat_lt
          rw [fromLeBytes, fromLeBytes] at same
          have low : byte.toNat = other.toNat := by omega
          have high : fromLeBytes rest = fromLeBytes later := by omega
          rw [UInt8.toNat_inj.mp low, ih (Nat.succ.inj sized) high]

theorem toChunksGo_append (rest : List UInt8) (acc : Array UInt8) (chunks : Array (List UInt8)) :
    List.toChunks.go 4 rest acc chunks = chunks.toList ++ List.toChunks.go 4 rest acc #[] := by
  induction rest generalizing acc chunks with
  | nil => rw [List.toChunks.go, List.toChunks.go, Array.toList_push, Array.toList_push]; rfl
  | cons x xs ih =>
      rw [List.toChunks.go, List.toChunks.go]
      split
      · rw [ih, ih _ (#[].push _), Array.toList_push, Array.toList_push, List.append_assoc]
        rfl
      · exact ih _ _

theorem seedToU32Words_four (b0 b1 b2 b3 : UInt8) (rest : List UInt8) :
    seedToU32Words (b0 :: b1 :: b2 :: b3 :: rest) =
      fromLeBytes [b0, b1, b2, b3] :: seedToU32Words rest := by
  cases rest with
  | nil => rfl
  | cons x xs =>
    have chunks := toChunksGo_append xs #[x] #[[b0, b1, b2, b3]]
    exact congrArg (List.map fromLeBytes) chunks

/-- Strings of one length are determined by their words. -/
theorem seedToU32Words_injective : ∀ {first second : List UInt8},
    first.length = second.length → seedToU32Words first = seedToU32Words second → first = second
  | a0 :: a1 :: a2 :: a3 :: rest, b0 :: b1 :: b2 :: b3 :: later, sized, same => by
      rw [seedToU32Words_four, seedToU32Words_four] at same
      rcases List.cons.inj same with ⟨head, tail⟩
      have heads : [a0, a1, a2, a3] = [b0, b1, b2, b3] := fromLeBytes_injective rfl head
      have tails := seedToU32Words_injective (by simpa using sized) tail
      rw [tails]
      exact congrArg (· ++ later) heads
  | [], [], _, _ => rfl
  | [a0], [b0], _, same => fromLeBytes_injective rfl (List.cons.inj same).1
  | [a0, a1], [b0, b1], _, same => fromLeBytes_injective rfl (List.cons.inj same).1
  | [a0, a1, a2], [b0, b1, b2], _, same => fromLeBytes_injective rfl (List.cons.inj same).1

/-! ## Coefficients that are hashed -/

/-- The coefficients as the hash has them. -/
def low (p : Poly) : Fin N → BitVec 32 := fun i => (p i).setWidth 32

theorem flat_low (polys : List Poly) :
    (flat polys).map (BitVec.setWidth 32) = (polys.map low).flatMap List.ofFn := by
  rw [flat, List.map_flatMap, List.flatMap_map]
  simp only [List.map_ofFn, Function.comp_def]
  rfl

theorem toLeBytes_injective {first second : ℕ} (fits : first < 2 ^ 32) (fits' : second < 2 ^ 32)
    (same : toLeBytes first = toLeBytes second) : first = second := by
  rw [← fromLeBytes_toLeBytes fits, same, fromLeBytes_toLeBytes fits']

/-- The bytes determine the coefficients modulo `2 ^ 32`. -/
theorem hashedBytes_eq_iff {first second : List (BitVec 64)} :
    hashedBytes first = hashedBytes second ↔
      first.map (BitVec.setWidth 32) = second.map (BitVec.setWidth 32) := by
  have words : ∀ coeffs : List (BitVec 64), hashedBytes coeffs =
      (coeffs.map (BitVec.setWidth 32)).flatMap fun c => toLeBytes c.toNat := by
    intro coeffs
    rw [List.flatMap_map]
    rfl
  rw [words, words]
  have sized : ∀ c : BitVec 32, (toLeBytes c.toNat).length = 4 := fun _ => rfl
  constructor
  · exact flatMap_injective sized (by decide) fun c _ d _ same =>
      BitVec.eq_of_toNat_eq (toLeBytes_injective c.isLt d.isLt same)
  · exact congrArg _

theorem map_digest_iff {backend : WitnessBackend} {strings : Set (List UInt8)}
    (injective : Set.InjOn backend.digest strings) {first second : List (List (BitVec 64))}
    (inside : ∀ coeffs ∈ first, hashedBytes coeffs ∈ strings)
    (within : ∀ coeffs ∈ second, hashedBytes coeffs ∈ strings) :
    first.map backend.outputFingerprint = second.map backend.outputFingerprint ↔
      first.map (List.map (BitVec.setWidth 32)) = second.map (List.map (BitVec.setWidth 32)) := by
  induction first generalizing second with
  | nil => simp
  | cons coeffs rest ih =>
      cases second with
      | nil => simp
      | cons others later =>
          rw [List.forall_mem_cons] at inside within
          have head : backend.outputFingerprint coeffs = backend.outputFingerprint others ↔
              coeffs.map (BitVec.setWidth 32) = others.map (BitVec.setWidth 32) := by
            rw [← hashedBytes_eq_iff]
            exact injective.eq_iff inside.1 within.1
          rw [List.map_cons, List.map_cons, List.map_cons, List.map_cons, List.cons.injEq,
            List.cons.injEq, head, ih inside.2 within.2]

/-! ## Arguments of the full verifier -/

theorem entries_eq_ok {name letter : String} {count : ℕ} {polys : List Poly}
    {array : Fin count → Poly} :
    entries name letter count polys = .ok array ↔ List.ofFn array = polys := by
  unfold entries
  constructor
  · intro read
    split at read
    case isTrue sized =>
      cases read
      subst sized
      exact List.ofFn_get polys
    case isFalse => contradiction
  · rintro rfl
    rw [dif_pos List.length_ofFn]
    simp

/-- The arguments are those of the bundle. -/
structure HandedOn (proof : VerifyMldsaProofV23) (w : FullWitness) : Prop where
  zCount : proof.zHat.length = L
  t1Count : proof.t1Hat.length = K
  azHat : List.ofFn w.azHat = proof.azHat
  ct1Hat : List.ofFn w.ct1Hat = proof.ct1Hat
  azOut : List.ofFn w.azOut = proof.azOut
  ct1Out : List.ofFn w.ct1Out = proof.ct1Out
  wPrime : List.ofFn w.wPrime = proof.wPrime
  w1Out : List.ofFn w.w1Out = proof.output
  hints : proof.hintWeightTotal.toNat ≤ OMEGA
  rest : w = proof.arguments w.azHat w.ct1Hat w.azOut w.ct1Out w.wPrime w.w1Out

theorem entries_succeed {name letter : String} {count : ℕ} {polys : List Poly} :
    (∃ array, entries name letter count polys = .ok array) ↔ polys.length = count := by
  unfold entries
  by_cases sized : polys.length = count
  · rw [dif_pos sized]
    exact ⟨fun _ => sized, fun _ => ⟨_, rfl⟩⟩
  · rw [dif_neg sized]
    exact ⟨nofun, fun own => absurd own sized⟩

theorem handedOn_iff {proof : VerifyMldsaProofV23} {w : FullWitness} :
    proof.handedOn = .ok (some w) ↔ HandedOn proof w := by
  simp only [VerifyMldsaProofV23.handedOn, bind_eq_ok]
  constructor
  · rintro ⟨z, zRead, t1, t1Read, az, azRead, ct1, ct1Read, azOut, azOutRead, ct1Out, ct1OutRead,
      wPrime, wPrimeRead, w1Out, w1OutRead, found⟩
    split at found
    case isTrue => exact absurd (Except.ok.inj found) nofun
    case isFalse light =>
      cases found
      exact ⟨entries_succeed.mp ⟨z, zRead⟩, entries_succeed.mp ⟨t1, t1Read⟩,
        entries_eq_ok.mp azRead, entries_eq_ok.mp ct1Read, entries_eq_ok.mp azOutRead,
        entries_eq_ok.mp ct1OutRead, entries_eq_ok.mp wPrimeRead, entries_eq_ok.mp w1OutRead,
        Nat.le_of_not_lt light, rfl⟩
  · intro handed
    rcases entries_succeed.mpr handed.zCount with ⟨z, zRead⟩
    rcases entries_succeed.mpr handed.t1Count with ⟨t1, t1Read⟩
    refine ⟨z, zRead, t1, t1Read, w.azHat, entries_eq_ok.mpr handed.azHat, w.ct1Hat,
      entries_eq_ok.mpr handed.ct1Hat, w.azOut, entries_eq_ok.mpr handed.azOut, w.ct1Out,
      entries_eq_ok.mpr handed.ct1Out, w.wPrime, entries_eq_ok.mpr handed.wPrime, w.w1Out,
      entries_eq_ok.mpr handed.w1Out, ?_⟩
    rw [if_neg (Nat.not_lt_of_le handed.hints), ← handed.rest]

/-! ## What equal transcripts determine -/

/-- The bundles agree as far as the transcript tells: the words of the byte strings that are
not empty, and the coefficients modulo `2 ^ 32`. -/
structure Congruent (b b' : VerifyMldsaProofV23) : Prop where
  seeds : WitnessBackend.seedWords [b.cTilde, b.merkleRoot] =
    WitnessBackend.seedWords [b'.cTilde, b'.merkleRoot]
  zHat : b.zHat.map low = b'.zHat.map low
  cHat : low b.cHat = low b'.cHat
  t1Hat : b.t1Hat.map low = b'.t1Hat.map low
  azHat : b.azHat.map low = b'.azHat.map low
  ct1Hat : b.ct1Hat.map low = b'.ct1Hat.map low
  azOut : b.azOut.map low = b'.azOut.map low
  ct1Out : b.ct1Out.map low = b'.ct1Out.map low
  wPrime : b.wPrime.map low = b'.wPrime.map low
  output : b.output.map low = b'.output.map low
  hintWeightTotal : b.hintWeightTotal = b'.hintWeightTotal

/-- The bundles agree in their public values. -/
structure SamePublic (b b' : VerifyMldsaProofV23) : Prop where
  cTilde : b.cTilde = b'.cTilde
  merkleRoot : b.merkleRoot = b'.merkleRoot
  zHat : b.zHat = b'.zHat
  cHat : b.cHat = b'.cHat
  t1Hat : b.t1Hat = b'.t1Hat
  azHat : b.azHat = b'.azHat
  ct1Hat : b.ct1Hat = b'.ct1Hat
  azOut : b.azOut = b'.azOut
  ct1Out : b.ct1Out = b'.ct1Out
  wPrime : b.wPrime = b'.wPrime
  output : b.output = b'.output
  hintWeightTotal : b.hintWeightTotal = b'.hintWeightTotal

/-- The public polynomials of a bundle. -/
def VerifyMldsaProofV23.polys (b : VerifyMldsaProofV23) : List Poly :=
  b.zHat ++ [b.cHat] ++ b.t1Hat ++ b.azHat ++ b.ct1Hat ++ b.azOut ++ b.ct1Out ++ b.wPrime ++
    b.output

/-- Every coefficient is a `u32`. -/
def WordSized (b : VerifyMldsaProofV23) : Prop :=
  ∀ p ∈ b.polys, ∀ i, 0 ≤ (p i).toInt ∧ (p i).toInt < 2 ^ 32

theorem ofFn_low (p : Poly) : (List.ofFn p).map (BitVec.setWidth 32) = List.ofFn (low p) := by
  rw [List.map_ofFn]
  rfl

/-- The hashed coefficients of a bundle modulo `2 ^ 32`. -/
theorem HandedOn.outputs_low {b : VerifyMldsaProofV23} {w : FullWitness} (handed : HandedOn b w) :
    w.outputs.map (List.map (BitVec.setWidth 32)) =
      [(b.zHat.map low).flatMap List.ofFn ++ List.ofFn (low b.cHat) ++
          (b.t1Hat.map low).flatMap List.ofFn,
        (b.azHat.map low).flatMap List.ofFn, (b.ct1Hat.map low).flatMap List.ofFn] ++
      (b.azHat.map low ++ b.ct1Hat.map low).map List.ofFn ++
      [(b.azOut.map low ++ b.ct1Out.map low).flatMap List.ofFn,
        (b.wPrime.map low).flatMap List.ofFn] := by
  have mid : ∀ polys : List Poly, (polys.map List.ofFn).map (List.map (BitVec.setWidth 32)) =
      (polys.map low).map List.ofFn := by
    intro polys
    rw [List.map_map, List.map_map]
    apply List.map_congr_left
    intro p _
    rw [Function.comp_apply, Function.comp_apply, ofFn_low]
  have zHat : w.zHat = b.zHat := by rw [handed.rest]; rfl
  have cHat : w.cHat = b.cHat := by rw [handed.rest]; rfl
  have t1Hat : w.t1Hat = b.t1Hat := by rw [handed.rest]; rfl
  rw [FullWitness.outputs, List.map_append, List.map_append, mid, FullWitness.nttOut,
    FullWitness.inttInputs, handed.azHat, handed.ct1Hat, handed.azOut, handed.ct1Out,
    handed.wPrime, zHat, cHat, t1Hat]
  simp only [List.map_cons, List.map_nil, List.map_append, flat_low, ofFn_low]

theorem HandedOn.uhFlat_low {b : VerifyMldsaProofV23} {w : FullWitness} (handed : HandedOn b w) :
    w.uhFlat.map (BitVec.setWidth 32) =
      (b.output.map low).flatMap List.ofFn ++ [b.hintWeightTotal.setWidth 32] := by
  have hints : w.hintWeightTotal = b.hintWeightTotal := by rw [handed.rest]; rfl
  rw [FullWitness.uhFlat, handed.w1Out, hints, List.map_append, flat_low]
  rfl

/-- Lists of arrays of one width are determined by their cells. -/
theorem flat_injective {first second : List (Fin N → BitVec 32)}
    (same : first.flatMap List.ofFn = second.flatMap List.ofFn) : first = second :=
  flatMap_injective (fun _ => List.length_ofFn) (by decide : 0 < N)
    (fun _ _ _ _ own => List.ofFn_injective own) same

theorem flat_length {count : ℕ} {first second : List Poly} (sized : first.length = count)
    (sized' : second.length = count) :
    ((first.map low).flatMap List.ofFn).length = ((second.map low).flatMap List.ofFn).length := by
  have width : ∀ p : Fin N → BitVec 32, (List.ofFn p).length = N := fun _ => List.length_ofFn
  rw [flatMap_length width, flatMap_length width, List.length_map, List.length_map, sized, sized']

theorem azOut_length {b b' : VerifyMldsaProofV23} {w w' : FullWitness} (handed : HandedOn b w)
    (handed' : HandedOn b' w') : (b.azOut.map low).length = (b'.azOut.map low).length := by
  rw [List.length_map, List.length_map, ← handed.azOut, ← handed'.azOut, List.length_ofFn,
    List.length_ofFn]

theorem hints_eq {first second : BitVec 64} (light : first.toNat ≤ OMEGA)
    (light' : second.toNat ≤ OMEGA) (word : first.setWidth 32 = second.setWidth 32) :
    first = second := by
  have values := congrArg BitVec.toNat word
  rw [BitVec.toNat_setWidth, BitVec.toNat_setWidth] at values
  have bound : OMEGA < 2 ^ 32 := by decide
  rw [Nat.mod_eq_of_lt (lt_of_le_of_lt light bound), Nat.mod_eq_of_lt (lt_of_le_of_lt light' bound)]
    at values
  exact BitVec.eq_of_toNat_eq values

/-- Two bundles hash the same coefficients modulo `2 ^ 32` just when these agree. -/
theorem coefficients_eq_iff {b b' : VerifyMldsaProofV23} {w w' : FullWitness}
    (handed : HandedOn b w) (handed' : HandedOn b' w') :
    (w.outputs.map (List.map (BitVec.setWidth 32)) =
          w'.outputs.map (List.map (BitVec.setWidth 32)) ∧
        w.uhFlat.map (BitVec.setWidth 32) = w'.uhFlat.map (BitVec.setWidth 32) ∧
        WitnessBackend.seedWords [b.cTilde, b.merkleRoot] =
          WitnessBackend.seedWords [b'.cTilde, b'.merkleRoot]) ↔
      Congruent b b' := by
  rw [handed.outputs_low, handed'.outputs_low, handed.uhFlat_low, handed'.uhFlat_low]
  constructor
  · rintro ⟨outputs, uh, seeds⟩
    rcases List.append_inj' outputs rfl with ⟨outputs, last⟩
    rcases List.append_inj outputs rfl with ⟨firsts, _⟩
    rw [List.cons.injEq, List.cons.injEq, List.cons.injEq] at firsts
    rw [List.cons.injEq, List.cons.injEq] at last
    rcases firsts with ⟨ntt, az, ct1, _⟩
    rcases last with ⟨intt, wPrime, _⟩
    rcases List.append_inj' ntt (flat_length handed.t1Count handed'.t1Count) with ⟨zc, t1Hat⟩
    rcases List.append_inj zc (flat_length handed.zCount handed'.zCount) with ⟨zHat, cHat⟩
    have azCount := azOut_length handed handed'
    rcases List.append_inj (flat_injective intt) azCount with ⟨azOut, ct1Out⟩
    rcases List.append_inj' uh rfl with ⟨output, total⟩
    have word : b.hintWeightTotal.setWidth 32 = b'.hintWeightTotal.setWidth 32 :=
      (List.cons.inj total).1
    exact {
      seeds := seeds
      zHat := flat_injective zHat
      cHat := List.ofFn_injective cHat
      t1Hat := flat_injective t1Hat
      azHat := flat_injective az
      ct1Hat := flat_injective ct1
      azOut := azOut
      ct1Out := ct1Out
      wPrime := flat_injective wPrime
      output := flat_injective output
      hintWeightTotal := hints_eq handed.hints handed'.hints word }
  · intro congruent
    rw [congruent.zHat, congruent.cHat, congruent.t1Hat, congruent.azHat, congruent.ct1Hat,
      congruent.azOut, congruent.ct1Out, congruent.wPrime, congruent.output,
      congruent.hintWeightTotal]
    exact ⟨rfl, rfl, congruent.seeds⟩

/-! ## Equal public values -/

theorem seedWords_cons (seed : List UInt8) (rest : List (List UInt8)) :
    WitnessBackend.seedWords (seed :: rest) =
      (if seed = [] then [] else [seedToU32Words seed]) ++ WitnessBackend.seedWords rest := by
  by_cases empty : seed = []
  · rw [if_pos empty, empty]
    rfl
  · rw [if_neg empty, WitnessBackend.seedWords, List.filter_cons_of_pos (by simpa using empty)]
    rfl

/-- Strings of known lengths are determined by their words. -/
theorem seedWords_injective {first second : List (List UInt8)}
    (sized : first.map List.length = second.map List.length)
    (same : WitnessBackend.seedWords first = WitnessBackend.seedWords second) :
    first = second := by
  induction first generalizing second with
  | nil => exact (List.map_eq_nil_iff.mp sized.symm).symm
  | cons seed rest ih =>
      cases second with
      | nil => contradiction
      | cons other later =>
          rcases List.cons.inj sized with ⟨own, others⟩
          rw [seedWords_cons, seedWords_cons] at same
          by_cases empty : seed = []
          · have empty' : other = [] := by
              rw [empty, List.length_nil] at own
              exact List.length_eq_zero_iff.mp own.symm
            rw [if_pos empty, if_pos empty'] at same
            rw [empty, empty', ih others same]
          · have full : other ≠ [] := by
              intro empty'
              rw [empty', List.length_nil] at own
              exact empty (List.length_eq_zero_iff.mp own)
            rw [if_neg empty, if_neg full] at same
            rcases List.cons.inj same with ⟨head, tail⟩
            rw [seedToU32Words_injective own head, ih others tail]

theorem coefficient_eq {c d : BitVec 64} (range : 0 ≤ c.toInt ∧ c.toInt < 2 ^ 32)
    (range' : 0 ≤ d.toInt ∧ d.toInt < 2 ^ 32) (word : c.setWidth 32 = d.setWidth 32) : c = d := by
  have values := congrArg BitVec.toNat word
  have bound := c.isLt
  have bound' := d.isLt
  rw [BitVec.toNat_setWidth, BitVec.toNat_setWidth] at values
  rw [BitVec.toInt_eq_toNat_cond] at range range'
  apply BitVec.eq_of_toNat_eq
  split at range <;> split at range' <;> omega

theorem polys_eq {first second : List Poly}
    (sized : ∀ p ∈ first, ∀ i, 0 ≤ (p i).toInt ∧ (p i).toInt < 2 ^ 32)
    (sized' : ∀ p ∈ second, ∀ i, 0 ≤ (p i).toInt ∧ (p i).toInt < 2 ^ 32)
    (same : first.map low = second.map low) : first = second := by
  induction first generalizing second with
  | nil => exact (List.map_eq_nil_iff.mp same.symm).symm
  | cons p rest ih =>
      cases second with
      | nil => exact absurd same (List.cons_ne_nil _ _)
      | cons q later =>
          rw [List.forall_mem_cons] at sized sized'
          rcases List.cons.inj same with ⟨head, tail⟩
          have heads : p = q := by
            funext i
            exact coefficient_eq (sized.1 i) (sized'.1 i) (congrFun head i)
          rw [heads, ih sized.2 sized'.2 tail]

/-- Bundles with strings of the same lengths and coefficients that are words agree outright. -/
theorem Congruent.samePublic {b b' : VerifyMldsaProofV23} (congruent : Congruent b b')
    (cTilde : b.cTilde.length = b'.cTilde.length)
    (merkleRoot : b.merkleRoot.length = b'.merkleRoot.length)
    (sized : WordSized b) (sized' : WordSized b') : SamePublic b b' := by
  have strings : [b.cTilde, b.merkleRoot] = [b'.cTilde, b'.merkleRoot] :=
    seedWords_injective (by simp [cTilde, merkleRoot]) congruent.seeds
  rw [List.cons.injEq, List.cons.injEq] at strings
  simp only [WordSized, VerifyMldsaProofV23.polys, List.forall_mem_append] at sized sized'
  rcases sized with ⟨⟨⟨⟨⟨⟨⟨⟨z, c⟩, t1⟩, az⟩, ct1⟩, azOut⟩, ct1Out⟩, wPrime⟩, output⟩
  rcases sized' with ⟨⟨⟨⟨⟨⟨⟨⟨z', c'⟩, t1'⟩, az'⟩, ct1'⟩, azOut'⟩, ct1Out'⟩, wPrime'⟩, output'⟩
  have cHat : [b.cHat] = [b'.cHat] := polys_eq c c' (congrArg (fun p => [p]) congruent.cHat)
  exact {
    cTilde := strings.1
    merkleRoot := strings.2.1
    zHat := polys_eq z z' congruent.zHat
    cHat := (List.cons.inj cHat).1
    t1Hat := polys_eq t1 t1' congruent.t1Hat
    azHat := polys_eq az az' congruent.azHat
    ct1Hat := polys_eq ct1 ct1' congruent.ct1Hat
    azOut := polys_eq azOut azOut' congruent.azOut
    ct1Out := polys_eq ct1Out ct1Out' congruent.ct1Out
    wPrime := polys_eq wPrime wPrime' congruent.wPrime
    output := polys_eq output output' congruent.output
    hintWeightTotal := congruent.hintWeightTotal }

/-! ## The transcript determines the public values -/

/-- The byte strings the verifier hashes for a bundle. -/
def hashedStrings (b : VerifyMldsaProofV23) : Set (List UInt8) :=
  {bytes | ∃ w, b.handedOn = .ok (some w) ∧ ∃ coeffs ∈ w.hashed, bytes = hashedBytes coeffs}

theorem HandedOn.norm {b : VerifyMldsaProofV23} {w : FullWitness} (handed : HandedOn b w) :
    w.normCm = b.normCommitment := by
  rw [handed.rest]
  rfl

theorem HandedOn.seedWords {b : VerifyMldsaProofV23} {w : FullWitness} (handed : HandedOn b w) :
    WitnessBackend.seedWords [w.cTildeSeed, w.extraBinding] =
      WitnessBackend.seedWords [b.cTilde, b.merkleRoot] := by
  rw [handed.rest]
  rfl

theorem hashed_mem {b : VerifyMldsaProofV23} {w : FullWitness}
    (handed : b.handedOn = .ok (some w)) {coeffs : List (BitVec 64)} (member : coeffs ∈ w.hashed) :
    hashedBytes coeffs ∈ hashedStrings b := ⟨w, handed, coeffs, member, rfl⟩

/-- Equal word lists are equal part by part. -/
theorem parts_eq_iff {backend : WitnessBackend} {w w' : FullWitness} {norm norm' : List ℕ}
    {pre main pre' main' : backend.Root} :
    wordLists (backend.operations w norm pre main) =
        wordLists (backend.operations w' norm' pre' main') ↔
      WitnessBackend.seedWords [w.cTildeSeed, w.extraBinding] =
          WitnessBackend.seedWords [w'.cTildeSeed, w'.extraBinding] ∧
        w.hashed.map backend.outputFingerprint = w'.hashed.map backend.outputFingerprint ∧
        norm = norm' := by
  rw [WitnessBackend.wordLists_operations, WitnessBackend.wordLists_operations, w.hashed_eq,
    w'.hashed_eq, List.map_append, List.map_append, List.map_singleton, List.map_singleton]
  constructor
  · intro same
    rcases List.append_inj' same (by simp [FullWitness.outputs, FullWitness.inttInputs])
      with ⟨seeds, later⟩
    rcases List.append_inj' later (by simp only [List.length_cons, List.length_nil])
      with ⟨outputs, last⟩
    rw [List.cons.injEq, List.cons.injEq] at last
    exact ⟨seeds, by rw [outputs, last.2.1], last.1⟩
  · rintro ⟨seeds, hashed, rfl⟩
    rcases List.append_inj' hashed (by simp only [List.length_singleton]) with ⟨outputs, last⟩
    have uh : backend.outputFingerprint w.uhFlat = backend.outputFingerprint w'.uhFlat :=
      (List.cons.inj last).1
    rw [seeds, outputs, uh]

/-- Bundles mix the same words just when they agree as far as the transcript tells. -/
theorem wordLists_eq_iff {backend : WitnessBackend} {b b' : VerifyMldsaProofV23}
    {ops ops' : List (ChannelOp backend.Root)}
    (injective : Set.InjOn backend.digest (hashedStrings b ∪ hashedStrings b'))
    (past : backend.PastChecks b ops) (past' : backend.PastChecks b' ops') :
    wordLists ops = wordLists ops' ↔
      backend.parsePolyCommitment b.normCommitment =
        backend.parsePolyCommitment b'.normCommitment ∧ Congruent b b' := by
  rcases past with ⟨w, decoded, found, run⟩
  rcases past' with ⟨w', decoded', found', run'⟩
  have handed := handedOn_iff.mp found
  have handed' := handedOn_iff.mp found'
  rcases WitnessBackend.replay_eq_some.mp run with ⟨_, normFp, main, _, norm, _, _, rfl⟩
  rcases WitnessBackend.replay_eq_some.mp run' with ⟨_, normFp', main', _, norm', _, _, rfl⟩
  have hashed := map_digest_iff injective (fun _ member => Or.inl (hashed_mem found member))
    (fun _ member => Or.inr (hashed_mem found' member))
  rw [parts_eq_iff, handed.seedWords, handed'.seedWords, hashed, ← handed.norm, norm,
    ← handed'.norm, norm', Except.ok.injEq, ← coefficients_eq_iff handed handed', w.hashed_eq,
    w'.hashed_eq, List.map_append, List.map_append, List.map_singleton, List.map_singleton]
  constructor
  · rintro ⟨seeds, coefficients, norms⟩
    rcases List.append_inj' coefficients (by simp only [List.length_singleton])
      with ⟨outputs, last⟩
    exact ⟨norms, outputs, (List.cons.inj last).1, seeds⟩
  · rintro ⟨norms, outputs, uh, seeds⟩
    exact ⟨seeds, by rw [outputs, uh], norms⟩

/-! ## Zero polynomials -/

/-- The hashes of the strings of 1024, 6144, 6148 and 12288 zeros. -/
def zerosBlake2s (length : ℕ) : Vector UInt8 32 :=
  if length = 1024 then
    #v[3, 83, 102, 99, 42, 80, 108, 4, 93, 74, 81, 200, 51, 232, 183, 103, 145, 213, 218, 169,
      188, 168, 33, 180, 162, 115, 42, 102, 251, 90, 162, 45]
  else if length = 6144 then
    #v[106, 178, 12, 232, 215, 229, 226, 135, 59, 54, 79, 226, 218, 149, 216, 171, 113, 11, 66, 133,
      0, 102, 52, 103, 74, 36, 123, 160, 252, 81, 156, 196]
  else if length = 6148 then
    #v[33, 150, 138, 98, 65, 210, 230, 47, 155, 52, 192, 173, 253, 18, 72, 27, 147, 5, 28, 118,
      185, 11, 156, 122, 172, 81, 77, 199, 240, 29, 149, 33]
  else
    #v[51, 183, 104, 154, 169, 215, 92, 92, 178, 223, 190, 184, 255, 223, 200, 245, 93, 140, 169, 181,
      169, 223, 173, 113, 0, 70, 176, 28, 234, 109, 75, 107]

def sampleBackend : WitnessBackend where
  Proof := Unit
  Root := Unit
  rootEq := inferInstance
  blake2s := fun bytes => zerosBlake2s bytes.length
  hexError := fun _ => ""
  decode := fun _ => .ok ()
  commitments := fun _ => [(), ()]
  canonicalUhPreprocRoot := fun _ => ()
  verify := fun _ _ => true

/-- A bundle of zero polynomials but for `z_hat`, with the commitments to them. The bytes of the
proof and the text of the norm commitment are no public values, and are left open. -/
def sealedBundle (proof norm : List UInt8) (zHat : List Poly) (cTilde : List UInt8) :
    VerifyMldsaProofV23 where
  proofCombined := proof
  nttCommitment := buildPolyCommitment (sampleBackend.outputFingerprint
    (flat zHat ++ List.ofFn (0 : Poly) ++ flat (List.ofFn (0 : Fin K → Poly))))
  azCommitment := buildPolyCommitment (sampleBackend.outputFingerprint
    (flat (List.ofFn (0 : Fin K → Poly))))
  ct1Commitment := buildPolyCommitment (sampleBackend.outputFingerprint
    (flat (List.ofFn (0 : Fin K → Poly))))
  inttCommitment := buildPolyCommitment (sampleBackend.outputFingerprint
    (flat (List.ofFn (0 : Fin K → Poly) ++ List.ofFn (0 : Fin K → Poly))))
  wpCommitment := buildPolyCommitment (sampleBackend.outputFingerprint
    (flat (List.ofFn (0 : Fin K → Poly))))
  normCommitment := norm
  useHintCommitment := buildPolyCommitment (sampleBackend.outputFingerprint
    (flat (List.ofFn (0 : Fin K → Poly)) ++ [0]))
  zHat := zHat
  cHat := 0
  t1Hat := List.ofFn (0 : Fin K → Poly)
  azHat := List.ofFn (0 : Fin K → Poly)
  ct1Hat := List.ofFn (0 : Fin K → Poly)
  azOut := List.ofFn (0 : Fin K → Poly)
  ct1Out := List.ofFn (0 : Fin K → Poly)
  wPrime := List.ofFn (0 : Fin K → Poly)
  output := List.ofFn (0 : Fin K → Poly)
  hintWeightTotal := 0
  merkleRoot := []
  cTilde := cTilde

section Sealed

variable {proof norm : List UInt8} {zHat : List Poly} {cTilde : List UInt8}

theorem sealed_handedOn (sized : zHat.length = L) :
    HandedOn (sealedBundle proof norm zHat cTilde)
      ((sealedBundle proof norm zHat cTilde).arguments 0 0 0 0 0 0) where
  zCount := sized
  t1Count := List.length_ofFn
  azHat := rfl
  ct1Hat := rfl
  azOut := rfl
  ct1Out := rfl
  wPrime := rfl
  w1Out := rfl
  hints := Nat.zero_le _
  rest := rfl

theorem sealed_past (sized : zHat.length = L)
    (parsed : sampleBackend.parsePolyCommitment norm = .ok [10, 0, 0, 0]) :
    sampleBackend.PastChecks (sealedBundle proof norm zHat cTilde)
      (sampleBackend.operations ((sealedBundle proof norm zHat cTilde).arguments 0 0 0 0 0 0)
        [10, 0, 0, 0] () ()) := by
  refine ⟨_, (), handedOn_iff.mpr (sealed_handedOn sized), ?_⟩
  apply WitnessBackend.replay_eq_some.mpr
  exact ⟨⟨rfl, rfl, rfl, rfl, rfl, rfl⟩, [10, 0, 0, 0], (), [], parsed, rfl, rfl, rfl⟩

/-- Coefficients that are hashed as zeros. -/
def Quiet (coeffs : List (BitVec 64)) : Prop := ∀ c ∈ coeffs, c.setWidth 32 = 0

theorem Quiet.hashedBytes {coeffs : List (BitVec 64)} (quiet : Quiet coeffs) :
    hashedBytes coeffs = List.replicate (4 * coeffs.length) 0 := by
  induction coeffs with
  | nil => rfl
  | cons c rest ih =>
      rw [Quiet, List.forall_mem_cons] at quiet
      have zero : toLeBytes (asU32 c) = List.replicate 4 0 := by
        rw [asU32, quiet.1]
        rfl
      rw [Mldsa.hashedBytes, List.flatMap_cons, zero, List.length_cons, Nat.mul_succ, Nat.add_comm,
        List.replicate_add]
      exact congrArg _ (ih quiet.2)

theorem quiet_flat {polys : List Poly} (zeros : ∀ p ∈ polys, low p = 0) : Quiet (flat polys) := by
  intro c member
  rcases List.mem_flatMap.mp member with ⟨p, own, inside⟩
  rcases List.mem_ofFn.mp inside with ⟨i, rfl⟩
  exact congrFun (zeros p own) i

theorem flat_sized (polys : List Poly) : (flat polys).length = N * polys.length :=
  flatMap_length (fun _ => List.length_ofFn) polys

theorem quiet_zeros : Quiet (flat (List.ofFn (0 : Fin K → Poly))) := by
  apply quiet_flat
  intro p member
  rcases List.mem_ofFn.mp member with ⟨i, rfl⟩
  rfl

theorem Quiet.append {first second : List (BitVec 64)} (quiet : Quiet first)
    (quiet' : Quiet second) : Quiet (first ++ second) := by
  intro c member
  exact (List.mem_append.mp member).elim (quiet c) (quiet' c)

theorem quiet_zero : Quiet (List.ofFn (0 : Poly)) := by
  intro c member
  rcases List.mem_ofFn.mp member with ⟨i, rfl⟩
  rfl

/-- The coefficients hashed for a sealed bundle. -/
theorem sealed_hashed (sized : zHat.length = L) (zeros : ∀ p ∈ zHat, low p = 0)
    {coeffs : List (BitVec 64)}
    (member : coeffs ∈ ((sealedBundle proof norm zHat cTilde).arguments 0 0 0 0 0 0).hashed) :
    Quiet coeffs ∧ 4 * coeffs.length ∈ [1024, 6144, 6148, 12288] := by
  have array : (flat (List.ofFn (0 : Fin K → Poly))).length = 1536 := by
    rw [flat_sized, List.length_ofFn]
    rfl
  have single : (List.ofFn (0 : Poly)).length = 256 := List.length_ofFn
  have first : (flat zHat).length = 1280 := by
    rw [flat_sized, sized]
    rfl
  have double := quiet_zeros.append quiet_zeros
  have joined : flat (List.ofFn (0 : Fin K → Poly) ++ List.ofFn (0 : Fin K → Poly)) =
      flat (List.ofFn (0 : Fin K → Poly)) ++ flat (List.ofFn (0 : Fin K → Poly)) :=
    List.flatMap_append
  simp only [FullWitness.hashed, List.mem_append, List.mem_cons, List.not_mem_nil, or_false,
    List.mem_map] at member
  rcases member with ((rfl | rfl | rfl) | ⟨p, own, rfl⟩) | rfl | rfl | rfl
  · refine ⟨((quiet_flat zeros).append quiet_zero).append quiet_zeros, ?_⟩
    simp [FullWitness.nttOut, VerifyMldsaProofV23.arguments, sealedBundle, first, single, array]
  · exact ⟨quiet_zeros, by simp [VerifyMldsaProofV23.arguments, array]⟩
  · exact ⟨quiet_zeros, by simp [VerifyMldsaProofV23.arguments, array]⟩
  · have zero : p = 0 := by
      rcases List.mem_append.mp own with own | own
      · rcases List.mem_ofFn.mp own with ⟨i, rfl⟩
        rfl
      · rcases List.mem_ofFn.mp own with ⟨i, rfl⟩
        rfl
    rw [zero, single]
    exact ⟨quiet_zero, by decide⟩
  · refine ⟨joined ▸ double, ?_⟩
    simp [VerifyMldsaProofV23.arguments, joined, array]
  · exact ⟨quiet_zeros, by simp [VerifyMldsaProofV23.arguments, array]⟩
  · refine ⟨quiet_zeros.append ?_, ?_⟩
    · intro c inside
      rw [List.mem_singleton.mp inside]
      rfl
    · simp [FullWitness.uhFlat, VerifyMldsaProofV23.arguments, array]

/-- The strings hashed for a sealed bundle are the four strings of zeros. -/
theorem sealed_strings (sized : zHat.length = L) (zeros : ∀ p ∈ zHat, low p = 0)
    {bytes : List UInt8} (hashed : bytes ∈ hashedStrings (sealedBundle proof norm zHat cTilde)) :
    ∃ length ∈ [1024, 6144, 6148, 12288], bytes = List.replicate length 0 := by
  rcases hashed with ⟨w, found, coeffs, member, rfl⟩
  have known := handedOn_iff.mpr (@sealed_handedOn proof norm zHat cTilde sized)
  cases found.symm.trans known
  rcases sealed_hashed sized zeros member with ⟨quiet, length⟩
  exact ⟨_, length, quiet.hashedBytes⟩

end Sealed

theorem zeros_apart : ∀ n ∈ [1024, 6144, 6148, 12288], ∀ m ∈ [1024, 6144, 6148, 12288],
    reducedWords (zerosBlake2s n) = reducedWords (zerosBlake2s m) → n = m := by
  decide +kernel

theorem sealed_injective {proof norm proof' norm' cTilde cTilde' : List UInt8}
    {zHat zHat' : List Poly}
    (sized : zHat.length = L) (sized' : zHat'.length = L) (zeros : ∀ p ∈ zHat, low p = 0)
    (zeros' : ∀ p ∈ zHat', low p = 0) :
    Set.InjOn sampleBackend.digest
      (hashedStrings (sealedBundle proof norm zHat cTilde) ∪
        hashedStrings (sealedBundle proof' norm' zHat' cTilde')) := by
  have strings : ∀ bytes ∈ hashedStrings (sealedBundle proof norm zHat cTilde) ∪
      hashedStrings (sealedBundle proof' norm' zHat' cTilde'),
      ∃ length ∈ [1024, 6144, 6148, 12288], bytes = List.replicate length 0 := by
    rintro bytes (own | own)
    · exact sealed_strings sized zeros own
    · exact sealed_strings sized' zeros' own
  intro first inside second within same
  rcases strings first inside with ⟨n, known, rfl⟩
  rcases strings second within with ⟨m, known', rfl⟩
  have digests : ∀ length, sampleBackend.digest (List.replicate length 0) =
      reducedWords (zerosBlake2s length) := by
    intro length
    change reducedWords (zerosBlake2s (List.replicate length (0 : UInt8)).length) = _
    rw [List.length_replicate]
  rw [digests, digests] at same
  rw [zeros_apart n known m known' same]

/-- A norm commitment with a hexadecimal letter, which both cases spell. -/
def lowerNorm : List UInt8 := 48 :: 97 :: List.replicate 30 48

def upperNorm : List UInt8 := 48 :: 65 :: List.replicate 30 48

theorem lowerNorm_parsed : sampleBackend.parsePolyCommitment lowerNorm = .ok [10, 0, 0, 0] := by
  decide +kernel

theorem upperNorm_parsed : sampleBackend.parsePolyCommitment upperNorm = .ok [10, 0, 0, 0] := by
  decide +kernel

def zeroZHat : List Poly := [0, 0, 0, 0, 0]

/-- A coefficient beyond the words. -/
def liftedZHat : List Poly := [fun i => if i.val = 0 then 2 ^ 32 else 0, 0, 0, 0, 0]

theorem zeroZHat_low : ∀ p ∈ zeroZHat, low p = 0 := by
  intro p member
  rw [List.eq_of_mem_replicate (n := 5) member]
  rfl

theorem liftedZHat_low : ∀ p ∈ liftedZHat, low p = 0 := by
  intro p member
  rcases List.mem_cons.mp member with rfl | later
  · funext i
    rw [low]
    split <;> rfl
  · rw [List.eq_of_mem_replicate (n := 4) later]
    rfl

/-- A last zero byte and a multiple of `2 ^ 32` do not show in the transcript. -/
theorem lifted_congruent :
    Congruent (sealedBundle [] lowerNorm zeroZHat [1])
      (sealedBundle [] lowerNorm liftedZHat [1, 0]) where
  seeds := by decide
  zHat := (List.map_eq_replicate_iff.mpr zeroZHat_low).trans
    (List.map_eq_replicate_iff.mpr liftedZHat_low).symm
  cHat := rfl
  t1Hat := rfl
  azHat := rfl
  ct1Hat := rfl
  azOut := rfl
  ct1Out := rfl
  wPrime := rfl
  output := rfl
  hintWeightTotal := rfl

/-- A transcript determines the number of hints, the coefficients modulo `2 ^ 32` and the words
of the byte strings, and with the lengths of the strings and coefficients that are words it
determines every public value. -/
theorem transcript_binds {backend : WitnessBackend} {b b' : VerifyMldsaProofV23}
    {ops ops' : List (ChannelOp backend.Root)}
    (injective : Set.InjOn backend.digest (hashedStrings b ∪ hashedStrings b'))
    (past : backend.PastChecks b ops) (past' : backend.PastChecks b' ops') :
    (wordLists ops = wordLists ops' ↔
      backend.parsePolyCommitment b.normCommitment =
        backend.parsePolyCommitment b'.normCommitment ∧ Congruent b b') ∧
    (wordLists ops = wordLists ops' → b.cTilde.length = b'.cTilde.length →
      b.merkleRoot.length = b'.merkleRoot.length → WordSized b → WordSized b' →
        SamePublic b b') := by
  have determined := wordLists_eq_iff injective past past'
  refine ⟨determined, ?_⟩
  intro same cTilde merkleRoot sized sized'
  exact (determined.mp same).2.samePublic cTilde merkleRoot sized sized'

/-- Public values that are no words, or strings that end in a zero, are not determined. -/
theorem transcript_not_binding :
    ¬ ∀ (backend : WitnessBackend) (b b' : VerifyMldsaProofV23)
      (ops ops' : List (ChannelOp backend.Root)),
      Set.InjOn backend.digest (hashedStrings b ∪ hashedStrings b') →
        backend.PastChecks b ops → backend.PastChecks b' ops' →
          wordLists ops = wordLists ops' → SamePublic b b' := by
  intro claimed
  have injective := @sealed_injective [] lowerNorm [] lowerNorm [1] [1, 0] zeroZHat liftedZHat
    rfl rfl zeroZHat_low liftedZHat_low
  have past := @sealed_past [] lowerNorm zeroZHat [1] rfl lowerNorm_parsed
  have past' := @sealed_past [] lowerNorm liftedZHat [1, 0] rfl lowerNorm_parsed
  have same := (wordLists_eq_iff injective past past').mpr ⟨rfl, lifted_congruent⟩
  have agree := claimed sampleBackend _ _ _ _ injective past past' same
  exact absurd agree.cTilde (by decide)

theorem zeros_wordSized {proof norm cTilde : List UInt8} :
    WordSized (sealedBundle proof norm zeroZHat cTilde) := by
  have range : ∀ i, 0 ≤ ((0 : Poly) i).toInt ∧ ((0 : Poly) i).toInt < 2 ^ 32 := by
    intro i
    change 0 ≤ (0 : BitVec 64).toInt ∧ (0 : BitVec 64).toInt < 2 ^ 32
    decide
  have array : ∀ p ∈ List.ofFn (0 : Fin K → Poly), ∀ i, 0 ≤ (p i).toInt ∧ (p i).toInt < 2 ^ 32 := by
    intro p member
    rcases List.mem_ofFn.mp member with ⟨i, rfl⟩
    exact range
  have first : ∀ p ∈ zeroZHat, ∀ i, 0 ≤ (p i).toInt ∧ (p i).toInt < 2 ^ 32 := by
    intro p member
    rw [List.eq_of_mem_replicate (n := 5) member]
    exact range
  have single : ∀ p ∈ [(0 : Poly)], ∀ i, 0 ≤ (p i).toInt ∧ (p i).toInt < 2 ^ 32 := by
    intro p member
    rw [List.mem_singleton.mp member]
    exact range
  simp only [WordSized, VerifyMldsaProofV23.polys, List.forall_mem_append]
  exact ⟨⟨⟨⟨⟨⟨⟨⟨first, single⟩, array⟩, array⟩, array⟩, array⟩, array⟩, array⟩, array⟩

/-- Two bundles with other bytes of a proof and another text of the norm commitment. -/
theorem resent_congruent :
    Congruent (sealedBundle [] lowerNorm zeroZHat [1])
      (sealedBundle [7] upperNorm zeroZHat [1]) where
  seeds := rfl
  zHat := rfl
  cHat := rfl
  t1Hat := rfl
  azHat := rfl
  ct1Hat := rfl
  azOut := rfl
  ct1Out := rfl
  wPrime := rfl
  output := rfl
  hintWeightTotal := rfl

/-- A bundle and the lifted one mix the same words. So do a bundle and one with another proof
and another text of the norm commitment, and these two agree on every public value. -/
theorem lifted_transcript :
    wordLists (sampleBackend.operations
        ((sealedBundle [] lowerNorm zeroZHat [1]).arguments 0 0 0 0 0 0) [10, 0, 0, 0] () ()) =
      wordLists (sampleBackend.operations
        ((sealedBundle [] lowerNorm liftedZHat [1, 0]).arguments 0 0 0 0 0 0)
        [10, 0, 0, 0] () ()) ∧
    sealedBundle [] lowerNorm zeroZHat [1] ≠ sealedBundle [7] upperNorm zeroZHat [1] ∧
    SamePublic (sealedBundle [] lowerNorm zeroZHat [1])
      (sealedBundle [7] upperNorm zeroZHat [1]) := by
  have lifted := transcript_binds
    (@sealed_injective [] lowerNorm [] lowerNorm [1] [1, 0] zeroZHat liftedZHat rfl rfl
      zeroZHat_low liftedZHat_low)
    (sealed_past rfl lowerNorm_parsed) (sealed_past rfl lowerNorm_parsed)
  have resent := transcript_binds
    (@sealed_injective [] lowerNorm [7] upperNorm [1] [1] zeroZHat zeroZHat rfl rfl zeroZHat_low
      zeroZHat_low)
    (sealed_past rfl lowerNorm_parsed) (sealed_past rfl upperNorm_parsed)
  have same := resent.1.mpr ⟨lowerNorm_parsed.trans upperNorm_parsed.symm, resent_congruent⟩
  refine ⟨lifted.1.mpr ⟨rfl, lifted_congruent⟩, ?_, ?_⟩
  · intro bundles
    exact absurd (congrArg VerifyMldsaProofV23.proofCombined bundles) (by simp [sealedBundle])
  · exact resent.2 same rfl rfl zeros_wordSized zeros_wordSized

end Mldsa
end QLSA
