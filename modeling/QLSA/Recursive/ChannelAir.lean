import QLSA.Chain.RoundBlocks
import QLSA.Recursive.CommittedTraces

namespace QLSA
namespace Recursive
namespace ChannelAir

open Chain Mersenne Stwo

/-!
# The circuit of a transcript

Each block of eight rows absorbs one word of a transcript.  The verifier pins
the preprocessed columns; the number of words and the digest it is given are
mixed into its own transcript and meet no constraint.
-/

def minLogSize : ℕ := 3

def maxLogSize : ℕ := 24

/-- `sponge_absorb`. -/
def spongeAbsorb (words : List ℕ) : ℕ × ℕ :=
  words.foldl (fun s w => permute (m31Add s.1 (w % P), s.2)) (0, 0)

theorem spongeAbsorb_eq (words : List ℕ) : spongeAbsorb words = poseidon2Chain words := rfl

/-- Main columns of one row, with the state words of the previous row. -/
structure MainRow (F : Type*) extends Chain.RoundRow F where
  s0Prev : F
  s1Prev : F
  word : F

/-- Preprocessed columns of one row. -/
structure PreprocRow (F : Type*) where
  rc0 : F
  rc1 : F
  isInit : F
  isFirst : F

/-- `ChannelEval::evaluate`. -/
def evaluate {F : Type*} [CommRing F] (pre : PreprocRow F) (row : MainRow F) : List F :=
  let notFirst := 1 - pre.isFirst
  let prevS0 := notFirst * row.s0Prev
  let prevS1 := notFirst * row.s1Prev
  roundCore pre.rc0 pre.rc1 row.toRoundRow ++
    wiring pre.isInit (prevS0, prevS1) row.word (row.s0Prev, row.s1Prev) row.toRoundRow

/-- The columns of a round. -/
def roundRow (main : Columns) (row : ℕ) : Chain.RoundRow M31 :=
  ⟨main 0 row, main 1 row, main 2 row, main 3 row, main 4 row, main 5 row⟩

/-- Row of the main trace; columns in the order of the source. -/
def mainRow (logSize : ℕ) (main : Columns) (row : ℕ) : MainRow M31 where
  toRoundRow := roundRow main row
  s0Prev := main 0 (previousRow logSize row)
  s1Prev := main 1 (previousRow logSize row)
  word := main 6 row

/-- Row of the preprocessed trace. -/
def preprocRow (pre : Columns) (row : ℕ) : PreprocRow M31 :=
  ⟨pre 0 row, pre 1 row, pre 2 row, pre 3 row⟩

/-- `build_preproc` of a trace of one block or more. -/
def buildPreproc : Columns := fun column row =>
  match column with
  | 0 => m31 (roundConstants (row % nRounds)).1
  | 1 => m31 (roundConstants (row % nRounds)).2
  | 2 => if row % nRounds = 0 then 1 else 0
  | 3 => if row = 0 then 1 else 0
  | _ => 0

/-- Every constraint holds on every row. -/
def Satisfies (logSize : ℕ) (pre main : Columns) : Prop :=
  ∀ row < 2 ^ logSize, Vanish (evaluate (preprocRow pre row) (mainRow logSize main row))

instance (logSize : ℕ) (pre main : Columns) : Decidable (Satisfies logSize pre main) :=
  inferInstanceAs (Decidable (∀ row < 2 ^ logSize, _))

theorem readsRows : ReadsRows 4 7 Satisfies := by
  intro logSize pre otherPre main otherMain samePre sameMain satisfies row inside
  have before : previousRow logSize row < 2 ^ logSize := Nat.mod_lt _ (Nat.two_pow_pos _)
  have preproc : preprocRow pre row = preprocRow otherPre row := by
    simp [preprocRow, samePre _ _ row inside]
  have cells : mainRow logSize main row = mainRow logSize otherMain row := by
    simp [mainRow, roundRow, sameMain _ _ row inside, sameMain _ _ _ before]
  rw [← preproc, ← cells]
  exact satisfies row inside

/-- Words absorbed by the first blocks. -/
def wordsOf (main : Columns) (n : ℕ) : List ℕ :=
  (List.range n).map fun i => (main 6 (nRounds * i)).val

/-- State words on a row. -/
def stateAt (main : Columns) (row : ℕ) : ℕ × ℕ := ((main 0 row).val, (main 1 row).val)

/-- On the pinned columns the constraints are those of a sponge that starts with zeros. -/
theorem vanish_evaluate {logSize row : ℕ} {main : Columns} (inside : row < 2 ^ logSize) :
    Vanish (evaluate (preprocRow buildPreproc row) (mainRow logSize main row)) ↔
      SpongeRow logSize (0, 0) (fun k => main 6 (nRounds * k)) (roundRow main) row := by
  have columns : evaluate (preprocRow buildPreproc row) (mainRow logSize main row) =
      roundCore (m31 (roundConstants (row % nRounds)).1) (m31 (roundConstants (row % nRounds)).2)
        (roundRow main row) ++
      wiring (if row % nRounds = 0 then 1 else 0)
        ((1 - if row = 0 then 1 else 0) * main 0 (previousRow logSize row),
          (1 - if row = 0 then 1 else 0) * main 1 (previousRow logSize row))
        (main 6 row) (roundRow main (previousRow logSize row)).out (roundRow main row) := rfl
  rw [columns, vanish_append, vanish_wiring, spongeRow_iff]
  apply and_congr_right
  intro _
  by_cases first : row % nRounds = 0
  · have gated := gated_entering (0, 0) (roundRow main) first inside
    have fed : nRounds * (row / nRounds) = row :=
      Nat.mul_div_cancel' (Nat.dvd_of_mod_eq_zero first)
    simp only [mul_zero, zero_add] at gated
    rw [if_pos first, if_pos first, ← gated, fed]
    rfl
  · rw [if_neg first, if_neg first]

/-! ## The verifier -/

/-- `verify_channel`. -/
def verifyChannel (system : ProofSystem Columns) (proofBytes : List UInt8) (logSize nWords : ℕ)
    (digest : ℕ × ℕ) : Except String Bool :=
  system.verifyPinned minLogSize maxLogSize buildPreproc
    [nWords, digest.1 % P, digest.2 % P] proofBytes logSize

/-- The trace has absorbed this many words and ends in the digest, which is that of
its words. -/
def Attests (logSize : ℕ) (main : Columns) (nWords : ℕ) (digest : ℕ × ℕ) : Prop :=
  nRounds * nWords ≤ 2 ^ logSize ∧ digest = stateAt main (nRounds * nWords - 1) ∧
    digest = spongeAbsorb (wordsOf main nWords)

/-- A satisfying trace holds the digest of its words at the end of each block. -/
theorem stateAt_eq {logSize n : ℕ} {main : Columns}
    (satisfies : Satisfies logSize buildPreproc main) (positive : 1 ≤ n)
    (inside : nRounds * n ≤ 2 ^ logSize) :
    stateAt main (nRounds * n - 1) = spongeAbsorb (wordsOf main n) := by
  have sponge := fun row inside => (vanish_evaluate inside).mp (satisfies row inside)
  have states := entering_eq sponge n inside
  rw [entering, if_neg (Nat.one_le_iff_ne_zero.mp positive), fieldStates_zero] at states
  have words : (wordsOf main n).map (fun word : ℕ => (word : M31)) =
      (List.range n).map fun k => main 6 (nRounds * k) := by
    simp [wordsOf]
  rw [spongeAbsorb_eq, poseidon2Chain_eq, words, ← states]
  rfl

/-! ## The prover's trace -/

/-- Word of a block; blocks beyond the words absorb zero. -/
def wordAt (words : List ℕ) (i : ℕ) : ℕ :=
  if i < words.length then words.getD i 0 % P else 0

/-- Main columns of `build_trace`. -/
def mainColumns (words : List ℕ) : Columns := fun column row =>
  let cells := honestRow (blockInput (0, 0) (wordAt words)) row
  match column with
  | 0 => cells.s0
  | 1 => cells.s1
  | 2 => cells.t0
  | 3 => cells.t1
  | 4 => cells.inp0
  | 5 => cells.inp1
  | 6 => if row % nRounds = 0 then m31 (wordAt words (row / nRounds)) else 0
  | _ => 0

/-- `build_trace`: main and preprocessed columns, and the state after the last word. -/
def buildTrace (words : List ℕ) (logSize : ℕ) : Columns × Columns × (ℕ × ℕ) :=
  let last := max words.length 1
  let digest :=
    if last ≤ 2 ^ logSize / nRounds then blockStates (0, 0) (wordAt words) last else (0, 0)
  (mainColumns words, buildPreproc, digest)

theorem wordAt_canonical (words : List ℕ) (i : ℕ) : Canonical (wordAt words i) := by
  rw [wordAt]
  split
  case isTrue => exact Nat.mod_lt _ (by decide)
  case isFalse => exact (by decide : 0 < P)

/-- The prover's trace satisfies the circuit. -/
theorem mainColumns_satisfies (words : List ℕ) (logSize : ℕ) :
    Satisfies logSize buildPreproc (mainColumns words) := by
  intro row inside
  apply (vanish_evaluate inside).mpr
  have feed : (fun k => mainColumns words 6 (nRounds * k)) = fun k => (wordAt words k : M31) := by
    funext k
    simp [mainColumns, nRounds]
  have sponge := honestRow_sponge reduced_zero (fun k _ => wordAt_canonical words k) inside
  rw [residuePair_zero] at sponge
  rw [feed]
  exact sponge

/-- The states between the prover's blocks are digests of the words so far. -/
theorem blockStates_words {words : List ℕ} {k : ℕ} (inside : k ≤ words.length) :
    blockStates (0, 0) (wordAt words) k = spongeAbsorb (words.take k) := by
  induction k with
  | zero => rfl
  | succ k ih =>
      have found : words.getD k 0 = words[k] := by
        rw [List.getD_eq_getElem?_getD, List.getElem?_eq_getElem inside, Option.getD_some]
      have word : wordAt words k = words[k] % P := by
        rw [wordAt, if_pos (Nat.lt_of_succ_le inside), found]
      rw [blockStates, ih (by omega), word, List.take_succ_eq_append_getElem inside]
      simp only [spongeAbsorb, List.foldl_append, List.foldl_cons, List.foldl_nil]

/-- The prover of a transcript that fits publishes its digest. -/
theorem buildTrace_digest {words : List ℕ} {logSize : ℕ} (nonempty : words ≠ [])
    (fits : nRounds * words.length ≤ 2 ^ logSize) :
    (buildTrace words logSize).2.2 = spongeAbsorb words := by
  have positive := List.length_pos_iff.mpr nonempty
  have last : max words.length 1 = words.length := max_eq_left positive
  have capacity : words.length ≤ 2 ^ logSize / nRounds :=
    (Nat.le_div_iff_mul_le (by decide)).mpr (Nat.mul_comm nRounds _ ▸ fits)
  simp only [buildTrace, last, if_pos capacity]
  rw [blockStates_words le_rfl, List.take_length]

/-! ## Runs of an honest prover -/

/-- Cell of a word that the prover absorbs. -/
theorem mainColumns_word {words : List ℕ} {k : ℕ} (inside : k < words.length) :
    mainColumns words 6 (nRounds * k) = (words[k] : M31) := by
  have found : words.getD k 0 = words[k] := by
    rw [List.getD_eq_getElem?_getD, List.getElem?_eq_getElem inside, Option.getD_some]
  have place : nRounds * k / nRounds = k := Nat.mul_div_cancel_left k (by decide)
  simp only [mainColumns, Nat.mul_mod_right, if_true, place, wordAt, if_pos inside, found,
    m31_eq_cast, ZMod.natCast_mod]

/-- The rows agree in the cells that the constraints see: the word column counts on the
first row of a block only. -/
def SameRow (main other : Columns) (row : ℕ) : Prop :=
  roundRow main row = roundRow other row ∧ (row % nRounds = 0 → main 6 row = other 6 row)

/-- The proof is one of an honest prover: the trace starts with the rows that
`build_trace` fills for some words, and the count and the digest mixed into the
transcript are that of the words and the one returned with the rows.  What follows,
where an honest prover absorbs zeros, is left open. -/
def HonestRun (logSize : ℕ) (main : Columns) (nWords : ℕ) (digest : ℕ × ℕ) : Prop :=
  ∃ words columns pre, buildTrace words logSize = (columns, pre, digest) ∧
    words.length = nWords ∧ nRounds * nWords ≤ 2 ^ logSize ∧
    ∀ row < nRounds * nWords, SameRow main columns row

/-- What the prover returns is an honest run. -/
theorem honestRun_buildTrace {words : List ℕ} {logSize : ℕ}
    (fits : nRounds * words.length ≤ 2 ^ logSize) :
    HonestRun logSize (mainColumns words) words.length (buildTrace words logSize).2.2 :=
  ⟨words, _, _, rfl, rfl, fits, fun _ _ => ⟨rfl, fun _ => rfl⟩⟩

section HonestRun

variable {logSize n : ℕ} {digest : ℕ × ℕ} {main : Columns}
  (satisfies : Satisfies logSize buildPreproc main) (positive : 1 ≤ n)
include satisfies positive

/-- A satisfying trace has the rows that the prover fills for the words it absorbs. -/
theorem honestRun_of_attests (attests : Attests logSize main n digest) :
    HonestRun logSize main n digest := by
  rcases attests with ⟨inside, -, honest⟩
  have length : (wordsOf main n).length = n := by
    rw [wordsOf, List.length_map, List.length_range]
  have nonempty : wordsOf main n ≠ [] := by
    rw [← List.length_pos_iff, length]
    exact positive
  have feeds : ∀ k < n, main 6 (nRounds * k) = mainColumns (wordsOf main n) 6 (nRounds * k) := by
    intro k before
    rw [mainColumns_word (by rw [length]; exact before)]
    simp [wordsOf]
  have sponge := fun row inside => (vanish_evaluate inside).mp (satisfies row inside)
  have own := fun row inside =>
    (vanish_evaluate inside).mp (mainColumns_satisfies (wordsOf main n) logSize row inside)
  have returned := buildTrace_digest nonempty (by rw [length]; exact inside)
  refine ⟨wordsOf main n, _, _, by rw [honest, ← returned], length, inside, ?_⟩
  intro row before
  refine ⟨sponge_rows_unique sponge own inside feeds row before, ?_⟩
  intro first
  have fed : nRounds * (row / nRounds) = row :=
    Nat.mul_div_cancel' (Nat.dvd_of_mod_eq_zero first)
  have cell := feeds (row / nRounds) (Nat.div_lt_of_lt_mul before)
  rwa [fed] at cell

/-- The digest of an honest run is the state after the last of its rows. -/
theorem HonestRun.attests (honest : HonestRun logSize main n digest) :
    Attests logSize main n digest := by
  rcases honest with ⟨words, columns, pre, built, rfl, inside, rows⟩
  have nonempty : words ≠ [] := List.length_pos_iff.mp positive
  have returned := buildTrace_digest nonempty inside
  rw [built] at returned
  have trace : columns = mainColumns words := (congrArg Prod.fst built).symm
  have residues : (wordsOf main words.length).map (fun word : ℕ => (word : M31)) =
      words.map fun word : ℕ => (word : M31) := by
    apply List.ext_getElem
    · simp [wordsOf]
    · intro k first second
      have before : k < words.length := by simpa using second
      have start : nRounds * k < nRounds * words.length :=
        Nat.mul_lt_mul_of_pos_left before (by decide)
      have cell := (rows _ start).2 (Nat.mul_mod_right nRounds k)
      rw [trace, mainColumns_word before] at cell
      simp [wordsOf, cell]
  have digests : digest = spongeAbsorb (wordsOf main words.length) := by
    refine returned.trans ?_
    rw [spongeAbsorb_eq, spongeAbsorb_eq, poseidon2Chain_eq, poseidon2Chain_eq, residues]
  exact ⟨inside, digests.trans (stateAt_eq satisfies positive inside).symm, digests⟩

end HonestRun

/-- An accepted transcript is attested just when the proof is one of an honest prover
of as many words. -/
theorem verifyChannel_attests {system : ProofSystem Columns} {columns : system.Root → Columns}
    (opens : system.Opens columns 4 Satisfies) {proofBytes : List UInt8} {logSize n : ℕ}
    {digest : ℕ × ℕ} (positive : 1 ≤ n)
    (accepted : verifyChannel system proofBytes logSize n digest = .ok true) :
    ∃ proof root, system.decode proofBytes = .ok proof ∧
      (system.commitments proof)[1]? = some root ∧
      (Attests logSize (columns root) n digest ↔ HonestRun logSize (columns root) n digest) := by
  rcases opens.satisfies readsRows accepted with ⟨-, proof, root, decoded, found, satisfies⟩
  exact ⟨proof, root, decoded, found, honestRun_of_attests satisfies positive,
    HonestRun.attests satisfies positive⟩

end ChannelAir
end Recursive
end QLSA
