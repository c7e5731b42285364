import QLSA.Recursive.ChannelAir

namespace QLSA
namespace Recursive
namespace TranscriptDraw

open Chain Mersenne Stwo

/-!
# The circuit of drawn words

Each block of eight rows squeezes two words and permutes the state with the number
of the draw added.  Here the digest is pinned with the preprocessed columns, and a
trace that satisfies them squeezes what the sponge squeezes from it.  The number of
draws is only mixed into the transcript of the verifier.
-/

def minLogSize : ℕ := 3

def maxLogSize : ℕ := 24

/-- `draw_chain`: the squeezed pairs and the state after them. -/
def drawChain (digest : ℕ × ℕ) (m : ℕ) : List (ℕ × ℕ) × (ℕ × ℕ) :=
  (List.range m).foldl (fun (out, s) i => (out ++ [s], permute (m31Add s.1 i, s.2)))
    ([], (digest.1 % P, digest.2 % P))

/-- Main columns of one row, with the state words of the previous row. -/
structure MainRow (F : Type*) extends Chain.RoundRow F where
  s0Prev : F
  s1Prev : F
  w0 : F
  w1 : F

/-- Preprocessed columns of one row. -/
structure PreprocRow (F : Type*) where
  rc0 : F
  rc1 : F
  isInit : F
  isFirst : F
  ndraws : F
  dig0 : F
  dig1 : F

/-- `TranscriptDrawEval::evaluate`. -/
def evaluate {F : Type*} [CommRing F] (pre : PreprocRow F) (row : MainRow F) : List F :=
  let notFirst := 1 - pre.isFirst
  let cur0 := pre.isFirst * pre.dig0 + notFirst * row.s0Prev
  let cur1 := pre.isFirst * pre.dig1 + notFirst * row.s1Prev
  roundCore pre.rc0 pre.rc1 row.toRoundRow ++
    [pre.isInit * (row.w0 - cur0), pre.isInit * (row.w1 - cur1)] ++
    wiring pre.isInit (cur0, cur1) pre.ndraws (row.s0Prev, row.s1Prev) row.toRoundRow

/-- Row of the main trace; columns in the order of the source. -/
def mainRow (logSize : ℕ) (main : Columns) (row : ℕ) : MainRow M31 where
  toRoundRow := ChannelAir.roundRow main row
  s0Prev := main 0 (previousRow logSize row)
  s1Prev := main 1 (previousRow logSize row)
  w0 := main 6 row
  w1 := main 7 row

/-- Row of the preprocessed trace. -/
def preprocRow (pre : Columns) (row : ℕ) : PreprocRow M31 :=
  ⟨pre 0 row, pre 1 row, pre 2 row, pre 3 row, pre 4 row, pre 5 row, pre 6 row⟩

/-- `build_preproc` of a trace of one block or more. -/
def buildPreproc (digest : ℕ × ℕ) : Columns := fun column row =>
  match column with
  | 0 => m31 (roundConstants (row % nRounds)).1
  | 1 => m31 (roundConstants (row % nRounds)).2
  | 2 => if row % nRounds = 0 then 1 else 0
  | 3 => if row = 0 then 1 else 0
  | 4 => if row % nRounds = 0 then m31 (row / nRounds) else 0
  | 5 => m31 digest.1
  | 6 => m31 digest.2
  | _ => 0

/-- Every constraint holds on every row. -/
def Satisfies (logSize : ℕ) (pre main : Columns) : Prop :=
  ∀ row < 2 ^ logSize, Vanish (evaluate (preprocRow pre row) (mainRow logSize main row))

instance (logSize : ℕ) (pre main : Columns) : Decidable (Satisfies logSize pre main) :=
  inferInstanceAs (Decidable (∀ row < 2 ^ logSize, _))

theorem readsRows : ReadsRows 7 8 Satisfies := by
  intro logSize pre otherPre main otherMain samePre sameMain satisfies row inside
  have before : previousRow logSize row < 2 ^ logSize := Nat.mod_lt _ (Nat.two_pow_pos _)
  have preproc : preprocRow pre row = preprocRow otherPre row := by
    simp [preprocRow, samePre _ _ row inside]
  have cells : mainRow logSize main row = mainRow logSize otherMain row := by
    simp [mainRow, ChannelAir.roundRow, sameMain _ _ row inside, sameMain _ _ _ before]
  rw [← preproc, ← cells]
  exact satisfies row inside

/-- The words squeezed on the first row of a block are the state it starts from. -/
def Squeezes (digest : ℕ × ℕ) (main : Columns) (row : ℕ) : Prop :=
  row % nRounds = 0 → (main 6 row, main 7 row) =
    entering (residuePair digest) (ChannelAir.roundRow main) (row / nRounds)

/-- On the pinned columns the constraints are those of a sponge that starts with the
digest and is fed the numbers of the draws. -/
theorem vanish_evaluate {logSize row : ℕ} {digest : ℕ × ℕ} {main : Columns}
    (inside : row < 2 ^ logSize) :
    Vanish (evaluate (preprocRow (buildPreproc digest) row) (mainRow logSize main row)) ↔
      SpongeRow logSize (residuePair digest) (fun k => (k : M31)) (ChannelAir.roundRow main) row ∧
        Squeezes digest main row := by
  let cur : M31 × M31 :=
    ((if row = 0 then 1 else 0) * m31 digest.1 +
        (1 - if row = 0 then 1 else 0) * main 0 (previousRow logSize row),
      (if row = 0 then 1 else 0) * m31 digest.2 +
        (1 - if row = 0 then 1 else 0) * main 1 (previousRow logSize row))
  have columns : evaluate (preprocRow (buildPreproc digest) row) (mainRow logSize main row) =
      roundCore (m31 (roundConstants (row % nRounds)).1) (m31 (roundConstants (row % nRounds)).2)
        (ChannelAir.roundRow main row) ++
      [(if row % nRounds = 0 then 1 else 0) * (main 6 row - cur.1),
        (if row % nRounds = 0 then 1 else 0) * (main 7 row - cur.2)] ++
      wiring (if row % nRounds = 0 then 1 else 0) cur
        (if row % nRounds = 0 then m31 (row / nRounds) else 0)
        (ChannelAir.roundRow main (previousRow logSize row)).out (ChannelAir.roundRow main row) :=
    rfl
  rw [columns, vanish_append, vanish_append, vanish_wiring, spongeRow_iff, and_assoc, and_assoc]
  apply and_congr_right
  intro _
  rw [and_comm, Squeezes]
  by_cases first : row % nRounds = 0
  · have gated : cur =
        entering (residuePair digest) (ChannelAir.roundRow main) (row / nRounds) := by
      rw [← gated_entering _ _ first inside]
      simp only [cur, m31_eq_cast, residuePair, ChannelAir.roundRow]
    simp only [first, if_true, one_mul, vanish_cons, vanish_nil, and_true, sub_eq_zero, gated,
      m31_eq_cast, Prod.ext_iff, forall_const]
  · simp [first]

/-! ## The verifier -/

/-- `verify_draws`. -/
def verifyDraws (system : ProofSystem Columns) (proofBytes : List UInt8) (logSize m : ℕ)
    (digest : ℕ × ℕ) : Except String Bool :=
  system.verifyPinned minLogSize maxLogSize (buildPreproc digest)
    [m, digest.1 % P, digest.2 % P] proofBytes logSize

/-- Words squeezed by the first blocks of a trace. -/
def squeezedOf (main : Columns) (m : ℕ) : List (ℕ × ℕ) :=
  (List.range m).map fun i => ((main 6 (nRounds * i)).val, (main 7 (nRounds * i)).val)

/-- The draws fit the trace and are those of the digest. -/
def Attests (logSize : ℕ) (main : Columns) (m : ℕ) (digest : ℕ × ℕ) : Prop :=
  nRounds * m ≤ 2 ^ logSize ∧ squeezedOf main m = (drawChain digest m).1

/-- State of the sponge that draws begin with. -/
def startState (digest : ℕ × ℕ) : ℕ × ℕ := (digest.1 % P, digest.2 % P)

theorem residuePair_startState (digest : ℕ × ℕ) :
    residuePair (startState digest) = residuePair digest := by
  simp [residuePair, startState]

theorem reduced_startState (digest : ℕ × ℕ) : Reduced (startState digest) := by
  simp [Reduced, residuePair, startState, pairVal, ZMod.val_natCast]

theorem drawChain_eq (digest : ℕ × ℕ) (m : ℕ) :
    drawChain digest m =
      ((List.range m).map (blockStates (startState digest) id),
        blockStates (startState digest) id m) := by
  induction m with
  | zero => rfl
  | succ m ih =>
      rw [drawChain] at ih ⊢
      rw [List.range_succ, List.foldl_append, ih, List.map_append]
      rfl

section Draws

variable {logSize : ℕ} (small : 2 ^ logSize ≤ nRounds * P)
include small

theorem draw_canonical (k : ℕ) (inside : nRounds * k < 2 ^ logSize) : Canonical (id k) :=
  Nat.lt_of_mul_lt_mul_left (lt_of_lt_of_le inside small)

/-- A satisfying trace squeezes the draws of the pinned digest. -/
theorem squeezedOf_eq {digest : ℕ × ℕ} {main : Columns}
    (satisfies : Satisfies logSize (buildPreproc digest) main) {m : ℕ}
    (inside : nRounds * m ≤ 2 ^ logSize) :
    squeezedOf main m = (drawChain digest m).1 := by
  have rows := fun row inside => (vanish_evaluate inside).mp (satisfies row inside)
  rw [drawChain_eq]
  apply List.map_congr_left
  intro i member
  have drawn : nRounds * i < 2 ^ logSize := by
    have below := List.mem_range.mp member
    simp only [nRounds] at inside ⊢
    omega
  have place : nRounds * i / nRounds = i := Nat.mul_div_cancel_left i (by decide)
  have cells := (rows _ drawn).2 (Nat.mul_mod_right nRounds i)
  rw [place, entering_eq (fun row inside => (rows row inside).1) i drawn.le] at cells
  rw [blockStates_eq (reduced_startState digest) (draw_canonical small) (by omega),
    residuePair_startState]
  simp only [id_eq, ← cells, pairVal]

end Draws

/-- Accepted draws are attested just when they fit the trace. -/
theorem verifyDraws_attests {system : ProofSystem Columns} {columns : system.Root → Columns}
    (opens : system.Opens columns 7 Satisfies) {proofBytes : List UInt8} {logSize m : ℕ}
    {digest : ℕ × ℕ} (accepted : verifyDraws system proofBytes logSize m digest = .ok true) :
    ∃ proof root, system.decode proofBytes = .ok proof ∧
      (system.commitments proof)[1]? = some root ∧
      (Attests logSize (columns root) m digest ↔ nRounds * m ≤ 2 ^ logSize) := by
  rcases opens.satisfies readsRows accepted with ⟨bound, proof, root, decoded, found, satisfies⟩
  have small : 2 ^ logSize ≤ nRounds * P := by
    calc
      2 ^ logSize ≤ 2 ^ maxLogSize := Nat.pow_le_pow_right (by decide) bound
      _ ≤ nRounds * P := by decide
  exact ⟨proof, root, decoded, found, And.left,
    fun inside => ⟨inside, squeezedOf_eq small satisfies inside⟩⟩

/-! ## The prover's trace -/

/-- Main columns of `build_trace`. -/
def mainColumns (digest : ℕ × ℕ) : Columns := fun column row =>
  let cells := honestRow (blockInput (startState digest) id) row
  let squeezed := blockStates (startState digest) id (row / nRounds)
  match column with
  | 0 => cells.s0
  | 1 => cells.s1
  | 2 => cells.t0
  | 3 => cells.t1
  | 4 => cells.inp0
  | 5 => cells.inp1
  | 6 => if row % nRounds = 0 then m31 squeezed.1 else 0
  | 7 => if row % nRounds = 0 then m31 squeezed.2 else 0
  | _ => 0

/-- `build_trace`: main and preprocessed columns, the squeezed pairs and the state
after the last draw. -/
def buildTrace (digest : ℕ × ℕ) (m logSize : ℕ) :
    Columns × Columns × List (ℕ × ℕ) × (ℕ × ℕ) :=
  let blocks := 2 ^ logSize / nRounds
  let squeezed := (List.range (min m blocks)).map (blockStates (startState digest) id)
  let finalState :=
    if 1 ≤ m ∧ m ≤ blocks then blockStates (startState digest) id m else startState digest
  (mainColumns digest, buildPreproc digest, squeezed, finalState)

/-- The prover's trace satisfies the circuit. -/
theorem mainColumns_satisfies (digest : ℕ × ℕ) {logSize : ℕ}
    (small : 2 ^ logSize ≤ nRounds * P) :
    Satisfies logSize (buildPreproc digest) (mainColumns digest) := by
  intro row inside
  have reduced := reduced_startState digest
  have canonical := draw_canonical small
  apply (vanish_evaluate inside).mpr
  rw [← residuePair_startState]
  refine ⟨honestRow_sponge reduced canonical inside, ?_⟩
  intro first
  have block : nRounds * (row / nRounds) ≤ 2 ^ logSize :=
    (Nat.mul_div_le row nRounds).trans inside.le
  have state := entering_honest reduced canonical block
  rw [← residuePair_startState]
  refine Eq.trans ?_ state.symm
  simp only [mainColumns, first, if_true, m31_eq_cast, residuePair]

/-- The prover of draws that fit returns them and the state after them. -/
theorem buildTrace_draws (digest : ℕ × ℕ) {m logSize : ℕ} (fits : nRounds * m ≤ 2 ^ logSize) :
    (buildTrace digest m logSize).2.2 = drawChain digest m := by
  have capacity : m ≤ 2 ^ logSize / nRounds :=
    (Nat.le_div_iff_mul_le (by decide)).mpr (Nat.mul_comm nRounds _ ▸ fits)
  rw [drawChain_eq]
  simp only [buildTrace, min_eq_left capacity, capacity, and_true]
  cases m with
  | zero => rfl
  | succ m => rw [if_pos (Nat.succ_le_succ (Nat.zero_le m))]

end TranscriptDraw

/-! ## What accepted transcripts attest -/

/-- An accepted transcript attests its count and digest just when the proof is one of an
honest prover of as many words, which the verifier does not see to; accepted draws
attest theirs just when they fit.  What the provers build satisfies the circuits, and
they return the digest of the words and the draws of the digest. -/
theorem transcripts_attested_iff {channelSystem drawSystem : ProofSystem Columns}
    {channelColumns : channelSystem.Root → Columns} {drawColumns : drawSystem.Root → Columns}
    (channelOpens : channelSystem.Opens channelColumns 4 ChannelAir.Satisfies)
    (drawOpens : drawSystem.Opens drawColumns 7 TranscriptDraw.Satisfies) :
    (∀ (proofBytes : List UInt8) (logSize n : ℕ) (digest : ℕ × ℕ), 1 ≤ n →
      ChannelAir.verifyChannel channelSystem proofBytes logSize n digest = .ok true →
      ∃ proof root, channelSystem.decode proofBytes = .ok proof ∧
        (channelSystem.commitments proof)[1]? = some root ∧
        (ChannelAir.Attests logSize (channelColumns root) n digest ↔
          ChannelAir.HonestRun logSize (channelColumns root) n digest)) ∧
    (∀ (proofBytes : List UInt8) (logSize m : ℕ) (digest : ℕ × ℕ), 1 ≤ m →
      TranscriptDraw.verifyDraws drawSystem proofBytes logSize m digest = .ok true →
      ∃ proof root, drawSystem.decode proofBytes = .ok proof ∧
        (drawSystem.commitments proof)[1]? = some root ∧
        (TranscriptDraw.Attests logSize (drawColumns root) m digest ↔
          Chain.nRounds * m ≤ 2 ^ logSize)) ∧
    (∀ (words : List ℕ) (logSize : ℕ), Chain.nRounds * max words.length 1 ≤ 2 ^ logSize →
      ∃ main pre digest, ChannelAir.buildTrace words logSize = (main, pre, digest) ∧
        ChannelAir.Satisfies logSize pre main ∧
        (words ≠ [] → digest = ChannelAir.spongeAbsorb words)) ∧
    ∀ (digest : ℕ × ℕ) (m logSize : ℕ), Chain.nRounds * max m 1 ≤ 2 ^ logSize →
      2 ^ logSize ≤ Chain.nRounds * Mersenne.P →
      ∃ main pre, TranscriptDraw.buildTrace digest m logSize =
          (main, pre, TranscriptDraw.drawChain digest m) ∧
        TranscriptDraw.Satisfies logSize pre main := by
  refine ⟨?_, ?_, ?_, ?_⟩
  · intro proofBytes logSize n digest positive accepted
    exact ChannelAir.verifyChannel_attests channelOpens positive accepted
  · intro proofBytes logSize m digest _ accepted
    exact TranscriptDraw.verifyDraws_attests drawOpens accepted
  · intro words logSize fits
    have own : Chain.nRounds * words.length ≤ 2 ^ logSize :=
      (Nat.mul_le_mul_left _ (le_max_left _ _)).trans fits
    exact ⟨_, _, _, rfl, ChannelAir.mainColumns_satisfies words logSize,
      fun nonempty => ChannelAir.buildTrace_digest nonempty own⟩
  · intro digest m logSize fits small
    have own : Chain.nRounds * m ≤ 2 ^ logSize :=
      (Nat.mul_le_mul_left _ (le_max_left _ _)).trans fits
    rw [← TranscriptDraw.buildTrace_draws digest own]
    exact ⟨_, _, rfl, TranscriptDraw.mainColumns_satisfies digest small⟩

section Sample

open ProofSystem

/-- The one proof commits to the prover's trace of some words. -/
def channelSample (words : List ℕ) (logSize : ℕ) : ProofSystem Columns :=
  openSystem 4 7 ChannelAir.Satisfies logSize ChannelAir.buildPreproc (ChannelAir.mainColumns words)

/-- The one proof commits to the prover's trace of the draws from a digest. -/
def drawSample (digest : ℕ × ℕ) (logSize : ℕ) : ProofSystem Columns :=
  openSystem 7 8 TranscriptDraw.Satisfies logSize (TranscriptDraw.buildPreproc digest)
    (TranscriptDraw.mainColumns digest)

theorem channelSample_opens (words : List ℕ) (logSize : ℕ) :
    (channelSample words logSize).Opens untabulate 4 ChannelAir.Satisfies :=
  openSystem_opens

theorem drawSample_opens (digest : ℕ × ℕ) (logSize : ℕ) :
    (drawSample digest logSize).Opens untabulate 7 TranscriptDraw.Satisfies :=
  openSystem_opens

theorem channelSample_accepts (words : List ℕ) {logSize : ℕ} (large : 3 ≤ logSize)
    (small : logSize ≤ 24) (n : ℕ) (digest : ℕ × ℕ) :
    ChannelAir.verifyChannel (channelSample words logSize) [1] logSize n digest = .ok true :=
  openSystem_accepts ChannelAir.readsRows large small
    (ChannelAir.mainColumns_satisfies words logSize)

theorem drawSample_accepts (digest : ℕ × ℕ) {logSize : ℕ} (large : 3 ≤ logSize)
    (small : logSize ≤ 24) (m : ℕ) :
    TranscriptDraw.verifyDraws (drawSample digest logSize) [1] logSize m digest = .ok true := by
  have domain : 2 ^ logSize ≤ Chain.nRounds * Mersenne.P :=
    (Nat.pow_le_pow_right (by decide) small).trans (by decide)
  exact openSystem_accepts TranscriptDraw.readsRows large small
    (TranscriptDraw.mainColumns_satisfies digest domain)

/-- The committed trace is that of an honest run. -/
theorem channelSample_honest {words : List ℕ} {logSize : ℕ}
    (fits : Chain.nRounds * words.length ≤ 2 ^ logSize) :
    ChannelAir.HonestRun logSize (untabulate (tabulate 7 logSize (ChannelAir.mainColumns words)))
      words.length (ChannelAir.buildTrace words logSize).2.2 := by
  have cells := untabulate_tabulate 7 logSize (ChannelAir.mainColumns words)
  refine ⟨words, _, _, rfl, rfl, fits, ?_⟩
  intro row before
  have inside := before.trans_le fits
  refine ⟨?_, fun _ => cells 6 (by decide) row inside⟩
  simp [ChannelAir.roundRow, cells _ _ row inside]

/-- The transcript of two words, and two draws. -/
theorem transcripts_attested_honest :
    (∃ proof root, (channelSample [5, 6] 4).decode [1] = .ok proof ∧
      ((channelSample [5, 6] 4).commitments proof)[1]? = some root ∧
      ChannelAir.Attests 4 (untabulate root) 2 (1227929686, 710529137)) ∧
    ∃ proof root, (drawSample (5, 6) 4).decode [1] = .ok proof ∧
      ((drawSample (5, 6) 4).commitments proof)[1]? = some root ∧
      TranscriptDraw.Attests 4 (untabulate root) 2 (5, 6) := by
  have transcripts := transcripts_attested_iff (channelSample_opens [5, 6] 4)
    (drawSample_opens (5, 6) 4)
  constructor
  · have digest : (ChannelAir.buildTrace [5, 6] 4).2.2 = (1227929686, 710529137) := by
      decide +kernel
    rcases transcripts.1 [1] 4 2 (1227929686, 710529137) (by decide)
        (channelSample_accepts [5, 6] (by decide) (by decide) _ _) with
      ⟨proof, root, decoded, found, attested⟩
    have trace : tabulate 7 4 (ChannelAir.mainColumns [5, 6]) = root := Option.some.inj found
    refine ⟨proof, root, decoded, found, attested.mpr ?_⟩
    rw [← trace, ← digest]
    exact channelSample_honest (by decide)
  · rcases transcripts.2.1 [1] 4 2 (5, 6) (by decide)
        (drawSample_accepts (5, 6) (by decide) (by decide) _) with
      ⟨proof, root, decoded, found, attested⟩
    exact ⟨proof, root, decoded, found, attested.mpr (by decide)⟩

/-- Any digest is accepted for the trace that absorbs a zero, and any number of draws
for the trace of one. -/
theorem transcripts_unattested :
    ((channelSample [0] 3).Opens untabulate 4 ChannelAir.Satisfies ∧
      ChannelAir.verifyChannel (channelSample [0] 3) [1] 3 1 (5, 5) = .ok true ∧
      ∀ root, ((channelSample [0] 3).commitments ())[1]? = some root →
        ¬ ChannelAir.Attests 3 (untabulate root) 1 (5, 5)) ∧
    (drawSample (0, 0) 3).Opens untabulate 7 TranscriptDraw.Satisfies ∧
      TranscriptDraw.verifyDraws (drawSample (0, 0) 3) [1] 3 2 (0, 0) = .ok true ∧
      ∀ root, ¬ TranscriptDraw.Attests 3 (untabulate root) 2 (0, 0) := by
  refine ⟨⟨channelSample_opens [0] 3, channelSample_accepts [0] (by decide) (by decide) 1 (5, 5), ?_⟩,
    drawSample_opens (0, 0) 3, drawSample_accepts (0, 0) (by decide) (by decide) 2, fun _ attested => absurd attested.1 (by decide)⟩
  rintro root found ⟨-, -, digest⟩
  have trace : root = tabulate 7 3 (ChannelAir.mainColumns [0]) := (Option.some.inj found).symm
  have cell : untabulate root 6 0 = 0 := by
    rw [trace, untabulate_tabulate 7 3 _ 6 (by decide) 0 (by decide)]
    simp [ChannelAir.mainColumns, ChannelAir.wordAt]
  have words : ChannelAir.wordsOf (untabulate root) 1 = [0] := by
    change [(untabulate root 6 0).val] = [0]
    rw [cell, ZMod.val_zero]
  rw [words] at digest
  exact absurd digest (by decide +kernel)

end Sample

end Recursive
end QLSA
