import QLSA.Recursive.ChannelT8Air

namespace QLSA
namespace Recursive
namespace ChannelT8

open Hash Mersenne

/-!
# The trace builder of the channel circuit

Four functions walk the steps of a transcript: the channel, the list of addends,
the placement of the blocks and the trace builder.  Each is compared with the
chain of the blocks, one step at a time; canonical words stand for the states of
the chain as long as fewer than `P` pairs are drawn in a row, which the size of
the circle group enforces.
-/

/-! ## The builder -/

/-- What the loops have filled: the rounds, the word of each block, the results of
the transcripts. -/
structure Filled where
  rows : List (RoundRow ℕ)
  words : List ℕ
  runs : List ChannelRun

/-- The inner loop over the steps of one transcript. -/
structure RunFill where
  rows : List (RoundRow ℕ)
  words : List ℕ
  ch : ChannelT8State
  drawn : List (ℕ × ℕ)

def fillStep (fill : RunFill) (step : Step) : RunFill :=
  let carried := fill.ch.s
  let addend := match step with
    | .absorb word => reduceU32 word
    | .draw => fill.ch.nDraws
  let state := Stwo.matExternal { carried with s0 := Stwo.m31Add carried.s0 addend }
  let rows := fill.rows ++ (roundRows state).1
  let words := fill.words ++ [addend]
  match step with
  | .absorb word => ⟨rows, words, fill.ch.absorb word, fill.drawn⟩
  | .draw => ⟨rows, words, fill.ch.drawPair.2, fill.drawn ++ [fill.ch.drawPair.1]⟩

/-- One transcript; the steps that no block is left for are not placed. -/
def fillRun (cap : ℕ) (filled : Filled) (steps : List Step) : Filled :=
  let fill := (steps.take (cap - filled.words.length)).foldl fillStep
    ⟨filled.rows, filled.words, ChannelT8State.init, []⟩
  ⟨fill.rows, fill.words, filled.runs ++ [⟨fill.ch.s, fill.drawn⟩]⟩

/-- The columns of a trace, row by row, and what each transcript produced.  The rows behind the
last block go on permuting the state, and absorb nothing. -/
def buildTraceMultiRaw (transcripts : List (List Step)) (logSize : ℕ) :
    List MainRow × List ChannelRun :=
  let filled := transcripts.foldl (fillRun (2 ^ logSize / 22)) ⟨[], [], []⟩
  let prevOut := match filled.rows.getLast? with
    | some row => row.out.map (· % P)
    | none => zeroState
  let rows := filled.rows ++ paddingRows prevOut (2 ^ logSize - filled.words.length * 22)
  (rows.zipIdx.map fun entry =>
    ⟨entry.1.map m31,
      if entry.2 % 22 = 0 then m31 (filled.words.getD (entry.2 / 22) 0) else 0⟩,
    filled.runs)

/-! ## One step of the channel -/

theorem reduceU32_val (word : BitVec 32) : reduceU32 word = ((word.toNat : ℕ) : M31).val :=
  Vfri2.reduceTwice_val word.isLt

theorem reduceU32_lt (word : BitVec 32) : reduceU32 word < P := by
  rw [reduceU32_val]
  exact Stwo.val_lt_P _

/-- Adding a canonical word to the first cell. -/
theorem addCell (x : State M31) {addend : ℕ} (canonical : addend < P) :
    ({ x.map ZMod.val with s0 := Stwo.m31Add (x.map ZMod.val).s0 addend } : State ℕ) =
      ({ x with s0 := x.s0 + addend } : State M31).map ZMod.val := by
  have value : addend = ((addend : ℕ) : M31).val := by
    rw [ZMod.val_natCast, Nat.mod_eq_of_lt canonical]
  rw [State.map_s0]
  conv_lhs => rw [value, Stwo.m31Add_val]
  rfl

/-- The state behind a step that adds a value. -/
def afterStep (x : State M31) (addend : ℕ) : State M31 :=
  roundsFrom (columnConstant M31) { x with s0 := x.s0 + addend } 22

theorem permute_addCell (x : State M31) {addend : ℕ} (canonical : addend < P) :
    Stwo.permuteT8 { x.map ZMod.val with s0 := Stwo.m31Add (x.map ZMod.val).s0 addend } =
      (afterStep x addend).map ZMod.val := by
  rw [addCell x canonical, Stwo.permuteT8_map, afterStep]
  rfl

/-- Canonical words of a state, and a number of steps until the counter gets too large. -/
structure Holds (ch : ChannelT8State) (x : State M31) (steps : ℕ) : Prop where
  cells : ch.s = x.map ZMod.val
  draws : ch.nDraws + steps < P

/-- The value a step adds. -/
def addendOf (ch : ChannelT8State) : Step → ℕ
  | .absorb word => reduceU32 word
  | .draw => ch.nDraws

/-- The channel behind a step. -/
def advance (ch : ChannelT8State) : Step → ChannelT8State
  | .absorb word => ch.absorb word
  | .draw => ch.drawPair.2

/-- The pair of a step. -/
def pairOf (ch : ChannelT8State) : Step → Option (ℕ × ℕ)
  | .absorb _ => none
  | .draw => some ch.drawPair.1

section Step

variable {ch : ChannelT8State} {x : State M31} {steps : ℕ}

theorem Holds.addend_lt (holds : Holds ch x (steps + 1)) (step : Step) :
    addendOf ch step < P := by
  cases step with
  | absorb word => exact reduceU32_lt word
  | draw =>
      have draws := holds.draws
      rw [addendOf]
      omega

/-- The channel behind a step holds the state behind its block. -/
theorem Holds.advance (holds : Holds ch x (steps + 1)) (step : Step) :
    Holds (ChannelT8.advance ch step) (afterStep x (addendOf ch step)) steps := by
  have permuted := permute_addCell x (holds.addend_lt step)
  have draws := holds.draws
  rw [← holds.cells] at permuted
  cases step with
  | absorb word => exact ⟨permuted, by simp only [ChannelT8.advance, ChannelT8State.absorb]; omega⟩
  | draw =>
      refine ⟨permuted, ?_⟩
      have small : ch.nDraws + 1 < 2 ^ 32 := by
        have bound : P < 2 ^ 32 := by decide
        omega
      simp only [ChannelT8.advance, ChannelT8State.drawPair, Nat.mod_eq_of_lt small]
      omega

theorem addendsFrom_cons (ch : ChannelT8State) (step : Step) (rest : List Step) :
    addendsFrom ch.nDraws (step :: rest) =
      addendOf ch step :: addendsFrom (ChannelT8.advance ch step).nDraws rest := by
  cases step <;> rfl

theorem run_nil (ch : ChannelT8State) : ch.run [] = ([], ch) := rfl

theorem run_cons (ch : ChannelT8State) (step : Step) (rest : List Step) :
    ch.run (step :: rest) =
      ((pairOf ch step).toList ++ ((ChannelT8.advance ch step).run rest).1,
        ((ChannelT8.advance ch step).run rest).2) := by
  cases step <;> rfl

/-- A drawn pair is the pair of the first two cells. -/
theorem Holds.drawn (holds : Holds ch x steps) :
    ((ch.drawPair.1.1 : ℕ) : M31) = x.s0 ∧ ((ch.drawPair.1.2 : ℕ) : M31) = x.s1 := by
  have small (cell : M31) : cell.val % 2 ^ 32 = cell.val :=
    Nat.mod_eq_of_lt ((Stwo.val_lt_P cell).trans (by decide))
  rw [ChannelT8State.drawPair, holds.cells]
  dsimp only
  rw [State.map_s0, State.map_s1, small, small, ZMod.natCast_zmod_val, ZMod.natCast_zmod_val]
  exact ⟨rfl, rfl⟩

end Step

/-! ## Placed steps -/

/-- The block of a step. -/
def blockOf (run : Option ChannelRun) (first : Bool) (drawI addend : ℕ) (last : Bool)
    (step : Step) : Block :=
  ⟨addend, first,
    match step with
    | .absorb _ => none
    | .draw => some ((run.bind fun run => run.drawn[drawI]?).getD (0, 0)),
    if last then run.map ChannelRun.digest else none⟩

/-- The number of draws a step counts. -/
def drawCount : Step → ℕ
  | .absorb _ => 0
  | .draw => 1

theorem placeSteps_cons (run : Option ChannelRun) (first : Bool) (drawI addend : ℕ) (step : Step)
    (rest : List (Step × ℕ)) :
    placeSteps run first drawI ((step, addend) :: rest) =
      blockOf run first drawI addend rest.isEmpty step ::
        placeSteps run false (drawI + drawCount step) rest := by
  cases step <;> rfl

theorem placeSteps_length (run : Option ChannelRun) (first : Bool) (drawI : ℕ)
    (steps : List (Step × ℕ)) : (placeSteps run first drawI steps).length = steps.length := by
  induction steps generalizing first drawI with
  | nil => rfl
  | cons entry rest ih =>
      rcases entry with ⟨step, addend⟩
      rw [placeSteps_cons, List.length_cons, List.length_cons, ih]

theorem addendsFrom_length (nDraws : ℕ) (steps : List Step) :
    (addendsFrom nDraws steps).length = steps.length := by
  induction steps generalizing nDraws with
  | nil => rfl
  | cons step rest ih =>
      cases step with
      | absorb word => rw [addendsFrom, List.length_cons, List.length_cons, ih]
      | draw => rw [addendsFrom, List.length_cons, List.length_cons, ih]

/-- A pinned pair equals a drawn one modulo `P`. -/
def SamePair (first second : ℕ × ℕ) : Prop :=
  (first.1 : M31) = (second.1 : M31) ∧ (first.2 : M31) = (second.2 : M31)

/-- Pairs that agree with those claimed from a position on. -/
def PairsAgree (drawn claimed : List (ℕ × ℕ)) (drawI : ℕ) : Prop :=
  ∀ i pair, drawn[i]? = some pair → SamePair pair (claimed[drawI + i]?.getD (0, 0))

theorem pairsAgree_nil {claimed : List (ℕ × ℕ)} {drawI : ℕ} : PairsAgree [] claimed drawI := by
  intro i pair found
  cases found

theorem pairsAgree_cons {pair : ℕ × ℕ} {drawn claimed : List (ℕ × ℕ)} {drawI : ℕ} :
    PairsAgree (pair :: drawn) claimed drawI ↔
      SamePair pair (claimed[drawI]?.getD (0, 0)) ∧ PairsAgree drawn claimed (drawI + 1) := by
  constructor
  · intro agree
    refine ⟨agree 0 pair rfl, ?_⟩
    intro i later found
    have shifted := agree (i + 1) later found
    rwa [Nat.add_comm i 1, ← Nat.add_assoc] at shifted
  · rintro ⟨head, tail⟩ i other found
    cases i with
    | zero =>
        rw [List.getElem?_cons_zero, Option.some.injEq] at found
        rw [← found]
        exact head
    | succ i =>
        have later := tail i other found
        rwa [Nat.add_assoc, Nat.add_comm 1 i] at later

section Placed

variable {ch : ChannelT8State} {x prev : State M31} {steps : ℕ} {run : Option ChannelRun}
  {first last : Bool} {drawI addend : ℕ} {step : Step}

theorem carried_later (prev : State M31) : (if false then zeroState else prev) = prev := rfl

theorem blockOf_carried (carried : (if first then zeroState else prev) = x) :
    (blockOf run first drawI addend last step).carried prev = x := by
  rw [Block.carried]
  exact carried

theorem blockOf_out (carried : (if first then zeroState else prev) = x) :
    (blockOf run first drawI addend last step).out prev = afterStep x addend := by
  rw [Block.out, Block.raw, blockOf_carried carried, afterStep]
  dsimp only [blockOf]

/-- The pins of a block agree with the pair that is drawn and the digest behind it. -/
theorem blockOf_agrees (claimed : ChannelRun) (holds : Holds ch x (steps + 1))
    (carried : (if first then zeroState else prev) = x) :
    (blockOf (some claimed) first drawI (addendOf ch step) last step).Agrees prev ↔
      (∀ pair, pairOf ch step = some pair →
        SamePair pair (claimed.drawn[drawI]?.getD (0, 0))) ∧
      (last = true → (advance ch step).s.map m31 = claimed.digest.map m31) := by
  have next := holds.advance step
  have digest : (advance ch step).s.map m31 = afterStep x (addendOf ch step) := by
    rw [next.cells, map_m31_val]
  have out := @blockOf_out x prev (some claimed) first last drawI (addendOf ch step) step carried
  have own := @blockOf_carried x prev (some claimed) first last drawI (addendOf ch step) step carried
  rcases holds.drawn with ⟨cell0, cell1⟩
  rw [digest]
  constructor
  · rintro ⟨drawnEq, digestEq⟩
    rw [own] at drawnEq
    rw [out] at digestEq
    refine ⟨?_, ?_⟩
    · intro pair drawn
      cases step with
      | absorb word => cases drawn
      | draw =>
          cases drawn
          rw [SamePair, cell0, cell1]
          exact drawnEq _ _ rfl
    · rintro rfl
      exact digestEq _ rfl
  · rintro ⟨pairs, final⟩
    refine ⟨?_, ?_⟩
    · intro w0 w1 drawn
      rw [own]
      cases step with
      | absorb word => cases drawn
      | draw =>
          have same := pairs _ rfl
          have pinned : claimed.drawn[drawI]?.getD (0, 0) = (w0, w1) := Option.some.inj drawn
          rw [SamePair, cell0, cell1, pinned] at same
          exact same
    · intro pinned found
      rw [out]
      cases last with
      | false => cases found
      | true =>
          rw [← Option.some.inj found]
          exact final rfl

end Placed

theorem zip_isEmpty (nDraws : ℕ) (steps : List Step) :
    (steps.zip (addendsFrom nDraws steps)).isEmpty = steps.isEmpty := by
  cases steps with
  | nil => rfl
  | cons step rest => cases step <;> rfl

/-- The pair of a step and the pairs behind it. -/
theorem pairsAgree_step (ch : ChannelT8State) (step : Step) (later claimed : List (ℕ × ℕ))
    (drawI : ℕ) :
    PairsAgree ((pairOf ch step).toList ++ later) claimed drawI ↔
      (∀ pair, pairOf ch step = some pair → SamePair pair (claimed[drawI]?.getD (0, 0))) ∧
        PairsAgree later claimed (drawI + drawCount step) := by
  cases step with
  | absorb word => simp [pairOf, drawCount]
  | draw =>
      rw [pairOf, Option.toList_some, List.singleton_append, pairsAgree_cons]
      simp [drawCount]

/-- The pins of the placed steps agree exactly when the drawn pairs and the
digest are those of the channel. -/
theorem placeSteps_agrees (claimed : ChannelRun) {steps : List Step} {ch : ChannelT8State}
    {x prev : State M31} (holds : Holds ch x steps.length) {first : Bool} {drawI : ℕ}
    (carried : (if first then zeroState else prev) = x) (nonempty : steps ≠ []) :
    ChainAgrees prev (placeSteps (some claimed) first drawI
        (steps.zip (addendsFrom ch.nDraws steps))) ↔
      PairsAgree (ch.run steps).1 claimed.drawn drawI ∧
        (ch.run steps).2.s.map m31 = claimed.digest.map m31 := by
  induction steps generalizing ch x prev first drawI with
  | nil => exact absurd rfl nonempty
  | cons step rest ih =>
      rw [List.length_cons] at holds
      have block := @blockOf_agrees ch x prev rest.length first rest.isEmpty drawI step claimed
        holds carried
      have out := @blockOf_out x prev (some claimed) first rest.isEmpty drawI (addendOf ch step)
        step carried
      rw [addendsFrom_cons, List.zip_cons_cons, placeSteps_cons, zip_isEmpty, ChainAgrees, block,
        out, run_cons, pairsAgree_step]
      dsimp only
      cases rest with
      | nil =>
          rw [run_nil, addendsFrom, List.zip_nil_left, placeSteps, ChainAgrees]
          constructor
          · rintro ⟨⟨pair, final⟩, -⟩
            exact ⟨⟨pair, pairsAgree_nil⟩, final rfl⟩
          · rintro ⟨⟨pair, -⟩, final⟩
            exact ⟨⟨pair, fun _ => final⟩, trivial⟩
      | cons second rest =>
          have later := @ih (advance ch step) (afterStep x (addendOf ch step))
            (afterStep x (addendOf ch step)) (holds.advance step) false (drawI + drawCount step)
            (carried_later _) (List.cons_ne_nil second rest)
          rw [later]
          simp only [List.isEmpty_cons, Bool.false_eq_true, false_implies, and_true, and_assoc]

/-! ## Placed transcripts -/

def totalBlocks (transcripts : List (List Step)) : ℕ := (transcripts.map List.length).sum

theorem totalBlocks_cons (steps : List Step) (transcripts : List (List Step)) :
    totalBlocks (steps :: transcripts) = steps.length + totalBlocks transcripts := by
  rw [totalBlocks, List.map_cons, List.sum_cons, totalBlocks]

/-- What the channel produces on a transcript. -/
def honestRun (steps : List Step) : ChannelRun :=
  ⟨(ChannelT8State.init.run steps).2.s, (ChannelT8State.init.run steps).1⟩

theorem zeroState_val : (zeroState : State M31).map ZMod.val = zeroState := by
  ext <;> simp [zeroState]

theorem Holds.init {steps : ℕ} (few : steps < P) : Holds ChannelT8State.init zeroState steps := by
  constructor
  · rw [zeroState_val, ChannelT8State.init]
  · rw [ChannelT8State.init, Nat.zero_add]
    exact few

/-- A claimed run agrees with the channel on its transcript. -/
def RunAgrees (steps : List Step) (claimed : ChannelRun) : Prop :=
  PairsAgree (honestRun steps).drawn claimed.drawn 0 ∧
    (honestRun steps).digest.map m31 = claimed.digest.map m31

/-- The blocks of one transcript. -/
def transcriptBlocks (run : Option ChannelRun) (steps : List Step) : List Block :=
  placeSteps run true 0 (steps.zip (stepAddends steps))

theorem transcriptBlocks_agrees {steps : List Step} (nonempty : steps ≠ [])
    (few : steps.length < P) (claimed : ChannelRun) (prev : State M31) :
    ChainAgrees prev (transcriptBlocks (some claimed) steps) ↔ RunAgrees steps claimed :=
  placeSteps_agrees claimed (Holds.init few) (if_pos rfl) nonempty

theorem transcriptBlocks_length (run : Option ChannelRun) (steps : List Step) :
    (transcriptBlocks run steps).length = steps.length := by
  rw [transcriptBlocks, placeSteps_length, List.length_zip, stepAddends, addendsFrom_length,
    Nat.min_self]

/-- As long as there is room, every transcript is placed as a whole. -/
theorem placeRuns_cons {cap block : ℕ} {runs : List ChannelRun} {t : ℕ} {steps : List Step}
    {transcripts : List (List Step)} (fits : block + steps.length ≤ cap) :
    placeRuns cap runs t block (steps :: transcripts) =
      transcriptBlocks runs[t]? steps ++
        placeRuns cap runs (t + 1) (block + steps.length) transcripts := by
  have whole : (steps.zip (stepAddends steps)).take (cap - block) =
      steps.zip (stepAddends steps) := by
    apply List.take_of_length_le
    rw [List.length_zip, stepAddends, addendsFrom_length, Nat.min_self]
    omega
  have length : (placeSteps runs[t]? true 0 (steps.zip (stepAddends steps))).length =
      steps.length := transcriptBlocks_length runs[t]? steps
  rw [placeRuns, whole, length, transcriptBlocks]

theorem placeRuns_length {cap block t : ℕ} {runs : List ChannelRun}
    {transcripts : List (List Step)} (fits : block + totalBlocks transcripts ≤ cap) :
    (placeRuns cap runs t block transcripts).length = totalBlocks transcripts := by
  induction transcripts generalizing t block with
  | nil => rfl
  | cons steps transcripts ih =>
      rw [totalBlocks_cons] at fits
      rw [placeRuns_cons (by omega), List.length_append, transcriptBlocks_length, ih (by omega),
        totalBlocks_cons]

theorem chainAgrees_append {prev : State M31} {first second : List Block} :
    ChainAgrees prev (first ++ second) ↔
      ChainAgrees prev first ∧ ChainAgrees (chainState prev first) second := by
  induction first generalizing prev with
  | nil => simp [ChainAgrees, chainState]
  | cons block rest ih =>
      rw [List.cons_append, ChainAgrees, ih, ChainAgrees, chainState_cons, and_assoc]

/-- The pins of all transcripts agree exactly when every run does. -/
theorem placeRuns_agrees {cap block t : ℕ} {runs : List ChannelRun} {prev : State M31}
    {transcripts : List (List Step)} (nonempty : ∀ steps ∈ transcripts, steps ≠ [])
    (fits : block + totalBlocks transcripts ≤ cap) (few : totalBlocks transcripts < P)
    (lengths : runs.length = t + transcripts.length) :
    ChainAgrees prev (placeRuns cap runs t block transcripts) ↔
      List.Forall₂ RunAgrees transcripts (runs.drop t) := by
  induction transcripts generalizing t block prev with
  | nil =>
      rw [List.drop_of_length_le (by rw [lengths, List.length_nil, Nat.add_zero])]
      simp [placeRuns, ChainAgrees]
  | cons steps transcripts ih =>
      rw [List.length_cons] at lengths
      rw [totalBlocks_cons] at fits few
      have inside : t < runs.length := by omega
      have own := @transcriptBlocks_agrees steps (nonempty steps List.mem_cons_self) (by omega)
        runs[t] prev
      have later := @ih (block + steps.length) (t + 1)
        (chainState prev (transcriptBlocks (some runs[t]) steps))
        (fun other member => nonempty other (List.mem_cons_of_mem steps member)) (by omega)
        (by omega) (by omega)
      rw [placeRuns_cons (by omega), List.getElem?_eq_getElem inside, chainAgrees_append, own, later,
        List.drop_eq_getElem_cons inside, List.forall₂_cons]

/-! ## Equality modulo `P` -/

/-- Pair and digest as residues modulo `P`. -/
def pairResidue (pair : ℕ × ℕ) : ℕ × ℕ := (pair.1 % P, pair.2 % P)

def ChannelRun.residues (run : ChannelRun) : State ℕ × List (ℕ × ℕ) :=
  (run.digest.map (· % P), run.drawn.map pairResidue)

theorem samePair_iff {first second : ℕ × ℕ} :
    SamePair first second ↔ pairResidue first = pairResidue second := by
  rw [SamePair, pairResidue, pairResidue, Prod.mk.injEq, ZMod.natCast_eq_natCast_iff',
    ZMod.natCast_eq_natCast_iff']

theorem pairsAgree_shift {drawn claimed : List (ℕ × ℕ)} {pair : ℕ × ℕ} :
    PairsAgree drawn (pair :: claimed) 1 ↔ PairsAgree drawn claimed 0 := by
  have shift (i : ℕ) : (pair :: claimed)[1 + i]? = claimed[0 + i]? := by
    rw [Nat.add_comm, List.getElem?_cons_succ, Nat.zero_add]
  simp only [PairsAgree, shift]

theorem pairsAgree_iff {drawn claimed : List (ℕ × ℕ)} (lengths : claimed.length = drawn.length) :
    PairsAgree drawn claimed 0 ↔ claimed.map pairResidue = drawn.map pairResidue := by
  induction drawn generalizing claimed with
  | nil =>
      rw [List.length_nil, List.length_eq_zero_iff] at lengths
      rw [lengths]
      exact ⟨fun _ => rfl, fun _ => pairsAgree_nil⟩
  | cons pair drawn ih =>
      cases claimed with
      | nil => cases lengths
      | cons other claimed =>
          rw [List.length_cons, List.length_cons, Nat.succ_inj] at lengths
          rw [pairsAgree_cons, pairsAgree_shift, ih lengths, List.getElem?_cons_zero,
            Option.getD_some, samePair_iff, List.map_cons, List.map_cons, List.cons.injEq,
            @eq_comm (ℕ × ℕ) (pairResidue pair)]

theorem map_m31_eq_iff {first second : State ℕ} :
    first.map m31 = second.map m31 ↔ first.map (· % P) = second.map (· % P) := by
  simp only [State.ext_iff, State.map, m31_eq_cast, ZMod.natCast_eq_natCast_iff']

/-- A run draws one pair for each draw of its transcript. -/
theorem run_length (ch : ChannelT8State) (steps : List Step) :
    (ch.run steps).1.length = steps.count .draw := by
  induction steps generalizing ch with
  | nil => rfl
  | cons step rest ih =>
      rw [run_cons, List.length_append, ih]
      cases step with
      | absorb word => rw [pairOf, List.count_cons_of_ne (by simp), Option.toList_none,
          List.length_nil, Nat.zero_add]
      | draw => rw [pairOf, List.count_cons_self, Option.toList_some, List.length_singleton,
          Nat.add_comm]

theorem runAgrees_iff {steps : List Step} {claimed : ChannelRun}
    (length : claimed.drawn.length = steps.count .draw) :
    RunAgrees steps claimed ↔ claimed.residues = (honestRun steps).residues := by
  have lengths : claimed.drawn.length = (honestRun steps).drawn.length := by
    rw [length, honestRun, run_length]
  rw [RunAgrees, pairsAgree_iff lengths, map_m31_eq_iff, ChannelRun.residues, ChannelRun.residues,
    Prod.mk.injEq, and_comm, @eq_comm (State ℕ)]

theorem runsAgree_iff {transcripts : List (List Step)} {runs : List ChannelRun}
    (lengths : runs.map (fun run => run.drawn.length) =
      transcripts.map fun steps => steps.count .draw) :
    List.Forall₂ RunAgrees transcripts runs ↔
      runs.map ChannelRun.residues = transcripts.map fun steps => (honestRun steps).residues := by
  induction transcripts generalizing runs with
  | nil =>
      rw [List.map_nil, List.map_eq_nil_iff] at lengths
      rw [lengths]
      exact ⟨fun _ => rfl, fun _ => List.Forall₂.nil⟩
  | cons steps transcripts ih =>
      cases runs with
      | nil => cases lengths
      | cons run runs =>
          rw [List.map_cons, List.map_cons, List.cons.injEq] at lengths
          rw [List.forall₂_cons, runAgrees_iff lengths.1, ih lengths.2, List.map_cons,
            List.map_cons, List.cons.injEq]

/-! ## The loops of the builder -/

/-- The rows that a chain of blocks fills. -/
def blockRows : State M31 → List Block → List (RoundRow ℕ)
  | _, [] => []
  | prev, block :: rest =>
      (roundRows ((external (block.raw prev)).map ZMod.val)).1 ++ blockRows (block.out prev) rest

theorem blockRows_append {prev : State M31} {first second : List Block} :
    blockRows prev (first ++ second) =
      blockRows prev first ++ blockRows (chainState prev first) second := by
  induction first generalizing prev with
  | nil => rfl
  | cons block rest ih =>
      rw [List.cons_append, blockRows, ih, blockRows, chainState_cons, List.append_assoc]

theorem blockOf_raw {x prev : State M31} {run : Option ChannelRun} {first last : Bool}
    {drawI addend : ℕ} {step : Step} (carried : (if first then zeroState else prev) = x) :
    (blockOf run first drawI addend last step).raw prev = { x with s0 := x.s0 + addend } := by
  rw [Block.raw, blockOf_carried carried]
  dsimp only [blockOf]

theorem fillStep_eq {ch : ChannelT8State} {x : State M31} {steps : ℕ}
    (holds : Holds ch x (steps + 1)) (rows : List (RoundRow ℕ)) (words : List ℕ)
    (drawn : List (ℕ × ℕ)) (step : Step) :
    fillStep ⟨rows, words, ch, drawn⟩ step =
      ⟨rows ++ (roundRows ((external
          ({ x with s0 := x.s0 + addendOf ch step } : State M31)).map ZMod.val)).1,
        words ++ [addendOf ch step], advance ch step, drawn ++ (pairOf ch step).toList⟩ := by
  have added := addCell x (holds.addend_lt step)
  rw [← holds.cells] at added
  rw [← Stwo.matExternal_map, ← added]
  cases step with
  | absorb word => rw [pairOf, Option.toList_none, List.append_nil]; rfl
  | draw => rfl

/-- The inner loop fills the rows and words of the placed steps. -/
theorem fillSteps_eq (run : Option ChannelRun) {steps : List Step} {ch : ChannelT8State}
    {x prev : State M31} (holds : Holds ch x steps.length) {first : Bool} {drawI : ℕ}
    (carried : (if first then zeroState else prev) = x) (rows : List (RoundRow ℕ))
    (words : List ℕ) (drawn : List (ℕ × ℕ)) :
    steps.foldl fillStep ⟨rows, words, ch, drawn⟩ =
      ⟨rows ++ blockRows prev (placeSteps run first drawI
          (steps.zip (addendsFrom ch.nDraws steps))),
        words ++ (placeSteps run first drawI
          (steps.zip (addendsFrom ch.nDraws steps))).map Block.word,
        (ch.run steps).2, drawn ++ (ch.run steps).1⟩ := by
  induction steps generalizing ch x prev first drawI rows words drawn with
  | nil =>
      rw [List.foldl_nil, run_nil, addendsFrom, List.zip_nil_left, placeSteps, blockRows,
        List.map_nil, List.append_nil, List.append_nil, List.append_nil]
  | cons step rest ih =>
      rw [List.length_cons] at holds
      have later := @ih (advance ch step) (afterStep x (addendOf ch step))
        (afterStep x (addendOf ch step)) (holds.advance step) false (drawI + drawCount step)
        (carried_later _)
      rw [List.foldl_cons, fillStep_eq holds, later, addendsFrom_cons, List.zip_cons_cons,
        placeSteps_cons, blockRows, blockOf_raw carried, blockOf_out carried, run_cons]
      simp only [List.append_assoc, List.map_cons, List.singleton_append, blockOf]

theorem fillRun_eq {cap : ℕ} {filled : Filled} {steps : List Step} (few : steps.length < P)
    (fits : filled.words.length + steps.length ≤ cap) (run : Option ChannelRun)
    (prev : State M31) :
    fillRun cap filled steps =
      ⟨filled.rows ++ blockRows prev (transcriptBlocks run steps),
        filled.words ++ (transcriptBlocks run steps).map Block.word,
        filled.runs ++ [honestRun steps]⟩ := by
  have loop := @fillSteps_eq run steps _ _ prev (Holds.init few) true 0 (if_pos rfl) filled.rows
    filled.words []
  rw [fillRun, List.take_of_length_le (by omega), loop]
  rfl

/-- The outer loop fills the rows and words of all blocks. -/
theorem fillRuns_eq {cap : ℕ} (runs : List ChannelRun) {transcripts : List (List Step)} {t : ℕ}
    {filled : Filled} (few : totalBlocks transcripts < P)
    (fits : filled.words.length + totalBlocks transcripts ≤ cap) (prev : State M31) :
    transcripts.foldl (fillRun cap) filled =
      ⟨filled.rows ++ blockRows prev (placeRuns cap runs t filled.words.length transcripts),
        filled.words ++ (placeRuns cap runs t filled.words.length transcripts).map Block.word,
        filled.runs ++ transcripts.map honestRun⟩ := by
  induction transcripts generalizing t filled prev with
  | nil => simp [placeRuns, blockRows]
  | cons steps transcripts ih =>
      rw [totalBlocks_cons] at few fits
      have length : (filled.words ++
          (transcriptBlocks runs[t]? steps).map Block.word).length =
          filled.words.length + steps.length := by
        rw [List.length_append, List.length_map, transcriptBlocks_length]
      have later := @ih (t + 1) ⟨filled.rows ++ blockRows prev (transcriptBlocks runs[t]? steps),
        filled.words ++ (transcriptBlocks runs[t]? steps).map Block.word,
        filled.runs ++ [honestRun steps]⟩ (by omega) (by rw [length]; omega)
        (chainState prev (transcriptBlocks runs[t]? steps))
      rw [length] at later
      rw [List.foldl_cons, fillRun_eq (by omega) (by omega) runs[t]? prev, later,
        placeRuns_cons (by omega), blockRows_append, List.map_append, List.map_cons]
      simp only [List.append_assoc, List.singleton_append]

/-! ## The filled trace -/

theorem stateAt_append {blocks : List Block} {block : Block} {k : ℕ} (inside : k ≤ blocks.length) :
    stateAt (blocks ++ [block]) k = stateAt blocks k := by
  rw [stateAt, stateAt, List.take_append_of_le_length inside]

theorem rawAt_append {blocks : List Block} {block : Block} {k : ℕ} (inside : k < blocks.length) :
    rawAt (blocks ++ [block]) k = rawAt blocks k := by
  rw [rawAt, rawAt, List.getElem?_append_left inside, stateAt_append inside.le]

theorem rawAt_last (blocks : List Block) (block : Block) :
    rawAt (blocks ++ [block]) blocks.length = block.raw (chainState zeroState blocks) := by
  rw [rawAt_eq List.getElem?_concat_length, stateAt_append le_rfl, stateAt, List.take_length]

theorem blockRows_eq (blocks : List Block) :
    blockRows zeroState blocks = (List.range blocks.length).flatMap fun k =>
      (roundRows ((external (rawAt blocks k)).map ZMod.val)).1 := by
  induction blocks using List.reverseRecOn with
  | nil => rfl
  | append_singleton blocks block ih =>
      have earlier : ((List.range blocks.length).flatMap fun k =>
          (roundRows ((external (rawAt (blocks ++ [block]) k)).map ZMod.val)).1) =
          (List.range blocks.length).flatMap fun k =>
            (roundRows ((external (rawAt blocks k)).map ZMod.val)).1 := by
        apply List.flatMap_congr
        intro k member
        rw [rawAt_append (List.mem_range.mp member)]
      rw [blockRows_append, ih, List.length_append, List.length_singleton, List.range_succ,
        List.flatMap_append, earlier, List.flatMap_singleton, rawAt_last, blockRows, blockRows,
        List.append_nil]

/-- The first padding row continues the last output. -/
theorem blockRows_carry (blocks : List Block) :
    (match (blockRows zeroState blocks).getLast? with
      | some row => row.out.map (· % P)
      | none => zeroState) =
      (honestIn (rawAt blocks) blocks.length (22 * blocks.length)).map ZMod.val := by
  rw [blockRows_eq, permutationRows_map]
  cases count : blocks.length with
  | zero =>
      rw [honestIn, if_neg (by omega), honestOut, if_neg (by omega)]
      exact zeroState_val.symm
  | succ earlier =>
      have last : 22 * (earlier + 1) = 22 * earlier + 21 + 1 := by ring
      have reduced (state : State M31) : (state.map ZMod.val).map (· % P) =
          state.map ZMod.val := by
        ext <;> exact Nat.mod_eq_of_lt (Stwo.val_lt_P _)
      have onward : honestIn (rawAt blocks) (earlier + 1) (22 * earlier + 21 + 1) =
          honestOut (rawAt blocks) (earlier + 1) (22 * earlier + 21) := by
        rw [honestIn, if_neg (by omega), Nat.add_sub_cancel]
      rw [last, List.range_succ, List.map_append, List.map_singleton, List.getLast?_concat]
      dsimp only
      rw [RoundRow.map_out, honestRoundRow, RoundRow.between, reduced, onward]

/-- Main columns over given blocks. -/
def honestMain (blocks : List Block) (row : ℕ) : MainRow :=
  ⟨honestRoundRow (rawAt blocks) blocks.length row,
    if row % 22 = 0 then m31 ((blocks.map Block.word).getD (row / 22) 0) else 0⟩

theorem roundRow_m31 (row : RoundRow M31) : (row.map ZMod.val).map m31 = row := by
  simp only [RoundRow.map, map_m31_val]

theorem blocks_few {transcripts : List (List Step)} {logSize : ℕ}
    (domain : logSize ≤ maxCosetLogSize) (fits : totalBlocks transcripts * 22 ≤ 2 ^ logSize) :
    totalBlocks transcripts < P := by
  have bound : 2 ^ logSize ≤ 2 ^ maxCosetLogSize := Nat.pow_le_pow_right (by omega) domain
  have order : 2 ^ maxCosetLogSize < 22 * P := by decide
  omega

/-- The builder fills the honest columns of the blocks, whatever runs are claimed. -/
theorem buildTraceMultiRaw_eq {transcripts : List (List Step)} {logSize : ℕ}
    (domain : logSize ≤ maxCosetLogSize) (fits : totalBlocks transcripts * 22 ≤ 2 ^ logSize)
    (runs : List ChannelRun) :
    buildTraceMultiRaw transcripts logSize =
      ((List.range (2 ^ logSize)).map
          (honestMain (placeRuns (2 ^ logSize / 22) runs 0 0 transcripts)),
        transcripts.map honestRun) := by
  have room : totalBlocks transcripts ≤ 2 ^ logSize / 22 :=
    (Nat.le_div_iff_mul_le (by omega)).mpr fits
  have few := blocks_few domain fits
  have loops := @fillRuns_eq (2 ^ logSize / 22) runs transcripts 0 ⟨[], [], []⟩ few
    (by rw [List.length_nil, Nat.zero_add]; exact room) zeroState
  have count : (placeRuns (2 ^ logSize / 22) runs 0 0 transcripts).length =
      totalBlocks transcripts := placeRuns_length (by rw [Nat.zero_add]; exact room)
  rw [List.nil_append, List.nil_append, List.nil_append, List.length_nil] at loops
  generalize placeRuns (2 ^ logSize / 22) runs 0 0 transcripts = blocks at loops count
  have within : 22 * blocks.length ≤ 2 ^ logSize := by omega
  have filled := filledRows (rawAt blocks) within
  rw [← blockRows_eq, ← blockRows_carry, Nat.mul_comm] at filled
  rw [buildTraceMultiRaw, loops]
  dsimp only
  rw [List.length_map, filled, Prod.mk.injEq]
  refine ⟨?_, rfl⟩
  apply List.ext_getElem
  · simp
  · intro row first second
    simp only [List.getElem_map, List.getElem_zipIdx, List.getElem_range, Nat.zero_add,
      roundRow_m31, honestMain]

/-- Rows of a trace, zeros behind the last. -/
def traceRow (rows : List MainRow) (row : ℕ) : MainRow :=
  rows.getD row ⟨⟨zeroState, zeroState, zeroState, zeroState⟩, 0⟩

theorem traceRow_eq {blocks : List Block} {logSize row : ℕ} (inside : row < 2 ^ logSize) :
    traceRow ((List.range (2 ^ logSize)).map (honestMain blocks)) row = honestMain blocks row := by
  rw [traceRow, List.getD_eq_getElem?_getD, List.getElem?_map, List.getElem?_range inside,
    Option.map_some, Option.getD_some]

theorem traceRow_fills {blocks : List Block} {logSize : ℕ}
    (fits : 22 * blocks.length ≤ 2 ^ logSize) :
    Fills blocks logSize (traceRow ((List.range (2 ^ logSize)).map (honestMain blocks))) := by
  constructor
  · intro row inside
    rw [traceRow_eq inside, honestMain]
  · intro k block found
    have inside : 22 * k < 2 ^ logSize := block_row_lt fits found (by omega : 0 < 22)
    have place : 22 * k / 22 = k := Nat.mul_div_cancel_left k (by omega)
    rw [traceRow_eq inside, honestMain, if_pos (Nat.mul_mod_right 22 k), place,
      List.getD_eq_getElem?_getD, List.getElem?_map, found, Option.map_some, Option.getD_some,
      m31_eq_cast]

/-! ## The circuit proves exactly the channel -/

/-- The first block of the first transcript starts from zero. -/
theorem placeRuns_starts {cap : ℕ} {runs : List ChannelRun} {transcripts : List (List Step)}
    (nonempty : ∀ steps ∈ transcripts, steps ≠ []) (fits : totalBlocks transcripts ≤ cap)
    (block : Block) (found : (placeRuns cap runs 0 0 transcripts)[0]? = some block) :
    block.isFirst = true := by
  cases transcripts with
  | nil => cases found
  | cons steps transcripts =>
      rw [totalBlocks_cons] at fits
      cases steps with
      | nil => exact absurd rfl (nonempty [] List.mem_cons_self)
      | cons step rest =>
          rw [placeRuns_cons (by omega), transcriptBlocks, stepAddends] at found
          have addends : addendsFrom 0 (step :: rest) = _ := addendsFrom_cons .init step rest
          rw [addends, List.zip_cons_cons, placeSteps_cons, List.cons_append,
            List.getElem?_cons_zero, Option.some.injEq] at found
          rw [← found]
          rfl

/-- One drawn pair for each draw of its transcript. -/
def OnePairPerDraw (transcripts : List (List Step)) (runs : List ChannelRun) : Prop :=
  runs.map (fun run => run.drawn.length) = transcripts.map fun steps => steps.count .draw

/-- Claimed runs that equal those of the channel modulo `P`. -/
def RunsOfChannel (transcripts : List (List Step)) (runs : List ChannelRun) : Prop :=
  runs.map ChannelRun.residues = transcripts.map fun steps => (honestRun steps).residues

section Exactness

variable {transcripts : List (List Step)} {logSize : ℕ}
  (nonempty : ∀ steps ∈ transcripts, steps ≠ []) (domain : logSize ≤ maxCosetLogSize)
  (fits : totalBlocks transcripts * 22 ≤ 2 ^ logSize)

include fits

theorem placed_fits (runs : List ChannelRun) :
    22 * (placeRuns (2 ^ logSize / 22) runs 0 0 transcripts).length ≤ 2 ^ logSize := by
  rw [placeRuns_length (by omega)]
  omega

include nonempty domain

theorem placed_agrees {runs : List ChannelRun} (lengths : OnePairPerDraw transcripts runs)
    (prev : State M31) :
    ChainAgrees prev (placeRuns (2 ^ logSize / 22) runs 0 0 transcripts) ↔
      RunsOfChannel transcripts runs := by
  have few := blocks_few domain fits
  have count := congrArg List.length lengths
  rw [List.length_map, List.length_map] at count
  rw [placeRuns_agrees nonempty (by omega) few (by omega), List.drop_zero, runsAgree_iff lengths,
    RunsOfChannel]

/-- The filled trace satisfies the circuit for all runs that are those of the channel. -/
theorem built_satisfies {runs : List ChannelRun} (lengths : OnePairPerDraw transcripts runs)
    (same : RunsOfChannel transcripts runs) :
    Satisfies (traceRow (buildTraceMultiRaw transcripts logSize).1)
      (buildPreprocMulti transcripts runs logSize) logSize := by
  have within := placed_fits fits runs
  rw [buildTraceMultiRaw_eq domain fits runs, buildPreprocMulti]
  exact (traceRow_fills within).satisfies within
    ((placed_agrees nonempty domain fits lengths zeroState).mpr same)
    (placeRuns_starts nonempty (by omega))

end Exactness

theorem honestRuns_pairs (transcripts : List (List Step)) :
    OnePairPerDraw transcripts (transcripts.map honestRun) := by
  rw [OnePairPerDraw, List.map_map]
  apply List.map_congr_left
  intro steps member
  exact run_length _ steps

/-- The circuit is satisfiable exactly for runs that equal those of the channel modulo `P`, and
the builder fills such a trace for the runs it returns.  Any number of transcripts share the
trace; each has at least one step and a pair claimed for each of its draws, and their blocks fit a
size that `CanonicCoset::new` takes. -/
theorem channel_proved_exactly (transcripts : List (List Step)) (logSize : ℕ)
    (nonempty : ∀ steps ∈ transcripts, steps ≠ []) (domain : logSize ≤ maxCosetLogSize)
    (fits : totalBlocks transcripts * 22 ≤ 2 ^ logSize) :
    (∀ runs, OnePairPerDraw transcripts runs →
      ((∃ main, Satisfies main (buildPreprocMulti transcripts runs logSize) logSize) ↔
        RunsOfChannel transcripts runs)) ∧
    ∃ rows, buildTraceMultiRaw transcripts logSize = (rows, transcripts.map honestRun) ∧
      rows.length = 2 ^ logSize ∧
      Satisfies (traceRow rows)
        (buildPreprocMulti transcripts (transcripts.map honestRun) logSize) logSize := by
  constructor
  · intro runs lengths
    constructor
    · rintro ⟨main, satisfied⟩
      rw [buildPreprocMulti] at satisfied
      have agrees := satisfied.chainAgrees (placed_fits fits runs) _ (by rw [List.drop_zero])
      exact (placed_agrees nonempty domain fits lengths _).mp agrees
    · intro same
      exact ⟨_, built_satisfies nonempty domain fits lengths same⟩
  · have own : RunsOfChannel transcripts (transcripts.map honestRun) := by
      rw [RunsOfChannel, List.map_map]
      rfl
    have satisfied := built_satisfies nonempty domain fits (honestRuns_pairs transcripts) own
    rw [buildTraceMultiRaw_eq domain fits []] at satisfied ⊢
    refine ⟨_, rfl, ?_, satisfied⟩
    rw [List.length_map, List.length_range]

/-- Two transcripts in one trace, the second without an absorption. -/
theorem two_transcripts_proved :
    let transcripts : List (List Step) := [[.absorb 5, .draw], [.draw]]
    (∀ runs, OnePairPerDraw transcripts runs →
      ((∃ main, Satisfies main (buildPreprocMulti transcripts runs 7) 7) ↔
        RunsOfChannel transcripts runs)) ∧
    ∃ rows, buildTraceMultiRaw transcripts 7 = (rows, transcripts.map honestRun) ∧
      rows.length = 2 ^ 7 ∧
      Satisfies (traceRow rows) (buildPreprocMulti transcripts (transcripts.map honestRun) 7) 7 :=
  channel_proved_exactly [[.absorb 5, .draw], [.draw]] 7 (by decide) (by decide) (by decide)

end ChannelT8
end Recursive
end QLSA
