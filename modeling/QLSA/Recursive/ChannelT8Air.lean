import QLSA.Recursive.RoundTrace
import QLSA.Vfri2.Channel

namespace QLSA
namespace Recursive
namespace ChannelT8

open Hash Mersenne

/-!
# The channel circuit

A transcript is a list of steps that each add one value to the first cell of the
state and permute it.  The circuit spends a block of twenty-two rows on each
step and lays transcripts end to end; selectors say where a transcript starts
from zero, where a pair is drawn from the carried state and where a digest is
due.  What it proves is stated over the blocks alone: the states of the chain
they describe agree with the pinned pairs and digests.
-/

/-! ## The channel -/

/-- Two conditional subtractions. -/
def reduceU32 (word : BitVec 32) : ℕ :=
  let w := word.toNat
  let w := if P ≤ w then w - P else w
  if P ≤ w then w - P else w

inductive Step
  | absorb (word : BitVec 32)
  | draw
deriving DecidableEq

structure ChannelT8State where
  s : State ℕ
  nDraws : ℕ

namespace ChannelT8State

def init : ChannelT8State := ⟨zeroState, 0⟩

def absorb (ch : ChannelT8State) (word : BitVec 32) : ChannelT8State :=
  ⟨Stwo.permuteT8 { ch.s with s0 := Stwo.m31Add ch.s.s0 (reduceU32 word) }, 0⟩

/-- Cells 0 and 1 as `u32`, read before the counter is mixed in. -/
def drawPair (ch : ChannelT8State) : (ℕ × ℕ) × ChannelT8State :=
  ((ch.s.s0 % 2 ^ 32, ch.s.s1 % 2 ^ 32),
    ⟨Stwo.permuteT8 { ch.s with s0 := Stwo.m31Add ch.s.s0 ch.nDraws }, (ch.nDraws + 1) % 2 ^ 32⟩)

/-- The pairs that the draws of a transcript produce, and the state behind it. -/
def run (ch : ChannelT8State) : List Step → List (ℕ × ℕ) × ChannelT8State
  | [] => ([], ch)
  | .absorb word :: steps => (ch.absorb word).run steps
  | .draw :: steps =>
      let (pair, next) := ch.drawPair
      let (drawn, final) := next.run steps
      (pair :: drawn, final)

end ChannelT8State

/-- What each step adds to cell 0, from a number of draws on. -/
def addendsFrom : ℕ → List Step → List ℕ
  | _, [] => []
  | _, .absorb word :: steps => reduceU32 word :: addendsFrom 0 steps
  | nDraws, .draw :: steps => nDraws :: addendsFrom ((nDraws + 1) % 2 ^ 32) steps

def stepAddends (steps : List Step) : List ℕ := addendsFrom 0 steps

structure ChannelRun where
  digest : State ℕ
  drawn : List (ℕ × ℕ)

/-! ## The circuit -/

/-- Main columns of one row. -/
structure MainRow where
  round : RoundRow M31
  word : M31

/-- Preprocessed columns of one row. -/
structure PreprocRow where
  rc : State M31
  isExt : M31
  isInt : M31
  isBlock : M31
  isFirst : M31
  word : M31
  isDraw : M31
  drawn : M31 × M31
  isLast : M31
  digest : State M31

def PreprocRow.padding : PreprocRow :=
  ⟨zeroState, 0, 0, 0, 0, 0, 0, (0, 0), 0, zeroState⟩

/-- The carried state, which is zero at the start of a transcript. -/
def carriedExpr (isFirst : M31) (outPrev : State M31) : State M31 :=
  outPrev.map fun cell => (1 - isFirst) * cell

/-- All constraints of a row. -/
def evaluate (main previous : MainRow) (preproc : PreprocRow) : List M31 :=
  let outPrev := previous.round.out
  let prev := carriedExpr preproc.isFirst outPrev
  let raw := { prev with s0 := prev.s0 + main.word }
  let meRaw := matExternalExpr raw
  roundConstraints main.round preproc.rc preproc.isExt preproc.isInt ++
  stateDifferences main.round.inp (State.zipWith (fun raw out =>
    preproc.isBlock * raw + (1 - preproc.isBlock) * out) meRaw outPrev) ++
  [preproc.isBlock * (main.word - preproc.word)] ++
  [preproc.isDraw * (prev.s0 - preproc.drawn.1), preproc.isDraw * (prev.s1 - preproc.drawn.2)] ++
  (State.zipWith (fun out pin => preproc.isLast * (out - pin)) main.round.out
    preproc.digest).toList

/-- The main columns satisfy every constraint on every row. -/
def Satisfies (main : ℕ → MainRow) (preproc : ℕ → PreprocRow) (logSize : ℕ) : Prop :=
  ∀ row < 2 ^ logSize, Vanish (evaluate (main row) (main (previousRow logSize row)) (preproc row))

/-! ## Preprocessed columns -/

/-- What the preprocessed columns pin on the rows of one step. -/
structure Block where
  word : ℕ
  isFirst : Bool
  drawn : Option (ℕ × ℕ)
  digest : Option (State ℕ)

/-- Round `r` of a block. -/
def Block.row (block : Block) (r : ℕ) : PreprocRow where
  rc := (roundSchedule r).2.map m31
  isExt := if (roundSchedule r).1 then 1 else 0
  isInt := if (roundSchedule r).1 then 0 else 1
  isBlock := if r = 0 then 1 else 0
  isFirst := if r = 0 ∧ block.isFirst then 1 else 0
  word := if r = 0 then m31 block.word else 0
  isDraw := if r = 0 ∧ block.drawn.isSome then 1 else 0
  drawn := match block.drawn with
    | some (w0, w1) => if r = 0 then (m31 w0, m31 w1) else (0, 0)
    | none => (0, 0)
  isLast := if r = 22 - 1 ∧ block.digest.isSome then 1 else 0
  digest := match block.digest with
    | some digest => if r = 22 - 1 then digest.map m31 else zeroState
    | none => zeroState

/-- The steps of a transcript that are placed, with their addends. `drawI` counts
the draws before; the last step carries the digest. -/
def placeSteps (run : Option ChannelRun) : Bool → ℕ → List (Step × ℕ) → List Block
  | _, _, [] => []
  | first, drawI, (step, addend) :: rest =>
      let digest := if rest.isEmpty then run.map ChannelRun.digest else none
      match step with
      | .absorb _ => ⟨addend, first, none, digest⟩ :: placeSteps run false drawI rest
      | .draw =>
          let pair := (run.bind fun run => run.drawn[drawI]?).getD (0, 0)
          ⟨addend, first, some pair, digest⟩ :: placeSteps run false (drawI + 1) rest

/-- The blocks of all transcripts, as far as `cap` blocks reach. -/
def placeRuns (cap : ℕ) (runs : List ChannelRun) : ℕ → ℕ → List (List Step) → List Block
  | _, _, [] => []
  | t, block, steps :: transcripts =>
      let placed := placeSteps runs[t]? true 0
        ((steps.zip (stepAddends steps)).take (cap - block))
      placed ++ placeRuns cap runs (t + 1) (block + placed.length) transcripts

/-- Rows of blocks; the others stay zero. -/
def preprocRow (blocks : List Block) (row : ℕ) : PreprocRow :=
  match blocks[row / 22]? with
  | some block => block.row (row % 22)
  | none => .padding

/-- Preprocessed columns for several independent transcripts. -/
def buildPreprocMulti (transcripts : List (List Step)) (runs : List ChannelRun) (logSize : ℕ) :
    ℕ → PreprocRow :=
  preprocRow (placeRuns (2 ^ logSize / 22) runs 0 0 transcripts)

/-! ## The chain of the blocks -/

/-- The state a block starts from. -/
def Block.carried (block : Block) (prev : State M31) : State M31 :=
  if block.isFirst then zeroState else prev

/-- The state its permutation starts from. -/
def Block.raw (block : Block) (prev : State M31) : State M31 :=
  { block.carried prev with s0 := (block.carried prev).s0 + block.word }

/-- The state behind a block. -/
def Block.out (block : Block) (prev : State M31) : State M31 :=
  roundsFrom (columnConstant M31) (block.raw prev) 22

/-- The pins of a block agree with its states. -/
structure Block.Agrees (block : Block) (prev : State M31) : Prop where
  drawn_eq : ∀ w0 w1 : ℕ, block.drawn = some (w0, w1) →
    (block.carried prev).s0 = w0 ∧ (block.carried prev).s1 = w1
  digest_eq : ∀ digest, block.digest = some digest → block.out prev = digest.map m31

/-- The pins agree along a chain of blocks. -/
def ChainAgrees : State M31 → List Block → Prop
  | _, [] => True
  | prev, block :: rest => block.Agrees prev ∧ ChainAgrees (block.out prev) rest

/-- The state behind a chain of blocks. -/
def chainState (prev : State M31) (blocks : List Block) : State M31 :=
  blocks.foldl (fun state block => block.out state) prev

theorem chainState_cons (prev : State M31) (block : Block) (rest : List Block) :
    chainState prev (block :: rest) = chainState (block.out prev) rest := by
  rw [chainState, List.foldl_cons, chainState]

theorem chainAgrees_iff {prev : State M31} {blocks : List Block} :
    ChainAgrees prev blocks ↔ ∀ (k : ℕ) (block : Block), blocks[k]? = some block →
      block.Agrees (chainState prev (blocks.take k)) := by
  induction blocks generalizing prev with
  | nil => simp [ChainAgrees]
  | cons first rest ih =>
      rw [ChainAgrees, ih]
      constructor
      · rintro ⟨head, tail⟩ k block found
        cases k with
        | zero =>
            rw [List.getElem?_cons_zero, Option.some.injEq] at found
            rw [← found]
            exact head
        | succ k =>
            rw [List.take_succ_cons, chainState_cons]
            exact tail k block found
      · intro all
        refine ⟨all 0 first rfl, ?_⟩
        intro k block found
        have later := all (k + 1) block found
        rwa [List.take_succ_cons, chainState_cons] at later

theorem chainState_take_succ {prev : State M31} {blocks : List Block} {k : ℕ} {block : Block}
    (found : blocks[k]? = some block) :
    chainState prev (blocks.take (k + 1)) = block.out (chainState prev (blocks.take k)) := by
  rw [List.take_add_one, found, Option.toList_some, chainState, List.foldl_append, List.foldl_cons,
    List.foldl_nil, chainState]

/-! ## Rows of a block -/

section Rows

variable {blocks : List Block} {block : Block} {k r : ℕ}

theorem preprocRow_block (found : blocks[k]? = some block) (early : r < 22) :
    preprocRow blocks (22 * k + r) = block.row r := by
  have place : (22 * k + r) / 22 = k := by omega
  have step : (22 * k + r) % 22 = r := by omega
  rw [preprocRow, place, found, step]

theorem preprocRow_padding {row : ℕ} (after : 22 * blocks.length ≤ row) :
    preprocRow blocks row = .padding := by
  rw [preprocRow, List.getElem?_eq_none (by omega)]

theorem Block.row_selects (block : Block) (r : ℕ) :
    Selects (some r) (block.row r).rc (block.row r).isExt (block.row r).isInt := by
  refine ⟨?_, rfl, rfl⟩
  ext <;> simp [Block.row, scheduledConstants]

theorem padding_selects :
    Selects none PreprocRow.padding.rc PreprocRow.padding.isExt PreprocRow.padding.isInt :=
  ⟨rfl, rfl, rfl⟩

theorem carriedExpr_first (block : Block) (prev : State M31) :
    carriedExpr (block.row 0).isFirst prev = block.carried prev := by
  cases fresh : block.isFirst with
  | false => ext <;> simp [carriedExpr, Block.row, Block.carried, fresh]
  | true => ext <;> simp [carriedExpr, Block.row, Block.carried, fresh, zeroState]

theorem Block.row_isBlock (block : Block) (r : ℕ) :
    (block.row r).isBlock = if r = 0 then 1 else 0 := rfl

theorem Block.row_word (block : Block) : (block.row 0).word = (block.word : M31) :=
  m31_eq_cast block.word

/-- The pair of a drawing block is compared on its first row. -/
theorem Block.vanish_drawn (block : Block) (r : ℕ) (prev : State M31) :
    Vanish [(block.row r).isDraw * (prev.s0 - (block.row r).drawn.1),
        (block.row r).isDraw * (prev.s1 - (block.row r).drawn.2)] ↔
      (r = 0 → ∀ w0 w1 : ℕ, block.drawn = some (w0, w1) → prev.s0 = w0 ∧ prev.s1 = w1) := by
  simp only [vanish_cons, vanish_nil, and_true]
  cases drawn : block.drawn with
  | none => simp [Block.row, drawn]
  | some pair =>
      by_cases first : r = 0
      · simp [Block.row, drawn, first, sub_eq_zero, Prod.ext_iff]
      · simp [Block.row, first]

/-- The digest is compared on the last row. -/
theorem Block.vanish_digest (block : Block) (r : ℕ) (out : State M31) :
    Vanish (State.zipWith (fun out pin => (block.row r).isLast * (out - pin)) out
        (block.row r).digest).toList ↔
      (r = 21 → ∀ digest, block.digest = some digest → out = digest.map m31) := by
  cases digest : block.digest with
  | none => simp [Block.row, digest, State.zipWith, State.toList]
  | some digest =>
      simp only [Option.some.injEq, forall_eq']
      by_cases last : r = 21
      · simp [Block.row, digest, last, sub_eq_zero, State.zipWith, State.toList, State.ext_iff]
      · simp [Block.row, last, State.zipWith, State.toList]

end Rows

/-! ## Soundness -/

section Soundness

variable {main : ℕ → MainRow} {blocks : List Block} {logSize k r : ℕ} {block : Block}

/-- The state before a row. -/
def outBefore (main : ℕ → MainRow) (logSize row : ℕ) : State M31 :=
  (main (previousRow logSize row)).round.out

theorem block_row_lt (fits : 22 * blocks.length ≤ 2 ^ logSize) (found : blocks[k]? = some block)
    (early : r < 22) : 22 * k + r < 2 ^ logSize := by
  have inside := (List.getElem?_eq_some_iff.mp found).1
  omega

variable (satisfied : Satisfies main (preprocRow blocks) logSize)
  (fits : 22 * blocks.length ≤ 2 ^ logSize) (found : blocks[k]? = some block)

include satisfied fits found

/-- The groups of constraints on a row of a block. -/
theorem Satisfies.row (early : r < 22) :
    (main (22 * k + r)).round.out =
        Hash.round (columnConstant M31) r (main (22 * k + r)).round.inp ∧
      (main (22 * k + r)).round.inp = State.zipWith (fun raw out =>
          (block.row r).isBlock * raw + (1 - (block.row r).isBlock) * out)
        (external { carriedExpr (block.row r).isFirst (outBefore main logSize (22 * k + r)) with
          s0 := (carriedExpr (block.row r).isFirst (outBefore main logSize (22 * k + r))).s0 +
            (main (22 * k + r)).word })
        (outBefore main logSize (22 * k + r)) ∧
      (block.row r).isBlock * ((main (22 * k + r)).word - (block.row r).word) = 0 ∧
      Vanish [(block.row r).isDraw * ((carriedExpr (block.row r).isFirst
          (outBefore main logSize (22 * k + r))).s0 - (block.row r).drawn.1),
        (block.row r).isDraw * ((carriedExpr (block.row r).isFirst
          (outBefore main logSize (22 * k + r))).s1 - (block.row r).drawn.2)] ∧
      (r = 21 → ∀ digest, block.digest = some digest →
        (main (22 * k + r)).round.out = digest.map m31) := by
  have all := satisfied _ (block_row_lt fits found early)
  rw [preprocRow_block found early] at all
  simp only [evaluate, vanish_append, matExternalExpr_eq] at all
  rcases all with ⟨⟨⟨⟨core, input⟩, word⟩, pair⟩, digest⟩
  rw [vanish_roundConstraints (block.row_selects r)] at core
  refine ⟨congrArg RoundRow.out core, vanish_stateDifferences.mp input, ?_, pair,
    (block.vanish_digest r _).mp digest⟩
  rw [vanish_cons] at word
  exact word.1

/-- The first row of a block takes the carried state with the word added. -/
theorem Satisfies.inp_first :
    (main (22 * k)).round.inp = external (block.raw (outBefore main logSize (22 * k))) := by
  rcases satisfied.row fits found (by omega : 0 < 22) with ⟨-, input, word, -, -⟩
  rw [Nat.add_zero, carriedExpr_first, Block.row_isBlock, if_pos rfl] at input
  rw [Nat.add_zero, Block.row_isBlock, if_pos rfl, one_mul, Block.row_word] at word
  rw [input, sub_eq_zero.mp word, Block.raw]
  ext <;> simp

/-- Every other row takes the output before it. -/
theorem Satisfies.inp_next (early : r < 21) :
    (main (22 * k + (r + 1))).round.inp = (main (22 * k + r)).round.out := by
  have inside := block_row_lt fits found (by omega : r + 1 < 22)
  rcases satisfied.row fits found (by omega : r + 1 < 22) with ⟨-, input, -, -, -⟩
  have previous : previousRow logSize (22 * k + r + 1) = 22 * k + r :=
    previousRow_succ (by omega)
  rw [Block.row_isBlock, if_neg (Nat.succ_ne_zero r), outBefore, ← Nat.add_assoc,
    previous] at input
  rw [← Nat.add_assoc, input]
  ext <;> simp

/-- The last row of a block carries its state. -/
theorem Satisfies.out_last :
    (main (22 * k + 21)).round.out = block.out (outBefore main logSize (22 * k)) := by
  have first := satisfied.inp_first fits found
  exact @rounds_chain M31 _ (fun r => (main (22 * k + r)).round.inp)
    (fun r => (main (22 * k + r)).round.out) _ first
    (fun r early => (satisfied.row fits found early).1)
    (fun r early => satisfied.inp_next fits found early) 21 (by omega)

theorem Satisfies.agrees : block.Agrees (outBefore main logSize (22 * k)) := by
  constructor
  · intro w0 w1 drawn
    rcases satisfied.row fits found (by omega : 0 < 22) with ⟨-, -, -, pair, -⟩
    rw [Nat.add_zero, carriedExpr_first] at pair
    exact (block.vanish_drawn 0 _).mp pair rfl w0 w1 drawn
  · intro digest pinned
    rcases satisfied.row fits found (by omega : 21 < 22) with ⟨-, -, -, -, last⟩
    rw [← satisfied.out_last fits found]
    exact last rfl digest pinned

omit found in
theorem Satisfies.chainAgrees (rest : List Block) (suffix : blocks.drop k = rest) :
    ChainAgrees (outBefore main logSize (22 * k)) rest := by
  induction rest generalizing k with
  | nil => trivial
  | cons first rest ih =>
      have found : blocks[k]? = some first := by
        rw [← List.head?_drop, suffix, List.head?_cons]
      have later : blocks.drop (k + 1) = rest := by
        rw [← List.drop_drop, suffix, List.drop_succ_cons, List.drop_zero]
      have agrees := ih later
      have inside := block_row_lt fits found (by omega : 21 < 22)
      refine ⟨satisfied.agrees fits found, ?_⟩
      rw [← satisfied.out_last fits found]
      cases rest with
      | nil => trivial
      | cons second rest =>
          have next : blocks[k + 1]? = some second := by
            rw [← List.head?_drop, later, List.head?_cons]
          have beyond := block_row_lt fits next (by omega : 0 < 22)
          have place : 22 * (k + 1) = 22 * k + 21 + 1 := by ring
          rw [outBefore, place, previousRow_succ (by omega)] at agrees
          exact agrees

end Soundness

/-! ## Completeness -/

section Completeness

variable {blocks : List Block} {block : Block} {logSize k : ℕ}

/-- The state before a block. -/
def stateAt (blocks : List Block) (k : ℕ) : State M31 := chainState zeroState (blocks.take k)

/-- The state that the permutation of a block starts from. -/
def rawAt (blocks : List Block) (k : ℕ) : State M31 :=
  match blocks[k]? with
  | some block => block.raw (stateAt blocks k)
  | none => zeroState

theorem rawAt_eq (found : blocks[k]? = some block) :
    rawAt blocks k = block.raw (stateAt blocks k) := by
  rw [rawAt, found]

theorem honestOut_last (found : blocks[k]? = some block) :
    honestOut (rawAt blocks) blocks.length (22 * k + 21) = block.out (stateAt blocks k) := by
  have inside := (List.getElem?_eq_some_iff.mp found).1
  have last : honestOut (rawAt blocks) blocks.length (22 * k + 21) =
      roundsFrom (columnConstant M31) (rawAt blocks k) 22 :=
    honestOut_round (rawAt blocks) inside (by omega)
  rw [last, rawAt_eq found, Block.out]

/-- What a block carries is the state before it. -/
theorem honest_carried (fits : 22 * blocks.length ≤ 2 ^ logSize) (found : blocks[k]? = some block)
    (starts : ∀ block, blocks[0]? = some block → block.isFirst = true) :
    block.carried (honestOut (rawAt blocks) blocks.length (previousRow logSize (22 * k))) =
      block.carried (stateAt blocks k) := by
  cases k with
  | zero =>
      have fresh := starts block found
      rw [Block.carried, Block.carried, if_pos fresh, if_pos fresh]
  | succ k =>
      have inside := (List.getElem?_eq_some_iff.mp found).1
      have before : blocks[k]? = some blocks[k] := List.getElem?_eq_getElem (by omega)
      have place : 22 * (k + 1) = 22 * k + 21 + 1 := by ring
      have previous : previousRow logSize (22 * (k + 1)) = 22 * k + 21 := by
        rw [place, previousRow_succ (by omega)]
      rw [previous, honestOut_last before, stateAt, stateAt, chainState_take_succ before]

/-- Main columns with the rounds of the chain and its words. -/
structure Fills (blocks : List Block) (logSize : ℕ) (main : ℕ → MainRow) : Prop where
  rounds : ∀ row < 2 ^ logSize,
    (main row).round = honestRoundRow (rawAt blocks) blocks.length row
  words : ∀ k block, blocks[k]? = some block → (main (22 * k)).word = block.word

variable {main : ℕ → MainRow} (fills : Fills blocks logSize main)
  (fits : 22 * blocks.length ≤ 2 ^ logSize)

include fills fits

omit fits in
theorem Fills.out {row : ℕ} (inside : row < 2 ^ logSize) :
    (main row).round.out = honestOut (rawAt blocks) blocks.length row := by
  rw [fills.rounds row inside]
  rfl

/-- A row of a block has the input that the wiring asks for. -/
theorem Fills.input (found : blocks[k]? = some block)
    (starts : ∀ block, blocks[0]? = some block → block.isFirst = true) {r : ℕ} (early : r < 22) :
    (main (22 * k + r)).round.inp = State.zipWith (fun raw out =>
        (block.row r).isBlock * raw + (1 - (block.row r).isBlock) * out)
      (external { carriedExpr (block.row r).isFirst (outBefore main logSize (22 * k + r)) with
        s0 := (carriedExpr (block.row r).isFirst (outBefore main logSize (22 * k + r))).s0 +
          (main (22 * k + r)).word })
      (outBefore main logSize (22 * k + r)) := by
  have count := (List.getElem?_eq_some_iff.mp found).1
  have inside := block_row_lt fits found early
  have previous : previousRow logSize (22 * k + r) < 2 ^ logSize :=
    Nat.mod_lt _ (Nat.two_pow_pos _)
  have own : (main (22 * k + r)).round.inp =
      honestIn (rawAt blocks) blocks.length (22 * k + r) := by
    rw [fills.rounds _ inside]
    rfl
  rw [own, outBefore, fills.out previous, honestIn_round _ count early]
  cases r with
  | zero =>
      rw [Nat.add_zero, carriedExpr_first, honest_carried fits found starts, fills.words k block found,
        Block.row_isBlock, if_pos rfl, roundsFrom, rawAt_eq found, Block.raw]
      ext <;> simp
  | succ r =>
      have before : previousRow logSize (22 * k + (r + 1)) = 22 * k + r := previousRow_succ inside
      rw [before, honestOut_round _ count (by omega), Block.row_isBlock,
        if_neg (Nat.succ_ne_zero r)]
      ext <;> simp

theorem Fills.block_row (found : blocks[k]? = some block)
    (starts : ∀ block, blocks[0]? = some block → block.isFirst = true)
    (agrees : block.Agrees (stateAt blocks k)) {r : ℕ} (early : r < 22) :
    Vanish (evaluate (main (22 * k + r)) (main (previousRow logSize (22 * k + r)))
      (preprocRow blocks (22 * k + r))) := by
  have count := (List.getElem?_eq_some_iff.mp found).1
  have before : 22 * k + r < 22 * blocks.length := by omega
  have step : (22 * k + r) % 22 = r := by omega
  have inside := block_row_lt fits found early
  have previous : previousRow logSize (22 * k + r) < 2 ^ logSize :=
    Nat.mod_lt _ (Nat.two_pow_pos _)
  rw [preprocRow_block found early]
  simp only [evaluate, vanish_append, matExternalExpr_eq]
  refine ⟨⟨⟨⟨?core, ?input⟩, ?word⟩, ?pair⟩, ?digest⟩
  case core =>
    rw [vanish_roundConstraints (block.row_selects r), fills.rounds _ inside, honestRoundRow,
      if_pos before, step, (block.row_selects r).1, honestOut_eq_round before, step]
    rfl
  case input => exact vanish_stateDifferences.mpr (fills.input fits found starts early)
  case word =>
    rw [vanish_cons, Block.row_isBlock]
    refine ⟨?_, vanish_nil⟩
    split
    case isTrue first =>
      rw [first, Nat.add_zero, fills.words k block found, Block.row_word, sub_self, mul_zero]
    case isFalse => rw [zero_mul]
  case pair =>
    rw [block.vanish_drawn]
    rintro rfl w0 w1 drawn
    rw [carriedExpr_first, fills.out previous, Nat.add_zero, honest_carried fits found starts]
    exact agrees.drawn_eq w0 w1 drawn
  case digest =>
    rw [block.vanish_digest]
    rintro rfl digest pinned
    rw [fills.out inside, honestOut_last found]
    exact agrees.digest_eq digest pinned

omit fits in
theorem Fills.padding_row {row : ℕ} (inside : row < 2 ^ logSize)
    (after : 22 * blocks.length ≤ row) :
    Vanish (evaluate (main row) (main (previousRow logSize row)) (preprocRow blocks row)) := by
  have previous : previousRow logSize row < 2 ^ logSize := Nat.mod_lt _ (Nat.two_pow_pos _)
  have input : honestIn (rawAt blocks) blocks.length row =
      honestOut (rawAt blocks) blocks.length (previousRow logSize row) := by
    rw [honestIn, if_neg (by omega)]
    rcases Nat.eq_zero_or_pos row with rfl | later
    · rw [honestOut, honestOut, if_neg (by omega), if_neg (by omega)]
    · have succ : row - 1 + 1 = row := by omega
      have follows : previousRow logSize row = row - 1 := by
        rw [← succ, previousRow_succ (by omega), Nat.add_sub_cancel]
      rw [follows]
  rw [preprocRow_padding after]
  simp only [evaluate, vanish_append, matExternalExpr_eq]
  refine ⟨⟨⟨⟨?core, ?input⟩, ?word⟩, ?pair⟩, ?digest⟩
  case core =>
    rw [vanish_roundConstraints padding_selects, fills.rounds _ inside,
      honestRoundRow_padding _ after]
    rfl
  case input =>
    rw [vanish_stateDifferences, fills.out previous, fills.rounds _ inside, ← input]
    ext <;> simp [PreprocRow.padding, honestRoundRow, RoundRow.between]
  case word => simp [PreprocRow.padding]
  case pair => simp [PreprocRow.padding]
  case digest => simp [PreprocRow.padding, State.zipWith, State.toList]

/-- Such columns satisfy the constraints when the pins agree. -/
theorem Fills.satisfies (agrees : ChainAgrees zeroState blocks)
    (starts : ∀ block, blocks[0]? = some block → block.isFirst = true) :
    Satisfies main (preprocRow blocks) logSize := by
  intro row inside
  rcases Nat.lt_or_ge row (22 * blocks.length) with before | after
  · have found : blocks[row / 22]? = some blocks[row / 22] := List.getElem?_eq_getElem (by omega)
    have holds := fills.block_row fits found starts (chainAgrees_iff.mp agrees _ _ found)
      (Nat.mod_lt row (by omega : 22 > 0))
    rwa [Nat.div_add_mod row 22] at holds
  · exact fills.padding_row inside after

end Completeness

end ChannelT8
end Recursive
end QLSA
