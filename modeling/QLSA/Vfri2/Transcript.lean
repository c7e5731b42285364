import QLSA.Recursive.ChannelT8Trace
import QLSA.Vfri2.RecursionInputs

namespace QLSA
namespace Vfri2

open Mersenne Hash Stwo
open Machine (bind_eq_ok)
open Recursive.ChannelT8 (Step ChannelT8State reduceU32 advance pairOf run_nil run_cons)

/-!
# The transcript, replayed and listed

The public inputs of a statement determine its challenges.  The prover draws
them while it folds, the replay draws them from the committed roots alone, and
the recursion gets the same transcript as a list of steps, out of whose drawn
pairs a layout picks the challenges.
-/

/-! ## The replay -/

/-- The challenges and indices that a transcript yields. -/
structure Vfri11ChannelChallenges where
  zX : ℕ
  compAlpha : ℕ
  friAlpha : ℕ
  friAlphas : List ℕ
  queryIndices : List ℕ

/-- The loop over the roots behind the first layer. -/
def drawAlphas (chan : P2T8Channel) : List Bytes32 → List ℕ × P2T8Channel
  | [] => ([], chan)
  | root :: roots =>
      let (alpha, chan) := chan.drawSecureFelt
      let (alphas, chan) := drawAlphas (chan.mixRootW root) roots
      (alpha :: alphas, chan)

/-- The draws behind the checks. -/
def replayDraws (inp : Vfri11ChannelInputs) (first : Bytes32) (roots : List Bytes32) :
    Vfri11ChannelChallenges :=
  let z := (P2T8Channel.init.mixRootFull inp.traceRoot).drawSecureFelt
  let comp := z.2.drawSecureFelt
  let chan := comp.2.mixU32s (qm31Words inp.oodsComboPos ++ qm31Words inp.oodsComboNeg)
  let fri := (chan.mixRootW inp.compRoot).drawSecureFelt
  let folded := drawAlphas (fri.2.mixRootW first) roots
  let queries := (folded.2.mixRootFull inp.batchRoot).drawQueries inp.treeDepth inp.nQueries
  ⟨z.1, comp.1, fri.1, folded.1, queries.1⟩

def vfri11ReplayChannel (inp : Vfri11ChannelInputs) : Except String Vfri11ChannelChallenges :=
  if ¬ (2 ≤ inp.treeDepth ∧ inp.treeDepth ≤ 30) then
    .error s!"tree_depth={inp.treeDepth} must be in 2..=30"
  else if inp.nQueries = 0 ∨ 64 < inp.nQueries then
    .error s!"n_queries must be 1..64, got {inp.nQueries}"
  else
    match inp.friLayerRoots with
    | [] => .error "fri_layer_roots must contain at least the layer-1 root"
    | first :: roots =>
        if 29 < roots.length + 1 then
          .error s!"fri_layer_roots length {roots.length + 1} exceeds MAX_FOLD_ROUNDS + 1 (29)"
        else .ok (replayDraws inp first roots)

/-! ## The steps -/

def absorbWords (words : List ℕ) : List Step :=
  words.map fun word => .absorb (BitVec.ofNat 32 word)

def fullSteps (root : Bytes32) : List Step := absorbWords ((List.range 8).map (rootWord root))

def wideSteps (root : Bytes32) : List Step :=
  absorbWords ((List.range 4).map fun k => rootWord root (4 + k))

def feltSteps : List Step := [.draw, .draw]

def vfri11TranscriptSteps (inp : Vfri11ChannelInputs) : Except String (List Step) :=
  match inp.friLayerRoots with
  | [] => .error "fri_layer_roots must contain at least the layer-1 root"
  | first :: roots =>
      if inp.nQueries = 0 then .error "n_queries must be ≥ 1"
      else .ok (fullSteps inp.traceRoot ++ feltSteps ++ feltSteps ++
        absorbWords (qm31Words inp.oodsComboPos ++ qm31Words inp.oodsComboNeg) ++
        wideSteps inp.compRoot ++ feltSteps ++ wideSteps first ++
        roots.flatMap (fun root => feltSteps ++ wideSteps root) ++
        fullSteps inp.batchRoot ++ List.replicate ((inp.nQueries + 1) / 2) .draw)

/-- The first draw of each challenge. -/
structure ChallengeLayout where
  zXAt : ℕ
  alphaAt : List ℕ

/-- The highest draw that a layout reads. -/
def ChallengeLayout.maxDraw (layout : ChallengeLayout) : ℕ :=
  layout.alphaAt.foldl (fun m a => max m (a + 1)) (layout.zXAt + 1)

def vfri11ChallengeLayout (numFolds : ℕ) : ChallengeLayout :=
  ⟨0, (List.range (1 + numFolds)).map fun i => 4 + 2 * i⟩

structure DerivedChallenges where
  zX : ℕ
  /-- `friAlpha` and one challenge for each round. -/
  alphas : List ℕ
  drawn : List (ℕ × ℕ)
  digest : State ℕ

def maxSteps : ℕ := 512

def feltFrom (drawn : List (ℕ × ℕ)) (i : ℕ) : ℕ :=
  let first := drawn.getD i (0, 0)
  let second := drawn.getD (i + 1) (0, 0)
  Recursive.Qm31.pack ⟨first.1, first.2, second.1, second.2⟩

def deriveChallenges (steps : List Step) (layout : ChallengeLayout) :
    Except String DerivedChallenges :=
  if steps.isEmpty then .error "transcript must have ≥ 1 step"
  else if maxSteps < steps.length then
    .error s!"transcript length {steps.length} exceeds MAX_STEPS {maxSteps}"
  else
    let (drawn, ch) := ChannelT8State.init.run steps
    if drawn.length ≤ layout.maxDraw then
      .error s!"layout reads draw {layout.maxDraw} but the transcript makes only {drawn.length}"
    else .ok ⟨feltFrom drawn layout.zXAt, layout.alphaAt.map (feltFrom drawn), drawn, ch.s⟩

/-! ## Steps of the channel -/

/-- The same cells and the same counter. -/
def stepState (chan : P2T8Channel) : ChannelT8State := ⟨chan.s, chan.nDraws⟩

theorem run_append (ch : ChannelT8State) (first second : List Step) :
    ch.run (first ++ second) =
      ((ch.run first).1 ++ ((ch.run first).2.run second).1, ((ch.run first).2.run second).2) := by
  induction first generalizing ch with
  | nil => rfl
  | cons step rest ih => rw [List.cons_append, run_cons, ih, run_cons, List.append_assoc]

theorem reduceU32_ofNat {word : ℕ} (fits : word < 2 ^ 32) :
    reduceU32 (BitVec.ofNat 32 word) = reduceTwice word := by
  rw [reduceU32, reduceTwice, BitVec.toNat_ofNat, Nat.mod_eq_of_lt fits]

/-- The cells behind the absorption of a word. -/
def absorbedCells (s : State ℕ) (word : ℕ) : State ℕ :=
  permuteT8 { s with s0 := Stwo.m31Add s.s0 (reduceTwice word) }

theorem absorb_eq (chan : P2T8Channel) (word : ℕ) :
    chan.absorb word = ⟨absorbedCells chan.s word, chan.nDraws⟩ := rfl

theorem step_absorb_eq (ch : ChannelT8State) {word : ℕ} (fits : word < 2 ^ 32) :
    ch.absorb (BitVec.ofNat 32 word) = ⟨absorbedCells ch.s word, 0⟩ := by
  rw [ChannelT8State.absorb, reduceU32_ofNat fits, absorbedCells]

attribute [irreducible] absorbedCells

theorem foldl_absorb_eq (words : List ℕ) (chan : P2T8Channel) :
    words.foldl P2T8Channel.absorb chan = ⟨words.foldl absorbedCells chan.s, chan.nDraws⟩ := by
  induction words generalizing chan with
  | nil => rfl
  | cons word rest ih => rw [List.foldl_cons, ih, List.foldl_cons, absorb_eq]

theorem run_absorbWords {words : List ℕ} (nonempty : words ≠ [])
    (fits : ∀ word ∈ words, word < 2 ^ 32) (ch : ChannelT8State) :
    ch.run (absorbWords words) = ([], ⟨words.foldl absorbedCells ch.s, 0⟩) := by
  induction words generalizing ch with
  | nil => exact absurd rfl nonempty
  | cons word rest ih =>
      rw [List.forall_mem_cons] at fits
      rw [absorbWords, List.map_cons, run_cons, advance, step_absorb_eq ch fits.1,
        pairOf, Option.toList_none, List.nil_append, List.foldl_cons]
      cases rest with
      | nil => rfl
      | cons second rest =>
          have later := ih (List.cons_ne_nil second rest) fits.2 ⟨absorbedCells ch.s word, 0⟩
          rw [absorbWords] at later
          rw [later]

/-- Both channels draw the same pair and go on with the same cells. -/
theorem step_drawPair (chan : P2T8Channel) :
    (stepState chan).drawPair = (chan.drawPair.1, stepState chan.drawPair.2) := by
  rw [ChannelT8State.drawPair, P2T8Channel.drawPair, stepState, stepState]

/-- The elements that are spelled by pairs, two pairs for each. -/
def feltsOf : List (ℕ × ℕ) → List ℕ
  | first :: second :: rest =>
      Recursive.Qm31.pack ⟨first.1, first.2, second.1, second.2⟩ :: feltsOf rest
  | _ => []

theorem feltFrom_eq {drawn : List (ℕ × ℕ)} {j felt : ℕ} (found : (feltsOf drawn)[j]? = some felt) :
    feltFrom drawn (2 * j) = felt := by
  induction drawn using feltsOf.induct generalizing j with
  | case1 first second rest ih =>
      cases j with
      | zero => exact Option.some.inj found
      | succ j =>
          rw [feltsOf, List.getElem?_cons_succ] at found
          have place : 2 * (j + 1) = 2 * j + 1 + 1 := by ring
          rw [← ih found, place, feltFrom, List.getD_cons_succ, List.getD_cons_succ,
            List.getD_cons_succ, List.getD_cons_succ, feltFrom]
  | case2 drawn short =>
      rw [feltsOf] at found
      · cases found
      · exact short

/-- Steps that yield elements on the way from one state of the channel to another. -/
structure Yields (chan : P2T8Channel) (steps : List Step) (pairs : List (ℕ × ℕ)) (felts : List ℕ)
    (after : P2T8Channel) : Prop where
  run_eq : (stepState chan).run steps = (pairs, stepState after)
  felts_eq : ∀ rest, feltsOf (pairs ++ rest) = felts ++ feltsOf rest
  length_eq : pairs.length = 2 * felts.length

section Yields

variable {chan middle after : P2T8Channel} {steps later : List Step} {pairs others : List (ℕ × ℕ)}
  {felts more : List ℕ}

theorem Yields.append (first : Yields chan steps pairs felts middle)
    (second : Yields middle later others more after) :
    Yields chan (steps ++ later) (pairs ++ others) (felts ++ more) after where
  run_eq := by rw [run_append, first.run_eq, second.run_eq]
  felts_eq := by
    intro rest
    rw [List.append_assoc, first.felts_eq, second.felts_eq, List.append_assoc]
  length_eq := by
    rw [List.length_append, List.length_append, first.length_eq, second.length_eq]
    ring

theorem Yields.absorb {words : List ℕ} (nonempty : words ≠ [])
    (fits : ∀ word ∈ words, word < 2 ^ 32) (chan : P2T8Channel) :
    Yields chan (absorbWords words) [] []
      { words.foldl P2T8Channel.absorb chan with nDraws := 0 } where
  run_eq := by
    rw [run_absorbWords nonempty fits, foldl_absorb_eq]
    rfl
  felts_eq := fun _ => rfl
  length_eq := rfl

theorem Yields.mixU32s {words : List ℕ} (nonempty : words ≠ [])
    (fits : ∀ word ∈ words, word < 2 ^ 32) (chan : P2T8Channel) :
    Yields chan (absorbWords words) [] [] (chan.mixU32s words) :=
  .absorb nonempty fits chan

theorem Yields.mixRootFull (chan : P2T8Channel) (root : Bytes32) :
    Yields chan (fullSteps root) [] [] (chan.mixRootFull root) := by
  have absorbed := Yields.absorb (by simp : (List.range 8).map (rootWord root) ≠ [])
    (List.forall_mem_map.mpr fun i _ => rootWord_lt root i) chan
  rw [List.foldl_map] at absorbed
  exact absorbed

theorem Yields.mixRootW (chan : P2T8Channel) (root : Bytes32) :
    Yields chan (wideSteps root) [] [] (chan.mixRootW root) := by
  have absorbed := Yields.absorb
    (by simp : ((List.range 4).map fun k => rootWord root (4 + k)) ≠ [])
    (List.forall_mem_map.mpr fun k _ => rootWord_lt root (4 + k)) chan
  rw [List.foldl_map] at absorbed
  exact absorbed

/-- A drawn element is packed from its two pairs. -/
theorem drawSecureFelt_packed {elements : ℕ} (ready : P2T8Channel.Ready (elements + 1) chan) :
    chan.drawSecureFelt.1 = Recursive.Qm31.pack ⟨chan.drawPair.1.1, chan.drawPair.1.2,
      chan.drawPair.2.drawPair.1.1, chan.drawPair.2.drawPair.1.2⟩ := by
  have draws := ready.draws
  rcases P2T8Channel.drawPair_spec ready.cells (by omega) with ⟨⟨a, b, first⟩, cells, count⟩
  rcases P2T8Channel.drawPair_spec cells (by omega) with ⟨⟨c, d, second⟩, -, -⟩
  have limbs : chan.drawSecureFelt.1 = qm31PackC (cm31Pack chan.drawPair.1.1 chan.drawPair.1.2)
      (cm31Pack chan.drawPair.2.drawPair.1.1 chan.drawPair.2.drawPair.1.2) := rfl
  rw [limbs, first, second]
  exact (packed_quadOf ⟨⟨a, b⟩, ⟨c, d⟩⟩).symm

/-- A drawn element is spelled by its two pairs. -/
theorem Yields.drawSecureFelt {elements : ℕ} (ready : P2T8Channel.Ready (elements + 1) chan) :
    Yields chan feltSteps [chan.drawPair.1, chan.drawPair.2.drawPair.1] [chan.drawSecureFelt.1]
      chan.drawSecureFelt.2 where
  run_eq := by
    have behind : chan.drawSecureFelt.2 = chan.drawPair.2.drawPair.2 := rfl
    rw [feltSteps, run_cons, run_cons, run_nil, pairOf, advance, pairOf, advance, step_drawPair,
      step_drawPair, behind]
    rfl
  felts_eq := by
    intro rest
    rw [drawSecureFelt_packed ready]
    rfl
  length_eq := rfl

theorem drawAlphas_cons (chan : P2T8Channel) (root : Bytes32) (roots : List Bytes32) :
    drawAlphas chan (root :: roots) =
      (chan.drawSecureFelt.1 :: (drawAlphas (chan.drawSecureFelt.2.mixRootW root) roots).1,
        (drawAlphas (chan.drawSecureFelt.2.mixRootW root) roots).2) := rfl

/-- The loop over the roots behind the first layer. -/
theorem Yields.drawAlphas {roots : List Bytes32} (ready : P2T8Channel.Ready 2 chan) :
    ∃ pairs, Yields chan (roots.flatMap fun root => feltSteps ++ wideSteps root) pairs
        (Vfri2.drawAlphas chan roots).1 (Vfri2.drawAlphas chan roots).2 ∧
      P2T8Channel.Ready 2 (Vfri2.drawAlphas chan roots).2 := by
  induction roots generalizing chan with
  | nil => exact ⟨[], ⟨rfl, fun _ => rfl, rfl⟩, ready⟩
  | cons root roots ih =>
      have drawn := Yields.drawSecureFelt ready
      have still := (P2T8Channel.drawSecureFelt_spec ready).2
      have mixed := Yields.mixRootW chan.drawSecureFelt.2 root
      rcases ih (P2T8Channel.mixRootW_ready still root) with ⟨pairs, looped, after⟩
      rw [List.flatMap_cons, drawAlphas_cons]
      exact ⟨_, (drawn.append mixed).append looped, after⟩

/-- Draws at the end of a transcript. -/
theorem Yields.run_draws (first : Yields chan steps pairs felts middle) (count : ℕ) :
    ∃ rest final, (stepState chan).run (steps ++ List.replicate count .draw) =
      (pairs ++ rest, final) := by
  refine ⟨((stepState middle).run (List.replicate count .draw)).1,
    ((stepState middle).run (List.replicate count .draw)).2, ?_⟩
  rw [run_append, first.run_eq]

end Yields

/-- A state that the steps of a transcript lead to, and the elements that can be drawn there. -/
structure Reaches (steps : List Step) (pairs : List (ℕ × ℕ)) (felts : List ℕ) (elements : ℕ)
    (chan : P2T8Channel) : Prop where
  yields : Yields .init steps pairs felts chan
  ready : P2T8Channel.Ready elements chan

theorem Reaches.init : Reaches [] [] [] 0 .init :=
  ⟨⟨rfl, fun _ => rfl, rfl⟩, ⟨P2T8Channel.init_cells, Nat.zero_le _⟩⟩

section Reaches

variable {chan : P2T8Channel} {steps : List Step} {pairs : List (ℕ × ℕ)} {felts : List ℕ}
  {elements : ℕ}

/-- Absorptions yield nothing. -/
theorem Reaches.absorb {later : List Step} {after : P2T8Channel}
    (reaches : Reaches steps pairs felts elements chan) (absorbed : Yields chan later [] [] after)
    (ready : P2T8Channel.Ready 2 after) : Reaches (steps ++ later) pairs felts 2 after := by
  have yields := reaches.yields.append absorbed
  rw [List.append_nil, List.append_nil] at yields
  exact ⟨yields, ready⟩

theorem Reaches.mixRootFull (reaches : Reaches steps pairs felts elements chan) (root : Bytes32) :
    Reaches (steps ++ fullSteps root) pairs felts 2 (chan.mixRootFull root) :=
  reaches.absorb (.mixRootFull chan root) (P2T8Channel.mixRootFull_ready reaches.ready root)

theorem Reaches.mixRootW (reaches : Reaches steps pairs felts elements chan) (root : Bytes32) :
    Reaches (steps ++ wideSteps root) pairs felts 2 (chan.mixRootW root) :=
  reaches.absorb (.mixRootW chan root) (P2T8Channel.mixRootW_ready reaches.ready root)

theorem Reaches.mixU32s (reaches : Reaches steps pairs felts elements chan) {words : List ℕ}
    (nonempty : words ≠ []) (fits : ∀ word ∈ words, word < 2 ^ 32) :
    Reaches (steps ++ absorbWords words) pairs felts 2 (chan.mixU32s words) :=
  reaches.absorb (.mixU32s nonempty fits chan) (P2T8Channel.mixU32s_ready reaches.ready fits)

theorem Reaches.drawSecureFelt (reaches : Reaches steps pairs felts (elements + 1) chan) :
    Reaches (steps ++ feltSteps) (pairs ++ [chan.drawPair.1, chan.drawPair.2.drawPair.1])
      (felts ++ [chan.drawSecureFelt.1]) elements chan.drawSecureFelt.2 :=
  ⟨reaches.yields.append (.drawSecureFelt reaches.ready),
    (P2T8Channel.drawSecureFelt_spec reaches.ready).2⟩

end Reaches

/-! ## The steps yield the replayed challenges -/

/-- Public inputs that the replay accepts. -/
structure Vfri11ChannelInputs.Accepted (inp : Vfri11ChannelInputs) : Prop where
  depth : 2 ≤ inp.treeDepth ∧ inp.treeDepth ≤ 30
  queries : 1 ≤ inp.nQueries ∧ inp.nQueries ≤ 64
  roots : 1 ≤ inp.friLayerRoots.length ∧ inp.friLayerRoots.length ≤ 29

section Accepted

variable {inp : Vfri11ChannelInputs} {first : Bytes32} {roots : List Bytes32}

theorem vfri11ReplayChannel_eq (accepted : inp.Accepted)
    (listed : inp.friLayerRoots = first :: roots) :
    vfri11ReplayChannel inp = .ok (replayDraws inp first roots) := by
  have bounded := accepted.roots.2
  have queries := accepted.queries
  rw [listed, List.length_cons] at bounded
  rw [vfri11ReplayChannel, if_neg (not_not.mpr accepted.depth), if_neg (by omega), listed]
  dsimp only
  rw [if_neg (by omega)]

theorem vfri11TranscriptSteps_eq (accepted : inp.Accepted)
    (listed : inp.friLayerRoots = first :: roots) :
    vfri11TranscriptSteps inp = .ok (fullSteps inp.traceRoot ++ feltSteps ++ feltSteps ++
        absorbWords (qm31Words inp.oodsComboPos ++ qm31Words inp.oodsComboNeg) ++
        wideSteps inp.compRoot ++ feltSteps ++ wideSteps first ++
        roots.flatMap (fun root => feltSteps ++ wideSteps root) ++
        fullSteps inp.batchRoot ++ List.replicate ((inp.nQueries + 1) / 2) .draw) := by
  have queries := accepted.queries
  rw [vfri11TranscriptSteps, listed]
  dsimp only
  rw [if_neg (by omega)]

/-- The absorptions and the drawn elements of a transcript, up to the queries. -/
theorem transcript_yields (inp : Vfri11ChannelInputs) (first : Bytes32) (roots : List Bytes32) :
    ∃ pairs after, Yields .init (fullSteps inp.traceRoot ++ feltSteps ++ feltSteps ++
        absorbWords (qm31Words inp.oodsComboPos ++ qm31Words inp.oodsComboNeg) ++
        wideSteps inp.compRoot ++ feltSteps ++ wideSteps first ++
        roots.flatMap (fun root => feltSteps ++ wideSteps root) ++ fullSteps inp.batchRoot) pairs
      ((replayDraws inp first roots).zX :: (replayDraws inp first roots).compAlpha ::
        (replayDraws inp first roots).friAlpha :: (replayDraws inp first roots).friAlphas)
      after := by
  have words : ∀ word ∈ qm31Words inp.oodsComboPos ++ qm31Words inp.oodsComboNeg,
      word < 2 ^ 32 := List.forall_mem_append.mpr ⟨qm31Words_lt _, qm31Words_lt _⟩
  have combined : qm31Words inp.oodsComboPos ++ qm31Words inp.oodsComboNeg ≠ [] := by
    simp [qm31Words]
  have outer := ((((((Reaches.init.mixRootFull inp.traceRoot).drawSecureFelt).drawSecureFelt).mixU32s
    combined words).mixRootW inp.compRoot).drawSecureFelt).mixRootW first
  rcases @Yields.drawAlphas _ roots outer.ready with ⟨pairs, folds, after⟩
  have whole := (outer.yields.append folds).append (Yields.mixRootFull _ inp.batchRoot)
  rw [List.append_nil, List.append_nil] at whole
  exact ⟨_, _, whole⟩

theorem drawAlphas_length (chan : P2T8Channel) (roots : List Bytes32) :
    (drawAlphas chan roots).1.length = roots.length := by
  induction roots generalizing chan with
  | nil => rfl
  | cons root roots ih => rw [drawAlphas_cons, List.length_cons, List.length_cons, ih]

theorem steps_length (inp : Vfri11ChannelInputs) (first : Bytes32) (roots : List Bytes32) :
    (fullSteps inp.traceRoot ++ feltSteps ++ feltSteps ++
        absorbWords (qm31Words inp.oodsComboPos ++ qm31Words inp.oodsComboNeg) ++
        wideSteps inp.compRoot ++ feltSteps ++ wideSteps first ++
        roots.flatMap (fun root => feltSteps ++ wideSteps root) ++ fullSteps inp.batchRoot ++
        List.replicate ((inp.nQueries + 1) / 2) Step.draw).length =
      38 + 6 * roots.length + (inp.nQueries + 1) / 2 := by
  have round (root : Bytes32) : (feltSteps ++ wideSteps root).length = 6 := by
    simp [feltSteps, wideSteps, absorbWords]
  have rounds : (roots.flatMap fun root => feltSteps ++ wideSteps root).length =
      6 * roots.length := by
    induction roots with
    | nil => rfl
    | cons root roots ih =>
        rw [List.flatMap_cons, List.length_append, round, ih, List.length_cons]
        ring
  have full (root : Bytes32) : (fullSteps root).length = 8 := by simp [fullSteps, absorbWords]
  have wide (root : Bytes32) : (wideSteps root).length = 4 := by simp [wideSteps, absorbWords]
  have combos : (absorbWords (qm31Words inp.oodsComboPos ++ qm31Words inp.oodsComboNeg)).length =
      8 := by simp [absorbWords, qm31Words]
  have felt : feltSteps.length = 2 := rfl
  simp only [List.length_append, List.length_replicate, rounds, full, wide, combos, felt]
  omega

theorem maxDraw_lt {layout : ChallengeLayout} {bound : ℕ} (own : layout.zXAt + 1 < bound)
    (alphas : ∀ a ∈ layout.alphaAt, a + 1 < bound) : layout.maxDraw < bound := by
  rcases layout with ⟨zXAt, alphaAt⟩
  rw [ChallengeLayout.maxDraw]
  dsimp only at own alphas ⊢
  generalize zXAt + 1 = start at own
  induction alphaAt generalizing start with
  | nil => exact own
  | cons a rest ih =>
      rw [List.forall_mem_cons] at alphas
      exact ih alphas.2 (max start (a + 1)) (max_lt own alphas.1)

/-- The layout picks the challenges of the replay out of the draws of steps that
are few enough. -/
theorem deriveChallenges_of_short {steps : List Step} (listed : inp.friLayerRoots = first :: roots)
    (transcript : vfri11TranscriptSteps inp = .ok steps) (short : steps.length ≤ maxSteps) :
    ∃ derived, deriveChallenges steps (vfri11ChallengeLayout roots.length) = .ok derived ∧
      derived.zX = (replayDraws inp first roots).zX ∧
      derived.alphas =
        (replayDraws inp first roots).friAlpha :: (replayDraws inp first roots).friAlphas := by
  rw [vfri11TranscriptSteps, listed] at transcript
  dsimp only at transcript
  split at transcript
  case isTrue => cases transcript
  case isFalse =>
    have written := Except.ok.inj transcript
    subst written
    rcases transcript_yields inp first roots with ⟨pairs, after, yields⟩
    have alphas : (replayDraws inp first roots).friAlphas.length = roots.length :=
      drawAlphas_length _ _
    have length := steps_length inp first roots
    rcases yields.run_draws ((inp.nQueries + 1) / 2) with ⟨rest, final, run⟩
    have spelled := yields.felts_eq rest
    have count := yields.length_eq
    rw [List.length_cons, List.length_cons, List.length_cons, alphas] at count
    generalize replayDraws inp first roots = challenges at *
    have start : stepState .init = ChannelT8State.init := rfl
    rw [start] at run
    refine ⟨⟨feltFrom (pairs ++ rest) 0, (vfri11ChallengeLayout roots.length).alphaAt.map
      (feltFrom (pairs ++ rest)), pairs ++ rest, final.s⟩, ?derived, ?zX, ?alphas⟩
    case derived =>
      have reads : (vfri11ChallengeLayout roots.length).maxDraw < (pairs ++ rest).length := by
        rw [List.length_append, count]
        apply maxDraw_lt
        · rw [vfri11ChallengeLayout]
          dsimp only
          omega
        · intro a member
          rcases List.mem_map.mp member with ⟨i, inside, rfl⟩
          have below := List.mem_range.mp inside
          omega
      rw [deriveChallenges, if_neg, if_neg (not_lt.mpr short), run]
      · dsimp only
        rw [if_neg (not_le.mpr reads)]
        rfl
      · rw [List.isEmpty_iff_length_eq_zero, length]
        omega
    case zX => exact @feltFrom_eq _ 0 _ (by rw [spelled]; rfl)
    case alphas =>
      dsimp only
      apply List.ext_getElem
      · rw [List.length_map, vfri11ChallengeLayout, List.length_map, List.length_range,
          List.length_cons, alphas, Nat.add_comm]
      · intro i below inside
        have place : 4 + 2 * i = 2 * (i + 1 + 1) := by ring
        have found : (feltsOf (pairs ++ rest))[i + 1 + 1]? =
            some (challenges.friAlpha :: challenges.friAlphas)[i] := by
          rw [spelled, List.cons_append, List.cons_append, List.getElem?_cons_succ,
            List.getElem?_cons_succ, List.getElem?_append_left inside, List.getElem?_eq_getElem]
        simp only [vfri11ChallengeLayout, List.getElem_map, List.getElem_range, place]
        exact feltFrom_eq found

/-- The steps of accepted inputs are few enough. -/
theorem deriveChallenges_replayed (accepted : inp.Accepted)
    (listed : inp.friLayerRoots = first :: roots) :
    ∃ steps derived, vfri11TranscriptSteps inp = .ok steps ∧
      deriveChallenges steps (vfri11ChallengeLayout roots.length) = .ok derived ∧
      derived.zX = (replayDraws inp first roots).zX ∧
      derived.alphas =
        (replayDraws inp first roots).friAlpha :: (replayDraws inp first roots).friAlphas := by
  have transcript := vfri11TranscriptSteps_eq accepted listed
  have bounded := accepted.roots.2
  have queries := accepted.queries
  rw [listed, List.length_cons] at bounded
  rcases deriveChallenges_of_short listed transcript (by
    rw [steps_length inp first roots, maxSteps]
    omega) with ⟨derived, run, zX, alphas⟩
  exact ⟨_, derived, transcript, run, zX, alphas⟩

end Accepted

/-! ## Chains run on the replayed challenges -/

/-- The public inputs that a chain is published with. -/
def Vfri11Chain.published (ch : Vfri11Chain) (treeDepth : ℕ) (batchMerkleRoot : List UInt8)
    (nQueries : ℕ) : Vfri11ChannelInputs where
  traceRoot := ch.traceRoot
  oodsComboPos := ch.oodsComboPos
  oodsComboNeg := ch.oodsComboNeg
  compRoot := ch.compRoot
  friLayerRoots := ch.layerRoots
  batchRoot := nodeOfBytes batchMerkleRoot
  treeDepth := treeDepth
  nQueries := nQueries

/-- The challenges a chain was run with. -/
def Vfri11Chain.challenges (ch : Vfri11Chain) : Vfri11ChannelChallenges :=
  ⟨ch.zX, ch.compAlpha, ch.friAlpha, ch.friAlphas, ch.derivedIndices⟩

section Chains

variable {cols : List (List UInt32)} {treeDepth nQueries : ℕ} {batchMerkleRoot : List UInt8}
  {numFoldsOpt : Option ℕ} {ch : Vfri11Chain}

theorem checkInputs_queries
    (passed : checkInputs cols treeDepth batchMerkleRoot nQueries = .ok ()) :
    1 ≤ nQueries ∧ nQueries ≤ 64 := by
  unfold checkInputs at passed
  split at passed
  case isTrue => cases passed
  case isFalse =>
    split at passed
    case isTrue => cases passed
    case isFalse =>
      split at passed
      case isTrue => cases passed
      case isFalse range => omega

/-- The challenges that a backend draws over the roots of the rounds. -/
def P2Backend.roundAlphas (B : P2Backend) : B.Chan → List Bytes32 → List ℕ × B.Chan
  | chan, [] => ([], chan)
  | chan, root :: roots =>
      let drawn := B.drawSecureFelt chan
      let later := B.roundAlphas (B.mixRootW drawn.2 root) roots
      (drawn.1 :: later.1, later.2)

/-- The rounds of a chain draw over their own roots. -/
theorem foldLayers_roundAlphas {B : P2Backend} {remaining k : ℕ} {prev : List ℕ}
    {chan after : B.Chan} {layers : List FriLayer}
    (done : foldLayers B treeDepth remaining k prev chan = .ok (layers, after)) :
    B.roundAlphas chan (layers.map FriLayer.root) = (layers.map FriLayer.alpha, after) ∧
      layers.length = remaining := by
  induction remaining generalizing k prev chan layers with
  | zero =>
      cases done
      exact ⟨rfl, rfl⟩
  | succ remaining ih =>
      rw [foldLayers] at done
      dsimp only at done
      rcases bind_eq_ok.mp done with ⟨newVals, -, rest⟩
      rcases bind_eq_ok.mp rest with ⟨newLevels, -, rest⟩
      rcases bind_eq_ok.mp rest with ⟨later, looped, finished⟩
      cases finished
      rcases ih looped with ⟨drawn, count⟩
      refine ⟨?_, by rw [List.length_cons, count]⟩
      rw [List.map_cons, P2Backend.roundAlphas]
      dsimp only
      rw [drawn, List.map_cons]

theorem drawAlphas_eq (chan : P2T8Channel) (roots : List Bytes32) :
    drawAlphas chan roots = t8Backend.roundAlphas chan roots := by
  induction roots generalizing chan with
  | nil => rfl
  | cons root roots ih =>
      rw [drawAlphas_cons, ih]
      rfl

/-- The challenges of a chain are those of the inputs it is published with. -/
theorem vfri11FriChain_replayed
    (done : vfri11FriChain cols treeDepth batchMerkleRoot nQueries numFoldsOpt = .ok ch) :
    ∃ first roots, ch.layerRoots = first :: roots ∧ roots.length = ch.numFolds ∧
      foldCount treeDepth numFoldsOpt = .ok ch.numFolds ∧
      replayDraws (ch.published treeDepth batchMerkleRoot nQueries) first roots = ch.challenges := by
  rcases bind_eq_ok.mp done with ⟨passed, checked, next⟩
  rcases bind_eq_ok.mp next with ⟨traceRoot, -, next⟩
  rcases bind_eq_ok.mp next with ⟨compLevels, compBuilt, next⟩
  rcases bind_eq_ok.mp next with ⟨l1Values, opened, next⟩
  rcases bind_eq_ok.mp next with ⟨l1Levels, l1Built, next⟩
  rcases bind_eq_ok.mp next with ⟨numFolds, counted, next⟩
  rcases bind_eq_ok.mp next with ⟨⟨layers, after⟩, folded, finished⟩
  rcases foldLayers_roundAlphas folded with ⟨drawn, count⟩
  cases finished
  refine ⟨levelsRoot l1Levels, layers.map FriLayer.root, rfl, ?_, counted, ?_⟩
  · rw [List.length_map, count]
  · rw [replayDraws]
    dsimp only [Vfri11Chain.published, Vfri11Chain.challenges]
    rw [drawAlphas_eq]
    exact congrArg (fun folded : List ℕ × P2T8Channel => (⟨_, _, _, folded.1,
      ((folded.2.mixRootFull (nodeOfBytes batchMerkleRoot)).drawQueries treeDepth nQueries).1⟩ :
        Vfri11ChannelChallenges)) drawn

theorem Vfri11Chain.published_accepted {first : Bytes32} {roots : List Bytes32}
    (done : vfri11FriChain cols treeDepth batchMerkleRoot nQueries numFoldsOpt = .ok ch)
    (listed : ch.layerRoots = first :: roots) (count : roots.length = ch.numFolds)
    (capped : ch.numFolds ≤ 28) : (ch.published treeDepth batchMerkleRoot nQueries).Accepted := by
  rcases bind_eq_ok.mp done with ⟨passed, checked, -⟩
  refine ⟨checkInputs_ok checked, checkInputs_queries checked, ?_⟩
  rw [Vfri11Chain.published, listed, List.length_cons]
  omega

/-- One more root than the replay admits. -/
theorem vfri11ReplayChannel_capped {inp : Vfri11ChannelInputs} (depth : 2 ≤ inp.treeDepth)
    (depth' : inp.treeDepth ≤ 30) (queries : 1 ≤ inp.nQueries ∧ inp.nQueries ≤ 64)
    (many : 29 < inp.friLayerRoots.length) :
    vfri11ReplayChannel inp = .error
      s!"fri_layer_roots length {inp.friLayerRoots.length} exceeds MAX_FOLD_ROUNDS + 1 (29)" := by
  rw [vfri11ReplayChannel, if_neg (not_not.mpr ⟨depth, depth'⟩), if_neg (by omega)]
  cases listed : inp.friLayerRoots with
  | nil =>
      rw [listed] at many
      cases many
  | cons first roots =>
      rw [listed] at many
      exact if_pos many

/-- The inputs of the recursion carry what its chain is published with. -/
theorem genVfri11RecursionInputs_published {rec : Vfri11RecursionInputs}
    (done : genVfri11RecursionInputs cols treeDepth batchMerkleRoot nQueries numFoldsOpt =
      .ok rec) :
    ∃ ch, vfri11FriChain cols treeDepth batchMerkleRoot nQueries numFoldsOpt = .ok ch ∧
      rec.channelInputs = ch.published treeDepth batchMerkleRoot nQueries := by
  rcases bind_eq_ok.mp done with ⟨ch, chained, next⟩
  rcases bind_eq_ok.mp next with ⟨extracted, -, finished⟩
  refine ⟨ch, chained, ?_⟩
  split at finished
  · cases finished
  · cases finished
    rfl

end Chains

/-! ## A constant column -/

/-- All nodes of a level over equal leaves are equal. -/
theorem subtreeRoot_const {Node : Type} (pair : Node → Node → Node) (leaf : Node)
    (height index : ℕ) :
    Merkle.subtreeRoot pair (fun _ => leaf) height index =
      (fun node => pair node node)^[height] leaf := by
  induction height generalizing index with
  | zero => rfl
  | succ height ih => rw [Merkle.subtreeRoot, ih, ih, Function.iterate_succ_apply']

theorem checkColumns_replicate (n : ℕ) (entry : UInt32) :
    checkColumns [List.replicate n entry] n = .ok () := by
  rw [checkColumns, List.zipIdx_cons, List.zipIdx_nil, List.find?_cons]
  simp

/-- The trace root of a constant column. -/
theorem traceRootOf_replicate (B : P2Backend) (treeDepth : ℕ) (entry : UInt32) :
    traceRootOf B [List.replicate (2 ^ treeDepth) entry] treeDepth =
      .ok ((fun node => B.hashPair node node)^[treeDepth] (B.hashLeafCols [entry.toNat])) := by
  have leaves (i : ℕ) (inside : i / 2 ^ treeDepth = 0) :
      B.hashLeafCols (rowAt [List.replicate (2 ^ treeDepth) entry] i) =
        B.hashLeafCols [entry.toNat] := by
    have below : i < 2 ^ treeDepth := (Nat.div_eq_zero_iff_lt (Nat.two_pow_pos _)).mp inside
    rw [rowAt, List.map_singleton, List.getD_replicate _ below]
  rw [traceRootOf_eq rfl (checkColumns_replicate _ _), Merkle.subtreeRoot_congr _ _ _ _ _ leaves,
    subtreeRoot_const]

/-- A chain is returned when its point lies outside the base field. -/
theorem vfri11FriChain_succeeds {cols : List (List UInt32)} {treeDepth nQueries numFolds : ℕ}
    {batchMerkleRoot : List UInt8} {numFoldsOpt : Option ℕ} {traceRoot : Bytes32}
    (checked : checkInputs cols treeDepth batchMerkleRoot nQueries = .ok ())
    (traced : traceRootOf t8Backend cols treeDepth = .ok traceRoot)
    (counted : foldCount treeDepth numFoldsOpt = .ok numFolds)
    (extension : qm31C1 (P2T8Channel.init.mixRootFull traceRoot).drawSecureFelt.1 ≠ 0) :
    ∃ ch, vfri11FriChain cols treeDepth batchMerkleRoot nQueries numFoldsOpt = .ok ch := by
  have range := checkInputs_ok checked
  rcases (@P2T8Channel.drawSecureFelt_spec 1 _
    (P2T8Channel.mixRootFull_ready Reaches.init.ready traceRoot)).1 with ⟨z, drawn⟩
  have outside (x : QM31) (base : x.im = 0) : qm31Word (x - z) ≠ 0 := by
    intro zero
    have equal : x - z = 0 := qm31Word_injective (zero.trans rfl)
    rw [← sub_eq_zero.mp equal] at drawn
    rw [drawn, qm31C1_word, base] at extension
    exact extension rfl
  apply vfriFriChain_succeeds checked traced counted
  intro q inside
  have same : (t8Backend.drawSecureFelt (t8Backend.mixRootFull t8Backend.init traceRoot)).1 =
      qm31Word z := drawn
  have point : (cosetAt treeDepth q).1 = (cosetPoint treeDepth q).re.val := by
    rw [cosetAt_eq range.2]
    rfl
  rw [same, point, qm31FromM31_word, qm31Neg_word, qm31Sub_word, qm31Sub_word]
  exact ⟨outside _ rfl, outside _ neg_zero⟩

end Vfri2
end QLSA
