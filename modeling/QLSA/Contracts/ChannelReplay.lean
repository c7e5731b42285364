import QLSA.Contracts.BindingPreimages
import QLSA.Contracts.Poseidon2ChannelT8
import QLSA.Contracts.VFRI11
import QLSA.Vfri2.Transcript

namespace QLSA
namespace Contracts

open Mersenne Hash Vfri2
open Machine (bind_eq_ok)
open Stwo (Bytes32 hashLeafColsP2T8 hashPairP2T8)
open Poseidon2ChannelT8 hiding init
open VFRI11 (Uint128 Uint256 VerifyCtx)

/-!
# The transcript of the contracts

The replay library and the verifier draw the challenges of a statement from
its public values, each with its own loop over the layer roots.  Both walk
through the states of the prover's channel, so for one statement the prover's
replay, both contracts and the step list of the recursion agree.
-/

/-! ## The replay library -/

namespace RecursiveChannelReplay

/-- The casts keep the low 32 bits. -/
def qm31Words (v : ℕ) : List ℕ :=
  [(v >>> 96) % 2 ^ 32, (v >>> 64) % 2 ^ 32, (v >>> 32) % 2 ^ 32, v % 2 ^ 32]

/-- The loop over the roots behind the first. -/
def foldAlphas (s : ChannelState) : List Bytes32 → List ℕ × ChannelState
  | [] => ([], s)
  | root :: roots =>
      let (alpha, s) := drawSecureFelt s
      let (alphas, s) := foldAlphas (mixRootW s root) roots
      (alpha :: alphas, s)

/-- `replay`: the challenges in the order in which the transcript absorbs roots and draws.  It
reverts where the requirements fail and where there is no root of a first layer.  The struct
`Challenges` has the fields of the prover's. -/
def replay (inner : InnerPublics Bytes32) : Except String Vfri11ChannelChallenges := do
  replayRequirements inner
  let s := mixRootFull Poseidon2ChannelT8.init inner.traceRoot
  let (zX, s) := drawSecureFelt s
  let (compAlpha, s) := drawSecureFelt s
  let s := mixU32s s (qm31Words inner.oodsComboPos ++ qm31Words inner.oodsComboNeg)
  let (friAlpha, s) := drawSecureFelt (mixRootW s inner.compRoot)
  match inner.friLayerRoots with
  | [] => .error "Panic(0x32)"
  | first :: roots => do
      let (friAlphas, s) := foldAlphas (mixRootW s first) roots
      let (queryIndices, _) ← drawQueries (mixRootFull s inner.batchRoot) inner.treeDepth
        inner.nQueries
      return ⟨zX, compAlpha, friAlpha, friAlphas, queryIndices⟩

end RecursiveChannelReplay

/-! ## The verifier -/

namespace VFRI11

/-- The loop over the roots behind the first. -/
def buildFriAlphas (chan : ChannelState) : List Bytes32 → List Uint128 × ChannelState
  | [] => ([], chan)
  | root :: roots =>
      let (alpha, chan) := drawSecureFelt chan
      let (alphas, chan) := buildFriAlphas (mixRootW chan root) roots
      (Fin.ofNat (2 ^ 128) alpha :: alphas, chan)

/-- `_buildCtx`: the transcript as the contract replays it from the public inputs, with the
challenges and the indices it draws.  `none` is a revert. -/
def buildCtx (embeddedRoot : Bytes32) (oodsComboPos oodsComboNeg : Uint128) (compRoot : Bytes32)
    (friLayerRoots : List Bytes32) (nQueries logDomainSize : ℕ) (merkleRoot : Bytes32) :
    Option VerifyCtx := do
  let chan := mixRootFull Poseidon2ChannelT8.init embeddedRoot
  let (z_x, chan) := drawSecureFelt chan
  let (compAlpha, chan) := drawSecureFelt chan
  let comboWords := [oodsComboPos.val >>> 96 % 2 ^ 32, oodsComboPos.val >>> 64 % 2 ^ 32,
    oodsComboPos.val >>> 32 % 2 ^ 32, oodsComboPos.val % 2 ^ 32,
    oodsComboNeg.val >>> 96 % 2 ^ 32, oodsComboNeg.val >>> 64 % 2 ^ 32,
    oodsComboNeg.val >>> 32 % 2 ^ 32, oodsComboNeg.val % 2 ^ 32]
  let chan := mixU32s chan comboWords
  let (friAlpha, chan) := drawSecureFelt (mixRootW chan compRoot)
  match friLayerRoots with
  | [] => none
  | first :: roots => do
      let (friAlphas, chan) := buildFriAlphas (mixRootW chan first) roots
      let (derivedIndices, _) ← (drawQueries (mixRootFull chan merkleRoot) logDomainSize
        nQueries).toOption
      return {
        embeddedRoot := embeddedRoot
        z_x := Fin.ofNat (2 ^ 128) z_x
        compAlpha := Fin.ofNat (2 ^ 128) compAlpha
        compRoot := compRoot
        friAlpha := Fin.ofNat (2 ^ 128) friAlpha
        oodsComboPos := oodsComboPos
        oodsComboNeg := oodsComboNeg
        friLayerRoots := friLayerRoots
        friAlphas := friAlphas
        derivedIndices := derivedIndices.map (Fin.ofNat (2 ^ 256)) }

end VFRI11

/-! ## Channels in step -/

/-- A state of the contracts that mirrors a state of the prover, from which elements can be
drawn. -/
structure Mirrors (elements : ℕ) (st : ChannelState) (chan : P2T8Channel) : Prop where
  same : st = ofChannel chan
  ready : P2T8Channel.Ready elements chan

theorem Mirrors.init : Mirrors 0 Poseidon2ChannelT8.init .init :=
  ⟨rfl, ⟨P2T8Channel.init_cells, Nat.zero_le _⟩⟩

section Mirrors

variable {elements : ℕ} {st : ChannelState} {chan : P2T8Channel}

theorem Mirrors.mixRootFull (mirrors : Mirrors elements st chan) (root : Bytes32) :
    Mirrors 2 (Poseidon2ChannelT8.mixRootFull st root) (chan.mixRootFull root) where
  same := by rw [mirrors.same, mixRootFull_ofChannel mirrors.ready.cells]
  ready := P2T8Channel.mixRootFull_ready mirrors.ready root

theorem Mirrors.mixRootW (mirrors : Mirrors elements st chan) (root : Bytes32) :
    Mirrors 2 (Poseidon2ChannelT8.mixRootW st root) (chan.mixRootW root) where
  same := by rw [mirrors.same, mixRootW_ofChannel mirrors.ready.cells]
  ready := P2T8Channel.mixRootW_ready mirrors.ready root

theorem Mirrors.mixU32s (mirrors : Mirrors elements st chan) {words : List ℕ}
    (fits : ∀ word ∈ words, word < 2 ^ 32) :
    Mirrors 2 (Poseidon2ChannelT8.mixU32s st words) (chan.mixU32s words) where
  same := by rw [mirrors.same, mixU32s_ofChannel mirrors.ready.cells fits]
  ready := P2T8Channel.mixU32s_ready mirrors.ready fits

/-- Both channels draw one element, which fits a `uint128`. -/
theorem Mirrors.drawSecureFelt (mirrors : Mirrors (elements + 1) st chan) :
    ∃ after, Poseidon2ChannelT8.drawSecureFelt st = (chan.drawSecureFelt.1, after) ∧
      chan.drawSecureFelt.1 < 2 ^ 128 ∧ Mirrors elements after chan.drawSecureFelt.2 := by
  rcases P2T8Channel.drawSecureFelt_spec mirrors.ready with ⟨⟨felt, drawn⟩, still⟩
  refine ⟨ofChannel chan.drawSecureFelt.2, ?_, ?_, rfl, still⟩
  · rw [mirrors.same, drawSecureFelt_ofChannel mirrors.ready]
  · have high := cm31Word_lt felt.re
    have low := cm31Word_lt felt.im
    rw [drawn, qm31Word, qm31PackC_eq low]
    omega

theorem Mirrors.foldAlphas (mirrors : Mirrors 2 st chan) (roots : List Bytes32) :
    ∃ after, RecursiveChannelReplay.foldAlphas st roots = ((drawAlphas chan roots).1, after) ∧
      Mirrors 2 after (drawAlphas chan roots).2 := by
  induction roots generalizing st chan with
  | nil => exact ⟨st, rfl, mirrors⟩
  | cons root roots ih =>
      rcases mirrors.drawSecureFelt with ⟨drawn, felt, -, later⟩
      rcases ih (later.mixRootW root) with ⟨after, rest, still⟩
      rw [drawAlphas_cons]
      refine ⟨after, ?_, still⟩
      rw [RecursiveChannelReplay.foldAlphas, felt]
      dsimp only
      rw [rest]

theorem Mirrors.buildFriAlphas (mirrors : Mirrors 2 st chan) (roots : List Bytes32) :
    ∃ alphas after, VFRI11.buildFriAlphas st roots = (alphas, after) ∧
      alphas.map Fin.val = (drawAlphas chan roots).1 ∧ Mirrors 2 after (drawAlphas chan roots).2 := by
  induction roots generalizing st chan with
  | nil => exact ⟨[], st, rfl, rfl, mirrors⟩
  | cons root roots ih =>
      rcases mirrors.drawSecureFelt with ⟨drawn, felt, narrow, later⟩
      rcases ih (later.mixRootW root) with ⟨alphas, after, rest, values, still⟩
      rw [drawAlphas_cons]
      refine ⟨Fin.ofNat (2 ^ 128) chan.drawSecureFelt.1 :: alphas, after, ?_, ?_, still⟩
      · rw [VFRI11.buildFriAlphas, felt]
        dsimp only
        rw [rest]
      · rw [List.map_cons, values, Fin.val_ofNat, Nat.mod_eq_of_lt narrow]

theorem Mirrors.drawQueries (mirrors : Mirrors 2 st chan) {logDomainSize n : ℕ}
    (small : logDomainSize ≤ 30) (few : n ≤ 64) (counter : chan.nDraws = 0) :
    ∃ after, Poseidon2ChannelT8.drawQueries st logDomainSize n =
      .ok ((chan.drawQueries logDomainSize n).1, after) := by
  have draws : chan.nDraws + n < P := by
    simp only [P]
    omega
  refine ⟨ofChannel (chan.drawQueries logDomainSize n).2, ?_⟩
  rw [Poseidon2ChannelT8.drawQueries, if_pos (small.trans (by decide)), mirrors.same,
    fillQueries_ofChannel (small.trans (by decide)) mirrors.ready.cells draws]

end Mirrors

/-! ## One transcript -/

section Agreement

variable {inner : InnerPublics Bytes32} {first : Bytes32} {roots : List Bytes32}

theorem replay_eq (accepted : (channelInputs inner).Accepted)
    (listed : inner.friLayerRoots = first :: roots) :
    RecursiveChannelReplay.replay inner = .ok (replayDraws (channelInputs inner) first roots) := by
  have depth : 2 ≤ inner.treeDepth ∧ inner.treeDepth ≤ 30 := accepted.depth
  have count : 1 ≤ inner.nQueries ∧ inner.nQueries ≤ 64 := accepted.queries
  have layers : 1 ≤ inner.friLayerRoots.length ∧ inner.friLayerRoots.length ≤ 29 := accepted.roots
  have passed : replayRequirements inner = .ok () := by
    rw [replayRequirements, if_neg (not_not.mpr depth), if_neg (not_not.mpr count),
      if_neg (not_not.mpr layers.1), if_neg (not_not.mpr layers.2)]
  have words : ∀ word ∈ RecursiveChannelReplay.qm31Words inner.oodsComboPos ++
      RecursiveChannelReplay.qm31Words inner.oodsComboNeg, word < 2 ^ 32 :=
    List.forall_mem_append.mpr ⟨qm31Words_lt _, qm31Words_lt _⟩
  rcases (Mirrors.init.mixRootFull inner.traceRoot).drawSecureFelt with ⟨_, zX, -, mirrors⟩
  rcases mirrors.drawSecureFelt with ⟨_, compAlpha, -, mirrors⟩
  rcases ((mirrors.mixU32s words).mixRootW inner.compRoot).drawSecureFelt with
    ⟨_, friAlpha, -, mirrors⟩
  rcases (mirrors.mixRootW first).foldAlphas roots with ⟨_, friAlphas, mirrors⟩
  rcases (mirrors.mixRootFull inner.batchRoot).drawQueries depth.2 count.2 rfl with
    ⟨_, queries⟩
  rw [RecursiveChannelReplay.replay, passed, listed]
  dsimp only [Except.bind, bind]
  rw [zX]
  dsimp only
  rw [compAlpha]
  dsimp only
  rw [friAlpha]
  dsimp only
  rw [friAlphas]
  dsimp only
  rw [queries]
  rfl

/-- The challenges that a context holds. -/
def VFRI11.VerifyCtx.challenges (ctx : VerifyCtx) : Vfri11ChannelChallenges :=
  ⟨ctx.z_x, ctx.compAlpha, ctx.friAlpha, ctx.friAlphas.map Fin.val, ctx.derivedIndices.map Fin.val⟩

theorem buildCtx_eq (typed : inner.Typed) (accepted : (channelInputs inner).Accepted)
    (listed : inner.friLayerRoots = first :: roots) :
    ∃ ctx, VFRI11.buildCtx inner.traceRoot ⟨inner.oodsComboPos, typed.pos⟩
        ⟨inner.oodsComboNeg, typed.neg⟩ inner.compRoot inner.friLayerRoots inner.nQueries
        inner.treeDepth inner.batchRoot = some ctx ∧
      ctx.challenges = replayDraws (channelInputs inner) first roots := by
  have depth : 2 ≤ inner.treeDepth ∧ inner.treeDepth ≤ 30 := accepted.depth
  have count : 1 ≤ inner.nQueries ∧ inner.nQueries ≤ 64 := accepted.queries
  have words : ∀ word ∈ qm31Words inner.oodsComboPos ++ qm31Words inner.oodsComboNeg,
      word < 2 ^ 32 := List.forall_mem_append.mpr ⟨qm31Words_lt _, qm31Words_lt _⟩
  have narrow (chan : P2T8Channel) :
      ((chan.drawQueries inner.treeDepth inner.nQueries).1.map (Fin.ofNat (2 ^ 256))).map Fin.val =
        (chan.drawQueries inner.treeDepth inner.nQueries).1 := by
    rw [List.map_map]
    refine (List.map_congr_left ?_).trans (List.map_id _)
    intro query member
    have inside := P2T8Channel.drawQueries_lt depth.2 chan inner.nQueries query member
    exact Nat.mod_eq_of_lt (inside.trans_le (Nat.pow_le_pow_right (by decide) (by omega)))
  have comboWords : [inner.oodsComboPos >>> 96 % 2 ^ 32, inner.oodsComboPos >>> 64 % 2 ^ 32,
      inner.oodsComboPos >>> 32 % 2 ^ 32, inner.oodsComboPos % 2 ^ 32,
      inner.oodsComboNeg >>> 96 % 2 ^ 32, inner.oodsComboNeg >>> 64 % 2 ^ 32,
      inner.oodsComboNeg >>> 32 % 2 ^ 32, inner.oodsComboNeg % 2 ^ 32] =
    qm31Words inner.oodsComboPos ++ qm31Words inner.oodsComboNeg := rfl
  rcases (Mirrors.init.mixRootFull inner.traceRoot).drawSecureFelt with
    ⟨_, zX, zXNarrow, mirrors⟩
  rcases mirrors.drawSecureFelt with ⟨_, compAlpha, compNarrow, mirrors⟩
  rcases ((mirrors.mixU32s words).mixRootW inner.compRoot).drawSecureFelt with
    ⟨_, friAlpha, friNarrow, mirrors⟩
  rcases (mirrors.mixRootW first).buildFriAlphas roots with ⟨alphas, _, friAlphas, values, mirrors⟩
  rcases (mirrors.mixRootFull inner.batchRoot).drawQueries depth.2 count.2 rfl with ⟨_, queries⟩
  apply Exists.intro
  apply And.intro
  · rw [VFRI11.buildCtx, listed, zX]
    dsimp only
    rw [compAlpha]
    dsimp only
    rw [comboWords, friAlpha]
    dsimp only
    rw [friAlphas]
    dsimp only
    rw [queries]
    rfl
  · rw [VFRI11.VerifyCtx.challenges]
    dsimp only
    rw [Fin.val_ofNat, Fin.val_ofNat, Fin.val_ofNat, Nat.mod_eq_of_lt zXNarrow,
      Nat.mod_eq_of_lt compNarrow, Nat.mod_eq_of_lt friNarrow, values, narrow]
    rfl

end Agreement

/-- A chain whose roots are too many for the replay. -/
theorem longChain_refused {cols : List (List UInt32)} {treeDepth nQueries : ℕ}
    {batchMerkleRoot : List UInt8} {numFoldsOpt : Option ℕ} {ch : Vfri11Chain}
    (done : vfri11FriChain cols treeDepth batchMerkleRoot nQueries numFoldsOpt = .ok ch)
    (many : 28 < ch.numFolds) :
    vfri11ReplayChannel (ch.published treeDepth batchMerkleRoot nQueries) =
      .error s!"fri_layer_roots length {ch.layerRoots.length} exceeds MAX_FOLD_ROUNDS + 1 (29)" := by
  rcases vfri11FriChain_replayed done with ⟨first, roots, listed, count, -, -⟩
  rcases bind_eq_ok.mp done with ⟨_, checked, -⟩
  have range := checkInputs_ok checked
  apply vfri11ReplayChannel_capped range.1 range.2 (checkInputs_queries checked)
  rw [Vfri11Chain.published, listed, List.length_cons]
  omega

/-- The four readings of the public inputs of one statement. -/
structure OneTranscript (inner : InnerPublics Bytes32) (typed : inner.Typed)
    (challenges : Vfri11ChannelChallenges) : Prop where
  prover : vfri11ReplayChannel (channelInputs inner) = .ok challenges
  library : RecursiveChannelReplay.replay inner = .ok challenges
  verifier : ∃ ctx, VFRI11.buildCtx inner.traceRoot ⟨inner.oodsComboPos, typed.pos⟩
      ⟨inner.oodsComboNeg, typed.neg⟩ inner.compRoot inner.friLayerRoots inner.nQueries
      inner.treeDepth inner.batchRoot = some ctx ∧ ctx.challenges = challenges
  steps : ∃ steps derived, vfri11TranscriptSteps (channelInputs inner) = .ok steps ∧
    deriveChallenges steps (vfri11ChallengeLayout (inner.friLayerRoots.length - 1)) =
      .ok derived ∧
    derived.zX = challenges.zX ∧ derived.alphas = challenges.friAlpha :: challenges.friAlphas

/-- One transcript, written five times: the replay of the prover, both contracts and the steps of
the recursion agree on all admitted inputs, and they agree with every chain of at most 28 rounds.
A chain of 29 rounds publishes one root more than the replay admits. -/
theorem one_transcript :
    (∀ (inner : InnerPublics Bytes32) (typed : inner.Typed), (channelInputs inner).Accepted →
      ∃ challenges, OneTranscript inner typed challenges) ∧
    (∀ (cols : List (List UInt32)) (treeDepth nQueries : ℕ) (batchMerkleRoot : List UInt8)
      (numFoldsOpt : Option ℕ) (ch : Vfri11Chain),
      vfri11FriChain cols treeDepth batchMerkleRoot nQueries numFoldsOpt = .ok ch →
      (ch.numFolds ≤ 28 → vfri11ReplayChannel (ch.published treeDepth batchMerkleRoot nQueries) =
        .ok ch.challenges) ∧
      (28 < ch.numFolds → vfri11ReplayChannel (ch.published treeDepth batchMerkleRoot nQueries) =
        .error s!"fri_layer_roots length {ch.layerRoots.length} exceeds MAX_FOLD_ROUNDS + 1 (29)")) ∧
    ∀ (cols : List (List UInt32)) (treeDepth nQueries : ℕ) (batchMerkleRoot : List UInt8)
      (numFoldsOpt : Option ℕ) (rec : Vfri11RecursionInputs),
      genVfri11RecursionInputs cols treeDepth batchMerkleRoot nQueries numFoldsOpt = .ok rec →
      ∃ ch, vfri11FriChain cols treeDepth batchMerkleRoot nQueries numFoldsOpt = .ok ch ∧
        rec.channelInputs = ch.published treeDepth batchMerkleRoot nQueries := by
  refine ⟨?_, ?_, fun _ _ _ _ _ _ done => genVfri11RecursionInputs_published done⟩
  · intro inner typed accepted
    cases listed : inner.friLayerRoots with
    | nil =>
        have some : 1 ≤ inner.friLayerRoots.length := accepted.roots.1
        rw [listed] at some
        cases some
    | cons first roots =>
        have steps := deriveChallenges_replayed accepted listed
        have folds : inner.friLayerRoots.length - 1 = roots.length := by
          rw [listed, List.length_cons, Nat.add_sub_cancel]
        rw [← folds] at steps
        exact ⟨_, vfri11ReplayChannel_eq accepted listed, replay_eq accepted listed,
          buildCtx_eq typed accepted listed, steps⟩
  · intro cols treeDepth nQueries batchMerkleRoot numFoldsOpt ch done
    rcases vfri11FriChain_replayed done with ⟨first, roots, listed, count, -, same⟩
    constructor
    · intro capped
      rw [← same]
      exact vfri11ReplayChannel_eq (ch.published_accepted done listed count capped) listed
    · exact longChain_refused done

/-! ## A chain of twenty-nine rounds -/

/-- The continuation gets the evaluated number. -/
def strictly {α : Sort*} (n : ℕ) (k : ℕ → α) : α := Nat.casesOn n (k 0) fun m => k (m + 1)

theorem strictly_eq {α : Sort*} (n : ℕ) (k : ℕ → α) : strictly n k = k n := by
  cases n <;> rfl

/-- Climbs a tree whose levels hold one node each. -/
def climb : ℕ → Bytes32 → (Bytes32 → Bool) → Bool
  | 0, node, k => k node
  | height + 1, node, k =>
      strictly (hashPairP2T8 node node).toNat fun n => climb height (BitVec.ofNat 256 n) k

theorem climb_eq (height : ℕ) (node : Bytes32) (k : Bytes32 → Bool) :
    climb height node k = k ((fun node => hashPairP2T8 node node)^[height] node) := by
  induction height generalizing node with
  | zero => rfl
  | succ height ih => rw [climb, strictly_eq, BitVec.ofNat_toNat, BitVec.setWidth_eq, ih,
      Function.iterate_succ_apply]

/-- The continuation gets evaluated cells. -/
def strictCells (s : State ℕ) (k : State ℕ → Bool) : Bool :=
  strictly s.s0 fun s0 => strictly s.s1 fun s1 => strictly s.s2 fun s2 => strictly s.s3 fun s3 =>
  strictly s.s4 fun s4 => strictly s.s5 fun s5 => strictly s.s6 fun s6 => strictly s.s7 fun s7 =>
    k ⟨s0, s1, s2, s3, s4, s5, s6, s7⟩

theorem strictCells_eq (s : State ℕ) (k : State ℕ → Bool) : strictCells s k = k s := by
  simp only [strictCells, strictly_eq]

def absorbStrictly : List ℕ → P2T8Channel → (P2T8Channel → Bool) → Bool
  | [], chan, k => k chan
  | word :: words, chan, k =>
      strictCells (chan.absorb word).s fun s => absorbStrictly words ⟨s, chan.nDraws⟩ k

theorem absorbStrictly_eq (words : List ℕ) (chan : P2T8Channel) (k : P2T8Channel → Bool) :
    absorbStrictly words chan k = k (words.foldl P2T8Channel.absorb chan) := by
  induction words generalizing chan with
  | nil => rfl
  | cons word words ih => rw [absorbStrictly, strictCells_eq, ih, List.foldl_cons, absorb_eq]

/-- The trace root of the column of ones of the largest domain. -/
def onesRoot : Bytes32 := 16470983979702233566704829834343261726#256

theorem onesRoot_eq :
    (fun node => hashPairP2T8 node node)^[30] (hashLeafColsP2T8 [1]) = onesRoot := by
  have climbed : climb 30 (hashLeafColsP2T8 [1]) (fun node => node == onesRoot) = true := by
    decide +kernel
  rw [climb_eq] at climbed
  exact eq_of_beq climbed

theorem onesRoot_extension :
    qm31C1 (P2T8Channel.init.mixRootFull onesRoot).drawSecureFelt.1 ≠ 0 := by
  have drawn : absorbStrictly ((List.range 8).map (rootWord onesRoot)) .init
      (fun chan => qm31C1 { chan with nDraws := 0 }.drawSecureFelt.1 != 0) = true := by
    decide +kernel
  rw [absorbStrictly_eq, List.foldl_map] at drawn
  exact bne_iff_ne.mp drawn

theorem ones_chain (numFoldsOpt : Option ℕ) {numFolds : ℕ}
    (counted : foldCount 30 numFoldsOpt = .ok numFolds) :
    ∃ ch, vfri11FriChain [List.replicate (2 ^ 30) 1] 30 (List.replicate 32 1) 1 numFoldsOpt =
      .ok ch := by
  have leaf : t8Backend.hashLeafCols = hashLeafColsP2T8 := rfl
  have pair : t8Backend.hashPair = hashPairP2T8 := rfl
  have one : (1 : UInt32).toNat = 1 := rfl
  have traced := traceRootOf_replicate t8Backend 30 1
  rw [leaf, pair, one, onesRoot_eq] at traced
  have checked : checkInputs [List.replicate (2 ^ 30) 1] 30 (List.replicate 32 1) 1 = .ok () := by
    rw [checkInputs, if_neg (by decide), if_neg (by decide), if_neg (by decide), if_neg (by decide)]
    exact checkColumns_replicate _ _
  exact vfri11FriChain_succeeds checked traced counted onesRoot_extension

/-- Thirty roots are published, and none of them is replayed. -/
theorem longest_chain_not_replayed :
    ¬ ∀ (cols : List (List UInt32)) (treeDepth nQueries : ℕ) (batchMerkleRoot : List UInt8)
      (numFoldsOpt : Option ℕ) (ch : Vfri11Chain),
      vfri11FriChain cols treeDepth batchMerkleRoot nQueries numFoldsOpt = .ok ch →
      vfri11ReplayChannel (ch.published treeDepth batchMerkleRoot nQueries) =
        .ok ch.challenges := by
  intro claimed
  rcases @ones_chain none 29 rfl with ⟨ch, done⟩
  have replayed := claimed _ _ _ _ _ ch done
  rcases vfri11FriChain_replayed done with ⟨first, roots, listed, count, counted, -⟩
  have many : 28 < ch.numFolds := by
    rw [← Except.ok.inj counted]
    decide
  rw [longChain_refused done many] at replayed
  cases replayed

/-- The inputs of a small statement, and a chain of one round. -/
theorem one_round_replayed :
    (∃ challenges, OneTranscript (publicsWith [6, 5]) ⟨by decide, by decide⟩ challenges) ∧
      ∃ ch, vfri11FriChain [List.replicate (2 ^ 30) 1] 30 (List.replicate 32 1) 1 (some 1) =
          .ok ch ∧
        vfri11ReplayChannel (ch.published 30 (List.replicate 32 1) 1) = .ok ch.challenges := by
  refine ⟨one_transcript.1 _ _ ⟨by decide, by decide, by decide⟩, ?_⟩
  rcases @ones_chain (some 1) 1 rfl with ⟨ch, done⟩
  rcases vfri11FriChain_replayed done with ⟨first, roots, listed, count, counted, -⟩
  have few : ch.numFolds ≤ 28 := by
    rw [← Except.ok.inj counted]
    decide
  exact ⟨ch, done, (one_transcript.2.1 _ _ _ _ _ ch done).1 few⟩

end Contracts
end QLSA
