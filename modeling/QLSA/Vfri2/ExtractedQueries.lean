import QLSA.Recursive.FoldTrace
import QLSA.Vfri2.Transcript

namespace QLSA
namespace Vfri2

open Mersenne Hash Stwo
open Machine (bind_eq_ok mapM_ok mapM_range_ok)
open Recursive.CompositionT8 (qm31LeafHashT8)
open Recursive.Qm31 (limbs qmul qadd qsub)
open Recursive.RecursiveVerifier (FoldRound StepOp canonical_packed compValue_packed oodsPoint
  oodsPoint_words queryChallenges recursiveQueryFinal)

/-!
# Queries that are extracted

The inputs of the recursion are read off a chain query by query.  Each query
runs under the challenges of the chain, all of its words have canonical limbs,
and the composition values that the recursion recomputes from the quotients are
the committed ones: no denominator of a chain is zero.
-/

theorem canonical_qm31Word (q : QM31) : (limbs (qm31Word q)).All Canonical := by
  rw [← packed_quadOf]
  exact canonical_packed _

theorem canonical_ofNat_val (x : M31) : Canonical (UInt32.ofNat x.val).toNat := by
  rw [UInt32.toNat_ofNat_of_lt' (val_small x)]
  exact val_lt_P x

/-- An oriented inverse is a canonical word. -/
theorem invOriented_canonical (curIdx layerSz : ℕ) (twiddle : M31) :
    Canonical (invOriented curIdx layerSz (m31Inv twiddle.val)).toNat := by
  rw [invOriented, m31Inv_val]
  split
  · exact canonical_ofNat_val _
  · rw [negatedInv_val]
    exact canonical_ofNat_val _

/-- As many queries are drawn as are asked for. -/
theorem drawQueries_length (chan : P2T8Channel) (logDomainSize n : ℕ) :
    (chan.drawQueries logDomainSize n).1.length = n := by
  induction n using Nat.twoStepInduction generalizing chan with
  | zero => rfl
  | one => rfl
  | more n ih _ =>
      rw [P2T8Channel.drawQueries]
      dsimp only
      rw [List.length_cons, List.length_cons, ih]

/-! ## Rounds -/

section Rounds

variable {ch : Vfri11Chain} {treeDepth : ℕ}

/-- All values and challenges of a chain are packed elements. -/
structure Vfri11Chain.Packed (ch : Vfri11Chain) : Prop where
  values : ∀ values ∈ ch.layerValues, ∀ value ∈ values, ∃ q : QM31, value = qm31Word q
  alphas : ∀ alpha ∈ ch.friAlphas, ∃ q : QM31, alpha = qm31Word q

theorem Rounds.alphas {B : P2Backend} {k : ℕ} {prev : List ℕ} {layers : List FriLayer}
    (rounds : Rounds B treeDepth k prev layers) :
    ∀ layer ∈ layers, ∃ q : QM31, layer.alpha = qm31Word q := by
  induction layers generalizing k prev with
  | nil => exact nofun
  | cons first rest ih =>
      rcases rounds with ⟨drawn, -, -, later⟩
      exact List.forall_mem_cons.mpr ⟨drawn, ih later⟩

theorem Vfri11Chain.Built.packed {B : P2Backend} (built : ch.Built B treeDepth) : ch.Packed := by
  rcases built.layers with ⟨first, layers, -, friAlphas, layerValues, -, -, committed, -, rounds⟩
  constructor
  case values =>
    rw [layerValues]
    intro values member
    rcases List.mem_map.mp member with ⟨layer, listed, rfl⟩
    rcases List.mem_cons.mp listed with rfl | later
    · exact committed.packed
    · rcases List.mem_iff_getElem?.mp later with ⟨i, found⟩
      exact (rounds.committed found).packed
  case alphas =>
    rw [friAlphas]
    exact List.forall_mem_map.mpr rounds.alphas

/-- Rounds are read with the challenges of the chain, on canonical words. -/
theorem extractRounds_ok (packed : ch.Packed) (bounded : treeDepth ≤ 30) {remaining k curIdx : ℕ}
    {extracted : List FoldRound × ℕ}
    (done : extractRounds ch treeDepth remaining k curIdx = .ok extracted) :
    extracted.1.map FoldRound.alpha = (ch.friAlphas.drop k).take remaining ∧
      ∀ foldRound ∈ extracted.1, foldRound.Canonical := by
  induction remaining generalizing k curIdx extracted with
  | zero =>
      cases done
      exact ⟨rfl, nofun⟩
  | succ remaining ih =>
      rw [extractRounds] at done
      split at done
      case h_1 values alpha valuesAt alphaAt =>
        dsimp only at done
        split at done
        case h_1 => cases done
        case h_2 sibling siblingAt =>
          rcases bind_eq_ok.mp done with ⟨later, read, finished⟩
          cases finished
          rcases ih read with ⟨alphas, canonical⟩
          have drop : ch.friAlphas.drop k = alpha :: ch.friAlphas.drop (k + 1) := by
            rcases List.getElem?_eq_some_iff.mp alphaAt with ⟨inside, rfl⟩
            exact List.drop_eq_getElem_cons inside
          rcases packed.values _ (List.mem_of_getElem? valuesAt) _ (List.mem_of_getElem? siblingAt)
            with ⟨sib, rfl⟩
          rcases packed.alphas _ (List.mem_of_getElem? alphaAt) with ⟨challenge, rfl⟩
          constructor
          · rw [List.map_cons, alphas, drop, List.take_succ_cons]
          · refine List.forall_mem_cons.mpr ⟨?_, canonical⟩
            refine ⟨canonical_qm31Word sib, canonical_qm31Word challenge, ?_⟩
            rw [twiddle_eq bounded]
            exact invOriented_canonical _ _ _
      case h_2 => cases done

end Rounds

/-! ## Steps -/

section Steps

variable {ch : Vfri11Chain} {treeDepth idx : ℕ}

/-- No denominator of a chain is zero. -/
def Vfri11Chain.Regular (ch : Vfri11Chain) (treeDepth : ℕ) : Prop :=
  ∀ q < 2 ^ treeDepth, qm31Sub (qm31FromM31 (cosetAt treeDepth q).1) ch.zX ≠ 0 ∧
    qm31Sub (qm31Neg (qm31FromM31 (cosetAt treeDepth q).1)) ch.zX ≠ 0

theorem vfri11FriChain_regular {cols : List (List UInt32)} {nQueries : ℕ}
    {batchMerkleRoot : List UInt8} {numFoldsOpt : Option ℕ}
    (done : vfri11FriChain cols treeDepth batchMerkleRoot nQueries numFoldsOpt = .ok ch) :
    ch.Regular treeDepth := by
  rcases bind_eq_ok.mp done with ⟨passed, checked, next⟩
  rcases bind_eq_ok.mp next with ⟨traceRoot, -, next⟩
  rcases bind_eq_ok.mp next with ⟨compLevels, compBuilt, next⟩
  rcases bind_eq_ok.mp next with ⟨l1Values, opened, next⟩
  rcases bind_eq_ok.mp next with ⟨l1Levels, l1Built, next⟩
  rcases bind_eq_ok.mp next with ⟨numFolds, counted, next⟩
  rcases bind_eq_ok.mp next with ⟨folded, -, finished⟩
  cases finished
  intro q inside
  rcases (mapM_range_ok opened).2 q inside with ⟨value, -, computed⟩
  rw [l1Value] at computed
  dsimp only at computed
  split at computed
  case isTrue => cases computed
  case isFalse nonzero => exact not_or.mp nonzero

theorem base_quad (x : M31) : quadOf (baseValue x) = ⟨x, 0, 0, 0⟩ := by
  ext <;> simp [quadOf, baseValue]

theorem sub_ne_zero_of_word {x y : QM31} (nonzero : qm31Sub (qm31Word x) (qm31Word y) ≠ 0) :
    x - y ≠ 0 := by
  intro zero
  rw [qm31Sub_word, zero] at nonzero
  exact nonzero rfl

/-- The quotients at an index, and the denominators they were divided by. -/
theorem quotients_elements (built : ch.Built t8Backend treeDepth) (inside : idx < 2 ^ treeDepth) :
    ∃ v w z pos neg : QM31, ch.compValues.getD idx 0 = qm31Word v ∧
      ch.compValues.getD (antipodalOf idx treeDepth) 0 = qm31Word w ∧ ch.zX = qm31Word z ∧
      ch.oodsComboPos = qm31Word pos ∧ ch.oodsComboNeg = qm31Word neg ∧
      quotients treeDepth ch.compValues ch.zX ch.oodsComboPos ch.oodsComboNeg idx =
        (qm31Word ((v - pos) / (baseValue (cosetPoint treeDepth idx).re - z)),
          qm31Word ((w - neg) / (-baseValue (cosetPoint treeDepth idx).re - z))) := by
  have valueAt (i : ℕ) (within : i < 2 ^ treeDepth) :
      ∃ v : QM31, ch.compValues.getD i 0 = qm31Word v := by
    have bound : i < ch.compValues.length := by rwa [built.comp.length]
    rw [List.getD_eq_getElem _ _ bound]
    exact built.comp.packed _ (List.getElem_mem bound)
  rcases valueAt idx inside with ⟨v, own⟩
  rcases valueAt _ (antipodalOf_lt idx treeDepth) with ⟨w, opposite⟩
  rcases built.zX with ⟨z, zX⟩
  rcases built.comboPos with ⟨pos, comboPos⟩
  rcases built.comboNeg with ⟨neg, comboNeg⟩
  refine ⟨v, w, z, pos, neg, own, opposite, zX, comboPos, comboNeg, ?_⟩
  rw [quotients, own, opposite, zX, comboPos, comboNeg, cosetAt_eq built.depth_le, coords]
  dsimp only
  rw [qm31FromM31_word, qm31Neg_word, qm31Sub_word, qm31Sub_word, qm31Sub_word, qm31Sub_word,
    qm31Div_word, qm31Div_word]

theorem stepOf_canonical (built : ch.Built t8Backend treeDepth) (inside : idx < 2 ^ treeDepth) :
    (stepOf ch treeDepth idx).Canonical := by
  rcases quotients_elements built inside with ⟨v, w, z, pos, neg, -, -, zX, comboPos, comboNeg,
    quotient⟩
  rcases built.friAlpha with ⟨alpha, friAlpha⟩
  rw [stepOf, quotient, zX, comboPos, comboNeg, friAlpha, cosetAt_eq built.depth_le, coords]
  dsimp only
  rw [m31Inv_val]
  exact ⟨canonical_qm31Word _, canonical_qm31Word _, canonical_qm31Word _, canonical_qm31Word _,
    canonical_qm31Word _, canonical_qm31Word _, canonical_ofNat_val _, canonical_ofNat_val _⟩

/-- Multiplying the denominator back recovers the value. -/
theorem recovered {v combo x z : QM31} (nonzero : x - z ≠ 0) {base : M31}
    (point : quadOf x = ⟨base, 0, 0, 0⟩) {d : Quad ℕ}
    (read : d = words (oodsPoint base 0 (quadOf z))) :
    Recursive.Qm31.pack (Recursive.Qm31.addLimbs (Recursive.Qm31.mulLimbs
      (limbs (qm31Word ((v - combo) / (x - z)))) d) (limbs (qm31Word combo))) = qm31Word v := by
  have element : (v - combo) / (x - z) * (x - z) + combo = v := by
    rw [div_mul_cancel₀ _ nonzero, sub_add_cancel]
  have difference : oodsPoint base 0 (quadOf z) = quadOf (x - z) := by
    rw [← qsub_quadOf, point]
    rfl
  rw [← packed_quadOf ((v - combo) / (x - z)), ← packed_quadOf combo, compValue_packed _ _ _ read,
    difference, qmul_quadOf, qadd_quadOf, element, packed_quadOf]

/-- The recomputed composition values are the committed ones. -/
theorem stepOf_compValues (built : ch.Built t8Backend treeDepth) (regular : ch.Regular treeDepth)
    (inside : idx < 2 ^ treeDepth) (rounds : List FoldRound) :
    (queryChallenges (stepOf ch treeDepth idx) rounds).compPos = ch.compValues.getD idx 0 ∧
      (queryChallenges (stepOf ch treeDepth idx) rounds).compNeg =
        ch.compValues.getD (antipodalOf idx treeDepth) 0 := by
  rcases oodsPoint_words (stepOf_canonical built inside) with ⟨positive, negative⟩
  have nonzero := regular idx inside
  rcases quotients_elements built inside with ⟨v, w, z, pos, neg, own, opposite, zX, comboPos,
    comboNeg, quotient⟩
  have px : Recursive.m31 (stepOf ch treeDepth idx).px.toNat = (cosetPoint treeDepth idx).re := by
    rw [stepOf, cosetAt_eq built.depth_le, coords, Recursive.m31_eq_cast]
    exact toNat_ofNat_val _
  have point : Recursive.Qm31.value (stepOf ch treeDepth idx).zX = quadOf z := by
    rw [stepOf, zX]
    exact value_qm31Word z
  rw [px, point] at positive negative
  rw [cosetAt_eq built.depth_le, coords] at nonzero
  dsimp only at nonzero
  rw [zX, qm31FromM31_word, qm31Neg_word] at nonzero
  have negated : quadOf (-baseValue (cosetPoint treeDepth idx).re) =
      ⟨-(cosetPoint treeDepth idx).re, 0, 0, 0⟩ := by
    ext <;> simp [quadOf, baseValue]
  rw [own, opposite]
  have fields : (stepOf ch treeDepth idx).fPlus =
        qm31Word ((v - pos) / (baseValue (cosetPoint treeDepth idx).re - z)) ∧
      (stepOf ch treeDepth idx).fMinus =
        qm31Word ((w - neg) / (-baseValue (cosetPoint treeDepth idx).re - z)) ∧
      (stepOf ch treeDepth idx).oodsComboPos = qm31Word pos ∧
      (stepOf ch treeDepth idx).oodsComboNeg = qm31Word neg := by
    refine ⟨?_, ?_, comboPos, comboNeg⟩ <;> rw [stepOf, quotient]
  rcases fields with ⟨plus, minus, posCombo, negCombo⟩
  generalize stepOf ch treeDepth idx = step at *
  constructor
  · rw [queryChallenges]
    dsimp only
    rw [plus, posCombo]
    exact recovered (sub_ne_zero_of_word nonzero.1) (base_quad _) positive
  · rw [queryChallenges]
    dsimp only
    rw [minus, negCombo]
    exact recovered (sub_ne_zero_of_word nonzero.2) negated negative

end Steps

/-! ## Queries -/

/-- A sibling for every bit. -/
theorem pathWords_lengths {levels : List (List Bytes32)} {index : ℕ}
    {path : List (Quad ℕ) × List Bool} (done : pathWords levels index = .ok path) :
    path.1.length = path.2.length := by
  rcases bind_eq_ok.mp done with ⟨siblings, -, finished⟩
  cases finished
  rw [List.length_map, List.length_map, List.length_range]

/-- The parts that a query is extracted from. -/
theorem extractQuery_ok {ch : Vfri11Chain} {treeDepth idx : ℕ} {q : ExtractedQuery}
    (done : extractQuery ch treeDepth idx = .ok q) :
    ∃ folded levels, extractRounds ch treeDepth ch.numFolds 0 idx = .ok folded ∧
      q.query = (stepOf ch treeDepth idx, folded.1) ∧
      pathWords levels folded.2 = .ok q.path ∧
      pathWords ch.compLevels idx = .ok (q.compPath.posSibs, q.compPath.posBits) ∧
      pathWords ch.compLevels (antipodalOf idx treeDepth) =
        .ok (q.compPath.negSibs, q.compPath.negBits) := by
  rw [extractQuery] at done
  dsimp only at done
  split_ifs at done with outside
  rcases bind_eq_ok.mp done with ⟨folded, read, next⟩
  split at next
  case h_1 committed levels valueAt levelsAt =>
    split_ifs at next with mismatch
    rcases bind_eq_ok.mp next with ⟨path, walked, next⟩
    rcases bind_eq_ok.mp next with ⟨pos, own, next⟩
    rcases bind_eq_ok.mp next with ⟨neg, opposite, finished⟩
    cases finished
    exact ⟨folded, levels, read, rfl, walked, own, opposite⟩
  case h_2 => cases next

/-- A query that runs on a chain: under its challenges, on canonical words, with
paths of the values it stands for. -/
structure RunsOn (ch : Vfri11Chain) (treeDepth : ℕ) (lastRoot compRoot : Quad ℕ)
    (q : ExtractedQuery) : Prop where
  rounds : q.query.2.length = ch.numFolds
  canonical : q.query.1.Canonical ∧ ∀ foldRound ∈ q.query.2, foldRound.Canonical
  zX : (queryChallenges q.query.1 q.query.2).zX = ch.zX
  alphas : (queryChallenges q.query.1 q.query.2).alphas = ch.friAlpha :: ch.friAlphas
  sibs : q.path.1.length = treeDepth - ch.numFolds
  bits : q.path.2.length = treeDepth - ch.numFolds
  posSibs : q.compPath.posSibs.length = treeDepth
  posBits : q.compPath.posBits.length = treeDepth
  negSibs : q.compPath.negSibs.length = treeDepth
  negBits : q.compPath.negBits.length = treeDepth
  final : merklePathRootT8 (qm31LeafHashT8 (recursiveQueryFinal q.query.1 q.query.2)) q.path.1
    q.path.2 = lastRoot
  pos : merklePathRootT8 (qm31LeafHashT8 (queryChallenges q.query.1 q.query.2).compPos)
    q.compPath.posSibs q.compPath.posBits = compRoot
  neg : merklePathRootT8 (qm31LeafHashT8 (queryChallenges q.query.1 q.query.2).compNeg)
    q.compPath.negSibs q.compPath.negBits = compRoot

theorem getD_of_getElem? {values : List ℕ} {i value : ℕ} (found : values[i]? = some value) :
    values.getD i 0 = value := by
  rw [List.getD_eq_getElem?_getD, found, Option.getD_some]

/-- Every query that is extracted from a built chain runs on it. -/
theorem extractQuery_runsOn {ch : Vfri11Chain} {treeDepth idx : ℕ} {lastRoot : Bytes32}
    {q : ExtractedQuery} (built : ch.Built t8Backend treeDepth) (regular : ch.Regular treeDepth)
    (inside : idx < 2 ^ treeDepth) (lastRootAt : ch.layerRoots[ch.numFolds]? = some lastRoot)
    (done : extractQuery ch treeDepth idx = .ok q) :
    RunsOn ch treeDepth (p2t8NodeWords lastRoot) (p2t8NodeWords ch.compRoot) q := by
  rcases extractQuery_faithful built inside lastRootAt with ⟨other, again, faithful⟩
  have same : q = other := Except.ok.inj (done.symm.trans again)
  subst same
  rcases extractQuery_ok done with ⟨folded, levels, read, query, path, pos, neg⟩
  rcases extractRounds_ok built.packed built.depth_le read with ⟨alphas, canonical⟩
  have count : ch.friAlphas.length = ch.numFolds := by
    rcases built.layers with ⟨-, layers, count, friAlphas, -⟩
    rw [friAlphas, List.length_map, count]
  rw [List.drop_zero, List.take_of_length_le count.le] at alphas
  have values := stepOf_compValues built regular inside folded.1
  have bits : q.path.2.length = treeDepth - ch.numFolds := by
    rw [faithful.bits, Merkle.indexBits_length]
  have posBits : q.compPath.posBits.length = treeDepth := by
    rw [faithful.posBits, Merkle.indexBits_length]
  have negBits : q.compPath.negBits.length = treeDepth := by
    rw [faithful.negBits, Merkle.indexBits_length]
  constructor
  case rounds => exact faithful.rounds
  case canonical =>
    rw [query]
    exact ⟨stepOf_canonical built inside, canonical⟩
  case zX =>
    rw [query]
    rfl
  case alphas =>
    rw [query, queryChallenges]
    dsimp only
    rw [alphas]
    rfl
  case sibs => rw [pathWords_lengths path, bits]
  case bits => exact bits
  case posSibs => exact (pathWords_lengths pos).trans posBits
  case posBits => exact posBits
  case negSibs => exact (pathWords_lengths neg).trans negBits
  case negBits => exact negBits
  case final =>
    rw [faithful.folded]
    exact faithful.path
  case pos =>
    rcases faithful.compPos with ⟨value, valueAt, climbed⟩
    rw [query]
    dsimp only
    rw [values.1, getD_of_getElem? valueAt, climbed]
  case neg =>
    rcases faithful.compNeg with ⟨value, valueAt, climbed⟩
    rw [query]
    dsimp only
    rw [values.2, getD_of_getElem? valueAt, climbed]

/-! ## Inputs -/

/-- What the inputs of the recursion are made of. -/
structure Vfri11RecursionInputs.From (rec : Vfri11RecursionInputs) (ch : Vfri11Chain)
    (treeDepth : ℕ) (batchMerkleRoot : List UInt8) (nQueries : ℕ) : Prop where
  traceRoot : rec.traceRoot = ch.traceRoot
  channelInputs : rec.channelInputs = ch.published treeDepth batchMerkleRoot nQueries
  extracted : ∃ extracted : List ExtractedQuery, rec.queries = extracted.map ExtractedQuery.query ∧
    rec.paths = extracted.map ExtractedQuery.path ∧
    rec.compPaths = extracted.map ExtractedQuery.compPath ∧ extracted.length = nQueries ∧
    ∀ q ∈ extracted, RunsOn ch treeDepth (p2t8NodeWords (ch.layerRoots.getLastD 0))
      (p2t8NodeWords ch.compRoot) q

theorem derivedIndices_length {cols : List (List UInt32)} {treeDepth nQueries : ℕ}
    {batchMerkleRoot : List UInt8} {numFoldsOpt : Option ℕ} {ch : Vfri11Chain}
    (done : vfri11FriChain cols treeDepth batchMerkleRoot nQueries numFoldsOpt = .ok ch) :
    ch.derivedIndices.length = nQueries := by
  rcases vfri11FriChain_replayed done with ⟨first, roots, -, -, -, replayed⟩
  have drawn : (replayDraws (ch.published treeDepth batchMerkleRoot nQueries) first
      roots).queryIndices = ch.derivedIndices :=
    congrArg Vfri11ChannelChallenges.queryIndices replayed
  rw [← drawn]
  exact drawQueries_length _ _ _

/-- Inputs are extracted whenever a chain is returned, and from its parts. -/
theorem genVfri11RecursionInputs_from {cols : List (List UInt32)} {treeDepth nQueries : ℕ}
    {batchMerkleRoot : List UInt8} {numFoldsOpt : Option ℕ} {ch : Vfri11Chain}
    (done : vfri11FriChain cols treeDepth batchMerkleRoot nQueries numFoldsOpt = .ok ch) :
    ∃ rec, genVfri11RecursionInputs cols treeDepth batchMerkleRoot nQueries numFoldsOpt =
      .ok rec ∧ rec.From ch treeDepth batchMerkleRoot nQueries := by
  have built := vfriFriChain_built t8Draws done
  have regular := vfri11FriChain_regular done
  rcases vfri11FriChain_replayed done with ⟨first, roots, listed, count, -, replayed⟩
  have indices := derivedIndices_length done
  have last : ch.layerRoots[ch.numFolds]? = some (ch.layerRoots.getLastD 0) := by
    rw [listed, ← count, List.getLastD_eq_getLast?, List.getLast?_eq_getElem?, List.length_cons,
      Nat.add_sub_cancel]
    have present : roots.length < (first :: roots).length := Nat.lt_succ_self _
    rw [List.getElem?_eq_getElem present, Option.getD_some]
  have extracts : ∃ extracted, ch.derivedIndices.mapM (extractQuery ch treeDepth) = .ok extracted :=
    mapM_succeeds fun idx member =>
      (extractQuery_faithful built (built.indices idx member) last).imp fun q => And.left
  rcases extracts with ⟨extracted, pushed⟩
  rcases mapM_ok pushed with ⟨lengths, entries⟩
  refine ⟨_, by rw [genVfri11RecursionInputs, done, ok_bind, pushed, ok_bind, last]; rfl, rfl, rfl,
    extracted, rfl, rfl, rfl, lengths.trans indices, ?_⟩
  intro q member
  rcases List.mem_iff_getElem?.mp member with ⟨i, found⟩
  have inside : i < ch.derivedIndices.length := by
    rw [← lengths]
    exact (List.getElem?_eq_some_iff.mp found).1
  rcases entries i _ (List.getElem?_eq_getElem inside) with ⟨other, place, extraction⟩
  have same : q = other := Option.some.inj (found.symm.trans place)
  subst same
  exact extractQuery_runsOn built regular (built.indices _ (List.getElem_mem inside)) last extraction

end Vfri2
end QLSA
