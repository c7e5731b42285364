import QLSA.Machine.Fallible
import QLSA.Vfri2.FriChain

namespace QLSA
namespace Vfri2

open Mersenne Hash Stwo
open Machine (bind_eq_ok mapM_range_ok)

/-!
# What a chain is made of

A chain that is returned has passed all checks; its layers are committed, each
of them half as long as the one before and folded from it with a drawn
challenge.  All of its values are packed canonical words: every one of them is
a sum, and sums are reduced whatever is added.
-/

/-! ## Sums are reduced -/

theorem m31Reduce_lt {x : ℕ} (small : x < 2 ^ 33) : m31Reduce x < P := by
  have low : x &&& P = x % 2 ^ 31 := Nat.and_two_pow_sub_one_eq_mod x 31
  have high : x >>> 31 = x / 2 ^ 31 := Nat.shiftRight_eq_div_pow x 31
  have bounded : x % 2 ^ 31 + x / 2 ^ 31 ≤ P + 3 := by
    simp only [P]
    omega
  rw [m31Reduce, low, high]
  generalize x % 2 ^ 31 + x / 2 ^ 31 = r at bounded ⊢
  split
  case isTrue large =>
    have rest : r - P ≤ 3 := by omega
    have few : 3 < P := by decide
    exact (Nat.mod_le _ _).trans_lt (by omega)
  case isFalse below => exact (Nat.mod_le _ _).trans_lt (not_le.mp below)

theorem m31Add_lt {a b : ℕ} (first : a < 2 ^ 32) (second : b < 2 ^ 32) : m31Add a b < P :=
  m31Reduce_lt (by omega)

theorem cm31Add_canonical (x y : ℕ) : ∃ z : CM31, cm31Add x y = cm31Word z := by
  have part (e : ℕ) : e % 2 ^ 32 < 2 ^ 32 := Nat.mod_lt e (Nat.two_pow_pos 32)
  have re : m31Add (cm31Re x) (cm31Re y) < P := m31Add_lt (part _) (part _)
  have im : m31Add (cm31Im x) (cm31Im y) < P := m31Add_lt (part _) (part _)
  refine ⟨⟨(m31Add (cm31Re x) (cm31Re y) : ℕ), (m31Add (cm31Im x) (cm31Im y) : ℕ)⟩, ?_⟩
  rw [cm31Word, ZMod.val_cast_of_lt re, ZMod.val_cast_of_lt im, cm31Add]

theorem qm31Add_canonical (x y : ℕ) : ∃ q : QM31, qm31Add x y = qm31Word q := by
  rcases cm31Add_canonical (qm31C0 x) (qm31C0 y) with ⟨c0, first⟩
  rcases cm31Add_canonical (qm31C1 x) (qm31C1 y) with ⟨c1, second⟩
  exact ⟨⟨c0, c1⟩, by rw [qm31Add, first, second, qm31Word]⟩

/-- A running sum that starts with zero is reduced, whatever is added. -/
theorem foldl_qm31Add_canonical {α : Type} (next : ℕ → α → ℕ) (term : ℕ → α → ℕ) (list : List α)
    (power : ℕ) :
    ∃ q : QM31, (list.foldl (fun (acc : ℕ × ℕ) a =>
      (qm31Add acc.1 (term acc.2 a), next acc.2 a)) (0, power)).1 = qm31Word q := by
  have running (start : QM31) (power : ℕ) : ∃ q : QM31, (list.foldl (fun (acc : ℕ × ℕ) a =>
      (qm31Add acc.1 (term acc.2 a), next acc.2 a)) (qm31Word start, power)).1 = qm31Word q := by
    induction list generalizing start power with
    | nil => exact ⟨start, rfl⟩
    | cons a rest ih =>
        rcases qm31Add_canonical (qm31Word start) (term power a) with ⟨sum, added⟩
        rw [List.foldl_cons, added]
        exact ih sum (next power a)
  have zero : qm31Word 0 = 0 := rfl
  rw [← zero]
  exact running 0 power

theorem oodsCombo_canonical (evals : List ℕ) (compAlpha : ℕ) :
    ∃ q : QM31, oodsCombo evals compAlpha = qm31Word q :=
  foldl_qm31Add_canonical (fun ap _ => qm31Mul ap compAlpha) qm31Mul evals _

theorem compValue_canonical (cols : List (List UInt32)) (compAlpha i : ℕ) :
    ∃ q : QM31, compValue cols compAlpha i = qm31Word q :=
  foldl_qm31Add_canonical (fun ap _ => qm31Mul ap compAlpha) qm31MulM31 (rowAt cols i) _

theorem circleFold_canonical (fPlus fMinus alpha yInv : ℕ) :
    ∃ q : QM31, circleFold fPlus fMinus alpha yInv = qm31Word q :=
  qm31Add_canonical _ _

theorem lineFold_canonical (gPlus gMinus alpha xInv : ℕ) :
    ∃ q : QM31, lineFold gPlus gMinus alpha xInv = qm31Word q :=
  qm31Add_canonical _ _

/-! ## Draws -/

/-- What the chain needs of a channel: after an absorption two elements can be
drawn, and their limbs are canonical. -/
structure P2Backend.Draws (B : P2Backend) where
  ready : ℕ → B.Chan → Prop
  init : ready 0 B.init
  mixRootFull : ∀ {elements chan}, ready elements chan → ∀ root, ready 2 (B.mixRootFull chan root)
  mixRootW : ∀ {elements chan}, ready elements chan → ∀ root, ready 2 (B.mixRootW chan root)
  mixU32s : ∀ {elements chan}, ready elements chan → ∀ words, (∀ word ∈ words, word < 2 ^ 32) →
    ready 2 (B.mixU32s chan words)
  drawSecureFelt : ∀ {elements chan}, ready (elements + 1) chan →
    (∃ felt : QM31, (B.drawSecureFelt chan).1 = qm31Word felt) ∧
      ready elements (B.drawSecureFelt chan).2
  drawQueries : ∀ {log}, log ≤ 30 → ∀ chan n, ∀ query ∈ (B.drawQueries chan log n).1, query < 2 ^ log

def t8Draws : t8Backend.Draws where
  ready := P2T8Channel.Ready
  init := ⟨P2T8Channel.init_cells, Nat.zero_le _⟩
  mixRootFull := P2T8Channel.mixRootFull_ready
  mixRootW := P2T8Channel.mixRootW_ready
  mixU32s := fun ready _ fits => P2T8Channel.mixU32s_ready ready fits
  drawSecureFelt := P2T8Channel.drawSecureFelt_spec
  drawQueries := P2T8Channel.drawQueries_lt

/-! ## Layers -/

/-- A committed list of `2 ^ height` packed values. -/
structure Committed (B : P2Backend) (height : ℕ) (values : List ℕ) (levels : List (List Bytes32))
    (root : Bytes32) : Prop where
  length : values.length = 2 ^ height
  packed : ∀ value ∈ values, ∃ q : QM31, value = qm31Word q
  levels_eq : levels = Merkle.levelsFrom B.hashPair (values.map B.hashLeafQm31)
  root_eq : Merkle.apex B.hashPair (values.map B.hashLeafQm31) = some root

/-- A layer is folded from the one before it. -/
def FoldedFrom (treeDepth k alpha : ℕ) (prev next : List ℕ) : Prop :=
  next.length = prev.length / 2 ∧ ∀ j < prev.length / 2,
    next[j]? = some (lineFold (prev.getD j 0) (prev.getD (j + prev.length / 2) 0) alpha
      (m31Inv (chebyshevTwiddle (cosetAt treeDepth j).1 k)))

/-- Rounds `k` on: drawn challenges, folded and committed layers. -/
def Rounds (B : P2Backend) (treeDepth : ℕ) : ℕ → List ℕ → List FriLayer → Prop
  | _, _, [] => True
  | k, prev, layer :: rest =>
      (∃ alpha : QM31, layer.alpha = qm31Word alpha) ∧
        FoldedFrom treeDepth k layer.alpha prev layer.values ∧
        Committed B (treeDepth - (k + 1)) layer.values layer.levels layer.root ∧
        Rounds B treeDepth (k + 1) layer.values rest

section Layers

variable {B : P2Backend}

theorem buildTree_ok {leaves : List Bytes32} {levels : List (List Bytes32)}
    (built : buildTree B.hashPair leaves = .ok levels) :
    levels = Merkle.levelsFrom B.hashPair leaves ∧
      Merkle.apex B.hashPair leaves = some (levelsRoot levels) := by
  unfold buildTree at built
  split at built
  case isFalse odd => cases built
  case isTrue power =>
    cases built
    have nonempty : leaves ≠ [] := by
      intro empty
      rw [empty] at power
      cases power
    rcases Merkle.levelsFrom_getLast B.hashPair leaves nonempty with ⟨root, top, last⟩
    refine ⟨rfl, ?_⟩
    rw [levelsRoot, last, top]
    rfl

theorem buildTree_of_height {leaves : List Bytes32} {height : ℕ} (count : leaves.length = 2 ^ height) :
    buildTree B.hashPair leaves = .ok (Merkle.levelsFrom B.hashPair leaves) := by
  rw [buildTree, count, Nat.log2_two_pow, if_pos rfl]

/-- A list is packed when each of its entries is computed by sums. -/
theorem packed_of_entries {values : List ℕ} {entry : ℕ → ℕ}
    (entries : ∀ j < values.length, values[j]? = some (entry j))
    (canonical : ∀ j, ∃ q : QM31, entry j = qm31Word q) :
    ∀ value ∈ values, ∃ q : QM31, value = qm31Word q := by
  intro value member
  rcases List.mem_iff_getElem?.mp member with ⟨j, found⟩
  have inside : j < values.length := (List.getElem?_eq_some_iff.mp found).1
  rw [entries j inside] at found
  rw [← Option.some.inj found]
  exact canonical j

theorem committed_of_buildTree {height : ℕ} {values : List ℕ} {levels : List (List Bytes32)}
    (length : values.length = 2 ^ height) (packed : ∀ value ∈ values, ∃ q : QM31, value = qm31Word q)
    (built : buildTree B.hashPair (values.map B.hashLeafQm31) = .ok levels) :
    Committed B height values levels (levelsRoot levels) := by
  rcases buildTree_ok built with ⟨levels_eq, root_eq⟩
  exact ⟨length, packed, levels_eq, root_eq⟩

theorem foldedAt_ok {treeDepth k alpha j value : ℕ} {prev : List ℕ}
    (done : foldedAt treeDepth k alpha prev j = .ok value) :
    value = lineFold (prev.getD j 0) (prev.getD (j + prev.length / 2) 0) alpha
      (m31Inv (chebyshevTwiddle (cosetAt treeDepth j).1 k)) := by
  unfold foldedAt at done
  dsimp only at done
  split at done
  case isTrue zero => cases done
  case isFalse nonzero => exact (Except.ok.inj done).symm

theorem compValues_committed {cols : List (List UInt32)} {height compAlpha : ℕ}
    {levels : List (List Bytes32)}
    (built : buildTree B.hashPair
      (((List.range (2 ^ height)).map (compValue cols compAlpha)).map B.hashLeafQm31) = .ok levels) :
    Committed B height ((List.range (2 ^ height)).map (compValue cols compAlpha)) levels
      (levelsRoot levels) := by
  refine committed_of_buildTree ?_ ?_ built
  · rw [List.length_map, List.length_range]
  · intro value member
    rcases List.mem_map.mp member with ⟨i, -, same⟩
    rw [← same]
    exact compValue_canonical _ _ _

/-- The rounds of a loop that ends. -/
theorem foldLayers_ok (draws : B.Draws) {treeDepth remaining k : ℕ} {prev : List ℕ}
    {chan : B.Chan} {layers : List FriLayer} {after : B.Chan}
    (done : foldLayers B treeDepth remaining k prev chan = .ok (layers, after))
    (ready : draws.ready 2 chan) (length : prev.length = 2 ^ (treeDepth - k))
    (fits : k + remaining ≤ treeDepth) :
    layers.length = remaining ∧ Rounds B treeDepth k prev layers := by
  induction remaining generalizing k prev chan layers with
  | zero =>
      cases done
      exact ⟨rfl, trivial⟩
  | succ remaining ih =>
      rw [foldLayers] at done
      dsimp only at done
      rcases bind_eq_ok.mp done with ⟨newVals, folded, rest⟩
      rcases bind_eq_ok.mp rest with ⟨newLevels, built, rest⟩
      rcases bind_eq_ok.mp rest with ⟨later, looped, finished⟩
      cases finished
      rcases mapM_range_ok folded with ⟨count, entries⟩
      rcases draws.drawSecureFelt ready with ⟨drawn, still⟩
      have half : prev.length / 2 = 2 ^ (treeDepth - (k + 1)) := by
        have split : treeDepth - k = treeDepth - (k + 1) + 1 := by omega
        rw [length, split, pow_succ, Nat.mul_div_cancel _ (by decide)]
      have values : ∀ j < prev.length / 2, newVals[j]? = some (lineFold (prev.getD j 0)
          (prev.getD (j + prev.length / 2) 0) (B.drawSecureFelt chan).1
          (m31Inv (chebyshevTwiddle (cosetAt treeDepth j).1 k))) := by
        intro j inside
        rcases entries j inside with ⟨value, found, computed⟩
        rw [found, foldedAt_ok computed]
      rcases ih looped (draws.mixRootW still _) (by rw [count, half]) (by omega) with
        ⟨lengths, rounds⟩
      have packed := packed_of_entries (count ▸ values) fun j => lineFold_canonical _ _ _ _
      exact ⟨by rw [List.length_cons, lengths], drawn, ⟨count, values⟩,
        committed_of_buildTree (count.trans half) packed built, rounds⟩

theorem l1Values_ok {treeDepth zX oodsComboPos oodsComboNeg friAlpha count : ℕ}
    {compValues values : List ℕ}
    (opened : (List.range count).mapM
      (l1Value treeDepth compValues zX oodsComboPos oodsComboNeg friAlpha) = .ok values) :
    values.length = count ∧ ∀ q < count, values[q]? = some
      (circleFold (quotients treeDepth compValues zX oodsComboPos oodsComboNeg q).1
        (quotients treeDepth compValues zX oodsComboPos oodsComboNeg q).2 friAlpha
        (m31Inv (cosetAt treeDepth q).2)) := by
  rcases mapM_range_ok opened with ⟨length, entries⟩
  refine ⟨length, ?_⟩
  intro q inside
  rcases entries q inside with ⟨value, found, computed⟩
  unfold l1Value at computed
  dsimp only at computed
  split at computed
  case isTrue zero => cases computed
  case isFalse nonzero => rw [found, Except.ok.inj computed]

theorem checkInputs_ok {cols : List (List UInt32)} {treeDepth nQueries : ℕ}
    {batchMerkleRoot : List UInt8}
    (passed : checkInputs cols treeDepth batchMerkleRoot nQueries = .ok ()) :
    2 ≤ treeDepth ∧ treeDepth ≤ 30 := by
  unfold checkInputs at passed
  split at passed
  case isTrue => cases passed
  case isFalse =>
    split at passed
    case isTrue => cases passed
    case isFalse =>
      split at passed
      case isTrue => cases passed
      case isFalse =>
        split at passed
        case isTrue => cases passed
        case isFalse range => exact not_not.mp range

theorem foldCount_ok {treeDepth numFolds : ℕ} {numFoldsOpt : Option ℕ}
    (counted : foldCount treeDepth numFoldsOpt = .ok numFolds) : numFolds ≤ treeDepth - 1 := by
  unfold foldCount at counted
  cases numFoldsOpt with
  | none =>
      cases counted
      exact le_rfl
  | some f =>
      dsimp only at counted
      split at counted
      case isTrue range =>
        cases counted
        exact range.2
      case isFalse => cases counted

end Layers

/-! ## The chain -/

/-- A chain with its committed composition values, its first layer and its rounds. -/
structure Vfri11Chain.Built (B : P2Backend) (treeDepth : ℕ) (ch : Vfri11Chain) : Prop where
  depth_ge : 2 ≤ treeDepth
  depth_le : treeDepth ≤ 30
  folds : ch.numFolds ≤ treeDepth - 1
  zX : ∃ z : QM31, ch.zX = qm31Word z
  comboPos : ∃ combo : QM31, ch.oodsComboPos = qm31Word combo
  comboNeg : ∃ combo : QM31, ch.oodsComboNeg = qm31Word combo
  friAlpha : ∃ alpha : QM31, ch.friAlpha = qm31Word alpha
  comp : Committed B treeDepth ch.compValues ch.compLevels ch.compRoot
  indices : ∀ idx ∈ ch.derivedIndices, idx < 2 ^ treeDepth
  layers : ∃ first layers, layers.length = ch.numFolds ∧
    ch.friAlphas = layers.map FriLayer.alpha ∧
    ch.layerValues = (first :: layers).map FriLayer.values ∧
    ch.layerLevels = (first :: layers).map FriLayer.levels ∧
    ch.layerRoots = (first :: layers).map FriLayer.root ∧
    Committed B treeDepth first.values first.levels first.root ∧
    (∀ q < 2 ^ treeDepth, first.values[q]? = some
      (circleFold
        (quotients treeDepth ch.compValues ch.zX ch.oodsComboPos ch.oodsComboNeg q).1
        (quotients treeDepth ch.compValues ch.zX ch.oodsComboPos ch.oodsComboNeg q).2 ch.friAlpha
        (m31Inv (cosetAt treeDepth q).2))) ∧
    Rounds B treeDepth 0 first.values layers

theorem qm31Words_lt (value : ℕ) : ∀ word ∈ qm31Words value, word < 2 ^ 32 := by
  have cut (e : ℕ) : e % 2 ^ 32 < 2 ^ 32 := Nat.mod_lt e (Nat.two_pow_pos 32)
  simp only [qm31Words, List.forall_mem_cons]
  exact ⟨cut _, cut _, cut _, cut _, nofun⟩

/-- A returned chain is built. -/
theorem vfriFriChain_built {B : P2Backend} (draws : B.Draws) {cols : List (List UInt32)}
    {treeDepth nQueries : ℕ} {batchMerkleRoot : List UInt8} {numFoldsOpt : Option ℕ}
    {ch : Vfri11Chain}
    (done : vfriFriChain B cols treeDepth batchMerkleRoot nQueries numFoldsOpt = .ok ch) :
    ch.Built B treeDepth := by
  rcases bind_eq_ok.mp done with ⟨passed, checked, next⟩
  rcases bind_eq_ok.mp next with ⟨traceRoot, -, next⟩
  rcases bind_eq_ok.mp next with ⟨compLevels, compBuilt, next⟩
  rcases bind_eq_ok.mp next with ⟨l1Values, opened, next⟩
  rcases bind_eq_ok.mp next with ⟨l1Levels, l1Built, next⟩
  rcases bind_eq_ok.mp next with ⟨numFolds, counted, next⟩
  rcases bind_eq_ok.mp next with ⟨⟨layers, after⟩, folded, finished⟩
  have range := checkInputs_ok checked
  have folds := foldCount_ok counted
  have z := draws.drawSecureFelt (draws.mixRootFull draws.init traceRoot)
  have comp := draws.drawSecureFelt z.2
  have mixed (pos neg : ℕ) := draws.mixU32s comp.2 (qm31Words pos ++ qm31Words neg)
    (List.forall_mem_append.mpr ⟨qm31Words_lt pos, qm31Words_lt neg⟩)
  have fri (pos neg : ℕ) := draws.drawSecureFelt
    (draws.mixRootW (mixed pos neg) (levelsRoot compLevels))
  rcases l1Values_ok opened with ⟨count, values⟩
  have first : Committed B treeDepth l1Values l1Levels (levelsRoot l1Levels) :=
    committed_of_buildTree count
      (packed_of_entries (count.symm ▸ values) fun q => circleFold_canonical _ _ _ _) l1Built
  rcases foldLayers_ok draws folded (draws.mixRootW (fri _ _).2 _) first.length (by omega) with
    ⟨lengths, rounds⟩
  cases finished
  exact {
    depth_ge := range.1
    depth_le := range.2
    folds := folds
    zX := z.1
    comboPos := oodsCombo_canonical _ _
    comboNeg := oodsCombo_canonical _ _
    friAlpha := (fri _ _).1
    comp := compValues_committed compBuilt
    indices := draws.drawQueries range.2 _ _
    layers := ⟨⟨0, l1Values, l1Levels, levelsRoot l1Levels⟩, layers, lengths, rfl, rfl, rfl, rfl,
      first, values, rounds⟩ }

end Vfri2
end QLSA
