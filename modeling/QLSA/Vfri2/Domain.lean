import QLSA.Contracts.FoldSoundness
import QLSA.Merkle.LevelPaths
import QLSA.Vfri2.ChainFacts

namespace QLSA
namespace Vfri2

open Mersenne Hash Stwo
open Machine (mapM_range_ok)

/-!
# The domain of the chain

A canonic coset of `2 ^ n` points with `2 ≤ n ≤ 30` has no point on an axis,
and neither has any coset its points are doubled into before the last round.
So no inverse the two sides take is that of zero: the twiddles of the prover
and of the contract, and the weights of the barycentric evaluation.

Indices count modulo the size of the coset.  The contract has no point beyond
it, and it compares the point of a hint with that of the coset only after its
check for a zero second coordinate: that check is met by hints that name some
other point.
-/

/-! ## Failing stages -/

section Stages

variable {α β ε : Type} {failure : ε}

theorem bind_ne_error {x : Except ε α} {f : α → Except ε β} (here : x ≠ .error failure)
    (later : ∀ a, x = .ok a → f a ≠ .error failure) : (x >>= f) ≠ .error failure := by
  cases x with
  | error other =>
      intro same
      exact here (congrArg Except.error (Except.error.inj same))
  | ok a => exact later a rfl

theorem bind_succeeds {x : Except ε α} {f : α → Except ε β} (here : ∃ a, x = .ok a)
    (later : ∀ a, x = .ok a → ∃ b, f a = .ok b) : ∃ b, (x >>= f) = .ok b := by
  rcases here with ⟨a, done⟩
  rw [done]
  exact later a done

theorem mapM_ne_error {f : α → Except ε β} (entries : ∀ a, f a ≠ .error failure) (list : List α) :
    list.mapM f ≠ .error failure := by
  induction list with
  | nil => exact nofun
  | cons first rest ih =>
      rw [List.mapM_cons]
      apply bind_ne_error (entries first)
      intro b _
      apply bind_ne_error ih
      intro bs _
      exact nofun

theorem mapM_succeeds {f : α → Except ε β} {list : List α}
    (entries : ∀ a ∈ list, ∃ b, f a = .ok b) : ∃ results, list.mapM f = .ok results := by
  induction list with
  | nil => exact ⟨[], rfl⟩
  | cons first rest ih =>
      rw [List.mapM_cons]
      apply bind_succeeds (entries first List.mem_cons_self)
      intro b _
      apply bind_succeeds (ih fun a member => entries a (List.mem_cons_of_mem first member))
      intro bs _
      exact ⟨b :: bs, rfl⟩

end Stages

/-! ## The rounds always end -/

theorem chebyshevTwiddle_ne_zero {n k : ℕ} (bounded : n ≤ 30) (fewer : k + 2 ≤ n) (i : ℕ) :
    chebyshevTwiddle (cosetAt n i).1 k ≠ 0 := by
  rw [twiddle_eq bounded]
  intro zero
  exact twiddle_ne_zero bounded fewer i ((ZMod.val_eq_zero _).mp zero)

section Rounds

variable {B : P2Backend} {treeDepth k j : ℕ}

theorem foldedAt_succeeds (bounded : treeDepth ≤ 30) (fewer : k + 2 ≤ treeDepth) (alpha : ℕ)
    (prev : List ℕ) (j : ℕ) : ∃ value, foldedAt treeDepth k alpha prev j = .ok value := by
  have nonzero := chebyshevTwiddle_ne_zero bounded fewer j
  exact ⟨_, by rw [foldedAt, if_neg nonzero]⟩

/-- A committed layer can be folded as long as two values are left. -/
theorem foldLayers_succeeds (bounded : treeDepth ≤ 30) {remaining : ℕ} {prev : List ℕ}
    {chan : B.Chan} (length : prev.length = 2 ^ (treeDepth - k))
    (fits : k + remaining + 1 ≤ treeDepth) :
    ∃ result, foldLayers B treeDepth remaining k prev chan = .ok result := by
  induction remaining generalizing k prev chan with
  | zero => exact ⟨([], chan), rfl⟩
  | succ remaining ih =>
      have half : prev.length / 2 = 2 ^ (treeDepth - (k + 1)) := by
        have split : treeDepth - k = treeDepth - (k + 1) + 1 := by omega
        rw [length, split, pow_succ, Nat.mul_div_cancel _ (by decide)]
      rw [foldLayers]
      apply bind_succeeds
      · exact mapM_succeeds fun j _ => foldedAt_succeeds bounded (by omega) _ prev j
      · intro newVals folded
        have count : newVals.length = 2 ^ (treeDepth - (k + 1)) :=
          (mapM_range_ok folded).1.trans half
        apply bind_succeeds
        · exact ⟨_, buildTree_of_height (by rw [List.length_map, count])⟩
        · intro newLevels _
          apply bind_succeeds (ih count (by omega))
          intro later _
          exact ⟨_, rfl⟩

end Rounds

/-! ## Chains -/

section Chains

variable {B : P2Backend} {cols : List (List UInt32)} {treeDepth nQueries : ℕ}
variable {batchMerkleRoot : List UInt8} {numFoldsOpt : Option ℕ}

theorem checkColumns_ne_zeroTwiddle (n k j : ℕ) :
    checkColumns cols n ≠ .error (.zeroTwiddle k j) := by
  unfold checkColumns
  split <;> exact nofun

theorem checkInputs_ne_zeroTwiddle (k j : ℕ) :
    checkInputs cols treeDepth batchMerkleRoot nQueries ≠ .error (.zeroTwiddle k j) := by
  unfold checkInputs
  split
  case isTrue => exact nofun
  case isFalse =>
    split
    case isTrue => exact nofun
    case isFalse =>
      split
      case isTrue => exact nofun
      case isFalse =>
        split
        case isTrue => exact nofun
        case isFalse => exact checkColumns_ne_zeroTwiddle _ k j

theorem buildTree_ne_zeroTwiddle (leaves : List Bytes32) (k j : ℕ) :
    buildTree B.hashPair leaves ≠ .error (.zeroTwiddle k j) := by
  unfold buildTree
  split <;> exact nofun

theorem traceRootOf_ne_zeroTwiddle (k j : ℕ) :
    traceRootOf B cols treeDepth ≠ .error (.zeroTwiddle k j) := by
  unfold traceRootOf
  dsimp only
  split
  case isTrue => exact nofun
  case isFalse =>
    apply bind_ne_error (checkColumns_ne_zeroTwiddle _ k j)
    intro _ _
    apply bind_ne_error (buildTree_ne_zeroTwiddle _ k j)
    intro _ _
    exact nofun

theorem l1Value_ne_zeroTwiddle {compValues : List ℕ} {zX oodsComboPos oodsComboNeg friAlpha : ℕ}
    (k j q : ℕ) :
    l1Value treeDepth compValues zX oodsComboPos oodsComboNeg friAlpha q ≠
      .error (.zeroTwiddle k j) := by
  unfold l1Value
  dsimp only
  split <;> exact nofun

theorem foldCount_ne_zeroTwiddle (k j : ℕ) :
    foldCount treeDepth numFoldsOpt ≠ .error (.zeroTwiddle k j) := by
  unfold foldCount
  cases numFoldsOpt with
  | none => exact nofun
  | some f =>
      dsimp only
      split <;> exact nofun

/-- No chain fails with a zero twiddle. -/
theorem vfriFriChain_ne_zeroTwiddle (k j : ℕ) :
    vfriFriChain B cols treeDepth batchMerkleRoot nQueries numFoldsOpt ≠
      .error (.zeroTwiddle k j) := by
  apply bind_ne_error (checkInputs_ne_zeroTwiddle k j)
  intro _ checked
  have range := checkInputs_ok checked
  apply bind_ne_error (traceRootOf_ne_zeroTwiddle k j)
  intro traceRoot _
  apply bind_ne_error (buildTree_ne_zeroTwiddle _ k j)
  intro compLevels _
  apply bind_ne_error (mapM_ne_error (l1Value_ne_zeroTwiddle k j) _)
  intro l1Values opened
  apply bind_ne_error (buildTree_ne_zeroTwiddle _ k j)
  intro l1Levels _
  apply bind_ne_error (foldCount_ne_zeroTwiddle k j)
  intro numFolds counted
  have folds := foldCount_ok counted
  apply bind_ne_error
  · have fits : 0 + numFolds + 1 ≤ treeDepth := by omega
    have length : l1Values.length = 2 ^ (treeDepth - 0) := (l1Values_ok opened).1
    rcases foldLayers_succeeds range.2 length fits with ⟨result, done⟩
    rw [done]
    exact nofun
  · intro _ _
    exact nofun

/-- The trace root of columns of the right length. -/
theorem traceRootOf_eq (nonempty : cols.isEmpty = false)
    (lengths : checkColumns cols (2 ^ treeDepth) = .ok ()) :
    traceRootOf B cols treeDepth = .ok
      (Merkle.subtreeRoot B.hashPair (fun i => B.hashLeafCols (rowAt cols i)) treeDepth 0) := by
  have count : ((List.range (2 ^ treeDepth)).map fun i => B.hashLeafCols (rowAt cols i)).length =
      2 ^ treeDepth := by
    rw [List.length_map, List.length_range]
  have built := @buildTree_of_height B _ _ count
  have top := (buildTree_ok built).2
  rw [Merkle.apex_range] at top
  rw [traceRootOf, nonempty, if_neg Bool.false_ne_true, lengths, built]
  exact congrArg Except.ok (Option.some.inj top).symm

/-- A chain is returned when no denominator of the first layer is zero. -/
theorem vfriFriChain_succeeds {traceRoot : Bytes32} {numFolds : ℕ}
    (checked : checkInputs cols treeDepth batchMerkleRoot nQueries = .ok ())
    (traced : traceRootOf B cols treeDepth = .ok traceRoot)
    (counted : foldCount treeDepth numFoldsOpt = .ok numFolds)
    (apart : ∀ q < 2 ^ treeDepth,
      qm31Sub (qm31FromM31 (cosetAt treeDepth q).1)
        (B.drawSecureFelt (B.mixRootFull B.init traceRoot)).1 ≠ 0 ∧
      qm31Sub (qm31Neg (qm31FromM31 (cosetAt treeDepth q).1))
        (B.drawSecureFelt (B.mixRootFull B.init traceRoot)).1 ≠ 0) :
    ∃ ch, vfriFriChain B cols treeDepth batchMerkleRoot nQueries numFoldsOpt = .ok ch := by
  have range := checkInputs_ok checked
  have folds := foldCount_ok counted
  apply bind_succeeds ⟨_, checked⟩
  intro _ _
  apply bind_succeeds ⟨_, traced⟩
  intro root same
  have equal : traceRoot = root := Except.ok.inj (traced.symm.trans same)
  subst equal
  apply bind_succeeds ⟨_, buildTree_of_height (by
    rw [List.length_map, List.length_map, List.length_range])⟩
  intro compLevels _
  apply bind_succeeds
  · apply mapM_succeeds
    intro q member
    have denominators := apart q (List.mem_range.mp member)
    exact ⟨_, by rw [l1Value, if_neg (not_or.mpr denominators)]⟩
  · intro l1Values opened
    have length : l1Values.length = 2 ^ (treeDepth - 0) := (l1Values_ok opened).1
    apply bind_succeeds ⟨_, buildTree_of_height (by rw [List.length_map, length])⟩
    intro l1Levels _
    apply bind_succeeds ⟨_, counted⟩
    intro count counts
    have same : numFolds = count := Except.ok.inj (counted.symm.trans counts)
    have fits : 0 + count + 1 ≤ treeDepth := by omega
    apply bind_succeeds (foldLayers_succeeds range.2 length fits)
    intro _ _
    exact ⟨_, rfl⟩

/-- Past the checks of its arguments a chain fails with a zero denominator only. -/
theorem vfriFriChain_failsWith {numFolds : ℕ} (nonempty : cols.isEmpty = false)
    (lengths : checkColumns cols (2 ^ treeDepth) = .ok ()) (seed : batchMerkleRoot.length = 32)
    (asked : 1 ≤ nQueries ∧ nQueries ≤ 64) (range : 2 ≤ treeDepth ∧ treeDepth ≤ 30)
    (counted : foldCount treeDepth numFoldsOpt = .ok numFolds) :
    Machine.FailsWith (fun e => ∃ q < 2 ^ treeDepth, e = .oodsDenom q)
      (vfriFriChain B cols treeDepth batchMerkleRoot nQueries numFoldsOpt) := by
  have folds := foldCount_ok counted
  have checked : checkInputs cols treeDepth batchMerkleRoot nQueries = .ok () := by
    rw [checkInputs, nonempty, if_neg Bool.false_ne_true, if_neg (not_not.mpr seed),
      if_neg (by omega), if_neg (not_not.mpr range), lengths]
  apply (Machine.failsWith_of_ok ⟨_, checked⟩).bind
  intro _ _
  apply (Machine.failsWith_of_ok ⟨_, traceRootOf_eq nonempty lengths⟩).bind
  intro root _
  apply (Machine.failsWith_of_ok ⟨_, buildTree_of_height (by
    rw [List.length_map, List.length_map, List.length_range])⟩).bind
  intro compLevels _
  apply Machine.FailsWith.bind
  · apply Machine.failsWith_mapM
    intro q member
    constructor
    intro e failed
    rw [l1Value] at failed
    split_ifs at failed with zero
    exact ⟨q, List.mem_range.mp member, (Except.error.inj failed).symm⟩
  · intro l1Values opened
    have length : l1Values.length = 2 ^ (treeDepth - 0) := (l1Values_ok opened).1
    apply (Machine.failsWith_of_ok ⟨_, buildTree_of_height (by rw [List.length_map, length])⟩).bind
    intro l1Levels _
    apply (Machine.failsWith_of_ok ⟨_, counted⟩).bind
    intro count counts
    have same : numFolds = count := Except.ok.inj (counted.symm.trans counts)
    have fits : 0 + count + 1 ≤ treeDepth := by omega
    apply (Machine.failsWith_of_ok (foldLayers_succeeds range.2 length fits)).bind
    intro _ _
    exact ⟨nofun⟩

end Chains

/-! ## Regular domains -/

open Contracts.VFRI11 (QueryHints VerifyCtx twiddleLoop verifyOODS valueLeaf numFolds)

/-- A query passes every check before the one for a zero second coordinate, and
fails that one. -/
structure MeetsZeroY (h : QueryHints) (ctx : VerifyCtx) (fPlus fMinus : ℕ) : Prop where
  comp : Contracts.Verifier.verifyMem ctx.compRoot (valueLeaf h.compValue) h.queryIndex h.treeDepth
    h.compProof = true
  compNeg : Contracts.Verifier.verifyMem ctx.compRoot (valueLeaf h.compValueNeg)
    (antipodalOf h.queryIndex h.treeDepth) h.treeDepth h.compProofNeg = true
  oods : verifyOODS h ctx = some (true, fPlus, fMinus)
  circle : Contracts.Verifier.isOnCircle h.queryPointX h.queryPointY = true
  zero : h.queryPointY.val = 0

/-- A domain of `2 ^ n` points on which nothing degenerates. -/
structure RegularDomain (n : ℕ) : Prop where
  onCircle : ∀ i < 2 ^ n, Contracts.Verifier.OnCircle (cosetAt n i)
  y_ne_zero : ∀ i < 2 ^ n, (cosetAt n i).2 ≠ 0
  /-- Indices count modulo the size of the coset. -/
  wraps : ∀ i, cosetAt n (i % 2 ^ n) = cosetAt n i
  negation : ∀ i < 2 ^ n, cosetAt n (i + 2 ^ (n - 1)) =
    (m31Neg (cosetAt n i).1, m31Neg (cosetAt n i).2)
  antipode : ∀ i < 2 ^ n, antipodalOf i n = (i + 2 ^ (n - 1)) % 2 ^ n
  conjugate : ∀ i < 2 ^ n, cosetAt n (2 ^ n - 1 - i) = ((cosetAt n i).1, m31Neg (cosetAt n i).2)
  twiddle_ne_zero : ∀ i < 2 ^ n, ∀ k ≤ n - 2, chebyshevTwiddle (cosetAt n i).1 k ≠ 0
  twiddle_negated : ∀ i < 2 ^ n, ∀ k ≤ n - 2,
    chebyshevTwiddle (cosetAt n (i + 2 ^ (n - 1 - k))).1 k =
      m31Neg (chebyshevTwiddle (cosetAt n i).1 k)
  x_injective : ∀ i < 2 ^ (n - 1), ∀ j < 2 ^ (n - 1), (cosetAt n i).1 = (cosetAt n j).1 → i = j
  contract : ∀ i < 2 ^ n, Contracts.Verifier.cosetAt n i = some (cosetAt n i)
  /-- The check for a zero second coordinate rejects no hint that names its own point. -/
  zeroY : ∀ (h : QueryHints) (ctx : VerifyCtx) (fPlus fMinus : ℕ), h.treeDepth.val = n →
    MeetsZeroY h ctx fPlus fMinus →
      Contracts.Verifier.cosetAt h.treeDepth h.queryIndex ≠
        some (h.queryPointX.val, h.queryPointY.val)
  /-- No round of an accepted number finds a zero twiddle. -/
  zeroTwiddle : ∀ ctx : VerifyCtx, numFolds ctx + 1 ≤ n → ∀ k < numFolds ctx, ∀ i < 2 ^ n,
    ∃ x t, Contracts.Verifier.cosetAt n i = some x ∧ twiddleLoop k x.1 = some t ∧ t ≠ 0
  prover : ∀ (B : P2Backend) (cols : List (List UInt32)) (batchMerkleRoot : List UInt8)
    (nQueries : ℕ) (numFoldsOpt : Option ℕ) (k j : ℕ),
    vfriFriChain B cols n batchMerkleRoot nQueries numFoldsOpt ≠ .error (.zeroTwiddle k j)
  weights : ∀ weight ∈ precomputeBaryWeights (xsHalf n), weight ≠ 0


section Points

variable {n : ℕ}

theorem coords_neg (z : CM31) : coords (-z) = (m31Neg (coords z).1, m31Neg (coords z).2) := by
  simp only [coords, m31Neg_val, QuadraticAlgebra.re_neg, QuadraticAlgebra.im_neg]

theorem coords_star (z : CM31) : coords (star z) = ((coords z).1, m31Neg (coords z).2) := by
  simp only [coords, m31Neg_val, QuadraticAlgebra.re_star, QuadraticAlgebra.im_star, zero_mul,
    add_zero]

theorem pointValue_coords (z : CM31) : Contracts.Verifier.pointValue (coords z) = z := by
  ext <;> simp [Contracts.Verifier.pointValue, coords]

theorem cosetAt_onCircle (bounded : n ≤ 30) (i : ℕ) : Contracts.Verifier.OnCircle (cosetAt n i) := by
  rw [cosetAt_eq bounded]
  refine ⟨ZMod.val_lt (cosetPoint n i).re, ZMod.val_lt (cosetPoint n i).im, ?_⟩
  rw [pointValue_coords]
  exact cosetPoint_norm n i

theorem cosetAt_y_ne_zero (positive : 1 ≤ n) (bounded : n ≤ 30) (i : ℕ) : (cosetAt n i).2 ≠ 0 := by
  rw [cosetAt_eq bounded]
  intro zero
  exact cosetPoint_im_ne_zero positive bounded i ((ZMod.val_eq_zero _).mp zero)

/-- The loop of the contract arrives at the twiddle of the prover. -/
theorem twiddleLoop_eq (rounds : ℕ) (x : M31) :
    twiddleLoop rounds x.val = some (chebyshevTwiddle x.val rounds) := by
  have succeeds : ∀ (rounds x : ℕ), Canonical x → ∃ t, twiddleLoop rounds x = some t := by
    intro rounds
    induction rounds with
    | zero => exact fun x _ => ⟨x, rfl⟩
    | succ rounds ih =>
        intro x canonical
        have square := Contracts.Verifier.m31Mul_canonical x x
        have one : Canonical 1 := by decide
        rcases Contracts.Verifier.m31Sub_canonical
          (Contracts.Verifier.m31Add_canonical square square) one with ⟨next, done, small, -⟩
        rcases ih next small with ⟨t, rest⟩
        exact ⟨t, by simp only [twiddleLoop, done, Option.bind_eq_bind, Option.bind_some, rest]⟩
  have small : Canonical x.val := ZMod.val_lt x
  rcases succeeds rounds x.val small with ⟨t, done⟩
  rcases Contracts.VFRI11.twiddleLoop_spec rounds small done with ⟨canonical, value⟩
  rw [done, chebyshevTwiddle_val]
  rw [ZMod.natCast_zmod_val] at value
  rw [← value, ZMod.val_cast_of_lt canonical]

end Points

/-- No domain of a chain degenerates.  On `2 ^ n` points with `n` from 2 to 30 no second
coordinate and no twiddle that a fold divides by is zero, opposite and conjugate points are where
the folds look for them, and prover and contract compute the same points.  The check for a zero
second coordinate therefore refuses only hints that do not name the point of their index. -/
theorem regularDomain {n : ℕ} (deep : 2 ≤ n) (bounded : n ≤ 30) : RegularDomain n where
  onCircle := fun i _ => cosetAt_onCircle bounded i
  y_ne_zero := fun i _ => cosetAt_y_ne_zero (by omega) bounded i
  wraps := by
    intro i
    rw [cosetAt_eq bounded, cosetAt_eq bounded, cosetPoint_mod bounded]
  negation := by
    intro i _
    rw [cosetAt_eq bounded, cosetAt_eq bounded, cosetPoint_add_half (by omega) bounded, coords_neg]
  antipode := by
    intro i _
    exact Nat.and_two_pow_sub_one_eq_mod _ n
  conjugate := by
    intro i inside
    rw [cosetAt_eq bounded, cosetAt_eq bounded, cosetPoint_mirror bounded inside, coords_star]
  twiddle_ne_zero := fun i _ k fewer => chebyshevTwiddle_ne_zero bounded (by omega) i
  twiddle_negated := by
    intro i _ k fewer
    rw [twiddle_eq bounded, twiddle_eq bounded, twiddle_add_half bounded (by omega), m31Neg_val]
  x_injective := by
    intro i firstInside j secondInside same
    rw [cosetAt_eq bounded, cosetAt_eq bounded] at same
    exact cosetPoint_re_injective (by omega) bounded firstInside secondInside
      (ZMod.val_injective P same)
  contract := fun i inside => contract_cosetAt_eq (by omega) bounded inside
  zeroY := by
    intro h ctx fPlus fMinus depth met named
    rcases Contracts.Verifier.cosetAt_some named with ⟨positive, small, inside, -⟩
    rw [contract_cosetAt_eq positive small inside] at named
    apply cosetAt_y_ne_zero positive small h.queryIndex
    rw [Option.some.inj named]
    exact met.zero
  zeroTwiddle := by
    intro ctx folds k fewer i inside
    refine ⟨cosetAt n i, _, contract_cosetAt_eq (by omega) bounded inside, ?_,
      chebyshevTwiddle_ne_zero bounded (by omega : k + 2 ≤ n) i⟩
    rw [cosetAt_eq bounded]
    exact twiddleLoop_eq k _
  prover := fun B cols batchMerkleRoot nQueries numFoldsOpt k j => vfriFriChain_ne_zeroTwiddle k j
  weights := xsHalf_weights_ne_zero (by omega) bounded

theorem regularDomain_largest : RegularDomain 30 := regularDomain (by decide) (by decide)

/-- A query of openings that verify, with the neutral point in place of its own. -/
def neutralQuery : QueryHints :=
  { Contracts.VFRI11.sampleQuery 0 0 0 0 0 with
    queryPointX := 1
    queryPointY := 0 }

/-- The contract has no point beyond its coset, and the check for a zero second
coordinate is met. -/
theorem domain_edges :
    Contracts.Verifier.cosetAt 2 (3 + 2 ^ (2 - 1)) = none ∧
      ∃ fPlus fMinus,
        MeetsZeroY neutralQuery (Contracts.VFRI11.sampleContext 0 0 0 0 0) fPlus fMinus := by
  refine ⟨by decide, ?_⟩
  have passed : (verifyOODS neutralQuery (Contracts.VFRI11.sampleContext 0 0 0 0 0)).map Prod.fst =
      some true := by decide +kernel
  rcases Option.map_eq_some_iff.mp passed with ⟨⟨ok, fPlus, fMinus⟩, done, same⟩
  dsimp only at same
  rw [same] at done
  exact ⟨fPlus, fMinus, {
    comp := by decide +kernel
    compNeg := by decide +kernel
    oods := done
    circle := by decide
    zero := rfl }⟩

end Vfri2
end QLSA
