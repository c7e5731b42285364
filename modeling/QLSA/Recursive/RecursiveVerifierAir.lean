import QLSA.Recursive.PathLane
import QLSA.Recursive.Qm31Mul

namespace QLSA
namespace Recursive
namespace RecursiveVerifier

open Hash Mersenne Qm31

/-!
# Fold chains of queries

Each query has a block of rows: one for the two out-of-domain equations and
the circle fold, one more for each line fold.  Preprocessed columns pin the
challenges of a query, its two composition values and the value the last fold
ends in.  The values that are folded, the siblings and the combinations of the
out-of-domain equations stay with the prover.

A satisfying trace contains, for every block, a query with the pinned
challenges whose fold chain ends in the pinned value.
-/

def minLogSize : ℕ := 1

def maxLogSize : ℕ := 20

/-- Caps that keep the sizes of traces below overflow. -/
def maxNumFolds : ℕ := 64

def maxQueries : ℕ := 4096

/-- Inputs of the first row of a query. -/
structure StepOp where
  fPlus : ℕ
  fMinus : ℕ
  px : UInt32
  zX : ℕ
  oodsComboPos : ℕ
  oodsComboNeg : ℕ
  friAlpha : ℕ
  yInv : UInt32

/-- A line fold; its other operand is the output before it. -/
structure FoldRound where
  sibling : ℕ
  alpha : ℕ
  xInv : UInt32

/-- What the verifier fixes for one query. -/
structure QueryChallenges where
  px : UInt32
  zX : ℕ
  alphas : List ℕ
  invs : List UInt32
  compPos : ℕ
  compNeg : ℕ

/-! ## Reference -/

/-- `(a + b) + alpha * (a - b) * inv` -/
def foldTwo (a b alpha : ℕ) (inv : UInt32) : ℕ :=
  let p := scaleLimbs (subLimbs (limbs a) (limbs b)) inv.toNat
  pack (addLimbs (addLimbs (limbs a) (limbs b)) (mulLimbs (limbs alpha) p))

/-- Outputs of line folds, each on the output before it. -/
def lineFolds (input : ℕ) : List FoldRound → List ℕ
  | [] => []
  | foldRound :: rest =>
      let out := foldTwo input foldRound.sibling foldRound.alpha foldRound.xInv
      out :: lineFolds out rest

/-- Outputs of the circle fold and of the line folds. -/
def recursiveQueryRef (step : StepOp) (rounds : List FoldRound) : List ℕ :=
  let first := foldTwo step.fPlus step.fMinus step.friAlpha step.yInv
  first :: lineFolds first rounds

def recursiveQueryFinal (step : StepOp) (rounds : List FoldRound) : ℕ :=
  (recursiveQueryRef step rounds).getLast (List.cons_ne_nil _ _)

/-- The challenges of a query, with the composition values that its folded
values stand for. -/
def queryChallenges (step : StepOp) (rounds : List FoldRound) : QueryChallenges :=
  let pxQ := pack ⟨step.px.toNat, 0, 0, 0⟩
  let negPxQ := subLimbs ⟨0, 0, 0, 0⟩ (limbs pxQ)
  let dPos := subLimbs (limbs pxQ) (limbs step.zX)
  let dNeg := subLimbs negPxQ (limbs step.zX)
  { px := step.px
    zX := step.zX
    alphas := step.friAlpha :: rounds.map FoldRound.alpha
    invs := step.yInv :: rounds.map FoldRound.xInv
    compPos := pack (addLimbs (mulLimbs (limbs step.fPlus) dPos) (limbs step.oodsComboPos))
    compNeg := pack (addLimbs (mulLimbs (limbs step.fMinus) dNeg) (limbs step.oodsComboNeg)) }

/-- Challenges with every word reduced, one for each of the first rows. -/
def QueryChallenges.reduced (ch : QueryChallenges) (count : ℕ) : QueryChallenges where
  px := UInt32.ofNat (ch.px.toNat % P)
  zX := reduce ch.zX
  alphas := ch.alphas.take count
  invs := ch.invs.take count
  compPos := reduce ch.compPos
  compNeg := reduce ch.compNeg

/-- One fold of field elements. -/
def fold (a b alpha : Quad M31) (inv : M31) : Quad M31 :=
  qadd (qadd a b) (qmul alpha (qscale (qsub a b) inv))

theorem foldTwo_packed (a b : Quad M31) (alpha : ℕ) (inv : UInt32) :
    foldTwo (packed a) (packed b) alpha inv =
      packed (fold a b (value alpha) (inv.toNat : M31)) := by
  have first := Stwo.words_small a
  have second := Stwo.words_small b
  unfold foldTwo
  simp only [limbs_packed]
  rw [subLimbs_eq first, scaleLimbs_eq (Stwo.words_small _) (UInt32.toNat_lt inv),
    mulLimbs_eq (limbs_small alpha) (Stwo.words_small _), addLimbs_eq first second,
    addLimbs_eq (Stwo.words_small _) (Stwo.words_small _)]
  rw [Stwo.residues_words, Stwo.residues_words, Stwo.residues_words, Stwo.residues_words,
    Stwo.residues_words, Stwo.residues_words, packed, fold, value]

theorem lineFolds_getLast (first : ℕ) (rounds : List FoldRound) :
    (first :: lineFolds first rounds).getLast (List.cons_ne_nil _ _) =
      rounds.foldl
        (fun input foldRound => foldTwo input foldRound.sibling foldRound.alpha foldRound.xInv)
        first := by
  induction rounds generalizing first with
  | nil => rfl
  | cons foldRound rest ih =>
      rw [List.foldl_cons, ← ih, List.getLast_cons (by simp [lineFolds])]
      simp only [lineFolds]

theorem recursiveQueryFinal_eq (step : StepOp) (rounds : List FoldRound) :
    recursiveQueryFinal step rounds =
      rounds.foldl
        (fun input foldRound => foldTwo input foldRound.sibling foldRound.alpha foldRound.xInv)
        (foldTwo step.fPlus step.fMinus step.friAlpha step.yInv) :=
  lineFolds_getLast _ rounds

/-! ## Columns -/

/-- Main columns of one row. -/
structure MainRow where
  px : M31
  zX : Quad M31
  alpha : Quad M31
  inv : M31
  a : Quad M31
  b : Quad M31
  comboPos : Quad M31
  comboNeg : Quad M31
  compPos : Quad M31
  compNeg : Quad M31
  p : Quad M31
  out : Quad M31

/-- Preprocessed columns of one row. -/
structure PreprocRow where
  isStep : M31
  chainOn : M31
  isOutput : M31
  fin : Quad M31
  alpha : Quad M31
  px : M31
  zX : Quad M31
  inv : M31
  compPos : Quad M31
  compNeg : Quad M31

/-- The quad of zeros. -/
def noWords : Quad M31 := ⟨0, 0, 0, 0⟩

/-- A row without selectors. -/
def PreprocRow.padding : PreprocRow :=
  ⟨0, 0, 0, noWords, noWords, 0, noWords, 0, noWords, noWords⟩

/-- The point of an out-of-domain equation: a base field element minus `z_x`. -/
def oodsPoint (x zero : M31) (zX : Quad M31) : Quad M31 :=
  ⟨x - zX.w0, zero - zX.w1, zero - zX.w2, zero - zX.w3⟩

/-- All constraints of a row: challenge and inverse as pinned, the fold of the two values, the
out-of-domain equations and compositions on the first row of a query, the chain from the row
before, and the pinned final value.  The combinations `comboPos` and `comboNeg` are cells that
nothing pins. -/
def evaluate (main previous : MainRow) (preproc : PreprocRow) : List M31 :=
  let zero := main.px - main.px
  let ap := qmul main.alpha main.p
  let prodPos := qmul main.a (oodsPoint main.px zero main.zX)
  let prodNeg := qmul main.b (oodsPoint (zero - main.px) zero main.zX)
  (qsub main.alpha preproc.alpha).toList ++
  [main.inv - preproc.inv] ++
  [preproc.isStep * (main.px - preproc.px)] ++
  gatedDifferences preproc.isStep main.zX preproc.zX ++
  (qsub main.p (qscale (qsub main.a main.b) main.inv)).toList ++
  (qsub main.out (qadd (qadd main.a main.b) ap)).toList ++
  gatedDifferences preproc.isStep prodPos (qsub main.compPos main.comboPos) ++
  gatedDifferences preproc.isStep prodNeg (qsub main.compNeg main.comboNeg) ++
  gatedDifferences preproc.chainOn main.a previous.out ++
  gatedDifferences preproc.isStep main.compPos preproc.compPos ++
  gatedDifferences preproc.isStep main.compNeg preproc.compNeg ++
  gatedDifferences preproc.isOutput main.out preproc.fin

/-- The main columns satisfy every constraint on every row. -/
def Satisfies (main : ℕ → MainRow) (preproc : ℕ → PreprocRow) (logSize : ℕ) : Prop :=
  ∀ row < 2 ^ logSize, Vanish (evaluate (main row) (main (previousRow logSize row)) (preproc row))

/-- Row `r` of the block of a query. -/
def blockRow (numFolds r final : ℕ) (ch : QueryChallenges) : PreprocRow where
  isStep := if r = 0 then 1 else 0
  chainOn := if r = 0 then 0 else 1
  isOutput := if r = numFolds then 1 else 0
  fin := if r = numFolds then value final else noWords
  alpha := value (ch.alphas.getD r 0)
  px := if r = 0 then m31 ch.px.toNat else 0
  zX := if r = 0 then value ch.zX else noWords
  inv := m31 (ch.invs.getD r 0).toNat
  compPos := if r = 0 then value ch.compPos else noWords
  compNeg := if r = 0 then value ch.compNeg else noWords

/-- Rows of blocks laid end to end. -/
def preprocRow (finals : List ℕ) (challenges : List QueryChallenges) (numFolds row : ℕ) :
    PreprocRow :=
  match finals[row / (1 + numFolds)]?, challenges[row / (1 + numFolds)]? with
  | some final, some ch => blockRow numFolds (row % (1 + numFolds)) final ch
  | _, _ => .padding

/-- Preprocessed columns, when every index of the fill is in bounds. -/
def buildPreproc (finals : List ℕ) (challenges : List QueryChallenges) (numFolds logSize : ℕ) :
    Except String (ℕ → PreprocRow) :=
  let block := 1 + numFolds
  if finals.length ≠ challenges.length then .error "finals/challenges length mismatch"
  else if 2 ^ logSize < finals.length * block then .error "index out of bounds"
  else if ¬ challenges.all (fun ch => block ≤ ch.alphas.length ∧ block ≤ ch.invs.length) then
    .error "index out of bounds"
  else .ok (preprocRow finals challenges numFolds)

/-! ## Rows -/

section Rows

variable {main : ℕ → MainRow} {preproc : ℕ → PreprocRow} {logSize row : ℕ}

theorem vanish_qsub {first second : Quad M31} :
    Vanish (qsub first second).toList ↔ first = second := by
  simp [qsub, Quad.toList, Quad.zipWith, Quad.ext_iff, sub_eq_zero]

theorem Satisfies.fold_eq (satisfied : Satisfies main preproc logSize) (inside : row < 2 ^ logSize) :
    (main row).out =
      fold (main row).a (main row).b (preproc row).alpha (preproc row).inv := by
  have all := satisfied row inside
  simp only [evaluate, vanish_append, vanish_cons, vanish_nil, vanish_qsub, sub_eq_zero] at all
  rcases all with ⟨⟨⟨⟨⟨⟨⟨⟨⟨⟨⟨alpha, inv, -⟩, -⟩, -⟩, product⟩, output⟩, -⟩, -⟩, -⟩, -⟩, -⟩, -⟩
  rw [output, product, alpha, inv]
  rfl

/-- On a chained row the first operand is the output of the row before it. -/
theorem Satisfies.chain (satisfied : Satisfies main preproc logSize)
    (inside : row + 1 < 2 ^ logSize) (chained : (preproc (row + 1)).chainOn = 1) :
    (main (row + 1)).a = (main row).out := by
  have all := satisfied (row + 1) inside
  simp only [evaluate, vanish_append, chained, vanish_gatedDifferences_one] at all
  rcases all with ⟨⟨⟨⟨-, operand⟩, -⟩, -⟩, -⟩
  rw [operand, previousRow_succ inside]

/-- On an output row the output is the pinned one. -/
theorem Satisfies.out_eq (satisfied : Satisfies main preproc logSize) (inside : row < 2 ^ logSize)
    (output : (preproc row).isOutput = 1) : (main row).out = (preproc row).fin := by
  have all := satisfied row inside
  simp only [evaluate, vanish_append, output, vanish_gatedDifferences_one] at all
  exact all.2

/-- What a step row says: the pins of its challenges and composition values,
and the two out-of-domain equations. -/
structure StepFacts (main : MainRow) (preproc : PreprocRow) : Prop where
  px_eq : main.px = preproc.px
  zX_eq : main.zX = preproc.zX
  compPos_eq : main.compPos = preproc.compPos
  compNeg_eq : main.compNeg = preproc.compNeg
  oodsPos : qmul main.a (oodsPoint main.px 0 main.zX) = qsub main.compPos main.comboPos
  oodsNeg : qmul main.b (oodsPoint (-main.px) 0 main.zX) = qsub main.compNeg main.comboNeg

theorem Satisfies.stepFacts (satisfied : Satisfies main preproc logSize)
    (inside : row < 2 ^ logSize) (step : (preproc row).isStep = 1) :
    StepFacts (main row) (preproc row) := by
  have all := satisfied row inside
  simp only [evaluate, vanish_append, vanish_cons, vanish_nil, step, vanish_gatedDifferences_one,
    one_mul, sub_eq_zero, sub_self, zero_sub] at all
  rcases all with
    ⟨⟨⟨⟨⟨⟨⟨⟨⟨⟨-, px, -⟩, zX⟩, -⟩, -⟩, positive⟩, negative⟩, -⟩, compPos⟩, compNeg⟩, -⟩
  exact ⟨px, zX, compPos, compNeg, positive, negative⟩

end Rows

/-! ## Blocks -/

section Blocks

variable {finals : List ℕ} {challenges : List QueryChallenges} {numFolds logSize q final : ℕ}
variable {ch : QueryChallenges} {main : ℕ → MainRow}

theorem preprocRow_eq (found : finals[q]? = some final) (drawn : challenges[q]? = some ch)
    {r : ℕ} (early : r ≤ numFolds) :
    preprocRow finals challenges numFolds (q * (1 + numFolds) + r) =
      blockRow numFolds r final ch := by
  have block : (q * (1 + numFolds) + r) / (1 + numFolds) = q := by
    rw [Nat.mul_comm, Nat.mul_add_div (by omega), Nat.div_eq_of_lt (by omega), Nat.add_zero]
  have row : (q * (1 + numFolds) + r) % (1 + numFolds) = r := by
    rw [Nat.mul_comm, Nat.mul_add_mod, Nat.mod_eq_of_lt (by omega)]
  rw [preprocRow, block, row, found, drawn]

/-- Rows of a block lie in the trace. -/
theorem block_inside (found : finals[q]? = some final)
    (fits : finals.length * (1 + numFolds) ≤ 2 ^ logSize) {r : ℕ} (early : r ≤ numFolds) :
    q * (1 + numFolds) + r < 2 ^ logSize := by
  have place : q < finals.length := (List.getElem?_eq_some_iff.mp found).1
  calc
    q * (1 + numFolds) + r < (q + 1) * (1 + numFolds) := by
      rw [Nat.succ_mul]
      omega
    _ ≤ finals.length * (1 + numFolds) := Nat.mul_le_mul_right _ place
    _ ≤ 2 ^ logSize := fits

/-- The step that the first row of a block holds. -/
def stepOf (row : MainRow) (ch : QueryChallenges) : StepOp where
  fPlus := packed row.a
  fMinus := packed row.b
  px := UInt32.ofNat (ch.px.toNat % P)
  zX := reduce ch.zX
  oodsComboPos := packed row.comboPos
  oodsComboNeg := packed row.comboNeg
  friAlpha := ch.alphas.getD 0 0
  yInv := ch.invs.getD 0 0

/-- The rounds that the other rows of a block hold. -/
def roundsOf (main : ℕ → MainRow) (base : ℕ) (ch : QueryChallenges) (count : ℕ) :
    List FoldRound :=
  (List.range count).map fun i =>
    ⟨packed (main (base + (i + 1))).b, ch.alphas.getD (i + 1) 0, ch.invs.getD (i + 1) 0⟩

/-- Folding the first rounds of a block gives the output of their last row. -/
theorem Satisfies.folded (satisfied : Satisfies main (preprocRow finals challenges numFolds) logSize)
    (found : finals[q]? = some final) (drawn : challenges[q]? = some ch)
    (fits : finals.length * (1 + numFolds) ≤ 2 ^ logSize) {count : ℕ} (early : count ≤ numFolds) :
    recursiveQueryFinal (stepOf (main (q * (1 + numFolds))) ch)
        (roundsOf main (q * (1 + numFolds)) ch count) =
      packed (main (q * (1 + numFolds) + count)).out := by
  rw [recursiveQueryFinal_eq]
  induction count with
  | zero =>
      have inside := block_inside found fits (Nat.zero_le numFolds)
      have row := preprocRow_eq found drawn (Nat.zero_le numFolds)
      rw [satisfied.fold_eq inside, row]
      simp only [roundsOf, List.range_zero, List.map_nil, List.foldl_nil, stepOf, foldTwo_packed,
        blockRow, m31_eq_cast, Nat.add_zero]
  | succ count ih =>
      have inside := block_inside found fits early
      have row := preprocRow_eq found drawn early
      have chained : (preprocRow finals challenges numFolds
          (q * (1 + numFolds) + count + 1)).chainOn = 1 := by
        rw [Nat.add_assoc, row]
        rfl
      have operand := satisfied.chain (by rw [Nat.add_assoc]; exact inside) chained
      rw [Nat.add_assoc] at operand
      have before := ih (by omega)
      rw [roundsOf] at before ⊢
      rw [List.range_succ, List.map_append, List.foldl_append, before, List.map_singleton,
        List.foldl_cons, List.foldl_nil, foldTwo_packed, satisfied.fold_eq inside, row, operand]
      simp only [blockRow, m31_eq_cast]

/-- A composition value computed on packed values, at a point whose words are given. -/
theorem compValue_packed (f point combo : Quad M31) {d : Quad ℕ} (read : d = Stwo.words point) :
    pack (addLimbs (mulLimbs (limbs (packed f)) d) (limbs (packed combo))) =
      packed (qadd (qmul f point) combo) := by
  rw [read, limbs_packed, limbs_packed, mulLimbs_eq (Stwo.words_small _) (Stwo.words_small _),
    addLimbs_eq (Stwo.words_small _) (Stwo.words_small _), Stwo.residues_words,
    Stwo.residues_words, Stwo.residues_words, Stwo.residues_words, packed]

theorem qadd_of_qsub {product value combo : Quad M31} (equation : product = qsub value combo) :
    qadd product combo = value := by
  rw [equation]
  ext <;> simp [qadd, qsub]

theorem take_eq_map_getD {α : Type*} (list : List α) (default : α) {count : ℕ}
    (long : 1 + count ≤ list.length) :
    list.getD 0 default :: (List.range count).map (fun i => list.getD (i + 1) default) =
      list.take (1 + count) := by
  apply List.ext_getElem
  · simp
    omega
  · intro i inside within
    cases i with
    | zero =>
        have bounded : 0 < list.length := by omega
        simp [List.getD_eq_getElem?_getD, List.getElem?_eq_getElem bounded]
    | succ i =>
        have bounded : i + 1 < list.length := by
          rw [List.length_take] at within
          omega
        simp [List.getD_eq_getElem?_getD, List.getElem?_eq_getElem bounded]

/-- The base field point of a query, in packed words. -/
theorem limbs_px (px : ℕ) :
    limbs (pack ⟨(UInt32.ofNat (px % P)).toNat, 0, 0, 0⟩) = Stwo.words ⟨(px : M31), 0, 0, 0⟩ := by
  have small : px % P < 2 ^ 32 := lt_trans (Nat.mod_lt _ (by decide)) (by decide)
  have word : (UInt32.ofNat (px % P)).toNat = ((px : M31)).val := by
    rw [UInt32.toNat_ofNat_of_lt' small, ZMod.val_natCast]
  have read : (⟨(UInt32.ofNat (px % P)).toNat, 0, 0, 0⟩ : Quad ℕ) =
      Stwo.words ⟨(px : M31), 0, 0, 0⟩ := by
    rw [word]
    ext <;> simp [Stwo.words]
  rw [read, limbs_pack (Stwo.words_small _)]

/-- A query read off a step row has the challenges pinned there. -/
theorem StepFacts.challenges_eq {row : MainRow} {numFolds final : ℕ}
    (facts : StepFacts row (blockRow numFolds 0 final ch))
    (alphas : 1 + numFolds ≤ ch.alphas.length) (invs : 1 + numFolds ≤ ch.invs.length)
    (base : ℕ) :
    queryChallenges (stepOf row ch) (roundsOf main base ch numFolds) =
      ch.reduced (1 + numFolds) := by
  have zX : limbs (reduce ch.zX) = Stwo.words (value ch.zX) := by
    rw [← packed_value, limbs_packed]
  have point : Stwo.residues (Stwo.words ⟨(ch.px.toNat : M31), 0, 0, 0⟩) =
      ⟨(ch.px.toNat : M31), 0, 0, 0⟩ := Stwo.residues_words _
  have positive : subLimbs (limbs (pack ⟨(stepOf row ch).px.toNat, 0, 0, 0⟩))
      (limbs (stepOf row ch).zX) = Stwo.words (oodsPoint row.px 0 row.zX) := by
    rw [stepOf, limbs_px, zX, subLimbs_eq (Stwo.words_small _), point, facts.px_eq, facts.zX_eq]
    simp [blockRow, oodsPoint, qsub, Quad.zipWith]
  have negative : subLimbs
      (subLimbs ⟨0, 0, 0, 0⟩ (limbs (pack ⟨(stepOf row ch).px.toNat, 0, 0, 0⟩)))
      (limbs (stepOf row ch).zX) = Stwo.words (oodsPoint (-row.px) 0 row.zX) := by
    have zeros : (⟨0, 0, 0, 0⟩ : Quad ℕ).All (· < 2 ^ 32) := by
      simp [Quad.All]
    rw [stepOf, limbs_px, zX, subLimbs_eq zeros, subLimbs_eq (Stwo.words_small _),
      Stwo.residues_words, facts.px_eq, facts.zX_eq]
    simp [blockRow, oodsPoint, qsub, Quad.zipWith, Stwo.residues, Quad.map]
  have compPos := compValue_packed row.a (oodsPoint row.px 0 row.zX) row.comboPos positive
  have compNeg := compValue_packed row.b (oodsPoint (-row.px) 0 row.zX) row.comboNeg negative
  rw [qadd_of_qsub facts.oodsPos, facts.compPos_eq] at compPos
  rw [qadd_of_qsub facts.oodsNeg, facts.compNeg_eq] at compNeg
  have pinnedPos : packed (blockRow numFolds 0 final ch).compPos = reduce ch.compPos :=
    packed_value _
  have pinnedNeg : packed (blockRow numFolds 0 final ch).compNeg = reduce ch.compNeg :=
    packed_value _
  rw [pinnedPos] at compPos
  rw [pinnedNeg] at compNeg
  have friAlphas : ch.alphas.getD 0 0 ::
      (roundsOf main base ch numFolds).map FoldRound.alpha = ch.alphas.take (1 + numFolds) := by
    rw [roundsOf, List.map_map]
    exact take_eq_map_getD _ _ alphas
  have twiddles : ch.invs.getD 0 0 ::
      (roundsOf main base ch numFolds).map FoldRound.xInv = ch.invs.take (1 + numFolds) := by
    rw [roundsOf, List.map_map]
    exact take_eq_map_getD _ _ invs
  unfold queryChallenges QueryChallenges.reduced
  dsimp only
  rw [QueryChallenges.mk.injEq]
  exact ⟨rfl, rfl, friAlphas, twiddles, compPos, compNeg⟩

/-- Every block of a satisfying trace holds a query with the pinned challenges,
whose fold chain ends in the pinned value. -/
theorem Satisfies.query (satisfied : Satisfies main (preprocRow finals challenges numFolds) logSize)
    (found : finals[q]? = some final) (drawn : challenges[q]? = some ch)
    (fits : finals.length * (1 + numFolds) ≤ 2 ^ logSize)
    (alphas : 1 + numFolds ≤ ch.alphas.length) (invs : 1 + numFolds ≤ ch.invs.length) :
    ∃ step rounds, rounds.length = numFolds ∧
      queryChallenges step rounds = ch.reduced (1 + numFolds) ∧
      recursiveQueryFinal step rounds = reduce final := by
  have row := preprocRow_eq found drawn (Nat.zero_le numFolds)
  rw [Nat.add_zero] at row
  have first : q * (1 + numFolds) < 2 ^ logSize := block_inside found fits (Nat.zero_le numFolds)
  have facts : StepFacts (main (q * (1 + numFolds))) (blockRow numFolds 0 final ch) := by
    rw [← row]
    apply satisfied.stepFacts first
    rw [row]
    rfl
  have last := preprocRow_eq found drawn (Nat.le_refl numFolds)
  have output : (main (q * (1 + numFolds) + numFolds)).out = value final := by
    rw [satisfied.out_eq (block_inside found fits (Nat.le_refl numFolds))
      (by rw [last]; exact if_pos rfl), last]
    exact if_pos rfl
  refine ⟨stepOf (main (q * (1 + numFolds))) ch, roundsOf main (q * (1 + numFolds)) ch numFolds,
    ?_, facts.challenges_eq alphas invs _, ?_⟩
  · rw [roundsOf, List.length_map, List.length_range]
  · rw [satisfied.folded found drawn fits (Nat.le_refl numFolds), output, packed_value]

end Blocks

end RecursiveVerifier
end Recursive
end QLSA
