import QLSA.Recursive.FoldInputs

namespace QLSA
namespace Recursive
namespace RecursiveVerifier

open Hash Mersenne Qm31

/-!
# The fold circuit proves the fold chain

The builder writes the operands, challenges and outputs of every query into its
block.  On canonical limbs each row it writes is the row of its operands, so
only the chain between rows and the last output are left to check.  In the
other direction the rows of a block are read as a query, whose outputs are the
reference's.
-/

/-! ## The builder -/

/-- Columns of a row that nothing is written to. -/
def MainRow.idle : MainRow :=
  ⟨0, noWords, noWords, 0, noWords, noWords, noWords, noWords, noWords, noWords, noWords, noWords⟩

/-- The first row of a block: both out-of-domain equations and the circle fold.  The compositions
are computed from the values at the point and its opposite and from the combinations that the
operation carries. -/
def stepRow (step : StepOp) (out : ℕ) : MainRow :=
  let pxQ := pack ⟨step.px.toNat, 0, 0, 0⟩
  let negPxQ := subLimbs ⟨0, 0, 0, 0⟩ (limbs pxQ)
  let dPos := subLimbs (limbs pxQ) (limbs step.zX)
  let dNeg := subLimbs negPxQ (limbs step.zX)
  let compPos := pack (addLimbs (mulLimbs (limbs step.fPlus) dPos) (limbs step.oodsComboPos))
  let compNeg := pack (addLimbs (mulLimbs (limbs step.fMinus) dNeg) (limbs step.oodsComboNeg))
  let p0 := scaleLimbs (subLimbs (limbs step.fPlus) (limbs step.fMinus)) step.yInv.toNat
  { px := m31 step.px.toNat
    zX := value step.zX
    alpha := value step.friAlpha
    inv := m31 step.yInv.toNat
    a := value step.fPlus
    b := value step.fMinus
    comboPos := value step.oodsComboPos
    comboNeg := value step.oodsComboNeg
    compPos := value compPos
    compNeg := value compNeg
    p := value (pack p0)
    out := value out }

/-- A line fold writes eighteen columns of its row and leaves the others. -/
def roundRow (row : MainRow) (foldRound : FoldRound) (input out : ℕ) : MainRow :=
  let p := scaleLimbs (subLimbs (limbs input) (limbs foldRound.sibling)) foldRound.xInv.toNat
  { row with
    alpha := value foldRound.alpha
    inv := m31 foldRound.xInv.toNat
    a := value input
    b := value foldRound.sibling
    p := value (pack p)
    out := value out }

/-- The loop over the line folds, from the `i`-th on. -/
def fillRounds (base : ℕ) (outs : List ℕ) (rows : ℕ → MainRow) (i : ℕ) :
    List FoldRound → ℕ → MainRow
  | [] => rows
  | foldRound :: rest =>
      let r := base + i + 1
      let row := roundRow (rows r) foldRound (outs.getD i 0) (outs.getD (i + 1) 0)
      fillRounds base outs (Function.update rows r row) (i + 1) rest

def fillQueryBlock (rows : ℕ → MainRow) (base : ℕ) (step : StepOp) (rounds : List FoldRound) :
    ℕ → MainRow :=
  let outs := recursiveQueryRef step rounds
  fillRounds base outs (Function.update rows base (stepRow step (outs.getD 0 0))) 0 rounds

/-- The loop over the queries, from the `q`-th on. -/
def fillBlocks (block : ℕ) (rows : ℕ → MainRow) (q : ℕ) :
    List (StepOp × List FoldRound) → ℕ → MainRow
  | [] => rows
  | (step, rounds) :: rest =>
      fillBlocks block (fillQueryBlock rows (q * block) step rounds) (q + 1) rest

/-- Main columns of the queries, when every index of the fill is in bounds.  Rows behind the last
block stay idle. -/
def buildTraceMultiRaw (queries : List (StepOp × List FoldRound)) (logSize : ℕ) :
    Except String (ℕ → MainRow) :=
  match queries with
  | [] => .error "build_trace_multi requires ≥ 1 query"
  | first :: _ =>
      let block := 1 + first.2.length
      if ¬ queries.zipIdx.all (fun (query, q) => q * block + query.2.length < 2 ^ logSize) then
        .error "index out of bounds"
      else .ok (fillBlocks block (fun _ => .idle) 0 queries)

/-! ## Filled rows -/

section Fill

variable {base block i q r row : ℕ} {outs : List ℕ} {rows : ℕ → MainRow}
  {step : StepOp} {rounds : List FoldRound} {queries : List (StepOp × List FoldRound)}

theorem fillRounds_outside (outside : row ≤ base + i ∨ base + i + rounds.length < row) :
    fillRounds base outs rows i rounds row = rows row := by
  induction rounds generalizing rows i with
  | nil => rfl
  | cons foldRound rest ih =>
      rw [List.length_cons] at outside
      have other : row ≠ base + i + 1 := by omega
      rw [fillRounds, ih (by omega), Function.update_of_ne other]

theorem fillRounds_at {foldRound : FoldRound} {j : ℕ} (found : rounds[j]? = some foldRound) :
    fillRounds base outs rows i rounds (base + i + 1 + j) =
      roundRow (rows (base + i + 1 + j)) foldRound (outs.getD (i + j) 0)
        (outs.getD (i + j + 1) 0) := by
  induction rounds generalizing rows i j with
  | nil => simp at found
  | cons first rest ih =>
      rw [fillRounds]
      cases j with
      | zero =>
          rw [fillRounds_outside (.inl (by omega)), Function.update_self,
            ← Option.some.inj found]
          rfl
      | succ j =>
          rw [List.getElem?_cons_succ] at found
          have place : base + i + 1 + (j + 1) = base + (i + 1) + 1 + j := by omega
          have other : base + (i + 1) + 1 + j ≠ base + i + 1 := by omega
          have index : i + (j + 1) = i + 1 + j := by omega
          rw [place, ih found, Function.update_of_ne other, index]

/-- Row `r` of the block of a query. -/
def queryRow (step : StepOp) (rounds : List FoldRound) (r : ℕ) : MainRow :=
  let outs := recursiveQueryRef step rounds
  match r with
  | 0 => stepRow step (outs.getD 0 0)
  | r + 1 =>
      match rounds[r]? with
      | some foldRound => roundRow .idle foldRound (outs.getD r 0) (outs.getD (r + 1) 0)
      | none => .idle

theorem fillQueryBlock_outside (outside : row < base ∨ base + rounds.length < row) :
    fillQueryBlock rows base step rounds row = rows row := by
  have other : row ≠ base := by omega
  rw [fillQueryBlock, fillRounds_outside (by omega), Function.update_of_ne other]

theorem fillQueryBlock_at (empty : ∀ r ≤ rounds.length, rows (base + r) = .idle)
    (early : r ≤ rounds.length) :
    fillQueryBlock rows base step rounds (base + r) = queryRow step rounds r := by
  rw [fillQueryBlock]
  cases r with
  | zero =>
      rw [fillRounds_outside (.inl (Nat.le_refl _)), Nat.add_zero, Function.update_self]
      rfl
  | succ r =>
      have found : rounds[r]? = some rounds[r] := List.getElem?_eq_getElem (by omega)
      have place : base + (r + 1) = base + 0 + 1 + r := by omega
      have other : base + 0 + 1 + r ≠ base := by omega
      have idle := empty (r + 1) early
      rw [place] at idle
      rw [place, fillRounds_at found, Function.update_of_ne other, idle, Nat.zero_add, queryRow,
        found]

/-- Blocks of one length do not meet. -/
theorem fillBlocks_outside (uniform : ∀ query ∈ queries, 1 + query.2.length = block)
    (outside : row < q * block ∨ (q + queries.length) * block ≤ row) :
    fillBlocks block rows q queries row = rows row := by
  induction queries generalizing rows q with
  | nil => rfl
  | cons query rest ih =>
      rcases query with ⟨step, rounds⟩
      rcases List.forall_mem_cons.mp uniform with ⟨length, later⟩
      have next : (q + 1) * block = q * block + block := Nat.succ_mul q block
      have total : (q + 1) * block ≤ (q + (rest.length + 1)) * block :=
        Nat.mul_le_mul_right block (by omega)
      rw [List.length_cons] at outside
      dsimp only at length
      have own : row < q * block ∨ q * block + rounds.length < row := by omega
      have after : row < (q + 1) * block ∨ (q + 1 + rest.length) * block ≤ row := by
        have same : q + 1 + rest.length = q + (rest.length + 1) := by omega
        rw [same]
        omega
      rw [fillBlocks, ih later after, fillQueryBlock_outside own]

theorem fillBlocks_at (uniform : ∀ query ∈ queries, 1 + query.2.length = block)
    (empty : ∀ row, q * block ≤ row → rows row = .idle) {j : ℕ}
    (found : queries[j]? = some (step, rounds)) (early : r ≤ rounds.length) :
    fillBlocks block rows q queries ((q + j) * block + r) = queryRow step rounds r := by
  induction queries generalizing rows q j with
  | nil => simp at found
  | cons query rest ih =>
      rcases query with ⟨firstStep, firstRounds⟩
      rcases List.forall_mem_cons.mp uniform with ⟨length, later⟩
      have next : (q + 1) * block = q * block + block := Nat.succ_mul q block
      dsimp only at length
      rw [fillBlocks]
      cases j with
      | zero =>
          rcases Prod.mk.inj (Option.some.inj found) with ⟨rfl, rfl⟩
          have inside : q * block + r < (q + 1) * block := by omega
          rw [Nat.add_zero q, fillBlocks_outside later (.inl inside)]
          exact fillQueryBlock_at (fun r _ => empty _ (Nat.le_add_right _ r)) early
      | succ j =>
          rw [List.getElem?_cons_succ] at found
          have place : q + (j + 1) = q + 1 + j := by omega
          rw [place]
          apply ih later _ found
          intro row after
          rw [fillQueryBlock_outside (.inr (by omega))]
          exact empty row (by omega)

end Fill

/-! ## Canonical inputs -/

/-- The limbs and words of a step are canonical. -/
structure StepOp.Canonical (step : StepOp) : Prop where
  fPlus : (limbs step.fPlus).All Mersenne.Canonical
  fMinus : (limbs step.fMinus).All Mersenne.Canonical
  zX : (limbs step.zX).All Mersenne.Canonical
  oodsComboPos : (limbs step.oodsComboPos).All Mersenne.Canonical
  oodsComboNeg : (limbs step.oodsComboNeg).All Mersenne.Canonical
  friAlpha : (limbs step.friAlpha).All Mersenne.Canonical
  px : Mersenne.Canonical step.px.toNat
  yInv : Mersenne.Canonical step.yInv.toNat

structure FoldRound.Canonical (foldRound : FoldRound) : Prop where
  sibling : (limbs foldRound.sibling).All Mersenne.Canonical
  alpha : (limbs foldRound.alpha).All Mersenne.Canonical
  xInv : Mersenne.Canonical foldRound.xInv.toNat

section Canonical

variable {a b q : ℕ} {step : StepOp} {rounds : List FoldRound}

theorem limbs_eq_words (canonical : (limbs q).All Canonical) :
    limbs q = Stwo.words (value q) := by
  rw [value, Stwo.words_residues, Stwo.norm4_eq_self canonical]

theorem canonical_packed (x : Quad M31) : (limbs (packed x)).All Canonical := by
  rw [limbs_packed]
  exact Stwo.words_canonical x

theorem canonical_small {v : ℕ} (bound : v < P) : (limbs v).All Canonical := by
  have high (k : ℕ) (wide : 32 ≤ k) : v >>> k % 2 ^ 32 = 0 := by
    rw [Nat.shiftRight_eq_div_pow, Nat.div_eq_of_lt, Nat.zero_mod]
    exact (bound.trans (by decide : P < 2 ^ 32)).trans_le (Nat.pow_le_pow_right (by omega) wide)
  have low : v % 2 ^ 32 = v := Nat.mod_eq_of_lt (bound.trans (by decide))
  rw [limbs, high 96 (by omega), high 64 (by omega), high 32 (by omega), low]
  exact ⟨P_prime.pos, P_prime.pos, P_prime.pos, bound⟩

/-- A fold depends on the limbs of its operands. -/
theorem foldTwo_of_canonical (first : (limbs a).All Canonical) (second : (limbs b).All Canonical)
    (alpha : ℕ) (inv : UInt32) :
    foldTwo a b alpha inv =
      packed (fold (value a) (value b) (value alpha) (inv.toNat : M31)) := by
  rw [← foldTwo_packed]
  unfold foldTwo
  rw [limbs_packed, limbs_packed, ← limbs_eq_words first, ← limbs_eq_words second]

/-- The outputs are those of the first rounds. -/
theorem lineFolds_getElem? (first : ℕ) (rounds : List FoldRound) {r : ℕ}
    (early : r ≤ rounds.length) :
    (first :: lineFolds first rounds)[r]? = some ((rounds.take r).foldl
      (fun input foldRound => foldTwo input foldRound.sibling foldRound.alpha foldRound.xInv)
      first) := by
  induction rounds generalizing first r with
  | nil =>
      rw [List.length_nil, Nat.le_zero] at early
      rw [early]
      rfl
  | cons foldRound rest ih =>
      cases r with
      | zero => rfl
      | succ r =>
          rw [List.length_cons] at early
          rw [List.take_succ_cons, List.foldl_cons, ← ih _ (by omega)]
          rfl

theorem lineFolds_length (first : ℕ) (rounds : List FoldRound) :
    (lineFolds first rounds).length = rounds.length := by
  induction rounds generalizing first with
  | nil => rfl
  | cons foldRound rest ih => rw [lineFolds, List.length_cons, List.length_cons, ih]

theorem recursiveQueryRef_getElem? {r : ℕ} (early : r ≤ rounds.length) :
    (recursiveQueryRef step rounds)[r]? =
      some (recursiveQueryFinal step (rounds.take r)) := by
  rw [recursiveQueryFinal_eq]
  exact lineFolds_getElem? _ rounds early

theorem recursiveQueryRef_getD {r : ℕ} (early : r ≤ rounds.length) :
    (recursiveQueryRef step rounds).getD r 0 = recursiveQueryFinal step (rounds.take r) := by
  rw [List.getD_eq_getElem?_getD, recursiveQueryRef_getElem? early, Option.getD_some]

/-- One more round folds the output before it. -/
theorem recursiveQueryFinal_take_succ {foldRound : FoldRound} {r : ℕ}
    (found : rounds[r]? = some foldRound) :
    recursiveQueryFinal step (rounds.take (r + 1)) =
      foldTwo (recursiveQueryFinal step (rounds.take r)) foldRound.sibling foldRound.alpha
        foldRound.xInv := by
  rw [recursiveQueryFinal_eq, recursiveQueryFinal_eq, List.take_add_one, found, List.foldl_append,
    Option.toList_some, List.foldl_cons, List.foldl_nil]

/-- Outputs have canonical limbs. -/
theorem recursiveQueryFinal_canonical (canonical : step.Canonical)
    (each : ∀ foldRound ∈ rounds, foldRound.Canonical) (r : ℕ) :
    (limbs (recursiveQueryFinal step (rounds.take r))).All Mersenne.Canonical := by
  induction r with
  | zero =>
      rw [List.take_zero, recursiveQueryFinal_eq, List.foldl_nil,
        foldTwo_of_canonical canonical.fPlus canonical.fMinus]
      exact canonical_packed _
  | succ r ih =>
      cases found : rounds[r]? with
      | none =>
          rw [List.take_add_one, found, Option.toList_none, List.append_nil]
          exact ih
      | some foldRound =>
          have own := each foldRound (List.mem_of_getElem? found)
          rw [recursiveQueryFinal_take_succ found, foldTwo_of_canonical ih own.sibling]
          exact canonical_packed _

end Canonical

/-! ## Filled rows are rows of their operands -/

section Rows

variable {step : StepOp} {rounds : List FoldRound} {numFolds final r : ℕ}

/-- The point of either equation, in words. -/
theorem oodsPoint_words (canonical : step.Canonical) :
    subLimbs (limbs (pack ⟨step.px.toNat, 0, 0, 0⟩)) (limbs step.zX) =
        Stwo.words (oodsPoint (m31 step.px.toNat) 0 (value step.zX)) ∧
      subLimbs (subLimbs ⟨0, 0, 0, 0⟩ (limbs (pack ⟨step.px.toNat, 0, 0, 0⟩))) (limbs step.zX) =
        Stwo.words (oodsPoint (-m31 step.px.toNat) 0 (value step.zX)) := by
  have word : (⟨step.px.toNat, 0, 0, 0⟩ : Quad ℕ) =
      Stwo.words ⟨m31 step.px.toNat, 0, 0, 0⟩ := by
    have read : (m31 step.px.toNat).val = step.px.toNat := by
      rw [m31_eq_cast, ZMod.val_natCast, Nat.mod_eq_of_lt canonical.px]
    simp only [Stwo.words, Quad.map, read, ZMod.val_zero]
  have zeros : (⟨0, 0, 0, 0⟩ : Quad ℕ).All (· < 2 ^ 32) := by
    simp [Quad.All]
  have small := Stwo.words_small (⟨m31 step.px.toNat, 0, 0, 0⟩ : Quad M31)
  rw [word, limbs_pack small, limbs_eq_words canonical.zX]
  constructor
  · rw [subLimbs_eq small, Stwo.residues_words]
    simp [oodsPoint, qsub, Quad.zipWith]
  · rw [subLimbs_eq zeros, subLimbs_eq (Stwo.words_small _), Stwo.residues_words]
    simp [oodsPoint, qsub, Quad.zipWith, Stwo.residues, Quad.map]

/-- A composition value is the product at its point and the combination. -/
theorem value_compValue {f combo : ℕ} {d : Quad ℕ} {point : Quad M31}
    (read : d = Stwo.words point) :
    value (pack (addLimbs (mulLimbs (limbs f) d) (limbs combo))) =
      qadd (qmul (value f) point) (value combo) := by
  rw [read, mulLimbs_eq (limbs_small f) (Stwo.words_small _),
    addLimbs_eq (Stwo.words_small _) (limbs_small combo), Stwo.residues_words,
    Stwo.residues_words, ← packed, value_packed, value, value]

theorem qsub_qadd_cancel (x y : Quad M31) : qsub (qadd x y) x = y := by
  ext <;> simp [qadd, qsub]

/-- The helper column of a fold. -/
theorem value_scaled {a b : ℕ} (second : (limbs b).All Canonical) (inv : UInt32) :
    value (pack (scaleLimbs (subLimbs (limbs a) (limbs b)) inv.toNat)) =
      qscale (qsub (value a) (value b)) (m31 inv.toNat) := by
  rw [limbs_eq_words second, subLimbs_eq (limbs_small a),
    scaleLimbs_eq (Stwo.words_small _) (UInt32.toNat_lt inv), Stwo.residues_words, m31_eq_cast,
    ← packed, value_packed, ← value]

theorem value_foldTwo {a b alpha : ℕ} {inv : UInt32} (first : (limbs a).All Canonical)
    (second : (limbs b).All Canonical) :
    value (foldTwo a b alpha inv) = fold (value a) (value b) (value alpha) (m31 inv.toNat) := by
  rw [foldTwo_of_canonical first second, value_packed, m31_eq_cast]

theorem queryRow_zero (canonical : step.Canonical) :
    queryRow step rounds 0 = rowOf (blockRow numFolds 0 final (queryChallenges step rounds))
      (value step.fPlus) (value step.fMinus) := by
  rcases oodsPoint_words canonical with ⟨positive, negative⟩
  have compPos := @value_compValue step.fPlus step.oodsComboPos _ _ positive
  have compNeg := @value_compValue step.fMinus step.oodsComboNeg _ _ negative
  have out : (recursiveQueryRef step rounds).getD 0 0 =
      foldTwo step.fPlus step.fMinus step.friAlpha step.yInv := by
    rw [recursiveQueryRef, List.getD_cons_zero]
  have folded := @value_foldTwo _ _ step.friAlpha step.yInv canonical.fPlus canonical.fMinus
  have scaled := @value_scaled step.fPlus _ canonical.fMinus step.yInv
  simp only [queryRow, stepRow, out, folded, scaled, rowOf, blockRow, queryChallenges, compPos,
    compNeg, if_true, List.getD_cons_zero, qsub_qadd_cancel]

theorem queryRow_succ {foldRound : FoldRound} (canonical : step.Canonical)
    (each : ∀ foldRound ∈ rounds, foldRound.Canonical) (found : rounds[r]? = some foldRound) :
    queryRow step rounds (r + 1) =
      rowOf (blockRow numFolds (r + 1) final (queryChallenges step rounds))
        (value (recursiveQueryFinal step (rounds.take r))) (value foldRound.sibling) := by
  have inside : r < rounds.length := (List.getElem?_eq_some_iff.mp found).1
  have input := recursiveQueryFinal_canonical canonical each r
  have own := each foldRound (List.mem_of_getElem? found)
  have folded := @value_foldTwo _ _ foldRound.alpha foldRound.xInv input own.sibling
  have scaled := @value_scaled (recursiveQueryFinal step (rounds.take r)) _ own.sibling
    foldRound.xInv
  have alpha : (queryChallenges step rounds).alphas.getD (r + 1) 0 = foldRound.alpha := by
    change (step.friAlpha :: rounds.map FoldRound.alpha).getD (r + 1) 0 = _
    rw [List.getD_cons_succ, List.getD_eq_getElem?_getD, List.getElem?_map, found]
    rfl
  have inv : (queryChallenges step rounds).invs.getD (r + 1) 0 = foldRound.xInv := by
    change (step.yInv :: rounds.map FoldRound.xInv).getD (r + 1) 0 = _
    rw [List.getD_cons_succ, List.getD_eq_getElem?_getD, List.getElem?_map, found]
    rfl
  have filled : queryRow step rounds (r + 1) = roundRow .idle foldRound
      ((recursiveQueryRef step rounds).getD r 0) ((recursiveQueryRef step rounds).getD (r + 1) 0) := by
    simp only [queryRow, found]
  have outside : qsub noWords (qmul (value (recursiveQueryFinal step (rounds.take r)))
      (oodsPoint 0 0 noWords)) = noWords ∧
      qsub noWords (qmul (value foldRound.sibling) (oodsPoint (-0) 0 noWords)) = noWords := by
    constructor <;> simp [oodsPoint, noWords, qsub, qmul, Quad.zipWith]
  rw [filled, recursiveQueryRef_getD inside.le, recursiveQueryRef_getD inside,
    recursiveQueryFinal_take_succ found]
  simp only [roundRow, folded, scaled, rowOf, blockRow, alpha, inv, Nat.add_eq_zero_iff, one_ne_zero,
    and_false, if_false, MainRow.idle, outside.1, outside.2]

/-- A filled row has its output of the chain. -/
theorem queryRow_out (early : r ≤ rounds.length) :
    (queryRow step rounds r).out = value (recursiveQueryFinal step (rounds.take r)) := by
  rw [← recursiveQueryRef_getD early]
  cases r with
  | zero => rfl
  | succ r =>
      have found : rounds[r]? = some rounds[r] := List.getElem?_eq_getElem (by omega)
      simp only [queryRow, found, roundRow]

end Rows

/-! ## Every query is proved -/

def recursiveQueriesFinal (queries : List (StepOp × List FoldRound)) : List ℕ :=
  queries.map fun query => recursiveQueryFinal query.1 query.2

def allChallenges (queries : List (StepOp × List FoldRound)) : List QueryChallenges :=
  queries.map fun query => queryChallenges query.1 query.2

/-- Main and preprocessed columns of the queries. -/
def buildTraceMulti (queries : List (StepOp × List FoldRound)) (logSize : ℕ) :
    Except String ((ℕ → MainRow) × (ℕ → PreprocRow)) := do
  let main ← buildTraceMultiRaw queries logSize
  let numFolds := ((queries.map Prod.snd).headD []).length
  let preproc ← buildPreproc (recursiveQueriesFinal queries) (allChallenges queries) numFolds logSize
  return (main, preproc)

/-- Queries with one number of rounds, on canonical limbs. -/
structure Provable (queries : List (StepOp × List FoldRound)) (numFolds : ℕ) : Prop where
  nonempty : queries ≠ []
  uniform : ∀ query ∈ queries, query.2.length = numFolds
  steps : ∀ query ∈ queries, query.1.Canonical
  rounds : ∀ query ∈ queries, ∀ foldRound ∈ query.2, foldRound.Canonical

section Complete

variable {queries : List (StepOp × List FoldRound)} {numFolds logSize q r : ℕ}
  {step : StepOp} {rounds : List FoldRound}

section Uniform

variable (uniform : ∀ query ∈ queries, query.2.length = numFolds)
  (fits : queries.length * (1 + numFolds) ≤ 2 ^ logSize)

include uniform fits

theorem buildTraceMultiRaw_eq (nonempty : queries ≠ []) :
    buildTraceMultiRaw queries logSize =
      .ok (fillBlocks (1 + numFolds) (fun _ => .idle) 0 queries) := by
  rcases List.exists_cons_of_ne_nil nonempty with ⟨first, rest, rfl⟩
  have block : 1 + first.2.length = 1 + numFolds := by
    rw [uniform first List.mem_cons_self]
  have bounded : (first :: rest).zipIdx.all (fun entry =>
      entry.2 * (1 + numFolds) + entry.1.2.length < 2 ^ logSize) = true := by
    rw [List.all_eq_true]
    intro entry member
    rcases List.mem_zipIdx_iff_getElem?.mp member with found
    have inside : entry.2 < (first :: rest).length := (List.getElem?_eq_some_iff.mp found).1
    have length := uniform entry.1 (List.mem_of_getElem? found)
    have next : (entry.2 + 1) * (1 + numFolds) ≤ (first :: rest).length * (1 + numFolds) :=
      Nat.mul_le_mul_right _ inside
    rw [Nat.succ_mul] at next
    exact decide_eq_true (by omega)
  rw [buildTraceMultiRaw, block, if_neg (not_not.mpr bounded)]

theorem buildPreproc_queries :
    buildPreproc (recursiveQueriesFinal queries) (allChallenges queries) numFolds logSize =
      .ok (preprocRow (recursiveQueriesFinal queries) (allChallenges queries) numFolds) := by
  have lengths : (recursiveQueriesFinal queries).length = (allChallenges queries).length := by
    rw [recursiveQueriesFinal, allChallenges, List.length_map, List.length_map]
  have count : (recursiveQueriesFinal queries).length = queries.length := List.length_map _
  have drawn : (allChallenges queries).all (fun ch =>
      1 + numFolds ≤ ch.alphas.length ∧ 1 + numFolds ≤ ch.invs.length) = true := by
    rw [List.all_eq_true]
    intro ch member
    rcases List.mem_map.mp member with ⟨query, listed, rfl⟩
    have length := uniform query listed
    apply decide_eq_true
    simp only [queryChallenges, List.length_cons, List.length_map]
    omega
  rw [buildPreproc, if_neg (not_not.mpr lengths), count, if_neg (not_lt.mpr fits),
    if_neg (not_not.mpr drawn)]

/-- Columns of uniform queries, whatever their values are. -/
theorem buildTraceMulti_eq (nonempty : queries ≠ []) : buildTraceMulti queries logSize =
    .ok (fillBlocks (1 + numFolds) (fun _ => .idle) 0 queries,
      preprocRow (recursiveQueriesFinal queries) (allChallenges queries) numFolds) := by
  have first : ((queries.map Prod.snd).headD []).length = numFolds := by
    rcases List.exists_cons_of_ne_nil nonempty with ⟨query, rest, rfl⟩
    exact uniform query List.mem_cons_self
  have pinned := buildPreproc_queries uniform fits
  rw [buildTraceMulti, buildTraceMultiRaw_eq uniform fits nonempty, first]
  dsimp only [bind, Except.bind]
  rw [pinned]
  rfl

end Uniform

theorem Provable.build_eq (provable : Provable queries numFolds)
    (fits : queries.length * (1 + numFolds) ≤ 2 ^ logSize) :
    buildTraceMultiRaw queries logSize =
      .ok (fillBlocks (1 + numFolds) (fun _ => .idle) 0 queries) :=
  buildTraceMultiRaw_eq provable.uniform fits provable.nonempty

theorem Provable.preproc_eq (provable : Provable queries numFolds)
    (fits : queries.length * (1 + numFolds) ≤ 2 ^ logSize) :
    buildPreproc (recursiveQueriesFinal queries) (allChallenges queries) numFolds logSize =
      .ok (preprocRow (recursiveQueriesFinal queries) (allChallenges queries) numFolds) :=
  buildPreproc_queries provable.uniform fits

/-- A row of a block, with its pins. -/
theorem Provable.row_eq (provable : Provable queries numFolds)
    (found : queries[q]? = some (step, rounds)) (early : r ≤ numFolds) :
    fillBlocks (1 + numFolds) (fun _ => .idle) 0 queries (q * (1 + numFolds) + r) =
        queryRow step rounds r ∧
      preprocRow (recursiveQueriesFinal queries) (allChallenges queries) numFolds
        (q * (1 + numFolds) + r) =
          blockRow numFolds r (recursiveQueryFinal step rounds) (queryChallenges step rounds) := by
  have length := provable.uniform _ (List.mem_of_getElem? found)
  have blocks : ∀ query ∈ queries, 1 + query.2.length = 1 + numFolds := by
    intro query member
    rw [provable.uniform query member]
  constructor
  · have filled := fillBlocks_at blocks (q := 0) (fun _ _ => rfl) found
      (show r ≤ rounds.length from length ▸ early)
    rwa [Nat.zero_add] at filled
  · apply preprocRow_eq _ _ early
    · rw [recursiveQueriesFinal, List.getElem?_map, found, Option.map_some]
    · rw [allChallenges, List.getElem?_map, found, Option.map_some]

/-- The row of a block satisfies the constraints behind the row before it. -/
theorem blockRow_vanish (canonical : step.Canonical)
    (each : ∀ foldRound ∈ rounds, foldRound.Canonical) (length : rounds.length = numFolds)
    (early : r ≤ numFolds) {previous : MainRow}
    (before : ∀ r', r = r' + 1 → previous = queryRow step rounds r') :
    Vanish (evaluate (queryRow step rounds r) previous (blockRow numFolds r
      (recursiveQueryFinal step rounds) (queryChallenges step rounds))) := by
  subst length
  have output (row : MainRow) (own : row = queryRow step rounds r) :
      Vanish (gatedDifferences (blockRow rounds.length r (recursiveQueryFinal step rounds)
        (queryChallenges step rounds)).isOutput row.out (blockRow rounds.length r
        (recursiveQueryFinal step rounds) (queryChallenges step rounds)).fin) := by
    by_cases last : r = rounds.length
    · have ends : row.out = value (recursiveQueryFinal step rounds) := by
        rw [own, queryRow_out early, last, List.take_length]
      simp only [blockRow, if_pos last, ends]
      exact vanish_gatedDifferences_self _ _
    · simp only [blockRow, if_neg last]
      exact vanish_gatedDifferences_zero _ _
  cases r with
  | zero =>
      have row := @queryRow_zero step rounds rounds.length (recursiveQueryFinal step rounds)
        canonical
      have ends := output _ row.symm
      rw [row]
      refine rowOf_vanish ?_ ends
      exact vanish_gatedDifferences_zero _ _
  | succ r =>
      have found : rounds[r]? = some rounds[r] := List.getElem?_eq_getElem (by omega)
      have row := @queryRow_succ step rounds rounds.length (recursiveQueryFinal step rounds) r _
        canonical each found
      have ends := output _ row.symm
      have input : previous.out = value (recursiveQueryFinal step (rounds.take r)) := by
        rw [before r rfl, queryRow_out (by omega)]
      rw [row]
      refine rowOf_vanish ?_ ends
      rw [input]
      exact vanish_gatedDifferences_self _ _

/-- Nothing is checked behind the last block. -/
theorem idle_vanish (previous : MainRow) : Vanish (evaluate .idle previous .padding) := by
  simp [evaluate, MainRow.idle, PreprocRow.padding, noWords, gatedDifferences, qsub, qadd, qscale,
    qmul, Quad.toList, Quad.zipWith, Quad.map, Vanish]

theorem Provable.satisfies (provable : Provable queries numFolds) :
    Satisfies (fillBlocks (1 + numFolds) (fun _ => .idle) 0 queries)
      (preprocRow (recursiveQueriesFinal queries) (allChallenges queries) numFolds) logSize := by
  intro row inside
  by_cases within : row < queries.length * (1 + numFolds)
  · have below : row / (1 + numFolds) < queries.length := Nat.div_lt_of_lt_mul
      (Nat.mul_comm _ _ ▸ within)
    have early : row % (1 + numFolds) ≤ numFolds := by
      have bounded := Nat.mod_lt row (show 1 + numFolds > 0 by omega)
      omega
    have position : row = row / (1 + numFolds) * (1 + numFolds) + row % (1 + numFolds) := by
      rw [Nat.mul_comm, Nat.div_add_mod]
    have found : queries[row / (1 + numFolds)]? = some queries[row / (1 + numFolds)] :=
      List.getElem?_eq_getElem below
    have member := List.mem_of_getElem? found
    have length := provable.uniform _ member
    rcases provable.row_eq found early with ⟨main, preproc⟩
    rw [← position] at main preproc
    rw [main, preproc]
    refine blockRow_vanish (provable.steps _ member) (provable.rounds _ member) length early ?_
    intro r next
    have before := (provable.row_eq found (show r ≤ numFolds by omega)).1
    have previous : previousRow logSize row = row / (1 + numFolds) * (1 + numFolds) + r := by
      have successor : row = row / (1 + numFolds) * (1 + numFolds) + r + 1 := by omega
      have step := @previousRow_succ logSize (row / (1 + numFolds) * (1 + numFolds) + r)
        (by omega)
      rwa [← successor] at step
    rw [previous, before]
    rfl
  · have outside : queries.length ≤ row / (1 + numFolds) := by
      rw [Nat.le_div_iff_mul_le (by omega)]
      omega
    have blocks : ∀ query ∈ queries, 1 + query.2.length = 1 + numFolds := by
      intro query member
      rw [provable.uniform query member]
    have main : fillBlocks (1 + numFolds) (fun _ => MainRow.idle) 0 queries row = .idle := by
      rw [fillBlocks_outside blocks (.inr (by rw [Nat.zero_add]; omega))]
    have preproc : preprocRow (recursiveQueriesFinal queries) (allChallenges queries) numFolds
        row = .padding := by
      have none : (recursiveQueriesFinal queries)[row / (1 + numFolds)]? = none := by
        rw [List.getElem?_eq_none_iff, recursiveQueriesFinal, List.length_map]
        exact outside
      rw [preprocRow, none]
    rw [main, preproc]
    exact idle_vanish _

end Complete

/-! ## Every satisfying trace is a chain -/

/-- The rows of a block are a fold chain under the pinned challenges, from
operands that meet both out-of-domain equations to the pinned final value. -/
structure ChainProved (main : ℕ → MainRow) (base numFolds final : ℕ) (ch : QueryChallenges) :
    Prop where
  outs_eq : recursiveQueryRef (stepOf (main base) ch) (roundsOf main base ch numFolds) =
    (List.range (1 + numFolds)).map fun r => packed (main (base + r)).out
  final_eq : recursiveQueryFinal (stepOf (main base) ch) (roundsOf main base ch numFolds) =
    reduce final
  oodsPos : qmul (main base).a (qsub ⟨(ch.px.toNat : M31), 0, 0, 0⟩ (value ch.zX)) =
    qsub (value ch.compPos) (main base).comboPos
  oodsNeg : qmul (main base).b (qsub ⟨-(ch.px.toNat : M31), 0, 0, 0⟩ (value ch.zX)) =
    qsub (value ch.compNeg) (main base).comboNeg

section Sound

variable {finals : List ℕ} {challenges : List QueryChallenges} {numFolds logSize q final : ℕ}
  {ch : QueryChallenges} {main : ℕ → MainRow}

theorem roundsOf_take (main : ℕ → MainRow) (base : ℕ) (ch : QueryChallenges) {r count : ℕ}
    (early : r ≤ count) : (roundsOf main base ch count).take r = roundsOf main base ch r := by
  rw [roundsOf, roundsOf, ← List.map_take, List.take_range, Nat.min_eq_left early]

theorem Satisfies.chainProved
    (satisfied : Satisfies main (preprocRow finals challenges numFolds) logSize)
    (fits : finals.length * (1 + numFolds) ≤ 2 ^ logSize)
    (found : finals[q]? = some final) (drawn : challenges[q]? = some ch) :
    ChainProved main (q * (1 + numFolds)) numFolds final ch := by
  have length : (roundsOf main (q * (1 + numFolds)) ch numFolds).length = numFolds := by
    rw [roundsOf, List.length_map, List.length_range]
  have row := preprocRow_eq found drawn (Nat.zero_le numFolds)
  rw [Nat.add_zero] at row
  have first : q * (1 + numFolds) < 2 ^ logSize := block_inside found fits (Nat.zero_le numFolds)
  have facts : StepFacts (main (q * (1 + numFolds))) (blockRow numFolds 0 final ch) := by
    rw [← row]
    apply satisfied.stepFacts first
    rw [row]
    rfl
  have last := preprocRow_eq found drawn (Nat.le_refl numFolds)
  have output : (main (q * (1 + numFolds) + numFolds)).out = value final := by
    rw [satisfied.out_eq (block_inside found fits (Nat.le_refl numFolds))
      (by rw [last]; exact if_pos rfl), last]
    exact if_pos rfl
  have pins : (blockRow numFolds 0 final ch).px = (ch.px.toNat : M31) ∧
      (blockRow numFolds 0 final ch).zX = value ch.zX ∧
      (blockRow numFolds 0 final ch).compPos = value ch.compPos ∧
      (blockRow numFolds 0 final ch).compNeg = value ch.compNeg := by
    simp only [blockRow, if_true, m31_eq_cast, and_self]
  rcases pins with ⟨px, zX, compPos, compNeg⟩
  have point (x : M31) : oodsPoint x 0 (value ch.zX) = qsub ⟨x, 0, 0, 0⟩ (value ch.zX) := rfl
  constructor
  · apply List.ext_getElem?
    intro r
    by_cases early : r ≤ numFolds
    · rw [recursiveQueryRef_getElem? (length.symm ▸ early), roundsOf_take _ _ _ early,
        satisfied.folded found drawn fits early, List.getElem?_map,
        List.getElem?_range (by omega), Option.map_some]
    · have long : (recursiveQueryRef (stepOf (main (q * (1 + numFolds))) ch)
          (roundsOf main (q * (1 + numFolds)) ch numFolds)).length = 1 + numFolds := by
        rw [recursiveQueryRef, List.length_cons, lineFolds_length, length, Nat.add_comm]
      rw [List.getElem?_eq_none (by omega), List.getElem?_eq_none]
      rw [List.length_map, List.length_range]
      omega
  · rw [satisfied.folded found drawn fits (Nat.le_refl numFolds), output, packed_value]
  · rw [← point, ← px, ← zX, ← compPos, ← facts.px_eq, ← facts.zX_eq, ← facts.compPos_eq]
    exact facts.oodsPos
  · rw [← point, ← px, ← zX, ← compNeg, ← facts.px_eq, ← facts.zX_eq, ← facts.compNeg_eq]
    exact facts.oodsNeg

end Sound

/-- The fold circuit proves exactly the fold chain: filled traces of provable
queries satisfy every constraint, and in a trace that satisfies them every block
is a chain under the pinned challenges. -/
theorem chain_proved_exactly :
    (∀ (queries : List (StepOp × List FoldRound)) (numFolds logSize : ℕ),
      Provable queries numFolds → queries.length * (1 + numFolds) ≤ 2 ^ logSize →
      ∃ main preproc, buildTraceMultiRaw queries logSize = .ok main ∧
        buildPreproc (recursiveQueriesFinal queries) (allChallenges queries) numFolds logSize =
          .ok preproc ∧ Satisfies main preproc logSize) ∧
    ∀ (finals : List ℕ) (challenges : List QueryChallenges) (numFolds logSize : ℕ)
      (main : ℕ → MainRow) (preproc : ℕ → PreprocRow),
      buildPreproc finals challenges numFolds logSize = .ok preproc →
      Satisfies main preproc logSize →
      ∀ q final ch, finals[q]? = some final → challenges[q]? = some ch →
        ChainProved main (q * (1 + numFolds)) numFolds final ch := by
  constructor
  · intro queries numFolds logSize provable fits
    exact ⟨_, _, provable.build_eq fits, provable.preproc_eq fits, provable.satisfies⟩
  · intro finals challenges numFolds logSize main preproc built satisfied q final ch found drawn
    have parts : finals.length * (1 + numFolds) ≤ 2 ^ logSize ∧
        preproc = preprocRow finals challenges numFolds := by
      unfold buildPreproc at built
      dsimp only at built
      split_ifs at built with _ outside
      exact ⟨by omega, (Except.ok.inj built).symm⟩
    rw [parts.2] at satisfied
    exact satisfied.chainProved parts.1 found drawn

/-- One query with a line fold. -/
def sampleQuery : StepOp × List FoldRound := (⟨1, 2, 3, 4, 5, 6, 7, 8⟩, [⟨9, 10, 11⟩])

theorem chain_proved_sample : ∃ main preproc,
    buildTraceMultiRaw [sampleQuery] 1 = .ok main ∧
      buildPreproc (recursiveQueriesFinal [sampleQuery]) (allChallenges [sampleQuery]) 1 1 =
        .ok preproc ∧ Satisfies main preproc 1 ∧
      ChainProved main 0 1 (recursiveQueryFinal sampleQuery.1 sampleQuery.2)
        (queryChallenges sampleQuery.1 sampleQuery.2) := by
  have small {v : ℕ} (bound : v < P) : (limbs v).All Canonical := by
    have high (k : ℕ) (wide : 32 ≤ k) : v >>> k % 2 ^ 32 = 0 := by
      rw [Nat.shiftRight_eq_div_pow, Nat.div_eq_of_lt, Nat.zero_mod]
      exact (bound.trans (by decide : P < 2 ^ 32)).trans_le (Nat.pow_le_pow_right (by omega) wide)
    have low : v % 2 ^ 32 = v := Nat.mod_eq_of_lt (bound.trans (by decide))
    rw [limbs, high 96 (by omega), high 64 (by omega), high 32 (by omega), low]
    exact ⟨P_prime.pos, P_prime.pos, P_prime.pos, bound⟩
  have provable : Provable [sampleQuery] 1 := by
    refine ⟨List.cons_ne_nil _ _, ?_, ?_, ?_⟩
    · intro query member
      rw [List.mem_singleton.mp member]
      rfl
    · intro query member
      rw [List.mem_singleton.mp member]
      exact ⟨small (by decide), small (by decide), small (by decide), small (by decide),
        small (by decide), small (by decide), by decide, by decide⟩
    · intro query member foldRound listed
      rw [List.mem_singleton.mp member] at listed
      rw [List.mem_singleton.mp listed]
      exact ⟨small (by decide), small (by decide), by decide⟩
  rcases chain_proved_exactly with ⟨complete, sound⟩
  rcases complete _ 1 1 provable (by decide) with ⟨main, preproc, built, pinned, satisfied⟩
  have chain := sound _ _ 1 1 main preproc pinned satisfied 0 _ _ rfl rfl
  rw [Nat.zero_mul] at chain
  exact ⟨main, preproc, built, pinned, satisfied, chain⟩

end RecursiveVerifier
end Recursive
end QLSA
