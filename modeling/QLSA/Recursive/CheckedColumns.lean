import QLSA.Machine.Panics
import QLSA.Recursive.CompositionT8

namespace QLSA
namespace Recursive

open Hash Machine Mersenne Qm31

/-!
# Preprocessed columns with every index checked

The builders of the preprocessed columns fill them cell by cell.  Here each
write and each read is checked, as the source's are at run time, and so are its
assertions; those of debug builds only when `debug` holds.  The fill of the fold
chains comes back just when the blocks fit the rows and the vectors of the
challenges are long enough.  The fill of the paths stops at the last
compression that fits, so it asks for no rows; but a path of depth zero is
refused by an assertion, and depths whose layout has no room in memory are
refused by the vector that is to hold it.
-/

/-- A write to columns with this many rows. -/
def place (rows : ℕ) (write : Write) : Except Panic Write :=
  if write.1.2 < rows then .ok write else .error .outOfBounds

section Writes

variable {rows column row : ℕ} {write : Write} {writes : List Write}

theorem returns_place_iff : Returns (place rows write) ↔ write.1.2 < rows := by
  unfold place
  split
  case isTrue inside => exact iff_of_true (returns_ok _) inside
  case isFalse outside => exact iff_of_false (not_returns_error _) outside

theorem returns_places_iff :
    Returns (writes.mapM (place rows)) ↔ ∀ write ∈ writes, write.1.2 < rows :=
  returns_mapM_iff fun _ _ => returns_place_iff

theorem row_of_quadWrites {words : Quad ℕ} (member : write ∈ quadWrites column row words) :
    write.1.2 = row := by
  simp only [quadWrites, List.mem_cons, List.not_mem_nil, or_false] at member
  rcases member with rfl | rfl | rfl | rfl <;> rfl

end Writes

/-! ## Fold chains -/

namespace RecursiveVerifier

/-- What a query writes besides its fold challenges, with the columns numbered in the
order of the source. -/
def queryWrites (base numFolds final : ℕ) (ch : QueryChallenges) : List Write :=
  [((0, base), 1)] ++
  (List.range numFolds).map (fun r => ((1, base + (r + 1)), 1)) ++
  [((2, base + numFolds), 1)] ++
  quadWrites 3 (base + numFolds) (limbs final) ++
  [((11, base), m31 ch.px.toNat)] ++
  quadWrites 12 base (limbs ch.zX) ++
  quadWrites 17 base (limbs ch.compPos) ++
  quadWrites 21 base (limbs ch.compNeg)

/-- The fold challenges of a row. -/
def fillFold (rows base : ℕ) (ch : QueryChallenges) (r : ℕ) : Except Panic (List Write) := do
  let alpha ← readAt ch.alphas r
  let words ← (quadWrites 7 (base + r) (limbs alpha)).mapM (place rows)
  let inv ← readAt ch.invs r
  let cell ← place rows ((16, base + r), m31 inv.toNat)
  return words ++ [cell]

/-- The block of a query.  A base beyond `usize` is not reached, since an earlier block is
outside of the rows already. -/
def fillQuery (debug : Bool) (rows numFolds block : ℕ) (challenges : List QueryChallenges)
    (final q : ℕ) : Except Panic (List Write) := do
  let base := q * block
  let ch ← readAt challenges q
  demand (debug = true → ch.alphas.length = block)
  demand (debug = true → ch.invs.length = block)
  let own ← (queryWrites base numFolds final ch).mapM (place rows)
  let folds ← (List.range block).mapM (fillFold rows base ch)
  return own ++ folds.flatten

/-- `build_preproc` with its panics. -/
def buildPreprocChecked (debug : Bool) (finals : List ℕ) (challenges : List QueryChallenges)
    (numFolds logSize : ℕ) : Except Panic Columns := do
  demand (finals.length = challenges.length)
  let block ← usize debug (1 + numFolds)
  let blocks ← finals.zipIdx.mapM fun (final, q) =>
    fillQuery debug (2 ^ logSize) numFolds block challenges final q
  return columnsOf blocks.flatten

/-- The vectors of a query have an entry for each row of a block; debug builds assert
that they have no more. -/
structure QueryChallenges.Covers (debug : Bool) (ch : QueryChallenges) (block : ℕ) : Prop where
  alphas : block ≤ ch.alphas.length
  invs : block ≤ ch.invs.length
  exact : debug = true → ch.alphas.length = block ∧ ch.invs.length = block

section Fill

variable {debug : Bool} {rows numFolds logSize block base q r final : ℕ} {ch : QueryChallenges}
  {finals : List ℕ} {challenges : List QueryChallenges}

theorem queryWrites_inside :
    (∀ write ∈ queryWrites base numFolds final ch, write.1.2 < rows) ↔ base + numFolds < rows := by
  constructor
  · intro all
    apply all ((2, base + numFolds), 1)
    simp [queryWrites]
  · intro inside write member
    simp only [queryWrites, List.mem_append, List.mem_map, List.mem_range, List.mem_singleton,
      or_assoc] at member
    rcases member with rfl | ⟨r, early, rfl⟩ | rfl | fin | rfl | zX | pos | neg
    · exact (Nat.le_add_right _ _).trans_lt inside
    · dsimp only
      omega
    · exact inside
    · rw [row_of_quadWrites fin]
      exact inside
    · exact (Nat.le_add_right _ _).trans_lt inside
    · rw [row_of_quadWrites zX]
      exact (Nat.le_add_right _ _).trans_lt inside
    · rw [row_of_quadWrites pos]
      exact (Nat.le_add_right _ _).trans_lt inside
    · rw [row_of_quadWrites neg]
      exact (Nat.le_add_right _ _).trans_lt inside

theorem returns_fillFold_iff :
    Returns (fillFold rows base ch r) ↔
      r < ch.alphas.length ∧ r < ch.invs.length ∧ base + r < rows := by
  have words (alpha : ℕ) :
      (∀ write ∈ quadWrites 7 (base + r) (limbs alpha), write.1.2 < rows) ↔ base + r < rows := by
    constructor
    · intro all
      exact all _ List.mem_cons_self
    · intro inside write member
      rw [row_of_quadWrites member]
      exact inside
  have steps : Returns (fillFold rows base ch r) ↔
      r < ch.alphas.length ∧ base + r < rows ∧ r < ch.invs.length ∧ base + r < rows ∧ True :=
    returns_seq returns_readAt_iff fun alpha =>
      returns_seq (returns_places_iff.trans (words alpha)) fun _ =>
        returns_seq returns_readAt_iff fun _ => returns_seq returns_place_iff fun _ =>
          returns_return_iff _
  rw [steps]
  constructor
  · rintro ⟨alpha, -, inv, inside, -⟩
    exact ⟨alpha, inv, inside⟩
  · rintro ⟨alpha, inv, inside⟩
    exact ⟨alpha, inside, inv, inside, trivial⟩

/-- A query is filled when its block fits and its vectors cover it. -/
theorem returns_fillQuery_iff (found : challenges[q]? = some ch) (short : block ≤ 1 + numFolds) :
    Returns (fillQuery debug rows numFolds block challenges final q) ↔
      q * block + numFolds < rows ∧ ch.Covers debug block := by
  have steps : Returns (fillQuery debug rows numFolds block challenges final q) ↔
      (debug = true → ch.alphas.length = block) ∧ (debug = true → ch.invs.length = block) ∧
        q * block + numFolds < rows ∧
        (∀ r ∈ List.range block,
          r < ch.alphas.length ∧ r < ch.invs.length ∧ q * block + r < rows) ∧ True :=
    returns_known (readAt_of_found found) <|
      returns_seq returns_demand_iff fun _ => returns_seq returns_demand_iff fun _ =>
        returns_seq (returns_places_iff.trans queryWrites_inside) fun _ =>
          returns_seq (returns_mapM_iff fun _ _ => returns_fillFold_iff) fun _ =>
            returns_return_iff _
  rw [steps]
  constructor
  · rintro ⟨alphas, invs, inside, folds, -⟩
    refine ⟨inside, ?_, ?_, fun checked => ⟨alphas checked, invs checked⟩⟩
    · by_contra few
      have row := folds ch.alphas.length (List.mem_range.mpr (Nat.not_le.mp few))
      exact lt_irrefl _ row.1
    · by_contra few
      have row := folds ch.invs.length (List.mem_range.mpr (Nat.not_le.mp few))
      exact lt_irrefl _ row.2.1
  · rintro ⟨inside, covers⟩
    refine ⟨fun checked => (covers.exact checked).1, fun checked => (covers.exact checked).2,
      inside, ?_, trivial⟩
    intro r member
    have early := List.mem_range.mp member
    exact ⟨early.trans_le covers.alphas, early.trans_le covers.invs, by omega⟩

/-- All queries are filled when each is. -/
theorem returns_fillQueries_iff (same : challenges.length = finals.length)
    (short : block ≤ 1 + numFolds) :
    Returns (finals.zipIdx.mapM fun (final, q) =>
        fillQuery debug rows numFolds block challenges final q) ↔
      ∀ q ch, challenges[q]? = some ch → q * block + numFolds < rows ∧ ch.Covers debug block := by
  have each : ∀ entry ∈ finals.zipIdx,
      (Returns (fillQuery debug rows numFolds block challenges entry.1 entry.2) ↔
        ∀ ch, challenges[entry.2]? = some ch →
          entry.2 * block + numFolds < rows ∧ ch.Covers debug block) := by
    rintro ⟨final, q⟩ member
    have early := (List.getElem?_eq_some_iff.mp (List.mk_mem_zipIdx_iff_getElem?.mp member)).1
    have found : challenges[q]? = some challenges[q] := List.getElem?_eq_getElem (by omega)
    rw [returns_fillQuery_iff found short]
    constructor
    · rintro filled ch own
      rw [Option.some.inj (own.symm.trans found)]
      exact filled
    · intro all
      exact all _ found
  rw [returns_mapM_iff each]
  constructor
  · intro all q ch found
    have early := (List.getElem?_eq_some_iff.mp found).1
    have listed : finals[q]? = some finals[q] := List.getElem?_eq_getElem (by omega)
    exact all (finals[q], q) (List.mk_mem_zipIdx_iff_getElem?.mpr listed) ch found
  · intro all entry _ ch found
    exact all entry.2 ch found

/-- The columns are built when the blocks fit the rows and every query is covered. -/
theorem returns_buildPreprocChecked_iff (same : challenges.length = finals.length)
    (asked : finals ≠ []) (bounded : 2 ^ logSize < 2 ^ 64) :
    Returns (buildPreprocChecked debug finals challenges numFolds logSize) ↔
      finals.length * (1 + numFolds) ≤ 2 ^ logSize ∧
        ∀ ch ∈ challenges, ch.Covers debug (1 + numFolds) := by
  have count : 0 < finals.length := List.length_pos_iff.mpr asked
  have blocks : finals.length * (1 + numFolds) =
      (finals.length - 1) * (1 + numFolds) + (1 + numFolds) := by
    rw [← Nat.succ_mul, Nat.succ_eq_add_one, Nat.sub_add_cancel count]
  unfold buildPreprocChecked
  refine returns_known (demand_of same.symm) ?_
  cases done : usize debug (1 + numFolds) with
  | error failure =>
      -- A block beyond 64 bits has no room in the rows either.
      have wide : ¬ 1 + numFolds < 2 ^ 64 := by
        intro small
        rw [usize_of_lt small] at done
        cases done
      exact iff_of_false (not_returns_error failure) fun fits => wide (by omega)
  | ok block =>
      have wrapped := usize_ok done
      have short : block ≤ 1 + numFolds := wrapped.trans_le (Nat.mod_le _ _)
      refine returns_known rfl ?_
      rw [returns_seq (returns_fillQueries_iff same short) fun _ => returns_return_iff _, and_true]
      constructor
      · intro filled
        have first := (filled 0 _ (List.getElem?_eq_getElem (by omega))).1
        have exact_block : block = 1 + numFolds := by
          rw [wrapped, Nat.mod_eq_of_lt (by omega)]
        have last := (filled (finals.length - 1) _ (List.getElem?_eq_getElem (by omega))).1
        rw [exact_block] at last filled
        refine ⟨by omega, ?_⟩
        intro ch member
        rcases List.mem_iff_getElem?.mp member with ⟨q, found⟩
        exact (filled q ch found).2
      · rintro ⟨fits, covers⟩ q ch found
        have early := (List.getElem?_eq_some_iff.mp found).1
        have exact_block : block = 1 + numFolds := by
          rw [wrapped, Nat.mod_eq_of_lt (by omega)]
        have below : q * (1 + numFolds) ≤ (finals.length - 1) * (1 + numFolds) :=
          Nat.mul_le_mul_right _ (by omega)
        rw [exact_block]
        exact ⟨by omega, covers ch (List.mem_of_getElem? found)⟩

/-- Where the checked fill comes back, the columns by rows are defined too. -/
theorem buildPreproc_of_returns (same : challenges.length = finals.length) (asked : finals ≠ [])
    (bounded : 2 ^ logSize < 2 ^ 64)
    (built : Returns (buildPreprocChecked debug finals challenges numFolds logSize)) :
    buildPreproc finals challenges numFolds logSize =
      .ok (preprocRow finals challenges numFolds) := by
  rcases (returns_buildPreprocChecked_iff same asked bounded).mp built with ⟨fits, covers⟩
  have long : challenges.all
      (fun ch => 1 + numFolds ≤ ch.alphas.length ∧ 1 + numFolds ≤ ch.invs.length) = true := by
    rw [List.all_eq_true]
    intro ch member
    exact decide_eq_true ⟨(covers ch member).alphas, (covers ch member).invs⟩
  unfold buildPreproc
  rw [if_neg (not_not.mpr same.symm), if_neg (Nat.not_lt.mpr fits), if_neg (not_not.mpr long)]

end Fill

end RecursiveVerifier

/-! ## Paths -/

namespace MerklePathT8

namespace Paths

variable (paths : Paths)

/-- `comp_layout`: the sum of the depths, a vector with room for as many entries, and the
entries. -/
def compLayout (debug : Bool) (depths : List ℕ) : Except Panic (List (ℕ × ℕ)) := do
  let total ← usize debug depths.sum
  reserve total
  let entries := layout depths
  reserve entries.length
  return entries

/-- The pins of the first compression of a path. -/
def fillStart (rows first path j : ℕ) : Except Panic (List Write) :=
  if j = 0 then do
    let isFirst ← place rows ((11, first), 1)
    let leaf ← readAt paths.leaves path
    let words ← (quadWrites 13 first leaf).mapM (place rows)
    return isFirst :: words
  else return []

/-- The pins of the last compression of a path, of depth at least one. -/
def fillRoot (rows comp path j : ℕ) : Except Panic (List Write) := do
  let depth ← readAt paths.depths path
  if j = depth - 1 then
    let row := comp * 22 + (22 - 1)
    let isRoot ← place rows ((17, row), 1)
    let root ← readAt paths.roots path
    let words ← (quadWrites 18 row root).mapM (place rows)
    return isRoot :: words
  else return []

/-- Bit `j` of an index. -/
def fillBit (path j : ℕ) : Except Panic ℕ :=
  if j < 32 then do
    let i ← readAt paths.indices path
    return i >>> j &&& 1
  else return 0

/-- Compression `j` of a path. -/
def fillCompression (rows comp path j : ℕ) : Except Panic (List Write) := do
  let rounds ← ((List.range 22).flatMap fun r => roundWrites (comp * 22 + r) r).mapM (place rows)
  let first := comp * 22
  let isFirst ← place rows ((10, first), 1)
  let bit ← paths.fillBit path j
  let idxBit ← place rows ((12, first), m31 bit)
  let start ← paths.fillStart rows first path j
  let root ← paths.fillRoot rows comp path j
  return rounds ++ [isFirst, idxBit] ++ start ++ root

/-- `build_preproc_multi_var` with its panics.  The loop ends at the last compression that
fits or at the end of the layout. -/
def buildPreprocChecked (debug : Bool) (logSize : ℕ) : Except Panic Columns := do
  demand (paths.leaves.length = paths.indices.length)
  demand (paths.leaves.length = paths.roots.length)
  demand (paths.leaves.length = paths.depths.length)
  demand (∀ depth ∈ paths.depths, 1 ≤ depth)
  let entries ← compLayout debug paths.depths
  let rows := 2 ^ logSize
  let blocks ← (entries.take (rows / 22)).zipIdx.mapM fun ((path, j), comp) =>
    paths.fillCompression rows comp path j
  return columnsOf blocks.flatten

section Fill

variable {paths : Paths} {debug : Bool} {logSize rows comp path j : ℕ} {depths : List ℕ}

theorem returns_compLayout_iff : Returns (compLayout debug depths) ↔ 16 * depths.sum < 2 ^ 63 := by
  unfold compLayout
  cases done : usize debug depths.sum with
  | error failure =>
      have wide : ¬ depths.sum < 2 ^ 64 := by
        intro small
        rw [usize_of_lt small] at done
        cases done
      exact iff_of_false (not_returns_error failure) fun fits => wide (by omega)
  | ok total =>
      have wrapped := usize_ok done
      have rest : Returns (do
          reserve total
          let entries := layout depths
          reserve entries.length
          return entries) ↔ 16 * total < 2 ^ 63 ∧ 16 * (layout depths).length < 2 ^ 63 ∧ True :=
        returns_seq returns_reserve_iff fun _ => returns_seq returns_reserve_iff fun _ =>
          returns_return_iff _
      refine (returns_known rfl rest).trans ?_
      rw [layout_length]
      constructor
      · rintro ⟨-, fits, -⟩
        exact fits
      · intro fits
        have small := Nat.mod_le depths.sum (2 ^ 64)
        exact ⟨by omega, fits, trivial⟩

theorem compLayout_ok {entries : List (ℕ × ℕ)} (done : compLayout debug depths = .ok entries) :
    entries = layout depths := by
  rcases bind_eq_ok.mp done with ⟨total, -, rest⟩
  rcases bind_eq_ok.mp rest with ⟨-, -, rest⟩
  rcases bind_eq_ok.mp rest with ⟨-, -, finished⟩
  cases finished
  rfl

theorem returns_fillStart (known : path < paths.leaves.length) (inside : comp * 22 < rows) :
    Returns (paths.fillStart rows (comp * 22) path j) := by
  unfold fillStart
  split
  case isTrue =>
    refine (returns_place_iff.mpr inside).bind fun _ => (returns_readAt_iff.mpr known).bind
      fun leaf => (returns_places_iff.mpr ?_).bind fun _ => returns_ok _
    intro write member
    rw [row_of_quadWrites member]
    exact inside
  case isFalse => exact returns_ok _

theorem returns_fillRoot (known : path < paths.roots.length) (deep : path < paths.depths.length)
    (inside : comp * 22 + (22 - 1) < rows) : Returns (paths.fillRoot rows comp path j) := by
  unfold fillRoot
  refine (returns_readAt_iff.mpr deep).bind fun depth => ?_
  split
  case isTrue =>
    refine (returns_place_iff.mpr inside).bind fun _ => (returns_readAt_iff.mpr known).bind
      fun root => (returns_places_iff.mpr ?_).bind fun _ => returns_ok _
    intro write member
    rw [row_of_quadWrites member]
    exact inside
  case isFalse => exact returns_ok _

theorem returns_fillBit (known : path < paths.indices.length) : Returns (paths.fillBit path j) := by
  unfold fillBit
  split
  case isTrue => exact (returns_readAt_iff.mpr known).bind fun i => returns_ok _
  case isFalse => exact returns_ok _

/-- A compression that fits is filled. -/
theorem returns_fillCompression (lengths : paths.leaves.length = paths.depths.length ∧
      paths.indices.length = paths.depths.length ∧ paths.roots.length = paths.depths.length)
    (known : path < paths.depths.length) (fits : comp < rows / 22) :
    Returns (paths.fillCompression rows comp path j) := by
  have last : comp * 22 + (22 - 1) < rows := by omega
  have first : comp * 22 < rows := by omega
  have rounds : ∀ write ∈ (List.range 22).flatMap (fun r => roundWrites (comp * 22 + r) r),
      write.1.2 < rows := by
    intro write member
    rcases List.mem_flatMap.mp member with ⟨r, small, own⟩
    have early := List.mem_range.mp small
    rw [(roundWrites_cells _ _ write own).2]
    omega
  unfold fillCompression
  exact (returns_places_iff.mpr rounds).bind fun _ =>
    (returns_place_iff.mpr first).bind fun _ =>
      (returns_fillBit (by omega)).bind fun _ =>
        (returns_place_iff.mpr first).bind fun _ =>
          (returns_fillStart (by omega) first).bind fun _ =>
            (returns_fillRoot (by omega) known last).bind fun _ => returns_ok _

/-- Entries of a layout name blocks. -/
theorem block_lt_of_layout {entry : ℕ × ℕ} (member : entry ∈ layout depths) :
    entry.1 < depths.length := by
  rcases List.mem_iff_getElem?.mp member with ⟨i, found⟩
  have inside := (List.getElem?_eq_some_iff.mp found).1
  rw [layout_length] at inside
  rcases place_of_lt inside with ⟨block, size, offset, own, below, rfl⟩
  rw [layout_getElem? own below] at found
  rw [← Option.some.inj found]
  exact (List.getElem?_eq_some_iff.mp own).1

/-- With the lists in step, the fill asks that no depth is zero and that the layout has
room. -/
theorem returns_buildPreprocChecked_iff (lengths : paths.leaves.length = paths.depths.length ∧
      paths.indices.length = paths.depths.length ∧ paths.roots.length = paths.depths.length) :
    Returns (paths.buildPreprocChecked debug logSize) ↔
      (∀ depth ∈ paths.depths, 1 ≤ depth) ∧ 16 * paths.depths.sum < 2 ^ 63 := by
  rcases lengths with ⟨leaves, indices, roots⟩
  unfold buildPreprocChecked
  refine returns_known (demand_of (leaves.trans indices.symm)) <|
    returns_known (demand_of (leaves.trans roots.symm)) <| returns_known (demand_of leaves) <|
      returns_seq returns_demand_iff fun _ => ?_
  cases done : compLayout debug paths.depths with
  | error failure =>
      rw [← @returns_compLayout_iff debug paths.depths, done]
      exact iff_of_false (not_returns_error failure) (not_returns_error failure)
  | ok entries =>
      have room := returns_compLayout_iff.mp ⟨entries, done⟩
      rw [compLayout_ok done]
      refine iff_of_true ((returns_known rfl Iff.rfl).mpr ?_) room
      have filled : ∀ entry ∈ ((layout paths.depths).take (2 ^ logSize / 22)).zipIdx,
          (Returns (paths.fillCompression (2 ^ logSize) entry.2 entry.1.1 entry.1.2) ↔ True) := ?_
      · exact ((returns_mapM_iff filled).mpr fun _ _ => trivial).bind fun blocks => returns_ok _
      rintro ⟨⟨path, j⟩, comp⟩ member
      have taken := List.mk_mem_zipIdx_iff_getElem?.mp member
      have early := (List.getElem?_eq_some_iff.mp taken).1
      have known := block_lt_of_layout (List.mem_of_mem_take (List.mem_of_getElem? taken))
      rw [List.length_take] at early
      exact iff_of_true (returns_fillCompression ⟨leaves, indices, roots⟩ known (by omega)) trivial

end Fill

end Paths

end MerklePathT8

end Recursive
end QLSA
