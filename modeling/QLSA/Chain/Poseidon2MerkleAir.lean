import QLSA.Chain.RoundBlocks
import QLSA.Merkle.LevelPaths
import QLSA.Recursive.CommittedTraces

namespace QLSA
namespace Chain
namespace Poseidon2Merkle

open Mersenne Recursive Stwo

/-!
# The circuit of a Merkle tree

Each block of eight rows compresses two words; the blocks stand bottom-up, from left
to right.  A block takes its words from two columns that no constraint connects to
other blocks.  Blocks that do read the results of their children compute the root of
the words in the bottom blocks, and the prover's blocks do.
-/

def minLogSize : ℕ := 3

/-- Depth of the padded tree. -/
def depth (nLeaves : ℕ) : ℕ := Nat.clog 2 (max nLeaves 2)

/-- The number of leaves padded to the next power of two. -/
def paddedLeafCount (nLeaves : ℕ) : ℕ := 2 ^ depth nLeaves

/-- Inner nodes over this many leaves. -/
def nMerkleNodes (nLeavesPadded : ℕ) : ℕ := nLeavesPadded - 1

/-- Log-size of a trace; the product of no list of leaves leaves `usize`. -/
def computeLogSize (nLeaves : ℕ) : ℕ :=
  let nReal := nMerkleNodes (paddedLeafCount nLeaves) * nRounds
  max (Nat.clog 2 (max nReal (2 ^ minLogSize))) minLogSize

/-- `compress`. -/
def compress (left right : ℕ) : ℕ := (permute (left % P, right % P)).1

/-- Leaf of the padded tree. -/
def paddedLeaf (leaves : List ℕ) (i : ℕ) : ℕ :=
  if i < leaves.length then leaves.getD i 0 % P else 0

/-- All levels from the padded leaves to the root. -/
def buildMerkleTree (leaves : List ℕ) : List (List ℕ) :=
  Merkle.levelsFrom compress
    ((List.range (paddedLeafCount leaves.length)).map (paddedLeaf leaves))

/-- The root for the given leaves. -/
def merkleRoot (leaves : List ℕ) : ℕ :=
  (((buildMerkleTree leaves).getLast?.bind List.head?).getD 0)

/-! ## Roots -/

theorem depth_pos (nLeaves : ℕ) : 1 ≤ depth nLeaves :=
  Nat.clog_pos (by decide) (le_max_right nLeaves 2)

/-- The root is that of a complete tree over the padded leaves. -/
theorem merkleRoot_eq (leaves : List ℕ) :
    merkleRoot leaves =
      Merkle.subtreeRoot compress (paddedLeaf leaves) (depth leaves.length) 0 := by
  have root := Merkle.apex_range compress (paddedLeaf leaves) (depth leaves.length)
  unfold Merkle.apex at root
  rw [merkleRoot, buildMerkleTree, paddedLeafCount, root, Option.getD_some]

/-- The compression is the first word of the permutation of the residues. -/
theorem compress_eq (left right : ℕ) :
    compress left right = (fieldRounds nRounds ((left : M31), (right : M31))).1.val := by
  have first : left % P = (left : M31).val := (ZMod.val_natCast P left).symm
  have second : right % P = (right : M31).val := (ZMod.val_natCast P right).symm
  have permuted := permute_val ((left : M31), (right : M31))
  simp only [pairVal] at permuted
  rw [compress, first, second, permuted]

theorem compress_canonical (left right : ℕ) : Canonical (compress left right) :=
  (compress_eq left right).trans_lt (val_lt_P _)

theorem compress_val (left right : M31) :
    compress left.val right.val = (fieldRounds nRounds (left, right)).1.val := by
  rw [compress_eq, ZMod.natCast_zmod_val, ZMod.natCast_zmod_val]

/-- Leaves that fill a tree need no padding. -/
theorem depth_two_pow {height : ℕ} (positive : 1 ≤ height) : depth (2 ^ height) = height := by
  have wide : 2 ≤ 2 ^ height := Nat.le_self_pow (by omega) 2
  rw [depth, max_eq_left wide, Nat.clog_pow 2 height (by decide)]

theorem computeLogSize_le_iff {nLeaves logSize : ℕ} (large : minLogSize ≤ logSize) :
    computeLogSize nLeaves ≤ logSize ↔ nRounds * (2 ^ depth nLeaves - 1) ≤ 2 ^ logSize := by
  have block : 2 ^ minLogSize ≤ 2 ^ logSize := Nat.pow_le_pow_right (by decide) large
  have real : nRounds * (2 ^ depth nLeaves - 1) =
      nMerkleNodes (paddedLeafCount nLeaves) * nRounds := Nat.mul_comm _ _
  rw [computeLogSize, max_le_iff, Nat.clog_le_iff_le_pow (by decide), max_le_iff, real]
  exact ⟨fun bounds => bounds.1.1, fun fits => ⟨⟨fits, block⟩, large⟩⟩

/-- The blocks of a tree fit its trace. -/
theorem computeLogSize_fits (nLeaves : ℕ) :
    nRounds * (2 ^ depth nLeaves - 1) ≤ 2 ^ computeLogSize nLeaves :=
  (computeLogSize_le_iff (le_max_right _ _)).mp le_rfl

/-- A deeper tree has a larger trace. -/
theorem computeLogSize_lt {nLeaves others : ℕ} (deeper : depth nLeaves < depth others) :
    computeLogSize nLeaves < computeLogSize others := by
  have positive := depth_pos nLeaves
  have blocks : 2 ^ (depth nLeaves + 3) = 8 * 2 ^ depth nLeaves := by
    rw [pow_add, Nat.mul_comm]
    rfl
  have small : computeLogSize nLeaves ≤ depth nLeaves + 3 := by
    rw [computeLogSize_le_iff (Nat.le_add_left 3 (depth nLeaves)), blocks]
    exact Nat.mul_le_mul_left 8 (Nat.sub_le _ _)
  apply lt_of_le_of_lt small
  by_contra bounded
  have fits := computeLogSize_fits others
  have capacity : 2 ^ computeLogSize others ≤ 2 ^ (depth nLeaves + 3) :=
    Nat.pow_le_pow_right (by decide) (Nat.le_of_not_lt bounded)
  have wide : 2 ^ (depth nLeaves + 1) ≤ 2 ^ depth others :=
    Nat.pow_le_pow_right (by decide) deeper
  have two : 2 ≤ 2 ^ depth nLeaves := Nat.le_self_pow (by omega) 2
  rw [pow_succ] at wide
  simp only [nRounds] at fits
  omega

/-- The size of a trace tells the depth of its tree. -/
theorem depth_eq_of_size {nLeaves others : ℕ}
    (same : computeLogSize nLeaves = computeLogSize others) : depth nLeaves = depth others := by
  rcases Nat.lt_trichotomy (depth nLeaves) (depth others) with deeper | equal | higher
  · exact absurd same (computeLogSize_lt deeper).ne
  · exact equal
  · exact absurd same (computeLogSize_lt higher).ne'

/-! ## The circuit -/

/-- Main columns of one row, with the state words of the previous row. -/
structure MainRow (F : Type*) extends RoundRow F where
  s0Prev : F
  s1Prev : F
  left : F
  right : F

/-- Preprocessed columns of one row. -/
structure PreprocRow (F : Type*) where
  rc0 : F
  rc1 : F
  isInit : F

/-- `Poseidon2MerkleEval::evaluate`. -/
def evaluate {F : Type*} [CommRing F] (pre : PreprocRow F) (row : MainRow F) : List F :=
  let notInit := 1 - pre.isInit
  let inp0Expected := pre.isInit * row.left + notInit * row.s0Prev
  let inp1Expected := pre.isInit * row.right + notInit * row.s1Prev
  [row.inp0 - inp0Expected, row.inp1 - inp1Expected] ++
    roundCore pre.rc0 pre.rc1 row.toRoundRow

/-- The columns of a round. -/
def roundRow (main : Columns) (row : ℕ) : RoundRow M31 :=
  ⟨main 0 row, main 1 row, main 2 row, main 3 row, main 4 row, main 6 row⟩

/-- Row of the main trace; columns in the order of the source. -/
def mainRow (logSize : ℕ) (main : Columns) (row : ℕ) : MainRow M31 where
  toRoundRow := roundRow main row
  s0Prev := main 0 (previousRow logSize row)
  s1Prev := main 1 (previousRow logSize row)
  left := main 5 row
  right := main 7 row

/-- Row of the preprocessed trace. -/
def preprocRow (pre : Columns) (row : ℕ) : PreprocRow M31 := ⟨pre 0 row, pre 1 row, pre 2 row⟩

/-- The preprocessed columns of `build_trace`. -/
def buildPreprocessed : Columns := fun column row =>
  match column with
  | 0 => m31 (roundConstants (row % nRounds)).1
  | 1 => m31 (roundConstants (row % nRounds)).2
  | 2 => if row % nRounds = 0 then 1 else 0
  | _ => 0

/-- Every constraint holds on every row. -/
def Satisfies (logSize : ℕ) (pre main : Columns) : Prop :=
  ∀ row < 2 ^ logSize, Vanish (evaluate (preprocRow pre row) (mainRow logSize main row))

instance (logSize : ℕ) (pre main : Columns) : Decidable (Satisfies logSize pre main) :=
  inferInstanceAs (Decidable (∀ row < 2 ^ logSize, _))

theorem readsRows : ReadsRows 3 8 Satisfies := by
  intro logSize pre otherPre main otherMain samePre sameMain satisfies row inside
  have before : previousRow logSize row < 2 ^ logSize := Nat.mod_lt _ (Nat.two_pow_pos _)
  have preproc : preprocRow pre row = preprocRow otherPre row := by
    simp [preprocRow, samePre _ _ row inside]
  have cells : mainRow logSize main row = mainRow logSize otherMain row := by
    simp [mainRow, roundRow, sameMain _ _ row inside, sameMain _ _ _ before]
  rw [← preproc, ← cells]
  exact satisfies row inside

/-- On the columns of the source a row runs one round, on the two words given to its
block or on the result of the row before. -/
theorem vanish_evaluate {logSize row : ℕ} {main : Columns} :
    Vanish (evaluate (preprocRow buildPreprocessed row) (mainRow logSize main row)) ↔
      Vanish (roundCore (m31 (roundConstants (row % nRounds)).1)
        (m31 (roundConstants (row % nRounds)).2) (roundRow main row)) ∧
      (roundRow main row).inp =
        if row % nRounds = 0 then (main 5 row, main 7 row)
        else (roundRow main (previousRow logSize row)).out := by
  have columns : evaluate (preprocRow buildPreprocessed row) (mainRow logSize main row) =
      [(roundRow main row).inp.1 - ((if row % nRounds = 0 then 1 else 0) * main 5 row +
          (1 - if row % nRounds = 0 then 1 else 0) * main 0 (previousRow logSize row)),
        (roundRow main row).inp.2 - ((if row % nRounds = 0 then 1 else 0) * main 7 row +
          (1 - if row % nRounds = 0 then 1 else 0) * main 1 (previousRow logSize row))] ++
      roundCore (m31 (roundConstants (row % nRounds)).1) (m31 (roundConstants (row % nRounds)).2)
        (roundRow main row) := rfl
  rw [columns, vanish_append, and_comm]
  apply and_congr_right
  intro _
  by_cases first : row % nRounds = 0
  · simp [first, sub_eq_zero, Prod.ext_iff]
  · simp [first, sub_eq_zero, Prod.ext_iff, RoundRow.out, roundRow]

/-! ## Blocks that read their children -/

/-- The words given to the bottom blocks, left and right. -/
def bottomLeaves (main : Columns) (height : ℕ) : List ℕ :=
  (List.range (2 ^ height)).map fun q =>
    (main (if q % 2 = 0 then 5 else 7) (nRounds * (q / 2))).val

/-- The words of a trace in one sequence: those given to the bottom blocks, then the
results of all blocks. -/
def entry (main : Columns) (height q : ℕ) : ℕ :=
  if q < 2 ^ height then (main (if q % 2 = 0 then 5 else 7) (nRounds * (q / 2))).val
  else (main 0 (nRounds * (q - 2 ^ height) + 7)).val

/-- Every block above the bottom reads the results of its children. -/
def Linked (main : Columns) (height : ℕ) : Prop :=
  ∀ b < 2 ^ height - 1, 2 ^ height ≤ 2 * b →
    main 5 (nRounds * b) = main 0 (nRounds * (2 * b - 2 ^ height) + 7) ∧
      main 7 (nRounds * b) = main 0 (nRounds * (2 * b + 1 - 2 ^ height) + 7)

/-- Linked blocks read the sequence two words at a time. -/
theorem Linked.entries {main : Columns} {height b : ℕ} (linked : Linked main height)
    (positive : 1 ≤ height) (inside : b < 2 ^ height - 1) :
    entry main height (2 * b) = (main 5 (nRounds * b)).val ∧
      entry main height (2 * b + 1) = (main 7 (nRounds * b)).val := by
  have even : 2 * b % 2 = 0 := Nat.mul_mod_right 2 b
  have odd : ¬ (2 * b + 1) % 2 = 0 := by omega
  have half : 2 * b / 2 = b := by omega
  have half' : (2 * b + 1) / 2 = b := by omega
  have width : 2 ^ height = 2 * 2 ^ (height - 1) := by
    rw [← pow_succ']
    congr 1
    omega
  by_cases bottom : 2 * b < 2 ^ height
  · have next : 2 * b + 1 < 2 ^ height := by omega
    rw [entry, entry, if_pos bottom, if_pos next, if_pos even, if_neg odd, half, half']
    exact ⟨rfl, rfl⟩
  · have next : ¬ 2 * b + 1 < 2 ^ height := by omega
    rcases linked b inside (Nat.le_of_not_lt bottom) with ⟨left, right⟩
    rw [entry, entry, if_neg bottom, if_neg next, left, right]
    exact ⟨rfl, rfl⟩

/-- The padded tree over the words of the bottom blocks has their height. -/
theorem merkleRoot_bottomLeaves (main : Columns) {height : ℕ} (positive : 1 ≤ height) :
    merkleRoot (bottomLeaves main height) =
      Merkle.subtreeRoot compress (entry main height) height 0 := by
  have count : (bottomLeaves main height).length = 2 ^ height := by simp [bottomLeaves]
  rw [merkleRoot_eq, count, depth_two_pow positive]
  apply Merkle.subtreeRoot_congr
  intro q leaf
  have inside : q < 2 ^ height := (Nat.div_eq_zero_iff_lt (Nat.two_pow_pos height)).mp leaf
  have word := val_lt_P (main (if q % 2 = 0 then 5 else 7) (nRounds * (q / 2)))
  rw [paddedLeaf, count, if_pos inside, entry, if_pos inside, List.getD_eq_getElem?_getD,
    bottomLeaves, List.getElem?_map, List.getElem?_range inside]
  exact Nat.mod_eq_of_lt word

section Run

variable {logSize : ℕ} {main : Columns} (satisfies : Satisfies logSize buildPreprocessed main)
include satisfies

theorem runs_of_satisfies : Runs logSize (roundRow main) where
  round := fun row inside => out_of_roundCore (vanish_evaluate.mp (satisfies row inside)).1
  carry := by
    intro row inside within
    rw [(vanish_evaluate.mp (satisfies _ inside)).2, if_neg within, previousRow_succ inside]

/-- A block compresses the two words it is given. -/
theorem block_result {b : ℕ} (inside : nRounds * (b + 1) ≤ 2 ^ logSize) :
    (main 0 (nRounds * b + 7)).val =
      compress (main 5 (nRounds * b)).val (main 7 (nRounds * b)).val := by
  have first : nRounds * b < 2 ^ logSize := by
    simp only [nRounds] at inside ⊢
    omega
  have input := (vanish_evaluate.mp (satisfies _ first)).2
  have out := (runs_of_satisfies satisfies).block b inside
  rw [if_pos (Nat.mul_mod_right nRounds b)] at input
  rw [input] at out
  rw [compress_val, ← out]
  rfl

/-- Linked blocks end in the root of the words given to the bottom blocks. -/
theorem root_of_linked {height : ℕ} (positive : 1 ≤ height)
    (fits : nRounds * (2 ^ height - 1) ≤ 2 ^ logSize) (linked : Linked main height) :
    (main 0 (nRounds * (2 ^ height - 1) - 1)).val = merkleRoot (bottomLeaves main height) := by
  have wide : 2 ≤ 2 ^ height := Nat.le_self_pow (by omega) 2
  have double : 2 ^ (height + 1) = 2 * 2 ^ height := pow_succ' 2 height
  have top := Merkle.sequence_root compress (entry main height) height (by
    intro b below
    have block : nRounds * (b + 1) ≤ 2 ^ logSize := by
      simp only [nRounds] at fits ⊢
      omega
    have later : ¬ 2 ^ height + b < 2 ^ height := by omega
    rcases linked.entries positive below with ⟨left, right⟩
    rw [left, right, ← block_result satisfies block, entry, if_neg later, Nat.add_sub_cancel_left])
  have last : ¬ 2 ^ (height + 1) - 2 < 2 ^ height := by omega
  have row : nRounds * (2 ^ (height + 1) - 2 - 2 ^ height) + 7 =
      nRounds * (2 ^ height - 1) - 1 := by
    simp only [nRounds]
    omega
  rw [entry, if_neg last, row] at top
  rw [merkleRoot_bottomLeaves main positive, top]

end Run

/-! ## The prover's trace -/

/-- Words given to the blocks: two neighbours of a level at a time, and zeros for the
blocks beyond the tree. -/
def blockInputs (leaves : List ℕ) (b : ℕ) : ℕ × ℕ :=
  ((buildMerkleTree leaves).dropLast.flatMap Merkle.pairsOf).getD b (0, 0)

/-- Main columns of `build_trace`. -/
def mainColumns (leaves : List ℕ) : Columns := fun column row =>
  let cells := honestRow (blockInputs leaves) row
  match column with
  | 0 => cells.s0
  | 1 => cells.s1
  | 2 => cells.t0
  | 3 => cells.t1
  | 4 => cells.inp0
  | 5 => if row % nRounds = 0 then m31 (blockInputs leaves (row / nRounds)).1 else 0
  | 6 => cells.inp1
  | 7 => if row % nRounds = 0 then m31 (blockInputs leaves (row / nRounds)).2 else 0
  | _ => 0

/-- `build_trace`: main and preprocessed columns and the root. -/
def buildTrace (leaves : List ℕ) : Except String (Columns × Columns × M31) :=
  if leaves = [] then .error "leaves must not be empty"
  else
    let nReal := nMerkleNodes (paddedLeafCount leaves.length) * nRounds
    .ok (mainColumns leaves, buildPreprocessed, mainColumns leaves 0 (nReal - 1))

theorem paddedLeaf_canonical (leaves : List ℕ) (i : ℕ) : Canonical (paddedLeaf leaves i) := by
  rw [paddedLeaf]
  split
  case isTrue => exact Nat.mod_lt _ (by decide)
  case isFalse => exact (by decide : 0 < P)

/-- The inputs of the inner nodes are words of the field. -/
theorem blockInputs_reduced (leaves : List ℕ) (b : ℕ) : Reduced (blockInputs leaves b) := by
  have positive : 0 < paddedLeafCount leaves.length := Nat.two_pow_pos _
  have nonempty : (List.range (paddedLeafCount leaves.length)).map (paddedLeaf leaves) ≠ [] := by
    apply List.ne_nil_of_length_pos
    rwa [List.length_map, List.length_range]
  have canonical := Merkle.nodeInputs_forall compress
    (fun left right _ _ => compress_canonical left right) nonempty (p := Canonical) (by
      intro node member
      rcases List.mem_map.mp member with ⟨i, -, rfl⟩
      exact paddedLeaf_canonical leaves i)
  rw [blockInputs, List.getD_eq_getElem?_getD]
  cases found : ((buildMerkleTree leaves).dropLast.flatMap Merkle.pairsOf)[b]? with
  | none => exact reduced_zero
  | some input =>
      rcases canonical input (List.mem_of_getElem? found) with ⟨left, right⟩
      rw [Option.getD_some, Reduced, residuePair, pairVal]
      exact Prod.ext (ZMod.val_cast_of_lt left) (ZMod.val_cast_of_lt right)

/-- The prover's trace satisfies the circuit. -/
theorem mainColumns_satisfies (leaves : List ℕ) (logSize : ℕ) :
    Satisfies logSize buildPreprocessed (mainColumns leaves) := by
  intro row inside
  have reduced := fun row => blockInputs_reduced leaves (row / nRounds)
  apply vanish_evaluate.mpr
  refine ⟨(honestRow_round (reduced row)).2, ?_⟩
  split
  case isTrue first =>
    have input := honestRow_inp_first (reduced row) first
    refine Eq.trans input ?_
    simp only [mainColumns, first, if_true, m31_eq_cast, residuePair]
  case isFalse within =>
    cases row with
    | zero => exact absurd (Nat.zero_mod nRounds) within
    | succ row =>
        rw [previousRow_succ inside]
        exact (honestRow_runs fun row _ => reduced row).carry row inside within

/-- The cell of a result holds the compression of the words given to its block. -/
theorem mainColumns_result (leaves : List ℕ) (b : ℕ) :
    (mainColumns leaves 0 (nRounds * b + 7)).val =
      compress (blockInputs leaves b).1 (blockInputs leaves b).2 := by
  have place : (nRounds * b + 7) / nRounds = b := by
    simp only [nRounds]
    omega
  have digit : (nRounds * b + 7) % nRounds = 7 := by
    simp only [nRounds]
    omega
  have reduced := blockInputs_reduced leaves ((nRounds * b + 7) / nRounds)
  have cell := congrArg Prod.fst (honestRow_out reduced)
  have all : 7 + 1 = nRounds := rfl
  rw [place, digit, all] at cell
  have s0 : mainColumns leaves 0 (nRounds * b + 7) =
      (honestRow (blockInputs leaves) (nRounds * b + 7)).out.1 := rfl
  rw [s0, cell, compress_eq, residuePair]

/-- Every block of the tree has an input. -/
theorem blockInputs_getElem? (leaves : List ℕ) {b : ℕ}
    (inside : b < 2 ^ depth leaves.length - 1) :
    (Merkle.nodeInputs compress
      ((List.range (paddedLeafCount leaves.length)).map (paddedLeaf leaves)))[b]? =
        some (blockInputs leaves b) := by
  have count : ((List.range (paddedLeafCount leaves.length)).map (paddedLeaf leaves)).length =
      2 ^ depth leaves.length := by
    rw [List.length_map, List.length_range, paddedLeafCount]
  have listed : b < (Merkle.nodeInputs compress
      ((List.range (paddedLeafCount leaves.length)).map (paddedLeaf leaves))).length := by
    rw [(Merkle.nodeInputs_spec compress count).1]
    exact inside
  rw [blockInputs, buildMerkleTree, ← Merkle.nodeInputs, List.getD_eq_getElem?_getD,
    List.getElem?_eq_getElem listed, Option.getD_some]

/-- The leaves of the padded tree and then the results of its blocks. -/
def nodeSequence (leaves : List ℕ) : List ℕ :=
  let padded := (List.range (paddedLeafCount leaves.length)).map (paddedLeaf leaves)
  padded ++ (Merkle.nodeInputs compress padded).map fun input => compress input.1 input.2

/-- Beyond the leaves the sequence holds the results of the blocks. -/
theorem nodeSequence_result (leaves : List ℕ) {b : ℕ} (inside : b < 2 ^ depth leaves.length - 1) :
    (nodeSequence leaves)[2 ^ depth leaves.length + b]? =
      some (compress (blockInputs leaves b).1 (blockInputs leaves b).2) := by
  have count : ((List.range (paddedLeafCount leaves.length)).map (paddedLeaf leaves)).length =
      2 ^ depth leaves.length := by
    rw [List.length_map, List.length_range, paddedLeafCount]
  rw [nodeSequence, List.getElem?_append_right (by rw [count]; exact Nat.le_add_right _ b), count,
    Nat.add_sub_cancel_left, List.getElem?_map, blockInputs_getElem? leaves inside]
  rfl

/-- The blocks of the prover are given the sequence two words at a time. -/
theorem blockInputs_sequence (leaves : List ℕ) {b : ℕ}
    (inside : b < 2 ^ depth leaves.length - 1) :
    (nodeSequence leaves)[2 * b]? = some (blockInputs leaves b).1 ∧
      (nodeSequence leaves)[2 * b + 1]? = some (blockInputs leaves b).2 := by
  have count : ((List.range (paddedLeafCount leaves.length)).map (paddedLeaf leaves)).length =
      2 ^ depth leaves.length := by
    rw [List.length_map, List.length_range, paddedLeafCount]
  have pairs := congrArg (fun inputs => inputs[b]?) (Merkle.pairsOf_nodes compress count)
  simp only [Merkle.pairsOf_getElem?, blockInputs_getElem? leaves inside] at pairs
  rcases Option.bind_eq_some_iff.mp pairs with ⟨left, first, paired⟩
  rcases Option.map_eq_some_iff.mp paired with ⟨right, second, input⟩
  rw [← input]
  exact ⟨first, second⟩

/-- The prover's blocks are linked. -/
theorem mainColumns_linked (leaves : List ℕ) :
    Linked (mainColumns leaves) (depth leaves.length) := by
  intro b inside above
  have cell : ∀ q, 2 ^ depth leaves.length ≤ q → q < 2 * (2 ^ depth leaves.length - 1) →
      ∀ word, (nodeSequence leaves)[q]? = some word →
        m31 word = mainColumns leaves 0 (nRounds * (q - 2 ^ depth leaves.length) + 7) := by
    intro q past before word found
    have within : q - 2 ^ depth leaves.length < 2 ^ depth leaves.length - 1 := by omega
    have result := nodeSequence_result leaves within
    rw [Nat.add_sub_cancel' past, found, Option.some.injEq] at result
    rw [result, ← mainColumns_result, m31_eq_cast, ZMod.natCast_zmod_val]
  rcases blockInputs_sequence leaves inside with ⟨left, right⟩
  have place : nRounds * b / nRounds = b := Nat.mul_div_cancel_left b (by decide)
  simp only [mainColumns, Nat.mul_mod_right, if_true, place]
  exact ⟨cell _ above (by omega) _ left, cell _ (by omega) (by omega) _ right⟩

/-- The last block of the prover compresses the children of the root. -/
theorem blockInputs_last (leaves : List ℕ) :
    ∃ left right, blockInputs leaves (2 ^ depth leaves.length - 2) = (left, right) ∧
      merkleRoot leaves = compress left right := by
  have count : ((List.range (paddedLeafCount leaves.length)).map (paddedLeaf leaves)).length =
      2 ^ depth leaves.length := by
    rw [List.length_map, List.length_range, paddedLeafCount]
  rcases Merkle.nodeInputs_spec compress count with ⟨blocks, last⟩
  rcases last (depth_pos leaves.length) with ⟨left, right, last, top⟩
  rw [List.getLast?_eq_getElem?, blocks] at last
  unfold Merkle.nodeInputs at last
  unfold Merkle.apex at top
  refine ⟨left, right, ?_, ?_⟩
  · rw [blockInputs, buildMerkleTree, List.getD_eq_getElem?_getD]
    have same : 2 ^ depth leaves.length - 2 = 2 ^ depth leaves.length - 1 - 1 := by omega
    rw [same, last, Option.getD_some]
  · rw [merkleRoot, buildMerkleTree, top, Option.getD_some]

/-- The trace of the prover ends in the root of its leaves. -/
theorem mainColumns_root (leaves : List ℕ) :
    (mainColumns leaves 0 (nMerkleNodes (paddedLeafCount leaves.length) * nRounds - 1)).val =
      merkleRoot leaves := by
  have positive := depth_pos leaves.length
  have wide : 2 ≤ 2 ^ depth leaves.length := Nat.le_self_pow (by omega) 2
  have row : nMerkleNodes (paddedLeafCount leaves.length) * nRounds - 1 =
      nRounds * (2 ^ depth leaves.length - 2) + 7 := by
    simp only [nMerkleNodes, paddedLeafCount, nRounds]
    omega
  rcases blockInputs_last leaves with ⟨left, right, input, root⟩
  rw [row, mainColumns_result, input, root]

end Poseidon2Merkle
end Chain
end QLSA
