import QLSA.Hash.Rounds
import QLSA.Recursive.MerklePathT8Air
import QLSA.Stwo.Poseidon2T16

namespace QLSA
namespace Recursive
namespace MerklePathT16

open Hash Mersenne Machine Matrix
open Stwo (constantT16 roundConstantT16)

/-!
# Merkle paths over nodes of eight words

The circuit at width sixteen lays paths of one depth end to end and finds path
and step of a compression by division.  Every row constrains one round, so its
constraints are restated once as equations over the layers of the permutation.
The rows of a compression then list the permutation of its operands, and the
compressions of a path climb from the pinned leaf to the pinned root.
-/

def minLogSize : ℕ := 5

def maxLogSize : ℕ := 24

/-- Largest depth of a path. -/
def maxDepth : ℕ := 28

/-! ## Nodes -/

section Nodes

variable {α β : Type*}

/-- The node that a state is truncated to. -/
def leftNode (s : Fin 16 → α) : Fin 8 → α := fun k => s (k.castLE Machine.eight_le_sixteen)

theorem right_lt {i : Fin 16} (right : ¬ i.val < 8) : i.val - 8 < 8 := by omega

/-- Two nodes side by side. -/
def joinNodes (left right : Fin 8 → α) : Fin 16 → α := fun i =>
  if h : i.val < 8 then left ⟨i, h⟩ else right ⟨i - 8, right_lt h⟩

/-- The residues of a node. -/
def residues (node : Fin 8 → ℕ) : Fin 8 → M31 := fun k => (node k : M31)

def words (node : Fin 8 → M31) : Fin 8 → ℕ := fun k => (node k).val

def norm8 (v : Fin 8 → ℕ) : Fin 8 → ℕ := fun k => v k % P

/-- The root reached from a leaf; every node is reduced first. -/
def merklePathRootT16 (leaf : Fin 8 → ℕ) (sibs : List (Fin 8 → ℕ)) (bits : List Bool) :
    Fin 8 → ℕ :=
  Merkle.pathRoot Stwo.compressT16 (norm8 leaf) (sibs.map norm8) bits

/-- The compression over the field. -/
def compress (left right : Fin 8 → M31) : Fin 8 → M31 :=
  leftNode (poseidon2 constantT16 (joinNodes left right))

theorem residues_words (node : Fin 8 → M31) : residues (words node) = node := by
  funext k
  exact ZMod.natCast_zmod_val (node k)

theorem words_residues (node : Fin 8 → ℕ) : words (residues node) = norm8 node := by
  funext k
  exact ZMod.val_natCast P (node k)

theorem residues_norm8 (node : Fin 8 → ℕ) : residues (norm8 node) = residues node := by
  rw [← words_residues, residues_words]

theorem joinCells_words (left right : Fin 8 → M31) :
    Stwo.joinCells (words left) (words right) = Stwo.lift (joinNodes left right) := by
  apply Stwo.lift_eq
  intro i
  rw [Stwo.joinCells, Cells.get_of, joinNodes]
  split <;> rfl

theorem compressT16_words (left right : Fin 8 → M31) :
    Stwo.compressT16 (words left) (words right) = words (compress left right) := by
  funext k
  rw [Stwo.compressT16, joinCells_words, Stwo.permuteT16_lift, Stwo.lift_get]
  rfl

/-- A path of words climbs as the path of their residues. -/
theorem merklePathRootT16_eq_words (leaf : Fin 8 → ℕ) (sibs : List (Fin 8 → ℕ))
    (bits : List Bool) :
    merklePathRootT16 leaf sibs bits =
      words (Merkle.pathRoot compress (residues leaf) (sibs.map residues) bits) := by
  unfold merklePathRootT16
  rw [← words_residues]
  generalize residues leaf = cur
  induction sibs generalizing cur bits with
  | nil => simp
  | cons sib sibs ih =>
      cases bits with
      | nil => rfl
      | cons bit bits =>
          rw [List.map_cons, List.map_cons, Merkle.pathRoot_cons, Merkle.pathRoot_cons, ← ih,
            ← words_residues sib, compressT16_words, compressT16_words]
          cases bit <;> rfl

end Nodes

/-! ## Layers as expressions -/

section Expressions

variable {F : Type*} [CommRing F]

/-- External linear layer as an expression. -/
def matExternal16Expr (a : Fin 16 → F) : Fin 16 → F :=
  let v := fun b : Fin 4 => m4Expr (block a b)
  fun i =>
    let sigma := (v 0).cell (columnOf i) + (v 1).cell (columnOf i) + (v 2).cell (columnOf i) +
      (v 3).cell (columnOf i)
    (v (blockOf i)).cell (columnOf i) + sigma

/-- Internal linear layer as an expression. -/
def matInternal16Expr (a : Fin 16 → F) : Fin 16 → F :=
  let sum := (List.finRange 16).tail.foldl (fun sum j => sum + a j) (a 0)
  fun i => sum + a i * (i.val + 1)

theorem matExternal16Expr_eq (a : Fin 16 → F) :
    matExternal16Expr a = externalMatrix 16 *ᵥ a := by
  rw [externalMatrix_mulVec]
  funext i
  simp only [matExternal16Expr, externalBlocks, m4Expr_eq, Fin.sum_univ_four]

theorem matInternal16Expr_eq (a : Fin 16 → F) :
    matInternal16Expr a = internalMatrix 16 *ᵥ a := by
  have total : (List.finRange 16).tail.foldl (fun sum j => sum + a j) (a 0) = ∑ j, a j := by
    rw [Fin.sum_univ_def, List.sum_eq_foldl, List.foldl_map]
    have split : List.finRange 16 = 0 :: (List.finRange 16).tail := rfl
    conv_rhs => rw [split]
    rw [List.foldl_cons, zero_add]
  rw [internalMatrix_mulVec]
  funext i
  simp only [matInternal16Expr, internalCells]
  rw [total, mul_comm (a i)]

end Expressions

/-- Round of a row: whether it is external, and its constants. -/
def roundSchedule (row : ℕ) : Bool × (Fin 16 → ℕ) :=
  if row < 4 then (true, fun i => roundConstantT16 (16 * row + i.val))
  else if row < 4 + 14 then
    (false, Function.update (fun _ => 0) 0 (roundConstantT16 (16 * 8 + (row - 4))))
  else (true, fun i => roundConstantT16 (16 * (4 + (row - 4 - 14)) + i.val))

/-- The constants of a round in the field. -/
def scheduled (r : ℕ) : Fin 16 → M31 := fun i => ((roundSchedule r).2 i : M31)

/-- Under the selectors of a round the output expression is that round. -/
theorem round_expression (r : ℕ) (inp : Fin 16 → M31) :
    (fun i => (if (roundSchedule r).1 then 1 else 0) *
        (externalMatrix 16 *ᵥ fun i => (inp i + scheduled r i) ^ 5) i +
      (if (roundSchedule r).1 then 0 else 1) *
        (internalMatrix 16 *ᵥ Function.update inp 0 ((inp 0 + scheduled r 0) ^ 5)) i) =
      step constantT16 r inp := by
  funext i
  unfold scheduled roundSchedule step
  split
  case isTrue => simp [externalStep, constantT16]
  case isFalse =>
    split
    case isTrue => simp [internalStep, constantT16]
    case isFalse =>
      have position : 4 + (r - 4 - 14) = r - 14 := by omega
      rw [position]
      simp [externalStep, constantT16]

/-! ## The circuit -/

/-- Main columns of one row. -/
structure MainRow where
  inp : Fin 16 → M31
  sq : Fin 16 → M31
  sbox : Fin 16 → M31
  out : Fin 16 → M31
  cur : Fin 8 → M31
  sib : Fin 8 → M31
  bit : M31
  leaf : Fin 8 → M31

/-- Preprocessed columns of one row. -/
structure PreprocRow where
  rc : Fin 16 → M31
  isExt : M31
  isInt : M31
  isFirstComp : M31
  isFirstPath : M31
  idxBit : M31
  leaf : Fin 8 → M31
  isRoot : M31
  root : Fin 8 → M31

/-- A row without selectors. -/
def PreprocRow.padding : PreprocRow :=
  ⟨fun _ => 0, 0, 0, 0, 0, 0, fun _ => 0, 0, fun _ => 0⟩

/-- Differences of two vectors, cell by cell. -/
def differences {n : ℕ} (first second : Fin n → M31) : List M31 :=
  List.ofFn fun i => first i - second i

/-- Differences under a selector. -/
def gated {n : ℕ} (gate : M31) (first second : Fin n → M31) : List M31 :=
  List.ofFn fun i => gate * (first i - second i)

theorem vanish_differences {n : ℕ} {first second : Fin n → M31} :
    Vanish (differences first second) ↔ first = second := by
  simp only [Vanish, differences, List.forall_mem_ofFn_iff, sub_eq_zero, funext_iff]

theorem vanish_gated {n : ℕ} {gate : M31} {first second : Fin n → M31} :
    Vanish (gated gate first second) ↔ ∀ i, gate * (first i - second i) = 0 := by
  simp only [Vanish, gated, List.forall_mem_ofFn_iff]

/-- Children of the next node: the sibling goes left when the bit is one. -/
def childSelect (bit : M31) (sib cur : Fin 8 → M31) : Fin 16 → M31 :=
  joinNodes (fun k => bit * sib k + (1 - bit) * cur k)
    fun k => bit * cur k + (1 - bit) * sib k

/-- All constraints of a row: the S-boxes and the two kinds of rounds on every row; on the first row
of a compression the running node, the direction bit against the pinned one, and the children in
their order; on the first row of a path the pinned leaf, on its last the pinned root. -/
def evaluate (main previous : MainRow) (preproc : PreprocRow) : List M31 :=
  let y := fun i => main.inp i + preproc.rc i
  let me := matExternal16Expr main.sbox
  let mi := matInternal16Expr fun i => if i = 0 then main.sbox 0 else main.inp i
  let curExpected := fun k => preproc.isFirstPath * main.leaf k +
    (1 - preproc.isFirstPath) * leftNode previous.out k
  let meRaw := matExternal16Expr (childSelect main.bit main.sib main.cur)
  differences main.sq (fun i => y i * y i) ++
  differences main.sbox (fun i => main.sq i * main.sq i * y i) ++
  differences main.out (fun i => preproc.isExt * me i + preproc.isInt * mi i) ++
  gated preproc.isFirstComp main.cur curExpected ++
  [preproc.isFirstComp * (main.bit * main.bit - main.bit),
    preproc.isFirstComp * (main.bit - preproc.idxBit)] ++
  gated preproc.isFirstPath main.leaf preproc.leaf ++
  differences main.inp (fun i => preproc.isFirstComp * meRaw i +
    (1 - preproc.isFirstComp) * previous.out i) ++
  gated preproc.isRoot (leftNode main.out) preproc.root

/-- The constraints of a row as equations over the layers. -/
structure RowHolds (main previous : MainRow) (preproc : PreprocRow) : Prop where
  squares : main.sq = fun i => (main.inp i + preproc.rc i) * (main.inp i + preproc.rc i)
  powers : main.sbox = fun i => (main.inp i + preproc.rc i) ^ 5
  output : main.out = fun i => preproc.isExt * (externalMatrix 16 *ᵥ main.sbox) i +
    preproc.isInt * (internalMatrix 16 *ᵥ Function.update main.inp 0 (main.sbox 0)) i
  node : ∀ k, preproc.isFirstComp * (main.cur k - (preproc.isFirstPath * main.leaf k +
    (1 - preproc.isFirstPath) * leftNode previous.out k)) = 0
  boolean : preproc.isFirstComp * (main.bit * main.bit - main.bit) = 0
  digit : preproc.isFirstComp * (main.bit - preproc.idxBit) = 0
  leaf : ∀ k, preproc.isFirstPath * (main.leaf k - preproc.leaf k) = 0
  input : main.inp = fun i => preproc.isFirstComp *
      (externalMatrix 16 *ᵥ childSelect main.bit main.sib main.cur) i +
    (1 - preproc.isFirstComp) * previous.out i
  root : ∀ k, preproc.isRoot * (leftNode main.out k - preproc.root k) = 0

theorem vanish_evaluate {main previous : MainRow} {preproc : PreprocRow} :
    Vanish (evaluate main previous preproc) ↔ RowHolds main previous preproc := by
  have update : (fun i => if i = 0 then main.sbox 0 else main.inp i) =
      Function.update main.inp 0 (main.sbox 0) := by
    funext i
    rw [Function.update_apply]
  simp only [evaluate, vanish_append, vanish_cons, vanish_nil, vanish_differences, vanish_gated,
    matExternal16Expr_eq, matInternal16Expr_eq, update, and_true]
  constructor
  · rintro ⟨⟨⟨⟨⟨⟨⟨squares, powers⟩, output⟩, node⟩, boolean, digit⟩, leaf⟩, input⟩, root⟩
    refine ⟨squares, ?_, output, node, boolean, digit, leaf, input, root⟩
    rw [powers, squares]
    funext i
    ring
  · intro holds
    refine ⟨⟨⟨⟨⟨⟨⟨holds.squares, ?_⟩, holds.output⟩, holds.node⟩, holds.boolean, holds.digit⟩,
      holds.leaf⟩, holds.input⟩, holds.root⟩
    rw [holds.powers, holds.squares]
    funext i
    ring

/-- The main columns satisfy every constraint on every row. -/
def Satisfies (main : ℕ → MainRow) (preproc : ℕ → PreprocRow) (logSize : ℕ) : Prop :=
  ∀ row < 2 ^ logSize, Vanish (evaluate (main row) (main (previousRow logSize row)) (preproc row))

/-! ## Preprocessed columns -/

/-- Leaves, indices and roots of paths of one depth. -/
structure Paths where
  leaves : List (Fin 8 → ℕ)
  indices : List ℕ
  roots : List (Fin 8 → ℕ)
  depth : ℕ

namespace Paths

variable (paths : Paths)

def leaf (path : ℕ) : Fin 8 → ℕ := paths.leaves.getD path fun _ => 0

def index (path : ℕ) : ℕ := paths.indices.getD path 0

def root (path : ℕ) : Fin 8 → ℕ := paths.roots.getD path fun _ => 0

/-- Round `r` of compression `j` of a path. -/
def compressionRow (path j r : ℕ) : PreprocRow where
  rc := fun i => m31 ((roundSchedule r).2 i)
  isExt := if (roundSchedule r).1 then 1 else 0
  isInt := if (roundSchedule r).1 then 0 else 1
  isFirstComp := if r = 0 then 1 else 0
  isFirstPath := if r = 0 ∧ j = 0 then 1 else 0
  idxBit :=
    if r = 0 then m31 (if j < 32 then paths.index path >>> j &&& 1 else 0) else 0
  leaf := fun k => if r = 0 ∧ j = 0 then m31 (paths.leaf path k) else 0
  isRoot := if j = paths.depth - 1 ∧ r = 22 - 1 then 1 else 0
  root := fun k => if j = paths.depth - 1 ∧ r = 22 - 1 then m31 (paths.root path k) else 0

/-- Path and step of a compression by division; the rows of compressions that
fit and belong to a path are filled, the others stay zero. -/
def preprocRow (logSize row : ℕ) : PreprocRow :=
  let comp := row / 22
  let path := comp / paths.depth
  let j := comp % paths.depth
  if comp < 2 ^ logSize / 22 ∧ path < paths.leaves.length then
    paths.compressionRow path j (row % 22)
  else .padding

def buildPreprocMulti (logSize : ℕ) : Except String (ℕ → PreprocRow) :=
  if paths.leaves.length ≠ paths.indices.length then .error "leaves/indices length mismatch"
  else if paths.leaves.length ≠ paths.roots.length then .error "leaves/roots length mismatch"
  else if ¬ 1 ≤ paths.depth then .error "depth must be ≥ 1"
  else .ok (paths.preprocRow logSize)

end Paths

section Reading

variable {paths : Paths} {logSize path j r : ℕ}

/-- The compressions of all paths fit. -/
def Paths.Fits (paths : Paths) (logSize : ℕ) : Prop :=
  paths.leaves.length * paths.depth * 22 ≤ 2 ^ logSize

theorem place_lt {count d : ℕ} (before : path < count) (inside : j < d) :
    path * d + j < count * d := by
  have next : (path + 1) * d ≤ count * d := Nat.mul_le_mul_right d before
  rw [Nat.succ_mul] at next
  omega

theorem place_div {d : ℕ} (inside : j < d) : (path * d + j) / d = path := by
  rw [Nat.mul_comm, Nat.mul_add_div (by omega), Nat.div_eq_of_lt inside, Nat.add_zero]

theorem place_mod {d : ℕ} (inside : j < d) : (path * d + j) % d = j := by
  rw [Nat.mul_comm, Nat.mul_add_mod, Nat.mod_eq_of_lt inside]

theorem preprocRow_eq (fits : paths.Fits logSize) (before : path < paths.leaves.length)
    (inside : j < paths.depth) (early : r < 22) :
    paths.preprocRow logSize (22 * (path * paths.depth + j) + r) =
      paths.compressionRow path j r := by
  have place := place_lt before inside
  have block : (22 * (path * paths.depth + j) + r) / 22 = path * paths.depth + j := by omega
  have step : (22 * (path * paths.depth + j) + r) % 22 = r := by omega
  have room : path * paths.depth + j < 2 ^ logSize / 22 := by
    rw [Paths.Fits] at fits
    omega
  rw [Paths.preprocRow, block, step, place_div inside, place_mod inside]
  exact if_pos ⟨room, before⟩

/-- Rows behind the last compression have no selectors. -/
theorem preprocRow_padding {row : ℕ} (positive : 0 < paths.depth)
    (after : 22 * (paths.leaves.length * paths.depth) ≤ row) :
    paths.preprocRow logSize row = .padding := by
  have late : paths.leaves.length ≤ row / 22 / paths.depth := by
    rw [Nat.le_div_iff_mul_le positive]
    omega
  rw [Paths.preprocRow]
  exact if_neg fun both => absurd both.2 (Nat.not_lt.mpr late)

theorem compressionRow_idxBit (narrow : j < 32) :
    (paths.compressionRow path j 0).idxBit =
      if decide (paths.index path / 2 ^ j % 2 = 1) then 1 else 0 := by
  have pinned : (paths.compressionRow path j 0).idxBit =
      m31 (if j < 32 then paths.index path >>> j &&& 1 else 0) := rfl
  rw [pinned, if_pos narrow, Nat.shiftRight_eq_div_pow, Nat.and_one_is_mod]
  rcases Nat.mod_two_eq_zero_or_one (paths.index path / 2 ^ j) with even | odd
  · simp [even]
  · simp [odd]

theorem m31_node (node : Fin 8 → ℕ) : (fun k => m31 (node k)) = residues node := by
  funext k
  exact m31_eq_cast (node k)

theorem compressionRow_rc : (paths.compressionRow path j r).rc = scheduled r := by
  funext i
  exact m31_eq_cast _

/-- On a row of a round the output is that round. -/
theorem RowHolds.out_eq {main previous : MainRow}
    (holds : RowHolds main previous (paths.compressionRow path j r)) :
    main.out = step constantT16 r main.inp := by
  have powers := holds.powers
  rw [compressionRow_rc] at powers
  rw [holds.output, powers]
  exact round_expression r main.inp

end Reading

/-! ## Soundness -/

section Soundness

variable {paths : Paths} {logSize path j r : ℕ} {main : ℕ → MainRow}
  (satisfied : Satisfies main (paths.preprocRow logSize) logSize) (fits : paths.Fits logSize)
  (before : path < paths.leaves.length) (inside : j < paths.depth)

include satisfied fits before inside

/-- A round of a compression, with the row before it. -/
theorem Satisfies.row (early : r < 22) :
    RowHolds (main (22 * (path * paths.depth + j) + r))
      (main (previousRow logSize (22 * (path * paths.depth + j) + r)))
      (paths.compressionRow path j r) := by
  have place := place_lt before inside
  have row := satisfied (22 * (path * paths.depth + j) + r) (by
    rw [Paths.Fits] at fits
    omega)
  rw [preprocRow_eq fits before inside early] at row
  exact vanish_evaluate.mp row

/-- Rows after the first take the output of the row before. -/
theorem Satisfies.input (early : r + 1 < 22) :
    (main (22 * (path * paths.depth + j) + (r + 1))).inp =
      (main (22 * (path * paths.depth + j) + r)).out := by
  have place := place_lt before inside
  have holds := satisfied.row fits before inside early
  have within : 22 * (path * paths.depth + j) + r + 1 < 2 ^ logSize := by
    rw [Paths.Fits] at fits
    omega
  rw [← Nat.add_assoc, previousRow_succ within] at holds
  have later : (paths.compressionRow path j (r + 1)).isFirstComp = 0 := rfl
  have input := holds.input
  rw [later] at input
  rw [← Nat.add_assoc, input]
  funext i
  ring

/-- The first row takes the selected children through the external layer. -/
theorem Satisfies.start :
    (main (22 * (path * paths.depth + j))).inp =
      stepsFrom constantT16 (childSelect (main (22 * (path * paths.depth + j))).bit
        (main (22 * (path * paths.depth + j))).sib (main (22 * (path * paths.depth + j))).cur)
        0 := by
  have holds := satisfied.row fits before inside (by omega : 0 < 22)
  have first : (paths.compressionRow path j 0).isFirstComp = 1 := rfl
  have input := holds.input
  rw [first, Nat.add_zero] at input
  rw [stepsFrom_zero, input]
  funext i
  rw [one_mul, sub_self, zero_mul, add_zero]

/-- The rows of a compression list the permutation of its operands. -/
theorem Satisfies.rounds (early : r < 22) :
    (main (22 * (path * paths.depth + j) + r)).out =
      stepsFrom constantT16 (childSelect (main (22 * (path * paths.depth + j))).bit
        (main (22 * (path * paths.depth + j))).sib (main (22 * (path * paths.depth + j))).cur)
        (r + 1) := by
  induction r with
  | zero =>
      rw [(satisfied.row fits before inside early).out_eq, Nat.add_zero,
        satisfied.start fits before inside, stepsFrom_succ]
  | succ r ih =>
      rw [(satisfied.row fits before inside early).out_eq,
        satisfied.input fits before inside early, ih (by omega), ← stepsFrom_succ]

/-- The bit of a compression is the pinned digit. -/
theorem Satisfies.bit (narrow : paths.depth ≤ 32) :
    (main (22 * (path * paths.depth + j))).bit =
      if decide (paths.index path / 2 ^ j % 2 = 1) then 1 else 0 := by
  have holds := satisfied.row fits before inside (by omega : 0 < 22)
  have first : (paths.compressionRow path j 0).isFirstComp = 1 := rfl
  have digit := holds.digit
  rw [first, one_mul, sub_eq_zero, compressionRow_idxBit (by omega)] at digit
  exact digit

/-- A compression hashes its node with its sibling, on the side of its digit. -/
theorem Satisfies.hashes (narrow : paths.depth ≤ 32) :
    leftNode (main (22 * (path * paths.depth + j) + 21)).out =
      if decide (paths.index path / 2 ^ j % 2 = 1) then
        compress (main (22 * (path * paths.depth + j))).sib
          (main (22 * (path * paths.depth + j))).cur
      else compress (main (22 * (path * paths.depth + j))).cur
        (main (22 * (path * paths.depth + j))).sib := by
  rw [satisfied.rounds fits before inside (by omega : 21 < 22),
    satisfied.bit fits before inside narrow, stepsFrom_all]
  split <;> simp [childSelect, compress]

/-- The node of a compression is the pinned leaf or the node hashed before. -/
theorem Satisfies.node :
    (main (22 * (path * paths.depth + j))).cur =
      if j = 0 then residues (paths.leaf path)
      else leftNode (main (22 * (path * paths.depth + (j - 1)) + 21)).out := by
  have place := place_lt before inside
  have holds := satisfied.row fits before inside (by omega : 0 < 22)
  have first : (paths.compressionRow path j 0).isFirstComp = 1 := rfl
  have node := holds.node
  funext k
  have cell := node k
  rw [first, one_mul, sub_eq_zero] at cell
  rw [Nat.add_zero] at cell holds
  rw [cell]
  split
  case isTrue starts =>
    have on : (paths.compressionRow path j 0).isFirstPath = 1 := if_pos ⟨rfl, starts⟩
    have pinned : (paths.compressionRow path j 0).leaf k = m31 (paths.leaf path k) :=
      if_pos ⟨rfl, starts⟩
    have leaf := holds.leaf k
    rw [on, one_mul, sub_eq_zero, pinned] at leaf
    rw [on, leaf, ← m31_node]
    ring
  case isFalse inner =>
    have off : (paths.compressionRow path j 0).isFirstPath = 0 := if_neg fun both => inner both.2
    have row : 22 * (path * paths.depth + j) = 22 * (path * paths.depth + (j - 1)) + 21 + 1 := by
      omega
    have within : 22 * (path * paths.depth + (j - 1)) + 21 + 1 < 2 ^ logSize := by
      rw [Paths.Fits] at fits
      omega
    rw [off, row, previousRow_succ within]
    ring

omit inside in
/-- Each pinned leaf climbs to its pinned root along siblings of the trace. -/
theorem Satisfies.path_root (positive : 0 < paths.depth) (narrow : paths.depth ≤ 32) :
    Merkle.pathRoot compress (residues (paths.leaf path))
      ((List.range paths.depth).map fun j => (main (22 * (path * paths.depth + j))).sib)
      (Merkle.indexBits paths.depth (paths.index path)) = residues (paths.root path) := by
  have climbed := Merkle.pathRoot_of_steps compress
    (fun j => if j = 0 then residues (paths.leaf path)
      else leftNode (main (22 * (path * paths.depth + (j - 1)) + 21)).out)
    ((List.range paths.depth).map fun j => (main (22 * (path * paths.depth + j))).sib)
    (Merkle.indexBits paths.depth (paths.index path)) paths.depth (by
      intro j early
      have within : j < (Merkle.indexBits paths.depth (paths.index path)).length := by
        rw [Merkle.indexBits_length]
        exact early
      refine ⟨(main (22 * (path * paths.depth + j))).sib,
        (Merkle.indexBits paths.depth (paths.index path))[j], ?_,
        List.getElem?_eq_getElem within, ?_⟩
      · rw [List.getElem?_map, List.getElem?_range early]
        rfl
      · have digit := Merkle.indexBits_get paths.depth (paths.index path) j within
        rw [List.get_eq_getElem] at digit
        rw [digit, if_neg (Nat.succ_ne_zero j), Nat.add_sub_cancel,
          satisfied.hashes fits before early narrow, satisfied.node fits before early])
  rw [List.take_of_length_le (by simp), List.take_of_length_le (by simp)] at climbed
  have last : paths.depth - 1 < paths.depth := by omega
  have holds := satisfied.row fits before last (by omega : 21 < 22)
  have reached : leftNode (main (22 * (path * paths.depth + (paths.depth - 1)) + 21)).out =
      residues (paths.root path) := by
    have on : (paths.compressionRow path (paths.depth - 1) 21).isRoot = 1 := if_pos ⟨rfl, rfl⟩
    funext k
    have pinned : (paths.compressionRow path (paths.depth - 1) 21).root k =
        m31 (paths.root path k) := if_pos ⟨rfl, rfl⟩
    have root := holds.root k
    rw [on, one_mul, sub_eq_zero, pinned] at root
    rw [root, ← m31_node]
  rw [if_pos rfl, if_neg (by omega), reached] at climbed
  exact climbed

end Soundness

end MerklePathT16
end Recursive
end QLSA
