import QLSA.Machine.Layout
import QLSA.Recursive.HonestLane

namespace QLSA
namespace Recursive

open Hash Mersenne

/-- Raise a size exponent until the rows fit. -/
def growLogSize (rows log : ℕ) : ℕ :=
  if 2 ^ log < rows then growLogSize rows (log + 1) else log
termination_by rows - 2 ^ log
decreasing_by
  have positive : 0 < 2 ^ log := Nat.two_pow_pos log
  omega

theorem le_growLogSize (rows log : ℕ) : log ≤ growLogSize rows log := by
  fun_induction growLogSize rows log with
  | case1 log short ih => omega
  | case2 log enough => exact le_rfl

theorem rows_le_growLogSize (rows log : ℕ) : rows ≤ 2 ^ growLogSize rows log := by
  fun_induction growLogSize rows log with
  | case1 log short ih => exact ih
  | case2 log enough => exact Nat.not_lt.mp enough

theorem growLogSize_le {rows log bound : ℕ} (enough : rows ≤ 2 ^ bound) (start : log ≤ bound) :
    growLogSize rows log ≤ bound := by
  fun_induction growLogSize rows log with
  | case1 log short ih =>
      apply ih
      rcases Nat.lt_or_eq_of_le start with below | rfl
      · exact below
      · exact absurd enough (Nat.not_le.mpr short)
  | case2 log enough => exact start

theorem growLogSize_enough {rows log : ℕ} (enough : rows ≤ 2 ^ log) :
    growLogSize rows log = log := by
  rw [growLogSize, if_neg (Nat.not_lt.mpr enough)]

namespace MerklePathT8

open Machine

/-!
# Merkle paths of differing depths

One lane climbs any number of paths, laid end to end.  The preprocessed
columns pin the leaf, the index and the root of every path; siblings stay with
the prover.  A satisfying trace therefore shows that each pinned leaf climbs to
its pinned root along some siblings, and every choice of siblings that does so
is the content of some satisfying trace.
-/

def minLogSize : ℕ := 5

def maxLogSize : ℕ := 24

/-- Largest depth of a path. -/
def maxDepth : ℕ := 28

/-- Index bits, lowest first, packed into a `u32`. -/
def bitsToIndex (bits : List Bool) : Except String ℕ :=
  if 32 < bits.length then .error s!"depth {bits.length} exceeds 32-bit index"
  else .ok (Merkle.position bits)

def computeLogSizeMultiVar (depths : List ℕ) : ℕ :=
  growLogSize (max (depths.map (max · 1)).sum 1 * 22) minLogSize

/-! ## Columns -/

/-- Main columns of one row. -/
structure MainRow where
  inp : State M31
  sq : State M31
  sbox : State M31
  out : State M31
  cur : Quad M31
  sib : Quad M31
  bit : M31
  leaf : Quad M31

/-- Preprocessed columns of one row. -/
structure PreprocRow where
  rc : State M31
  isExt : M31
  isInt : M31
  isFirstComp : M31
  isFirstPath : M31
  idxBit : M31
  leaf : Quad M31
  isRoot : M31
  root : Quad M31

/-- A row without selectors. -/
def PreprocRow.padding : PreprocRow :=
  ⟨⟨0, 0, 0, 0, 0, 0, 0, 0⟩, 0, 0, 0, 0, 0, ⟨0, 0, 0, 0⟩, 0, ⟨0, 0, 0, 0⟩⟩

/-- The lane of a row, which reads the row before it. -/
def MainRow.lane (main previous : MainRow) : Lane M31 :=
  ⟨main.inp, main.sq, main.sbox, main.out, previous.out, main.cur, main.leaf⟩

/-- Selectors of a row with its sibling and bit. -/
def PreprocRow.shared (preproc : PreprocRow) (main : MainRow) : Shared M31 :=
  ⟨preproc.rc, preproc.isExt, preproc.isInt, preproc.isFirstComp, preproc.isFirstPath,
    preproc.isRoot, main.sib, main.bit⟩

/-- All constraints of a row. -/
def evaluate (main previous : MainRow) (preproc : PreprocRow) : List M31 :=
  [preproc.isFirstComp * (main.bit * main.bit - main.bit),
    preproc.isFirstComp * (main.bit - preproc.idxBit)] ++
  constrainLane (main.lane previous) (preproc.shared main) preproc.leaf preproc.root

/-- The main columns satisfy every constraint on every row. -/
def Satisfies (main : ℕ → MainRow) (preproc : ℕ → PreprocRow) (logSize : ℕ) : Prop :=
  ∀ row < 2 ^ logSize, Vanish (evaluate (main row) (main (previousRow logSize row)) (preproc row))

/-- Leaves, indices, roots and depths of the paths. -/
structure Paths where
  leaves : List (Quad ℕ)
  indices : List ℕ
  roots : List (Quad ℕ)
  depths : List ℕ

namespace Paths

variable (paths : Paths)

def leaf (path : ℕ) : Quad ℕ := paths.leaves.getD path ⟨0, 0, 0, 0⟩

def index (path : ℕ) : ℕ := paths.indices.getD path 0

def root (path : ℕ) : Quad ℕ := paths.roots.getD path ⟨0, 0, 0, 0⟩

def depth (path : ℕ) : ℕ := paths.depths.getD path 0

/-- Round `r` of compression `j` of a path. -/
def compressionRow (path j r : ℕ) : PreprocRow where
  rc := (roundSchedule r).2.map m31
  isExt := if (roundSchedule r).1 then 1 else 0
  isInt := if (roundSchedule r).1 then 0 else 1
  isFirstComp := if r = 0 then 1 else 0
  isFirstPath := if r = 0 ∧ j = 0 then 1 else 0
  idxBit :=
    if r = 0 then m31 (if j < 32 then paths.index path >>> j &&& 1 else 0) else 0
  leaf := if r = 0 ∧ j = 0 then (paths.leaf path).map m31 else ⟨0, 0, 0, 0⟩
  isRoot := if j = paths.depth path - 1 ∧ r = 22 - 1 then 1 else 0
  root :=
    if j = paths.depth path - 1 ∧ r = 22 - 1 then (paths.root path).map m31 else ⟨0, 0, 0, 0⟩

/-- Rows of compressions that fit; the others stay zero. -/
def preprocRow (logSize row : ℕ) : PreprocRow :=
  if row / 22 < 2 ^ logSize / 22 then
    match (layout paths.depths)[row / 22]? with
    | some (path, j) => paths.compressionRow path j (row % 22)
    | none => .padding
  else .padding

/-- Preprocessed columns of paths that each carry their own depth. -/
def buildPreprocMultiVar (logSize : ℕ) : Except String (ℕ → PreprocRow) :=
  if paths.leaves.length ≠ paths.indices.length then .error "leaves/indices length mismatch"
  else if paths.leaves.length ≠ paths.roots.length then .error "leaves/roots length mismatch"
  else if paths.leaves.length ≠ paths.depths.length then .error "leaves/depths length mismatch"
  else if ¬ paths.depths.all (1 ≤ ·) then .error "every depth must be ≥ 1"
  else .ok (paths.preprocRow logSize)

end Paths

section Reading

variable {paths : Paths} {logSize path d j r : ℕ}

/-- Compressions of a path that all fit. -/
theorem room (found : paths.depths[path]? = some d)
    (fits : paths.depths.sum * 22 ≤ 2 ^ logSize) :
    start paths.depths path + d ≤ 2 ^ logSize / 22 := by
  have within := start_add_le found
  omega

theorem preprocRow_eq (found : paths.depths[path]? = some d) (inside : j < d) (early : r < 22)
    (fits : start paths.depths path + d ≤ 2 ^ logSize / 22) :
    paths.preprocRow logSize ((start paths.depths path + j) * 22 + r) =
      paths.compressionRow path j r := by
  have block : ((start paths.depths path + j) * 22 + r) / 22 = start paths.depths path + j := by
    omega
  have step : ((start paths.depths path + j) * 22 + r) % 22 = r := by omega
  have below : start paths.depths path + j < 2 ^ logSize / 22 := by omega
  rw [Paths.preprocRow, block, if_pos below, layout_getElem? found inside, step]

/-- Rows after the last path hold zeros. -/
theorem preprocRow_idle {row : ℕ} (after : paths.depths.sum * 22 ≤ row) :
    paths.preprocRow logSize row = .padding := by
  unfold Paths.preprocRow
  rw [layout_getElem?_of_le (by omega)]
  split <;> rfl

/-- Every earlier row is a round of a compression of a path. -/
theorem row_position {row : ℕ} (before : row < 22 * paths.depths.sum) :
    ∃ path d j, paths.depths[path]? = some d ∧ j < d ∧ row / 22 = start paths.depths path + j ∧
      row = (start paths.depths path + j) * 22 + row % 22 := by
  rcases place_of_lt (show row / 22 < paths.depths.sum by omega) with
    ⟨path, d, j, found, inside, place⟩
  exact ⟨path, d, j, found, inside, place, by omega⟩

theorem compressionRow_scheduled (main : MainRow) :
    ((paths.compressionRow path j r).shared main).Scheduled r where
  rc_eq := by ext <;> simp [PreprocRow.shared, Paths.compressionRow, State.map]
  isExt_eq := rfl
  isInt_eq := rfl

theorem compressionRow_idxBit (narrow : j < 32 ∨ paths.index path < 2 ^ 32) :
    (paths.compressionRow path j 0).idxBit =
      if decide (paths.index path / 2 ^ j % 2 = 1) then 1 else 0 := by
  have digit : (if j < 32 then paths.index path >>> j &&& 1 else 0) =
      paths.index path / 2 ^ j % 2 := by
    split
    case isTrue =>
      rw [Nat.shiftRight_eq_div_pow, Nat.and_one_is_mod]
    case isFalse deep =>
      have small : paths.index path < 2 ^ j := by
        calc
          paths.index path < 2 ^ 32 := narrow.resolve_left deep
          _ ≤ 2 ^ j := Nat.pow_le_pow_right (by omega) (by omega)
      rw [Nat.div_eq_of_lt small]
  have pinned : (paths.compressionRow path j 0).idxBit =
      m31 (if j < 32 then paths.index path >>> j &&& 1 else 0) := rfl
  rw [pinned, digit]
  rcases Nat.mod_two_eq_zero_or_one (paths.index path / 2 ^ j) with even | odd
  · simp [even]
  · simp [odd]

theorem map_m31 (quad : Quad ℕ) : quad.map m31 = Stwo.residues quad := by
  ext <;> simp [Stwo.residues]

theorem depth_eq (found : paths.depths[path]? = some d) : paths.depth path = d := by
  rw [Paths.depth, List.getD_eq_getElem?_getD, found]
  rfl

end Reading

/-! ## Soundness -/

section Soundness

variable {paths : Paths} {logSize path d : ℕ} {main : ℕ → MainRow}

/-- The rows of the lane. -/
theorem Satisfies.rows {preproc : ℕ → PreprocRow} (satisfied : Satisfies main preproc logSize) :
    SatisfiedRows (fun row => (main row).lane (main (previousRow logSize row)))
      (fun row => (preproc row).shared (main row)) (fun row => (preproc row).leaf)
      (fun row => (preproc row).root) (2 ^ logSize) where
  holds := by
    intro row inside
    have all := satisfied row inside
    rw [evaluate, vanish_append] at all
    exact all.2
  chained := by
    intro row inside
    rw [previousRow_succ inside]
    rfl

/-- On first rows of compressions the bit is the pinned digit. -/
theorem Satisfies.bit_eq {preproc : ℕ → PreprocRow} (satisfied : Satisfies main preproc logSize)
    {row : ℕ} (inside : row < 2 ^ logSize) (first : (preproc row).isFirstComp = 1) :
    (main row).bit = (preproc row).idxBit := by
  have all := satisfied row inside
  simp only [evaluate, vanish_append, vanish_cons, first, one_mul] at all
  exact sub_eq_zero.mp all.1.2.1

/-- The siblings of a path: those on the first rows of its compressions. -/
def siblingsOf (main : ℕ → MainRow) (depths : List ℕ) (path d : ℕ) : List (Quad M31) :=
  (List.range d).map fun j => (main ((start depths path + j) * 22)).sib

theorem pathPins (satisfied : Satisfies main (paths.preprocRow logSize) logSize)
    (found : paths.depths[path]? = some d)
    (fits : start paths.depths path + d ≤ 2 ^ logSize / 22) (positive : 0 < d)
    (narrow : d ≤ 32 ∨ paths.index path < 2 ^ 32) :
    PathPins (fun row => (paths.preprocRow logSize row).shared (main row))
      (fun row => (paths.preprocRow logSize row).leaf)
      (fun row => (paths.preprocRow logSize row).root) (start paths.depths path * 22) d
      (paths.index path) (Stwo.residues (paths.leaf path)) (Stwo.residues (paths.root path)) := by
  have place (j r : ℕ) : start paths.depths path * 22 + 22 * j + r =
      (start paths.depths path + j) * 22 + r := by ring
  have row {j r : ℕ} (inside : j < d) (early : r < 22) :
      paths.preprocRow logSize (start paths.depths path * 22 + 22 * j + r) =
        paths.compressionRow path j r := by
    rw [place, preprocRow_eq found inside early fits]
  have first {j : ℕ} (inside : j < d) :
      paths.preprocRow logSize (start paths.depths path * 22 + 22 * j) =
        paths.compressionRow path j 0 := row (r := 0) inside (by omega)
  constructor
  · intro j inside
    constructor
    · intro r early
      rw [row inside early]
      exact compressionRow_scheduled _
    · intro r early
      rw [row inside early]
      rfl
  · intro j inside
    rw [first inside]
    simp [PreprocRow.shared, Paths.compressionRow]
  · rw [row (j := d - 1) (r := 21) (by omega) (by omega)]
    simp [PreprocRow.shared, Paths.compressionRow, depth_eq found]
  · intro j inside
    have marked : (paths.preprocRow logSize (start paths.depths path * 22 + 22 * j)).isFirstComp =
        1 := by
      rw [first inside]
      rfl
    have digit := satisfied.bit_eq (by omega) marked
    have shallow : j < 32 ∨ paths.index path < 2 ^ 32 :=
      narrow.imp_left (fun bounded => lt_of_lt_of_le inside bounded)
    rw [first inside, compressionRow_idxBit shallow] at digit
    exact digit
  · have leaf := first positive
    rw [Nat.mul_zero, Nat.add_zero] at leaf
    rw [leaf, ← map_m31]
    simp [Paths.compressionRow]
  · rw [row (j := d - 1) (r := 21) (by omega) (by omega), ← map_m31]
    simp [Paths.compressionRow, depth_eq found]

/-- Each pinned leaf climbs to its pinned root along the siblings of the trace. -/
theorem Satisfies.path_root (satisfied : Satisfies main (paths.preprocRow logSize) logSize)
    (found : paths.depths[path]? = some d)
    (fits : start paths.depths path + d ≤ 2 ^ logSize / 22) (positive : 0 < d)
    (narrow : d ≤ 32 ∨ paths.index path < 2 ^ 32) :
    Merkle.pathRoot (compress Stwo.constant) (Stwo.residues (paths.leaf path))
      (siblingsOf main paths.depths path d) (Merkle.indexBits d (paths.index path)) =
      Stwo.residues (paths.root path) := by
  have climbed := satisfied.rows.path_root (pathPins satisfied found fits positive narrow) positive
    (by omega)
  have place (j : ℕ) : start paths.depths path * 22 + 22 * j =
      (start paths.depths path + j) * 22 := by ring
  rw [blockSiblings_eq_map] at climbed
  simp only [place] at climbed
  exact climbed

end Soundness

/-! ## Completeness -/

section Completeness

variable (paths : Paths) (siblings : ℕ → List (Quad M31))

/-- Path and step of a compression. -/
def compressionAt (k : ℕ) : ℕ × ℕ := (layout paths.depths)[k]?.getD (0, 0)

/-- The sibling of a compression. -/
def honestSib (k : ℕ) : Quad M31 :=
  (siblings (compressionAt paths k).1).getD (compressionAt paths k).2 ⟨0, 0, 0, 0⟩

def honestBit (k : ℕ) : Bool :=
  decide (paths.index (compressionAt paths k).1 / 2 ^ (compressionAt paths k).2 % 2 = 1)

/-- The node reached after some steps of a path. -/
def nodeAfter (path steps : ℕ) : Quad M31 :=
  Merkle.pathRoot (compress Stwo.constant) (Stwo.residues (paths.leaf path))
    ((siblings path).take steps)
    ((Merkle.indexBits (paths.depth path) (paths.index path)).take steps)

def honestNode (k : ℕ) : Quad M31 :=
  nodeAfter paths siblings (compressionAt paths k).1 (compressionAt paths k).2

def honestRaw (k : ℕ) : State M31 :=
  childSelect (if honestBit paths k then 1 else 0) (honestSib paths siblings k)
    (honestNode paths siblings k)

/-- Selectors with the honest siblings and bits. -/
def honestShared (logSize row : ℕ) : Shared M31 :=
  (paths.preprocRow logSize row).shared
    ⟨⟨0, 0, 0, 0, 0, 0, 0, 0⟩, ⟨0, 0, 0, 0, 0, 0, 0, 0⟩, ⟨0, 0, 0, 0, 0, 0, 0, 0⟩,
      ⟨0, 0, 0, 0, 0, 0, 0, 0⟩, ⟨0, 0, 0, 0⟩, honestSib paths siblings (row / 22),
      if honestBit paths (row / 22) then 1 else 0, ⟨0, 0, 0, 0⟩⟩

def honestRows (logSize row previous : ℕ) : Lane M31 :=
  honestLane (honestRaw paths siblings) (fun row => honestNode paths siblings (row / 22))
    (fun row => Stwo.residues (paths.leaf (compressionAt paths (row / 22)).1))
    paths.depths.sum (honestShared paths siblings logSize row) row previous

/-- The main columns of an honest prover. -/
def honestMain (logSize row : ℕ) : MainRow :=
  let lane := honestRows paths siblings logSize row 0
  ⟨lane.inp, lane.sq, lane.sbox, lane.out, lane.cur, honestSib paths siblings (row / 22),
    if honestBit paths (row / 22) then 1 else 0, lane.leaf⟩

variable {paths siblings} {logSize : ℕ}

theorem compressionAt_start {path d j : ℕ} (found : paths.depths[path]? = some d)
    (inside : j < d) : compressionAt paths (start paths.depths path + j) = (path, j) := by
  rw [compressionAt, layout_getElem? found inside]
  rfl

/-- A step of an honest lane: the node of the next compression of the path. -/
theorem honestNode_succ {path d j : ℕ} (found : paths.depths[path]? = some d) (inside : j < d)
    (lengths : (siblings path).length = d) :
    (roundsFrom (columnConstant M31)
        (honestRaw paths siblings (start paths.depths path + j)) 22).left =
      nodeAfter paths siblings path (j + 1) := by
  have sibling : (siblings path)[j]? = some ((siblings path).getD j ⟨0, 0, 0, 0⟩) := by
    rw [List.getD_eq_getElem?_getD, List.getElem?_eq_getElem (by rw [lengths]; exact inside)]
    rfl
  have digit : (Merkle.indexBits (paths.depth path) (paths.index path))[j]? =
      some (decide (paths.index path / 2 ^ j % 2 = 1)) := by
    have within : j < (Merkle.indexBits (paths.depth path) (paths.index path)).length := by
      rw [Merkle.indexBits_length, depth_eq found]
      exact inside
    rw [List.getElem?_eq_getElem within]
    exact congrArg some (Merkle.indexBits_get _ _ j within)
  rw [nodeAfter, Merkle.pathRoot_take_succ _ _ _ _ _ _ sibling digit, honestRaw,
    roundsFrom_childSelect, honestBit, honestSib, honestNode, compressionAt_start found inside]
  rfl

/-- Siblings that open every path. -/
structure Opens (paths : Paths) (siblings : ℕ → List (Quad M31)) : Prop where
  length_eq : ∀ path d, paths.depths[path]? = some d → (siblings path).length = d
  root_eq : ∀ path d, paths.depths[path]? = some d →
    Merkle.pathRoot (compress Stwo.constant) (Stwo.residues (paths.leaf path)) (siblings path)
      (Merkle.indexBits d (paths.index path)) = Stwo.residues (paths.root path)

/-- Main columns with the siblings, bits, nodes and leaves of an honest prover on
the first rows of compressions. -/
structure Carries (paths : Paths) (siblings : ℕ → List (Quad M31)) (main : ℕ → MainRow) :
    Prop where
  sib_eq : ∀ k < paths.depths.sum, (main (22 * k)).sib = honestSib paths siblings k
  bit_eq : ∀ k < paths.depths.sum,
    (main (22 * k)).bit = if honestBit paths k then 1 else 0
  cur_eq : ∀ k < paths.depths.sum, (main (22 * k)).cur = honestNode paths siblings k
  leaf_eq : ∀ k < paths.depths.sum, (compressionAt paths k).2 = 0 →
    (main (22 * k)).leaf = Stwo.residues (paths.leaf (compressionAt paths k).1)

variable {main : ℕ → MainRow}

/-- Such columns meet what the pins ask for. -/
theorem Opens.pins (opens : Opens paths siblings) (carries : Carries paths siblings main)
    (fits : paths.depths.sum * 22 ≤ 2 ^ logSize) :
    HonestPins (fun row => (paths.preprocRow logSize row).shared (main row))
      (fun row => (paths.preprocRow logSize row).leaf)
      (fun row => (paths.preprocRow logSize row).root) (honestRaw paths siblings)
      (fun row => (main row).cur) (fun row => (main row).leaf) paths.depths.sum where
  scheduled := by
    intro row before
    rcases row_position before with ⟨path, d, j, found, inside, -, position⟩
    have read := preprocRow_eq found inside (Nat.mod_lt row (by omega : 22 > 0))
      (room found fits)
    rw [← position] at read
    rw [read]
    exact compressionRow_scheduled _
  isFirstComp_eq := by
    intro row before
    rcases row_position before with ⟨path, d, j, found, inside, -, position⟩
    have read := preprocRow_eq found inside (Nat.mod_lt row (by omega : 22 > 0))
      (room found fits)
    rw [← position] at read
    rw [read]
    rfl
  idle := by
    intro row after
    rw [preprocRow_idle (by omega)]
    exact ⟨rfl, rfl, rfl, rfl, rfl⟩
  raw_eq := by
    intro k below
    simp only [PreprocRow.shared, honestRaw, carries.sib_eq k below, carries.bit_eq k below,
      carries.cur_eq k below]
  leaf_eq := by
    intro row before
    rcases row_position before with ⟨path, d, j, found, inside, place, position⟩
    have read := preprocRow_eq found inside (Nat.mod_lt row (by omega : 22 > 0))
      (room found fits)
    rw [← position] at read
    by_cases begins : row % 22 = 0 ∧ j = 0
    · right
      have marked : (paths.compressionRow path j (row % 22)).leaf =
          Stwo.residues (paths.leaf path) := (if_pos begins).trans (map_m31 _)
      have block : row / 22 < paths.depths.sum := by omega
      have first : 22 * (row / 22) = row := by omega
      have comp := compressionAt_start found inside
      rw [← place] at comp
      have leaf := carries.leaf_eq _ block (by rw [comp]; exact begins.2)
      have node := carries.cur_eq _ block
      rw [first, comp] at leaf
      rw [first, honestNode, comp, begins.2, nodeAfter] at node
      rw [read, marked]
      exact ⟨if_pos begins, leaf, node⟩
    · left
      rw [read]
      exact if_neg begins
  first := by
    intro nonempty
    have before : 0 < 22 * paths.depths.sum := by omega
    rcases place_of_lt nonempty with ⟨path, d, j, found, inside, place⟩
    have begins : j = 0 := by omega
    have read := preprocRow_eq (r := 0) found inside (by omega) (room found fits)
    rw [← place] at read
    rw [read, begins]
    rfl
  cur_next := by
    intro k below off
    have before : k + 1 < paths.depths.sum := below
    rcases place_of_lt before with ⟨path, d, j, found, inside, place⟩
    have read := preprocRow_eq (r := 0) found inside (by omega) (room found fits)
    rw [← place] at read
    have row : 22 * (k + 1) = (k + 1) * 22 + 0 := by ring
    rw [row, read, ← row] at off
    have inner : j ≠ 0 := by
      rintro rfl
      exact one_ne_zero off
    have previous : k = start paths.depths path + (j - 1) := by omega
    have reached := honestNode_succ found (j := j - 1) (by omega) (opens.length_eq path d found)
    rw [← previous, Nat.sub_add_cancel (by omega)] at reached
    rw [reached, carries.cur_eq _ before, place, honestNode, compressionAt_start found inside]
  root_eq := by
    intro row before
    rcases row_position before with ⟨path, d, j, found, inside, place, position⟩
    have read := preprocRow_eq found inside (Nat.mod_lt row (by omega : 22 > 0))
      (room found fits)
    rw [← position] at read
    rw [read]
    by_cases last : j = paths.depth path - 1 ∧ row % 22 = 22 - 1
    · right
      have marked : (paths.compressionRow path j (row % 22)).root =
          Stwo.residues (paths.root path) := (if_pos last).trans (map_m31 _)
      refine ⟨if_pos last, ?_⟩
      have whole : j + 1 = d := by
        rw [depth_eq found] at last
        omega
      have reached := honestNode_succ found inside (opens.length_eq path d found)
      rw [whole, nodeAfter, depth_eq found,
        List.take_of_length_le (by rw [opens.length_eq path d found]),
        List.take_of_length_le (by rw [Merkle.indexBits_length]),
        opens.root_eq path d found] at reached
      rw [marked, honestOut, if_pos before, last.2, place, reached]
    · left
      exact if_neg last

/-- Their bits are the pinned digits. -/
theorem Carries.bits (carries : Carries paths siblings main)
    (fits : paths.depths.sum * 22 ≤ 2 ^ logSize) (narrow : ∀ d ∈ paths.depths, d ≤ 32) (row : ℕ) :
    (paths.preprocRow logSize row).isFirstComp *
        ((main row).bit * (main row).bit - (main row).bit) = 0 ∧
      (paths.preprocRow logSize row).isFirstComp *
        ((main row).bit - (paths.preprocRow logSize row).idxBit) = 0 := by
  by_cases before : row < 22 * paths.depths.sum
  · rcases row_position before with ⟨path, d, j, found, inside, place, position⟩
    have read := preprocRow_eq found inside (Nat.mod_lt row (by omega : 22 > 0))
      (room found fits)
    rw [← position] at read
    rw [read]
    by_cases first : row % 22 = 0
    · have shallow := narrow d (List.mem_of_getElem? found)
      have digit := carries.bit_eq (row / 22) (by omega)
      have block : 22 * (row / 22) = row := by omega
      rw [block, place, honestBit, compressionAt_start found inside] at digit
      rw [first, compressionRow_idxBit (.inl (by omega)), digit, sub_self, mul_zero]
      refine ⟨?_, rfl⟩
      split <;> simp
    · have off : (paths.compressionRow path j (row % 22)).isFirstComp = 0 := if_neg first
      rw [off, zero_mul, zero_mul]
      exact ⟨rfl, rfl⟩
  · have off : PreprocRow.padding.isFirstComp = 0 := rfl
    rw [preprocRow_idle (by omega), off, zero_mul, zero_mul]
    exact ⟨rfl, rfl⟩

/-- Columns that carry siblings opening every path satisfy the constraints when
their rounds are those of an honest lane. -/
theorem Opens.satisfies (opens : Opens paths siblings) (carries : Carries paths siblings main)
    (lanes : ∀ row < 2 ^ logSize, (main row).lane (main (previousRow logSize row)) =
      honestLane (honestRaw paths siblings) (fun row => (main row).cur)
        (fun row => (main row).leaf) paths.depths.sum
        ((paths.preprocRow logSize row).shared (main row)) row (previousRow logSize row))
    (fits : paths.depths.sum * 22 ≤ 2 ^ logSize) (narrow : ∀ d ∈ paths.depths, d ≤ 32)
    (nonempty : 0 < paths.depths.sum) :
    Satisfies main (paths.preprocRow logSize) logSize := by
  intro row inside
  have follows : 0 < row → previousRow logSize row = row - 1 := by
    intro later
    have succ : row - 1 + 1 = row := by omega
    rw [← succ, previousRow_succ (by omega), Nat.add_sub_cancel]
  have lane := (opens.pins carries fits).vanish follows nonempty
  rw [← lanes row inside] at lane
  rcases carries.bits fits narrow row with ⟨boolean, digit⟩
  simp only [evaluate, vanish_append, vanish_cons, vanish_nil]
  exact ⟨⟨boolean, digit, trivial⟩, lane⟩

theorem honestMain_carries : Carries paths siblings (honestMain paths siblings logSize) := by
  have block (k : ℕ) : 22 * k / 22 = k := Nat.mul_div_cancel_left k (by omega)
  constructor
  · intro k _
    rw [honestMain, block]
  · intro k _
    rw [honestMain, block]
  · intro k _
    simp only [honestMain, honestRows, honestLane, block]
  · intro k _ _
    simp only [honestMain, honestRows, honestLane, block]

/-- Siblings that open every path are the content of a satisfying trace. -/
theorem Opens.honestMain_satisfies (opens : Opens paths siblings)
    (fits : paths.depths.sum * 22 ≤ 2 ^ logSize) (narrow : ∀ d ∈ paths.depths, d ≤ 32)
    (nonempty : 0 < paths.depths.sum) :
    Satisfies (honestMain paths siblings logSize) (paths.preprocRow logSize) logSize :=
  opens.satisfies honestMain_carries (fun _ _ => rfl) fits narrow nonempty

/-- The honest trace carries the chosen siblings. -/
theorem siblingsOf_honestMain {path d : ℕ} (found : paths.depths[path]? = some d)
    (lengths : (siblings path).length = d) :
    siblingsOf (honestMain paths siblings logSize) paths.depths path d = siblings path := by
  apply List.ext_getElem
  · rw [lengths]
    simp [siblingsOf]
  · intro j inside within
    have bounded : j < d := by
      rw [← lengths]
      exact within
    have comp : (start paths.depths path + j) * 22 / 22 = start paths.depths path + j := by omega
    simp only [siblingsOf, List.getElem_map, List.getElem_range, honestMain]
    rw [comp, honestSib, compressionAt_start found bounded, List.getD_eq_getElem?_getD,
      List.getElem?_eq_getElem within]
    rfl

end Completeness

end MerklePathT8
end Recursive
end QLSA
