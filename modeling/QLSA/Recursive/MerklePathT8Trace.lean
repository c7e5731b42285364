import QLSA.Recursive.MerklePathT8Air
import QLSA.Recursive.RoundTrace

namespace QLSA
namespace Recursive
namespace MerklePathT8

open Hash Mersenne Machine

/-!
# The trace builder of the path circuit

The builder climbs all paths in one loop over the compressions.  A path is told
apart from the one before it by its position in the layout alone: there the
node is reset to a leaf, and where the path ends its root is collected.  The
trace it fills carries the given siblings, so that the circuit proves exactly
which paths exist.
-/

/-! ## The builder -/

/-- Leaves, siblings and direction bits of the paths. -/
structure Openings where
  leaves : List (Quad ℕ)
  sibs : List (List (Quad ℕ))
  bits : List (List Bool)

/-- The cells that the first row of a compression fills beside its round. -/
structure Head where
  cur : Quad ℕ
  sib : Quad ℕ
  bit : Bool
  leaf : Quad ℕ

/-- What the loop over the compressions has filled. -/
structure Filled where
  rows : List (RoundRow ℕ)
  heads : List Head
  cur : Quad ℕ
  carryState : State ℕ
  roots : List (Quad ℕ)

namespace Openings

variable (openings : Openings)

def depths : List ℕ := openings.sibs.map List.length

def leaf (path : ℕ) : Quad ℕ := openings.leaves.getD path ⟨0, 0, 0, 0⟩

def sib (path j : ℕ) : Quad ℕ := (openings.sibs.getD path []).getD j ⟨0, 0, 0, 0⟩

def bit (path j : ℕ) : Bool := (openings.bits.getD path []).getD j false

/-- One compression of the layout. -/
def fillCompression (filled : Filled) (place : ℕ × ℕ) : Filled :=
  let path := place.1
  let j := place.2
  let cur := if j = 0 then Stwo.norm4 (openings.leaf path) else filled.cur
  let sib := Stwo.norm4 (openings.sib path j)
  let bit := openings.bit path j
  let raw8 := if bit then State.ofQuads sib cur else State.ofQuads cur sib
  let rounds := roundRows (Stwo.matExternal raw8)
  let state := rounds.2
  ⟨filled.rows ++ rounds.1,
    filled.heads ++ [⟨cur, sib, bit, if j = 0 then openings.leaf path else ⟨0, 0, 0, 0⟩⟩],
    state.left, state,
    if j = openings.depths.getD path 0 - 1 then filled.roots ++ [state.left] else filled.roots⟩

def fillCompressions : Filled :=
  (layout openings.depths).foldl openings.fillCompression
    ⟨[], [], ⟨0, 0, 0, 0⟩, zeroState, []⟩

end Openings

/-- The main columns of a row. -/
def mainRow (round : RoundRow ℕ) : Option Head → MainRow
  | some head => ⟨round.inp.map m31, round.sq.map m31, round.sbox.map m31, round.out.map m31,
      head.cur.map m31, head.sib.map m31, if head.bit then m31 1 else 0, head.leaf.map m31⟩
  | none => ⟨round.inp.map m31, round.sq.map m31, round.sbox.map m31, round.out.map m31,
      ⟨0, 0, 0, 0⟩, ⟨0, 0, 0, 0⟩, 0, ⟨0, 0, 0, 0⟩⟩

/-- The columns of a trace, row by row, and the root of every path.  The assertions of the source
are errors here, in its order; the rows behind the last path go on permuting the state. -/
def buildTraceMultiRaw (openings : Openings) (logSize : ℕ) :
    Except String (List MainRow × List (Quad ℕ)) :=
  let numPaths := openings.leaves.length
  if numPaths < 1 then .error "need ≥ 1 path"
  else if openings.sibs.length ≠ numPaths then .error "assertion failed: sibs.len() == num_paths"
  else if openings.bits.length ≠ numPaths then .error "assertion failed: bits.len() == num_paths"
  else if ¬ openings.depths.all (1 ≤ ·) then .error "every depth must be ≥ 1"
  else if ¬ (openings.bits.zip openings.depths).all (fun pair => pair.1.length = pair.2) then
    .error "each path's bits must match its sibling count"
  else if 2 ^ logSize < (layout openings.depths).length * 22 then
    .error "paths exceed trace capacity"
  else
    let filled := openings.fillCompressions
    let rounds := filled.rows ++
      paddingRows filled.carryState (2 ^ logSize - (layout openings.depths).length * 22)
    .ok (rounds.zipIdx.map fun entry =>
      mainRow entry.1 (if entry.2 % 22 = 0 then filled.heads[entry.2 / 22]? else none),
      filled.roots)

/-! ## The loop over the compressions -/

section Loop

variable (openings : Openings) (indices : List ℕ) (roots : List (Quad ℕ))

namespace Openings

/-- The pinned paths of openings. -/
def paths : Paths := ⟨openings.leaves, indices, roots, openings.depths⟩

def siblings (path : ℕ) : List (Quad M31) := (openings.sibs.getD path []).map Stwo.residues

/-- The root that a path reaches. -/
def root (path : ℕ) : Quad ℕ :=
  Stwo.merklePathRootT8 (openings.leaf path) (openings.sibs.getD path [])
    (openings.bits.getD path [])

/-- The bits are the lowest digits of the indices. -/
def Indexed : Prop := ∀ path sibs, openings.sibs[path]? = some sibs →
  openings.bits.getD path [] = Merkle.indexBits sibs.length (indices.getD path 0)

/-- The operands of a compression. -/
def raw (k : ℕ) : State M31 := honestRaw (openings.paths indices roots) openings.siblings k

/-- The node above a compression. -/
def above (k : ℕ) : Quad M31 :=
  (roundsFrom (columnConstant M31) (openings.raw indices roots k) 22).left

def head (k : ℕ) : Head :=
  let place := compressionAt (openings.paths indices roots) k
  ⟨Stwo.words (honestNode (openings.paths indices roots) openings.siblings k),
    Stwo.words (honestSib (openings.paths indices roots) openings.siblings k),
    honestBit (openings.paths indices roots) k,
    if place.2 = 0 then openings.leaf place.1 else ⟨0, 0, 0, 0⟩⟩

/-- A root is collected behind the last compression of its path. -/
def collected (k : ℕ) : Option (Quad ℕ) :=
  let place := compressionAt (openings.paths indices roots) k
  if place.2 = openings.depths.getD place.1 0 - 1 then
    some (Stwo.words (openings.above indices roots k))
  else none

/-- What the loop has filled after some compressions. -/
structure Reached (filled : Filled) (k : ℕ) : Prop where
  rows_eq : filled.rows = (List.range k).flatMap fun i =>
    (roundRows ((external (openings.raw indices roots i)).map ZMod.val)).1
  heads_eq : filled.heads = (List.range k).map (openings.head indices roots)
  carry_eq : filled.carryState =
    (honestIn (openings.raw indices roots) k (22 * k)).map ZMod.val
  cur_eq : ∀ i, k = i + 1 → filled.cur = Stwo.words (openings.above indices roots i)
  roots_eq : filled.roots = (List.range k).filterMap (openings.collected indices roots)

end Openings

variable {openings indices roots} {path d j : ℕ}

theorem sibs_of_depths (found : openings.depths[path]? = some d) :
    ∃ sibs, openings.sibs[path]? = some sibs ∧ sibs.length = d := by
  rw [Openings.depths, List.getElem?_map, Option.map_eq_some_iff] at found
  exact found

theorem getD_residues (list : List (Quad ℕ)) (j : ℕ) :
    (list.map Stwo.residues).getD j ⟨0, 0, 0, 0⟩ =
      Stwo.residues (list.getD j ⟨0, 0, 0, 0⟩) := by
  rw [List.getD_eq_getElem?_getD, List.getD_eq_getElem?_getD, List.getElem?_map]
  cases list[j]? with
  | none => ext <;> simp [Stwo.residues]
  | some quad => rfl

theorem siblings_length (found : openings.depths[path]? = some d) :
    (openings.siblings path).length = d := by
  rcases sibs_of_depths found with ⟨sibs, listed, length⟩
  rw [Openings.siblings, List.getD_eq_getElem?_getD, listed, Option.getD_some, List.length_map,
    length]

theorem Openings.Indexed.bit_eq (indexed : openings.Indexed indices)
    (found : openings.depths[path]? = some d) (inside : j < d) :
    openings.bit path j = decide (indices.getD path 0 / 2 ^ j % 2 = 1) := by
  rcases sibs_of_depths found with ⟨sibs, listed, length⟩
  have bits := indexed path sibs listed
  have within : j < (Merkle.indexBits sibs.length (indices.getD path 0)).length := by
    rw [Merkle.indexBits_length, length]
    exact inside
  rw [Openings.bit, bits, List.getD_eq_getElem?_getD, List.getElem?_eq_getElem within,
    Option.getD_some]
  exact Merkle.indexBits_get _ _ _ within

section Step

variable {k : ℕ} (found : openings.depths[path]? = some d) (inside : j < d)
  (place : k = start openings.depths path + j)

include found inside place

theorem compressionAt_paths :
    compressionAt (openings.paths indices roots) k = (path, j) := by
  rw [place]
  exact compressionAt_start found inside

theorem sib_words : Stwo.norm4 (openings.sib path j) =
    Stwo.words (honestSib (openings.paths indices roots) openings.siblings k) := by
  rw [honestSib, compressionAt_paths found inside place, Openings.siblings, getD_residues,
    Stwo.words_residues]
  rfl

theorem Openings.Indexed.honestBit (indexed : openings.Indexed indices) :
    openings.bit path j = MerklePathT8.honestBit (openings.paths indices roots) k := by
  rw [MerklePathT8.honestBit, compressionAt_paths found inside place, indexed.bit_eq found inside]
  rfl

/-- The operands as the builder selects them. -/
theorem Openings.Indexed.raw8 (indexed : openings.Indexed indices) :
    (if openings.bit path j then
        State.ofQuads (Stwo.norm4 (openings.sib path j)) (Stwo.words
          (honestNode (openings.paths indices roots) openings.siblings k))
      else State.ofQuads (Stwo.words
          (honestNode (openings.paths indices roots) openings.siblings k))
        (Stwo.norm4 (openings.sib path j))) =
      (openings.raw indices roots k).map ZMod.val := by
  have bit : _ = MerklePathT8.honestBit (openings.paths indices roots) k :=
    indexed.honestBit found inside place
  rw [Openings.raw, honestRaw, ← bit, childSelect_digit, sib_words found inside place]
  cases openings.bit path j <;> rfl

/-- The node that a compression starts from. -/
theorem Openings.Reached.node {filled : Filled}
    (reached : openings.Reached indices roots filled k) :
    (if j = 0 then Stwo.norm4 (openings.leaf path) else filled.cur) =
      Stwo.words (honestNode (openings.paths indices roots) openings.siblings k) := by
  rw [honestNode, compressionAt_paths found inside place]
  cases j with
  | zero => exact (Stwo.words_residues _).symm
  | succ j =>
      have earlier : j < d := by omega
      have climbed : openings.above indices roots (start openings.depths path + j) =
          nodeAfter (openings.paths indices roots) openings.siblings path (j + 1) :=
        honestNode_succ found earlier (siblings_length found)
      have cur := reached.cur_eq (start openings.depths path + j) place
      rw [if_neg (Nat.succ_ne_zero j), cur, climbed]

theorem Openings.Indexed.reached_succ (indexed : openings.Indexed indices) {filled : Filled}
    (reached : openings.Reached indices roots filled k) :
    openings.Reached indices roots (openings.fillCompression filled (path, j)) (k + 1) := by
  have node := reached.node found inside place
  have raw : _ = State.map ZMod.val (openings.raw indices roots k) :=
    indexed.raw8 found inside place
  have position : compressionAt (openings.paths indices roots) k = (path, j) :=
    compressionAt_paths found inside place
  have sib : Stwo.norm4 (openings.sib path j) =
      Stwo.words (honestSib (openings.paths indices roots) openings.siblings k) :=
    sib_words found inside place
  have bit : openings.bit path j =
      MerklePathT8.honestBit (openings.paths indices roots) k :=
    indexed.honestBit found inside place
  have linear := Stwo.matExternal_map (openings.raw indices roots k)
  have after : (roundRows ((external (openings.raw indices roots k)).map ZMod.val)).2 =
      (roundsFrom (columnConstant M31) (openings.raw indices roots k) 22).map ZMod.val :=
    roundRows_state _
  have above : ((roundRows ((external (openings.raw indices roots k)).map ZMod.val)).2).left =
      Stwo.words (openings.above indices roots k) := by
    rw [after, State.map_left, Stwo.words, Openings.above]
  constructor
  · rw [List.range_succ, List.flatMap_append, List.flatMap_singleton, ← reached.rows_eq]
    simp only [Openings.fillCompression, node, raw, linear]
  · rw [List.range_succ, List.map_append, List.map_singleton, ← reached.heads_eq]
    simp only [Openings.fillCompression, Openings.head, position, node, sib, bit]
  · have last : honestOut (openings.raw indices roots) (k + 1) (22 * k + 21) =
        roundsFrom (columnConstant M31) (openings.raw indices roots k) 22 :=
      honestOut_round (openings.raw indices roots) (Nat.lt_succ_self k) (by omega)
    have before : 22 * (k + 1) - 1 = 22 * k + 21 := by omega
    rw [honestIn, if_neg (by omega), before, last, ← after]
    simp only [Openings.fillCompression, node, raw, linear]
  · intro i same
    have own : i = k := (Nat.succ.inj same).symm
    rw [own, ← above]
    simp only [Openings.fillCompression, node, raw, linear]
  · rw [List.range_succ, List.filterMap_append, ← reached.roots_eq]
    simp only [Openings.fillCompression, Openings.collected, position, node, raw, linear, above,
      List.filterMap_cons, List.filterMap_nil]
    split
    case isTrue => rfl
    case isFalse => rw [List.append_nil]

end Step

theorem Openings.Indexed.reached (indexed : openings.Indexed indices) {k : ℕ}
    (inside : k ≤ openings.depths.sum) :
    openings.Reached indices roots (((layout openings.depths).take k).foldl
      openings.fillCompression ⟨[], [], ⟨0, 0, 0, 0⟩, zeroState, []⟩) k := by
  induction k with
  | zero =>
      constructor
      · rfl
      · rfl
      · rfl
      · intro i impossible
        cases impossible
      · rfl
  | succ k ih =>
      rcases place_of_lt (Nat.lt_of_succ_le inside) with ⟨path, d, j, found, within, place⟩
      have listed := layout_getElem? found within
      rw [← place] at listed
      rw [List.take_add_one, listed, Option.toList_some, List.foldl_append, List.foldl_cons,
        List.foldl_nil]
      exact indexed.reached_succ found within place (ih (Nat.le_of_succ_le inside))

theorem Openings.Indexed.fillCompressions (indexed : openings.Indexed indices) :
    openings.Reached indices roots openings.fillCompressions openings.depths.sum := by
  have whole : openings.Reached indices roots _ _ := indexed.reached le_rfl
  rwa [List.take_of_length_le (by rw [layout_length])] at whole

/-- The last compression of a path reaches its root. -/
theorem above_last (indexed : openings.Indexed indices)
    (found : openings.depths[path]? = some d) (positive : 0 < d) :
    Stwo.words (openings.above indices roots (start openings.depths path + (d - 1))) =
      openings.root path := by
  rcases sibs_of_depths found with ⟨sibs, listed, length⟩
  have climbed : openings.above indices roots (start openings.depths path + (d - 1)) =
      nodeAfter (openings.paths indices roots) openings.siblings path (d - 1 + 1) :=
    honestNode_succ found (by omega) (siblings_length found)
  have depth : (openings.paths indices roots).depth path = d := depth_eq found
  rw [Nat.sub_add_cancel positive, nodeAfter, depth,
    List.take_of_length_le (by rw [siblings_length found]),
    List.take_of_length_le (by rw [Merkle.indexBits_length])] at climbed
  have bits := indexed path sibs listed
  rw [climbed, Openings.root, bits, length, Stwo.merklePathRootT8_eq_words]
  rfl

theorem layout_eq_map :
    layout openings.depths = (List.range openings.depths.sum).map
      (compressionAt (openings.paths indices roots)) := by
  apply List.ext_getElem
  · rw [layout_length, List.length_map, List.length_range]
  · intro k first second
    rw [List.getElem_map, List.getElem_range, compressionAt]
    exact (congrArg (fun found => found.getD (0, 0)) (List.getElem?_eq_getElem first)).symm

/-- The collected roots are those of the paths. -/
theorem roots_collected (indexed : openings.Indexed indices) (roots : List (Quad ℕ))
    (positive : ∀ d ∈ openings.depths, 0 < d) :
    (List.range openings.depths.sum).filterMap (openings.collected indices roots) =
      (List.range openings.depths.length).map openings.root := by
  have places : layout openings.depths = (List.range openings.depths.sum).map
      (compressionAt (openings.paths indices roots)) := layout_eq_map
  rw [← layout_filterMap_last positive, places, List.filterMap_map]
  apply List.filterMap_congr
  intro k member
  rcases place_of_lt (List.mem_range.mp member) with ⟨path, d, j, found, inside, place⟩
  have position : compressionAt (openings.paths indices roots) k = (path, j) :=
    compressionAt_paths found inside place
  have depth : openings.depths.getD path 0 = d := by
    rw [List.getD_eq_getElem?_getD, found, Option.getD_some]
  simp only [Openings.collected, Function.comp_apply, position, depth]
  split
  case isTrue last =>
    rw [place, last, above_last indexed found (by omega)]
  case isFalse => rfl

end Loop

/-! ## The filled trace -/

/-- What the assertions of the builder ask for. -/
structure Openings.Valid (openings : Openings) (logSize : ℕ) : Prop where
  nonempty : 1 ≤ openings.leaves.length
  sibs_length : openings.sibs.length = openings.leaves.length
  bits_length : openings.bits.length = openings.leaves.length
  depths : ∀ d ∈ openings.depths, 1 ≤ d ∧ d ≤ maxDepth
  bits_match : openings.bits.map List.length = openings.depths
  fits : openings.depths.sum * 22 ≤ 2 ^ logSize

section Trace

variable (openings : Openings) (indices : List ℕ) (roots : List (Quad ℕ))

/-- A row of the filled trace. -/
def Openings.builtRow (row : ℕ) : MainRow :=
  mainRow ((honestRoundRow (openings.raw indices roots) openings.depths.sum row).map ZMod.val)
    (if row % 22 = 0 ∧ row / 22 < openings.depths.sum then
      some (openings.head indices roots (row / 22)) else none)

variable {openings indices roots} {logSize : ℕ}

theorem Openings.Valid.depths_length (valid : openings.Valid logSize) :
    openings.depths.length = openings.leaves.length := by
  rw [Openings.depths, List.length_map, valid.sibs_length]

theorem Openings.Valid.bits_all (valid : openings.Valid logSize) :
    (openings.bits.zip openings.depths).all (fun pair => pair.1.length = pair.2) = true := by
  rw [← valid.bits_match, List.all_eq_true]
  intro pair member
  rcases List.mem_iff_getElem.mp member with ⟨i, inside, rfl⟩
  simp only [List.getElem_zip, List.getElem_map, decide_true]

/-- The filled rows and the padding behind them, with the heads of the compressions. -/
theorem Openings.Indexed.filled_rows (indexed : openings.Indexed indices) (roots : List (Quad ℕ))
    (fits : openings.depths.sum * 22 ≤ 2 ^ logSize) :
    ((openings.fillCompressions.rows ++ paddingRows openings.fillCompressions.carryState
        (2 ^ logSize - openings.depths.sum * 22)).zipIdx.map fun entry =>
      mainRow entry.1 (if entry.2 % 22 = 0 then openings.fillCompressions.heads[entry.2 / 22]?
        else none)) =
      (List.range (2 ^ logSize)).map (openings.builtRow indices roots) := by
  have reached : openings.Reached indices roots _ _ := indexed.fillCompressions
  have filled := filledRows (openings.raw indices roots) (Nat.mul_comm 22 _ ▸ fits)
  rw [← reached.rows_eq, ← reached.carry_eq, Nat.mul_comm 22] at filled
  rw [filled, reached.heads_eq]
  apply List.ext_getElem
  · simp
  · intro row first second
    simp only [List.getElem_map, List.getElem_zipIdx, List.getElem_range, Nat.zero_add,
      Openings.builtRow]
    congr 1
    by_cases begins : row % 22 = 0
    · rw [if_pos begins, List.getElem?_map]
      by_cases inside : row / 22 < openings.depths.sum
      · rw [List.getElem?_range inside, if_pos ⟨begins, inside⟩, Option.map_some]
      · rw [List.getElem?_eq_none (by simpa using inside), if_neg fun both => inside both.2,
          Option.map_none]
    · rw [if_neg begins, if_neg fun both => begins both.1]

theorem Openings.Indexed.filled_roots (indexed : openings.Indexed indices)
    (positive : ∀ d ∈ openings.depths, 0 < d) :
    openings.fillCompressions.roots = (List.range openings.depths.length).map openings.root := by
  have reached : openings.Reached indices [] _ _ := indexed.fillCompressions
  rw [reached.roots_eq, roots_collected indexed [] positive]

theorem Openings.Valid.build_eq (valid : openings.Valid logSize)
    (indexed : openings.Indexed indices) (roots : List (Quad ℕ)) :
    buildTraceMultiRaw openings logSize =
      .ok ((List.range (2 ^ logSize)).map (openings.builtRow indices roots),
        (List.range openings.leaves.length).map openings.root) := by
  have positive : ∀ d ∈ openings.depths, 0 < d := fun d member => (valid.depths d member).1
  have depths_all : openings.depths.all (1 ≤ ·) = true := by
    rw [List.all_eq_true]
    intro d member
    exact decide_eq_true (positive d member)
  have collected := indexed.filled_roots positive
  rw [valid.depths_length] at collected
  rw [buildTraceMultiRaw]
  dsimp only
  rw [if_neg (by have := valid.nonempty; omega), if_neg (by simp [valid.sibs_length]),
    if_neg (by simp [valid.bits_length]),
    if_neg (by simp only [depths_all, not_true, not_false_iff]),
    if_neg (by simp only [valid.bits_all, not_true, not_false_iff]), layout_length,
    if_neg (by have := valid.fits; omega), collected, indexed.filled_rows roots valid.fits]

/-- Rows of the filled trace, zeros behind the last. -/
def traceRow (rows : List MainRow) (row : ℕ) : MainRow :=
  rows.getD row (mainRow ⟨zeroState, zeroState, zeroState, zeroState⟩ none)

theorem traceRow_eq {row : ℕ} (inside : row < 2 ^ logSize) :
    traceRow ((List.range (2 ^ logSize)).map (openings.builtRow indices roots)) row =
      openings.builtRow indices roots row := by
  rw [traceRow, List.getD_eq_getElem?_getD, List.getElem?_map, List.getElem?_range inside,
    Option.map_some, Option.getD_some]

theorem quad_m31_words (quad : Quad M31) : (Stwo.words quad).map m31 = quad := by
  rw [map_m31, Stwo.residues_words]

/-- The round columns do not depend on the head of a row. -/
theorem mainRow_rounds (round : RoundRow M31) (head : Option Head) :
    (mainRow (round.map ZMod.val) head).inp = round.inp ∧
      (mainRow (round.map ZMod.val) head).sq = round.sq ∧
      (mainRow (round.map ZMod.val) head).sbox = round.sbox ∧
      (mainRow (round.map ZMod.val) head).out = round.out := by
  cases head with
  | none => exact ⟨map_m31_val _, map_m31_val _, map_m31_val _, map_m31_val _⟩
  | some head => exact ⟨map_m31_val _, map_m31_val _, map_m31_val _, map_m31_val _⟩

theorem preprocRow_rc (fits : openings.depths.sum * 22 ≤ 2 ^ logSize) (row : ℕ) :
    ((openings.paths indices roots).preprocRow logSize row).rc =
      if row < 22 * openings.depths.sum then scheduledConstants M31 (row % 22)
      else zeroState := by
  split
  case isTrue before =>
    rcases @row_position (openings.paths indices roots) row before with
      ⟨path, d, j, found, inside, -, position⟩
    have read := preprocRow_eq found inside (Nat.mod_lt row (by omega : 22 > 0))
      (room found fits)
    rw [← position] at read
    have scheduled := @compressionRow_scheduled (openings.paths indices roots) path j (row % 22)
      (openings.builtRow indices roots row)
    rw [read]
    exact scheduled.rc_eq
  case isFalse after =>
    rw [preprocRow_idle (by
      have := Nat.not_lt.mp after
      exact (Nat.mul_comm _ _).trans_le this)]
    rfl

/-- The filled rows are those of an honest lane. -/
theorem built_lane (fits : openings.depths.sum * 22 ≤ 2 ^ logSize) {main : ℕ → MainRow}
    (filled : ∀ row < 2 ^ logSize, main row = openings.builtRow indices roots row) {row : ℕ}
    (inside : row < 2 ^ logSize) :
    (main row).lane (main (previousRow logSize row)) =
      honestLane (openings.raw indices roots) (fun row => (main row).cur)
        (fun row => (main row).leaf) openings.depths.sum
        (((openings.paths indices roots).preprocRow logSize row).shared (main row)) row
        (previousRow logSize row) := by
  have previous : previousRow logSize row < 2 ^ logSize := Nat.mod_lt _ (Nat.two_pow_pos _)
  have rounds (row : ℕ) := mainRow_rounds
    (honestRoundRow (openings.raw indices roots) openings.depths.sum row)
    (if row % 22 = 0 ∧ row / 22 < openings.depths.sum then
      some (openings.head indices roots (row / 22)) else none)
  apply eq_honestLane
  · exact preprocRow_rc fits row
  · rcases rounds row with ⟨inp, sq, sbox, out⟩
    rw [filled row inside, Openings.builtRow, MainRow.lane, inp, sq, sbox, out]
  · rw [filled _ previous]
    exact (rounds _).2.2.2
  · rfl
  · rfl

theorem built_carries (fits : openings.depths.sum * 22 ≤ 2 ^ logSize) {main : ℕ → MainRow}
    (filled : ∀ row < 2 ^ logSize, main row = openings.builtRow indices roots row) :
    Carries (openings.paths indices roots) openings.siblings main := by
  have first {k : ℕ} (below : k < openings.depths.sum) : main (22 * k) =
      mainRow ((honestRoundRow (openings.raw indices roots) openings.depths.sum (22 * k)).map
        ZMod.val) (some (openings.head indices roots k)) := by
    have inside : 22 * k < 2 ^ logSize := by omega
    have block : 22 * k / 22 = k := Nat.mul_div_cancel_left k (by omega)
    rw [filled _ inside, Openings.builtRow, block, if_pos ⟨Nat.mul_mod_right 22 k, below⟩]
  constructor
  · intro k below
    rw [first below]
    exact quad_m31_words _
  · intro k below
    rw [first below]
    simp only [mainRow, Openings.head, m31_eq_cast, Nat.cast_one]
  · intro k below
    rw [first below]
    exact quad_m31_words _
  · intro k below starts
    rw [first below]
    simp only [mainRow, Openings.head, if_pos starts]
    exact map_m31 _

theorem Openings.opens (indexed : openings.Indexed indices)
    (lengths : openings.depths.length = openings.leaves.length)
    (reached : ∀ path < openings.leaves.length,
      Stwo.norm4 (roots.getD path ⟨0, 0, 0, 0⟩) = openings.root path) :
    Opens (openings.paths indices roots) openings.siblings where
  length_eq := fun _ _ found => siblings_length found
  root_eq := by
    intro path d found
    rcases sibs_of_depths found with ⟨sibs, listed, length⟩
    have inside : path < openings.leaves.length := by
      rw [← lengths]
      exact (List.getElem?_eq_some_iff.mp found).1
    have same := congrArg Stwo.residues (reached path inside)
    rw [Stwo.residues_norm4, Openings.root, indexed path sibs listed, length,
      Stwo.merklePathRootT8_eq_words, Stwo.residues_words] at same
    exact same.symm

theorem indexed_positions (openings : Openings)
    (bits_match : openings.bits.map List.length = openings.depths) :
    openings.Indexed (openings.bits.map Merkle.position) := by
  intro path sibs listed
  have depth : openings.depths[path]? = some sibs.length := by
    rw [Openings.depths, List.getElem?_map, listed, Option.map_some]
  rw [← bits_match, List.getElem?_map, Option.map_eq_some_iff] at depth
  rcases depth with ⟨bits, found, length⟩
  rw [List.getD_eq_getElem?_getD, List.getD_eq_getElem?_getD, List.getElem?_map, found,
    Option.map_some, Option.getD_some, Option.getD_some, ← length, Merkle.indexBits_position]

end Trace

/-! ## The circuit proves exactly the paths -/

/-- Paths that fit, of depths the circuit supports. -/
structure Paths.WellFormed (paths : Paths) (logSize : ℕ) : Prop where
  nonempty : 1 ≤ paths.leaves.length
  indices_length : paths.leaves.length = paths.indices.length
  roots_length : paths.leaves.length = paths.roots.length
  depths_length : paths.leaves.length = paths.depths.length
  depths : ∀ d ∈ paths.depths, 1 ≤ d ∧ d ≤ maxDepth
  fits : paths.depths.sum * 22 ≤ 2 ^ logSize

theorem Openings.Valid.wellFormed {openings : Openings} {indices : List ℕ}
    {roots : List (Quad ℕ)} {logSize : ℕ} (valid : openings.Valid logSize)
    (indices_length : indices.length = openings.leaves.length)
    (roots_length : roots.length = openings.leaves.length) :
    (openings.paths indices roots).WellFormed logSize :=
  ⟨valid.nonempty, indices_length.symm, roots_length.symm, valid.depths_length.symm, valid.depths,
    valid.fits⟩

/-- Siblings, words of `u64`, with which a path climbs to its root. -/
structure Paths.Climbs (paths : Paths) (path : ℕ) (sibs : List (Quad ℕ)) : Prop where
  length_eq : sibs.length = paths.depth path
  words : ∀ sib ∈ sibs, sib.All (· < Stwo.u64Modulus)
  root_eq : Stwo.merklePathRootT8 (paths.leaf path) sibs
    (Merkle.indexBits (paths.depth path) (paths.index path)) = Stwo.norm4 (paths.root path)

section Exactness

variable {paths : Paths} {logSize : ℕ}

theorem Paths.WellFormed.preproc (wellFormed : paths.WellFormed logSize) :
    paths.buildPreprocMultiVar logSize = .ok (paths.preprocRow logSize) := by
  have all : paths.depths.all (1 ≤ ·) = true := by
    rw [List.all_eq_true]
    intro d member
    exact decide_eq_true (wellFormed.depths d member).1
  rw [Paths.buildPreprocMultiVar, if_neg (not_not.mpr wellFormed.indices_length),
    if_neg (not_not.mpr wellFormed.roots_length), if_neg (not_not.mpr wellFormed.depths_length),
    if_neg (not_not.mpr all)]

theorem Paths.WellFormed.found (wellFormed : paths.WellFormed logSize) {path : ℕ}
    (inside : path < paths.leaves.length) :
    paths.depths[path]? = some (paths.depth path) ∧ 1 ≤ paths.depth path ∧
      paths.depth path ≤ maxDepth := by
  rw [wellFormed.depths_length] at inside
  have listed : paths.depths[path]? = some paths.depths[path] := List.getElem?_eq_getElem inside
  have depth := depth_eq listed
  rw [depth]
  exact ⟨listed, wellFormed.depths _ (List.getElem_mem inside)⟩

theorem Paths.WellFormed.sum_pos (wellFormed : paths.WellFormed logSize) :
    0 < paths.depths.sum := by
  rcases wellFormed.found (Nat.lt_of_lt_of_le Nat.zero_lt_one wellFormed.nonempty) with
    ⟨found, positive, -⟩
  have within := start_add_le found
  omega

/-- A satisfying trace holds siblings for every path. -/
theorem Satisfies.climbs (wellFormed : paths.WellFormed logSize) {main : ℕ → MainRow}
    (satisfied : Satisfies main (paths.preprocRow logSize) logSize) {path : ℕ}
    (inside : path < paths.leaves.length) :
    paths.Climbs path ((siblingsOf main paths.depths path (paths.depth path)).map Stwo.words) := by
  rcases wellFormed.found inside with ⟨found, positive, bounded⟩
  have narrow : paths.depth path ≤ 32 := bounded.trans (by decide)
  have climbed := satisfied.path_root found (room found wellFormed.fits) positive (.inl narrow)
  constructor
  · rw [List.length_map, siblingsOf, List.length_map, List.length_range]
  · intro sib member
    rcases List.mem_map.mp member with ⟨quad, -, rfl⟩
    have small (value : M31) : value.val < Stwo.u64Modulus :=
      (Stwo.val_lt_P value).trans (by decide)
    exact ⟨small _, small _, small _, small _⟩
  · have residues : ((siblingsOf main paths.depths path (paths.depth path)).map Stwo.words).map
        Stwo.residues = siblingsOf main paths.depths path (paths.depth path) := by
      rw [List.map_map]
      exact List.map_id'' Stwo.residues_words _
    rw [Stwo.merklePathRootT8_eq_words, residues, climbed, Stwo.words_residues]

/-- Siblings for every path are the content of a satisfying trace. -/
theorem Paths.WellFormed.exists_satisfies (wellFormed : paths.WellFormed logSize)
    (climbs : ∀ path < paths.leaves.length, ∃ sibs, paths.Climbs path sibs) :
    ∃ main, Satisfies main (paths.preprocRow logSize) logSize := by
  choose! sibs holds using climbs
  have opens : Opens paths fun path => (sibs path).map Stwo.residues := by
    have listed {path d : ℕ} (found : paths.depths[path]? = some d) :
        paths.Climbs path (sibs path) ∧ paths.depth path = d := by
      have inside : path < paths.leaves.length := by
        rw [wellFormed.depths_length]
        exact (List.getElem?_eq_some_iff.mp found).1
      exact ⟨holds path inside, depth_eq found⟩
    constructor
    · intro path d found
      rcases listed found with ⟨climb, depth⟩
      rw [List.length_map, climb.length_eq, depth]
    · intro path d found
      rcases listed found with ⟨climb, depth⟩
      have root := congrArg Stwo.residues climb.root_eq
      rw [Stwo.merklePathRootT8_eq_words, Stwo.residues_words, Stwo.residues_norm4, depth] at root
      exact root
  exact ⟨_, opens.honestMain_satisfies wellFormed.fits
    (fun d member => (wellFormed.depths d member).2.trans (by decide)) wellFormed.sum_pos⟩

end Exactness

/-- The filled trace satisfies the circuit against the roots the builder returns. -/
theorem Openings.Valid.built_satisfies {openings : Openings} {logSize : ℕ}
    (valid : openings.Valid logSize) {roots : List (Quad ℕ)}
    (count : roots.length = openings.leaves.length)
    (reached : ∀ path < openings.leaves.length,
      Stwo.norm4 (roots.getD path ⟨0, 0, 0, 0⟩) = openings.root path) :
    ∃ rows, buildTraceMultiRaw openings logSize =
        .ok (rows, (List.range openings.leaves.length).map openings.root) ∧
      Satisfies (traceRow rows) ((openings.paths (openings.bits.map Merkle.position)
        roots).preprocRow logSize) logSize := by
  have indexed := indexed_positions openings valid.bits_match
  have positions : (openings.bits.map Merkle.position).length = openings.leaves.length := by
    rw [List.length_map, valid.bits_length]
  have wellFormed := valid.wellFormed positions count
  refine ⟨_, valid.build_eq indexed roots, ?_⟩
  exact (openings.opens indexed valid.depths_length reached).satisfies
    (built_carries valid.fits fun row inside => traceRow_eq inside)
    (fun row inside => built_lane valid.fits (fun row inside => traceRow_eq inside) inside)
    valid.fits (fun d member => (valid.depths d member).2.trans (by decide)) wellFormed.sum_pos

/-- The circuit is satisfiable exactly for paths that exist, and the builder fills such a trace
and returns the roots of the paths it is given.  Paths of different depths share the trace.  The
second part is about any indices and roots with these digits and residues, since words beyond the
modulus are pinned as field elements. -/
theorem paths_proved_exactly :
    (∀ (paths : Paths) (logSize : ℕ), paths.WellFormed logSize →
      ∃ preproc, paths.buildPreprocMultiVar logSize = .ok preproc ∧
        ((∃ main, Satisfies main preproc logSize) ↔
          ∀ path < paths.leaves.length, ∃ sibs, paths.Climbs path sibs)) ∧
    ∀ (openings : Openings) (logSize : ℕ), openings.Valid logSize →
      ∃ rows, buildTraceMultiRaw openings logSize =
          .ok (rows, (List.range openings.leaves.length).map openings.root) ∧
        rows.length = 2 ^ logSize ∧
        ∀ indices roots, indices.length = openings.leaves.length →
          roots.length = openings.leaves.length → openings.Indexed indices →
          (∀ path < openings.leaves.length,
            Stwo.norm4 (roots.getD path ⟨0, 0, 0, 0⟩) = openings.root path) →
          ∃ preproc, (openings.paths indices roots).buildPreprocMultiVar logSize = .ok preproc ∧
            Satisfies (traceRow rows) preproc logSize := by
  constructor
  · intro paths logSize wellFormed
    refine ⟨paths.preprocRow logSize, wellFormed.preproc, ?_, wellFormed.exists_satisfies⟩
    rintro ⟨main, satisfied⟩ path inside
    exact ⟨_, satisfied.climbs wellFormed inside⟩
  · intro openings logSize valid
    have positions := indexed_positions openings valid.bits_match
    refine ⟨_, valid.build_eq positions [], ?_, ?_⟩
    · rw [List.length_map, List.length_range]
    · intro indices roots indicesLength rootsLength indexed reached
      have wellFormed := valid.wellFormed indicesLength rootsLength
      have built := valid.build_eq positions []
      rw [valid.build_eq indexed roots] at built
      rw [Except.ok.injEq, Prod.mk.injEq] at built
      have filled : ∀ row < 2 ^ logSize,
          traceRow ((List.range (2 ^ logSize)).map (openings.builtRow
            (openings.bits.map Merkle.position) [])) row =
          openings.builtRow indices roots row := by
        intro row inside
        rw [← built.1, traceRow_eq inside]
      refine ⟨_, wellFormed.preproc, ?_⟩
      exact (openings.opens indexed valid.depths_length reached).satisfies (built_carries valid.fits filled)
        (fun row inside => built_lane valid.fits filled inside) valid.fits
        (fun d member => (valid.depths d member).2.trans (by decide)) wellFormed.sum_pos

theorem norm4_root (openings : Openings) (path : ℕ) :
    Stwo.norm4 (openings.root path) = openings.root path := by
  rw [Openings.root, Stwo.merklePathRootT8_eq_words]
  exact Stwo.norm4_eq_self (Stwo.words_canonical _)

/-- Two paths of different depths in one trace. -/
theorem mixed_depths_proved :
    let openings : Openings := ⟨[⟨1, 2, 3, 4⟩, ⟨5, 6, 7, 8⟩],
      [[⟨9, 9, 9, 9⟩], [⟨1, 1, 1, 1⟩, ⟨2, 2, 2, 2⟩]], [[true], [false, true]]⟩
    let paths := openings.paths [1, 2] ((List.range 2).map openings.root)
    ∃ preproc rows, paths.buildPreprocMultiVar 7 = .ok preproc ∧
      ((∃ main, Satisfies main preproc 7) ↔ ∀ path < 2, ∃ sibs, paths.Climbs path sibs) ∧
      buildTraceMultiRaw openings 7 = .ok (rows, (List.range 2).map openings.root) ∧
      Satisfies (traceRow rows) preproc 7 := by
  intro openings paths
  have valid : openings.Valid 7 := ⟨by decide, rfl, rfl, by decide, rfl, by decide⟩
  have lengths : ((List.range 2).map openings.root).length = openings.leaves.length := by
    rw [List.length_map, List.length_range]
    rfl
  have wellFormed : paths.WellFormed 7 := valid.wellFormed rfl lengths
  have indexed : openings.Indexed [1, 2] := indexed_positions openings rfl
  rcases paths_proved_exactly.1 paths 7 wellFormed with ⟨preproc, prebuilt, equivalent⟩
  rcases paths_proved_exactly.2 openings 7 valid with ⟨rows, built, -, satisfied⟩
  have reached : ∀ path < 2, Stwo.norm4 (((List.range 2).map openings.root).getD path
      ⟨0, 0, 0, 0⟩) = openings.root path := by
    intro path inside
    rw [List.getD_eq_getElem?_getD, List.getElem?_map, List.getElem?_range inside,
      Option.map_some, Option.getD_some, norm4_root]
  rcases satisfied _ _ rfl lengths indexed reached with ⟨own, ownBuilt, holds⟩
  rw [prebuilt, Except.ok.injEq] at ownBuilt
  rw [← ownBuilt] at holds
  exact ⟨preproc, rows, prebuilt, equivalent, built, holds⟩

end MerklePathT8
end Recursive
end QLSA
