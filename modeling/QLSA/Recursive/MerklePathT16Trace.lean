import QLSA.Recursive.MerklePathT16Air
import QLSA.Recursive.RoundTrace

namespace QLSA
namespace Recursive
namespace MerklePathT16

open Hash Mersenne Machine Matrix
open Stwo (constantT16 roundConstantT16 matExternalT16 matInternalT16 m31Add m31Mul sbox lift)

/-!
# The trace builder at width sixteen

The builder replays every compression in machine words, one row for a round.
On representatives of field elements the words of a row are the round of the
field, so the loop over the compressions is followed by one state: the
permutation output behind each compression.  From it the whole trace is read
off row by row, and every row satisfies the constraints of the circuit.
-/

/-! ## Rows of words -/

/-- The four round columns of a row. -/
structure RoundRow where
  inp : Cells ℕ
  sq : Cells ℕ
  sbox : Cells ℕ
  out : Cells ℕ

/-- The cells that the first row of a compression fills beside its round. -/
structure Head where
  cur : Fin 8 → ℕ
  sib : Fin 8 → ℕ
  bit : Bool
  leaf : Fin 8 → ℕ

def Head.blank : Head := ⟨fun _ => 0, fun _ => 0, false, fun _ => 0⟩

def roundRow (inp : Cells ℕ) (r : ℕ) : RoundRow :=
  let rc := (roundSchedule r).2
  let sq := Cells.of fun i => m31Mul (m31Add (inp.get i) (rc i)) (m31Add (inp.get i) (rc i))
  let sbx := Cells.of fun i => sbox (m31Add (inp.get i) (rc i))
  let out := if (roundSchedule r).1 then matExternalT16 sbx
    else matInternalT16 (Cells.of (Function.update inp.get 0 (sbx.get 0)))
  ⟨inp, sq, sbx, out⟩

/-- A row without selectors, which continues the chain. -/
def paddingRow (inp : Cells ℕ) : RoundRow :=
  ⟨inp, Cells.of fun i => m31Mul (inp.get i) (inp.get i), Cells.of fun i => sbox (inp.get i),
    Cells.of fun _ => 0⟩

/-- The main columns of a row. -/
def mainRow (round : RoundRow) (head : Head) : MainRow where
  inp := fun i => m31 (round.inp.get i)
  sq := fun i => m31 (round.sq.get i)
  sbox := fun i => m31 (round.sbox.get i)
  out := fun i => m31 (round.out.get i)
  cur := fun k => m31 (head.cur k)
  sib := fun k => m31 (head.sib k)
  bit := if head.bit then m31 1 else 0
  leaf := fun k => m31 (head.leaf k)

/-- The rows of a permutation, and the state after it. -/
def roundRows (head : Head) (count : ℕ) (state : Cells ℕ) : List MainRow × Cells ℕ :=
  (List.range count).foldl (fun filled r =>
    let row := roundRow filled.2 r
    (filled.1 ++ [mainRow row (if r = 0 then head else .blank)], row.out)) ([], state)

def paddingRows : Cells ℕ → ℕ → List MainRow
  | _, 0 => []
  | carry, count + 1 =>
      mainRow (paddingRow carry) .blank :: paddingRows (Cells.of fun _ => 0) count

/-! ## The builder -/

/-- Leaves, siblings and direction bits of paths of one depth. -/
structure Openings where
  leaves : List (Fin 8 → ℕ)
  sibs : List (List (Fin 8 → ℕ))
  bits : List (List Bool)

/-- What the loop over the compressions has filled. -/
structure Filled where
  rows : List MainRow
  cur : Fin 8 → ℕ
  carryState : Cells ℕ
  roots : List (Fin 8 → ℕ)

namespace Openings

variable (openings : Openings)

def depth : ℕ := (openings.sibs.getD 0 []).length

def leaf (path : ℕ) : Fin 8 → ℕ := openings.leaves.getD path fun _ => 0

def sib (path j : ℕ) : Fin 8 → ℕ := (openings.sibs.getD path []).getD j fun _ => 0

def bit (path j : ℕ) : Bool := (openings.bits.getD path []).getD j false

/-- One compression of the layout. -/
def fillCompression (filled : Filled) (comp : ℕ) : Filled :=
  let path := comp / openings.depth
  let j := comp % openings.depth
  let cur := if j = 0 then norm8 (openings.leaf path) else filled.cur
  let sib := norm8 (openings.sib path j)
  let bit := openings.bit path j
  let raw16 := if bit then Stwo.joinCells sib cur else Stwo.joinCells cur sib
  let head : Head := ⟨cur, sib, bit, if j = 0 then openings.leaf path else fun _ => 0⟩
  let rounds := roundRows head 22 (matExternalT16 raw16)
  let node := leftNode rounds.2.get
  ⟨filled.rows ++ rounds.1, node, rounds.2,
    if j = openings.depth - 1 then filled.roots ++ [node] else filled.roots⟩

def fillCompressions (count : ℕ) : Filled :=
  (List.range count).foldl openings.fillCompression
    ⟨[], fun _ => 0, Cells.of fun _ => 0, []⟩

end Openings

/-- The main columns, row by row, and the root of every path. -/
def buildTraceMulti (openings : Openings) (logSize : ℕ) :
    Except String (List MainRow × List (Fin 8 → ℕ)) :=
  let numPaths := openings.leaves.length
  if ¬ 1 ≤ numPaths then .error "need ≥ 1 path"
  else if openings.sibs.length ≠ numPaths then .error "assertion failed: sibs.len() == num_paths"
  else if openings.bits.length ≠ numPaths then .error "assertion failed: bits.len() == num_paths"
  else if ¬ 1 ≤ openings.depth then .error "depth must be ≥ 1"
  else if ¬ openings.sibs.all (fun s => s.length = openings.depth) then
    .error "paths must share depth"
  else if ¬ openings.bits.all (fun b => b.length = openings.depth) then
    .error "paths must share depth"
  else if 2 ^ logSize < numPaths * openings.depth * 22 then .error "paths exceed trace capacity"
  else
    let filled := openings.fillCompressions (numPaths * openings.depth)
    .ok (filled.rows ++
      paddingRows filled.carryState (2 ^ logSize - numPaths * openings.depth * 22), filled.roots)

/-! ## Rows over the field -/

/-- The columns of a row, given the state before it, its constants and the
state after it. -/
def between (inp rc out : Fin 16 → M31) (head : Head) : MainRow where
  inp := inp
  sq := fun i => (inp i + rc i) * (inp i + rc i)
  sbox := fun i => (inp i + rc i) ^ 5
  out := out
  cur := residues head.cur
  sib := residues head.sib
  bit := if head.bit then 1 else 0
  leaf := residues head.leaf

section Words

variable (v : Fin 16 → M31) (r : ℕ)

theorem scheduled_val (i : Fin 16) : (roundSchedule r).2 i = (scheduled r i).val := by
  have canonical : Canonical ((roundSchedule r).2 i) := by
    unfold roundSchedule
    split
    case isTrue => exact Stwo.roundConstantT16_canonical _
    case isFalse =>
      split
      case isTrue =>
        dsimp only
        rw [Function.update_apply]
        split
        case isTrue => exact Stwo.roundConstantT16_canonical _
        case isFalse => exact P_prime.pos
      case isFalse => exact Stwo.roundConstantT16_canonical _
  rw [scheduled, ZMod.val_natCast, Nat.mod_eq_of_lt canonical]

theorem m31_val (x : M31) : m31 x.val = x := by
  rw [m31_eq_cast, ZMod.natCast_zmod_val]

theorem lift_zero : (Cells.of fun _ => 0) = lift 0 := by
  apply Stwo.lift_eq
  intro i
  rw [Cells.get_of]
  rfl

/-- A row of representatives is the row of a round, and ends with that round. -/
theorem roundRow_lift :
    roundRow (lift v) r =
      ⟨lift v, lift fun i => (v i + scheduled r i) * (v i + scheduled r i),
        lift fun i => (v i + scheduled r i) ^ 5, lift (step constantT16 r v)⟩ := by
  have squares : (Cells.of fun i => m31Mul (m31Add ((lift v).get i) ((roundSchedule r).2 i))
      (m31Add ((lift v).get i) ((roundSchedule r).2 i))) =
      lift fun i => (v i + scheduled r i) * (v i + scheduled r i) := by
    apply Stwo.lift_eq
    intro i
    rw [Cells.get_of, Stwo.lift_get, scheduled_val, Stwo.m31Add_val, Stwo.m31Mul_val]
  have powers : (Cells.of fun i => sbox (m31Add ((lift v).get i) ((roundSchedule r).2 i))) =
      lift fun i => (v i + scheduled r i) ^ 5 := by
    apply Stwo.lift_eq
    intro i
    rw [Cells.get_of, Stwo.lift_get, scheduled_val, Stwo.m31Add_val, Stwo.sbox_val, power5]
  have output := round_expression r v
  rw [roundRow, squares, powers, Stwo.lift_get, Stwo.update_lift, Stwo.matExternalT16_lift,
    Stwo.matInternalT16_lift, ← output]
  cases (roundSchedule r).1 <;> simp

theorem paddingRow_lift :
    paddingRow (lift v) = ⟨lift v, lift fun i => v i * v i, lift fun i => v i ^ 5, lift 0⟩ := by
  have squares : (Cells.of fun i => m31Mul ((lift v).get i) ((lift v).get i)) =
      lift fun i => v i * v i := by
    apply Stwo.lift_eq
    intro i
    rw [Cells.get_of, Stwo.lift_get, Stwo.m31Mul_val]
  have powers : (Cells.of fun i => sbox ((lift v).get i)) = lift fun i => v i ^ 5 := by
    apply Stwo.lift_eq
    intro i
    rw [Cells.get_of, Stwo.lift_get, Stwo.sbox_val, power5]
  rw [paddingRow, squares, powers, lift_zero]

theorem mainRow_lift (inp sq sbox out : Fin 16 → M31) (head : Head) :
    mainRow ⟨lift inp, lift sq, lift sbox, lift out⟩ head =
      ⟨inp, sq, sbox, out, residues head.cur, residues head.sib, if head.bit then 1 else 0,
        residues head.leaf⟩ := by
  have one : m31 1 = 1 := by rw [m31_eq_cast, Nat.cast_one]
  simp only [mainRow, Stwo.lift_get, m31_val, m31_node, one]

theorem mainRow_round (head : Head) :
    mainRow (roundRow (lift v) r) head = between v (scheduled r) (step constantT16 r v) head := by
  rw [roundRow_lift, mainRow_lift, between]

theorem mainRow_padding : mainRow (paddingRow (lift v)) .blank = between v 0 0 .blank := by
  rw [paddingRow_lift, mainRow_lift, between]
  simp only [Pi.zero_apply, add_zero]

/-- The rows of a permutation after its first linear layer. -/
theorem roundRows_lift (head : Head) (count : ℕ) (raw : Fin 16 → M31) :
    roundRows head count (lift (externalMatrix 16 *ᵥ raw)) =
      ((List.range count).map fun r =>
        between (stepsFrom constantT16 raw r) (scheduled r) (stepsFrom constantT16 raw (r + 1))
          (if r = 0 then head else .blank),
        lift (stepsFrom constantT16 raw count)) := by
  unfold roundRows
  induction count with
  | zero => rfl
  | succ count ih =>
      rw [List.range_succ, List.foldl_append, ih, List.foldl_cons, List.foldl_nil,
        List.map_append, List.map_singleton]
      dsimp only
      rw [mainRow_round, roundRow_lift, stepsFrom_succ]

end Words

/-! ## The loop over the compressions -/

namespace Openings

variable (openings : Openings)

/-- The node that a compression starts from. -/
def nodeAt (behind : Fin 16 → M31) (k : ℕ) : Fin 8 → M31 :=
  if k % openings.depth = 0 then residues (openings.leaf (k / openings.depth))
  else leftNode behind

def sibAt (k : ℕ) : Fin 8 → M31 :=
  residues (openings.sib (k / openings.depth) (k % openings.depth))

def bitAt (k : ℕ) : Bool := openings.bit (k / openings.depth) (k % openings.depth)

/-- The operands of a compression. -/
def rawAt (behind : Fin 16 → M31) (k : ℕ) : Fin 16 → M31 :=
  if openings.bitAt k then joinNodes (openings.sibAt k) (openings.nodeAt behind k)
  else joinNodes (openings.nodeAt behind k) (openings.sibAt k)

/-- The state before compression `k`, behind the one before it. -/
def behind : ℕ → Fin 16 → M31
  | 0 => 0
  | k + 1 => poseidon2 constantT16 (openings.rawAt (behind k) k)

def node (k : ℕ) : Fin 8 → M31 := openings.nodeAt (openings.behind k) k

def raw (k : ℕ) : Fin 16 → M31 := openings.rawAt (openings.behind k) k

def head (k : ℕ) : Head :=
  ⟨words (openings.node k), words (openings.sibAt k), openings.bitAt k,
    if k % openings.depth = 0 then openings.leaf (k / openings.depth) else fun _ => 0⟩

/-- The root that a path reaches. -/
def reached (path : ℕ) : Fin 8 → M31 :=
  leftNode (openings.behind (path * openings.depth + openings.depth))

/-- Round `r` of compression `k`. -/
def honestRound (k r : ℕ) : MainRow :=
  between (stepsFrom constantT16 (openings.raw k) r) (scheduled r)
    (stepsFrom constantT16 (openings.raw k) (r + 1))
    (if r = 0 then openings.head k else .blank)

/-- Row by row: the rounds of the compressions, then the padding. -/
def honestRow (count row : ℕ) : MainRow :=
  if row < 22 * count then openings.honestRound (row / 22) (row % 22)
  else between (if row = 22 * count then openings.behind count else 0) 0 0 .blank

theorem behind_succ (k : ℕ) :
    openings.behind (k + 1) = stepsFrom constantT16 (openings.raw k) 22 := by
  rw [stepsFrom_all]
  rfl

/-- The operands as the builder selects them. -/
theorem raw16 (k : ℕ) :
    (if openings.bitAt k then
        Stwo.joinCells (words (openings.sibAt k)) (words (openings.node k))
      else Stwo.joinCells (words (openings.node k)) (words (openings.sibAt k))) =
      lift (openings.raw k) := by
  rw [raw, rawAt]
  split
  case isTrue => exact joinCells_words _ _
  case isFalse => exact joinCells_words _ _

/-- What the loop has filled after some compressions. -/
structure Reached (filled : Filled) (k : ℕ) : Prop where
  rows_eq : filled.rows =
    (List.range k).flatMap fun i => (List.range 22).map (openings.honestRound i)
  cur_eq : filled.cur = words (leftNode (openings.behind k))
  carry_eq : filled.carryState = lift (openings.behind k)
  roots_eq : filled.roots =
    (List.range (k / openings.depth)).map fun path => words (openings.reached path)

variable {openings} {filled : Filled} {k : ℕ}

/-- The roots collected behind compression `k`. -/
theorem roots_succ (positive : 0 < openings.depth) :
    (if k % openings.depth = openings.depth - 1 then
        ((List.range (k / openings.depth)).map fun path => words (openings.reached path)) ++
          [words (leftNode (openings.behind (k + 1)))]
      else (List.range (k / openings.depth)).map fun path => words (openings.reached path)) =
      (List.range ((k + 1) / openings.depth)).map fun path => words (openings.reached path) := by
  have whole := Nat.div_add_mod k openings.depth
  have remainder := Nat.mod_lt k positive
  split
  case isTrue last =>
    have position : k + 1 = openings.depth * (k / openings.depth + 1) := by
      rw [Nat.mul_succ]
      omega
    have next : (k + 1) / openings.depth = k / openings.depth + 1 := by
      rw [position, Nat.mul_div_cancel_left _ positive]
    have place : k / openings.depth * openings.depth + openings.depth = k + 1 := by
      rw [position, Nat.mul_succ, Nat.mul_comm]
    rw [next, List.range_succ, List.map_append, List.map_singleton, reached, place]
  case isFalse inner =>
    have next : (k + 1) / openings.depth = k / openings.depth := by
      apply Nat.div_eq_of_lt_le
      · rw [Nat.mul_comm]
        omega
      · rw [Nat.succ_mul, Nat.mul_comm]
        omega
    rw [next]

theorem Reached.succ (positive : 0 < openings.depth) (holds : openings.Reached filled k) :
    openings.Reached (openings.fillCompression filled k) (k + 1) := by
  have node : (if k % openings.depth = 0 then norm8 (openings.leaf (k / openings.depth))
      else filled.cur) = words (openings.node k) := by
    rw [Openings.node, nodeAt]
    split
    case isTrue => exact (words_residues _).symm
    case isFalse => exact holds.cur_eq
  have sib : norm8 (openings.sib (k / openings.depth) (k % openings.depth)) =
      words (openings.sibAt k) := (words_residues _).symm
  have rounds : roundRows (openings.head k) 22 (lift (externalMatrix 16 *ᵥ openings.raw k)) =
      ((List.range 22).map (openings.honestRound k), lift (openings.behind (k + 1))) := by
    rw [roundRows_lift, behind_succ]
    rfl
  have step : openings.fillCompression filled k =
      ⟨filled.rows ++ (List.range 22).map (openings.honestRound k),
        words (leftNode (openings.behind (k + 1))), lift (openings.behind (k + 1)),
        if k % openings.depth = openings.depth - 1 then
          filled.roots ++ [words (leftNode (openings.behind (k + 1)))] else filled.roots⟩ := by
    have left : leftNode (lift (openings.behind (k + 1))).get =
        words (leftNode (openings.behind (k + 1))) := by
      funext i
      exact Stwo.lift_get _ _
    have selected := openings.raw16 k
    have top : openings.head k = ⟨words (openings.node k), words (openings.sibAt k),
        openings.bitAt k, if k % openings.depth = 0 then openings.leaf (k / openings.depth)
          else fun _ => 0⟩ := rfl
    have bit : openings.bit (k / openings.depth) (k % openings.depth) = openings.bitAt k := rfl
    simp only [fillCompression, node, sib, bit, selected, ← top, Stwo.matExternalT16_lift, rounds,
      left]
  rw [step]
  refine ⟨?_, by dsimp only, by dsimp only, ?_⟩
  · rw [List.range_succ (n := k), List.flatMap_append, List.flatMap_singleton, ← holds.rows_eq]
  · rw [← roots_succ positive, holds.roots_eq]

theorem fillCompressions_reached (positive : 0 < openings.depth) (count : ℕ) :
    openings.Reached (openings.fillCompressions count) count := by
  unfold fillCompressions
  induction count with
  | zero =>
      refine ⟨rfl, rfl, lift_zero, ?_⟩
      rw [Nat.zero_div]
      rfl
  | succ count ih =>
      rw [List.range_succ, List.foldl_append, List.foldl_cons, List.foldl_nil]
      exact ih.succ positive

theorem paddingRows_lift (count start idle : ℕ) (after : 22 * count ≤ start) :
    paddingRows (lift (if start = 22 * count then openings.behind count else 0)) idle =
      (List.range' start idle).map (openings.honestRow count) := by
  induction idle generalizing start with
  | zero => rfl
  | succ idle ih =>
      have later := ih (start + 1) (by omega)
      rw [if_neg (by omega)] at later
      rw [paddingRows, List.range'_succ, List.map_cons, lift_zero, later, mainRow_padding,
        honestRow, if_neg (Nat.not_lt.mpr after)]

/-- The trace that the loop and the padding fill. -/
theorem filledRows (positive : 0 < openings.depth) {count rows : ℕ} (fits : 22 * count ≤ rows) :
    (openings.fillCompressions count).rows ++
        paddingRows (openings.fillCompressions count).carryState (rows - 22 * count) =
      (List.range rows).map (openings.honestRow count) := by
  have holds := fillCompressions_reached positive count
  have real : (openings.fillCompressions count).rows =
      (List.range (22 * count)).map (openings.honestRow count) := by
    rw [holds.rows_eq, range_mul_map]
    apply List.flatMap_congr
    intro k member
    apply List.map_congr_left
    intro r early
    have inside := List.mem_range.mp member
    have small := List.mem_range.mp early
    have block : (22 * k + r) / 22 = k := by omega
    have step : (22 * k + r) % 22 = r := by omega
    rw [honestRow, if_pos (by omega), block, step]
  have idle := @paddingRows_lift openings count (22 * count) (rows - 22 * count) le_rfl
  rw [if_pos rfl] at idle
  have whole : rows = 22 * count + (rows - 22 * count) := by omega
  have joined : List.range' 0 (22 * count) ++ List.range' (22 * count) (rows - 22 * count) =
      List.range' 0 rows := by
    have split := @List.range'_append_1 0 (22 * count) (rows - 22 * count)
    rwa [Nat.zero_add, ← whole] at split
  rw [real, holds.carry_eq, idle, List.range_eq_range', List.range_eq_range', ← List.map_append,
    joined]

end Openings

/-! ## Completeness -/

/-- Paths that pin what the openings fill and reach. -/
structure Openings.PinnedBy (openings : Openings) (paths : Paths) : Prop where
  depth_eq : openings.depth = paths.depth
  leaf_eq : ∀ path < paths.leaves.length,
    residues (openings.leaf path) = residues (paths.leaf path)
  bit_eq : ∀ path < paths.leaves.length, ∀ j < paths.depth,
    openings.bit path j = decide (paths.index path / 2 ^ j % 2 = 1)
  root_eq : ∀ path < paths.leaves.length, openings.reached path = residues (paths.root path)

section Completeness

variable {openings : Openings} {paths : Paths} {logSize path j r : ℕ}

namespace Openings

theorem honestRow_round {count k : ℕ} (inside : k < count) (early : r < 22) :
    openings.honestRow count (22 * k + r) = openings.honestRound k r := by
  have block : (22 * k + r) / 22 = k := by omega
  have step : (22 * k + r) % 22 = r := by omega
  rw [honestRow, if_pos (by omega), block, step]

/-- The row before a later round ends where that round starts. -/
theorem honestRow_chained {count k : ℕ} (inside : k < count) (early : r + 1 < 22)
    (room : 22 * count ≤ 2 ^ logSize) :
    (openings.honestRow count (previousRow logSize (22 * k + (r + 1)))).out =
      stepsFrom constantT16 (openings.raw k) (r + 1) := by
  have within : 22 * k + r + 1 < 2 ^ logSize := by omega
  rw [← Nat.add_assoc, previousRow_succ within, honestRow_round inside (by omega)]
  rfl

/-- The row before a later compression ends with the state behind it. -/
theorem honestRow_behind {count k : ℕ} (inside : k < count) (room : 22 * (k + 1) < 2 ^ logSize) :
    (openings.honestRow count (previousRow logSize (22 * (k + 1)))).out =
      openings.behind (k + 1) := by
  have row : 22 * (k + 1) = 22 * k + 21 + 1 := by omega
  have within : 22 * k + 21 + 1 < 2 ^ logSize := by omega
  rw [row, previousRow_succ within, honestRow_round inside (by omega), behind_succ]
  rfl

theorem raw_childSelect (k : ℕ) :
    childSelect (if openings.bitAt k then 1 else 0) (openings.sibAt k) (openings.node k) =
      openings.raw k := by
  rw [raw, rawAt, ← node]
  split <;> simp [childSelect]

end Openings

section Rows

variable (pinned : openings.PinnedBy paths) (before : path < paths.leaves.length)
  (inside : j < paths.depth)

include pinned before inside

omit before in
theorem place_eq :
    (path * paths.depth + j) / openings.depth = path ∧
      (path * paths.depth + j) % openings.depth = j := by
  rw [pinned.depth_eq]
  exact ⟨place_div inside, place_mod inside⟩

/-- The last row of a path holds its root. -/
theorem honestRound_root (k : Fin 8) :
    (paths.compressionRow path j r).isRoot *
      (leftNode (openings.honestRound (path * paths.depth + j) r).out k -
        (paths.compressionRow path j r).root k) = 0 := by
  by_cases last : j = paths.depth - 1 ∧ r = 22 - 1
  · have on : (paths.compressionRow path j r).root k = m31 (paths.root path k) := if_pos last
    have root : residues (paths.root path) k = m31 (paths.root path k) := by
      rw [← m31_node]
    have output : (openings.honestRound (path * paths.depth + j) r).out =
        openings.behind (path * paths.depth + j + 1) := by
      rw [last.2, Openings.behind_succ]
      rfl
    have next : leftNode (openings.behind (path * paths.depth + j + 1)) =
        openings.reached path := by
      have place : path * paths.depth + j + 1 = path * openings.depth + openings.depth := by
        rw [pinned.depth_eq]
        omega
      rw [place, Openings.reached]
    rw [on, ← root, output, next, pinned.root_eq path before, sub_self, mul_zero]
  · have off : (paths.compressionRow path j r).isRoot = 0 := if_neg last
    rw [off, zero_mul]

/-- Outside the first row nothing but the round chain is constrained. -/
theorem honestRound_later (later : r ≠ 0) {previous : MainRow}
    (chained : previous.out =
      stepsFrom constantT16 (openings.raw (path * paths.depth + j)) r) :
    RowHolds (openings.honestRound (path * paths.depth + j) r) previous
      (paths.compressionRow path j r) := by
  have notFirst : (paths.compressionRow path j r).isFirstComp = 0 := if_neg later
  have notStart : (paths.compressionRow path j r).isFirstPath = 0 :=
    if_neg fun both => later both.1
  constructor
  case squares => rw [compressionRow_rc]; rfl
  case powers => rw [compressionRow_rc]; rfl
  case output => exact (round_expression r _).symm
  case node => intro k; rw [notFirst, zero_mul]
  case boolean => rw [notFirst, zero_mul]
  case digit => rw [notFirst, zero_mul]
  case leaf => intro k; rw [notStart, zero_mul]
  case input =>
    rw [notFirst, chained]
    funext i
    rw [zero_mul, zero_add, sub_zero, one_mul]
    rfl
  case root => exact honestRound_root pinned before inside

/-- The first row selects the children of the node that the path has reached. -/
theorem honestRound_first (narrow : paths.depth ≤ 32) {previous : MainRow}
    (climbed : j ≠ 0 → previous.out = openings.behind (path * paths.depth + j)) :
    RowHolds (openings.honestRound (path * paths.depth + j) 0) previous
      (paths.compressionRow path j 0) := by
  have place := @place_eq openings paths path j pinned inside
  have first : (paths.compressionRow path j 0).isFirstComp = 1 := rfl
  have bit : openings.bitAt (path * paths.depth + j) =
      decide (paths.index path / 2 ^ j % 2 = 1) := by
    rw [Openings.bitAt, place.1, place.2, pinned.bit_eq path before j inside]
  have cur : (openings.honestRound (path * paths.depth + j) 0).cur =
      openings.node (path * paths.depth + j) := residues_words _
  have sib : (openings.honestRound (path * paths.depth + j) 0).sib =
      openings.sibAt (path * paths.depth + j) := residues_words _
  have digit : (openings.honestRound (path * paths.depth + j) 0).bit =
      if openings.bitAt (path * paths.depth + j) then 1 else 0 := rfl
  have leaf : (openings.honestRound (path * paths.depth + j) 0).leaf =
      residues (if j = 0 then openings.leaf path else fun _ => 0) := by
    have head : (openings.honestRound (path * paths.depth + j) 0).leaf =
        residues (openings.head (path * paths.depth + j)).leaf := rfl
    rw [head, Openings.head, place.1, place.2]
  constructor
  case squares => rw [compressionRow_rc]; rfl
  case powers => rw [compressionRow_rc]; rfl
  case output => exact (round_expression 0 _).symm
  case node =>
    intro k
    rw [first, one_mul, cur, leaf, Openings.node, Openings.nodeAt, place.1, place.2]
    by_cases starts : j = 0
    · have on : (paths.compressionRow path j 0).isFirstPath = 1 := if_pos ⟨rfl, starts⟩
      rw [on, if_pos starts, if_pos starts]
      ring
    · have off : (paths.compressionRow path j 0).isFirstPath = 0 :=
        if_neg fun both => starts both.2
      rw [off, if_neg starts, climbed starts]
      ring
  case boolean =>
    rw [digit]
    split <;> ring
  case digit =>
    rw [digit, bit, compressionRow_idxBit (by omega), sub_self, mul_zero]
  case leaf =>
    intro k
    by_cases starts : j = 0
    · have root : residues (paths.leaf path) k = m31 (paths.leaf path k) := by
        rw [← m31_node]
      have on : (paths.compressionRow path j 0).leaf k = m31 (paths.leaf path k) :=
        if_pos ⟨rfl, starts⟩
      rw [leaf, if_pos starts, on, ← root, pinned.leaf_eq path before, sub_self, mul_zero]
    · have off : (paths.compressionRow path j 0).isFirstPath = 0 :=
        if_neg fun both => starts both.2
      rw [off, zero_mul]
  case input =>
    rw [first, cur, sib, digit, Openings.raw_childSelect]
    funext i
    rw [one_mul, sub_self, zero_mul, add_zero]
    rfl
  case root => exact honestRound_root pinned before inside

end Rows

/-- A padding row continues the chain. -/
theorem padding_holds {inp : Fin 16 → M31} {previous : MainRow} (chained : previous.out = inp) :
    RowHolds (between inp 0 0 .blank) previous .padding := by
  constructor
  case squares => rfl
  case powers => rfl
  case output =>
    funext i
    simp [between, PreprocRow.padding]
  case input =>
    funext i
    simp [between, PreprocRow.padding, chained]
  all_goals simp [PreprocRow.padding]

/-- The rows of the builder satisfy the circuit that pins what they reach. -/
theorem honestRow_satisfies (pinned : openings.PinnedBy paths) (fits : paths.Fits logSize)
    (positive : 0 < paths.depth) (narrow : paths.depth ≤ 32) (some : 0 < paths.leaves.length) :
    Satisfies (openings.honestRow (paths.leaves.length * paths.depth))
      (paths.preprocRow logSize) logSize := by
  intro row small
  rw [vanish_evaluate]
  have room : 22 * (paths.leaves.length * paths.depth) ≤ 2 ^ logSize := by
    rw [Nat.mul_comm]
    exact fits
  by_cases real : row < 22 * (paths.leaves.length * paths.depth)
  · have split : row = 22 * (row / 22) + row % 22 := (Nat.div_add_mod row 22).symm
    have early : row % 22 < 22 := Nat.mod_lt row (by omega)
    have block : row / 22 < paths.leaves.length * paths.depth := by omega
    have place : row / 22 = row / 22 / paths.depth * paths.depth + row / 22 % paths.depth := by
      rw [Nat.mul_comm, Nat.div_add_mod]
    have before : row / 22 / paths.depth < paths.leaves.length :=
      Nat.div_lt_of_lt_mul (by rwa [Nat.mul_comm])
    have inside : row / 22 % paths.depth < paths.depth := Nat.mod_lt _ positive
    generalize row / 22 / paths.depth = path at place before
    generalize row / 22 % paths.depth = j at place inside
    generalize row % 22 = r at split early
    rw [place] at split block
    rw [split, preprocRow_eq fits before inside early, Openings.honestRow_round block early]
    cases r with
    | zero =>
        apply honestRound_first pinned before inside narrow
        intro climbs
        have earlier : path * paths.depth + j = path * paths.depth + (j - 1) + 1 := by omega
        rw [earlier, Nat.add_zero, Openings.honestRow_behind (by omega) (by omega)]
    | succ r =>
        exact honestRound_later pinned before inside (Nat.succ_ne_zero r)
          (Openings.honestRow_chained block early room)
  · have after := Nat.not_lt.mp real
    rw [preprocRow_padding positive after, Openings.honestRow, if_neg real]
    apply padding_holds
    have filled : 0 < paths.leaves.length * paths.depth := Nat.mul_pos some positive
    rcases Nat.eq_or_lt_of_le after with same | later
    · rw [if_pos same.symm, ← same]
      generalize paths.leaves.length * paths.depth = count at filled same
      have last : count = count - 1 + 1 := by omega
      rw [last, Openings.honestRow_behind (by omega) (by omega)]
    · rw [if_neg (by omega)]
      have within : row - 1 + 1 < 2 ^ logSize := by omega
      have last := previousRow_succ within
      rw [Nat.sub_add_cancel (by omega)] at last
      rw [last, Openings.honestRow, if_neg (by omega)]
      rfl

end Completeness

/-! ## Exactness -/

/-- Openings that the builder accepts: as many siblings and bits as leaves, the same
positive depth throughout, and a trace that holds the compressions.  Its size is one
that `CanonicCoset::new` takes. -/
structure Openings.Valid (openings : Openings) (logSize : ℕ) : Prop where
  some : 1 ≤ openings.leaves.length
  sibs_length : openings.sibs.length = openings.leaves.length
  bits_length : openings.bits.length = openings.leaves.length
  positive : 1 ≤ openings.depth
  sibs_depth : ∀ sibs ∈ openings.sibs, sibs.length = openings.depth
  bits_depth : ∀ bits ∈ openings.bits, bits.length = openings.depth
  fits : openings.leaves.length * openings.depth * 22 ≤ 2 ^ logSize
  domain : logSize ≤ maxCosetLogSize

/-- Paths that the canonical columns accept and that fit the trace, whose size is one
that `CanonicCoset::new` takes. -/
structure Paths.WellFormed (paths : Paths) (logSize : ℕ) : Prop where
  some : 1 ≤ paths.leaves.length
  indices_length : paths.leaves.length = paths.indices.length
  roots_length : paths.leaves.length = paths.roots.length
  positive : 1 ≤ paths.depth
  narrow : paths.depth ≤ 32
  fits : paths.Fits logSize
  domain : logSize ≤ maxCosetLogSize

/-- The row of a trace. -/
def traceRow (rows : List MainRow) (row : ℕ) : MainRow :=
  rows.getD row (mainRow (paddingRow (Cells.of fun _ => 0)) .blank)

/-- The root that the builder computes for a path. -/
def Openings.root (openings : Openings) (path : ℕ) : Fin 8 → ℕ :=
  merklePathRootT16 (openings.leaf path) (openings.sibs.getD path []) (openings.bits.getD path [])

/-- The paths of the indices and roots that openings have. -/
def Openings.paths (openings : Openings) : Paths where
  leaves := openings.leaves
  indices := openings.bits.map Merkle.position
  roots := (List.range openings.leaves.length).map openings.root
  depth := openings.depth

section Exactness

variable {openings : Openings} {paths : Paths} {logSize path j : ℕ}

namespace Openings.Valid

variable (valid : openings.Valid logSize)

include valid

theorem build_eq :
    buildTraceMulti openings logSize =
      .ok ((List.range (2 ^ logSize)).map
          (openings.honestRow (openings.leaves.length * openings.depth)),
        (List.range openings.leaves.length).map fun path => words (openings.reached path)) := by
  have positive : 0 < openings.depth := valid.positive
  have room : 22 * (openings.leaves.length * openings.depth) ≤ 2 ^ logSize := by
    rw [Nat.mul_comm]
    exact valid.fits
  have sibs : openings.sibs.all (fun s => s.length = openings.depth) = true := by
    rw [List.all_eq_true]
    intro s member
    exact decide_eq_true (valid.sibs_depth s member)
  have bits : openings.bits.all (fun b => b.length = openings.depth) = true := by
    rw [List.all_eq_true]
    intro b member
    exact decide_eq_true (valid.bits_depth b member)
  have roots := (fillCompressions_reached positive
    (openings.leaves.length * openings.depth)).roots_eq
  rw [Nat.mul_div_cancel _ positive] at roots
  rw [buildTraceMulti]
  dsimp only
  rw [if_neg (not_not.mpr valid.some), if_neg (not_not.mpr valid.sibs_length),
    if_neg (not_not.mpr valid.bits_length), if_neg (not_not.mpr valid.positive),
    if_neg (not_not.mpr sibs), if_neg (not_not.mpr bits), if_neg (Nat.not_lt.mpr valid.fits),
    Nat.mul_comm _ 22, filledRows positive room, roots]

theorem sibs_at (before : path < openings.leaves.length) :
    (openings.sibs.getD path []).length = openings.depth := by
  have within : path < openings.sibs.length := by rwa [valid.sibs_length]
  rw [List.getD_eq_getElem?_getD, List.getElem?_eq_getElem within, Option.getD_some]
  exact valid.sibs_depth _ (List.getElem_mem within)

theorem bits_at (before : path < openings.leaves.length) :
    (openings.bits.getD path []).length = openings.depth := by
  have within : path < openings.bits.length := by rwa [valid.bits_length]
  rw [List.getD_eq_getElem?_getD, List.getElem?_eq_getElem within, Option.getD_some]
  exact valid.bits_depth _ (List.getElem_mem within)

/-- Behind its last compression a path has climbed to its root. -/
theorem reached_eq (before : path < openings.leaves.length) :
    words (openings.reached path) = openings.root path := by
  have positive : 0 < openings.depth := valid.positive
  have sibs := valid.sibs_at before
  have bits := valid.bits_at before
  have climbed := Merkle.pathRoot_of_steps compress
    (fun j => if j = 0 then residues (openings.leaf path)
      else leftNode (openings.behind (path * openings.depth + j)))
    ((openings.sibs.getD path []).map residues) (openings.bits.getD path []) openings.depth (by
      intro j early
      have first : j < (openings.sibs.getD path []).length := by rwa [sibs]
      have second : j < (openings.bits.getD path []).length := by rwa [bits]
      have sib : openings.sibAt (path * openings.depth + j) =
          residues (openings.sibs.getD path [])[j] := by
        rw [sibAt, place_div early, place_mod early, Openings.sib, List.getD_eq_getElem?_getD,
          List.getElem?_eq_getElem first, Option.getD_some]
      have bit : openings.bitAt (path * openings.depth + j) = (openings.bits.getD path [])[j] := by
        rw [bitAt, place_div early, place_mod early, Openings.bit, List.getD_eq_getElem?_getD,
          List.getElem?_eq_getElem second, Option.getD_some]
      refine ⟨openings.sibAt (path * openings.depth + j),
        openings.bitAt (path * openings.depth + j), ?_, ?_, ?_⟩
      · rw [List.getElem?_map, List.getElem?_eq_getElem first, sib]
        rfl
      · rw [List.getElem?_eq_getElem second, bit]
      · have node : openings.nodeAt (openings.behind (path * openings.depth + j))
            (path * openings.depth + j) = if j = 0 then residues (openings.leaf path)
              else leftNode (openings.behind (path * openings.depth + j)) := by
          rw [nodeAt, place_div early, place_mod early]
        rw [if_neg (Nat.succ_ne_zero j), ← node, ← Nat.add_assoc, behind, rawAt]
        split <;> rfl)
  rw [if_pos rfl, if_neg (by omega), List.take_of_length_le (by rw [List.length_map, sibs]),
    List.take_of_length_le (by rw [bits])] at climbed
  rw [root, merklePathRootT16_eq_words, climbed, reached]

end Openings.Valid

theorem Paths.WellFormed.preproc (wellFormed : paths.WellFormed logSize) :
    paths.buildPreprocMulti logSize = .ok (paths.preprocRow logSize) := by
  rw [Paths.buildPreprocMulti, if_neg (not_not.mpr wellFormed.indices_length),
    if_neg (not_not.mpr wellFormed.roots_length), if_neg (not_not.mpr wellFormed.positive)]

/-- Siblings along which a pinned leaf reaches its pinned root. -/
def Paths.Climbs (paths : Paths) (path : ℕ) (sibs : List (Fin 8 → ℕ)) : Prop :=
  sibs.length = paths.depth ∧
    merklePathRootT16 (paths.leaf path) sibs (Merkle.indexBits paths.depth (paths.index path)) =
      norm8 (paths.root path)

/-- A trace that lists rows which satisfy the circuit satisfies it. -/
theorem traceRow_satisfies {row : ℕ → MainRow} {preproc : ℕ → PreprocRow}
    (satisfied : Satisfies row preproc logSize) :
    Satisfies (traceRow ((List.range (2 ^ logSize)).map row)) preproc logSize := by
  have listed : ∀ place < 2 ^ logSize,
      traceRow ((List.range (2 ^ logSize)).map row) place = row place := by
    intro place inside
    rw [traceRow, List.getD_eq_getElem?_getD, List.getElem?_map, List.getElem?_range inside,
      Option.map_some, Option.getD_some]
  intro place inside
  have earlier : previousRow logSize place < 2 ^ logSize := Nat.mod_lt _ (by omega)
  rw [listed place inside, listed _ earlier]
  exact satisfied place inside

/-- A satisfied circuit has a path for every pinned leaf. -/
theorem Paths.WellFormed.climbs (wellFormed : paths.WellFormed logSize) {main : ℕ → MainRow}
    (satisfied : Satisfies main (paths.preprocRow logSize) logSize)
    (before : path < paths.leaves.length) :
    ∃ sibs, paths.Climbs path sibs := by
  have root := satisfied.path_root wellFormed.fits before wellFormed.positive wellFormed.narrow
  refine ⟨(List.range paths.depth).map fun j =>
    words (main (22 * (path * paths.depth + j))).sib, ?_, ?_⟩
  · rw [List.length_map, List.length_range]
  · have same : ((List.range paths.depth).map fun j =>
        words (main (22 * (path * paths.depth + j))).sib).map residues =
        (List.range paths.depth).map fun j => (main (22 * (path * paths.depth + j))).sib := by
      rw [List.map_map]
      apply List.map_congr_left
      intro j _
      exact residues_words _
    rw [merklePathRootT16_eq_words, same, root, words_residues]

/-- Openings along given siblings. -/
def Paths.along (paths : Paths) (sibs : ℕ → List (Fin 8 → ℕ)) : Openings where
  leaves := paths.leaves
  sibs := (List.range paths.leaves.length).map sibs
  bits := (List.range paths.leaves.length).map fun path =>
    Merkle.indexBits paths.depth (paths.index path)

theorem getD_range_map {α : Type*} {count place : ℕ} {f : ℕ → α} {default : α}
    (inside : place < count) : ((List.range count).map f).getD place default = f place := by
  rw [List.getD_eq_getElem?_getD, List.getElem?_map, List.getElem?_range inside, Option.map_some,
    Option.getD_some]

section Along

variable (wellFormed : paths.WellFormed logSize) {sibs : ℕ → List (Fin 8 → ℕ)}
  (climbs : ∀ path < paths.leaves.length, paths.Climbs path (sibs path))

theorem along_sibs (before : path < paths.leaves.length) :
    (paths.along sibs).sibs.getD path [] = sibs path := getD_range_map before

theorem along_bits (before : path < paths.leaves.length) :
    (paths.along sibs).bits.getD path [] = Merkle.indexBits paths.depth (paths.index path) :=
  getD_range_map before

include wellFormed climbs

theorem along_depth : (paths.along sibs).depth = paths.depth := by
  rw [Openings.depth, along_sibs wellFormed.some]
  exact (climbs 0 wellFormed.some).1

theorem along_valid : (paths.along sibs).Valid logSize := by
  have own := along_depth wellFormed climbs
  constructor
  case some => exact wellFormed.some
  case sibs_length => simp [Paths.along]
  case bits_length => simp [Paths.along]
  case positive => rw [own]; exact wellFormed.positive
  case sibs_depth =>
    intro list member
    rcases List.mem_map.mp member with ⟨path, inside, rfl⟩
    rw [own]
    exact (climbs path (List.mem_range.mp inside)).1
  case bits_depth =>
    intro list member
    rcases List.mem_map.mp member with ⟨path, -, rfl⟩
    rw [Merkle.indexBits_length, own]
  case fits => rw [own]; exact wellFormed.fits
  case domain => exact wellFormed.domain

theorem along_pinned : (paths.along sibs).PinnedBy paths := by
  have valid := along_valid wellFormed climbs
  constructor
  case depth_eq => exact along_depth wellFormed climbs
  case leaf_eq => intro path _; rfl
  case bit_eq =>
    intro path before j inside
    have within : j < (Merkle.indexBits paths.depth (paths.index path)).length := by
      rw [Merkle.indexBits_length]
      exact inside
    rw [Openings.bit, along_bits before, List.getD_eq_getElem?_getD,
      List.getElem?_eq_getElem within, Option.getD_some]
    exact Merkle.indexBits_get paths.depth (paths.index path) j within
  case root_eq =>
    intro path before
    have root := (climbs path before).2
    rw [← residues_words ((paths.along sibs).reached path), valid.reached_eq before,
      Openings.root, along_sibs before, along_bits before]
    exact (congrArg residues root).trans (residues_norm8 _)

end Along

/-- Paths that exist satisfy the circuit. -/
theorem Paths.WellFormed.exists_satisfies (wellFormed : paths.WellFormed logSize)
    (climbs : ∀ path < paths.leaves.length, ∃ sibs, paths.Climbs path sibs) :
    ∃ main, Satisfies main (paths.preprocRow logSize) logSize := by
  choose! sibs climbs using climbs
  exact ⟨_, honestRow_satisfies (along_pinned wellFormed climbs) wellFormed.fits
    wellFormed.positive wellFormed.narrow wellFormed.some⟩

/-- Every list of at most thirty-two bits is an index. -/
theorem indices_of_bits {bits : List (List Bool)} (narrow : ∀ list ∈ bits, list.length ≤ 32) :
    bits.mapM MerklePathT8.bitsToIndex = .ok (bits.map Merkle.position) := by
  induction bits with
  | nil => rfl
  | cons list bits ih =>
      rw [List.forall_mem_cons] at narrow
      rw [List.mapM_cons, ih narrow.2, MerklePathT8.bitsToIndex,
        if_neg (Nat.not_lt.mpr narrow.1)]
      rfl

namespace Openings.Valid

variable (valid : openings.Valid logSize)

include valid

theorem pinned : openings.PinnedBy openings.paths := by
  constructor
  case depth_eq => rfl
  case leaf_eq => intro path _; rfl
  case bit_eq =>
    intro path before j inside
    have listed : path < openings.bits.length := by rwa [valid.bits_length]
    have length := valid.bits_at before
    have index : openings.paths.index path = Merkle.position (openings.bits.getD path []) := by
      rw [Paths.index, Openings.paths, List.getD_eq_getElem?_getD, List.getElem?_map,
        List.getD_eq_getElem?_getD, List.getElem?_eq_getElem listed]
      rfl
    have digits := Merkle.indexBits_position (openings.bits.getD path [])
    have within : j < (Merkle.indexBits (openings.bits.getD path []).length
        (Merkle.position (openings.bits.getD path []))).length := by
      rw [Merkle.indexBits_length, length]
      exact inside
    have digit := Merkle.indexBits_get _ _ j within
    rw [List.get_eq_getElem] at digit
    rw [index, ← digit, Openings.bit, List.getD_eq_getElem?_getD]
    simp only [digits]
    rw [List.getElem?_eq_getElem (by rw [length]; exact inside), Option.getD_some]
  case root_eq =>
    intro path before
    have root : openings.paths.root path = openings.root path := getD_range_map before
    rw [root, ← valid.reached_eq before, residues_words]

theorem wellFormed (narrow : openings.depth ≤ 32) : openings.paths.WellFormed logSize where
  some := valid.some
  indices_length := by
    rw [Openings.paths, List.length_map, valid.bits_length]
  roots_length := by
    rw [Openings.paths, List.length_map, List.length_range]
  positive := valid.positive
  narrow := narrow
  fits := valid.fits
  domain := valid.domain

end Openings.Valid

end Exactness

/-- The circuit is satisfiable exactly for paths that exist, and the builder fills such a trace
for the indices of its bits and the roots it returns.  Several paths of one depth share the trace,
of a size that the circle group has.  Indices are 32-bit words, so the builder's openings have at
most 32 levels. -/
theorem wide_paths_proved_exactly :
    (∀ (paths : Paths) (logSize : ℕ), paths.WellFormed logSize →
      ∃ preproc, paths.buildPreprocMulti logSize = .ok preproc ∧
        ((∃ main, Satisfies main preproc logSize) ↔
          ∀ path < paths.leaves.length, ∃ sibs, paths.Climbs path sibs)) ∧
    ∀ (openings : Openings) (logSize : ℕ), openings.Valid logSize → openings.depth ≤ 32 →
      ∃ rows indices preproc, buildTraceMulti openings logSize =
          .ok (rows, (List.range openings.leaves.length).map openings.root) ∧
        rows.length = 2 ^ logSize ∧
        openings.bits.mapM MerklePathT8.bitsToIndex = .ok indices ∧
        Paths.buildPreprocMulti ⟨openings.leaves, indices,
          (List.range openings.leaves.length).map openings.root, openings.depth⟩ logSize =
            .ok preproc ∧
        Satisfies (traceRow rows) preproc logSize := by
  constructor
  · intro paths logSize wellFormed
    refine ⟨paths.preprocRow logSize, wellFormed.preproc, ?_, wellFormed.exists_satisfies⟩
    rintro ⟨main, satisfied⟩ path before
    exact wellFormed.climbs satisfied before
  · intro openings logSize valid narrow
    have wellFormed := valid.wellFormed narrow
    have roots : ((List.range openings.leaves.length).map fun path =>
        words (openings.reached path)) =
        (List.range openings.leaves.length).map openings.root := by
      apply List.map_congr_left
      intro path inside
      exact valid.reached_eq (List.mem_range.mp inside)
    refine ⟨(List.range (2 ^ logSize)).map
        (openings.honestRow (openings.leaves.length * openings.depth)),
      openings.bits.map Merkle.position, openings.paths.preprocRow logSize, ?_, ?_, ?_,
      wellFormed.preproc, ?_⟩
    · rw [valid.build_eq, roots]
    · rw [List.length_map, List.length_range]
    · apply indices_of_bits
      intro list member
      rw [valid.bits_depth list member]
      exact narrow
    · apply traceRow_satisfies
      have count : openings.leaves.length * openings.depth =
          openings.paths.leaves.length * openings.paths.depth := rfl
      rw [count]
      exact honestRow_satisfies valid.pinned wellFormed.fits wellFormed.positive
        wellFormed.narrow wellFormed.some

/-- Two paths of two steps in one trace. -/
theorem two_wide_paths_proved :
    let openings : Openings := ⟨[fun _ => 1, fun k => k.val],
      [[fun _ => 2, fun _ => 3], [fun _ => 4, fun _ => P]], [[true, false], [true, true]]⟩
    let paths : Paths := ⟨openings.leaves, [1, 3], (List.range 2).map openings.root, 2⟩
    ∃ preproc rows, paths.buildPreprocMulti 7 = .ok preproc ∧
      ((∃ main, Satisfies main preproc 7) ↔ ∀ path < 2, ∃ sibs, paths.Climbs path sibs) ∧
      buildTraceMulti openings 7 = .ok (rows, (List.range 2).map openings.root) ∧
      Satisfies (traceRow rows) preproc 7 := by
  intro openings paths
  have valid : openings.Valid 7 :=
    ⟨by decide, rfl, rfl, by decide, by simp [openings, Openings.depth],
      by simp [openings, Openings.depth], by decide, by decide⟩
  have wellFormed : paths.WellFormed 7 :=
    ⟨by decide, rfl, rfl, by decide, by decide, by simp [paths, openings, Paths.Fits],
      by decide⟩
  rcases wide_paths_proved_exactly.1 paths 7 wellFormed with ⟨preproc, prebuilt, equivalent⟩
  rcases wide_paths_proved_exactly.2 openings 7 valid (by decide) with
    ⟨rows, indices, own, built, -, read, ownBuilt, holds⟩
  have positions : openings.bits.mapM MerklePathT8.bitsToIndex = .ok [1, 3] := by decide
  rw [positions, Except.ok.injEq] at read
  have same : paths.buildPreprocMulti 7 = .ok own := by
    rw [← ownBuilt, ← read]
    rfl
  rw [prebuilt, Except.ok.injEq] at same
  rw [← same] at holds
  exact ⟨preproc, rows, prebuilt, equivalent, built, holds⟩

end MerklePathT16
end Recursive
end QLSA
