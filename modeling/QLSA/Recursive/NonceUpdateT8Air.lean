import QLSA.Recursive.HonestLane
import QLSA.Recursive.NonceStatement

namespace QLSA
namespace Recursive
namespace NonceUpdateT8

open Hash Mersenne

/-!
# The two-lane update circuit

One row carries two lanes, one from the old leaf to the root before an update
and one from the new leaf to the root after it.  Sibling and direction bit are
single columns read by both lanes.  Update `u` of depth `D` occupies the
compressions `u * D` to `u * D + D - 1`, twenty-two rows each.

Here the columns are read by number, in layout order.
-/

/-! ## Layout -/

/-- Columns per lane. -/
def laneCols : ℕ := 4 * 8 + 8

/-- First shared column, after both lanes. -/
def cSib : ℕ := 2 * laneCols

def cBit : ℕ := 2 * laneCols + 4

/-- Number of main columns. -/
def nMainCols : ℕ := 2 * laneCols + 5

/-- Preprocessed columns: eight constants, then these. -/
def isExtC : ℕ := 8

def isIntC : ℕ := 8 + 1

def firstCompC : ℕ := 8 + 2

def firstPathC : ℕ := 8 + 3

def idxBitC : ℕ := 8 + 4

def leafAC : ℕ := 8 + 5

def leafBC : ℕ := 8 + 9

def isRootC : ℕ := 8 + 13

def rootAC : ℕ := 8 + 14

def rootBC : ℕ := 8 + 18

theorem layout : isExtC = 8 ∧ isIntC = 9 ∧ firstCompC = 10 ∧ firstPathC = 11 ∧ idxBitC = 12 ∧
    leafAC = 13 ∧ leafBC = 17 ∧ isRootC = 21 ∧ rootAC = 22 ∧ rootBC = 26 := by
  decide

/-! ## Constraints -/

/-- A lane starting at a column. -/
def readLane (main : Columns) (base row previous : ℕ) : Lane M31 where
  inp := readState main base row
  sq := readState main (base + 8) row
  sbox := readState main (base + 2 * 8) row
  out := readState main (base + 3 * 8) row
  outPrev := readState main (base + 3 * 8) previous
  cur := readQuad main (base + 4 * 8) row
  leaf := readQuad main (base + 4 * 8 + 4) row

/-- Selectors and shared columns of a row. -/
def readShared (main preproc : Columns) (row : ℕ) : Shared M31 where
  rc := readState preproc 0 row
  isExt := preproc isExtC row
  isInt := preproc isIntC row
  isFirstComp := preproc firstCompC row
  isFirstPath := preproc firstPathC row
  isRoot := preproc isRootC row
  sib := readQuad main cSib row
  bit := main cBit row

/-- All constraints of a row. -/
def evaluate (main preproc : Columns) (row previous : ℕ) : List M31 :=
  let a := readLane main 0 row previous
  let b := readLane main laneCols row previous
  let s := readShared main preproc row
  [s.isFirstComp * (s.bit * s.bit - s.bit), s.isFirstComp * (s.bit - preproc idxBitC row)] ++
  constrainLane a s (readQuad preproc leafAC row) (readQuad preproc rootAC row) ++
  constrainLane b s (readQuad preproc leafBC row) (readQuad preproc rootBC row)

/-- The main columns satisfy every constraint on every row. -/
def Satisfies (main preproc : Columns) (logSize : ℕ) : Prop :=
  ∀ row < 2 ^ logSize, Vanish (evaluate main preproc row (previousRow logSize row))

/-! ## Preprocessed columns -/

/-- Start of a compression, and the pins of a path on its first and last one. -/
def pinWrites (up : PinnedUpdate (Quad ℕ)) (depth j first : ℕ) : List Write :=
  [((firstCompC, first), 1), ((idxBitC, first), m31 (up.index >>> j &&& 1))] ++
  (if j = 0 then
    ((firstPathC, first), 1) :: quadWrites leafAC first up.oldLeaf ++
      quadWrites leafBC first up.newLeaf
  else []) ++
  (if j = depth - 1 then
    ((isRootC, first + 22 - 1), 1) :: quadWrites rootAC (first + 22 - 1) up.preRoot ++
      quadWrites rootBC (first + 22 - 1) up.postRoot
  else [])

/-- All writes of one compression. -/
def compressionWrites (up : PinnedUpdate (Quad ℕ)) (depth u j : ℕ) : List Write :=
  let comp := u * depth + j
  (List.range 22).flatMap (fun r => roundWrites (comp * 22 + r) r) ++
    pinWrites up depth j (comp * 22)

def preprocWrites (updates : List (PinnedUpdate (Quad ℕ))) (depth : ℕ) : List Write :=
  updates.zipIdx.flatMap fun entry =>
    (List.range depth).flatMap fun j => compressionWrites entry.1 depth entry.2 j

/-- The whole preprocessed tree, from public data alone. -/
def buildPreproc (updates : List (PinnedUpdate (Quad ℕ))) (depth logSize : ℕ) :
    Except String Columns :=
  if depth < 1 then .error "depth must be ≥ 1"
  else if 2 ^ logSize < updates.length * depth * 22 then .error "updates exceed trace capacity"
  else .ok (columnsOf (preprocWrites updates depth))

/-! ## Reading the preprocessed columns -/

theorem pinWrites_cells (up : PinnedUpdate (Quad ℕ)) (depth j first : ℕ) :
    ∀ write ∈ pinWrites up depth j first,
      10 ≤ write.1.1 ∧ first ≤ write.1.2 ∧ write.1.2 < first + 22 := by
  intro write member
  simp only [pinWrites, List.mem_append, List.mem_cons, List.not_mem_nil, or_false,
    List.mem_ite_nil_right, quadWrites, layout] at member
  rcases member with ((rfl | rfl) | ⟨-, rest⟩) | ⟨-, rest⟩
  · simp
  · simp
  · rcases rest with (rfl | rfl | rfl | rfl | rfl) | rfl | rfl | rfl | rfl <;> simp
  · rcases rest with (rfl | rfl | rfl | rfl | rfl) | rfl | rfl | rfl | rfl <;> simp

theorem compressionWrites_rows (up : PinnedUpdate (Quad ℕ)) (depth u j : ℕ) :
    ∀ write ∈ compressionWrites up depth u j, write.1.2 / 22 = u * depth + j := by
  intro write member
  simp only [compressionWrites, List.mem_append, List.mem_flatMap, List.mem_range] at member
  rcases member with ⟨r, early, round⟩ | pin
  · rw [(roundWrites_cells _ _ write round).2]
    omega
  · rcases pinWrites_cells _ _ _ _ write pin with ⟨-, above, below⟩
    omega

section Reading

variable {updates : List (PinnedUpdate (Quad ℕ))} {depth u j r : ℕ} {up : PinnedUpdate (Quad ℕ)}

/-- A cell of a block is read off the writes of its round and of its pins. -/
theorem written_preproc (found : updates[u]? = some up) (inside : j < depth) (early : r < 22)
    (column : ℕ) :
    written column ((u * depth + j) * 22 + r) (preprocWrites updates depth) =
      written column ((u * depth + j) * 22 + r) (roundWrites ((u * depth + j) * 22 + r) r) ++
      written column ((u * depth + j) * 22 + r)
        (pinWrites up depth j ((u * depth + j) * 22)) := by
  have positive : 0 < depth := by omega
  have quotient (k i : ℕ) (below : i < depth) : (k * depth + i) / depth = k := by
    rw [Nat.mul_comm, Nat.mul_add_div positive, Nat.div_eq_of_lt below, Nat.add_zero]
  have remainder (k i : ℕ) (below : i < depth) : (k * depth + i) % depth = i := by
    rw [Nat.mul_comm, Nat.mul_add_mod, Nat.mod_eq_of_lt below]
  have comp : ((u * depth + j) * 22 + r) / 22 = u * depth + j := by omega
  have step : ((u * depth + j) * 22 + r) % 22 = r := by omega
  have update : written column ((u * depth + j) * 22 + r) (preprocWrites updates depth) =
      written column ((u * depth + j) * 22 + r)
        ((List.range depth).flatMap fun i => compressionWrites up depth u i) := by
    have place : ((u * depth + j) * 22 + r) / 22 / depth = u := by
      rw [comp, quotient u j inside]
    have own : updates[((u * depth + j) * 22 + r) / 22 / depth]? = some up := by
      rw [place, found]
    rw [preprocWrites, written_zipIdx (fun row => row / 22 / depth) _ own, place]
    rintro ⟨other, k⟩ - write listed
    simp only [List.mem_flatMap, List.mem_range] at listed
    rcases listed with ⟨i, below, listed⟩
    rw [compressionWrites_rows _ _ _ _ write listed, quotient k i below]
  have compression : written column ((u * depth + j) * 22 + r)
        ((List.range depth).flatMap fun i => compressionWrites up depth u i) =
      written column ((u * depth + j) * 22 + r) (compressionWrites up depth u j) := by
    have place : ((u * depth + j) * 22 + r) / 22 % depth = j := by
      rw [comp, remainder u j inside]
    rw [written_blocks (fun row => row / 22 % depth) _ (by rw [place]; exact inside),
      place]
    intro i below write listed
    rw [compressionWrites_rows _ _ _ _ write listed, remainder u i below]
  have round : written column ((u * depth + j) * 22 + r)
        ((List.range 22).flatMap fun r => roundWrites ((u * depth + j) * 22 + r) r) =
      written column ((u * depth + j) * 22 + r)
        (roundWrites ((u * depth + j) * 22 + r) r) := by
    rw [written_blocks (fun row => row % 22) _ (by rw [step]; exact early), step]
    intro i below write listed
    rw [(roundWrites_cells _ _ write listed).2]
    omega
  rw [update, compression, ← round]
  exact written_append _ _ _ _

theorem preproc_round (found : updates[u]? = some up) (inside : j < depth) (early : r < 22)
    {column : ℕ} (low : column < 10) :
    columnsOf (preprocWrites updates depth) column ((u * depth + j) * 22 + r) =
      (written column ((u * depth + j) * 22 + r)
        (roundWrites ((u * depth + j) * 22 + r) r)).getLast?.getD 0 := by
  have silent : written column ((u * depth + j) * 22 + r)
      (pinWrites up depth j ((u * depth + j) * 22)) = [] := by
    apply written_eq_nil_of_column
    rintro write listed rfl
    have above := (pinWrites_cells _ _ _ _ write listed).1
    omega
  rw [columnsOf_apply, written_preproc found inside early, silent, List.append_nil]

theorem preproc_pin (found : updates[u]? = some up) (inside : j < depth) (early : r < 22)
    {column : ℕ} (high : 10 ≤ column) :
    columnsOf (preprocWrites updates depth) column ((u * depth + j) * 22 + r) =
      (written column ((u * depth + j) * 22 + r)
        (pinWrites up depth j ((u * depth + j) * 22))).getLast?.getD 0 := by
  have silent : written column ((u * depth + j) * 22 + r)
      (roundWrites ((u * depth + j) * 22 + r) r) = [] := by
    apply written_eq_nil_of_column
    rintro write listed rfl
    have below := (roundWrites_cells _ _ write listed).1
    omega
  rw [columnsOf_apply, written_preproc found inside early, silent, List.nil_append]

/-- The start of every compression is marked on its first row only. -/
theorem preproc_firstComp (found : updates[u]? = some up) (inside : j < depth) (early : r < 22) :
    columnsOf (preprocWrites updates depth) firstCompC ((u * depth + j) * 22 + r) =
      if r = 0 then 1 else 0 := by
  rw [preproc_pin found inside early (by decide)]
  by_cases first : r = 0 <;> simp [pinWrites, quadWrites, layout, first]

/-- The start of a path is marked on the first row of its first compression. -/
theorem preproc_firstPath (found : updates[u]? = some up) (inside : j < depth) (early : r < 22) :
    columnsOf (preprocWrites updates depth) firstPathC ((u * depth + j) * 22 + r) =
      if j = 0 ∧ r = 0 then 1 else 0 := by
  rw [preproc_pin found inside early (by decide)]
  by_cases first : r = 0 <;> by_cases start : j = 0 <;>
    simp [pinWrites, quadWrites, layout, first, start]

/-- The end of a path is marked on the last row of its last compression. -/
theorem preproc_isRoot (found : updates[u]? = some up) (inside : j < depth) (early : r < 22) :
    columnsOf (preprocWrites updates depth) isRootC ((u * depth + j) * 22 + r) =
      if j = depth - 1 ∧ r = 21 then 1 else 0 := by
  rw [preproc_pin found inside early (by decide)]
  by_cases final : r = 21 <;> by_cases last : j = depth - 1 <;>
    simp [pinWrites, quadWrites, layout, final, last, eq_comm]

/-- Each compression is pinned to its digit of the index. -/
theorem preproc_idxBit (found : updates[u]? = some up) (inside : j < depth) :
    columnsOf (preprocWrites updates depth) idxBitC ((u * depth + j) * 22 + 0) =
      if decide (up.index / 2 ^ j % 2 = 1) then 1 else 0 := by
  have digit : up.index >>> j &&& 1 = up.index / 2 ^ j % 2 := by
    rw [Nat.shiftRight_eq_div_pow, Nat.and_one_is_mod]
  rw [preproc_pin found inside (by omega) (by decide)]
  rcases Nat.mod_two_eq_zero_or_one (up.index / 2 ^ j) with even | odd
  · simp [pinWrites, quadWrites, layout, digit, even]
  · simp [pinWrites, quadWrites, layout, digit, odd]

/-- The two leaves of an update are pinned at the start of its path. -/
theorem preproc_leaves (found : updates[u]? = some up) (inside : 0 < depth) :
    readQuad (columnsOf (preprocWrites updates depth)) leafAC ((u * depth + 0) * 22 + 0) =
        Stwo.residues up.oldLeaf ∧
      readQuad (columnsOf (preprocWrites updates depth)) leafBC ((u * depth + 0) * 22 + 0) =
        Stwo.residues up.newLeaf := by
  constructor
  · ext <;> simp only [readQuad, Quad.tabulate] <;>
      rw [preproc_pin found inside (by omega) (by decide)] <;>
      simp [pinWrites, quadWrites, layout, Stwo.residues]
  · ext <;> simp only [readQuad, Quad.tabulate] <;>
      rw [preproc_pin found inside (by omega) (by decide)] <;>
      simp [pinWrites, quadWrites, layout, Stwo.residues]

/-- Its two roots are pinned at the end. -/
theorem preproc_roots (found : updates[u]? = some up) (inside : 0 < depth) :
    readQuad (columnsOf (preprocWrites updates depth)) rootAC ((u * depth + (depth - 1)) * 22 + 21) =
        Stwo.residues up.preRoot ∧
      readQuad (columnsOf (preprocWrites updates depth)) rootBC
          ((u * depth + (depth - 1)) * 22 + 21) = Stwo.residues up.postRoot := by
  constructor
  · ext <;> simp only [readQuad, Quad.tabulate] <;>
      rw [preproc_pin found (by omega) (by omega) (by decide)] <;>
      simp [pinWrites, quadWrites, layout, Stwo.residues]
  · ext <;> simp only [readQuad, Quad.tabulate] <;>
      rw [preproc_pin found (by omega) (by omega) (by decide)] <;>
      simp [pinWrites, quadWrites, layout, Stwo.residues]

/-- Rows after the last update hold zeros. -/
theorem preproc_idle (updates : List (PinnedUpdate (Quad ℕ))) (depth : ℕ) {row : ℕ}
    (after : updates.length * depth * 22 ≤ row) (column : ℕ) :
    columnsOf (preprocWrites updates depth) column row = 0 := by
  have silent : written column row (preprocWrites updates depth) = [] := by
    apply written_eq_nil_of_row
    rintro write listed rfl
    simp only [preprocWrites, List.mem_flatMap, List.mem_range] at listed
    rcases listed with ⟨⟨up, u⟩, member, j, inside, listed⟩
    have place : write.1.2 / 22 = u * depth + j := compressionWrites_rows _ _ _ _ write listed
    have below : u < updates.length :=
      (List.getElem?_eq_some_iff.mp (List.mk_mem_zipIdx_iff_getElem?.mp member)).1
    have whole : (u + 1) * depth ≤ updates.length * depth := Nat.mul_le_mul_right depth below
    rw [Nat.add_mul] at whole
    omega
  rw [columnsOf_apply, silent]
  rfl

/-- Every earlier row is a round of a compression of an update. -/
theorem row_position {row : ℕ} (before : row < 22 * (updates.length * depth)) :
    ∃ up, updates[row / 22 / depth]? = some up ∧ row / 22 % depth < depth ∧
      row = (row / 22 / depth * depth + row / 22 % depth) * 22 + row % 22 := by
  have comp : row / 22 < depth * updates.length := by
    rw [Nat.mul_comm depth]
    omega
  have positive : 0 < depth := by
    apply Nat.pos_of_ne_zero
    rintro rfl
    omega
  have below : row / 22 / depth < updates.length := Nat.div_lt_of_lt_mul comp
  refine ⟨updates[row / 22 / depth], List.getElem?_eq_getElem below,
    Nat.mod_lt _ positive, ?_⟩
  rw [Nat.div_add_mod', Nat.div_add_mod']

end Reading

/-! ## Soundness -/

section Soundness

variable {updates : List (PinnedUpdate (Quad ℕ))} {depth logSize : ℕ} {main : Columns}

/-- The two lanes: from the old leaf and from the new one. -/
inductive Side where
  | old
  | new

namespace Side

/-- First column of the lane. -/
def base : Side → ℕ
  | old => 0
  | new => laneCols

def leafC : Side → ℕ
  | old => leafAC
  | new => leafBC

def rootC : Side → ℕ
  | old => rootAC
  | new => rootBC

def leaf (up : PinnedUpdate (Quad ℕ)) : Side → Quad ℕ
  | old => up.oldLeaf
  | new => up.newLeaf

def root (up : PinnedUpdate (Quad ℕ)) : Side → Quad ℕ
  | old => up.preRoot
  | new => up.postRoot

end Side

/-- The rows of a lane. -/
theorem Satisfies.rows {preproc : Columns} (satisfied : Satisfies main preproc logSize)
    (side : Side) :
    SatisfiedRows (fun row => readLane main side.base row (previousRow logSize row))
      (readShared main preproc) (readQuad preproc side.leafC) (readQuad preproc side.rootC)
      (2 ^ logSize) where
  holds := by
    intro row inside
    have all := satisfied row inside
    simp only [evaluate, vanish_append] at all
    cases side with
    | old => exact all.1.2
    | new => exact all.2
  chained := by
    intro row inside
    simp only [readLane, previousRow_succ inside]

/-- On first rows of compressions the shared bit is the pinned digit. -/
theorem Satisfies.bit_eq {preproc : Columns} (satisfied : Satisfies main preproc logSize)
    {row : ℕ} (inside : row < 2 ^ logSize) (first : preproc firstCompC row = 1) :
    main cBit row = preproc idxBitC row := by
  have all := satisfied row inside
  simp only [evaluate, vanish_append, vanish_cons, readShared, first, one_mul] at all
  exact sub_eq_zero.mp all.1.1.2.1

theorem blockPins {u j : ℕ} {up : PinnedUpdate (Quad ℕ)} (found : updates[u]? = some up)
    (inside : j < depth) :
    BlockPins (readShared main (columnsOf (preprocWrites updates depth)))
      ((u * depth + j) * 22) where
  scheduled := fun _ early =>
    scheduled_of_written rfl rfl rfl fun _ low => preproc_round found inside early low
  isFirstComp_eq := fun _ early => preproc_firstComp found inside early

/-- Rows of an update fit the trace when all updates do. -/
theorem rows_inside {u j : ℕ} {up : PinnedUpdate (Quad ℕ)} (found : updates[u]? = some up)
    (inside : j < depth) (fits : updates.length * depth * 22 ≤ 2 ^ logSize) :
    (u * depth + j) * 22 + 22 ≤ 2 ^ logSize := by
  have below : u < updates.length := (List.getElem?_eq_some_iff.mp found).1
  have whole : (u + 1) * depth ≤ updates.length * depth := Nat.mul_le_mul_right depth below
  rw [Nat.add_mul] at whole
  omega

/-- The siblings of an update: those on the first rows of its compressions. -/
def siblingsOf (main : Columns) (depth u : ℕ) : List (Quad M31) :=
  (List.range depth).map fun j => readQuad main cSib ((u * depth + j) * 22)

theorem pathPins {u : ℕ} {up : PinnedUpdate (Quad ℕ)}
    (satisfied : Satisfies main (columnsOf (preprocWrites updates depth)) logSize)
    (fits : updates.length * depth * 22 ≤ 2 ^ logSize) (positive : 0 < depth)
    (found : updates[u]? = some up) (side : Side) :
    PathPins (readShared main (columnsOf (preprocWrites updates depth)))
      (readQuad (columnsOf (preprocWrites updates depth)) side.leafC)
      (readQuad (columnsOf (preprocWrites updates depth)) side.rootC)
      (u * depth * 22) depth up.index (Stwo.residues (side.leaf up))
      (Stwo.residues (side.root up)) := by
  have start (j : ℕ) : u * depth * 22 + 22 * j = (u * depth + j) * 22 := by ring
  constructor
  · intro j inside
    rw [start]
    exact blockPins found inside
  · intro j inside
    have marked := preproc_firstPath found inside (r := 0) (by omega)
    rw [Nat.add_zero, ← start] at marked
    simpa [readShared] using marked
  · have final : depth - 1 < depth := by omega
    have marked := preproc_isRoot found final (r := 21) (by omega)
    rw [← start] at marked
    simpa [readShared] using marked
  · intro j inside
    have marked := preproc_firstComp found inside (r := 0) (by omega)
    have digit := preproc_idxBit found inside
    have fit := rows_inside found inside fits
    rw [Nat.add_zero, ← start] at marked digit
    rw [← start] at fit
    rw [← digit]
    exact satisfied.bit_eq (by omega) (by simpa using marked)
  · have pinned := preproc_leaves found positive
    cases side with
    | old => exact pinned.1
    | new => exact pinned.2
  · have pinned := preproc_roots found positive
    rw [start]
    cases side with
    | old => exact pinned.1
    | new => exact pinned.2

/-- Either lane climbs from its leaf to its root, along the shared siblings. -/
theorem Satisfies.lane_root {u : ℕ} {up : PinnedUpdate (Quad ℕ)}
    (satisfied : Satisfies main (columnsOf (preprocWrites updates depth)) logSize)
    (fits : updates.length * depth * 22 ≤ 2 ^ logSize) (positive : 0 < depth)
    (found : updates[u]? = some up) (side : Side) :
    Merkle.pathRoot (compress Stwo.constant) (Stwo.residues (side.leaf up))
      (siblingsOf main depth u) (Merkle.indexBits depth up.index) =
      Stwo.residues (side.root up) := by
  have start (j : ℕ) : u * depth * 22 + 22 * j = (u * depth + j) * 22 := by ring
  have inside : u * depth * 22 + 22 * depth ≤ 2 ^ logSize := by
    have final : depth - 1 < depth := by omega
    have fit := rows_inside found final fits
    rw [← start] at fit
    omega
  have climbed := (satisfied.rows side).path_root
    (pathPins satisfied fits positive found side) positive inside
  rw [blockSiblings_eq_map] at climbed
  simp only [start] at climbed
  exact climbed

end Soundness

/-! ## Completeness -/

section Completeness

/-- The forty columns of a lane. -/
def laneCell (lane : Lane M31) (column : ℕ) : M31 :=
  if column < 8 then stateCell lane.inp column
  else if column < 16 then stateCell lane.sq (column - 8)
  else if column < 24 then stateCell lane.sbox (column - 16)
  else if column < 32 then stateCell lane.out (column - 24)
  else if column < 36 then quadCell lane.cur (column - 32)
  else quadCell lane.leaf (column - 36)

/-- Main columns from the rows of both lanes and the shared columns. -/
def mainOf (a b : ℕ → Lane M31) (sib : ℕ → Quad M31) (bit : ℕ → M31) : Columns :=
  fun column row =>
    if column < 40 then laneCell (a row) column
    else if column < 80 then laneCell (b row) (column - 40)
    else if column < 84 then quadCell (sib row) (column - 80)
    else bit row

/-- Forty consecutive columns holding a lane are read as that lane. -/
theorem readLane_of_cells {main : Columns} {lane : ℕ → Lane M31} {base : ℕ}
    (cells : ∀ column row, column < 40 → main (base + column) row = laneCell (lane row) column)
    (row previous : ℕ) :
    readLane main base row previous = { lane row with outPrev := (lane previous).out } := by
  have state {row : ℕ} (offset : ℕ) {state : State M31}
      (chosen : ∀ i < 8, offset + i < 40 ∧ laneCell (lane row) (offset + i) = stateCell state i) :
      readState main (base + offset) row = state := by
    apply readState_of_cells
    intro i below
    rw [Nat.add_assoc, cells _ _ (chosen i below).1, (chosen i below).2]
  have quad {row : ℕ} (offset : ℕ) {quad : Quad M31}
      (chosen : ∀ i < 4, offset + i < 40 ∧ laneCell (lane row) (offset + i) = quadCell quad i) :
      readQuad main (base + offset) row = quad := by
    apply readQuad_of_cells
    intro i below
    rw [Nat.add_assoc, cells _ _ (chosen i below).1, (chosen i below).2]
  have inp : readState main base row = (lane row).inp := by
    apply state 0
    intro i below
    rw [Nat.zero_add, laneCell, if_pos below]
    exact ⟨by omega, rfl⟩
  have sq : readState main (base + 8) row = (lane row).sq := by
    apply state 8
    intro i below
    rw [laneCell, if_neg (by omega), if_pos (by omega), Nat.add_sub_cancel_left]
    exact ⟨by omega, rfl⟩
  have sbox : readState main (base + 2 * 8) row = (lane row).sbox := by
    apply state 16
    intro i below
    rw [laneCell, if_neg (by omega), if_neg (by omega), if_pos (by omega),
      Nat.add_sub_cancel_left]
    exact ⟨by omega, rfl⟩
  have out (row : ℕ) : readState main (base + 3 * 8) row = (lane row).out := by
    apply state 24
    intro i below
    rw [laneCell, if_neg (by omega), if_neg (by omega), if_neg (by omega), if_pos (by omega),
      Nat.add_sub_cancel_left]
    exact ⟨by omega, rfl⟩
  have cur : readQuad main (base + 4 * 8) row = (lane row).cur := by
    apply quad 32
    intro i below
    rw [laneCell, if_neg (by omega), if_neg (by omega), if_neg (by omega), if_neg (by omega),
      if_pos (by omega), Nat.add_sub_cancel_left]
    exact ⟨by omega, rfl⟩
  have leaf : readQuad main (base + 4 * 8 + 4) row = (lane row).leaf := by
    rw [Nat.add_assoc]
    apply quad 36
    intro i below
    rw [laneCell, if_neg (by omega), if_neg (by omega), if_neg (by omega), if_neg (by omega),
      if_neg (by omega), Nat.add_sub_cancel_left]
    exact ⟨by omega, rfl⟩
  rw [readLane, inp, sq, sbox, out, out, cur, leaf]

theorem readLane_mainOf (a b : ℕ → Lane M31) (sib : ℕ → Quad M31) (bit : ℕ → M31)
    (row previous : ℕ) :
    readLane (mainOf a b sib bit) Side.old.base row previous =
        { a row with outPrev := (a previous).out } ∧
      readLane (mainOf a b sib bit) Side.new.base row previous =
        { b row with outPrev := (b previous).out } := by
  constructor
  · apply readLane_of_cells
    intro column row below
    rw [Side.base, Nat.zero_add, mainOf, if_pos below]
  · apply readLane_of_cells
    intro column row below
    have first : Side.new.base = 40 := rfl
    rw [first, mainOf, if_neg (by omega), if_pos (by omega), Nat.add_sub_cancel_left]

theorem readShared_mainOf (a b : ℕ → Lane M31) (sib : ℕ → Quad M31) (bit : ℕ → M31)
    (preproc : Columns) (row : ℕ) :
    (readShared (mainOf a b sib bit) preproc row).sib = sib row ∧
      (readShared (mainOf a b sib bit) preproc row).bit = bit row :=
  ⟨rfl, rfl⟩

variable (updates : List (PinnedUpdate (Quad ℕ))) (depth : ℕ) (siblings : ℕ → List (Quad M31))

/-- The sibling of a compression. -/
def honestSib (k : ℕ) : Quad M31 :=
  (siblings (k / depth)).getD (k % depth) ⟨0, 0, 0, 0⟩

/-- The update a compression belongs to. -/
def honestUpdate (k : ℕ) : PinnedUpdate (Quad ℕ) :=
  updates.getD (k / depth) ⟨⟨0, 0, 0, 0⟩, ⟨0, 0, 0, 0⟩, 0, ⟨0, 0, 0, 0⟩, ⟨0, 0, 0, 0⟩⟩

def honestBit (k : ℕ) : Bool :=
  decide ((honestUpdate updates depth k).index / 2 ^ (k % depth) % 2 = 1)

/-- The node a lane has reached before a compression. -/
def honestNode (side : Side) (k : ℕ) : Quad M31 :=
  Merkle.pathRoot (compress Stwo.constant)
    (Stwo.residues (side.leaf (honestUpdate updates depth k)))
    ((siblings (k / depth)).take (k % depth))
    ((Merkle.indexBits depth (honestUpdate updates depth k).index).take (k % depth))

def honestRaw (side : Side) (k : ℕ) : State M31 :=
  childSelect (if honestBit updates depth k then 1 else 0) (honestSib depth siblings k)
    (honestNode updates depth siblings side k)

/-- Selectors with the honest siblings and bits. -/
def honestShared (row : ℕ) : Shared M31 where
  rc := readState (columnsOf (preprocWrites updates depth)) 0 row
  isExt := columnsOf (preprocWrites updates depth) isExtC row
  isInt := columnsOf (preprocWrites updates depth) isIntC row
  isFirstComp := columnsOf (preprocWrites updates depth) firstCompC row
  isFirstPath := columnsOf (preprocWrites updates depth) firstPathC row
  isRoot := columnsOf (preprocWrites updates depth) isRootC row
  sib := honestSib depth siblings (row / 22)
  bit := if honestBit updates depth (row / 22) then 1 else 0

/-- One honest lane. -/
def honestSide (side : Side) (row previous : ℕ) : Lane M31 :=
  honestLane (honestRaw updates depth siblings side)
    (fun row => honestNode updates depth siblings side (row / 22))
    (fun row => Stwo.residues (side.leaf (honestUpdate updates depth (row / 22))))
    (updates.length * depth) (honestShared updates depth siblings row) row previous

/-- The main columns of an honest prover. -/
def honestMain : Columns :=
  mainOf (fun row => honestSide updates depth siblings .old row 0)
    (fun row => honestSide updates depth siblings .new row 0)
    (fun row => honestSib depth siblings (row / 22))
    (fun row => if honestBit updates depth (row / 22) then 1 else 0)

variable {updates depth siblings}

theorem honestUpdate_eq {u k : ℕ} {up : PinnedUpdate (Quad ℕ)} (found : updates[u]? = some up)
    (place : k / depth = u) : honestUpdate updates depth k = up := by
  rw [honestUpdate, place, List.getD_eq_getElem?_getD, found]
  rfl

/-- A step of an honest lane: the node of the next compression of the path. -/
theorem honestNode_succ (lengths : ∀ u < updates.length, (siblings u).length = depth)
    (side : Side) {u j : ℕ} {up : PinnedUpdate (Quad ℕ)} (found : updates[u]? = some up)
    (inside : j < depth) :
    (roundsFrom (columnConstant M31) (honestRaw updates depth siblings side (u * depth + j))
        22).left =
      Merkle.pathRoot (compress Stwo.constant) (Stwo.residues (side.leaf up))
        ((siblings u).take (j + 1)) ((Merkle.indexBits depth up.index).take (j + 1)) := by
  have positive : 0 < depth := by omega
  have quotient : (u * depth + j) / depth = u := by
    rw [Nat.mul_comm, Nat.mul_add_div positive, Nat.div_eq_of_lt inside, Nat.add_zero]
  have remainder : (u * depth + j) % depth = j := by
    rw [Nat.mul_comm, Nat.mul_add_mod, Nat.mod_eq_of_lt inside]
  have below : u < updates.length := (List.getElem?_eq_some_iff.mp found).1
  have sibling : (siblings u)[j]? = some ((siblings u).getD j ⟨0, 0, 0, 0⟩) := by
    rw [List.getD_eq_getElem?_getD, List.getElem?_eq_getElem (by rw [lengths u below]; exact inside)]
    rfl
  have digit : (Merkle.indexBits depth up.index)[j]? =
      some (decide (up.index / 2 ^ j % 2 = 1)) := by
    have within : j < (Merkle.indexBits depth up.index).length := by
      rw [Merkle.indexBits_length]
      exact inside
    rw [List.getElem?_eq_getElem within]
    exact congrArg some (Merkle.indexBits_get depth up.index j within)
  rw [Merkle.pathRoot_take_succ _ _ _ _ _ _ sibling digit, honestRaw, roundsFrom_childSelect,
    honestBit, honestSib, honestNode, honestUpdate_eq found quotient, quotient, remainder]
  rfl

/-- Honest lanes meet what the pins ask for. -/
theorem honestPins (lengths : ∀ u < updates.length, (siblings u).length = depth)
    (positive : 0 < depth) (side : Side)
    (opens : ∀ u up, updates[u]? = some up →
      Merkle.pathRoot (compress Stwo.constant) (Stwo.residues (side.leaf up)) (siblings u)
        (Merkle.indexBits depth up.index) = Stwo.residues (side.root up)) :
    HonestPins (honestShared updates depth siblings)
      (readQuad (columnsOf (preprocWrites updates depth)) side.leafC)
      (readQuad (columnsOf (preprocWrites updates depth)) side.rootC)
      (honestRaw updates depth siblings side)
      (fun row => honestNode updates depth siblings side (row / 22))
      (fun row => Stwo.residues (side.leaf (honestUpdate updates depth (row / 22))))
      (updates.length * depth) where
  scheduled := by
    intro row before
    rcases row_position before with ⟨up, found, inside, position⟩
    apply scheduled_of_written rfl rfl rfl
    intro column low
    rw [position]
    have read := preproc_round found inside (Nat.mod_lt row (by omega : 22 > 0)) low
    rw [← position] at read ⊢
    exact read
  isFirstComp_eq := by
    intro row before
    rcases row_position before with ⟨up, found, inside, position⟩
    have read := preproc_firstComp found inside (Nat.mod_lt row (by omega : 22 > 0))
    rw [← position] at read
    exact read
  idle := by
    intro row after
    have zero := preproc_idle updates depth (by omega : updates.length * depth * 22 ≤ row)
    exact ⟨zero _, zero _, zero _, zero _, zero _⟩
  raw_eq := by
    intro k below
    simp only [honestShared, honestRaw, Nat.mul_div_cancel_left k (by omega : 0 < 22)]
  leaf_eq := by
    intro row before
    rcases row_position before with ⟨up, found, inside, position⟩
    have read := preproc_firstPath found inside (Nat.mod_lt row (by omega : 22 > 0))
    rw [← position] at read
    by_cases start : row / 22 % depth = 0 ∧ row % 22 = 0
    · right
      rw [if_pos start] at read
      have pinned := preproc_leaves found positive
      have place : (row / 22 / depth * depth + 0) * 22 + 0 = row := by
        rw [start.1, start.2] at position
        exact position.symm
      rw [place] at pinned
      have own : honestUpdate updates depth (row / 22) = up := honestUpdate_eq found rfl
      have leaf : Stwo.residues (side.leaf up) =
          readQuad (columnsOf (preprocWrites updates depth)) side.leafC row := by
        cases side with
        | old => exact pinned.1.symm
        | new => exact pinned.2.symm
      refine ⟨read, ?_, ?_⟩
      · rw [own, leaf]
      · rw [honestNode, own, start.1, ← leaf]
        rfl
    · left
      rw [if_neg start] at read
      exact read
  first := by
    intro nonempty
    have before : 0 < 22 * (updates.length * depth) := by omega
    rcases row_position before with ⟨up, found, inside, -⟩
    have read := preproc_firstPath found inside (r := 0) (by omega)
    simp only [Nat.zero_div, Nat.zero_mod, Nat.zero_mul, Nat.add_zero, and_self, if_true] at read
    exact read
  cur_next := by
    intro k below off
    have before : 22 * (k + 1) < 22 * (updates.length * depth) := by omega
    rcases row_position before with ⟨up, found, inside, position⟩
    have comp : 22 * (k + 1) / 22 = k + 1 := by omega
    have step : 22 * (k + 1) % 22 = 0 := by omega
    rw [comp] at found inside position
    rw [step] at position
    have read := preproc_firstPath found inside (r := 0) (by omega)
    rw [← position] at read
    have inner : (k + 1) % depth ≠ 0 := by
      intro start
      rw [if_pos ⟨start, rfl⟩] at read
      exact absurd (off.symm.trans read) zero_ne_one
    have previous : k = (k + 1) / depth * depth + ((k + 1) % depth - 1) := by
      have whole := Nat.div_add_mod' (k + 1) depth
      omega
    have reached := honestNode_succ lengths side found (j := (k + 1) % depth - 1) (by omega)
    have step : (k + 1) % depth - 1 + 1 = (k + 1) % depth := by omega
    rw [← previous, step] at reached
    rw [reached, comp, honestNode, honestUpdate_eq found rfl]
  root_eq := by
    intro row before
    rcases row_position before with ⟨up, found, inside, position⟩
    have read := preproc_isRoot found inside (Nat.mod_lt row (by omega : 22 > 0))
    rw [← position] at read
    by_cases last : row / 22 % depth = depth - 1 ∧ row % 22 = 21
    · right
      rw [if_pos last] at read
      refine ⟨read, ?_⟩
      have pinned := preproc_roots found positive
      have place : (row / 22 / depth * depth + (depth - 1)) * 22 + 21 = row := by
        rw [last.1, last.2] at position
        exact position.symm
      have comp : row / 22 / depth * depth + (depth - 1) = row / 22 := by omega
      have reached := honestNode_succ lengths side found (j := depth - 1) (by omega)
      have below : row / 22 / depth < updates.length := (List.getElem?_eq_some_iff.mp found).1
      have whole : depth - 1 + 1 = depth := by omega
      rw [comp, whole, List.take_of_length_le (by rw [lengths _ below]),
        List.take_of_length_le (by rw [Merkle.indexBits_length]), opens _ up found] at reached
      rw [honestOut, if_pos before, last.2, reached]
      rw [place] at pinned
      cases side with
      | old => exact pinned.1.symm
      | new => exact pinned.2.symm
    · left
      rw [if_neg last] at read
      exact read

/-- Honest bits are the pinned digits. -/
theorem honestShared_idxBit (row : ℕ) :
    (honestShared updates depth siblings row).isFirstComp *
      ((honestShared updates depth siblings row).bit -
        columnsOf (preprocWrites updates depth) idxBitC row) = 0 := by
  by_cases before : row < 22 * (updates.length * depth)
  · rcases row_position before with ⟨up, found, inside, position⟩
    by_cases first : row % 22 = 0
    · have digit := preproc_idxBit found inside
      rw [first] at position
      rw [← position] at digit
      have own : honestUpdate updates depth (row / 22) = up := honestUpdate_eq found rfl
      rw [digit, honestShared, honestBit, own, sub_self, mul_zero]
    · have read := preproc_firstComp found inside (Nat.mod_lt row (by omega : 22 > 0))
      rw [← position, if_neg first] at read
      rw [honestShared, read, zero_mul]
  · have read := preproc_idle updates depth
      (by omega : updates.length * depth * 22 ≤ row) firstCompC
    rw [honestShared, read, zero_mul]

/-- When every update has one list of siblings that opens both leaves, the
honest main columns satisfy all constraints. -/
theorem honestMain_satisfies (lengths : ∀ u < updates.length, (siblings u).length = depth)
    (positive : 0 < depth) (nonempty : updates ≠ []) {logSize : ℕ}
    (opens : ∀ u up, updates[u]? = some up → ∀ side : Side,
      Merkle.pathRoot (compress Stwo.constant) (Stwo.residues (side.leaf up)) (siblings u)
        (Merkle.indexBits depth up.index) = Stwo.residues (side.root up)) :
    Satisfies (honestMain updates depth siblings) (columnsOf (preprocWrites updates depth))
      logSize := by
  intro row inside
  have some : 0 < updates.length * depth :=
    Nat.mul_pos (List.length_pos_iff.mpr nonempty) positive
  have follows : 0 < row → previousRow logSize row = row - 1 := by
    intro later
    have succ : row - 1 + 1 = row := by omega
    rw [← succ, previousRow_succ (by omega), Nat.add_sub_cancel]
  have shared : readShared (honestMain updates depth siblings)
      (columnsOf (preprocWrites updates depth)) row = honestShared updates depth siblings row := by
    have cells := readShared_mainOf (fun row => honestSide updates depth siblings .old row 0)
      (fun row => honestSide updates depth siblings .new row 0)
      (fun row => honestSib depth siblings (row / 22))
      (fun row => if honestBit updates depth (row / 22) then 1 else 0)
      (columnsOf (preprocWrites updates depth)) row
    unfold honestMain honestShared
    rw [← cells.1, ← cells.2]
    rfl
  have lanes := readLane_mainOf (fun row => honestSide updates depth siblings .old row 0)
    (fun row => honestSide updates depth siblings .new row 0)
    (fun row => honestSib depth siblings (row / 22))
    (fun row => if honestBit updates depth (row / 22) then 1 else 0) row (previousRow logSize row)
  have old := (honestPins lengths positive .old fun u up found => opens u up found .old).vanish
    follows some
  have new := (honestPins lengths positive .new fun u up found => opens u up found .new).vanish
    follows some
  simp only [evaluate, vanish_append, vanish_cons, vanish_nil, shared]
  refine ⟨⟨⟨?_, ?_, trivial⟩, ?_⟩, ?_⟩
  · have boolean : (honestShared updates depth siblings row).bit *
        (honestShared updates depth siblings row).bit -
        (honestShared updates depth siblings row).bit = 0 := by
      unfold honestShared
      dsimp only
      split <;> simp
    rw [boolean, mul_zero]
  · exact honestShared_idxBit row
  · have lane := lanes.1
    rw [Side.base] at lane
    unfold honestMain
    rw [lane]
    exact old
  · have lane := lanes.2
    rw [Side.base] at lane
    unfold honestMain
    rw [lane]
    exact new

/-- The shared columns of an honest prover carry the chosen siblings. -/
theorem siblingsOf_honestMain (lengths : ∀ u < updates.length, (siblings u).length = depth)
    {u : ℕ} (below : u < updates.length) :
    siblingsOf (honestMain updates depth siblings) depth u = siblings u := by
  apply List.ext_getElem
  · rw [lengths u below]
    simp [siblingsOf]
  · intro j inside within
    have bounded : j < depth := by
      rw [← lengths u below]
      exact within
    have positive : 0 < depth := by omega
    have comp : (u * depth + j) * 22 / 22 = u * depth + j := by omega
    have quotient : (u * depth + j) / depth = u := by
      rw [Nat.mul_comm, Nat.mul_add_div positive, Nat.div_eq_of_lt bounded, Nat.add_zero]
    have remainder : (u * depth + j) % depth = j := by
      rw [Nat.mul_comm, Nat.mul_add_mod, Nat.mod_eq_of_lt bounded]
    have cells : readQuad (honestMain updates depth siblings) cSib ((u * depth + j) * 22) =
        honestSib depth siblings ((u * depth + j) * 22 / 22) := rfl
    simp only [siblingsOf, List.getElem_map, List.getElem_range]
    rw [cells, comp, honestSib, quotient, remainder, List.getD_eq_getElem?_getD,
      List.getElem?_eq_getElem within]
    rfl

end Completeness

end NonceUpdateT8
end Recursive
end QLSA
