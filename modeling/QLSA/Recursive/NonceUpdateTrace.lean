import QLSA.Recursive.MerklePathT8Trace
import QLSA.Recursive.NonceUpdateT8Air

namespace QLSA
namespace Recursive
namespace NonceUpdateT8

open Hash Mersenne Machine

/-!
# The trace builder of the update circuit

The builder climbs the one path of every update with both lanes.  A lane does
what the builder of the path circuit does, and its pins are those of a path
circuit over the leaves and roots of its side.  So the two lanes of a filled
trace satisfy their constraints as two path circuits do, on siblings and bits
that they share.
-/

/-! ## The builder -/

/-- Both leaves, the siblings and the direction bits of the updates. -/
structure Witness where
  oldLeaves : List (Quad ℕ)
  newLeaves : List (Quad ℕ)
  sibs : List (List (Quad ℕ))
  bits : List (List Bool)

namespace Witness

variable (witness : Witness)

/-- The paths of one lane. -/
def openings : Side → MerklePathT8.Openings
  | .old => ⟨witness.oldLeaves, witness.sibs, witness.bits⟩
  | .new => ⟨witness.newLeaves, witness.sibs, witness.bits⟩

/-- One level of an update: the compression of either lane. -/
def fillLevel (filled : MerklePathT8.Filled × MerklePathT8.Filled) (place : ℕ × ℕ) :
    MerklePathT8.Filled × MerklePathT8.Filled :=
  ((witness.openings .old).fillCompression filled.1 place,
    (witness.openings .new).fillCompression filled.2 place)

/-- The loops over the updates and their levels. -/
def fillUpdates (nUp depth : ℕ) : MerklePathT8.Filled × MerklePathT8.Filled :=
  let start := ⟨[], [], ⟨0, 0, 0, 0⟩, zeroState, []⟩
  ((List.range nUp).flatMap fun u => (List.range depth).map fun j => (u, j)).foldl
    witness.fillLevel (start, start)

end Witness

/-- Rows of a lane with its padding behind them. -/
def laneRows (filled : MerklePathT8.Filled) (idle : ℕ) : List MerklePathT8.MainRow :=
  (filled.rows ++ paddingRows filled.carryState idle).zipIdx.map fun entry =>
    MerklePathT8.mainRow entry.1
      (if entry.2 % 22 = 0 then filled.heads[entry.2 / 22]? else none)

/-- The columns of two lanes; siblings and bits are those of either. -/
def columnsOfRows (a b : ℕ → MerklePathT8.MainRow) : Columns :=
  mainOf (fun row => (a row).lane (a row)) (fun row => (b row).lane (b row))
    (fun row => (a row).sib) (fun row => (a row).bit)

/-- Main columns, and the two roots that the lanes of each update reach.  The assertions of the
source are errors here, with the text that a panic would show. -/
def buildTraceRaw (witness : Witness) (logSize : ℕ) :
    Except String (Columns × List (Quad ℕ × Quad ℕ)) :=
  let nUp := witness.oldLeaves.length
  if nUp < 1 then .error "need ≥ 1 update"
  else if ¬ (witness.newLeaves.length = nUp ∧ witness.sibs.length = nUp ∧
      witness.bits.length = nUp) then
    .error "assertion failed: new_leaves.len() == n_up && sibs.len() == n_up && bits.len() == n_up"
  else
    let depth := (witness.sibs.getD 0 []).length
    if depth < 1 then .error "depth must be ≥ 1"
    else if ¬ (witness.sibs.zip witness.bits).all
        (fun path => path.1.length = depth ∧ path.2.length = depth) then
      .error s!"every update's path must be depth {depth}"
    else if 2 ^ logSize < nUp * depth * 22 then .error "updates exceed trace capacity"
    else
      let filled := witness.fillUpdates nUp depth
      let idle := 2 ^ logSize - nUp * depth * 22
      .ok (columnsOfRows (MerklePathT8.traceRow (laneRows filled.1 idle))
          (MerklePathT8.traceRow (laneRows filled.2 idle)),
        filled.1.roots.zip filled.2.roots)

/-! ## Two path builders -/

/-- The places of equally deep paths, in the order of the loops. -/
theorem layoutFrom_replicate (first count depth : ℕ) :
    layoutFrom first (List.replicate count depth) =
      (List.range count).flatMap fun u =>
        (List.range depth).map fun j => (first + u, j) := by
  induction count generalizing first with
  | zero => rfl
  | succ count ih =>
      rw [List.replicate_succ, layoutFrom, ih, List.range_succ_eq_map, List.flatMap_cons,
        List.flatMap_map]
      congr 1
      apply List.flatMap_congr
      intro u _
      rw [Nat.add_assoc, Nat.add_comm 1 u]

theorem foldl_pair {α β γ : Type*} (f : α → γ → α) (g : β → γ → β) (list : List γ) (a : α)
    (b : β) : list.foldl (fun state c => (f state.1 c, g state.2 c)) (a, b) =
      (list.foldl f a, list.foldl g b) := by
  induction list generalizing a b with
  | nil => rfl
  | cons c rest ih => exact ih (f a c) (g b c)

section Lanes

variable {witness : Witness} {nUp depth logSize : ℕ}

/-- What the assertions of the builder ask for. -/
structure Witness.Valid (witness : Witness) (nUp depth logSize : ℕ) : Prop where
  nonempty : 1 ≤ nUp
  oldLeaves : witness.oldLeaves.length = nUp
  newLeaves : witness.newLeaves.length = nUp
  sibs : witness.sibs.length = nUp
  bits : witness.bits.length = nUp
  positive : 1 ≤ depth
  sibDepths : ∀ path ∈ witness.sibs, path.length = depth
  bitDepths : ∀ path ∈ witness.bits, path.length = depth
  fits : nUp * depth * 22 ≤ 2 ^ logSize

theorem Witness.Valid.depths (valid : witness.Valid nUp depth logSize) (side : Side) :
    (witness.openings side).depths = List.replicate nUp depth := by
  have sibs : (witness.openings side).sibs = witness.sibs := by cases side <;> rfl
  rw [MerklePathT8.Openings.depths, sibs, ← valid.sibs]
  exact List.map_eq_replicate_iff.mpr valid.sibDepths

theorem Witness.Valid.fillUpdates (valid : witness.Valid nUp depth logSize) :
    witness.fillUpdates nUp depth =
      ((witness.openings .old).fillCompressions, (witness.openings .new).fillCompressions) := by
  have places := layoutFrom_replicate 0 nUp depth
  simp only [Nat.zero_add] at places
  rw [Witness.fillUpdates, ← places]
  unfold Witness.fillLevel
  rw [foldl_pair, MerklePathT8.Openings.fillCompressions, MerklePathT8.Openings.fillCompressions,
    valid.depths .old, valid.depths .new]
  rfl

end Lanes

/-! ## Two path circuits -/

section Pins

variable (updates : List (PinnedUpdate (Quad ℕ))) (depth : ℕ)

/-- The paths one lane is pinned to. -/
def sidePaths (side : Side) : MerklePathT8.Paths where
  leaves := updates.map fun up => side.leaf up
  indices := updates.map PinnedUpdate.index
  roots := updates.map fun up => side.root up
  depths := List.replicate updates.length depth

/-- The preprocessed columns as one lane sees them. -/
def laneView (preproc : Columns) (side : Side) (row : ℕ) : MerklePathT8.PreprocRow where
  rc := readState preproc 0 row
  isExt := preproc isExtC row
  isInt := preproc isIntC row
  isFirstComp := preproc firstCompC row
  isFirstPath := preproc firstPathC row
  idxBit := preproc idxBitC row
  leaf := readQuad preproc side.leafC row
  isRoot := preproc isRootC row
  root := readQuad preproc side.rootC row

variable {updates depth} {u j r : ℕ} {up : PinnedUpdate (Quad ℕ)}

theorem sidePaths_getD (side : Side) (found : updates[u]? = some up) :
    (sidePaths updates depth side).leaf u = side.leaf up ∧
      (sidePaths updates depth side).index u = up.index ∧
      (sidePaths updates depth side).root u = side.root up ∧
      (sidePaths updates depth side).depth u = depth := by
  rcases List.getElem?_eq_some_iff.mp found with ⟨below, rfl⟩
  simp [sidePaths, MerklePathT8.Paths.leaf, MerklePathT8.Paths.index, MerklePathT8.Paths.root,
    MerklePathT8.Paths.depth, List.getD_eq_getElem?_getD, below]

theorem preproc_leafQuad (side : Side) (found : updates[u]? = some up) (inside : j < depth)
    (early : r < 22) :
    readQuad (columnsOf (preprocWrites updates depth)) side.leafC ((u * depth + j) * 22 + r) =
      if r = 0 ∧ j = 0 then (side.leaf up).map m31 else ⟨0, 0, 0, 0⟩ := by
  have high : 10 ≤ side.leafC := by cases side <;> decide
  ext <;> simp only [readQuad, Quad.tabulate] <;>
    rw [preproc_pin found inside early (by omega)] <;>
    cases side <;> by_cases first : r = 0 <;> by_cases start : j = 0 <;>
    simp [pinWrites, quadWrites, layout, Side.leafC, Side.leaf, first, start]

theorem preproc_rootQuad (side : Side) (found : updates[u]? = some up) (inside : j < depth)
    (early : r < 22) :
    readQuad (columnsOf (preprocWrites updates depth)) side.rootC ((u * depth + j) * 22 + r) =
      if j = depth - 1 ∧ r = 21 then (side.root up).map m31 else ⟨0, 0, 0, 0⟩ := by
  have high : 10 ≤ side.rootC := by cases side <;> decide
  ext <;> simp only [readQuad, Quad.tabulate] <;>
    rw [preproc_pin found inside early (by omega)] <;>
    cases side <;> by_cases last : j = depth - 1 <;> by_cases final : r = 21 <;>
    simp [pinWrites, quadWrites, layout, Side.rootC, Side.root, last, final, eq_comm]

theorem preproc_idxBit_later (found : updates[u]? = some up) (inside : j < depth) (early : r < 22)
    (later : r ≠ 0) :
    columnsOf (preprocWrites updates depth) idxBitC ((u * depth + j) * 22 + r) = 0 := by
  rw [preproc_pin found inside early (by decide)]
  simp [pinWrites, quadWrites, layout, later]

/-- A lane of an update sees the pins of a path. -/
theorem laneView_compression (side : Side) (found : updates[u]? = some up) (inside : j < depth)
    (early : r < 22) (narrow : depth ≤ 32) :
    laneView (columnsOf (preprocWrites updates depth)) side ((u * depth + j) * 22 + r) =
      (sidePaths updates depth side).compressionRow u j r := by
  rcases sidePaths_getD side found with ⟨leaf, index, root, bottom⟩
  have scheduled := (blockPins found inside : BlockPins (readShared (fun _ _ => 0)
    (columnsOf (preprocWrites updates depth))) _).scheduled r early
  have constants : (roundSchedule r).2.map m31 =
      (roundSchedule r).2.map fun word : ℕ => (word : M31) := by
    ext <;> exact m31_eq_cast _
  rw [laneView, MerklePathT8.Paths.compressionRow, MerklePathT8.PreprocRow.mk.injEq, leaf, root,
    bottom]
  refine ⟨?_, ?_, ?_, ?_, ?_, ?_, ?_, ?_, ?_⟩
  · rw [constants]
    exact scheduled.rc_eq
  · exact scheduled.isExt_eq
  · exact scheduled.isInt_eq
  · exact preproc_firstComp found inside early
  · rw [preproc_firstPath found inside early]
    simp only [and_comm]
  · by_cases first : r = 0
    · have digit := @MerklePathT8.compressionRow_idxBit (sidePaths updates depth side) u j
        (.inl (by omega))
      rw [index] at digit
      rw [first, preproc_idxBit found inside, ← digit]
      rfl
    · rw [if_neg first, preproc_idxBit_later found inside early first]
  · exact preproc_leafQuad side found inside early
  · rw [preproc_isRoot found inside early]
  · exact preproc_rootQuad side found inside early

theorem start_replicate {count block : ℕ} (inside : block ≤ count) :
    start (List.replicate count depth) block = block * depth := by
  rw [start, List.take_replicate, List.sum_replicate, Nat.min_eq_left inside, smul_eq_mul]

/-- On every row a lane of the update circuit sees the pins of its path circuit. -/
theorem laneView_eq (side : Side) {logSize : ℕ} (narrow : depth ≤ 32)
    (fits : updates.length * depth * 22 ≤ 2 ^ logSize) (row : ℕ) :
    laneView (columnsOf (preprocWrites updates depth)) side row =
      (sidePaths updates depth side).preprocRow logSize row := by
  have total : (sidePaths updates depth side).depths.sum = updates.length * depth := by
    rw [sidePaths, List.sum_replicate, smul_eq_mul]
  by_cases before : row < 22 * (updates.length * depth)
  · rcases row_position before with ⟨up, found, inside, position⟩
    have below : row / 22 / depth < updates.length := (List.getElem?_eq_some_iff.mp found).1
    have listed : (sidePaths updates depth side).depths[row / 22 / depth]? = some depth := by
      rw [sidePaths, List.getElem?_replicate, if_pos below]
    have begins : start (sidePaths updates depth side).depths (row / 22 / depth) =
        row / 22 / depth * depth := start_replicate below.le
    have early : row % 22 < 22 := Nat.mod_lt row (by omega)
    have fit := MerklePathT8.room listed (total ▸ fits)
    have paths := MerklePathT8.preprocRow_eq listed inside early fit
    rw [begins, ← position] at paths
    rw [paths, ← laneView_compression side found inside early narrow, ← position]
  · have idle := preproc_idle updates depth (by omega : updates.length * depth * 22 ≤ row)
    rw [MerklePathT8.preprocRow_idle (total ▸ by omega)]
    simp only [laneView, readState, readQuad, State.tabulate, Quad.tabulate, idle]
    rfl

end Pins

/-! ## The filled trace -/

section Filled

variable {updates : List (PinnedUpdate (Quad ℕ))} {depth logSize : ℕ} {witness : Witness}

/-- The witness is one for the pinned updates: it has their leaves and the digits of their
indices, and either lane reaches its root. -/
structure Witness.Describes (witness : Witness) (updates : List (PinnedUpdate (Quad ℕ)))
    (depth : ℕ) : Prop where
  oldLeaves : witness.oldLeaves = updates.map PinnedUpdate.oldLeaf
  newLeaves : witness.newLeaves = updates.map PinnedUpdate.newLeaf
  bits : witness.bits = updates.map fun up => Merkle.indexBits depth up.index
  reached : ∀ u up, updates[u]? = some up → ∀ side : Side,
    (witness.openings side).root u = side.root up

theorem Witness.Describes.paths (describes : witness.Describes updates depth)
    (valid : witness.Valid updates.length depth logSize) (side : Side) :
    (witness.openings side).paths (updates.map PinnedUpdate.index)
      (updates.map fun up => side.root up) = sidePaths updates depth side := by
  have leaves : (witness.openings side).leaves = updates.map fun up => side.leaf up := by
    cases side with
    | old => exact describes.oldLeaves
    | new => exact describes.newLeaves
  rw [MerklePathT8.Openings.paths, sidePaths, leaves, valid.depths side]

theorem Witness.Describes.indexed (describes : witness.Describes updates depth)
    (valid : witness.Valid updates.length depth logSize) (side : Side) :
    (witness.openings side).Indexed (updates.map PinnedUpdate.index) := by
  intro path sibs listed
  have own : (witness.openings side).sibs = witness.sibs := by cases side <;> rfl
  have bits : (witness.openings side).bits = witness.bits := by cases side <;> rfl
  rw [own] at listed
  have below : path < updates.length := by
    rw [← valid.sibs]
    exact (List.getElem?_eq_some_iff.mp listed).1
  have depth : sibs.length = depth := valid.sibDepths sibs (List.mem_of_getElem? listed)
  rw [bits, describes.bits, depth]
  simp [List.getD_eq_getElem?_getD, below]

variable (witness) in
/-- The filled rows of one lane. -/
def Witness.sideRows (nUp depth logSize : ℕ) (side : Side) : ℕ → MerklePathT8.MainRow :=
  MerklePathT8.traceRow (laneRows (witness.openings side).fillCompressions
    (2 ^ logSize - nUp * depth * 22))

theorem Witness.Valid.sum_depths {nUp : ℕ} (valid : witness.Valid nUp depth logSize)
    (side : Side) : (witness.openings side).depths.sum = nUp * depth := by
  rw [valid.depths side, List.sum_replicate, smul_eq_mul]

/-- The rows of a lane are those of its path builder, whatever indices have its bits. -/
theorem Witness.Valid.sideRows_eq {nUp : ℕ} (valid : witness.Valid nUp depth logSize) (side : Side)
    {indices : List ℕ} (indexed : (witness.openings side).Indexed indices)
    (roots : List (Quad ℕ)) : ∀ row < 2 ^ logSize,
      witness.sideRows nUp depth logSize side row =
        (witness.openings side).builtRow indices roots row := by
  intro row inside
  have total := valid.sum_depths side
  have filled := indexed.filled_rows roots (total ▸ valid.fits)
  rw [total] at filled
  rw [Witness.sideRows, laneRows, filled, MerklePathT8.traceRow_eq inside]

theorem Witness.Describes.rows_eq (describes : witness.Describes updates depth)
    (valid : witness.Valid updates.length depth logSize) (side : Side) :
    ∀ row < 2 ^ logSize, witness.sideRows updates.length depth logSize side row =
      (witness.openings side).builtRow (updates.map PinnedUpdate.index)
        (updates.map fun up => side.root up) row :=
  valid.sideRows_eq side (describes.indexed valid side) (updates.map fun up => side.root up)

/-- The digits that the bits of a lane are. -/
theorem Witness.Valid.indexed {nUp : ℕ} (valid : witness.Valid nUp depth logSize) (side : Side) :
    (witness.openings side).Indexed
      ((witness.openings side).bits.map Merkle.position) := by
  apply MerklePathT8.indexed_positions
  have own : (witness.openings side).bits = witness.bits := by cases side <;> rfl
  rw [valid.depths side, own, ← valid.bits]
  exact List.map_eq_replicate_iff.mpr valid.bitDepths

/-- The first row of a compression holds its bit. -/
theorem Witness.Valid.bit_at {nUp u j : ℕ} (valid : witness.Valid nUp depth logSize) (side : Side)
    (below : u < nUp) (inside : j < depth) :
    (witness.sideRows nUp depth logSize side ((u * depth + j) * 22)).bit =
      if (witness.openings side).bit u j then 1 else 0 := by
  have total := valid.sum_depths side
  have found : (witness.openings side).depths[u]? = some depth := by
    rw [valid.depths side, List.getElem?_replicate, if_pos below]
  have begins : start (witness.openings side).depths u = u * depth := by
    rw [valid.depths side]
    exact start_replicate below.le
  have place : u * depth + j = start (witness.openings side).depths u + j := by rw [begins]
  have early : u * depth + j < nUp * depth := by
    have next : (u + 1) * depth ≤ nUp * depth := Nat.mul_le_mul_right depth below
    rw [Nat.add_one_mul] at next
    omega
  have fits := valid.fits
  have row : (u * depth + j) * 22 / 22 = u * depth + j := Nat.mul_div_cancel _ (by omega)
  have digit : (witness.openings side).bit u j = MerklePathT8.honestBit
      ((witness.openings side).paths ((witness.openings side).bits.map Merkle.position) [])
      (u * depth + j) := (valid.indexed side).honestBit found inside place
  rw [valid.sideRows_eq side (valid.indexed side) [] _ (by omega), MerklePathT8.Openings.builtRow,
    row, if_pos ⟨Nat.mul_mod_left _ 22, by omega⟩, digit]
  rfl

/-- A filled lane satisfies its path circuit. -/
theorem Witness.Describes.side_satisfies (describes : witness.Describes updates depth)
    (valid : witness.Valid updates.length depth logSize) (narrow : depth ≤ 32) (side : Side) :
    MerklePathT8.Satisfies (witness.sideRows updates.length depth logSize side)
      ((sidePaths updates depth side).preprocRow logSize) logSize := by
  have total := valid.sum_depths side
  have fits : (witness.openings side).depths.sum * 22 ≤ 2 ^ logSize := total ▸ valid.fits
  have filled := describes.rows_eq valid side
  have leaves : (witness.openings side).leaves.length = updates.length := by
    cases side with
    | old => exact valid.oldLeaves
    | new => exact valid.newLeaves
  have lengths : (witness.openings side).depths.length = (witness.openings side).leaves.length := by
    rw [valid.depths side, List.length_replicate, leaves]
  have opens : MerklePathT8.Opens ((witness.openings side).paths
      (updates.map PinnedUpdate.index) (updates.map fun up => side.root up))
      (witness.openings side).siblings :=
    MerklePathT8.Openings.opens (describes.indexed valid side) lengths (by
      intro path inside
      rw [leaves] at inside
      have found : updates[path]? = some updates[path] := List.getElem?_eq_getElem inside
      have reached := describes.reached path _ found side
      rw [List.getD_eq_getElem?_getD, List.getElem?_map, found, Option.map_some,
        Option.getD_some, ← reached, MerklePathT8.norm4_root])
  rw [← describes.paths valid side]
  refine opens.satisfies (MerklePathT8.built_carries fits filled)
    (fun row inside => MerklePathT8.built_lane fits filled inside) fits ?_ ?_
  · intro d member
    rw [MerklePathT8.Openings.paths, valid.depths side] at member
    rw [List.eq_of_mem_replicate member]
    exact narrow
  · rw [MerklePathT8.Openings.paths, total]
    exact Nat.mul_pos valid.nonempty valid.positive

/-- Sibling and bit of a row depend on the siblings and indices alone. -/
theorem builtRow_shared {first second : MerklePathT8.Openings} (sibs : first.sibs = second.sibs)
    (indices : List ℕ) (firstRoots secondRoots : List (Quad ℕ)) (row : ℕ) :
    (first.builtRow indices firstRoots row).sib = (second.builtRow indices secondRoots row).sib ∧
      (first.builtRow indices firstRoots row).bit =
        (second.builtRow indices secondRoots row).bit := by
  have head (openings : MerklePathT8.Openings) (roots : List (Quad ℕ)) (k : ℕ) :
      (openings.head indices roots k).sib = Stwo.words (((openings.sibs.getD
          ((Machine.layout (openings.sibs.map List.length))[k]?.getD (0, 0)).1 []).map Stwo.residues).getD
          ((Machine.layout (openings.sibs.map List.length))[k]?.getD (0, 0)).2 ⟨0, 0, 0, 0⟩) ∧
        (openings.head indices roots k).bit = decide (indices.getD
          ((Machine.layout (openings.sibs.map List.length))[k]?.getD (0, 0)).1 0 /
          2 ^ ((Machine.layout (openings.sibs.map List.length))[k]?.getD (0, 0)).2 % 2 = 1) :=
    ⟨rfl, rfl⟩
  have depths : first.depths = second.depths := congrArg (List.map List.length) sibs
  have cells (round : RoundRow ℕ) (filled : MerklePathT8.Head) :
      (MerklePathT8.mainRow round (some filled)).sib = filled.sib.map m31 ∧
        (MerklePathT8.mainRow round (some filled)).bit = if filled.bit then m31 1 else 0 :=
    ⟨rfl, rfl⟩
  have empty (round : RoundRow ℕ) : (MerklePathT8.mainRow round none).sib = ⟨0, 0, 0, 0⟩ ∧
      (MerklePathT8.mainRow round none).bit = 0 := ⟨rfl, rfl⟩
  rw [MerklePathT8.Openings.builtRow, MerklePathT8.Openings.builtRow, depths]
  split
  case isTrue =>
    rcases head first firstRoots (row / 22) with ⟨firstSib, firstBit⟩
    rcases head second secondRoots (row / 22) with ⟨secondSib, secondBit⟩
    rw [(cells _ _).1, (cells _ _).1, (cells _ _).2, (cells _ _).2, firstSib, firstBit, secondSib,
      secondBit, sibs]
    exact ⟨rfl, rfl⟩
  case isFalse =>
    rw [(empty _).1, (empty _).1, (empty _).2, (empty _).2]
    exact ⟨rfl, rfl⟩

/-- The two lanes share siblings and bits. -/
theorem Witness.Describes.shared (describes : witness.Describes updates depth)
    (valid : witness.Valid updates.length depth logSize) {row : ℕ} (inside : row < 2 ^ logSize) :
    (witness.sideRows updates.length depth logSize .new row).sib =
        (witness.sideRows updates.length depth logSize .old row).sib ∧
      (witness.sideRows updates.length depth logSize .new row).bit =
        (witness.sideRows updates.length depth logSize .old row).bit := by
  have sibs : (witness.openings .new).sibs = (witness.openings .old).sibs := rfl
  have same := builtRow_shared sibs (updates.map PinnedUpdate.index)
    (updates.map fun up => Side.new.root up) (updates.map fun up => Side.old.root up) row
  rw [describes.rows_eq valid .old row inside, describes.rows_eq valid .new row inside]
  exact same

/-- Columns of rows are read back. -/
theorem readLane_columnsOfRows (a b : ℕ → MerklePathT8.MainRow) (row previous : ℕ) :
    readLane (columnsOfRows a b) 0 row previous = (a row).lane (a previous) ∧
      readLane (columnsOfRows a b) laneCols row previous = (b row).lane (b previous) :=
  readLane_mainOf _ _ _ _ row previous

theorem readShared_columnsOfRows (a b : ℕ → MerklePathT8.MainRow) (preproc : Columns) (row : ℕ) :
    readShared (columnsOfRows a b) preproc row = (laneView preproc .old row).shared (a row) := rfl

/-- Two path circuits that share siblings and bits are the update circuit. -/
theorem evaluate_columnsOfRows (a b : ℕ → MerklePathT8.MainRow) (preproc : Columns)
    {row previous : ℕ} (shared : (b row).sib = (a row).sib ∧ (b row).bit = (a row).bit)
    (old : Vanish (MerklePathT8.evaluate (a row) (a previous) (laneView preproc .old row)))
    (new : Vanish (MerklePathT8.evaluate (b row) (b previous) (laneView preproc .new row))) :
    Vanish (evaluate (columnsOfRows a b) preproc row previous) := by
  have same : (laneView preproc .new row).shared (b row) =
      (laneView preproc .old row).shared (a row) := by
    rw [MerklePathT8.PreprocRow.shared, shared.1, shared.2]
    rfl
  rcases readLane_columnsOfRows a b row previous with ⟨first, second⟩
  rw [MerklePathT8.evaluate, vanish_append] at old new
  rw [evaluate, first, second, readShared_columnsOfRows, vanish_append, vanish_append]
  refine ⟨⟨old.1, old.2⟩, ?_⟩
  rw [same] at new
  exact new.2

/-- The filled columns of a witness satisfy every constraint. -/
theorem Witness.Describes.satisfies (describes : witness.Describes updates depth)
    (valid : witness.Valid updates.length depth logSize) (narrow : depth ≤ 32) :
    Satisfies (columnsOfRows (witness.sideRows updates.length depth logSize .old)
      (witness.sideRows updates.length depth logSize .new))
      (columnsOf (preprocWrites updates depth)) logSize := by
  intro row inside
  have old := describes.side_satisfies valid narrow .old row inside
  have new := describes.side_satisfies valid narrow .new row inside
  rw [← laneView_eq .old narrow valid.fits] at old
  rw [← laneView_eq .new narrow valid.fits] at new
  exact evaluate_columnsOfRows _ _ _ (describes.shared valid inside) old new

/-! ## What the builder returns -/

theorem all_depths_iff {sibs : List (List (Quad ℕ))} {bits : List (List Bool)} {depth : ℕ}
    (lengths : sibs.length = bits.length) :
    (sibs.zip bits).all (fun path => path.1.length = depth ∧ path.2.length = depth) = true ↔
      (∀ path ∈ sibs, path.length = depth) ∧ ∀ path ∈ bits, path.length = depth := by
  induction sibs generalizing bits with
  | nil =>
      have empty : bits = [] := List.length_eq_zero_iff.mp lengths.symm
      simp [empty]
  | cons path rest ih =>
      cases bits with
      | nil => contradiction
      | cons digits later =>
          rw [List.zip_cons_cons, List.all_cons, Bool.and_eq_true, ih (Nat.succ.inj lengths),
            List.forall_mem_cons, List.forall_mem_cons, decide_eq_true_iff]
          exact and_and_and_comm

/-- What the builder returns for a valid witness. -/
def Witness.built (witness : Witness) (nUp depth logSize : ℕ) :
    Columns × List (Quad ℕ × Quad ℕ) :=
  (columnsOfRows (witness.sideRows nUp depth logSize .old)
      (witness.sideRows nUp depth logSize .new),
    (witness.openings .old).fillCompressions.roots.zip
      (witness.openings .new).fillCompressions.roots)

theorem Witness.Valid.build_eq {nUp : ℕ} (valid : witness.Valid nUp depth logSize) :
    buildTraceRaw witness logSize = .ok (witness.built nUp depth logSize) := by
  have first : (witness.sibs.getD 0 []).length = depth := by
    have below : 0 < witness.sibs.length := by
      rw [valid.sibs]
      exact valid.nonempty
    rw [List.getD_eq_getElem?_getD, List.getElem?_eq_getElem below]
    exact valid.sibDepths _ (List.getElem_mem below)
  have depths := (all_depths_iff (valid.sibs.trans valid.bits.symm)).mpr
    ⟨valid.sibDepths, valid.bitDepths⟩
  have nonempty := valid.nonempty
  have positive := valid.positive
  have fits := valid.fits
  rw [buildTraceRaw]
  dsimp only
  rw [first, valid.oldLeaves, if_neg (by omega),
    if_neg (not_not.mpr ⟨valid.newLeaves, valid.sibs, valid.bits⟩), if_neg (by omega),
    if_neg (not_not.mpr depths), if_neg (by omega), valid.fillUpdates]
  rfl

/-- The builder succeeds on valid witnesses only. -/
theorem buildTraceRaw_ok {built : Columns × List (Quad ℕ × Quad ℕ)}
    (success : buildTraceRaw witness logSize = .ok built) :
    ∃ depth, witness.Valid witness.oldLeaves.length depth logSize ∧
      built = witness.built witness.oldLeaves.length depth logSize := by
  have valid : witness.Valid witness.oldLeaves.length (witness.sibs.getD 0 []).length logSize := by
    unfold buildTraceRaw at success
    dsimp only at success
    split at success
    case isTrue => contradiction
    case isFalse nonempty =>
      split at success
      case isTrue => contradiction
      case isFalse lengths =>
        rcases not_not.mp lengths with ⟨newLeaves, sibs, bits⟩
        split at success
        case isTrue => contradiction
        case isFalse positive =>
          split at success
          case isTrue => contradiction
          case isFalse matched =>
            rcases (all_depths_iff (sibs.trans bits.symm)).mp (not_not.mp matched) with
              ⟨sibDepths, bitDepths⟩
            split at success
            case isTrue => contradiction
            case isFalse fits =>
              exact ⟨by omega, rfl, newLeaves, sibs, bits, by omega, sibDepths, bitDepths,
                by omega⟩
  refine ⟨_, valid, ?_⟩
  rw [valid.build_eq] at success
  exact (Except.ok.inj success).symm

/-- Each lane reaches the roots of its paths, in the order of the updates. -/
theorem Witness.Valid.reached {nUp : ℕ} (valid : witness.Valid nUp depth logSize) :
    (witness.built nUp depth logSize).2 = (List.range nUp).map fun u =>
      ((witness.openings .old).root u, (witness.openings .new).root u) := by
  have roots (side : Side) : (witness.openings side).fillCompressions.roots =
      (List.range nUp).map (witness.openings side).root := by
    have filled := (valid.indexed side).filled_roots (by
      intro d member
      rw [valid.depths side] at member
      rw [List.eq_of_mem_replicate member]
      exact valid.positive)
    rw [filled, valid.depths side, List.length_replicate]
  rw [Witness.built, roots .old, roots .new, List.zip_map']

end Filled

end NonceUpdateT8
end Recursive
end QLSA
