import QLSA.Merkle.Path
import QLSA.Recursive.Columns
import QLSA.Stwo.FieldHash
import Mathlib.Tactic.LinearCombination

namespace QLSA
namespace Recursive

open Hash Mersenne

/-!
# One lane of a path circuit

A lane spends one row on each round of a compression and twenty-two rows on
each compression of an authentication path.  Its columns carry the state
before a round, two steps of the fifth power, the state after the round, and
the node and leaf of the path; selectors that the verifier fixes say which
round a row is and where compressions and paths start and end.

What a satisfying assignment proves is said row by row and then along blocks:
one row is one round, twenty-two rows are one compression, and the
compressions of a path climb from the pinned leaf to the pinned root.
-/

section Expressions

variable {F : Type*} [CommRing F]

/-- `M4` as an expression. -/
def m4Expr (s : Quad F) : Quad F :=
  ⟨s.w0 * 5 + s.w1 * 7 + s.w2 * 1 + s.w3 * 3,
    s.w0 * 4 + s.w1 * 6 + s.w2 * 1 + s.w3 * 1,
    s.w0 * 1 + s.w1 * 3 + s.w2 * 5 + s.w3 * 7,
    s.w0 * 1 + s.w1 * 1 + s.w2 * 4 + s.w3 * 6⟩

/-- External linear layer as an expression. -/
def matExternalExpr (a : State F) : State F :=
  let v0 := m4Expr a.left
  let v1 := m4Expr a.right
  ⟨v0.w0 * 2 + v1.w0, v0.w1 * 2 + v1.w1, v0.w2 * 2 + v1.w2, v0.w3 * 2 + v1.w3,
    v0.w0 + v1.w0 * 2, v0.w1 + v1.w1 * 2, v0.w2 + v1.w2 * 2, v0.w3 + v1.w3 * 2⟩

/-- Internal linear layer as an expression. -/
def matInternalExpr (a : State F) : State F :=
  let sum := a.s0 + a.s1 + a.s2 + a.s3 + a.s4 + a.s5 + a.s6 + a.s7
  ⟨sum + a.s0 * 1, sum + a.s1 * 2, sum + a.s2 * 3, sum + a.s3 * 4,
    sum + a.s4 * 5, sum + a.s5 * 6, sum + a.s6 * 7, sum + a.s7 * 8⟩

theorem m4Expr_eq (s : Quad F) : m4Expr s = mix4 s := by
  ext <;> simp only [m4Expr, mix4] <;> ring

theorem matExternalExpr_eq (a : State F) : matExternalExpr a = external a := by
  ext <;> simp only [matExternalExpr, m4Expr_eq, external] <;> ring

theorem matInternalExpr_eq (a : State F) : matInternalExpr a = internal a := by
  ext <;> simp only [matInternalExpr, internal, total] <;> ring

end Expressions

/-- Round of a row: whether it is external, and its constants. -/
def roundSchedule (row : ℕ) : Bool × State ℕ :=
  if row < 4 then (true, State.tabulate Stwo.roundConstant (8 * row))
  else if row < 4 + 14 then (false, ⟨Stwo.roundConstant (64 + (row - 4)), 0, 0, 0, 0, 0, 0, 0⟩)
  else (true, State.tabulate Stwo.roundConstant (8 * (4 + (row - 4 - 14))))

/-- Constants and selector of one round. The constants have columns 0 to 7,
the selectors of external and internal rounds columns 8 and 9. -/
def roundWrites (row r : ℕ) : List Write :=
  let rc := (roundSchedule r).2
  [((0, row), m31 rc.s0), ((1, row), m31 rc.s1), ((2, row), m31 rc.s2), ((3, row), m31 rc.s3),
    ((4, row), m31 rc.s4), ((5, row), m31 rc.s5), ((6, row), m31 rc.s6), ((7, row), m31 rc.s7),
    ((if (roundSchedule r).1 then 8 else 9, row), 1)]

theorem roundWrites_cells (row r : ℕ) :
    ∀ write ∈ roundWrites row r, write.1.1 < 10 ∧ write.1.2 = row := by
  have selector : (if (roundSchedule r).1 then 8 else 9) < 10 := by
    split <;> omega
  simp [roundWrites, selector]

section Constraints

variable {F : Type*} [CommRing F]

/-- All constraints of a list are zero. -/
def Vanish (constraints : List F) : Prop := ∀ value ∈ constraints, value = 0

@[simp] theorem vanish_append {first second : List F} :
    Vanish (first ++ second) ↔ Vanish first ∧ Vanish second := by
  simp only [Vanish, List.mem_append]
  constructor
  · intro all
    exact ⟨fun value member => all value (.inl member), fun value member => all value (.inr member)⟩
  · rintro ⟨left, right⟩ value (member | member)
    · exact left value member
    · exact right value member

@[simp] theorem vanish_cons {value : F} {rest : List F} :
    Vanish (value :: rest) ↔ value = 0 ∧ Vanish rest := by
  simp [Vanish]

@[simp] theorem vanish_nil : Vanish ([] : List F) := by
  simp [Vanish]

instance [DecidableEq F] (constraints : List F) : Decidable (Vanish constraints) :=
  inferInstanceAs (Decidable (∀ value ∈ constraints, value = 0))

/-- Differences of two states, cell by cell. -/
def stateDifferences (first second : State F) : List F :=
  (State.zipWith (· - ·) first second).toList

/-- Differences of four words under a selector. -/
def gatedDifferences (gate : F) (first second : Quad F) : List F :=
  (Quad.zipWith (fun x y => gate * (x - y)) first second).toList

theorem vanish_stateDifferences {first second : State F} :
    Vanish (stateDifferences first second) ↔ first = second := by
  simp [stateDifferences, State.toList, State.zipWith, State.ext_iff, sub_eq_zero]

theorem vanish_gatedDifferences_one {first second : Quad F} :
    Vanish (gatedDifferences 1 first second) ↔ first = second := by
  simp [gatedDifferences, Quad.toList, Quad.zipWith, Quad.ext_iff, sub_eq_zero]

theorem vanish_gatedDifferences_zero (first second : Quad F) :
    Vanish (gatedDifferences 0 first second) := by
  simp [gatedDifferences, Quad.toList, Quad.zipWith]

/-- The columns of one lane on one row, with the previous row's `out`. -/
structure Lane (F : Type*) where
  inp : State F
  sq : State F
  sbox : State F
  out : State F
  outPrev : State F
  cur : Quad F
  leaf : Quad F

/-- Selectors and columns that lanes share. -/
structure Shared (F : Type*) where
  rc : State F
  isExt : F
  isInt : F
  isFirstComp : F
  isFirstPath : F
  isRoot : F
  sib : Quad F
  bit : F

/-- Children of the next node: the sibling goes left when the bit is one. -/
def childSelect (bit : F) (sib cur : Quad F) : State F :=
  State.ofQuads (Quad.zipWith (fun s c => bit * s + (1 - bit) * c) sib cur)
    (Quad.zipWith (fun s c => bit * c + (1 - bit) * s) sib cur)

/-- The constraints of one lane on one row.  Bit and sibling are shared by both lanes; the cells of
the permutation, the running node and the pins are the lane's own. -/
def constrainLane (l : Lane F) (s : Shared F) (leafPin rootPin : Quad F) : List F :=
  let y := State.zipWith (· + ·) l.inp s.rc
  let me := matExternalExpr l.sbox
  let mi := matInternalExpr { l.inp with s0 := l.sbox.s0 }
  let curExpected := Quad.zipWith (fun leaf prev =>
    s.isFirstPath * leaf + (1 - s.isFirstPath) * prev) l.leaf l.outPrev.left
  let meRaw := matExternalExpr (childSelect s.bit s.sib l.cur)
  stateDifferences l.sq (y.map fun x => x * x) ++
  stateDifferences l.sbox (State.zipWith (fun q x => q * q * x) l.sq y) ++
  stateDifferences l.out (State.zipWith (fun e i => s.isExt * e + s.isInt * i) me mi) ++
  gatedDifferences s.isFirstComp l.cur curExpected ++
  gatedDifferences s.isFirstPath l.leaf leafPin ++
  stateDifferences l.inp (State.zipWith (fun raw prev =>
    s.isFirstComp * raw + (1 - s.isFirstComp) * prev) meRaw l.outPrev) ++
  gatedDifferences s.isRoot l.out.left rootPin

/-! ## One row -/

/-- The round selectors of a row are those of a round of the schedule. -/
structure Shared.Scheduled (s : Shared F) (r : ℕ) : Prop where
  rc_eq : s.rc = (roundSchedule r).2.map (fun word : ℕ => (word : F))
  isExt_eq : s.isExt = if (roundSchedule r).1 then 1 else 0
  isInt_eq : s.isInt = if (roundSchedule r).1 then 0 else 1

variable {l : Lane F} {s : Shared F} {leafPin rootPin : Quad F}

/-- The table of constants in the field of the columns. -/
def columnConstant (F : Type*) [CommRing F] (index : ℕ) : F := (Stwo.roundConstant index : ℕ)

/-- Three groups of constraints determine the three columns of the round. -/
theorem round_columns (holds : Vanish (constrainLane l s leafPin rootPin)) :
    l.sbox = (State.zipWith (· + ·) l.inp s.rc).map power5 ∧
      l.out = State.zipWith (fun e i => s.isExt * e + s.isInt * i) (external l.sbox)
        (internal { l.inp with s0 := l.sbox.s0 }) := by
  simp only [constrainLane, vanish_append, vanish_stateDifferences] at holds
  rcases holds with ⟨⟨⟨⟨⟨⟨squares, powers⟩, outputs⟩, -⟩, -⟩, -⟩, -⟩
  constructor
  · rw [powers, squares]
    ext <;> simp only [State.zipWith, State.map, power5] <;> ring
  · rw [matExternalExpr_eq, matInternalExpr_eq] at outputs
    exact outputs

/-- Under the selectors of a round the output expression is that round. -/
theorem round_expression {r : ℕ} (scheduled : s.Scheduled r) (inp : State F) :
    State.zipWith (fun e i => s.isExt * e + s.isInt * i)
        (external ((State.zipWith (· + ·) inp s.rc).map power5))
        (internal { inp with s0 := ((State.zipWith (· + ·) inp s.rc).map power5).s0 }) =
      Hash.round (columnConstant F) r inp := by
  rcases scheduled with ⟨constants, external, internal⟩
  rw [external, internal, constants]
  unfold roundSchedule Hash.round
  split
  case isTrue =>
    ext <;> simp [fullRound, columnConstant, State.tabulate]
  case isFalse =>
    split
    case isTrue =>
      ext <;> simp [partialRound, columnConstant]
    case isFalse late =>
      have position : 4 + (r - 4 - 14) = r - 14 := by omega
      rw [position]
      ext <;> simp [fullRound, columnConstant, State.tabulate]

/-- One row is one round. -/
theorem out_eq_round {r : ℕ} (holds : Vanish (constrainLane l s leafPin rootPin))
    (scheduled : s.Scheduled r) : l.out = Hash.round (columnConstant F) r l.inp := by
  rcases round_columns holds with ⟨powers, outputs⟩
  rw [outputs, powers]
  exact round_expression scheduled l.inp

end Constraints

/-- Preprocessed columns that hold the writes of a round schedule that round. -/
theorem scheduled_of_written {preproc : Columns} {row r : ℕ} {s : Shared M31}
    (rc : s.rc = readState preproc 0 row) (isExt : s.isExt = preproc 8 row)
    (isInt : s.isInt = preproc 9 row)
    (cells : ∀ column < 10,
      preproc column row = (written column row (roundWrites row r)).getLast?.getD 0) :
    s.Scheduled r := by
  constructor
  · rw [rc]
    unfold readState
    ext <;> simp only [State.tabulate, State.map] <;> rw [cells _ (by omega)] <;>
      cases external : (roundSchedule r).1 <;> simp [roundWrites, external]
  · rw [isExt, cells 8 (by omega)]
    cases external : (roundSchedule r).1 <;> simp [roundWrites, external]
  · rw [isInt, cells 9 (by omega)]
    cases external : (roundSchedule r).1 <;> simp [roundWrites, external]

/-! ## Blocks and paths -/

section Rows

variable {F : Type*} [CommRing F]
variable {lane : ℕ → Lane F} {shared : ℕ → Shared F} {leafPin rootPin : ℕ → Quad F}

/-- The constraints hold on the first `bound` rows, and each row sees the
output of the row before it. -/
structure SatisfiedRows (lane : ℕ → Lane F) (shared : ℕ → Shared F)
    (leafPin rootPin : ℕ → Quad F) (bound : ℕ) : Prop where
  holds : ∀ row < bound,
    Vanish (constrainLane (lane row) (shared row) (leafPin row) (rootPin row))
  chained : ∀ row, row + 1 < bound → (lane (row + 1)).outPrev = (lane row).out

/-- Twenty-two rows whose selectors are those of one compression. -/
structure BlockPins (shared : ℕ → Shared F) (base : ℕ) : Prop where
  scheduled : ∀ r < 22, (shared (base + r)).Scheduled r
  isFirstComp_eq : ∀ r < 22, (shared (base + r)).isFirstComp = if r = 0 then 1 else 0

variable {bound : ℕ} (rows : SatisfiedRows lane shared leafPin rootPin bound)

include rows

/-- The first row of a block takes the selected children. -/
theorem SatisfiedRows.inp_first {row : ℕ} (inside : row < bound)
    (first : (shared row).isFirstComp = 1) :
    (lane row).inp =
      external (childSelect (shared row).bit (shared row).sib (lane row).cur) := by
  have holds := rows.holds row inside
  simp only [constrainLane, vanish_append, vanish_stateDifferences] at holds
  rw [holds.1.2, first, matExternalExpr_eq]
  ext <;> simp

/-- Every other row takes the output of the row before it. -/
theorem SatisfiedRows.inp_next {row : ℕ} (inside : row + 1 < bound)
    (later : (shared (row + 1)).isFirstComp = 0) : (lane (row + 1)).inp = (lane row).out := by
  have holds := rows.holds (row + 1) inside
  simp only [constrainLane, vanish_append, vanish_stateDifferences] at holds
  rw [holds.1.2, later, rows.chained row inside]
  ext <;> simp

/-- The first node of a path is its pinned leaf. -/
theorem SatisfiedRows.cur_first {row : ℕ} (inside : row < bound)
    (first : (shared row).isFirstComp = 1) (starts : (shared row).isFirstPath = 1) :
    (lane row).cur = leafPin row := by
  have holds := rows.holds row inside
  simp only [constrainLane, vanish_append, first, starts, vanish_gatedDifferences_one] at holds
  rcases holds with ⟨⟨⟨⟨-, node⟩, leaf⟩, -⟩, -⟩
  rw [node, ← leaf]
  ext <;> simp

/-- Every later node is the truncated output of the compression before it. -/
theorem SatisfiedRows.cur_next {row : ℕ} (inside : row + 1 < bound)
    (first : (shared (row + 1)).isFirstComp = 1)
    (later : (shared (row + 1)).isFirstPath = 0) :
    (lane (row + 1)).cur = (lane row).out.left := by
  have holds := rows.holds (row + 1) inside
  simp only [constrainLane, vanish_append, first, later, vanish_gatedDifferences_one] at holds
  rcases holds with ⟨⟨⟨⟨-, node⟩, -⟩, -⟩, -⟩
  rw [node, rows.chained row inside]
  ext <;> simp

/-- The row of the root carries the pinned root. -/
theorem SatisfiedRows.out_root {row : ℕ} (inside : row < bound)
    (last : (shared row).isRoot = 1) : (lane row).out.left = rootPin row := by
  have holds := rows.holds row inside
  simp only [constrainLane, vanish_append, last, vanish_gatedDifferences_one] at holds
  exact holds.2

/-- Inside a block the rows step through the rounds of one permutation. -/
theorem SatisfiedRows.out_rounds {base : ℕ} (pins : BlockPins shared base)
    (inside : base + 22 ≤ bound) {r : ℕ} (early : r < 22) :
    (lane (base + r)).out = roundsFrom (columnConstant F)
      (childSelect (shared base).bit (shared base).sib (lane base).cur) (r + 1) := by
  induction r with
  | zero =>
      have first : (shared base).isFirstComp = 1 := pins.isFirstComp_eq 0 early
      have raw := rows.inp_first (by omega : base < bound) first
      rw [out_eq_round (rows.holds (base + 0) (by omega)) (pins.scheduled 0 early), Nat.add_zero,
        raw]
      rfl
  | succ r ih =>
      have later : (shared (base + r + 1)).isFirstComp = 0 := pins.isFirstComp_eq (r + 1) early
      have input := rows.inp_next (by omega : base + r + 1 < bound) later
      rw [out_eq_round (rows.holds (base + (r + 1)) (by omega)) (pins.scheduled (r + 1) early),
        ← Nat.add_assoc, input, ih (by omega)]
      rfl

omit rows in
theorem childSelect_digit (bit : Bool) (sib cur : Quad F) :
    childSelect (if bit then 1 else 0) sib cur =
      State.ofQuads (if bit then sib else cur) (if bit then cur else sib) := by
  cases bit <;> ext <;> simp [childSelect]

omit rows in
/-- Twenty-two rounds on selected children are one compression of them. -/
theorem roundsFrom_childSelect (bit : Bool) (sib cur : Quad F) :
    (roundsFrom (columnConstant F) (childSelect (if bit then 1 else 0) sib cur) 22).left =
      if bit then compress (columnConstant F) sib cur
      else compress (columnConstant F) cur sib := by
  rw [childSelect_digit]
  cases bit <;> rfl

/-- A block hashes its node with its sibling, on the side named by its bit. -/
theorem SatisfiedRows.out_compress {base : ℕ} (pins : BlockPins shared base)
    (inside : base + 22 ≤ bound) {bit : Bool} (digit : (shared base).bit = if bit then 1 else 0) :
    (lane (base + 21)).out.left =
      if bit then compress (columnConstant F) (shared base).sib (lane base).cur
      else compress (columnConstant F) (lane base).cur (shared base).sib := by
  rw [rows.out_rounds pins inside (by omega), digit, roundsFrom_childSelect]

omit rows in
/-- The siblings on the first rows of consecutive blocks. -/
def blockSiblings (shared : ℕ → Shared F) : ℕ → ℕ → List (Quad F)
  | _, 0 => []
  | base, count + 1 => (shared base).sib :: blockSiblings shared (base + 22) count

omit [CommRing F] rows in
@[simp] theorem blockSiblings_length (base count : ℕ) :
    (blockSiblings shared base count).length = count := by
  induction count generalizing base with
  | zero => rfl
  | succ count ih => simp [blockSiblings, ih]

/-- Consecutive blocks climb a path. The induction is on the direction bits,
with the node at the start of the remaining blocks arbitrary. -/
theorem SatisfiedRows.climb {base : ℕ} {bit : Bool} {bits : List Bool}
    (pins : ∀ j ≤ bits.length, BlockPins shared (base + 22 * j))
    (inside : base + 22 * (bits.length + 1) ≤ bound)
    (digits : ∀ j (within : j < (bit :: bits).length),
      (shared (base + 22 * j)).bit = if (bit :: bits).get ⟨j, within⟩ then 1 else 0)
    (inner : ∀ j < bits.length, (shared (base + 22 * (j + 1))).isFirstPath = 0) :
    Merkle.pathRoot (compress (columnConstant F)) (lane base).cur
        (blockSiblings shared base (bits.length + 1)) (bit :: bits) =
      (lane (base + 22 * bits.length + 21)).out.left := by
  induction bits generalizing base bit with
  | nil =>
      have block : BlockPins shared base := pins 0 le_rfl
      have digit : (shared base).bit = if bit then 1 else 0 := digits 0 (by simp)
      have climbed := rows.out_compress block (by simpa using inside) digit
      rw [List.length_nil, Nat.mul_zero, Nat.add_zero, climbed]
      simp [blockSiblings]
  | cons next bits ih =>
      have block : BlockPins shared base := pins 0 (Nat.zero_le _)
      have digit : (shared base).bit = if bit then 1 else 0 := digits 0 (by simp)
      rw [List.length_cons] at inside pins inner
      have climbed := rows.out_compress block (by omega) digit
      have following : BlockPins shared (base + 22) := pins 1 (by omega)
      have first : (shared (base + 21 + 1)).isFirstComp = 1 :=
        following.isFirstComp_eq 0 (by omega)
      have within : (shared (base + 21 + 1)).isFirstPath = 0 := inner 0 (by omega)
      have node : (lane (base + 22)).cur = (lane (base + 21)).out.left :=
        rows.cur_next (by omega : base + 21 + 1 < bound) first within
      have shifted (j : ℕ) : base + 22 + 22 * j = base + 22 * (j + 1) := by ring
      have laterPins : ∀ j ≤ bits.length, BlockPins shared (base + 22 + 22 * j) := by
        intro j bounded
        rw [shifted]
        exact pins (j + 1) (by omega)
      have laterDigits : ∀ j (within : j < (next :: bits).length),
          (shared (base + 22 + 22 * j)).bit =
            if (next :: bits).get ⟨j, within⟩ then 1 else 0 := by
        intro j bounded
        rw [shifted]
        exact digits (j + 1) (by simpa using bounded)
      have laterInner : ∀ j < bits.length,
          (shared (base + 22 + 22 * (j + 1))).isFirstPath = 0 := by
        intro j bounded
        rw [shifted]
        exact inner (j + 1) (by omega)
      have rest := ih laterPins (by omega) laterDigits laterInner
      rw [shifted, node, climbed] at rest
      rw [List.length_cons, ← rest, blockSiblings, Merkle.pathRoot_cons]

omit [CommRing F] rows in
theorem blockSiblings_eq_map (base count : ℕ) :
    blockSiblings shared base count =
      (List.range count).map fun j => (shared (base + 22 * j)).sib := by
  induction count generalizing base with
  | zero => rfl
  | succ count ih =>
      have shifted (j : ℕ) : base + 22 + 22 * j = base + 22 * (j + 1) := by ring
      rw [blockSiblings, ih, List.range_succ_eq_map, List.map_cons, List.map_map]
      simp [shifted]

omit rows in
/-- The pins of one path: its blocks, the ends of the path, and its direction bits. -/
structure PathPins (shared : ℕ → Shared F) (leafPin rootPin : ℕ → Quad F)
    (base depth index : ℕ) (leaf root : Quad F) : Prop where
  blocks : ∀ j < depth, BlockPins shared (base + 22 * j)
  isFirstPath_eq : ∀ j < depth, (shared (base + 22 * j)).isFirstPath = if j = 0 then 1 else 0
  isRoot_eq : (shared (base + 22 * (depth - 1) + 21)).isRoot = 1
  bit_eq : ∀ j < depth,
    (shared (base + 22 * j)).bit = if decide (index / 2 ^ j % 2 = 1) then 1 else 0
  leaf_eq : leafPin base = leaf
  root_eq : rootPin (base + 22 * (depth - 1) + 21) = root

/-- Satisfied rows under the pins of a path climb from its leaf to its root. -/
theorem SatisfiedRows.path_root {base depth index : ℕ} {leaf root : Quad F}
    (pins : PathPins shared leafPin rootPin base depth index leaf root)
    (positive : 0 < depth) (inside : base + 22 * depth ≤ bound) :
    Merkle.pathRoot (compress (columnConstant F)) leaf (blockSiblings shared base depth)
      (Merkle.indexBits depth index) = root := by
  cases depth with
  | zero => exact absurd positive (Nat.lt_irrefl 0)
  | succ count =>
      have first : (shared base).isFirstComp = 1 :=
        (pins.blocks 0 positive).isFirstComp_eq 0 (by omega)
      have starts : (shared base).isFirstPath = 1 := pins.isFirstPath_eq 0 positive
      have node : (lane base).cur = leaf := by
        rw [rows.cur_first (by omega) first starts, pins.leaf_eq]
      have reached : (lane (base + 22 * count + 21)).out.left = root := by
        have last : (shared (base + 22 * count + 21)).isRoot = 1 := pins.isRoot_eq
        rw [rows.out_root (by omega) last]
        exact pins.root_eq
      have blocks : ∀ j ≤ (Merkle.indexBits count (index / 2)).length,
          BlockPins shared (base + 22 * j) := by
        intro j bounded
        rw [Merkle.indexBits_length] at bounded
        exact pins.blocks j (by omega)
      have inner : ∀ j < (Merkle.indexBits count (index / 2)).length,
          (shared (base + 22 * (j + 1))).isFirstPath = 0 := by
        intro j bounded
        rw [Merkle.indexBits_length] at bounded
        exact pins.isFirstPath_eq (j + 1) (by omega)
      have digits : ∀ j (within : j <
            (decide (index % 2 = 1) :: Merkle.indexBits count (index / 2)).length),
          (shared (base + 22 * j)).bit =
            if (decide (index % 2 = 1) :: Merkle.indexBits count (index / 2)).get ⟨j, within⟩
            then 1 else 0 := by
        intro j within
        have digit : (decide (index % 2 = 1) :: Merkle.indexBits count (index / 2)).get
            ⟨j, within⟩ = decide (index / 2 ^ j % 2 = 1) :=
          Merkle.indexBits_get (count + 1) index j within
        rw [pins.bit_eq j (by simpa using within), digit]
      have climbed := rows.climb blocks (by rw [Merkle.indexBits_length]; omega) digits inner
      rw [Merkle.indexBits_length, node, reached] at climbed
      exact climbed

end Rows

end Recursive
end QLSA
