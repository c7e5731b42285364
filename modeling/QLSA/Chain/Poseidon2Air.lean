import QLSA.Chain.RoundBlocks

namespace QLSA
namespace Chain

open Mersenne Recursive Stwo

/-!
# The circuit of the sponge

A block of eight rows absorbs one leaf, one round to a row.  The preprocessed
columns hold the round constants, the first rows of blocks and the very first
row, at which the wrap-around of the previous row is gated off.  The leaf column
is free: a satisfying trace is a run of the sponge over the leaves it names.
-/

def minLogSize : ℕ := 3

def maxLogSize : ℕ := 28

/-- Main columns of one row, with the state words of the previous row. -/
structure MainRow (F : Type*) where
  s0 : F
  s0Prev : F
  s1 : F
  s1Prev : F
  t0 : F
  t1 : F
  inp0 : F
  leaf : F
  inp1 : F

/-- Preprocessed columns of one row. -/
structure PreprocRow (F : Type*) where
  rc0 : F
  rc1 : F
  isInit : F
  initRow : F

/-- `Poseidon2Eval::evaluate`. -/
def evaluate {F : Type*} [CommRing F] (pre : PreprocRow F) (row : MainRow F) : List F :=
  let notInitRow := 1 - pre.initRow
  let s0PrevGated := notInitRow * row.s0Prev
  let s1PrevGated := notInitRow * row.s1Prev
  let inp0Expected := s0PrevGated + pre.isInit * row.leaf
  let x0 := row.inp0 + pre.rc0
  let x1 := row.inp1 + pre.rc1
  let sbox0 := row.t0 * row.t0 * x0
  let sbox1 := row.t1 * row.t1 * x1
  let s0Expected := sbox0 * 3 + sbox1
  let s1Expected := sbox0 + sbox1 * 3
  [row.inp0 - inp0Expected, row.inp1 - s1PrevGated, row.t0 - x0 * x0, row.t1 - x1 * x1,
    row.s0 - s0Expected, row.s1 - s1Expected]

/-- Row of the main trace; columns in the order of the source. -/
def mainRow (logSize : ℕ) (main : Columns) (row : ℕ) : MainRow M31 where
  s0 := main 0 row
  s0Prev := main 0 (previousRow logSize row)
  s1 := main 1 row
  s1Prev := main 1 (previousRow logSize row)
  t0 := main 2 row
  t1 := main 3 row
  inp0 := main 4 row
  leaf := main 5 row
  inp1 := main 6 row

/-- Row of the preprocessed trace. -/
def preprocRow (pre : Columns) (row : ℕ) : PreprocRow M31 :=
  ⟨pre 0 row, pre 1 row, pre 2 row, pre 3 row⟩

def buildPreprocessed : Columns := fun column row =>
  match column with
  | 0 => m31 (roundConstants (row % nRounds)).1
  | 1 => m31 (roundConstants (row % nRounds)).2
  | 2 => if row % nRounds = 0 then 1 else 0
  | 3 => if row = 0 then 1 else 0
  | _ => 0

/-- Every constraint holds on every row. -/
def Satisfies (logSize : ℕ) (pre main : Columns) : Prop :=
  ∀ row < 2 ^ logSize, Vanish (evaluate (preprocRow pre row) (mainRow logSize main row))

instance (logSize : ℕ) (pre main : Columns) : Decidable (Satisfies logSize pre main) :=
  inferInstanceAs (Decidable (∀ row < 2 ^ logSize, _))

/-- State words on a row. -/
def stateAt (main : Columns) (row : ℕ) : M31 × M31 := (main 0 row, main 1 row)

/-- Leaves of the first blocks. -/
def leavesOf (main : Columns) (k : ℕ) : List M31 :=
  (List.range k).map fun block => main 5 (nRounds * block)

/-- The columns of a round. -/
def roundRow (main : Columns) (row : ℕ) : RoundRow M31 :=
  ⟨main 0 row, main 1 row, main 2 row, main 3 row, main 4 row, main 6 row⟩

/-! ## What a satisfying trace computes -/

/-- On the canonical columns the constraints are those of a sponge that starts with
zeros and is fed the leaf column. -/
theorem vanish_evaluate {logSize row : ℕ} {main : Columns} (inside : row < 2 ^ logSize) :
    Vanish (evaluate (preprocRow buildPreprocessed row) (mainRow logSize main row)) ↔
      SpongeRow logSize (0, 0) (fun k => main 5 (nRounds * k)) (roundRow main) row := by
  have input : ((1 - if row = 0 then 1 else 0) * main 0 (previousRow logSize row) +
        (if row % nRounds = 0 then 1 else 0) * main 5 row,
      (1 - if row = 0 then 1 else 0) * main 1 (previousRow logSize row)) =
      if row % nRounds = 0 then
        ((entering (0, 0) (roundRow main) (row / nRounds)).1 + main 5 (nRounds * (row / nRounds)),
          (entering (0, 0) (roundRow main) (row / nRounds)).2)
      else (roundRow main (previousRow logSize row)).out := by
    by_cases first : row % nRounds = 0
    · have gated := gated_entering (0, 0) (roundRow main) first inside
      have fed : nRounds * (row / nRounds) = row :=
        Nat.mul_div_cancel' (Nat.dvd_of_mod_eq_zero first)
      simp only [mul_zero, zero_add] at gated
      rw [if_pos first, if_pos first, ← gated, fed, one_mul]
      rfl
    · have later : row ≠ 0 := by
        rintro rfl
        exact first (Nat.zero_mod nRounds)
      rw [if_neg first, if_neg first, if_neg later, sub_zero, one_mul, one_mul, zero_mul, add_zero]
      rfl
  rw [spongeRow_iff, ← input]
  simp only [evaluate, roundCore, mainRow, preprocRow, buildPreprocessed, roundRow, RoundRow.inp,
    vanish_cons, vanish_nil, and_true, sub_eq_zero, Prod.mk.injEq]
  tauto

section Run

variable {logSize : ℕ} {main : Columns} (satisfies : Satisfies logSize buildPreprocessed main)
include satisfies

/-- After each block the state is the sponge over the leaves so far. -/
theorem stateAt_block (k : ℕ) (inside : nRounds * (k + 1) ≤ 2 ^ logSize) :
    stateAt main (nRounds * k + 7) = fieldChain (leavesOf main (k + 1)) := by
  have sponge := fun row inside => (vanish_evaluate inside).mp (satisfies row inside)
  have states := entering_eq sponge (k + 1) inside
  rw [entering, if_neg (Nat.succ_ne_zero k), fieldStates_zero] at states
  exact states

/-- The digest after a block, as the word the prover publishes. -/
theorem digest_eq (k : ℕ) (inside : nRounds * (k + 1) ≤ 2 ^ logSize) :
    (main 0 (nRounds * k + 7)).val =
      (poseidon2Chain ((leavesOf main (k + 1)).map ZMod.val)).1 := by
  have block := congrArg Prod.fst (stateAt_block satisfies k inside)
  have leaves : ((leavesOf main (k + 1)).map ZMod.val).map (fun leaf : ℕ => (leaf : M31)) =
      leavesOf main (k + 1) := by
    simp
  rw [poseidon2Chain_eq, leaves]
  exact congrArg ZMod.val block

end Run

/-! ## The prover's trace -/

/-- Leaf of a block; blocks beyond the leaves absorb zero. -/
def leafAt (leaves : List ℕ) (block : ℕ) : ℕ := leaves.getD block 0 % P

/-- Input of a round: the first round of a block absorbs the leaf. -/
def rowInput (leaves : List ℕ) (state : ℕ × ℕ) (row : ℕ) : ℕ × ℕ :=
  (if row % nRounds = 0 then m31Add state.1 (leafAt leaves (row / nRounds)) else state.1, state.2)

/-- State before a row. -/
def stateBefore (leaves : List ℕ) : ℕ → ℕ × ℕ
  | 0 => (0, 0)
  | row + 1 =>
      round (rowInput leaves (stateBefore leaves row) row) (roundConstants (row % nRounds))

/-- Main columns of `build_trace`. -/
def buildTrace (leaves : List ℕ) : Columns := fun column row =>
  let inp := rowInput leaves (stateBefore leaves row) row
  let rc := roundConstants (row % nRounds)
  let x0 := m31Add inp.1 rc.1
  let x1 := m31Add inp.2 rc.2
  match column with
  | 0 => m31 (stateBefore leaves (row + 1)).1
  | 1 => m31 (stateBefore leaves (row + 1)).2
  | 2 => m31 (m31Mul x0 x0)
  | 3 => m31 (m31Mul x1 x1)
  | 4 => m31 inp.1
  | 5 => if row % nRounds = 0 then m31 (leafAt leaves (row / nRounds)) else 0
  | 6 => m31 inp.2
  | _ => 0

/-- Input of a round over the field. -/
def fieldInput (leaves : List ℕ) (state : M31 × M31) (row : ℕ) : M31 × M31 :=
  (state.1 + if row % nRounds = 0 then (leafAt leaves (row / nRounds) : M31) else 0, state.2)

theorem rowInput_val (leaves : List ℕ) (state : M31 × M31) (row : ℕ) :
    rowInput leaves (pairVal state) row = pairVal (fieldInput leaves state row) := by
  have leaf : leafAt leaves (row / nRounds) = (leafAt leaves (row / nRounds) : M31).val := by
    rw [ZMod.val_natCast, leafAt, Nat.mod_mod]
  unfold rowInput fieldInput pairVal
  split
  case isTrue => rw [leaf, m31Add_val, ← leaf]
  case isFalse => rw [add_zero]

/-- State before a row over the field. -/
def fieldState (leaves : List ℕ) : ℕ → M31 × M31
  | 0 => (0, 0)
  | row + 1 => fieldRound (fieldInput leaves (fieldState leaves row) row) (row % nRounds)

theorem stateBefore_val (leaves : List ℕ) (row : ℕ) :
    stateBefore leaves row = pairVal (fieldState leaves row) := by
  induction row with
  | zero => simp only [stateBefore, fieldState, pairVal, ZMod.val_zero]
  | succ row ih =>
      rw [stateBefore, ih, rowInput_val, round_val (Nat.mod_lt _ (by decide))]
      rfl

theorem stateAt_buildTrace (leaves : List ℕ) (row : ℕ) :
    stateAt (buildTrace leaves) row = fieldState leaves (row + 1) := by
  simp [stateAt, buildTrace, stateBefore_val, pairVal]

/-- Gating the wrap-around leaves the state before the row. -/
theorem gated_previous (leaves : List ℕ) {logSize row : ℕ} (inside : row < 2 ^ logSize) :
    ((1 - if row = 0 then 1 else 0) * buildTrace leaves 0 (previousRow logSize row),
      (1 - if row = 0 then 1 else 0) * buildTrace leaves 1 (previousRow logSize row)) =
        fieldState leaves row := by
  cases row with
  | zero => simp [fieldState]
  | succ row =>
      have before := stateAt_buildTrace leaves row
      rw [previousRow_succ inside, if_neg (Nat.succ_ne_zero row), sub_zero, one_mul, one_mul]
      exact before

/-- The helper columns hold the inputs of the rounds and the squares they need. -/
theorem buildTrace_helpers (leaves : List ℕ) (row : ℕ) :
    let inp := fieldInput leaves (fieldState leaves row) row
    let x0 := inp.1 + (roundConstants (row % nRounds)).1
    let x1 := inp.2 + (roundConstants (row % nRounds)).2
    buildTrace leaves 4 row = inp.1 ∧ buildTrace leaves 6 row = inp.2 ∧
      buildTrace leaves 2 row = x0 * x0 ∧ buildTrace leaves 3 row = x1 * x1 := by
  intro inp x0 x1
  rcases roundConstants_canonical (Nat.mod_lt row (by decide)) with ⟨first, second⟩
  have firstVal := ZMod.val_cast_of_lt first
  have secondVal := ZMod.val_cast_of_lt second
  have input : rowInput leaves (stateBefore leaves row) row = (inp.1.val, inp.2.val) := by
    rw [stateBefore_val, rowInput_val]
    rfl
  have sum0 : m31Add inp.1.val (roundConstants (row % nRounds)).1 = x0.val := by
    rw [← firstVal, m31Add_val]
  have sum1 : m31Add inp.2.val (roundConstants (row % nRounds)).2 = x1.val := by
    rw [← secondVal, m31Add_val]
  simp only [buildTrace, input, sum0, sum1, m31Mul_val, m31_eq_cast, ZMod.natCast_val,
    ZMod.cast_id', id_eq, and_self]

/-- The prover's trace satisfies the circuit. -/
theorem buildTrace_satisfies (leaves : List ℕ) (logSize : ℕ) :
    Satisfies logSize buildPreprocessed (buildTrace leaves) := by
  intro row inside
  have previous := gated_previous leaves inside
  have out := stateAt_buildTrace leaves row
  rcases buildTrace_helpers leaves row with ⟨inp0, inp1, t0, t1⟩
  have leaf : (if row % nRounds = 0 then 1 else 0) * buildTrace leaves 5 row =
      if row % nRounds = 0 then (leafAt leaves (row / nRounds) : M31) else 0 := by
    simp only [buildTrace, m31_eq_cast]
    split <;> simp
  have s0Prev := congrArg Prod.fst previous
  have s1Prev := congrArg Prod.snd previous
  have s0 := congrArg Prod.fst out
  have s1 := congrArg Prod.snd out
  dsimp only [stateAt] at s0Prev s1Prev s0 s1
  unfold evaluate
  simp only [vanish_cons, vanish_nil, and_true, sub_eq_zero, mainRow, preprocRow,
    buildPreprocessed, m31_eq_cast, s0Prev, s1Prev, s0, s1, inp0, inp1, t0, t1, leaf,
    fieldState, fieldRound]
  refine ⟨rfl, rfl, trivial, trivial, ?_, ?_⟩
  · ring
  · ring

/-! ## The circuit is the sponge -/

/-- Log-size of a trace; the product of no list of leaves leaves `usize`. -/
def computeLogSize (nLeaves : ℕ) : ℕ :=
  max (Nat.clog 2 (max (nLeaves * nRounds) (2 ^ minLogSize))) minLogSize

/-- What `build_trace` returns: log-size, main and preprocessed columns, commitment. -/
def buildTraceOutput (leaves : List ℕ) : Except String (ℕ × Columns × Columns × M31) :=
  if leaves = [] then .error "leaves must not be empty"
  else
    let main := buildTrace leaves
    .ok (computeLogSize leaves.length, main, buildPreprocessed,
      main 0 (leaves.length * nRounds - 1))

theorem computeLogSize_le_iff {nLeaves logSize : ℕ} (large : minLogSize ≤ logSize) :
    computeLogSize nLeaves ≤ logSize ↔ nLeaves * nRounds ≤ 2 ^ logSize := by
  have block : 2 ^ minLogSize ≤ 2 ^ logSize := Nat.pow_le_pow_right (by decide) large
  rw [computeLogSize, max_le_iff, Nat.clog_le_iff_le_pow (by decide), max_le_iff]
  exact ⟨fun bounds => bounds.1.1, fun fits => ⟨⟨fits, block⟩, large⟩⟩

theorem computeLogSize_fits (nLeaves : ℕ) : nLeaves * nRounds ≤ 2 ^ computeLogSize nLeaves :=
  (computeLogSize_le_iff (le_max_right _ _)).mp le_rfl

/-- Both words of the state after a block. -/
theorem state_eq {logSize : ℕ} {main : Columns}
    (satisfies : Satisfies logSize buildPreprocessed main) (k : ℕ)
    (inside : nRounds * (k + 1) ≤ 2 ^ logSize) :
    ((main 0 (nRounds * k + 7)).val, (main 1 (nRounds * k + 7)).val) =
      poseidon2Chain ((leavesOf main (k + 1)).map ZMod.val) := by
  have block := stateAt_block satisfies k inside
  have leaves : ((leavesOf main (k + 1)).map ZMod.val).map (fun leaf : ℕ => (leaf : M31)) =
      leavesOf main (k + 1) := by
    simp
  rw [poseidon2Chain_eq, leaves, ← block]
  rfl

/-- The leaf column of the prover's trace holds the leaves. -/
theorem leavesOf_buildTrace (leaves : List ℕ) :
    leavesOf (buildTrace leaves) leaves.length = leaves.map fun leaf : ℕ => (leaf : M31) := by
  apply List.ext_getElem
  · rw [leavesOf, List.length_map, List.length_range, List.length_map]
  · intro block first second
    have inside : block < leaves.length := by
      rw [List.length_map] at second
      exact second
    have start : nRounds * block % nRounds = 0 := Nat.mul_mod_right nRounds block
    have place : nRounds * block / nRounds = block := Nat.mul_div_cancel_left block (by decide)
    have reduced : ((leaves[block] % P : ℕ) : M31) = leaves[block] := ZMod.natCast_mod _ _
    simp only [leavesOf, List.getElem_map, List.getElem_range, buildTrace, start, if_true, place,
      leafAt, List.getD_eq_getElem?_getD, List.getElem?_eq_getElem inside, Option.getD_some,
      m31_eq_cast, reduced]

/-- Leaf of a block of the prover's trace. -/
theorem buildTrace_leaf {leaves : List ℕ} {k : ℕ} (inside : k < leaves.length) :
    buildTrace leaves 5 (nRounds * k) = (leaves[k] : M31) := by
  have column := leavesOf_buildTrace leaves
  have listed : k < (leavesOf (buildTrace leaves) leaves.length).length := by
    rw [leavesOf, List.length_map, List.length_range]
    exact inside
  have cell := List.getElem_of_eq column listed
  simpa [leavesOf] using cell

/-- The rows agree in the cells that the constraints see: the leaf column counts on
the first row of a block only. -/
def SameRow (main other : Columns) (row : ℕ) : Prop :=
  roundRow main row = roundRow other row ∧ (row % nRounds = 0 → main 5 row = other 5 row)

/-- A satisfying trace that absorbs some leaves first has the rows that the prover
fills for them. -/
theorem sameRow_buildTrace {logSize : ℕ} {main : Columns} {leaves : List ℕ}
    (satisfies : Satisfies logSize buildPreprocessed main)
    (fits : nRounds * leaves.length ≤ 2 ^ logSize)
    (absorbs : leavesOf main leaves.length = leaves.map fun leaf : ℕ => (leaf : M31)) :
    ∀ row < nRounds * leaves.length, SameRow main (buildTrace leaves) row := by
  have feeds : ∀ k < leaves.length,
      main 5 (nRounds * k) = buildTrace leaves 5 (nRounds * k) := by
    intro k inside
    have listed : k < (leavesOf main leaves.length).length := by
      rw [leavesOf, List.length_map, List.length_range]
      exact inside
    have cell := List.getElem_of_eq absorbs listed
    rw [buildTrace_leaf inside]
    simpa [leavesOf] using cell
  have sponge := fun row inside => (vanish_evaluate inside).mp (satisfies row inside)
  have honest := fun row inside =>
    (vanish_evaluate inside).mp (buildTrace_satisfies leaves logSize row inside)
  intro row before
  refine ⟨sponge_rows_unique sponge honest fits feeds row before, ?_⟩
  intro first
  have fed : nRounds * (row / nRounds) = row :=
    Nat.mul_div_cancel' (Nat.dvd_of_mod_eq_zero first)
  have cell := feeds (row / nRounds) (Nat.div_lt_of_lt_mul before)
  rwa [fed] at cell

/-- What the prover returns for leaves: a trace that satisfies the circuit, and the
digest of the leaves. -/
theorem buildTraceOutput_spec {leaves : List ℕ} (nonempty : leaves ≠ []) :
    ∃ commitment : M31, buildTraceOutput leaves =
        .ok (computeLogSize leaves.length, buildTrace leaves, buildPreprocessed, commitment) ∧
      commitment = buildTrace leaves 0 (nRounds * leaves.length - 1) ∧
      commitment.val = (poseidon2Chain leaves).1 := by
  have satisfies := buildTrace_satisfies leaves (computeLogSize leaves.length)
  have positive := List.length_pos_iff.mpr nonempty
  have count : leaves.length = leaves.length - 1 + 1 := by omega
  have fits := computeLogSize_fits leaves.length
  have digest := digest_eq satisfies (leaves.length - 1) (by
    rw [Nat.mul_comm, ← count]
    exact fits)
  have place : leaves.length * nRounds - 1 = nRounds * (leaves.length - 1) + 7 := by
    simp only [nRounds]
    omega
  refine ⟨_, if_neg nonempty, by rw [Nat.mul_comm], ?_⟩
  rw [← count, leavesOf_buildTrace, List.map_map] at digest
  rw [place, digest, poseidon2Chain_eq, poseidon2Chain_eq, List.map_map]
  congr 3
  apply List.map_congr_left
  intro leaf _
  exact ZMod.natCast_zmod_val _

/-- A satisfying trace of any size runs the sponge over its leaf column, block after block, and
the prover's trace of any leaves satisfies the circuit and ends in their digest.  The prover's
trace has a size that `CanonicCoset::new` takes as long as the rows of its leaves fit the largest
one. -/
theorem sponge_circuit_exact :
    (∀ (logSize : ℕ) (main : Columns), Satisfies logSize buildPreprocessed main →
      ∀ block, nRounds * block + 7 < 2 ^ logSize →
        ((main 0 (nRounds * block + 7)).val, (main 1 (nRounds * block + 7)).val) =
          poseidon2Chain ((leavesOf main (block + 1)).map ZMod.val)) ∧
    ∀ leaves : List ℕ, leaves ≠ [] → ∃ logSize main pre commitment,
      buildTraceOutput leaves = .ok (logSize, main, pre, commitment) ∧
        Satisfies logSize pre main ∧ commitment.val = (poseidon2Chain leaves).1 ∧
        (logSize ≤ maxCosetLogSize ↔ leaves.length * nRounds ≤ 2 ^ maxCosetLogSize) := by
  constructor
  · intro logSize main satisfies block inside
    have next : nRounds * (block + 1) = nRounds * block + 7 + 1 := rfl
    exact state_eq satisfies block (next ▸ inside)
  · intro leaves nonempty
    rcases buildTraceOutput_spec nonempty with ⟨commitment, built, -, digest⟩
    exact ⟨_, _, _, commitment, built, buildTrace_satisfies leaves _, digest,
      computeLogSize_le_iff (by decide)⟩

/-- Two leaves, in a trace of two blocks. -/
theorem sponge_circuit_exact_two :
    ((buildTrace [5, 6] 0 15).val, (buildTrace [5, 6] 1 15).val) =
        poseidon2Chain ((leavesOf (buildTrace [5, 6]) 2).map ZMod.val) ∧
      ∃ logSize main pre commitment,
        buildTraceOutput [5, 6] = .ok (logSize, main, pre, commitment) ∧
          Satisfies logSize pre main ∧ commitment.val = (poseidon2Chain [5, 6]).1 ∧
          (logSize ≤ maxCosetLogSize ↔ 2 * nRounds ≤ 2 ^ maxCosetLogSize) :=
  ⟨sponge_circuit_exact.1 4 (buildTrace [5, 6]) (buildTrace_satisfies [5, 6] 4) 1 (by decide),
    sponge_circuit_exact.2 [5, 6] (List.cons_ne_nil _ _)⟩

end Chain
end QLSA
