import QLSA.Recursive.PathLane

namespace QLSA
namespace Recursive

open Hash

/-!
# Lanes filled by an honest prover

Given the operands of every compression, a lane lists the rounds of one after
another and idles on the rows after the last.  On idle rows the input of the
first is the output of the last round, and all outputs are zero.  Such a lane
satisfies the constraints as soon as its nodes, leaves and roots are those
the selectors ask for.
-/

section Honest

variable {F : Type*} [CommRing F]

/-- State after a row. -/
def honestOut (raw : ℕ → State F) (count row : ℕ) : State F :=
  if row < 22 * count then roundsFrom (columnConstant F) (raw (row / 22)) (row % 22 + 1)
  else ⟨0, 0, 0, 0, 0, 0, 0, 0⟩

/-- State before a row. -/
def honestIn (raw : ℕ → State F) (count row : ℕ) : State F :=
  if row < 22 * count ∧ row % 22 = 0 then external (raw (row / 22))
  else honestOut raw count (row - 1)

/-- The columns of a lane on one row. -/
def honestLane (raw : ℕ → State F) (cur leaf : ℕ → Quad F) (count : ℕ) (shared : Shared F)
    (row previous : ℕ) : Lane F :=
  let inp := honestIn raw count row
  let y := State.zipWith (· + ·) inp shared.rc
  let sq := y.map fun x => x * x
  ⟨inp, sq, State.zipWith (fun q x => q * q * x) sq y, honestOut raw count row,
    honestOut raw count previous, cur row, leaf row⟩

/-- What the selectors of `count` compressions, and their pins, ask of nodes,
leaves and roots. -/
structure HonestPins (shared : ℕ → Shared F) (leafPin rootPin : ℕ → Quad F)
    (raw : ℕ → State F) (cur leaf : ℕ → Quad F) (count : ℕ) : Prop where
  scheduled : ∀ row < 22 * count, (shared row).Scheduled (row % 22)
  isFirstComp_eq : ∀ row < 22 * count,
    (shared row).isFirstComp = if row % 22 = 0 then 1 else 0
  idle : ∀ row, 22 * count ≤ row → (shared row).isExt = 0 ∧ (shared row).isInt = 0 ∧
    (shared row).isFirstComp = 0 ∧ (shared row).isFirstPath = 0 ∧ (shared row).isRoot = 0
  raw_eq : ∀ k < count,
    raw k = childSelect (shared (22 * k)).bit (shared (22 * k)).sib (cur (22 * k))
  leaf_eq : ∀ row < 22 * count, (shared row).isFirstPath = 0 ∨
    (shared row).isFirstPath = 1 ∧ leaf row = leafPin row ∧ cur row = leafPin row
  first : 0 < count → (shared 0).isFirstPath = 1
  cur_next : ∀ k, k + 1 < count → (shared (22 * (k + 1))).isFirstPath = 0 →
    cur (22 * (k + 1)) = (roundsFrom (columnConstant F) (raw k) 22).left
  root_eq : ∀ row < 22 * count, (shared row).isRoot = 0 ∨
    (shared row).isRoot = 1 ∧ (honestOut raw count row).left = rootPin row

variable {shared : ℕ → Shared F} {leafPin rootPin : ℕ → Quad F} {raw : ℕ → State F}
  {cur leaf : ℕ → Quad F} {count : ℕ}

/-- The fifth powers of an honest row. -/
theorem honestLane_sbox (row previous : ℕ) :
    (honestLane raw cur leaf count (shared row) row previous).sbox =
      (State.zipWith (· + ·) (honestIn raw count row) (shared row).rc).map power5 := by
  ext <;> simp only [honestLane, State.zipWith, State.map, power5] <;> ring

/-- The state after a row is the round of the state before it. -/
theorem honestOut_eq_round {row : ℕ} (inside : row < 22 * count) :
    honestOut raw count row =
      Hash.round (columnConstant F) (row % 22) (honestIn raw count row) := by
  unfold honestIn honestOut
  by_cases first : row % 22 = 0
  · rw [if_pos inside, if_pos ⟨inside, first⟩, first]
    rfl
  · have before : row - 1 < 22 * count := by omega
    have block : (row - 1) / 22 = row / 22 := by omega
    have step : (row - 1) % 22 + 1 = row % 22 := by omega
    rw [if_pos inside, if_neg (by simp [first]), if_pos before, block, step]
    rfl

/-- The node of a compression is its leaf or the output before it. -/
theorem HonestPins.cur_eq [Nontrivial F]
    (pins : HonestPins shared leafPin rootPin raw cur leaf count)
    {row previous : ℕ} (inside : row < 22 * count) (first : row % 22 = 0)
    (follows : 0 < row → previous = row - 1) :
    cur row = Quad.zipWith (fun leaf prev =>
        (shared row).isFirstPath * leaf + (1 - (shared row).isFirstPath) * prev)
      (leaf row) (honestOut raw count previous).left := by
  rcases pins.leaf_eq row inside with off | ⟨on, same, node⟩
  · have later : 0 < row := by
      rcases Nat.eq_zero_or_pos row with rfl | positive
      · have nontrivial := pins.first (by omega)
        rw [off] at nontrivial
        exact absurd nontrivial zero_ne_one
      · exact positive
    have block : 22 * (row / 22 - 1 + 1) = row := by omega
    have node := pins.cur_next (row / 22 - 1) (by omega) (by rw [block]; exact off)
    have before : row - 1 < 22 * count := by omega
    have quotient : (row - 1) / 22 = row / 22 - 1 := by omega
    have remainder : (row - 1) % 22 + 1 = 22 := by omega
    rw [block] at node
    rw [node, off, follows later, honestOut, if_pos before, quotient, remainder]
    ext <;> simp
  · rw [node, on, ← same]
    ext <;> simp

/-- An honest row satisfies the constraints; the previous row matters on rows
after the first only. -/
theorem HonestPins.vanish [Nontrivial F]
    (pins : HonestPins shared leafPin rootPin raw cur leaf count)
    {row previous : ℕ} (follows : 0 < row → previous = row - 1) (nonempty : 0 < count) :
    Vanish (constrainLane (honestLane raw cur leaf count (shared row) row previous) (shared row)
      (leafPin row) (rootPin row)) := by
  simp only [constrainLane, vanish_append]
  refine ⟨⟨⟨⟨⟨⟨?squares, ?powers⟩, ?outputs⟩, ?nodes⟩, ?leaves⟩, ?inputs⟩, ?roots⟩
  case squares => exact vanish_stateDifferences.mpr rfl
  case powers => exact vanish_stateDifferences.mpr rfl
  case outputs =>
    apply vanish_stateDifferences.mpr
    rw [matExternalExpr_eq, matInternalExpr_eq, honestLane_sbox]
    change honestOut raw count row = _
    by_cases inside : row < 22 * count
    · rw [honestOut_eq_round inside]
      exact (round_expression (pins.scheduled row inside) _).symm
    · rcases pins.idle row (by omega) with ⟨ext, int, -, -, -⟩
      rw [honestOut, if_neg inside, ext, int]
      ext <;> simp
  case nodes =>
    by_cases inside : row < 22 * count
    · by_cases first : row % 22 = 0
      · rw [pins.isFirstComp_eq row inside, if_pos first]
        apply vanish_gatedDifferences_one.mpr
        exact pins.cur_eq inside first follows
      · rw [pins.isFirstComp_eq row inside, if_neg first]
        exact vanish_gatedDifferences_zero _ _
    · rw [(pins.idle row (by omega)).2.2.1]
      exact vanish_gatedDifferences_zero _ _
  case leaves =>
    by_cases inside : row < 22 * count
    · rcases pins.leaf_eq row inside with off | ⟨on, same, -⟩
      · rw [off]
        exact vanish_gatedDifferences_zero _ _
      · rw [on]
        exact vanish_gatedDifferences_one.mpr same
    · rw [(pins.idle row (by omega)).2.2.2.1]
      exact vanish_gatedDifferences_zero _ _
  case inputs =>
    apply vanish_stateDifferences.mpr
    rw [matExternalExpr_eq]
    change honestIn raw count row = _
    by_cases starts : row < 22 * count ∧ row % 22 = 0
    · have block : 22 * (row / 22) = row := by omega
      have operands := pins.raw_eq (row / 22) (by omega)
      rw [block] at operands
      rw [honestIn, if_pos starts, pins.isFirstComp_eq row starts.1, if_pos starts.2, operands]
      ext <;> simp [honestLane]
    · have gate : (shared row).isFirstComp = 0 := by
        by_cases inside : row < 22 * count
        · rw [pins.isFirstComp_eq row inside, if_neg fun first => starts ⟨inside, first⟩]
        · exact (pins.idle row (by omega)).2.2.1
      rw [honestIn, if_neg starts, gate, ← follows (by omega)]
      ext <;> simp [honestLane]
  case roots =>
    by_cases inside : row < 22 * count
    · rcases pins.root_eq row inside with off | ⟨on, same⟩
      · rw [off]
        exact vanish_gatedDifferences_zero _ _
      · rw [on]
        exact vanish_gatedDifferences_one.mpr same
    · rw [(pins.idle row (by omega)).2.2.2.2]
      exact vanish_gatedDifferences_zero _ _

end Honest

end Recursive
end QLSA
