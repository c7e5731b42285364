import QLSA.Chain.Poseidon2
import QLSA.Recursive.PathLane

namespace QLSA
namespace Chain

open Mersenne Recursive Stwo

/-!
# Permutations in blocks of rows

Several circuits run the permutation of width two in blocks of eight rows, one
round to a row, and differ in where the input of a block comes from.  Here is
what they share: the constraints of a round, the rows of an honest prover, and
that a block ends in the permutation of its first input.
-/

/-- The columns of one round. -/
structure RoundRow (F : Type*) where
  s0 : F
  s1 : F
  t0 : F
  t1 : F
  inp0 : F
  inp1 : F

/-- The constraints of a round, in the order of the source. -/
def roundCore {F : Type*} [CommRing F] (rc0 rc1 : F) (row : RoundRow F) : List F :=
  let x0 := row.inp0 + rc0
  let x1 := row.inp1 + rc1
  let sbox0 := row.t0 * row.t0 * x0
  let sbox1 := row.t1 * row.t1 * x1
  [row.t0 - x0 * x0, row.t1 - x1 * x1, row.s0 - (sbox0 * 3 + sbox1), row.s1 - (sbox0 + sbox1 * 3)]

namespace RoundRow

variable {F : Type*}

def inp (row : RoundRow F) : F × F := (row.inp0, row.inp1)

def out (row : RoundRow F) : F × F := (row.s0, row.s1)

end RoundRow

/-! ## What the constraints say -/

/-- The constraints apply one round to the input of a row. -/
theorem out_of_roundCore {r : ℕ} {row : RoundRow M31}
    (vanish : Vanish (roundCore (m31 (roundConstants r).1) (m31 (roundConstants r).2) row)) :
    row.out = fieldRound row.inp r := by
  simp only [roundCore, m31_eq_cast, vanish_cons, vanish_nil, and_true, sub_eq_zero] at vanish
  rcases vanish with ⟨t0, t1, s0, s1⟩
  rw [RoundRow.out, RoundRow.inp, fieldRound, s0, s1, t0, t1]
  ext
  · dsimp only
    ring
  · dsimp only
    ring

/-- The input of a round decides all of its cells. -/
theorem roundRow_unique {r : ℕ} {row other : RoundRow M31}
    (vanish : Vanish (roundCore (m31 (roundConstants r).1) (m31 (roundConstants r).2) row))
    (otherVanish : Vanish (roundCore (m31 (roundConstants r).1) (m31 (roundConstants r).2) other))
    (same : row.inp = other.inp) : row = other := by
  have out : row.out = other.out := by
    rw [out_of_roundCore vanish, out_of_roundCore otherVanish, same]
  simp only [roundCore, vanish_cons, vanish_nil, and_true, sub_eq_zero] at vanish otherVanish
  rcases vanish with ⟨t0, t1, -, -⟩
  rcases otherVanish with ⟨otherT0, otherT1, -, -⟩
  cases row
  cases other
  simp only [RoundRow.inp, RoundRow.out, Prod.mk.injEq] at same out t0 t1 otherT0 otherT1
  simp [t0, t1, otherT0, otherT1, same, out]

section Blocks

variable {logSize : ℕ} {rows : ℕ → RoundRow M31}

/-- Rows that run rounds and carry the state within their blocks. -/
structure Runs (logSize : ℕ) (rows : ℕ → RoundRow M31) : Prop where
  round : ∀ row < 2 ^ logSize, (rows row).out = fieldRound (rows row).inp (row % nRounds)
  carry : ∀ row, row + 1 < 2 ^ logSize → (row + 1) % nRounds ≠ 0 →
    (rows (row + 1)).inp = (rows row).out

theorem Runs.out_eq (runs : Runs logSize rows) {k r : ℕ} (bound : r < nRounds)
    (inside : nRounds * k + r < 2 ^ logSize) :
    (rows (nRounds * k + r)).out = fieldRounds (r + 1) (rows (nRounds * k)).inp := by
  induction r with
  | zero =>
      have digit : nRounds * k % nRounds = 0 := Nat.mul_mod_right nRounds k
      rw [Nat.add_zero] at inside ⊢
      rw [runs.round _ inside, digit]
      rfl
  | succ r ih =>
      have digit : (nRounds * k + r + 1) % nRounds = r + 1 := by
        rw [Nat.add_assoc, Nat.mul_add_mod, Nat.mod_eq_of_lt bound]
      have within : (nRounds * k + r + 1) % nRounds ≠ 0 := by
        rw [digit]
        exact Nat.succ_ne_zero r
      rw [← Nat.add_assoc] at inside ⊢
      rw [runs.round _ inside, runs.carry _ inside within, ih (by omega) (by omega), digit,
        ← fieldRounds_succ]

/-- A block ends in the permutation of its first input. -/
theorem Runs.block (runs : Runs logSize rows) (k : ℕ) (inside : nRounds * (k + 1) ≤ 2 ^ logSize) :
    (rows (nRounds * k + 7)).out = fieldRounds nRounds (rows (nRounds * k)).inp := by
  have size : nRounds * (k + 1) = nRounds * k + 7 + 1 := rfl
  exact runs.out_eq (by decide) (by omega)

/-- States between the blocks of a sponge: each adds its feed and permutes. -/
def fieldStates (start : M31 × M31) (feed : ℕ → M31) : ℕ → M31 × M31
  | 0 => start
  | k + 1 => fieldAbsorb (fieldStates start feed k) (feed k)

/-- A sponge that starts with zeros absorbs its feeds. -/
theorem fieldStates_zero (feed : ℕ → M31) (k : ℕ) :
    fieldStates (0, 0) feed k = fieldChain ((List.range k).map feed) := by
  induction k with
  | zero => rfl
  | succ k ih =>
      rw [fieldStates, ih, List.range_succ, List.map_append, List.map_cons, List.map_nil,
        fieldChain_concat]
      rfl

/-- State before a block: what is given for the first, the end of the block before
for any other. -/
def entering (start : M31 × M31) (rows : ℕ → RoundRow M31) (k : ℕ) : M31 × M31 :=
  if k = 0 then start else (rows (nRounds * k - 1)).out

/-- A row of a sponge runs a round, at the start of a block on the state fed to it and
elsewhere on the result of the row before. -/
@[mk_iff]
structure SpongeRow (logSize : ℕ) (start : M31 × M31) (feed : ℕ → M31)
    (rows : ℕ → RoundRow M31) (row : ℕ) : Prop where
  round : Vanish (roundCore (m31 (roundConstants (row % nRounds)).1)
    (m31 (roundConstants (row % nRounds)).2) (rows row))
  input : (rows row).inp =
    if row % nRounds = 0 then
      ((entering start rows (row / nRounds)).1 + feed (row / nRounds),
        (entering start rows (row / nRounds)).2)
    else (rows (previousRow logSize row)).out

section Sponge

variable {start : M31 × M31} {feed : ℕ → M31}
  (sponge : ∀ row < 2 ^ logSize, SpongeRow logSize start feed rows row)
include sponge

theorem runs_of_sponge : Runs logSize rows where
  round := fun row inside => out_of_roundCore (sponge row inside).round
  carry := by
    intro row inside within
    rw [(sponge _ inside).input, if_neg within, previousRow_succ inside]

/-- Blocks that absorb run the sponge. -/
theorem entering_eq (k : ℕ) (inside : nRounds * k ≤ 2 ^ logSize) :
    entering start rows k = fieldStates start feed k := by
  induction k with
  | zero => rfl
  | succ k ih =>
      have last : nRounds * (k + 1) - 1 = nRounds * k + 7 := rfl
      have before : nRounds * k < 2 ^ logSize := by
        simp only [nRounds] at inside ⊢
        omega
      have place : nRounds * k / nRounds = k := Nat.mul_div_cancel_left k (by decide)
      have input := (sponge _ before).input
      rw [if_pos (Nat.mul_mod_right nRounds k), place, ih before.le] at input
      rw [entering, if_neg (Nat.succ_ne_zero k), last, (runs_of_sponge sponge).block k inside,
        input]
      rfl

end Sponge

/-- The first feeds of a sponge decide the rows of its first blocks. -/
theorem sponge_rows_unique {n : ℕ} {start : M31 × M31} {feed otherFeed : ℕ → M31}
    {others : ℕ → RoundRow M31}
    (sponge : ∀ row < 2 ^ logSize, SpongeRow logSize start feed rows row)
    (otherSponge : ∀ row < 2 ^ logSize, SpongeRow logSize start otherFeed others row)
    (fits : nRounds * n ≤ 2 ^ logSize) (feeds : ∀ k < n, feed k = otherFeed k) :
    ∀ row < nRounds * n, rows row = others row := by
  intro row
  induction row using Nat.strong_induction_on with
  | _ row ih =>
      intro before
      have inside : row < 2 ^ logSize := lt_of_lt_of_le before fits
      apply roundRow_unique (sponge row inside).round (otherSponge row inside).round
      rw [(sponge row inside).input, (otherSponge row inside).input]
      by_cases first : row % nRounds = 0
      · -- a block starts from the end of the one before it
        have entered : entering start rows (row / nRounds) =
            entering start others (row / nRounds) := by
          rw [entering, entering]
          split
          case isTrue => rfl
          case isFalse later =>
            have last : nRounds * (row / nRounds) - 1 < row := by
              simp only [nRounds] at first later ⊢
              omega
            rw [ih _ last (last.trans before)]
        rw [if_pos first, if_pos first, entered, feeds _ (Nat.div_lt_of_lt_mul before)]
      · have positive : row ≠ 0 := by
          rintro rfl
          exact first (Nat.zero_mod nRounds)
        rcases Nat.exists_eq_succ_of_ne_zero positive with ⟨earlier, rfl⟩
        rw [if_neg first, if_neg first, previousRow_succ inside,
          ih earlier (Nat.lt_succ_self earlier) (by omega)]

/-- Constraints that feed a sponge, in the order of the source. -/
def wiring {F : Type*} [CommRing F] (isInit : F) (cur : F × F) (fed : F) (prev : F × F)
    (row : RoundRow F) : List F :=
  let notInit := 1 - isInit
  [isInit * (row.inp0 - (cur.1 + fed)), isInit * (row.inp1 - cur.2),
    notInit * (row.inp0 - prev.1), notInit * (row.inp1 - prev.2)]

theorem vanish_wiring {init : Prop} [Decidable init] {cur prev : M31 × M31} {fed : M31}
    {row : RoundRow M31} :
    Vanish (wiring (if init then 1 else 0) cur fed prev row) ↔
      row.inp = if init then (cur.1 + fed, cur.2) else prev := by
  split <;> simp [wiring, RoundRow.inp, Prod.ext_iff, sub_eq_zero]

/-- The first row of a trace takes the given state, the first row of any other block
the one before it. -/
theorem gated_entering (start : M31 × M31) (rows : ℕ → RoundRow M31) {row : ℕ}
    (first : row % nRounds = 0) (inside : row < 2 ^ logSize) :
    ((if row = 0 then 1 else 0) * start.1 +
        (1 - if row = 0 then 1 else 0) * (rows (previousRow logSize row)).s0,
      (if row = 0 then 1 else 0) * start.2 +
        (1 - if row = 0 then 1 else 0) * (rows (previousRow logSize row)).s1) =
      entering start rows (row / nRounds) := by
  cases row with
  | zero => simp [entering]
  | succ row =>
      have later : (row + 1) / nRounds ≠ 0 := by
        simp only [nRounds] at first ⊢
        omega
      have last : nRounds * ((row + 1) / nRounds) - 1 = row := by
        simp only [nRounds] at first ⊢
        omega
      rw [entering, if_neg later, last, previousRow_succ inside, if_neg (Nat.succ_ne_zero row)]
      simp [RoundRow.out]

end Blocks

/-! ## The rows of a prover -/

/-- States between the blocks of the sponge on words. -/
def blockStates (start : ℕ × ℕ) (feed : ℕ → ℕ) : ℕ → ℕ × ℕ
  | 0 => start
  | k + 1 =>
      let state := blockStates start feed k
      permute (m31Add state.1 (feed k), state.2)

/-- Inputs of the blocks. -/
def blockInput (start : ℕ × ℕ) (feed : ℕ → ℕ) (k : ℕ) : ℕ × ℕ :=
  let state := blockStates start feed k
  (m31Add state.1 (feed k), state.2)

/-- Input of the round on a row, from the inputs of the blocks. -/
def roundInput (start : ℕ → ℕ × ℕ) (row : ℕ) : ℕ × ℕ :=
  (List.range (row % nRounds)).foldl (fun s r => round s (roundConstants r))
    (start (row / nRounds))

/-- The cells of a row. -/
def honestRow (start : ℕ → ℕ × ℕ) (row : ℕ) : RoundRow M31 :=
  let inp := roundInput start row
  let rc := roundConstants (row % nRounds)
  let x0 := m31Add inp.1 rc.1
  let x1 := m31Add inp.2 rc.2
  let next := round inp rc
  ⟨m31 next.1, m31 next.2, m31 (m31Mul x0 x0), m31 (m31Mul x1 x1), m31 inp.1, m31 inp.2⟩

/-- Field elements of two words. -/
def residuePair (s : ℕ × ℕ) : M31 × M31 := (s.1, s.2)

theorem residuePair_val (s : M31 × M31) : residuePair (pairVal s) = s := by
  simp [residuePair, pairVal]

/-- Both words are canonical. -/
def Reduced (s : ℕ × ℕ) : Prop := pairVal (residuePair s) = s

theorem reduced_pairVal (s : M31 × M31) : Reduced (pairVal s) := by
  rw [Reduced, residuePair_val]

@[simp] theorem residuePair_zero : residuePair (0, 0) = (0, 0) := by
  simp [residuePair]

theorem reduced_zero : Reduced (0, 0) := by
  simp [Reduced, pairVal]

section Row

variable {start : ℕ → ℕ × ℕ} {row : ℕ} (reduced : Reduced (start (row / nRounds)))
include reduced

theorem roundInput_eq :
    roundInput start row =
      pairVal (fieldRounds (row % nRounds) (residuePair (start (row / nRounds)))) := by
  rw [roundInput, ← reduced]
  rw [rounds_val (Nat.mod_lt _ (by decide)).le, residuePair_val]

/-- The cells of a row are those of its round. -/
theorem honestRow_round :
    (honestRow start row).inp = fieldRounds (row % nRounds) (residuePair (start (row / nRounds))) ∧
    Vanish (roundCore (m31 (roundConstants (row % nRounds)).1)
      (m31 (roundConstants (row % nRounds)).2) (honestRow start row)) := by
  have bound : row % nRounds < nRounds := Nat.mod_lt row (by decide)
  rcases roundConstants_canonical bound with ⟨first, second⟩
  have input := roundInput_eq reduced
  generalize fieldRounds (row % nRounds) (residuePair (start (row / nRounds))) = s at input ⊢
  have next := round_val bound s
  have sum0 : m31Add s.1.val (roundConstants (row % nRounds)).1 =
      (s.1 + (roundConstants (row % nRounds)).1).val := by
    rw [← m31Add_val, ZMod.val_cast_of_lt first]
  have sum1 : m31Add s.2.val (roundConstants (row % nRounds)).2 =
      (s.2 + (roundConstants (row % nRounds)).2).val := by
    rw [← m31Add_val, ZMod.val_cast_of_lt second]
  rw [honestRow, input, next]
  simp only [pairVal, sum0, sum1, m31Mul_val, m31_eq_cast, ZMod.natCast_val, ZMod.cast_id', id_eq,
    RoundRow.inp, true_and, roundCore, fieldRound, vanish_cons, vanish_nil, and_true, sub_eq_zero]
  refine ⟨?_, ?_⟩
  · ring
  · ring

theorem honestRow_inp_first (first : row % nRounds = 0) :
    (honestRow start row).inp = residuePair (start (row / nRounds)) := by
  rw [(honestRow_round reduced).1, first, fieldRounds_zero]

theorem honestRow_out :
    (honestRow start row).out =
      fieldRounds (row % nRounds + 1) (residuePair (start (row / nRounds))) := by
  rw [out_of_roundCore (honestRow_round reduced).2, (honestRow_round reduced).1,
    fieldRounds_succ]

end Row

theorem honestRow_runs {start : ℕ → ℕ × ℕ} {logSize : ℕ}
    (reduced : ∀ row < 2 ^ logSize, Reduced (start (row / nRounds))) :
    Runs logSize (honestRow start) where
  round := fun row inside => out_of_roundCore (honestRow_round (reduced row inside)).2
  carry := by
    intro row inside within
    have same : (row + 1) / nRounds = row / nRounds := by
      simp only [nRounds] at within ⊢
      omega
    have later : (row + 1) % nRounds = row % nRounds + 1 := by
      simp only [nRounds] at within ⊢
      omega
    rw [honestRow_out (reduced row (by omega)), (honestRow_round (reduced _ inside)).1, same,
      later]

section Sponge

variable {logSize : ℕ} {start : ℕ × ℕ} {feed : ℕ → ℕ} (reduced : Reduced start)
  (bounded : ∀ k, nRounds * k < 2 ^ logSize → Canonical (feed k))
include reduced bounded

theorem blockStates_eq {k : ℕ} (inside : nRounds * k < 2 ^ logSize + nRounds) :
    blockStates start feed k =
      pairVal (fieldStates (residuePair start) (fun k => (feed k : M31)) k) := by
  induction k with
  | zero => exact reduced.symm
  | succ k ih =>
      have before : nRounds * k < 2 ^ logSize := by
        simp only [nRounds] at inside ⊢
        omega
      have word : feed k = (feed k : M31).val := (ZMod.val_cast_of_lt (bounded k before)).symm
      rw [blockStates, ih (by omega), fieldStates, fieldAbsorb, ← permute_val]
      dsimp only [pairVal]
      rw [word, m31Add_val, ← word]

theorem blockInput_eq {k : ℕ} (inside : nRounds * k < 2 ^ logSize) :
    blockInput start feed k =
      pairVal ((fieldStates (residuePair start) (fun k => (feed k : M31)) k).1 + (feed k : M31),
        (fieldStates (residuePair start) (fun k => (feed k : M31)) k).2) := by
  have word : feed k = (feed k : M31).val := (ZMod.val_cast_of_lt (bounded k inside)).symm
  rw [blockInput, blockStates_eq reduced bounded (by omega)]
  dsimp only [pairVal]
  rw [word, m31Add_val, ← word]

theorem blockInput_reduced (row : ℕ) (inside : row < 2 ^ logSize) :
    Reduced (blockInput start feed (row / nRounds)) := by
  have block : nRounds * (row / nRounds) < 2 ^ logSize :=
    lt_of_le_of_lt (Nat.mul_div_le row nRounds) inside
  rw [blockInput_eq reduced bounded block]
  exact reduced_pairVal _

/-- The prover's rows hold the states between the blocks. -/
theorem entering_honest {k : ℕ} (inside : nRounds * k ≤ 2 ^ logSize) :
    entering (residuePair start) (honestRow (blockInput start feed)) k =
      residuePair (blockStates start feed k) := by
  cases k with
  | zero => rfl
  | succ k =>
      have last : nRounds * (k + 1) - 1 = nRounds * k + 7 := rfl
      have row : nRounds * k + 7 < 2 ^ logSize := by
        simp only [nRounds] at inside ⊢
        omega
      have place : (nRounds * k + 7) / nRounds = k := by
        simp only [nRounds]
        omega
      have digit : (nRounds * k + 7) % nRounds = 7 := by
        simp only [nRounds]
        omega
      have own := blockInput_reduced reduced bounded _ row
      have cell := honestRow_out own
      rw [place, digit] at cell
      rw [place] at own
      rw [entering, if_neg (Nat.succ_ne_zero k), last, cell, blockStates]
      change fieldRounds nRounds (residuePair (blockInput start feed k)) =
        residuePair (permute (blockInput start feed k))
      rw [← own, permute_val, residuePair_val, residuePair_val]

/-- The prover's rows are those of the sponge. -/
theorem honestRow_sponge {row : ℕ} (inside : row < 2 ^ logSize) :
    SpongeRow logSize (residuePair start) (fun k => (feed k : M31))
      (honestRow (blockInput start feed)) row where
  round := (honestRow_round (blockInput_reduced reduced bounded row inside)).2
  input := by
    have own := blockInput_reduced reduced bounded
    split
    case isTrue first =>
      have block : nRounds * (row / nRounds) < 2 ^ logSize :=
        lt_of_le_of_lt (Nat.mul_div_le row nRounds) inside
      rw [honestRow_inp_first (own row inside) first,
        entering_honest reduced bounded block.le, blockInput_eq reduced bounded block,
        blockStates_eq reduced bounded (by omega), residuePair_val, residuePair_val]
    case isFalse within =>
      cases row with
      | zero => exact absurd (Nat.zero_mod nRounds) within
      | succ row =>
          rw [previousRow_succ inside]
          exact (honestRow_runs own).carry row inside within

end Sponge

end Chain
end QLSA
