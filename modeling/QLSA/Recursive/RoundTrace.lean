import QLSA.Recursive.HonestLane

namespace QLSA
namespace Recursive

open Hash Mersenne

/-!
# Rows that a trace builder writes

Builders compute with machine words: they replay each permutation round by
round, one row for a round, and continue the chain once on the first row behind
the last permutation.  On states of canonical words these are the rounds of the
field, so that the four round columns of such a trace are those of an honest
lane.
-/

/-- The four round columns of a row. -/
structure RoundRow (α : Type*) where
  inp : State α
  sq : State α
  sbox : State α
  out : State α

@[simps] def RoundRow.map {α β : Type*} (f : α → β) (row : RoundRow α) : RoundRow β :=
  ⟨row.inp.map f, row.sq.map f, row.sbox.map f, row.out.map f⟩

/-! ## Loops -/

def zeroState {α : Type*} [Zero α] : State α := ⟨0, 0, 0, 0, 0, 0, 0, 0⟩

/-- The row of a round. -/
def roundRow (inp : State ℕ) (r : ℕ) : RoundRow ℕ :=
  let rc := (roundSchedule r).2
  let y := State.zipWith Stwo.m31Add inp rc
  let sq := y.map fun yi => Stwo.m31Mul yi yi
  let sbx := y.map Stwo.sbox
  let out := if (roundSchedule r).1 then Stwo.matExternal sbx
    else Stwo.matInternal { inp with s0 := sbx.s0 }
  ⟨inp, sq, sbx, out⟩

/-- The rows of a permutation, and the state after it. -/
def roundRows (state : State ℕ) : List (RoundRow ℕ) × State ℕ :=
  (List.range 22).foldl (fun filled r =>
    let row := roundRow filled.2 r
    (filled.1 ++ [row], row.out)) ([], state)

/-- A row without selectors, which continues the chain. -/
def paddingRow (inp : State ℕ) : RoundRow ℕ :=
  ⟨inp, inp.map fun x => Stwo.m31Mul x x, inp.map Stwo.sbox, zeroState⟩

def paddingRows : State ℕ → ℕ → List (RoundRow ℕ)
  | _, 0 => []
  | carry, count + 1 => paddingRow carry :: paddingRows zeroState count

/-! ## The rows over the field -/

section Rows

variable {F : Type*} [CommRing F]

/-- The columns of a row, given the state before it, its constants and the
state after it. -/
def RoundRow.between (inp rc out : State F) : RoundRow F :=
  let y := State.zipWith (· + ·) inp rc
  ⟨inp, y.map fun x => x * x, y.map power5, out⟩

/-- The constants of a round. -/
def scheduledConstants (F : Type*) [CommRing F] (r : ℕ) : State F :=
  (roundSchedule r).2.map fun word : ℕ => (word : F)

/-- The round columns of an honest lane. -/
def honestRoundRow (raw : ℕ → State F) (count row : ℕ) : RoundRow F :=
  .between (honestIn raw count row)
    (if row < 22 * count then scheduledConstants F (row % 22) else zeroState)
    (honestOut raw count row)

/-- A lane with these round columns is the honest one. -/
theorem eq_honestLane {raw : ℕ → State F} {count row previous : ℕ} {l : Lane F} {s : Shared F}
    {cur leaf : ℕ → Quad F}
    (rc : s.rc = if row < 22 * count then scheduledConstants F (row % 22) else zeroState)
    (rounds : RoundRow.mk l.inp l.sq l.sbox l.out = honestRoundRow raw count row)
    (chained : l.outPrev = honestOut raw count previous) (node : l.cur = cur row)
    (pinned : l.leaf = leaf row) : l = honestLane raw cur leaf count s row previous := by
  rcases l with ⟨inp, sq, sbox, out, outPrev, own, bottom⟩
  have powers : (honestLane raw cur leaf count s row previous).sbox =
      (State.zipWith (· + ·) (honestIn raw count row) s.rc).map power5 :=
    @honestLane_sbox F _ (fun _ => s) raw cur leaf count row previous
  rw [honestRoundRow, RoundRow.between, ← rc, RoundRow.mk.injEq] at rounds
  rcases rounds with ⟨first, second, third, fourth⟩
  dsimp only at first second third fourth chained node pinned
  rw [first, second, third, fourth, chained, node, pinned, ← powers]
  rfl

/-- A round by the selector of its row. -/
theorem round_eq (r : ℕ) (inp : State F) :
    Hash.round (columnConstant F) r inp =
      let powers := (State.zipWith (· + ·) inp (scheduledConstants F r)).map power5
      if (roundSchedule r).1 then external powers else internal { inp with s0 := powers.s0 } := by
  have scheduled : Shared.Scheduled (⟨scheduledConstants F r, if (roundSchedule r).1 then 1 else 0,
    if (roundSchedule r).1 then 0 else 1, 0, 0, 0, ⟨0, 0, 0, 0⟩, 0⟩ : Shared F) r := ⟨rfl, rfl, rfl⟩
  rw [← round_expression scheduled inp]
  dsimp only
  split
  case isTrue => ext <;> simp
  case isFalse => ext <;> simp

/-- The round core of a circuit. -/
def roundConstraints (row : RoundRow F) (rc : State F) (isExt isInt : F) : List F :=
  let y := State.zipWith (· + ·) row.inp rc
  let me := matExternalExpr row.sbox
  let mi := matInternalExpr { row.inp with s0 := row.sbox.s0 }
  stateDifferences row.sq (y.map fun x => x * x) ++
  stateDifferences row.sbox (State.zipWith (fun q x => q * q * x) row.sq y) ++
  stateDifferences row.out (State.zipWith (fun e i => isExt * e + isInt * i) me mi)

/-- Selectors of a round, or of none. -/
def Selects (scheduled : Option ℕ) (rc : State F) (isExt isInt : F) : Prop :=
  match scheduled with
  | some r => rc = scheduledConstants F r ∧ (isExt = if (roundSchedule r).1 then 1 else 0) ∧
      isInt = if (roundSchedule r).1 then 0 else 1
  | none => rc = zeroState ∧ isExt = 0 ∧ isInt = 0

/-- The round of the selectors; without one the state is zero. -/
def selectedRound (F : Type*) [CommRing F] (scheduled : Option ℕ) (inp : State F) : State F :=
  match scheduled with
  | some r => Hash.round (columnConstant F) r inp
  | none => zeroState

/-- The core holds of exactly the row of the selected round. -/
theorem vanish_roundConstraints {scheduled : Option ℕ} {row : RoundRow F} {rc : State F}
    {isExt isInt : F} (selects : Selects scheduled rc isExt isInt) :
    Vanish (roundConstraints row rc isExt isInt) ↔
      row = .between row.inp rc (selectedRound F scheduled row.inp) := by
  have powers (q x : State F) (square : q = x.map fun c => c * c) :
      State.zipWith (fun q x => q * q * x) q x = x.map power5 := by
    rw [square]
    ext <;> simp only [State.zipWith, State.map, power5] <;> ring
  have outputs : State.zipWith (fun e i => isExt * e + isInt * i)
      (external ((State.zipWith (· + ·) row.inp rc).map power5))
      (internal { row.inp with s0 := ((State.zipWith (· + ·) row.inp rc).map power5).s0 }) =
      selectedRound F scheduled row.inp := by
    cases scheduled with
    | none =>
        rcases selects with ⟨-, ext, int⟩
        rw [ext, int]
        ext <;> simp [selectedRound, zeroState]
    | some r =>
        rcases selects with ⟨constants, ext, int⟩
        have scheduled : Shared.Scheduled
            (⟨rc, isExt, isInt, 0, 0, 0, ⟨0, 0, 0, 0⟩, 0⟩ : Shared F) r := ⟨constants, ext, int⟩
        exact round_expression scheduled row.inp
  rcases row with ⟨inp, sq, sbox, out⟩
  simp only [roundConstraints, vanish_append, vanish_stateDifferences, matExternalExpr_eq,
    matInternalExpr_eq, RoundRow.between, RoundRow.mk.injEq, true_and, and_assoc]
  constructor
  · rintro ⟨square, power, output⟩
    rw [powers _ _ square] at power
    rw [power, outputs] at output
    exact ⟨square, power, output⟩
  · rintro ⟨square, power, output⟩
    rw [powers _ _ square, power, outputs]
    exact ⟨square, rfl, output⟩

/-- Rows that chain the rounds of one permutation. -/
theorem rounds_chain {inp out : ℕ → State F} {raw : State F} (first : inp 0 = external raw)
    (rounds : ∀ r < 22, out r = Hash.round (columnConstant F) r (inp r))
    (chained : ∀ r < 21, inp (r + 1) = out r) {r : ℕ} (early : r < 22) :
    out r = roundsFrom (columnConstant F) raw (r + 1) := by
  induction r with
  | zero =>
      rw [rounds 0 early, first]
      rfl
  | succ r ih =>
      rw [rounds (r + 1) early, chained r (by omega), ih (by omega)]
      rfl

end Rows

section Words

variable (x : State M31) (r : ℕ)

theorem roundSchedule_canonical : (roundSchedule r).2.All Canonical := by
  have constants := Stwo.roundConstant_canonical
  have zero : Canonical 0 := P_prime.pos
  unfold roundSchedule
  split
  · exact ⟨constants _, constants _, constants _, constants _, constants _, constants _,
      constants _, constants _⟩
  · split
    · exact ⟨constants _, zero, zero, zero, zero, zero, zero, zero⟩
    · exact ⟨constants _, constants _, constants _, constants _, constants _, constants _,
        constants _, constants _⟩

theorem scheduledConstants_val :
    (scheduledConstants M31 r).map ZMod.val = (roundSchedule r).2 := by
  rcases roundSchedule_canonical r with ⟨h0, h1, h2, h3, h4, h5, h6, h7⟩
  have word {value : ℕ} (canonical : Canonical value) : ZMod.val (value : M31) = value := by
    rw [ZMod.val_natCast, Nat.mod_eq_of_lt canonical]
  ext <;> simp only [scheduledConstants, State.map, word h0, word h1, word h2, word h3, word h4,
    word h5, word h6, word h7]

theorem zipWith_m31Add (y : State M31) :
    State.zipWith Stwo.m31Add (x.map ZMod.val) (y.map ZMod.val) =
      (State.zipWith (· + ·) x y).map ZMod.val := by
  ext <;> simp only [State.map, State.zipWith, Stwo.m31Add_val]

theorem map_square : (x.map ZMod.val).map (fun y => Stwo.m31Mul y y) =
    (x.map fun y => y * y).map ZMod.val := by
  ext <;> simp only [State.map, Stwo.m31Mul_val]

theorem map_sbox : (x.map ZMod.val).map Stwo.sbox = (x.map power5).map ZMod.val := by
  ext <;> simp only [State.map, Stwo.sbox_val]

/-- A row of words is the row of a round. -/
theorem roundRow_map :
    roundRow (x.map ZMod.val) r =
      (RoundRow.between x (scheduledConstants M31 r)
        (Hash.round (columnConstant M31) r x)).map ZMod.val := by
  have y := zipWith_m31Add x (scheduledConstants M31 r)
  rw [scheduledConstants_val] at y
  rw [roundRow, round_eq, RoundRow.between, RoundRow.map]
  dsimp only
  rw [y, map_square, map_sbox]
  generalize (State.zipWith (· + ·) x (scheduledConstants M31 r)).map power5 = powers
  have inner : ({ x.map ZMod.val with s0 := (powers.map ZMod.val).s0 } : State ℕ) =
      ({ x with s0 := powers.s0 } : State M31).map ZMod.val := rfl
  split
  case isTrue => rw [Stwo.matExternal_map]
  case isFalse => rw [inner, Stwo.matInternal_map]

theorem map_m31_val : (x.map ZMod.val).map m31 = x := by
  ext <;> simp only [State.map, m31_eq_cast, ZMod.natCast_zmod_val]

/-- The rows of a permutation of canonical words, after its first linear layer. -/
theorem roundRows_map (raw : State M31) :
    roundRows ((external raw).map ZMod.val) =
      ((List.range 22).map fun r =>
        (RoundRow.between (roundsFrom (columnConstant M31) raw r) (scheduledConstants M31 r)
          (roundsFrom (columnConstant M31) raw (r + 1))).map ZMod.val,
        (roundsFrom (columnConstant M31) raw 22).map ZMod.val) := by
  unfold roundRows
  generalize 22 = count
  induction count with
  | zero => rfl
  | succ count ih =>
      rw [List.range_succ, List.foldl_append, ih, List.foldl_cons, List.foldl_nil,
        List.map_append, List.map_singleton]
      dsimp only
      rw [roundRow_map]
      rfl

theorem roundRows_state (raw : State M31) :
    (roundRows ((external raw).map ZMod.val)).2 =
      (roundsFrom (columnConstant M31) raw 22).map ZMod.val := by
  rw [roundRows_map]

theorem paddingRow_map :
    paddingRow (x.map ZMod.val) =
      (RoundRow.between x zeroState zeroState).map ZMod.val := by
  have y : State.zipWith (· + ·) x zeroState = x := by
    ext <;> exact add_zero _
  rw [paddingRow, RoundRow.between, map_square, map_sbox, y]
  rfl

end Words

/-! ## A whole trace -/

theorem range_mul_map {α : Type*} (count width : ℕ) (f : ℕ → α) :
    (List.range (width * count)).map f =
      (List.range count).flatMap fun k => (List.range width).map fun r => f (width * k + r) := by
  induction count with
  | zero => rfl
  | succ count ih =>
      rw [Nat.mul_succ, List.range_add, List.map_append, ih, List.range_succ, List.flatMap_append,
        List.flatMap_singleton, List.map_map]
      rfl

section Trace

variable (raw : ℕ → State M31) {count : ℕ}

theorem honestIn_round {k r : ℕ} (inside : k < count) (early : r < 22) :
    honestIn raw count (22 * k + r) = roundsFrom (columnConstant M31) (raw k) r := by
  have before : 22 * k + r < 22 * count := by omega
  have block : (22 * k + r) / 22 = k := by omega
  have step : (22 * k + r) % 22 = r := by omega
  cases r with
  | zero => rw [honestIn, if_pos ⟨before, step⟩, block, roundsFrom]
  | succ r =>
      have last : 22 * k + (r + 1) - 1 = 22 * k + r := by omega
      have earlier : 22 * k + r < 22 * count := by omega
      have same : (22 * k + r) / 22 = k := by omega
      have previous : (22 * k + r) % 22 = r := by omega
      rw [honestIn, if_neg (by omega), last, honestOut, if_pos earlier, same, previous]

theorem honestOut_round {k r : ℕ} (inside : k < count) (early : r < 22) :
    honestOut raw count (22 * k + r) = roundsFrom (columnConstant M31) (raw k) (r + 1) := by
  have before : 22 * k + r < 22 * count := by omega
  have block : (22 * k + r) / 22 = k := by omega
  have step : (22 * k + r) % 22 = r := by omega
  rw [honestOut, if_pos before, block, step]

theorem honestRoundRow_round {k r : ℕ} (inside : k < count) (early : r < 22) :
    honestRoundRow raw count (22 * k + r) =
      .between (roundsFrom (columnConstant M31) (raw k) r) (scheduledConstants M31 r)
        (roundsFrom (columnConstant M31) (raw k) (r + 1)) := by
  have before : 22 * k + r < 22 * count := by omega
  have step : (22 * k + r) % 22 = r := by omega
  rw [honestRoundRow, honestIn_round raw inside early, honestOut_round raw inside early,
    if_pos before, step]

theorem honestRoundRow_padding {row : ℕ} (after : 22 * count ≤ row) :
    honestRoundRow raw count row = .between (honestIn raw count row) zeroState zeroState := by
  rw [honestRoundRow, honestOut, if_neg (by omega), if_neg (by omega)]
  rfl

theorem honestIn_padding {row : ℕ} (after : 22 * count < row) :
    honestIn raw count row = zeroState := by
  rw [honestIn, if_neg (by omega), honestOut, if_neg (by omega)]
  rfl

theorem paddingRows_map (idle start : ℕ) (after : 22 * count ≤ start) :
    paddingRows ((honestIn raw count start).map ZMod.val) idle =
      (List.range' start idle).map fun row => (honestRoundRow raw count row).map ZMod.val := by
  induction idle generalizing start with
  | zero => rfl
  | succ idle ih =>
      have later := ih (start + 1) (by omega)
      rw [honestIn_padding raw (by omega)] at later
      rw [paddingRows, List.range'_succ, List.map_cons, ← later, paddingRow_map,
        honestRoundRow_padding raw after]
      rfl

theorem permutationRows_map :
    ((List.range count).flatMap fun k => (roundRows ((external (raw k)).map ZMod.val)).1) =
      (List.range (22 * count)).map fun row => (honestRoundRow raw count row).map ZMod.val := by
  rw [range_mul_map]
  apply List.flatMap_congr
  intro k member
  rw [roundRows_map]
  apply List.map_congr_left
  intro r early
  rw [honestRoundRow_round raw (List.mem_range.mp member) (List.mem_range.mp early)]

/-- Permutations one after the other and the padding behind them fill the
round columns of an honest lane. -/
theorem filledRows {rows : ℕ} (fits : 22 * count ≤ rows) :
    ((List.range count).flatMap fun k => (roundRows ((external (raw k)).map ZMod.val)).1) ++
        paddingRows ((honestIn raw count (22 * count)).map ZMod.val) (rows - 22 * count) =
      (List.range rows).map fun row => (honestRoundRow raw count row).map ZMod.val := by
  have whole : rows = 22 * count + (rows - 22 * count) := by omega
  have joined : List.range' 0 (22 * count) ++ List.range' (22 * count) (rows - 22 * count) =
      List.range' 0 rows := by
    have split := @List.range'_append_1 0 (22 * count) (rows - 22 * count)
    rwa [Nat.zero_add, ← whole] at split
  rw [permutationRows_map, paddingRows_map raw _ _ le_rfl, List.range_eq_range',
    List.range_eq_range', ← List.map_append, joined]

end Trace

end Recursive
end QLSA
