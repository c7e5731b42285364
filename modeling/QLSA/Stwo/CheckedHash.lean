import QLSA.Stwo.BatchTree
import QLSA.Stwo.FieldHash

namespace QLSA
namespace Stwo

open Mersenne Hash

/-!
# The width-eight hash with overflow checks

In a build with overflow checks a sum or product of `2^64` or more aborts the
call.  The routines here are those of the prover with this effect; they yield
nothing when an operation overflows.

A sum is reduced by one subtraction and a product by one fold of its halves, so
both are the field operation on canonical words only.  Words of 32 bits pass
the linear layer and the first constants as unreduced cells.  What happens then
is decided by the first S-box layer: when every cell of it comes out reduced,
the rest of the permutation works on canonical words; when a cell overflows
there, the call aborts.
-/

/-- A result that fits in a `u64`. -/
def checked (value : ℕ) : Option ℕ := if value < u64Modulus then some value else none

def m31AddChecked (a b : ℕ) : Option ℕ := do
  let s ← checked (a + b)
  some (if P ≤ s then s - P else s)

def m31MulChecked (a b : ℕ) : Option ℕ := do
  let r ← checked (a * b)
  let lo := r &&& P
  let hi := r >>> 31
  let s ← checked (lo + hi)
  some (if P ≤ s then s - P else s)

def sboxChecked (x : ℕ) : Option ℕ := do
  let x2 ← m31MulChecked x x
  let x4 ← m31MulChecked x2 x2
  m31MulChecked x4 x

def m4Checked (s : Quad ℕ) : Option (Quad ℕ) := do
  let t0 ← m31AddChecked s.w0 s.w1
  let t1 ← m31AddChecked s.w2 s.w3
  let twice1 ← m31AddChecked s.w1 s.w1
  let t2 ← m31AddChecked twice1 t1
  let twice3 ← m31AddChecked s.w3 s.w3
  let t3 ← m31AddChecked twice3 t0
  let double1 ← m31AddChecked t1 t1
  let four1 ← m31AddChecked double1 double1
  let t4 ← m31AddChecked four1 t3
  let double0 ← m31AddChecked t0 t0
  let four0 ← m31AddChecked double0 double0
  let t5 ← m31AddChecked four0 t2
  let w0 ← m31AddChecked t3 t5
  let w2 ← m31AddChecked t2 t4
  some ⟨w0, t5, w2, t4⟩

def matExternalChecked (s : State ℕ) : Option (State ℕ) := do
  let v0 ← m4Checked s.left
  let v1 ← m4Checked s.right
  let sigma0 ← m31AddChecked v0.w0 v1.w0
  let s0 ← m31AddChecked v0.w0 sigma0
  let s4 ← m31AddChecked v1.w0 sigma0
  let sigma1 ← m31AddChecked v0.w1 v1.w1
  let s1 ← m31AddChecked v0.w1 sigma1
  let s5 ← m31AddChecked v1.w1 sigma1
  let sigma2 ← m31AddChecked v0.w2 v1.w2
  let s2 ← m31AddChecked v0.w2 sigma2
  let s6 ← m31AddChecked v1.w2 sigma2
  let sigma3 ← m31AddChecked v0.w3 v1.w3
  let s3 ← m31AddChecked v0.w3 sigma3
  let s7 ← m31AddChecked v1.w3 sigma3
  some ⟨s0, s1, s2, s3, s4, s5, s6, s7⟩

/-- `count` additions of one cell to an accumulator. -/
def addTimesChecked (cell : ℕ) : ℕ → ℕ → Option ℕ
  | 0, acc => some acc
  | count + 1, acc => (m31AddChecked acc cell).bind (addTimesChecked cell count)

def matInternalChecked (s : State ℕ) : Option (State ℕ) := do
  let sum ← s.toList.foldlM m31AddChecked 0
  let s0 ← addTimesChecked s.s0 1 sum
  let s1 ← addTimesChecked s.s1 2 sum
  let s2 ← addTimesChecked s.s2 3 sum
  let s3 ← addTimesChecked s.s3 4 sum
  let s4 ← addTimesChecked s.s4 5 sum
  let s5 ← addTimesChecked s.s5 6 sum
  let s6 ← addTimesChecked s.s6 7 sum
  let s7 ← addTimesChecked s.s7 8 sum
  some ⟨s0, s1, s2, s3, s4, s5, s6, s7⟩

/-- A loop over the cells. -/
def forCells {α : Type*} (f : α → Option ℕ) (s : State α) : Option (State ℕ) := do
  let s0 ← f s.s0
  let s1 ← f s.s1
  let s2 ← f s.s2
  let s3 ← f s.s3
  let s4 ← f s.s4
  let s5 ← f s.s5
  let s6 ← f s.s6
  let s7 ← f s.s7
  some ⟨s0, s1, s2, s3, s4, s5, s6, s7⟩

def externalRoundChecked (s : State ℕ) (r : ℕ) : Option (State ℕ) := do
  let added ← forCells (fun cell : ℕ × ℕ => m31AddChecked cell.1 cell.2)
    (State.zipWith Prod.mk s (State.tabulate roundConstant (8 * r)))
  let powers ← forCells sboxChecked added
  matExternalChecked powers

def internalRoundChecked (s : State ℕ) (j : ℕ) : Option (State ℕ) := do
  let added ← m31AddChecked s.s0 (roundConstant (64 + j))
  let power ← sboxChecked added
  matInternalChecked { s with s0 := power }

def permuteT8Checked (s : State ℕ) : Option (State ℕ) := do
  let mixed ← matExternalChecked s
  let first ← (List.range 4).foldlM externalRoundChecked mixed
  let middle ← (List.range 14).foldlM internalRoundChecked first
  [4, 5, 6, 7].foldlM externalRoundChecked middle

def compressT8Checked (left right : Quad ℕ) : Option (Quad ℕ) := do
  let s ← permuteT8Checked (State.ofQuads left right)
  some s.left

def hashPairP2T8Checked (left right : Bytes32) : Option Bytes32 := do
  let words ← compressT8Checked (p2t8NodeWords left) (p2t8NodeWords right)
  some (p2t8Pack words)

def verifyBatchMembershipChecked (root leaf : Bytes32) (sibs : List Bytes32)
    (bits : List Bool) : Option Bool :=
  if sibs.length ≠ bits.length then
    some false
  else do
    let cur ← (sibs.zip bits).foldlM
      (fun cur step =>
        if step.2 then hashPairP2T8Checked step.1 cur else hashPairP2T8Checked cur step.1) leaf
    some (decide (cur = root))

/-! ## Canonical words never overflow -/

section Canonical

variable (a b : M31)

theorem m31AddChecked_val : m31AddChecked a.val b.val = some (a + b).val := by
  have first := val_lt_P a
  have second := val_lt_P b
  have small : a.val + b.val < u64Modulus := by
    simp only [P, u64Modulus] at *
    omega
  have reduced := m31Add_val a b
  unfold m31Add at reduced
  rw [Nat.mod_eq_of_lt small] at reduced
  rw [m31AddChecked, checked, if_pos small]
  exact congrArg some reduced

/-- A product that fits is folded without overflow. -/
theorem m31MulChecked_eq {a b : ℕ} (small : a * b < u64Modulus) :
    m31MulChecked a b = some (m31Mul a b) := by
  have low : a * b &&& P = a * b % 2 ^ 31 := Nat.and_two_pow_sub_one_eq_mod (a * b) 31
  have high : (a * b) >>> 31 = a * b / 2 ^ 31 := Nat.shiftRight_eq_div_pow (a * b) 31
  have folded : (a * b &&& P) + (a * b) >>> 31 < u64Modulus := by
    rw [low, high]
    simp only [u64Modulus] at *
    omega
  simp only [m31MulChecked, checked, if_pos small, Option.bind_eq_bind, Option.bind_some,
    if_pos folded, m31Mul, Nat.mod_eq_of_lt small]

theorem m31MulChecked_val : m31MulChecked a.val b.val = some (a * b).val := by
  have first := val_lt_P a
  have second := val_lt_P b
  have small : a.val * b.val < u64Modulus :=
    lt_of_lt_of_le (Nat.mul_lt_mul'' first second) (by decide)
  rw [m31MulChecked_eq small, m31Mul_val]

theorem sboxChecked_val : sboxChecked a.val = some (power5 a).val := by
  have fifth : a * a * (a * a) * a = power5 a := by
    unfold power5
    ring
  simp only [sboxChecked, m31MulChecked_val, Option.bind_eq_bind, Option.bind_some, fifth]

theorem addTimesChecked_val (count : ℕ) (acc : M31) :
    addTimesChecked a.val count acc.val = some (addTimes a.val count acc.val) := by
  induction count generalizing acc with
  | zero => rfl
  | succ count ih =>
      rw [addTimesChecked, m31AddChecked_val, Option.bind_some, ih, addTimes, m31Add_val]

end Canonical

section Rounds

/-- The representatives of a state. -/
local instance : Coe (State M31) (State ℕ) := ⟨State.map ZMod.val⟩

/-- One sum of a layer: far below `2^64` it succeeds, does not grow by the
reduction and keeps its residue. -/
theorem sum_step {α : Type} {a b : ℕ} {rest : ℕ → Option α} {result : α} {bounded : Prop}
    (small : a + b < 2 ^ 60)
    (after : ∀ s : ℕ, s = m31Add a b → s ≤ a + b → (s : M31) = a + b →
      rest s = some result ∧ bounded) :
    (m31AddChecked a b >>= rest) = some result ∧ bounded := by
  have fits : a + b < u64Modulus := small.trans (by decide)
  have plain : m31Add a b = if P ≤ a + b then a + b - P else a + b := by
    simp only [m31Add, Nat.mod_eq_of_lt fits]
  have success : m31AddChecked a b = some (m31Add a b) := by
    rw [plain, m31AddChecked, checked, if_pos fits]
    rfl
  rw [success]
  refine after (m31Add a b) rfl ?_ ?_
  · rw [plain]
    split <;> omega
  · rw [plain]
    split
    case isTrue large => rw [cast_sub_P large, Nat.cast_add]
    case isFalse => exact Nat.cast_add a b

theorem m4Checked_eq {s : Quad ℕ} (small : s.All (· < 2 ^ 40)) :
    m4Checked s = some (m4 s) ∧ (m4 s).All (· < 2 ^ 44) ∧
      residues (m4 s) = mix4 (residues s) := by
  rcases small with ⟨first, second, third, fourth⟩
  unfold m4Checked
  refine sum_step (by omega) fun t0 e0 l0 r0 => ?_
  refine sum_step (by omega) fun t1 e1 l1 r1 => ?_
  refine sum_step (by omega) fun twice1 e2 l2 r2 => ?_
  refine sum_step (by omega) fun t2 e3 l3 r3 => ?_
  refine sum_step (by omega) fun twice3 e4 l4 r4 => ?_
  refine sum_step (by omega) fun t3 e5 l5 r5 => ?_
  refine sum_step (by omega) fun double1 e6 l6 r6 => ?_
  refine sum_step (by omega) fun four1 e7 l7 r7 => ?_
  refine sum_step (by omega) fun t4 e8 l8 r8 => ?_
  refine sum_step (by omega) fun double0 e9 l9 r9 => ?_
  refine sum_step (by omega) fun four0 e10 l10 r10 => ?_
  refine sum_step (by omega) fun t5 e11 l11 r11 => ?_
  refine sum_step (by omega) fun w0 e12 l12 r12 => ?_
  refine sum_step (by omega) fun w2 e13 l13 r13 => ?_
  have layer : m4 s = ⟨w0, t5, w2, t4⟩ := by
    subst e13 e12 e11 e10 e9 e8 e7 e6 e5 e4 e3 e2 e1 e0
    rfl
  rw [layer]
  refine ⟨rfl, ⟨?_, ?_, ?_, ?_⟩, ?_⟩
  case refine_5 =>
    ext <;>
      simp only [residues, Quad.map, mix4, r0, r1, r2, r3, r4, r5, r6, r7, r8, r9, r10, r11, r12,
        r13] <;> ring
  all_goals
    dsimp only
    omega

theorem matExternalChecked_eq {s : State ℕ} (small : s.All (· < 2 ^ 40)) :
    matExternalChecked s = some (matExternal s) ∧ (matExternal s).All (· < 2 ^ 46) ∧
      (matExternal s).map (fun word : ℕ => (word : M31)) =
        external (s.map fun word : ℕ => (word : M31)) := by
  rcases small with ⟨h0, h1, h2, h3, h4, h5, h6, h7⟩
  rcases m4Checked_eq (s := s.left) ⟨h0, h1, h2, h3⟩ with ⟨left, ⟨a0, a1, a2, a3⟩, leftMixed⟩
  rcases m4Checked_eq (s := s.right) ⟨h4, h5, h6, h7⟩ with ⟨right, ⟨b0, b1, b2, b3⟩, rightMixed⟩
  have layer : matExternal s =
      (let v0 := m4 s.left
       let v1 := m4 s.right
       ⟨m31Add v0.w0 (m31Add v0.w0 v1.w0), m31Add v0.w1 (m31Add v0.w1 v1.w1),
        m31Add v0.w2 (m31Add v0.w2 v1.w2), m31Add v0.w3 (m31Add v0.w3 v1.w3),
        m31Add v1.w0 (m31Add v0.w0 v1.w0), m31Add v1.w1 (m31Add v0.w1 v1.w1),
        m31Add v1.w2 (m31Add v0.w2 v1.w2), m31Add v1.w3 (m31Add v0.w3 v1.w3)⟩) := rfl
  unfold matExternalChecked
  rw [left, right, layer]
  generalize m4 s.left = v0 at *
  generalize m4 s.right = v1 at *
  dsimp only [Option.bind_eq_bind, Option.bind_some]
  refine sum_step (by omega) fun sigma0 e0 l0 r0 => ?_
  refine sum_step (by omega) fun s0 e1 l1 r1 => ?_
  refine sum_step (by omega) fun s4 e2 l2 r2 => ?_
  refine sum_step (by omega) fun sigma1 e3 l3 r3 => ?_
  refine sum_step (by omega) fun s1 e4 l4 r4 => ?_
  refine sum_step (by omega) fun s5 e5 l5 r5 => ?_
  refine sum_step (by omega) fun sigma2 e6 l6 r6 => ?_
  refine sum_step (by omega) fun s2 e7 l7 r7 => ?_
  refine sum_step (by omega) fun s6 e8 l8 r8 => ?_
  refine sum_step (by omega) fun sigma3 e9 l9 r9 => ?_
  refine sum_step (by omega) fun s3 e10 l10 r10 => ?_
  refine sum_step (by omega) fun s7 e11 l11 r11 => ?_
  rw [← e0, ← e1, ← e2, ← e3, ← e4, ← e5, ← e6, ← e7, ← e8, ← e9, ← e10, ← e11]
  refine ⟨rfl, ⟨?_, ?_, ?_, ?_, ?_, ?_, ?_, ?_⟩, ?_⟩
  case refine_9 =>
    have leftWords : mix4 (s.map fun word : ℕ => (word : M31)).left = residues v0 :=
      leftMixed.symm
    have rightWords : mix4 (s.map fun word : ℕ => (word : M31)).right = residues v1 :=
      rightMixed.symm
    unfold external
    rw [leftWords, rightWords]
    ext <;>
      simp only [State.map, residues, Quad.map, r0, r1, r2, r3, r4, r5, r6, r7, r8, r9, r10,
        r11] <;> ring
  all_goals
    dsimp only
    omega

theorem matExternalChecked_map (state : State M31) :
    matExternalChecked (state : State ℕ) = some ((external state).map ZMod.val) := by
  have below (value : M31) : value.val < 2 ^ 40 := (val_lt_P value).trans_le (by decide)
  rw [← matExternal_map]
  exact (matExternalChecked_eq ⟨below _, below _, below _, below _, below _, below _, below _,
    below _⟩).1

theorem matInternalChecked_map (state : State M31) :
    matInternalChecked (state : State ℕ) = some ((internal state).map ZMod.val) := by
  have zero : (0 : ℕ) = (0 : M31).val := rfl
  rw [← matInternal_map]
  simp only [matInternalChecked, matInternal, State.toList, State.map, zero, List.foldlM_cons,
    List.foldlM_nil, m31AddChecked_val, m31Add_val, addTimesChecked_val, Option.pure_def,
    Option.bind_eq_bind, Option.bind_some]

/-- A loop whose turns all succeed. -/
theorem forCells_eq {α : Type*} {f : α → Option ℕ} {g : α → ℕ} {s : State α}
    (each : s.All fun cell => f cell = some (g cell)) : forCells f s = some (s.map g) := by
  rcases each with ⟨h0, h1, h2, h3, h4, h5, h6, h7⟩
  simp only [forCells, h0, h1, h2, h3, h4, h5, h6, h7, Option.bind_eq_bind, Option.bind_some]
  rfl

/-- A loop that succeeds has succeeded in every turn. -/
theorem forCells_isSome {α : Type*} {f : α → Option ℕ} {s : State α} {t : State ℕ}
    (looped : forCells f s = some t) : s.All fun cell => (f cell).isSome := by
  simp only [forCells, Option.bind_eq_bind, Option.bind_eq_some_iff] at looped
  rcases looped with ⟨_, h0, _, h1, _, h2, _, h3, _, h4, _, h5, _, h6, _, h7, -⟩
  simp only [State.All, h0, h1, h2, h3, h4, h5, h6, h7, Option.isSome_some, and_self]

theorem externalRoundChecked_map (state : State M31) (r : ℕ) :
    externalRoundChecked (state : State ℕ) r =
      some (fullRound (State.tabulate constant (8 * r)) state : State M31) := by
  have added : forCells (fun cell : ℕ × ℕ => m31AddChecked cell.1 cell.2)
        (State.zipWith Prod.mk (state.map ZMod.val) (State.tabulate roundConstant (8 * r))) =
      some ((State.zipWith (· + ·) state (State.tabulate constant (8 * r))).map ZMod.val) := by
    simp only [forCells, State.zipWith, State.map, State.tabulate, ← val_constant,
      m31AddChecked_val, Option.bind_eq_bind, Option.bind_some]
  have powers (cells : State M31) :
      forCells sboxChecked (cells.map ZMod.val) = some ((cells.map power5).map ZMod.val) := by
    simp only [forCells, State.map, sboxChecked_val, Option.bind_eq_bind, Option.bind_some]
  simp only [externalRoundChecked, added, powers, Option.bind_eq_bind, Option.bind_some,
    matExternalChecked_map]
  rfl

theorem internalRoundChecked_map (state : State M31) (j : ℕ) :
    internalRoundChecked (state : State ℕ) j =
      some (partialRound (constant (64 + j)) state : State M31) := by
  have added : m31AddChecked (state.map ZMod.val).s0 (roundConstant (64 + j)) =
      some (state.s0 + constant (64 + j)).val := by
    rw [← val_constant]
    exact m31AddChecked_val _ _
  have cells : ({ state.map ZMod.val with s0 := (power5 (state.s0 + constant (64 + j))).val } :
      State ℕ) = ({ state with s0 := power5 (state.s0 + constant (64 + j)) } : State M31).map
        ZMod.val := rfl
  simp only [internalRoundChecked, added, sboxChecked_val, Option.bind_eq_bind, Option.bind_some,
    cells, matInternalChecked_map]
  rfl

/-- Rounds that succeed on canonical words make up a loop that does. -/
theorem foldlM_map {checkedRound : State ℕ → ℕ → Option (State ℕ)}
    {plainRound : State ℕ → ℕ → State ℕ} {fieldRound : ℕ → State M31 → State M31}
    (checkedStep : ∀ state r, checkedRound (State.map ZMod.val state) r =
      some (State.map ZMod.val (fieldRound r state)))
    (plainStep : ∀ state r, plainRound (State.map ZMod.val state) r =
      State.map ZMod.val (fieldRound r state)) (rounds : List ℕ) (state : State M31) :
    rounds.foldlM checkedRound (state : State ℕ) =
      some (rounds.foldl plainRound (state : State ℕ)) := by
  induction rounds generalizing state with
  | nil => rfl
  | cons r rounds ih =>
      rw [List.foldlM_cons, List.foldl_cons, checkedStep, plainStep]
      exact ih (fieldRound r state)

/-- The permutation from its second round on. -/
def laterRoundsChecked (s : State ℕ) : Option (State ℕ) := do
  let first ← [1, 2, 3].foldlM externalRoundChecked s
  let middle ← (List.range 14).foldlM internalRoundChecked first
  [4, 5, 6, 7].foldlM externalRoundChecked middle

theorem permuteT8Checked_eq (s : State ℕ) :
    permuteT8Checked s = (do
      let mixed ← matExternalChecked s
      let first ← externalRoundChecked mixed 0
      laterRoundsChecked first) := by
  have rounds : List.range 4 = [0, 1, 2, 3] := rfl
  simp only [permuteT8Checked, laterRoundsChecked, rounds, List.foldlM_cons, bind_assoc]

theorem laterRoundsChecked_map (state : State M31) :
    laterRoundsChecked (roundsFrom constant state 1 : State M31) =
      some (permute constant state : State M31) := by
  have first : [1, 2, 3].foldl externalRound (roundsFrom constant state 1 : State M31) =
      (roundsFrom constant state 4 : State M31) := by
    have all := firstRounds_map state (le_refl 4)
    have one := firstRounds_map state (show 1 ≤ 4 by omega)
    rw [show List.range 4 = 0 :: [1, 2, 3] from rfl, List.foldl_cons] at all
    rw [show List.range 1 = [0] from rfl, List.foldl_cons, List.foldl_nil] at one
    rw [one] at all
    exact all
  have outer := foldlM_map externalRoundChecked_map externalRound_map
  have inner := foldlM_map internalRoundChecked_map internalRound_map
  rw [laterRoundsChecked, outer, first, Option.bind_eq_bind, Option.bind_some, inner,
    middleRounds_map state le_rfl, Option.bind_eq_bind, Option.bind_some, outer, lastRounds_map]
  rfl

end Rounds

/-! ## The first S-box layer -/

/-- A product that succeeds has the residue of the product. -/
theorem m31MulChecked_residue {a b c : ℕ} (multiplied : m31MulChecked a b = some c) :
    (c : M31) = a * b := by
  by_cases small : a * b < u64Modulus
  case neg =>
    rw [m31MulChecked, checked, if_neg small] at multiplied
    cases multiplied
  case pos =>
    rw [m31MulChecked_eq small] at multiplied
    cases multiplied
    have low : a * b &&& P = a * b % 2 ^ 31 := Nat.and_two_pow_sub_one_eq_mod (a * b) 31
    have high : (a * b) >>> 31 = a * b / 2 ^ 31 := Nat.shiftRight_eq_div_pow (a * b) 31
    have halves : a * b = (a * b &&& P) + (a * b) >>> 31 + P * ((a * b) >>> 31) := by
      rw [low, high]
      simp only [P]
      omega
    have folded : (((a * b &&& P) + (a * b) >>> 31 : ℕ) : M31) = a * b := by
      have cast := congrArg (Nat.cast : ℕ → M31) halves
      rw [Nat.cast_add _ (P * _), Nat.cast_mul P, CharP.cast_eq_zero M31 P, zero_mul,
        add_zero, Nat.cast_mul] at cast
      exact cast.symm
    unfold m31Mul
    rw [Nat.mod_eq_of_lt small]
    dsimp only
    split
    case isTrue large => rw [cast_sub_P large, folded]
    case isFalse => exact folded

theorem sboxChecked_residue {x y : ℕ} (powered : sboxChecked x = some y) :
    (y : M31) = power5 (x : M31) := by
  unfold sboxChecked at powered
  rcases Option.bind_eq_some_iff.mp powered with ⟨x2, square, powered⟩
  rcases Option.bind_eq_some_iff.mp powered with ⟨x4, fourth, fifth⟩
  rw [m31MulChecked_residue fifth, m31MulChecked_residue fourth, m31MulChecked_residue square]
  unfold power5
  ring

/-- The S-box does not overflow on the cell and returns a reduced word. -/
def sboxReduces (x : ℕ) : Bool := (sboxChecked x).any (· < P)

/-- The S-box overflows on the cell. -/
def sboxOverflows (x : ℕ) : Bool := (sboxChecked x).isNone

theorem sboxChecked_of_reduces {x : ℕ} (reduces : sboxReduces x = true) :
    sboxChecked x = some (power5 (x : M31)).val := by
  unfold sboxReduces at reduces
  cases powered : sboxChecked x with
  | none =>
      rw [powered] at reduces
      cases reduces
  | some y =>
      have canonical : y < P := by simpa [powered] using reduces
      rw [← sboxChecked_residue powered, ZMod.val_natCast, Nat.mod_eq_of_lt canonical]

/-- Canonical cells come out reduced. -/
theorem sboxReduces_of_canonical {x : ℕ} (canonical : Canonical x) : sboxReduces x = true := by
  have own : ((x : ℕ) : M31).val = x := by rw [ZMod.val_natCast, Nat.mod_eq_of_lt canonical]
  have powered := sboxChecked_val (x : M31)
  rw [own] at powered
  simpa [sboxReduces, powered] using val_lt_P (power5 (x : M31))

/-- What enters the first S-box layer: the external matrix and the first eight
constants on unreduced words. -/
def firstCells (s : State ℕ) : State ℕ :=
  State.zipWith m31Add (matExternal s) (State.tabulate roundConstant 0)

theorem m31AddChecked_constant {word : ℕ} (fits : word < 2 ^ 46) (index : ℕ) :
    m31AddChecked word (roundConstant index) = some (m31Add word (roundConstant index)) ∧
      ((m31Add word (roundConstant index) : ℕ) : M31) = word + constant index := by
  have bounded : roundConstant index < P := roundConstant_canonical index
  have room : word + roundConstant index < 2 ^ 60 := by
    simp only [P] at bounded
    omega
  rw [← bind_pure (m31AddChecked word (roundConstant index))]
  apply sum_step room
  rintro s rfl - residue
  exact ⟨rfl, residue⟩

theorem forCells_add {s : State ℕ} (small : s.All (· < 2 ^ 46)) (start : ℕ) :
    forCells (fun cell : ℕ × ℕ => m31AddChecked cell.1 cell.2)
        (State.zipWith Prod.mk s (State.tabulate roundConstant start)) =
      some (State.zipWith m31Add s (State.tabulate roundConstant start)) ∧
    (State.zipWith m31Add s (State.tabulate roundConstant start)).map
        (fun word : ℕ => (word : M31)) =
      State.zipWith (· + ·) (s.map fun word : ℕ => (word : M31))
        (State.tabulate constant start) := by
  rcases small with ⟨h0, h1, h2, h3, h4, h5, h6, h7⟩
  constructor
  · simp only [forCells, State.zipWith, State.tabulate, m31AddChecked_constant h0,
      m31AddChecked_constant h1, m31AddChecked_constant h2, m31AddChecked_constant h3,
      m31AddChecked_constant h4, m31AddChecked_constant h5, m31AddChecked_constant h6,
      m31AddChecked_constant h7, Option.bind_eq_bind, Option.bind_some]
  · simp only [State.map, State.zipWith, State.tabulate, m31AddChecked_constant h0,
      m31AddChecked_constant h1, m31AddChecked_constant h2, m31AddChecked_constant h3,
      m31AddChecked_constant h4, m31AddChecked_constant h5, m31AddChecked_constant h6,
      m31AddChecked_constant h7]

theorem small_of_words {s : State ℕ} (small : s.All (· < 2 ^ 32)) : s.All (· < 2 ^ 40) := by
  rcases small with ⟨h0, h1, h2, h3, h4, h5, h6, h7⟩
  exact ⟨by omega, by omega, by omega, by omega, by omega, by omega, by omega, by omega⟩

theorem externalRoundChecked_first {cells sums : State ℕ}
    (added : forCells (fun cell : ℕ × ℕ => m31AddChecked cell.1 cell.2)
      (State.zipWith Prod.mk cells (State.tabulate roundConstant 0)) = some sums) :
    externalRoundChecked cells 0 = (forCells sboxChecked sums).bind matExternalChecked := by
  rw [externalRoundChecked, Nat.mul_zero, added]
  rfl

/-- The permutation up to its first S-box layer, for words of 32 bits. -/
theorem permuteT8Checked_first {s : State ℕ} (small : s.All (· < 2 ^ 32)) :
    permuteT8Checked s =
      (forCells sboxChecked (firstCells s)).bind fun powers =>
        (matExternalChecked powers).bind laterRoundsChecked := by
  rcases matExternalChecked_eq (small_of_words small) with ⟨mixed, bounded, -⟩
  have first := externalRoundChecked_first (forCells_add bounded 0).1
  rw [permuteT8Checked_eq, mixed, Option.bind_eq_bind, Option.bind_some, first]
  exact Option.bind_assoc _ _ _

/-- When the first S-box layer reduces every cell, the permutation is that of
the residues. -/
theorem permuteT8Checked_of_reduces {s : State ℕ} (small : s.All (· < 2 ^ 32))
    (reduces : (firstCells s).All fun cell => sboxReduces cell = true) :
    permuteT8Checked s =
      some ((permute constant (s.map fun word : ℕ => (word : M31))).map ZMod.val) := by
  rw [permuteT8Checked_first small]
  rcases matExternalChecked_eq (small_of_words small) with ⟨-, bounded, residue⟩
  have cells : (firstCells s).map (fun word : ℕ => (word : M31)) =
      State.zipWith (· + ·) (external (s.map fun word : ℕ => (word : M31)))
        (State.tabulate constant 0) := by
    rw [← residue]
    exact (forCells_add bounded 0).2
  have powers : forCells sboxChecked (firstCells s) =
      some (((State.zipWith (· + ·) (external (s.map fun word : ℕ => (word : M31)))
        (State.tabulate constant 0)).map power5).map ZMod.val) := by
    rw [← cells]
    rcases reduces with ⟨r0, r1, r2, r3, r4, r5, r6, r7⟩
    exact forCells_eq (g := fun cell : ℕ => (power5 (cell : M31)).val)
      ⟨sboxChecked_of_reduces r0, sboxChecked_of_reduces r1, sboxChecked_of_reduces r2,
        sboxChecked_of_reduces r3, sboxChecked_of_reduces r4, sboxChecked_of_reduces r5,
        sboxChecked_of_reduces r6, sboxChecked_of_reduces r7⟩
  rw [powers, Option.bind_some, matExternalChecked_map, Option.bind_some]
  exact laterRoundsChecked_map (s.map fun word : ℕ => (word : M31))

/-- When a cell overflows in the first S-box layer, the call aborts. -/
theorem permuteT8Checked_of_overflows {s : State ℕ} (small : s.All (· < 2 ^ 32))
    (overflows : ¬ (firstCells s).All fun cell => sboxOverflows cell = false) :
    permuteT8Checked s = none := by
  rw [permuteT8Checked_first small]
  cases looped : forCells sboxChecked (firstCells s) with
  | none => rfl
  | some powers =>
      exfalso
      apply overflows
      rcases forCells_isSome looped with ⟨h0, h1, h2, h3, h4, h5, h6, h7⟩
      have present {x : ℕ} (found : (sboxChecked x).isSome = true) : sboxOverflows x = false := by
        simpa [sboxOverflows] using found
      exact ⟨present h0, present h1, present h2, present h3, present h4, present h5, present h6,
        present h7⟩

/-! ## Nodes -/

theorem p2t8NodeWords_small (node : Bytes32) : (p2t8NodeWords node).All (· < 2 ^ 32) := by
  have bounded (value : ℕ) : value % 2 ^ 32 < 2 ^ 32 := Nat.mod_lt value (by decide)
  exact ⟨bounded _, bounded _, bounded _, bounded _⟩

/-- The cells of the first S-box layer when two nodes are hashed. -/
def pairCells (children : Bytes32 × Bytes32) : List ℕ :=
  (firstCells (State.ofQuads (p2t8NodeWords children.1) (p2t8NodeWords children.2))).toList

theorem all_iff_toList {p : ℕ → Prop} {s : State ℕ} : s.All p ↔ ∀ cell ∈ s.toList, p cell := by
  simp [State.toList, State.All]

theorem pairWords_small (left right : Bytes32) :
    (State.ofQuads (p2t8NodeWords left) (p2t8NodeWords right)).All (· < 2 ^ 32) := by
  rcases p2t8NodeWords_small left with ⟨l0, l1, l2, l3⟩
  rcases p2t8NodeWords_small right with ⟨r0, r1, r2, r3⟩
  exact ⟨l0, l1, l2, l3, r0, r1, r2, r3⟩

/-- Where the first layer reduces every cell, the checked hash is the hash over
the field. -/
theorem hashPairP2T8Checked_of_reduces {left right : Bytes32}
    (reduces : ∀ cell ∈ pairCells (left, right), sboxReduces cell = true) :
    hashPairP2T8Checked left right = some (fieldPair left right) := by
  have permuted := permuteT8Checked_of_reduces (pairWords_small left right) (all_iff_toList.mpr reduces)
  have paired : (State.ofQuads (p2t8NodeWords left) (p2t8NodeWords right)).map
        (fun word : ℕ => (word : M31)) =
      State.ofQuads (residues (p2t8NodeWords left)) (residues (p2t8NodeWords right)) :=
    State.map_ofQuads _ _ _
  rw [paired] at permuted
  rw [hashPairP2T8Checked, compressT8Checked, permuted]
  simp only [Option.bind_eq_bind, Option.bind_some, State.map_left]
  rfl

/-- Where a cell overflows, the hash aborts. -/
theorem hashPairP2T8Checked_of_overflows {left right : Bytes32} {cell : ℕ}
    (member : cell ∈ pairCells (left, right)) (overflows : sboxOverflows cell = true) :
    hashPairP2T8Checked left right = none := by
  have aborted := permuteT8Checked_of_overflows (pairWords_small left right) (by
    intro none
    have each := all_iff_toList.mp none cell member
    rw [each] at overflows
    cases overflows)
  rw [hashPairP2T8Checked, compressT8Checked, aborted]
  rfl

/-- Nodes of canonical words come out reduced. -/
theorem pairCells_reduce {left right : Bytes32} (leftCanonical : (p2t8NodeWords left).All Canonical)
    (rightCanonical : (p2t8NodeWords right).All Canonical) :
    ∀ cell ∈ pairCells (left, right), sboxReduces cell = true := by
  have own {quad : Quad ℕ} (canonical : quad.All Canonical) : quad = words (residues quad) := by
    rw [words_residues, norm4_eq_self canonical]
  have paired : State.ofQuads (p2t8NodeWords left) (p2t8NodeWords right) =
      (State.ofQuads (residues (p2t8NodeWords left)) (residues (p2t8NodeWords right))).map
        ZMod.val := by
    rw [State.map_ofQuads]
    exact congrArg₂ State.ofQuads (own leftCanonical) (own rightCanonical)
  have cells : firstCells (State.ofQuads (p2t8NodeWords left) (p2t8NodeWords right)) =
      (State.zipWith (· + ·) (external (State.ofQuads (residues (p2t8NodeWords left))
        (residues (p2t8NodeWords right)))) (State.tabulate constant 0)).map ZMod.val := by
    rw [firstCells, paired, matExternal_map]
    ext <;> simp only [State.zipWith, State.tabulate, State.map, ← val_constant, m31Add_val]
  unfold pairCells
  rw [cells]
  have reduced (value : M31) : sboxReduces value.val = true :=
    sboxReduces_of_canonical (val_lt_P value)
  exact all_iff_toList.mp ⟨reduced _, reduced _, reduced _, reduced _, reduced _, reduced _,
    reduced _, reduced _⟩

/-! ## Paths -/

/-- The checked climb along a path whose hashes are those of the field. -/
theorem foldlM_eq_pathRoot {leaf : Bytes32} {sibs : List Bytes32} {bits : List Bool}
    (reduces : ∀ children ∈ Merkle.operands fieldPair leaf sibs bits,
      ∀ cell ∈ pairCells children, sboxReduces cell = true) :
    (sibs.zip bits).foldlM
      (fun cur step =>
        if step.2 then hashPairP2T8Checked step.1 cur else hashPairP2T8Checked cur step.1) leaf =
      some (Merkle.pathRoot fieldPair leaf sibs bits) := by
  induction sibs generalizing leaf bits with
  | nil => simp
  | cons sib sibs ih =>
      cases bits with
      | nil => rfl
      | cons bit bits =>
          simp only [Merkle.operands, List.mem_cons, forall_eq_or_imp] at reduces
          rcases reduces with ⟨first, later⟩
          rw [List.zip_cons_cons, List.foldlM_cons, Merkle.pathRoot_cons, ← ih later]
          cases bit with
          | false =>
              have hashed := hashPairP2T8Checked_of_reduces first
              simp only [Bool.false_eq_true, if_false, hashed, Option.bind_eq_bind,
                Option.bind_some]
          | true =>
              have hashed := hashPairP2T8Checked_of_reduces first
              simp only [if_true, hashed, Option.bind_eq_bind, Option.bind_some]

/-- A cell that overflows after hashes that do not aborts the climb. -/
theorem foldlM_eq_none {leaf : Bytes32} {sibs : List Bytes32} {bits : List Bool}
    {before after : List (Bytes32 × Bytes32)} {children : Bytes32 × Bytes32}
    (hashed : Merkle.operands fieldPair leaf sibs bits = before ++ children :: after)
    (reduces : ∀ earlier ∈ before, ∀ cell ∈ pairCells earlier, sboxReduces cell = true)
    {cell : ℕ} (member : cell ∈ pairCells children) (overflows : sboxOverflows cell = true) :
    (sibs.zip bits).foldlM
      (fun cur step =>
        if step.2 then hashPairP2T8Checked step.1 cur else hashPairP2T8Checked cur step.1) leaf =
      none := by
  induction sibs generalizing leaf bits before with
  | nil => simp [Merkle.operands] at hashed
  | cons sib sibs ih =>
      cases bits with
      | nil => simp [Merkle.operands] at hashed
      | cons bit bits =>
          rw [List.zip_cons_cons, List.foldlM_cons]
          rw [Merkle.operands] at hashed
          cases before with
          | nil =>
              rcases List.cons.inj hashed with ⟨here, -⟩
              have aborted := hashPairP2T8Checked_of_overflows member overflows
              rw [← here] at aborted
              cases bit <;> exact congrArg (· >>= _) aborted
          | cons first before =>
              rcases List.cons.inj hashed with ⟨here, rest⟩
              have fine := hashPairP2T8Checked_of_reduces (reduces first List.mem_cons_self)
              have later := ih rest
                (fun earlier inside => reduces earlier (List.mem_cons_of_mem _ inside))
              rw [← here] at fine
              cases bit with
              | false =>
                  simp only [Bool.false_eq_true, if_false] at fine later ⊢
                  rw [fine]
                  exact later
              | true =>
                  simp only [if_true] at fine later ⊢
                  rw [fine]
                  exact later

end Stwo
end QLSA
