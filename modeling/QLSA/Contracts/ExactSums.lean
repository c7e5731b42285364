import QLSA.Contracts.LazyReduction
import QLSA.Hash.Poseidon2

namespace QLSA
namespace Contracts
namespace Verifier

open Mersenne Hash
open Stwo (constant roundConstant)

/-!
# No sum of the permutation wraps

The permutation once more, with sums and shifts that have no result when they
reach `2^256`.  On words below `2^32` every one of them has its result, so the
unchecked sums are sums of natural numbers throughout.  The sponge of the
contracts absorbs without reducing and the prover's with, which makes no
difference behind the next permutation.
-/

/-- A sum that does not wrap. -/
def exactAdd (a b : ℕ) : Option ℕ := if a + b < uintModulus then some (a + b) else none

/-- A shift that does not lose bits. -/
def exactShift (a n : ℕ) : Option ℕ := if a <<< n < uintModulus then some (a <<< n) else none

/-- Cell by cell, where every cell has a result. -/
def zipExact (f : ℕ → ℕ → Option ℕ) (first second : State ℕ) : Option (State ℕ) := do
  let s0 ← f first.s0 second.s0
  let s1 ← f first.s1 second.s1
  let s2 ← f first.s2 second.s2
  let s3 ← f first.s3 second.s3
  let s4 ← f first.s4 second.s4
  let s5 ← f first.s5 second.s5
  let s6 ← f first.s6 second.s6
  let s7 ← f first.s7 second.s7
  return ⟨s0, s1, s2, s3, s4, s5, s6, s7⟩

def m4Exact (a : Quad ℕ) : Option (Quad ℕ) := do
  let t0 ← exactAdd a.w0 a.w1
  let t1 ← exactAdd a.w2 a.w3
  let twice1 ← exactAdd a.w1 a.w1
  let t2 ← exactAdd twice1 t1
  let twice3 ← exactAdd a.w3 a.w3
  let t3 ← exactAdd twice3 t0
  let four1 ← exactShift t1 2
  let t4 ← exactAdd four1 t3
  let four0 ← exactShift t0 2
  let t5 ← exactAdd four0 t2
  let o0 ← exactAdd t3 t5
  let o2 ← exactAdd t2 t4
  return ⟨o0, t5, o2, t4⟩

def matEExact (s : State ℕ) : Option (State ℕ) := do
  let a ← m4Exact s.left
  let b ← m4Exact s.right
  let g0 ← exactAdd a.w0 b.w0
  let g1 ← exactAdd a.w1 b.w1
  let g2 ← exactAdd a.w2 b.w2
  let g3 ← exactAdd a.w3 b.w3
  zipExact exactAdd (State.ofQuads a b) ⟨g0, g1, g2, g3, g0, g1, g2, g3⟩

def matIExact (s : State ℕ) : Option (State ℕ) := do
  let sum ← exactAdd s.s0 s.s1
  let sum ← exactAdd sum s.s2
  let sum ← exactAdd sum s.s3
  let sum ← exactAdd sum s.s4
  let sum ← exactAdd sum s.s5
  let sum ← exactAdd sum s.s6
  let sum ← exactAdd sum s.s7
  zipExact exactAdd ⟨sum, sum, sum, sum, sum, sum, sum, sum⟩
    ⟨s.s0 % P, 2 * s.s1 % P, 3 * s.s2 % P, 4 * s.s3 % P, 5 * s.s4 % P, 6 * s.s5 % P,
      7 * s.s6 % P, 8 * s.s7 % P⟩

def extRoundExact (s c : State ℕ) : Option (State ℕ) := do
  let added ← zipExact exactAdd s c
  matEExact (added.map sbox)

def intRoundExact (s : State ℕ) (c0 : ℕ) : Option (State ℕ) := do
  let added ← exactAdd s.s0 c0
  matIExact { s with s0 := sbox added }

def permute8Exact (s : State ℕ) : Option (State ℕ) := do
  let s ← matEExact s
  let s ← [0, 8, 16, 24].foldlM
    (fun s index => extRoundExact s (State.tabulate roundConstant index)) s
  let s ← (List.range 14).foldlM (fun s index => intRoundExact s (roundConstant (64 + index))) s
  let s ← [32, 40, 48, 56].foldlM
    (fun s index => extRoundExact s (State.tabulate roundConstant index)) s
  return s.map (· % P)

theorem exactAdd_eq {a b : ℕ} (small : a + b < uintModulus) : exactAdd a b = some (a + b) :=
  if_pos small

theorem exactShift_eq {a n : ℕ} (small : a <<< n < uintModulus) :
    exactShift a n = some (a <<< n) :=
  if_pos small

theorem m4Exact_eq {a : Quad ℕ} (small : a.All (· < 2 ^ 250)) : m4Exact a = some (m4 a) := by
  rw [m4_eq small]
  rcases small with ⟨first, second, third, fourth⟩
  have shift (t : ℕ) (room : t < 2 ^ 252) : exactShift t 2 = some (4 * t) := by
    have value : t <<< 2 = 4 * t := by
      rw [Nat.shiftLeft_eq]
      omega
    rw [exactShift_eq (by rw [value, uintModulus]; omega), value]
  have sum (x y : ℕ) (room : x + y < 2 ^ 256) : exactAdd x y = some (x + y) := exactAdd_eq room
  simp only [m4Exact, Option.bind_eq_bind]
  rw [sum a.w0 _ (by omega), Option.bind_some, sum a.w2 _ (by omega), Option.bind_some,
    sum a.w1 _ (by omega), Option.bind_some, sum _ _ (by omega), Option.bind_some,
    sum a.w3 _ (by omega), Option.bind_some, sum _ _ (by omega), Option.bind_some,
    shift _ (by omega), Option.bind_some, sum _ _ (by omega), Option.bind_some,
    shift _ (by omega), Option.bind_some, sum _ _ (by omega), Option.bind_some,
    sum _ _ (by omega), Option.bind_some, sum _ _ (by omega), Option.bind_some]
  congr 1
  ext <;> simp only [mix4] <;> ring

/-- A looser bound on the cells. -/
theorem Tracks.widen {size larger : ℕ} {s : State ℕ} {v : State M31} (tracks : Tracks size s v)
    (more : size ≤ larger) : Tracks larger s v := by
  have wide : 2 ^ size ≤ 2 ^ larger := Nat.pow_le_pow_right (by omega) more
  rcases tracks with ⟨⟨h0, h1, h2, h3, h4, h5, h6, h7⟩, residue⟩
  exact ⟨⟨h0.trans_le wide, h1.trans_le wide, h2.trans_le wide, h3.trans_le wide,
    h4.trans_le wide, h5.trans_le wide, h6.trans_le wide, h7.trans_le wide⟩, residue⟩

theorem zipExact_eq {first second : State ℕ} (left : first.All (· < 2 ^ 255))
    (right : second.All (· < 2 ^ 255)) :
    zipExact exactAdd first second = some (State.zipWith uncheckedAdd first second) := by
  rcases left with ⟨l0, l1, l2, l3, l4, l5, l6, l7⟩
  rcases right with ⟨r0, r1, r2, r3, r4, r5, r6, r7⟩
  have sum {x y : ℕ} (small : x < 2 ^ 255) (other : y < 2 ^ 255) :
      exactAdd x y = some (uncheckedAdd x y) := by
    have room : x + y < uintModulus := by
      simp only [uintModulus]
      omega
    rw [exactAdd_eq room, uncheckedAdd_eq room]
  simp only [zipExact, Option.bind_eq_bind]
  rw [sum l0 r0, Option.bind_some, sum l1 r1, Option.bind_some, sum l2 r2, Option.bind_some,
    sum l3 r3, Option.bind_some, sum l4 r4, Option.bind_some, sum l5 r5, Option.bind_some,
    sum l6 r6, Option.bind_some, sum l7 r7, Option.bind_some]
  rfl

theorem matEExact_eq {s : State ℕ} (small : s.All (· < 2 ^ 240)) :
    matEExact s = some (matE s) := by
  rcases small with ⟨h0, h1, h2, h3, h4, h5, h6, h7⟩
  have wide {x : ℕ} (small : x < 2 ^ 240) : x < 2 ^ 250 := by omega
  have left : s.left.All (· < 2 ^ 250) := ⟨wide h0, wide h1, wide h2, wide h3⟩
  have right : s.right.All (· < 2 ^ 250) := ⟨wide h4, wide h5, wide h6, wide h7⟩
  have leftBound : (m4 s.left).All (· < 2 ^ 250) := by
    rw [m4_eq left]
    refine ⟨?_, ?_, ?_, ?_⟩ <;> simp only [mix4, State.left] <;> omega
  have rightBound : (m4 s.right).All (· < 2 ^ 250) := by
    rw [m4_eq right]
    refine ⟨?_, ?_, ?_, ?_⟩ <;> simp only [mix4, State.right] <;> omega
  have unchecked : matE s =
      State.ofQuads
        (Quad.zipWith uncheckedAdd (m4 s.left) (Quad.zipWith uncheckedAdd (m4 s.left) (m4 s.right)))
        (Quad.zipWith uncheckedAdd (m4 s.right)
          (Quad.zipWith uncheckedAdd (m4 s.left) (m4 s.right))) := rfl
  rw [unchecked]
  simp only [matEExact, Option.bind_eq_bind, m4Exact_eq left, m4Exact_eq right, Option.bind_some]
  generalize m4 s.left = a at leftBound
  generalize m4 s.right = b at rightBound
  rcases leftBound with ⟨a0, a1, a2, a3⟩
  rcases rightBound with ⟨b0, b1, b2, b3⟩
  have sum {x y : ℕ} (first : x < 2 ^ 250) (second : y < 2 ^ 250) :
      exactAdd x y = some (uncheckedAdd x y) ∧ uncheckedAdd x y < 2 ^ 251 := by
    have room : x + y < uintModulus := by
      simp only [uintModulus]
      omega
    rw [exactAdd_eq room, uncheckedAdd_eq room]
    exact ⟨rfl, by omega⟩
  have more {x : ℕ} (small : x < 2 ^ 250) : x < 2 ^ 255 := by omega
  have most {x y : ℕ} (first : x < 2 ^ 250) (second : y < 2 ^ 250) :
      uncheckedAdd x y < 2 ^ 255 := (sum first second).2.trans (by decide)
  rw [(sum a0 b0).1, Option.bind_some, (sum a1 b1).1, Option.bind_some, (sum a2 b2).1,
    Option.bind_some, (sum a3 b3).1, Option.bind_some]
  exact zipExact_eq
    ⟨more a0, more a1, more a2, more a3, more b0, more b1, more b2, more b3⟩
    ⟨most a0 b0, most a1 b1, most a2 b2, most a3 b3, most a0 b0, most a1 b1, most a2 b2,
      most a3 b3⟩

theorem matIExact_eq {s : State ℕ} (small : s.All (· < 2 ^ 240)) :
    matIExact s = some (matI s) := by
  rcases small with ⟨h0, h1, h2, h3, h4, h5, h6, h7⟩
  have reduced (word : ℕ) : word % P < 2 ^ 255 :=
    (Nat.mod_lt word P_prime.pos).trans (by decide)
  have sum {x y size : ℕ} (room : size < 2 ^ 250) (first : x < size) (second : y < 2 ^ 240) :
      exactAdd x y = some (uncheckedAdd x y) ∧ uncheckedAdd x y < size + 2 ^ 240 := by
    have fits : x + y < uintModulus := by
      simp only [uintModulus]
      omega
    rw [exactAdd_eq fits, uncheckedAdd_eq fits]
    exact ⟨rfl, by omega⟩
  have s1 := sum (by decide) h0 h1
  have s2 := sum (by decide) s1.2 h2
  have s3 := sum (by decide) s2.2 h3
  have s4 := sum (by decide) s3.2 h4
  have s5 := sum (by decide) s4.2 h5
  have s6 := sum (by decide) s5.2 h6
  have s7 := sum (by decide) s6.2 h7
  have total := s7.2.trans (show 2 ^ 240 + 2 ^ 240 + 2 ^ 240 + 2 ^ 240 + 2 ^ 240 + 2 ^ 240 +
    2 ^ 240 + 2 ^ 240 < 2 ^ 255 by decide)
  simp only [matIExact, Option.bind_eq_bind]
  rw [s1.1, Option.bind_some, s2.1, Option.bind_some, s3.1, Option.bind_some, s4.1,
    Option.bind_some, s5.1, Option.bind_some, s6.1, Option.bind_some, s7.1, Option.bind_some]
  rw [zipExact_eq ⟨total, total, total, total, total, total, total, total⟩
    ⟨reduced _, reduced _, reduced _, reduced _, reduced _, reduced _, reduced _, reduced _⟩]
  rfl

/-! ## The permutation -/

/-- Fifth powers are below `P`, so the layer of an external round is exact. -/
theorem extRoundExact_eq {s : State ℕ} (small : s.All (· < 2 ^ 240)) (index : ℕ) :
    extRoundExact s (State.tabulate roundConstant index) =
      some (extRound s (State.tabulate roundConstant index)) := by
  have constants (i : ℕ) : roundConstant i < 2 ^ 255 :=
    (roundConstant_small i).trans (by decide)
  have wide {x : ℕ} (small : x < 2 ^ 240) : x < 2 ^ 255 := by omega
  rcases small with ⟨h0, h1, h2, h3, h4, h5, h6, h7⟩
  have added : zipExact exactAdd s (State.tabulate roundConstant index) =
      some (State.zipWith uncheckedAdd s (State.tabulate roundConstant index)) := zipExact_eq
    ⟨wide h0, wide h1, wide h2, wide h3, wide h4, wide h5, wide h6, wide h7⟩
    ⟨constants _, constants _, constants _, constants _, constants _, constants _, constants _,
      constants _⟩
  have power (word : ℕ) : sbox word < 2 ^ 240 := by
    rw [sbox_eq]
    exact (Stwo.val_lt_P _).trans (by decide)
  rw [extRoundExact, added, Option.bind_eq_bind, Option.bind_some, matEExact_eq
    ⟨power _, power _, power _, power _, power _, power _, power _, power _⟩]
  rfl

theorem intRoundExact_eq {s : State ℕ} (small : s.All (· < 2 ^ 240)) (index : ℕ) :
    intRoundExact s (roundConstant index) = some (intRound s (roundConstant index)) := by
  have power (word : ℕ) : sbox word < 2 ^ 240 := by
    rw [sbox_eq]
    exact (Stwo.val_lt_P _).trans (by decide)
  have constantSmall := roundConstant_small index
  have first := small.1
  have room : s.s0 + roundConstant index < uintModulus := by
    simp only [uintModulus]
    omega
  have layer := matIExact_eq (s := { s with s0 := sbox (s.s0 + roundConstant index) })
    ⟨power _, small.2⟩
  rw [intRoundExact, exactAdd_eq room, Option.bind_eq_bind, Option.bind_some, layer, intRound,
    uncheckedAdd_eq room]

/-- Four external rounds in a row are exact, and leave a state below `2^240`. -/
theorem extRoundsExact_eq {s : State ℕ} (small : s.All (· < 2 ^ 240)) (indices : List ℕ) :
    indices.foldlM (fun s index => extRoundExact s (State.tabulate roundConstant index)) s =
      some (indices.foldl (fun s index => extRound s (State.tabulate roundConstant index)) s) := by
  induction indices generalizing s with
  | nil => rfl
  | cons index indices ih =>
      have tracks : Tracks 240 s (s.map (fun word : ℕ => (word : M31))) := ⟨small, rfl⟩
      have after := (extRound_tracks tracks (le_refl 240) index).widen (show 37 ≤ 240 by decide)
      rw [List.foldlM_cons, List.foldl_cons, extRoundExact_eq small, Option.bind_eq_bind,
        Option.bind_some]
      exact ih after.below

/-- The internal rounds are exact while the bound grows. -/
theorem intRoundsExact_eq {s : State ℕ} {v : State M31}
    (tracks : Tracks 37 s (roundsFrom constant v 4)) {count : ℕ} (bounded : count ≤ 14) :
    (List.range count).foldlM (fun s index => intRoundExact s (roundConstant (64 + index))) s =
      some ((List.range count).foldl (fun s index => intRound s (roundConstant (64 + index))) s) := by
  induction count with
  | zero => rfl
  | succ count ih =>
      have before := (middleRounds_tracks tracks (by omega : count ≤ 14)).widen
        (show 37 + 4 * count ≤ 240 by omega)
      rw [List.range_succ, List.foldlM_append, ih (by omega), Option.bind_eq_bind,
        Option.bind_some, List.foldlM_cons, intRoundExact_eq before.below, Option.bind_eq_bind,
        Option.bind_some, List.foldl_append, List.foldl_cons, List.foldl_nil]
      rfl

/-- On words below `2^32` no sum of the permutation wraps. -/
theorem permute8Exact_eq {s : State ℕ} (small : s.All (· < 2 ^ 32)) :
    permute8Exact s = some (permute8 s) := by
  have start : Tracks 32 s (s.map (fun word : ℕ => (word : M31))) := ⟨small, rfl⟩
  have mixed := (matE_tracks start (by omega)).widen (show 32 + 6 ≤ 240 by decide)
  have first := firstRounds_tracks start
  have middle := (middleRounds_tracks first (le_refl 14)).widen (show 37 + 4 * 14 ≤ 240 by decide)
  have entered := start.widen (show 32 ≤ 240 by decide)
  simp only [permute8Exact, Option.bind_eq_bind]
  rw [matEExact_eq entered.below, Option.bind_some, extRoundsExact_eq mixed.below,
    Option.bind_some, intRoundsExact_eq first (le_refl 14), Option.bind_some,
    extRoundsExact_eq middle.below, Option.bind_some, permute8_eq]
  rfl

/-! ## The prover's permutation and sponge -/

theorem permute8_eq_permuteT8 {s : State ℕ} {v : State M31} (small : s.All (· < 2 ^ 32))
    (residue : s.map (fun word : ℕ => (word : M31)) = v) :
    permute8 s = Stwo.permuteT8 (v.map ZMod.val) := by
  rw [permute8_eq_val small, residue, Stwo.permuteT8_map]

/-- What both sponges do with a block: the contracts leave the sums unreduced. -/
theorem absorb_eq (v c : State M31) :
    permute8 (State.zipWith uncheckedAdd (v.map ZMod.val) (c.map ZMod.val)) =
      Stwo.permuteT8 (State.zipWith Stwo.m31Add (v.map ZMod.val) (c.map ZMod.val)) := by
  have sum (x y : M31) : uncheckedAdd x.val y.val = x.val + y.val ∧ x.val + y.val < 2 ^ 32 := by
    have first := Stwo.val_lt_P x
    have second := Stwo.val_lt_P y
    have small : x.val + y.val < 2 ^ 32 := by
      simp only [P] at *
      omega
    exact ⟨uncheckedAdd_eq (by simp only [uintModulus]; omega), small⟩
  have below (x y : M31) : uncheckedAdd x.val y.val < 2 ^ 32 := by
    rw [(sum x y).1]
    exact (sum x y).2
  have residue (x y : M31) : ((uncheckedAdd x.val y.val : ℕ) : M31) = x + y := by
    rw [(sum x y).1, Nat.cast_add, ZMod.natCast_zmod_val, ZMod.natCast_zmod_val]
  have reduced : State.zipWith Stwo.m31Add (v.map ZMod.val) (c.map ZMod.val) =
      (State.zipWith (· + ·) v c).map ZMod.val := by
    ext <;> exact Stwo.m31Add_val _ _
  rw [reduced]
  apply permute8_eq_permuteT8
  · exact ⟨below _ _, below _ _, below _ _, below _ _, below _ _, below _ _, below _ _, below _ _⟩
  · ext <;> exact residue _ _

theorem uncheckedAdd_zero (x : M31) : uncheckedAdd x.val 0 = x.val := by
  have small := Stwo.val_lt_P x
  exact uncheckedAdd_eq (by simp only [P, uintModulus] at *; omega)

theorem m31Add_zero (x : M31) : Stwo.m31Add x.val 0 = x.val := by
  rw [← ZMod.val_zero, Stwo.m31Add_val, add_zero]

/-- A block of at most four words and its pad. -/
theorem absorbBlock_eq (v : State M31) (v0 v1 v2 v3 pad : M31) :
    permute8 { v.map ZMod.val with
        s0 := uncheckedAdd v.s0.val v0.val, s1 := uncheckedAdd v.s1.val v1.val,
        s2 := uncheckedAdd v.s2.val v2.val, s3 := uncheckedAdd v.s3.val v3.val,
        s7 := uncheckedAdd v.s7.val pad.val } =
      Stwo.permuteT8 { v.map ZMod.val with
        s0 := Stwo.m31Add v.s0.val v0.val, s1 := Stwo.m31Add v.s1.val v1.val,
        s2 := Stwo.m31Add v.s2.val v2.val, s3 := Stwo.m31Add v.s3.val v3.val,
        s7 := Stwo.m31Add v.s7.val pad.val } := by
  have absorbed := absorb_eq v ⟨v0, v1, v2, v3, 0, 0, 0, pad⟩
  simp only [State.zipWith, State.map, ZMod.val_zero, uncheckedAdd_zero, m31Add_zero] at absorbed
  exact absorbed

/-- The prover's block over the field. -/
theorem proverBlock_eq (v : State M31) (v0 v1 v2 v3 : ℕ) :
    Stwo.absorbBlock (v.map ZMod.val) v0 v1 v2 v3 =
      (permute constant { v with
        s0 := v.s0 + v0, s1 := v.s1 + v1, s2 := v.s2 + v2, s3 := v.s3 + v3 }).map ZMod.val := by
  have sum (x : M31) (value : ℕ) : Stwo.m31Add x.val (value % P) = (x + value).val := by
    rw [← ZMod.val_natCast, Stwo.m31Add_val]
  rw [← Stwo.permuteT8_map]
  apply congrArg Stwo.permuteT8
  ext <;> simp only [State.map, sum]

theorem spongeFrom_block (s : State ℕ) (v0 v1 v2 v3 : ℕ) (rest : List ℕ) :
    spongeFrom s (v0 :: v1 :: v2 :: v3 :: rest) = spongeFrom (permute8 { s with
      s0 := uncheckedAdd s.s0 (v0 % P), s1 := uncheckedAdd s.s1 (v1 % P),
      s2 := uncheckedAdd s.s2 (v2 % P), s3 := uncheckedAdd s.s3 (v3 % P) }) rest := by
  conv_lhs => unfold spongeFrom

/-- Between two permutations both sponges hold the same canonical words. -/
theorem spongeFrom_eq (v : State M31) (values : List ℕ) :
    spongeFrom (v.map ZMod.val) values = Stwo.spongeFrom (v.map ZMod.val) values := by
  have word (value : ℕ) : (value : M31).val = value % P := ZMod.val_natCast P value
  have three : (3 : M31).val = 3 := rfl
  have two : (2 : M31).val = 2 := rfl
  have one : (1 : M31).val = 1 := rfl
  match values with
  | [] => rfl
  | [v0] =>
      have block := absorbBlock_eq v v0 0 0 0 3
      simp only [State.map, word, three, ZMod.val_zero, uncheckedAdd_zero, m31Add_zero] at block
      exact block
  | [v0, v1] =>
      have block := absorbBlock_eq v v0 v1 0 0 2
      simp only [State.map, word, two, ZMod.val_zero, uncheckedAdd_zero, m31Add_zero] at block
      exact block
  | [v0, v1, v2] =>
      have block := absorbBlock_eq v v0 v1 v2 0 1
      simp only [State.map, word, one, ZMod.val_zero, uncheckedAdd_zero, m31Add_zero] at block
      exact block
  | v0 :: v1 :: v2 :: v3 :: rest =>
      have block := absorbBlock_eq v v0 v1 v2 v3 0
      simp only [State.map, word, ZMod.val_zero, uncheckedAdd_zero, m31Add_zero] at block
      have absorbed := proverBlock_eq v v0 v1 v2 v3
      rw [spongeFrom_block, Stwo.spongeFrom_block, absorbed, ← spongeFrom_eq, ← absorbed]
      exact congrArg (spongeFrom · rest) block

/-- The contracts' sponge yields the first four cells of the prover's. -/
theorem sponge4_eq (values : List ℕ) : sponge4 values = (Stwo.spongeT8 values).left := by
  have start : (⟨0, 0, 0, 0, 0, 0, 0, 0⟩ : State ℕ) =
      (⟨0, 0, 0, 0, 0, 0, 0, 0⟩ : State M31).map ZMod.val := rfl
  rw [sponge4, Stwo.spongeT8, start, spongeFrom_eq]

/-- On words below `2^32` no sum of the permutation wraps and the result is the
canonical form of the permutation over the field; on canonical words it is the
prover's; both sponges agree on every list of words. -/
theorem lazy_reduction_exact :
    (∀ s : State ℕ, s.All (· < 2 ^ 32) →
      permute8Exact s = some (permute8 s) ∧
      ∀ i, (permute8 s).vector i =
        (poseidon2 constant (fun j => ((s.vector j : ℕ) : M31)) i).val) ∧
    (∀ s : State ℕ, s.All Canonical → Stwo.permuteT8 s = permute8 s) ∧
    ∀ values : List ℕ, sponge4 values = (Stwo.spongeT8 values).left := by
  refine ⟨?exact, ?canonical, sponge4_eq⟩
  case exact =>
    intro s small
    refine ⟨permute8Exact_eq small, ?_⟩
    intro i
    have residues : (s.map (fun word : ℕ => (word : M31))).vector =
        fun j => ((s.vector j : ℕ) : M31) := by
      funext j
      exact State.vector_map _ s j
    rw [permute8_eq_val small, State.vector_map, vector_permute, residues]
  case canonical =>
    intro s canonical
    have below {word : ℕ} (small : Canonical word) : word < 2 ^ 32 :=
      small.trans_le (by decide)
    rcases canonical with ⟨h0, h1, h2, h3, h4, h5, h6, h7⟩
    have same : (s.map (fun word : ℕ => (word : M31))).map ZMod.val = s := by
      ext <;> simp only [State.map, ZMod.val_natCast] <;> apply Nat.mod_eq_of_lt <;> assumption
    have agreed := permute8_eq_permuteT8 (s := s)
      ⟨below h0, below h1, below h2, below h3, below h4, below h5, below h6, below h7⟩ rfl
    rw [agreed, same]

/-- The largest words of 32 bits, and the words one to eight. -/
theorem lazy_reduction_exact_largest :
    permute8Exact ⟨4294967295, 4294967295, 4294967295, 4294967295, 4294967295, 4294967295,
        4294967295, 4294967295⟩ =
      some (permute8 ⟨4294967295, 4294967295, 4294967295, 4294967295, 4294967295, 4294967295,
        4294967295, 4294967295⟩) ∧
    Stwo.permuteT8 ⟨1, 2, 3, 4, 5, 6, 7, 8⟩ = permute8 ⟨1, 2, 3, 4, 5, 6, 7, 8⟩ ∧
    sponge4 [4294967295, 0, 2147483647, 1, 2147483648] =
      (Stwo.spongeT8 [4294967295, 0, 2147483647, 1, 2147483648]).left :=
  ⟨(lazy_reduction_exact.1 ⟨4294967295, 4294967295, 4294967295, 4294967295, 4294967295,
      4294967295, 4294967295, 4294967295⟩ (by unfold State.All; decide)).1,
    lazy_reduction_exact.2.1 ⟨1, 2, 3, 4, 5, 6, 7, 8⟩
      (by unfold State.All Canonical; decide),
    lazy_reduction_exact.2.2 [4294967295, 0, 2147483647, 1, 2147483648]⟩

end Verifier
end Contracts
end QLSA
