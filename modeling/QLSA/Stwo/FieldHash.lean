import QLSA.Merkle.Path
import QLSA.Stwo.Poseidon2

namespace QLSA
namespace Stwo

open Mersenne Hash

/-!
# Machine words against the field

On canonical representatives each routine of the prover's hash is the field
operation it stands for.  The statements take the representatives of field
elements as inputs: no side condition has to be carried through the rounds,
and a result is canonical because it is a representative again.
-/

section Words

variable (a b : M31)

theorem val_lt_P : a.val < P := ZMod.val_lt a

theorem m31Add_val : m31Add a.val b.val = (a + b).val := by
  have first := val_lt_P a
  have second := val_lt_P b
  have small : (a.val + b.val) % u64Modulus = a.val + b.val := by
    apply Nat.mod_eq_of_lt
    simp only [P, u64Modulus] at *
    omega
  rw [ZMod.val_add]
  unfold m31Add
  rw [small]
  dsimp only
  split
  case isTrue large =>
    rw [Nat.mod_eq_sub_mod large, Nat.mod_eq_of_lt]
    omega
  case isFalse below => rw [Nat.mod_eq_of_lt (by omega)]

theorem m31Sub_val : m31Sub a.val b.val = (a - b).val := by
  have first := val_lt_P a
  have second := val_lt_P b
  unfold m31Sub
  split
  case isTrue ordered => rw [ZMod.val_sub ordered]
  case isFalse below =>
    have wrapped : (a.val + P - b.val) % u64Modulus = a.val + P - b.val := by
      apply Nat.mod_eq_of_lt
      simp only [P, u64Modulus] at *
      omega
    rw [wrapped]
    apply Canonical.eq_of_cast (by omega) (val_lt_P _)
    rw [Nat.cast_sub (by omega), Nat.cast_add, CharP.cast_eq_zero M31 P]
    simp

/-- The two halves of a product are added and reduced once: the high half of a
product of canonical words is small enough. -/
theorem m31Mul_val : m31Mul a.val b.val = (a * b).val := by
  have first := val_lt_P a
  have second := val_lt_P b
  have bounded : a.val * b.val ≤ (P - 1) * (P - 1) :=
    Nat.mul_le_mul (by omega) (by omega)
  have reduced : (a * b).val = a.val * b.val % P := ZMod.val_mul a b
  rw [reduced]
  unfold m31Mul
  generalize a.val * b.val = product at bounded
  have small : product % u64Modulus = product := by
    apply Nat.mod_eq_of_lt
    simp only [P, u64Modulus] at *
    omega
  dsimp only
  have low : product &&& P = product % 2 ^ 31 := Nat.and_two_pow_sub_one_eq_mod product 31
  have high : product >>> 31 = product / 2 ^ 31 := Nat.shiftRight_eq_div_pow product 31
  rw [small, low, high]
  split
  case isTrue large =>
    simp only [P] at *
    omega
  case isFalse below =>
    simp only [P] at *
    omega

theorem sbox_val : sbox a.val = (power5 a).val := by
  simp only [sbox, m31Mul_val, power5]
  congr 1
  ring

theorem addTimes_val (count : ℕ) (acc : M31) :
    addTimes a.val count acc.val = (acc + count * a).val := by
  induction count generalizing acc with
  | zero => simp [addTimes]
  | succ count ih =>
      rw [addTimes, m31Add_val, ih]
      congr 1
      push_cast
      ring

end Words

/-- The canonical words of four residues. -/
def words (quad : Quad M31) : Quad ℕ := quad.map ZMod.val

/-- The residues of four words. -/
def residues (quad : Quad ℕ) : Quad M31 := quad.map (fun word : ℕ => (word : M31))

/-- The four words modulo `P`. -/
def norm4 (v : Quad ℕ) : Quad ℕ := v.map (· % P)

@[simp] theorem residues_words (quad : Quad M31) : residues (words quad) = quad := by
  ext <;> simp [residues, words]

@[simp] theorem words_residues (quad : Quad ℕ) : words (residues quad) = norm4 quad := by
  ext <;> simp [residues, words, norm4, ZMod.val_natCast]

@[simp] theorem residues_norm4 (quad : Quad ℕ) : residues (norm4 quad) = residues quad := by
  rw [← words_residues, residues_words]

theorem words_canonical (quad : Quad M31) : (words quad).All Canonical :=
  ⟨val_lt_P _, val_lt_P _, val_lt_P _, val_lt_P _⟩

theorem norm4_eq_self {quad : Quad ℕ} (canonical : quad.All Canonical) : norm4 quad = quad := by
  rcases canonical with ⟨first, second, third, fourth⟩
  ext
  · exact Nat.mod_eq_of_lt first
  · exact Nat.mod_eq_of_lt second
  · exact Nat.mod_eq_of_lt third
  · exact Nat.mod_eq_of_lt fourth

section Rounds

/-- The representatives of a state. -/
local instance : Coe (State M31) (State ℕ) := ⟨State.map ZMod.val⟩

theorem quad_val {x0 x1 x2 x3 : M31} {quad : Quad M31} (same : ⟨x0, x1, x2, x3⟩ = quad) :
    (⟨x0.val, x1.val, x2.val, x3.val⟩ : Quad ℕ) = quad.map ZMod.val := by
  subst same
  rfl

theorem state_val {x0 x1 x2 x3 x4 x5 x6 x7 : M31} {state : State M31}
    (same : ⟨x0, x1, x2, x3, x4, x5, x6, x7⟩ = state) :
    (⟨x0.val, x1.val, x2.val, x3.val, x4.val, x5.val, x6.val, x7.val⟩ : State ℕ) =
      state.map ZMod.val := by
  subst same
  rfl

/-- The constants of the table as residues. -/
def constant (index : ℕ) : M31 := roundConstant index

theorem roundConstant_canonical (index : ℕ) : Canonical (roundConstant index) := by
  have entries : ∀ word ∈ kRC, Canonical word := by decide
  unfold roundConstant
  rw [List.getD_eq_getElem?_getD]
  cases found : kRC[index]? with
  | none => exact P_prime.pos
  | some word => exact entries word (List.mem_of_getElem? found)

theorem val_constant (index : ℕ) : (constant index).val = roundConstant index := by
  rw [constant, ZMod.val_natCast, Nat.mod_eq_of_lt (roundConstant_canonical index)]

theorem m4_words (quad : Quad M31) : m4 (words quad) = words (mix4 quad) := by
  simp only [m4, words, Quad.map, m31Add_val]
  apply quad_val
  ext <;> simp only [mix4] <;> ring

theorem matExternal_map (state : State M31) :
    matExternal (state : State ℕ) = (external state : State M31) := by
  have left : m4 (state.map ZMod.val).left = words (mix4 state.left) := m4_words state.left
  have right : m4 (state.map ZMod.val).right = words (mix4 state.right) := m4_words state.right
  unfold matExternal
  rw [left, right]
  simp only [words, Quad.map, m31Add_val]
  apply state_val
  ext <;> simp only [external] <;> ring

theorem matInternal_map (state : State M31) :
    matInternal (state : State ℕ) = (internal state : State M31) := by
  have zero : (0 : ℕ) = (0 : M31).val := rfl
  simp only [matInternal, State.map, zero, m31Add_val, addTimes_val]
  apply state_val
  ext <;> simp only [internal, total] <;> push_cast <;> ring

theorem externalRound_map (state : State M31) (index : ℕ) :
    externalRound (state : State ℕ) index =
      (fullRound (State.tabulate constant (8 * index)) state : State M31) := by
  have cells : (State.zipWith m31Add (state.map ZMod.val)
        (State.tabulate roundConstant (8 * index))).map sbox =
      ((State.zipWith (· + ·) state (State.tabulate constant (8 * index))).map power5).map
        ZMod.val := by
    ext <;> simp only [State.map, State.zipWith, State.tabulate, ← val_constant, m31Add_val,
      sbox_val]
  rw [externalRound, cells, matExternal_map]
  rfl

theorem internalRound_map (state : State M31) (index : ℕ) :
    internalRound (state : State ℕ) index =
      (partialRound (constant (64 + index)) state : State M31) := by
  have cells : ({ state.map ZMod.val with
        s0 := sbox (m31Add (state.map ZMod.val).s0 (roundConstant (64 + index))) } : State ℕ) =
      ({ state with s0 := power5 (state.s0 + constant (64 + index)) } : State M31).map
        ZMod.val := by
    ext <;> simp only [State.map, ← val_constant, m31Add_val, sbox_val]
  rw [internalRound, cells, matInternal_map]
  rfl

/-- The first external rounds are rounds of the schedule. -/
theorem firstRounds_map (state : State M31) {count : ℕ} (bounded : count ≤ 4) :
    (List.range count).foldl externalRound (external state : State M31) =
      (roundsFrom constant state count : State M31) := by
  induction count with
  | zero => rfl
  | succ count ih =>
      have scheduled : count < 4 := by omega
      rw [List.range_succ, List.foldl_append, ih (by omega), List.foldl_cons, List.foldl_nil,
        externalRound_map, roundsFrom, Hash.round, if_pos scheduled]

/-- So are the internal rounds after them. -/
theorem middleRounds_map (state : State M31) {count : ℕ} (bounded : count ≤ 14) :
    (List.range count).foldl internalRound (roundsFrom constant state 4 : State M31) =
      (roundsFrom constant state (4 + count) : State M31) := by
  induction count with
  | zero => rfl
  | succ count ih =>
      have scheduled : ¬ 4 + count < 4 ∧ 4 + count < 18 ∧ 4 + count - 4 = count := by omega
      rw [List.range_succ, List.foldl_append, ih (by omega), List.foldl_cons, List.foldl_nil,
        internalRound_map, ← Nat.add_assoc, roundsFrom, Hash.round,
        if_neg scheduled.1, if_pos scheduled.2.1, scheduled.2.2]

/-- And the last external rounds, whose constants follow those of the first. -/
theorem lastRounds_map (state : State M31) :
    [4, 5, 6, 7].foldl externalRound (roundsFrom constant state 18 : State M31) =
      (roundsFrom constant state 22 : State M31) := by
  simp only [List.foldl_cons, List.foldl_nil, externalRound_map]
  rfl

theorem permuteT8_map (state : State M31) :
    permuteT8 (state : State ℕ) = (permute constant state : State M31) := by
  unfold permuteT8
  dsimp only
  rw [matExternal_map, firstRounds_map state le_rfl, middleRounds_map state le_rfl,
    lastRounds_map]
  rfl

theorem compressT8_words (left right : Quad M31) :
    compressT8 (words left) (words right) = words (compress constant left right) := by
  have paired : State.ofQuads (words left) (words right) =
      (State.ofQuads left right).map ZMod.val := rfl
  rw [compressT8, paired, permuteT8_map]
  exact State.map_left ZMod.val (permute constant (State.ofQuads left right))

/-- Compression of canonical words, through their residues. -/
theorem compressT8_of_canonical {left right : Quad ℕ} (leftCanonical : left.All Canonical)
    (rightCanonical : right.All Canonical) :
    compressT8 left right = words (compress constant (residues left) (residues right)) := by
  rw [← compressT8_words, words_residues, words_residues, norm4_eq_self leftCanonical,
    norm4_eq_self rightCanonical]

theorem compressT8_canonical {left right : Quad ℕ} (first : left.All Canonical)
    (second : right.All Canonical) : (compressT8 left right).All Canonical := by
  rw [compressT8_of_canonical first second]
  exact words_canonical _

end Rounds

/-- The hash of two nodes over the field, for nodes of any bytes. -/
def fieldPair (left right : Bytes32) : Bytes32 :=
  p2t8Pack (words (compress constant (residues (p2t8NodeWords left))
    (residues (p2t8NodeWords right))))

theorem words_small (quad : Quad M31) : (words quad).All (· < 2 ^ 32) := by
  have below (value : M31) : value.val < 2 ^ 32 := (val_lt_P value).trans_le (by decide)
  exact ⟨below _, below _, below _, below _⟩

/-- Its words are reduced. -/
theorem p2t8NodeWords_fieldPair (left right : Bytes32) :
    (p2t8NodeWords (fieldPair left right)).All Canonical := by
  unfold fieldPair
  rw [p2t8NodeWords_p2t8Pack (words_small _)]
  exact words_canonical _

/-- The root reached by hashing a leaf up through siblings, lowest bit first. -/
def merklePathRootT8 (leaf : Quad ℕ) (sibs : List (Quad ℕ)) (bits : List Bool) : Quad ℕ :=
  Merkle.pathRoot compressT8 (norm4 leaf) (sibs.map norm4) bits

/-- A path of words climbs as the path of their residues. -/
theorem merklePathRootT8_eq_words (leaf : Quad ℕ) (sibs : List (Quad ℕ)) (bits : List Bool) :
    merklePathRootT8 leaf sibs bits =
      words (Merkle.pathRoot (compress constant) (residues leaf) (sibs.map residues) bits) := by
  unfold merklePathRootT8
  rw [← words_residues]
  generalize residues leaf = cur
  induction sibs generalizing cur bits with
  | nil => simp
  | cons sib sibs ih =>
      cases bits with
      | nil => rfl
      | cons bit bits =>
          rw [List.map_cons, List.map_cons, Merkle.pathRoot_cons, Merkle.pathRoot_cons, ← ih,
            ← words_residues sib, compressT8_words, compressT8_words]
          cases bit <;> rfl

end Stwo
end QLSA
