import QLSA.Stwo.FieldHash

namespace QLSA
namespace Chain

open Mersenne Stwo

/-!
# The width-two sponge

Leaves are absorbed one at a time into the first of two state words, each
followed by eight full rounds.  The words are `u64` values; the same rounds over
the field are the arithmetic that a circuit checks.
-/

def nRounds : ℕ := 8

/-- Round constants of the two state words, round by round. -/
def RC : List (ℕ × ℕ) := [
  (1779033703, 996650630), (1013904242, 625997115), (1359893119, 453339277),
  (528734635, 1541459225), (1116352408, 1899447441), (901839824, 1773525926),
  (961987163, 1508970993), (306152101, 723279574)]

/-- Constants of a round. -/
def roundConstants (r : ℕ) : ℕ × ℕ := RC.getD r (0, 0)

def mds (s : ℕ × ℕ) : ℕ × ℕ :=
  let threeA := m31Add (m31Add s.1 s.1) s.1
  let threeB := m31Add (m31Add s.2 s.2) s.2
  (m31Add threeA s.2, m31Add s.1 threeB)

def round (s : ℕ × ℕ) (rc : ℕ × ℕ) : ℕ × ℕ :=
  mds (sbox (m31Add s.1 rc.1), sbox (m31Add s.2 rc.2))

def permute (s : ℕ × ℕ) : ℕ × ℕ :=
  (List.range nRounds).foldl (fun s r => round s (roundConstants r)) s

/-- Absorb one leaf. -/
def absorb (state : ℕ × ℕ) (leaf : ℕ) : ℕ × ℕ :=
  permute (m31Add state.1 (leaf % P), state.2)

def poseidon2Chain (leaves : List ℕ) : ℕ × ℕ := leaves.foldl absorb (0, 0)

/-! ## Over the field -/

/-- A round on field elements. -/
def fieldRound (s : M31 × M31) (r : ℕ) : M31 × M31 :=
  let x := s.1 + (roundConstants r).1
  let y := s.2 + (roundConstants r).2
  (3 * x ^ 5 + y ^ 5, x ^ 5 + 3 * y ^ 5)

/-- The first rounds of a permutation. -/
def fieldRounds (count : ℕ) (s : M31 × M31) : M31 × M31 :=
  (List.range count).foldl fieldRound s

@[simp] theorem fieldRounds_zero (s : M31 × M31) : fieldRounds 0 s = s := rfl

theorem fieldRounds_succ (count : ℕ) (s : M31 × M31) :
    fieldRounds (count + 1) s = fieldRound (fieldRounds count s) count := by
  simp [fieldRounds, List.range_succ]

/-- Absorb one field element. -/
def fieldAbsorb (state : M31 × M31) (leaf : M31) : M31 × M31 :=
  fieldRounds nRounds (state.1 + leaf, state.2)

/-- The sponge on field elements. -/
def fieldChain (leaves : List M31) : M31 × M31 := leaves.foldl fieldAbsorb (0, 0)

theorem fieldChain_concat (leaves : List M31) (leaf : M31) :
    fieldChain (leaves ++ [leaf]) =
      fieldRounds nRounds ((fieldChain leaves).1 + leaf, (fieldChain leaves).2) := by
  simp only [fieldChain, List.foldl_append, List.foldl_cons, List.foldl_nil, fieldAbsorb]

/-- Canonical words of two field elements. -/
def pairVal (s : M31 × M31) : ℕ × ℕ := (s.1.val, s.2.val)

theorem roundConstants_canonical {r : ℕ} (inside : r < nRounds) :
    Canonical (roundConstants r).1 ∧ Canonical (roundConstants r).2 := by
  have all : ∀ r < nRounds, (roundConstants r).1 < P ∧ (roundConstants r).2 < P := by decide
  exact all r inside

theorem mds_val (a b : M31) : mds (a.val, b.val) = pairVal (3 * a + b, a + 3 * b) := by
  have tripleA : a + a + a = 3 * a := by ring
  have tripleB : b + b + b = 3 * b := by ring
  simp only [mds, m31Add_val, pairVal, tripleA, tripleB]

theorem round_val {r : ℕ} (inside : r < nRounds) (s : M31 × M31) :
    round (pairVal s) (roundConstants r) = pairVal (fieldRound s r) := by
  rcases roundConstants_canonical inside with ⟨first, second⟩
  have firstVal : (roundConstants r).1 = ((roundConstants r).1 : M31).val :=
    (ZMod.val_cast_of_lt first).symm
  have secondVal : (roundConstants r).2 = ((roundConstants r).2 : M31).val :=
    (ZMod.val_cast_of_lt second).symm
  unfold round
  rw [firstVal, secondVal]
  dsimp only [pairVal]
  rw [m31Add_val, m31Add_val, sbox_val, sbox_val, mds_val]
  rfl

theorem rounds_val {count : ℕ} (inside : count ≤ nRounds) (s : M31 × M31) :
    (List.range count).foldl (fun s r => round s (roundConstants r)) (pairVal s) =
      pairVal (fieldRounds count s) := by
  induction count with
  | zero => rfl
  | succ count ih =>
      rw [List.range_succ, List.foldl_append, ih (by omega), fieldRounds_succ]
      exact round_val (by omega) _

theorem permute_val (s : M31 × M31) : permute (pairVal s) = pairVal (fieldRounds nRounds s) :=
  rounds_val le_rfl s

theorem absorb_val (state : M31 × M31) (leaf : ℕ) :
    absorb (pairVal state) leaf = pairVal (fieldAbsorb state leaf) := by
  have residue : leaf % P = (leaf : M31).val := (ZMod.val_natCast P leaf).symm
  have added : m31Add state.1.val (leaf : M31).val = (state.1 + leaf).val := m31Add_val _ _
  have permuted := permute_val (state.1 + leaf, state.2)
  simp only [pairVal] at permuted
  simp only [absorb, pairVal, residue, added, permuted, fieldAbsorb]

theorem foldl_absorb_val (leaves : List ℕ) (state : M31 × M31) :
    leaves.foldl absorb (pairVal state) =
      pairVal ((leaves.map fun leaf : ℕ => (leaf : M31)).foldl fieldAbsorb state) := by
  induction leaves generalizing state with
  | nil => rfl
  | cons leaf rest ih =>
      rw [List.foldl_cons, absorb_val, ih, List.map_cons, List.foldl_cons]

/-- On words the sponge computes the canonical words of the sponge over the field. -/
theorem poseidon2Chain_eq (leaves : List ℕ) :
    poseidon2Chain leaves = pairVal (fieldChain (leaves.map fun leaf : ℕ => (leaf : M31))) := by
  have start : ((0, 0) : ℕ × ℕ) = pairVal (0, 0) := by
    simp only [pairVal, ZMod.val_zero]
  unfold poseidon2Chain fieldChain
  rw [start, foldl_absorb_val]

end Chain
end QLSA
