import QLSA.Hash.Sixteen
import QLSA.Stwo.FieldHash

namespace QLSA
namespace Stwo

open Mersenne Hash Matrix

/-!
# The width-sixteen permutation of the prover

Layers, rounds and sponge over sixteen machine words.  On the representatives
of field elements they are those of the permutation over vectors, so nothing
has to be assumed of intermediate words.
-/

def kRCT16 : List ℕ := [
  365599062, 1474211102, 866857359, 1423631047, 1080988498, 133537033, 584306829, 983816483,
  53274617, 2099993270, 418238203, 1016757858, 533087121, 2018829672, 1860145444, 621119419,
  1687563266, 1247989187, 1034463516, 771059345, 1188773184, 1786717504, 1847351358, 1045643482,
  84722888, 1442236670, 1666688001, 1388157994, 1820176570, 906346470, 596545147, 1521621262,
  1342830669, 968102142, 472008583, 293487879, 1464743836, 965541824, 703259861, 1074971177,
  917288885, 1389101982, 2076140359, 1456667583, 532329430, 1278318691, 19391291, 1805123501,
  1132599018, 645006741, 414583027, 1941539328, 1369383844, 1750671612, 226015350, 1399468129,
  2028042418, 1575978581, 625970722, 502417283, 2044239643, 1237037626, 732696444, 719958381,
  1855405411, 462239201, 1417199097, 1351623844, 1214852644, 1566313405, 823484549, 2038808093,
  59462027, 432410698, 874996701, 585332624, 1347599388, 78793182, 582527429, 655061291,
  1038936950, 1444363910, 1185681344, 1635162776, 329635127, 287626090, 199315315, 1669214696,
  405993748, 320581075, 928589308, 1765854973, 486377493, 910646161, 1585806573, 453018086,
  1478416193, 1829395642, 598689827, 935118246, 1336932458, 2147459779, 1014410290, 259794828,
  2129660335, 718753456, 2050072474, 254931253, 1080146963, 540554929, 506016650, 156055845,
  995169882, 969325822, 232662561, 741460961, 1179400441, 1084927451, 319071821, 409684197,
  1232688177, 561313406, 1656574415, 11718892, 216659011, 952908412, 1380765329, 1521369242,
  907051838, 1803830187, 47658112, 824628367, 713854912, 1489720594, 1695950527, 898987930,
  1276627535, 990382248, 258309882, 108327904, 771518169, 645853941]

def roundConstantT16 (index : ℕ) : ℕ := kRCT16.getD index 0

/-- External linear layer over four blocks. -/
def matExternalT16 (s : Cells ℕ) : Cells ℕ :=
  let v := fun b : Fin 4 => m4 (block s.get b)
  let sigma := Quad.zipWith m31Add (Quad.zipWith m31Add (v 0) (v 1))
    (Quad.zipWith m31Add (v 2) (v 3))
  Cells.of fun i => m31Add ((v (blockOf i)).cell (columnOf i)) (sigma.cell (columnOf i))

/-- Internal linear layer; cell `i` is added `i + 1` times to the sum. -/
def matInternalT16 (s : Cells ℕ) : Cells ℕ :=
  let sum := (List.finRange 16).foldl (fun sum i => m31Add sum (s.get i)) 0
  Cells.of fun i => addTimes (s.get i) (i.val + 1) sum

def externalRoundT16 (s : Cells ℕ) (r : ℕ) : Cells ℕ :=
  let s := Cells.of fun i => m31Add (s.get i) (roundConstantT16 (16 * r + i.val))
  let s := Cells.of fun i => sbox (s.get i)
  matExternalT16 s

def internalRoundT16 (s : Cells ℕ) (j : ℕ) : Cells ℕ :=
  let s0 := m31Add (s.get 0) (roundConstantT16 (16 * 8 + j))
  matInternalT16 (Cells.of (Function.update s.get 0 (sbox s0)))

def permuteT16 (s : Cells ℕ) : Cells ℕ :=
  let s := matExternalT16 s
  let s := [0, 1, 2, 3].foldl externalRoundT16 s
  let s := (List.range 14).foldl internalRoundT16 s
  [4, 5, 6, 7].foldl externalRoundT16 s

/-- Add at most eight values into the first cells. -/
def absorbT16 (s : Cells ℕ) (values : List ℕ) : Cells ℕ :=
  Cells.of fun i =>
    match values[i.val]? with
    | some value => m31Add (s.get i) (value % P)
    | none => s.get i

/-- Full blocks of eight, then a shorter last block whose missing length goes
into the last capacity cell. -/
def spongeT16 (values : List ℕ) : Cells ℕ :=
  let full := values.length / 8
  let state := (List.range full).foldl
    (fun state c => permuteT16 (absorbT16 state ((values.drop (8 * c)).take 8))) (Cells.of fun _ => 0)
  let rem := values.drop (8 * full)
  if rem.isEmpty then state
  else
    let state := absorbT16 state rem
    permuteT16 (Cells.of (Function.update state.get 15 (m31Add (state.get 15) (8 - rem.length))))

/-- Left cells, then right cells. -/
def joinCells (left right : Fin 8 → ℕ) : Cells ℕ :=
  Cells.of fun i => if h : i.val < 8 then left ⟨i, h⟩ else right ⟨i - 8, by omega⟩

def compressT16 (left right : Fin 8 → ℕ) : Fin 8 → ℕ := fun i =>
  (permuteT16 (joinCells left right)).get (i.castLE Machine.eight_le_sixteen)

/-! ## Representatives -/

/-- The constants of the table as residues. -/
def constantT16 (index : ℕ) : M31 := roundConstantT16 index

theorem roundConstantT16_canonical (index : ℕ) : Canonical (roundConstantT16 index) := by
  have entries : ∀ word ∈ kRCT16, Canonical word := by decide +kernel
  unfold roundConstantT16
  rw [List.getD_eq_getElem?_getD]
  cases found : kRCT16[index]? with
  | none => exact P_prime.pos
  | some word => exact entries word (List.mem_of_getElem? found)

theorem val_constantT16 (index : ℕ) : (constantT16 index).val = roundConstantT16 index := by
  rw [constantT16, ZMod.val_natCast, Nat.mod_eq_of_lt (roundConstantT16_canonical index)]

/-- The representatives of a vector. -/
def lift (v : Fin 16 → M31) : Cells ℕ := Cells.of fun i => (v i).val

@[simp] theorem lift_get (v : Fin 16 → M31) (i : Fin 16) : (lift v).get i = (v i).val :=
  Cells.get_of _ i

theorem lift_eq {s : Cells ℕ} {v : Fin 16 → M31} (cells : ∀ i, s.get i = (v i).val) :
    s = lift v :=
  Cells.ext fun i => (cells i).trans (lift_get v i).symm

variable (v : Fin 16 → M31)

/-- One cell replaced by a representative. -/
theorem update_lift (i : Fin 16) (x : M31) :
    Cells.of (Function.update (lift v).get i x.val) = lift (Function.update v i x) := by
  apply lift_eq
  intro j
  rw [Cells.get_of, Function.update_apply, Function.update_apply]
  split
  case isTrue => rfl
  case isFalse => exact lift_get v j

theorem m4_block (b k : Fin 4) :
    (m4 (block (lift v).get b)).cell k = ((mix4 (block v b)).cell k).val := by
  have cells : block (lift v).get b = words (block v b) := by
    ext <;> exact lift_get v _
  rw [cells, m4_words, words, Quad.cell_map]

theorem matExternalT16_lift : matExternalT16 (lift v) = lift (externalMatrix 16 *ᵥ v) := by
  apply lift_eq
  intro i
  rw [matExternalT16, Cells.get_of]
  simp only [Quad.cell_zipWith, m4_block, m31Add_val]
  rw [externalMatrix_mulVec, externalBlocks, Fin.sum_univ_four]
  congr 1
  ring

theorem foldl_m31Add (list : List (Fin 16)) (acc : M31) :
    list.foldl (fun sum i => m31Add sum ((lift v).get i)) acc.val =
      (acc + (list.map v).sum).val := by
  induction list generalizing acc with
  | nil => simp
  | cons first rest ih =>
      rw [List.foldl_cons, lift_get, m31Add_val, ih, List.map_cons, List.sum_cons, add_assoc]

theorem matInternalT16_lift : matInternalT16 (lift v) = lift (internalMatrix 16 *ᵥ v) := by
  have sum : (List.finRange 16).foldl (fun sum i => m31Add sum ((lift v).get i)) 0 =
      (∑ j, v j).val := by
    have zero : (0 : ℕ) = (0 : M31).val := rfl
    rw [zero, foldl_m31Add, zero_add, ← Fin.sum_univ_def]
  apply lift_eq
  intro i
  rw [matInternalT16, Cells.get_of, sum, lift_get, addTimes_val, internalMatrix_mulVec,
    internalCells]
  push_cast
  rfl

theorem externalRoundT16_lift (r : ℕ) :
    externalRoundT16 (lift v) r = lift (externalStep constantT16 v r) := by
  have cells : (Cells.of fun i => sbox ((Cells.of fun i : Fin 16 =>
        m31Add ((lift v).get i) (roundConstantT16 (16 * r + i.val))).get i)) =
      lift fun i => (v i + constantT16 (16 * r + i.val)) ^ 5 := by
    apply lift_eq
    intro i
    rw [Cells.get_of, Cells.get_of, lift_get, ← val_constantT16, m31Add_val, sbox_val, power5]
  rw [externalRoundT16, cells, matExternalT16_lift, externalStep]

theorem internalRoundT16_lift (j : ℕ) :
    internalRoundT16 (lift v) j = lift (internalStep constantT16 v j) := by
  have first : sbox (m31Add ((lift v).get 0) (roundConstantT16 (16 * 8 + j))) =
      ((v 0 + constantT16 (16 * 8 + j)) ^ 5).val := by
    rw [lift_get, ← val_constantT16, m31Add_val, sbox_val, power5]
  rw [internalRoundT16, first, update_lift, matInternalT16_lift, internalStep]

/-- Rounds in a row. -/
theorem foldl_lift {f : Cells ℕ → ℕ → Cells ℕ} {g : (Fin 16 → M31) → ℕ → Fin 16 → M31}
    (step : ∀ v r, f (lift v) r = lift (g v r)) (rounds : List ℕ) :
    rounds.foldl f (lift v) = lift (rounds.foldl g v) := by
  induction rounds generalizing v with
  | nil => rfl
  | cons r rounds ih => rw [List.foldl_cons, step, ih, List.foldl_cons]

theorem permuteT16_lift : permuteT16 (lift v) = lift (poseidon2 constantT16 v) := by
  rw [permuteT16, matExternalT16_lift, foldl_lift _ externalRoundT16_lift, foldl_lift _ internalRoundT16_lift,
    foldl_lift _ externalRoundT16_lift, poseidon2]

/-! ## Blocks -/

/-- Values added into the first cells. -/
def absorbed (values : List ℕ) : Fin 16 → M31 := fun i =>
  match values[i.val]? with
  | some value => v i + value
  | none => v i

theorem absorbT16_lift (values : List ℕ) :
    absorbT16 (lift v) values = lift (absorbed v values) := by
  apply lift_eq
  intro i
  rw [absorbT16, Cells.get_of, absorbed]
  cases values[i.val]? with
  | none => exact lift_get v i
  | some value =>
      dsimp only
      rw [lift_get, ← ZMod.val_natCast, m31Add_val]

theorem val_missing {missing : ℕ} (few : missing ≤ 8) : (missing : M31).val = missing := by
  rw [ZMod.val_natCast, Nat.mod_eq_of_lt]
  simp only [P]
  omega

/-- The pad of a block of fewer than eight words. -/
theorem m31Add_pad {missing : ℕ} (few : missing ≤ 8) :
    Cells.of (Function.update (lift v).get 15 (m31Add ((lift v).get 15) missing)) =
      lift (Function.update v 15 (v 15 + missing)) := by
  have sum := m31Add_val (v 15) missing
  rw [val_missing few] at sum
  rw [lift_get, sum]
  exact update_lift v 15 _

end Stwo
end QLSA
