import QLSA.Contracts.ExactSums
import QLSA.Stwo.Poseidon2T16

namespace QLSA
namespace Contracts
namespace Verifier

open Mersenne Hash Matrix
open Stwo (constantT16 roundConstantT16 lift absorbed absorbT16_lift m31Add_pad)

/-!
# The width-sixteen hash of the contracts

The state is updated in place, through constant indices, and the constants of
an external round are packed into two words.  As at width eight the layers add
without reducing.  A state tracks a vector of field elements below a power of
two: a layer multiplies by the matrix and raises the bound by seven bits or by
five, and an external round brings it back to thirty-eight.
-/

/-- The words `KErA` and `KErB`, for each round. -/
def kE : List (ℕ × ℕ) := [
  (0x15ca995657dead1e33ab318f54dae2c7406e935207f59d0922d3d08d3aa3d923,
    0x032ce7f97d2b5ab618edcefb3c9a7e621fc643917854e5686edf9124250587bb),
  (0x64962c024a62cdc33da8a91c2df56e9146db3d406a7f25406e1c583e3e5340da,
    0x050cc4c855f6c8fe6357a40152bd9c2a6c7db0ba3605bfe6238e8e7b5ab2190e),
  (0x5009f84d39b410fe1c224787117e4507574e379c398cffc029eae4d54012c229,
    0x36acb7b552cc039e7bbf634756d2fbbf1fbab3d64c3198630127e33b6b97ffad),
  (0x438216ea2672059518b608f373b98a00519f23a4685920fc0d78b876536a3061,
    0x78e178b25def8655254f8e221df2478379d89f1b49bbb23a2bac0f7c2ae9b16d),
  (0x6e973d631b8d35e15478bdf9509024a448692e245d5c0bbd311560857985be1d,
    0x038b518b19c6104a342763dd22e377905052bc1c04b249de22b8a9c5270b712b),
  (0x3deceb7656173e8646ac0fc061769a9813a5d5371124d36a0be14f73637e31e8,
    0x1832f914131badd3375925fc6940cefd1cfd881536475b915e857ced1b0081e6),
  (0x581ed7416d0a5cba23af482337bcc5a64faff86a7fffa2c33c76ac320f7c278c,
    0x7ef009af2ad74eb07a319f9a0f31f1354061bc13203836b11e29338a094d3925),
  (0x3b51165a39c6bcfe0dde26212c31cbe1464c38f940aaaddb1304a64d186b48e5,
    0x497954312174f67e62bd51cf00b2d0ec0ce9f44338cc3a7c524cce915aae409a)
]

def kI : List ℕ := [907051838, 1803830187, 47658112, 824628367, 713854912, 1489720594, 1695950527,
  898987930, 1276627535, 990382248, 258309882, 108327904, 771518169, 645853941]

/-- Constant `k` of a packed word; the first one needs no mask. -/
def maskedWord (c k : ℕ) : ℕ :=
  if k = 0 then c >>> 224 else c >>> (224 - 32 * k) &&& (2 ^ 32 - 1)

/-- Eight constants in either word. -/
def roundWord (c : ℕ × ℕ) (i : Fin 16) : ℕ :=
  if i.val < 8 then maskedWord c.1 i.val else maskedWord c.2 (i.val - 8)

def matE16 (s : Cells ℕ) : Cells ℕ :=
  let m := fun b : Fin 4 => m4 (block s.get b)
  let g := Quad.zipWith uncheckedAdd
    (Quad.zipWith uncheckedAdd (Quad.zipWith uncheckedAdd (m 0) (m 1)) (m 2)) (m 3)
  Cells.of fun i => uncheckedAdd ((m (blockOf i)).cell (columnOf i)) (g.cell (columnOf i))

def matI16 (s : Cells ℕ) : Cells ℕ :=
  let sum := (List.finRange 16).tail.foldl (fun sum i => uncheckedAdd sum (s.get i)) (s.get 0)
  Cells.of fun i => uncheckedAdd sum ((i.val + 1) * s.get i % P)

def extRound16 (s : Cells ℕ) (c : ℕ × ℕ) : Cells ℕ :=
  matE16 (Cells.of fun i => sbox (uncheckedAdd (s.get i) (roundWord c i)))

def intRound16 (s : Cells ℕ) (c0 : ℕ) : Cells ℕ :=
  matI16 (Cells.of (Function.update s.get 0 (sbox (uncheckedAdd (s.get 0) c0))))

def permute16 (s : Cells ℕ) : Cells ℕ :=
  let s := matE16 s
  let s := (kE.take 4).foldl extRound16 s
  let s := kI.foldl intRound16 s
  let s := (kE.drop 4).foldl extRound16 s
  Cells.of fun i => s.get i % P

/-- `a + b mod P` for canonical words. -/
def addM31 (a b : ℕ) : ℕ :=
  let r := uncheckedAdd a b
  if P ≤ r then r - P else r

def absorb8 (s : Cells ℕ) (values : List ℕ) : Cells ℕ :=
  Cells.of fun i =>
    match values[i.val]? with
    | some value => addM31 (s.get i) (value % P)
    | none => s.get i

/-- The state behind the last block. -/
def sponge8State (values : List ℕ) : Cells ℕ :=
  let full := values.length / 8
  let s := (List.range full).foldl
    (fun s c => permute16 (absorb8 s ((values.drop (8 * c)).take 8))) (Cells.of fun _ => 0)
  let rem := values.drop (8 * full)
  if rem.isEmpty then s
  else
    let s := absorb8 s rem
    permute16 (Cells.of (Function.update s.get 15 (addM31 (s.get 15) (8 - rem.length))))

def sponge8 (values : List ℕ) : Fin 8 → ℕ := fun k => (sponge8State values).get (k.castLE Machine.eight_le_sixteen)

def compress8 (left right : Fin 8 → ℕ) : Fin 8 → ℕ := fun k =>
  (permute16 (Stwo.joinCells left right)).get (k.castLE Machine.eight_le_sixteen)

/-! ## Exact sums -/

/-- All sixteen cells, where every one has a result. -/
def collect (cells : Fin 16 → Option ℕ) : Option (Cells ℕ) :=
  if ∀ i, (cells i).isSome then some (Cells.of fun i => (cells i).getD 0) else none

def quadExact (a b : Quad ℕ) : Option (Quad ℕ) := do
  let w0 ← exactAdd a.w0 b.w0
  let w1 ← exactAdd a.w1 b.w1
  let w2 ← exactAdd a.w2 b.w2
  let w3 ← exactAdd a.w3 b.w3
  return ⟨w0, w1, w2, w3⟩

def matE16Exact (s : Cells ℕ) : Option (Cells ℕ) := do
  let m0 ← m4Exact (block s.get 0)
  let m1 ← m4Exact (block s.get 1)
  let m2 ← m4Exact (block s.get 2)
  let m3 ← m4Exact (block s.get 3)
  let g ← quadExact m0 m1
  let g ← quadExact g m2
  let g ← quadExact g m3
  collect fun i => exactAdd ((![m0, m1, m2, m3] (blockOf i)).cell (columnOf i)) (g.cell (columnOf i))

def matI16Exact (s : Cells ℕ) : Option (Cells ℕ) := do
  let sum ← (List.finRange 16).tail.foldlM (fun sum i => exactAdd sum (s.get i)) (s.get 0)
  collect fun i => exactAdd sum ((i.val + 1) * s.get i % P)

def extRound16Exact (s : Cells ℕ) (c : ℕ × ℕ) : Option (Cells ℕ) := do
  let added ← collect fun i => exactAdd (s.get i) (roundWord c i)
  matE16Exact (Cells.of fun i => sbox (added.get i))

def intRound16Exact (s : Cells ℕ) (c0 : ℕ) : Option (Cells ℕ) := do
  let added ← exactAdd (s.get 0) c0
  matI16Exact (Cells.of (Function.update s.get 0 (sbox added)))

def permute16Exact (s : Cells ℕ) : Option (Cells ℕ) := do
  let s ← matE16Exact s
  let s ← (kE.take 4).foldlM extRound16Exact s
  let s ← kI.foldlM intRound16Exact s
  let s ← (kE.drop 4).foldlM extRound16Exact s
  return Cells.of fun i => s.get i % P

/-! ## One layer -/

theorem collect_eq {cells : Fin 16 → Option ℕ} {f : Fin 16 → ℕ} (results : ∀ i, cells i = some (f i)) :
    collect cells = some (Cells.of f) := by
  have present : ∀ i, (cells i).isSome := fun i => by rw [results i]; rfl
  have values : (fun i => (cells i).getD 0) = f := funext fun i => by rw [results i]; rfl
  rw [collect, if_pos present, values]

theorem room {a b : ℕ} (first : a < 2 ^ 250) (second : b < 2 ^ 250) : a + b < uintModulus := by
  simp only [uintModulus]
  omega

theorem mix4_cell_lt {q : Quad ℕ} {bound : ℕ} (small : q.All (· < bound)) (k : Fin 4) :
    (mix4 q).cell k < 16 * bound := by
  rcases small with ⟨first, second, third, fourth⟩
  fin_cases k <;> simp [Quad.cell, mix4] <;> omega

theorem quadExact_eq {a b : Quad ℕ} (first : ∀ k, a.cell k < 2 ^ 250)
    (second : ∀ k, b.cell k < 2 ^ 250) : quadExact a b = some (Quad.zipWith (· + ·) a b) := by
  have sum (k : Fin 4) : exactAdd (a.cell k) (b.cell k) = some (a.cell k + b.cell k) :=
    exactAdd_eq (room (first k) (second k))
  have s0 : exactAdd a.w0 b.w0 = some (a.w0 + b.w0) := sum 0
  have s1 : exactAdd a.w1 b.w1 = some (a.w1 + b.w1) := sum 1
  have s2 : exactAdd a.w2 b.w2 = some (a.w2 + b.w2) := sum 2
  have s3 : exactAdd a.w3 b.w3 = some (a.w3 + b.w3) := sum 3
  simp only [quadExact, s0, s1, s2, s3, Option.bind_eq_bind, Option.bind_some]
  rfl

section Layers

variable {s : Cells ℕ}

/-- The mixed blocks are small enough to be added up. -/
theorem mixed_lt (small : ∀ i, s.get i < 2 ^ 240) (b k : Fin 4) :
    (mix4 (block s.get b)).cell k < 2 ^ 245 := by
  have bounded := mix4_cell_lt (block_all small b) k
  omega

theorem m4_block_eq (small : ∀ i, s.get i < 2 ^ 240) (b : Fin 4) :
    m4 (block s.get b) = mix4 (block s.get b) ∧
      m4Exact (block s.get b) = some (mix4 (block s.get b)) := by
  have wide : (block s.get b).All (· < 2 ^ 250) :=
    block_all (fun i => (small i).trans (by decide)) b
  exact ⟨m4_eq wide, by rw [m4Exact_eq wide, m4_eq wide]⟩

theorem matE16_eq (small : ∀ i, s.get i < 2 ^ 240) : matE16 s = Cells.of (externalBlocks s.get) := by
  apply Cells.ext
  intro i
  have lt := fun b => mixed_lt small b (columnOf i)
  have l0 := lt 0
  have l1 := lt 1
  have l2 := lt 2
  have l3 := lt 3
  have own := lt (blockOf i)
  rw [matE16, Cells.get_of, Cells.get_of, externalBlocks, Fin.sum_univ_four]
  simp only [Quad.cell_zipWith, (m4_block_eq small _).1]
  generalize (mix4 (block s.get 0)).cell (columnOf i) = x0 at *
  generalize (mix4 (block s.get 1)).cell (columnOf i) = x1 at *
  generalize (mix4 (block s.get 2)).cell (columnOf i) = x2 at *
  generalize (mix4 (block s.get 3)).cell (columnOf i) = x3 at *
  have first : uncheckedAdd x0 x1 = x0 + x1 := uncheckedAdd_eq (room (by omega) (by omega))
  have second : uncheckedAdd (x0 + x1) x2 = x0 + x1 + x2 :=
    uncheckedAdd_eq (room (by omega) (by omega))
  have third : uncheckedAdd (x0 + x1 + x2) x3 = x0 + x1 + x2 + x3 :=
    uncheckedAdd_eq (room (by omega) (by omega))
  rw [first, second, third]
  exact uncheckedAdd_eq (room (by omega) (by omega))

theorem matE16Exact_eq (small : ∀ i, s.get i < 2 ^ 240) :
    matE16Exact s = some (Cells.of (externalBlocks s.get)) := by
  have lt (b k : Fin 4) : (mix4 (block s.get b)).cell k < 2 ^ 245 := mixed_lt small b k
  have wide (b k : Fin 4) : (mix4 (block s.get b)).cell k < 2 ^ 250 := (lt b k).trans (by decide)
  have two (k : Fin 4) : (Quad.zipWith (· + ·) (mix4 (block s.get 0)) (mix4 (block s.get 1))).cell k <
      2 ^ 246 := by
    have l0 := lt 0 k
    have l1 := lt 1 k
    rw [Quad.cell_zipWith]
    omega
  have three (k : Fin 4) : (Quad.zipWith (· + ·) (Quad.zipWith (· + ·) (mix4 (block s.get 0))
      (mix4 (block s.get 1))) (mix4 (block s.get 2))).cell k < 2 ^ 247 := by
    have l2 := lt 2 k
    have more := two k
    rw [Quad.cell_zipWith]
    omega
  simp only [matE16Exact, (m4_block_eq small _).2, Option.bind_eq_bind, Option.bind_some]
  rw [quadExact_eq (wide 0) (wide 1), Option.bind_some,
    quadExact_eq (fun k => (two k).trans (by decide)) (wide 2), Option.bind_some,
    quadExact_eq (fun k => (three k).trans (by decide)) (wide 3), Option.bind_some]
  apply collect_eq
  intro i
  have chosen : ![mix4 (block s.get 0), mix4 (block s.get 1), mix4 (block s.get 2),
      mix4 (block s.get 3)] (blockOf i) = mix4 (block s.get (blockOf i)) := by
    generalize blockOf i = b
    fin_cases b <;> rfl
  have own := lt (blockOf i) (columnOf i)
  have sum := three (columnOf i)
  have last := lt 3 (columnOf i)
  rw [chosen, externalBlocks, Fin.sum_univ_four, Quad.cell_zipWith, exactAdd_eq (room (by omega) (by
    omega)), Quad.cell_zipWith, Quad.cell_zipWith]

/-- The running sum of cells, without wrapping. -/
theorem sum_cells (small : ∀ i, s.get i < 2 ^ 240) (list : List (Fin 16)) {acc : ℕ}
    (fits : acc + list.length * 2 ^ 240 < 2 ^ 250) :
    list.foldl (fun sum i => uncheckedAdd sum (s.get i)) acc = acc + (list.map s.get).sum ∧
      list.foldlM (fun sum i => exactAdd sum (s.get i)) acc = some (acc + (list.map s.get).sum) := by
  induction list generalizing acc with
  | nil => exact ⟨rfl, rfl⟩
  | cons first rest ih =>
      have cell := small first
      rw [List.length_cons] at fits
      have within : acc + s.get first < uintModulus := room (by omega) (by omega)
      have rests := ih (show acc + s.get first + rest.length * 2 ^ 240 < 2 ^ 250 by omega)
      rw [List.foldl_cons, List.foldlM_cons, uncheckedAdd_eq within, exactAdd_eq within,
        List.map_cons, List.sum_cons, ← Nat.add_assoc]
      exact rests

/-- The internal layer over the natural numbers, its multiples reduced. -/
def internalReduced (v : Fin 16 → ℕ) : Fin 16 → ℕ := fun i => (∑ j, v j) + (i.val + 1) * v i % P

theorem total_lt {size : ℕ} (small : ∀ i, s.get i < 2 ^ size) : ∑ i, s.get i < 16 * 2 ^ size := by
  have each : ∀ i ∈ Finset.univ, s.get i ≤ 2 ^ size - 1 := fun i _ => Nat.le_sub_one_of_lt (small i)
  have total := Finset.sum_le_card_nsmul Finset.univ (fun i => s.get i) _ each
  rw [Finset.card_univ, Fintype.card_fin, smul_eq_mul] at total
  have positive := Nat.two_pow_pos size
  omega

theorem matI16_eq (small : ∀ i, s.get i < 2 ^ 240) :
    matI16 s = Cells.of (internalReduced s.get) ∧
      matI16Exact s = some (Cells.of (internalReduced s.get)) := by
  have first := small 0
  have fits : s.get 0 + (List.finRange 16).tail.length * 2 ^ 240 < 2 ^ 250 := by
    rw [List.length_tail, List.length_finRange]
    omega
  have sums := sum_cells small _ fits
  have total : s.get 0 + ((List.finRange 16).tail.map s.get).sum = ∑ i, s.get i := by
    rw [Fin.sum_univ_def]
    rfl
  have bounded := total_lt small
  rw [total] at sums
  have within (i : Fin 16) : (∑ j, s.get j) + (i.val + 1) * s.get i % P < uintModulus := by
    have sum : ∑ j, s.get j < 2 ^ 250 := bounded.trans (by decide)
    have reduced : (i.val + 1) * s.get i % P < 2 ^ 250 :=
      (Nat.mod_lt _ P_prime.pos).trans (by decide)
    exact room sum reduced
  constructor
  · rw [matI16, sums.1]
    apply Cells.ext
    intro i
    rw [Cells.get_of, Cells.get_of, uncheckedAdd_eq (within i), internalReduced]
  · rw [matI16Exact, sums.2]
    exact collect_eq fun i => exactAdd_eq (within i)

end Layers

/-! ## The rounds track the permutation -/

/-- The cells of a state lie below `2^size` and stand for given elements. -/
def Tracks16 (size : ℕ) (s : Cells ℕ) (v : Fin 16 → M31) : Prop :=
  ∀ i, s.get i < 2 ^ size ∧ ((s.get i : ℕ) : M31) = v i

section Tracking

variable {size : ℕ} {s : Cells ℕ} {v : Fin 16 → M31}

theorem Tracks16.widen {larger : ℕ} (tracks : Tracks16 size s v) (more : size ≤ larger) :
    Tracks16 larger s v := by
  intro i
  exact ⟨(tracks i).1.trans_le (Nat.pow_le_pow_right (by decide) more), (tracks i).2⟩

theorem Tracks16.small (tracks : Tracks16 size s v) (fits : size ≤ 240) (i : Fin 16) :
    s.get i < 2 ^ 240 :=
  ((tracks.widen fits) i).1

theorem matE16_tracks (tracks : Tracks16 size s v) (fits : size ≤ 240) :
    matE16Exact s = some (matE16 s) ∧ Tracks16 (size + 7) (matE16 s) (externalMatrix 16 *ᵥ v) := by
  have small := tracks.small fits
  rw [matE16Exact_eq small, matE16_eq small]
  refine ⟨rfl, ?_⟩
  intro i
  rw [Cells.get_of, externalMatrix_mulVec]
  constructor
  · have mixed (b : Fin 4) : (mix4 (block s.get b)).cell (columnOf i) < 16 * 2 ^ size :=
      mix4_cell_lt (block_all (fun j => (tracks j).1) b) _
    have own := mixed (blockOf i)
    have l0 := mixed 0
    have l1 := mixed 1
    have l2 := mixed 2
    have l3 := mixed 3
    rw [externalBlocks, Fin.sum_univ_four, pow_add]
    omega
  · have residues : v = fun j => ((s.get j : ℕ) : M31) := funext fun j => (tracks j).2.symm
    rw [residues]
    exact map_externalBlocks (Nat.castRingHom M31) s.get i

theorem matI16_tracks (tracks : Tracks16 size s v) (large : 31 ≤ size) (fits : size ≤ 240) :
    matI16Exact s = some (matI16 s) ∧ Tracks16 (size + 5) (matI16 s) (internalMatrix 16 *ᵥ v) := by
  have layer := matI16_eq (tracks.small fits)
  rw [layer.1, layer.2]
  refine ⟨rfl, ?_⟩
  intro i
  rw [Cells.get_of, internalMatrix_mulVec]
  constructor
  · have total := total_lt fun j => (tracks j).1
    have above : 2 ^ 31 ≤ 2 ^ size := Nat.pow_le_pow_right (by decide) large
    have reduced : (i.val + 1) * s.get i % P < P := Nat.mod_lt _ P_prime.pos
    have few : P < 2 ^ 31 := by decide
    rw [internalReduced, pow_add]
    omega
  · have residues : v = fun j => ((s.get j : ℕ) : M31) := funext fun j => (tracks j).2.symm
    rw [residues, internalReduced, internalCells, Nat.cast_add, Nat.cast_sum, cast_mod, Nat.cast_mul]
    push_cast
    rfl

/-- The packed constants are those of the prover's table. -/
theorem roundWord_eq : ∀ (r : Fin 8) (i : Fin 16),
    roundWord (kE.getD r.val (0, 0)) i = roundConstantT16 (16 * r.val + i.val) := by
  decide +kernel

theorem kI_eq : kI = (List.range 14).map fun j => roundConstantT16 (16 * 8 + j) := by
  decide +kernel

theorem roundConstantT16_small (index : ℕ) : roundConstantT16 index < 2 ^ 31 :=
  (Stwo.roundConstantT16_canonical index).trans_le (by decide)

theorem add_constant (tracks : Tracks16 size s v) (fits : size ≤ 240) (i : Fin 16) (index : ℕ) :
    s.get i + roundConstantT16 index < uintModulus ∧
      ((s.get i + roundConstantT16 index : ℕ) : M31) = v i + constantT16 index := by
  have cell := tracks.small fits i
  have constantSmall := roundConstantT16_small index
  refine ⟨room (by omega) (by omega), ?_⟩
  rw [Nat.cast_add, (tracks i).2]
  rfl

theorem sbox_lt (word : ℕ) : sbox word < 2 ^ 31 := by
  rw [sbox_eq]
  exact (Stwo.val_lt_P _).trans_le (by decide)

theorem extRound16_tracks (tracks : Tracks16 size s v) (fits : size ≤ 240) {r : ℕ} (early : r < 8) :
    extRound16Exact s (kE.getD r (0, 0)) = some (extRound16 s (kE.getD r (0, 0))) ∧
      Tracks16 38 (extRound16 s (kE.getD r (0, 0))) (externalStep constantT16 v r) := by
  have word (i : Fin 16) : roundWord (kE.getD r (0, 0)) i = roundConstantT16 (16 * r + i.val) :=
    roundWord_eq ⟨r, early⟩ i
  have added : (collect fun i => exactAdd (s.get i) (roundWord (kE.getD r (0, 0)) i)) =
      some (Cells.of fun i => s.get i + roundConstantT16 (16 * r + i.val)) := by
    apply collect_eq
    intro i
    rw [word, exactAdd_eq (add_constant tracks fits i _).1]
  have powers : (fun i => sbox (uncheckedAdd (s.get i) (roundWord (kE.getD r (0, 0)) i))) =
      fun i => sbox (s.get i + roundConstantT16 (16 * r + i.val)) := by
    funext i
    rw [word, uncheckedAdd_eq (add_constant tracks fits i _).1]
  have entered : Tracks16 31 (Cells.of fun i => sbox (s.get i + roundConstantT16 (16 * r + i.val)))
      (fun i => (v i + constantT16 (16 * r + i.val)) ^ 5) := by
    intro i
    rw [Cells.get_of]
    refine ⟨sbox_lt _, ?_⟩
    rw [sbox_eq, ZMod.natCast_zmod_val, (add_constant tracks fits i _).2, power5]
  have layer := matE16_tracks entered (by decide)
  rw [extRound16Exact, added, Option.bind_eq_bind, Option.bind_some, extRound16, powers]
  simp only [Cells.get_of]
  exact layer

theorem intRound16_tracks (tracks : Tracks16 size s v) (large : 31 ≤ size) (fits : size ≤ 240)
    (j : ℕ) :
    intRound16Exact s (roundConstantT16 (16 * 8 + j)) =
        some (intRound16 s (roundConstantT16 (16 * 8 + j))) ∧
      Tracks16 (size + 5) (intRound16 s (roundConstantT16 (16 * 8 + j)))
        (internalStep constantT16 v j) := by
  have sum := add_constant tracks fits 0 (16 * 8 + j)
  have entered : Tracks16 size
      (Cells.of (Function.update s.get 0 (sbox (s.get 0 + roundConstantT16 (16 * 8 + j)))))
      (Function.update v 0 ((v 0 + constantT16 (16 * 8 + j)) ^ 5)) := by
    intro i
    rw [Cells.get_of, Function.update_apply, Function.update_apply]
    split
    case isTrue =>
      refine ⟨(sbox_lt _).trans_le (Nat.pow_le_pow_right (by decide) large), ?_⟩
      rw [sbox_eq, ZMod.natCast_zmod_val, sum.2, power5]
    case isFalse => exact tracks i
  rw [intRound16Exact, exactAdd_eq sum.1, Option.bind_eq_bind, Option.bind_some, intRound16,
    uncheckedAdd_eq sum.1]
  exact matI16_tracks entered large fits

/-- External rounds in a row. -/
theorem extRounds16_track {rounds : List ℕ} (early : ∀ r ∈ rounds, r < 8) (tracks : Tracks16 size s v)
    (large : 38 ≤ size) (fits : size ≤ 240) :
    (rounds.map fun r => kE.getD r (0, 0)).foldlM extRound16Exact s =
        some ((rounds.map fun r => kE.getD r (0, 0)).foldl extRound16 s) ∧
      Tracks16 size ((rounds.map fun r => kE.getD r (0, 0)).foldl extRound16 s)
        (rounds.foldl (externalStep constantT16) v) := by
  induction rounds generalizing s v with
  | nil => exact ⟨rfl, tracks⟩
  | cons r rounds ih =>
      rw [List.forall_mem_cons] at early
      have next := extRound16_tracks tracks fits early.1
      rw [List.map_cons, List.foldlM_cons, List.foldl_cons, List.foldl_cons, next.1]
      exact ih early.2 (next.2.widen large)

/-- Internal rounds in a row, while the bound grows. -/
theorem intRounds16_track (tracks : Tracks16 39 s v) {count : ℕ} (bounded : count ≤ 14) :
    ((List.range count).map fun j => roundConstantT16 (16 * 8 + j)).foldlM intRound16Exact s =
        some (((List.range count).map fun j => roundConstantT16 (16 * 8 + j)).foldl intRound16 s) ∧
      Tracks16 (39 + 5 * count)
        (((List.range count).map fun j => roundConstantT16 (16 * 8 + j)).foldl intRound16 s)
        ((List.range count).foldl (internalStep constantT16) v) := by
  induction count with
  | zero => exact ⟨rfl, tracks⟩
  | succ count ih =>
      have before := ih (by omega)
      have next := intRound16_tracks before.2 (by omega) (by omega) count
      rw [List.range_succ, List.map_append, List.foldlM_append, before.1, Option.bind_eq_bind,
        Option.bind_some, List.foldl_append, List.foldl_append, List.map_singleton, List.foldl_cons,
        List.foldl_nil, List.foldl_cons, List.foldl_nil, List.foldlM_cons, next.1]
      exact ⟨rfl, next.2⟩

/-- On words below `2^32` no sum of the permutation wraps, and the result is
the permutation of their residues. -/
theorem permute16_spec (small : ∀ i, s.get i < 2 ^ 32) :
    permute16Exact s = some (permute16 s) ∧
      permute16 s = lift (poseidon2 constantT16 fun i => ((s.get i : ℕ) : M31)) := by
  have start : Tracks16 32 s fun i => ((s.get i : ℕ) : M31) := fun i => ⟨small i, rfl⟩
  have mixed := matE16_tracks start (by decide)
  have firstWords : kE.take 4 = [0, 1, 2, 3].map fun r => kE.getD r (0, 0) := rfl
  have lastWords : kE.drop 4 = [4, 5, 6, 7].map fun r => kE.getD r (0, 0) := rfl
  have early : ∀ r ∈ [0, 1, 2, 3], r < 8 := by decide
  have late : ∀ r ∈ [4, 5, 6, 7], r < 8 := by decide
  have first := extRounds16_track early mixed.2 (by decide) (by decide)
  have middle := intRounds16_track first.2 (le_refl 14)
  have last := extRounds16_track late middle.2 (by decide) (by decide)
  constructor
  · simp only [permute16Exact, Option.bind_eq_bind]
    rw [mixed.1, Option.bind_some, firstWords, first.1, Option.bind_some, kI_eq, middle.1,
      Option.bind_some, lastWords, last.1, Option.bind_some]
    rw [permute16, firstWords, kI_eq, lastWords]
    rfl
  · apply Stwo.lift_eq
    intro i
    rw [permute16, Cells.get_of, firstWords, kI_eq, lastWords, ← ZMod.val_natCast, (last.2 i).2]
    rfl

end Tracking


/-! ## Blocks and the sponge -/

section Sponge

variable (v : Fin 16 → M31)

/-- Canonical words are permuted as by the prover. -/
theorem permute16_lift : permute16 (lift v) = lift (poseidon2 constantT16 v) := by
  have small : ∀ i, (lift v).get i < 2 ^ 32 := by
    intro i
    rw [Stwo.lift_get]
    exact (Stwo.val_lt_P _).trans (by decide)
  have residues : (fun i => (((lift v).get i : ℕ) : M31)) = v := by
    funext i
    rw [Stwo.lift_get, ZMod.natCast_zmod_val]
  rw [(permute16_spec small).2, residues]

/-- Cells that are canonical are the representatives of their residues. -/
theorem permute16_canonical {s : Cells ℕ} (canonical : ∀ i, Canonical (s.get i)) :
    permute16 s = Stwo.permuteT16 s := by
  have same : s = lift fun i => ((s.get i : ℕ) : M31) := by
    apply Stwo.lift_eq
    intro i
    rw [ZMod.val_natCast, Nat.mod_eq_of_lt (canonical i)]
  rw [same, permute16_lift, Stwo.permuteT16_lift]

/-- Two nodes of canonical words. -/
theorem compress8_eq {left right : Fin 8 → ℕ} (first : ∀ i, Canonical (left i))
    (second : ∀ i, Canonical (right i)) : compress8 left right = Stwo.compressT16 left right := by
  have canonical (i : Fin 16) : Canonical ((Stwo.joinCells left right).get i) := by
    rw [Stwo.joinCells, Cells.get_of]
    split
    case isTrue => exact first _
    case isFalse => exact second _
  funext k
  rw [compress8, permute16_canonical canonical, Stwo.compressT16]

theorem addM31_val (a b : M31) : addM31 a.val b.val = (a + b).val := by
  have first := Stwo.val_lt_P a
  have second := Stwo.val_lt_P b
  have wide : P < 2 ^ 31 := by decide
  have sum : uncheckedAdd a.val b.val = (a.val + b.val) % Stwo.u64Modulus := by
    rw [uncheckedAdd_eq (room (by omega) (by omega)), Nat.mod_eq_of_lt]
    simp only [Stwo.u64Modulus]
    omega
  rw [← Stwo.m31Add_val, addM31, sum]
  rfl

theorem absorb8_lift (values : List ℕ) : absorb8 (lift v) values = lift (absorbed v values) := by
  apply Stwo.lift_eq
  intro i
  rw [absorb8, Cells.get_of, absorbed]
  cases values[i.val]? with
  | none => exact Stwo.lift_get v i
  | some value =>
      dsimp only
      rw [Stwo.lift_get, ← ZMod.val_natCast, addM31_val]

theorem addM31_pad {missing : ℕ} (few : missing ≤ 8) :
    Cells.of (Function.update (lift v).get 15 (addM31 ((lift v).get 15) missing)) =
      lift (Function.update v 15 (v 15 + missing)) := by
  have sum := addM31_val (v 15) missing
  rw [Stwo.val_missing few] at sum
  rw [Stwo.lift_get, sum]
  exact Stwo.update_lift v 15 _

/-- Both sponges hold the same canonical words between two permutations. -/
theorem sponge8State_eq (values : List ℕ) : sponge8State values = Stwo.spongeT16 values := by
  have start : Cells.of (fun _ : Fin 16 => 0) = lift 0 := Stwo.lift_eq fun i => Cells.get_of _ i
  have contract (v : Fin 16 → M31) (c : ℕ) :
      permute16 (absorb8 (lift v) ((values.drop (8 * c)).take 8)) =
        lift (poseidon2 constantT16 (absorbed v ((values.drop (8 * c)).take 8))) := by
    rw [absorb8_lift, permute16_lift]
  have prover (v : Fin 16 → M31) (c : ℕ) :
      Stwo.permuteT16 (Stwo.absorbT16 (lift v) ((values.drop (8 * c)).take 8)) =
        lift (poseidon2 constantT16 (absorbed v ((values.drop (8 * c)).take 8))) := by
    rw [absorbT16_lift, Stwo.permuteT16_lift]
  rw [sponge8State, Stwo.spongeT16, start, Stwo.foldl_lift 0 contract, Stwo.foldl_lift 0 prover]
  dsimp only
  split
  case isTrue => rfl
  case isFalse =>
    have few : 8 - (values.drop (8 * (values.length / 8))).length ≤ 8 := Nat.sub_le _ _
    rw [absorb8_lift, absorbT16_lift, addM31_pad _ few, m31Add_pad _ few, permute16_lift,
      Stwo.permuteT16_lift]

end Sponge

end Verifier
end Contracts
end QLSA
