import QLSA.Contracts.CirclePoint
import QLSA.Field.CircleOrder
import QLSA.Vfri2.Arithmetic

namespace QLSA
namespace Vfri2

open Mersenne

/-!
# Points, twiddles and weights of the hint generator

Coordinates are canonical words of points of norm one.  The scalar multiple is
taken modulo the order of the generator, which changes nothing, so an index
beyond its coset means the point of its residue.  The contract computes the
same points on the indices it admits.
-/

/-! ## Points -/

def genX : ℕ := 2

def genY : ℕ := 1268011823

def circleAdd (p q : ℕ × ℕ) : ℕ × ℕ :=
  (m31Sub (m31Mul p.1 q.1) (m31Mul p.2 q.2), m31Add (m31Mul p.1 q.2) (m31Mul q.1 p.2))

def circleDouble (p : ℕ × ℕ) : ℕ × ℕ :=
  let x2 := m31Mul p.1 p.1
  (m31Sub (m31Add x2 x2) 1, m31Add (m31Mul p.1 p.2) (m31Mul p.1 p.2))

/-- The loop of `gen_mul`; a scalar below `2 ^ fuel` is used up. -/
def genMulLoop : ℕ → ℕ × ℕ → ℕ × ℕ → ℕ → ℕ × ℕ
  | 0, r, _, _ => r
  | fuel + 1, r, c, s =>
      if s = 0 then r
      else genMulLoop fuel (if s &&& 1 = 1 then circleAdd r c else r) (circleDouble c) (s >>> 1)

def genMul (s : ℕ) : ℕ × ℕ := genMulLoop 31 (1, 0) (genX, genY) (s &&& (2 ^ 31 - 1))

/-- `1u64 << n`, with the shift amount taken modulo 64. -/
def oneShifted (n : ℕ) : ℕ := 2 ^ (n % 64)

/-- Wrapping difference of `u64` values. -/
def subU64 (a b : ℕ) : ℕ := (a + Stwo.u64Modulus - b) % Stwo.u64Modulus

def cosetAt (logN idx : ℕ) : ℕ × ℕ :=
  let initial := oneShifted (subU64 30 logN)
  let step := oneShifted (subU64 31 logN)
  let cosetIndex := (initial + idx * step % Stwo.u64Modulus) % Stwo.u64Modulus &&& (2 ^ 31 - 1)
  genMul cosetIndex

def antipodalOf (idx treeDepth : ℕ) : ℕ :=
  let half := 2 ^ (treeDepth - 1)
  let domain := 2 ^ treeDepth
  (idx + half) &&& (domain - 1)

/-- `T_{2^k}(x)` by `k` doublings. -/
def chebyshevTwiddle (x : ℕ) : ℕ → ℕ
  | 0 => x
  | k + 1 =>
      let t := chebyshevTwiddle x k
      let t2 := m31Mul t t
      m31Sub (m31Add t2 t2) 1

/-! ## Barycentric evaluation -/

/-- The inner loop of `precompute_bary_weights` from an index on. -/
def baryProduct (xi i : ℕ) : ℕ → List ℕ → ℕ → ℕ
  | _, [], prod => prod
  | j, xj :: rest, prod =>
      if j = i then baryProduct xi i (j + 1) rest prod
      else
        let diff := m31Sub xi xj
        if diff = 0 then 0 else baryProduct xi i (j + 1) rest (m31Mul prod diff)

def precomputeBaryWeights (domainXs : List ℕ) : List ℕ :=
  domainXs.mapIdx fun i xi =>
    let prod := baryProduct xi i 0 domainXs 1
    if prod = 0 then 0 else m31Inv prod

/-- The loop of `eval_bary`; on a node the value there is returned at once. -/
def baryLoop (z : ℕ) : List (ℕ × ℕ × ℕ) → ℕ → ℕ → ℕ
  | [], num, den => qm31Div num den
  | (val, x, weight) :: rest, num, den =>
      let zi := qm31SubM31 z x
      if zi = 0 then qm31FromM31 val
      else
        let wiInv := qm31MulM31 (qm31Inv zi) weight
        baryLoop z rest (qm31Add num (qm31MulM31 wiInv val)) (qm31Add den wiInv)

def evalBary (vals domainXs weights : List ℕ) (z : ℕ) : ℕ :=
  baryLoop z (vals.zip (domainXs.zip weights)) 0 0

/-- The even part of a column at a point; both halves of the column have one
value for each first coordinate. -/
def evalCircleEven (col xsHalf weightsHalf : List ℕ) (z : ℕ) : ℕ :=
  let half := xsHalf.length
  let n := col.length
  let twoInv := m31Inv 2
  let colEven := (List.range half).map fun k =>
    m31Mul (m31Add (col.getD k 0) (col.getD (n - 1 - k) 0)) twoInv
  evalBary colEven xsHalf weightsHalf z

/-! ## Points and powers of the generator -/

/-- The canonical coordinates of a point. -/
def coords (z : CM31) : ℕ × ℕ := (z.re.val, z.im.val)

theorem circleAdd_coords (z w : CM31) : circleAdd (coords z) (coords w) = coords (z * w) := by
  have re : z.re * w.re - z.im * w.im = (z * w).re := by
    rw [QuadraticAlgebra.re_mul]
    ring
  have im : z.re * w.im + w.re * z.im = (z * w).im := by
    rw [QuadraticAlgebra.im_mul]
    ring
  simp only [circleAdd, coords, m31Mul_val, m31Add_val, m31Sub_val, re, im]

theorem val_one : (1 : M31).val = 1 := ZMod.val_one P

/-- One doubling of a first coordinate. -/
theorem doubled_val (x : M31) :
    m31Sub (m31Add (m31Mul x.val x.val) (m31Mul x.val x.val)) 1 = (doubled x).val := by
  have value : x * x + x * x - 1 = doubled x := by
    rw [doubled]
    ring
  rw [m31Mul_val, m31Add_val, ← val_one, m31Sub_val, value]

theorem circleDouble_coords {z : CM31} (norm : QuadraticAlgebra.norm z = 1) :
    circleDouble (coords z) = coords (z ^ 2) := by
  have im : z.re * z.im + z.re * z.im = (z ^ 2).im := by
    rw [sq, QuadraticAlgebra.im_mul]
    ring
  simp only [circleDouble, coords]
  rw [doubled_val, ← re_sq_of_norm norm, m31Mul_val, m31Add_val, im]

theorem genMulLoop_coords {fuel s : ℕ} (enough : s < 2 ^ fuel) (r : CM31) {c : CM31}
    (norm : QuadraticAlgebra.norm c = 1) :
    genMulLoop fuel (coords r) (coords c) s = coords (r * c ^ s) := by
  induction fuel generalizing s r c with
  | zero =>
      have none : s = 0 := by simpa using enough
      rw [genMulLoop, none, pow_zero, mul_one]
  | succ fuel ih =>
      rw [genMulLoop]
      split
      case isTrue none => rw [none, pow_zero, mul_one]
      case isFalse =>
        have half : s >>> 1 < 2 ^ fuel := by
          rw [Nat.shiftRight_eq_div_pow]
          rw [pow_succ] at enough
          omega
        have whole : s = 2 * (s >>> 1) + s % 2 := by
          rw [Nat.shiftRight_eq_div_pow]
          omega
        have square : QuadraticAlgebra.norm (c ^ 2) = 1 := by rw [map_pow, norm, one_pow]
        rw [circleDouble_coords norm, Nat.and_one_is_mod]
        rcases Nat.mod_two_eq_zero_or_one s with even | odd
        · rw [if_neg (by omega), ih half r square]
          conv_rhs => rw [whole, even, Nat.add_zero, pow_mul]
        · rw [if_pos odd, circleAdd_coords, ih half (r * c) square]
          conv_rhs => rw [whole, odd, pow_succ', pow_mul, ← mul_assoc]

theorem generator_pow_mod (s : ℕ) : generator ^ (s % 2 ^ 31) = generator ^ s := by
  conv_rhs => rw [← Nat.div_add_mod s (2 ^ 31), pow_add, pow_mul, generator_whole, one_pow, one_mul]

theorem coords_generator : coords generator = (genX, genY) := rfl

theorem coords_one : coords 1 = (1, 0) := by
  simp [coords, QuadraticAlgebra.re_one, QuadraticAlgebra.im_one, val_one]

/-- The scalar multiple is the power, whatever the scalar. -/
theorem genMul_eq (s : ℕ) : genMul s = coords (generator ^ s) := by
  have small : s % 2 ^ 31 < 2 ^ 31 := Nat.mod_lt _ (Nat.two_pow_pos 31)
  rw [genMul, Nat.and_two_pow_sub_one_eq_mod, ← coords_generator, ← coords_one,
    genMulLoop_coords small 1 generator_norm, one_mul, generator_pow_mod]

/-- The point at any `u64` index is that of the canonic coset. -/
theorem cosetAt_eq {logN : ℕ} (bounded : logN ≤ 30) (idx : ℕ) :
    cosetAt logN idx = coords (cosetPoint logN idx) := by
  have initial : oneShifted (subU64 30 logN) = 2 ^ (30 - logN) := by
    rw [oneShifted, subU64, Stwo.u64Modulus]
    congr 1
    omega
  have step : oneShifted (subU64 31 logN) = 2 ^ (31 - logN) := by
    rw [oneShifted, subU64, Stwo.u64Modulus]
    congr 1
    omega
  have modulus : (2 : ℕ) ^ 31 ∣ Stwo.u64Modulus := Nat.pow_dvd_pow 2 (by decide)
  rw [cosetAt, initial, step, Nat.and_two_pow_sub_one_eq_mod, genMul_eq, generator_pow_mod, cosetPoint,
    ← generator_pow_mod, Nat.mod_mod_of_dvd _ modulus, Nat.add_mod,
    Nat.mod_mod_of_dvd _ modulus, ← Nat.add_mod, generator_pow_mod]

/-- Where the contract returns a point it is the generator's. -/
theorem contract_cosetAt_eq {logN idx : ℕ} (positive : 1 ≤ logN) (bounded : logN ≤ 30)
    (inside : idx < 2 ^ logN) :
    Contracts.Verifier.cosetAt logN idx = some (cosetAt logN idx) := by
  rcases Contracts.Verifier.cosetAt_spec positive bounded inside with ⟨p, done, point, value⟩
  rw [done, cosetAt_eq bounded, ← value, coords, Contracts.Verifier.pointValue, ZMod.val_natCast,
    ZMod.val_natCast, Nat.mod_eq_of_lt point.x, Nat.mod_eq_of_lt point.y]

/-! ## Twiddles -/

theorem chebyshevTwiddle_val (x : M31) (k : ℕ) :
    chebyshevTwiddle x.val k = (doubled^[k] x).val := by
  induction k with
  | zero => rfl
  | succ k ih => rw [chebyshevTwiddle, ih, Function.iterate_succ_apply', doubled_val]

/-- The twiddle of a round at an index. -/
theorem twiddle_eq {treeDepth : ℕ} (bounded : treeDepth ≤ 30) (index k : ℕ) :
    chebyshevTwiddle (cosetAt treeDepth index).1 k =
      (doubled^[k] (cosetPoint treeDepth index).re).val := by
  rw [cosetAt_eq bounded]
  exact chebyshevTwiddle_val _ k

/-! ## Weights -/

/-- The product over other nodes is not zero. -/
theorem baryProduct_ne_zero {xi : M31} {i j : ℕ} {xs : List M31} {prod : M31} (nonzero : prod ≠ 0)
    (apart : ∀ place x, xs[place]? = some x → j + place ≠ i → x ≠ xi) :
    ∃ p : M31, p ≠ 0 ∧ baryProduct xi.val i j (xs.map ZMod.val) prod.val = p.val := by
  induction xs generalizing j prod with
  | nil => exact ⟨prod, nonzero, rfl⟩
  | cons x rest ih =>
      have later : ∀ place other, rest[place]? = some other → j + 1 + place ≠ i → other ≠ xi := by
        intro place other found elsewhere
        exact apart (place + 1) other found (by omega)
      rw [List.map_cons, baryProduct]
      by_cases own : j = i
      · rw [if_pos own]
        exact ih nonzero later
      · have different : x ≠ xi := apart 0 x rfl own
        have difference : xi - x ≠ 0 := sub_ne_zero.mpr different.symm
        have word : (xi - x).val ≠ 0 := fun zero => difference ((ZMod.val_eq_zero _).mp zero)
        rw [if_neg own, m31Sub_val]
        dsimp only
        rw [if_neg word, m31Mul_val]
        exact ih (mul_ne_zero nonzero difference) later

/-- Distinct nodes have weights other than zero. -/
theorem precomputeBaryWeights_ne_zero {xs : List M31} (distinct : xs.Nodup) :
    ∀ weight ∈ precomputeBaryWeights (xs.map ZMod.val), weight ≠ 0 := by
  intro weight member
  rcases List.mem_iff_getElem?.mp member with ⟨i, found⟩
  rw [precomputeBaryWeights, List.getElem?_mapIdx, List.getElem?_map] at found
  cases node : xs[i]? with
  | none =>
      rw [node] at found
      cases found
  | some xi =>
      rw [node] at found
      have apart : ∀ place x, xs[place]? = some x → 0 + place ≠ i → x ≠ xi := by
        rintro place x other elsewhere rfl
        apply elsewhere
        rw [Nat.zero_add]
        rcases List.getElem?_eq_some_iff.mp other with ⟨inside, -⟩
        exact (List.getElem?_inj inside distinct).mp (other.trans node.symm)
      rcases baryProduct_ne_zero one_ne_zero apart with ⟨p, nonzero, product⟩
      rw [val_one] at product
      have value := Option.some.inj found
      dsimp only at value
      rw [product] at value
      have word : p.val ≠ 0 := fun zero => nonzero ((ZMod.val_eq_zero p).mp zero)
      rw [if_neg word, m31Inv_val] at value
      rw [← value]
      intro zero
      exact inv_ne_zero nonzero ((ZMod.val_eq_zero _).mp zero)

/-- First coordinates of the first half of a coset. -/
def xsHalf (treeDepth : ℕ) : List ℕ :=
  (List.range (2 ^ treeDepth / 2)).map fun k => (cosetAt treeDepth k).1

theorem xsHalf_weights_ne_zero {treeDepth : ℕ} (positive : 1 ≤ treeDepth) (bounded : treeDepth ≤ 30) :
    ∀ weight ∈ precomputeBaryWeights (xsHalf treeDepth), weight ≠ 0 := by
  have half : 2 ^ treeDepth / 2 = 2 ^ (treeDepth - 1) := by
    rw [← Nat.pow_div positive (by decide), pow_one]
  have nodes : xsHalf treeDepth = ((List.range (2 ^ (treeDepth - 1))).map fun k =>
      (cosetPoint treeDepth k).re).map ZMod.val := by
    rw [xsHalf, half, List.map_map]
    apply List.map_congr_left
    intro k _
    rw [cosetAt_eq bounded]
    rfl
  rw [nodes]
  apply precomputeBaryWeights_ne_zero
  apply List.Nodup.map_on _ List.nodup_range
  intro first firstInside second secondInside same
  exact cosetPoint_re_injective positive bounded (List.mem_range.mp firstInside)
    (List.mem_range.mp secondInside) same

end Vfri2
end QLSA
