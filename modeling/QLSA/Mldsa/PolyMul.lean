import QLSA.Mldsa.NttEvaluation
import Mathlib.RingTheory.AdjoinRoot

namespace QLSA
namespace Mldsa

open Finset Machine Polynomial

/-!
# Multiplication of polynomials

The transforms run on `i64` values without an overflow and without a failed
assertion, because every array between two butterflies holds representatives.
A product computed through them is the schoolbook product modulo
`X ^ 256 + 1`: both have the same values at the odd powers of `ZETA`, whose
256-th power is `-1`.
-/

/-! ## Checked arithmetic -/

/-- An `i64` result; `none` is an overflow. -/
def i64 (v : ℤ) : Option ℤ := if -2 ^ 63 ≤ v ∧ v < 2 ^ 63 then some v else none

/-- `field::mul` with its assertions. -/
def mulChecked (a b : ℤ) : Option ℤ :=
  if InRange a ∧ InRange b then (i64 (a * b)).map fun product => product.tmod Q else none

def powLoopChecked : ℕ → ℤ → ℤ → ℕ → Option ℤ
  | 0, result, _, _ => some result
  | bits + 1, result, base, exp =>
      if exp = 0 then some result
      else do
        let result ← if exp % 2 = 1 then (i64 (result * base)).map (·.tmod Q) else some result
        let base ← (i64 (base * base)).map (·.tmod Q)
        powLoopChecked bits result base (exp / 2)

def powChecked (base : ℤ) (exp : ℕ) : Option ℤ := powLoopChecked 64 1 (reduce base) exp

def zetaFwdChecked (k : ℕ) : Option ℤ := powChecked ZETA (reverseBits k)

def zetaInvChecked (k : ℕ) : Option ℤ := powChecked ZETA ((512 - reverseBits k) % 512)

/-- A sum brought back below `Q`. -/
def wrapSum (sum : ℤ) : Option ℤ := if Q ≤ sum then i64 (sum - Q) else some sum

/-- A difference brought back above zero. -/
def wrapDifference (difference : ℤ) : Option ℤ :=
  if difference < 0 then i64 (difference + Q) else some difference

def nttPairChecked (k : ℕ) (fj fUpper : ℤ) : Option (ℤ × ℤ) := do
  let zeta ← zetaFwdChecked k
  let t ← mulChecked zeta fUpper
  let low ← (i64 (fj + t)).bind wrapSum
  let high ← (i64 (fj - t)).bind wrapDifference
  return (low, high)

def nttInvPairChecked (k : ℕ) (t fUpper : ℤ) : Option (ℤ × ℤ) := do
  let zeta ← zetaInvChecked k
  let low ← (i64 (t + fUpper)).bind wrapSum
  let diff ← (i64 (t - fUpper)).bind wrapDifference
  let high ← mulChecked zeta diff
  return (low, high)

/-- One pass of an inner loop. -/
def runChecked (pair : ℕ → ℤ → ℤ → Option (ℤ × ℤ)) (f : Coeffs) (pass : Butterfly) :
    Option Coeffs := do
  let new ← pair pass.k (f pass.j) (f (pass.j + pass.len))
  return Function.update (Function.update f pass.j new.1) (pass.j + pass.len) new.2

def nttChecked (f : Coeffs) : Option Coeffs := nttButterflies.foldlM (runChecked nttPairChecked) f

/-- A pass of the last loop of `ntt_inv`. -/
def scaleChecked (f : Coeffs) (c : ℕ) : Option Coeffs :=
  (mulChecked (f c) N_INV).map (Function.update f c)

def nttInvChecked (f : Coeffs) : Option Coeffs := do
  let f ← nttInvButterflies.foldlM (runChecked nttInvPairChecked) f
  (List.range N).foldlM scaleChecked f

section Checked

theorem i64_product {a b : ℤ} (first : InRange a) (second : InRange b) :
    i64 (a * b) = some (a * b) := by
  have bound : a * b ≤ 8380416 * 8380416 :=
    mul_le_mul (Int.le_of_lt_add_one first.2) (Int.le_of_lt_add_one second.2) second.1 (by decide)
  have positive := mul_nonneg first.1 second.1
  rw [i64, if_pos]
  omega

theorem i64_small {v : ℤ} (low : -Q ≤ v) (high : v ≤ 2 * Q) : i64 v = some v := by
  rw [i64, if_pos]
  simp only [Q] at *
  omega

theorem mulChecked_eq {a b : ℤ} (first : InRange a) (second : InRange b) :
    mulChecked a b = some (mul a b) := by
  rw [mulChecked, if_pos ⟨first, second⟩, i64_product first second]
  rfl

theorem powLoopChecked_eq {bits exp : ℕ} {result base : ℤ} (resultRange : InRange result)
    (baseRange : InRange base) :
    powLoopChecked bits result base exp = some (powLoop bits result base exp) := by
  induction bits generalizing result base exp with
  | zero => rfl
  | succ bits ih =>
      have product : InRange (mul result base) := by
        rw [mul_eq_emod resultRange baseRange]
        exact emod_inRange _
      have square : InRange (mul base base) := by
        rw [mul_eq_emod baseRange baseRange]
        exact emod_inRange _
      rw [powLoopChecked, powLoop]
      by_cases done : exp = 0
      · rw [if_pos done, if_pos done]
      · rw [if_neg done, if_neg done, i64_product resultRange baseRange,
          i64_product baseRange baseRange]
        by_cases odd : exp % 2 = 1
        · rw [if_pos odd, if_pos odd]
          exact ih product square
        · rw [if_neg odd, if_neg odd]
          exact ih resultRange square

theorem powChecked_eq (base : ℤ) (exp : ℕ) : powChecked base exp = some (pow base exp) := by
  apply powLoopChecked_eq (by decide)
  rw [reduce_eq_emod]
  exact emod_inRange base

/-- A checked pair does what the pair does on representatives. -/
def Checks (checked : ℕ → ℤ → ℤ → Option (ℤ × ℤ)) (pair : ℕ → ℤ → ℤ → ℤ × ℤ) : Prop :=
  ∀ k a b, InRange a → InRange b → checked k a b = some (pair k a b)

theorem sum_checks {sum : ℤ} (low : 0 ≤ sum) (high : sum < 2 * Q) :
    (i64 sum).bind wrapSum = some (if Q ≤ sum then sum - Q else sum) := by
  have positive : (0 : ℤ) < Q := by decide
  rw [i64_small (by omega) high.le, Option.bind_some, wrapSum]
  by_cases large : Q ≤ sum
  · rw [if_pos large, if_pos large, i64_small (by omega) (by omega)]
  · rw [if_neg large, if_neg large]

theorem difference_checks {difference : ℤ} (low : -Q < difference) (high : difference < Q) :
    (i64 difference).bind wrapDifference =
      some (if difference < 0 then difference + Q else difference) := by
  have positive : (0 : ℤ) < Q := by decide
  rw [i64_small low.le (by omega), Option.bind_some, wrapDifference]
  by_cases negative : difference < 0
  · rw [if_pos negative, if_pos negative, i64_small (by omega) (by omega)]
  · rw [if_neg negative, if_neg negative]

theorem nttPair_checks : Checks nttPairChecked fun k => nttPair (zetaFwd k) := by
  intro k a b first second
  have range := (zetaFwd_spec k).1
  have product : InRange (mul (zetaFwd k) b) := by
    rw [mul_eq_emod range second]
    exact emod_inRange _
  have zeta : zetaFwdChecked k = some (zetaFwd k) := powChecked_eq _ _
  rcases product with ⟨low, high⟩
  rcases first with ⟨aLow, aHigh⟩
  rw [nttPairChecked, zeta]
  simp only [Option.bind_eq_bind, Option.bind_some, mulChecked_eq range second]
  rw [sum_checks (by omega) (by omega), difference_checks (by omega) (by omega)]
  rfl

theorem nttInvPair_checks : Checks nttInvPairChecked fun k => nttInvPair (zetaInv k) := by
  intro k a b first second
  have range := (zetaInv_spec k).1
  have zeta : zetaInvChecked k = some (zetaInv k) := powChecked_eq _ _
  have reduced : InRange (if a - b < 0 then a - b + Q else a - b) := by
    have difference := sub_eq_emod first second
    unfold sub at difference
    rw [difference]
    exact emod_inRange _
  rcases first with ⟨aLow, aHigh⟩
  rcases second with ⟨bLow, bHigh⟩
  rw [nttInvPairChecked, zeta]
  simp only [Option.bind_eq_bind, Option.bind_some]
  rw [sum_checks (by omega) (by omega), difference_checks (by omega) (by omega)]
  simp only [Option.bind_some, mulChecked_eq range reduced]
  rfl

variable {pair : ℕ → ℤ → ℤ → ℤ × ℤ} {checked : ℕ → ℤ → ℤ → Option (ℤ × ℤ)}

theorem reduced_update {f : Coeffs} (reduced : Reduced f) (cell : ℕ) {v : ℤ} (range : InRange v) :
    Reduced (Function.update f cell v) := by
  intro c inside
  by_cases same : c = cell
  · rw [same, Function.update_self]
    exact range
  · rw [Function.update_of_ne same]
    exact reduced c inside

/-- A pass keeps representatives. -/
theorem pass_reduced (keeps : KeepsRange pair) {pass : Butterfly}
    (inside : pass.j + pass.len < N) {f : Coeffs} (reduced : Reduced f) :
    Reduced (PairUpdate.run f (pass.update pair)) := by
  have new := keeps pass.k _ _ (reduced pass.j (by omega)) (reduced _ inside)
  exact reduced_update (reduced_update reduced _ new.1) _ new.2

/-- Runs of checked passes are runs of the passes, and keep representatives. -/
theorem passes_checked (keeps : KeepsRange pair) (checks : Checks checked pair)
    {passes : List Butterfly} (inside : ∀ pass ∈ passes, pass.j + pass.len < N) {f : Coeffs}
    (reduced : Reduced f) :
    passes.foldlM (runChecked checked) f =
        some ((passes.map (Butterfly.update pair)).foldl PairUpdate.run f) ∧
      Reduced ((passes.map (Butterfly.update pair)).foldl PairUpdate.run f) := by
  induction passes generalizing f with
  | nil => exact ⟨rfl, reduced⟩
  | cons pass rest ih =>
      rw [List.forall_mem_cons] at inside
      have first : runChecked checked f pass = some (PairUpdate.run f (pass.update pair)) := by
        have low := reduced pass.j (by omega)
        rw [runChecked, checks pass.k _ _ low (reduced _ inside.1)]
        rfl
      rw [List.foldlM_cons, first]
      exact ih inside.2 (pass_reduced keeps inside.1 reduced)

theorem ntt_passes_inside : ∀ pass ∈ nttButterflies, pass.j + pass.len < N := by
  decide +kernel

theorem nttInv_passes_inside : ∀ pass ∈ nttInvButterflies, pass.j + pass.len < N := by
  decide +kernel

/-- The last loop of `ntt_inv`, over the first coefficients. -/
theorem scale_checked {f : Coeffs} (reduced : Reduced f) {n : ℕ} (bound : n ≤ N) :
    (List.range n).foldlM scaleChecked f =
      some (fun c => if c < n then mul (f c) N_INV else f c) := by
  induction n with
  | zero => rfl
  | succ n ih =>
      have last : scaleChecked (fun c => if c < n then mul (f c) N_INV else f c) n =
          some (fun c => if c < n + 1 then mul (f c) N_INV else f c) := by
        rw [scaleChecked, if_neg (lt_irrefl n),
          mulChecked_eq (reduced n (by omega)) nInv_inRange, Option.map_some]
        refine congrArg some ?_
        funext c
        by_cases same : c = n
        · rw [same, Function.update_self, if_pos (by omega)]
        · rw [Function.update_of_ne same]
          by_cases before : c < n
          · rw [if_pos before, if_pos (by omega)]
          · rw [if_neg before, if_neg (by omega)]
      rw [List.range_succ, List.foldlM_append, ih (by omega), Option.bind_eq_bind,
        Option.bind_some, List.foldlM_cons, last]
      rfl

theorem nttChecked_eq {f : Coeffs} (reduced : Reduced f) : nttChecked f = some (ntt f) :=
  (passes_checked nttPair_keepsRange nttPair_checks ntt_passes_inside reduced).1

theorem nttInvUnscaled_checked {f : Coeffs} (reduced : Reduced f) :
    nttInvButterflies.foldlM (runChecked nttInvPairChecked) f = some (nttInvUnscaled f) ∧
      Reduced (nttInvUnscaled f) :=
  passes_checked nttInvPair_keepsRange nttInvPair_checks nttInv_passes_inside reduced

theorem nttInvChecked_eq {f : Coeffs} (reduced : Reduced f) :
    ∃ g, nttInvChecked f = some g ∧ Agree g (nttInv f) := by
  have runs := nttInvUnscaled_checked reduced
  refine ⟨fun c => if c < N then mul (nttInvUnscaled f c) N_INV else nttInvUnscaled f c, ?_, ?_⟩
  · rw [nttInvChecked, runs.1, Option.bind_eq_bind, Option.bind_some,
      scale_checked runs.2 (le_refl N)]
  · intro c inside
    dsimp only
    rw [if_pos inside, nttInv]

/-- Every array of a checked transform holds representatives, and the transform
returns. -/
structure Safe (f : Coeffs) : Prop where
  ntt_passes : ∀ n, ∃ g, (nttButterflies.take n).foldlM (runChecked nttPairChecked) f = some g ∧
    Reduced g
  ntt_returns : nttChecked f = some (ntt f) ∧ Reduced (ntt f)
  nttInv_passes : ∀ n, ∃ g,
    (nttInvButterflies.take n).foldlM (runChecked nttInvPairChecked) f = some g ∧ Reduced g
  nttInv_scales : ∀ n ≤ N, ∃ g,
    (List.range n).foldlM scaleChecked (nttInvUnscaled f) = some g ∧ Reduced g
  nttInv_returns : ∃ g, nttInvChecked f = some g ∧ Agree g (nttInv f) ∧ Reduced g

theorem prefix_checked (keeps : KeepsRange pair) (checks : Checks checked pair)
    {passes : List Butterfly} (inside : ∀ pass ∈ passes, pass.j + pass.len < N) {f : Coeffs}
    (reduced : Reduced f) (n : ℕ) :
    ∃ g, (passes.take n).foldlM (runChecked checked) f = some g ∧ Reduced g :=
  ⟨_, passes_checked keeps checks (fun pass taken => inside pass (List.mem_of_mem_take taken))
    reduced⟩

theorem scaled_reduced {f : Coeffs} (reduced : Reduced f) (n : ℕ) :
    Reduced fun c => if c < n then mul (f c) N_INV else f c := by
  intro c inside
  dsimp only
  by_cases before : c < n
  · rw [if_pos before, mul_eq_emod (reduced c inside) nInv_inRange]
    exact emod_inRange _
  · rw [if_neg before]
    exact reduced c inside

theorem transforms_safe {f : Coeffs} (reduced : Reduced f) : Safe f where
  ntt_passes := prefix_checked nttPair_keepsRange nttPair_checks ntt_passes_inside reduced
  ntt_returns := ⟨nttChecked_eq reduced, ntt_reduced reduced⟩
  nttInv_passes := prefix_checked nttInvPair_keepsRange nttInvPair_checks nttInv_passes_inside reduced
  nttInv_scales := by
    intro n bound
    have unscaled := (nttInvUnscaled_checked reduced).2
    exact ⟨_, scale_checked unscaled bound, scaled_reduced unscaled n⟩
  nttInv_returns := by
    rcases nttInvChecked_eq reduced with ⟨g, returns, agree⟩
    refine ⟨g, returns, agree, ?_⟩
    intro c inside
    rw [agree c inside]
    exact (nttInv_spec reduced).1 c inside

end Checked

/-! ## Products -/

def pointwiseMul (a b : Coeffs) : Coeffs := fun i => mul (a i) (b i)

def polyMul (a b : Coeffs) : Coeffs := nttInv (pointwiseMul (ntt a) (ntt b))

/-- The additions of the two loops of `mul_naive`: a cell and what is added to it. -/
def products (a b : Coeffs) : List (ℕ × ℤ) :=
  (List.range N).flatMap fun i => (List.range N).map fun j => (i + j, a i * b j)

def accumulate (tmp : ℕ → ℤ) (product : ℕ × ℤ) : ℕ → ℤ :=
  Function.update tmp product.1 (tmp product.1 + product.2)

def mulNaive (a b : Coeffs) : Coeffs :=
  let tmp := (products a b).foldl accumulate fun _ => 0
  fun i => reduce (tmp i - tmp (i + N))

/-- `accumulate` on `i64` values. -/
def accumulateChecked (tmp : ℕ → ℤ) (product : ℕ × ℤ) : Option (ℕ → ℤ) := do
  let v ← i64 product.2
  let sum ← i64 (tmp product.1 + v)
  return Function.update tmp product.1 sum

def mulNaiveChecked (a b : Coeffs) : Option Coeffs := do
  let tmp ← (products a b).foldlM accumulateChecked fun _ => 0
  if ∀ i < N, (i64 (tmp i - tmp (i + N))).isSome then
    return fun i => reduce (tmp i - tmp (i + N))
  else none

/-- Sums of few products do not overflow. -/
theorem accumulate_checked {products : List (ℕ × ℤ)} {seen : ℕ}
    (few : seen + products.length ≤ 65536)
    (small : ∀ product ∈ products, 0 ≤ product.2 ∧ product.2 ≤ 8380416 * 8380416) {tmp : ℕ → ℤ}
    (bounded : ∀ c, 0 ≤ tmp c ∧ tmp c ≤ seen * (8380416 * 8380416)) :
    products.foldlM accumulateChecked tmp = some (products.foldl accumulate tmp) ∧
      ∀ c, 0 ≤ products.foldl accumulate tmp c ∧
        products.foldl accumulate tmp c ≤ 65536 * (8380416 * 8380416) := by
  induction products generalizing seen tmp with
  | nil =>
      refine ⟨rfl, ?_⟩
      intro c
      have bound := bounded c
      rw [List.length_nil] at few
      rw [List.foldl_nil]
      omega
  | cons product rest ih =>
      rw [List.forall_mem_cons] at small
      rw [List.length_cons] at few
      have old := bounded product.1
      have new := small.1
      have step : accumulateChecked tmp product = some (accumulate tmp product) := by
        have value : i64 product.2 = some product.2 := by
          rw [i64, if_pos (by omega)]
        have sum : i64 (tmp product.1 + product.2) = some (tmp product.1 + product.2) := by
          rw [i64, if_pos (by omega)]
        rw [accumulateChecked, value, Option.bind_eq_bind, Option.bind_some, sum]
        rfl
      have next (c : ℕ) : 0 ≤ accumulate tmp product c ∧
          accumulate tmp product c ≤ (seen + 1 : ℕ) * (8380416 * 8380416) := by
        have bound := bounded c
        by_cases same : c = product.1
        · rw [same, accumulate, Function.update_self]
          omega
        · rw [accumulate, Function.update_of_ne same]
          omega
      rw [List.foldlM_cons, step, List.foldl_cons]
      exact ih (by omega) small.2 next

theorem mulNaiveChecked_eq {f g : Coeffs} (first : Reduced f) (second : Reduced g) :
    mulNaiveChecked f g = some (mulNaive f g) := by
  have length : (products f g).length = 65536 := by
    rw [products, List.length_flatMap]
    simp only [List.length_map, List.length_range, List.map_const', List.sum_replicate, N]
    rfl
  have small : ∀ product ∈ products f g, 0 ≤ product.2 ∧ product.2 ≤ 8380416 * 8380416 := by
    intro product
    rw [products, List.mem_flatMap]
    rintro ⟨i, row, column⟩
    rw [List.mem_map] at column
    rcases column with ⟨j, column, rfl⟩
    rw [List.mem_range] at row column
    have left := first i row
    have right := second j column
    exact ⟨mul_nonneg left.1 right.1, mul_le_mul (Int.le_of_lt_add_one left.2)
      (Int.le_of_lt_add_one right.2) right.1 (by decide)⟩
  have start (c : ℕ) : (0 : ℤ) ≤ 0 ∧ (0 : ℤ) ≤ (0 : ℕ) * (8380416 * 8380416) := by omega
  rcases accumulate_checked (by omega) small start with ⟨returns, bounded⟩
  rw [mulNaiveChecked, returns, Option.bind_eq_bind, Option.bind_some, if_pos]
  · rfl
  · intro i _
    have low := bounded i
    have high := bounded (i + N)
    rw [i64, if_pos (by omega)]
    rfl

section Evaluation

variable {R : Type*} [CommRing R]

/-- The value of the first coefficients at a point. -/
def evaluate (n : ℕ) (f : ℕ → ℤ) (x : R) : R := ∑ t ∈ range n, (f t : R) * x ^ t

theorem evaluate_accumulate {n : ℕ} (tmp : ℕ → ℤ) {product : ℕ × ℤ} (inside : product.1 < n)
    (x : R) :
    evaluate n (accumulate tmp product) x = evaluate n tmp x + product.2 * x ^ product.1 := by
  have cells (m : ℕ) : ((accumulate tmp product m : ℤ) : R) * x ^ m =
      tmp m * x ^ m + if m = product.1 then (product.2 : R) * x ^ product.1 else 0 := by
    by_cases same : m = product.1
    · rw [same, accumulate, Function.update_self, if_pos rfl, Int.cast_add]
      ring
    · rw [accumulate, Function.update_of_ne same, if_neg same, add_zero]
  rw [evaluate, evaluate, sum_congr rfl fun m _ => cells m, sum_add_distrib, sum_ite_eq',
    if_pos (mem_range.mpr inside)]

theorem evaluate_foldl_accumulate {n : ℕ} {products : List (ℕ × ℤ)}
    (inside : ∀ product ∈ products, product.1 < n) (tmp : ℕ → ℤ) (x : R) :
    evaluate n (products.foldl accumulate tmp) x =
      evaluate n tmp x + (products.map fun product => (product.2 : R) * x ^ product.1).sum := by
  induction products generalizing tmp with
  | nil => rw [List.map_nil, List.sum_nil, add_zero, List.foldl_nil]
  | cons product rest ih =>
      rw [List.forall_mem_cons] at inside
      rw [List.foldl_cons, ih inside.2, evaluate_accumulate _ inside.1, List.map_cons,
        List.sum_cons, add_assoc]

theorem sum_map_range (f : ℕ → R) (n : ℕ) : ((List.range n).map f).sum = ∑ t ∈ range n, f t := by
  rw [← List.sum_toFinset f List.nodup_range, List.toFinset_range]

/-- All additions together are the product of the values. -/
theorem products_sum (a b : Coeffs) (x : R) :
    ((products a b).map fun product => (product.2 : R) * x ^ product.1).sum =
      evaluate N a x * evaluate N b x := by
  have rows (i : ℕ) : (((List.range N).map fun j => (i + j, a i * b j)).map
      fun product => (product.2 : R) * x ^ product.1).sum = a i * x ^ i * evaluate N b x := by
    rw [List.map_map, sum_map_range, evaluate, mul_sum]
    apply sum_congr rfl
    intro j _
    dsimp only [Function.comp]
    rw [Int.cast_mul, pow_add]
    ring
  rw [products, List.map_flatMap, List.flatMap_def, List.sum_flatten, List.map_map]
  simp only [Function.comp_def, rows]
  rw [sum_map_range, ← sum_mul, ← evaluate]

theorem cast_reduce (vanish : ((Q : ℤ) : R) = 0) (a : ℤ) : ((reduce a : ℤ) : R) = a := by
  rw [reduce_eq_emod]
  conv_rhs => rw [← Int.emod_add_mul_ediv a Q, Int.cast_add, Int.cast_mul, vanish]
  ring

/-- The schoolbook product has the value of the product where the 256-th power is `-1`. -/
theorem evaluate_mulNaive (vanish : ((Q : ℤ) : R) = 0) {x : R} (root : x ^ N = -1)
    (a b : Coeffs) : evaluate N (mulNaive a b) x = evaluate N a x * evaluate N b x := by
  have inside : ∀ product ∈ products a b, product.1 < N + N := by
    intro product
    rw [products, List.mem_flatMap]
    rintro ⟨i, row, column⟩
    rw [List.mem_map] at column
    rcases column with ⟨j, column, rfl⟩
    rw [List.mem_range] at row column
    exact Nat.add_lt_add row column
  have total := evaluate_foldl_accumulate inside (fun _ => 0) x
  rw [products_sum] at total
  have zero : evaluate (N + N) (fun _ => 0) x = 0 := by
    rw [evaluate]
    simp
  rw [zero, zero_add] at total
  rw [← total]
  unfold mulNaive
  dsimp only
  generalize (products a b).foldl accumulate (fun _ => 0) = tmp
  unfold evaluate
  rw [sum_range_add, ← sum_add_distrib]
  apply sum_congr rfl
  intro i _
  rw [cast_reduce vanish, Int.cast_sub, add_comm N i, pow_add, root]
  ring

end Evaluation

theorem odd_power_root (i : ℕ) : ((ZETA : Zq) ^ (2 * reverseBits i + 1)) ^ N = -1 := by
  rw [← pow_mul, mul_comm, pow_mul]
  have half : (ZETA : Zq) ^ N = -1 := zeta_half
  rw [half, pow_succ, pow_mul]
  ring

theorem mulNaive_reduced (a b : Coeffs) : Reduced (mulNaive a b) := by
  intro c _
  unfold mulNaive
  rw [reduce_eq_emod]
  exact emod_inRange _

theorem Agree.nttInv {f g : Coeffs} (agree : Agree f g) : Agree (nttInv f) (nttInv g) := by
  intro c inside
  have valid : ∀ len ∈ [1, 2, 4, 8, 16, 32, 64, 128], StageLen len := by decide
  have stages := @Agree.stages (fun k => nttInvPair (zetaInv k)) _ valid f g agree c inside
  rw [Mldsa.nttInv, Mldsa.nttInv, nttInvUnscaled_agree f c inside, nttInvUnscaled_agree g c inside]
  exact congrArg (mul · N_INV) stages

/-- The transform takes the schoolbook product to the product of the transforms. -/
theorem ntt_mulNaive {f g : Coeffs} (first : Reduced f) (second : Reduced g) :
    Agree (pointwiseMul (ntt f) (ntt g)) (ntt (mulNaive f g)) := by
  intro i inside
  have low := ntt_reduced first i inside
  have high := ntt_reduced second i inside
  have value := evaluate_mulNaive cast_Q (odd_power_root i) f g
  unfold evaluate at value
  rw [pointwiseMul, mul_eq_emod low high]
  apply (emod_inRange _).eq_of_cast (ntt_reduced (mulNaive_reduced f g) i inside)
  rw [cast_emod, Int.cast_mul, ntt_value first inside, ntt_value second inside,
    ntt_value (mulNaive_reduced f g) inside, value]

theorem polyMul_eq {f g : Coeffs} (first : Reduced f) (second : Reduced g) :
    Agree (polyMul f g) (mulNaive f g) := by
  intro c inside
  rw [polyMul, (ntt_mulNaive first second).nttInv c inside]
  exact nttInv_ntt (mulNaive_reduced f g) c inside

/-- The polynomial of an array. -/
noncomputable def toPoly (f : Coeffs) : Zq[X] := ∑ t ∈ range N, C (f t : Zq) * X ^ t

/-- The modulus of the ring of the scheme, at its degree. -/
noncomputable def ringModulus (n : ℕ) : Zq[X] := X ^ n + 1

theorem mk_toPoly (f : Coeffs) :
    AdjoinRoot.mk (ringModulus N) (toPoly f) = evaluate N f (AdjoinRoot.root (ringModulus N)) := by
  rw [toPoly, evaluate, map_sum]
  apply sum_congr rfl
  intro t _
  rw [map_mul, map_pow, AdjoinRoot.mk_X, AdjoinRoot.mk_C, map_intCast]

theorem root_power (n : ℕ) : AdjoinRoot.root (ringModulus n) ^ n = -1 := by
  have zero : AdjoinRoot.mk (ringModulus n) (X ^ n + 1) = 0 := AdjoinRoot.mk_self
  rw [map_add, map_pow, AdjoinRoot.mk_X, map_one] at zero
  exact eq_neg_of_add_eq_zero_left zero

theorem mulNaive_product (f g : Coeffs) :
    AdjoinRoot.mk (ringModulus N) (toPoly (mulNaive f g)) =
      AdjoinRoot.mk (ringModulus N) (toPoly f * toPoly g) := by
  have vanish : ((Q : ℤ) : AdjoinRoot (ringModulus N)) = 0 := by
    have cast := congrArg (AdjoinRoot.of (ringModulus N)) cast_Q
    rw [map_intCast, map_zero] at cast
    exact cast
  have value := evaluate_mulNaive vanish (root_power N) f g
  rw [map_mul, mk_toPoly, mk_toPoly, mk_toPoly]
  exact value

theorem ntt_eq_emod {f : Coeffs} (reduced : Reduced f) {i : ℕ} (inside : i < N) :
    ntt f i = (∑ t ∈ range N, f t * (ZETA ^ (2 * reverseBits i + 1)) ^ t) % Q := by
  apply (ntt_reduced reduced i inside).eq_of_cast (emod_inRange _)
  rw [cast_emod, ntt_value reduced inside]
  push_cast
  rfl

/-- The transforms evaluate at the odd powers of `ZETA`, are safe, are inverse to each other, and
turn products of the ring into products of coefficients.  This holds for all arrays of
representatives; safe means that no intermediate sum or product leaves the range of 64 bits. -/
theorem transform_isomorphism {f g : Coeffs} (first : Reduced f) (second : Reduced g) :
    (∀ i < N, ntt f i = (∑ t ∈ range N, f t * (ZETA ^ (2 * reverseBits i + 1)) ^ t) % Q) ∧
      Safe f ∧
      (Agree (nttInv (ntt f)) f ∧ Agree (ntt (nttInv f)) f) ∧
      Agree (polyMul f g) (mulNaive f g) ∧
      mulNaiveChecked f g = some (mulNaive f g) ∧
      Reduced (mulNaive f g) ∧
      AdjoinRoot.mk (ringModulus N) (toPoly (mulNaive f g)) =
        AdjoinRoot.mk (ringModulus N) (toPoly f * toPoly g) :=
  ⟨fun _ inside => ntt_eq_emod first inside, transforms_safe first,
    ⟨nttInv_ntt first, ntt_nttInv first⟩, polyMul_eq first second,
    mulNaiveChecked_eq first second, mulNaive_reduced f g, mulNaive_product f g⟩

/-- Two arrays of representatives, the second of the greatest ones. -/
theorem greatest_product :
    Agree (polyMul (fun c => if c < N then c else 0) fun _ => 8380416)
      (mulNaive (fun c => if c < N then c else 0) fun _ => 8380416) := by
  have counting : Reduced fun c => if c < N then (c : ℤ) else 0 := by
    intro c inside
    have bound : (N : ℤ) < Q := by decide
    dsimp only
    rw [if_pos inside, InRange]
    omega
  exact (transform_isomorphism counting (fun _ _ => by decide)).2.2.2.1

end Mldsa
end QLSA
