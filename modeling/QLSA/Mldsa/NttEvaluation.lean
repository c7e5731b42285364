import QLSA.Mldsa.Ntt
import Mathlib.Algebra.BigOperators.Intervals
import Mathlib.Algebra.BigOperators.Ring.Finset
import Mathlib.Tactic.LinearCombination

namespace QLSA
namespace Mldsa

open Finset

/-!
# Values of the transforms

The blocks of a stage are the nodes of a binary tree, numbered from one on, and
a stage splits every node into two.  A node `k` stands for a root, that of the
first node is `-1`, and the twiddle of number `k` is a square root of it whose
two signs are the roots of the children.  Before a stage a block holds the
polynomial modulo `X ^ size` minus the root of its node; after the last stage
every coefficient is a value at an odd power of `ZETA`.  Each inverse stage
doubles what the forward stage started from.
-/

/-! ## Residues of a stage -/

/-- Twiddle of a number, as a residue. -/
def twiddle (k : ℕ) : Zq := (ZETA : Zq) ^ reverseBits k

/-- An array of residues that a stage leaves behind a forward pass of every block. -/
structure Splits (len : ℕ) (f g : ℕ → Zq) : Prop where
  lower : ∀ b < 128 / len, ∀ p < len, g (2 * len * b + p) =
    f (2 * len * b + p) + twiddle (128 / len + b) * f (2 * len * b + p + len)
  upper : ∀ b < 128 / len, ∀ p < len, g (2 * len * b + p + len) =
    f (2 * len * b + p) - twiddle (128 / len + b) * f (2 * len * b + p + len)

/-- Residues of the coefficients. -/
def residues (f : Coeffs) : ℕ → Zq := fun c => (f c : Zq)

section Stages

variable {len : ℕ} {f : Coeffs}

/-- Where a pair of a stage is written. -/
theorem stage_pair (pair : ℕ → ℤ → ℤ → ℤ × ℤ) {b p : ℕ} (inside : p < len) :
    stage pair len f (2 * len * b + p) =
        (pair (128 / len + b) (f (2 * len * b + p)) (f (2 * len * b + p + len))).1 ∧
      stage pair len f (2 * len * b + p + len) =
        (pair (128 / len + b) (f (2 * len * b + p)) (f (2 * len * b + p + len))).2 := by
  have low : (2 * len * b + p) % (2 * len) = p := by
    rw [Nat.mul_add_mod, Nat.mod_eq_of_lt (by omega)]
  have high : (2 * len * b + p + len) % (2 * len) = p + len := by
    rw [Nat.add_assoc, Nat.mul_add_mod, Nat.mod_eq_of_lt (by omega)]
  have lowBlock : (2 * len * b + p) / (2 * len) = b := by
    rw [Nat.mul_add_div (by omega), Nat.div_eq_of_lt (by omega), add_zero]
  have highBlock : (2 * len * b + p + len) / (2 * len) = b := by
    rw [Nat.add_assoc, Nat.mul_add_div (by omega), Nat.div_eq_of_lt (by omega), add_zero]
  constructor
  · rw [stage, low, if_pos inside, lowBlock]
  · rw [stage, high, if_neg (by omega), highBlock, Nat.add_sub_cancel]

/-- Both cells of a pair are coefficients. -/
theorem StageLen.pair_lt (valid : StageLen len) {b p : ℕ} (block : b < 128 / len)
    (inside : p < len) : 2 * len * b + p + len < N := by
  have size := valid.size.1
  have whole : 2 * len * (b + 1) ≤ 2 * len * (128 / len) := Nat.mul_le_mul_left _ block
  rw [Nat.mul_succ, size] at whole
  omega

/-- Every coefficient is one of a pair. -/
theorem StageLen.pair_cases (valid : StageLen len) {c : ℕ} (inside : c < N) :
    ∃ b < 128 / len, ∃ p < len, c = 2 * len * b + p ∨ c = 2 * len * b + p + len := by
  have positive := valid.size.2
  have block : c / (2 * len) < 128 / len := by
    apply Nat.div_lt_of_lt_mul
    rw [valid.size.1]
    exact inside
  have digits := Nat.div_add_mod c (2 * len)
  have bounded := Nat.mod_lt c (show 0 < 2 * len by omega)
  by_cases low : c % (2 * len) < len
  · exact ⟨c / (2 * len), block, c % (2 * len), low, .inl digits.symm⟩
  · refine ⟨c / (2 * len), block, c % (2 * len) - len, by omega, .inr ?_⟩
    omega

theorem nttStage_splits (valid : StageLen len) (reduced : Reduced f) :
    Splits len (residues f) (residues (nttStage len f)) where
  lower := by
    intro b block p inside
    have bound := valid.pair_lt block inside
    rcases zetaFwd_spec (128 / len + b) with ⟨range, value⟩
    rw [residues, nttStage, (stage_pair _ inside).1,
      nttPair_eq range (reduced _ (by omega)) (reduced _ bound)]
    dsimp only
    rw [cast_emod, Int.cast_add, Int.cast_mul, value]
    rfl
  upper := by
    intro b block p inside
    have bound := valid.pair_lt block inside
    rcases zetaFwd_spec (128 / len + b) with ⟨range, value⟩
    rw [residues, nttStage, (stage_pair _ inside).2,
      nttPair_eq range (reduced _ (by omega)) (reduced _ bound)]
    dsimp only
    rw [cast_emod, Int.cast_sub, Int.cast_mul, value]
    rfl

end Stages

/-! ## Nodes -/

/-- The root that a node stands for. -/
def nodeRoot (k : ℕ) : Zq := if k % 2 = 1 then -twiddle (k / 2) else twiddle (k / 2)

theorem zeta_half : (ZETA : Zq) ^ 256 = -1 := by decide +kernel

theorem zeta_whole : (ZETA : Zq) ^ 512 = 1 := by
  have square : (512 : ℕ) = 256 * 2 := rfl
  rw [square, pow_mul, zeta_half]
  ring

/-- Powers with exponents that agree modulo 512. -/
theorem zeta_pow_congr {first second : ℕ} (same : first % 512 = second % 512) :
    (ZETA : Zq) ^ first = (ZETA : Zq) ^ second := by
  rw [← Nat.div_add_mod first 512, ← Nat.div_add_mod second 512, pow_add, pow_add, pow_mul,
    pow_mul, zeta_whole, one_pow, one_pow, same]

/-- A root as a power. -/
theorem nodeRoot_eq_pow (k : ℕ) :
    nodeRoot k = (ZETA : Zq) ^ (reverseBits (k / 2) + 256 * (k % 2)) := by
  rw [nodeRoot, pow_add, pow_mul, zeta_half]
  rcases Nat.mod_two_eq_zero_or_one k with even | odd
  · rw [even, if_neg (by decide), pow_zero, mul_one, twiddle]
  · rw [odd, if_pos rfl, pow_one, mul_neg, mul_one, twiddle]

/-- A twiddle is a square root of the root of its node. -/
theorem twiddle_square {k : ℕ} (positive : 0 < k) (small : k < 256) :
    twiddle k ^ 2 = nodeRoot k := by
  have halves : ∀ k < 256, 0 < k →
      (reverseBits k * 2) % 512 = (reverseBits (k / 2) + 256 * (k % 2)) % 512 := by
    decide +kernel
  rw [nodeRoot_eq_pow, twiddle, ← pow_mul]
  exact zeta_pow_congr (halves k small positive)

theorem nodeRoot_double (k : ℕ) : nodeRoot (2 * k) = twiddle k := by
  rw [nodeRoot, if_neg (by omega), Nat.mul_div_cancel_left _ (by decide)]

theorem nodeRoot_double_succ (k : ℕ) : nodeRoot (2 * k + 1) = -twiddle k := by
  have half : (2 * k + 1) / 2 = k := by omega
  rw [nodeRoot, if_pos (by omega), half]

/-- The roots of the leaves are odd powers. -/
theorem nodeRoot_leaf {i : ℕ} (inside : i < N) :
    nodeRoot (N + i) = (ZETA : Zq) ^ (2 * reverseBits i + 1) := by
  have leaves : ∀ i < N, (reverseBits ((N + i) / 2) + 256 * ((N + i) % 2)) % 512 =
      (2 * reverseBits i + 1) % 512 := by
    decide +kernel
  rw [nodeRoot_eq_pow]
  exact zeta_pow_congr (leaves i inside)

/-! ## Blocks -/

/-- The blocks before stage `s` hold a polynomial modulo the binomials of their nodes. -/
def Blocks (s : ℕ) (f x : ℕ → Zq) : Prop :=
  ∀ b < 2 ^ s, ∀ p < 2 ^ (8 - s), x (2 ^ (8 - s) * b + p) =
    ∑ t ∈ range (2 ^ s), f (p + t * 2 ^ (8 - s)) * nodeRoot (2 ^ s + b) ^ t

theorem sum_range_double (f : ℕ → Zq) (n : ℕ) :
    ∑ t ∈ range (2 * n), f t = ∑ t ∈ range n, (f (2 * t) + f (2 * t + 1)) := by
  induction n with
  | zero => rfl
  | succ n ih =>
      have double : 2 * (n + 1) = 2 * n + 1 + 1 := by ring
      rw [double, sum_range_succ, sum_range_succ, ih, sum_range_succ]
      ring

/-- A stage splits every block. -/
theorem Blocks.step {s : ℕ} (small : s < 8) {f x y : ℕ → Zq} (blocks : Blocks s f x)
    (splits : Splits (2 ^ (7 - s)) x y) : Blocks (s + 1) f y := by
  have size : 2 ^ (8 - s) = 2 * 2 ^ (7 - s) := by
    have next : 8 - s = 7 - s + 1 := by omega
    rw [next, pow_succ']
  have count : 128 / 2 ^ (7 - s) = 2 ^ s := by
    have whole : 128 = 2 ^ s * 2 ^ (7 - s) := by
      have total : s + (7 - s) = 7 := by omega
      rw [← pow_add, total]
      rfl
    conv_lhs => rw [whole]
    exact Nat.mul_div_cancel _ (Nat.two_pow_pos _)
  have rest : 8 - (s + 1) = 7 - s := by omega
  rcases splits with ⟨lower, upper⟩
  rw [count] at lower upper
  unfold Blocks at blocks ⊢
  rw [size] at blocks
  rw [rest]
  generalize 2 ^ (7 - s) = len at *
  intro child inside p offset
  have parent : child / 2 < 2 ^ s := by
    rw [pow_succ'] at inside
    omega
  have positive : 0 < 2 ^ s + child / 2 := by
    have := Nat.two_pow_pos s
    omega
  have bounded : 2 ^ s + child / 2 < 256 := by
    have power : 2 ^ s ≤ 2 ^ 7 := Nat.pow_le_pow_right (by decide) (by omega)
    omega
  have square := twiddle_square positive bounded
  have first := blocks (child / 2) parent p (by omega)
  have second := blocks (child / 2) parent (p + len) (by omega)
  rw [← Nat.add_assoc] at second
  rw [← square] at first second
  have even (t : ℕ) : p + 2 * t * len = p + t * (2 * len) := by ring
  have odd (t : ℕ) : p + (2 * t + 1) * len = p + len + t * (2 * len) := by ring
  -- the two signs of the twiddle are the roots of the two children
  have children (root : Zq) (same : root ^ 2 = twiddle (2 ^ s + child / 2) ^ 2) :
      ∑ t ∈ range (2 ^ (s + 1)), f (p + t * len) * root ^ t =
        x (2 * len * (child / 2) + p) + root * x (2 * len * (child / 2) + p + len) := by
    rw [pow_succ', sum_range_double, first, second, mul_sum, ← sum_add_distrib]
    apply sum_congr rfl
    intro t _
    rw [even, odd, pow_succ, pow_mul, same]
    ring
  rcases Nat.mod_two_eq_zero_or_one child with low | high
  · have place : len * child + p = 2 * len * (child / 2) + p := by
      have digits : child = 2 * (child / 2) := by omega
      conv_lhs => rw [digits]
      ring
    have node : 2 ^ (s + 1) + child = 2 * (2 ^ s + child / 2) := by
      rw [pow_succ']
      omega
    rw [place, node, nodeRoot_double, children _ rfl]
    exact lower (child / 2) parent p offset
  · have place : len * child + p = 2 * len * (child / 2) + p + len := by
      have digits : child = 2 * (child / 2) + 1 := by omega
      conv_lhs => rw [digits]
      ring
    have node : 2 ^ (s + 1) + child = 2 * (2 ^ s + child / 2) + 1 := by
      rw [pow_succ']
      omega
    rw [place, node, nodeRoot_double_succ, children _ (by ring)]
    exact (upper (child / 2) parent p offset).trans (by ring)

/-- One block of the size of the whole array. -/
theorem Blocks.start (f : ℕ → Zq) : Blocks 0 f f := by
  intro b block p _
  have first : b = 0 := by omega
  rw [first]
  simp

/-- Distance of stage `s`. -/
theorem stageLen_pow {s : ℕ} (small : s < 8) : StageLen (2 ^ (7 - s)) := by
  have all : ∀ s < 8, StageLen (2 ^ (7 - s)) := by decide
  exact all s small

theorem stages_blocks {f : Coeffs} (reduced : Reduced f) {s : ℕ} (small : s ≤ 8) :
    Reduced ((List.range s).foldl (fun f s => nttStage (2 ^ (7 - s)) f) f) ∧
      Blocks s (residues f)
        (residues ((List.range s).foldl (fun f s => nttStage (2 ^ (7 - s)) f) f)) := by
  induction s with
  | zero => exact ⟨reduced, Blocks.start _⟩
  | succ s ih =>
      rcases ih (by omega) with ⟨before, blocks⟩
      have valid := stageLen_pow (s := s) (by omega)
      rw [List.range_succ, List.foldl_append]
      exact ⟨before.stage nttPair_keepsRange valid,
        blocks.step (by omega) (nttStage_splits valid before)⟩

/-- The transform evaluates at the odd powers of `ZETA`. -/
theorem ntt_value {f : Coeffs} (reduced : Reduced f) {i : ℕ} (inside : i < N) :
    (ntt f i : Zq) = ∑ t ∈ range N, (f t : Zq) * ((ZETA : Zq) ^ (2 * reverseBits i + 1)) ^ t := by
  have blocks := (stages_blocks reduced (s := 8) le_rfl).2
  have value := blocks i inside 0 (by decide)
  have agree := ntt_agree f i inside
  have lens : [128, 64, 32, 16, 8, 4, 2, 1].foldl (fun f len => nttStage len f) f =
      (List.range 8).foldl (fun f s => nttStage (2 ^ (7 - s)) f) f := rfl
  rw [lens] at agree
  rw [agree, ← nodeRoot_leaf inside]
  simp only [Nat.sub_self, pow_zero, one_mul, add_zero, zero_add, mul_one] at value
  exact value

theorem ntt_reduced {f : Coeffs} (reduced : Reduced f) : Reduced (ntt f) := by
  intro c inside
  have lens : [128, 64, 32, 16, 8, 4, 2, 1].foldl (fun f len => nttStage len f) f =
      (List.range 8).foldl (fun f s => nttStage (2 ^ (7 - s)) f) f := rfl
  rw [ntt_agree f c inside, lens]
  exact (stages_blocks reduced (s := 8) le_rfl).1 c inside

/-! ## One transform after the other -/

section Inverse

variable {len : ℕ} {f g : Coeffs}

theorem nttInvStage_pair (valid : StageLen len) (reduced : Reduced f) {b p : ℕ}
    (block : b < 128 / len) (inside : p < len) :
    (nttInvStage len f (2 * len * b + p) : Zq) =
        f (2 * len * b + p) + f (2 * len * b + p + len) ∧
      (nttInvStage len f (2 * len * b + p + len) : Zq) =
        zetaInv (128 / len + b) * (f (2 * len * b + p) - f (2 * len * b + p + len)) := by
  have bound := valid.pair_lt block inside
  have range := (zetaInv_spec (128 / len + b)).1
  rw [nttInvStage, (stage_pair _ inside).1, (stage_pair _ inside).2,
    nttInvPair_eq range (reduced _ (by omega)) (reduced _ bound)]
  dsimp only
  rw [cast_emod, cast_emod, Int.cast_add, Int.cast_mul, Int.cast_sub]
  exact ⟨rfl, rfl⟩

theorem twiddle_mul_zetaInv (k : ℕ) : twiddle k * zetaInv k = 1 := by
  have bound := reverseBits_lt k
  rw [twiddle, (zetaInv_spec k).2, ← pow_add]
  exact (zeta_pow_congr (by omega : _ % 512 = 0 % 512)).trans (pow_zero _)

/-- Coefficients that are a multiple of others, as residues. -/
def Multiple (u : Zq) (g f : Coeffs) : Prop := ∀ c < N, (g c : Zq) = u * f c

/-- An inverse stage doubles what the forward stage started from. -/
theorem Multiple.undo (valid : StageLen len) (reduced : Reduced f) (reduced' : Reduced g) {u : Zq}
    (multiple : Multiple u g (nttStage len f)) : Multiple (2 * u) (nttInvStage len g) f := by
  intro c inside
  rcases valid.pair_cases inside with ⟨b, block, p, offset, place⟩
  have bound := valid.pair_lt block offset
  have splits := nttStage_splits valid reduced
  have low := multiple (2 * len * b + p) (by omega)
  have high := multiple (2 * len * b + p + len) bound
  have lower := splits.lower b block p offset
  have upper := splits.upper b block p offset
  have unit := twiddle_mul_zetaInv (128 / len + b)
  rcases nttInvStage_pair valid reduced' block offset with ⟨sum, difference⟩
  unfold residues at lower upper
  rw [lower] at low
  rw [upper] at high
  rcases place with rfl | rfl
  · rw [sum, low, high]
    ring
  · rw [difference, low, high]
    linear_combination 2 * u * (f (2 * len * b + p + len) : Zq) * unit

/-- A forward stage doubles what the inverse stage started from. -/
theorem Multiple.redo (valid : StageLen len) (reduced : Reduced f) (reduced' : Reduced g) {u : Zq}
    (multiple : Multiple u g (nttInvStage len f)) : Multiple (2 * u) (nttStage len g) f := by
  intro c inside
  rcases valid.pair_cases inside with ⟨b, block, p, offset, place⟩
  have bound := valid.pair_lt block offset
  have splits := nttStage_splits valid reduced'
  have low := multiple (2 * len * b + p) (by omega)
  have high := multiple (2 * len * b + p + len) bound
  have lower := splits.lower b block p offset
  have upper := splits.upper b block p offset
  have unit := twiddle_mul_zetaInv (128 / len + b)
  rcases nttInvStage_pair valid reduced block offset with ⟨sum, difference⟩
  unfold residues at lower upper
  rw [sum] at low
  rw [difference] at high
  rcases place with rfl | rfl
  · rw [lower, low, high]
    linear_combination
      u * ((f (2 * len * b + p) : Zq) - (f (2 * len * b + p + len) : Zq)) * unit
  · rw [upper, low, high]
    linear_combination
      u * ((f (2 * len * b + p + len) : Zq) - (f (2 * len * b + p) : Zq)) * unit

/-- Stages that undo others one by one undo a run of them in reverse order. -/
theorem Multiple.stages {forth back : ℕ → Coeffs → Coeffs}
    (undo : ∀ len, StageLen len → ∀ f g u, Reduced f → Reduced g → Multiple u g (forth len f) →
      Multiple (2 * u) (back len g) f)
    (forthKeeps : ∀ len, StageLen len → ∀ f, Reduced f → Reduced (forth len f))
    (backKeeps : ∀ len, StageLen len → ∀ f, Reduced f → Reduced (back len f)) {lens : List ℕ}
    (valid : ∀ len ∈ lens, StageLen len) (reduced : Reduced f) (reduced' : Reduced g) {u : Zq}
    (multiple : Multiple u g (lens.foldl (fun f len => forth len f) f)) :
    Reduced (lens.reverse.foldl (fun g len => back len g) g) ∧
      Multiple (2 ^ lens.length * u) (lens.reverse.foldl (fun g len => back len g) g) f := by
  induction lens generalizing f with
  | nil =>
      refine ⟨reduced', ?_⟩
      rw [List.length_nil, pow_zero, one_mul]
      exact multiple
  | cons len rest ih =>
      rw [List.forall_mem_cons] at valid
      rcases ih valid.2 (forthKeeps len valid.1 f reduced) multiple with ⟨before, doubled⟩
      rw [List.reverse_cons, List.foldl_append, List.length_cons, pow_succ', mul_assoc]
      exact ⟨backKeeps len valid.1 _ before, undo len valid.1 _ _ _ reduced before doubled⟩

theorem nttStage_keeps (len : ℕ) (valid : StageLen len) (f : Coeffs) (reduced : Reduced f) :
    Reduced (nttStage len f) := reduced.stage nttPair_keepsRange valid

theorem nttInvStage_keeps (len : ℕ) (valid : StageLen len) (f : Coeffs) (reduced : Reduced f) :
    Reduced (nttInvStage len f) := reduced.stage nttInvPair_keepsRange valid

theorem nInv_inRange : InRange N_INV := by decide

theorem nInv_scales : (2 : Zq) ^ 8 * N_INV = 1 := by decide

theorem stages_keep {stages : ℕ → Coeffs → Coeffs}
    (keeps : ∀ len, StageLen len → ∀ f, Reduced f → Reduced (stages len f)) {lens : List ℕ}
    (valid : ∀ len ∈ lens, StageLen len) (reduced : Reduced f) :
    Reduced (lens.foldl (fun f len => stages len f) f) := by
  induction lens generalizing f with
  | nil => exact reduced
  | cons len rest ih =>
      rw [List.forall_mem_cons] at valid
      exact ih valid.2 (keeps len valid.1 f reduced)

/-- The last loop scales by the inverse of 256. -/
theorem nttInv_spec (reduced : Reduced f) :
    Reduced (nttInv f) ∧
      Multiple N_INV (nttInv f)
        ([1, 2, 4, 8, 16, 32, 64, 128].foldl (fun f len => nttInvStage len f) f) := by
  have unscaled := stages_keep nttInvStage_keeps
    (by decide : ∀ len ∈ [1, 2, 4, 8, 16, 32, 64, 128], StageLen len) reduced
  have scaled (c : ℕ) (inside : c < N) : nttInv f c = nttInvUnscaled f c * N_INV % Q := by
    rw [nttInv, nttInvUnscaled_agree f c inside]
    exact mul_eq_emod (unscaled c inside) nInv_inRange
  constructor
  · intro c inside
    rw [scaled c inside]
    exact emod_inRange _
  · intro c inside
    rw [scaled c inside, cast_emod, Int.cast_mul, nttInvUnscaled_agree f c inside, mul_comm]

theorem nttInv_ntt (reduced : Reduced f) : Agree (nttInv (ntt f)) f := by
  have transformed := ntt_reduced reduced
  rcases nttInv_spec transformed with ⟨range, scaled⟩
  have start : Multiple 1 (ntt f)
      ([128, 64, 32, 16, 8, 4, 2, 1].foldl (fun f len => nttStage len f) f) := by
    intro c inside
    rw [ntt_agree f c inside, one_mul]
  have undone : Multiple (2 ^ 8 * 1)
      ([1, 2, 4, 8, 16, 32, 64, 128].foldl (fun f len => nttInvStage len f) (ntt f)) f :=
    (Multiple.stages (fun _ valid _ _ _ first second => Multiple.undo valid first second)
      nttStage_keeps nttInvStage_keeps (by decide) reduced transformed start).2
  intro c inside
  apply (range c inside).eq_of_cast (reduced c inside)
  rw [scaled c inside, undone c inside]
  linear_combination (f c : Zq) * nInv_scales

theorem ntt_nttInv (reduced : Reduced f) : Agree (ntt (nttInv f)) f := by
  rcases nttInv_spec reduced with ⟨range, scaled⟩
  have transformed := ntt_reduced range
  have redone : Multiple (2 ^ 8 * N_INV)
      ([128, 64, 32, 16, 8, 4, 2, 1].foldl (fun f len => nttStage len f) (nttInv f)) f :=
    (Multiple.stages (fun _ valid _ _ _ first second => Multiple.redo valid first second)
      nttInvStage_keeps nttStage_keeps (by decide) reduced range scaled).2
  intro c inside
  apply (transformed c inside).eq_of_cast (reduced c inside)
  rw [ntt_agree _ c inside, redone c inside]
  linear_combination (f c : Zq) * nInv_scales

end Inverse

end Mldsa
end QLSA
