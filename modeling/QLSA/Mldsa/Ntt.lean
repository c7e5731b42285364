import QLSA.Machine.InPlace
import QLSA.Mldsa.Field

namespace QLSA
namespace Mldsa

open Machine

/-!
# The number-theoretic transform

Both transforms run eight stages of 128 butterflies over an array of 256
coefficients, in place.  A stage touches every coefficient once, so its
butterflies act as if all at once; the loops are compared with this reading of
their stages.
-/

/-- An array of 256 coefficients; entries from 256 on play no part. -/
abbrev Coeffs := ℕ → ℤ

/-- The eight bits of a byte in reverse order. -/
def reverseBits (k : ℕ) : ℕ :=
  (List.range 8).foldl (fun reversed bit => 2 * reversed + k / 2 ^ bit % 2) 0

/-- Entry of the forward twiddle table. -/
def zetaFwd (k : ℕ) : ℤ := pow ZETA (reverseBits k)

/-- Entry of the inverse twiddle table. -/
def zetaInv (k : ℕ) : ℤ := pow ZETA ((512 - reverseBits k) % 512)

/-! ## The loops -/

/-- One pass of an inner loop: the twiddle number, the lower coefficient and its
distance to the upper one. -/
structure Butterfly where
  k : ℕ
  j : ℕ
  len : ℕ
deriving DecidableEq

/-- Values of `start` in a stage. -/
def starts (len : ℕ) : List ℕ := (List.range (N / (2 * len))).map (2 * len * ·)

/-- The passes of one inner loop. -/
def innerLoop (k len start : ℕ) : List Butterfly :=
  (List.range len).map fun i => ⟨k, start + i, len⟩

/-- The passes of `ntt`, in order; `k` counts the inner loops from one on. -/
def nttButterflies : List Butterfly :=
  let loops := [128, 64, 32, 16, 8, 4, 2, 1].flatMap fun len =>
    (starts len).map fun start => (len, start)
  (loops.zipIdx 1).flatMap fun ((len, start), k) => innerLoop k len start

/-- The passes of `ntt_inv`, in order; in each stage `k` counts from its own start. -/
def nttInvButterflies : List Butterfly :=
  [1, 2, 4, 8, 16, 32, 64, 128].flatMap fun len =>
    ((starts len).zipIdx (N / (2 * len))).flatMap fun (start, k) => innerLoop k len start

/-- New coefficients of a forward butterfly. -/
def nttPair (zeta fj fUpper : ℤ) : ℤ × ℤ :=
  let t := mul zeta fUpper
  let sum := fj + t
  let difference := fj - t
  (if Q ≤ sum then sum - Q else sum, if difference < 0 then difference + Q else difference)

/-- New coefficients of an inverse butterfly. -/
def nttInvPair (zeta t fUpper : ℤ) : ℤ × ℤ :=
  let sum := t + fUpper
  let difference := t - fUpper
  let diff := if difference < 0 then difference + Q else difference
  (if Q ≤ sum then sum - Q else sum, mul zeta diff)

/-- The update of a pass, by the pair of new coefficients for each twiddle number. -/
def Butterfly.update (pair : ℕ → ℤ → ℤ → ℤ × ℤ) (butterfly : Butterfly) : PairUpdate ℤ :=
  ⟨butterfly.j, butterfly.j + butterfly.len, pair butterfly.k⟩

def ntt (f : Coeffs) : Coeffs :=
  (nttButterflies.map (Butterfly.update fun k => nttPair (zetaFwd k))).foldl PairUpdate.run f

/-- `ntt_inv` before its last loop. -/
def nttInvUnscaled (f : Coeffs) : Coeffs :=
  (nttInvButterflies.map (Butterfly.update fun k => nttInvPair (zetaInv k))).foldl
    PairUpdate.run f

def nttInv (f : Coeffs) : Coeffs := fun i => mul (nttInvUnscaled f i) N_INV

/-! ## Stages -/

/-- The passes of one stage; the first twiddle number is the number of inner loops. -/
def stageButterflies (len : ℕ) : List Butterfly :=
  (List.range (128 / len)).flatMap fun block => innerLoop (128 / len + block) len (2 * len * block)

/-- The distances `len` of the eight stages. -/
def StageLen (len : ℕ) : Prop := len ∈ [1, 2, 4, 8, 16, 32, 64, 128]

instance (len : ℕ) : Decidable (StageLen len) := inferInstanceAs (Decidable (_ ∈ _))

theorem nttButterflies_eq :
    nttButterflies = [128, 64, 32, 16, 8, 4, 2, 1].flatMap stageButterflies := by
  decide +kernel

theorem nttInvButterflies_eq :
    nttInvButterflies = [1, 2, 4, 8, 16, 32, 64, 128].flatMap stageButterflies := by
  decide +kernel

/-- What a stage writes to a coefficient: the lower or upper half of the pair of
its block. -/
def stage (pair : ℕ → ℤ → ℤ → ℤ × ℤ) (len : ℕ) (f : Coeffs) : Coeffs := fun c =>
  if c % (2 * len) < len then (pair (128 / len + c / (2 * len)) (f c) (f (c + len))).1
  else (pair (128 / len + c / (2 * len)) (f (c - len)) (f c)).2

def nttStage (len : ℕ) (f : Coeffs) : Coeffs := stage (fun k => nttPair (zetaFwd k)) len f

def nttInvStage (len : ℕ) (f : Coeffs) : Coeffs := stage (fun k => nttInvPair (zetaInv k)) len f

theorem StageLen.size {len : ℕ} (valid : StageLen len) : 2 * len * (128 / len) = N ∧ 0 < len := by
  have all : ∀ len ∈ [1, 2, 4, 8, 16, 32, 64, 128], 2 * len * (128 / len) = N ∧ 0 < len := by
    decide
  exact all len valid

/-- The pass of a stage on a lower coefficient. -/
theorem mem_stageButterflies {len c : ℕ} (valid : StageLen len) (inside : c < N)
    (lower : c % (2 * len) < len) :
    (⟨128 / len + c / (2 * len), c, len⟩ : Butterfly) ∈ stageButterflies len := by
  have block : c / (2 * len) < 128 / len := by
    apply Nat.div_lt_of_lt_mul
    rw [valid.size.1]
    exact inside
  have place : 2 * len * (c / (2 * len)) + c % (2 * len) = c := Nat.div_add_mod c (2 * len)
  simp only [stageButterflies, innerLoop, List.mem_flatMap, List.mem_map, List.mem_range]
  exact ⟨c / (2 * len), block, c % (2 * len), lower, by rw [place]⟩

theorem cellsOf_update (pair : ℕ → ℤ → ℤ → ℤ × ℤ) (passes : List Butterfly) :
    PairUpdate.cellsOf (passes.map (Butterfly.update pair)) =
      passes.flatMap fun butterfly => [butterfly.j, butterfly.j + butterfly.len] := by
  rw [PairUpdate.cellsOf, List.flatMap_map]
  rfl

/-- Cells of an inner loop lie in its block. -/
theorem mem_innerLoop_cells {k len start cell : ℕ}
    (member : cell ∈ (innerLoop k len start).flatMap fun butterfly =>
      [butterfly.j, butterfly.j + butterfly.len]) : start ≤ cell ∧ cell < start + 2 * len := by
  simp only [innerLoop, List.mem_flatMap, List.mem_map, List.mem_range] at member
  rcases member with ⟨pass, ⟨i, bound, rfl⟩, own⟩
  simp only [List.mem_cons, List.not_mem_nil, or_false] at own
  omega

theorem innerLoop_cells_nodup (k start : ℕ) {len : ℕ} (positive : 0 < len) :
    ((innerLoop k len start).flatMap fun butterfly =>
      [butterfly.j, butterfly.j + butterfly.len]).Nodup := by
  rw [innerLoop, List.flatMap_map, List.nodup_flatMap]
  constructor
  · intro i _
    simp
    omega
  · apply List.pairwise_lt_range.imp_of_mem
    intro i other first second order
    have bound := List.mem_range.mp second
    intro cell own others
    simp only [List.mem_cons, List.not_mem_nil, or_false] at own others
    omega

theorem stageButterflies_cells {len : ℕ} (positive : 0 < len) :
    ((stageButterflies len).flatMap fun butterfly =>
      [butterfly.j, butterfly.j + butterfly.len]).Nodup := by
  rw [stageButterflies, List.flatMap_assoc, List.nodup_flatMap]
  constructor
  · intro block _
    exact innerLoop_cells_nodup _ _ positive
  · apply List.pairwise_lt_range.imp
    intro block later order cell own others
    have first := mem_innerLoop_cells own
    have second := mem_innerLoop_cells others
    have apart : 2 * len * (block + 1) ≤ 2 * len * later := Nat.mul_le_mul_left _ order
    rw [Nat.mul_succ] at apart
    omega

theorem stage_disjoint (pair : ℕ → ℤ → ℤ → ℤ × ℤ) {len : ℕ} (valid : StageLen len) :
    (PairUpdate.cellsOf ((stageButterflies len).map (Butterfly.update pair))).Nodup := by
  rw [cellsOf_update]
  exact stageButterflies_cells valid.size.2

/-- The passes of a stage act as the stage does on all coefficients at once. -/
theorem foldl_stage (pair : ℕ → ℤ → ℤ → ℤ × ℤ) {len : ℕ} (valid : StageLen len) (f : Coeffs)
    {c : ℕ} (inside : c < N) :
    ((stageButterflies len).map (Butterfly.update pair)).foldl PairUpdate.run f c =
      stage pair len f c := by
  have disjoint := stage_disjoint pair valid
  have positive := valid.size.2
  unfold stage
  split
  case isTrue lower =>
    have member := List.mem_map_of_mem (f := Butterfly.update pair)
      (mem_stageButterflies valid inside lower)
    exact (PairUpdate.foldl_run disjoint member).1
  case isFalse upper =>
    have partner : c - len + len = c := by
      apply Nat.sub_add_cancel
      exact le_trans (Nat.le_of_not_lt upper) (Nat.mod_le _ _)
    have digits := Nat.div_add_mod c (2 * len)
    have bounded := Nat.mod_lt c (show 0 < 2 * len by omega)
    have below : c - len = 2 * len * (c / (2 * len)) + (c % (2 * len) - len) := by
      omega
    have small : c % (2 * len) - len < 2 * len := by
      omega
    have remainder : (c - len) % (2 * len) = c % (2 * len) - len := by
      rw [below, Nat.mul_add_mod, Nat.mod_eq_of_lt small]
    have quotient : (c - len) / (2 * len) = c / (2 * len) := by
      rw [below, Nat.mul_add_div (by omega), Nat.div_eq_of_lt small, add_zero]
    have member := List.mem_map_of_mem (f := Butterfly.update pair)
      (mem_stageButterflies valid (show c - len < N by omega) (by rw [remainder]; omega))
    have written := (@PairUpdate.foldl_run ℤ _ f _ disjoint member).2
    simp only [Butterfly.update, PairUpdate.result, partner, quotient] at written
    exact written

/-- Two arrays with the same 256 coefficients. -/
def Agree (f g : Coeffs) : Prop := ∀ c < N, f c = g c

theorem StageLen.upper_lt {len c : ℕ} (valid : StageLen len) (inside : c < N)
    (lower : c % (2 * len) < len) : c + len < N := by
  have size := valid.size.1
  have digits := Nat.div_add_mod c (2 * len)
  have block : c / (2 * len) < 128 / len := by
    apply Nat.div_lt_of_lt_mul
    rw [size]
    exact inside
  have whole : 2 * len * (c / (2 * len) + 1) ≤ 2 * len * (128 / len) :=
    Nat.mul_le_mul_left _ block
  rw [Nat.mul_succ, size] at whole
  omega

/-- A stage reads nothing but the 256 coefficients. -/
theorem Agree.stage {pair : ℕ → ℤ → ℤ → ℤ × ℤ} {len : ℕ} (valid : StageLen len) {f g : Coeffs}
    (same : Agree f g) : Agree (stage pair len f) (stage pair len g) := by
  intro c inside
  unfold Mldsa.stage
  split
  case isTrue lower => rw [same c inside, same _ (valid.upper_lt inside lower)]
  case isFalse => rw [same c inside, same (c - len) (by omega)]

theorem Agree.stages {pair : ℕ → ℤ → ℤ → ℤ × ℤ} {lens : List ℕ}
    (valid : ∀ len ∈ lens, StageLen len) {f g : Coeffs} (same : Agree f g) :
    Agree (lens.foldl (fun f len => Mldsa.stage pair len f) f)
      (lens.foldl (fun f len => Mldsa.stage pair len f) g) := by
  induction lens generalizing f g with
  | nil => exact same
  | cons len rest ih =>
      exact ih (fun other member => valid other (List.mem_cons_of_mem _ member))
        (same.stage (valid len List.mem_cons_self))

/-- A run of the loops is a run of the stages. -/
theorem foldl_stages (pair : ℕ → ℤ → ℤ → ℤ × ℤ) {lens : List ℕ}
    (valid : ∀ len ∈ lens, StageLen len) (f : Coeffs) :
    Agree (((lens.flatMap stageButterflies).map (Butterfly.update pair)).foldl PairUpdate.run f)
      (lens.foldl (fun f len => stage pair len f) f) := by
  induction lens generalizing f with
  | nil => exact fun _ _ => rfl
  | cons len rest ih =>
      have others := fun other member => valid other (List.mem_cons_of_mem _ member)
      have first : Agree (((stageButterflies len).map (Butterfly.update pair)).foldl
          PairUpdate.run f) (stage pair len f) := fun c inside =>
        foldl_stage pair (valid len List.mem_cons_self) f inside
      intro c inside
      rw [List.flatMap_cons, List.map_append, List.foldl_append, List.foldl_cons,
        ih others _ c inside]
      exact first.stages others c inside

theorem ntt_agree (f : Coeffs) :
    Agree (ntt f) ([128, 64, 32, 16, 8, 4, 2, 1].foldl (fun f len => nttStage len f) f) := by
  unfold ntt
  rw [nttButterflies_eq]
  exact foldl_stages _ (by decide) f

theorem nttInvUnscaled_agree (f : Coeffs) :
    Agree (nttInvUnscaled f)
      ([1, 2, 4, 8, 16, 32, 64, 128].foldl (fun f len => nttInvStage len f) f) := by
  unfold nttInvUnscaled
  rw [nttInvButterflies_eq]
  exact foldl_stages _ (by decide) f

/-! ## Values -/

theorem reverseBits_lt (k : ℕ) : reverseBits k < 256 := by
  have bit : ∀ i, k / 2 ^ i % 2 < 2 := fun i => Nat.mod_lt _ (by decide)
  have b0 := bit 0
  have b1 := bit 1
  have b2 := bit 2
  have b3 := bit 3
  have b4 := bit 4
  have b5 := bit 5
  have b6 := bit 6
  have b7 := bit 7
  simp only [reverseBits, List.range, List.range.loop, List.foldl_cons, List.foldl_nil]
  omega

theorem zetaFwd_spec (k : ℕ) :
    InRange (zetaFwd k) ∧ (zetaFwd k : Zq) = (ZETA : Zq) ^ reverseBits k :=
  pow_spec ZETA (lt_trans (reverseBits_lt k) (by decide))

theorem zetaInv_spec (k : ℕ) :
    InRange (zetaInv k) ∧ (zetaInv k : Zq) = (ZETA : Zq) ^ ((512 - reverseBits k) % 512) :=
  pow_spec ZETA (lt_trans (Nat.mod_lt _ (by decide)) (by decide))

section Pairs

variable {zeta a b : ℤ} (zetaRange : InRange zeta) (first : InRange a) (second : InRange b)
include zetaRange first second

theorem nttPair_eq : nttPair zeta a b = ((a + zeta * b) % Q, (a - zeta * b) % Q) := by
  have product := mul_eq_emod zetaRange second
  have range := emod_inRange (zeta * b)
  have sum := add_eq_emod first range
  have difference := sub_eq_emod first range
  have pair : nttPair zeta a b = (add a (zeta * b % Q), sub a (zeta * b % Q)) := by
    rw [nttPair, product]
    rfl
  rw [pair, sum, difference, Int.add_emod_emod, Int.sub_emod_emod]

theorem nttInvPair_eq : nttInvPair zeta a b = ((a + b) % Q, zeta * (a - b) % Q) := by
  have sum := add_eq_emod first second
  have difference := sub_eq_emod first second
  have pair : nttInvPair zeta a b = (add a b, mul zeta (sub a b)) := rfl
  rw [pair, sum, difference, mul_eq_emod zetaRange (emod_inRange _),
    Int.mul_emod, Int.emod_emod_of_dvd _ dvd_rfl, ← Int.mul_emod]

end Pairs

/-- A pair that keeps representatives. -/
def KeepsRange (pair : ℕ → ℤ → ℤ → ℤ × ℤ) : Prop :=
  ∀ k a b, InRange a → InRange b → InRange (pair k a b).1 ∧ InRange (pair k a b).2

theorem nttPair_keepsRange : KeepsRange fun k => nttPair (zetaFwd k) := by
  intro k a b first second
  dsimp only
  rw [nttPair_eq (zetaFwd_spec k).1 first second]
  exact ⟨emod_inRange _, emod_inRange _⟩

theorem nttInvPair_keepsRange : KeepsRange fun k => nttInvPair (zetaInv k) := by
  intro k a b first second
  dsimp only
  rw [nttInvPair_eq (zetaInv_spec k).1 first second]
  exact ⟨emod_inRange _, emod_inRange _⟩

/-- An array of representatives. -/
def Reduced (f : Coeffs) : Prop := ∀ c < N, InRange (f c)

theorem Reduced.stage {pair : ℕ → ℤ → ℤ → ℤ × ℤ} (keeps : KeepsRange pair) {len : ℕ}
    (valid : StageLen len) {f : Coeffs} (reduced : Reduced f) : Reduced (stage pair len f) := by
  intro c inside
  unfold Mldsa.stage
  split
  case isTrue lower =>
    exact (keeps _ _ _ (reduced c inside) (reduced _ (valid.upper_lt inside lower))).1
  case isFalse => exact (keeps _ _ _ (reduced (c - len) (by omega)) (reduced c inside)).2

end Mldsa
end QLSA
