import QLSA.Vfri2.Geometry
import Mathlib.LinearAlgebra.Lagrange

namespace QLSA
namespace Vfri2

open Mersenne Hash
open Polynomial (eval eval₂)

/-!
# Barycentric evaluation

Columns are values of a polynomial over the base field, evaluated at a point of
the extension.  Off the nodes the value is a quotient of two weighted sums, and
the lower one is the reciprocal of the nodal polynomial's value, so it is not
zero.  A point that is a node ends the loop early with the value there.
-/

/-! ## Interpolation along an embedding -/

section Interpolation

variable {ι F K : Type*} [DecidableEq ι] [Field F] [Field K] (φ : F →+* K)
variable {s : Finset ι} {v r : ι → F} {p : Polynomial F} {z : K}

theorem map_nodalWeight (i : ι) :
    φ (Lagrange.nodalWeight s v i) = Lagrange.nodalWeight s (φ ∘ v) i := by
  simp only [Lagrange.nodalWeight, map_prod, map_inv₀, map_sub, Function.comp_apply]

/-- In the larger field the polynomial interpolates the embedded values. -/
theorem map_eq_interpolate (distinct : Set.InjOn v s) (low : p.degree < s.card)
    (values : ∀ i ∈ s, eval (v i) p = r i) :
    p.map φ = Lagrange.interpolate s (φ ∘ v) (φ ∘ r) := by
  apply Lagrange.eq_interpolate_of_eval_eq _ (φ.injective.injOn.comp distinct (Set.mapsTo_univ _ _))
  · rwa [Polynomial.degree_map]
  · intro i inside
    rw [Function.comp_apply, Polynomial.eval_map, Polynomial.eval₂_at_apply, values i inside,
      Function.comp_apply]

/-- The quotient of the weighted sums off the nodes, with its denominator. -/
theorem eval_barycentric (distinct : Set.InjOn v s) (nonempty : s.Nonempty)
    (low : p.degree < s.card) (values : ∀ i ∈ s, eval (v i) p = r i)
    (apart : ∀ i ∈ s, z ≠ φ (v i)) :
    (∑ i ∈ s, φ (Lagrange.nodalWeight s v i) * (z - φ (v i))⁻¹) ≠ 0 ∧
      eval₂ φ z p =
        (∑ i ∈ s, φ (Lagrange.nodalWeight s v i) * (z - φ (v i))⁻¹ * φ (r i)) /
          ∑ i ∈ s, φ (Lagrange.nodalWeight s v i) * (z - φ (v i))⁻¹ := by
  have embedded : Set.InjOn (φ ∘ v) s := φ.injective.injOn.comp distinct (Set.mapsTo_univ _ _)
  simp only [map_nodalWeight]
  constructor
  · exact Lagrange.sum_nodalWeight_mul_inv_sub_ne_zero embedded apart nonempty
  · rw [← Polynomial.eval_map, map_eq_interpolate φ distinct low values,
      Lagrange.eval_interpolate_not_at_node' _ embedded nonempty apart]
    rfl

end Interpolation

/-! ## The sums of the loop -/

/-- The two sums that the loop of `eval_bary` divides, unless it returns before. -/
def barySums (z : ℕ) : List (ℕ × ℕ × ℕ) → ℕ → ℕ → Option (ℕ × ℕ)
  | [], num, den => some (num, den)
  | (val, x, weight) :: rest, num, den =>
      let zi := qm31SubM31 z x
      if zi = 0 then none
      else
        let wiInv := qm31MulM31 (qm31Inv zi) weight
        barySums z rest (qm31Add num (qm31MulM31 wiInv val)) (qm31Add den wiInv)

theorem baryLoop_of_sums {z : ℕ} {list : List (ℕ × ℕ × ℕ)} {num den num' den' : ℕ}
    (reached : barySums z list num den = some (num', den')) :
    baryLoop z list num den = qm31Div num' den' := by
  induction list generalizing num den with
  | nil =>
      cases reached
      rfl
  | cons triple rest ih =>
      rcases triple with ⟨val, x, weight⟩
      rw [barySums] at reached
      dsimp only at reached
      split at reached
      case isTrue => cases reached
      case isFalse apart =>
        rw [baryLoop]
        dsimp only
        rw [if_neg apart, ih reached]

/-! ## Fields of words -/

/-- Elements of a field as words that the routines of the extension compute
with; the field extends the base field. -/
structure WordArithmetic {K : Type*} [Field K] (φ : M31 →+* K) (word : K → ℕ) : Prop where
  zero : word 0 = 0
  injective : Function.Injective word
  add : ∀ x y, qm31Add (word x) (word y) = word (x + y)
  inv : ∀ x, qm31Inv (word x) = word x⁻¹
  div : ∀ x y, qm31Div (word x) (word y) = word (x / y)
  fromM31 : ∀ a : M31, qm31FromM31 a.val = word (φ a)
  subM31 : ∀ x (a : M31), qm31SubM31 (word x) a.val = word (x - φ a)
  mulM31 : ∀ x (a : M31), qm31MulM31 (word x) a.val = word (x * φ a)

/-- The base field in the quartic extension. -/
def baseHom : M31 →+* QM31 := (algebraMap CM31 QM31).comp (algebraMap M31 CM31)

theorem qm31SubM31_word (q : QM31) (a : M31) :
    qm31SubM31 (qm31Word q) a.val = qm31Word (q - baseHom a) := by
  rw [qm31SubM31, qm31FromM31_word, qm31Sub_word]
  rfl

theorem qm31_wordArithmetic : WordArithmetic baseHom qm31Word where
  zero := rfl
  injective := qm31Word_injective
  add := qm31Add_word
  inv := qm31Inv_word
  div := qm31Div_word
  fromM31 := qm31FromM31_word
  subM31 := qm31SubM31_word
  mulM31 := qm31ScaleM31_word

/-! ## The loop on words -/

/-- Entry of a column. -/
def entry (list : List M31) (i : ℕ) : M31 := list.getD i 0

section Nodes

variable {K : Type*} [Field K] {φ : M31 →+* K} {word : K → ℕ} {xs vals : List M31}

theorem entry_eq {list : List M31} {i : ℕ} (inside : i < list.length) : entry list i = list[i] := by
  rw [entry, List.getD_eq_getElem?_getD, List.getElem?_eq_getElem inside, Option.getD_some]

theorem entry_injOn (distinct : xs.Nodup) : Set.InjOn (entry xs) (Finset.range xs.length) := by
  intro i inside j within same
  have first : i < xs.length := Finset.mem_range.mp inside
  have second : j < xs.length := Finset.mem_range.mp within
  rw [entry_eq first, entry_eq second] at same
  exact (distinct.getElem_inj_iff).mp same

/-- The inner loop multiplies the differences to the other nodes. -/
theorem baryProduct_val {xi : M31} {i j : ℕ} {rest : List M31}
    (apart : ∀ k < rest.length, j + k ≠ i → xi ≠ entry rest k) (prod : M31) :
    baryProduct xi.val i j (rest.map ZMod.val) prod.val =
      (prod * ((List.range rest.length).map fun k =>
        if j + k = i then 1 else xi - entry rest k).prod).val := by
  induction rest generalizing j prod with
  | nil => rw [List.map_nil, baryProduct, List.length_nil, List.range_zero, List.map_nil,
      List.prod_nil, mul_one]
  | cons x rest ih =>
      have later (prod : M31) := @ih (j + 1) (by
        intro k inside other
        exact apart (k + 1) (Nat.succ_lt_succ inside) (by omega)) prod
      have shifted (k : ℕ) : j + 1 + k = j + (k + 1) := by omega
      have head : entry (x :: rest) 0 = x := rfl
      have tail (k : ℕ) : entry (x :: rest) (k + 1) = entry rest k := rfl
      rw [List.map_cons, baryProduct, List.length_cons, List.range_succ_eq_map, List.map_cons,
        List.prod_cons, List.map_map]
      simp only [Function.comp_def, Nat.succ_eq_add_one, tail, head, Nat.add_zero]
      simp only [shifted] at later
      by_cases own : j = i
      · rw [if_pos own, if_pos own, one_mul, later]
      · have different : xi - x ≠ 0 := sub_ne_zero.mpr (apart 0 (Nat.succ_pos _) own)
        rw [if_neg own, if_neg own, m31Sub_val,
          if_neg (mt (ZMod.val_eq_zero _).mp different), m31Mul_val, later, mul_assoc]

/-- The precomputed weights are those of the nodal polynomial. -/
theorem precomputeBaryWeights_val (distinct : xs.Nodup) :
    precomputeBaryWeights (xs.map ZMod.val) = (List.range xs.length).map fun i =>
      (Lagrange.nodalWeight (Finset.range xs.length) (entry xs) i).val := by
  have injective := entry_injOn distinct
  apply List.ext_getElem
  · rw [precomputeBaryWeights, List.length_mapIdx, List.length_map, List.length_map,
      List.length_range]
  · intro i first second
    have inside : i < xs.length := by simpa using second
    have apart : ∀ k < xs.length, 0 + k ≠ i → xs[i] ≠ entry xs k := by
      intro k within other same
      rw [← entry_eq inside] at same
      have equal := injective (Finset.mem_range.mpr inside) (Finset.mem_range.mpr within) same
      omega
    have product := baryProduct_val apart 1
    have others : ((List.range xs.length).map fun k =>
        if 0 + k = i then 1 else xs[i] - entry xs k).prod =
        ∏ k ∈ (Finset.range xs.length).erase i, (entry xs i - entry xs k) := by
      calc
        _ = ∏ k ∈ Finset.range xs.length, (if 0 + k = i then 1 else xs[i] - entry xs k) := rfl
        _ = ∏ k ∈ (Finset.range xs.length).erase i,
            (if 0 + k = i then 1 else xs[i] - entry xs k) :=
          (Finset.prod_erase (f := fun k => if 0 + k = i then 1 else xs[i] - entry xs k) _
            (if_pos (Nat.zero_add i))).symm
        _ = _ := Finset.prod_congr rfl fun k member => by
          rw [Nat.zero_add, if_neg (Finset.ne_of_mem_erase member), entry_eq inside]
    have weight : Lagrange.nodalWeight (Finset.range xs.length) (entry xs) i =
        (∏ k ∈ (Finset.range xs.length).erase i, (entry xs i - entry xs k))⁻¹ := by
      rw [Lagrange.nodalWeight, Finset.prod_inv_distrib]
    rw [ZMod.val_one P, one_mul, others] at product
    simp only [precomputeBaryWeights, List.getElem_mapIdx, List.getElem_map, List.getElem_range,
      product, weight]
    generalize ∏ k ∈ (Finset.range xs.length).erase i, (entry xs i - entry xs k) = prod
    by_cases zero : prod = 0
    · rw [if_pos ((ZMod.val_eq_zero prod).mpr zero), zero, inv_zero, ZMod.val_zero]
    · rw [if_neg (mt (ZMod.val_eq_zero prod).mp zero), m31Inv_val]

/-- The weight of a node over its distance from the point. -/
def share (φ : M31 →+* K) (xs : List M31) (z : K) (i : ℕ) : K :=
  φ (Lagrange.nodalWeight (Finset.range xs.length) (entry xs) i) * (z - φ (entry xs i))⁻¹

/-- What the loop reads at a position. -/
def triple (xs vals : List M31) (i : ℕ) : ℕ × ℕ × ℕ :=
  ((entry vals i).val, (entry xs i).val,
    (Lagrange.nodalWeight (Finset.range xs.length) (entry xs) i).val)

theorem zip_triples (distinct : xs.Nodup) (lengths : vals.length = xs.length) :
    (vals.map ZMod.val).zip ((xs.map ZMod.val).zip (precomputeBaryWeights (xs.map ZMod.val))) =
      (List.range xs.length).map (triple xs vals) := by
  rw [precomputeBaryWeights_val distinct]
  apply List.ext_getElem
  · simp [lengths]
  · intro i first second
    have inside : i < xs.length := by simpa using second
    have within : i < vals.length := lengths ▸ inside
    simp [triple, entry_eq inside, entry_eq within]

section Loop

variable (arithmetic : WordArithmetic φ word) {z : K} {rest : List ℕ}

include arithmetic

theorem WordArithmetic.word_eq_zero {x : K} : word x = 0 ↔ x = 0 :=
  arithmetic.injective.eq_iff' arithmetic.zero

theorem WordArithmetic.sub_word_eq_zero {a : M31} :
    qm31SubM31 (word z) a.val = 0 ↔ z = φ a := by
  rw [arithmetic.subM31, arithmetic.word_eq_zero, sub_eq_zero]

/-- A loop that meets a node returns the value there. -/
theorem baryLoop_node (vals : List M31) (num den : K)
    (node : ∃ i ∈ rest, z = φ (entry xs i)) :
    ∃ i ∈ rest, z = φ (entry xs i) ∧
      baryLoop (word z) (rest.map (triple xs vals)) (word num) (word den) =
        word (φ (entry vals i)) := by
  induction rest generalizing num den with
  | nil => exact absurd node.choose_spec.1 List.not_mem_nil
  | cons i rest ih =>
      have zi := arithmetic.sub_word_eq_zero (z := z) (a := entry xs i)
      rw [List.map_cons, triple, baryLoop]
      dsimp only
      by_cases own : z = φ (entry xs i)
      · refine ⟨i, List.mem_cons_self, own, ?_⟩
        rw [if_pos (zi.mpr own), arithmetic.fromM31]
      · have later : ∃ k ∈ rest, z = φ (entry xs k) := by
          rcases node with ⟨k, member, equal⟩
          rcases List.mem_cons.mp member with rfl | other
          · exact absurd equal own
          · exact ⟨k, other, equal⟩
        rw [if_neg (mt zi.mp own), arithmetic.subM31, arithmetic.inv, arithmetic.mulM31,
          arithmetic.mulM31, arithmetic.add, arithmetic.add]
        rcases ih _ _ later with ⟨k, member, equal, returned⟩
        exact ⟨k, List.mem_cons_of_mem i member, equal, returned⟩

/-- Off the nodes the loop adds up all terms. -/
theorem barySums_word (vals : List M31) (num den : K)
    (apart : ∀ i ∈ rest, z ≠ φ (entry xs i)) :
    barySums (word z) (rest.map (triple xs vals)) (word num) (word den) =
      some (word (num + (rest.map fun i => share φ xs z i * φ (entry vals i)).sum),
        word (den + (rest.map (share φ xs z)).sum)) := by
  induction rest generalizing num den with
  | nil => simp only [barySums, List.map_nil, List.sum_nil, add_zero]
  | cons i rest ih =>
      have own : (z - φ (entry xs i))⁻¹ *
          φ (Lagrange.nodalWeight (Finset.range xs.length) (entry xs) i) = share φ xs z i :=
        mul_comm _ _
      have different := mt (arithmetic.sub_word_eq_zero (z := z)).mp (apart i List.mem_cons_self)
      rw [List.map_cons, triple, barySums]
      dsimp only
      rw [if_neg different, arithmetic.subM31, arithmetic.inv, arithmetic.mulM31, own,
        arithmetic.mulM31, arithmetic.add, arithmetic.add]
      have later := ih (num + share φ xs z i * φ (entry vals i)) (den + share φ xs z i)
        fun k member => apart k (List.mem_cons_of_mem i member)
      rw [later, List.map_cons, List.map_cons, List.sum_cons, List.sum_cons, add_assoc, add_assoc]

end Loop

end Nodes

/-! ## Evaluation is interpolation -/

/-- Distinct nodes with as many values. -/
structure Samples (xs vals : List M31) : Prop where
  nonempty : xs ≠ []
  distinct : xs.Nodup
  lengths : vals.length = xs.length

/-- A polynomial of low degree through the samples. -/
structure Through (xs vals : List M31) (p : Polynomial M31) : Prop where
  low : p.degree < xs.length
  through : ∀ i < xs.length, eval (entry xs i) p = entry vals i

/-- What an evaluation returns, and that off the nodes it divides by a sum other
than zero. -/
structure Evaluates {K : Type*} [Field K] (φ : M31 →+* K) (word : K → ℕ) (xs vals : List M31)
    (z : K) (p : Polynomial M31) : Prop where
  result : evalBary (vals.map ZMod.val) (xs.map ZMod.val)
    (precomputeBaryWeights (xs.map ZMod.val)) (word z) = word (eval₂ φ z p)
  denominator : (∀ i < xs.length, z ≠ φ (entry xs i)) → ∃ num den, den ≠ 0 ∧
    barySums (word z) ((vals.map ZMod.val).zip ((xs.map ZMod.val).zip
      (precomputeBaryWeights (xs.map ZMod.val)))) 0 0 = some (num, den)

section Evaluation

variable {K : Type*} [Field K] {φ : M31 →+* K} {word : K → ℕ} {xs vals : List M31}

theorem Samples.exists_unique (samples : Samples xs vals) : ∃! p, Through xs vals p := by
  have distinct := entry_injOn samples.distinct
  have unique (p : Polynomial M31) := Lagrange.eq_interpolate_iff (entry vals) (f := p) distinct
  simp only [Finset.card_range, Finset.mem_range] at unique
  refine ⟨Lagrange.interpolate (Finset.range xs.length) (entry xs) (entry vals), ?_, ?_⟩
  · rcases (unique _).mpr rfl with ⟨low, through⟩
    exact ⟨low, through⟩
  · intro p holds
    exact (unique p).mp ⟨holds.low, holds.through⟩

theorem Samples.barycentric (samples : Samples xs vals) {p : Polynomial M31}
    (holds : Through xs vals p) {z : K} (off : ∀ i < xs.length, z ≠ φ (entry xs i)) :
    (∑ i ∈ Finset.range xs.length, share φ xs z i) ≠ 0 ∧
      eval₂ φ z p =
        (∑ i ∈ Finset.range xs.length, share φ xs z i * φ (entry vals i)) /
          ∑ i ∈ Finset.range xs.length, share φ xs z i := by
  have filled : (Finset.range xs.length).Nonempty :=
    Finset.nonempty_range_iff.mpr (mt List.length_eq_zero_iff.mp samples.nonempty)
  have low : p.degree < (Finset.range xs.length).card := by
    rw [Finset.card_range]
    exact holds.low
  have through : ∀ i ∈ Finset.range xs.length, eval (entry xs i) p = entry vals i :=
    fun i member => holds.through i (Finset.mem_range.mp member)
  have apart : ∀ i ∈ Finset.range xs.length, z ≠ φ (entry xs i) :=
    fun i member => off i (Finset.mem_range.mp member)
  exact eval_barycentric φ (entry_injOn samples.distinct) filled low through apart

theorem evalBary_word (arithmetic : WordArithmetic φ word) (samples : Samples xs vals)
    {p : Polynomial M31} (holds : Through xs vals p) (z : K) :
    Evaluates φ word xs vals z p := by
  have triples := zip_triples samples.distinct samples.lengths
  by_cases node : ∃ i ∈ List.range xs.length, z = φ (entry xs i)
  · rcases baryLoop_node arithmetic vals 0 0 node with ⟨i, member, equal, returned⟩
    rw [arithmetic.zero] at returned
    have inside := List.mem_range.mp member
    constructor
    · rw [evalBary, triples, returned, equal, Polynomial.eval₂_at_apply, holds.through i inside]
    · intro off
      exact absurd equal (off i inside)
  · have off : ∀ i < xs.length, z ≠ φ (entry xs i) :=
      fun i inside equal => node ⟨i, List.mem_range.mpr inside, equal⟩
    have apart : ∀ i ∈ List.range xs.length, z ≠ φ (entry xs i) :=
      fun i member => off i (List.mem_range.mp member)
    have sums := barySums_word arithmetic vals 0 0 apart
    rcases samples.barycentric holds off with ⟨nonzero, value⟩
    have num : ((List.range xs.length).map fun i => share φ xs z i * φ (entry vals i)).sum =
        ∑ i ∈ Finset.range xs.length, share φ xs z i * φ (entry vals i) := rfl
    have den : ((List.range xs.length).map (share φ xs z)).sum =
        ∑ i ∈ Finset.range xs.length, share φ xs z i := rfl
    rw [arithmetic.zero, zero_add, zero_add, num, den, ← triples] at sums
    constructor
    · rw [evalBary, baryLoop_of_sums sums, arithmetic.div, value]
    · intro _
      exact ⟨_, _, mt arithmetic.word_eq_zero.mp nonzero, sums⟩

end Evaluation

/-! ## The even part of a column -/

/-- The averages of the values at conjugate points. -/
def averages (xs col : List M31) : List M31 :=
  (List.range xs.length).map fun k => (entry col k + entry col (col.length - 1 - k)) / 2

theorem entry_val (list : List M31) (i : ℕ) :
    (list.map ZMod.val).getD i 0 = (entry list i).val := by
  rw [entry, List.getD_eq_getElem?_getD, List.getD_eq_getElem?_getD, List.getElem?_map]
  cases list[i]? with
  | none => rfl
  | some x => rfl

theorem evalCircleEven_val (xs col : List M31) (weights : List ℕ) (z : ℕ) :
    evalCircleEven (col.map ZMod.val) (xs.map ZMod.val) weights z =
      evalBary ((averages xs col).map ZMod.val) (xs.map ZMod.val) weights z := by
  have two : m31Inv 2 = ((2 : M31)⁻¹).val := m31Inv_val 2
  simp only [evalCircleEven, List.length_map, entry_val, m31Add_val, two, m31Mul_val, averages,
    List.map_map, Function.comp_def, div_eq_mul_inv]

theorem averages_samples {xs : List M31} (col : List M31) (nonempty : xs ≠ []) (distinct : xs.Nodup) :
    Samples xs (averages xs col) where
  nonempty := nonempty
  distinct := distinct
  lengths := by rw [averages, List.length_map, List.length_range]

theorem entry_averages {xs col : List M31} {k : ℕ} (inside : k < xs.length) :
    entry (averages xs col) k = (entry col k + entry col (col.length - 1 - k)) / 2 := by
  rw [entry, averages, List.getD_eq_getElem?_getD, List.getElem?_map,
    List.getElem?_range inside, Option.map_some, Option.getD_some]

/-- A polynomial of low degree through the averages of a column. -/
structure ThroughAverages (xs col : List M31) (p : Polynomial M31) : Prop where
  low : p.degree < xs.length
  through : ∀ k < xs.length,
    eval (entry xs k) p = (entry col k + entry col (col.length - 1 - k)) / 2

theorem throughAverages_iff {xs col : List M31} {p : Polynomial M31} :
    ThroughAverages xs col p ↔ Through xs (averages xs col) p := by
  constructor
  · intro holds
    refine ⟨holds.low, ?_⟩
    intro k inside
    rw [entry_averages inside]
    exact holds.through k inside
  · intro holds
    refine ⟨holds.low, ?_⟩
    intro k inside
    rw [← entry_averages inside]
    exact holds.through k inside

/-- Barycentric evaluation returns the value of the interpolating polynomial, on a column and on
its even part.  Nodes are any distinct elements of the base field with as many values, and the
point is any element of the extension, a node or not. -/
theorem barycentric_is_interpolation :
    (∀ xs vals, Samples xs vals → ∃! p, Through xs vals p) ∧
      (∀ xs vals p, Samples xs vals → Through xs vals p →
        ∀ z : QM31, Evaluates baseHom qm31Word xs vals z p) ∧
      ∀ xs col : List M31, xs ≠ [] → xs.Nodup → col.length = 2 * xs.length →
        ∃! p, ThroughAverages xs col p ∧ ∀ z : QM31,
          evalCircleEven (col.map ZMod.val) (xs.map ZMod.val)
            (precomputeBaryWeights (xs.map ZMod.val)) (qm31Word z) =
          qm31Word (eval₂ baseHom z p) := by
  refine ⟨fun _ _ samples => samples.exists_unique,
    fun _ _ _ samples holds z => evalBary_word qm31_wordArithmetic samples holds z, ?_⟩
  intro xs col nonempty distinct _
  have samples := averages_samples col nonempty distinct
  rcases samples.exists_unique with ⟨p, holds, unique⟩
  refine ⟨p, ⟨throughAverages_iff.mpr holds, ?_⟩, ?_⟩
  · intro z
    rw [evalCircleEven_val]
    exact (evalBary_word qm31_wordArithmetic samples holds z).result
  · rintro q ⟨through, _⟩
    exact unique q (throughAverages_iff.mp through)

/-! ## Three nodes -/

/-- The squares of the nodes and three. -/
noncomputable def squarePlusThree : Polynomial M31 :=
  Polynomial.X ^ 2 + Polynomial.C 3

theorem squarePlusThree_through : Through [1, 2, 5] [4, 7, 28] squarePlusThree where
  low := by
    rw [squarePlusThree, Polynomial.degree_X_pow_add_C (by decide)]
    decide
  through := by
    intro i inside
    rw [squarePlusThree, Polynomial.eval_add, Polynomial.eval_pow, Polynomial.eval_X,
      Polynomial.eval_C]
    revert i
    decide

noncomputable def linePlusThree : Polynomial M31 := Polynomial.X + Polynomial.C 3

theorem linePlusThree_through : ThroughAverages [1, 2] [7, 4, 6, 1] linePlusThree where
  low := by
    rw [linePlusThree, Polynomial.degree_X_add_C]
    decide
  through := by
    have half (a b c : M31) (double : a * 2 = b + c) : a = (b + c) / 2 :=
      (eq_div_iff (by decide)).mpr double
    intro k inside
    rw [linePlusThree, Polynomial.eval_add, Polynomial.eval_X, Polynomial.eval_C]
    apply half
    revert k
    decide

/-- A point with four coordinates. -/
def awayFromNodes : QM31 := ⟨⟨3, 1⟩, ⟨4, 1⟩⟩

/-- At a node the sample is returned; away from the nodes the sums divide by what is not zero
and return the value of the polynomial, and so on the even part of a column. -/
theorem three_nodes_interpolated :
    (evalBary [4, 7, 28] [1, 2, 5] (precomputeBaryWeights [1, 2, 5]) (qm31Word (baseHom 2)) =
        qm31Word (baseHom 7)) ∧
      (∃ num den, den ≠ 0 ∧ barySums (qm31Word awayFromNodes)
        ([4, 7, 28].zip ([1, 2, 5].zip (precomputeBaryWeights [1, 2, 5]))) 0 0 = some (num, den)) ∧
      evalBary [4, 7, 28] [1, 2, 5] (precomputeBaryWeights [1, 2, 5]) (qm31Word awayFromNodes) =
        qm31Word (awayFromNodes ^ 2 + 3) ∧
      evalCircleEven [7, 4, 6, 1] [1, 2] (precomputeBaryWeights [1, 2])
          (qm31Word awayFromNodes) = qm31Word (awayFromNodes + 3) := by
  have samples : Samples [1, 2, 5] [4, 7, 28] := ⟨by decide, by decide, rfl⟩
  have evaluates := barycentric_is_interpolation.2.1 _ _ _ samples squarePlusThree_through
  have node := (evaluates (baseHom 2)).result
  have away := (evaluates awayFromNodes).result
  have divides := (evaluates awayFromNodes).denominator (by decide)
  rcases barycentric_is_interpolation.2.2 [1, 2] [7, 4, 6, 1] (by decide) (by decide) rfl with
    ⟨even, ⟨through, evenValue⟩, -⟩
  have line : even = linePlusThree :=
    (averages_samples [7, 4, 6, 1] (by decide) (by decide)).exists_unique.unique
      (throughAverages_iff.mp through) (throughAverages_iff.mp linePlusThree_through)
  have known := evenValue awayFromNodes
  rw [squarePlusThree] at node away
  rw [line, linePlusThree] at known
  simp only [Polynomial.eval₂_add, Polynomial.eval₂_pow, Polynomial.eval₂_X,
    Polynomial.eval₂_C] at node away known
  refine ⟨node, divides, away, known⟩

end Vfri2
end QLSA
