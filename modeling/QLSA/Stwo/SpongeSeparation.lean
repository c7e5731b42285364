import QLSA.Hash.Invertible
import QLSA.Hash.Sponge
import QLSA.Stwo.Poseidon2T16

namespace QLSA
namespace Stwo

open Mersenne Hash Matrix

/-!
# Sponges without structural collisions

Five is prime to the order of the multiplicative group, so the fifth power is
injective, and both layers have an inverse at either width: the permutations
are bijections of canonical states.  The sponges absorb the addends of their
words under them.
-/

/-! ## Bijections -/

/-- The fifth power has an inverse power. -/
theorem power_injective : Function.Injective fun x : M31 => x ^ 5 := by
  have undone (x : M31) : (x ^ 5) ^ 1717986917 = x := by
    by_cases zero : x = 0
    · rw [zero, zero_pow (by decide), zero_pow (by decide)]
    · have order : x ^ (P - 1) = 1 := ZMod.pow_card_sub_one_eq_one zero
      have exponent : 5 * 1717986917 = (P - 1) * 4 + 1 := by decide
      rw [← pow_mul, exponent, pow_succ, pow_mul, order, one_pow, one_mul]
  intro x y same
  rw [← undone x, ← undone y]
  exact congrArg (· ^ 1717986917) same

theorem external_isUnit_t8 : IsUnit (externalMatrix 8 : Matrix (Fin 8) (Fin 8) M31) :=
  isUnit_of_mulVec_eq_zero fun _ zero =>
    externalMatrix_mulVec_eq_zero (n := 2) (by decide) (by decide) zero

theorem external_isUnit_t16 : IsUnit (externalMatrix 16 : Matrix (Fin 16) (Fin 16) M31) :=
  isUnit_of_mulVec_eq_zero fun _ zero =>
    externalMatrix_mulVec_eq_zero (n := 4) (by decide) (by decide) zero

/-- Small numbers are not zero. -/
theorem diagonal_ne_zero {t : ℕ} (small : t < P) (i : Fin t) : (i.val + 1 : M31) ≠ 0 := by
  have value : ((i.val + 1 : ℕ) : M31).val = i.val + 1 := ZMod.val_cast_of_lt (by omega)
  intro zero
  have cast : ((i.val + 1 : ℕ) : M31) = 0 := by
    push_cast
    exact zero
  rw [cast, ZMod.val_zero] at value
  omega

theorem internal_isUnit_t8 : IsUnit (internalMatrix 8 : Matrix (Fin 8) (Fin 8) M31) :=
  isUnit_of_mulVec_eq_zero fun _ zero => internalMatrix_mulVec_eq_zero
    (diagonal_ne_zero (by decide)) (by decide +kernel) zero

theorem internal_isUnit_t16 : IsUnit (internalMatrix 16 : Matrix (Fin 16) (Fin 16) M31) :=
  isUnit_of_mulVec_eq_zero fun _ zero => internalMatrix_mulVec_eq_zero
    (diagonal_ne_zero (by decide)) (by decide +kernel) zero

theorem poseidon2_t8_injective : Function.Injective (poseidon2 constant : (Fin 8 → M31) → _) :=
  poseidon2_injective constant power_injective external_isUnit_t8 internal_isUnit_t8

theorem poseidon2_t16_injective :
    Function.Injective (poseidon2 constantT16 : (Fin 16 → M31) → _) :=
  poseidon2_injective constantT16 power_injective external_isUnit_t16 internal_isUnit_t16

/-! ## Machine states -/

/-- The state of a vector, with canonical words. -/
def stateOf (v : Fin 8 → M31) : State ℕ :=
  ⟨(v 0).val, (v 1).val, (v 2).val, (v 3).val, (v 4).val, (v 5).val, (v 6).val, (v 7).val⟩

theorem stateOf_vector (s : State M31) : stateOf s.vector = s.map ZMod.val := rfl

theorem stateOf_eq (v : Fin 8 → M31) :
    stateOf v = (⟨v 0, v 1, v 2, v 3, v 4, v 5, v 6, v 7⟩ : State M31).map ZMod.val := rfl

theorem vector_mk (v : Fin 8 → M31) :
    (⟨v 0, v 1, v 2, v 3, v 4, v 5, v 6, v 7⟩ : State M31).vector = v := by
  funext i
  fin_cases i <;> rfl

theorem stateOf_canonical (v : Fin 8 → M31) : (stateOf v).All Canonical :=
  ⟨val_lt_P _, val_lt_P _, val_lt_P _, val_lt_P _, val_lt_P _, val_lt_P _, val_lt_P _, val_lt_P _⟩

theorem stateOf_injective : Function.Injective stateOf := by
  intro v w same
  have cell (i : Fin 8) : (v i).val = (w i).val := by
    have cells := congrFun (congrArg State.vector same) i
    fin_cases i <;> exact cells
  funext i
  exact ZMod.val_injective P (cell i)

/-- Canonical states are the states of vectors. -/
theorem stateOf_surjective {s : State ℕ} (canonical : s.All Canonical) : ∃ v, stateOf v = s := by
  rcases canonical with ⟨h0, h1, h2, h3, h4, h5, h6, h7⟩
  refine ⟨fun i => (s.vector i : M31), ?_⟩
  ext
  · exact ZMod.val_cast_of_lt h0
  · exact ZMod.val_cast_of_lt h1
  · exact ZMod.val_cast_of_lt h2
  · exact ZMod.val_cast_of_lt h3
  · exact ZMod.val_cast_of_lt h4
  · exact ZMod.val_cast_of_lt h5
  · exact ZMod.val_cast_of_lt h6
  · exact ZMod.val_cast_of_lt h7

theorem permuteT8_stateOf (v : Fin 8 → M31) :
    permuteT8 (stateOf v) = stateOf (poseidon2 constant v) := by
  rw [stateOf_eq, permuteT8_map, ← stateOf_vector, vector_permute, vector_mk]

theorem matExternal_stateOf (v : Fin 8 → M31) :
    matExternal (stateOf v) = stateOf (externalMatrix 8 *ᵥ v) := by
  rw [stateOf_eq, matExternal_map, ← stateOf_vector, vector_external, vector_mk]

theorem matInternal_stateOf (v : Fin 8 → M31) :
    matInternal (stateOf v) = stateOf (internalMatrix 8 *ᵥ v) := by
  rw [stateOf_eq, matInternal_map, ← stateOf_vector, vector_internal, vector_mk]

theorem lift_canonical (v : Fin 16 → M31) (i : Fin 16) : Canonical ((lift v).get i) := by
  rw [lift_get]
  exact val_lt_P _

theorem lift_injective : Function.Injective lift := by
  intro v w same
  funext i
  have cell := congrArg (fun s : Cells ℕ => s.get i) same
  rw [lift_get, lift_get] at cell
  exact ZMod.val_injective P cell

theorem lift_surjective {s : Cells ℕ} (canonical : ∀ i, Canonical (s.get i)) :
    ∃ v, lift v = s := by
  refine ⟨fun i => (s.get i : M31), (lift_eq ?_).symm⟩
  intro i
  exact (ZMod.val_cast_of_lt (canonical i)).symm

/-- A permutation of vectors, in the words of states. -/
theorem bijOn_of_injective {t : ℕ} {α : Type*} {of : (Fin t → M31) → α} {states : Set α}
    {perm : α → α} {vectorPerm : (Fin t → M31) → Fin t → M31}
    (member : ∀ v, of v ∈ states) (injective : Function.Injective of)
    (surjective : ∀ s ∈ states, ∃ v, of v = s) (step : ∀ v, perm (of v) = of (vectorPerm v))
    (permInjective : Function.Injective vectorPerm) : Set.BijOn perm states states := by
  refine ⟨?_, ?_, ?_⟩
  · intro s inside
    rcases surjective s inside with ⟨v, rfl⟩
    rw [step]
    exact member _
  · intro s inside s' inside' same
    rcases surjective s inside with ⟨v, rfl⟩
    rcases surjective s' inside' with ⟨w, rfl⟩
    rw [step, step] at same
    rw [permInjective (injective same)]
  · intro s inside
    rcases surjective s inside with ⟨w, rfl⟩
    rcases (Finite.injective_iff_surjective.mp permInjective) w with ⟨v, rfl⟩
    exact ⟨of v, member v, step v⟩

theorem permuteT8_bijOn :
    Set.BijOn permuteT8 {s | s.All Canonical} {s | s.All Canonical} :=
  bijOn_of_injective stateOf_canonical stateOf_injective (fun _ => stateOf_surjective)
    permuteT8_stateOf poseidon2_t8_injective

theorem permuteT16_bijOn :
    Set.BijOn permuteT16 {s | ∀ i, Canonical (s.get i)} {s | ∀ i, Canonical (s.get i)} :=
  bijOn_of_injective lift_canonical lift_injective (fun _ => lift_surjective)
    permuteT16_lift poseidon2_t16_injective

/-! ## Absorbed words -/

/-- A word added to a cell. -/
theorem m31Add_word (x : M31) (value : ℕ) : m31Add x.val (value % P) = (x + value).val := by
  rw [← ZMod.val_natCast, m31Add_val]

theorem m31Add_missing (x : M31) {missing : ℕ} (few : missing < P) :
    m31Add x.val missing = (x + missing).val := by
  have reduced := m31Add_word x missing
  rw [Nat.mod_eq_of_lt few] at reduced
  exact reduced

/-- A vector with the addend of a block of four words at most. -/
def entered (v : Fin 8 → M31) (block : List ℕ) : Fin 8 → M31 := v + addend 4 8 block

section Blocks

variable (v : Fin 8 → M31) (c0 c1 c2 c3 : ℕ)

theorem entered_four :
    ({ stateOf v with
        s0 := m31Add (stateOf v).s0 (c0 % P), s1 := m31Add (stateOf v).s1 (c1 % P),
        s2 := m31Add (stateOf v).s2 (c2 % P), s3 := m31Add (stateOf v).s3 (c3 % P) } : State ℕ) =
      stateOf (entered v [c0, c1, c2, c3]) := by
  ext <;> simp [stateOf, entered, addend, m31Add_word]

theorem entered_three :
    ({ stateOf v with
        s0 := m31Add (stateOf v).s0 (c0 % P), s1 := m31Add (stateOf v).s1 (c1 % P),
        s2 := m31Add (stateOf v).s2 (c2 % P), s7 := m31Add (stateOf v).s7 1 } : State ℕ) =
      stateOf (entered v [c0, c1, c2]) := by
  have pad := m31Add_missing (v 7) (by decide : 1 < P)
  ext <;> simp [stateOf, entered, addend, m31Add_word, pad]

theorem entered_two :
    ({ stateOf v with
        s0 := m31Add (stateOf v).s0 (c0 % P), s1 := m31Add (stateOf v).s1 (c1 % P),
        s7 := m31Add (stateOf v).s7 2 } : State ℕ) = stateOf (entered v [c0, c1]) := by
  have pad := m31Add_missing (v 7) (by decide : 2 < P)
  ext <;> simp [stateOf, entered, addend, m31Add_word, pad]

theorem entered_one :
    ({ stateOf v with
        s0 := m31Add (stateOf v).s0 (c0 % P), s7 := m31Add (stateOf v).s7 3 } : State ℕ) =
      stateOf (entered v [c0]) := by
  have pad := m31Add_missing (v 7) (by decide : 3 < P)
  ext <;> simp [stateOf, entered, addend, m31Add_word, pad]

end Blocks

/-- The state after the addends of some words. -/
def absorbT8 (v : Fin 8 → M31) (values : List ℕ) : State ℕ :=
  stateOf (absorbAll (poseidon2 constant) v (addends 4 8 values))

theorem absorbT8_full (v : Fin 8 → M31) (c0 c1 c2 c3 : ℕ) (rest : List ℕ) :
    absorbT8 v (c0 :: c1 :: c2 :: c3 :: rest) =
      absorbT8 (poseidon2 constant (entered v [c0, c1, c2, c3])) rest := by
  have size : [c0, c1, c2, c3].length = 4 := rfl
  have blocks := blocksOf_append (by decide : 0 < 4) size rest
  have joined : c0 :: c1 :: c2 :: c3 :: rest = [c0, c1, c2, c3] ++ rest := rfl
  rw [absorbT8, absorbT8, addends, joined, blocks, List.map_cons, absorbAll_cons, addends, entered]

theorem absorbT8_short (v : Fin 8 → M31) {block : List ℕ} (some : 0 < block.length)
    (short : block.length ≤ 4) : absorbT8 v block = permuteT8 (stateOf (entered v block)) := by
  rw [absorbT8, addends, blocksOf_short some short, permuteT8_stateOf, List.map_singleton,
    absorbAll_cons, absorbAll_nil, entered]

/-- The sponge absorbs the addends of its words. -/
theorem spongeFrom_stateOf (v : Fin 8 → M31) (values : List ℕ) :
    spongeFrom (stateOf v) values = absorbT8 v values := by
  match values with
  | [] => rfl
  | [c0] =>
      rw [absorbT8_short v (by simp) (by simp)]
      exact congrArg permuteT8 (entered_one v c0)
  | [c0, c1] =>
      rw [absorbT8_short v (by simp) (by simp)]
      exact congrArg permuteT8 (entered_two v c0 c1)
  | [c0, c1, c2] =>
      rw [absorbT8_short v (by simp) (by simp)]
      exact congrArg permuteT8 (entered_three v c0 c1 c2)
  | c0 :: c1 :: c2 :: c3 :: rest =>
      rw [spongeFrom_block, absorbBlock, entered_four, permuteT8_stateOf, absorbT8_full,
        spongeFrom_stateOf]

theorem spongeT8_eq (values : List ℕ) : spongeT8 values = absorbT8 0 values := by
  rw [← spongeFrom_stateOf]
  rfl

/-! ## Sixteen cells -/

theorem absorbed_pad (v : Fin 16 → M31) {block : List ℕ} (short : block.length ≤ 8) :
    Function.update (absorbed v block) 15 (absorbed v block 15 + (8 - block.length : ℕ)) =
      v + addend 8 16 block := by
  funext i
  by_cases last : i = 15
  · subst last
    have none : block[15]? = none := List.getElem?_eq_none (by omega)
    rw [Function.update_self, Pi.add_apply, absorbed, addend]
    simp [none]
  · rw [Function.update_of_ne last, Pi.add_apply, absorbed, addend]
    have before : ¬ i.val + 1 = 16 := by
      intro whole
      exact last (Fin.ext (by omega))
    cases block[i.val]? with
    | none =>
        dsimp only
        rw [if_neg before, add_zero]
    | some value => rfl

/-- A full block has no pad. -/
theorem absorbed_full (v : Fin 16 → M31) {block : List ℕ} (full : block.length = 8) :
    absorbed v block = v + addend 8 16 block := by
  have pad := absorbed_pad v full.le
  rw [full, Nat.sub_self, Nat.cast_zero, add_zero, Function.update_eq_self] at pad
  exact pad

/-- Blocks of eight, and what remains behind them. -/
theorem blocksOf_eight (values : List ℕ) :
    blocksOf 8 values =
      ((List.range (values.length / 8)).map fun c => (values.drop (8 * c)).take 8) ++
        if (values.drop (8 * (values.length / 8))).isEmpty then []
        else [values.drop (8 * (values.length / 8))] := by
  have length : (values.drop (8 * (values.length / 8))).length = values.length % 8 := by
    rw [List.length_drop]
    omega
  by_cases whole : values.length % 8 = 0
  · have empty : values.drop (8 * (values.length / 8)) = [] :=
      List.eq_nil_of_length_eq_zero (length.trans whole)
    have count : (values.length + 8 - 1) / 8 = values.length / 8 := by omega
    rw [empty, blocksOf, count]
    simp
  · have count : (values.length + 8 - 1) / 8 = values.length / 8 + 1 := by omega
    have some : (values.drop (8 * (values.length / 8))).isEmpty = false := by
      rw [List.isEmpty_eq_false_iff_exists_mem]
      exact List.exists_mem_of_length_pos (by omega)
    rw [some, blocksOf, count, List.range_succ, List.map_append, List.map_singleton,
      List.take_of_length_le (by omega)]
    rfl

theorem spongeT16_eq (values : List ℕ) :
    spongeT16 values = lift (absorbAll (poseidon2 constantT16) 0 (addends 8 16 values)) := by
  have start : Cells.of (fun _ : Fin 16 => 0) = lift 0 := lift_eq fun i => Cells.get_of _ i
  have fold (count : ℕ) (inside : count ≤ values.length / 8) :
      (List.range count).foldl
          (fun state c => permuteT16 (absorbT16 state ((values.drop (8 * c)).take 8))) (lift 0) =
        lift (absorbAll (poseidon2 constantT16) 0
          (((List.range count).map fun c => (values.drop (8 * c)).take 8).map (addend 8 16))) := by
    induction count with
    | zero => rfl
    | succ count ih =>
        have full : ((values.drop (8 * count)).take 8).length = 8 := by
          rw [List.length_take, List.length_drop]
          omega
        rw [List.range_succ, List.foldl_append, ih (by omega), List.map_append, List.map_append,
          absorbAll_append, List.foldl_cons, List.foldl_nil, absorbT16_lift, absorbed_full _ full,
          permuteT16_lift, List.map_singleton, List.map_singleton, absorbAll_cons, absorbAll_nil]
  rw [spongeT16, start]
  dsimp only
  rw [fold _ le_rfl, addends, blocksOf_eight, List.map_append, absorbAll_append]
  by_cases whole : (values.drop (8 * (values.length / 8))).isEmpty
  · rw [if_pos whole, if_pos whole, List.map_nil, absorbAll_nil]
  · have short : (values.drop (8 * (values.length / 8))).length ≤ 8 := by
      rw [List.length_drop]
      omega
    rw [if_neg whole, if_neg whole, absorbT16_lift, m31Add_pad _ (Nat.sub_le _ _),
      absorbed_pad _ short, permuteT16_lift, List.map_singleton, absorbAll_cons, absorbAll_nil]

/-! ## Separation -/

/-- Words as field elements are words modulo `P`. -/
theorem words_of_addends {rate t : ℕ} (positive : 0 < rate) (wide : rate < t) (small : rate ≤ P)
    {first second : List ℕ}
    (same : (addends rate t first : List (Fin t → M31)) = addends rate t second) :
    first.map (· % P) = second.map (· % P) := by
  have apart (a b : ℕ) (low : a < rate) (low' : b < rate) (equal : (a : M31) = b) : a = b := by
    rw [← ZMod.val_cast_of_lt (low.trans_le small), equal,
      ZMod.val_cast_of_lt (low'.trans_le small)]
  have words := congrArg (List.map ZMod.val) (addends_injective positive wide apart same)
  rw [List.map_map, List.map_map] at words
  have reduced : ZMod.val ∘ (Nat.cast : ℕ → M31) = (· % P) := by
    funext word
    exact ZMod.val_natCast P word
  rw [reduced] at words
  exact words

theorem spongeT8_ne {first second : List ℕ}
    (differ : DifferOnce (addends 4 8 first : List (Fin 8 → M31)) (addends 4 8 second)) :
    spongeT8 first ≠ spongeT8 second := by
  rw [spongeT8_eq, spongeT8_eq, absorbT8, absorbT8]
  exact fun same => absorbAll_ne poseidon2_t8_injective differ 0 (stateOf_injective same)

theorem spongeT16_ne {first second : List ℕ}
    (differ : DifferOnce (addends 8 16 first : List (Fin 16 → M31)) (addends 8 16 second)) :
    spongeT16 first ≠ spongeT16 second := by
  rw [spongeT16_eq, spongeT16_eq]
  exact fun same => absorbAll_ne poseidon2_t16_injective differ 0 (lift_injective same)

/-- The layers of both widths are their matrices. -/
structure Layers : Prop where
  external_t8 : ∀ v, matExternal (stateOf v) = stateOf (externalMatrix 8 *ᵥ v)
  internal_t8 : ∀ v, matInternal (stateOf v) = stateOf (internalMatrix 8 *ᵥ v)
  external_t16 : ∀ v, matExternalT16 (lift v) = lift (externalMatrix 16 *ᵥ v)
  internal_t16 : ∀ v, matInternalT16 (lift v) = lift (internalMatrix 16 *ᵥ v)
  units_t8 : IsUnit (externalMatrix 8 : Matrix (Fin 8) (Fin 8) M31) ∧
    IsUnit (internalMatrix 8 : Matrix (Fin 8) (Fin 8) M31)
  units_t16 : IsUnit (externalMatrix 16 : Matrix (Fin 16) (Fin 16) M31) ∧
    IsUnit (internalMatrix 16 : Matrix (Fin 16) (Fin 16) M31)

theorem layers : Layers where
  external_t8 := matExternal_stateOf
  internal_t8 := matInternal_stateOf
  external_t16 := matExternalT16_lift
  internal_t16 := matInternalT16_lift
  units_t8 := ⟨external_isUnit_t8, internal_isUnit_t8⟩
  units_t16 := ⟨external_isUnit_t16, internal_isUnit_t16⟩

/-- The permutations are bijections, and the sponges absorb addends that determine the words; one
different addend makes a different state.  Words are compared as residues, with no bound on their
number.  That two inputs never share a digest cannot hold of a sponge and is not claimed. -/
theorem sponges_separate :
    Set.BijOn permuteT8 {s | s.All Canonical} {s | s.All Canonical} ∧
      Set.BijOn permuteT16 {s | ∀ i, Canonical (s.get i)} {s | ∀ i, Canonical (s.get i)} ∧
      Layers ∧
      (∀ values, spongeT8 values =
        stateOf (absorbAll (poseidon2 constant) 0 (addends 4 8 values))) ∧
      (∀ values, spongeT16 values =
        lift (absorbAll (poseidon2 constantT16) 0 (addends 8 16 values))) ∧
      (∀ rate t : ℕ, 0 < rate → rate < t → rate ≤ P → ∀ first second : List ℕ,
        (addends rate t first : List (Fin t → M31)) = addends rate t second →
          first.map (· % P) = second.map (· % P)) ∧
      (∀ first second : List ℕ,
        DifferOnce (addends 4 8 first : List (Fin 8 → M31)) (addends 4 8 second) →
          spongeT8 first ≠ spongeT8 second) ∧
      ∀ first second : List ℕ,
        DifferOnce (addends 8 16 first : List (Fin 16 → M31)) (addends 8 16 second) →
          spongeT16 first ≠ spongeT16 second :=
  ⟨permuteT8_bijOn, permuteT16_bijOn, layers, spongeT8_eq, spongeT16_eq,
    fun _ _ positive wide small _ _ same => words_of_addends positive wide small same,
    fun _ _ differ => spongeT8_ne differ, fun _ _ differ => spongeT16_ne differ⟩

/-- A word and the same word before a zero. -/
theorem trailing_zero_separated : spongeT8 [1] ≠ spongeT8 [1, 0] := by
  apply sponges_separate.2.2.2.2.2.2.1
  refine ⟨[], addend 4 8 [1], addend 4 8 [1, 0], [], ?_, rfl, rfl⟩
  intro same
  exact absurd (congrFun same 7) (by decide)

end Stwo
end QLSA
