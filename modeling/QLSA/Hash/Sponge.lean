import QLSA.Machine.Numerals
import Mathlib.Algebra.Group.Pi.Basic
import Mathlib.Data.List.Basic
import Mathlib.Data.Nat.Cast.Basic
import Mathlib.Tactic.Ring

namespace QLSA
namespace Hash

/-!
# Sponges

Words are absorbed in blocks of `rate`; a block adds its words to the first
cells and the number of missing words to the last.  The addends of a list of
words determine its length and the words, and under a bijection two sequences of
addends that differ in one place do not end in the same state.
-/

/-! ## Blocks -/

section Blocks

/-- Blocks of `rate` words, the last one possibly shorter. -/
def blocksOf (rate : ℕ) (values : List ℕ) : List (List ℕ) :=
  (List.range ((values.length + rate - 1) / rate)).map fun c => (values.drop (rate * c)).take rate

variable {F : Type*} [AddMonoidWithOne F]

/-- What a block adds to the cells of a state of width `t`. -/
def addend (rate t : ℕ) (block : List ℕ) : Fin t → F := fun i =>
  match block[i.val]? with
  | some value => value
  | none => if i.val + 1 = t then (rate - block.length : ℕ) else 0

/-- What the blocks of a list of words add, one after the other. -/
def addends (rate t : ℕ) (values : List ℕ) : List (Fin t → F) :=
  (blocksOf rate values).map (addend rate t)

variable {rate t : ℕ}

/-- The blocks together are the words. -/
theorem blocksOf_flatten (positive : 0 < rate) (values : List ℕ) :
    (blocksOf rate values).flatten = values := by
  have front (n : ℕ) : ((List.range n).map fun c => (values.drop (rate * c)).take rate).flatten =
      values.take (rate * n) := by
    induction n with
    | zero => rw [Nat.mul_zero, List.take_zero]; rfl
    | succ n ih =>
        rw [List.range_succ, List.map_append, List.flatten_append, ih, Nat.mul_succ, List.take_add]
        simp
  have last := Nat.lt_mul_div_succ (values.length - 1) positive
  rw [blocksOf, front]
  apply List.take_of_length_le
  rcases Nat.eq_zero_or_pos values.length with none | some
  · omega
  · have count : (values.length + rate - 1) / rate = (values.length - 1) / rate + 1 := by
      have shifted : values.length + rate - 1 = values.length - 1 + rate := by omega
      rw [shifted, Nat.add_div_right _ positive]
    rw [count]
    omega

theorem blocksOf_append (positive : 0 < rate) {block : List ℕ} (full : block.length = rate)
    (rest : List ℕ) : blocksOf rate (block ++ rest) = block :: blocksOf rate rest := by
  have count : ((block ++ rest).length + rate - 1) / rate = (rest.length + rate - 1) / rate + 1 := by
    have shifted : (block ++ rest).length + rate - 1 = rest.length + rate - 1 + rate := by
      rw [List.length_append]
      omega
    rw [shifted, Nat.add_div_right _ positive]
  rw [blocksOf, count, List.range_succ_eq_map, List.map_cons, List.map_map, blocksOf,
    Nat.mul_zero, List.drop_zero, ← full, List.take_left]
  refine congrArg (block :: ·) (List.map_congr_left ?_)
  intro c _
  have place : block.length * (c + 1) = block.length + block.length * c := by ring
  rw [Function.comp_apply, Nat.succ_eq_add_one, place, List.drop_length_add_append]

theorem blocksOf_short {block : List ℕ} (some : 0 < block.length) (short : block.length ≤ rate) :
    blocksOf rate block = [block] := by
  have count : (block.length + rate - 1) / rate = 1 := by
    apply Nat.div_eq_of_lt_le
    · omega
    · omega
  rw [blocksOf, count, List.range_one, List.map_singleton, Nat.mul_zero, List.drop_zero,
    List.take_of_length_le short]

/-- A block has a word, and at most `rate` of them. -/
theorem mem_blocksOf {values block : List ℕ} (positive : 0 < rate)
    (member : block ∈ blocksOf rate values) : 0 < block.length ∧ block.length ≤ rate := by
  rw [blocksOf, List.mem_map] at member
  rcases member with ⟨c, inside, rfl⟩
  rw [List.mem_range] at inside
  rw [List.length_take, List.length_drop]
  have reached : rate * c < values.length := by
    have before := (Nat.le_div_iff_mul_le positive).mp (Nat.succ_le_of_lt inside)
    rw [Nat.succ_mul, Nat.mul_comm] at before
    omega
  omega

theorem addend_of_lt {block : List ℕ} {i : Fin t} (inside : i.val < block.length) :
    addend rate t block i = ((block[i.val] : ℕ) : F) := by
  rw [addend, List.getElem?_eq_getElem inside]

/-- The last cell holds the number of missing words. -/
theorem addend_last {block : List ℕ} (short : block.length < t) :
    addend rate t block ⟨t - 1, by omega⟩ = ((rate - block.length : ℕ) : F) := by
  have last : t - 1 + 1 = t := by omega
  rw [addend, List.getElem?_eq_none (by dsimp only; omega)]
  exact if_pos last

/-- A block is determined by what it adds, up to its words as field elements. -/
theorem map_cast_of_addend (wide : rate < t)
    (apart : ∀ a b, a < rate → b < rate → (a : F) = b → a = b) {first second : List ℕ}
    (size : 0 < first.length ∧ first.length ≤ rate)
    (size' : 0 < second.length ∧ second.length ≤ rate)
    (same : (addend rate t first : Fin t → F) = addend rate t second) :
    first.map (Nat.cast : ℕ → F) = second.map Nat.cast := by
  have pads := congrFun same ⟨t - 1, by omega⟩
  rw [addend_last (by omega), addend_last (by omega)] at pads
  have missing := apart _ _ (by omega) (by omega) pads
  apply List.ext_getElem
  · rw [List.length_map, List.length_map]
    omega
  · intro i inside inside'
    rw [List.length_map] at inside inside'
    have cell := congrFun same ⟨i, by omega⟩
    rw [addend_of_lt inside, addend_of_lt inside'] at cell
    rw [List.getElem_map, List.getElem_map]
    exact cell

theorem map_eq_of_map_eq {α β γ : Type*} {f : α → β} {g : α → γ} {first second : List α}
    (determines : ∀ a ∈ first, ∀ b ∈ second, f a = f b → g a = g b)
    (same : first.map f = second.map f) : first.map g = second.map g := by
  induction first generalizing second with
  | nil =>
      rw [List.map_nil, eq_comm, List.map_eq_nil_iff] at same
      rw [same]
  | cons a rest ih =>
      cases second with
      | nil => cases same
      | cons b later =>
          rw [List.map_cons, List.map_cons, List.cons.injEq] at same
          rw [List.map_cons, List.map_cons,
            determines a List.mem_cons_self b List.mem_cons_self same.1,
            ih (fun c inside d within => determines c (List.mem_cons_of_mem a inside) d
              (List.mem_cons_of_mem b within)) same.2]

/-- Words with the same addends are as many, and the same field elements. -/
theorem addends_injective (positive : 0 < rate) (wide : rate < t)
    (apart : ∀ a b, a < rate → b < rate → (a : F) = b → a = b) {first second : List ℕ}
    (same : (addends rate t first : List (Fin t → F)) = addends rate t second) :
    first.map (Nat.cast : ℕ → F) = second.map Nat.cast := by
  have blocks : (blocksOf rate first).map (List.map (Nat.cast : ℕ → F)) =
      (blocksOf rate second).map (List.map Nat.cast) := by
    refine map_eq_of_map_eq ?_ same
    intro a inside b within equal
    exact map_cast_of_addend wide apart (mem_blocksOf positive inside)
      (mem_blocksOf positive within) equal
  have joined := congrArg List.flatten blocks
  rw [← List.map_flatten, ← List.map_flatten, blocksOf_flatten positive,
    blocksOf_flatten positive] at joined
  exact joined

end Blocks

/-! ## Absorbing -/

section Absorbing

variable {State : Type*} [Add State] {perm : State → State}

/-- The state after some addends, with a permutation after each. -/
def absorbAll (perm : State → State) (s : State) (adds : List State) : State :=
  adds.foldl (fun s a => perm (s + a)) s

theorem absorbAll_nil (s : State) : absorbAll perm s [] = s := rfl

theorem absorbAll_cons (s a : State) (rest : List State) :
    absorbAll perm s (a :: rest) = absorbAll perm (perm (s + a)) rest := rfl

theorem absorbAll_append (s : State) (first second : List State) :
    absorbAll perm s (first ++ second) = absorbAll perm (absorbAll perm s first) second :=
  List.foldl_append

/-- Lists of one length that differ in exactly one place. -/
def DifferOnce {α : Type*} (first second : List α) : Prop :=
  ∃ before a b after, a ≠ b ∧ first = before ++ a :: after ∧ second = before ++ b :: after

theorem absorbAll_injective [IsRightCancelAdd State] (injective : Function.Injective perm)
    {adds : List State} {s s' : State} (same : absorbAll perm s adds = absorbAll perm s' adds) :
    s = s' := by
  induction adds generalizing s s' with
  | nil => exact same
  | cons a rest ih => exact add_right_cancel (injective (ih same))

/-- One different addend makes a different state, and no later addend undoes it. -/
theorem absorbAll_ne [IsRightCancelAdd State] [IsLeftCancelAdd State]
    (injective : Function.Injective perm) {first second : List State}
    (differ : DifferOnce first second) (s : State) :
    absorbAll perm s first ≠ absorbAll perm s second := by
  rcases differ with ⟨before, a, b, after, apart, rfl, rfl⟩
  intro same
  rw [absorbAll_append, absorbAll_append, absorbAll_cons, absorbAll_cons] at same
  exact apart (add_left_cancel (injective (absorbAll_injective injective same)))

end Absorbing

end Hash
end QLSA
