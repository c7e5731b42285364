import Mathlib.Algebra.BigOperators.Group.List.Basic
import Mathlib.Tactic.Ring

namespace QLSA
namespace Machine

/-!
# Blocks laid end to end

Blocks of given sizes occupy consecutive places.  The layout lists, for every
place, the block it belongs to and its offset in that block; `start` is the
first place of a block.  The two descriptions are inverse to each other, which
is all that is used of them.
-/

/-- Block and offset of every place, for blocks numbered from `first` on. -/
def layoutFrom (first : ℕ) : List ℕ → List (ℕ × ℕ)
  | [] => []
  | size :: sizes =>
      (List.range size).map (fun offset => (first, offset)) ++ layoutFrom (first + 1) sizes

/-- Block and offset of every place. -/
def layout (sizes : List ℕ) : List (ℕ × ℕ) := layoutFrom 0 sizes

/-- First place of a block. -/
def start (sizes : List ℕ) (block : ℕ) : ℕ := (sizes.take block).sum

@[simp] theorem start_zero (sizes : List ℕ) : start sizes 0 = 0 := by
  simp [start]

theorem start_succ {sizes : List ℕ} {block size : ℕ} (found : sizes[block]? = some size) :
    start sizes (block + 1) = start sizes block + size := by
  rw [start, List.take_add_one, found, List.sum_append]
  simp [start]

theorem layoutFrom_length (first : ℕ) (sizes : List ℕ) :
    (layoutFrom first sizes).length = sizes.sum := by
  induction sizes generalizing first with
  | nil => rfl
  | cons size sizes ih => simp [layoutFrom, ih]

@[simp] theorem layout_length (sizes : List ℕ) : (layout sizes).length = sizes.sum :=
  layoutFrom_length 0 sizes

theorem layoutFrom_getElem? (first : ℕ) {sizes : List ℕ} {block size offset : ℕ}
    (found : sizes[block]? = some size) (inside : offset < size) :
    (layoutFrom first sizes)[start sizes block + offset]? = some (first + block, offset) := by
  induction sizes generalizing first block with
  | nil => simp at found
  | cons head sizes ih =>
      cases block with
      | zero =>
          rw [List.getElem?_cons_zero, Option.some.injEq] at found
          subst found
          rw [start_zero, Nat.zero_add, layoutFrom,
            List.getElem?_append_left (by simpa using inside)]
          simp [inside]
      | succ block =>
          rw [List.getElem?_cons_succ] at found
          have beyond : start (head :: sizes) (block + 1) + offset =
              ((List.range head).map fun offset => (first, offset)).length +
                (start sizes block + offset) := by
            simp [start]
            ring
          have number : first + 1 + block = first + (block + 1) := by ring
          rw [layoutFrom, beyond, List.getElem?_append_right (Nat.le_add_right _ _),
            Nat.add_sub_cancel_left, ih (first + 1) found, number]

/-- A place of a block is listed under that block. -/
theorem layout_getElem? {sizes : List ℕ} {block size offset : ℕ}
    (found : sizes[block]? = some size) (inside : offset < size) :
    (layout sizes)[start sizes block + offset]? = some (block, offset) := by
  have listed := layoutFrom_getElem? 0 found inside
  rw [Nat.zero_add] at listed
  exact listed

/-- Every place below the sum of the sizes belongs to a block. -/
theorem place_of_lt {sizes : List ℕ} {place : ℕ} (inside : place < sizes.sum) :
    ∃ block size offset, sizes[block]? = some size ∧ offset < size ∧
      place = start sizes block + offset := by
  induction sizes generalizing place with
  | nil => simp at inside
  | cons head sizes ih =>
      rcases Nat.lt_or_ge place head with early | late
      · exact ⟨0, head, place, rfl, early, by simp⟩
      · rw [List.sum_cons] at inside
        have within : place - head < sizes.sum := by omega
        rcases ih within with ⟨block, size, offset, found, below, position⟩
        refine ⟨block + 1, size, offset, found, below, ?_⟩
        have shifted : start (head :: sizes) (block + 1) = head + start sizes block := by
          simp [start]
        omega

/-- A block lies within all blocks. -/
theorem start_add_le {sizes : List ℕ} {block size : ℕ} (found : sizes[block]? = some size) :
    start sizes block + size ≤ sizes.sum := by
  rw [← start_succ found, start]
  have split := congrArg List.sum (List.take_append_drop (block + 1) sizes)
  rw [List.sum_append] at split
  omega

/-- The values listed at the last place of every block. -/
theorem layoutFrom_filterMap_last {α : Type*} (first : ℕ) {sizes : List ℕ}
    (positive : ∀ size ∈ sizes, 0 < size) (size : ℕ → ℕ) (value : ℕ → α)
    (listed : ∀ block own, sizes[block]? = some own → size (first + block) = own) :
    (layoutFrom first sizes).filterMap (fun place =>
        if place.2 = size place.1 - 1 then some (value place.1) else none) =
      (List.range' first sizes.length).map value := by
  induction sizes generalizing first with
  | nil => rfl
  | cons own sizes ih =>
      have later := ih (first + 1) (fun size member => positive size (List.mem_cons_of_mem _ member))
        (fun block other found => by
          rw [Nat.add_assoc, Nat.add_comm 1 block]
          exact listed (block + 1) other found)
      have head : size first = own := listed 0 own rfl
      have some_place : 0 < own := positive own List.mem_cons_self
      have split : List.range own = List.range (own - 1) ++ [own - 1] := by
        rw [← List.range_succ, Nat.succ_eq_add_one, Nat.sub_add_cancel some_place]
      have early : ((List.range (own - 1)).map fun offset => (first, offset)).filterMap
          (fun place => if place.2 = size place.1 - 1 then some (value place.1) else none) = [] := by
        rw [List.filterMap_map, List.filterMap_eq_nil_iff]
        intro offset member
        have below := List.mem_range.mp member
        exact if_neg (by dsimp only; omega)
      rw [layoutFrom, List.filterMap_append, later, split, List.map_append, List.filterMap_append,
        early, List.nil_append, List.length_cons, List.range'_succ, List.map_cons]
      simp [head]

theorem layout_filterMap_last {α : Type*} {sizes : List ℕ} (positive : ∀ size ∈ sizes, 0 < size)
    (value : ℕ → α) :
    (layout sizes).filterMap (fun place =>
        if place.2 = sizes.getD place.1 0 - 1 then some (value place.1) else none) =
      (List.range sizes.length).map value := by
  rw [List.range_eq_range']
  apply layoutFrom_filterMap_last 0 positive (fun block => sizes.getD block 0) value
  intro block own found
  rw [Nat.zero_add, List.getD_eq_getElem?_getD, found, Option.getD_some]

/-- Beyond all blocks no place is listed. -/
theorem layout_getElem?_of_le {sizes : List ℕ} {place : ℕ} (after : sizes.sum ≤ place) :
    (layout sizes)[place]? = none := by
  rw [List.getElem?_eq_none_iff, layout_length]
  exact after

end Machine
end QLSA
