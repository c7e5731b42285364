import Mathlib.Data.List.Nodup
import Mathlib.Logic.Function.Basic

namespace QLSA
namespace Machine

/-!
# Updates of pairs of cells in place

An update replaces two cells by values computed from these two.  When no two
updates of a sequence share a cell, the sequence acts on each pair as if it were
alone: every cell ends up with the value its own update computes from the
contents before the sequence.
-/

variable {Value : Type*}

/-- An update of two cells from their contents. -/
structure PairUpdate (Value : Type*) where
  first : ℕ
  second : ℕ
  apply : Value → Value → Value × Value

namespace PairUpdate

/-- The two new values. -/
def result (update : PairUpdate Value) (cells : ℕ → Value) : Value × Value :=
  update.apply (cells update.first) (cells update.second)

/-- Write the two new values. -/
def run (cells : ℕ → Value) (update : PairUpdate Value) : ℕ → Value :=
  Function.update (Function.update cells update.first (update.result cells).1) update.second
    (update.result cells).2

/-- The cells of a sequence of updates. -/
def cellsOf (updates : List (PairUpdate Value)) : List ℕ :=
  updates.flatMap fun update => [update.first, update.second]

theorem run_of_ne {cells : ℕ → Value} {update : PairUpdate Value} {cell : ℕ}
    (first : cell ≠ update.first) (second : cell ≠ update.second) :
    update.run cells cell = cells cell := by
  rw [run, Function.update_of_ne second, Function.update_of_ne first]

theorem foldl_run_of_not_mem {updates : List (PairUpdate Value)} {cells : ℕ → Value} {cell : ℕ}
    (outside : cell ∉ cellsOf updates) : updates.foldl run cells cell = cells cell := by
  induction updates generalizing cells with
  | nil => rfl
  | cons update rest ih =>
      simp only [cellsOf, List.flatMap_cons, List.mem_append, List.mem_cons, List.not_mem_nil,
        or_false, not_or] at outside
      rw [List.foldl_cons, ih outside.2, run_of_ne outside.1.1 outside.1.2]

/-- Updates of other cells leave the inputs of an update alone, before it and
after it. -/
theorem foldl_run {updates : List (PairUpdate Value)} {cells : ℕ → Value}
    {update : PairUpdate Value} (disjoint : (cellsOf updates).Nodup) (member : update ∈ updates) :
    updates.foldl run cells update.first = (update.result cells).1 ∧
      updates.foldl run cells update.second = (update.result cells).2 := by
  induction updates generalizing cells with
  | nil => contradiction
  | cons head rest ih =>
      have parts : [head.first, head.second].Nodup ∧ (cellsOf rest).Nodup ∧
          [head.first, head.second].Disjoint (cellsOf rest) := List.nodup_append'.mp disjoint
      rcases parts with ⟨own, others, apart⟩
      have different : head.first ≠ head.second := by
        simpa using own
      rw [List.foldl_cons]
      rcases List.mem_cons.mp member with rfl | later
      · have firstOutside : update.first ∉ cellsOf rest := apart (by simp)
        have secondOutside : update.second ∉ cellsOf rest := apart (by simp)
        rw [foldl_run_of_not_mem firstOutside, foldl_run_of_not_mem secondOutside, run]
        constructor
        · rw [Function.update_of_ne different, Function.update_self]
        · rw [Function.update_self]
      · have inside : ∀ cell ∈ [update.first, update.second], cell ∈ cellsOf rest := fun cell own =>
          List.mem_flatMap.mpr ⟨update, later, own⟩
        have kept : ∀ cell ∈ [update.first, update.second], head.run cells cell = cells cell := by
          intro cell own
          apply run_of_ne
          · rintro rfl
            exact apart (by simp) (inside _ own)
          · rintro rfl
            exact apart (by simp) (inside _ own)
        have same : update.result (head.run cells) = update.result cells := by
          rw [result, kept _ (by simp), kept _ (by simp), result]
        rw [← same]
        exact ih others later

/-- Before its turn an update still finds the contents from before the sequence. -/
theorem foldl_take_run {updates : List (PairUpdate Value)} {cells : ℕ → Value} {i : ℕ}
    {update : PairUpdate Value} (disjoint : (cellsOf updates).Nodup)
    (found : updates[i]? = some update) {cell : ℕ} (own : cell ∈ [update.first, update.second]) :
    (updates.take i).foldl run cells cell = cells cell := by
  have later : update ∈ updates.drop i := by
    rw [← List.head?_drop] at found
    exact List.mem_of_mem_head? found
  rw [← List.take_append_drop i updates, cellsOf, List.flatMap_append] at disjoint
  have apart := (List.nodup_append'.mp disjoint).2.2
  exact foldl_run_of_not_mem fun earlier =>
    apart earlier (List.mem_flatMap.mpr ⟨update, later, own⟩)

end PairUpdate

end Machine
end QLSA
