import QLSA.Field.Mersenne31
import QLSA.Hash.Permutation
import QLSA.Machine.KeyedLog

namespace QLSA
namespace Recursive

open Hash Mersenne

/-!
# Columns of a trace

A table of columns is filled by writes to single cells, over zeros.  Rows are
numbered in natural order, in which the previous row is cyclic; the order in
which a commitment lists the rows of a column plays no part in constraints.
A cell of a table is read off the writes that name it.
-/

/-- Columns by number, each by row. -/
abbrev Columns := ℕ → ℕ → M31

/-- A value written to a cell, named by column and row. -/
abbrev Write := (ℕ × ℕ) × M31

/-- Columns of zeros after a list of writes. -/
def columnsOf (writes : List Write) : Columns :=
  fun column row => Machine.writeAll (fun _ => 0) writes (column, row)

/-- The largest size that `CanonicCoset::new` takes: the coset is half of a subgroup
of twice its size, and the circle group has `2 ^ 31` points. -/
def maxCosetLogSize : ℕ := 30

/-- The previous row; the first row's is the last. -/
def previousRow (logSize row : ℕ) : ℕ := (row + 2 ^ logSize - 1) % 2 ^ logSize

theorem previousRow_succ {logSize row : ℕ} (inside : row + 1 < 2 ^ logSize) :
    previousRow logSize (row + 1) = row := by
  have shifted : row + 1 + 2 ^ logSize - 1 = row + 2 ^ logSize := by omega
  rw [previousRow, shifted, Nat.add_mod_right, Nat.mod_eq_of_lt (by omega)]

def m31 (v : ℕ) : M31 := (v % P : ℕ)

@[simp] theorem m31_eq_cast (v : ℕ) : m31 v = (v : M31) := cast_mod v

/-- Four consecutive columns of a row. -/
def readQuad (columns : Columns) (column row : ℕ) : Quad M31 :=
  Quad.tabulate (fun column => columns column row) column

/-- Eight consecutive columns of a row. -/
def readState (columns : Columns) (column row : ℕ) : State M31 :=
  State.tabulate (fun column => columns column row) column

/-- Cell of a state by number. -/
def stateCell (state : State M31) : ℕ → M31
  | 0 => state.s0
  | 1 => state.s1
  | 2 => state.s2
  | 3 => state.s3
  | 4 => state.s4
  | 5 => state.s5
  | 6 => state.s6
  | _ => state.s7

/-- Word of a quad by number. -/
def quadCell (quad : Quad M31) : ℕ → M31
  | 0 => quad.w0
  | 1 => quad.w1
  | 2 => quad.w2
  | _ => quad.w3

theorem readState_of_cells {columns : Columns} {column row : ℕ} {state : State M31}
    (cells : ∀ i < 8, columns (column + i) row = stateCell state i) :
    readState columns column row = state :=
  State.ext (cells 0 (by omega)) (cells 1 (by omega)) (cells 2 (by omega)) (cells 3 (by omega))
    (cells 4 (by omega)) (cells 5 (by omega)) (cells 6 (by omega)) (cells 7 (by omega))

theorem readQuad_of_cells {columns : Columns} {column row : ℕ} {quad : Quad M31}
    (cells : ∀ i < 4, columns (column + i) row = quadCell quad i) :
    readQuad columns column row = quad :=
  Quad.ext (cells 0 (by omega)) (cells 1 (by omega)) (cells 2 (by omega)) (cells 3 (by omega))

/-- Four words written to consecutive columns of a row. -/
def quadWrites (column row : ℕ) (words : Quad ℕ) : List Write :=
  [((column, row), m31 words.w0), ((column + 1, row), m31 words.w1),
    ((column + 2, row), m31 words.w2), ((column + 3, row), m31 words.w3)]

/-- The values written to a cell, in order. -/
def written (column row : ℕ) (writes : List Write) : List M31 :=
  Machine.valuesOf (column, row) writes

@[simp] theorem written_nil (column row : ℕ) : written column row [] = [] := rfl

@[simp] theorem written_cons (column row : ℕ) (write : Write) (rest : List Write) :
    written column row (write :: rest) =
      if write.1.1 = column ∧ write.1.2 = row then write.2 :: written column row rest
      else written column row rest := by
  rcases write with ⟨⟨c, r⟩, value⟩
  split
  case isTrue own =>
    rcases own with ⟨rfl, rfl⟩
    exact Machine.valuesOf_cons_self _ _
  case isFalse other =>
    apply Machine.valuesOf_cons_of_ne
    intro same
    exact other ⟨congrArg Prod.fst same, congrArg Prod.snd same⟩

@[simp] theorem written_append (column row : ℕ) (first second : List Write) :
    written column row (first ++ second) =
      written column row first ++ written column row second :=
  Machine.valuesOf_append _ _ _

@[simp] theorem written_ite (column row : ℕ) (condition : Prop) [Decidable condition]
    (first second : List Write) :
    written column row (if condition then first else second) =
      if condition then written column row first else written column row second := by
  split <;> rfl

theorem columnsOf_apply (writes : List Write) (column row : ℕ) :
    columnsOf writes column row = (written column row writes).getLast?.getD 0 :=
  Machine.writeAll_apply _ _ _

theorem written_eq_nil_of_row {column row : ℕ} {writes : List Write}
    (other : ∀ write ∈ writes, write.1.2 ≠ row) : written column row writes = [] := by
  apply List.eq_nil_iff_forall_not_mem.mpr
  intro value member
  exact other _ (Machine.mem_valuesOf.mp member) rfl

theorem written_eq_nil_of_column {column row : ℕ} {writes : List Write}
    (other : ∀ write ∈ writes, write.1.1 ≠ column) : written column row writes = [] := by
  apply List.eq_nil_iff_forall_not_mem.mpr
  intro value member
  exact other _ (Machine.mem_valuesOf.mp member) rfl

/-- Blocks of writes told apart by a label of their rows: a cell is read off
the block of its row. -/
theorem written_blocks (label : ℕ → ℕ) {blocks : ℕ → List Write} {count : ℕ}
    (labelled : ∀ k < count, ∀ write ∈ blocks k, label write.1.2 = k) {column row : ℕ}
    (inside : label row < count) :
    written column row ((List.range count).flatMap blocks) =
      written column row (blocks (label row)) := by
  unfold written
  rw [Machine.valuesOf_flatMap]
  apply Machine.flatMap_eq_of_unique List.nodup_range (List.mem_range.mpr inside)
  intro k member different
  apply written_eq_nil_of_row
  rintro write listed rfl
  exact different (labelled k (List.mem_range.mp member) write listed).symm

/-- The same for blocks that are numbered entries of a list. -/
theorem written_zipIdx {Entry : Type*} (label : ℕ → ℕ) {entries : List Entry}
    {blocks : Entry × ℕ → List Write}
    (labelled : ∀ entry ∈ entries.zipIdx, ∀ write ∈ blocks entry, label write.1.2 = entry.2)
    {column row : ℕ} {entry : Entry} (found : entries[label row]? = some entry) :
    written column row (entries.zipIdx.flatMap blocks) =
      written column row (blocks (entry, label row)) := by
  have distinct : entries.zipIdx.Nodup := by
    apply List.Nodup.of_map Prod.snd
    rw [List.zipIdx_map_snd]
    exact List.nodup_range'
  unfold written
  rw [Machine.valuesOf_flatMap]
  apply Machine.flatMap_eq_of_unique distinct (List.mk_mem_zipIdx_iff_getElem?.mpr found)
  rintro ⟨other, k⟩ member different
  apply written_eq_nil_of_row
  rintro write listed rfl
  have place : label write.1.2 = k := labelled _ member write listed
  have own := List.mk_mem_zipIdx_iff_getElem?.mp member
  rw [place, own] at found
  rw [place, Option.some.inj found] at different
  exact different rfl

end Recursive
end QLSA
