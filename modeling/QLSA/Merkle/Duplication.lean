import Mathlib.Algebra.Free
import Mathlib.Data.List.Basic
import Mathlib.Tactic.Ring

namespace QLSA
namespace Merkle

/-!
# Hash trees that duplicate the last node of an odd level

The levels of such a tree are computed bottom-up, two neighbours at a time.
The last node of a level of odd width is paired with itself.  The root
therefore does not depend on the leaves alone but on the leaves as they were
filled up to a power of two, and lists of different lengths can be filled up
to the same leaves.

The construction commutes with every map that preserves pairing.  Reading it
in the free magma gives the shape of the tree, and reading it in lists under
concatenation gives the filled-up leaves, `padded`.  For an injective pairing
that keeps leaves apart from inner nodes, equal roots are exactly equal
filled-up leaves.
-/

section Levels

variable {Node : Type*} (pair : Node → Node → Node)

/-- One level from the one below it; an odd last node is paired with itself. -/
def pairUp : List Node → List Node
  | [] => []
  | [last] => [pair last last]
  | left :: right :: rest => pair left right :: pairUp rest

theorem pairUp_length (level : List Node) :
    (pairUp pair level).length = (level.length + 1) / 2 := by
  induction level using pairUp.induct with
  | case1 => simp [pairUp]
  | case2 last => simp [pairUp]
  | case3 left right rest ih =>
      simp only [pairUp, List.length_cons, ih]
      omega

/-- All levels from the leaves to the root, built while a level has more than
one node. -/
def levelsFrom (level : List Node) : List (List Node) :=
  if 1 < level.length then level :: levelsFrom (pairUp pair level) else [level]
termination_by level.length
decreasing_by
  rw [pairUp_length]
  omega

/-- The single node of the last level. -/
def apex (leaves : List Node) : Option Node :=
  (levelsFrom pair leaves).getLast?.bind List.head?

theorem levelsFrom_ne_nil (level : List Node) : levelsFrom pair level ≠ [] := by
  rw [levelsFrom]
  split <;> simp

theorem apex_of_wide {level : List Node} (wide : 1 < level.length) :
    apex pair level = apex pair (pairUp pair level) := by
  have below : levelsFrom pair level = level :: levelsFrom pair (pairUp pair level) := by
    rw [levelsFrom, if_pos wide]
  unfold apex
  rw [below, List.getLast?_cons]
  cases found : (levelsFrom pair (pairUp pair level)).getLast? with
  | none => exact absurd (List.getLast?_eq_none_iff.mp found) (levelsFrom_ne_nil pair _)
  | some last => rfl

@[simp] theorem apex_singleton (node : Node) : apex pair [node] = some node := by
  unfold apex
  rw [levelsFrom]
  simp

theorem pairUp_ne_nil {level : List Node} (nonempty : level ≠ []) :
    pairUp pair level ≠ [] := by
  cases level with
  | nil => exact absurd rfl nonempty
  | cons first rest => cases rest <;> simp [pairUp]

/-- Induction along the construction of the levels. -/
theorem level_induction {motive : (level : List Node) → level ≠ [] → Prop}
    (single : ∀ node, motive [node] (List.cons_ne_nil node []))
    (step : ∀ level nonempty, 1 < level.length →
      motive (pairUp pair level) (pairUp_ne_nil pair nonempty) → motive level nonempty)
    (level : List Node) (nonempty : level ≠ []) : motive level nonempty := by
  by_cases wide : 1 < level.length
  · exact step level nonempty wide
      (level_induction single step (pairUp pair level) (pairUp_ne_nil pair nonempty))
  · have positive : 0 < level.length := List.length_pos_iff.mpr nonempty
    obtain ⟨node, rfl⟩ := List.length_eq_one_iff.mp (by omega : level.length = 1)
    exact single node
termination_by level.length
decreasing_by
  rw [pairUp_length]
  omega

/-- The last level consists of the apex alone. -/
theorem levelsFrom_getLast (level : List Node) (nonempty : level ≠ []) :
    ∃ root, apex pair level = some root ∧ (levelsFrom pair level).getLast? = some [root] := by
  induction level, nonempty using level_induction pair with
  | single node => exact ⟨node, by simp, by rw [levelsFrom]; simp⟩
  | step level nonempty wide ih =>
      obtain ⟨root, found, last⟩ := ih
      refine ⟨root, by rwa [apex_of_wide pair wide], ?_⟩
      rw [levelsFrom, if_pos wide, List.getLast?_cons, last]
      rfl

end Levels

/-! ## Maps that preserve pairing -/

section Maps

variable {Source Target : Type*} (sourcePair : Source → Source → Source)
  (targetPair : Target → Target → Target) (map : Source → Target)

theorem pairUp_map (preserves : ∀ left right,
      map (sourcePair left right) = targetPair (map left) (map right))
    (level : List Source) :
    pairUp targetPair (level.map map) = (pairUp sourcePair level).map map := by
  induction level using pairUp.induct with
  | case1 => rfl
  | case2 last => simp [pairUp, preserves]
  | case3 left right rest ih => simp [pairUp, preserves, ih]

theorem apex_map (preserves : ∀ left right,
      map (sourcePair left right) = targetPair (map left) (map right))
    (level : List Source) (nonempty : level ≠ []) :
    apex targetPair (level.map map) = (apex sourcePair level).map map := by
  induction level, nonempty using level_induction sourcePair with
  | single node => simp
  | step level nonempty wide ih =>
      rw [apex_of_wide targetPair (by simpa using wide), apex_of_wide sourcePair wide,
        pairUp_map sourcePair targetPair map preserves, ih]

end Maps

/-! ## Shapes and filled-up leaves -/

variable {Value Node : Type*}

/-- The leaves of a shape from left to right. -/
def frontier : FreeMagma Value → List Value
  | .of value => [value]
  | .mul left right => frontier left ++ frontier right

/-- A complete binary shape of the given height. -/
def Complete : ℕ → FreeMagma Value → Prop
  | 0, .of _ => True
  | height + 1, .mul left right => Complete height left ∧ Complete height right
  | _, _ => False

theorem Complete.frontier_length {height : ℕ} {shape : FreeMagma Value}
    (complete : Complete height shape) : (frontier shape).length = 2 ^ height := by
  induction shape generalizing height with
  | ih1 value =>
      cases height with
      | zero => rfl
      | succ height => exact complete.elim
  | ih2 left right leftLength rightLength =>
      cases height with
      | zero => exact complete.elim
      | succ height =>
          change (frontier left ++ frontier right).length = 2 ^ (height + 1)
          rw [List.length_append, leftLength complete.1, rightLength complete.2]
          ring

/-- Complete shapes of one height are determined by their leaves. -/
theorem Complete.eq_of_frontier {height : ℕ} {first second : FreeMagma Value}
    (firstComplete : Complete height first) (secondComplete : Complete height second)
    (same : frontier first = frontier second) : first = second := by
  induction height generalizing first second with
  | zero =>
      cases first with
      | mul _ _ => exact firstComplete.elim
      | of value =>
          cases second with
          | mul _ _ => exact secondComplete.elim
          | of other =>
              have values : [value] = [other] := same
              rw [List.singleton_inj.mp values]
  | succ height ih =>
      cases first with
      | of _ => exact firstComplete.elim
      | mul firstLeft firstRight =>
          cases second with
          | of _ => exact secondComplete.elim
          | mul secondLeft secondRight =>
              have lengths : (frontier firstLeft).length = (frontier secondLeft).length := by
                rw [Complete.frontier_length firstComplete.1,
                  Complete.frontier_length secondComplete.1]
              obtain ⟨left, right⟩ := List.append_inj same lengths
              rw [ih firstComplete.1 secondComplete.1 left,
                ih firstComplete.2 secondComplete.2 right]

theorem pairUp_complete {height : ℕ} {level : List (FreeMagma Value)}
    (complete : ∀ shape ∈ level, Complete height shape) :
    ∀ shape ∈ pairUp FreeMagma.mul level, Complete (height + 1) shape := by
  induction level using pairUp.induct with
  | case1 => simp [pairUp]
  | case2 last =>
      intro shape member
      obtain rfl : shape = last.mul last := by simpa [pairUp] using member
      exact ⟨complete last (by simp), complete last (by simp)⟩
  | case3 left right rest ih =>
      intro shape member
      rcases List.mem_cons.mp member with rfl | later
      · exact ⟨complete left (by simp), complete right (by simp)⟩
      · exact ih (fun shape member => complete shape (by simp [member])) shape later

theorem apex_complete (level : List (FreeMagma Value)) (nonempty : level ≠ []) {height : ℕ}
    (complete : ∀ shape ∈ level, Complete height shape) :
    ∃ total root, apex FreeMagma.mul level = some root ∧ Complete total root := by
  induction level, nonempty using level_induction FreeMagma.mul generalizing height with
  | single node => exact ⟨height, node, by simp, complete node (by simp)⟩
  | step level nonempty wide ih =>
      rw [apex_of_wide FreeMagma.mul wide]
      exact ih (pairUp_complete complete)

/-- The leaves a root commits to: the given ones, filled up by the duplications. -/
def padded (values : List Value) : List Value :=
  (apex List.append (values.map ([·]))).getD []

/-- Filling up only appends. -/
theorem flatten_prefix_pairUp (blocks : List (List Value)) :
    blocks.flatten <+: (pairUp List.append blocks).flatten := by
  induction blocks using pairUp.induct with
  | case1 => exact List.prefix_rfl
  | case2 last => simp [pairUp]
  | case3 left right rest ih =>
      simpa [pairUp] using ih

theorem flatten_prefix_apex (blocks : List (List Value)) (nonempty : blocks ≠ []) :
    blocks.flatten <+: (apex List.append blocks).getD [] := by
  induction blocks, nonempty using level_induction List.append with
  | single node => simp
  | step level nonempty wide ih =>
      rw [apex_of_wide _ wide]
      exact (flatten_prefix_pairUp level).trans ih

theorem prefix_padded (values : List Value) (nonempty : values ≠ []) :
    values <+: padded values := by
  have filled := flatten_prefix_apex (values.map ([·])) (by simpa using nonempty)
  rwa [← List.flatMap_def, List.flatMap_singleton'] at filled

/-- Lists of one length have different fillings unless they are equal. -/
theorem padded_inj_of_length_eq {first second : List Value} (firstNonempty : first ≠ [])
    (secondNonempty : second ≠ []) (lengths : first.length = second.length)
    (same : padded first = padded second) : first = second := by
  have firstPrefix := prefix_padded first firstNonempty
  rw [same] at firstPrefix
  exact (List.prefix_of_prefix_length_le firstPrefix (prefix_padded second secondNonempty)
    lengths.le).eq_of_length lengths

section Injective

variable {pair : Node → Node → Node} (injective : Function.Injective2 pair)

/-- The value of a shape under an interpretation of its leaves. -/
def evaluate (pair : Node → Node → Node) (leaf : Value → Node) : FreeMagma Value → Node
  | .of value => leaf value
  | .mul left right => pair (evaluate pair leaf left) (evaluate pair leaf right)

include injective

theorem evaluate_injective {leaf : Value → Node} (leafInjective : Function.Injective leaf)
    (separate : ∀ value left right, leaf value ≠ pair left right) :
    Function.Injective (evaluate pair leaf) := by
  intro first
  induction first with
  | ih1 value =>
      intro second same
      cases second with
      | of other => rw [leafInjective same]
      | mul left right => exact absurd same (separate value _ _)
  | ih2 left right leftInjective rightInjective =>
      intro second same
      cases second with
      | of other => exact absurd same.symm (separate other _ _)
      | mul otherLeft otherRight =>
          obtain ⟨leftSame, rightSame⟩ := injective same
          rw [leftInjective leftSame, rightInjective rightSame]
          rfl

/-- Roots agree exactly when the filled-up leaves do. -/
theorem apex_eq_iff_padded {leaf : Value → Node} (leafInjective : Function.Injective leaf)
    (separate : ∀ value left right, leaf value ≠ pair left right)
    {first second : List Value} (firstNonempty : first ≠ []) (secondNonempty : second ≠ []) :
    apex pair (first.map leaf) = apex pair (second.map leaf) ↔
      padded first = padded second := by
  have shapeOf (values : List Value) (nonempty : values ≠ []) :
      ∃ height shape, apex FreeMagma.mul (values.map FreeMagma.of) = some shape ∧
        Complete height shape ∧
        apex pair (values.map leaf) = some (evaluate pair leaf shape) ∧
        padded values = frontier shape := by
    have mapped : values.map FreeMagma.of ≠ [] := by simpa using nonempty
    have leavesComplete : ∀ shape ∈ values.map FreeMagma.of, Complete 0 shape := by
      simp [Complete]
    obtain ⟨height, shape, found, complete⟩ :=
      apex_complete (values.map FreeMagma.of) mapped leavesComplete
    refine ⟨height, shape, found, complete, ?_, ?_⟩
    · have image := apex_map FreeMagma.mul pair (evaluate pair leaf) (fun _ _ => rfl)
        (values.map FreeMagma.of) mapped
      rw [found, List.map_map] at image
      exact image
    · have image := apex_map FreeMagma.mul List.append frontier (fun _ _ => rfl)
        (values.map FreeMagma.of) mapped
      rw [found, List.map_map] at image
      exact congrArg (fun result => result.getD []) image
  obtain ⟨firstHeight, firstShape, -, firstComplete, firstRoot, firstPadded⟩ :=
    shapeOf first firstNonempty
  obtain ⟨secondHeight, secondShape, -, secondComplete, secondRoot, secondPadded⟩ :=
    shapeOf second secondNonempty
  rw [firstRoot, secondRoot, firstPadded, secondPadded]
  constructor
  · intro same
    rw [evaluate_injective injective leafInjective separate (Option.some.inj same)]
  · intro same
    have lengths := congrArg List.length same
    rw [firstComplete.frontier_length, secondComplete.frontier_length] at lengths
    have heights : firstHeight = secondHeight :=
      Nat.pow_right_injective (le_refl 2) lengths
    subst heights
    rw [firstComplete.eq_of_frontier secondComplete same]

end Injective

end Merkle
end QLSA
