import QLSA.Merkle.Duplication
import QLSA.Merkle.Path
import Mathlib.Data.Nat.Bitwise
import Mathlib.Data.Nat.Log

namespace QLSA
namespace Merkle

/-!
# Paths through stored levels

A tree kept as the list of its levels yields the path of a leaf by reading one
sibling from every level below the root.  The sibling of an odd last node is
the node itself, as it was when the level above was computed.  Climbing along
these siblings arrives at the root, and a list of leaves has as many levels
below the root as its length needs binary digits, `Nat.clog 2`.
-/

variable {Node : Type*} (pair : Node → Node → Node)

/-- The siblings of the positions above `index`, one from each level.  A
position past the end of a level stands for its last node; there is none in an
empty level. -/
def siblingsThrough : List (List Node) → ℕ → Option (List Node)
  | [], _ => some []
  | level :: levels, index => do
      let sibling ← level[min (index ^^^ 1) (level.length - 1)]?
      let above ← siblingsThrough levels (index / 2)
      return sibling :: above

theorem xor_one_add_two (index : ℕ) : (index + 2) ^^^ 1 = (index ^^^ 1) + 2 := by
  rcases Nat.even_or_odd index with even | odd
  · rw [Nat.xor_one_of_even even, Nat.xor_one_of_even (even.add (by decide))]
  · have positive : index % 2 = 1 := Nat.odd_iff.mp odd
    rw [Nat.xor_one_of_odd odd, Nat.xor_one_of_odd (odd.add_even (by decide))]
    omega

/-- A node of the next level is the pairing of two neighbours. -/
theorem pairUp_getElem? {level : List Node} {index : ℕ} {node sibling : Node}
    (nodeAt : level[index]? = some node)
    (siblingAt : level[min (index ^^^ 1) (level.length - 1)]? = some sibling) :
    (pairUp pair level)[index / 2]? =
      some (if decide (index % 2 = 1) then pair sibling node else pair node sibling) := by
  induction level using pairUp.induct generalizing index with
  | case1 => simp at nodeAt
  | case2 last =>
      have first : index = 0 := by
        by_contra other
        rw [List.getElem?_eq_none (by simp only [List.length_singleton]; omega)] at nodeAt
        cases nodeAt
      subst first
      cases nodeAt
      cases siblingAt
      rfl
  | case3 left right rest ih =>
      rcases index with _ | _ | index
      · cases nodeAt
        cases siblingAt
        rfl
      · cases nodeAt
        cases siblingAt
        rfl
      · have inside : index < rest.length := by
          rw [List.getElem?_cons_succ, List.getElem?_cons_succ] at nodeAt
          exact (List.getElem?_eq_some_iff.mp nodeAt).1
        have place : min ((index + 2) ^^^ 1) ((left :: right :: rest).length - 1) =
            min (index ^^^ 1) (rest.length - 1) + 2 := by
          rw [xor_one_add_two]
          simp only [List.length_cons]
          omega
        rw [place] at siblingAt
        have half : (index + 2) / 2 = index / 2 + 1 := by omega
        have parity : (index + 2) % 2 = index % 2 := by omega
        rw [half, parity]
        exact ih nodeAt siblingAt

/-- Every node of a level has a sibling in it. -/
theorem sibling_exists {level : List Node} (nonempty : level ≠ []) (index : ℕ) :
    ∃ sibling, level[min (index ^^^ 1) (level.length - 1)]? = some sibling := by
  have positive : 0 < level.length := List.length_pos_iff.mpr nonempty
  exact ⟨_, List.getElem?_eq_getElem (by omega)⟩

/-- A level needs one digit more than the one above it. -/
theorem clog_pairUp {level : List Node} (wide : 1 < level.length) :
    Nat.clog 2 level.length = Nat.clog 2 (pairUp pair level).length + 1 := by
  have digit := Nat.clog_of_two_le (b := 2) (by decide) (show 2 ≤ level.length by omega)
  rw [digit, pairUp_length]
  rfl

theorem levelsFrom_length (level : List Node) (nonempty : level ≠ []) :
    (levelsFrom pair level).length = Nat.clog 2 level.length + 1 := by
  induction level, nonempty using level_induction pair with
  | single node =>
      rw [levelsFrom]
      simp
  | step level nonempty wide ih =>
      rw [levelsFrom, if_pos wide, List.length_cons, ih, clog_pairUp pair wide]

/-- The siblings read from the levels lead from a leaf to the root. -/
theorem siblingsThrough_spec (level : List Node) (nonempty : level ≠ []) {index : ℕ}
    {leaf root : Node} (leafAt : level[index]? = some leaf) (top : apex pair level = some root) :
    ∃ siblings, siblingsThrough (levelsFrom pair level).dropLast index = some siblings ∧
      siblings.length = Nat.clog 2 level.length ∧
      pathRoot pair leaf siblings (indexBits (Nat.clog 2 level.length) index) = root := by
  induction level, nonempty using level_induction pair generalizing index leaf with
  | single node =>
      rw [apex_singleton] at top
      have first : index = 0 := by
        have inside := (List.getElem?_eq_some_iff.mp leafAt).1
        simp only [List.length_singleton] at inside
        omega
      subst first
      cases leafAt
      cases top
      refine ⟨[], ?_, by simp, by simp⟩
      rw [levelsFrom]
      rfl
  | step level nonempty wide ih =>
      rw [apex_of_wide pair wide] at top
      rcases sibling_exists nonempty index with ⟨sibling, siblingAt⟩
      have parentAt := pairUp_getElem? pair leafAt siblingAt
      rcases ih parentAt top with ⟨above, read, count, climbed⟩
      have depth := clog_pairUp pair wide
      have below : (levelsFrom pair level).dropLast =
          level :: (levelsFrom pair (pairUp pair level)).dropLast := by
        rw [levelsFrom, if_pos wide]
        exact List.dropLast_cons_of_ne_nil (levelsFrom_ne_nil pair _)
      refine ⟨sibling :: above, ?_, ?_, ?_⟩
      · rw [below, siblingsThrough, siblingAt, read]
        rfl
      · rw [List.length_cons, count, depth]
      · rw [depth, indexBits, pathRoot_cons]
        exact climbed

/-- What pairing keeps holds of the next level. -/
theorem pairUp_forall {p : Node → Prop}
    (closed : ∀ left right, p left → p right → p (pair left right))
    {level : List Node} (nodes : ∀ node ∈ level, p node) :
    ∀ node ∈ pairUp pair level, p node := by
  induction level using pairUp.induct with
  | case1 => exact fun _ member => absurd member List.not_mem_nil
  | case2 last =>
      have own := nodes last List.mem_cons_self
      exact List.forall_mem_singleton.mpr (closed last last own own)
  | case3 left right rest ih =>
      rw [List.forall_mem_cons, List.forall_mem_cons] at nodes
      rw [pairUp, List.forall_mem_cons]
      exact ⟨closed left right nodes.1 nodes.2.1, ih nodes.2.2⟩

/-- What pairing keeps holds of all stored nodes. -/
theorem levelsFrom_forall {p : Node → Prop}
    (closed : ∀ left right, p left → p right → p (pair left right)) {level : List Node}
    (nonempty : level ≠ []) (nodes : ∀ node ∈ level, p node) :
    ∀ stored ∈ levelsFrom pair level, ∀ node ∈ stored, p node := by
  induction level, nonempty using level_induction pair with
  | single node =>
      rw [levelsFrom]
      simpa using nodes
  | step level nonempty wide ih =>
      rw [levelsFrom, if_pos wide, List.forall_mem_cons]
      exact ⟨nodes, ih (pairUp_forall pair closed nodes)⟩

/-- Siblings are stored nodes. -/
theorem siblingsThrough_forall {p : Node → Prop} {levels : List (List Node)} {index : ℕ}
    {siblings : List Node} (kept : ∀ stored ∈ levels, ∀ node ∈ stored, p node)
    (read : siblingsThrough levels index = some siblings) : ∀ sibling ∈ siblings, p sibling := by
  induction levels generalizing index siblings with
  | nil =>
      cases read
      exact nofun
  | cons level levels ih =>
      rw [List.forall_mem_cons] at kept
      rw [siblingsThrough] at read
      cases here : level[min (index ^^^ 1) (level.length - 1)]? with
      | none => rw [here] at read; cases read
      | some sibling =>
          cases rest : siblingsThrough levels (index / 2) with
          | none => rw [here, rest] at read; cases read
          | some above =>
              rw [here, rest] at read
              cases read
              exact List.forall_mem_cons.mpr
                ⟨kept.1 sibling (List.mem_of_getElem? here), ih kept.2 rest⟩

/-- Neighbours of a level of even width, two at a time. -/
def pairsOf : List Node → List (Node × Node)
  | [] => []
  | [_] => []
  | left :: right :: rest => (left, right) :: pairsOf rest

/-- What the inner nodes of a tree are paired from, bottom-up. -/
def nodeInputs (level : List Node) : List (Node × Node) :=
  (levelsFrom pair level).dropLast.flatMap pairsOf

@[simp] theorem nodeInputs_singleton (node : Node) : nodeInputs pair [node] = [] := by
  rw [nodeInputs, levelsFrom]
  simp

theorem nodeInputs_of_wide {level : List Node} (wide : 1 < level.length) :
    nodeInputs pair level = pairsOf level ++ nodeInputs pair (pairUp pair level) := by
  have below : (levelsFrom pair level).dropLast =
      level :: (levelsFrom pair (pairUp pair level)).dropLast := by
    rw [levelsFrom, if_pos wide]
    exact List.dropLast_cons_of_ne_nil (levelsFrom_ne_nil pair _)
  rw [nodeInputs, below, List.flatMap_cons]
  rfl

theorem pairsOf_length (level : List Node) : (pairsOf level).length = level.length / 2 := by
  induction level using pairsOf.induct with
  | case1 => simp [pairsOf]
  | case2 last => simp [pairsOf]
  | case3 left right rest ih =>
      rw [pairsOf, List.length_cons, ih, List.length_cons, List.length_cons]
      omega

theorem pairsOf_forall {p : Node → Prop} {level : List Node} (nodes : ∀ node ∈ level, p node) :
    ∀ input ∈ pairsOf level, p input.1 ∧ p input.2 := by
  induction level using pairsOf.induct with
  | case1 => exact nofun
  | case2 last => exact nofun
  | case3 left right rest ih =>
      rw [List.forall_mem_cons, List.forall_mem_cons] at nodes
      rw [pairsOf, List.forall_mem_cons]
      exact ⟨⟨nodes.1, nodes.2.1⟩, ih nodes.2.2⟩

theorem pairsOf_getElem? (level : List Node) (index : ℕ) :
    (pairsOf level)[index]? =
      level[2 * index]?.bind fun left => level[2 * index + 1]?.map fun right => (left, right) := by
  induction level using pairsOf.induct generalizing index with
  | case1 => simp [pairsOf]
  | case2 last => simp [pairsOf]
  | case3 left right rest ih =>
      cases index with
      | zero => rfl
      | succ index =>
          rw [pairsOf, List.getElem?_cons_succ, ih]
          rfl

theorem pairsOf_append {level : List Node} (even : level.length % 2 = 0) (rest : List Node) :
    pairsOf (level ++ rest) = pairsOf level ++ pairsOf rest := by
  induction level using pairsOf.induct with
  | case1 => rfl
  | case2 last => contradiction
  | case3 left right others ih =>
      rw [List.length_cons, List.length_cons, Nat.add_assoc, Nat.add_mod_right] at even
      rw [pairsOf, List.cons_append, List.cons_append, pairsOf, ih even]
      rfl

theorem pairsOf_map_pair {level : List Node} (even : level.length % 2 = 0) :
    (pairsOf level).map (fun input => pair input.1 input.2) = pairUp pair level := by
  induction level using pairsOf.induct with
  | case1 => rfl
  | case2 last => contradiction
  | case3 left right rest ih =>
      rw [List.length_cons, List.length_cons, Nat.add_assoc, Nat.add_mod_right] at even
      rw [pairsOf, List.map_cons, ih even, pairUp]

theorem nodeInputs_forall {p : Node → Prop}
    (closed : ∀ left right, p left → p right → p (pair left right)) {level : List Node}
    (nonempty : level ≠ []) (nodes : ∀ node ∈ level, p node) :
    ∀ input ∈ nodeInputs pair level, p input.1 ∧ p input.2 := by
  induction level, nonempty using level_induction pair with
  | single node => simp
  | step level nonempty wide ih =>
      rw [nodeInputs_of_wide pair wide]
      intro input member
      rcases List.mem_append.mp member with own | above
      · exact pairsOf_forall nodes input own
      · exact ih (pairUp_forall pair closed nodes) input above

/-- A tree over `2 ^ height` leaves has an input for each inner node, and the last is
that of the root. -/
theorem nodeInputs_spec {height : ℕ} {level : List Node} (count : level.length = 2 ^ height) :
    (nodeInputs pair level).length = 2 ^ height - 1 ∧
      (1 ≤ height → ∃ left right, (nodeInputs pair level).getLast? = some (left, right) ∧
        apex pair level = some (pair left right)) := by
  induction height generalizing level with
  | zero =>
      rcases List.length_eq_one_iff.mp count with ⟨node, rfl⟩
      simp
  | succ height ih =>
      have positive := Nat.two_pow_pos height
      have wide : 1 < level.length := by
        rw [count, pow_succ]
        omega
      have half : (pairUp pair level).length = 2 ^ height := by
        rw [pairUp_length, count, pow_succ]
        omega
      rcases ih half with ⟨above, root⟩
      rw [nodeInputs_of_wide pair wide, apex_of_wide pair wide]
      refine ⟨?_, ?_⟩
      · rw [List.length_append, pairsOf_length, above, count, pow_succ]
        omega
      · intro _
        cases height with
        | zero =>
            rw [zero_add, pow_one] at count
            rcases List.length_eq_two.mp count with ⟨left, right, rfl⟩
            exact ⟨left, right, by simp [pairsOf, pairUp], by simp [pairUp]⟩
        | succ height =>
            rcases root (Nat.succ_le_succ (Nat.zero_le height)) with ⟨left, right, last, top⟩
            refine ⟨left, right, ?_, top⟩
            rw [List.getLast?_append, last]
            rfl

/-- The leaves and then the inner nodes, two at a time, are what the inner nodes are
paired from. -/
theorem pairsOf_nodes {height : ℕ} {level : List Node} (count : level.length = 2 ^ height) :
    pairsOf (level ++ (nodeInputs pair level).map fun input => pair input.1 input.2) =
      nodeInputs pair level := by
  induction height generalizing level with
  | zero =>
      rcases List.length_eq_one_iff.mp count with ⟨node, rfl⟩
      simp [pairsOf]
  | succ height ih =>
      have positive := Nat.two_pow_pos height
      have even : level.length % 2 = 0 := by
        rw [count, pow_succ, Nat.mul_mod_left]
      have wide : 1 < level.length := by
        rw [count, pow_succ]
        omega
      have half : (pairUp pair level).length = 2 ^ height := by
        rw [pairUp_length, count, pow_succ]
        omega
      rw [nodeInputs_of_wide pair wide, List.map_append, pairsOf_map_pair pair even,
        pairsOf_append even, ih half]

/-! ## Complete levels -/

/-- Pairing up the values of an even number of positions. -/
theorem pairUp_range (values : ℕ → Node) (count : ℕ) :
    pairUp pair ((List.range (2 * count)).map values) =
      (List.range count).map fun index => pair (values (2 * index)) (values (2 * index + 1)) := by
  induction count generalizing values with
  | zero => rfl
  | succ count ih =>
      have positions : (List.range (2 * (count + 1))).map values =
          values 0 :: values 1 :: (List.range (2 * count)).map (fun index => values (index + 2)) := by
        rw [Nat.mul_succ, List.range_succ_eq_map, List.range_succ_eq_map]
        simp [Function.comp_def]
      rw [positions, pairUp, ih, List.range_succ_eq_map]
      simp [Function.comp_def, Nat.mul_succ]

/-- A tree over pairs of neighbours is the tree over all values, one level lower. -/
theorem subtreeRoot_pairs (values : ℕ → Node) (height index : ℕ) :
    subtreeRoot pair (fun i => pair (values (2 * i)) (values (2 * i + 1))) height index =
      subtreeRoot pair values (height + 1) index := by
  induction height generalizing index with
  | zero => rfl
  | succ height ih =>
      rw [subtreeRoot, ih, ih]
      rfl

/-- The root of the materialised tree over `2 ^ height` values is the root of
their complete tree. -/
theorem apex_range (values : ℕ → Node) (height : ℕ) :
    apex pair ((List.range (2 ^ height)).map values) = some (subtreeRoot pair values height 0) := by
  induction height generalizing values with
  | zero => exact apex_singleton pair (values 0)
  | succ height ih =>
      have positive := Nat.two_pow_pos height
      have wide : 1 < ((List.range (2 ^ (height + 1))).map values).length := by
        rw [List.length_map, List.length_range, pow_succ]
        omega
      rw [apex_of_wide pair wide, pow_succ, Nat.mul_comm, pairUp_range, ih, subtreeRoot_pairs]

/-! ## Trees in one sequence -/

/-- Place of the first node of a level when the levels follow one another, leaves
first. -/
def levelStart (height level : ℕ) : ℕ := 2 ^ (height + 1) - 2 ^ (height + 1 - level)

/-- In a sequence of leaves and nodes in which the pairing of entries `2 b` and
`2 b + 1` is the entry `2 ^ height + b`, each level stands in one piece. -/
theorem sequence_eq_subtreeRoot (values : ℕ → Node) (height : ℕ)
    (paired : ∀ b < 2 ^ height - 1,
      values (2 ^ height + b) = pair (values (2 * b)) (values (2 * b + 1)))
    {level index : ℕ} (below : level ≤ height) (inside : index < 2 ^ (height - level)) :
    values (levelStart height level + index) = subtreeRoot pair values level index := by
  induction level generalizing index with
  | zero => simp [levelStart, subtreeRoot]
  | succ level ih =>
      have width : 2 ^ (height - level) = 2 * 2 ^ (height - (level + 1)) := by
        rw [← pow_succ']
        congr 1
        omega
      have above : 2 ^ (height + 1 - level) = 2 * 2 ^ (height - level) := by
        rw [← pow_succ']
        congr 1
        omega
      have leaves : 2 ^ (height + 1) = 2 * 2 ^ height := pow_succ' 2 height
      have smaller : 2 ^ (height - level) ≤ 2 ^ height :=
        Nat.pow_le_pow_right (by decide) (Nat.sub_le height level)
      have next : levelStart height (level + 1) + index =
          2 ^ height + (2 ^ height - 2 ^ (height - level) + index) := by
        have same : height + 1 - (level + 1) = height - level := by omega
        rw [levelStart, same]
        omega
      have child : 2 * (2 ^ height - 2 ^ (height - level) + index) =
          levelStart height level + 2 * index := by
        rw [levelStart]
        omega
      rw [next, paired _ (by omega), child, Nat.add_assoc, ih (by omega) (by omega),
        ih (by omega) (by omega)]
      rfl

/-- The last entry of such a sequence is the root. -/
theorem sequence_root (values : ℕ → Node) (height : ℕ)
    (paired : ∀ b < 2 ^ height - 1,
      values (2 ^ height + b) = pair (values (2 * b)) (values (2 * b + 1))) :
    values (2 ^ (height + 1) - 2) = subtreeRoot pair values height 0 := by
  have last : levelStart height height = 2 ^ (height + 1) - 2 := by
    have one : height + 1 - height = 1 := by omega
    rw [levelStart, one, pow_one]
  have root := sequence_eq_subtreeRoot pair values height paired le_rfl
    (Nat.two_pow_pos (height - height))
  rwa [Nat.add_zero, last] at root

end Merkle
end QLSA
