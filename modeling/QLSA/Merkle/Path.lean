import Mathlib.Data.Nat.Basic
import Mathlib.Data.Set.Function
import Mathlib.Logic.Function.Basic
import Mathlib.Tactic.Ring

namespace QLSA
namespace Merkle

/-!
# Authentication paths of binary hash trees

A path is a list of siblings with one direction bit for each of them.  Its
root is obtained by climbing from a node, placing every sibling on the side
named by its bit.  Nothing here depends on a particular compression
function: `pair` is arbitrary, and its injectivity is a hypothesis of the
results that need it.

The complete tree over a family of leaf values is given by `subtreeRoot`, the
root of the subtree of a given height at a given index.  The main result is
that a path from any node to a subtree root, with siblings and bits chosen
freely, is the tree's own path: the direction bits fix the position, and every
sibling is the root of the neighbouring subtree.
-/

variable {Node : Type*} (pair : Node → Node → Node)

/-- Climb from `cur` along the siblings; bit `true` puts the sibling on the
left. Surplus entries of either list are ignored. -/
def pathRoot : Node → List Node → List Bool → Node
  | cur, sibling :: siblings, bit :: bits =>
      pathRoot (if bit then pair sibling cur else pair cur sibling) siblings bits
  | cur, [], _ => cur
  | cur, _ :: _, [] => cur

@[simp] theorem pathRoot_nil (cur : Node) (bits : List Bool) :
    pathRoot pair cur [] bits = cur := by
  cases bits <;> rfl

@[simp] theorem pathRoot_cons (cur sibling : Node) (siblings : List Node)
    (bit : Bool) (bits : List Bool) :
    pathRoot pair cur (sibling :: siblings) (bit :: bits) =
      pathRoot pair (if bit then pair sibling cur else pair cur sibling) siblings bits :=
  rfl

/-- The operands hashed while climbing, in order. -/
def operands : Node → List Node → List Bool → List (Node × Node)
  | cur, sibling :: siblings, bit :: bits =>
      (if bit then (sibling, cur) else (cur, sibling)) ::
        operands (if bit then pair sibling cur else pair cur sibling) siblings bits
  | _, [], _ => []
  | _, _ :: _, [] => []

/-- Two paths with the same bits and the same root are the same path, as long
as no two of the operands hashed along them collide. -/
theorem path_eq_of_pathRoot_eq {hashed : Set (Node × Node)}
    (collisionFree : Set.InjOn (Function.uncurry pair) hashed) {first second : Node}
    {firstSiblings secondSiblings : List Node} {bits : List Bool}
    (firstLength : firstSiblings.length = bits.length)
    (secondLength : secondSiblings.length = bits.length)
    (firstHashed : ∀ children ∈ operands pair first firstSiblings bits, children ∈ hashed)
    (secondHashed : ∀ children ∈ operands pair second secondSiblings bits, children ∈ hashed)
    (same : pathRoot pair first firstSiblings bits = pathRoot pair second secondSiblings bits) :
    first = second ∧ firstSiblings = secondSiblings := by
  induction bits generalizing first second firstSiblings secondSiblings with
  | nil =>
      rw [List.length_eq_zero_iff.mp firstLength, List.length_eq_zero_iff.mp secondLength] at same ⊢
      exact ⟨same, rfl⟩
  | cons bit bits ih =>
      cases firstSiblings with
      | nil => simp at firstLength
      | cons firstSibling firstSiblings =>
          cases secondSiblings with
          | nil => simp at secondLength
          | cons secondSibling secondSiblings =>
              simp only [operands, List.mem_cons, forall_eq_or_imp] at firstHashed secondHashed
              rcases ih (Nat.succ.inj firstLength) (Nat.succ.inj secondLength) firstHashed.2
                secondHashed.2 same with ⟨parent, above⟩
              have children := collisionFree firstHashed.1 secondHashed.1 (by
                cases bit
                · exact parent
                · exact parent)
              cases bit with
              | false =>
                  rcases Prod.mk.inj children with ⟨left, right⟩
                  exact ⟨left, by rw [right, above]⟩
              | true =>
                  rcases Prod.mk.inj children with ⟨left, right⟩
                  exact ⟨right, by rw [left, above]⟩

/-- One more step of a path, at its upper end. -/
theorem pathRoot_take_succ (cur : Node) (siblings : List Node) (bits : List Bool) {count : ℕ}
    (sibling : Node) (bit : Bool) (siblingAt : siblings[count]? = some sibling)
    (bitAt : bits[count]? = some bit) :
    pathRoot pair cur (siblings.take (count + 1)) (bits.take (count + 1)) =
      if bit then pair sibling (pathRoot pair cur (siblings.take count) (bits.take count))
      else pair (pathRoot pair cur (siblings.take count) (bits.take count)) sibling := by
  induction count generalizing cur siblings bits with
  | zero =>
      cases siblings with
      | nil => simp at siblingAt
      | cons first siblings =>
          cases bits with
          | nil => simp at bitAt
          | cons digit bits =>
              rw [List.getElem?_cons_zero] at siblingAt bitAt
              rw [Option.some.inj siblingAt, Option.some.inj bitAt]
              simp
  | succ count ih =>
      cases siblings with
      | nil => simp at siblingAt
      | cons first siblings =>
          cases bits with
          | nil => simp at bitAt
          | cons digit bits =>
              rw [List.getElem?_cons_succ] at siblingAt bitAt
              simp only [List.take_succ_cons, pathRoot_cons]
              exact ih _ siblings bits siblingAt bitAt

/-- Nodes that each hash the node before with a sibling climb a path. -/
theorem pathRoot_of_steps (node : ℕ → Node) (siblings : List Node) (bits : List Bool) (count : ℕ)
    (steps : ∀ j < count, ∃ sibling bit, siblings[j]? = some sibling ∧ bits[j]? = some bit ∧
      node (j + 1) = if bit then pair sibling (node j) else pair (node j) sibling) :
    pathRoot pair (node 0) (siblings.take count) (bits.take count) = node count := by
  induction count with
  | zero => simp
  | succ count ih =>
      rcases steps count (Nat.lt_succ_self count) with ⟨sibling, bit, siblingAt, bitAt, step⟩
      rw [pathRoot_take_succ pair _ siblings bits sibling bit siblingAt bitAt,
        ih fun j early => steps j (by omega), step]

/-- The leaf index named by direction bits, least significant bit first. -/
def position : List Bool → ℕ
  | [] => 0
  | bit :: bits => bit.toNat + 2 * position bits

/-- The lowest `count` binary digits of an index, least significant first. -/
def indexBits : ℕ → ℕ → List Bool
  | 0, _ => []
  | count + 1, index => decide (index % 2 = 1) :: indexBits count (index / 2)

@[simp] theorem indexBits_length (count index : ℕ) :
    (indexBits count index).length = count := by
  induction count generalizing index with
  | zero => rfl
  | succ count ih => simp [indexBits, ih]

/-- Each entry is a binary digit of the index. -/
theorem indexBits_get (count index digit : ℕ) (within : digit < (indexBits count index).length) :
    (indexBits count index).get ⟨digit, within⟩ = decide (index / 2 ^ digit % 2 = 1) := by
  induction count generalizing index digit with
  | zero => exact absurd within (Nat.not_lt_zero digit)
  | succ count ih =>
      cases digit with
      | zero => simp [indexBits]
      | succ digit =>
          have rest := ih (index / 2) digit (by simpa [indexBits] using within)
          rw [Nat.div_div_eq_div_mul, ← pow_succ'] at rest
          exact rest

theorem position_lt (bits : List Bool) : position bits < 2 ^ bits.length := by
  induction bits with
  | nil => simp [position]
  | cons bit bits ih =>
      have bounded : bit.toNat ≤ 1 := Bool.toNat_le bit
      simp only [position, List.length_cons, pow_succ]
      omega

theorem indexBits_position (bits : List Bool) :
    indexBits bits.length (position bits) = bits := by
  induction bits with
  | nil => rfl
  | cons bit bits ih =>
      have half : (bit.toNat + 2 * position bits) / 2 = position bits := by
        have bounded : bit.toNat ≤ 1 := Bool.toNat_le bit
        omega
      simp only [List.length_cons, indexBits, position, half, ih]
      cases bit <;> simp

theorem position_indexBits (count index : ℕ) :
    position (indexBits count index) = index % 2 ^ count := by
  induction count generalizing index with
  | zero => simp [indexBits, position, Nat.mod_one]
  | succ count ih =>
      have digit : (decide (index % 2 = 1)).toNat = index % 2 := by
        rcases Nat.mod_two_eq_zero_or_one index with even | odd
        · simp [even]
        · simp [odd]
      simp only [indexBits, position, ih, digit]
      rw [pow_succ, Nat.mul_comm (2 ^ count) 2, Nat.mod_mul]

/-! ## Complete trees -/

/-- Root of the subtree of height `height` at `index` in the complete tree over
`values`; its leaves are the values at `index * 2 ^ height` onwards. -/
def subtreeRoot (values : ℕ → Node) : ℕ → ℕ → Node
  | 0, index => values index
  | height + 1, index =>
      pair (subtreeRoot values height (2 * index)) (subtreeRoot values height (2 * index + 1))

/-- The other child of the same parent. -/
def siblingIndex (index : ℕ) : ℕ :=
  if index % 2 = 1 then index - 1 else index + 1

/-- Siblings met when climbing `count` levels from the node at `level`, `index`. -/
def opening (values : ℕ → Node) : ℕ → ℕ → ℕ → List Node
  | _, 0, _ => []
  | level, count + 1, index =>
      subtreeRoot pair values level (siblingIndex index) ::
        opening values (level + 1) count (index / 2)

@[simp] theorem opening_length (values : ℕ → Node) (level count index : ℕ) :
    (opening pair values level count index).length = count := by
  induction count generalizing level index with
  | zero => rfl
  | succ count ih => simp [opening, ih]

section Kept

variable {pair} {p : Node → Prop}

/-- What is kept by pairing holds of every subtree root. -/
theorem subtreeRoot_forall (closed : ∀ left right, p left → p right → p (pair left right))
    {values : ℕ → Node} (leaves : ∀ index, p (values index)) (height index : ℕ) :
    p (subtreeRoot pair values height index) := by
  induction height generalizing index with
  | zero => exact leaves index
  | succ height ih => exact closed _ _ (ih _) (ih _)

theorem opening_forall (closed : ∀ left right, p left → p right → p (pair left right))
    {values : ℕ → Node} (leaves : ∀ index, p (values index)) (level count index : ℕ) :
    ∀ sibling ∈ opening pair values level count index, p sibling := by
  induction count generalizing level index with
  | zero => exact fun sibling member => absurd member List.not_mem_nil
  | succ count ih =>
      rw [opening, List.forall_mem_cons]
      exact ⟨subtreeRoot_forall closed leaves _ _, ih _ _⟩

end Kept

/-- A parent is the pairing of a node with its sibling, in index order. -/
theorem subtreeRoot_parent (values : ℕ → Node) (level index : ℕ) :
    subtreeRoot pair values (level + 1) (index / 2) =
      if decide (index % 2 = 1) then
        pair (subtreeRoot pair values level (siblingIndex index))
          (subtreeRoot pair values level index)
      else
        pair (subtreeRoot pair values level index)
          (subtreeRoot pair values level (siblingIndex index)) := by
  by_cases odd : index % 2 = 1
  · have left : 2 * (index / 2) = index - 1 := by omega
    have right : index - 1 + 1 = index := by omega
    simp [subtreeRoot, siblingIndex, odd, left, right]
  · have left : 2 * (index / 2) = index := by omega
    simp [subtreeRoot, siblingIndex, odd, left]

/-- The tree's own path leads from any of its nodes to the ancestor. -/
theorem pathRoot_opening (values : ℕ → Node) (level count index : ℕ) :
    pathRoot pair (subtreeRoot pair values level index)
        (opening pair values level count index) (indexBits count index) =
      subtreeRoot pair values (level + count) (index / 2 ^ count) := by
  induction count generalizing level index with
  | zero => simp [opening, indexBits]
  | succ count ih =>
      simp only [opening, indexBits, pathRoot_cons]
      rw [← subtreeRoot_parent, ih, Nat.div_div_eq_div_mul, ← pow_succ']
      congr 1
      omega

/-- Subtrees depend only on the leaves below them. -/
theorem subtreeRoot_congr (first second : ℕ → Node) (height index : ℕ)
    (agree : ∀ leaf, leaf / 2 ^ height = index → first leaf = second leaf) :
    subtreeRoot pair first height index = subtreeRoot pair second height index := by
  induction height generalizing index with
  | zero => exact agree index (by simp)
  | succ height ih =>
      have below (child : ℕ) (parent : child / 2 = index) (leaf : ℕ)
          (member : leaf / 2 ^ height = child) : first leaf = second leaf := by
        apply agree
        rw [pow_succ, ← Nat.div_div_eq_div_mul, member, parent]
      simp only [subtreeRoot]
      rw [ih (2 * index) (below (2 * index) (by omega)),
        ih (2 * index + 1) (below (2 * index + 1) (by omega))]

theorem siblingIndex_ne (index : ℕ) : siblingIndex index ≠ index := by
  unfold siblingIndex
  split <;> omega

/-- Siblings hang off the path: replacing the leaf at its end leaves them alone. -/
theorem opening_update [DecidableEq ℕ] (values : ℕ → Node) (leaf : ℕ) (value : Node)
    (level count : ℕ) :
    opening pair (Function.update values leaf value) level count (leaf / 2 ^ level) =
      opening pair values level count (leaf / 2 ^ level) := by
  induction count generalizing level with
  | zero => rfl
  | succ count ih =>
      simp only [opening]
      congr 1
      · apply subtreeRoot_congr
        intro other member
        rw [Function.update_of_ne]
        rintro rfl
        exact siblingIndex_ne _ member.symm
      · rw [Nat.div_div_eq_div_mul, ← pow_succ]
        exact ih (level + 1)

/-! ## Paths chosen by an adversary -/

section Injective

variable {pair}
variable (injective : Function.Injective2 pair)
variable {values : ℕ → Node} (separate : ∀ leaf left right, values leaf ≠ pair left right)

include injective separate

/-- A freely chosen path that reaches a subtree root is the tree's own path.
The induction is on the path, from the bottom: the parent of `cur` is a node of
the tree, and no leaf is a parent, so its two children are those of the tree. -/
theorem pathRoot_eq_subtreeRoot {cur : Node} {siblings : List Node} {bits : List Bool}
    {height index : ℕ} (lengths : siblings.length = bits.length)
    (reached : pathRoot pair cur siblings bits = subtreeRoot pair values height index) :
    ∃ level, height = level + bits.length ∧
      cur = subtreeRoot pair values level (index * 2 ^ bits.length + position bits) ∧
      siblings = opening pair values level bits.length
        (index * 2 ^ bits.length + position bits) := by
  induction siblings generalizing cur bits with
  | nil =>
      have empty : bits = [] := List.length_eq_zero_iff.mp lengths.symm
      subst empty
      exact ⟨height, by simp, by simpa [position] using reached, rfl⟩
  | cons sibling siblings ih =>
      cases bits with
      | nil => simp at lengths
      | cons bit bits =>
          obtain ⟨level, heights, parent, rest⟩ :=
            ih (Nat.succ.inj lengths) (by simpa using reached)
          cases level with
          | zero =>
              exfalso
              cases bit
              · exact separate _ _ _ parent.symm
              · exact separate _ _ _ parent.symm
          | succ level =>
              have place : index * 2 ^ (bits.length + 1) + (bit.toNat + 2 * position bits) =
                  2 * (index * 2 ^ bits.length + position bits) + bit.toNat := by ring
              have half : (2 * (index * 2 ^ bits.length + position bits) + bit.toNat) / 2 =
                  index * 2 ^ bits.length + position bits := by
                have bounded : bit.toNat ≤ 1 := Bool.toNat_le bit
                omega
              refine ⟨level, by simp [heights]; omega, ?_⟩
              simp only [List.length_cons, position, opening, place, half, rest]
              cases bit with
              | false =>
                  obtain ⟨left, right⟩ := injective parent
                  simpa [siblingIndex] using And.intro left right
              | true =>
                  obtain ⟨left, right⟩ := injective parent
                  have odd : (2 * (index * 2 ^ bits.length + position bits) + 1) % 2 = 1 := by
                    omega
                  simpa [siblingIndex, odd] using And.intro right left

/-- From a leaf to the root: the path has full height, opens the leaf at the
position of its bits, and carries the tree's own siblings. -/
theorem leaf_path_eq_opening {cur : Node} {siblings : List Node} {bits : List Bool}
    {height : ℕ} (lengths : siblings.length = bits.length)
    (isLeaf : ∀ left right, cur ≠ pair left right)
    (reached : pathRoot pair cur siblings bits = subtreeRoot pair values height 0) :
    height = bits.length ∧ cur = values (position bits) ∧
      siblings = opening pair values 0 height (position bits) := by
  obtain ⟨level, heights, node, rest⟩ :=
    pathRoot_eq_subtreeRoot injective separate lengths reached
  cases level with
  | zero =>
      have full : height = bits.length := by omega
      refine ⟨full, ?_, ?_⟩
      · simpa [subtreeRoot] using node
      · rw [full]
        simpa using rest
  | succ level => exact absurd node (isLeaf _ _)

omit separate in
/-- The root of a subtree determines the leaves below it. -/
theorem leaves_eq_of_subtreeRoot_eq {first second : ℕ → Node} {height index : ℕ}
    (same : subtreeRoot pair first height index = subtreeRoot pair second height index)
    {leaf : ℕ} (member : leaf / 2 ^ height = index) : first leaf = second leaf := by
  induction height generalizing index with
  | zero =>
      rw [pow_zero, Nat.div_one] at member
      subst member
      exact same
  | succ height ih =>
      obtain ⟨left, right⟩ := injective same
      have parent : leaf / 2 ^ height / 2 = index := by
        rw [Nat.div_div_eq_div_mul, ← pow_succ, member]
      rcases Nat.mod_two_eq_zero_or_one (leaf / 2 ^ height) with even | odd
      · exact ih left (by omega)
      · exact ih right (by omega)

end Injective

/-- Climbing the tree's siblings from another leaf gives the root of the tree
with that leaf replaced. -/
theorem pathRoot_opening_replaced (values : ℕ → Node) (value : Node) {height leaf : ℕ}
    (bounded : leaf < 2 ^ height) :
    pathRoot pair value (opening pair values 0 height leaf) (indexBits height leaf) =
      subtreeRoot pair (Function.update values leaf value) height 0 := by
  have own := pathRoot_opening pair (Function.update values leaf value) 0 height leaf
  have siblings := opening_update pair values leaf value 0 height
  rw [pow_zero, Nat.div_one] at siblings
  rw [siblings, Nat.div_eq_of_lt bounded, Nat.zero_add] at own
  simpa [subtreeRoot] using own

end Merkle
end QLSA
