import QLSA.Merkle.LevelPaths
import QLSA.Stwo.BatchMembership
import QLSA.Stwo.NonceUpdates

namespace QLSA
namespace Stwo

open Hash

/-!
# The sparse tree is exact

Whatever slots of a tree have been written, and in which order: its root is the
root of the tree with all slots materialised, every slot has a path that
authenticates the nonce it holds, and writing a slot leaves its path as it was.
-/

section Exact

variable {Node : Type*}

/-- The trees reached from the empty one by successful writes. -/
inductive Reached (hash : NonceHash Node) (depth : ℕ) : NonceTree hash → Prop
  | new {tree : NonceTree hash} : NonceTree.new hash depth = .ok tree → Reached hash depth tree
  | set {tree after : NonceTree hash} {index : ℕ} {nonce : U64} : Reached hash depth tree →
      tree.set index nonce = .ok after → Reached hash depth after

variable {hash : NonceHash Node}

theorem new_ok {depth : ℕ} (positive : 0 < depth) (bounded : depth ≤ maxDepth) :
    NonceTree.new hash depth = .ok (NonceTree.vacant hash depth positive bounded) := by
  rw [NonceTree.new, dif_neg (by omega)]

theorem Reached.depth_eq {depth : ℕ} {tree : NonceTree hash} (reached : Reached hash depth tree) :
    tree.depth = depth := by
  induction reached with
  | new made =>
      unfold NonceTree.new at made
      split at made
      · cases made
      · cases made
        rfl
  | set _ written ih =>
      rcases NonceTree.set_spec written with ⟨-, -, depths, -⟩
      rw [depths, ih]

/-- The root of the tree with every slot as a leaf of its own. -/
def denseRoot (tree : NonceTree hash) : Option Node :=
  Merkle.apex hash.pair ((List.range (2 ^ tree.depth)).map fun index => hash.leaf (tree.get index))

theorem denseRoot_eq (tree : NonceTree hash) : denseRoot tree = some tree.root := by
  rw [tree.root_eq_subtreeRoot]
  exact Merkle.apex_range hash.pair tree.leaves tree.depth

/-- The path of a slot authenticates the nonce it holds. -/
theorem membershipProof_verifies [DecidableEq Node] (tree : NonceTree hash) {index : ℕ}
    (inside : index < 2 ^ tree.depth) :
    verifyBatchMembership hash.pair tree.root (hash.leaf (tree.get index))
      (Merkle.opening hash.pair tree.leaves 0 tree.depth index)
      (Merkle.indexBits tree.depth index) = true := by
  have climbed := Merkle.pathRoot_opening hash.pair tree.leaves 0 tree.depth index
  rw [Nat.zero_add, Nat.div_eq_of_lt inside] at climbed
  rw [verifyBatchMembership_iff]
  refine ⟨by simp, ?_⟩
  rw [tree.root_eq_subtreeRoot]
  exact climbed

variable (hash)

/-- Trees of every supported depth exist, and each one reached is exact: its root is that of the
full tree over all slots, every slot proves its leaf against it, and the path of a slot does not
depend on the nonce in it.  Trees are reached by any sequence of writes that succeed. -/
theorem sparse_tree_exact [DecidableEq Node] {depth : ℕ} (positive : 0 < depth)
    (bounded : depth ≤ maxDepth) :
    (∃ tree, NonceTree.new hash depth = .ok tree) ∧
    ∀ tree, Reached hash depth tree →
      Merkle.apex hash.pair ((List.range (2 ^ depth)).map fun index => hash.leaf (tree.get index)) =
        some tree.root ∧
      (∀ index, index < 2 ^ depth → ∃ sibs bits, tree.membershipProof index = .ok (sibs, bits) ∧
        sibs.length = depth ∧ bits = (List.range depth).map (index.testBit ·) ∧
        verifyBatchMembership hash.pair tree.root (hash.leaf (tree.get index)) sibs bits = true) ∧
      ∀ index nonce after, tree.set index nonce = .ok after →
        after.membershipProof index = tree.membershipProof index := by
  refine ⟨⟨_, new_ok positive bounded⟩, ?_⟩
  intro tree reached
  have depths := reached.depth_eq
  subst depths
  refine ⟨denseRoot_eq tree, ?_, ?_⟩
  · intro index inside
    refine ⟨_, _, membershipProof_eq tree inside, Merkle.opening_length _ _ _ _ _, ?_,
      membershipProof_verifies tree inside⟩
    exact BatchTree.indexBits_eq_testBit tree.depth index
  · intro index nonce after written
    exact membershipProof_set written

end Exact

/-- Two slots, both written, with the hash functions of the prover. -/
theorem sparse_tree_exact_two_slots :
    ∃ first second : NonceTree nonceP2T8,
      (NonceTree.vacant nonceP2T8 1 (by decide) (by decide)).set 0 5 = .ok first ∧
      first.set 1 7 = .ok second ∧
      Merkle.apex nonceP2T8.pair
          ((List.range (2 ^ 1)).map fun index => nonceP2T8.leaf (second.get index)) =
        some second.root := by
  have vacantWritable : ∃ first,
      (NonceTree.vacant nonceP2T8 1 (by decide) (by decide)).set 0 5 = .ok first :=
    NonceTree.set_succeeds (by decide) (by decide)
  rcases vacantWritable with ⟨first, firstWritten⟩
  rcases NonceTree.set_spec firstWritten with ⟨-, -, depths, values⟩
  have start : Reached nonceP2T8 1 (NonceTree.vacant nonceP2T8 1 (by decide) (by decide)) :=
    Reached.new (new_ok (by decide) (by decide))
  have room : 1 < 2 ^ first.depth := by
    rw [depths]
    decide
  have fresh : first.get 1 < 7 := by
    rw [values]
    decide
  rcases NonceTree.set_succeeds room fresh with ⟨second, secondWritten⟩
  exact ⟨first, second, firstWritten, secondWritten,
    ((sparse_tree_exact nonceP2T8 (by decide) (by decide)).2 second
      ((start.set firstWritten).set secondWritten)).1⟩

end Stwo
end QLSA
