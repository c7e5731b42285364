import QLSA.Merkle.Path
import QLSA.Stwo.BatchTree
import Std.Data.TreeMap.Lemmas

namespace QLSA
namespace Stwo

open Hash

/-!
# The sparse tree of nonce slots

A tree keeps the slots that were written and a table of roots of empty
subtrees.  Its invariant is carried by the structure: depth within bounds,
written slots in range, and the table filled with the roots it stands for.
Under it the sparse root is the root of the complete tree over all slots,
`NonceTree.node_eq_subtreeRoot`, for any pair of hash functions.
-/

/-- A `u64` value. -/
abbrev U64 := Fin (2 ^ 64)

instance neZero_u64 : NeZero (2 ^ 64) := ⟨by decide⟩

/-- The hash functions of the nonce tree. -/
structure NonceHash (Node : Type*) where
  /-- `nonce_leaf` -/
  leaf : U64 → Node
  /-- `hash_pair_p2t8` -/
  pair : Node → Node → Node

/-- Injective hashing with leaves apart from inner nodes.  It is stated for a hash as a parameter,
since a compression of eight words into four can only behave so on the values that occur. -/
structure NonceHash.Separated {Node : Type*} (hash : NonceHash Node) : Prop where
  leaf_injective : Function.Injective hash.leaf
  pair_injective : Function.Injective2 hash.pair
  leaf_ne_pair : ∀ nonce left right, hash.leaf nonce ≠ hash.pair left right

/-- Domain tag of a nonce leaf. -/
def nonceDomain : Quad ℕ := ⟨1561581812, 1974539750, 1096381643, 823873995⟩

/-- Bits of a nonce carried by one word. -/
def limbBits : ℕ := 30

def limbMask : ℕ := 2 ^ limbBits - 1

def nonceWords (nonce : U64) : Quad ℕ :=
  ⟨nonce.val &&& limbMask, nonce.val >>> limbBits &&& limbMask,
    nonce.val >>> (2 * limbBits) &&& limbMask, 0⟩

def nonceLeaf (nonce : U64) : Bytes32 :=
  p2t8Pack (compressT8 nonceDomain (nonceWords nonce))

/-- The hash functions the prover uses. -/
def nonceP2T8 : NonceHash Bytes32 where
  leaf := nonceLeaf
  pair := hashPairP2T8

/-- Largest supported depth. -/
def maxDepth : ℕ := 28

theorem one_le_maxDepth : 1 ≤ maxDepth := by decide

section Tree

variable {Node : Type*} {hash : NonceHash Node}

/-- Root of the empty subtree of a height. -/
def emptyRoot (hash : NonceHash Node) : ℕ → Node
  | 0 => hash.leaf 0
  | height + 1 => hash.pair (emptyRoot hash height) (emptyRoot hash height)

/-- A sparse fixed-depth tree of nonce slots.  A slot without an entry holds nonce zero, and its
subtree's root is read from `empty`; the last four fields are what the constructor and the writes
keep. -/
structure NonceTree (hash : NonceHash Node) where
  depth : ℕ
  slots : Std.TreeMap ℕ U64
  /-- Roots of the empty subtrees, by height. -/
  empty : List Node
  depth_pos : 0 < depth
  depth_le : depth ≤ maxDepth
  slots_lt : ∀ index ∈ slots, index < 2 ^ depth
  empty_eq : empty = (List.range (depth + 1)).map (emptyRoot hash)

namespace NonceTree

/-- The all-empty tree of a supported depth. -/
def vacant (hash : NonceHash Node) (depth : ℕ) (positive : 0 < depth)
    (bounded : depth ≤ maxDepth) : NonceTree hash where
  depth := depth
  slots := ∅
  empty := (List.range (depth + 1)).map (emptyRoot hash)
  depth_pos := positive
  depth_le := bounded
  slots_lt := fun _ member => absurd member Std.TreeMap.not_mem_emptyc
  empty_eq := rfl

def new (hash : NonceHash Node) (depth : ℕ) : Except String (NonceTree hash) :=
  if out : depth = 0 ∨ maxDepth < depth then
    .error s!"depth {depth} out of range [1, {maxDepth}]"
  else
    .ok (vacant hash depth (by omega) (by omega))

/-- The nonce of a slot, zero when it was never written. -/
def get (tree : NonceTree hash) (index : ℕ) : U64 :=
  tree.slots.getD index 0

def slotCount (tree : NonceTree hash) : ℕ :=
  1 <<< tree.depth

theorem slotCount_eq (tree : NonceTree hash) : tree.slotCount = 2 ^ tree.depth := by
  simp [slotCount, Nat.shiftLeft_eq]

/-- Write a slot that is in range, if its nonce strictly increases.  A slot that was never written
holds nonce zero, so zero is never written; every other slot keeps its nonce. -/
def set (tree : NonceTree hash) (index : ℕ) (nonce : U64) : Except String (NonceTree hash) :=
  if out : tree.slotCount ≤ index then
    .error s!"index {index} out of range for depth {tree.depth} ({tree.slotCount} slots)"
  else if nonce ≤ tree.get index then
    .error s!"nonce must strictly increase: slot {index} holds {tree.get index}, got {nonce}"
  else
    .ok { tree with
      slots := tree.slots.insert index nonce
      slots_lt := by
        intro other member
        rcases Std.TreeMap.mem_insert.mp member with same | old
        · have equal : index = other := Std.LawfulEqCmp.eq_of_compare same
          have count := tree.slotCount_eq
          omega
        · exact tree.slots_lt other old }

/-- The first written slot from `lo` on lies below `hi`. -/
def occupied (tree : NonceTree hash) (lo hi : ℕ) : Bool :=
  (tree.slots.keys.find? fun index => decide (lo ≤ index)).any fun index => decide (index < hi)

/-- The node at a height and index; a range without written slots is empty. -/
def node (tree : NonceTree hash) : ℕ → ℕ → Node
  | 0, index => hash.leaf (tree.get index)
  | height + 1, index =>
      let span := 1 <<< (height + 1)
      let lo := index * span
      let hi := lo + span
      if !tree.occupied (min lo (2 ^ 32 - 1)) hi then
        tree.empty.getD (height + 1) (hash.leaf 0)
      else
        hash.pair (tree.node height (index * 2)) (tree.node height (index * 2 + 1))

/-- The state root. -/
def root (tree : NonceTree hash) : Node :=
  tree.node tree.depth 0

/-- Siblings and direction bits of a slot, from height `height` upwards. -/
def proofFrom (tree : NonceTree hash) : ℕ → ℕ → ℕ → List Node × List Bool
  | 0, _, _ => ([], [])
  | count + 1, height, idx =>
      let isRight := decide (idx &&& 1 = 1)
      let sibIdx := if isRight then idx - 1 else idx + 1
      let above := tree.proofFrom count (height + 1) (idx / 2)
      (tree.node height sibIdx :: above.1, isRight :: above.2)

/-- Siblings and direction bits authenticating a slot. -/
def membershipProof (tree : NonceTree hash) (index : ℕ) :
    Except String (List Node × List Bool) :=
  if tree.slotCount ≤ index then
    .error s!"index {index} out of range for depth {tree.depth}"
  else
    .ok (tree.proofFrom tree.depth 0 index)

/-! ## The sparse tree is the complete one -/

/-- The leaves of all slots. -/
def leaves (tree : NonceTree hash) (index : ℕ) : Node :=
  hash.leaf (tree.get index)

theorem get_of_not_mem {tree : NonceTree hash} {index : ℕ} (absent : index ∉ tree.slots) :
    tree.get index = 0 :=
  Std.TreeMap.getD_eq_fallback absent

/-- In an ascending list the first entry from `lo` on is below `hi` exactly when
some entry lies in between. -/
theorem find_any_iff {entries : List ℕ} (ascending : entries.Pairwise (· < ·)) (lo hi : ℕ) :
    ((entries.find? fun index => decide (lo ≤ index)).any fun index => decide (index < hi)) =
        true ↔ ∃ index ∈ entries, lo ≤ index ∧ index < hi := by
  induction entries with
  | nil => simp
  | cons first rest ih =>
      obtain ⟨below, sorted⟩ := List.pairwise_cons.mp ascending
      by_cases reached : lo ≤ first
      · simp only [List.find?_cons, reached, decide_true, Option.any_some, decide_eq_true_eq]
        constructor
        · intro small
          exact ⟨first, List.mem_cons_self, reached, small⟩
        · rintro ⟨index, member, -, small⟩
          rcases List.mem_cons.mp member with rfl | later
          · exact small
          · exact (below index later).trans small
      · simp only [List.find?_cons, reached, decide_false]
        rw [ih sorted]
        constructor
        · rintro ⟨index, member, between⟩
          exact ⟨index, List.mem_cons_of_mem _ member, between⟩
        · rintro ⟨index, member, low, small⟩
          rcases List.mem_cons.mp member with rfl | later
          · exact absurd low reached
          · exact ⟨index, later, low, small⟩

theorem occupied_iff (tree : NonceTree hash) (lo hi : ℕ) :
    tree.occupied lo hi = true ↔ ∃ index ∈ tree.slots, lo ≤ index ∧ index < hi := by
  have ascending : tree.slots.keys.Pairwise (· < ·) :=
    Std.TreeMap.ordered_keys.imp fun before => Nat.compare_eq_lt.mp before
  rw [occupied, find_any_iff ascending]
  simp only [Std.TreeMap.mem_keys]

theorem emptyRoot_eq_subtreeRoot {values : ℕ → Node} (height index : ℕ)
    (empty : ∀ leaf, leaf / 2 ^ height = index → values leaf = hash.leaf 0) :
    emptyRoot hash height = Merkle.subtreeRoot hash.pair values height index := by
  rw [Merkle.subtreeRoot_congr hash.pair values (fun _ => hash.leaf 0) height index empty]
  clear empty
  induction height generalizing index with
  | zero => rfl
  | succ height ih =>
      simp only [emptyRoot, Merkle.subtreeRoot]
      rw [← ih, ← ih]

/-- The nodes of the sparse tree are the subtree roots of the complete one. -/
theorem node_eq_subtreeRoot (tree : NonceTree hash) {height : ℕ} (bounded : height ≤ tree.depth)
    (index : ℕ) :
    tree.node height index = Merkle.subtreeRoot hash.pair tree.leaves height index := by
  induction height generalizing index with
  | zero => rfl
  | succ height ih =>
      simp only [node]
      split
      · next vacant =>
        have none_between : ¬ ∃ slot ∈ tree.slots,
            min (index * 1 <<< (height + 1)) (2 ^ 32 - 1) ≤ slot ∧
              slot < index * 1 <<< (height + 1) + 1 <<< (height + 1) := by
          rw [← occupied_iff]
          simpa using vacant
        have table : tree.empty.getD (height + 1) (hash.leaf 0) = emptyRoot hash (height + 1) := by
          have inside : height + 1 < tree.depth + 1 := by omega
          simp [tree.empty_eq, List.getD_eq_getElem?_getD, inside]
        rw [table]
        apply emptyRoot_eq_subtreeRoot
        intro leaf member
        have absent : leaf ∉ tree.slots := by
          intro written
          apply none_between
          have range : 2 ^ tree.depth ≤ 2 ^ 32 - 1 := by
            have depths : tree.depth ≤ 28 := tree.depth_le
            calc
              2 ^ tree.depth ≤ 2 ^ 28 := Nat.pow_le_pow_right (by norm_num) depths
              _ ≤ 2 ^ 32 - 1 := by norm_num
          have place := Nat.div_add_mod leaf (2 ^ (height + 1))
          have inside := Nat.mod_lt leaf (Nat.two_pow_pos (height + 1))
          rw [member, Nat.mul_comm] at place
          simp only [Nat.one_shiftLeft]
          refine ⟨leaf, written, ?_, by omega⟩
          exact (Nat.min_le_left _ _).trans (by omega)
        rw [leaves, get_of_not_mem absent]
      · rw [ih (by omega), ih (by omega), Nat.mul_comm index 2]
        rfl

theorem root_eq_subtreeRoot (tree : NonceTree hash) :
    tree.root = Merkle.subtreeRoot hash.pair tree.leaves tree.depth 0 :=
  tree.node_eq_subtreeRoot le_rfl 0

/-! ## Writing a slot -/

/-- What a successful write does. -/
theorem set_spec {tree after : NonceTree hash} {index : ℕ} {nonce : U64}
    (written : tree.set index nonce = .ok after) :
    index < 2 ^ tree.depth ∧ tree.get index < nonce ∧ after.depth = tree.depth ∧
      after.get = Function.update tree.get index nonce := by
  unfold set at written
  split at written
  · cases written
  · next inside =>
    rw [slotCount_eq] at inside
    split at written
    · cases written
    · next rises =>
      cases written
      refine ⟨by omega, not_le.mp rises, rfl, ?_⟩
      funext other
      change (tree.slots.insert index nonce).getD other 0 = _
      rw [Std.TreeMap.getD_insert]
      by_cases same : index = other
      · subst same
        simp
      · rw [Function.update_of_ne (Ne.symm same)]
        have differ : compare index other ≠ .eq := fun equal =>
          same (Std.LawfulEqCmp.eq_of_compare equal)
        rw [if_neg differ]
        rfl

theorem set_succeeds {tree : NonceTree hash} {index : ℕ} {nonce : U64}
    (inside : index < 2 ^ tree.depth) (rises : tree.get index < nonce) :
    ∃ after, tree.set index nonce = .ok after := by
  unfold set
  rw [dif_neg (by rw [slotCount_eq]; omega), if_neg (not_le.mpr rises)]
  exact ⟨_, rfl⟩

end NonceTree

end Tree

/-! ## Free hashing -/

/-- Hashing without any identifications: nodes are the terms themselves. -/
def freeNonce : NonceHash (FreeMagma U64) where
  leaf := FreeMagma.of
  pair := FreeMagma.mul

theorem freeNonce_separated : freeNonce.Separated where
  leaf_injective := by
    intro first second same
    injection same
  pair_injective := by
    intro left otherLeft right otherRight same
    injection same with leftSame rightSame
    exact ⟨leftSame, rightSame⟩
  leaf_ne_pair := by
    intro nonce left right same
    cases same

end Stwo
end QLSA
