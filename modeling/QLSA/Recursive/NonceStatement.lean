import QLSA.Stwo.NonceTree

namespace QLSA
namespace Recursive

open Stwo

/-!
# The public statement of a nonce transition

A statement lists the updates of a batch with the root after each of them.
Its truth is what the update circuit proves: every update has one sibling path
that opens the old leaf under the root before it and, with the new leaf, leads
to the root after it.  Under injective hashing a true statement whose nonces
increase moves a tree from its root by exactly the writes it lists.
-/

/-- One update as the contract sees it. -/
structure NonceUpdate (Node : Type*) where
  index : ℕ
  oldNonce : U64
  newNonce : U64
  postRoot : Node
  deriving DecidableEq

/-- The public part of a batch's nonce transition. -/
structure NonceStatement (Node : Type*) where
  oldRoot : Node
  newRoot : Node
  updates : List (NonceUpdate Node)
  depth : ℕ

/-- What both lanes of the circuit are pinned to for one update. -/
structure PinnedUpdate (Node : Type*) where
  oldLeaf : Node
  newLeaf : Node
  index : ℕ
  preRoot : Node
  postRoot : Node
  deriving DecidableEq

section Statement

variable {Node : Type*}

/-- Most updates one proof will carry. -/
def maxUpdates : ℕ := 512

def validateCount (n : ℕ) : Except String Unit :=
  if maxUpdates < n then .error s!"{n} updates exceeds MAX_UPDATES {maxUpdates}"
  else .ok ()

/-- Depth limit of the update circuit. -/
def updateAirMaxDepth : ℕ := 28

def validateDepth (depth : ℕ) : Except String Unit :=
  if depth = 0 ∨ maxDepth < depth then .error s!"depth {depth} out of range [1, {maxDepth}]"
  else if updateAirMaxDepth < depth then
    .error s!"depth {depth} exceeds what the update AIR can prove ({updateAirMaxDepth})"
  else .ok ()

/-- The root before each update: the given one, then each predecessor's. -/
def preRootsFrom (previous : Node) : List (NonceUpdate Node) → List Node
  | [] => []
  | update :: rest => previous :: preRootsFrom update.postRoot rest

def NonceStatement.preRoots (statement : NonceStatement Node) : List Node :=
  preRootsFrom statement.oldRoot statement.updates

/-- The checks of single updates, in order. -/
def checkPublicUpdates (depth : ℕ) : ℕ → List (NonceUpdate Node) → Option String
  | _, [] => none
  | i, update :: rest =>
      if 1 <<< depth ≤ update.index then
        some s!"update {i}: index {update.index} out of range for depth {depth}"
      else if update.newNonce ≤ update.oldNonce then
        some s!"update {i}: nonce must strictly increase, {update.oldNonce} -> {update.newNonce}"
      else checkPublicUpdates depth (i + 1) rest

/-- Every relation the verifier settles without the proof; `none` when all hold.  An empty batch
leaves the root as it is; otherwise each update is checked in turn and the last one has to end in
the new root.  The direction bits of a witness are not compared with the indices here. -/
def NonceStatement.checkPublic [DecidableEq Node] (statement : NonceStatement Node) :
    Option String :=
  match validateCount statement.updates.length with
  | .error message => some message
  | .ok () =>
    match validateDepth statement.depth with
    | .error message => some message
    | .ok () =>
      match statement.updates.getLast? with
      | none =>
        if statement.oldRoot ≠ statement.newRoot then
          some "empty batch must leave the root unchanged"
        else none
      | some last =>
        match checkPublicUpdates statement.depth 0 statement.updates with
        | some message => some message
        | none =>
          if last.postRoot ≠ statement.newRoot then
            some "the last update's post_root is not new_root"
          else none

/-- What the circuit pins for each update; the leaves are computed from the
public nonces. -/
def NonceStatement.pinnedUpdates (hash : NonceHash Node) (statement : NonceStatement Node) :
    List (PinnedUpdate Node) :=
  List.zipWith (fun update preRoot =>
      ⟨hash.leaf update.oldNonce, hash.leaf update.newNonce, update.index, preRoot,
        update.postRoot⟩)
    statement.updates statement.preRoots

/-- One sibling path carries both leaves of an update to its two roots. -/
def PinnedUpdate.Opens (pair : Node → Node → Node) (depth : ℕ) (pinned : PinnedUpdate Node) :
    Prop :=
  ∃ siblings : List Node, siblings.length = depth ∧
    Merkle.pathRoot pair pinned.oldLeaf siblings (Merkle.indexBits depth pinned.index) =
      pinned.preRoot ∧
    Merkle.pathRoot pair pinned.newLeaf siblings (Merkle.indexBits depth pinned.index) =
      pinned.postRoot

/-- The truth of a statement. -/
def NonceStatement.Holds (hash : NonceHash Node) (statement : NonceStatement Node) : Prop :=
  ∀ pinned ∈ statement.pinnedUpdates hash, pinned.Opens hash.pair statement.depth

theorem pinnedUpdates_cons (hash : NonceHash Node) (oldRoot newRoot : Node)
    (update : NonceUpdate Node) (rest : List (NonceUpdate Node)) (depth : ℕ) :
    (NonceStatement.mk oldRoot newRoot (update :: rest) depth).pinnedUpdates hash =
      ⟨hash.leaf update.oldNonce, hash.leaf update.newNonce, update.index, oldRoot,
        update.postRoot⟩ ::
      (NonceStatement.mk update.postRoot newRoot rest depth).pinnedUpdates hash := rfl

/-! ## True statements move trees -/

variable {hash : NonceHash Node}

/-- Successful writes of a list of slots, one after another. -/
def SetAll : NonceTree hash → List (ℕ × U64) → NonceTree hash → Prop
  | tree, [], final => final = tree
  | tree, (index, nonce) :: rest, final =>
      ∃ next, tree.set index nonce = .ok next ∧ SetAll next rest final

theorem SetAll.append {tree middle final : NonceTree hash} {first second : List (ℕ × U64)}
    (earlier : SetAll tree first middle) (later : SetAll middle second final) :
    SetAll tree (first ++ second) final := by
  induction first generalizing tree with
  | nil =>
      obtain rfl : middle = tree := earlier
      exact later
  | cons entry rest ih =>
      obtain ⟨next, written, after⟩ := earlier
      exact ⟨next, written, ih after⟩

theorem SetAll.depth_eq {tree final : NonceTree hash} {entries : List (ℕ × U64)}
    (written : SetAll tree entries final) : final.depth = tree.depth := by
  induction entries generalizing tree with
  | nil =>
      obtain rfl : final = tree := written
      rfl
  | cons entry rest ih =>
      obtain ⟨next, taken, later⟩ := written
      exact (ih later).trans (NonceTree.set_spec taken).2.2.1

/-- One opened update at a tree's root: the slot holds the old nonce, and the
root after it is that of the tree with the new nonce written. -/
theorem PinnedUpdate.Opens.set (separated : hash.Separated) {tree : NonceTree hash}
    {index : ℕ} {oldNonce newNonce : U64} {postRoot : Node}
    (opened : PinnedUpdate.Opens hash.pair tree.depth
      ⟨hash.leaf oldNonce, hash.leaf newNonce, index, tree.root, postRoot⟩)
    (inside : index < 2 ^ tree.depth) (rises : oldNonce < newNonce) :
    tree.get index = oldNonce ∧
      ∃ next, tree.set index newNonce = .ok next ∧ next.root = postRoot := by
  obtain ⟨siblings, lengths, before, after⟩ := opened
  change Merkle.pathRoot hash.pair (hash.leaf oldNonce) siblings _ = tree.root at before
  change Merkle.pathRoot hash.pair (hash.leaf newNonce) siblings _ = postRoot at after
  rw [tree.root_eq_subtreeRoot] at before
  obtain ⟨-, leaf, own⟩ := Merkle.leaf_path_eq_opening separated.pair_injective
    (fun slot => separated.leaf_ne_pair (tree.get slot)) (by simp [lengths])
    (separated.leaf_ne_pair oldNonce) before
  rw [Merkle.position_indexBits, Nat.mod_eq_of_lt inside] at leaf own
  have found : tree.get index = oldNonce := (separated.leaf_injective leaf).symm
  obtain ⟨next, written⟩ := NonceTree.set_succeeds inside (found ▸ rises)
  obtain ⟨-, -, depths, values⟩ := NonceTree.set_spec written
  refine ⟨found, next, written, ?_⟩
  have replaced := Merkle.pathRoot_opening_replaced hash.pair tree.leaves (hash.leaf newNonce)
    inside
  rw [← after, own, next.root_eq_subtreeRoot, depths]
  refine Eq.trans ?_ replaced.symm
  congr 1
  change hash.leaf ∘ next.get = _
  rw [values]
  exact Function.comp_update hash.leaf tree.get index newNonce

/-- A true statement from a tree's root, with slots in range and increasing
nonces, finds every old nonce and ends at the root of the written tree. -/
theorem NonceStatement.Holds.setAll (separated : hash.Separated) {tree : NonceTree hash}
    {updates : List (NonceUpdate Node)} {newRoot : Node}
    (holds : (NonceStatement.mk tree.root newRoot updates tree.depth).Holds hash)
    (inside : ∀ update ∈ updates, update.index < 2 ^ tree.depth)
    (rises : ∀ update ∈ updates, update.oldNonce < update.newNonce) :
    ∃ final, SetAll tree (updates.map fun update => (update.index, update.newNonce)) final ∧
      final.root = (updates.getLast?.map NonceUpdate.postRoot).getD tree.root := by
  induction updates generalizing tree with
  | nil => exact ⟨tree, rfl, rfl⟩
  | cons update rest ih =>
      unfold NonceStatement.Holds at holds
      rw [pinnedUpdates_cons] at holds
      obtain ⟨-, next, written, reached⟩ := (holds _ List.mem_cons_self).set separated
        (inside update (by simp)) (rises update (by simp))
      have depths := (NonceTree.set_spec written).2.2.1
      have later : (NonceStatement.mk next.root newRoot rest next.depth).Holds hash := by
        rw [reached, depths]
        exact fun pinned member => holds pinned (List.mem_cons_of_mem _ member)
      obtain ⟨final, after, root⟩ := ih later
        (fun other member => depths ▸ inside other (by simp [member]))
        (fun other member => rises other (by simp [member]))
      refine ⟨final, ⟨next, written, after⟩, ?_⟩
      rw [root, reached, List.getLast?_cons]
      cases rest.getLast? <;> rfl

end Statement

end Recursive
end QLSA
