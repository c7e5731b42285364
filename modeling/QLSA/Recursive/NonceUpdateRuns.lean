import QLSA.Recursive.NonceUpdateT8Air
import QLSA.Stwo.NonceTree

namespace QLSA
namespace Recursive

open Hash

/-!
# What the update circuit proves of a batch

The pinned updates of a statement chain: each starts from the root the one
before it ended with.  A satisfied circuit opens the two leaves of every
update along one list of siblings.  Over a tree whose root is the old root, and
as long as the operands hashed along the compared paths do not collide, these
siblings are the tree's own, so that every root in the chain is the root of the
tree with the updated slots written and all others as they were.
-/

section Chain

variable {Node : Type*}

/-- Each update starts from the root before it. -/
def RootsChained : Node → List (PinnedUpdate Node) → Prop
  | _, [] => True
  | root, up :: rest => up.preRoot = root ∧ RootsChained up.postRoot rest

theorem pinnedUpdates_chained (hash : Stwo.NonceHash Node) (statement : NonceStatement Node) :
    RootsChained statement.oldRoot (statement.pinnedUpdates hash) := by
  rcases statement with ⟨oldRoot, newRoot, updates, depth⟩
  induction updates generalizing oldRoot with
  | nil => trivial
  | cons update rest ih => exact ⟨rfl, ih update.postRoot⟩

/-- Another form of the words of an update. -/
def PinnedUpdate.map (f : Node → Node) (up : PinnedUpdate Node) : PinnedUpdate Node :=
  ⟨f up.oldLeaf, f up.newLeaf, up.index, f up.preRoot, f up.postRoot⟩

theorem RootsChained.map (f : Node → Node) {root : Node} {updates : List (PinnedUpdate Node)}
    (chained : RootsChained root updates) :
    RootsChained (f root) (updates.map (PinnedUpdate.map f)) := by
  induction updates generalizing root with
  | nil => trivial
  | cons up rest ih => exact ⟨congrArg f chained.1, ih chained.2⟩

/-- The slots after the updates of a list. -/
def leavesAfter (leaves : ℕ → Node) (updates : List (PinnedUpdate Node)) : ℕ → Node :=
  Machine.writeAll leaves (updates.map fun up => (up.index, up.newLeaf))

theorem leavesAfter_take_succ (leaves : ℕ → Node) {updates : List (PinnedUpdate Node)} {u : ℕ}
    {up : PinnedUpdate Node} (found : updates[u]? = some up) :
    leavesAfter leaves (updates.take (u + 1)) =
      Function.update (leavesAfter leaves (updates.take u)) up.index up.newLeaf := by
  rw [leavesAfter, List.take_add_one, found, List.map_append, Machine.writeAll,
    List.foldl_append]
  rfl

variable (pair : Node → Node → Node) (depth : ℕ)

/-- One list of siblings opens both leaves of an update. -/
structure OpensBoth (up : PinnedUpdate Node) (siblings : List Node) : Prop where
  length_eq : siblings.length = depth
  old : Merkle.pathRoot pair up.oldLeaf siblings (Merkle.indexBits depth up.index) = up.preRoot
  new : Merkle.pathRoot pair up.newLeaf siblings (Merkle.indexBits depth up.index) = up.postRoot

/-- The operands hashed along the tree's own path to a slot. -/
def ownOperands (leaves : ℕ → Node) (slot : ℕ) : List (Node × Node) :=
  Merkle.operands pair (leaves slot) (Merkle.opening pair leaves 0 depth slot)
    (Merkle.indexBits depth slot)

/-- The operands of two paths do not collide. -/
def CollisionFree (first second : List (Node × Node)) : Prop :=
  Set.InjOn (Function.uncurry pair) {children | children ∈ first ∨ children ∈ second}

/-- No collision among the operands of an update's old lane and of the tree's
own path to the same slot. -/
def HashedApart (leaves : ℕ → Node) (up : PinnedUpdate Node) (siblings : List Node) : Prop :=
  CollisionFree pair
    (Merkle.operands pair up.oldLeaf siblings (Merkle.indexBits depth up.index))
    (ownOperands pair depth leaves up.index)

variable {pair depth}

/-- Trees with one root agree on a slot, as long as its two paths do not collide. -/
theorem slot_eq_of_root_eq {first second : ℕ → Node} {slot : ℕ} (inside : slot < 2 ^ depth)
    (apart : CollisionFree pair (ownOperands pair depth first slot)
      (ownOperands pair depth second slot))
    (same : Merkle.subtreeRoot pair first depth 0 = Merkle.subtreeRoot pair second depth 0) :
    first slot = second slot := by
  have firstOwn := Merkle.pathRoot_opening pair first 0 depth slot
  have secondOwn := Merkle.pathRoot_opening pair second 0 depth slot
  rw [Nat.zero_add, Nat.div_eq_of_lt inside] at firstOwn secondOwn
  have paths := firstOwn.trans (same.trans secondOwn.symm)
  exact (Merkle.path_eq_of_pathRoot_eq pair apart
    (by rw [Merkle.opening_length, Merkle.indexBits_length])
    (by rw [Merkle.opening_length, Merkle.indexBits_length])
    (fun children member => .inl member) (fun children member => .inr member) paths).1

/-- One update replaces one slot of the tree it starts from. -/
theorem OpensBoth.replaces {up : PinnedUpdate Node} {siblings : List Node}
    (opens : OpensBoth pair depth up siblings) {leaves : ℕ → Node}
    (start : Merkle.subtreeRoot pair leaves depth 0 = up.preRoot) (inside : up.index < 2 ^ depth)
    (apart : HashedApart pair depth leaves up siblings) :
    leaves up.index = up.oldLeaf ∧
      Merkle.subtreeRoot pair (Function.update leaves up.index up.newLeaf) depth 0 =
        up.postRoot := by
  have own := Merkle.pathRoot_opening pair leaves 0 depth up.index
  rw [Nat.zero_add, Nat.div_eq_of_lt inside, start] at own
  have same : Merkle.pathRoot pair up.oldLeaf siblings (Merkle.indexBits depth up.index) =
      Merkle.pathRoot pair (leaves up.index) (Merkle.opening pair leaves 0 depth up.index)
        (Merkle.indexBits depth up.index) := opens.old.trans own.symm
  rcases Merkle.path_eq_of_pathRoot_eq pair apart
    (by rw [opens.length_eq, Merkle.indexBits_length])
    (by rw [Merkle.opening_length, Merkle.indexBits_length])
    (fun children member => .inl member) (fun children member => .inr member) same with
    ⟨leaf, siblingsOwn⟩
  refine ⟨leaf.symm, ?_⟩
  rw [← opens.new, siblingsOwn]
  exact (Merkle.pathRoot_opening_replaced pair leaves up.newLeaf inside).symm

/-- A chain of updates writes their slots and no others. The induction is on
the list, with the slots before it arbitrary. -/
theorem RootsChained.follows {updates : List (PinnedUpdate Node)} {root : Node}
    (chained : RootsChained root updates) {leaves : ℕ → Node}
    (start : Merkle.subtreeRoot pair leaves depth 0 = root) (siblings : ℕ → List Node)
    (opens : ∀ u up, updates[u]? = some up → OpensBoth pair depth up (siblings u))
    (inside : ∀ up ∈ updates, up.index < 2 ^ depth)
    (apart : ∀ u up, updates[u]? = some up →
      HashedApart pair depth (leavesAfter leaves (updates.take u)) up (siblings u))
    {u : ℕ} {up : PinnedUpdate Node} (found : updates[u]? = some up) :
    leavesAfter leaves (updates.take u) up.index = up.oldLeaf ∧
      Merkle.subtreeRoot pair (leavesAfter leaves (updates.take (u + 1))) depth 0 =
        up.postRoot := by
  induction updates generalizing root leaves siblings u with
  | nil => simp at found
  | cons first rest ih =>
      rcases chained with ⟨starts, later⟩
      have replaced := (opens 0 first rfl).replaces (start.trans starts.symm)
        (inside first List.mem_cons_self) (apart 0 first rfl)
      cases u with
      | zero =>
          rw [List.getElem?_cons_zero] at found
          rw [← Option.some.inj found]
          exact replaced
      | succ u =>
          exact ih later replaced.2 (fun u => siblings (u + 1))
            (fun u up found => opens (u + 1) up found)
            (fun up member => inside up (List.mem_cons_of_mem _ member))
            (fun u up found => apart (u + 1) up found) found

end Chain

/-! ## The circuit -/

namespace NonceUpdateT8

open Stwo

/-- The hash functions of the nonce tree on the words of its nodes. -/
def nonceNodeWords : NonceHash (Quad ℕ) where
  leaf := fun nonce => p2t8NodeWords (nonceLeaf nonce)
  pair := compressT8

/-- The siblings of an update as words. -/
def siblingWords (main : Columns) (depth u : ℕ) : List (Quad ℕ) :=
  (siblingsOf main depth u).map words

theorem siblingWords_length (main : Columns) (depth u : ℕ) :
    (siblingWords main depth u).length = depth := by
  simp [siblingWords, siblingsOf]

theorem siblingWords_canonical (main : Columns) (depth u : ℕ) :
    ∀ sibling ∈ siblingWords main depth u, sibling.All Mersenne.Canonical := by
  intro sibling member
  rcases List.mem_map.mp member with ⟨quad, -, rfl⟩
  exact words_canonical quad

section Circuit

variable {updates : List (PinnedUpdate (Quad ℕ))} {depth logSize : ℕ} {main preproc : Columns}

/-- What the asserts of `buildPreproc` say. -/
theorem buildPreproc_ok (built : buildPreproc updates depth logSize = .ok preproc) :
    0 < depth ∧ updates.length * depth * 22 ≤ 2 ^ logSize ∧
      preproc = columnsOf (preprocWrites updates depth) := by
  unfold buildPreproc at built
  split at built
  case isTrue => exact absurd built (by simp)
  case isFalse positive =>
    split at built
    case isTrue => exact absurd built (by simp)
    case isFalse fits =>
      exact ⟨by omega, by omega, (Except.ok.inj built).symm⟩

/-- Either lane climbs, in words, to its root modulo `P`. -/
theorem Satisfies.lane_root_words (built : buildPreproc updates depth logSize = .ok preproc)
    (satisfied : Satisfies main preproc logSize) {u : ℕ} {up : PinnedUpdate (Quad ℕ)}
    (found : updates[u]? = some up) (side : Side) :
    merklePathRootT8 (side.leaf up) (siblingWords main depth u)
      (Merkle.indexBits depth up.index) = norm4 (side.root up) := by
  rcases buildPreproc_ok built with ⟨positive, fits, rfl⟩
  have climbed := satisfied.lane_root fits positive found side
  have residues_words : ((siblingsOf main depth u).map words).map residues =
      siblingsOf main depth u := by
    simp [Function.comp_def]
  rw [merklePathRootT8_eq_words, siblingWords, residues_words, climbed, words_residues]

/-- The lanes open, in words, the normalised update. -/
theorem Satisfies.opensBoth (built : buildPreproc updates depth logSize = .ok preproc)
    (satisfied : Satisfies main preproc logSize) {u : ℕ} {up : PinnedUpdate (Quad ℕ)}
    (found : updates[u]? = some up) :
    OpensBoth compressT8 depth (up.map norm4) (siblingWords main depth u) := by
  have normal : (siblingWords main depth u).map norm4 = siblingWords main depth u := by
    apply List.map_congr_left (g := id) _ |>.trans (List.map_id _)
    intro sibling member
    exact norm4_eq_self (siblingWords_canonical main depth u sibling member)
  have old := satisfied.lane_root_words built found .old
  have new := satisfied.lane_root_words built found .new
  rw [merklePathRootT8, normal] at old new
  exact ⟨siblingWords_length main depth u, old, new⟩

/-- Slots after the first updates of a list, in normalised words. -/
def slotsAfter (leaves : ℕ → Quad ℕ) (updates : List (PinnedUpdate (Quad ℕ))) (count : ℕ) :
    ℕ → Quad ℕ :=
  leavesAfter leaves ((updates.map (PinnedUpdate.map norm4)).take count)

/-- Every assignment of the main columns that satisfies the constraints opens,
for each update, the old leaf under the root before it and the new leaf under
the root after it along one list of siblings.  When the roots chain, the old
leaf is the slot's, and a tree with the root after an update has its new leaf
in the slot and every other slot as before. -/
theorem update_circuit_sound (built : buildPreproc updates depth logSize = .ok preproc)
    (satisfied : Satisfies main preproc logSize) :
    (∀ u up, updates[u]? = some up → ∃ siblings : List (Quad ℕ),
      siblings = siblingWords main depth u ∧ siblings.length = depth ∧
      (∀ sibling ∈ siblings, sibling.All Mersenne.Canonical) ∧
      merklePathRootT8 up.oldLeaf siblings (Merkle.indexBits depth up.index) =
        norm4 up.preRoot ∧
      merklePathRootT8 up.newLeaf siblings (Merkle.indexBits depth up.index) =
        norm4 up.postRoot) ∧
    ∀ statement : NonceStatement (Quad ℕ), statement.pinnedUpdates nonceNodeWords = updates →
      (∀ up ∈ updates, up.index < 2 ^ depth) →
      ∀ leaves : ℕ → Quad ℕ,
        Merkle.subtreeRoot compressT8 leaves depth 0 = norm4 statement.oldRoot →
        (∀ u up, updates[u]? = some up → HashedApart compressT8 depth
          (slotsAfter leaves updates u) (up.map norm4) (siblingWords main depth u)) →
        ∀ u up, updates[u]? = some up →
          slotsAfter leaves updates u up.index = norm4 up.oldLeaf ∧
          Merkle.subtreeRoot compressT8 (Function.update (slotsAfter leaves updates u) up.index
            (norm4 up.newLeaf)) depth 0 = norm4 up.postRoot ∧
          ∀ after : ℕ → Quad ℕ,
            Merkle.subtreeRoot compressT8 after depth 0 = norm4 up.postRoot →
            ∀ slot < 2 ^ depth, CollisionFree compressT8
              (ownOperands compressT8 depth after slot)
              (ownOperands compressT8 depth (Function.update (slotsAfter leaves updates u)
                up.index (norm4 up.newLeaf)) slot) →
            after slot = if slot = up.index then norm4 up.newLeaf
              else slotsAfter leaves updates u slot := by
  constructor
  · intro u up found
    exact ⟨_, rfl, siblingWords_length main depth u, siblingWords_canonical main depth u,
      satisfied.lane_root_words built found .old, satisfied.lane_root_words built found .new⟩
  · intro statement pinned inside leaves start apart u up found
    have chained := (pinnedUpdates_chained nonceNodeWords statement).map norm4
    rw [pinned] at chained
    have normal : (updates.map (PinnedUpdate.map norm4))[u]? = some (up.map norm4) := by
      rw [List.getElem?_map, found]
      rfl
    have step := chained.follows start (siblingWords main depth)
      (by
        intro k other listed
        rw [List.getElem?_map] at listed
        rcases Option.map_eq_some_iff.mp listed with ⟨original, place, rfl⟩
        exact satisfied.opensBoth built place)
      (by
        intro other member
        rcases List.mem_map.mp member with ⟨original, listed, rfl⟩
        exact inside original listed)
      (by
        intro k other listed
        rw [List.getElem?_map] at listed
        rcases Option.map_eq_some_iff.mp listed with ⟨original, place, rfl⟩
        exact apart k original place)
      normal
    rw [leavesAfter_take_succ leaves normal] at step
    rcases step with ⟨held, reached⟩
    refine ⟨held, reached, ?_⟩
    intro after same slot below free
    rw [slot_eq_of_root_eq below free (same.trans reached.symm), Function.update_apply]

end Circuit

/-! ## A satisfied circuit -/

/-- The words of a nonce leaf are canonical. -/
theorem nonceNodeWords_leaf (nonce : U64) :
    (nonceNodeWords.leaf nonce).All Mersenne.Canonical ∧
      nonceNodeWords.leaf nonce = compressT8 nonceDomain (nonceWords nonce) := by
  have domain : nonceDomain.All Mersenne.Canonical := by decide
  have limb (value : ℕ) : Mersenne.Canonical (value &&& limbMask) := by
    have small : value &&& limbMask ≤ limbMask := Nat.and_le_right
    have bound : limbMask < Mersenne.P := by decide
    omega
  have limbs : (nonceWords nonce).All Mersenne.Canonical :=
    ⟨limb _, limb _, limb _, Mersenne.P_prime.pos⟩
  have hashed := compressT8_of_canonical domain limbs
  have canonical : (compressT8 nonceDomain (nonceWords nonce)).All Mersenne.Canonical := by
    rw [hashed]
    exact words_canonical _
  have read : nonceNodeWords.leaf nonce = compressT8 nonceDomain (nonceWords nonce) := by
    apply p2t8NodeWords_p2t8Pack
    rcases canonical with ⟨first, second, third, fourth⟩
    simp only [Mersenne.Canonical, Mersenne.P] at first second third fourth
    exact ⟨by omega, by omega, by omega, by omega⟩
  rw [read]
  exact ⟨canonical, rfl⟩

/-- The leaf of a slot that was never used. -/
def unusedLeaf : Quad ℕ := nonceNodeWords.leaf 0

/-- The leaf of a slot that was used once. -/
def usedLeaf : Quad ℕ := nonceNodeWords.leaf 1

def unusedPair : Quad ℕ := compressT8 unusedLeaf unusedLeaf

def usedPair : Quad ℕ := compressT8 usedLeaf unusedLeaf

/-- Slots 0 and 2 of an empty tree of depth 2 are moved from nonce 0 to nonce 1. -/
def twoUses : NonceStatement (Quad ℕ) where
  oldRoot := compressT8 unusedPair unusedPair
  newRoot := compressT8 usedPair usedPair
  updates := [⟨0, 0, 1, compressT8 usedPair unusedPair⟩, ⟨2, 0, 1, compressT8 usedPair usedPair⟩]
  depth := 2

def firstUpdate : PinnedUpdate (Quad ℕ) where
  oldLeaf := unusedLeaf
  newLeaf := usedLeaf
  index := 0
  preRoot := compressT8 unusedPair unusedPair
  postRoot := compressT8 usedPair unusedPair

def secondUpdate : PinnedUpdate (Quad ℕ) where
  oldLeaf := unusedLeaf
  newLeaf := usedLeaf
  index := 2
  preRoot := compressT8 usedPair unusedPair
  postRoot := compressT8 usedPair usedPair

theorem twoUses_pinned : twoUses.pinnedUpdates nonceNodeWords = [firstUpdate, secondUpdate] := rfl

/-- The second path meets the slot that the first update has written. -/
def usesSiblings : ℕ → List (Quad ℕ)
  | 0 => [unusedLeaf, unusedPair]
  | _ => [unusedLeaf, usedPair]

/-- Main columns that prove both updates. -/
def twoUsesMain : Columns :=
  honestMain [firstUpdate, secondUpdate] 2 fun u => (usesSiblings u).map residues

theorem twoUses_canonical : unusedLeaf.All Mersenne.Canonical ∧ usedLeaf.All Mersenne.Canonical ∧
    unusedPair.All Mersenne.Canonical ∧ usedPair.All Mersenne.Canonical := by
  have unused : unusedLeaf.All Mersenne.Canonical := (nonceNodeWords_leaf 0).1
  have used : usedLeaf.All Mersenne.Canonical := (nonceNodeWords_leaf 1).1
  exact ⟨unused, used, compressT8_canonical unused unused, compressT8_canonical used unused⟩

/-- An update of the sample, with its place. -/
theorem update_of_getElem? {u : ℕ} {up : PinnedUpdate (Quad ℕ)}
    (found : [firstUpdate, secondUpdate][u]? = some up) :
    (u = 0 ∧ up = firstUpdate) ∨ (u = 1 ∧ up = secondUpdate) := by
  match u, found with
  | 0, found => exact .inl ⟨rfl, (Option.some.inj found).symm⟩
  | 1, found => exact .inr ⟨rfl, (Option.some.inj found).symm⟩

theorem twoUses_norm4 {u : ℕ} {up : PinnedUpdate (Quad ℕ)}
    (found : [firstUpdate, secondUpdate][u]? = some up) : up.map norm4 = up := by
  rcases twoUses_canonical with ⟨unused, used, unusedPair, usedPair⟩
  have before := norm4_eq_self (compressT8_canonical unusedPair unusedPair)
  have between := norm4_eq_self (compressT8_canonical usedPair unusedPair)
  have after := norm4_eq_self (compressT8_canonical usedPair usedPair)
  rcases update_of_getElem? found with ⟨-, rfl⟩ | ⟨-, rfl⟩ <;>
    simp only [PinnedUpdate.map, firstUpdate, secondUpdate, norm4_eq_self unused,
      norm4_eq_self used, before, between, after]

theorem usesSiblings_norm4 (u : ℕ) : (usesSiblings u).map norm4 = usesSiblings u := by
  rcases twoUses_canonical with ⟨unused, -, unusedPair, usedPair⟩
  cases u <;>
    simp only [usesSiblings, List.map_cons, List.map_nil, norm4_eq_self unused,
      norm4_eq_self unusedPair, norm4_eq_self usedPair]

theorem twoUses_opens {u : ℕ} {up : PinnedUpdate (Quad ℕ)}
    (found : [firstUpdate, secondUpdate][u]? = some up) :
    OpensBoth compressT8 2 up (usesSiblings u) := by
  have first : Merkle.indexBits 2 0 = [false, false] := rfl
  have second : Merkle.indexBits 2 2 = [false, true] := rfl
  rcases update_of_getElem? found with ⟨rfl, rfl⟩ | ⟨rfl, rfl⟩
  · constructor <;> simp [firstUpdate, usesSiblings, first, Merkle.pathRoot_cons, unusedPair, usedPair]
  · constructor <;> simp [secondUpdate, usesSiblings, second, Merkle.pathRoot_cons, unusedPair, usedPair]

theorem twoUsesMain_satisfies {logSize : ℕ} :
    Satisfies twoUsesMain (columnsOf (preprocWrites [firstUpdate, secondUpdate] 2)) logSize := by
  unfold twoUsesMain
  refine honestMain_satisfies ?_ Nat.two_pos (List.cons_ne_nil _ _) ?_
  · intro u below
    cases u <;> rfl
  · intro u up found side
    have opens := twoUses_opens found
    have climbs (leaf root : Quad ℕ) (own : norm4 leaf = leaf)
        (climbed : Merkle.pathRoot compressT8 leaf (usesSiblings u)
          (Merkle.indexBits 2 up.index) = root) :
        Merkle.pathRoot (compress constant) (residues leaf) ((usesSiblings u).map residues)
          (Merkle.indexBits 2 up.index) = residues root := by
      have words := merklePathRootT8_eq_words leaf (usesSiblings u) (Merkle.indexBits 2 up.index)
      rw [merklePathRootT8, own, usesSiblings_norm4, climbed] at words
      rw [words, residues_words]
    have normal := twoUses_norm4 found
    cases side with
    | old => exact climbs _ _ (congrArg PinnedUpdate.oldLeaf normal) opens.old
    | new => exact climbs _ _ (congrArg PinnedUpdate.newLeaf normal) opens.new

theorem twoUses_siblings {u : ℕ} (below : u < 2) : siblingWords twoUsesMain 2 u = usesSiblings u := by
  have chosen : siblingsOf twoUsesMain 2 u = (usesSiblings u).map residues :=
    siblingsOf_honestMain (fun u _ => by cases u <;> rfl) below
  rw [siblingWords, chosen, List.map_map, ← usesSiblings_norm4 u, List.map_map]
  apply List.map_congr_left
  intro sibling member
  simp

/-- The nodes of the lower level are none of the upper one. -/
theorem twoUses_levels : unusedPair ≠ compressT8 unusedPair unusedPair ∧
    unusedPair ≠ compressT8 usedPair unusedPair := by
  decide +kernel

theorem collisionFree_of_levels {lower upper : Quad ℕ × Quad ℕ}
    (apart : compressT8 lower.1 lower.2 ≠ compressT8 upper.1 upper.2) :
    CollisionFree compressT8 [lower, upper] [lower, upper] := by
  rintro first firstMember second secondMember same
  simp only [Set.mem_ofPred_eq, List.mem_cons, List.not_mem_nil, or_false, or_self] at firstMember
  simp only [Set.mem_ofPred_eq, List.mem_cons, List.not_mem_nil, or_false, or_self] at secondMember
  rcases firstMember with rfl | rfl <;> rcases secondMember with rfl | rfl
  · rfl
  · exact absurd same apart
  · exact absurd same.symm apart
  · rfl

/-- Every lane and the tree hash the same nodes. -/
theorem twoUses_apart {u : ℕ} {up : PinnedUpdate (Quad ℕ)}
    (found : [firstUpdate, secondUpdate][u]? = some up) :
    HashedApart compressT8 2 (slotsAfter (fun _ => unusedLeaf) [firstUpdate, secondUpdate] u)
      (up.map norm4) (usesSiblings u) := by
  have bits : Merkle.indexBits 2 0 = [false, false] ∧ Merkle.indexBits 2 2 = [false, true] :=
    ⟨rfl, rfl⟩
  have written : slotsAfter (fun _ => unusedLeaf) [firstUpdate, secondUpdate] 1 =
      Function.update (fun _ => unusedLeaf) 0 usedLeaf := by
    have normal : firstUpdate.map norm4 = firstUpdate := @twoUses_norm4 0 firstUpdate rfl
    rw [slotsAfter, List.map_cons, normal]
    rfl
  rw [twoUses_norm4 found]
  rcases update_of_getElem? found with ⟨rfl, rfl⟩ | ⟨rfl, rfl⟩
  · have own : ownOperands compressT8 2 (slotsAfter (fun _ => unusedLeaf)
        [firstUpdate, secondUpdate] 0) 0 =
        [(unusedLeaf, unusedLeaf), (unusedPair, unusedPair)] := by
      simp [ownOperands, slotsAfter, leavesAfter, Machine.writeAll, Merkle.operands, Merkle.opening,
        bits, Merkle.subtreeRoot, unusedPair]
    have lane : Merkle.operands compressT8 unusedLeaf (usesSiblings 0) (Merkle.indexBits 2 0) =
        [(unusedLeaf, unusedLeaf), (unusedPair, unusedPair)] := by
      simp [usesSiblings, bits, Merkle.operands, unusedPair]
    unfold HashedApart
    simp only [firstUpdate] at own ⊢
    rw [own, lane]
    exact collisionFree_of_levels twoUses_levels.1
  · have own : ownOperands compressT8 2 (slotsAfter (fun _ => unusedLeaf)
        [firstUpdate, secondUpdate] 1) 2 =
        [(unusedLeaf, unusedLeaf), (usedPair, unusedPair)] := by
      rw [written]
      simp [ownOperands, Merkle.operands, Merkle.opening, Merkle.siblingIndex, bits,
        Merkle.subtreeRoot, unusedPair, usedPair]
    have lane : Merkle.operands compressT8 unusedLeaf (usesSiblings 1) (Merkle.indexBits 2 2) =
        [(unusedLeaf, unusedLeaf), (usedPair, unusedPair)] := by
      simp [usesSiblings, bits, Merkle.operands, unusedPair]
    unfold HashedApart
    simp only [secondUpdate] at own ⊢
    rw [own, lane]
    exact collisionFree_of_levels twoUses_levels.2

theorem update_circuit_sound_twoUses :
    (merklePathRootT8 secondUpdate.oldLeaf (siblingWords twoUsesMain 2 1)
        (Merkle.indexBits 2 secondUpdate.index) = norm4 secondUpdate.preRoot ∧
      merklePathRootT8 secondUpdate.newLeaf (siblingWords twoUsesMain 2 1)
        (Merkle.indexBits 2 secondUpdate.index) = norm4 secondUpdate.postRoot) ∧
    slotsAfter (fun _ => unusedLeaf) [firstUpdate, secondUpdate] 1 secondUpdate.index =
      norm4 secondUpdate.oldLeaf ∧
    Merkle.subtreeRoot compressT8
      (Function.update (slotsAfter (fun _ => unusedLeaf) [firstUpdate, secondUpdate] 1)
        secondUpdate.index (norm4 secondUpdate.newLeaf)) 2 0 = norm4 secondUpdate.postRoot := by
  have built : buildPreproc [firstUpdate, secondUpdate] 2 7 =
      .ok (columnsOf (preprocWrites [firstUpdate, secondUpdate] 2)) := rfl
  rcases update_circuit_sound built twoUsesMain_satisfies with ⟨paths, slots⟩
  constructor
  · rcases paths 1 secondUpdate rfl with ⟨siblings, rfl, -, -, old, new⟩
    exact ⟨old, new⟩
  · have inside : ∀ up ∈ [firstUpdate, secondUpdate], up.index < 2 ^ 2 := by
      intro up member
      rcases List.mem_iff_getElem?.mp member with ⟨u, found⟩
      rcases update_of_getElem? found with ⟨-, rfl⟩ | ⟨-, rfl⟩ <;> decide
    have start : Merkle.subtreeRoot compressT8 (fun _ => unusedLeaf) 2 0 =
        norm4 twoUses.oldRoot := by
      have canonical := compressT8_canonical twoUses_canonical.2.2.1 twoUses_canonical.2.2.1
      rw [twoUses, norm4_eq_self canonical]
      rfl
    have apart : ∀ u up, [firstUpdate, secondUpdate][u]? = some up → HashedApart compressT8 2
        (slotsAfter (fun _ => unusedLeaf) [firstUpdate, secondUpdate] u) (up.map norm4)
        (siblingWords twoUsesMain 2 u) := by
      intro u up found
      have below : u < 2 := (List.getElem?_eq_some_iff.mp found).1
      rw [twoUses_siblings below]
      exact twoUses_apart found
    have step := slots twoUses twoUses_pinned inside _ start apart 1 secondUpdate rfl
    exact ⟨step.1, step.2.1⟩

end NonceUpdateT8

end Recursive
end QLSA
