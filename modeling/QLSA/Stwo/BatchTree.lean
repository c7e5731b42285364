import QLSA.Merkle.Duplication
import QLSA.Merkle.Path
import QLSA.Stwo.Poseidon2
import Mathlib.Data.List.Lemmas
import Mathlib.Tactic.Lift

namespace QLSA
namespace Stwo

open Mersenne Hash

/-!
# The batch tree and what its root identifies

A batch leaf binds a transaction to the two trace roots of its proof; the
levels above pair neighbours and duplicate the last node of an odd level.  The
tree code is generic in its two hash functions.  The deployed instance is
`batchP2T8`; injectivity and the separation of leaves from inner nodes are
stated as `BatchHash.Separated`, since a compression of eight words into four
can only be assumed to behave so on the values that occur.

Duplication makes a batch and a longer one share their root exactly when
filling both up by duplicated nodes gives the same leaves.  Batches of equal
length are identified; `[a, b, c]` and `[a, b, c, c]` are not.
-/

/-- The words bound by one production leaf. -/
structure Triple where
  txId : Quad ℕ
  tr10 : Quad ℕ
  tr8 : Quad ℕ
  deriving DecidableEq, Repr

/-- All twelve words are reduced. -/
def Triple.Canonical (triple : Triple) : Prop :=
  triple.txId.All Mersenne.Canonical ∧ triple.tr10.All Mersenne.Canonical ∧
    triple.tr8.All Mersenne.Canonical

instance (triple : Triple) : Decidable triple.Canonical :=
  inferInstanceAs (Decidable (_ ∧ _ ∧ _))

/-- The hash functions of the batch tree. -/
structure BatchHash (Node : Type*) where
  /-- `batch_leaf_dual` -/
  leafDual : Triple → Node
  /-- `hash_pair_p2t8` -/
  pair : Node → Node → Node

/-- Injective hashing with leaves apart from inner nodes.  Leaves are compared on canonical
triples only, since a hash of residues cannot tell other words from these. -/
structure BatchHash.Separated {Node : Type*} (hash : BatchHash Node) : Prop where
  leaf_injective : Set.InjOn hash.leafDual {triple | triple.Canonical}
  pair_injective : Function.Injective2 hash.pair
  leaf_ne_pair : ∀ triple, triple.Canonical → ∀ left right,
    hash.leafDual triple ≠ hash.pair left right

/-- Domain tag of a batch leaf. -/
def leafDomain : Quad ℕ := ⟨1421959497, 1730427068, 1993284430, 1732805141⟩

def batchLeafDual (triple : Triple) : Bytes32 :=
  let inner2 := compressT8 triple.tr10 triple.tr8
  let inner := compressT8 triple.txId inner2
  p2t8Pack (compressT8 leafDomain inner)

/-- The hash functions the prover uses. -/
def batchP2T8 : BatchHash Bytes32 where
  leafDual := batchLeafDual
  pair := hashPairP2T8

/-- Levels from the leaf hashes up; the last level holds the root. -/
structure BatchTree (Node : Type*) where
  levels : List (List Node)
  levels_ne_nil : levels ≠ []
  last_ne_nil : levels.getLast levels_ne_nil ≠ []

/-- First node of the last level. -/
def BatchTree.root {Node : Type*} (tree : BatchTree Node) : Node :=
  (tree.levels.getLast tree.levels_ne_nil).head tree.last_ne_nil

/-- The largest batch the tree will build. -/
def maxLeaves : ℕ := 2 ^ 20

section Build

variable {Node : Type*}

/-- The tree over leaf hashes: levels are paired up while they have more than
one node. -/
def treeOver (pair : Node → Node → Node) (leaves : List Node) (nonempty : leaves ≠ []) :
    BatchTree Node where
  levels := Merkle.levelsFrom pair leaves
  levels_ne_nil := Merkle.levelsFrom_ne_nil pair leaves
  last_ne_nil := by
    obtain ⟨root, -, last⟩ := Merkle.levelsFrom_getLast pair leaves nonempty
    rw [List.getLast_eq_iff_getLast?_eq_some _ |>.mpr last]
    exact List.cons_ne_nil root []

def buildBatchTreeDual (hash : BatchHash Node) (triples : List Triple) :
    Except String (BatchTree Node) :=
  if empty : triples = [] then
    .error "a batch tree needs ≥ 1 leaf"
  else if maxLeaves < triples.length then
    .error s!"leaf count {triples.length} exceeds MAX_LEAVES {maxLeaves}"
  else
    .ok (treeOver hash.pair (triples.map hash.leafDual) (by simpa using empty))

theorem treeOver_root (pair : Node → Node → Node) (leaves : List Node)
    (nonempty : leaves ≠ []) :
    Merkle.apex pair leaves = some (treeOver pair leaves nonempty).root := by
  obtain ⟨root, found, last⟩ := Merkle.levelsFrom_getLast pair leaves nonempty
  have top : (Merkle.levelsFrom pair leaves).getLast (Merkle.levelsFrom_ne_nil pair leaves) =
      [root] := (List.getLast_eq_iff_getLast?_eq_some _).mpr last
  rw [found]
  simp [BatchTree.root, treeOver, top]

/-- Batches within the bound have a tree, whose root is the apex of the leaf hashes. -/
theorem buildBatchTreeDual_ok (hash : BatchHash Node) (triples : List Triple)
    (nonempty : triples ≠ []) (bounded : triples.length ≤ maxLeaves) :
    ∃ tree, buildBatchTreeDual hash triples = .ok tree ∧
      Merkle.apex hash.pair (triples.map hash.leafDual) = some tree.root := by
  refine ⟨treeOver hash.pair (triples.map hash.leafDual) (by simpa using nonempty), ?_,
    treeOver_root _ _ _⟩
  rw [buildBatchTreeDual, dif_neg nonempty, if_neg (by omega)]

end Build

theorem padded_map {α β : Type*} (f : α → β) {values : List α} (nonempty : values ≠ []) :
    Merkle.padded (values.map f) = (Merkle.padded values).map f := by
  have mapped := Merkle.apex_map List.append List.append (List.map f) (fun _ _ => List.map_append)
    (values.map ([·])) (by simpa using nonempty)
  unfold Merkle.padded
  rw [List.map_map] at mapped ⊢
  have singles : ((fun value => [value]) ∘ f) = (List.map f ∘ fun value => [value]) := rfl
  rw [singles, mapped]
  cases Merkle.apex List.append (values.map ([·])) <;> rfl

/-- Roots of batches of reduced words agree exactly when the batches agree
after filling them up. -/
theorem buildBatchTreeDual_root_eq_iff {Node : Type*} {hash : BatchHash Node}
    (separated : hash.Separated) {first second : List Triple}
    (firstCanonical : ∀ triple ∈ first, triple.Canonical)
    (secondCanonical : ∀ triple ∈ second, triple.Canonical)
    (firstNonempty : first ≠ []) (secondNonempty : second ≠ []) :
    Merkle.apex hash.pair (first.map hash.leafDual) =
        Merkle.apex hash.pair (second.map hash.leafDual) ↔
      Merkle.padded first = Merkle.padded second := by
  lift first to List {triple : Triple // triple.Canonical} using firstCanonical
  lift second to List {triple : Triple // triple.Canonical} using secondCanonical
  have firstSome : first ≠ [] := fun empty => firstNonempty (by rw [empty]; rfl)
  have secondSome : second ≠ [] := fun empty => secondNonempty (by rw [empty]; rfl)
  have injective : Function.Injective (hash.leafDual ∘ Subtype.val (p := Triple.Canonical)) :=
    Set.injOn_iff_injective.mp separated.leaf_injective
  have leaves := Merkle.apex_eq_iff_padded separated.pair_injective injective
    (fun triple => separated.leaf_ne_pair triple.val triple.property) firstSome secondSome
  rw [List.map_map, List.map_map, leaves, padded_map _ firstSome, padded_map _ secondSome]
  exact (List.map_injective_iff.mpr Subtype.val_injective).eq_iff.symm

/-- A root identifies its batch among others exactly when they have its length or fill up to other
leaves.  Leaves and inner nodes are hashed without collisions and apart from each other, and the
triples are canonical words, so what is left is the duplication of the last node on an odd level.
-/
theorem root_identifies_batch_iff {Node : Type*} {hash : BatchHash Node}
    (separated : hash.Separated) {first second : List Triple}
    (firstCanonical : ∀ triple ∈ first, triple.Canonical)
    (secondCanonical : ∀ triple ∈ second, triple.Canonical)
    (firstNonempty : first ≠ []) (secondNonempty : second ≠ [])
    (firstBounded : first.length ≤ maxLeaves) (secondBounded : second.length ≤ maxLeaves) :
    (∀ firstTree secondTree, buildBatchTreeDual hash first = .ok firstTree →
        buildBatchTreeDual hash second = .ok secondTree →
        firstTree.root = secondTree.root → first = second) ↔
      first.length = second.length ∨ Merkle.padded first ≠ Merkle.padded second := by
  obtain ⟨firstTree, firstBuilt, firstRoot⟩ :=
    buildBatchTreeDual_ok hash first firstNonempty firstBounded
  obtain ⟨secondTree, secondBuilt, secondRoot⟩ :=
    buildBatchTreeDual_ok hash second secondNonempty secondBounded
  have roots := buildBatchTreeDual_root_eq_iff separated firstCanonical secondCanonical
    firstNonempty secondNonempty
  rw [firstRoot, secondRoot, Option.some_inj] at roots
  constructor
  · intro identifies
    by_cases filled : Merkle.padded first = Merkle.padded second
    · left
      rw [identifies firstTree secondTree firstBuilt secondBuilt (roots.mpr filled)]
    · exact Or.inr filled
  · intro distinguishable firstOther secondOther firstOk secondOk same
    rw [firstBuilt] at firstOk
    rw [secondBuilt] at secondOk
    cases firstOk
    cases secondOk
    have filled := roots.mp same
    rcases distinguishable with lengths | differ
    · exact Merkle.padded_inj_of_length_eq firstNonempty secondNonempty lengths filled
    · exact absurd filled differ

/-! ## Membership -/

/-- Recompute a root from an inclusion path. -/
def verifyBatchMembership {Node : Type*} [DecidableEq Node] (pair : Node → Node → Node)
    (root leaf : Node) (sibs : List Node) (bits : List Bool) : Bool :=
  if sibs.length ≠ bits.length then
    false
  else
    let cur := (sibs.zip bits).foldl
      (fun cur step => if step.2 then pair step.1 cur else pair cur step.1) leaf
    decide (cur = root)

theorem foldl_zip_eq_pathRoot {Node : Type*} (pair : Node → Node → Node) (leaf : Node)
    (sibs : List Node) (bits : List Bool) :
    (sibs.zip bits).foldl (fun cur step => if step.2 then pair step.1 cur else pair cur step.1)
      leaf = Merkle.pathRoot pair leaf sibs bits := by
  induction sibs generalizing leaf bits with
  | nil => simp
  | cons sibling sibs ih =>
      cases bits with
      | nil => rfl
      | cons bit bits => exact ih _ _

theorem verifyBatchMembership_iff {Node : Type*} [DecidableEq Node]
    (pair : Node → Node → Node) (root leaf : Node) (sibs : List Node) (bits : List Bool) :
    verifyBatchMembership pair root leaf sibs bits = true ↔
      sibs.length = bits.length ∧ Merkle.pathRoot pair leaf sibs bits = root := by
  unfold verifyBatchMembership
  rw [foldl_zip_eq_pathRoot]
  by_cases lengths : sibs.length = bits.length <;> simp [lengths]

/-! ## Free hashing -/

/-- Hashing without any identifications: nodes are the terms themselves. -/
def freeBatch : BatchHash (FreeMagma Triple) where
  leafDual := FreeMagma.of
  pair := FreeMagma.mul

theorem freeBatch_separated : freeBatch.Separated where
  leaf_injective := by
    intro first _ second _ same
    injection same
  pair_injective := by
    intro left otherLeft right otherRight same
    injection same with leftSame rightSame
    exact ⟨leftSame, rightSame⟩
  leaf_ne_pair := by
    intro triple _ left right same
    cases same

/-- A triple whose words all have one value. -/
def constantTriple (word : ℕ) : Triple :=
  ⟨⟨word, word, word, word⟩, ⟨word, word, word, word⟩, ⟨word, word, word, word⟩⟩

/-- Three leaves that differ in the last one. -/
def threeLeaves (last : ℕ) : List Triple := [constantTriple 1, constantTriple 2, constantTriple last]

/-- The root of three leaves tells them from three others, and not from the four that they
are filled up to. -/
theorem root_identifies_three_leaves :
    (∀ firstTree secondTree, buildBatchTreeDual freeBatch (threeLeaves 3) = .ok firstTree →
        buildBatchTreeDual freeBatch (threeLeaves 4) = .ok secondTree →
        firstTree.root = secondTree.root → threeLeaves 3 = threeLeaves 4) ∧
      ¬ ∀ firstTree secondTree, buildBatchTreeDual freeBatch (threeLeaves 3) = .ok firstTree →
        buildBatchTreeDual freeBatch (threeLeaves 3 ++ [constantTriple 3]) = .ok secondTree →
        firstTree.root = secondTree.root → threeLeaves 3 = threeLeaves 3 ++ [constantTriple 3] := by
  constructor
  · exact (root_identifies_batch_iff freeBatch_separated (by decide) (by decide) (by decide)
      (by decide) (by decide) (by decide)).mpr (.inl rfl)
  · rw [root_identifies_batch_iff freeBatch_separated (by decide) (by decide) (by decide)
      (by decide) (by decide) (by decide)]
    have filled : Merkle.padded (threeLeaves 3) =
        Merkle.padded (threeLeaves 3 ++ [constantTriple 3]) := by
      rw [Merkle.padded, Merkle.padded, Merkle.apex_of_wide _ (by decide),
        Merkle.apex_of_wide _ (by decide : 1 < ((threeLeaves 3 ++ _).map ([·])).length)]
      rfl
    exact not_or.mpr ⟨by decide, not_not.mpr filled⟩

/-- Three leaves and the same three with the last one repeated: injective and
separated hashing does not keep their roots apart. -/
theorem odd_batch_shares_root :
    ¬ ∀ (Node : Type) (hash : BatchHash Node), hash.Separated →
      ∀ first second : List Triple,
        (∀ triple ∈ first, triple.Canonical) → (∀ triple ∈ second, triple.Canonical) →
        first ≠ [] → second ≠ [] → first.length ≤ maxLeaves → second.length ≤ maxLeaves →
        ∀ firstTree secondTree, buildBatchTreeDual hash first = .ok firstTree →
          buildBatchTreeDual hash second = .ok secondTree →
          firstTree.root = secondTree.root → first = second := by
  intro identifies
  let short := [constantTriple 1, constantTriple 2, constantTriple 3]
  let long := [constantTriple 1, constantTriple 2, constantTriple 3, constantTriple 3]
  obtain ⟨shortTree, shortBuilt, shortRoot⟩ :=
    buildBatchTreeDual_ok freeBatch short (by decide) (by decide)
  obtain ⟨longTree, longBuilt, longRoot⟩ :=
    buildBatchTreeDual_ok freeBatch long (by decide) (by decide)
  rw [Merkle.apex_of_wide _ (by decide)] at shortRoot longRoot
  have same : shortTree.root = longTree.root :=
    Option.some_inj.mp (shortRoot.symm.trans longRoot)
  have equal := identifies _ freeBatch freeBatch_separated short long (by decide) (by decide)
    (by decide) (by decide) (by decide) (by decide) shortTree longTree shortBuilt longBuilt same
  exact absurd (congrArg List.length equal) (by decide)

end Stwo
end QLSA
