import QLSA.Merkle.LevelPaths
import QLSA.Stwo.BatchTree

namespace QLSA
namespace Stwo

open Hash

/-!
# Every member of a batch proves its membership

The three builders differ in their leaves only: raw bytes, a transaction with
one trace root, a transaction with both.  Packing bytes can fail, for a leaf of
`2^30` bytes or more, and then there is no tree.  Of every tree that is built,
each leaf has a path that the verifier accepts.
-/

/-! ## Leaves -/

/-- Bytes in one word. -/
def bytesPerWord : ℕ := 3

def maxLeafBytes : ℕ := 2 ^ 30

/-- The bytes in chunks of `bytesPerWord`, the last one possibly shorter. -/
def chunks : List UInt8 → List (List UInt8)
  | b0 :: b1 :: b2 :: rest => [b0, b1, b2] :: chunks rest
  | [] => []
  | chunk => [chunk]

/-- A little-endian word. -/
def chunkWord (chunk : List UInt8) : ℕ :=
  chunk.zipIdx.foldl (fun w entry => w ||| entry.1.toNat <<< (8 * entry.2)) 0

def bytesToM31Words (data : List UInt8) : Except String (List ℕ) :=
  if maxLeafBytes ≤ data.length then
    .error s!"leaf of {data.length} bytes exceeds MAX_LEAF_BYTES {maxLeafBytes}"
  else
    .ok ((chunks data).map chunkWord ++ [data.length % 2 ^ 32])

def batchLeafHash (data : List UInt8) : Except String Bytes32 := do
  let colValues ← bytesToM31Words data
  return hashLeafColsP2T8 colValues

/-- A leaf over a single trace root. -/
def batchLeaf (txId traceRoot : Quad ℕ) : Bytes32 :=
  let inner := compressT8 txId traceRoot
  p2t8Pack (compressT8 leafDomain inner)

/-! ## Builders -/

/-- The leaves of a batch, hashed until one fails. -/
def leafHashes : List (List UInt8) → Except String (List Bytes32)
  | [] => .ok []
  | data :: leaves => do
      let leaf ← batchLeafHash data
      let level ← leafHashes leaves
      return leaf :: level

theorem leafHashes_length {leaves : List (List UInt8)} {level : List Bytes32}
    (hashed : leafHashes leaves = .ok level) : level.length = leaves.length := by
  induction leaves generalizing level with
  | nil =>
      cases hashed
      rfl
  | cons data leaves ih =>
      rw [leafHashes] at hashed
      cases leaf : batchLeafHash data with
      | error message => rw [leaf] at hashed; cases hashed
      | ok node =>
          cases rest : leafHashes leaves with
          | error message => rw [leaf, rest] at hashed; cases hashed
          | ok nodes =>
              rw [leaf, rest] at hashed
              cases hashed
              rw [List.length_cons, List.length_cons, ih rest]

def buildBatchTree (leaves : List (List UInt8)) : Except String (BatchTree Bytes32) :=
  if empty : leaves = [] then
    .error "a batch tree needs ≥ 1 leaf"
  else if maxLeaves < leaves.length then
    .error s!"leaf count {leaves.length} exceeds MAX_LEAVES {maxLeaves}"
  else
    match hashed : leafHashes leaves with
    | .error message => .error message
    | .ok level => .ok (treeOver hashPairP2T8 level (by
        intro vacant
        have lengths := leafHashes_length hashed
        rw [vacant] at lengths
        exact empty (List.length_eq_zero_iff.mp lengths.symm)))

/-- The builder over entries whose leaf always has a hash. -/
def buildTreeOf {Source Node : Type*} (pair : Node → Node → Node) (leaf : Source → Node)
    (sources : List Source) : Except String (BatchTree Node) :=
  if empty : sources = [] then
    .error "a batch tree needs ≥ 1 leaf"
  else if maxLeaves < sources.length then
    .error s!"leaf count {sources.length} exceeds MAX_LEAVES {maxLeaves}"
  else
    .ok (treeOver pair (sources.map leaf) (by simpa using empty))

def buildBatchTreeBound (pairs : List (Quad ℕ × Quad ℕ)) : Except String (BatchTree Bytes32) :=
  buildTreeOf hashPairP2T8 (fun entry => batchLeaf entry.1 entry.2) pairs

theorem buildBatchTreeDual_eq {Node : Type*} (hash : BatchHash Node) (triples : List Triple) :
    buildBatchTreeDual hash triples = buildTreeOf hash.pair hash.leafDual triples := rfl

namespace BatchTree

variable {Node : Type*}

def leafCount (tree : BatchTree Node) : ℕ := (tree.levels.head tree.levels_ne_nil).length

/-- Number of siblings in a path. -/
def depth (tree : BatchTree Node) : ℕ := tree.levels.length - 1

/-- The loop of `membership_proof` over the levels below the root.  Reading
past the end of a level would panic. -/
def proofThrough : List (List Node) → ℕ → Except String (List Node × List Bool)
  | [], _ => .ok ([], [])
  | level :: levels, idx =>
      match level[min (idx ^^^ 1) (level.length - 1)]? with
      | none => .error "index out of bounds"
      | some sib => do
          let (sibs, bits) ← proofThrough levels (idx / 2)
          return (sib :: sibs, decide (idx &&& 1 = 1) :: bits)

def membershipProof (tree : BatchTree Node) (index : ℕ) : Except String (List Node × List Bool) :=
  if tree.leafCount ≤ index then
    .error s!"leaf index {index} out of range for {tree.leafCount} leaves"
  else
    proofThrough tree.levels.dropLast index

/-! ## Paths -/

/-- The loop reads the siblings of the levels and the digits of the index. -/
theorem proofThrough_eq {levels : List (List Node)} {index : ℕ} {sibs : List Node}
    (read : Merkle.siblingsThrough levels index = some sibs) :
    proofThrough levels index = .ok (sibs, Merkle.indexBits sibs.length index) := by
  induction levels generalizing index sibs with
  | nil =>
      cases read
      rfl
  | cons level levels ih =>
      rw [Merkle.siblingsThrough] at read
      cases here : level[min (index ^^^ 1) (level.length - 1)]? with
      | none => rw [here] at read; cases read
      | some sib =>
          cases rest : Merkle.siblingsThrough levels (index / 2) with
          | none => rw [here, rest] at read; cases read
          | some above =>
              rw [here, rest] at read
              cases read
              rw [proofThrough, here]
              dsimp only
              rw [ih rest, List.length_cons, Merkle.indexBits, Nat.and_one_is_mod]
              rfl

/-- What a tree owes the leaves it was built over: the least depth that has
room for them, and for each of them a path of that length whose bits are the
digits of its index and which leads to the root. -/
structure Serves [DecidableEq Node] (pair : Node → Node → Node) (tree : BatchTree Node)
    (leaves : List Node) : Prop where
  depth_least : IsLeast {depth | leaves.length ≤ 2 ^ depth} tree.depth
  proof : ∀ index leaf, leaves[index]? = some leaf → ∃ sibs bits,
    tree.membershipProof index = .ok (sibs, bits) ∧ sibs.length = tree.depth ∧
    bits = (List.range tree.depth).map (index.testBit ·) ∧
    verifyBatchMembership pair tree.root leaf sibs bits = true

theorem indexBits_eq_testBit (count index : ℕ) :
    Merkle.indexBits count index = (List.range count).map (index.testBit ·) := by
  apply List.ext_getElem
  · simp
  · intro digit within other
    have digitAt := Merkle.indexBits_get count index digit within
    rw [List.get_eq_getElem] at digitAt
    rw [digitAt, List.getElem_map, List.getElem_range, Nat.testBit_eq_decide_div_mod_eq]

theorem treeOver_depth (pair : Node → Node → Node) (leaves : List Node) (nonempty : leaves ≠ []) :
    (treeOver pair leaves nonempty).depth = Nat.clog 2 leaves.length := by
  have count := Merkle.levelsFrom_length pair leaves nonempty
  have levels : (treeOver pair leaves nonempty).levels = Merkle.levelsFrom pair leaves := rfl
  rw [depth, levels, count, Nat.add_sub_cancel]

theorem treeOver_leafCount (pair : Node → Node → Node) (leaves : List Node)
    (nonempty : leaves ≠ []) : (treeOver pair leaves nonempty).leafCount = leaves.length := by
  have first : (Merkle.levelsFrom pair leaves).head? = some leaves := by
    rw [Merkle.levelsFrom]
    split <;> rfl
  have levels : (treeOver pair leaves nonempty).levels = Merkle.levelsFrom pair leaves := rfl
  have head := List.head_eq_iff_head?_eq_some (treeOver pair leaves nonempty).levels_ne_nil
    (a := leaves)
  rw [leafCount, head.mpr (by rw [levels]; exact first)]

/-- A tree serves the leaves it was built over. -/
theorem treeOver_serves [DecidableEq Node] (pair : Node → Node → Node) (leaves : List Node)
    (nonempty : leaves ≠ []) : (treeOver pair leaves nonempty).Serves pair leaves where
  depth_least := by
    rw [treeOver_depth]
    constructor
    · exact Nat.le_pow_clog (by decide) _
    · intro other room
      exact Nat.clog_le_of_le_pow room
  proof := by
    intro index leaf leafAt
    have inside : index < leaves.length := (List.getElem?_eq_some_iff.mp leafAt).1
    rcases Merkle.siblingsThrough_spec pair leaves nonempty leafAt (treeOver_root pair leaves nonempty)
      with ⟨sibs, read, count, climbed⟩
    have produced := proofThrough_eq read
    refine ⟨sibs, Merkle.indexBits sibs.length index, ?_, ?_, ?_, ?_⟩
    · rw [membershipProof, treeOver_leafCount, if_neg (by omega)]
      exact produced
    · rw [count, treeOver_depth]
    · rw [count, treeOver_depth, indexBits_eq_testBit]
    · rw [verifyBatchMembership_iff, Merkle.indexBits_length, count]
      exact ⟨rfl, climbed⟩

end BatchTree

/-! ## The three builders -/

theorem leafHashes_ok_iff (leaves : List (List UInt8)) :
    (∃ level, leafHashes leaves = .ok level) ↔ ∀ data ∈ leaves, data.length < maxLeafBytes := by
  induction leaves with
  | nil => simp [leafHashes]
  | cons data leaves ih =>
      rw [List.forall_mem_cons, ← ih, leafHashes, batchLeafHash, bytesToM31Words]
      by_cases long : maxLeafBytes ≤ data.length
      · rw [if_pos long]
        constructor
        · rintro ⟨level, hashed⟩
          cases hashed
        · rintro ⟨short, -⟩
          omega
      · rw [if_neg long]
        have short : data.length < maxLeafBytes := by omega
        constructor
        · rintro ⟨level, hashed⟩
          cases rest : leafHashes leaves with
          | error message => rw [rest] at hashed; cases hashed
          | ok nodes => exact ⟨short, nodes, rfl⟩
        · rintro ⟨-, nodes, rest⟩
          rw [rest]
          exact ⟨_, rfl⟩

theorem buildTreeOf_serves {Source Node : Type*} [DecidableEq Node] (pair : Node → Node → Node)
    (leaf : Source → Node) {sources : List Source} (nonempty : sources ≠ [])
    (bounded : sources.length ≤ maxLeaves) :
    ∃ tree, buildTreeOf pair leaf sources = .ok tree ∧ tree.Serves pair (sources.map leaf) := by
  have leaves : sources.map leaf ≠ [] := by simpa using nonempty
  refine ⟨treeOver pair (sources.map leaf) leaves, ?_, BatchTree.treeOver_serves _ _ _⟩
  rw [buildTreeOf, dif_neg nonempty, if_neg (by omega)]

/-- A batch of raw leaves has a tree when each of them can be packed. -/
theorem buildBatchTree_ok {leaves : List (List UInt8)} {level : List Bytes32}
    (nonempty : leaves ≠ []) (bounded : leaves.length ≤ maxLeaves)
    (hashed : leafHashes leaves = .ok level) :
    ∃ tree, buildBatchTree leaves = .ok tree ∧ tree.Serves hashPairP2T8 level := by
  rw [buildBatchTree, dif_neg nonempty, if_neg (by omega)]
  split
  · next failed =>
    rw [hashed] at failed
    cases failed
  · next found =>
    rw [hashed] at found
    cases found
    exact ⟨_, rfl, BatchTree.treeOver_serves _ _ _⟩

/-- Every leaf of every batch that is built proves its membership.  This is said of the three
builders, for all lists of at most the largest number of leaves; the tree is as high as the leaves
need and no higher, and the bits of a proof are the digits of the index. -/
theorem every_leaf_proves_membership :
    (∀ triples, triples ≠ [] → triples.length ≤ maxLeaves →
      ∃ tree, buildBatchTreeDual batchP2T8 triples = .ok tree ∧
        tree.Serves hashPairP2T8 (triples.map batchLeafDual)) ∧
    (∀ pairs, pairs ≠ [] → pairs.length ≤ maxLeaves →
      ∃ tree, buildBatchTreeBound pairs = .ok tree ∧
        tree.Serves hashPairP2T8 (pairs.map fun entry => batchLeaf entry.1 entry.2)) ∧
    ∀ leaves, leaves ≠ [] → leaves.length ≤ maxLeaves →
      ((∃ tree, buildBatchTree leaves = .ok tree) ↔
        ∀ data ∈ leaves, data.length < maxLeafBytes) ∧
      ∀ tree, buildBatchTree leaves = .ok tree →
        ∃ level, leafHashes leaves = .ok level ∧ tree.Serves hashPairP2T8 level := by
  refine ⟨?dual, ?bound, ?raw⟩
  case dual =>
    intro triples nonempty bounded
    have built := buildTreeOf_serves batchP2T8.pair batchP2T8.leafDual nonempty bounded
    rw [← buildBatchTreeDual_eq] at built
    exact built
  case bound =>
    intro pairs nonempty bounded
    have built := buildTreeOf_serves hashPairP2T8
      (fun entry : Quad ℕ × Quad ℕ => batchLeaf entry.1 entry.2) nonempty bounded
    exact built
  case raw =>
    intro leaves nonempty bounded
    have built {tree : BatchTree Bytes32} (ok : buildBatchTree leaves = .ok tree) :
        ∃ level, leafHashes leaves = .ok level := by
      rw [buildBatchTree, dif_neg nonempty, if_neg (by omega)] at ok
      split at ok
      · cases ok
      · next level found => exact ⟨level, found⟩
    constructor
    · rw [← leafHashes_ok_iff]
      constructor
      · rintro ⟨tree, ok⟩
        exact built ok
      · rintro ⟨level, hashed⟩
        rcases buildBatchTree_ok nonempty bounded hashed with ⟨tree, ok, -⟩
        exact ⟨tree, ok⟩
    · intro tree ok
      rcases built ok with ⟨level, hashed⟩
      rcases buildBatchTree_ok nonempty bounded hashed with ⟨other, found, serves⟩
      rw [ok] at found
      cases found
      exact ⟨level, hashed, serves⟩

/-- A batch with an odd level. -/
theorem three_leaves_prove_membership :
    ∃ tree, buildBatchTreeDual batchP2T8
        [constantTriple 1, constantTriple 2, constantTriple 3] = .ok tree ∧
      tree.Serves hashPairP2T8
        ([constantTriple 1, constantTriple 2, constantTriple 3].map batchLeafDual) :=
  every_leaf_proves_membership.1 [constantTriple 1, constantTriple 2, constantTriple 3]
    (by decide) (by decide)

end Stwo
end QLSA
