import QLSA.Machine.PackedBytes
import QLSA.Recursive.NonceUpdateRuns
import QLSA.Recursive.TreeStatements
import QLSA.Stwo.BatchMembership
import QLSA.Stwo.CheckedHash
import QLSA.Stwo.HashWords
import QLSA.Stwo.LazyWords
import QLSA.Stwo.SpongeSeparation

namespace QLSA
namespace Recursive
namespace TreeNode

open Hash Mersenne Stwo Vfri2
open Machine (bigEndian bind_eq_ok mapError_ok mapM_ok mapM_ok_iff)

/-!
# Memberships of a batch

The batch tree is built over one triple for each signature: words of the
transaction's hash and the trace roots of both groups.  Its root is the seed
of every proof, and each signature gets one membership for either group.  Such
a membership lands on the root.  Conversely, what lands on the root at the place
of a triple names the words of this triple, as long as the operands hashed along
the two paths do not collide.
-/

/-! ## The batch -/

/-- The columns of both groups of a signature. -/
structure SignatureColumns where
  cols10 : List (List UInt32)
  depth10 : ℕ
  cols8 : List (List UInt32)
  depth8 : ℕ

/-- The columns that the tree of a group is built on. -/
def SignatureColumns.group (sig : SignatureColumns) : Group → List (List UInt32) × ℕ
  | .log10 => (sig.cols10, sig.depth10)
  | .log8 => (sig.cols8, sig.depth8)

/-- Words of a trace root. -/
def groupRoot (i : ℕ) (group : String) (cols : List (List UInt32)) (depth : ℕ) :
    Except String (Quad ℕ) := do
  let root ← (traceRootOf t8Backend cols depth).mapError
    fun e => s!"signature {i} ({group}): {e.message}"
  return p2t8NodeWords root

/-- One pass of the loop over signatures. -/
def signatureTriple : (SignatureColumns × (Fin 32 → UInt8)) × ℕ → Except String Triple
  | ((sig, txHash), i) => do
    let tr10 ← groupRoot i "log10" sig.cols10 sig.depth10
    let tr8 ← groupRoot i "log8" sig.cols8 sig.depth8
    return ⟨wordsFromHash txHash, tr10, tr8⟩

/-- The triples and their tree. -/
def aggregationBatch (sigs : List SignatureColumns) (txHashes : List (Fin 32 → UInt8)) :
    Except String (List Triple × BatchTree Bytes32) :=
  if sigs = [] then .error "need ≥ 1 signature to aggregate"
  else if txHashes.length ≠ sigs.length then
    .error (s!"one transaction hash per signature: {sigs.length} signatures, " ++
      s!"{txHashes.length} hashes")
  else do
    let triples ← (sigs.zip txHashes).zipIdx.mapM signatureTriple
    let tree ← buildBatchTreeDual batchP2T8 triples
    return (triples, tree)

/-- `memberships_for_side` -/
def membershipsForSide (tree : BatchTree Bytes32) (triples : List Triple) (side : Group) :
    Except String (List BatchMembership) :=
  triples.zipIdx.mapM fun (triple, i) => do
    let (sibs, bits) ← tree.membershipProof i
    return {
      txId := triple.txId
      tr10 := triple.tr10
      tr8 := triple.tr8
      side := side
      sibs := sibs.map p2t8NodeWords
      bits := bits
      batchRoot := p2t8NodeWords tree.root }

/-- The thirty-two bytes of a node. -/
def nodeBytes (node : Bytes32) : List UInt8 := (bigEndian 32 node.toNat).map UInt8.ofBitVec

/-- The seed of every proof of the batch. -/
def batchSeed (tree : BatchTree Bytes32) : List UInt8 :=
  nodeBytes (p2t8Pack (p2t8NodeWords tree.root))

theorem nodeOfBytes_nodeBytes (node : Bytes32) : nodeOfBytes (nodeBytes node) = node := by
  have read := Machine.ofBigEndian_of_lt (show node.toNat < 256 ^ 32 from node.isLt)
  rw [Machine.ofBigEndian] at read
  rw [nodeOfBytes, nodeBytes, List.foldl_map]
  exact (congrArg (BitVec.ofNat 256) read).trans (BitVec.ofNat_toNat _ _)

theorem nodeBytes_length (node : Bytes32) : (nodeBytes node).length = 32 := by
  rw [nodeBytes, List.length_map, Machine.bigEndian_length]

/-! ## Words of a triple -/

/-- Words of a hash, and reduced words of both roots. -/
structure Words (triple : Triple) : Prop where
  txId : triple.txId.All (· ≤ P)
  tr10 : triple.tr10.All Canonical
  tr8 : triple.tr8.All Canonical

theorem canonical_fits {quad : Quad ℕ} (canonical : quad.All Canonical) :
    quad.All (· < 2 ^ 32) := by
  have small : P ≤ 2 ^ 32 := by decide
  rcases canonical with ⟨first, second, third, fourth⟩
  exact ⟨first.trans_le small, second.trans_le small, third.trans_le small, fourth.trans_le small⟩

theorem wordsFromHash_le (digest : Fin 32 → UInt8) : (wordsFromHash digest).All (· ≤ P) := by
  have below (i : Fin 4) : (wordsFromHash digest).cell i ≤ P := Nat.le_of_lt_succ (cell_lt digest i)
  exact ⟨below 0, below 1, below 2, below 3⟩

theorem hashLeafColsP2T8_canonical (values : List ℕ) : CanonicalNode (hashLeafColsP2T8 values) := by
  have cells : (spongeT8 values).left.All Canonical := by
    rw [spongeT8_eq]
    rcases stateOf_canonical (absorbAll (poseidon2 constant) 0 (addends 4 8 values)) with
      ⟨s0, s1, s2, s3, -⟩
    exact ⟨s0, s1, s2, s3⟩
  rw [CanonicalNode, hashLeafColsP2T8, p2t8NodeWords_p2t8Pack (canonical_fits cells)]
  exact cells

theorem traceRootOf_canonical {cols : List (List UInt32)} {depth : ℕ} {root : Bytes32}
    (traced : traceRootOf t8Backend cols depth = .ok root) : CanonicalNode root := by
  have own := traced
  unfold traceRootOf at own
  dsimp only at own
  split_ifs at own with empty
  rcases bind_eq_ok.mp own with ⟨_, lengths, -⟩
  rw [traceRootOf_eq (Bool.not_eq_true _ ▸ empty) lengths] at traced
  rw [← Except.ok.inj traced]
  exact Merkle.subtreeRoot_forall hashPairP2T8_canonical
    (fun i => hashLeafColsP2T8_canonical _) _ _

theorem signatureTriple_ok {sig : SignatureColumns} {txHash : Fin 32 → UInt8} {i : ℕ}
    {triple : Triple} (done : signatureTriple ((sig, txHash), i) = .ok triple) :
    ∃ root10 root8, traceRootOf t8Backend sig.cols10 sig.depth10 = .ok root10 ∧
      traceRootOf t8Backend sig.cols8 sig.depth8 = .ok root8 ∧
      triple = ⟨wordsFromHash txHash, p2t8NodeWords root10, p2t8NodeWords root8⟩ := by
  rcases bind_eq_ok.mp done with ⟨tr10, first, next⟩
  rcases bind_eq_ok.mp next with ⟨tr8, second, finished⟩
  rcases bind_eq_ok.mp first with ⟨root10, traced10, words10⟩
  rcases bind_eq_ok.mp second with ⟨root8, traced8, words8⟩
  cases words10
  cases words8
  cases finished
  exact ⟨root10, root8, mapError_ok.mp traced10, mapError_ok.mp traced8, rfl⟩

theorem signatureTriple_words {sig : SignatureColumns} {txHash : Fin 32 → UInt8} {i : ℕ}
    {triple : Triple} (done : signatureTriple ((sig, txHash), i) = .ok triple) : Words triple := by
  rcases signatureTriple_ok done with ⟨root10, root8, first, second, rfl⟩
  exact ⟨wordsFromHash_le txHash, traceRootOf_canonical first, traceRootOf_canonical second⟩

theorem leafDomain_canonical : leafDomain.All Canonical := by decide

/-- The words of a leaf. -/
theorem p2t8NodeWords_batchLeafDual {triple : Triple} (words : Words triple) :
    p2t8NodeWords (batchLeafDual triple) = compressT8 leafDomain (compressT8 (norm4 triple.txId)
      (compressT8 (norm4 triple.tr10) (norm4 triple.tr8))) ∧ CanonicalNode (batchLeafDual triple) := by
  have inner2 := compressT8_canonical words.tr10 words.tr8
  have reduced : (norm4 triple.txId).All Canonical := by
    rw [← words_residues]
    exact words_canonical _
  have inner := compressT8_canonical reduced inner2
  have leaf := compressT8_canonical leafDomain_canonical inner
  have read : p2t8NodeWords (batchLeafDual triple) = compressT8 leafDomain
      (compressT8 (norm4 triple.txId) (compressT8 triple.tr10 triple.tr8)) := by
    rw [batchLeafDual, ← compressT8_norm4 words.txId inner2, p2t8NodeWords_p2t8Pack (canonical_fits leaf)]
  rw [norm4_eq_self words.tr10, norm4_eq_self words.tr8, CanonicalNode, read]
  exact ⟨rfl, leaf⟩

/-! ## Paths of memberships -/

namespace BatchMembership

variable (m : BatchMembership)

/-- The leaf that the first three steps of a path arrive at. -/
def leafWords : Quad ℕ :=
  compressT8 leafDomain (compressT8 (norm4 m.txId) (compressT8 (norm4 m.tr10) (norm4 m.tr8)))

/-- Either group starts at its own root and arrives at the one leaf. -/
theorem path_climbs : merklePathRootT8 m.start m.path.1 m.path.2 =
    Merkle.pathRoot compressT8 m.leafWords (m.sibs.map norm4) m.bits := by
  have domain : norm4 leafDomain = leafDomain := norm4_eq_self leafDomain_canonical
  rcases m with ⟨txId, tr10, tr8, side, sibs, bits, batchRoot⟩
  cases side <;>
    simp [merklePathRootT8, path, start, leafWords, domain]

end BatchMembership

/-! ## Memberships that are built -/

section Built

variable {triples : List Triple} {tree : BatchTree Bytes32}

theorem buildBatchTreeDual_eq_treeOver (built : buildBatchTreeDual batchP2T8 triples = .ok tree) :
    triples.length ≤ maxLeaves ∧ ∃ nonempty : triples.map batchLeafDual ≠ [],
      tree = treeOver hashPairP2T8 (triples.map batchLeafDual) nonempty := by
  unfold buildBatchTreeDual at built
  split_ifs at built with empty large
  refine ⟨not_lt.mp large, by simpa using empty, (Except.ok.inj built).symm⟩

/-- The path of a triple: canonical siblings that lead from its leaf to the root. -/
theorem membershipProof_spec (built : buildBatchTreeDual batchP2T8 triples = .ok tree)
    (words : ∀ triple ∈ triples, Words triple) {i : ℕ} {triple : Triple}
    (found : triples[i]? = some triple) :
    ∃ sibs, tree.membershipProof i =
        .ok (sibs, Merkle.indexBits (Nat.clog 2 triples.length) i) ∧
      sibs.length = Nat.clog 2 triples.length ∧ (∀ sib ∈ sibs, CanonicalNode sib) ∧
      Merkle.pathRoot hashPairP2T8 (batchLeafDual triple) sibs
        (Merkle.indexBits (Nat.clog 2 triples.length) i) = tree.root := by
  rcases buildBatchTreeDual_eq_treeOver built with ⟨-, nonempty, rfl⟩
  have leafAt : (triples.map batchLeafDual)[i]? = some (batchLeafDual triple) := by
    rw [List.getElem?_map, found]
    rfl
  have inside : i < (triples.map batchLeafDual).length := (List.getElem?_eq_some_iff.mp leafAt).1
  have leaves : ∀ leaf ∈ triples.map batchLeafDual, CanonicalNode leaf := by
    intro leaf member
    rcases List.mem_map.mp member with ⟨other, listed, rfl⟩
    exact (p2t8NodeWords_batchLeafDual (words other listed)).2
  rcases Merkle.siblingsThrough_spec hashPairP2T8 _ nonempty leafAt (treeOver_root _ _ nonempty)
    with ⟨sibs, read, count, climbed⟩
  have kept := Merkle.siblingsThrough_forall (fun stored listed =>
    Merkle.levelsFrom_forall hashPairP2T8 hashPairP2T8_canonical nonempty leaves stored
      (List.dropLast_subset _ listed)) read
  rw [List.length_map] at count climbed
  refine ⟨sibs, ?_, count, kept, climbed⟩
  rw [BatchTree.membershipProof, BatchTree.treeOver_leafCount, if_neg (by omega), ← count]
  exact BatchTree.proofThrough_eq read

/-- What the membership of a triple is made of. -/
structure BatchMembership.Of (m : BatchMembership) (side : Group) (triple : Triple)
    (tree : BatchTree Bytes32) : Prop where
  txId : m.txId = triple.txId
  tr10 : m.tr10 = triple.tr10
  tr8 : m.tr8 = triple.tr8
  side : m.side = side
  batchRoot : m.batchRoot = p2t8NodeWords tree.root

/-- Every triple gets a membership for either group, and it lands. -/
theorem membershipsForSide_lands (built : buildBatchTreeDual batchP2T8 triples = .ok tree)
    (words : ∀ triple ∈ triples, Words triple) (side : Group) :
    ∃ ms, membershipsForSide tree triples side = .ok ms ∧ ms.length = triples.length ∧
      ∀ i triple, triples[i]? = some triple → ∃ m, ms[i]? = some m ∧ m.Of side triple tree ∧
        m.bits = Merkle.indexBits (Nat.clog 2 triples.length) i ∧
        m.Lands (nodeOfBytes (batchSeed tree)) := by
  have each (entry : Triple × ℕ) (member : entry ∈ triples.zipIdx) :
      ∃ m : BatchMembership, (do
        let (sibs, bits) ← tree.membershipProof entry.2
        return (⟨entry.1.txId, entry.1.tr10, entry.1.tr8, side, sibs.map p2t8NodeWords, bits,
          p2t8NodeWords tree.root⟩ : BatchMembership) : Except String BatchMembership) = .ok m := by
    have found : triples[entry.2]? = some entry.1 := List.mem_zipIdx_iff_getElem?.mp member
    rcases membershipProof_spec built words found with ⟨sibs, read, -⟩
    rw [read]
    exact ⟨_, rfl⟩
  have done : ∃ ms, membershipsForSide tree triples side = .ok ms := mapM_succeeds each
  rcases done with ⟨ms, done⟩
  rcases mapM_ok done with ⟨lengths, entries⟩
  refine ⟨ms, done, lengths.trans List.length_zipIdx, ?_⟩
  intro i triple found
  rcases entries i (triple, i) (by rw [List.getElem?_zipIdx, found]; simp) with ⟨m, place, made⟩
  rcases membershipProof_spec built words found with ⟨sibs, read, count, kept, climbed⟩
  rcases p2t8NodeWords_batchLeafDual (words triple (List.mem_of_getElem? found)) with
    ⟨leaf, canonical⟩
  dsimp only at made
  rw [read] at made
  cases made
  refine ⟨_, place, ⟨rfl, rfl, rfl, rfl, rfl⟩, rfl, ?_⟩
  constructor
  case lengths => rw [List.length_map, count, Merkle.indexBits_length]
  case depth =>
    have few := (buildBatchTreeDual_eq_treeOver built).1
    have short : Nat.clog 2 triples.length ≤ 20 := Nat.clog_le_of_le_pow few
    rw [BatchMembership.depth, List.length_map, count, MerklePathT8.maxDepth]
    omega
  case root =>
    have own := p2t8NodeWords_pathRoot (Merkle.indexBits (Nat.clog 2 triples.length) i) canonical kept
    have reduced := canonical
    rw [CanonicalNode, leaf] at reduced
    rw [climbed, leaf, merklePathRootT8, norm4_eq_self reduced] at own
    rw [BatchMembership.path_climbs]
    exact own.symm
  case seed =>
    rw [batchSeed, nodeOfBytes_nodeBytes]

end Built

/-! ## Leaves of the two trees -/

section Leaves

variable {sigs : List SignatureColumns} {txHashes : List (Fin 32 → UInt8)} {triples : List Triple}
  {tree : BatchTree Bytes32}

/-- What a batch is made of. -/
structure BatchOver (sigs : List SignatureColumns) (txHashes : List (Fin 32 → UInt8))
    (triples : List Triple) (tree : BatchTree Bytes32) : Prop where
  built : buildBatchTreeDual batchP2T8 triples = .ok tree
  hashes : txHashes.length = sigs.length
  length : triples.length = sigs.length
  triple : ∀ (i : ℕ) (sig : SignatureColumns), sigs[i]? = some sig → ∃ txHash root10 root8,
    txHashes[i]? = some txHash ∧ traceRootOf t8Backend sig.cols10 sig.depth10 = .ok root10 ∧
      traceRootOf t8Backend sig.cols8 sig.depth8 = .ok root8 ∧
      triples[i]? = some ⟨wordsFromHash txHash, p2t8NodeWords root10, p2t8NodeWords root8⟩
  words : ∀ triple ∈ triples, Words triple

theorem aggregationBatch_over (batch : aggregationBatch sigs txHashes = .ok (triples, tree)) :
    BatchOver sigs txHashes triples tree := by
  unfold aggregationBatch at batch
  split_ifs at batch with empty counts
  rcases bind_eq_ok.mp batch with ⟨listed, looped, next⟩
  rcases bind_eq_ok.mp next with ⟨own, built, finished⟩
  cases finished
  have hashes := not_not.mp counts
  rcases mapM_ok looped with ⟨lengths, entries⟩
  rw [List.length_zipIdx, List.length_zip, hashes, Nat.min_self] at lengths
  constructor
  case built => exact built
  case hashes => exact hashes
  case length => exact lengths
  case triple =>
    intro i sig found
    have inside : i < txHashes.length := hashes ▸ (List.getElem?_eq_some_iff.mp found).1
    have hashAt : txHashes[i]? = some txHashes[i] := List.getElem?_eq_getElem inside
    have place : (sigs.zip txHashes).zipIdx[i]? = some ((sig, txHashes[i]), i) := by
      have pair := @List.getElem?_zip_eq_some _ _ sigs txHashes (sig, txHashes[i]) i
      rw [List.getElem?_zipIdx, pair.mpr ⟨found, hashAt⟩]
      simp
    rcases entries i _ place with ⟨triple, tripleAt, made⟩
    rcases signatureTriple_ok made with ⟨root10, root8, first, second, rfl⟩
    exact ⟨txHashes[i], root10, root8, hashAt, first, second, tripleAt⟩
  case words =>
    intro triple member
    rcases List.mem_iff_getElem?.mp member with ⟨i, found⟩
    have inside : i < (sigs.zip txHashes).zipIdx.length := by
      rw [List.length_zipIdx, List.length_zip, hashes, Nat.min_self, ← lengths]
      exact (List.getElem?_eq_some_iff.mp found).1
    rcases entries i _ (List.getElem?_eq_getElem inside) with ⟨other, otherAt, made⟩
    rw [found] at otherAt
    rw [Option.some.inj otherAt]
    exact signatureTriple_words made

/-- The membership of the `i`th of `count` signatures, for either group. -/
structure Fitting (sig : SignatureColumns) (group : Group) (tree : BatchTree Bytes32) (count i : ℕ)
    (m : BatchMembership) : Prop where
  side : m.side = group
  bits : m.bits = Merkle.indexBits (Nat.clog 2 count) i
  batchRoot : m.batchRoot = p2t8NodeWords tree.root
  lands : m.Lands (nodeOfBytes (batchSeed tree))
  start : ∃ root, traceRootOf t8Backend (sig.group group).1 (sig.group group).2 = .ok root ∧
    m.start = p2t8NodeWords root

/-- It starts where the chain of its columns does. -/
theorem Fitting.starts {sig : SignatureColumns} {group : Group} {count i : ℕ} {m : BatchMembership}
    (fitting : Fitting sig group tree count i m) {seed : List UInt8} {nQueries : ℕ}
    {numFolds : Option ℕ} {ch : Vfri11Chain} (done : vfri11FriChain (sig.group group).1
      (sig.group group).2 seed nQueries numFolds = .ok ch) :
    ∀ own ∈ some m, own.start = p2t8NodeWords ch.traceRoot := by
  intro own same
  rcases fitting.start with ⟨root, traced, start⟩
  have roots := Except.ok.inj (traced.symm.trans (vfri11FriChain_traceRoot done))
  rw [← Option.some.inj same, start, roots]

theorem BatchOver.memberships (formed : BatchOver sigs txHashes triples tree) (side : Group) :
    ∃ ms, membershipsForSide tree triples side = .ok ms ∧ ms.length = sigs.length ∧
      ∀ (i : ℕ) (sig : SignatureColumns), sigs[i]? = some sig →
        ∃ m : BatchMembership, ms[i]? = some m ∧ Fitting sig side tree sigs.length i m := by
  rcases membershipsForSide_lands formed.built formed.words side with ⟨ms, made, count, each⟩
  refine ⟨ms, made, count.trans formed.length, ?_⟩
  intro i sig found
  rcases formed.triple i sig found with ⟨txHash, root10, root8, -, first, second, place⟩
  rcases each i _ place with ⟨m, own, parts, bits, lands⟩
  refine ⟨m, own, parts.side, formed.length ▸ bits, parts.batchRoot, lands, ?_⟩
  rw [BatchMembership.start, parts.side]
  cases side with
  | log10 => exact ⟨root10, first, parts.tr10⟩
  | log8 => exact ⟨root8, second, parts.tr8⟩

/-- Every signature of a batch has a membership for either group.  It lands on
the batch root, which is the seed of the proofs, and the leaf statement over the
columns of the group is made exactly when their chain is returned. -/
theorem batch_memberships_land (batch : aggregationBatch sigs txHashes = .ok (triples, tree))
    (side : Group) : ∃ ms, membershipsForSide tree triples side = .ok ms ∧
      ms.length = sigs.length ∧
      ∀ (i : ℕ) (sig : SignatureColumns), sigs[i]? = some sig → ∃ m : BatchMembership,
        ms[i]? = some m ∧ m.Lands (nodeOfBytes (batchSeed tree)) ∧ ∀ nQueries numFolds,
          (∃ st, treeStatementFromColumns (sig.group side).1 (sig.group side).2 (batchSeed tree)
            nQueries numFolds (some m) = .ok st) ↔
          ∃ ch, vfri11FriChain (sig.group side).1 (sig.group side).2 (batchSeed tree) nQueries
            numFolds = .ok ch := by
  rcases (aggregationBatch_over batch).memberships side with ⟨ms, made, count, each⟩
  refine ⟨ms, made, count, ?_⟩
  intro i sig found
  rcases each i sig found with ⟨m, place, fitting⟩
  refine ⟨m, place, fitting.lands, ?_⟩
  intro nQueries numFolds
  constructor
  · rintro ⟨st, stated⟩
    rcases treeStatement_ok stated with ⟨ch, done, -⟩
    exact ⟨ch, done⟩
  · rintro ⟨ch, done⟩
    rcases treeStatement_made done (fitting.starts done) with ⟨st, stated, -⟩
    exact ⟨st, stated⟩

/-- A batch is made of as many hashes as signatures, of at most 2^20, whose columns all
have a trace root. -/
theorem aggregationBatch_succeeds (some : sigs ≠ []) (count : sigs.length ≤ maxLeaves)
    (hashes : txHashes.length = sigs.length)
    (traced : ∀ sig ∈ sigs, ∀ side : Group, ∃ root,
      traceRootOf t8Backend (sig.group side).1 (sig.group side).2 = .ok root) :
    ∃ triples tree, aggregationBatch sigs txHashes = .ok (triples, tree) := by
  have grouped {sig : SignatureColumns} (listed : sig ∈ sigs) (side : Group) (i : ℕ)
      (group : String) : ∃ words, groupRoot i group (sig.group side).1 (sig.group side).2 =
        .ok words := by
    rcases traced sig listed side with ⟨root, own⟩
    exact ⟨_, bind_eq_ok.mpr ⟨root, mapError_ok.mpr own, rfl⟩⟩
  have each : ∃ triples, (sigs.zip txHashes).zipIdx.mapM signatureTriple = .ok triples := by
    apply mapM_succeeds
    rintro ⟨⟨sig, txHash⟩, i⟩ member
    have listed : sig ∈ sigs := (List.of_mem_zip (List.fst_mem_of_mem_zipIdx member)).1
    rcases grouped listed .log10 i "log10" with ⟨tr10, first⟩
    rcases grouped listed .log8 i "log8" with ⟨tr8, second⟩
    exact ⟨_, bind_eq_ok.mpr ⟨tr10, first, bind_eq_ok.mpr ⟨tr8, second, rfl⟩⟩⟩
  rcases each with ⟨triples, looped⟩
  have lengths : triples.length = sigs.length := by
    rw [(mapM_ok looped).1, List.length_zipIdx, List.length_zip, hashes, Nat.min_self]
  have filled : triples ≠ [] := by
    rw [← List.length_pos_iff, lengths]
    exact List.length_pos_iff.mpr some
  rcases buildBatchTreeDual_ok batchP2T8 triples filled (lengths ▸ count) with ⟨tree, built, -⟩
  refine ⟨triples, tree, ?_⟩
  rw [aggregationBatch, if_neg some, if_neg (not_not.mpr hashes), looped, ok_bind, built]
  rfl

/-- A batch of three signatures. -/
def sampleSignatures : List SignatureColumns :=
  [⟨[[5, 6, 7, 8], [1, 1, 2, 3]], 2, [[9, 10, 11, 12]], 2⟩, ⟨sampleCols, 2, sampleCols, 2⟩,
    ⟨[[8, 7, 6, 5]], 2, [[4, 3, 2, 1], [2, 4, 6, 8]], 2⟩]

def sampleHashes : List (Fin 32 → UInt8) :=
  [fun _ => 0, fun k => UInt8.ofNat k.val, fun _ => 255]

theorem sampleBatch_made :
    ∃ triples tree, aggregationBatch sampleSignatures sampleHashes = .ok (triples, tree) := by
  refine aggregationBatch_succeeds (List.cons_ne_nil _ _) (by decide) rfl ?_
  intro sig member side
  simp only [sampleSignatures, List.mem_cons, List.not_mem_nil, or_false] at member
  rcases member with rfl | rfl | rfl <;> cases side <;> exact ⟨_, traceRootOf_eq rfl rfl⟩

theorem sample_memberships_land : ∃ triples tree ms m st,
    aggregationBatch sampleSignatures sampleHashes = .ok (triples, tree) ∧
      membershipsForSide tree triples .log8 = .ok ms ∧ ms.length = 3 ∧ ms[1]? = some m ∧
      m.Lands (nodeOfBytes (batchSeed tree)) ∧
      treeStatementFromColumns sampleCols 2 (batchSeed tree) 1 none (some m) = .ok st := by
  rcases sampleBatch_made with ⟨triples, tree, batch⟩
  rcases batch_memberships_land batch .log8 with ⟨ms, made, count, each⟩
  rcases each 1 _ rfl with ⟨m, place, lands, leaf⟩
  have chain := sampleChain_seeded (nodeBytes_length _ : (batchSeed tree).length = 32)
  rcases (leaf 1 none).mpr chain with ⟨st, stated⟩
  exact ⟨triples, tree, ms, m, st, batch, made, count, place, lands, stated⟩

end Leaves

/-! ## Memberships of accepted nodes -/

section Named

variable {sigs : List SignatureColumns} {txHashes : List (Fin 32 → UInt8)} {triples : List Triple}
  {tree : BatchTree Bytes32} {system : Bool → ProofSystem Preproc}
  {nonce : Option (NonceStatement (Quad ℕ))} {proofBytes : List UInt8} {logSize : ℕ}
  {statements : List TreeStatement}

/-- The operands hashed along a path, in words. -/
def pathOperands (start : Quad ℕ) (sibs : List (Quad ℕ)) (bits : List Bool) :
    List (Quad ℕ × Quad ℕ) :=
  Merkle.operands compressT8 (norm4 start) (sibs.map norm4) bits

theorem verifyNode_attests (sound : (system nonce.isSome).Sound (Satisfiable nonce.isSome))
    (accepted : verifyNode system proofBytes logSize statements nonce = .ok true) :
    ∃ numFolds, Attests numFolds statements := by
  have either : (treeNodeExpectedRoots statements >>= fun roots =>
      verifyTreeNodePinned system proofBytes logSize statements roots nonce) = .ok true := by
    cases nonce with
    | none => exact accepted
    | some st => exact accepted
  rcases expected_accepted_attests sound either with ⟨numFolds, attests, -⟩
  exact ⟨numFolds, attests⟩

/-- Words of one node are the same words. -/
theorem words_of_packed {first second : Quad ℕ} (small : first.All (· < 2 ^ 32))
    (fits : second.All (· < 2 ^ 32)) (same : p2t8Pack first = p2t8Pack second) :
    first = second := by
  rw [← p2t8NodeWords_p2t8Pack small, same, p2t8NodeWords_p2t8Pack fits]

/-- Two memberships at one place, under one root, start at one word modulo `P`
and have the same siblings, as long as their operands do not collide. -/
theorem named_of_same_root {m own : BatchMembership} {sibs : List (Quad ℕ)}
    (side : own.side = m.side) (bits : own.bits = m.bits) (lengths : own.sibs.length = own.bits.length)
    (count : sibs.length = m.path.2.length)
    (same : merklePathRootT8 m.start sibs m.path.2 =
      merklePathRootT8 own.start own.path.1 own.path.2)
    (free : CollisionFree compressT8 (pathOperands m.start sibs m.path.2)
      (pathOperands own.start own.path.1 own.path.2)) :
    norm4 m.start = norm4 own.start ∧ sibs.map norm4 = own.path.1.map norm4 := by
  have digits : own.path.2 = m.path.2 := by
    rw [BatchMembership.path, BatchMembership.path, side, bits]
    cases m.side <;> rfl
  have paths : own.path.1.length = m.path.2.length := by
    rw [← digits, BatchMembership.path]
    simp only [List.length_cons, lengths]
  rw [digits] at same free
  exact Merkle.path_eq_of_pathRoot_eq compressT8 free (by rw [List.length_map, count])
    (by rw [List.length_map, paths]) (fun children member => .inl member)
    (fun children member => .inr member) same

/-- An accepted node with a membership at the place of a signature, under the seed of
its batch, opens a path from the start of this membership to the root of the batch.
Unless two of the operands hashed along it and along the path of the batch collide, it
starts at the trace root of the signature's own columns.  The words of the root that the
membership names have to be words of 32 bits: packing keeps no more of them, so larger
words pass the check against the seed while another root is pinned. -/
theorem accepted_membership_named
    (sound : (system nonce.isSome).Sound (Satisfiable nonce.isSome))
    (accepted : verifyNode system proofBytes logSize statements nonce = .ok true)
    (batch : aggregationBatch sigs txHashes = .ok (triples, tree)) {st : TreeStatement}
    (listed : st ∈ statements) {m : BatchMembership} (carried : st.membership = some m)
    (small : m.batchRoot.All (· < 2 ^ 32)) {inp : Vfri11ChannelInputs}
    (published : st.inputs = some inp) (seeded : inp.batchRoot = nodeOfBytes (batchSeed tree))
    {i : ℕ} {sig : SignatureColumns} (found : sigs[i]? = some sig)
    (place : m.bits = Merkle.indexBits (Nat.clog 2 sigs.length) i) :
    ∃ ms own root sibs, membershipsForSide tree triples m.side = .ok ms ∧ ms[i]? = some own ∧
      traceRootOf t8Backend (sig.group m.side).1 (sig.group m.side).2 = .ok root ∧
      m.batchRoot = p2t8NodeWords tree.root ∧
      merklePathRootT8 m.start sibs m.path.2 = p2t8NodeWords tree.root ∧
      (CollisionFree compressT8 (pathOperands m.start sibs m.path.2)
          (pathOperands own.start own.path.1 own.path.2) →
        norm4 m.start = p2t8NodeWords root ∧ sibs.map norm4 = own.path.1.map norm4) := by
  rcases verifyNode_attests sound accepted with ⟨numFolds, attests⟩
  rcases attests.each st listed with ⟨other, first, roots, replays, opens⟩
  have same : inp = other := Option.some.inj (published.symm.trans replays.commits.inputs)
  rcases opens.member m carried with ⟨sibs, count, -, climbed⟩
  rcases (aggregationBatch_over batch).memberships m.side with ⟨ms, made, -, each⟩
  rcases each i sig found with ⟨own, ownAt, fitting⟩
  rcases fitting.start with ⟨root, traced, start⟩
  have canonical : norm4 own.start = p2t8NodeWords root := by
    rw [start]
    exact norm4_eq_self (traceRootOf_canonical traced)
  have claimed : m.batchRoot = own.batchRoot := by
    apply words_of_packed small
    · rw [fitting.batchRoot]
      exact p2t8NodeWords_small _
    · rw [replays.commits.seed m carried, ← same, seeded, fitting.lands.seed]
  have reached : merklePathRootT8 m.start sibs m.path.2 =
      merklePathRootT8 own.start own.path.1 own.path.2 := by
    refine climbed.trans ?_
    rw [memberClaim, claimed, ← fitting.lands.root, norm4_pathRoot]
  refine ⟨ms, own, root, sibs, made, ownAt, traced, claimed.trans fitting.batchRoot,
    reached.trans (fitting.lands.root.trans fitting.batchRoot), ?_⟩
  intro free
  rw [← canonical]
  exact named_of_same_root fitting.side (fitting.bits.trans place.symm) fitting.lands.lengths count
    reached free

/-- The statement of the second of three signatures, with its membership. -/
structure SampleLeaf (triples : List Triple) (tree : BatchTree Bytes32) (m : BatchMembership)
    (st : TreeStatement) : Prop where
  batch : aggregationBatch sampleSignatures sampleHashes = .ok (triples, tree)
  fitting : Fitting ⟨sampleCols, 2, sampleCols, 2⟩ .log8 tree 3 1 m
  made : treeStatementFromColumns sampleCols 2 (batchSeed tree) 1 none (some m) = .ok st
  layout : st.layout = vfri11ChallengeLayout 1
  compDepth : st.compDepth = 2
  membership : st.membership = some m
  inputs : ∃ inp, st.inputs = some inp ∧ inp.batchRoot = nodeOfBytes (batchSeed tree)

theorem sampleLeaf_made : ∃ triples tree m st, SampleLeaf triples tree m st := by
  rcases sampleBatch_made with ⟨triples, tree, batch⟩
  rcases (aggregationBatch_over batch).memberships .log8 with ⟨ms, -, -, each⟩
  rcases each 1 _ rfl with ⟨m, -, fitting⟩
  rcases sampleChain_seeded (nodeBytes_length _ : (batchSeed tree).length = 32) with ⟨ch, done⟩
  rcases treeStatement_made done (fitting.starts done) with ⟨st, made, membership, stands⟩
  rcases vfri11FriChain_replayed done with ⟨-, -, -, -, counted, -⟩
  have folds : ch.numFolds = 1 := (Except.ok.inj counted).symm
  exact ⟨triples, tree, m, st, batch, fitting, made, folds ▸ stands.layout, stands.depths.2,
    membership, _, stands.inputs, rfl⟩

theorem SampleLeaf.accepted {triples : List Triple} {tree : BatchTree Bytes32}
    {m : BatchMembership} {st : TreeStatement} (sample : SampleLeaf triples tree m st) :
    ∃ proofBytes logSize, verifyNode (fun circuits => .oracle (Satisfiable circuits)) proofBytes
      logSize [st] none = .ok true := by
  have made : ∀ other ∈ [st], other.FromColumns := by
    intro other member
    rw [List.mem_singleton.mp member]
    exact ⟨_, _, _, _, _, _, sample.made⟩
  have joinable : Joinable 1 [st] none := by
    apply joinable_of_few made (List.cons_ne_nil _ _) (by decide : 1 ≤ 8)
    · intro other member
      rw [List.mem_singleton.mp member]
      exact sample.layout
    · intro other member
      rw [List.mem_singleton.mp member, sample.compDepth]
      decide
    · intro other member own carried inp published
      rw [List.mem_singleton.mp member] at carried published
      rw [sample.membership] at carried
      rcases sample.inputs with ⟨listed, inputs, seed⟩
      rw [inputs] at published
      cases carried
      cases published
      rw [seed]
      exact sample.fitting.lands
  rcases joinable.prepared made with ⟨node, prepared⟩
  have proved := prepared_proved made prepared nofun
  rcases proved.accepted (fun circuits => .oracle (Satisfiable circuits))
    (ProofSystem.oracle_complete _) with ⟨proofBytes, accepted⟩
  exact ⟨proofBytes, _, accepted⟩

theorem sample_membership_named : ∃ triples tree m st ms own root sibs,
    SampleLeaf triples tree m st ∧ membershipsForSide tree triples .log8 = .ok ms ∧
      ms[1]? = some own ∧ traceRootOf t8Backend sampleCols 2 = .ok root ∧
      m.batchRoot = p2t8NodeWords tree.root ∧
      merklePathRootT8 m.start sibs m.path.2 = p2t8NodeWords tree.root := by
  rcases sampleLeaf_made with ⟨triples, tree, m, st, sample⟩
  rcases sample.accepted with ⟨proofBytes, logSize, accepted⟩
  rcases sample.inputs with ⟨inp, published, seeded⟩
  have small : m.batchRoot.All (· < 2 ^ 32) := by
    rw [sample.fitting.batchRoot]
    exact p2t8NodeWords_small _
  rcases @accepted_membership_named _ _ _ _ _ none _ _ _ (ProofSystem.oracle_sound _) accepted
    sample.batch st (List.mem_singleton_self st) m sample.membership small inp published seeded 1
    ⟨sampleCols, 2, sampleCols, 2⟩ rfl sample.fitting.bits with
    ⟨ms, own, root, sibs, made, place, traced, named, climbed, -⟩
  rw [sample.fitting.side] at made traced
  exact ⟨triples, tree, m, st, ms, own, root, sibs, sample, made, place, traced, named, climbed⟩

end Named

end TreeNode
end Recursive
end QLSA
