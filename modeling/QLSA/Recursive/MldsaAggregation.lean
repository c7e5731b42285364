import QLSA.Recursive.AcceptedChains
import QLSA.Recursive.AggregationProofs

namespace QLSA
namespace Recursive
namespace TreeNode

open Hash Mersenne Stwo Vfri2
open Machine (FailsWith bind_eq_ok mapError_ok)

/-!
# Aggregation of signatures

The signatures of a batch are leaves of two trees, one for either group of
columns.  The trace roots of all columns are the batch tree, and its root seeds
both trees.  Only the columns of the signatures are taken as they are; the tree
of the batch, the memberships, the nodes and their proofs are all made here.
-/

/-! ## The summary -/

section Tree

variable {Node : Type} (tree : AggregationTree Node)

/-- Nodes proved across the whole tree. -/
def nodeCount : ℕ := (tree.levels.map fun level => level.nodes.length).sum

/-- `none` where the source panics. -/
def rootColumns : Option TraceColumns := tree.levels.getLast?.bind fun level => level.columns[0]?

end Tree

structure AggregationTreeSummary where
  rootProof : List UInt8
  rootLogSize : ℕ
  rootRoots : List (Quad ℕ)
  rootProof8 : List UInt8
  rootLogSize8 : ℕ
  rootRoots8 : List (Quad ℕ)
  batchRoot : Quad ℕ
  rootColumns10 : TraceColumns
  rootColumns8 : TraceColumns
  leafCount : ℕ
  depth : ℕ
  nodeCount : ℕ
  fanIn : ℕ

def SignatureColumns.traceColumns (sig : SignatureColumns) (side : Group) : TraceColumns :=
  (columnWords (sig.group side).1, (sig.group side).2)

def treeSummary (batchTree : BatchTree Bytes32) (leafCount : ℕ)
    (tree tree8 : AggregationTree TreeNodeResult) : Option AggregationTreeSummary := do
  let root ← tree.root
  let root8 ← tree8.root
  let columns10 ← rootColumns tree
  let columns8 ← rootColumns tree8
  return {
    rootProof := root.proof
    rootLogSize := root.logSize
    rootRoots := root.roots
    rootProof8 := root8.proof
    rootLogSize8 := root8.logSize
    rootRoots8 := root8.roots
    batchRoot := p2t8NodeWords batchTree.root
    rootColumns10 := columns10
    rootColumns8 := columns8
    leafCount := leafCount
    depth := tree.depth
    nodeCount := nodeCount tree + nodeCount tree8
    fanIn := tree.fanIn }

section Aggregation

variable (system : Bool → ProofSystem Preproc)
  (proving : ∀ circuits, (system circuits).Proving NodeMain) (nQueries : ℕ) (numFolds : Option ℕ)
  (fanIn turns : ℕ)

/-- The memberships of a group and its tree. -/
def groupTree (sigs : List SignatureColumns) (triples : List Triple) (batchTree : BatchTree Bytes32)
    (side : Group) (nonce : Option NonceWitness) :
    Option (Except String (AggregationTree TreeNodeResult)) :=
  match membershipsForSide batchTree triples side with
  | .error e => some (.error e)
  | .ok memberships =>
      proveAggregationTreeWithNonce (nodeProver system proving) (batchSeed batchTree) nQueries
        numFolds fanIn nonce turns (sigs.map fun sig => sig.traceColumns side) memberships

/-- `prove_mldsa_aggregation_tree_with_nonce` over built columns, `none` as long as a loop has not
ended.  How the columns come out of a signature is left to the caller; the batch, the memberships
of both groups, the two trees and the summary are as in the source, and only the first tree is
given the transition. -/
def proveMldsaAggregationTreeWithNonce (sigs : List SignatureColumns)
    (txHashes : List (Fin 32 → UInt8)) (nonce : Option NonceWitness) :
    Option (Except String AggregationTreeSummary) :=
  match aggregationBatch sigs txHashes with
  | .error e => some (.error e)
  | .ok (triples, batchTree) =>
      match groupTree system proving nQueries numFolds fanIn turns sigs triples batchTree .log10
        nonce with
      | none => none
      | some (.error e) => some (.error e)
      | some (.ok tree) =>
          match groupTree system proving nQueries numFolds fanIn turns sigs triples batchTree .log8
            none with
          | none => none
          | some (.error e) => some (.error e)
          | some (.ok tree8) => (treeSummary batchTree sigs.length tree tree8).map .ok

end Aggregation

/-! ## Nodes of a tree -/

section Count

theorem ceilDiv_ceilDiv {a b : ℕ} (n : ℕ) (first : 0 < a) (second : 0 < b) :
    n ⌈/⌉ a ⌈/⌉ b = n ⌈/⌉ (a * b) := by
  apply eq_of_forall_ge_iff
  intro c
  rw [ceilDiv_le_iff_le_mul second, ceilDiv_le_iff_le_mul first,
    ceilDiv_le_iff_le_mul (Nat.mul_pos first second), mul_assoc]

variable {Statement Membership Nonce Node : Type} {prover : NodeProver Statement Membership Nonce Node}
  {batchMerkleRoot : List UInt8} {nQueries : ℕ} {numFolds : Option ℕ} {fanIn : ℕ}
  {nonce : Option Nonce}

/-- A node for every group of every level. -/
theorem covers_nodeCount {statements : List Statement} {levels : List (TreeLevel Node)}
    (positive : 0 < fanIn)
    (covers : Covers prover batchMerkleRoot nQueries numFolds fanIn nonce statements levels) :
    (levels.map fun level => level.nodes.length).sum =
      ∑ k ∈ Finset.range levels.length, statements.length ⌈/⌉ fanIn ^ (k + 1) := by
  induction covers with
  | root made => simp [made.length.1]
  | @inner statements level groups next rest made several above covers ih =>
      have higher : next.length = statements.length ⌈/⌉ fanIn :=
        above.length_eq.symm.trans made.length.2
      rw [List.map_cons, List.sum_cons, List.length_cons, Finset.sum_range_succ', ih, made.length.1,
        add_comm, zero_add, pow_one]
      congr 1
      apply Finset.sum_congr rfl
      intro k _
      rw [higher, ceilDiv_ceilDiv _ positive (pow_pos positive _), ← pow_succ']

end Count

/-! ## Transitions of the reference verifier -/

open NonceUpdateT8 in
/-- What the reference verifier accepts is a transition that a root takes. -/
theorem traceable_of_accepted {transitions : List (NonceTransition Bytes32)}
    {oldRoot newRoot : Bytes32} {depth : ℕ} (admissible : Admissible transitions depth)
    (accepted : verifyChain nonceP2T8 transitions oldRoot newRoot = true)
    (digits : ∀ t ∈ transitions, t.bits = Merkle.indexBits depth t.index) :
    Traceable (statementOf transitions oldRoot newRoot depth, transitions) := by
  have count : (statementOf transitions oldRoot newRoot depth).updates.length =
      transitions.length := List.length_map _
  have filled : 1 ≤ transitions.length := List.length_pos_iff.mpr admissible.nonempty
  have shape : max transitions.length 1 * max depth 1 * 22 = transitions.length * depth * 22 := by
    rw [max_eq_left filled, max_eq_left admissible.deep.1]
  have fits : transitions.length * depth * 22 ≤ 2 ^ 20 :=
    (Nat.mul_le_mul_right 22 (Nat.mul_le_mul admissible.count admissible.deep.2)).trans (by decide)
  constructor
  case some => exact fun empty => admissible.nonempty (List.map_eq_nil_iff.mp empty)
  case pub => exact admissible.isPublic accepted
  case size =>
    have small : nonceLogSize transitions.length depth ≤ 20 :=
      growLogSize_le (shape ▸ fits) (by decide)
    exact (count ▸ small).trans (by decide)
  case traced =>
    have room : transitions.length * depth * 22 ≤ 2 ^ nonceLogSize transitions.length depth :=
      shape ▸ rows_le_growLogSize _ _
    rcases @Admissible.accepts _ _ _ _ (nonceLogSize transitions.length depth) admissible accepted
      room with ⟨main, preproc, checked⟩
    rw [← count] at checked
    exact ⟨_, checked⟩
  case digits => exact digits

/-! ## Both trees -/

section Both

variable {system : Bool → ProofSystem Preproc}
  {proving : ∀ circuits, (system circuits).Proving NodeMain} {nQueries numFolds fanIn : ℕ}
  {nonce : Option NonceWitness} {sigs : List SignatureColumns} {txHashes : List (Fin 32 → UInt8)}
  {triples : List Triple} {batchTree : BatchTree Bytes32}

/-- Columns of this shape have a trace root. -/
theorem traceRoot_of_statable {sig : SignatureColumns} {side : Group}
    (statable : Statable numFolds (sig.traceColumns side)) :
    ∃ root, traceRootOf t8Backend (sig.group side).1 (sig.group side).2 = .ok root := by
  rcases wordColumns_lengths statable with ⟨nonempty, lengths⟩
  rw [SignatureColumns.traceColumns, wordColumns_columnWords] at nonempty lengths
  exact ⟨_, traceRootOf_eq nonempty lengths⟩

variable (system proving nQueries numFolds fanIn nonce sigs triples batchTree) in
/-- A proved tree over the columns of one group, with the memberships of the
batch, and its root. -/
structure GroupProved (side : Group) (proof : List UInt8) (logSize : ℕ) (roots : List (Quad ℕ))
    (columns : TraceColumns) (tree : AggregationTree TreeNodeResult) : Prop where
  proved : ∃ memberships, membershipsForSide batchTree triples side = .ok memberships ∧
    TreeProved system proving (batchSeed batchTree) nQueries numFolds fanIn nonce
      (sigs.map fun sig => sig.traceColumns side) memberships tree
  root : ∃ node group, tree.root = some node ∧ node.proof = proof ∧ node.logSize = logSize ∧
    node.roots = roots ∧ NodeProved system group nonce node columns

variable (system proving nQueries numFolds fanIn nonce sigs triples batchTree) in
/-- The tree of a group with its root and its size. -/
structure GroupTree (side : Group) (tree : AggregationTree TreeNodeResult) : Prop where
  root : ∃ root columns, tree.root = some root ∧ rootColumns tree = some columns ∧
    GroupProved system proving nQueries numFolds fanIn nonce sigs triples batchTree side root.proof
      root.logSize root.roots columns tree
  cut : tree.fanIn = fanIn
  depth : tree.depth = max 1 (Nat.clog fanIn sigs.length)
  nodes : nodeCount tree = ∑ k ∈ Finset.range tree.depth, sigs.length ⌈/⌉ fanIn ^ (k + 1)

/-- The tree of a group is proved, or a chain of it meets the domain. -/
theorem groupTree_proved (honest : ∀ circuits, (proving circuits).Honest (Proves circuits))
    (formed : BatchOver sigs txHashes triples batchTree)
    (leaves : 1 ≤ sigs.length ∧ sigs.length ≤ 4096) (several : 2 ≤ fanIn ∧ fanIn ≤ 8)
    (folds : 1 ≤ numFolds ∧ numFolds ≤ 11) (asked : 1 ≤ nQueries ∧ nQueries ≤ 64)
    (traceable : ∀ w ∈ nonce, Traceable w) (side : Group)
    (statable : ∀ sig ∈ sigs, Statable numFolds (sig.traceColumns side)) :
    ∃ outcome, (∀ turns ≥ sigs.length, groupTree system proving nQueries (some numFolds) fanIn turns
        sigs triples batchTree side nonce = some outcome) ∧
      FailsWith (TreeFault (sigs.map fun sig => sig.traceColumns side)) outcome ∧
      ∀ tree, outcome = .ok tree →
        GroupTree system proving nQueries numFolds fanIn nonce sigs triples batchTree side tree := by
  rcases formed.memberships side with ⟨ms, made, count, each⟩
  have length : (sigs.map fun sig => sig.traceColumns side).length = sigs.length :=
    List.length_map _
  have fit : List.Forall₂ (fun columns m => Statable numFolds columns ∧
      StartsAt (batchSeed batchTree) columns m) (sigs.map fun sig => sig.traceColumns side) ms := by
    rw [List.forall₂_map_left_iff, List.forall₂_iff_get]
    refine ⟨count.symm, ?_⟩
    intro i inside inside'
    rcases each i sigs[i] (List.getElem?_eq_getElem inside) with ⟨m, place, fitting⟩
    rw [List.getElem?_eq_getElem inside'] at place
    have own : StartsAt (batchSeed batchTree) (sigs[i].traceColumns side) ms[i] :=
      Option.some.inj place ▸ fitting.startsAt
    exact ⟨statable _ (List.getElem_mem inside), own⟩
  rcases @aggregation_tree_settles system proving (batchSeed batchTree) nQueries numFolds fanIn nonce
    (sigs.map fun sig => sig.traceColumns side) ms honest (length ▸ leaves) several folds asked
    (nodeBytes_length _) fit traceable with ⟨outcome, reached, fails, stands⟩
  rw [length] at reached
  refine ⟨outcome, ?_, fails, ?_⟩
  · intro turns enough
    rw [groupTree, made]
    exact reached turns enough
  · intro tree built
    have own := stands tree built
    rcases own.root with ⟨level, node, columns, group, last, nodes, traces, top, proved⟩
    rcases own.proved with ⟨statements, entries, levels⟩
    have leafCount : statements.length = sigs.length := by
      rw [← entries.length_eq, List.length_zip, count, length, Nat.min_self]
    have columnsAt : rootColumns tree = some columns := by
      rw [rootColumns, last]
      exact congrArg (fun list : List TraceColumns => list[0]?) traces
    constructor
    case root =>
      exact ⟨node, columns, top, columnsAt, ⟨ms, made, own⟩, node, group, top, rfl, rfl, rfl, proved⟩
    case cut => exact own.cut
    case depth => exact length ▸ own.depth
    case nodes =>
      rw [nodeCount, covers_nodeCount (by omega) levels.covers, leafCount]
      rfl

variable (system proving nQueries numFolds fanIn nonce sigs txHashes) in
/-- What a summary stands for. -/
structure Summarizes (summary : AggregationTreeSummary) : Prop where
  leafCount : summary.leafCount = sigs.length
  depth : summary.depth = max 1 (Nat.clog fanIn sigs.length)
  nodeCount : summary.nodeCount =
    2 * ∑ k ∈ Finset.range summary.depth, sigs.length ⌈/⌉ fanIn ^ (k + 1)
  cut : summary.fanIn = fanIn
  trees : ∃ triples batchTree tree tree8,
    aggregationBatch sigs txHashes = .ok (triples, batchTree) ∧
    summary.batchRoot = p2t8NodeWords batchTree.root ∧
    GroupProved system proving nQueries numFolds fanIn nonce sigs triples batchTree .log10
      summary.rootProof summary.rootLogSize summary.rootRoots summary.rootColumns10 tree ∧
    GroupProved system proving nQueries numFolds fanIn none sigs triples batchTree .log8
      summary.rootProof8 summary.rootLogSize8 summary.rootRoots8 summary.rootColumns8 tree8

/-- Both trees give a summary. -/
theorem GroupTree.summary {tree tree8 : AggregationTree TreeNodeResult}
    (batch : aggregationBatch sigs txHashes = .ok (triples, batchTree))
    (here : GroupTree system proving nQueries numFolds fanIn nonce sigs triples batchTree .log10 tree)
    (there : GroupTree system proving nQueries numFolds fanIn none sigs triples batchTree .log8
      tree8) : ∃ summary, treeSummary batchTree sigs.length tree tree8 = some summary ∧
        Summarizes system proving nQueries numFolds fanIn nonce sigs txHashes summary := by
  rcases here.root with ⟨root, columns, top, traces, group⟩
  rcases there.root with ⟨root8, columns8, top8, traces8, group8⟩
  refine ⟨{
    rootProof := root.proof
    rootLogSize := root.logSize
    rootRoots := root.roots
    rootProof8 := root8.proof
    rootLogSize8 := root8.logSize
    rootRoots8 := root8.roots
    batchRoot := p2t8NodeWords batchTree.root
    rootColumns10 := columns
    rootColumns8 := columns8
    leafCount := sigs.length
    depth := tree.depth
    nodeCount := nodeCount tree + nodeCount tree8
    fanIn := tree.fanIn }, ?_, ?_⟩
  · rw [treeSummary, top, top8, traces, traces8]
    rfl
  · refine ⟨rfl, here.depth, ?_, here.cut, triples, batchTree, tree, tree8, batch, rfl, group, group8⟩
    dsimp only
    rw [here.nodes, there.nodes, there.depth, ← here.depth, two_mul]

/-- For one to 4096 signatures with columns in range the aggregation ends.  It returns the roots
of two proved trees under the root of the batch, or it stops at a chain whose drawn point meets
the domain.  The transition is carried by the first tree, and the second has none.  Under the
bounds on the cut, the folds and the queries a node always has room for its children. -/
theorem mldsa_aggregation_proved
    (honest : ∀ circuits, (proving circuits).Honest (Proves circuits))
    (leaves : 1 ≤ sigs.length ∧ sigs.length ≤ 4096) (hashes : txHashes.length = sigs.length)
    (several : 2 ≤ fanIn ∧ fanIn ≤ 8) (folds : 1 ≤ numFolds ∧ numFolds ≤ 11)
    (asked : 1 ≤ nQueries ∧ nQueries ≤ 64)
    (statable : ∀ sig ∈ sigs, ∀ side, Statable numFolds (sig.traceColumns side))
    (traceable : ∀ w ∈ nonce, Traceable w) :
    ∃ outcome, (∀ turns ≥ sigs.length, proveMldsaAggregationTreeWithNonce system proving nQueries
        (some numFolds) fanIn turns sigs txHashes nonce = some outcome) ∧
      FailsWith (fun e => ∃ side, TreeFault (sigs.map fun sig => sig.traceColumns side) e) outcome ∧
      ∀ summary, outcome = .ok summary →
        Summarizes system proving nQueries numFolds fanIn nonce sigs txHashes summary := by
  have filled : sigs ≠ [] := List.length_pos_iff.mp leaves.1
  rcases aggregationBatch_succeeds filled (leaves.2.trans (by decide)) hashes
    (fun sig member side => traceRoot_of_statable (statable sig member side)) with
    ⟨triples, batchTree, batch⟩
  have formed := aggregationBatch_over batch
  rcases @groupTree_proved system proving nQueries numFolds fanIn nonce sigs txHashes triples
    batchTree honest formed leaves several folds asked traceable .log10
    (fun sig member => statable sig member _) with ⟨first, reached, fails, stands⟩
  rcases @groupTree_proved system proving nQueries numFolds fanIn none sigs txHashes triples
    batchTree honest formed leaves several folds asked nofun .log8
    (fun sig member => statable sig member _) with ⟨second, reached8, fails8, stands8⟩
  simp only [proveMldsaAggregationTreeWithNonce, batch]
  cases first with
  | error e =>
      refine ⟨.error e, ?_, ?_, nofun⟩
      · intro turns enough
        rw [reached turns enough]
      · exact ⟨fun failure same => by cases same; exact ⟨_, fails.error _ rfl⟩⟩
  | ok tree =>
      cases second with
      | error e =>
          refine ⟨.error e, ?_, ?_, nofun⟩
          · intro turns enough
            rw [reached turns enough]
            dsimp only
            rw [reached8 turns enough]
          · exact ⟨fun failure same => by cases same; exact ⟨_, fails8.error _ rfl⟩⟩
      | ok tree8 =>
          rcases (stands tree rfl).summary batch (stands8 tree8 rfl) with ⟨own, made, summarizes⟩
          refine ⟨.ok own, ?_, ⟨nofun⟩, ?_⟩
          · intro turns enough
            rw [reached turns enough]
            dsimp only
            rw [reached8 turns enough]
            dsimp only
            rw [made, Option.map_some]
          · intro summary same
            exact Except.ok.inj same ▸ summarizes

/-- Three signatures in groups of two, and the first use of two slots. -/
theorem sample_aggregation_proved : ∃ nonce outcome, nonce.2.length = 2 ∧
    (∀ turns ≥ 3, proveMldsaAggregationTreeWithNonce (fun circuits => .oracle (Satisfiable circuits))
      (fun circuits => .oracle (Satisfiable circuits) NodeMain) 1 (some 1) 2 turns sampleSignatures
      sampleHashes (some nonce) = some outcome) ∧
    ∀ summary, outcome = .ok summary → summary.depth = 2 ∧ summary.nodeCount = 6 := by
  rcases NonceUpdateT8.fourSlots_used with
    ⟨after, transitions, -, length, admissible, accepted, digits⟩
  have traceable := traceable_of_accepted admissible accepted digits
  have statable : ∀ sig ∈ sampleSignatures, ∀ side, Statable 1 (sig.traceColumns side) := by
    intro sig member side
    simp only [sampleSignatures, List.mem_cons, List.not_mem_nil, or_false] at member
    rcases member with rfl | rfl | rfl <;> cases side <;>
      exact ⟨by decide, by decide, by decide, by decide⟩
  rcases @mldsa_aggregation_proved (fun circuits => .oracle (Satisfiable circuits))
    (fun circuits => .oracle (Satisfiable circuits) NodeMain) 1 1 2 (some (_, _)) sampleSignatures
    sampleHashes oracle_proves (by decide) rfl (by decide) (by decide) (by decide) statable
    (by rintro w ⟨⟩; exact traceable) with ⟨outcome, reached, -, stands⟩
  refine ⟨_, outcome, length, reached, ?_⟩
  intro summary returned
  have own := stands summary returned
  have count : sampleSignatures.length = 3 := rfl
  have depth : summary.depth = 2 := by
    rw [own.depth, count]
    decide
  refine ⟨depth, ?_⟩
  rw [own.nodeCount, depth, count]
  decide

end Both

end TreeNode
end Recursive
end QLSA
