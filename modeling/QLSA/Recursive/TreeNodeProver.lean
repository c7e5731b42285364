import QLSA.Recursive.AcceptedChains
import QLSA.Recursive.TreeNodeAcceptance

namespace QLSA
namespace Recursive
namespace TreeNode

open Hash Mersenne Qm31 Stwo Vfri2
open Machine (bind_eq_ok checkAll checkAll_ok_iff_at mapError_ok)
open ChannelT8 (ChannelRun)
open NonceUpdateT8 (checkedTrace nonceNodeWords)
open RecursiveVerifier (FoldRound StepOp allChallenges canonical_small recursiveQueriesFinal)

/-!
# The prover of a node

The prover fills the columns of every circuit and takes the roots of the paths
from the trace it fills.  Before anything is committed it compares them with
the batch roots of the memberships and, where every child carries its inputs,
with the roots the verifier will expect.  What it then hands to the proof
system satisfies all circuits, over the columns that the verifier rebuilds.
-/

/-! ## Preparation -/

/-- A transition with its witness. -/
abbrev NonceWitness := NonceStatement (Quad ℕ) × List (NonceTransition Bytes32)

/-- The main columns of a node. -/
structure NodeMain where
  rv : ℕ → RecursiveVerifier.MainRow
  merkle : List MerklePathT8.MainRow
  channel : List ChannelT8.MainRow
  nonce : Option Columns

/-- What a proof of a node is made of. -/
structure PreparedNode where
  shape : NodeShape
  preproc : Preproc
  main : NodeMain
  runs : List ChannelRun
  roots : List (Quad ℕ)

/-- A membership path must land on the batch root it claims. -/
def landingFault (roots : List (Quad ℕ)) (nQueryPaths k : ℕ) (m : BatchMembership) :
    Option String :=
  match roots[nQueryPaths + k]? with
  | none => some "index out of bounds"
  | some got =>
      if got ≠ m.batchRoot then
        some (s!"statement {k}: the membership path reaches {got.toList}, not the batch root " ++
          s!"{m.batchRoot.toList} — the leaf does not belong to this batch")
      else none

/-- A path must reach the root its child committed to. -/
def rootFault (expected : List (Quad ℕ)) (i : ℕ) (root : Quad ℕ) : Option String :=
  match expected[i]? with
  | none => some "index out of bounds"
  | some want =>
      if root ≠ want then
        some (s!"path {i} reaches {root.toList}, not the root the child committed to " ++
          s!"{want.toList}")
      else none

/-- The comparison with the committed roots, when all of them are known. -/
def checkCommitted (statements : List TreeStatement) (roots : List (Quad ℕ)) :
    Except String Unit :=
  if statements.all fun st => st.inputs.isSome then do
    let expected ← treeNodeExpectedRoots statements
    checkAll (rootFault expected) 0 roots
  else .ok ()

/-- Columns of the transition, main and preprocessed. -/
def nonceTraces (logSize : ℕ) : Option NonceWitness → Except String (Option (Columns × Columns))
  | none => .ok none
  | some (st, transitions) => do
      let traces ← (checkedTrace st transitions logSize).mapError fun e => s!"nonce transition: {e}"
      return some traces

/-- `prove_tree_node_with_nonce` up to the proof itself: the shape, the main columns of the three
circuits, the roots that the paths reach, which are compared with the memberships and the
committed roots, and the columns that the verifier rebuilds. -/
def prepareTreeNodeWithNonce (statements : List TreeStatement) (nonce : Option NonceWitness) :
    Except String PreparedNode := do
  let sh ← nodeShapeWith statements (nonce.map Prod.fst)
  if maxLog < sh.logSize then .error s!"tree node log_size {sh.logSize} too large"
  else
    let rv ← RecursiveVerifier.buildTraceMulti sh.queries sh.logSize
    let merkle ← MerklePathT8.buildTraceMultiRaw ⟨sh.leaves, sh.sibs, sh.bits⟩ sh.logSize
    checkAll (landingFault merkle.2 (3 * sh.queries.length)) 0 (memberships statements)
    checkCommitted statements merkle.2
    let merklePreproc ← (sh.paths merkle.2).buildPreprocMultiVar sh.logSize
    let channel := ChannelT8.buildTraceMultiRaw sh.transcripts sh.logSize
    let channelPreproc := ChannelT8.buildPreprocMulti sh.transcripts channel.2 sh.logSize
    let transition ← nonceTraces sh.logSize nonce
    return {
      shape := sh
      preproc := ⟨rv.2, merklePreproc, channelPreproc, transition.map Prod.snd⟩
      main := ⟨rv.1, merkle.1, channel.1, transition.map Prod.fst⟩
      runs := channel.2
      roots := merkle.2 }

/-- The main columns satisfy every circuit. -/
structure NodeMain.Satisfies (main : NodeMain) (logSize : ℕ) (preproc : Preproc) : Prop where
  rv : RecursiveVerifier.Satisfies main.rv preproc.rv logSize
  merkle : MerklePathT8.Satisfies (MerklePathT8.traceRow main.merkle) preproc.merkle logSize
  channel : ChannelT8.Satisfies (ChannelT8.traceRow main.channel) preproc.channel logSize
  nonce : Option.Rel (fun main preproc => NonceUpdateT8.Satisfies main preproc logSize)
    main.nonce preproc.nonce

abbrev PreparedNode.Satisfied (node : PreparedNode) : Prop :=
  node.main.Satisfies node.shape.logSize node.preproc

theorem NodeMain.Satisfies.satisfiable {main : NodeMain} {logSize : ℕ} {preproc : Preproc}
    (satisfies : main.Satisfies logSize preproc) :
    Satisfiable preproc.nonce.isSome logSize preproc := by
  refine ⟨rfl, ⟨_, satisfies.rv⟩, ⟨_, satisfies.merkle⟩, ⟨_, satisfies.channel⟩, ?_⟩
  intro columns own
  have related := satisfies.nonce
  rw [Option.mem_def.mp own] at related
  cases filled : main.nonce with
  | none =>
      rw [filled] at related
      cases related
  | some columns =>
      rw [filled] at related
      cases related with
      | some holds => exact ⟨columns, holds⟩

/-- The verifier for either kind of node: `verify_tree_node` without a transition and
`verify_tree_node_with_nonce` with one.  Both derive the roots that the paths have to reach from
the channel inputs of the statements, and never take them from the caller. -/
def verifyNode (system : Bool → ProofSystem Preproc) (proofBytes : List UInt8) (logSize : ℕ)
    (statements : List TreeStatement) : Option (NonceStatement (Quad ℕ)) → Except String Bool
  | none => verifyTreeNode system proofBytes logSize statements
  | some st => verifyTreeNodeWithNonce system proofBytes logSize statements st

/-! ## The paths of a node -/

section Paths

variable {numFolds logSize : ℕ} {statements : List TreeStatement}

/-- The openings of a node. -/
def nodeOpenings (statements : List TreeStatement) : MerklePathT8.Openings :=
  ⟨nodeLeaves statements, nodeSibs statements, nodeBits statements⟩

/-- The claims of a node, each with the siblings that its statement offers. -/
def nodePaths (statements : List TreeStatement) : List (PathClaim × List (Quad ℕ)) :=
  (statements.flatMap fun st => st.opened.map fun opened =>
      (finalClaim st.committed.1 opened, opened.2.1.1)) ++
    (statements.flatMap fun st => st.opened.map fun opened =>
      (posClaim st.committed.2 opened, opened.2.2.posSibs)) ++
    (statements.flatMap fun st => st.opened.map fun opened =>
      (negClaim st.committed.2 opened, opened.2.2.negSibs)) ++
    (memberships statements).map fun m => (memberClaim m, m.path.1)

theorem nodePaths_claims (statements : List TreeStatement) :
    (nodePaths statements).map Prod.fst = nodeClaims statements := by
  simp only [nodePaths, nodeClaims, claimsOf, List.map_append, List.map_flatMap, List.map_map,
    Function.comp_def]

theorem nodePaths_sibs (shaped : ∀ st ∈ statements, st.Shaped numFolds) :
    (nodePaths statements).map Prod.snd = nodeSibs statements := by
  have column (claim : TreeStatement → QueryPaths → PathClaim) (sibs : QueryPaths → List (Quad ℕ))
      (kind : TreeStatement → List (List (Quad ℕ)))
      (own : ∀ st ∈ statements, st.opened.map sibs = kind st) :
      (statements.flatMap fun st => st.opened.map fun opened =>
        (claim st opened, sibs opened)).map Prod.snd = statements.flatMap kind := by
    rw [List.map_flatMap]
    apply List.flatMap_congr
    intro st member
    rw [← own st member, List.map_map]
    rfl
  have finals := column (fun st => finalClaim st.committed.1) (fun opened => opened.2.1.1)
    (fun st => st.paths.map Prod.fst) fun st member => by
      rw [← (shaped st member).opened_paths, List.map_map]
      rfl
  have pos := column (fun st => posClaim st.committed.2) (fun opened => opened.2.2.posSibs)
    (fun st => st.compPaths.map CompMembership.posSibs) fun st member => by
      rw [← (shaped st member).opened_compPaths, List.map_map]
      rfl
  have neg := column (fun st => negClaim st.committed.2) (fun opened => opened.2.2.negSibs)
    (fun st => st.compPaths.map CompMembership.negSibs) fun st member => by
      rw [← (shaped st member).opened_compPaths, List.map_map]
      rfl
  rw [nodePaths, List.map_append, List.map_append, List.map_append, finals, pos, neg,
    List.map_map, nodeSibs]
  rfl

/-- What holds of the paths of every query and of every membership. -/
theorem forall_nodePaths {p : PathClaim × List (Quad ℕ) → Prop}
    (finals : ∀ st ∈ statements, ∀ opened ∈ st.opened,
      p (finalClaim st.committed.1 opened, opened.2.1.1))
    (pos : ∀ st ∈ statements, ∀ opened ∈ st.opened,
      p (posClaim st.committed.2 opened, opened.2.2.posSibs))
    (neg : ∀ st ∈ statements, ∀ opened ∈ st.opened,
      p (negClaim st.committed.2 opened, opened.2.2.negSibs))
    (members : ∀ st ∈ statements, ∀ m ∈ st.membership, p (memberClaim m, m.path.1)) :
    ∀ path ∈ nodePaths statements, p path := by
  intro path member
  simp only [nodePaths, List.mem_append, List.mem_flatMap, List.mem_map] at member
  rcases member with ((⟨st, listed, opened, own, rfl⟩ | ⟨st, listed, opened, own, rfl⟩) |
    ⟨st, listed, opened, own, rfl⟩) | ⟨m, listed, rfl⟩
  · exact finals st listed opened own
  · exact pos st listed opened own
  · exact neg st listed opened own
  · rcases mem_memberships.mp listed with ⟨st, place, own⟩
    exact members st place m own

/-- A sibling for every bit. -/
theorem nodePaths_lengths (shaped : ∀ st ∈ statements, st.Shaped numFolds) :
    ∀ path ∈ nodePaths statements, path.2.length = path.1.bits.length := by
  apply forall_nodePaths
  case finals =>
    intro st listed opened own
    have fits := (shaped st listed).fits opened own
    exact fits.sibs.trans fits.bits.symm
  case pos =>
    intro st listed opened own
    have fits := (shaped st listed).fits opened own
    exact fits.posSibs.trans fits.posBits.symm
  case neg =>
    intro st listed opened own
    have fits := (shaped st listed).fits opened own
    exact fits.negSibs.trans fits.negBits.symm
  case members =>
    intro st listed m own
    rw [memberClaim, BatchMembership.path]
    simp only [List.length_cons, ((shaped st listed).membership m own).1]

theorem nodeSibs_depths (shaped : ∀ st ∈ statements, st.Shaped numFolds) :
    (nodeSibs statements).map List.length = nodeDepths statements := by
  rw [← nodePaths_sibs shaped, ← nodeClaims_depths shaped, ← nodePaths_claims, List.map_map,
    List.map_map]
  apply List.map_congr_left
  intro path member
  exact nodePaths_lengths shaped path member

theorem nodeBits_depths (shaped : ∀ st ∈ statements, st.Shaped numFolds) :
    (nodeBits statements).map List.length = nodeDepths statements := by
  rw [← nodeClaims_bits shaped, ← nodeClaims_depths shaped, List.map_map]
  rfl

theorem Node.openings_valid (node : Node numFolds statements)
    (large : nodeLogSize statements numFolds ≤ logSize) :
    (nodeOpenings statements).Valid logSize := by
  have depths : (nodeOpenings statements).depths = nodeDepths statements :=
    nodeSibs_depths node.shaped
  have count : (nodeLeaves statements).length = (nodeDepths statements).length := by
    rw [← nodeClaims_leaves node.shaped, ← nodeClaims_depths node.shaped, List.length_map,
      List.length_map]
  have wellFormed := node.paths_wellFormed large
  constructor
  case nonempty =>
    have some := wellFormed.nonempty
    rw [PathClaim.paths, nodeClaims_leaves node.shaped] at some
    exact some
  case sibs_length =>
    have lengths := congrArg List.length (nodeSibs_depths node.shaped)
    rw [List.length_map] at lengths
    exact lengths.trans count.symm
  case bits_length =>
    have lengths := congrArg List.length (nodeBits_depths node.shaped)
    rw [List.length_map] at lengths
    exact lengths.trans count.symm
  case depths =>
    rw [depths]
    exact node.depths_bounded
  case bits_match =>
    rw [depths]
    exact nodeBits_depths node.shaped
  case fits =>
    rw [depths]
    exact (nodeLogSize_fits node large).2.2

/-- The roots that the offered siblings lead to. -/
def reachedRoots (statements : List TreeStatement) : List (Quad ℕ) :=
  (nodePaths statements).map fun path => merklePathRootT8 path.1.leaf path.2 path.1.bits

theorem nodeOpenings_roots (shaped : ∀ st ∈ statements, st.Shaped numFolds) :
    (List.range (nodeLeaves statements).length).map (nodeOpenings statements).root =
      reachedRoots statements := by
  have leaves : nodeLeaves statements = (nodePaths statements).map fun path => path.1.leaf := by
    rw [← nodeClaims_leaves shaped, ← nodePaths_claims, List.map_map]
    rfl
  have bits : nodeBits statements = (nodePaths statements).map fun path => path.1.bits := by
    rw [← nodeClaims_bits shaped, ← nodePaths_claims, List.map_map]
    rfl
  have sibs := nodePaths_sibs shaped
  have count : (nodeLeaves statements).length = (nodePaths statements).length := by
    rw [leaves, List.length_map]
  apply List.ext_getElem
  · rw [List.length_map, List.length_range, count, reachedRoots, List.length_map]
  · intro i first second
    have inside : i < (nodePaths statements).length := by
      rwa [reachedRoots, List.length_map] at second
    have found : (nodePaths statements)[i]? = some (nodePaths statements)[i] :=
      List.getElem?_eq_getElem inside
    simp only [reachedRoots, List.getElem_map, List.getElem_range, MerklePathT8.Openings.root,
      MerklePathT8.Openings.leaf, nodeOpenings, leaves, bits, ← sibs, List.getD_eq_getElem?_getD,
      List.getElem?_map, found, Option.map_some, Option.getD_some]

/-- Every path reaches the root that its child committed to. -/
def Reaches (statements : List TreeStatement) : Prop :=
  ∀ path ∈ nodePaths statements, merklePathRootT8 path.1.leaf path.2 path.1.bits = path.1.root

theorem Reaches.roots (reaches : Reaches statements) :
    reachedRoots statements = (nodeClaims statements).map PathClaim.root := by
  rw [reachedRoots, ← nodePaths_claims, List.map_map]
  exact List.map_congr_left reaches

end Paths

/-! ## What is prepared -/

section Prepared

variable {statements : List TreeStatement} {nonce : Option NonceWitness} {node : PreparedNode}
  {numFolds logSize : ℕ}

/-- A preparation that no check stopped. -/
structure PreparedAs (numFolds logSize : ℕ) (statements : List TreeStatement)
    (nonce : Option NonceWitness) (node : PreparedNode) : Prop where
  made : Node numFolds statements
  derives : ∀ st ∈ statements, ∃ derived, st.Derives numFolds derived
  moves : ∀ st ∈ nonce.map Prod.fst, Moves logSize st
  size : logSize = sizeWith statements numFolds (nonce.map Prod.fst)
  size_le : logSize ≤ maxLog
  shape : node.shape = sizedShape numFolds logSize statements
  rv : RecursiveVerifier.buildTraceMulti (allQueries statements) logSize =
    .ok (node.main.rv, node.preproc.rv)
  merkle : MerklePathT8.buildTraceMultiRaw (nodeOpenings statements) logSize =
    .ok (node.main.merkle, node.roots)
  merklePreproc : (node.shape.paths node.roots).buildPreprocMultiVar logSize =
    .ok node.preproc.merkle
  channel : ChannelT8.buildTraceMultiRaw (statements.map TreeStatement.steps) logSize =
    (node.main.channel, node.runs)
  channelPreproc : node.preproc.channel =
    ChannelT8.buildPreprocMulti (statements.map TreeStatement.steps) node.runs logSize
  committed : checkCommitted statements node.roots = .ok ()
  nonce : ∃ traces, nonceTraces logSize nonce = .ok traces ∧
    node.main.nonce = traces.map Prod.fst ∧ node.preproc.nonce = traces.map Prod.snd

theorem prepared_as (prepared : prepareTreeNodeWithNonce statements nonce = .ok node) :
    ∃ numFolds logSize, PreparedAs numFolds logSize statements nonce node := by
  rcases bind_eq_ok.mp prepared with ⟨sh, shaped, next⟩
  split_ifs at next with large
  rcases nodeShapeWith_ok_iff.mp shaped with ⟨numFolds, made, derives, passed, rfl⟩
  rcases bind_eq_ok.mp next with ⟨rv, folded, next⟩
  rcases bind_eq_ok.mp next with ⟨merkle, climbed, next⟩
  rcases bind_eq_ok.mp next with ⟨_, -, next⟩
  rcases bind_eq_ok.mp next with ⟨_, committed, next⟩
  rcases bind_eq_ok.mp next with ⟨merklePreproc, pinned, next⟩
  rcases bind_eq_ok.mp next with ⟨traces, moved, finished⟩
  cases finished
  refine ⟨numFolds, _, made, derives, ?_, rfl, Nat.not_lt.mp large, rfl, folded, climbed, pinned, rfl,
    rfl, committed, traces, moved, rfl, rfl⟩
  intro st own
  rcases passed st own with ⟨some, relations, -⟩
  refine ⟨some, relations, ?_⟩
  rw [Option.mem_def.mp own]
  exact le_max_right _ _

namespace PreparedAs

variable (prepared : PreparedAs numFolds logSize statements nonce node)

include prepared

theorem large : nodeLogSize statements numFolds ≤ logSize := prepared.size ▸ le_sizeWith _ _ _

theorem domain : logSize ≤ maxCosetLogSize := prepared.size_le.trans (by decide)

theorem steps (st : TreeStatement) (member : st ∈ statements) : st.steps ≠ [] := by
  rcases prepared.derives st member with ⟨derived, own⟩
  exact (derives_steps own).1

/-- The prover's runs are those that the verifier computes. -/
theorem runs_eq : node.runs = (statements.map TreeStatement.steps).map ChannelT8.honestRun := by
  have computed := prepared.made.runs_eq prepared.large prepared.domain
  rwa [prepared.channel] at computed

/-- The roots of a preparation are those its paths reach. -/
theorem merkle_satisfied : node.roots.length = (nodeLeaves statements).length ∧
    MerklePathT8.Satisfies (MerklePathT8.traceRow node.main.merkle) node.preproc.merkle
      logSize := by
  have valid := prepared.made.openings_valid prepared.large
  have count : ((List.range (nodeOpenings statements).leaves.length).map
      (nodeOpenings statements).root).length = (nodeOpenings statements).leaves.length := by
    rw [List.length_map, List.length_range]
  have reached : ∀ path < (nodeOpenings statements).leaves.length,
      norm4 (((List.range (nodeOpenings statements).leaves.length).map
        (nodeOpenings statements).root).getD path ⟨0, 0, 0, 0⟩) =
        (nodeOpenings statements).root path := by
    intro path inside
    rw [List.getD_eq_getElem?_getD, List.getElem?_map, List.getElem?_range inside,
      Option.map_some, Option.getD_some, MerklePathT8.norm4_root]
  rcases valid.built_satisfies count reached with ⟨rows, built, satisfied⟩
  have own := built.symm.trans prepared.merkle
  rw [Except.ok.injEq, Prod.mk.injEq] at own
  rcases own with ⟨rfl, roots⟩
  rw [roots] at count satisfied
  have paths : node.shape.paths node.roots =
      (nodeOpenings statements).paths ((nodeOpenings statements).bits.map Merkle.position)
        node.roots := by
    have depths : (nodeOpenings statements).depths = nodeDepths statements :=
      nodeSibs_depths prepared.made.shaped
    rw [MerklePathT8.Openings.paths, depths, prepared.shape]
    rfl
  have positions : ((nodeOpenings statements).bits.map Merkle.position).length =
      (nodeOpenings statements).leaves.length := by
    rw [List.length_map, valid.bits_length]
  have pinned := (valid.wellFormed positions count).preproc
  have rebuilt := prepared.merklePreproc
  rw [paths, pinned] at rebuilt
  rw [← Except.ok.inj rebuilt]
  exact ⟨count, satisfied⟩

theorem channel_satisfied : ChannelT8.Satisfies (ChannelT8.traceRow node.main.channel)
    node.preproc.channel logSize := by
  have nonempty : ∀ steps ∈ statements.map TreeStatement.steps, steps ≠ [] := by
    intro steps member
    rcases List.mem_map.mp member with ⟨st, listed, rfl⟩
    exact prepared.steps st listed
  have runs : ChannelT8.RunsOfChannel (statements.map TreeStatement.steps)
      ((statements.map TreeStatement.steps).map ChannelT8.honestRun) := by
    rw [ChannelT8.RunsOfChannel, List.map_map]
    rfl
  have satisfied := ChannelT8.built_satisfies nonempty prepared.domain
    (nodeLogSize_fits prepared.made prepared.large).1 (ChannelT8.honestRuns_pairs _) runs
  rw [prepared.channel, ← prepared.runs_eq] at satisfied
  rw [prepared.channelPreproc]
  exact satisfied

/-- The fold chains are filled, whatever their values are. -/
theorem folds_built :
    node.main.rv = RecursiveVerifier.fillBlocks (1 + numFolds) (fun _ => .idle) 0
        (allQueries statements) ∧
      node.preproc.rv = RecursiveVerifier.preprocRow (recursiveQueriesFinal (allQueries statements))
        (allChallenges (allQueries statements)) numFolds := by
  have built := RecursiveVerifier.buildTraceMulti_eq prepared.made.rounds_length
    (nodeLogSize_fits prepared.made prepared.large).2.1 prepared.made.queries_some
  have same := prepared.rv.symm.trans built
  rw [Except.ok.injEq, Prod.mk.injEq] at same
  exact same

/-- Canonical queries are proved. -/
theorem folds_satisfied (canonical : ∀ query ∈ allQueries statements, query.1.Canonical ∧
    ∀ foldRound ∈ query.2, foldRound.Canonical) :
    RecursiveVerifier.Satisfies node.main.rv node.preproc.rv logSize := by
  have provable : RecursiveVerifier.Provable (allQueries statements) numFolds :=
    ⟨prepared.made.queries_some, prepared.made.rounds_length,
      fun query listed => (canonical query listed).1,
      fun query listed => (canonical query listed).2⟩
  rw [prepared.folds_built.1, prepared.folds_built.2]
  exact provable.satisfies

/-- A witness whose bits are the digits of its slots is proved. -/
theorem nonce_satisfied (digits : ∀ w ∈ nonce, ∀ t ∈ w.2,
    t.bits = Merkle.indexBits w.1.depth t.index) :
    Option.Rel (fun main preproc => NonceUpdateT8.Satisfies main preproc logSize)
      node.main.nonce node.preproc.nonce := by
  rcases prepared.nonce with ⟨traces, moved, main, preproc⟩
  rw [main, preproc]
  cases nonce with
  | none =>
      cases moved
      exact .none
  | some w =>
      rcases w with ⟨st, transitions⟩
      rcases bind_eq_ok.mp moved with ⟨built, checked, finished⟩
      cases finished
      apply Option.Rel.some
      exact NonceUpdateT8.checkedTrace_satisfies (mapError_ok.mp checked) (digits _ rfl)

theorem satisfied (canonical : ∀ query ∈ allQueries statements, query.1.Canonical ∧
    ∀ foldRound ∈ query.2, foldRound.Canonical)
    (digits : ∀ w ∈ nonce, ∀ t ∈ w.2, t.bits = Merkle.indexBits w.1.depth t.index) :
    node.Satisfied := by
  have size : node.shape.logSize = logSize := by rw [prepared.shape]; rfl
  constructor
  case rv => exact size ▸ prepared.folds_satisfied canonical
  case merkle => exact size ▸ prepared.merkle_satisfied.2
  case channel => exact size ▸ prepared.channel_satisfied
  case nonce => exact size ▸ prepared.nonce_satisfied digits

/-- The verifier rebuilds the columns of the preparation. -/
theorem rebuilt : node.shape.canonicalTree node.runs node.roots (nonce.map Prod.fst) =
    .ok node.preproc := by
  have merkle := prepared.merklePreproc
  have channel := prepared.channelPreproc
  rcases prepared.nonce with ⟨traces, moved, -, preproc⟩
  rw [prepared.shape] at merkle ⊢
  rw [NodeShape.canonicalTree, bind_eq_ok]
  have folds := prepared.made.folds_preproc prepared.large
  rw [← prepared.folds_built.2] at folds
  refine ⟨node.preproc.rv, folds, bind_eq_ok.mpr ⟨node.preproc.merkle, merkle, ?_⟩⟩
  have columns (transition : Option Columns) (own : node.preproc.nonce = transition) :
      (⟨node.preproc.rv, node.preproc.merkle, ChannelT8.buildPreprocMulti
        (statements.map TreeStatement.steps) node.runs logSize, transition⟩ : Preproc) =
        node.preproc := by
    rw [← channel, ← own]
  cases nonce with
  | none =>
      cases moved
      exact congrArg Except.ok (columns none preproc)
  | some w =>
      rcases w with ⟨st, transitions⟩
      rcases bind_eq_ok.mp moved with ⟨built, checked, finished⟩
      cases finished
      rcases NonceUpdateT8.checkedTrace_ok_iff.mp (mapError_ok.mp checked) with
        ⟨-, -, -, -, -, -, -, pinned⟩
      exact bind_eq_ok.mpr ⟨built.2, pinned, congrArg Except.ok (columns (some built.2) preproc)⟩

/-- The roots of a preparation are the expected ones. -/
theorem expected (known : ∀ st ∈ statements, st.inputs.isSome) :
    treeNodeExpectedRoots statements = .ok node.roots := by
  have committed := prepared.committed
  rw [checkCommitted, if_pos (List.all_eq_true.mpr known)] at committed
  rcases bind_eq_ok.mp committed with ⟨expected, derived, passed⟩
  rw [derived, Except.ok.injEq]
  have lengths : expected.length = node.roots.length := by
    rcases (treeNodeExpectedRoots_iff prepared.made.shaped).mp derived with ⟨-, rfl⟩
    rw [prepared.merkle_satisfied.1, List.length_map, ← nodeClaims_leaves prepared.made.shaped,
      List.length_map]
  apply List.ext_getElem lengths
  intro i first second
  have same := checkAll_ok_iff_at.mp passed i node.roots[i] (List.getElem?_eq_getElem second)
  rw [Nat.zero_add, rootFault, List.getElem?_eq_getElem first] at same
  dsimp only at same
  split_ifs at same with differ
  exact (not_not.mp differ).symm

/-- What is prepared for children that carry their inputs reaches their roots. -/
theorem reaches (known : ∀ st ∈ statements, st.inputs.isSome) :
    (∀ st ∈ statements, ∃ inp, st.Commits inp) ∧ Reaches statements := by
  have shaped := prepared.made.shaped
  have valid := prepared.made.openings_valid prepared.large
  have built := valid.build_eq (MerklePathT8.indexed_positions _ valid.bits_match) []
  have own := prepared.merkle.symm.trans built
  rw [Except.ok.injEq, Prod.mk.injEq] at own
  rcases (treeNodeExpectedRoots_iff shaped).mp (prepared.expected known) with ⟨commits, roots⟩
  refine ⟨commits, ?_⟩
  have same : reachedRoots statements = (nodePaths statements).map fun path => path.1.root := by
    rw [← nodeOpenings_roots shaped]
    refine own.2.symm.trans (roots.trans ?_)
    rw [← nodePaths_claims, List.map_map]
    rfl
  exact List.map_inj_left.mp same

theorem circuits : node.preproc.nonce.isSome = nonce.isSome := by
  rcases prepared.nonce with ⟨traces, moved, -, preproc⟩
  rw [preproc]
  cases nonce with
  | none =>
      cases moved
      rfl
  | some w =>
      rcases bind_eq_ok.mp moved with ⟨built, -, finished⟩
      cases finished
      rfl

theorem satisfiable (satisfied : node.Satisfied) :
    Satisfiable nonce.isSome node.shape.logSize node.preproc :=
  prepared.circuits ▸ satisfied.satisfiable

theorem shape_eq : nodeShapeWith statements (nonce.map Prod.fst) = .ok node.shape := by
  rw [prepared.shape]
  refine nodeShapeWith_ok_iff.mpr ⟨numFolds, prepared.made, prepared.derives, ?_,
    by rw [← prepared.size]⟩
  intro st own
  exact ⟨(prepared.moves st own).some, (prepared.moves st own).pub, prepared.size ▸ prepared.size_le⟩

/-- A proof of the shape of a preparation, at its roots, is one of the node. -/
theorem verified {system : Bool → ProofSystem Preproc} {proofBytes : List UInt8}
    (known : ∀ st ∈ statements, st.inputs.isSome)
    (shapeVerified : verifyShape system proofBytes node.shape node.roots (nonce.map Prod.fst) =
      .ok true) :
    verifyNode system proofBytes node.shape.logSize statements (nonce.map Prod.fst) = .ok true := by
  have expected := prepared.expected known
  have count : node.roots.length = node.shape.depths.length := by
    have depths : node.shape.depths = nodeDepths statements := by rw [prepared.shape]; rfl
    rw [prepared.merkle_satisfied.1, depths, ← nodeClaims_leaves prepared.made.shaped,
      ← nodeClaims_depths prepared.made.shaped, List.length_map, List.length_map]
  have pinned : verifyTreeNodePinned system proofBytes node.shape.logSize statements node.roots
      (nonce.map Prod.fst) = .ok true := by
    rw [verifyTreeNodePinned, prepared.shape_eq]
    dsimp only [bind, Except.bind]
    rw [if_neg (not_not.mpr rfl), if_neg (not_not.mpr count)]
    exact shapeVerified
  cases nonce with
  | none => exact bind_eq_ok.mpr ⟨node.roots, expected, pinned⟩
  | some w => exact bind_eq_ok.mpr ⟨node.roots, expected, pinned⟩

/-- The verifier computes the same runs. -/
theorem runs_computed :
    (ChannelT8.buildTraceMultiRaw node.shape.transcripts node.shape.logSize).2 = node.runs := by
  rw [prepared.shape]
  exact congrArg Prod.snd prepared.channel

/-- The verifier accepts a proof of what is satisfied. -/
theorem accepted {system : Bool → ProofSystem Preproc}
    (complete : (system nonce.isSome).Complete (Satisfiable nonce.isSome))
    (known : ∀ st ∈ statements, st.inputs.isSome) (satisfied : node.Satisfied) :
    ∃ proofBytes, verifyNode system proofBytes node.shape.logSize statements
      (nonce.map Prod.fst) = .ok true := by
  have present : (nonce.map Prod.fst).isSome = nonce.isSome := Option.isSome_map
  have shapeVerified : ∃ proofBytes, verifyShape system proofBytes node.shape node.roots
      (nonce.map Prod.fst) = .ok true := by
    unfold verifyShape
    rw [present, prepared.runs_computed]
    exact complete.verifyAgainst prepared.rebuilt (prepared.satisfiable satisfied)
  rcases shapeVerified with ⟨proofBytes, shapeVerified⟩
  exact ⟨proofBytes, prepared.verified known shapeVerified⟩

end PreparedAs

/-! ## Preparations that succeed -/

/-- No membership path misses its batch root. -/
theorem landings_pass (made : Node numFolds statements) :
    checkAll (landingFault ((nodeClaims statements).map PathClaim.root)
      (3 * (allQueries statements).length)) 0 (memberships statements) = .ok () := by
  rw [checkAll_ok_iff_at]
  intro k m found
  have before : ((claimsOf (fun st => finalClaim st.committed.1) statements ++
      claimsOf (fun st => posClaim st.committed.2) statements ++
      claimsOf (fun st => negClaim st.committed.2) statements).map PathClaim.root).length =
        3 * (allQueries statements).length := by
    have total := made.claims_length
    rw [nodeClaims, List.length_append, List.length_map] at total
    rw [List.length_map]
    omega
  have landed : ((nodeClaims statements).map PathClaim.root)[3 * (allQueries statements).length +
      k]? = some m.batchRoot := by
    rw [nodeClaims, List.map_append, List.getElem?_append_right (by omega), before,
      Nat.add_sub_cancel_left, List.map_map, List.getElem?_map, found]
    rfl
  rw [Nat.zero_add, landingFault, landed]
  dsimp only
  rw [if_neg (not_not.mpr rfl)]

theorem bind_succeeds_at {α β ε : Type} {x : Except ε α} {f : α → Except ε β} {a : α}
    (here : x = .ok a) (later : ∃ b, f a = .ok b) : ∃ b, (x >>= f) = .ok b := by
  rw [here]
  exact later

/-- Statements that run under what they committed to, with paths that reach
it, are prepared. -/
theorem prepare_succeeds (made : Node numFolds statements)
    (derives : ∀ st ∈ statements, ∃ derived, st.Derives numFolds derived)
    (commits : ∀ st ∈ statements, ∃ inp, st.Commits inp) (reaches : Reaches statements)
    (moves : ∀ st ∈ nonce.map Prod.fst, st.updates ≠ [] ∧ NonceUpdateT8.Public st)
    (size_le : sizeWith statements numFolds (nonce.map Prod.fst) ≤ maxLog)
    (traced : ∃ traces, nonceTraces (sizeWith statements numFolds (nonce.map Prod.fst)) nonce =
      .ok traces) :
    ∃ node, prepareTreeNodeWithNonce statements nonce = .ok node := by
  have large := le_sizeWith statements numFolds (nonce.map Prod.fst)
  generalize size : sizeWith statements numFolds (nonce.map Prod.fst) = logSize at *
  have valid := made.openings_valid large
  have reached := (nodeOpenings_roots made.shaped).trans reaches.roots
  have shaped : nodeShapeWith statements (nonce.map Prod.fst) =
      .ok (sizedShape numFolds logSize statements) := by
    refine nodeShapeWith_ok_iff.mpr ⟨numFolds, made, derives, ?_, by rw [size]⟩
    intro st own
    exact ⟨(moves st own).1, (moves st own).2, size ▸ size_le⟩
  have folded := RecursiveVerifier.buildTraceMulti_eq made.rounds_length
    (nodeLogSize_fits made large).2.1 made.queries_some
  have climbed : ∃ rows, MerklePathT8.buildTraceMultiRaw (nodeOpenings statements) logSize =
      .ok (rows, (nodeClaims statements).map PathClaim.root) := by
    rw [← reached]
    exact ⟨_, valid.build_eq (MerklePathT8.indexed_positions _ valid.bits_match) []⟩
  have committed : checkCommitted statements ((nodeClaims statements).map PathClaim.root) =
      .ok () := by
    rw [checkCommitted]
    split
    case isFalse => rfl
    case isTrue =>
      have expected := (treeNodeExpectedRoots_iff made.shaped).mpr ⟨commits, rfl⟩
      rw [expected, ok_bind, checkAll_ok_iff_at]
      intro i root found
      rw [Nat.zero_add, rootFault, found]
      dsimp only
      rw [if_neg (not_not.mpr rfl)]
  have pinned := (made.paths_wellFormed large).preproc
  rcases climbed with ⟨rows, climbed⟩
  rcases traced with ⟨traces, traced⟩
  have paths : (sizedShape numFolds logSize statements).paths
      ((nodeClaims statements).map PathClaim.root) = PathClaim.paths (nodeClaims statements) :=
    shapeOf_paths made.shaped
  have small : ¬ maxLog < (sizedShape numFolds logSize statements).logSize :=
    Nat.not_lt.mpr size_le
  rw [prepareTreeNodeWithNonce, shaped, ok_bind, if_neg small]
  refine bind_succeeds_at folded (bind_succeeds_at climbed ?_)
  refine bind_succeeds_at (landings_pass made) (bind_succeeds_at committed ?_)
  refine bind_succeeds_at (paths ▸ pinned) (bind_succeeds_at traced ?_)
  exact ⟨_, rfl⟩

end Prepared

/-- Canonical queries, and a transition whose direction bits are the digits of
its slots, leave nothing to chance: whatever is prepared satisfies every circuit
over the columns that the verifier rebuilds.  Where every child carries its
inputs the paths reach exactly the expected roots, and some proof is accepted
at the size of the node. -/
theorem prepared_node_accepted {statements : List TreeStatement} {nonce : Option NonceWitness}
    {node : PreparedNode} (prepared : prepareTreeNodeWithNonce statements nonce = .ok node)
    (canonical : ∀ query ∈ allQueries statements, query.1.Canonical ∧
      ∀ foldRound ∈ query.2, foldRound.Canonical)
    (digits : ∀ w ∈ nonce, ∀ t ∈ w.2, t.bits = Merkle.indexBits w.1.depth t.index) :
    node.Satisfied ∧
      node.shape.canonicalTree node.runs node.roots (nonce.map Prod.fst) = .ok node.preproc ∧
      ((∀ st ∈ statements, st.inputs.isSome) →
        treeNodeExpectedRoots statements = .ok node.roots ∧
          ∀ system : Bool → ProofSystem Preproc,
            (system nonce.isSome).Complete (Satisfiable nonce.isSome) →
            ∃ proofBytes, verifyNode system proofBytes node.shape.logSize statements
              (nonce.map Prod.fst) = .ok true) := by
  rcases prepared_as prepared with ⟨numFolds, logSize, parts⟩
  have satisfied := parts.satisfied canonical digits
  refine ⟨satisfied, parts.rebuilt, ?_⟩
  intro known
  exact ⟨parts.expected known, fun system complete => parts.accepted complete known satisfied⟩

/-! ## Two children -/

theorem drawn_canonical {elements : ℕ} {chan : P2T8Channel} (ready : chan.Ready (elements + 1)) :
    (limbs chan.drawSecureFelt.1).All Canonical := by
  rcases (P2T8Channel.drawSecureFelt_spec ready).1 with ⟨felt, drawn⟩
  rw [drawn, ← packed_quadOf]
  exact RecursiveVerifier.canonical_packed _

theorem childQuery_canonical (traceRoot : Bytes32) : (childQuery traceRoot).1.Canonical ∧
    ∀ foldRound ∈ (childQuery traceRoot).2, foldRound.Canonical := by
  have start := @P2T8Channel.mixRootFull_ready 0 _ ⟨P2T8Channel.init_cells, Nat.zero_le _⟩ traceRoot
  have drawn := (P2T8Channel.drawSecureFelt_spec start).2
  have comp := (P2T8Channel.drawSecureFelt_spec drawn).2
  have mixed := P2T8Channel.mixU32s_ready comp
    (List.forall_mem_append.mpr ⟨qm31Words_lt 4, qm31Words_lt 5⟩)
  have rooted := P2T8Channel.mixRootW_ready mixed (childCompRoot traceRoot)
  have folded := (P2T8Channel.drawSecureFelt_spec rooted).2
  have layered := P2T8Channel.mixRootW_ready folded childLayer
  constructor
  · exact ⟨canonical_small (by decide : 1 < P), canonical_small (by decide : 2 < P),
      drawn_canonical start, canonical_small (by decide : 4 < P), canonical_small (by decide : 5 < P),
      drawn_canonical rooted, (by decide : Canonical (3 : UInt32).toNat),
      (by decide : Canonical (8 : UInt32).toNat)⟩
  · intro foldRound member
    rw [List.mem_singleton.mp member]
    exact ⟨canonical_small (by decide : 6 < P), drawn_canonical layered,
      (by decide : Canonical (9 : UInt32).toNat)⟩

theorem children_reach : Reaches children := by
  have committed (traceRoot : Bytes32) : (child traceRoot).committed =
      (p2t8NodeWords (childLast traceRoot), p2t8NodeWords (childCompRoot traceRoot)) := rfl
  apply forall_nodePaths
  case finals =>
    intro st listed opened own
    rcases child_of_mem listed with ⟨traceRoot, rfl⟩
    rw [child_opened] at own
    rw [List.mem_singleton.mp own, committed, childLast, packed_root]
    rfl
  case pos =>
    intro st listed opened own
    rcases child_of_mem listed with ⟨traceRoot, rfl⟩
    rw [child_opened] at own
    rw [List.mem_singleton.mp own, committed, childCompRoot, packed_root, posClaim]
    dsimp only
    rw [(childQuery_leaves traceRoot).1]
  case neg =>
    intro st listed opened own
    rcases child_of_mem listed with ⟨traceRoot, rfl⟩
    rw [child_opened] at own
    rw [List.mem_singleton.mp own, committed, childCompRoot, packed_root, negClaim]
    dsimp only
    rw [(childQuery_leaves traceRoot).2, ← pair_root]
  case members =>
    intro st listed m own
    rcases child_of_mem listed with ⟨traceRoot, rfl⟩
    cases own
    rfl

/-- A transition of the two children's node: two slots of an empty tree are used. -/
structure ChildrenMove (w : NonceWitness) : Prop where
  count : w.2.length = 2
  digits : ∀ t ∈ w.2, t.bits = Merkle.indexBits w.1.depth t.index
  prepared : ∃ node, prepareTreeNodeWithNonce children (some w) = .ok node

theorem children_prepared : ∃ w, ChildrenMove w := by
  rcases NonceUpdateT8.fourSlots_used with
    ⟨after, transitions, -, length, admissible, chained, digits⟩
  have commits : ∀ st ∈ children, ∃ inp, st.Commits inp := by
    intro st member
    rcases child_of_mem member with ⟨traceRoot, rfl⟩
    exact ⟨_, (child_replays traceRoot).commits⟩
  have derives : ∀ st ∈ children, ∃ derived, st.Derives 1 derived := by
    intro st member
    rcases child_of_mem member with ⟨traceRoot, rfl⟩
    exact (derives_iff_replays (child_replays traceRoot).commits).mpr ⟨_, _, child_replays traceRoot⟩
  generalize stated : NonceUpdateT8.statementOf transitions NonceUpdateT8.fourSlots.root after.root
    2 = st
  have depth : st.depth = 2 := stated ▸ rfl
  have count : st.updates.length = 2 := by
    rw [← stated]
    exact (List.length_map _).trans length
  have size : sizeWith children 1 (some st) ≤ maxLog := by
    rw [sizeWith, count, depth]
    refine max_le (children_logSize_le.trans (by decide)) ?_
    exact growLogSize_le (by decide : max 2 1 * max 2 1 * 22 ≤ 2 ^ maxLog) (by decide)
  have rows : transitions.length * 2 * 22 ≤ 2 ^ sizeWith children 1 (some st) := by
    have own : nonceLogSize 2 2 ≤ sizeWith children 1 (some st) := by
      rw [sizeWith, count, depth]
      exact le_max_right _ _
    have grown := rows_le_growLogSize (max 2 1 * max 2 1 * 22) 5
    rw [length]
    exact (by decide : 2 * 2 * 22 ≤ max 2 1 * max 2 1 * 22).trans
      (grown.trans (Nat.pow_le_pow_right Nat.two_pos own))
  have moves : st.updates ≠ [] ∧ NonceUpdateT8.Public st := by
    refine ⟨List.ne_nil_of_length_pos (by omega), ?_⟩
    rw [← stated]
    exact admissible.isPublic chained
  have traced : ∃ traces, nonceTraces (sizeWith children 1 (some st)) (some (st, transitions)) =
      .ok traces := by
    rcases admissible.accepts chained rows with ⟨main, preproc, checked⟩
    rw [stated] at checked
    rw [nonceTraces, checked]
    exact ⟨_, rfl⟩
  refine ⟨(st, transitions), length, depth ▸ digits, ?_⟩
  exact prepare_succeeds children_attest.node derives commits children_reach
    (by rintro own ⟨⟩; exact moves) size traced

theorem children_proved : ∃ w node, w.2.length = 2 ∧
    prepareTreeNodeWithNonce children (some w) = .ok node ∧ node.Satisfied ∧
    ∃ proofBytes, verifyNode (fun circuits => .oracle (Satisfiable circuits)) proofBytes
      node.shape.logSize children (some w.1) = .ok true := by
  rcases children_prepared with ⟨w, move⟩
  rcases move.prepared with ⟨node, prepared⟩
  have canonical : ∀ query ∈ allQueries children, query.1.Canonical ∧
      ∀ foldRound ∈ query.2, foldRound.Canonical := by
    intro query member
    rcases List.mem_flatMap.mp member with ⟨st, listed, own⟩
    rcases child_of_mem listed with ⟨traceRoot, rfl⟩
    rw [List.mem_singleton.mp own]
    exact childQuery_canonical traceRoot
  have digits : ∀ other ∈ some w, ∀ t ∈ other.2,
      t.bits = Merkle.indexBits other.1.depth t.index := by
    rintro other ⟨⟩
    exact move.digits
  rcases prepared_node_accepted prepared canonical digits with ⟨satisfied, -, known⟩
  have inputs : ∀ st ∈ children, st.inputs.isSome := by
    intro st member
    rcases child_of_mem member with ⟨traceRoot, rfl⟩
    rfl
  exact ⟨w, node, move.count, prepared, satisfied,
    (known inputs).2 (fun circuits => .oracle (Satisfiable circuits)) (ProofSystem.oracle_complete _)⟩

end TreeNode
end Recursive
end QLSA
