import QLSA.Recursive.CheckedTrace
import QLSA.Recursive.CompositionT8
import QLSA.Recursive.FoldInputs
import QLSA.Recursive.FoldTrace
import QLSA.Recursive.MerklePathT8Trace
import QLSA.Recursive.RebuiltColumns
import QLSA.Stwo.BatchTree
import QLSA.Vfri2.Transcript

namespace QLSA
namespace Recursive
namespace TreeNode

open Hash Mersenne Qm31 Stwo Vfri2
open Machine (checkAll)
open ChannelT8 (Step ChannelRun)
open CompositionT8 (qm31LeafHashT8)
open NonceUpdateT8 (nonceNodeWords)
open RecursiveVerifier (FoldRound QueryChallenges StepOp queryChallenges)

/-!
# Nodes of the aggregation tree

A node joins the fold chains, the paths and the transcripts of its children in
one trace; the root may carry a nonce transition as a fourth circuit.  Both
sides derive everything public from the statements of the children.  The
verifier takes the roots of the paths from what the children committed to, and
uses the siblings of a statement for their number alone.
-/

deriving instance DecidableEq for ChallengeLayout

/-! ## Statements -/

/-- The group of columns that a tree proves. -/
inductive Group
  | log10
  | log8
  deriving DecidableEq

/-- Membership of a transaction in the batch. -/
structure BatchMembership where
  txId : Quad ℕ
  tr10 : Quad ℕ
  tr8 : Quad ℕ
  side : Group
  sibs : List (Quad ℕ)
  bits : List Bool
  batchRoot : Quad ℕ

namespace BatchMembership

variable (m : BatchMembership)

/-- The two compressions of the leaf, then the path of the batch. -/
def path : List (Quad ℕ) × List Bool :=
  let first := match m.side with
    | .log10 => (m.tr8, false)
    | .log8 => (m.tr10, true)
  (first.1 :: m.txId :: leafDomain :: m.sibs, first.2 :: true :: true :: m.bits)

/-- The trace root of the tree's own group. -/
def start : Quad ℕ :=
  match m.side with
  | .log10 => m.tr10
  | .log8 => m.tr8

def depth : ℕ := 3 + m.sibs.length

end BatchMembership

/-- A child of a node: the transcript it ran as steps, the place of each challenge among its
draws, its queries with their opening paths, and, where it has them, its membership in a batch and
the public inputs of its transcript. -/
structure TreeStatement where
  steps : List Step
  layout : ChallengeLayout
  queries : List (StepOp × List FoldRound)
  paths : List (List (Quad ℕ) × List Bool)
  compPaths : List CompMembership
  membership : Option BatchMembership
  inputs : Option Vfri11ChannelInputs

/-- What a query opens, with its folds. -/
abbrev QueryPaths := (StepOp × List FoldRound) × (List (Quad ℕ) × List Bool) × CompMembership

namespace TreeStatement

variable (st : TreeStatement)

/-- Depths of the first paths, which the others must share. -/
def depth : ℕ := (st.paths.headD ([], [])).1.length

def compDepth : ℕ := (st.compPaths.headD ⟨[], [], [], []⟩).posSibs.length

/-- The queries with their paths. -/
def opened : List QueryPaths := st.queries.zip (st.paths.zip st.compPaths)

end TreeStatement

/-! ## The shape of a node -/

/-- The loop that reads the depths. -/
def depthFault (i : ℕ) (st : TreeStatement) : Option String :=
  if st.paths = [] ∨ st.compPaths = [] then some s!"statement {i} has no paths"
  else if st.depth = 0 ∨ st.compDepth = 0 then
    some s!"statement {i}: both path depths must be ≥ 1"
  else if MerklePathT8.maxDepth < st.depth ∨ MerklePathT8.maxDepth < st.compDepth then
    some s!"statement {i}: a path depth exceeds MAX_DEPTH {MerklePathT8.maxDepth}"
  else none

/-- The loop over the queries of a statement.  A query has the number of folds and the depths of its
statement, and its challenges are those the transcript of the statement gives; the first
difference, in the order of the source, is the refusal. -/
def queryFault (i numFolds depth compDepth : ℕ) (derived : DerivedChallenges) (q : ℕ)
    (opened : QueryPaths) : Option String :=
  let (query, path, comp) := opened
  let ch := queryChallenges query.1 query.2
  if query.2.length ≠ numFolds then
    some s!"statement {i} query {q} has {query.2.length} fold rounds, expected {numFolds}"
  else if path.1.length ≠ depth ∨ path.2.length ≠ depth then
    some s!"statement {i} query {q}: final-fold path is not depth {depth}"
  else if comp.posSibs.length ≠ compDepth ∨ comp.posBits.length ≠ compDepth ∨
      comp.negSibs.length ≠ compDepth ∨ comp.negBits.length ≠ compDepth then
    some s!"statement {i} query {q}: composition paths are not depth {compDepth}"
  else if ch.zX ≠ derived.zX then
    some s!"statement {i} query {q}: z_x does not match its transcript's"
  else if ch.alphas ≠ derived.alphas then
    some s!"statement {i} query {q}: fold challenges do not match its transcript's"
  else none

/-- The loop over the statements.  The challenges are derived from the steps of the statement
itself, so a statement is refused where they cannot be drawn or where its queries name others. -/
def statementFault (numFolds i : ℕ) (st : TreeStatement) : Option String :=
  if st.queries = [] then some s!"statement {i} has no queries"
  else if st.paths.length ≠ st.queries.length ∨ st.compPaths.length ≠ st.queries.length then
    some s!"statement {i}: paths/comp_paths do not match its query count"
  else if st.layout.alphaAt.length ≠ 1 + numFolds then
    some (s!"statement {i}'s layout names {st.layout.alphaAt.length} alphas, " ++
      s!"expected {1 + numFolds}")
  else
    match deriveChallenges st.steps st.layout with
    | .error e => some e
    | .ok derived =>
        match checkAll (queryFault i numFolds st.depth st.compDepth derived) 0 st.opened with
        | .error e => some e
        | .ok () => none

def membershipFault (_ : ℕ) (m : BatchMembership) : Option String :=
  if m.sibs.length ≠ m.bits.length then some "membership: siblings and bits differ in length"
  else if MerklePathT8.maxDepth < m.depth then
    some s!"membership path depth {m.depth} exceeds MAX_DEPTH {MerklePathT8.maxDepth}"
  else none

/-- `channel::compute_log_size_multi` -/
def channelLogSize (transcripts : List (List Step)) : ℕ :=
  max (growLogSize (max (ChannelT8.totalBlocks transcripts * 22) 1) 1) 5

/-- `channel::MAX_LOG_SIZE` -/
def channelMaxLogSize : ℕ := 24

/-- `recursive_verifier::compute_log_size` -/
def foldLogSize (rows : ℕ) : ℕ := growLogSize (max rows 1) RecursiveVerifier.minLogSize

/-- `nonce_update_t8_air::compute_log_size` -/
def nonceLogSize (updates depth : ℕ) : ℕ := growLogSize (max updates 1 * max depth 1 * 22) 5

/-- What both sides derive from the statements. -/
structure NodeShape where
  numFolds : ℕ
  depth : ℕ
  compDepth : ℕ
  logSize : ℕ
  challenges : List QueryChallenges
  finals : List ℕ
  leaves : List (Quad ℕ)
  sibs : List (List (Quad ℕ))
  bits : List (List Bool)
  indices : List ℕ
  depths : List ℕ
  transcripts : List (List Step)
  queries : List (StepOp × List FoldRound)
  counts : List ℕ

section Derived

variable (statements : List TreeStatement)

def allQueries : List (StepOp × List FoldRound) := statements.flatMap TreeStatement.queries

def memberships : List BatchMembership := statements.filterMap TreeStatement.membership

/-- All final folds, all composition values, all of their partners, all starts
of memberships. -/
def nodeLeaves : List (Quad ℕ) :=
  let challenges := RecursiveVerifier.allChallenges (allQueries statements)
  (RecursiveVerifier.recursiveQueriesFinal (allQueries statements)).map qm31LeafHashT8 ++
    challenges.map (fun ch => qm31LeafHashT8 ch.compPos) ++
    challenges.map (fun ch => qm31LeafHashT8 ch.compNeg) ++
    (memberships statements).map BatchMembership.start

def nodeSibs : List (List (Quad ℕ)) :=
  statements.flatMap (fun st => st.paths.map Prod.fst) ++
    statements.flatMap (fun st => st.compPaths.map CompMembership.posSibs) ++
    statements.flatMap (fun st => st.compPaths.map CompMembership.negSibs) ++
    (memberships statements).map fun m => m.path.1

def nodeBits : List (List Bool) :=
  statements.flatMap (fun st => st.paths.map Prod.snd) ++
    statements.flatMap (fun st => st.compPaths.map CompMembership.posBits) ++
    statements.flatMap (fun st => st.compPaths.map CompMembership.negBits) ++
    (memberships statements).map fun m => m.path.2

def nodeDepths : List ℕ :=
  let composed := statements.flatMap fun st => List.replicate st.queries.length st.compDepth
  statements.flatMap (fun st => List.replicate st.queries.length st.depth) ++
    composed ++ composed ++ (memberships statements).map BatchMembership.depth

def nodeLogSize (numFolds : ℕ) : ℕ :=
  max (max (channelLogSize (statements.map TreeStatement.steps))
    (foldLogSize ((allQueries statements).length * (1 + numFolds))))
    (MerklePathT8.computeLogSizeMultiVar (nodeDepths statements))

end Derived

/-- `node_shape`: every check of the statements that needs no proof, in the order of the source,
and what prover and verifier derive from them.  The texts of the errors are the source's. -/
def nodeShape (statements : List TreeStatement) : Except String NodeShape :=
  match statements with
  | [] => .error "a node needs ≥ 1 child statement"
  | first :: _ =>
      match first.queries with
      | [] => .error "a statement needs ≥ 1 query"
      | (_, rounds) :: _ =>
          let numFolds := rounds.length
          if RecursiveVerifier.maxNumFolds < numFolds then
            .error s!"num_folds {numFolds} exceeds MAX_NUM_FOLDS {RecursiveVerifier.maxNumFolds}"
          else do
            checkAll depthFault 0 statements
            checkAll (statementFault numFolds) 0 statements
            let queries := allQueries statements
            if RecursiveVerifier.maxQueries < queries.length then
              .error (s!"total query count {queries.length} exceeds MAX_QUERIES " ++
                s!"{RecursiveVerifier.maxQueries}")
            else
              let indices ← (nodeBits statements).mapM MerklePathT8.bitsToIndex
              checkAll membershipFault 0 (memberships statements)
              return {
                numFolds := numFolds
                depth := first.depth
                compDepth := first.compDepth
                logSize := nodeLogSize statements numFolds
                challenges := RecursiveVerifier.allChallenges queries
                finals := RecursiveVerifier.recursiveQueriesFinal queries
                leaves := nodeLeaves statements
                sibs := nodeSibs statements
                bits := nodeBits statements
                indices := indices
                depths := nodeDepths statements
                transcripts := statements.map TreeStatement.steps
                queries := queries
                counts := statements.map fun st => st.queries.length }

/-- The largest size that every circuit takes. -/
def maxLog : ℕ :=
  min (min RecursiveVerifier.maxLogSize MerklePathT8.maxLogSize) channelMaxLogSize

/-- The shape of a node that may carry a transition.  The transition has to pass its public checks,
to move something, and to fit the size cap; the node then takes the larger of the two sizes. -/
def nodeShapeWith (statements : List TreeStatement) (nonce : Option (NonceStatement (Quad ℕ))) :
    Except String NodeShape := do
  let sh ← nodeShape statements
  match nonce with
  | none => return sh
  | some st =>
      match st.checkPublic with
      | some reason => .error s!"nonce statement: {reason}"
      | none =>
          if st.updates = [] then .error "an empty nonce statement moves nothing; pass None"
          else
            let logSize := max sh.logSize (nonceLogSize st.updates.length st.depth)
            if maxLog < logSize then .error s!"tree node log_size {logSize} too large"
            else return { sh with logSize := logSize }

/-! ## The roots of the paths -/

/-- Words of the last layer root and of the composition root of a child that runs under its own
transcript: one pass of the loop of `tree_node_expected_roots`.  A root of a membership is
compared with the seed of the transcript after packing, which keeps the low half of each word. -/
def TreeStatement.committedRoots : TreeStatement × ℕ → Except String (Quad ℕ × Quad ℕ)
  | (st, i) =>
    match st.inputs with
    | none => .error (s!"statement {i} carries no channel inputs — its committed roots are " ++
        "unknown, so it cannot be verified")
    | some inp => do
        let steps ← vfri11TranscriptSteps inp
        let numFolds := inp.friLayerRoots.length - 1
        if steps ≠ st.steps then
          .error s!"statement {i}: steps are not the transcript of its inputs"
        else if st.layout ≠ vfri11ChallengeLayout numFolds then
          .error s!"statement {i}: layout is not VFRI11's for {numFolds} folds"
        else if st.queries.length ≠ inp.nQueries then
          .error (s!"statement {i}: {st.queries.length} queries, but its transcript draws " ++
            s!"{inp.nQueries}")
        else
          let roots := (p2t8NodeWords (inp.friLayerRoots.getLastD 0),
            p2t8NodeWords inp.compRoot)
          match st.membership with
          | none => return roots
          | some m =>
              if p2t8Pack m.batchRoot ≠ inp.batchRoot then
                .error (s!"statement {i}: its membership claims batch root " ++
                  s!"{m.batchRoot.toList}, but the leaf was proved under a different seed — not " ++
                  "a member of that batch")
              else return roots

def treeNodeExpectedRoots (statements : List TreeStatement) : Except String (List (Quad ℕ)) := do
  let committed ← statements.zipIdx.mapM TreeStatement.committedRoots
  let each := statements.zip committed
  let last := each.flatMap fun (st, roots) => List.replicate st.queries.length roots.1
  let comp := each.flatMap fun (st, roots) => List.replicate st.queries.length roots.2
  return last ++ comp ++ comp ++ (memberships statements).map BatchMembership.batchRoot

/-! ## The verifier -/

/-- The preprocessed columns of a node; the last circuit is in a root only. -/
structure Preproc where
  rv : ℕ → RecursiveVerifier.PreprocRow
  merkle : ℕ → MerklePathT8.PreprocRow
  channel : ℕ → ChannelT8.PreprocRow
  nonce : Option Columns

/-- Columns of the circuits in use, each of them with satisfying main columns. -/
structure Satisfiable (withNonce : Bool) (logSize : ℕ) (preproc : Preproc) : Prop where
  circuits : preproc.nonce.isSome = withNonce
  rv : ∃ main, RecursiveVerifier.Satisfies main preproc.rv logSize
  merkle : ∃ main, MerklePathT8.Satisfies main preproc.merkle logSize
  channel : ∃ main, ChannelT8.Satisfies main preproc.channel logSize
  nonce : ∀ columns ∈ preproc.nonce, ∃ main, NonceUpdateT8.Satisfies main columns logSize

namespace NodeShape

variable (sh : NodeShape) (runs : List ChannelRun) (roots : List (Quad ℕ))

def paths : MerklePathT8.Paths := ⟨sh.leaves, sh.indices, roots, sh.depths⟩

/-- The columns under `canonical_tree_root`. -/
def canonicalTree (nonce : Option (NonceStatement (Quad ℕ))) : Except String Preproc := do
  let rv ← RecursiveVerifier.buildPreproc sh.finals sh.challenges sh.numFolds sh.logSize
  let merkle ← (sh.paths roots).buildPreprocMultiVar sh.logSize
  let channel := ChannelT8.buildPreprocMulti sh.transcripts runs sh.logSize
  match nonce with
  | none => return ⟨rv, merkle, channel, none⟩
  | some st =>
      let columns ← NonceUpdateT8.buildPreproc (st.pinnedUpdates nonceNodeWords) st.depth sh.logSize
      return ⟨rv, merkle, channel, some columns⟩

/-- The words that `mix_public_tree` absorbs for the node itself. -/
def publicWords : List ℕ :=
  [sh.queries.length, sh.depth, sh.compDepth, sh.counts.length] ++
    (sh.counts.zip sh.transcripts).flatMap (fun (count, steps) => [count, steps.length]) ++
    sh.queries.map (fun query => query.1.px.toNat) ++
    sh.finals.flatMap (fun final => (limbs final).toList) ++
    sh.leaves.flatMap (fun leaf => (norm4 leaf).toList) ++ sh.indices ++
    roots.flatMap (fun root => (norm4 root).toList) ++
    runs.flatMap fun run => (run.digest.map (· % P)).toList

end NodeShape

/-- `"NONC"` -/
def nonceComponentTag : ℕ := 1313820227

/-- The words that `mix_statement` absorbs for a transition. -/
def nonceWordsOf (st : NonceStatement (Quad ℕ)) : List ℕ :=
  [st.updates.length, st.depth] ++ (norm4 st.oldRoot).toList ++ (norm4 st.newRoot).toList ++
    st.updates.flatMap fun u =>
      [u.index, u.oldNonce.val % 2 ^ 32, u.oldNonce.val / 2 ^ 32, u.newNonce.val % 2 ^ 32,
        u.newNonce.val / 2 ^ 32] ++ (norm4 u.postRoot).toList

section Verifier

-- The proof system over three circuits and over four.
variable (system : Bool → ProofSystem Preproc)

def mixPublicTree (circuits : Bool) (sh : NodeShape) (runs : List ChannelRun)
    (roots : List (Quad ℕ)) (nonce : Option (NonceStatement (Quad ℕ)))
    (ch : (system circuits).Channel) : (system circuits).Channel :=
  let mixed := (system circuits).mixU32s ch (sh.publicWords runs roots)
  match nonce with
  | none => mixed
  | some st =>
      (system circuits).mixU32s ((system circuits).mixU32s mixed [nonceComponentTag])
        (nonceWordsOf st)

/-- The verifier behind its checks, with the runs that it computes. -/
def verifyShape (proofBytes : List UInt8) (sh : NodeShape) (roots : List (Quad ℕ))
    (nonce : Option (NonceStatement (Quad ℕ))) : Except String Bool :=
  let runs := (ChannelT8.buildTraceMultiRaw sh.transcripts sh.logSize).2
  (system nonce.isSome).verifyAgainst (fun e => s!"tree node deserialize error: {e}")
    (fun few => s!"malformed proof: expected ≥ 2 commitments, got {few}") sh.logSize
    (sh.canonicalTree runs roots nonce)
    (mixPublicTree system nonce.isSome sh runs roots nonce) proofBytes

def verifyTreeNodePinned (proofBytes : List UInt8) (logSize : ℕ) (statements : List TreeStatement)
    (roots : List (Quad ℕ)) (nonce : Option (NonceStatement (Quad ℕ))) : Except String Bool := do
  let sh ← nodeShapeWith statements nonce
  if logSize ≠ sh.logSize then .error s!"log_size {logSize} is not canonical for this node"
  else if roots.length ≠ sh.depths.length then
    .error s!"expected {sh.depths.length} roots, got {roots.length}"
  else verifyShape system proofBytes sh roots nonce

def verifyTreeNode (proofBytes : List UInt8) (logSize : ℕ) (statements : List TreeStatement) :
    Except String Bool := do
  let roots ← treeNodeExpectedRoots statements
  verifyTreeNodePinned system proofBytes logSize statements roots none

def verifyTreeNodeWithNonce (proofBytes : List UInt8) (logSize : ℕ)
    (statements : List TreeStatement) (nonce : NonceStatement (Quad ℕ)) : Except String Bool := do
  let roots ← treeNodeExpectedRoots statements
  verifyTreeNodePinned system proofBytes logSize statements roots (some nonce)

end Verifier

end TreeNode
end Recursive
end QLSA
