import QLSA.Recursive.TreeNodeProver
import QLSA.Vfri2.ExtractedQueries

namespace QLSA
namespace Recursive
namespace TreeNode

open Hash Mersenne Qm31 Stwo Vfri2
open Machine (bind_eq_ok checkAll checkAll_ok_iff mapError_ok)
open CompositionT8 (qm31LeafHashT8)
open RecursiveVerifier (FoldRound StepOp queryChallenges recursiveQueryFinal)

/-!
# Statements made from columns

The level step of the tree turns the columns of a proof into the statement that
the next level verifies.  The queries and the transcript come from one run of
the chain, so the challenges of the queries are those that the transcript
yields, and the comparison of the two never fails.  Only the start of a
membership can differ from the trace root of the columns.
-/

/-! ## The level step -/

/-- The comparison of a query with the transcript. -/
def driftFault (derived : DerivedChallenges) (q : ℕ) (query : StepOp × List FoldRound) :
    Option String :=
  let ch := queryChallenges query.1 query.2
  if ch.zX ≠ derived.zX then
    some (s!"query {q}: the extracted z_x is not the transcript's — the two " ++
      "derivations have drifted")
  else if ch.alphas ≠ derived.alphas then
    some s!"query {q}: the extracted fold challenges are not the transcript's"
  else none

/-- The membership of the columns starts at their own trace root. -/
def checkStart (traceRoot : Bytes32) : Option BatchMembership → Except String Unit
  | none => .ok ()
  | some m =>
      let own := p2t8NodeWords traceRoot
      if m.start ≠ own then
        .error (s!"membership claims trace root {m.start.toList} but these columns commit to " ++
          s!"{own.toList} —                  the leaf does not describe this proof")
      else .ok ()

/-- `tree_statement_from_columns`: the extraction, the transcript as steps, and two comparisons,
of the challenges of every query with those of the transcript, and of the start of the membership
with the trace root. -/
def treeStatementFromColumns (cols : List (List UInt32)) (treeDepth : ℕ)
    (batchMerkleRoot : List UInt8) (nQueries : ℕ) (numFolds : Option ℕ)
    (membership : Option BatchMembership) : Except String TreeStatement := do
  let rec ← (genVfri11RecursionInputs cols treeDepth batchMerkleRoot nQueries
    numFolds).mapError ChainError.message
  match rec.queries with
  | [] => .error "index out of bounds"
  | (_, rounds) :: _ =>
      let steps ← vfri11TranscriptSteps rec.channelInputs
      let layout := vfri11ChallengeLayout rounds.length
      let derived ← deriveChallenges steps layout
      checkAll (driftFault derived) 0 rec.queries
      checkStart rec.traceRoot membership
      return {
        steps := steps
        layout := layout
        queries := rec.queries
        paths := rec.paths
        compPaths := rec.compPaths
        membership := membership
        inputs := some rec.channelInputs }

/-! ## What a statement stands for -/

/-- A query of a statement, opened under the challenges and roots of a chain. -/
structure OpenedOn (ch : Vfri11Chain) (treeDepth : ℕ) (opened : QueryPaths) : Prop where
  fits : Fits ch.numFolds (treeDepth - ch.numFolds) treeDepth opened
  canonical : opened.1.1.Canonical ∧ ∀ foldRound ∈ opened.1.2, foldRound.Canonical
  runs : RunsUnder ch.zX (ch.friAlpha :: ch.friAlphas) opened.1
  final : merklePathRootT8 (qm31LeafHashT8 (recursiveQueryFinal opened.1.1 opened.1.2))
    opened.2.1.1 opened.2.1.2 = p2t8NodeWords (ch.layerRoots.getLastD 0)
  pos : merklePathRootT8 (qm31LeafHashT8 (queryChallenges opened.1.1 opened.1.2).compPos)
    opened.2.2.posSibs opened.2.2.posBits = p2t8NodeWords ch.compRoot
  neg : merklePathRootT8 (qm31LeafHashT8 (queryChallenges opened.1.1 opened.1.2).compNeg)
    opened.2.2.negSibs opened.2.2.negBits = p2t8NodeWords ch.compRoot

/-- A statement of a chain: it carries what the chain publishes, its transcript
yields the challenges of its queries, and every query opens the chain. -/
structure TreeStatement.StandsFor (st : TreeStatement) (ch : Vfri11Chain) (treeDepth : ℕ)
    (batchMerkleRoot : List UInt8) (nQueries : ℕ) : Prop where
  inputs : st.inputs = some (ch.published treeDepth batchMerkleRoot nQueries)
  steps : vfri11TranscriptSteps (ch.published treeDepth batchMerkleRoot nQueries) = .ok st.steps
  layout : st.layout = vfri11ChallengeLayout ch.numFolds
  derives : ∃ derived, deriveChallenges st.steps st.layout = .ok derived ∧ derived.zX = ch.zX ∧
    derived.alphas = ch.friAlpha :: ch.friAlphas
  asked : 1 ≤ nQueries ∧ nQueries ≤ 64
  folds : ch.layerRoots.length = ch.numFolds + 1 ∧ ch.numFolds < treeDepth
  queries : st.queries.length = nQueries
  paths : st.paths.length = nQueries
  compPaths : st.compPaths.length = nQueries
  opened : ∀ opened ∈ st.opened, OpenedOn ch treeDepth opened

section Made

variable {cols : List (List UInt32)} {treeDepth nQueries : ℕ} {batchMerkleRoot : List UInt8}
  {numFolds : Option ℕ} {membership : Option BatchMembership} {ch : Vfri11Chain}
  {st : TreeStatement}

theorem driftFault_iff {derived : DerivedChallenges} {q : ℕ}
    {query : StepOp × List FoldRound} :
    driftFault derived q query = none ↔ RunsUnder derived.zX derived.alphas query := by
  unfold driftFault RunsUnder
  dsimp only
  constructor
  · intro faultless
    split_ifs at faultless with zX alphas
    exact ⟨not_not.mp zX, not_not.mp alphas⟩
  · rintro ⟨zX, alphas⟩
    rw [if_neg (not_not.mpr zX), if_neg (not_not.mpr alphas)]

theorem checkDrift_iff {derived : DerivedChallenges} {q : ℕ}
    {list : List (StepOp × List FoldRound)} :
    checkAll (driftFault derived) q list = .ok () ↔
      ∀ query ∈ list, RunsUnder derived.zX derived.alphas query := by
  apply checkAll_ok_iff
  intro q query
  exact driftFault_iff

theorem checkStart_iff {traceRoot : Bytes32} :
    checkStart traceRoot membership = .ok () ↔
      ∀ m ∈ membership, m.start = p2t8NodeWords traceRoot := by
  cases membership with
  | none => exact ⟨fun _ => nofun, fun _ => rfl⟩
  | some m =>
      rw [checkStart]
      split_ifs with other
      case pos => exact ⟨nofun, fun starts => absurd (starts m rfl) other⟩
      case neg =>
        refine ⟨fun _ own same => ?_, fun _ => rfl⟩
        rw [← Option.some.inj same]
        exact not_not.mp other

theorem vfri11FriChain_traceRoot
    (done : vfri11FriChain cols treeDepth batchMerkleRoot nQueries numFolds = .ok ch) :
    traceRootOf t8Backend cols treeDepth = .ok ch.traceRoot := by
  rcases bind_eq_ok.mp done with ⟨_, -, next⟩
  rcases bind_eq_ok.mp next with ⟨traceRoot, traced, next⟩
  rcases bind_eq_ok.mp next with ⟨compLevels, -, next⟩
  rcases bind_eq_ok.mp next with ⟨l1Values, -, next⟩
  rcases bind_eq_ok.mp next with ⟨l1Levels, -, next⟩
  rcases bind_eq_ok.mp next with ⟨folds, -, next⟩
  rcases bind_eq_ok.mp next with ⟨folded, -, finished⟩
  cases finished
  exact traced

/-- The transcript of a chain yields its challenges. -/
theorem chain_derives
    (done : vfri11FriChain cols treeDepth batchMerkleRoot nQueries numFolds = .ok ch) :
    ∃ steps derived, vfri11TranscriptSteps (ch.published treeDepth batchMerkleRoot nQueries) =
        .ok steps ∧
      deriveChallenges steps (vfri11ChallengeLayout ch.numFolds) = .ok derived ∧
      derived.zX = ch.zX ∧ derived.alphas = ch.friAlpha :: ch.friAlphas := by
  have built := vfriFriChain_built t8Draws done
  rcases bind_eq_ok.mp done with ⟨passed, checked, -⟩
  have queries := checkInputs_queries checked
  rcases vfri11FriChain_replayed done with ⟨first, roots, listed, count, -, replayed⟩
  have folds := built.folds
  have depth := built.depth_le
  generalize published : ch.published treeDepth batchMerkleRoot nQueries = inp at *
  have own : inp.friLayerRoots = first :: roots := by
    rw [← published]
    exact listed
  have asked : inp.nQueries = nQueries := by
    rw [← published]
    rfl
  have transcript : ∃ steps, vfri11TranscriptSteps inp = .ok steps ∧
      steps.length ≤ maxSteps := by
    have asks : ¬ inp.nQueries = 0 := by omega
    refine ⟨_, by rw [vfri11TranscriptSteps, own]; exact if_neg asks, ?_⟩
    rw [steps_length inp first roots, maxSteps]
    omega
  rcases transcript with ⟨steps, listing, short⟩
  rcases deriveChallenges_of_short own listing short with ⟨derived, run, zX, alphas⟩
  rw [replayed] at zX alphas
  rw [count] at run
  exact ⟨steps, derived, listing, run, zX, alphas⟩

/-- The statement of a chain, when its membership starts at the trace root. -/
theorem treeStatement_made
    (done : vfri11FriChain cols treeDepth batchMerkleRoot nQueries numFolds = .ok ch)
    (starts : ∀ m ∈ membership, m.start = p2t8NodeWords ch.traceRoot) :
    ∃ st, treeStatementFromColumns cols treeDepth batchMerkleRoot nQueries numFolds membership =
      .ok st ∧ st.membership = membership ∧
      st.StandsFor ch treeDepth batchMerkleRoot nQueries := by
  have built := vfriFriChain_built t8Draws done
  rcases bind_eq_ok.mp done with ⟨passed, checked, -⟩
  have asked := checkInputs_queries checked
  rcases vfri11FriChain_replayed done with ⟨first, roots, listed, count, -, -⟩
  rcases genVfri11RecursionInputs_from done with ⟨rec, extracts, from'⟩
  rcases from'.extracted with ⟨extracted, queries, paths, compPaths, length, runs⟩
  rcases chain_derives done with ⟨steps, derived, transcript, run, zX, alphas⟩
  have nonempty : ∃ head tail, extracted = head :: tail := by
    apply List.exists_cons_of_length_pos
    omega
  rcases nonempty with ⟨head, tail, spelled⟩
  have folds : head.query.2.length = ch.numFolds := (runs head (by rw [spelled]; simp)).rounds
  have agrees : checkAll (driftFault derived) 0 rec.queries = .ok () := by
    rw [checkDrift_iff, queries, zX, alphas]
    intro query member
    rcases List.mem_map.mp member with ⟨q, own, rfl⟩
    exact ⟨(runs q own).zX, (runs q own).alphas⟩
  have started : checkStart rec.traceRoot membership = .ok () := by
    rw [checkStart_iff, from'.traceRoot]
    exact starts
  refine ⟨⟨steps, vfri11ChallengeLayout ch.numFolds, rec.queries, rec.paths, rec.compPaths,
    membership, some rec.channelInputs⟩, ?_, rfl, ?_⟩
  · rw [treeStatementFromColumns, extracts, Except.mapError, ok_bind]
    split
    case h_1 none =>
      rw [queries, spelled] at none
      cases none
    case h_2 first rounds rest found =>
      rw [queries, spelled] at found
      have same : head.query = (first, rounds) := (List.cons.inj found).1
      rw [same] at folds
      dsimp only at folds
      rw [from'.channelInputs, transcript, ok_bind, folds]
      dsimp only
      rw [run, ok_bind, agrees, ok_bind, started, ok_bind]
      rfl
  · constructor
    case inputs => exact congrArg Option.some from'.channelInputs
    case steps => exact transcript
    case layout => rfl
    case derives => exact ⟨derived, run, zX, alphas⟩
    case asked => exact asked
    case folds =>
      have bounded := built.folds
      have deep := built.depth_ge
      refine ⟨?_, by omega⟩
      rw [listed, List.length_cons, count]
    case queries =>
      dsimp only
      rw [queries, List.length_map, length]
    case paths =>
      dsimp only
      rw [paths, List.length_map, length]
    case compPaths =>
      dsimp only
      rw [compPaths, List.length_map, length]
    case opened =>
      intro opened member
      rw [TreeStatement.opened] at member
      dsimp only at member
      rw [queries, paths, compPaths, List.zip_map', List.zip_map'] at member
      rcases List.mem_map.mp member with ⟨q, own, rfl⟩
      have runs := runs q own
      exact ⟨⟨runs.rounds, runs.sibs, runs.bits, runs.posSibs, runs.posBits, runs.negSibs,
        runs.negBits⟩, runs.canonical, ⟨runs.zX, runs.alphas⟩, runs.final, runs.pos, runs.neg⟩

/-- What a returned statement stands for. -/
theorem treeStatement_ok (made : treeStatementFromColumns cols treeDepth batchMerkleRoot nQueries
      numFolds membership = .ok st) :
    ∃ ch, vfri11FriChain cols treeDepth batchMerkleRoot nQueries numFolds = .ok ch ∧
      (∀ m ∈ membership, m.start = p2t8NodeWords ch.traceRoot) ∧ st.membership = membership ∧
      st.StandsFor ch treeDepth batchMerkleRoot nQueries := by
  rcases bind_eq_ok.mp made with ⟨rec, extracts, next⟩
  have extracted := mapError_ok.mp extracts
  rcases bind_eq_ok.mp extracted with ⟨ch, done, -⟩
  rcases genVfri11RecursionInputs_from done with ⟨other, again, from'⟩
  have same : rec = other := Except.ok.inj (extracted.symm.trans again)
  subst same
  have starts : ∀ m ∈ membership, m.start = p2t8NodeWords ch.traceRoot := by
    split at next
    case h_1 => cases next
    case h_2 =>
      rcases bind_eq_ok.mp next with ⟨steps, -, next⟩
      rcases bind_eq_ok.mp next with ⟨derived, -, next⟩
      rcases bind_eq_ok.mp next with ⟨_, -, next⟩
      rcases bind_eq_ok.mp next with ⟨_, started, -⟩
      rw [← from'.traceRoot]
      exact checkStart_iff.mp started
  rcases treeStatement_made done starts with ⟨own, remade, carried, stands⟩
  have equal : st = own := Except.ok.inj (made.symm.trans remade)
  subst equal
  exact ⟨ch, done, starts, carried, stands⟩

end Made

/-- A statement is made exactly when the chain is returned and the membership
starts at its trace root: extraction and transcript never drift apart.  It
carries what the chain publishes, its transcript yields the challenges of its
queries, and all paths of its queries lead to the committed roots. -/
theorem statement_from_columns_stands (cols : List (List UInt32)) (treeDepth : ℕ)
    (batchMerkleRoot : List UInt8) (nQueries : ℕ) (numFolds : Option ℕ)
    (membership : Option BatchMembership) :
    ((∃ st, treeStatementFromColumns cols treeDepth batchMerkleRoot nQueries numFolds membership =
        .ok st) ↔
      ∃ ch, vfri11FriChain cols treeDepth batchMerkleRoot nQueries numFolds = .ok ch ∧
        ∀ m ∈ membership, m.start = p2t8NodeWords ch.traceRoot) ∧
      ∀ st, treeStatementFromColumns cols treeDepth batchMerkleRoot nQueries numFolds membership =
        .ok st → ∃ ch, vfri11FriChain cols treeDepth batchMerkleRoot nQueries numFolds = .ok ch ∧
          st.membership = membership ∧ st.StandsFor ch treeDepth batchMerkleRoot nQueries := by
  refine ⟨⟨?_, ?_⟩, ?_⟩
  · rintro ⟨st, made⟩
    rcases treeStatement_ok made with ⟨ch, done, starts, -⟩
    exact ⟨ch, done, starts⟩
  · rintro ⟨ch, done, starts⟩
    rcases treeStatement_made done starts with ⟨st, made, -⟩
    exact ⟨st, made⟩
  · intro st made
    rcases treeStatement_ok made with ⟨ch, done, -, carried, stands⟩
    exact ⟨ch, done, carried, stands⟩

/-- A membership that starts at a trace root. -/
def membershipFrom (traceRoot : Bytes32) : BatchMembership where
  txId := ⟨1, 2, 3, 4⟩
  tr10 := ⟨5, 6, 7, 8⟩
  tr8 := p2t8NodeWords traceRoot
  side := .log8
  sibs := [⟨9, 10, 11, 12⟩]
  bits := [true]
  batchRoot := ⟨13, 14, 15, 16⟩

theorem sample_statement_stands : ∃ ch st,
    vfri11FriChain sampleCols 2 (List.replicate 32 0) 1 none = .ok ch ∧
      treeStatementFromColumns sampleCols 2 (List.replicate 32 0) 1 none
        (some (membershipFrom ch.traceRoot)) = .ok st ∧
      st.membership = some (membershipFrom ch.traceRoot) ∧
      st.StandsFor ch 2 (List.replicate 32 0) 1 := by
  rcases sampleChain_succeeds with ⟨ch, done⟩
  rcases statement_from_columns_stands sampleCols 2 (List.replicate 32 0) 1 none
    (some (membershipFrom ch.traceRoot)) with ⟨returned, stands⟩
  have starts : ∀ m ∈ some (membershipFrom ch.traceRoot), m.start = p2t8NodeWords ch.traceRoot := by
    rintro m ⟨⟩
    rfl
  rcases returned.mpr ⟨ch, done, starts⟩ with ⟨st, made⟩
  rcases stands st made with ⟨own, again, carried, stands⟩
  have same : own = ch := Except.ok.inj (again.symm.trans done)
  exact ⟨ch, st, done, made, carried, same ▸ stands⟩

/-! ## Nodes of such statements -/

namespace TreeStatement.StandsFor

variable {st : TreeStatement} {ch : Vfri11Chain} {treeDepth nQueries numFolds : ℕ}
  {batchMerkleRoot : List UInt8}
variable (stands : st.StandsFor ch treeDepth batchMerkleRoot nQueries)

include stands

theorem queries_some : st.queries ≠ [] := by
  apply List.ne_nil_of_length_pos
  rw [stands.queries]
  exact stands.asked.1

/-- The depths of the statement are those of its chain. -/
theorem depths : st.depth = treeDepth - ch.numFolds ∧ st.compDepth = treeDepth := by
  have positive : 0 < nQueries := stands.asked.1
  rcases List.exists_cons_of_length_pos (stands.queries.symm ▸ positive) with ⟨query, _, queries⟩
  rcases List.exists_cons_of_length_pos (stands.paths.symm ▸ positive) with ⟨path, _, paths⟩
  rcases List.exists_cons_of_length_pos (stands.compPaths.symm ▸ positive) with ⟨comp, _, comps⟩
  have first : (query, path, comp) ∈ st.opened := by
    rw [TreeStatement.opened, queries, paths, comps, List.zip_cons_cons, List.zip_cons_cons]
    exact List.mem_cons_self
  have fits := (stands.opened _ first).fits
  rw [TreeStatement.depth, TreeStatement.compDepth, paths, comps]
  exact ⟨fits.sibs, fits.posSibs⟩

theorem numFolds_eq (layout : st.layout = vfri11ChallengeLayout numFolds) :
    ch.numFolds = numFolds := by
  have alphas := congrArg (fun layout => layout.alphaAt.length) (stands.layout.symm.trans layout)
  simp only [vfri11ChallengeLayout, List.length_map, List.length_range] at alphas
  omega

theorem shaped (compDepth : st.compDepth ≤ MerklePathT8.maxDepth)
    (membership : ∀ m ∈ st.membership,
      m.sibs.length = m.bits.length ∧ m.depth ≤ MerklePathT8.maxDepth) :
    st.Shaped ch.numFolds := by
  have depths := stands.depths
  have folds := stands.folds.2
  constructor
  case some => exact stands.queries_some
  case paths => rw [stands.paths, stands.queries]
  case compPaths => rw [stands.compPaths, stands.queries]
  case depth => omega
  case compDepth => omega
  case fits =>
    intro opened member
    rw [depths.1, depths.2]
    exact (stands.opened opened member).fits
  case membership => exact membership

theorem derives_own : ∃ derived, st.Derives ch.numFolds derived := by
  rcases stands.derives with ⟨derived, run, zX, alphas⟩
  refine ⟨derived, ?_, run, ?_⟩
  · rw [stands.layout, vfri11ChallengeLayout, List.length_map, List.length_range]
  · intro opened member
    rw [zX, alphas]
    exact (stands.opened opened member).runs

theorem commits (seed : ∀ m ∈ st.membership, p2t8Pack m.batchRoot = nodeOfBytes batchMerkleRoot) :
    st.Commits (ch.published treeDepth batchMerkleRoot nQueries) := by
  refine ⟨stands.inputs, stands.steps, ?_, stands.queries, seed⟩
  have roots : (ch.published treeDepth batchMerkleRoot nQueries).friLayerRoots.length =
      ch.numFolds + 1 := stands.folds.1
  rw [stands.layout, roots, Nat.add_sub_cancel]

theorem short : st.steps.length ≤ maxSteps := by
  rcases stands.derives with ⟨derived, run, -⟩
  unfold deriveChallenges at run
  split_ifs at run with none long
  exact not_lt.mp long

theorem steps_length : st.steps.length = 38 + 6 * ch.numFolds + (nQueries + 1) / 2 := by
  have listing := stands.steps
  have count := stands.folds.1
  rw [vfri11TranscriptSteps] at listing
  split at listing
  case h_1 => cases listing
  case h_2 first roots listed =>
    split_ifs at listing with none
    have roots_length : roots.length = ch.numFolds := by
      rw [show ch.layerRoots = first :: roots from listed, List.length_cons] at count
      exact Nat.succ.inj count
    rw [← Except.ok.inj listing, Vfri2.steps_length, roots_length]
    rfl

theorem committed_eq : st.committed =
    (p2t8NodeWords (ch.layerRoots.getLastD 0), p2t8NodeWords ch.compRoot) := by
  rw [TreeStatement.committed, stands.inputs]
  rfl

theorem canonical (query : StepOp × List FoldRound) (member : query ∈ st.queries) :
    query.1.Canonical ∧ ∀ foldRound ∈ query.2, foldRound.Canonical := by
  have firsts : st.opened.map Prod.fst = st.queries := by
    apply List.map_fst_zip
    rw [List.length_zip, stands.paths, stands.compPaths, stands.queries, Nat.min_self]
  rw [← firsts] at member
  rcases List.mem_map.mp member with ⟨opened, own, rfl⟩
  exact (stands.opened opened own).canonical

end TreeStatement.StandsFor

/-- Made from columns by the level step. -/
def TreeStatement.FromColumns (st : TreeStatement) : Prop :=
  ∃ cols treeDepth batchMerkleRoot nQueries numFolds membership,
    treeStatementFromColumns cols treeDepth batchMerkleRoot nQueries numFolds membership = .ok st

theorem TreeStatement.FromColumns.stands {st : TreeStatement} (made : st.FromColumns) :
    ∃ ch treeDepth batchMerkleRoot nQueries,
      st.StandsFor ch treeDepth batchMerkleRoot nQueries := by
  rcases made with ⟨cols, treeDepth, batchMerkleRoot, nQueries, numFolds, membership, made⟩
  rcases treeStatement_ok made with ⟨ch, -, -, -, stands⟩
  exact ⟨ch, treeDepth, batchMerkleRoot, nQueries, stands⟩

theorem known_of_columns {statements : List TreeStatement}
    (made : ∀ st ∈ statements, st.FromColumns) : ∀ st ∈ statements, st.inputs.isSome := by
  intro st listed
  rcases (made st listed).stands with ⟨ch, treeDepth, root, nQueries, stands⟩
  rw [stands.inputs]
  rfl

/-- A membership whose path lands on the batch that its statement is seeded with.  The seed is
compared with the root after packing; the path has to reach the words themselves. -/
structure BatchMembership.Lands (m : BatchMembership) (seed : Bytes32) : Prop where
  lengths : m.sibs.length = m.bits.length
  depth : m.depth ≤ MerklePathT8.maxDepth
  root : merklePathRootT8 m.start m.path.1 m.path.2 = m.batchRoot
  seed : p2t8Pack m.batchRoot = seed

/-- Statements that one node can join: equally many folds, depths and sizes in
range, memberships that land, and a transition that can be traced. -/
structure Joinable (numFolds : ℕ) (statements : List TreeStatement)
    (nonce : Option NonceWitness) : Prop where
  some : statements ≠ []
  layouts : ∀ st ∈ statements, st.layout = vfri11ChallengeLayout numFolds
  depths : ∀ st ∈ statements, st.compDepth ≤ MerklePathT8.maxDepth
  queries_le : (allQueries statements).length ≤ RecursiveVerifier.maxQueries
  lands : ∀ st ∈ statements, ∀ m ∈ st.membership, ∀ inp ∈ st.inputs, m.Lands inp.batchRoot
  size_le : sizeWith statements numFolds (nonce.map Prod.fst) ≤ maxLog
  moves : ∀ st ∈ nonce.map Prod.fst, st.updates ≠ [] ∧ NonceUpdateT8.Public st
  traced : ∃ traces, nonceTraces (sizeWith statements numFolds (nonce.map Prod.fst)) nonce =
    .ok traces

section Nodes

variable {numFolds logSize : ℕ} {statements : List TreeStatement} {nonce : Option NonceWitness}
  {node : PreparedNode}

/-- Statements of equally many folds, with depths in range and with memberships
that land, are shaped. -/
theorem shaped_of_lands (made : ∀ st ∈ statements, st.FromColumns)
    (layouts : ∀ st ∈ statements, st.layout = vfri11ChallengeLayout numFolds)
    (depths : ∀ st ∈ statements, st.compDepth ≤ MerklePathT8.maxDepth)
    (lands : ∀ st ∈ statements, ∀ m ∈ st.membership, ∀ inp ∈ st.inputs, m.Lands inp.batchRoot) :
    ∀ st ∈ statements, st.Shaped numFolds := by
  intro st listed
  rcases (made st listed).stands with ⟨ch, treeDepth, root, nQueries, stands⟩
  rw [← stands.numFolds_eq (layouts st listed)]
  apply stands.shaped (depths st listed)
  intro m own
  have landed := lands st listed m own _ stands.inputs
  exact ⟨landed.lengths, landed.depth⟩

theorem node_of_shaped (some : statements ≠ []) (made : ∀ st ∈ statements, st.FromColumns)
    (shaped : ∀ st ∈ statements, st.Shaped numFolds)
    (queries_le : (allQueries statements).length ≤ RecursiveVerifier.maxQueries) :
    Node numFolds statements := by
  refine ⟨some, ?_, shaped, queries_le⟩
  rcases List.exists_mem_of_ne_nil _ some with ⟨st, listed⟩
  rcases (made st listed).stands with ⟨ch, treeDepth, root, nQueries, stands⟩
  have folds := stands.folds.2
  have own := shaped st listed
  have small := own.compDepth.2
  have rounds : ch.numFolds = numFolds := by
    rcases List.exists_mem_of_ne_nil _ stands.queries_some with ⟨query, member⟩
    rw [← own.opened_queries] at member
    rcases List.mem_map.mp member with ⟨opened, place, -⟩
    exact (stands.opened opened place).fits.rounds.symm.trans (own.fits opened place).rounds
  rw [stands.depths.2, MerklePathT8.maxDepth] at small
  rw [RecursiveVerifier.maxNumFolds]
  omega

/-- A node of joinable statements is prepared. -/
theorem Joinable.prepared (made : ∀ st ∈ statements, st.FromColumns)
    (joinable : Joinable numFolds statements nonce) :
    ∃ node, prepareTreeNodeWithNonce statements nonce = .ok node := by
  have shaped := shaped_of_lands made joinable.layouts joinable.depths joinable.lands
  have derives : ∀ st ∈ statements, ∃ derived, st.Derives numFolds derived := by
    intro st listed
    rcases (made st listed).stands with ⟨ch, treeDepth, root, nQueries, stands⟩
    rw [← stands.numFolds_eq (joinable.layouts st listed)]
    exact stands.derives_own
  have commits : ∀ st ∈ statements, ∃ inp, st.Commits inp := by
    intro st listed
    rcases (made st listed).stands with ⟨ch, treeDepth, root, nQueries, stands⟩
    exact ⟨_, stands.commits fun m own => (joinable.lands st listed m own _ stands.inputs).seed⟩
  have reaches : Reaches statements := by
    apply forall_nodePaths
    case finals =>
      intro st listed opened own
      rcases (made st listed).stands with ⟨ch, treeDepth, root, nQueries, stands⟩
      rw [stands.committed_eq]
      exact (stands.opened opened own).final
    case pos =>
      intro st listed opened own
      rcases (made st listed).stands with ⟨ch, treeDepth, root, nQueries, stands⟩
      rw [stands.committed_eq]
      exact (stands.opened opened own).pos
    case neg =>
      intro st listed opened own
      rcases (made st listed).stands with ⟨ch, treeDepth, root, nQueries, stands⟩
      rw [stands.committed_eq]
      exact (stands.opened opened own).neg
    case members =>
      intro st listed m own
      rcases (made st listed).stands with ⟨ch, treeDepth, root, nQueries, stands⟩
      exact (joinable.lands st listed m own _ stands.inputs).root
  exact prepare_succeeds (node_of_shaped joinable.some made shaped joinable.queries_le) derives
    commits reaches joinable.moves joinable.size_le joinable.traced

/-- Statements of a prepared node are joinable. -/
theorem PreparedAs.joinable (made : ∀ st ∈ statements, st.FromColumns)
    (prepared : PreparedAs numFolds logSize statements nonce node) :
    Joinable numFolds statements nonce := by
  rcases prepared.reaches (known_of_columns made) with ⟨commits, reaches⟩
  have shaped := prepared.made.shaped
  constructor
  case some => exact prepared.made.some
  case layouts =>
    intro st listed
    rcases (made st listed).stands with ⟨ch, treeDepth, root, nQueries, stands⟩
    rcases prepared.derives st listed with ⟨derived, derives⟩
    have count := derives.layout
    rw [stands.layout] at count ⊢
    simp only [vfri11ChallengeLayout, List.length_map, List.length_range] at count
    rw [Nat.add_left_cancel count]
  case depths => exact fun st listed => (shaped st listed).compDepth.2
  case queries_le => exact prepared.made.queries_le
  case lands =>
    intro st listed m own inp carried
    rcases commits st listed with ⟨other, committed⟩
    have same : inp = other := Option.some.inj (carried.symm.trans committed.inputs)
    rcases (shaped st listed).membership m own with ⟨lengths, depth⟩
    have landed : merklePathRootT8 (memberClaim m).leaf m.path.1 (memberClaim m).bits =
        (memberClaim m).root := by
      apply reaches (memberClaim m, m.path.1)
      rw [nodePaths]
      exact List.mem_append_right _ (List.mem_map_of_mem
        (mem_memberships.mpr ⟨st, listed, own⟩))
    exact ⟨lengths, depth, landed, same ▸ committed.seed m own⟩
  case size_le =>
    rw [← prepared.size]
    exact prepared.size_le
  case moves =>
    intro st own
    exact ⟨(prepared.moves st own).some, (prepared.moves st own).pub⟩
  case traced =>
    rcases prepared.nonce with ⟨traces, moved, -⟩
    rw [← prepared.size]
    exact ⟨traces, moved⟩

/-- Up to eight statements always fit one node. -/
theorem joinable_of_few (made : ∀ st ∈ statements, st.FromColumns) (some : statements ≠ [])
    (few : statements.length ≤ 8)
    (layouts : ∀ st ∈ statements, st.layout = vfri11ChallengeLayout numFolds)
    (depths : ∀ st ∈ statements, st.compDepth ≤ MerklePathT8.maxDepth)
    (lands : ∀ st ∈ statements, ∀ m ∈ st.membership, ∀ inp ∈ st.inputs,
      m.Lands inp.batchRoot) : Joinable numFolds statements none := by
  have queries : (allQueries statements).length ≤ 8 * 64 := by
    have each : ∀ count ∈ statements.map (fun st => st.queries.length), count ≤ 64 := by
      intro count member
      rcases List.mem_map.mp member with ⟨st, listed, rfl⟩
      rcases (made st listed).stands with ⟨ch, treeDepth, root, nQueries, stands⟩
      rw [stands.queries]
      exact stands.asked.2
    have total := List.sum_le_card_nsmul _ 64 each
    rw [List.length_map, smul_eq_mul] at total
    rw [allQueries, List.length_flatMap]
    omega
  have queries_le : (allQueries statements).length ≤ RecursiveVerifier.maxQueries :=
    queries.trans (by decide)
  have node := node_of_shaped some made (shaped_of_lands made layouts depths lands) queries_le
  have short : ∀ st ∈ statements, st.steps.length ≤ maxSteps := by
    intro st listed
    rcases (made st listed).stands with ⟨ch, treeDepth, root, nQueries, stands⟩
    exact stands.short
  have size : nodeLogSize statements numFolds ≤ 20 := by
    have transcripts := Nat.mul_le_mul_right 22 (Nat.mul_le_mul_right 512 few)
    have folds := Nat.mul_le_mul_right 65 queries
    have all := Nat.add_le_add (Nat.mul_le_mul_left 3 queries) few
    have paths := Nat.mul_le_mul_right 22 (Nat.mul_le_mul_right 28 all)
    exact nodeLogSize_le_of node short (by decide) (transcripts.trans (by decide))
      (folds.trans (by decide)) (paths.trans (by decide))
  exact ⟨some, layouts, depths, queries_le, lands, size,
    fun w member => absurd member (Option.not_mem_none w), none, rfl⟩

end Nodes

theorem canonical_of_columns {statements : List TreeStatement}
    (made : ∀ st ∈ statements, st.FromColumns) : ∀ query ∈ allQueries statements,
      query.1.Canonical ∧ ∀ foldRound ∈ query.2, foldRound.Canonical := by
  intro query member
  rcases List.mem_flatMap.mp member with ⟨st, listed, own⟩
  rcases (made st listed).stands with ⟨ch, treeDepth, root, nQueries, stands⟩
  exact stands.canonical query own

/-- What holds of a node that was prepared from columns: its main columns satisfy the circuits,
the verifier rebuilds the same pinned columns and expects the same roots, and every complete proof
system has a proof that is accepted. -/
structure PreparedNode.Proved (node : PreparedNode) (statements : List TreeStatement)
    (nonce : Option NonceWitness) : Prop where
  satisfied : node.Satisfied
  rebuilt : node.shape.canonicalTree node.runs node.roots (nonce.map Prod.fst) = .ok node.preproc
  expected : treeNodeExpectedRoots statements = .ok node.roots
  accepted : ∀ system : Bool → ProofSystem Preproc,
    (system nonce.isSome).Complete (Satisfiable nonce.isSome) →
      ∃ proofBytes, verifyNode system proofBytes node.shape.logSize statements
        (nonce.map Prod.fst) = .ok true

theorem prepared_proved {statements : List TreeStatement} {nonce : Option NonceWitness}
    {node : PreparedNode} (made : ∀ st ∈ statements, st.FromColumns)
    (prepared : prepareTreeNodeWithNonce statements nonce = .ok node)
    (digits : ∀ w ∈ nonce, ∀ t ∈ w.2, t.bits = Merkle.indexBits w.1.depth t.index) :
    node.Proved statements nonce := by
  rcases prepared_as prepared with ⟨numFolds, logSize, parts⟩
  have known := known_of_columns made
  have satisfied := parts.satisfied (canonical_of_columns made) digits
  exact ⟨satisfied, parts.rebuilt, parts.expected known,
    fun system complete => parts.accepted complete known satisfied⟩

/-- Statements made from columns are prepared exactly when one node can join them, and then
nothing is left that could fail: the trace satisfies every circuit over the columns the verifier
rebuilds, its paths reach the committed roots, and some proof is accepted.  Joining asks for
shapes, for memberships that land and for a transition that is traced; the digits of the slots are
what the check of a transition leaves out. -/
theorem columns_node_prepared_iff {statements : List TreeStatement} {nonce : Option NonceWitness}
    (made : ∀ st ∈ statements, st.FromColumns)
    (digits : ∀ w ∈ nonce, ∀ t ∈ w.2, t.bits = Merkle.indexBits w.1.depth t.index) :
    ((∃ node, prepareTreeNodeWithNonce statements nonce = .ok node) ↔
      ∃ numFolds, Joinable numFolds statements nonce) ∧
    ∀ node, prepareTreeNodeWithNonce statements nonce = .ok node →
      node.Proved statements nonce := by
  refine ⟨⟨?_, ?_⟩, ?_⟩
  · rintro ⟨node, prepared⟩
    rcases prepared_as prepared with ⟨numFolds, logSize, parts⟩
    exact ⟨numFolds, parts.joinable made⟩
  · rintro ⟨numFolds, joinable⟩
    exact joinable.prepared made
  · intro node prepared
    exact prepared_proved made prepared digits

/-- Up to eight statements made from columns of equally many folds are always prepared and proved,
whatever the columns are.  Eight statements of the largest depth with as many queries as a chain
draws still fit the cap on the size of a node. -/
theorem few_statements_proved {statements : List TreeStatement} {numFolds : ℕ}
    (made : ∀ st ∈ statements, st.FromColumns) (some : statements ≠ [])
    (few : statements.length ≤ 8)
    (layouts : ∀ st ∈ statements, st.layout = vfri11ChallengeLayout numFolds)
    (depths : ∀ st ∈ statements, st.compDepth ≤ MerklePathT8.maxDepth)
    (lands : ∀ st ∈ statements, ∀ m ∈ st.membership, ∀ inp ∈ st.inputs,
      m.Lands inp.batchRoot) :
    ∃ node, prepareTreeNodeWithNonce statements none = .ok node ∧
      node.Proved statements none := by
  have joinable := joinable_of_few made some few layouts depths lands
  rcases joinable.prepared made with ⟨node, prepared⟩
  exact ⟨node, prepared, prepared_proved made prepared nofun⟩

/-! ## One statement -/

/-- The statement of the sample columns. -/
structure SampleStatement (st : TreeStatement) : Prop where
  made : treeStatementFromColumns sampleCols 2 (List.replicate 32 0) 1 none none = .ok st
  layout : st.layout = vfri11ChallengeLayout 1
  compDepth : st.compDepth = 2
  membership : st.membership = none

theorem sampleStatement_made : ∃ st, SampleStatement st := by
  rcases sampleChain_succeeds with ⟨ch, done⟩
  rcases @treeStatement_made _ _ _ _ _ none _ done nofun with ⟨st, made, membership, stands⟩
  rcases vfri11FriChain_replayed done with ⟨-, -, -, -, counted, -⟩
  have folds : ch.numFolds = 1 := (Except.ok.inj counted).symm
  exact ⟨st, made, folds ▸ stands.layout, stands.depths.2, membership⟩

theorem SampleStatement.fromColumns {st : TreeStatement} (sample : SampleStatement st) :
    ∀ other ∈ [st], other.FromColumns := by
  intro other member
  rw [List.mem_singleton.mp member]
  exact ⟨_, _, _, _, _, _, sample.made⟩

theorem SampleStatement.joinable {st : TreeStatement} (sample : SampleStatement st) :
    Joinable 1 [st] none := by
  apply joinable_of_few sample.fromColumns (List.cons_ne_nil _ _) (by decide : 1 ≤ 8)
  · intro other member
    rw [List.mem_singleton.mp member]
    exact sample.layout
  · intro other member
    rw [List.mem_singleton.mp member, sample.compDepth]
    decide
  · intro other member m own
    rw [List.mem_singleton.mp member, sample.membership] at own
    cases own

theorem sample_node_prepared : ∃ st node, SampleStatement st ∧
    prepareTreeNodeWithNonce [st] none = .ok node ∧ node.Proved [st] none := by
  rcases sampleStatement_made with ⟨st, sample⟩
  rcases @columns_node_prepared_iff [st] none sample.fromColumns nofun with ⟨joined, proved⟩
  rcases joined.mpr ⟨1, sample.joinable⟩ with ⟨node, prepared⟩
  exact ⟨st, node, sample, prepared, proved node prepared⟩

theorem sample_pair_proved : ∃ st node, SampleStatement st ∧
    prepareTreeNodeWithNonce [st, st] none = .ok node ∧ node.Proved [st, st] none := by
  rcases sampleStatement_made with ⟨st, sample⟩
  have both (other : TreeStatement) (member : other ∈ [st, st]) : other = st := by
    simpa using member
  have proved := @few_statements_proved [st, st] 1
    (fun other member => sample.fromColumns other (by simpa using member))
    (List.cons_ne_nil _ _) (by decide : 2 ≤ 8)
    (fun other member => both other member ▸ sample.layout)
    (fun other member => by rw [both other member, sample.compDepth]; decide)
    (fun other member m own => by
      rw [both other member, sample.membership] at own
      cases own)
  rcases proved with ⟨node, prepared, proved⟩
  exact ⟨st, node, sample, prepared, proved⟩

end TreeNode
end Recursive
end QLSA
