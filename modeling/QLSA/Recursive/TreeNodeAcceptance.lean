import QLSA.Recursive.TreeNodeShape

namespace QLSA
namespace Recursive
namespace TreeNode

open Hash Mersenne Qm31 Stwo Vfri2
open Machine (bind_eq_ok)
open NonceUpdateT8 (nonceNodeWords pinnedUpdates_length checkPublic_none_iff)
open RecursiveVerifier (FoldRound StepOp allChallenges queryChallenges recursiveQueriesFinal)

/-!
# What a proof of a node attests

The sizes of a node leave room for every circuit.  The transcripts carry the
runs that the verifier computes itself, and the fold chains are satisfiable
whatever they end in, so that of a node only its paths are left to the prover,
and of a transition its siblings.  Some proof is accepted exactly when the
statements run under the transcripts of what they committed to and all of their
claims open.
-/

/-! ## Sizes -/

section Sizes

variable {numFolds : ℕ} {statements : List TreeStatement}

theorem Node.statements_le (node : Node numFolds statements) :
    statements.length ≤ (allQueries statements).length := by
  have each : ∀ count ∈ statements.map (fun st => st.queries.length), 1 ≤ count := by
    intro count member
    rcases List.mem_map.mp member with ⟨st, listed, rfl⟩
    exact List.length_pos_of_ne_nil (node.shaped st listed).some
  have total := List.length_le_sum_of_one_le _ each
  rw [List.length_map] at total
  rw [allQueries, List.length_flatMap]
  exact total

theorem memberships_le (statements : List TreeStatement) :
    (memberships statements).length ≤ statements.length := List.length_filterMap_le _ _

theorem nodeLeaves_length (statements : List TreeStatement) : (nodeLeaves statements).length =
    3 * (allQueries statements).length + (memberships statements).length := by
  simp only [nodeLeaves, recursiveQueriesFinal, allChallenges, List.length_append, List.length_map]
  ring

theorem Node.claims_length (node : Node numFolds statements) : (nodeClaims statements).length =
    3 * (allQueries statements).length + (memberships statements).length := by
  rw [← nodeLeaves_length, ← nodeClaims_leaves node.shaped, List.length_map]

theorem Node.depths_bounded (node : Node numFolds statements) :
    ∀ d ∈ nodeDepths statements, 1 ≤ d ∧ d ≤ MerklePathT8.maxDepth := by
  intro d member
  simp only [nodeDepths, List.mem_append, List.mem_flatMap, List.mem_replicate,
    List.mem_map] at member
  rcases member with ((⟨st, listed, -, rfl⟩ | ⟨st, listed, -, rfl⟩) | ⟨st, listed, -, rfl⟩) |
    ⟨m, listed, rfl⟩
  · exact (node.shaped st listed).depth
  · exact (node.shaped st listed).compDepth
  · exact (node.shaped st listed).compDepth
  · rcases mem_memberships.mp listed with ⟨st, place, own⟩
    refine ⟨?_, ((node.shaped st place).membership m own).2⟩
    rw [BatchMembership.depth]
    omega

theorem Node.depths_max (node : Node numFolds statements) :
    (nodeDepths statements).map (max · 1) = nodeDepths statements := by
  apply (List.map_congr_left _).trans (List.map_id _)
  intro d member
  exact max_eq_left (node.depths_bounded d member).1

/-- Every circuit fits the size of its node. -/
theorem nodeLogSize_fits (node : Node numFolds statements) {logSize : ℕ}
    (large : nodeLogSize statements numFolds ≤ logSize) :
    ChannelT8.totalBlocks (statements.map TreeStatement.steps) * 22 ≤ 2 ^ logSize ∧
      (allQueries statements).length * (1 + numFolds) ≤ 2 ^ logSize ∧
      (nodeDepths statements).sum * 22 ≤ 2 ^ logSize := by
  have grown {log : ℕ} (within : log ≤ nodeLogSize statements numFolds) : 2 ^ log ≤ 2 ^ logSize :=
    Nat.pow_le_pow_right (by omega) (within.trans large)
  have channel := rows_le_growLogSize
    (max (ChannelT8.totalBlocks (statements.map TreeStatement.steps) * 22) 1) 1
  have folds := rows_le_growLogSize (max ((allQueries statements).length * (1 + numFolds)) 1)
    RecursiveVerifier.minLogSize
  have merkle := rows_le_growLogSize (max (nodeDepths statements).sum 1 * 22)
    MerklePathT8.minLogSize
  refine ⟨?_, ?_, ?_⟩
  · refine ((le_max_left _ 1).trans channel).trans (grown ?_)
    exact (le_max_left _ 5).trans ((le_max_left _ _).trans (le_max_left _ _))
  · refine ((le_max_left _ 1).trans folds).trans (grown ?_)
    exact (le_max_right _ _).trans (le_max_left _ _)
  · refine ((Nat.mul_le_mul_right 22 (le_max_left _ 1)).trans merkle).trans (grown ?_)
    rw [nodeLogSize, MerklePathT8.computeLogSizeMultiVar, node.depths_max]
    exact le_max_right _ _

/-- A size that takes all transcripts, all folds and all paths of a node. -/
theorem nodeLogSize_le_of (node : Node numFolds statements)
    (short : ∀ st ∈ statements, st.steps.length ≤ maxSteps) {bound : ℕ} (least : 5 ≤ bound)
    (transcripts : statements.length * 512 * 22 ≤ 2 ^ bound)
    (queries : (allQueries statements).length * 65 ≤ 2 ^ bound)
    (paths : (3 * (allQueries statements).length + statements.length) * 28 * 22 ≤ 2 ^ bound) :
    nodeLogSize statements numFolds ≤ bound := by
  have positive := Nat.one_le_two_pow (n := bound)
  have count := List.length_pos_of_ne_nil node.some
  have blocks : ChannelT8.totalBlocks (statements.map TreeStatement.steps) ≤
      statements.length * 512 := by
    have total := List.sum_le_card_nsmul ((statements.map TreeStatement.steps).map List.length) 512
      (by
        intro length member
        rcases List.mem_map.mp member with ⟨steps, listed, rfl⟩
        rcases List.mem_map.mp listed with ⟨st, place, rfl⟩
        exact short st place)
    rw [List.length_map, List.length_map, smul_eq_mul] at total
    exact total
  have deep : (nodeDepths statements).sum ≤ (nodeDepths statements).length * 28 := by
    have total := List.sum_le_card_nsmul (nodeDepths statements) 28
      fun d member => (node.depths_bounded d member).2
    rwa [smul_eq_mul] at total
  have length : (nodeDepths statements).length =
      3 * (allQueries statements).length + (memberships statements).length := by
    rw [← nodeClaims_depths node.shaped, List.length_map, node.claims_length]
  have members := memberships_le statements
  have folds : (allQueries statements).length * (1 + numFolds) ≤
      (allQueries statements).length * 65 :=
    Nat.mul_le_mul_left _ (Nat.add_le_add_left node.numFolds_le 1)
  have channel : channelLogSize (statements.map TreeStatement.steps) ≤ bound := by
    apply max_le _ least
    apply growLogSize_le _ (by omega)
    omega
  have folded : foldLogSize ((allQueries statements).length * (1 + numFolds)) ≤ bound := by
    apply growLogSize_le _ (by rw [RecursiveVerifier.minLogSize]; omega)
    omega
  have merkle : MerklePathT8.computeLogSizeMultiVar (nodeDepths statements) ≤ bound := by
    rw [MerklePathT8.computeLogSizeMultiVar, node.depths_max]
    apply growLogSize_le _ least
    omega
  exact max_le (max_le channel folded) merkle

/-- A node is never larger than the circle group, since its queries are capped. -/
theorem nodeLogSize_le (node : Node numFolds statements)
    (short : ∀ st ∈ statements, st.steps.length ≤ maxSteps) :
    nodeLogSize statements numFolds ≤ maxCosetLogSize := by
  have queries : (allQueries statements).length ≤ 4096 := node.queries_le
  have count := node.statements_le.trans queries
  have transcripts := Nat.mul_le_mul_right 22 (Nat.mul_le_mul_right 512 count)
  have folds := Nat.mul_le_mul_right 65 queries
  have all := Nat.add_le_add (Nat.mul_le_mul_left 3 queries) count
  have paths := Nat.mul_le_mul_right 22 (Nat.mul_le_mul_right 28 all)
  exact nodeLogSize_le_of node short (by decide) (transcripts.trans (by decide))
    (folds.trans (by decide)) (paths.trans (by decide))

end Sizes

/-! ## The circuits -/

/-- Siblings, words of `u64`, lead from both leaves of an update to its roots
modulo `P`. -/
def UpdateOpens (depth : ℕ) (up : PinnedUpdate (Quad ℕ)) : Prop :=
  ∃ sibs : List (Quad ℕ), sibs.length = depth ∧ (∀ sib ∈ sibs, sib.All (· < u64Modulus)) ∧
    merklePathRootT8 up.oldLeaf sibs (Merkle.indexBits depth up.index) = norm4 up.preRoot ∧
    merklePathRootT8 up.newLeaf sibs (Merkle.indexBits depth up.index) = norm4 up.postRoot

/-- The update circuit is satisfiable exactly when every update opens. -/
theorem updates_satisfiable_iff {updates : List (PinnedUpdate (Quad ℕ))} {depth logSize : ℕ}
    (positive : 0 < depth) (nonempty : updates ≠ [])
    (fits : updates.length * depth * 22 ≤ 2 ^ logSize) :
    (∃ main, NonceUpdateT8.Satisfies main
      (columnsOf (NonceUpdateT8.preprocWrites updates depth)) logSize) ↔
      ∀ up ∈ updates, UpdateOpens depth up := by
  have built : NonceUpdateT8.buildPreproc updates depth logSize =
      .ok (columnsOf (NonceUpdateT8.preprocWrites updates depth)) := by
    rw [NonceUpdateT8.buildPreproc, if_neg (by omega), if_neg (Nat.not_lt.mpr fits)]
  constructor
  · rintro ⟨main, satisfied⟩ up member
    rcases List.mem_iff_getElem?.mp member with ⟨u, found⟩
    refine ⟨NonceUpdateT8.siblingWords main depth u, NonceUpdateT8.siblingWords_length main depth u,
      ?_, satisfied.lane_root_words built found .old, satisfied.lane_root_words built found .new⟩
    intro sib listed
    have canonical := NonceUpdateT8.siblingWords_canonical main depth u sib listed
    have small {word : ℕ} (own : Canonical word) : word < u64Modulus :=
      lt_trans own (by decide : P < u64Modulus)
    exact ⟨small canonical.1, small canonical.2.1, small canonical.2.2.1, small canonical.2.2.2⟩
  · intro opens
    have listed (u : ℕ) (inside : u < updates.length) : ∃ sibs : List (Quad ℕ),
        sibs.length = depth ∧
        merklePathRootT8 updates[u].oldLeaf sibs (Merkle.indexBits depth updates[u].index) =
          norm4 updates[u].preRoot ∧
        merklePathRootT8 updates[u].newLeaf sibs (Merkle.indexBits depth updates[u].index) =
          norm4 updates[u].postRoot := by
      rcases opens updates[u] (List.getElem_mem inside) with ⟨sibs, length, -, old, new⟩
      exact ⟨sibs, length, old, new⟩
    choose! sibs length old new using listed
    refine ⟨NonceUpdateT8.honestMain updates depth fun u => (sibs u).map residues,
      NonceUpdateT8.honestMain_satisfies ?_ positive nonempty ?_⟩
    · intro u inside
      rw [List.length_map, length u inside]
    · intro u up found side
      rcases List.getElem?_eq_some_iff.mp found with ⟨inside, rfl⟩
      have path (leaf root : Quad ℕ) (climbed : merklePathRootT8 leaf (sibs u)
          (Merkle.indexBits depth updates[u].index) = norm4 root) :
          Merkle.pathRoot (compress constant) (residues leaf) ((sibs u).map residues)
            (Merkle.indexBits depth updates[u].index) = residues root := by
        have reached := congrArg residues climbed
        rwa [merklePathRootT8_eq_words, residues_words, residues_norm4] at reached
      cases side with
      | old => exact path _ _ (old u inside)
      | new => exact path _ _ (new u inside)

section Columns

variable {numFolds logSize : ℕ} {statements : List TreeStatement}

/-- The shape of a node at a given size. -/
def sizedShape (numFolds logSize : ℕ) (statements : List TreeStatement) : NodeShape :=
  { shapeOf numFolds statements with logSize := logSize }

/-- The transition of a root that the checks of the verifier pass. -/
structure Moves (logSize : ℕ) (st : NonceStatement (Quad ℕ)) : Prop where
  some : st.updates ≠ []
  pub : NonceUpdateT8.Public st
  fits : nonceLogSize st.updates.length st.depth ≤ logSize

/-- The preprocessed columns of a node. -/
def nodeColumns (numFolds logSize : ℕ) (statements : List TreeStatement)
    (nonce : Option (NonceStatement (Quad ℕ))) : Preproc where
  rv := RecursiveVerifier.preprocRow (recursiveQueriesFinal (allQueries statements))
    (allChallenges (allQueries statements)) numFolds
  merkle := (PathClaim.paths (nodeClaims statements)).preprocRow logSize
  channel := ChannelT8.buildPreprocMulti (statements.map TreeStatement.steps)
    ((statements.map TreeStatement.steps).map ChannelT8.honestRun) logSize
  nonce := nonce.map fun st => columnsOf
    (NonceUpdateT8.preprocWrites (st.pinnedUpdates nonceNodeWords) st.depth)

theorem Node.paths_wellFormed (node : Node numFolds statements)
    (large : nodeLogSize statements numFolds ≤ logSize) :
    (PathClaim.paths (nodeClaims statements)).WellFormed logSize := by
  have count : (PathClaim.paths (nodeClaims statements)).leaves.length =
      (nodeClaims statements).length := List.length_map _
  have depths : (PathClaim.paths (nodeClaims statements)).depths = nodeDepths statements :=
    nodeClaims_depths node.shaped
  constructor
  case nonempty =>
    rw [count, node.claims_length]
    have positive := List.length_pos_of_ne_nil node.some
    have queries := node.statements_le
    omega
  case indices_length => rw [count, PathClaim.paths, List.length_map]
  case roots_length => rw [count, PathClaim.paths, List.length_map]
  case depths_length => rw [count, PathClaim.paths, List.length_map]
  case depths =>
    rw [depths]
    exact node.depths_bounded
  case fits =>
    rw [depths]
    exact (nodeLogSize_fits node large).2.2

theorem Node.rounds_length (node : Node numFolds statements) :
    ∀ query ∈ allQueries statements, query.2.length = numFolds := by
  intro query listed
  rcases List.mem_flatMap.mp listed with ⟨st, place, own⟩
  rw [← (node.shaped st place).opened_queries] at own
  rcases List.mem_map.mp own with ⟨opened, pushed, rfl⟩
  exact ((node.shaped st place).fits opened pushed).rounds

theorem Node.queries_some (node : Node numFolds statements) : allQueries statements ≠ [] := by
  apply List.ne_nil_of_length_pos
  exact (List.length_pos_of_ne_nil node.some).trans_le node.statements_le

theorem Node.folds_preproc (node : Node numFolds statements)
    (large : nodeLogSize statements numFolds ≤ logSize) :
    RecursiveVerifier.buildPreproc (recursiveQueriesFinal (allQueries statements))
      (allChallenges (allQueries statements)) numFolds logSize =
      .ok (RecursiveVerifier.preprocRow (recursiveQueriesFinal (allQueries statements))
        (allChallenges (allQueries statements)) numFolds) :=
  RecursiveVerifier.buildPreproc_queries node.rounds_length (nodeLogSize_fits node large).2.1

theorem Moves.updates_fit {st : NonceStatement (Quad ℕ)} (moves : Moves logSize st) :
    (st.pinnedUpdates nonceNodeWords).length * st.depth * 22 ≤ 2 ^ logSize := by
  have rows := rows_le_growLogSize (max st.updates.length 1 * max st.depth 1 * 22) 5
  have grown : 2 ^ nonceLogSize st.updates.length st.depth ≤ 2 ^ logSize :=
    Nat.pow_le_pow_right (by omega) moves.fits
  rw [pinnedUpdates_length]
  refine (Nat.mul_le_mul_right 22 (Nat.mul_le_mul (le_max_left _ 1) (le_max_left _ 1))).trans ?_
  exact rows.trans grown

/-- The columns that the verifier rebuilds, for the runs that it computes. -/
theorem Node.canonicalTree_eq (node : Node numFolds statements)
    (large : nodeLogSize statements numFolds ≤ logSize)
    {nonce : Option (NonceStatement (Quad ℕ))} (moves : ∀ st ∈ nonce, Moves logSize st) :
    (sizedShape numFolds logSize statements).canonicalTree
      ((statements.map TreeStatement.steps).map ChannelT8.honestRun)
      ((nodeClaims statements).map PathClaim.root) nonce =
      .ok (nodeColumns numFolds logSize statements nonce) := by
  have paths : (sizedShape numFolds logSize statements).paths
      ((nodeClaims statements).map PathClaim.root) = PathClaim.paths (nodeClaims statements) :=
    shapeOf_paths node.shaped
  have merkle := (node.paths_wellFormed large).preproc
  have folds := node.folds_preproc large
  rw [NodeShape.canonicalTree, paths, bind_eq_ok]
  refine ⟨_, folds, ?_⟩
  rw [bind_eq_ok]
  refine ⟨_, merkle, ?_⟩
  cases nonce with
  | none => rfl
  | some st =>
      have moved := moves st rfl
      have built : NonceUpdateT8.buildPreproc (st.pinnedUpdates nonceNodeWords) st.depth logSize =
          .ok (columnsOf (NonceUpdateT8.preprocWrites (st.pinnedUpdates nonceNodeWords)
            st.depth)) := by
        have positive := moved.pub.depth.1
        rw [NonceUpdateT8.buildPreproc, if_neg (by omega),
          if_neg (Nat.not_lt.mpr moved.updates_fit)]
      exact bind_eq_ok.mpr ⟨_, built, rfl⟩

end Columns

/-! ## Acceptance -/

section Acceptance

variable {numFolds logSize : ℕ} {statements : List TreeStatement}
  {nonce : Option (NonceStatement (Quad ℕ))}

/-- Only paths and siblings are left to the prover. -/
theorem Node.satisfiable_iff (node : Node numFolds statements)
    (large : nodeLogSize statements numFolds ≤ logSize) (domain : logSize ≤ maxCosetLogSize)
    (transcripts : ∀ st ∈ statements, st.steps ≠ []) (moves : ∀ st ∈ nonce, Moves logSize st) :
    Satisfiable nonce.isSome logSize (nodeColumns numFolds logSize statements nonce) ↔
      (∀ claim ∈ nodeClaims statements, claim.Opens) ∧
        ∀ st ∈ nonce, ∀ up ∈ st.pinnedUpdates nonceNodeWords, UpdateOpens st.depth up := by
  have paths := PathClaim.satisfiable_iff (node.paths_wellFormed large)
  have updates (st : NonceStatement (Quad ℕ)) (own : st ∈ nonce) := updates_satisfiable_iff
    (moves st own).pub.depth.1 (by
      apply List.ne_nil_of_length_pos
      rw [pinnedUpdates_length]
      exact List.length_pos_of_ne_nil (moves st own).some) (moves st own).updates_fit
  have nonempty : ∀ steps ∈ statements.map TreeStatement.steps, steps ≠ [] := by
    intro steps member
    rcases List.mem_map.mp member with ⟨st, listed, rfl⟩
    exact transcripts st listed
  have runs : ChannelT8.RunsOfChannel (statements.map TreeStatement.steps)
      ((statements.map TreeStatement.steps).map ChannelT8.honestRun) := by
    rw [ChannelT8.RunsOfChannel, List.map_map]
    rfl
  constructor
  · rintro ⟨-, -, merkle, -, transitions⟩
    refine ⟨paths.mp merkle, ?_⟩
    intro st own
    exact (updates st own).mp (transitions _ (Option.mem_map_of_mem _ own))
  · rintro ⟨opens, moved⟩
    constructor
    case circuits => exact Option.isSome_map
    case rv => exact RecursiveVerifier.folds_satisfiable _ _ _ _
    case merkle => exact paths.mpr opens
    case channel =>
      exact ⟨_, ChannelT8.built_satisfies nonempty domain (nodeLogSize_fits node large).1
        (ChannelT8.honestRuns_pairs _) runs⟩
    case nonce =>
      intro columns member
      rcases Option.mem_map.mp member with ⟨st, own, rfl⟩
      exact (updates st own).mpr (moved st own)

/-- The size of a node with its transition. -/
def sizeWith (statements : List TreeStatement) (numFolds : ℕ) :
    Option (NonceStatement (Quad ℕ)) → ℕ
  | none => nodeLogSize statements numFolds
  | some st => max (nodeLogSize statements numFolds) (nonceLogSize st.updates.length st.depth)

theorem nodeShapeWith_ok_iff {sh : NodeShape} :
    nodeShapeWith statements nonce = .ok sh ↔ ∃ numFolds, Node numFolds statements ∧
      (∀ st ∈ statements, ∃ derived, st.Derives numFolds derived) ∧
      (∀ st ∈ nonce, st.updates ≠ [] ∧ NonceUpdateT8.Public st ∧
        sizeWith statements numFolds nonce ≤ maxLog) ∧
      sh = sizedShape numFolds (sizeWith statements numFolds nonce) statements := by
  rw [nodeShapeWith, bind_eq_ok]
  constructor
  · rintro ⟨plain, built, next⟩
    rcases nodeShape_ok_iff.mp built with ⟨numFolds, node, derives, rfl⟩
    refine ⟨numFolds, node, derives, ?_⟩
    cases nonce with
    | none => exact ⟨nofun, (Except.ok.inj next).symm⟩
    | some st =>
        dsimp only at next
        split at next
        case h_1 => contradiction
        case h_2 passed =>
          split_ifs at next with empty large
          refine ⟨?_, (Except.ok.inj next).symm⟩
          intro other own
          rw [← Option.some.inj own]
          exact ⟨empty, (checkPublic_none_iff empty).mp passed, Nat.not_lt.mp large⟩
  · rintro ⟨numFolds, node, derives, moves, rfl⟩
    refine ⟨_, nodeShape_ok_iff.mpr ⟨numFolds, node, derives, rfl⟩, ?_⟩
    cases nonce with
    | none => rfl
    | some st =>
        rcases moves st rfl with ⟨some, passed, within⟩
        dsimp only
        rw [(checkPublic_none_iff some).mpr passed]
        dsimp only
        rw [if_neg some, if_neg]
        · rfl
        · exact Nat.not_lt.mpr within

/-- A statement runs under the transcript of the inputs it committed to. -/
structure TreeStatement.Replays (numFolds : ℕ) (st : TreeStatement) (inp : Vfri11ChannelInputs)
    (first : Bytes32) (roots : List Bytes32) : Prop where
  commits : st.Commits inp
  listed : inp.friLayerRoots = first :: roots
  folds : roots.length = numFolds
  short : st.steps.length ≤ maxSteps
  challenges : ∀ opened ∈ st.opened, RunsUnder (replayDraws inp first roots).zX
    ((replayDraws inp first roots).friAlpha :: (replayDraws inp first roots).friAlphas) opened.1

/-- The verifier's challenges are those of the replay. -/
theorem derives_iff_replays {st : TreeStatement} {inp : Vfri11ChannelInputs}
    (commits : st.Commits inp) : (∃ derived, st.Derives numFolds derived) ↔
      ∃ first roots, st.Replays numFolds inp first roots := by
  constructor
  · rintro ⟨derived, layout, run, challenges⟩
    have transcript := commits.steps
    rw [vfri11TranscriptSteps] at transcript
    split at transcript
    case h_1 => cases transcript
    case h_2 first roots listed =>
      have own := commits.layout
      rw [listed, List.length_cons, Nat.add_sub_cancel] at own
      have folds : roots.length = numFolds := by
        rw [own, vfri11ChallengeLayout, List.length_map, List.length_range] at layout
        omega
      have short : st.steps.length ≤ maxSteps := by
        rw [deriveChallenges] at run
        split_ifs at run with empty long
        exact Nat.not_lt.mp long
      rcases deriveChallenges_of_short listed commits.steps short with ⟨replayed, again, zX, alphas⟩
      rw [own, again] at run
      cases run
      rw [zX, alphas] at challenges
      exact ⟨first, roots, commits, listed, folds, short, challenges⟩
  · rintro ⟨first, roots, -, listed, folds, short, challenges⟩
    have own := commits.layout
    rw [listed, List.length_cons, Nat.add_sub_cancel] at own
    rcases deriveChallenges_of_short listed commits.steps short with ⟨derived, run, zX, alphas⟩
    refine ⟨derived, ?_, own ▸ run, ?_⟩
    · rw [own, vfri11ChallengeLayout, List.length_map, List.length_range, folds]
    · rw [zX, alphas]
      exact challenges

theorem derives_steps {st : TreeStatement} {derived : DerivedChallenges}
    (derives : st.Derives numFolds derived) : st.steps ≠ [] ∧ st.steps.length ≤ maxSteps := by
  have run := derives.run
  rw [deriveChallenges] at run
  split_ifs at run with empty long
  exact ⟨fun none => empty (none ▸ rfl), Nat.not_lt.mp long⟩

/-- Everything that a statement opens. -/
structure TreeStatement.Opens (st : TreeStatement) (inp : Vfri11ChannelInputs) : Prop where
  finals : ∀ opened ∈ st.opened,
    (finalClaim (p2t8NodeWords (inp.friLayerRoots.getLastD 0)) opened).Opens
  pos : ∀ opened ∈ st.opened, (posClaim (p2t8NodeWords inp.compRoot) opened).Opens
  neg : ∀ opened ∈ st.opened, (negClaim (p2t8NodeWords inp.compRoot) opened).Opens
  member : ∀ m ∈ st.membership, (memberClaim m).Opens

theorem claimsOf_open_iff {claim : TreeStatement → QueryPaths → PathClaim} :
    (∀ entry ∈ claimsOf claim statements, entry.Opens) ↔
      ∀ st ∈ statements, ∀ opened ∈ st.opened, (claim st opened).Opens := by
  simp only [claimsOf, List.mem_flatMap, List.mem_map]
  constructor
  · intro all st listed opened own
    exact all _ ⟨st, listed, opened, own, rfl⟩
  · rintro all entry ⟨st, listed, opened, own, rfl⟩
    exact all st listed opened own

/-- The claims of a node open when those of each statement do. -/
theorem nodeClaims_open_iff (commits : ∀ st ∈ statements, ∃ inp, st.Commits inp) :
    (∀ claim ∈ nodeClaims statements, claim.Opens) ↔
      ∀ st ∈ statements, ∀ inp, st.Commits inp → st.Opens inp := by
  have members : (∀ claim ∈ (memberships statements).map memberClaim, claim.Opens) ↔
      ∀ st ∈ statements, ∀ m ∈ st.membership, (memberClaim m).Opens := by
    rw [List.forall_mem_map]
    simp only [mem_memberships]
    exact ⟨fun all st listed m own => all m ⟨st, listed, own⟩,
      fun all m ⟨st, listed, own⟩ => all st listed m own⟩
  rw [nodeClaims, List.forall_mem_append, List.forall_mem_append, List.forall_mem_append,
    claimsOf_open_iff, claimsOf_open_iff, claimsOf_open_iff, members]
  constructor
  · rintro ⟨⟨⟨finals, pos⟩, neg⟩, member⟩ st listed inp own
    have roots := own.committed_eq
    constructor
    case finals => simpa only [roots] using finals st listed
    case pos => simpa only [roots] using pos st listed
    case neg => simpa only [roots] using neg st listed
    case member => exact member st listed
  · intro all
    have each (st : TreeStatement) (listed : st ∈ statements) : ∃ inp,
        st.committed = (p2t8NodeWords (inp.friLayerRoots.getLastD 0), p2t8NodeWords inp.compRoot) ∧
          st.Opens inp := by
      rcases commits st listed with ⟨inp, own⟩
      exact ⟨inp, own.committed_eq, all st listed inp own⟩
    refine ⟨⟨⟨?_, ?_⟩, ?_⟩, ?_⟩
    · intro st listed
      rcases each st listed with ⟨inp, roots, opens⟩
      rw [roots]
      exact opens.finals
    · intro st listed
      rcases each st listed with ⟨inp, roots, opens⟩
      rw [roots]
      exact opens.pos
    · intro st listed
      rcases each st listed with ⟨inp, roots, opens⟩
      rw [roots]
      exact opens.neg
    · intro st listed
      rcases each st listed with ⟨inp, roots, opens⟩
      exact opens.member

end Acceptance

/-! ## What the verifiers accept -/

section Verifiers

variable {system : Bool → ProofSystem Preproc} {logSize : ℕ} {statements : List TreeStatement}

/-- What the verifier against given roots accepts has satisfiable columns. -/
theorem pinned_accepted_satisfiable {nonce : Option (NonceStatement (Quad ℕ))}
    (sound : (system nonce.isSome).Sound (Satisfiable nonce.isSome)) {roots : List (Quad ℕ)}
    {proofBytes : List UInt8} (accepted : verifyTreeNodePinned system proofBytes logSize statements
      roots nonce = .ok true) :
    ∃ sh preproc, nodeShapeWith statements nonce = .ok sh ∧ logSize = sh.logSize ∧
      roots.length = sh.depths.length ∧
      sh.canonicalTree (ChannelT8.buildTraceMultiRaw sh.transcripts sh.logSize).2 roots nonce =
        .ok preproc ∧ Satisfiable nonce.isSome sh.logSize preproc := by
  rcases bind_eq_ok.mp accepted with ⟨sh, shaped, next⟩
  split_ifs at next with size count
  unfold verifyShape at next
  rcases sound.verifyAgainst next with ⟨preproc, built, satisfiable⟩
  exact ⟨sh, preproc, shaped, not_not.mp size, not_not.mp count, built, satisfiable⟩

/-- The verifier against given roots accepts what its rebuilt columns admit. -/
theorem pinned_satisfiable_accepted {nonce : Option (NonceStatement (Quad ℕ))}
    (complete : (system nonce.isSome).Complete (Satisfiable nonce.isSome))
    {roots : List (Quad ℕ)} {sh : NodeShape} {preproc : Preproc}
    (shaped : nodeShapeWith statements nonce = .ok sh) (count : roots.length = sh.depths.length)
    (built : sh.canonicalTree (ChannelT8.buildTraceMultiRaw sh.transcripts sh.logSize).2 roots
      nonce = .ok preproc) (satisfiable : Satisfiable nonce.isSome sh.logSize preproc) :
    ∃ proofBytes, verifyTreeNodePinned system proofBytes sh.logSize statements roots nonce =
      .ok true := by
  have verified : ∃ proofBytes, verifyShape system proofBytes sh roots nonce = .ok true := by
    unfold verifyShape
    exact complete.verifyAgainst built satisfiable
  rcases verified with ⟨proofBytes, verified⟩
  refine ⟨proofBytes, bind_eq_ok.mpr ⟨sh, shaped, ?_⟩⟩
  rw [if_neg (not_not.mpr rfl), if_neg (not_not.mpr count)]
  exact verified

/-- The runs that the verifier computes. -/
theorem Node.runs_eq {numFolds : ℕ} (node : Node numFolds statements)
    (large : nodeLogSize statements numFolds ≤ logSize)
    (domain : logSize ≤ maxCosetLogSize) :
    (ChannelT8.buildTraceMultiRaw (statements.map TreeStatement.steps) logSize).2 =
      (statements.map TreeStatement.steps).map ChannelT8.honestRun := by
  rw [ChannelT8.buildTraceMultiRaw_eq domain (nodeLogSize_fits node large).1 []]

theorem le_sizeWith (statements : List TreeStatement) (numFolds : ℕ)
    (nonce : Option (NonceStatement (Quad ℕ))) :
    nodeLogSize statements numFolds ≤ sizeWith statements numFolds nonce := by
  cases nonce with
  | none => exact le_rfl
  | some st => exact le_max_left _ _

theorem sizeWith_le {numFolds : ℕ} (node : Node numFolds statements)
    (short : ∀ st ∈ statements, st.steps.length ≤ maxSteps)
    {nonce : Option (NonceStatement (Quad ℕ))}
    (capped : nonce.isSome → sizeWith statements numFolds nonce ≤ maxLog) :
    sizeWith statements numFolds nonce ≤ maxCosetLogSize := by
  cases nonce with
  | none => exact nodeLogSize_le node short
  | some st => exact (capped rfl).trans (by decide)

/-- A transition that a root of a given size attests: its public relations, a size within the cap,
and for each update an opening of the leaf before and of the leaf after along one list of
siblings. -/
structure Transition (logSize : ℕ) (st : NonceStatement (Quad ℕ)) : Prop where
  some : st.updates ≠ []
  pub : NonceUpdateT8.Public st
  size : logSize ≤ maxLog
  opens : ∀ up ∈ st.pinnedUpdates nonceNodeWords, UpdateOpens st.depth up

/-- What a node attests: its statements replay and open.  `node` holds the shapes that need no
proof; for each statement there are the inputs that it carries and the roots of its layers, under
which its challenges are those of the transcript and its values open. -/
structure Attests (numFolds : ℕ) (statements : List TreeStatement) : Prop where
  node : Node numFolds statements
  each : ∀ st ∈ statements, ∃ inp first roots, st.Replays numFolds inp first roots ∧ st.Opens inp

theorem TreeStatement.Commits.unique {st : TreeStatement} {inp other : Vfri11ChannelInputs}
    (first : st.Commits inp) (second : st.Commits other) : inp = other :=
  Option.some.inj (first.inputs.symm.trans second.inputs)

/-- What either verifier accepts is attested. -/
theorem expected_accepted_attests {nonce : Option (NonceStatement (Quad ℕ))}
    (sound : (system nonce.isSome).Sound (Satisfiable nonce.isSome)) {proofBytes : List UInt8}
    (accepted : (treeNodeExpectedRoots statements >>= fun roots =>
      verifyTreeNodePinned system proofBytes logSize statements roots nonce) = .ok true) :
    ∃ numFolds, Attests numFolds statements ∧ logSize = sizeWith statements numFolds nonce ∧
      ∀ st ∈ nonce, Transition logSize st := by
  rcases bind_eq_ok.mp accepted with ⟨roots, expected, verified⟩
  rcases pinned_accepted_satisfiable sound verified with
    ⟨sh, preproc, shaped, size, -, built, satisfiable⟩
  rcases nodeShapeWith_ok_iff.mp shaped with ⟨numFolds, node, derives, passed, rfl⟩
  rcases (treeNodeExpectedRoots_iff node.shaped).mp expected with ⟨commits, rfl⟩
  change logSize = sizeWith statements numFolds nonce at size
  change Satisfiable nonce.isSome (sizeWith statements numFolds nonce) preproc at satisfiable
  have short : ∀ st ∈ statements, st.steps ≠ [] ∧ st.steps.length ≤ maxSteps := by
    intro st member
    rcases derives st member with ⟨derived, own⟩
    exact derives_steps own
  have large : nodeLogSize statements numFolds ≤ logSize := size ▸ le_sizeWith _ _ _
  have domain : logSize ≤ maxCosetLogSize := by
    rw [size]
    apply sizeWith_le node fun st member => (short st member).2
    intro present
    rcases Option.isSome_iff_exists.mp present with ⟨st, own⟩
    exact (passed st own).2.2
  have moves : ∀ st ∈ nonce, Moves logSize st := by
    intro st own
    rcases passed st own with ⟨some, public_, -⟩
    refine ⟨some, public_, ?_⟩
    rw [size, own]
    exact le_max_right _ _
  rw [← size] at built satisfiable
  have runs := node.runs_eq large domain
  have columns := node.canonicalTree_eq large moves
  rw [← runs] at columns
  cases built.symm.trans columns
  rcases (node.satisfiable_iff large domain (fun st member => (short st member).1) moves).mp
    satisfiable with ⟨opens, moved⟩
  rw [nodeClaims_open_iff commits] at opens
  refine ⟨numFolds, ⟨node, ?_⟩, size, ?_⟩
  · intro st member
    rcases commits st member with ⟨inp, own⟩
    rcases (derives_iff_replays own).mp (derives st member) with ⟨first, roots, replays⟩
    exact ⟨inp, first, roots, replays, opens st member inp own⟩
  · intro st own
    rcases passed st own with ⟨some, public_, within⟩
    exact ⟨some, public_, size ▸ within, moved st own⟩

/-- Both verifiers at once. -/
theorem expected_accepted_iff {nonce : Option (NonceStatement (Quad ℕ))}
    (sound : (system nonce.isSome).Sound (Satisfiable nonce.isSome))
    (complete : (system nonce.isSome).Complete (Satisfiable nonce.isSome)) :
    (∃ proofBytes, (treeNodeExpectedRoots statements >>= fun roots =>
      verifyTreeNodePinned system proofBytes logSize statements roots nonce) = .ok true) ↔
      ∃ numFolds, Attests numFolds statements ∧ logSize = sizeWith statements numFolds nonce ∧
        ∀ st ∈ nonce, Transition logSize st := by
  constructor
  · rintro ⟨proofBytes, accepted⟩
    exact expected_accepted_attests sound accepted
  · rintro ⟨numFolds, ⟨node, each⟩, size, transition⟩
    have commits : ∀ st ∈ statements, ∃ inp, st.Commits inp := by
      intro st member
      rcases each st member with ⟨inp, first, roots, replays, -⟩
      exact ⟨inp, replays.commits⟩
    have derives : ∀ st ∈ statements, ∃ derived, st.Derives numFolds derived := by
      intro st member
      rcases each st member with ⟨inp, first, roots, replays, -⟩
      exact (derives_iff_replays replays.commits).mpr ⟨first, roots, replays⟩
    have short : ∀ st ∈ statements, st.steps ≠ [] ∧ st.steps.length ≤ maxSteps := by
      intro st member
      rcases derives st member with ⟨derived, own⟩
      exact derives_steps own
    have large : nodeLogSize statements numFolds ≤ logSize := size ▸ le_sizeWith _ _ _
    have domain : logSize ≤ maxCosetLogSize := by
      rw [size]
      apply sizeWith_le node fun st member => (short st member).2
      intro present
      rcases Option.isSome_iff_exists.mp present with ⟨st, own⟩
      exact size ▸ (transition st own).size
    have moves : ∀ st ∈ nonce, Moves logSize st := by
      intro st own
      refine ⟨(transition st own).some, (transition st own).pub, ?_⟩
      rw [size, own]
      exact le_max_right _ _
    have opens : ∀ claim ∈ nodeClaims statements, claim.Opens := by
      rw [nodeClaims_open_iff commits]
      intro st member inp own
      rcases each st member with ⟨other, first, roots, replays, opened⟩
      rwa [own.unique replays.commits]
    have columns := node.canonicalTree_eq large moves
    rw [← node.runs_eq large domain] at columns
    have shaped : nodeShapeWith statements nonce = .ok (sizedShape numFolds logSize statements) := by
      rw [size]
      refine nodeShapeWith_ok_iff.mpr ⟨numFolds, node, derives, ?_, rfl⟩
      intro st own
      exact ⟨(transition st own).some, (transition st own).pub, size ▸ (transition st own).size⟩
    have count : ((nodeClaims statements).map PathClaim.root).length =
        (sizedShape numFolds logSize statements).depths.length := by
      have depths : (sizedShape numFolds logSize statements).depths = nodeDepths statements := rfl
      rw [depths, ← nodeClaims_depths node.shaped, List.length_map, List.length_map]
    have satisfiable := (node.satisfiable_iff large domain
      (fun st member => (short st member).1) moves).mpr
        ⟨opens, fun st own => (transition st own).opens⟩
    have expected := (treeNodeExpectedRoots_iff node.shaped).mpr ⟨commits, rfl⟩
    rcases pinned_satisfiable_accepted complete shaped count columns satisfiable with
      ⟨proofBytes, verified⟩
    exact ⟨proofBytes, bind_eq_ok.mpr ⟨_, expected, verified⟩⟩

end Verifiers

/-- Over a sound and complete proof system some proof of a node is accepted exactly when its size
is the canonical one, every statement runs under the transcript of the inputs it carries, every
final fold and composition value opens under a root of these inputs, and every membership path
opens under the root it names.  Packed to 32 bytes, the words of this root are the seed of the
transcript. -/
theorem tree_node_accepted_iff {system : Bool → ProofSystem Preproc}
    (sound : (system false).Sound (Satisfiable false))
    (complete : (system false).Complete (Satisfiable false)) (logSize : ℕ)
    (statements : List TreeStatement) :
    (∃ proofBytes, verifyTreeNode system proofBytes logSize statements = .ok true) ↔
      ∃ numFolds, Attests numFolds statements ∧ logSize = nodeLogSize statements numFolds := by
  have both := @expected_accepted_iff system logSize statements none sound complete
  rw [show (∃ proofBytes, verifyTreeNode system proofBytes logSize statements = .ok true) ↔ _
    from both]
  simp [sizeWith]

/-- With a transition the same holds of the node, at a capped size, and the public relations of
the transition hold and its updates open, each of them along one list of siblings.  The size is
the larger of what the paths and what the updates need. -/
theorem tree_node_with_nonce_accepted_iff {system : Bool → ProofSystem Preproc}
    (sound : (system true).Sound (Satisfiable true))
    (complete : (system true).Complete (Satisfiable true)) (logSize : ℕ)
    (statements : List TreeStatement) (nonce : NonceStatement (Quad ℕ)) :
    (∃ proofBytes, verifyTreeNodeWithNonce system proofBytes logSize statements nonce =
      .ok true) ↔
      ∃ numFolds, Attests numFolds statements ∧
        logSize = max (nodeLogSize statements numFolds)
          (nonceLogSize nonce.updates.length nonce.depth) ∧ Transition logSize nonce := by
  have both := @expected_accepted_iff system logSize statements (some nonce) sound complete
  rw [show (∃ proofBytes, verifyTreeNodeWithNonce system proofBytes logSize statements nonce =
    .ok true) ↔ _ from both]
  simp [sizeWith]

/-! ## Two children -/

theorem packed_root (leaf : Quad ℕ) (sibs : List (Quad ℕ)) (bits : List Bool) :
    p2t8NodeWords (p2t8Pack (merklePathRootT8 leaf sibs bits)) = merklePathRootT8 leaf sibs bits := by
  have reached := merklePathRootT8_eq_words leaf sibs bits
  have fits : (merklePathRootT8 leaf sibs bits).All (· < 2 ^ 32) := reached ▸ words_small _
  exact p2t8NodeWords_p2t8Pack fits

theorem norm4_pathRoot (leaf : Quad ℕ) (sibs : List (Quad ℕ)) (bits : List Bool) :
    norm4 (merklePathRootT8 leaf sibs bits) = merklePathRootT8 leaf sibs bits := by
  rw [merklePathRootT8_eq_words]
  exact norm4_eq_self (words_canonical _)

/-- A claim whose root is packed from the root its siblings lead to. -/
theorem opens_packed {leaf : Quad ℕ} {sibs : List (Quad ℕ)} {bits : List Bool}
    (lengths : sibs.length = bits.length) (small : ∀ sib ∈ sibs, sib.All (· < u64Modulus)) :
    (PathClaim.mk leaf bits (p2t8NodeWords (p2t8Pack (merklePathRootT8 leaf sibs bits)))).Opens := by
  refine ⟨sibs, lengths, small, ?_⟩
  dsimp only
  rw [packed_root, norm4_pathRoot]

theorem norm4_small (quad : Quad ℕ) : (norm4 quad).All (· < u64Modulus) := by
  have small (word : ℕ) : word % P < u64Modulus :=
    (Nat.mod_lt word P_prime.pos).trans (by decide)
  exact ⟨small _, small _, small _, small _⟩

/-- The point is drawn from the trace root alone. -/
def pointOf (traceRoot : Bytes32) : ℕ := (P2T8Channel.init.mixRootFull traceRoot).drawSecureFelt.1

/-- The first challenge is drawn behind the composition root. -/
def alphaDraw (traceRoot : Bytes32) (pos neg : ℕ) (compRoot : Bytes32) : ℕ × P2T8Channel :=
  let z := (P2T8Channel.init.mixRootFull traceRoot).drawSecureFelt
  let comp := z.2.drawSecureFelt
  ((comp.2.mixU32s (qm31Words pos ++ qm31Words neg)).mixRootW compRoot).drawSecureFelt

/-- The challenge of the second fold is drawn behind the root of the first layer. -/
def layerAlpha (draw : ℕ × P2T8Channel) (first : Bytes32) : ℕ :=
  (draw.2.mixRootW first).drawSecureFelt.1

theorem replayDraws_challenges (inp : Vfri11ChannelInputs) (first last : Bytes32) :
    let draw := alphaDraw inp.traceRoot inp.oodsComboPos inp.oodsComboNeg inp.compRoot
    (replayDraws inp first [last]).zX = pointOf inp.traceRoot ∧
      (replayDraws inp first [last]).friAlpha = draw.1 ∧
      (replayDraws inp first [last]).friAlphas = [layerAlpha draw first] := ⟨rfl, rfl, rfl⟩

/-- A query of two folds under given challenges. -/
def queryUnder (zX friAlpha alpha : ℕ) : StepOp × List FoldRound :=
  (⟨1, 2, 3, zX, 4, 5, friAlpha, 8⟩, [⟨6, alpha, 9⟩])

theorem queryUnder_runs (zX friAlpha alpha : ℕ) :
    RunsUnder zX [friAlpha, alpha] (queryUnder zX friAlpha alpha) := ⟨rfl, rfl⟩

theorem queryUnder_comp (zX friAlpha alpha : ℕ) :
    (queryChallenges (queryUnder zX friAlpha alpha).1 (queryUnder zX friAlpha alpha).2).compPos =
        (queryChallenges (queryUnder zX 0 0).1 (queryUnder zX 0 0).2).compPos ∧
      (queryChallenges (queryUnder zX friAlpha alpha).1 (queryUnder zX friAlpha alpha).2).compNeg =
        (queryChallenges (queryUnder zX 0 0).1 (queryUnder zX 0 0).2).compNeg := ⟨rfl, rfl⟩

section Child

variable (traceRoot : Bytes32)

def childPosLeaf : Quad ℕ := CompositionT8.qm31LeafHashT8 (queryChallenges
  (queryUnder (pointOf traceRoot) 0 0).1 (queryUnder (pointOf traceRoot) 0 0).2).compPos

def childNegLeaf : Quad ℕ := CompositionT8.qm31LeafHashT8 (queryChallenges
  (queryUnder (pointOf traceRoot) 0 0).1 (queryUnder (pointOf traceRoot) 0 0).2).compNeg

/-- The two composition values are the leaves of a tree. -/
def childCompRoot : Bytes32 :=
  p2t8Pack (merklePathRootT8 (childPosLeaf traceRoot) [norm4 (childNegLeaf traceRoot)] [false])

/-- The layer that is folded a second time. -/
def childLayer : Bytes32 := 7

def childDraw : ℕ × P2T8Channel := alphaDraw traceRoot 4 5 (childCompRoot traceRoot)

def childQuery : StepOp × List FoldRound :=
  queryUnder (pointOf traceRoot) (childDraw traceRoot).1 (layerAlpha (childDraw traceRoot) childLayer)

/-- The composition values do not depend on the folding challenges. -/
theorem childQuery_leaves :
    CompositionT8.qm31LeafHashT8 (queryChallenges (childQuery traceRoot).1
        (childQuery traceRoot).2).compPos = childPosLeaf traceRoot ∧
      CompositionT8.qm31LeafHashT8 (queryChallenges (childQuery traceRoot).1
        (childQuery traceRoot).2).compNeg = childNegLeaf traceRoot := by
  rcases queryUnder_comp (pointOf traceRoot) (childDraw traceRoot).1
    (layerAlpha (childDraw traceRoot) childLayer) with ⟨pos, neg⟩
  exact ⟨congrArg CompositionT8.qm31LeafHashT8 pos, congrArg CompositionT8.qm31LeafHashT8 neg⟩

def childSibs : List (Quad ℕ) := [⟨1, 2, 3, 4⟩, ⟨5, 6, 7, 8⟩]

def childLast : Bytes32 := p2t8Pack (merklePathRootT8 (CompositionT8.qm31LeafHashT8
  (RecursiveVerifier.recursiveQueryFinal (childQuery traceRoot).1 (childQuery traceRoot).2))
  childSibs [false, true])

/-- The left one of two members of a batch. -/
def childMember : BatchMembership where
  txId := ⟨1, 2, 3, 4⟩
  tr10 := ⟨5, 6, 7, 8⟩
  tr8 := ⟨9, 10, 11, 12⟩
  side := .log8
  sibs := [⟨13, 14, 15, 16⟩]
  bits := [false]
  batchRoot := merklePathRootT8 ⟨9, 10, 11, 12⟩
    [⟨5, 6, 7, 8⟩, ⟨1, 2, 3, 4⟩, leafDomain, ⟨13, 14, 15, 16⟩] [true, true, true, false]

def childInputs : Vfri11ChannelInputs where
  traceRoot := traceRoot
  oodsComboPos := 4
  oodsComboNeg := 5
  compRoot := childCompRoot traceRoot
  friLayerRoots := [childLayer, childLast traceRoot]
  batchRoot := p2t8Pack childMember.batchRoot
  treeDepth := 3
  nQueries := 1

/-- The child of a trace root: one query, folded twice. -/
def child : TreeStatement where
  steps := (vfri11TranscriptSteps (childInputs traceRoot)).toOption.getD []
  layout := vfri11ChallengeLayout 1
  queries := [childQuery traceRoot]
  paths := [(childSibs, [false, true])]
  compPaths := [⟨[norm4 (childNegLeaf traceRoot)], [false], [norm4 (childPosLeaf traceRoot)],
    [true]⟩]
  membership := some childMember
  inputs := some (childInputs traceRoot)

theorem childInputs_accepted : (childInputs traceRoot).Accepted :=
  ⟨⟨Nat.le_succ 2, (by decide : 3 ≤ 30)⟩, ⟨le_rfl, (by decide : 1 ≤ 64)⟩,
    ⟨Nat.le_succ 1, (by decide : 2 ≤ 29)⟩⟩

theorem child_steps :
    vfri11TranscriptSteps (childInputs traceRoot) = .ok (child traceRoot).steps := by
  have written := vfri11TranscriptSteps_eq (childInputs_accepted traceRoot) rfl
  rw [child, written]
  rfl

theorem child_short : (child traceRoot).steps.length ≤ maxSteps := by
  have written := (child_steps traceRoot).symm.trans
    (vfri11TranscriptSteps_eq (childInputs_accepted traceRoot) rfl)
  rw [Except.ok.inj written, steps_length]
  exact (by decide : 38 + 6 * 1 + (1 + 1) / 2 ≤ maxSteps)

theorem child_opened : (child traceRoot).opened = [(childQuery traceRoot, (childSibs, [false, true]),
    ⟨[norm4 (childNegLeaf traceRoot)], [false], [norm4 (childPosLeaf traceRoot)], [true]⟩)] := rfl

theorem child_replays :
    (child traceRoot).Replays 1 (childInputs traceRoot) childLayer [childLast traceRoot] := by
  constructor
  case commits =>
    refine ⟨rfl, child_steps traceRoot, rfl, rfl, ?_⟩
    intro m own
    cases own
    rfl
  case listed => rfl
  case folds => rfl
  case short => exact child_short traceRoot
  case challenges =>
    rcases replayDraws_challenges (childInputs traceRoot) childLayer (childLast traceRoot) with
      ⟨zX, friAlpha, friAlphas⟩
    rw [child_opened, zX, friAlpha, friAlphas]
    intro opened member
    rw [List.mem_singleton.mp member]
    exact queryUnder_runs _ _ _

/-- Both paths of a pair of leaves lead to one root. -/
theorem pair_root (left right : Quad ℕ) : merklePathRootT8 right [norm4 left] [true] =
    merklePathRootT8 left [norm4 right] [false] := by
  have again (quad : Quad ℕ) : norm4 (norm4 quad) = norm4 quad := by
    rw [← words_residues quad]
    exact norm4_eq_self (words_canonical _)
  simp [merklePathRootT8, Merkle.pathRoot_cons, again]

theorem child_opens : (child traceRoot).Opens (childInputs traceRoot) := by
  have single {sib other : Quad ℕ} (small : sib.All (· < u64Modulus)) (member : other ∈ [sib]) :
      other.All (· < u64Modulus) := by
    rwa [List.mem_singleton.mp member]
  constructor
  case finals =>
    rw [child_opened]
    intro opened member
    have last : (childInputs traceRoot).friLayerRoots.getLastD 0 = childLast traceRoot := rfl
    rw [List.mem_singleton.mp member, last, childLast, finalClaim]
    exact opens_packed rfl (by decide)
  case pos =>
    rw [child_opened]
    intro opened member
    have root : (childInputs traceRoot).compRoot = childCompRoot traceRoot := rfl
    rw [List.mem_singleton.mp member, root, childCompRoot, posClaim]
    dsimp only
    rw [(childQuery_leaves traceRoot).1]
    exact opens_packed rfl fun sib own => single (norm4_small _) own
  case neg =>
    rw [child_opened]
    intro opened member
    have root : (childInputs traceRoot).compRoot = childCompRoot traceRoot := rfl
    rw [List.mem_singleton.mp member, root, childCompRoot, negClaim]
    dsimp only
    rw [(childQuery_leaves traceRoot).2, ← pair_root]
    exact opens_packed rfl fun sib own => single (norm4_small _) own
  case member =>
    intro m own
    cases own
    refine ⟨[⟨5, 6, 7, 8⟩, ⟨1, 2, 3, 4⟩, leafDomain, ⟨13, 14, 15, 16⟩], rfl, by decide, ?_⟩
    exact (norm4_pathRoot _ _ _).symm

theorem child_shaped : (child traceRoot).Shaped 1 := by
  have depth : (child traceRoot).depth = 2 := rfl
  have compDepth : (child traceRoot).compDepth = 1 := rfl
  refine ⟨List.cons_ne_nil _ _, rfl, rfl, ?_, ?_, ?_, ?_⟩
  · rw [depth]
    decide
  · rw [compDepth]
    decide
  · rw [child_opened, depth, compDepth]
    intro opened listed
    rw [List.mem_singleton.mp listed]
    exact ⟨rfl, rfl, rfl, rfl, rfl, rfl, rfl⟩
  · intro m own
    cases own
    exact ⟨rfl, by decide⟩

end Child

/-- Two children over different traces. -/
def children : List TreeStatement := [child 0, child 1]

theorem child_of_mem {st : TreeStatement} (member : st ∈ children) :
    ∃ traceRoot, st = child traceRoot := by
  rcases List.mem_cons.mp member with rfl | later
  · exact ⟨0, rfl⟩
  · exact ⟨1, List.mem_singleton.mp later⟩

theorem children_attest : Attests 1 children := by
  refine ⟨⟨List.cons_ne_nil _ _, by decide, ?_, by decide⟩, ?_⟩
  · intro st member
    rcases child_of_mem member with ⟨traceRoot, rfl⟩
    exact child_shaped traceRoot
  · intro st member
    rcases child_of_mem member with ⟨traceRoot, rfl⟩
    exact ⟨_, _, _, child_replays traceRoot, child_opens traceRoot⟩

theorem two_children_accepted : ∃ proofBytes,
    verifyTreeNode (fun circuits => .oracle (Satisfiable circuits)) proofBytes
      (nodeLogSize children 1) children = .ok true :=
  (@tree_node_accepted_iff (fun circuits => .oracle (Satisfiable circuits))
    (ProofSystem.oracle_sound _) (ProofSystem.oracle_complete _) _ _).mpr ⟨1, children_attest, rfl⟩

theorem children_logSize_le : nodeLogSize children 1 ≤ 20 := by
  have short : ∀ st ∈ children, st.steps.length ≤ maxSteps := by
    intro st member
    rcases child_of_mem member with ⟨traceRoot, rfl⟩
    exact child_short traceRoot
  have queries : (allQueries children).length = 2 := rfl
  have count : children.length = 2 := rfl
  exact nodeLogSize_le_of children_attest.node short (by decide) (by rw [count]; decide)
    (by rw [queries]; decide) (by rw [queries, count]; decide)

/-- A small node with a transition of two updates. -/
theorem children_transition : Transition (max (nodeLogSize children 1)
    (nonceLogSize NonceUpdateT8.twoUses.updates.length NonceUpdateT8.twoUses.depth))
    NonceUpdateT8.twoUses := by
  constructor
  case some => exact List.cons_ne_nil _ _
  case pub =>
    refine ⟨by decide, by decide, ?_, ?_⟩
    · intro up member
      rcases List.mem_cons.mp member with rfl | later
      · exact ⟨by decide, by decide⟩
      · rw [List.mem_singleton.mp later]
        exact ⟨by decide, by decide⟩
    · intro last found
      have ends : NonceUpdateT8.twoUses.updates.getLast? =
          some ⟨2, 0, 1, NonceUpdateT8.twoUses.newRoot⟩ := rfl
      rw [ends] at found
      rw [← Option.some.inj found]
  case size =>
    have nonce : nonceLogSize NonceUpdateT8.twoUses.updates.length
        NonceUpdateT8.twoUses.depth ≤ 20 := growLogSize_le (by decide) (by decide)
    exact max_le children_logSize_le nonce
  case opens =>
    have depth : NonceUpdateT8.twoUses.depth = 2 := rfl
    have fits : [NonceUpdateT8.firstUpdate, NonceUpdateT8.secondUpdate].length * 2 * 22 ≤ 2 ^ 7 := by
      decide
    rw [NonceUpdateT8.twoUses_pinned, depth]
    exact (updates_satisfiable_iff Nat.two_pos (List.cons_ne_nil _ _) fits).mp
      ⟨_, NonceUpdateT8.twoUsesMain_satisfies⟩

theorem two_uses_accepted : ∃ proofBytes,
    verifyTreeNodeWithNonce (fun circuits => .oracle (Satisfiable circuits)) proofBytes
      (max (nodeLogSize children 1)
        (nonceLogSize NonceUpdateT8.twoUses.updates.length NonceUpdateT8.twoUses.depth))
      children NonceUpdateT8.twoUses = .ok true :=
  (@tree_node_with_nonce_accepted_iff (fun circuits => .oracle (Satisfiable circuits))
    (ProofSystem.oracle_sound _) (ProofSystem.oracle_complete _) _ _ _).mpr
    ⟨1, children_attest, rfl, children_transition⟩

end TreeNode
end Recursive
end QLSA
