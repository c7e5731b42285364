import QLSA.Recursive.TreeNode

namespace QLSA
namespace Recursive
namespace TreeNode

open Hash Mersenne Qm31 Stwo Vfri2
open Machine (bind_eq_ok checkAll checkAll_ok_iff mapM_ok_iff)
open CompositionT8 (qm31LeafHashT8)
open MerklePathT8 (bitsToIndex)
open RecursiveVerifier (FoldRound StepOp allChallenges queryChallenges recursiveQueriesFinal
  recursiveQueryFinal)

/-!
# What a node checks of its statements

The loops of the shape amount to conditions on each statement, and the lists
they fill are, entry by entry, the leaves, bits, depths and roots of one list
of claims: a leaf climbs along given bits to a root.  Path circuits prove
exactly such claims.
-/

/-! ## Claims about paths -/

/-- A leaf lies below a root, along bits. -/
structure PathClaim where
  leaf : Quad ℕ
  bits : List Bool
  root : Quad ℕ

namespace PathClaim

/-- Siblings, words of `u64`, lead from the leaf to the root modulo `P`. -/
def Opens (claim : PathClaim) : Prop :=
  ∃ sibs : List (Quad ℕ), sibs.length = claim.bits.length ∧
    (∀ sib ∈ sibs, sib.All (· < u64Modulus)) ∧
    merklePathRootT8 claim.leaf sibs claim.bits = norm4 claim.root

/-- The paths that pin a list of claims. -/
def paths (claims : List PathClaim) : MerklePathT8.Paths where
  leaves := claims.map leaf
  indices := claims.map fun claim => Merkle.position claim.bits
  roots := claims.map root
  depths := claims.map fun claim => claim.bits.length

variable {claims : List PathClaim}

theorem climbs_iff {path : ℕ} {claim : PathClaim} (found : claims[path]? = some claim) :
    (∃ sibs, (paths claims).Climbs path sibs) ↔ claim.Opens := by
  have leaf : (paths claims).leaf path = claim.leaf := by
    rw [MerklePathT8.Paths.leaf, paths, List.getD_eq_getElem?_getD, List.getElem?_map, found]
    rfl
  have index : (paths claims).index path = Merkle.position claim.bits := by
    rw [MerklePathT8.Paths.index, paths, List.getD_eq_getElem?_getD, List.getElem?_map, found]
    rfl
  have root : (paths claims).root path = claim.root := by
    rw [MerklePathT8.Paths.root, paths, List.getD_eq_getElem?_getD, List.getElem?_map, found]
    rfl
  have depth : (paths claims).depth path = claim.bits.length := by
    rw [MerklePathT8.Paths.depth, paths, List.getD_eq_getElem?_getD, List.getElem?_map, found]
    rfl
  constructor
  · rintro ⟨sibs, length, words, climbed⟩
    rw [leaf, index, root, depth, Merkle.indexBits_position] at climbed
    exact ⟨sibs, length.trans depth, words, climbed⟩
  · rintro ⟨sibs, length, words, climbed⟩
    refine ⟨sibs, length.trans depth.symm, words, ?_⟩
    rw [leaf, index, root, depth, Merkle.indexBits_position]
    exact climbed

/-- The path circuit over claims is satisfiable exactly when all of them open. -/
theorem satisfiable_iff {logSize : ℕ} (wellFormed : (paths claims).WellFormed logSize) :
    (∃ main, MerklePathT8.Satisfies main ((paths claims).preprocRow logSize) logSize) ↔
      ∀ claim ∈ claims, claim.Opens := by
  have count : (paths claims).leaves.length = claims.length := List.length_map _
  constructor
  · rintro ⟨main, satisfied⟩ claim member
    rcases List.mem_iff_getElem?.mp member with ⟨path, found⟩
    have inside : path < (paths claims).leaves.length := by
      rw [count]
      exact (List.getElem?_eq_some_iff.mp found).1
    exact (climbs_iff found).mp ⟨_, satisfied.climbs wellFormed inside⟩
  · intro opens
    apply wellFormed.exists_satisfies
    intro path inside
    rw [count] at inside
    have found : claims[path]? = some claims[path] := List.getElem?_eq_getElem inside
    exact (climbs_iff found).mpr (opens _ (List.getElem_mem inside))

end PathClaim

/-! ## The checks of a statement -/

/-- A query that fits the depths of its statement and runs under given challenges. -/
structure Fits (numFolds depth compDepth : ℕ) (opened : QueryPaths) : Prop where
  rounds : opened.1.2.length = numFolds
  sibs : opened.2.1.1.length = depth
  bits : opened.2.1.2.length = depth
  posSibs : opened.2.2.posSibs.length = compDepth
  posBits : opened.2.2.posBits.length = compDepth
  negSibs : opened.2.2.negSibs.length = compDepth
  negBits : opened.2.2.negBits.length = compDepth

/-- The challenges of a query are those of its transcript. -/
def RunsUnder (zX : ℕ) (alphas : List ℕ) (query : StepOp × List FoldRound) : Prop :=
  (queryChallenges query.1 query.2).zX = zX ∧ (queryChallenges query.1 query.2).alphas = alphas

/-- One path and two composition paths for every query, all of them of the
depths of the first. -/
structure TreeStatement.Shaped (numFolds : ℕ) (st : TreeStatement) : Prop where
  some : st.queries ≠ []
  paths : st.paths.length = st.queries.length
  compPaths : st.compPaths.length = st.queries.length
  depth : 1 ≤ st.depth ∧ st.depth ≤ MerklePathT8.maxDepth
  compDepth : 1 ≤ st.compDepth ∧ st.compDepth ≤ MerklePathT8.maxDepth
  fits : ∀ opened ∈ st.opened, Fits numFolds st.depth st.compDepth opened
  membership : ∀ m ∈ st.membership,
    m.sibs.length = m.bits.length ∧ m.depth ≤ MerklePathT8.maxDepth

/-- The transcript yields the challenges of every query. -/
structure TreeStatement.Derives (numFolds : ℕ) (st : TreeStatement) (derived : DerivedChallenges) :
    Prop where
  layout : st.layout.alphaAt.length = 1 + numFolds
  run : deriveChallenges st.steps st.layout = .ok derived
  challenges : ∀ opened ∈ st.opened, RunsUnder derived.zX derived.alphas opened.1

theorem depthFault_iff {i : ℕ} {st : TreeStatement} :
    depthFault i st = none ↔ st.paths ≠ [] ∧ st.compPaths ≠ [] ∧
      (1 ≤ st.depth ∧ st.depth ≤ MerklePathT8.maxDepth) ∧ 1 ≤ st.compDepth ∧ st.compDepth ≤ MerklePathT8.maxDepth := by
  unfold depthFault
  constructor
  · intro faultless
    split_ifs at faultless with missing zero deep
    simp only [not_or, not_lt] at missing zero deep
    exact ⟨missing.1, missing.2, ⟨Nat.pos_of_ne_zero zero.1, deep.1⟩,
      Nat.pos_of_ne_zero zero.2, deep.2⟩
  · rintro ⟨paths, compPaths, depth, compDepth⟩
    rw [if_neg (not_or.mpr ⟨paths, compPaths⟩), if_neg (by omega), if_neg (by omega)]

theorem queryFault_iff {i q numFolds depth compDepth : ℕ} {derived : DerivedChallenges}
    {opened : QueryPaths} :
    queryFault i numFolds depth compDepth derived q opened = none ↔
      Fits numFolds depth compDepth opened ∧ RunsUnder derived.zX derived.alphas opened.1 := by
  rcases opened with ⟨query, path, comp⟩
  unfold queryFault
  dsimp only
  constructor
  · intro faultless
    split_ifs at faultless with rounds path comps zX alphas
    simp only [not_or, not_not] at rounds path comps zX alphas
    exact ⟨⟨rounds, path.1, path.2, comps.1, comps.2.1, comps.2.2.1, comps.2.2.2⟩, zX, alphas⟩
  · rintro ⟨fits, zX, alphas⟩
    rw [if_neg (not_not.mpr fits.rounds), if_neg, if_neg, if_neg (not_not.mpr zX),
      if_neg (not_not.mpr alphas)]
    · simp only [not_or, not_not]
      exact ⟨fits.posSibs, fits.posBits, fits.negSibs, fits.negBits⟩
    · simp only [not_or, not_not]
      exact ⟨fits.sibs, fits.bits⟩

theorem checkQueries_iff {i q numFolds depth compDepth : ℕ} {derived : DerivedChallenges}
    {list : List QueryPaths} :
    checkAll (queryFault i numFolds depth compDepth derived) q list = .ok () ↔
      ∀ opened ∈ list, Fits numFolds depth compDepth opened ∧
        RunsUnder derived.zX derived.alphas opened.1 := by
  apply checkAll_ok_iff
  intro q opened
  exact queryFault_iff

theorem membershipFault_iff {i : ℕ} {m : BatchMembership} :
    membershipFault i m = none ↔
      m.sibs.length = m.bits.length ∧ m.depth ≤ MerklePathT8.maxDepth := by
  unfold membershipFault
  constructor
  · intro faultless
    split_ifs at faultless with lengths deep
    exact ⟨not_not.mp lengths, Nat.not_lt.mp deep⟩
  · rintro ⟨lengths, deep⟩
    rw [if_neg (not_not.mpr lengths), if_neg (Nat.not_lt.mpr deep)]

theorem statementFault_iff {numFolds i : ℕ} {st : TreeStatement} :
    statementFault numFolds i st = none ↔ st.queries ≠ [] ∧
      st.paths.length = st.queries.length ∧ st.compPaths.length = st.queries.length ∧
      (∀ opened ∈ st.opened, Fits numFolds st.depth st.compDepth opened) ∧
      ∃ derived, st.Derives numFolds derived := by
  unfold statementFault
  constructor
  · intro faultless
    split_ifs at faultless with none lengths layout
    simp only [not_or, not_not] at lengths layout
    cases derives : deriveChallenges st.steps st.layout with
    | error e =>
        rw [derives] at faultless
        contradiction
    | ok derived =>
        rw [derives] at faultless
        dsimp only at faultless
        split at faultless
        case h_1 => contradiction
        case h_2 passed =>
          have each := checkQueries_iff.mp passed
          exact ⟨none, lengths.1, lengths.2, fun opened member => (each opened member).1, derived,
            layout, derives, fun opened member => (each opened member).2⟩
  · rintro ⟨some, paths, compPaths, fits, derived, layout, derives, challenges⟩
    have passed : checkAll (queryFault i numFolds st.depth st.compDepth derived) 0 st.opened =
        .ok () := by
      rw [checkQueries_iff]
      exact fun opened member => ⟨fits opened member, challenges opened member⟩
    rw [if_neg some, if_neg, if_neg (not_not.mpr layout), derives]
    · dsimp only
      rw [passed]
    · simp only [not_or, not_not]
      exact ⟨paths, compPaths⟩

/-! ## The checks of a node -/

/-- Statements that make up a node. -/
structure Node (numFolds : ℕ) (statements : List TreeStatement) : Prop where
  some : statements ≠ []
  numFolds_le : numFolds ≤ RecursiveVerifier.maxNumFolds
  shaped : ∀ st ∈ statements, st.Shaped numFolds
  queries_le : (allQueries statements).length ≤ RecursiveVerifier.maxQueries

/-- The shape of a node, from statements that agree with the first of them in depths and folds: the
lists that `node_shape` collects, one entry for each query, path or transcript. -/
def shapeOf (numFolds : ℕ) (statements : List TreeStatement) : NodeShape where
  numFolds := numFolds
  depth := (statements.head?.map TreeStatement.depth).getD 0
  compDepth := (statements.head?.map TreeStatement.compDepth).getD 0
  logSize := nodeLogSize statements numFolds
  challenges := allChallenges (allQueries statements)
  finals := recursiveQueriesFinal (allQueries statements)
  leaves := nodeLeaves statements
  sibs := nodeSibs statements
  bits := nodeBits statements
  indices := (nodeBits statements).map Merkle.position
  depths := nodeDepths statements
  transcripts := statements.map TreeStatement.steps
  queries := allQueries statements
  counts := statements.map fun st => st.queries.length

section Opened

variable {numFolds : ℕ} {st : TreeStatement} {statements : List TreeStatement}

theorem TreeStatement.Shaped.opened_queries (shaped : st.Shaped numFolds) :
    st.opened.map Prod.fst = st.queries := by
  apply List.map_fst_zip
  rw [List.length_zip, shaped.paths, shaped.compPaths, Nat.min_self]

theorem TreeStatement.Shaped.opened_pairs (shaped : st.Shaped numFolds) :
    st.opened.map Prod.snd = st.paths.zip st.compPaths := by
  apply List.map_snd_zip
  rw [List.length_zip, shaped.paths, shaped.compPaths, Nat.min_self]

theorem TreeStatement.Shaped.opened_paths (shaped : st.Shaped numFolds) :
    st.opened.map (fun opened => opened.2.1) = st.paths := by
  have pairs := congrArg (List.map Prod.fst) shaped.opened_pairs
  rw [List.map_map, List.map_fst_zip (by rw [shaped.paths, shaped.compPaths])] at pairs
  exact pairs

theorem TreeStatement.Shaped.opened_compPaths (shaped : st.Shaped numFolds) :
    st.opened.map (fun opened => opened.2.2) = st.compPaths := by
  have pairs := congrArg (List.map Prod.snd) shaped.opened_pairs
  rw [List.map_map, List.map_snd_zip (by rw [shaped.paths, shaped.compPaths])] at pairs
  exact pairs

theorem TreeStatement.Shaped.opened_length (shaped : st.Shaped numFolds) :
    st.opened.length = st.queries.length := by
  rw [← shaped.opened_queries, List.length_map]

end Opened

theorem mapM_bitsToIndex {bits : List (List Bool)} {indices : List ℕ} :
    bits.mapM bitsToIndex = .ok indices ↔
      (∀ path ∈ bits, path.length ≤ 32) ∧ indices = bits.map Merkle.position := by
  apply mapM_ok_iff
  intro path index
  rw [bitsToIndex]
  split
  case isTrue long => exact ⟨nofun, fun short => absurd short.1 (Nat.not_le.mpr long)⟩
  case isFalse short =>
    rw [Except.ok.injEq]
    exact ⟨fun same => ⟨Nat.not_lt.mp short, same.symm⟩, fun both => both.2.symm⟩

theorem mem_memberships {statements : List TreeStatement} {m : BatchMembership} :
    m ∈ memberships statements ↔ ∃ st ∈ statements, m ∈ st.membership := by
  simp only [memberships, List.mem_filterMap, Option.mem_def]

theorem bits_narrow {numFolds : ℕ} {statements : List TreeStatement}
    (shaped : ∀ st ∈ statements, st.Shaped numFolds) :
    ∀ path ∈ nodeBits statements, path.length ≤ 32 := by
  have within {st : TreeStatement} (own : st.Shaped numFolds) :
      (∀ bits ∈ st.paths.map Prod.snd, bits.length ≤ 32) ∧
      (∀ bits ∈ st.compPaths.map CompMembership.posBits, bits.length ≤ 32) ∧
      ∀ bits ∈ st.compPaths.map CompMembership.negBits, bits.length ≤ 32 := by
    have deep : MerklePathT8.maxDepth ≤ 32 := by decide
    have depth := own.depth.2.trans deep
    have compDepth := own.compDepth.2.trans deep
    rw [← own.opened_paths, ← own.opened_compPaths]
    simp only [List.map_map, List.forall_mem_map, Function.comp_apply]
    refine ⟨?_, ?_, ?_⟩
    · intro opened member
      rw [(own.fits opened member).bits]
      exact depth
    · intro opened member
      rw [(own.fits opened member).posBits]
      exact compDepth
    · intro opened member
      rw [(own.fits opened member).negBits]
      exact compDepth
  intro path member
  simp only [nodeBits, List.mem_append, List.mem_flatMap, List.mem_map] at member
  rcases member with ((⟨st, listed, own⟩ | ⟨st, listed, own⟩) | ⟨st, listed, own⟩) | ⟨m, listed, rfl⟩
  · exact (within (shaped st listed)).1 path (List.mem_map.mpr own)
  · exact (within (shaped st listed)).2.1 path (List.mem_map.mpr own)
  · exact (within (shaped st listed)).2.2 path (List.mem_map.mpr own)
  · rcases mem_memberships.mp listed with ⟨st, place, own⟩
    rcases (shaped st place).membership m own with ⟨lengths, deep⟩
    have bound : MerklePathT8.maxDepth ≤ 32 := by decide
    rw [BatchMembership.depth] at deep
    rw [BatchMembership.path, List.length_cons, List.length_cons, List.length_cons, ← lengths]
    omega

theorem paths_ne_nil {numFolds : ℕ} {st : TreeStatement} (shaped : st.Shaped numFolds) :
    st.paths ≠ [] ∧ st.compPaths ≠ [] := by
  have positive := List.length_pos_of_ne_nil shaped.some
  constructor
  · apply List.ne_nil_of_length_pos
    rwa [shaped.paths]
  · apply List.ne_nil_of_length_pos
    rwa [shaped.compPaths]

theorem checkDepths_iff {i : ℕ} {statements : List TreeStatement} :
    checkAll depthFault i statements = .ok () ↔ ∀ st ∈ statements, st.paths ≠ [] ∧
      st.compPaths ≠ [] ∧ (1 ≤ st.depth ∧ st.depth ≤ MerklePathT8.maxDepth) ∧
      1 ≤ st.compDepth ∧ st.compDepth ≤ MerklePathT8.maxDepth := by
  apply checkAll_ok_iff
  intro i st
  exact depthFault_iff

theorem checkStatements_iff {i numFolds : ℕ} {statements : List TreeStatement} :
    checkAll (statementFault numFolds) i statements = .ok () ↔ ∀ st ∈ statements,
      st.queries ≠ [] ∧ st.paths.length = st.queries.length ∧
      st.compPaths.length = st.queries.length ∧
      (∀ opened ∈ st.opened, Fits numFolds st.depth st.compDepth opened) ∧
      ∃ derived, st.Derives numFolds derived := by
  apply checkAll_ok_iff
  intro i st
  exact statementFault_iff

theorem checkMemberships_iff {i : ℕ} {list : List BatchMembership} :
    checkAll membershipFault i list = .ok () ↔ ∀ m ∈ list,
      m.sibs.length = m.bits.length ∧ m.depth ≤ MerklePathT8.maxDepth := by
  apply checkAll_ok_iff
  intro i m
  exact membershipFault_iff

/-- The loops pass exactly for nodes whose queries run under their transcripts. -/
theorem nodeShape_ok_iff {statements : List TreeStatement} {sh : NodeShape} :
    nodeShape statements = .ok sh ↔ ∃ numFolds, Node numFolds statements ∧
      (∀ st ∈ statements, ∃ derived, st.Derives numFolds derived) ∧
      sh = shapeOf numFolds statements := by
  unfold nodeShape
  constructor
  · intro built
    split at built
    case h_1 => contradiction
    case h_2 first rest =>
      split at built
      case h_1 => contradiction
      case h_2 step rounds others listed =>
        dsimp only at built
        split at built
        case isTrue => contradiction
        case isFalse folds =>
          rcases bind_eq_ok.mp built with ⟨⟨⟩, deep, next⟩
          rcases bind_eq_ok.mp next with ⟨⟨⟩, passed, next⟩
          split at next
          case isTrue => contradiction
          case isFalse count =>
            rcases bind_eq_ok.mp next with ⟨indices, placed, next⟩
            rcases bind_eq_ok.mp next with ⟨⟨⟩, members, finished⟩
            rw [checkDepths_iff] at deep
            rw [checkStatements_iff] at passed
            rw [checkMemberships_iff] at members
            rcases mapM_bitsToIndex.mp placed with ⟨-, rfl⟩
            refine ⟨rounds.length, ⟨List.cons_ne_nil _ _, Nat.not_lt.mp folds, ?_,
              Nat.not_lt.mp count⟩, fun st member => (passed st member).2.2.2.2,
              (Except.ok.inj finished).symm⟩
            intro st member
            rcases deep st member with ⟨-, -, depth, compDepth⟩
            rcases passed st member with ⟨some, paths, compPaths, fits, -⟩
            refine ⟨some, paths, compPaths, depth, compDepth, fits, ?_⟩
            intro m own
            exact members m (mem_memberships.mpr ⟨st, member, own⟩)
  · rintro ⟨numFolds, node, derives, rfl⟩
    rcases List.exists_cons_of_ne_nil node.some with ⟨first, rest, rfl⟩
    have shaped := node.shaped first List.mem_cons_self
    rcases List.exists_cons_of_ne_nil shaped.some with ⟨⟨step, rounds⟩, others, listed⟩
    have folds : rounds.length = numFolds := by
      have head : ((step, rounds) : StepOp × List FoldRound) ∈ first.queries := by
        rw [listed]
        exact List.mem_cons_self
      rw [← shaped.opened_queries] at head
      rcases List.mem_map.mp head with ⟨opened, member, same⟩
      have rounds := (shaped.fits opened member).rounds
      rw [same] at rounds
      exact rounds
    have deep : checkAll depthFault 0 (first :: rest) = .ok () := by
      rw [checkDepths_iff]
      intro st member
      have own := node.shaped st member
      exact ⟨(paths_ne_nil own).1, (paths_ne_nil own).2, own.depth, own.compDepth⟩
    have passed : checkAll (statementFault numFolds) 0 (first :: rest) = .ok () := by
      rw [checkStatements_iff]
      intro st member
      have own := node.shaped st member
      exact ⟨own.some, own.paths, own.compPaths, own.fits, derives st member⟩
    have members : checkAll membershipFault 0 (memberships (first :: rest)) = .ok () := by
      rw [checkMemberships_iff]
      intro m member
      rcases mem_memberships.mp member with ⟨st, place, own⟩
      exact (node.shaped st place).membership m own
    have placed : (nodeBits (first :: rest)).mapM bitsToIndex =
        .ok ((nodeBits (first :: rest)).map Merkle.position) :=
      mapM_bitsToIndex.mpr ⟨bits_narrow node.shaped, rfl⟩
    dsimp only
    rw [listed]
    dsimp only
    rw [folds, if_neg (Nat.not_lt.mpr node.numFolds_le), deep, passed, placed, members]
    dsimp only [bind, Except.bind]
    rw [if_neg (Nat.not_lt.mpr node.queries_le)]
    rfl

/-! ## The claims of a node -/

/-- Words of the roots a statement committed to. -/
def TreeStatement.committed (st : TreeStatement) : Quad ℕ × Quad ℕ :=
  match st.inputs with
  | none => (⟨0, 0, 0, 0⟩, ⟨0, 0, 0, 0⟩)
  | some inp => (p2t8NodeWords (inp.friLayerRoots.getLastD 0), p2t8NodeWords inp.compRoot)

/-- The final fold of a query lies in the last layer. -/
def finalClaim (root : Quad ℕ) (opened : QueryPaths) : PathClaim :=
  ⟨qm31LeafHashT8 (recursiveQueryFinal opened.1.1 opened.1.2), opened.2.1.2, root⟩

/-- The composition values of a query lie under the composition root. -/
def posClaim (root : Quad ℕ) (opened : QueryPaths) : PathClaim :=
  ⟨qm31LeafHashT8 (queryChallenges opened.1.1 opened.1.2).compPos, opened.2.2.posBits, root⟩

def negClaim (root : Quad ℕ) (opened : QueryPaths) : PathClaim :=
  ⟨qm31LeafHashT8 (queryChallenges opened.1.1 opened.1.2).compNeg, opened.2.2.negBits, root⟩

/-- A trace root lies in the batch. -/
def memberClaim (m : BatchMembership) : PathClaim := ⟨m.start, m.path.2, m.batchRoot⟩

/-- One kind of claim for all queries. -/
def claimsOf (claim : TreeStatement → QueryPaths → PathClaim) (statements : List TreeStatement) :
    List PathClaim :=
  statements.flatMap fun st => st.opened.map (claim st)

def nodeClaims (statements : List TreeStatement) : List PathClaim :=
  claimsOf (fun st => finalClaim st.committed.1) statements ++
    claimsOf (fun st => posClaim st.committed.2) statements ++
    claimsOf (fun st => negClaim st.committed.2) statements ++
    (memberships statements).map memberClaim

section Claims

variable {numFolds : ℕ} {statements : List TreeStatement}

/-- A column of the claims of one kind, statement by statement. -/
theorem claimsOf_map {α : Type} {claim : TreeStatement → QueryPaths → PathClaim}
    (field : PathClaim → α) {column : TreeStatement → List α}
    (each : ∀ st ∈ statements, (st.opened.map fun opened => field (claim st opened)) = column st) :
    (claimsOf claim statements).map field = statements.flatMap column := by
  rw [claimsOf, List.map_flatMap]
  apply List.flatMap_congr
  intro st member
  rw [List.map_map]
  exact each st member

theorem map_const {α : Type} {f : QueryPaths → α} {value : α} {list : List QueryPaths}
    (const : ∀ opened ∈ list, f opened = value) : list.map f = List.replicate list.length value := by
  rw [List.eq_replicate_iff, List.length_map]
  refine ⟨rfl, ?_⟩
  intro entry member
  rcases List.mem_map.mp member with ⟨opened, listed, rfl⟩
  exact const opened listed

/-- A function of the queries. -/
theorem TreeStatement.Shaped.map_queries {α : Type} {st : TreeStatement}
    (shaped : st.Shaped numFolds) (f : StepOp × List FoldRound → α) :
    st.opened.map (fun opened => f opened.1) = st.queries.map f := by
  rw [← shaped.opened_queries, List.map_map]
  rfl

variable (shaped : ∀ st ∈ statements, st.Shaped numFolds)

include shaped

theorem nodeClaims_leaves : (nodeClaims statements).map PathClaim.leaf = nodeLeaves statements := by
  have finals := @claimsOf_map statements _ (fun st => finalClaim st.committed.1) PathClaim.leaf _
    fun st member => (shaped st member).map_queries
      fun query => qm31LeafHashT8 (recursiveQueryFinal query.1 query.2)
  have pos := @claimsOf_map statements _ (fun st => posClaim st.committed.2) PathClaim.leaf _
    fun st member => (shaped st member).map_queries
      fun query => qm31LeafHashT8 (queryChallenges query.1 query.2).compPos
  have neg := @claimsOf_map statements _ (fun st => negClaim st.committed.2) PathClaim.leaf _
    fun st member => (shaped st member).map_queries
      fun query => qm31LeafHashT8 (queryChallenges query.1 query.2).compNeg
  rw [nodeClaims, List.map_append, List.map_append, List.map_append, finals, pos, neg,
    List.map_map, nodeLeaves]
  simp only [recursiveQueriesFinal, allChallenges, allQueries, List.map_flatMap, List.map_map]
  rfl

theorem nodeClaims_bits : (nodeClaims statements).map PathClaim.bits = nodeBits statements := by
  have finals := @claimsOf_map statements _ (fun st => finalClaim st.committed.1) PathClaim.bits
    (fun st => st.paths.map Prod.snd) fun st member => by
      rw [← (shaped st member).opened_paths, List.map_map]
      rfl
  have pos := @claimsOf_map statements _ (fun st => posClaim st.committed.2) PathClaim.bits
    (fun st => st.compPaths.map CompMembership.posBits) fun st member => by
      rw [← (shaped st member).opened_compPaths, List.map_map]
      rfl
  have neg := @claimsOf_map statements _ (fun st => negClaim st.committed.2) PathClaim.bits
    (fun st => st.compPaths.map CompMembership.negBits) fun st member => by
      rw [← (shaped st member).opened_compPaths, List.map_map]
      rfl
  rw [nodeClaims, List.map_append, List.map_append, List.map_append, finals, pos, neg,
    List.map_map, nodeBits]
  rfl

theorem nodeClaims_depths :
    (nodeClaims statements).map (fun claim => claim.bits.length) = nodeDepths statements := by
  have finals := @claimsOf_map statements _ (fun st => finalClaim st.committed.1)
    (fun claim => claim.bits.length)
    (fun st => List.replicate st.queries.length st.depth) fun st member => by
      rw [← (shaped st member).opened_length]
      exact map_const fun opened listed => ((shaped st member).fits opened listed).bits
  have pos := @claimsOf_map statements _ (fun st => posClaim st.committed.2)
    (fun claim => claim.bits.length)
    (fun st => List.replicate st.queries.length st.compDepth) fun st member => by
      rw [← (shaped st member).opened_length]
      exact map_const fun opened listed => ((shaped st member).fits opened listed).posBits
  have neg := @claimsOf_map statements _ (fun st => negClaim st.committed.2)
    (fun claim => claim.bits.length)
    (fun st => List.replicate st.queries.length st.compDepth) fun st member => by
      rw [← (shaped st member).opened_length]
      exact map_const fun opened listed => ((shaped st member).fits opened listed).negBits
  have members : (memberships statements).map (fun m => (memberClaim m).bits.length) =
      (memberships statements).map BatchMembership.depth := by
    apply List.map_congr_left
    intro m member
    rcases mem_memberships.mp member with ⟨st, listed, own⟩
    rw [memberClaim, BatchMembership.path, BatchMembership.depth,
      ((shaped st listed).membership m own).1]
    simp only [List.length_cons]
    omega
  rw [nodeClaims, List.map_append, List.map_append, List.map_append, finals, pos, neg,
    List.map_map]
  exact congrArg _ members

/-- The pinned paths of a node are those of its claims. -/
theorem shapeOf_paths : (shapeOf numFolds statements).paths ((nodeClaims statements).map
    PathClaim.root) = PathClaim.paths (nodeClaims statements) := by
  have indices : (nodeBits statements).map Merkle.position =
      (nodeClaims statements).map fun claim => Merkle.position claim.bits := by
    rw [← nodeClaims_bits shaped, List.map_map]
    rfl
  rw [NodeShape.paths, shapeOf, PathClaim.paths, MerklePathT8.Paths.mk.injEq]
  exact ⟨(nodeClaims_leaves shaped).symm, indices, rfl, (nodeClaims_depths shaped).symm⟩

end Claims

/-! ## The committed roots -/

/-- A statement that carries the inputs of its own transcript. -/
structure TreeStatement.Commits (st : TreeStatement) (inp : Vfri11ChannelInputs) : Prop where
  inputs : st.inputs = some inp
  steps : vfri11TranscriptSteps inp = .ok st.steps
  layout : st.layout = vfri11ChallengeLayout (inp.friLayerRoots.length - 1)
  queries : st.queries.length = inp.nQueries
  seed : ∀ m ∈ st.membership, p2t8Pack m.batchRoot = inp.batchRoot

theorem TreeStatement.Commits.committed_eq {st : TreeStatement} {inp : Vfri11ChannelInputs}
    (commits : st.Commits inp) : st.committed =
      (p2t8NodeWords (inp.friLayerRoots.getLastD 0), p2t8NodeWords inp.compRoot) := by
  rw [TreeStatement.committed, commits.inputs]

theorem committedRoots_iff (entry : TreeStatement × ℕ) (roots : Quad ℕ × Quad ℕ) :
    TreeStatement.committedRoots entry = .ok roots ↔
      (∃ inp, entry.1.Commits inp) ∧ roots = entry.1.committed := by
  rcases entry with ⟨st, i⟩
  rw [TreeStatement.committedRoots]
  dsimp only
  constructor
  · intro done
    split at done
    case h_1 => contradiction
    case h_2 inp carried =>
      rcases bind_eq_ok.mp done with ⟨steps, listed, next⟩
      split_ifs at next with transcript layout count
      simp only [not_not] at transcript layout count
      subst transcript
      split at next
      case h_1 absent =>
        have commits : st.Commits inp := by
          refine ⟨carried, listed, layout, count, ?_⟩
          rw [absent]
          exact nofun
        exact ⟨⟨inp, commits⟩, commits.committed_eq ▸ (Except.ok.inj next).symm⟩
      case h_2 m present =>
        split_ifs at next with seed
        have commits : st.Commits inp := by
          refine ⟨carried, listed, layout, count, ?_⟩
          rw [present]
          intro other own
          rw [← Option.some.inj own]
          exact not_not.mp seed
        exact ⟨⟨inp, commits⟩, commits.committed_eq ▸ (Except.ok.inj next).symm⟩
  · rintro ⟨⟨inp, commits⟩, rfl⟩
    rw [commits.committed_eq, commits.inputs]
    dsimp only
    rw [commits.steps]
    dsimp only [bind, Except.bind]
    rw [if_neg (not_not.mpr rfl), if_neg (not_not.mpr commits.layout),
      if_neg (not_not.mpr commits.queries)]
    have seed := commits.seed
    cases present : st.membership with
    | none => rfl
    | some m =>
        dsimp only
        rw [if_neg (not_not.mpr (seed m present))]
        rfl

/-- The roots of the paths are those that the claims name. -/
theorem treeNodeExpectedRoots_iff {numFolds : ℕ} {statements : List TreeStatement}
    (shaped : ∀ st ∈ statements, st.Shaped numFolds) {roots : List (Quad ℕ)} :
    treeNodeExpectedRoots statements = .ok roots ↔
      (∀ st ∈ statements, ∃ inp, st.Commits inp) ∧
        roots = (nodeClaims statements).map PathClaim.root := by
  have looped (committed : List (Quad ℕ × Quad ℕ)) :
      statements.zipIdx.mapM TreeStatement.committedRoots = .ok committed ↔
        (∀ st ∈ statements, ∃ inp, st.Commits inp) ∧
          committed = statements.map TreeStatement.committed := by
    have firsts : statements.zipIdx.map Prod.fst = statements := List.zipIdx_map_fst 0 statements
    rw [mapM_ok_iff committedRoots_iff]
    have condition : (∀ entry ∈ statements.zipIdx, ∃ inp, entry.1.Commits inp) ↔
        ∀ st ∈ statements, ∃ inp, st.Commits inp := by
      conv_rhs => rw [← firsts]
      rw [List.forall_mem_map]
    have values : statements.zipIdx.map (fun entry => entry.1.committed) =
        statements.map TreeStatement.committed := by
      conv_rhs => rw [← firsts]
      rw [List.map_map]
      rfl
    rw [condition, values]
  have column (claim : Quad ℕ → QueryPaths → PathClaim)
      (own : ∀ root opened, (claim root opened).root = root)
      (pick : Quad ℕ × Quad ℕ → Quad ℕ) :
      (statements.zip (statements.map TreeStatement.committed)).flatMap (fun entry =>
        List.replicate entry.1.queries.length (pick entry.2)) =
      (claimsOf (fun st => claim (pick st.committed)) statements).map PathClaim.root := by
    have replicated := @claimsOf_map statements _ (fun st => claim (pick st.committed))
      PathClaim.root (fun st => List.replicate st.queries.length (pick st.committed))
      fun st member => by
        rw [map_const fun opened _ => own _ opened, (shaped st member).opened_length]
    have paired := @List.zip_map' _ _ _ id TreeStatement.committed statements
    rw [List.map_id] at paired
    rw [replicated, paired, List.flatMap_map]
    rfl
  have total : (statements.zip (statements.map TreeStatement.committed)).flatMap (fun entry =>
        List.replicate entry.1.queries.length entry.2.1) ++
      (statements.zip (statements.map TreeStatement.committed)).flatMap (fun entry =>
        List.replicate entry.1.queries.length entry.2.2) ++
      (statements.zip (statements.map TreeStatement.committed)).flatMap (fun entry =>
        List.replicate entry.1.queries.length entry.2.2) ++
      (memberships statements).map BatchMembership.batchRoot =
      (nodeClaims statements).map PathClaim.root := by
    rw [nodeClaims, List.map_append, List.map_append, List.map_append,
      ← column finalClaim (fun _ _ => rfl) Prod.fst, ← column posClaim (fun _ _ => rfl) Prod.snd,
      ← column negClaim (fun _ _ => rfl) Prod.snd, List.map_map]
    rfl
  rw [treeNodeExpectedRoots, bind_eq_ok]
  constructor
  · rintro ⟨committed, done, finished⟩
    rcases (looped committed).mp done with ⟨commits, rfl⟩
    exact ⟨commits, (Except.ok.inj finished).symm.trans total⟩
  · rintro ⟨commits, rfl⟩
    exact ⟨_, (looped _).mpr ⟨commits, rfl⟩, congrArg Except.ok total⟩

end TreeNode
end Recursive
end QLSA
