import QLSA.Recursive.FoldInputs
import QLSA.Recursive.FoldTrace
import QLSA.Recursive.MerklePathT16Trace
import QLSA.Recursive.RebuiltColumns

namespace QLSA
namespace Recursive
namespace CompositionT16

open Hash Mersenne Qm31
open MerklePathT16 (leftNode merklePathRootT16 norm8)
open RecursiveVerifier (FoldRound QueryChallenges StepOp canonical_small)

/-!
# Fold chains and wide paths in one proof

The verifier for several queries joins the fold chains with one path of eight
words for each of them, from the hash of the value its chain ends in.  Its
argument checks make every block and every path lie in the trace, so over a
sound and complete proof system a proof exists exactly for statements whose
paths exist: the fold chains add a bound on the challenge vectors and no
condition on any value, because nothing pins the operands of the first fold.
-/

/-- `sponge_t16(limbs)[0..8]` -/
def qm31LeafHashT16 (packedValue : ℕ) : Fin 8 → ℕ :=
  leftNode (Stwo.spongeT16 (limbs packedValue).toList).get

/-- The preprocessed columns of the two circuits. -/
abbrev Preproc := (ℕ → RecursiveVerifier.PreprocRow) × (ℕ → MerklePathT16.PreprocRow)

/-- Both circuits have satisfying main columns. -/
def Satisfiable (logSize : ℕ) (preproc : Preproc) : Prop :=
  (∃ main, RecursiveVerifier.Satisfies main preproc.1 logSize) ∧
    ∃ main, MerklePathT16.Satisfies main preproc.2 logSize

/-- Public inputs of a proof for several queries. -/
structure Statement where
  logSize : ℕ
  numFolds : ℕ
  depth : ℕ
  challenges : List QueryChallenges
  pxs : List UInt32
  finals : List ℕ
  indices : List UInt32
  roots : List (Fin 8 → ℕ)

namespace Statement

variable (s : Statement)

/-- The leaves the verifier computes. -/
def leaves : List (Fin 8 → ℕ) := s.finals.map qm31LeafHashT16

def paths : MerklePathT16.Paths where
  leaves := s.leaves
  indices := s.indices.map UInt32.toNat
  roots := s.roots
  depth := s.depth

/-- The preprocessed columns that both sides compute. -/
def preproc : Except String Preproc := do
  let rv ← RecursiveVerifier.buildPreproc s.finals s.challenges s.numFolds s.logSize
  let merkle ← s.paths.buildPreprocMulti s.logSize
  return (rv, merkle)

/-- Words of the queries, then words of the paths. -/
def queryWords : List ℕ :=
  (s.pxs.zip s.finals).flatMap fun (px, final) => px.toNat :: (limbs final).toList

def pathWords : List ℕ :=
  (s.leaves.zip (s.indices.zip s.roots)).flatMap fun (leaf, index, root) =>
    List.ofFn (norm8 leaf) ++ [index.toNat] ++ List.ofFn (norm8 root)

def maxLog : ℕ := min RecursiveVerifier.maxLogSize MerklePathT16.maxLogSize

/-- Checks of the arguments, in order: equal lengths, then the size, the counts and the depth within
their caps, and last both circuits within the rows of the trace. -/
def check : Except String Unit :=
  if s.finals = [] ∨ s.pxs.length ≠ s.finals.length ∨ s.indices.length ≠ s.finals.length ∨
      s.roots.length ≠ s.finals.length ∨ s.challenges.length ≠ s.finals.length then
    .error "public-input length mismatch"
  else if s.logSize < MerklePathT16.minLogSize ∨ maxLog < s.logSize then
    .error s!"log_size {s.logSize} out of range"
  else if RecursiveVerifier.maxQueries < s.finals.length then
    .error s!"query count {s.finals.length} exceeds MAX_QUERIES {RecursiveVerifier.maxQueries}"
  else if RecursiveVerifier.maxNumFolds < s.numFolds then
    .error s!"num_folds {s.numFolds} exceeds MAX_NUM_FOLDS {RecursiveVerifier.maxNumFolds}"
  else if s.depth < 1 ∨ MerklePathT16.maxDepth < s.depth then
    .error s!"depth {s.depth} out of range [1, {MerklePathT16.maxDepth}]"
  else if 2 ^ s.logSize < s.finals.length * (1 + s.numFolds) ∨
      2 ^ s.logSize < s.finals.length * s.depth * 22 then
    .error s!"blocks exceed trace capacity at log_size {s.logSize}"
  else .ok ()

end Statement

variable (system : ProofSystem Preproc)

def verifyQueriesMembershipT16 (proofBytes : List UInt8) (s : Statement) : Except String Bool := do
  s.check
  system.verifyAgainst (fun e => s!"N-query t16 deserialize error: {e}")
    (fun few => s!"N-query t16: expected ≥ 2 commitments, got {few}") s.logSize s.preproc
    (fun committed => system.mixU32s (system.mixU32s committed s.queryWords) s.pathWords) proofBytes

/-! ## The prover -/

/-- The statement and the main columns that go into a proof. -/
structure Prepared where
  statement : Statement
  rvMain : ℕ → RecursiveVerifier.MainRow
  merkleMain : List MerklePathT16.MainRow

/-- Rows of the fold chains, or of the paths when these need more. -/
def queriesLogSize (nQueries numFolds depth : ℕ) : ℕ :=
  max (growLogSize (max (nQueries * (1 + numFolds)) 1) RecursiveVerifier.minLogSize)
    (growLogSize (max nQueries 1 * max depth 1 * 22) MerklePathT16.minLogSize)

/-- The prover up to the proof itself: the checks in their order, the paths from the final values,
and the main and pinned columns of both circuits.  What a proof system makes of them is not part
of this. -/
def prepareQueriesMembershipT16 (queries : List (StepOp × List FoldRound))
    (paths : List (List (Fin 8 → ℕ) × List Bool)) : Except String Prepared := do
  match queries, paths with
  | [], _ => .error "need ≥ 1 query"
  | (_, firstRounds) :: _, _ =>
      if queries.length ≠ paths.length then .error "queries/paths length mismatch"
      else if RecursiveVerifier.maxQueries < queries.length then
        .error s!"query count {queries.length} exceeds MAX_QUERIES {RecursiveVerifier.maxQueries}"
      else
        let numFolds := firstRounds.length
        if RecursiveVerifier.maxNumFolds < numFolds then
          .error s!"num_folds {numFolds} exceeds MAX_NUM_FOLDS {RecursiveVerifier.maxNumFolds}"
        else if queries.any (fun query => query.2.length ≠ numFolds) then
          .error "all queries must share num_folds"
        else
          let depth := ((paths.map Prod.fst).getD 0 []).length
          if depth = 0 then .error "path depth must be ≥ 1"
          else if MerklePathT16.maxDepth < depth then
            .error s!"path depth {depth} exceeds MAX_DEPTH {MerklePathT16.maxDepth}"
          else if paths.any (fun path => path.1.length ≠ depth ∨ path.2.length ≠ depth) then
            .error "all paths must share depth"
          else
            let logSize := queriesLogSize queries.length numFolds depth
            if Statement.maxLog < logSize then
              .error s!"N-query t8 composition log_size {logSize} too large"
            else
              let finals := RecursiveVerifier.recursiveQueriesFinal queries
              let openings : MerklePathT16.Openings :=
                ⟨finals.map qm31LeafHashT16, paths.map Prod.fst, paths.map Prod.snd⟩
              let indices ← openings.bits.mapM MerklePathT8.bitsToIndex
              let rvMain ← RecursiveVerifier.buildTraceMultiRaw queries logSize
              let merkle ← MerklePathT16.buildTraceMulti openings logSize
              return ⟨⟨logSize, numFolds, depth, RecursiveVerifier.allChallenges queries,
                queries.map (fun query => query.1.px), finals, indices.map UInt32.ofNat,
                merkle.2⟩, rvMain, merkle.1⟩

/-! ## What the verifier checks -/

section Acceptance

variable {system} {proofBytes : List UInt8} {s : Statement}

/-- The checks of the arguments as bounds. -/
structure Statement.Checked (s : Statement) : Prop where
  nonempty : s.finals ≠ []
  pxs_length : s.pxs.length = s.finals.length
  indices_length : s.indices.length = s.finals.length
  roots_length : s.roots.length = s.finals.length
  challenges_length : s.challenges.length = s.finals.length
  logSize_ge : MerklePathT16.minLogSize ≤ s.logSize
  logSize_le : s.logSize ≤ Statement.maxLog
  queries_le : s.finals.length ≤ RecursiveVerifier.maxQueries
  numFolds_le : s.numFolds ≤ RecursiveVerifier.maxNumFolds
  depth_pos : 1 ≤ s.depth
  depth_le : s.depth ≤ MerklePathT16.maxDepth
  blocks_fit : s.finals.length * (1 + s.numFolds) ≤ 2 ^ s.logSize
  paths_fit : s.finals.length * s.depth * 22 ≤ 2 ^ s.logSize

theorem check_iff : s.check = .ok () ↔ s.Checked := by
  unfold Statement.check
  constructor
  · intro passed
    split_ifs at passed with lengths size count folds deep fits
    simp only [not_or, not_not, not_lt] at lengths size count folds deep fits
    exact ⟨lengths.1, lengths.2.1, lengths.2.2.1, lengths.2.2.2.1, lengths.2.2.2.2, size.1, size.2,
      count, folds, deep.1, deep.2, fits.1, fits.2⟩
  · intro checked
    rw [if_neg, if_neg, if_neg (Nat.not_lt.mpr checked.queries_le),
      if_neg (Nat.not_lt.mpr checked.numFolds_le), if_neg, if_neg]
    · rw [not_or, not_lt, not_lt]
      exact ⟨checked.blocks_fit, checked.paths_fit⟩
    · rw [not_or, not_lt, not_lt]
      exact ⟨checked.depth_pos, checked.depth_le⟩
    · rw [not_or, not_lt, not_lt]
      exact ⟨checked.logSize_ge, checked.logSize_le⟩
    · simp only [not_or, not_not]
      exact ⟨checked.nonempty, checked.pxs_length, checked.indices_length, checked.roots_length,
        checked.challenges_length⟩

/-- Every query has challenges for all of its folds. -/
def Statement.Drawn (s : Statement) : Prop :=
  ∀ ch ∈ s.challenges, 1 + s.numFolds ≤ ch.alphas.length ∧ 1 + s.numFolds ≤ ch.invs.length

/-- The preprocessed columns of a statement that builds. -/
def Statement.columns (s : Statement) : Preproc :=
  (RecursiveVerifier.preprocRow s.finals s.challenges s.numFolds, s.paths.preprocRow s.logSize)

theorem Statement.Checked.wellFormed (checked : s.Checked) : s.paths.WellFormed s.logSize := by
  have count : s.paths.leaves.length = s.finals.length := List.length_map _
  constructor
  case some =>
    rw [count]
    exact List.length_pos_of_ne_nil checked.nonempty
  case indices_length => rw [count, Statement.paths, List.length_map, checked.indices_length]
  case roots_length => rw [count, Statement.paths, checked.roots_length]
  case positive => exact checked.depth_pos
  case narrow => exact checked.depth_le.trans (by decide)
  case fits =>
    rw [MerklePathT16.Paths.Fits, count]
    exact checked.paths_fit
  case domain => exact checked.logSize_le.trans (by decide)

theorem Statement.Checked.preproc_iff (checked : s.Checked) {preproc : Preproc} :
    s.preproc = .ok preproc ↔ s.Drawn ∧ preproc = s.columns := by
  have lengths : s.finals.length = s.challenges.length := checked.challenges_length.symm
  have merkle := checked.wellFormed.preproc
  unfold Statement.preproc
  rw [merkle, RecursiveVerifier.buildPreproc, if_neg (not_not.mpr lengths), if_neg (Nat.not_lt.mpr checked.blocks_fit)]
  have drawn : s.challenges.all (fun ch =>
      1 + s.numFolds ≤ ch.alphas.length ∧ 1 + s.numFolds ≤ ch.invs.length) = true ↔ s.Drawn := by
    simp only [List.all_eq_true, decide_eq_true_iff, Statement.Drawn]
  split
  case isTrue missing =>
    constructor
    · intro built
      contradiction
    · rintro ⟨present, -⟩
      exact absurd (drawn.mpr present) missing
  case isFalse present =>
    constructor
    · intro built
      exact ⟨drawn.mp (not_not.mp present), (Except.ok.inj built).symm⟩
    · rintro ⟨-, rfl⟩
      rfl

/-- The path of a query: siblings that lead from its leaf to its root, read
modulo `P`, on the sides named by its index. -/
def Statement.Opens (s : Statement) (q : ℕ) : Prop :=
  ∃ final index root sibs, s.finals[q]? = some final ∧ s.indices[q]? = some index ∧
    s.roots[q]? = some root ∧ sibs.length = s.depth ∧
    merklePathRootT16 (qm31LeafHashT16 final) sibs (Merkle.indexBits s.depth index.toNat) =
      norm8 root

theorem Statement.Checked.opens_iff (checked : s.Checked) {q : ℕ} (inside : q < s.finals.length) :
    s.Opens q ↔ ∃ sibs, s.paths.Climbs q sibs := by
  have final : s.finals[q]? = some s.finals[q] := List.getElem?_eq_getElem inside
  have indexInside : q < s.indices.length := by rwa [checked.indices_length]
  have rootInside : q < s.roots.length := by rwa [checked.roots_length]
  have index : s.indices[q]? = some s.indices[q] := List.getElem?_eq_getElem indexInside
  have root : s.roots[q]? = some s.roots[q] := List.getElem?_eq_getElem rootInside
  have leafAt : s.paths.leaf q = qm31LeafHashT16 s.finals[q] := by
    rw [MerklePathT16.Paths.leaf, Statement.paths, Statement.leaves, List.getD_eq_getElem?_getD,
      List.getElem?_map, final]
    rfl
  have indexAt : s.paths.index q = s.indices[q].toNat := by
    rw [MerklePathT16.Paths.index, Statement.paths, List.getD_eq_getElem?_getD, List.getElem?_map,
      index]
    rfl
  have rootAt : s.paths.root q = s.roots[q] := by
    rw [MerklePathT16.Paths.root, Statement.paths, List.getD_eq_getElem?_getD, root]
    rfl
  unfold Statement.Opens MerklePathT16.Paths.Climbs
  rw [leafAt, indexAt, rootAt, final, index, root]
  constructor
  · rintro ⟨value, place, top, sibs, sameValue, samePlace, sameTop, length, climbed⟩
    rw [Option.some.injEq] at sameValue samePlace sameTop
    rw [← sameValue, ← samePlace, ← sameTop] at climbed
    exact ⟨sibs, length, climbed⟩
  · rintro ⟨sibs, length, climbed⟩
    exact ⟨_, _, _, sibs, rfl, rfl, rfl, length, climbed⟩

theorem Statement.Checked.satisfiable_iff (checked : s.Checked) :
    Satisfiable s.logSize s.columns ↔ ∀ q < s.finals.length, s.Opens q := by
  have count : s.paths.leaves.length = s.finals.length := List.length_map _
  constructor
  · rintro ⟨-, main, satisfied⟩ q inside
    rw [checked.opens_iff inside]
    exact checked.wellFormed.climbs satisfied (by rwa [count])
  · intro opens
    refine ⟨RecursiveVerifier.folds_satisfiable _ _ _ _, checked.wellFormed.exists_satisfies ?_⟩
    intro q inside
    rw [count] at inside
    exact (checked.opens_iff inside).mp (opens q inside)

/-- The verifier behind its checks. -/
theorem verifyQueriesMembershipT16_checked (checked : s.Checked) :
    verifyQueriesMembershipT16 system proofBytes s =
      system.verifyAgainst (fun e => s!"N-query t16 deserialize error: {e}")
        (fun few => s!"N-query t16: expected ≥ 2 commitments, got {few}") s.logSize s.preproc
        (fun committed => system.mixU32s (system.mixU32s committed s.queryWords) s.pathWords)
        proofBytes := by
  rw [verifyQueriesMembershipT16, check_iff.mpr checked]
  rfl

theorem checked_of_accepted (accepted : verifyQueriesMembershipT16 system proofBytes s = .ok true) :
    s.Checked := by
  rw [← check_iff]
  unfold verifyQueriesMembershipT16 at accepted
  cases passed : s.check with
  | error e =>
      rw [passed] at accepted
      contradiction
  | ok _ => rfl

end Acceptance

/-- Over a sound and complete proof system some proof of a statement is
accepted exactly when its arguments pass the checks, every query has all its
challenges, and every path opens. -/
theorem wide_membership_accepted_iff {system : ProofSystem Preproc}
    (sound : system.Sound Satisfiable) (complete : system.Complete Satisfiable) (s : Statement) :
    (∃ proofBytes, verifyQueriesMembershipT16 system proofBytes s = .ok true) ↔
      s.check = .ok () ∧ s.Drawn ∧ ∀ q < s.finals.length, s.Opens q := by
  rw [check_iff]
  constructor
  · rintro ⟨proofBytes, accepted⟩
    have checked := checked_of_accepted accepted
    rw [verifyQueriesMembershipT16_checked checked] at accepted
    rcases sound.verifyAgainst accepted with ⟨preproc, built, satisfiable⟩
    rcases checked.preproc_iff.mp built with ⟨drawn, rfl⟩
    exact ⟨checked, drawn, checked.satisfiable_iff.mp satisfiable⟩
  · rintro ⟨checked, drawn, opens⟩
    have built := checked.preproc_iff.mpr ⟨drawn, rfl⟩
    have satisfiable := checked.satisfiable_iff.mpr opens
    rcases (ProofSystem.exists_verifyAgainst_iff sound complete).mpr ⟨_, built, satisfiable⟩ with
      ⟨proofBytes, accepted⟩
    exact ⟨proofBytes, (verifyQueriesMembershipT16_checked checked).trans accepted⟩

/-! ## What the prover prepares -/

/-- Queries and paths that the prover takes. -/
structure Preparable (queries : List (StepOp × List FoldRound))
    (paths : List (List (Fin 8 → ℕ) × List Bool)) (numFolds depth : ℕ) : Prop where
  provable : RecursiveVerifier.Provable queries numFolds
  paths_length : queries.length = paths.length
  depths : ∀ path ∈ paths, path.1.length = depth ∧ path.2.length = depth
  queries_le : queries.length ≤ RecursiveVerifier.maxQueries
  numFolds_le : numFolds ≤ RecursiveVerifier.maxNumFolds
  depth_pos : 1 ≤ depth
  depth_le : depth ≤ MerklePathT16.maxDepth
  size_le : queriesLogSize queries.length numFolds depth ≤ Statement.maxLog

section Prover

variable {queries : List (StepOp × List FoldRound)}
  {paths : List (List (Fin 8 → ℕ) × List Bool)} {numFolds depth : ℕ}

theorem queriesLogSize_fits (nQueries numFolds depth : ℕ) :
    nQueries * (1 + numFolds) ≤ 2 ^ queriesLogSize nQueries numFolds depth ∧
      nQueries * depth * 22 ≤ 2 ^ queriesLogSize nQueries numFolds depth ∧
      MerklePathT16.minLogSize ≤ queriesLogSize nQueries numFolds depth := by
  have blocks := rows_le_growLogSize (max (nQueries * (1 + numFolds)) 1)
    RecursiveVerifier.minLogSize
  have compressions := rows_le_growLogSize (max nQueries 1 * max depth 1 * 22)
    MerklePathT16.minLogSize
  have wide := le_growLogSize (max nQueries 1 * max depth 1 * 22) MerklePathT16.minLogSize
  have first : 2 ^ growLogSize (max (nQueries * (1 + numFolds)) 1) RecursiveVerifier.minLogSize ≤
      2 ^ queriesLogSize nQueries numFolds depth :=
    Nat.pow_le_pow_right (by omega) (le_max_left _ _)
  have second : 2 ^ growLogSize (max nQueries 1 * max depth 1 * 22) MerklePathT16.minLogSize ≤
      2 ^ queriesLogSize nQueries numFolds depth :=
    Nat.pow_le_pow_right (by omega) (le_max_right _ _)
  have steps : nQueries * depth ≤ max nQueries 1 * max depth 1 :=
    Nat.mul_le_mul (le_max_left _ _) (le_max_left _ _)
  refine ⟨(le_max_left _ _).trans (blocks.trans first), ?_, wide.trans (le_max_right _ _)⟩
  exact (Nat.mul_le_mul_right 22 steps).trans (compressions.trans second)

/-- The openings that the prover passes to the path builder. -/
def openingsOf (queries : List (StepOp × List FoldRound))
    (paths : List (List (Fin 8 → ℕ) × List Bool)) : MerklePathT16.Openings where
  leaves := (RecursiveVerifier.recursiveQueriesFinal queries).map qm31LeafHashT16
  sibs := paths.map Prod.fst
  bits := paths.map Prod.snd

theorem leaves_length (queries : List (StepOp × List FoldRound))
    (paths : List (List (Fin 8 → ℕ) × List Bool)) :
    (openingsOf queries paths).leaves.length = queries.length := by
  rw [openingsOf, RecursiveVerifier.recursiveQueriesFinal, List.length_map, List.length_map]

namespace Preparable

variable (preparable : Preparable queries paths numFolds depth)

include preparable

theorem nonempty : paths ≠ [] := by
  intro none
  have same := preparable.paths_length
  rw [none, List.length_nil, List.length_eq_zero_iff] at same
  exact preparable.provable.nonempty same

theorem openings_depth : (openingsOf queries paths).depth = depth := by
  rcases List.exists_cons_of_ne_nil preparable.nonempty with ⟨first, rest, rfl⟩
  exact (preparable.depths first List.mem_cons_self).1

theorem valid :
    (openingsOf queries paths).Valid (queriesLogSize queries.length numFolds depth) := by
  have own := preparable.openings_depth
  have count := leaves_length queries paths
  constructor
  case some =>
    rw [count]
    exact List.length_pos_of_ne_nil preparable.provable.nonempty
  case sibs_length => rw [count, openingsOf, List.length_map, preparable.paths_length]
  case bits_length => rw [count, openingsOf, List.length_map, preparable.paths_length]
  case positive =>
    rw [own]
    exact preparable.depth_pos
  case sibs_depth =>
    intro sibs member
    rcases List.mem_map.mp member with ⟨path, listed, rfl⟩
    rw [own]
    exact (preparable.depths path listed).1
  case bits_depth =>
    intro bits member
    rcases List.mem_map.mp member with ⟨path, listed, rfl⟩
    rw [own]
    exact (preparable.depths path listed).2
  case fits =>
    rw [count, own]
    exact (queriesLogSize_fits _ _ _).2.1
  case domain => exact preparable.size_le.trans (by decide)

/-- The statement that the prover returns. -/
def statement (_ : Preparable queries paths numFolds depth) : Statement where
  logSize := queriesLogSize queries.length numFolds depth
  numFolds := numFolds
  depth := depth
  challenges := RecursiveVerifier.allChallenges queries
  pxs := queries.map fun query => query.1.px
  finals := RecursiveVerifier.recursiveQueriesFinal queries
  indices := ((openingsOf queries paths).bits.map Merkle.position).map UInt32.ofNat
  roots := (List.range queries.length).map (openingsOf queries paths).root

theorem narrow : ∀ bits ∈ (openingsOf queries paths).bits, bits.length ≤ 32 := by
  intro bits member
  rw [preparable.valid.bits_depth bits member, preparable.openings_depth]
  exact preparable.depth_le.trans (by decide)

/-- Positions of at most thirty-two bits are words. -/
theorem indices_toNat : preparable.statement.indices.map UInt32.toNat =
    (openingsOf queries paths).bits.map Merkle.position := by
  rw [statement, List.map_map, List.map_map]
  apply List.map_congr_left
  intro bits member
  have small : Merkle.position bits < 2 ^ 32 := (Merkle.position_lt bits).trans_le
    (Nat.pow_le_pow_right (by omega) (preparable.narrow bits member))
  rw [Function.comp_apply, Function.comp_apply, UInt32.toNat_ofNat', Nat.mod_eq_of_lt small]

theorem paths_eq : preparable.statement.paths = (openingsOf queries paths).paths := by
  rw [Statement.paths, preparable.indices_toNat, MerklePathT16.Openings.paths,
    preparable.openings_depth, leaves_length]
  rfl

theorem checked : preparable.statement.Checked := by
  have count : preparable.statement.finals.length = queries.length := List.length_map _
  have fits := queriesLogSize_fits queries.length numFolds depth
  constructor
  case nonempty =>
    intro none
    rw [← List.length_eq_zero_iff, count, List.length_eq_zero_iff] at none
    exact preparable.provable.nonempty none
  case pxs_length => rw [count, statement, List.length_map]
  case indices_length =>
    rw [count, statement, List.length_map, List.length_map, openingsOf, List.length_map,
      preparable.paths_length]
  case roots_length => rw [count, statement, List.length_map, List.length_range]
  case challenges_length => rw [count]; exact List.length_map _
  case logSize_ge => exact fits.2.2
  case logSize_le => exact preparable.size_le
  case queries_le => rw [count]; exact preparable.queries_le
  case numFolds_le => exact preparable.numFolds_le
  case depth_pos => exact preparable.depth_pos
  case depth_le => exact preparable.depth_le
  case blocks_fit => rw [count]; exact fits.1
  case paths_fit => rw [count]; exact fits.2.1

theorem drawn : preparable.statement.Drawn := by
  intro ch member
  rcases List.mem_map.mp member with ⟨query, listed, rfl⟩
  have length := preparable.provable.uniform query listed
  have own : preparable.statement.numFolds = numFolds := rfl
  rw [own]
  simp only [RecursiveVerifier.queryChallenges, List.length_cons, List.length_map]
  omega

/-- The prover comes through, with the rows of both builders. -/
theorem prepare_eq : ∃ merkleMain,
    MerklePathT16.buildTraceMulti (openingsOf queries paths)
        (queriesLogSize queries.length numFolds depth) =
      .ok (merkleMain, preparable.statement.roots) ∧
    prepareQueriesMembershipT16 queries paths = .ok ⟨preparable.statement,
      RecursiveVerifier.fillBlocks (1 + numFolds) (fun _ => .idle) 0 queries, merkleMain⟩ := by
  have valid := preparable.valid
  have roots : ((List.range (openingsOf queries paths).leaves.length).map fun path =>
      MerklePathT16.words ((openingsOf queries paths).reached path)) =
      preparable.statement.roots := by
    rw [statement, leaves_length]
    apply List.map_congr_left
    intro path inside
    apply valid.reached_eq
    rw [leaves_length]
    exact List.mem_range.mp inside
  have built := valid.build_eq
  rw [roots] at built
  refine ⟨_, built, ?_⟩
  have indices := MerklePathT16.indices_of_bits preparable.narrow
  have rvMain := preparable.provable.build_eq (queriesLogSize_fits queries.length numFolds depth).1
  have deep := preparable.openings_depth
  rcases List.exists_cons_of_ne_nil preparable.provable.nonempty with ⟨⟨step, rounds⟩, rest, rfl⟩
  have folds : rounds.length = numFolds := preparable.provable.uniform _ List.mem_cons_self
  have shared : ((step, rounds) :: rest).any (fun query => query.2.length ≠ numFolds) = false := by
    rw [List.any_eq_false]
    intro query member
    simp [preparable.provable.uniform query member]
  have level : paths.any (fun path => path.1.length ≠ depth ∨ path.2.length ≠ depth) = false := by
    rw [List.any_eq_false]
    intro path member
    simp [preparable.depths path member]
  have own : ((paths.map Prod.fst).getD 0 []).length = depth := deep
  unfold prepareQueriesMembershipT16
  dsimp only
  rw [if_neg (not_not.mpr preparable.paths_length), if_neg (Nat.not_lt.mpr preparable.queries_le),
    folds, if_neg (Nat.not_lt.mpr preparable.numFolds_le), shared, own, level,
    if_neg (Bool.false_ne_true), if_neg (Nat.ne_of_gt preparable.depth_pos),
    if_neg (Nat.not_lt.mpr preparable.depth_le), if_neg (Bool.false_ne_true),
    if_neg (Nat.not_lt.mpr preparable.size_le)]
  rw [openingsOf] at indices built
  dsimp only at indices
  rw [indices, rvMain, built]
  rfl

theorem paths_satisfied :
    MerklePathT16.Satisfies (MerklePathT16.traceRow
        ((List.range (2 ^ preparable.statement.logSize)).map ((openingsOf queries paths).honestRow
          ((openingsOf queries paths).leaves.length * (openingsOf queries paths).depth))))
      preparable.statement.columns.2 preparable.statement.logSize := by
  have wellFormed : (openingsOf queries paths).paths.WellFormed preparable.statement.logSize := by
    rw [← preparable.paths_eq]
    exact preparable.checked.wellFormed
  have columns : preparable.statement.columns.2 =
      (openingsOf queries paths).paths.preprocRow preparable.statement.logSize := by
    rw [← preparable.paths_eq]
    rfl
  have count : (openingsOf queries paths).leaves.length * (openingsOf queries paths).depth =
      (openingsOf queries paths).paths.leaves.length * (openingsOf queries paths).paths.depth := rfl
  rw [columns, count]
  apply MerklePathT16.traceRow_satisfies
  exact MerklePathT16.honestRow_satisfies preparable.valid.pinned wellFormed.fits
    wellFormed.positive wellFormed.narrow wellFormed.some

end Preparable

end Prover

/-- The prover returns a statement that the verifier's checks and columns take, with main columns
that satisfy both circuits on every row; its final values and roots are those of the queries and
of their paths.  `Preparable` has the caps that the verifier checks as well, and canonical limbs
of the queries. -/
theorem prepared_membership_satisfied {queries : List (StepOp × List FoldRound)}
    {paths : List (List (Fin 8 → ℕ) × List Bool)} {numFolds depth : ℕ}
    (preparable : Preparable queries paths numFolds depth) :
    ∃ prepared preproc, prepareQueriesMembershipT16 queries paths = .ok prepared ∧
      prepared.statement.finals = RecursiveVerifier.recursiveQueriesFinal queries ∧
      prepared.statement.challenges = RecursiveVerifier.allChallenges queries ∧
      (∀ q < queries.length, prepared.statement.roots[q]? =
        some ((openingsOf queries paths).root q)) ∧
      prepared.statement.check = .ok () ∧ prepared.statement.preproc = .ok preproc ∧
      RecursiveVerifier.Satisfies prepared.rvMain preproc.1 prepared.statement.logSize ∧
      MerklePathT16.Satisfies (MerklePathT16.traceRow prepared.merkleMain) preproc.2
        prepared.statement.logSize := by
  rcases preparable.prepare_eq with ⟨merkleMain, built, prepared⟩
  have checked := preparable.checked
  refine ⟨_, preparable.statement.columns, prepared, rfl, rfl, ?_, check_iff.mpr checked,
    checked.preproc_iff.mpr ⟨preparable.drawn, rfl⟩, preparable.provable.satisfies, ?_⟩
  · intro q inside
    have roots : preparable.statement.roots =
        (List.range queries.length).map (openingsOf queries paths).root := rfl
    rw [roots, List.getElem?_map, List.getElem?_range inside, Option.map_some]
  · rw [preparable.valid.build_eq, Except.ok.injEq, Prod.mk.injEq] at built
    rw [← built.1]
    exact preparable.paths_satisfied

/-! ## One query -/

/-- A query with one line fold and a path of one step. -/
def oneQuery : List (StepOp × List FoldRound) := [(⟨1, 2, 3, 4, 5, 6, 7, 8⟩, [⟨9, 10, 11⟩])]

def onePath : List (List (Fin 8 → ℕ) × List Bool) := [([fun k => k.val], [true])]

theorem oneQuery_preparable : Preparable oneQuery onePath 1 1 := by
  have size : queriesLogSize oneQuery.length 1 1 = 5 := by
    rw [queriesLogSize, growLogSize_enough (by decide), growLogSize_enough (by decide)]
    decide
  constructor
  case provable =>
    refine ⟨List.cons_ne_nil _ _, ?_, ?_, ?_⟩
    · intro query member
      rw [List.mem_singleton.mp member]
      rfl
    · intro query member
      rw [List.mem_singleton.mp member]
      exact ⟨canonical_small (by decide), canonical_small (by decide), canonical_small (by decide),
        canonical_small (by decide), canonical_small (by decide), canonical_small (by decide),
        by decide, by decide⟩
    · intro query member foldRound listed
      rw [List.mem_singleton.mp member] at listed
      rw [List.mem_singleton.mp listed]
      exact ⟨canonical_small (by decide), canonical_small (by decide), by decide⟩
  case paths_length => rfl
  case depths =>
    intro path member
    rw [List.mem_singleton.mp member]
    exact ⟨rfl, rfl⟩
  case queries_le => decide
  case numFolds_le => decide
  case depth_pos => decide
  case depth_le => decide
  case size_le =>
    rw [size]
    decide

theorem oneQuery_membership_satisfied :
    ∃ prepared preproc, prepareQueriesMembershipT16 oneQuery onePath = .ok prepared ∧
      prepared.statement.check = .ok () ∧ prepared.statement.preproc = .ok preproc ∧
      MerklePathT16.Satisfies (MerklePathT16.traceRow prepared.merkleMain) preproc.2
        prepared.statement.logSize := by
  rcases prepared_membership_satisfied oneQuery_preparable with
    ⟨prepared, preproc, same, -, -, -, passed, built, -, satisfied⟩
  exact ⟨prepared, preproc, same, passed, built, satisfied⟩

theorem oneQuery_membership_accepted :
    ∃ proofBytes, verifyQueriesMembershipT16 (.oracle Satisfiable) proofBytes
      oneQuery_preparable.statement = .ok true := by
  have checked := oneQuery_preparable.checked
  have satisfiable : Satisfiable oneQuery_preparable.statement.logSize
      oneQuery_preparable.statement.columns :=
    ⟨⟨_, oneQuery_preparable.provable.satisfies⟩, _, oneQuery_preparable.paths_satisfied⟩
  exact (wide_membership_accepted_iff (ProofSystem.oracle_sound Satisfiable)
    (ProofSystem.oracle_complete Satisfiable) _).mpr
    ⟨check_iff.mpr checked, oneQuery_preparable.drawn, checked.satisfiable_iff.mp satisfiable⟩

end CompositionT16
end Recursive
end QLSA
