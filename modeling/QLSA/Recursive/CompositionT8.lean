import QLSA.Recursive.FoldInputs
import QLSA.Recursive.MerklePathT8Air
import QLSA.Recursive.ProofSystem

namespace QLSA
namespace Recursive
namespace CompositionT8

open Hash Mersenne Qm31
open RecursiveVerifier (QueryChallenges)

/-!
# Fold chains and their paths in one proof

A proof for several queries joins two circuits over a shared preprocessed
tree: the fold chains of the queries, and three paths for each of them, from
the value its chain ends in to the last layer and from its two composition
values to the composition root.  The verifier rebuilds the preprocessed tree
from its arguments and compares roots.

The rows a path needs are pinned when they lie within the trace.  Of the
composition paths the verifier does not ask that they do, and the `pxs` it is
given enter the transcript only.
-/

/-- `leaf = sponge_t8(limbs)[0..4]` -/
def qm31LeafHashT8 (packedValue : ℕ) : Quad ℕ :=
  (Stwo.spongeT8 (limbs packedValue).toList).left

/-- Depths of the paths: those of the final values first, then those of the
two composition values. -/
def pathDepths (nQueries depth compDepth : ℕ) : List ℕ :=
  List.replicate nQueries depth ++ List.replicate (2 * nQueries) compDepth

/-- The preprocessed columns of the two circuits. -/
abbrev Preproc := (ℕ → RecursiveVerifier.PreprocRow) × (ℕ → MerklePathT8.PreprocRow)

/-- Both circuits have satisfying main columns. -/
def Satisfiable (logSize : ℕ) (preproc : Preproc) : Prop :=
  (∃ main, RecursiveVerifier.Satisfies main preproc.1 logSize) ∧
    ∃ main, MerklePathT8.Satisfies main preproc.2 logSize

/-- Public inputs of a proof for several queries. -/
structure Statement where
  logSize : ℕ
  numFolds : ℕ
  depth : ℕ
  compDepth : ℕ
  challenges : List QueryChallenges
  pxs : List UInt32
  finals : List ℕ
  indices : List UInt32
  roots : List (Quad ℕ)

namespace Statement

variable (s : Statement)

/-- The leaves the verifier computes. -/
def leaves : List (Quad ℕ) :=
  s.finals.map qm31LeafHashT8 ++ s.challenges.map (fun ch => qm31LeafHashT8 ch.compPos) ++
    s.challenges.map fun ch => qm31LeafHashT8 ch.compNeg

def paths : MerklePathT8.Paths where
  leaves := s.leaves
  indices := s.indices.map UInt32.toNat
  roots := s.roots
  depths := pathDepths s.finals.length s.depth s.compDepth

/-- The preprocessed columns that both sides compute. -/
def preproc : Except String Preproc := do
  let rv ← RecursiveVerifier.buildPreproc s.finals s.challenges s.numFolds s.logSize
  let merkle ← s.paths.buildPreprocMultiVar s.logSize
  return (rv, merkle)

/-- Words of the queries, then words of the paths. -/
def queryWords : List ℕ :=
  (s.pxs.zip s.finals).flatMap fun (px, final) => px.toNat :: (limbs final).toList

def pathWords : List ℕ :=
  (s.leaves.zip (s.indices.zip s.roots)).flatMap fun (leaf, index, root) =>
    (Stwo.norm4 leaf).toList ++ [index.toNat] ++ (Stwo.norm4 root).toList

def maxLog : ℕ := min RecursiveVerifier.maxLogSize MerklePathT8.maxLogSize

/-- Checks of the arguments, in order.  The capacity check counts the fold blocks and the paths of
the final values; the composition paths are not in it. -/
def check : Except String Unit :=
  if s.finals = [] ∨ s.pxs.length ≠ s.finals.length ∨ s.indices.length ≠ 3 * s.finals.length ∨
      s.roots.length ≠ 3 * s.finals.length ∨ s.challenges.length ≠ s.finals.length then
    .error "public-input length mismatch"
  else if s.logSize < MerklePathT8.minLogSize ∨ maxLog < s.logSize then
    .error s!"log_size {s.logSize} out of range"
  else if RecursiveVerifier.maxQueries < s.finals.length then
    .error s!"query count {s.finals.length} exceeds MAX_QUERIES {RecursiveVerifier.maxQueries}"
  else if RecursiveVerifier.maxNumFolds < s.numFolds then
    .error s!"num_folds {s.numFolds} exceeds MAX_NUM_FOLDS {RecursiveVerifier.maxNumFolds}"
  else if s.depth < 1 ∨ MerklePathT8.maxDepth < s.depth then
    .error s!"depth {s.depth} out of range [1, {MerklePathT8.maxDepth}]"
  else if 2 ^ s.logSize < s.finals.length * (1 + s.numFolds) ∨
      2 ^ s.logSize < s.finals.length * s.depth * 22 then
    .error s!"blocks exceed trace capacity at log_size {s.logSize}"
  else .ok ()

end Statement

variable (system : ProofSystem Preproc)

def verifyQueriesMembershipT8 (proofBytes : List UInt8) (s : Statement) : Except String Bool := do
  s.check
  let proof ← (system.decode proofBytes).mapError fun e => s!"N-query t8 deserialize error: {e}"
  match system.commitments proof with
  | pre :: main :: _ =>
      let preproc ← s.preproc
      if pre ≠ system.commitColumns s.logSize preproc then return false
      else
        let committed := system.commit (system.commit system.channel pre) main
        let mixed := system.mixU32s (system.mixU32s committed s.queryWords) s.pathWords
        return system.verify s.logSize mixed pre main proof
  | few => .error s!"N-query t8: expected ≥ 2 commitments, got {few.length}"

/-! ## What acceptance says -/

section Acceptance

variable {system} {proofBytes : List UInt8} {s : Statement}

theorem check_ok (passed : s.check = .ok ()) :
    s.indices.length = 3 * s.finals.length ∧ s.roots.length = 3 * s.finals.length ∧
      s.challenges.length = s.finals.length ∧
      1 ≤ s.depth ∧ s.finals.length * (1 + s.numFolds) ≤ 2 ^ s.logSize ∧
      s.finals.length * s.depth * 22 ≤ 2 ^ s.logSize := by
  unfold Statement.check at passed
  split at passed
  case isTrue => contradiction
  case isFalse lengths =>
    split at passed
    case isTrue => contradiction
    case isFalse =>
      split at passed
      case isTrue => contradiction
      case isFalse =>
        split at passed
        case isTrue => contradiction
        case isFalse =>
          split at passed
          case isTrue => contradiction
          case isFalse deep =>
            split at passed
            case isTrue => contradiction
            case isFalse fits =>
              simp only [not_or, not_not, not_lt] at lengths deep fits
              exact ⟨lengths.2.2.1, lengths.2.2.2.1, lengths.2.2.2.2, deep.1, fits.1, fits.2⟩

theorem preproc_ok {preproc : Preproc} (built : s.preproc = .ok preproc) :
    preproc.1 = RecursiveVerifier.preprocRow s.finals s.challenges s.numFolds ∧
      preproc.2 = s.paths.preprocRow s.logSize ∧
      (∀ ch ∈ s.challenges, 1 + s.numFolds ≤ ch.alphas.length ∧ 1 + s.numFolds ≤ ch.invs.length) ∧
      ∀ d ∈ s.paths.depths, 1 ≤ d := by
  unfold Statement.preproc at built
  unfold RecursiveVerifier.buildPreproc MerklePathT8.Paths.buildPreprocMultiVar at built
  dsimp only at built
  split at built
  case isTrue => contradiction
  case isFalse =>
    split at built
    case isTrue => contradiction
    case isFalse =>
      split at built
      case isTrue => contradiction
      case isFalse long =>
        split at built
        case isTrue => contradiction
        case isFalse =>
          split at built
          case isTrue => contradiction
          case isFalse =>
            split at built
            case isTrue => contradiction
            case isFalse =>
              split at built
              case isTrue => contradiction
              case isFalse positive =>
                cases built
                simp only [not_not, List.all_eq_true, decide_eq_true_iff] at long positive
                exact ⟨rfl, rfl, long, positive⟩

theorem verifyQueriesMembershipT8_ok
    (accepted : verifyQueriesMembershipT8 system proofBytes s = .ok true) :
    s.check = .ok () ∧ ∃ preproc proof main channel, s.preproc = .ok preproc ∧
      system.verify s.logSize channel (system.commitColumns s.logSize preproc) main proof =
        true := by
  unfold verifyQueriesMembershipT8 at accepted
  cases passed : s.check with
  | error e =>
      rw [passed] at accepted
      contradiction
  | ok passedUnit =>
      refine ⟨rfl, ?_⟩
      rw [passed] at accepted
      cases decoded : system.decode proofBytes with
      | error e =>
          rw [decoded] at accepted
          contradiction
      | ok proof =>
          rw [decoded] at accepted
          dsimp only [bind, Except.bind, Except.mapError] at accepted
          split at accepted
          case h_1 pre main rest roots =>
            cases built : s.preproc with
            | error e =>
                rw [built] at accepted
                contradiction
            | ok preproc =>
                rw [built] at accepted
                dsimp only at accepted
                split at accepted
                case isTrue => exact absurd (Except.ok.inj accepted) (by decide)
                case isFalse pinned =>
                  have canonical := not_not.mp pinned
                  rw [canonical] at accepted
                  exact ⟨preproc, proof, main, _, rfl, Except.ok.inj accepted⟩
          case h_2 => contradiction

/-- A statement that passes the checks is accepted by a system that accepts
the proof against its columns under every transcript. -/
theorem verifyQueriesMembershipT8_of {preproc : Preproc} {proof : system.Proof}
    {main : system.Root} {rest : List system.Root} (passed : s.check = .ok ())
    (built : s.preproc = .ok preproc) (decoded : system.decode proofBytes = .ok proof)
    (roots : system.commitments proof = system.commitColumns s.logSize preproc :: main :: rest)
    (verified : ∀ channel, system.verify s.logSize channel
      (system.commitColumns s.logSize preproc) main proof = true) :
    verifyQueriesMembershipT8 system proofBytes s = .ok true := by
  unfold verifyQueriesMembershipT8
  rw [passed, decoded]
  dsimp only [bind, Except.bind, Except.mapError]
  rw [roots, built]
  dsimp only
  rw [if_neg (not_not.mpr rfl), verified]
  rfl

/-- A path opens: some siblings lead from the leaf to the root, read modulo
`P`, on the sides named by its index. -/
def Statement.Opens (s : Statement) (path : ℕ) (leaf : Quad ℕ) (d : ℕ) : Prop :=
  ∃ index root sibs, s.indices[path]? = some index ∧ s.roots[path]? = some root ∧
    sibs.length = d ∧
    Stwo.merklePathRootT8 leaf sibs (Merkle.indexBits d index.toNat) = Stwo.norm4 root

/-- Paths whose rows lie in the trace open. -/
theorem opens_of_satisfies {main : ℕ → MerklePathT8.MainRow}
    (satisfied : MerklePathT8.Satisfies main (s.paths.preprocRow s.logSize) s.logSize)
    {path d : ℕ} {leaf : Quad ℕ} {index : UInt32} {root : Quad ℕ}
    (found : s.paths.depths[path]? = some d) (leafFound : s.leaves[path]? = some leaf)
    (indexFound : s.indices[path]? = some index) (rootFound : s.roots[path]? = some root)
    (fits : Machine.start s.paths.depths path + d ≤ 2 ^ s.logSize / 22) (positive : 0 < d) :
    s.Opens path leaf d := by
  have leafAt : s.paths.leaf path = leaf := by
    rw [MerklePathT8.Paths.leaf, List.getD_eq_getElem?_getD]
    exact congrArg (Option.getD · _) leafFound
  have indexAt : s.paths.index path = index.toNat := by
    rw [MerklePathT8.Paths.index, List.getD_eq_getElem?_getD, Statement.paths, List.getElem?_map,
      indexFound]
    rfl
  have rootAt : s.paths.root path = root := by
    rw [MerklePathT8.Paths.root, List.getD_eq_getElem?_getD]
    exact congrArg (Option.getD · _) rootFound
  have narrow : d ≤ 32 ∨ s.paths.index path < 2 ^ 32 := by
    right
    rw [indexAt]
    exact index.toNat_lt
  have climbed := satisfied.path_root found fits positive narrow
  rw [leafAt, indexAt, rootAt] at climbed
  refine ⟨index, root,
    (MerklePathT8.siblingsOf main s.paths.depths path d).map Stwo.words, indexFound, rootFound,
    ?_, ?_⟩
  · simp [MerklePathT8.siblingsOf]
  · have siblings : ((MerklePathT8.siblingsOf main s.paths.depths path d).map Stwo.words).map
        Stwo.residues = MerklePathT8.siblingsOf main s.paths.depths path d := by
      rw [List.map_map]
      exact List.map_id'' Stwo.residues_words _
    rw [Stwo.merklePathRootT8_eq_words, siblings, climbed, Stwo.words_residues]

section Layout

variable {n depth compDepth path : ℕ}

theorem pathDepths_final (early : path < n) :
    (pathDepths n depth compDepth)[path]? = some depth := by
  rw [pathDepths, List.getElem?_append_left (by simpa using early), List.getElem?_replicate,
    if_pos early]

theorem pathDepths_comp (early : path < 2 * n) :
    (pathDepths n depth compDepth)[n + path]? = some compDepth := by
  rw [pathDepths, List.getElem?_append_right (by simp), List.length_replicate,
    Nat.add_sub_cancel_left, List.getElem?_replicate, if_pos early]

theorem start_final (early : path < n) :
    Machine.start (pathDepths n depth compDepth) path = path * depth := by
  rw [Machine.start, pathDepths, List.take_append_of_le_length (by simp; omega),
    List.take_replicate, Nat.min_eq_left (Nat.le_of_lt early), List.sum_replicate, smul_eq_mul]

theorem start_comp (early : path < 2 * n) :
    Machine.start (pathDepths n depth compDepth) (n + path) = n * depth + path * compDepth := by
  have whole : (List.replicate n depth).take (n + path) = List.replicate n depth :=
    List.take_of_length_le (by simp)
  have part : (List.replicate (2 * n) compDepth).take (n + path - n) =
      List.replicate path compDepth := by
    rw [Nat.add_sub_cancel_left, List.take_replicate, Nat.min_eq_left (Nat.le_of_lt early)]
  rw [Machine.start, pathDepths, List.take_append, List.length_replicate, whole, part,
    List.sum_append, List.sum_replicate, List.sum_replicate, smul_eq_mul, smul_eq_mul]

end Layout

section Leaves

variable {q final : ℕ} {ch : QueryChallenges}

theorem leaves_final (claimed : s.finals[q]? = some final) :
    s.leaves[q]? = some (qm31LeafHashT8 final) := by
  have early : q < s.finals.length := (List.getElem?_eq_some_iff.mp claimed).1
  rw [Statement.leaves, List.append_assoc, List.getElem?_append_left (by simpa using early),
    List.getElem?_map, claimed]
  rfl

theorem leaves_pos (drawn : s.challenges[q]? = some ch) :
    s.leaves[s.finals.length + q]? = some (qm31LeafHashT8 ch.compPos) := by
  have early : q < s.challenges.length := (List.getElem?_eq_some_iff.mp drawn).1
  rw [Statement.leaves, List.append_assoc, List.getElem?_append_right (by simp), List.length_map,
    Nat.add_sub_cancel_left, List.getElem?_append_left (by simpa using early), List.getElem?_map,
    drawn]
  rfl

theorem leaves_neg (same : s.challenges.length = s.finals.length)
    (drawn : s.challenges[q]? = some ch) :
    s.leaves[s.finals.length + (s.finals.length + q)]? = some (qm31LeafHashT8 ch.compNeg) := by
  rw [Statement.leaves, List.append_assoc, List.getElem?_append_right (by simp), List.length_map,
    Nat.add_sub_cancel_left, List.getElem?_append_right (by simp [same]), List.length_map, same,
    Nat.add_sub_cancel_left, List.getElem?_map, drawn]
  rfl

end Leaves

/-- An accepted proof shows for every query a fold chain with its challenges
that ends in its final value, read modulo `P`, an opening of that value, and
openings of the two composition values as far as their paths fit the trace. -/
theorem queries_membership_proved (sound : system.Sound Satisfiable)
    (accepted : verifyQueriesMembershipT8 system proofBytes s = .ok true)
    {q final : ℕ} {ch : QueryChallenges} (claimed : s.finals[q]? = some final)
    (drawn : s.challenges[q]? = some ch) :
    (∃ step rounds, rounds.length = s.numFolds ∧
      RecursiveVerifier.queryChallenges step rounds = ch.reduced (1 + s.numFolds) ∧
      RecursiveVerifier.recursiveQueryFinal step rounds = reduce final) ∧
    s.Opens q (qm31LeafHashT8 final) s.depth ∧
    (22 * (s.finals.length * s.depth + (q + 1) * s.compDepth) ≤ 2 ^ s.logSize →
      s.Opens (s.finals.length + q) (qm31LeafHashT8 ch.compPos) s.compDepth) ∧
    (22 * (s.finals.length * s.depth + (s.finals.length + q + 1) * s.compDepth) ≤
        2 ^ s.logSize →
      s.Opens (s.finals.length + (s.finals.length + q)) (qm31LeafHashT8 ch.compNeg)
        s.compDepth) := by
  rcases verifyQueriesMembershipT8_ok accepted with
    ⟨passed, preproc, proof, root, channel, built, verified⟩
  rcases check_ok passed with
    ⟨indicesLength, rootsLength, challengesLength, positive, blocksFit, pathsFit⟩
  rcases preproc_ok built with ⟨rvColumns, merkleColumns, long, deep⟩
  rcases sound.satisfied verified with ⟨⟨rv, rvSatisfied⟩, merkle, merkleSatisfied⟩
  rw [rvColumns] at rvSatisfied
  rw [merkleColumns] at merkleSatisfied
  have early : q < s.finals.length := (List.getElem?_eq_some_iff.mp claimed).1
  have lengths := long ch (List.mem_of_getElem? drawn)
  have compPositive : 0 < s.compDepth := by
    apply deep
    have first : s.paths.depths[s.finals.length + 0]? = some s.compDepth :=
      pathDepths_comp (by omega)
    exact List.mem_of_getElem? first
  have opens {path d : ℕ} {leaf : Quad ℕ} (inside : path < 3 * s.finals.length)
      (found : (pathDepths s.finals.length s.depth s.compDepth)[path]? = some d)
      (leafFound : s.leaves[path]? = some leaf)
      (fits : Machine.start (pathDepths s.finals.length s.depth s.compDepth) path + d ≤
        2 ^ s.logSize / 22) (depthPositive : 0 < d) : s.Opens path leaf d := by
    have indexInside : path < s.indices.length := by omega
    have rootInside : path < s.roots.length := by omega
    exact opens_of_satisfies merkleSatisfied found leafFound (List.getElem?_eq_getElem indexInside)
      (List.getElem?_eq_getElem rootInside) fits depthPositive
  refine ⟨?_, ?_, ?_, ?_⟩
  · exact rvSatisfied.query claimed drawn blocksFit lengths.1 lengths.2
  · apply opens (by omega) (pathDepths_final early) (leaves_final claimed) ?_ positive
    have covered : (q + 1) * s.depth ≤ s.finals.length * s.depth := Nat.mul_le_mul_right _ early
    rw [Nat.succ_mul] at covered
    rw [start_final early, Nat.le_div_iff_mul_le (by omega)]
    omega
  · intro fits
    apply opens (by omega) (pathDepths_comp (by omega)) (leaves_pos drawn) ?_
      compPositive
    rw [Nat.succ_mul q] at fits
    rw [start_comp (by omega), Nat.le_div_iff_mul_le (by omega)]
    omega
  · intro fits
    apply opens (by omega) (pathDepths_comp (by omega)) (leaves_neg challengesLength drawn) ?_
      compPositive
    rw [Nat.succ_mul (s.finals.length + q)] at fits
    rw [start_comp (by omega), Nat.le_div_iff_mul_le (by omega)]
    omega

end Acceptance

/-! ## A query with one line fold -/

/-- The root above a leaf with given siblings. -/
def rootAbove (sibs : List (Quad ℕ)) (index : ℕ) (leaf : Quad ℕ) : Quad ℕ :=
  Stwo.merklePathRootT8 leaf sibs (Merkle.indexBits sibs.length index)

theorem rootAbove_opens {sibs : List (Quad ℕ)} {paths : MerklePathT8.Paths}
    (depths : ∀ d ∈ paths.depths, d = sibs.length)
    (entries : ∀ path < paths.depths.length,
      paths.root path = rootAbove sibs (paths.index path) (paths.leaf path)) :
    MerklePathT8.Opens paths fun _ => sibs.map Stwo.residues where
  length_eq := by
    intro path d found
    rw [depths d (List.mem_of_getElem? found), List.length_map]
  root_eq := by
    intro path d found
    have inside : path < paths.depths.length := (List.getElem?_eq_some_iff.mp found).1
    rw [depths d (List.mem_of_getElem? found), entries path inside, rootAbove,
      Stwo.merklePathRootT8_eq_words, Stwo.residues_words]

/-- The first fold of a query. -/
def sampleStep : RecursiveVerifier.StepOp := ⟨11, 12, 3, 14, 4, 5, 16, 7⟩

/-- Its line fold. -/
def sampleRound : RecursiveVerifier.FoldRound := ⟨18, 19, 10⟩

def sampleChallenges : QueryChallenges :=
  RecursiveVerifier.queryChallenges sampleStep [sampleRound]

def sampleFinal : ℕ := RecursiveVerifier.recursiveQueryFinal sampleStep [sampleRound]

def sampleSibs : List (Quad ℕ) := [⟨1, 2, 3, 4⟩, ⟨5, 6, 7, 8⟩]

/-- One query, with paths of depth 2 from its final value and its composition values. -/
def sampleStatement : Statement where
  logSize := 8
  numFolds := 1
  depth := 2
  compDepth := 2
  challenges := [sampleChallenges]
  pxs := [3]
  finals := [sampleFinal]
  indices := [2, 1, 3]
  roots := [rootAbove sampleSibs 2 (qm31LeafHashT8 sampleFinal),
    rootAbove sampleSibs 1 (qm31LeafHashT8 sampleChallenges.compPos),
    rootAbove sampleSibs 3 (qm31LeafHashT8 sampleChallenges.compNeg)]

/-- The preprocessed columns of a statement that builds. -/
def Statement.columns (s : Statement) : Preproc :=
  (RecursiveVerifier.preprocRow s.finals s.challenges s.numFolds, s.paths.preprocRow s.logSize)

/-- The ideal system accepts a statement that passes the checks and builds
satisfiable columns. -/
theorem ideal_accepts {s : Statement} (passed : s.check = .ok ())
    (built : s.preproc = .ok s.columns) (satisfiable : Satisfiable s.logSize s.columns) :
    verifyQueriesMembershipT8 (.ideal Satisfiable s.logSize s.columns) [] s = .ok true := by
  have roots : (ProofSystem.ideal Satisfiable s.logSize s.columns).commitments () =
      [(ProofSystem.ideal Satisfiable s.logSize s.columns).commitColumns s.logSize s.columns,
        none] := rfl
  apply verifyQueriesMembershipT8_of passed built rfl roots
  intro channel
  exact ProofSystem.ideal_verify.mpr ⟨s.columns, rfl, satisfiable⟩

theorem sample_accepted :
    verifyQueriesMembershipT8 (.ideal Satisfiable 8 sampleStatement.columns) [] sampleStatement =
      .ok true := by
  have depths : ∀ d ∈ sampleStatement.paths.depths, d = sampleSibs.length := by
    decide
  have entries : ∀ path < sampleStatement.paths.depths.length, sampleStatement.paths.root path =
      rootAbove sampleSibs (sampleStatement.paths.index path) (sampleStatement.paths.leaf path) := by
    intro path inside
    match path, inside with
    | 0, _ => rfl
    | 1, _ => rfl
    | 2, _ => rfl
  have opens := rootAbove_opens depths entries
  have paths : MerklePathT8.Satisfies _ (sampleStatement.paths.preprocRow 8) 8 :=
    opens.honestMain_satisfies (by decide) (by intro d listed; rw [depths d listed]; decide)
      (by decide)
  have folds := RecursiveVerifier.folds_satisfiable sampleStatement.finals
    sampleStatement.challenges 1 8
  exact ideal_accepts (s := sampleStatement) rfl rfl ⟨folds, _, paths⟩

theorem queries_membership_proved_sample :
    (∃ step rounds, rounds.length = 1 ∧
      RecursiveVerifier.queryChallenges step rounds = sampleChallenges.reduced 2 ∧
      RecursiveVerifier.recursiveQueryFinal step rounds = reduce sampleFinal) ∧
    sampleStatement.Opens 0 (qm31LeafHashT8 sampleFinal) 2 ∧
    sampleStatement.Opens 1 (qm31LeafHashT8 sampleChallenges.compPos) 2 ∧
    sampleStatement.Opens 2 (qm31LeafHashT8 sampleChallenges.compNeg) 2 := by
  have claimed : sampleStatement.finals[0]? = some sampleFinal := rfl
  have drawn : sampleStatement.challenges[0]? = some sampleChallenges := rfl
  have proved := queries_membership_proved (ProofSystem.ideal_sound 8 sampleStatement.columns)
    sample_accepted claimed drawn
  exact ⟨proved.1, proved.2.1, proved.2.2.1 (by decide), proved.2.2.2 (by decide)⟩

/-! ## A statement that says more than its proof -/

/-- Challenges of zeros. -/
def idleChallenges : QueryChallenges := ⟨0, 0, [0], [0], 0, 0⟩

/-- One query of zeros.  The trace has room for one path only, the claimed value
and two of the roots are not reduced, and `pxs` differs from the challenges. -/
def disputedStatement : Statement where
  logSize := 5
  numFolds := 0
  depth := 1
  compDepth := 1
  challenges := [idleChallenges]
  pxs := [1]
  finals := [P]
  indices := [0, 0, 0]
  roots := [rootAbove [⟨0, 0, 0, 0⟩] 0 (qm31LeafHashT8 P), ⟨P, P, P, P⟩, ⟨P, P, P, P⟩]

/-- The one path of the statement that fits. -/
def disputedPath : MerklePathT8.Paths :=
  ⟨[qm31LeafHashT8 P], [0], [rootAbove [⟨0, 0, 0, 0⟩] 0 (qm31LeafHashT8 P)], [1]⟩

theorem disputed_preprocRow (row : ℕ) :
    disputedStatement.paths.preprocRow 5 row = disputedPath.preprocRow 5 row := by
  unfold MerklePathT8.Paths.preprocRow
  split
  case isTrue inside =>
    have first : row / 22 = 0 := by omega
    rw [first]
    rfl
  case isFalse => rfl

theorem disputed_accepted :
    verifyQueriesMembershipT8 (.ideal Satisfiable 5 disputedStatement.columns) []
      disputedStatement = .ok true := by
  have depths : ∀ d ∈ disputedPath.depths, d = [(⟨0, 0, 0, 0⟩ : Quad ℕ)].length := by
    decide
  have entries : ∀ path < disputedPath.depths.length, disputedPath.root path =
      rootAbove [⟨0, 0, 0, 0⟩] (disputedPath.index path) (disputedPath.leaf path) := by
    intro path inside
    have only : path = 0 := Nat.lt_one_iff.mp inside
    rw [only]
    rfl
  have opens := rootAbove_opens depths entries
  have paths : MerklePathT8.Satisfies _ (disputedPath.preprocRow 5) 5 :=
    opens.honestMain_satisfies (by decide) (by intro d listed; rw [depths d listed]; decide)
      (by decide)
  have columns : disputedStatement.columns.2 = disputedPath.preprocRow 5 :=
    funext disputed_preprocRow
  have satisfiable : Satisfiable 5 disputedStatement.columns := by
    rw [← columns] at paths
    exact ⟨RecursiveVerifier.folds_satisfiable disputedStatement.finals
      disputedStatement.challenges 0 5, _, paths⟩
  exact ideal_accepts (s := disputedStatement) rfl rfl satisfiable

/-- The words of a fold are reduced. -/
theorem foldTwo_ne_P (a b alpha : ℕ) (inv : UInt32) :
    RecursiveVerifier.foldTwo a b alpha inv ≠ P := by
  intro same
  have reduced (x y : ℕ) : Qm31.m31Add x y < P := Nat.mod_lt _ (by decide)
  have small (x y : ℕ) : Qm31.m31Add x y < 2 ^ 32 := lt_trans (reduced x y) (by decide)
  have read := congrArg limbs same
  unfold RecursiveVerifier.foldTwo at read
  dsimp only at read
  rw [addLimbs, limbs_pack ⟨small _ _, small _ _, small _ _, small _ _⟩] at read
  have last := congrArg Quad.w3 read
  have large : (limbs P).w3 = P := by decide
  rw [large] at last
  exact absurd last (Nat.ne_of_lt (reduced _ _))

/-- It is accepted although its `pxs` are not the challenges', no fold gives
its value, and no sibling leads to the root of its composition value. -/
theorem queries_membership_overstated :
    (ProofSystem.ideal Satisfiable 5 disputedStatement.columns).Sound Satisfiable ∧
      verifyQueriesMembershipT8 (.ideal Satisfiable 5 disputedStatement.columns) []
        disputedStatement = .ok true ∧
      disputedStatement.pxs[0]? ≠ disputedStatement.challenges[0]?.map (·.px) ∧
      (¬ ∃ step rounds, rounds.length = disputedStatement.numFolds ∧
        some (RecursiveVerifier.recursiveQueryFinal step rounds) =
          disputedStatement.finals[0]?) ∧
      ¬ ∃ sibs, sibs.length = disputedStatement.compDepth ∧
        some (Stwo.merklePathRootT8 (qm31LeafHashT8 idleChallenges.compPos) sibs
          (Merkle.indexBits disputedStatement.compDepth 0)) = disputedStatement.roots[1]? := by
  refine ⟨ProofSystem.ideal_sound _ _, disputed_accepted, by decide, ?_, ?_⟩
  · rintro ⟨step, rounds, length, final⟩
    have none : rounds = [] := List.length_eq_zero_iff.mp length
    have claimed : disputedStatement.finals[0]? = some P := rfl
    rw [none, RecursiveVerifier.recursiveQueryFinal_eq, List.foldl_nil, claimed] at final
    exact foldTwo_ne_P _ _ _ _ (Option.some.inj final)
  · rintro ⟨sibs, _, reached⟩
    have claimed : disputedStatement.roots[1]? = some ⟨P, P, P, P⟩ := rfl
    rw [Stwo.merklePathRootT8_eq_words, claimed] at reached
    have first := congrArg Quad.w0 (Option.some.inj reached)
    exact absurd first (Nat.ne_of_lt (Stwo.words_canonical _).1)

end CompositionT8
end Recursive
end QLSA
