import QLSA.Recursive.CheckedColumns

namespace QLSA
namespace Recursive

open Hash Machine Mersenne Qm31
open RecursiveVerifier (QueryChallenges)

/-!
# When the query verifiers come back

After its checks of the arguments, a verifier decodes the proof, asks for two
commitments and rebuilds the preprocessed columns.  The rebuilding is where it
may panic.  The verifier of joint proofs checks that the fold chains and the
final-value paths fit; that the vectors of the challenges are long enough it does not
check, nor anything about the depth of the composition paths.  The verifiers of fold chains
alone do not check that the rows suffice.
-/

variable {Preproc : Type}

/-- A verifier after its checks, with the texts of its errors, the columns it rebuilds and
the words it mixes in. -/
def verifyRebuilt (system : ProofSystem Preproc) (decodeError : String → String)
    (rootsError : ℕ → String) (logSize : ℕ) (build : Except Panic Preproc)
    (mix : system.Channel → system.Channel) (proofBytes : List UInt8) :
    Except Panic (Except String Bool) :=
  match system.decode proofBytes with
  | .error e => return .error (decodeError e)
  | .ok proof =>
      match system.commitments proof with
      | pre :: main :: _ => do
          let preproc ← build
          if pre ≠ system.commitColumns logSize preproc then return .ok false
          else
            let committed := system.commit (system.commit system.channel pre) main
            return .ok (system.verify logSize (mix committed) pre main proof)
      | few => return .error (rootsError few.length)

/-- The bytes are those of a proof with two commitments. -/
def Decodes (system : ProofSystem Preproc) (proofBytes : List UInt8) : Prop :=
  ∃ proof, system.decode proofBytes = .ok proof ∧ 2 ≤ (system.commitments proof).length

theorem returns_verifyRebuilt_iff {system : ProofSystem Preproc} {decodeError : String → String}
    {rootsError : ℕ → String} {logSize : ℕ} {build : Except Panic Preproc}
    {mix : system.Channel → system.Channel} {proofBytes : List UInt8} :
    Returns (verifyRebuilt system decodeError rootsError logSize build mix proofBytes) ↔
      (Decodes system proofBytes → Returns build) := by
  unfold verifyRebuilt
  cases decoded : system.decode proofBytes with
  | error e =>
      refine iff_of_true (returns_ok _) ?_
      rintro ⟨proof, other, -⟩
      rw [decoded] at other
      cases other
  | ok proof =>
      dsimp only
      have own : Decodes system proofBytes ↔ 2 ≤ (system.commitments proof).length := by
        constructor
        · rintro ⟨other, same, long⟩
          rw [decoded] at same
          cases same
          exact long
        · intro long
          exact ⟨proof, decoded, long⟩
      rw [own]
      split
      case h_1 pre main rest roots =>
        rw [roots]
        have long : 2 ≤ (pre :: main :: rest).length := by simp
        constructor
        · rintro ⟨result, done⟩ -
          rcases bind_eq_ok.mp done with ⟨preproc, built, -⟩
          exact ⟨preproc, built⟩
        · intro built
          refine (built long).bind fun preproc => ?_
          split
          case isTrue => exact returns_ok _
          case isFalse => exact returns_ok _
      case h_2 short =>
        refine iff_of_true (returns_ok _) fun long => ?_
        rcases roots : system.commitments proof with _ | ⟨pre, _ | ⟨main, rest⟩⟩
        · simp [roots] at long
        · simp [roots] at long
        · exact absurd roots (short pre main rest)

namespace RecursiveVerifier

/-- Point and final value of each query. -/
def queryWords (pxs : List UInt32) (finals : List ℕ) : List ℕ :=
  (pxs.zip finals).flatMap fun (px, final) => px.toNat :: (limbs final).toList

def verifyRecursiveQuery (debug : Bool) (system : ProofSystem Columns) (proofBytes : List UInt8)
    (logSize numFolds : ℕ) (challenges : QueryChallenges) (px : UInt32) (finalValue : ℕ) :
    Except Panic (Except String Bool) :=
  if logSize < minLogSize ∨ maxLogSize < logSize then
    return .error s!"log_size {logSize} out of range"
  else do
    let block ← usize debug (1 + numFolds)
    if challenges.alphas.length ≠ block ∨ challenges.invs.length ≠ block then
      return .error "challenges must have 1 + num_folds alphas/invs"
    else
      verifyRebuilt system (fun e => s!"deserialization error: {e}")
        (fun few => s!"malformed proof: expected ≥ 2 commitments, got {few}") logSize
        (buildPreprocChecked debug [finalValue] [challenges] numFolds logSize)
        (fun channel => system.mixU32s channel (px.toNat :: (limbs finalValue).toList)) proofBytes

def verifyRecursiveQueries (debug : Bool) (system : ProofSystem Columns) (proofBytes : List UInt8)
    (logSize numFolds : ℕ) (challenges : List QueryChallenges) (pxs : List UInt32)
    (finals : List ℕ) : Except Panic (Except String Bool) :=
  if logSize < minLogSize ∨ maxLogSize < logSize then
    return .error s!"log_size {logSize} out of range"
  else if pxs.length ≠ finals.length ∨ challenges.length ≠ finals.length then
    return .error "pxs/finals/challenges length mismatch"
  else if pxs = [] then return .error "must have ≥ 1 query"
  else
    verifyRebuilt system (fun e => s!"deserialization error: {e}")
      (fun few => s!"malformed proof: expected ≥ 2 commitments, got {few}") logSize
      (buildPreprocChecked debug finals challenges numFolds logSize)
      (fun channel => system.mixU32s channel (queryWords pxs finals)) proofBytes

/-- When the verifier of one query comes back: once the size is in range, the block has a
length, and rows for all folds are there unless an earlier check refuses. -/
def SingleReturns (debug : Bool) (system : ProofSystem Columns) (proofBytes : List UInt8)
    (logSize numFolds : ℕ) (challenges : QueryChallenges) : Prop :=
  minLogSize ≤ logSize → logSize ≤ maxLogSize →
    (debug = true → 1 + numFolds < 2 ^ 64) ∧
      (challenges.alphas.length = (1 + numFolds) % 2 ^ 64 →
        challenges.invs.length = (1 + numFolds) % 2 ^ 64 → Decodes system proofBytes →
          numFolds < 2 ^ logSize)

/-- When the verifier of several queries comes back: unless an earlier check refuses, the
blocks fit the rows and the challenges cover them. -/
def SeveralReturns (debug : Bool) (system : ProofSystem Columns) (proofBytes : List UInt8)
    (logSize numFolds : ℕ) (challenges : List QueryChallenges) (pxs : List UInt32)
    (finals : List ℕ) : Prop :=
  minLogSize ≤ logSize → logSize ≤ maxLogSize → pxs.length = finals.length →
    challenges.length = finals.length → pxs ≠ [] → Decodes system proofBytes →
      finals.length * (1 + numFolds) ≤ 2 ^ logSize ∧
        ∀ ch ∈ challenges, ch.Covers debug (1 + numFolds)

section Verifiers

variable {debug : Bool} {system : ProofSystem Columns} {proofBytes : List UInt8}
  {logSize numFolds finalValue : ℕ} {ch : QueryChallenges} {px : UInt32}
  {challenges : List QueryChallenges} {pxs : List UInt32} {finals : List ℕ}

theorem rows_bounded {bound : ℕ} (small : logSize ≤ bound) (narrow : bound < 64) :
    2 ^ logSize < 2 ^ 64 :=
  Nat.pow_lt_pow_right (by decide) (small.trans_lt narrow)

theorem returns_verifyRecursiveQuery_iff :
    Returns (verifyRecursiveQuery debug system proofBytes logSize numFolds ch px finalValue) ↔
      SingleReturns debug system proofBytes logSize numFolds ch := by
  unfold verifyRecursiveQuery
  split
  case isTrue outside =>
    refine iff_of_true (returns_ok _) fun least most => ?_
    omega
  case isFalse ranged =>
    have least : minLogSize ≤ logSize := by omega
    have most : logSize ≤ maxLogSize := by omega
    have bounded : 2 ^ logSize < 2 ^ 64 := rows_bounded most (by decide)
    have reduced : SingleReturns debug system proofBytes logSize numFolds ch ↔
        (debug = true → 1 + numFolds < 2 ^ 64) ∧
          (ch.alphas.length = (1 + numFolds) % 2 ^ 64 →
            ch.invs.length = (1 + numFolds) % 2 ^ 64 → Decodes system proofBytes →
              numFolds < 2 ^ logSize) :=
      ⟨fun all => all least most, fun all _ _ => all⟩
    rw [reduced]
    cases done : usize debug (1 + numFolds) with
    | error failure =>
        refine iff_of_false (not_returns_error failure) fun conditions => ?_
        rcases returns_usize_iff.mpr conditions.1 with ⟨block, returned⟩
        rw [done] at returned
        cases returned
    | ok block =>
        have wrapped := usize_ok done
        have length_fits := returns_usize_iff.mp ⟨block, done⟩
        refine (returns_known rfl ?_).trans (and_iff_right length_fits).symm
        rw [← wrapped]
        split
        case isTrue mismatch =>
          refine iff_of_true (returns_ok _) fun alphas invs => ?_
          rcases mismatch with other | other
          · exact absurd alphas other
          · exact absurd invs other
        case isFalse matched =>
          rw [not_or, not_not, not_not] at matched
          rw [returns_verifyRebuilt_iff,
            returns_buildPreprocChecked_iff rfl (List.cons_ne_nil _ _) bounded,
            List.length_singleton, Nat.one_mul, List.forall_mem_singleton]
          constructor
          · intro built _ _ decodes
            have fits := (built decodes).1
            omega
          · intro all decodes
            have fits := all matched.1 matched.2 decodes
            have whole : block = 1 + numFolds := by
              rw [wrapped, Nat.mod_eq_of_lt (by omega)]
            rw [whole] at matched
            exact ⟨by omega, matched.1.ge, matched.2.ge, fun _ => matched⟩

theorem returns_verifyRecursiveQueries_iff :
    Returns (verifyRecursiveQueries debug system proofBytes logSize numFolds challenges pxs
        finals) ↔
      SeveralReturns debug system proofBytes logSize numFolds challenges pxs finals := by
  unfold verifyRecursiveQueries
  split
  case isTrue outside =>
    refine iff_of_true (returns_ok _) fun least most => ?_
    omega
  case isFalse ranged =>
    split
    case isTrue mismatch =>
      refine iff_of_true (returns_ok _) fun _ _ pairs same => ?_
      rcases mismatch with other | other
      · exact absurd pairs other
      · exact absurd same other
    case isFalse matched =>
      split
      case isTrue none =>
        exact iff_of_true (returns_ok _) fun _ _ _ _ asked => absurd none asked
      case isFalse asked =>
        rw [not_or, not_not, not_not] at matched
        have least : minLogSize ≤ logSize := by omega
        have most : logSize ≤ maxLogSize := by omega
        have bounded : 2 ^ logSize < 2 ^ 64 := rows_bounded most (by decide)
        have claimed : finals ≠ [] := by
          intro none
          rw [none, List.length_nil, List.length_eq_zero_iff] at matched
          exact asked matched.1
        rw [returns_verifyRebuilt_iff,
          returns_buildPreprocChecked_iff matched.2 claimed bounded]
        constructor
        · intro built _ _ _ _ _
          exact built
        · intro all
          exact all least most matched.1 matched.2 asked

end Verifiers

end RecursiveVerifier

namespace CompositionT8

/-- The columns of both circuits. -/
def Statement.preprocChecked (s : Statement) (debug : Bool) : Except Panic (Columns × Columns) := do
  let rv ← RecursiveVerifier.buildPreprocChecked debug s.finals s.challenges s.numFolds s.logSize
  let merkle ← s.paths.buildPreprocChecked debug s.logSize
  return (rv, merkle)

/-- `verify_queries_membership_t8` with its panics. -/
def verifyMembershipChecked (debug : Bool) (system : ProofSystem (Columns × Columns))
    (proofBytes : List UInt8) (s : Statement) : Except Panic (Except String Bool) :=
  match s.check with
  | .error e => return .error e
  | .ok () =>
      verifyRebuilt system (fun e => s!"N-query t8 deserialize error: {e}")
        (fun few => s!"N-query t8: expected ≥ 2 commitments, got {few}") s.logSize
        (s.preprocChecked debug)
        (fun channel => system.mixU32s (system.mixU32s channel s.queryWords) s.pathWords)
        proofBytes

/-- When the verifier of joint proofs comes back: unless an earlier check refuses, the
challenges cover the blocks, and the composition paths have a compression each and a layout
that there is room for. -/
def JointReturns (debug : Bool) (system : ProofSystem (Columns × Columns))
    (proofBytes : List UInt8) (s : Statement) : Prop :=
  s.check = .ok () → Decodes system proofBytes →
    (∀ ch ∈ s.challenges, ch.Covers debug (1 + s.numFolds)) ∧ 1 ≤ s.compDepth ∧
      16 * (s.finals.length * s.depth + 2 * s.finals.length * s.compDepth) < 2 ^ 63

section Verifier

variable {debug : Bool} {system : ProofSystem (Columns × Columns)} {proofBytes : List UInt8}
  {s : Statement}

theorem check_range (passed : s.check = .ok ()) : s.finals ≠ [] ∧ s.logSize ≤ Statement.maxLog := by
  unfold Statement.check at passed
  split at passed
  case isTrue => cases passed
  case isFalse lengths =>
    split at passed
    case isTrue => cases passed
    case isFalse ranged =>
      simp only [not_or, not_lt] at lengths ranged
      exact ⟨lengths.1, ranged.2⟩

theorem check_caps (passed : s.check = .ok ()) :
    s.finals.length ≤ RecursiveVerifier.maxQueries ∧ s.depth ≤ MerklePathT8.maxDepth := by
  unfold Statement.check at passed
  split_ifs at passed with _ _ many _ deep
  exact ⟨not_lt.mp many, not_lt.mp (not_or.mp deep).2⟩

theorem paths_lengths (passed : s.check = .ok ()) :
    s.paths.leaves.length = s.paths.depths.length ∧
      s.paths.indices.length = s.paths.depths.length ∧
        s.paths.roots.length = s.paths.depths.length := by
  rcases check_ok passed with ⟨indices, roots, challenges, -⟩
  simp only [Statement.paths, Statement.leaves, pathDepths, List.length_append, List.length_map,
    List.length_replicate, indices, roots, challenges]
  omega

theorem returns_preprocChecked_iff (passed : s.check = .ok ()) :
    Returns (s.preprocChecked debug) ↔
      (∀ ch ∈ s.challenges, ch.Covers debug (1 + s.numFolds)) ∧ 1 ≤ s.compDepth ∧
        16 * (s.finals.length * s.depth + 2 * s.finals.length * s.compDepth) < 2 ^ 63 := by
  rcases check_ok passed with ⟨-, -, challenges, deep, chains, -⟩
  rcases check_range passed with ⟨asked, most⟩
  have count : 0 < s.finals.length := List.length_pos_iff.mpr asked
  have bounded : 2 ^ s.logSize < 2 ^ 64 := RecursiveVerifier.rows_bounded most (by decide)
  have total : s.paths.depths.sum =
      s.finals.length * s.depth + 2 * s.finals.length * s.compDepth := by
    simp only [Statement.paths, pathDepths, List.sum_append, List.sum_replicate, smul_eq_mul]
  have positive : (∀ d ∈ s.paths.depths, 1 ≤ d) ↔ 1 ≤ s.compDepth := by
    simp only [Statement.paths, pathDepths, List.mem_append, List.mem_replicate]
    constructor
    · intro all
      exact all _ (.inr ⟨by omega, rfl⟩)
    · rintro comp d (⟨-, rfl⟩ | ⟨-, rfl⟩)
      · exact deep
      · exact comp
  have steps : Returns (s.preprocChecked debug) ↔
      (s.finals.length * (1 + s.numFolds) ≤ 2 ^ s.logSize ∧
        ∀ ch ∈ s.challenges, ch.Covers debug (1 + s.numFolds)) ∧
      ((∀ d ∈ s.paths.depths, 1 ≤ d) ∧ 16 * s.paths.depths.sum < 2 ^ 63) ∧ True :=
    returns_seq (RecursiveVerifier.returns_buildPreprocChecked_iff challenges asked bounded)
      fun _ => returns_seq
        (MerklePathT8.Paths.returns_buildPreprocChecked_iff (paths_lengths passed))
        fun _ => returns_return_iff _
  rw [steps, positive, total, and_true, and_iff_right chains]

/-- Where the columns are built cell by cell, they are defined by rows. -/
theorem preproc_of_returns (passed : s.check = .ok ()) (built : Returns (s.preprocChecked debug)) :
    ∃ preproc, s.preproc = .ok preproc := by
  rcases check_ok passed with ⟨-, -, challenges, -⟩
  rcases check_range passed with ⟨asked, most⟩
  rcases paths_lengths passed with ⟨leaves, indices, roots⟩
  have bounded : 2 ^ s.logSize < 2 ^ 64 := RecursiveVerifier.rows_bounded most (by decide)
  rcases built with ⟨columns, done⟩
  rcases bind_eq_ok.mp done with ⟨rv, chains, rest⟩
  rcases bind_eq_ok.mp rest with ⟨merkle, climbed, -⟩
  have positive := ((MerklePathT8.Paths.returns_buildPreprocChecked_iff
    (paths_lengths passed)).mp ⟨merkle, climbed⟩).1
  have each : s.paths.depths.all (1 ≤ ·) = true := by
    rw [List.all_eq_true]
    exact fun d member => decide_eq_true (positive d member)
  have rows : s.paths.buildPreprocMultiVar s.logSize = .ok (s.paths.preprocRow s.logSize) := by
    unfold MerklePathT8.Paths.buildPreprocMultiVar
    rw [if_neg (not_not.mpr (leaves.trans indices.symm)),
      if_neg (not_not.mpr (leaves.trans roots.symm)), if_neg (not_not.mpr leaves),
      if_neg (not_not.mpr each)]
  refine ⟨(RecursiveVerifier.preprocRow s.finals s.challenges s.numFolds,
    s.paths.preprocRow s.logSize), ?_⟩
  rw [Statement.preproc, RecursiveVerifier.buildPreproc_of_returns challenges asked bounded
    ⟨rv, chains⟩, rows]
  rfl

theorem returns_verifyMembershipChecked_iff :
    Returns (verifyMembershipChecked debug system proofBytes s) ↔
      JointReturns debug system proofBytes s := by
  unfold verifyMembershipChecked
  cases passed : s.check with
  | error e =>
      refine iff_of_true (returns_ok _) fun other => ?_
      rw [passed] at other
      cases other
  | ok checked =>
      dsimp only
      rw [returns_verifyRebuilt_iff, returns_preprocChecked_iff passed]
      constructor
      · intro built _
        exact built
      · intro all
        exact all passed

/-- With a depth of the composition paths in the range that the other depths are checked
for, the layout always has room: only the vectors of the challenges are left, which no
check of the verifier looks at. -/
theorem returns_of_compDepth_iff (compDepth : 1 ≤ s.compDepth ∧ s.compDepth ≤ MerklePathT8.maxDepth) :
    Returns (verifyMembershipChecked debug system proofBytes s) ↔
      (s.check = .ok () → Decodes system proofBytes →
        ∀ ch ∈ s.challenges, ch.Covers debug (1 + s.numFolds)) := by
  rw [returns_verifyMembershipChecked_iff]
  constructor
  · intro all passed decodes
    exact (all passed decodes).1
  · intro covers passed decodes
    refine ⟨covers passed decodes, compDepth.1, ?_⟩
    rcases check_caps passed with ⟨queries, deep⟩
    have finals := Nat.mul_le_mul queries deep
    have compositions := Nat.mul_le_mul (Nat.mul_le_mul_left 2 queries) compDepth.2
    have total := Nat.mul_le_mul_left 16 (Nat.add_le_add finals compositions)
    exact total.trans_lt (by decide)

end Verifier

end CompositionT8

/-! ## The verifiers -/

/-- The query verifiers come back exactly under these conditions, in builds with debug assertions
and without.  The proof system is any system whose functions return; what a verifier holds in
memory is bounded only by the layout of the paths.  A verifier of fold chains comes back when the
blocks fit the rows and the challenges cover them, and the verifier of joint proofs, which checks
the first of these, when the challenges cover the blocks and the composition paths have a depth
that fits the layout. -/
theorem query_verifiers_return_iff (debug : Bool) (system : ProofSystem Columns)
    (joint : ProofSystem (Columns × Columns)) (proofBytes : List UInt8) (logSize numFolds : ℕ)
    (ch : QueryChallenges) (px : UInt32) (finalValue : ℕ) (challenges : List QueryChallenges)
    (pxs : List UInt32) (finals : List ℕ) (s : CompositionT8.Statement) :
    (Returns (RecursiveVerifier.verifyRecursiveQuery debug system proofBytes logSize numFolds ch px
        finalValue) ↔
      RecursiveVerifier.SingleReturns debug system proofBytes logSize numFolds ch) ∧
    (Returns (RecursiveVerifier.verifyRecursiveQueries debug system proofBytes logSize numFolds
        challenges pxs finals) ↔
      RecursiveVerifier.SeveralReturns debug system proofBytes logSize numFolds challenges pxs
        finals) ∧
    (Returns (CompositionT8.verifyMembershipChecked debug joint proofBytes s) ↔
      CompositionT8.JointReturns debug joint proofBytes s) :=
  ⟨RecursiveVerifier.returns_verifyRecursiveQuery_iff,
    RecursiveVerifier.returns_verifyRecursiveQueries_iff,
    CompositionT8.returns_verifyMembershipChecked_iff⟩

/-- Proofs with two commitments, in one byte or more. -/
def twoCommitments (Preproc : Type) : ProofSystem Preproc where
  Proof := Unit
  Root := Unit
  Channel := Unit
  rootEq := inferInstance
  decode := fun bytes => if bytes = [] then .error "UnexpectedEnd" else .ok ()
  commitments := fun _ => [(), ()]
  commitColumns := fun _ _ => ()
  channel := ()
  mixU32s := fun _ _ => ()
  commit := fun _ _ => ()
  verify := fun _ _ _ _ _ => false

/-- Two folds, with the vectors that go with them. -/
def threeRows : QueryChallenges := ⟨0, 0, [0, 0, 0], [0, 0, 0], 0, 0⟩

/-- Three rows do not fit two, and nothing refuses them before the fill. -/
theorem short_trace_panics :
    ¬ Returns (RecursiveVerifier.verifyRecursiveQuery false (twoCommitments Columns) [0] 1 2
      threeRows 0 0) := by
  rw [RecursiveVerifier.returns_verifyRecursiveQuery_iff]
  intro conditions
  have fits := (conditions (by decide) (by decide)).2 rfl rfl ⟨(), rfl, by decide⟩
  exact absurd fits (by decide)

end Recursive
end QLSA
