import QLSA.Recursive.BatchMemberships
import QLSA.Recursive.NodeProofs

namespace QLSA
namespace Recursive
namespace TreeNode

open Hash Mersenne Qm31 Stwo Vfri2
open Machine (FailsWith bind_eq_ok failsWith_mapM mapError_ok)
open NonceUpdateT8 (checkedTrace checkedTrace_grows)

/-!
# Proofs of a whole tree

The loop over levels is run with the statements, proofs and columns of nodes.
For leaves that are in range nothing in it can fail but the chain of some
columns, where the drawn point meets the domain: every group of a level fits
one node, the columns of a node are long enough for the folds of the level
above and short enough for its paths, and the root takes the transition.  In a
tree that is returned every proof is accepted for the statements of its group,
and these come from the columns of the level below.
-/

/-! ## The prover of the loop -/

section Prover

variable (system : Bool → ProofSystem Preproc)
  (proving : ∀ circuits, (system circuits).Proving NodeMain)

/-- Columns as `u32` words. -/
def wordColumns (cols : List (List ℕ)) : List (List UInt32) :=
  cols.map fun col => col.map UInt32.ofNat

/-- Words as the columns of a trace. -/
def columnWords (cols : List (List UInt32)) : List (List ℕ) :=
  cols.map fun col => col.map UInt32.toNat

def nodeProver : NodeProver TreeStatement BatchMembership NonceWitness TreeNodeResult where
  treeStatementFromColumns cols := treeStatementFromColumns (wordColumns cols)
  proveTreeNodeWithNonce := proveTreeNodeWithNonce system proving
  treeNodeTraceColumnsWithNonce := treeNodeTraceColumnsWithNonce

end Prover

theorem wordColumns_columnWords (cols : List (List UInt32)) :
    wordColumns (columnWords cols) = cols := by
  have word : UInt32.ofNat ∘ UInt32.toNat = id := funext fun _ => UInt32.ofNat_toNat
  have column : ((fun col : List ℕ => col.map UInt32.ofNat) ∘
      fun col : List UInt32 => col.map UInt32.toNat) = id := by
    funext col
    rw [Function.comp_apply, List.map_map, word, List.map_id, id]
  rw [wordColumns, columnWords, List.map_map, column, List.map_id]

/-! ## Statements of a level -/

/-- Columns whose chain has room for the folds. -/
structure Statable (numFolds : ℕ) (columns : TraceColumns) : Prop where
  some : columns.1 ≠ []
  lengths : ∀ col ∈ columns.1, col.length = 2 ^ columns.2
  folds : numFolds < columns.2
  depth : columns.2 ≤ MerklePathT8.maxDepth

/-- The membership of leaf columns. -/
structure StartsAt (batchMerkleRoot : List UInt8) (columns : TraceColumns)
    (m : BatchMembership) : Prop where
  lands : m.Lands (nodeOfBytes batchMerkleRoot)
  start : ∀ root, traceRootOf t8Backend (wordColumns columns.1) columns.2 = .ok root →
    m.start = p2t8NodeWords root

/-- The membership of a signature is one of its own columns. -/
theorem Fitting.startsAt {sig : SignatureColumns} {side : Group} {tree : BatchTree Bytes32}
    {count i : ℕ} {m : BatchMembership} (fitting : Fitting sig side tree count i m) :
    StartsAt (batchSeed tree) (columnWords (sig.group side).1, (sig.group side).2) m where
  lands := fitting.lands
  start := by
    rcases fitting.start with ⟨own, traced, start⟩
    intro root other
    rw [wordColumns_columnWords] at other
    rw [start, Except.ok.inj (traced.symm.trans other)]

/-- A statement that joins any node of the tree. -/
structure Joins (numFolds : ℕ) (st : TreeStatement) : Prop where
  made : st.FromColumns
  layout : st.layout = vfri11ChallengeLayout numFolds
  compDepth : st.compDepth ≤ MerklePathT8.maxDepth
  lands : ∀ m ∈ st.membership, ∀ inp ∈ st.inputs, m.Lands inp.batchRoot
  steps : 39 + 6 * numFolds ≤ st.steps.length

section Statements

variable {batchMerkleRoot : List UInt8} {nQueries numFolds : ℕ} {columns : TraceColumns}
  {membership : Option BatchMembership} {st : TreeStatement}

theorem wordColumns_lengths (statable : Statable numFolds columns) :
    (wordColumns columns.1).isEmpty = false ∧
      checkColumns (wordColumns columns.1) (2 ^ columns.2) = .ok () := by
  constructor
  · rw [wordColumns, List.isEmpty_eq_false_iff]
    exact fun none => statable.some (List.map_eq_nil_iff.mp none)
  · rw [checkColumns]
    have even : (wordColumns columns.1).zipIdx.find?
        (fun entry => entry.1.length ≠ 2 ^ columns.2) = none := by
      rw [List.find?_eq_none]
      rintro ⟨col, i⟩ member
      have listed : col ∈ wordColumns columns.1 := List.fst_mem_of_mem_zipIdx member
      rcases List.mem_map.mp listed with ⟨own, place, rfl⟩
      simp [statable.lengths own place]
    rw [even]

theorem foldCount_statable (positive : 1 ≤ numFolds) (statable : Statable numFolds columns) :
    foldCount columns.2 (some numFolds) = .ok numFolds := by
  have room := statable.folds
  rw [foldCount, if_pos (by omega)]

/-- A chain that met a zero denominator. -/
def Degenerate (size : ℕ) (e : String) : Prop :=
  ∃ q < 2 ^ size, e = s!"degenerate OODS denom at q={q}"

/-- Nothing but the chain of the columns can fail. -/
theorem statement_failsWith (positive : 1 ≤ numFolds) (statable : Statable numFolds columns)
    (seed : batchMerkleRoot.length = 32) (asked : 1 ≤ nQueries ∧ nQueries ≤ 64)
    (starts : ∀ m ∈ membership, StartsAt batchMerkleRoot columns m) :
    FailsWith (Degenerate columns.2) (treeStatementFromColumns (wordColumns columns.1) columns.2
      batchMerkleRoot nQueries (some numFolds) membership) := by
  rcases wordColumns_lengths statable with ⟨nonempty, lengths⟩
  have room := statable.folds
  have depth := statable.depth
  rw [MerklePathT8.maxDepth] at depth
  have fails : FailsWith _ (vfri11FriChain _ _ _ _ _) :=
    vfriFriChain_failsWith nonempty lengths seed asked (by omega) (foldCount_statable positive statable)
  cases done : vfri11FriChain (wordColumns columns.1) columns.2 batchMerkleRoot nQueries
      (some numFolds) with
  | ok ch =>
      apply Machine.failsWith_of_ok
      have begins : ∀ m ∈ membership, m.start = p2t8NodeWords ch.traceRoot := fun m own =>
        (starts m own).start _ (vfri11FriChain_traceRoot done)
      rcases treeStatement_made done begins with ⟨st, made, -⟩
      exact ⟨st, made⟩
  | error failure =>
      rcases fails.error failure done with ⟨q, inside, rfl⟩
      constructor
      intro e failed
      rw [treeStatementFromColumns, genVfri11RecursionInputs, done] at failed
      exact ⟨q, inside, (Except.error.inj failed).symm⟩

/-- What is stated joins any node of the tree. -/
theorem statement_joins (positive : 1 ≤ numFolds) (statable : Statable numFolds columns)
    (starts : ∀ m ∈ membership, StartsAt batchMerkleRoot columns m)
    (stated : treeStatementFromColumns (wordColumns columns.1) columns.2 batchMerkleRoot nQueries
      (some numFolds) membership = .ok st) : Joins numFolds st := by
  rcases treeStatement_ok stated with ⟨ch, done, -, carried, stands⟩
  rcases vfri11FriChain_replayed done with ⟨-, -, -, -, counted, -⟩
  have folds : ch.numFolds = numFolds :=
    Except.ok.inj (counted.symm.trans (foldCount_statable positive statable))
  constructor
  case made => exact ⟨_, _, _, _, _, _, stated⟩
  case layout => exact folds ▸ stands.layout
  case compDepth => exact stands.depths.2 ▸ statable.depth
  case lands =>
    intro m own inp published
    rw [carried] at own
    rw [stands.inputs] at published
    rw [← Option.some.inj published]
    exact (starts m own).lands
  case steps =>
    have asked := stands.asked.1
    rw [stands.steps_length, folds]
    omega

end Statements

/-! ## Nodes of a level -/

/-- A transition whose own trace is built. -/
structure Traceable (w : NonceWitness) : Prop where
  some : w.1.updates ≠ []
  pub : NonceUpdateT8.Public w.1
  size : nonceLogSize w.1.updates.length w.1.depth ≤ maxLog
  traced : ∃ traces, checkedTrace w.1 w.2 (nonceLogSize w.1.updates.length w.1.depth) = .ok traces
  digits : ∀ t ∈ w.2, t.bits = Merkle.indexBits w.1.depth t.index

section Nodes

variable {numFolds : ℕ} {group : List TreeStatement} {nonce : Option NonceWitness}

/-- A node takes a transition on top of its statements. -/
theorem Joinable.withNonce (joinable : Joinable numFolds group none)
    (traceable : ∀ w ∈ nonce, Traceable w) : Joinable numFolds group nonce := by
  cases nonce with
  | none => exact joinable
  | some w =>
      have own := traceable w rfl
      refine ⟨joinable.some, joinable.layouts, joinable.depths, joinable.queries_le,
        joinable.lands, max_le joinable.size_le own.size, ?_, ?_⟩
      · rintro st ⟨⟩
        exact ⟨own.some, own.pub⟩
      · rcases checkedTrace_grows (le_max_right _ _) own.traced with ⟨traces, traced⟩
        exact ⟨Option.some traces, bind_eq_ok.mpr ⟨traces, mapError_ok.mpr traced, rfl⟩⟩

theorem joins_joinable (joins : ∀ st ∈ group, Joins numFolds st) (some : group ≠ [])
    (few : group.length ≤ 8) (traceable : ∀ w ∈ nonce, Traceable w) :
    Joinable numFolds group nonce :=
  (joinable_of_few (fun st member => (joins st member).made) some few
    (fun st member => (joins st member).layout) (fun st member => (joins st member).compDepth)
    fun st member => (joins st member).lands).withNonce traceable

/-- The transcript of one statement is longer than the folds are deep. -/
theorem nodeLogSize_gt (joins : ∀ st ∈ group, Joins numFolds st) (few : numFolds ≤ 11)
    (node : Node numFolds group) : numFolds < nodeLogSize group numFolds := by
  have fits := (nodeLogSize_fits node le_rfl).1
  rcases List.exists_mem_of_ne_nil _ node.some with ⟨st, member⟩
  have long : 39 + 6 * numFolds ≤ ChannelT8.totalBlocks (group.map TreeStatement.steps) := by
    have listed : st.steps.length ∈ (group.map TreeStatement.steps).map List.length :=
      List.mem_map_of_mem (List.mem_map_of_mem member)
    exact (joins st member).steps.trans (List.single_le_sum (fun _ _ => Nat.zero_le _) _ listed)
  have small : ∀ f ≤ 11, 2 ^ f < (39 + 6 * f) * 22 := by decide
  have above := (small numFolds few).trans_le ((Nat.mul_le_mul_right 22 long).trans fits)
  exact (Nat.pow_lt_pow_iff_right (by omega)).mp above

theorem layout_injective {other : ℕ}
    (same : vfri11ChallengeLayout numFolds = vfri11ChallengeLayout other) : numFolds = other := by
  have lengths := congrArg (fun layout => layout.alphaAt.length) same
  simp only [vfri11ChallengeLayout, List.length_map, List.length_range] at lengths
  exact Nat.add_left_cancel lengths

variable {system : Bool → ProofSystem Preproc}
  {proving : ∀ circuits, (system circuits).Proving NodeMain}

/-- A group of statements gets its node, and the level above can state it. -/
theorem group_proved (honest : ∀ circuits, (proving circuits).Honest (Proves circuits))
    (folds : numFolds ≤ 11) (joins : ∀ st ∈ group, Joins numFolds st) (some : group ≠ [])
    (few : group.length ≤ 8) (traceable : ∀ w ∈ nonce, Traceable w) :
    ∃ result columns, proveTreeNodeWithNonce system proving group nonce = .ok result ∧
      treeNodeTraceColumnsWithNonce group nonce = .ok columns ∧
      NodeProved system group nonce result columns ∧ Statable numFolds columns := by
  have made (st : TreeStatement) (member : st ∈ group) : st.FromColumns := (joins st member).made
  have digits (w : NonceWitness) (own : w ∈ nonce) := (traceable w own).digits
  have joinable := joins_joinable joins some few traceable
  rcases joinable.proved honest made digits with ⟨result, proved⟩
  rcases proved_node honest made digits proved with
    ⟨other, logSize, node, parts, exported, stands⟩
  have size : node.shape.logSize = logSize := by rw [parts.shape]; rfl
  rcases List.exists_mem_of_ne_nil _ some with ⟨st, member⟩
  have same : numFolds = other := layout_injective
    ((joinable.layouts st member).symm.trans ((parts.joinable made).layouts st member))
  subst same
  refine ⟨result, _, proved, exported, stands, ?_⟩
  constructor
  case some =>
    apply List.ne_nil_of_length_pos
    rw [NodeMain.columns_length]
    omega
  case lengths => exact (node.main.columns_exported _).lengths
  case folds =>
    rw [size]
    exact (nodeLogSize_gt joins folds parts.made).trans_le parts.large
  case depth =>
    rw [size]
    exact parts.size_le.trans (by decide)

end Nodes

/-! ## Levels -/

section Levels

variable {system : Bool → ProofSystem Preproc}
  {proving : ∀ circuits, (system circuits).Proving NodeMain}
  {batchMerkleRoot : List UInt8} {nQueries numFolds fanIn : ℕ} {nonce : Option NonceWitness}

/-- A level with a proved node for every group of the statements below it. -/
structure LevelProved (system : Bool → ProofSystem Preproc)
    (proving : ∀ circuits, (system circuits).Proving NodeMain) (fanIn : ℕ)
    (atRoot : Option NonceWitness) (statements : List TreeStatement)
    (level : TreeLevel TreeNodeResult) (groups : List (List TreeStatement)) : Prop where
  levelOver : LevelOver (nodeProver system proving) fanIn atRoot statements level groups
  proved : List.Forall₂ (fun group (entry : TreeNodeResult × TraceColumns) =>
    NodeProved system group atRoot entry.1 entry.2) groups (level.nodes.zip level.columns)

variable (system proving batchMerkleRoot nQueries numFolds fanIn nonce) in
/-- Proved levels from the bottom to the root, each over statements made from
the columns of the one below.  The transition is in the root only. -/
inductive ProvedTree : List TreeStatement → List (TreeLevel TreeNodeResult) → Prop
  | root {statements level group}
      (proved : LevelProved system proving fanIn nonce statements level [group]) :
      ProvedTree statements [level]
  | inner {statements level groups next rest}
      (proved : LevelProved system proving fanIn none statements level groups)
      (several : 1 < groups.length)
      (above : List.Forall₂ (fun columns statement => treeStatementFromColumns
        (wordColumns columns.1) columns.2 batchMerkleRoot nQueries (some numFolds) none =
          .ok statement) level.columns next)
      (tree : ProvedTree next rest) : ProvedTree statements (level :: rest)

theorem ProvedTree.covers {statements : List TreeStatement}
    {levels : List (TreeLevel TreeNodeResult)}
    (tree : ProvedTree system proving batchMerkleRoot nQueries numFolds fanIn nonce statements
      levels) : Covers (nodeProver system proving) batchMerkleRoot nQueries (some numFolds) fanIn
        nonce statements levels := by
  induction tree with
  | root proved => exact .root proved.levelOver
  | inner proved several above _ ih => exact .inner proved.levelOver several above ih

theorem forall₂_zip {α β γ : Type} {first : α → β → Prop} {second : α → γ → Prop} {list : List α}
    {left : List β} {right : List γ} (here : List.Forall₂ first list left)
    (there : List.Forall₂ second list right) :
    List.Forall₂ (fun a (entry : β × γ) => first a entry.1 ∧ second a entry.2) list
      (left.zip right) := by
  induction here generalizing right with
  | nil =>
      cases there
      exact .nil
  | cons own _ ih =>
      cases there with
      | cons other later => exact .cons ⟨own, other⟩ (ih later)

section Turns

variable (honest : ∀ circuits, (proving circuits).Honest (Proves circuits))
  (several : 2 ≤ fanIn ∧ fanIn ≤ 8) (folds : 1 ≤ numFolds ∧ numFolds ≤ 11)

include honest several folds

/-- The nodes of a level are proved, and their columns can be stated. -/
theorem level_proved {atRoot : Option NonceWitness} {statements : List TreeStatement}
    (joins : ∀ st ∈ statements, Joins numFolds st) (traceable : ∀ w ∈ atRoot, Traceable w)
    (level : ℕ) :
    ∃ proved, (chunks fanIn statements).zipIdx.mapM
        (proveNode (nodeProver system proving) level atRoot) = .ok proved ∧
      LevelProved system proving fanIn atRoot statements
        ⟨proved.map Prod.fst, proved.map Prod.snd⟩ (chunks fanIn statements) ∧
      ∀ columns ∈ proved.map Prod.snd, Statable numFolds columns := by
  have positive : 0 < fanIn := by omega
  have group (own : List TreeStatement) (member : own ∈ chunks fanIn statements) :=
    mem_chunks statements positive member
  have inside (own : List TreeStatement) (member : own ∈ chunks fanIn statements) :
      ∀ st ∈ own, Joins numFolds st := by
    intro st listed
    apply joins st
    rw [← chunks_flatten fanIn statements]
    exact List.mem_flatten.mpr ⟨own, member, listed⟩
  have each (own : List TreeStatement) (member : own ∈ chunks fanIn statements) :=
    @group_proved numFolds own atRoot system proving honest folds.2 (inside own member)
      (group own member).1 ((group own member).2.trans several.2) traceable
  have done : ∃ proved, (chunks fanIn statements).zipIdx.mapM
      (proveNode (nodeProver system proving) level atRoot) = .ok proved := by
    apply mapM_succeeds
    rintro ⟨own, g⟩ member
    rcases each own (List.fst_mem_of_mem_zipIdx member) with ⟨result, columns, node, traced, -⟩
    exact ⟨(result, columns), bind_eq_ok.mpr ⟨result, mapError_ok.mpr node,
      bind_eq_ok.mpr ⟨columns, mapError_ok.mpr traced, rfl⟩⟩⟩
  rcases done with ⟨proved, done⟩
  have levelOver := level_over positive done
  refine ⟨proved, done, ⟨levelOver, ?_⟩, ?_⟩
  · have entries :=
      (List.forall₂_and_left _ _).mpr ⟨each, forall₂_zip levelOver.nodes levelOver.columns⟩
    apply entries.imp
    rintro own entry ⟨⟨result, columns, node, traced, stands, -⟩, first, second⟩
    rw [← Except.ok.inj (node.symm.trans first), ← Except.ok.inj (traced.symm.trans second)]
    exact stands
  · have entries := (List.forall₂_and_left _ _).mpr ⟨each, levelOver.columns⟩
    have statable : List.Forall₂ (fun _ columns => Statable numFolds columns ∧ True)
        (chunks fanIn statements) (proved.map Prod.snd) := by
      apply entries.imp
      rintro own columns ⟨⟨result, other, node, traced, -, statable⟩, second⟩
      rw [← Except.ok.inj (traced.symm.trans second)]
      exact ⟨statable, trivial⟩
    exact ((List.forall₂_and_left _ _).mp statable.flip).1

end Turns

/-- What the loop stops with when it returns no tree. -/
inductive TreeFault (leafColumns : List TraceColumns) : String → Prop
  | leaf {i : ℕ} {columns : TraceColumns} {e : String} (found : leafColumns[i]? = some columns)
      (fault : Degenerate columns.2 e) : TreeFault leafColumns s!"leaf {i}: {e}"
  | level {level g size : ℕ} {e : String} (small : size ≤ MerklePathT8.maxDepth)
      (fault : Degenerate size e) :
      TreeFault leafColumns s!"level {level} node {g} -> statement: {e}"

section Loop

variable {leafColumns : List TraceColumns}
  (honest : ∀ circuits, (proving circuits).Honest (Proves circuits))
  (several : 2 ≤ fanIn ∧ fanIn ≤ 8) (folds : 1 ≤ numFolds ∧ numFolds ≤ 11)
  (asked : 1 ≤ nQueries ∧ nQueries ≤ 64) (seed : batchMerkleRoot.length = 32)

include asked seed folds in
/-- The statements of the level above, or a zero denominator in one of their chains. -/
theorem level_stated {columns : List TraceColumns} (level : ℕ)
    (statable : ∀ entry ∈ columns, Statable numFolds entry) :
    FailsWith (TreeFault leafColumns) (columns.zipIdx.mapM (nextStatement
      (nodeProver system proving) batchMerkleRoot nQueries (some numFolds) level)) ∧
    ∀ next, columns.zipIdx.mapM (nextStatement (nodeProver system proving) batchMerkleRoot nQueries
        (some numFolds) level) = .ok next →
      (∀ st ∈ next, Joins numFolds st) ∧
      List.Forall₂ (fun columns statement => treeStatementFromColumns (wordColumns columns.1)
        columns.2 batchMerkleRoot nQueries (some numFolds) none = .ok statement) columns next := by
  constructor
  · apply failsWith_mapM
    rintro ⟨⟨cols, depth⟩, g⟩ member
    have own := statable _ (List.fst_mem_of_mem_zipIdx member)
    have fails := @statement_failsWith batchMerkleRoot nQueries numFolds _ none folds.1 own seed
      asked nofun
    apply fails.mapError.imp
    rintro text ⟨e, fault, rfl⟩
    exact .level own.depth fault
  · intro next done
    have above : List.Forall₂ (fun columns statement => treeStatementFromColumns
        (wordColumns columns.1) columns.2 batchMerkleRoot nQueries (some numFolds) none =
          .ok statement) columns next :=
      (mapM_zipIdx_ok done).imp fun _ _ ⟨_, own⟩ => mapError_ok.mp own
    refine ⟨?_, above⟩
    have entries := (List.forall₂_and_left _ _).mpr ⟨statable, above⟩
    have joins : List.Forall₂ (fun _ statement => Joins numFolds statement ∧ True) columns next := by
      apply entries.imp
      rintro columns statement ⟨own, stated⟩
      have starts : ∀ m ∈ (none : Option BatchMembership), StartsAt batchMerkleRoot columns m :=
        nofun
      exact ⟨statement_joins folds.1 own starts stated, trivial⟩
    exact ((List.forall₂_and_left _ _).mp joins.flip).1

variable (system proving batchMerkleRoot nQueries numFolds fanIn nonce leafColumns) in
/-- The loop has ended with a proved tree over the statements, or at a fault. -/
structure Settles (levels : List (TreeLevel TreeNodeResult)) (statements : List TreeStatement)
    (outcome : Except String (List (TreeLevel TreeNodeResult))) : Prop where
  reached : ∀ turns ≥ statements.length, proveLevels (nodeProver system proving) batchMerkleRoot
    nQueries (some numFolds) fanIn nonce turns levels statements = some outcome
  proved : ∀ all, outcome = .ok all → ∃ above, all = levels ++ above ∧
    ProvedTree system proving batchMerkleRoot nQueries numFolds fanIn nonce statements above
  fails : FailsWith (TreeFault leafColumns) outcome

include honest several folds asked seed in
/-- Levels of statements that join any node settle.  The induction is on the
number of statements, which decreases from a level to the one above. -/
theorem levels_settle (traceable : ∀ w ∈ nonce, Traceable w) (statements : List TreeStatement)
    (levels : List (TreeLevel TreeNodeResult)) (inhabited : 0 < statements.length)
    (entered : 1 < statements.length ∨ levels.isEmpty)
    (joins : ∀ st ∈ statements, Joins numFolds st) :
    ∃ outcome, Settles system proving batchMerkleRoot nQueries numFolds fanIn nonce leafColumns
      levels statements outcome := by
  have positive : 0 < fanIn := by omega
  induction size : statements.length using Nat.strong_induction_on
    generalizing statements levels with
  | _ n ih =>
  by_cases alone : (chunks fanIn statements).length = 1
  · rcases level_proved honest several folds joins traceable levels.length with
      ⟨proved, done, level, -⟩
    rcases List.length_eq_one_iff.mp alone with ⟨group, single⟩
    have count : proved.length = 1 := by
      have lengths := level.levelOver.nodes.length_eq
      rw [alone, List.length_map] at lengths
      exact lengths.symm
    rw [single] at level
    refine ⟨.ok (levels ++ [⟨proved.map Prod.fst, proved.map Prod.snd⟩]), ?_, ?_, ⟨?_⟩⟩
    · intro turns enough
      rcases Nat.exists_eq_add_of_lt (inhabited.trans_le enough) with ⟨left, rfl⟩
      rw [Nat.zero_add, proveLevels, if_pos entered]
      dsimp only
      rw [if_pos alone, done]
      dsimp only
      rw [List.length_map, if_pos count]
    · intro all same
      exact ⟨_, (Except.ok.inj same).symm, .root level⟩
    · intro failure same
      cases same
  · have untraced : ∀ w ∈ (none : Option NonceWitness), Traceable w :=
      fun w member => absurd member (Option.not_mem_none w)
    rcases @level_proved system proving numFolds fanIn honest several folds none statements joins
      untraced levels.length with ⟨proved, done, level, statable⟩
    have filled := ceilDiv_pos positive inhabited
    have count := chunks_length statements positive
    have many : 1 < (chunks fanIn statements).length := by omega
    have large : fanIn < statements.length := by
      rw [← not_le, ← ceilDiv_le_one positive, ← count]
      exact not_le.mpr many
    have paired : (proved.map Prod.fst).length = (chunks fanIn statements).length :=
      level.levelOver.nodes.length_eq.symm
    rcases @level_stated system proving batchMerkleRoot nQueries numFolds leafColumns folds asked
      seed _ levels.length statable with ⟨fails, stated⟩
    cases lifting : (proved.map Prod.snd).zipIdx.mapM (nextStatement (nodeProver system proving)
        batchMerkleRoot nQueries (some numFolds) levels.length) with
    | error e =>
        refine ⟨.error e, ?_, ?_, ?_⟩
        · intro turns enough
          rcases Nat.exists_eq_add_of_lt (inhabited.trans_le enough) with ⟨left, rfl⟩
          rw [Nat.zero_add, proveLevels, if_pos entered]
          dsimp only
          rw [if_neg alone, done]
          dsimp only
          rw [if_neg (paired ▸ alone), lifting]
        · intro all same
          cases same
        · constructor
          intro failure same
          cases same
          exact fails.error e lifting
    | ok next =>
        rcases stated next lifting with ⟨nextJoins, above⟩
        have higher : next.length = (chunks fanIn statements).length := by
          rw [← above.length_eq, List.length_map, ← paired, List.length_map]
        have shorter : next.length < n := by
          rw [higher, count, ← size]
          exact ceilDiv_lt several.1 (by omega)
        rcases ih next.length shorter next
          (levels ++ [⟨proved.map Prod.fst, proved.map Prod.snd⟩]) (by omega) (.inl (by omega))
          nextJoins rfl with ⟨outcome, reached, covered, ends⟩
        refine ⟨outcome, ?_, ?_, ends⟩
        · intro turns enough
          rcases Nat.exists_eq_add_of_lt (inhabited.trans_le enough) with ⟨left, rfl⟩
          rw [Nat.zero_add, proveLevels, if_pos entered]
          dsimp only
          rw [if_neg alone, done]
          dsimp only
          rw [if_neg (paired ▸ alone), lifting]
          exact reached left (by omega)
        · intro all same
          rcases covered all same with ⟨rest, rfl, upper⟩
          exact ⟨_ :: rest, (List.append_cons _ _ _).symm, .inner level many above upper⟩

end Loop

/-! ## Trees over leaves -/

/-- A tree over leaf columns whose every node is proved. -/
structure TreeProved (system : Bool → ProofSystem Preproc)
    (proving : ∀ circuits, (system circuits).Proving NodeMain) (batchMerkleRoot : List UInt8)
    (nQueries numFolds fanIn : ℕ) (nonce : Option NonceWitness) (leafColumns : List TraceColumns)
    (memberships : List BatchMembership) (tree : AggregationTree TreeNodeResult) : Prop where
  cut : tree.fanIn = fanIn
  proved : ∃ statements, List.Forall₂ (fun leaf statement => treeStatementFromColumns
      (wordColumns leaf.1.1) leaf.1.2 batchMerkleRoot nQueries (some numFolds) (some leaf.2) =
        .ok statement) (leafColumns.zip memberships) statements ∧
    ProvedTree system proving batchMerkleRoot nQueries numFolds fanIn nonce statements tree.levels
  depth : tree.depth = max 1 (Nat.clog fanIn leafColumns.length)
  root : ∃ level node columns group, tree.levels.getLast? = some level ∧ level.nodes = [node] ∧
    level.columns = [columns] ∧ tree.root = some node ∧ NodeProved system group nonce node columns

theorem ProvedTree.root_proved {statements : List TreeStatement}
    {levels : List (TreeLevel TreeNodeResult)}
    (tree : ProvedTree system proving batchMerkleRoot nQueries numFolds fanIn nonce statements
      levels) : ∃ level node columns group, levels.getLast? = some level ∧ level.nodes = [node] ∧
        level.columns = [columns] ∧ NodeProved system group nonce node columns := by
  induction tree with
  | @root statements level group proved =>
      rcases List.length_eq_one_iff.mp proved.levelOver.nodes.length_eq.symm with ⟨node, nodes⟩
      rcases List.length_eq_one_iff.mp proved.levelOver.columns.length_eq.symm with ⟨columns, traces⟩
      have own := proved.proved
      rw [nodes, traces] at own
      cases own with
      | cons stands _ => exact ⟨level, node, columns, group, rfl, nodes, traces, stands⟩
  | inner proved several above _ ih =>
      rcases ih with ⟨level, node, columns, group, last, alone⟩
      refine ⟨level, node, columns, group, ?_, alone⟩
      rw [List.getLast?_cons, last, Option.getD_some]

section Leaves

variable {leafColumns : List TraceColumns} {memberships : List BatchMembership}

/-- The statements of the leaves, or a zero denominator in one of their chains. -/
theorem leaves_stated (positive : 1 ≤ numFolds) (asked : 1 ≤ nQueries ∧ nQueries ≤ 64)
    (seed : batchMerkleRoot.length = 32)
    (fit : List.Forall₂ (fun columns m => Statable numFolds columns ∧
      StartsAt batchMerkleRoot columns m) leafColumns memberships) :
    FailsWith (TreeFault leafColumns) ((leafColumns.zip memberships).zipIdx.mapM
      (leafStatement (nodeProver system proving) batchMerkleRoot nQueries (some numFolds))) ∧
    ∀ statements, (leafColumns.zip memberships).zipIdx.mapM
        (leafStatement (nodeProver system proving) batchMerkleRoot nQueries (some numFolds)) =
          .ok statements →
      (∀ st ∈ statements, Joins numFolds st) ∧
      List.Forall₂ (fun leaf statement => treeStatementFromColumns (wordColumns leaf.1.1) leaf.1.2
        batchMerkleRoot nQueries (some numFolds) (some leaf.2) = .ok statement)
        (leafColumns.zip memberships) statements := by
  have begins (columns : TraceColumns) (m : BatchMembership)
      (starts : StartsAt batchMerkleRoot columns m) :
      ∀ own ∈ some m, StartsAt batchMerkleRoot columns own := by
    intro own same
    rw [← Option.some.inj same]
    exact starts
  constructor
  · apply failsWith_mapM
    rintro ⟨⟨⟨cols, depth⟩, m⟩, i⟩ member
    have place := List.mem_zipIdx_iff_getElem?.mp member
    rcases List.forall₂_zip fit (List.mem_of_getElem? place) with ⟨own, starts⟩
    have fails := statement_failsWith positive own seed asked (begins _ m starts)
    apply fails.mapError.imp
    rintro text ⟨e, fault, rfl⟩
    exact .leaf (List.getElem?_zip_eq_some.mp place).1 fault
  · intro statements done
    have above : List.Forall₂ (fun leaf statement => treeStatementFromColumns
        (wordColumns leaf.1.1) leaf.1.2 batchMerkleRoot nQueries (some numFolds) (some leaf.2) =
          .ok statement) (leafColumns.zip memberships) statements :=
      (mapM_zipIdx_ok done).imp fun _ _ ⟨_, own⟩ => mapError_ok.mp own
    refine ⟨?_, above⟩
    have entries := (List.forall₂_and_left (p := fun leaf : TraceColumns × BatchMembership =>
      Statable numFolds leaf.1 ∧ StartsAt batchMerkleRoot leaf.1 leaf.2) _ _).mpr
        ⟨fun leaf member => List.forall₂_zip fit member, above⟩
    have joins : List.Forall₂ (fun _ statement => Joins numFolds statement ∧ True)
        (leafColumns.zip memberships) statements := by
      apply entries.imp
      rintro ⟨columns, m⟩ statement ⟨⟨own, starts⟩, stated⟩
      exact ⟨statement_joins positive own (begins columns m starts) stated, trivial⟩
    exact ((List.forall₂_and_left _ _).mp joins.flip).1

/-- Over leaves in range the loop ends.  It returns a tree whose every proof is
accepted, or it stops at a chain whose drawn point meets the domain; no check
of a node, a statement or a transition ever fails. -/
theorem aggregation_tree_settles
    (honest : ∀ circuits, (proving circuits).Honest (Proves circuits))
    (leaves : 1 ≤ leafColumns.length ∧ leafColumns.length ≤ 4096)
    (several : 2 ≤ fanIn ∧ fanIn ≤ 8) (folds : 1 ≤ numFolds ∧ numFolds ≤ 11)
    (asked : 1 ≤ nQueries ∧ nQueries ≤ 64) (seed : batchMerkleRoot.length = 32)
    (fit : List.Forall₂ (fun columns m => Statable numFolds columns ∧
      StartsAt batchMerkleRoot columns m) leafColumns memberships)
    (traceable : ∀ w ∈ nonce, Traceable w) :
    ∃ outcome, (∀ turns ≥ leafColumns.length, proveAggregationTreeWithNonce
        (nodeProver system proving) batchMerkleRoot nQueries (some numFolds) fanIn nonce turns
        leafColumns memberships = some outcome) ∧
      FailsWith (TreeFault leafColumns) outcome ∧
      ∀ tree, outcome = .ok tree → TreeProved system proving batchMerkleRoot nQueries numFolds fanIn
        nonce leafColumns memberships tree := by
  have each : memberships.length = leafColumns.length := fit.length_eq.symm
  have guards (turns : ℕ) := proveAggregationTreeWithNonce_eq (nodeProver system proving)
    batchMerkleRoot nQueries (some numFolds) fanIn nonce turns leaves several.1 each
  simp only [guards]
  rcases @leaves_stated system proving batchMerkleRoot nQueries numFolds leafColumns memberships
    folds.1 asked seed fit with ⟨fails, stated⟩
  cases stating : (leafColumns.zip memberships).zipIdx.mapM
      (leafStatement (nodeProver system proving) batchMerkleRoot nQueries (some numFolds)) with
  | error e =>
      refine ⟨.error e, fun _ _ => rfl, ?_, nofun⟩
      constructor
      intro failure same
      cases same
      exact fails.error e stating
  | ok statements =>
      rcases stated statements stating with ⟨joins, entries⟩
      have count : statements.length = leafColumns.length := by
        rw [← entries.length_eq, List.length_zip, each, min_self]
      rcases @levels_settle system proving batchMerkleRoot nQueries numFolds fanIn nonce leafColumns
        honest several folds asked seed traceable statements [] (by omega) (.inr rfl) joins with
        ⟨outcome, reached, covered, ends⟩
      refine ⟨outcome.map fun levels => ⟨levels, fanIn⟩, ?_, ?_, ?_⟩
      · intro turns enough
        dsimp only
        rw [reached turns (count ▸ enough), Option.map_some]
      · constructor
        intro failure same
        cases outcome with
        | error e =>
            cases same
            exact ends.error _ rfl
        | ok levels => cases same
      · intro tree built
        cases outcome with
        | error e => cases built
        | ok levels =>
            cases built
            rcases covered levels rfl with ⟨above, spelled, all⟩
            rw [List.nil_append] at spelled
            subst spelled
            rcases all.root_proved with ⟨level, node, columns, group, last, alone, traces, stands⟩
            refine ⟨rfl, ⟨statements, entries, all⟩, count ▸ all.covers.length several.1, level,
              node, columns, group, last, alone, traces, ?_, stands⟩
            have top : AggregationTree.root ⟨levels, fanIn⟩ = level.nodes[0]? := by
              rw [AggregationTree.root]
              exact congrArg (Option.bind · _) last
            exact top.trans (by rw [alone]; rfl)

end Leaves

end Levels

end TreeNode
end Recursive
end QLSA
