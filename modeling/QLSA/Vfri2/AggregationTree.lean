import QLSA.Vfri2.Domain
import Mathlib.Algebra.Order.Floor.Div
import Mathlib.Data.Nat.Log

namespace QLSA
namespace Vfri2

open Machine (bind_eq_ok mapError_ok mapM_ok)

/-!
# Aggregation trees

The statements of a level are cut into groups, a node is proved for every group,
and the columns of the nodes become the statements of the level above.  With
at least two statements in a full group a level is shorter than the one below
it, and the loop ends with a level of one node.  Only this node is given the
nonce transition.
-/

/-! ## Groups of a list -/

section Groups

variable {α : Type}

/-- `statements.chunks(fan_in)` -/
def chunks (size : ℕ) : List α → List (List α)
  | [] => []
  | first :: rest => (first :: rest.take (size - 1)) :: chunks size (rest.drop (size - 1))
  termination_by list => list.length
  decreasing_by exact Nat.lt_succ_of_le (by rw [List.length_drop]; exact Nat.sub_le _ _)

variable (size : ℕ) (list : List α)

theorem chunks_flatten : (chunks size list).flatten = list := by
  induction list using chunks.induct size with
  | case1 => rw [chunks, List.flatten_nil]
  | case2 first rest ih =>
      rw [chunks, List.flatten_cons, ih, List.cons_append, List.take_append_drop]

variable {size}

/-- No group is empty, and none is larger than `size`. -/
theorem mem_chunks (positive : 0 < size) {group : List α} (member : group ∈ chunks size list) :
    group ≠ [] ∧ group.length ≤ size := by
  induction list using chunks.induct size with
  | case1 =>
      rw [chunks] at member
      cases member
  | case2 first rest ih =>
      rw [chunks, List.mem_cons] at member
      rcases member with rfl | later
      · refine ⟨List.cons_ne_nil _ _, ?_⟩
        rw [List.length_cons, List.length_take]
        omega
      · exact ih later

theorem chunks_length (positive : 0 < size) : (chunks size list).length = list.length ⌈/⌉ size := by
  induction list using chunks.induct size with
  | case1 => rw [chunks, List.length_nil, List.length_nil, zero_ceilDiv]
  | case2 first rest ih =>
      rw [chunks, List.length_cons, ih, List.length_drop, List.length_cons,
        Nat.ceilDiv_eq_add_pred_div, Nat.ceilDiv_eq_add_pred_div]
      have shorter : rest.length - (size - 1) + size - 1 = max rest.length (size - 1) := by omega
      rw [shorter]
      rcases le_total (size - 1) rest.length with long | short
      · rw [max_eq_left long, show rest.length + 1 + size - 1 = rest.length + size by omega,
          Nat.add_div_right _ positive]
      · rw [max_eq_right short, show rest.length + 1 + size - 1 = rest.length + size by omega,
          Nat.add_div_right _ positive, Nat.div_eq_of_lt (by omega), Nat.div_eq_of_lt (by omega)]

theorem ceilDiv_pos {n : ℕ} (positive : 0 < size) (filled : 0 < n) : 0 < n ⌈/⌉ size := by
  rw [Nat.ceilDiv_eq_add_pred_div]
  exact Nat.div_pos (by omega) positive

/-- A level is shorter than the one below unless that had one statement. -/
theorem ceilDiv_lt {n : ℕ} (several : 2 ≤ size) (more : 1 < n) : n ⌈/⌉ size < n := by
  have sum : n + size ≤ n * size := Nat.add_le_mul more several
  rw [Nat.ceilDiv_eq_add_pred_div, Nat.div_lt_iff_lt_mul (by omega)]
  omega

theorem ceilDiv_le_one {n : ℕ} (positive : 0 < size) : n ⌈/⌉ size ≤ 1 ↔ n ≤ size := by
  rw [ceilDiv_le_iff_le_mul positive, mul_one]

end Groups

/-! ## The loop over levels -/

/-- The columns of a trace with the logarithm of their length. -/
abbrev TraceColumns := List (List ℕ) × ℕ

/-- What the loop calls: a statement from columns, a node's proof and a node's columns.  Any of
them may fail for any arguments; the loop hands their errors on. -/
structure NodeProver (Statement Membership Nonce Node : Type) where
  treeStatementFromColumns : List (List ℕ) → ℕ → List UInt8 → ℕ → Option ℕ →
    Option Membership → Except String Statement
  proveTreeNodeWithNonce : List Statement → Option Nonce → Except String Node
  treeNodeTraceColumnsWithNonce : List Statement → Option Nonce → Except String TraceColumns

structure TreeLevel (Node : Type) where
  nodes : List Node
  columns : List TraceColumns

structure AggregationTree (Node : Type) where
  levels : List (TreeLevel Node)
  fanIn : ℕ

namespace AggregationTree

variable {Node : Type} (tree : AggregationTree Node)

/-- `none` where the source panics. -/
def root : Option Node := tree.levels.getLast?.bind fun level => level.nodes[0]?

def depth : ℕ := tree.levels.length

end AggregationTree

section Loop

variable {Statement Membership Nonce Node : Type}
variable (prover : NodeProver Statement Membership Nonce Node)
variable (batchMerkleRoot : List UInt8) (nQueries : ℕ) (numFolds : Option ℕ)

/-- One pass of the loop over the groups of a level. -/
def proveNode (level : ℕ) (atRoot : Option Nonce) :
    List Statement × ℕ → Except String (Node × TraceColumns)
  | (group, g) => do
    let proved ← (prover.proveTreeNodeWithNonce group atRoot).mapError
      fun e => s!"level {level} node {g}: {e}"
    let columns ← (prover.treeNodeTraceColumnsWithNonce group atRoot).mapError
      fun e => s!"level {level} node {g} columns: {e}"
    pure (proved, columns)

def nextStatement (level : ℕ) : TraceColumns × ℕ → Except String Statement
  | ((cols, depth), g) =>
    (prover.treeStatementFromColumns cols depth batchMerkleRoot nQueries numFolds none).mapError
      fun e => s!"level {level} node {g} -> statement: {e}"

def leafStatement : (TraceColumns × Membership) × ℕ → Except String Statement
  | (((cols, depth), membership), i) =>
    (prover.treeStatementFromColumns cols depth batchMerkleRoot nQueries numFolds
      (some membership)).mapError fun e => s!"leaf {i}: {e}"

variable (fanIn : ℕ) (nonce : Option Nonce)

/-- The `while` loop, `none` as long as it has not ended within the turns given.  A turn proves one
level: the statements in groups of `fanIn`, each group one node, and the statements over the
columns of these nodes for the next level.  Only the node that is alone on its level carries the
nonce transition; the first turn is taken even for a single statement. -/
def proveLevels : ℕ → List (TreeLevel Node) → List Statement →
    Option (Except String (List (TreeLevel Node)))
  | 0, _, _ => none
  | turns + 1, levels, statements =>
      if 1 < statements.length ∨ levels.isEmpty then
        let groups := chunks fanIn statements
        let atRoot := if groups.length = 1 then nonce else none
        match groups.zipIdx.mapM (proveNode prover levels.length atRoot) with
        | .error e => some (.error e)
        | .ok proved =>
            let level : TreeLevel Node := ⟨proved.map Prod.fst, proved.map Prod.snd⟩
            if level.nodes.length = 1 then some (.ok (levels ++ [level]))
            else
              match level.columns.zipIdx.mapM
                (nextStatement prover batchMerkleRoot nQueries numFolds levels.length) with
              | .error e => some (.error e)
              | .ok next => proveLevels turns (levels ++ [level]) next
      else some (.ok levels)

/-- `prove_aggregation_tree_with_nonce`, `none` as long as its loop has not ended within the turns
given.  Statements, proofs and exported columns of nodes come from a `NodeProver`. -/
def proveAggregationTreeWithNonce (turns : ℕ) (leafColumns : List TraceColumns)
    (memberships : List Membership) : Option (Except String (AggregationTree Node)) :=
  if leafColumns.isEmpty then some (.error "a tree needs ≥ 1 leaf")
  else if fanIn < 2 then some (.error s!"fan_in must be ≥ 2, got {fanIn}")
  else if 4096 < leafColumns.length then
    some (.error s!"leaf count {leafColumns.length} exceeds 4096")
  else if memberships.length ≠ leafColumns.length then
    some (.error (s!"expected one batch membership per leaf: {leafColumns.length} leaves, " ++
      s!"{memberships.length} memberships"))
  else
    match (leafColumns.zip memberships).zipIdx.mapM
      (leafStatement prover batchMerkleRoot nQueries numFolds) with
    | .error e => some (.error e)
    | .ok statements =>
        (proveLevels prover batchMerkleRoot nQueries numFolds fanIn nonce turns [] statements).map
          fun outcome => outcome.map fun levels => ⟨levels, fanIn⟩

/-! ## What a tree is made of -/

variable {prover batchMerkleRoot nQueries numFolds fanIn nonce}

variable (prover batchMerkleRoot nQueries numFolds) in
/-- Nothing that the loop calls fails. -/
structure Succeeds : Prop where
  statement : ∀ cols depth membership, ∃ statement,
    prover.treeStatementFromColumns cols depth batchMerkleRoot nQueries numFolds membership =
      .ok statement
  node : ∀ group atRoot, ∃ node, prover.proveTreeNodeWithNonce group atRoot = .ok node
  columns : ∀ group atRoot, ∃ columns,
    prover.treeNodeTraceColumnsWithNonce group atRoot = .ok columns

variable (prover fanIn) in
/-- A level over the statements below it: they are cut into groups in their
order, and there is a node with its columns for every group. -/
structure LevelOver (atRoot : Option Nonce) (statements : List Statement)
    (level : TreeLevel Node) (groups : List (List Statement)) : Prop where
  flatten : groups.flatten = statements
  sizes : ∀ group ∈ groups, group ≠ [] ∧ group.length ≤ fanIn
  count : groups.length = statements.length ⌈/⌉ fanIn
  nodes : List.Forall₂ (fun group node => prover.proveTreeNodeWithNonce group atRoot = .ok node)
    groups level.nodes
  columns : List.Forall₂
    (fun group columns => prover.treeNodeTraceColumnsWithNonce group atRoot = .ok columns)
    groups level.columns

variable (prover batchMerkleRoot nQueries numFolds fanIn nonce) in
/-- Levels from the bottom to the root.  The nonce goes to the root only. -/
inductive Covers : List Statement → List (TreeLevel Node) → Prop
  | root {statements level group} (made : LevelOver prover fanIn nonce statements level [group]) :
      Covers statements [level]
  | inner {statements level groups next rest}
      (made : LevelOver prover fanIn none statements level groups) (several : 1 < groups.length)
      (above : List.Forall₂ (fun columns statement => prover.treeStatementFromColumns columns.1
        columns.2 batchMerkleRoot nQueries numFolds none = .ok statement) level.columns next)
      (covers : Covers next rest) : Covers statements (level :: rest)

theorem LevelOver.length {atRoot : Option Nonce} {statements : List Statement}
    {level : TreeLevel Node} {groups : List (List Statement)}
    (made : LevelOver prover fanIn atRoot statements level groups) :
    level.nodes.length = statements.length ⌈/⌉ fanIn ∧
      level.columns.length = statements.length ⌈/⌉ fanIn :=
  ⟨made.nodes.length_eq.symm.trans made.count, made.columns.length_eq.symm.trans made.count⟩

/-- A level more for every factor `fanIn`, and one level at least. -/
theorem Covers.length {statements : List Statement} {levels : List (TreeLevel Node)}
    (several : 2 ≤ fanIn)
    (covers : Covers prover batchMerkleRoot nQueries numFolds fanIn nonce statements levels) :
    levels.length = max 1 (Nat.clog fanIn statements.length) := by
  induction covers with
  | @root statements level group made =>
      have count : 1 = statements.length ⌈/⌉ fanIn := made.count
      have few : statements.length ≤ fanIn := (ceilDiv_le_one (by omega)).mp count.ge
      have low : Nat.clog fanIn statements.length ≤ 1 := Nat.clog_le_of_le_pow (by simpa using few)
      rw [List.length_singleton, max_eq_left low]
  | @inner statements level groups next rest made more above covers ih =>
      have many : 1 < statements.length ⌈/⌉ fanIn := made.count ▸ more
      have large : fanIn < statements.length := by
        rw [← not_le, ← ceilDiv_le_one (by omega : 0 < fanIn)]
        exact not_le.mpr many
      have step := Nat.clog_of_two_le (b := fanIn) (n := statements.length) (by omega) (by omega)
      have higher : next.length = (statements.length + fanIn - 1) / fanIn :=
        above.length_eq.symm.trans made.length.2
      rw [Nat.ceilDiv_eq_add_pred_div, ← higher] at many
      have deep : 1 ≤ Nat.clog fanIn next.length := Nat.clog_pos (by omega) many
      rw [← higher] at step
      rw [List.length_cons, ih, step, max_eq_right deep, max_eq_right (by omega)]

theorem Covers.root_eq {statements : List Statement} {levels : List (TreeLevel Node)}
    (covers : Covers prover batchMerkleRoot nQueries numFolds fanIn nonce statements levels) :
    ∃ level node, levels.getLast? = some level ∧ level.nodes = [node] := by
  induction covers with
  | @root statements level group made =>
      rcases List.length_eq_one_iff.mp made.nodes.length_eq.symm with ⟨node, alone⟩
      exact ⟨level, node, rfl, alone⟩
  | inner made more above covers ih =>
      rcases ih with ⟨level, node, last, alone⟩
      refine ⟨level, node, ?_, alone⟩
      rw [List.getLast?_cons, last, Option.getD_some]

/-! ## The loop ends with a tree -/

/-- Entry by entry, whatever the positions are. -/
theorem mapM_zipIdx_ok {α β : Type} {f : α × ℕ → Except String β} {list : List α}
    {results : List β} (done : list.zipIdx.mapM f = .ok results) :
    List.Forall₂ (fun a b => ∃ i, f (a, i) = .ok b) list results := by
  rcases mapM_ok done with ⟨lengths, entries⟩
  rw [List.length_zipIdx] at lengths
  rw [List.forall₂_iff_get]
  refine ⟨lengths.symm, ?_⟩
  intro i inside inside'
  rcases entries i (list[i], i) (by simp [inside]) with ⟨b, found, own⟩
  rw [List.getElem?_eq_getElem inside'] at found
  exact ⟨i, by simpa [← Option.some.inj found] using own⟩

theorem proveNode_ok {level g : ℕ} {atRoot : Option Nonce} {group : List Statement}
    {proved : Node × TraceColumns} (done : proveNode prover level atRoot (group, g) = .ok proved) :
    prover.proveTreeNodeWithNonce group atRoot = .ok proved.1 ∧
      prover.treeNodeTraceColumnsWithNonce group atRoot = .ok proved.2 := by
  rcases bind_eq_ok.mp done with ⟨node, own, later⟩
  rcases bind_eq_ok.mp later with ⟨columns, traced, finished⟩
  cases finished
  exact ⟨mapError_ok.mp own, mapError_ok.mp traced⟩

/-- What one pass over the groups leaves. -/
theorem level_over {level : ℕ} {atRoot : Option Nonce} {statements : List Statement}
    {proved : List (Node × TraceColumns)} (positive : 0 < fanIn)
    (done : (chunks fanIn statements).zipIdx.mapM (proveNode prover level atRoot) = .ok proved) :
    LevelOver prover fanIn atRoot statements ⟨proved.map Prod.fst, proved.map Prod.snd⟩
      (chunks fanIn statements) where
  flatten := chunks_flatten fanIn statements
  sizes := fun _ member => mem_chunks statements positive member
  count := chunks_length statements positive
  nodes := List.forall₂_map_right_iff.mpr
    ((mapM_zipIdx_ok done).imp fun _ _ ⟨_, own⟩ => (proveNode_ok own).1)
  columns := List.forall₂_map_right_iff.mpr
    ((mapM_zipIdx_ok done).imp fun _ _ ⟨_, own⟩ => (proveNode_ok own).2)

theorem nodes_succeed (succeeds : Succeeds prover batchMerkleRoot nQueries numFolds) (level : ℕ)
    (atRoot : Option Nonce) (groups : List (List Statement)) :
    ∃ proved, groups.zipIdx.mapM (proveNode prover level atRoot) = .ok proved := by
  apply mapM_succeeds
  rintro ⟨group, g⟩ -
  rcases succeeds.node group atRoot with ⟨node, own⟩
  rcases succeeds.columns group atRoot with ⟨columns, traced⟩
  refine ⟨(node, columns), bind_eq_ok.mpr ⟨node, mapError_ok.mpr own, ?_⟩⟩
  exact bind_eq_ok.mpr ⟨columns, mapError_ok.mpr traced, rfl⟩

theorem statements_succeed (succeeds : Succeeds prover batchMerkleRoot nQueries numFolds)
    (level : ℕ) (columns : List TraceColumns) :
    ∃ next, columns.zipIdx.mapM (nextStatement prover batchMerkleRoot nQueries numFolds level) =
      .ok next := by
  apply mapM_succeeds
  rintro ⟨⟨cols, depth⟩, g⟩ -
  exact (succeeds.statement cols depth none).imp fun _ own => mapError_ok.mpr own

variable (prover batchMerkleRoot nQueries numFolds fanIn nonce) in
/-- What a turn of the loop does: it stops with an error, it stops with the
root, or it goes on with the statements of the level above. -/
inductive Turn (levels : List (TreeLevel Node)) (statements : List Statement) : Prop
  | failed (e : String) (fails : ¬ Succeeds prover batchMerkleRoot nQueries numFolds)
      (stops : ∀ more, proveLevels prover batchMerkleRoot nQueries numFolds fanIn nonce (more + 1)
        levels statements = some (.error e))
  | root (level : TreeLevel Node) (group : List Statement)
      (made : LevelOver prover fanIn nonce statements level [group])
      (stops : ∀ more, proveLevels prover batchMerkleRoot nQueries numFolds fanIn nonce (more + 1)
        levels statements = some (.ok (levels ++ [level])))
  | inner (level : TreeLevel Node) (groups : List (List Statement)) (next : List Statement)
      (made : LevelOver prover fanIn none statements level groups) (several : groups.length ≠ 1)
      (above : List.Forall₂ (fun columns statement => prover.treeStatementFromColumns columns.1
        columns.2 batchMerkleRoot nQueries numFolds none = .ok statement) level.columns next)
      (continues : ∀ more, proveLevels prover batchMerkleRoot nQueries numFolds fanIn nonce
        (more + 1) levels statements = proveLevels prover batchMerkleRoot nQueries numFolds fanIn
          nonce more (levels ++ [level]) next)

theorem turn_cases (positive : 0 < fanIn) (levels : List (TreeLevel Node))
    (statements : List Statement) (entered : 1 < statements.length ∨ levels.isEmpty) :
    Turn prover batchMerkleRoot nQueries numFolds fanIn nonce levels statements := by
  cases proving : (chunks fanIn statements).zipIdx.mapM (proveNode prover levels.length
      (if (chunks fanIn statements).length = 1 then nonce else none)) with
  | error e =>
      refine .failed e ?_ ?_
      · intro succeeds
        rcases nodes_succeed succeeds levels.length
          (if (chunks fanIn statements).length = 1 then nonce else none)
          (chunks fanIn statements) with ⟨proved, done⟩
        cases proving.symm.trans done
      · intro more
        rw [proveLevels, if_pos entered]
        simp only [proving]
  | ok proved =>
      have made := level_over positive proving
      have paired : proved.length = (chunks fanIn statements).length := by
        simpa using made.nodes.length_eq.symm
      by_cases alone : (chunks fanIn statements).length = 1
      · rcases List.length_eq_one_iff.mp alone with ⟨group, single⟩
        rw [if_pos alone, single] at made
        refine .root _ group made ?_
        intro more
        rw [proveLevels, if_pos entered]
        simp only [proving]
        rw [if_pos (by rw [List.length_map, paired, alone])]
      · rw [if_neg alone] at made
        cases lifting : (proved.map Prod.snd).zipIdx.mapM
            (nextStatement prover batchMerkleRoot nQueries numFolds levels.length) with
        | error e =>
            refine .failed e ?_ ?_
            · intro succeeds
              rcases statements_succeed succeeds levels.length (proved.map Prod.snd)
                with ⟨next, done⟩
              cases lifting.symm.trans done
            · intro more
              rw [proveLevels, if_pos entered]
              simp only [proving]
              rw [if_neg (by rwa [List.length_map, paired])]
              simp only [lifting]
        | ok next =>
            refine .inner _ _ next made alone ?_ ?_
            · exact (mapM_zipIdx_ok lifting).imp fun _ _ ⟨_, own⟩ => mapError_ok.mp own
            · intro more
              rw [proveLevels, if_pos entered]
              simp only [proving]
              rw [if_neg (by rwa [List.length_map, paired])]
              simp only [lifting]

variable (prover batchMerkleRoot nQueries numFolds fanIn nonce) in
/-- The loop has ended, with levels that cover the statements or with an error
of something it called. -/
structure Ends (turns : ℕ) (levels : List (TreeLevel Node)) (statements : List Statement)
    (outcome : Except String (List (TreeLevel Node))) : Prop where
  reached : ∀ more ≥ turns, proveLevels prover batchMerkleRoot nQueries numFolds fanIn nonce more
    levels statements = some outcome
  covers : ∀ all, outcome = .ok all → ∃ above, all = levels ++ above ∧
    Covers prover batchMerkleRoot nQueries numFolds fanIn nonce statements above
  succeeds : Succeeds prover batchMerkleRoot nQueries numFolds → ∃ all, outcome = .ok all

/-- One turn for every statement is enough: a level that is not the root is
shorter than the one below it. -/
theorem proveLevels_ends (several : 2 ≤ fanIn) (statements : List Statement)
    (levels : List (TreeLevel Node)) (inhabited : 0 < statements.length)
    (entered : 1 < statements.length ∨ levels.isEmpty) :
    ∃ outcome, Ends prover batchMerkleRoot nQueries numFolds fanIn nonce statements.length levels
      statements outcome := by
  have positive : 0 < fanIn := by omega
  induction size : statements.length using Nat.strong_induction_on
    generalizing statements levels with
  | _ n ih =>
  have turn (more : ℕ) (enough : n ≤ more) : ∃ left, more = left + 1 :=
    ⟨more - 1, by omega⟩
  have taken : Turn prover batchMerkleRoot nQueries numFolds fanIn nonce levels statements :=
    turn_cases positive levels statements entered
  cases taken with
  | failed e fails stops =>
      refine ⟨.error e, ?_, nofun, fun succeeds => absurd succeeds fails⟩
      intro more enough
      rcases turn more enough with ⟨left, rfl⟩
      exact stops left
  | root level group made stops =>
      refine ⟨.ok (levels ++ [level]), ?_, ?_, fun _ => ⟨_, rfl⟩⟩
      · intro more enough
        rcases turn more enough with ⟨left, rfl⟩
        exact stops left
      · intro all same
        exact ⟨[level], (Except.ok.inj same).symm, .root made⟩
  | inner level groups next made more above continues =>
      have higher : next.length = groups.length :=
        (above.length_eq.symm.trans made.length.2).trans made.count.symm
      have many : 1 < groups.length := by
        have filled := ceilDiv_pos positive inhabited
        rw [← made.count] at filled
        omega
      have large : fanIn < statements.length := by
        rw [← not_le, ← ceilDiv_le_one positive, ← made.count]
        exact not_le.mpr many
      have shorter : next.length < n := by
        rw [higher, made.count, ← size]
        exact ceilDiv_lt several (by omega)
      rcases ih next.length shorter next (levels ++ [level]) (by omega) (.inl (by omega)) rfl
        with ⟨outcome, reached, covers, succeeds⟩
      refine ⟨outcome, ?_, ?_, succeeds⟩
      · intro all enough
        rcases turn all enough with ⟨left, rfl⟩
        rw [continues left]
        exact reached left (by omega)
      · intro all same
        rcases covers all same with ⟨rest, rfl, upper⟩
        have joined := (List.append_cons levels level rest).symm
        exact ⟨level :: rest, joined, .inner made many above upper⟩

/-! ## Trees over the leaves -/

/-- A tree over leaf columns: the leaf statements carry their memberships, the
levels cover them, and there is one level for every factor `fanIn` of their
number and one node at the top. -/
structure TreeOver (prover : NodeProver Statement Membership Nonce Node)
    (batchMerkleRoot : List UInt8) (nQueries : ℕ) (numFolds : Option ℕ) (fanIn : ℕ)
    (nonce : Option Nonce) (leafColumns : List TraceColumns) (memberships : List Membership)
    (tree : AggregationTree Node) : Prop where
  cut : tree.fanIn = fanIn
  covers : ∃ statements, List.Forall₂ (fun leaf statement => prover.treeStatementFromColumns
      leaf.1.1 leaf.1.2 batchMerkleRoot nQueries numFolds (some leaf.2) = .ok statement)
      (leafColumns.zip memberships) statements ∧
    Covers prover batchMerkleRoot nQueries numFolds fanIn nonce statements tree.levels
  bottom : tree.levels.head?.map (fun level => level.nodes.length) =
    some (leafColumns.length ⌈/⌉ fanIn)
  depth : tree.depth = max 1 (Nat.clog fanIn leafColumns.length)
  root : ∃ level node, tree.levels.getLast? = some level ∧ level.nodes = [node] ∧
    tree.root = some node

theorem Covers.bottom {statements : List Statement} {levels : List (TreeLevel Node)}
    (covers : Covers prover batchMerkleRoot nQueries numFolds fanIn nonce statements levels) :
    levels.head?.map (fun level => level.nodes.length) = some (statements.length ⌈/⌉ fanIn) := by
  cases covers with
  | root made => exact congrArg some made.length.1
  | inner made => exact congrArg some made.length.1

theorem leaves_succeed (succeeds : Succeeds prover batchMerkleRoot nQueries numFolds)
    (leaves : List (TraceColumns × Membership)) :
    ∃ statements, leaves.zipIdx.mapM (leafStatement prover batchMerkleRoot nQueries numFolds) =
      .ok statements := by
  apply mapM_succeeds
  rintro ⟨⟨⟨cols, depth⟩, membership⟩, i⟩ -
  exact (succeeds.statement cols depth (some membership)).imp fun _ own => mapError_ok.mpr own

/-- Past the guards. -/
theorem proveAggregationTreeWithNonce_eq (prover : NodeProver Statement Membership Nonce Node)
    (batchMerkleRoot : List UInt8) (nQueries : ℕ) (numFolds : Option ℕ) (fanIn : ℕ)
    (nonce : Option Nonce) (turns : ℕ) {leafColumns : List TraceColumns}
    {memberships : List Membership}
    (leaves : 1 ≤ leafColumns.length ∧ leafColumns.length ≤ 4096) (several : 2 ≤ fanIn)
    (each : memberships.length = leafColumns.length) :
    proveAggregationTreeWithNonce prover batchMerkleRoot nQueries numFolds fanIn nonce turns
      leafColumns memberships =
      match (leafColumns.zip memberships).zipIdx.mapM
        (leafStatement prover batchMerkleRoot nQueries numFolds) with
      | .error e => some (.error e)
      | .ok statements =>
          (proveLevels prover batchMerkleRoot nQueries numFolds fanIn nonce turns [] statements).map
            fun outcome => outcome.map fun levels => ⟨levels, fanIn⟩ := by
  have filled : ¬ leafColumns.isEmpty = true := by
    rw [List.isEmpty_iff, ← List.length_eq_zero_iff]
    omega
  rw [proveAggregationTreeWithNonce, if_neg filled, if_neg (not_lt.mpr several),
    if_neg (not_lt.mpr leaves.2), if_neg (not_not.mpr each)]

/-- For one to 4096 leaves the loop ends.  A tree that it returns covers every leaf once, and it
returns one if nothing that it calls fails.  The proofs and statements of nodes are parameters, so
this is about the shape alone: which statements come into which group, on which level, and that
the transition is given to the root. -/
theorem aggregation_tree_covers (prover : NodeProver Statement Membership Nonce Node)
    (batchMerkleRoot : List UInt8) (nQueries : ℕ) (numFolds : Option ℕ) (fanIn : ℕ)
    (nonce : Option Nonce) (leafColumns : List TraceColumns) (memberships : List Membership)
    (leaves : 1 ≤ leafColumns.length ∧ leafColumns.length ≤ 4096) (several : 2 ≤ fanIn)
    (each : memberships.length = leafColumns.length) :
    ∃ outcome, (∀ turns ≥ leafColumns.length, proveAggregationTreeWithNonce prover batchMerkleRoot
        nQueries numFolds fanIn nonce turns leafColumns memberships = some outcome) ∧
      (∀ tree, outcome = .ok tree → TreeOver prover batchMerkleRoot nQueries numFolds fanIn nonce
        leafColumns memberships tree) ∧
      (Succeeds prover batchMerkleRoot nQueries numFolds → ∃ tree, outcome = .ok tree) := by
  have zipped : (leafColumns.zip memberships).length = leafColumns.length := by
    rw [List.length_zip, each, min_self]
  have guards (turns : ℕ) := proveAggregationTreeWithNonce_eq prover batchMerkleRoot nQueries
    numFolds fanIn nonce turns leaves several each
  simp only [guards]
  cases stating : (leafColumns.zip memberships).zipIdx.mapM
      (leafStatement prover batchMerkleRoot nQueries numFolds) with
  | error e =>
      refine ⟨.error e, fun _ _ => rfl, nofun, ?_⟩
      intro succeeds
      rcases leaves_succeed succeeds (leafColumns.zip memberships) with ⟨statements, done⟩
      cases stating.symm.trans done
  | ok statements =>
      have entries := mapM_zipIdx_ok stating
      have count : statements.length = leafColumns.length := entries.length_eq.symm.trans zipped
      have ends : ∃ outcome, Ends prover batchMerkleRoot nQueries numFolds fanIn nonce
          statements.length [] statements outcome :=
        proveLevels_ends several statements [] (by omega) (.inr rfl)
      rcases ends with ⟨outcome, reached, covers, succeeds⟩
      refine ⟨outcome.map fun levels => ⟨levels, fanIn⟩, ?_, ?_, ?_⟩
      · intro turns enough
        dsimp only
        rw [reached turns (count ▸ enough), Option.map_some]
      · intro tree built
        cases outcome with
        | error e => cases built
        | ok levels =>
            cases Except.ok.inj built
            rcases covers levels rfl with ⟨above, rfl, all⟩
            rcases all.root_eq with ⟨level, node, last, alone⟩
            refine ⟨rfl, ⟨statements, ?_, all⟩, count ▸ all.bottom, count ▸ all.length several, ?_⟩
            · exact entries.imp fun _ _ ⟨_, own⟩ => mapError_ok.mp own
            · refine ⟨level, node, last, alone, ?_⟩
              have top : AggregationTree.root ⟨levels, fanIn⟩ = level.nodes[0]? := by
                rw [AggregationTree.root, last, Option.bind_some]
              exact top.trans (by rw [alone]; rfl)
      · intro fine
        rcases succeeds fine with ⟨all, rfl⟩
        exact ⟨_, rfl⟩

end Loop

/-- A prover whose nodes show what they were given. -/
def echoProver : NodeProver ℕ Unit ℕ (List ℕ × Option ℕ) where
  treeStatementFromColumns _ depth _ _ _ _ := .ok depth
  proveTreeNodeWithNonce group atRoot := .ok (group, atRoot)
  treeNodeTraceColumnsWithNonce group _ := .ok ([], group.sum)

theorem three_leaves_covered :
    ∃ tree, TreeOver echoProver [] 1 none 2 (some 7) [([], 1), ([], 2), ([], 4)] [(), (), ()] tree ∧
      tree.depth = 2 := by
  rcases aggregation_tree_covers echoProver [] 1 none 2 (some 7) [([], 1), ([], 2), ([], 4)]
    [(), (), ()] (by decide) (by decide) rfl with ⟨outcome, -, shape, built⟩
  rcases built ⟨fun _ _ _ => ⟨_, rfl⟩, fun _ _ => ⟨_, rfl⟩, fun _ _ => ⟨_, rfl⟩⟩ with ⟨tree, done⟩
  exact ⟨tree, shape tree done, (shape tree done).depth.trans (by decide)⟩

end Vfri2
end QLSA
