import QLSA.Recursive.TreeStatements
import QLSA.Vfri2.AggregationTree

namespace QLSA
namespace Recursive
namespace TreeNode

open Hash Mersenne Qm31 Stwo Vfri2
open Machine (bind_eq_ok mapError_ok)
open ChannelT8 (ChannelRun)
open NonceUpdateT8 (checkedTrace nonceNodeWords witnessOf)
open RecursiveVerifier (FoldRound QueryChallenges StepOp)

/-!
# Proofs and columns of a node

A node leaves two things behind: its proof and the columns it was proved over,
which the level above takes for its statement.  The columns are exported by a
second run of the builders, without the checks of the roots.  For a node that
was prepared both runs agree, so what goes up a level is the trace that
satisfies the circuits.  Its columns have the length of the node and cells below
`P`, and they become a statement unless the drawn point meets the domain.
-/

/-! ## Exported columns -/

/-- Cells of a row of the fold circuit, in the order of its columns. -/
def foldCells (row : RecursiveVerifier.MainRow) : List M31 :=
  row.px :: row.zX.toList ++ row.alpha.toList ++ [row.inv] ++ row.a.toList ++ row.b.toList ++
    row.comboPos.toList ++ row.comboNeg.toList ++ row.compPos.toList ++ row.compNeg.toList ++
    row.p.toList ++ row.out.toList

def pathCells (row : MerklePathT8.MainRow) : List M31 :=
  row.inp.toList ++ row.sq.toList ++ row.sbox.toList ++ row.out.toList ++ row.cur.toList ++
    row.sib.toList ++ [row.bit] ++ row.leaf.toList

def channelCells (row : ChannelT8.MainRow) : List M31 :=
  row.round.inp.toList ++ row.round.sq.toList ++ row.round.sbox.toList ++ row.round.out.toList ++
    [row.word]

/-- One column in natural order. -/
def exportColumn (logSize : ℕ) (column : ℕ → M31) : List ℕ :=
  (List.range (2 ^ logSize)).map fun row => (column row).val

/-- The columns of rows that list their cells. -/
def exportRows (width logSize : ℕ) (cells : ℕ → List M31) : List (List ℕ) :=
  (List.range width).map fun column =>
    exportColumn logSize fun row => (cells row).getD column 0

/-- The columns of the three circuits of every node. -/
def nodeTraceColumns (logSize : ℕ) (rv : ℕ → RecursiveVerifier.MainRow)
    (merkle : List MerklePathT8.MainRow) (channel : List ChannelT8.MainRow) : List (List ℕ) :=
  exportRows 42 logSize (fun row => foldCells (rv row)) ++
    exportRows 45 logSize (fun row => pathCells (MerklePathT8.traceRow merkle row)) ++
    exportRows 33 logSize fun row => channelCells (ChannelT8.traceRow channel row)

/-- `N_MAIN_COLS` of the transition's circuit. -/
def nonceMainCols : ℕ := 85

def exportColumns (logSize : ℕ) (columns : Columns) : List (List ℕ) :=
  (List.range nonceMainCols).map fun column => exportColumn logSize (columns column)

def rawColumns (st : NonceStatement (Quad ℕ)) (transitions : List (NonceTransition Bytes32))
    (logSize : ℕ) : Except String (List (List ℕ)) := do
  let built ← NonceUpdateT8.buildTraceRaw
    (witnessOf (st.pinnedUpdates nonceNodeWords) transitions) logSize
  return exportColumns logSize built.1

/-- `tree_node_trace_columns_with_nonce`: the main columns of a node once more, from the
statements alone, in the order in which a proof commits to them.  The transition is checked before
its columns are appended. -/
def treeNodeTraceColumnsWithNonce (statements : List TreeStatement)
    (nonce : Option NonceWitness) : Except String TraceColumns := do
  let sh ← nodeShapeWith statements (nonce.map Prod.fst)
  if maxLog < sh.logSize then .error s!"tree node log_size {sh.logSize} too large"
  else
    let rv ← RecursiveVerifier.buildTraceMultiRaw sh.queries sh.logSize
    let merkle ← MerklePathT8.buildTraceMultiRaw ⟨sh.leaves, sh.sibs, sh.bits⟩ sh.logSize
    let channel := ChannelT8.buildTraceMultiRaw sh.transcripts sh.logSize
    let cols := nodeTraceColumns sh.logSize rv merkle.1 channel.1
    match nonce with
    | none => return (cols, sh.logSize)
    | some (st, transitions) =>
        let _ ← (checkedTrace st transitions sh.logSize).mapError
          fun e => s!"nonce transition: {e}"
        let raw ← rawColumns st transitions sh.logSize
        return (cols ++ raw, sh.logSize)

/-- The columns that a node is proved over. -/
def NodeMain.columns (main : NodeMain) (logSize : ℕ) : List (List ℕ) :=
  nodeTraceColumns logSize main.rv main.merkle main.channel ++
    (main.nonce.map (exportColumns logSize)).getD []

/-! ## The proof of a node -/

structure TreeNodeResult where
  proof : List UInt8
  logSize : ℕ
  numFolds : ℕ
  depth : ℕ
  compDepth : ℕ
  challenges : List QueryChallenges
  finals : List ℕ
  runs : List ChannelRun
  roots : List (Quad ℕ)

section Prover

variable (system : Bool → ProofSystem Preproc)
  (proving : ∀ circuits, (system circuits).Proving NodeMain)

/-- `prove_tree_node_with_nonce`: the preparation, and the proof over its columns under the
channel into which the public part was mixed. -/
def proveTreeNodeWithNonce (statements : List TreeStatement) (nonce : Option NonceWitness) :
    Except String TreeNodeResult := do
  let node ← prepareTreeNodeWithNonce statements nonce
  let st := nonce.map Prod.fst
  let proof ← (proving st.isSome).proveColumns (fun e => s!"tree node prove error: {e}")
    (fun e => s!"tree node serialize error: {e}")
    (mixPublicTree system st.isSome node.shape node.runs node.roots st) node.shape.logSize
    node.preproc node.main
  return {
    proof := proof
    logSize := node.shape.logSize
    numFolds := node.shape.numFolds
    depth := node.shape.depth
    compDepth := node.shape.compDepth
    challenges := node.shape.challenges
    finals := node.shape.finals
    runs := node.runs
    roots := node.roots }

end Prover

/-! ## What is exported -/

/-- Columns of a given length with reduced cells. -/
structure Exported (logSize : ℕ) (cols : List (List ℕ)) : Prop where
  lengths : ∀ col ∈ cols, col.length = 2 ^ logSize
  cells : ∀ col ∈ cols, ∀ cell ∈ col, Canonical cell

namespace Exported

variable {logSize : ℕ} {first second : List (List ℕ)}

theorem append (here : Exported logSize first) (there : Exported logSize second) :
    Exported logSize (first ++ second) :=
  ⟨List.forall_mem_append.mpr ⟨here.lengths, there.lengths⟩,
    List.forall_mem_append.mpr ⟨here.cells, there.cells⟩⟩

theorem of_columns {width : ℕ} (columns : ℕ → ℕ → M31) : Exported logSize
    ((List.range width).map fun column => exportColumn logSize (columns column)) := by
  constructor
  case lengths =>
    intro col member
    rcases List.mem_map.mp member with ⟨column, -, rfl⟩
    rw [exportColumn, List.length_map, List.length_range]
  case cells =>
    intro col member cell listed
    rcases List.mem_map.mp member with ⟨column, -, rfl⟩
    rcases List.mem_map.mp listed with ⟨row, -, rfl⟩
    exact val_lt_P _

end Exported

theorem NodeMain.columns_exported (main : NodeMain) (logSize : ℕ) :
    Exported logSize (main.columns logSize) := by
  have rv := @Exported.of_columns logSize 42 fun column row =>
    (foldCells (main.rv row)).getD column 0
  have merkle := @Exported.of_columns logSize 45 fun column row =>
    (pathCells (MerklePathT8.traceRow main.merkle row)).getD column 0
  have channel := @Exported.of_columns logSize 33 fun column row =>
    (channelCells (ChannelT8.traceRow main.channel row)).getD column 0
  apply ((rv.append merkle).append channel).append
  cases main.nonce with
  | none => exact ⟨nofun, nofun⟩
  | some columns => exact Exported.of_columns columns

theorem NodeMain.columns_length (main : NodeMain) (logSize : ℕ) :
    (main.columns logSize).length = 120 + if main.nonce.isSome then nonceMainCols else 0 := by
  cases transition : main.nonce with
  | none => simp [NodeMain.columns, nodeTraceColumns, exportRows, transition]
  | some columns =>
      simp [NodeMain.columns, nodeTraceColumns, exportRows, exportColumns, transition]
      omega

/-- The second run of the builders yields the columns of the first. -/
theorem PreparedAs.exported {numFolds logSize : ℕ} {statements : List TreeStatement}
    {nonce : Option NonceWitness} {node : PreparedNode}
    (prepared : PreparedAs numFolds logSize statements nonce node) :
    treeNodeTraceColumnsWithNonce statements nonce =
      .ok (node.main.columns node.shape.logSize, node.shape.logSize) := by
  have size : node.shape.logSize = logSize := by rw [prepared.shape]; rfl
  have small : ¬ maxLog < node.shape.logSize := Nat.not_lt.mpr (size ▸ prepared.size_le)
  have queries : node.shape.queries = allQueries statements := by rw [prepared.shape]; rfl
  have openings : (⟨node.shape.leaves, node.shape.sibs, node.shape.bits⟩ :
      MerklePathT8.Openings) = nodeOpenings statements := by
    rw [prepared.shape]
    rfl
  have transcripts : node.shape.transcripts = statements.map TreeStatement.steps := by
    rw [prepared.shape]
    rfl
  rcases bind_eq_ok.mp prepared.rv with ⟨rv, folded, next⟩
  rcases bind_eq_ok.mp next with ⟨_, -, finished⟩
  cases finished
  rw [← size] at folded
  have climbed := prepared.merkle
  rw [← size] at climbed
  have absorbed := prepared.channel
  rw [← size] at absorbed
  rw [treeNodeTraceColumnsWithNonce, prepared.shape_eq, ok_bind, if_neg small, queries, openings,
    transcripts, folded, ok_bind, climbed, ok_bind, absorbed]
  rcases prepared.nonce with ⟨traces, moved, main, -⟩
  cases nonce with
  | none =>
      cases moved
      rw [NodeMain.columns, main]
      exact congrArg (fun cols => Except.ok (cols, node.shape.logSize)) (List.append_nil _).symm
  | some w =>
      rcases w with ⟨st, transitions⟩
      rcases bind_eq_ok.mp moved with ⟨built, checked, finished⟩
      cases finished
      rw [← size] at checked
      rcases NonceUpdateT8.checkedTrace_ok_iff.mp (mapError_ok.mp checked) with
        ⟨-, -, -, -, reached, raw, -, -⟩
      rw [NodeMain.columns, main]
      dsimp only
      rw [checked, ok_bind, rawColumns, raw]
      rfl

/-! ## What is proved -/

section Proved

variable {system : Bool → ProofSystem Preproc}
  {proving : ∀ circuits, (system circuits).Proving NodeMain} {statements : List TreeStatement}
  {nonce : Option NonceWitness}

/-- Columns of a node with the given circuits that satisfy them. -/
structure Proves (circuits : Bool) (main : NodeMain) (logSize : ℕ) (preproc : Preproc) : Prop where
  circuits : preproc.nonce.isSome = circuits
  satisfies : main.Satisfies logSize preproc

theorem Proves.satisfiable {circuits : Bool} {main : NodeMain} {logSize : ℕ} {preproc : Preproc}
    (proves : Proves circuits main logSize preproc) : Satisfiable circuits logSize preproc :=
  proves.circuits ▸ proves.satisfies.satisfiable

/-- A proof that the verifier accepts, and the columns it was made over. -/
structure NodeProved (system : Bool → ProofSystem Preproc) (statements : List TreeStatement)
    (nonce : Option NonceWitness) (result : TreeNodeResult) (columns : TraceColumns) : Prop where
  accepted : verifyNode system result.proof result.logSize statements (nonce.map Prod.fst) =
    .ok true
  traced : ∃ main preproc, Proves nonce.isSome main result.logSize preproc ∧
    columns = (main.columns result.logSize, result.logSize)

/-- An honest prover proves what is prepared and satisfied. -/
theorem PreparedAs.node_proved {numFolds logSize : ℕ} {node : PreparedNode}
    (prepared : PreparedAs numFolds logSize statements nonce node)
    (ready : prepareTreeNodeWithNonce statements nonce = .ok node)
    (honest : ∀ circuits, (proving circuits).Honest (Proves circuits))
    (known : ∀ st ∈ statements, st.inputs.isSome) (satisfied : node.Satisfied) :
    ∃ result, proveTreeNodeWithNonce system proving statements nonce = .ok result ∧
      result.logSize = node.shape.logSize ∧ NodeProved system statements nonce result
        (node.main.columns node.shape.logSize, node.shape.logSize) := by
  have present : (nonce.map Prod.fst).isSome = nonce.isSome := Option.isSome_map
  have proves : Proves (nonce.map Prod.fst).isSome node.main node.shape.logSize node.preproc :=
    ⟨prepared.circuits.trans present.symm, satisfied⟩
  have shapeProved : ∃ proofBytes, (proving (nonce.map Prod.fst).isSome).proveColumns
      (fun e => s!"tree node prove error: {e}") (fun e => s!"tree node serialize error: {e}")
      (mixPublicTree system (nonce.map Prod.fst).isSome node.shape node.runs node.roots
        (nonce.map Prod.fst)) node.shape.logSize node.preproc node.main = .ok proofBytes ∧
      verifyShape system proofBytes node.shape node.roots (nonce.map Prod.fst) = .ok true := by
    unfold verifyShape
    rw [prepared.runs_computed]
    exact (honest (nonce.map Prod.fst).isSome).verifyAgainst prepared.rebuilt proves
  rcases shapeProved with ⟨proofBytes, proved, verified⟩
  refine ⟨_, bind_eq_ok.mpr ⟨node, ready, bind_eq_ok.mpr ⟨proofBytes, proved, rfl⟩⟩, rfl, ?_, ?_⟩
  · exact prepared.verified known verified
  · exact ⟨node.main, node.preproc, present ▸ proves, rfl⟩

theorem prepared_satisfied {node : PreparedNode} (made : ∀ st ∈ statements, st.FromColumns)
    (digits : ∀ w ∈ nonce, ∀ t ∈ w.2, t.bits = Merkle.indexBits w.1.depth t.index)
    (prepared : prepareTreeNodeWithNonce statements nonce = .ok node) :
    ∃ numFolds logSize, PreparedAs numFolds logSize statements nonce node ∧ node.Satisfied := by
  rcases prepared_as prepared with ⟨numFolds, logSize, parts⟩
  exact ⟨numFolds, logSize, parts, parts.satisfied (canonical_of_columns made) digits⟩

/-- Joinable statements are proved. -/
theorem Joinable.proved {numFolds : ℕ} (joinable : Joinable numFolds statements nonce)
    (honest : ∀ circuits, (proving circuits).Honest (Proves circuits))
    (made : ∀ st ∈ statements, st.FromColumns)
    (digits : ∀ w ∈ nonce, ∀ t ∈ w.2, t.bits = Merkle.indexBits w.1.depth t.index) :
    ∃ result, proveTreeNodeWithNonce system proving statements nonce = .ok result := by
  rcases joinable.prepared made with ⟨node, prepared⟩
  rcases prepared_satisfied made digits prepared with ⟨_, logSize, parts, satisfied⟩
  rcases parts.node_proved prepared honest (known_of_columns made) satisfied with
    ⟨result, proved, -⟩
  exact ⟨result, proved⟩

/-- What is proved was joinable, and its columns are exported. -/
theorem proved_node {result : TreeNodeResult}
    (honest : ∀ circuits, (proving circuits).Honest (Proves circuits))
    (made : ∀ st ∈ statements, st.FromColumns)
    (digits : ∀ w ∈ nonce, ∀ t ∈ w.2, t.bits = Merkle.indexBits w.1.depth t.index)
    (proved : proveTreeNodeWithNonce system proving statements nonce = .ok result) :
    ∃ numFolds logSize node, PreparedAs numFolds logSize statements nonce node ∧
      treeNodeTraceColumnsWithNonce statements nonce =
        .ok (node.main.columns node.shape.logSize, node.shape.logSize) ∧
      NodeProved system statements nonce result
        (node.main.columns node.shape.logSize, node.shape.logSize) := by
  rcases bind_eq_ok.mp proved with ⟨node, prepared, -⟩
  rcases prepared_satisfied made digits prepared with ⟨numFolds, logSize, parts, satisfied⟩
  rcases parts.node_proved prepared honest (known_of_columns made) satisfied with
    ⟨own, again, -, stands⟩
  rw [Except.ok.inj (proved.symm.trans again)]
  exact ⟨numFolds, logSize, node, parts, parts.exported, stands⟩

/-- Statements made from columns are proved exactly when one node can join
them.  The proof is accepted, and the columns exported for the level above are
those it was made over: they satisfy all circuits, each has a power of two of
cells below `P`. -/
theorem columns_node_proved_iff (honest : ∀ circuits, (proving circuits).Honest (Proves circuits))
    (made : ∀ st ∈ statements, st.FromColumns)
    (digits : ∀ w ∈ nonce, ∀ t ∈ w.2, t.bits = Merkle.indexBits w.1.depth t.index) :
    ((∃ result, proveTreeNodeWithNonce system proving statements nonce = .ok result) ↔
      ∃ numFolds, Joinable numFolds statements nonce) ∧
    ∀ result, proveTreeNodeWithNonce system proving statements nonce = .ok result →
      ∃ columns, treeNodeTraceColumnsWithNonce statements nonce = .ok columns ∧
        NodeProved system statements nonce result columns ∧ Exported columns.2 columns.1 := by
  refine ⟨⟨?_, ?_⟩, ?_⟩
  · rintro ⟨result, proved⟩
    rcases proved_node honest made digits proved with ⟨numFolds, logSize, node, parts, -⟩
    exact ⟨numFolds, parts.joinable made⟩
  · rintro ⟨numFolds, joinable⟩
    exact joinable.proved honest made digits
  · intro result proved
    rcases proved_node honest made digits proved with
      ⟨numFolds, logSize, node, parts, exported, stands⟩
    exact ⟨_, exported, stands, node.main.columns_exported node.shape.logSize⟩

/-- The prover of the system that knows what is satisfiable. -/
theorem oracle_proves (circuits : Bool) :
    (ProofSystem.Proving.oracle (Satisfiable circuits) NodeMain).Honest (Proves circuits) :=
  ProofSystem.Proving.oracle_honest fun _ _ _ proves => proves.satisfiable

theorem sample_node_proved : ∃ st result columns, SampleStatement st ∧
    treeNodeTraceColumnsWithNonce [st] none = .ok columns ∧
      NodeProved (fun circuits => .oracle (Satisfiable circuits)) [st] none result columns := by
  rcases sampleStatement_made with ⟨st, sample⟩
  rcases @columns_node_proved_iff (fun circuits => .oracle (Satisfiable circuits))
    (fun circuits => .oracle (Satisfiable circuits) NodeMain) [st] none oracle_proves
    sample.fromColumns nofun with ⟨joined, stands⟩
  rcases joined.mpr ⟨1, sample.joinable⟩ with ⟨result, proved⟩
  rcases stands result proved with ⟨columns, exported, own, -⟩
  exact ⟨st, result, columns, sample, exported, own⟩

end Proved

end TreeNode
end Recursive
end QLSA
