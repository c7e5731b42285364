import QLSA.Contracts.LazyReduction
import QLSA.Stwo.CheckedHash

namespace QLSA
namespace Contracts

open Mersenne Hash Stwo

/-!
# Membership on-chain and off-chain

The contract's verifier hashes the words of every node as residues.  The
prover's verifier feeds the same unreduced words to arithmetic made for reduced
ones.  Along a path whose hashes come out reduced after the first S-box layer,
in particular along every path of reduced words, both return the same answer.
Where a cell of that layer overflows, the prover's verifier aborts.
-/

/-- The contract's loop reads the index bit by bit. -/
theorem climb_eq_pathRoot (current : Verifier.Bytes32) (idx : ℕ)
    (siblings : List Verifier.Bytes32) :
    Verifier.climb current idx siblings =
      Merkle.pathRoot fieldPair current siblings (Merkle.indexBits siblings.length idx) := by
  induction siblings generalizing current idx with
  | nil => rfl
  | cons sibling siblings ih =>
      rw [Verifier.climb, ih, List.length_cons, Merkle.indexBits, Merkle.pathRoot_cons,
        Verifier.hashPair_eq, Verifier.hashPair_eq]
      congr 1
      by_cases odd : idx % 2 = 1
      · have notEven : ¬ idx % 2 = 0 := by omega
        simp [odd]
      · have even : idx % 2 = 0 := by omega
        simp [even]

theorem verifyMem_eq (root leaf : Bytes32) {index : ℕ} {siblings : List Bytes32}
    (shallow : siblings.length ≤ 32) (inTree : index < 2 ^ siblings.length) :
    Verifier.verifyMem root leaf index siblings.length siblings =
      decide (Merkle.pathRoot fieldPair leaf siblings
        (Merkle.indexBits siblings.length index) = root) := by
  have inRange : ¬ (0 < siblings.length ∧ 2 ^ siblings.length ≤ index) := by omega
  unfold Verifier.verifyMem
  rw [if_neg (not_not.mpr rfl), if_neg (by omega), if_neg inRange, climb_eq_pathRoot]
  rfl

/-- Along a path whose first S-box layers reduce every cell both verifiers return the same answer;
where the first of the other hashes overflows there, the prover's verifier aborts.  Nodes are any
words of 32 bytes, reduced or not, and the prover's arithmetic is that of a build that checks
overflow. -/
theorem membership_verifiers_agree (root leaf : Bytes32) {index : ℕ} {siblings : List Bytes32}
    (shallow : siblings.length ≤ 32) (inTree : index < 2 ^ siblings.length) :
    let bits := Merkle.indexBits siblings.length index
    let hashed := Merkle.operands fieldPair leaf siblings bits
    ((∀ children ∈ hashed, ∀ cell ∈ pairCells children, sboxReduces cell = true) →
        verifyBatchMembershipChecked root leaf siblings bits =
          some (Verifier.verifyMem root leaf index siblings.length siblings)) ∧
      ∀ before children after, hashed = before ++ children :: after →
        (∀ earlier ∈ before, ∀ cell ∈ pairCells earlier, sboxReduces cell = true) →
        (∃ cell ∈ pairCells children, sboxOverflows cell = true) →
        verifyBatchMembershipChecked root leaf siblings bits = none := by
  intro bits hashed
  have lengths : siblings.length = bits.length := (Merkle.indexBits_length _ _).symm
  unfold verifyBatchMembershipChecked
  rw [if_neg (not_not.mpr lengths)]
  constructor
  · intro reduces
    rw [foldlM_eq_pathRoot reduces, verifyMem_eq root leaf shallow inTree]
    rfl
  · rintro before children after split reduces ⟨cell, member, overflows⟩
    rw [foldlM_eq_none split reduces member overflows]
    rfl

theorem operands_reduce {leaf : Bytes32} {siblings : List Bytes32} {bits : List Bool}
    (leafCanonical : (p2t8NodeWords leaf).All Canonical)
    (canonical : ∀ sibling ∈ siblings, (p2t8NodeWords sibling).All Canonical) :
    ∀ children ∈ Merkle.operands fieldPair leaf siblings bits,
      ∀ cell ∈ pairCells children, sboxReduces cell = true := by
  induction siblings generalizing leaf bits with
  | nil => simp [Merkle.operands]
  | cons sibling siblings ih =>
      cases bits with
      | nil => simp [Merkle.operands]
      | cons bit bits =>
          have own := canonical sibling List.mem_cons_self
          have others := fun other inside => canonical other (List.mem_cons_of_mem _ inside)
          intro children member
          rw [Merkle.operands] at member
          rcases List.mem_cons.mp member with rfl | above
          · cases bit
            · exact pairCells_reduce leafCanonical own
            · exact pairCells_reduce own leafCanonical
          · refine ih ?_ others children above
            cases bit
            · exact p2t8NodeWords_fieldPair leaf sibling
            · exact p2t8NodeWords_fieldPair sibling leaf

/-- Paths of reduced words satisfy the condition, so the verifiers agree on them. -/
theorem membership_verifiers_agree_of_canonical (root : Bytes32) {leaf : Bytes32} {index : ℕ}
    {siblings : List Bytes32} (shallow : siblings.length ≤ 32)
    (inTree : index < 2 ^ siblings.length) (leafCanonical : (p2t8NodeWords leaf).All Canonical)
    (canonical : ∀ sibling ∈ siblings, (p2t8NodeWords sibling).All Canonical) :
    verifyBatchMembershipChecked root leaf siblings (Merkle.indexBits siblings.length index) =
      some (Verifier.verifyMem root leaf index siblings.length siblings) := by
  have lengths := (Merkle.indexBits_length siblings.length index).symm
  unfold verifyBatchMembershipChecked
  rw [if_neg (not_not.mpr lengths), foldlM_eq_pathRoot (operands_reduce leafCanonical canonical),
    verifyMem_eq root leaf shallow inTree]
  rfl

/-- A node of sixteen zero bytes and four words of 32 one bits. -/
def onesNode : Bytes32 := BitVec.ofNat 256 (2 ^ 128 - 1)

/-- A node whose words all exceed `P`. -/
def wideNode : Bytes32 := p2t8Pack ⟨2 ^ 31, 2 ^ 31 + 1, 2 ^ 31 + 2, 2 ^ 31 + 3⟩

/-- The root over leaf 3 at place 2 of four. -/
def wideRoot : Bytes32 := Verifier.hashPair 9 (Verifier.hashPair 3 wideNode)

/-- Beside unreduced words both verifiers accept a path of two siblings; a sibling of one
bits further up aborts the prover's. -/
theorem membership_verifiers_agree_sample :
    verifyBatchMembershipChecked wideRoot 3 [wideNode, 9] [false, true] =
        some (Verifier.verifyMem wideRoot 3 2 2 [wideNode, 9]) ∧
      Verifier.verifyMem wideRoot 3 2 2 [wideNode, 9] = true ∧
      verifyBatchMembershipChecked wideRoot 3 [wideNode, onesNode] [false, true] = none := by
  refine ⟨?_, by decide +kernel, ?_⟩
  · refine (@membership_verifiers_agree wideRoot 3 2 [wideNode, 9] (by decide) (by decide)).1 ?_
    -- the two hashes of the path, the leaf's first
    refine List.forall_mem_cons.mpr ⟨?_, List.forall_mem_singleton.mpr ?_⟩
    · decide +kernel
    · decide +kernel
  · refine (@membership_verifiers_agree wideRoot 3 2 [wideNode, onesNode] (by decide)
      (by decide)).2 [(3, wideNode)] (onesNode, fieldPair 3 wideNode) [] rfl ?_ ?_
    · exact List.forall_mem_singleton.mpr (by decide +kernel)
    · decide +kernel

/-- With a sibling of one bits the prover's verifier aborts; without overflow
checks it rejects the root the contract accepts. -/
theorem membership_verifiers_disagree :
    let root := Verifier.hashPair 0 onesNode
    verifyBatchMembershipChecked root 0 [onesNode] [false] ≠
        some (Verifier.verifyMem root 0 0 1 [onesNode]) ∧
      verifyBatchMembership hashPairP2T8 root 0 [onesNode] [false] ≠
        Verifier.verifyMem root 0 0 1 [onesNode] := by
  decide +kernel

end Contracts
end QLSA
