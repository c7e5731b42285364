import QLSA.Recursive.ProofSystem

namespace QLSA
namespace Recursive

open Mersenne

/-!
# Verifiers of committed traces

A verifier that pins its preprocessed columns recomputes the commitment to them
and compares it with the one in the proof.  Its other arguments are only mixed
into the transcript, between the commitments and the final check.  A proof that
is accepted shows that the columns behind its second commitment satisfy the
circuit; what they have to do with the arguments is for each circuit to say.
-/

/-- Columns that agree on the rows of a trace. -/
def AgreeOn (width logSize : ℕ) (first second : Columns) : Prop :=
  ∀ column < width, ∀ row < 2 ^ logSize, first column row = second column row

/-- A circuit that reads its columns on the rows of a trace only. -/
def ReadsRows (preWidth mainWidth : ℕ) (Satisfies : ℕ → Columns → Columns → Prop) : Prop :=
  ∀ {logSize pre otherPre main otherMain}, AgreeOn preWidth logSize pre otherPre →
    AgreeOn mainWidth logSize main otherMain →
      Satisfies logSize pre main → Satisfies logSize otherPre otherMain

namespace ProofSystem

/-- Each root commits to columns.  Those of an accepted proof satisfy the
circuit, and the commitment to given columns commits to these. -/
structure Opens (system : ProofSystem Columns) (columns : system.Root → Columns) (width : ℕ)
    (Satisfies : ℕ → Columns → Columns → Prop) : Prop where
  satisfied : ∀ {logSize channel pre main proof},
    system.verify logSize channel pre main proof = true →
      Satisfies logSize (columns pre) (columns main)
  canonical : ∀ logSize preproc,
    AgreeOn width logSize (columns (system.commitColumns logSize preproc)) preproc

/-- The verifier with the range of its log-size, its preprocessed columns and
what it mixes into the transcript. -/
def verifyPinned (system : ProofSystem Columns) (minLogSize maxLogSize : ℕ) (pinned : Columns)
    (mixed : List ℕ) (proofBytes : List UInt8) (logSize : ℕ) : Except String Bool :=
  if logSize < minLogSize ∨ maxLogSize < logSize then
    .error s!"log_size {logSize} out of range [{minLogSize}, {maxLogSize}]"
  else do
    let proof ← (system.decode proofBytes).mapError fun e => "deserialization error: " ++ e
    match system.commitments proof with
    | pre :: main :: _ =>
        if pre ≠ system.commitColumns logSize pinned then .ok false
        else
          let committed := system.commit (system.commit system.channel pre) main
          .ok (system.verify logSize (system.mixU32s committed mixed) pre main proof)
    | few => .error s!"malformed proof: expected ≥ 2 commitments, got {few.length}"

section Accepted

variable {system : ProofSystem Columns} {minLogSize maxLogSize logSize : ℕ} {pinned : Columns}
  {mixed : List ℕ} {proofBytes : List UInt8}

/-- Everything an accepting run has checked. -/
theorem verifyPinned_ok
    (accepted : system.verifyPinned minLogSize maxLogSize pinned mixed proofBytes logSize =
      .ok true) :
    logSize ≤ maxLogSize ∧ ∃ proof main rest channel, system.decode proofBytes = .ok proof ∧
      system.commitments proof = system.commitColumns logSize pinned :: main :: rest ∧
      system.verify logSize channel (system.commitColumns logSize pinned) main proof = true := by
  unfold verifyPinned at accepted
  split at accepted
  case isTrue => cases accepted
  case isFalse valid =>
    refine ⟨by omega, ?_⟩
    cases decoded : system.decode proofBytes with
    | error message =>
        rw [decoded] at accepted
        cases accepted
    | ok proof =>
        rw [decoded] at accepted
        dsimp only [Except.mapError, bind, Except.bind] at accepted
        split at accepted
        case h_1 pre main rest roots =>
          split at accepted
          case isTrue => exact absurd (Except.ok.inj accepted) (by decide)
          case isFalse same =>
            have own := not_not.mp same
            rw [own] at roots accepted
            exact ⟨proof, main, rest, _, rfl, roots, Except.ok.inj accepted⟩
        case h_2 => cases accepted

/-- A proof that is accepted under every transcript is accepted whatever is
mixed into it. -/
theorem verifyPinned_of {proof : system.Proof} {main : system.Root} {rest : List system.Root}
    (large : minLogSize ≤ logSize) (small : logSize ≤ maxLogSize)
    (decoded : system.decode proofBytes = .ok proof)
    (roots : system.commitments proof = system.commitColumns logSize pinned :: main :: rest)
    (verified : ∀ channel,
      system.verify logSize channel (system.commitColumns logSize pinned) main proof = true) :
    system.verifyPinned minLogSize maxLogSize pinned mixed proofBytes logSize = .ok true := by
  have valid : ¬ (logSize < minLogSize ∨ maxLogSize < logSize) := by omega
  unfold verifyPinned
  rw [if_neg valid, decoded]
  dsimp only [Except.mapError, bind, Except.bind]
  rw [roots]
  dsimp only
  rw [if_neg (not_not.mpr rfl), verified]

/-- The trace behind an accepted proof satisfies the circuit with the pinned
columns. -/
theorem Opens.satisfies {columns : system.Root → Columns} {preWidth mainWidth : ℕ}
    {Satisfies : ℕ → Columns → Columns → Prop}
    (opens : system.Opens columns preWidth Satisfies)
    (reads : ReadsRows preWidth mainWidth Satisfies)
    (accepted : system.verifyPinned minLogSize maxLogSize pinned mixed proofBytes logSize =
      .ok true) :
    logSize ≤ maxLogSize ∧ ∃ proof root, system.decode proofBytes = .ok proof ∧
      (system.commitments proof)[1]? = some root ∧ Satisfies logSize pinned (columns root) := by
  rcases verifyPinned_ok accepted with
    ⟨small, proof, root, rest, channel, decoded, roots, verified⟩
  refine ⟨small, proof, root, decoded, by rw [roots]; rfl, ?_⟩
  exact reads (opens.canonical logSize pinned) (fun _ _ _ _ => rfl) (opens.satisfied verified)

end Accepted

/-! ## A system that shows its traces -/

/-- Rows of some columns. -/
abbrev Table := List (List M31)

/-- The first columns on the rows of a trace. -/
def tabulate (width logSize : ℕ) (columns : Columns) : Table :=
  (List.range (2 ^ logSize)).map fun row => (List.range width).map fun column => columns column row

/-- Columns of a table. -/
def untabulate (table : Table) : Columns := fun column row => (table.getD row []).getD column 0

theorem untabulate_tabulate (width logSize : ℕ) (columns : Columns) :
    AgreeOn width logSize (untabulate (tabulate width logSize columns)) columns := by
  intro column valid row inside
  simp [untabulate, tabulate, List.getD_eq_getElem?_getD, valid, inside]

/-- The system in which commitments are tables and the one proof commits to a
given trace; its final check evaluates the circuit. -/
def openSystem (preWidth mainWidth : ℕ) (Satisfies : ℕ → Columns → Columns → Prop)
    [∀ logSize pre main, Decidable (Satisfies logSize pre main)] (logSize : ℕ)
    (pre main : Columns) : ProofSystem Columns where
  Proof := Unit
  Root := Table
  Channel := Unit
  rootEq := inferInstance
  decode := fun _ => .ok ()
  commitments := fun _ => [tabulate preWidth logSize pre, tabulate mainWidth logSize main]
  commitColumns := tabulate preWidth
  channel := ()
  mixU32s := fun _ _ => ()
  commit := fun _ _ => ()
  verify := fun logSize _ pre main _ =>
    decide (Satisfies logSize (untabulate pre) (untabulate main))

section Open

variable {preWidth mainWidth : ℕ} {Satisfies : ℕ → Columns → Columns → Prop}
  [∀ logSize pre main, Decidable (Satisfies logSize pre main)] {logSize : ℕ} {pre main : Columns}

theorem openSystem_opens :
    (openSystem preWidth mainWidth Satisfies logSize pre main).Opens untabulate preWidth
      Satisfies where
  satisfied := fun verified => of_decide_eq_true verified
  canonical := untabulate_tabulate preWidth

/-- A satisfying trace is accepted under any claim. -/
theorem openSystem_accepts {minLogSize maxLogSize : ℕ} {mixed : List ℕ}
    {proofBytes : List UInt8} (reads : ReadsRows preWidth mainWidth Satisfies)
    (large : minLogSize ≤ logSize) (small : logSize ≤ maxLogSize)
    (satisfies : Satisfies logSize pre main) :
    (openSystem preWidth mainWidth Satisfies logSize pre main).verifyPinned minLogSize maxLogSize
      pre mixed proofBytes logSize = .ok true := by
  have shown : Satisfies logSize (untabulate (tabulate preWidth logSize pre))
      (untabulate (tabulate mainWidth logSize main)) := by
    apply reads _ _ satisfies
    · intro column valid row inside
      exact (untabulate_tabulate preWidth logSize pre column valid row inside).symm
    · intro column valid row inside
      exact (untabulate_tabulate mainWidth logSize main column valid row inside).symm
  have decoded : (openSystem preWidth mainWidth Satisfies logSize pre main).decode proofBytes =
      .ok () := rfl
  exact verifyPinned_of large small decoded rfl fun _ => decide_eq_true shown

end Open

end ProofSystem
end Recursive
end QLSA
