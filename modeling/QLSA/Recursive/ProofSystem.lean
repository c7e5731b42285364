import QLSA.Recursive.Columns

namespace QLSA
namespace Recursive

/-!
# The proof system around the circuits

Proofs, their bytes, commitments to columns, the transcript and the final
check lie outside the repository.  What a verifier relies on is that a proof
accepted against the commitment to preprocessed columns shows these columns
to be satisfiable by some main trace.
-/

/-- The parts of the proof system that verifiers call.  They stand for code outside the
repository, so what is assumed of them is a named hypothesis wherever it is used: soundness and
completeness relate `verify` to the circuits, and `Opens` relates a root to the columns committed.
-/
structure ProofSystem (Preproc : Type) where
  Proof : Type
  Root : Type
  Channel : Type
  rootEq : DecidableEq Root
  decode : List UInt8 → Except String Proof
  commitments : Proof → List Root
  commitColumns : ℕ → Preproc → Root
  channel : Channel
  mixU32s : Channel → List ℕ → Channel
  commit : Channel → Root → Channel
  verify : ℕ → Channel → Root → Root → Proof → Bool

namespace ProofSystem

variable {Preproc : Type}

instance (system : ProofSystem Preproc) : DecidableEq system.Root := system.rootEq

/-- Acceptance against the commitment to preprocessed columns needs a main
trace that satisfies the circuit with them. -/
structure Sound (system : ProofSystem Preproc) (Satisfiable : ℕ → Preproc → Prop) : Prop where
  satisfied : ∀ {logSize channel preproc main proof},
    system.verify logSize channel (system.commitColumns logSize preproc) main proof = true →
      Satisfiable logSize preproc

section Ideal

variable (Satisfiable : ℕ → Preproc → Prop)

open Classical in
/-- The system in which a commitment is the columns themselves and in which
the one proof, for given columns, is accepted when they are satisfiable. -/
noncomputable def ideal (logSize : ℕ) (preproc : Preproc) : ProofSystem Preproc where
  Proof := Unit
  Root := Option (ℕ × Preproc)
  Channel := Unit
  rootEq := inferInstance
  decode := fun _ => .ok ()
  commitments := fun _ => [some (logSize, preproc), none]
  commitColumns := fun logSize preproc => some (logSize, preproc)
  channel := ()
  mixU32s := fun _ _ => ()
  commit := fun _ _ => ()
  verify := fun logSize _ root _ _ =>
    decide (∃ preproc, root = some (logSize, preproc) ∧ Satisfiable logSize preproc)

variable {Satisfiable}

open Classical in
theorem ideal_verify {logSize size : ℕ} {preproc : Preproc}
    {root main : Option (ℕ × Preproc)} :
    (ideal Satisfiable logSize preproc).verify size () root main () = true ↔
      ∃ columns, root = some (size, columns) ∧ Satisfiable size columns :=
  decide_eq_true_iff

theorem ideal_sound (logSize : ℕ) (preproc : Preproc) :
    (ideal Satisfiable logSize preproc).Sound Satisfiable where
  satisfied := by
    intro size channel columns main proof accepted
    rcases ideal_verify.mp accepted with ⟨committed, same, satisfiable⟩
    cases same
    exact satisfiable

end Ideal

end ProofSystem
end Recursive
end QLSA
