import QLSA.Machine.Fallible
import QLSA.Recursive.ProofSystem

namespace QLSA
namespace Recursive

/-!
# Verifiers that rebuild the preprocessed columns

Every recursive verifier has one shape.  It decodes the proof, rebuilds the
preprocessed columns from its own arguments, compares their commitment with
the first of the proof, replays the transcript and calls the final check.
Over a proof system that is sound and complete the bytes of the proof drop
out: some proof is accepted exactly when the rebuilt columns are satisfiable.
What a verifier proves is then a statement about columns alone.

A prover commits to the same preprocessed columns and to main columns.  When it
is honest, its proof of columns that satisfy the circuits is one of those which
a verifier that rebuilds these columns accepts.
-/

namespace ProofSystem

variable {Preproc : Type}

/-- A satisfying main trace yields a proof against the commitment to the
preprocessed columns, however the transcript continues after the main columns. -/
structure Complete (system : ProofSystem Preproc) (Satisfiable : ℕ → Preproc → Prop) : Prop where
  proved : ∀ {logSize preproc} (transcript : system.Root → system.Channel),
    Satisfiable logSize preproc →
      ∃ proofBytes proof main rest, system.decode proofBytes = .ok proof ∧
        system.commitments proof = system.commitColumns logSize preproc :: main :: rest ∧
        system.verify logSize (transcript main) (system.commitColumns logSize preproc) main
          proof = true

section Oracle

variable (Satisfiable : ℕ → Preproc → Prop)

open Classical in
/-- The system whose commitments say whether their columns are satisfiable. -/
noncomputable def oracle : ProofSystem Preproc where
  Proof := Unit
  Root := Bool
  Channel := Unit
  rootEq := inferInstance
  decode := fun _ => .ok ()
  commitments := fun _ => [true, true]
  commitColumns := fun logSize preproc => decide (Satisfiable logSize preproc)
  channel := ()
  mixU32s := fun _ _ => ()
  commit := fun _ _ => ()
  verify := fun _ _ root _ _ => root

open Classical in
theorem oracle_sound : (oracle Satisfiable).Sound Satisfiable where
  satisfied := fun accepted => of_decide_eq_true accepted

open Classical in
theorem oracle_complete : (oracle Satisfiable).Complete Satisfiable where
  proved := by
    intro logSize preproc transcript satisfiable
    have committed : (oracle Satisfiable).commitColumns logSize preproc = true :=
      decide_eq_true satisfiable
    exact ⟨[], (), true, [], rfl, by rw [committed]; rfl, committed⟩

end Oracle

section Rebuilt

variable (system : ProofSystem Preproc) (decodeError : String → String)
  (rootsError : ℕ → String) (logSize : ℕ) (build : Except String Preproc)
  (mix : system.Channel → system.Channel)

/-- The part of a verifier behind the checks of its arguments. -/
def verifyAgainst (proofBytes : List UInt8) : Except String Bool := do
  let proof ← (system.decode proofBytes).mapError decodeError
  match system.commitments proof with
  | pre :: main :: _ =>
      let preproc ← build
      if pre ≠ system.commitColumns logSize preproc then return false
      else
        let committed := system.commit (system.commit system.channel pre) main
        return system.verify logSize (mix committed) pre main proof
  | few => .error (rootsError few.length)

variable {system decodeError rootsError logSize build mix}

theorem verifyAgainst_accepts_iff {proofBytes : List UInt8} :
    verifyAgainst system decodeError rootsError logSize build mix proofBytes = .ok true ↔
      ∃ proof main rest preproc, system.decode proofBytes = .ok proof ∧
        build = .ok preproc ∧
        system.commitments proof = system.commitColumns logSize preproc :: main :: rest ∧
        system.verify logSize (mix (system.commit (system.commit system.channel
          (system.commitColumns logSize preproc)) main))
          (system.commitColumns logSize preproc) main proof = true := by
  unfold verifyAgainst
  constructor
  · intro accepted
    cases decoded : system.decode proofBytes with
    | error e =>
        rw [decoded] at accepted
        contradiction
    | ok proof =>
        rw [decoded] at accepted
        dsimp only [bind, Except.bind, Except.mapError] at accepted
        split at accepted
        case h_1 pre main rest roots =>
          cases built : build with
          | error e =>
              rw [built] at accepted
              contradiction
          | ok preproc =>
              rw [built] at accepted
              dsimp only at accepted
              split at accepted
              case isTrue => exact absurd (Except.ok.inj accepted) (by decide)
              case isFalse pinned =>
                have canonical := not_not.mp pinned
                rw [canonical] at accepted roots
                exact ⟨proof, main, rest, preproc, rfl, rfl, roots, Except.ok.inj accepted⟩
        case h_2 => contradiction
  · rintro ⟨proof, main, rest, preproc, decoded, built, roots, verified⟩
    rw [decoded, built]
    dsimp only [bind, Except.bind, Except.mapError]
    rw [roots]
    dsimp only
    rw [if_neg (not_not.mpr rfl), verified]
    rfl

/-- Soundness of a verifier, from that of the system. -/
theorem Sound.verifyAgainst {Satisfiable : ℕ → Preproc → Prop}
    (sound : system.Sound Satisfiable) {proofBytes : List UInt8}
    (accepted : ProofSystem.verifyAgainst system decodeError rootsError logSize build mix
      proofBytes = .ok true) :
    ∃ preproc, build = .ok preproc ∧ Satisfiable logSize preproc := by
  rcases verifyAgainst_accepts_iff.mp accepted with
    ⟨proof, main, rest, preproc, -, built, -, verified⟩
  exact ⟨preproc, built, sound.satisfied verified⟩

/-- Completeness of a verifier, from that of the system. -/
theorem Complete.verifyAgainst {Satisfiable : ℕ → Preproc → Prop}
    (complete : system.Complete Satisfiable) {preproc : Preproc} (built : build = .ok preproc)
    (satisfiable : Satisfiable logSize preproc) :
    ∃ proofBytes, ProofSystem.verifyAgainst system decodeError rootsError logSize build mix
      proofBytes = .ok true := by
  rcases complete.proved (fun main => mix (system.commit (system.commit system.channel
    (system.commitColumns logSize preproc)) main)) satisfiable with
    ⟨proofBytes, proof, main, rest, decoded, roots, verified⟩
  exact ⟨proofBytes, verifyAgainst_accepts_iff.mpr
    ⟨proof, main, rest, preproc, decoded, built, roots, verified⟩⟩

/-- Some proof is accepted exactly when the rebuilt columns are satisfiable. -/
theorem exists_verifyAgainst_iff {Satisfiable : ℕ → Preproc → Prop}
    (sound : system.Sound Satisfiable) (complete : system.Complete Satisfiable) :
    (∃ proofBytes, ProofSystem.verifyAgainst system decodeError rootsError logSize build mix
      proofBytes = .ok true) ↔ ∃ preproc, build = .ok preproc ∧ Satisfiable logSize preproc := by
  constructor
  · rintro ⟨proofBytes, accepted⟩
    exact sound.verifyAgainst accepted
  · rintro ⟨preproc, built, satisfiable⟩
    exact complete.verifyAgainst built satisfiable

end Rebuilt

/-! ## Provers -/

/-- The parts of the proof system that provers call. -/
structure Proving (system : ProofSystem Preproc) (Main : Type) where
  commitMain : ℕ → Main → system.Root
  prove : ℕ → system.Channel → Preproc → Main → Except String system.Proof
  encode : system.Proof → Except String (List UInt8)

namespace Proving

variable {system : ProofSystem Preproc} {Main : Type}

/-- Both commitments, the public data, then the proof and its bytes. -/
def proveColumns (proving : system.Proving Main) (proveError encodeError : String → String)
    (mix : system.Channel → system.Channel) (logSize : ℕ) (preproc : Preproc) (main : Main) :
    Except String (List UInt8) := do
  let committed := system.commit (system.commit system.channel
    (system.commitColumns logSize preproc)) (proving.commitMain logSize main)
  let proof ← (proving.prove logSize (mix committed) preproc main).mapError proveError
  (proving.encode proof).mapError encodeError

/-- Satisfying columns are proved, by a proof of their commitments that the
final check accepts, and its bytes decode to it. -/
structure Honest (proving : system.Proving Main) (Satisfies : Main → ℕ → Preproc → Prop) :
    Prop where
  proved : ∀ {logSize channel preproc main}, Satisfies main logSize preproc →
    ∃ proof proofBytes rest, proving.prove logSize channel preproc main = .ok proof ∧
      proving.encode proof = .ok proofBytes ∧ system.decode proofBytes = .ok proof ∧
      system.commitments proof = system.commitColumns logSize preproc ::
        proving.commitMain logSize main :: rest ∧
      system.verify logSize channel (system.commitColumns logSize preproc)
        (proving.commitMain logSize main) proof = true

/-- What an honest prover makes of satisfying columns is accepted by a verifier
that rebuilds the preprocessed ones. -/
theorem Honest.verifyAgainst {proving : system.Proving Main}
    {Satisfies : Main → ℕ → Preproc → Prop} (honest : proving.Honest Satisfies)
    {proveError encodeError decodeError : String → String} {rootsError : ℕ → String}
    {logSize : ℕ} {build : Except String Preproc} {mix : system.Channel → system.Channel}
    {preproc : Preproc} {main : Main} (built : build = .ok preproc)
    (satisfies : Satisfies main logSize preproc) :
    ∃ proofBytes,
      proving.proveColumns proveError encodeError mix logSize preproc main = .ok proofBytes ∧
      ProofSystem.verifyAgainst system decodeError rootsError logSize build mix proofBytes =
        .ok true := by
  rcases honest.proved satisfies with
    ⟨proof, proofBytes, rest, proved, encoded, decoded, roots, verified⟩
  refine ⟨proofBytes, ?_, verifyAgainst_accepts_iff.mpr
    ⟨proof, _, rest, preproc, decoded, built, roots, verified⟩⟩
  rw [proveColumns, proved]
  exact Machine.mapError_ok.mpr encoded

/-- The prover whose every proof is empty. -/
noncomputable def oracle (Satisfiable : ℕ → Preproc → Prop) (Main : Type) :
    (ProofSystem.oracle Satisfiable).Proving Main where
  commitMain := fun _ _ => true
  prove := fun _ _ _ _ => .ok ()
  encode := fun _ => .ok []

open Classical in
theorem oracle_honest {Satisfiable : ℕ → Preproc → Prop}
    {Satisfies : Main → ℕ → Preproc → Prop}
    (admits : ∀ main logSize preproc, Satisfies main logSize preproc → Satisfiable logSize preproc) :
    (oracle Satisfiable Main).Honest Satisfies where
  proved := by
    intro logSize channel preproc main satisfies
    have committed : (ProofSystem.oracle Satisfiable).commitColumns logSize preproc = true :=
      decide_eq_true (admits main logSize preproc satisfies)
    exact ⟨(), [], [], rfl, rfl, rfl, by rw [committed]; rfl, committed⟩

end Proving

end ProofSystem
end Recursive
end QLSA
