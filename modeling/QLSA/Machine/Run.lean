import Mathlib.Data.List.Basic

namespace QLSA
namespace Machine

/-!
# Runs of a machine whose steps can revert

A step either fails, and then leaves no trace, or yields a new state together
with an output.  A run feeds a list of inputs to the machine one after the
other and ignores the failed ones.  Its receipts are the steps that succeeded,
in order, each with the states on both sides.

Properties of runs are proved through `run_induction`: what holds of the
initial state without receipts and is kept by every successful step holds of
every run.
-/

variable {State Input Output Error : Type*}
variable (step : State → Input → Except Error (State × Output))

/-- The state after one input: a failed step changes nothing. -/
def settle (state : State) (input : Input) : State :=
  match step state input with
  | .ok (next, _) => next
  | .error _ => state

/-- The state after a list of inputs. -/
def run (state : State) (inputs : List Input) : State :=
  inputs.foldl (settle step) state

/-- One successful step. -/
structure Receipt (State Input Output : Type*) where
  before : State
  input : Input
  after : State
  output : Output

/-- The successful steps of a run. -/
def receipts : State → List Input → List (Receipt State Input Output)
  | _, [] => []
  | state, input :: rest =>
      match step state input with
      | .ok (next, output) => ⟨state, input, next, output⟩ :: receipts next rest
      | .error _ => receipts state rest

theorem settle_ok {state next : State} {input : Input} {output : Output}
    (succeeded : step state input = .ok (next, output)) : settle step state input = next := by
  rw [settle, succeeded]

theorem settle_error {state : State} {input : Input} {error : Error}
    (failed : step state input = .error error) : settle step state input = state := by
  rw [settle, failed]

/-- What every successful step of a run preserves, together with the receipts so
far, holds at its end. -/
theorem run_induction {motive : State → List (Receipt State Input Output) → Prop}
    {initial : State} {inputs : List Input} (start : motive initial [])
    (preserved : ∀ state log input next output, motive state log → input ∈ inputs →
      step state input = .ok (next, output) →
      motive next (log ++ [⟨state, input, next, output⟩])) :
    motive (run step initial inputs) (receipts step initial inputs) := by
  have general : ∀ rest, (∀ input ∈ rest, input ∈ inputs) → ∀ state log, motive state log →
      motive (run step state rest) (log ++ receipts step state rest) := by
    intro rest
    induction rest with
    | nil =>
        intro _ state log holds
        simpa [run, receipts] using holds
    | cons input rest ih =>
        intro members state log holds
        have among := members input List.mem_cons_self
        have others : ∀ later ∈ rest, later ∈ inputs := fun later member =>
          members later (List.mem_cons_of_mem input member)
        cases taken : step state input with
        | ok result =>
            obtain ⟨next, output⟩ := result
            have later := ih others next _ (preserved state log input next output holds among taken)
            rw [List.append_assoc] at later
            simpa [run, receipts, settle, taken] using later
        | error failure =>
            simpa [run, receipts, settle, taken] using ih others state log holds
  exact general inputs (fun _ member => member) initial [] start

/-- A state invariant of every successful step is one of every run. -/
theorem run_invariant {motive : State → Prop}
    (preserved : ∀ state input next output, motive state →
      step state input = .ok (next, output) → motive next)
    {initial : State} (start : motive initial) (inputs : List Input) :
    motive (run step initial inputs) :=
  run_induction step (motive := fun state _ => motive state) start
    fun state _ input next output holds _ taken => preserved state input next output holds taken

end Machine
end QLSA
