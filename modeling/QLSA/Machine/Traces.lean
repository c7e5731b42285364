import Mathlib.Order.Basic

namespace QLSA
namespace Machine

/-!
# Conditions along a run

A run feeds inputs to a total step function.  A condition may be asked of every
input together with the state it meets, `Along`, or of every state on the way,
`Always`.  An invariant that a step keeps under a condition holds always when
the condition holds along; where a step that misses the condition also breaks
the invariant, the two are the same.
-/

variable {State Input : Type*} (next : State → Input → State)

/-- Every input meets its condition in the state it is fed to. -/
def Along (meets : State → Input → Prop) : State → List Input → Prop
  | _, [] => True
  | state, input :: rest => meets state input ∧ Along meets (next state input) rest

/-- Every state of the run, the first one included. -/
def Always (holds : State → Prop) : State → List Input → Prop
  | state, [] => holds state
  | state, input :: rest => holds state ∧ Always holds (next state input) rest

variable {next}

theorem Always.start {holds : State → Prop} {state : State} {inputs : List Input}
    (always : Always next holds state inputs) : holds state := by
  cases inputs with
  | nil => exact always
  | cons input rest => exact always.1

theorem Always.imp {holds weaker : State → Prop} (step : ∀ state, holds state → weaker state)
    {state : State} {inputs : List Input} (always : Always next holds state inputs) :
    Always next weaker state inputs := by
  induction inputs generalizing state with
  | nil => exact step state always
  | cons input rest ih => exact ⟨step state always.1, ih always.2⟩

theorem along_append_iff {meets : State → Input → Prop} {state : State} {first second : List Input} :
    Along next meets state (first ++ second) ↔
      Along next meets state first ∧ Along next meets (first.foldl next state) second := by
  induction first generalizing state with
  | nil => exact ⟨fun along => ⟨trivial, along⟩, fun along => along.2⟩
  | cons input rest ih =>
      rw [List.cons_append, Along, ih, ← and_assoc]
      rfl

theorem Along.and {first second : State → Input → Prop} {state : State} {inputs : List Input}
    (left : Along next first state inputs) (right : Along next second state inputs) :
    Along next (fun state input => first state input ∧ second state input) state inputs := by
  induction inputs generalizing state with
  | nil => trivial
  | cons input rest ih => exact ⟨⟨left.1, right.1⟩, ih left.2 right.2⟩

/-- A conditional invariant of the steps is one of the runs. -/
theorem always_of_along {meets : State → Input → Prop} {holds : State → Prop}
    (kept : ∀ state input, holds state → meets state input → holds (next state input))
    {state : State} {inputs : List Input} (start : holds state)
    (along : Along next meets state inputs) : Always next holds state inputs := by
  induction inputs generalizing state with
  | nil => exact start
  | cons input rest ih => exact ⟨start, ih (kept state input start along.1) along.2⟩

/-- A condition that no step misses without breaking the invariant. -/
theorem along_of_always {meets : State → Input → Prop} {holds : State → Prop}
    (needed : ∀ state input, holds (next state input) → meets state input)
    {state : State} {inputs : List Input} (always : Always next holds state inputs) :
    Along next meets state inputs := by
  induction inputs generalizing state with
  | nil => trivial
  | cons input rest ih => exact ⟨needed state input always.2.start, ih always.2⟩

end Machine
end QLSA
