import QLSA.Machine.Fallible
import Mathlib.Algebra.Ring.Nat

namespace QLSA
namespace Machine

/-!
# Calls that may panic

An index outside of its list, a failed assertion or an arithmetic overflow ends
a call without a result.  Whether a call comes back is read off its steps: in a
sequence all of them have to, and in a loop each pass.
-/

/-- Why a call ended without a result. -/
inductive Panic
  | outOfBounds
  | assertion
  | overflow
  | capacity
  deriving DecidableEq, Repr

/-- The call comes back. -/
def Returns {ε α : Type*} (x : Except ε α) : Prop := ∃ a, x = .ok a

section Steps

variable {α β : Type} {ε : Type*} {x : Except ε α} {f : α → Except ε β} {p q : Prop}

theorem returns_ok (a : α) : Returns (.ok a : Except ε α) := ⟨a, rfl⟩

theorem returns_return_iff (a : α) : Returns (return a : Except ε α) ↔ True :=
  iff_of_true (returns_ok a) trivial

theorem not_returns_error (failure : ε) : ¬ Returns (.error failure : Except ε α) := by
  rintro ⟨a, done⟩
  cases done

theorem Returns.bind (first : Returns x) (later : ∀ a, Returns (f a)) : Returns (x >>= f) := by
  rcases first with ⟨a, rfl⟩
  exact later a

/-- A step that is known to come back, and with what. -/
theorem returns_known {a : α} (known : x = .ok a) (later : Returns (f a) ↔ q) :
    Returns (x >>= f) ↔ q := by
  rw [known]
  exact later

/-- A sequence whose second step comes back or not whatever the first returns. -/
theorem returns_seq (first : Returns x ↔ p) (later : ∀ a, Returns (f a) ↔ q) :
    Returns (x >>= f) ↔ p ∧ q := by
  rw [← first]
  constructor
  · rintro ⟨b, done⟩
    rcases bind_eq_ok.mp done with ⟨a, own, rest⟩
    exact ⟨⟨a, own⟩, (later a).mp ⟨b, rest⟩⟩
  · rintro ⟨⟨a, own⟩, rest⟩
    rcases (later a).mpr rest with ⟨b, done⟩
    exact ⟨b, bind_eq_ok.mpr ⟨a, own, done⟩⟩

/-- A loop comes back when each pass does. -/
theorem returns_mapM_iff {list : List α} {condition : α → Prop}
    (steps : ∀ a ∈ list, (Returns (f a) ↔ condition a)) :
    Returns (list.mapM f) ↔ ∀ a ∈ list, condition a := by
  induction list with
  | nil => simp [Returns, pure, Except.pure]
  | cons first rest ih =>
      rw [List.forall_mem_cons] at steps
      rw [List.mapM_cons, List.forall_mem_cons]
      exact returns_seq steps.1 fun b => by
        rw [returns_seq (ih steps.2) fun bs => returns_return_iff (b :: bs), and_true]

end Steps

/-- An assertion. -/
def demand (holds : Prop) [Decidable holds] : Except Panic Unit :=
  if holds then .ok () else .error .assertion

theorem demand_of {holds : Prop} [Decidable holds] (met : holds) : demand holds = .ok () :=
  if_pos met

theorem returns_demand_iff {holds : Prop} [Decidable holds] : Returns (demand holds) ↔ holds := by
  unfold demand
  split
  case isTrue met => exact iff_of_true (returns_ok _) met
  case isFalse failed => exact iff_of_false (not_returns_error _) failed

/-- An index into a list. -/
def readAt {α : Type} (list : List α) (i : ℕ) : Except Panic α :=
  match list[i]? with
  | some a => .ok a
  | none => .error .outOfBounds

theorem readAt_of_found {α : Type} {list : List α} {i : ℕ} {a : α} (found : list[i]? = some a) :
    readAt list i = .ok a := by
  rw [readAt, found]

theorem returns_readAt_iff {α : Type} {list : List α} {i : ℕ} :
    Returns (readAt list i) ↔ i < list.length := by
  rw [readAt]
  cases found : list[i]? with
  | none =>
      have beyond := List.getElem?_eq_none_iff.mp found
      exact iff_of_false (not_returns_error _) (Nat.not_lt.mpr beyond)
  | some a => exact iff_of_true (returns_ok a) (List.getElem?_eq_some_iff.mp found).1

/-- A vector with room for this many entries of 16 bytes; one of more than `isize::MAX`
bytes is refused. -/
def reserve (count : ℕ) : Except Panic Unit :=
  if 16 * count < 2 ^ 63 then .ok () else .error .capacity

theorem returns_reserve_iff {count : ℕ} : Returns (reserve count) ↔ 16 * count < 2 ^ 63 := by
  unfold reserve
  split
  case isTrue fits => exact iff_of_true (returns_ok _) fits
  case isFalse large => exact iff_of_false (not_returns_error _) large

/-- A `usize`: checked in builds with debug assertions, else modulo `2 ^ 64`. -/
def usize (debug : Bool) (a : ℕ) : Except Panic ℕ :=
  if a < 2 ^ 64 then .ok a else if debug then .error .overflow else .ok (a % 2 ^ 64)

theorem usize_of_lt {debug : Bool} {a : ℕ} (small : a < 2 ^ 64) : usize debug a = .ok a :=
  if_pos small

theorem usize_ok {debug : Bool} {a b : ℕ} (done : usize debug a = .ok b) : b = a % 2 ^ 64 := by
  unfold usize at done
  split at done
  case isTrue small =>
    cases done
    exact (Nat.mod_eq_of_lt small).symm
  case isFalse =>
    cases debug
    · cases done
      rfl
    · cases done

theorem returns_usize_iff {debug : Bool} {a : ℕ} :
    Returns (usize debug a) ↔ (debug = true → a < 2 ^ 64) := by
  unfold usize
  split
  case isTrue small => exact iff_of_true (returns_ok _) fun _ => small
  case isFalse large =>
    cases debug
    · exact iff_of_true (returns_ok _) fun checked => absurd checked Bool.false_ne_true
    · exact iff_of_false (not_returns_error _) fun checked => large (checked rfl)

end Machine
end QLSA
