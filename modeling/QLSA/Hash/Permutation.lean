import QLSA.Machine.Numerals
import Mathlib.Algebra.Ring.Hom.Defs
import Mathlib.Data.Nat.Cast.Basic
import Mathlib.Tactic.Ring

namespace QLSA
namespace Hash

/-!
# A width-eight substitution-permutation network

States over a commutative semiring have eight cells, digests four.  Full rounds add a constant to every
cell, raise every cell to the fifth power and apply the external matrix
`[[2 M4, M4], [M4, 2 M4]]`.  Partial rounds do the same to the first cell only
and apply `J + diag(1, ..., 8)`.  The constants are an arbitrary function of
their index, so that the machine-word implementations, the arithmetization and
the abstract permutation share one definition of what is to be computed.

The external layer commutes with ring homomorphisms.  This is how machine words
are related to residues.
-/

/-- Four words: a digest, or one operand of a two-to-one compression. -/
@[ext] structure Quad (α : Type*) where
  w0 : α
  w1 : α
  w2 : α
  w3 : α
  deriving DecidableEq, Repr

/-- The eight cells of a permutation state. -/
@[ext] structure State (α : Type*) where
  s0 : α
  s1 : α
  s2 : α
  s3 : α
  s4 : α
  s5 : α
  s6 : α
  s7 : α
  deriving DecidableEq, Repr

namespace Quad

variable {α β γ : Type*}

@[simps] def map (f : α → β) (quad : Quad α) : Quad β :=
  ⟨f quad.w0, f quad.w1, f quad.w2, f quad.w3⟩

/-- A predicate holds of all four words. -/
def All (p : α → Prop) (quad : Quad α) : Prop :=
  p quad.w0 ∧ p quad.w1 ∧ p quad.w2 ∧ p quad.w3

instance (p : α → Prop) [DecidablePred p] (quad : Quad α) : Decidable (quad.All p) :=
  inferInstanceAs (Decidable (_ ∧ _ ∧ _ ∧ _))

/-- Four consecutive entries of a table. -/
@[simps] def tabulate (table : ℕ → α) (start : ℕ) : Quad α :=
  ⟨table start, table (start + 1), table (start + 2), table (start + 3)⟩

/-- Combine two quads word by word. -/
@[simps] def zipWith (f : α → β → γ) (first : Quad α) (second : Quad β) : Quad γ :=
  ⟨f first.w0 second.w0, f first.w1 second.w1, f first.w2 second.w2, f first.w3 second.w3⟩

def toList (quad : Quad α) : List α :=
  [quad.w0, quad.w1, quad.w2, quad.w3]

@[simp] theorem map_map (f : α → β) (g : β → γ) (quad : Quad α) :
    (quad.map f).map g = quad.map (g ∘ f) := rfl

end Quad

namespace State

variable {α β γ : Type*}

@[simps] def map (f : α → β) (state : State α) : State β :=
  ⟨f state.s0, f state.s1, f state.s2, f state.s3, f state.s4, f state.s5, f state.s6, f state.s7⟩

/-- Combine two states cell by cell. -/
@[simps] def zipWith (f : α → β → γ) (first : State α) (second : State β) : State γ :=
  ⟨f first.s0 second.s0, f first.s1 second.s1, f first.s2 second.s2, f first.s3 second.s3,
    f first.s4 second.s4, f first.s5 second.s5, f first.s6 second.s6, f first.s7 second.s7⟩

/-- A predicate holds of all eight cells. -/
def All (p : α → Prop) (state : State α) : Prop :=
  p state.s0 ∧ p state.s1 ∧ p state.s2 ∧ p state.s3 ∧
    p state.s4 ∧ p state.s5 ∧ p state.s6 ∧ p state.s7

def toList (state : State α) : List α :=
  [state.s0, state.s1, state.s2, state.s3, state.s4, state.s5, state.s6, state.s7]

@[simps] def left (state : State α) : Quad α :=
  ⟨state.s0, state.s1, state.s2, state.s3⟩

@[simps] def right (state : State α) : Quad α :=
  ⟨state.s4, state.s5, state.s6, state.s7⟩

/-- Two operands side by side. -/
@[simps] def ofQuads (left right : Quad α) : State α :=
  ⟨left.w0, left.w1, left.w2, left.w3, right.w0, right.w1, right.w2, right.w3⟩

/-- Eight consecutive entries of a table. -/
@[simps] def tabulate (table : ℕ → α) (start : ℕ) : State α :=
  ⟨table start, table (start + 1), table (start + 2), table (start + 3),
    table (start + 4), table (start + 5), table (start + 6), table (start + 7)⟩

theorem map_left (f : α → β) (state : State α) : (state.map f).left = state.left.map f := rfl

theorem map_ofQuads (f : α → β) (left right : Quad α) :
    (ofQuads left right).map f = ofQuads (left.map f) (right.map f) := rfl

end State

section Ring

variable {R S : Type*} [CommSemiring R] [CommSemiring S]

/-- `x ↦ x^5`. -/
def power5 (x : R) : R := x ^ 5

/-- Multiplication by `[[5,7,1,3],[4,6,1,1],[1,3,5,7],[1,1,4,6]]`. -/
@[simps] def mix4 (quad : Quad R) : Quad R :=
  ⟨5 * quad.w0 + 7 * quad.w1 + quad.w2 + 3 * quad.w3,
    4 * quad.w0 + 6 * quad.w1 + quad.w2 + quad.w3,
    quad.w0 + 3 * quad.w1 + 5 * quad.w2 + 7 * quad.w3,
    quad.w0 + quad.w1 + 4 * quad.w2 + 6 * quad.w3⟩

/-- Multiplication by `[[2 M4, M4], [M4, 2 M4]]`. -/
@[simps] def external (state : State R) : State R :=
  ⟨2 * (mix4 state.left).w0 + (mix4 state.right).w0,
    2 * (mix4 state.left).w1 + (mix4 state.right).w1,
    2 * (mix4 state.left).w2 + (mix4 state.right).w2,
    2 * (mix4 state.left).w3 + (mix4 state.right).w3,
    (mix4 state.left).w0 + 2 * (mix4 state.right).w0,
    (mix4 state.left).w1 + 2 * (mix4 state.right).w1,
    (mix4 state.left).w2 + 2 * (mix4 state.right).w2,
    (mix4 state.left).w3 + 2 * (mix4 state.right).w3⟩

/-- The sum of all cells. -/
def total (state : State R) : R :=
  state.s0 + state.s1 + state.s2 + state.s3 + state.s4 + state.s5 + state.s6 + state.s7

/-- Multiplication by `J + diag(1, ..., 8)`. -/
@[simps] def internal (state : State R) : State R :=
  ⟨total state + state.s0, total state + 2 * state.s1, total state + 3 * state.s2,
    total state + 4 * state.s3, total state + 5 * state.s4, total state + 6 * state.s5,
    total state + 7 * state.s6, total state + 8 * state.s7⟩

/-- Constants, fifth powers and external matrix on all cells. -/
def fullRound (constants state : State R) : State R :=
  external ((State.zipWith (· + ·) state constants).map power5)

/-- Constant and fifth power on the first cell, internal matrix on all. -/
def partialRound (constant : R) (state : State R) : State R :=
  internal { state with s0 := power5 (state.s0 + constant) }

/-- Number of rounds: four full, fourteen partial, four full. -/
def roundCount : ℕ := 22

/-- Round `index` of the schedule. Full rounds take eight constants each from
the front of the table, partial rounds one each from position 64 on. -/
def round (constant : ℕ → R) (index : ℕ) (state : State R) : State R :=
  if index < 4 then fullRound (State.tabulate constant (8 * index)) state
  else if index < 18 then partialRound (constant (64 + (index - 4))) state
  else fullRound (State.tabulate constant (8 * (index - 14))) state

/-- The state after the first `count` rounds. -/
def roundsFrom (constant : ℕ → R) (state : State R) : ℕ → State R
  | 0 => external state
  | count + 1 => round constant count (roundsFrom constant state count)

/-- The permutation. -/
def permute (constant : ℕ → R) (state : State R) : State R :=
  roundsFrom constant state roundCount

/-- Two-to-one compression: truncation of the permuted operands. -/
def compress (constant : ℕ → R) (left right : Quad R) : Quad R :=
  (permute constant (State.ofQuads left right)).left

/-! ## Homomorphisms -/

variable (f : R →+* S)

theorem map_mix4 (quad : Quad R) : (mix4 quad).map f = mix4 (quad.map f) := by
  ext <;> simp [map_ofNat]

theorem map_external (state : State R) : (external state).map f = external (state.map f) := by
  ext <;> simp [map_ofNat]

end Ring

end Hash
end QLSA
