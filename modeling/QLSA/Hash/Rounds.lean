import QLSA.Hash.Poseidon2

namespace QLSA
namespace Hash

open Matrix

/-!
# The permutation round by round

A circuit spends a row on every round, so the permutation of a width is listed
here by the state after each of its twenty-two rounds.
-/

section Rounds

variable {F : Type*} [CommRing F] {t : ℕ} [NeZero t] (constant : ℕ → F)

/-- Round `r` of the schedule. -/
def step (r : ℕ) (s : Fin t → F) : Fin t → F :=
  if r < 4 then externalStep constant s r
  else if r < 18 then internalStep constant s (r - 4)
  else externalStep constant s (r - 14)

/-- The state after the first `count` rounds. -/
def stepsFrom (s : Fin t → F) : ℕ → Fin t → F
  | 0 => externalMatrix t *ᵥ s
  | count + 1 => step constant count (stepsFrom s count)

theorem stepsFrom_zero (s : Fin t → F) : stepsFrom constant s 0 = externalMatrix t *ᵥ s := rfl

theorem stepsFrom_succ (s : Fin t → F) (count : ℕ) :
    stepsFrom constant s (count + 1) = step constant count (stepsFrom constant s count) := rfl

/-- Rounds of one kind are a loop of their own. -/
theorem stepsFrom_add {kind : (Fin t → F) → ℕ → Fin t → F} {first count : ℕ} (s : Fin t → F)
    (own : ∀ k < count, ∀ s, step constant (first + k) s = kind s k) :
    stepsFrom constant s (first + count) =
      (List.range count).foldl kind (stepsFrom constant s first) := by
  induction count with
  | zero => rfl
  | succ count ih =>
      rw [List.range_succ, List.foldl_append, ← ih fun k early => own k (by omega), ← Nat.add_assoc,
        stepsFrom_succ, own count (Nat.lt_succ_self count)]
      rfl

/-- All rounds are the permutation. -/
theorem stepsFrom_all (s : Fin t → F) : stepsFrom constant s 22 = poseidon2 constant s := by
  have front : stepsFrom constant s (0 + 4) = (List.range 4).foldl (externalStep constant)
      (stepsFrom constant s 0) := by
    apply stepsFrom_add
    intro k early s
    rw [Nat.zero_add, step, if_pos early]
  have middle : stepsFrom constant s (4 + 14) = (List.range 14).foldl (internalStep constant)
      (stepsFrom constant s 4) := by
    apply stepsFrom_add
    intro k early s
    rw [step, if_neg (by omega), if_pos (by omega), Nat.add_sub_cancel_left]
  have back : stepsFrom constant s (18 + 4) = (List.range 4).foldl
      (fun s k => externalStep constant s (4 + k)) (stepsFrom constant s 18) := by
    apply stepsFrom_add
    intro k early s
    have position : 18 + k - 14 = 4 + k := by omega
    rw [step, if_neg (by omega), if_neg (by omega), position]
  rw [show 22 = 18 + 4 from rfl, back, show 18 = 4 + 14 from rfl, middle, show 4 = 0 + 4 from rfl,
    front]
  rfl

end Rounds

end Hash
end QLSA
