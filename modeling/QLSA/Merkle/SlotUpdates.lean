import Mathlib.Logic.Function.Basic
import Mathlib.Data.List.Basic
import Mathlib.Order.Basic

namespace QLSA
namespace Merkle

/-!
# Sequences of checked slot updates

An update names a slot, the value it expects there and the value it leaves.
Different slots do not interact: a sequence applies to a family of values
exactly when, slot by slot, the updates of that slot form a chain from the
first value to the last.  The reading of the slot is a parameter, because one
and the same list of updates may name one slot and open another.
-/

variable {Update Slot Value : Type*} [DecidableEq Slot]
variable (expects leaves : Update → Value)

/-- The updates apply one after another, each finding the value it expects. -/
def Applies (slotOf : Update → Slot) : (Slot → Value) → List Update → (Slot → Value) → Prop
  | before, [], after => after = before
  | before, update :: rest, after =>
      before (slotOf update) = expects update ∧
        Applies slotOf (Function.update before (slotOf update) (leaves update)) rest after

/-- The same for the updates of a single slot. -/
def Chains : Value → List Update → Value → Prop
  | before, [], after => after = before
  | before, update :: rest, after => before = expects update ∧ Chains (leaves update) rest after

/-- The updates that a reading sends to one slot. -/
def updatesAt (slotOf : Update → Slot) (slot : Slot) (updates : List Update) : List Update :=
  updates.filter fun update => decide (slotOf update = slot)

theorem updatesAt_cons_self (slotOf : Update → Slot) (update : Update) (rest : List Update) :
    updatesAt slotOf (slotOf update) (update :: rest) =
      update :: updatesAt slotOf (slotOf update) rest := by
  simp [updatesAt]

theorem updatesAt_cons_of_ne (slotOf : Update → Slot) {slot : Slot} (update : Update)
    (rest : List Update) (other : slotOf update ≠ slot) :
    updatesAt slotOf slot (update :: rest) = updatesAt slotOf slot rest := by
  simp [updatesAt, other]

/-- Slots are independent. -/
theorem applies_iff_chains (slotOf : Update → Slot) (before after : Slot → Value)
    (updates : List Update) :
    Applies expects leaves slotOf before updates after ↔
      ∀ slot, Chains expects leaves (before slot) (updatesAt slotOf slot updates)
        (after slot) := by
  induction updates generalizing before with
  | nil =>
      constructor
      · intro same slot
        exact congrFun same slot
      · intro same
        exact funext same
  | cons update rest ih =>
      simp only [Applies, ih]
      constructor
      · rintro ⟨found, later⟩ slot
        by_cases own : slotOf update = slot
        · subst own
          have continued := later (slotOf update)
          rw [Function.update_self] at continued
          rw [updatesAt_cons_self]
          exact ⟨found, continued⟩
        · have continued := later slot
          rw [Function.update_of_ne (Ne.symm own)] at continued
          rwa [updatesAt_cons_of_ne slotOf update rest own]
      · intro each
        have first := each (slotOf update)
        rw [updatesAt_cons_self] at first
        refine ⟨first.1, fun slot => ?_⟩
        by_cases own : slotOf update = slot
        · subst own
          rw [Function.update_self]
          exact first.2
        · have continued := each slot
          rw [updatesAt_cons_of_ne slotOf update rest own] at continued
          rwa [Function.update_of_ne (Ne.symm own)]

/-- A non-empty chain begins at the first expected value, ends at the last one
left, and its members continue each other. -/
theorem chains_iff {before after : Value} {updates : List Update} (nonempty : updates ≠ []) :
    Chains expects leaves before updates after ↔
      updates.head?.map expects = some before ∧
        updates.IsChain (fun first second => leaves first = expects second) ∧
        updates.getLast?.map leaves = some after := by
  induction updates generalizing before with
  | nil => exact absurd rfl nonempty
  | cons update rest ih =>
      cases rest with
      | nil =>
          constructor
          · rintro ⟨found, left⟩
            exact ⟨by simp [found], by simp, by simpa using left.symm⟩
          · rintro ⟨found, -, left⟩
            exact ⟨by simpa using found.symm, by simpa [Chains] using left.symm⟩
      | cons next rest =>
          change before = expects update ∧ Chains expects leaves (leaves update) (next :: rest)
            after ↔ _
          rw [ih (List.cons_ne_nil next rest)]
          constructor
          · rintro ⟨found, head, chain, last⟩
            have linked : expects next = leaves update := by simpa using head
            exact ⟨by simp [found], List.IsChain.cons_cons linked.symm chain, by simpa using last⟩
          · rintro ⟨found, chain, last⟩
            obtain ⟨linked, later⟩ := List.isChain_cons_cons.mp chain
            exact ⟨by simpa using found.symm, by simp [linked], later, by simpa using last⟩

/-- Updates that strictly increase their slot never bring it back. -/
theorem Chains.lt_of_increasing [Preorder Value] {before after : Value}
    {updates : List Update} (chain : Chains expects leaves before updates after)
    (increasing : ∀ update ∈ updates, expects update < leaves update)
    (nonempty : updates ≠ []) : before < after := by
  induction updates generalizing before with
  | nil => exact absurd rfl nonempty
  | cons update rest ih =>
      obtain ⟨found, later⟩ := chain
      have rises : before < leaves update := found ▸ increasing update (by simp)
      cases rest with
      | nil =>
          have last : after = leaves update := later
          rwa [last]
      | cons next rest =>
          exact rises.trans (ih later (fun update member => increasing update (by simp [member]))
            (List.cons_ne_nil next rest))

end Merkle
end QLSA
