import Mathlib.Data.List.Basic
import Mathlib.Tactic.Common

namespace QLSA
namespace Machine

/-!
# Bounded queues

A queue of bounded length drops its oldest entry when it is full.  After any
additions it holds the last entries of everything that was added, `lastN`.
Entries can also be taken out by value, each time at the first place where the
value stands.  Taking out the oldest entries in this way leaves the last of the
others, whether or not the queue had dropped some already, as long as none of
them is equal to one of the others.
-/

variable {α : Type*}

/-- The last entries of a list, at most `n`. -/
def lastN (n : ℕ) (list : List α) : List α := list.drop (list.length - n)

/-- Addition to a queue of at most `n` entries. -/
def push (n : ℕ) (queue : List α) (entry : α) : List α :=
  (if queue.length = n then queue.tail else queue) ++ [entry]

theorem lastN_length (n : ℕ) (list : List α) : (lastN n list).length = min n list.length := by
  rw [lastN, List.length_drop]
  omega

theorem lastN_suffix (n : ℕ) (list : List α) : lastN n list <:+ list := List.drop_suffix _ list

theorem lastN_of_length_le {n : ℕ} {list : List α} (few : list.length ≤ n) :
    lastN n list = list := by
  rw [lastN, Nat.sub_eq_zero_of_le few, List.drop_zero]

@[simp] theorem lastN_nil (n : ℕ) : lastN n ([] : List α) = [] := List.drop_nil

/-- The last entries of two lists one after the other. -/
theorem lastN_append (n : ℕ) (first second : List α) :
    lastN n (first ++ second) = lastN (n - second.length) first ++ lastN n second := by
  rw [lastN, lastN, lastN, List.drop_append, List.length_append]
  congr 1
  · by_cases inside : second.length ≤ n
    · congr 1
      omega
    · rw [List.drop_eq_nil_of_le (by omega), List.drop_eq_nil_of_le (by omega)]
  · congr 1
    omega

theorem push_lastN {n : ℕ} (positive : 0 < n) (list : List α) (entry : α) :
    push n (lastN n list) entry = lastN n (list ++ [entry]) := by
  have single : lastN n [entry] = [entry] := lastN_of_length_le positive
  rw [lastN_append, single, push, lastN_length]
  congr 1
  split
  case isTrue full =>
    rw [lastN, lastN, List.tail_drop, List.length_singleton]
    congr 1
    omega
  case isFalse room =>
    rw [lastN_of_length_le (by omega), lastN_of_length_le]
    rw [List.length_singleton]
    omega

theorem foldl_push_lastN {n : ℕ} (positive : 0 < n) (list entries : List α) :
    entries.foldl (push n) (lastN n list) = lastN n (list ++ entries) := by
  induction entries generalizing list with
  | nil => rw [List.append_nil, List.foldl_nil]
  | cons entry rest ih =>
      rw [List.foldl_cons, push_lastN positive, ih, List.append_assoc, List.singleton_append]

section Erase

variable [BEq α] [LawfulBEq α]

/-- Entries are taken out of the front part alone when the rest has none of them. -/
theorem foldl_erase_append {entries front rest : List α}
    (within : ∀ value, front.count value ≤ entries.count value)
    (apart : ∀ value ∈ entries, value ∉ rest) :
    entries.foldl List.erase (front ++ rest) = rest := by
  induction entries generalizing front with
  | nil =>
      have none_left : front = [] := by
        rw [List.eq_nil_iff_forall_not_mem]
        intro value member
        have counted := within value
        rw [List.count_nil] at counted
        exact absurd (List.count_pos_iff.mpr member) (by omega)
      rw [none_left, List.nil_append, List.foldl_nil]
  | cons entry later ih =>
      have laterApart : ∀ value ∈ later, value ∉ rest := fun value member =>
        apart value (List.mem_cons_of_mem _ member)
      rw [List.foldl_cons]
      by_cases present : entry ∈ front
      · rw [List.erase_append_left _ present]
        refine ih (fun value => ?_) laterApart
        have counted := within value
        rw [List.count_cons] at counted
        rw [List.count_erase]
        omega
      · rw [List.erase_append_right _ present, List.erase_of_not_mem (apart entry List.mem_cons_self)]
        refine ih (fun value => ?_) laterApart
        have counted := within value
        rw [List.count_cons] at counted
        by_cases same : entry = value
        · rw [← same, List.count_eq_zero.mpr present]
          exact Nat.zero_le _
        · rw [beq_eq_false_iff_ne.mpr same] at counted
          exact counted

/-- Taking out the oldest entries leaves the last of the others. -/
theorem foldl_erase_lastN (n : ℕ) {entries rest : List α}
    (apart : ∀ value ∈ entries, value ∉ rest) :
    entries.foldl List.erase (lastN n (entries ++ rest)) = lastN n rest := by
  rw [lastN_append]
  refine foldl_erase_append (fun value => ?_) fun value member => ?_
  · exact (lastN_suffix _ entries).sublist.count_le value
  · exact fun later => apart value member ((lastN_suffix n rest).subset later)

end Erase

end Machine
end QLSA
