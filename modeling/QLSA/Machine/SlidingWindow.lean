import Mathlib.Data.List.Basic
import Mathlib.Order.Lattice

namespace QLSA
namespace Machine

/-!
# Sliding windows

A window looks at the entries of a log of times from a bound on, and the bound
only grows.  A queue need not keep the whole log for it.  It `Covers` the log
when it has the same entries from the bound on, and it keeps doing so when old
entries are taken off its front, when it is dropped because its last entry is
old, and when both receive a new entry.
-/

variable {Time : Type*} [LinearOrder Time] {bound later now : Time} {queue log : List Time}

/-- The entries of a log from a bound on. -/
def since (bound : Time) (log : List Time) : List Time := log.filter (bound ≤ ·)

theorem mem_since {entry : Time} : entry ∈ since bound log ↔ entry ∈ log ∧ bound ≤ entry := by
  rw [since, List.mem_filter, decide_eq_true_iff]

theorem since_append (first second : List Time) :
    since bound (first ++ second) = since bound first ++ since bound second :=
  List.filter_append first second

theorem since_since (grows : bound ≤ later) : since later (since bound log) = since later log := by
  rw [since, since, since, List.filter_filter]
  refine List.filter_congr fun entry _ => ?_
  by_cases recent : later ≤ entry
  · simp [recent, grows.trans recent]
  · simp [recent]

theorem since_eq_nil (old : ∀ entry ∈ queue, entry < bound) : since bound queue = [] := by
  rw [since, List.filter_eq_nil_iff]
  intro entry member recent
  exact (old entry member).not_ge (of_decide_eq_true recent)

/-- In an ordered queue the entries before a bound are at the front. -/
theorem dropWhile_eq_since (ordered : queue.Pairwise (· ≤ ·)) :
    (queue.dropWhile (· < bound)) = since bound queue := by
  induction queue with
  | nil => rfl
  | cons first rest ih =>
      have parts := List.pairwise_cons.mp ordered
      by_cases old : first < bound
      · rw [List.dropWhile_cons_of_pos (by simpa using old), ih parts.2, since, since,
          List.filter_cons_of_neg (by simpa using old)]
      · have all : ∀ entry ∈ first :: rest, bound ≤ entry := by
          rw [List.forall_mem_cons]
          exact ⟨not_lt.mp old, fun entry member => (not_lt.mp old).trans (parts.1 entry member)⟩
        rw [List.dropWhile_cons_of_neg (by simpa using old), since,
          List.filter_eq_self.mpr fun entry member => decide_eq_true (all entry member)]

/-- An ordered queue with all entries of a log from a bound on. -/
structure Covers (bound : Time) (queue log : List Time) : Prop where
  ordered : queue.Pairwise (· ≤ ·)
  recent : since bound queue = since bound log

namespace Covers

theorem empty : Covers bound ([] : List Time) [] := ⟨List.Pairwise.nil, rfl⟩

theorem of_le (covers : Covers bound queue log) (grows : bound ≤ later) :
    Covers later queue log where
  ordered := covers.ordered
  recent := by rw [← since_since grows, covers.recent, since_since grows]

/-- Pruned at its bound, the queue holds the entries of the window and no others. -/
theorem prune_eq (covers : Covers bound queue log) :
    queue.dropWhile (· < bound) = since bound log := by
  rw [dropWhile_eq_since covers.ordered, covers.recent]

theorem prune (covers : Covers bound queue log) :
    Covers bound (queue.dropWhile (· < bound)) log where
  ordered := covers.ordered.sublist (List.dropWhile_sublist _)
  recent := by rw [covers.prune_eq, since_since le_rfl]

/-- A queue whose last entry is before the bound has nothing of the window. -/
theorem drop (covers : Covers bound queue log) (stale : ∀ last ∈ queue.getLast?, last < bound) :
    Covers bound [] log where
  ordered := List.Pairwise.nil
  recent := by
    have old : ∀ entry ∈ queue, entry < bound := by
      rcases List.eq_nil_or_concat' queue with rfl | ⟨front, last, rfl⟩
      · intro entry member
        exact absurd member List.not_mem_nil
      · have lastOld := stale last (by simp)
        intro entry member
        rcases List.mem_append.mp member with before | same
        · have parts := List.pairwise_append.mp covers.ordered
          exact (parts.2.2 entry before last (List.mem_singleton_self last)).trans_lt lastOld
        · rwa [List.mem_singleton.mp same]
    rw [← covers.recent, since_eq_nil old]
    rfl

theorem push (covers : Covers bound queue log) (past : ∀ entry ∈ queue, entry ≤ now) :
    Covers bound (queue ++ [now]) (log ++ [now]) where
  ordered := by
    refine List.pairwise_append.mpr ⟨covers.ordered, List.pairwise_singleton _ _, ?_⟩
    intro entry member added same
    rw [List.mem_singleton.mp same]
    exact past entry member
  recent := by rw [since_append, since_append, covers.recent]

end Covers

end Machine
end QLSA
