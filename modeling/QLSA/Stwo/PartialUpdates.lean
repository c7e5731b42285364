import QLSA.Stwo.NonceUpdates

namespace QLSA
namespace Stwo

/-!
# What a failed call leaves behind

The updates are written into the tree itself, in canonical order, and the first
one that cannot be written ends the call.  Those before it stay.  Writes only
raise nonces, so a failed call leaves the tree as it was exactly when it fails
at the least of its updates.
-/

section Partial

variable {Node : Type*} {hash : NonceHash Node}

/-- The least entry of a list comes first in its canonical order. -/
theorem mergeSort_eq_cons {indexed : List (ℕ × U64)} {first : ℕ × U64} (member : first ∈ indexed)
    (least : ∀ entry ∈ indexed, slotNonceLe first entry = true) :
    ∃ rest, indexed.mergeSort slotNonceLe = first :: rest := by
  have ordered := sorted_pairwise indexed
  have listed : first ∈ indexed.mergeSort slotNonceLe := List.mem_mergeSort.mpr member
  cases sorted : indexed.mergeSort slotNonceLe with
  | nil =>
      rw [sorted] at listed
      cases listed
  | cons head rest =>
      have headListed : head ∈ indexed.mergeSort slotNonceLe := by
        rw [sorted]
        exact List.mem_cons_self
      have headMember : head ∈ indexed := List.mem_mergeSort.mp headListed
      rw [sorted] at ordered listed
      rcases List.mem_cons.mp listed with same | later
      · exact ⟨rest, by rw [same]⟩
      · have below := (List.pairwise_cons.mp ordered).1 first later
        have same := slotNonceLe_antisymm head first below (least head headMember)
        exact ⟨rest, by rw [same]⟩

/-- The first entry in canonical order is the least. -/
theorem least_of_mergeSort {indexed rest : List (ℕ × U64)} {first : ℕ × U64}
    (sorted : indexed.mergeSort slotNonceLe = first :: rest) :
    first ∈ indexed ∧ ∀ entry ∈ indexed, slotNonceLe first entry = true := by
  have ordered := sorted_pairwise indexed
  have same (entry : ℕ × U64) : entry ∈ indexed ↔ entry ∈ first :: rest := by
    rw [← sorted, List.mem_mergeSort]
  rw [sorted] at ordered
  refine ⟨(same first).mpr List.mem_cons_self, ?_⟩
  intro entry member
  rcases List.mem_cons.mp ((same entry).mp member) with rfl | later
  · have total := slotNonceLe_total entry entry
    rwa [Bool.or_self] at total
  · exact (List.pairwise_cons.mp ordered).1 entry later

variable [DecidableEq Node]

/-- A list whose first entry cannot be written leaves the tree alone. -/
theorem applyIndexed_refused {tree : NonceTree hash} {first : ℕ × U64}
    (inside : first.1 < 2 ^ tree.depth) (low : first.2 ≤ tree.get first.1)
    (rest : List (ℕ × U64)) : (tree.applyIndexed (first :: rest)).1 = tree := by
  rcases first with ⟨index, newNonce⟩
  have count := tree.slotCount_eq
  have refused : tree.set index newNonce = .error
      s!"nonce must strictly increase: slot {index} holds {tree.get index}, got {newNonce}" := by
    rw [NonceTree.set, dif_neg (by omega), if_pos low]
  rw [NonceTree.applyIndexed, membershipProof_eq tree inside, refused]

/-- Whether or not the call fails, no nonce falls. -/
theorem get_le_applyIndexed {tree : NonceTree hash} {indexed : List (ℕ × U64)}
    (inside : ∀ entry ∈ indexed, entry.1 < 2 ^ tree.depth) (slot : ℕ) :
    tree.get slot ≤ (tree.applyIndexed indexed).1.get slot := by
  induction indexed generalizing tree with
  | nil => exact le_refl _
  | cons entry rest ih =>
      have own := inside _ List.mem_cons_self
      by_cases rises : tree.get entry.1 < entry.2
      · rcases NonceTree.set_succeeds own rises with ⟨next, written⟩
        rcases NonceTree.set_spec written with ⟨-, -, depths, values⟩
        have laterInside : ∀ later ∈ rest, later.1 < 2 ^ next.depth := by
          intro later member
          rw [depths]
          exact inside later (List.mem_cons_of_mem _ member)
        have step : tree.get slot ≤ next.get slot := by
          rw [values]
          by_cases same : slot = entry.1
          · rw [same, Function.update_self]
            exact rises.le
          · rw [Function.update_of_ne same]
        rw [applyIndexed_cons written]
        exact step.trans (ih laterInside)
      · rw [applyIndexed_refused own (not_lt.mp rises)]

/-- A first entry that can be written is written, and stays. -/
theorem lt_applyIndexed_cons {tree : NonceTree hash} {first : ℕ × U64} {rest : List (ℕ × U64)}
    (inside : ∀ entry ∈ first :: rest, entry.1 < 2 ^ tree.depth)
    (rises : tree.get first.1 < first.2) :
    tree.get first.1 < (tree.applyIndexed (first :: rest)).1.get first.1 := by
  rcases NonceTree.set_succeeds (inside _ List.mem_cons_self) rises with ⟨next, written⟩
  rcases NonceTree.set_spec written with ⟨-, -, depths, values⟩
  have laterInside : ∀ later ∈ rest, later.1 < 2 ^ next.depth := by
    intro later member
    rw [depths]
    exact inside later (List.mem_cons_of_mem _ member)
  have kept := get_le_applyIndexed laterInside first.1
  rw [values, Function.update_self] at kept
  rw [applyIndexed_cons written]
  exact rises.trans_le kept

theorem applyUpdates_eq (tree : NonceTree hash) (updates : List (Bytes32 × U64)) :
    (tree.applyUpdates updates).1 =
        (tree.applyIndexed ((addressedSlots tree.depth updates).mergeSort slotNonceLe)).1 ∧
      ∀ message, (tree.applyUpdates updates).2 = .error message ↔
        (tree.applyIndexed ((addressedSlots tree.depth updates).mergeSort slotNonceLe)).2 =
          .error message := by
  rw [NonceTree.applyUpdates, indexUpdates_eq]
  refine ⟨rfl, ?_⟩
  intro message
  dsimp only
  cases (tree.applyIndexed ((addressedSlots tree.depth updates).mergeSort slotNonceLe)).2 with
  | error other => simp [Except.map]
  | ok transitions => simp [Except.map]

/-- A failed call leaves the tree as it was exactly when no call with these updates fails, or the
least update is the one that cannot be written.  Updates are sorted by slot and nonce and written
one after the other, and what was written before an error stays; nothing is assumed of the tree or
of the updates. -/
theorem applyUpdates_atomic_iff (tree : NonceTree hash) (updates : List (Bytes32 × U64)) :
    (∀ message, (tree.applyUpdates updates).2 = .error message →
      (∀ slot, (tree.applyUpdates updates).1.get slot = tree.get slot) ∧
      (tree.applyUpdates updates).1.root = tree.root) ↔
    ((addressedSlots tree.depth updates).Nodup ∧
        ∀ entry ∈ addressedSlots tree.depth updates, tree.get entry.1 < entry.2) ∨
      ∃ first ∈ addressedSlots tree.depth updates,
        (∀ entry ∈ addressedSlots tree.depth updates, slotNonceLe first entry = true) ∧
        first.2 ≤ tree.get first.1 := by
  have inside := addressedSlots_lt tree updates
  have rising := rising_mergeSort_iff tree.get (addressedSlots tree.depth updates)
  have call := applyUpdates_eq tree updates
  rw [call.1]
  constructor
  · intro atomic
    by_cases writable : Rising tree.get
        ((addressedSlots tree.depth updates).mergeSort slotNonceLe)
    · rcases rising.mp writable with ⟨above, distinct⟩
      exact .inl ⟨distinct, above⟩
    · right
      rcases applyIndexed_error inside writable with ⟨message, failed⟩
      have same := (atomic message ((call.2 message).mpr failed)).1
      cases sorted : (addressedSlots tree.depth updates).mergeSort slotNonceLe with
      | nil =>
          rw [sorted] at writable
          exact absurd trivial writable
      | cons first rest =>
          rcases least_of_mergeSort sorted with ⟨member, least⟩
          refine ⟨first, member, least, ?_⟩
          by_contra rises
          rw [sorted] at same inside
          have raised := lt_applyIndexed_cons inside (not_le.mp rises)
          rw [same first.1] at raised
          exact lt_irrefl _ raised
  · rintro (⟨distinct, above⟩ | ⟨first, member, least, low⟩) message failed
    · rcases applyIndexed_of_rising inside (rising.mpr ⟨above, distinct⟩) with
        ⟨after, transitions, applied, -, -⟩
      have succeeded := (call.2 message).mp failed
      rw [applied] at succeeded
      cases succeeded
    · rcases mergeSort_eq_cons member least with ⟨rest, sorted⟩
      rw [sorted] at inside ⊢
      rw [applyIndexed_refused (inside _ List.mem_cons_self) low]
      exact ⟨fun _ => rfl, rfl⟩

end Partial

/-- An update of slot 0 that can be written and one of slot 1 that cannot. -/
def mixedUpdates : List (Bytes32 × U64) := [(0, 1), (1 <<< 248, 0)]

/-- The empty tree of two slots. -/
def twoSlots : NonceTree nonceP2T8 := NonceTree.vacant nonceP2T8 1 Nat.one_pos one_le_maxDepth

/-- The call fails on slot 1 and has written slot 0. -/
theorem mixed_updates_write_slot :
    ¬ ∀ (tree : NonceTree nonceP2T8) (updates : List (Bytes32 × U64)) (message : String),
      (tree.applyUpdates updates).2 = .error message →
      (∀ slot, (tree.applyUpdates updates).1.get slot = tree.get slot) ∧
      (tree.applyUpdates updates).1.root = tree.root := by
  intro atomic
  have addressed : addressedSlots twoSlots.depth mixedUpdates = [(0, 1), (1, 0)] := by decide
  have inside := addressedSlots_lt twoSlots mixedUpdates
  have call := applyUpdates_eq twoSlots mixedUpdates
  have rising := rising_mergeSort_iff twoSlots.get (addressedSlots twoSlots.depth mixedUpdates)
  have sorted : ∃ rest, [((0 : ℕ), (1 : U64)), (1, 0)].mergeSort slotNonceLe = (0, 1) :: rest :=
    mergeSort_eq_cons (by decide) (by decide)
  rcases sorted with ⟨rest, sorted⟩
  rw [addressed] at inside call rising
  have stuck : ¬ Rising twoSlots.get ([((0 : ℕ), (1 : U64)), (1, 0)].mergeSort slotNonceLe) := by
    intro writable
    have above := (rising.mp writable).1 (1, 0) (by decide)
    exact absurd above (by decide)
  rcases applyIndexed_error inside stuck with ⟨message, failed⟩
  have same := (atomic twoSlots mixedUpdates message ((call.2 message).mpr failed)).1 0
  rw [call.1, sorted] at same
  rw [sorted] at inside
  have raised := lt_applyIndexed_cons inside (by decide)
  rw [same] at raised
  exact lt_irrefl _ raised

end Stwo
end QLSA
