import QLSA.Stwo.NonceChain

namespace QLSA
namespace Stwo

open Hash

/-!
# Applying a list of nonce updates

Updates are sorted by slot and nonce and written one after another, each with
the sibling path of its slot taken before the write.  A list can be written in
a given order exactly when every nonce rises above the one its slot holds at
that moment; in the sorted order this no longer mentions the order, and the
whole result is a function of the updates as a multiset.
-/

/-- Byte of a 32-byte hash. -/
def hashByte (senderHash : Bytes32) (k : ℕ) : ℕ :=
  senderHash.toNat >>> (8 * (31 - k)) % 256

/-- The slot of a sender: the first `depth` bits of its hash, lowest first
within the first four bytes. -/
def slotIndex (senderHash : Bytes32) (depth : ℕ) : Except String ℕ :=
  if depth = 0 ∨ maxDepth < depth then
    .error s!"depth {depth} out of range [1, {maxDepth}]"
  else
    let raw := hashByte senderHash 0 + hashByte senderHash 1 * 2 ^ 8 +
      hashByte senderHash 2 * 2 ^ 16 + hashByte senderHash 3 * 2 ^ 24
    .ok (raw &&& (1 <<< depth) - 1)

theorem slotIndex_ok (senderHash : Bytes32) {depth : ℕ} (positive : 0 < depth)
    (bounded : depth ≤ maxDepth) :
    ∃ index, slotIndex senderHash depth = .ok index ∧ index < 2 ^ depth := by
  have supported : ¬ (depth = 0 ∨ maxDepth < depth) := by omega
  rw [slotIndex, if_neg supported]
  refine ⟨_, rfl, ?_⟩
  rw [Nat.one_shiftLeft, Nat.and_two_pow_sub_one_eq_mod]
  exact Nat.mod_lt _ (Nat.two_pow_pos depth)

/-- Order on `(slot, nonce)` pairs. -/
def slotNonceLe (first second : ℕ × U64) : Bool :=
  decide (first.1 < second.1 ∨ first.1 = second.1 ∧ first.2 ≤ second.2)

section Apply

variable {Node : Type*} {hash : NonceHash Node}

namespace NonceTree

/-- Slot and nonce of every update. -/
def indexUpdates (depth : ℕ) : List (Bytes32 × U64) → Except String (List (ℕ × U64))
  | [] => .ok []
  | (senderHash, newNonce) :: rest => do
      let index ← slotIndex senderHash depth
      let indexed ← indexUpdates depth rest
      return (index, newNonce) :: indexed

variable [DecidableEq Node]

/-- The writes in the order given. The tree keeps the writes made before an
error. -/
def applyIndexed (tree : NonceTree hash) :
    List (ℕ × U64) → NonceTree hash × Except String (List (NonceTransition Node))
  | [] => (tree, .ok [])
  | (index, newNonce) :: rest =>
      let preRoot := tree.root
      let oldNonce := tree.get index
      match tree.membershipProof index with
      | .error message => (tree, .error message)
      | .ok (sibs, bits) =>
        match tree.set index newNonce with
        | .error message => (tree, .error message)
        | .ok next =>
          match next.membershipProof index with
          | .error message => (next, .error message)
          | .ok path =>
            -- the debug assertion of the loop
            if path ≠ (sibs, bits) then
              (next, .error "the sibling path moved, which would mean more than the leaf changed")
            else
              let later := applyIndexed next rest
              (later.1, later.2.map fun transitions =>
                ⟨index, oldNonce, newNonce, sibs, bits, preRoot, next.root⟩ :: transitions)

/-- `apply_updates`: all updates are sorted by slot and nonce and written in this order; the old
root, the new root and one transition for each update.  The tree is returned as the writes left
it, also with an error. -/
def applyUpdates (tree : NonceTree hash) (updates : List (Bytes32 × U64)) :
    NonceTree hash × Except String (Node × Node × List (NonceTransition Node)) :=
  match indexUpdates tree.depth updates with
  | .error message => (tree, .error message)
  | .ok indexed =>
      let applied := tree.applyIndexed (indexed.mergeSort slotNonceLe)
      (applied.1, applied.2.map fun transitions => (tree.root, applied.1.root, transitions))

end NonceTree

/-! ## Paths of slots -/

/-- The path of a slot is that of the complete tree. -/
theorem proofFrom_eq (tree : NonceTree hash) {count height : ℕ}
    (bounded : height + count ≤ tree.depth) (index : ℕ) :
    tree.proofFrom count height index =
      (Merkle.opening hash.pair tree.leaves height count index, Merkle.indexBits count index) := by
  induction count generalizing height index with
  | zero => rfl
  | succ count ih =>
      have upper : height + 1 + count ≤ tree.depth := by omega
      have above := ih upper (index / 2)
      rw [NonceTree.proofFrom, above, tree.node_eq_subtreeRoot (by omega)]
      simp only [Nat.and_one_is_mod, decide_eq_true_eq]
      rfl

theorem membershipProof_eq (tree : NonceTree hash) {index : ℕ} (inside : index < 2 ^ tree.depth) :
    tree.membershipProof index =
      .ok (Merkle.opening hash.pair tree.leaves 0 tree.depth index,
        Merkle.indexBits tree.depth index) := by
  rw [NonceTree.membershipProof, if_neg (by rw [NonceTree.slotCount_eq]; omega),
    proofFrom_eq tree (by omega)]

/-- Writing a slot leaves its own path alone. -/
theorem membershipProof_set {tree next : NonceTree hash} {index : ℕ} {nonce : U64}
    (written : tree.set index nonce = .ok next) :
    next.membershipProof index = tree.membershipProof index := by
  rcases NonceTree.set_spec written with ⟨inside, -, depths, values⟩
  have leaves : next.leaves = Function.update tree.leaves index (hash.leaf nonce) := by
    change hash.leaf ∘ next.get = _
    rw [values]
    exact Function.comp_update hash.leaf tree.get index nonce
  have path := Merkle.opening_update hash.pair tree.leaves index (hash.leaf nonce) 0 tree.depth
  rw [pow_zero, Nat.div_one] at path
  rw [membershipProof_eq tree inside, membershipProof_eq next (by rw [depths]; exact inside),
    leaves, depths, path]

/-! ## One write and a run of them -/

/-- The link that a write leaves behind. -/
def linkAt (tree next : NonceTree hash) (index : ℕ) (newNonce : U64) : NonceTransition Node where
  index := index
  oldNonce := tree.get index
  newNonce := newNonce
  sibs := Merkle.opening hash.pair tree.leaves 0 tree.depth index
  bits := Merkle.indexBits tree.depth index
  preRoot := tree.root
  postRoot := next.root

section Decidable

variable [DecidableEq Node]

/-- A successful write is one link, verified by the reference. -/
theorem linkAt_verifies {tree next : NonceTree hash} {index : ℕ} {newNonce : U64}
    (written : tree.set index newNonce = .ok next) :
    verifyTransition hash (linkAt tree next index newNonce) = true := by
  rcases NonceTree.set_spec written with ⟨inside, rises, depths, values⟩
  have before := Merkle.pathRoot_opening hash.pair tree.leaves 0 tree.depth index
  have after := Merkle.pathRoot_opening_replaced hash.pair tree.leaves (hash.leaf newNonce) inside
  have leaves : next.leaves = Function.update tree.leaves index (hash.leaf newNonce) := by
    change hash.leaf ∘ next.get = _
    rw [values]
    exact Function.comp_update hash.leaf tree.get index newNonce
  rw [Nat.zero_add, Nat.div_eq_of_lt inside] at before
  rw [verifyTransition_iff]
  refine ⟨rises, ?_, ?_, ?_⟩
  · simp [linkAt]
  · exact before.trans tree.root_eq_subtreeRoot.symm
  · rw [linkAt, after, next.root_eq_subtreeRoot, leaves, depths]

theorem applyIndexed_cons {tree next : NonceTree hash} {index : ℕ} {newNonce : U64}
    (written : tree.set index newNonce = .ok next) (rest : List (ℕ × U64)) :
    tree.applyIndexed ((index, newNonce) :: rest) =
      ((next.applyIndexed rest).1,
        (next.applyIndexed rest).2.map (linkAt tree next index newNonce :: ·)) := by
  have own := membershipProof_eq tree (NonceTree.set_spec written).1
  have same := (membershipProof_set written).trans own
  rw [NonceTree.applyIndexed]
  simp only [own, written, same, ne_eq, not_true_eq_false, if_false]
  rfl

theorem applyIndexed_cons_error {tree : NonceTree hash} {index : ℕ} {newNonce : U64}
    (inside : index < 2 ^ tree.depth) (low : newNonce ≤ tree.get index)
    (rest : List (ℕ × U64)) :
    ∃ message, (tree.applyIndexed ((index, newNonce) :: rest)).2 = .error message := by
  have count := tree.slotCount_eq
  have refused : tree.set index newNonce = .error
      s!"nonce must strictly increase: slot {index} holds {tree.get index}, got {newNonce}" := by
    rw [NonceTree.set, dif_neg (by omega), if_pos low]
  rw [NonceTree.applyIndexed, membershipProof_eq tree inside, refused]
  exact ⟨_, rfl⟩

end Decidable

/-- Every nonce rises above the one its slot holds when its turn comes. -/
def Rising : (ℕ → U64) → List (ℕ × U64) → Prop
  | _, [] => True
  | nonces, (index, newNonce) :: rest =>
      nonces index < newNonce ∧ Rising (Function.update nonces index newNonce) rest

/-- The slots after all writes. -/
def nonceAfter (nonces : ℕ → U64) (indexed : List (ℕ × U64)) : ℕ → U64 :=
  indexed.foldl (fun nonces entry => Function.update nonces entry.1 entry.2) nonces

section Run

variable [DecidableEq Node]

/-- Rising updates are written, linked and verified. The induction is on the
updates, with the tree before them arbitrary. -/
theorem applyIndexed_of_rising {tree : NonceTree hash} {indexed : List (ℕ × U64)}
    (inside : ∀ entry ∈ indexed, entry.1 < 2 ^ tree.depth) (rising : Rising tree.get indexed) :
    ∃ after transitions, tree.applyIndexed indexed = (after, .ok transitions) ∧
      after.get = nonceAfter tree.get indexed ∧
      verifyChain hash transitions tree.root after.root = true := by
  induction indexed generalizing tree with
  | nil => exact ⟨tree, [], rfl, rfl, decide_eq_true rfl⟩
  | cons entry rest ih =>
      rcases entry with ⟨index, newNonce⟩
      rcases rising with ⟨rises, later⟩
      rcases NonceTree.set_succeeds (inside _ List.mem_cons_self) rises with ⟨next, written⟩
      rcases NonceTree.set_spec written with ⟨-, -, depths, values⟩
      rw [← values] at later
      have laterInside : ∀ entry ∈ rest, entry.1 < 2 ^ next.depth := by
        intro entry member
        rw [depths]
        exact inside entry (List.mem_cons_of_mem _ member)
      rcases ih laterInside later with ⟨after, transitions, applied, reached, chained⟩
      refine ⟨after, linkAt tree next index newNonce :: transitions, ?_, ?_, ?_⟩
      · rw [applyIndexed_cons written, applied]
        rfl
      · rw [reached, values]
        rfl
      · exact (verifyChain_cons_iff hash _ _ _ _).mpr ⟨rfl, linkAt_verifies written, chained⟩

/-- What was written without an error is a chain of links of trees of one depth. -/
theorem applyIndexed_links {tree after : NonceTree hash} {indexed : List (ℕ × U64)}
    {transitions : List (NonceTransition Node)}
    (applied : tree.applyIndexed indexed = (after, .ok transitions)) :
    transitions.length = indexed.length ∧
      verifyChain hash transitions tree.root after.root = true ∧
      ∀ t ∈ transitions, ∃ (own next : NonceTree hash) (index : ℕ) (nonce : U64),
        own.depth = tree.depth ∧ own.set index nonce = .ok next ∧
          t = linkAt own next index nonce := by
  induction indexed generalizing tree transitions with
  | nil =>
      cases applied
      exact ⟨rfl, decide_eq_true rfl, nofun⟩
  | cons entry rest ih =>
      rcases entry with ⟨index, newNonce⟩
      cases written : tree.set index newNonce with
      | error message =>
          rw [NonceTree.applyIndexed] at applied
          dsimp only at applied
          rw [written] at applied
          split at applied <;> cases applied
      | ok next =>
          rw [applyIndexed_cons written] at applied
          cases later : next.applyIndexed rest with
          | mk final result =>
              rw [later] at applied
              cases result with
              | error message => cases applied
              | ok links =>
                  cases applied
                  rcases ih later with ⟨count, chained, each⟩
                  have depths := (NonceTree.set_spec written).2.2.1
                  refine ⟨congrArg Nat.succ count, ?_, ?_⟩
                  · exact (verifyChain_cons_iff hash _ _ _ _).mpr
                      ⟨rfl, linkAt_verifies written, chained⟩
                  · rw [List.forall_mem_cons]
                    refine ⟨⟨tree, next, index, newNonce, rfl, written, rfl⟩, ?_⟩
                    intro t member
                    rcases each t member with ⟨own, other, slot, nonce, depth, made⟩
                    exact ⟨own, other, slot, nonce, depth.trans depths, made⟩

theorem applyIndexed_error {tree : NonceTree hash} {indexed : List (ℕ × U64)}
    (inside : ∀ entry ∈ indexed, entry.1 < 2 ^ tree.depth)
    (stuck : ¬ Rising tree.get indexed) :
    ∃ message, (tree.applyIndexed indexed).2 = .error message := by
  induction indexed generalizing tree with
  | nil => exact absurd trivial stuck
  | cons entry rest ih =>
      rcases entry with ⟨index, newNonce⟩
      have own := inside _ List.mem_cons_self
      by_cases rises : tree.get index < newNonce
      · rcases NonceTree.set_succeeds own rises with ⟨next, written⟩
        rcases NonceTree.set_spec written with ⟨-, -, depths, values⟩
        have later : ¬ Rising next.get rest := by
          rw [values]
          exact fun rising => stuck ⟨rises, rising⟩
        have laterInside : ∀ entry ∈ rest, entry.1 < 2 ^ next.depth := by
          intro entry member
          rw [depths]
          exact inside entry (List.mem_cons_of_mem _ member)
        rcases ih laterInside later with ⟨message, failed⟩
        exact ⟨message, by rw [applyIndexed_cons written, failed]; rfl⟩
      · exact applyIndexed_cons_error own (not_lt.mp rises) rest

end Run

/-! ## The canonical order -/

/-- Rising without reference to an order of different slots: every nonce is
above the stored one, and the nonces of one slot ascend. -/
theorem rising_iff {nonces : ℕ → U64} {indexed : List (ℕ × U64)} :
    Rising nonces indexed ↔
      (∀ entry ∈ indexed, nonces entry.1 < entry.2) ∧
        indexed.Pairwise fun first second => first.1 = second.1 → first.2 < second.2 := by
  induction indexed generalizing nonces with
  | nil => simp [Rising]
  | cons entry rest ih =>
      rcases entry with ⟨index, newNonce⟩
      simp only [Rising, ih, List.forall_mem_cons, List.pairwise_cons]
      constructor
      · rintro ⟨rises, later, ascending⟩
        refine ⟨⟨rises, ?_⟩, ?_, ascending⟩
        · intro entry member
          have above := later entry member
          by_cases same : entry.1 = index
          · rw [same, Function.update_self] at above
            rw [same]
            exact rises.trans above
          · rwa [Function.update_of_ne same] at above
        · rintro entry member rfl
          have above := later entry member
          rwa [Function.update_self] at above
      · rintro ⟨⟨rises, above⟩, first, ascending⟩
        refine ⟨rises, ?_, ascending⟩
        intro entry member
        by_cases same : entry.1 = index
        · rw [same, Function.update_self]
          exact first entry member same.symm
        · rw [Function.update_of_ne same]
          exact above entry member

theorem slotNonceLe_total (first second : ℕ × U64) :
    (slotNonceLe first second || slotNonceLe second first) = true := by
  simp only [slotNonceLe, Bool.or_eq_true, decide_eq_true_eq]
  rcases Nat.lt_trichotomy first.1 second.1 with below | same | above
  · exact .inl (.inl below)
  · rcases le_total first.2 second.2 with up | down
    · exact .inl (.inr ⟨same, up⟩)
    · exact .inr (.inr ⟨same.symm, down⟩)
  · exact .inr (.inl above)

theorem slotNonceLe_trans (first second third : ℕ × U64)
    (lower : slotNonceLe first second = true) (upper : slotNonceLe second third = true) :
    slotNonceLe first third = true := by
  simp only [slotNonceLe, decide_eq_true_eq] at lower upper ⊢
  rcases lower with below | ⟨same, up⟩
  · rcases upper with further | ⟨equal, -⟩
    · exact .inl (below.trans further)
    · exact .inl (equal ▸ below)
  · rcases upper with further | ⟨equal, higher⟩
    · exact .inl (same ▸ further)
    · exact .inr ⟨same.trans equal, up.trans higher⟩

theorem slotNonceLe_antisymm (first second : ℕ × U64)
    (lower : slotNonceLe first second = true) (upper : slotNonceLe second first = true) :
    first = second := by
  simp only [slotNonceLe, decide_eq_true_eq] at lower upper
  have slots : first.1 = second.1 := by omega
  rcases lower with below | ⟨-, up⟩
  · omega
  · rcases upper with below | ⟨-, down⟩
    · omega
    · exact Prod.ext slots (le_antisymm up down)

theorem sorted_pairwise (indexed : List (ℕ × U64)) :
    (indexed.mergeSort slotNonceLe).Pairwise (slotNonceLe · · = true) :=
  List.pairwise_mergeSort slotNonceLe_trans slotNonceLe_total indexed

/-- The sorted list does not depend on the order of the updates. -/
theorem mergeSort_eq_of_perm {first second : List (ℕ × U64)} (permuted : first.Perm second) :
    first.mergeSort slotNonceLe = second.mergeSort slotNonceLe := by
  have same : (first.mergeSort slotNonceLe).Perm (second.mergeSort slotNonceLe) :=
    (List.mergeSort_perm first _).trans (permuted.trans (List.mergeSort_perm second _).symm)
  exact same.eq_of_pairwise (fun a b _ _ => slotNonceLe_antisymm a b) (sorted_pairwise first)
    (sorted_pairwise second)

/-- In canonical order updates rise exactly when each is above the stored
nonce and no pair occurs twice. -/
theorem rising_mergeSort_iff (nonces : ℕ → U64) (indexed : List (ℕ × U64)) :
    Rising nonces (indexed.mergeSort slotNonceLe) ↔
      (∀ entry ∈ indexed, nonces entry.1 < entry.2) ∧ indexed.Nodup := by
  have permuted := List.mergeSort_perm indexed slotNonceLe
  rw [rising_iff, ← permuted.nodup_iff]
  have stored : (∀ entry ∈ indexed.mergeSort slotNonceLe, nonces entry.1 < entry.2) ↔
      ∀ entry ∈ indexed, nonces entry.1 < entry.2 := by
    simp only [List.mem_mergeSort]
  have ascending : ((indexed.mergeSort slotNonceLe).Pairwise fun first second =>
      first.1 = second.1 → first.2 < second.2) ↔ (indexed.mergeSort slotNonceLe).Nodup := by
    constructor
    · intro strict
      apply strict.imp
      rintro first second rises rfl
      exact lt_irrefl _ (rises rfl)
    · intro distinct
      apply ((sorted_pairwise indexed).and distinct).imp
      rintro first second ⟨ordered, different⟩ same
      simp only [slotNonceLe, decide_eq_true_eq] at ordered
      rcases ordered with below | ⟨-, up⟩
      · omega
      · exact lt_of_le_of_ne up fun equal => different (Prod.ext same equal)
  rw [stored, ascending]

/-- The nonces that a list addresses to a slot. -/
def addressed (indexed : List (ℕ × U64)) (slot : ℕ) : List U64 :=
  (indexed.filter fun entry => decide (entry.1 = slot)).map Prod.snd

/-- After rising updates a slot holds the highest nonce addressed to it. -/
theorem nonceAfter_of_rising {nonces : ℕ → U64} {indexed : List (ℕ × U64)}
    (rising : Rising nonces indexed) (slot : ℕ) :
    nonceAfter nonces indexed slot = ((addressed indexed slot).max?).getD (nonces slot) := by
  induction indexed generalizing nonces with
  | nil => rfl
  | cons entry rest ih =>
      rcases entry with ⟨index, newNonce⟩
      have above := (rising_iff.mp rising.2).1
      have later := ih rising.2
      change nonceAfter (Function.update nonces index newNonce) rest slot = _
      rw [later]
      by_cases own : index = slot
      · subst own
        have listed : addressed ((index, newNonce) :: rest) index =
            newNonce :: addressed rest index := by simp [addressed]
        rw [Function.update_self, listed, List.max?_cons]
        cases top : (addressed rest index).max? with
        | none => rfl
        | some highest =>
            have member := List.max?_mem top
            rcases List.mem_map.mp member with ⟨⟨slot, nonce⟩, listed, same⟩
            rcases List.mem_filter.mp listed with ⟨inside, place⟩
            have rises := above _ inside
            have slots : slot = index := of_decide_eq_true place
            change nonce = highest at same
            change Function.update nonces index newNonce slot < nonce at rises
            rw [slots, Function.update_self, same] at rises
            exact (max_eq_right rises.le).symm
      · have listed : addressed ((index, newNonce) :: rest) slot = addressed rest slot := by
          simp [addressed, own]
        rw [Function.update_of_ne (Ne.symm own), listed]

theorem addressed_perm_max {first second : List (ℕ × U64)} (permuted : first.Perm second)
    (slot : ℕ) : (addressed first slot).max? = (addressed second slot).max? := by
  have same : (addressed first slot).Perm (addressed second slot) :=
    (permuted.filter _).map Prod.snd
  cases top : (addressed second slot).max? with
  | none =>
      rw [List.max?_eq_none_iff] at top ⊢
      rw [top] at same
      exact same.eq_nil
  | some highest =>
      rw [List.max?_eq_some_iff] at top ⊢
      refine ⟨same.mem_iff.mpr top.1, ?_⟩
      intro nonce member
      exact top.2 nonce (same.mem_iff.mp member)

/-! ## The updates of a tree -/

/-- Slot and nonce of an update in a tree of a supported depth. -/
def slotOf (depth : ℕ) (senderHash : Bytes32) : ℕ :=
  match slotIndex senderHash depth with
  | .ok index => index
  | .error _ => 0

theorem slotOf_lt (tree : NonceTree hash) (senderHash : Bytes32) :
    slotOf tree.depth senderHash < 2 ^ tree.depth := by
  rcases slotIndex_ok senderHash tree.depth_pos tree.depth_le with ⟨index, found, inside⟩
  rw [slotOf, found]
  exact inside

/-- Slots and nonces of the updates of a tree. -/
def addressedSlots (depth : ℕ) (updates : List (Bytes32 × U64)) : List (ℕ × U64) :=
  updates.map fun update => (slotOf depth update.1, update.2)

theorem indexUpdates_eq (tree : NonceTree hash) (updates : List (Bytes32 × U64)) :
    NonceTree.indexUpdates tree.depth updates = .ok (addressedSlots tree.depth updates) := by
  induction updates with
  | nil => rfl
  | cons update rest ih =>
      rcases update with ⟨senderHash, newNonce⟩
      rcases slotIndex_ok senderHash tree.depth_pos tree.depth_le with ⟨index, found, -⟩
      have own : slotOf tree.depth senderHash = index := by rw [slotOf, found]
      have listed : addressedSlots tree.depth ((senderHash, newNonce) :: rest) =
          (index, newNonce) :: addressedSlots tree.depth rest := by
        rw [addressedSlots, List.map_cons, own]
        rfl
      rw [NonceTree.indexUpdates, found, ih, listed]
      rfl

theorem addressedSlots_lt (tree : NonceTree hash) (updates : List (Bytes32 × U64)) :
    ∀ entry ∈ (addressedSlots tree.depth updates).mergeSort slotNonceLe,
      entry.1 < 2 ^ tree.depth := by
  intro entry member
  rw [List.mem_mergeSort] at member
  rcases List.mem_map.mp member with ⟨update, -, rfl⟩
  exact slotOf_lt tree update.1

variable [DecidableEq Node]

/-- A successful call returns the roots before and after, links that verify,
and a tree in which every slot holds the highest nonce addressed to it; any
order of the updates gives the same. The call fails exactly when a pair of slot
and nonce occurs twice or a nonce is not above the stored one. -/
theorem applyUpdates_canonical (tree : NonceTree hash) (updates : List (Bytes32 × U64)) :
    (∀ after oldRoot newRoot transitions,
      tree.applyUpdates updates = (after, .ok (oldRoot, newRoot, transitions)) →
      oldRoot = tree.root ∧ newRoot = after.root ∧
      verifyChain hash transitions oldRoot newRoot = true ∧
      (∀ slot, after.get slot =
        ((addressed (addressedSlots tree.depth updates) slot).max?).getD (tree.get slot)) ∧
      ∀ permuted : List (Bytes32 × U64), permuted.Perm updates →
        tree.applyUpdates permuted = (after, .ok (oldRoot, newRoot, transitions))) ∧
    ((∃ message, (tree.applyUpdates updates).2 = .error message) ↔
      ¬ (addressedSlots tree.depth updates).Nodup ∨
        ∃ entry ∈ addressedSlots tree.depth updates, entry.2 ≤ tree.get entry.1) := by
  have inside := addressedSlots_lt tree updates
  have rising := rising_mergeSort_iff tree.get (addressedSlots tree.depth updates)
  by_cases writable : Rising tree.get
      ((addressedSlots tree.depth updates).mergeSort slotNonceLe)
  · rcases applyIndexed_of_rising inside writable with ⟨final, links, applied, reached, chained⟩
    have result : tree.applyUpdates updates = (final, .ok (tree.root, final.root, links)) := by
      rw [NonceTree.applyUpdates, indexUpdates_eq]
      simp only [applied]
      rfl
    constructor
    · intro after oldRoot newRoot transitions returned
      rw [result] at returned
      simp only [Prod.mk.injEq, Except.ok.injEq] at returned
      rcases returned with ⟨rfl, rfl, rfl, rfl⟩
      refine ⟨rfl, rfl, chained, ?_, ?_⟩
      · intro slot
        rw [reached, nonceAfter_of_rising writable,
          addressed_perm_max (List.mergeSort_perm _ slotNonceLe)]
      · intro permuted same
        have sorted := mergeSort_eq_of_perm
          (same.map fun update => (slotOf tree.depth update.1, update.2))
        rw [← result, NonceTree.applyUpdates, NonceTree.applyUpdates, indexUpdates_eq,
          indexUpdates_eq]
        simp only [addressedSlots, sorted]
    · constructor
      · rintro ⟨message, failed⟩
        rw [result] at failed
        exact absurd failed (by simp)
      · intro blocked
        rcases rising.mp writable with ⟨above, distinct⟩
        rcases blocked with repeated | ⟨entry, member, low⟩
        · exact absurd distinct repeated
        · exact absurd (above entry member) (not_lt.mpr low)
  · rcases applyIndexed_error inside writable with ⟨message, failed⟩
    have result : (tree.applyUpdates updates).2 = .error message := by
      rw [NonceTree.applyUpdates, indexUpdates_eq]
      simp only [failed]
      rfl
    constructor
    · intro after oldRoot newRoot transitions returned
      rw [returned] at result
      exact absurd result (by simp)
    · refine ⟨fun _ => ?_, fun _ => ⟨message, result⟩⟩
      by_contra clear
      rw [not_or] at clear
      apply writable
      apply rising.mpr
      refine ⟨?_, not_not.mp clear.1⟩
      intro entry member
      by_contra low
      exact clear.2 ⟨entry, member, not_lt.mp low⟩

end Apply

end Stwo
end QLSA
