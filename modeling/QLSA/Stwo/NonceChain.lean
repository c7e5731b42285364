import QLSA.Merkle.SlotUpdates
import QLSA.Stwo.NonceTree

namespace QLSA
namespace Stwo

open Hash

/-!
# Chains of nonce transitions

A transition carries a slot index, the nonces before and after, one sibling
path with its direction bits and the roots on both sides.  The reference
verifier checks the path and the linkage of the roots.  It does not compare the
index with the direction bits.

What an accepted chain does to the tree is therefore determined by the slots
its paths open.  The slots it names may be others; `SlotsAgree` says when
applying the chain at the named slots ends in the same tree.
-/

/-- One slot's nonce advancing, as one link of a chain. -/
structure NonceTransition (Node : Type*) where
  index : ℕ
  oldNonce : U64
  newNonce : U64
  sibs : List Node
  bits : List Bool
  preRoot : Node
  postRoot : Node
  deriving DecidableEq

section Verify

variable {Node : Type*} [DecidableEq Node] (hash : NonceHash Node)

def verifyTransition (t : NonceTransition Node) : Bool :=
  if t.newNonce ≤ t.oldNonce then
    false
  else if t.sibs.length ≠ t.bits.length then
    false
  else
    verifyBatchMembership hash.pair t.preRoot (hash.leaf t.oldNonce) t.sibs t.bits &&
      verifyBatchMembership hash.pair t.postRoot (hash.leaf t.newNonce) t.sibs t.bits

/-- The loop of `verify_chain`: every link verifies and meets the next one. -/
def linksVerify : List (NonceTransition Node) → Bool
  | [] => true
  | t :: rest =>
      if !verifyTransition hash t then
        false
      else
        match rest with
        | [] => linksVerify []
        | next :: later =>
            if t.postRoot ≠ next.preRoot then false else linksVerify (next :: later)

def verifyChain (transitions : List (NonceTransition Node)) (oldRoot newRoot : Node) : Bool :=
  match transitions with
  | [] => decide (oldRoot = newRoot)
  | first :: rest =>
      if first.preRoot ≠ oldRoot then false
      else if ((first :: rest).getLast (List.cons_ne_nil first rest)).postRoot ≠ newRoot then false
      else linksVerify hash (first :: rest)

theorem verifyTransition_iff (t : NonceTransition Node) :
    verifyTransition hash t = true ↔
      t.oldNonce < t.newNonce ∧ t.sibs.length = t.bits.length ∧
        Merkle.pathRoot hash.pair (hash.leaf t.oldNonce) t.sibs t.bits = t.preRoot ∧
        Merkle.pathRoot hash.pair (hash.leaf t.newNonce) t.sibs t.bits = t.postRoot := by
  unfold verifyTransition
  by_cases rises : t.newNonce ≤ t.oldNonce
  · simp [rises, not_lt.mpr rises]
  · by_cases lengths : t.sibs.length = t.bits.length
    · simp [rises, not_le.mp rises, lengths, verifyBatchMembership_iff]
    · simp [rises, lengths]

/-- An accepted chain is an accepted first link and an accepted rest from its
post root on. -/
theorem verifyChain_cons_iff (t : NonceTransition Node) (rest : List (NonceTransition Node))
    (oldRoot newRoot : Node) :
    verifyChain hash (t :: rest) oldRoot newRoot = true ↔
      t.preRoot = oldRoot ∧ verifyTransition hash t = true ∧
        verifyChain hash rest t.postRoot newRoot = true := by
  cases rest with
  | nil =>
      by_cases start : t.preRoot = oldRoot <;> by_cases stop : t.postRoot = newRoot <;>
        by_cases link : verifyTransition hash t = true <;>
        simp [verifyChain, linksVerify, start, stop, link]
  | cons next rest =>
      by_cases start : t.preRoot = oldRoot
      · by_cases link : verifyTransition hash t = true
        · by_cases meets : t.postRoot = next.preRoot
          · simp [verifyChain, linksVerify, start, link, meets]
          · have apart : next.preRoot ≠ t.postRoot := fun same => meets same.symm
            simp [verifyChain, linksVerify, start, link, meets, apart]
        · simp [verifyChain, linksVerify, start, link]
      · simp [verifyChain, start]

end Verify

/-! ## What an accepted chain does -/

section Chain

variable {Node : Type*} {hash : NonceHash Node}

/-- The slot a transition's path opens. -/
def NonceTransition.opens (t : NonceTransition Node) : ℕ :=
  Merkle.position t.bits

/-- Updating slots by a reading of the transitions. -/
abbrev Updates (slotOf : NonceTransition Node → ℕ) :
    (ℕ → U64) → List (NonceTransition Node) → (ℕ → U64) → Prop :=
  Merkle.Applies NonceTransition.oldNonce NonceTransition.newNonce slotOf

section Accepted

variable [DecidableEq Node]

/-- One accepted link at a state: its path is that of the tree, so it finds the
old nonce in the slot it opens and leaves the root of the updated state. -/
theorem verifyTransition_at (separated : hash.Separated) {nonces : ℕ → U64} {depth : ℕ}
    {t : NonceTransition Node} (accepted : verifyTransition hash t = true)
    (pre : t.preRoot = Merkle.subtreeRoot hash.pair (hash.leaf ∘ nonces) depth 0) :
    t.oldNonce < t.newNonce ∧ t.bits.length = depth ∧ nonces t.opens = t.oldNonce ∧
      t.postRoot = Merkle.subtreeRoot hash.pair
        (hash.leaf ∘ Function.update nonces t.opens t.newNonce) depth 0 := by
  obtain ⟨rises, lengths, before, after⟩ := (verifyTransition_iff hash t).mp accepted
  rw [pre] at before
  obtain ⟨full, leaf, siblings⟩ := Merkle.leaf_path_eq_opening separated.pair_injective
    (fun slot => separated.leaf_ne_pair (nonces slot)) lengths
    (separated.leaf_ne_pair t.oldNonce) before
  have bounded : t.opens < 2 ^ depth := full ▸ Merkle.position_lt t.bits
  have digits : t.bits = Merkle.indexBits depth t.opens := by
    rw [full]
    exact (Merkle.indexBits_position t.bits).symm
  have own : t.sibs = Merkle.opening hash.pair (hash.leaf ∘ nonces) 0 depth t.opens := siblings
  have climbed := Merkle.pathRoot_opening_replaced hash.pair (hash.leaf ∘ nonces)
    (hash.leaf t.newNonce) bounded
  rw [← digits, ← own, after, ← Function.comp_update] at climbed
  exact ⟨rises, full.symm, (separated.leaf_injective leaf).symm, climbed⟩

/-- An accepted chain from the root of a state applies, at the opened slots, to
that state, and ends in its root. -/
theorem verifyChain_applies (separated : hash.Separated) {depth : ℕ}
    {transitions : List (NonceTransition Node)} {nonces : ℕ → U64} {oldRoot newRoot : Node}
    (accepted : verifyChain hash transitions oldRoot newRoot = true)
    (start : oldRoot = Merkle.subtreeRoot hash.pair (hash.leaf ∘ nonces) depth 0) :
    ∃ after, Updates NonceTransition.opens nonces transitions after ∧
      newRoot = Merkle.subtreeRoot hash.pair (hash.leaf ∘ after) depth 0 ∧
      ∀ t ∈ transitions, t.oldNonce < t.newNonce ∧ t.bits.length = depth := by
  induction transitions generalizing nonces oldRoot with
  | nil =>
      refine ⟨nonces, rfl, ?_, by simp⟩
      rw [← start]
      exact (of_decide_eq_true accepted).symm
  | cons t rest ih =>
      obtain ⟨pre, link, later⟩ := (verifyChain_cons_iff hash t rest oldRoot newRoot).mp accepted
      obtain ⟨rises, full, found, post⟩ := verifyTransition_at separated link (pre.trans start)
      obtain ⟨after, applied, reached, each⟩ := ih later post
      refine ⟨after, ⟨found, applied⟩, reached, ?_⟩
      intro other member
      rcases List.mem_cons.mp member with rfl | there
      · exact ⟨rises, full⟩
      · exact each other there

end Accepted

/-! ## Replaying a chain at the slots it names -/

/-- Applying the links in order: each finds its old nonce in the slot it names,
and writing its new nonce there succeeds. -/
def Replays : NonceTree hash → List (NonceTransition Node) → NonceTree hash → Prop
  | tree, [], final => final = tree
  | tree, t :: rest, final =>
      tree.get t.index = t.oldNonce ∧
        ∃ next, tree.set t.index t.newNonce = .ok next ∧ Replays next rest final

/-- The links naming a slot against the links opening it: the former continue
each other, and both begin and end with the same nonces. -/
def SameStory (named opened : List (NonceTransition Node)) : Prop :=
  named.IsChain (fun first second => first.newNonce = second.oldNonce) ∧
    named.head?.map NonceTransition.oldNonce = opened.head?.map NonceTransition.oldNonce ∧
    named.getLast?.map NonceTransition.newNonce = opened.getLast?.map NonceTransition.newNonce

/-- Every slot has the same story under its index and under the direction bits. -/
def SlotsAgree (transitions : List (NonceTransition Node)) : Prop :=
  ∀ slot, SameStory (Merkle.updatesAt NonceTransition.index slot transitions)
    (Merkle.updatesAt NonceTransition.opens slot transitions)

theorem replays_updates {tree final : NonceTree hash} {transitions : List (NonceTransition Node)}
    (replayed : Replays tree transitions final) :
    Updates NonceTransition.index tree.get transitions final.get ∧
      final.depth = tree.depth ∧ ∀ t ∈ transitions, t.index < 2 ^ tree.depth := by
  induction transitions generalizing tree with
  | nil =>
      obtain rfl : final = tree := replayed
      exact ⟨rfl, rfl, by simp⟩
  | cons t rest ih =>
      obtain ⟨found, next, written, later⟩ := replayed
      obtain ⟨inside, -, depths, values⟩ := NonceTree.set_spec written
      obtain ⟨applied, finalDepth, ranges⟩ := ih later
      rw [values] at applied
      refine ⟨⟨found, applied⟩, finalDepth.trans depths, ?_⟩
      intro other member
      rcases List.mem_cons.mp member with rfl | there
      · exact inside
      · exact depths ▸ ranges other there

theorem updates_replays {tree : NonceTree hash} {after : ℕ → U64}
    {transitions : List (NonceTransition Node)}
    (applied : Updates NonceTransition.index tree.get transitions after)
    (rises : ∀ t ∈ transitions, t.oldNonce < t.newNonce)
    (ranges : ∀ t ∈ transitions, t.index < 2 ^ tree.depth) :
    ∃ final, Replays tree transitions final ∧ final.get = after ∧
      final.depth = tree.depth := by
  induction transitions generalizing tree with
  | nil => exact ⟨tree, rfl, applied.symm, rfl⟩
  | cons t rest ih =>
      obtain ⟨found, later⟩ := applied
      obtain ⟨next, written⟩ := NonceTree.set_succeeds (ranges t (by simp))
        (found ▸ rises t (by simp))
      obtain ⟨-, -, depths, values⟩ := NonceTree.set_spec written
      rw [← values] at later
      obtain ⟨final, replayed, reached, finalDepth⟩ := ih later
        (fun other member => rises other (by simp [member]))
        (fun other member => depths ▸ ranges other (by simp [member]))
      exact ⟨final, ⟨found, next, written, replayed⟩, reached, finalDepth.trans depths⟩

/-- At one slot: increasing links reach what the opened links reach exactly when
the two stories agree. -/
theorem chains_iff_sameStory {before after : U64} {named opened : List (NonceTransition Node)}
    (reached : Merkle.Chains NonceTransition.oldNonce NonceTransition.newNonce before opened after)
    (namedRises : ∀ t ∈ named, t.oldNonce < t.newNonce)
    (openedRises : ∀ t ∈ opened, t.oldNonce < t.newNonce) :
    Merkle.Chains NonceTransition.oldNonce NonceTransition.newNonce before named after ↔
      SameStory named opened := by
  by_cases namedEmpty : named = [] <;> by_cases openedEmpty : opened = []
  · subst namedEmpty openedEmpty
    simpa [SameStory, Merkle.Chains] using reached
  · -- only opened links: the slot moves, but no link names it
    subst namedEmpty
    obtain ⟨first, rest, rfl⟩ := List.exists_cons_of_ne_nil openedEmpty
    constructor
    · intro same
      have moved := reached.lt_of_increasing _ _ openedRises openedEmpty
      exact absurd (same : after = before) moved.ne'
    · rintro ⟨-, heads, -⟩
      simp at heads
  · -- only named links: the slot stays, but a link names it
    subst openedEmpty
    obtain ⟨first, rest, rfl⟩ := List.exists_cons_of_ne_nil namedEmpty
    constructor
    · intro chain
      have moved := chain.lt_of_increasing _ _ namedRises namedEmpty
      exact absurd (reached : after = before) moved.ne'
    · rintro ⟨-, heads, -⟩
      simp at heads
  · obtain ⟨head, -, last⟩ := (Merkle.chains_iff _ _ openedEmpty).mp reached
    rw [Merkle.chains_iff _ _ namedEmpty, SameStory, head, last]
    constructor
    · rintro ⟨first, chain, final⟩
      exact ⟨chain, first, final⟩
    · rintro ⟨chain, first, final⟩
      exact ⟨first, chain, final⟩

/-- Two readings of increasing updates reach the same values exactly when they
agree slot by slot, once one of them is known to apply. -/
theorem updates_iff_slotsAgree {before after : ℕ → U64}
    {transitions : List (NonceTransition Node)}
    (opened : Updates NonceTransition.opens before transitions after)
    (rises : ∀ t ∈ transitions, t.oldNonce < t.newNonce) :
    Updates NonceTransition.index before transitions after ↔ SlotsAgree transitions := by
  have openedChains := (Merkle.applies_iff_chains _ _ _ _ _ _).mp opened
  have risesAt (slotOf : NonceTransition Node → ℕ) (slot : ℕ) :
      ∀ t ∈ Merkle.updatesAt slotOf slot transitions, t.oldNonce < t.newNonce :=
    fun t member => rises t (List.mem_filter.mp member).1
  rw [Updates, Merkle.applies_iff_chains]
  exact forall_congr' fun slot =>
    chains_iff_sameStory (openedChains slot) (risesAt _ slot) (risesAt _ slot)

/-- Slots no update is sent to keep their value. -/
theorem updates_eq_of_ne {slotOf : NonceTransition Node → ℕ} {before after : ℕ → U64}
    {transitions : List (NonceTransition Node)} (applied : Updates slotOf before transitions after)
    {slot : ℕ} (untouched : ∀ t ∈ transitions, slotOf t ≠ slot) : after slot = before slot := by
  have chain := (Merkle.applies_iff_chains _ _ _ _ _ _).mp applied slot
  have none : Merkle.updatesAt slotOf slot transitions = [] := by
    simpa [Merkle.updatesAt] using untouched
  rwa [none] at chain

/-- An agreeing slot that is named is also opened. -/
theorem SlotsAgree.opened {transitions : List (NonceTransition Node)}
    (agree : SlotsAgree transitions) {t : NonceTransition Node} (member : t ∈ transitions) :
    ∃ other ∈ transitions, other.opens = t.index := by
  obtain ⟨-, heads, -⟩ := agree t.index
  have named : t ∈ Merkle.updatesAt NonceTransition.index t.index transitions :=
    List.mem_filter.mpr ⟨member, by simp⟩
  cases opened : Merkle.updatesAt NonceTransition.opens t.index transitions with
  | nil =>
      rw [opened, List.head?_nil, Option.map_none, Option.map_eq_none_iff,
        List.head?_eq_none_iff] at heads
      rw [heads] at named
      exact absurd named List.not_mem_nil
  | cons other rest =>
      have there : other ∈ Merkle.updatesAt NonceTransition.opens t.index transitions := by
        rw [opened]
        exact List.mem_cons_self
      obtain ⟨inside, same⟩ := List.mem_filter.mp there
      exact ⟨other, inside, of_decide_eq_true same⟩

/-- Replaying an accepted chain at the slots it names reaches its final root exactly when those
slots have the same stories as the opened ones.  The verification of a chain follows the direction
bits and never reads an index, so a chain may name one slot and open another; stories are the
nonces of a slot in their order. -/
theorem verifyChain_replays_iff [DecidableEq Node] (separated : hash.Separated)
    (tree : NonceTree hash) (transitions : List (NonceTransition Node)) (newRoot : Node)
    (accepted : verifyChain hash transitions tree.root newRoot = true) :
    (∃ final, Replays tree transitions final ∧ final.root = newRoot) ↔
      SlotsAgree transitions := by
  obtain ⟨after, opened, reached, each⟩ :=
    verifyChain_applies separated accepted tree.root_eq_subtreeRoot
  have rises : ∀ t ∈ transitions, t.oldNonce < t.newNonce := fun t member => (each t member).1
  have opensBound : ∀ t ∈ transitions, t.opens < 2 ^ tree.depth := fun t member =>
    (each t member).2 ▸ Merkle.position_lt t.bits
  constructor
  · rintro ⟨final, replayed, root⟩
    obtain ⟨named, depths, ranges⟩ := replays_updates replayed
    have values : final.get = after := by
      funext slot
      by_cases inside : slot < 2 ^ tree.depth
      · rw [reached, final.root_eq_subtreeRoot, depths] at root
        exact separated.leaf_injective (Merkle.leaves_eq_of_subtreeRoot_eq
          separated.pair_injective root (Nat.div_eq_of_lt inside))
      · rw [updates_eq_of_ne named, updates_eq_of_ne opened]
        · rintro t member rfl
          exact inside (opensBound t member)
        · rintro t member rfl
          exact inside (ranges t member)
    rw [values] at named
    exact (updates_iff_slotsAgree opened rises).mp named
  · intro agree
    have named := (updates_iff_slotsAgree opened rises).mpr agree
    have ranges : ∀ t ∈ transitions, t.index < 2 ^ tree.depth := by
      intro t member
      obtain ⟨other, there, same⟩ := agree.opened member
      exact same ▸ opensBound other there
    obtain ⟨final, replayed, values, depths⟩ := updates_replays named rises ranges
    refine ⟨final, replayed, ?_⟩
    rw [reached, final.root_eq_subtreeRoot, depths, ← values]
    rfl

end Chain

/-! ## A link whose index and direction bits differ -/

/-- One link from zero to one in the two-slot tree: it opens slot zero under a
given index. -/
def linkAtIndex (index : ℕ) : NonceTransition (FreeMagma U64) where
  index := index
  oldNonce := 0
  newNonce := 1
  sibs := [.of 0]
  bits := [false]
  preRoot := .mul (.of 0) (.of 0)
  postRoot := .mul (.of 1) (.of 0)

/-- The two-slot tree. -/
def pairTree : NonceTree freeNonce := NonceTree.vacant freeNonce 1 Nat.one_pos one_le_maxDepth

theorem pairTree_root : pairTree.root = .mul (.of 0) (.of 0) := by
  rw [NonceTree.root_eq_subtreeRoot]
  rfl

theorem linkAtIndex_accepted (index : ℕ) :
    verifyChain freeNonce [linkAtIndex index] pairTree.root (.mul (.of 1) (.of 0)) = true := by
  rw [pairTree_root, verifyChain_cons_iff, verifyTransition_iff]
  exact ⟨rfl, ⟨Fin.zero_lt_one, rfl, rfl, rfl⟩, rfl⟩

theorem linkAtIndex_replays :
    (∃ final, Replays pairTree [linkAtIndex 0] final ∧ final.root = .mul (.of 1) (.of 0)) ↔
      SlotsAgree [linkAtIndex 0] :=
  verifyChain_replays_iff freeNonce_separated pairTree [linkAtIndex 0] (.mul (.of 1) (.of 0))
    (linkAtIndex_accepted 0)

/-- The link named for slot one changes slot zero, and is accepted. -/
theorem verifyChain_ignores_index :
    ¬ ∀ (Node : Type) (_ : DecidableEq Node) (hash : NonceHash Node), hash.Separated →
      ∀ (tree : NonceTree hash) (transitions : List (NonceTransition Node)) (newRoot : Node),
        verifyChain hash transitions tree.root newRoot = true →
        ∃ final, Replays tree transitions final ∧ final.root = newRoot := by
  intro sound
  obtain ⟨final, ⟨-, next, written, rfl⟩, reached⟩ := sound _ inferInstance freeNonce
    freeNonce_separated pairTree [linkAtIndex 1] _ (linkAtIndex_accepted 1)
  obtain ⟨-, -, depths, values⟩ := NonceTree.set_spec written
  rw [NonceTree.root_eq_subtreeRoot, depths] at reached
  have leaves : final.get 0 = 0 := by
    rw [values]
    rfl
  injection reached with left right
  injection left with nonce
  rw [leaves] at nonce
  exact absurd nonce (by decide)

end Stwo
end QLSA
