import QLSA.Recursive.CheckedTrace
import QLSA.Stwo.NonceUpdates
import QLSA.Vfri2.NodePaths

namespace QLSA
namespace Recursive
namespace NonceUpdateT8

open Hash Machine Mersenne Stwo
open Vfri2 (CanonicalNode hashPairP2T8_canonical p2t8NodeWords_pathRoot)

/-!
# Accepted chains are provable

A chain of the reference verifier passes the checks of the prover, if it is
within the bounds of the circuit and its siblings are nodes of canonical words.
The roots that the verifier recomputes from nodes are those that the lanes
recompute from words.  Whatever a tree of slots writes is such a chain, with the
digits of its slots as bits, and so it is proved.  The converse fails where a bit is
not the digit of its index: such a witness is accepted and its trace violates a
constraint.
-/

section Accepted

variable {transitions : List (NonceTransition Bytes32)} {oldRoot newRoot : Bytes32}
  {depth logSize : ℕ}

/-! ## The statement of a chain -/

/-- The statement made from transitions. -/
def statementOf (transitions : List (NonceTransition Bytes32)) (oldRoot newRoot : Bytes32)
    (depth : ℕ) : NonceStatement (Quad ℕ) :=
  ⟨p2t8NodeWords oldRoot, p2t8NodeWords newRoot, transitions.map updateOf, depth⟩

theorem fromTransitions_ok_iff {st : NonceStatement (Quad ℕ)} :
    fromTransitions transitions oldRoot newRoot depth = .ok st ↔
      transitions.length ≤ maxUpdates ∧ (1 ≤ depth ∧ depth ≤ updateAirMaxDepth) ∧
      (∀ t ∈ transitions, t.bits.length = depth ∧ t.sibs.length = depth) ∧
      st = statementOf transitions oldRoot newRoot depth := by
  unfold fromTransitions
  constructor
  · intro success
    rcases bind_eq_ok.mp success with ⟨⟨⟩, counted, later⟩
    rcases bind_eq_ok.mp later with ⟨⟨⟩, deep, rest⟩
    rcases bind_eq_ok.mp rest with ⟨⟨⟩, paths, finished⟩
    exact ⟨validateCount_ok_iff.mp counted, validateDepth_ok_iff.mp deep,
      checkDepths_ok_iff.mp paths, (Except.ok.inj finished).symm⟩
  · rintro ⟨counted, deep, paths, rfl⟩
    refine bind_eq_ok.mpr ⟨(), validateCount_ok_iff.mpr counted, ?_⟩
    refine bind_eq_ok.mpr ⟨(), validateDepth_ok_iff.mpr deep, ?_⟩
    exact bind_eq_ok.mpr ⟨(), checkDepths_ok_iff.mpr paths, rfl⟩

/-! ## Links of an accepted chain -/

theorem accepted_verifies (accepted : verifyChain nonceP2T8 transitions oldRoot newRoot = true) :
    ∀ t ∈ transitions, verifyTransition nonceP2T8 t = true := by
  induction transitions generalizing oldRoot with
  | nil => exact fun _ member => absurd member List.not_mem_nil
  | cons t rest ih =>
      rcases (verifyChain_cons_iff nonceP2T8 t rest oldRoot newRoot).mp accepted with
        ⟨-, link, later⟩
      exact List.forall_mem_cons.mpr ⟨link, ih later⟩

/-- Each transition starts from the words of the root before it. -/
theorem accepted_linked (accepted : verifyChain nonceP2T8 transitions oldRoot newRoot = true)
    (paths : ∀ t ∈ transitions, t.bits.length = depth ∧ t.sibs.length = depth) :
    ∀ entry ∈ transitions.zip ((transitions.map updateOf).zip
        (preRootsFrom (p2t8NodeWords oldRoot) (transitions.map updateOf))),
      Linked depth entry.1 entry.2.1 entry.2.2 := by
  induction transitions generalizing oldRoot with
  | nil => exact fun _ member => absurd member List.not_mem_nil
  | cons t rest ih =>
      rcases (verifyChain_cons_iff nonceP2T8 t rest oldRoot newRoot).mp accepted with
        ⟨start, -, later⟩
      rw [List.forall_mem_cons] at paths
      rw [List.map_cons, preRootsFrom, List.zip_cons_cons, List.zip_cons_cons,
        List.forall_mem_cons]
      exact ⟨⟨rfl, rfl, rfl, congrArg p2t8NodeWords start, rfl, paths.1.1, paths.1.2⟩,
        ih later paths.2⟩

theorem accepted_last (accepted : verifyChain nonceP2T8 transitions oldRoot newRoot = true)
    {last : NonceUpdate (Quad ℕ)} (found : (transitions.map updateOf).getLast? = some last) :
    last.postRoot = p2t8NodeWords newRoot := by
  induction transitions generalizing oldRoot with
  | nil => contradiction
  | cons t rest ih =>
      rcases (verifyChain_cons_iff nonceP2T8 t rest oldRoot newRoot).mp accepted with
        ⟨-, -, later⟩
      cases rest with
      | nil =>
          have meets : t.postRoot = newRoot := of_decide_eq_true later
          rw [← Option.some.inj found, ← meets]
          rfl
      | cons next rest =>
          rw [List.map_cons, List.map_cons, List.getLast?_cons_cons] at found
          exact ih later found

/-! ## Roots of nodes and roots of words -/

/-- The path that a lane climbs is that of the transition. -/
theorem witnessOf_root {pins : List (PinnedUpdate (Quad ℕ))} {u : ℕ}
    {t : NonceTransition Bytes32} {pin : PinnedUpdate (Quad ℕ)}
    (found : transitions[u]? = some t) (pinned : pins[u]? = some pin) (side : Side) :
    ((witnessOf pins transitions).openings side).root u =
      merklePathRootT8 (side.leaf pin) (t.sibs.map p2t8NodeWords) t.bits := by
  have leaf : ((witnessOf pins transitions).openings side).leaf u = side.leaf pin := by
    cases side with
    | old =>
        change (pins.map PinnedUpdate.oldLeaf).getD u ⟨0, 0, 0, 0⟩ = pin.oldLeaf
        rw [List.getD_eq_getElem?_getD, List.getElem?_map, pinned]
        rfl
    | new =>
        change (pins.map PinnedUpdate.newLeaf).getD u ⟨0, 0, 0, 0⟩ = pin.newLeaf
        rw [List.getD_eq_getElem?_getD, List.getElem?_map, pinned]
        rfl
  have sibs : ((witnessOf pins transitions).openings side).sibs =
      transitions.map fun t => t.sibs.map p2t8NodeWords := by cases side <;> rfl
  have bits : ((witnessOf pins transitions).openings side).bits =
      transitions.map NonceTransition.bits := by cases side <;> rfl
  rw [MerklePathT8.Openings.root, leaf, sibs, bits, List.getD_eq_getElem?_getD,
    List.getD_eq_getElem?_getD, List.getElem?_map, List.getElem?_map, found, Option.map_some,
    Option.map_some, Option.getD_some, Option.getD_some]

/-- The lanes of a verified transition reach the words of its roots. -/
theorem verified_roots {t : NonceTransition Bytes32}
    (verified : verifyTransition nonceP2T8 t = true)
    (canonical : ∀ sib ∈ t.sibs, CanonicalNode sib) :
    merklePathRootT8 (nonceNodeWords.leaf t.oldNonce) (t.sibs.map p2t8NodeWords) t.bits =
        p2t8NodeWords t.preRoot ∧
      merklePathRootT8 (nonceNodeWords.leaf t.newNonce) (t.sibs.map p2t8NodeWords) t.bits =
        p2t8NodeWords t.postRoot := by
  rcases (verifyTransition_iff nonceP2T8 t).mp verified with ⟨-, -, old, new⟩
  have climbs (nonce : U64) := p2t8NodeWords_pathRoot t.bits (nonceNodeWords_leaf nonce).1 canonical
  constructor
  · rw [← old]
    exact (climbs t.oldNonce).symm
  · rw [← new]
    exact (climbs t.newNonce).symm

/-! ## Acceptance -/

/-- A chain within the bounds of the circuit, with siblings of canonical words. -/
structure Admissible (transitions : List (NonceTransition Bytes32)) (depth : ℕ) : Prop where
  nonempty : transitions ≠ []
  count : transitions.length ≤ maxUpdates
  deep : 1 ≤ depth ∧ depth ≤ updateAirMaxDepth
  paths : ∀ t ∈ transitions, t.bits.length = depth ∧ t.sibs.length = depth
  indices : ∀ t ∈ transitions, t.index < 2 ^ depth
  canonical : ∀ t ∈ transitions, ∀ sib ∈ t.sibs, CanonicalNode sib

theorem Admissible.isPublic (admissible : Admissible transitions depth)
    (accepted : verifyChain nonceP2T8 transitions oldRoot newRoot = true) :
    Public (statementOf transitions oldRoot newRoot depth) where
  count := by
    rw [statementOf, List.length_map]
    exact admissible.count
  depth := admissible.deep
  updates := by
    intro u member
    rcases List.mem_map.mp member with ⟨t, listed, rfl⟩
    exact ⟨admissible.indices t listed,
      ((verifyTransition_iff nonceP2T8 t).mp (accepted_verifies accepted t listed)).1⟩
  newRoot := fun _ found => accepted_last accepted found

/-- Every lane lands on its pin. -/
theorem Admissible.landed (admissible : Admissible transitions depth)
    (accepted : verifyChain nonceP2T8 transitions oldRoot newRoot = true) {u : ℕ}
    {t : NonceTransition Bytes32} (found : transitions[u]? = some t) :
    ∃ pin, ((statementOf transitions oldRoot newRoot depth).pinnedUpdates nonceNodeWords)[u]? =
        some pin ∧
      ∀ side : Side, ((witnessOf ((statementOf transitions oldRoot newRoot depth).pinnedUpdates
        nonceNodeWords) transitions).openings side).root u = side.root pin := by
  have lengths : transitions.length =
      (statementOf transitions oldRoot newRoot depth).updates.length :=
    (List.length_map updateOf).symm
  have links := accepted_linked accepted admissible.paths
  rcases linked_at lengths links found with ⟨up, pre, linked, pinned⟩
  have member := List.mem_of_getElem? found
  have roots := verified_roots (accepted_verifies accepted t member) (admissible.canonical t member)
  refine ⟨pinOf up pre, pinned, fun side => ?_⟩
  rw [witnessOf_root found pinned side]
  cases side with
  | old =>
      change merklePathRootT8 (nonceNodeWords.leaf up.oldNonce) _ _ = pre
      rw [← linked.oldNonce, roots.1, linked.preRoot]
  | new =>
      change merklePathRootT8 (nonceNodeWords.leaf up.newNonce) _ _ = up.postRoot
      rw [← linked.newNonce, roots.2, linked.postRoot]

theorem Admissible.valid (admissible : Admissible transitions depth)
    (fits : transitions.length * depth * 22 ≤ 2 ^ logSize) :
    (witnessOf ((statementOf transitions oldRoot newRoot depth).pinnedUpdates nonceNodeWords)
      transitions).Valid transitions.length depth logSize := by
  have pins : ((statementOf transitions oldRoot newRoot depth).pinnedUpdates
      nonceNodeWords).length = transitions.length := by
    rw [pinnedUpdates_length]
    exact List.length_map updateOf
  refine ⟨List.length_pos_iff.mpr admissible.nonempty, (List.length_map _).trans pins,
    (List.length_map _).trans pins, List.length_map _, List.length_map _, admissible.deep.1, ?_, ?_,
    fits⟩
  · intro path member
    rcases List.mem_map.mp member with ⟨t, listed, rfl⟩
    rw [List.length_map]
    exact (admissible.paths t listed).2
  · intro path member
    rcases List.mem_map.mp member with ⟨t, listed, rfl⟩
    exact (admissible.paths t listed).1

/-- The prover accepts what the reference verifier accepts. -/
theorem Admissible.accepts (admissible : Admissible transitions depth)
    (accepted : verifyChain nonceP2T8 transitions oldRoot newRoot = true)
    (fits : transitions.length * depth * 22 ≤ 2 ^ logSize) :
    ∃ main preproc, checkedTrace (statementOf transitions oldRoot newRoot depth) transitions
      logSize = .ok (main, preproc) := by
  have valid : (witnessOf ((statementOf transitions oldRoot newRoot depth).pinnedUpdates
      nonceNodeWords) transitions).Valid transitions.length depth logSize := admissible.valid fits
  have pins : ((statementOf transitions oldRoot newRoot depth).pinnedUpdates
      nonceNodeWords).length = transitions.length := by
    rw [pinnedUpdates_length]
    exact List.length_map updateOf
  have some : transitions.map updateOf ≠ [] := by
    rw [ne_eq, List.map_eq_nil_iff]
    exact admissible.nonempty
  have deep := admissible.deep.1
  have prebuilt : buildPreproc ((statementOf transitions oldRoot newRoot depth).pinnedUpdates
      nonceNodeWords) depth logSize = .ok (columnsOf (preprocWrites
        ((statementOf transitions oldRoot newRoot depth).pinnedUpdates nonceNodeWords) depth)) := by
    rw [buildPreproc, if_neg (by omega), pins, if_neg (not_lt.mpr fits)]
  have landed : ∀ entry ∈ ((witnessOf ((statementOf transitions oldRoot newRoot depth).pinnedUpdates
        nonceNodeWords) transitions).built transitions.length depth logSize).2.zip
          ((statementOf transitions oldRoot newRoot depth).pinnedUpdates nonceNodeWords),
      entry.1.1 = entry.2.preRoot ∧ entry.1.2 = entry.2.postRoot := by
    rw [valid.reached]
    intro entry member
    rcases List.mem_iff_getElem?.mp member with ⟨u, found⟩
    rw [List.getElem?_zip_eq_some, List.getElem?_map] at found
    rcases found with ⟨reached, pinned⟩
    rcases Option.map_eq_some_iff.mp reached with ⟨place, listed, roots⟩
    rcases List.getElem?_eq_some_iff.mp listed with ⟨inside, rfl⟩
    rw [List.getElem_range] at roots
    rw [List.length_range] at inside
    rcases admissible.landed accepted (List.getElem?_eq_getElem inside) with ⟨pin, own, landed⟩
    rw [pinned] at own
    rw [← roots, Option.some.inj own]
    exact ⟨landed .old, landed .new⟩
  exact ⟨_, _, checkedTrace_ok_iff.mpr ⟨some, admissible.isPublic accepted,
    (List.length_map updateOf).symm, accepted_linked accepted admissible.paths, _, valid.build_eq,
    landed, prebuilt⟩⟩

/-- What the prover has accepted is within the bounds of the circuit. -/
theorem bounds_of_checked {st : NonceStatement (Quad ℕ)} {main preproc : Columns}
    (stated : fromTransitions transitions oldRoot newRoot depth = .ok st)
    (checked : checkedTrace st transitions logSize = .ok (main, preproc)) :
    transitions ≠ [] ∧ transitions.length ≤ maxUpdates ∧
      (1 ≤ depth ∧ depth ≤ updateAirMaxDepth) ∧ ∀ t ∈ transitions, t.index < 2 ^ depth := by
  rcases fromTransitions_ok_iff.mp stated with ⟨count, deep, -, rfl⟩
  rcases checkedTrace_ok_iff.mp checked with ⟨nonempty, relations, -⟩
  refine ⟨fun empty => nonempty (congrArg (List.map updateOf) empty), count, deep, ?_⟩
  intro t member
  exact (relations.updates (updateOf t) (List.mem_map_of_mem member)).1

/-- Both leaves of a checked transition reach the words of its roots. -/
theorem roots_of_checked {st : NonceStatement (Quad ℕ)} {main preproc : Columns}
    (checked : checkedTrace st transitions logSize = .ok (main, preproc)) {u : ℕ}
    {t : NonceTransition Bytes32} (found : transitions[u]? = some t) :
    merklePathRootT8 (nonceNodeWords.leaf t.oldNonce) (t.sibs.map p2t8NodeWords) t.bits =
        p2t8NodeWords t.preRoot ∧
      merklePathRootT8 (nonceNodeWords.leaf t.newNonce) (t.sibs.map p2t8NodeWords) t.bits =
        p2t8NodeWords t.postRoot := by
  rcases checkedTrace_built checked with ⟨-, lengths, links, valid, landed, -, -⟩
  rcases linked_at lengths links found with ⟨up, pre, linked, pinned⟩
  have reached (side : Side) := reached_of_landed valid landed pinned side
  have old := reached .old
  have new := reached .new
  rw [witnessOf_root found pinned] at old new
  rw [linked.oldNonce, linked.newNonce, linked.preRoot, linked.postRoot]
  exact ⟨old, new⟩

end Accepted

/-! ## Chains of a tree -/

section Written

variable {tree after : NonceTree nonceP2T8} {transitions : List (NonceTransition Bytes32)}

/-- The links of a tree are within the bounds of the circuit, and their bits are the
digits of their slots. -/
theorem written_admissible {indexed : List (ℕ × U64)}
    (applied : tree.applyIndexed indexed = (after, .ok transitions)) (some : indexed ≠ [])
    (few : indexed.length ≤ maxUpdates) :
    Admissible transitions tree.depth ∧
      ∀ t ∈ transitions, t.bits = Merkle.indexBits tree.depth t.index := by
  rcases applyIndexed_links applied with ⟨count, -, links⟩
  constructor
  · constructor
    case nonempty => exact List.length_pos_iff.mp (count ▸ List.length_pos_iff.mpr some)
    case count => exact count ▸ few
    case deep => exact ⟨tree.depth_pos, tree.depth_le⟩
    case paths =>
      intro t member
      rcases links t member with ⟨own, next, index, nonce, depth, -, rfl⟩
      rw [← depth]
      exact ⟨Merkle.indexBits_length _ _, Merkle.opening_length _ _ _ _ _⟩
    case indices =>
      intro t member
      rcases links t member with ⟨own, next, index, nonce, depth, written, rfl⟩
      rw [← depth]
      exact (NonceTree.set_spec written).1
    case canonical =>
      intro t member
      rcases links t member with ⟨own, next, index, nonce, -, -, rfl⟩
      exact Merkle.opening_forall hashPairP2T8_canonical
        (fun slot => (nonceNodeWords_leaf (own.get slot)).1) _ _ _
  · intro t member
    rcases links t member with ⟨own, next, index, nonce, depth, -, rfl⟩
    rw [← depth]
    rfl

/-- What a tree of slots returns for up to 512 updates is the statement and the witness of
a proof: at every size that has a row for each of its hashes the prover accepts them, and
the trace it fills satisfies the circuit. -/
theorem applied_updates_proved {updates : List (Bytes32 × U64)} {oldRoot newRoot : Bytes32}
    {logSize : ℕ}
    (applied : tree.applyUpdates updates = (after, .ok (oldRoot, newRoot, transitions)))
    (some : updates ≠ []) (few : updates.length ≤ maxUpdates)
    (fits : updates.length * tree.depth * 22 ≤ 2 ^ logSize) :
    ∃ main preproc,
      fromTransitions transitions oldRoot newRoot tree.depth =
        .ok (statementOf transitions oldRoot newRoot tree.depth) ∧
      checkedTrace (statementOf transitions oldRoot newRoot tree.depth) transitions logSize =
        .ok (main, preproc) ∧
      Satisfies main preproc logSize := by
  rw [NonceTree.applyUpdates, indexUpdates_eq] at applied
  dsimp only at applied
  have sorted : ((addressedSlots tree.depth updates).mergeSort slotNonceLe).length =
      updates.length := (List.length_mergeSort _).trans (List.length_map _)
  generalize (addressedSlots tree.depth updates).mergeSort slotNonceLe = indexed at *
  cases written : tree.applyIndexed indexed with
  | mk final result =>
      rw [written] at applied
      cases result with
      | error message => cases applied
      | ok links =>
          cases applied
          have filled : indexed ≠ [] :=
            List.length_pos_iff.mp (sorted ▸ List.length_pos_iff.mpr some)
          rcases written_admissible written filled (sorted ▸ few) with ⟨admissible, digits⟩
          rcases applyIndexed_links written with ⟨count, chained, -⟩
          rw [← sorted, ← count] at fits
          rcases admissible.accepts chained fits with ⟨main, preproc, checked⟩
          exact ⟨main, preproc, fromTransitions_ok_iff.mpr
            ⟨admissible.count, admissible.deep, admissible.paths, rfl⟩, checked,
            checkedTrace_satisfies checked digits⟩

end Written

/-! ## The witnesses that are proved -/

/-- A checked witness whose bits are the digits of its indices satisfies every constraint, and
chains of the reference verifier that are within the bounds of the circuit pass the checks.  The
first part needs the digits because the check does not compare them; the second part needs the
bounds because the circuit has guards of its own. -/
theorem checked_witnesses_proved :
    (∀ (st : NonceStatement (Quad ℕ)) (transitions : List (NonceTransition Bytes32))
      (logSize : ℕ) (main preproc : Columns),
      checkedTrace st transitions logSize = .ok (main, preproc) →
      (∀ t ∈ transitions, t.bits = Merkle.indexBits st.depth t.index) →
      Satisfies main preproc logSize) ∧
    ∀ (transitions : List (NonceTransition Bytes32)) (oldRoot newRoot : Bytes32)
      (depth logSize : ℕ), Admissible transitions depth →
      verifyChain nonceP2T8 transitions oldRoot newRoot = true →
      transitions.length * depth * 22 ≤ 2 ^ logSize →
      ∃ st main preproc, fromTransitions transitions oldRoot newRoot depth = .ok st ∧
        checkedTrace st transitions logSize = .ok (main, preproc) := by
  constructor
  · intro st transitions logSize main preproc checked digits
    exact checkedTrace_satisfies checked digits
  · intro transitions oldRoot newRoot depth logSize admissible accepted fits
    rcases admissible.accepts accepted fits with ⟨main, preproc, checked⟩
    have stated : fromTransitions transitions oldRoot newRoot depth =
        .ok (statementOf transitions oldRoot newRoot depth) :=
      fromTransitions_ok_iff.mpr ⟨admissible.count, admissible.deep, admissible.paths, rfl⟩
    exact ⟨_, main, preproc, stated, checked⟩

/-- The empty tree of depth 2. -/
def fourSlots : NonceTree nonceP2T8 :=
  NonceTree.vacant nonceP2T8 2 Nat.two_pos (by decide)

/-- Slots 0 and 2 of this tree are used for the first time. -/
theorem fourSlots_used : ∃ after transitions,
    fourSlots.applyIndexed [(0, 1), (2, 1)] = (after, .ok transitions) ∧
      transitions.length = 2 ∧ Admissible transitions 2 ∧
      verifyChain nonceP2T8 transitions fourSlots.root after.root = true ∧
      ∀ t ∈ transitions, t.bits = Merkle.indexBits 2 t.index := by
  have vacant (slot : ℕ) : fourSlots.get slot = 0 :=
    NonceTree.get_of_not_mem Std.TreeMap.not_mem_emptyc
  have rising : Rising fourSlots.get [(0, 1), (2, 1)] := by
    rw [rising_iff]
    refine ⟨?_, by decide⟩
    intro entry member
    rw [vacant]
    exact (by decide : ∀ entry ∈ [(0, 1), (2, (1 : U64))], 0 < entry.2) entry member
  rcases applyIndexed_of_rising (by decide) rising with ⟨after, transitions, applied, -, chained⟩
  rcases written_admissible applied (List.cons_ne_nil _ _) (by decide) with ⟨admissible, digits⟩
  exact ⟨after, transitions, applied, (applyIndexed_links applied).1, admissible, chained, digits⟩

theorem two_uses_proved : ∃ after transitions st main preproc,
    fourSlots.applyIndexed [(0, 1), (2, 1)] = (after, .ok transitions) ∧
      transitions.length = 2 ∧
      fromTransitions transitions fourSlots.root after.root 2 = .ok st ∧
      checkedTrace st transitions 7 = .ok (main, preproc) ∧ Satisfies main preproc 7 := by
  rcases fourSlots_used with ⟨after, transitions, applied, count, admissible, chained, digits⟩
  have fits : transitions.length * 2 * 22 ≤ 2 ^ 7 := by
    rw [count]
    decide
  rcases checked_witnesses_proved with ⟨satisfies, accepts⟩
  rcases accepts _ _ _ 2 7 admissible chained fits with ⟨st, main, preproc, stated, checked⟩
  have depth : st.depth = 2 := by
    rcases fromTransitions_ok_iff.mp stated with ⟨-, -, -, rfl⟩
    rfl
  exact ⟨after, transitions, st, main, preproc, applied, count, stated, checked,
    satisfies st _ 7 main preproc checked (depth ▸ digits)⟩

/-! ## Uses of one slot -/

section Uses

variable (depth index : ℕ) (sib : Bytes32)

def nonceOf (n : ℕ) : U64 := ⟨n % 2 ^ 64, Nat.mod_lt n (Nat.two_pow_pos 64)⟩

/-- The root over a slot at the left border, with one node as every sibling. -/
def slotRoot (n : ℕ) : Bytes32 :=
  Merkle.pathRoot hashPairP2T8 (nonceLeaf (nonceOf n)) (List.replicate depth sib)
    (List.replicate depth false)

/-- The slot is used once, under an index that the reference verifier does not read. -/
def slotUse (n : ℕ) : NonceTransition Bytes32 where
  index := index
  oldNonce := nonceOf n
  newNonce := nonceOf (n + 1)
  sibs := List.replicate depth sib
  bits := List.replicate depth false
  preRoot := slotRoot depth sib n
  postRoot := slotRoot depth sib (n + 1)

/-- Uses of the slot, one after the other. -/
def slotUses (first count : ℕ) : List (NonceTransition Bytes32) :=
  (List.range' first count).map (slotUse depth index sib)

variable {depth index sib}

theorem nonceOf_zero : nonceOf 0 = 0 := rfl

theorem slotRoot_one (n : ℕ) : slotRoot 1 sib n = hashPairP2T8 (nonceLeaf (nonceOf n)) sib := by
  rw [slotRoot, List.replicate_one, List.replicate_one, Merkle.pathRoot_cons,
    Merkle.pathRoot_nil, if_neg Bool.false_ne_true]

theorem slotUse_verifies {n : ℕ} (fits : n + 1 < 2 ^ 64) :
    verifyTransition nonceP2T8 (slotUse depth index sib n) = true := by
  rw [verifyTransition_iff]
  refine ⟨?_, ?_, rfl, rfl⟩
  · change n % 2 ^ 64 < (n + 1) % 2 ^ 64
    rw [Nat.mod_eq_of_lt (by omega), Nat.mod_eq_of_lt fits]
    exact Nat.lt_succ_self n
  · change (List.replicate depth sib).length = (List.replicate depth false).length
    rw [List.length_replicate, List.length_replicate]

theorem slotUses_accepted {first count : ℕ} (fits : first + count < 2 ^ 64) :
    verifyChain nonceP2T8 (slotUses depth index sib first count) (slotRoot depth sib first)
      (slotRoot depth sib (first + count)) = true := by
  induction count generalizing first with
  | zero => exact decide_eq_true rfl
  | succ count ih =>
      rw [slotUses, List.range'_succ, List.map_cons, verifyChain_cons_iff]
      have later := @ih (first + 1) (by omega)
      rw [Nat.add_right_comm, Nat.add_assoc] at later
      exact ⟨rfl, slotUse_verifies (by omega), later⟩

end Uses

/-- The sibling is an unused slot. -/
theorem slotUses_admissible {index : ℕ} (inside : index < 2) :
    Admissible (slotUses 1 index (nonceLeaf 0) 0 1) 1 where
  nonempty := List.cons_ne_nil _ _
  count := by
    rw [slotUses, List.length_map, List.length_range']
    decide
  deep := by decide
  paths := by
    intro t member
    rw [List.mem_singleton.mp member]
    exact ⟨List.length_replicate, List.length_replicate⟩
  indices := by
    intro t member
    rw [List.mem_singleton.mp member]
    exact inside
  canonical := by
    intro t member sib listed
    rw [List.mem_singleton.mp member] at listed
    rw [List.eq_of_mem_replicate listed]
    exact (nonceNodeWords_leaf 0).1

/-- A node whose words exceed the modulus. -/
def wideNode : Bytes32 := p2t8Pack ⟨2 ^ 32 - 1, 2 ^ 32 - 1, 2 ^ 32 - 1, 2 ^ 32 - 1⟩

/-- Depth, index, sibling and length of chains that the prover refuses. -/
def refusedChains : List (ℕ × ℕ × Bytes32 × ℕ) :=
  [(1, 0, nonceLeaf 0, 0), (1, 0, nonceLeaf 0, maxUpdates + 1), (0, 0, nonceLeaf 0, 1),
    (updateAirMaxDepth + 1, 0, nonceLeaf 0, 1), (1, 2, nonceLeaf 0, 1), (1, 0, wideNode, 1)]

/-- The path of a wide sibling has another root over nodes than over words. -/
theorem wideNode_roots :
    merklePathRootT8 (nonceNodeWords.leaf 0) [p2t8NodeWords wideNode] [false] ≠
      p2t8NodeWords (hashPairP2T8 (nonceLeaf 0) wideNode) := by
  decide +kernel

/-- Bits that are not those of the index are accepted and not proved; chains
that the reference verifier accepts are refused outside the bounds. -/
theorem checked_witness_unproved :
    (∃ (st : NonceStatement (Quad ℕ)) (transitions : List (NonceTransition Bytes32))
      (logSize : ℕ) (main preproc : Columns),
      checkedTrace st transitions logSize = .ok (main, preproc) ∧
      ¬ Satisfies main preproc logSize) ∧
    ∀ chain ∈ refusedChains,
      let transitions := slotUses chain.1 chain.2.1 chain.2.2.1 0 chain.2.2.2
      let oldRoot := slotRoot chain.1 chain.2.2.1 0
      let newRoot := slotRoot chain.1 chain.2.2.1 chain.2.2.2
      verifyChain nonceP2T8 transitions oldRoot newRoot = true ∧
        ∀ (st : NonceStatement (Quad ℕ)) (logSize : ℕ) (main preproc : Columns),
          fromTransitions transitions oldRoot newRoot chain.1 = .ok st →
          checkedTrace st transitions logSize ≠ .ok (main, preproc) := by
  constructor
  · have accepted : verifyChain nonceP2T8 (slotUses 1 1 (nonceLeaf 0) 0 1)
        (slotRoot 1 (nonceLeaf 0) 0) (slotRoot 1 (nonceLeaf 0) (0 + 1)) = true :=
      slotUses_accepted (by norm_num)
    have fits : (slotUses 1 1 (nonceLeaf 0) 0 1).length * 1 * 22 ≤ 2 ^ 5 := by
      rw [slotUses, List.length_map, List.length_range']
      decide
    rcases (slotUses_admissible Nat.one_lt_two).accepts accepted fits with
      ⟨main, preproc, checked⟩
    refine ⟨_, _, 5, main, preproc, checked, fun satisfied => ?_⟩
    have digits := digits_of_satisfies checked satisfied _ List.mem_cons_self
    have bits : [false] = [true] := digits
    simp at bits
  · intro chain member
    dsimp only
    constructor
    · have short : ∀ chain ∈ refusedChains, 0 + chain.2.2.2 < 2 ^ 64 := by
        intro chain member
        simp only [refusedChains, List.mem_cons, List.not_mem_nil, or_false] at member
        rcases member with rfl | rfl | rfl | rfl | rfl | rfl <;> norm_num [maxUpdates]
      have accepted := @slotUses_accepted chain.1 chain.2.1 chain.2.2.1 0 _ (short chain member)
      rwa [Nat.zero_add] at accepted
    · intro st logSize main preproc stated checked
      have bounds := bounds_of_checked stated checked
      have count : (slotUses chain.1 chain.2.1 chain.2.2.1 0 chain.2.2.2).length =
          chain.2.2.2 := by
        rw [slotUses, List.length_map, List.length_range']
      rw [count] at bounds
      rcases bounds with ⟨nonempty, few, deep, inside⟩
      simp only [refusedChains, List.mem_cons, List.not_mem_nil, or_false] at member
      rcases member with rfl | rfl | rfl | rfl | rfl | rfl
      · exact nonempty rfl
      · exact absurd few (by decide)
      · exact absurd deep.1 (by decide)
      · exact absurd deep.2 (by decide)
      · exact absurd (inside _ List.mem_cons_self) (by decide)
      · have found : (slotUses 1 0 wideNode 0 1)[0]? = some (slotUse 1 0 wideNode 0) := rfl
        have roots := (roots_of_checked checked found).1
        simp only [slotUse, List.replicate_one, List.map_singleton, nonceOf_zero,
          slotRoot_one] at roots
        exact wideNode_roots roots

end NonceUpdateT8
end Recursive
end QLSA
