import QLSA.Contracts.RegistryRuns

namespace QLSA
namespace Contracts

open Stwo Recursive Machine

/-!
# The nonce accumulator refines the nonce mapping

In accumulator mode the registry stores one root.  It checks slots, strict
increase and the linkage of the roots itself, and leaves the paths to the
proof.  Assuming that the verifier only accepts a bundle for a true statement,
every run keeps the stored root equal to the root of a tree: the initial tree
with the accepted updates written in order at the slots of their senders.
The intermediate roots are chosen by the prover; injectivity forces them to be
the roots of the intermediate trees.
-/

variable {Word : Type*} [DecidableEq Word] {digests : Digests Word} {hash : NonceHash Word}

/-! ## What a binding commits to -/

omit [DecidableEq Word] in
theorem packedUpdates_injective {first second : List (NonceUpdate Word)}
    (same : first.flatMap packedUpdate = second.flatMap packedUpdate) : first = second := by
  induction first generalizing second with
  | nil =>
      cases second with
      | nil => rfl
      | cons update rest => simp [packedUpdate] at same
  | cons update rest ih =>
      cases second with
      | nil => simp [packedUpdate] at same
      | cons other later =>
          obtain ⟨index, oldNonce, newNonce, postRoot⟩ := update
          obtain ⟨otherIndex, otherOld, otherNew, otherRoot⟩ := other
          simp only [List.flatMap_cons, packedUpdate, List.cons_append, List.nil_append,
            List.cons.injEq, PackedField.uint32.injEq, PackedField.uint64.injEq,
            PackedField.bytes32.injEq] at same
          obtain ⟨rfl, rfl, rfl, rfl, tails⟩ := same
          rw [ih tails]

/-- The statement a bundle's batch root binds. -/
def Binds (digests : Digests Word) (bundle : RecursiveBundle Word)
    (statement : NonceStatement Word) : Prop :=
  bundle.inner.batchRoot = nonceStatementBinding digests statement.oldRoot statement.newRoot
    statement.depth statement.updates

omit [DecidableEq Word] in
/-- With injective Keccak a batch root binds at most one statement. -/
theorem Binds.unique (keccakInjective : Function.Injective digests.keccakPacked)
    {bundle : RecursiveBundle Word} {first second : NonceStatement Word}
    (firstBound : Binds digests bundle first) (secondBound : Binds digests bundle second) :
    first = second := by
  obtain ⟨oldRoot, newRoot, updates, depth⟩ := first
  obtain ⟨otherOld, otherNew, otherUpdates, otherDepth⟩ := second
  have same := keccakInjective (firstBound.symm.trans secondBound)
  simp only [List.cons_append, List.nil_append, List.cons.injEq, PackedField.uint32.injEq,
    PackedField.bytes32.injEq] at same
  obtain ⟨-, rfl, rfl, rfl, tails⟩ := same
  rw [packedUpdates_injective tails]

/-- The verifier contract accepts a bundle that binds a statement only if it
binds a true one. -/
def VerifierSound (digests : Digests Word) (hash : NonceHash Word) (env : Env Word) : Prop :=
  ∀ position verifier bundle, env.verifyRecursive position verifier bundle = some true →
    ∀ statement, Binds digests bundle statement →
      ∃ bound : NonceStatement Word, Binds digests bundle bound ∧ bound.Holds hash

/-! ## The loop over the updates -/

omit [DecidableEq Word] in
theorem checkUpdates_ok {depth : ℕ} {i : ℕ} {entries : List (Bytes32 × NonceUpdate Word)}
    (checked : checkUpdates depth i entries = .ok ()) :
    ∀ entry ∈ entries, entry.2.index = nonceSlot depth entry.1 ∧ entry.2.index < 2 ^ depth ∧
      entry.2.oldNonce < entry.2.newNonce := by
  induction entries generalizing i with
  | nil => simp
  | cons entry rest ih =>
      obtain ⟨sender, update⟩ := entry
      simp only [checkUpdates, Nat.one_shiftLeft] at checked
      split_ifs at checked with slot range low
      intro other member
      rcases List.mem_cons.mp member with rfl | later
      · exact ⟨not_not.mp slot, not_le.mp range, not_le.mp low⟩
      · exact ih checked other later

/-- The (slot, nonce) pairs a transaction submitted on the accumulator path. -/
def submittedUpdates (depth : ℕ) (call : RegistryCall Word) : List (ℕ × U64) :=
  match call with
  | .submitNonceTransition _ senders updates _ =>
      (senders.zip updates).map fun entry => (nonceSlot depth entry.1, entry.2.newNonce)
  | _ => []

/-- All updates accepted over a run. -/
def acceptedUpdates (depth : ℕ) (log : List (RegistryReceipt Word)) : List (ℕ × U64) :=
  log.flatMap fun receipt => submittedUpdates depth receipt.input.2

/-! ## The simulation -/

/-- The registry's root is the root of a tree of its depth, reached from the
initial one by the accepted updates. -/
structure TreeBehind (tree : NonceTree hash) (state : Registry Word)
    (accepted : List (ℕ × U64)) (current : NonceTree hash) : Prop where
  accumulator : state.accumulatorMode = true
  depth : state.nonceTreeDepth = tree.depth
  written : SetAll tree accepted current
  root : state.nonceStateRoot = current.root

/-- The step lemma: a successful transaction moves the tree by its updates. -/
theorem TreeBehind.step (separated : hash.Separated)
    (keccakInjective : Function.Injective digests.keccakPacked) {tree current : NonceTree hash}
    {env : Env Word} (sound : VerifierSound digests hash env) {state next : Registry Word}
    {call : RegistryCall Word} {accepted : List (ℕ × U64)}
    (behind : TreeBehind tree state accepted current)
    (effect : Effect digests env state call next) :
    ∃ after, TreeBehind tree next (accepted ++ submittedUpdates tree.depth call) after := by
  obtain ⟨accumulator, depth, written, root⟩ := behind
  have idle : accepted ++ [] = accepted := List.append_nil accepted
  cases effect with
  | submitBatch guards => exact ⟨current, accumulator, depth, idle.symm ▸ written, root⟩
  | submitBatchWithNonces mapping =>
      rw [accumulator] at mapping
      cases mapping
  | setVerifier owned nonzero => exact ⟨current, accumulator, depth, idle.symm ▸ written, root⟩
  | changeOwner owned => exact ⟨current, accumulator, depth, idle.symm ▸ written, root⟩
  | @submitNonceTransition bundle senders updates newNonceRoot _ lengths checked empty proved =>
      rw [depth] at checked
      have entries := checkUpdates_ok checked
      have pairs : updates.map (fun update => (update.index, update.newNonce)) =
          submittedUpdates tree.depth
            (.submitNonceTransition bundle senders updates newNonceRoot) := by
        have second : updates = (senders.zip updates).map Prod.snd :=
          (List.map_snd_zip lengths.ge).symm
        rw [second, List.map_map, ← second]
        apply List.map_congr_left
        intro entry member
        exact Prod.ext (entries entry member).1 rfl
      have checks (update : NonceUpdate Word) (member : update ∈ updates) :
          update.index < 2 ^ tree.depth ∧ update.oldNonce < update.newNonce := by
        have listed : (senders.zip updates).map Prod.snd = updates :=
          List.map_snd_zip lengths.ge
        rw [← listed] at member
        obtain ⟨entry, inside, rfl⟩ := List.mem_map.mp member
        exact (entries entry inside).2
      by_cases vacant : updates = []
      · subst vacant
        refine ⟨current, accumulator, depth, ?_, (empty rfl).trans root⟩
        rw [← pairs]
        exact idle.symm ▸ written
      · obtain ⟨last, bound, verified⟩ := proved vacant
        rw [depth] at bound
        have binds : Binds digests bundle
            ⟨state.nonceStateRoot, newNonceRoot, updates, tree.depth⟩ := bound
        obtain ⟨statement, alsoBinds, holds⟩ := sound _ _ _ verified _ binds
        obtain rfl := alsoBinds.unique keccakInjective binds
        have depths := written.depth_eq
        rw [root, ← depths] at holds
        obtain ⟨after, moved, reached⟩ := holds.setAll separated
          (fun update member => depths ▸ (checks update member).1)
          (fun update member => (checks update member).2)
        refine ⟨after, accumulator, depth, ?_, ?_⟩
        · rw [← pairs]
          exact written.append moved
        · rw [reached, last, Option.getD_some]

omit [DecidableEq Word] in
/-- Written nonces increase strictly in each slot, from the initial one on, and
the last one remains. -/
theorem setAll_slots {tree final : NonceTree hash} {entries : List (ℕ × U64)}
    (written : SetAll tree entries final) (slot : ℕ) :
    (valuesOf slot entries).Pairwise (· < ·) ∧
      (∀ nonce ∈ valuesOf slot entries, tree.get slot < nonce) ∧
      final.get slot = (valuesOf slot entries).getLast?.getD (tree.get slot) := by
  induction entries generalizing tree with
  | nil =>
      obtain rfl : final = tree := written
      simp
  | cons entry rest ih =>
      obtain ⟨next, taken, later⟩ := written
      obtain ⟨increasing, above, last⟩ := ih later
      obtain ⟨-, rises, -, values⟩ := NonceTree.set_spec taken
      rw [values] at above last
      by_cases own : entry.1 = slot
      · subst own
        rw [Function.update_self] at above last
        rw [valuesOf_cons_self]
        refine ⟨List.pairwise_cons.mpr ⟨above, increasing⟩, ?_, ?_⟩
        · intro nonce member
          rcases List.mem_cons.mp member with rfl | behind
          · exact rises
          · exact rises.trans (above nonce behind)
        · rw [last, List.getLast?_cons, Option.getD_some]
      · rw [Function.update_of_ne (Ne.symm own)] at above last
        rw [valuesOf_cons_of_ne own]
        exact ⟨increasing, above, last⟩

/-- Over every run the stored root is the root of the initial tree with the accepted updates
written in order, and no slot ever sees a nonce twice.  Hashing is taken as injective on what is
hashed, and the verifier contract as one that accepts a bundle only if some true statement is
bound by it; the callers, their order and the batches are arbitrary. -/
theorem accumulator_refines_mapping (separated : hash.Separated)
    (keccakInjective : Function.Injective digests.keccakPacked) (tree : NonceTree hash)
    {initialOwner verifier : Address} {nonceDepth : Fin 256} {initial : Registry Word}
    (depth : nonceDepth.val = tree.depth)
    (deployed : deploy digests initialOwner verifier tree.root nonceDepth = .ok initial)
    (inputs : List (Env Word × RegistryCall Word))
    (sound : ∀ input ∈ inputs, VerifierSound digests hash input.1) :
    let accepted := acceptedUpdates tree.depth (receipts (transact digests) initial inputs)
    ∃ current : NonceTree hash,
      (run (transact digests) initial inputs).nonceStateRoot = current.root ∧
      SetAll tree accepted current ∧
      (∀ slot, (valuesOf slot accepted).Pairwise (· < ·) ∧
        (∀ nonce ∈ valuesOf slot accepted, tree.get slot < nonce) ∧
        current.get slot = (valuesOf slot accepted).getLast?.getD (tree.get slot)) ∧
      accepted.Nodup := by
  intro accepted
  have start : TreeBehind tree initial [] tree := by
    have positive := tree.depth_pos
    unfold deploy at deployed
    rw [if_neg (show ¬ nonceDepth = 0 by rintro rfl; simp at depth; omega)] at deployed
    split_ifs at deployed
    cases deployed
    exact ⟨rfl, depth, rfl, rfl⟩
  obtain ⟨current, behind⟩ : ∃ current,
      TreeBehind tree (run (transact digests) initial inputs) accepted current := by
    refine run_induction (transact digests) (motive := fun state log =>
      ∃ current, TreeBehind tree state (acceptedUpdates tree.depth log) current)
      ⟨tree, start⟩ ?_
    rintro state log ⟨env, call⟩ next events ⟨current, behind⟩ member taken
    have stepped := behind.step separated keccakInjective (sound _ member) (transact_ok taken)
    simpa [acceptedUpdates] using stepped
  have slots := setAll_slots behind.written
  exact ⟨current, behind.root, behind.written, slots,
    nodup_of_valuesOf fun slot => (slots slot).1.imp fun below => below.ne⟩

/-! ## A run over free words -/

/-- Node hashing without identifications, on the words of `freeDigests`. -/
def freeWords : NonceHash (List ℕ) where
  leaf := fun nonce => [0, nonce.val]
  pair := fun left right => 1 :: left.length :: (left ++ right)

theorem freeWords_separated : freeWords.Separated where
  leaf_injective := by
    intro first second same
    simpa [freeWords, Fin.val_inj] using same
  pair_injective := by
    intro left otherLeft right otherRight same
    simp only [freeWords, List.cons.injEq, true_and] at same
    exact List.append_inj same.2 same.1
  leaf_ne_pair := by
    intro nonce left right same
    simp [freeWords] at same

/-- The two-slot tree. -/
def sampleTree : NonceTree freeWords := NonceTree.vacant freeWords 1 Nat.one_pos one_le_maxDepth

theorem sampleTree_root : sampleTree.root = freeWords.pair (freeWords.leaf 0) (freeWords.leaf 0) := by
  rw [NonceTree.root_eq_subtreeRoot]
  rfl

/-- Slot zero moves from zero to one. -/
def sampleStatement : NonceStatement (List ℕ) where
  oldRoot := freeWords.pair (freeWords.leaf 0) (freeWords.leaf 0)
  newRoot := freeWords.pair (freeWords.leaf 1) (freeWords.leaf 0)
  updates := [⟨0, 0, 1, freeWords.pair (freeWords.leaf 1) (freeWords.leaf 0)⟩]
  depth := 1

theorem sampleStatement_holds : sampleStatement.Holds freeWords := by
  intro pinned member
  obtain rfl := List.mem_singleton.mp member
  exact ⟨[freeWords.leaf 0], rfl, rfl, rfl⟩

/-- The batch root of the statement. -/
def sampleBinding : List ℕ :=
  nonceStatementBinding freeDigests sampleStatement.oldRoot sampleStatement.newRoot
    sampleStatement.depth sampleStatement.updates

/-- A verifier that accepts exactly the bundles bound to the statement. -/
def statementEnv : Env (List ℕ) where
  sender := 1
  timestamp := 1700000000
  verifyRecursive := fun _ _ bundle => some (decide (bundle.inner.batchRoot = sampleBinding))

theorem statementEnv_sound : VerifierSound freeDigests freeWords statementEnv := by
  intro position verifier bundle accepted statement _
  have bound : bundle.inner.batchRoot = sampleBinding := by
    simpa [statementEnv] using accepted
  exact ⟨sampleStatement, bound, sampleStatement_holds⟩

/-- The transition of the statement, by the sender of slot zero. -/
def sampleTransition : RegistryCall (List ℕ) :=
  .submitNonceTransition
    { crossBoundBundle [10] [8] with
      inner := { (crossBoundBundle [10] [8]).inner with batchRoot := sampleBinding } }
    [0] sampleStatement.updates sampleStatement.newRoot

/-- The registry deployed at the root of the two-slot tree. -/
def sampleRegistry : Registry (List ℕ) :=
  { emptyRegistry freeDigests 1 1 with
    accumulatorMode := true
    nonceTreeDepth := 1
    nonceStateRoot := sampleTree.root }

theorem sampleRegistry_deployed :
    deploy freeDigests 1 1 sampleTree.root 1 = .ok sampleRegistry := by
  unfold deploy sampleRegistry
  rw [sampleTree_root]
  rfl

theorem accumulator_refines_mapping_sample :
    let accepted := acceptedUpdates sampleTree.depth (receipts (transact freeDigests)
      sampleRegistry [(statementEnv, sampleTransition), (statementEnv, sampleTransition)])
    ∃ current : NonceTree freeWords,
      (run (transact freeDigests) sampleRegistry
        [(statementEnv, sampleTransition), (statementEnv, sampleTransition)]).nonceStateRoot =
          current.root ∧
      SetAll sampleTree accepted current ∧
      (∀ slot, (valuesOf slot accepted).Pairwise (· < ·) ∧
        (∀ nonce ∈ valuesOf slot accepted, sampleTree.get slot < nonce) ∧
        current.get slot = (valuesOf slot accepted).getLast?.getD (sampleTree.get slot)) ∧
      accepted.Nodup :=
  accumulator_refines_mapping freeWords_separated freeDigests_injective sampleTree
    rfl sampleRegistry_deployed _
    (by
      intro input member
      simp only [List.mem_cons, List.not_mem_nil, or_false, or_self] at member
      rw [member]
      exact statementEnv_sound)

end Contracts
end QLSA
