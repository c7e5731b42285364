import QLSA.Aggregator.Batcher
import QLSA.Machine.Fallible

namespace QLSA
namespace Aggregator

open QLSA.Core
open Machine (bind_eq_ok)

/-!
# What becomes of drained transactions

First the parts of a cycle: the filter keeps the verified transactions of a
supported algorithm, a batch of them is built unless it is too large, and the
proving ends without an exception exactly when its calls are handled.  Then the
cycle, and the two ways into it.
-/

section Parts

variable (crypto : Crypto) (provers : ProverModules) (batcher : Batcher)

/-! ## The filter and the batch -/

/-- The signature verifies. -/
def verifies (algorithm : String) (tx : Transaction) : Bool :=
  match tx.signature with
  | none => false
  | some signature => verifySignature crypto tx.toBytes signature tx.publicKey algorithm

theorem filterValid_supported (supported : batcher.algorithm ∈ supportedAlgorithms)
    (txs : List Transaction) :
    filterValid crypto batcher txs = .ok (txs.filter (verifies crypto batcher.algorithm)) := by
  induction txs with
  | nil => rfl
  | cons tx txs ih =>
      rw [List.filter_cons, filterValid]
      cases signed : tx.signature with
      | none =>
          have fails : verifies crypto batcher.algorithm tx = false := by rw [verifies, signed]
          rw [fails]
          exact ih
      | some signature =>
          have same : verifies crypto batcher.algorithm tx =
              verifySignature crypto tx.toBytes signature tx.publicKey batcher.algorithm := by
            rw [verifies, signed]
          dsimp only
          rw [sigVerify, if_neg (not_not.mpr supported), ih, same]
          rfl

/-- With an unsupported algorithm the first signed transaction raises. -/
theorem filterValid_unsupported (unsupported : batcher.algorithm ∉ supportedAlgorithms)
    (txs : List Transaction) :
    (∃ escape, filterValid crypto batcher txs = .error escape) ∨
      filterValid crypto batcher txs = .ok [] ∧
        txs.filter (verifies crypto batcher.algorithm) = [] := by
  induction txs with
  | nil => exact .inr ⟨rfl, rfl⟩
  | cons tx txs ih =>
      rw [List.filter_cons, filterValid]
      cases signed : tx.signature with
      | none =>
          have fails : verifies crypto batcher.algorithm tx = false := by rw [verifies, signed]
          rw [fails]
          exact ih
      | some signature =>
          left
          dsimp only
          rw [sigVerify, if_pos unsupported]
          exact ⟨_, rfl⟩

/-- The batch of verified transactions. -/
def batchOf (txs : List Transaction) : Batch :=
  ⟨txs, sha3MerkleRoot crypto (txs.map (Transaction.txHash crypto))⟩

theorem checkSignatures_ok {algorithm : String} {txs : List Transaction}
    (valid : ∀ tx ∈ txs, verifies crypto algorithm tx = true) (first : ℕ) :
    checkSignatures crypto algorithm first txs = .ok () := by
  induction txs generalizing first with
  | nil => rfl
  | cons tx txs ih =>
      have own := valid tx List.mem_cons_self
      rw [verifies] at own
      rw [checkSignatures]
      cases signed : tx.signature with
      | none =>
          rw [signed] at own
          cases own
      | some signature =>
          rw [signed] at own
          dsimp only at own ⊢
          rw [if_pos own]
          exact ih (fun other member => valid other (List.mem_cons_of_mem _ member)) _

/-- Verified transactions make a batch unless there are too many. -/
theorem createBatch_verified {algorithm : String} (supported : algorithm ∈ supportedAlgorithms)
    {txs : List Transaction} (valid : ∀ tx ∈ txs, verifies crypto algorithm tx = true)
    (nonempty : txs ≠ []) :
    (txs.length ≤ maxBatchSize → createBatch crypto txs algorithm = .ok (batchOf crypto txs)) ∧
    (maxBatchSize < txs.length →
      ∃ message, createBatch crypto txs algorithm = .error (.batchSize message)) := by
  have positive := List.length_pos_iff.mpr nonempty
  rw [createBatch, if_neg (not_not.mpr supported),
    if_neg (by simp only [minBatchSize]; omega)]
  constructor
  · intro room
    rw [if_neg (by omega), checkSignatures_ok crypto valid]
    rfl
  · intro large
    rw [if_pos large]
    exact ⟨_, rfl⟩

/-! ## The calls of the provers -/

/-- The calls of the signature provers from one on. -/
def witnessCalls (tx0 : Transaction) (root : Bytes) : ℕ → List String → List WitnessCall
  | _, [] => []
  | call, protocol :: rest =>
      provers.proveSignature call protocol tx0 (root.take 32) batcher.nFriQueries ::
        witnessCalls tx0 root (call + 1) rest

/-- No call raises a `KeyError` or something that is not an `Exception`, and a
value without commitment attribute is returned only when a commitment is known
already or was returned by an earlier call. -/
def WitnessesHandled (known : Prop) (calls : List WitnessCall) : Prop :=
  ∀ (i : ℕ) (call : WitnessCall), calls[i]? = some call → call ≠ .keyError ∧ call ≠ .escapes ∧
    (call = .returned none → known ∨
      ∃ j < i, ∃ commitment, calls[j]? = some (.returned (some (some commitment))))

/-- The tree prover raises nothing but an `Exception`, its value has a leaf
count, and one that covers the batch can be printed. -/
def TreeHandled (count : ℕ) (call : TreeCall) : Prop :=
  call ≠ .escapes ∧ (∀ printable, call ≠ .returned none printable) ∧
    call ≠ .returned (some count) false

theorem witnessesHandled_cons {known : Prop} {call : WitnessCall} {calls : List WitnessCall} :
    WitnessesHandled known (call :: calls) ↔
      call ≠ .keyError ∧ call ≠ .escapes ∧ (call = .returned none → known) ∧
        WitnessesHandled (known ∨ ∃ commitment, call = .returned (some (some commitment))) calls := by
  constructor
  · intro handled
    have own := handled 0 call rfl
    refine ⟨own.1, own.2.1, ?_, ?_⟩
    · intro missing
      rcases own.2.2 missing with already | ⟨j, earlier, -⟩
      · exact already
      · exact absurd earlier (Nat.not_lt_zero j)
    · intro i later at_i
      have next := handled (i + 1) later at_i
      refine ⟨next.1, next.2.1, ?_⟩
      intro missing
      rcases next.2.2 missing with already | ⟨j, earlier, commitment, found⟩
      · exact .inl (.inl already)
      · cases j with
        | zero => exact .inl (.inr ⟨commitment, Option.some.inj found⟩)
        | succ j => exact .inr ⟨j, by omega, commitment, found⟩
  · rintro ⟨key, raised, read, rest⟩ i later at_i
    cases i with
    | zero =>
        cases Option.some.inj at_i
        exact ⟨key, raised, fun missing => .inl (read missing)⟩
    | succ i =>
        have next := rest i later at_i
        refine ⟨next.1, next.2.1, ?_⟩
        intro missing
        rcases next.2.2 missing with (already | ⟨commitment, own⟩) | ⟨j, earlier, commitment, found⟩
        · exact .inl already
        · exact .inr ⟨0, Nat.succ_pos i, commitment, by rw [own]; rfl⟩
        · exact .inr ⟨j + 1, by omega, commitment, found⟩

/-- The loop over the protocols ends without an exception exactly when its
calls are handled, and keeps the batch. -/
theorem proveWitnesses_ok_iff (tx0 : Transaction) (call : ℕ) (protocols : List String)
    (result : BatchResult) :
    ((∃ proved, proveWitnesses provers batcher tx0 call protocols result = .ok proved) ↔
      WitnessesHandled (result.witnessCommitment.isSome = true)
        (witnessCalls provers batcher tx0 result.batch.merkleRoot call protocols)) ∧
    ∀ proved, proveWitnesses provers batcher tx0 call protocols result = .ok proved →
      proved.batch = result.batch := by
  induction protocols generalizing call result with
  | nil =>
      constructor
      · simp [proveWitnesses, witnessCalls, WitnessesHandled]
      · intro proved ended
        cases ended
        rfl
  | cons protocol rest ih =>
      rw [witnessCalls, witnessesHandled_cons, proveWitnesses]
      have root : result.merkleRootOnchain = result.batch.merkleRoot.take 32 := rfl
      rw [root]
      cases ended : provers.proveSignature call protocol tx0 (result.batch.merkleRoot.take 32)
        batcher.nFriQueries with
      | keyError => simp
      | escapes => simp
      | skipped =>
          rcases ih (call + 1) result with ⟨handled, kept⟩
          refine ⟨?_, kept⟩
          simp only [handled]
          simp
      | returned commitment =>
          by_cases known : result.witnessCommitment.isSome = true
          · rcases ih (call + 1) { result with
              witnessProofs := result.witnessProofs.insert protocol } with ⟨handled, kept⟩
            simp only [known, if_true]
            refine ⟨?_, kept⟩
            simp only [handled, known]
            simp
          · simp only [known]
            cases commitment with
            | none => simp
            | some read =>
                rcases ih (call + 1) { result with
                  witnessProofs := result.witnessProofs.insert protocol
                  witnessCommitment := read } with ⟨handled, kept⟩
                refine ⟨?_, kept⟩
                have next : (read.isSome = true) ↔
                    (False ∨ ∃ commitment, WitnessCall.returned (some read) =
                      .returned (some (some commitment))) := by
                  cases read <;> simp
                simp only [Bool.false_eq_true, if_false, handled, next]
                simp

/-- The tree prover ends without an exception exactly when its call is handled,
and keeps the batch. -/
theorem proveTree_ok_iff (result : BatchResult) {batch : Batch}
    (nonempty : batch.transactions ≠ [])
    (signed : ∀ tx ∈ batch.transactions, tx.signature.isSome = true) :
    ((∃ proved, proveTree provers batcher result batch = .ok proved) ↔
      TreeHandled batch.transactions.length
        (provers.proveTree batch.transactions (batcher.nFriQueries.getD 1))) ∧
    ∀ proved, proveTree provers batcher result batch = .ok proved → proved.batch = result.batch := by
  have entries : batch.transactions.filter (fun tx => tx.signature.isSome) = batch.transactions :=
    List.filter_eq_self.mpr signed
  have some : batch.transactions.isEmpty = false := by simpa using nonempty
  rw [proveTree, entries, some]
  simp only [Bool.false_eq_true, if_false, ne_eq, not_true_eq_false]
  cases provers.proveTree batch.transactions (batcher.nFriQueries.getD 1) with
  | escapes => simp [TreeHandled]
  | skipped => simp [TreeHandled]
  | returned leafCount printable =>
      cases leafCount with
      | none => simp [TreeHandled]
      | some count =>
          by_cases covers : count = batch.transactions.length
          · cases printable with
            | true => simp [TreeHandled, covers]
            | false => simp [TreeHandled, covers]
          · simp [TreeHandled, covers]

/-- Every call of the provers over a batch is handled. -/
structure ProvingHandled (withWitnesses withTree : Bool) (batch : Batch) : Prop where
  stark : provers.proveBatch batch ≠ .escapes
  witnesses : withWitnesses = true → ∀ tx0 ∈ batch.transactions.head?,
    WitnessesHandled False
      (witnessCalls provers batcher tx0 batch.merkleRoot 0 batcher.witnessProtocols)
  tree : withTree = true → TreeHandled batch.transactions.length
    (provers.proveTree batch.transactions (batcher.nFriQueries.getD 1))

theorem proveStark_ok_iff (batch : Batch) :
    ((∃ started, proveStark provers batch = .ok started) ↔ provers.proveBatch batch ≠ .escapes) ∧
    ∀ result crashed, proveStark provers batch = .ok (result, crashed) →
      result.batch = batch ∧ result.witnessCommitment = none ∧
        (crashed = true ↔ ∃ stored, provers.proveBatch batch = .crashed stored) := by
  rw [proveStark]
  cases provers.proveBatch batch with
  | escapes => simp
  | unavailable =>
      refine ⟨by simp, ?_⟩
      intro result crashed started
      cases started
      simp
  | crashed stored =>
      refine ⟨by simp, ?_⟩
      intro result crashed started
      cases started
      simp
  | proved proof commitment =>
      refine ⟨by simp, ?_⟩
      intro result crashed started
      cases started
      simp

theorem addWitnesses_ok_iff (withWitnesses : Bool) (result : BatchResult) {batch : Batch}
    (same : result.batch = batch) (fresh : result.witnessCommitment = none)
    (signed : ∀ tx ∈ batch.transactions, tx.signature.isSome = true) :
    ((∃ proved, addWitnesses provers batcher withWitnesses result batch = .ok proved) ↔
      (withWitnesses = true → ∀ tx0 ∈ batch.transactions.head?, WitnessesHandled False
        (witnessCalls provers batcher tx0 batch.merkleRoot 0 batcher.witnessProtocols))) ∧
    ∀ proved, addWitnesses provers batcher withWitnesses result batch = .ok proved →
      proved.batch = batch := by
  rw [addWitnesses]
  cases listed : batch.transactions with
  | nil => simp [same]
  | cons tx0 rest =>
      have own : tx0.signature.isSome = true := signed tx0 (by rw [listed]; exact List.mem_cons_self)
      have loop := proveWitnesses_ok_iff provers batcher tx0 0 batcher.witnessProtocols result
      rw [fresh, same] at loop
      simp only [Option.isSome_none, Bool.false_eq_true] at loop
      cases withWitnesses with
      | false => simp [same]
      | true =>
          simp only [own, Bool.and_self, if_true, List.head?_cons, Option.mem_def,
            Option.some.injEq, forall_eq', true_implies]
          exact loop

theorem addTree_ok_iff (withTree : Bool) (result : BatchResult) {batch : Batch}
    (nonempty : batch.transactions ≠ [])
    (signed : ∀ tx ∈ batch.transactions, tx.signature.isSome = true) :
    ((∃ proved, addTree provers batcher withTree result batch = .ok proved) ↔
      (withTree = true → TreeHandled batch.transactions.length
        (provers.proveTree batch.transactions (batcher.nFriQueries.getD 1)))) ∧
    ∀ proved, addTree provers batcher withTree result batch = .ok proved →
      proved.batch = result.batch := by
  have tree := proveTree_ok_iff provers batcher result nonempty signed
  have some : batch.transactions.isEmpty = false := by simpa using nonempty
  rw [addTree, some]
  cases withTree with
  | false => simp
  | true =>
      simp only [Bool.not_false, Bool.and_self, if_true, true_implies]
      exact tree

/-- The three stages of the proving, one after the other. -/
theorem tryProve_eq_ok_iff (withWitnesses withTree : Bool) (batch : Batch) (result : BatchResult)
    (crashed : Bool) :
    tryProve provers batcher withWitnesses withTree batch = .ok (result, crashed) ↔
      ∃ first, proveStark provers batch = .ok (first, crashed) ∧
        ∃ second, addWitnesses provers batcher withWitnesses first batch = .ok second ∧
          addTree provers batcher withTree second batch = .ok result := by
  rw [tryProve, bind_eq_ok]
  constructor
  · rintro ⟨⟨first, flag⟩, started, later⟩
    rcases bind_eq_ok.mp later with ⟨second, witnessed, last⟩
    rcases bind_eq_ok.mp last with ⟨third, finished, ended⟩
    cases ended
    exact ⟨first, started, second, witnessed, finished⟩
  · rintro ⟨first, started, second, witnessed, finished⟩
    refine ⟨(first, crashed), started, ?_⟩
    exact bind_eq_ok.mpr ⟨second, witnessed, bind_eq_ok.mpr ⟨result, finished, rfl⟩⟩

/-- The proving of signed transactions ends without an exception exactly when
all calls are handled. -/
theorem tryProve_ok_iff (withWitnesses withTree : Bool) {batch : Batch}
    (nonempty : batch.transactions ≠ [])
    (signed : ∀ tx ∈ batch.transactions, tx.signature.isSome = true) :
    ((∃ result crashed,
        tryProve provers batcher withWitnesses withTree batch = .ok (result, crashed)) ↔
      ProvingHandled provers batcher withWitnesses withTree batch) ∧
    ∀ result crashed, tryProve provers batcher withWitnesses withTree batch = .ok (result, crashed) →
      result.batch = batch ∧
        (crashed = true ↔ ∃ stored, provers.proveBatch batch = .crashed stored) := by
  rcases proveStark_ok_iff provers batch with ⟨starkIff, starkSpec⟩
  have witnessStage (first : BatchResult) (flag : Bool)
      (started : proveStark provers batch = .ok (first, flag)) :=
    addWitnesses_ok_iff provers batcher withWitnesses first (starkSpec first flag started).1
      (starkSpec first flag started).2.1 signed
  have treeStage (second : BatchResult) :=
    addTree_ok_iff provers batcher withTree second nonempty signed
  constructor
  · constructor
    · rintro ⟨result, crashed, ended⟩
      rcases (tryProve_eq_ok_iff provers batcher _ _ _ _ _).mp ended with
        ⟨first, started, second, witnessed, finished⟩
      exact ⟨starkIff.mp ⟨_, started⟩, (witnessStage first crashed started).1.mp ⟨_, witnessed⟩,
        (treeStage second).1.mp ⟨_, finished⟩⟩
    · intro handled
      rcases starkIff.mpr handled.stark with ⟨⟨first, crashed⟩, started⟩
      rcases (witnessStage first crashed started).1.mpr handled.witnesses with ⟨second, witnessed⟩
      rcases (treeStage second).1.mpr handled.tree with ⟨result, finished⟩
      exact ⟨result, crashed, (tryProve_eq_ok_iff provers batcher _ _ _ _ _).mpr
        ⟨first, started, second, witnessed, finished⟩⟩
  · intro result crashed ended
    rcases (tryProve_eq_ok_iff provers batcher _ _ _ _ _).mp ended with
      ⟨first, started, second, witnessed, finished⟩
    refine ⟨?_, (starkSpec first crashed started).2.2⟩
    exact ((treeStage second).2 _ finished).trans ((witnessStage first crashed started).2 _ witnessed)

end Parts

/-! ## The cycle -/

section Cycle

variable (crypto : Crypto) (provers : ProverModules) (batcher : Batcher)

/-- How a cycle ends: failed attempts, pool, and result or exception. -/
abbrev Ending := RetryDict × Mempool × Except Escape (Option BatchResult)

/-- The drained transactions that verify. -/
def validOf (drained : List Transaction) : List Transaction :=
  drained.filter (verifies crypto batcher.algorithm)

/-- The valid transactions make up the returned batch; or they stand in front
of the pool that the cycle met at its end, up to some that are counted as
dropped because the pool is full. -/
def Accounted (drained : List Transaction) (met : Mempool) (ending : Ending) : Prop :=
  (∃ result, ending.2.2 = .ok (some result) ∧
      result.batch.transactions = validOf crypto batcher drained) ∨
    ∃ kept dropped, validOf crypto batcher drained = kept ++ dropped ∧
      ending.2.1.txs = kept ++ met.txs ∧
      ending.2.1.droppedTotal = met.droppedTotal + dropped.length ∧
      (dropped ≠ [] → ending.2.1.maxSize ≤ ending.2.1.txs.length)

/-- A batch is built and its prover crashes. -/
def ProverCrashes (drained : List Transaction) : Prop :=
  ∃ batch stored, createBatch crypto (validOf crypto batcher drained) batcher.algorithm = .ok batch ∧
    provers.proveBatch batch = .crashed stored

/-- No valid transaction is lost, and a batch comes out when there is one and
the prover does not crash. -/
def LosesNothing (drained : List Transaction) (met : Mempool) (ending : Ending) : Prop :=
  Accounted crypto batcher drained met ending ∧
    (¬ ProverCrashes crypto provers batcher drained → validOf crypto batcher drained ≠ [] →
      ∃ result, ending.2.2 = .ok (some result))

/-- No drained transaction is valid; or the algorithm is supported, a batch may
be as large as the valid transactions are many, and all prover calls over it
are handled. -/
def CycleHandled (withWitnesses withTree : Bool) (drained : List Transaction) : Prop :=
  validOf crypto batcher drained = [] ∨
    batcher.algorithm ∈ supportedAlgorithms ∧
      (validOf crypto batcher drained).length ≤ maxBatchSize ∧
      ProvingHandled provers batcher withWitnesses withTree
        (batchOf crypto (validOf crypto batcher drained))

variable {crypto provers batcher}
variable {drained : List Transaction} {pool : Mempool} {retries : RetryDict}

theorem accounted_of_empty (none_valid : validOf crypto batcher drained = [])
    {outcome : Except Escape (Option BatchResult)} :
    Accounted crypto batcher drained pool (retries, pool, outcome) :=
  .inr ⟨[], [], none_valid, rfl, rfl, fun differs => absurd rfl differs⟩

/-- An exception that leaves the pool alone loses what was valid. -/
theorem not_accounted_of_error (some_valid : validOf crypto batcher drained ≠ []) {escape : Escape} :
    ¬ Accounted crypto batcher drained pool (retries, pool, .error escape) := by
  rintro (⟨result, returned, -⟩ | ⟨kept, dropped, parts, queue, count, -⟩)
  · cases returned
  · have nothing : kept = [] := List.self_eq_append_left.mp queue
    have none_dropped : dropped = [] := by
      apply List.length_eq_zero_iff.mp
      have counted : pool.droppedTotal = pool.droppedTotal + dropped.length := count
      omega
    rw [nothing, none_dropped] at parts
    exact some_valid parts

/-- Returned transactions are accounted for. -/
theorem accounted_of_prependBatch {outcome : Except Escape (Option BatchResult)} :
    Accounted crypto batcher drained pool
      (retries, (pool.prependBatch crypto (validOf crypto batcher drained)).2, outcome) := by
  rcases @Mempool.prependBatch_spec crypto pool (validOf crypto batcher drained) with
    ⟨-, queue, capacity, count, -⟩
  refine .inr ⟨_, _, (List.take_append_drop pool.fit _).symm, queue, count, ?_⟩
  intro overflow
  have longer : pool.fit < (validOf crypto batcher drained).length := by
    by_contra short
    exact overflow (List.drop_of_length_le (not_lt.mp short))
  dsimp only
  rw [capacity, queue, List.length_append, List.length_take, Mempool.fit] at *
  omega

theorem filterValid_ok {validTxs : List Transaction}
    (filtered : filterValid crypto batcher drained = .ok validTxs) :
    validTxs = validOf crypto batcher drained := by
  by_cases supported : batcher.algorithm ∈ supportedAlgorithms
  · rw [filterValid_supported crypto batcher supported] at filtered
    exact (Except.ok.inj filtered).symm
  · rcases filterValid_unsupported crypto batcher supported drained with
      ⟨escape, raised⟩ | ⟨nothing, none_valid⟩
    · rw [raised] at filtered
      cases filtered
    · rw [nothing] at filtered
      cases filtered
      exact none_valid.symm

/-- A cycle without valid transactions has nothing to lose. -/
theorem losesNothing_of_empty (none_valid : validOf crypto batcher drained = [])
    (withWitnesses withTree : Bool) :
    LosesNothing crypto provers batcher drained pool
      (createAndProve crypto provers batcher withWitnesses withTree retries pool drained) := by
  refine ⟨?_, fun _ some_valid => absurd none_valid some_valid⟩
  rw [createAndProve]
  cases filtered : filterValid crypto batcher drained with
  | error escape => exact accounted_of_empty none_valid
  | ok validTxs =>
      rw [filterValid_ok filtered, none_valid]
      exact accounted_of_empty none_valid

theorem validOf_verified : ∀ tx ∈ validOf crypto batcher drained,
    verifies crypto batcher.algorithm tx = true :=
  fun _ member => (List.mem_filter.mp member).2

theorem signed_of_verifies {algorithm : String} {tx : Transaction}
    (verified : verifies crypto algorithm tx = true) : tx.signature.isSome = true := by
  rw [verifies] at verified
  cases signed : tx.signature with
  | none =>
      rw [signed] at verified
      cases verified
  | some signature => rfl

/-- The end of a cycle with a batch depends on its provers. -/
theorem createAndProve_of_batch (supported : batcher.algorithm ∈ supportedAlgorithms)
    (some_valid : validOf crypto batcher drained ≠ [])
    (room : (validOf crypto batcher drained).length ≤ maxBatchSize) (withWitnesses withTree : Bool) :
    LosesNothing crypto provers batcher drained pool
        (createAndProve crypto provers batcher withWitnesses withTree retries pool drained) ↔
      ProvingHandled provers batcher withWitnesses withTree
        (batchOf crypto (validOf crypto batcher drained)) := by
  have filtered : filterValid crypto batcher drained = .ok (validOf crypto batcher drained) :=
    filterValid_supported crypto batcher supported drained
  have built := (createBatch_verified crypto supported validOf_verified some_valid).1 room
  have some : (validOf crypto batcher drained).isEmpty = false := by simpa using some_valid
  have transactions : (batchOf crypto (validOf crypto batcher drained)).transactions =
      validOf crypto batcher drained := rfl
  have signed : ∀ tx ∈ (batchOf crypto (validOf crypto batcher drained)).transactions,
      tx.signature.isSome = true :=
    fun tx member => signed_of_verifies (validOf_verified tx member)
  rw [← transactions] at some_valid
  rcases tryProve_ok_iff provers batcher withWitnesses withTree some_valid signed with
    ⟨handled, spec⟩
  rw [transactions] at some_valid
  rw [createAndProve, filtered]
  dsimp only
  rw [some, built]
  simp only [Bool.false_eq_true, if_false]
  cases proved : tryProve provers batcher withWitnesses withTree
    (batchOf crypto (validOf crypto batcher drained)) with
  | error escape =>
      constructor
      · intro nothing
        exact absurd nothing.1 (not_accounted_of_error some_valid)
      · intro all
        rcases handled.mpr all with ⟨result, crashed, ended⟩
        rw [proved] at ended
        cases ended
  | ok pair =>
      rcases pair with ⟨result, crashed⟩
      rcases spec result crashed proved with ⟨same, crash⟩
      have kept : result.batch.transactions = validOf crypto batcher drained := by
        rw [same, transactions]
      refine ⟨fun _ => handled.mp ⟨result, crashed, proved⟩, fun _ => ?_⟩
      cases crashed with
      | false => exact ⟨.inl ⟨result, rfl, kept⟩, fun _ _ => ⟨result, rfl⟩⟩
      | true =>
          have crashes : ProverCrashes crypto provers batcher drained := by
            rcases crash.mp rfl with ⟨stored, called⟩
            exact ⟨_, stored, built, called⟩
          simp only [if_true]
          split
          · exact ⟨accounted_of_prependBatch, fun calm => absurd crashes calm⟩
          · exact ⟨.inl ⟨result, rfl, kept⟩, fun _ _ => ⟨result, rfl⟩⟩

/-- A batch that would be too large sends its transactions back. -/
theorem not_losesNothing_of_large (supported : batcher.algorithm ∈ supportedAlgorithms)
    (large : maxBatchSize < (validOf crypto batcher drained).length) (withWitnesses withTree : Bool) :
    ¬ LosesNothing crypto provers batcher drained pool
      (createAndProve crypto provers batcher withWitnesses withTree retries pool drained) := by
  have some_valid : validOf crypto batcher drained ≠ [] := by
    apply List.ne_nil_of_length_pos
    omega
  have filtered : filterValid crypto batcher drained = .ok (validOf crypto batcher drained) :=
    filterValid_supported crypto batcher supported drained
  rcases (createBatch_verified crypto supported validOf_verified some_valid).2 large with
    ⟨message, refused⟩
  have some : (validOf crypto batcher drained).isEmpty = false := by simpa using some_valid
  rintro ⟨-, comes_out⟩
  rw [createAndProve, filtered] at comes_out
  dsimp only at comes_out
  rw [some, refused] at comes_out
  have calm : ¬ ProverCrashes crypto provers batcher drained := by
    rintro ⟨batch, stored, built, -⟩
    rw [refused] at built
    cases built
  rcases comes_out calm some_valid with ⟨result, returned⟩
  cases returned

/-- A cycle loses nothing exactly when it is handled. -/
theorem createAndProve_losesNothing_iff (withWitnesses withTree : Bool) :
    LosesNothing crypto provers batcher drained pool
        (createAndProve crypto provers batcher withWitnesses withTree retries pool drained) ↔
      CycleHandled crypto provers batcher withWitnesses withTree drained := by
  by_cases none_valid : validOf crypto batcher drained = []
  · exact ⟨fun _ => .inl none_valid, fun _ => losesNothing_of_empty none_valid _ _⟩
  · by_cases supported : batcher.algorithm ∈ supportedAlgorithms
    · by_cases room : (validOf crypto batcher drained).length ≤ maxBatchSize
      · rw [createAndProve_of_batch supported none_valid room, CycleHandled]
        simp [none_valid, supported, room]
      · have large : ¬ LosesNothing crypto provers batcher drained pool (createAndProve crypto
            provers batcher withWitnesses withTree retries pool drained) :=
          not_losesNothing_of_large supported (not_le.mp room) withWitnesses withTree
        rw [CycleHandled]
        simp [large, none_valid, room]
    · rw [CycleHandled]
      simp only [none_valid, supported, false_or, false_and, iff_false]
      rcases filterValid_unsupported crypto batcher supported drained with
        ⟨escape, raised⟩ | ⟨-, nothing⟩
      · rw [createAndProve, raised]
        exact fun nothing => not_accounted_of_error none_valid nothing.1
      · exact absurd nothing none_valid

theorem batchOf_of_createBatch {algorithm : String} {txs : List Transaction} {batch : Batch}
    (built : createBatch crypto txs algorithm = .ok batch) : batch = batchOf crypto txs := by
  unfold createBatch at built
  split at built
  case isTrue unsupported => cases built
  case isFalse supported =>
    split at built
    case isTrue few => cases built
    case isFalse enough =>
      split at built
      case isTrue large => cases built
      case isFalse room =>
        split at built
        · cases built
        · cases built
          rfl

/-- A cycle that returns a batch of the valid transactions leaves the pool
alone; another one leaves it alone or gives the valid transactions back. -/
theorem createAndProve_cases (withWitnesses withTree : Bool) {ending : Ending}
    (ended : createAndProve crypto provers batcher withWitnesses withTree retries pool drained =
      ending) :
    (∃ result, ending.2 = (pool, .ok (some result)) ∧
      result.batch.transactions = validOf crypto batcher drained) ∨
    (∀ result, ending.2.2 ≠ .ok (some result)) ∧
      (ending.2.1 = pool ∨
        ending.2.1 = (pool.prependBatch crypto (validOf crypto batcher drained)).2) := by
  rw [← ended, createAndProve]
  cases filtered : filterValid crypto batcher drained with
  | error escape => exact .inr ⟨nofun, .inl rfl⟩
  | ok validTxs =>
      have valid := filterValid_ok filtered
      rw [valid]
      by_cases nothing : validOf crypto batcher drained = []
      · rw [nothing]
        exact .inr ⟨nofun, .inl rfl⟩
      · have filled : (validOf crypto batcher drained).isEmpty = false := by simpa using nothing
        dsimp only
        rw [filled]
        simp only [Bool.false_eq_true, if_false]
        cases built : createBatch crypto (validOf crypto batcher drained) batcher.algorithm with
        | error failure =>
            cases failure with
            | unsupportedAlgorithm algorithm => exact .inr ⟨nofun, .inl rfl⟩
            | batchSize message => exact .inr ⟨nofun, .inr rfl⟩
            | invalidSignature place => exact .inr ⟨nofun, .inr rfl⟩
        | ok batch =>
            dsimp only
            have transactions : batch.transactions = validOf crypto batcher drained := by
              rw [batchOf_of_createBatch built]
              rfl
            have signed : ∀ tx ∈ batch.transactions, tx.signature.isSome = true := by
              rw [transactions]
              exact fun tx member => signed_of_verifies (validOf_verified tx member)
            rw [← transactions] at nothing
            cases proved : tryProve provers batcher withWitnesses withTree batch with
            | error escape => exact .inr ⟨nofun, .inl rfl⟩
            | ok pair =>
                rcases pair with ⟨result, crashed⟩
                have same :=
                  ((tryProve_ok_iff provers batcher withWitnesses withTree nothing signed).2
                    result crashed proved).1
                have kept : result.batch.transactions = validOf crypto batcher drained := by
                  rw [same, transactions]
                cases crashed with
                | false => exact .inl ⟨result, rfl, kept⟩
                | true =>
                    simp only [if_true]
                    split
                    · exact .inr ⟨nofun, .inr rfl⟩
                    · exact .inl ⟨result, rfl, kept⟩

/-- Neither way into a cycle loses anything exactly when the cycle is handled.  `drained` is what
`try_batch` or `force_batch` takes from the pool, and `interference` is whatever submissions do to
the pool before the cycle ends.  The modules of the provers are arbitrary: what they return or
raise on every batch is a parameter, and the condition reads it for the one batch that the cycle
makes. -/
theorem batcher_losesNothing_iff (crypto : Crypto) (provers : ProverModules) (batcher : Batcher)
    (withWitnesses withTree : Bool) (retries : RetryDict) (pool : Mempool)
    (interference : Mempool → Mempool) :
    (∀ drained rest,
      pool.drainIfReady crypto batcher.minBatchSize batcher.maxBatchSize = .ok (drained, rest) →
      (LosesNothing crypto provers batcher drained (interference rest)
          (tryBatch crypto provers batcher withWitnesses withTree retries pool interference) ↔
        CycleHandled crypto provers batcher withWitnesses withTree drained)) ∧
    ∀ drained rest, pool.drain crypto batcher.maxBatchSize = (drained, rest) →
      (LosesNothing crypto provers batcher drained (interference rest)
          (forceBatch crypto provers batcher withWitnesses withTree retries pool interference) ↔
        CycleHandled crypto provers batcher withWitnesses withTree drained) := by
  have idle {met : Mempool} : LosesNothing crypto provers batcher [] met (retries, met, .ok none) ↔
      CycleHandled crypto provers batcher withWitnesses withTree [] := by
    have none_valid : validOf crypto batcher [] = [] := rfl
    exact ⟨fun _ => .inl none_valid,
      fun _ => ⟨accounted_of_empty none_valid, fun _ some_valid => absurd none_valid some_valid⟩⟩
  constructor
  · intro drained rest ready
    rw [tryBatch, ready]
    cases drained with
    | nil => exact idle
    | cons tx drained => exact createAndProve_losesNothing_iff withWitnesses withTree
  · intro drained rest ready
    rw [forceBatch, ready]
    cases drained with
    | nil => exact idle
    | cons tx drained => exact createAndProve_losesNothing_iff withWitnesses withTree

end Cycle

/-! ## A prover that raises a key error -/

/-- A batcher as the node makes it. -/
def nodeBatcher : Batcher where
  minBatchSize := 1
  maxBatchSize := 3000
  algorithm := "ML-DSA-65"
  nFriQueries := some 1
  witnessProtocols := [defaultWitnessProtocol]
  min_pos := by decide
  max_ge := by decide
  queries_range := by simp
  protocols_known := by decide

/-- One pending payment. -/
def onePayment : Mempool :=
  ⟨3000, [payment], {txHashHex acceptingCrypto payment}, 0, by decide⟩

/-- Provers without their extension, whose signature prover may raise a key error. -/
def bareProvers (raises : Bool) : ProverModules where
  proveBatch := fun _ => .unavailable
  proveSignature := fun _ _ _ _ _ => if raises then .keyError else .skipped
  proveTree := fun _ _ => .skipped

theorem payment_verifies : validOf acceptingCrypto nodeBatcher [payment] = [payment] := by
  have verified : verifies acceptingCrypto "ML-DSA-65" payment = true := by decide
  exact List.filter_cons_of_pos verified

theorem key_error_loses_payment :
    ¬ ∀ (crypto : Crypto) (provers : ProverModules) (batcher : Batcher)
      (withWitnesses withTree : Bool) (retries : RetryDict) (pool : Mempool)
      (interference : Mempool → Mempool) (drained : List Transaction) (rest : Mempool),
      pool.drainIfReady crypto batcher.minBatchSize batcher.maxBatchSize = .ok (drained, rest) →
      LosesNothing crypto provers batcher drained (interference rest)
        (tryBatch crypto provers batcher withWitnesses withTree retries pool interference) := by
  intro losesNothing
  have ready : onePayment.drainIfReady acceptingCrypto nodeBatcher.minBatchSize
      nodeBatcher.maxBatchSize = .ok (onePayment.popFront acceptingCrypto 1) := rfl
  have nothing := losesNothing acceptingCrypto (bareProvers true) nodeBatcher true false [] onePayment id
    [payment] (onePayment.popFront acceptingCrypto 1).2 ready
  rw [tryBatch, ready] at nothing
  have handled := (createAndProve_losesNothing_iff true false).mp nothing
  rcases handled with none_valid | ⟨-, -, proving⟩
  · rw [payment_verifies] at none_valid
    cases none_valid
  · rw [payment_verifies] at proving
    have calls := proving.witnesses rfl payment rfl
    exact (calls 0 .keyError rfl).1 rfl

theorem force_batch_keeps_payment :
    LosesNothing acceptingCrypto (bareProvers false) nodeBatcher [payment]
      (onePayment.popFront acceptingCrypto 1).2
      (forceBatch acceptingCrypto (bareProvers false) nodeBatcher true true [] onePayment id) := by
  apply ((batcher_losesNothing_iff acceptingCrypto (bareProvers false) nodeBatcher true true [] onePayment
    id).2 [payment] (onePayment.popFront acceptingCrypto 1).2 rfl).mpr
  right
  rw [payment_verifies]
  refine ⟨by decide, by decide, ?_, ?_, ?_⟩
  · nofun
  · intro _ tx0 _ i call found
    have skipped : call = .skipped := by
      cases i with
      | zero => exact (Option.some.inj found).symm
      | succ i => cases found
    rw [skipped]
    exact ⟨nofun, nofun, nofun⟩
  · intro _
    exact ⟨nofun, nofun, nofun⟩

end Aggregator
end QLSA
