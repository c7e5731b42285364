import QLSA.Aggregator.NodeIndices
import QLSA.Aggregator.PoolRuns

namespace QLSA
namespace Aggregator

open QLSA.Core Machine

/-!
# Crashed provers

A batch whose prover crashes goes back to the pool, at most `maxProofRetries`
times for its root; the attempts are counted in a dictionary that is cleared
when it has grown.  A transaction may come back more often, for the root of its
batch changes with the arrivals.  But a returned batch is the front of the next
one, so that its root changes only to the root of a longer batch, and longer
than the maximum they never get.
-/

/-! ## The log -/

/-- What a cycle did with the transactions it drained. -/
inductive RetryEvent where
  /-- The prover crashed and the batch went back, its attempt counted in a
  dictionary that was cleared or not. -/
  | returned (cleared : Bool) (batch : Batch)
  | emitted (batch : Batch)
  /-- An exception left the cycle. -/
  | lost (drained : List Transaction)

deriving instance DecidableEq for Transaction

/-- Returns of a root since a batch with this root was emitted or the attempts
were cleared, in a log with the newest event first. -/
def failures (root : Bytes) : List RetryEvent → ℕ
  | [] => 0
  | .returned cleared batch :: earlier =>
      (if cleared then 0 else failures root earlier) + if batch.merkleRoot = root then 1 else 0
  | .emitted batch :: earlier => if batch.merkleRoot = root then 0 else failures root earlier
  | .lost _ :: earlier => failures root earlier

/-- Returns of a root in a row, up to now. -/
def streak (root : Bytes) : List RetryEvent → ℕ
  | .returned _ batch :: earlier => if batch.merkleRoot = root then streak root earlier + 1 else 0
  | _ => 0

/-- Returns of a transaction since it was emitted or lost. -/
def returnsOf (tx : Transaction) : List RetryEvent → ℕ
  | [] => 0
  | .returned _ batch :: earlier =>
      returnsOf tx earlier + if tx ∈ batch.transactions then 1 else 0
  | .emitted batch :: earlier => if tx ∈ batch.transactions then 0 else returnsOf tx earlier
  | .lost drained :: earlier => if tx ∈ drained then 0 else returnsOf tx earlier

/-- Batches returned since one was emitted or lost. -/
def unsettled : List RetryEvent → List Batch
  | .returned _ batch :: earlier => batch :: unsettled earlier
  | _ => []

/-! ## Runs -/

/-- A batcher with its pool, and what its cycles did. -/
structure RetryState where
  pool : Mempool
  retries : RetryDict
  log : List RetryEvent

inductive RetryOp where
  | add (tx : Transaction)
  | tryBatch (provers : ProverModules) (withWitnesses withTree : Bool)
  | forceBatch (provers : ProverModules) (withWitnesses withTree : Bool)

section Runs

variable (crypto : Crypto) (batcher : Batcher)

/-- The entry of a cycle in the log, read off its outcome. -/
def retryEvent (retries : RetryDict) (drained : List Transaction) :
    Except Escape (Option BatchResult) → Option RetryEvent
  | .error _ => some (.lost drained)
  | .ok (some result) => some (.emitted result.batch)
  | .ok none =>
      match createBatch crypto (validOf crypto batcher drained) batcher.algorithm with
      | .ok batch => some (.returned (decide (256 < retries.length)) batch)
      | .error _ => none

namespace RetryState

/-- The transactions that `try_batch` drains. -/
def readyTxs (state : RetryState) : List Transaction :=
  match state.pool.drainIfReady crypto batcher.minBatchSize batcher.maxBatchSize with
  | .ok (txs, _) => txs
  | .error _ => []

/-- The state after a cycle. -/
def after (state : RetryState) (drained : List Transaction) (ending : Ending) : RetryState :=
  ⟨ending.2.1, ending.1,
    (retryEvent crypto batcher state.retries drained ending.2.2).toList ++ state.log⟩

/-- One operation; a failed `add` changes nothing. -/
def next (state : RetryState) : RetryOp → RetryState
  | .add tx =>
      match state.pool.add crypto tx with
      | .ok pool => { state with pool := pool }
      | .error _ => state
  | .tryBatch provers withWitnesses withTree =>
      state.after crypto batcher (state.readyTxs crypto batcher)
        (tryBatch crypto provers batcher withWitnesses withTree state.retries state.pool id)
  | .forceBatch provers withWitnesses withTree =>
      state.after crypto batcher (state.pool.drain crypto batcher.maxBatchSize).1
        (forceBatch crypto provers batcher withWitnesses withTree state.retries state.pool id)

end RetryState

/-! ## What a cycle does -/

variable {crypto batcher}

theorem popAttempts_get (retries : RetryDict) (root other : Bytes) :
    NonceDict.get (popAttempts retries root) other 0 =
      if other = root then 0 else NonceDict.get retries other 0 := by
  induction retries with
  | nil => simp [popAttempts, NonceDict.get]
  | cons entry rest ih =>
      rcases entry with ⟨key, count⟩
      unfold popAttempts NonceDict.get at ih ⊢
      by_cases popped : key = root
      · have dropped : decide ((key, count).1 ≠ root) = false := by simp [popped]
        rw [List.filter_cons, dropped]
        simp only [Bool.false_eq_true, if_false]
        rw [ih]
        by_cases own : other = root
        · rw [if_pos own, if_pos own]
        · have passed : (other == key) = false := by simp [popped, own]
          rw [if_neg own, if_neg own, List.lookup_cons, passed]
      · have kept : decide ((key, count).1 ≠ root) = true := by simp [popped]
        rw [List.filter_cons, kept, if_pos rfl, List.lookup_cons, List.lookup_cons]
        by_cases met : other = key
        · have apart : other ≠ root := met ▸ popped
          simp [met, popped]
        · have passed : (other == key) = false := by simp [met]
          rw [passed]
          exact ih

/-- Assignment to a key that is there keeps the size. -/
theorem set_length_of_get {dict : NonceDict} {key : Bytes} (held : 0 < dict.get key 0)
    (value : ℕ) : (dict.set key value).length = dict.length := by
  induction dict with
  | nil => exact absurd held (Nat.lt_irrefl 0)
  | cons entry rest ih =>
      rcases entry with ⟨first, count⟩
      rw [NonceDict.set]
      by_cases here : first = key
      · rw [if_pos here]
        rfl
      · have passed : (key == first) = false := by
          simpa using fun same : key = first => here same.symm
        unfold NonceDict.get at ih held
        rw [List.lookup_cons, passed] at held
        rw [if_neg here, List.length_cons, ih held, List.length_cons]

/-- The attempts at a root before one is counted. -/
def attemptsBefore (retries : RetryDict) (root : Bytes) : ℕ :=
  if 256 < retries.length then 0 else NonceDict.get retries root 0

theorem countAttempt_spec (retries : RetryDict) (root : Bytes) :
    (countAttempt retries root).2 = attemptsBefore retries root + 1 ∧
    ∀ other, NonceDict.get (countAttempt retries root).1 other 0 =
      if other = root then attemptsBefore retries root + 1 else attemptsBefore retries other := by
  unfold countAttempt attemptsBefore
  by_cases grown : 256 < retries.length
  · simp only [if_pos grown]
    refine ⟨rfl, fun other => ?_⟩
    rw [NonceDict.get_set]
    rfl
  · simp only [if_neg grown]
    exact ⟨trivial, fun other => NonceDict.get_set _ _ _ _ _⟩

/-- How a cycle over drained transactions ends, with its event. -/
inductive Cycled (crypto : Crypto) (batcher : Batcher) (retries : RetryDict) (rest : Mempool)
    (drained : List Transaction) : Ending → Option RetryEvent → Prop where
  | lost (escape : Escape) :
      Cycled crypto batcher retries rest drained (retries, rest, .error escape)
        (some (.lost drained))
  | nothing (none_valid : validOf crypto batcher drained = []) :
      Cycled crypto batcher retries rest drained (retries, rest, .ok none) none
  | unbatched :
      Cycled crypto batcher retries rest drained
        (retries, (rest.prependBatch crypto (validOf crypto batcher drained)).2, .ok none) none
  | returned (root : Bytes)
      (own : root = (batchOf crypto (validOf crypto batcher drained)).merkleRoot)
      (some_valid : validOf crypto batcher drained ≠ [])
      (few : attemptsBefore retries root < maxProofRetries) :
      Cycled crypto batcher retries rest drained
        ((countAttempt retries root).1,
          (rest.prependBatch crypto (validOf crypto batcher drained)).2, .ok none)
        (some (.returned (decide (256 < retries.length))
          (batchOf crypto (validOf crypto batcher drained))))
  | emitted (popped : RetryDict) (result : BatchResult)
      (kept : result.batch = batchOf crypto (validOf crypto batcher drained))
      (counts : ∀ root, NonceDict.get popped root 0 =
        if root = result.batch.merkleRoot then 0 else NonceDict.get retries root 0) :
      Cycled crypto batcher retries rest drained (popped, rest, .ok (some result))
        (some (.emitted result.batch))

theorem createBatch_nonempty {algorithm : String} {txs : List Transaction} {batch : Batch}
    (built : createBatch crypto txs algorithm = .ok batch) : txs ≠ [] := by
  rintro rfl
  unfold createBatch at built
  split at built
  · cases built
  · cases built

theorem createAndProve_cycled (provers : ProverModules) (withWitnesses withTree : Bool)
    (retries : RetryDict) (rest : Mempool) (drained : List Transaction) :
    Cycled crypto batcher retries rest drained
      (createAndProve crypto provers batcher withWitnesses withTree retries rest drained)
      (retryEvent crypto batcher retries drained
        (createAndProve crypto provers batcher withWitnesses withTree retries rest drained).2.2) := by
  rw [createAndProve]
  cases filtered : filterValid crypto batcher drained with
  | error escape => exact .lost escape
  | ok validTxs =>
      have valid := filterValid_ok filtered
      rw [valid]
      dsimp only
      by_cases none_valid : validOf crypto batcher drained = []
      · have refused : ∃ failure, createBatch crypto (validOf crypto batcher drained)
            batcher.algorithm = .error failure := by
          cases built : createBatch crypto (validOf crypto batcher drained) batcher.algorithm with
          | error failure => exact ⟨failure, rfl⟩
          | ok batch => exact absurd none_valid (createBatch_nonempty built)
        rcases refused with ⟨failure, refused⟩
        have empty : (validOf crypto batcher drained).isEmpty = true := by simpa using none_valid
        rw [if_pos empty]
        simp only [retryEvent, refused]
        exact .nothing none_valid
      · have filled : ¬ (validOf crypto batcher drained).isEmpty = true := by simpa using none_valid
        rw [if_neg filled]
        cases built : createBatch crypto (validOf crypto batcher drained) batcher.algorithm with
        | error failure =>
            cases failure with
            | unsupportedAlgorithm algorithm => exact .lost _
            | batchSize message =>
                simp only [retryEvent, built]
                exact .unbatched
            | invalidSignature place =>
                simp only [retryEvent, built]
                exact .unbatched
        | ok batch =>
            have same := batchOf_of_createBatch built
            have transactions : batch.transactions = validOf crypto batcher drained := by
              rw [same]
              rfl
            have signed : ∀ tx ∈ batch.transactions, tx.signature.isSome = true := by
              rw [transactions]
              exact fun tx member => signed_of_verifies (validOf_verified tx member)
            have nonempty : batch.transactions ≠ [] := transactions ▸ none_valid
            dsimp only
            cases proved : tryProve provers batcher withWitnesses withTree batch with
            | error escape => exact .lost escape
            | ok pair =>
                rcases pair with ⟨result, crashed⟩
                have kept : result.batch = batch :=
                  ((tryProve_ok_iff provers batcher withWitnesses withTree nonempty signed).2
                    result crashed proved).1
                cases crashed with
                | false =>
                    refine .emitted _ result (kept.trans same) fun root => ?_
                    rw [kept]
                    exact popAttempts_get retries batch.merkleRoot root
                | true =>
                    rcases countAttempt_spec retries batch.merkleRoot with ⟨count, counts⟩
                    simp only [if_true]
                    by_cases few : (countAttempt retries batch.merkleRoot).2 ≤ maxProofRetries
                    · rw [if_pos few]
                      simp only [retryEvent, built]
                      rw [count] at few
                      subst same
                      exact .returned _ rfl none_valid few
                    · rw [if_neg few]
                      refine .emitted _ result (kept.trans same) fun root => ?_
                      -- after a clearing the attempt would have been the first
                      have small : ¬ 256 < retries.length := by
                        intro grown
                        rw [count, attemptsBefore, if_pos grown] at few
                        exact few (by decide)
                      rw [kept, popAttempts_get, counts]
                      by_cases own : root = batch.merkleRoot
                      · rw [if_pos own, if_pos own]
                      · rw [if_neg own, if_neg own, if_neg own, attemptsBefore, if_neg small]

/-! ## What a cycle drains -/

/-- The drained transactions are the front of the pool, up to the maximal size
of a batch, or none. -/
structure Drained (batcher : Batcher) (pool : Mempool) (txs : List Transaction)
    (rest : Mempool) : Prop where
  split : txs ++ rest.txs = pool.txs
  capacity : rest.maxSize = pool.maxSize
  front : txs = [] ∨ txs = pool.txs.take batcher.maxBatchSize.toNat

theorem popFront_drained (pool : Mempool) {size : ℤ} (nonneg : 0 ≤ batcher.maxBatchSize)
    (size_eq : size = min batcher.maxBatchSize pool.txs.length) :
    Drained batcher pool (pool.popFront crypto size.toNat).1 (pool.popFront crypto size.toNat).2 where
  split := List.take_append_drop _ _
  capacity := rfl
  front := by
    right
    refine List.take_eq_take_iff.mpr ?_
    omega

theorem tryBatch_cycle (provers : ProverModules) (withWitnesses withTree : Bool)
    (state : RetryState) :
    ∃ rest, Drained batcher state.pool (state.readyTxs crypto batcher) rest ∧
      tryBatch crypto provers batcher withWitnesses withTree state.retries state.pool id =
        if (state.readyTxs crypto batcher).isEmpty then (state.retries, rest, .ok none)
        else createAndProve crypto provers batcher withWitnesses withTree state.retries rest
          (state.readyTxs crypto batcher) := by
  have positive : ¬ batcher.minBatchSize < 1 := not_lt.mpr batcher.min_pos
  have nonneg : 0 ≤ batcher.maxBatchSize := by
    have lower := batcher.min_pos
    have upper := batcher.max_ge
    omega
  unfold tryBatch RetryState.readyTxs Mempool.drainIfReady
  rw [if_neg positive]
  by_cases few : (state.pool.txs.length : ℤ) < batcher.minBatchSize
  · rw [if_pos few]
    exact ⟨state.pool, ⟨List.nil_append _, rfl, .inl rfl⟩, rfl⟩
  · rw [if_neg few]
    exact ⟨_, popFront_drained state.pool nonneg rfl, rfl⟩

theorem forceBatch_cycle (provers : ProverModules) (withWitnesses withTree : Bool)
    (state : RetryState) :
    ∃ rest, Drained batcher state.pool (state.pool.drain crypto batcher.maxBatchSize).1 rest ∧
      forceBatch crypto provers batcher withWitnesses withTree state.retries state.pool id =
        if (state.pool.drain crypto batcher.maxBatchSize).1.isEmpty then
          (state.retries, rest, .ok none)
        else createAndProve crypto provers batcher withWitnesses withTree state.retries rest
          (state.pool.drain crypto batcher.maxBatchSize).1 := by
  have lower := batcher.min_pos
  have upper := batcher.max_ge
  have large : ¬ batcher.maxBatchSize < 1 := by omega
  unfold forceBatch Mempool.drain
  rw [if_neg large]
  exact ⟨_, popFront_drained state.pool (by omega) rfl, rfl⟩

end Runs

/-! ## What holds in every run -/

section Invariant

variable (crypto : Crypto) (batcher : Batcher)

/-- The batch that was returned last and waits in front of the pool. -/
structure Waiting (state : RetryState) (newest : Batch) (count : ℕ) : Prop where
  own : newest = batchOf crypto newest.transactions
  nonempty : newest.transactions ≠ []
  front : newest.transactions <+: state.pool.txs
  verified : ∀ tx ∈ newest.transactions, verifies crypto batcher.algorithm tx = true
  fits : newest.transactions.length ≤ batcher.maxBatchSize.toNat
  counted : 0 < NonceDict.get state.retries newest.merkleRoot 0
  streak_le : streak newest.merkleRoot state.log ≤
    NonceDict.get state.retries newest.merkleRoot 0 + 1
  /-- A root that came back twice in a row is not cleared any more. -/
  small : 2 ≤ streak newest.merkleRoot state.log → state.retries.length ≤ 256
  /-- Each shorter batch came back at most four times. -/
  count_le : count ≤ (maxProofRetries + 1) * (newest.transactions.length - 1) +
    streak newest.merkleRoot state.log

/-- What holds in every run. -/
structure RetryState.Counted (state : RetryState) : Prop where
  bounded : state.pool.txs.length ≤ state.pool.maxSize
  failures_eq : ∀ root, failures root state.log = NonceDict.get state.retries root 0
  few : ∀ root, NonceDict.get state.retries root 0 ≤ maxProofRetries
  waiting : ∀ newest older, unsettled state.log = newest :: older →
    Waiting crypto batcher state newest (older.length + 1)
  returns_le : ∀ tx, returnsOf tx state.log ≤ (unsettled state.log).length
  returned : ∀ tx, 0 < returnsOf tx state.log →
    ∃ newest older, unsettled state.log = newest :: older ∧ tx ∈ newest.transactions

variable {crypto batcher}

theorem streak_eq_zero_of_settled {log : List RetryEvent} (settled : unsettled log = [])
    (root : Bytes) : streak root log = 0 := by
  cases log with
  | nil => rfl
  | cons event earlier =>
      cases event with
      | returned cleared batch => cases settled
      | emitted batch => rfl
      | lost drained => rfl

theorem streak_eq_zero_of_ne {log : List RetryEvent} {newest : Batch} {older : List Batch}
    (waiting : unsettled log = newest :: older) {root : Bytes} (other : newest.merkleRoot ≠ root) :
    streak root log = 0 := by
  cases log with
  | nil => rfl
  | cons event earlier =>
      cases event with
      | returned cleared batch =>
          have same : batch = newest := (List.cons.inj waiting).1
          rw [streak, same, if_neg other]
      | emitted batch => rfl
      | lost drained => rfl

section Step

variable {state : RetryState} (counted : state.Counted crypto batcher)
include counted

/-- Roots come back at most four times in a row. -/
theorem RetryState.Counted.streak_le (root : Bytes) :
    streak root state.log ≤ maxProofRetries + 1 := by
  cases waits : unsettled state.log with
  | nil =>
      rw [streak_eq_zero_of_settled waits]
      exact Nat.zero_le _
  | cons newest older =>
      by_cases own : newest.merkleRoot = root
      · have last := (counted.waiting newest older waits).streak_le
        have few := counted.few newest.merkleRoot
        rw [own] at last few
        omega
      · rw [streak_eq_zero_of_ne waits own]
        exact Nat.zero_le _

/-- Transactions come back at most four times for each length of a batch. -/
theorem RetryState.Counted.returns_le_capacity (tx : Transaction) :
    returnsOf tx state.log ≤ (maxProofRetries + 1) * batcher.maxBatchSize.toNat := by
  have most := counted.returns_le tx
  cases waits : unsettled state.log with
  | nil =>
      rw [waits] at most
      exact le_trans most (Nat.zero_le _)
  | cons newest older =>
      have waiting := counted.waiting newest older waits
      have own := counted.streak_le newest.merkleRoot
      have positive := List.length_pos_iff.mpr waiting.nonempty
      rw [waits, List.length_cons] at most
      calc
        returnsOf tx state.log ≤ older.length + 1 := most
        _ ≤ (maxProofRetries + 1) * (newest.transactions.length - 1) + (maxProofRetries + 1) :=
          le_trans waiting.count_le (Nat.add_le_add_left own _)
        _ = (maxProofRetries + 1) * newest.transactions.length := by
          rw [← Nat.mul_succ, Nat.succ_eq_add_one, Nat.sub_add_cancel positive]
        _ ≤ (maxProofRetries + 1) * batcher.maxBatchSize.toNat :=
          Nat.mul_le_mul_left _ waiting.fits

/-- The waiting batch is in front of the valid transactions of every cycle. -/
theorem RetryState.Counted.front_valid {drained : List Transaction} {rest : Mempool}
    (drains : Drained batcher state.pool drained rest) (nonempty : drained ≠ []) {newest : Batch}
    {older : List Batch} (waits : unsettled state.log = newest :: older) :
    newest.transactions <+: validOf crypto batcher drained := by
  have waiting := counted.waiting newest older waits
  rcases drains.front with nothing | front
  · exact absurd nothing nonempty
  · have drainedFront : newest.transactions <+: drained := by
      rw [front, List.prefix_take_iff]
      exact ⟨waiting.front, waiting.fits⟩
    have kept : newest.transactions.filter (verifies crypto batcher.algorithm) =
        newest.transactions := List.filter_eq_self.mpr waiting.verified
    have filtered := drainedFront.filter (verifies crypto batcher.algorithm)
    rw [kept] at filtered
    exact filtered

/-- Valid transactions that go back find room. -/
theorem RetryState.Counted.prepended {drained : List Transaction} {rest : Mempool}
    (drains : Drained batcher state.pool drained rest) :
    (rest.prependBatch crypto (validOf crypto batcher drained)).2.txs =
        validOf crypto batcher drained ++ rest.txs ∧
      (validOf crypto batcher drained ++ rest.txs).length ≤
        (rest.prependBatch crypto (validOf crypto batcher drained)).2.maxSize := by
  rcases @Mempool.prependBatch_spec crypto rest (validOf crypto batcher drained) with
    ⟨-, queue, capacity, -, -⟩
  have part : (validOf crypto batcher drained).length ≤ drained.length :=
    List.length_filter_le _ _
  have total : drained.length + rest.txs.length = state.pool.txs.length := by
    rw [← drains.split, List.length_append]
  have bounded := counted.bounded
  have room : (validOf crypto batcher drained).length ≤ rest.fit := by
    rw [Mempool.fit, drains.capacity]
    omega
  refine ⟨?_, ?_⟩
  · rw [queue, List.take_of_length_le room]
  · rw [capacity, drains.capacity, List.length_append]
    omega

/-- Another pool with the waiting batch in front. -/
theorem RetryState.Counted.requeue {pool : Mempool} (bounded : pool.txs.length ≤ pool.maxSize)
    (front : ∀ newest older, unsettled state.log = newest :: older →
      newest.transactions <+: pool.txs) :
    RetryState.Counted crypto batcher { state with pool := pool } where
  bounded := bounded
  failures_eq := counted.failures_eq
  few := counted.few
  waiting := by
    intro newest older waits
    have waiting := counted.waiting newest older waits
    exact { waiting with front := front newest older waits }
  returns_le := counted.returns_le
  returned := counted.returned

/-- An event after which no batch waits. -/
theorem RetryState.Counted.settle {rest : Mempool} {retries : RetryDict} {event : RetryEvent}
    (bounded : rest.txs.length ≤ rest.maxSize)
    (failures_eq : ∀ root, failures root (event :: state.log) = NonceDict.get retries root 0)
    (few : ∀ root, NonceDict.get retries root 0 ≤ NonceDict.get state.retries root 0)
    (settled : unsettled (event :: state.log) = [])
    (covers : ∀ tx, returnsOf tx (event :: state.log) = 0) :
    RetryState.Counted crypto batcher ⟨rest, retries, event :: state.log⟩ where
  bounded := bounded
  failures_eq := failures_eq
  few := fun root => le_trans (few root) (counted.few root)
  waiting := by
    intro newest older waits
    have empty := settled.symm.trans waits
    cases empty
  returns_le := by
    intro tx
    dsimp only
    rw [covers]
    exact Nat.zero_le _
  returned := by
    intro tx positive
    dsimp only at positive
    rw [covers] at positive
    exact absurd positive (Nat.lt_irrefl 0)

theorem RetryState.Counted.exists_waiting {root : Bytes} (again : 0 < streak root state.log) :
    ∃ newest older, unsettled state.log = newest :: older ∧ newest.merkleRoot = root ∧
      Waiting crypto batcher state newest (older.length + 1) := by
  cases waits : unsettled state.log with
  | nil =>
      rw [streak_eq_zero_of_settled waits] at again
      exact absurd again (Nat.lt_irrefl 0)
  | cons newest older =>
      by_cases own : newest.merkleRoot = root
      · exact ⟨newest, older, rfl, own, counted.waiting newest older waits⟩
      · rw [streak_eq_zero_of_ne waits own] at again
        exact absurd again (Nat.lt_irrefl 0)

/-- A clearing costs a root at most one attempt. -/
theorem RetryState.Counted.streak_le_attempts (root : Bytes) :
    streak root state.log ≤ attemptsBefore state.retries root + 1 := by
  by_cases again : 0 < streak root state.log
  · rcases counted.exists_waiting again with ⟨newest, older, -, rfl, waiting⟩
    unfold attemptsBefore
    split
    case isTrue grown =>
      by_contra more
      have kept := waiting.small (by omega)
      omega
    case isFalse => exact waiting.streak_le
  · omega

/-- A root that comes back again does not grow the dictionary. -/
theorem RetryState.Counted.countAttempt_small {root : Bytes} (again : 0 < streak root state.log) :
    (countAttempt state.retries root).1.length ≤ 256 := by
  rcases counted.exists_waiting again with ⟨newest, older, -, rfl, waiting⟩
  unfold countAttempt
  by_cases grown : 256 < state.retries.length
  · simp only [if_pos grown]
    exact (by decide : 1 ≤ 256)
  · simp only [if_neg grown]
    rw [set_length_of_get waiting.counted]
    exact not_lt.mp grown

/-- A longer batch than the waiting one, or the same again. -/
theorem RetryState.Counted.count_giveBack {drained : List Transaction} {rest : Mempool}
    (drains : Drained batcher state.pool drained rest) (nonempty : drained ≠ []) :
    (unsettled state.log).length ≤
      (maxProofRetries + 1) * ((validOf crypto batcher drained).length - 1) +
        streak (batchOf crypto (validOf crypto batcher drained)).merkleRoot state.log := by
  cases waits : unsettled state.log with
  | nil => exact Nat.zero_le _
  | cons newest older =>
      have waiting := counted.waiting newest older waits
      have front := counted.front_valid drains nonempty waits
      have count := waiting.count_le
      have positive := List.length_pos_iff.mpr waiting.nonempty
      rw [List.length_cons]
      by_cases same : newest.transactions.length = (validOf crypto batcher drained).length
      · have again : newest = batchOf crypto (validOf crypto batcher drained) := by
          rw [waiting.own, front.eq_of_length same]
        rw [← again, ← same]
        exact count
      · have longer : newest.transactions.length < (validOf crypto batcher drained).length :=
          lt_of_le_of_ne front.length_le same
        have few := counted.streak_le newest.merkleRoot
        calc
          older.length + 1 ≤ (maxProofRetries + 1) * (newest.transactions.length - 1) +
              (maxProofRetries + 1) := le_trans count (Nat.add_le_add_left few _)
          _ = (maxProofRetries + 1) * newest.transactions.length := by
            rw [← Nat.mul_succ, Nat.succ_eq_add_one, Nat.sub_add_cancel positive]
          _ ≤ (maxProofRetries + 1) * ((validOf crypto batcher drained).length - 1) :=
            Nat.mul_le_mul_left _ (by omega)
          _ ≤ _ := Nat.le_add_right _ _

/-- A batch that goes back becomes the waiting one. -/
theorem RetryState.Counted.giveBack {drained : List Transaction} {rest : Mempool}
    (drains : Drained batcher state.pool drained rest) (nonempty : drained ≠ []) {root : Bytes}
    (own : root = (batchOf crypto (validOf crypto batcher drained)).merkleRoot)
    (some_valid : validOf crypto batcher drained ≠ [])
    (room : attemptsBefore state.retries root < maxProofRetries) :
    RetryState.Counted crypto batcher
      ⟨(rest.prependBatch crypto (validOf crypto batcher drained)).2,
        (countAttempt state.retries root).1,
        .returned (decide (256 < state.retries.length))
          (batchOf crypto (validOf crypto batcher drained)) :: state.log⟩ := by
  rcases counted.prepended drains with ⟨queue, bounded⟩
  rcases countAttempt_spec state.retries root with ⟨-, counts⟩
  have before : ∀ other, attemptsBefore state.retries other ≤ maxProofRetries := by
    intro other
    unfold attemptsBefore
    split
    · exact Nat.zero_le _
    · exact counted.few other
  have streak_succ : streak root (.returned (decide (256 < state.retries.length))
      (batchOf crypto (validOf crypto batcher drained)) :: state.log) =
        streak root state.log + 1 := by
    rw [streak, if_pos own.symm]
  have mine : NonceDict.get (countAttempt state.retries root).1 root 0 =
      attemptsBefore state.retries root + 1 := by
    rw [counts, if_pos rfl]
  constructor
  case bounded =>
    dsimp only
    rw [queue]
    exact bounded
  case failures_eq =>
    intro other
    dsimp only
    rw [failures, counts, ← own, counted.failures_eq, attemptsBefore, attemptsBefore]
    by_cases grown : 256 < state.retries.length
    · by_cases same : root = other
      · simp [grown, same]
      · have apart : other ≠ root := Ne.symm same
        simp [grown, same, apart]
    · by_cases same : root = other
      · simp [grown, same]
      · have apart : other ≠ root := Ne.symm same
        simp [grown, same, apart]
  case few =>
    intro other
    dsimp only
    rw [counts]
    split
    · exact room
    · exact before other
  case waiting =>
    intro newest older waits
    have waits' : batchOf crypto (validOf crypto batcher drained) = newest ∧
        unsettled state.log = older := List.cons.inj waits
    rcases waits' with ⟨rfl, rfl⟩
    have attempts := counted.streak_le_attempts root
    have fits : (validOf crypto batcher drained).length ≤ batcher.maxBatchSize.toNat := by
      rcases drains.front with nothing | front
      · exact absurd nothing nonempty
      · refine le_trans (List.length_filter_le _ _) ?_
        rw [front]
        exact List.length_take_le _ _
    refine ⟨rfl, some_valid, ?_, validOf_verified, fits, ?_, ?_, ?_, ?_⟩
    · dsimp only
      rw [queue]
      exact List.prefix_append _ _
    · rw [← own, mine]
      exact Nat.succ_pos _
    · rw [← own, mine, streak_succ]
      omega
    · rw [← own, streak_succ]
      intro again
      exact counted.countAttempt_small (by omega)
    · have count := counted.count_giveBack drains nonempty
      rw [← own] at count ⊢
      rw [streak_succ, ← Nat.add_assoc]
      exact Nat.add_le_add_right count 1
  case returns_le =>
    intro tx
    have most := counted.returns_le tx
    simp only [returnsOf, unsettled, List.length_cons]
    split
    · omega
    · omega
  case returned =>
    intro tx positive
    refine ⟨_, _, rfl, ?_⟩
    simp only [returnsOf] at positive
    by_cases member : tx ∈ (batchOf crypto (validOf crypto batcher drained)).transactions
    · exact member
    · rw [if_neg member, add_zero] at positive
      rcases counted.returned tx positive with ⟨newest, older, waits, inside⟩
      exact (counted.front_valid drains nonempty waits).subset inside

theorem RetryState.Counted.rest_bounded {drained : List Transaction} {rest : Mempool}
    (drains : Drained batcher state.pool drained rest) : rest.txs.length ≤ rest.maxSize := by
  have bounded := counted.bounded
  have total : drained.length + rest.txs.length = state.pool.txs.length := by
    rw [← drains.split, List.length_append]
  rw [drains.capacity]
  omega

/-- A transaction that came back is among the valid ones of the next cycle. -/
theorem RetryState.Counted.valid_of_returned {drained : List Transaction} {rest : Mempool}
    (drains : Drained batcher state.pool drained rest) (nonempty : drained ≠ [])
    {tx : Transaction} (outside : tx ∉ validOf crypto batcher drained) :
    returnsOf tx state.log = 0 := by
  by_contra back
  rcases counted.returned tx (Nat.pos_of_ne_zero back) with ⟨newest, older, waits, inside⟩
  exact outside ((counted.front_valid drains nonempty waits).subset inside)

/-- Every cycle keeps the counts. -/
theorem RetryState.Counted.cycle {drained : List Transaction} {rest : Mempool}
    (drains : Drained batcher state.pool drained rest) (nonempty : drained ≠ [])
    {ending : Ending} {event : Option RetryEvent}
    (cycled : Cycled crypto batcher state.retries rest drained ending event) :
    RetryState.Counted crypto batcher ⟨ending.2.1, ending.1, event.toList ++ state.log⟩ := by
  have bounded := counted.rest_bounded drains
  cases cycled with
  | lost escape =>
      refine counted.settle bounded counted.failures_eq (fun _ => le_rfl) rfl fun tx => ?_
      rw [returnsOf]
      split
      · rfl
      · next outside =>
        exact counted.valid_of_returned drains nonempty fun valid =>
          outside (List.mem_of_mem_filter valid)
  | nothing none_valid =>
      refine counted.requeue bounded fun newest older waits => ?_
      have front := counted.front_valid drains nonempty waits
      rw [none_valid, List.prefix_nil] at front
      exact absurd front (counted.waiting newest older waits).nonempty
  | unbatched =>
      rcases counted.prepended drains with ⟨queue, room⟩
      refine counted.requeue (queue ▸ room) fun newest older waits => ?_
      rw [queue]
      exact (counted.front_valid drains nonempty waits).trans (List.prefix_append _ _)
  | returned root own some_valid few =>
      exact counted.giveBack drains nonempty own some_valid few
  | emitted popped result kept counts =>
      refine counted.settle bounded ?_ ?_ rfl ?_
      · intro root
        rw [failures, counts, counted.failures_eq]
        by_cases own : root = result.batch.merkleRoot
        · rw [if_pos own, if_pos own.symm]
        · rw [if_neg own, if_neg (Ne.symm own)]
      · intro root
        rw [counts]
        split
        · exact Nat.zero_le _
        · exact le_rfl
      · intro tx
        rw [returnsOf, kept]
        split
        · rfl
        · next outside => exact counted.valid_of_returned drains nonempty outside

/-- A cycle that drains nothing changes nothing. -/
theorem RetryState.Counted.idle {drained : List Transaction} {rest : Mempool}
    (drains : Drained batcher state.pool drained rest) (nothing : drained = []) :
    RetryState.Counted crypto batcher ⟨rest, state.retries,
      (retryEvent crypto batcher state.retries drained (.ok none)).toList ++ state.log⟩ := by
  have queue : rest.txs = state.pool.txs := by
    rw [← drains.split, nothing, List.nil_append]
  have quiet : retryEvent crypto batcher state.retries drained (.ok none) = none := by
    rw [nothing, retryEvent]
    have none_valid : validOf crypto batcher [] = [] := rfl
    rw [none_valid]
    cases built : createBatch crypto [] batcher.algorithm with
    | error failure => rfl
    | ok batch => exact absurd rfl (createBatch_nonempty built)
  rw [quiet]
  refine counted.requeue (counted.rest_bounded drains) fun newest older waits => ?_
  rw [queue]
  exact (counted.waiting newest older waits).front

/-- Every operation keeps the counts. -/
theorem RetryState.Counted.next (op : RetryOp) :
    RetryState.Counted crypto batcher (state.next crypto batcher op) := by
  cases op with
  | add tx =>
      cases added : state.pool.add crypto tx with
      | error failure =>
          simp only [RetryState.next, added]
          exact counted
      | ok pool =>
          rcases Mempool.add_spec added with ⟨-, -, room, rfl⟩
          simp only [RetryState.next, added]
          refine counted.requeue ?_ fun newest older waits => ?_
          · rw [List.length_append]
            exact room
          · exact (counted.waiting newest older waits).front.trans (List.prefix_append _ _)
  | tryBatch provers withWitnesses withTree =>
      rcases @tryBatch_cycle crypto batcher provers withWitnesses withTree state with
        ⟨rest, drains, ended⟩
      rw [RetryState.next, RetryState.after, ended]
      split
      case isTrue nothing => exact counted.idle drains (List.isEmpty_iff.mp nothing)
      case isFalse some_drained =>
        refine counted.cycle drains (fun nothing => some_drained (List.isEmpty_iff.mpr nothing)) ?_
        exact createAndProve_cycled provers withWitnesses withTree _ _ _
  | forceBatch provers withWitnesses withTree =>
      rcases @forceBatch_cycle crypto batcher provers withWitnesses withTree state with
        ⟨rest, drains, ended⟩
      rw [RetryState.next, RetryState.after, ended]
      split
      case isTrue nothing => exact counted.idle drains (List.isEmpty_iff.mp nothing)
      case isFalse some_drained =>
        refine counted.cycle drains (fun nothing => some_drained (List.isEmpty_iff.mpr nothing)) ?_
        exact createAndProve_cycled provers withWitnesses withTree _ _ _

end Step

theorem init_counted {pool : Mempool} (bounded : pool.txs.length ≤ pool.maxSize) :
    RetryState.Counted crypto batcher ⟨pool, [], []⟩ where
  bounded := bounded
  failures_eq := fun _ => rfl
  few := fun _ => Nat.zero_le _
  waiting := nofun
  returns_le := fun _ => le_rfl
  returned := fun _ positive => absurd positive (Nat.lt_irrefl 0)

theorem run_counted {state : RetryState} (counted : state.Counted crypto batcher)
    (ops : List RetryOp) :
    (ops.foldl (RetryState.next crypto batcher) state).Counted crypto batcher := by
  induction ops generalizing state with
  | nil => exact counted
  | cons op rest ih => exact ih (counted.next op)

end Invariant

/-- In every run the returns of a root are those counted, at most three since it
was emitted or the attempts were cleared, and at most four in a row; and a
transaction comes back at most four times for each length of a batch before it
is emitted. -/
theorem returns_bounded (crypto : Crypto) (batcher : Batcher) {maxSize : ℤ} {pool : Mempool}
    (made : Mempool.init maxSize = .ok pool) (ops : List RetryOp) :
    let state := ops.foldl (RetryState.next crypto batcher) ⟨pool, [], []⟩
    (∀ root, failures root state.log = NonceDict.get state.retries root 0 ∧
      failures root state.log ≤ maxProofRetries) ∧
    (∀ root, streak root state.log ≤ maxProofRetries + 1) ∧
    ∀ tx, returnsOf tx state.log ≤ (maxProofRetries + 1) * batcher.maxBatchSize.toNat := by
  intro state
  have bounded : pool.txs.length ≤ pool.maxSize :=
    (@Mempool.init_consistent crypto maxSize pool made).bounded
  have counted : state.Counted crypto batcher := run_counted (init_counted bounded) ops
  refine ⟨fun root => ⟨counted.failures_eq root, ?_⟩, counted.streak_le,
    counted.returns_le_capacity⟩
  rw [counted.failures_eq]
  exact counted.few root

/-! ## A payment that comes back four times -/

/-- The batch prover raises on every call. -/
def RetryOp.Crashing : RetryOp → Prop
  | .add _ => True
  | .tryBatch provers _ _ => ∀ batch, ∃ stored, provers.proveBatch batch = .crashed stored
  | .forceBatch provers _ _ => ∀ batch, ∃ stored, provers.proveBatch batch = .crashed stored

/-- A batch prover that raises, and no other provers. -/
def crashingProvers : ProverModules where
  proveBatch := fun _ => .crashed none
  proveSignature := fun _ _ _ _ _ => .skipped
  proveTree := fun _ _ => .skipped

/-- A cycle whose batch prover raises. -/
def crashingCycle : RetryOp := .tryBatch crashingProvers false false

/-- All pending transactions of a pool of two places. -/
structure Failing (state : RetryState) (txs : List Transaction) : Prop where
  consistent : state.pool.Consistent acceptingCrypto
  queue : state.pool.txs = txs
  capacity : state.pool.maxSize = 2

theorem crashing_tryProve (batch : Batch) :
    tryProve crashingProvers nodeBatcher false false batch =
      .ok (⟨batch, none, none, [], none, none⟩, true) := by
  unfold tryProve addWitnesses addTree
  cases batch.transactions with
  | nil => rfl
  | cons tx rest => rfl

/-- A crashing cycle sends the pending transactions back. -/
theorem Failing.cycle {state : RetryState} {txs : List Transaction} (failing : Failing state txs)
    (nonempty : txs ≠ []) (valid : validOf acceptingCrypto nodeBatcher txs = txs)
    (small : state.retries.length ≤ 256)
    (few : attemptsBefore state.retries (batchOf acceptingCrypto txs).merkleRoot <
      maxProofRetries) :
    let next := state.next acceptingCrypto nodeBatcher crashingCycle
    Failing next txs ∧
      next.retries = (countAttempt state.retries (batchOf acceptingCrypto txs).merkleRoot).1 ∧
      next.log = .returned false (batchOf acceptingCrypto txs) :: state.log := by
  have positive := List.length_pos_iff.mpr nonempty
  have bounded := failing.consistent.bounded
  rw [failing.queue, failing.capacity] at bounded
  have minSize : nodeBatcher.minBatchSize = 1 := rfl
  have maxSize : nodeBatcher.maxBatchSize = 3000 := rfl
  have ready : state.pool.drainIfReady acceptingCrypto nodeBatcher.minBatchSize
      nodeBatcher.maxBatchSize = .ok (txs, (state.pool.popFront acceptingCrypto txs.length).2) := by
    have all : (min nodeBatcher.maxBatchSize state.pool.txs.length).toNat = txs.length := by
      rw [failing.queue, maxSize]
      omega
    have enough : ¬ (state.pool.txs.length : ℤ) < nodeBatcher.minBatchSize := by
      rw [failing.queue, minSize]
      omega
    rw [Mempool.drainIfReady, if_neg (by decide), if_neg enough, all]
    have drained : (state.pool.popFront acceptingCrypto txs.length).1 = txs := by
      rw [Mempool.popFront, failing.queue, List.take_length]
    exact congrArg Except.ok (Prod.ext drained rfl)
  have supported : nodeBatcher.algorithm ∈ supportedAlgorithms := by decide
  have filtered : filterValid acceptingCrypto nodeBatcher txs = .ok txs := by
    rw [filterValid_supported acceptingCrypto nodeBatcher supported]
    exact congrArg Except.ok valid
  have verified : ∀ tx ∈ txs, verifies acceptingCrypto nodeBatcher.algorithm tx = true :=
    List.filter_eq_self.mp valid
  have built := (createBatch_verified acceptingCrypto supported verified nonempty).1
    (le_trans bounded (by decide))
  have filled : ¬ txs.isEmpty = true := by simpa using nonempty
  have counted : (countAttempt state.retries (batchOf acceptingCrypto txs).merkleRoot).2 ≤
      maxProofRetries := by
    rw [(countAttempt_spec _ _).1]
    exact few
  have ended : tryBatch acceptingCrypto crashingProvers nodeBatcher false false state.retries
      state.pool id = ((countAttempt state.retries (batchOf acceptingCrypto txs).merkleRoot).1,
        (((state.pool.popFront acceptingCrypto txs.length).2).prependBatch acceptingCrypto txs).2,
        .ok none) := by
    rw [tryBatch, ready]
    dsimp only
    rw [if_neg filled, createAndProve, filtered]
    dsimp only
    rw [if_neg filled, built]
    dsimp only
    rw [crashing_tryProve]
    dsimp only
    rw [if_pos rfl, if_pos counted]
    rfl
  have drains : state.readyTxs acceptingCrypto nodeBatcher = txs := by
    rw [RetryState.readyTxs, ready]
  have empty : (state.pool.popFront acceptingCrypto txs.length).2.txs = [] := by
    rw [Mempool.popFront, failing.queue]
    exact List.drop_length
  have room : (state.pool.popFront acceptingCrypto txs.length).2.fit = 2 := by
    rw [Mempool.fit, empty]
    exact failing.capacity
  have event : retryEvent acceptingCrypto nodeBatcher state.retries txs (.ok none) =
      some (.returned false (batchOf acceptingCrypto txs)) := by
    have unchanged : decide (256 < state.retries.length) = false := by
      rw [decide_eq_false_iff_not]
      omega
    rw [retryEvent, valid, built, ← unchanged]
  rcases @Mempool.prependBatch_spec acceptingCrypto
    (state.pool.popFront acceptingCrypto txs.length).2 txs with ⟨-, queue, capacity, -, -⟩
  have consistent := Mempool.popFront_consistent failing.consistent txs.length
  have distinct : (txs.map (txHashHex acceptingCrypto)).Nodup := by
    rw [← failing.queue]
    exact failing.consistent.distinct
  have fresh : ∀ tx ∈ txs.take (state.pool.popFront acceptingCrypto txs.length).2.fit,
      txHashHex acceptingCrypto tx ∉
        (state.pool.popFront acceptingCrypto txs.length).2.pending acceptingCrypto := by
    intro tx _
    rw [Mempool.pending, empty]
    exact List.not_mem_nil
  intro next
  have same : next = ⟨(((state.pool.popFront acceptingCrypto txs.length).2).prependBatch
      acceptingCrypto txs).2, (countAttempt state.retries (batchOf acceptingCrypto txs).merkleRoot).1,
        .returned false (batchOf acceptingCrypto txs) :: state.log⟩ := by
    simp only [next, crashingCycle, RetryState.next, RetryState.after, ended, drains, event]
    rfl
  rw [same]
  refine ⟨⟨Mempool.prependBatch_consistent consistent distinct fresh, ?_, ?_⟩, rfl, rfl⟩
  · dsimp only
    rw [queue, empty, room, List.take_of_length_le bounded, List.append_nil]
  · exact capacity.trans failing.capacity

theorem Failing.add {state : RetryState} {txs : List Transaction} (failing : Failing state txs)
    {tx : Transaction} (signed : tx.signature ≠ none) (room : txs.length < 2)
    (fresh : txHashHex acceptingCrypto tx ∉ txs.map (txHashHex acceptingCrypto)) :
    let next := state.next acceptingCrypto nodeBatcher (.add tx)
    Failing next (txs ++ [tx]) ∧ next.retries = state.retries ∧ next.log = state.log := by
  have unknown : txHashHex acceptingCrypto tx ∉ state.pool.txHashes := by
    rw [failing.consistent.hashes, Mempool.pending, failing.queue]
    exact fresh
  have free : ¬ state.pool.maxSize ≤ state.pool.txs.length := by
    rw [failing.queue, failing.capacity]
    omega
  have added : state.pool.add acceptingCrypto tx = .ok { state.pool with
      txs := state.pool.txs ++ [tx]
      txHashes := insert (txHashHex acceptingCrypto tx) state.pool.txHashes } := by
    rw [Mempool.add, if_neg signed]
    dsimp only
    rw [if_neg unknown, if_neg free]
  intro next
  simp only [next, RetryState.next, added]
  refine ⟨⟨Mempool.add_consistent failing.consistent added, ?_, failing.capacity⟩, trivial, trivial⟩
  dsimp only
  rw [failing.queue]

theorem batch_roots_differ : (batchOf acceptingCrypto [payment]).merkleRoot ≠
    (batchOf acceptingCrypto [payment, nextPayment]).merkleRoot := by
  have one : (batchOf acceptingCrypto [payment]).merkleRoot =
      0 :: payment.txHash acceptingCrypto := by
    simp [batchOf, sha3MerkleRoot, acceptingCrypto]
  have two : ∃ rest, (batchOf acceptingCrypto [payment, nextPayment]).merkleRoot = 1 :: rest := by
    simp [batchOf, sha3MerkleRoot, acceptingCrypto, Merkle.apex_of_wide, Merkle.pairUp]
  rcases two with ⟨rest, two⟩
  rw [one, two]
  intro same
  exact absurd (List.cons.inj same).1 (by decide)

/-- Another failure of the one counted root. -/
theorem countAttempt_single (root : Bytes) (attempts : ℕ) :
    (countAttempt [(root, attempts)] root).1 = [(root, attempts + 1)] := by
  simp [countAttempt, NonceDict.get, NonceDict.set]

theorem attemptsBefore_single (root other : Bytes) (attempts : ℕ) :
    attemptsBefore [(root, attempts)] other = if other = root then attempts else 0 := by
  unfold attemptsBefore NonceDict.get
  by_cases own : other = root
  · simp [own]
  · have passed : (other == root) = false := by simpa using own
    simp [List.lookup_cons, passed, own]

/-- The attempts of one root that failed some times. -/
def failedTimes (root : Bytes) : ℕ → RetryDict
  | 0 => []
  | attempts + 1 => [(root, attempts + 1)]

theorem failedTimes_spec (root : Bytes) (attempts : ℕ) :
    (failedTimes root attempts).length ≤ 256 ∧
      attemptsBefore (failedTimes root attempts) root = attempts ∧
      (countAttempt (failedTimes root attempts) root).1 = failedTimes root (attempts + 1) := by
  cases attempts with
  | zero => exact ⟨Nat.zero_le _, rfl, rfl⟩
  | succ attempts =>
      have one : (failedTimes root (attempts + 1)).length = 1 := rfl
      refine ⟨by omega, ?_, countAttempt_single root (attempts + 1)⟩
      rw [failedTimes, attemptsBefore_single, if_pos rfl]

/-- Up to three crashing cycles in a row send the same transactions back. -/
theorem Failing.cycles {state : RetryState} {txs : List Transaction} (failing : Failing state txs)
    (nonempty : txs ≠ []) (valid : validOf acceptingCrypto nodeBatcher txs = txs)
    (fresh : state.retries = []) {count : ℕ} (few : count ≤ maxProofRetries) :
    let last := (List.replicate count crashingCycle).foldl
      (RetryState.next acceptingCrypto nodeBatcher) state
    Failing last txs ∧
      last.retries = failedTimes (batchOf acceptingCrypto txs).merkleRoot count ∧
      last.log = List.replicate count (.returned false (batchOf acceptingCrypto txs)) ++
        state.log := by
  induction count with
  | zero => exact ⟨failing, fresh, rfl⟩
  | succ count ih =>
      rcases ih (Nat.le_of_succ_le few) with ⟨before, retries, log⟩
      rcases failedTimes_spec (batchOf acceptingCrypto txs).merkleRoot count with
        ⟨small, attempts, counted⟩
      rw [List.replicate_succ', List.foldl_append, List.foldl_cons, List.foldl_nil]
      rw [← retries] at small attempts counted
      rcases before.cycle nonempty valid small (by rw [attempts]; exact few) with
        ⟨again, retried, logged⟩
      refine ⟨again, retried.trans counted, ?_⟩
      rw [logged, log, List.replicate_succ, List.cons_append]

/-- A payment fails three times alone, and once more with another payment. -/
def joinedPayment : List RetryOp :=
  .add payment :: List.replicate maxProofRetries crashingCycle ++ [.add nextPayment, crashingCycle]

theorem start_failing : Failing ⟨twoPlaces, [], []⟩ [] where
  consistent := ⟨List.nodup_nil, by simp [twoPlaces, Mempool.pending], Nat.zero_le _⟩
  queue := rfl
  capacity := rfl

theorem both_payments_verify : validOf acceptingCrypto nodeBatcher [payment, nextPayment] =
    [payment, nextPayment] := by
  have verified : verifies acceptingCrypto "ML-DSA-65" payment = true := by decide
  have nextVerified : verifies acceptingCrypto "ML-DSA-65" nextPayment = true := by decide
  exact List.filter_eq_self.mpr (by simpa [nodeBatcher] using ⟨verified, nextVerified⟩)

theorem nextPayment_signed : nextPayment.signature ≠ none := Option.some_ne_none _

theorem joinedPayment_log :
    (joinedPayment.foldl (RetryState.next acceptingCrypto nodeBatcher) ⟨twoPlaces, [], []⟩).log =
      .returned false (batchOf acceptingCrypto [payment, nextPayment]) ::
        List.replicate maxProofRetries (.returned false (batchOf acceptingCrypto [payment])) := by
  rcases start_failing.add payment_signed (by decide) List.not_mem_nil with
    ⟨added, retries0, log0⟩
  rw [List.nil_append] at added
  rcases added.cycles (List.cons_ne_nil _ _) payment_verifies retries0 (le_refl maxProofRetries)
    with ⟨failed, retries3, log3⟩
  have other : txHashHex acceptingCrypto nextPayment ∉
      [payment].map (txHashHex acceptingCrypto) := by
    intro member
    exact payments_differ (List.mem_singleton.mp member).symm
  rcases failed.add nextPayment_signed (by decide) other with ⟨joined, retries4, log4⟩
  have fresh : attemptsBefore (failedTimes (batchOf acceptingCrypto [payment]).merkleRoot
      maxProofRetries) (batchOf acceptingCrypto [payment, nextPayment]).merkleRoot = 0 := by
    rw [maxProofRetries, failedTimes, attemptsBefore_single, if_neg batch_roots_differ.symm]
  have small := (failedTimes_spec (batchOf acceptingCrypto [payment]).merkleRoot
    maxProofRetries).1
  rw [← retries3, ← retries4] at fresh small
  rcases joined.cycle (List.cons_ne_nil _ _) both_payments_verify small
    (lt_of_eq_of_lt fresh (by decide)) with ⟨-, -, log5⟩
  rw [log4, log3, log0, List.append_nil] at log5
  rw [joinedPayment, List.cons_append, List.foldl_cons, List.foldl_append, List.foldl_cons,
    List.foldl_cons, List.foldl_nil]
  exact log5

theorem payment_returned_four_times :
    ¬ ∀ (crypto : Crypto) (batcher : Batcher) (maxSize : ℤ) (pool : Mempool) (ops : List RetryOp),
      Mempool.init maxSize = .ok pool → (∀ op ∈ ops, op.Crashing) →
      ∀ tx, returnsOf tx (ops.foldl (RetryState.next crypto batcher) ⟨pool, [], []⟩).log ≤
        maxProofRetries := by
  intro claimed
  have crashing : ∀ op ∈ joinedPayment, op.Crashing := by
    simp [joinedPayment, RetryOp.Crashing, crashingCycle, crashingProvers, maxProofRetries]
  have few := claimed acceptingCrypto nodeBatcher 2 twoPlaces joinedPayment rfl crashing payment
  have alone : payment ∈ (batchOf acceptingCrypto [payment]).transactions := List.mem_cons_self
  have joined : payment ∈ (batchOf acceptingCrypto [payment, nextPayment]).transactions :=
    List.mem_cons_self
  rw [joinedPayment_log] at few
  simp [maxProofRetries, List.replicate, returnsOf, alone, joined] at few

theorem returns_bounded_joined :
    returnsOf payment (joinedPayment.foldl (RetryState.next acceptingCrypto nodeBatcher)
      ⟨twoPlaces, [], []⟩).log ≤ (maxProofRetries + 1) * nodeBatcher.maxBatchSize.toNat :=
  (@returns_bounded acceptingCrypto nodeBatcher 2 twoPlaces rfl joinedPayment).2.2 payment

end Aggregator
end QLSA
