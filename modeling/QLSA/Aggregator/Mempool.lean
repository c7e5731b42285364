import QLSA.Core.Batch
import QLSA.Machine.Traces
import Mathlib.Data.Finset.Basic
import Mathlib.Data.List.Nodup

namespace QLSA
namespace Aggregator

open QLSA.Core Machine

/-!
# The pool of pending transactions

A queue and the set of the hashes in it.  `add` looks a hash up before it
enqueues; `prepend_batch`, which returns transactions that were drained
earlier, does not.  So the two structures describe each other as long as no
transaction comes back whose hash has been added again in the meantime, and
from the first such return on they do not.
-/

/-! ## The pool -/

/-- Lower-case hexadecimal text, as of `bytes.hex`. -/
def hexText (bytes : Bytes) : List Char :=
  bytes.flatMap fun byte =>
    [Nat.digitChar (byte.toNat / 16), Nat.digitChar (byte.toNat % 16)]

/-- `tx.tx_hash().hex()` -/
def txHashHex (crypto : Crypto) (tx : Transaction) : List Char :=
  hexText (tx.txHash crypto)

inductive PoolError where
  | valueError (message : String)
  | duplicateTx (message : String)
  | mempoolFull (message : String)
  deriving DecidableEq

structure Mempool where
  maxSize : ℕ
  /-- Pending transactions, oldest first. -/
  txs : List Transaction
  txHashes : Finset (List Char)
  /-- Transactions that did not fit when they were returned. -/
  droppedTotal : ℕ
  maxSize_pos : 0 < maxSize

namespace Mempool

def init (maxSize : ℤ) : Except PoolError Mempool :=
  if small : maxSize < 1 then .error (.valueError "max_size must be at least 1")
  else .ok ⟨maxSize.toNat, [], ∅, 0, by omega⟩

variable (crypto : Crypto)

def add (pool : Mempool) (tx : Transaction) : Except PoolError Mempool :=
  if tx.signature = none then
    .error (.valueError "Transaction must be signed before adding to mempool")
  else
    let txHash := txHashHex crypto tx
    if txHash ∈ pool.txHashes then
      .error (.duplicateTx
        s!"transaction {String.ofList (txHash.take 16)}… is already in the mempool")
    else if pool.maxSize ≤ pool.txs.length then
      .error (.mempoolFull s!"Mempool is full ({pool.maxSize} transactions)")
    else
      .ok { pool with txs := pool.txs ++ [tx], txHashes := insert txHash pool.txHashes }

/-- The first `count` transactions leave the queue, and their hashes the set. -/
def popFront (pool : Mempool) (count : ℕ) : List Transaction × Mempool :=
  let txs := pool.txs.take count
  (txs, { pool with
    txs := pool.txs.drop count
    txHashes := txs.foldl (fun hashes tx => hashes.erase (txHashHex crypto tx)) pool.txHashes })

def drain (pool : Mempool) (n : ℤ) : List Transaction × Mempool :=
  if n < 1 then ([], pool)
  else pool.popFront crypto (min n pool.txs.length).toNat

def drainIfReady (pool : Mempool) (minN maxN : ℤ) :
    Except PoolError (List Transaction × Mempool) :=
  if minN < 1 then .error (.valueError "min_n must be at least 1")
  else if pool.txs.length < minN then .ok ([], pool)
  else .ok (pool.popFront crypto (min maxN pool.txs.length).toNat)

def appendLeft (pool : Mempool) (tx : Transaction) : Mempool :=
  { pool with txs := tx :: pool.txs, txHashes := insert (txHashHex crypto tx) pool.txHashes }

/-- Room for returned transactions. -/
def fit (pool : Mempool) : ℕ := pool.maxSize - pool.txs.length

/-- The transactions that did not fit, and the pool with the others in front. -/
def prependBatch (pool : Mempool) (txs : List Transaction) : List Transaction × Mempool :=
  let kept := txs.take pool.fit
  let dropped := txs.drop pool.fit
  let filled := kept.reverse.foldl (appendLeft crypto) pool
  (dropped, { filled with droppedTotal := filled.droppedTotal + dropped.length })

def contains (pool : Mempool) (txHashHex : List Char) : Bool := txHashHex ∈ pool.txHashes

def clear (pool : Mempool) : Mempool := { pool with txs := [], txHashes := ∅ }

/-! ## The two structures -/

/-- Hashes of the queue, in its order. -/
def pending (pool : Mempool) : List (List Char) := pool.txs.map (txHashHex crypto)

/-- Queue and set describe each other, within the capacity. -/
structure Consistent (pool : Mempool) : Prop where
  distinct : (pool.pending crypto).Nodup
  hashes : ∀ txHash, txHash ∈ pool.txHashes ↔ txHash ∈ pool.pending crypto
  bounded : pool.txs.length ≤ pool.maxSize

variable {crypto}

theorem init_consistent {maxSize : ℤ} {pool : Mempool} (made : init maxSize = .ok pool) :
    pool.Consistent crypto := by
  unfold init at made
  split at made
  · cases made
  · cases made
    exact ⟨List.nodup_nil, by simp [pending], Nat.zero_le _⟩

theorem Consistent.contains_iff {pool : Mempool} (consistent : pool.Consistent crypto)
    (txHash : List Char) :
    pool.contains txHash = true ↔ ∃ tx ∈ pool.txs, txHashHex crypto tx = txHash := by
  rw [contains, decide_eq_true_eq, consistent.hashes, pending, List.mem_map]

/-- A signed transaction is refused when it is pending or the pool is full. -/
theorem Consistent.add_error_iff {pool : Mempool} (consistent : pool.Consistent crypto)
    {tx : Transaction} (signed : tx.signature ≠ none) :
    (∃ error, pool.add crypto tx = .error error) ↔
      (∃ other ∈ pool.txs, txHashHex crypto other = txHashHex crypto tx) ∨
        pool.txs.length = pool.maxSize := by
  have known := consistent.hashes (txHashHex crypto tx)
  rw [pending, List.mem_map] at known
  have bounded := consistent.bounded
  rw [add, if_neg signed, ← known]
  dsimp only
  by_cases duplicate : txHashHex crypto tx ∈ pool.txHashes
  · rw [if_pos duplicate]
    simp [duplicate]
  · rw [if_neg duplicate]
    by_cases full : pool.maxSize ≤ pool.txs.length
    · rw [if_pos full]
      simp [duplicate, le_antisymm bounded full]
    · rw [if_neg full]
      have room : pool.txs.length ≠ pool.maxSize := by omega
      simp [duplicate, room]

/-! ## What the operations do -/

/-- A successful `add` enqueues a hash that was not pending. -/
theorem add_spec {pool after : Mempool} {tx : Transaction} (added : pool.add crypto tx = .ok after) :
    tx.signature ≠ none ∧ txHashHex crypto tx ∉ pool.txHashes ∧ pool.txs.length < pool.maxSize ∧
      after = { pool with
        txs := pool.txs ++ [tx], txHashes := insert (txHashHex crypto tx) pool.txHashes } := by
  unfold add at added
  split at added
  case isTrue unsigned => cases added
  case isFalse signed =>
    dsimp only at added
    split at added
    case isTrue duplicate => cases added
    case isFalse fresh =>
      split at added
      case isTrue full => cases added
      case isFalse room =>
        cases added
        exact ⟨signed, fresh, by omega, rfl⟩

theorem add_consistent {pool after : Mempool} {tx : Transaction}
    (consistent : pool.Consistent crypto) (added : pool.add crypto tx = .ok after) :
    after.Consistent crypto := by
  rcases add_spec added with ⟨-, fresh, room, rfl⟩
  rw [consistent.hashes] at fresh
  constructor
  · rw [pending, List.map_append]
    apply List.Nodup.append consistent.distinct (List.nodup_singleton _)
    simpa [List.Disjoint, pending] using fresh
  · intro txHash
    rw [Finset.mem_insert, consistent.hashes, or_comm]
    simp [pending]
  · simp only [List.length_append, List.length_singleton]
    omega

theorem mem_foldl_erase (txs : List Transaction) (hashes : Finset (List Char)) (txHash : List Char) :
    txHash ∈ txs.foldl (fun hashes tx => hashes.erase (txHashHex crypto tx)) hashes ↔
      txHash ∈ hashes ∧ txHash ∉ txs.map (txHashHex crypto) := by
  induction txs generalizing hashes with
  | nil => simp
  | cons tx rest ih =>
      rw [List.foldl_cons, ih, Finset.mem_erase, List.map_cons, List.mem_cons, not_or]
      tauto

theorem popFront_consistent {pool : Mempool} (consistent : pool.Consistent crypto) (count : ℕ) :
    (pool.popFront crypto count).2.Consistent crypto := by
  have split : pool.pending crypto =
      (pool.txs.take count).map (txHashHex crypto) ++ (pool.txs.drop count).map (txHashHex crypto) := by
    rw [← List.map_append, List.take_append_drop, pending]
  have distinct := consistent.distinct
  rw [split, List.nodup_append] at distinct
  constructor
  · exact distinct.2.1
  · intro txHash
    rw [popFront, mem_foldl_erase, consistent.hashes, split, List.mem_append]
    constructor
    · rintro ⟨front | back, absent⟩
      · exact absurd front absent
      · exact back
    · intro back
      refine ⟨.inr back, ?_⟩
      intro front
      exact distinct.2.2 txHash front txHash back rfl
  · simp only [popFront, List.length_drop]
    have bounded := consistent.bounded
    omega

/-- Returned transactions come back in front, in their order. -/
theorem foldl_appendLeft (pool : Mempool) (txs : List Transaction) :
    (txs.reverse.foldl (appendLeft crypto) pool).txs = txs ++ pool.txs ∧
    (txs.reverse.foldl (appendLeft crypto) pool).maxSize = pool.maxSize ∧
    (txs.reverse.foldl (appendLeft crypto) pool).droppedTotal = pool.droppedTotal ∧
    ∀ txHash, txHash ∈ (txs.reverse.foldl (appendLeft crypto) pool).txHashes ↔
      txHash ∈ txs.map (txHashHex crypto) ∨ txHash ∈ pool.txHashes := by
  induction txs with
  | nil => simp
  | cons tx rest ih =>
      rcases ih with ⟨queue, capacity, dropped, known⟩
      rw [List.reverse_cons, List.foldl_append, List.foldl_cons, List.foldl_nil]
      refine ⟨?_, capacity, dropped, ?_⟩
      · rw [appendLeft, queue, List.cons_append]
      · intro txHash
        rw [appendLeft, Finset.mem_insert, known, List.map_cons, List.mem_cons, or_assoc]

/-- What returning transactions does to the pool. -/
theorem prependBatch_spec (pool : Mempool) (txs : List Transaction) :
    (pool.prependBatch crypto txs).1 = txs.drop pool.fit ∧
    (pool.prependBatch crypto txs).2.txs = txs.take pool.fit ++ pool.txs ∧
    (pool.prependBatch crypto txs).2.maxSize = pool.maxSize ∧
    (pool.prependBatch crypto txs).2.droppedTotal =
      pool.droppedTotal + (txs.drop pool.fit).length ∧
    ∀ txHash, txHash ∈ (pool.prependBatch crypto txs).2.txHashes ↔
      txHash ∈ (txs.take pool.fit).map (txHashHex crypto) ∨ txHash ∈ pool.txHashes := by
  rcases foldl_appendLeft pool (txs.take pool.fit) with
    ⟨queue, capacity, dropped, known⟩
  refine ⟨rfl, queue, capacity, ?_, known⟩
  rw [prependBatch]
  dsimp only
  rw [dropped]

theorem pending_prependBatch (pool : Mempool) (txs : List Transaction) :
    (pool.prependBatch crypto txs).2.pending crypto =
      (txs.take pool.fit).map (txHashHex crypto) ++ pool.pending crypto := by
  rw [pending, (prependBatch_spec pool txs).2.1, List.map_append, pending]

/-- Returning transactions keeps the pool consistent when none of those that
fit is pending. -/
theorem prependBatch_consistent {pool : Mempool} (consistent : pool.Consistent crypto)
    {txs : List Transaction} (distinct : (txs.map (txHashHex crypto)).Nodup)
    (fresh : ∀ tx ∈ txs.take pool.fit, txHashHex crypto tx ∉ pool.pending crypto) :
    (pool.prependBatch crypto txs).2.Consistent crypto := by
  rcases prependBatch_spec pool txs with ⟨-, queue, capacity, -, known⟩
  have front : ((txs.take pool.fit).map (txHashHex crypto)).Nodup := by
    rw [List.map_take]
    exact distinct.sublist (List.take_sublist _ _)
  constructor
  · rw [pending_prependBatch, List.nodup_append]
    refine ⟨front, consistent.distinct, ?_⟩
    rintro first inFront second again rfl
    rcases List.mem_map.mp inFront with ⟨tx, member, rfl⟩
    exact fresh tx member again
  · intro txHash
    rw [known, pending_prependBatch, List.mem_append, consistent.hashes]
  · rw [queue, capacity, List.length_append, List.length_take, fit]
    have bounded := consistent.bounded
    omega

/-- And only then. -/
theorem Consistent.fresh_of_prependBatch {pool : Mempool} {txs : List Transaction}
    (after : (pool.prependBatch crypto txs).2.Consistent crypto) :
    ∀ tx ∈ txs.take pool.fit, txHashHex crypto tx ∉ pool.pending crypto := by
  intro tx member again
  have apart := after.distinct
  rw [pending_prependBatch, List.nodup_append] at apart
  exact apart.2.2 _ (List.mem_map_of_mem member) _ again rfl

end Mempool

/-! ## Sample data -/

/-- A library that accepts every signature. -/
def acceptingCrypto : Crypto where
  verify := fun _ _ _ _ => true
  sha3_256 := id
  sha3_512 := id

theorem payment_amount_pos : 1 ≤ 1000 := by decide

theorem payment_amount_le : 1000 ≤ uint64Max := by decide

theorem payment_sender_hex :
    (List.replicate 64 'a').length = 64 ∧ isHex (List.replicate 64 'a') := by decide

theorem payment_recipient_hex :
    (List.replicate 64 'b').length = 64 ∧ isHex (List.replicate 64 'b') := by decide

/-- A signed payment. -/
def payment : Transaction where
  sender := List.replicate 64 'a'
  recipient := List.replicate 64 'b'
  amount := 1000
  nonce := 0
  publicKey := List.replicate 1952 1
  signature := some [1]
  amount_pos := payment_amount_pos
  amount_le := payment_amount_le
  nonce_le := Nat.zero_le uint64Max
  sender_hex := payment_sender_hex
  recipient_hex := payment_recipient_hex
  publicKey_size := List.length_replicate ▸ List.mem_cons_of_mem _ List.mem_cons_self

theorem payment_signed : payment.signature ≠ none := Option.some_ne_none _

end Aggregator
end QLSA
