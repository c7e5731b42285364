import QLSA.Aggregator.Mempool

namespace QLSA
namespace Aggregator

open QLSA.Core Machine

/-!
# Runs of the pool

The operations in any order, each of them atomic under the lock of the pool.  A
run remembers the lists that were drained and have not come back; what is
returned is one of these lists, or the part of it that a batch cycle kept.
-/

variable (crypto : Crypto)

/-- A pool and the drained lists outside of it. -/
structure PoolState where
  pool : Mempool
  drained : List (List Transaction)

inductive PoolOp where
  | add (tx : Transaction)
  | drain (n : ℤ)
  | drainIfReady (minN maxN : ℤ)
  /-- Return transactions of the drained list at a place. -/
  | prependBatch (place : ℕ) (txs : List Transaction)
  | clear

namespace PoolState

/-- One operation; a failed one changes nothing. -/
def next (state : PoolState) : PoolOp → PoolState
  | .add tx =>
      match state.pool.add crypto tx with
      | .ok pool => { state with pool := pool }
      | .error _ => state
  | .drain n =>
      let (txs, pool) := state.pool.drain crypto n
      ⟨pool, txs :: state.drained⟩
  | .drainIfReady minN maxN =>
      match state.pool.drainIfReady crypto minN maxN with
      | .ok (txs, pool) => ⟨pool, txs :: state.drained⟩
      | .error _ => state
  | .prependBatch place txs =>
      ⟨(state.pool.prependBatch crypto txs).2, state.drained.eraseIdx place⟩
  | .clear => { state with pool := state.pool.clear }

/-- Only transactions of a drained list are returned, and each list once. -/
def Allowed (state : PoolState) : PoolOp → Prop
  | .prependBatch place txs => ∃ list, state.drained[place]? = some list ∧ txs.Sublist list
  | _ => True

/-- No returned transaction that fits is pending. -/
def Fresh (state : PoolState) : PoolOp → Prop
  | .prependBatch _ txs =>
      ∀ tx ∈ txs.take state.pool.fit, txHashHex crypto tx ∉ state.pool.pending crypto
  | _ => True

/-- The pool is consistent, and so are the lists outside of it. -/
structure Orderly (state : PoolState) : Prop where
  pool : state.pool.Consistent crypto
  drained : ∀ list ∈ state.drained, (list.map (txHashHex crypto)).Nodup

variable {crypto}

/-- Draining leaves two orderly parts. -/
theorem Orderly.popFront {state : PoolState} (orderly : state.Orderly crypto) (count : ℕ) :
    Orderly crypto ⟨(state.pool.popFront crypto count).2,
      (state.pool.popFront crypto count).1 :: state.drained⟩ where
  pool := Mempool.popFront_consistent orderly.pool count
  drained := by
    intro list member
    rcases List.mem_cons.mp member with rfl | earlier
    · have front : ((state.pool.txs.take count).map (txHashHex crypto)).Sublist
          (state.pool.pending crypto) := (List.take_sublist count _).map _
      exact orderly.pool.distinct.sublist front
    · exact orderly.drained list earlier

theorem Orderly.idle {state : PoolState} (orderly : state.Orderly crypto) :
    Orderly crypto ⟨state.pool, [] :: state.drained⟩ where
  pool := orderly.pool
  drained := by
    intro list member
    rcases List.mem_cons.mp member with rfl | earlier
    · exact List.nodup_nil
    · exact orderly.drained list earlier

/-- Every operation keeps a state orderly, a return if it is fresh. -/
theorem Orderly.next {state : PoolState} {op : PoolOp} (orderly : state.Orderly crypto)
    (allowed : state.Allowed op) (fresh : state.Fresh crypto op) :
    (state.next crypto op).Orderly crypto := by
  cases op with
  | add tx =>
      cases added : state.pool.add crypto tx with
      | error failure =>
          simp only [PoolState.next, added]
          exact orderly
      | ok pool =>
          simp only [PoolState.next, added]
          exact ⟨Mempool.add_consistent orderly.pool added, orderly.drained⟩
  | drain n =>
      simp only [PoolState.next, Mempool.drain]
      split
      · exact orderly.idle
      · exact orderly.popFront _
  | drainIfReady minN maxN =>
      simp only [PoolState.next, Mempool.drainIfReady]
      by_cases small : minN < 1
      · rw [if_pos small]
        exact orderly
      · rw [if_neg small]
        by_cases few : (state.pool.txs.length : ℤ) < minN
        · rw [if_pos few]
          exact orderly.idle
        · rw [if_neg few]
          exact orderly.popFront _
  | prependBatch place txs =>
      rcases allowed with ⟨list, found, part⟩
      have distinct := orderly.drained list (List.mem_of_getElem? found)
      constructor
      · exact Mempool.prependBatch_consistent orderly.pool
          (distinct.sublist (part.map _)) fresh
      · intro other member
        exact orderly.drained other (List.mem_of_mem_eraseIdx member)
  | clear =>
      exact ⟨⟨List.nodup_nil, by simp [PoolState.next, Mempool.clear, Mempool.pending],
        Nat.zero_le _⟩, orderly.drained⟩

end PoolState

/-- What a pool promises: its two structures describe each other within the
capacity, `contains` answers for the queue, and a signed transaction is refused
when it is pending or the pool is full. -/
def Mempool.Represents (pool : Mempool) : Prop :=
  pool.Consistent crypto ∧
  (∀ txHash, pool.contains txHash = true ↔ ∃ tx ∈ pool.txs, txHashHex crypto tx = txHash) ∧
  ∀ tx : Transaction, tx.signature ≠ none →
    ((∃ error, pool.add crypto tx = .error error) ↔
      (∃ other ∈ pool.txs, txHashHex crypto other = txHashHex crypto tx) ∨
        pool.txs.length = pool.maxSize)

variable {crypto}

theorem Mempool.Consistent.represents {pool : Mempool} (consistent : pool.Consistent crypto) :
    pool.Represents crypto :=
  ⟨consistent, consistent.contains_iff, fun _ signed => consistent.add_error_iff signed⟩

theorem fresh_of_represents (state : PoolState) (op : PoolOp)
    (after : (state.next crypto op).pool.Represents crypto) : state.Fresh crypto op := by
  cases op with
  | prependBatch place txs => exact after.1.fresh_of_prependBatch
  | _ => trivial

/-- In a run from a new pool all states keep the promises exactly when every return is fresh.  The
operations come in any order, with lists drained by several callers outside of the pool at a time;
a return is allowed if it is part of such a list, which is then used up, and it is fresh if no
transaction of it that still fits is pending again. -/
theorem pool_represents_iff {maxSize : ℤ} {pool : Mempool} (made : Mempool.init maxSize = .ok pool)
    {ops : List PoolOp}
    (allowed : Along (PoolState.next crypto) PoolState.Allowed ⟨pool, []⟩ ops) :
    Always (PoolState.next crypto) (fun state => state.pool.Represents crypto) ⟨pool, []⟩ ops ↔
      Along (PoolState.next crypto) (PoolState.Fresh crypto) ⟨pool, []⟩ ops := by
  constructor
  · exact along_of_always fresh_of_represents
  · intro fresh
    have start : PoolState.Orderly crypto ⟨pool, []⟩ :=
      ⟨Mempool.init_consistent made, fun list member => absurd member List.not_mem_nil⟩
    have orderly := always_of_along
      (fun state op holds meets => PoolState.Orderly.next holds meets.1 meets.2) start
      (allowed.and fresh)
    exact orderly.imp fun state holds => holds.pool.represents

/-! ## A transaction that is added again -/

/-- A pool of two places. -/
def twoPlaces : Mempool := ⟨2, [], ∅, 0, by decide⟩

/-- A transaction is drained, added again, and returned. -/
def addedAgain (tx : Transaction) : List PoolOp :=
  [.add tx, .drain 1, .add tx, .prependBatch 0 [tx]]

theorem addedAgain_allowed {tx : Transaction} (signed : tx.signature ≠ none) :
    Along (PoolState.next crypto) PoolState.Allowed ⟨twoPlaces, []⟩ (addedAgain tx) := by
  have drained : (PoolState.next crypto (PoolState.next crypto (PoolState.next crypto
      ⟨twoPlaces, []⟩ (.add tx)) (.drain 1)) (.add tx)).drained = [[tx]] := by
    simp [PoolState.next, Mempool.add, Mempool.drain, Mempool.popFront, twoPlaces, signed]
  refine ⟨trivial, trivial, trivial, ⟨[tx], ?_, List.Sublist.refl _⟩, trivial⟩
  rw [drained]
  rfl

theorem addedAgain_not_fresh {tx : Transaction} (signed : tx.signature ≠ none) :
    ¬ Along (PoolState.next crypto) (PoolState.Fresh crypto) ⟨twoPlaces, []⟩ (addedAgain tx) := by
  rintro ⟨-, -, -, fresh, -⟩
  have queue : (PoolState.next crypto (PoolState.next crypto (PoolState.next crypto
      ⟨twoPlaces, []⟩ (.add tx)) (.drain 1)) (.add tx)).pool.txs = [tx] := by
    simp [PoolState.next, Mempool.add, Mempool.drain, Mempool.popFront, twoPlaces, signed]
  have capacity : (PoolState.next crypto (PoolState.next crypto (PoolState.next crypto
      ⟨twoPlaces, []⟩ (.add tx)) (.drain 1)) (.add tx)).pool.maxSize = 2 := by
    simp [PoolState.next, Mempool.add, Mempool.drain, Mempool.popFront, twoPlaces, signed]
  apply fresh tx
  · rw [Mempool.fit, queue, capacity]
    exact List.mem_cons_self
  · rw [Mempool.pending, queue]
    exact List.mem_cons_self

theorem pool_forgets_payment :
    ¬ ∀ (crypto : Crypto) (maxSize : ℤ) (pool : Mempool) (ops : List PoolOp),
      Mempool.init maxSize = .ok pool →
      Along (PoolState.next crypto) PoolState.Allowed ⟨pool, []⟩ ops →
      Always (PoolState.next crypto) (fun state => state.pool.Represents crypto) ⟨pool, []⟩ ops := by
  intro represents
  have always := represents acceptingCrypto 2 twoPlaces (addedAgain payment) rfl
    (addedAgain_allowed payment_signed)
  exact addedAgain_not_fresh payment_signed (along_of_always fresh_of_represents always)

/-- A payment that is drained and returned before it is added again. -/
theorem pool_represents_returned_payment :
    Always (PoolState.next acceptingCrypto) (fun state => state.pool.Represents acceptingCrypto)
      ⟨twoPlaces, []⟩ [.add payment, .drain 1, .prependBatch 0 [payment], .add payment] := by
  have drained : (PoolState.next acceptingCrypto (PoolState.next acceptingCrypto
      ⟨twoPlaces, []⟩ (.add payment)) (.drain 1)).drained = [[payment]] := by
    simp [PoolState.next, Mempool.add, Mempool.drain, Mempool.popFront, twoPlaces, payment_signed]
  have queue : (PoolState.next acceptingCrypto (PoolState.next acceptingCrypto
      ⟨twoPlaces, []⟩ (.add payment)) (.drain 1)).pool.txs = [] := by
    simp [PoolState.next, Mempool.add, Mempool.drain, Mempool.popFront, twoPlaces, payment_signed]
  have returned : Along (PoolState.next acceptingCrypto) PoolState.Allowed ⟨twoPlaces, []⟩
      [.add payment, .drain 1, .prependBatch 0 [payment], .add payment] := by
    refine ⟨trivial, trivial, ⟨[payment], ?_, List.Sublist.refl _⟩, trivial, trivial⟩
    rw [drained]
    rfl
  have fresh : Along (PoolState.next acceptingCrypto) (PoolState.Fresh acceptingCrypto)
      ⟨twoPlaces, []⟩ [.add payment, .drain 1, .prependBatch 0 [payment], .add payment] := by
    refine ⟨trivial, trivial, ?_, trivial, trivial⟩
    intro tx _
    rw [Mempool.pending, queue]
    exact List.not_mem_nil
  have made : Mempool.init 2 = .ok twoPlaces := rfl
  exact (pool_represents_iff made returned).mpr fresh

end Aggregator
end QLSA
