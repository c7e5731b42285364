import QLSA.Aggregator.CycleAccounts
import QLSA.Aggregator.PoolRuns
import Mathlib.Algebra.Order.Group.Multiset

namespace QLSA
namespace Aggregator

open QLSA.Core Machine

/-!
# The node and its threads

A submission asks the replay guard first and the pool afterwards; a cycle takes
transactions out of the pool, works on them alone, and in the end returns them
or records a batch.  Each of these steps holds one lock and is atomic; between
them anything else can happen.  The statistics and the index of senders are
written by these steps but not read by any of them, and are left out.

Every hash is counted once for each place where it stands: pending, in the
hands of a cycle, or in a retained batch.  No step but the insertion by a
submission adds to this ledger.  The guard looks at the retained batches only,
so a transaction that a cycle works on can be submitted again.
-/

/-! ## The node -/

abbrev BatchId := String

structure Node where
  mempool : Mempool
  /-- Batch results with their ids, oldest first. -/
  history : List (BatchId × BatchResult)
  txToBatch : List Char → Option BatchId

/-- Number of batch results that are kept. -/
def maxHistory : ℕ := 1000

section Node

variable (crypto : Crypto)

def batchHashes (result : BatchResult) : List (List Char) :=
  result.batch.transactions.map (txHashHex crypto)

def forget (index : List Char → Option BatchId) (hashes : List (List Char)) :
    List Char → Option BatchId :=
  hashes.foldl (fun index txHash => Function.update index txHash none) index

def remember (index : List Char → Option BatchId) (batchId : BatchId) (hashes : List (List Char)) :
    List Char → Option BatchId :=
  hashes.foldl (fun index txHash => Function.update index txHash (some batchId)) index

/-- The oldest result leaves a full history, and its hashes the index. -/
def Node.evict (node : Node) : Node :=
  match node.history with
  | [] => node
  | oldest :: later =>
      if node.history.length = maxHistory then
        { node with
          history := later
          txToBatch := forget node.txToBatch (batchHashes crypto oldest.2) }
      else node

def Node.record (node : Node) (batchId : BatchId) (result : BatchResult) : Node :=
  let room := node.evict crypto
  { room with
    history := room.history ++ [(batchId, result)]
    txToBatch := remember room.txToBatch batchId (batchHashes crypto result) }

/-- Hashes of all retained batches, with repetitions. -/
def Node.retained (node : Node) : List (List Char) :=
  node.history.flatMap fun entry => batchHashes crypto entry.2

/-- The index of batched transactions knows the retained hashes. -/
def Node.Indexed (node : Node) : Prop :=
  ∀ txHash, node.txToBatch txHash ≠ none ↔ txHash ∈ node.retained crypto

variable {crypto}

theorem forget_apply (index : List Char → Option BatchId) (hashes : List (List Char))
    (txHash : List Char) :
    forget index hashes txHash = if txHash ∈ hashes then none else index txHash := by
  induction hashes generalizing index with
  | nil => rfl
  | cons first rest ih =>
      rw [forget, List.foldl_cons, ← forget, ih]
      by_cases later : txHash ∈ rest
      · rw [if_pos later, if_pos (List.mem_cons_of_mem _ later)]
      · rw [if_neg later]
        by_cases own : txHash = first
        · rw [own, Function.update_self, if_pos List.mem_cons_self]
        · rw [Function.update_of_ne own, if_neg]
          simp [own, later]

theorem remember_apply (index : List Char → Option BatchId) (batchId : BatchId)
    (hashes : List (List Char)) (txHash : List Char) :
    remember index batchId hashes txHash =
      if txHash ∈ hashes then some batchId else index txHash := by
  induction hashes generalizing index with
  | nil => rfl
  | cons first rest ih =>
      rw [remember, List.foldl_cons, ← remember, ih]
      by_cases later : txHash ∈ rest
      · rw [if_pos later, if_pos (List.mem_cons_of_mem _ later)]
      · rw [if_neg later]
        by_cases own : txHash = first
        · rw [own, Function.update_self, if_pos List.mem_cons_self]
        · rw [Function.update_of_ne own, if_neg]
          simp [own, later]

theorem Node.evict_spec (node : Node) :
    (node.evict crypto).mempool = node.mempool ∧
      ((node.evict crypto).retained crypto).Sublist (node.retained crypto) ∧
      ((node.retained crypto).Nodup → node.Indexed crypto →
        (node.evict crypto).Indexed crypto) := by
  cases listed : node.history with
  | nil => simp [Node.evict, listed]
  | cons oldest later =>
      have split : node.retained crypto =
          batchHashes crypto oldest.2 ++ later.flatMap fun entry => batchHashes crypto entry.2 := by
        rw [Node.retained, listed, List.flatMap_cons]
      by_cases full : node.history.length = maxHistory
      · have evicted : node.evict crypto = { node with
            history := later
            txToBatch := forget node.txToBatch (batchHashes crypto oldest.2) } := by
          rw [Node.evict, listed]
          dsimp only
          rw [if_pos (listed ▸ full)]
        rw [evicted]
        refine ⟨rfl, ?_, ?_⟩
        · rw [split]
          exact List.sublist_append_right _ _
        · intro distinct indexed txHash
          rw [split, List.nodup_append] at distinct
          have known := indexed txHash
          rw [split, List.mem_append] at known
          dsimp only
          rw [forget_apply, Node.retained]
          by_cases old : txHash ∈ batchHashes crypto oldest.2
          · rw [if_pos old]
            simp only [ne_eq, not_true_eq_false, false_iff]
            intro again
            exact distinct.2.2 txHash old txHash again rfl
          · rw [if_neg old, known]
            simp [old]
      · have kept : node.evict crypto = node := by
          rw [Node.evict, listed]
          dsimp only
          rw [if_neg (listed ▸ full)]
        rw [kept]
        exact ⟨rfl, List.Sublist.refl _, fun _ indexed => indexed⟩

/-- Recording a batch adds its hashes to the retained ones, of which some may
have left. -/
theorem Node.record_spec (node : Node) (batchId : BatchId) (result : BatchResult) :
    (node.record crypto batchId result).mempool = node.mempool ∧
      (∃ later, later.Sublist (node.retained crypto) ∧
        (node.record crypto batchId result).retained crypto = later ++ batchHashes crypto result) ∧
      ((node.retained crypto).Nodup → node.Indexed crypto →
        (node.record crypto batchId result).Indexed crypto) := by
  rcases @Node.evict_spec crypto node with ⟨pool, kept, index⟩
  have retained : (node.record crypto batchId result).retained crypto =
      (node.evict crypto).retained crypto ++ batchHashes crypto result := by
    rw [Node.retained, Node.record, List.flatMap_append, Node.retained]
    simp
  refine ⟨pool, ⟨_, kept, retained⟩, ?_⟩
  intro distinct indexed txHash
  have known := index distinct indexed txHash
  rw [retained, List.mem_append, ← known]
  simp only [Node.record]
  rw [remember_apply]
  by_cases own : txHash ∈ batchHashes crypto result
  · simp [own]
  · simp [own]

end Node

/-! ## Threads -/

/-- A node, the submissions between the guard and the pool, and the
transactions in the hands of running cycles. -/
structure System where
  node : Node
  checked : List Transaction
  cycles : List (List Transaction)

inductive Event where
  /-- The replay guard of a submission. -/
  | check (tx : Transaction)
  /-- The insertion of the submission at a place. -/
  | add (place : ℕ)
  /-- The drain of `run_cycle`. -/
  | runCycle
  /-- The drain of `force_cycle`. -/
  | forceCycle
  /-- The end of the cycle at a place. -/
  | finish (place : ℕ) (provers : ProverModules) (withWitnesses withTree : Bool)
      (retries : RetryDict) (batchId : BatchId)

section Threads

variable (crypto : Crypto) (batcher : Batcher)

/-- A cycle starts with what it drained, unless that is nothing. -/
def System.start (system : System) (drained : List Transaction × Mempool) : System :=
  let (txs, pool) := drained
  { system with
    node := { system.node with mempool := pool }
    cycles := if txs.isEmpty then system.cycles else txs :: system.cycles }

/-- One atomic step.  A submission between its guard and its insertion, and a cycle between its
drain and its end, wait outside of the pool while any other steps are taken; both are named by
their place in the lists of those that wait. -/
def System.next (system : System) : Event → System
  | .check tx =>
      if (system.node.txToBatch (txHashHex crypto tx)).isSome then system
      else { system with checked := tx :: system.checked }
  | .add place =>
      match system.checked[place]? with
      | none => system
      | some tx =>
          let rest := system.checked.eraseIdx place
          match system.node.mempool.add crypto tx with
          | .error _ => { system with checked := rest }
          | .ok pool =>
              { system with node := { system.node with mempool := pool }, checked := rest }
  | .runCycle =>
      match system.node.mempool.drainIfReady crypto batcher.minBatchSize batcher.maxBatchSize with
      | .error _ => system
      | .ok drained => system.start drained
  | .forceCycle => system.start (system.node.mempool.drain crypto batcher.maxBatchSize)
  | .finish place provers withWitnesses withTree retries batchId =>
      match system.cycles[place]? with
      | none => system
      | some txs =>
          let rest := system.cycles.eraseIdx place
          let (_, pool, outcome) :=
            createAndProve crypto provers batcher withWitnesses withTree retries system.node.mempool txs
          let node := { system.node with mempool := pool }
          match outcome with
          | .ok (some result) => { system with node := node.record crypto batchId result, cycles := rest }
          | _ => { system with node := node, cycles := rest }

/-- Hashes of the valid transactions in the hands of cycles. -/
def System.inFlight (system : System) : List (List Char) :=
  (system.cycles.flatMap (validOf crypto batcher)).map (txHashHex crypto)

/-- The same without the one at a place. -/
def System.others (system : System) (place : ℕ) : List (List Char) :=
  ((system.cycles.eraseIdx place).flatMap (validOf crypto batcher)).map (txHashHex crypto)

/-- Every hash once for each place where it stands. -/
def System.ledger (system : System) : Multiset (List Char) :=
  (system.node.mempool.pending crypto : Multiset (List Char)) + system.inFlight crypto batcher +
    system.node.retained crypto

/-- A submission enters the pool only while no cycle works on its transaction
and no retained batch has it. -/
def System.Timely (system : System) : Event → Prop
  | .add place => ∀ tx, system.checked[place]? = some tx →
      (∃ pool, system.node.mempool.add crypto tx = .ok pool) →
      txHashHex crypto tx ∉ system.inFlight crypto batcher ∧
        txHashHex crypto tx ∉ system.node.retained crypto
  | _ => True

/-- No hash occurs twice in retained batches and none of them is pending. -/
def System.BatchesOnce (system : System) : Prop :=
  (system.node.retained crypto).Nodup ∧
    ∀ txHash ∈ system.node.retained crypto, txHash ∉ system.node.mempool.pending crypto

/-- The ledger has no hash twice, and the pool and the guard know what they stand for. -/
structure System.Orderly (system : System) : Prop where
  pool : system.node.mempool.Consistent crypto
  indexed : system.node.Indexed crypto
  distinct : (system.ledger crypto batcher).Nodup

variable {crypto batcher}

theorem System.Orderly.batchesOnce {system : System} (orderly : system.Orderly crypto batcher) :
    system.BatchesOnce crypto := by
  have distinct := orderly.distinct
  rw [ledger, Multiset.nodup_add, Multiset.nodup_add, Multiset.disjoint_add_left] at distinct
  refine ⟨Multiset.coe_nodup.mp distinct.2.1, ?_⟩
  intro txHash retained pending
  exact Multiset.disjoint_left.mp distinct.2.2.1 (Multiset.mem_coe.mpr pending)
    (Multiset.mem_coe.mpr retained)

/-! ## The steps keep the ledger -/

/-- A step that changes neither history nor index may lose hashes from the
pool and from the cycles. -/
theorem System.Orderly.of_le {system : System} (orderly : system.Orderly crypto batcher)
    (after : System) (pool : after.node.mempool.Consistent crypto)
    (history : after.node.history = system.node.history)
    (index : after.node.txToBatch = system.node.txToBatch)
    (less : (after.node.mempool.pending crypto : Multiset (List Char)) +
        after.inFlight crypto batcher ≤
      (system.node.mempool.pending crypto : Multiset (List Char)) +
        system.inFlight crypto batcher) :
    after.Orderly crypto batcher := by
  have retained : after.node.retained crypto = system.node.retained crypto := by
    rw [Node.retained, history, Node.retained]
  refine ⟨pool, ?_, ?_⟩
  · intro txHash
    rw [index, retained]
    exact orderly.indexed txHash
  · apply Multiset.nodup_of_le _ orderly.distinct
    rw [ledger, ledger, retained]
    exact Multiset.add_le_add_right less

theorem System.inFlight_start (system : System) (txs : List Transaction) (pool : Mempool) :
    (system.start (txs, pool)).inFlight crypto batcher =
      (validOf crypto batcher txs).map (txHashHex crypto) ++ system.inFlight crypto batcher := by
  cases txs with
  | nil => rfl
  | cons tx rest => simp [start, inFlight]

/-- A started cycle holds valid hashes that were pending. -/
theorem System.Orderly.start {system : System} (orderly : system.Orderly crypto batcher) (count : ℕ) :
    (system.start (system.node.mempool.popFront crypto count)).Orderly crypto batcher := by
  have split : system.node.mempool.pending crypto =
      (system.node.mempool.txs.take count).map (txHashHex crypto) ++
        (system.node.mempool.txs.drop count).map (txHashHex crypto) := by
    rw [← List.map_append, List.take_append_drop, Mempool.pending]
  have valid : ((validOf crypto batcher (system.node.mempool.txs.take count)).map
      (txHashHex crypto)).Sublist ((system.node.mempool.txs.take count).map (txHashHex crypto)) :=
    List.filter_sublist.map _
  refine orderly.of_le (system.start (system.node.mempool.popFront crypto count))
    (Mempool.popFront_consistent orderly.pool count) rfl rfl ?_
  rw [Mempool.popFront, inFlight_start, split, ← Multiset.coe_add, ← Multiset.coe_add, ← add_assoc]
  apply Multiset.add_le_add_right
  rw [add_comm]
  exact Multiset.add_le_add_right (Multiset.coe_le.mpr valid.subperm)

/-- The hashes of a running cycle, and those of the others. -/
theorem System.inFlight_of_getElem? {system : System} {place : ℕ} {txs : List Transaction}
    (running : system.cycles[place]? = some txs) :
    (system.inFlight crypto batcher : Multiset (List Char)) =
      ((validOf crypto batcher txs).map (txHashHex crypto) : Multiset (List Char)) +
        system.others crypto batcher place := by
  rcases List.getElem?_eq_some_iff.mp running with ⟨bound, found⟩
  have moved : (txs :: system.cycles.eraseIdx place).Perm system.cycles := by
    rw [← found]
    exact List.getElem_cons_eraseIdx_perm bound
  rw [Multiset.coe_add, inFlight, others, ← List.map_append, ← List.flatMap_cons]
  exact Multiset.coe_eq_coe.mpr ((moved.symm.flatMap_right _).map _)

/-- A recorded cycle moves its hashes to the history. -/
theorem System.Orderly.recorded {system : System} (orderly : system.Orderly crypto batcher)
    {place : ℕ} {txs : List Transaction} (running : system.cycles[place]? = some txs)
    {result : BatchResult} (transactions : result.batch.transactions = validOf crypto batcher txs)
    (batchId : BatchId) :
    System.Orderly crypto batcher { system with
      node := system.node.record crypto batchId result
      cycles := system.cycles.eraseIdx place } := by
  rcases @Node.record_spec crypto system.node batchId result with
    ⟨pool, ⟨later, left, retained⟩, indexed⟩
  have whole := orderly.distinct
  refine ⟨?_, ?_, ?_⟩
  · rw [pool]
    exact orderly.pool
  · apply indexed _ orderly.indexed
    rw [ledger, Multiset.nodup_add] at whole
    exact Multiset.coe_nodup.mp whole.2.1
  · apply Multiset.nodup_of_le _ whole
    have hashes : batchHashes crypto result =
        (validOf crypto batcher txs).map (txHashHex crypto) := by
      rw [batchHashes, transactions]
    have kept : (later : Multiset (List Char)) ≤ system.node.retained crypto :=
      Multiset.coe_le.mpr left.subperm
    rw [ledger, ledger, inFlight_of_getElem? running]
    calc
      _ = (system.node.mempool.pending crypto : Multiset (List Char)) +
            system.others crypto batcher place + (later ++ (validOf crypto batcher txs).map
              (txHashHex crypto) : List (List Char)) := by
          rw [pool, retained, hashes]
          rfl
      _ = (system.node.mempool.pending crypto : Multiset (List Char)) +
            ((validOf crypto batcher txs).map (txHashHex crypto) +
              system.others crypto batcher place) + later := by
          rw [← Multiset.coe_add]
          ac_rfl
      _ ≤ _ := Multiset.add_le_add_left kept

/-- A cycle without a result moves some of its hashes to the pool. -/
theorem System.Orderly.returned {system : System} (orderly : system.Orderly crypto batcher)
    {place : ℕ} {txs : List Transaction} (running : system.cycles[place]? = some txs)
    {pool : Mempool} (kept : pool = system.node.mempool ∨
      pool = (system.node.mempool.prependBatch crypto (validOf crypto batcher txs)).2) :
    System.Orderly crypto batcher { system with
      node := { system.node with mempool := pool }
      cycles := system.cycles.eraseIdx place } := by
  have whole := orderly.distinct
  rw [ledger, inFlight_of_getElem? running, Multiset.nodup_add, Multiset.nodup_add,
    Multiset.nodup_add, Multiset.disjoint_add_right] at whole
  rcases whole.1 with ⟨-, ⟨valid, -, -⟩, apart, -⟩
  rcases kept with rfl | rfl
  · refine orderly.of_le _ orderly.pool rfl rfl ?_
    rw [inFlight_of_getElem? running]
    exact Multiset.add_le_add_left (Multiset.le_add_left _ _)
  · have consistent : (system.node.mempool.prependBatch crypto
        (validOf crypto batcher txs)).2.Consistent crypto := by
      apply Mempool.prependBatch_consistent orderly.pool (Multiset.coe_nodup.mp valid)
      intro tx returned pending
      have member : txHashHex crypto tx ∈ (validOf crypto batcher txs).map (txHashHex crypto) :=
        List.mem_map_of_mem (List.mem_of_mem_take returned)
      exact Multiset.disjoint_left.mp apart (Multiset.mem_coe.mpr pending)
        (Multiset.mem_coe.mpr member)
    have front : ((((validOf crypto batcher txs).take system.node.mempool.fit).map
        (txHashHex crypto) : List (List Char)) : Multiset (List Char)) ≤
        (validOf crypto batcher txs).map (txHashHex crypto) :=
      Multiset.coe_le.mpr ((List.take_sublist _ _).map _).subperm
    refine orderly.of_le _ consistent rfl rfl ?_
    rw [inFlight_of_getElem? running, Mempool.pending_prependBatch, ← Multiset.coe_add]
    calc
      _ = (system.node.mempool.pending crypto : Multiset (List Char)) +
            (((validOf crypto batcher txs).take system.node.mempool.fit).map (txHashHex crypto) +
              system.others crypto batcher place) := by
          rw [← add_assoc, add_comm (system.node.mempool.pending crypto : Multiset (List Char))]
          rfl
      _ ≤ _ := Multiset.add_le_add_left (Multiset.add_le_add_right front)

/-- The end of a cycle moves its hashes to the pool or to the history, or
loses them. -/
theorem System.Orderly.finish {system : System} (orderly : system.Orderly crypto batcher)
    {place : ℕ} {provers : ProverModules} {withWitnesses withTree : Bool} {retries : RetryDict}
    {batchId : BatchId} :
    (system.next crypto batcher
      (.finish place provers withWitnesses withTree retries batchId)).Orderly crypto batcher := by
  rw [System.next]
  cases running : system.cycles[place]? with
  | none => exact orderly
  | some txs =>
      dsimp only
      rcases ended : createAndProve crypto provers batcher withWitnesses withTree retries
        system.node.mempool txs with ⟨counted, pool, outcome⟩
      rcases createAndProve_cases withWitnesses withTree ended with
        ⟨result, same, transactions⟩ | ⟨none_out, kept⟩
      · cases same
        exact orderly.recorded running transactions batchId
      · have back := orderly.returned running kept
        cases outcome with
        | error escape => exact back
        | ok made =>
            cases made with
            | none => exact back
            | some result => exact absurd rfl (none_out result)

/-- A timely insertion brings a new hash. -/
theorem System.Orderly.add {system : System} (orderly : system.Orderly crypto batcher)
    {place : ℕ} (timely : system.Timely crypto batcher (.add place)) :
    (system.next crypto batcher (.add place)).Orderly crypto batcher := by
  rw [System.next]
  cases checked : system.checked[place]? with
  | none => exact orderly
  | some tx =>
      dsimp only
      cases added : system.node.mempool.add crypto tx with
      | error failure => exact ⟨orderly.pool, orderly.indexed, orderly.distinct⟩
      | ok pool =>
          rcases timely tx checked ⟨pool, added⟩ with ⟨idle, unbatched⟩
          rcases Mempool.add_spec added with ⟨-, fresh, -, grown⟩
          rw [orderly.pool.hashes] at fresh
          have pending : pool.pending crypto =
              system.node.mempool.pending crypto ++ [txHashHex crypto tx] := by
            rw [grown, Mempool.pending, List.map_append]
            rfl
          refine ⟨Mempool.add_consistent orderly.pool added, orderly.indexed, ?_⟩
          have apart : txHashHex crypto tx ∉ system.ledger crypto batcher := by
            simp only [ledger, Multiset.mem_add, Multiset.mem_coe, fresh, idle, unbatched, or_self,
              not_false_eq_true]
          have distinct := Multiset.nodup_cons.mpr ⟨apart, orderly.distinct⟩
          have counted : txHashHex crypto tx ::ₘ system.ledger crypto batcher =
              (pool.pending crypto : Multiset (List Char)) + system.inFlight crypto batcher +
                system.node.retained crypto := by
            rw [pending, ← Multiset.coe_add, ledger, ← Multiset.singleton_add,
              Multiset.coe_singleton]
            ac_rfl
          rw [counted] at distinct
          exact distinct

theorem System.Orderly.next {system : System} {event : Event}
    (orderly : system.Orderly crypto batcher) (timely : system.Timely crypto batcher event) :
    (system.next crypto batcher event).Orderly crypto batcher := by
  cases event with
  | check tx =>
      rw [System.next]
      split
      · exact orderly
      · exact ⟨orderly.pool, orderly.indexed, orderly.distinct⟩
  | add place => exact orderly.add timely
  | runCycle =>
      simp only [System.next, Mempool.drainIfReady]
      by_cases small : batcher.minBatchSize < 1
      · rw [if_pos small]
        exact orderly
      · rw [if_neg small]
        by_cases few : (system.node.mempool.txs.length : ℤ) < batcher.minBatchSize
        · rw [if_pos few]
          exact orderly
        · rw [if_neg few]
          exact orderly.start _
  | forceCycle =>
      simp only [System.next, Mempool.drain]
      split
      · exact orderly
      · exact orderly.start _
  | finish place provers withWitnesses withTree retries batchId => exact orderly.finish

/-! ## Runs of the node -/

/-- A new node, on which nobody works. -/
def System.init (pool : Mempool) : System := ⟨⟨pool, [], fun _ => none⟩, [], []⟩

theorem System.init_orderly {capacity : ℤ} {pool : Mempool} (made : Mempool.init capacity = .ok pool) :
    (System.init pool).Orderly crypto batcher := by
  have empty : pool.pending crypto = [] := by
    unfold Mempool.init at made
    split at made
    · cases made
    · cases made
      rfl
  refine ⟨Mempool.init_consistent made, ?_, ?_⟩
  · intro txHash
    simp [init, Node.retained]
  · simp [ledger, init, inFlight, Node.retained, empty]

/-- While submissions are timely no transaction is batched twice.  The events are the atomic steps
of the node in any order: the guard of a submission, its insertion, the drains of both kinds of
cycles and the end of a cycle, at which batches may be evicted.  A submission is timely when its
transaction is neither in a running cycle nor in a retained batch at the moment it enters the
pool, which the guard tested only earlier. -/
theorem node_batchesOnce {capacity : ℤ} {pool : Mempool} (made : Mempool.init capacity = .ok pool)
    {events : List Event}
    (timely : Along (System.next crypto batcher) (System.Timely crypto batcher)
      (System.init pool) events) :
    Always (System.next crypto batcher) (System.BatchesOnce crypto) (System.init pool) events := by
  have orderly := always_of_along (fun system event holds meets => System.Orderly.next holds meets)
    (System.init_orderly made) timely
  exact orderly.imp fun system holds => holds.batchesOnce

end Threads

/-! ## A submission during a cycle -/

/-- A transaction is submitted again while a cycle works on it. -/
def submittedTwice (tx : Transaction) : List Event :=
  [.check tx, .add 0, .runCycle, .check tx, .add 0,
    .finish 0 (bareProvers false) false false [] ""]

/-- The cycle ends with a batch of its only transaction, and the transaction
is pending again. -/
theorem not_always_submittedTwice {crypto : Crypto} {tx : Transaction} (signed : tx.signature ≠ none)
    (valid : validOf crypto nodeBatcher [tx] = [tx]) :
    ¬ Always (System.next crypto nodeBatcher) (System.BatchesOnce crypto)
      (System.init twoPlaces) (submittedTwice tx) := by
  rintro ⟨-, -, -, -, -, -, last⟩
  generalize before : System.next crypto nodeBatcher (System.next crypto nodeBatcher
    (System.next crypto nodeBatcher (System.next crypto nodeBatcher (System.next crypto nodeBatcher
      (System.init twoPlaces) (.check tx)) (.add 0)) .runCycle) (.check tx)) (.add 0) = system at last
  have queue : system.node.mempool.txs = [tx] ∧ system.cycles = [[tx]] := by
    rw [← before]
    simp [System.next, System.init, System.start, Mempool.add, Mempool.drainIfReady,
      Mempool.popFront, twoPlaces, nodeBatcher, signed]
  rcases queue with ⟨queue, running⟩
  have some_valid : validOf crypto nodeBatcher [tx] ≠ [] := by
    rw [valid]
    exact List.cons_ne_nil _ _
  have handled : CycleHandled crypto (bareProvers false) nodeBatcher false false [tx] := by
    right
    rw [valid]
    have room : [tx].length ≤ maxBatchSize := Nat.le_of_ble_eq_true rfl
    have proves : (bareProvers false).proveBatch (batchOf crypto [tx]) ≠ .escapes := by
      intro escapes
      cases escapes
    exact ⟨by decide, room, proves, fun unset => absurd unset Bool.false_ne_true,
      fun unset => absurd unset Bool.false_ne_true⟩
  rcases ended : createAndProve crypto (bareProvers false) nodeBatcher false false []
    system.node.mempool [tx] with ⟨counted, pool, outcome⟩
  have nothing : LosesNothing crypto (bareProvers false) nodeBatcher [tx] system.node.mempool
      (counted, pool, outcome) := by
    rw [← ended]
    exact (createAndProve_losesNothing_iff false false).mpr handled
  have calm : ¬ ProverCrashes crypto (bareProvers false) nodeBatcher [tx] := by
    rintro ⟨batch, stored, -, crashed⟩
    cases crashed
  rcases nothing.2 calm some_valid with ⟨result, returned⟩
  rcases createAndProve_cases false false ended with ⟨made, same, transactions⟩ | ⟨none_out, -⟩
  · cases same
    rw [System.next, running] at last
    dsimp only [List.getElem?_cons_zero] at last
    rw [ended] at last
    rcases @Node.record_spec crypto system.node "" made with
      ⟨kept, ⟨later, -, retained⟩, -⟩
    have member : txHashHex crypto tx ∈ (system.node.record crypto "" made).retained crypto := by
      rw [retained, batchHashes, transactions, valid]
      simp
    apply last.2 _ member
    dsimp only
    rw [kept, Mempool.pending, queue]
    exact List.mem_cons_self
  · exact none_out result returned

theorem node_batches_payment_again :
    ¬ ∀ (crypto : Crypto) (batcher : Batcher) (capacity : ℤ) (pool : Mempool) (events : List Event),
      Mempool.init capacity = .ok pool →
      Always (System.next crypto batcher) (System.BatchesOnce crypto) (System.init pool) events := by
  intro once
  have always := once acceptingCrypto nodeBatcher 2 twoPlaces (submittedTwice payment) rfl
  exact not_always_submittedTwice payment_signed payment_verifies always

/-- The payment is submitted while nobody works on it. -/
theorem node_batchesOnce_payment :
    Always (System.next acceptingCrypto nodeBatcher) (System.BatchesOnce acceptingCrypto)
      (System.init twoPlaces) [.check payment, .add 0, .runCycle,
        .finish 0 (bareProvers false) false false [] "", .check payment] := by
  have made : Mempool.init 2 = .ok twoPlaces := rfl
  apply node_batchesOnce made
  refine ⟨trivial, ?_, trivial, trivial, trivial, trivial⟩
  intro tx _ _
  exact ⟨List.not_mem_nil, List.not_mem_nil⟩

end Aggregator
end QLSA
