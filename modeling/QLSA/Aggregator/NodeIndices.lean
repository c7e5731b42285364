import QLSA.Aggregator.Node
import QLSA.Machine.Window

namespace QLSA
namespace Aggregator

open QLSA.Core Machine

/-!
# The indices of the node

Besides its history the node keeps three indices of it: results by their ids,
ids by the hashes of transactions, and for each sender the hashes of a bounded
number of transactions.  A batch that leaves the history takes its entries out
of all three.  The entries of hashes and senders are named by their values,
which a later batch may share; they are the right ones as long as it does not.
-/

/-! ## Recording with all indices -/

/-- Number of hashes kept for a sender. -/
def maxSenderHistory : ℕ := 500

structure NodeStats where
  transactionsReceived : ℕ
  transactionsBatched : ℕ
  batchesCreated : ℕ
  proofsGenerated : ℕ

/-- A node with its statistics and all of its indices. -/
structure IndexedNode where
  node : Node
  stats : NodeStats
  batchIndex : BatchId → Option BatchResult
  senderTxs : List Char → Option (List (List Char))

/-- `is_proven`. -/
def BatchResult.isProven (result : BatchResult) : Bool :=
  result.proof.isSome && result.commitment.isSome

section Record

variable (crypto : Crypto)

/-- A transaction of an evicted batch leaves the queue of its sender, and an
empty queue the index. -/
def dropSent (index : List Char → Option (List (List Char))) (tx : Transaction) :
    List Char → Option (List (List Char)) :=
  match index tx.sender with
  | none => index
  | some queue =>
      let left := queue.erase (txHashHex crypto tx)
      Function.update index tx.sender (if left = [] then none else some left)

/-- A transaction enters the queue of its sender. -/
def addSent (index : List Char → Option (List (List Char))) (tx : Transaction) :
    List Char → Option (List (List Char)) :=
  let queue := (index tx.sender).getD []
  Function.update index tx.sender (some (push maxSenderHistory queue (txHashHex crypto tx)))

/-- The batch that a full history is about to lose. -/
def Node.evicted (node : Node) : Option (BatchId × BatchResult) :=
  if node.history.length = maxHistory then node.history.head? else none

/-- `_record`: the counters, the history with its evicted batch, the index of batches and the
lists of senders.  The index of transactions is part of the node and is updated with it. -/
def IndexedNode.record (state : IndexedNode) (batchId : BatchId) (result : BatchResult) :
    IndexedNode :=
  let txs := result.batch.transactions
  let evicted := state.node.evicted
  let batchIndex := match evicted with
    | none => state.batchIndex
    | some oldest => Function.update state.batchIndex oldest.1 none
  let senderTxs := match evicted with
    | none => state.senderTxs
    | some oldest => oldest.2.batch.transactions.foldl (dropSent crypto) state.senderTxs
  { node := state.node.record crypto batchId result
    stats :=
      { state.stats with
        batchesCreated := state.stats.batchesCreated + 1
        transactionsBatched := state.stats.transactionsBatched + txs.length
        proofsGenerated := state.stats.proofsGenerated + if result.isProven then 1 else 0 }
    batchIndex := Function.update batchIndex batchId (some result)
    senderTxs := txs.foldl (addSent crypto) senderTxs }

/-- The step of a run. -/
def IndexedNode.next (state : IndexedNode) (entry : BatchId × BatchResult) : IndexedNode :=
  state.record crypto entry.1 entry.2

/-- A node that has recorded nothing. -/
def IndexedNode.init (pool : Mempool) : IndexedNode :=
  ⟨⟨pool, [], fun _ => none⟩, ⟨0, 0, 0, 0⟩, fun _ => none, fun _ => none⟩

/-! ## Reading the indices -/

def IndexedNode.getBatch (state : IndexedNode) (batchId : BatchId) : Option BatchResult :=
  state.batchIndex batchId

def IndexedNode.getTransactionBatch (state : IndexedNode) (txHash : List Char) : Option BatchId :=
  state.node.txToBatch txHash

/-- Newest first; a negative limit leaves out as many of the oldest. -/
def IndexedNode.getSenderTransactions (state : IndexedNode) (sender : List Char) (limit : ℤ) :
    List (List Char) :=
  let queue := ((state.senderTxs sender).getD []).reverse
  if 0 ≤ limit then queue.take limit.toNat else queue.take (queue.length - limit.natAbs)

/-! ## What the indices should hold -/

/-- Hashes of the transactions of a sender in a list. -/
def sentAmong (sender : List Char) (txs : List Transaction) : List (List Char) :=
  (txs.filter fun tx => tx.sender = sender).map (txHashHex crypto)

/-- Hashes of the transactions of a sender in a history. -/
def sentBy (sender : List Char) (history : List (BatchId × BatchResult)) : List (List Char) :=
  history.flatMap fun entry => sentAmong crypto sender entry.2.batch.transactions

/-- An entry of the index of senders; there is none for an empty queue. -/
def queueEntry (queue : List (List Char)) : Option (List (List Char)) :=
  if queue = [] then none else some queue

/-- The indices are views of a history. -/
structure Views (history : List (BatchId × BatchResult)) (batchIndex : BatchId → Option BatchResult)
    (txToBatch : List Char → Option BatchId)
    (senderTxs : List Char → Option (List (List Char))) : Prop where
  batch : ∀ batchId result, batchIndex batchId = some result ↔ (batchId, result) ∈ history
  known : ∀ txHash, txToBatch txHash ≠ none ↔
    ∃ entry ∈ history, txHash ∈ batchHashes crypto entry.2
  located : ∀ txHash batchId, txToBatch txHash = some batchId →
    ∃ result, (batchId, result) ∈ history ∧ txHash ∈ batchHashes crypto result
  sent : ∀ sender,
    senderTxs sender = queueEntry (lastN maxSenderHistory (sentBy crypto sender history))

/-- The state of a node after recording a list of results: the history is the end of this list, as
long as it may be, and every index is a view of the history alone. -/
structure IndexedNode.Exact (state : IndexedNode) (results : List (BatchId × BatchResult)) :
    Prop where
  history : state.node.history = lastN maxHistory results
  views : Views crypto state.node.history state.batchIndex state.node.txToBatch state.senderTxs

/-- No other retained batch shares a transaction with the one that is evicted. -/
def IndexedNode.Apart (state : IndexedNode) (_entry : BatchId × BatchResult) : Prop :=
  ∀ oldest later, state.node.history = oldest :: later → state.node.history.length = maxHistory →
    ∀ txHash ∈ batchHashes crypto oldest.2, ∀ entry ∈ later, txHash ∉ batchHashes crypto entry.2

end Record

/-! ## One batch leaves, one is added -/

section Views

variable {crypto : Crypto} {history later : List (BatchId × BatchResult)}
  {oldest entry : BatchId × BatchResult} {batchIndex : BatchId → Option BatchResult}
  {txToBatch : List Char → Option BatchId} {senderTxs : List Char → Option (List (List Char))}

theorem sentAmong_cons (sender : List Char) (tx : Transaction) (txs : List Transaction) :
    sentAmong crypto sender (tx :: txs) = if tx.sender = sender then
      txHashHex crypto tx :: sentAmong crypto sender txs else sentAmong crypto sender txs := by
  unfold sentAmong
  rw [List.filter_cons]
  by_cases own : tx.sender = sender
  · simp [own]
  · simp [own]

theorem queueEntry_getD (queue : List (List Char)) : (queueEntry queue).getD [] = queue := by
  unfold queueEntry
  split
  case isTrue empty => exact empty.symm
  case isFalse => rfl

theorem foldl_dropSent (txs : List Transaction) {sender : List Char} {queue : List (List Char)}
    (held : senderTxs sender = queueEntry queue) :
    txs.foldl (dropSent crypto) senderTxs sender =
      queueEntry ((sentAmong crypto sender txs).foldl List.erase queue) := by
  induction txs generalizing senderTxs queue with
  | nil => exact held
  | cons tx rest ih =>
      rw [List.foldl_cons, sentAmong_cons]
      by_cases own : tx.sender = sender
      · rw [if_pos own, List.foldl_cons]
        apply ih
        unfold dropSent
        rw [own, held]
        by_cases empty : queue = []
        · rw [empty]
          exact held.trans (congrArg queueEntry empty)
        · rw [queueEntry, if_neg empty]
          exact Function.update_self _ _ _
      · rw [if_neg own]
        apply ih
        rw [← held]
        unfold dropSent
        cases senderTxs tx.sender with
        | none => rfl
        | some other => exact Function.update_of_ne (Ne.symm own) _ _

theorem foldl_addSent (txs : List Transaction) {sender : List Char} {queue : List (List Char)}
    (held : senderTxs sender = queueEntry queue) :
    txs.foldl (addSent crypto) senderTxs sender =
      queueEntry ((sentAmong crypto sender txs).foldl (push maxSenderHistory) queue) := by
  induction txs generalizing senderTxs queue with
  | nil => exact held
  | cons tx rest ih =>
      rw [List.foldl_cons, sentAmong_cons]
      by_cases own : tx.sender = sender
      · rw [if_pos own, List.foldl_cons]
        apply ih
        unfold addSent
        rw [own, held, queueEntry_getD, Function.update_self, queueEntry, if_neg]
        simp [push]
      · rw [if_neg own]
        apply ih
        rw [← held]
        exact Function.update_of_ne (Ne.symm own) _ _

theorem mem_batchHashes_of_sentAmong {result : BatchResult} {sender txHash : List Char}
    (member : txHash ∈ sentAmong crypto sender result.batch.transactions) :
    txHash ∈ batchHashes crypto result := by
  rcases List.mem_map.mp member with ⟨tx, own, rfl⟩
  exact List.mem_map.mpr ⟨tx, (List.mem_filter.mp own).1, rfl⟩

/-- The views lose the oldest batch. -/
theorem Views.evict (views : Views crypto (oldest :: later) batchIndex txToBatch senderTxs)
    (distinct : ∀ kept ∈ later, kept.1 ≠ oldest.1)
    (apart : ∀ txHash ∈ batchHashes crypto oldest.2,
      ∀ kept ∈ later, txHash ∉ batchHashes crypto kept.2) :
    Views crypto later (Function.update batchIndex oldest.1 none)
      (forget txToBatch (batchHashes crypto oldest.2))
      (oldest.2.batch.transactions.foldl (dropSent crypto) senderTxs) where
  batch := by
    intro batchId result
    by_cases own : batchId = oldest.1
    · rw [own, Function.update_self]
      constructor
      · nofun
      · intro member
        exact (distinct _ member rfl).elim
    · rw [Function.update_of_ne own, views.batch, List.mem_cons]
      constructor
      · rintro (same | member)
        · exact absurd (congrArg Prod.fst same) own
        · exact member
      · exact .inr
  known := by
    intro txHash
    rw [forget_apply]
    by_cases old : txHash ∈ batchHashes crypto oldest.2
    · rw [if_pos old]
      simp only [ne_eq, not_true_eq_false, false_iff]
      rintro ⟨kept, member, shared⟩
      exact apart txHash old kept member shared
    · rw [if_neg old, views.known]
      simp [old]
  located := by
    intro txHash batchId found
    rw [forget_apply] at found
    by_cases old : txHash ∈ batchHashes crypto oldest.2
    · rw [if_pos old] at found
      cases found
    · rw [if_neg old] at found
      rcases views.located txHash batchId found with ⟨result, member, own⟩
      rcases List.mem_cons.mp member with same | kept
      · rw [← same] at old
        exact absurd own old
      · exact ⟨result, kept, own⟩
  sent := by
    intro sender
    have split : sentBy crypto sender (oldest :: later) =
        sentAmong crypto sender oldest.2.batch.transactions ++ sentBy crypto sender later :=
      List.flatMap_cons
    rw [foldl_dropSent _ (views.sent sender), split, foldl_erase_lastN]
    intro txHash member shared
    rcases List.mem_flatMap.mp shared with ⟨kept, own, sentThen⟩
    exact apart txHash (mem_batchHashes_of_sentAmong member) kept own
      (mem_batchHashes_of_sentAmong sentThen)

/-- The views gain a batch with an id of its own. -/
theorem Views.add (views : Views crypto history batchIndex txToBatch senderTxs)
    (fresh : ∀ kept ∈ history, kept.1 ≠ entry.1) :
    Views crypto (history ++ [entry]) (Function.update batchIndex entry.1 (some entry.2))
      (remember txToBatch entry.1 (batchHashes crypto entry.2))
      (entry.2.batch.transactions.foldl (addSent crypto) senderTxs) where
  batch := by
    intro batchId result
    rw [List.mem_append, List.mem_singleton]
    by_cases own : batchId = entry.1
    · rw [own, Function.update_self]
      constructor
      · intro found
        exact .inr (Prod.ext rfl (Option.some.inj found).symm)
      · rintro (member | same)
        · exact (fresh _ member rfl).elim
        · rw [← same]
    · rw [Function.update_of_ne own, views.batch]
      constructor
      · exact .inl
      · rintro (member | same)
        · exact member
        · exact absurd (congrArg Prod.fst same) own
  known := by
    intro txHash
    rw [remember_apply]
    by_cases new : txHash ∈ batchHashes crypto entry.2
    · rw [if_pos new]
      simp only [ne_eq, reduceCtorEq, not_false_eq_true, true_iff]
      exact ⟨entry, List.mem_append_right _ (List.mem_singleton_self _), new⟩
    · rw [if_neg new, views.known]
      simp [new, or_and_right, exists_or]
  located := by
    intro txHash batchId found
    rw [remember_apply] at found
    by_cases new : txHash ∈ batchHashes crypto entry.2
    · rw [if_pos new] at found
      cases found
      exact ⟨entry.2, List.mem_append_right _ (List.mem_singleton_self _), new⟩
    · rw [if_neg new] at found
      rcases views.located txHash batchId found with ⟨result, member, own⟩
      exact ⟨result, List.mem_append_left _ member, own⟩
  sent := by
    intro sender
    have single : sentBy crypto sender [entry] =
        sentAmong crypto sender entry.2.batch.transactions := List.flatMap_singleton _ _
    rw [foldl_addSent _ (views.sent sender), foldl_push_lastN (by decide), sentBy, sentBy,
      List.flatMap_append]
    rw [← sentBy, ← sentBy, single]

end Views

/-! ## Runs -/

section Runs

variable {crypto : Crypto} {state : IndexedNode} {entry : BatchId × BatchResult}
  {results : List (BatchId × BatchResult)}

/-- Recording with all indices is recording, as far as the replay guard sees. -/
theorem next_node : (state.next crypto entry).node =
    state.node.record crypto entry.1 entry.2 := rfl

theorem evict_full {node : Node} {oldest : BatchId × BatchResult}
    {later : List (BatchId × BatchResult)} (listed : node.history = oldest :: later)
    (full : node.history.length = maxHistory) : node.evict crypto = { node with
      history := later
      txToBatch := forget node.txToBatch (batchHashes crypto oldest.2) } := by
  rw [Node.evict, listed]
  dsimp only
  rw [if_pos (listed ▸ full)]

theorem evict_room {node : Node} (room : node.history.length ≠ maxHistory) :
    node.evict crypto = node := by
  unfold Node.evict
  split
  · rfl
  · exact if_neg room

theorem exists_oldest {node : Node} (full : node.history.length = maxHistory) :
    ∃ oldest later, node.history = oldest :: later := by
  refine List.exists_cons_of_ne_nil fun empty => ?_
  rw [empty] at full
  exact absurd full (by decide)

/-- The history is a bounded queue. -/
theorem next_history : (state.next crypto entry).node.history =
    push maxHistory state.node.history entry := by
  rw [next_node, Node.record, push]
  by_cases full : state.node.history.length = maxHistory
  · rcases exists_oldest full with ⟨oldest, later, listed⟩
    rw [evict_full listed full, if_pos full, listed]
    rfl
  · rw [evict_room full, if_neg full]

theorem next_exact (exact : state.Exact crypto results) (apart : state.Apart crypto entry)
    (distinct : ((results ++ [entry]).map Prod.fst).Nodup) :
    (state.next crypto entry).Exact crypto (results ++ [entry]) := by
  rw [List.map_append, List.nodup_append] at distinct
  rcases distinct with ⟨ids, -, fresh⟩
  have kept : state.node.history <:+ results := exact.history ▸ lastN_suffix maxHistory results
  have own : ∀ other ∈ state.node.history, other.1 ≠ entry.1 := fun other member =>
    fresh _ (List.mem_map_of_mem (kept.subset member)) _ (by simp)
  have historyIds : (state.node.history.map Prod.fst).Nodup :=
    ids.sublist (kept.sublist.map Prod.fst)
  have views := exact.views
  refine ⟨?_, ?_⟩
  · rw [next_history, exact.history, push_lastN (by decide)]
  · rw [next_history, IndexedNode.next, IndexedNode.record, push, Node.record, Node.evicted]
    by_cases full : state.node.history.length = maxHistory
    · rcases exists_oldest full with ⟨oldest, later, listed⟩
      have shared := apart oldest later listed full
      rw [listed] at views own historyIds
      rw [List.map_cons, List.nodup_cons] at historyIds
      have others : ∀ other ∈ later, other.1 ≠ oldest.1 := fun other member same =>
        historyIds.1 (same ▸ List.mem_map_of_mem member)
      rw [evict_full listed full, if_pos full, if_pos full, listed]
      exact (views.evict others shared).add fun other member =>
        own other (List.mem_cons_of_mem _ member)
    · rw [evict_room full, if_neg full, if_neg full]
      exact views.add own

theorem exact_prefix {seen rest : List (BatchId × BatchResult)} (exact : state.Exact crypto seen)
    (distinct : ((seen ++ rest).map Prod.fst).Nodup)
    (apart : Along (IndexedNode.next crypto) (IndexedNode.Apart crypto) state rest)
    {part : List (BatchId × BatchResult)} (upTo : part <+: rest) :
    (part.foldl (IndexedNode.next crypto) state).Exact crypto (seen ++ part) := by
  induction rest generalizing state seen part with
  | nil =>
      rw [List.prefix_nil.mp upTo, List.append_nil]
      exact exact
  | cons first rest ih =>
      cases part with
      | nil =>
          rw [List.append_nil]
          exact exact
      | cons other part =>
          rcases List.cons_prefix_cons.mp upTo with ⟨rfl, later⟩
          rw [List.append_cons] at distinct ⊢
          have step : ((seen ++ [other]).map Prod.fst).Nodup :=
            distinct.sublist ((List.sublist_append_left _ _).map Prod.fst)
          exact ih (next_exact exact apart.1 step) distinct apart.2 later

theorem init_exact (crypto : Crypto) (pool : Mempool) :
    (IndexedNode.init pool).Exact crypto [] where
  history := (lastN_nil maxHistory).symm
  views := by
    refine ⟨by simp [IndexedNode.init], by simp [IndexedNode.init], by simp [IndexedNode.init], ?_⟩
    intro sender
    rw [IndexedNode.init, sentBy, List.flatMap_nil, lastN_nil]
    rfl

/-- The indices are views of the history after every result recorded, while no evicted batch
shares a transaction with a retained one.  Identifiers of batches do not repeat; a transaction may
occur more than once inside one batch, and in several batches as long as none of these is evicted
while another one is retained. -/
theorem indices_exact_along (crypto : Crypto) (pool : Mempool)
    {results : List (BatchId × BatchResult)} (distinct : (results.map Prod.fst).Nodup)
    (apart : Along (IndexedNode.next crypto) (IndexedNode.Apart crypto) (IndexedNode.init pool)
      results) {seen : List (BatchId × BatchResult)} (upTo : seen <+: results) :
    (seen.foldl (IndexedNode.next crypto) (IndexedNode.init pool)).Exact crypto seen :=
  exact_prefix (init_exact crypto pool) distinct apart upTo

/-- What the node answers from indices that are views of its history. -/
theorem IndexedNode.Exact.answers (exact : state.Exact crypto results) :
    (∀ batchId result, state.getBatch batchId = some result ↔
      (batchId, result) ∈ lastN maxHistory results) ∧
    (∀ txHash, state.getTransactionBatch txHash = none ↔
      ∀ entry ∈ lastN maxHistory results, txHash ∉ batchHashes crypto entry.2) ∧
    ∀ sender (limit : ℕ), state.getSenderTransactions sender limit =
      (lastN maxSenderHistory (sentBy crypto sender (lastN maxHistory results))).reverse.take
        limit := by
  have views := exact.views
  rw [exact.history] at views
  refine ⟨views.batch, fun txHash => ?_, fun sender limit => ?_⟩
  · have known := not_congr (views.known txHash)
    rw [not_ne_iff] at known
    rw [IndexedNode.getTransactionBatch, known]
    simp
  · rw [IndexedNode.getSenderTransactions, views.sent, queueEntry_getD]
    simp

/-- Nothing is evicted before the history is full. -/
theorem apart_of_short {state : IndexedNode} {rest : List (BatchId × BatchResult)}
    (short : state.node.history.length + rest.length ≤ maxHistory) :
    Along (IndexedNode.next crypto) (IndexedNode.Apart crypto) state rest := by
  induction rest generalizing state with
  | nil => trivial
  | cons first rest ih =>
      rw [List.length_cons] at short
      have room : state.node.history.length ≠ maxHistory := by omega
      refine ⟨fun oldest later _ full => absurd full room, ih ?_⟩
      rw [next_history, push, if_neg room, List.length_append, List.length_singleton]
      omega

/-- A shared transaction is forgotten with the evicted batch, unless the new batch
has it as well. -/
theorem shared_forgotten {oldest : BatchId × BatchResult} {later : List (BatchId × BatchResult)}
    (listed : state.node.history = oldest :: later)
    (full : state.node.history.length = maxHistory) {txHash : List Char}
    (old : txHash ∈ batchHashes crypto oldest.2) (new : txHash ∉ batchHashes crypto entry.2) :
    (state.next crypto entry).node.txToBatch txHash = none := by
  rw [next_node, Node.record, evict_full listed full]
  dsimp only
  rw [remember_apply, if_neg new, forget_apply, if_pos old]

/-- The views break where an evicted batch shares a transaction with a retained one. -/
theorem not_exact_of_shared {oldest kept : BatchId × BatchResult}
    {later : List (BatchId × BatchResult)} (listed : state.node.history = oldest :: later)
    (full : state.node.history.length = maxHistory) {txHash : List Char}
    (old : txHash ∈ batchHashes crypto oldest.2) (retained : kept ∈ later)
    (shared : txHash ∈ batchHashes crypto kept.2) (new : txHash ∉ batchHashes crypto entry.2) :
    ¬ (state.next crypto entry).Exact crypto results := by
  intro exact
  have known := (exact.views.known txHash).mpr ⟨kept, ?_, shared⟩
  · exact known (shared_forgotten listed full old new)
  · rw [next_history, push, if_pos full, listed]
    exact List.mem_append_left _ retained

end Runs

/-! ## A payment in two batches -/

/-- The payment with the next nonce. -/
def nextPayment : Transaction :=
  { payment with
    nonce := 1
    nonce_le := one_le_uint64Max }

/-- An unproven batch of one transaction. -/
def bareResult (tx : Transaction) : BatchResult :=
  ⟨⟨[tx], []⟩, none, none, [], none, none⟩

theorem batchHashes_bareResult (crypto : Crypto) (tx : Transaction) :
    batchHashes crypto (bareResult tx) = [txHashHex crypto tx] := rfl

def numbered (i : ℕ) : BatchId := String.ofList (List.replicate i 'x')

theorem numbered_injective : Function.Injective numbered := by
  intro first second same
  have texts := congrArg (fun text : String => text.toList.length) same
  simpa [numbered] using texts

/-- As many batches of one payment as are kept. -/
def repeatedBatches : List (BatchId × BatchResult) :=
  (List.range maxHistory).map fun i => (numbered i, bareResult payment)

/-- A batch of the other payment evicts the first of them. -/
def evictingBatches : List (BatchId × BatchResult) :=
  repeatedBatches ++ [(numbered maxHistory, bareResult nextPayment)]

theorem evictingBatches_distinct : (evictingBatches.map Prod.fst).Nodup := by
  have ids : evictingBatches.map Prod.fst = (List.range (maxHistory + 1)).map numbered := by
    rw [evictingBatches, repeatedBatches, List.range_succ, List.map_append, List.map_append,
      List.map_map]
    rfl
  rw [ids]
  exact List.nodup_range.map numbered_injective

theorem payments_differ :
    txHashHex acceptingCrypto payment ≠ txHashHex acceptingCrypto nextPayment := by
  decide +kernel

theorem evicted_payment_forgotten :
    ¬ ∀ (crypto : Crypto) (pool : Mempool) (results : List (BatchId × BatchResult)),
      (results.map Prod.fst).Nodup →
      (results.foldl (IndexedNode.next crypto) (IndexedNode.init pool)).Exact crypto results := by
  intro claimed
  have last := claimed acceptingCrypto onePayment evictingBatches evictingBatches_distinct
  have count : repeatedBatches.length = maxHistory := by
    rw [repeatedBatches, List.length_map, List.length_range]
  have exact : (repeatedBatches.foldl (IndexedNode.next acceptingCrypto)
      (IndexedNode.init onePayment)).Exact acceptingCrypto ([] ++ repeatedBatches) := by
    refine exact_prefix (init_exact acceptingCrypto onePayment) ?_ ?_ List.prefix_rfl
    · rw [List.nil_append]
      have part : repeatedBatches.Sublist evictingBatches := by
        rw [evictingBatches]
        exact List.sublist_append_left _ _
      exact evictingBatches_distinct.sublist (part.map Prod.fst)
    · have empty : (IndexedNode.init onePayment).node.history.length = 0 := rfl
      refine apart_of_short ?_
      rw [count, empty, Nat.zero_add]
  have kept := exact.history
  rw [List.nil_append, lastN_of_length_le count.le] at kept
  have first : repeatedBatches = (numbered 0, bareResult payment) ::
      (List.range 999).map fun i => (numbered (i + 1), bareResult payment) := by
    have size : maxHistory = 999 + 1 := rfl
    rw [repeatedBatches, size, List.range_succ_eq_map, List.map_cons, List.map_map]
    rfl
  have own : txHashHex acceptingCrypto payment ∈
      batchHashes acceptingCrypto (bareResult payment) := by
    rw [batchHashes_bareResult]
    exact List.mem_singleton_self _
  have other : txHashHex acceptingCrypto payment ∉
      batchHashes acceptingCrypto (bareResult nextPayment) := by
    rw [batchHashes_bareResult]
    exact fun member => payments_differ (List.mem_singleton.mp member)
  have second : (numbered (0 + 1), bareResult payment) ∈
      (List.range 999).map fun i => (numbered (i + 1), bareResult payment) :=
    List.mem_map.mpr ⟨0, List.mem_range.mpr (by decide), rfl⟩
  rw [evictingBatches, List.foldl_append, List.foldl_cons, List.foldl_nil] at last
  exact not_exact_of_shared (kept.trans first) (by rw [kept, count]) own second own other last

/-- One payment is batched first and the other in all later batches.  The last of
them evicts the first. -/
def renewedBatches : List (BatchId × BatchResult) :=
  (numbered 0, bareResult payment) ::
    (List.range maxHistory).map fun i => (numbered (i + 1), bareResult nextPayment)

/-- Those before the last one. -/
def retainedBatches : List (BatchId × BatchResult) :=
  (numbered 0, bareResult payment) ::
    (List.range 999).map fun i => (numbered (i + 1), bareResult nextPayment)

theorem renewedBatches_eq :
    renewedBatches = retainedBatches ++ [(numbered maxHistory, bareResult nextPayment)] := by
  have size : maxHistory = 999 + 1 := rfl
  rw [renewedBatches, retainedBatches, size, List.range_succ, List.map_append]
  rfl

theorem renewedBatches_distinct : (renewedBatches.map Prod.fst).Nodup := by
  have ids : renewedBatches.map Prod.fst = (List.range (maxHistory + 1)).map numbered := by
    rw [renewedBatches, List.range_succ_eq_map, List.map_cons, List.map_cons, List.map_map,
      List.map_map]
    rfl
  rw [ids]
  exact List.nodup_range.map numbered_injective

theorem renewedBatches_apart : Along (IndexedNode.next acceptingCrypto)
    (IndexedNode.Apart acceptingCrypto) (IndexedNode.init onePayment) renewedBatches := by
  have count : retainedBatches.length = maxHistory := by
    rw [retainedBatches, List.length_cons, List.length_map, List.length_range]
    rfl
  have early : Along (IndexedNode.next acceptingCrypto) (IndexedNode.Apart acceptingCrypto)
      (IndexedNode.init onePayment) retainedBatches := by
    have empty : (IndexedNode.init onePayment).node.history.length = 0 := rfl
    refine apart_of_short ?_
    rw [count, empty, Nat.zero_add]
  have distinct : (([] ++ retainedBatches).map Prod.fst).Nodup := by
    have part : retainedBatches.Sublist renewedBatches := by
      rw [renewedBatches_eq]
      exact List.sublist_append_left _ _
    exact renewedBatches_distinct.sublist (part.map Prod.fst)
  have exact := exact_prefix (init_exact acceptingCrypto onePayment) distinct early List.prefix_rfl
  have kept := exact.history
  rw [List.nil_append, lastN_of_length_le count.le] at kept
  rw [renewedBatches_eq, along_append_iff]
  refine ⟨early, ?_, trivial⟩
  intro oldest later listed _ txHash old entry member
  rw [kept, retainedBatches, List.cons.injEq] at listed
  rcases listed with ⟨rfl, rfl⟩
  rcases List.mem_map.mp member with ⟨i, -, rfl⟩
  rw [batchHashes_bareResult, List.mem_singleton] at old ⊢
  rw [old]
  exact payments_differ

/-- A batch is evicted, and shares no transaction with those that stay. -/
theorem indices_exact_along_renewed :
    (renewedBatches.foldl (IndexedNode.next acceptingCrypto) (IndexedNode.init onePayment)).Exact
      acceptingCrypto renewedBatches :=
  indices_exact_along acceptingCrypto onePayment renewedBatches_distinct renewedBatches_apart
    List.prefix_rfl

end Aggregator
end QLSA
