import QLSA.Merkle.Duplication
import Mathlib.Data.Nat.Basic

namespace QLSA
namespace Core

/-!
# Transactions and batches off-chain

A transaction names its sender by a hexadecimal address.  A batch is any list of
signed transactions within the size limits; its root is that of the SHA3 tree
over the transaction hashes.  `buildSenderNonces` maps a batch to the nonces
submitted on-chain, one for each sender.

The signature check and the two SHA3 functions come from libraries and are
parameters.
-/

abbrev Byte := BitVec 8

abbrev Bytes := List Byte

/-! ## Hexadecimal text -/

def hexDigit (c : Char) : Option ℕ :=
  if '0' ≤ c ∧ c ≤ '9' then some (c.toNat - '0'.toNat)
  else if 'a' ≤ c ∧ c ≤ 'f' then some (c.toNat - 'a'.toNat + 10)
  else if 'A' ≤ c ∧ c ≤ 'F' then some (c.toNat - 'A'.toNat + 10)
  else none

/-- ASCII whitespace, which `bytes.fromhex` skips between bytes. -/
def isAsciiSpace (c : Char) : Bool :=
  c = ' ' ∨ (9 ≤ c.toNat ∧ c.toNat ≤ 13)

/-- `bytes.fromhex`. -/
def fromHex : List Char → Option Bytes
  | [] => some []
  | c :: rest =>
      if isAsciiSpace c then fromHex rest
      else
        match rest with
        | [] => none
        | d :: later =>
            match hexDigit c, hexDigit d with
            | some high, some low => (fromHex later).map (BitVec.ofNat 8 (16 * high + low) :: ·)
            | _, _ => none

def isHex (s : List Char) : Bool := (fromHex s).isSome

/-- Bytes of a hexadecimal text; texts of transactions always have them. -/
def bytesOfHex (s : List Char) : Bytes := (fromHex s).getD []

/-! ## Transactions -/

def uint64Max : ℕ := 2 ^ 64 - 1

theorem one_le_uint64Max : 1 ≤ uint64Max := by decide

/-- Public key lengths of the three parameter sets. -/
def validPubkeySizes : List ℕ := [1312, 1952, 2592]

/-- A transaction that passed the checks of its constructor. -/
structure Transaction where
  sender : List Char
  recipient : List Char
  amount : ℕ
  nonce : ℕ
  publicKey : Bytes
  signature : Option Bytes
  amount_pos : 1 ≤ amount
  amount_le : amount ≤ uint64Max
  nonce_le : nonce ≤ uint64Max
  sender_hex : sender.length = 64 ∧ isHex sender
  recipient_hex : recipient.length = 64 ∧ isHex recipient
  publicKey_size : publicKey.length ∈ validPubkeySizes

/-- Big-endian bytes of a number. -/
def bigEndian (count value : ℕ) : Bytes :=
  (List.range count).reverse.map fun i => BitVec.ofNat 8 (value >>> (8 * i))

/-- The signable fields. -/
def Transaction.toBytes (tx : Transaction) : Bytes :=
  bytesOfHex tx.sender ++ bytesOfHex tx.recipient ++ bigEndian 8 tx.amount ++
    bigEndian 8 tx.nonce ++ bigEndian 4 tx.publicKey.length ++ tx.publicKey

/-- The library functions a batch depends on. -/
structure Crypto where
  /-- message, signature, public key, algorithm -/
  verify : Bytes → Bytes → Bytes → String → Bool
  sha3_256 : Bytes → Bytes
  sha3_512 : Bytes → Bytes

def Transaction.txHash (crypto : Crypto) (tx : Transaction) : Bytes :=
  crypto.sha3_256 tx.toBytes

/-! ## Batches -/

def maxBatchSize : ℕ := 3000

def minBatchSize : ℕ := 1

def supportedAlgorithms : List String := ["ML-DSA-44", "ML-DSA-65", "ML-DSA-87"]

inductive BatchError where
  | unsupportedAlgorithm (algorithm : String)
  | batchSize (message : String)
  | invalidSignature (message : String)
  deriving DecidableEq

structure Batch where
  transactions : List Transaction
  merkleRoot : Bytes

/-- `verify`, which refuses empty arguments before it asks the library. -/
def verifySignature (crypto : Crypto) (message signature publicKey : Bytes)
    (algorithm : String) : Bool :=
  if message = [] ∨ signature = [] ∨ publicKey = [] then false
  else crypto.verify message signature publicKey algorithm

/-- The loop over the signatures. -/
def checkSignatures (crypto : Crypto) (algorithm : String) :
    ℕ → List Transaction → Except BatchError Unit
  | _, [] => .ok ()
  | i, tx :: rest =>
      match tx.signature with
      | none => .error (.invalidSignature s!"Transaction at index {i} is unsigned")
      | some signature =>
          if verifySignature crypto tx.toBytes signature tx.publicKey algorithm then
            checkSignatures crypto algorithm (i + 1) rest
          else .error (.invalidSignature s!"Invalid signature for transaction at index {i}")

/-- Root of the SHA3 tree, whose odd levels repeat their last node. -/
def sha3MerkleRoot (crypto : Crypto) (leaves : List Bytes) : Bytes :=
  (Merkle.apex (fun left right => crypto.sha3_512 (1 :: left ++ right))
    (leaves.map fun data => crypto.sha3_512 (0 :: data))).getD []

def createBatch (crypto : Crypto) (transactions : List Transaction)
    (algorithm : String) : Except BatchError Batch :=
  if algorithm ∉ supportedAlgorithms then .error (.unsupportedAlgorithm algorithm)
  else if transactions.length < minBatchSize then
    .error (.batchSize s!"Batch must contain at least {minBatchSize} transaction(s)")
  else if maxBatchSize < transactions.length then
    .error (.batchSize s!"Batch exceeds maximum size of {maxBatchSize} transactions")
  else
    match checkSignatures crypto algorithm 0 transactions with
    | .error failure => .error failure
    | .ok () =>
        .ok ⟨transactions, sha3MerkleRoot crypto (transactions.map (Transaction.txHash crypto))⟩

/-! ## The nonces of a batch -/

/-- A dictionary in insertion order. -/
abbrev NonceDict := List (Bytes × ℕ)

def NonceDict.get (dict : NonceDict) (key : Bytes) (default : ℕ) : ℕ :=
  (dict.lookup key).getD default

/-- Assignment keeps the place of a key that is there already. -/
def NonceDict.set : NonceDict → Bytes → ℕ → NonceDict
  | [], key, value => [(key, value)]
  | entry :: rest, key, value =>
      if entry.1 = key then (key, value) :: rest else entry :: NonceDict.set rest key value

/-- One turn of the loop. -/
def recordNonce (dict : NonceDict) (tx : Transaction) : NonceDict :=
  let senderKey := bytesOfHex tx.sender
  let onchainNonce := tx.nonce + 1
  if dict.get senderKey 0 < onchainNonce then dict.set senderKey onchainNonce else dict

/-- Each sender's highest on-chain nonce. -/
def buildSenderNonces (txs : List Transaction) : NonceDict :=
  txs.foldl recordNonce []

theorem NonceDict.get_set (dict : NonceDict) (key other : Bytes) (value default : ℕ) :
    (dict.set key value).get other default =
      if other = key then value else dict.get other default := by
  induction dict with
  | nil =>
      by_cases own : other = key
      · simp [NonceDict.set, NonceDict.get, own]
      · have apart : (other == key) = false := by simpa using own
        simp [NonceDict.set, NonceDict.get, own, List.lookup_cons, apart]
  | cons entry rest ih =>
      rcases entry with ⟨first, held⟩
      unfold NonceDict.get at ih ⊢
      by_cases here : first = key
      · rw [NonceDict.set, if_pos here]
        by_cases own : other = key
        · subst own here
          simp
        · have apart : (other == key) = false := by simpa using own
          have passed : (other == first) = false := by rw [here]; exact apart
          simp only [List.lookup_cons, apart, passed]
          rw [if_neg own]
      · rw [NonceDict.set, if_neg here]
        by_cases met : other = first
        · subst met
          simp [here]
        · have passed : (other == first) = false := by simpa using met
          simp only [List.lookup_cons, passed]
          exact ih

/-- A transaction is recorded, and recording never lowers a nonce. -/
theorem recordNonce_get (dict : NonceDict) (tx : Transaction) (key : Bytes) :
    (recordNonce dict tx).get key 0 =
      if key = bytesOfHex tx.sender then max (dict.get key 0) (tx.nonce + 1)
      else dict.get key 0 := by
  unfold recordNonce
  dsimp only
  by_cases own : key = bytesOfHex tx.sender
  · subst own
    rw [if_pos rfl]
    split
    case isTrue rises =>
      rw [NonceDict.get_set, if_pos rfl]
      omega
    case isFalse low => omega
  · rw [if_neg own]
    split
    case isTrue rises => rw [NonceDict.get_set, if_neg own]
    case isFalse low => rfl

theorem le_foldl_recordNonce (txs : List Transaction) (dict : NonceDict) (key : Bytes) :
    dict.get key 0 ≤ (txs.foldl recordNonce dict).get key 0 := by
  induction txs generalizing dict with
  | nil => exact le_rfl
  | cons tx rest ih =>
      refine le_trans ?_ (ih (recordNonce dict tx))
      rw [recordNonce_get]
      split
      · exact Nat.le_max_left _ _
      · exact le_rfl

/-- Every transaction of a batch is at most the nonce submitted for its sender. -/
theorem nonce_lt_buildSenderNonces {txs : List Transaction} {tx : Transaction}
    (member : tx ∈ txs) :
    tx.nonce < (buildSenderNonces txs).get (bytesOfHex tx.sender) 0 := by
  have general : ∀ (txs : List Transaction) (dict : NonceDict), tx ∈ txs →
      tx.nonce + 1 ≤ (txs.foldl recordNonce dict).get (bytesOfHex tx.sender) 0 := by
    intro txs
    induction txs with
    | nil => exact fun _ member => absurd member List.not_mem_nil
    | cons first rest ih =>
        intro dict member
        rcases List.mem_cons.mp member with rfl | later
        · refine le_trans ?_ (le_foldl_recordNonce rest (recordNonce dict tx) _)
          rw [recordNonce_get, if_pos rfl]
          exact Nat.le_max_right _ _
        · exact ih (recordNonce dict first) later
  exact general txs [] member

/-- A nonce read from a dictionary is one of its entries. -/
theorem NonceDict.mem_of_get {dict : NonceDict} {key : Bytes} (positive : 0 < dict.get key 0) :
    (key, dict.get key 0) ∈ dict := by
  induction dict with
  | nil => exact absurd positive (Nat.lt_irrefl 0)
  | cons entry rest ih =>
      rcases entry with ⟨first, held⟩
      unfold NonceDict.get at ih positive ⊢
      by_cases own : key = first
      · subst own
        simp
      · have passed : (key == first) = false := by simpa using own
        simp only [List.lookup_cons, passed] at positive ⊢
        exact List.mem_cons_of_mem _ (ih positive)

end Core
end QLSA
