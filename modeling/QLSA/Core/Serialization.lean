import QLSA.Core.Batch
import QLSA.Machine.PackedBytes

namespace QLSA
namespace Core

/-!
# The signed serialization

A transaction is signed as the concatenation of its fields, of which only the
public key carries a length.  The two addresses have as many characters as they
should, but it is the parser that decides how many bytes they yield: it skips
white space between bytes.  Where an address contains some, the border between
sender and recipient can be moved, and the same bytes stand for several
transfers.  Where neither does, they stand for one.
-/

/-! ## The constructor -/

section Constructor

/-- The arguments of the constructor. -/
structure TransactionFields where
  sender : List Char
  recipient : List Char
  amount : ℤ
  nonce : ℤ
  publicKey : Bytes
  signature : Option Bytes

/-- `__post_init__`: the bounds of amount and nonce, two addresses of 64 characters that
`bytes.fromhex` reads, blanks among them, and a key of one of the three sizes that ML-DSA has.  The
first check that fails raises; the signature is not looked at. -/
def postInit (fields : TransactionFields) : Except String Unit :=
  if fields.amount < 1 then .error "amount must be positive (at least 1)"
  else if uint64Max < fields.amount then .error "amount must fit in uint64"
  else if fields.nonce < 0 then .error "nonce must be non-negative"
  else if uint64Max < fields.nonce then .error "nonce must fit in uint64"
  else if fields.sender.length ≠ 64 ∨ ¬ isHex fields.sender then
    .error "sender must be a 64-char hex address"
  else if fields.recipient.length ≠ 64 ∨ ¬ isHex fields.recipient then
    .error "recipient must be a 64-char hex address"
  else if fields.publicKey = [] then .error "public_key must not be empty"
  else if fields.publicKey.length ∉ validPubkeySizes then
    .error (s!"public_key length {fields.publicKey.length} is not a valid ML-DSA " ++
      s!"public key size (expected one of {validPubkeySizes} bytes)")
  else .ok ()

def Transaction.fields (tx : Transaction) : TransactionFields :=
  ⟨tx.sender, tx.recipient, tx.amount, tx.nonce, tx.publicKey, tx.signature⟩

/-- The constructor accepts the fields of transactions and no others. -/
theorem postInit_ok_iff (fields : TransactionFields) :
    postInit fields = .ok () ↔ ∃ tx : Transaction, tx.fields = fields := by
  constructor
  · intro accepted
    unfold postInit at accepted
    split at accepted
    case isTrue => cases accepted
    case isFalse positive =>
    split at accepted
    case isTrue => cases accepted
    case isFalse amount =>
    split at accepted
    case isTrue => cases accepted
    case isFalse natural =>
    split at accepted
    case isTrue => cases accepted
    case isFalse nonce =>
    split at accepted
    case isTrue => cases accepted
    case isFalse sender =>
    split at accepted
    case isTrue => cases accepted
    case isFalse recipient =>
    split at accepted
    case isTrue => cases accepted
    case isFalse =>
    split at accepted
    case isTrue => cases accepted
    case isFalse size =>
    simp only [not_or, not_not] at sender recipient size
    refine ⟨⟨fields.sender, fields.recipient, fields.amount.toNat, fields.nonce.toNat,
      fields.publicKey, fields.signature, by omega, by omega, by omega, sender, recipient, size⟩, ?_⟩
    simp only [Transaction.fields, Int.toNat_of_nonneg (by omega : 0 ≤ fields.amount),
      Int.toNat_of_nonneg (by omega : 0 ≤ fields.nonce)]
  · rintro ⟨tx, rfl⟩
    have amount := tx.amount_pos
    have fits := tx.amount_le
    have nonce := tx.nonce_le
    have keyed : tx.publicKey ≠ [] := by
      intro empty
      have size := tx.publicKey_size
      rw [empty] at size
      exact absurd size (by decide)
    unfold postInit Transaction.fields
    dsimp only
    rw [if_neg (by omega), if_neg (by omega), if_neg (by omega), if_neg (by omega),
      if_neg (by simp [tx.sender_hex]), if_neg (by simp [tx.recipient_hex]), if_neg keyed,
      if_neg (by simp [tx.publicKey_size])]

end Constructor

/-! ## Hexadecimal texts -/

section Texts

/-- A text without white space. -/
def Solid (s : List Char) : Prop := ∀ c ∈ s, isAsciiSpace c = false

/-- A text of white space alone. -/
def Blank (s : List Char) : Prop := ∀ c ∈ s, isAsciiSpace c = true

instance (s : List Char) : Decidable (Solid s) := inferInstanceAs (Decidable (∀ c ∈ s, _))

instance (s : List Char) : Decidable (Blank s) := inferInstanceAs (Decidable (∀ c ∈ s, _))

/-- The number of white space characters. -/
def spaces (s : List Char) : ℕ := s.countP isAsciiSpace

theorem solid_iff {s : List Char} : Solid s ↔ spaces s = 0 := by
  rw [spaces, List.countP_eq_zero]
  exact forall₂_congr fun c _ => Bool.not_eq_true _ ▸ Iff.rfl

theorem blank_iff {s : List Char} : Blank s ↔ spaces s = s.length := by
  rw [spaces, List.countP_eq_length]
  rfl

/-- No digit is white space. -/
theorem hexDigit_solid {c : Char} {digit : ℕ} (read : hexDigit c = some digit) :
    isAsciiSpace c = false := by
  have high : 48 ≤ c.toNat := by
    unfold hexDigit at read
    split at read
    case isTrue range => exact range.1
    case isFalse =>
      split at read
      case isTrue range => exact le_trans (by decide) (show 97 ≤ c.toNat from range.1)
      case isFalse =>
        split at read
        case isTrue range => exact le_trans (by decide) (show 65 ≤ c.toNat from range.1)
        case isFalse => cases read
  have other : c ≠ ' ' := by
    rintro rfl
    exact absurd high (by decide)
  unfold isAsciiSpace
  rw [decide_eq_false_iff_not]
  rintro (rfl | ⟨-, low⟩)
  · exact other rfl
  · omega

theorem fromHex_space {c : Char} (space : isAsciiSpace c = true) (rest : List Char) :
    fromHex (c :: rest) = fromHex rest := by
  rw [fromHex.eq_def]
  simp only [space, if_true]

theorem fromHex_digits {c d : Char} {high low : ℕ} (first : hexDigit c = some high)
    (second : hexDigit d = some low) (rest : List Char) :
    fromHex (c :: d :: rest) = (fromHex rest).map (BitVec.ofNat 8 (16 * high + low) :: ·) := by
  rw [fromHex.eq_def]
  simp only [hexDigit_solid first, Bool.false_eq_true, if_false, first, second]

theorem fromHex_no_digits {c d : Char} (solid : isAsciiSpace c = false)
    (missing : ∀ high low, hexDigit c = some high → hexDigit d = some low → False)
    (rest : List Char) : fromHex (c :: d :: rest) = none := by
  rw [fromHex.eq_def]
  simp only [solid, Bool.false_eq_true, if_false]

theorem fromHex_single {c : Char} (solid : isAsciiSpace c = false) : fromHex [c] = none := by
  rw [fromHex.eq_def]
  simp only [solid, Bool.false_eq_true, if_false]

/-- A text yields a byte for every two characters that are not white space. -/
theorem fromHex_length {s : List Char} {bytes : Bytes} (read : fromHex s = some bytes) :
    2 * bytes.length + spaces s = s.length := by
  induction s using fromHex.induct generalizing bytes with
  | case1 =>
      cases read
      rfl
  | case2 c rest space ih =>
      rw [fromHex_space space] at read
      have counted : spaces (c :: rest) = spaces rest + 1 := List.countP_cons_of_pos space
      rw [counted, List.length_cons, ← ih read]
      omega
  | case3 c solid =>
      rw [fromHex_single (Bool.eq_false_iff.mpr solid)] at read
      cases read
  | case4 c solid d later high low second first ih =>
      rw [fromHex_digits first second] at read
      rcases Option.map_eq_some_iff.mp read with ⟨rest, own, rfl⟩
      have counted : spaces (c :: d :: later) = spaces (d :: later) :=
        List.countP_cons_of_neg solid
      have then_ : spaces (d :: later) = spaces later :=
        List.countP_cons_of_neg (by rw [hexDigit_solid second]; decide)
      rw [counted, then_]
      simp only [List.length_cons]
      rw [← ih own]
      omega
  | case5 c solid d later missing =>
      rw [fromHex_no_digits (Bool.eq_false_iff.mpr solid) missing] at read
      cases read

/-- Bytes of an accepted text. -/
theorem isHex_length {s : List Char} (accepted : isHex s = true) :
    2 * (bytesOfHex s).length + spaces s = s.length := by
  rcases Option.isSome_iff_exists.mp accepted with ⟨bytes, read⟩
  rw [bytesOfHex, read]
  exact fromHex_length read

def hexChar (digit : ℕ) : Char := "0123456789abcdef".toList.getD digit '0'

/-- The text of bytes, filled up by white space. -/
def addressOf (width : ℕ) : Bytes → List Char
  | [] => List.replicate width ' '
  | byte :: rest =>
      hexChar (byte.toNat / 16) :: hexChar (byte.toNat % 16) :: addressOf (width - 2) rest

theorem hexDigit_hexChar {digit : ℕ} (small : digit < 16) :
    hexDigit (hexChar digit) = some digit := by
  have each : ∀ digit < 16, hexDigit (hexChar digit) = some digit := by decide
  exact each digit small

theorem fromHex_blank (width : ℕ) : fromHex (List.replicate width ' ') = some [] := by
  induction width with
  | zero => rfl
  | succ width ih => rw [List.replicate_succ, fromHex_space (by decide), ih]

theorem fromHex_addressOf (width : ℕ) (bytes : Bytes) :
    fromHex (addressOf width bytes) = some bytes := by
  induction bytes generalizing width with
  | nil => exact fromHex_blank width
  | cons byte rest ih =>
      have size := byte.isLt
      have whole : BitVec.ofNat 8 (16 * (byte.toNat / 16) + byte.toNat % 16) = byte := by
        rw [Nat.div_add_mod, BitVec.ofNat_toNat, BitVec.setWidth_eq]
      rw [addressOf, fromHex_digits (hexDigit_hexChar (by omega)) (hexDigit_hexChar (by omega)), ih,
        whole]
      rfl

theorem addressOf_length {width : ℕ} {bytes : Bytes} (fits : 2 * bytes.length ≤ width) :
    (addressOf width bytes).length = width := by
  induction bytes generalizing width with
  | nil => exact List.length_replicate
  | cons byte rest ih =>
      rw [List.length_cons] at fits
      rw [addressOf, List.length_cons, List.length_cons, ih (by omega)]
      omega

/-- An address is read back, whatever its length. -/
theorem addressOf_accepted {bytes : Bytes} (fits : bytes.length ≤ 32) :
    (addressOf 64 bytes).length = 64 ∧ isHex (addressOf 64 bytes) = true := by
  refine ⟨addressOf_length (by omega), ?_⟩
  rw [isHex, fromHex_addressOf]
  rfl

theorem bytesOfHex_addressOf (width : ℕ) (bytes : Bytes) :
    bytesOfHex (addressOf width bytes) = bytes := by
  rw [bytesOfHex, fromHex_addressOf]
  rfl

end Texts

/-! ## One serialization, one transfer -/

section Injectivity

/-- The fields that a signature speaks of. -/
structure SameTransfer (first second : Transaction) : Prop where
  sender : bytesOfHex first.sender = bytesOfHex second.sender
  recipient : bytesOfHex first.recipient = bytesOfHex second.recipient
  amount : first.amount = second.amount
  nonce : first.nonce = second.nonce
  publicKey : first.publicKey = second.publicKey

theorem sender_length (tx : Transaction) :
    2 * (bytesOfHex tx.sender).length + spaces tx.sender = 64 :=
  tx.sender_hex.1 ▸ isHex_length tx.sender_hex.2

theorem recipient_length (tx : Transaction) :
    2 * (bytesOfHex tx.recipient).length + spaces tx.recipient = 64 :=
  tx.recipient_hex.1 ▸ isHex_length tx.recipient_hex.2

/-- The serialization fixes all but the border between the addresses. -/
theorem toBytes_eq_iff (first second : Transaction) :
    first.toBytes = second.toBytes ↔
      bytesOfHex first.sender ++ bytesOfHex first.recipient =
        bytesOfHex second.sender ++ bytesOfHex second.recipient ∧
      first.amount = second.amount ∧ first.nonce = second.nonce ∧
        first.publicKey = second.publicKey := by
  constructor
  · intro same
    have total := congrArg List.length same
    have width (count value : ℕ) : (bigEndian count value).length = count :=
      Machine.bigEndian_length count value
    simp only [Transaction.toBytes, List.length_append, width] at total
    have sender := sender_length first
    have recipient := recipient_length first
    have otherSender := sender_length second
    have otherRecipient := recipient_length second
    have keys : first.publicKey.length = second.publicKey.length := by
      have own := first.publicKey_size
      have other := second.publicKey_size
      simp only [validPubkeySizes, List.mem_cons, List.not_mem_nil, or_false] at own other
      omega
    rcases List.append_inj' same keys with ⟨signed, publicKey⟩
    rcases List.append_inj' signed (by rw [width, width]) with ⟨signed, -⟩
    rcases List.append_inj' signed (by rw [width, width]) with ⟨signed, nonce⟩
    rcases List.append_inj' signed (by rw [width, width]) with ⟨addresses, amount⟩
    have fits {value : ℕ} (le : value ≤ uint64Max) : value < 256 ^ 8 :=
      lt_of_le_of_lt le (by decide)
    exact ⟨addresses,
      Machine.bigEndian_injective (fits first.amount_le) (fits second.amount_le) amount,
      Machine.bigEndian_injective (fits first.nonce_le) (fits second.nonce_le) nonce, publicKey⟩
  · rintro ⟨addresses, amount, nonce, publicKey⟩
    rw [Transaction.toBytes, Transaction.toBytes, addresses, amount, nonce, publicKey]

/-- The transfer with the border between its addresses moved. -/
def Transaction.moveBorder (tx : Transaction) (border : ℕ) (low : border ≤ 32)
    (high : (bytesOfHex tx.sender ++ bytesOfHex tx.recipient).length ≤ border + 32) :
    Transaction where
  sender := addressOf 64 ((bytesOfHex tx.sender ++ bytesOfHex tx.recipient).take border)
  recipient := addressOf 64 ((bytesOfHex tx.sender ++ bytesOfHex tx.recipient).drop border)
  amount := tx.amount
  nonce := tx.nonce
  publicKey := tx.publicKey
  signature := tx.signature
  amount_pos := tx.amount_pos
  amount_le := tx.amount_le
  nonce_le := tx.nonce_le
  sender_hex := addressOf_accepted (by rw [List.length_take]; omega)
  recipient_hex := addressOf_accepted (by rw [List.length_drop]; omega)
  publicKey_size := tx.publicKey_size

theorem moveBorder_toBytes (tx : Transaction) {border : ℕ} (low : border ≤ 32)
    (high : (bytesOfHex tx.sender ++ bytesOfHex tx.recipient).length ≤ border + 32) :
    tx.toBytes = (tx.moveBorder border low high).toBytes := by
  rw [toBytes_eq_iff]
  refine ⟨?_, rfl, rfl, rfl⟩
  rw [Transaction.moveBorder, bytesOfHex_addressOf, bytesOfHex_addressOf, List.take_append_drop]

/-- Without white space the border is where it should be. -/
theorem sameTransfer_of_solid {tx other : Transaction} (sender : spaces tx.sender = 0)
    (recipient : spaces tx.recipient = 0) (same : tx.toBytes = other.toBytes) :
    SameTransfer tx other := by
  rcases (toBytes_eq_iff tx other).mp same with ⟨addresses, amount, nonce, publicKey⟩
  have ownSender := sender_length tx
  have ownRecipient := recipient_length tx
  have otherSender := sender_length other
  have otherRecipient := recipient_length other
  have total := congrArg List.length addresses
  rw [List.length_append, List.length_append] at total
  rcases List.append_inj addresses (by omega) with ⟨first, second⟩
  exact ⟨first, second, amount, nonce, publicKey⟩

/-- Where there are no address bytes at all there is no border to move. -/
theorem sameTransfer_of_blank {tx other : Transaction} (sender : spaces tx.sender = 64)
    (recipient : spaces tx.recipient = 64) (same : tx.toBytes = other.toBytes) :
    SameTransfer tx other := by
  rcases (toBytes_eq_iff tx other).mp same with ⟨addresses, amount, nonce, publicKey⟩
  have ownSender := sender_length tx
  have ownRecipient := recipient_length tx
  have total := congrArg List.length addresses
  rw [List.length_append, List.length_append] at total
  rcases List.append_inj addresses (by omega) with ⟨first, second⟩
  exact ⟨first, second, amount, nonce, publicKey⟩

/-- Anywhere else there is another transfer of the same bytes. -/
theorem exists_other_transfer {tx : Transaction}
    (blank : spaces tx.sender ≠ 0 ∨ spaces tx.recipient ≠ 0)
    (filled : spaces tx.sender ≠ 64 ∨ spaces tx.recipient ≠ 64) :
    ∃ other : Transaction, tx.toBytes = other.toBytes ∧ ¬ SameTransfer tx other := by
  have sender := sender_length tx
  have recipient := recipient_length tx
  have total : (bytesOfHex tx.sender ++ bytesOfHex tx.recipient).length =
      (bytesOfHex tx.sender).length + (bytesOfHex tx.recipient).length := List.length_append
  have border : ∃ border ≤ 32,
      (bytesOfHex tx.sender ++ bytesOfHex tx.recipient).length ≤ border + 32 ∧
      border ≤ (bytesOfHex tx.sender ++ bytesOfHex tx.recipient).length ∧
      border ≠ (bytesOfHex tx.sender).length := by
    by_cases up : (bytesOfHex tx.sender).length < 32 ∧ 0 < (bytesOfHex tx.recipient).length
    · exact ⟨(bytesOfHex tx.sender).length + 1, by omega, by omega, by omega, by omega⟩
    · exact ⟨(bytesOfHex tx.sender).length - 1, by omega, by omega, by omega, by omega⟩
  rcases border with ⟨border, low, high, within, moved⟩
  refine ⟨tx.moveBorder border low high, moveBorder_toBytes tx low high, fun same => moved ?_⟩
  have lengths := congrArg List.length same.sender
  rw [Transaction.moveBorder, bytesOfHex_addressOf, List.length_take, min_eq_left within] at lengths
  exact lengths.symm

/-- The serialization of a transaction stands for no other transfer, and each of its addresses
yields 32 bytes, exactly when neither contains white space.  The first part alone also holds when
both consist of nothing else.  The constructor's checks let white space pass, because the parser
of hexadecimal strings skips it. -/
theorem serialization_injective_iff (tx : Transaction) :
    (((∀ other : Transaction, tx.toBytes = other.toBytes → SameTransfer tx other) ∧
        (bytesOfHex tx.sender).length = 32 ∧ (bytesOfHex tx.recipient).length = 32) ↔
      Solid tx.sender ∧ Solid tx.recipient) ∧
    ((∀ other : Transaction, tx.toBytes = other.toBytes → SameTransfer tx other) ↔
      (Solid tx.sender ∧ Solid tx.recipient) ∨ (Blank tx.sender ∧ Blank tx.recipient)) := by
  have sender := sender_length tx
  have recipient := recipient_length tx
  rw [solid_iff, solid_iff, blank_iff, blank_iff, tx.sender_hex.1, tx.recipient_hex.1]
  constructor
  · constructor
    · rintro ⟨-, first, second⟩
      omega
    · rintro ⟨first, second⟩
      exact ⟨fun other same => sameTransfer_of_solid first second same, by omega, by omega⟩
  · constructor
    · intro only
      by_contra neither
      rcases @exists_other_transfer tx (by omega) (by omega) with ⟨other, same, apart⟩
      exact apart (only other same)
    · rintro (⟨first, second⟩ | ⟨first, second⟩)
      · exact fun other same => sameTransfer_of_solid first second same
      · exact fun other same => sameTransfer_of_blank first second same

/-- A transfer of one unit whose sender ends in two blanks. -/
def blankTransfer : Transaction where
  sender := addressOf 64 (List.replicate 31 0)
  recipient := addressOf 64 (List.replicate 32 0)
  amount := 1
  nonce := 0
  publicKey := List.replicate 1312 0
  signature := none
  amount_pos := by decide
  amount_le := one_le_uint64Max
  nonce_le := Nat.zero_le uint64Max
  sender_hex := addressOf_accepted (by decide)
  recipient_hex := addressOf_accepted (by decide)
  publicKey_size := by
    rw [List.length_replicate]
    decide

theorem serialization_not_injective :
    ¬ ∀ first second : Transaction, first.toBytes = second.toBytes →
      SameTransfer first second := by
  intro claimed
  have sender : bytesOfHex blankTransfer.sender = List.replicate 31 0 := bytesOfHex_addressOf _ _
  have recipient : bytesOfHex blankTransfer.recipient = List.replicate 32 0 :=
    bytesOfHex_addressOf _ _
  have width : (bytesOfHex blankTransfer.sender ++ bytesOfHex blankTransfer.recipient).length =
      63 := by
    rw [sender, recipient]
    decide
  have same := claimed blankTransfer (blankTransfer.moveBorder 32 le_rfl (by omega))
    (moveBorder_toBytes blankTransfer le_rfl (by omega))
  have lengths := congrArg List.length same.sender
  rw [Transaction.moveBorder, bytesOfHex_addressOf, List.length_take, width, sender] at lengths
  exact absurd lengths (by decide)

end Injectivity

end Core
end QLSA
