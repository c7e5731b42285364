import Mathlib.Data.List.Basic
import Mathlib.Tactic.Ring

namespace QLSA
namespace Machine

/-!
# Big-endian bytes

A value in a fixed number of bytes, the highest first.  The bytes determine the
value up to the width, so a concatenation of fields of known widths determines
all of them, and so does a list of records of one width.
-/

abbrev Byte := BitVec 8

/-- The lowest `count` bytes of a value, the highest of them first. -/
def bigEndian (count value : ℕ) : List Byte :=
  (List.range count).reverse.map fun i => BitVec.ofNat 8 (value >>> (8 * i))

/-- The value of big-endian bytes. -/
def ofBigEndian (bytes : List Byte) : ℕ :=
  bytes.foldl (fun value byte => value * 256 + byte.toNat) 0

@[simp] theorem bigEndian_length (count value : ℕ) : (bigEndian count value).length = count := by
  rw [bigEndian, List.length_map, List.length_reverse, List.length_range]

theorem bigEndian_succ (count value : ℕ) :
    bigEndian (count + 1) value =
      BitVec.ofNat 8 (value >>> (8 * count)) :: bigEndian count value := by
  rw [bigEndian, List.range_succ, List.reverse_append, List.reverse_singleton,
    List.singleton_append, List.map_cons, bigEndian]

theorem foldl_ofBigEndian (bytes : List Byte) (start : ℕ) :
    bytes.foldl (fun value byte => value * 256 + byte.toNat) start =
      start * 256 ^ bytes.length + ofBigEndian bytes := by
  induction bytes generalizing start with
  | nil => simp [ofBigEndian]
  | cons byte rest ih =>
      rw [ofBigEndian, List.foldl_cons, List.foldl_cons, ih, ih, List.length_cons, pow_succ]
      ring

theorem ofBigEndian_cons (byte : Byte) (rest : List Byte) :
    ofBigEndian (byte :: rest) = byte.toNat * 256 ^ rest.length + ofBigEndian rest := by
  rw [ofBigEndian, List.foldl_cons, foldl_ofBigEndian, Nat.zero_mul, Nat.zero_add]

theorem ofBigEndian_bigEndian (count value : ℕ) :
    ofBigEndian (bigEndian count value) = value % 256 ^ count := by
  induction count with
  | zero => rw [pow_zero, Nat.mod_one]; rfl
  | succ count ih =>
      have byte : 2 ^ 8 = 256 := rfl
      rw [bigEndian_succ, ofBigEndian_cons, ih, bigEndian_length, BitVec.toNat_ofNat,
        Nat.shiftRight_eq_div_pow, pow_mul, byte, Nat.mod_pow_succ, Nat.mul_comm, Nat.add_comm]

/-- A value that fits its width is read back. -/
theorem ofBigEndian_of_lt {count value : ℕ} (fits : value < 256 ^ count) :
    ofBigEndian (bigEndian count value) = value := by
  rw [ofBigEndian_bigEndian, Nat.mod_eq_of_lt fits]

theorem bigEndian_injective {count first second : ℕ} (fits : first < 256 ^ count)
    (fits' : second < 256 ^ count) (same : bigEndian count first = bigEndian count second) :
    first = second := by
  rw [← ofBigEndian_of_lt fits, same, ofBigEndian_of_lt fits']

/-! ## Values put together -/

/-- The bytes of a value put in front of another. -/
theorem bigEndian_or {count low : ℕ} (high width : ℕ) (fits : low < 256 ^ count) :
    bigEndian (width + count) (high <<< (8 * count) ||| low) =
      bigEndian width high ++ bigEndian count low := by
  have small : low < 2 ^ (8 * count) := by rwa [pow_mul]
  induction width with
  | zero =>
      have none : bigEndian 0 high = [] := rfl
      rw [Nat.zero_add, none, List.nil_append, bigEndian, bigEndian]
      refine List.map_congr_left fun i member => ?_
      have inside : i < count := List.mem_range.mp (List.mem_reverse.mp member)
      apply BitVec.eq_of_toNat_eq
      have split : 8 * count = 8 * (count - i) + 8 * i := by omega
      have zeros : high <<< (8 * (count - i)) % 2 ^ 8 = 0 := by
        have more : 8 * (count - i) = 8 * (count - i - 1) + 8 := by omega
        rw [Nat.shiftLeft_eq, more, pow_add, ← mul_assoc, Nat.mul_mod_left]
      rw [BitVec.toNat_ofNat, BitVec.toNat_ofNat, Nat.shiftRight_or_distrib, split,
        Nat.shiftLeft_add, Nat.shiftLeft_shiftRight, Nat.or_mod_two_pow, zeros, Nat.zero_or]
  | succ width ih =>
      have head : (high <<< (8 * count) ||| low) >>> (8 * (width + count)) =
          high >>> (8 * width) := by
        have total : 8 * (width + count) = 8 * count + 8 * width := by ring
        rw [total, Nat.shiftRight_add, Nat.shiftRight_or_distrib, Nat.shiftLeft_shiftRight,
          Nat.shiftRight_eq_zero low _ small, Nat.or_zero]
      rw [Nat.add_right_comm, bigEndian_succ, bigEndian_succ, ih, head, List.cons_append]

/-- Words of 32 bits put together, the first of them highest. -/
def packWords : List ℕ → ℕ
  | [] => 0
  | w :: rest => w <<< (32 * rest.length) ||| packWords rest

theorem packWords_lt {words : List ℕ} (small : ∀ w ∈ words, w < 2 ^ 32) :
    packWords words < 256 ^ (4 * words.length) := by
  have power (count : ℕ) : 256 ^ (4 * count) = 2 ^ (32 * count) := by
    have base : 256 = 2 ^ 8 := rfl
    rw [base, ← pow_mul, ← Nat.mul_assoc]
  rw [power]
  induction words with
  | nil => exact Nat.one_pos
  | cons w rest ih =>
      have own := small w List.mem_cons_self
      have later := ih fun other member => small other (List.mem_cons_of_mem _ member)
      refine Nat.or_lt_two_pow ?_ ?_
      · rw [Nat.shiftLeft_eq, List.length_cons, Nat.mul_succ, Nat.add_comm, pow_add]
        exact Nat.mul_lt_mul_of_pos_right own (Nat.two_pow_pos _)
      · refine lt_of_lt_of_le later (Nat.pow_le_pow_right (by decide) ?_)
        rw [List.length_cons]
        omega

theorem bigEndian_packWords {words : List ℕ} (small : ∀ w ∈ words, w < 2 ^ 32) :
    bigEndian (4 * words.length) (packWords words) = words.flatMap (bigEndian 4) := by
  induction words with
  | nil => rfl
  | cons w rest ih =>
      have later := fun other member => small other (List.mem_cons_of_mem w member)
      have width : 4 * (w :: rest).length = 4 + 4 * rest.length := by
        rw [List.length_cons, Nat.mul_succ, Nat.add_comm]
      have shift : 32 * rest.length = 8 * (4 * rest.length) := by rw [← Nat.mul_assoc]
      rw [width, packWords, shift, bigEndian_or w 4 (packWords_lt later), ih later,
        List.flatMap_cons]

/-! ## Fields and records -/

section Records

variable {α β : Type*} {record : α → List β} {width : ℕ}

theorem flatMap_length (sized : ∀ a, (record a).length = width) (list : List α) :
    (list.flatMap record).length = width * list.length := by
  rw [List.length_flatMap]
  simp [sized, Nat.mul_comm]

/-- As many records, all of one width, are read back one after the other. -/
theorem flatMap_eq_of_length {first second : List α} (count : first.length = second.length)
    (sized : ∀ a ∈ first, (record a).length = width)
    (sized' : ∀ b ∈ second, (record b).length = width)
    (apart : ∀ a ∈ first, ∀ b ∈ second, record a = record b → a = b)
    (same : first.flatMap record = second.flatMap record) : first = second := by
  induction first generalizing second with
  | nil => exact (List.length_eq_zero_iff.mp count.symm).symm
  | cons a rest ih =>
      cases second with
      | nil => contradiction
      | cons b later =>
          rw [List.forall_mem_cons] at sized sized'
          rw [List.flatMap_cons, List.flatMap_cons] at same
          rcases List.append_inj same (sized.1.trans sized'.1.symm) with ⟨head, tail⟩
          have heads := apart a List.mem_cons_self b List.mem_cons_self head
          have tails := ih (Nat.succ.inj count) sized.2 sized'.2 (fun c inside d within =>
            apart c (List.mem_cons_of_mem a inside) d (List.mem_cons_of_mem b within)) tail
          rw [heads, tails]

/-- Records of one positive width are read back one after the other. -/
theorem flatMap_injective (sized : ∀ a, (record a).length = width) (positive : 0 < width)
    {first second : List α}
    (apart : ∀ a ∈ first, ∀ b ∈ second, record a = record b → a = b)
    (same : first.flatMap record = second.flatMap record) : first = second := by
  have lengths := congrArg List.length same
  rw [flatMap_length sized, flatMap_length sized] at lengths
  exact flatMap_eq_of_length (Nat.eq_of_mul_eq_mul_left positive lengths) (fun a _ => sized a)
    (fun b _ => sized b) apart same

end Records

end Machine
end QLSA
