import QLSA.Machine.PackedBytes
import QLSA.Mldsa.Field
import Mathlib.Data.Nat.Bitwise

namespace QLSA
namespace Mldsa

open Machine

/-!
# Packed bits

Coefficients of a common width are written one after the other into a stream
of bits, the lowest bit first, and the stream into bytes.  Both directions are
read bit by bit: the bit at a position of the bytes is the bit of the stream.
-/

/-- One pass of the inner loop of `pack_bits`. -/
def orBit (out : List Byte) (pos : ℕ) (bit : Bool) : List Byte :=
  if bit then out.modify (pos / 8) (· ||| 1#8 <<< (pos % 8)) else out

/-- A pass with its running position. -/
def packBit (state : List Byte × ℕ) (bit : Bool) : List Byte × ℕ :=
  (orBit state.1 state.2 bit, state.2 + 1)

/-- A bit of an `i64`, the sign extended. -/
def valueBit (v : ℤ) (b : ℕ) : Bool := decide (v / 2 ^ b % 2 = 1)

def packBits (values : List ℤ) (bits : ℕ) : List Byte :=
  let out := List.replicate ((values.length * bits + 7) / 8) 0#8
  (values.foldl (fun state v =>
    (List.range bits).foldl (fun state b => packBit state (valueBit v b)) state) (out, 0)).1

/-- One pass of the inner loop of `unpack_bits`; the state is the value and the
position. -/
def readBit (bytes : List Byte) (state : ℕ × ℕ) (b : ℕ) : ℕ × ℕ :=
  (if state.2 / 8 < bytes.length ∧ (bytes.getD (state.2 / 8) 0 >>> (state.2 % 8)) &&& 1#8 = 1#8
    then state.1 ||| 1 <<< b else state.1, state.2 + 1)

/-- The values from a position on. -/
def unpackFrom (bytes : List Byte) (bits : ℕ) : ℕ → ℕ → List ℤ
  | 0, _ => []
  | count + 1, pos =>
      let state := (List.range bits).foldl (readBit bytes) (0, pos)
      state.1 :: unpackFrom bytes bits count state.2

def unpackBits (bytes : List Byte) (bits count : ℕ) : List ℤ := unpackFrom bytes bits count 0

def simpleBitPack (w : List ℤ) (bits : ℕ) : List Byte := packBits w bits

def simpleBitUnpack (v : List Byte) (bits : ℕ) : List ℤ := unpackBits v bits N

def bitPack (w : List ℤ) (upper : ℤ) (bits : ℕ) : List Byte := packBits (w.map (upper - ·)) bits

def bitUnpack (v : List Byte) (upper : ℤ) (bits : ℕ) : List ℤ :=
  (unpackBits v bits N).map (upper - ·)

/-! ## Bits at positions -/

/-- The bit of bytes at a position. -/
def byteBit (bytes : List Byte) (p : ℕ) : Bool := (bytes.getD (p / 8) 0).getLsbD (p % 8)

/-- The stream of the bits of values. -/
def streamOf (values : List ℤ) (bits : ℕ) : List Bool :=
  values.flatMap fun v => (List.range bits).map (valueBit v)

theorem orBit_length (out : List Byte) (pos : ℕ) (bit : Bool) :
    (orBit out pos bit).length = out.length := by
  cases bit with
  | false => rfl
  | true => exact List.length_modify ..

/-- A pass sets the bit at its position only. -/
theorem byteBit_orBit {out : List Byte} {pos : ℕ} (inside : pos < 8 * out.length) (bit : Bool)
    (p : ℕ) : byteBit (orBit out pos bit) p = (byteBit out p || (bit && decide (p = pos))) := by
  cases bit with
  | false => simp [orBit]
  | true =>
      have digits := Nat.div_add_mod p 8
      have place := Nat.div_add_mod pos 8
      have bounded : pos / 8 < out.length := by omega
      have small := Nat.mod_lt p (by decide : 0 < 8)
      rw [byteBit, byteBit, orBit, if_pos rfl, Bool.true_and, List.getD_eq_getElem?_getD,
        List.getElem?_modify, List.getD_eq_getElem?_getD]
      by_cases same : pos / 8 = p / 8
      · rw [List.getElem?_eq_getElem (same ▸ bounded), Option.map_eq_map, Option.map_some,
          Option.getD_some, Option.getD_some, if_pos same, BitVec.getLsbD_or]
        apply congrArg (BitVec.getLsbD out[p / 8] (p % 8) || ·)
        rw [BitVec.getLsbD_shiftLeft, BitVec.getLsbD_one]
        by_cases equal : p = pos
        · subst equal
          simp [small]
        · simp only [equal, decide_false]
          by_cases before : p % 8 < pos % 8
          · simp [before]
          · have apart : p % 8 - pos % 8 ≠ 0 := by omega
            simp [apart]
      · have apart : p ≠ pos := by
          rintro rfl
          exact same rfl
        simp [apart, same]

theorem foldl_packBit {stream : List Bool} {out : List Byte} {pos : ℕ}
    (inside : pos + stream.length ≤ 8 * out.length) :
    (stream.foldl packBit (out, pos)).1.length = out.length ∧
      ∀ p, byteBit (stream.foldl packBit (out, pos)).1 p =
        (byteBit out p || (decide (pos ≤ p) && stream.getD (p - pos) false)) := by
  induction stream generalizing out pos with
  | nil => simp
  | cons bit rest ih =>
      rw [List.length_cons] at inside
      have length := orBit_length out pos bit
      have step : packBit (out, pos) bit = (orBit out pos bit, pos + 1) := rfl
      rcases ih (by rw [length]; omega : pos + 1 + rest.length ≤ 8 * (orBit out pos bit).length) with
        ⟨lengths, bits⟩
      rw [List.foldl_cons, step]
      refine ⟨lengths.trans length, ?_⟩
      intro p
      rw [bits, byteBit_orBit (by omega), Bool.or_assoc]
      rcases Nat.lt_trichotomy p pos with before | same | after
      · have other : ¬ pos + 1 ≤ p := by omega
        have late : ¬ pos ≤ p := by omega
        simp [before.ne, other, late]
      · subst same
        simp
      · have next : p - pos = p - (pos + 1) + 1 := by omega
        have reached : pos + 1 ≤ p := after
        simp [after.ne', reached, after.le, next]

theorem streamOf_length (values : List ℤ) (bits : ℕ) :
    (streamOf values bits).length = values.length * bits := by
  rw [streamOf, List.length_flatMap]
  simp

theorem streamOf_getD {values : List ℤ} {bits : ℕ} {i b : ℕ} {v : ℤ} (found : values[i]? = some v)
    (small : b < bits) : (streamOf values bits).getD (i * bits + b) false = valueBit v b := by
  induction values generalizing i with
  | nil => simp at found
  | cons head rest ih =>
      have row : ((List.range bits).map (valueBit head)).length = bits := by simp
      rw [streamOf, List.flatMap_cons, List.getD_eq_getElem?_getD]
      cases i with
      | zero =>
          rw [List.getElem?_cons_zero, Option.some.injEq] at found
          rw [Nat.zero_mul, Nat.zero_add, List.getElem?_append_left (by omega), ← found]
          simp [small]
      | succ i =>
          rw [List.getElem?_cons_succ] at found
          have place : (i + 1) * bits + b = bits + (i * bits + b) := by ring
          rw [place, List.getElem?_append_right (by omega), row, Nat.add_sub_cancel_left,
            ← List.getD_eq_getElem?_getD]
          exact ih found

/-- Both loops of `pack_bits` are one loop over the stream. -/
theorem packBits_eq (values : List ℤ) (bits : ℕ) :
    packBits values bits = ((streamOf values bits).foldl packBit
      (List.replicate ((values.length * bits + 7) / 8) 0#8, 0)).1 := by
  rw [streamOf, List.foldl_flatMap]
  simp only [List.foldl_map]
  rfl

/-- The bytes hold the stream. -/
theorem packBits_spec (values : List ℤ) (bits : ℕ) :
    (packBits values bits).length = (values.length * bits + 7) / 8 ∧
      ∀ p, byteBit (packBits values bits) p = (streamOf values bits).getD p false := by
  have inside : 0 + (streamOf values bits).length ≤
      8 * (List.replicate ((values.length * bits + 7) / 8) 0#8).length := by
    rw [streamOf_length, List.length_replicate]
    omega
  rcases foldl_packBit inside with ⟨length, bitsAt⟩
  rw [packBits_eq]
  refine ⟨length.trans (List.length_replicate ..), ?_⟩
  intro p
  have empty : byteBit (List.replicate ((values.length * bits + 7) / 8) 0#8) p = false := by
    rw [byteBit, List.getD_eq_getElem?_getD, List.getElem?_replicate]
    by_cases within : p / 8 < (values.length * bits + 7) / 8
    · simp [within]
    · simp [within]
  rw [bitsAt, empty]
  simp

/-- The condition of `unpack_bits` on a bit. -/
theorem readBit_condition (bytes : List Byte) (pos : ℕ) :
    (pos / 8 < bytes.length ∧ (bytes.getD (pos / 8) 0 >>> (pos % 8)) &&& 1#8 = 1#8) ↔
      byteBit bytes pos = true := by
  have lowest (byte : Byte) (t : ℕ) : byte >>> t &&& 1#8 = 1#8 ↔ byte.getLsbD t = true := by
    rw [BitVec.and_one_eq_setWidth_ofBool_getLsbD, BitVec.getLsbD_ushiftRight, Nat.add_zero]
    cases byte.getLsbD t with
    | false => decide
    | true => decide
  rw [lowest, byteBit]
  constructor
  · exact And.right
  · intro bit
    refine ⟨?_, bit⟩
    by_contra beyond
    rw [List.getD_eq_default _ _ (by omega)] at bit
    simp at bit

/-- The inner loop of `unpack_bits` reads consecutive bits. -/
theorem readBits_spec (bytes : List Byte) (bits pos : ℕ) :
    ((List.range bits).foldl (readBit bytes) (0, pos)).2 = pos + bits ∧
      ∀ b, ((List.range bits).foldl (readBit bytes) (0, pos)).1.testBit b =
        (decide (b < bits) && byteBit bytes (pos + b)) := by
  induction bits with
  | zero => simp
  | succ bits ih =>
      rcases ih with ⟨position, value⟩
      rw [List.range_succ, List.foldl_append, List.foldl_cons, List.foldl_nil]
      generalize (List.range bits).foldl (readBit bytes) (0, pos) = state at *
      refine ⟨?_, ?_⟩
      · rw [readBit, position]
        rfl
      · intro b
        rw [readBit]
        simp only [readBit_condition, position]
        rcases Nat.lt_trichotomy b bits with before | same | after
        · have within : b < bits + 1 := by omega
          by_cases bit : byteBit bytes (pos + bits) = true
          · rw [if_pos bit, Nat.testBit_or, value, Nat.one_shiftLeft,
              Nat.testBit_two_pow_of_ne before.ne']
            simp [before, within]
          · rw [if_neg bit, value]
            simp [before, within]
        · subst same
          by_cases bit : byteBit bytes (pos + b) = true
          · rw [if_pos bit, Nat.testBit_or, value, Nat.one_shiftLeft, Nat.testBit_two_pow_self]
            simp [bit]
          · rw [if_neg bit, value]
            simp [bit]
        · have beyond : ¬ b < bits + 1 := by omega
          have late : ¬ b < bits := by omega
          by_cases bit : byteBit bytes (pos + bits) = true
          · rw [if_pos bit, Nat.testBit_or, value, Nat.one_shiftLeft,
              Nat.testBit_two_pow_of_ne after.ne]
            simp [beyond, late]
          · rw [if_neg bit, value]
            simp [beyond, late]

theorem unpackFrom_spec (bytes : List Byte) (bits count pos : ℕ) :
    (unpackFrom bytes bits count pos).length = count ∧
      ∀ i < count, ∃ value : ℕ, (unpackFrom bytes bits count pos)[i]? = some (value : ℤ) ∧
        ∀ b, value.testBit b = (decide (b < bits) && byteBit bytes (pos + i * bits + b)) := by
  induction count generalizing pos with
  | zero => simp [unpackFrom]
  | succ count ih =>
      rcases readBits_spec bytes bits pos with ⟨position, value⟩
      rw [unpackFrom, position]
      rcases ih (pos + bits) with ⟨length, entries⟩
      refine ⟨congrArg (· + 1) length, ?_⟩
      intro i inside
      cases i with
      | zero =>
          refine ⟨_, rfl, ?_⟩
          intro b
          rw [value, Nat.zero_mul, Nat.add_zero]
      | succ i =>
          rcases entries i (by omega) with ⟨entry, found, bitsAt⟩
          refine ⟨entry, found, ?_⟩
          intro b
          have place : pos + (i + 1) * bits + b = pos + bits + i * bits + b := by ring
          rw [bitsAt, place]

/-! ## Round trips -/

theorem valueBit_natCast (value b : ℕ) : valueBit value b = value.testBit b := by
  rw [valueBit, Nat.testBit_eq_decide_div_mod_eq]
  refine decide_eq_decide.mpr ?_
  norm_cast

/-- Values of the width are read back. -/
theorem unpackBits_packBits {values : List ℤ} {bits : ℕ}
    (range : ∀ v ∈ values, 0 ≤ v ∧ v < 2 ^ bits) :
    unpackBits (packBits values bits) bits values.length = values := by
  rcases unpackFrom_spec (packBits values bits) bits values.length 0 with ⟨length, entries⟩
  apply List.ext_getElem?
  intro i
  by_cases inside : i < values.length
  · rcases entries i inside with ⟨value, found, bitsAt⟩
    have entry := List.getElem?_eq_getElem inside
    rw [unpackBits, found, entry]
    refine congrArg some ?_
    rcases range _ (List.getElem_mem inside) with ⟨low, high⟩
    generalize values[i] = v at *
    lift v to ℕ using low
    have fits : v < 2 ^ bits := by exact_mod_cast high
    refine congrArg Nat.cast (Nat.eq_of_testBit_eq ?_)
    intro b
    rw [bitsAt, (packBits_spec values bits).2, Nat.zero_add]
    by_cases small : b < bits
    · rw [streamOf_getD entry small, valueBit_natCast]
      simp [small]
    · have wide : v < 2 ^ b := fits.trans_le (Nat.pow_le_pow_right (by decide) (by omega))
      rw [Nat.testBit_lt_two_pow wide]
      simp [small]
  · have beyond : values.length ≤ i := Nat.le_of_not_lt inside
    rw [unpackBits, List.getElem?_eq_none beyond, List.getElem?_eq_none (length.trans_le beyond)]

/-- Values that were read have the width. -/
theorem unpackBits_range {bytes : List Byte} {bits count : ℕ} :
    ∀ v ∈ unpackBits bytes bits count, 0 ≤ v ∧ v < 2 ^ bits := by
  intro v member
  rcases unpackFrom_spec bytes bits count 0 with ⟨length, entries⟩
  rcases List.getElem_of_mem member with ⟨i, inside, value⟩
  rw [unpackBits, length] at inside
  rcases entries i inside with ⟨entry, found, bitsAt⟩
  rw [← unpackBits, List.getElem?_eq_some_iff] at found
  rcases found with ⟨_, same⟩
  rw [← value, same]
  refine ⟨Int.natCast_nonneg entry, ?_⟩
  have fits : entry < 2 ^ bits := by
    apply Nat.lt_pow_two_of_testBit
    intro b late
    rw [bitsAt]
    simp [late]
  exact_mod_cast fits

theorem byte_eq_of_byteBit {first second : List Byte} (lengths : first.length = second.length)
    (same : ∀ p < 8 * first.length, byteBit first p = byteBit second p) : first = second := by
  apply List.ext_getElem lengths
  intro j inside inside'
  apply BitVec.eq_of_getLsbD_eq
  intro t small
  have bit := same (8 * j + t) (by omega)
  have byte : (8 * j + t) / 8 = j := by omega
  have offset : (8 * j + t) % 8 = t := by omega
  rw [byteBit, byteBit, byte, offset, List.getD_eq_getElem _ _ inside,
    List.getD_eq_getElem _ _ inside'] at bit
  exact bit

/-- Bytes that the values fill are written back. -/
theorem packBits_unpackBits {bytes : List Byte} {bits count : ℕ}
    (filled : 8 * bytes.length = count * bits) :
    packBits (unpackBits bytes bits count) bits = bytes := by
  rcases unpackFrom_spec bytes bits count 0 with ⟨length, entries⟩
  rcases packBits_spec (unpackBits bytes bits count) bits with ⟨packed, bitsAt⟩
  rw [unpackBits, length] at packed
  have lengths : (packBits (unpackBits bytes bits count) bits).length = bytes.length := by
    rw [unpackBits, packed]
    omega
  apply byte_eq_of_byteBit lengths
  intro p inside
  rw [lengths, filled] at inside
  have positive : 0 < bits := Nat.pos_of_ne_zero (by rintro rfl; simp at inside)
  have within : p / bits < count := Nat.div_lt_of_lt_mul (by rwa [Nat.mul_comm])
  have offset := Nat.mod_lt p positive
  have place : p / bits * bits + p % bits = p := Nat.div_add_mod' p bits
  rcases entries _ within with ⟨value, found, testBits⟩
  have entry := streamOf_getD found offset
  rw [place, valueBit_natCast, testBits, Nat.zero_add, place] at entry
  rw [bitsAt, unpackBits, entry]
  simp [offset]

end Mldsa
end QLSA
