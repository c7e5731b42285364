import QLSA.Contracts.Poseidon2MerkleT8
import QLSA.Hash.Blake2s

namespace QLSA
namespace Contracts
namespace Verifier

open Hash.Blake2s (Word Mix leWord leBytes feedForward_eq)
open Machine (Byte bigEndian packWords)

/-!
# The two Blake2s libraries

The libraries have the same loop over blocks and differ in the compression: one
mixes an array of 32-bit words through a function, the other keeps the words on
the stack of 256-bit words and masks where a result may have grown.  Both
unrolled their ten rounds into calls of the mixing function with constant
indices, which are listed here as they stand.
-/

/-! ## The shared part -/

namespace Blake2s

def IV0 : Word := 0x6A09E667
def IV1 : Word := 0xBB67AE85
def IV2 : Word := 0x3C6EF372
def IV3 : Word := 0xA54FF53A
def IV4 : Word := 0x510E527F
def IV5 : Word := 0x9B05688C
def IV6 : Word := 0x1F83D9AB
def IV7 : Word := 0x5BE0CD19

def PARAM_XOR : Word := 0x01010020

/-- A little-endian word at `p`, of the bytes before `stop`; these are bytes of
the data, since `stop` is at most its length. -/
def loadWord (data : List Byte) (p stop : ℕ) : Word :=
  let w : Word := if p < stop then (data.getD p 0).setWidth 32 else 0
  let w := if p + 1 < stop then w ||| (data.getD (p + 1) 0).setWidth 32 <<< 8 else w
  let w := if p + 2 < stop then w ||| (data.getD (p + 2) 0).setWidth 32 <<< 16 else w
  if p + 3 < stop then w ||| (data.getD (p + 3) 0).setWidth 32 <<< 24 else w

def block (data : List Byte) (off : ℕ) : Vector Word 16 :=
  Vector.ofFn fun i => loadWord data (off + i.val * 4) (off + 64)

def lastBlock (data : List Byte) (off blockLen : ℕ) : Vector Word 16 :=
  Vector.ofFn fun i => loadWord data (off + i.val * 4) (off + blockLen)

def rev32 (w : Word) : Word :=
  (w &&& 0x000000FF) <<< 24 ||| (w &&& 0x0000FF00) <<< 8 ||| (w &&& 0x00FF0000) >>> 8 ||| w >>> 24

section Hash

variable (compress : Vector Word 8 → Vector Word 16 → Word → Bool → Vector Word 8)

/-- The loop over the blocks before the last one: the state and the offset after
it. -/
def hashLoop (data : List Byte) (h : Vector Word 8) (offset : ℕ) : Vector Word 8 × ℕ :=
  if 64 < data.length - offset then
    hashLoop data (compress h (block data offset) (BitVec.ofNat 32 (offset + 64)) false)
      (offset + 64)
  else (h, offset)
termination_by data.length - offset

/-- The state after all blocks. -/
def hashState (data : List Byte) : Vector Word 8 :=
  let h := #v[IV0 ^^^ PARAM_XOR, IV1, IV2, IV3, IV4, IV5, IV6, IV7]
  let len := data.length
  if len = 0 then compress h (Vector.replicate 16 0) 0 true
  else
    let looped := hashLoop compress data h 0
    compress looped.1 (lastBlock data looped.2 (len - looped.2)) (BitVec.ofNat 32 len) true

/-- The word that is returned as `bytes32`. -/
def packed (h : Vector Word 8) : ℕ :=
  (rev32 (h.get 0)).toNat <<< 224 ||| (rev32 (h.get 1)).toNat <<< 192 |||
    (rev32 (h.get 2)).toNat <<< 160 ||| (rev32 (h.get 3)).toNat <<< 128 |||
    (rev32 (h.get 4)).toNat <<< 96 ||| (rev32 (h.get 5)).toNat <<< 64 |||
    (rev32 (h.get 6)).toNat <<< 32 ||| (rev32 (h.get 7)).toNat

/-- The bytes that `hash` returns. -/
def hashWith (data : List Byte) : List Byte := bigEndian 32 (packed (hashState compress data))

end Hash

/-! ## The library in Solidity -/

def rotr (w : Word) (n : ℕ) : Word := w >>> n ||| w <<< (32 - n)

def G (va vb vc vd x y : Word) : Word × Word × Word × Word :=
  let va := va + (vb + x)
  let vd := rotr (vd ^^^ va) 16
  let vc := vc + vd
  let vb := rotr (vb ^^^ vc) 12
  let va := va + (vb + y)
  let vd := rotr (vd ^^^ va) 8
  let vc := vc + vd
  let vb := rotr (vb ^^^ vc) 7
  (va, vb, vc, vd)

/-- The calls of the mixing function: four indices of `v` and two of `m`. -/
def calls : List Mix := [
  ⟨0, 4, 8, 12, 0, 1⟩, ⟨1, 5, 9, 13, 2, 3⟩, ⟨2, 6, 10, 14, 4, 5⟩, ⟨3, 7, 11, 15, 6, 7⟩,
  ⟨0, 5, 10, 15, 8, 9⟩, ⟨1, 6, 11, 12, 10, 11⟩, ⟨2, 7, 8, 13, 12, 13⟩, ⟨3, 4, 9, 14, 14, 15⟩,
  ⟨0, 4, 8, 12, 14, 10⟩, ⟨1, 5, 9, 13, 4, 8⟩, ⟨2, 6, 10, 14, 9, 15⟩, ⟨3, 7, 11, 15, 13, 6⟩,
  ⟨0, 5, 10, 15, 1, 12⟩, ⟨1, 6, 11, 12, 0, 2⟩, ⟨2, 7, 8, 13, 11, 7⟩, ⟨3, 4, 9, 14, 5, 3⟩,
  ⟨0, 4, 8, 12, 11, 8⟩, ⟨1, 5, 9, 13, 12, 0⟩, ⟨2, 6, 10, 14, 5, 2⟩, ⟨3, 7, 11, 15, 15, 13⟩,
  ⟨0, 5, 10, 15, 10, 14⟩, ⟨1, 6, 11, 12, 3, 6⟩, ⟨2, 7, 8, 13, 7, 1⟩, ⟨3, 4, 9, 14, 9, 4⟩,
  ⟨0, 4, 8, 12, 7, 9⟩, ⟨1, 5, 9, 13, 3, 1⟩, ⟨2, 6, 10, 14, 13, 12⟩, ⟨3, 7, 11, 15, 11, 14⟩,
  ⟨0, 5, 10, 15, 2, 6⟩, ⟨1, 6, 11, 12, 5, 10⟩, ⟨2, 7, 8, 13, 4, 0⟩, ⟨3, 4, 9, 14, 15, 8⟩,
  ⟨0, 4, 8, 12, 9, 0⟩, ⟨1, 5, 9, 13, 5, 7⟩, ⟨2, 6, 10, 14, 2, 4⟩, ⟨3, 7, 11, 15, 10, 15⟩,
  ⟨0, 5, 10, 15, 14, 1⟩, ⟨1, 6, 11, 12, 11, 12⟩, ⟨2, 7, 8, 13, 6, 8⟩, ⟨3, 4, 9, 14, 3, 13⟩,
  ⟨0, 4, 8, 12, 2, 12⟩, ⟨1, 5, 9, 13, 6, 10⟩, ⟨2, 6, 10, 14, 0, 11⟩, ⟨3, 7, 11, 15, 8, 3⟩,
  ⟨0, 5, 10, 15, 4, 13⟩, ⟨1, 6, 11, 12, 7, 5⟩, ⟨2, 7, 8, 13, 15, 14⟩, ⟨3, 4, 9, 14, 1, 9⟩,
  ⟨0, 4, 8, 12, 12, 5⟩, ⟨1, 5, 9, 13, 1, 15⟩, ⟨2, 6, 10, 14, 14, 13⟩, ⟨3, 7, 11, 15, 4, 10⟩,
  ⟨0, 5, 10, 15, 0, 7⟩, ⟨1, 6, 11, 12, 6, 3⟩, ⟨2, 7, 8, 13, 9, 2⟩, ⟨3, 4, 9, 14, 8, 11⟩,
  ⟨0, 4, 8, 12, 13, 11⟩, ⟨1, 5, 9, 13, 7, 14⟩, ⟨2, 6, 10, 14, 12, 1⟩, ⟨3, 7, 11, 15, 3, 9⟩,
  ⟨0, 5, 10, 15, 5, 0⟩, ⟨1, 6, 11, 12, 15, 4⟩, ⟨2, 7, 8, 13, 8, 6⟩, ⟨3, 4, 9, 14, 2, 10⟩,
  ⟨0, 4, 8, 12, 6, 15⟩, ⟨1, 5, 9, 13, 14, 9⟩, ⟨2, 6, 10, 14, 11, 3⟩, ⟨3, 7, 11, 15, 0, 8⟩,
  ⟨0, 5, 10, 15, 12, 2⟩, ⟨1, 6, 11, 12, 13, 7⟩, ⟨2, 7, 8, 13, 1, 4⟩, ⟨3, 4, 9, 14, 10, 5⟩,
  ⟨0, 4, 8, 12, 10, 2⟩, ⟨1, 5, 9, 13, 8, 4⟩, ⟨2, 6, 10, 14, 7, 6⟩, ⟨3, 7, 11, 15, 1, 5⟩,
  ⟨0, 5, 10, 15, 15, 11⟩, ⟨1, 6, 11, 12, 9, 14⟩, ⟨2, 7, 8, 13, 3, 12⟩, ⟨3, 4, 9, 14, 13, 0⟩]

/-- The array `v` before the first call. -/
def workingWords (h : Vector Word 8) (t0 : Word) (last : Bool) : Vector Word 16 :=
  #v[h.get 0, h.get 1, h.get 2, h.get 3, h.get 4, h.get 5, h.get 6, h.get 7,
    IV0, IV1, IV2, IV3, IV4 ^^^ t0, IV5, if last then IV6 ^^^ 0xFFFFFFFF else IV6, IV7]

/-- The state after the last call has been mixed in. -/
def writeBack (h : Vector Word 8) (v : Vector Word 16) : Vector Word 8 :=
  #v[h.get 0 ^^^ (v.get 0 ^^^ v.get 8), h.get 1 ^^^ (v.get 1 ^^^ v.get 9),
    h.get 2 ^^^ (v.get 2 ^^^ v.get 10), h.get 3 ^^^ (v.get 3 ^^^ v.get 11),
    h.get 4 ^^^ (v.get 4 ^^^ v.get 12), h.get 5 ^^^ (v.get 5 ^^^ v.get 13),
    h.get 6 ^^^ (v.get 6 ^^^ v.get 14), h.get 7 ^^^ (v.get 7 ^^^ v.get 15)]

def compress (h : Vector Word 8) (m : Vector Word 16) (t0 : Word) (last : Bool) : Vector Word 8 :=
  writeBack h (calls.foldl (Mix.run G m) (workingWords h t0 last))

def hash (data : List Byte) : List Byte := hashWith compress data

end Blake2s

/-! ## The library in assembly -/

namespace Blake2sYul

/-- `shl`, with the shift first. -/
def shl (shift value : ℕ) : ℕ := value <<< shift % uintModulus

/-- `shr`, with the shift first. -/
def shr (shift value : ℕ) : ℕ := value >>> shift

def G (a b c d x y : ℕ) : ℕ × ℕ × ℕ × ℕ :=
  let a := uncheckedAdd (uncheckedAdd a b) x &&& 0xFFFFFFFF
  let td := d ^^^ a
  let d := shr 16 td ||| (shl 16 td &&& 0xFFFFFFFF)
  let c := uncheckedAdd c d &&& 0xFFFFFFFF
  let tb := b ^^^ c
  let b := shr 12 tb ||| (shl 20 tb &&& 0xFFFFFFFF)
  let a := uncheckedAdd (uncheckedAdd a b) y &&& 0xFFFFFFFF
  let td := d ^^^ a
  let d := shr 8 td ||| (shl 24 td &&& 0xFFFFFFFF)
  let c := uncheckedAdd c d &&& 0xFFFFFFFF
  let tb := b ^^^ c
  let b := shr 7 tb ||| (shl 25 tb &&& 0xFFFFFFFF)
  (a, b, c, d)

/-- The calls of the mixing function, each of which assigns to the four variables
that it reads: numbers of these and of two message words. -/
def calls : List Mix := [
  ⟨0, 4, 8, 12, 0, 1⟩, ⟨1, 5, 9, 13, 2, 3⟩, ⟨2, 6, 10, 14, 4, 5⟩, ⟨3, 7, 11, 15, 6, 7⟩,
  ⟨0, 5, 10, 15, 8, 9⟩, ⟨1, 6, 11, 12, 10, 11⟩, ⟨2, 7, 8, 13, 12, 13⟩, ⟨3, 4, 9, 14, 14, 15⟩,
  ⟨0, 4, 8, 12, 14, 10⟩, ⟨1, 5, 9, 13, 4, 8⟩, ⟨2, 6, 10, 14, 9, 15⟩, ⟨3, 7, 11, 15, 13, 6⟩,
  ⟨0, 5, 10, 15, 1, 12⟩, ⟨1, 6, 11, 12, 0, 2⟩, ⟨2, 7, 8, 13, 11, 7⟩, ⟨3, 4, 9, 14, 5, 3⟩,
  ⟨0, 4, 8, 12, 11, 8⟩, ⟨1, 5, 9, 13, 12, 0⟩, ⟨2, 6, 10, 14, 5, 2⟩, ⟨3, 7, 11, 15, 15, 13⟩,
  ⟨0, 5, 10, 15, 10, 14⟩, ⟨1, 6, 11, 12, 3, 6⟩, ⟨2, 7, 8, 13, 7, 1⟩, ⟨3, 4, 9, 14, 9, 4⟩,
  ⟨0, 4, 8, 12, 7, 9⟩, ⟨1, 5, 9, 13, 3, 1⟩, ⟨2, 6, 10, 14, 13, 12⟩, ⟨3, 7, 11, 15, 11, 14⟩,
  ⟨0, 5, 10, 15, 2, 6⟩, ⟨1, 6, 11, 12, 5, 10⟩, ⟨2, 7, 8, 13, 4, 0⟩, ⟨3, 4, 9, 14, 15, 8⟩,
  ⟨0, 4, 8, 12, 9, 0⟩, ⟨1, 5, 9, 13, 5, 7⟩, ⟨2, 6, 10, 14, 2, 4⟩, ⟨3, 7, 11, 15, 10, 15⟩,
  ⟨0, 5, 10, 15, 14, 1⟩, ⟨1, 6, 11, 12, 11, 12⟩, ⟨2, 7, 8, 13, 6, 8⟩, ⟨3, 4, 9, 14, 3, 13⟩,
  ⟨0, 4, 8, 12, 2, 12⟩, ⟨1, 5, 9, 13, 6, 10⟩, ⟨2, 6, 10, 14, 0, 11⟩, ⟨3, 7, 11, 15, 8, 3⟩,
  ⟨0, 5, 10, 15, 4, 13⟩, ⟨1, 6, 11, 12, 7, 5⟩, ⟨2, 7, 8, 13, 15, 14⟩, ⟨3, 4, 9, 14, 1, 9⟩,
  ⟨0, 4, 8, 12, 12, 5⟩, ⟨1, 5, 9, 13, 1, 15⟩, ⟨2, 6, 10, 14, 14, 13⟩, ⟨3, 7, 11, 15, 4, 10⟩,
  ⟨0, 5, 10, 15, 0, 7⟩, ⟨1, 6, 11, 12, 6, 3⟩, ⟨2, 7, 8, 13, 9, 2⟩, ⟨3, 4, 9, 14, 8, 11⟩,
  ⟨0, 4, 8, 12, 13, 11⟩, ⟨1, 5, 9, 13, 7, 14⟩, ⟨2, 6, 10, 14, 12, 1⟩, ⟨3, 7, 11, 15, 3, 9⟩,
  ⟨0, 5, 10, 15, 5, 0⟩, ⟨1, 6, 11, 12, 15, 4⟩, ⟨2, 7, 8, 13, 8, 6⟩, ⟨3, 4, 9, 14, 2, 10⟩,
  ⟨0, 4, 8, 12, 6, 15⟩, ⟨1, 5, 9, 13, 14, 9⟩, ⟨2, 6, 10, 14, 11, 3⟩, ⟨3, 7, 11, 15, 0, 8⟩,
  ⟨0, 5, 10, 15, 12, 2⟩, ⟨1, 6, 11, 12, 13, 7⟩, ⟨2, 7, 8, 13, 1, 4⟩, ⟨3, 4, 9, 14, 10, 5⟩,
  ⟨0, 4, 8, 12, 10, 2⟩, ⟨1, 5, 9, 13, 8, 4⟩, ⟨2, 6, 10, 14, 7, 6⟩, ⟨3, 7, 11, 15, 1, 5⟩,
  ⟨0, 5, 10, 15, 15, 11⟩, ⟨1, 6, 11, 12, 9, 14⟩, ⟨2, 7, 8, 13, 3, 12⟩, ⟨3, 4, 9, 14, 13, 0⟩]

/-- A word loaded from its slot in memory. -/
def load (w : Word) : ℕ := w.toNat &&& 0xFFFFFFFF

/-- The variables `v0` to `v15` before the first call. -/
def workingWords (h : Vector Word 8) (t0 : Word) (last : Bool) : Vector ℕ 16 :=
  #v[load (h.get 0), load (h.get 1), load (h.get 2), load (h.get 3),
    load (h.get 4), load (h.get 5), load (h.get 6), load (h.get 7),
    0x6A09E667, 0xBB67AE85, 0x3C6EF372, 0xA54FF53A, 0x510E527F ^^^ t0.toNat, 0x9B05688C,
    if last then 0x1F83D9AB ^^^ 0xFFFFFFFF else 0x1F83D9AB, 0x5BE0CD19]

/-- A word stored to its slot in memory. -/
def store (value : ℕ) : Word := BitVec.ofNat 32 (value &&& 0xFFFFFFFF)

/-- The state after the last call has been mixed in. -/
def writeBack (h : Vector Word 8) (v : Vector ℕ 16) : Vector Word 8 :=
  #v[store (load (h.get 0) ^^^ v.get 0 ^^^ v.get 8),
    store (load (h.get 1) ^^^ v.get 1 ^^^ v.get 9),
    store (load (h.get 2) ^^^ v.get 2 ^^^ v.get 10),
    store (load (h.get 3) ^^^ v.get 3 ^^^ v.get 11),
    store (load (h.get 4) ^^^ v.get 4 ^^^ v.get 12),
    store (load (h.get 5) ^^^ v.get 5 ^^^ v.get 13),
    store (load (h.get 6) ^^^ v.get 6 ^^^ v.get 14),
    store (load (h.get 7) ^^^ v.get 7 ^^^ v.get 15)]

/-- The variables after some of the calls. -/
def mixed (h : Vector Word 8) (m : Vector Word 16) (t0 : Word) (last : Bool) (made : List Mix) :
    Vector ℕ 16 :=
  made.foldl (Mix.run G (m.map load)) (workingWords h t0 last)

def compress (h : Vector Word 8) (m : Vector Word 16) (t0 : Word) (last : Bool) : Vector Word 8 :=
  writeBack h (mixed h m t0 last calls)

def hash (data : List Byte) : List Byte := Blake2s.hashWith compress data

end Blake2sYul

/-! ## Bytes -/

namespace Blake2s

theorem shifted_toNat (b : Byte) {shift : ℕ} (small : shift ≤ 24) :
    (b.setWidth 32 <<< shift).toNat = b.toNat <<< shift := by
  have bound := b.isLt
  have room : b.toNat <<< shift < 2 ^ 32 := by
    rw [Nat.shiftLeft_eq]
    calc
      b.toNat * 2 ^ shift ≤ b.toNat * 2 ^ 24 :=
        Nat.mul_le_mul_left _ (Nat.pow_le_pow_right (by decide) small)
      _ < 2 ^ 32 := by omega
  have fits : b.toNat < 2 ^ 32 := by omega
  rw [BitVec.toNat_shiftLeft, BitVec.toNat_setWidth, Nat.mod_eq_of_lt fits, Nat.mod_eq_of_lt room]

theorem leWord_eq (b0 b1 b2 b3 : Byte) : leWord b0 b1 b2 b3 =
    b0.setWidth 32 ||| b1.setWidth 32 <<< 8 ||| b2.setWidth 32 <<< 16 |||
      b3.setWidth 32 <<< 24 := by
  have first := shifted_toNat b0 (Nat.zero_le _)
  rw [BitVec.shiftLeft_zero, Nat.shiftLeft_zero] at first
  have bytes : (leWord b0 b1 b2 b3).toNat =
      ((b3.toNat <<< 8 ||| b2.toNat) <<< 8 ||| b1.toNat) <<< 8 ||| b0.toNat := by
    change (((b3 ++ b2) ++ b1) ++ b0).toNat = _
    rw [BitVec.toNat_append, BitVec.toNat_append, BitVec.toNat_append]
  apply BitVec.eq_of_toNat_eq
  rw [bytes, BitVec.toNat_or, BitVec.toNat_or, BitVec.toNat_or, first,
    shifted_toNat b1 (by decide), shifted_toNat b2 (by decide), shifted_toNat b3 (by decide),
    Nat.shiftLeft_or_distrib, Nat.shiftLeft_or_distrib, Nat.shiftLeft_or_distrib,
    ← Nat.shiftLeft_add, ← Nat.shiftLeft_add, ← Nat.shiftLeft_add]
  generalize b1.toNat <<< 8 = low, b2.toNat <<< 16 = middle, b3.toNat <<< 24 = high
  ac_rfl

/-- A guarded byte that is zero where the guard fails. -/
theorem guarded_or (w byte : Word) (shift : ℕ) {guard : Prop} [Decidable guard]
    (zero : ¬ guard → byte = 0) :
    (if guard then w ||| byte <<< shift else w) = w ||| byte <<< shift := by
  split
  · rfl
  · next fails =>
    rw [zero fails]
    simp

/-- A word whose bytes are before the end, or zero beyond the data. -/
theorem loadWord_eq (data : List Byte) {p stop : ℕ}
    (read : ∀ j < 4, stop ≤ p + j → data.length ≤ p + j) :
    loadWord data p stop = leWord (data.getD p 0) (data.getD (p + 1) 0) (data.getD (p + 2) 0)
      (data.getD (p + 3) 0) := by
  have zero (j : ℕ) (small : j < 4) (late : ¬ p + j < stop) :
      (data.getD (p + j) 0).setWidth 32 = (0 : Word) := by
    rw [List.getD_eq_getElem?_getD, List.getElem?_eq_none (read j small (not_lt.mp late))]
    rfl
  have start : (if p < stop then (data.getD p 0).setWidth 32 else (0 : Word)) =
      (data.getD p 0).setWidth 32 := by
    split
    · rfl
    · next late => exact (zero 0 (by decide) late).symm
  unfold loadWord
  dsimp only
  rw [leWord_eq, start, guarded_or _ _ _ (zero 1 (by decide)),
    guarded_or _ _ _ (zero 2 (by decide)), guarded_or _ _ _ (zero 3 (by decide))]

theorem block_eq (data : List Byte) (k : ℕ) :
    block data (64 * k) = Hash.Blake2s.messageBlock data k := by
  unfold block Hash.Blake2s.messageBlock
  congr 1
  funext i
  have place : 64 * k + i.val * 4 = 64 * k + 4 * i.val := by rw [Nat.mul_comm 4]
  rw [place]
  refine loadWord_eq data fun j small late => ?_
  have inside := i.isLt
  omega

theorem lastBlock_eq (data : List Byte) (k : ℕ) (within : 64 * k ≤ data.length)
    (only : data.length ≤ 64 * (k + 1)) :
    lastBlock data (64 * k) (data.length - 64 * k) = Hash.Blake2s.messageBlock data k := by
  unfold lastBlock Hash.Blake2s.messageBlock
  congr 1
  funext i
  have place : 64 * k + i.val * 4 = 64 * k + 4 * i.val := by rw [Nat.mul_comm 4]
  rw [place]
  refine loadWord_eq data fun j small late => ?_
  omega

theorem bigEndian_rev32 (w : Word) : bigEndian 4 (rev32 w).toNat = leBytes w := by
  have byte (i : ℕ) (inside : i < 4) :
      (rev32 w).extractLsb' (8 * (3 - i)) 8 = w.extractLsb' (8 * i) 8 := by
    ext j small
    interval_cases i <;> interval_cases j <;> simp [rev32]
  have bytes : bigEndian 4 (rev32 w).toNat = [(rev32 w).extractLsb' (8 * (3 - 0)) 8,
    (rev32 w).extractLsb' (8 * (3 - 1)) 8, (rev32 w).extractLsb' (8 * (3 - 2)) 8,
    (rev32 w).extractLsb' (8 * (3 - 3)) 8] := rfl
  rw [bytes, byte 0 (by decide), byte 1 (by decide), byte 2 (by decide), byte 3 (by decide)]
  rfl

theorem packed_eq (h : Vector Word 8) :
    packed h = packWords (h.toList.map fun w => (rev32 w).toNat) := by
  have words : h.toList = [h.get 0, h.get 1, h.get 2, h.get 3, h.get 4, h.get 5, h.get 6,
      h.get 7] :=
    congrArg Vector.toList (Hash.Blake2s.eight_words h)
  rw [words, packed]
  simp only [List.map_cons, List.map_nil, packWords, List.length_cons, List.length_nil,
    Nat.zero_add, Nat.reduceAdd, Nat.reduceMul, Nat.mul_zero, Nat.shiftLeft_zero, Nat.or_zero,
    Nat.or_assoc]

theorem bigEndian_packed (h : Vector Word 8) :
    bigEndian 32 (packed h) = h.toList.flatMap leBytes := by
  have small : ∀ v ∈ h.toList.map fun w => (rev32 w).toNat, v < 2 ^ 32 := by
    intro v member
    rcases List.mem_map.mp member with ⟨word, -, rfl⟩
    exact (rev32 word).isLt
  have bytes := Machine.bigEndian_packWords small
  rw [List.length_map, Vector.length_toList, List.flatMap_map, funext bigEndian_rev32,
    ← packed_eq] at bytes
  exact bytes

end Blake2s

/-! ## The compression -/

namespace Blake2s

theorem calls_eq : calls = Hash.Blake2s.sigma.flatMap Hash.Blake2s.roundCalls := by
  rfl

theorem rotr_eq (w : Word) {n : ℕ} (small : n < 32) : rotr w n = w.rotateRight n := by
  rw [rotr, BitVec.rotateRight, Nat.mod_eq_of_lt small]
  rfl

theorem G_eq : G = Hash.Blake2s.G := by
  funext a b c d x y
  simp only [G, Hash.Blake2s.G, rotr_eq _ (by decide : 16 < 32), rotr_eq _ (by decide : 12 < 32),
    rotr_eq _ (by decide : 8 < 32), rotr_eq _ (by decide : 7 < 32), BitVec.add_assoc]

/-- A counter of 32 bits leaves the second counter word alone. -/
theorem workingWords_eq (h : Vector Word 8) (t0 : Word) (last : Bool) :
    workingWords h t0 last = Hash.Blake2s.workingWords h (t0.setWidth 64) last := by
  have low : (t0.setWidth 64).setWidth 32 = t0 := by simp
  have high : ((t0.setWidth 64) >>> 32).setWidth 32 = 0#32 := by
    apply BitVec.eq_of_toNat_eq
    simp
    omega
  have appended : (h ++ Hash.Blake2s.iv : Vector Word 16) =
      #v[h.get 0, h.get 1, h.get 2, h.get 3, h.get 4, h.get 5, h.get 6, h.get 7,
        IV0, IV1, IV2, IV3, IV4, IV5, IV6, IV7] := by
    conv_lhs => rw [Hash.Blake2s.eight_words h]
    rfl
  have flag : IV6 ^^^ 0xFFFFFFFF = ~~~ IV6 := by decide
  unfold workingWords Hash.Blake2s.workingWords
  simp only [low, high, appended, flag, BitVec.xor_zero]
  cases last
  · rfl
  · rfl

theorem rounds_eq (h : Vector Word 8) (m : Vector Word 16) (t0 : Word) (last : Bool) :
    calls.foldl (Mix.run G m) (workingWords h t0 last) =
      Hash.Blake2s.rounds m (Hash.Blake2s.workingWords h (t0.setWidth 64) last) := by
  rw [workingWords_eq, Hash.Blake2s.rounds_eq, calls_eq, G_eq]

theorem writeBack_eq (h : Vector Word 8) (v : Vector Word 16) :
    writeBack h v = Hash.Blake2s.feedForward h v := by
  rw [feedForward_eq, writeBack]
  simp only [BitVec.xor_assoc]

theorem compress_eq (h : Vector Word 8) (m : Vector Word 16) (t0 : Word) (last : Bool) :
    compress h m t0 last = Hash.Blake2s.compress h m (t0.setWidth 64) last := by
  rw [compress, rounds_eq, writeBack_eq, Hash.Blake2s.compress]

end Blake2s

namespace Blake2sYul

theorem calls_eq : calls = Hash.Blake2s.sigma.flatMap Hash.Blake2s.roundCalls := by
  rfl

theorem masked (value : ℕ) : value &&& 0xFFFFFFFF = value % 2 ^ 32 :=
  Nat.and_two_pow_sub_one_eq_mod value 32

theorem add_word (a b : Word) : uncheckedAdd a.toNat b.toNat &&& 0xFFFFFFFF = (a + b).toNat := by
  rw [masked, uncheckedAdd, uintModulus, BitVec.toNat_add]
  omega

theorem add_words (a b x : Word) :
    uncheckedAdd (uncheckedAdd a.toNat b.toNat) x.toNat &&& 0xFFFFFFFF = (a + b + x).toNat := by
  rw [masked, uncheckedAdd, uncheckedAdd, uintModulus, BitVec.toNat_add, BitVec.toNat_add]
  omega

theorem rotate (w : Word) {n : ℕ} (small : n < 32) :
    shr n w.toNat ||| (shl (32 - n) w.toNat &&& 0xFFFFFFFF) = (w.rotateRight n).toNat := by
  have divides : 2 ^ 32 ∣ uintModulus := by decide
  rw [masked, shr, shl, Nat.mod_mod_of_dvd _ divides, BitVec.toNat_rotateRight,
    Nat.mod_eq_of_lt small]

theorem G_eq (a b c d x y : Word) :
    G a.toNat b.toNat c.toNat d.toNat x.toNat y.toNat =
      Hash.Blake2s.mapQuad BitVec.toNat (Hash.Blake2s.G a b c d x y) := by
  have rotate16 := fun w : Word => rotate w (by decide : 16 < 32)
  have rotate12 := fun w : Word => rotate w (by decide : 12 < 32)
  have rotate8 := fun w : Word => rotate w (by decide : 8 < 32)
  have rotate7 := fun w : Word => rotate w (by decide : 7 < 32)
  simp only [Nat.reduceSub] at rotate16 rotate12 rotate8 rotate7
  simp only [G, Hash.Blake2s.G, Hash.Blake2s.mapQuad, add_words, add_word, ← BitVec.toNat_xor,
    rotate16, rotate12, rotate8, rotate7]

theorem load_eq (w : Word) : load w = w.toNat := by
  rw [load, masked, Nat.mod_eq_of_lt w.isLt]

theorem store_toNat (w : Word) : store w.toNat = w := by
  rw [store, masked, Nat.mod_eq_of_lt w.isLt, BitVec.ofNat_toNat, BitVec.setWidth_eq]

theorem workingWords_eq (h : Vector Word 8) (t0 : Word) (last : Bool) :
    workingWords h t0 last = (Blake2s.workingWords h t0 last).map BitVec.toNat := by
  unfold workingWords Blake2s.workingWords
  simp only [load_eq]
  cases last
  · simp [Blake2s.IV0, Blake2s.IV1, Blake2s.IV2, Blake2s.IV3, Blake2s.IV4, Blake2s.IV5, Blake2s.IV6,
      Blake2s.IV7]
  · simp [Blake2s.IV0, Blake2s.IV1, Blake2s.IV2, Blake2s.IV3, Blake2s.IV4, Blake2s.IV5, Blake2s.IV6,
      Blake2s.IV7]

/-- Whatever part of the calls is made, the words on the stack are those of the
hash. -/
theorem mixed_eq (h : Vector Word 8) (m : Vector Word 16) (t0 : Word) (last : Bool)
    (made : List Mix) :
    mixed h m t0 last made =
      (made.foldl (Mix.run Hash.Blake2s.G m)
        (Hash.Blake2s.workingWords h (t0.setWidth 64) last)).map BitVec.toNat := by
  have loads : m.map load = m.map BitVec.toNat := by
    rw [funext load_eq]
  rw [mixed, loads, workingWords_eq, Blake2s.workingWords_eq]
  exact Hash.Blake2s.foldl_run_map G_eq m _ made

theorem writeBack_eq (h : Vector Word 8) (v : Vector Word 16) :
    writeBack h (v.map BitVec.toNat) = Hash.Blake2s.feedForward h v := by
  have mapped (i : Fin 16) : (v.map BitVec.toNat).get i = (v.get i).toNat :=
    Vector.getElem_map BitVec.toNat i.isLt
  rw [feedForward_eq, writeBack]
  simp only [load_eq, mapped, ← BitVec.toNat_xor, store_toNat]

theorem compress_eq (h : Vector Word 8) (m : Vector Word 16) (t0 : Word) (last : Bool) :
    compress h m t0 last = Hash.Blake2s.compress h m (t0.setWidth 64) last := by
  rw [compress, mixed_eq, writeBack_eq, calls_eq,
    ← Hash.Blake2s.rounds_eq, Hash.Blake2s.compress]

end Blake2sYul

/-! ## The blocks -/

namespace Blake2s

theorem ofNat_setWidth {n : ℕ} (small : n < 2 ^ 32) :
    (BitVec.ofNat 32 n).setWidth 64 = BitVec.ofNat 64 n := by
  apply BitVec.eq_of_toNat_eq
  rw [BitVec.toNat_setWidth, BitVec.toNat_ofNat, BitVec.toNat_ofNat, Nat.mod_eq_of_lt small]

theorem initial_eq : (#v[IV0 ^^^ PARAM_XOR, IV1, IV2, IV3, IV4, IV5, IV6, IV7] : Vector Word 8) =
    Hash.Blake2s.initial := rfl

section Hash

variable {compress : Vector Word 8 → Vector Word 16 → Word → Bool → Vector Word 8}
  (compresses : ∀ h m t0 last, compress h m t0 last =
    Hash.Blake2s.compress h m (t0.setWidth 64) last)
include compresses

theorem hashLoop_eq (data : List Byte) (short : data.length < 2 ^ 32) {last : ℕ}
    (within : 64 * last < data.length) (only : data.length ≤ 64 * (last + 1)) (left : ℕ) {k : ℕ}
    (rest : k + left = last) :
    hashLoop compress data (Hash.Blake2s.chaining data k) (64 * k) =
      (Hash.Blake2s.chaining data last, 64 * last) := by
  induction left generalizing k with
  | zero =>
      have here : k = last := rest
      rw [hashLoop, if_neg (by omega), here]
  | succ left ih =>
      have next : 64 * k + 64 = 64 * (k + 1) := rfl
      have small : 64 * (k + 1) < 2 ^ 32 := by omega
      rw [hashLoop, if_pos (by omega), compresses, block_eq, next, ofNat_setWidth small,
        ← Hash.Blake2s.chaining_succ]
      exact ih (by omega)

theorem hashState_eq (data : List Byte) (short : data.length < 2 ^ 32) :
    hashState compress data = Hash.Blake2s.compress
      (Hash.Blake2s.chaining data (Hash.Blake2s.blockCount data.length - 1))
      (Hash.Blake2s.messageBlock data (Hash.Blake2s.blockCount data.length - 1))
      (BitVec.ofNat 64 data.length) true := by
  unfold hashState
  rw [initial_eq]
  by_cases empty : data.length = 0
  · have nothing : data = [] := List.length_eq_zero_iff.mp empty
    simp only [if_pos empty]
    rw [compresses, nothing]
    rfl
  · have count : ∃ last, Hash.Blake2s.blockCount data.length = last + 1 ∧ 64 * last < data.length ∧
        data.length ≤ 64 * (last + 1) := by
      refine ⟨(data.length - 1) / 64, ?_, ?_, ?_⟩
      · rw [Hash.Blake2s.blockCount]
        omega
      · omega
      · omega
    rcases count with ⟨last, count, within, only⟩
    have looped := hashLoop_eq compresses data short within only last (Nat.zero_add last)
    have start : Hash.Blake2s.chaining data 0 = Hash.Blake2s.initial := rfl
    rw [start, Nat.mul_zero] at looped
    simp only [if_neg empty]
    rw [looped, count, Nat.add_sub_cancel, compresses, lastBlock_eq data last within.le only,
      ofNat_setWidth short]
theorem hashWith_eq {data : List Byte} (short : data.length < 2 ^ 32) :
    hashWith compress data = Hash.Blake2s.digest data := by
  rw [hashWith, hashState_eq compresses data short, bigEndian_packed, Hash.Blake2s.digest]

end Hash

end Blake2s

/-! ## The libraries -/

/-- Both libraries return the digest, and the words on the stack fit in 32 bits after every call.
The data may have any length that its counter can hold; the definition of the digest is that of
the standard for an unkeyed hash of 32 bytes, with its own message schedule and padding. -/
theorem blake2s_libraries_exact {data : List Byte} (short : data.length < 2 ^ 32) :
    Blake2s.hash data = Hash.Blake2s.digest data ∧
    Blake2sYul.hash data = Hash.Blake2s.digest data ∧
    (Hash.Blake2s.digest data).length = 32 ∧
    ∀ h m t0 last made, made <+: Blake2sYul.calls →
      ∀ v ∈ (Blake2sYul.mixed h m t0 last made).toList, v < 2 ^ 32 := by
  refine ⟨Blake2s.hashWith_eq Blake2s.compress_eq short,
    Blake2s.hashWith_eq Blake2sYul.compress_eq short, Hash.Blake2s.digest_length data, ?_⟩
  intro h m t0 last made _ v member
  rw [Blake2sYul.mixed_eq, Vector.toList_map] at member
  rcases List.mem_map.mp member with ⟨word, -, rfl⟩
  exact word.isLt

/-- A hundred bytes, so that a full block comes before the last one. -/
def twoBlocks : List Byte := (List.range 100).map (BitVec.ofNat 8)

def twoBlocksDigest : List Byte :=
  [129, 220, 195, 165, 5, 234, 206, 63, 135, 157, 143, 112, 39, 118, 119, 15, 157, 245, 14, 82, 29,
    20, 40, 168, 93, 175, 4, 249, 173, 33, 80, 224]

/-- The digest of three characters, and that of two blocks in numbers. -/
theorem blake2s_libraries_exact_blocks :
    (Blake2s.hash [97, 98, 99] = Hash.Blake2s.digest [97, 98, 99] ∧
      Blake2sYul.hash [97, 98, 99] = Hash.Blake2s.digest [97, 98, 99]) ∧
    Blake2s.hash twoBlocks = twoBlocksDigest ∧ Blake2sYul.hash twoBlocks = twoBlocksDigest := by
  have partialBlock := @blake2s_libraries_exact [97, 98, 99] (by decide)
  have blocks := @blake2s_libraries_exact twoBlocks (by decide)
  have digest : Hash.Blake2s.digest twoBlocks = twoBlocksDigest := by decide +kernel
  exact ⟨⟨partialBlock.1, partialBlock.2.1⟩, blocks.1.trans digest, blocks.2.1.trans digest⟩

end Verifier
end Contracts
end QLSA
