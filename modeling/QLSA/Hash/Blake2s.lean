import QLSA.Machine.Numerals
import QLSA.Machine.PackedBytes
import Mathlib.Data.Fin.VecNotation
import Mathlib.Tactic.IntervalCases

namespace QLSA
namespace Hash
namespace Blake2s

open Machine (Byte)

/-!
# BLAKE2s

The keyless hash of RFC 7693 with a digest of 32 bytes.  A round is eight calls
of the mixing function, which name their words of the state and of the message;
the message words are permuted anew in each of the ten rounds.  The calls are
data, so that a program of such calls runs over any kind of words, and programs
over two kinds of words agree when their mixing functions do.
-/

abbrev Word := BitVec 32

/-! ## Programs of mixing calls -/

/-- The places of the four words of the state that a call mixes, which are also
the places of its results, and of the two words of the message. -/
structure Mix where
  (a b c d x y : Fin 16)
  deriving DecidableEq

section Programs

variable {V W : Type*}

/-- A call, with the message and the mixing function given. -/
def Mix.run (g : W → W → W → W → W → W → W × W × W × W) (m v : Vector W 16) (call : Mix) :
    Vector W 16 :=
  let mixed := g v[call.a] v[call.b] v[call.c] v[call.d] m[call.x] m[call.y]
  (((v.set call.a mixed.1).set call.b mixed.2.1).set call.c mixed.2.2.1).set call.d mixed.2.2.2

/-- A map between kinds of words. -/
def mapQuad (f : V → W) (quad : V × V × V × V) : W × W × W × W :=
  (f quad.1, f quad.2.1, f quad.2.2.1, f quad.2.2.2)

variable {f : V → W} {g : V → V → V → V → V → V → V × V × V × V}
  {g' : W → W → W → W → W → W → W × W × W × W}

theorem Mix.run_map (agree : ∀ a b c d x y,
      g' (f a) (f b) (f c) (f d) (f x) (f y) = mapQuad f (g a b c d x y))
    (m v : Vector V 16) (call : Mix) :
    call.run g' (m.map f) (v.map f) = (call.run g m v).map f := by
  unfold Mix.run
  simp only [Fin.getElem_fin, Vector.getElem_map, agree, mapQuad, Vector.map_set]

/-- Programs over two kinds of words agree when the mixing functions do. -/
theorem foldl_run_map (agree : ∀ a b c d x y,
      g' (f a) (f b) (f c) (f d) (f x) (f y) = mapQuad f (g a b c d x y))
    (m v : Vector V 16) (calls : List Mix) :
    calls.foldl (Mix.run g' (m.map f)) (v.map f) = (calls.foldl (Mix.run g m) v).map f := by
  induction calls generalizing v with
  | nil => rfl
  | cons call rest ih =>
      rw [List.foldl_cons, List.foldl_cons, Mix.run_map agree, ih]

end Programs

/-! ## The hash -/

def iv : Vector Word 8 :=
  #v[0x6A09E667, 0xBB67AE85, 0x3C6EF372, 0xA54FF53A,
    0x510E527F, 0x9B05688C, 0x1F83D9AB, 0x5BE0CD19]

/-- Permutations of the message words, round by round. -/
def sigma : List (Fin 16 → Fin 16) := [
  ![0, 1, 2, 3, 4, 5, 6, 7, 8, 9, 10, 11, 12, 13, 14, 15],
  ![14, 10, 4, 8, 9, 15, 13, 6, 1, 12, 0, 2, 11, 7, 5, 3],
  ![11, 8, 12, 0, 5, 2, 15, 13, 10, 14, 3, 6, 7, 1, 9, 4],
  ![7, 9, 3, 1, 13, 12, 11, 14, 2, 6, 5, 10, 4, 0, 15, 8],
  ![9, 0, 5, 7, 2, 4, 10, 15, 14, 1, 11, 12, 6, 8, 3, 13],
  ![2, 12, 6, 10, 0, 11, 8, 3, 4, 13, 7, 5, 15, 14, 1, 9],
  ![12, 5, 1, 15, 14, 13, 4, 10, 0, 7, 6, 3, 9, 2, 8, 11],
  ![13, 11, 7, 14, 12, 1, 3, 9, 5, 0, 15, 4, 8, 6, 2, 10],
  ![6, 15, 14, 9, 11, 3, 0, 8, 12, 2, 13, 7, 1, 4, 10, 5],
  ![10, 2, 8, 4, 7, 6, 1, 5, 15, 11, 9, 14, 3, 12, 13, 0]]

/-- The mixing function. -/
def G (a b c d x y : Word) : Word × Word × Word × Word :=
  let a := a + b + x
  let d := (d ^^^ a).rotateRight 16
  let c := c + d
  let b := (b ^^^ c).rotateRight 12
  let a := a + b + y
  let d := (d ^^^ a).rotateRight 8
  let c := c + d
  let b := (b ^^^ c).rotateRight 7
  (a, b, c, d)

/-- Columns and then diagonals, under a permutation of the message. -/
def roundCalls (s : Fin 16 → Fin 16) : List Mix := [
  ⟨0, 4, 8, 12, s 0, s 1⟩, ⟨1, 5, 9, 13, s 2, s 3⟩,
  ⟨2, 6, 10, 14, s 4, s 5⟩, ⟨3, 7, 11, 15, s 6, s 7⟩,
  ⟨0, 5, 10, 15, s 8, s 9⟩, ⟨1, 6, 11, 12, s 10, s 11⟩,
  ⟨2, 7, 8, 13, s 12, s 13⟩, ⟨3, 4, 9, 14, s 14, s 15⟩]

theorem first_lt : 0 < 8 := by decide

theorem counterLow_lt : 12 < 16 := by decide

theorem counterHigh_lt : 13 < 16 := by decide

theorem flag_lt : 14 < 16 := by decide

/-- The words that a compression works on: chaining value and constants, with the
byte counter and the flag of the last block. -/
def workingWords (h : Vector Word 8) (t : BitVec 64) (last : Bool) : Vector Word 16 :=
  let v : Vector Word 16 := h ++ iv
  let v := v.set 12 (v.get 12 ^^^ t.setWidth 32) counterLow_lt
  let v := v.set 13 (v.get 13 ^^^ (t >>> 32).setWidth 32) counterHigh_lt
  if last then v.set 14 (~~~ v.get 14) flag_lt else v

/-- The ten rounds. -/
def rounds (m v : Vector Word 16) : Vector Word 16 :=
  sigma.foldl (fun v s => (roundCalls s).foldl (Mix.run G m) v) v

/-- The chaining value with both halves of the working words. -/
def feedForward (h : Vector Word 8) (v : Vector Word 16) : Vector Word 8 :=
  Vector.ofFn fun i => h[i] ^^^ v[Fin.castAdd 8 i] ^^^ v[Fin.natAdd 8 i]

/-- The compression function. -/
def compress (h : Vector Word 8) (m : Vector Word 16) (t : BitVec 64) (last : Bool) :
    Vector Word 8 :=
  feedForward h (rounds m (workingWords h t last))

/-- The first chaining value, for a digest of 32 bytes without a key. -/
def initial : Vector Word 8 := iv.set 0 (iv.get 0 ^^^ 0x01010020) first_lt

/-- A little-endian word. -/
def leWord (b0 b1 b2 b3 : Byte) : Word := b3 ++ b2 ++ b1 ++ b0

/-- The bytes of a word, the lowest first. -/
def leBytes (w : Word) : List Byte := (List.range 4).map fun i => w.extractLsb' (8 * i) 8

/-- A block of the message, filled up with zeros. -/
def messageBlock (data : List Byte) (block : ℕ) : Vector Word 16 := Vector.ofFn fun i =>
  let p := 64 * block + 4 * i.val
  leWord (data.getD p 0) (data.getD (p + 1) 0) (data.getD (p + 2) 0) (data.getD (p + 3) 0)

/-- An empty message has one block; a full last block is not followed by another. -/
def blockCount (length : ℕ) : ℕ := max 1 ((length + 63) / 64)

/-- The chaining value after some blocks that are not the last. -/
def chaining (data : List Byte) (count : ℕ) : Vector Word 8 :=
  (List.range count).foldl
    (fun h i => compress h (messageBlock data i) (BitVec.ofNat 64 (64 * (i + 1))) false) initial

/-- The digest of a message. -/
def digest (data : List Byte) : List Byte :=
  let last := blockCount data.length - 1
  (compress (chaining data last) (messageBlock data last) (BitVec.ofNat 64 data.length)
    true).toList.flatMap leBytes

/-- The rounds are one program. -/
theorem rounds_eq (m v : Vector Word 16) :
    rounds m v = (sigma.flatMap roundCalls).foldl (Mix.run G m) v := by
  rw [rounds, List.foldl_flatMap]

theorem chaining_succ (data : List Byte) (count : ℕ) :
    chaining data (count + 1) = compress (chaining data count) (messageBlock data count)
      (BitVec.ofNat 64 (64 * (count + 1))) false := by
  rw [chaining, List.range_succ, List.foldl_append, ← chaining]
  rfl

theorem eight_words {W : Type*} (h : Vector W 8) :
    h = #v[h.get 0, h.get 1, h.get 2, h.get 3, h.get 4, h.get 5, h.get 6, h.get 7] := by
  ext i inside
  interval_cases i <;> rfl

theorem feedForward_eq (h : Vector Word 8) (v : Vector Word 16) :
    feedForward h v =
      #v[h.get 0 ^^^ v.get 0 ^^^ v.get 8, h.get 1 ^^^ v.get 1 ^^^ v.get 9,
        h.get 2 ^^^ v.get 2 ^^^ v.get 10, h.get 3 ^^^ v.get 3 ^^^ v.get 11,
        h.get 4 ^^^ v.get 4 ^^^ v.get 12, h.get 5 ^^^ v.get 5 ^^^ v.get 13,
        h.get 6 ^^^ v.get 6 ^^^ v.get 14, h.get 7 ^^^ v.get 7 ^^^ v.get 15] :=
  eight_words _

theorem digest_length (data : List Byte) : (digest data).length = 32 := by
  have four : ∀ w : Word, (leBytes w).length = 4 := fun _ => rfl
  rw [digest, Machine.flatMap_length four, Vector.length_toList]

/-- The sample of the RFC, the three characters `abc`. -/
example : digest [97, 98, 99] = [
    0x50, 0x8C, 0x5E, 0x8C, 0x32, 0x7C, 0x14, 0xE2, 0xE1, 0xA7, 0x2B, 0xA3, 0x4E, 0xEB, 0x45, 0x2F,
    0x37, 0x45, 0x8B, 0x20, 0x9E, 0xD6, 0x3A, 0x29, 0x4D, 0x99, 0x9B, 0x4C, 0x86, 0x67, 0x59,
    0x82] := by
  decide +kernel

end Blake2s
end Hash
end QLSA
