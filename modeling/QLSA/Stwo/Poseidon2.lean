import QLSA.Field.Mersenne31
import QLSA.Hash.Permutation

namespace QLSA
namespace Stwo

open Mersenne Hash

/-!
# The width-eight hash of the prover

Words are `u64` values.  Sums and products wrap at `2^64` as in a release
build; on canonical words nothing wraps, and every routine returns the
canonical representative of the field operation it is named after.
-/

/-- Size of the `u64` range. -/
def u64Modulus : ℕ := 2 ^ 64

def m31Add (a b : ℕ) : ℕ :=
  let s := (a + b) % u64Modulus
  if P ≤ s then s - P else s

def m31Sub (a b : ℕ) : ℕ :=
  if b ≤ a then a - b else (a + P - b) % u64Modulus

def m31Mul (a b : ℕ) : ℕ :=
  let r := a * b % u64Modulus
  let lo := r &&& P
  let hi := r >>> 31
  let s := lo + hi
  if P ≤ s then s - P else s

def sbox (x : ℕ) : ℕ :=
  let x2 := m31Mul x x
  let x4 := m31Mul x2 x2
  m31Mul x4 x

/-- Round constants: eight for each external round, then one for each internal one. -/
def kRC : List ℕ := [
  2012176458, 1849299961, 1732939933, 390435213, 1583598125, 1521506328,
  1850315157, 593064883, 442979704, 49299287, 668322884, 1478447923,
  2117627097, 894462472, 335092600, 304090409, 1725083656, 1823780446,
  1589693490, 336928399, 1533176076, 1472808391, 1197491867, 1980232791,
  1332985942, 553469441, 542603061, 145062400, 1801771230, 501797052,
  191408558, 124556117, 767378382, 870276988, 2046892345, 12605708,
  1937961243, 903615558, 781360720, 458985484, 768021800, 1017409239,
  1219264179, 1642454766, 518313705, 101708341, 1618375810, 1323121046,
  1721228118, 339098950, 1976827842, 1756100371, 1309626382, 451150501,
  491114795, 994585973, 1034786474, 575533575, 1809299734, 1497205669,
  961538106, 1152123009, 606500650, 2046687220, 672534258, 1626884035,
  1258567472, 1521030780, 609641534, 426249300, 1360556010, 668676905,
  453695314, 178868843, 1293599881, 595916213, 1841032014, 29885509]

/-- Entry of the constant table. -/
def roundConstant (index : ℕ) : ℕ := kRC.getD index 0

def m4 (s : Quad ℕ) : Quad ℕ :=
  let t0 := m31Add s.w0 s.w1
  let t1 := m31Add s.w2 s.w3
  let t2 := m31Add (m31Add s.w1 s.w1) t1
  let t3 := m31Add (m31Add s.w3 s.w3) t0
  let t4 := m31Add (m31Add (m31Add t1 t1) (m31Add t1 t1)) t3
  let t5 := m31Add (m31Add (m31Add t0 t0) (m31Add t0 t0)) t2
  ⟨m31Add t3 t5, t5, m31Add t2 t4, t4⟩

def matExternal (s : State ℕ) : State ℕ :=
  let v0 := m4 s.left
  let v1 := m4 s.right
  let sigma0 := m31Add v0.w0 v1.w0
  let sigma1 := m31Add v0.w1 v1.w1
  let sigma2 := m31Add v0.w2 v1.w2
  let sigma3 := m31Add v0.w3 v1.w3
  ⟨m31Add v0.w0 sigma0, m31Add v0.w1 sigma1, m31Add v0.w2 sigma2, m31Add v0.w3 sigma3,
    m31Add v1.w0 sigma0, m31Add v1.w1 sigma1, m31Add v1.w2 sigma2, m31Add v1.w3 sigma3⟩

/-- `count` additions of one cell to an accumulator. -/
def addTimes (cell : ℕ) : ℕ → ℕ → ℕ
  | 0, acc => acc
  | count + 1, acc => addTimes cell count (m31Add acc cell)

def matInternal (s : State ℕ) : State ℕ :=
  let sum := m31Add (m31Add (m31Add (m31Add (m31Add (m31Add (m31Add (m31Add 0
    s.s0) s.s1) s.s2) s.s3) s.s4) s.s5) s.s6) s.s7
  ⟨addTimes s.s0 1 sum, addTimes s.s1 2 sum, addTimes s.s2 3 sum, addTimes s.s3 4 sum,
    addTimes s.s4 5 sum, addTimes s.s5 6 sum, addTimes s.s6 7 sum, addTimes s.s7 8 sum⟩

/-- One external round of `permute_t8`. -/
def externalRound (s : State ℕ) (r : ℕ) : State ℕ :=
  matExternal ((State.zipWith m31Add s (State.tabulate roundConstant (8 * r))).map sbox)

/-- One internal round of `permute_t8`. -/
def internalRound (s : State ℕ) (j : ℕ) : State ℕ :=
  matInternal { s with s0 := sbox (m31Add s.s0 (roundConstant (64 + j))) }

def permuteT8 (s : State ℕ) : State ℕ :=
  let s := matExternal s
  let s := (List.range 4).foldl externalRound s
  let s := (List.range 14).foldl internalRound s
  [4, 5, 6, 7].foldl externalRound s

def compressT8 (left right : Quad ℕ) : Quad ℕ :=
  (permuteT8 (State.ofQuads left right)).left

/-- Absorb one full block of four values. -/
def absorbBlock (state : State ℕ) (c0 c1 c2 c3 : ℕ) : State ℕ :=
  permuteT8 { state with
    s0 := m31Add state.s0 (c0 % P), s1 := m31Add state.s1 (c1 % P),
    s2 := m31Add state.s2 (c2 % P), s3 := m31Add state.s3 (c3 % P) }

/-- The sponge from a given state on: full blocks, then a shorter last block
whose missing length goes into the last capacity cell. -/
def spongeFrom (state : State ℕ) : List ℕ → State ℕ
  | c0 :: c1 :: c2 :: c3 :: rest => spongeFrom (absorbBlock state c0 c1 c2 c3) rest
  | [c0, c1, c2] =>
      permuteT8 { state with
        s0 := m31Add state.s0 (c0 % P), s1 := m31Add state.s1 (c1 % P),
        s2 := m31Add state.s2 (c2 % P), s7 := m31Add state.s7 1 }
  | [c0, c1] =>
      permuteT8 { state with
        s0 := m31Add state.s0 (c0 % P), s1 := m31Add state.s1 (c1 % P),
        s7 := m31Add state.s7 2 }
  | [c0] =>
      permuteT8 { state with s0 := m31Add state.s0 (c0 % P), s7 := m31Add state.s7 3 }
  | [] => state

theorem spongeFrom_block (state : State ℕ) (c0 c1 c2 c3 : ℕ) (rest : List ℕ) :
    spongeFrom state (c0 :: c1 :: c2 :: c3 :: rest) =
      spongeFrom (absorbBlock state c0 c1 c2 c3) rest := by
  conv_lhs => unfold spongeFrom

def spongeT8 (values : List ℕ) : State ℕ :=
  spongeFrom ⟨0, 0, 0, 0, 0, 0, 0, 0⟩ values

/-! ## Nodes -/

/-- A `[u8; 32]` node, read as a big-endian number. -/
abbrev Bytes32 := BitVec 256

/-- The four big-endian `u32` words in the second half of a node. -/
def p2t8NodeWords (node : Bytes32) : Quad ℕ :=
  ⟨node.toNat >>> 96 % 2 ^ 32, node.toNat >>> 64 % 2 ^ 32,
    node.toNat >>> 32 % 2 ^ 32, node.toNat % 2 ^ 32⟩

/-- Four words, truncated to `u32`, behind sixteen zero bytes. -/
def p2t8Pack (words : Quad ℕ) : Bytes32 :=
  BitVec.ofNat 256 (((words.w0 % 2 ^ 32 * 2 ^ 32 + words.w1 % 2 ^ 32) * 2 ^ 32 +
    words.w2 % 2 ^ 32) * 2 ^ 32 + words.w3 % 2 ^ 32)

/-- Words that fit in `u32` are read back from their node. -/
theorem p2t8NodeWords_p2t8Pack {words : Quad ℕ} (fit : words.All (· < 2 ^ 32)) :
    p2t8NodeWords (p2t8Pack words) = words := by
  rcases fit with ⟨first, second, third, fourth⟩
  have packed : (p2t8Pack words).toNat =
      ((words.w0 * 2 ^ 32 + words.w1) * 2 ^ 32 + words.w2) * 2 ^ 32 + words.w3 := by
    rw [p2t8Pack, BitVec.toNat_ofNat, Nat.mod_eq_of_lt first, Nat.mod_eq_of_lt second,
      Nat.mod_eq_of_lt third, Nat.mod_eq_of_lt fourth, Nat.mod_eq_of_lt (by omega)]
  ext <;> simp only [p2t8NodeWords, packed, Nat.shiftRight_eq_div_pow] <;> omega

def hashPairP2T8 (left right : Bytes32) : Bytes32 :=
  p2t8Pack (compressT8 (p2t8NodeWords left) (p2t8NodeWords right))

def hashLeafColsP2T8 (colValues : List ℕ) : Bytes32 :=
  p2t8Pack (spongeT8 colValues).left

end Stwo
end QLSA
