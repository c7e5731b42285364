import QLSA.Contracts.FieldLibraries
import QLSA.Stwo.FieldHash

namespace QLSA
namespace Contracts
namespace Verifier

open Mersenne Hash

/-!
# The width-eight hash of the contracts

The permutation adds without reducing: `unchecked` sums wrap at `2^256`, fifth
powers are reduced by `mulmod` and the cells are reduced on the way out.  No
sum wraps, so on words of 32 bits the contracts compute the hash of the prover.
-/

def uncheckedAdd (a b : ℕ) : ℕ := (a + b) % uintModulus

def sbox (x : ℕ) : ℕ :=
  let x2 := x * x % P
  let x4 := x2 * x2 % P
  x4 * x % P

def m4 (a : Quad ℕ) : Quad ℕ :=
  let t0 := uncheckedAdd a.w0 a.w1
  let t1 := uncheckedAdd a.w2 a.w3
  let t2 := uncheckedAdd (uncheckedAdd a.w1 a.w1) t1
  let t3 := uncheckedAdd (uncheckedAdd a.w3 a.w3) t0
  let t4 := uncheckedAdd (t1 <<< 2 % uintModulus) t3
  let t5 := uncheckedAdd (t0 <<< 2 % uintModulus) t2
  ⟨uncheckedAdd t3 t5, t5, uncheckedAdd t2 t4, t4⟩

def matE (s : State ℕ) : State ℕ :=
  let a := m4 s.left
  let b := m4 s.right
  let g := Quad.zipWith uncheckedAdd a b
  State.ofQuads (Quad.zipWith uncheckedAdd a g) (Quad.zipWith uncheckedAdd b g)

def matI (s : State ℕ) : State ℕ :=
  let sum := uncheckedAdd (uncheckedAdd (uncheckedAdd (uncheckedAdd (uncheckedAdd (uncheckedAdd
    (uncheckedAdd s.s0 s.s1) s.s2) s.s3) s.s4) s.s5) s.s6) s.s7
  ⟨uncheckedAdd sum (s.s0 % P), uncheckedAdd sum (2 * s.s1 % P), uncheckedAdd sum (3 * s.s2 % P),
    uncheckedAdd sum (4 * s.s3 % P), uncheckedAdd sum (5 * s.s4 % P),
    uncheckedAdd sum (6 * s.s5 % P), uncheckedAdd sum (7 * s.s6 % P),
    uncheckedAdd sum (8 * s.s7 % P)⟩

def extRound (s c : State ℕ) : State ℕ :=
  matE ((State.zipWith uncheckedAdd s c).map sbox)

def intRound (s : State ℕ) (c0 : ℕ) : State ℕ :=
  matI { s with s0 := sbox (uncheckedAdd s.s0 c0) }

/-- `_permute8`, round by round with the constants as they stand in the contract.  Sums stay
unreduced between the layers, as there, and the result is reduced once. -/
def permute8 (s : State ℕ) : State ℕ :=
  let s := matE s
  let s := extRound s ⟨2012176458, 1849299961, 1732939933, 390435213,
    1583598125, 1521506328, 1850315157, 593064883⟩
  let s := extRound s ⟨442979704, 49299287, 668322884, 1478447923,
    2117627097, 894462472, 335092600, 304090409⟩
  let s := extRound s ⟨1725083656, 1823780446, 1589693490, 336928399,
    1533176076, 1472808391, 1197491867, 1980232791⟩
  let s := extRound s ⟨1332985942, 553469441, 542603061, 145062400,
    1801771230, 501797052, 191408558, 124556117⟩
  let s := intRound s 672534258
  let s := intRound s 1626884035
  let s := intRound s 1258567472
  let s := intRound s 1521030780
  let s := intRound s 609641534
  let s := intRound s 426249300
  let s := intRound s 1360556010
  let s := intRound s 668676905
  let s := intRound s 453695314
  let s := intRound s 178868843
  let s := intRound s 1293599881
  let s := intRound s 595916213
  let s := intRound s 1841032014
  let s := intRound s 29885509
  let s := extRound s ⟨767378382, 870276988, 2046892345, 12605708,
    1937961243, 903615558, 781360720, 458985484⟩
  let s := extRound s ⟨768021800, 1017409239, 1219264179, 1642454766,
    518313705, 101708341, 1618375810, 1323121046⟩
  let s := extRound s ⟨1721228118, 339098950, 1976827842, 1756100371,
    1309626382, 451150501, 491114795, 994585973⟩
  let s := extRound s ⟨1034786474, 575533575, 1809299734, 1497205669,
    961538106, 1152123009, 606500650, 2046687220⟩
  s.map (· % P)

def compress4 (left right : Quad ℕ) : Quad ℕ := (permute8 (State.ofQuads left right)).left

/-- The sponge from a given state on.  The pad of a shorter last block is its
missing length. -/
def spongeFrom (s : State ℕ) : List ℕ → State ℕ
  | v0 :: v1 :: v2 :: v3 :: rest =>
      spongeFrom (permute8 { s with
        s0 := uncheckedAdd s.s0 (v0 % P), s1 := uncheckedAdd s.s1 (v1 % P),
        s2 := uncheckedAdd s.s2 (v2 % P), s3 := uncheckedAdd s.s3 (v3 % P) }) rest
  | [v0, v1, v2] =>
      permute8 { s with
        s0 := uncheckedAdd s.s0 (v0 % P), s1 := uncheckedAdd s.s1 (v1 % P),
        s2 := uncheckedAdd s.s2 (v2 % P), s7 := uncheckedAdd s.s7 1 }
  | [v0, v1] =>
      permute8 { s with
        s0 := uncheckedAdd s.s0 (v0 % P), s1 := uncheckedAdd s.s1 (v1 % P),
        s7 := uncheckedAdd s.s7 2 }
  | [v0] =>
      permute8 { s with s0 := uncheckedAdd s.s0 (v0 % P), s7 := uncheckedAdd s.s7 3 }
  | [] => s

def sponge4 (values : List ℕ) : Quad ℕ := (spongeFrom ⟨0, 0, 0, 0, 0, 0, 0, 0⟩ values).left

/-! ## Nodes and paths -/

/-- A `bytes32` value. -/
abbrev Bytes32 := BitVec 256

def pack4 (w : Quad ℕ) : Bytes32 :=
  BitVec.ofNat 256 (w.w0 <<< 96 ||| w.w1 <<< 64 ||| w.w2 <<< 32 ||| w.w3)

def unpack4 (node : Bytes32) : Quad ℕ :=
  let v := node.toNat
  ⟨v >>> 96 &&& (2 ^ 32 - 1), v >>> 64 &&& (2 ^ 32 - 1), v >>> 32 &&& (2 ^ 32 - 1),
    v &&& (2 ^ 32 - 1)⟩

def hashLeaf (colValues : List ℕ) : Bytes32 := pack4 (sponge4 colValues)

def hashPair (left right : Bytes32) : Bytes32 := pack4 (compress4 (unpack4 left) (unpack4 right))

/-- The loop of `_verify` over the siblings. -/
def climb (current : Bytes32) (idx : ℕ) : List Bytes32 → Bytes32
  | [] => current
  | sibling :: siblings =>
      climb (if idx % 2 = 0 then hashPair current sibling else hashPair sibling current) (idx / 2)
        siblings

def verifyMem (root leafHash : Bytes32) (index depth : ℕ) (siblings : List Bytes32) : Bool :=
  if siblings.length ≠ depth then false
  else if 32 < depth then false
  else if 0 < depth ∧ 2 ^ depth ≤ index then false
  else climb leafHash index siblings == root

end Verifier
end Contracts
end QLSA
