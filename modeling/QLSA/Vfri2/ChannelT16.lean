import QLSA.Stwo.Poseidon2T16
import QLSA.Vfri2.Channel

namespace QLSA
namespace Vfri2

open Mersenne Hash Stwo
open P2T8Channel (queryMask)

/-!
# The width-sixteen channel of the prover

Up to eight words are absorbed by one permutation, and a shorter block adds the
number of its missing words to the last cell.  The channel over residues says
what an implementation stands for: sixteen field elements, and the number of
draws since the last absorption.

The prover reduces the sum of the first cell and this number once.  Up to `P`
draws the sum is canonical afterwards, so its words follow the residues as long
as at most `2^31` pairs are drawn between two absorptions.
-/

/-- What a caller asks of a channel. -/
inductive ChannelOp
  | mixRoot (root : Bytes32)
  | mixRootW (root : Bytes32)
  | mixRootFull (root : Bytes32)
  | mixU32s (words : List UInt32)
  | drawSecureFelt
  | drawQueries (logDomainSize nQueries : ℕ)

namespace ChannelOp

/-- The number of pairs drawn since the last absorption, `drawn` of them before. -/
def counter (drawn : ℕ) : ChannelOp → ℕ
  | mixRoot _ => 0
  | mixRootW _ => 0
  | mixRootFull _ => 0
  | mixU32s _ => 0
  | drawSecureFelt => drawn + 2
  | drawQueries _ nQueries => drawn + (nQueries + 1) / 2

/-- Indices have at most 31 bits. -/
def SmallDomain : ChannelOp → Prop
  | drawQueries logDomainSize _ => logDomainSize ≤ 31
  | _ => True

end ChannelOp

/-- At most `2^31` pairs are drawn between two absorptions. -/
def Paced : ℕ → List ChannelOp → Prop
  | _, [] => True
  | drawn, op :: ops => op.counter drawn ≤ 2 ^ 31 ∧ Paced (op.counter drawn) ops

/-- What a channel hands out. -/
inductive Drawn
  | felt (value : ℕ)
  | queries (indices : List ℕ)
deriving DecidableEq

/-- The blocks of at most eight words. -/
def chunksOfEight (words : List ℕ) : List (List ℕ) :=
  (List.range ((words.length + 7) / 8)).map fun c => (words.drop (8 * c)).take 8

structure P2T16Channel where
  s : Cells ℕ
  nDraws : ℕ

namespace P2T16Channel

def init : P2T16Channel := ⟨Cells.of fun _ => 0, 0⟩

def absorbBlock (chan : P2T16Channel) (words : List ℕ) : P2T16Channel :=
  let s := Cells.of fun i =>
    match words[i.val]? with
    | some word => Stwo.m31Add (chan.s.get i) (reduceTwice word)
    | none => chan.s.get i
  let s :=
    if words.length < 8 then
      Cells.of (Function.update s.get 15 (Stwo.m31Add (s.get 15) (8 - words.length)))
    else s
  { chan with s := permuteT16 s }

def absorbWords (chan : P2T16Channel) (words : List ℕ) : P2T16Channel :=
  (chunksOfEight words).foldl absorbBlock chan

def mixRoot (chan : P2T16Channel) (root : Bytes32) : P2T16Channel :=
  { chan.absorbBlock [rootWord root 7] with nDraws := 0 }

def mixRootFull (chan : P2T16Channel) (root : Bytes32) : P2T16Channel :=
  { chan.absorbBlock ((List.range 8).map (rootWord root)) with nDraws := 0 }

def mixRootW (chan : P2T16Channel) (root : Bytes32) : P2T16Channel := chan.mixRootFull root

def mixU32s (chan : P2T16Channel) (words : List UInt32) : P2T16Channel :=
  { chan.absorbWords (words.map UInt32.toNat) with nDraws := 0 }

def drawPair (chan : P2T16Channel) : (ℕ × ℕ) × P2T16Channel :=
  let w0 := chan.s.get 0 % 2 ^ 32
  let w1 := chan.s.get 1 % 2 ^ 32
  let s := Cells.of (Function.update chan.s.get 0 (Stwo.m31Add (chan.s.get 0) chan.nDraws))
  ((w0, w1), ⟨permuteT16 s, (chan.nDraws + 1) % 2 ^ 32⟩)

def drawSecureFelt (chan : P2T16Channel) : ℕ × P2T16Channel :=
  let ((w0, w1), chan) := chan.drawPair
  let ((w2, w3), chan) := chan.drawPair
  (qm31PackC (cm31Pack w0 w1) (cm31Pack w2 w3), chan)

/-- The loop of `draw_queries`, by the number of queries still to draw. -/
def drawQueries (chan : P2T16Channel) (logDomainSize : ℕ) : ℕ → List ℕ × P2T16Channel
  | 0 => ([], chan)
  | 1 =>
      let ((w0, _), chan) := chan.drawPair
      ([w0 &&& queryMask logDomainSize], chan)
  | n + 2 =>
      let ((w0, w1), chan) := chan.drawPair
      let (queries, chan) := drawQueries chan logDomainSize n
      ((w0 &&& queryMask logDomainSize) :: (w1 &&& queryMask logDomainSize) :: queries, chan)

def step (chan : P2T16Channel) : ChannelOp → List Drawn × P2T16Channel
  | .mixRoot root => ([], chan.mixRoot root)
  | .mixRootW root => ([], chan.mixRootW root)
  | .mixRootFull root => ([], chan.mixRootFull root)
  | .mixU32s words => ([], chan.mixU32s words)
  | .drawSecureFelt =>
      let (value, chan) := chan.drawSecureFelt
      ([.felt value], chan)
  | .drawQueries logDomainSize nQueries =>
      let (indices, chan) := chan.drawQueries logDomainSize nQueries
      ([.queries indices], chan)

/-- The draws of a sequence of operations. -/
def draws (chan : P2T16Channel) : List ChannelOp → List Drawn
  | [] => []
  | op :: ops =>
      let (drawn, chan) := chan.step op
      drawn ++ draws chan ops

end P2T16Channel

/-! ## The channel over residues -/

/-- Sixteen residues, and the number of draws since the last absorption. -/
structure FieldChannel where
  cells : Fin 16 → M31
  nDraws : ℕ

namespace FieldChannel

variable (chan : FieldChannel)

def init : FieldChannel := ⟨0, 0⟩

/-- At most eight words, and the number of words missing. -/
def absorbBlock (block : List ℕ) : FieldChannel :=
  let v := absorbed chan.cells block
  { chan with
    cells := poseidon2 constantT16 (Function.update v 15 (v 15 + (8 - block.length : ℕ))) }

def absorb (blocks : List (List ℕ)) : FieldChannel :=
  { blocks.foldl absorbBlock chan with nDraws := 0 }

def drawPair : (M31 × M31) × FieldChannel :=
  ((chan.cells 0, chan.cells 1),
    ⟨poseidon2 constantT16 (Function.update chan.cells 0 (chan.cells 0 + chan.nDraws)),
      (chan.nDraws + 1) % 2 ^ 32⟩)

def drawSecureFelt : QM31 × FieldChannel :=
  let ((w0, w1), chan) := chan.drawPair
  let ((w2, w3), chan) := chan.drawPair
  (⟨⟨w0, w1⟩, ⟨w2, w3⟩⟩, chan)

def drawQueries (chan : FieldChannel) (logDomainSize : ℕ) : ℕ → List ℕ × FieldChannel
  | 0 => ([], chan)
  | 1 =>
      let ((w0, _), chan) := chan.drawPair
      ([w0.val % 2 ^ logDomainSize], chan)
  | n + 2 =>
      let ((w0, w1), chan) := chan.drawPair
      let (queries, chan) := drawQueries chan logDomainSize n
      (w0.val % 2 ^ logDomainSize :: w1.val % 2 ^ logDomainSize :: queries, chan)

def step : ChannelOp → List Drawn × FieldChannel
  | .mixRoot root => ([], chan.absorb [[rootWord root 7]])
  | .mixRootW root => ([], chan.absorb [(List.range 8).map (rootWord root)])
  | .mixRootFull root => ([], chan.absorb [(List.range 8).map (rootWord root)])
  | .mixU32s words => ([], chan.absorb (chunksOfEight (words.map UInt32.toNat)))
  | .drawSecureFelt =>
      let (value, chan) := chan.drawSecureFelt
      ([.felt (qm31Word value)], chan)
  | .drawQueries logDomainSize nQueries =>
      let (indices, chan) := chan.drawQueries logDomainSize nQueries
      ([.queries indices], chan)

def draws (chan : FieldChannel) : List ChannelOp → List Drawn
  | [] => []
  | op :: ops =>
      let (drawn, chan) := chan.step op
      drawn ++ draws chan ops

end FieldChannel

/-! ## The prover's words follow the residues -/

/-- At most eight `u32` values. -/
structure U32Block (block : List ℕ) : Prop where
  short : block.length ≤ 8
  fits : ∀ word ∈ block, word < 2 ^ 32

theorem rootWord_block (root : Bytes32) : U32Block [rootWord root 7] := by
  refine ⟨by simp, ?_⟩
  intro word member
  rw [List.mem_singleton.mp member]
  exact rootWord_lt root 7

theorem rootWords_block (root : Bytes32) : U32Block ((List.range 8).map (rootWord root)) := by
  refine ⟨by simp, ?_⟩
  rw [List.forall_mem_map]
  exact fun i _ => rootWord_lt root i

theorem chunksOfEight_block {words : List ℕ} (fits : ∀ word ∈ words, word < 2 ^ 32) :
    ∀ block ∈ chunksOfEight words, U32Block block := by
  rw [chunksOfEight, List.forall_mem_map]
  intro c _
  refine ⟨List.length_take_le 8 _, ?_⟩
  intro word member
  exact fits word (List.mem_of_mem_drop (List.mem_of_mem_take member))

theorem toNat_fits (words : List UInt32) : ∀ word ∈ words.map UInt32.toNat, word < 2 ^ 32 := by
  rw [List.forall_mem_map]
  exact fun word _ => word.toNat_lt

/-- One conditional subtraction is enough for a summand up to `P`. -/
theorem m31Add_small (a : M31) {n : ℕ} (small : n ≤ P) :
    Stwo.m31Add a.val n = (a + n).val := by
  rcases small.lt_or_eq with below | rfl
  · have value : ((n : ℕ) : M31).val = n := ZMod.val_cast_of_lt below
    rw [← Stwo.m31Add_val, value]
  · have bounded := val_lt_P a
    have wide : P < 2 ^ 31 := by decide
    have fits : (a.val + P) % u64Modulus = a.val + P := by
      rw [Nat.mod_eq_of_lt]
      simp only [u64Modulus]
      omega
    have vanishes : a + (P : M31) = a := by rw [CharP.cast_eq_zero M31 P, add_zero]
    rw [Stwo.m31Add, fits, if_pos (Nat.le_add_left P _), vanishes, Nat.add_sub_cancel]

/-- The bits of a word that name an index. -/
theorem and_queryMask {logDomainSize : ℕ} (small : logDomainSize ≤ 31) (w : ℕ) :
    w &&& queryMask logDomainSize = w % 2 ^ logDomainSize := by
  have power : 2 ^ logDomainSize ≤ 2 ^ 31 := Nat.pow_le_pow_right (by decide) small
  have shift : logDomainSize % 64 = logDomainSize := Nat.mod_eq_of_lt (by omega)
  rw [queryMask, shift, Nat.mod_eq_of_lt (by omega), Nat.and_two_pow_sub_one_eq_mod]

namespace FieldChannel

/-- The representatives of a channel. -/
def toWords (chan : FieldChannel) : P2T16Channel := ⟨lift chan.cells, chan.nDraws⟩

variable {chan : FieldChannel}

theorem absorbBlock_toWords {block : List ℕ} (sized : U32Block block) :
    chan.toWords.absorbBlock block = (chan.absorbBlock block).toWords := by
  have added : (Cells.of fun i : Fin 16 =>
      match block[i.val]? with
      | some word => Stwo.m31Add (chan.toWords.s.get i) (reduceTwice word)
      | none => chan.toWords.s.get i) = lift (absorbed chan.cells block) := by
    apply lift_eq
    intro i
    rw [Cells.get_of, absorbed]
    cases found : block[i.val]? with
    | none => exact lift_get chan.cells i
    | some word =>
        have fits := sized.fits word (List.mem_of_getElem? found)
        dsimp only [toWords]
        rw [lift_get, reduceTwice_val fits, Stwo.m31Add_val]
  rw [P2T16Channel.absorbBlock, added]
  split
  case isTrue partialBlock =>
    rw [m31Add_pad _ (Nat.sub_le 8 _), permuteT16_lift]
    rfl
  case isFalse fullBlock =>
    have nothing : 8 - block.length = 0 := by omega
    rw [permuteT16_lift, absorbBlock, nothing, Nat.cast_zero, add_zero, Function.update_eq_self]
    rfl

theorem foldl_absorbBlock_toWords {blocks : List (List ℕ)}
    (sized : ∀ block ∈ blocks, U32Block block) :
    blocks.foldl P2T16Channel.absorbBlock chan.toWords = (blocks.foldl absorbBlock chan).toWords := by
  induction blocks generalizing chan with
  | nil => rfl
  | cons block rest ih =>
      rw [List.forall_mem_cons] at sized
      rw [List.foldl_cons, absorbBlock_toWords sized.1, ih sized.2, List.foldl_cons]

theorem drawPair_toWords (few : chan.nDraws ≤ P) :
    chan.toWords.drawPair = (((chan.cells 0).val, (chan.cells 1).val), chan.drawPair.2.toWords) := by
  have sum := m31Add_small (chan.cells 0) few
  rw [P2T16Channel.drawPair]
  dsimp only [toWords]
  rw [lift_get, lift_get, sum, update_lift, permuteT16_lift, Nat.mod_eq_of_lt (val_small _),
    Nat.mod_eq_of_lt (val_small _)]
  rfl

/-- Up to `2^31` draws the counter does not wrap. -/
theorem drawPair_nDraws (few : chan.nDraws + 1 ≤ 2 ^ 31) :
    chan.drawPair.2.nDraws = chan.nDraws + 1 := by
  rw [drawPair, Nat.mod_eq_of_lt (by omega)]

theorem drawSecureFelt_toWords (few : chan.nDraws + 2 ≤ 2 ^ 31) :
    chan.toWords.drawSecureFelt =
        (qm31Word chan.drawSecureFelt.1, chan.drawSecureFelt.2.toWords) ∧
      chan.drawSecureFelt.2.nDraws = chan.nDraws + 2 := by
  have next : chan.drawPair.2.nDraws = chan.nDraws + 1 := drawPair_nDraws (by omega)
  have first : chan.nDraws ≤ P := by
    simp only [P]
    omega
  have second : chan.drawPair.2.nDraws ≤ P := by
    simp only [P]
    omega
  have parts : chan.drawSecureFelt =
      (⟨⟨chan.cells 0, chan.cells 1⟩, ⟨chan.drawPair.2.cells 0, chan.drawPair.2.cells 1⟩⟩,
        chan.drawPair.2.drawPair.2) := rfl
  rw [parts]
  constructor
  · rw [P2T16Channel.drawSecureFelt, drawPair_toWords first]
    dsimp only
    rw [drawPair_toWords second, qm31Word, cm31Word, cm31Word]
  · have last : chan.drawPair.2.drawPair.2.nDraws = chan.drawPair.2.nDraws + 1 :=
      drawPair_nDraws (by omega)
    rw [last, next]

theorem drawQueries_toWords {logDomainSize : ℕ} (small : logDomainSize ≤ 31) (n : ℕ)
    (few : chan.nDraws + (n + 1) / 2 ≤ 2 ^ 31) :
    chan.toWords.drawQueries logDomainSize n =
        ((chan.drawQueries logDomainSize n).1, (chan.drawQueries logDomainSize n).2.toWords) ∧
      (chan.drawQueries logDomainSize n).2.nDraws = chan.nDraws + (n + 1) / 2 := by
  induction n using Nat.twoStepInduction generalizing chan with
  | zero => exact ⟨rfl, rfl⟩
  | one =>
      have canonical : chan.nDraws ≤ P := by
        simp only [P]
        omega
      rw [P2T16Channel.drawQueries, drawPair_toWords canonical]
      dsimp only
      rw [and_queryMask small]
      exact ⟨rfl, drawPair_nDraws (by omega)⟩
  | more n ih _ =>
      have next : chan.drawPair.2.nDraws = chan.nDraws + 1 := drawPair_nDraws (by omega)
      have canonical : chan.nDraws ≤ P := by
        simp only [P]
        omega
      rcases @ih chan.drawPair.2 (by omega) with ⟨queries, count⟩
      rw [P2T16Channel.drawQueries, drawPair_toWords canonical]
      dsimp only
      rw [queries, and_queryMask small, and_queryMask small, drawQueries]
      dsimp only
      refine ⟨rfl, ?_⟩
      rw [count, next]
      omega

theorem absorb_toWords {blocks : List (List ℕ)} (sized : ∀ block ∈ blocks, U32Block block) :
    { blocks.foldl P2T16Channel.absorbBlock chan.toWords with nDraws := 0 } =
      (chan.absorb blocks).toWords := by
  rw [foldl_absorbBlock_toWords sized, absorb, toWords, toWords]

/-- One operation, while the counter stays small. -/
theorem step_toWords {op : ChannelOp} (small : op.SmallDomain)
    (few : op.counter chan.nDraws ≤ 2 ^ 31) :
    chan.toWords.step op = ((chan.step op).1, (chan.step op).2.toWords) ∧
      (chan.step op).2.nDraws = op.counter chan.nDraws := by
  cases op with
  | mixRoot root =>
      have mixed := @absorb_toWords chan _ (List.forall_mem_singleton.mpr (rootWord_block root))
      exact ⟨congrArg (Prod.mk []) mixed, rfl⟩
  | mixRootW root =>
      have mixed := @absorb_toWords chan _ (List.forall_mem_singleton.mpr (rootWords_block root))
      exact ⟨congrArg (Prod.mk []) mixed, rfl⟩
  | mixRootFull root =>
      have mixed := @absorb_toWords chan _ (List.forall_mem_singleton.mpr (rootWords_block root))
      exact ⟨congrArg (Prod.mk []) mixed, rfl⟩
  | mixU32s words =>
      have mixed := @absorb_toWords chan _ (chunksOfEight_block (toNat_fits words))
      exact ⟨congrArg (Prod.mk []) mixed, rfl⟩
  | drawSecureFelt =>
      rcases drawSecureFelt_toWords few with ⟨value, count⟩
      rw [P2T16Channel.step, value]
      exact ⟨rfl, count⟩
  | drawQueries logDomainSize nQueries =>
      rcases drawQueries_toWords small nQueries few with ⟨indices, count⟩
      rw [P2T16Channel.step, indices]
      exact ⟨rfl, count⟩

/-- The prover's draws are those of the channel over residues. -/
theorem draws_toWords {ops : List ChannelOp} (small : ∀ op ∈ ops, op.SmallDomain)
    (paced : Paced chan.nDraws ops) : chan.toWords.draws ops = chan.draws ops := by
  induction ops generalizing chan with
  | nil => rfl
  | cons op ops ih =>
      rw [List.forall_mem_cons] at small
      rcases step_toWords small.1 paced.1 with ⟨stepped, count⟩
      have rest := paced.2
      rw [← count] at rest
      rw [P2T16Channel.draws, stepped, draws]
      dsimp only
      rw [ih small.2 rest]

end FieldChannel

end Vfri2
end QLSA
