import QLSA.Contracts.ExactSums
import QLSA.Contracts.Poseidon2M31T16
import QLSA.Vfri2.Channel

namespace QLSA
namespace Contracts
namespace Poseidon2ChannelT8

open Mersenne Hash Vfri2
open Verifier hiding cm31Pack

/-!
# The width-eight channel of the contracts

The contract adds without a check, subtracts once and hands the sum to the
permutation of the contracts.  On canonical cells, and as long as fewer than `P`
pairs have been drawn in a row, it walks through the states of the prover's
channel.
-/

/-! ## The channel -/

structure ChannelState where
  s : State ℕ
  nDraws : ℕ

def init : ChannelState := ⟨⟨0, 0, 0, 0, 0, 0, 0, 0⟩, 0⟩

/-- The permuted cells are cast to `uint32`. -/
def permuteInto (st : ChannelState) (newS0 : ℕ) : ChannelState :=
  { st with s := (permute8 { st.s with s0 := newS0 }).map (· % 2 ^ 32) }

def absorb (st : ChannelState) (word : ℕ) : ChannelState :=
  let w := reduceTwice word
  let s0 := uncheckedAdd st.s.s0 w
  permuteInto st (if P ≤ s0 then s0 - P else s0)

/-- The word of a root that starts at a bit. -/
def wordAt (root : Bytes32) (shift : ℕ) : ℕ := root.toNat >>> shift &&& (2 ^ 32 - 1)

def mixRoot (st : ChannelState) (root : Bytes32) : ChannelState :=
  { absorb st (wordAt root 0) with nDraws := 0 }

def mixRootW (st : ChannelState) (root : Bytes32) : ChannelState :=
  let st := absorb st (wordAt root 96)
  let st := absorb st (wordAt root 64)
  let st := absorb st (wordAt root 32)
  { absorb st (wordAt root 0) with nDraws := 0 }

def mixRootFull (st : ChannelState) (root : Bytes32) : ChannelState :=
  { (List.range 8).foldl (fun st i => absorb st (wordAt root (224 - 32 * i))) st with nDraws := 0 }

def mixU32s (st : ChannelState) (words : List ℕ) : ChannelState :=
  { words.foldl absorb st with nDraws := 0 }

def drawPair (st : ChannelState) : (ℕ × ℕ) × ChannelState :=
  let w0 := st.s.s0
  let w1 := st.s.s1
  let s0 := uncheckedAdd st.s.s0 st.nDraws
  let st := permuteInto st (if P ≤ s0 then s0 - P else s0)
  ((w0, w1), { st with nDraws := (st.nDraws + 1) % 2 ^ 32 })

def drawSecureFelt (st : ChannelState) : ℕ × ChannelState :=
  let ((w0, w1), st) := drawPair st
  let ((w2, w3), st) := drawPair st
  let c0 := w0 <<< 32 % 2 ^ 64 ||| w1
  let c1 := w2 <<< 32 % 2 ^ 64 ||| w3
  (c0 <<< 64 % 2 ^ 128 ||| c1, st)

/-- The loop of `drawQueries`, by the number of queries still to fill in. -/
def fillQueries (st : ChannelState) (mask : ℕ) : ℕ → List ℕ × ChannelState
  | 0 => ([], st)
  | 1 =>
      let ((w0, _), st) := drawPair st
      ([w0 &&& mask], st)
  | n + 2 =>
      let ((w0, w1), st) := drawPair st
      let (queries, st) := fillQueries st mask n
      ((w0 &&& mask) :: (w1 &&& mask) :: queries, st)

def drawQueries (st : ChannelState) (logDomainSize nQueries : ℕ) :
    Except String (List ℕ × ChannelState) :=
  if logDomainSize ≤ 31 then .ok (fillQueries st (1 <<< logDomainSize - 1) nQueries)
  else .error "Poseidon2ChannelT8: logDomainSize > 31"

/-! ## The states of the prover -/

/-- The same cells and the same counter. -/
def ofChannel (chan : P2T8Channel) : ChannelState := ⟨chan.s, chan.nDraws⟩

theorem permuteInto_eq (cells : State M31) (nDraws : ℕ) (value : M31) :
    permuteInto ⟨cells.map ZMod.val, nDraws⟩ (addM31 cells.s0.val value.val) =
      ⟨Stwo.permuteT8 { cells.map ZMod.val with s0 := Stwo.m31Add cells.s0.val value.val },
        nDraws⟩ := by
  have set : ({ cells.map ZMod.val with s0 := (cells.s0 + value).val } : State ℕ) =
      ({ cells with s0 := cells.s0 + value } : State M31).map ZMod.val := rfl
  have small (x : State M31) : (x.map ZMod.val).All (· < 2 ^ 32) :=
    ⟨val_small _, val_small _, val_small _, val_small _, val_small _, val_small _, val_small _,
      val_small _⟩
  have residue (x : State M31) : (x.map ZMod.val).map (fun word : ℕ => (word : M31)) = x := by
    ext <;> exact @ZMod.natCast_zmod_val P _ _
  have narrow (x : State M31) : (x.map ZMod.val).map (· % 2 ^ 32) = x.map ZMod.val := by
    ext <;> exact Nat.mod_eq_of_lt (val_small _)
  rw [permuteInto, addM31_val, Stwo.m31Add_val, set,
    permute8_eq_permuteT8 (small _) (residue _), Stwo.permuteT8_map]
  dsimp only
  rw [narrow]

theorem absorb_ofChannel {chan : P2T8Channel} (cells : CanonicalCells chan.s) {word : ℕ}
    (fits : word < 2 ^ 32) : absorb (ofChannel chan) word = ofChannel (chan.absorb word) := by
  rcases chan with ⟨s, nDraws⟩
  rcases cells with ⟨state, rfl⟩
  have permuted := permuteInto_eq state nDraws ((word : ℕ) : M31)
  rw [absorb, P2T8Channel.absorb, reduceTwice_val fits]
  exact permuted

/-- Words that both channels absorb one after the other. -/
theorem foldl_absorb_ofChannel {α : Type} (word : α → ℕ) (places : List α)
    (fits : ∀ place ∈ places, word place < 2 ^ 32) {chan : P2T8Channel}
    (cells : CanonicalCells chan.s) :
    places.foldl (fun st place => absorb st (word place)) (ofChannel chan) =
        ofChannel (places.foldl (fun chan place => chan.absorb (word place)) chan) ∧
      CanonicalCells (places.foldl (fun chan place => chan.absorb (word place)) chan).s := by
  induction places generalizing chan with
  | nil => exact ⟨rfl, cells⟩
  | cons place rest ih =>
      rw [List.forall_mem_cons] at fits
      rw [List.foldl_cons, List.foldl_cons, absorb_ofChannel cells fits.1]
      exact ih fits.2 (P2T8Channel.absorb_cells cells fits.1)

theorem wordAt_eq (root : Bytes32) (i : ℕ) : wordAt root (224 - 32 * i) = rootWord root i :=
  Nat.and_two_pow_sub_one_eq_mod _ 32

section Operations

variable {chan : P2T8Channel} (cells : CanonicalCells chan.s)

include cells

theorem mixRootFull_ofChannel (root : Bytes32) :
    mixRootFull (ofChannel chan) root = ofChannel (chan.mixRootFull root) := by
  have absorbed := (foldl_absorb_ofChannel (rootWord root) (List.range 8)
    (fun i _ => rootWord_lt root i) cells).1
  simp only [mixRootFull, wordAt_eq]
  rw [absorbed, P2T8Channel.mixRootFull, ofChannel, ofChannel]

theorem mixRootW_ofChannel (root : Bytes32) :
    mixRootW (ofChannel chan) root = ofChannel (chan.mixRootW root) := by
  have absorbed := (foldl_absorb_ofChannel (fun k => rootWord root (4 + k)) (List.range 4)
    (fun k _ => rootWord_lt root (4 + k)) cells).1
  have unrolled : mixRootW (ofChannel chan) root =
      { (List.range 4).foldl (fun st k => absorb st (wordAt root (224 - 32 * (4 + k))))
        (ofChannel chan) with nDraws := 0 } := rfl
  simp only [wordAt_eq] at unrolled
  rw [unrolled, absorbed, P2T8Channel.mixRootW, ofChannel, ofChannel]

theorem mixU32s_ofChannel {words : List ℕ} (fits : ∀ word ∈ words, word < 2 ^ 32) :
    mixU32s (ofChannel chan) words = ofChannel (chan.mixU32s words) := by
  have absorbed := (foldl_absorb_ofChannel id words fits cells).1
  rw [mixU32s, P2T8Channel.mixU32s]
  simp only [id_eq] at absorbed
  rw [absorbed, ofChannel, ofChannel]

theorem drawPair_ofChannel (few : chan.nDraws < P) :
    drawPair (ofChannel chan) = (chan.drawPair.1, ofChannel chan.drawPair.2) := by
  rcases chan with ⟨s, nDraws⟩
  rcases cells with ⟨state, rfl⟩
  have count : ((nDraws : ℕ) : M31).val = nDraws := ZMod.val_cast_of_lt few
  have permuted := permuteInto_eq state nDraws ((nDraws : ℕ) : M31)
  rw [count] at permuted
  have drawn : drawPair (ofChannel ⟨state.map ZMod.val, nDraws⟩) =
      ((state.s0.val, state.s1.val), { permuteInto ⟨state.map ZMod.val, nDraws⟩
        (addM31 state.s0.val nDraws) with nDraws := (nDraws + 1) % 2 ^ 32 }) := rfl
  rw [drawn, permuted, P2T8Channel.drawPair]
  dsimp only
  rw [State.map_s0, State.map_s1, Nat.mod_eq_of_lt (val_small _), Nat.mod_eq_of_lt (val_small _),
    ofChannel]

end Operations

theorem pack_eq {w0 w1 : ℕ} (small : w0 < P) : w0 <<< 32 % 2 ^ 64 ||| w1 = cm31Pack w0 w1 := by
  have shifted : w0 <<< 32 < 2 ^ 64 := by
    have bound : P < 2 ^ 32 := by decide
    rw [Nat.shiftLeft_eq]
    omega
  rw [Nat.mod_eq_of_lt shifted, cm31Pack]

theorem drawSecureFelt_ofChannel {elements : ℕ} {chan : P2T8Channel}
    (ready : P2T8Channel.Ready (elements + 1) chan) :
    drawSecureFelt (ofChannel chan) =
      (chan.drawSecureFelt.1, ofChannel chan.drawSecureFelt.2) := by
  have draws := ready.draws
  rcases P2T8Channel.drawPair_spec ready.cells (by omega) with ⟨⟨a, b, first⟩, cells, count⟩
  rcases P2T8Channel.drawPair_spec cells (by omega) with ⟨⟨c, d, second⟩, -, -⟩
  have prover : chan.drawSecureFelt =
      (qm31PackC (cm31Pack chan.drawPair.1.1 chan.drawPair.1.2)
        (cm31Pack chan.drawPair.2.drawPair.1.1 chan.drawPair.2.drawPair.1.2),
        chan.drawPair.2.drawPair.2) := rfl
  have shifted : cm31Word ⟨a, b⟩ <<< 64 < 2 ^ 128 := by
    have half := cm31Word_lt ⟨a, b⟩
    rw [Nat.shiftLeft_eq]
    omega
  rw [prover, drawSecureFelt, drawPair_ofChannel ready.cells (by omega), first]
  dsimp only
  rw [drawPair_ofChannel cells (by omega), second]
  dsimp only
  rw [pack_eq (Stwo.val_lt_P a), pack_eq (Stwo.val_lt_P c), qm31PackC]
  exact congrArg (fun high => (high ||| cm31Word ⟨c, d⟩, ofChannel chan.drawPair.2.drawPair.2))
    (Nat.mod_eq_of_lt shifted)

theorem fillQueries_ofChannel {logDomainSize : ℕ} (small : logDomainSize ≤ 31) {n : ℕ}
    {chan : P2T8Channel} (cells : CanonicalCells chan.s) (few : chan.nDraws + n < P) :
    fillQueries (ofChannel chan) (1 <<< logDomainSize - 1) n =
      ((chan.drawQueries logDomainSize n).1, ofChannel (chan.drawQueries logDomainSize n).2) := by
  have mask : 1 <<< logDomainSize - 1 = P2T8Channel.queryMask logDomainSize := by
    have power : 2 ^ logDomainSize ≤ 2 ^ 31 := Nat.pow_le_pow_right (by decide) small
    rw [Nat.one_shiftLeft, P2T8Channel.queryMask, Nat.mod_eq_of_lt (by omega : logDomainSize < 64),
      Nat.mod_eq_of_lt (by omega)]
  induction n using Nat.twoStepInduction generalizing chan with
  | zero => rfl
  | one =>
      rw [fillQueries, drawPair_ofChannel cells (by omega), mask]
      rfl
  | more n ih _ =>
      rcases P2T8Channel.drawPair_spec cells (by omega) with ⟨-, later, count⟩
      have rest := ih later (by omega)
      rw [fillQueries, drawPair_ofChannel cells (by omega)]
      dsimp only
      rw [rest, mask]
      rfl

end Poseidon2ChannelT8
end Contracts
end QLSA
