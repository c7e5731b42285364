import QLSA.Stwo.FieldHash
import QLSA.Vfri2.Arithmetic

namespace QLSA
namespace Vfri2

open Mersenne Hash Stwo

/-!
# The width-eight channel of the prover

Every word is absorbed into the first cell and followed by a permutation.  A
draw hands out the first two cells and adds the number of draws since the last
absorption to the first of them.  As long as this number stays below `P` the
cells are canonical words, and so are the limbs of every drawn element.
-/

/-- One of the eight big-endian `u32` words of a node. -/
def rootWord (root : Bytes32) (i : ℕ) : ℕ := root.toNat >>> (224 - 32 * i) % 2 ^ 32

/-- A `u32` after two conditional subtractions. -/
def reduceTwice (word : ℕ) : ℕ :=
  let w := if P ≤ word then word - P else word
  if P ≤ w then w - P else w

structure P2T8Channel where
  s : State ℕ
  nDraws : ℕ

namespace P2T8Channel

def init : P2T8Channel := ⟨⟨0, 0, 0, 0, 0, 0, 0, 0⟩, 0⟩

def absorb (chan : P2T8Channel) (word : ℕ) : P2T8Channel :=
  { chan with s := permuteT8 { chan.s with s0 := Stwo.m31Add chan.s.s0 (reduceTwice word) } }

def mixRoot (chan : P2T8Channel) (root : Bytes32) : P2T8Channel :=
  { chan.absorb (rootWord root 7) with nDraws := 0 }

/-- The four words in the second half of a node. -/
def mixRootW (chan : P2T8Channel) (root : Bytes32) : P2T8Channel :=
  { (List.range 4).foldl (fun chan k => chan.absorb (rootWord root (4 + k))) chan with nDraws := 0 }

def mixRootFull (chan : P2T8Channel) (root : Bytes32) : P2T8Channel :=
  { (List.range 8).foldl (fun chan i => chan.absorb (rootWord root i)) chan with nDraws := 0 }

def mixU32s (chan : P2T8Channel) (words : List ℕ) : P2T8Channel :=
  { words.foldl absorb chan with nDraws := 0 }

def drawPair (chan : P2T8Channel) : (ℕ × ℕ) × P2T8Channel :=
  let w0 := chan.s.s0 % 2 ^ 32
  let w1 := chan.s.s1 % 2 ^ 32
  let s := permuteT8 { chan.s with s0 := Stwo.m31Add chan.s.s0 chan.nDraws }
  ((w0, w1), ⟨s, (chan.nDraws + 1) % 2 ^ 32⟩)

def drawSecureFelt (chan : P2T8Channel) : ℕ × P2T8Channel :=
  let ((w0, w1), chan) := chan.drawPair
  let ((w2, w3), chan) := chan.drawPair
  (qm31PackC (cm31Pack w0 w1) (cm31Pack w2 w3), chan)

/-- The low bits that name an index. -/
def queryMask (logDomainSize : ℕ) : ℕ := (2 ^ (logDomainSize % 64) - 1) % 2 ^ 32

/-- The loop of `draw_queries`, by the number of queries still to draw; the
second word of the last pair may go unused. -/
def drawQueries (chan : P2T8Channel) (logDomainSize : ℕ) : ℕ → List ℕ × P2T8Channel
  | 0 => ([], chan)
  | 1 =>
      let ((w0, _), chan) := chan.drawPair
      ([w0 &&& queryMask logDomainSize], chan)
  | n + 2 =>
      let ((w0, w1), chan) := chan.drawPair
      let (queries, chan) := drawQueries chan logDomainSize n
      ((w0 &&& queryMask logDomainSize) :: (w1 &&& queryMask logDomainSize) :: queries, chan)

end P2T8Channel

/-! ## Canonical cells -/

/-- All cells are canonical words. -/
def CanonicalCells (s : State ℕ) : Prop := ∃ state : State M31, s = state.map ZMod.val

theorem CanonicalCells.permute {s : State ℕ} (cells : CanonicalCells s) :
    CanonicalCells (permuteT8 s) := by
  rcases cells with ⟨state, rfl⟩
  exact ⟨_, permuteT8_map state⟩

theorem CanonicalCells.setFirst {s : State ℕ} (cells : CanonicalCells s) (value : M31) :
    CanonicalCells { s with s0 := Stwo.m31Add s.s0 value.val } := by
  rcases cells with ⟨state, rfl⟩
  refine ⟨{ state with s0 := state.s0 + value }, ?_⟩
  rw [State.map_s0, Stwo.m31Add_val]
  rfl

theorem reduceTwice_val {word : ℕ} (fits : word < 2 ^ 32) :
    reduceTwice word = ((word : ℕ) : M31).val := by
  rw [ZMod.val_natCast, reduceTwice]
  by_cases large : P ≤ word
  · rw [if_pos large, Nat.mod_eq_sub_mod large]
    by_cases again : P ≤ word - P
    · rw [if_pos again, Nat.mod_eq_sub_mod again, Nat.mod_eq_of_lt]
      simp only [P]
      omega
    · rw [if_neg again, Nat.mod_eq_of_lt (not_le.mp again)]
  · rw [if_neg large, if_neg large, Nat.mod_eq_of_lt (not_le.mp large)]

theorem rootWord_lt (root : Bytes32) (i : ℕ) : rootWord root i < 2 ^ 32 :=
  Nat.mod_lt _ (Nat.two_pow_pos 32)

namespace P2T8Channel

/-- Canonical cells, and a number of elements that can be drawn. -/
structure Ready (elements : ℕ) (chan : P2T8Channel) : Prop where
  cells : CanonicalCells chan.s
  draws : chan.nDraws + 2 * elements ≤ P

theorem init_cells : CanonicalCells init.s := ⟨⟨0, 0, 0, 0, 0, 0, 0, 0⟩, rfl⟩

theorem absorb_cells {chan : P2T8Channel} (cells : CanonicalCells chan.s) {word : ℕ}
    (fits : word < 2 ^ 32) : CanonicalCells (chan.absorb word).s := by
  have set := cells.setFirst ((word : ℕ) : M31)
  rw [← reduceTwice_val fits] at set
  exact set.permute

theorem foldl_absorb_cells {words : List ℕ} (fits : ∀ word ∈ words, word < 2 ^ 32)
    {chan : P2T8Channel} (cells : CanonicalCells chan.s) :
    CanonicalCells (words.foldl absorb chan).s := by
  induction words generalizing chan with
  | nil => exact cells
  | cons word rest ih =>
      apply ih
      · exact fun other member => fits other (List.mem_cons_of_mem _ member)
      · exact absorb_cells cells (fits word List.mem_cons_self)

/-- Absorbing a root of either width. -/
theorem foldl_absorb_root_cells (root : Bytes32) (places : List ℕ) (start : ℕ) {chan : P2T8Channel}
    (cells : CanonicalCells chan.s) :
    CanonicalCells
      (places.foldl (fun chan k => chan.absorb (rootWord root (start + k))) chan).s := by
  have words := @foldl_absorb_cells (places.map fun k => rootWord root (start + k))
  rw [List.forall_mem_map] at words
  have folded := words (fun k _ => rootWord_lt root (start + k)) cells
  rw [List.foldl_map] at folded
  exact folded

/-- After an absorption two elements can be drawn, and many more. -/
theorem ready_two {s : State ℕ} (cells : CanonicalCells s) : Ready 2 ⟨s, 0⟩ :=
  ⟨cells, show 0 + 2 * 2 ≤ P by decide⟩

theorem mixRootW_ready {elements : ℕ} {chan : P2T8Channel} (ready : Ready elements chan)
    (root : Bytes32) : Ready 2 (chan.mixRootW root) :=
  ready_two (foldl_absorb_root_cells root (List.range 4) 4 ready.cells)

theorem mixRootFull_ready {elements : ℕ} {chan : P2T8Channel} (ready : Ready elements chan)
    (root : Bytes32) : Ready 2 (chan.mixRootFull root) := by
  have cells := foldl_absorb_root_cells root (List.range 8) 0 ready.cells
  simp only [Nat.zero_add] at cells
  exact ready_two cells

theorem mixU32s_ready {elements : ℕ} {chan : P2T8Channel} (ready : Ready elements chan)
    {words : List ℕ} (fits : ∀ word ∈ words, word < 2 ^ 32) : Ready 2 (chan.mixU32s words) :=
  ready_two (foldl_absorb_cells fits ready.cells)

/-- A pair consists of canonical words and counts as one draw. -/
theorem drawPair_spec {chan : P2T8Channel} (cells : CanonicalCells chan.s) (few : chan.nDraws < P) :
    (∃ first second : M31, chan.drawPair.1 = (first.val, second.val)) ∧
      CanonicalCells chan.drawPair.2.s ∧ chan.drawPair.2.nDraws = chan.nDraws + 1 := by
  rcases cells with ⟨state, same⟩
  have count : ((chan.nDraws : ℕ) : M31).val = chan.nDraws := ZMod.val_cast_of_lt few
  have set := CanonicalCells.setFirst ⟨state, rfl⟩ ((chan.nDraws : ℕ) : M31)
  rw [count, ← same] at set
  refine ⟨⟨state.s0, state.s1, ?_⟩, set.permute, ?_⟩
  · rw [drawPair, same, State.map_s0, State.map_s1, Nat.mod_eq_of_lt (val_small _),
      Nat.mod_eq_of_lt (val_small _)]
  · have fits : chan.nDraws + 1 < 2 ^ 32 := by
      simp only [P] at few
      omega
    rw [drawPair, Nat.mod_eq_of_lt fits]

/-- The limbs of a drawn element are canonical. -/
theorem drawSecureFelt_spec {elements : ℕ} {chan : P2T8Channel} (ready : Ready (elements + 1) chan) :
    (∃ felt : QM31, chan.drawSecureFelt.1 = qm31Word felt) ∧
      Ready elements chan.drawSecureFelt.2 := by
  have draws := ready.draws
  rcases drawPair_spec ready.cells (by omega) with ⟨⟨a, b, firstPair⟩, cells, count⟩
  rcases drawPair_spec cells (by omega) with ⟨⟨c, d, secondPair⟩, later, total⟩
  refine ⟨⟨⟨⟨a, b⟩, ⟨c, d⟩⟩, ?_⟩, ⟨later, ?_⟩⟩
  · have limbs : chan.drawSecureFelt.1 =
        qm31PackC (cm31Pack chan.drawPair.1.1 chan.drawPair.1.2)
          (cm31Pack chan.drawPair.2.drawPair.1.1 chan.drawPair.2.drawPair.1.2) := rfl
    rw [limbs, firstPair, secondPair]
    rfl
  · have total : chan.drawSecureFelt.2.nDraws = chan.nDraws + 1 + 1 := by
      rw [← count, ← total]
      rfl
    rw [total]
    omega

/-- Every query is an index of the domain. -/
theorem drawQueries_lt {logDomainSize : ℕ} (small : logDomainSize ≤ 30) (chan : P2T8Channel)
    (n : ℕ) : ∀ query ∈ (chan.drawQueries logDomainSize n).1, query < 2 ^ logDomainSize := by
  have mask (w : ℕ) : w &&& queryMask logDomainSize < 2 ^ logDomainSize := by
    have power : 2 ^ logDomainSize ≤ 2 ^ 30 := Nat.pow_le_pow_right (by decide) small
    have positive := Nat.two_pow_pos logDomainSize
    have shift : logDomainSize % 64 = logDomainSize := Nat.mod_eq_of_lt (by omega)
    rw [queryMask, shift, Nat.mod_eq_of_lt (by omega), Nat.and_two_pow_sub_one_eq_mod]
    exact Nat.mod_lt _ positive
  induction n using Nat.twoStepInduction generalizing chan with
  | zero => simp [drawQueries]
  | one => simp [drawQueries, mask]
  | more n ih _ =>
      rw [drawQueries]
      simp only [List.mem_cons, forall_eq_or_imp]
      exact ⟨mask _, mask _, ih _⟩

end P2T8Channel

end Vfri2
end QLSA
