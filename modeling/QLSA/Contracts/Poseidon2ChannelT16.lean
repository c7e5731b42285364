import QLSA.Contracts.Poseidon2M31T16
import QLSA.Vfri2.ChannelT16

namespace QLSA
namespace Contracts
namespace Poseidon2ChannelT16

open Mersenne Hash Verifier Vfri2
open Stwo (constantT16 lift absorbed lift_get)

/-!
# The width-sixteen channel of the contracts

A block is a memory array of eight words together with its length.  The words
of the channel follow the channel over residues without a bound on the number
of draws, because the permutation accepts every word below `2^32`; only queries
from a domain of more than `2^31` points are refused.
-/

structure State where
  s : Cells ℕ
  nDraws : ℕ

def init : State := ⟨Cells.of fun _ => 0, 0⟩

def absorbBlock (st : State) (words : Fin 8 → ℕ) (k : ℕ) : State :=
  let s := Cells.of fun i =>
    if inside : i.val < 8 ∧ i.val < k then
      addM31 (st.s.get i) (reduceTwice (words ⟨i, inside.1⟩))
    else st.s.get i
  let s := if k < 8 then Cells.of (Function.update s.get 15 (addM31 (s.get 15) (8 - k))) else s
  { st with s := permute16 s }

def absorbAll8 (st : State) (root : Bytes32) : State :=
  { absorbBlock st (fun i => root.toNat >>> (224 - 32 * i.val) &&& (2 ^ 32 - 1)) 8 with nDraws := 0 }

def mixRoot (st : State) (root : Bytes32) : State :=
  { absorbBlock st (fun i => if i = 0 then root.toNat &&& (2 ^ 32 - 1) else 0) 1 with nDraws := 0 }

def mixRootW (st : State) (root : Bytes32) : State := absorbAll8 st root

def mixRootFull (st : State) (root : Bytes32) : State := absorbAll8 st root

/-- The block that begins at `i`; the last one may be short. -/
def mixBlock (words : List UInt32) (st : State) (i : ℕ) : State :=
  let n := words.length
  let k := if n - i < 8 then n - i else 8
  absorbBlock st (fun j => if j.val < k then (words.getD (i + j.val) 0).toNat else 0) k

def mixU32s (st : State) (words : List UInt32) : State :=
  let st := (List.range ((words.length + 7) / 8)).foldl (fun st c => mixBlock words st (8 * c)) st
  { st with nDraws := 0 }

def drawPair (st : State) : (ℕ × ℕ) × State :=
  let w0 := st.s.get 0
  let w1 := st.s.get 1
  let s := Cells.of (Function.update st.s.get 0 (addM31 (st.s.get 0) st.nDraws))
  ((w0, w1), ⟨permute16 s, (st.nDraws + 1) % 2 ^ 32⟩)

def drawSecureFelt (st : State) : ℕ × State :=
  let ((w0, w1), st) := drawPair st
  let ((w2, w3), st) := drawPair st
  let c0 := (w0 <<< 32 % uintModulus ||| w1) % 2 ^ 64
  let c1 := (w2 <<< 32 % uintModulus ||| w3) % 2 ^ 64
  (c0 <<< 64 % 2 ^ 128 ||| c1, st)

/-- The loop of `drawQueries`, by the number of queries still to fill in. -/
def fillQueries (st : State) (mask : ℕ) : ℕ → List ℕ × State
  | 0 => ([], st)
  | 1 =>
      let ((w0, _), st) := drawPair st
      ([w0 &&& mask], st)
  | n + 2 =>
      let ((w0, w1), st) := drawPair st
      let (queries, st) := fillQueries st mask n
      ((w0 &&& mask) :: (w1 &&& mask) :: queries, st)

def drawQueries (st : State) (logDomainSize nQueries : ℕ) : Option (List ℕ × State) :=
  if logDomainSize ≤ 31 then some (fillQueries st (1 <<< logDomainSize - 1) nQueries) else none

def step (st : State) : ChannelOp → Option (List Drawn × State)
  | .mixRoot root => some ([], mixRoot st root)
  | .mixRootW root => some ([], mixRootW st root)
  | .mixRootFull root => some ([], mixRootFull st root)
  | .mixU32s words => some ([], mixU32s st words)
  | .drawSecureFelt =>
      let (value, st) := drawSecureFelt st
      some ([.felt value], st)
  | .drawQueries logDomainSize nQueries => do
      let (indices, st) ← drawQueries st logDomainSize nQueries
      some ([.queries indices], st)

/-- The draws of a sequence of operations; `none` is a revert. -/
def draws (st : State) : List ChannelOp → Option (List Drawn)
  | [] => some []
  | op :: ops => do
      let (drawn, st) ← step st op
      let later ← draws st ops
      some (drawn ++ later)

/-! ## The words of a channel over residues -/

def ofField (chan : FieldChannel) : State := ⟨lift chan.cells, chan.nDraws⟩

/-- The first words of a memory array are the block. -/
def Holds (words : Fin 8 → ℕ) (block : List ℕ) : Prop :=
  ∀ i : Fin 8, i.val < block.length → block[i.val]? = some (words i)

variable {chan : FieldChannel}

theorem absorbBlock_ofField {words : Fin 8 → ℕ} {block : List ℕ} (sized : U32Block block)
    (held : Holds words block) {k : ℕ} (length : block.length = k) :
    absorbBlock (ofField chan) words k = ofField (chan.absorbBlock block) := by
  subst length
  have added : (Cells.of fun i : Fin 16 =>
      if inside : i.val < 8 ∧ i.val < block.length then
        addM31 ((ofField chan).s.get i) (reduceTwice (words ⟨i, inside.1⟩))
      else (ofField chan).s.get i) = lift (absorbed chan.cells block) := by
    apply Stwo.lift_eq
    intro i
    rw [Cells.get_of, absorbed]
    have short := sized.short
    by_cases inside : i.val < block.length
    · have place : i.val < 8 ∧ i.val < block.length := ⟨by omega, inside⟩
      have found := held ⟨i, place.1⟩ inside
      have fits := sized.fits _ (List.mem_of_getElem? found)
      rw [dif_pos place, found, ofField, lift_get, reduceTwice_val fits, addM31_val]
    · have outside : ¬ (i.val < 8 ∧ i.val < block.length) := fun place => inside place.2
      rw [dif_neg outside, List.getElem?_eq_none (not_lt.mp inside), ofField, lift_get]
  rw [absorbBlock, added]
  split
  case isTrue partialBlock =>
    rw [addM31_pad _ (Nat.sub_le 8 _), permute16_lift]
    rfl
  case isFalse fullBlock =>
    have nothing : 8 - block.length = 0 := by omega
    rw [permute16_lift, FieldChannel.absorbBlock, nothing, Nat.cast_zero, add_zero,
      Function.update_eq_self]
    rfl

/-- A sum that is reduced once is a word below `2^32`. -/
theorem addM31_residue (a : M31) {n : ℕ} (small : n < 2 ^ 32) :
    addM31 a.val n < 2 ^ 32 ∧ ((addM31 a.val n : ℕ) : M31) = a + n := by
  have canonical := Stwo.val_lt_P a
  have wide : P = 2 ^ 31 - 1 := rfl
  rw [addM31, uncheckedAdd_eq (room (by omega) (by omega))]
  split
  case isTrue large =>
    constructor
    · omega
    · rw [Nat.cast_sub large, CharP.cast_eq_zero M31 P, sub_zero, Nat.cast_add,
        ZMod.natCast_zmod_val]
  case isFalse below =>
    constructor
    · omega
    · rw [Nat.cast_add, ZMod.natCast_zmod_val]

theorem drawPair_ofField (small : chan.nDraws < 2 ^ 32) :
    drawPair (ofField chan) =
      (((chan.cells 0).val, (chan.cells 1).val), ofField chan.drawPair.2) := by
  have sum := addM31_residue (chan.cells 0) small
  have words (i : Fin 16) :
      (Cells.of (Function.update (lift chan.cells).get 0 (addM31 (chan.cells 0).val chan.nDraws))).get i
          < 2 ^ 32 ∧
        (((Cells.of (Function.update (lift chan.cells).get 0
          (addM31 (chan.cells 0).val chan.nDraws))).get i : ℕ) : M31) =
          Function.update chan.cells 0 (chan.cells 0 + chan.nDraws) i := by
    rw [Cells.get_of, Function.update_apply, Function.update_apply]
    split
    case isTrue => exact sum
    case isFalse =>
      rw [lift_get, ZMod.natCast_zmod_val]
      exact ⟨val_small _, rfl⟩
  have permuted := (permute16_spec fun i => (words i).1).2
  simp only [(words _).2] at permuted
  rw [drawPair]
  dsimp only [ofField]
  rw [lift_get, lift_get, permuted]
  rfl

theorem pack_val (a b : M31) :
    (a.val <<< 32 % uintModulus ||| b.val) % 2 ^ 64 = cm31Word ⟨a, b⟩ := by
  have canonical := val_small a
  have shifted : a.val <<< 32 < uintModulus := by
    rw [Nat.shiftLeft_eq, uintModulus]
    omega
  rw [Nat.mod_eq_of_lt shifted]
  exact Nat.mod_eq_of_lt (cm31Word_lt ⟨a, b⟩)

theorem drawSecureFelt_ofField (small : chan.nDraws < 2 ^ 32) :
    drawSecureFelt (ofField chan) =
      (qm31Word chan.drawSecureFelt.1, ofField chan.drawSecureFelt.2) := by
  have parts : chan.drawSecureFelt =
      (⟨⟨chan.cells 0, chan.cells 1⟩, ⟨chan.drawPair.2.cells 0, chan.drawPair.2.cells 1⟩⟩,
        chan.drawPair.2.drawPair.2) := rfl
  have next : chan.drawPair.2.nDraws < 2 ^ 32 := Nat.mod_lt _ (by decide)
  have shifted : cm31Word ⟨chan.cells 0, chan.cells 1⟩ <<< 64 < 2 ^ 128 := by
    have half := cm31Word_lt ⟨chan.cells 0, chan.cells 1⟩
    rw [Nat.shiftLeft_eq]
    omega
  rw [parts, drawSecureFelt, drawPair_ofField small]
  dsimp only
  rw [drawPair_ofField next]
  dsimp only
  rw [pack_val, pack_val, Nat.mod_eq_of_lt shifted, qm31Word, qm31PackC]

theorem fillQueries_ofField (small : chan.nDraws < 2 ^ 32) (logDomainSize n : ℕ) :
    fillQueries (ofField chan) (1 <<< logDomainSize - 1) n =
      ((chan.drawQueries logDomainSize n).1, ofField (chan.drawQueries logDomainSize n).2) := by
  have mask (w : ℕ) : w &&& (1 <<< logDomainSize - 1) = w % 2 ^ logDomainSize := by
    rw [Nat.one_shiftLeft, Nat.and_two_pow_sub_one_eq_mod]
  induction n using Nat.twoStepInduction generalizing chan with
  | zero => rfl
  | one =>
      rw [fillQueries, drawPair_ofField small]
      dsimp only
      rw [mask]
      rfl
  | more n ih _ =>
      have next : chan.drawPair.2.nDraws < 2 ^ 32 := Nat.mod_lt _ (by decide)
      rw [fillQueries, drawPair_ofField small]
      dsimp only
      rw [ih next, mask, mask]
      rfl

/-- Every block of the array is the chunk at its place. -/
theorem mixBlock_ofField (words : List UInt32) (c : ℕ) :
    mixBlock words (ofField chan) (8 * c) =
      ofField (chan.absorbBlock (((words.map UInt32.toNat).drop (8 * c)).take 8)) := by
  have sized : U32Block (((words.map UInt32.toNat).drop (8 * c)).take 8) := by
    refine ⟨List.length_take_le 8 _, ?_⟩
    intro word member
    exact toNat_fits words word (List.mem_of_mem_drop (List.mem_of_mem_take member))
  have length : (if words.length - 8 * c < 8 then words.length - 8 * c else 8) =
      (((words.map UInt32.toNat).drop (8 * c)).take 8).length := by
    rw [List.length_take, List.length_drop, List.length_map]
    split <;> omega
  rw [mixBlock, length]
  refine absorbBlock_ofField sized ?_ rfl
  intro j inside
  dsimp only
  rw [if_pos inside]
  rw [List.length_take, List.length_drop, List.length_map] at inside
  have place : 8 * c + j.val < words.length := by omega
  rw [List.getElem?_take_of_lt j.isLt, List.getElem?_drop, List.getElem?_map,
    List.getD_eq_getElem?_getD, List.getElem?_eq_getElem place]
  rfl

theorem foldl_mixBlock_ofField (words : List UInt32) (places : List ℕ) :
    places.foldl (fun st c => mixBlock words st (8 * c)) (ofField chan) =
      ofField ((places.map fun c => ((words.map UInt32.toNat).drop (8 * c)).take 8).foldl
        FieldChannel.absorbBlock chan) := by
  induction places generalizing chan with
  | nil => rfl
  | cons c places ih => rw [List.foldl_cons, mixBlock_ofField, ih, List.map_cons, List.foldl_cons]

theorem mixU32s_ofField (words : List UInt32) :
    mixU32s (ofField chan) words =
      ofField (chan.absorb (chunksOfEight (words.map UInt32.toNat))) := by
  rw [mixU32s, foldl_mixBlock_ofField, FieldChannel.absorb, chunksOfEight, List.length_map]
  rfl

theorem mixRoot_ofField (root : Bytes32) :
    mixRoot (ofField chan) root = ofField (chan.absorb [[rootWord root 7]]) := by
  have held : Holds (fun i => if i = 0 then root.toNat &&& (2 ^ 32 - 1) else 0)
      [rootWord root 7] := by
    intro i inside
    have first : i = 0 := Fin.ext (Nat.lt_one_iff.mp inside)
    subst first
    dsimp only
    rw [if_pos rfl, Nat.and_two_pow_sub_one_eq_mod]
    rfl
  have one : [rootWord root 7].length = 1 := rfl
  rw [mixRoot, absorbBlock_ofField (rootWord_block root) held one, FieldChannel.absorb,
    List.foldl_cons, List.foldl_nil, ofField, ofField]

theorem absorbAll8_ofField (root : Bytes32) :
    absorbAll8 (ofField chan) root = ofField (chan.absorb [(List.range 8).map (rootWord root)]) := by
  have held : Holds (fun i => root.toNat >>> (224 - 32 * i.val) &&& (2 ^ 32 - 1))
      ((List.range 8).map (rootWord root)) := by
    intro i _
    dsimp only
    rw [List.getElem?_map, List.getElem?_range i.isLt, Nat.and_two_pow_sub_one_eq_mod]
    rfl
  have eight : ((List.range 8).map (rootWord root)).length = 8 := by simp
  rw [absorbAll8, absorbBlock_ofField (rootWords_block root) held eight, FieldChannel.absorb,
    List.foldl_cons, List.foldl_nil, ofField, ofField]

/-- One operation on a channel whose counter is a `u32`. -/
theorem step_ofField {op : ChannelOp} (domain : op.SmallDomain) (small : chan.nDraws < 2 ^ 32) :
    step (ofField chan) op = some ((chan.step op).1, ofField (chan.step op).2) := by
  cases op with
  | mixRoot root =>
      rw [step, mixRoot_ofField]
      rfl
  | mixRootW root =>
      rw [step, mixRootW, absorbAll8_ofField]
      rfl
  | mixRootFull root =>
      rw [step, mixRootFull, absorbAll8_ofField]
      rfl
  | mixU32s words =>
      rw [step, mixU32s_ofField]
      rfl
  | drawSecureFelt =>
      rw [step, drawSecureFelt_ofField small]
      rfl
  | drawQueries logDomainSize nQueries =>
      have accepted : logDomainSize ≤ 31 := domain
      rw [step, drawQueries, if_pos accepted, fillQueries_ofField small]
      rfl

/-- Absorptions reset the counter and draws let it wrap. -/
theorem step_nDraws (op : ChannelOp) (small : chan.nDraws < 2 ^ 32) :
    (chan.step op).2.nDraws < 2 ^ 32 := by
  have wraps (n : ℕ) : n % 2 ^ 32 < 2 ^ 32 := Nat.mod_lt _ (by decide)
  cases op with
  | mixRoot root => exact Nat.two_pow_pos 32
  | mixRootW root => exact Nat.two_pow_pos 32
  | mixRootFull root => exact Nat.two_pow_pos 32
  | mixU32s words => exact Nat.two_pow_pos 32
  | drawSecureFelt => exact wraps _
  | drawQueries logDomainSize nQueries =>
      rw [FieldChannel.step]
      dsimp only
      induction nQueries using Nat.twoStepInduction generalizing chan with
      | zero => exact small
      | one => exact wraps _
      | more n ih _ => exact @ih chan.drawPair.2 (wraps _)

/-- The draws of the contract are those of the channel over residues. -/
theorem draws_ofField {ops : List ChannelOp} (domain : ∀ op ∈ ops, op.SmallDomain)
    (small : chan.nDraws < 2 ^ 32) : draws (ofField chan) ops = some (chan.draws ops) := by
  induction ops generalizing chan with
  | nil => rfl
  | cons op ops ih =>
      rw [List.forall_mem_cons] at domain
      have later := ih domain.2 (step_nDraws op small)
      rw [draws, step_ofField domain.1 small, Option.bind_eq_bind, Option.bind_some]
      dsimp only
      rw [later]
      rfl

/-- Contract and prover agree: in the permutation, which is the one over
residues, in the sponge, and in the draws of every sequence of operations that
asks for indices of at most 31 bits and draws at most `2^31` pairs between two
absorptions.  Without the second bound the draws of the contract are still those
of the channel over residues. -/
theorem t16_backend_agrees :
    (∀ s : Cells ℕ, (∀ i, s.get i < 2 ^ 32) →
      permute16Exact s = some (permute16 s) ∧
        ∀ i, (permute16 s).get i = (poseidon2 constantT16 (fun i => (s.get i : M31)) i).val) ∧
    (∀ s : Cells ℕ, (∀ i, Canonical (s.get i)) → permute16 s = Stwo.permuteT16 s) ∧
    (∀ (values : List UInt32) (k : Fin 8),
      sponge8 (values.map UInt32.toNat) k =
        (Stwo.spongeT16 (values.map UInt32.toNat)).get (k.castLE (by decide))) ∧
    (∀ ops : List ChannelOp, (∀ op ∈ ops, op.SmallDomain) →
      draws init ops = some (FieldChannel.init.draws ops) ∧
        (Paced 0 ops → draws init ops = some (P2T16Channel.init.draws ops))) := by
  refine ⟨?_, ?_, ?_, ?_⟩
  · intro s small
    have spec := permute16_spec small
    refine ⟨spec.1, ?_⟩
    intro i
    rw [spec.2, lift_get]
  · intro s canonical
    exact permute16_canonical canonical
  · intro values k
    rw [sponge8, sponge8State_eq]
  · intro ops domain
    have fresh : Cells.of (fun _ : Fin 16 => 0) = lift 0 := Stwo.lift_eq fun i => Cells.get_of _ i
    have contract : init = ofField FieldChannel.init := by
      rw [init, fresh, ofField, FieldChannel.init]
    have prover : P2T16Channel.init = FieldChannel.init.toWords := by
      rw [P2T16Channel.init, fresh, FieldChannel.toWords, FieldChannel.init]
    have drawn := draws_ofField domain (show FieldChannel.init.nDraws < 2 ^ 32 from Nat.two_pow_pos 32)
    rw [← contract] at drawn
    refine ⟨drawn, ?_⟩
    intro paced
    rw [drawn, prover, FieldChannel.draws_toWords domain paced]

/-- A transcript with two roots, an element and five queries. -/
def sampleOps : List ChannelOp :=
  [.mixRootFull 1, .mixRoot 2, .drawSecureFelt, .mixU32s [1, 2, 3], .drawQueries 20 5]

theorem t16_backend_sample :
    permute16Exact (Cells.of fun _ => 2 ^ 32 - 1) = some (permute16 (Cells.of fun _ => 2 ^ 32 - 1)) ∧
      permute16 (Cells.of fun i => i.val) = Stwo.permuteT16 (Cells.of fun i => i.val) ∧
      draws init sampleOps = some (P2T16Channel.init.draws sampleOps) := by
  refine ⟨(t16_backend_agrees.1 _ ?_).1, t16_backend_agrees.2.1 _ ?_,
    (t16_backend_agrees.2.2.2 sampleOps ?_).2 ?_⟩
  · intro i
    rw [Cells.get_of]
    decide
  · intro i
    rw [Cells.get_of]
    exact i.isLt.trans (by decide)
  · simp [sampleOps, ChannelOp.SmallDomain]
  · simp [sampleOps, Paced, ChannelOp.counter]

/-- The contract refuses a domain of `2^32` points, and the prover answers. -/
theorem t16_wide_domain :
    ¬ ∀ ops : List ChannelOp, draws init ops = some (P2T16Channel.init.draws ops) := by
  intro agrees
  have refused : draws init [.drawQueries 32 1] = none := rfl
  have same := agrees [.drawQueries 32 1]
  rw [refused] at same
  cases same

end Poseidon2ChannelT16
end Contracts
end QLSA
