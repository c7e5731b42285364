import QLSA.Merkle.LevelPaths
import QLSA.Recursive.CompositionT8
import QLSA.Vfri2.FriChain

namespace QLSA
namespace Vfri2

open Mersenne Hash Stwo
open Recursive.CompositionT8 (qm31LeafHashT8)

/-!
# Paths of committed values

The levels of a tree over a power of two leaves are even below the root, so
every index has its sibling.  Whatever is kept by pairing holds of all nodes of
the tree, and so of the siblings: here, that their words are canonical.  A path
of such nodes is the path of words that a circuit recomputes.
-/

/-! ## Paths through even levels -/

section Levels

variable {pair : Bytes32 → Bytes32 → Bytes32} {p : Bytes32 → Prop}

/-- The siblings of an index, one from every level below the root, and where
they lead. -/
theorem proofPath_spec (closed : ∀ left right, p left → p right → p (pair left right))
    {height : ℕ} {level : List Bytes32} (count : level.length = 2 ^ height)
    (nodes : ∀ node ∈ level, p node) {index : ℕ} {leaf root : Bytes32}
    (leafAt : level[index]? = some leaf) (top : Merkle.apex pair level = some root) :
    ∃ siblings, proofPath (Merkle.levelsFrom pair level) index = .ok siblings ∧
      siblings.length = height ∧ (∀ sibling ∈ siblings, p sibling) ∧
      Merkle.pathRoot pair leaf siblings (Merkle.indexBits height index) = root := by
  induction height generalizing level index leaf with
  | zero =>
      rcases List.length_eq_one_iff.mp count with ⟨node, rfl⟩
      have first : index = 0 := by
        have inside := (List.getElem?_eq_some_iff.mp leafAt).1
        simpa using inside
      subst first
      cases leafAt
      rw [Merkle.apex_singleton] at top
      cases top
      refine ⟨[], ?_, rfl, nofun, rfl⟩
      rw [Merkle.levelsFrom]
      rfl
  | succ height ih =>
      have positive := Nat.two_pow_pos height
      have wide : 1 < level.length := by
        rw [count, pow_succ]
        omega
      have half : (Merkle.pairUp pair level).length = 2 ^ height := by
        rw [Merkle.pairUp_length, count, pow_succ]
        omega
      have inside : index < 2 ^ (height + 1) := by
        rw [← count]
        exact (List.getElem?_eq_some_iff.mp leafAt).1
      have beside : index ^^^ 1 < 2 ^ (height + 1) :=
        Nat.xor_lt_two_pow inside (Nat.one_lt_two_pow (Nat.succ_ne_zero height))
      have present : ∃ sibling, level[index ^^^ 1]? = some sibling :=
        ⟨_, List.getElem?_eq_getElem (count ▸ beside)⟩
      rcases present with ⟨sibling, siblingAt⟩
      have place : min (index ^^^ 1) (level.length - 1) = index ^^^ 1 := by
        rw [count]
        omega
      have parentAt := Merkle.pairUp_getElem? pair leafAt (place ▸ siblingAt)
      rw [Merkle.apex_of_wide pair wide] at top
      rcases ih half (Merkle.pairUp_forall pair closed nodes) parentAt top with
        ⟨above, read, length, kept, climbed⟩
      have below : (Merkle.levelsFrom pair level).dropLast =
          level :: (Merkle.levelsFrom pair (Merkle.pairUp pair level)).dropLast := by
        rw [Merkle.levelsFrom, if_pos wide]
        exact List.dropLast_cons_of_ne_nil (Merkle.levelsFrom_ne_nil pair _)
      refine ⟨sibling :: above, ?_, by rw [List.length_cons, length], ?_, ?_⟩
      · rw [proofPath] at read ⊢
        rw [below, proofThrough, siblingAt, read]
        rfl
      · exact List.forall_mem_cons.mpr ⟨nodes sibling (List.mem_of_getElem? siblingAt), kept⟩
      · rw [Merkle.indexBits, Merkle.pathRoot_cons]
        exact climbed

end Levels

/-- The bits the prover reads off an index. -/
theorem map_bits_eq_indexBits (count index : ℕ) :
    (List.range count).map (fun i => (index >>> i) &&& 1 == 1) = Merkle.indexBits count index := by
  apply List.ext_get
  · rw [List.length_map, List.length_range, Merkle.indexBits_length]
  · intro i first second
    rw [Merkle.indexBits_get, List.get_eq_getElem, List.getElem_map, List.getElem_range,
      Nat.and_one_is_mod, Nat.shiftRight_eq_div_pow]
    rfl

/-! ## Nodes of canonical words -/

def CanonicalNode (node : Bytes32) : Prop := (p2t8NodeWords node).All Canonical

theorem hashPairP2T8_of_canonical {left right : Bytes32} (first : CanonicalNode left)
    (second : CanonicalNode right) : hashPairP2T8 left right = fieldPair left right := by
  rw [hashPairP2T8, compressT8_of_canonical first second, fieldPair]

theorem hashPairP2T8_canonical (left right : Bytes32) (first : CanonicalNode left)
    (second : CanonicalNode right) : CanonicalNode (hashPairP2T8 left right) := by
  rw [hashPairP2T8_of_canonical first second]
  exact p2t8NodeWords_fieldPair left right

/-- The node of a pair packs the compression of the words. -/
theorem p2t8NodeWords_hashPair {left right : Bytes32} (first : CanonicalNode left)
    (second : CanonicalNode right) :
    p2t8NodeWords (hashPairP2T8 left right) =
      compressT8 (p2t8NodeWords left) (p2t8NodeWords right) := by
  rw [hashPairP2T8, compressT8_of_canonical first second, p2t8NodeWords_p2t8Pack (words_small _)]

/-- A path of nodes is the path of their words. -/
theorem p2t8NodeWords_pathRoot {leaf : Bytes32} {siblings : List Bytes32} (bits : List Bool)
    (canonical : CanonicalNode leaf) (kept : ∀ sibling ∈ siblings, CanonicalNode sibling) :
    p2t8NodeWords (Merkle.pathRoot hashPairP2T8 leaf siblings bits) =
      merklePathRootT8 (p2t8NodeWords leaf) (siblings.map p2t8NodeWords) bits := by
  rw [merklePathRootT8, norm4_eq_self canonical]
  induction siblings generalizing leaf bits with
  | nil => simp
  | cons sibling siblings ih =>
      rw [List.forall_mem_cons] at kept
      rcases kept with ⟨own, others⟩
      cases bits with
      | nil => rfl
      | cons bit bits =>
          rw [List.map_cons, List.map_cons, Merkle.pathRoot_cons, Merkle.pathRoot_cons,
            norm4_eq_self own]
          cases bit with
          | false =>
              rw [if_neg Bool.false_ne_true, if_neg Bool.false_ne_true,
                ← p2t8NodeWords_hashPair canonical own]
              exact ih bits (hashPairP2T8_canonical leaf sibling canonical own) others
          | true =>
              rw [if_pos rfl, if_pos rfl, ← p2t8NodeWords_hashPair own canonical]
              exact ih bits (hashPairP2T8_canonical sibling leaf own canonical) others

/-! ## Leaves -/

theorem absorbBlock_canonical {s : State ℕ} (cells : CanonicalCells s) (c0 c1 c2 c3 : ℕ) :
    CanonicalCells (absorbBlock s c0 c1 c2 c3) := by
  rcases cells with ⟨state, rfl⟩
  apply CanonicalCells.permute
  refine ⟨{ state with
    s0 := state.s0 + c0, s1 := state.s1 + c1, s2 := state.s2 + c2, s3 := state.s3 + c3 }, ?_⟩
  simp only [State.map, ← ZMod.val_natCast, Stwo.m31Add_val]

/-- The four limbs of a value are one block. -/
theorem spongeT8_limbs (value : ℕ) :
    spongeT8 (Recursive.Qm31.limbs value).toList =
      absorbBlock ⟨0, 0, 0, 0, 0, 0, 0, 0⟩ (value >>> 96 % 2 ^ 32) (value >>> 64 % 2 ^ 32)
        (value >>> 32 % 2 ^ 32) (value % 2 ^ 32) := rfl

theorem qm31LeafHashT8_canonical (value : ℕ) : (qm31LeafHashT8 value).All Canonical := by
  rw [qm31LeafHashT8, spongeT8_limbs]
  rcases absorbBlock_canonical P2T8Channel.init_cells (value >>> 96 % 2 ^ 32)
    (value >>> 64 % 2 ^ 32) (value >>> 32 % 2 ^ 32) (value % 2 ^ 32) with ⟨state, cells⟩
  rw [P2T8Channel.init] at cells
  rw [cells, State.map_left]
  exact words_canonical state.left

theorem p2t8NodeWords_hashLeafQm31 (value : ℕ) :
    p2t8NodeWords (hashLeafQm31P2T8 value) = qm31LeafHashT8 value := by
  have fits : (qm31LeafHashT8 value).All (· < 2 ^ 32) := by
    rcases qm31LeafHashT8_canonical value with ⟨first, second, third, fourth⟩
    have small : P ≤ 2 ^ 32 := by decide
    exact ⟨first.trans_le small, second.trans_le small, third.trans_le small,
      fourth.trans_le small⟩
  exact p2t8NodeWords_p2t8Pack fits

theorem hashLeafQm31P2T8_canonical (value : ℕ) : CanonicalNode (hashLeafQm31P2T8 value) := by
  rw [CanonicalNode, p2t8NodeWords_hashLeafQm31]
  exact qm31LeafHashT8_canonical value

end Vfri2
end QLSA
