import QLSA.Core.Batch
import QLSA.Merkle.LevelPaths
import Mathlib.Data.List.Induction

namespace QLSA
namespace Core

/-!
# Proofs in the SHA3 tree

The tree over a batch is kept level by level.  A proof names the sibling on each
level and the side it stands on; whoever checks it hashes upwards and compares
with the root.  Every leaf has such a proof.  Conversely an accepted proof
retraces the levels downwards: a digest of a level is that of two neighbours of
the level below, and leaves are told from inner nodes by the first byte that is
hashed.  This uses no more than that the strings hashed on both sides do not
collide.
-/

section Program

variable (sha3_512 : Bytes → Bytes)

/-- `_hash_leaf`. -/
def hashLeaf (data : Bytes) : Bytes := sha3_512 (0 :: data)

/-- `_hash_node`. -/
def hashNode (left right : Bytes) : Bytes := sha3_512 (1 :: (left ++ right))

/-- A level of even width, with its last node repeated where needed. -/
def evenLevel (level : List Bytes) : List Bytes :=
  if level.length % 2 = 1 then level ++ level.getLast?.toList else level

/-- The neighbours of a level, two at a time. -/
def neighbours (level : List Bytes) : List (Bytes × Bytes) :=
  (List.range ((evenLevel level).length / 2)).map fun i =>
    ((evenLevel level).getD (2 * i) [], (evenLevel level).getD (2 * i + 1) [])

def nextLevel (level : List Bytes) : List Bytes :=
  (neighbours level).map fun pair => hashNode sha3_512 pair.1 pair.2

theorem evenLevel_length (level : List Bytes) :
    (evenLevel level).length = 2 * ((level.length + 1) / 2) := by
  unfold evenLevel
  split
  case isTrue odd =>
    have nonempty : level ≠ [] := by
      rintro rfl
      exact absurd odd (by decide)
    rw [List.getLast?_eq_some_getLast nonempty, List.length_append]
    simp only [Option.toList_some, List.length_singleton]
    omega
  case isFalse even => omega

theorem nextLevel_length (level : List Bytes) :
    (nextLevel sha3_512 level).length = (level.length + 1) / 2 := by
  rw [nextLevel, List.length_map, neighbours, List.length_map, List.length_range,
    evenLevel_length]
  omega

/-- The loop over the levels. -/
def buildLevels (current : List Bytes) : List (List Bytes) :=
  if 1 < current.length then current :: buildLevels (nextLevel sha3_512 current) else [current]
termination_by current.length
decreasing_by
  rw [nextLevel_length]
  omega

def buildMerkleTree (leaves : List Bytes) : Except String (List (List Bytes)) :=
  if leaves = [] then .error "Cannot build Merkle tree from empty list"
  else .ok (buildLevels sha3_512 (leaves.map (hashLeaf sha3_512)))

def getMerkleRoot (tree : List (List Bytes)) : Option Bytes := tree.getLast?.bind List.head?

/-- The loop over the levels below the root. -/
def proofThrough : List (List Bytes) → ℕ → Except String (List (Bytes × String))
  | [], _ => .ok []
  | level :: levels, index =>
      let place := if index % 2 = 0 then (index + 1, "right") else (index - 1, "left")
      match (evenLevel level)[place.1]? with
      | none => .error "list index out of range"
      | some sibling => (proofThrough levels (index / 2)).map ((sibling, place.2) :: ·)

def getMerkleProof (tree : List (List Bytes)) (index : ℤ) :
    Except String (List (Bytes × String)) :=
  match tree.head? with
  | none => .error "list index out of range"
  | some level =>
      if index < 0 ∨ (level.length : ℤ) ≤ index then
        .error s!"leaf index {index} is out of range [0, {level.length})"
      else proofThrough tree.dropLast index.toNat

/-- One step of the check. -/
def climb (current : Bytes) (entry : Bytes × String) : Bytes :=
  if entry.2 = "right" then hashNode sha3_512 current entry.1
  else hashNode sha3_512 entry.1 current

def verifyMerkleProof (leaf : Bytes) (proof : List (Bytes × String)) (root : Bytes) : Bool :=
  proof.foldl (climb sha3_512) (hashLeaf sha3_512 leaf) = root

end Program

/-! ## The levels -/

section Levels

variable (sha3_512 : Bytes → Bytes)

theorem evenLevel_cons_cons (left right : Bytes) (rest : List Bytes) :
    evenLevel (left :: right :: rest) = left :: right :: evenLevel rest := by
  unfold evenLevel
  have parity : (left :: right :: rest).length % 2 = rest.length % 2 := by
    simp only [List.length_cons]
    omega
  rw [parity]
  split
  case isTrue odd =>
    cases rest with
    | nil => exact absurd odd (by decide)
    | cons first rest => simp only [List.getLast?_cons_cons, List.cons_append]
  case isFalse => rfl

theorem neighbours_cons_cons (left right : Bytes) (rest : List Bytes) :
    neighbours (left :: right :: rest) = (left, right) :: neighbours rest := by
  unfold neighbours
  rw [evenLevel_cons_cons]
  have count : (left :: right :: evenLevel rest).length / 2 = (evenLevel rest).length / 2 + 1 := by
    simp only [List.length_cons]
    omega
  rw [count, List.range_succ_eq_map, List.map_cons, List.map_map]
  congr 1

theorem neighbours_singleton (last : Bytes) : neighbours [last] = [(last, last)] := by
  simp [neighbours, evenLevel]

/-- The levels of the program are those of the tree that pairs up neighbours. -/
theorem nextLevel_eq (level : List Bytes) :
    nextLevel sha3_512 level = Merkle.pairUp (hashNode sha3_512) level := by
  induction level using Merkle.pairUp.induct with
  | case1 => rfl
  | case2 last =>
      rw [nextLevel, neighbours_singleton]
      rfl
  | case3 left right rest ih =>
      rw [Merkle.pairUp, ← ih]
      simp only [nextLevel, neighbours_cons_cons, List.map_cons]

theorem buildLevels_eq (level : List Bytes) (nonempty : level ≠ []) :
    buildLevels sha3_512 level = Merkle.levelsFrom (hashNode sha3_512) level := by
  induction level, nonempty using Merkle.level_induction (hashNode sha3_512) with
  | single node =>
      rw [buildLevels, Merkle.levelsFrom]
      rfl
  | step level nonempty wide ih =>
      rw [buildLevels, if_pos wide, nextLevel_eq, ih]
      conv_rhs => rw [Merkle.levelsFrom, if_pos wide]

/-- Both neighbours are nodes of their level. -/
theorem mem_of_neighbours {level : List Bytes} {pair : Bytes × Bytes}
    (member : pair ∈ neighbours level) : pair.1 ∈ level ∧ pair.2 ∈ level := by
  induction level using Merkle.pairUp.induct with
  | case1 => exact absurd member List.not_mem_nil
  | case2 last =>
      rw [neighbours_singleton] at member
      obtain rfl : pair = (last, last) := List.mem_singleton.mp member
      exact ⟨List.mem_singleton_self _, List.mem_singleton_self _⟩
  | case3 left right rest ih =>
      rw [neighbours_cons_cons] at member
      rcases List.mem_cons.mp member with rfl | later
      · exact ⟨by simp, by simp⟩
      · exact ⟨by simp [(ih later).1], by simp [(ih later).2]⟩

/-- The sibling that a proof names is the one its level was paired up with. -/
theorem evenLevel_sibling {level : List Bytes} {index : ℕ} (inside : index < level.length) :
    (evenLevel level)[if index % 2 = 0 then index + 1 else index - 1]? =
      level[min (index ^^^ 1) (level.length - 1)]? := by
  have kept (place : ℕ) (within : place < level.length) :
      (evenLevel level)[place]? = level[place]? := by
    unfold evenLevel
    split
    case isTrue => exact List.getElem?_append_left within
    case isFalse => rfl
  rcases Nat.even_or_odd index with even | odd
  · rw [if_pos (Nat.even_iff.mp even), Nat.xor_one_of_even even]
    by_cases paired : index + 1 < level.length
    · rw [kept _ paired, min_eq_left (by omega)]
    · have width : level.length = index + 1 := by omega
      have single : level.length % 2 = 1 := by
        have parity := Nat.even_iff.mp even
        omega
      have last : level.getLast? = level[index]? := by
        rw [List.getLast?_eq_getElem?, width, Nat.add_sub_cancel]
      rw [evenLevel, if_pos single, List.getElem?_append_right (by omega), width, Nat.sub_self,
        min_eq_right (by omega), Nat.add_sub_cancel, last]
      cases level[index]? <;> rfl
  · have parity := Nat.odd_iff.mp odd
    rw [if_neg (by omega), Nat.xor_one_of_odd odd, kept _ (by omega), min_eq_left (by omega)]

end Levels

/-! ## Every leaf has a proof -/

section Completeness

variable (sha3_512 : Bytes → Bytes)

/-- The entries that `getMerkleProof` collects lead from a leaf to the root. -/
theorem proofThrough_spec (level : List Bytes) (nonempty : level ≠ []) {index : ℕ}
    {leaf root : Bytes} (leafAt : level[index]? = some leaf)
    (top : Merkle.apex (hashNode sha3_512) level = some root) :
    ∃ proof,
      proofThrough (Merkle.levelsFrom (hashNode sha3_512) level).dropLast index = .ok proof ∧
        proof.foldl (climb sha3_512) leaf = root := by
  induction level, nonempty using Merkle.level_induction (hashNode sha3_512)
    generalizing index leaf with
  | single node =>
      rw [Merkle.apex_singleton] at top
      have first : index = 0 := by
        have inside := (List.getElem?_eq_some_iff.mp leafAt).1
        simp only [List.length_singleton] at inside
        omega
      subst first
      cases leafAt
      cases top
      refine ⟨[], ?_, rfl⟩
      rw [Merkle.levelsFrom]
      rfl
  | step level nonempty wide ih =>
      rw [Merkle.apex_of_wide _ wide] at top
      have inside : index < level.length := (List.getElem?_eq_some_iff.mp leafAt).1
      rcases Merkle.sibling_exists nonempty index with ⟨sibling, siblingAt⟩
      have parentAt := Merkle.pairUp_getElem? (hashNode sha3_512) leafAt siblingAt
      rcases ih parentAt top with ⟨above, read, climbed⟩
      have below : (Merkle.levelsFrom (hashNode sha3_512) level).dropLast =
          level :: (Merkle.levelsFrom (hashNode sha3_512)
            (Merkle.pairUp (hashNode sha3_512) level)).dropLast := by
        rw [Merkle.levelsFrom, if_pos wide]
        exact List.dropLast_cons_of_ne_nil (Merkle.levelsFrom_ne_nil _ _)
      have named := evenLevel_sibling inside
      rw [siblingAt] at named
      refine ⟨(sibling, if index % 2 = 0 then "right" else "left") :: above, ?_, ?_⟩
      · rw [below, proofThrough, read]
        by_cases even : index % 2 = 0
        · rw [if_pos even] at named
          simp only [if_pos even, named]
          rfl
        · rw [if_neg even] at named
          simp only [if_neg even, named]
          rfl
      · rw [List.foldl_cons, ← climbed]
        congr 1
        by_cases even : index % 2 = 0
        · simp [climb, even]
        · simp [climb, (by omega : index % 2 = 1)]

end Completeness

/-! ## Accepted proofs retrace the levels -/

section Soundness

variable (sha3_512 : Bytes → Bytes)

/-- The string that a step of the check hashes. -/
def climbString (current : Bytes) (entry : Bytes × String) : Bytes :=
  if entry.2 = "right" then 1 :: (current ++ entry.1) else 1 :: (entry.1 ++ current)

/-- The strings that a check hashes after the leaf's. -/
def climbStrings : Bytes → List (Bytes × String) → List Bytes
  | _, [] => []
  | current, entry :: rest =>
      climbString current entry :: climbStrings (climb sha3_512 current entry) rest

/-- The strings that are hashed to build a tree. -/
def treeStrings (leaves : List Bytes) : List Bytes :=
  leaves.map (fun data => 0 :: data) ++
    (buildLevels sha3_512 (leaves.map (hashLeaf sha3_512))).dropLast.flatMap fun level =>
      (neighbours level).map fun pair => 1 :: (pair.1 ++ pair.2)

/-- All strings hashed on either side. -/
def hashedStrings (leaves : List Bytes) (leaf : Bytes) (proof : List (Bytes × String)) :
    List Bytes :=
  treeStrings sha3_512 leaves ++
    (0 :: leaf) :: climbStrings sha3_512 (hashLeaf sha3_512 leaf) proof

/-- The hash tells the strings of a list apart.  The list is always the one that a tree and a
proof hash, so this is a condition on finitely many strings. -/
def CollisionFree (strings : List Bytes) : Prop :=
  ∀ first ∈ strings, ∀ second ∈ strings, sha3_512 first = sha3_512 second → first = second

instance (strings : List Bytes) : Decidable (CollisionFree sha3_512 strings) :=
  inferInstanceAs (Decidable (∀ _ ∈ strings, ∀ _ ∈ strings, _ → _))

theorem climb_eq (current : Bytes) (entry : Bytes × String) :
    climb sha3_512 current entry = sha3_512 (climbString current entry) := by
  unfold climb climbString hashNode
  split <;> rfl

theorem climbStrings_concat (current : Bytes) (proof : List (Bytes × String))
    (entry : Bytes × String) : climbStrings sha3_512 current (proof ++ [entry]) =
      climbStrings sha3_512 current proof ++
        [climbString (proof.foldl (climb sha3_512) current) entry] := by
  induction proof generalizing current with
  | nil => rfl
  | cons first rest ih =>
      rw [List.cons_append, climbStrings, climbStrings, ih]
      rfl

theorem levelsFrom_first (level : List Bytes) :
    (Merkle.levelsFrom (hashNode sha3_512) level)[0]? = some level := by
  rw [Merkle.levelsFrom]
  split <;> rfl

/-- A level above the leaves holds the digests of neighbours of the level below. -/
theorem levelsFrom_succ (level : List Bytes) (nonempty : level ≠ []) {j : ℕ} {upper : List Bytes}
    (found : (Merkle.levelsFrom (hashNode sha3_512) level)[j + 1]? = some upper) :
    ∃ lower, (Merkle.levelsFrom (hashNode sha3_512) level)[j]? = some lower ∧
      lower ∈ (Merkle.levelsFrom (hashNode sha3_512) level).dropLast ∧
      upper = nextLevel sha3_512 lower := by
  induction level, nonempty using Merkle.level_induction (hashNode sha3_512)
    generalizing j with
  | single node =>
      rw [Merkle.levelsFrom, if_neg (by simp)] at found
      simp at found
  | step level nonempty wide ih =>
      have below : Merkle.levelsFrom (hashNode sha3_512) level =
          level :: Merkle.levelsFrom (hashNode sha3_512)
            (Merkle.pairUp (hashNode sha3_512) level) := by
        rw [Merkle.levelsFrom, if_pos wide]
      have ends := Merkle.levelsFrom_ne_nil (hashNode sha3_512)
        (Merkle.pairUp (hashNode sha3_512) level)
      rw [below] at found ⊢
      rw [List.dropLast_cons_of_ne_nil ends]
      rw [List.getElem?_cons_succ] at found
      cases j with
      | zero =>
          refine ⟨level, rfl, List.mem_cons_self, ?_⟩
          rw [nextLevel_eq]
          rw [levelsFrom_first] at found
          exact (Option.some.inj found).symm
      | succ j =>
          rcases ih found with ⟨lower, at_, member, next⟩
          exact ⟨lower, at_, List.mem_cons_of_mem _ member, next⟩

variable {sha3_512} (digests : ∀ string, (sha3_512 string).length = 64)
include digests

theorem foldl_climb_length {current : Bytes} (own : current.length = 64)
    (proof : List (Bytes × String)) : (proof.foldl (climb sha3_512) current).length = 64 := by
  induction proof generalizing current with
  | nil => exact own
  | cons entry rest ih =>
      refine ih ?_
      rw [climb_eq]
      exact digests _

/-- Nodes of every level are digests. -/
theorem level_digests {leaves : List Bytes} (nonempty : leaves ≠ []) {j : ℕ} {level : List Bytes}
    (found : (Merkle.levelsFrom (hashNode sha3_512)
      (leaves.map (hashLeaf sha3_512)))[j]? = some level) {node : Bytes} (member : node ∈ level) :
    node.length = 64 := by
  have mapped : leaves.map (hashLeaf sha3_512) ≠ [] := by simpa using nonempty
  cases j with
  | zero =>
      rw [levelsFrom_first] at found
      rw [← Option.some.inj found] at member
      rcases List.mem_map.mp member with ⟨data, -, rfl⟩
      exact digests _
  | succ j =>
      rcases levelsFrom_succ sha3_512 _ mapped found with ⟨lower, -, -, rfl⟩
      rcases List.mem_map.mp member with ⟨pair, -, rfl⟩
      exact digests _

/-- A digest reached on a level has come from a leaf, one step for each level. -/
theorem descend {leaves : List Bytes} (nonempty : leaves ≠ []) {strings : List Bytes}
    (collisionFree : CollisionFree sha3_512 strings)
    (ofTree : ∀ string ∈ treeStrings sha3_512 leaves, string ∈ strings) {leaf : Bytes}
    (ofLeaf : 0 :: leaf ∈ strings) {proof : List (Bytes × String)}
    (ofProof : ∀ string ∈ climbStrings sha3_512 (hashLeaf sha3_512 leaf) proof, string ∈ strings)
    (siblings : ∀ entry ∈ proof, entry.1.length = 64) {j : ℕ} {level : List Bytes}
    (found : (Merkle.levelsFrom (hashNode sha3_512)
      (leaves.map (hashLeaf sha3_512)))[j]? = some level)
    (reached : proof.foldl (climb sha3_512) (hashLeaf sha3_512 leaf) ∈ level) :
    leaf ∈ leaves ∧ proof.length = j := by
  have mapped : leaves.map (hashLeaf sha3_512) ≠ [] := by simpa using nonempty
  have ofLeaves (data : Bytes) (own : data ∈ leaves) : 0 :: data ∈ strings :=
    ofTree _ (List.mem_append_left _ (List.mem_map.mpr ⟨data, own, rfl⟩))
  have ofNode {lower : List Bytes} (below : lower ∈ (Merkle.levelsFrom (hashNode sha3_512)
      (leaves.map (hashLeaf sha3_512))).dropLast) {pair : Bytes × Bytes}
      (own : pair ∈ neighbours lower) : 1 :: (pair.1 ++ pair.2) ∈ strings := by
    refine ofTree _ (List.mem_append_right _ (List.mem_flatMap.mpr ⟨lower, ?_, ?_⟩))
    · rw [buildLevels_eq sha3_512 _ mapped]
      exact below
    · exact List.mem_map.mpr ⟨pair, own, rfl⟩
  induction proof using List.reverseRecOn generalizing j level with
  | nil =>
      cases j with
      | zero =>
          rw [levelsFrom_first] at found
          rw [← Option.some.inj found] at reached
          rcases List.mem_map.mp reached with ⟨data, own, same⟩
          have strings := collisionFree _ (ofLeaves data own) _ ofLeaf same
          rw [List.cons.injEq] at strings
          exact ⟨strings.2 ▸ own, rfl⟩
      | succ j =>
          rcases levelsFrom_succ sha3_512 _ mapped found with ⟨lower, -, below, rfl⟩
          rcases List.mem_map.mp reached with ⟨pair, own, same⟩
          have strings := collisionFree _ (ofNode below own) _ ofLeaf same
          rw [List.cons.injEq] at strings
          exact absurd strings.1 (by decide)
  | append_singleton proof entry ih =>
      rw [climbStrings_concat] at ofProof
      rw [List.foldl_append, List.foldl_cons, List.foldl_nil, climb_eq] at reached
      have last := ofProof _ (List.mem_append_right _ (List.mem_singleton_self _))
      have width := foldl_climb_length digests (digests (0 :: leaf)) proof
      have sibling := siblings entry (List.mem_append_right _ (List.mem_singleton_self _))
      have step {k : ℕ} {lower : List Bytes} (at_ : (Merkle.levelsFrom (hashNode sha3_512)
          (leaves.map (hashLeaf sha3_512)))[k]? = some lower)
          (own : proof.foldl (climb sha3_512) (hashLeaf sha3_512 leaf) ∈ lower) :
          leaf ∈ leaves ∧ proof.length = k :=
        ih (fun string member => ofProof string (List.mem_append_left _ member))
          (fun entry member => siblings entry (List.mem_append_left _ member)) at_ own
      cases j with
      | zero =>
          rw [levelsFrom_first] at found
          rw [← Option.some.inj found] at reached
          rcases List.mem_map.mp reached with ⟨data, own, same⟩
          have strings := collisionFree _ (ofLeaves data own) _ last same
          unfold climbString at strings
          split at strings
          case isTrue => exact absurd (List.cons.inj strings).1 (by decide)
          case isFalse => exact absurd (List.cons.inj strings).1 (by decide)
      | succ j =>
          rcases levelsFrom_succ sha3_512 _ mapped found with ⟨lower, at_, below, rfl⟩
          rcases List.mem_map.mp reached with ⟨pair, own, same⟩
          have strings := collisionFree _ (ofNode below own) _ last same
          rcases mem_of_neighbours own with ⟨left, right⟩
          have first := level_digests digests nonempty at_ left
          have arrived : proof.foldl (climb sha3_512) (hashLeaf sha3_512 leaf) ∈ lower := by
            unfold climbString at strings
            split at strings
            case isTrue =>
              rw [← (List.append_inj (List.cons.inj strings).2 (first.trans width.symm)).1]
              exact left
            case isFalse =>
              rw [← (List.append_inj (List.cons.inj strings).2 (first.trans sibling.symm)).2]
              exact right
          rcases step at_ arrived with ⟨member, count⟩
          exact ⟨member, by rw [List.length_append, count]; rfl⟩

end Soundness

/-! ## Proofs of membership -/

/-- Every leaf has an accepted proof, and an accepted proof is of a leaf and as long as the tree
is high, unless the strings hashed collide.  The hash is any function to strings of 64 bytes,
leaves are any strings, and collisions are excluded only among the strings hashed for the tree and
along the proof. -/
theorem merkle_proofs_exact {sha3_512 : Bytes → Bytes}
    (digests : ∀ string, (sha3_512 string).length = 64) {leaves : List Bytes}
    (nonempty : leaves ≠ []) :
    ∃ tree root, buildMerkleTree sha3_512 leaves = .ok tree ∧ getMerkleRoot tree = some root ∧
      (∀ (i : ℕ) (leaf : Bytes), leaves[i]? = some leaf →
        ∃ proof, getMerkleProof tree i = .ok proof ∧
          verifyMerkleProof sha3_512 leaf proof root = true) ∧
      ∀ (leaf : Bytes) (proof : List (Bytes × String)),
        CollisionFree sha3_512 (hashedStrings sha3_512 leaves leaf proof) →
        (∀ entry ∈ proof, entry.1.length = 64) → verifyMerkleProof sha3_512 leaf proof root = true →
        leaf ∈ leaves ∧ proof.length = tree.length - 1 := by
  have mapped : leaves.map (hashLeaf sha3_512) ≠ [] := by simpa using nonempty
  rcases Merkle.levelsFrom_getLast (hashNode sha3_512) _ mapped with ⟨root, top, last⟩
  refine ⟨Merkle.levelsFrom (hashNode sha3_512) (leaves.map (hashLeaf sha3_512)), root, ?_, ?_,
    ?_, ?_⟩
  · rw [buildMerkleTree, if_neg nonempty, buildLevels_eq sha3_512 _ mapped]
  · rw [getMerkleRoot, last]
    rfl
  · intro i leaf leafAt
    have digestAt : (leaves.map (hashLeaf sha3_512))[i]? = some (hashLeaf sha3_512 leaf) := by
      rw [List.getElem?_map, leafAt]
      rfl
    rcases proofThrough_spec sha3_512 _ mapped digestAt top with ⟨proof, read, climbed⟩
    have inside : i < (leaves.map (hashLeaf sha3_512)).length :=
      (List.getElem?_eq_some_iff.mp digestAt).1
    have first := levelsFrom_first sha3_512 (leaves.map (hashLeaf sha3_512))
    refine ⟨proof, ?_, ?_⟩
    · rw [getMerkleProof, List.head?_eq_getElem?, first]
      simp only [Int.toNat_natCast, read]
      exact if_neg (by omega)
    · rw [verifyMerkleProof, climbed]
      exact decide_eq_true rfl
  · intro leaf proof collisionFree siblings accepted
    have climbed : proof.foldl (climb sha3_512) (hashLeaf sha3_512 leaf) = root :=
      of_decide_eq_true accepted
    rw [List.getLast?_eq_getElem?] at last
    refine descend digests nonempty collisionFree (fun string member => ?_) ?_
      (fun string member => ?_) siblings last ?_
    · exact List.mem_append_left _ member
    · exact List.mem_append_right _ List.mem_cons_self
    · exact List.mem_append_right _ (List.mem_cons_of_mem _ member)
    · rw [climbed]
      exact List.mem_singleton_self root

/-- The digests of a tree of two one-byte leaves. -/
def sampleDigest (string : Bytes) : Bytes :=
  if string = [0, 1] then
    bigEndian 32 0x23a5743ea4136810a2dd503252708d35151259c859bcb7ac46f5f120429983d1 ++
      bigEndian 32 0x4736ffbec6bf8f174977b44b0c5b73378ea88a4ec1f7aa295c04b5db9017ca48
  else if string = [0, 2] then
    bigEndian 32 0x99a0a95b57d0226cc3617af1235152ea8f9c19cb6471111e609466b3b50f9995 ++
      bigEndian 32 0x4ab00073a4b8d9fe08420111accdbba26e8efe8ffc1d80a1bb112a217f651a8e
  else
    bigEndian 32 0x89dfdf0ca33f7f738f17574d8536704c9ca8033f1c2dd85a3556710f09790ffd ++
      bigEndian 32 0x74ffa29a8e88faa605fd97c94b82515543e172d4e21f1869c5d9f19089d2d9e8

theorem merkle_proofs_exact_two : ∃ tree root, buildMerkleTree sampleDigest [[1], [2]] = .ok tree ∧
    getMerkleRoot tree = some root ∧
    ([1] ∈ [[(1 : Byte)], [2]] ∧ [(sampleDigest [0, 2], "right")].length = tree.length - 1) := by
  have digests (string : Bytes) : (sampleDigest string).length = 64 := by
    unfold sampleDigest
    split
    · decide
    · split <;> decide
  have levels : buildLevels sampleDigest ([[1], [2]].map (hashLeaf sampleDigest)) =
      [[sampleDigest [0, 1], sampleDigest [0, 2]],
        [sampleDigest (1 :: (sampleDigest [0, 1] ++ sampleDigest [0, 2]))]] := by
    rw [buildLevels, if_pos (by decide), buildLevels, if_neg (by decide)]
    rfl
  rcases merkle_proofs_exact digests (List.cons_ne_nil [1] [[2]]) with
    ⟨tree, root, built, found, -, sound⟩
  have stored := built
  rw [buildMerkleTree, if_neg (List.cons_ne_nil _ _), levels, Except.ok.injEq] at stored
  refine ⟨tree, root, built, found, sound [1] [(sampleDigest [0, 2], "right")] ?_ ?_ ?_⟩
  · rw [hashedStrings, treeStrings, levels]
    decide +kernel
  · intro entry member
    rw [List.mem_singleton.mp member]
    exact digests [0, 2]
  · rw [← stored] at found
    rw [← Option.some.inj found]
    decide +kernel

end Core
end QLSA
