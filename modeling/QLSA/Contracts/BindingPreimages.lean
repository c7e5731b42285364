import QLSA.Contracts.BatchRegistryV7
import QLSA.Machine.PackedBytes
import QLSA.Vfri2.RecursionInputs

namespace QLSA
namespace Contracts

open Stwo Recursive Machine
open Vfri2 (Vfri11ChannelInputs)

/-!
# Bytes behind the bindings

A proof is tied to a statement by a digest of packed fields.  All fields but
the lists have fixed widths, and both lists come with their lengths and consist
of records of one width, so the bytes determine the statement as long as the
narrowing casts keep the values: the range checks of the replay see to that for
the inner publics, and the length of the updates is the only cast of the nonce
statement.  The prover feeds the same bytes to its hasher piece by piece.
-/

/-! ## Preimages -/

/-- One argument of `abi.encodePacked`; arrays are encoded in place. -/
inductive PackedArgument where
  | bytes (value : List Byte)
  | bytes16 (value : ℕ)
  | bytes32 (value : Bytes32)
  | bytes32Array (values : List Bytes32)
  | uint32 (value : ℕ)
  | uint64 (value : U64)

def PackedArgument.encode : PackedArgument → List Byte
  | .bytes value => value
  | .bytes16 value => bigEndian 16 value
  | .bytes32 value => bigEndian 32 value.toNat
  | .bytes32Array values => values.flatMap fun value => bigEndian 32 value.toNat
  | .uint32 value => bigEndian 4 value
  | .uint64 value => bigEndian 8 value.val

def encodePacked (arguments : List PackedArgument) : List Byte :=
  arguments.flatMap PackedArgument.encode

/-- What `outerBindingRoot` hashes. -/
def outerBindingPreimage (inner : InnerPublics Bytes32) : List Byte :=
  encodePacked [.bytes32 inner.traceRoot, .bytes16 inner.oodsComboPos,
    .bytes16 inner.oodsComboNeg, .bytes32 inner.compRoot,
    .uint32 (inner.friLayerRoots.length % 2 ^ 32), .bytes32Array inner.friLayerRoots,
    .bytes32 inner.batchRoot, .uint32 (inner.treeDepth % 2 ^ 32), .uint32 (inner.nQueries % 2 ^ 32)]

/-- What `nonceStatementBinding` hashes: the loop packs its own buffer again. -/
def nonceStatementPreimage (oldRoot newRoot : Bytes32) (depth : ℕ)
    (updates : List (NonceUpdate Bytes32)) : List Byte :=
  updates.foldl
    (fun buf update => encodePacked [.bytes buf, .uint32 update.index, .uint64 update.oldNonce,
      .uint64 update.newNonce, .bytes32 update.postRoot])
    (encodePacked [.uint32 (updates.length % 2 ^ 32), .uint32 depth, .bytes32 oldRoot,
      .bytes32 newRoot])

/-- The bytes that a hasher has been fed, after one more piece. -/
def hasherUpdate (hashed piece : List Byte) : List Byte := hashed ++ piece

/-- `outer_binding_root` -/
def outerBindingUpdates (inp : Vfri11ChannelInputs) : List Byte :=
  let h := hasherUpdate [] (bigEndian 32 inp.traceRoot.toNat)
  let h := hasherUpdate h (bigEndian 16 inp.oodsComboPos)
  let h := hasherUpdate h (bigEndian 16 inp.oodsComboNeg)
  let h := hasherUpdate h (bigEndian 32 inp.compRoot.toNat)
  let h := hasherUpdate h (bigEndian 4 (inp.friLayerRoots.length % 2 ^ 32))
  let h := inp.friLayerRoots.foldl (fun h r => hasherUpdate h (bigEndian 32 r.toNat)) h
  let h := hasherUpdate h (bigEndian 32 inp.batchRoot.toNat)
  let h := hasherUpdate h (bigEndian 4 inp.treeDepth)
  hasherUpdate h (bigEndian 4 (inp.nQueries % 2 ^ 32))

/-- `nonce_statement_binding` -/
def nonceStatementUpdates (oldRoot newRoot : Bytes32) (depth : ℕ)
    (updates : List (NonceUpdate Bytes32)) : List Byte :=
  let h := hasherUpdate [] (bigEndian 4 (updates.length % 2 ^ 32))
  let h := hasherUpdate h (bigEndian 4 depth)
  let h := hasherUpdate h (bigEndian 32 oldRoot.toNat)
  let h := hasherUpdate h (bigEndian 32 newRoot.toNat)
  updates.foldl (fun h u =>
    let h := hasherUpdate h (bigEndian 4 u.index)
    let h := hasherUpdate h (bigEndian 8 u.oldNonce.val)
    let h := hasherUpdate h (bigEndian 8 u.newNonce.val)
    hasherUpdate h (bigEndian 32 u.postRoot.toNat)) h

/-- The prover's form of the same public fields. -/
def channelInputs (inner : InnerPublics Bytes32) : Vfri11ChannelInputs where
  traceRoot := inner.traceRoot
  oodsComboPos := inner.oodsComboPos
  oodsComboNeg := inner.oodsComboNeg
  compRoot := inner.compRoot
  friLayerRoots := inner.friLayerRoots
  batchRoot := inner.batchRoot
  treeDepth := inner.treeDepth
  nQueries := inner.nQueries

/-- The requirements that the replay makes before it touches the channel. -/
def replayRequirements (inner : InnerPublics Bytes32) : Except String Unit :=
  if ¬ (2 ≤ inner.treeDepth ∧ inner.treeDepth ≤ 30) then .error "RCR: treeDepth out of range"
  else if ¬ (1 ≤ inner.nQueries ∧ inner.nQueries ≤ 64) then .error "RCR: nQueries out of range"
  else if ¬ 1 ≤ inner.friLayerRoots.length then .error "RCR: need >= 1 fri layer root"
  else if ¬ inner.friLayerRoots.length ≤ 29 then .error "RCR: too many fri layer roots"
  else .ok ()

/-- The combinations are `uint128`. -/
structure InnerPublics.Typed (inner : InnerPublics Bytes32) : Prop where
  pos : inner.oodsComboPos < 2 ^ 128
  neg : inner.oodsComboNeg < 2 ^ 128

/-- The depth and the slots of a nonce statement are `uint32`. -/
structure TypedStatement (statement : NonceStatement Bytes32) : Prop where
  depth : statement.depth < 2 ^ 32
  index : ∀ update ∈ statement.updates, update.index < 2 ^ 32

/-! ## The same bytes -/

/-- Feeding records one by one. -/
theorem foldl_hasherUpdate {α : Type*} (record : α → List Byte) (list : List α) (h : List Byte) :
    list.foldl (fun h a => hasherUpdate h (record a)) h = h ++ list.flatMap record := by
  induction list generalizing h with
  | nil => rw [List.foldl_nil, List.flatMap_nil, List.append_nil]
  | cons a rest ih => rw [List.foldl_cons, ih, hasherUpdate, List.append_assoc, List.flatMap_cons]

/-- The depth is a `u32` where the prover holds it. -/
theorem outerBindingUpdates_eq {inner : InnerPublics Bytes32} (narrow : inner.treeDepth < 2 ^ 32) :
    outerBindingUpdates (channelInputs inner) = outerBindingPreimage inner := by
  rw [outerBindingPreimage, Nat.mod_eq_of_lt narrow]
  simp only [outerBindingUpdates, foldl_hasherUpdate]
  simp [hasherUpdate, channelInputs, encodePacked, PackedArgument.encode]

/-- The bytes of one update. -/
def updateRecord (u : NonceUpdate Bytes32) : List Byte :=
  bigEndian 4 u.index ++ bigEndian 8 u.oldNonce.val ++ bigEndian 8 u.newNonce.val ++
    bigEndian 32 u.postRoot.toNat

/-- The bytes before the updates. -/
def statementHeader (oldRoot newRoot : Bytes32) (depth count : ℕ) : List Byte :=
  bigEndian 4 (count % 2 ^ 32) ++ bigEndian 4 depth ++ bigEndian 32 oldRoot.toNat ++
    bigEndian 32 newRoot.toNat

section Statement

variable (oldRoot newRoot : Bytes32) (depth : ℕ) (updates : List (NonceUpdate Bytes32))

theorem nonceStatementPreimage_eq : nonceStatementPreimage oldRoot newRoot depth updates =
    statementHeader oldRoot newRoot depth updates.length ++ updates.flatMap updateRecord := by
  rw [← foldl_hasherUpdate]
  simp [nonceStatementPreimage, encodePacked, PackedArgument.encode, hasherUpdate, statementHeader,
    updateRecord]

theorem nonceStatementUpdates_eq : nonceStatementUpdates oldRoot newRoot depth updates =
    nonceStatementPreimage oldRoot newRoot depth updates := by
  rw [nonceStatementPreimage_eq, ← foldl_hasherUpdate]
  simp [nonceStatementUpdates, hasherUpdate, statementHeader, updateRecord]

theorem packedUpdate_bytes (u : NonceUpdate Bytes32) :
    (packedUpdate u).flatMap PackedField.bytes = updateRecord u := by
  have index : (PackedField.uint32 u.index : PackedField Bytes32).bytes = bigEndian 4 u.index := rfl
  have nonce (n : U64) : (PackedField.uint64 n : PackedField Bytes32).bytes =
      bigEndian 8 n.val := rfl
  have root : (PackedField.bytes32 u.postRoot).bytes = bigEndian 32 u.postRoot.toNat := rfl
  simp only [packedUpdate, List.flatMap_cons, List.flatMap_nil, index, nonce, root, updateRecord,
    List.append_nil, List.append_assoc]

/-- The registry's binding is the digest of these bytes. -/
theorem nonceStatementBinding_eq (keccak256 : List (BitVec 8) → Bytes32) :
    nonceStatementBinding (Digests.ofKeccak keccak256) oldRoot newRoot depth updates =
      keccak256 (nonceStatementPreimage oldRoot newRoot depth updates) := by
  have word (value : ℕ) : (PackedField.uint32 value : PackedField Bytes32).bytes =
      bigEndian 4 value := rfl
  have root (value : Bytes32) : (PackedField.bytes32 value).bytes = bigEndian 32 value.toNat := rfl
  rw [nonceStatementPreimage_eq, nonceStatementBinding]
  simp only [Digests.ofKeccak, List.flatMap_append, List.flatMap_assoc, packedUpdate_bytes,
    List.flatMap_cons, List.flatMap_nil, word, root, statementHeader, List.append_nil,
    List.append_assoc]

end Statement

/-! ## The bytes determine the fields -/

theorem bigEndian32_injective {first second : Bytes32}
    (same : bigEndian 32 first.toNat = bigEndian 32 second.toNat) : first = second :=
  BitVec.eq_of_toNat_eq (bigEndian_injective first.isLt second.isLt same)

/-- Fields of one width split off. -/
theorem split_field {count first second : ℕ} {rest later : List Byte}
    (same : bigEndian count first ++ rest = bigEndian count second ++ later) :
    bigEndian count first = bigEndian count second ∧ rest = later :=
  List.append_inj same (by rw [bigEndian_length, bigEndian_length])

theorem replayRequirements_ok {inner : InnerPublics Bytes32}
    (accepted : replayRequirements inner = .ok ()) :
    inner.treeDepth ≤ 30 ∧ inner.nQueries ≤ 64 ∧ inner.friLayerRoots.length ≤ 29 := by
  unfold replayRequirements at accepted
  split_ifs at accepted with depth queries some many
  exact ⟨depth.2, queries.2, many⟩

/-- Inner publics that pass the replay's requirements are known from the bytes. -/
theorem outerBindingPreimage_injective {first second : InnerPublics Bytes32}
    (typed : first.Typed) (typed' : second.Typed) (accepted : replayRequirements first = .ok ())
    (accepted' : replayRequirements second = .ok ())
    (same : outerBindingPreimage first = outerBindingPreimage second) : first = second := by
  rcases replayRequirements_ok accepted with ⟨depth, queries, roots⟩
  rcases replayRequirements_ok accepted' with ⟨depth', queries', roots'⟩
  have narrow {n : ℕ} (small : n ≤ 64) : n % 2 ^ 32 = n := Nat.mod_eq_of_lt (by omega)
  simp only [outerBindingPreimage, encodePacked, List.flatMap_cons, List.flatMap_nil,
    PackedArgument.encode, List.append_nil, narrow queries, narrow queries',
    narrow (depth.trans (by decide)), narrow (depth'.trans (by decide)),
    narrow (roots.trans (by decide)), narrow (roots'.trans (by decide))] at same
  rcases List.append_inj same (by simp) with ⟨traceRoot, same⟩
  rcases split_field same with ⟨pos, same⟩
  rcases split_field same with ⟨neg, same⟩
  rcases split_field same with ⟨compRoot, same⟩
  rcases split_field same with ⟨count, same⟩
  have width (root : Bytes32) : (bigEndian 32 root.toNat).length = 32 := bigEndian_length 32 _
  have counts : first.friLayerRoots.length = second.friLayerRoots.length :=
    bigEndian_injective (by omega) (by omega) count
  rcases List.append_inj same (by rw [flatMap_length width, flatMap_length width, counts])
    with ⟨friLayerRoots, same⟩
  rcases split_field same with ⟨batchRoot, same⟩
  rcases split_field same with ⟨treeDepth, nQueries⟩
  have depths : first.treeDepth = second.treeDepth :=
    bigEndian_injective (by omega) (by omega) treeDepth
  have numbers : first.nQueries = second.nQueries :=
    bigEndian_injective (by omega) (by omega) nQueries
  rcases first with ⟨_, _, _, _, _, _, _, _⟩
  rcases second with ⟨_, _, _, _, _, _, _, _⟩
  rw [InnerPublics.mk.injEq]
  exact ⟨bigEndian32_injective traceRoot, bigEndian_injective typed.pos typed'.pos pos,
    bigEndian_injective typed.neg typed'.neg neg, bigEndian32_injective compRoot,
    flatMap_injective width (by decide) (fun _ _ _ _ => bigEndian32_injective) friLayerRoots,
    bigEndian32_injective batchRoot, depths, numbers⟩

theorem updateRecord_length (u : NonceUpdate Bytes32) : (updateRecord u).length = 52 := by
  simp only [updateRecord, List.length_append, bigEndian_length]

theorem updateRecord_injective {first second : NonceUpdate Bytes32} (narrow : first.index < 2 ^ 32)
    (narrow' : second.index < 2 ^ 32) (same : updateRecord first = updateRecord second) :
    first = second := by
  simp only [updateRecord, List.append_assoc] at same
  rcases split_field same with ⟨index, same⟩
  rcases split_field same with ⟨oldNonce, same⟩
  rcases split_field same with ⟨newNonce, postRoot⟩
  rcases first with ⟨_, _, _, _⟩
  rcases second with ⟨_, _, _, _⟩
  rw [NonceUpdate.mk.injEq]
  exact ⟨bigEndian_injective narrow narrow' index,
    Fin.ext (bigEndian_injective (Fin.isLt _) (Fin.isLt _) oldNonce),
    Fin.ext (bigEndian_injective (Fin.isLt _) (Fin.isLt _) newNonce),
    bigEndian32_injective postRoot⟩

/-- A nonce statement is known from the bytes; the records alone give away how
many updates there are. -/
theorem nonceStatementPreimage_injective {first second : NonceStatement Bytes32}
    (typed : TypedStatement first) (typed' : TypedStatement second)
    (same : nonceStatementPreimage first.oldRoot first.newRoot first.depth first.updates =
      nonceStatementPreimage second.oldRoot second.newRoot second.depth second.updates) :
    first = second := by
  simp only [nonceStatementPreimage_eq, statementHeader, List.append_assoc] at same
  rcases split_field same with ⟨-, same⟩
  rcases split_field same with ⟨depth, same⟩
  rcases split_field same with ⟨oldRoot, same⟩
  rcases split_field same with ⟨newRoot, updates⟩
  rcases first with ⟨_, _, _, _⟩
  rcases second with ⟨_, _, _, _⟩
  rw [NonceStatement.mk.injEq]
  exact ⟨bigEndian32_injective oldRoot, bigEndian32_injective newRoot,
    flatMap_injective updateRecord_length (by decide)
      (fun u inside v within =>
        updateRecord_injective (typed.index u inside) (typed'.index v within)) updates,
    bigEndian_injective typed.depth typed'.depth depth⟩

/-- What is hashed commits to every public field, and both languages hash the same bytes.  This is
about the strings, before any hash: bundles that pass the requirements of the replay and hash the
same bytes are the same bundle, and so are statements of a transition; the Rust updates and the
Solidity packing write one string. -/
theorem binding_preimages_commit :
    (∀ first second : InnerPublics Bytes32, first.Typed → second.Typed →
      replayRequirements first = .ok () → replayRequirements second = .ok () →
      outerBindingPreimage first = outerBindingPreimage second → first = second) ∧
    (∀ inner : InnerPublics Bytes32, inner.treeDepth < 2 ^ 32 →
      outerBindingUpdates (channelInputs inner) = outerBindingPreimage inner) ∧
    (∀ first second : NonceStatement Bytes32, TypedStatement first → TypedStatement second →
      nonceStatementPreimage first.oldRoot first.newRoot first.depth first.updates =
        nonceStatementPreimage second.oldRoot second.newRoot second.depth second.updates →
      first = second) ∧
    ∀ statement : NonceStatement Bytes32,
      nonceStatementUpdates statement.oldRoot statement.newRoot statement.depth
          statement.updates =
        nonceStatementPreimage statement.oldRoot statement.newRoot statement.depth
          statement.updates :=
  ⟨fun _ _ typed typed' accepted accepted' =>
      outerBindingPreimage_injective typed typed' accepted accepted',
    fun _ narrow => outerBindingUpdates_eq narrow,
    fun _ _ typed typed' => nonceStatementPreimage_injective typed typed',
    fun _ => nonceStatementUpdates_eq _ _ _ _⟩

/-- Publics with one fold root, and with two. -/
def publicsWith (friLayerRoots : List Bytes32) : InnerPublics Bytes32 :=
  ⟨1, 2, 3, 4, friLayerRoots, 5, 2, 1⟩

theorem fold_roots_committed :
    outerBindingPreimage (publicsWith [6]) ≠ outerBindingPreimage (publicsWith [6, 5]) ∧
      nonceStatementPreimage 1 2 4 [⟨0, 1, 2, 3⟩] ≠ nonceStatementPreimage 1 2 4 [⟨1, 1, 2, 3⟩] ∧
      outerBindingUpdates (channelInputs (publicsWith [6])) =
        outerBindingPreimage (publicsWith [6]) := by
  have two : 2 < 2 ^ 128 := by decide
  have three : 3 < 2 ^ 128 := by decide
  have typed (roots : List Bytes32) : (publicsWith roots).Typed := ⟨two, three⟩
  refine ⟨?_, ?_, binding_preimages_commit.2.1 _ (by decide)⟩
  · intro same
    have equal := binding_preimages_commit.1 _ _ (typed _) (typed _) rfl rfl same
    cases congrArg (fun inner => inner.friLayerRoots.length) equal
  · intro same
    have equal := binding_preimages_commit.2.2.1 ⟨1, 2, [⟨0, 1, 2, 3⟩], 4⟩
      ⟨1, 2, [⟨1, 1, 2, 3⟩], 4⟩ ⟨by decide, by decide⟩ ⟨by decide, by decide⟩ same
    cases congrArg (fun statement => statement.updates.map NonceUpdate.index) equal

end Contracts
end QLSA
