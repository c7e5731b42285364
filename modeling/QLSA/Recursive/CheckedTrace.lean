import QLSA.Machine.Fallible
import QLSA.Recursive.NonceUpdateRuns
import QLSA.Recursive.NonceUpdateTrace
import QLSA.Stwo.NonceChain

namespace QLSA
namespace Recursive
namespace NonceUpdateT8

open Hash Machine Mersenne Stwo

/-!
# Witnesses that are checked before they are proved

The statement of a batch is made from its transitions, and a witness is
compared with the statement link by link before the trace is filled.  The pins
come from slot indices and nonces, the trace from siblings and direction bits.
No comparison relates the bits of a transition to its index.
-/

/-! ## The checks -/

/-- An update of the statement. -/
def updateOf (t : NonceTransition Bytes32) : NonceUpdate (Quad ℕ) :=
  ⟨t.index, t.oldNonce, t.newNonce, p2t8NodeWords t.postRoot⟩

/-- The loop over the depths of the paths. -/
def checkDepths (depth : ℕ) : ℕ → List (NonceTransition Bytes32) → Except String Unit :=
  checkAll fun i t =>
    if t.bits.length ≠ depth ∨ t.sibs.length ≠ depth then
      some s!"update {i}: path has {t.bits.length} steps, expected depth {depth}"
    else none

def fromTransitions (transitions : List (NonceTransition Bytes32)) (oldRoot newRoot : Bytes32)
    (depth : ℕ) : Except String (NonceStatement (Quad ℕ)) := do
  validateCount transitions.length
  validateDepth depth
  checkDepths depth 0 transitions
  return ⟨p2t8NodeWords oldRoot, p2t8NodeWords newRoot, transitions.map updateOf, depth⟩

/-- The comparison of each link with its update and the root before it. -/
def checkLinks (depth : ℕ) :
    ℕ → List (NonceTransition Bytes32 × NonceUpdate (Quad ℕ) × Quad ℕ) → Except String Unit :=
  checkAll fun i (t, u, pre) =>
    if t.index ≠ u.index ∨ t.oldNonce ≠ u.oldNonce ∨ t.newNonce ≠ u.newNonce then
      some s!"transition {i} does not match update {i}"
    else if p2t8NodeWords t.preRoot ≠ pre ∨ p2t8NodeWords t.postRoot ≠ u.postRoot then
      some s!"transition {i}: roots do not match the statement"
    else if t.bits.length ≠ depth ∨ t.sibs.length ≠ depth then
      some s!"transition {i}: path depth is not {depth}"
    else none

/-- The comparison of the roots that the lanes reach with the pinned ones. -/
def checkReached :
    ℕ → List ((Quad ℕ × Quad ℕ) × PinnedUpdate (Quad ℕ)) → Except String Unit :=
  checkAll fun i ((pre, post), p) =>
    if pre ≠ p.preRoot then some s!"update {i}: the old leaf does not reach the pre-root"
    else if post ≠ p.postRoot then some s!"update {i}: the new leaf does not reach the post-root"
    else none

/-- Leaves of the pins, with the siblings and bits of the transitions. -/
def witnessOf (pins : List (PinnedUpdate (Quad ℕ))) (transitions : List (NonceTransition Bytes32)) :
    Witness where
  oldLeaves := pins.map PinnedUpdate.oldLeaf
  newLeaves := pins.map PinnedUpdate.newLeaf
  sibs := transitions.map fun t => t.sibs.map p2t8NodeWords
  bits := transitions.map NonceTransition.bits

/-- `checked_trace`: the trace and its preprocessed columns, once the witness describes the
statement.  Counts, indices, nonces, roots and lengths of paths are compared; the direction bits
are not. -/
def checkedTrace (st : NonceStatement (Quad ℕ)) (transitions : List (NonceTransition Bytes32))
    (logSize : ℕ) : Except String (Columns × Columns) :=
  match st.checkPublic with
  | some reason => .error reason
  | none =>
      if st.updates = [] then .error "an empty batch needs no proof"
      else if transitions.length ≠ st.updates.length then
        .error s!"{transitions.length} transitions for {st.updates.length} updates"
      else do
        checkLinks st.depth 0 (transitions.zip (st.updates.zip st.preRoots))
        let pins := st.pinnedUpdates nonceNodeWords
        let built ← buildTraceRaw (witnessOf pins transitions) logSize
        checkReached 0 (built.2.zip pins)
        let preproc ← buildPreproc pins st.depth logSize
        return (built.1, preproc)

/-! ## What the checks find -/

theorem checkDepths_ok_iff {depth i : ℕ} {transitions : List (NonceTransition Bytes32)} :
    checkDepths depth i transitions = .ok () ↔
      ∀ t ∈ transitions, t.bits.length = depth ∧ t.sibs.length = depth := by
  apply checkAll_ok_iff
  intro i t
  rw [ite_eq_right_iff]
  simp only [reduceCtorEq, imp_false, not_or, not_not]

/-- A transition that fits its update and the root before it. -/
structure Linked (depth : ℕ) (t : NonceTransition Bytes32) (u : NonceUpdate (Quad ℕ))
    (pre : Quad ℕ) : Prop where
  index : t.index = u.index
  oldNonce : t.oldNonce = u.oldNonce
  newNonce : t.newNonce = u.newNonce
  preRoot : p2t8NodeWords t.preRoot = pre
  postRoot : p2t8NodeWords t.postRoot = u.postRoot
  bits : t.bits.length = depth
  sibs : t.sibs.length = depth

theorem checkLinks_ok_iff {depth i : ℕ}
    {list : List (NonceTransition Bytes32 × NonceUpdate (Quad ℕ) × Quad ℕ)} :
    checkLinks depth i list = .ok () ↔
      ∀ entry ∈ list, Linked depth entry.1 entry.2.1 entry.2.2 := by
  apply checkAll_ok_iff
  rintro i ⟨t, u, pre⟩
  dsimp only
  constructor
  · intro faultless
    split at faultless
    case isTrue => contradiction
    case isFalse matched =>
      split at faultless
      case isTrue => contradiction
      case isFalse rooted =>
        split at faultless
        case isTrue => contradiction
        case isFalse deep =>
          simp only [not_or, not_not] at matched rooted deep
          exact ⟨matched.1, matched.2.1, matched.2.2, rooted.1, rooted.2, deep.1, deep.2⟩
  · intro linked
    rw [if_neg (by simp [linked.index, linked.oldNonce, linked.newNonce]),
      if_neg (by simp [linked.preRoot, linked.postRoot]), if_neg (by simp [linked.bits, linked.sibs])]

theorem checkReached_ok_iff {i : ℕ} {list : List ((Quad ℕ × Quad ℕ) × PinnedUpdate (Quad ℕ))} :
    checkReached i list = .ok () ↔
      ∀ entry ∈ list, entry.1.1 = entry.2.preRoot ∧ entry.1.2 = entry.2.postRoot := by
  apply checkAll_ok_iff
  rintro i ⟨⟨pre, post⟩, p⟩
  dsimp only
  by_cases before : pre = p.preRoot
  · by_cases after : post = p.postRoot <;> simp [before, after]
  · simp [before]

theorem validateDepth_ok_iff {depth : ℕ} :
    validateDepth depth = .ok () ↔ 1 ≤ depth ∧ depth ≤ updateAirMaxDepth := by
  have same : updateAirMaxDepth = maxDepth := rfl
  rw [validateDepth]
  split
  case isTrue outside => exact ⟨nofun, fun inside => by omega⟩
  case isFalse inside =>
    rw [if_neg (by omega)]
    exact ⟨fun _ => by omega, fun _ => rfl⟩

theorem validateCount_ok_iff {n : ℕ} : validateCount n = .ok () ↔ n ≤ maxUpdates := by
  rw [validateCount]
  split
  case isTrue many => exact ⟨nofun, fun few => by omega⟩
  case isFalse few => exact ⟨fun _ => by omega, fun _ => rfl⟩

theorem checkPublicUpdates_none_iff {depth i : ℕ} {updates : List (NonceUpdate (Quad ℕ))} :
    checkPublicUpdates depth i updates = none ↔
      ∀ u ∈ updates, u.index < 2 ^ depth ∧ u.oldNonce < u.newNonce := by
  induction updates generalizing i with
  | nil => simp [checkPublicUpdates]
  | cons u rest ih =>
      rw [List.forall_mem_cons, checkPublicUpdates, Nat.one_shiftLeft]
      split
      case isTrue outside => exact ⟨nofun, fun all => absurd all.1.1 (by omega)⟩
      case isFalse inside =>
        split
        case isTrue falls => exact ⟨nofun, fun all => absurd all.1.2 (not_lt.mpr falls)⟩
        case isFalse rises =>
          rw [ih]
          exact ⟨fun later => ⟨⟨by omega, not_le.mp rises⟩, later⟩, fun all => all.2⟩

/-- The public relations of a batch that is not empty. -/
structure Public (st : NonceStatement (Quad ℕ)) : Prop where
  count : st.updates.length ≤ maxUpdates
  depth : 1 ≤ st.depth ∧ st.depth ≤ updateAirMaxDepth
  updates : ∀ u ∈ st.updates, u.index < 2 ^ st.depth ∧ u.oldNonce < u.newNonce
  newRoot : ∀ last, st.updates.getLast? = some last → last.postRoot = st.newRoot

theorem checkPublic_none_iff {st : NonceStatement (Quad ℕ)} (nonempty : st.updates ≠ []) :
    st.checkPublic = none ↔ Public st := by
  have found := List.getLast?_eq_some_getLast nonempty
  rw [NonceStatement.checkPublic]
  cases counted : validateCount st.updates.length with
  | error message =>
      refine ⟨nofun, fun all => ?_⟩
      rw [validateCount_ok_iff.mpr all.count] at counted
      contradiction
  | ok =>
      dsimp only
      cases deep : validateDepth st.depth with
      | error message =>
          refine ⟨nofun, fun all => ?_⟩
          rw [validateDepth_ok_iff.mpr all.depth] at deep
          contradiction
      | ok =>
          rw [found]
          dsimp only
          cases each : checkPublicUpdates st.depth 0 st.updates with
          | some message =>
              refine ⟨nofun, fun all => ?_⟩
              rw [checkPublicUpdates_none_iff.mpr all.updates] at each
              contradiction
          | none =>
              dsimp only
              split
              case isTrue apart => exact ⟨nofun, fun all => absurd (all.newRoot _ found) apart⟩
              case isFalse meets =>
                refine ⟨fun _ => ⟨validateCount_ok_iff.mp counted, validateDepth_ok_iff.mp deep,
                  checkPublicUpdates_none_iff.mp each, ?_⟩, fun _ => rfl⟩
                intro last listed
                rw [found] at listed
                rw [← Option.some.inj listed]
                exact not_not.mp meets

/-! ## Pins -/

theorem preRootsFrom_length (previous : Quad ℕ) (updates : List (NonceUpdate (Quad ℕ))) :
    (preRootsFrom previous updates).length = updates.length := by
  induction updates generalizing previous with
  | nil => rfl
  | cons u rest ih => rw [preRootsFrom, List.length_cons, List.length_cons, ih]

theorem pinnedUpdates_length (st : NonceStatement (Quad ℕ)) :
    (st.pinnedUpdates nonceNodeWords).length = st.updates.length := by
  rw [NonceStatement.pinnedUpdates, List.length_zipWith, NonceStatement.preRoots,
    preRootsFrom_length, Nat.min_self]

/-- What the checked trace has found when it succeeds. -/
theorem checkedTrace_ok_iff {st : NonceStatement (Quad ℕ)}
    {transitions : List (NonceTransition Bytes32)} {logSize : ℕ} {main preproc : Columns} :
    checkedTrace st transitions logSize = .ok (main, preproc) ↔
      st.updates ≠ [] ∧ Public st ∧ transitions.length = st.updates.length ∧
      (∀ entry ∈ transitions.zip (st.updates.zip st.preRoots),
        Linked st.depth entry.1 entry.2.1 entry.2.2) ∧
      ∃ reached, buildTraceRaw (witnessOf (st.pinnedUpdates nonceNodeWords) transitions) logSize =
          .ok (main, reached) ∧
        (∀ entry ∈ reached.zip (st.pinnedUpdates nonceNodeWords),
          entry.1.1 = entry.2.preRoot ∧ entry.1.2 = entry.2.postRoot) ∧
        buildPreproc (st.pinnedUpdates nonceNodeWords) st.depth logSize = .ok preproc := by
  by_cases nonempty : st.updates = []
  · refine ⟨fun success => ?_, fun all => absurd nonempty all.1⟩
    rw [checkedTrace] at success
    split at success
    · contradiction
    · rw [if_pos nonempty] at success
      contradiction
  · rw [checkedTrace, ← checkPublic_none_iff nonempty]
    cases checked : st.checkPublic with
    | some reason => simp
    | none =>
        dsimp only
        rw [if_neg nonempty]
        by_cases lengths : transitions.length = st.updates.length
        · rw [if_neg (not_not.mpr lengths)]
          constructor
          · intro success
            rcases bind_eq_ok.mp success with ⟨⟨⟩, links, later⟩
            rcases bind_eq_ok.mp later with ⟨⟨columns, reached⟩, built, rest⟩
            rcases bind_eq_ok.mp rest with ⟨⟨⟩, landed, last⟩
            rcases bind_eq_ok.mp last with ⟨pinned, prebuilt, finished⟩
            cases finished
            exact ⟨nonempty, rfl, lengths, checkLinks_ok_iff.mp links, reached, built,
              checkReached_ok_iff.mp landed, prebuilt⟩
          · rintro ⟨-, -, -, links, reached, built, landed, prebuilt⟩
            refine bind_eq_ok.mpr ⟨(), checkLinks_ok_iff.mpr links, ?_⟩
            refine bind_eq_ok.mpr ⟨(main, reached), built, ?_⟩
            refine bind_eq_ok.mpr ⟨(), checkReached_ok_iff.mpr landed, ?_⟩
            exact bind_eq_ok.mpr ⟨preproc, prebuilt, rfl⟩
        · rw [if_pos lengths]
          exact ⟨nofun, fun all => absurd all.2.2.1 lengths⟩

/-! ## Larger traces -/

/-- A trace that fits a size fits larger ones. -/
theorem buildTraceRaw_grows {witness : Witness} {logSize larger : ℕ} (more : logSize ≤ larger)
    {main : Columns} {reached : List (Quad ℕ × Quad ℕ)}
    (built : buildTraceRaw witness logSize = .ok (main, reached)) :
    ∃ main, buildTraceRaw witness larger = .ok (main, reached) := by
  have room : 2 ^ logSize ≤ 2 ^ larger := Nat.pow_le_pow_right (by omega) more
  unfold buildTraceRaw at built ⊢
  dsimp only at built ⊢
  split_ifs at built with some lengths depth paths fits
  cases built
  rw [if_neg some, if_neg (not_not.mpr lengths), if_neg depth, if_neg (not_not.mpr paths), if_neg (by omega)]
  exact ⟨_, rfl⟩

theorem checkedTrace_grows {st : NonceStatement (Quad ℕ)}
    {transitions : List (NonceTransition Bytes32)} {logSize larger : ℕ} (more : logSize ≤ larger)
    (traced : ∃ traces, checkedTrace st transitions logSize = .ok traces) :
    ∃ traces, checkedTrace st transitions larger = .ok traces := by
  rcases traced with ⟨⟨main, preproc⟩, traced⟩
  rcases checkedTrace_ok_iff.mp traced with
    ⟨some, pub, lengths, linked, reached, built, ends, pinned⟩
  rcases buildTraceRaw_grows more built with ⟨grown, built⟩
  have room : 2 ^ logSize ≤ 2 ^ larger := Nat.pow_le_pow_right (by omega) more
  have repinned : ∃ preproc, buildPreproc (st.pinnedUpdates nonceNodeWords) st.depth larger =
      .ok preproc := by
    unfold buildPreproc at pinned ⊢
    split_ifs at pinned with depth fits
    rw [if_neg depth, if_neg (by omega)]
    exact ⟨_, rfl⟩
  rcases repinned with ⟨columns, pinned⟩
  exact ⟨(grown, columns), checkedTrace_ok_iff.mpr
    ⟨some, pub, lengths, linked, reached, built, ends, pinned⟩⟩

/-! ## An accepted witness -/

section Accepted

variable {st : NonceStatement (Quad ℕ)} {transitions : List (NonceTransition Bytes32)}
  {depth logSize : ℕ}

/-- The pin of an update. -/
def pinOf (u : NonceUpdate (Quad ℕ)) (pre : Quad ℕ) : PinnedUpdate (Quad ℕ) :=
  ⟨nonceNodeWords.leaf u.oldNonce, nonceNodeWords.leaf u.newNonce, u.index, pre, u.postRoot⟩

theorem linked_at (lengths : transitions.length = st.updates.length)
    (links : ∀ entry ∈ transitions.zip (st.updates.zip st.preRoots),
      Linked st.depth entry.1 entry.2.1 entry.2.2)
    {u : ℕ} {t : NonceTransition Bytes32} (found : transitions[u]? = some t) :
    ∃ up pre, Linked st.depth t up pre ∧
      (st.pinnedUpdates nonceNodeWords)[u]? = some (pinOf up pre) := by
  have inside : u < transitions.length := (List.getElem?_eq_some_iff.mp found).1
  have below : u < st.updates.length := lengths ▸ inside
  have within : u < st.preRoots.length := by
    rw [NonceStatement.preRoots, preRootsFrom_length]
    exact below
  have update : st.updates[u]? = some st.updates[u] := List.getElem?_eq_getElem below
  have root : st.preRoots[u]? = some st.preRoots[u] := List.getElem?_eq_getElem within
  have paired : (transitions.zip (st.updates.zip st.preRoots))[u]? =
      some (t, st.updates[u], st.preRoots[u]) := by
    rw [List.getElem?_zip_eq_some, List.getElem?_zip_eq_some]
    exact ⟨found, update, root⟩
  refine ⟨st.updates[u], st.preRoots[u], links _ (List.mem_of_getElem? paired), ?_⟩
  rw [NonceStatement.pinnedUpdates, List.getElem?_zipWith, update, root]
  rfl

/-- The trace is filled at the depth of the statement. -/
theorem valid_at_depth (nonempty : st.updates ≠ [])
    (lengths : transitions.length = st.updates.length)
    (links : ∀ entry ∈ transitions.zip (st.updates.zip st.preRoots),
      Linked st.depth entry.1 entry.2.1 entry.2.2)
    {nUp : ℕ} (valid : (witnessOf (st.pinnedUpdates nonceNodeWords) transitions).Valid nUp depth
      logSize) : depth = st.depth := by
  have inside : 0 < transitions.length := by
    rw [lengths]
    exact List.length_pos_iff.mpr nonempty
  have found : transitions[0]? = some transitions[0] := List.getElem?_eq_getElem inside
  rcases linked_at lengths links found with ⟨up, pre, linked, -⟩
  have first := valid.sibDepths (transitions[0].sibs.map p2t8NodeWords)
    (List.mem_map_of_mem (List.getElem_mem inside))
  rw [List.length_map, linked.sibs] at first
  exact first.symm

theorem reached_of_landed
    (valid : (witnessOf (st.pinnedUpdates nonceNodeWords) transitions).Valid
      (st.pinnedUpdates nonceNodeWords).length depth logSize)
    (landed : ∀ entry ∈ ((witnessOf (st.pinnedUpdates nonceNodeWords) transitions).built
        (st.pinnedUpdates nonceNodeWords).length depth logSize).2.zip
          (st.pinnedUpdates nonceNodeWords),
      entry.1.1 = entry.2.preRoot ∧ entry.1.2 = entry.2.postRoot)
    {u : ℕ} {up : PinnedUpdate (Quad ℕ)}
    (found : (st.pinnedUpdates nonceNodeWords)[u]? = some up) (side : Side) :
    ((witnessOf (st.pinnedUpdates nonceNodeWords) transitions).openings side).root u =
      side.root up := by
  have inside : u < (st.pinnedUpdates nonceNodeWords).length :=
    (List.getElem?_eq_some_iff.mp found).1
  rw [valid.reached] at landed
  have roots : ((List.range (st.pinnedUpdates nonceNodeWords).length).map fun u =>
      (((witnessOf (st.pinnedUpdates nonceNodeWords) transitions).openings .old).root u,
        ((witnessOf (st.pinnedUpdates nonceNodeWords) transitions).openings .new).root u))[u]? =
      some (((witnessOf (st.pinnedUpdates nonceNodeWords) transitions).openings .old).root u,
        ((witnessOf (st.pinnedUpdates nonceNodeWords) transitions).openings .new).root u) := by
    rw [List.getElem?_map, List.getElem?_range inside, Option.map_some]
  have same := landed (_, up) (List.mem_of_getElem? (List.getElem?_zip_eq_some.mpr
    ⟨roots, found⟩))
  cases side with
  | old => exact same.1
  | new => exact same.2

theorem describes_of_checked (lengths : transitions.length = st.updates.length)
    (links : ∀ entry ∈ transitions.zip (st.updates.zip st.preRoots),
      Linked st.depth entry.1 entry.2.1 entry.2.2)
    (valid : (witnessOf (st.pinnedUpdates nonceNodeWords) transitions).Valid
      (st.pinnedUpdates nonceNodeWords).length st.depth logSize)
    (landed : ∀ entry ∈ ((witnessOf (st.pinnedUpdates nonceNodeWords) transitions).built
        (st.pinnedUpdates nonceNodeWords).length st.depth logSize).2.zip
          (st.pinnedUpdates nonceNodeWords),
      entry.1.1 = entry.2.preRoot ∧ entry.1.2 = entry.2.postRoot)
    (digits : ∀ t ∈ transitions, t.bits = Merkle.indexBits st.depth t.index) :
    (witnessOf (st.pinnedUpdates nonceNodeWords) transitions).Describes
      (st.pinnedUpdates nonceNodeWords) st.depth where
  oldLeaves := rfl
  newLeaves := rfl
  bits := by
    apply List.ext_getElem?
    intro u
    rw [witnessOf, List.getElem?_map, List.getElem?_map]
    cases found : transitions[u]? with
    | none =>
        have after : (st.pinnedUpdates nonceNodeWords)[u]? = none := by
          rw [List.getElem?_eq_none_iff] at found ⊢
          rw [pinnedUpdates_length, ← lengths]
          exact found
        rw [after]
        rfl
    | some t =>
        rcases linked_at lengths links found with ⟨up, pre, linked, pinned⟩
        rw [pinned, Option.map_some, Option.map_some, digits t (List.mem_of_getElem? found),
          linked.index]
        rfl
  reached := fun _ _ found side => reached_of_landed valid landed found side

/-- The columns that the checks let through. -/
theorem checkedTrace_built {main preproc : Columns}
    (checked : checkedTrace st transitions logSize = .ok (main, preproc)) :
    Public st ∧ transitions.length = st.updates.length ∧
      (∀ entry ∈ transitions.zip (st.updates.zip st.preRoots),
        Linked st.depth entry.1 entry.2.1 entry.2.2) ∧
      (witnessOf (st.pinnedUpdates nonceNodeWords) transitions).Valid
        (st.pinnedUpdates nonceNodeWords).length st.depth logSize ∧
      (∀ entry ∈ ((witnessOf (st.pinnedUpdates nonceNodeWords) transitions).built
          (st.pinnedUpdates nonceNodeWords).length st.depth logSize).2.zip
            (st.pinnedUpdates nonceNodeWords),
        entry.1.1 = entry.2.preRoot ∧ entry.1.2 = entry.2.postRoot) ∧
      main = ((witnessOf (st.pinnedUpdates nonceNodeWords) transitions).built
        (st.pinnedUpdates nonceNodeWords).length st.depth logSize).1 ∧
      preproc = columnsOf (preprocWrites (st.pinnedUpdates nonceNodeWords) st.depth) := by
  rcases checkedTrace_ok_iff.mp checked with
    ⟨nonempty, relations, lengths, links, reached, built, landed, prebuilt⟩
  rcases buildTraceRaw_ok built with ⟨depth, valid, result⟩
  have deep := valid_at_depth nonempty lengths links valid
  have count : (witnessOf (st.pinnedUpdates nonceNodeWords) transitions).oldLeaves.length =
      (st.pinnedUpdates nonceNodeWords).length := List.length_map _
  rw [deep, count] at valid result
  rcases Prod.mk.inj result with ⟨columns, roots⟩
  rw [roots] at landed
  rcases buildPreproc_ok prebuilt with ⟨-, -, pins⟩
  exact ⟨relations, lengths, links, valid, landed, columns, pins⟩

/-- A witness that the checks accept, with the digits of its indices as bits, is proved. -/
theorem checkedTrace_satisfies {main preproc : Columns}
    (checked : checkedTrace st transitions logSize = .ok (main, preproc))
    (digits : ∀ t ∈ transitions, t.bits = Merkle.indexBits st.depth t.index) :
    Satisfies main preproc logSize := by
  rcases checkedTrace_built checked with ⟨relations, lengths, links, valid, landed, rfl, rfl⟩
  have narrow : st.depth ≤ 32 := relations.depth.2.trans (by decide)
  exact (describes_of_checked lengths links valid landed digits).satisfies valid narrow

/-- A bit of a filled trace that satisfies the constraints is the digit pinned for it. -/
theorem bit_digit {pins : List (PinnedUpdate (Quad ℕ))} {u j : ℕ} {t : NonceTransition Bytes32}
    {pin : PinnedUpdate (Quad ℕ)}
    (valid : (witnessOf pins transitions).Valid pins.length depth logSize)
    (satisfied : Satisfies ((witnessOf pins transitions).built pins.length depth logSize).1
      (columnsOf (preprocWrites pins depth)) logSize)
    (found : transitions[u]? = some t) (pinned : pins[u]? = some pin) (inside : j < depth) :
    t.bits.getD j false = decide (pin.index / 2 ^ j % 2 = 1) := by
  have below : u < pins.length := (List.getElem?_eq_some_iff.mp pinned).1
  have marked := preproc_firstComp pinned inside (r := 0) (by omega)
  have digit := preproc_idxBit pinned inside
  have fit := rows_inside pinned inside valid.fits
  rw [Nat.add_zero] at marked digit
  have same := satisfied.bit_eq (by omega) (marked.trans (if_pos rfl))
  have cell : ((witnessOf pins transitions).built pins.length depth logSize).1 cBit
      ((u * depth + j) * 22) =
      ((witnessOf pins transitions).sideRows pins.length depth logSize .old
        ((u * depth + j) * 22)).bit := rfl
  have own : ((witnessOf pins transitions).openings .old).bit u j = t.bits.getD j false := by
    change ((transitions.map NonceTransition.bits).getD u []).getD j false = _
    rw [@List.getD_eq_getElem?_getD _ (transitions.map NonceTransition.bits), List.getElem?_map,
      found]
    rfl
  rw [cell, valid.bit_at .old below inside, own, digit] at same
  have apart : (1 : M31) ≠ 0 := one_ne_zero
  cases bit : t.bits.getD j false <;> cases pin : decide (pin.index / 2 ^ j % 2 = 1) <;>
    simp_all

/-- The checked trace satisfies the constraints only when the bits are digits. -/
theorem digits_of_satisfies {main preproc : Columns}
    (checked : checkedTrace st transitions logSize = .ok (main, preproc))
    (satisfied : Satisfies main preproc logSize) :
    ∀ t ∈ transitions, t.bits = Merkle.indexBits st.depth t.index := by
  rcases checkedTrace_built checked with ⟨-, lengths, links, valid, -, rfl, rfl⟩
  intro t member
  rcases List.mem_iff_getElem?.mp member with ⟨u, found⟩
  rcases linked_at lengths links found with ⟨up, pre, linked, pinned⟩
  apply List.ext_get
  · rw [linked.bits, Merkle.indexBits_length]
  · intro j first second
    have digit := bit_digit valid satisfied found pinned (linked.bits ▸ first)
    rw [List.getD_eq_getElem?_getD, List.getElem?_eq_getElem first, Option.getD_some] at digit
    rw [Merkle.indexBits_get, linked.index]
    exact digit

end Accepted

end NonceUpdateT8
end Recursive
end QLSA
