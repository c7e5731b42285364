import QLSA.Mldsa.Field
import QLSA.Machine.Fallible
import QLSA.Machine.PackedBytes
import Mathlib.Data.List.Sort
import Mathlib.Data.List.GetD

namespace QLSA
namespace Mldsa

open Machine

/-!
# The encoding of hints

A hint marks coefficients of `K` polynomials.  Its encoding lists the marked
indices of one polynomial after the other, pads them with zeros, and ends with
the number of indices up to each polynomial.  The decoder reads the polynomials
in order; after each of them it has read exactly the encoding of what it marked.
-/

/-- The value of a byte at a position. -/
def byteAt (y : List Byte) (pos : ℕ) : ℕ := (y.getD pos 0).toNat

/-- One pass over the indices of a polynomial; the state is the previous index
and the marks. -/
def markIndex (y : List Byte) (k : ℕ) (state : ℕ × (ℕ → Bool)) (pos : ℕ) :
    Except String (ℕ × (ℕ → Bool)) :=
  let idx := byteAt y pos
  if k < pos ∧ idx ≤ state.1 then
    .error s!"hint_bit_unpack: indices not strictly increasing at pos {pos}"
  else .ok (idx, Function.update state.2 idx true)

/-- One pass over the polynomials; the state is the hints and the running index. -/
def readRow (y : List Byte) (state : (ℕ → ℕ → Bool) × ℕ) (i : ℕ) :
    Except String ((ℕ → ℕ → Bool) × ℕ) := do
  let k := state.2
  let ki := byteAt y (OMEGA + i)
  if ki < k ∨ OMEGA < ki then
    .error s!"hint_bit_unpack: offset[{i}]={ki} out of [k={k}, ω={OMEGA}]"
  else
    let marked ← (List.range' k (ki - k)).foldlM (markIndex y k) (0, state.1 i)
    return (Function.update state.1 i marked.2, ki)

/-- One pass over the padding. -/
def checkPadding (y : List Byte) (_ : Unit) (j : ℕ) : Except String Unit :=
  if byteAt y j ≠ 0 then .error s!"hint_bit_unpack: non-zero padding byte at pos {j}" else .ok ()

def hintBitUnpack (y : List Byte) : Except String (List (List Bool)) := do
  if y.length ≠ OMEGA + K then
    .error s!"hint_bit_unpack: expected {OMEGA + K} bytes, got {y.length}"
  else
    let state ← (List.range K).foldlM (readRow y) (fun _ _ => false, 0)
    (List.range' state.2 (OMEGA - state.2)).foldlM (checkPadding y) ()
    return (List.range K).map fun i => (List.range N).map (state.1 i)

/-! ## The canonical encoding -/

/-- Marked indices of a polynomial, in order. -/
def onesOf (row : ℕ → Bool) : List ℕ := (List.range N).filter row

/-- Marked indices of the first polynomials, one polynomial after the other. -/
def indicesOf (h : ℕ → ℕ → Bool) (m : ℕ) : List ℕ := (List.range m).flatMap fun i => onesOf (h i)

/-- Marks as a function of polynomial and index. -/
def marks (hints : List (List Bool)) (i j : ℕ) : Bool := (hints.getD i []).getD j false

/-- Number of marked coefficients. -/
def weight (hints : List (List Bool)) : ℕ := (indicesOf (marks hints) K).length

/-- Indices, padding and cumulative counts. -/
def hintBitPack (hints : List (List Bool)) : List Byte :=
  (indicesOf (marks hints) K).map (BitVec.ofNat 8) ++
    List.replicate (OMEGA - weight hints) 0 ++
    (List.range K).map fun i => BitVec.ofNat 8 (indicesOf (marks hints) (i + 1)).length

/-- `K` hint vectors of at most `OMEGA` marks. -/
structure IsHint (hints : List (List Bool)) : Prop where
  rows : hints.length = K
  sizes : ∀ row ∈ hints, row.length = N
  light : weight hints ≤ OMEGA

/-! ## Reading a polynomial -/

/-- A row without marks beyond the polynomial. -/
def Bounded (row : ℕ → Bool) : Prop := ∀ j, N ≤ j → row j = false

theorem onesOf_pairwise (row : ℕ → Bool) : (onesOf row).Pairwise (· < ·) :=
  List.pairwise_lt_range.filter _

theorem mem_onesOf {row : ℕ → Bool} (bounded : Bounded row) (j : ℕ) :
    j ∈ onesOf row ↔ row j = true := by
  rw [onesOf, List.mem_filter, List.mem_range]
  constructor
  · exact And.right
  · intro marked
    refine ⟨?_, marked⟩
    by_contra beyond
    rw [bounded j (Nat.le_of_not_lt beyond)] at marked
    exact Bool.false_ne_true marked

/-- Bytes of consecutive positions, as values. -/
def segment (y : List Byte) (k n : ℕ) : List ℕ := (List.range' k n).map (byteAt y)

theorem segment_succ (y : List Byte) (k n : ℕ) :
    segment y k (n + 1) = segment y k n ++ [byteAt y (k + n)] := by
  rw [segment, List.range'_1_concat, List.map_append]
  rfl

theorem segment_length (y : List Byte) (k n : ℕ) : (segment y k n).length = n := by
  rw [segment, List.length_map, List.length_range']

/-- An index that exceeds the last of an increasing segment exceeds all. -/
theorem segment_bound {y : List Byte} {k n : ℕ} (increasing : (segment y k (n + 1)).Pairwise (· < ·))
    {idx : ℕ} (above : byteAt y (k + n) < idx) : ∀ j ∈ segment y k (n + 1), j < idx := by
  rw [segment_succ, List.pairwise_append] at increasing
  intro j member
  rw [segment_succ, List.mem_append, List.mem_singleton] at member
  rcases member with earlier | rfl
  · exact (increasing.2.2 j earlier _ (List.mem_singleton_self _)).trans above
  · exact above

/-- One more index is marked when it exceeds the one before. -/
theorem markIndex_eq_ok {y : List Byte} {k n prev idx : ℕ} {row row' : ℕ → Bool} :
    markIndex y k (prev, row) (k + n) = .ok (idx, row') ↔
      (n = 0 ∨ prev < byteAt y (k + n)) ∧ idx = byteAt y (k + n) ∧
        row' = Function.update row (byteAt y (k + n)) true := by
  rw [markIndex]
  dsimp only
  by_cases refused : k < k + n ∧ byteAt y (k + n) ≤ prev
  · rw [if_pos refused]
    constructor
    · intro impossible
      cases impossible
    · rintro ⟨above, _, _⟩
      omega
  · rw [if_neg refused]
    constructor
    · intro passed
      cases passed
      exact ⟨by omega, rfl, rfl⟩
    · rintro ⟨_, rfl, rfl⟩
      rfl

/-- The passes over the indices of a polynomial, from empty marks. -/
theorem markIndices_eq_ok {y : List Byte} {k n prev : ℕ} {row : ℕ → Bool} :
    (List.range' k n).foldlM (markIndex y k) (0, fun _ => false) = .ok (prev, row) ↔
      (segment y k n).Pairwise (· < ·) ∧ row = (fun j => decide (j ∈ segment y k n)) ∧
        prev = if n = 0 then 0 else byteAt y (k + (n - 1)) := by
  induction n generalizing prev row with
  | zero =>
      simp [segment, pure, Except.pure, and_comm, eq_comm]
  | succ n ih =>
      have marked : (fun j => decide (j ∈ segment y k (n + 1))) =
          Function.update (fun j => decide (j ∈ segment y k n)) (byteAt y (k + n)) true := by
        funext j
        rw [segment_succ]
        by_cases same : j = byteAt y (k + n)
        · simp [same]
        · simp [same]
      have last : (if n + 1 = 0 then 0 else byteAt y (k + (n + 1 - 1))) = byteAt y (k + n) := rfl
      have passes (state : ℕ × (ℕ → Bool)) :
          [k + n].foldlM (markIndex y k) state = markIndex y k state (k + n) := by
        rw [List.foldlM_cons]
        cases markIndex y k state (k + n) with
        | error failure => rfl
        | ok next => rfl
      rw [List.range'_1_concat, List.foldlM_append, bind_eq_ok, marked, last]
      simp only [passes, Prod.exists, markIndex_eq_ok, ih]
      constructor
      · rintro ⟨before, row, ⟨increasing, rfl, rfl⟩, above, rfl, rfl⟩
        refine ⟨?_, rfl, rfl⟩
        rw [segment_succ, List.pairwise_append]
        refine ⟨increasing, List.pairwise_singleton _ _, ?_⟩
        intro j member other single
        rw [List.mem_singleton] at single
        subst single
        cases n with
        | zero => exact absurd member List.not_mem_nil
        | succ n => exact segment_bound increasing (above.resolve_left (Nat.succ_ne_zero n)) j member
      · rintro ⟨increasing, rfl, rfl⟩
        rw [segment_succ, List.pairwise_append] at increasing
        refine ⟨_, _, ⟨increasing.1, rfl, rfl⟩, ?_, rfl, rfl⟩
        cases n with
        | zero => exact .inl rfl
        | succ n =>
            refine .inr (increasing.2.2 _ ?_ _ (List.mem_singleton_self _))
            rw [segment_succ]
            exact List.mem_append_right _ (List.mem_singleton_self _)

/-- The segment of an increasing run is the list of its marks. -/
theorem segment_eq_onesOf {y : List Byte} {k n : ℕ} {row : ℕ → Bool} :
    (segment y k n).Pairwise (· < ·) ∧ row = (fun j => decide (j ∈ segment y k n)) ↔
      Bounded row ∧ segment y k n = onesOf row := by
  constructor
  · rintro ⟨increasing, rfl⟩
    have bounded : Bounded fun j => decide (j ∈ segment y k n) := by
      intro j beyond
      rw [decide_eq_false_iff_not, segment, List.mem_map]
      rintro ⟨pos, _, rfl⟩
      exact absurd (y.getD pos 0).isLt (Nat.not_lt.mpr beyond)
    refine ⟨bounded, ?_⟩
    apply List.Pairwise.eq_of_mem_iff increasing (onesOf_pairwise _)
    intro j
    rw [mem_onesOf bounded, decide_eq_true_iff]
  · rintro ⟨bounded, same⟩
    rw [same]
    refine ⟨onesOf_pairwise row, ?_⟩
    funext j
    rw [Bool.eq_iff_iff, decide_eq_true_iff, mem_onesOf bounded]

/-! ## Reading all polynomials -/

theorem readRow_eq_ok {y : List Byte} {h h' : ℕ → ℕ → Bool} {k k' i : ℕ}
    (fresh : h i = fun _ => false) :
    readRow y (h, k) i = .ok (h', k') ↔
      k ≤ k' ∧ k' ≤ OMEGA ∧ k' = byteAt y (OMEGA + i) ∧
        ∃ row, Bounded row ∧ segment y k (k' - k) = onesOf row ∧ h' = Function.update h i row := by
  rw [readRow]
  dsimp only
  by_cases refused : byteAt y (OMEGA + i) < k ∨ OMEGA < byteAt y (OMEGA + i)
  · rw [if_pos refused]
    constructor
    · intro impossible
      cases impossible
    · rintro ⟨low, high, rfl, _⟩
      omega
  · rw [if_neg refused, fresh, bind_eq_ok]
    simp only [Prod.exists, markIndices_eq_ok]
    constructor
    · rintro ⟨prev, row, ⟨increasing, marked, _⟩, returned⟩
      cases returned
      rcases segment_eq_onesOf.mp ⟨increasing, marked⟩ with ⟨bounded, same⟩
      exact ⟨by omega, by omega, rfl, row, bounded, same, rfl⟩
    · rintro ⟨_, _, rfl, row, bounded, same, rfl⟩
      rcases segment_eq_onesOf.mpr ⟨bounded, same⟩ with ⟨increasing, marked⟩
      exact ⟨_, row, ⟨increasing, marked, rfl⟩, rfl⟩

/-- The hints after the first polynomials: exactly their encoding was read. -/
structure Reads (y : List Byte) (m : ℕ) (h : ℕ → ℕ → Bool) (k : ℕ) : Prop where
  bounded : ∀ i, Bounded (h i)
  later : ∀ i, m ≤ i → h i = fun _ => false
  bound : k ≤ OMEGA
  indices : segment y 0 k = indicesOf h m
  counts : ∀ i < m, byteAt y (OMEGA + i) = (indicesOf h (i + 1)).length

theorem Reads.count {y : List Byte} {m k : ℕ} {h : ℕ → ℕ → Bool} (reads : Reads y m h k) :
    k = (indicesOf h m).length := by
  rw [← reads.indices, segment_length]

theorem indicesOf_succ (h : ℕ → ℕ → Bool) (m : ℕ) :
    indicesOf h (m + 1) = indicesOf h m ++ onesOf (h m) := by
  rw [indicesOf, List.range_succ, List.flatMap_append, List.flatMap_singleton]
  rfl

theorem indicesOf_congr {h h' : ℕ → ℕ → Bool} {m : ℕ} (same : ∀ i < m, h i = h' i) :
    indicesOf h m = indicesOf h' m := by
  rw [indicesOf, indicesOf, List.flatMap_congr]
  intro i member
  rw [same i (List.mem_range.mp member)]

theorem indicesOf_update (h : ℕ → ℕ → Bool) {m i : ℕ} (before : m ≤ i) (row : ℕ → Bool) :
    indicesOf (Function.update h i row) m = indicesOf h m :=
  indicesOf_congr fun j small => Function.update_of_ne (by omega) row h

theorem segment_add (y : List Byte) (k n m : ℕ) :
    segment y k (n + m) = segment y k n ++ segment y (k + n) m := by
  rw [segment, segment, segment, ← List.map_append, List.range'_append_1]

/-- The loop over the polynomials reads their encoding. -/
theorem readRows_eq_ok {y : List Byte} {m k : ℕ} {h : ℕ → ℕ → Bool} :
    (List.range m).foldlM (readRow y) (fun _ _ => false, 0) = .ok (h, k) ↔ Reads y m h k := by
  induction m generalizing h k with
  | zero =>
      constructor
      · intro start
        cases start
        exact ⟨fun _ _ _ => rfl, fun _ _ => rfl, Nat.zero_le _, rfl, nofun⟩
      · intro reads
        have none : h = fun _ _ => false := by
          funext i
          exact reads.later i (Nat.zero_le i)
        have count := reads.count
        subst none
        subst count
        rfl
  | succ m ih =>
      have passes (state : (ℕ → ℕ → Bool) × ℕ) : [m].foldlM (readRow y) state = readRow y state m := by
        rw [List.foldlM_cons]
        cases readRow y state m with
        | error failure => rfl
        | ok next => rfl
      rw [List.range_succ, List.foldlM_append, bind_eq_ok]
      simp only [passes, Prod.exists, ih]
      constructor
      · rintro ⟨before, start, reads, step⟩
        rw [readRow_eq_ok (reads.later m le_rfl)] at step
        rcases step with ⟨low, high, count, row, bounded, same, rfl⟩
        have kept : indicesOf (Function.update before m row) m = indicesOf before m :=
          indicesOf_update before le_rfl row
        have whole : segment y 0 k = indicesOf (Function.update before m row) (m + 1) := by
          have split : k = start + (k - start) := by omega
          rw [indicesOf_succ, kept, Function.update_self, ← same, ← reads.indices]
          conv_lhs => rw [split, segment_add, Nat.zero_add]
        refine ⟨?_, ?_, high, whole, ?_⟩
        · intro i
          by_cases own : i = m
          · rw [own, Function.update_self]
            exact bounded
          · rw [Function.update_of_ne own]
            exact reads.bounded i
        · intro i beyond
          rw [Function.update_of_ne (by omega)]
          exact reads.later i (by omega)
        · intro i inside
          by_cases own : i = m
          · rw [own, ← whole, segment_length, ← count]
          · rw [reads.counts i (by omega), indicesOf_update before (by omega) row]
      · intro reads
        have kept (row : ℕ → Bool) : indicesOf (Function.update h m row) m = indicesOf h m :=
          indicesOf_update h le_rfl row
        have count := reads.count
        have total := indicesOf_succ h m
        have indices := reads.indices
        rw [indicesOf_succ, List.length_append] at count
        have split : k = (indicesOf h m).length + (onesOf (h m)).length := count
        have parts := indices
        rw [total, split, segment_add] at parts
        have lengths : (segment y 0 (indicesOf h m).length).length = (indicesOf h m).length :=
          segment_length ..
        rcases List.append_inj parts lengths with ⟨first, second⟩
        rw [Nat.zero_add] at second
        refine ⟨Function.update h m fun _ => false, (indicesOf h m).length, ?_, ?_⟩
        · refine ⟨?_, ?_, ?_, ?_, ?_⟩
          · intro i
            by_cases own : i = m
            · rw [own, Function.update_self]
              exact fun _ _ => rfl
            · rw [Function.update_of_ne own]
              exact reads.bounded i
          · intro i beyond
            by_cases own : i = m
            · rw [own, Function.update_self]
            · rw [Function.update_of_ne own]
              exact reads.later i (by omega)
          · have bound := reads.bound
            omega
          · rw [kept, first]
          · intro i inside
            rw [reads.counts i (by omega), indicesOf_update h (by omega)]
        · rw [readRow_eq_ok (Function.update_self ..)]
          refine ⟨by omega, reads.bound, ?_, h m, reads.bounded m, ?_, ?_⟩
          · rw [reads.counts m (by omega), reads.count]
          · rw [split, Nat.add_sub_cancel_left]
            exact second
          · rw [Function.update_idem, Function.update_eq_self]

/-! ## The grammar -/

theorem checkPaddings_eq_ok {y : List Byte} {k n : ℕ} :
    (List.range' k n).foldlM (checkPadding y) () = .ok () ↔
      segment y k n = List.replicate n 0 := by
  induction n generalizing k with
  | zero => exact ⟨fun _ => rfl, fun _ => rfl⟩
  | succ n ih =>
      rw [segment, List.range'_succ, List.foldlM_cons, bind_eq_ok, List.map_cons,
        List.replicate_succ, List.cons.injEq, ← segment, ← ih]
      rw [checkPadding]
      by_cases padded : byteAt y k = 0
      · rw [if_neg (not_not.mpr padded)]
        constructor
        · rintro ⟨_, _, rest⟩
          exact ⟨padded, rest⟩
        · rintro ⟨_, rest⟩
          exact ⟨(), rfl, rest⟩
      · rw [if_pos padded]
        simp [padded]

/-- The values of all bytes, up to the running index, the padding and the counts. -/
theorem values_split {y : List Byte} (length : y.length = OMEGA + K) {k : ℕ} (bound : k ≤ OMEGA) :
    y.map BitVec.toNat = segment y 0 k ++ segment y k (OMEGA - k) ++ segment y OMEGA K := by
  have whole : y.map BitVec.toNat = segment y 0 y.length := by
    apply List.ext_getElem
    · rw [List.length_map, segment_length]
    · intro pos inside inside'
      rw [List.length_map] at inside
      simp [segment, byteAt, inside]
  have split : y.length = k + (OMEGA - k) + K := by omega
  have rest : k + (OMEGA - k) = OMEGA := by omega
  rw [whole, split, segment_add, segment_add, Nat.zero_add, Nat.zero_add, rest]

theorem indicesOf_lt {h : ℕ → ℕ → Bool} {m : ℕ} : ∀ j ∈ indicesOf h m, j < N := by
  intro j member
  rw [indicesOf, List.mem_flatMap] at member
  rcases member with ⟨i, _, marked⟩
  rw [onesOf, List.mem_filter, List.mem_range] at marked
  exact marked.1

theorem indicesOf_length_le (h : ℕ → ℕ → Bool) {m n : ℕ} (before : m ≤ n) :
    (indicesOf h m).length ≤ (indicesOf h n).length := by
  induction n, before using Nat.le_induction with
  | base => exact le_rfl
  | succ n before ih =>
      rw [indicesOf_succ, List.length_append]
      omega

theorem values_hintBitPack {hints : List (List Bool)} (light : weight hints ≤ OMEGA) :
    (hintBitPack hints).map BitVec.toNat =
      indicesOf (marks hints) K ++ List.replicate (OMEGA - weight hints) 0 ++
        (List.range K).map fun i => (indicesOf (marks hints) (i + 1)).length := by
  have indices : ((indicesOf (marks hints) K).map (BitVec.ofNat 8)).map BitVec.toNat =
      indicesOf (marks hints) K := by
    rw [List.map_map]
    refine (List.map_congr_left ?_).trans (List.map_id _)
    intro j member
    exact Nat.mod_eq_of_lt (indicesOf_lt j member)
  have counts : ((List.range K).map fun i =>
      BitVec.ofNat 8 (indicesOf (marks hints) (i + 1)).length).map BitVec.toNat =
        (List.range K).map fun i => (indicesOf (marks hints) (i + 1)).length := by
    rw [List.map_map]
    apply List.map_congr_left
    intro i member
    have before := indicesOf_length_le (marks hints) (List.mem_range.mp member : i + 1 ≤ K)
    have fits : OMEGA < 2 ^ 8 := by decide
    exact Nat.mod_eq_of_lt ((before.trans light).trans_lt fits)
  rw [hintBitPack, List.map_append, List.map_append, indices, counts, List.map_replicate]
  rfl

theorem hintBitPack_length {hints : List (List Bool)} (light : weight hints ≤ OMEGA) :
    (hintBitPack hints).length = OMEGA + K := by
  have values := congrArg List.length (values_hintBitPack light)
  rw [weight] at light values
  rw [List.length_map, List.length_append, List.length_append, List.length_replicate,
    List.length_map, List.length_range] at values
  omega

/-- Bytes are the encoding when they hold its three parts. -/
theorem eq_hintBitPack {y : List Byte} {hints : List (List Bool)} (light : weight hints ≤ OMEGA)
    (length : y.length = OMEGA + K) :
    y = hintBitPack hints ↔
      segment y 0 (weight hints) = indicesOf (marks hints) K ∧
        segment y (weight hints) (OMEGA - weight hints) =
          List.replicate (OMEGA - weight hints) 0 ∧
        ∀ i < K, byteAt y (OMEGA + i) = (indicesOf (marks hints) (i + 1)).length := by
  have values : y = hintBitPack hints ↔
      y.map BitVec.toNat = (hintBitPack hints).map BitVec.toNat :=
    (List.map_injective_iff.mpr fun _ _ => BitVec.eq_of_toNat_eq).eq_iff.symm
  have counts : segment y OMEGA K = (List.range K).map fun i => byteAt y (OMEGA + i) := by
    rw [segment, List.range'_eq_map_range, List.map_map]
    rfl
  have pointwise : segment y OMEGA K =
      ((List.range K).map fun i => (indicesOf (marks hints) (i + 1)).length) ↔
        ∀ i < K, byteAt y (OMEGA + i) = (indicesOf (marks hints) (i + 1)).length := by
    rw [counts, List.map_inj_left]
    simp only [List.mem_range]
  rw [values, values_split length light, values_hintBitPack light, ← pointwise]
  constructor
  · intro same
    rcases List.append_inj same (by simp [segment_length, weight]) with ⟨front, back⟩
    rcases List.append_inj front (by simp [segment_length, weight]) with ⟨first, second⟩
    exact ⟨first, second, back⟩
  · rintro ⟨first, second, third⟩
    rw [first, second, third]

theorem marks_table {h : ℕ → ℕ → Bool} (bounded : ∀ i, Bounded (h i))
    (later : ∀ i, K ≤ i → h i = fun _ => false) :
    marks ((List.range K).map fun i => (List.range N).map (h i)) = h := by
  funext i j
  rw [marks]
  by_cases row : i < K
  · by_cases inside : j < N
    · simp [row, inside]
    · have beyond := bounded i j (Nat.le_of_not_lt inside)
      simp [row, inside, beyond]
  · have beyond := congrFun (later i (Nat.le_of_not_lt row)) j
    simp [row, beyond]

theorem table_marks {hints : List (List Bool)} (isHint : IsHint hints) :
    ((List.range K).map fun i => (List.range N).map (marks hints i)) = hints := by
  apply List.ext_getElem
  · rw [List.length_map, List.length_range, isHint.rows]
  · intro i inside inside'
    have size := isHint.sizes _ (List.getElem_mem inside')
    rw [List.getElem_map, List.getElem_range]
    apply List.ext_getElem
    · rw [List.length_map, List.length_range, size]
    · intro j within within'
      rw [List.getElem_map, List.getElem_range, marks, List.getD_eq_getElem _ _ inside',
        List.getD_eq_getElem _ _ within']

theorem marks_bounded {hints : List (List Bool)} (isHint : IsHint hints) (i : ℕ) :
    Bounded (marks hints i) := by
  intro j beyond
  rw [marks]
  by_cases row : i < hints.length
  · have size := isHint.sizes _ (List.getElem_mem row)
    rw [List.getD_eq_getElem _ _ row, List.getD_eq_default _ _ (by omega)]
  · rw [List.getD_eq_default _ _ (Nat.le_of_not_lt row)]
    rfl

theorem marks_later {hints : List (List Bool)} (isHint : IsHint hints) {i : ℕ} (late : K ≤ i) :
    marks hints i = fun _ => false := by
  funext j
  rw [marks, List.getD_eq_default _ _ (isHint.rows.trans_le late)]
  rfl

/-- The decoder accepts the canonical encodings and returns what they encode. -/
theorem hintBitUnpack_eq_ok {y : List Byte} {hints : List (List Bool)} :
    hintBitUnpack y = .ok hints ↔ IsHint hints ∧ y = hintBitPack hints := by
  rw [hintBitUnpack]
  by_cases length : y.length = OMEGA + K
  · rw [if_neg (not_not.mpr length), bind_eq_ok]
    constructor
    · rintro ⟨⟨h, k⟩, run, later⟩
      rcases bind_eq_ok.mp later with ⟨_, padding, returned⟩
      cases returned
      have reads := readRows_eq_ok.mp run
      have table := marks_table reads.bounded reads.later
      have count : weight ((List.range K).map fun i => (List.range N).map (h i)) = k := by
        rw [weight, table, reads.count]
      have light : weight ((List.range K).map fun i => (List.range N).map (h i)) ≤ OMEGA := by
        rw [count]
        exact reads.bound
      refine ⟨⟨by simp, ?_, light⟩, ?_⟩
      · intro row member
        rw [List.mem_map] at member
        rcases member with ⟨i, _, rfl⟩
        rw [List.length_map, List.length_range]
      · rw [eq_hintBitPack light length, count, table]
        exact ⟨reads.indices, checkPaddings_eq_ok.mp padding, reads.counts⟩
    · rintro ⟨isHint, same⟩
      rcases (eq_hintBitPack isHint.light length).mp same with ⟨indices, padding, counts⟩
      have reads : Reads y K (marks hints) (weight hints) :=
        ⟨marks_bounded isHint, fun i late => marks_later isHint late, isHint.light, indices, counts⟩
      refine ⟨(marks hints, weight hints), readRows_eq_ok.mpr reads, ?_⟩
      rw [bind_eq_ok]
      exact ⟨(), checkPaddings_eq_ok.mpr padding, congrArg Except.ok (table_marks isHint)⟩
  · rw [if_pos length]
    constructor
    · intro impossible
      cases impossible
    · rintro ⟨isHint, rfl⟩
      exact absurd (hintBitPack_length isHint.light) length

/-- Hints have one encoding each. -/
theorem hintBitPack_injective {first second : List (List Bool)} (hint : IsHint first)
    (hint' : IsHint second) (same : hintBitPack first = hintBitPack second) : first = second := by
  have read := hintBitUnpack_eq_ok.mpr ⟨hint, rfl⟩
  rw [hintBitUnpack_eq_ok.mpr ⟨hint', same⟩, Except.ok.injEq] at read
  exact read.symm

end Mldsa
end QLSA
