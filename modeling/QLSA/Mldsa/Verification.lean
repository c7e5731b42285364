import QLSA.Mldsa.Standard

namespace QLSA
namespace Mldsa

open Finset Machine

/-!
# Verification

`ml_dsa_verify` on `i64` values, with its assertions and overflow checks: `none`
stands for a panic, or for a rejection loop that the fuel does not let end.  All
arrays between two steps hold representatives, so no check fails; the transforms
and the sums in between then represent the approximation of the standard.
-/

/-! ## Checked loops -/

/-- A loop over all coefficients. -/
def mapCoeffs (f : ℕ → Option ℤ) : Option Coeffs := do
  let cs ← (List.range N).mapM f
  return fun i => cs.getD i 0

section Loops

variable {β : Type}

/-- A loop whose passes all return, each with what is known of it. -/
theorem mapM_range_some [Inhabited β] {f : ℕ → Option β} {P : ℕ → β → Prop} {n : ℕ}
    (passes : ∀ i < n, ∃ b, f i = some b ∧ P i b) :
    ∃ g : ℕ → β, (List.range n).mapM f = some ((List.range n).map g) ∧ ∀ i < n, P i (g i) := by
  induction n with
  | zero => exact ⟨fun _ => default, rfl, fun i none => absurd none (Nat.not_lt_zero i)⟩
  | succ n ih =>
      rcases ih fun i early => passes i (by omega) with ⟨g, done, known⟩
      rcases passes n (Nat.lt_succ_self n) with ⟨b, last, own⟩
      refine ⟨Function.update g n b, ?_, ?_⟩
      · have front : (List.range n).map (Function.update g n b) = (List.range n).map g := by
          apply List.map_congr_left
          intro i member
          exact Function.update_of_ne (List.mem_range.mp member).ne b g
        rw [List.range_succ, List.mapM_append, done, List.map_append, front]
        simp [last]
      · intro i inside
        by_cases same : i = n
        · rw [same, Function.update_self]
          exact own
        · rw [Function.update_of_ne same]
          exact known i (by omega)

theorem mapCoeffs_some {f : ℕ → Option ℤ} {g : Coeffs} (passes : ∀ i < N, f i = some (g i)) :
    ∃ r, mapCoeffs f = some r ∧ Agree r g := by
  rcases mapM_range_some (P := fun i v => v = g i) fun i inside => ⟨g i, passes i inside, rfl⟩ with
    ⟨values, done, known⟩
  refine ⟨fun i => ((List.range N).map values).getD i 0, ?_, ?_⟩
  · rw [mapCoeffs, done]
    rfl
  · intro i inside
    dsimp only
    rw [List.getD_eq_getElem?_getD, List.getElem?_map, List.getElem?_range inside]
    exact known i inside

end Loops

/-! ## Coefficients -/

def reduceChecked (a : ℤ) : Option ℤ :=
  let r := a.tmod Q
  if r < 0 then i64 (r + Q) else some r

def addChecked (a b : ℤ) : Option ℤ :=
  if InRange a ∧ InRange b then (i64 (a + b)).bind wrapSum else none

def subChecked (a b : ℤ) : Option ℤ :=
  if InRange a ∧ InRange b then (i64 (a - b)).bind wrapDifference else none

/-- The remainder brought to smallest magnitude. -/
def centerChecked (rem : ℤ) : Option ℤ :=
  if GAMMA2 < rem then i64 (rem - 2 * GAMMA2) else some rem

/-- The low part, one less in the special case. -/
def adjustChecked (difference r0 : ℤ) : Option ℤ :=
  if difference = Q - 1 then i64 (r0 - 1) else some r0

def decomposeValChecked (r : ℤ) : Option (ℤ × ℤ) := do
  let alpha := 2 * GAMMA2
  let r ← reduceChecked r
  let rem := r.tmod alpha
  let r0 ← centerChecked rem
  let difference ← i64 (r - r0)
  let r1 := if difference = Q - 1 then 0 else difference.tdiv alpha
  let r0Final ← adjustChecked difference r0
  return (r1, r0Final)

def useHintValChecked (h : Bool) (r : ℤ) : Option ℤ := do
  let parts ← decomposeValChecked r
  if !h then return parts.1
  else if 0 < parts.2 then (i64 (parts.1 + 1)).map (·.tmod M)
  else ((i64 (parts.1 - 1)).bind fun lower => i64 (lower + M)).map (·.tmod M)

section Coefficients

variable {a b r : ℤ}

theorem reduceChecked_eq (a : ℤ) : reduceChecked a = some (a % Q) := by
  rw [← reduce_eq_emod]
  have bounds := Int.tmod_lt_of_pos a (by decide : 0 < Q)
  have lower := Int.lt_tmod_of_pos a (by decide : 0 < Q)
  unfold reduceChecked reduce
  dsimp only
  split
  case isTrue negative => exact i64_small (by omega) (by omega)
  case isFalse => rfl

theorem addChecked_eq (first : InRange a) (second : InRange b) :
    addChecked a b = some ((a + b) % Q) := by
  rw [addChecked, if_pos ⟨first, second⟩, ← add_eq_emod first second]
  have low := add_nonneg first.1 second.1
  have high : a + b < 2 * Q := by
    have left := first.2
    have right := second.2
    omega
  exact sum_checks low high

theorem subChecked_eq (first : InRange a) (second : InRange b) :
    subChecked a b = some ((a - b) % Q) := by
  rw [subChecked, if_pos ⟨first, second⟩, ← sub_eq_emod first second]
  rcases first with ⟨low, high⟩
  rcases second with ⟨low', high'⟩
  exact difference_checks (by omega) (by omega)

theorem decomposeValChecked_eq (range : InRange r) :
    decomposeValChecked r = some (decomposeVal r) := by
  have checked := reduceChecked_eq r
  rw [Int.emod_eq_of_lt range.1 range.2] at checked
  have remLow : 0 ≤ r.tmod (2 * GAMMA2) := Int.tmod_nonneg _ range.1
  have remHigh : r.tmod (2 * GAMMA2) < 2 * GAMMA2 := Int.tmod_lt_of_pos _ (by decide)
  have bound : 2 * GAMMA2 < Q := by decide
  rcases range with ⟨low, high⟩
  unfold decomposeValChecked decomposeVal
  dsimp only
  rw [reduce_of_inRange ⟨low, high⟩, checked, Option.bind_eq_bind, Option.bind_some]
  generalize r.tmod (2 * GAMMA2) = rem at *
  have half : centerChecked rem = some (if GAMMA2 < rem then rem - 2 * GAMMA2 else rem) := by
    unfold centerChecked
    split
    · exact i64_small (by omega) (by omega)
    · rfl
  have r0Low : -GAMMA2 ≤ if GAMMA2 < rem then rem - 2 * GAMMA2 else rem := by
    split <;> omega
  have r0High : (if GAMMA2 < rem then rem - 2 * GAMMA2 else rem) ≤ GAMMA2 := by
    split <;> omega
  rw [half, Option.bind_some]
  generalize (if GAMMA2 < rem then rem - 2 * GAMMA2 else rem) = r0 at *
  have final : adjustChecked (r - r0) r0 = some (if r - r0 = Q - 1 then r0 - 1 else r0) := by
    unfold adjustChecked
    split
    · exact i64_small (by omega) (by omega)
    · rfl
  rw [i64_small (by omega) (by omega), Option.bind_some, final]
  rfl

theorem useHintValChecked_eq (h : Bool) (range : InRange r) :
    useHintValChecked h r = some (useHintVal h r) := by
  rcases decomposeVal_high range with ⟨low, high⟩
  have bound : M < Q := by decide
  unfold useHintValChecked useHintVal
  rw [decomposeValChecked_eq range, Option.bind_eq_bind, Option.bind_some]
  dsimp only
  split
  · rfl
  · split
    · rw [i64_small (by omega) (by omega)]
      rfl
    · rw [i64_small (by omega) (by omega), Option.bind_some, i64_small (by omega) (by omega)]
      rfl

/-- The parts of the program are those of the standard. -/
theorem decomposeVal_eq_highLow (range : InRange r) : decomposeVal r = highLow r := by
  have remainder : r.tmod (2 * GAMMA2) = r % (2 * GAMMA2) := Int.tmod_eq_emod_of_nonneg range.1
  have alpha : 2 * GAMMA2 = 523776 := by decide
  unfold decomposeVal highLow centered
  dsimp only
  rw [reduce_of_inRange range, Int.emod_eq_of_lt range.1 range.2, remainder, alpha, gamma2_eq]
  rcases range with ⟨low, high⟩
  have condition : (261888 < r % 523776) ↔ 523776 < 2 * (r % 523776) := by omega
  simp only [condition]
  have nonneg : 0 ≤ r - if 523776 < 2 * (r % 523776) then r % 523776 - 523776 else r % 523776 := by
    split <;> omega
  generalize (if 523776 < 2 * (r % 523776) then r % 523776 - 523776 else r % 523776) = r0 at *
  by_cases special : r - r0 = Q - 1
  · rw [if_pos special, if_pos special, if_pos special]
  · rw [if_neg special, if_neg special, if_neg special, Int.tdiv_eq_ediv_of_nonneg nonneg]

theorem useHintVal_eq_useHint (h : Bool) (range : InRange r) : useHintVal h r = useHint h r := by
  rcases decomposeVal_high range with ⟨low, high⟩
  have count : (Q - 1) / (2 * GAMMA2) = 16 := by decide
  have same := decomposeVal_eq_highLow range
  unfold useHintVal useHint
  dsimp only
  rw [← same, count]
  rw [m_eq] at *
  cases h with
  | false => rfl
  | true =>
      simp only [Bool.not_true, Bool.false_eq_true, if_false, if_true]
      split
      · exact Int.tmod_eq_emod_of_nonneg (by omega)
      · rw [Int.tmod_eq_emod_of_nonneg (by omega), Int.add_emod_right]

end Coefficients

/-! ## Polynomials and vectors -/

def pointwiseMulChecked (a b : Coeffs) : Option Coeffs := mapCoeffs fun i => mulChecked (a i) (b i)

/-- `NTTPoly::add` -/
def nttAdd (a b : Coeffs) : Option Coeffs := mapCoeffs fun i => addChecked (a i) (b i)

/-- A pass of `NTTPolyVec::sub`. -/
def nttSub (a b : Coeffs) : Option Coeffs := mapCoeffs fun i => subChecked (a i) (b i)

/-- `Poly::scale` -/
def scale (s : ℤ) (p : Coeffs) : Option Coeffs := do
  let s ← reduceChecked s
  mapCoeffs fun i => mulChecked (p i) s

def scalePower2 (d : ℕ) (v : List Coeffs) : Option (List Coeffs) := v.mapM (scale (2 ^ d))

/-- The coefficients of `z_reduced`. -/
def reducePoly (p : Coeffs) : Option Coeffs := mapCoeffs fun i => reduceChecked (p i)

/-- `NTTPolyVec::ntt` and its inverse. -/
def nttVec (v : List Coeffs) : Option (List Coeffs) := v.mapM nttChecked

def inttVec (v : List Coeffs) : Option (List Coeffs) := v.mapM nttInvChecked

def subVec (a b : List Coeffs) : Option (List Coeffs) :=
  if a.length = b.length then (a.zip b).mapM fun pair => nttSub pair.1 pair.2 else none

def scalePoly (v : List Coeffs) (c : Coeffs) : Option (List Coeffs) :=
  v.mapM (pointwiseMulChecked · c)

/-- A row of `NTTMatrix::mul_vec`. -/
def mulVecRow (row v : List Coeffs) : Option Coeffs :=
  if row.length = v.length then
    (row.zip v).foldlM (fun result pair => do
      let prod ← pointwiseMulChecked pair.1 pair.2
      nttAdd result prod) fun _ => 0
  else none

def mulVec (rows : List (List Coeffs)) (v : List Coeffs) : Option (List Coeffs) :=
  rows.mapM (mulVecRow · v)

/-- `use_hint` on one polynomial; the hint is indexed by the coefficients. -/
def useHintPoly (p : Coeffs) (h : List Bool) : Option Coeffs :=
  mapCoeffs fun i => h[i]?.bind fun bit => useHintValChecked bit (p i)

def useHintVec (w : List Coeffs) (hints : List (List Bool)) : Option (List Coeffs) :=
  if w.length = hints.length then (w.zip hints).mapM fun pair => useHintPoly pair.1 pair.2 else none

/-- `w = INTT(A·NTT(z) − ĉ⊙NTT(t₁·2^d))` -/
def approximate (aHat : List (List Coeffs)) (c : Coeffs) (z t1 : List Coeffs) :
    Option (List Coeffs) := do
  let cHat ← nttChecked c
  let zReduced ← z.mapM reducePoly
  let zHat ← nttVec zReduced
  let t1Scaled ← scalePower2 13 t1
  let t1ScaledHat ← nttVec t1Scaled
  let azHat ← mulVec aHat zHat
  let ct1Hat ← scalePoly t1ScaledHat cHat
  let wHat ← subVec azHat ct1Hat
  inttVec wHat

section Vectors

variable {n : ℕ} {f g c : Coeffs} {e e' : Ring}

theorem Lists.pointwiseMul (first : Lists f e) (second : Lists g e') :
    ∃ r, pointwiseMulChecked f g = some r ∧ Lists r (e * e') := by
  have passes : ∀ i < N, mulChecked (f i) (g i) = some (f i * g i % Q) := by
    intro i inside
    rw [mulChecked_eq (first.reduced i inside) (second.reduced i inside),
      mul_eq_emod (first.reduced i inside) (second.reduced i inside)]
  rcases mapCoeffs_some passes with ⟨r, done, agree⟩
  exact ⟨r, done, first.mul second agree⟩

theorem Lists.nttAdd (first : Lists f e) (second : Lists g e') :
    ∃ r, nttAdd f g = some r ∧ Lists r (e + e') := by
  rcases mapCoeffs_some fun i inside =>
    addChecked_eq (first.reduced i inside) (second.reduced i inside) with ⟨r, done, agree⟩
  exact ⟨r, done, first.add second agree⟩

theorem Lists.nttSub (first : Lists f e) (second : Lists g e') :
    ∃ r, nttSub f g = some r ∧ Lists r (e - e') := by
  rcases mapCoeffs_some fun i inside =>
    subChecked_eq (first.reduced i inside) (second.reduced i inside) with ⟨r, done, agree⟩
  exact ⟨r, done, first.sub second agree⟩

theorem Lists.inttChecked (lists : Lists f e) :
    ∃ r, nttInvChecked f = some r ∧ Reduced r ∧ element r = e := by
  rcases nttInvChecked_eq lists.reduced with ⟨r, done, agree⟩
  rcases lists.nttInv with ⟨reduced, represents⟩
  refine ⟨r, done, fun i inside => ?_, agree.element_eq.trans represents⟩
  rw [agree i inside]
  exact reduced i inside

theorem nttChecked_lists (reduced : Reduced f) :
    ∃ r, nttChecked f = some r ∧ Lists r (element f) :=
  ⟨ntt f, nttChecked_eq reduced, Lists.of_ntt reduced⟩

theorem reducePoly_some (f : Coeffs) :
    ∃ r, reducePoly f = some r ∧ Reduced r ∧ element r = element f := by
  rcases mapCoeffs_some fun i _ => reduceChecked_eq (f i) with ⟨r, done, agree⟩
  refine ⟨r, done, fun i inside => ?_, element_congr fun i inside => ?_⟩
  · rw [agree i inside]
    exact emod_inRange _
  · rw [agree i inside, cast_emod]

theorem scale_some {s : ℤ} (small : InRange s) (reduced : Reduced f) :
    ∃ r, scale s f = some r ∧ Reduced r ∧ element r = element f * (s : Ring) := by
  have passes : ∀ i < N, mulChecked (f i) (s % Q) = some (f i * s % Q) := by
    intro i inside
    rw [Int.emod_eq_of_lt small.1 small.2, mulChecked_eq (reduced i inside) small,
      mul_eq_emod (reduced i inside) small]
  rcases mapCoeffs_some passes with ⟨r, done, agree⟩
  refine ⟨r, ?_, fun i inside => ?_, element_scaled fun i inside => ?_⟩
  · rw [scale, reduceChecked_eq, Option.bind_eq_bind, Option.bind_some, done]
  · rw [agree i inside]
    exact emod_inRange _
  · rw [agree i inside, cast_emod, Int.cast_mul]

/-- A loop over a vector, given by its components. -/
theorem mapM_vector {β γ : Type} [Inhabited γ] {f : β → Option γ} {v : ℕ → β} {P : ℕ → γ → Prop}
    (passes : ∀ i < n, ∃ r, f (v i) = some r ∧ P i r) :
    ∃ g : ℕ → γ, ((List.range n).map v).mapM f = some ((List.range n).map g) ∧
      ∀ i < n, P i (g i) := by
  rw [List.mapM_map]
  exact mapM_range_some passes

theorem zip_range {β γ : Type} (v : ℕ → β) (w : ℕ → γ) :
    ((List.range n).map v).zip ((List.range n).map w) = (List.range n).map fun i => (v i, w i) :=
  List.zip_map' ..

/-- A row times a vector lists the sum of the products. -/
theorem mulVecRow_some {row v : ℕ → Coeffs} {a z : ℕ → Ring} (first : ∀ j < n, Lists (row j) (a j))
    (second : ∀ j < n, Lists (v j) (z j)) :
    ∃ r, mulVecRow ((List.range n).map row) ((List.range n).map v) = some r ∧
      Lists r (∑ j ∈ range n, a j * z j) := by
  have lengths : ((List.range n).map row).length = ((List.range n).map v).length := by simp
  rw [mulVecRow, if_pos lengths, zip_range]
  -- The sum of the products so far is listed.
  induction n with
  | zero => exact ⟨_, rfl, Lists.zero⟩
  | succ n ih =>
      rcases ih (fun j early => first j (by omega)) (fun j early => second j (by omega)) (by simp)
        with ⟨acc, done, listed⟩
      rcases (first n (Nat.lt_succ_self n)).pointwiseMul (second n (Nat.lt_succ_self n)) with
        ⟨prod, multiplied, product⟩
      rcases listed.nttAdd product with ⟨r, added, sum⟩
      refine ⟨r, ?_, ?_⟩
      · rw [List.range_succ, List.map_append, List.foldlM_append, done]
        simp [multiplied, added]
      · rw [sum_range_succ]
        exact sum

/-- The approximation returns, and represents that of the standard. -/
theorem approximate_some {aHat : ℕ → ℕ → Coeffs} {z t : ℕ → Coeffs}
    (matrix : ∀ i < K, ∀ j < L, Reduced (aHat i j)) (challenge : Reduced c)
    (keys : ∀ i < K, Reduced (t i)) :
    ∃ w : ℕ → Coeffs,
      approximate ((List.range K).map fun i => (List.range L).map (aHat i)) c
        ((List.range L).map z) ((List.range K).map t) = some ((List.range K).map w) ∧
      ∀ i < K, Reduced (w i) ∧ element (w i) =
        ∑ j ∈ range L, element (nttInv (aHat i j)) * element (z j) -
          element c * element (t i) * 2 ^ 13 := by
  rcases nttChecked_lists challenge with ⟨cHat, cDone, cLists⟩
  rcases mapM_vector (n := L) fun j _ => reducePoly_some (z j) with ⟨zRed, zRedDone, zReduced⟩
  rcases mapM_vector (n := L) fun j inside => nttChecked_lists (zReduced j inside).1 with
    ⟨zHat, zDone, zLists⟩
  rcases mapM_vector (n := K) fun i inside =>
    scale_some (by decide : InRange (2 ^ 13)) (keys i inside) with ⟨tRed, tRedDone, tReduced⟩
  rcases mapM_vector (n := K) fun i inside => nttChecked_lists (tReduced i inside).1 with
    ⟨tHat, tDone, tLists⟩
  have rows : ∀ i < K, ∃ r,
      mulVecRow ((List.range L).map (aHat i)) ((List.range L).map zHat) = some r ∧
        Lists r (∑ j ∈ range L, element (nttInv (aHat i j)) * element (zRed j)) := by
    intro i inside
    exact mulVecRow_some (fun j column => Lists.of_reduced (matrix i inside j column)) zLists
  rcases mapM_range_some rows with ⟨azHat, azDone, azLists⟩
  rcases mapM_range_some (n := K) fun i inside => (tLists i inside).pointwiseMul cLists with
    ⟨ctHat, ctDone, ctLists⟩
  rcases mapM_range_some (n := K) fun i inside =>
    (azLists i inside).nttSub (ctLists i inside) with ⟨wHat, wHatDone, wHatLists⟩
  rcases mapM_vector (n := K) fun i inside => (wHatLists i inside).inttChecked with
    ⟨w, wDone, represents⟩
  refine ⟨w, ?_, fun i inside => ⟨(represents i inside).1, ?_⟩⟩
  · have lengths : ((List.range K).map azHat).length = ((List.range K).map ctHat).length := by simp
    have difference : subVec ((List.range K).map azHat) ((List.range K).map ctHat) =
        some ((List.range K).map wHat) := by
      rw [subVec, if_pos lengths, zip_range, List.mapM_map]
      exact wHatDone
    have products : mulVec ((List.range K).map fun i => (List.range L).map (aHat i))
        ((List.range L).map zHat) = some ((List.range K).map azHat) := by
      rw [mulVec, List.mapM_map]
      exact azDone
    have scaled : scalePoly ((List.range K).map tHat) cHat = some ((List.range K).map ctHat) := by
      rw [scalePoly, List.mapM_map]
      exact ctDone
    simp only [approximate, nttVec, scalePower2, inttVec, cDone, zRedDone, zDone, tRedDone,
      tDone, products, scaled, difference, Option.bind_eq_bind, Option.bind_some]
    exact wDone
  · have sums : ∑ j ∈ range L, element (nttInv (aHat i j)) * element (zRed j) =
        ∑ j ∈ range L, element (nttInv (aHat i j)) * element (z j) := by
      apply sum_congr rfl
      intro j column
      rw [(zReduced j (mem_range.mp column)).2]
    rw [(represents i inside).2, sums, (tReduced i inside).2]
    push_cast
    ring

end Vectors

/-! ## Encodings -/

/-- The coefficients of a list. -/
def toCoeffs (l : List ℤ) : Coeffs := fun i => l.getD i 0

def w1Encode (w1 : List Coeffs) : List Byte :=
  w1.flatMap fun p => simpleBitPack ((List.range N).map p) 4

section Encodings

theorem packedValue_testBit (bytes : List Byte) (bits i b : ℕ) :
    (packedValue bytes bits i).testBit b = (decide (b < bits) && byteBit bytes (i * bits + b)) := by
  have small : ∀ digit ∈ bytes.map BitVec.toNat, digit < 256 := by
    intro digit member
    rcases List.mem_map.mp member with ⟨byte, -, rfl⟩
    exact byte.isLt
  have digit (k : ℕ) : (bytes.map BitVec.toNat).getD k 0 = (bytes.getD k 0).toNat := by
    rw [List.getD_eq_getElem?_getD, List.getElem?_map, List.getD_eq_getElem?_getD]
    cases bytes[k]? with
    | none => rfl
    | some byte => rfl
  rw [packedValue, Nat.testBit_mod_two_pow, Nat.testBit_div_two_pow, testBit_ofDigits small, digit,
    byteBit, Nat.mul_comm i bits, Nat.add_comm b]
  rfl

/-- Unpacked values are digits of the number that the bytes are. -/
theorem unpackBits_getElem? (bytes : List Byte) {bits count i : ℕ} (inside : i < count) :
    (unpackBits bytes bits count)[i]? = some (packedValue bytes bits i : ℤ) := by
  rcases (unpackFrom_spec bytes bits count 0).2 i inside with ⟨value, found, bitsAt⟩
  have same : value = packedValue bytes bits i := by
    apply Nat.eq_of_testBit_eq
    intro b
    rw [bitsAt, packedValue_testBit, Nat.zero_add]
  rw [unpackBits, found, same]

theorem simpleBitUnpack_agree (bytes : List Byte) (bits : ℕ) :
    Agree (toCoeffs (simpleBitUnpack bytes bits)) fun i => packedValue bytes bits i := by
  intro i inside
  rw [toCoeffs, simpleBitUnpack, List.getD_eq_getElem?_getD, unpackBits_getElem? bytes inside]
  rfl

theorem bitUnpack_agree (bytes : List Byte) (upper : ℤ) (bits : ℕ) :
    Agree (toCoeffs (bitUnpack bytes upper bits)) fun i => upper - packedValue bytes bits i := by
  intro i inside
  rw [toCoeffs, bitUnpack, List.getD_eq_getElem?_getD, List.getElem?_map,
    unpackBits_getElem? bytes inside]
  rfl

theorem packedValue_lt (bytes : List Byte) (bits i : ℕ) : packedValue bytes bits i < 2 ^ bits :=
  Nat.mod_lt _ (Nat.two_pow_pos bits)

/-- Coefficients below 16 are packed two in a byte. -/
theorem simpleBitPack_nibbles {p : Coeffs} (small : ∀ i < N, 0 ≤ p i ∧ p i < 16) :
    simpleBitPack ((List.range N).map p) 4 = packNibbles p := by
  rcases packBits_spec ((List.range N).map p) 4 with ⟨length, bits⟩
  have count : (packBits ((List.range N).map p) 4).length = 128 := by
    rw [length, List.length_map, List.length_range]
    rfl
  have lengths : (packBits ((List.range N).map p) 4).length = (packNibbles p).length := by
    rw [count, packNibbles, List.length_map, List.length_range]
  apply byte_eq_of_byteBit lengths
  intro pos inside
  rw [count] at inside
  have coefficient : pos / 4 < N := by
    rw [N]
    omega
  have found : ((List.range N).map p)[pos / 4]? = some (p (pos / 4)) := by
    rw [List.getElem?_map, List.getElem?_range coefficient]
    rfl
  have offset : pos % 4 < 4 := Nat.mod_lt _ (by decide)
  have entry := streamOf_getD found offset
  rw [Nat.div_add_mod' pos 4] at entry
  have byte : pos / 8 < 128 := by omega
  have low : 2 * (pos / 8) < N := by
    rw [N]
    omega
  have high : 2 * (pos / 8) + 1 < N := by
    rw [N]
    omega
  rw [bits, entry, byteBit, packNibbles, List.getD_eq_getElem?_getD, List.getElem?_map,
    List.getElem?_range byte, Option.map_some, Option.getD_some]
  obtain ⟨first, firstEq⟩ := Int.eq_ofNat_of_zero_le (small _ low).1
  obtain ⟨second, secondEq⟩ := Int.eq_ofNat_of_zero_le (small _ high).1
  have firstSmall : first < 2 ^ 4 := by
    have bound := (small _ low).2
    omega
  have whole : p (2 * (pos / 8)) + 16 * p (2 * (pos / 8) + 1) = (2 ^ 4 * second + first : ℕ) := by
    rw [firstEq, secondEq]
    push_cast
    ring
  have within : pos % 8 < 8 := Nat.mod_lt _ (by decide)
  rw [whole, BitVec.ofInt_natCast, BitVec.getLsbD_ofNat, decide_eq_true within, Bool.true_and,
    Nat.testBit_two_pow_mul_add _ firstSmall]
  by_cases lower : pos % 8 < 4
  · have place : pos / 4 = 2 * (pos / 8) := by omega
    have bit : pos % 4 = pos % 8 := by omega
    rw [if_pos lower, place, bit, firstEq]
    exact valueBit_natCast first _
  · have place : pos / 4 = 2 * (pos / 8) + 1 := by omega
    have bit : pos % 4 = pos % 8 - 4 := by omega
    rw [if_neg lower, place, bit, secondEq]
    exact valueBit_natCast second _

end Encodings

/-! ## Rejection loops -/

/-- The rejection loops end on every output. -/
structure RejectionEnds (shake128 shake256 : List Byte → Xof) : Prop where
  matrix : ∀ seed, ∃ fuel, (rejNttPoly (shake128 seed) fuel).isSome
  challenge : ∀ seed, ∃ fuel, (sampleInBall (shake256 seed) fuel).isSome

/-! ## The verifier -/

section Verifier

variable (shake128 shake256 : List Byte → Xof) (fuel : ℕ)

def expandA (rho : List Byte) : Option (List (List Coeffs)) :=
  (List.range K).mapM fun i => (List.range L).mapM fun j =>
    rejNttPoly (shake128 (rho ++ [BitVec.ofNat 8 j, BitVec.ofNat 8 i])) fuel

def hashPk (pk : List Byte) : List Byte := squeeze (shake256 pk) 64

def hashMu (tr msg : List Byte) : List Byte := squeeze (shake256 (tr ++ msg)) 64

def hashCommit (mu w1Enc : List Byte) (outLen : ℕ) : List Byte :=
  squeeze (shake256 (mu ++ w1Enc)) outLen

/-- The verifier after the norm check. -/
def recomputes (pk msg rho cTilde : List Byte) (z t1 : List Coeffs) (hints : List (List Bool)) :
    Option Bool := do
  let aHat ← expandA shake128 fuel rho
  let c ← sampleInBall (shake256 cTilde) fuel
  let w ← approximate aHat c z t1
  let w1Prime ← useHintVec w hints
  let tr := hashPk shake256 pk
  let mu := hashMu shake256 tr ([0, 0] ++ msg)
  return cTilde = hashCommit shake256 mu (w1Encode w1Prime) LAMBDA_BYTES

/-- The magnitudes of all coefficients; `abs` overflows on the least `i64`. -/
def magnitudes (z : List (List ℤ)) : Option (List ℤ) := z.flatten.mapM fun c => i64 |c|

/-- `ml_dsa_verify`: lengths, decoding, the norm bound, and the hash recomputed from matrix,
challenge and hints.  `none` is a failed assertion, an overflow or a rejection loop that has not
ended within the reads given; the subtractions of `bit_unpack` are checked here. -/
def mlDsaVerify (pk msg sig : List Byte) : Option Bool :=
  if pk.length ≠ PK_BYTES ∨ sig.length ≠ SIG_BYTES then some false
  else
    match pkDecode pk with
    | .error _ => some false
    | .ok (rho, t1) =>
        match sigDecode sig with
        | .error _ => some false
        | .ok (cTilde, z, hints) => do
            let z ← z.mapM fun p => p.mapM i64
            let norms ← magnitudes z
            if GAMMA1 - BETA ≤ norms.max?.getD 0 then return false
            else
              recomputes shake128 shake256 fuel pk msg rho cTilde (z.map toCoeffs)
                (t1.map toCoeffs) hints

end Verifier

end Mldsa
end QLSA
