import QLSA.Mldsa.Ntt
import Mathlib.Data.Nat.Count
import Mathlib.Data.Nat.Digits.Defs
import Mathlib.Data.Finset.Card
import Mathlib.Order.Interval.Finset.Nat

namespace QLSA
namespace Mldsa

/-!
# Rejection sampling

Both samplers read bytes until enough of them are acceptable, and need not end.
A coefficient of a matrix entry is taken from three bytes.  The challenge gets
its signs one after the other: the sign that stands where a new one goes is
moved to the next coefficient, which has none yet.  So no sign is lost, and
`place` says where each of them ends up.
-/

/-- The bytes of an extendable output, by position. -/
abbrev Xof := ℕ → UInt8

/-- Number of signs in a challenge. -/
def TAU : ℕ := 49

/-! ## Matrix entries -/

/-- Three bytes as a number of 23 bits. -/
def candidate (b0 b1 b2 : UInt8) : ℤ :=
  (b0.toNat ||| b1.toNat <<< 8 ||| (b2 &&& 0x7F).toNat <<< 16 : ℕ)

/-- The loop of `rej_ntt_poly`, for at most `fuel` reads. -/
def rejNttLoop (xof : Xof) : ℕ → ℕ → ℕ → Coeffs → Option Coeffs
  | 0, _, j, coeffs => if j < N then none else some coeffs
  | fuel + 1, pos, j, coeffs =>
      if j < N then
        let z := candidate (xof pos) (xof (pos + 1)) (xof (pos + 2))
        if z < Q then rejNttLoop xof fuel (pos + 3) (j + 1) (Function.update coeffs j z)
        else rejNttLoop xof fuel (pos + 3) j coeffs
      else some coeffs

/-- `rej_ntt_poly` on the output for a seed. -/
def rejNttPoly (xof : Xof) (fuel : ℕ) : Option Coeffs := rejNttLoop xof fuel 0 0 fun _ => 0

/-! ## Challenges -/

/-- The first byte from a position that is at most `i`, with the position behind it. -/
def drawIndex (xof : Xof) (i : ℕ) : ℕ → ℕ → Option (ℕ × ℕ)
  | 0, _ => none
  | fuel + 1, pos =>
      let b := (xof pos).toNat
      if b ≤ i then some (b, pos + 1) else drawIndex xof i fuel (pos + 1)

/-- The state of the loop of `sample_in_ball`. -/
structure Sampler where
  pos : ℕ
  signs : ℕ
  c : Coeffs

/-- The coefficient at `j` moves to `i` and the next sign to `j`. -/
def putSign (c : Coeffs) (i j : ℕ) (sign : ℤ) : Coeffs :=
  Function.update (Function.update c i (c j)) j sign

/-- One pass of the loop. -/
def Sampler.next (xof : Xof) (fuel : ℕ) (state : Sampler) (i : ℕ) : Option Sampler := do
  let (j, pos) ← drawIndex xof i fuel state.pos
  return ⟨pos, state.signs >>> 1, putSign state.c i j (1 - 2 * (state.signs &&& 1 : ℕ))⟩

/-- `u64::from_le_bytes` of the first eight bytes. -/
def signBytes (xof : Xof) : ℕ := Nat.ofDigits 256 ((List.range 8).map fun k => (xof k).toNat)

/-- `sample_in_ball` on the output for a seed, with at most `fuel` draws for each index. -/
def sampleInBall (xof : Xof) (fuel : ℕ) : Option Coeffs := do
  let start : Sampler := ⟨8, signBytes xof, fun _ => 0⟩
  let done ← (List.range' (N - TAU) TAU).foldlM (Sampler.next xof fuel) start
  return fun k => if done.c k < 0 then done.c k + Q else done.c k

/-! ## What the samplers should return -/

/-- The number of 23 bits in three bytes of the output. -/
def triple (xof : Xof) (k : ℕ) : ℤ :=
  ((xof (3 * k)).toNat + 256 * (xof (3 * k + 1)).toNat +
    65536 * ((xof (3 * k + 2)).toNat % 128) : ℕ)

/-- A value is the `j`-th triple below the modulus. -/
def Sampled (xof : Xof) (j : ℕ) (value : ℤ) : Prop :=
  ∃ k, value = triple xof k ∧ triple xof k < Q ∧ Nat.count (fun k => triple xof k < Q) k = j

/-- Draws of a challenge, the last one first, and the position behind them. -/
inductive Drawn (xof : Xof) : List ℕ → ℕ → Prop
  | start : Drawn xof [] 8
  | draw {draws : List ℕ} {pos skipped : ℕ} (before : Drawn xof draws pos)
      (rejected : ∀ q < skipped, N - TAU + draws.length < (xof (pos + q)).toNat)
      (accepted : (xof (pos + skipped)).toNat ≤ N - TAU + draws.length) :
      Drawn xof ((xof (pos + skipped)).toNat :: draws) (pos + skipped + 1)

/-- Where the sign with a number stands after all draws. -/
def place : List ℕ → ℕ → ℕ
  | [], _ => 0
  | j :: draws, t =>
      if t = draws.length then j
      else if place draws t = j then N - TAU + draws.length
      else place draws t

/-- The `t`-th bit of the first eight bytes. -/
def signBit (xof : Xof) (t : ℕ) : Bool := (xof (t / 8)).toNat.testBit (t % 8)

/-- The loops of `sample_in_ball` end: every index meets a byte that it accepts. -/
def BallEnds (xof : Xof) : Prop := ∃ draws pos, Drawn xof draws pos ∧ draws.length = TAU

/-- The loop of `rej_ntt_poly` ends: enough triples are below the modulus. -/
def EntryEnds (xof : Xof) : Prop := ∃ reads, N ≤ Nat.count (fun k => triple xof k < Q) reads

/-- A challenge with the signs of an output. -/
structure InBall (xof : Xof) (c : Coeffs) : Prop where
  weight : ((Finset.range N).filter fun k => c k ≠ 0).card = TAU
  sign : ∀ k < N, c k ≠ 0 → c k = 1 ∨ c k = Q - 1
  placed : ∃ draws pos, Drawn xof draws pos ∧ draws.length = TAU ∧
    Set.InjOn (place draws) (Set.Iio TAU) ∧
    ∀ t < TAU, place draws t < N ∧ c (place draws t) = if signBit xof t then Q - 1 else 1

/-! ## Matrix entries are taken in order -/

section Entries

variable {xof : Xof} {coeffs result : Coeffs} {fuel n j : ℕ}

theorem candidate_eq (xof : Xof) (k : ℕ) :
    candidate (xof (3 * k)) (xof (3 * k + 1)) (xof (3 * k + 2)) = triple xof k := by
  have low := (xof (3 * k)).toNat_lt
  have middle := (xof (3 * k + 1)).toNat_lt
  have cleared : (xof (3 * k + 2) &&& 0x7F).toNat = (xof (3 * k + 2)).toNat % 2 ^ 7 := by
    rw [UInt8.toNat_and]
    exact Nat.and_two_pow_sub_one_eq_mod _ 7
  have joined : (xof (3 * k)).toNat ||| (xof (3 * k + 1)).toNat <<< 8 =
      (xof (3 * k + 1)).toNat <<< 8 + (xof (3 * k)).toNat := by
    rw [Nat.or_comm, Nat.shiftLeft_add_eq_or_of_lt low]
  have below : (xof (3 * k + 1)).toNat <<< 8 + (xof (3 * k)).toNat < 2 ^ 16 := by
    rw [Nat.shiftLeft_eq]
    omega
  rw [candidate, cleared, joined, Nat.or_comm, ← Nat.shiftLeft_add_eq_or_of_lt below,
    Nat.shiftLeft_eq, Nat.shiftLeft_eq, triple]
  congr 1
  omega

theorem triple_nonneg (xof : Xof) (k : ℕ) : 0 ≤ triple xof k := Int.natCast_nonneg _

/-- The loop keeps the accepted triples in order. -/
theorem rejNttLoop_sampled (reached : j = Nat.count (fun k => triple xof k < Q) n)
    (sampled : ∀ i < j, Sampled xof i (coeffs i))
    (done : rejNttLoop xof fuel (3 * n) j coeffs = some result) :
    ∀ i < N, Sampled xof i (result i) := by
  induction fuel generalizing n j coeffs with
  | zero =>
      rw [rejNttLoop] at done
      split at done
      · cases done
      · cases done
        exact fun i inside => sampled i (by omega)
  | succ fuel ih =>
      rw [rejNttLoop] at done
      by_cases more : j < N
      · simp only [more, if_true, candidate_eq, ← Nat.mul_succ] at done
        by_cases small : triple xof n < Q
        · rw [if_pos small] at done
          have next : j + 1 = Nat.count (fun k => triple xof k < Q) (n + 1) := by
            rw [Nat.count_succ, if_pos small, reached]
          refine ih next (fun i below => ?_) done
          rcases Nat.lt_succ_iff_lt_or_eq.mp below with earlier | rfl
          · rw [Function.update_of_ne earlier.ne]
            exact sampled i earlier
          · rw [Function.update_self]
            exact ⟨n, rfl, small, reached.symm⟩
        · rw [if_neg small] at done
          have same : j = Nat.count (fun k => triple xof k < Q) (n + 1) := by
            rw [Nat.count_succ, if_neg small, Nat.add_zero, reached]
          exact ih same sampled done
      · rw [if_neg more] at done
        cases done
        exact fun i inside => sampled i (by omega)

theorem rejNttPoly_sampled (done : rejNttPoly xof fuel = some result) :
    ∀ i < N, Sampled xof i (result i) :=
  rejNttLoop_sampled (n := 0) rfl (fun _ below => absurd below (Nat.not_lt_zero _)) done

theorem rejNttLoop_isSome (reached : j = Nat.count (fun k => triple xof k < Q) n) :
    (rejNttLoop xof fuel (3 * n) j coeffs).isSome ↔
      N ≤ Nat.count (fun k => triple xof k < Q) (n + fuel) := by
  induction fuel generalizing n j coeffs with
  | zero =>
      rw [rejNttLoop, Nat.add_zero, ← reached]
      by_cases more : j < N
      · simp [more]
      · simp [more, not_lt.mp more]
  | succ fuel ih =>
      rw [rejNttLoop]
      by_cases more : j < N
      · simp only [more, if_true, candidate_eq, ← Nat.mul_succ]
        rw [Nat.add_comm fuel 1, ← Nat.add_assoc]
        by_cases small : triple xof n < Q
        · rw [if_pos small]
          exact ih (by rw [Nat.count_succ, if_pos small, reached])
        · rw [if_neg small]
          exact ih (by rw [Nat.count_succ, if_neg small, Nat.add_zero, reached])
      · have grown := Nat.count_monotone (fun k => triple xof k < Q) (Nat.le_add_right n (fuel + 1))
        rw [if_neg more]
        exact iff_of_true rfl ((not_lt.mp more).trans (reached.le.trans grown))

/-- It ends as soon as enough of the triples read are below the modulus. -/
theorem rejNttPoly_isSome :
    (rejNttPoly xof fuel).isSome ↔ N ≤ Nat.count (fun k => triple xof k < Q) fuel := by
  have loop : (rejNttLoop xof fuel (3 * 0) 0 fun _ => 0).isSome ↔ _ := rejNttLoop_isSome rfl
  rwa [Nat.zero_add] at loop

/-- More reads change nothing after the loop has ended. -/
theorem rejNttLoop_more {more pos : ℕ} (enough : fuel ≤ more)
    (done : rejNttLoop xof fuel pos j coeffs = some result) :
    rejNttLoop xof more pos j coeffs = some result := by
  induction fuel generalizing more pos j coeffs with
  | zero =>
      rw [rejNttLoop] at done
      split at done
      case isTrue => cases done
      case isFalse filled =>
        cases more with
        | zero => rwa [rejNttLoop, if_neg filled]
        | succ more => rwa [rejNttLoop, if_neg filled]
  | succ fuel ih =>
      cases more with
      | zero => omega
      | succ more =>
          rw [rejNttLoop] at done ⊢
          split at done
          case isTrue missing =>
            rw [if_pos missing]
            dsimp only at done ⊢
            split at done
            case isTrue small =>
              rw [if_pos small]
              exact ih (by omega) done
            case isFalse large =>
              rw [if_neg large]
              exact ih (by omega) done
          case isFalse filled =>
            rw [if_neg filled]
            exact done

theorem rejNttPoly_more {more : ℕ} (enough : fuel ≤ more)
    (done : rejNttPoly xof fuel = some result) : rejNttPoly xof more = some result :=
  rejNttLoop_more enough done

end Entries

/-! ## Signs are kept apart -/

section Places

variable {draws : List ℕ} {t : ℕ}

/-- Every draw is at most the index it was drawn for. -/
def DrawsBelow : List ℕ → Prop
  | [] => True
  | j :: draws => j ≤ N - TAU + draws.length ∧ DrawsBelow draws

/-- Signs stand before the index that comes next. -/
theorem place_lt (bounded : DrawsBelow draws) (placed : t < draws.length) :
    place draws t < N - TAU + draws.length := by
  induction draws with
  | nil => exact absurd placed (Nat.not_lt_zero t)
  | cons j draws ih =>
      have drawn := bounded.1
      rw [place, List.length_cons]
      rw [List.length_cons] at placed
      split
      · omega
      · split
        · omega
        · have before := ih bounded.2 (by omega)
          omega

/-- The place of an earlier sign after another draw. -/
theorem place_cons {j : ℕ} (placed : t < draws.length) :
    place (j :: draws) t =
      if place draws t = j then N - TAU + draws.length else place draws t := by
  rw [place, if_neg placed.ne]

theorem place_last (j : ℕ) (draws : List ℕ) : place (j :: draws) draws.length = j := by
  rw [place, if_pos rfl]

/-- A new sign goes where no other sign is left. -/
theorem place_cons_ne {j : ℕ} (bounded : DrawsBelow (j :: draws)) (placed : t < draws.length) :
    place (j :: draws) t ≠ j := by
  have before := place_lt bounded.2 placed
  rw [place_cons placed]
  split
  · omega
  · assumption

theorem place_injOn (bounded : DrawsBelow draws) :
    Set.InjOn (place draws) (Set.Iio draws.length) := by
  induction draws with
  | nil => exact fun t below => absurd below (Nat.not_lt_zero t)
  | cons j draws ih =>
      intro t below s belowToo same
      rw [Set.mem_Iio, List.length_cons, Nat.lt_succ_iff_lt_or_eq] at below belowToo
      rcases below with earlier | rfl
      · rcases belowToo with earlierToo | rfl
        · have first := place_lt bounded.2 earlier
          have second := place_lt bounded.2 earlierToo
          rw [place_cons earlier, place_cons earlierToo] at same
          refine ih bounded.2 earlier earlierToo ?_
          split at same
          · split at same
            · omega
            · omega
          · split at same
            · omega
            · exact same
        · rw [place_last] at same
          exact absurd same (place_cons_ne bounded earlier)
      · rcases belowToo with earlierToo | rfl
        · rw [place_last] at same
          exact absurd same.symm (place_cons_ne bounded earlierToo)
        · rfl

end Places

/-! ## The loop of the challenge -/

section Challenge

variable {xof : Xof} {draws : List ℕ} {state after : Sampler} {fuel i pos j : ℕ}

theorem drawIndex_spec {drawn : ℕ × ℕ} (done : drawIndex xof i fuel pos = some drawn) :
    ∃ skipped, (∀ q < skipped, i < (xof (pos + q)).toNat) ∧ (xof (pos + skipped)).toNat ≤ i ∧
      drawn = ((xof (pos + skipped)).toNat, pos + skipped + 1) := by
  induction fuel generalizing pos with
  | zero => cases done
  | succ fuel ih =>
      rw [drawIndex] at done
      by_cases accepted : (xof pos).toNat ≤ i
      · rw [if_pos accepted] at done
        cases done
        exact ⟨0, fun q below => absurd below (Nat.not_lt_zero q), accepted, rfl⟩
      · rw [if_neg accepted] at done
        obtain ⟨skipped, rejected, fits, same⟩ := ih done
        have shift : pos + (skipped + 1) = pos + 1 + skipped := by omega
        refine ⟨skipped + 1, fun q below => ?_, by rwa [shift], by rw [shift]; exact same⟩
        cases q with
        | zero => exact not_le.mp accepted
        | succ q =>
            have earlier := rejected q (by omega)
            rwa [Nat.add_right_comm pos 1 q] at earlier

theorem Drawn.bounded (drawn : Drawn xof draws pos) : DrawsBelow draws := by
  induction drawn with
  | start => trivial
  | draw _ _ accepted ih => exact ⟨accepted, ih⟩

/-- The coefficient of a sign before it is reduced. -/
def signValue (xof : Xof) (t : ℕ) : ℤ := 1 - 2 * ((signBytes xof).testBit t).toNat

/-- The state of the loop after some draws: the signs so far are in their places,
and all other coefficients are zero. -/
structure Sampler.Holds (xof : Xof) (draws : List ℕ) (state : Sampler) : Prop where
  drawn : Drawn xof draws state.pos
  signs : state.signs = signBytes xof >>> draws.length
  sign : ∀ t < draws.length, state.c (place draws t) = signValue xof t
  zero : ∀ k, (∀ t < draws.length, place draws t ≠ k) → state.c k = 0

theorem Sampler.Holds.start (xof : Xof) : Sampler.Holds xof [] ⟨8, signBytes xof, fun _ => 0⟩ where
  drawn := .start
  signs := rfl
  sign := fun _ below => absurd below (Nat.not_lt_zero _)
  zero := fun _ _ => rfl

/-- The lowest bit of the signs that are left. -/
theorem Sampler.Holds.bit (holds : state.Holds xof draws) :
    1 - 2 * ((state.signs &&& 1 : ℕ) : ℤ) = signValue xof draws.length := by
  rw [holds.signs, signValue, Nat.toNat_testBit, Nat.and_one_is_mod, Nat.shiftRight_eq_div_pow]

theorem Sampler.Holds.putSign_place (holds : state.Holds xof draws)
    (bounded : DrawsBelow (j :: draws)) :
    ∀ t < draws.length + 1,
      putSign state.c (N - TAU + draws.length) j (signValue xof draws.length)
        (place (j :: draws) t) = signValue xof t := by
  intro t below
  rcases Nat.lt_succ_iff_lt_or_eq.mp below with earlier | rfl
  · have before := place_lt bounded.2 earlier
    have apart := place_cons_ne bounded earlier
    rw [putSign, Function.update_of_ne apart, place_cons earlier]
    split
    · next moved =>
        rw [Function.update_self, ← moved]
        exact holds.sign t earlier
    · rw [Function.update_of_ne before.ne]
      exact holds.sign t earlier
  · rw [place_last, putSign, Function.update_self]

theorem Sampler.Holds.putSign_zero (holds : state.Holds xof draws) {k : ℕ}
    (free : ∀ t < draws.length + 1, place (j :: draws) t ≠ k) :
    putSign state.c (N - TAU + draws.length) j (signValue xof draws.length) k = 0 := by
  have other : k ≠ j := fun same =>
    free draws.length (Nat.lt_succ_self _) ((place_last j draws).trans same.symm)
  rw [putSign, Function.update_of_ne other]
  by_cases target : k = N - TAU + draws.length
  · rw [target, Function.update_self]
    refine holds.zero j fun t earlier moved => ?_
    have taken := free t (Nat.lt_succ_of_lt earlier)
    rw [place_cons earlier, if_pos moved] at taken
    exact taken target.symm
  · rw [Function.update_of_ne target]
    refine holds.zero k fun t earlier same => ?_
    have taken := free t (Nat.lt_succ_of_lt earlier)
    rw [place_cons earlier, if_neg (same.trans_ne other)] at taken
    exact taken same

theorem Sampler.Holds.next (holds : state.Holds xof draws)
    (done : state.next xof fuel (N - TAU + draws.length) = some after) :
    ∃ j, after.Holds xof (j :: draws) := by
  rw [Sampler.next] at done
  cases drawing : drawIndex xof (N - TAU + draws.length) fuel state.pos with
  | none =>
      rw [drawing] at done
      cases done
  | some drawn =>
      obtain ⟨skipped, rejected, accepted, rfl⟩ := drawIndex_spec drawing
      rw [drawing] at done
      cases done
      have extended := Drawn.draw holds.drawn rejected accepted
      refine ⟨_, extended, ?_, fun t below => ?_, fun k free => ?_⟩
      · rw [holds.signs, List.length_cons, Nat.shiftRight_add]
      · simp only [holds.bit]
        exact holds.putSign_place extended.bounded t below
      · simp only [holds.bit]
        exact holds.putSign_zero free

/-- After some passes there are as many draws. -/
theorem sampler_run {count : ℕ}
    (done : (List.range' (N - TAU) count).foldlM (Sampler.next xof fuel)
      ⟨8, signBytes xof, fun _ => 0⟩ = some state) :
    ∃ draws, draws.length = count ∧ state.Holds xof draws := by
  induction count generalizing state with
  | zero =>
      cases done
      exact ⟨[], rfl, .start xof⟩
  | succ count ih =>
      rw [List.range'_concat, Nat.one_mul, List.foldlM_append] at done
      cases front : (List.range' (N - TAU) count).foldlM (Sampler.next xof fuel)
          ⟨8, signBytes xof, fun _ => 0⟩ with
      | none =>
          rw [front] at done
          cases done
      | some middle =>
          rw [front, Option.bind_eq_bind, Option.bind_some, List.foldlM_cons] at done
          obtain ⟨draws, counted, holds⟩ := ih front
          cases last : middle.next xof fuel (N - TAU + count) with
          | none =>
              rw [last] at done
              cases done
          | some final =>
              rw [last] at done
              cases done
              rw [← counted] at last
              obtain ⟨j, reached⟩ := holds.next last
              exact ⟨j :: draws, by rw [List.length_cons, counted], reached⟩

/-! ## More draws change nothing -/

theorem drawIndex_more {more : ℕ} {drawn : ℕ × ℕ} (enough : fuel ≤ more)
    (done : drawIndex xof i fuel pos = some drawn) : drawIndex xof i more pos = some drawn := by
  induction fuel generalizing more pos with
  | zero => cases done
  | succ fuel ih =>
      cases more with
      | zero => omega
      | succ more =>
          rw [drawIndex] at done ⊢
          split at done
          case isTrue accepted =>
            rw [if_pos accepted]
            exact done
          case isFalse rejected =>
            rw [if_neg rejected]
            exact ih (by omega) done

theorem sampler_more {more : ℕ} {indices : List ℕ} (enough : fuel ≤ more)
    (done : indices.foldlM (Sampler.next xof fuel) state = some after) :
    indices.foldlM (Sampler.next xof more) state = some after := by
  induction indices generalizing state with
  | nil => exact done
  | cons i rest ih =>
      rw [List.foldlM_cons] at done ⊢
      rcases Option.bind_eq_some_iff.mp done with ⟨next, passed, later⟩
      rcases Option.bind_eq_some_iff.mp passed with ⟨drawn, draws, returned⟩
      have again : Sampler.next xof more state i = some next := by
        rw [Sampler.next, drawIndex_more enough draws]
        exact returned
      rw [again]
      exact ih later

theorem sampleInBall_more {more : ℕ} {c : Coeffs} (enough : fuel ≤ more)
    (done : sampleInBall xof fuel = some c) : sampleInBall xof more = some c := by
  rw [sampleInBall] at done ⊢
  rcases Option.bind_eq_some_iff.mp done with ⟨state, ran, returned⟩
  rw [sampler_more enough ran]
  exact returned

/-- A draw that skips some bytes needs one more than these. -/
theorem drawIndex_some {skipped : ℕ} (rejected : ∀ q < skipped, i < (xof (pos + q)).toNat)
    (accepted : (xof (pos + skipped)).toNat ≤ i) :
    drawIndex xof i (skipped + 1) pos =
      some ((xof (pos + skipped)).toNat, pos + skipped + 1) := by
  induction skipped generalizing pos with
  | zero =>
      rw [Nat.add_zero] at accepted
      rw [drawIndex, if_pos accepted]
      rfl
  | succ skipped ih =>
      have first : ¬ (xof pos).toNat ≤ i := not_le.mpr (rejected 0 (Nat.succ_pos skipped))
      have shift : pos + (skipped + 1) = pos + 1 + skipped := by omega
      have later : ∀ q < skipped, i < (xof (pos + 1 + q)).toNat := by
        intro q below
        have own := rejected (q + 1) (by omega)
        rwa [← Nat.add_assoc, Nat.add_right_comm] at own
      rw [shift] at accepted ⊢
      rw [drawIndex, if_neg first]
      exact ih later accepted

/-- With enough reads the loop makes every run of draws that the output has. -/
theorem sampler_reaches (drawn : Drawn xof draws pos) :
    ∃ fuel final, (List.range' (N - TAU) draws.length).foldlM (Sampler.next xof fuel)
      ⟨8, signBytes xof, fun _ => 0⟩ = some final ∧ final.pos = pos := by
  induction drawn with
  | start => exact ⟨0, _, rfl, rfl⟩
  | @draw draws pos skipped before rejected accepted ih =>
      rcases ih with ⟨fuel, middle, ran, reached⟩
      have front := sampler_more (le_max_left fuel (skipped + 1)) ran
      have last := drawIndex_more (le_max_right fuel (skipped + 1))
        (drawIndex_some rejected accepted)
      subst reached
      have indices : List.range' (N - TAU) (draws.length + 1) =
          List.range' (N - TAU) draws.length ++ [N - TAU + draws.length] := by
        rw [List.range'_concat, Nat.one_mul]
      have passed : ∃ after, middle.next xof (max fuel (skipped + 1)) (N - TAU + draws.length) =
          some after ∧ after.pos = middle.pos + skipped + 1 := by
        rw [Sampler.next, last]
        exact ⟨_, rfl, rfl⟩
      rcases passed with ⟨after, passed, behind⟩
      refine ⟨max fuel (skipped + 1), after, ?_, behind⟩
      rw [List.length_cons, indices, List.foldlM_append, front, Option.bind_eq_bind,
        Option.bind_some, List.foldlM_cons, passed]
      rfl

/-! ## The signs are the bits of the first bytes -/

theorem testBit_ofDigits {digits : List ℕ} (small : ∀ digit ∈ digits, digit < 256) (t : ℕ) :
    (Nat.ofDigits 256 digits).testBit t = (digits.getD (t / 8) 0).testBit (t % 8) := by
  induction digits generalizing t with
  | nil => simp
  | cons digit rest ih =>
      rw [List.forall_mem_cons] at small
      have split : Nat.ofDigits 256 (digit :: rest) = 2 ^ 8 * Nat.ofDigits 256 rest + digit := by
        rw [Nat.ofDigits_cons]
        ring
      rw [split, Nat.testBit_two_pow_mul_add _ small.1]
      by_cases first : t < 8
      · rw [if_pos first, Nat.div_eq_of_lt first, Nat.mod_eq_of_lt first, List.getD_cons_zero]
      · have place : t / 8 = (t - 8) / 8 + 1 := by omega
        have offset : t % 8 = (t - 8) % 8 := by omega
        rw [if_neg first, ih small.2, place, offset, List.getD_cons_succ]

theorem signBytes_testBit {t : ℕ} (inside : t < TAU) :
    (signBytes xof).testBit t = signBit xof t := by
  have small : ∀ digit ∈ (List.range 8).map fun k => (xof k).toNat, digit < 256 := by
    intro digit member
    obtain ⟨k, _, rfl⟩ := List.mem_map.mp member
    exact (xof k).toNat_lt
  have byte : t / 8 < 8 := by
    rw [TAU] at inside
    omega
  rw [signBytes, testBit_ofDigits small, List.getD_eq_getElem?_getD, List.getElem?_map,
    List.getElem?_range byte, signBit]
  rfl

/-- The reduced coefficient of a sign. -/
theorem signValue_reduced {t : ℕ} (inside : t < TAU) :
    (if signValue xof t < 0 then signValue xof t + Q else signValue xof t) =
      if signBit xof t then Q - 1 else 1 := by
  rw [signValue, signBytes_testBit inside]
  cases signBit xof t <;> decide

/-- Coefficients that are zero except at a number of different places. -/
theorem weight_eq {c : Coeffs} {spot : ℕ → ℕ} (inside : ∀ t < TAU, spot t < N)
    (apart : Set.InjOn spot (Set.Iio TAU)) (filled : ∀ t < TAU, c (spot t) ≠ 0)
    (elsewhere : ∀ k, (∀ t < TAU, spot t ≠ k) → c k = 0) :
    ((Finset.range N).filter fun k => c k ≠ 0).card = TAU := by
  have same : ((Finset.range N).filter fun k => c k ≠ 0) = (Finset.range TAU).image spot := by
    ext k
    rw [Finset.mem_filter, Finset.mem_image]
    constructor
    · rintro ⟨_, nonzero⟩
      by_contra unoccupied
      refine nonzero (elsewhere k fun t below here => unoccupied ⟨t, ?_, here⟩)
      exact Finset.mem_range.mpr below
    · rintro ⟨t, below, rfl⟩
      rw [Finset.mem_range] at below
      exact ⟨Finset.mem_range.mpr (inside t below), filled t below⟩
  rw [same, Finset.card_image_of_injOn (by rwa [Finset.coe_range]), Finset.card_range]

theorem sampleInBall_inBall {c : Coeffs} (done : sampleInBall xof fuel = some c) :
    InBall xof c := by
  rw [sampleInBall] at done
  cases running : (List.range' (N - TAU) TAU).foldlM (Sampler.next xof fuel)
      ⟨8, signBytes xof, fun _ => 0⟩ with
  | none =>
      simp only [running] at done
      cases done
  | some final =>
      simp only [running] at done
      cases done
      obtain ⟨draws, counted, holds⟩ := sampler_run running
      have bounded := holds.drawn.bounded
      have inside : ∀ t < TAU, place draws t < N := by
        intro t below
        have before := place_lt bounded (counted ▸ below)
        rw [counted] at before
        exact before.trans_le (by decide)
      have apart : Set.InjOn (place draws) (Set.Iio TAU) := counted ▸ place_injOn bounded
      have value (t : ℕ) (below : t < TAU) :
          (if final.c (place draws t) < 0 then final.c (place draws t) + Q
            else final.c (place draws t)) = if signBit xof t then Q - 1 else 1 := by
        rw [holds.sign t (counted ▸ below)]
        exact signValue_reduced below
      have elsewhere (k : ℕ) (free : ∀ t < TAU, place draws t ≠ k) :
          (if final.c k < 0 then final.c k + Q else final.c k) = 0 := by
        rw [holds.zero k (counted ▸ free)]
        rfl
      refine ⟨weight_eq inside apart (fun t below => ?_) elsewhere, fun k _ nonzero => ?_,
        draws, final.pos, holds.drawn, counted, apart,
        fun t below => ⟨inside t below, value t below⟩⟩
      · rw [value t below]
        cases signBit xof t <;> decide
      · by_contra neither
        refine nonzero (elsewhere k fun t below here => neither ?_)
        rw [← here, value t below]
        cases signBit xof t
        · exact .inl rfl
        · exact .inr rfl

end Challenge

/-- The loops of the challenge end within some number of draws. -/
theorem ballEnds_iff {xof : Xof} : BallEnds xof ↔ ∃ fuel, (sampleInBall xof fuel).isSome := by
  constructor
  · rintro ⟨draws, pos, drawn, length⟩
    rcases sampler_reaches drawn with ⟨fuel, final, ran, -⟩
    rw [length] at ran
    refine ⟨fuel, ?_⟩
    rw [sampleInBall, ran]
    rfl
  · rintro ⟨fuel, ended⟩
    rcases Option.isSome_iff_exists.mp ended with ⟨c, done⟩
    rcases (sampleInBall_inBall done).placed with ⟨draws, pos, drawn, length, -⟩
    exact ⟨draws, pos, drawn, length⟩

theorem entryEnds_iff {xof : Xof} : EntryEnds xof ↔ ∃ fuel, (rejNttPoly xof fuel).isSome := by
  simp only [rejNttPoly_isSome]
  rfl

/-- The coefficients are the triples below the modulus, in their order. -/
def TakenInOrder (xof : Xof) (coeffs : Coeffs) : Prop :=
  ∀ j < N, 0 ≤ coeffs j ∧ coeffs j < Q ∧ Sampled xof j (coeffs j)

theorem rejNttPoly_takenInOrder {xof : Xof} {fuel : ℕ} {coeffs : Coeffs}
    (done : rejNttPoly xof fuel = some coeffs) : TakenInOrder xof coeffs := by
  intro j inside
  rcases rejNttPoly_sampled done j inside with ⟨k, same, small, numbered⟩
  exact ⟨same ▸ triple_nonneg xof k, same ▸ small, k, same, small, numbered⟩

/-- On every output on which the loops end, both samplers return what they should, for
any number of reads from some bound on; on any other output they do not return. -/
theorem samplers_wellFormed (xof : Xof) :
    (BallEnds xof → ∃ c, InBall xof c ∧ ∃ bound, ∀ fuel ≥ bound, sampleInBall xof fuel = some c) ∧
      (EntryEnds xof → ∃ coeffs, TakenInOrder xof coeffs ∧
        ∃ bound, ∀ fuel ≥ bound, rejNttPoly xof fuel = some coeffs) ∧
      (∀ fuel c, sampleInBall xof fuel = some c → BallEnds xof ∧ InBall xof c) ∧
      ∀ fuel coeffs, rejNttPoly xof fuel = some coeffs →
        EntryEnds xof ∧ TakenInOrder xof coeffs := by
  refine ⟨?_, ?_, ?_, ?_⟩
  · intro ends
    rcases ballEnds_iff.mp ends with ⟨bound, ended⟩
    rcases Option.isSome_iff_exists.mp ended with ⟨c, done⟩
    exact ⟨c, sampleInBall_inBall done, bound, fun fuel enough => sampleInBall_more enough done⟩
  · intro ends
    rcases entryEnds_iff.mp ends with ⟨bound, ended⟩
    rcases Option.isSome_iff_exists.mp ended with ⟨coeffs, done⟩
    exact ⟨coeffs, rejNttPoly_takenInOrder done, bound,
      fun fuel enough => rejNttPoly_more enough done⟩
  · intro fuel c done
    have ended : (sampleInBall xof fuel).isSome := Option.isSome_iff_exists.mpr ⟨c, done⟩
    exact ⟨ballEnds_iff.mpr ⟨fuel, ended⟩, sampleInBall_inBall done⟩
  · intro fuel coeffs done
    have ended : (rejNttPoly xof fuel).isSome := Option.isSome_iff_exists.mpr ⟨coeffs, done⟩
    exact ⟨entryEnds_iff.mpr ⟨fuel, ended⟩, rejNttPoly_takenInOrder done⟩

/-- An output whose first triple and first draw are rejected. -/
def sampleOutput : Xof := fun k => if k < 9 then 255 else UInt8.ofNat (7 * k)

/-- Both samplers return on it, after rejections. -/
theorem samplers_wellFormed_rejecting :
    Q ≤ triple sampleOutput 0 ∧ N - TAU < (sampleOutput 8).toNat ∧
      (∃ c, InBall sampleOutput c ∧ ∃ bound, ∀ fuel ≥ bound,
        sampleInBall sampleOutput fuel = some c) ∧
      ∃ coeffs, TakenInOrder sampleOutput coeffs ∧
        ∃ bound, ∀ fuel ≥ bound, rejNttPoly sampleOutput fuel = some coeffs := by
  have ball : BallEnds sampleOutput := ballEnds_iff.mpr ⟨20, by decide +kernel⟩
  have entry : EntryEnds sampleOutput := ⟨300, by decide +kernel⟩
  exact ⟨by decide, by decide, (samplers_wellFormed sampleOutput).1 ball,
    (samplers_wellFormed sampleOutput).2.1 entry⟩

/-- On an output of zeros every draw is accepted. -/
theorem sampleInBall_zeros : (sampleInBall (fun _ => 0) 1).isSome := by decide

end Mldsa
end QLSA
