import QLSA.Contracts.Poseidon2MerkleT8

namespace QLSA
namespace Contracts
namespace Verifier

open Mersenne Hash
open Stwo (constant roundConstant words residues p2t8Pack p2t8NodeWords fieldPair)

/-!
# The contracts' hash against the field

The linear layers of the contracts add without reducing.  While the cells of a
state stay below a power of two, such a layer is the matrix of the network over
the natural numbers, so it commutes with taking residues.  `Tracks` carries both
facts through the rounds: the bound grows by four bits in an internal round and
falls back below `2^38` in an external one.  Nothing wraps, for words of any
value below `2^200`, and the last reduction yields the permuted residues.
-/

/-! ## One layer -/

theorem uncheckedAdd_eq {a b : ℕ} (small : a + b < uintModulus) : uncheckedAdd a b = a + b :=
  Nat.mod_eq_of_lt small

theorem sbox_eq (x : ℕ) : sbox x = (power5 (x : M31)).val := by
  have residue : ((sbox x : ℕ) : M31) = power5 (x : M31) := by
    unfold sbox power5
    dsimp only
    rw [cast_mod, Nat.cast_mul, cast_mod, Nat.cast_mul, cast_mod, Nat.cast_mul]
    ring
  rw [← residue, ZMod.val_natCast, Nat.mod_eq_of_lt]
  exact Nat.mod_lt _ P_prime.pos

/-- Without wrapping, the shifted sums are the matrix over the natural numbers. -/
theorem m4_eq {a : Quad ℕ} (small : a.All (· < 2 ^ 250)) : m4 a = mix4 a := by
  rcases small with ⟨first, second, third, fourth⟩
  ext <;>
    simp only [m4, mix4, uncheckedAdd, uintModulus, Nat.shiftLeft_eq] <;> omega

/-- The cells of a state lie below `2^size` and stand for given residues. -/
structure Tracks (size : ℕ) (s : State ℕ) (v : State M31) : Prop where
  below : s.All (· < 2 ^ size)
  residue : s.map (fun word : ℕ => (word : M31)) = v

theorem matE_eq {s : State ℕ} (small : s.All (· < 2 ^ 240)) : matE s = external s := by
  rcases small with ⟨h0, h1, h2, h3, h4, h5, h6, h7⟩
  have left : m4 s.left = mix4 s.left :=
    m4_eq ⟨by simp only [State.left]; omega, by simp only [State.left]; omega,
      by simp only [State.left]; omega, by simp only [State.left]; omega⟩
  have right : m4 s.right = mix4 s.right :=
    m4_eq ⟨by simp only [State.right]; omega, by simp only [State.right]; omega,
      by simp only [State.right]; omega, by simp only [State.right]; omega⟩
  unfold matE
  dsimp only
  rw [left, right]
  ext <;>
    simp only [State.ofQuads, Quad.zipWith, external, mix4, State.left, State.right,
      uncheckedAdd, uintModulus] <;> omega

theorem matE_tracks {size : ℕ} {s : State ℕ} {v : State M31} (tracks : Tracks size s v)
    (room : size ≤ 240) : Tracks (size + 6) (matE s) (external v) := by
  have wide : 2 ^ size ≤ 2 ^ 240 := Nat.pow_le_pow_right (by omega) room
  rcases tracks with ⟨⟨h0, h1, h2, h3, h4, h5, h6, h7⟩, rfl⟩
  have layer : matE s = external s := matE_eq ⟨h0.trans_le wide, h1.trans_le wide,
    h2.trans_le wide, h3.trans_le wide, h4.trans_le wide, h5.trans_le wide, h6.trans_le wide,
    h7.trans_le wide⟩
  rw [layer]
  constructor
  · rw [pow_add]
    generalize 2 ^ size = bound at h0 h1 h2 h3 h4 h5 h6 h7
    refine ⟨?_, ?_, ?_, ?_, ?_, ?_, ?_, ?_⟩ <;>
      simp only [external, mix4, State.left, State.right] <;> omega
  · exact map_external (Nat.castRingHom M31) s

/-- The reduced multiples of the internal layer do not change residues. -/
theorem matI_tracks {size : ℕ} {s : State ℕ} {v : State M31} (tracks : Tracks size s v)
    (large : 31 ≤ size) (room : size ≤ 240) : Tracks (size + 4) (matI s) (internal v) := by
  have wide : 2 ^ size ≤ 2 ^ 240 := Nat.pow_le_pow_right (by omega) room
  have above : 2 ^ 31 ≤ 2 ^ size := Nat.pow_le_pow_right (by omega) large
  have grown : 2 ^ (size + 4) = 16 * 2 ^ size := by ring
  rcases tracks with ⟨⟨h0, h1, h2, h3, h4, h5, h6, h7⟩, rfl⟩
  generalize 2 ^ size = bound at *
  have reduced (word : ℕ) : word % P < 2 ^ 31 := (Nat.mod_lt word P_prime.pos).trans_le (by decide)
  have sum : uncheckedAdd (uncheckedAdd (uncheckedAdd (uncheckedAdd (uncheckedAdd (uncheckedAdd
      (uncheckedAdd s.s0 s.s1) s.s2) s.s3) s.s4) s.s5) s.s6) s.s7 = total s := by
    simp only [uncheckedAdd, uintModulus, total]
    omega
  have bounded : total s < 8 * bound := by
    simp only [total]
    omega
  have cell (word : ℕ) : uncheckedAdd (total s) (word % P) = total s + word % P := by
    apply uncheckedAdd_eq
    have small := reduced word
    simp only [uintModulus]
    omega
  have layer : matI s = ⟨total s + s.s0 % P, total s + 2 * s.s1 % P, total s + 3 * s.s2 % P,
      total s + 4 * s.s3 % P, total s + 5 * s.s4 % P, total s + 6 * s.s5 % P,
      total s + 7 * s.s6 % P, total s + 8 * s.s7 % P⟩ := by
    unfold matI
    dsimp only
    rw [sum]
    simp only [cell]
  rw [layer]
  constructor
  · rw [grown]
    refine ⟨?_, ?_, ?_, ?_, ?_, ?_, ?_, ?_⟩ <;>
      exact lt_of_lt_of_le (Nat.add_lt_add bounded ((reduced _).trans_le above)) (by omega)
  · ext <;>
      simp only [State.map, internal, total, Nat.cast_add, cast_mod, Nat.cast_mul,
        Nat.cast_ofNat]

/-! ## The permutation -/

/-- Fifth powers are reduced, whatever they are taken of. -/
theorem tracks_sbox (s : State ℕ) :
    Tracks 31 (s.map sbox) ((s.map (fun word : ℕ => (word : M31))).map power5) := by
  have reduced (word : ℕ) : sbox word < 2 ^ 31 := by
    rw [sbox_eq]
    exact (Stwo.val_lt_P _).trans_le (by decide)
  constructor
  · exact ⟨reduced _, reduced _, reduced _, reduced _, reduced _, reduced _, reduced _, reduced _⟩
  · ext <;> simp only [State.map, sbox_eq, ZMod.natCast_zmod_val]

theorem roundConstant_small (index : ℕ) : roundConstant index < 2 ^ 31 :=
  (Stwo.roundConstant_canonical index).trans_le (by decide)

theorem uncheckedAdd_roundConstant {size : ℕ} {word : ℕ} (small : word < 2 ^ size)
    (room : size ≤ 240) (index : ℕ) :
    ((uncheckedAdd word (roundConstant index) : ℕ) : M31) = word + constant index := by
  have wide : 2 ^ size ≤ 2 ^ 240 := Nat.pow_le_pow_right (by omega) room
  have constantSmall := roundConstant_small index
  rw [uncheckedAdd_eq (by simp only [uintModulus]; omega), Nat.cast_add]
  rfl

theorem extRound_tracks {size : ℕ} {s : State ℕ} {v : State M31} (tracks : Tracks size s v)
    (room : size ≤ 240) (index : ℕ) :
    Tracks 37 (extRound s (State.tabulate roundConstant index))
      (fullRound (State.tabulate constant index) v) := by
  rcases tracks with ⟨⟨h0, h1, h2, h3, h4, h5, h6, h7⟩, rfl⟩
  have added : (State.zipWith uncheckedAdd s (State.tabulate roundConstant index)).map
        (fun word : ℕ => (word : M31)) =
      State.zipWith (· + ·) (s.map fun word : ℕ => (word : M31))
        (State.tabulate constant index) := by
    ext <;> simp only [State.map, State.zipWith, State.tabulate]
    · exact uncheckedAdd_roundConstant h0 room _
    · exact uncheckedAdd_roundConstant h1 room _
    · exact uncheckedAdd_roundConstant h2 room _
    · exact uncheckedAdd_roundConstant h3 room _
    · exact uncheckedAdd_roundConstant h4 room _
    · exact uncheckedAdd_roundConstant h5 room _
    · exact uncheckedAdd_roundConstant h6 room _
    · exact uncheckedAdd_roundConstant h7 room _
  have powers := tracks_sbox (State.zipWith uncheckedAdd s (State.tabulate roundConstant index))
  rw [added] at powers
  exact matE_tracks powers (by omega)

theorem intRound_tracks {size : ℕ} {s : State ℕ} {v : State M31} (tracks : Tracks size s v)
    (large : 31 ≤ size) (room : size ≤ 240) (index : ℕ) :
    Tracks (size + 4) (intRound s (roundConstant index)) (partialRound (constant index) v) := by
  refine matI_tracks ?_ large room
  rcases tracks with ⟨⟨h0, h1, h2, h3, h4, h5, h6, h7⟩, rfl⟩
  have power : sbox (uncheckedAdd s.s0 (roundConstant index)) =
      (power5 ((s.s0 : M31) + constant index)).val := by
    rw [sbox_eq, uncheckedAdd_roundConstant h0 room]
  constructor
  · refine ⟨?_, h1, h2, h3, h4, h5, h6, h7⟩
    change sbox (uncheckedAdd s.s0 (roundConstant index)) < 2 ^ size
    rw [power]
    have reduced : 2 ^ 31 ≤ 2 ^ size := Nat.pow_le_pow_right (by omega) large
    exact (Stwo.val_lt_P _).trans_le (le_trans (by decide) reduced)
  · ext <;> simp only [State.map]
    rw [power, ZMod.natCast_zmod_val]

/-- The written-out rounds take their constants from the prover's table. -/
theorem permute8_eq (s : State ℕ) :
    permute8 s =
      ([32, 40, 48, 56].foldl (fun s index => extRound s (State.tabulate roundConstant index))
        ((List.range 14).foldl (fun s index => intRound s (roundConstant (64 + index)))
          ([0, 8, 16, 24].foldl
            (fun s index => extRound s (State.tabulate roundConstant index)) (matE s)))).map
        (· % P) := rfl

/-- The first external rounds are rounds of the schedule. -/
theorem firstRounds_tracks {s : State ℕ} {v : State M31} (tracks : Tracks 32 s v) :
    Tracks 37
      ([0, 8, 16, 24].foldl (fun s index => extRound s (State.tabulate roundConstant index))
        (matE s)) (roundsFrom constant v 4) := by
  have mixed := matE_tracks tracks (by omega)
  have first := extRound_tracks mixed (by omega) 0
  have second := extRound_tracks first (by omega) 8
  have third := extRound_tracks second (by omega) 16
  exact extRound_tracks third (by omega) 24

/-- So are the internal rounds after them, while the bound grows. -/
theorem middleRounds_tracks {s : State ℕ} {v : State M31}
    (tracks : Tracks 37 s (roundsFrom constant v 4)) {count : ℕ} (bounded : count ≤ 14) :
    Tracks (37 + 4 * count)
      ((List.range count).foldl (fun s index => intRound s (roundConstant (64 + index))) s)
      (roundsFrom constant v (4 + count)) := by
  induction count with
  | zero => exact tracks
  | succ count ih =>
      have scheduled : ¬ 4 + count < 4 ∧ 4 + count < 18 ∧ 4 + count - 4 = count := by omega
      rw [List.range_succ, List.foldl_append, List.foldl_cons, List.foldl_nil, ← Nat.add_assoc,
        roundsFrom, Hash.round, if_neg scheduled.1, if_pos scheduled.2.1, scheduled.2.2]
      exact intRound_tracks (ih (by omega)) (by omega) (by omega) (64 + count)

/-- And the last external rounds. -/
theorem lastRounds_tracks {s : State ℕ} {v : State M31}
    (tracks : Tracks 93 s (roundsFrom constant v 18)) :
    Tracks 37
      ([32, 40, 48, 56].foldl (fun s index => extRound s (State.tabulate roundConstant index)) s)
      (permute constant v) := by
  have first := extRound_tracks tracks (by omega) 32
  have second := extRound_tracks first (by omega) 40
  have third := extRound_tracks second (by omega) 48
  exact extRound_tracks third (by omega) 56

/-- On words below `2^32` the contracts compute the permutation of the residues. -/
theorem permute8_eq_val {s : State ℕ} (small : s.All (· < 2 ^ 32)) :
    permute8 s =
      (permute constant (s.map (fun word : ℕ => (word : M31)))).map ZMod.val := by
  have start : Tracks 32 s (s.map (fun word : ℕ => (word : M31))) := ⟨small, rfl⟩
  have finished := lastRounds_tracks
    (middleRounds_tracks (firstRounds_tracks start) (le_refl 14))
  rw [permute8_eq, ← finished.residue]
  ext <;> simp only [State.map, ZMod.val_natCast]

/-! ## Nodes -/

theorem unpack4_eq (node : Bytes32) : unpack4 node = p2t8NodeWords node := by
  have mask (value : ℕ) : value &&& (2 ^ 32 - 1) = value % 2 ^ 32 :=
    Nat.and_two_pow_sub_one_eq_mod value 32
  ext <;> simp only [unpack4, p2t8NodeWords, mask]

theorem unpack4_small (node : Bytes32) : (unpack4 node).All (· < 2 ^ 32) := by
  have bounded (value : ℕ) : value % 2 ^ 32 < 2 ^ 32 := Nat.mod_lt value (by decide)
  rw [unpack4_eq]
  exact ⟨bounded _, bounded _, bounded _, bounded _⟩

/-- Fields that do not overlap are joined by addition. -/
theorem lor_eq_add {high low width : ℕ} (fits : low < 2 ^ width) :
    high * 2 ^ width ||| low = high * 2 ^ width + low := by
  have joined := Nat.shiftLeft_add_eq_or_of_lt fits high
  rw [Nat.shiftLeft_eq] at joined
  exact joined.symm

/-- Both sides pack words of at most 32 bits alike. -/
theorem pack4_eq {w : Quad ℕ} (small : w.All (· < 2 ^ 32)) : pack4 w = p2t8Pack w := by
  rcases small with ⟨first, second, third, fourth⟩
  have inner : w.w0 * 2 ^ 96 ||| w.w1 * 2 ^ 64 = (w.w0 * 2 ^ 32 + w.w1) * 2 ^ 64 := by
    rw [lor_eq_add (by omega)]
    omega
  have middle : (w.w0 * 2 ^ 32 + w.w1) * 2 ^ 64 ||| w.w2 * 2 ^ 32 =
      ((w.w0 * 2 ^ 32 + w.w1) * 2 ^ 32 + w.w2) * 2 ^ 32 := by
    rw [lor_eq_add (by omega)]
    omega
  have outer : ((w.w0 * 2 ^ 32 + w.w1) * 2 ^ 32 + w.w2) * 2 ^ 32 ||| w.w3 =
      ((w.w0 * 2 ^ 32 + w.w1) * 2 ^ 32 + w.w2) * 2 ^ 32 + w.w3 := lor_eq_add fourth
  unfold pack4 p2t8Pack
  rw [Nat.shiftLeft_eq, Nat.shiftLeft_eq, Nat.shiftLeft_eq, inner, middle, outer,
    Nat.mod_eq_of_lt first, Nat.mod_eq_of_lt second, Nat.mod_eq_of_lt third,
    Nat.mod_eq_of_lt fourth]

/-- The contracts hash every two nodes over the field. -/
theorem hashPair_eq (left right : Bytes32) : hashPair left right = fieldPair left right := by
  have l := unpack4_small left
  have r := unpack4_small right
  have permuted := permute8_eq_val (s := State.ofQuads (unpack4 left) (unpack4 right))
    ⟨l.1, l.2.1, l.2.2.1, l.2.2.2, r.1, r.2.1, r.2.2.1, r.2.2.2⟩
  have compressed : compress4 (unpack4 left) (unpack4 right) =
      words (compress constant (residues (unpack4 left)) (residues (unpack4 right))) := by
    have paired : (State.ofQuads (unpack4 left) (unpack4 right)).map (fun word : ℕ => (word : M31)) =
        State.ofQuads (residues (unpack4 left)) (residues (unpack4 right)) :=
      State.map_ofQuads _ _ _
    rw [compress4, permuted, paired]
    exact State.map_left ZMod.val _
  unfold hashPair fieldPair
  rw [compressed, pack4_eq (Stwo.words_small _), unpack4_eq, unpack4_eq]

end Verifier
end Contracts
end QLSA
