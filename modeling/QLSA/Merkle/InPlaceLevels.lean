import QLSA.Merkle.LevelPaths

namespace QLSA
namespace Merkle

/-!
# Levels in place

A tree over `2 ^ height` nodes is computed in the array of its leaves: every
level is written over the front of the one below it.  A pair is read before
anything is written to its two cells, because the cell of a parent is never
behind them.
-/

variable {Node : Type*} (pair : Node → Node → Node) (zero : Node)

/-- Parents over the first `count` cells; `zero` stands for cells outside of the array. -/
def pairInPlace (count : ℕ) (nodes : List Node) : List Node :=
  (List.range count).foldl (fun nodes i =>
    nodes.set i (pair (nodes.getD (2 * i) zero) (nodes.getD (2 * i + 1) zero))) nodes

/-- Levels over the first `count` cells until one is left. -/
def reduceInPlace (count : ℕ) (nodes : List Node) : List Node :=
  if 1 < count then reduceInPlace (count / 2) (pairInPlace pair zero (count / 2) nodes) else nodes
  termination_by count
  decreasing_by omega

variable {pair zero} {nodes : List Node}

theorem pairInPlace_succ (count : ℕ) : pairInPlace pair zero (count + 1) nodes =
    (pairInPlace pair zero count nodes).set count
      (pair ((pairInPlace pair zero count nodes).getD (2 * count) zero)
        ((pairInPlace pair zero count nodes).getD (2 * count + 1) zero)) := by
  rw [pairInPlace, List.range_succ, List.foldl_append]
  rfl

theorem pairInPlace_length (count : ℕ) :
    (pairInPlace pair zero count nodes).length = nodes.length := by
  induction count with
  | zero => rfl
  | succ count ih => rw [pairInPlace_succ, List.length_set, ih]

/-- The first cells hold parents and the others what they held. -/
theorem pairInPlace_getD {count : ℕ} (enough : 2 * count ≤ nodes.length) (i : ℕ) :
    (pairInPlace pair zero count nodes).getD i zero =
      if i < count then pair (nodes.getD (2 * i) zero) (nodes.getD (2 * i + 1) zero)
      else nodes.getD i zero := by
  induction count generalizing i with
  | zero => rw [if_neg (Nat.not_lt_zero i)]; rfl
  | succ count ih =>
      have each := ih (by omega)
      have inside : count < (pairInPlace pair zero count nodes).length := by
        rw [pairInPlace_length]
        omega
      have left := each (2 * count)
      have right := each (2 * count + 1)
      rw [if_neg (by omega)] at left right
      rw [pairInPlace_succ, left, right, List.getD_eq_getElem?_getD, List.getElem?_set]
      by_cases own : count = i
      · subst own
        rw [if_pos rfl, if_pos inside, Option.getD_some, if_pos (Nat.lt_succ_self _)]
      · rw [if_neg own, ← List.getD_eq_getElem?_getD, each]
        by_cases below : i < count
        · rw [if_pos below, if_pos (by omega)]
        · rw [if_neg below, if_neg (by omega)]

theorem take_eq_range {count : ℕ} (enough : count ≤ nodes.length) :
    nodes.take count = (List.range count).map fun i => nodes.getD i zero := by
  apply List.ext_getElem?
  intro i
  rw [List.getElem?_take, List.getElem?_map]
  by_cases inside : i < count
  · rw [if_pos inside, List.getElem?_range inside, Option.map_some,
      List.getD_eq_getElem _ _ (inside.trans_le enough)]
    exact List.getElem?_eq_getElem _
  · rw [if_neg inside, List.getElem?_eq_none (by rw [List.length_range]; omega), Option.map_none]

/-- The first cells are the level above. -/
theorem take_pairInPlace {count : ℕ} (enough : 2 * count ≤ nodes.length) :
    (pairInPlace pair zero count nodes).take count = pairUp pair (nodes.take (2 * count)) := by
  rw [@take_eq_range _ zero _ _ enough, pairUp_range,
    @take_eq_range _ zero _ _ (by rw [pairInPlace_length]; omega)]
  apply List.map_congr_left
  intro i member
  rw [pairInPlace_getD enough, if_pos (List.mem_range.mp member)]

/-- The first cell is left with the root. -/
theorem reduceInPlace_root {height : ℕ} (enough : 2 ^ height ≤ nodes.length) :
    (reduceInPlace pair zero (2 ^ height) nodes)[0]? = apex pair (nodes.take (2 ^ height)) := by
  induction height generalizing nodes with
  | zero =>
      rw [pow_zero] at enough ⊢
      rw [reduceInPlace, if_neg (lt_irrefl 1)]
      cases nodes with
      | nil => simp at enough
      | cons first rest =>
          have front : (first :: rest).take 1 = [first] := rfl
          rw [front, apex_singleton]
          rfl
  | succ height ih =>
      have positive := Nat.two_pow_pos height
      have double : 2 ^ (height + 1) = 2 * 2 ^ height := pow_succ' 2 height
      have half : 2 ^ (height + 1) / 2 = 2 ^ height := by omega
      have wide : 1 < (nodes.take (2 ^ (height + 1))).length := by
        rw [List.length_take]
        omega
      rw [reduceInPlace, if_pos (by omega), half, ih (by rw [pairInPlace_length]; omega),
        take_pairInPlace (by omega), ← double, ← apex_of_wide pair wide]

/-! ## Pairings that agree -/

section Agreement

variable {first second : Node → Node → Node} {p : Node → Prop} {level : List Node}

theorem pairUp_congr (same : ∀ left right, p left → p right → first left right = second left right)
    (kept : ∀ node ∈ level, p node) : pairUp first level = pairUp second level := by
  induction level using pairUp.induct with
  | case1 => rfl
  | case2 last =>
      have own := kept last List.mem_cons_self
      rw [pairUp, pairUp, same last last own own]
  | case3 left right rest ih =>
      rw [List.forall_mem_cons, List.forall_mem_cons] at kept
      rw [pairUp, pairUp, same left right kept.1 kept.2.1, ih kept.2.2]

/-- Pairings that agree on what the second keeps have one root. -/
theorem apex_congr (same : ∀ left right, p left → p right → first left right = second left right)
    (closed : ∀ left right, p left → p right → p (second left right))
    (kept : ∀ node ∈ level, p node) (nonempty : level ≠ []) :
    apex first level = apex second level := by
  induction level, nonempty using level_induction second with
  | single node => rw [apex_singleton, apex_singleton]
  | step level nonempty wide ih =>
      rw [apex_of_wide first wide, apex_of_wide second wide, pairUp_congr same kept]
      exact ih (pairUp_forall second closed kept)

/-- The same of a path. -/
theorem pathRoot_congr
    (same : ∀ left right, p left → p right → first left right = second left right)
    (closed : ∀ left right, p left → p right → p (second left right)) {leaf : Node}
    {siblings : List Node} (bits : List Bool) (own : p leaf) (kept : ∀ node ∈ siblings, p node) :
    pathRoot first leaf siblings bits = pathRoot second leaf siblings bits := by
  induction siblings generalizing leaf bits with
  | nil => rw [pathRoot_nil, pathRoot_nil]
  | cons sibling siblings ih =>
      rw [List.forall_mem_cons] at kept
      rcases kept with ⟨here, others⟩
      cases bits with
      | nil => simp only [pathRoot]
      | cons bit bits =>
          rw [pathRoot_cons, pathRoot_cons]
          cases bit with
          | false =>
              rw [if_neg Bool.false_ne_true, if_neg Bool.false_ne_true, same leaf sibling own here]
              exact ih bits (closed leaf sibling own here) others
          | true =>
              rw [if_pos rfl, if_pos rfl, same sibling leaf here own]
              exact ih bits (closed sibling leaf here own) others

end Agreement

end Merkle
end QLSA
