import Mathlib.Data.List.Basic
import Mathlib.Order.Basic
import Mathlib.Logic.Function.Basic

namespace QLSA
namespace Machine

/-!
# Logs of keyed values

A log lists pairs of a key and a value.  `valuesOf` reads the values of one
key in order, and `writeAll` replays the log on a family of values; the last
value of each key is what remains.
-/

variable {Key Value : Type*} [DecidableEq Key]

/-- The values listed for one key, in order. -/
def valuesOf (key : Key) (entries : List (Key × Value)) : List Value :=
  (entries.filter fun entry => decide (entry.1 = key)).map Prod.snd

@[simp] theorem valuesOf_nil (key : Key) : valuesOf key ([] : List (Key × Value)) = [] := rfl

theorem valuesOf_append (key : Key) (first second : List (Key × Value)) :
    valuesOf key (first ++ second) = valuesOf key first ++ valuesOf key second := by
  simp [valuesOf]

theorem valuesOf_cons_self (entry : Key × Value) (rest : List (Key × Value)) :
    valuesOf entry.1 (entry :: rest) = entry.2 :: valuesOf entry.1 rest := by
  simp [valuesOf]

theorem valuesOf_cons_of_ne {key : Key} {entry : Key × Value} (other : entry.1 ≠ key)
    (rest : List (Key × Value)) : valuesOf key (entry :: rest) = valuesOf key rest := by
  simp [valuesOf, other]

theorem valuesOf_flatMap {Source : Type*} (key : Key) (sources : List Source)
    (entries : Source → List (Key × Value)) :
    valuesOf key (sources.flatMap entries) =
      sources.flatMap fun source => valuesOf key (entries source) := by
  induction sources with
  | nil => rfl
  | cons source rest ih => rw [List.flatMap_cons, valuesOf_append, ih, List.flatMap_cons]

/-- Concatenation over distinct sources of which only one contributes. -/
theorem flatMap_eq_of_unique {Source Item : Type*} {sources : List Source}
    {items : Source → List Item} {source : Source} (distinct : sources.Nodup)
    (member : source ∈ sources)
    (others : ∀ other ∈ sources, other ≠ source → items other = []) :
    sources.flatMap items = items source := by
  induction sources with
  | nil => exact absurd member List.not_mem_nil
  | cons first rest ih =>
      rcases List.nodup_cons.mp distinct with ⟨fresh, restDistinct⟩
      rw [List.flatMap_cons]
      rcases List.mem_cons.mp member with rfl | later
      · have silent : rest.flatMap items = [] := by
          apply List.flatMap_eq_nil_iff.mpr
          intro other inside
          apply others other (List.mem_cons_of_mem _ inside)
          rintro rfl
          exact fresh inside
        rw [silent, List.append_nil]
      · have different : first ≠ source := by
          rintro rfl
          exact fresh later
        rw [others first List.mem_cons_self different, List.nil_append]
        exact ih restDistinct later
          (fun other inside => others other (List.mem_cons_of_mem _ inside))

theorem mem_valuesOf {key : Key} {value : Value} {entries : List (Key × Value)} :
    value ∈ valuesOf key entries ↔ (key, value) ∈ entries := by
  simp [valuesOf]

/-- Pairs are distinct when the values of each key are. -/
theorem nodup_of_valuesOf {entries : List (Key × Value)}
    (distinct : ∀ key, (valuesOf key entries).Nodup) : entries.Nodup := by
  induction entries with
  | nil => exact List.nodup_nil
  | cons entry rest ih =>
      refine List.nodup_cons.mpr ⟨fun again => ?_, ih fun key => ?_⟩
      · have own := distinct entry.1
        rw [valuesOf_cons_self] at own
        exact (List.nodup_cons.mp own).1 (mem_valuesOf.mpr again)
      · have all := distinct key
        by_cases own : entry.1 = key
        · subst own
          rw [valuesOf_cons_self] at all
          exact (List.nodup_cons.mp all).2
        · rwa [valuesOf_cons_of_ne own] at all

/-- Replay a log, later entries over earlier ones. -/
def writeAll (values : Key → Value) (entries : List (Key × Value)) : Key → Value :=
  entries.foldl (fun current entry => Function.update current entry.1 entry.2) values

/-- The last value listed for a key remains. -/
theorem writeAll_apply (values : Key → Value) (entries : List (Key × Value)) (key : Key) :
    writeAll values entries key = (valuesOf key entries).getLast?.getD (values key) := by
  induction entries generalizing values with
  | nil => rfl
  | cons entry rest ih =>
      have moved : writeAll values (entry :: rest) =
          writeAll (Function.update values entry.1 entry.2) rest := rfl
      rw [moved, ih]
      by_cases own : entry.1 = key
      · subst own
        rw [valuesOf_cons_self, Function.update_self, List.getLast?_cons, Option.getD_some]
      · rw [valuesOf_cons_of_ne own, Function.update_of_ne (Ne.symm own)]

/-- In an ascending list the last value bounds all of them. -/
theorem le_getLast_of_pairwise {Bound : Type*} [PartialOrder Bound] {values : List Bound}
    (increasing : values.Pairwise (· < ·)) {value : Bound} (member : value ∈ values)
    (default : Bound) : value ≤ values.getLast?.getD default := by
  induction values with
  | nil => exact absurd member List.not_mem_nil
  | cons first rest ih =>
      obtain ⟨below, sorted⟩ := List.pairwise_cons.mp increasing
      cases rest with
      | nil =>
          obtain rfl : value = first := by simpa using member
          exact le_refl value
      | cons second rest =>
          rw [List.getLast?_cons_cons]
          rcases List.mem_cons.mp member with rfl | later
          · have last : (second :: rest).getLast?.getD default ∈ second :: rest := by
              rw [List.getLast?_eq_some_getLast (List.cons_ne_nil second rest)]
              exact List.getLast_mem _
            exact (below _ last).le
          · exact ih sorted later

end Machine
end QLSA
