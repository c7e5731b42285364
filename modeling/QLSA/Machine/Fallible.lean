import Mathlib.Data.List.Basic

namespace QLSA
namespace Machine

/-!
# Loops that may fail

A step after another returns what the second returns on what the first did; a
loop of steps returns when each of them does.
-/

universe u v

variable {α β : Type u} {ε : Type v} {f : α → Except ε β}

theorem bind_eq_ok {x : Except ε α} {b : β} : (x >>= f) = .ok b ↔ ∃ a, x = .ok a ∧ f a = .ok b := by
  cases x with
  | error failure => simp [bind, Except.bind]
  | ok a => simp [bind, Except.bind]

theorem mapM_ok {list : List α} {results : List β} (done : list.mapM f = .ok results) :
    results.length = list.length ∧
      ∀ (i : ℕ) (a : α), list[i]? = some a → ∃ b, results[i]? = some b ∧ f a = .ok b := by
  induction list generalizing results with
  | nil =>
      cases done
      exact ⟨rfl, nofun⟩
  | cons first rest ih =>
      rw [List.mapM_cons, bind_eq_ok] at done
      rcases done with ⟨b, own, later⟩
      rcases bind_eq_ok.mp later with ⟨bs, others, finished⟩
      cases finished
      rcases ih others with ⟨lengths, entries⟩
      refine ⟨by rw [List.length_cons, List.length_cons, lengths], ?_⟩
      intro i a found
      cases i with
      | zero =>
          cases found
          exact ⟨b, rfl, own⟩
      | succ i => exact entries i a found

/-- A loop whose steps are described by a condition and a value. -/
theorem mapM_ok_iff {p : α → Prop} {g : α → β} (each : ∀ a b, f a = .ok b ↔ p a ∧ b = g a)
    {list : List α} {results : List β} :
    list.mapM f = .ok results ↔ (∀ a ∈ list, p a) ∧ results = list.map g := by
  induction list generalizing results with
  | nil =>
      rw [List.mapM_nil, List.map_nil]
      exact ⟨fun done => ⟨nofun, (Except.ok.inj done).symm⟩, fun done => by rw [done.2]; rfl⟩
  | cons first rest ih =>
      rw [List.mapM_cons, bind_eq_ok, List.forall_mem_cons, List.map_cons]
      constructor
      · rintro ⟨b, own, later⟩
        rcases bind_eq_ok.mp later with ⟨bs, others, finished⟩
        rcases (each first b).mp own with ⟨holds, rfl⟩
        rcases ih.mp others with ⟨hold, rfl⟩
        exact ⟨⟨holds, hold⟩, (Except.ok.inj finished).symm⟩
      · rintro ⟨⟨holds, hold⟩, rfl⟩
        exact ⟨g first, (each first _).mpr ⟨holds, rfl⟩,
          bind_eq_ok.mpr ⟨_, ih.mpr ⟨hold, rfl⟩, rfl⟩⟩

theorem mapM_range_ok {β : Type} {g : ℕ → Except ε β} {count : ℕ} {results : List β}
    (done : (List.range count).mapM g = .ok results) :
    results.length = count ∧ ∀ i < count, ∃ b, results[i]? = some b ∧ g i = .ok b := by
  rcases mapM_ok done with ⟨lengths, entries⟩
  rw [List.length_range] at lengths
  refine ⟨lengths, ?_⟩
  intro i inside
  exact entries i i (by rw [List.getElem?_range inside])

/-- Another text for the error. -/
theorem mapError_ok {Text : Type*} {x : Except ε α} {text : ε → Text} {a : α} :
    x.mapError text = .ok a ↔ x = .ok a := by
  cases x with
  | error e => simp [Except.mapError]
  | ok b => simp [Except.mapError]

/-! ## Failures -/

/-- Every failure is of a kind. -/
structure FailsWith (kind : ε → Prop) (x : Except ε α) : Prop where
  error : ∀ e, x = .error e → kind e

theorem failsWith_of_ok {kind : ε → Prop} {x : Except ε α} (succeeds : ∃ a, x = .ok a) :
    FailsWith kind x := by
  rcases succeeds with ⟨a, rfl⟩
  exact ⟨nofun⟩

theorem FailsWith.imp {kind wider : ε → Prop} {x : Except ε α} (here : FailsWith kind x)
    (widens : ∀ e, kind e → wider e) : FailsWith wider x :=
  ⟨fun e failed => widens e (here.error e failed)⟩

theorem FailsWith.bind {kind : ε → Prop} {x : Except ε α} (here : FailsWith kind x)
    (later : ∀ a, x = .ok a → FailsWith kind (f a)) : FailsWith kind (x >>= f) := by
  cases x with
  | error e =>
      constructor
      intro failure same
      cases same
      exact here.error e rfl
  | ok a => exact later a rfl

theorem FailsWith.mapError {Text : Type v} {kind : ε → Prop} {x : Except ε α} {text : ε → Text}
    (here : FailsWith kind x) : FailsWith (fun t => ∃ e, kind e ∧ t = text e) (x.mapError text) := by
  cases x with
  | error e =>
      constructor
      intro failure same
      cases same
      exact ⟨e, here.error e rfl, rfl⟩
  | ok a => exact ⟨nofun⟩

/-- A loop fails where one of its steps does. -/
theorem failsWith_mapM {kind : ε → Prop} {list : List α}
    (each : ∀ a ∈ list, FailsWith kind (f a)) : FailsWith kind (list.mapM f) := by
  induction list with
  | nil => exact ⟨nofun⟩
  | cons first rest ih =>
      rw [List.mapM_cons]
      apply (each first List.mem_cons_self).bind
      intro b _
      apply (ih fun a member => each a (List.mem_cons_of_mem first member)).bind
      intro bs _
      exact ⟨nofun⟩

/-! ## Loops of checks -/

section Checks

variable {Item Fault : Type*}

/-- The first fault of a list, each item with its number. -/
def checkAll (fault : ℕ → Item → Option Fault) : ℕ → List Item → Except Fault Unit
  | _, [] => .ok ()
  | i, item :: rest =>
      match fault i item with
      | some found => .error found
      | none => checkAll fault (i + 1) rest

/-- The loop succeeds when no item has a fault. -/
theorem checkAll_ok_iff {fault : ℕ → Item → Option Fault} {clean : Item → Prop}
    (faultless : ∀ i item, fault i item = none ↔ clean item) {i : ℕ} {list : List Item} :
    checkAll fault i list = .ok () ↔ ∀ item ∈ list, clean item := by
  induction list generalizing i with
  | nil => simp [checkAll]
  | cons item rest ih =>
      rw [List.forall_mem_cons, ← faultless i item, checkAll]
      cases fault i item with
      | some found => simp
      | none => simp [ih]

/-- The loop succeeds when no item has a fault at its place. -/
theorem checkAll_ok_iff_at {fault : ℕ → Item → Option Fault} {i : ℕ} {list : List Item} :
    checkAll fault i list = .ok () ↔
      ∀ k item, list[k]? = some item → fault (i + k) item = none := by
  induction list generalizing i with
  | nil => simp [checkAll]
  | cons item rest ih =>
      rw [checkAll]
      constructor
      · intro passed k other found
        cases here : fault i item with
        | some found => simp [here] at passed
        | none =>
            rw [here] at passed
            cases k with
            | zero =>
                rw [List.getElem?_cons_zero, Option.some.injEq] at found
                rwa [Nat.add_zero, ← found]
            | succ k =>
                rw [Nat.add_comm k, ← Nat.add_assoc]
                exact ih.mp passed k other (by simpa using found)
      · intro clean
        rw [show fault i item = none from clean 0 item rfl]
        apply ih.mpr
        intro k other found
        rw [Nat.add_assoc, Nat.add_comm 1]
        exact clean (k + 1) other (by simpa using found)

end Checks

end Machine
end QLSA
