import QLSA.Machine.PackedBytes

namespace QLSA
namespace Machine
namespace Abi

/-!
# Reading heads and tails

A tuple is the row of its heads followed by the tails.  The head of a word is
the word, the head of anything else is an offset from the start of the tuple to
its body.  An array is a length word and then the tuple of its elements, so that
offsets in it count from behind the length.

A reader returns, with the value, the positions of the bytes it read.  Nothing
makes a reader look at a byte only once: the offsets may overlap or leave gaps.
That a permutation of a range comes back is a fact about the bytes.
-/

/-! ## Readers -/

/-- Reader of a component: its offsets count from `base`, its head is at `head`. -/
abbrev Component (α : Type) := List Byte → (base head : ℕ) → Option (α × List ℕ)

/-- Reader of a body at its start. -/
abbrev Body (α : Type) := List Byte → (start : ℕ) → Option (α × List ℕ)

def readWord (data : List Byte) (position : ℕ) : Option (List Byte) :=
  if position + 32 ≤ data.length then some ((data.drop position).take 32) else none

/-- An unsigned integer; the bytes above its width have to be zero. -/
def uint (bits : ℕ) : Component ℕ := fun data _ head => do
  let word ← readWord data head
  if ofBigEndian word < 2 ^ bits then some (ofBigEndian word, List.range' head 32) else none

def bytes32 : Component (List Byte) := fun data _ head => do
  let word ← readWord data head
  some (word, List.range' head 32)

/-- A component whose head is the offset of its body. -/
def dynamic {α : Type} (body : Body α) : Component α := fun data base head => do
  let word ← readWord data head
  let (value, positions) ← body data (base + ofBigEndian word)
  some (value, List.range' head 32 ++ positions)

def last : Component Unit := fun _ _ _ => some ((), [])

/-- A component and the ones behind it. -/
def next {α β : Type} (first : Component α) (rest : Component β) : Component (α × β) :=
  fun data base head => do
    let (value, positions) ← first data base head
    let (values, later) ← rest data base (head + 32)
    some ((value, values), positions ++ later)

def tuple {α : Type} (fields : Component α) : Body α := fun data start => fields data start start

/-- As many elements one behind the other. -/
def elements {α : Type} (element : Component α) : ℕ → Component (List α)
  | 0 => fun _ _ _ => some ([], [])
  | count + 1 => fun data base head => do
      let (value, positions) ← element data base head
      let (values, later) ← elements element count data base (head + 32)
      some (value :: values, positions ++ later)

def array {α : Type} (element : Component α) : Body (List α) := fun data start => do
  let (count, positions) ← uint 256 data start start
  let (values, later) ← tuple (elements element count) data (start + 32)
  some (values, positions ++ later)

/-! ## Bytes in place -/

/-- The bytes stand at a position. -/
def Holds (data : List Byte) (position : ℕ) (bytes : List Byte) : Prop :=
  bytes <+: data.drop position

theorem holds_append {data first second : List Byte} {position : ℕ} :
    Holds data position (first ++ second) ↔
      Holds data position first ∧ Holds data (position + first.length) second := by
  rw [Holds, Holds, Holds, ← List.drop_drop]
  constructor
  · rintro ⟨rest, whole⟩
    rw [← whole, List.append_assoc, List.drop_left]
    exact ⟨List.prefix_append _ _, List.prefix_append _ _⟩
  · rintro ⟨⟨rest, whole⟩, after⟩
    rw [← whole, List.drop_left] at after
    rw [← whole]
    exact (List.prefix_append_right_inj first).mpr after

theorem Holds.readWord {data word : List Byte} {position : ℕ} (holds : Holds data position word)
    (length : word.length = 32) : readWord data position = some word := by
  rcases holds with ⟨rest, whole⟩
  have long := congrArg List.length whole
  rw [List.length_append, List.length_drop, length] at long
  have inside : position + 32 ≤ data.length := by omega
  rw [Abi.readWord, if_pos inside, ← whole, ← length, List.take_left]

/-! ## Laws of the readers -/

/-- Wherever the bytes stand, the reader returns the value and reads each of
them once. -/
def Encodes {α : Type} (body : Body α) (value : α) (bytes : List Byte) : Prop :=
  ∀ data start, Holds data start bytes →
    ∃ positions, body data start = some (value, positions) ∧
      positions.Perm (List.range' start bytes.length)

/-- The same of a component with heads in one place and tails in another. -/
def Lays {α : Type} (field : Component α) (value : α) (offset : ℕ) (heads tails : List Byte) :
    Prop :=
  ∀ data base head, Holds data head heads → Holds data (base + offset) tails →
    ∃ positions, field data base head = some (value, positions) ∧
      positions.Perm (List.range' head heads.length ++ List.range' (base + offset) tails.length)

theorem perm_append_swap (a b c d : List ℕ) :
    ((a ++ b) ++ (c ++ d)).Perm ((a ++ c) ++ (b ++ d)) := by
  rw [List.perm_iff_count]
  intro x
  simp only [List.count_append]
  omega

section Laws

variable {α β : Type} {offset : ℕ}

theorem lays_uint {bits value : ℕ} (narrow : bits ≤ 256) (fits : value < 2 ^ bits) :
    Lays (uint bits) value offset (bigEndian 32 value) [] := by
  intro data base head heads _
  have wide : value < 256 ^ 32 := lt_of_lt_of_le fits (Nat.pow_le_pow_right (by decide) narrow)
  have word := heads.readWord (bigEndian_length 32 value)
  refine ⟨List.range' head 32, ?_, ?_⟩
  · rw [uint, word, Option.bind_eq_bind, Option.bind_some, ofBigEndian_of_lt wide, if_pos fits]
  · rw [bigEndian_length, List.length_nil, List.range'_zero, List.append_nil]

theorem lays_bytes32 {bytes : List Byte} (length : bytes.length = 32) :
    Lays bytes32 bytes offset bytes [] := by
  intro data base head heads _
  refine ⟨List.range' head 32, ?_, ?_⟩
  · rw [bytes32, heads.readWord length, Option.bind_eq_bind, Option.bind_some]
  · rw [length, List.length_nil, List.range'_zero, List.append_nil]

theorem lays_dynamic {body : Body α} {value : α} {bytes : List Byte}
    (encodes : Encodes body value bytes) (fits : offset < 256 ^ 32) :
    Lays (dynamic body) value offset (bigEndian 32 offset) bytes := by
  intro data base head heads tails
  have word := heads.readWord (bigEndian_length 32 offset)
  rcases encodes data (base + offset) tails with ⟨positions, read, once⟩
  refine ⟨List.range' head 32 ++ positions, ?_, ?_⟩
  · simp only [dynamic, word, Option.bind_eq_bind, Option.bind_some, ofBigEndian_of_lt fits, read]
  · rw [bigEndian_length]
    exact once.append_left _

theorem lays_last : Lays last () offset [] [] := by
  intro data base head _ _
  exact ⟨[], rfl, List.Perm.refl _⟩

/-- The positions of a component and of those behind it. -/
theorem positions_append {positions later : List ℕ} {head start : ℕ}
    {heads tails heads' tails' : List Byte}
    (once : positions.Perm (List.range' head heads.length ++ List.range' start tails.length))
    (after : later.Perm (List.range' (head + heads.length) heads'.length ++
      List.range' (start + tails.length) tails'.length)) :
    (positions ++ later).Perm (List.range' head (heads ++ heads').length ++
      List.range' start (tails ++ tails').length) := by
  rw [List.length_append, List.length_append, ← List.range'_append_1, ← List.range'_append_1]
  exact (once.append after).trans (perm_append_swap _ _ _ _)

theorem lays_next {first : Component α} {rest : Component β} {a : α} {b : β}
    {heads tails heads' tails' : List Byte} (one : Lays first a offset heads tails)
    (width : heads.length = 32) (others : Lays rest b (offset + tails.length) heads' tails') :
    Lays (next first rest) (a, b) offset (heads ++ heads') (tails ++ tails') := by
  intro data base head held stored
  rcases holds_append.mp held with ⟨here, behind⟩
  rcases holds_append.mp stored with ⟨body, bodies⟩
  rcases one data base head here body with ⟨positions, read, once⟩
  rw [Nat.add_assoc] at bodies
  rw [width] at behind
  rcases others data base (head + 32) behind bodies with ⟨later, reads, after⟩
  refine ⟨positions ++ later, ?_, ?_⟩
  · simp only [next, read, reads, Option.bind_eq_bind, Option.bind_some]
  · apply positions_append once
    rwa [width, Nat.add_assoc]

/-- A word leaves nothing among the tails. -/
theorem lays_next_word {first : Component α} {rest : Component β} {a : α} {b : β}
    {heads heads' tails : List Byte} (one : Lays first a offset heads [])
    (width : heads.length = 32) (others : Lays rest b offset heads' tails) :
    Lays (next first rest) (a, b) offset (heads ++ heads') tails :=
  lays_next one width others

theorem encodes_tuple {fields : Component α} {value : α} {heads tails : List Byte}
    (lays : Lays fields value offset heads tails) (behind : heads.length = offset) :
    Encodes (tuple fields) value (heads ++ tails) := by
  subst behind
  intro data start held
  rcases holds_append.mp held with ⟨here, stored⟩
  rcases lays data start start here stored with ⟨positions, read, once⟩
  refine ⟨positions, read, ?_⟩
  rwa [List.range'_append_1, ← List.length_append] at once

theorem lays_elements_nil {element : Component α} : Lays (elements element 0) [] offset [] [] := by
  intro data base head _ _
  exact ⟨[], rfl, List.Perm.refl _⟩

theorem lays_elements_cons {element : Component α} {a : α} {list : List α}
    {heads tails heads' tails' : List Byte} (one : Lays element a offset heads tails)
    (width : heads.length = 32)
    (others : Lays (elements element list.length) list (offset + tails.length) heads' tails') :
    Lays (elements element (a :: list).length) (a :: list) offset (heads ++ heads')
      (tails ++ tails') := by
  intro data base head held stored
  rcases lays_next one width others data base head held stored with ⟨positions, read, once⟩
  refine ⟨positions, ?_, once⟩
  simp only [next, Option.bind_eq_bind, Option.bind_eq_some_iff] at read
  rcases read with ⟨⟨value, first⟩, here, ⟨values, later⟩, behind, same⟩
  cases same
  simp only [elements, List.length_cons, here, behind, Option.bind_eq_bind, Option.bind_some]

theorem encodes_array {element : Component α} {list : List α} {heads tails : List Byte}
    (fits : list.length < 2 ^ 256)
    (lays : Lays (elements element list.length) list offset heads tails)
    (behind : heads.length = offset) :
    Encodes (array element) list (bigEndian 32 list.length ++ (heads ++ tails)) := by
  intro data start held
  rcases holds_append.mp held with ⟨here, stored⟩
  rw [bigEndian_length] at stored
  rcases lays_uint le_rfl fits data start start here
      (List.nil_prefix : [] <+: data.drop (start + 0)) with ⟨positions, read, once⟩
  rcases encodes_tuple lays behind data (start + 32) stored with ⟨later, reads, after⟩
  refine ⟨positions ++ later, ?_, ?_⟩
  · simp only [array, read, reads, Option.bind_eq_bind, Option.bind_some]
  · rw [List.length_nil, List.range'_zero, List.append_nil] at once
    rw [List.length_append, ← List.range'_append_1, bigEndian_length]
    rw [bigEndian_length] at once
    exact once.append after

/-- An array of words. -/
theorem encodes_words {ι : Type} {element : Component α} {value : ι → α} {word : ι → List Byte}
    {list : List ι} (fits : list.length < 2 ^ 256)
    (each : ∀ i ∈ list, ∀ offset, Lays element (value i) offset (word i) [])
    (width : ∀ i, (word i).length = 32) :
    Encodes (array element) (list.map value)
      (bigEndian 32 list.length ++ list.flatMap word) := by
  have row (offset : ℕ) : Lays (elements element (list.map value).length) (list.map value) offset
      (list.flatMap word) [] := by
    induction list generalizing offset with
    | nil => exact lays_elements_nil
    | cons i rest ih =>
        have later := ih (Nat.lt_of_succ_lt fits)
          (fun j member => each j (List.mem_cons_of_mem i member)) offset
        exact lays_elements_cons (each i List.mem_cons_self offset) (width i) later
  have many : (list.map value).length < 2 ^ 256 := by rwa [List.length_map]
  have body := encodes_array many (row _) rfl
  rwa [List.append_nil, List.length_map] at body

/-- Where bodies start that are laid one behind the other. -/
def offsets : ℕ → List (List Byte) → List ℕ
  | _, [] => []
  | current, bytes :: rest => current :: offsets (current + bytes.length) rest

theorem offsets_length (current : ℕ) (bodies : List (List Byte)) :
    (offsets current bodies).length = bodies.length := by
  induction bodies generalizing current with
  | nil => rfl
  | cons bytes rest ih => rw [offsets, List.length_cons, List.length_cons, ih]

/-- No body starts behind the end of the last one. -/
theorem offsets_le {current position : ℕ} {bodies : List (List Byte)}
    (member : position ∈ offsets current bodies) : position ≤ current + bodies.flatten.length := by
  induction bodies generalizing current with
  | nil => cases member
  | cons bytes rest ih =>
      rw [List.flatten_cons, List.length_append]
      rcases List.mem_cons.mp member with rfl | later
      · exact Nat.le_add_right _ _
      · have bound := ih later
        omega

/-- An array of bodies behind their offsets. -/
theorem encodes_bodies {ι : Type} {body : Body α} {value : ι → α} {bytes : ι → List Byte}
    {list : List ι} (each : ∀ i ∈ list, Encodes body (value i) (bytes i))
    (fits : 32 * list.length + (list.flatMap bytes).length < 256 ^ 32) :
    Encodes (array (dynamic body)) (list.map value)
      (bigEndian 32 list.length ++
        ((offsets (32 * list.length) (list.map bytes)).flatMap (bigEndian 32) ++
          list.flatMap bytes)) := by
  have row (start : ℕ) (small : start + (list.flatMap bytes).length < 256 ^ 32) :
      Lays (elements (dynamic body) (list.map value).length) (list.map value) start
        ((offsets start (list.map bytes)).flatMap (bigEndian 32)) (list.flatMap bytes) := by
    clear fits
    induction list generalizing start with
    | nil => exact lays_elements_nil
    | cons i rest ih =>
        rw [List.flatMap_cons, List.length_append] at small
        have here : start < 256 ^ 32 := by omega
        have behind : start + (bytes i).length + (rest.flatMap bytes).length < 256 ^ 32 := by omega
        have later := ih (fun j member => each j (List.mem_cons_of_mem i member)) _ behind
        exact lays_elements_cons (lays_dynamic (each i List.mem_cons_self) here)
          (bigEndian_length 32 start) later
  have heads : ((offsets (32 * list.length) (list.map bytes)).flatMap (bigEndian 32)).length =
      32 * list.length := by
    rw [flatMap_length (bigEndian_length 32), offsets_length, List.length_map]
  have few : list.length < 2 ^ 256 := by
    have power : (256 : ℕ) ^ 32 = 2 ^ 256 := by norm_num
    rw [power] at fits
    omega
  have many : (list.map value).length < 2 ^ 256 := by rwa [List.length_map]
  have body := encodes_array many (row (32 * list.length) fits) heads
  rwa [List.length_map] at body

end Laws

end Abi
end Machine
end QLSA
