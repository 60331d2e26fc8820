import SqlTree.Value.Basic

/-!
The parts of a value, and how high they are.
-/

namespace SqlTree

namespace Value

/-- `u` is the value or a part of it at any depth: an item, a key, or the value of an entry. -/
inductive Occurs (u : Value) : Value → Prop
  | here : Occurs u u
  | element {v w : Value} {vs : List Value} :
      v.elements? = some vs → w ∈ vs → Occurs u w → Occurs u v
  | entry {es : Entries} {e : Value × Value} : e ∈ es → Occurs u e.2 → Occurs u (.map es)

theorem Occurs.trans {u v w : Value} (h : Occurs u v) (h' : Occurs v w) : Occurs u w := by
  induction h' with
  | here => exact h
  | element he hw _ ih => exact .element he hw ih
  | entry he _ ih => exact .entry he ih

theorem Occurs.key {u : Value} {es : Entries} {e : Value × Value} (he : e ∈ es)
    (h : Occurs u e.1) : Occurs u (.map es) :=
  .element rfl (List.mem_map_of_mem he) h

theorem elements_of_items {v : Value} {vs : List Value} (h : v.items? = some vs) :
    v.elements? = some vs := by
  cases v <;> simp_all [Value.items?, Value.elements?]

theorem height_le_heightAll {v : Value} {vs : List Value} (h : v ∈ vs) :
    v.height ≤ heightAll vs := by
  induction vs with
  | nil => simp at h
  | cons w vs ih =>
    rw [heightAll]
    rcases List.mem_cons.mp h with rfl | h
    · omega
    · have := ih h
      omega

theorem height_le_heightEntries {e : Value × Value} {es : Entries} (h : e ∈ es) :
    e.1.height ≤ heightEntries es ∧ e.2.height ≤ heightEntries es := by
  induction es with
  | nil => simp at h
  | cons f es ih =>
    rw [heightEntries]
    rcases List.mem_cons.mp h with rfl | h
    · omega
    · have := ih h
      omega

theorem height_lt_of_items {v w : Value} {vs : List Value} (h : v.items? = some vs)
    (hw : w ∈ vs) : w.height < v.height := by
  have hle := height_le_heightAll hw
  cases v <;> simp only [Value.items?, reduceCtorEq, Option.some.injEq] at h <;> subst h <;>
    rw [height] <;> omega

/-- A text is no higher than its characters, so this is not strict. -/
theorem height_le_of_element {v w : Value} {vs : List Value} (h : v.elements? = some vs)
    (hw : w ∈ vs) : w.height ≤ v.height := by
  cases v <;> simp only [Value.elements?, reduceCtorEq, Option.some.injEq] at h <;> subst h
  case list => exact Nat.le_of_lt (height_lt_of_items rfl hw)
  case tuple => exact Nat.le_of_lt (height_lt_of_items rfl hw)
  case set =>
    have := height_le_heightAll hw
    rw [height]
    omega
  case map =>
    obtain ⟨e, he, rfl⟩ := List.mem_map.mp hw
    have := (height_le_heightEntries he).1
    rw [height]
    omega
  all_goals
    obtain ⟨c, -, rfl⟩ := List.mem_map.mp hw
    exact Nat.zero_le _

theorem height_lt_of_entry {es : Entries} {e : Value × Value} (h : e ∈ es) :
    e.2.height < (Value.map es).height := by
  have := (height_le_heightEntries h).2
  rw [height]
  omega

theorem Occurs.height_le {u v : Value} (h : Occurs u v) : u.height ≤ v.height := by
  induction h with
  | here => exact Nat.le_refl _
  | element he hw _ ih => exact Nat.le_trans ih (height_le_of_element he hw)
  | entry he _ ih => exact Nat.le_trans ih (Nat.le_of_lt (height_lt_of_entry he))

section Every

mutual

/-- The test holds of the value and of all its parts. The characters of a text are no parts here. -/
def every (p : Value → Bool) : Value → Bool
  | list vs => p (list vs) && everyItem p vs
  | tuple vs => p (tuple vs) && everyItem p vs
  | set vs => p (set vs) && everyItem p vs
  | map es => p (map es) && everyEntry p es
  | v => p v

def everyItem (p : Value → Bool) : List Value → Bool
  | [] => true
  | v :: vs => every p v && everyItem p vs

def everyEntry (p : Value → Bool) : List (Value × Value) → Bool
  | [] => true
  | (k, v) :: es => every p k && every p v && everyEntry p es

end

variable {p : Value → Bool}

theorem everyItem_iff {vs : List Value} : everyItem p vs ↔ ∀ v ∈ vs, every p v := by
  induction vs with
  | nil => simp [everyItem]
  | cons v vs ih => simp [everyItem, ih]

theorem everyEntry_iff {es : Entries} :
    everyEntry p es ↔ ∀ e ∈ es, every p e.1 ∧ every p e.2 := by
  induction es with
  | nil => simp [everyEntry]
  | cons e es ih => simp [everyEntry, ih]

theorem every_self {v : Value} (h : every p v) : p v := by
  cases v <;> simp_all [every]

end Every

end Value

end SqlTree
