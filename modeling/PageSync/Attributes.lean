/-!
# Attribute maps

The attributes of a node are a finite map from names to values. A map is kept as the list of its
entries in ascending order of names, character by character, so that equal maps are equal lists
and the order in which entries are written out is fixed.
-/

namespace PageSync

/-! ### Entries in order -/

namespace AttributeList

/-- The value stored under a name. -/
def find? (name : String) : List (String × String) → Option String
  | [] => none
  | (key, value) :: rest => if key = name then some value else find? name rest

/-- Stores a value under a name, in the place that the order gives it. -/
def insert (name value : String) : List (String × String) → List (String × String)
  | [] => [(name, value)]
  | (key, old) :: rest =>
    if name < key then (name, value) :: (key, old) :: rest
    else if name = key then (name, value) :: rest
    else (key, old) :: insert name value rest

/-- Whether names are strictly ascending. -/
abbrev Sorted (entries : List (String × String)) : Prop := entries.Pairwise (fun a b => a.1 < b.1)

theorem mem_insert {name value : String} {e : String × String} {entries : List (String × String)} :
    e ∈ insert name value entries → e = (name, value) ∨ e ∈ entries := by
  induction entries with
  | nil => simp [insert]
  | cons head rest ih =>
    simp only [insert]
    split
    · simp
    · split
      · intro h
        rcases List.mem_cons.1 h with h | h
        · exact .inl h
        · exact .inr (List.mem_cons_of_mem _ h)
      · intro h
        rcases List.mem_cons.1 h with h | h
        · exact .inr (h ▸ List.mem_cons_self)
        · rcases ih h with h | h
          · exact .inl h
          · exact .inr (List.mem_cons_of_mem _ h)

theorem sorted_insert (name value : String) {entries : List (String × String)}
    (h : Sorted entries) : Sorted (insert name value entries) := by
  induction entries with
  | nil => simp [insert, Sorted]
  | cons head rest ih =>
    obtain ⟨key, old⟩ := head
    obtain ⟨first, others⟩ := List.pairwise_cons.1 h
    simp only [insert]
    split
    · next lt =>
      refine List.pairwise_cons.2 ⟨fun e he => ?_, h⟩
      rcases List.mem_cons.1 he with he | he
      · exact he ▸ lt
      · exact String.lt_trans lt (first e he)
    · next nlt =>
      split
      · next eq => exact List.pairwise_cons.2 ⟨fun e he => eq ▸ first e he, others⟩
      · next ne =>
        refine List.pairwise_cons.2 ⟨fun e he => ?_, ih others⟩
        rcases mem_insert he with he | he
        · subst he
          exact Decidable.byContradiction fun nlt' =>
            ne (String.le_antisymm (String.not_lt.1 nlt') (String.not_lt.1 nlt))
        · exact first e he

theorem find?_insert_self (name value : String) (entries : List (String × String)) :
    find? name (insert name value entries) = some value := by
  induction entries with
  | nil => simp [insert, find?]
  | cons head rest ih =>
    simp only [insert]
    split
    · simp [find?]
    · split
      · simp [find?]
      · next ne => simp [find?, Ne.symm ne, ih]

theorem find?_insert_of_ne {name other : String} (h : name ≠ other) (value : String)
    (entries : List (String × String)) :
    find? other (insert name value entries) = find? other entries := by
  induction entries with
  | nil => simp [insert, find?, h]
  | cons head rest ih =>
    simp only [insert]
    split
    · simp [find?, h]
    · split
      · next eq => simp [find?, ← eq, h]
      · simp [find?, ih]

theorem find?_filter_self (name : String) (entries : List (String × String)) :
    find? name (entries.filter (·.1 ≠ name)) = none := by
  induction entries with
  | nil => rfl
  | cons head rest ih =>
    by_cases h : head.1 = name
    · simpa [h] using ih
    · simpa [h, find?] using ih

theorem find?_filter_of_ne {name other : String} (h : name ≠ other)
    (entries : List (String × String)) :
    find? other (entries.filter (·.1 ≠ name)) = find? other entries := by
  induction entries with
  | nil => rfl
  | cons head rest ih =>
    by_cases hn : head.1 = name
    · have : head.1 ≠ other := fun e => h (hn ▸ e)
      simpa [hn, find?, h] using ih
    · by_cases ho : head.1 = other
      · simp [ho, find?, Ne.symm h]
      · simpa [hn, ho, find?] using ih

end AttributeList

/-! ### Maps -/

/-- A finite map from attribute names to values, in ascending order of names. -/
structure Attributes where
  /-- The names and values, in order. -/
  entries : List (String × String)
  /-- Names are strictly ascending. -/
  sorted : AttributeList.Sorted entries
deriving DecidableEq

namespace Attributes

/-- The map without entries. -/
def empty : Attributes := ⟨[], List.Pairwise.nil⟩

instance : Inhabited Attributes := ⟨empty⟩

/-- The value stored under a name. -/
def get? (attributes : Attributes) (name : String) : Option String :=
  AttributeList.find? name attributes.entries

/-- Stores a value under a name, in place of what was stored there. -/
def insert (attributes : Attributes) (name value : String) : Attributes :=
  ⟨AttributeList.insert name value attributes.entries, AttributeList.sorted_insert name value attributes.sorted⟩

/-- Removes a name and its value. -/
def erase (attributes : Attributes) (name : String) : Attributes :=
  ⟨attributes.entries.filter (·.1 ≠ name), attributes.sorted.filter _⟩

/-- The map that stores all the given pairs, the last one of each name. -/
def ofList (pairs : List (String × String)) : Attributes :=
  pairs.foldl (fun attributes pair => attributes.insert pair.1 pair.2) empty

@[simp] theorem get?_empty (name : String) : empty.get? name = none := rfl

@[simp] theorem get?_insert_self (attributes : Attributes) (name value : String) :
    (attributes.insert name value).get? name = some value :=
  AttributeList.find?_insert_self ..

theorem get?_insert_of_ne (attributes : Attributes) {name other : String} (h : name ≠ other)
    (value : String) : (attributes.insert name value).get? other = attributes.get? other :=
  AttributeList.find?_insert_of_ne h ..

@[simp] theorem get?_erase_self (attributes : Attributes) (name : String) :
    (attributes.erase name).get? name = none :=
  AttributeList.find?_filter_self ..

theorem get?_erase_of_ne (attributes : Attributes) {name other : String} (h : name ≠ other) :
    (attributes.erase name).get? other = attributes.get? other :=
  AttributeList.find?_filter_of_ne h ..

end Attributes

end PageSync
