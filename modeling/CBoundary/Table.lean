/-!
# Tables

A table maps names to values and keeps its entries in the order in which their
names were first entered.  Entering a value under a name that is there replaces
the value and keeps the place.
-/

namespace CBoundary

/-- An insertion-ordered map from names. -/
structure Table (α : Type) where
  entries : List (String × α) := []
  deriving Repr

namespace Table

variable {α β : Type}

instance : Inhabited (Table α) := ⟨⟨[]⟩⟩

/-- The table without entries. -/
def empty : Table α := ⟨[]⟩

/-- The value under a name. -/
def find? (t : Table α) (key : String) : Option α :=
  (t.entries.find? fun e => e.1 == key).map Prod.snd

/-- Is there an entry under the name? -/
def contains (t : Table α) (key : String) : Bool := t.entries.any fun e => e.1 == key

/-- Enters a value into a list of entries. -/
def insertEntry (key : String) (value : α) : List (String × α) → List (String × α)
  | [] => [(key, value)]
  | e :: es => if e.1 == key then (key, value) :: es else e :: insertEntry key value es

/-- Enters a value under a name. -/
def insert (t : Table α) (key : String) (value : α) : Table α := ⟨insertEntry key value t.entries⟩

/-- Removes the entry under a name. -/
def erase (t : Table α) (key : String) : Table α := ⟨t.entries.filter fun e => e.1 != key⟩

/-- The names in the order of the entries. -/
def keys (t : Table α) : List String := t.entries.map Prod.fst

/-- The values in the order of the entries. -/
def values (t : Table α) : List α := t.entries.map Prod.snd

/-- Is the table empty? -/
def isEmpty (t : Table α) : Bool := t.entries.isEmpty

/-- Applies a function to every value. -/
def mapValues (f : α → β) (t : Table α) : Table β := ⟨t.entries.map fun e => (e.1, f e.2)⟩

/-- Enters the pairs of a list one after the other. -/
def ofList (l : List (String × α)) : Table α := l.foldl (fun t e => t.insert e.1 e.2) empty

theorem find?_insertEntry_self (key : String) (value : α) (es : List (String × α)) :
    ((insertEntry key value es).find? fun e => e.1 == key) = some (key, value) := by
  induction es with
  | nil => simp [insertEntry]
  | cons e es ih =>
    simp only [insertEntry]
    split
    · simp
    · rename_i h
      simp [h, ih]

@[simp] theorem find?_insert_self (t : Table α) (key : String) (value : α) :
    (t.insert key value).find? key = some value := by
  simp [find?, insert, find?_insertEntry_self]

theorem find?_insertEntry_of_ne {key other : String} (value : α) (es : List (String × α))
    (h : other ≠ key) :
    ((insertEntry key value es).find? fun e => e.1 == other) = es.find? fun e => e.1 == other := by
  induction es with
  | nil => simp [insertEntry, h.symm]
  | cons e es ih =>
    simp only [insertEntry]
    split
    · rename_i he
      have : e.1 = key := by simpa using he
      simp [this, h.symm]
    · simp [List.find?_cons, ih]

theorem find?_insert_of_ne (t : Table α) {key other : String} (value : α) (h : other ≠ key) :
    (t.insert key value).find? other = t.find? other := by
  simp [find?, insert, find?_insertEntry_of_ne value t.entries h]

end Table

end CBoundary
