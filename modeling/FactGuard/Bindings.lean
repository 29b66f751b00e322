/-!
# Named values

A finite table from names to values, kept as a list of pairs in which no name stands twice. `insert`
replaces the value of a bound name in its place and appends a new name, so the list also records the
order in which names were first bound. `insertSorted` keeps the names ascending instead.

`get?_insert` says what `insert` does to the view `get?`.
-/

namespace FactGuard

/-- Values by name. -/
abbrev Bindings (α : Type) := List (String × α)

namespace Bindings

variable {α : Type}

/-- The value bound to `name`, the first one if the list binds it twice. -/
def get? : Bindings α → String → Option α
  | [], _ => none
  | (key, value) :: rest, name => if key = name then some value else get? rest name

/-- The value bound to `name` last in the list. -/
def last? (table : Bindings α) (name : String) : Option α :=
  table.foldl (fun found entry => if entry.1 = name then some entry.2 else found) none

/-- Bind `name` to `value`, in place of what it was bound to. -/
def insert (name : String) (value : α) : Bindings α → Bindings α
  | [] => [(name, value)]
  | (key, old) :: rest =>
    if key = name then (name, value) :: rest else (key, old) :: insert name value rest

/-- Bind `name` to `value` in a table whose names ascend, and keep them ascending. -/
def insertSorted (name : String) (value : α) : Bindings α → Bindings α
  | [] => [(name, value)]
  | (key, old) :: rest =>
    if key = name then (name, value) :: rest
    else if name < key then (name, value) :: (key, old) :: rest
    else (key, old) :: insertSorted name value rest

/-- The table of a list of pairs, ascending, in which the last pair of a name counts. -/
def sorted (pairs : List (String × α)) : Bindings α :=
  pairs.foldl (fun table entry => insertSorted entry.1 entry.2 table) []

@[simp] theorem get?_nil (name : String) : get? ([] : Bindings α) name = none := rfl

theorem get?_insert (name other : String) (value : α) (table : Bindings α) :
    get? (insert name value table) other
      = if name = other then some value else get? table other := by
  induction table with
  | nil => simp [insert, get?]
  | cons entry rest ih =>
    obtain ⟨key, old⟩ := entry
    by_cases hk : key = name
    · subst hk
      by_cases ho : key = other <;> simp [insert, get?, ho]
    · by_cases hko : key = other
      · subst hko
        simp [insert, get?, hk, Ne.symm hk]
      · simp [insert, get?, hk, hko, ih]

end Bindings

end FactGuard
