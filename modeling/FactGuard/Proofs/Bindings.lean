import FactGuard.Bindings

/-!
# Tables with distinct names

`get?` answers with the first value of a name and `last?` with the last one. They agree on a table
in which no name stands twice (`last?_eq_get?`), so that every reader of such a table sees the same
value. A table that grows at its end keeps what it answered before (`get?_append_of_some`).
-/

namespace FactGuard.Bindings

variable {α : Type}

/-- The names of a table. -/
def names (table : Bindings α) : List String := table.map Prod.fst

@[simp] theorem names_nil : names ([] : Bindings α) = [] := rfl

@[simp] theorem names_cons (entry : String × α) (rest : Bindings α) :
    names (entry :: rest) = entry.1 :: names rest := rfl

@[simp] theorem names_append (table more : Bindings α) :
    names (table ++ more) = names table ++ names more := List.map_append

/-- A table answers for its own names only. -/
theorem get?_eq_none_iff (table : Bindings α) (name : String) :
    get? table name = none ↔ name ∉ names table := by
  induction table with
  | nil => simp
  | cons entry rest ih =>
    obtain ⟨key, value⟩ := entry
    by_cases hk : key = name
    · simp [get?, hk]
    · simp [get?, hk, ih, Ne.symm hk]

/-- A table answers for each of its names. -/
theorem isSome_get?_iff (table : Bindings α) (name : String) :
    (get? table name).isSome ↔ name ∈ names table := by
  rw [Option.isSome_iff_ne_none, ne_eq, get?_eq_none_iff, Decidable.not_not]

/-- What a table binds stands in it. -/
theorem mem_of_get?_eq_some {table : Bindings α} {name : String} {value : α}
    (h : get? table name = some value) : (name, value) ∈ table := by
  induction table with
  | nil => simp at h
  | cons entry rest ih =>
    obtain ⟨key, old⟩ := entry
    by_cases hk : key = name
    · simp only [get?, hk, if_true, Option.some.injEq] at h
      simp [hk, h]
    · simp only [get?, hk, if_false] at h
      exact List.mem_cons_of_mem _ (ih h)

/-- The first table answers before the second one. -/
theorem get?_append (table more : Bindings α) (name : String) :
    get? (table ++ more) name = (get? table name).or (get? more name) := by
  induction table with
  | nil => simp
  | cons entry rest ih =>
    obtain ⟨key, value⟩ := entry
    by_cases hk : key = name
    · simp [get?, hk]
    · simp [get?, hk, ih]

/-- A table that grows at its end keeps its answers. -/
theorem get?_append_of_some {table : Bindings α} {name : String} {value : α}
    (more : Bindings α) (h : get? table name = some value) :
    get? (table ++ more) name = some value := by
  rw [get?_append, h, Option.some_or]

/-- A later value of a name replaces what was found before. -/
theorem foldl_last?_eq (table : Bindings α) (name : String) (found : Option α) :
    table.foldl (fun found entry => if entry.1 = name then some entry.2 else found) found
      = (last? table name).or found := by
  induction table generalizing found with
  | nil => simp [last?]
  | cons entry rest ih =>
    unfold last? at ih ⊢
    simp only [List.foldl_cons]
    rw [ih, ih (if entry.1 = name then some entry.2 else none), Option.or_assoc]
    by_cases hk : entry.1 = name <;> simp [hk]

theorem last?_cons (key name : String) (value : α) (rest : Bindings α) :
    last? ((key, value) :: rest) name
      = (last? rest name).or (if key = name then some value else none) := by
  rw [← foldl_last?_eq]
  rfl

/-- The last value of a name stands in the table. -/
theorem last?_eq_none_iff (table : Bindings α) (name : String) :
    last? table name = none ↔ name ∉ names table := by
  induction table with
  | nil => simp [last?]
  | cons entry rest ih =>
    obtain ⟨key, value⟩ := entry
    by_cases hk : key = name
    · simp [last?_cons, hk]
    · simp [last?_cons, hk, ih, Ne.symm hk]

/-- Where no name stands twice, the last value of a name is the first one. -/
theorem last?_eq_get? {table : Bindings α} (h : (names table).Nodup) (name : String) :
    last? table name = get? table name := by
  induction table with
  | nil => rfl
  | cons entry rest ih =>
    obtain ⟨key, value⟩ := entry
    rw [names_cons, List.nodup_cons] at h
    rw [last?_cons, ih h.2]
    by_cases hk : key = name
    · subst hk
      rw [(get?_eq_none_iff rest key).2 h.1]
      simp [get?]
    · simp [get?, hk]

/-- What a table binds last stands in it. -/
theorem mem_of_last?_eq_some {table : Bindings α} {name : String} {value : α}
    (h : last? table name = some value) : (name, value) ∈ table := by
  induction table with
  | nil => cases h
  | cons entry rest ih =>
    obtain ⟨key, old⟩ := entry
    rw [last?_cons] at h
    cases hlast : last? rest name with
    | some found =>
      rw [hlast, Option.some_or] at h
      cases h
      exact List.mem_cons_of_mem _ (ih hlast)
    | none =>
      rw [hlast, Option.none_or] at h
      by_cases hkey : key = name
      · rw [if_pos hkey] at h
        cases h
        rw [hkey]
        exact List.mem_cons_self
      · rw [if_neg hkey] at h
        cases h

/-- Where no name stands twice, a table answers with each of its values. -/
theorem get?_eq_some_of_mem {table : Bindings α} (h : (names table).Nodup) {name : String}
    {value : α} (hmem : (name, value) ∈ table) : get? table name = some value := by
  induction table with
  | nil => cases hmem
  | cons entry rest ih =>
    obtain ⟨key, old⟩ := entry
    rw [names_cons, List.nodup_cons] at h
    rcases List.mem_cons.1 hmem with heq | hmem
    · cases heq
      exact if_pos rfl
    · have hne : key ≠ name := by
        rintro rfl
        exact h.1 (List.mem_map.2 ⟨_, hmem, rfl⟩)
      rw [get?, if_neg hne]
      exact ih h.2 hmem

end FactGuard.Bindings
