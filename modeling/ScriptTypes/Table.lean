/-!
# Tables keyed by names

`Entries α` pairs names with values in the order in which the names arrived. Setting a name that
is there keeps its place. A `Table α` is such a list in which no name stands twice.

* `Entries.get?_set`: what a look-up finds after a write.
* `Entries.mem_names_iff`: the names are those that a look-up finds.
* `Entries.mem_names_set`: which names there are after a write.
-/

namespace ScriptTypes

/-- Names with values, in order of arrival. -/
abbrev Entries (α : Type) := List (String × α)

namespace Entries

variable {α : Type}

/-- The value of the first entry for a name. -/
def get? : Entries α → String → Option α
  | [], _ => none
  | (key, value) :: rest, name => if key = name then some value else get? rest name

/-- Replaces the value of the first entry for a name, or adds an entry at the end. -/
def set : Entries α → String → α → Entries α
  | [], name, value => [(name, value)]
  | (key, old) :: rest, name, value =>
    if key = name then (key, value) :: rest else (key, old) :: set rest name value

/-- The names, in order of arrival. -/
def names (entries : Entries α) : List String := entries.map Prod.fst

/-- Puts an entry before the first one whose name does not come before its own. -/
def insertSorted (entry : String × α) : Entries α → Entries α
  | [] => [entry]
  | first :: rest =>
    if entry.1 ≤ first.1 then entry :: first :: rest else first :: insertSorted entry rest

/-- The entries with their names in the order of code points. -/
def sorted : Entries α → Entries α
  | [] => []
  | entry :: rest => insertSorted entry (sorted rest)

theorem get?_set (entries : Entries α) (name other : String) (value : α) :
    get? (set entries name value) other =
      if name = other then some value else get? entries other := by
  induction entries with
  | nil => rfl
  | cons entry rest ih =>
    obtain ⟨key, old⟩ := entry
    by_cases hk : key = name
    · subst hk
      by_cases ho : key = other <;> simp [set, get?, ho]
    · by_cases ho : key = other
      · subst ho
        simp [set, get?, hk, Ne.symm hk]
      · simp [set, get?, hk, ho, ih]

theorem mem_names_iff {entries : Entries α} {name : String} :
    name ∈ names entries ↔ ∃ value, get? entries name = some value := by
  induction entries with
  | nil => simp [names, get?]
  | cons entry rest ih =>
    obtain ⟨key, old⟩ := entry
    have hi : name ∈ rest.map Prod.fst ↔ ∃ value, get? rest name = some value := ih
    by_cases hk : key = name
    · simp [names, get?, hk]
    · simp [names, get?, hk, Ne.symm hk, hi]

theorem mem_names_set {entries : Entries α} {name other : String} {value : α} :
    other ∈ names (set entries name value) ↔ other = name ∨ other ∈ names entries := by
  induction entries with
  | nil => simp [set, names]
  | cons entry rest ih =>
    obtain ⟨key, old⟩ := entry
    by_cases hk : key = name
    · subst hk
      simp [set, names]
    · have hi : other ∈ (set rest name value).map Prod.fst ↔
          other = name ∨ other ∈ rest.map Prod.fst := ih
      simp only [set, names, hk, if_false, List.map_cons, List.mem_cons, hi]
      exact or_left_comm

theorem nodup_names_set {entries : Entries α} (h : (names entries).Nodup) (name : String)
    (value : α) : (names (set entries name value)).Nodup := by
  induction entries with
  | nil => simp [set, names]
  | cons entry rest ih =>
    obtain ⟨key, old⟩ := entry
    have hcons : key ∉ names rest ∧ (names rest).Nodup := List.nodup_cons.1 h
    by_cases hk : key = name
    · simpa [set, names, hk] using h
    · have hkey : key ∉ names (set rest name value) := fun hmem =>
        (mem_names_set.1 hmem).elim hk hcons.1
      simpa [set, names, hk] using List.nodup_cons.2 ⟨hkey, ih hcons.2⟩

theorem insertSorted_perm (entry : String × α) (entries : Entries α) :
    (insertSorted entry entries).Perm (entry :: entries) := by
  induction entries with
  | nil => exact .refl _
  | cons first rest ih =>
    rw [insertSorted]
    split
    · exact .refl _
    · exact (ih.cons first).trans (.swap entry first rest)

theorem sorted_perm (entries : Entries α) : (sorted entries).Perm entries := by
  induction entries with
  | nil => exact .refl _
  | cons entry rest ih => exact (insertSorted_perm entry (sorted rest)).trans (ih.cons entry)

end Entries

/-- Names with values, in order of arrival, each name once. -/
structure Table (α : Type) where
  entries : Entries α
  nodup : (Entries.names entries).Nodup

namespace Table

variable {α : Type}

/-- The table without entries. -/
def empty : Table α := ⟨[], List.nodup_nil⟩

/-- The value of a name. -/
def get? (table : Table α) (name : String) : Option α := Entries.get? table.entries name

/-- Whether a name has a value. -/
def contains (table : Table α) (name : String) : Bool := (table.get? name).isSome

/-- Gives a name a value; a name that is there keeps its place. -/
def set (table : Table α) (name : String) (value : α) : Table α :=
  ⟨Entries.set table.entries name value, Entries.nodup_names_set table.nodup name value⟩

/-- The names, in order of arrival. -/
def names (table : Table α) : List String := Entries.names table.entries

/-- The table of a list of entries: of several for one name the last counts, in the place of the
first. -/
def ofEntries (entries : Entries α) : Table α :=
  entries.foldl (fun table entry => table.set entry.1 entry.2) empty

/-- The entries, by name. -/
def sorted (table : Table α) : Entries α := Entries.sorted table.entries

@[simp] theorem get?_empty (name : String) : (empty : Table α).get? name = none := rfl

theorem get?_set (table : Table α) (name other : String) (value : α) :
    (table.set name value).get? other = if name = other then some value else table.get? other :=
  Entries.get?_set table.entries name other value

theorem get?_set_of_ne {name other : String} (h : name ≠ other) (table : Table α) (value : α) :
    (table.set name value).get? other = table.get? other := by rw [get?_set, if_neg h]

theorem mem_names_iff {table : Table α} {name : String} :
    name ∈ table.names ↔ ∃ value, table.get? name = some value := Entries.mem_names_iff

theorem mem_names_set {table : Table α} {name other : String} {value : α} :
    other ∈ (table.set name value).names ↔ other = name ∨ other ∈ table.names :=
  Entries.mem_names_set

theorem contains_iff {table : Table α} {name : String} :
    table.contains name = true ↔ name ∈ table.names := by
  rw [contains, Option.isSome_iff_exists, mem_names_iff]

end Table

end ScriptTypes
