/-!
# Tables

A table maps names to entries. An entry that is set again keeps its place; a new one goes to the
end. `get?` is the view of a table: after `set` it changes at one name only.
-/

namespace TreeWalk

/-- Names with their entries, each name once. -/
abbrev Table (α : Type) := List (String × α)

namespace Table

variable {α : Type}

/-- The entry of a name. -/
def get? (x : String) : Table α → Option α
  | [] => none
  | (y, a) :: rest => if y = x then some a else get? x rest

/-- Whether a name has an entry. -/
def contains (x : String) (t : Table α) : Bool :=
  (t.get? x).isSome

/-- Gives a name an entry, in place of the one it had. -/
def set (x : String) (a : α) : Table α → Table α
  | [] => [(x, a)]
  | (y, b) :: rest => if y = x then (x, a) :: rest else (y, b) :: set x a rest

@[simp]
theorem get?_set_self (x : String) (a : α) (t : Table α) : (t.set x a).get? x = some a := by
  induction t with
  | nil => simp [set, get?]
  | cons p rest ih =>
    obtain ⟨y, b⟩ := p
    by_cases h : y = x <;> simp [set, get?, h, ih]

theorem get?_set_ne {x y : String} (h : x ≠ y) (a : α) (t : Table α) :
    (t.set x a).get? y = t.get? y := by
  induction t with
  | nil => simp [set, get?, h]
  | cons p rest ih =>
    obtain ⟨z, b⟩ := p
    by_cases hz : z = x
    · subst hz; simp [set, get?, h]
    · by_cases hy : z = y
      · subst hy; simp [set, get?, hz]
      · simp [set, get?, hz, hy, ih]

/-- A name has an entry after `set` if it is the name set or had one before. -/
theorem contains_set (x y : String) (a : α) (t : Table α) :
    (t.set x a).contains y = (decide (x = y) || t.contains y) := by
  by_cases h : x = y
  · subst h; simp [contains]
  · simp [contains, get?_set_ne h, h]

end Table

end TreeWalk
