/-!
# Distances

For each reference to a local variable, how many scopes lie between the reference and the scope of
the variable. A reference without an entry is to a global variable.
-/

namespace TreeWalk

/-- The distances recorded so far, by reference. -/
structure Distances where
  entries : Array (Option Nat)

namespace Distances

/-- No reference is local. -/
def empty : Distances := ⟨#[]⟩

/-- The distance of a reference, if one was recorded. -/
def get? (d : Distances) (reference : Nat) : Option Nat :=
  d.entries[reference]?.join

/-- Passes over the next `count` references: they have no entry. -/
def skip (d : Distances) (count : Nat) : Distances :=
  ⟨d.entries ++ Array.replicate count none⟩

/-- Records the distance of a reference. References mostly come in increasing order. -/
def record (d : Distances) (reference distance : Nat) : Distances :=
  if reference < d.entries.size then ⟨d.entries.setIfInBounds reference (some distance)⟩
  else ⟨(d.skip (reference - d.entries.size)).entries.push (some distance)⟩

@[simp]
theorem get?_empty (r : Nat) : empty.get? r = none := by
  simp [empty, get?]

theorem get?_skip (d : Distances) (count r : Nat) : (d.skip count).get? r = d.get? r := by
  by_cases h : r < d.entries.size
  · simp [get?, skip, Array.getElem?_append_left h]
  · have h : d.entries.size ≤ r := Nat.le_of_not_lt h
    simp only [get?, skip, Array.getElem?_append_right h, Array.getElem?_eq_none h,
      Array.getElem?_replicate]
    by_cases hc : r - d.entries.size < count <;> simp [hc]

/-- Recording changes one entry and no other. -/
theorem get?_record (d : Distances) (r n r' : Nat) :
    (d.record r n).get? r' = if r = r' then some n else d.get? r' := by
  by_cases h : r < d.entries.size
  · by_cases hr : r = r'
    · subst hr; simp [record, get?, h]
    · simp [record, get?, h, hr]
  · have hs : (d.skip (r - d.entries.size)).entries.size = r := by
      simp [skip]; omega
    rw [← get?_skip d (r - d.entries.size) r']
    simp only [record, h, if_false, get?, Array.getElem?_push, hs, eq_comm]
    by_cases hr : r = r' <;> simp [hr]

@[simp]
theorem get?_record_self (d : Distances) (r n : Nat) : (d.record r n).get? r = some n := by
  rw [get?_record, if_pos rfl]

theorem get?_record_ne {r r' : Nat} (h : r ≠ r') (d : Distances) (n : Nat) :
    (d.record r n).get? r' = d.get? r' := by
  rw [get?_record, if_neg h]

end Distances

end TreeWalk
