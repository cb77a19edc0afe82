/-!
# Tables of numbered entries

A `Table α` hands out the numbers 0, 1, 2, … to its entries.  A number is never given
twice, also after its entry has been erased.  The view of a table is `get?`.
-/

namespace Statechart

/-- Entries by number; erased ones leave a gap. -/
structure Table (α : Type) where
  cells : Array (Option α)

namespace Table

variable {α : Type}

/-- The table without entries. -/
def empty : Table α := ⟨#[]⟩

instance : Inhabited (Table α) := ⟨empty⟩

/-- The number that the next entry gets. -/
def next (t : Table α) : Nat := t.cells.size

/-- The entry with a number. -/
def get? (t : Table α) (i : Nat) : Option α := (t.cells[i]?).join

/-- Adds an entry, under the number `t.next`. -/
def add (t : Table α) (a : α) : Table α := ⟨t.cells.push (some a)⟩

/-- Changes an entry, if it is there. -/
def modify (t : Table α) (i : Nat) (f : α → α) : Table α :=
  ⟨t.cells.modify i (Option.map f)⟩

/-- Removes an entry. -/
def erase (t : Table α) (i : Nat) : Table α := ⟨t.cells.modify i fun _ => none⟩

/-- The numbers of the entries that are there. -/
def ids (t : Table α) : List Nat := (List.range t.next).filter fun i => (t.get? i).isSome

@[simp]
theorem get?_empty (i : Nat) :
  (empty : Table α).get? i = none
  := by
  simp [get?, empty]

/-- Numbers that were not given out yet have no entries. -/
theorem get?_eq_none_of_le (t : Table α) {i : Nat} (h : t.next ≤ i) :
  t.get? i = none
  := by
  simp [get?, Array.getElem?_eq_none h]

/-- An entry has a number that was given out. -/
theorem lt_next_of_get? {t : Table α} {i : Nat} {a : α} (h : t.get? i = some a) :
  i < t.next
  := by
  apply Nat.lt_of_not_le
  intro hle
  rw [get?_eq_none_of_le t hle] at h
  cases h

@[simp]
theorem next_add (t : Table α) (a : α) :
  (t.add a).next = t.next + 1
  := by
  simp [next, add]

@[simp]
theorem next_modify (t : Table α) (i : Nat) (f : α → α) :
  (t.modify i f).next = t.next
  := by
  simp [next, modify]

/-- Numbers are not given out again after entries have gone. -/
@[simp]
theorem next_erase (t : Table α) (i : Nat) :
  (t.erase i).next = t.next
  := by
  simp [next, erase]

/-- A new entry gets the next number, and the others stay. -/
theorem get?_add (t : Table α) (a : α) (i : Nat) :
  (t.add a).get? i = if i = t.next then some a else t.get? i
  := by
  by_cases h : i = t.next <;> simp_all [get?, add, next, Array.getElem?_push]

/-- Only the entry with the number changes, if there is one. -/
theorem get?_modify (t : Table α) (i j : Nat) (f : α → α) :
  (t.modify i f).get? j = if i = j then (t.get? j).map f else t.get? j
  := by
  by_cases h : i = j
  · subst h
    cases hc : t.cells[i]? with
    | none => simp [get?, modify, Array.getElem?_modify, hc]
    | some o => cases o <;> simp [get?, modify, Array.getElem?_modify, hc]
  · simp [get?, modify, Array.getElem?_modify, h]

/-- Only the entry with the number goes. -/
theorem get?_erase (t : Table α) (i j : Nat) :
  (t.erase i).get? j = if i = j then none else t.get? j
  := by
  by_cases h : i = j
  · subst h
    cases hc : t.cells[i]? <;> simp [get?, erase, Array.getElem?_modify, hc]
  · simp [get?, erase, Array.getElem?_modify, h]

end Table

end Statechart
